import Kura.Engine.CodesAgree
import Kura.Engine.ToUnicodeText

/-!
# Reading well-formed character maps

What is read from the text of a well-formed map are its entries. From a map with
any strings its ranges are read, and the single codes with a string that is not
empty.
-/

namespace Kura.Engine.ScrubToUnicode

open CMap (Code codeOf findText sections parseHexToken skipWhile TextEntry textChars textArray
  textRanges closeArray badRange textEntries)
open ToUnicode (Digital)

theorem dropWhile_white (w : White) (s : Bytes) :
    (w.bytes ++ s).dropWhile isSpace = s.dropWhile isSpace := by
  rw [List.dropWhile_append, List.dropWhile_eq_nil_iff.mpr w.white]
  rfl

theorem parseHexToken_white (w : White) (s : Bytes) :
    parseHexToken (w.bytes ++ s) = parseHexToken s := by
  rw [parseHexToken, parseHexToken, dropWhile_white]

theorem ne_close_of_digital {digits : Bytes} (h : Digital digits) :
    ∀ c ∈ digits, decide (c ≠ 0x3E) = true := by
  intro c hc
  rw [decide_eq_true_eq]
  rintro rfl
  exact absurd (h _ hc) (by decide)

/-- A string is read whole. -/
theorem parseHexToken_text (t : HexText) (rest : Bytes) :
    parseHexToken (t.text ++ rest) = (some t.digits, rest) := by
  have hclose := ne_close_of_digital t.digital
  have hbracketed :
      CMap.bracketed (0x3C :: (t.digits ++ 0x3E :: rest)) = some (t.digits, rest) := by
    rw [CMap.bracketed, if_pos, List.drop_one, List.tail_cons, List.takeWhile_append_of_pos hclose,
      List.dropWhile_append_of_pos hclose, List.takeWhile_cons_of_neg, List.dropWhile_cons_of_neg]
    · rw [List.append_nil]
      rfl
    · decide
    · decide
    · simp
  have htext : t.text ++ rest = t.space.bytes ++ 0x3C :: (t.digits ++ 0x3E :: rest) := by
    simp [HexText.text]
  rw [htext, parseHexToken_white, parseHexToken, List.dropWhile_cons_of_neg (by decide)]
  rw [if_pos (List.head?_cons), hbracketed]

/-- At something else than a string there is nothing to read. -/
theorem parseHexToken_none {c : UInt8} {s : Bytes} (hspace : isSpace c = false) (hopen : c ≠ 0x3C) :
    parseHexToken (c :: s) = (none, c :: s) := by
  have hhead : ¬ (c :: s).head? = some 0x3C := fun h => hopen (Option.some.inj h)
  rw [parseHexToken, List.dropWhile_cons_of_neg (by rw [hspace]; decide)]
  exact if_neg hhead

theorem skipWhile_white {stop : Nat} (w : White) {s : Bytes} (h : stop ≤ s.length) :
    skipWhile isSpace stop (w.bytes ++ s) = skipWhile isSpace stop s := by
  obtain ⟨bytes, hwhite⟩ := w
  induction bytes with
  | nil => rfl
  | cons c bytes ih =>
      obtain ⟨hc, hbytes⟩ := List.forall_mem_cons.mp hwhite
      have hstop : stop ≤ (bytes ++ s).length := by
        rw [List.length_append]
        omega
      rw [List.cons_append, skipWhile, if_pos ⟨hstop, hc⟩]
      exact ih hbytes

theorem skipWhile_stays {stop : Nat} {c : UInt8} {s : Bytes} (h : isSpace c = false) :
    skipWhile isSpace stop (c :: s) = c :: s := by
  rw [skipWhile, if_neg]
  rintro ⟨_, hc⟩
  rw [h] at hc
  cases hc

theorem HexText.text_length (t : HexText) (rest : Bytes) :
    rest.length < (t.text ++ rest).length := by
  simp only [HexText.text, List.length_append, List.length_cons]
  omega

/-- The end of a section: its last word and what follows. -/
structure Behind (rest : Bytes) : Prop where
  head : ∃ s, rest = 0x65 :: s

theorem behind_endMark (range : Bool) (rest : Bytes) : Behind (endMark range ++ rest) := by
  cases range <;> exact ⟨_, rfl⟩

theorem Behind.parse {rest : Bytes} (h : Behind rest) : (parseHexToken rest).1 = none := by
  obtain ⟨s, rfl⟩ := h.head
  rw [parseHexToken_none (by decide) (by decide)]

theorem textChars_back {rest : Bytes} (h : Behind rest) (back : White) :
    textChars rest.length (back.bytes ++ rest) = [] := by
  have hnone := h.parse
  rw [← parseHexToken_white back] at hnone
  rw [textChars]
  grind

theorem le_length_behind (a : Bytes) (back : White) (rest : Bytes) :
    rest.length ≤ (a ++ (back.bytes ++ rest)).length := by
  simp only [List.length_append]
  omega

/-- The characters read are the entries with a text. -/
theorem textChars_eq {rest : Bytes} (h : Behind rest) (entries : List (CodeText × HexText))
    (back : White) :
    textChars rest.length (looseCharsText entries ++ (back.bytes ++ rest)) =
      (entries.filter fun e => e.2.digits ≠ []).map fun e => .char e.1.code e.2.digits := by
  induction entries with
  | nil => exact textChars_back h back
  | cons e entries ih =>
      let more := looseCharsText entries ++ (back.bytes ++ rest)
      have htext : looseCharsText (e :: entries) ++ (back.bytes ++ rest) =
          e.1.text ++ (e.2.text ++ more) := by
        simp [looseCharsText, more]
      have hmore : rest.length ≤ more.length := le_length_behind _ back rest
      have hdst := e.2.text_length more
      have hcode := e.1.text_length (e.2.text ++ more)
      have hreadCode := parseHexToken_text e.1.toHexText (e.2.text ++ more)
      have hreadDst := parseHexToken_text e.2 more
      rw [htext, textChars, if_pos (by omega)]
      split
      · grind
      · rename_i src s₁ hsrc
        obtain ⟨rfl, rfl⟩ : src = e.1.digits ∧ s₁ = e.2.text ++ more := by
          rw [hreadCode] at hsrc
          cases hsrc
          exact ⟨rfl, rfl⟩
        rw [if_pos (by omega)]
        split
        · grind
        · rename_i dst s₂ hdst'
          obtain ⟨rfl, rfl⟩ : dst = e.2.digits ∧ s₂ = more := by
            rw [hreadDst] at hdst'
            cases hdst'
            exact ⟨rfl, rfl⟩
          rw [List.filter_cons]
          by_cases hempty : e.2.digits = []
          · rw [if_neg (fun h => h.2 hempty), if_neg (by simpa using hempty)]
            exact ih
          · rw [if_pos ⟨e.1.size.2, hempty⟩, if_pos (by simpa using hempty), List.map_cons]
            exact congrArg _ ih

/-- Behind an array. -/
theorem textArray_close {stop : Nat} (hi c : Code) (rest : Bytes) :
    textArray stop hi c (0x5D :: rest) = ([], 0x5D :: rest) := by
  have hnone : parseHexToken (0x5D :: rest) = (none, 0x5D :: rest) :=
    parseHexToken_none (by decide) (by decide)
  rw [textArray]
  grind

/-- White space in front of a string does not matter. -/
theorem textArray_white {stop : Nat} {hi c : Code} (w : White) {s : Bytes} (hc : c ≤ hi)
    (hstop : stop < s.length) :
    textArray stop hi c (w.bytes ++ s) = textArray stop hi c s := by
  have hlen : stop < (w.bytes ++ s).length := by
    rw [List.length_append]
    omega
  have hparse := parseHexToken_white w s
  rw [textArray, textArray]
  grind

theorem HexText.text_append (t : HexText) (rest : Bytes) :
    t.text ++ rest = t.space.bytes ++ 0x3C :: (t.digits ++ 0x3E :: rest) := by
  simp [HexText.text]

/-- The codes of an array are counted up from the first. -/
theorem textArray_eq {stop : Nat} {hi : Code} (back : White) {rest : Bytes}
    (hstop : stop ≤ rest.length) (dsts : List HexText) (c : Code)
    (hcodes : ∀ i < dsts.length, c + BitVec.ofNat 32 i ≤ hi) :
    textArray stop hi c (skipWhile isSpace stop
      (looseArrayText dsts ++ (back.bytes ++ 0x5D :: rest))) =
        (looseArrayEntries c dsts, 0x5D :: rest) := by
  induction dsts generalizing c with
  | nil =>
      have hle : stop ≤ (0x5D :: rest).length := hstop.trans (Nat.le_succ _)
      rw [looseArrayText, List.flatMap_nil, List.nil_append, skipWhile_white back hle,
        skipWhile_stays (by decide), textArray_close]
      rfl
  | cons d dsts ih =>
      let more := looseArrayText dsts ++ (back.bytes ++ 0x5D :: rest)
      have htext : looseArrayText (d :: dsts) ++ (back.bytes ++ 0x5D :: rest) = d.text ++ more := by
        simp [looseArrayText, more]
      have hmore : stop < more.length := by
        simp only [more, List.length_append, List.length_cons]
        omega
      have hopen : stop < (0x3C :: (d.digits ++ 0x3E :: more)).length := by
        simp only [List.length_append, List.length_cons]
        omega
      have hc : c ≤ hi := by
        have h := hcodes 0 (Nat.succ_pos _)
        rwa [BitVec.add_zero] at h
      have hnext : ∀ i < dsts.length, c + 1 + BitVec.ofNat 32 i ≤ hi := by
        intro i hi'
        have h := hcodes (i + 1) (Nat.succ_lt_succ hi')
        rwa [Nat.add_comm, BitVec.ofNat_add, ← BitVec.add_assoc] at h
      have hread := parseHexToken_text d more
      have hlen := d.text_length more
      rw [htext, d.text_append, skipWhile_white d.space hopen.le, skipWhile_stays (by decide),
        ← textArray_white d.space hc hopen, ← d.text_append, textArray, if_pos ⟨hc, by omega⟩]
      split
      · grind
      · rename_i dst s₁ hdst
        obtain ⟨rfl, rfl⟩ : dst = d.digits ∧ s₁ = more := by
          rw [hread] at hdst
          cases hdst
          exact ⟨rfl, rfl⟩
        rw [ih (c + 1) hnext]
        rfl

/-- White space that is skipped in front of an array does not matter. -/
theorem textArray_skip {stop : Nat} {hi c : Code} (back : White) {rest : Bytes}
    (hstop : stop ≤ rest.length) (dsts : List HexText) (hsome : 0 < dsts.length) (hc : c ≤ hi) :
    textArray stop hi c
      (skipWhile isSpace stop (looseArrayText dsts ++ (back.bytes ++ 0x5D :: rest))) =
      textArray stop hi c (looseArrayText dsts ++ (back.bytes ++ 0x5D :: rest)) := by
  obtain ⟨d, dsts, rfl⟩ := List.exists_cons_of_length_pos hsome
  let more := looseArrayText dsts ++ (back.bytes ++ 0x5D :: rest)
  have htext : looseArrayText (d :: dsts) ++ (back.bytes ++ 0x5D :: rest) = d.text ++ more := by
    simp [looseArrayText, more]
  have hopen : stop < (0x3C :: (d.digits ++ 0x3E :: more)).length := by
    simp only [more, List.length_append, List.length_cons]
    omega
  rw [htext, d.text_append, skipWhile_white d.space hopen.le, skipWhile_stays (by decide),
    textArray_white d.space hc hopen]

theorem textRanges_back {rest : Bytes} (h : Behind rest) (back : White) :
    textRanges rest.length (back.bytes ++ rest) = [] := by
  have hnone := h.parse
  rw [← parseHexToken_white back] at hnone
  rw [textRanges]
  grind

theorem textRanges_white {stop : Nat} (w : White) {s : Bytes} (hstop : stop < s.length) :
    textRanges stop (w.bytes ++ s) = textRanges stop s := by
  have hlen : stop < (w.bytes ++ s).length := by
    rw [List.length_append]
    omega
  have hparse := parseHexToken_white w s
  rw [textRanges, textRanges, if_pos hlen, if_pos hstop]
  grind

theorem LooseRange.text_start (e : LooseRange) :
    ∃ (lo : CodeText) (more : Bytes), e.text = lo.text ++ more := by
  cases e with
  | single lo hi dst good => exact ⟨lo, _, rfl⟩
  | array lo hi front dsts back good full => exact ⟨lo, _, rfl⟩

/-- White space that is skipped in front of a range does not matter. -/
theorem textRanges_skip {rest : Bytes} (h : Behind rest) (entries : List LooseRange)
    (back : White) :
    textRanges rest.length (skipWhile isSpace rest.length
      (looseRangesText entries ++ (back.bytes ++ rest))) =
      textRanges rest.length (looseRangesText entries ++ (back.bytes ++ rest)) := by
  cases entries with
  | nil =>
      obtain ⟨s, rfl⟩ := h.head
      have hnone := textRanges_back h ⟨[], by simp⟩
      rw [looseRangesText, List.flatMap_nil, List.nil_append, skipWhile_white back le_rfl,
        skipWhile_stays (by decide), textRanges_back h back]
      exact hnone
  | cons e entries =>
      obtain ⟨lo, more, he⟩ := e.text_start
      let behind := more ++ (looseRangesText entries ++ (back.bytes ++ rest))
      have htext : looseRangesText (e :: entries) ++ (back.bytes ++ rest) = lo.text ++ behind := by
        simp [looseRangesText, he, behind]
      have hopen : rest.length < (0x3C :: (lo.digits ++ 0x3E :: behind)).length := by
        simp only [behind, List.length_append, List.length_cons]
        omega
      rw [htext, lo.text_append, skipWhile_white lo.space hopen.le, skipWhile_stays (by decide),
        textRanges_white lo.space hopen]

/-- A range with one text is read as a range. -/
theorem textRanges_single {stop : Nat} {lo hi : CodeText} (dst : HexText) {s : Bytes}
    (hgood : badRange lo.code hi.code = false) (hstop : stop ≤ s.length) :
    textRanges stop (lo.text ++ (hi.text ++ (dst.text ++ s))) =
      .range lo.code hi.code dst.digits :: textRanges stop (skipWhile isSpace stop s) := by
  have hlo := parseHexToken_text lo.toHexText (hi.text ++ (dst.text ++ s))
  have hhi := parseHexToken_text hi.toHexText (dst.text ++ s)
  have hlen : stop < (lo.text ++ (hi.text ++ (dst.text ++ s))).length := by
    have h₁ := dst.text_length s
    have h₂ := hi.text_length (dst.text ++ s)
    have h₃ := lo.text_length (hi.text ++ (dst.text ++ s))
    omega
  have hopen : stop ≤ (0x3C :: (dst.digits ++ 0x3E :: s)).length := by
    simp only [List.length_append, List.length_cons]
    omega
  have hskip : skipWhile isSpace stop (dst.text ++ s) = 0x3C :: (dst.digits ++ 0x3E :: s) := by
    rw [dst.text_append, skipWhile_white dst.space hopen, skipWhile_stays (by decide)]
  have hdst : parseHexToken (0x3C :: (dst.digits ++ 0x3E :: s)) = (some dst.digits, s) := by
    have h := parseHexToken_text dst s
    rwa [dst.text_append, parseHexToken_white] at h
  have hhead : ¬ (stop < (0x3C :: (dst.digits ++ 0x3E :: s)).length ∧
      (0x3C :: (dst.digits ++ 0x3E :: s)).head? = some 0x5B) := by
    rintro ⟨_, h⟩
    cases h
  rw [textRanges, if_pos hlen]
  unfold CodeText.code at hgood ⊢
  grind

/-- A range with an array is read as the array's entries. -/
theorem textRanges_array {stop : Nat} {lo hi : CodeText} (front : White) {s s' : Bytes}
    {es : List TextEntry} (hgood : badRange lo.code hi.code = false) (hstop : stop ≤ s.length)
    (hlt : stop < s'.length + 1)
    (harray : textArray stop hi.code lo.code s = (es, 0x5D :: s')) :
    textRanges stop (lo.text ++ (hi.text ++ (front.bytes ++ 0x5B :: s))) =
      es ++ textRanges stop (skipWhile isSpace stop s') := by
  have hlo := parseHexToken_text lo.toHexText (hi.text ++ (front.bytes ++ 0x5B :: s))
  have hhi := parseHexToken_text hi.toHexText (front.bytes ++ 0x5B :: s)
  have hlen : stop < (lo.text ++ (hi.text ++ (front.bytes ++ 0x5B :: s))).length := by
    have h₁ := hi.text_length (front.bytes ++ 0x5B :: s)
    have h₂ := lo.text_length (hi.text ++ (front.bytes ++ 0x5B :: s))
    simp only [List.length_append, List.length_cons] at h₁ h₂ ⊢
    omega
  have hopen : stop < (0x5B :: s).length := Nat.lt_succ_of_le hstop
  have hskip : skipWhile isSpace stop (front.bytes ++ 0x5B :: s) = 0x5B :: s := by
    rw [skipWhile_white front hopen.le, skipWhile_stays (by decide)]
  have hclose : closeArray stop (0x5D :: s') = s' := by
    rw [closeArray, if_pos ⟨hlt, rfl⟩]
    rfl
  have hhead : stop < (0x5B :: s).length ∧ (0x5B :: s).head? = some 0x5B := ⟨hopen, rfl⟩
  rw [textRanges, if_pos hlen]
  unfold CodeText.code at hgood harray
  grind

theorem le_of_range {lo hi : Code} (hgood : badRange lo hi = false) {i : Nat}
    (hi' : i < (hi - lo).toNat + 1) : lo + BitVec.ofNat 32 i ≤ hi := by
  rw [badRange, Bool.or_eq_false_iff, decide_eq_false_iff_not] at hgood
  bv_omega

/-- The ranges read are the entries of the section's ranges. -/
theorem textRanges_eq {rest : Bytes} (h : Behind rest) (entries : List LooseRange) (back : White) :
    textRanges rest.length (looseRangesText entries ++ (back.bytes ++ rest)) =
      entries.flatMap LooseRange.entries := by
  induction entries with
  | nil => exact textRanges_back h back
  | cons e entries ih =>
      let more := looseRangesText entries ++ (back.bytes ++ rest)
      have hmore : rest.length ≤ more.length := le_length_behind _ back rest
      have hnext : textRanges rest.length (skipWhile isSpace rest.length more) =
          entries.flatMap LooseRange.entries := (textRanges_skip h entries back).trans ih
      cases e with
      | single lo hi dst good =>
          have htext : looseRangesText (.single lo hi dst good :: entries) ++ (back.bytes ++ rest) =
              lo.text ++ (hi.text ++ (dst.text ++ more)) := by
            simp [looseRangesText, LooseRange.text, more]
          rw [htext, textRanges_single dst good hmore, hnext]
          rfl
      | array lo hi front dsts last good full =>
          let strings := looseArrayText dsts ++ (last.bytes ++ 0x5D :: more)
          have htext : looseRangesText (.array lo hi front dsts last good full :: entries) ++
              (back.bytes ++ rest) = lo.text ++ (hi.text ++ (front.bytes ++ 0x5B :: strings)) := by
            simp [looseRangesText, LooseRange.text, more, strings]
          have hcodes : ∀ i < dsts.length, lo.code + BitVec.ofNat 32 i ≤ hi.code :=
            fun i hi' => le_of_range good (full ▸ hi')
          have hstop : rest.length ≤ strings.length := by
            simp only [strings, List.length_append, List.length_cons]
            omega
          have harray : textArray rest.length hi.code lo.code strings =
              (looseArrayEntries lo.code dsts, 0x5D :: more) := by
            rw [← textArray_eq last hmore dsts lo.code hcodes]
            exact (textArray_skip last hmore dsts (full ▸ Nat.succ_pos _)
              (by simpa using le_of_range good (Nat.succ_pos _))).symm
          rw [htext, textRanges_array front good hstop (Nat.lt_succ_of_le hmore) harray, hnext]
          rfl

theorem sections_congr {first last s s' : Bytes} {lead : Nat} {skip : ℕ+}
    (h : findText first s = findText first s') :
    sections first last lead skip s = sections first last lead skip s' := by
  rw [sections, sections]
  grind

theorem sections_cons {first last s t u : Bytes} {lead : Nat} {skip : ℕ+}
    (hfirst : findText first s = some t) (hlast : findText last (t.drop lead) = some u) :
    sections first last lead skip s =
      (t.drop first.length, u.length) :: sections first last lead skip (u.drop skip) := by
  rw [sections]
  grind

theorem partsText_cons (p : Gap × SectionText) (parts : List (Gap × SectionText)) (tail : Bytes) :
    partsText (p :: parts) tail = p.1.bytes ++ (beginMark p.2.range ++
      (p.2.body ++ (endMark p.2.range ++ partsText parts tail))) := by
  simp [partsText, SectionText.text]

/-- A section of the other kind is passed over. -/
theorem findText_block {range : Bool} {b : Block} (hkind : b.range ≠ range) (rest : Bytes) :
    findText (beginMark range) (b.front.bytes ++ (beginMark b.range ++
      (b.body ++ (endMark b.range ++ rest)))) = findText (beginMark range) rest := by
  have hother : b.range = !range := Bool.eq_not.mpr hkind
  rw [findText_gap, hother, findText_beginMark_other, findText_body _ _ b.plain,
    findText_beginMark_endMark]

section Blocks

variable {range : Bool} {lead : Nat} {skip : ℕ+}

/-- A section is read if it is of the kind that is looked for. -/
theorem sections_block (hlead : lead = (beginMark range).length)
    (hskip : (skip : Nat) = (endMark range).length) (b : Block)
    (read : Nat → Bytes → List TextEntry) (rest : Bytes) :
    (sections (beginMark range) (endMark range) lead skip (b.front.bytes ++ (beginMark b.range ++
        (b.body ++ (endMark b.range ++ rest))))).flatMap (fun sec => read sec.2 sec.1) =
      (if b.range = range then read (endMark range ++ rest).length
        (b.body ++ (endMark range ++ rest))
        else []) ++
      (sections (beginMark range) (endMark range) lead skip rest).flatMap
        fun sec => read sec.2 sec.1 := by
  by_cases hkind : b.range = range
  · let text := b.body ++ (endMark range ++ rest)
    have hfirst : findText (beginMark range) (b.front.bytes ++ (beginMark range ++ text)) =
        some (beginMark range ++ text) := by
      rw [findText_gap, findText_here]
      cases range <;> decide
    have hdrop : (beginMark range ++ text).drop (beginMark range).length = text := List.drop_left
    have hlast : findText (endMark range) ((beginMark range ++ text).drop lead) =
        some (endMark range ++ rest) := by
      rw [hlead, hdrop]
      exact findText_endMark range b.plain rest
    rw [if_pos hkind, hkind, sections_cons hfirst hlast, List.flatMap_cons, hdrop, hskip,
      List.drop_left]
  · rw [if_neg hkind, sections_congr (findText_block hkind rest), List.nil_append]

/-- The sections of one kind are read one after the other. -/
theorem sections_entries {α : Type} (hlead : lead = (beginMark range).length)
    (hskip : (skip : Nat) = (endMark range).length) (block : α → Block)
    (entries : α → List TextEntry) (read : Nat → Bytes → List TextEntry)
    (hread : ∀ p rest, (block p).range = range →
      read (endMark range ++ rest).length ((block p).body ++ (endMark range ++ rest)) = entries p)
    (parts : List α) (tail : Gap) :
    (sections (beginMark range) (endMark range) lead skip
        (blocksText (parts.map block) tail.bytes)).flatMap (fun sec => read sec.2 sec.1) =
      parts.flatMap fun p => if (block p).range = range then entries p else [] := by
  induction parts with
  | nil =>
      have hnone : findText (beginMark range) (blocksText [] tail.bytes) = none :=
        findText_tail range tail
      rw [List.map_nil, CMap.sections_none hnone]
      rfl
  | cons p parts ih =>
      rw [List.map_cons, List.flatMap_cons, blocksText_cons, sections_block hlead hskip, ih]
      congr 1
      split
      · rename_i hkind
        exact hread p _ hkind
      · rfl

end Blocks

theorem charsSections_read (p : Gap × LooseSection) (rest : Bytes)
    (hkind : (looseBlock p).range = false) :
    textChars (endMark false ++ rest).length ((looseBlock p).body ++ (endMark false ++ rest)) =
      p.2.read := by
  obtain ⟨front, sec⟩ := p
  cases sec with
  | chars entries back =>
      have hbody : (looseBlock (front, .chars entries back)).body =
          looseCharsText entries ++ back.bytes := rfl
      rw [hbody, List.append_assoc]
      exact textChars_eq (behind_endMark false rest) entries back
  | ranges entries back => cases hkind

theorem rangesSections_read (p : Gap × LooseSection) (rest : Bytes)
    (hkind : (looseBlock p).range = true) :
    textRanges (endMark true ++ rest).length ((looseBlock p).body ++ (endMark true ++ rest)) =
      p.2.read := by
  obtain ⟨front, sec⟩ := p
  cases sec with
  | chars entries back => cases hkind
  | ranges entries back =>
      have hbody : (looseBlock (front, .ranges entries back)).body =
          looseRangesText entries ++ back.bytes := rfl
      rw [hbody, List.append_assoc]
      exact textRanges_eq (behind_endMark true rest) entries back

/-- What is read from the text of a map. -/
theorem textEntries_loose (t : LooseMap) : textEntries t.text = t.read := by
  have hchars : (sections (beginMark false) (endMark false) 11 9 t.text).flatMap
      (fun sec => textChars sec.2 sec.1) = looseKind false t.parts :=
    sections_entries (by decide) rfl looseBlock _ textChars charsSections_read t.parts t.tail
  have hranges : (sections (beginMark true) (endMark true) 12 10 t.text).flatMap
      (fun sec => textRanges sec.2 sec.1) = looseKind true t.parts :=
    sections_entries (by decide) rfl looseBlock _ textRanges rangesSections_read t.parts t.tail
  exact congrArg₂ (· ++ ·) hchars hranges

/-- The entries of a well-formed map are read from its text. -/
theorem textEntries_text (t : MapText) : textEntries t.text = t.entries := by
  rw [← t.loose_text, textEntries_loose, t.loose_read]

end Kura.Engine.ScrubToUnicode
