import Kura.Engine.CompleteToUnicode

/-!
# Reading the map that is written

The stream of `buildCMapStream` is a map with sections of single codes only, and
every text that it was given is read back from it but the empty ones. It is given
the texts that were there and those that were added.
-/

namespace Kura.Engine.CompleteToUnicode

open Base (assign)
open CMap (Code TextEntry Writes findText textEntries utf16Hex)
open ScrubToUnicode (mapped writes White HexText CodeText Gap LooseSection LooseMap beginMark
  endMark looseCharsText looseBlock looseKind blocksText blocksText_cons
    textEntries_loose short_clear)
open ToUnicode (Digital)

def newline : White := ⟨[0x0A], fun c hc => by rw [List.mem_singleton.mp hc]; rfl⟩

theorem white_blank : ∀ c ∈ ([0x20] : Bytes), isSpace c = true := by
  intro c hc
  rw [List.mem_singleton.mp hc]
  rfl

def blank : White := ⟨[0x20], white_blank⟩

def codeText (twoByte : Bool) (c : Code) : CodeText where
  space := newline
  digits := codeDigits twoByte c
  digital := digital_hexPad _ _
  size := length_codeDigits twoByte c

/-- The lines of a section are strings between white space. -/
theorem exists_entries (twoByte : Bool) {es : List (Code × Bytes)} (h : ∀ e ∈ es, Digital e.2) :
    ∃ entries : List (CodeText × HexText),
      looseCharsText entries ++ [0x0A] = 0x0A :: es.flatMap (bfcharLine twoByte) ∧
        entries.map (fun e => (e.1.code, e.2.digits)) = es := by
  induction es with
  | nil => exact ⟨[], rfl, rfl⟩
  | cons e es ih =>
      obtain ⟨hdigital, hrest⟩ := List.forall_mem_cons.mp h
      obtain ⟨entries, htext, hentries⟩ := ih hrest
      refine ⟨(codeText twoByte e.1, ⟨blank, e.2, hdigital⟩) :: entries, ?_, ?_⟩
      · have hcons : ∀ x : CodeText × HexText, looseCharsText (x :: entries) ++ [0x0A] =
            (x.1.text ++ x.2.text) ++ (looseCharsText entries ++ [0x0A]) := by
          intro x
          simp [looseCharsText]
        rw [hcons, htext]
        simp [HexText.text, codeText, newline, blank, bfcharLine, lit]
      · rw [List.map_cons, hentries]
        exact congrArg₂ List.cons (Prod.ext (codeOf_codeDigits twoByte e.1) rfl) rfl

def Clear (s : Bytes) : Prop := ∀ range, ¬ beginMark range <:+: s

/-- Characters that are no letters of the words do not make one. -/
theorem clear_append {s t : Bytes} (hs : Clear s) (ht : ∀ c ∈ t, ∀ range, c ∉ beginMark range) :
    Clear (s ++ t) := by
  intro range hin
  rcases List.infix_append_iff.mp hin with hin | hin | ⟨l₁, l₂, hl, hsuf, hpre⟩
  · exact hs range hin
  · have hne : beginMark range ≠ [] := by cases range <;> decide
    obtain ⟨c, mark, hmark⟩ := List.exists_cons_of_ne_nil hne
    have hc : c ∈ beginMark range := hmark ▸ List.mem_cons_self
    exact ht c (hin.subset hc) range hc
  · cases l₂ with
    | nil =>
        rw [List.append_nil] at hl
        exact hs range (hl ▸ hsuf.isInfix)
    | cons c l₂ =>
        have hc : c ∈ beginMark range := hl ▸ List.mem_append_right _ List.mem_cons_self
        exact ht c (hpre.subset List.mem_cons_self) range hc

theorem notMem_beginMark {c : UInt8} (h : isDigit c = true ∨ c = 0x20) (range : Bool) :
    c ∉ beginMark range := by
  intro hc
  have hall : ∀ c ∈ beginMark range, ¬ (isDigit c = true ∨ c = 0x20) := by
    cases range <;> decide +kernel
  exact hall c hc h

theorem clear_number {s : Bytes} (hs : Clear s) (n : Nat) : Clear (s ++ (decimal n ++ [0x20])) := by
  refine clear_append hs fun c hc range => notMem_beginMark ?_ range
  obtain hdigit | hblank := List.mem_append.mp hc
  · exact Or.inl (isDigit_of_mem_decimal hdigit)
  · exact Or.inr (List.mem_singleton.mp hblank)

/-- The entries that are read from a section of single codes. -/
theorem read_chars (entries : List (CodeText × HexText)) (back : White) :
    (LooseSection.chars entries back).read =
      ((entries.map fun e => (e.1.code, e.2.digits)).filter fun e => e.2 ≠ []).map
        fun e => .char e.1 e.2 := by
  rw [LooseSection.read, List.filter_map, List.map_map]
  rfl

/-- What is read from a list of texts. -/
def readEntries (es : List (Code × Bytes)) : List TextEntry :=
  (es.filter fun e => e.2 ≠ []).map fun e => .char e.1 e.2

theorem readEntries_append (es es' : List (Code × Bytes)) :
    readEntries (es ++ es') = readEntries es ++ readEntries es' := by
  rw [readEntries, List.filter_append, List.map_append]
  rfl

/-- The sections behind a text without one are those of a map. -/
theorem exists_parts (twoByte : Bool) (es : List (Code × Bytes)) (h : ∀ e ∈ es, Digital e.2)
    (front rest : Bytes) (hfront : Clear front) (hrest : Clear (front ++ rest))
    (hbreak : Clear (0x0A :: rest)) :
    ∃ (parts : List (Gap × LooseSection)) (tail : Gap),
      front ++ (bfcharBlocks twoByte es ++ rest) = blocksText (parts.map looseBlock) tail.bytes ∧
        looseKind false parts = readEntries es ∧ looseKind true parts = [] := by
  fun_induction bfcharBlocks twoByte es generalizing front with
  | case1 => exact ⟨[], ⟨front ++ rest, hrest⟩, rfl, rfl, rfl⟩
  | case2 e es ih =>
      have hhere : ∀ e' ∈ (e :: es).take 100, Digital e'.2 := fun e' he' =>
        h e' (List.mem_of_mem_take he')
      have hthere : ∀ e' ∈ es.drop 99, Digital e'.2 := fun e' he' =>
        h e' (List.mem_cons_of_mem e (List.mem_of_mem_drop he'))
      obtain ⟨entries, htext, hentries⟩ := exists_entries twoByte hhere
      obtain ⟨parts, tail, hparts, hchars, hranges⟩ := ih hthere [0x0A] (by
        intro range
        exact short_clear (by decide) range) hbreak
      let gap : Gap := ⟨front ++ (decimal (min 100 (e :: es).length) ++ [0x20]),
        clear_number hfront _⟩
      refine ⟨(gap, .chars entries newline) :: parts, tail, ?_, ?_, ?_⟩
      · have hbegin : lit " beginbfchar\n" = [0x20] ++ (beginMark false ++ [0x0A]) := by decide
        have hend : lit "endbfchar\n" = endMark false ++ [0x0A] := by decide
        have hbody : (looseBlock (gap, .chars entries newline)).body =
            0x0A :: ((e :: es).take 100).flatMap (bfcharLine twoByte) := htext
        rw [List.map_cons, blocksText_cons, hbody, ← hparts, hbegin, hend]
        simp [looseBlock, LooseSection.range, gap]
      · have hread : (LooseSection.chars entries newline).read =
            readEntries ((e :: es).take 100) := by
          rw [read_chars, hentries]
          rfl
        have hsplit : (e :: es).take 100 ++ es.drop 99 = e :: es :=
          List.take_append_drop 100 (e :: es)
        rw [← hsplit, readEntries_append, ← hread, ← hchars]
        rfl
      · exact hranges

/-- A word that is not found is not there. -/
theorem not_infix_of_findText {word s : Bytes} (hne : word ≠ []) (h : findText word s = none) :
    ¬ word <:+: s := by
  induction s with
  | nil => exact fun hin => hne (List.infix_nil.mp hin)
  | cons c s ih =>
      rw [findText] at h
      split at h
      · cases h
      · rename_i hnot
        intro hin
        obtain hpre | hin := List.infix_cons_iff.mp hin
        · exact hnot (List.isPrefixOf_iff_prefix.mpr hpre)
        · exact ih h hin

/-- No section starts in the texts around the sections. -/
theorem clear_frame (twoByte : Bool) : Clear (cmapHeader twoByte) ∧
    Clear (cmapHeader twoByte ++ cmapFooter) ∧ Clear (0x0A :: cmapFooter) := by
  have hall : ∀ twoByte range : Bool, findText (beginMark range) (cmapHeader twoByte) = none ∧
      findText (beginMark range) (cmapHeader twoByte ++ cmapFooter) = none ∧
      findText (beginMark range) (0x0A :: cmapFooter) = none := by
    decide +kernel
  have hne : ∀ range, beginMark range ≠ [] := by decide
  exact ⟨fun range => not_infix_of_findText (hne range) (hall twoByte range).1,
    fun range => not_infix_of_findText (hne range) (hall twoByte range).2.1,
    fun range => not_infix_of_findText (hne range) (hall twoByte range).2.2⟩

/-- The stream is a map, from which the texts that are not empty are read. -/
theorem textEntries_buildCMapStream (twoByte : Bool) {es : List (Code × Bytes)}
    (h : ∀ e ∈ es, Digital e.2) : textEntries (buildCMapStream es twoByte) = readEntries es := by
  obtain ⟨hheader, hempty, hfooter⟩ := clear_frame twoByte
  obtain ⟨parts, tail, htext, hchars, hranges⟩ :=
    exists_parts twoByte es h (cmapHeader twoByte) cmapFooter hheader hempty hfooter
  let t : LooseMap := ⟨parts, tail⟩
  have hstream : buildCMapStream es twoByte = t.text := by
    rw [buildCMapStream, List.append_assoc, htext]
    rfl
  rw [hstream, textEntries_loose, LooseMap.read, hchars, hranges, List.append_nil]

/-- The texts that are not empty are read back, in the order of the map. -/
theorem parse_buildCMapStream (twoByte : Bool) {es : List (Code × Bytes)}
    (h : ∀ e ∈ es, Digital e.2) :
    CMap.parseExistingToUnicode CMap.allRounds (buildCMapStream es twoByte) =
      some (es.filter fun e => e.2 ≠ []) := by
  have hentries := textEntries_buildCMapStream twoByte h
  have hends : ∀ e ∈ textEntries (buildCMapStream es twoByte),
      e.loopEnd ≠ some (BitVec.allOnes 32) := by
    intro e he
    rw [hentries] at he
    obtain ⟨e', _, rfl⟩ := List.mem_map.mp he
    nofun
  rw [ScrubToUnicode.parseExistingToUnicode_eq hends, hentries, readEntries, List.flatMap_map]
  exact congrArg some (List.flatMap_singleton' _)

/-- Reading the stream back gives all texts if and only if none of them is empty. -/
theorem parse_buildCMapStream_iff (twoByte : Bool) {es : List (Code × Bytes)}
    (h : ∀ e ∈ es, Digital e.2) :
    CMap.parseExistingToUnicode CMap.allRounds (buildCMapStream es twoByte) = some es ↔
      ∀ e ∈ es, e.2 ≠ [] := by
  rw [parse_buildCMapStream twoByte h, Option.some_inj, List.filter_eq_self]
  simp only [decide_eq_true_eq]

theorem hasText_congr {m m' : Writes Bytes} {c : Code}
    (h : assign (fun _ => none) m c = assign (fun _ => none) m' c) :
    hasText m c = hasText m' c := by
  rw [hasText, hasText, h]

theorem complete_succ (fill : Nat → Option Code) (m : Writes Bytes) (count : Nat) :
    complete fill m (count + 1) = (complete fill m count).step fill count := by
  rw [complete, List.range_succ, List.foldl_append]
  rfl

/-- Where nothing is added, the texts are those that were there. -/
theorem entries_of_added {fill : Nat → Option Code} {m : Writes Bytes} {count : Nat}
    (h : (complete fill m count).added = 0) : (complete fill m count).entries = m := by
  induction count with
  | zero => rfl
  | succ count ih =>
      rw [complete_succ, Progress.step] at h ⊢
      split at h
      · rename_i htext
        rw [if_pos htext]
        exact ih h
      · rename_i htext
        rw [if_neg htext]
        cases hfill : fill count with
        | none =>
            rw [hfill] at h
            exact ih h
        | some uni =>
            rw [hfill] at h
            cases h

/-- The text of a code behind the completion. -/
theorem complete_text (fill : Nat → Option Code) (m : Writes Bytes) {count : Nat}
    (hcount : count ≤ 2 ^ 32) (c : Code) :
    assign (fun _ => none) (complete fill m count).entries c =
      if c.toNat < count ∧ hasText m c = false then
        ((fill c.toNat).map utf16Hex).or (assign (fun _ => none) m c)
      else assign (fun _ => none) m c := by
  induction count generalizing c with
  | zero => rfl
  | succ count ih =>
      have hih := ih (Nat.le_of_succ_le hcount)
      have hcode : (BitVec.ofNat 32 count).toNat = count :=
        Nat.mod_eq_of_lt (Nat.lt_of_succ_le hcount)
      -- the code that comes next was not touched before
      have hbefore :
          assign (fun _ => none) (complete fill m count).entries (BitVec.ofNat 32 count) =
            assign (fun _ => none) m (BitVec.ofNat 32 count) := by
        rw [hih, if_neg]
        rintro ⟨hlt, -⟩
        rw [hcode] at hlt
        exact lt_irrefl count hlt
      have hother : c ≠ BitVec.ofNat 32 count → (c.toNat < count + 1 ↔ c.toNat < count) := by
        intro hne
        have hnat : c.toNat ≠ count := fun heq => hne (BitVec.eq_of_toNat_eq (heq.trans hcode.symm))
        omega
      rw [complete_succ, Progress.step, hasText_congr hbefore]
      by_cases hc : c = BitVec.ofNat 32 count
      · subst hc
        rw [hcode]
        cases htext : hasText m (BitVec.ofNat 32 count) with
        | true =>
            rw [if_pos rfl, hbefore, if_neg (fun h => Bool.noConfusion h.2)]
        | false =>
            rw [if_neg Bool.false_ne_true, if_pos ⟨Nat.lt_succ_self count, rfl⟩]
            cases fill count with
            | none => exact hbefore
            | some uni => exact Base.assign_last _ _ (by simp)
      · simp only [hother hc]
        rw [← hih]
        split
        · rfl
        · cases fill count with
          | none => rfl
          | some uni =>
              dsimp only
              rw [Base.assign_append, Base.assign_cons, Base.assign_nil,
                Function.update_of_ne hc]

theorem assign_eq_find (m : Writes Bytes) (c : Code) :
    assign (fun _ => none) m c = (m.reverse.find? fun e => e.1 = c).map Prod.snd := by
  induction m using List.reverseRecOn with
  | nil => rfl
  | append_singleton m e ih =>
      rw [Base.assign_append, Base.assign_cons, Base.assign_nil, List.reverse_append,
        List.reverse_singleton, List.singleton_append, List.find?_cons]
      by_cases he : e.1 = c
      · rw [← he, Function.update_self]
        simp
      · rw [Function.update_of_ne (Ne.symm he), ih]
        simp [he]

/-- The sorted map has the last text of each code. -/
theorem mem_sorted_iff {m : Writes Bytes} {c : Code} {s : Bytes} :
    (c, s) ∈ sorted m ↔ assign (fun _ => none) m c = some s := by
  rw [sorted, Base.mem_firsts_iff (fun _ _ => BitVec.eq_of_toNat_eq), assign_eq_find,
    Option.map_eq_some_iff]
  constructor
  · intro h
    exact ⟨(c, s), h, rfl⟩
  · rintro ⟨e, he, rfl⟩
    have hkey : e.1 = c := by simpa using List.find?_some he
    rw [he, ← hkey]

/-- The map of sorted texts. -/
theorem assign_sorted {m es : Writes Bytes} (hes : es.Sublist (sorted m)) {c : Code} {s : Bytes} :
    assign (fun _ => none) es c = some s ↔ (c, s) ∈ es := by
  refine ⟨Base.mem_of_assign, fun h => ?_⟩
  obtain ⟨s', hs', heq⟩ := Base.assign_of_mem h
  have hold := mem_sorted_iff.mp (hes.subset h)
  have hnew := mem_sorted_iff.mp (hes.subset hs')
  rw [heq, Option.some.inj (hold.symm.trans hnew)]

/-- The texts in the stream are those of the map that are not empty. -/
theorem mapped_buildCMapStream {twoByte : Bool} {m : Writes Bytes}
    (h : ∀ e ∈ sorted m, Digital e.2) {c : Code} {s : Bytes} :
    mapped (buildCMapStream (sorted m) twoByte) c = some s ↔
      assign (fun _ => none) m c = some s ∧ s ≠ [] := by
  have hwrites : (textEntries (buildCMapStream (sorted m) twoByte)).flatMap writes =
      (sorted m).filter fun e => e.2 ≠ [] := by
    rw [textEntries_buildCMapStream twoByte h, readEntries, List.flatMap_map]
    exact List.flatMap_singleton' _
  rw [mapped, hwrites, assign_sorted List.filter_sublist, List.mem_filter, mem_sorted_iff,
    decide_eq_true_eq]

end Kura.Engine.CompleteToUnicode
