import Kura.Engine.ScrubbedChars
import Kura.Engine.ToUnicodeRead

/-!
# Editing well-formed character maps

What is read from the edited text of a well-formed map are the entries of the
map, edited one by one. The text in front of a section is written twice, but no
section starts in it: from such a part nothing is read, whatever follows.
-/

namespace Kura.Engine.ScrubToUnicode

open Base (startsNowhere_of_apart)
open CMap (Code findText sections TextEntry textChars textRanges textEntries)

/-- The string with the replacements written into it. -/
def DstText.scrub (banned : Bool) (d : DstText) : DstText where
  space := d.space
  digits := (scrubQuads banned d.digits).1
  digital := (scrubQuads_edited banned d.digital d.units).digital
  nonempty := scrubQuads_ne_nil banned d.digital d.units d.nonempty
  units := (scrubQuads_edited banned d.digital d.units).whole

def RangeText.scrub (banned : Bool) : RangeText → RangeText
  | single lo hi dst good => single lo hi (dst.scrub banned) good
  | array lo hi front dsts back good full =>
      array lo hi front (dsts.map (DstText.scrub banned)) back good
        ((List.length_map _).trans full)

def SectionText.scrub (banned : Bool) : SectionText → SectionText
  | chars entries back => chars (entries.map fun e => (e.1, e.2.scrub banned)) back
  | ranges entries back => ranges (entries.map (RangeText.scrub banned)) back

@[simp]
theorem SectionText.scrub_range (banned : Bool) (s : SectionText) :
    (s.scrub banned).range = s.range := by
  cases s <;> rfl

/-- A section with its strings edited, up to its last word. -/
def editSection (banned range : Bool) (stop : Nat) (p : Phase) (s : Bytes) : Bytes × Bool :=
  match _hnext : nextString stop s with
  | none => (s.take (s.length - stop), false)
  | some (skipped, digits, rest) =>
      let p := skipped.foldl Phase.bracket p
      let edited := if p.isDst range then scrubDst banned digits else none
      let more := editSection banned range stop (p.next range) rest
      (skipped ++ 0x3C :: edited.getD digits ++ 0x3E :: more.1, edited.isSome || more.2)
  termination_by s.length
  decreasing_by exact nextString_length _hnext

/-- The next string is the one between the next two angle brackets. -/
theorem nextString_cons {stop : Nat} {skipped digits rest : Bytes} (hskip : 0x3C ∉ skipped)
    (hdigits : 0x3E ∉ digits) (hstop : stop ≤ rest.length) :
    nextString stop (skipped ++ 0x3C :: (digits ++ 0x3E :: rest)) =
      some (skipped, digits, rest) := by
  have hskip' : ∀ c ∈ skipped, decide (c ≠ 0x3C) = true := by
    intro c hc
    rw [decide_eq_true_eq]
    rintro rfl
    exact hskip hc
  have hdigits' : ∀ c ∈ digits, decide (c ≠ 0x3E) = true := by
    intro c hc
    rw [decide_eq_true_eq]
    rintro rfl
    exact hdigits hc
  have hdrop : (skipped ++ 0x3C :: (digits ++ 0x3E :: rest)).dropWhile (· ≠ 0x3C) =
      0x3C :: (digits ++ 0x3E :: rest) := by
    rw [List.dropWhile_append_of_pos hskip', List.dropWhile_cons_of_neg (by decide)]
  have hdrop' : (digits ++ 0x3E :: rest).dropWhile (· ≠ 0x3E) = 0x3E :: rest := by
    rw [List.dropWhile_append_of_pos hdigits', List.dropWhile_cons_of_neg (by decide)]
  have htake : (skipped ++ 0x3C :: (digits ++ 0x3E :: rest)).takeWhile (· ≠ 0x3C) = skipped := by
    rw [List.takeWhile_append_of_pos hskip', List.takeWhile_cons_of_neg (by decide),
      List.append_nil]
  have htake' : (digits ++ 0x3E :: rest).takeWhile (· ≠ 0x3E) = digits := by
    rw [List.takeWhile_append_of_pos hdigits', List.takeWhile_cons_of_neg (by decide),
      List.append_nil]
  have hlen : ¬ (0x3C :: (digits ++ 0x3E :: rest)).length ≤ stop := by
    simp only [List.length_cons, List.length_append]
    omega
  have hlen' : ¬ (0x3E :: rest).length ≤ stop := by
    rw [List.length_cons]
    omega
  rw [nextString]
  simp only [hdrop, htake, if_neg hlen, List.drop_one, List.tail_cons, hdrop', htake', if_neg hlen']

theorem nextString_none {stop : Nat} {skipped rest : Bytes} (hskip : 0x3C ∉ skipped)
    (hstop : rest.length ≤ stop) : nextString stop (skipped ++ rest) = none := by
  have hskip' : ∀ c ∈ skipped, decide (c ≠ 0x3C) = true := by
    intro c hc
    rw [decide_eq_true_eq]
    rintro rfl
    exact hskip hc
  have hlen : ((skipped ++ rest).dropWhile (· ≠ 0x3C)).length ≤ stop := by
    rw [List.dropWhile_append_of_pos hskip']
    exact (List.dropWhile_suffix _).length_le.trans hstop
  rw [nextString]
  exact if_pos hlen

/-- A part of a section without a string, and where the edit stands behind it. -/
structure Front (p : Phase) (front : Bytes) (q : Phase) : Prop where
  clear : 0x3C ∉ front
  fold : front.foldl Phase.bracket p = q

theorem white_front (p : Phase) (w : White) : Front p w.bytes p := by
  have hne : ∀ c ∈ w.bytes, c ≠ 0x3C ∧ c ≠ 0x5B ∧ c ≠ 0x5D := by
    intro c hc
    have hwhite := w.white c hc
    refine ⟨?_, ?_, ?_⟩ <;> (rintro rfl; exact absurd hwhite (by decide))
  refine ⟨fun h => (hne _ h).1 rfl, ?_⟩
  generalize w.bytes = bytes at hne
  induction bytes with
  | nil => rfl
  | cons c bytes ih =>
      obtain ⟨⟨_, hopen, hclose⟩, hrest⟩ := List.forall_mem_cons.mp hne
      rw [List.foldl_cons, Phase.bracket, if_neg hopen, if_neg hclose]
      exact ih hrest

theorem Front.append {p q r : Phase} {front front' : Bytes} (h : Front p front q)
    (h' : Front q front' r) : Front p (front ++ front') r := by
  refine ⟨fun hmem => (List.mem_append.mp hmem).elim h.clear h'.clear, ?_⟩
  rw [List.foldl_append, h.fold, h'.fold]

section Section

variable {banned range : Bool} {stop : Nat} {p q r : Phase} {front rest : Bytes}

theorem editSection_hex (t : HexText) (hfront : Front p front q) (hstop : stop ≤ rest.length) :
    (editSection banned range stop p (front ++ (t.text ++ rest))).1 =
      front ++ (t.space.bytes ++ 0x3C :: ((if q.isDst range then scrubDst banned t.digits
        else none).getD t.digits ++ 0x3E ::
          (editSection banned range stop (q.next range) rest).1)) := by
  have hclose : 0x3E ∉ t.digits := fun h => absurd (t.digital _ h) (by decide)
  have hnext := nextString_cons (hfront.append (white_front q t.space)).clear hclose hstop
  have hfold := (hfront.append (white_front q t.space)).fold
  rw [t.text_append, ← List.append_assoc, editSection]
  split
  · grind
  · rename_i skipped digits rest' heq
    rw [hnext] at heq
    cases heq
    rw [hfold]
    simp

theorem editSection_end (hfront : Front p front q) :
    (editSection banned range rest.length p (front ++ rest)).1 = front := by
  have hnone : nextString rest.length (front ++ rest) = none :=
    nextString_none hfront.clear le_rfl
  rw [editSection]
  split
  · rw [List.length_append, Nat.add_sub_cancel, List.take_left]
  · grind

/-- A string that is a code is left as it is. -/
theorem editSection_code (t : HexText) (hfront : Front p front q) (hstop : stop ≤ rest.length)
    (hcode : q.isDst range = false) (hnext : q.next range = r) :
    (editSection banned range stop p (front ++ (t.text ++ rest))).1 =
      front ++ (t.text ++ (editSection banned range stop r rest).1) := by
  rw [editSection_hex t hfront hstop, hcode, hnext, t.text_append]
  rfl

/-- A string that is given to a code is edited. -/
theorem editSection_dst (d : DstText) (hfront : Front p front q) (hstop : stop ≤ rest.length)
    (hdst : q.isDst range = true) (hnext : q.next range = r) :
    (editSection banned range stop p (front ++ (d.text ++ rest))).1 =
      front ++ ((d.scrub banned).text ++ (editSection banned range stop r rest).1) := by
  rw [editSection_hex d.toHexText hfront hstop, hdst, if_pos rfl, hnext,
    scrubDst_getD banned d.digital d.units, (d.scrub banned).text_append]
  rfl

end Section

theorem next_chars_code (inArray : Bool) : Phase.next false ⟨inArray, 0⟩ = ⟨inArray, 1⟩ := by
  simp [Phase.next]

theorem next_chars_dst (inArray : Bool) : Phase.next false ⟨inArray, 1⟩ = ⟨inArray, 0⟩ := by
  simp [Phase.next]

theorem next_ranges_lo : Phase.next true ⟨false, 0⟩ = ⟨false, 1⟩ := rfl

theorem next_ranges_hi : Phase.next true ⟨false, 1⟩ = ⟨false, 2⟩ := rfl

theorem next_ranges_dst : Phase.next true ⟨false, 2⟩ = ⟨false, 0⟩ := rfl

theorem next_ranges_array : Phase.next true ⟨true, 2⟩ = ⟨true, 2⟩ := rfl

theorem front_nil (p : Phase) : Front p [] p := ⟨List.not_mem_nil, rfl⟩

/-- In a section of characters each text is edited, the codes stay. -/
theorem editSection_chars (banned inArray : Bool) {rest front : Bytes} {p : Phase}
    (hfront : Front p front ⟨inArray, 0⟩) (entries : List (CodeText × DstText)) (back : White) :
    (editSection banned false rest.length p
      (front ++ (charsText entries ++ (back.bytes ++ rest)))).1 =
      front ++ (charsText (entries.map fun e => (e.1, e.2.scrub banned)) ++ back.bytes) := by
  induction entries generalizing front p with
  | nil =>
      have h : (editSection banned false rest.length p ((front ++ back.bytes) ++ rest)).1 =
          front ++ back.bytes := editSection_end (hfront.append (white_front _ back))
      rwa [List.append_assoc] at h
  | cons e entries ih =>
      let more := charsText entries ++ (back.bytes ++ rest)
      have htext : charsText (e :: entries) ++ (back.bytes ++ rest) =
          e.1.text ++ (e.2.text ++ more) := by
        simp [charsText, more]
      have hmore : rest.length ≤ more.length := le_length_behind _ back rest
      have hcode : rest.length ≤ (e.2.text ++ more).length := by
        rw [List.length_append]
        omega
      have hnext : (editSection banned false rest.length ⟨inArray, 0⟩ more).1 =
          charsText (entries.map fun e => (e.1, e.2.scrub banned)) ++ back.bytes :=
        ih (front_nil ⟨inArray, 0⟩)
      have hdst : (editSection banned false rest.length ⟨inArray, 1⟩ (e.2.text ++ more)).1 =
          (e.2.scrub banned).text ++
            (editSection banned false rest.length ⟨inArray, 0⟩ more).1 :=
        editSection_dst e.2 (front_nil ⟨inArray, 1⟩) hmore rfl (next_chars_dst inArray)
      rw [htext, editSection_code e.1.toHexText hfront hcode rfl (next_chars_code inArray),
        hdst, hnext]
      simp [charsText]

theorem bracket_front (p : Phase) {c : UInt8} (hc : c ≠ 0x3C) : Front p [c] (p.bracket c) :=
  ⟨fun h => hc (List.mem_singleton.mp h).symm, rfl⟩

/-- In an array each text is edited. -/
theorem editSection_array (banned : Bool) {stop : Nat} {rest front : Bytes} {p : Phase}
    (hstop : stop ≤ rest.length) (hfront : Front p front ⟨true, 2⟩) (d : DstText)
    (dsts : List DstText) :
    (editSection banned true stop p (front ++ (arrayText (d :: dsts) ++ rest))).1 =
      front ++ (arrayText ((d :: dsts).map (DstText.scrub banned)) ++
        (editSection banned true stop ⟨true, 2⟩ rest).1) := by
  induction dsts generalizing d front p with
  | nil =>
      have h : (editSection banned true stop p (front ++ (d.text ++ rest))).1 =
          front ++ ((d.scrub banned).text ++ (editSection banned true stop ⟨true, 2⟩ rest).1) :=
        editSection_dst d hfront hstop rfl next_ranges_array
      simpa [arrayText] using h
  | cons d' dsts ih =>
      let more := arrayText (d' :: dsts) ++ rest
      have hmore : stop ≤ more.length := by
        simp only [more, List.length_append]
        omega
      have htext : arrayText (d :: d' :: dsts) ++ rest = d.text ++ more := by
        simp [arrayText, more]
      have hnext : (editSection banned true stop ⟨true, 2⟩ more).1 =
          arrayText ((d' :: dsts).map (DstText.scrub banned)) ++
            (editSection banned true stop ⟨true, 2⟩ rest).1 := ih (front_nil _) d'
      rw [htext, editSection_dst d hfront hmore rfl next_ranges_array, hnext]
      simp [arrayText]

/-- In a section of ranges each text is edited, the codes stay. -/
theorem editSection_ranges (banned : Bool) {rest front : Bytes} {p : Phase}
    (hfront : Front p front ⟨false, 0⟩) (entries : List RangeText) (back : White) :
    (editSection banned true rest.length p
      (front ++ (rangesText entries ++ (back.bytes ++ rest)))).1 =
      front ++ (rangesText (entries.map (RangeText.scrub banned)) ++ back.bytes) := by
  induction entries generalizing front p with
  | nil =>
      have h : (editSection banned true rest.length p ((front ++ back.bytes) ++ rest)).1 =
          front ++ back.bytes := editSection_end (hfront.append (white_front _ back))
      rwa [List.append_assoc] at h
  | cons e entries ih =>
      let more := rangesText entries ++ (back.bytes ++ rest)
      have hmore : rest.length ≤ more.length := le_length_behind _ back rest
      cases e with
      | single lo hi dst good =>
          have htext : rangesText (.single lo hi dst good :: entries) ++ (back.bytes ++ rest) =
              lo.text ++ (hi.text ++ (dst.text ++ more)) := by
            simp [rangesText, RangeText.text, more]
          have hhi : rest.length ≤ (dst.text ++ more).length := by
            rw [List.length_append]
            omega
          have hlo : rest.length ≤ (hi.text ++ (dst.text ++ more)).length := by
            rw [List.length_append]
            omega
          have h1 : (editSection banned true rest.length ⟨false, 1⟩
              (hi.text ++ (dst.text ++ more))).1 =
              hi.text ++ (editSection banned true rest.length ⟨false, 2⟩ (dst.text ++ more)).1 :=
            editSection_code hi.toHexText (front_nil ⟨false, 1⟩) hhi rfl next_ranges_hi
          have h2 : (editSection banned true rest.length ⟨false, 2⟩ (dst.text ++ more)).1 =
              (dst.scrub banned).text ++
                (editSection banned true rest.length ⟨false, 0⟩ more).1 :=
            editSection_dst dst (front_nil ⟨false, 2⟩) hmore rfl next_ranges_dst
          have h3 : (editSection banned true rest.length ⟨false, 0⟩ more).1 =
              rangesText (entries.map (RangeText.scrub banned)) ++ back.bytes := ih (front_nil _)
          rw [htext, editSection_code lo.toHexText hfront hlo rfl next_ranges_lo, h1, h2, h3]
          simp [rangesText, RangeText.text, RangeText.scrub]
      | array lo hi gap dsts last good full =>
          have hsome : 0 < dsts.length := by omega
          obtain ⟨d, dsts, rfl⟩ := List.exists_cons_of_length_pos hsome
          let behind := (last.bytes ++ [0x5D]) ++ more
          let strings := (gap.bytes ++ [0x5B]) ++ (arrayText (d :: dsts) ++ behind)
          have htext : rangesText (.array lo hi gap (d :: dsts) last good full :: entries) ++
              (back.bytes ++ rest) = lo.text ++ (hi.text ++ strings) := by
            simp [rangesText, RangeText.text, more, strings, behind]
          have hbehind : rest.length ≤ behind.length := by
            simp only [behind, List.length_append]
            omega
          have hhi : rest.length ≤ strings.length := by
            simp only [strings, List.length_append]
            omega
          have hlo : rest.length ≤ (hi.text ++ strings).length := by
            rw [List.length_append]
            omega
          have hopen : Front ⟨false, 2⟩ (gap.bytes ++ [0x5B]) ⟨true, 2⟩ :=
            (white_front _ gap).append (bracket_front _ (by decide))
          have hclose : Front ⟨true, 2⟩ (last.bytes ++ [0x5D]) ⟨false, 0⟩ :=
            (white_front _ last).append (bracket_front _ (by decide))
          have h1 : (editSection banned true rest.length ⟨false, 1⟩ (hi.text ++ strings)).1 =
              hi.text ++ (editSection banned true rest.length ⟨false, 2⟩ strings).1 :=
            editSection_code hi.toHexText (front_nil ⟨false, 1⟩) hhi rfl next_ranges_hi
          have h2 := editSection_array banned hbehind hopen d dsts
          have h3 := ih hclose
          rw [htext, editSection_code lo.toHexText hfront hlo rfl next_ranges_lo, h1, h2, h3]
          simp [rangesText, RangeText.text, RangeText.scrub]

theorem beginMark_front (range : Bool) (p : Phase) : Front p (beginMark range) p := by
  cases range with
  | false => exact ⟨by decide, rfl⟩
  | true => exact ⟨by decide, rfl⟩

/-- The strings of a section are edited one by one. -/
theorem editSection_body (banned : Bool) (s : SectionText) (rest : Bytes) :
    (editSection banned s.range rest.length ⟨false, 0⟩
      (beginMark s.range ++ (s.body ++ rest))).1 =
      beginMark s.range ++ (s.scrub banned).body := by
  cases s with
  | chars entries back =>
      have h := @editSection_chars banned false rest _ _ (beginMark_front false ⟨false, 0⟩)
        entries back
      rw [← List.append_assoc (charsText entries)] at h
      exact h
  | ranges entries back =>
      have h := @editSection_ranges banned rest _ _ (beginMark_front true ⟨false, 0⟩)
        entries back
      rw [← List.append_assoc (rangesText entries)] at h
      exact h

/-- A section that begins here is the next one. -/
theorem nextSection_here (range : Bool) (s : Bytes) :
    nextSection (beginMark range ++ s) = some (range, beginMark range ++ s) := by
  have hne : beginMark range ≠ [] := by cases range <;> decide
  have hhere := findText_here hne s
  have hother := findText_beginMark_other (!range) s
  rw [Bool.not_not] at hother
  -- a section of the other kind starts further back
  have hback : ∀ t, findText (beginMark (!range)) (beginMark range ++ s) = some t →
      t.length < (beginMark range ++ s).length := by
    intro t ht
    rw [hother] at ht
    have hle := (CMap.findText_length ht).2
    have hpos := List.length_pos_of_ne_nil hne
    rw [List.length_append]
    omega
  rw [nextSection]
  cases range with
  | false =>
      rw [hhere]
      cases hu : findText (beginMark true) (beginMark false ++ s) with
      | none => rfl
      | some u => exact if_neg (Nat.not_lt.mpr (hback u hu).le)
  | true =>
      rw [hhere]
      cases ht : findText (beginMark false) (beginMark true ++ s) with
      | none => rfl
      | some t => exact if_pos (hback t ht)

/-- What is given to the codes of an entry is edited. -/
def scrubEntry (banned : Bool) : TextEntry → TextEntry
  | .range lo hi dst => .range lo hi (scrubQuads banned dst).1
  | .char code dst => .char code (scrubQuads banned dst).1

theorem arrayEntries_scrub (banned : Bool) (c : Code) (dsts : List DstText) :
    arrayEntries c (dsts.map (DstText.scrub banned)) =
      (arrayEntries c dsts).map (scrubEntry banned) := by
  induction dsts generalizing c with
  | nil => rfl
  | cons d dsts ih =>
      rw [List.map_cons, arrayEntries, ih, arrayEntries, List.map_cons]
      rfl

theorem SectionText.scrub_entries (banned : Bool) (s : SectionText) :
    (s.scrub banned).entries = s.entries.map (scrubEntry banned) := by
  cases s with
  | chars entries back =>
      simp only [SectionText.scrub, SectionText.entries, List.map_map]
      rfl
  | ranges entries back =>
      simp only [SectionText.scrub, SectionText.entries, List.flatMap_map, List.map_flatMap]
      refine List.flatMap_congr fun e _ => ?_
      cases e with
      | single lo hi dst good => rfl
      | array lo hi front dsts back good full => exact arrayEntries_scrub banned lo.code dsts

theorem kindEntries_cons (range : Bool) (p : Gap × SectionText) (parts : List (Gap × SectionText)) :
    kindEntries range (p :: parts) =
      (if p.2.range = range then p.2.entries else []) ++ kindEntries range parts :=
        List.flatMap_cons

section Edit

variable {banned range : Bool} {stop : Nat}

/-- A section that is reported as unchanged is unchanged. -/
theorem editSection_unchanged {p : Phase} {s : Bytes}
    (h : (editSection banned range stop p s).2 = false) :
    (editSection banned range stop p s).1 = s.take (s.length - stop) := by
  fun_induction editSection banned range stop p s with
  | case1 => rfl
  | case2 p s skipped digits rest hnext q edited more ih =>
      obtain ⟨hedited, hmore⟩ := Bool.or_eq_false_iff.mp h
      obtain ⟨hs, hstop⟩ := nextString_parts hnext
      have hnone : edited = none := Option.not_isSome_iff_eq_none.mp (ne_true_of_eq_false hedited)
      have hrest : more.1 = rest.take (rest.length - stop) := ih hmore
      have hlen : s.length - stop =
          (skipped ++ 0x3C :: digits ++ [0x3E]).length + (rest.length - stop) := by
        rw [hs]
        simp only [List.length_append, List.length_cons, List.length_nil]
        omega
      have hparts : s = (skipped ++ 0x3C :: digits ++ [0x3E]) ++ rest := by
        rw [hs, List.append_assoc _ [0x3E] rest]
        rfl
      rw [hnone, hrest, hlen]
      conv_rhs => rw [hparts]
      rw [List.take_length_add_append, List.append_assoc _ [0x3E]]
      rfl

theorem scrubSection_changed (p : Phase) (copied s : Bytes) :
    (scrubSection banned range stop p copied s).changed =
      (editSection banned range stop p s).2 := by
  fun_induction scrubSection banned range stop p copied s with
  | case1 p copied s hnext =>
      rw [editSection]
      grind
  | case2 p copied s skipped digits rest hnext q edited more ih =>
      rw [editSection]
      grind

/-- What has been written and what has not been copied yet are together the text from the last
copied place on with the strings of the section edited. -/
theorem scrubSection_out {p : Phase} {copied s : Bytes} (hs : s <:+ copied)
    (hstop : stop ≤ s.length) :
    (scrubSection banned range stop p copied s).out ++
        (scrubSection banned range stop p copied s).copied.take
          ((scrubSection banned range stop p copied s).copied.length - stop) =
      copied.take (copied.length - s.length) ++ (editSection banned range stop p s).1 := by
  fun_induction scrubSection banned range stop p copied s with
  | case1 p copied s hnext =>
      have hedit : (editSection banned range stop p s).1 = s.take (s.length - stop) := by
        rw [editSection]
        grind
      obtain ⟨front, rfl⟩ := hs
      have hlen : (front ++ s).length - stop = front.length + (s.length - stop) := by
        rw [List.length_append]
        omega
      rw [hedit, hlen, List.length_append, Nat.add_sub_cancel, List.take_left,
        List.take_length_add_append]
      rfl
  | case2 p copied s skipped digits rest hnext q edited more ih =>
      have hedit : (editSection banned range stop p s).1 =
          skipped ++ 0x3C :: edited.getD digits ++
            0x3E :: (editSection banned range stop (q.next range) rest).1 := by
        rw [editSection]
        grind
      have hmore := ih List.suffix_rfl (nextString_parts hnext).2
      rw [Nat.sub_self, List.take_zero, List.nil_append] at hmore
      rw [hedit, ← hmore]
      simp only [more, List.append_assoc, List.cons_append]

theorem nextString_suffix {s skipped digits rest : Bytes}
    (h : nextString stop s = some (skipped, digits, rest)) : rest <:+ s := by
  refine ⟨skipped ++ 0x3C :: digits ++ [0x3E], ?_⟩
  rw [(nextString_parts h).1, List.append_assoc _ [0x3E]]
  rfl

/-- Behind a section with a string the text is copied up to a place behind that string. -/
theorem scrubSection_copied {p : Phase} {copied s : Bytes} (hstop : stop ≤ s.length)
    (hs : s <:+ copied) :
    stop ≤ (scrubSection banned range stop p copied s).copied.length ∧
      ∀ skipped digits rest, nextString stop s = some (skipped, digits, rest) →
        (scrubSection banned range stop p copied s).copied <:+ rest := by
  fun_induction scrubSection banned range stop p copied s with
  | case1 p copied s hnext =>
      refine ⟨hstop.trans hs.length_le, fun skipped digits rest h => ?_⟩
      rw [hnext] at h
      cases h
  | case2 p copied s skipped digits rest hnext q edited more ih =>
      obtain ⟨hle, hmore⟩ := ih (nextString_parts hnext).2 List.suffix_rfl
      refine ⟨hle, fun skipped' digits' rest' h => ?_⟩
      rw [hnext] at h
      cases h
      cases hrest : nextString stop rest with
      | none =>
          have hsame : more.copied = rest := by
            simp only [more]
            rw [scrubSection]
            grind
          exact hsame ▸ List.suffix_rfl
      | some next =>
          obtain ⟨skipped', digits', rest'⟩ := next
          exact (hmore skipped' digits' rest' hrest).trans (nextString_suffix hrest)

end Edit

/-- The entries of the sections of one kind that are read from a text. -/
def kindRead (range : Bool) (s : Bytes) : List TextEntry :=
  if range then
    (sections (beginMark true) (endMark true) 12 (Nat.toPNat' 10) s).flatMap fun sec =>
      textRanges sec.2 sec.1
  else
    (sections (beginMark false) (endMark false) 11 (Nat.toPNat' 9) s).flatMap fun sec =>
      textChars sec.2 sec.1

theorem textEntries_eq (s : Bytes) : textEntries s = kindRead false s ++ kindRead true s := rfl

theorem kindRead_pass {range : Bool} {a s : Bytes}
    (h : findText (beginMark range) (a ++ s) = findText (beginMark range) s) :
    kindRead range (a ++ s) = kindRead range s := by
  cases range with
  | false => exact congrArg (List.flatMap _) (sections_congr h)
  | true => exact congrArg (List.flatMap _) (sections_congr h)

theorem kindRead_tail (range : Bool) (tail : Gap) : kindRead range tail.bytes = [] := by
  cases range with
  | false => exact congrArg (List.flatMap _) (CMap.sections_none (findText_tail false tail))
  | true => exact congrArg (List.flatMap _) (CMap.sections_none (findText_tail true tail))

/-- The entries of a section are read, and then what stands behind it. -/
theorem kindRead_section (range : Bool) (s : SectionText) (rest : Bytes) :
    kindRead range (beginMark s.range ++ (s.body ++ (endMark s.range ++ rest))) =
      (if s.range = range then s.entries else []) ++ kindRead range rest := by
  let nothing : Gap :=
    ⟨[], fun range h => absurd (List.infix_nil.mp h) (by cases range <;> decide)⟩
  let p : Gap × LooseSection := (nothing, s.loose)
  have hrange : (looseBlock p).range = s.range := s.loose_range
  have hbody : (looseBlock p).body = s.body := s.loose_body
  cases range with
  | false =>
      have h := @sections_block false 11 9 (by decide) rfl (looseBlock p) textChars rest
      rw [hrange, hbody] at h
      refine h.trans (congrArg (· ++ _) ?_)
      split
      · rename_i hkind
        rw [← hbody, charsSections_read p rest (hrange.trans hkind), s.loose_read]
      · rfl
  | true =>
      have h := @sections_block true 12 10 (by decide) rfl (looseBlock p) textRanges rest
      rw [hrange, hbody] at h
      refine h.trans (congrArg (· ++ _) ?_)
      split
      · rename_i hkind
        rw [← hbody, rangesSections_read p rest (hrange.trans hkind), s.loose_read]
      · rfl

/-- From a part of a text nothing is read, whatever follows. -/
def Mute (w : Bytes) : Prop := ∀ range rest, kindRead range (w ++ rest) = kindRead range rest

theorem Mute.append {w w' : Bytes} (h : Mute w) (h' : Mute w') : Mute (w ++ w') := by
  intro range rest
  rw [List.append_assoc, h range, h' range]

theorem mute_gap {g : Gap} (h : ∀ c ∈ g.bytes.getLast?, endsWord c = true) : Mute g.bytes := by
  intro range rest
  -- the letters of the first words do not end words
  have hletters : ∀ c ∈ beginMark range, endsWord c = false := by
    cases range <;> decide +kernel
  refine kindRead_pass (findText_pass (startsNowhere_of_apart (g.clear range) fun c hc hmem => ?_))
  exact ne_true_of_eq_false (hletters c hmem) (h c hc)

/-- The end of a section is mute. -/
theorem mute_end {part : Bytes} (h : ∀ c ∈ part, inBody c = true) (range : Bool) :
    Mute (part ++ endMark range) := by
  intro range' rest
  rw [List.append_assoc, kindRead_pass (findText_body range' range h rest),
    kindRead_pass (findText_beginMark_endMark range' range rest)]

/-- A section without entries is mute. -/
theorem mute_section {s : SectionText} (h : s.entries = []) :
    Mute (beginMark s.range ++ (s.body ++ endMark s.range)) := by
  intro range rest
  rw [List.append_assoc, List.append_assoc, kindRead_section, h, ite_self, List.nil_append]

theorem nextString_hex {stop : Nat} {front more : Bytes} (t : HexText) (hfront : 0x3C ∉ front)
    (hstop : stop ≤ more.length) : (nextString stop (front ++ (t.text ++ more))).isSome := by
  have hclose : 0x3E ∉ t.digits := fun h => absurd (t.digital _ h) (by decide)
  have hspace := ((⟨hfront, rfl⟩ : Front ⟨false, 0⟩ front _).append (white_front _ t.space)).clear
  rw [t.text_append, ← List.append_assoc, nextString_cons hspace hclose hstop]
  rfl

/-- A section in which there is no string has no entries. -/
theorem entries_eq_nil {s : SectionText} {u : Bytes}
    (h : nextString u.length (beginMark s.range ++ (s.body ++ u)) = none) : s.entries = [] := by
  have hfront := (beginMark_front s.range ⟨false, 0⟩).clear
  have hsome : ∀ (t : HexText) (more : Bytes), s.body = t.text ++ more → s.entries = [] := by
    intro t more hbody
    have hlen : u.length ≤ (more ++ u).length := by
      rw [List.length_append]
      omega
    have hstring := nextString_hex t hfront hlen
    rw [← List.append_assoc t.text, ← hbody, h] at hstring
    cases hstring
  cases s with
  | chars entries back =>
      cases entries with
      | nil => rfl
      | cons e entries =>
          refine hsome e.1.toHexText (e.2.text ++ charsText entries ++ back.bytes) ?_
          simp [SectionText.body, charsText]
  | ranges entries back =>
      cases entries with
      | nil => rfl
      | cons e entries =>
          cases e with
          | single lo hi dst good =>
              refine hsome lo.toHexText (hi.text ++ dst.text ++ rangesText entries ++ back.bytes) ?_
              simp [SectionText.body, rangesText, RangeText.text]
          | array lo hi front dsts last good full =>
              refine hsome lo.toHexText (hi.text ++ (front.bytes ++ 0x5B ::
                (arrayText dsts ++ (last.bytes ++ [0x5D]))) ++ rangesText entries ++ back.bytes) ?_
              simp [SectionText.body, rangesText, RangeText.text]

/-- What stands behind a string of a section stands behind its first word. -/
theorem rest_suffix {stop : Nat} {range : Bool} {s skipped digits rest : Bytes}
    (h : nextString stop (beginMark range ++ s) = some (skipped, digits, rest)) : rest <:+ s := by
  have hclear := (beginMark_front range ⟨false, 0⟩).clear
  have hskip : (beginMark range).length ≤ skipped.length := by
    by_contra hlt
    have hparts := (nextString_parts h).1
    rw [List.append_assoc] at hparts
    have hget := congrArg (·[skipped.length]?) hparts
    simp only [List.getElem?_append_right (le_refl skipped.length), Nat.sub_self,
      List.getElem?_append_left (Nat.lt_of_not_le hlt)] at hget
    exact hclear (List.mem_of_getElem? hget)
  refine List.suffix_of_suffix_length_le (nextString_suffix h) (List.suffix_append _ _) ?_
  have hlen := congrArg List.length (nextString_parts h).1
  simp only [List.length_append, List.length_cons] at hlen
  omega

theorem scrubText_none {banned : Bool} {copied s : Bytes} (hsec : nextSection s = none) :
    scrubText banned copied s = (copied, false) := by
  rw [scrubText]
  grind

theorem scrubText_some {banned range : Bool} {copied s t u : Bytes}
    (hsec : nextSection s = some (range, t)) (hend : findText (endMark range) t = some u) :
    scrubText banned copied s =
      (copied.take (copied.length - t.length) ++
          (scrubSection banned range u.length ⟨false, 0⟩ copied t).out ++
          (scrubText banned (scrubSection banned range u.length ⟨false, 0⟩ copied t).copied u).1,
        (scrubSection banned range u.length ⟨false, 0⟩ copied t).changed ||
          (scrubText banned (scrubSection banned range u.length ⟨false, 0⟩ copied t).copied
            u).2) := by
  rw [scrubText]
  grind

/-- A part of a text in which no section starts is passed over. -/
theorem scrubText_pass (banned : Bool) (copied : Bytes) {a s : Bytes}
    (h : ∀ range, findText (beginMark range) (a ++ s) = findText (beginMark range) s) :
    scrubText banned copied (a ++ s) = scrubText banned copied s := by
  have hnext : nextSection (a ++ s) = nextSection s := by
    rw [nextSection, nextSection, h, h]
  rw [scrubText, scrubText]
  grind

theorem nextSection_gap (range : Bool) (g : Gap) (s : Bytes) :
    nextSection (g.bytes ++ (beginMark range ++ s)) = some (range, beginMark range ++ s) := by
  have hpass : ∀ kind, findText (beginMark kind) (g.bytes ++ (beginMark range ++ s)) =
      findText (beginMark kind) (beginMark range ++ s) := fun kind => findText_gap kind range g s
  rw [← nextSection_here range s, nextSection, nextSection, hpass, hpass]

/-- The section ends at its own mark. -/
theorem findText_end (s : SectionText) (rest : Bytes) :
    findText (endMark s.range) (beginMark s.range ++ (s.body ++ (endMark s.range ++ rest))) =
      some (endMark s.range ++ rest) := by
  have hhead : (s.body ++ (endMark s.range ++ rest)).head? ≠ some 0x6E := by
    cases hbody : s.body with
    | nil =>
        have hfirst : (endMark s.range ++ rest).head? = some 0x65 := by cases s.range <;> rfl
        rw [List.nil_append, hfirst]
        decide
    | cons c body =>
        intro h
        have hc : c ∈ s.body := by
          rw [hbody]
          exact List.mem_cons_self
        rw [Option.some.inj h] at hc
        exact s.notMem_body (by decide) hc
  rw [findText_endMark_beginMark _ _ hhead, findText_endMark _ s.body_inBody]

section Text

variable {banned : Bool} {parts : List (Gap × SectionText)} {tail : Gap}

/-- The text up to which a section leaves the copy is mute. -/
theorem mute_copied {w : Bytes} (hw : Mute w) {s : SectionText} {rest : Bytes} :
    let u := endMark s.range ++ rest
    let t := beginMark s.range ++ (s.body ++ u)
    let copied := (scrubSection banned s.range u.length ⟨false, 0⟩ (w ++ t) t).copied
    ∃ part, copied = part ++ endMark s.range ++ rest ∧
      copied.take (copied.length - u.length) = part ∧
      Mute (part ++ endMark s.range) := by
  intro u t copied
  have htake : ∀ part : Bytes, (part ++ u).take ((part ++ u).length - u.length) = part := by
    intro part
    rw [List.length_append, Nat.add_sub_cancel, List.take_left]
  have hlen : u.length ≤ t.length := by
    simp only [t, List.length_append]
    omega
  obtain ⟨hle, hsuf⟩ := @scrubSection_copied banned s.range u.length ⟨false, 0⟩ (w ++ t) t hlen
    (List.suffix_append w t)
  cases hnext : nextString u.length t with
  | none =>
      have hcopied : copied = w ++ t := by
        simp only [copied]
        rw [scrubSection]
        grind
      have hparts : copied = (w ++ (beginMark s.range ++ s.body)) ++ u := by
        rw [hcopied]
        simp only [t, List.append_assoc]
      refine ⟨w ++ (beginMark s.range ++ s.body), by rw [hparts]; simp only [u, List.append_assoc],
        by rw [hparts, htake], ?_⟩
      have hmute := hw.append (mute_section (entries_eq_nil hnext))
      simpa only [List.append_assoc] using hmute
  | some next =>
      obtain ⟨skipped, digits, behind⟩ := next
      obtain ⟨front, hfront⟩ := (hsuf skipped digits behind hnext).trans (rest_suffix hnext)
      have hu : u <:+ copied := by
        refine List.suffix_of_suffix_length_le (List.suffix_append s.body u) ?_ hle
        exact ⟨front, hfront⟩
      obtain ⟨part, hpart⟩ := hu
      have hbody : s.body = front ++ part := by
        have hsame : front ++ copied = s.body ++ u := hfront
        rw [← hpart, ← List.append_assoc] at hsame
        exact (List.append_cancel_right hsame).symm
      refine ⟨part, by rw [← hpart]; simp only [u, List.append_assoc], by rw [← hpart, htake],
        mute_end (fun c hc => s.body_inBody c ?_) s.range⟩
      rw [hbody]
      exact List.mem_append_right front hc

/-- The entries that are read from the edited text are the edited entries. -/
theorem scrubText_read (hparts : ∀ p ∈ parts, ∀ c ∈ p.1.bytes.getLast?, endsWord c = true)
    {w : Bytes} (hw : Mute w) :
    ∃ r, (scrubText banned (w ++ partsText parts tail.bytes) (partsText parts tail.bytes)).1 =
        w ++ r ∧
      ∀ range, kindRead range r = (kindEntries range parts).map (scrubEntry banned) := by
  induction parts generalizing w with
  | nil =>
      have hnone : nextSection tail.bytes = none := by
        rw [nextSection, findText_tail, findText_tail]
      refine ⟨tail.bytes, congrArg Prod.fst (scrubText_none hnone), fun range => ?_⟩
      exact kindRead_tail range tail
  | cons p parts ih =>
      obtain ⟨hgap, hrest⟩ := List.forall_mem_cons.mp hparts
      let rest := partsText parts tail.bytes
      let u := endMark p.2.range ++ rest
      let t := beginMark p.2.range ++ (p.2.body ++ u)
      have hmute := hw.append (mute_gap hgap)
      obtain ⟨part, hcopied, hpart, hend⟩ :=
        @mute_copied banned (w ++ p.1.bytes) hmute p.2 rest
      obtain ⟨r, hr, hread⟩ := ih hrest hend
      have htext : w ++ partsText (p :: parts) tail.bytes = (w ++ p.1.bytes) ++ t := by
        rw [partsText_cons, List.append_assoc]
      have hsec : nextSection (partsText (p :: parts) tail.bytes) = some (p.2.range, t) := by
        rw [partsText_cons]
        exact nextSection_gap p.2.range p.1 _
      have hmore : ∀ copied, scrubText banned copied u = scrubText banned copied rest :=
        fun copied => scrubText_pass banned copied fun range =>
          findText_beginMark_endMark range p.2.range rest
      have htake : ((w ++ p.1.bytes) ++ t).take (((w ++ p.1.bytes) ++ t).length - t.length) =
          w ++ p.1.bytes := by
        rw [List.length_append, Nat.add_sub_cancel, List.take_left]
      have hout := @scrubSection_out banned p.2.range u.length ⟨false, 0⟩ ((w ++ p.1.bytes) ++ t) t
        (List.suffix_append _ t) (by simp only [t, List.length_append]; omega)
      rw [hpart, htake, editSection_body] at hout
      -- the text in front of the section is written, and then once more up to its first string
      refine ⟨p.1.bytes ++ ((w ++ p.1.bytes) ++ (beginMark p.2.range ++
        ((p.2.scrub banned).body ++ (endMark p.2.range ++ r)))), ?_, fun range => ?_⟩
      · rw [htext, scrubText_some hsec (findText_end p.2 rest), htake, hmore, hcopied, hr]
        dsimp only
        rw [← List.append_assoc _ (part ++ _) r, List.append_assoc (w ++ p.1.bytes),
          ← List.append_assoc _ part, hout]
        simp only [List.append_assoc]
      · have hsection := kindRead_section range (p.2.scrub banned) r
        rw [p.2.scrub_range, p.2.scrub_entries] at hsection
        rw [mute_gap hgap, hmute, hsection, hread, kindEntries_cons, List.map_append]
        congr 1
        split
        · rfl
        · rfl

/-- Where nothing is edited, the entries are left as they are. -/
theorem scrubText_unchanged {copied : Bytes}
    (h : (scrubText banned copied (partsText parts tail.bytes)).2 = false) (range : Bool) :
    (kindEntries range parts).map (scrubEntry banned) = kindEntries range parts := by
  induction parts generalizing copied with
  | nil => rfl
  | cons p parts ih =>
      let rest := partsText parts tail.bytes
      let u := endMark p.2.range ++ rest
      let t := beginMark p.2.range ++ (p.2.body ++ u)
      have hsec : nextSection (partsText (p :: parts) tail.bytes) = some (p.2.range, t) := by
        rw [partsText_cons]
        exact nextSection_gap p.2.range p.1 _
      rw [scrubText_some hsec (findText_end p.2 rest)] at h
      obtain ⟨hhere, hmore⟩ := Bool.or_eq_false_iff.mp h
      rw [scrubText_pass banned _ fun range =>
        findText_beginMark_endMark range p.2.range rest] at hmore
      rw [scrubSection_changed] at hhere
      have hbody := editSection_unchanged hhere
      have htake : t.take (t.length - u.length) = beginMark p.2.range ++ p.2.body := by
        simp only [t]
        rw [← List.append_assoc, List.length_append, Nat.add_sub_cancel, List.take_left]
      rw [editSection_body, htake] at hbody
      -- the section is read from its text
      have hsame := kindRead_section p.2.range (p.2.scrub banned) []
      rw [p.2.scrub_range, List.append_cancel_left hbody, kindRead_section, if_pos rfl, if_pos rfl,
        p.2.scrub_entries] at hsame
      have hentries : p.2.entries.map (scrubEntry banned) = p.2.entries :=
        (List.append_cancel_right hsame).symm
      rw [kindEntries_cons, List.map_append, ih hmore]
      congr 1
      split
      · exact hentries
      · rfl

end Text

/-- What is read from the new text of a map are its entries, edited. -/
theorem textEntries_scrubbed (conf : UInt8) (ua : Bool) (t : MapText) :
    textEntries ((scrubToUnicode conf ua t.text).getD t.text) =
      t.entries.map (scrubEntry (puaBanned conf ua)) := by
  have hstart : Mute [] := fun _ _ => rfl
  obtain ⟨r, hr, hread⟩ := @scrubText_read (puaBanned conf ua) t.parts t.tail t.apart [] hstart
  rw [scrubToUnicode]
  split
  · have hout : (scrubText (puaBanned conf ua) t.text t.text).1 = r := hr
    rw [Option.getD_some, hout, textEntries_eq, hread, hread, MapText.entries, List.map_append]
  · rename_i hsame
    have hkept := @scrubText_unchanged (puaBanned conf ua) t.parts t.tail t.text
      (Bool.eq_false_of_not_eq_true hsame)
    rw [Option.getD_none, textEntries_text, MapText.entries, List.map_append, hkept, hkept]

end Kura.Engine.ScrubToUnicode
