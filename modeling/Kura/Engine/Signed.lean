import Kura.Engine.Sign

/-!
# Signed files

What a signature of a written file has to be: the range names the gap of the
signature's own string, the signed data is all that lies outside it, and the
string is the answer of the callback. The search is by text, so this holds
unless the file has the same texts in other places.

A written file is given by the three parts around the placeholder, in the
order in which the keys of a dictionary are written. The range is read as a
reader of the file would: the key, white space, an array of numbers.
-/

namespace Kura.Engine.Sign

open Kura.Base

/-- The array of the placeholder, as the writer of the file puts it. -/
def rangeArray : Bytes := lit "[ 0 9999999999 9999999999 9999999999 ]"

/-- The key and the array. -/
def rangePlaceholder : Bytes := byteRangeKey ++ (lit " " ++ rangeArray)

/-- The key and the string of zeros. -/
def contentsPlaceholder (wantHex : Nat) : Bytes :=
  placeholderMark ++ (List.replicate wantHex 0x30 ++ lit ">")

/-- A written file with the placeholder of a signature. -/
structure Written where
  /-- All before the key of the range. -/
  pre : Bytes
  /-- All between the range and the string, the contact of the signer among it. -/
  mid : Bytes
  /-- All behind the string. -/
  post : Bytes
  reserve : Nat

namespace Written

variable (w : Written)

/-- The text of the file. -/
def text : Bytes :=
  w.pre ++ (rangePlaceholder ++ (w.mid ++ (contentsPlaceholder (w.reserve * 2) ++ w.post)))

/-- The offset of the range. -/
def rangeAt : Nat := w.pre.length

/-- The offset of the key of the string. -/
def contentsAt : Nat := w.pre.length + rangePlaceholder.length + w.mid.length

/-- The offset of `<`. -/
def gapStart : Nat := w.contentsAt + (placeholderMark.length - 1)

/-- The offset just after `>`. -/
def gapEnd : Nat := w.contentsAt + (contentsPlaceholder (w.reserve * 2)).length

/-- The file has the searched texts in another place, before its own ones: a string
of as many zeros under `/Contents`, or the key `/ByteRange` between range and string. -/
def Decoy : Prop :=
  (∃ i, i < w.contentsAt ∧ occursAt (contentsPlaceholder (w.reserve * 2)) w.text i = true) ∨
    ∃ i, occursAt byteRangeKey w.mid i = true

end Written

/-- The words of a text. -/
def wordsOf (s : Bytes) : List Bytes := (s.splitOnP isSpace).filter (· ≠ [])

/-- The numbers of the range whose key stands at an offset. -/
def readByteRange (s : Bytes) (i : Nat) : Option (List Nat) :=
  if occursAt byteRangeKey s i then
    match (s.drop (i + byteRangeKey.length)).dropWhile isSpace with
    | 0x5B :: rest =>
        let words := wordsOf (rest.takeWhile (· ≠ 0x5D))
        if 0x5D ∈ rest ∧ words.all (·.all isDigit) then some (words.map digitsValue) else none
    | _ => none
  else none

/-- The file is signed: nothing but the range and the string has changed, and both are right. -/
structure Correct (w : Written) (opt : Options) (r : Result) : Prop where
  length : r.pdf.length = w.text.length
  range : ∃ n, w.gapEnd + n = r.pdf.length ∧
    readByteRange r.pdf w.rangeAt = some [0, w.gapStart, w.gapEnd, n]
  signed : r.signedData = some (r.pdf.take w.gapStart ++ r.pdf.drop w.gapEnd)
  gap : ∃ data der k, r.signedData = some data ∧ opt.signDocument data = some der ∧
    (r.pdf.drop w.gapStart).take (w.gapEnd - w.gapStart) =
      lit "<" ++ hexText der ++ List.replicate k 0x30 ++ lit ">"

/-- The placeholder is its mark, the zeros and the closing bracket. -/
theorem occursAt_contentsPlaceholder_iff {body : Bytes} {n i : Nat} :
    occursAt (contentsPlaceholder n) body i = true ↔
      occursAt placeholderMark body i = true ∧
      (∀ k, i + 11 ≤ k → k < i + 11 + n → body[k]? = some 0x30) ∧
      body[i + 11 + n]? = some 0x3E := by
  rw [contentsPlaceholder, occursAt_append_iff, occursAt_append_iff]
  have hmark : placeholderMark.length = 11 := by decide
  have hlit : lit ">" = [0x3E] := by decide
  rw [hmark, hlit, occursAt_singleton_iff, List.length_replicate]
  have hzeros : occursAt (List.replicate n 0x30) body (i + 11) = true ↔
      ∀ k, i + 11 ≤ k → k < i + 11 + n → body[k]? = some 0x30 := by
    rw [occursAt_iff_getElem, List.length_replicate]
    constructor
    · intro h k hlow hhigh
      have hk := h (k - (i + 11)) (by omega)
      rw [List.getElem?_replicate, if_pos (by omega)] at hk
      rw [← hk]
      congr 1
      omega
    · intro h k hk
      rw [h (i + 11 + k) (by omega) (by omega), List.getElem?_replicate, if_pos hk]
  rw [hzeros]

theorem not_occursAt_contentsPlaceholder {body : Bytes} {n i : Nat}
    (hno : occursAt placeholderMark body i = false) :
    occursAt (contentsPlaceholder n) body i = false := by
  rw [Bool.eq_false_iff, Ne, occursAt_contentsPlaceholder_iff, hno]
  rintro ⟨h, -⟩
  cases h

/-- Where the end of the string is known, the tests of the loop tell the placeholder. -/
theorem occursAt_contentsPlaceholder_of_end {body : Bytes} {n i stop : Nat}
    (hmark : occursAt placeholderMark body i = true)
    (hstop : findFrom (lit ">") body (i + 11) = some stop) :
    occursAt (contentsPlaceholder n) body i = true ↔
      stop - (i + 11) = n ∧ (findNot 0x30 body (i + 11)).any (· < stop) = false := by
  have hlit : lit ">" = [0x3E] := by decide
  rw [hlit, findFrom_singleton_eq_some_iff] at hstop
  obtain ⟨hle, hend, hskip⟩ := hstop
  obtain ⟨hlt, -⟩ := List.getElem?_eq_some_iff.mp hend
  rw [occursAt_contentsPlaceholder_iff, findNot_any_lt_eq_false_iff (le_of_lt hlt)]
  constructor
  · rintro ⟨-, hzeros, hgt⟩
    have hn : stop = i + 11 + n := by
      apply le_antisymm
      · by_contra hfar
        exact hskip (i + 11 + n) (by omega) (by omega) hgt
      · by_contra hnear
        have hzero := hzeros stop hle (by omega)
        rw [hend] at hzero
        exact absurd hzero (by decide)
    subst hn
    exact ⟨by omega, hzeros⟩
  · rintro ⟨hn, hzeros⟩
    have hat : i + 11 + n = stop := by omega
    rw [hat]
    exact ⟨hmark, hzeros, hend⟩

/-- A place of the mark that is no placeholder is skipped. -/
theorem findFrom_contentsPlaceholder_skip {body : Bytes} {n pos i : Nat}
    (hmark : findFrom placeholderMark body pos = some i)
    (hno : occursAt (contentsPlaceholder n) body i = false) :
    findFrom (contentsPlaceholder n) body pos = findFrom (contentsPlaceholder n) body (i + 1) := by
  rw [findFrom_eq_some_iff] at hmark
  obtain ⟨hpos, -, -, hskip⟩ := hmark
  have hbelow : ∀ j, pos ≤ j → j < i + 1 → occursAt (contentsPlaceholder n) body j = false := by
    intro j hj hji
    obtain rfl | hlt := Nat.eq_or_lt_of_le (Nat.lt_succ_iff.mp hji)
    · exact hno
    · exact not_occursAt_contentsPlaceholder (hskip j hj hlt)
  apply Option.ext
  intro k
  rw [findFrom_eq_some_iff, findFrom_eq_some_iff]
  constructor
  · rintro ⟨hk, hlen, hocc, hfirst⟩
    refine ⟨?_, hlen, hocc, fun j hj hjk => hfirst j (by omega) hjk⟩
    by_contra hlow
    rw [hbelow k hk (by omega)] at hocc
    cases hocc
  · rintro ⟨hk, hlen, hocc, hfirst⟩
    refine ⟨by omega, hlen, hocc, fun j hj hjk => ?_⟩
    by_cases hlow : j < i + 1
    · exact hbelow j hj hlow
    · exact hfirst j (by omega) hjk

/-- Where no string ends any more, there is no placeholder. -/
theorem findFrom_contentsPlaceholder_eq_none {body : Bytes} {n pos i : Nat}
    (hmark : findFrom placeholderMark body pos = some i)
    (hstop : findFrom (lit ">") body (i + 11) = none) :
    findFrom (contentsPlaceholder n) body pos = none := by
  have hlit : lit ">" = [0x3E] := by decide
  rw [hlit, findFrom_singleton_eq_none_iff] at hstop
  rw [findFrom_eq_some_iff] at hmark
  obtain ⟨-, -, -, hskip⟩ := hmark
  rw [findFrom_eq_none_iff]
  intro j hj hlen
  by_cases hji : j < i
  · exact not_occursAt_contentsPlaceholder (hskip j hj hji)
  · rw [Bool.eq_false_iff, Ne, occursAt_contentsPlaceholder_iff]
    rintro ⟨-, -, hgt⟩
    exact hstop (j + 11 + n) (by omega) hgt

/-- The loop finds the first string of zeros of the right width. -/
theorem findPlaceholder_eq (body : Bytes) (n fuel pos : Nat)
    (hfuel : body.length + 1 ≤ fuel + pos) :
    findPlaceholder body n fuel (findFrom placeholderMark body pos) =
      (findFrom (contentsPlaceholder n) body pos).map fun c => ⟨c, c + 11, c + 11 + n⟩ := by
  induction fuel generalizing pos with
  | zero =>
      have hnone : findFrom (contentsPlaceholder n) body pos = none := by
        rw [findFrom_eq_none_iff]
        intro i hpos hlen
        omega
      rw [findPlaceholder, hnone, Option.map_none]
  | succ fuel ih =>
      cases hmark : findFrom placeholderMark body pos with
      | none =>
          have hnone : findFrom (contentsPlaceholder n) body pos = none := by
            rw [findFrom_eq_none_iff] at hmark ⊢
            intro i hpos hlen
            exact not_occursAt_contentsPlaceholder (hmark i hpos hlen)
          rw [findPlaceholder, hnone, Option.map_none]
      | some i =>
          have hfound := findFrom_eq_some_iff.mp hmark
          obtain ⟨hpos, hlen, hocc, hskip⟩ := hfound
          have hwidth : placeholderMark.length = 11 := by decide
          have hnext : occursAt (contentsPlaceholder n) body i = false →
              findPlaceholder body n fuel (findFrom placeholderMark body (i + 1)) =
                (findFrom (contentsPlaceholder n) body pos).map
                  fun c => ⟨c, c + 11, c + 11 + n⟩ := by
            intro hno
            rw [findFrom_contentsPlaceholder_skip hmark hno]
            exact ih (i + 1) (by omega)
          simp only [findPlaceholder, hwidth]
          split
          · rename_i hstop
            rw [(findFrom_contentsPlaceholder_eq_none hmark hstop), Option.map_none]
          · rename_i stop hstop
            have htests := occursAt_contentsPlaceholder_of_end (n := n) hocc hstop
            split
            · rename_i hother
              apply hnext
              rw [Bool.eq_false_iff, Ne, htests]
              exact fun h => hother h.1
            · rename_i hsame
              split
              · rename_i hdigit
                apply hnext
                rw [Bool.eq_false_iff, Ne, htests, hdigit]
                simp
              · rename_i hzeros
                rw [not_not] at hsame
                rw [Bool.not_eq_true] at hzeros
                have hfirst : findFrom (contentsPlaceholder n) body pos = some i := by
                  rw [findFrom_eq_some_iff]
                  refine ⟨hpos, hlen, htests.mpr ⟨hsame, hzeros⟩, fun j hj hji => ?_⟩
                  exact not_occursAt_contentsPlaceholder (hskip j hj hji)
                have hle := (findFrom_eq_some_iff.mp hstop).1
                have hstopEq : stop = i + 11 + n := by omega
                rw [hfirst, Option.map_some, hstopEq]

/-- The key, a blank and an array of digits are read. -/
theorem readByteRange_of_append {s inner rest : Bytes} {i : Nat}
    (hs : s.drop i = byteRangeKey ++ (0x20 :: 0x5B :: (inner ++ 0x5D :: rest)))
    (hclose : 0x5D ∉ inner) :
    readByteRange s i =
      if (wordsOf inner).all (·.all isDigit) then some ((wordsOf inner).map digitsValue)
      else none := by
  have hocc : occursAt byteRangeKey s i = true := by
    rw [occursAt_iff, hs]
    exact List.prefix_append _ _
  have htake : (inner ++ 0x5D :: rest).takeWhile (· ≠ 0x5D) = inner := by
    rw [List.takeWhile_append_of_pos (fun x hx => by
        rw [decide_eq_true_eq]
        rintro rfl
        exact hclose hx)]
    simp
  have hskip : (0x20 :: 0x5B :: (inner ++ 0x5D :: rest)).dropWhile isSpace =
      0x5B :: (inner ++ 0x5D :: rest) := rfl
  rw [readByteRange, if_pos hocc, ← List.drop_drop, hs, List.drop_left, hskip]
  simp only [htake]
  simp

theorem wordsOf_append {word rest : Bytes} (hne : word ≠ []) (h : ∀ x ∈ word, isDigit x = true) :
    wordsOf (word ++ 0x20 :: rest) = word :: wordsOf rest := by
  rw [wordsOf, List.splitOnP_append_cons_of_forall_mem (fun x hx => not_isSpace_of_isDigit (h x hx))
    0x20 rfl, List.filter_cons_of_pos (by simpa using hne), wordsOf]

theorem wordsOf_single {word : Bytes} (hne : word ≠ []) (h : ∀ x ∈ word, isDigit x = true) :
    wordsOf word = [word] := by
  rw [wordsOf, List.splitOnP_eq_singleton (fun x hx => not_isSpace_of_isDigit (h x hx)),
    List.filter_cons_of_pos (by simpa using hne), List.filter_nil]

/-- The text of four numbers between the brackets. -/
def rangeInner (r1 r2 r3 : Nat) : Bytes :=
  decimal 0 ++ 0x20 :: (decimal r1 ++ 0x20 :: (decimal r2 ++ 0x20 :: decimal r3))

theorem rangeText_eq (r1 r2 r3 : Nat) :
    rangeText r1 r2 r3 = 0x5B :: (rangeInner r1 r2 r3 ++ [0x5D]) := by
  have hopen : lit "[" = [0x5B] := by decide
  have hblank : lit " " = [0x20] := by decide
  have hclose : lit "]" = [0x5D] := by decide
  rw [rangeText, rangeInner, hopen, hblank, hclose]
  simp

theorem wordsOf_rangeInner (r1 r2 r3 : Nat) :
    wordsOf (rangeInner r1 r2 r3) = [decimal 0, decimal r1, decimal r2, decimal r3] := by
  rw [rangeInner, wordsOf_append (decimal_ne_nil 0) (fun x => isDigit_of_mem_decimal),
    wordsOf_append (decimal_ne_nil r1) (fun x => isDigit_of_mem_decimal),
    wordsOf_append (decimal_ne_nil r2) (fun x => isDigit_of_mem_decimal),
    wordsOf_single (decimal_ne_nil r3) (fun x => isDigit_of_mem_decimal)]

/-- The bytes of the four numbers are digits and blanks. -/
theorem mem_rangeInner {r1 r2 r3 : Nat} {x : UInt8} (h : x ∈ rangeInner r1 r2 r3) :
    isDigit x = true ∨ x = 0x20 := by
  simp only [rangeInner, List.mem_append, List.mem_cons] at h
  rcases h with h | rfl | h | rfl | h | rfl | h
  · exact .inl (isDigit_of_mem_decimal h)
  · exact .inr rfl
  · exact .inl (isDigit_of_mem_decimal h)
  · exact .inr rfl
  · exact .inl (isDigit_of_mem_decimal h)
  · exact .inr rfl
  · exact .inl (isDigit_of_mem_decimal h)

/-- The range that is filled in is read back. -/
theorem readByteRange_rangeText {s : Bytes} {i r1 r2 r3 : Nat}
    (hocc : occursAt (byteRangeKey ++ (lit " " ++ rangeText r1 r2 r3)) s i = true) :
    readByteRange s i = some [0, r1, r2, r3] := by
  rw [occursAt_iff] at hocc
  obtain ⟨rest, hrest⟩ := hocc
  have hblank : lit " " = [0x20] := by decide
  have hnumbers : s.drop i =
      byteRangeKey ++ (0x20 :: 0x5B :: (rangeInner r1 r2 r3 ++ 0x5D :: rest)) := by
    rw [← hrest, hblank, rangeText_eq]
    simp
  rw [readByteRange_of_append hnumbers, wordsOf_rangeInner, if_pos]
  · simp [digitsValue_decimal]
  · simp only [List.all_cons, List.all_nil, Bool.and_true, Bool.and_eq_true, List.all_eq_true]
    exact ⟨fun x => isDigit_of_mem_decimal, fun x => isDigit_of_mem_decimal,
      fun x => isDigit_of_mem_decimal, fun x => isDigit_of_mem_decimal⟩
  · intro hmem
    obtain hdigit | hspace := mem_rangeInner hmem
    · exact absurd hdigit (by decide)
    · exact absurd hspace (by decide)

/-- The range of the placeholder is no range of a signature. -/
theorem readByteRange_rangePlaceholder {s : Bytes} {i : Nat}
    (hocc : occursAt rangePlaceholder s i = true) :
    readByteRange s i = some [0, 9999999999, 9999999999, 9999999999] := by
  rw [occursAt_iff] at hocc
  obtain ⟨rest, hrest⟩ := hocc
  have hinner : rangePlaceholder ++ rest = byteRangeKey ++
      (0x20 :: 0x5B :: (lit " 0 9999999999 9999999999 9999999999 " ++ 0x5D :: rest)) := rfl
  rw [hinner] at hrest
  rw [readByteRange_of_append hrest.symm (by decide)]
  decide

theorem length_hexText (der : Bytes) : (hexText der).length = der.length * 2 := by
  rw [hexText, List.length_flatMap]
  simp

theorem length_padded (fill : UInt8) {t : Bytes} {width : Nat} (h : t.length ≤ width) :
    (padded t width fill).length = width := by
  rw [padded, List.length_append, List.length_replicate]
  omega

/-- The file with the range in place. -/
def ranged (pdf : Bytes) (c n brOpen brClose : Nat) : Bytes :=
  splice pdf brOpen (brClose - brOpen + 1)
    (padded (rangeText (c + 10) (c + 12 + n) (pdf.length - (c + 12 + n))) (brClose - brOpen + 1)
      0x20)

/-- The callback answered and its answer fits. -/
structure Answered (opt : Options) (body : Bytes) (c n : Nat) (r : Result) (der : Bytes) :
    Prop where
  call : opt.signDocument (body.take (c + 10) ++ body.drop (c + 12 + n)) = some der
  fits : der.length * 2 ≤ n
  data : r.signedData = some (body.take (c + 10) ++ body.drop (c + 12 + n))
  file : r.pdf = splice body (c + 11) n (padded (hexText der) n 0x30)

/-- A signature that succeeds comes from an answer that fits. -/
theorem signGap_of_ok {opt : Options} {pdf body : Bytes} {c n : Nat}
    (h : (signGap opt pdf body (c + 11) (c + 11 + n)).ok = true) :
    ∃ der, Answered opt body c n (signGap opt pdf body (c + 11) (c + 11 + n)) der := by
  have hstart : c + 11 - 1 = c + 10 := by omega
  have hend : c + 11 + n + 1 = c + 12 + n := by omega
  have hcap : c + 11 + n - (c + 11) = n := by omega
  simp only [signGap, hstart, hend, hcap] at h ⊢
  split at h
  · cases h
  · rename_i der hcall
    split at h
    · cases h
    · rename_i hne
      split at h
      · cases h
      · rename_i hfits
        rw [if_neg hne, if_neg hfits]
        exact ⟨der, hcall, by omega, rfl, rfl⟩

theorem signGap_of_failed {opt : Options} {pdf body : Bytes} {hexStart hexEnd : Nat}
    (h : (signGap opt pdf body hexStart hexEnd).ok = false) :
    (signGap opt pdf body hexStart hexEnd).pdf = pdf := by
  simp only [signGap] at h ⊢
  split
  · rfl
  · rename_i der hcall
    rw [hcall] at h
    split
    · rfl
    · rename_i hne
      split
      · rfl
      · rename_i hfits
        simp only [if_neg hne, if_neg hfits] at h
        cases h

/-- The searches of a call that succeeds. -/
structure Found (pdf : Bytes) (n c br brOpen brClose : Nat) : Prop where
  contents : findFrom (contentsPlaceholder n) pdf 0 = some c
  key : findByteRange pdf c = some br
  brackets : findBrackets pdf br = some (brOpen, brClose)
  fits : (rangeText (c + 10) (c + 12 + n) (pdf.length - (c + 12 + n))).length ≤
    brClose - brOpen + 1

/-- A call succeeds only if both texts are found, the range fits and the callback answers. -/
theorem applySignature_of_ok {opt : Options} {pdf : Bytes}
    (h : (applySignature opt pdf).ok = true) :
    ∃ c br brOpen brClose der, Found pdf (opt.signReserveBytes * 2) c br brOpen brClose ∧
      Answered opt (ranged pdf c (opt.signReserveBytes * 2) brOpen brClose) c
        (opt.signReserveBytes * 2) (applySignature opt pdf) der := by
  have hloop := findPlaceholder_eq pdf (opt.signReserveBytes * 2) (pdf.length + 1) 0 (by omega)
  rw [applySignature] at h ⊢
  simp only [hloop] at h ⊢
  cases hc : findFrom (contentsPlaceholder (opt.signReserveBytes * 2)) pdf 0 with
  | none =>
      rw [hc] at h
      cases h
  | some c =>
      have hstart : c + 11 - 1 = c + 10 := by omega
      have hend : c + 11 + opt.signReserveBytes * 2 + 1 = c + 12 + opt.signReserveBytes * 2 := by
        omega
      simp only [hc, Option.map_some, hstart, hend] at h ⊢
      cases hbr : findByteRange pdf c with
      | none =>
          rw [hbr] at h
          cases h
      | some br =>
          cases hbk : findBrackets pdf br with
          | none =>
              simp only [hbr, hbk] at h
              cases h
          | some bk =>
              obtain ⟨brOpen, brClose⟩ := bk
              simp only [hbr, hbk] at h ⊢
              split at h
              · cases h
              · rename_i hfits
                rw [if_neg hfits]
                obtain ⟨der, hder⟩ := signGap_of_ok h
                exact ⟨c, br, brOpen, brClose, der, ⟨hc, hbr, hbk, by omega⟩, hder⟩

/-- Every error leaves the buffer as it was. -/
theorem applySignature_of_failed {opt : Options} {pdf : Bytes}
    (h : (applySignature opt pdf).ok = false) : (applySignature opt pdf).pdf = pdf := by
  simp only [applySignature] at h ⊢
  split
  · rfl
  · rename_i p c hexStart hexEnd hp
    simp only [hp] at h
    split
    · rfl
    · rename_i br hbr
      simp only [hbr] at h
      split
      · rfl
      · rename_i bk brOpen brClose hbk
        simp only [hbk] at h
        split
        · rfl
        · rename_i hfits
          rw [if_neg hfits] at h
          exact signGap_of_failed h

theorem slash_of_rangePlaceholder :
    ∀ k, k < 49 → rangePlaceholder[k]? = some 0x2F → k = 0 := by
  decide

theorem open_of_rangePlaceholder :
    ∀ k, k < 49 → rangePlaceholder[k]? = some 0x5B → k = 11 := by
  decide

theorem close_of_rangePlaceholder :
    ∀ k, k < 49 → rangePlaceholder[k]? = some 0x5D → k = 48 := by
  decide

theorem slash_of_byteRangeKey : ∀ k, k < 10 → byteRangeKey[k]? = some 0x2F → k = 0 := by
  decide

theorem slash_of_contentsPlaceholder {n k : Nat}
    (h : (contentsPlaceholder n)[k]? = some 0x2F) : k = 0 := by
  by_cases hk : k < 11
  · rw [contentsPlaceholder, List.getElem?_append_left hk] at h
    have hmark : ∀ k, k < 11 → placeholderMark[k]? = some 0x2F → k = 0 := by decide
    exact hmark k hk h
  · rw [contentsPlaceholder, List.getElem?_append_right (not_lt.mp hk)] at h
    have hmem := List.mem_of_getElem? h
    rw [List.mem_append, List.mem_replicate] at hmem
    rcases hmem with ⟨-, hzero⟩ | hgt
    · exact absurd hzero (by decide)
    · exact absurd hgt (by decide)

theorem length_contentsPlaceholder (n : Nat) : (contentsPlaceholder n).length = n + 12 := by
  rw [contentsPlaceholder, List.length_append, List.length_append, List.length_replicate]
  have hmark : placeholderMark.length = 11 := by decide
  have hgt : (lit ">").length = 1 := by decide
  omega

namespace Written

variable (w : Written)

theorem contentsAt_eq : w.contentsAt = w.rangeAt + 49 + w.mid.length := rfl

theorem gapStart_eq : w.gapStart = w.contentsAt + 10 := rfl

theorem gapEnd_eq : w.gapEnd = w.contentsAt + 12 + w.reserve * 2 := by
  rw [gapEnd, length_contentsPlaceholder]
  omega

theorem range_at {k : Nat} (hk : k < 49) : w.text[w.rangeAt + k]? = rangePlaceholder[k]? := by
  have hocc : occursAt rangePlaceholder w.text w.rangeAt = true := occursAt_append_left _ _ _
  exact occursAt_iff_getElem.mp hocc k hk

theorem contents_at :
    occursAt (contentsPlaceholder (w.reserve * 2)) w.text w.contentsAt = true := by
  have htext : w.text = (w.pre ++ rangePlaceholder ++ w.mid) ++
      (contentsPlaceholder (w.reserve * 2) ++ w.post) := by
    rw [text]
    simp only [List.append_assoc]
  have hlen : w.contentsAt = (w.pre ++ rangePlaceholder ++ w.mid).length := by
    rw [List.length_append, List.length_append]
    rfl
  rw [htext, hlen]
  exact occursAt_append_left _ _ _

/-- The key inside the middle part, in the file and alone. -/
theorem key_in_mid {m : Nat} (hm : m + 10 ≤ w.mid.length) :
    occursAt byteRangeKey w.text (w.rangeAt + 49 + m) = true ↔
      occursAt byteRangeKey w.mid m = true := by
  rw [occursAt_iff_getElem, occursAt_iff_getElem]
  apply forall_congr'
  intro k
  apply forall_congr'
  intro hk
  have hten : k < 10 := hk
  have hat : w.text[w.rangeAt + 49 + m + k]? = w.mid[m + k]? := by
    have hrange : rangePlaceholder.length = 49 := by decide
    rw [text, rangeAt, List.getElem?_append_right (by omega),
      List.getElem?_append_right (by omega), List.getElem?_append_left (by omega)]
    congr 1
    omega
  rw [hat]

/-- No slash but its own stands in the range. -/
theorem slash_off_range {i : Nat} (h : w.text[i]? = some 0x2F) :
    i ≤ w.rangeAt ∨ w.rangeAt + 49 ≤ i := by
  by_contra hin
  obtain ⟨k, rfl⟩ : ∃ k, i = w.rangeAt + k := ⟨i - w.rangeAt, by omega⟩
  rw [w.range_at (by omega)] at h
  have := slash_of_rangePlaceholder k (by omega) h
  omega

/-- A string of zeros does not touch the range. -/
theorem contents_off_range {i : Nat}
    (h : occursAt (contentsPlaceholder (w.reserve * 2)) w.text i = true) :
    i + 12 + w.reserve * 2 ≤ w.rangeAt ∨ w.rangeAt + 49 ≤ i := by
  have hbytes := occursAt_iff_getElem.mp h
  rw [length_contentsPlaceholder] at hbytes
  have hslash : w.text[i]? = some 0x2F := hbytes 0 (by omega)
  obtain hle | hge := w.slash_off_range hslash
  · refine Or.inl ?_
    by_contra hover
    -- its own slash would have to be the first byte of the string's key
    obtain ⟨k, hk⟩ : ∃ k, w.rangeAt = i + k := ⟨w.rangeAt - i, by omega⟩
    have hfirst : w.text[i + k]? = some 0x2F := by
      rw [← hk]
      exact w.range_at (k := 0) (by omega)
    rw [hbytes k (by omega)] at hfirst
    obtain rfl := slash_of_contentsPlaceholder hfirst
    have hsecond : w.text[i + 1]? = some 0x43 := hbytes 1 (by omega)
    rw [show i + 1 = w.rangeAt + 1 by omega, w.range_at (by omega)] at hsecond
    exact absurd hsecond (by decide)
  · exact Or.inr hge

/-- A key behind the range and not behind the string stands in the middle part. -/
theorem key_of_range_lt {i : Nat} (hlow : w.rangeAt < i) (hhigh : i ≤ w.contentsAt)
    (h : occursAt byteRangeKey w.text i = true) : ∃ m, occursAt byteRangeKey w.mid m = true := by
  have hbytes := occursAt_iff_getElem.mp h
  have hten : byteRangeKey.length = 10 := by decide
  rw [hten] at hbytes
  have hslash : w.text[i]? = some 0x2F := hbytes 0 (by omega)
  have hge : w.rangeAt + 49 ≤ i := by
    obtain hle | hge := w.slash_off_range hslash
    · omega
    · exact hge
  rw [contentsAt_eq] at hhigh
  by_cases hin : i + 10 ≤ w.rangeAt + 49 + w.mid.length
  · obtain ⟨m, rfl⟩ : ∃ m, i = w.rangeAt + 49 + m := ⟨i - (w.rangeAt + 49), by omega⟩
    exact ⟨m, (w.key_in_mid (by omega)).mp h⟩
  · -- the key would run into the slash of the string's key
    have hcontents := occursAt_iff_getElem.mp w.contents_at
    rw [length_contentsPlaceholder, contentsAt_eq] at hcontents
    obtain ⟨k, hk⟩ : ∃ k, w.rangeAt + 49 + w.mid.length = i + k :=
      ⟨w.rangeAt + 49 + w.mid.length - i, by omega⟩
    have hfirst : w.text[i + k]? = some 0x2F := by
      rw [← hk]
      exact hcontents 0 (by omega)
    rw [hbytes k (by omega)] at hfirst
    obtain rfl := slash_of_byteRangeKey k (by omega) hfirst
    have hsecond : w.text[i + 1]? = some 0x42 := hbytes 1 (by omega)
    have hthere : w.text[w.rangeAt + 49 + w.mid.length + 1]? = some 0x43 := hcontents 1 (by omega)
    rw [hk, Nat.add_zero, hsecond] at hthere
    exact absurd hthere (by decide)

end Written

/-- The brackets and what lies between them. -/
theorem findBrackets_eq_some_iff {body : Bytes} {br brOpen brClose : Nat} :
    findBrackets body br = some (brOpen, brClose) ↔
      findFrom [0x5B] body br = some brOpen ∧ findFrom [0x5D] body brOpen = some brClose := by
  have hopen : lit "[" = [0x5B] := by decide
  have hclose : lit "]" = [0x5D] := by decide
  rw [findBrackets, hopen, hclose]
  simp only [Option.bind_eq_bind, Option.bind_eq_some_iff, Option.pure_def, Option.some.injEq,
    Prod.mk.injEq]
  constructor
  · rintro ⟨o, ho, c, hc, rfl, rfl⟩
    exact ⟨ho, hc⟩
  · rintro ⟨ho, hc⟩
    exact ⟨brOpen, ho, brClose, hc, rfl, rfl⟩

theorem slash_notMem_padded {r1 r2 r3 width : Nat} :
    0x2F ∉ padded (rangeText r1 r2 r3) width 0x20 := by
  rw [padded, rangeText_eq]
  intro hmem
  simp only [List.mem_cons, List.mem_append, List.mem_replicate, List.cons_append,
    List.append_assoc, List.nil_append] at hmem
  obtain h | h | h | ⟨-, h⟩ := hmem
  · exact absurd h (by decide)
  · obtain hdigit | hblank := mem_rangeInner h
    · exact absurd hdigit (by decide)
    · exact absurd hblank (by decide)
  · exact absurd h (by decide)
  · exact absurd h (by decide)

section Range

variable {w : Written} {c br brOpen brClose : Nat}

theorem brOpen_lt_brClose
    (hbk : findBrackets w.text br = some (brOpen, brClose)) : brOpen < brClose := by
  obtain ⟨hopen, hclose⟩ := findBrackets_eq_some_iff.mp hbk
  obtain ⟨-, ho, -⟩ := findFrom_singleton_eq_some_iff.mp hopen
  obtain ⟨hle, hc, -⟩ := findFrom_singleton_eq_some_iff.mp hclose
  refine lt_of_le_of_ne hle ?_
  rintro rfl
  rw [ho] at hc
  exact absurd hc (by decide)

/-- The brackets that are found lie apart from the range, are its own or reach over it. -/
theorem brackets_cases (hbk : findBrackets w.text br = some (brOpen, brClose)) :
    brClose < w.rangeAt ∨ w.rangeAt + 49 ≤ brOpen ∨
      (brOpen = w.rangeAt + 11 ∧ brClose = w.rangeAt + 48) ∨
      (brOpen < w.rangeAt ∧ w.rangeAt < brClose) := by
  obtain ⟨hopen, hclose⟩ := findBrackets_eq_some_iff.mp hbk
  obtain ⟨-, ho, -⟩ := findFrom_singleton_eq_some_iff.mp hopen
  obtain ⟨hle, hc, hskip⟩ := findFrom_singleton_eq_some_iff.mp hclose
  have hlast : w.text[w.rangeAt + 48]? = some 0x5D := w.range_at (by omega)
  by_cases hbehind : w.rangeAt + 49 ≤ brOpen
  · exact .inr (.inl hbehind)
  · have hbound : brClose ≤ w.rangeAt + 48 := by
      by_contra hfar
      exact hskip (w.rangeAt + 48) (by omega) (by omega) hlast
    by_cases hinside : w.rangeAt ≤ brOpen
    · obtain ⟨k, rfl⟩ : ∃ k, brOpen = w.rangeAt + k := ⟨brOpen - w.rangeAt, by omega⟩
      rw [w.range_at (by omega)] at ho
      obtain rfl := open_of_rangePlaceholder k (by omega) ho
      obtain ⟨l, rfl⟩ : ∃ l, brClose = w.rangeAt + l := ⟨brClose - w.rangeAt, by omega⟩
      rw [w.range_at (by omega)] at hc
      obtain rfl := close_of_rangePlaceholder l (by omega) hc
      exact .inr (.inr (.inl ⟨rfl, rfl⟩))
    · by_cases hbefore : brClose < w.rangeAt
      · exact .inl hbefore
      · have hne : brClose ≠ w.rangeAt := by
          rintro rfl
          have hslash : w.text[w.rangeAt + 0]? = some 0x2F := w.range_at (by omega)
          rw [Nat.add_zero, hc] at hslash
          exact absurd hslash (by decide)
        exact .inr (.inr (.inr ⟨by omega, by omega⟩))

variable {opt : Options} {r : Result} {der : Bytes}

/-- The range is put between brackets of the file. -/
theorem brackets_le (hbk : findBrackets w.text br = some (brOpen, brClose)) :
    brOpen + (brClose - brOpen + 1) ≤ w.text.length := by
  obtain ⟨-, hclose⟩ := findBrackets_eq_some_iff.mp hbk
  obtain ⟨-, hc, -⟩ := findFrom_singleton_eq_some_iff.mp hclose
  obtain ⟨hlt, -⟩ := List.getElem?_eq_some_iff.mp hc
  have := brOpen_lt_brClose hbk
  omega

/-- The string of zeros lies in the file. -/
theorem contents_le (hf : Found w.text (w.reserve * 2) c br brOpen brClose) :
    c + 12 + w.reserve * 2 ≤ w.text.length := by
  obtain ⟨-, -, hocc, -⟩ := findFrom_eq_some_iff.mp hf.contents
  have hlen := length_contentsPlaceholder (w.reserve * 2)
  have hne : contentsPlaceholder (w.reserve * 2) ≠ [] := by
    rw [← List.length_pos_iff]
    omega
  have := length_le_of_occursAt hne hocc
  omega

theorem length_ranged (hf : Found w.text (w.reserve * 2) c br brOpen brClose) :
    (ranged w.text c (w.reserve * 2) brOpen brClose).length = w.text.length :=
  length_splice (length_padded 0x20 hf.fits) (brackets_le hf.brackets)

/-- Outside the string the result is the file with the range in place. -/
theorem result_getElem (hf : Found w.text (w.reserve * 2) c br brOpen brClose)
    (ha : Answered opt (ranged w.text c (w.reserve * 2) brOpen brClose) c (w.reserve * 2) r der)
    {i : Nat} (hi : i < c + 11 ∨ c + 11 + w.reserve * 2 ≤ i) :
    r.pdf[i]? = (ranged w.text c (w.reserve * 2) brOpen brClose)[i]? := by
  have hlen := contents_le hf
  have hsame := length_ranged hf
  have hwidth : (hexText der).length ≤ w.reserve * 2 := by
    rw [length_hexText]
    exact ha.fits
  rw [ha.file, getElem?_splice (length_padded 0x30 hwidth) (by omega), if_neg (by omega)]

/-- A result with the right range has its own brackets filled. -/
theorem own_brackets_of_range (hf : Found w.text (w.reserve * 2) c br brOpen brClose)
    (ha : Answered opt (ranged w.text c (w.reserve * 2) brOpen brClose) c (w.reserve * 2) r der)
    {n : Nat} (hread : readByteRange r.pdf w.rangeAt = some [0, w.gapStart, w.gapEnd, n]) :
    brOpen = w.rangeAt + 11 ∧ brClose = w.rangeAt + 48 := by
  obtain ⟨-, -, hocc, -⟩ := findFrom_eq_some_iff.mp hf.contents
  have hoff := w.contents_off_range hocc
  have hfill := length_padded 0x20 hf.fits
  have hbytes : ∀ k, k < 49 → r.pdf[w.rangeAt + k]? =
      (ranged w.text c (w.reserve * 2) brOpen brClose)[w.rangeAt + k]? := by
    intro k hk
    exact result_getElem hf ha (by omega)
  have hlt := brOpen_lt_brClose hf.brackets
  -- an untouched range still has the numbers of the placeholder
  have huntouched : (∀ k, k < 49 → ¬ (brOpen ≤ w.rangeAt + k ∧
      w.rangeAt + k < brOpen + (brClose - brOpen + 1))) → False := by
    intro hout
    have hrange : occursAt rangePlaceholder r.pdf w.rangeAt = true := by
      rw [occursAt_iff_getElem]
      intro k hk
      rw [hbytes k hk, ranged, getElem?_splice hfill (brackets_le hf.brackets), if_neg (hout k hk)]
      exact w.range_at hk
    rw [readByteRange_rangePlaceholder hrange] at hread
    simp only [Option.some.injEq, List.cons.injEq] at hread
    have hstart := w.gapStart_eq
    have hend := w.gapEnd_eq
    omega
  obtain hbefore | hbehind | hown | ⟨hover, hover'⟩ := brackets_cases hf.brackets
  · exact (huntouched fun k hk => by omega).elim
  · exact (huntouched fun k hk => by omega).elim
  · exact hown
  · -- the slash of the key is overwritten
    exfalso
    have hfirst := hbytes 0 (by omega)
    rw [Nat.add_zero, ranged, getElem?_splice hfill (brackets_le hf.brackets),
      if_pos (by omega)] at hfirst
    rw [readByteRange] at hread
    split at hread
    · rename_i hkey
      have hslash : r.pdf[w.rangeAt + 0]? = some 0x2F :=
        occursAt_iff_getElem.mp hkey 0 (by decide)
      rw [Nat.add_zero, hfirst] at hslash
      exact slash_notMem_padded (List.mem_of_getElem? hslash)
    · cases hread

/-- What is filled in between the file's own brackets is read. -/
theorem readByteRange_of_own_brackets
    (hf : Found w.text (w.reserve * 2) c br (w.rangeAt + 11) (w.rangeAt + 48))
    (ha : Answered opt (ranged w.text c (w.reserve * 2) (w.rangeAt + 11) (w.rangeAt + 48)) c
      (w.reserve * 2) r der) :
    readByteRange r.pdf w.rangeAt = some [0, c + 10, c + 12 + w.reserve * 2,
      w.text.length - (c + 12 + w.reserve * 2)] := by
  obtain ⟨-, -, hocc, -⟩ := findFrom_eq_some_iff.mp hf.contents
  have hoff := w.contents_off_range hocc
  have hspan : w.rangeAt + 48 - (w.rangeAt + 11) + 1 = 38 := by omega
  have hfits := hf.fits
  have hbk := brackets_le hf.brackets
  rw [hspan] at hfits hbk
  apply readByteRange_rangeText
  rw [← List.append_assoc, occursAt_append_iff]
  constructor
  · rw [occursAt_iff_getElem]
    intro k hk
    have hkey : k < 11 := hk
    have hprefix : ∀ k, k < 11 → rangePlaceholder[k]? = (byteRangeKey ++ lit " ")[k]? := by decide
    rw [result_getElem hf ha (by omega), ranged, hspan,
      getElem?_splice (length_padded 0x20 hfits) hbk, if_neg (by omega), w.range_at (by omega)]
    exact hprefix k hkey
  · have hwidth : (byteRangeKey ++ lit " ").length = 11 := by decide
    have hfill : occursAt (padded (rangeText (c + 10) (c + 12 + w.reserve * 2)
        (w.text.length - (c + 12 + w.reserve * 2))) 38 0x20)
        (ranged w.text c (w.reserve * 2) (w.rangeAt + 11) (w.rangeAt + 48)) (w.rangeAt + 11) =
          true := by
      rw [ranged, hspan]
      exact occursAt_splice (by omega)
    rw [padded, occursAt_append_iff, occursAt_iff_getElem] at hfill
    rw [hwidth, occursAt_iff_getElem]
    intro k hk
    rw [result_getElem hf ha (by omega)]
    exact hfill.1 k hk

/-- A result from the file's own texts is right. -/
theorem correct_of_own_texts
    (hf : Found w.text (w.reserve * 2) w.contentsAt br (w.rangeAt + 11) (w.rangeAt + 48))
    (ha : Answered opt (ranged w.text w.contentsAt (w.reserve * 2) (w.rangeAt + 11)
      (w.rangeAt + 48)) w.contentsAt (w.reserve * 2) r der) : Correct w opt r := by
  have hlen := contents_le hf
  have hsame := length_ranged hf
  have hread := readByteRange_of_own_brackets hf ha
  have hwidth : (hexText der).length ≤ w.reserve * 2 := by
    rw [length_hexText]
    exact ha.fits
  have hpadded := length_padded 0x30 hwidth
  have hlength : r.pdf.length = w.text.length := by
    rw [ha.file, length_splice hpadded (by omega), hsame]
  have hbytes := (occursAt_contentsPlaceholder_iff.mp w.contents_at)
  have hstart := w.gapStart_eq
  have hend := w.gapEnd_eq
  have hrangeEnd := w.contentsAt_eq
  have hkeep : ∀ i, w.contentsAt ≤ i → (i < w.contentsAt + 11 ∨
      w.contentsAt + 11 + w.reserve * 2 ≤ i) → r.pdf[i]? = w.text[i]? := by
    intro i hi hout
    rw [result_getElem hf ha hout, ranged, getElem?_splice (length_padded 0x20 hf.fits)
      (brackets_le hf.brackets), if_neg (by omega)]
  refine ⟨hlength, ⟨w.text.length - w.gapEnd, by omega, ?_⟩, ?_, ?_⟩
  · rw [hread, hstart, hend]
  · rw [ha.data, ha.file, hstart, hend, take_splice (by omega) (by omega),
      drop_splice hpadded (by omega) (by omega)]
  · refine ⟨_, der, w.reserve * 2 - (hexText der).length, ha.data, ha.call, ?_⟩
    have hgap : occursAt (lit "<" ++ (padded (hexText der) (w.reserve * 2) 0x30 ++ lit ">"))
        r.pdf w.gapStart = true := by
      have hlt : lit "<" = [0x3C] := by decide
      have hgt : lit ">" = [0x3E] := by decide
      rw [occursAt_append_iff, occursAt_append_iff, hlt, hgt, occursAt_singleton_iff,
        occursAt_singleton_iff, hpadded, hstart]
      refine ⟨?_, ?_, ?_⟩
      · rw [hkeep _ (by omega) (by omega)]
        exact occursAt_iff_getElem.mp hbytes.1 10 (by decide)
      · rw [ha.file]
        exact occursAt_splice (by omega)
      · rw [hkeep _ (by simp; omega) (by simp)]
        exact hbytes.2.2
    rw [occursAt_iff, List.prefix_iff_eq_take] at hgap
    have hsize : (lit "<" ++ (padded (hexText der) (w.reserve * 2) 0x30 ++ lit ">")).length =
        w.gapEnd - w.gapStart := by
      have hlt : (lit "<").length = 1 := by decide
      have hgt : (lit ">").length = 1 := by decide
      rw [List.length_append, List.length_append, hpadded]
      omega
    rw [← hsize, ← hgap, padded]
    simp only [List.append_assoc]

/-- Without other such texts the search finds the file's own ones. -/
theorem own_texts_of_not_decoy (hf : Found w.text (w.reserve * 2) c br brOpen brClose)
    (hno : ¬ w.Decoy) :
    c = w.contentsAt ∧ brOpen = w.rangeAt + 11 ∧ brClose = w.rangeAt + 48 := by
  have hnoContents : ∀ i, i < w.contentsAt →
      ¬ occursAt (contentsPlaceholder (w.reserve * 2)) w.text i = true :=
    fun i hi hocc => hno (.inl ⟨i, hi, hocc⟩)
  have hnoKey : ¬ ∃ m, occursAt byteRangeKey w.mid m = true := fun h => hno (.inr h)
  obtain ⟨-, -, hocc, hskip⟩ := findFrom_eq_some_iff.mp hf.contents
  have hc : c = w.contentsAt := by
    apply le_antisymm
    · by_contra hfar
      have hown := hskip w.contentsAt (Nat.zero_le _) (by omega)
      rw [w.contents_at] at hown
      cases hown
    · by_contra hnear
      exact hnoContents c (by omega) hocc
  subst hc
  have hkeyAt : occursAt byteRangeKey w.text w.rangeAt = true := by
    have hrange : occursAt rangePlaceholder w.text w.rangeAt = true := occursAt_append_left _ _ _
    rw [rangePlaceholder, occursAt_append_iff] at hrange
    exact hrange.1
  have hrfind : rfindFrom byteRangeKey w.text w.contentsAt = some w.rangeAt := by
    rw [rfindFrom_eq_some_iff]
    refine ⟨by rw [w.contentsAt_eq]; omega, hkeyAt, fun j hlow hhigh => ?_⟩
    rw [Bool.eq_false_iff]
    exact fun h => hnoKey (w.key_of_range_lt hlow hhigh h)
  have hbr : br = w.rangeAt := by
    have hkey := hf.key
    rw [findByteRange, hrfind, Option.some_or] at hkey
    exact (Option.some.inj hkey).symm
  obtain ⟨hopen, -⟩ := findBrackets_eq_some_iff.mp hf.brackets
  obtain ⟨hge, -, hfirst⟩ := findFrom_singleton_eq_some_iff.mp hopen
  have hlt := brOpen_lt_brClose hf.brackets
  refine ⟨rfl, ?_⟩
  obtain hbefore | hbehind | hown | ⟨hover, -⟩ := brackets_cases hf.brackets
  · omega
  · exact absurd (w.range_at (k := 11) (by omega)) (hfirst (w.rangeAt + 11) (by omega) (by omega))
  · exact hown
  · omega

/-- The file's own texts are found only if there are no other ones. -/
theorem not_decoy_of_own_texts
    (hf : Found w.text (w.reserve * 2) w.contentsAt br (w.rangeAt + 11) brClose) :
    ¬ w.Decoy := by
  obtain ⟨-, -, -, hskip⟩ := findFrom_eq_some_iff.mp hf.contents
  rintro (⟨i, hi, hocc⟩ | ⟨m, hm⟩)
  · rw [hskip i (Nat.zero_le _) hi] at hocc
    cases hocc
  · have hlen : m + 10 ≤ w.mid.length := length_le_of_occursAt (by decide) hm
    have hkeyAt := (w.key_in_mid hlen).mpr hm
    have hkey := hf.key
    rw [findByteRange] at hkey
    cases hrfind : rfindFrom byteRangeKey w.text w.contentsAt with
    | none =>
        rw [rfindFrom_eq_none_iff] at hrfind
        rw [hrfind _ (by rw [w.contentsAt_eq]; omega)] at hkeyAt
        cases hkeyAt
    | some br' =>
        rw [hrfind, Option.some_or] at hkey
        obtain rfl := Option.some.inj hkey
        obtain ⟨-, -, hlast⟩ := rfindFrom_eq_some_iff.mp hrfind
        obtain ⟨hopen, -⟩ := findBrackets_eq_some_iff.mp hf.brackets
        obtain ⟨hge, -, -⟩ := findFrom_singleton_eq_some_iff.mp hopen
        rw [hlast (w.rangeAt + 49 + m) (by omega) (by rw [w.contentsAt_eq]; omega)] at hkeyAt
        cases hkeyAt

end Range

/-- An error leaves the buffer as it was; a signature is right exactly if the file has
no other text that the search takes for the placeholder. -/
theorem applySignature_correct_iff (w : Written) (sign : Bytes → Option Bytes) :
    ((applySignature ⟨w.reserve, sign⟩ w.text).ok = false →
      (applySignature ⟨w.reserve, sign⟩ w.text).pdf = w.text) ∧
    ((applySignature ⟨w.reserve, sign⟩ w.text).ok = true →
      (Correct w ⟨w.reserve, sign⟩ (applySignature ⟨w.reserve, sign⟩ w.text) ↔ ¬ w.Decoy)) := by
  refine ⟨applySignature_of_failed, fun hok => ?_⟩
  obtain ⟨c, br, brOpen, brClose, der, hf, ha⟩ := applySignature_of_ok hok
  constructor
  · intro hcorrect
    obtain ⟨n, -, hread⟩ := hcorrect.range
    obtain ⟨rfl, rfl⟩ := own_brackets_of_range hf ha hread
    have hc : c = w.contentsAt := by
      rw [readByteRange_of_own_brackets hf ha] at hread
      simp only [Option.some.injEq, List.cons.injEq] at hread
      have hstart := w.gapStart_eq
      omega
    subst hc
    exact not_decoy_of_own_texts hf
  · intro hno
    obtain ⟨rfl, rfl, rfl⟩ := own_texts_of_not_decoy hf hno
    exact correct_of_own_texts hf ha

/-- A signature dictionary without a contact. -/
def plainFile : Written where
  pre := lit "7 0 obj\n<< "
  mid := lit " "
  post := lit " /Filter /Adobe.PPKLite >>\nendobj\n"
  reserve := 2

/-- The callback answers with two bytes. -/
def twoBytes (_ : Bytes) : Option Bytes := some [0x30, 0x80]

/-- A file without other such texts is signed. -/
theorem plainFile_signed :
    (applySignature ⟨2, twoBytes⟩ plainFile.text).ok = true ∧
    Correct plainFile ⟨2, twoBytes⟩ (applySignature ⟨2, twoBytes⟩ plainFile.text) := by
  have hok : (applySignature ⟨2, twoBytes⟩ plainFile.text).ok = true := by decide +kernel
  have hno : ¬ plainFile.Decoy := by
    rintro (⟨i, hi, hocc⟩ | ⟨i, hocc⟩)
    · have hnone : ∀ i, i < plainFile.contentsAt →
          occursAt (contentsPlaceholder (plainFile.reserve * 2)) plainFile.text i = false := by
        decide
      rw [hnone i hi] at hocc
      cases hocc
    · have hlen := length_le_of_occursAt (by decide) hocc
      have hten : byteRangeKey.length = 10 := by decide
      have hone : plainFile.mid.length = 1 := by decide
      omega
  exact ⟨hok, ((applySignature_correct_iff plainFile twoBytes).2 hok).mpr hno⟩

/-- The contact of the signer has the text of a range. -/
def contactFile : Written where
  pre := lit "7 0 obj\n<< "
  mid := lit " /ContactInfo (/ByteRange [0123456789012345678901234567890123456789]) "
  post := lit " /Filter /Adobe.PPKLite >>\nendobj\n"
  reserve := 2

/-- The range is filled into the contact; the signature keeps the numbers of the placeholder. -/
theorem contactFile_not_signed :
    (applySignature ⟨2, twoBytes⟩ contactFile.text).ok = true ∧
    ¬ Correct contactFile ⟨2, twoBytes⟩ (applySignature ⟨2, twoBytes⟩ contactFile.text) := by
  refine ⟨by decide +kernel, fun hcorrect => ?_⟩
  obtain ⟨n, -, hread⟩ := hcorrect.range
  have hkept : readByteRange (applySignature ⟨2, twoBytes⟩ contactFile.text).pdf
      contactFile.rangeAt = some [0, 9999999999, 9999999999, 9999999999] := by
    decide +kernel
  rw [hkept] at hread
  have hstart : contactFile.gapStart ≠ 9999999999 := by decide
  simp only [Option.some.injEq, List.cons.injEq] at hread
  exact hstart hread.2.1.symm

end Kura.Engine.Sign
