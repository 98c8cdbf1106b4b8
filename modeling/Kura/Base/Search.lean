import Mathlib

/-!
# Searching in lists

The first and the last place where a pattern occurs, as the string functions
of C++ find them, and the replacement of a part by one of the same length.

A place is an index; the pattern occurs there if it is a prefix of what
remains. The search functions are specified by the places they skip.
-/

namespace Kura.Base

variable {α : Type*} [DecidableEq α]

/-- The pattern occurs at a place. -/
def occursAt (p s : List α) (i : Nat) : Bool := p.isPrefixOf (s.drop i)

/-- The first occurrence at a place or behind it. -/
def findFrom (p s : List α) (pos : Nat) : Option Nat :=
  (List.range' pos (s.length + 1 - pos)).find? (occursAt p s)

/-- The last occurrence at a place or before it. -/
def rfindFrom (p s : List α) : Nat → Option Nat
  | 0 => if occursAt p s 0 then some 0 else none
  | n + 1 => if occursAt p s (n + 1) then some (n + 1) else rfindFrom p s n

/-- The first place from which on the element is another one. -/
def findNot (c : α) (s : List α) (pos : Nat) : Option Nat :=
  (List.range' pos (s.length - pos)).find? fun i => s[i]? ≠ some c

/-- A part is replaced. -/
def splice (s : List α) (pos len : Nat) (t : List α) : List α :=
  s.take pos ++ t ++ s.drop (pos + len)

theorem occursAt_iff {p s : List α} {i : Nat} : occursAt p s i = true ↔ p <+: s.drop i := by
  rw [occursAt, List.isPrefixOf_iff_prefix]

theorem occursAt_append_iff {p p' s : List α} {i : Nat} :
    occursAt (p ++ p') s i = true ↔ occursAt p s i = true ∧
      occursAt p' s (i + p.length) = true := by
  rw [occursAt_iff, occursAt_iff, occursAt_iff, ← List.drop_drop]
  constructor
  · rintro ⟨r, hr⟩
    rw [← hr, List.append_assoc]
    refine ⟨⟨p' ++ r, rfl⟩, ?_⟩
    rw [List.drop_left]
    exact ⟨r, rfl⟩
  · rintro ⟨⟨r, hr⟩, hp'⟩
    rw [← hr, List.drop_left] at hp'
    obtain ⟨r', rfl⟩ := hp'
    exact ⟨r', by rw [← hr, List.append_assoc]⟩

/-- An occurrence is told by its elements. -/
theorem occursAt_iff_getElem {p s : List α} {i : Nat} :
    occursAt p s i = true ↔ ∀ k, k < p.length → s[i + k]? = p[k]? := by
  rw [occursAt_iff, List.prefix_iff_getElem?]
  constructor
  · intro h k hk
    rw [← List.getElem?_drop, h k hk, List.getElem?_eq_getElem hk]
  · intro h k hk
    rw [List.getElem?_drop, h k hk, List.getElem?_eq_getElem hk]

theorem occursAt_singleton_iff {c : α} {s : List α} {i : Nat} :
    occursAt [c] s i = true ↔ s[i]? = some c := by
  rw [occursAt_iff_getElem]
  constructor
  · intro h
    exact h 0 Nat.zero_lt_one
  · intro h k hk
    obtain rfl := Nat.lt_one_iff.mp hk
    exact h

theorem length_le_of_occursAt {p s : List α} {i : Nat} (hp : p ≠ []) (h : occursAt p s i = true) :
    i + p.length ≤ s.length := by
  rw [occursAt_iff] at h
  have hlen := h.length_le
  have hpos := List.length_pos_iff.mpr hp
  rw [List.length_drop] at hlen
  omega

theorem findFrom_eq_some_iff {p s : List α} {pos i : Nat} :
    findFrom p s pos = some i ↔ pos ≤ i ∧ i ≤ s.length ∧ occursAt p s i = true ∧
      ∀ j, pos ≤ j → j < i → occursAt p s j = false := by
  rw [findFrom, List.find?_range'_eq_some]
  constructor
  · rintro ⟨hocc, hmem, hskip⟩
    rw [List.mem_range'_1] at hmem
    refine ⟨hmem.1, by omega, hocc, ?_⟩
    intro j hpos hj
    simpa using hskip j hpos hj
  · rintro ⟨hpos, hlen, hocc, hskip⟩
    refine ⟨hocc, ?_, ?_⟩
    · rw [List.mem_range'_1]
      omega
    · intro j hj hji
      simp [hskip j hj hji]

theorem findFrom_eq_none_iff {p s : List α} {pos : Nat} :
    findFrom p s pos = none ↔ ∀ i, pos ≤ i → i ≤ s.length → occursAt p s i = false := by
  rw [findFrom, List.find?_range'_eq_none]
  constructor
  · intro h i hpos hlen
    simpa using h i hpos (by omega)
  · intro h i hpos hlt
    simp [h i hpos (by omega)]

/-- The search from behind finds the last occurrence. -/
theorem rfindFrom_eq_some_iff {p s : List α} {pos i : Nat} :
    rfindFrom p s pos = some i ↔ i ≤ pos ∧ occursAt p s i = true ∧
      ∀ j, i < j → j ≤ pos → occursAt p s j = false := by
  induction pos with
  | zero =>
      rw [rfindFrom]
      split
      · rename_i h
        constructor
        · intro hi
          obtain rfl := Option.some.inj hi
          exact ⟨le_refl _, h, fun j hj hj' => absurd hj (by omega)⟩
        · rintro ⟨hi, -, -⟩
          rw [Nat.le_zero.mp hi]
      · rename_i h
        constructor
        · intro hi
          cases hi
        · rintro ⟨hi, hocc, -⟩
          rw [Nat.le_zero.mp hi] at hocc
          exact absurd hocc h
  | succ n ih =>
      rw [rfindFrom]
      split
      · rename_i h
        constructor
        · intro hi
          obtain rfl := Option.some.inj hi
          exact ⟨le_refl _, h, fun j hj hj' => absurd hj (by omega)⟩
        · rintro ⟨hi, hocc, hskip⟩
          obtain rfl | hlt := Nat.eq_or_lt_of_le hi
          · rfl
          · rw [hskip (n + 1) hlt (le_refl _)] at h
            cases h
      · rename_i h
        rw [ih]
        constructor
        · rintro ⟨hi, hocc, hskip⟩
          refine ⟨by omega, hocc, ?_⟩
          intro j hij hj
          obtain rfl | hlt := Nat.eq_or_lt_of_le hj
          · simpa using h
          · exact hskip j hij (by omega)
        · rintro ⟨hi, hocc, hskip⟩
          refine ⟨?_, hocc, fun j hij hj => hskip j hij (by omega)⟩
          obtain rfl | hlt := Nat.eq_or_lt_of_le hi
          · exact absurd hocc h
          · omega

/-- The search from behind fails exactly where nothing occurs. -/
theorem rfindFrom_eq_none_iff {p s : List α} {pos : Nat} :
    rfindFrom p s pos = none ↔ ∀ i, i ≤ pos → occursAt p s i = false := by
  constructor
  · intro h
    induction pos with
    | zero =>
        rw [rfindFrom] at h
        split at h
        · cases h
        · rename_i hno
          intro i hi
          rw [Nat.le_zero.mp hi]
          simpa using hno
    | succ n ih =>
        rw [rfindFrom] at h
        split at h
        · cases h
        · rename_i hno
          intro i hi
          obtain rfl | hlt := Nat.eq_or_lt_of_le hi
          · simpa using hno
          · exact ih h i (by omega)
  · intro h
    cases hfind : rfindFrom p s pos with
    | none => rfl
    | some i =>
        obtain ⟨hi, hocc, -⟩ := rfindFrom_eq_some_iff.mp hfind
        rw [h i hi] at hocc
        cases hocc

/-- The first place of one element. -/
theorem findFrom_singleton_eq_some_iff {c : α} {s : List α} {pos i : Nat} :
    findFrom [c] s pos = some i ↔ pos ≤ i ∧ s[i]? = some c ∧
      ∀ j, pos ≤ j → j < i → s[j]? ≠ some c := by
  rw [findFrom_eq_some_iff]
  constructor
  · rintro ⟨hpos, -, hocc, hskip⟩
    refine ⟨hpos, occursAt_singleton_iff.mp hocc, ?_⟩
    intro j hj hji hc
    rw [← occursAt_singleton_iff, hskip j hj hji] at hc
    cases hc
  · rintro ⟨hpos, hc, hskip⟩
    obtain ⟨hlt, -⟩ := List.getElem?_eq_some_iff.mp hc
    refine ⟨hpos, by omega, occursAt_singleton_iff.mpr hc, ?_⟩
    intro j hj hji
    rw [Bool.eq_false_iff, Ne, occursAt_singleton_iff]
    exact hskip j hj hji

theorem findFrom_singleton_eq_none_iff {c : α} {s : List α} {pos : Nat} :
    findFrom [c] s pos = none ↔ ∀ i, pos ≤ i → s[i]? ≠ some c := by
  rw [findFrom_eq_none_iff]
  constructor
  · intro h i hpos hc
    obtain ⟨hlt, -⟩ := List.getElem?_eq_some_iff.mp hc
    rw [← occursAt_singleton_iff, h i hpos (by omega)] at hc
    cases hc
  · intro h i hpos _
    rw [Bool.eq_false_iff, Ne, occursAt_singleton_iff]
    exact h i hpos

/-- Nothing else stands before a place of the list. -/
theorem findNot_any_lt_eq_false_iff {c : α} {s : List α} {pos stop : Nat}
    (hstop : stop ≤ s.length) :
    (findNot c s pos).any (· < stop) = false ↔ ∀ i, pos ≤ i → i < stop → s[i]? = some c := by
  cases hfind : findNot c s pos with
  | none =>
      rw [findNot, List.find?_range'_eq_none] at hfind
      refine ⟨fun _ i hpos hi => ?_, fun _ => rfl⟩
      simpa using hfind i hpos (by omega)
  | some k =>
      rw [findNot, List.find?_range'_eq_some] at hfind
      obtain ⟨hother, hmem, hskip⟩ := hfind
      rw [List.mem_range'_1] at hmem
      rw [Option.any_some, decide_eq_false_iff_not]
      constructor
      · intro hk i hpos hi
        simpa using hskip i hpos (by omega)
      · intro h hk
        rw [decide_eq_true_eq] at hother
        exact hother (h k hmem.1 hk)

omit [DecidableEq α] in
theorem length_splice {s t : List α} {pos len : Nat} (hlen : t.length = len)
    (hpos : pos + len ≤ s.length) : (splice s pos len t).length = s.length := by
  rw [splice, List.length_append, List.length_append, List.length_take, List.length_drop]
  omega

omit [DecidableEq α] in
/-- The elements after a replacement of the same length. -/
theorem getElem?_splice {s t : List α} {pos len : Nat} (hlen : t.length = len)
    (hpos : pos + len ≤ s.length) (i : Nat) :
    (splice s pos len t)[i]? = if pos ≤ i ∧ i < pos + len then t[i - pos]? else s[i]? := by
  have htake : (s.take pos).length = pos := by
    rw [List.length_take]
    omega
  rw [splice, List.append_assoc]
  by_cases hlow : i < pos
  · rw [List.getElem?_append_left (by omega), List.getElem?_take_of_lt hlow, if_neg (by omega)]
  · rw [List.getElem?_append_right (by omega), htake]
    by_cases hin : i < pos + len
    · rw [List.getElem?_append_left (by omega), if_pos (by omega)]
    · rw [List.getElem?_append_right (by omega), if_neg (by omega), List.getElem?_drop]
      congr 1
      omega

theorem occursAt_splice {s t : List α} {pos len : Nat} (hpos : pos ≤ s.length) :
    occursAt t (splice s pos len t) pos = true := by
  have htake : (s.take pos).length = pos := by
    rw [List.length_take]
    omega
  rw [occursAt_iff, splice, List.append_assoc, List.drop_append_of_le_length (by omega),
    List.drop_of_length_le (by omega), List.nil_append]
  exact List.prefix_append t _

omit [DecidableEq α] in
/-- Nothing changes before the part. -/
theorem take_splice {s t : List α} {pos len n : Nat} (hn : n ≤ pos) (hpos : pos ≤ s.length) :
    (splice s pos len t).take n = s.take n := by
  rw [splice, List.append_assoc, List.take_append_of_le_length (by rw [List.length_take]; omega),
    List.take_take, Nat.min_eq_left hn]

omit [DecidableEq α] in
/-- Nothing changes behind the part. -/
theorem drop_splice {s t : List α} {pos len n : Nat} (hlen : t.length = len)
    (hpos : pos + len ≤ s.length) (hn : pos + len ≤ n) :
    (splice s pos len t).drop n = s.drop n := by
  apply List.ext_getElem?
  intro i
  rw [List.getElem?_drop, List.getElem?_drop, getElem?_splice hlen hpos, if_neg (by omega)]

theorem occursAt_append_left (a p d : List α) : occursAt p (a ++ (p ++ d)) a.length = true := by
  rw [occursAt_iff, List.drop_left]
  exact List.prefix_append p d

/-- No occurrence of the pattern starts in a part, whatever follows it. -/
def Clear (p s : List α) : Prop := ∀ rest i, i < s.length → occursAt p (s ++ rest) i = false

theorem clear_nil (p : List α) : Clear p [] := by
  intro rest i hi
  exact absurd hi (Nat.not_lt_zero i)

theorem Clear.append {p s t : List α} (hs : Clear p s) (ht : Clear p t) : Clear p (s ++ t) := by
  intro rest i hi
  rw [List.length_append] at hi
  rw [List.append_assoc]
  by_cases h : i < s.length
  · exact hs (t ++ rest) i h
  · have hafter := ht rest (i - s.length) (by omega)
    rwa [occursAt, List.drop_append, List.drop_eq_nil_of_le (by omega), List.nil_append]

theorem clear_of_notMem {c : α} (p : List α) {s : List α} (h : c ∉ s) : Clear (c :: p) s := by
  intro rest i hi
  rw [Bool.eq_false_iff, Ne, occursAt_iff_getElem]
  intro hocc
  have hc := hocc 0 (by simp)
  rw [Nat.add_zero, List.getElem?_append_left hi, List.getElem?_cons_zero] at hc
  exact h (List.mem_of_getElem? hc)

/-- The pattern and what stands at each place of the part differ inside both of them. -/
def clearB (p : List α) : List α → Bool
  | [] => true
  | c :: s => !p.isPrefixOf (c :: s) && !(c :: s).isPrefixOf p && clearB p s

/-- The decidable form of `Clear` implies it. -/
theorem clear_of_clearB {p s : List α} (h : clearB p s = true) : Clear p s := by
  induction s with
  | nil => exact clear_nil p
  | cons c s ih =>
      simp only [clearB, Bool.and_eq_true, Bool.not_eq_true', Bool.eq_false_iff, Ne,
        List.isPrefixOf_iff_prefix] at h
      obtain ⟨⟨hp, hs⟩, hrest⟩ := h
      intro rest i hi
      rw [Bool.eq_false_iff, Ne, occursAt_iff]
      cases i with
      | zero =>
          rw [List.drop_zero]
          intro hpre
          -- two beginnings of one list are comparable
          obtain hle | hle :=
              List.prefix_or_prefix_of_prefix hpre (List.prefix_append (c :: s) rest)
          · exact hp hle
          · exact hs hle
      | succ i =>
          have hclear := ih hrest rest i (by simpa using hi)
          rwa [Bool.eq_false_iff, Ne, occursAt_iff] at hclear

/-- Behind a part in which no occurrence starts, the pattern is found where it stands. -/
theorem findFrom_of_clear {p s : List α} (a d : List α) (hs : Clear p s) :
    findFrom p (a ++ (s ++ (p ++ d))) a.length = some (a.length + s.length) := by
  rw [findFrom_eq_some_iff]
  refine ⟨by omega, by simp, ?_, ?_⟩
  · have h := occursAt_append_left (a ++ s) p d
    rwa [List.length_append, List.append_assoc] at h
  · intro j hj hlt
    have h := hs (p ++ d) (j - a.length) (by omega)
    rwa [occursAt, List.drop_append, List.drop_eq_nil_of_le hj, List.nil_append]

end Kura.Base
