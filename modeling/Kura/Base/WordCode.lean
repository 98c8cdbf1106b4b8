import Mathlib.Data.List.Infix

/-!
# Codes by tables of words

A table of words none of which starts another one can be read back: from words
written one after the other the table gives their numbers, and no other numbers
have these words.
-/

namespace Kura.Base.WordCode

variable {α : Type*}

/-- The word with a number. -/
def word (table : List (List α)) (i : Nat) : List α := table[i]?.getD []

/-- Words one after the other. -/
def writeWords (table : List (List α)) (is : List Nat) : List α := is.flatMap (word table)

theorem word_eq_getElem {table : List (List α)} {i : Nat} (hi : i < table.length) :
    word table i = table[i] := by
  rw [word, List.getElem?_eq_getElem hi, Option.getD_some]

section

variable [DecidableEq α]

/-- The first word of the table at the front, and what follows it. -/
def readWord (table : List (List α)) (xs : List α) : Option (Nat × List α) :=
  (table.findIdx? fun w => w.isPrefixOf xs).map fun i => (i, xs.drop (word table i).length)

/-- The numbers of the words, at most so many. -/
def readWords (table : List (List α)) : Nat → List α → Option (List Nat)
  | _, [] => some []
  | 0, _ :: _ => none
  | fuel + 1, x :: xs =>
      (readWord table (x :: xs)).bind fun r => (readWords table fuel r.2).map (r.1 :: ·)

/-- No word is empty or starts another one. -/
structure PrefixFree (table : List (List α)) : Prop where
  ne_nil : ∀ w ∈ table, w ≠ []
  apart : table.Pairwise fun u v => u.isPrefixOf v = false ∧ v.isPrefixOf u = false

variable {table : List (List α)}

theorem PrefixFree.word_ne_nil (h : PrefixFree table) {i : Nat} (hi : i < table.length) :
    word table i ≠ [] := by
  rw [word_eq_getElem hi]
  exact h.ne_nil _ (List.getElem_mem hi)

/-- Of two words at one place, one starts the other. -/
theorem PrefixFree.eq_of_prefix (h : PrefixFree table) {i j : Nat} {xs : List α}
    (hi : i < table.length) (hj : j < table.length) (hix : word table i <+: xs)
    (hjx : word table j <+: xs) : i = j := by
  rw [word_eq_getElem hi] at hix
  rw [word_eq_getElem hj] at hjx
  have hpairs := List.pairwise_iff_getElem.mp h.apart
  have hone := List.prefix_or_prefix_of_prefix hix hjx
  rw [← List.isPrefixOf_iff_prefix, ← List.isPrefixOf_iff_prefix] at hone
  obtain hlt | heq | hlt := Nat.lt_trichotomy i j
  · obtain ⟨hij, hji⟩ := hpairs i j hi hj hlt
    rw [hij, hji] at hone
    exact absurd hone (by decide)
  · exact heq
  · obtain ⟨hji, hij⟩ := hpairs j i hj hi hlt
    rw [hij, hji] at hone
    exact absurd hone (by decide)

theorem readWord_eq_some {xs rest : List α} {i : Nat} (h : readWord table xs = some (i, rest)) :
    i < table.length ∧ word table i ++ rest = xs := by
  obtain ⟨j, hj, heq⟩ := Option.map_eq_some_iff.mp h
  cases heq
  obtain ⟨hlt, hprefix, -⟩ := List.findIdx?_eq_some_iff_getElem.mp hj
  rw [← word_eq_getElem hlt, List.isPrefixOf_iff_prefix] at hprefix
  obtain ⟨after, rfl⟩ := hprefix
  exact ⟨hlt, by rw [List.drop_left]⟩

/-- The word that was written is the one that is read. -/
theorem readWord_append (h : PrefixFree table) {i : Nat} (hi : i < table.length)
    (rest : List α) : readWord table (word table i ++ rest) = some (i, rest) := by
  have hstart : word table i <+: word table i ++ rest := List.prefix_append _ _
  cases hread : readWord table (word table i ++ rest) with
  | none =>
      have hnone := List.findIdx?_eq_none_iff.mp (Option.map_eq_none_iff.mp hread) _
        (List.getElem_mem hi)
      rw [← word_eq_getElem hi] at hnone
      rw [List.isPrefixOf_iff_prefix.mpr hstart] at hnone
      cases hnone
  | some r =>
      obtain ⟨j, after⟩ := r
      obtain ⟨hj, heq⟩ := readWord_eq_some hread
      have hij := h.eq_of_prefix hj hi (heq ▸ List.prefix_append _ _) hstart
      subst hij
      rw [List.append_cancel_left heq]

/-- What is written with a prefix-free table is read back. -/
theorem readWords_writeWords (h : PrefixFree table) : ∀ {is : List Nat} {fuel : Nat},
    (∀ i ∈ is, i < table.length) → is.length ≤ fuel →
      readWords table fuel (writeWords table is) = some is
  | [], fuel, _, _ => by
      rw [writeWords, List.flatMap_nil, readWords]
  | i :: is, fuel + 1, his, hfuel => by
      have hi := his i List.mem_cons_self
      have hread := readWord_append h hi (writeWords table is)
      have hrest : readWords table fuel (writeWords table is) = some is :=
        readWords_writeWords h (fun j hj => his j (List.mem_cons_of_mem _ hj))
          (Nat.le_of_succ_le_succ hfuel)
      have hwrite : writeWords table (i :: is) = word table i ++ writeWords table is :=
        List.flatMap_cons
      cases hword : word table i with
      | nil => exact absurd hword (h.word_ne_nil hi)
      | cons x xs =>
          rw [hwrite, hword, List.cons_append, readWords, ← List.cons_append, ← hword, hread]
          dsimp only [Option.bind_some]
          rw [hrest]
          rfl

/-- What is read is the text of the indices it is read as. -/
theorem writeWords_of_readWords : ∀ {fuel : Nat} {xs : List α} {is : List Nat},
    readWords table fuel xs = some is → (∀ i ∈ is, i < table.length) ∧ writeWords table is = xs
  | fuel, [], is, hread => by
      rw [readWords] at hread
      cases hread
      exact ⟨(fun i hi => by cases hi), rfl⟩
  | 0, x :: xs, is, hread => by
      rw [readWords] at hread
      cases hread
  | fuel + 1, x :: xs, is, hread => by
      rw [readWords] at hread
      obtain ⟨⟨i, rest⟩, hfirst, hmap⟩ := Option.bind_eq_some_iff.mp hread
      obtain ⟨js, hjs, rfl⟩ := Option.map_eq_some_iff.mp hmap
      obtain ⟨hi, heq⟩ := readWord_eq_some hfirst
      obtain ⟨hall, hrest⟩ := writeWords_of_readWords hjs
      refine ⟨List.forall_mem_cons.mpr ⟨hi, hall⟩, ?_⟩
      rw [← heq]
      exact List.flatMap_cons.trans (congrArg _ hrest)

theorem length_le_writeWords (h : PrefixFree table) : ∀ {is : List Nat},
    (∀ i ∈ is, i < table.length) → is.length ≤ (writeWords table is).length
  | [], _ => Nat.zero_le _
  | i :: is, his => by
      have hrest := length_le_writeWords h fun j hj => his j (List.mem_cons_of_mem _ hj)
      have hpos := List.length_pos_iff.mpr (h.word_ne_nil (his i List.mem_cons_self))
      have hwrite : writeWords table (i :: is) = word table i ++ writeWords table is :=
        List.flatMap_cons
      rw [hwrite, List.length_append, List.length_cons]
      omega

/-- The reading is the only one. -/
theorem readWords_eq_some_iff (h : PrefixFree table) {xs : List α} {is : List Nat} :
    readWords table xs.length xs = some is ↔
      (∀ i ∈ is, i < table.length) ∧ writeWords table is = xs := by
  constructor
  · exact writeWords_of_readWords
  · rintro ⟨his, rfl⟩
    exact readWords_writeWords h his (length_le_writeWords h his)

end

end Kura.Base.WordCode
