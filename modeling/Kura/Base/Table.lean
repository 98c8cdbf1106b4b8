import Mathlib

/-!
# Tables with an autoincrement key

Rows are kept in ascending key order under a sequence counter that only
insertion advances. A key is therefore never given out twice, also after its
row has been deleted.

Order and the bound by the counter are fields of the table, so every table
that can be built has unique keys and its first row in key order is the
first row of the list.
-/

namespace Kura.Base

/-- Rows by key, in ascending order, none above the sequence counter. -/
structure Table (α : Type*) where
  rows : List (Nat × α)
  seq : Nat
  sorted : rows.Pairwise fun a b => a.1 < b.1
  bounded : ∀ r ∈ rows, r.1 ≤ seq

namespace Table

variable {α : Type*}

/-- The table without rows whose counter has given out nothing. -/
def empty : Table α := ⟨[], 0, List.Pairwise.nil, by simp⟩

/-- The row with the given key. -/
def get? (t : Table α) (id : Nat) : Option α :=
  (t.rows.find? fun r => r.1 == id).map Prod.snd

/-- The key the next insertion is given. -/
def nextId (t : Table α) : Nat := t.seq + 1

/-- Append a row under the next key. -/
def insert (t : Table α) (a : α) : Table α where
  rows := t.rows ++ [(t.nextId, a)]
  seq := t.nextId
  sorted := by
    rw [List.pairwise_append]
    refine ⟨t.sorted, List.pairwise_singleton _ _, ?_⟩
    intro r hr s hs
    have hle := t.bounded r hr
    rw [List.mem_singleton] at hs
    subst hs
    exact Nat.lt_succ_of_le hle
  bounded := by
    intro r hr
    rcases List.mem_append.mp hr with h | h
    · exact Nat.le_succ_of_le (t.bounded r h)
    · rw [List.mem_singleton] at h
      subst h
      exact Nat.le_refl _

/-- Rewrite every row; keys stay. -/
def update (t : Table α) (f : Nat → α → α) : Table α where
  rows := t.rows.map fun r => (r.1, f r.1 r.2)
  seq := t.seq
  sorted := by
    rw [List.pairwise_map]
    exact t.sorted
  bounded := by
    intro r hr
    obtain ⟨s, hs, rfl⟩ := List.mem_map.mp hr
    exact t.bounded s hs

/-- Rewrite the row with one key. -/
def modify (t : Table α) (id : Nat) (f : α → α) : Table α :=
  t.update fun k a => if k = id then f a else a

/-- Delete every row that satisfies the predicate. -/
def delete (t : Table α) (p : Nat → α → Bool) : Table α where
  rows := t.rows.filter fun r => !p r.1 r.2
  seq := t.seq
  sorted := t.sorted.filter _
  bounded := fun r hr => t.bounded r (List.mem_filter.mp hr).1

/-- The first row in key order that satisfies the predicate. -/
def first? (t : Table α) (p : α → Bool) : Option (Nat × α) :=
  t.rows.find? fun r => p r.2

/-- The last row in key order that satisfies the predicate. -/
def last? (t : Table α) (p : Nat → α → Bool) : Option (Nat × α) :=
  t.rows.reverse.find? fun r => p r.1 r.2

/-- Every row that satisfies the predicate, in key order. -/
def select (t : Table α) (p : α → Bool) : List (Nat × α) :=
  t.rows.filter fun r => p r.2

/-- How many rows satisfy the predicate. -/
def count (t : Table α) (p : α → Bool) : Nat := t.rows.countP fun r => p r.2

/-- Membership and lookup agree, keys being unique. -/
theorem get?_eq_some_iff (t : Table α) {id : Nat} {a : α} :
    t.get? id = some a ↔ (id, a) ∈ t.rows := by
  obtain ⟨rows, seq, sorted, bounded⟩ := t
  simp only [get?]
  induction rows with
  | nil => simp
  | cons r rest ih =>
      rw [List.pairwise_cons] at sorted
      have hrest := ih sorted.2 fun x hx => bounded x (List.mem_cons_of_mem _ hx)
      by_cases hk : r.1 = id
      · have hnot : (id, a) ∉ rest := fun hmem => by
          have := sorted.1 _ hmem
          omega
        obtain ⟨k, b⟩ := r
        subst hk
        simp [hnot, eq_comm]
      · have hne : (id, a) ≠ r := fun h => hk (congrArg Prod.fst h).symm
        rw [List.find?_cons_of_neg (by simpa using hk), hrest]
        simp [hne]

theorem get?_eq_none_iff (t : Table α) {id : Nat} :
    t.get? id = none ↔ ∀ a, (id, a) ∉ t.rows := by
  rw [Option.eq_none_iff_forall_ne_some]
  exact forall_congr' fun a => not_congr (t.get?_eq_some_iff)

/-- Lookup is determined by membership. -/
theorem get?_eq_of_mem_iff {t u : Table α} {id : Nat}
    (h : ∀ a, (id, a) ∈ t.rows ↔ (id, a) ∈ u.rows) : t.get? id = u.get? id := by
  apply Option.ext
  intro a
  rw [get?_eq_some_iff, get?_eq_some_iff, h]

/-- Only keys that were given out have rows. -/
theorem le_seq_of_get? {t : Table α} {id : Nat} {a : α} (h : t.get? id = some a) :
    id ≤ t.seq :=
  t.bounded _ (t.get?_eq_some_iff.mp h)

@[simp] theorem get?_empty (id : Nat) : (empty : Table α).get? id = none := rfl

@[simp] theorem get?_nextId (t : Table α) : t.get? t.nextId = none := by
  rw [get?_eq_none_iff]
  intro a h
  have := t.bounded _ h
  simp only [nextId] at this
  omega

theorem get?_insert (t : Table α) (a : α) (id : Nat) :
    (t.insert a).get? id = if id = t.nextId then some a else t.get? id := by
  split_ifs with h
  · subst h
    rw [get?_eq_some_iff]
    simp [insert]
  · apply get?_eq_of_mem_iff
    intro b
    simp [insert, h]

theorem get?_update (t : Table α) (f : Nat → α → α) (id : Nat) :
    (t.update f).get? id = (t.get? id).map (f id) := by
  apply Option.ext
  intro b
  rw [get?_eq_some_iff, Option.map_eq_some_iff]
  simp only [update, List.mem_map, Prod.mk.injEq, Prod.exists, get?_eq_some_iff]
  constructor
  · rintro ⟨k, a, hmem, rfl, rfl⟩
    exact ⟨a, hmem, rfl⟩
  · rintro ⟨a, hmem, rfl⟩
    exact ⟨id, a, hmem, rfl, rfl⟩

theorem get?_modify (t : Table α) (f : α → α) (k id : Nat) :
    (t.modify k f).get? id = if id = k then (t.get? id).map f else t.get? id := by
  rw [modify, get?_update]
  split_ifs with h
  · rfl
  · simp

theorem get?_delete (t : Table α) (p : Nat → α → Bool) (id : Nat) :
    (t.delete p).get? id = (t.get? id).filter fun a => !p id a := by
  apply Option.ext
  intro b
  rw [get?_eq_some_iff, Option.filter_eq_some_iff, get?_eq_some_iff]
  simp [delete]

@[simp] theorem seq_insert (t : Table α) (a : α) : (t.insert a).seq = t.nextId := rfl
@[simp] theorem seq_modify (t : Table α) (k : Nat) (f : α → α) :
    (t.modify k f).seq = t.seq := rfl
@[simp] theorem seq_delete (t : Table α) (p : Nat → α → Bool) : (t.delete p).seq = t.seq := rfl

theorem mem_select (t : Table α) (p : α → Bool) {id : Nat} {a : α} :
    (id, a) ∈ t.select p ↔ t.get? id = some a ∧ p a = true := by
  rw [get?_eq_some_iff, select, List.mem_filter]

/-- Selected rows have pairwise different keys. -/
theorem nodup_select (t : Table α) (p : α → Bool) : ((t.select p).map Prod.fst).Nodup := by
  rw [List.Nodup, List.pairwise_map]
  exact (t.sorted.filter _).imp fun h => Nat.ne_of_lt h

theorem get?_of_first? {t : Table α} {p : α → Bool} {id : Nat} {a : α}
    (h : t.first? p = some (id, a)) : t.get? id = some a ∧ p a = true := by
  refine ⟨t.get?_eq_some_iff.mpr (List.mem_of_find?_eq_some h), ?_⟩
  simpa using List.find?_some h

/-- The first row that satisfies a predicate has no greater key than another one that does. -/
theorem le_of_first? {t : Table α} {p : α → Bool} {k id : Nat} {a b : α}
    (h : t.first? p = some (k, a)) (hb : t.get? id = some b) (hp : p b = true) : k ≤ id := by
  obtain ⟨pre, post, hrows, hpre⟩ := (List.find?_eq_some_iff_append.mp h).2
  have hmem := t.get?_eq_some_iff.mp hb
  rw [hrows, List.mem_append, List.mem_cons] at hmem
  rcases hmem with hmem | hmem | hmem
  · have hnot := hpre _ hmem
    rw [hp] at hnot
    cases hnot
  · exact (congrArg Prod.fst hmem).ge
  · have hsorted := t.sorted
    rw [hrows, List.pairwise_append, List.pairwise_cons] at hsorted
    exact (hsorted.2.1.1 _ hmem).le

theorem get?_of_last? {t : Table α} {p : Nat → α → Bool} {id : Nat} {a : α}
    (h : t.last? p = some (id, a)) : t.get? id = some a ∧ p id a = true := by
  refine ⟨t.get?_eq_some_iff.mpr (List.mem_reverse.mp (List.mem_of_find?_eq_some h)), ?_⟩
  simpa using List.find?_some h

end Table

end Kura.Base
