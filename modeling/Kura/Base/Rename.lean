import Mathlib.Data.List.Dedup
import Mathlib.Data.List.Lattice
import Mathlib.Logic.Function.Basic
import Mathlib.Tactic

/-!
# Maps as lists of entries, and renaming their keys

The keys of a map are taken one after the other; the value of each is changed
and put under a new key. While this goes on the map holds keys of both kinds.
If the new keys are all different, nothing is lost and nothing is changed twice.

The entries of a map are ordered by key; of several entries with one key only the
first one counts. Renaming is stated about the function that a map stands for,
whose default says that there is no entry. A new key stands for itself, so that
it is not renamed a second time.
-/

namespace Kura.Base

variable {κ α : Type*} [DecidableEq κ]

section Entries

variable {empty : α}

/-- The value of a key. -/
def entryAt (empty : α) (es : List (κ × α)) (k : κ) : α :=
  match es with
  | [] => empty
  | e :: es => if k = e.1 then e.2 else entryAt empty es k

/-- The entries with other keys. -/
def eraseEntry (es : List (κ × α)) (k : κ) : List (κ × α) := es.filter fun e => e.1 ≠ k

/-- The entries with a new value for a key. -/
def putEntry [LT κ] [DecidableLT κ] (es : List (κ × α)) (k : κ) (v : α) : List (κ × α) :=
  (eraseEntry es k).takeWhile (fun e => e.1 < k) ++ (k, v) ::
    (eraseEntry es k).dropWhile (fun e => e.1 < k)

theorem entryAt_append (es es' : List (κ × α)) (k : κ) :
    entryAt empty (es ++ es') k = entryAt (entryAt empty es' k) es k := by
  induction es with
  | nil => rfl
  | cons e es ih =>
      rw [List.cons_append, entryAt, entryAt, ih]

theorem entryAt_of_notMem {es : List (κ × α)} {k : κ} (h : ∀ e ∈ es, e.1 ≠ k) :
    entryAt empty es k = empty := by
  induction es with
  | nil => rfl
  | cons e es ih =>
      rw [entryAt, if_neg (h e List.mem_cons_self).symm]
      exact ih fun e' he' => h e' (List.mem_cons_of_mem _ he')

/-- To erase an entry is to set it to the empty value. -/
theorem entryAt_eraseEntry (es : List (κ × α)) (k j : κ) :
    entryAt empty (eraseEntry es k) j = Function.update (entryAt empty es) k empty j := by
  rw [Function.update_apply]
  induction es with
  | nil => rw [eraseEntry, List.filter_nil, entryAt, ite_self]
  | cons e es ih =>
      rw [eraseEntry, List.filter_cons, entryAt]
      rw [eraseEntry] at ih
      by_cases he : e.1 = k
      · rw [if_neg (by simpa using he), ih]
        by_cases hj : j = k
        · rw [if_pos hj, if_pos hj]
        · rw [if_neg hj, if_neg hj, if_neg (fun h => hj (h.trans he))]
      · rw [if_pos (by simpa using he), entryAt, ih]
        by_cases hj : j = k
        · rw [if_pos hj, if_pos hj, if_neg (fun h => he (h.symm.trans hj))]
        · rw [if_neg hj, if_neg hj]

theorem entryAt_putEntry [LT κ] [DecidableLT κ] (es : List (κ × α)) (k j : κ) (v : α) :
    entryAt empty (putEntry es k v) j = Function.update (entryAt empty es) k v j := by
  have herase : entryAt empty (eraseEntry es k) j = Function.update (entryAt empty es) k empty j :=
    entryAt_eraseEntry es k j
  rw [← List.takeWhile_append_dropWhile (p := fun e : κ × α => decide (e.1 < k))
    (l := eraseEntry es k), entryAt_append] at herase
  rw [putEntry, entryAt_append, entryAt]
  by_cases hj : j = k
  · subst hj
    rw [if_pos rfl, Function.update_self, entryAt_of_notMem]
    intro e he
    have hmem := List.mem_filter.mp ((List.takeWhile_sublist _).subset he)
    simpa using hmem.2
  · rw [if_neg hj, herase, Function.update_of_ne hj, Function.update_of_ne hj]

end Entries

/-- Changes the value of a key and puts it under a new one. -/
def moveKey (newKey : κ → κ) (f : α → α) (empty : α) (g : κ → α) (k : κ) : κ → α :=
  Function.update (Function.update g k empty) (newKey k) (f (g k))

variable {newKey : κ → κ} {f : α → α} {empty : α}

theorem moveKey_self (g : κ → α) (k : κ) : moveKey newKey f empty g k (newKey k) = f (g k) :=
  Function.update_self _ _ _

theorem moveKey_of_ne (g : κ → α) {k j : κ} (h : j ≠ newKey k) :
    moveKey newKey f empty g k j = if j = k then empty else g j := by
  rw [moveKey, Function.update_of_ne h, Function.update_apply]

/-- A key that none is moved to is empty if it was moved, and as before if it was not. -/
theorem foldl_moveKey_of_notMem {ks : List κ} {j : κ} (hj : ∀ k ∈ ks, j ≠ newKey k) (g : κ → α) :
    ks.foldl (moveKey newKey f empty) g j = if j ∈ ks then empty else g j := by
  induction ks generalizing g with
  | nil => rw [if_neg List.not_mem_nil, List.foldl_nil]
  | cons k ks ih =>
      rw [List.foldl_cons, ih (fun k' hk' => hj k' (List.mem_cons_of_mem _ hk')),
        moveKey_of_ne g (hj k List.mem_cons_self)]
      by_cases hmem : j ∈ ks
      · rw [if_pos hmem, if_pos (List.mem_cons_of_mem _ hmem)]
      · rw [if_neg hmem]
        simp only [List.mem_cons, hmem, or_false]

omit [DecidableEq κ] in
/-- A key that another one is moved to has that other key's new name. -/
theorem ne_newKey (hidem : ∀ k, newKey (newKey k) = newKey k) {k k' : κ}
    (h : newKey k ≠ newKey k') : k ≠ newKey k' := by
  rintro rfl
  exact h (hidem k')

/-- Every key is found under its new name, with its value changed once. -/
theorem foldl_moveKey_of_mem (hidem : ∀ k, newKey (newKey k) = newKey k) {ks : List κ}
    (hnew : (ks.map newKey).Nodup) {k : κ} (hk : k ∈ ks) (g : κ → α) :
    ks.foldl (moveKey newKey f empty) g (newKey k) = f (g k) := by
  induction ks generalizing g with
  | nil => cases hk
  | cons k₀ ks ih =>
      rw [List.map_cons, List.nodup_cons] at hnew
      have hfirst : ∀ k' ∈ ks, newKey k' ≠ newKey k₀ := by
        intro k' hk' heq
        exact hnew.1 (heq ▸ List.mem_map_of_mem hk')
      rw [List.foldl_cons]
      obtain rfl | hmem := List.mem_cons.mp hk
      · rw [foldl_moveKey_of_notMem fun k' hk' => (hfirst k' hk').symm, moveKey_self, if_neg]
        intro hmoved
        exact hfirst _ hmoved (hidem k)
      · have hne := hfirst k hmem
        rw [ih hnew.2 hmem, moveKey_of_ne g (ne_newKey hidem hne), if_neg]
        rintro rfl
        exact hne rfl

end Kura.Base
