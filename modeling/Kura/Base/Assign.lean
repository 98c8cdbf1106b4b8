import Mathlib.Data.List.Basic
import Mathlib.Logic.Function.Basic

/-!
# Maps under assignments

A map starts somewhere and is assigned to, one key after the other. What is
found at a key was written by the last assignment to it.
-/

namespace Kura.Base

variable {κ α : Type*} [DecidableEq κ]

/-- The map after a list of assignments. -/
def assign (m : κ → Option α) (kvs : List (κ × α)) : κ → Option α :=
  kvs.foldl (fun m kv => Function.update m kv.1 (some kv.2)) m

@[simp]
theorem assign_nil (m : κ → Option α) : assign m [] = m := rfl

theorem assign_cons (m : κ → Option α) (kv : κ × α) (kvs : List (κ × α)) :
    assign m (kv :: kvs) = assign (Function.update m kv.1 (some kv.2)) kvs := rfl

theorem assign_append (m : κ → Option α) (kvs kvs' : List (κ × α)) :
    assign m (kvs ++ kvs') = assign (assign m kvs) kvs' := List.foldl_append

/-- Assignments to other keys leave a key alone. -/
theorem assign_of_forall_ne {m : κ → Option α} {kvs : List (κ × α)} {k : κ}
    (h : ∀ kv ∈ kvs, kv.1 ≠ k) : assign m kvs k = m k := by
  induction kvs generalizing m with
  | nil => rfl
  | cons kv kvs ih =>
      rw [assign_cons, ih fun kv' hmem => h kv' (List.mem_cons_of_mem _ hmem)]
      exact Function.update_of_ne (h kv List.mem_cons_self).symm _ _

/-- What is found at a key that was assigned to is one of the assignments. -/
theorem assign_of_mem {m : κ → Option α} {kvs : List (κ × α)} {k : κ} {a : α}
    (h : (k, a) ∈ kvs) : ∃ b, (k, b) ∈ kvs ∧ assign m kvs k = some b := by
  induction kvs generalizing m a with
  | nil => cases h
  | cons kv kvs ih =>
      rw [assign_cons]
      by_cases hlater : ∃ b, (k, b) ∈ kvs
      · obtain ⟨b, hb⟩ := hlater
        obtain ⟨c, hc, heq⟩ := ih hb (m := Function.update m kv.1 (some kv.2))
        exact ⟨c, List.mem_cons_of_mem _ hc, heq⟩
      · obtain rfl | hb := List.mem_cons.mp h
        · refine ⟨a, List.mem_cons_self, ?_⟩
          rw [assign_of_forall_ne, Function.update_self]
          rintro ⟨k', b⟩ hmem rfl
          exact hlater ⟨b, hmem⟩
        · exact absurd ⟨a, hb⟩ hlater

/-- The last assignment to a key is found there. -/
theorem assign_last {m : κ → Option α} (kvs : List (κ × α)) {kvs' : List (κ × α)} {k : κ} (a : α)
    (h : ∀ kv ∈ kvs', kv.1 ≠ k) : assign m (kvs ++ (k, a) :: kvs') k = some a := by
  rw [assign_append, assign_cons, assign_of_forall_ne h, Function.update_self]

/-- What is found at a key was assigned to it, if there was nothing before. -/
theorem mem_of_assign {kvs : List (κ × α)} {k : κ} {a : α}
    (h : assign (fun _ => none) kvs k = some a) : (k, a) ∈ kvs := by
  by_cases hkey : ∃ b, (k, b) ∈ kvs
  · obtain ⟨b, hb⟩ := hkey
    obtain ⟨c, hc, heq⟩ := assign_of_mem hb (m := fun _ => none)
    rw [h] at heq
    rwa [Option.some.inj heq]
  · have hnone : assign (fun _ => none) kvs k = (none : Option α) := by
      refine assign_of_forall_ne (m := fun _ => none) ?_
      rintro ⟨k', b⟩ hmem rfl
      exact hkey ⟨b, hmem⟩
    rw [hnone] at h
    cases h

/-- Assignments of values that are computed from others. -/
theorem assign_map {β : Type*} (f : α → β) (m : κ → Option α) (kvs : List (κ × α)) (k : κ) :
    assign (fun k => (m k).map f) (kvs.map fun kv => (kv.1, f kv.2)) k =
      (assign m kvs k).map f := by
  induction kvs generalizing m with
  | nil => rfl
  | cons kv kvs ih =>
      have hupdate : Function.update (fun k => (m k).map f) kv.1 (some (f kv.2)) =
          fun k => (Function.update m kv.1 (some kv.2) k).map f := by
        funext k'
        by_cases hk : k' = kv.1
        · rw [hk, Function.update_self, Function.update_self]
          rfl
        · rw [Function.update_of_ne hk, Function.update_of_ne hk]
      rw [List.map_cons, assign_cons, assign_cons, hupdate, ih]

end Kura.Base
