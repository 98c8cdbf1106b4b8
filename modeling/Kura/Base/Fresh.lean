import Mathlib.Data.List.Nodup
import Mathlib.Tactic

/-!
# Names that are not taken

A counter is raised until the name of its value is not taken. If different
values have different names, this ends after at most one step more than there
are names taken.

The search takes fuel, one unit for each value it tries; if the fuel is used up
it gives the last value.
-/

namespace Kura.Base

variable {κ : Type*} [DecidableEq κ]

/-- The first value behind a counter whose name is not taken. -/
def freshCounter (name : Nat → κ) (taken : List κ) : Nat → Nat → Nat
  | 0, k => k
  | fuel + 1, k =>
      if name (k + 1) ∈ taken then freshCounter name taken fuel (k + 1) else k + 1

/-- The search stops at a name that is not taken, or it tries only names that are. -/
theorem freshCounter_cases (name : Nat → κ) (taken : List κ) (fuel k : Nat) :
    name (freshCounter name taken fuel k) ∉ taken ∨ ∀ i < fuel, name (k + 1 + i) ∈ taken := by
  induction fuel generalizing k with
  | zero => exact Or.inr fun i hi => absurd hi (Nat.not_lt_zero i)
  | succ fuel ih =>
      rw [freshCounter]
      split_ifs with htaken
      · refine (ih (k + 1)).imp_right fun hall i hi => ?_
        cases i with
        | zero => exact htaken
        | succ i =>
            have h := hall i (Nat.lt_of_succ_lt_succ hi)
            rwa [Nat.add_right_comm (k + 1) 1 i] at h
      · exact Or.inl htaken

/-- With enough fuel the name that is found is not taken. -/
theorem freshCounter_notMem {name : Nat → κ} (hname : Function.Injective name) (taken : List κ)
    (k : Nat) : name (freshCounter name taken (taken.length + 1) k) ∉ taken := by
  refine (freshCounter_cases name taken (taken.length + 1) k).resolve_right fun hall => ?_
  have hnodup : ((List.range (taken.length + 1)).map fun i => name (k + 1 + i)).Nodup :=
    List.nodup_range.map fun i j hij => Nat.add_left_cancel (hname hij)
  have hsub : ((List.range (taken.length + 1)).map fun i => name (k + 1 + i)) ⊆ taken := by
    intro x hx
    obtain ⟨i, hi, rfl⟩ := List.mem_map.mp hx
    exact hall i (List.mem_range.mp hi)
  have hle := (hnodup.subperm hsub).length_le
  rw [List.length_map, List.length_range] at hle
  exact Nat.not_succ_le_self _ hle

/-- The names that the search passes are taken. -/
theorem mem_of_lt_freshCounter {name : Nat → κ} {taken : List κ} {fuel k i : Nat} (hk : k < i)
    (hi : i < freshCounter name taken fuel k) : name i ∈ taken := by
  induction fuel generalizing k with
  | zero => exact absurd (hk.trans hi) (Nat.lt_irrefl k)
  | succ fuel ih =>
      rw [freshCounter] at hi
      split_ifs at hi with htaken
      · rcases Nat.eq_or_lt_of_le (Nat.succ_le_of_lt hk) with rfl | hk
        · exact htaken
        · exact ih hk hi
      · exact absurd hi (Nat.not_lt_of_le (Nat.succ_le_of_lt hk))

end Kura.Base
