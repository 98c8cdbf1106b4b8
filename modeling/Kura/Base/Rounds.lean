import Kura.Base.Reading
import Mathlib.Data.Finset.Card

/-!
# Loops that come back

A loop whose states are bounded has a result exactly if it comes to no state twice.
-/

namespace Kura.Base

variable {σ ρ : Type*} {step : σ → Option (ρ ⊕ σ)}

/-- Where a loop comes from one state to two, the one with a result comes last. -/
theorem reaches_of_result {s s' s'' : σ} {r : ρ} (h : Reaches step s s') (h' : Reaches step s s'')
    (hr : step s' = some (.inl r)) : Reaches step s'' s' := by
  induction h' using Relation.ReflTransGen.head_induction_on with
  | refl => exact h
  | head hstep _ ih =>
      obtain rfl | ⟨t, ht, hrest⟩ := Relation.ReflTransGen.cases_head h
      · rw [Follows, hr] at hstep
        cases hstep
      · rw [Follows] at hstep ht
        rw [ht] at hstep
        cases hstep
        exact ih hrest

/-- A loop that comes back to a state has no result. -/
theorem loop_eq_none_of_cycle {s s' : σ} (h : Reaches step s s')
    (hback : Relation.TransGen (Follows step) s' s') (rounds : Nat) :
    loop step rounds s = none := by
  rw [Option.eq_none_iff_forall_ne_some]
  intro r hloop
  obtain ⟨t, ht, hresult⟩ := reaches_of_loop hloop
  -- the state with the result would be on the way back
  have hlast := reaches_of_result ht h hresult
  have hturn : ∀ u, Reaches step s' u → Relation.TransGen (Follows step) u u := by
    intro u hu
    induction hu with
    | refl => exact hback
    | tail _ hlast ih =>
        obtain ⟨v, hv, hrest⟩ := Relation.TransGen.head'_iff.mp ih
        have hsame := hlast
        rw [Follows] at hsame hv
        rw [hv] at hsame
        cases hsame
        exact Relation.TransGen.tail' hrest hlast
  obtain ⟨v, hv, -⟩ := Relation.TransGen.head'_iff.mp (hturn t hlast)
  rw [Follows, hresult] at hv
  cases hv

/-- A loop without a result goes on for all of its rounds. -/
theorem exists_chain {s : σ} {rounds : Nat} (hsome : ∀ s', Reaches step s s' → (step s').isSome)
    (h : loop step rounds s = none) :
    ∃ f : Nat → σ, f 0 = s ∧ ∀ i < rounds, Follows step (f i) (f (i + 1)) := by
  induction rounds generalizing s with
  | zero => exact ⟨fun _ => s, rfl, fun i hi => absurd hi (Nat.not_lt_zero i)⟩
  | succ rounds ih =>
      obtain ⟨x, hx⟩ := Option.isSome_iff_exists.mp (hsome s .refl)
      rw [loop, hx] at h
      cases x with
      | inl r => cases h
      | inr s₁ =>
          obtain ⟨f, hf, hchain⟩ := ih (fun s' hs' => hsome s' (.head hx hs')) h
          refine ⟨fun i => Nat.casesOn i s f, rfl, fun i hi => ?_⟩
          cases i with
          | zero =>
              change Follows step s (f 0)
              rw [hf]
              exact hx
          | succ i => exact hchain i (Nat.lt_of_succ_lt_succ hi)

/-- A loop whose states are bounded and none of which it comes back to has a result. -/
theorem exists_loop_eq_some {step : Nat → Option (ρ ⊕ Nat)} {s bound : Nat}
    (hsome : ∀ s', Reaches step s s' → (step s').isSome)
    (hbound : ∀ s', Reaches step s s' → s' ≤ bound)
    (hback : ∀ s', Reaches step s s' → ¬ Relation.TransGen (Follows step) s' s') :
    ∃ rounds r, loop step rounds s = some r := by
  by_contra hnone
  have hloop : loop step (bound + 1) s = none := by
    rw [Option.eq_none_iff_forall_ne_some]
    exact fun r hr => hnone ⟨_, r, hr⟩
  obtain ⟨f, hf, hchain⟩ := exists_chain hsome hloop
  have hpath : ∀ i j, i ≤ j → j ≤ bound + 1 → Reaches step (f i) (f j) := by
    intro i j hij hj
    induction j, hij using Nat.le_induction with
    | base => exact .refl
    | succ j _ ih => exact (ih (by omega)).tail (hchain j (by omega))
  have hmaps : ∀ i ∈ Finset.range (bound + 2), f i ∈ Finset.range (bound + 1) := by
    intro i hi
    have hle := Nat.le_of_lt_succ (Finset.mem_range.mp hi)
    exact Finset.mem_range.mpr (Nat.lt_succ_of_le (hbound _ (hf ▸ hpath 0 i (Nat.zero_le _) hle)))
  have hcard : (Finset.range (bound + 1)).card < (Finset.range (bound + 2)).card := by
    rw [Finset.card_range, Finset.card_range]
    exact Nat.lt_succ_self _
  obtain ⟨i, hi, j, hj, hne, hsame⟩ := Finset.exists_ne_map_eq_of_card_lt_of_maps_to hcard hmaps
  have hturn : ∀ i j, i < j → j ≤ bound + 1 → f i ≠ f j := by
    intro i j hij hj hsame
    refine hback (f i) (hf ▸ hpath 0 i (Nat.zero_le _) (by omega)) ?_
    have hrest := hpath (i + 1) j hij hj
    rw [← hsame] at hrest
    exact Relation.TransGen.head' (hchain i (by omega)) hrest
  have hiLe := Nat.le_of_lt_succ (Finset.mem_range.mp hi)
  have hjLe := Nat.le_of_lt_succ (Finset.mem_range.mp hj)
  obtain hlt | hgt := Nat.lt_or_gt_of_ne hne
  · exact hturn i j hlt hjLe hsame
  · exact hturn j i hgt hiLe hsame.symm

end Kura.Base
