import Mathlib.Tactic

/-!
# Chains of lookups

From a key a map leads to another one, until a key is met at which the chain may
end. A chain is bounded by the number of its steps.
-/

namespace Kura.Base

variable {κ : Type*}

/-- The chain from a key meets an end after at most so many steps. -/
def reachesIn (done : κ → Bool) (next : κ → Option κ) : Nat → κ → Bool
  | 0, k => done k
  | n + 1, k =>
      done k ||
        match next k with
        | some j => reachesIn done next n j
        | none => false

variable {done : κ → Bool} {next next' : κ → Option κ} {n m : Nat} {k j : κ}

theorem reachesIn_of_done (h : done k = true) : reachesIn done next n k = true := by
  cases n with
  | zero => exact h
  | succ n => rw [reachesIn, h, Bool.true_or]

/-- A key that is no end reaches one if the next key does with a step less. -/
theorem reachesIn_succ_iff (h : done k = false) :
    reachesIn done next (n + 1) k = true ↔ ∃ j, next k = some j ∧
      reachesIn done next n j = true := by
  rw [reachesIn, h, Bool.false_or]
  cases next k with
  | none => simp
  | some j => simp

theorem reachesIn_mono (hle : n ≤ m) (h : reachesIn done next n k = true) :
    reachesIn done next m k = true := by
  induction n generalizing m k with
  | zero => exact reachesIn_of_done h
  | succ n ih =>
      obtain ⟨m, rfl⟩ := Nat.exists_eq_add_of_le' hle
      cases hdone : done k with
      | true => exact reachesIn_of_done hdone
      | false =>
          obtain ⟨j, hj, hreach⟩ := (reachesIn_succ_iff hdone).mp h
          exact (reachesIn_succ_iff hdone).mpr ⟨j, hj, ih (Nat.le_add_left n m) hreach⟩

/-- A map that is the same at the keys that reach an end lets them reach it. -/
theorem reachesIn_congr
    (hsame : ∀ j, done j = false → reachesIn done next n j = true → next' j = next j)
    (h : reachesIn done next n k = true) : reachesIn done next' n k = true := by
  induction n generalizing k with
  | zero => exact h
  | succ n ih =>
      cases hdone : done k with
      | true => exact reachesIn_of_done hdone
      | false =>
          obtain ⟨j, hj, hreach⟩ := (reachesIn_succ_iff hdone).mp h
          refine (reachesIn_succ_iff hdone).mpr ⟨j, (hsame k hdone h).trans hj, ?_⟩
          exact ih (fun i hi hin => hsame i hi (reachesIn_mono (Nat.le_succ n) hin)) hreach

/-- Where an end stands before each chain, the chains do not depend on the entries there. -/
theorem reachesIn_congr_of_done (hsame : ∀ j, done j = false → next' j = next j) :
    reachesIn done next' n k = reachesIn done next n k := by
  refine Bool.eq_iff_iff.mpr ⟨fun h => ?_, fun h => ?_⟩
  · exact reachesIn_congr (fun j hj _ => (hsame j hj).symm) h
  · exact reachesIn_congr (fun j hj _ => hsame j hj) h

/-- From a key that leads back to one which is no farther from the end, no end is reached. -/
theorem not_reachesIn_of_back (hdone : done k = false) (hj : next k = some j)
    (hback : ∀ n, reachesIn done next n j = true → reachesIn done next n k = true) (n : Nat) :
    reachesIn done next n k = false := by
  rw [← Bool.not_eq_true]
  intro h
  induction n with
  | zero => exact absurd h (by rw [reachesIn, hdone]; exact Bool.false_ne_true)
  | succ n ih =>
      obtain ⟨j', hj', hreach⟩ := (reachesIn_succ_iff hdone).mp h
      obtain rfl := Option.some.inj (hj.symm.trans hj')
      exact ih (hback n hreach)

end Kura.Base
