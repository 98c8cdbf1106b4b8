import Mathlib.Algebra.BigOperators.Intervals
import Mathlib.Algebra.Order.Floor.Semiring
import Mathlib.Data.Rat.Floor
import Mathlib.Tactic.LinearCombination
import Mathlib.Tactic.Ring

/-!
# Multilinear interpolation on a grid

A grid has some points on each axis, and a value at each of its points. Between
the points the value is interpolated along one axis after the other.

A place is given by the number of points and the coordinate on each axis. After
the last point of an axis comes that point itself, so the value at the end of an
axis needs no case of its own. The points are numbered with the first axis as
the one that varies fastest.
-/

namespace Kura.Base

/-- The value at a place, from those at the points of the grid around it. -/
def multilinear : List (Nat × ℚ) → (List Nat → ℚ) → ℚ
  | [], v => v []
  | (n, e) :: es, v =>
      (1 - (e - ⌊e⌋₊)) * multilinear es (fun ks => v (⌊e⌋₊ :: ks)) +
        (e - ⌊e⌋₊) * multilinear es (fun ks => v (min (⌊e⌋₊ + 1) (n - 1) :: ks))

/-- The number of a point of a grid. -/
def gridIndex : List Nat → List Nat → Nat
  | n :: ns, k :: ks => k + n * gridIndex ns ks
  | _, _ => 0

/-- A point of a grid. -/
def OnAxes (ns ks : List Nat) : Prop := List.Forall₂ (fun n k => k < n) ns ks

variable {ns ks : List Nat}

/-- Interpolation of equal values is that value. -/
theorem multilinear_const (es : List (Nat × ℚ)) (v : ℚ) : multilinear es (fun _ => v) = v := by
  induction es with
  | nil => rfl
  | cons a es ih =>
      rw [multilinear, ih]
      ring

/-- At a point of the grid nothing is interpolated. -/
theorem multilinear_point (h : OnAxes ns ks) (v : List Nat → ℚ) :
    multilinear (ns.zip (ks.map fun k : Nat => (k : ℚ))) v = v ks := by
  induction h generalizing v with
  | nil => rfl
  | cons hk _ ih =>
      rw [List.map_cons, List.zip_cons_cons, multilinear, Nat.floor_natCast, ih, sub_self]
      ring

/-- A sum over twice as many numbers takes the even and the odd ones in pairs. -/
theorem sum_range_two_mul {M : Type*} [AddCommMonoid M] (F : Nat → M) (m : Nat) :
    ∑ c ∈ Finset.range (2 * m), F c = ∑ c ∈ Finset.range m, (F (2 * c) + F (2 * c + 1)) := by
  induction m with
  | zero => rfl
  | succ m ih =>
      rw [Nat.mul_succ, Finset.sum_range_succ, Finset.sum_range_succ, ih, Finset.sum_range_succ,
        add_assoc]

end Kura.Base
