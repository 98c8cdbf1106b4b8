import Mathlib.Algebra.Order.Floor.Ring
import Mathlib.Data.Rat.Floor
import Mathlib.Tactic.Linarith

/-!
# Integers of machines

Numbers are rounded to integers and stored in 32 bits. A number that does not
fit starts over at the other end.
-/

namespace Kura.Base

/-- A number as it is stored in 32 bits. -/
def toInt32 (n : Int) : Int := n.bmod (2 ^ 32)

/-- Storing takes away a multiple of `2 ^ 32`. -/
theorem toInt32_eq (n : Int) : toInt32 n = n - 2 ^ 32 * ((n + 2 ^ 31) / 2 ^ 32) := by
  rw [toInt32, Int.bmod_def]
  split <;> omega

/-- A number of 32 bits is stored as it is. -/
theorem toInt32_of_mem {n : Int} (h0 : -2 ^ 31 ≤ n) (h1 : n < 2 ^ 31) : toInt32 n = n := by
  have heq := toInt32_eq n
  omega

/-- What is stored has 32 bits, and a number that is not negative does not grow. -/
theorem toInt32_bounds (n : Int) :
    -2 ^ 31 ≤ toInt32 n ∧ toInt32 n < 2 ^ 31 ∧ (0 ≤ n → toInt32 n ≤ n) := by
  have heq := toInt32_eq n
  omega

/-- `lround` and `llround`: the nearest integer, away from zero in the middle. -/
def lround (q : ℚ) : ℤ := if 0 ≤ q then ⌊q + 1 / 2⌋ else -⌊-q + 1 / 2⌋

/-- Rounding moves a number by at most one half. -/
theorem abs_lround_sub_le (q : ℚ) : |(lround q : ℚ) - q| ≤ 1 / 2 := by
  unfold lround
  split
  · have hle := Int.floor_le (q + 1 / 2)
    have hlt := Int.lt_floor_add_one (q + 1 / 2)
    rw [abs_le]
    constructor <;> linarith
  · have hle := Int.floor_le (-q + 1 / 2)
    have hlt := Int.lt_floor_add_one (-q + 1 / 2)
    push_cast
    rw [abs_le]
    constructor <;> linarith

end Kura.Base
