import Mathlib.Logic.Function.Basic

/-!
# Buffers and counted loops

A buffer has a fixed size, and every access outside of it fails. Loops run over
a range of numbers and stop at the first failure, so a loop that gives a result
has made no such access. `forRange_total` proves results of loops from an
invariant.
-/

namespace Kura.Base

variable {α σ : Type*}

/-- A number of values. -/
structure Buffer (α : Type*) where
  size : Nat
  val : Nat → α

namespace Buffer

/-- The buffer of one value everywhere. -/
def fill (size : Nat) (a : α) : Buffer α := ⟨size, fun _ => a⟩

/-- The value at an index inside of the buffer. -/
def read (b : Buffer α) (i : Nat) : Option α := if i < b.size then some (b.val i) else none

/-- The buffer with another value at an index. -/
def set (b : Buffer α) (i : Nat) (a : α) : Buffer α := ⟨b.size, Function.update b.val i a⟩

/-- Writes a value at an index inside of the buffer. -/
def write (b : Buffer α) (i : Nat) (a : α) : Option (Buffer α) :=
  if i < b.size then some (b.set i a) else none

/-- Storing keeps the size. -/
@[simp]
theorem size_set (b : Buffer α) (i : Nat) (a : α) : (b.set i a).size = b.size := rfl

@[simp]
theorem val_set_self (b : Buffer α) (i : Nat) (a : α) : (b.set i a).val i = a :=
  Function.update_self _ _ _

theorem val_set_of_ne (b : Buffer α) {i j : Nat} (h : j ≠ i) (a : α) :
    (b.set i a).val j = b.val j := Function.update_of_ne h _ _

@[simp]
theorem set_val_self (b : Buffer α) (i : Nat) : b.set i (b.val i) = b := by
  rw [set, Function.update_eq_self]

theorem read_of_lt {b : Buffer α} {i : Nat} (h : i < b.size) : b.read i = some (b.val i) := if_pos h

theorem write_of_lt {b : Buffer α} {i : Nat} (h : i < b.size) (a : α) :
    b.write i a = some (b.set i a) := if_pos h

end Buffer

/-- The steps of a loop from a number on. -/
def forFrom (body : Nat → σ → Option σ) : Nat → Nat → σ → Option σ
  | 0, _, s => some s
  | n + 1, i, s => (body i s).bind (forFrom body n (i + 1))

/-- A loop over the numbers below a bound. -/
def forRange (n : Nat) (body : Nat → σ → Option σ) (s : σ) : Option σ := forFrom body n 0 s

theorem forFrom_total {body : Nat → σ → Option σ} {P : Nat → σ → Prop} {n i : Nat} {s : σ}
    (hs : P i s)
    (hbody : ∀ j s, i ≤ j → j < i + n → P j s → ∃ s', body j s = some s' ∧ P (j + 1) s') :
    ∃ s', forFrom body n i s = some s' ∧ P (i + n) s' := by
  induction n generalizing i s with
  | zero => exact ⟨s, rfl, hs⟩
  | succ n ih =>
      obtain ⟨s₁, hstep, hs₁⟩ := hbody i s (Nat.le_refl i) (by omega) hs
      have hrest : ∀ j s, i + 1 ≤ j → j < i + 1 + n → P j s →
          ∃ s', body j s = some s' ∧ P (j + 1) s' :=
        fun j s hle hlt => hbody j s (by omega) (by omega)
      obtain ⟨s', hrun, hs'⟩ := ih hs₁ hrest
      refine ⟨s', ?_, ?_⟩
      · rw [forFrom, hstep, Option.bind_some, hrun]
      · rw [Nat.add_right_comm, Nat.add_assoc] at hs'
        exact hs'

/-- A loop whose steps succeed and keep an invariant succeeds with it. -/
theorem forRange_total {body : Nat → σ → Option σ} {P : Nat → σ → Prop} {n : Nat} {s : σ}
    (hs : P 0 s) (hbody : ∀ i s, i < n → P i s → ∃ s', body i s = some s' ∧ P (i + 1) s') :
    ∃ s', forRange n body s = some s' ∧ P n s' := by
  have hsteps : ∀ j s, 0 ≤ j → j < 0 + n → P j s → ∃ s', body j s = some s' ∧ P (j + 1) s' :=
    fun j s _ hlt => hbody j s (by omega)
  obtain ⟨s', hrun, hs'⟩ := forFrom_total hs hsteps
  rw [Nat.zero_add] at hs'
  exact ⟨s', hrun, hs'⟩

end Kura.Base
