import Mathlib.Data.BitVec
import Mathlib.Tactic

/-!
# Loops over a range of machine integers

`for (c = lo; c <= hi; ++c)` over unsigned integers of some width. Counting up
starts over behind the last integer, so the loop ends exactly if the last one is
not in its range.

A loop is run for at most some rounds, and has no result if they do not
suffice.
-/

namespace Kura.Base

variable {w : Nat} {σ : Type*}

/-- The state after a loop; none if it takes more than the given rounds. -/
def countLoop (body : BitVec w → σ → σ) (hi : BitVec w) : Nat → BitVec w → σ → Option σ
  | 0, _, _ => none
  | rounds + 1, c, s =>
      if c ≤ hi then countLoop body hi rounds (c + 1) (body c s) else some s

/-- The integers from one up to another one. -/
def codesUpTo (lo hi : BitVec w) : List (BitVec w) :=
  (List.range' lo.toNat (hi.toNat + 1 - lo.toNat)).map (BitVec.ofNat w)

theorem mem_codesUpTo {lo hi c : BitVec w} : c ∈ codesUpTo lo hi ↔ lo ≤ c ∧ c ≤ hi := by
  simp only [codesUpTo, List.mem_map, List.mem_range'_1, BitVec.le_def]
  constructor
  · rintro ⟨n, hn, rfl⟩
    have hlt := hi.isLt
    rw [BitVec.toNat_ofNat, Nat.mod_eq_of_lt (by omega)]
    omega
  · intro h
    exact ⟨c.toNat, by omega, BitVec.ofNat_toNat _ _ |>.trans (BitVec.setWidth_eq c)⟩

theorem codesUpTo_of_lt {lo hi : BitVec w} (h : hi < lo) : codesUpTo lo hi = [] := by
  have hlt := BitVec.lt_def.mp h
  rw [codesUpTo, show hi.toNat + 1 - lo.toNat = 0 by omega]
  rfl

/-- Counting up does not start over before the end of a range that leaves out the last integer. -/
theorem toNat_succ {lo hi : BitVec w} (h : lo ≤ hi) (hlast : hi ≠ BitVec.allOnes w) :
    (lo + 1).toNat = lo.toNat + 1 := by
  have hle := BitVec.le_def.mp h
  have hne : hi.toNat ≠ 2 ^ w - 1 := by
    intro heq
    apply hlast
    apply BitVec.eq_of_toNat_eq
    rw [heq, BitVec.toNat_allOnes]
  have hlt := hi.isLt
  have hone : (1 : BitVec w).toNat = 1 := by
    change (BitVec.ofNat w 1).toNat = 1
    rw [BitVec.toNat_ofNat]
    exact Nat.mod_eq_of_lt (by omega)
  rw [BitVec.toNat_add, hone]
  exact Nat.mod_eq_of_lt (by omega)

theorem codesUpTo_of_le {lo hi : BitVec w} (h : lo ≤ hi) (hlast : hi ≠ BitVec.allOnes w) :
    codesUpTo lo hi = lo :: codesUpTo (lo + 1) hi := by
  have hnext := toNat_succ h hlast
  have hle := BitVec.le_def.mp h
  rw [codesUpTo, codesUpTo, hnext,
    show hi.toNat + 1 - lo.toNat = (hi.toNat + 1 - (lo.toNat + 1)) + 1 by omega,
    List.range'_succ, List.map_cons, BitVec.ofNat_toNat, BitVec.setWidth_eq]

/-- A loop up to the last integer never ends. -/
theorem countLoop_allOnes (body : BitVec w → σ → σ) (rounds : Nat) (c : BitVec w) (s : σ) :
    countLoop body (BitVec.allOnes w) rounds c s = none := by
  induction rounds generalizing c s with
  | zero => rfl
  | succ rounds ih =>
      have hle : c ≤ BitVec.allOnes w := by
        rw [BitVec.le_def, BitVec.toNat_allOnes]
        have := c.isLt
        omega
      rw [countLoop, if_pos hle]
      exact ih _ _

/-- Any other loop does its work for each integer of the range, in order. -/
theorem countLoop_eq (body : BitVec w → σ → σ) {hi : BitVec w} (hlast : hi ≠ BitVec.allOnes w)
    {rounds : Nat} {lo : BitVec w} (hrounds : hi.toNat + 1 - lo.toNat < rounds) (s : σ) :
    countLoop body hi rounds lo s = some ((codesUpTo lo hi).foldl (fun s c => body c s) s) := by
  induction rounds generalizing lo s with
  | zero => omega
  | succ rounds ih =>
      rw [countLoop]
      by_cases hle : lo ≤ hi
      · have hnext := toNat_succ hle hlast
        have hin := BitVec.le_def.mp hle
        rw [if_pos hle, ih (by omega), codesUpTo_of_le hle hlast, List.foldl_cons]
      · rw [if_neg hle, codesUpTo_of_lt (BitVec.not_le.mp hle), List.foldl_nil]

variable {ε : Type*} {step : σ → ε → Option σ} {f : σ → ε → σ}

/-- Steps that all have a result. -/
theorem foldlM_eq_foldl {es : List ε} (h : ∀ e ∈ es, ∀ s, step s e = some (f s e)) (s : σ) :
    es.foldlM step s = some (es.foldl f s) := by
  induction es generalizing s with
  | nil => rfl
  | cons e es ih =>
      rw [List.foldlM_cons, h e List.mem_cons_self, List.foldl_cons]
      exact ih (fun e' he' => h e' (List.mem_cons_of_mem _ he')) (f s e)

/-- Steps that all have a result, whatever it is. -/
theorem foldlM_isSome {es : List ε}
    (h : ∀ e ∈ es, ∃ f : σ → σ, ∀ s, step s e = some (f s)) (s : σ) :
    (es.foldlM step s).isSome := by
  induction es generalizing s with
  | nil => rfl
  | cons e es ih =>
      obtain ⟨f, hf⟩ := h e List.mem_cons_self
      rw [List.foldlM_cons, hf]
      exact ih (fun e' he' => h e' (List.mem_cons_of_mem _ he')) (f s)

/-- One step that never has a result. -/
theorem foldlM_eq_none {es : List ε} {e : ε} (he : e ∈ es) (h : ∀ s, step s e = none) (s : σ) :
    es.foldlM step s = none := by
  induction es generalizing s with
  | nil => cases he
  | cons e' es ih =>
      rw [List.foldlM_cons]
      obtain rfl | hmem := List.mem_cons.mp he
      · rw [h]
        rfl
      · cases step s e' with
        | none => rfl
        | some s' => exact ih hmem s'

end Kura.Base
