import Mathlib

/-!
# Sequences of writes

A store is a function to optional values, and a sequence of writes changes it
one key after the other.
-/

namespace Kura.Base

variable {κ ν : Type*} [DecidableEq κ]

/-- The store after some writes. -/
def writeAll (m : κ → Option ν) (ws : List (κ × ν)) : κ → Option ν :=
  ws.foldl (fun m w => Function.update m w.1 (some w.2)) m

/-- No write meets a value of its key. -/
def Fresh : (κ → Option ν) → List (κ × ν) → Prop
  | _, [] => True
  | m, w :: ws => m w.1 = none ∧ Fresh (Function.update m w.1 (some w.2)) ws

@[simp] theorem writeAll_nil (m : κ → Option ν) : writeAll m [] = m := rfl

@[simp] theorem writeAll_cons (m : κ → Option ν) (w : κ × ν) (ws : List (κ × ν)) :
    writeAll m (w :: ws) = writeAll (Function.update m w.1 (some w.2)) ws := rfl

theorem writeAll_append (m : κ → Option ν) (ws us : List (κ × ν)) :
    writeAll m (ws ++ us) = writeAll (writeAll m ws) us := List.foldl_append

theorem fresh_append (m : κ → Option ν) (ws us : List (κ × ν)) :
    Fresh m (ws ++ us) ↔ Fresh m ws ∧ Fresh (writeAll m ws) us := by
  induction ws generalizing m with
  | nil => simp [Fresh]
  | cons w ws ih => simp [Fresh, ih, and_assoc]

/-- A key that is not written keeps its value. -/
theorem writeAll_of_notMem {m : κ → Option ν} {ws : List (κ × ν)} {k : κ}
    (h : k ∉ ws.map Prod.fst) : writeAll m ws k = m k := by
  induction ws generalizing m with
  | nil => rfl
  | cons w ws ih =>
      rw [List.map_cons, List.mem_cons, not_or] at h
      rw [writeAll_cons, ih h.2, Function.update_of_ne h.1]

/-- A key that is written once has the value that was written. -/
theorem writeAll_of_nodup {m : κ → Option ν} {ws : List (κ × ν)} (hnodup : (ws.map Prod.fst).Nodup)
    {w : κ × ν} (hw : w ∈ ws) : writeAll m ws w.1 = some w.2 := by
  induction ws generalizing m with
  | nil => cases hw
  | cons u ws ih =>
      rw [List.map_cons, List.nodup_cons] at hnodup
      rw [writeAll_cons]
      obtain rfl | hw := List.mem_cons.mp hw
      · rw [writeAll_of_notMem hnodup.1, Function.update_self]
      · exact ih hnodup.2 hw

/-- Writes are fresh exactly when their keys are distinct and unset. -/
theorem fresh_iff (m : κ → Option ν) (ws : List (κ × ν)) :
    Fresh m ws ↔ (ws.map Prod.fst).Nodup ∧ ∀ k ∈ ws.map Prod.fst, m k = none := by
  induction ws generalizing m with
  | nil => simp [Fresh]
  | cons w ws ih =>
      rw [Fresh, ih, List.map_cons, List.nodup_cons, List.forall_mem_cons]
      constructor
      · rintro ⟨hw, hnodup, hrest⟩
        have hnot : w.1 ∉ ws.map Prod.fst := by
          intro hmem
          have h := hrest w.1 hmem
          rw [Function.update_self] at h
          cases h
        refine ⟨⟨hnot, hnodup⟩, hw, ?_⟩
        intro k hk
        have hne : k ≠ w.1 := fun he => hnot (he ▸ hk)
        have h := hrest k hk
        rwa [Function.update_of_ne hne] at h
      · rintro ⟨⟨hnot, hnodup⟩, hw, hrest⟩
        refine ⟨hw, hnodup, ?_⟩
        intro k hk
        have hne : k ≠ w.1 := fun he => hnot (he ▸ hk)
        rw [Function.update_of_ne hne, hrest k hk]

end Kura.Base
