import Kura.Engine.Number

/-!
# Boxes

Boxes with a flag that says whether there is one, and the functions on them that
the spatial checks use. As a constraint a box that is not valid admits every
point; as an extent it has none. `inter` does not tell the two apart.

Coordinates are rationals. The corners of a valid box need not be in order: the
box then has no points. Points are given by Mathlib's intervals of the product
order.
-/

namespace Kura.Engine

/-- A box, or none. -/
structure Box where
  x0 : Rat := 0
  y0 : Rat := 0
  x1 : Rat := 0
  y1 : Rat := 0
  valid : Bool := false
  deriving DecidableEq

namespace Box

/-- The points between the corners. -/
def points (b : Box) : Set (Rat × Rat) := Set.Icc (b.x0, b.y0) (b.x1, b.y1)

/-- The points a box admits as a constraint. -/
def region (b : Box) : Set (Rat × Rat) := if b.valid then b.points else Set.univ

/-- The points a box has as an extent. -/
def extent (b : Box) : Set (Rat × Rat) := if b.valid then b.points else ∅

theorem points_nonempty_iff (b : Box) : b.points.Nonempty ↔ b.x0 ≤ b.x1 ∧ b.y0 ≤ b.y1 := by
  rw [points, Set.nonempty_Icc, Prod.mk_le_mk]

theorem region_of_valid {b : Box} (h : b.valid = true) : b.region = b.points := if_pos h

theorem region_of_not_valid {b : Box} (h : b.valid = false) : b.region = Set.univ :=
  if_neg (ne_true_of_eq_false h)

theorem extent_of_valid {b : Box} (h : b.valid = true) : b.extent = b.points := if_pos h

theorem extent_of_not_valid {b : Box} (h : b.valid = false) : b.extent = ∅ :=
  if_neg (ne_true_of_eq_false h)

end Box

/-- What two boxes have in common. -/
def inter (a b : Box) : Box :=
  if !a.valid then b
  else if !b.valid then a
  else
    let r : Box := ⟨max a.x0 b.x0, max a.y0 b.y0, min a.x1 b.x1, min a.y1 b.y1, true⟩
    if r.x1 < r.x0 ∨ r.y1 < r.y0 then { r with valid := false } else r

/-- A box that is larger on every side. -/
def grow (b : Box) (d : Rat) : Box :=
  let r : Box := ⟨b.x0 - d, b.y0 - d, b.x1 + d, b.y1 + d, b.valid⟩
  if r.x1 < r.x0 ∨ r.y1 < r.y0 then { r with valid := false } else r

/-- Tests whether two boxes touch. -/
def touches (a b : Box) : Bool :=
  a.valid && b.valid && a.x0 ≤ b.x1 && b.x0 ≤ a.x1 && a.y0 ≤ b.y1 && b.y0 ≤ a.y1

theorem touches_comm (a b : Box) : touches a b = touches b a := by
  simp only [touches]
  ac_rfl

section Inter

variable {a b : Box}

theorem inter_of_not_valid_left (ha : a.valid = false) : inter a b = b := by simp [inter, ha]

theorem inter_of_not_valid_right (ha : a.valid = true) (hb : b.valid = false) : inter a b = a := by
  simp [inter, ha, hb]

/-- Of two valid boxes the points in common are left. -/
theorem points_inter (ha : a.valid = true) (hb : b.valid = true) :
    (inter a b).points = a.points ∩ b.points := by
  have hpoints : (inter a b).points =
      Set.Icc (max a.x0 b.x0, max a.y0 b.y0) (min a.x1 b.x1, min a.y1 b.y1) := by
    rw [inter, ha, hb, if_neg (by decide), if_neg (by decide)]
    simp only []
    split <;> rfl
  calc
    (inter a b).points
        = Set.Icc ((a.x0, a.y0) ⊔ (b.x0, b.y0)) ((a.x1, a.y1) ⊓ (b.x1, b.y1)) := hpoints
    _ = a.points ∩ b.points := Set.Icc_inter_Icc.symm

theorem valid_inter (ha : a.valid = true) (hb : b.valid = true) :
    (inter a b).valid = true ↔ (a.points ∩ b.points).Nonempty := by
  rw [← points_inter ha hb, Box.points_nonempty_iff]
  rw [inter, ha, hb, if_neg (by decide), if_neg (by decide)]
  simp only []
  split
  case isTrue h =>
    refine iff_of_false Bool.false_ne_true ?_
    rintro ⟨hx, hy⟩
    exact h.elim (fun hlt => absurd hx (not_le.mpr hlt)) fun hlt => absurd hy (not_le.mpr hlt)
  case isFalse h =>
    refine iff_of_true rfl ?_
    rw [not_or, not_lt, not_lt] at h
    exact h

/-- The extent that is left of a valid box. -/
theorem extent_inter (ha : a.valid = true) : (inter a b).extent = a.points ∩ b.region := by
  cases hb : b.valid with
  | false =>
      rw [inter_of_not_valid_right ha hb, Box.extent_of_valid ha, Box.region_of_not_valid hb,
        Set.inter_univ]
  | true =>
      rw [Box.region_of_valid hb]
      cases hv : (inter a b).valid with
      | true => rw [Box.extent_of_valid hv, points_inter ha hb]
      | false =>
          rw [Box.extent_of_not_valid hv]
          refine (Set.not_nonempty_iff_eq_empty.mp fun hne => ?_).symm
          rw [(valid_inter ha hb).mpr hne] at hv
          cases hv

end Inter

/-- A grown box keeps its flag unless nothing is left of it. -/
theorem valid_grow (b : Box) (d : Rat) :
    (grow b d).valid = true ↔ b.valid = true ∧ (grow b d).points.Nonempty := by
  rw [Box.points_nonempty_iff, grow]
  simp only []
  split
  case isTrue h =>
    refine iff_of_false Bool.false_ne_true ?_
    rintro ⟨-, hx, hy⟩
    exact h.elim (fun hlt => absurd hx (not_le.mpr hlt)) fun hlt => absurd hy (not_le.mpr hlt)
  case isFalse h =>
    rw [not_or, not_lt, not_lt] at h
    exact (and_iff_left h).symm

end Kura.Engine
