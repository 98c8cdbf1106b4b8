import Kura.Engine.DistanceExact

/-!
# The nearest marked pixel

The columns give every pixel the nearest marked row of its own column, and the
rows choose among the columns. What is chosen is a marked pixel at minimal
distance, the one that the square of the distance belongs to.

A row as the columns keep it is an integer, with `-1` for none. The heights of
a row are squares of integers; only columns with a marked pixel have one.
-/

namespace Kura.Engine.Distance

open Kura.Base

section

variable {on : Buffer Bool} {w h : Nat}

/-- Whether a pixel is marked. -/
def Marked (on : Buffer Bool) (w x y : Nat) : Prop := on.val (y * w + x) = true

/-- The last marked row before a row, or none. -/
def Above (on : Buffer Bool) (w x y : Nat) (c : Int) : Prop :=
  (c = -1 ∧ ∀ r, r < y → ¬ Marked on w x r) ∨
    ∃ r, c = (r : Nat) ∧ r < y ∧ Marked on w x r ∧
      ∀ r', r < r' → r' < y → ¬ Marked on w x r'

/-- The first marked row from a row on, or none. -/
def Below (on : Buffer Bool) (w h x y : Nat) (c : Int) : Prop :=
  (c = -1 ∧ ∀ r, y ≤ r → r < h → ¬ Marked on w x r) ∨
    ∃ r, c = (r : Nat) ∧ y ≤ r ∧ r < h ∧ Marked on w x r ∧
      ∀ r', y ≤ r' → r' < r → ¬ Marked on w x r'

/-- The marked row of a column that is nearest to a row, or none. -/
def InColumn (on : Buffer Bool) (w h x y : Nat) (c : Int) : Prop :=
  (c = -1 ∧ ∀ r, r < h → ¬ Marked on w x r) ∨
    ∃ r, c = (r : Nat) ∧ r < h ∧ Marked on w x r ∧
      ∀ r', r' < h → Marked on w x r' → ((r : Int) - y).natAbs ≤ ((r' : Int) - y).natAbs

/-- The last marked row before the next row. -/
theorem Above.succ {x y : Nat} {c : Int} (hc : Above on w x y c) :
    Above on w x (y + 1) (if on.val (y * w + x) then (y : Int) else c) := by
  split
  · rename_i hmark
    exact .inr ⟨y, rfl, Nat.lt_succ_self y, hmark, fun r' hlt hle => by omega⟩
  · rename_i hmark
    have hlast : ∀ r, r < y + 1 → ¬ r < y → ¬ Marked on w x r := by
      intro r hlt hge
      obtain rfl : r = y := by omega
      exact hmark
    obtain ⟨rfl, hnone⟩ | ⟨r, rfl, hr, hmarked, hafter⟩ := hc
    · refine .inl ⟨rfl, fun r hr => ?_⟩
      by_cases hlt : r < y
      · exact hnone r hlt
      · exact hlast r hr hlt
    · refine .inr ⟨r, rfl, by omega, hmarked, fun r' hlt hle => ?_⟩
      by_cases hlt' : r' < y
      · exact hafter r' hlt hlt'
      · exact hlast r' hle hlt'

/-- The first marked row from the row before on. -/
theorem Below.pred {x y : Nat} {c : Int} (hy : y < h) (hc : Below on w h x (y + 1) c) :
    Below on w h x y (if on.val (y * w + x) then (y : Int) else c) := by
  split
  · rename_i hmark
    exact .inr ⟨y, rfl, le_rfl, hy, hmark, fun r' hle hlt => by omega⟩
  · rename_i hmark
    have hfirst : ∀ r, y ≤ r → ¬ y + 1 ≤ r → ¬ Marked on w x r := by
      intro r hle hlt
      obtain rfl : r = y := by omega
      exact hmark
    obtain ⟨rfl, hnone⟩ | ⟨r, rfl, hle, hr, hmarked, hbefore⟩ := hc
    · refine .inl ⟨rfl, fun r hle hr => ?_⟩
      by_cases hlt : y + 1 ≤ r
      · exact hnone r hlt hr
      · exact hfirst r hle hlt
    · refine .inr ⟨r, rfl, by omega, hr, hmarked, fun r' hle' hlt => ?_⟩
      by_cases hlt' : y + 1 ≤ r'
      · exact hbefore r' hlt' hlt
      · exact hfirst r' hle' hlt'

/-- The nearer one of the rows above and below is the nearest one. -/
theorem inColumn_of_nearer {x y : Nat} (hy : y < h) {c last : Int}
    (hc : Above on w x (y + 1) c) (hlast : Below on w h x y last) :
    InColumn on w h x y (if 0 ≤ last ∧ (c < 0 ∨ last - y < y - c) then last else c) := by
  obtain ⟨rfl, habove⟩ | ⟨r, rfl, hr, hmarked, hafter⟩ := hc
  · obtain ⟨rfl, hbelow⟩ | ⟨s, rfl, hle, hs, hmarked, hbefore⟩ := hlast
    · refine .inl ⟨by simp, fun r hr hmark => ?_⟩
      by_cases hlt : r < y + 1
      · exact habove r hlt hmark
      · exact hbelow r (by omega) hr hmark
    · rw [if_pos ⟨by omega, .inl (by omega)⟩]
      refine .inr ⟨s, rfl, hs, hmarked, fun r' hr' hmark => ?_⟩
      have hge : ¬ r' < y + 1 := fun hlt => habove r' hlt hmark
      have hnot : ¬ r' < s := fun hlt => hbefore r' (by omega) hlt hmark
      omega
  · have hnear : ∀ r', r' < h → Marked on w x r' →
        r' ≤ r ∨ y ≤ r' := fun r' _ hmark => by
      by_contra hcontra
      exact hafter r' (by omega) (by omega) hmark
    obtain ⟨rfl, hbelow⟩ | ⟨s, rfl, hle, hs, hmarked', hbefore⟩ := hlast
    · rw [if_neg (by omega)]
      refine .inr ⟨r, rfl, by omega, hmarked, fun r' hr' hmark => ?_⟩
      have hup : ¬ y ≤ r' := fun hle => hbelow r' hle hr' hmark
      have hside := hnear r' hr' hmark
      omega
    · have hdown : ∀ r', r' < h → Marked on w x r' → y ≤ r' → s ≤ r' := fun r' _ hmark hle' => by
        by_contra hcontra
        exact hbefore r' hle' (by omega) hmark
      split
      · rename_i hcloser
        refine .inr ⟨s, rfl, hs, hmarked', fun r' hr' hmark => ?_⟩
        have hside := hnear r' hr' hmark
        have hbehind := hdown r' hr' hmark
        omega
      · rename_i hcloser
        refine .inr ⟨r, rfl, by omega, hmarked, fun r' hr' hmark => ?_⟩
        have hside := hnear r' hr' hmark
        have hbehind := hdown r' hr' hmark
        omega

/-- Values of a column, and the other columns as they were. -/
structure InOthers (w h x : Nat) (col col' : Buffer Int) : Prop where
  size_eq : col'.size = col.size
  other : ∀ x' y, x' < w → x' ≠ x → y < h → col'.val (y * w + x') = col.val (y * w + x')

theorem InOthers.write {x y : Nat} (hx : x < w) {col col' : Buffer Int}
    (hcol : InOthers w h x col col') (c : Int) :
    InOthers w h x col (col'.set (y * w + x) c) where
  size_eq := hcol.size_eq
  other x' y' hx' hne hy' := by
    rw [Buffer.val_set_of_ne _ fun heq => hne (pixel_inj hx' hx heq).1]
    exact hcol.other x' y' hx' hne hy'

/-- The way down leaves in each row the last marked row so far. -/
theorem down_total (hsize : on.size = w * h) {x : Nat} (hx : x < w) {col : Buffer Int}
    (hcol : col.size = w * h) :
    ∃ st, forRange h (downStep on w x) (-1, col) = some st ∧ InOthers w h x col st.2 ∧
      ∀ y, y < h → Above on w x (y + 1) (st.2.val (y * w + x)) := by
  have hstep : ∀ y (st : Int × Buffer Int), y < h →
      Above on w x y st.1 ∧ InOthers w h x col st.2 ∧
        (∀ y', y' < y → Above on w x (y' + 1) (st.2.val (y' * w + x))) →
      ∃ st', downStep on w x y st = some st' ∧ Above on w x (y + 1) st'.1 ∧
        InOthers w h x col st'.2 ∧
        ∀ y', y' < y + 1 → Above on w x (y' + 1) (st'.2.val (y' * w + x)) := by
    rintro y ⟨last, col'⟩ hy ⟨hlast, hothers, hdone⟩
    have hin := pixel_lt hx hy
    have hsize' : col'.size = w * h := hothers.size_eq.trans hcol
    refine ⟨(if on.val (y * w + x) then (y : Int) else last,
      col'.set (y * w + x) (if on.val (y * w + x) then (y : Int) else last)), ?_, hlast.succ,
        hothers.write hx _, ?_⟩
    · simp [downStep, Buffer.read_of_lt (hsize ▸ hin), Buffer.write, hsize', hin]
    · intro y' hy'
      obtain rfl | hlt := (Nat.lt_succ_iff.mp hy').eq_or_lt
      · rw [Buffer.val_set_self]
        exact hlast.succ
      · have hne : y' * w + x ≠ y * w + x := fun heq => by
          have hrows := (pixel_inj hx hx heq).2
          omega
        rw [Buffer.val_set_of_ne _ hne]
        exact hdone y' hlt
  have hstart : Above on w x 0 ((-1, col) : Int × Buffer Int).1 ∧
      InOthers w h x col ((-1, col) : Int × Buffer Int).2 ∧
        ∀ y', y' < 0 → Above on w x (y' + 1) (((-1, col) : Int × Buffer Int).2.val (y' * w + x)) :=
    ⟨.inl ⟨rfl, fun r hr => absurd hr (Nat.not_lt_zero r)⟩, ⟨rfl, fun _ _ _ _ _ => rfl⟩,
      fun y' hy' => absurd hy' (Nat.not_lt_zero y')⟩
  obtain ⟨st, hrun, -, hothers, hdone⟩ := forRange_total
    (P := fun y (st : Int × Buffer Int) => Above on w x y st.1 ∧ InOthers w h x col st.2 ∧
      ∀ y', y' < y → Above on w x (y' + 1) (st.2.val (y' * w + x))) hstart hstep
  exact ⟨st, hrun, hothers, hdone⟩

/-- What the way up maintains after some rows. -/
structure Upward (on : Buffer Bool) (w h x : Nat) (col : Buffer Int) (t : Nat)
    (st : Int × Buffer Int) : Prop where
  last : Below on w h x (h - t) st.1
  others : InOthers w h x col st.2
  done : ∀ y, h - t ≤ y → y < h → InColumn on w h x y (st.2.val (y * w + x))
  rest : ∀ y, y < h - t → Above on w x (y + 1) (st.2.val (y * w + x))

/-- One more row of the way up. -/
theorem Upward.step (hsize : on.size = w * h) {x : Nat} (hx : x < w) {col : Buffer Int}
    (hcol : col.size = w * h) {t : Nat} (ht : t < h) {st : Int × Buffer Int}
    (hst : Upward on w h x col t st) :
    ∃ st', upStep on w h x t st = some st' ∧ Upward on w h x col (t + 1) st' := by
  obtain ⟨last, col'⟩ := st
  obtain ⟨y, hy⟩ : ∃ y, h - 1 - t = y := ⟨_, rfl⟩
  have hrow : h - t = y + 1 := by omega
  have hnext : h - (t + 1) = y := by omega
  have hlt : y < h := by omega
  have hin := pixel_lt hx hlt
  have hsize' : col'.size = w * h := hst.others.size_eq.trans hcol
  have hlast := hst.last
  rw [hrow] at hlast
  have hc := hst.rest y (by omega)
  have hlast' := hlast.pred hlt
  obtain ⟨l, hl⟩ : ∃ l, (if on.val (y * w + x) then (y : Int) else last) = l := ⟨_, rfl⟩
  dsimp only at hlast' hc
  rw [hl] at hlast'
  have hnew := inColumn_of_nearer hlt hc hlast'
  refine ⟨(l, col'.set (y * w + x)
      (if 0 ≤ l ∧ (col'.val (y * w + x) < 0 ∨ l - y < y - col'.val (y * w + x)) then l
        else col'.val (y * w + x))), ?_, ⟨?_, hst.others.write hx _, ?_, ?_⟩⟩
  · have hmark : on.read (y * w + x) = some (on.val (y * w + x)) :=
      Buffer.read_of_lt (hsize ▸ hin)
    have hread : col'.read (y * w + x) = some (col'.val (y * w + x)) :=
      Buffer.read_of_lt (hsize' ▸ hin)
    simp only [upStep, hy, hmark, hread, bind, Option.bind, pure, hl]
    by_cases hcloser : 0 ≤ l ∧ (col'.val (y * w + x) < 0 ∨ l - y < y - col'.val (y * w + x))
    · rw [if_pos hcloser, if_pos hcloser, Buffer.write_of_lt (hsize' ▸ hin)]
    · rw [if_neg hcloser, if_neg hcloser, Buffer.set_val_self]
  · rw [hnext]
    exact hlast'
  · intro y' hle hlt'
    rw [hnext] at hle
    dsimp only
    obtain rfl | hne := eq_or_ne y' y
    · rw [Buffer.val_set_self]
      exact hnew
    · rw [Buffer.val_set_of_ne _ fun heq => hne (pixel_inj hx hx heq).2]
      exact hst.done y' (by omega) hlt'
  · intro y' hlt'
    rw [hnext] at hlt'
    rw [Buffer.val_set_of_ne _ fun heq => hlt'.ne (pixel_inj hx hx heq).2]
    exact hst.rest y' (by omega)

/-- A column gets its nearest marked rows, and the other columns stay. -/
theorem column_total (hsize : on.size = w * h) {x : Nat} (hx : x < w) {col : Buffer Int}
    (hcol : col.size = w * h) :
    ∃ col', column on w h x col = some col' ∧ InOthers w h x col col' ∧
      ∀ y, y < h → InColumn on w h x y (col'.val (y * w + x)) := by
  obtain ⟨⟨last, col₁⟩, hdown, hothers, habove⟩ := down_total hsize hx hcol
  have hstart : Upward on w h x col₁ 0 (-1, col₁) :=
    { last := .inl ⟨rfl, fun r hle hlt => by omega⟩
      others := ⟨rfl, fun _ _ _ _ _ => rfl⟩
      done := fun y hle hlt => by omega
      rest := fun y hlt => habove y (by omega) }
  have hsize₁ : col₁.size = w * h := hothers.size_eq.trans hcol
  obtain ⟨⟨last', col₂⟩, hup, hend⟩ := forRange_total hstart
    fun t st ht hst => hst.step hsize hx hsize₁ ht
  refine ⟨col₂, ?_, ⟨hend.others.size_eq.trans hothers.size_eq, ?_⟩, ?_⟩
  · simp [column, hdown, hup]
  · intro x' y hx' hne hy
    exact (hend.others.other x' y hx' hne hy).trans (hothers.other x' y hx' hne hy)
  · intro y hy
    exact hend.done y (by omega) hy

/-- Every pixel gets the nearest marked row of its column. -/
theorem columns_total (hsize : on.size = w * h) :
    ∃ col, columns on w h = some col ∧ col.size = w * h ∧
      ∀ x y, x < w → y < h → InColumn on w h x y (col.val (y * w + x)) := by
  have hstep : ∀ x (col : Buffer Int), x < w →
      col.size = w * h ∧ (∀ x' y, x' < x → y < h → InColumn on w h x' y (col.val (y * w + x'))) →
      ∃ col', column on w h x col = some col' ∧ col'.size = w * h ∧
        ∀ x' y, x' < x + 1 → y < h → InColumn on w h x' y (col'.val (y * w + x')) := by
    rintro x col hx ⟨hcol, hdone⟩
    obtain ⟨col', hrun, hothers, hown⟩ := column_total hsize hx hcol
    refine ⟨col', hrun, hothers.size_eq.trans hcol, fun x' y hx' hy => ?_⟩
    obtain rfl | hlt := (Nat.lt_succ_iff.mp hx').eq_or_lt
    · exact hown y hy
    · rw [hothers.other x' y (by omega) hlt.ne hy]
      exact hdone x' y hlt hy
  have hstart : (Buffer.fill (w * h) (-1 : Int)).size = w * h ∧
      ∀ x' y, x' < 0 → y < h →
        InColumn on w h x' y ((Buffer.fill (w * h) (-1 : Int)).val (y * w + x')) :=
    ⟨rfl, fun x' _ hx' => absurd hx' (Nat.not_lt_zero x')⟩
  exact forRange_total
    (P := fun x (col : Buffer Int) => col.size = w * h ∧
      ∀ x' y, x' < x → y < h → InColumn on w h x' y (col.val (y * w + x'))) hstart hstep

end

section

variable {on : Buffer Bool} {w h : Nat} {col : Buffer Int} {y : Nat}

/-- The height of the parabola over a column. -/
def height (w : Nat) (col : Buffer Int) (y a : Nat) : ℚ :=
  ((col.val (y * w + a) - y) * (col.val (y * w + a) - y) : Int)

/-- The columns before a place that have a marked pixel. -/
def Candidate (w : Nat) (col : Buffer Int) (y q a : Nat) : Prop :=
  a < q ∧ 0 ≤ col.val (y * w + a)

/-- The columns of an array hold the nearest marked rows. -/
structure ColumnsOf (on : Buffer Bool) (w h : Nat) (col : Buffer Int) : Prop where
  size_eq : col.size = w * h
  nearest : ∀ x y, x < w → y < h → InColumn on w h x y (col.val (y * w + x))

theorem ColumnsOf.height_le_inf (hcol : ColumnsOf on w h col) (hh : h < 2 ^ 31) (hy : y < h)
    {a : Nat} (ha : a < w) (hpos : 0 ≤ col.val (y * w + a)) : height w col y a ≤ inf := by
  obtain ⟨hneg, -⟩ | ⟨r, hr, hlt, -⟩ := hcol.nearest a y ha hy
  · omega
  · have hsmall : (((r : Int) - y) * (r - y) : Int) ≤ 2 ^ 31 * 2 ^ 31 := by
      rw [← Int.natAbs_mul_self' ((r : Int) - y)]
      have habs : ((r : Int) - y).natAbs ≤ 2 ^ 31 := by omega
      exact_mod_cast Nat.mul_le_mul habs habs
    have hcast : (((((r : Int) - y) * (r - y) : Int)) : ℚ) ≤ ((2 ^ 31 * 2 ^ 31 : Int) : ℚ) := by
      exact_mod_cast hsmall
    have hinf : ((2 ^ 31 * 2 ^ 31 : Int) : ℚ) ≤ inf := by norm_num [inf]
    rw [height, hr]
    exact hcast.trans hinf

theorem height_nonneg (a : Nat) : 0 ≤ height w col y a := by
  rw [height]
  exact_mod_cast mul_self_nonneg _

theorem Holds.mono {F : Nat → ℚ} {seen : Nat → Prop} {n q q' : Nat} {s : Stack}
    (hs : Holds F seen n q s) (hle : q ≤ q') : Holds F seen n q' s where
  size_v := hs.size_v
  size_z := hs.size_z
  top_lt := hs.top_lt.trans_le hle
  seen_lt a ha := (hs.seen_lt a ha).trans_le hle
  bottom := hs.bottom
  top := hs.top
  env := hs.env

/-- The arrays of a row have their sizes. -/
structure RowSizes (w : Nat) (r : Row) : Prop where
  size_f : r.f.size = w
  size_v : r.v.size = w
  size_z : r.z.size = w + 1

/-- What a row maintains after some columns. -/
structure RowHolds (w : Nat) (col : Buffer Int) (y q : Nat) (r : Row) : Prop extends
    RowSizes w r where
  heights : ∀ a, Candidate w col y q a → r.f.val a = height w col y a
  empty : r.k = none → ∀ a, ¬ Candidate w col y q a
  stack : ∀ k, r.k = some k → Holds (height w col y) (Candidate w col y q) w q ⟨r.v, r.z, k⟩

theorem candidate_succ_of_neg {q : Nat} (hneg : col.val (y * w + q) < 0) (a : Nat) :
    Candidate w col y (q + 1) a ↔ Candidate w col y q a := by
  refine and_congr_left fun hpos => ⟨fun hlt => ?_, fun hlt => by omega⟩
  obtain rfl | hlt := (Nat.lt_succ_iff.mp hlt).eq_or_lt
  · omega
  · exact hlt

theorem candidate_succ_of_nonneg {q : Nat} (hpos : 0 ≤ col.val (y * w + q)) (a : Nat) :
    Candidate w col y (q + 1) a ↔ Candidate w col y q a ∨ a = q := by
  constructor
  · rintro ⟨hlt, ha⟩
    obtain rfl | hlt := (Nat.lt_succ_iff.mp hlt).eq_or_lt
    · exact .inr rfl
    · exact .inl ⟨hlt, ha⟩
  · rintro (⟨hlt, ha⟩ | rfl)
    · exact ⟨by omega, ha⟩
    · exact ⟨Nat.lt_succ_self a, hpos⟩

/-- The heights of a row after a column has been added. -/
theorem RowHolds.heights_update {q : Nat} {r : Row} (hr : RowHolds w col y q r) (hq : q < w)
    (hcol : ColumnsOf on w h col) (hh : h < 2 ^ 31) (hy : y < h)
    (hpos : 0 ≤ col.val (y * w + q)) :
    Heights (height w col y) (fun a => Candidate w col y q a ∨ a = q)
      (r.f.set q (height w col y q)) where
  read a ha := by
    have hlt : a < w := by
      obtain ha | rfl := ha
      · exact ha.1.trans hq
      · exact hq
    have hin : a < (r.f.set q (height w col y q)).size := hr.size_f.symm ▸ hlt
    rw [Buffer.read_of_lt hin]
    obtain ha | rfl := ha
    · rw [Buffer.val_set_of_ne _ ha.1.ne, hr.heights a ha]
    · rw [Buffer.val_set_self]
  nonneg a _ := height_nonneg a
  le_inf a ha := by
    obtain ha | rfl := ha
    · exact hcol.height_le_inf hh hy (ha.1.trans hq) ha.2
    · exact hcol.height_le_inf hh hy hq hpos

/-- A column of a row is left out or gets its parabola. -/
theorem RowHolds.step {q : Nat} {r : Row} (hr : RowHolds w col y q r) (hq : q < w)
    (hcol : ColumnsOf on w h col) (hh : h < 2 ^ 31) (hy : y < h) :
    ∃ r', rowStep w col y q r = some r' ∧ RowHolds w col y (q + 1) r' := by
  have hread : col.read (y * w + q) = some (col.val (y * w + q)) :=
    Buffer.read_of_lt (hcol.size_eq ▸ pixel_lt hq hy)
  by_cases hneg : col.val (y * w + q) < 0
  · refine ⟨r, ?_, hr.toRowSizes, ?_, ?_, ?_⟩
    · simp [rowStep, hread, hneg]
    · intro a ha
      exact hr.heights a ((candidate_succ_of_neg hneg a).mp ha)
    · intro hk a ha
      exact hr.empty hk a ((candidate_succ_of_neg hneg a).mp ha)
    · intro k hk
      exact ((hr.stack k hk).mono (Nat.le_succ q)).congr (candidate_succ_of_neg hneg)
  · have hpos := not_lt.mp hneg
    have hheights := hr.heights_update hq hcol hh hy hpos
    have hwrite : r.f.write q ((col.val (y * w + q) - y) * (col.val (y * w + q) - y) : Int) =
        some (r.f.set q (height w col y q)) :=
      Buffer.write_of_lt (hr.size_f ▸ hq) _
    have hvals : ∀ a, Candidate w col y (q + 1) a →
        (r.f.set q (height w col y q)).val a = height w col y a := by
      intro a ha
      have hval := hheights.read a ((candidate_succ_of_nonneg hpos a).mp ha)
      have hin : a < (r.f.set q (height w col y q)).size := hr.size_f.symm ▸ ha.1.trans_le hq
      rw [Buffer.read_of_lt hin] at hval
      exact Option.some.inj hval
    cases hk : r.k with
    | none =>
        obtain ⟨s, hfirst, hs⟩ :=
          first_total (F := height w col y) hr.size_v hr.size_z hq
        refine ⟨⟨r.f.set q (height w col y q), s.v, s.z,
          some s.k⟩, ?_, ⟨hr.size_f, hs.size_v, hs.size_z⟩, hvals, ?_, ?_⟩
        · simp only [rowStep, hread, bind, Option.bind, hneg, if_false, hwrite, hk, hfirst,
            Option.map_some]
        · intro hnone
          cases hnone
        · intro k hsome
          obtain rfl := Option.some.inj hsome
          refine hs.congr fun a => ?_
          rw [candidate_succ_of_nonneg hpos]
          exact or_iff_right (hr.empty hk a)
    | some k =>
        obtain ⟨s, hpush, hs⟩ := push_total (hr.stack k hk) hheights hq
        refine ⟨⟨r.f.set q (height w col y q), s.v, s.z,
          some s.k⟩, ?_, ⟨hr.size_f, hs.size_v, hs.size_z⟩, hvals, ?_, ?_⟩
        · simp only [rowStep, hread, bind, Option.bind, hneg, if_false, hwrite, hk, hpush,
            Option.map_some]
        · intro hnone
          cases hnone
        · intro k' hsome
          obtain rfl := Option.some.inj hsome
          exact hs.congr (candidate_succ_of_nonneg hpos)

/-- The stack of a whole row. -/
theorem row_stack_total (hcol : ColumnsOf on w h col) (hh : h < 2 ^ 31) (hy : y < h) {r : Row}
    (hr : RowSizes w r) :
    ∃ r', forRange w (rowStep w col y) { r with k := none } = some r' ∧
      RowHolds w col y w r' := by
  have hstart : RowHolds w col y 0 { r with k := none } :=
    { size_f := hr.size_f
      size_v := hr.size_v
      size_z := hr.size_z
      heights := fun a ha => absurd ha.1 (Nat.not_lt_zero a)
      empty := fun _ a ha => absurd ha.1 (Nat.not_lt_zero a)
      stack := fun k hk => by cases hk }
  exact forRange_total hstart fun q r hq hr => hr.step hq hcol hh hy

/-- The square of the distance of two pixels, by their indices. -/
def dist2 (w i j : Nat) : Int :=
  ((i % w : Nat) - (j % w : Nat) : Int) * ((i % w : Nat) - (j % w : Nat) : Int) +
    ((i / w : Nat) - (j / w : Nat) : Int) * ((i / w : Nat) - (j / w : Nat) : Int)

/-- A marked pixel at minimal distance from a pixel. -/
structure NearestTo (on : Buffer Bool) (w i j : Nat) : Prop where
  inside : j < on.size
  marked : on.val j = true
  minimal : ∀ m, m < on.size → on.val m = true → dist2 w i j ≤ dist2 w i m

theorem dist2_pixel {x a : Nat} (hx : x < w) (ha : a < w) (y r : Nat) :
    dist2 w (y * w + x) (r * w + a) =
      ((x : Int) - a) * (x - a) + ((y : Int) - r) * (y - r) := by
  rw [dist2, pixel_mod hx, pixel_mod ha, pixel_div hx, pixel_div ha]

/-- The square of a nearer row's distance is not larger. -/
theorem sq_le_sq_of_natAbs {a b : Int} (h : a.natAbs ≤ b.natAbs) : a * a ≤ b * b := by
  rw [← Int.natAbs_mul_self' a, ← Int.natAbs_mul_self' b]
  exact_mod_cast Nat.mul_le_mul h h

/-- The nearest row of the column of the lowest parabola is a marked pixel at minimal distance. -/
theorem nearestTo_of_lowest (hsize : on.size = w * h) (hcol : ColumnsOf on w h col) (hy : y < h)
    {q a : Nat} (hq : q < w) (ha : Candidate w col y w a)
    (hlow : ∀ b, Candidate w col y w b →
      parabola (height w col y) a q ≤ parabola (height w col y) b q) :
    ∃ r : Nat, col.val (y * w + a) = r ∧ NearestTo on w (y * w + q) (r * w + a) := by
  obtain ⟨hneg, -⟩ | ⟨r, hr, hlt, hmarked, -⟩ := hcol.nearest a y ha.1 hy
  · have hpos := ha.2
    omega
  · refine ⟨r, hr, hsize ▸ pixel_lt ha.1 hlt, hmarked, fun m hm hmark => ?_⟩
    obtain ⟨b, r', hb, hr', rfl⟩ : ∃ b r', b < w ∧ r' < h ∧ m = r' * w + b := by
      have hpos : 0 < w := Nat.zero_lt_of_lt hq
      refine ⟨m % w, m / w, Nat.mod_lt m hpos, ?_, (Nat.div_add_mod' m w).symm⟩
      exact Nat.div_lt_of_lt_mul (hsize ▸ hm)
    rw [dist2_pixel hq ha.1, dist2_pixel hq hb]
    obtain ⟨-, hnone⟩ | ⟨s, hs, -, -, hnear⟩ := hcol.nearest b y hb hy
    · exact absurd hmark (hnone r' hr')
    · have hcand : Candidate w col y w b := ⟨hb, by omega⟩
      have hparabola := hlow b hcand
      simp only [parabola, height, hr, hs] at hparabola
      have hint : ((q : Int) - a) * (q - a) + ((r : Int) - y) * (r - y) ≤
          ((q : Int) - b) * (q - b) + ((s : Int) - y) * (s - y) := by exact_mod_cast hparabola
      have hsq := sq_le_sq_of_natAbs (hnear r' hr' hmark)
      linarith

/-- What a pixel gets: nothing if no pixel is marked, else a marked pixel at minimal distance. -/
def SeedOf (on : Buffer Bool) (w i : Nat) (s : Int) : Prop :=
  (s = -1 ∧ ∀ m, m < on.size → on.val m = false) ∨ ∃ j : Nat, s = j ∧ NearestTo on w i j

/-- What has been written of the rows before a row, and of its pixels before one of them. -/
structure Seeded (on : Buffer Bool) (w h y q : Nat) (out : Buffer Int) : Prop where
  size_eq : out.size = w * h
  before : ∀ y' x, y' < y → x < w → SeedOf on w (y' * w + x) (out.val (y' * w + x))
  here : ∀ x, x < q → SeedOf on w (y * w + x) (out.val (y * w + x))
  after : ∀ y' x, y ≤ y' → x < w → (y' = y → q ≤ x) → out.val (y' * w + x) = -1

/-- One more place of a row has its nearest seed. -/
theorem Seeded.write {q : Nat} {out : Buffer Int} (hout : Seeded on w h y q out) (hq : q < w)
    {s : Int} (hs : SeedOf on w (y * w + q) s) :
    Seeded on w h y (q + 1) (out.set (y * w + q) s) where
  size_eq := hout.size_eq
  before y' x hlt hx := by
    rw [Buffer.val_set_of_ne _ fun heq => hlt.ne (pixel_inj hx hq heq).2]
    exact hout.before y' x hlt hx
  here x hx := by
    obtain rfl | hlt := (Nat.lt_succ_iff.mp hx).eq_or_lt
    · rw [Buffer.val_set_self]
      exact hs
    · rw [Buffer.val_set_of_ne _ fun heq => hlt.ne (pixel_inj (hlt.trans hq) hq heq).1]
      exact hout.here x hlt
  after y' x hle hx hxq := by
    rw [Buffer.val_set_of_ne]
    · exact hout.after y' x hle hx fun heq => (Nat.le_succ q).trans (hxq heq)
    · intro heq
      obtain ⟨rfl, rfl⟩ := pixel_inj hx hq heq
      have hpast := hxq rfl
      omega

/-- One pixel of a row gets its nearest marked pixel. -/
theorem pixel_total (hsize : on.size = w * h) (hbound : w * h < 2 ^ 31)
    (hcol : ColumnsOf on w h col) (hy : y < h) {s : Stack}
    (hs : Holds (height w col y) (Candidate w col y w) w w s) {q : Nat} (hq : q < w)
    {st : Nat × Buffer Int} (hj : Points s q st.1) (hout : Seeded on w h y q st.2) :
    ∃ st', pixelStep w col y s q st = some st' ∧ Points s (q + 1) st'.1 ∧
      Seeded on w h y (q + 1) st'.2 := by
  obtain ⟨j, out⟩ := st
  have hshort : (q : ℚ) ≤ inf := by
    have hwlt : w < 2 ^ 31 := (Nat.le_mul_of_pos_right w (Nat.zero_lt_of_lt hy)).trans_lt hbound
    have hcast : (q : ℚ) ≤ (2 : ℚ) ^ 31 := by exact_mod_cast (hq.trans hwlt).le
    have hinf : (2 : ℚ) ^ 31 ≤ inf := by norm_num [inf]
    linarith
  obtain ⟨j', hadv, hj', hread, hcand, hlow⟩ := hj.advance hs le_rfl hshort
  obtain ⟨r, hr, hnearest⟩ := nearestTo_of_lowest hsize hcol hy hq hcand hlow
  have hseed : SeedOf on w (y * w + q)
      (toInt32 (col.val (y * w + s.v.val j') * w + s.v.val j')) := by
    refine .inr ⟨r * w + s.v.val j', ?_, hnearest⟩
    have hlt : r * w + s.v.val j' < 2 ^ 31 := (hsize ▸ hnearest.inside).trans hbound
    rw [hr, ← toInt32_of_mem (n := (r * w + s.v.val j' : Nat)) (by omega) (by omega)]
    push_cast
    rfl
  refine ⟨(j', out.set (y * w + q)
    (toInt32 (col.val (y * w + s.v.val j') * w + s.v.val j'))), ?_, hj', hout.write hq hseed⟩
  have hcolread : col.read (y * w + s.v.val j') = some (col.val (y * w + s.v.val j')) :=
    Buffer.read_of_lt (hcol.size_eq ▸ pixel_lt hcand.1 hy)
  have hin : y * w + q < out.size := hout.size_eq ▸ pixel_lt hq hy
  simp [pixelStep, hadv, hread, hcolread, Buffer.write_of_lt hin]

/-- The next row starts where this one ends. -/
theorem Seeded.next {out : Buffer Int} (hout : Seeded on w h y w out) :
    Seeded on w h (y + 1) 0 out where
  size_eq := hout.size_eq
  before y' x hlt hx := by
    obtain rfl | hlt := (Nat.lt_succ_iff.mp hlt).eq_or_lt
    · exact hout.here x hx
    · exact hout.before y' x hlt hx
  here x hx := absurd hx (Nat.not_lt_zero x)
  after y' x hle hx _ := hout.after y' x (by omega) hx fun heq => by omega

/-- A row without columns to choose from has no marked pixel anywhere. -/
theorem Seeded.none (hsize : on.size = w * h) (hcol : ColumnsOf on w h col) (hy : y < h)
    {out : Buffer Int} (hout : Seeded on w h y 0 out)
    (hnone : ∀ a, ¬ Candidate w col y w a) : Seeded on w h y w out where
  size_eq := hout.size_eq
  before := hout.before
  here x hx := by
    refine .inl ⟨hout.after y x le_rfl hx fun _ => Nat.zero_le x, fun m hm => ?_⟩
    have hpos : 0 < w := Nat.zero_lt_of_lt hx
    have hmod : m % w < w := Nat.mod_lt m hpos
    obtain ⟨-, hclear⟩ | ⟨r, hr, -⟩ := hcol.nearest (m % w) y hmod hy
    · have hclear := hclear (m / w) (Nat.div_lt_of_lt_mul (hsize ▸ hm))
      rw [Marked, Nat.div_add_mod', Bool.not_eq_true] at hclear
      exact hclear
    · exact absurd ⟨hmod, by omega⟩ (hnone (m % w))
  after y' x hle hx hxq := hout.after y' x hle hx fun _ => Nat.zero_le x

/-- One row. -/
theorem row_total (hsize : on.size = w * h) (hbound : w * h < 2 ^ 31) (hh : h < 2 ^ 31)
    (hcol : ColumnsOf on w h col) (hy : y < h) {st : Row × Buffer Int} (hr : RowSizes w st.1)
    (hout : Seeded on w h y 0 st.2) :
    ∃ st', row w col y st = some st' ∧ RowSizes w st'.1 ∧ Seeded on w h (y + 1) 0 st'.2 := by
  obtain ⟨r, out⟩ := st
  obtain ⟨r', hrun, hr'⟩ := row_stack_total hcol hh hy hr
  cases hk : r'.k with
  | none =>
      refine ⟨(r', out), ?_, hr'.toRowSizes, (hout.none hsize hcol hy (hr'.empty hk)).next⟩
      simp [row, hrun, hk]
  | some k =>
      have hs := hr'.stack k hk
      have hstart : Points ⟨r'.v, r'.z, k⟩ 0 ((0, out) : Nat × Buffer Int).1 ∧
          Seeded on w h y 0 ((0, out) : Nat × Buffer Int).2 := ⟨points_zero hs, hout⟩
      obtain ⟨⟨j, out'⟩, hpixels, -, hout'⟩ := forRange_total
        (P := fun q (st : Nat × Buffer Int) =>
          Points ⟨r'.v, r'.z, k⟩ q st.1 ∧ Seeded on w h y q st.2) hstart
        fun q st hq hst => pixel_total hsize hbound hcol hy hs hq hst.1 hst.2
      refine ⟨(r', out'), ?_, hr'.toRowSizes, hout'.next⟩
      simp [row, hrun, hk, hpixels]

/-- Every pixel gets its nearest marked pixel. -/
theorem nearestSeed_total (hsize : on.size = w * h) (hbound : w * h < 2 ^ 31) :
    ∃ out, nearestSeed on w h = some out ∧ out.size = w * h ∧
      ∀ i, i < w * h → SeedOf on w i (out.val i) := by
  obtain ⟨col, hcolumns, hcolSize, hnearest⟩ := columns_total hsize
  have hcol : ColumnsOf on w h col := ⟨hcolSize, hnearest⟩
  have hstart : RowSizes w ((Row.start w, Buffer.fill (w * h) (-1)) : Row × Buffer Int).1 ∧
      Seeded on w h 0 0 ((Row.start w, Buffer.fill (w * h) (-1)) : Row × Buffer Int).2 :=
    ⟨⟨rfl, rfl, rfl⟩,
      { size_eq := rfl
        before := fun y' _ hlt => absurd hlt (Nat.not_lt_zero y')
        here := fun x hx => absurd hx (Nat.not_lt_zero x)
        after := fun _ _ _ _ _ => rfl }⟩
  have hrow : ∀ y (st : Row × Buffer Int), y < h → RowSizes w st.1 ∧ Seeded on w h y 0 st.2 →
      ∃ st', row w col y st = some st' ∧ RowSizes w st'.1 ∧ Seeded on w h (y + 1) 0 st'.2 := by
    rintro y st hy ⟨hr, hout⟩
    obtain rfl | hw := Nat.eq_zero_or_pos w
    · -- without columns a row does nothing
      exact ⟨({ st.1 with k := none }, st.2), rfl, ⟨hr.size_f, hr.size_v, hr.size_z⟩,
        { size_eq := hout.size_eq
          before := fun _ x _ hx => absurd hx (Nat.not_lt_zero x)
          here := fun x hx => absurd hx (Nat.not_lt_zero x)
          after := fun _ x _ hx => absurd hx (Nat.not_lt_zero x) }⟩
    · have hh : h < 2 ^ 31 := (Nat.le_mul_of_pos_left h hw).trans_lt hbound
      exact row_total hsize hbound hh hcol hy hr hout
  obtain ⟨⟨r, out⟩, hrun, -, hout⟩ := forRange_total
    (P := fun y (st : Row × Buffer Int) => RowSizes w st.1 ∧ Seeded on w h y 0 st.2)
    hstart hrow
  refine ⟨out, ?_, hout.size_eq, fun i hi => ?_⟩
  · simp [nearestSeed, hcolumns, hrun]
  · have hw : 0 < w := Nat.pos_of_mul_pos_right (Nat.zero_lt_of_lt hi)
    have hbefore := hout.before (i / w) (i % w) (Nat.div_lt_of_lt_mul hi) (Nat.mod_lt i hw)
    rw [Nat.div_add_mod'] at hbefore
    exact hbefore

end

section

variable {on : Buffer Bool} {w h : Nat}

/-- Every pixel has a marked pixel at minimal distance, and none exactly if no pixel is marked. -/
structure SeedsExact (on : Buffer Bool) (w h : Nat) (out : Buffer Int) : Prop where
  size_eq : out.size = w * h
  nearest : (∃ m, m < w * h ∧ on.val m = true) →
    ∀ i, i < w * h → ∃ j : Nat, out.val i = j ∧ NearestTo on w i j
  none_iff : (∀ i, i < w * h → out.val i = -1) ↔ ∀ m, m < w * h → on.val m = false

/-- Every pixel has the square of its distance to the pixel it was given, and no distance in
reach if no pixel is marked. -/
structure DistancesExact (on : Buffer Bool) (w h : Nat) (out : Buffer Int) (d : Buffer ℚ) :
    Prop where
  size_eq : d.size = w * h
  agrees : ∀ i, i < w * h → ∀ j : Nat, out.val i = j → d.val i = dist2 w i j
  unmarked : (∀ m, m < w * h → on.val m = false) → ∀ i, i < w * h → inf ≤ d.val i

/-- Seeds that are nearest at every index are exact. -/
theorem seedsExact_of_seedOf (hsize : on.size = w * h) {out : Buffer Int}
    (hout : out.size = w * h) (hseed : ∀ i, i < w * h → SeedOf on w i (out.val i)) :
    SeedsExact on w h out where
  size_eq := hout
  nearest := by
    rintro ⟨m, hm, hmark⟩ i hi
    obtain ⟨-, hnone⟩ | hsome := hseed i hi
    · rw [hnone m (hsize ▸ hm)] at hmark
      cases hmark
    · exact hsome
  none_iff := by
    constructor
    · intro hnone m hm
      obtain ⟨-, hclear⟩ | ⟨j, hj, -⟩ := hseed m hm
      · exact hclear m (hsize ▸ hm)
      · have hneg := hnone m hm
        omega
    · intro hclear i hi
      obtain ⟨hneg, -⟩ | ⟨j, -, hnear⟩ := hseed i hi
      · exact hneg
      · have hmark := hnear.marked
        rw [hclear j (hsize ▸ hnear.inside)] at hmark
        cases hmark

/-- An index is a pixel of a row. -/
theorem exists_pixel {m : Nat} (hm : m < w * h) : ∃ x y, x < w ∧ y < h ∧ m = y * w + x := by
  have hw : 0 < w := Nat.pos_of_mul_pos_right (Nat.zero_lt_of_lt hm)
  exact ⟨m % w, m / w, Nat.mod_lt m hw, Nat.div_lt_of_lt_mul hm, (Nat.div_add_mod' m w).symm⟩

/-- The square of a distance inside of a mask stays below the number for no bound. -/
theorem dist2_le_inf {x a y r : Nat} (hx : x < 2 ^ 31) (ha : a < 2 ^ 31) (hy : y < 2 ^ 31)
    (hr : r < 2 ^ 31) :
    ((x : ℚ) - a) * (x - a) + ((y : ℚ) - r) * (y - r) ≤ inf := by
  have hbound : ∀ b c : Nat, b < 2 ^ 31 → c < 2 ^ 31 →
      ((b : ℚ) - c) * (b - c) ≤ 2 ^ 31 * 2 ^ 31 := by
    intro b c hb hc
    have hb' : (b : ℚ) ≤ 2 ^ 31 := by exact_mod_cast hb.le
    have hc' : (c : ℚ) ≤ 2 ^ 31 := by exact_mod_cast hc.le
    have hb0 : (0 : ℚ) ≤ b := Nat.cast_nonneg b
    have hc0 : (0 : ℚ) ≤ c := Nat.cast_nonneg c
    have hup : (b : ℚ) - c ≤ 2 ^ 31 := by linarith
    have hlow : -(2 ^ 31 : ℚ) ≤ (b : ℚ) - c := by linarith
    calc ((b : ℚ) - c) * (b - c) = |(b : ℚ) - c| * |(b : ℚ) - c| := (abs_mul_abs_self _).symm
      _ ≤ 2 ^ 31 * 2 ^ 31 := mul_le_mul (abs_le.mpr ⟨hlow, hup⟩) (abs_le.mpr ⟨hlow, hup⟩)
          (abs_nonneg _) (by norm_num)
  have hx2 := hbound x a hx ha
  have hy2 := hbound y r hy hr
  have hinf : (2 : ℚ) ^ 31 * 2 ^ 31 + 2 ^ 31 * 2 ^ 31 ≤ inf := by norm_num [inf]
  linarith

/-- The least height at a pixel is the square of its distance to a marked pixel at minimal
distance. -/
theorem least_eq_dist2 (hsize : on.size = w * h) (hw : w < 2 ^ 31) (hh : h < 2 ^ 31)
    {x y : Nat} (hx : x < w) (hy : y < h) {t : ℚ} (ht : IsLeast (distancesAt on w h x y) t)
    {j : Nat} (hj : NearestTo on w (y * w + x) j) : t = dist2 w (y * w + x) j := by
  obtain ⟨a, r, ha, hr, rfl⟩ := exists_pixel (hsize ▸ hj.inside)
  obtain ⟨⟨b, s, hb, hs, rfl⟩, hlow⟩ := ht
  have hmark : startValue on (r * w + a) = 0 := by rw [startValue, if_pos hj.marked]
  have hdist : ((dist2 w (y * w + x) (r * w + a) : Int) : ℚ) =
      ((x : ℚ) - a) * (x - a) + ((y : ℚ) - r) * (y - r) := by
    rw [dist2_pixel hx ha]
    push_cast
    rfl
  rw [hdist]
  have hle := hlow ⟨a, r, ha, hr, rfl⟩
  rw [hmark] at hle
  refine le_antisymm (by linarith) ?_
  by_cases hother : on.val (s * w + b) = true
  · have hmin := hj.minimal (s * w + b) (hsize ▸ pixel_lt hb hs) hother
    rw [dist2_pixel hx ha, dist2_pixel hx hb] at hmin
    have hcast : ((x : ℚ) - a) * (x - a) + ((y : ℚ) - r) * (y - r) ≤
        ((x : ℚ) - b) * (x - b) + ((y : ℚ) - s) * (y - s) := by exact_mod_cast hmin
    rw [startValue, if_pos hother]
    linarith
  · have hfar := dist2_le_inf (hx.trans hw) (ha.trans hw) (hy.trans hh) (hr.trans hh)
    have hsq : 0 ≤ ((x : ℚ) - b) * (x - b) := mul_self_nonneg _
    have hsq' : 0 ≤ ((y : ℚ) - s) * (y - s) := mul_self_nonneg _
    rw [startValue, if_neg hother]
    linarith

/-- Without marked pixels no distance is in reach. -/
theorem inf_le_least (hclear : ∀ m, m < w * h → on.val m = false)
    {x y : Nat} {t : ℚ} (ht : IsLeast (distancesAt on w h x y) t) : inf ≤ t := by
  obtain ⟨⟨b, s, hb, hs, rfl⟩, -⟩ := ht
  have hsq : 0 ≤ ((x : ℚ) - b) * (x - b) := mul_self_nonneg _
  have hsq' : 0 ≤ ((y : ℚ) - s) * (y - s) := mul_self_nonneg _
  rw [startValue, hclear _ (pixel_lt hb hs), if_neg Bool.false_ne_true]
  linarith

/-- Without pixels there is nothing to do. -/
theorem squaredDistance_empty (on : Buffer Bool) :
    ∃ d, squaredDistance on 0 0 = some d ∧ d.size = 0 := ⟨_, rfl, rfl⟩

/-- The nearest marked pixels are exact and exist exactly if a pixel is marked; the squares of
distances are theirs, for masks with rows and columns or without both. -/
theorem distances_exact (hsize : on.size = w * h) (hbound : w * h < 2 ^ 31) :
    ∃ out, nearestSeed on w h = some out ∧ SeedsExact on w h out ∧
      ((0 < w ↔ 0 < h) → ∃ d, squaredDistance on w h = some d ∧ DistancesExact on w h out d) := by
  obtain ⟨out, hrun, hout, hseed⟩ := nearestSeed_total hsize hbound
  refine ⟨out, hrun, seedsExact_of_seedOf hsize hout hseed, fun hboth => ?_⟩
  obtain rfl | hw := Nat.eq_zero_or_pos w
  · obtain rfl : h = 0 := by omega
    obtain ⟨d, hd, hdsize⟩ := squaredDistance_empty on
    exact ⟨d, hd, hdsize, fun i hi => absurd hi (Nat.not_lt_zero i),
      fun _ i hi => absurd hi (Nat.not_lt_zero i)⟩
  · have hh : 0 < h := hboth.mp hw
    have hwlt : w < 2 ^ 31 := (Nat.le_mul_of_pos_right w hh).trans_lt hbound
    have hhlt : h < 2 ^ 31 := (Nat.le_mul_of_pos_left h hw).trans_lt hbound
    obtain ⟨d, hd, hdsize, hleast⟩ := squaredDistance_total hsize hw hh hbound
    refine ⟨d, hd, hdsize, fun i hi j hj => ?_, fun hclear i hi => ?_⟩
    · obtain ⟨hneg, -⟩ | ⟨j', hj', hnear⟩ := hseed i hi
      · omega
      · obtain ⟨x, y, hx, hy, rfl⟩ := exists_pixel hi
        obtain rfl : j = j' := by
          rw [hj] at hj'
          exact Int.ofNat.inj hj'
        exact least_eq_dist2 hsize hwlt hhlt hx hy (hleast x y hx hy) hnear
    · obtain ⟨x, y, hx, hy, rfl⟩ := exists_pixel hi
      exact inf_le_least hclear (hleast x y hx hy)

/-- A mask of two pixels, the left one marked. -/
def leftMarked : Buffer Bool := ⟨2, fun i => i == 0⟩

theorem distances_exact_leftMarked :
    ∃ out d, nearestSeed leftMarked 2 1 = some out ∧ SeedsExact leftMarked 2 1 out ∧
      squaredDistance leftMarked 2 1 = some d ∧ DistancesExact leftMarked 2 1 out d := by
  obtain ⟨out, hrun, hout, hboth⟩ := distances_exact
    (show leftMarked.size = 2 * 1 from rfl) (by decide)
  obtain ⟨d, hd, hexact⟩ := hboth (by decide)
  exact ⟨out, d, hrun, hout, hd, hexact⟩

/-- A mask with a column but no row is read and written outside of its arrays. -/
theorem squaredDistance_no_rows :
    (Buffer.fill 0 false).size = 1 * 0 ∧ 1 * 0 < 2 ^ 31 ∧
      squaredDistance (Buffer.fill 0 false) 1 0 = none := ⟨rfl, by decide, rfl⟩

end

end Kura.Engine.Distance
