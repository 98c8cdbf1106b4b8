import Kura.Engine.TransBBox
import Mathlib.Algebra.Order.Ring.Rat
import Mathlib.Data.List.Forall2
import Mathlib.Tactic.Linarith
import Mathlib.Tactic.Ring

/-!
# What the box of what is transparent leaves out

Painting a content stream, as the format has it, gives what is painted while
the graphics state is transparent. The box of the scan holds all of it if every
rectangle and every object among it keeps its sides upright or its corners
between the two that the scan looks at.

A path is made of points and of rectangles, each with the matrix under which it
was added. Of an array of blend modes the first one counts, as it does for the
scan. Alpha below one, a soft mask or another blend mode makes a state transparent.
-/

namespace Kura.Engine.TransBBox

/-- The graphics state, as far as it is looked at. -/
structure Graphics where
  ctm : TMat := {}
  fillAlpha : ℚ := 1
  strokeAlpha : ℚ := 1
  softMask : Bool := false
  blendMode : String := "/Normal"

/-- Something painted in this state shows what is below it. -/
def Graphics.Transparent (g : Graphics) : Prop :=
  g.fillAlpha < 1 ∨ g.strokeAlpha < 1 ∨ g.softMask = true ∨
    (g.blendMode ≠ "/Normal" ∧ g.blendMode ≠ "/Compatible")

instance (g : Graphics) : Decidable g.Transparent :=
  inferInstanceAs (Decidable (_ ∨ _))

def alphaOf (v : Value) (before : ℚ) : ℚ :=
  match v with
  | .number q => q
  | _ => before

def maskOf (v : Value) (before : Bool) : Bool :=
  match v with
  | .null => before
  | .name n => n ≠ "/None"
  | _ => true

/-- The entries of a dictionary are set, the others stay. -/
def Graphics.set (g : Graphics) (d : ExtGState) : Graphics :=
  { g with
    fillAlpha := alphaOf d.ca g.fillAlpha
    strokeAlpha := alphaOf d.CA g.strokeAlpha
    softMask := maskOf d.SMask g.softMask
    blendMode := if blendName d.BM = "" then g.blendMode else blendName d.BM }

/-- A part of what is painted: a point, or a rectangle with the matrix it is under. -/
inductive Piece where
  | point (p : ℚ × ℚ)
  | rect (m : TMat) (x y w h : ℚ)

/-- The points that the part is the hull of. -/
def Piece.hull : Piece → List (ℚ × ℚ)
  | .point p => [p]
  | .rect m x y w h =>
      [m.apply x y, m.apply (x + w) y, m.apply (x + w) (y + h), m.apply x (y + h)]

/-- A page while it is painted. -/
structure Painting where
  graphics : Graphics := {}
  saved : List Graphics := []
  nums : List ℚ := []
  lastName : String := ""
  path : List Piece := []
  /-- What was painted while the graphics state was transparent. -/
  painted : List Piece := []

namespace Painting

def addPiece (p : Painting) (piece : Piece) : Painting := { p with path := piece :: p.path }

def addPoint (p : Painting) (x y : ℚ) : Painting :=
  p.addPiece (.point (p.graphics.ctm.apply x y))

/-- Paints parts; only those under a transparent state are kept. -/
def paint (p : Painting) (pieces : List Piece) : Painting :=
  if p.graphics.Transparent then { p with painted := pieces ++ p.painted } else p

def operate (res : Resources) (p : Painting) : Instr → Painting
  | .save => { p with saved := p.graphics :: p.saved }
  | .restore => { p with graphics := p.saved.head?.getD p.graphics, saved := p.saved.tail }
  | .concat m => { p with graphics := { p.graphics with ctm := tmul m p.graphics.ctm } }
  | .setState =>
      match res p.lastName with
      | some d => { p with graphics := p.graphics.set d }
      | none => p
  | .points ps => ps.foldl (fun p q => p.addPoint q.1 q.2) p
  | .rect x y w h => p.addPiece (.rect p.graphics.ctm x y w h)
  | .paint => { p.paint p.path with path := [] }
  | .endPath => { p with path := [] }
  -- an object is painted in the unit square
  | .place => p.paint [.rect p.graphics.ctm 0 0 1 1]
  | .nothing => p

def handleObject (res : Resources) (p : Painting) : Obj → Painting
  | .number q => { p with nums := q :: p.nums }
  | .name n => { p with lastName := n }
  | .operand => p
  | .operator op => { p.operate res (instrOf op p.nums) with nums := [], lastName := "" }

end Painting

/-- Paints a content stream. -/
def paintAll (res : Resources) (objs : List Obj) : Painting :=
  objs.foldl (Painting.handleObject res) {}

namespace Extent

/-- A point is in a box. -/
def Contains (b : Extent) (p : ℚ × ℚ) : Prop := b.x0 ≤ p.1 ∧ p.1 ≤ b.x1 ∧ b.y0 ≤ p.2 ∧ p.2 ≤ b.y1

variable {b c : Extent} {p q : ℚ × ℚ}

theorem contains_add_self (b : Extent) (p : ℚ × ℚ) : (b.add p).Contains p :=
  ⟨min_le_right _ _, le_max_right _ _, min_le_right _ _, le_max_right _ _⟩

theorem Contains.add (h : b.Contains p) (q : ℚ × ℚ) : (b.add q).Contains p := by
  obtain ⟨hx0, hx1, hy0, hy1⟩ := h
  exact ⟨(min_le_left _ _).trans hx0, hx1.trans (le_max_left _ _),
    (min_le_left _ _).trans hy0, hy1.trans (le_max_left _ _)⟩

theorem Contains.union_left (h : b.Contains p) (c : Extent) : (b.union c).Contains p := by
  obtain ⟨hx0, hx1, hy0, hy1⟩ := h
  exact ⟨(min_le_left _ _).trans hx0, hx1.trans (le_max_left _ _),
    (min_le_left _ _).trans hy0, hy1.trans (le_max_left _ _)⟩

theorem Contains.union_right (h : c.Contains p) (b : Extent) : (b.union c).Contains p := by
  obtain ⟨hx0, hx1, hy0, hy1⟩ := h
  exact ⟨(min_le_right _ _).trans hx0, hx1.trans (le_max_right _ _),
    (min_le_right _ _).trans hy0, hy1.trans (le_max_right _ _)⟩

theorem not_contains_empty (p : ℚ × ℚ) : ¬ ({} : Extent).Contains p := by
  rintro ⟨hx0, hx1, -, -⟩
  have hturned := hx0.trans hx1
  norm_num at hturned

/-- What lies between points of a box on both axes is in the box. -/
theorem Contains.between {r : ℚ × ℚ} (hp : b.Contains p) (hq : b.Contains q)
    (hx : min p.1 q.1 ≤ r.1 ∧ r.1 ≤ max p.1 q.1) (hy : min p.2 q.2 ≤ r.2 ∧ r.2 ≤ max p.2 q.2) :
    b.Contains r :=
  ⟨(le_min hp.1 hq.1).trans hx.1, hx.2.trans (max_le hp.2.1 hq.2.1),
    (le_min hp.2.2.1 hq.2.2.1).trans hy.1, hy.2.trans (max_le hp.2.2.2 hq.2.2.2)⟩

end Extent

/-- The points that the scan looks at. -/
def Piece.kept : Piece → List (ℚ × ℚ)
  | .point p => [p]
  | .rect m x y w h => [m.apply x y, m.apply (x + w) (y + h)]

/-- The sides of a rectangle lead in one direction on each axis. -/
def Piece.Fits : Piece → Prop
  | .point _ => True
  | .rect m _ _ w h => 0 ≤ m.a * w * (m.c * h) ∧ 0 ≤ m.b * w * (m.d * h)

/-- Both ends of two steps are between their start and their sum if they lead in one direction. -/
theorem between_of_mul_nonneg {s u v : ℚ} (h : 0 ≤ u * v) :
    (min s (s + u + v) ≤ s + u ∧ s + u ≤ max s (s + u + v)) ∧
      (min s (s + u + v) ≤ s + v ∧ s + v ≤ max s (s + u + v)) := by
  obtain ⟨hu, hv⟩ | ⟨hu, hv⟩ := mul_nonneg_iff.mp h
  · rw [min_eq_left (by linarith), max_eq_right (by linarith)]
    exact ⟨⟨by linarith, by linarith⟩, by linarith, by linarith⟩
  · rw [min_eq_right (by linarith), max_eq_left (by linarith)]
    exact ⟨⟨by linarith, by linarith⟩, by linarith, by linarith⟩

theorem apply_add (m : TMat) (x y w h : ℚ) :
    m.apply (x + w) (y + h) = ((m.apply x y).1 + m.a * w + m.c * h,
      (m.apply x y).2 + m.b * w + m.d * h) := by
  unfold TMat.apply
  exact Prod.ext (by ring) (by ring)

theorem apply_add_left (m : TMat) (x y w : ℚ) :
    m.apply (x + w) y = ((m.apply x y).1 + m.a * w, (m.apply x y).2 + m.b * w) := by
  unfold TMat.apply
  exact Prod.ext (by ring) (by ring)

theorem apply_add_right (m : TMat) (x y h : ℚ) :
    m.apply x (y + h) = ((m.apply x y).1 + m.c * h, (m.apply x y).2 + m.d * h) := by
  unfold TMat.apply
  exact Prod.ext (by ring) (by ring)

/-- A box with the points that are looked at has all of a part that fits. -/
theorem Piece.contains_hull {piece : Piece} (hfits : piece.Fits) {b : Extent}
    (hkept : ∀ p ∈ piece.kept, b.Contains p) : ∀ p ∈ piece.hull, b.Contains p := by
  cases piece with
  | point p => exact hkept
  | rect m x y w h =>
      have hfirst := hkept _ List.mem_cons_self
      have hlast := hkept _ (List.mem_cons_of_mem _ List.mem_cons_self)
      obtain ⟨hxs, hys⟩ := hfits
      obtain ⟨hx1, hx2⟩ := between_of_mul_nonneg (s := (m.apply x y).1) hxs
      obtain ⟨hy1, hy2⟩ := between_of_mul_nonneg (s := (m.apply x y).2) hys
      have hsecond : b.Contains (m.apply (x + w) y) := by
        apply hfirst.between hlast
        · rw [apply_add, apply_add_left]
          exact hx1
        · rw [apply_add, apply_add_left]
          exact hy1
      have hfourth : b.Contains (m.apply x (y + h)) := by
        apply hfirst.between hlast
        · rw [apply_add, apply_add_right]
          exact hx2
        · rw [apply_add, apply_add_right]
          exact hy2
      intro p hp
      simp only [hull, List.mem_cons, List.not_mem_nil, or_false] at hp
      obtain rfl | rfl | rfl | rfl := hp
      · exact hfirst
      · exact hsecond
      · exact hlast
      · exact hfourth

/-- The scan has seen a point, in the path or in the box. -/
def State.Seen (st : State) (p : ℚ × ℚ) : Prop := st.path.Contains p ∨ st.box.Contains p

/-- How the scan stands to what is painted. -/
structure Follows (st : State) (p : Painting) : Prop where
  ctm : st.ctm = p.graphics.ctm
  transp : p.graphics.Transparent → st.transp = true
  stack : st.stack = p.saved.map Graphics.ctm
  transpStack : List.Forall₂ (fun t g => g.Transparent → t = true) st.transpStack p.saved
  nums : st.nums = p.nums
  lastName : st.lastName = p.lastName
  path : ∀ piece ∈ p.path, ∀ q ∈ piece.kept, st.Seen q
  painted : ∀ piece ∈ p.painted, ∀ q ∈ piece.kept, st.box.Contains q
  found : ∀ q, st.box.Contains q → st.found = true

namespace Follows

variable {res : Resources} {st : State} {p : Painting}

theorem addPt (h : Follows st p) (x y : ℚ) : Follows (st.addPt x y) p :=
  { h with
    path := fun piece hpiece q hq => (h.path piece hpiece q hq).imp_left fun hq => hq.add _ }

theorem seen_addPt (h : Follows st p) (x y : ℚ) :
    (st.addPt x y).Seen (p.graphics.ctm.apply x y) := by
  rw [← h.ctm]
  exact .inl (Extent.contains_add_self _ _)

/-- A part whose points were seen is added to the path. -/
theorem addPiece (h : Follows st p) {piece : Piece} (hseen : ∀ q ∈ piece.kept, st.Seen q) :
    Follows st (p.addPiece piece) :=
  { h with path := List.forall_mem_cons.mpr ⟨hseen, h.path⟩ }

theorem addPoint (h : Follows st p) (x y : ℚ) : Follows (st.addPt x y) (p.addPoint x y) :=
  (h.addPt x y).addPiece (List.forall_mem_singleton.mpr (h.seen_addPt x y))

/-- What was seen of the path is in the box once the box has grown. -/
theorem contains_grow {q : ℚ × ℚ} (hseen : st.Seen q) : st.grow.box.Contains q := by
  unfold State.grow
  obtain hpath | hbox := hseen
  · have hpoint : ¬ st.path.x1 < st.path.x0 := not_lt.mpr (hpath.1.trans hpath.2.1)
    rw [if_neg hpoint]
    exact hpath.union_right _
  · split
    · exact hbox
    · exact hbox.union_left _

theorem grow (h : Follows st p) : Follows st.grow p := by
  have hkept : ∀ q, st.box.Contains q → st.grow.box.Contains q := fun q hq =>
    contains_grow (.inr hq)
  have hpath : ∀ piece ∈ p.path, ∀ q ∈ piece.kept, st.grow.Seen q := fun piece hpiece q hq =>
    .inr (contains_grow (h.path piece hpiece q hq))
  have hpainted : ∀ piece ∈ p.painted, ∀ q ∈ piece.kept, st.grow.box.Contains q :=
    fun piece hpiece q hq => hkept q (h.painted piece hpiece q hq)
  unfold State.grow at hpath hpainted ⊢
  split
  · exact h
  · rename_i hpoint
    rw [if_neg hpoint] at hpath hpainted
    exact { h with path := hpath, painted := hpainted, found := fun _ _ => rfl }

/-- After the box has grown, the path may be forgotten. -/
theorem grow_resetPath (h : Follows st p) : Follows st.grow.resetPath p :=
  { h.grow with
    path := fun piece hpiece q hq => .inr (contains_grow (h.path piece hpiece q hq)) }

theorem clear (h : Follows st p) : Follows st.resetPath { p with path := [] } :=
  { h with path := fun piece hpiece => by cases hpiece }

theorem clearPath (h : Follows st p) : Follows st { p with path := [] } :=
  { h with path := fun piece hpiece => by cases hpiece }

theorem paint (h : Follows st p) {pieces : List Piece}
    (hin : p.graphics.Transparent → ∀ piece ∈ pieces, ∀ q ∈ piece.kept, st.box.Contains q) :
    Follows st (p.paint pieces) := by
  unfold Painting.paint
  split
  · rename_i htransparent
    refine { h with painted := fun piece hpiece => ?_ }
    obtain hpiece | hpiece := List.mem_append.mp hpiece
    · exact hin htransparent piece hpiece
    · exact h.painted piece hpiece
  · exact h

theorem paintPath (h : Follows st p) :
    Follows (if st.transp then st.grow else st).resetPath { p.paint p.path with path := [] } := by
  split
  · have hgrown : Follows st.grow.resetPath (p.paint p.path) :=
      h.grow_resetPath.paint fun _ piece hpiece q hq => contains_grow (h.path piece hpiece q hq)
    exact hgrown.clearPath
  · rename_i hopaque
    have hsame : Follows st (p.paint p.path) :=
      h.paint fun htransparent => absurd (h.transp htransparent) hopaque
    exact hsame.clear

theorem paintObject (h : Follows st p) :
    Follows (if st.transp then ((st.addPt 0 0).addPt 1 1).grow.resetPath else st)
      (p.paint [.rect p.graphics.ctm 0 0 1 1]) := by
  split
  · have hpoints := (h.addPt 0 0).addPt 1 1
    refine hpoints.grow_resetPath.paint fun _ => List.forall_mem_singleton.mpr ?_
    have hfirst := ((h.seen_addPt 0 0).imp_left fun hq => hq.add ((st.addPt 0 0).ctm.apply 1 1))
    have hlast := (h.addPt 0 0).seen_addPt 1 1
    intro q hq
    simp only [Piece.kept, zero_add, List.mem_cons, List.not_mem_nil, or_false] at hq
    obtain rfl | rfl := hq
    · exact contains_grow hfirst
    · exact contains_grow hlast
  · rename_i hopaque
    exact h.paint fun htransparent => absurd (h.transp htransparent) hopaque

theorem belowOne_of_alphaOf {v : Value} {before : ℚ} (h : alphaOf v before < 1) :
    belowOne v = true ∨ before < 1 := by
  cases v with
  | number q => exact .inl (decide_eq_true h)
  | _ => exact .inr h

theorem isMask_of_maskOf {v : Value} {before : Bool} (h : maskOf v before = true) :
    isMask v = true ∨ before = true := by
  cases v with
  | null => exact .inr h
  | _ => exact .inl h

theorem blends_of_ne {bmn : String} (hne : bmn ≠ "") (hnormal : bmn ≠ "/Normal")
    (hcompatible : bmn ≠ "/Compatible") : blends bmn = true := by
  rw [blends, Bool.and_eq_true, Bool.and_eq_true, decide_eq_true_eq, decide_eq_true_eq,
    decide_eq_true_eq]
  exact ⟨⟨hne, hnormal⟩, hcompatible⟩

/-- A state that becomes transparent was so before, or the scan sees it. -/
theorem transparent_set {g : Graphics} {d : ExtGState} (h : (g.set d).Transparent) :
    setsTransparency d = true ∨ g.Transparent := by
  simp only [setsTransparency, Bool.or_eq_true]
  obtain hfill | hstroke | hmask | ⟨hnormal, hcompatible⟩ := h
  · exact (belowOne_of_alphaOf hfill).imp (fun hlow => .inl (.inl (.inl hlow))) .inl
  · exact (belowOne_of_alphaOf hstroke).imp (fun hlow => .inl (.inl (.inr hlow)))
      fun hbefore => .inr (.inl hbefore)
  · exact (isMask_of_maskOf hmask).imp (fun hset => .inl (.inr hset))
      fun hbefore => .inr (.inr (.inl hbefore))
  · dsimp only [Graphics.set] at hnormal hcompatible
    split at hnormal
    · rename_i hnone
      rw [if_pos hnone] at hcompatible
      exact .inr (.inr (.inr (.inr ⟨hnormal, hcompatible⟩)))
    · rename_i hsome
      rw [if_neg hsome] at hcompatible
      exact .inl (.inr (blends_of_ne hsome hnormal hcompatible))

theorem save (h : Follows st p) :
    Follows { st with stack := st.ctm :: st.stack, transpStack := st.transp :: st.transpStack }
      { p with saved := p.graphics :: p.saved } :=
  { h with
    stack := by rw [List.map_cons, h.ctm, h.stack]
    transpStack := .cons h.transp h.transpStack }

/-- A restored state follows the graphics state below. -/
theorem restore (h : Follows st p) :
    Follows
      { st with
        ctm := st.stack.head?.getD st.ctm, stack := st.stack.tail
        transp := st.transpStack.head?.getD st.transp, transpStack := st.transpStack.tail }
      { p with graphics := p.saved.head?.getD p.graphics, saved := p.saved.tail } := by
  have hstack := h.stack
  have htransp := h.transpStack
  cases hsaved : p.saved with
  | nil =>
      rw [hsaved] at hstack htransp
      rw [hstack, List.forall₂_nil_right_iff.mp htransp]
      exact { h with stack := rfl, transpStack := .nil }
  | cons g rest =>
      rw [hsaved] at hstack htransp
      obtain ⟨t, ts, ht, hts, heq⟩ := List.forall₂_cons_right_iff.mp htransp
      rw [hstack, heq]
      exact { h with ctm := rfl, transp := ht, stack := rfl, transpStack := hts }

theorem setState (h : Follows st p) (d : ExtGState) :
    Follows (if setsTransparency d then { st with transp := true } else st)
      { p with graphics := p.graphics.set d } := by
  split
  · exact { h with transp := fun _ => rfl }
  · rename_i hopaque
    refine { h with transp := fun htransparent => ?_ }
    obtain hset | hbefore := transparent_set htransparent
    · exact absurd hset hopaque
    · exact h.transp hbefore

theorem addRect (h : Follows st p) (x y w a : ℚ) :
    Follows ((st.addPt x y).addPt (x + w) (y + a)) (p.addPiece (.rect p.graphics.ctm x y w a)) := by
  refine ((h.addPt x y).addPt (x + w) (y + a)).addPiece fun q hq => ?_
  have hfirst := (h.seen_addPt x y).imp_left
    fun hq => hq.add ((st.addPt x y).ctm.apply (x + w) (y + a))
  have hlast := (h.addPt x y).seen_addPt (x + w) (y + a)
  simp only [Piece.kept, List.mem_cons, List.not_mem_nil, or_false] at hq
  obtain rfl | rfl := hq
  · exact hfirst
  · exact hlast

theorem addPoints : ∀ (ps : List (ℚ × ℚ)) {st : State} {p : Painting}, Follows st p →
    Follows (ps.foldl (fun st q => st.addPt q.1 q.2) st)
      (ps.foldl (fun p q => p.addPoint q.1 q.2) p)
  | [], _, _, h => h
  | q :: rest, _, _, h => addPoints rest (h.addPoint q.1 q.2)

theorem endPath (h : Follows st p) :
    Follows (if st.transp then st.grow else st).resetPath { p with path := [] } := by
  split
  · exact h.grow.clear
  · exact h.clear

/-- One operator keeps the two together. -/
theorem operate (h : Follows st p) (i : Instr) :
    Follows (st.operate res i) (p.operate res i) := by
  cases i with
  | save => exact h.save
  | restore => exact h.restore
  | concat m => exact { h with ctm := congrArg (tmul m) h.ctm }
  | setState =>
      have hlookup : res st.lastName = res p.lastName := congrArg res h.lastName
      unfold State.operate Painting.operate
      rw [hlookup]
      dsimp only
      cases res p.lastName with
      | none => exact h
      | some d => exact h.setState d
  | points ps => exact addPoints ps h
  | rect x y w a => exact h.addRect x y w a
  | paint => exact h.paintPath
  | endPath => exact h.endPath
  | place => exact h.paintObject
  | nothing => exact h

theorem handleObject (h : Follows st p) (o : Obj) :
    Follows (st.handleObject res o) (p.handleObject res o) := by
  cases o with
  | number q => exact { h with nums := congrArg (q :: ·) h.nums }
  | name n => exact { h with lastName := rfl }
  | operand => exact h
  | operator op =>
      have hstep :
          Follows (st.operate res (instrOf op p.nums)) (p.operate res (instrOf op p.nums)) :=
        h.operate (instrOf op p.nums)
      unfold State.handleObject Painting.handleObject
      rw [h.nums]
      exact { hstep with nums := rfl, lastName := rfl }

theorem run : ∀ (objs : List Obj) {st : State} {p : Painting}, Follows st p →
    Follows (objs.foldl (State.handleObject res) st) (objs.foldl (Painting.handleObject res) p)
  | [], _, _, h => h
  | o :: rest, _, _, h => run rest (h.handleObject o)

end Follows

theorem follows_start : Follows {} {} where
  ctm := rfl
  transp := by decide
  stack := rfl
  transpStack := .nil
  nums := rfl
  lastName := rfl
  path := fun piece hpiece => by cases hpiece
  painted := fun piece hpiece => by cases hpiece
  found := fun q hq => absurd hq (Extent.not_contains_empty q)

/-- The box has all that was painted while the graphics state was transparent. -/
def Covers (res : Resources) (objs : List Obj) : Prop :=
  ∀ piece ∈ (paintAll res objs).painted, ∀ p ∈ piece.hull,
    (scan res objs).found = true ∧ (scan res objs).box.Contains p

theorem covers_of_fits (res : Resources) (objs : List Obj)
    (hfits : ∀ piece ∈ (paintAll res objs).painted, piece.Fits) : Covers res objs := by
  have hrun : Follows (scan res objs) (paintAll res objs) := follows_start.run objs
  intro piece hpiece p hp
  have hin := Piece.contains_hull (hfits piece hpiece) (hrun.painted piece hpiece) p hp
  exact ⟨hrun.found p hin, hin⟩

/-- A page whose only graphics state is half transparent. -/
def half : Resources := fun _ => some { ca := .number (1 / 2) }

/-- A rectangle that is filled under a matrix. -/
def oneRect (m : TMat) (x y w h : ℚ) : List Obj :=
  [.name "/G", .operator .gs, .number m.a, .number m.b, .number m.c, .number m.d, .number m.e,
    .number m.f, .operator .cm, .number x, .number y, .number w, .number h, .operator .re,
    .operator .f]

/-- An object that is placed under a matrix. -/
def onePlaced (m : TMat) : List Obj :=
  [.name "/G", .operator .gs, .number m.a, .number m.b, .number m.c, .number m.d, .number m.e,
    .number m.f, .operator .cm, .name "/X", .operator .Do]

theorem tmul_default (m : TMat) : tmul m {} = m := by
  simp [tmul]

/-- The state on the half transparent page. -/
def halved (m : TMat) : Graphics := { ({} : Graphics).set { ca := .number (1 / 2) } with ctm := m }

theorem halved_transparent (m : TMat) : (halved m).Transparent := by
  refine .inl ?_
  norm_num [halved, Graphics.set, alphaOf]

theorem painted_oneRect (m : TMat) (x y w h : ℚ) :
    (paintAll half (oneRect m x y w h)).painted = [.rect m x y w h] := by
  have hrun : (paintAll half (oneRect m x y w h)).painted =
      (Painting.paint { graphics := halved (tmul m {}), path := [.rect (tmul m {}) x y w h] }
        [.rect (tmul m {}) x y w h]).painted := rfl
  rw [hrun, Painting.paint, if_pos (halved_transparent _), tmul_default]
  rfl

theorem painted_onePlaced (m : TMat) :
    (paintAll half (onePlaced m)).painted = [.rect m 0 0 1 1] := by
  have hrun : (paintAll half (onePlaced m)).painted =
      (Painting.paint { graphics := halved (tmul m {}), lastName := "/X" }
        [.rect (tmul m {}) 0 0 1 1]).painted := rfl
  rw [hrun, Painting.paint, if_pos (halved_transparent _), tmul_default]
  rfl

theorem half_sets : setsTransparency { ca := .number (1 / 2) } = true := by
  norm_num [setsTransparency, belowOne]

theorem handle_gs :
    ([.name "/G", .operator .gs] : List Obj).foldl (State.handleObject half) {} =
      { transp := true } := by
  have hrun : ([.name "/G", .operator .gs] : List Obj).foldl (State.handleObject half) {} =
      { (if setsTransparency { ca := .number (1 / 2) } then
          ({ lastName := "/G", transp := true } : State) else { lastName := "/G" }) with
        nums := [], lastName := "" } := rfl
  rw [hrun, if_pos half_sets]

/-- What the scan makes of `/G gs` and a matrix on the half transparent page. -/
theorem scan_start (m : TMat) (rest : List Obj) :
    scan half ([.name "/G", .operator .gs, .number m.a, .number m.b, .number m.c, .number m.d,
      .number m.e, .number m.f, .operator .cm] ++ rest) =
      rest.foldl (State.handleObject half) { ctm := m, transp := true } := by
  have hsplit : ([.name "/G", .operator .gs, .number m.a, .number m.b, .number m.c, .number m.d,
      .number m.e, .number m.f, .operator .cm] ++ rest : List Obj) =
      [.name "/G", .operator .gs] ++ ([.number m.a, .number m.b, .number m.c, .number m.d,
        .number m.e, .number m.f, .operator .cm] ++ rest) := rfl
  rw [scan, hsplit, List.foldl_append, handle_gs, List.foldl_append]
  have hcm : ([.number m.a, .number m.b, .number m.c, .number m.d, .number m.e, .number m.f,
      .operator .cm] : List Obj).foldl (State.handleObject half) { transp := true } =
      { ctm := tmul m {}, transp := true } := rfl
  rw [hcm, tmul_default]

/-- The box around two points. -/
def around (p q : ℚ × ℚ) : Extent := (({} : Extent).add p).add q

theorem contains_around (p q : ℚ × ℚ) : (around p q).Contains p :=
  (Extent.contains_add_self _ _).add q

theorem union_around (p q : ℚ × ℚ) : ({} : Extent).union (around p q) = around p q := by
  simp only [Extent.union, around, Extent.add, Extent.mk.injEq]
  refine ⟨?_, ?_, ?_, ?_⟩
  · exact min_eq_right ((min_le_left _ _).trans (min_le_left _ _))
  · exact min_eq_right ((min_le_left _ _).trans (min_le_left _ _))
  · exact max_eq_right ((le_max_left _ _).trans (le_max_left _ _))
  · exact max_eq_right ((le_max_left _ _).trans (le_max_left _ _))

theorem box_grow {st : State} {p q : ℚ × ℚ} (hbox : st.box = {}) (hpath : st.path = around p q) :
    st.grow.box = around p q := by
  have hcontains := contains_around p q
  rw [State.grow, hpath, if_neg (not_lt.mpr (hcontains.1.trans hcontains.2.1)), hbox]
  exact union_around p q

theorem box_oneRect (m : TMat) (x y w h : ℚ) :
    (scan half (oneRect m x y w h)).box = around (m.apply x y) (m.apply (x + w) (y + h)) := by
  have hrun : scan half (oneRect m x y w h) = _ := scan_start m
    [.number x, .number y, .number w, .number h, .operator .re, .operator .f]
  rw [hrun]
  exact @box_grow { ctm := m, transp := true, path := around _ _ } _ _ rfl rfl

theorem box_onePlaced (m : TMat) :
    (scan half (onePlaced m)).box = around (m.apply 0 0) (m.apply 1 1) := by
  have hrun : scan half (onePlaced m) = _ := scan_start m [.name "/X", .operator .Do]
  rw [hrun]
  exact @box_grow { ctm := m, transp := true, lastName := "/X", path := around _ _ } _ _ rfl rfl

/-- A point is not so far out that the box starts closer. -/
def Near (p : ℚ × ℚ) : Prop := |p.1| ≤ 1000000000 ∧ |p.2| ≤ 1000000000

theorem mul_nonneg_of_between {s u v : ℚ}
    (hu : min s (s + u + v) ≤ s + u ∧ s + u ≤ max s (s + u + v)) : 0 ≤ u * v := by
  by_contra hneg
  obtain ⟨hu', hv'⟩ | ⟨hu', hv'⟩ := mul_neg_iff.mp (not_le.mp hneg)
  · obtain hle | hle := le_max_iff.mp hu.2 <;> linarith
  · obtain hle | hle := min_le_iff.mp hu.1 <;> linarith

/-- What is in the box around points is between them if one of them is near. -/
theorem between_of_contains_around {p q r : ℚ × ℚ} (hp : Near p)
    (hr : (around p q).Contains r) :
    (min p.1 q.1 ≤ r.1 ∧ r.1 ≤ max p.1 q.1) ∧ (min p.2 q.2 ≤ r.2 ∧ r.2 ≤ max p.2 q.2) := by
  obtain ⟨hx0, hx1, hy0, hy1⟩ := hr
  have hpx := abs_le.mp hp.1
  have hpy := abs_le.mp hp.2
  dsimp only [around, Extent.add] at hx0 hx1 hy0 hy1
  rw [min_eq_right hpx.2] at hx0
  rw [max_eq_right hpx.1] at hx1
  rw [min_eq_right hpy.2] at hy0
  rw [max_eq_right hpy.1] at hy1
  exact ⟨⟨hx0, hx1⟩, hy0, hy1⟩

/-- The box around two corners has the other two exactly if the rectangle fits. -/
theorem around_contains_hull_iff {m : TMat} {x y w h : ℚ} (hnear : Near (m.apply x y)) :
    (∀ p ∈ (Piece.rect m x y w h).hull,
      (around (m.apply x y) (m.apply (x + w) (y + h))).Contains p) ↔
      (Piece.rect m x y w h).Fits := by
  constructor
  · intro hall
    have hsecond := between_of_contains_around hnear
      (hall (m.apply (x + w) y) (List.mem_cons_of_mem _ List.mem_cons_self))
    rw [apply_add, apply_add_left] at hsecond
    exact ⟨mul_nonneg_of_between hsecond.1, mul_nonneg_of_between hsecond.2⟩
  · intro hfits
    apply Piece.contains_hull hfits
    intro p hp'
    simp only [Piece.kept, List.mem_cons, List.not_mem_nil, or_false] at hp'
    obtain rfl | rfl := hp'
    · exact contains_around _ _
    · exact Extent.contains_add_self _ _

theorem covers_iff_of_painted {res : Resources} {objs : List Obj} {m : TMat} {x y w h : ℚ}
    (hpainted : (paintAll res objs).painted = [.rect m x y w h])
    (hbox : (scan res objs).box = around (m.apply x y) (m.apply (x + w) (y + h)))
    (hnear : Near (m.apply x y)) : Covers res objs ↔ (Piece.rect m x y w h).Fits := by
  have hfound : (scan res objs).found = true := by
    have hrun : Follows (scan res objs) (paintAll res objs) := follows_start.run objs
    refine hrun.found (m.apply x y) ?_
    rw [hbox]
    exact (Extent.contains_add_self _ _).add _
  rw [← around_contains_hull_iff hnear, Covers, hpainted, List.forall_mem_singleton, hbox]
  exact ⟨fun hall p hp => (hall p hp).2, fun hall p hp => ⟨hfound, hall p hp⟩⟩

/-- A rotated square sticks out of the box. -/
theorem rotated_square_outside : ¬ ∀ res objs, Covers res objs := by
  intro hall
  have hcovers := hall half (oneRect ⟨1, 1, -1, 1, 0, 0⟩ 0 0 1 1)
  rw [covers_iff_of_painted (painted_oneRect _ _ _ _ _) (box_oneRect _ _ _ _ _)
    (by norm_num [Near, TMat.apply])] at hcovers
  have hsides := hcovers.1
  norm_num at hsides

/-- The box has what is painted under a transparent state if every rectangle and object of it
fits, and no less will do for a page with one of them. -/
theorem covers_exactly (res : Resources) (objs : List Obj)
    (hfits : ∀ piece ∈ (paintAll res objs).painted, piece.Fits) :
    Covers res objs ∧
      (∀ m x y w h, Near (m.apply x y) →
        (Covers half (oneRect m x y w h) ↔ (Piece.rect m x y w h).Fits)) ∧
      ∀ m, Near (m.apply 0 0) → (Covers half (onePlaced m) ↔ (Piece.rect m 0 0 1 1).Fits) := by
  refine ⟨covers_of_fits res objs hfits, fun m x y w h hnear => ?_, fun m hnear => ?_⟩
  · exact covers_iff_of_painted (painted_oneRect m x y w h) (box_oneRect m x y w h) hnear
  · refine covers_iff_of_painted (painted_onePlaced m) ?_ hnear
    rw [zero_add]
    exact box_onePlaced m

theorem covers_exactly_upright :
    Covers half (oneRect { a := 2, d := 3 } 10 10 50 20) ∧
      (∀ m x y w h, Near (m.apply x y) →
        (Covers half (oneRect m x y w h) ↔ (Piece.rect m x y w h).Fits)) ∧
      ∀ m, Near (m.apply 0 0) → (Covers half (onePlaced m) ↔ (Piece.rect m 0 0 1 1).Fits) := by
  refine covers_exactly half (oneRect { a := 2, d := 3 } 10 10 50 20) ?_
  rw [painted_oneRect, List.forall_mem_singleton]
  norm_num [Piece.Fits]

end Kura.Engine.TransBBox
