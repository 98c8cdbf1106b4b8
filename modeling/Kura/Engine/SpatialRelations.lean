import Kura.Engine.ProfileParse
import Kura.Engine.SpatialIndex

/-!
# Relations of painted objects

How the objects of a page lie to each other: `relationsOf` goes through the
objects of a page and counts, for one object, which of them are above or below
it, cover it, cross it, lie outside of it or near it.

## Implementation notes

Shapes are given by what the functions read of them: their box, sample points on
their edge and inside, and which points are inside. Samples of the edge lie in
the box, as they are taken next to points of the shape. The shapes of objects,
distances, the numbers of an atom and whether an object is found by another
check are parameters. The shapes of a set are listed once.
-/

namespace Kura.Engine.Relations

open Kura.Engine.ProfileParse (PfAtom param)

/-- A point. -/
structure Pt where
  x : Rat := 0
  y : Rat := 0
  deriving DecidableEq

def kProbe : Rat := 2 / 1000

/-- Tests whether a point lies in a box. -/
def inBox (b : Box) (p : Pt) : Bool := b.x0 ≤ p.x && p.x ≤ b.x1 && b.y0 ≤ p.y && p.y ≤ b.y1

/-- A shape with its samples. -/
structure Shape where
  bb : Box
  edge : List Pt
  fill : List Pt
  inside : Pt → Bool
  edge_bb : ∀ p ∈ edge, bb.valid = true ∧ inBox bb p = true

/-- Tests whether a point lies in a shape. -/
def insideShape (s : Shape) (p : Pt) : Bool := s.bb.valid && inBox s.bb p && s.inside p

abbrev ShapeSet := List Shape

/-- Tests whether a point lies in one of some shapes. -/
def inSet (b : ShapeSet) (p : Pt) : Bool := b.any fun s => insideShape s p

/-- Two for a point inside, none for one outside, one for a point on the edge. -/
def status (b : ShapeSet) (p : Pt) : Nat :=
  let n := (inSet b ⟨p.x + kProbe, p.y⟩).toNat + (inSet b ⟨p.x - kProbe, p.y⟩).toNat +
    (inSet b ⟨p.x, p.y + kProbe⟩).toNat + (inSet b ⟨p.x, p.y - kProbe⟩).toNat
  if n = 4 then 2 else if n = 0 then 0 else 1

/-- The samples of the edges that no other shape of the set hides. -/
def exposed (set : ShapeSet) : List Pt :=
  set.zipIdx.flatMap fun s => s.1.edge.filter fun p =>
    !set.zipIdx.any fun o => o.2 ≠ s.2 && status [o.1] p = 2

@[simp]
theorem exposed_singleton (s : Shape) : exposed [s] = s.edge := by
  simp [exposed]

/-- How many samples lie inside, on the edge and outside. -/
structure Tally where
  inn : Nat := 0
  on : Nat := 0
  out : Nat := 0

/-- The samples of some shapes seen from others. -/
def tally (src vs : ShapeSet) : Tally :=
  (exposed src).foldl (fun t p =>
    let st := status vs p
    if st = 2 then { t with inn := t.inn + 1 }
    else if st = 1 then { t with on := t.on + 1 }
    else { t with out := t.out + 1 }) {}

/-- The box around some shapes. -/
def setBox (s : ShapeSet) : Box :=
  s.foldl (fun b x =>
    if !x.bb.valid then b
    else
      let b := if b.valid then b else x.bb
      ⟨min b.x0 x.bb.x0, min b.y0 x.bb.y0, max b.x1 x.bb.x1, max b.y1 x.bb.y1, true⟩) {}

/-- How two sets of shapes lie to each other. -/
inductive Rel where
  | apart
  | aIn
  | bIn
  | cross
  deriving DecidableEq

def classify (a b : ShapeSet) : Rel :=
  if !touches (setBox a) (setBox b) then .apart
  else
    let ta := tally a b
    let tb := tally b a
    if ta.inn = 0 ∧ ta.on = 0 ∧ tb.inn = 0 ∧ tb.on = 0 then .apart
    else if ta.out = 0 ∧ ta.on = 0 ∧ tb.inn = 0 ∧ tb.on = 0 then .aIn
    else if tb.out = 0 ∧ tb.on = 0 ∧ ta.inn = 0 ∧ ta.on = 0 then .bIn
    else .cross

/-- The shapes of objects and the functions of other parts. -/
structure Scene where
  /-- The shape of an object, clipped. -/
  shape : SObj → Shape
  /-- The length of a vector. -/
  hypot : Rat → Rat → Rat
  /-- A number of an atom. -/
  paramNum : PfAtom → String → Rat
  /-- Tests whether a check finds an object, and whether it could be evaluated. -/
  member : String → SObj → Bool × Bool

/-- What is used of the length of a vector. -/
structure Scene.Lawful (sc : Scene) : Prop where
  neg : ∀ x y, sc.hypot (-x) (-y) = sc.hypot x y
  mono : ∀ {x y x' y'}, 0 ≤ x → 0 ≤ y → x ≤ |x'| → y ≤ |y'| → sc.hypot x y ≤ sc.hypot x' y'

variable (sc : Scene)

/-- A distance larger than any on a page. -/
def kFar : Rat := 10 ^ 18

/-- The distance of the edges of two sets of shapes, if it is below a limit. -/
def edgeDistance (a b : ShapeSet) (limit : Rat) : Rat :=
  let bb := setBox b
  if !bb.valid then kFar
  else
    let pb := exposed b
    (exposed a).foldl (fun best p =>
      let dx := max 0 (max (bb.x0 - p.x) (p.x - bb.x1))
      let dy := max 0 (max (bb.y0 - p.y) (p.y - bb.y1))
      if min best limit < sc.hypot dx dy then best
      else pb.foldl (fun best q => min best (sc.hypot (p.x - q.x) (p.y - q.y))) best) kFar

/-- Compares stacking positions. -/
def zLess (a b : List Int) : Bool := a < b

/-- Tests whether two objects are one, or fill and stroke of one path. -/
def sameObj (a b : SObj) : Bool :=
  if a.p = b.p then true
  else if !a.paint || !b.paint || a.stroke = b.stroke then false
  else if a.zp.length ≠ b.zp.length || a.zp.isEmpty then false
  else if a.zp.dropLast ≠ b.zp.dropLast then false
  else if |a.zp.getLastD 0 - b.zp.getLastD 0| ≠ 1 then false
  else
    let pa := a.source.bbox
    let pb := b.source.bbox
    pa.x0 = pb.x0 && pa.y0 = pb.y0 && pa.x1 = pb.x1 && pa.y1 = pb.y1

/-- The objects that hide an object above a stacking position. -/
def occluders (o : SObj) (all : List SObj) (above : List Int) (skip : Option Ref) : List SObj :=
  all.filter fun b =>
    !(b.p = o.p || some b.p = skip || !b.opq || b.hidden || sameObj o b || !zLess above b.zp) &&
      touches b.ext o.ext

/-- The shapes of some objects. -/
def shapes (os : List SObj) : ShapeSet := os.map sc.shape

/-- The samples of an object that are visible and that are hidden. -/
def oblOf (o : SObj) (all : List SObj) : Nat × Nat :=
  let occ := shapes sc (occluders o all o.zp none)
  ((sc.shape o).fill.countP fun p => !inSet occ p, (sc.shape o).fill.countP fun p => inSet occ p)

/-- Tests whether an object can be used. -/
def usable (o : SObj) : Bool := !o.hidden && o.vis && !(sc.shape o).fill.isEmpty

/-- Tests whether some of an object can be seen. -/
def seen (o : SObj) (all : List SObj) : Bool := 0 < (oblOf sc o all).1

/-- The samples two objects have in common. -/
def common (o b : SObj) : List Pt :=
  (sc.shape o).fill.filter (insideShape (sc.shape b)) ++
    (sc.shape b).fill.filter (insideShape (sc.shape o))

/-- The stacking position of the upper one of two objects. -/
def topOf (o b : SObj) : List Int := if zLess o.zp b.zp then b.zp else o.zp

/-- Tests whether the overlap of two objects can be seen. -/
def overlapVisible (o b : SObj) (all : List SObj) : Bool :=
  let pts := common sc o b
  if pts.isEmpty then true
  else
    let occ := shapes sc (occluders o all (topOf o b) (some b.p))
    pts.any fun p => !inSet occ p

/-- The relations of one object to another. -/
inductive Relation where
  | above
  | below
  | covers
  | covered
  | crosses
  | inside
  | outside
  | near
  deriving DecidableEq

namespace Relation

/-- The name of a relation. -/
def name : Relation → String
  | above => "above"
  | below => "below"
  | covers => "covers"
  | covered => "covered"
  | crosses => "crosses"
  | inside => "inside"
  | outside => "outside"
  | near => "near"

theorem name_inj {r s : Relation} (h : r.name = s.name) : r = s := by
  revert h
  cases r <;> cases s <;> simp [name]

end Relation

/-- All relations in the order of a report. -/
def kRelations : List Relation :=
  [.above, .below, .covers, .covered, .crosses, .inside, .outside, .near]

/-- The names of the relations an atom asks for. -/
def want (a : PfAtom) : List String :=
  if a.op = "count" then kRelations.map Relation.name else a.vals

/-- Tests whether an atom asks for a relation. -/
def Wanted (a : PfAtom) (r : Relation) : Prop := r.name ∈ want a

instance (a : PfAtom) (r : Relation) : Decidable (Wanted a r) :=
  inferInstanceAs (Decidable (_ ∈ _))

/-- The checks whose objects count. -/
def names (a : PfAtom) : List String :=
  a.refs ++ if param a "other" = "" then [] else [param a "other"]

/-- How many objects a relation needs. -/
def need (a : PfAtom) : Int := max 1 (round (sc.paramNum a "min_objects"))

/-- Tests whether an atom asks for nearness only. -/
def nearOnly (a : PfAtom) : Bool := want a ≠ [] && (want a).all fun w => w = Relation.near.name

/-- Tests whether an object counts: some check finds it, if there are any. -/
def found (a : PfAtom) (b : SObj) : Bool × Bool :=
  (names a).foldl (fun acc nm =>
    if acc.1 then acc else ((sc.member nm b).1, acc.2 && (sc.member nm b).2))
    ((names a).isEmpty, true)

/-- Tests whether the loop passes over an object. -/
def skipped (o b : SObj) : Bool := b.p = o.p || sameObj o b || !usable sc b

/-- The relations of objects that overlap, where the first is on top or not. -/
def overlapRelations (r : Rel) (top : Bool) : List Relation :=
  [if top then .above else .below] ++ (if r = .cross then [.crosses] else []) ++
    (if r = .aIn then .inside :: (if top then [] else [.covered]) else []) ++
    (if r = .bIn && top then [.covers] else [])

/-- The relations of two objects other than nearness. -/
def otherRelations (o b : SObj) (all : List SObj) : List Relation :=
  let r := classify [sc.shape o] [sc.shape b]
  if r = .apart then if seen sc o all && seen sc b all then [.outside] else []
  else if !overlapVisible sc o b all then []
  else overlapRelations r (zLess b.zp o.zp)

/-- Tests whether two objects are nearer than an atom says. -/
def isNear (a : PfAtom) (o b : SObj) : Bool :=
  edgeDistance sc [sc.shape o] [sc.shape b] (sc.paramNum a "distance") < sc.paramNum a "distance"

/-- The relations that are counted for an object when the loop meets another one. -/
def countedFor (a : PfAtom) (o b : SObj) (all : List SObj) : List Relation :=
  if skipped sc o b || !(found sc a b).1 then []
  else
    ((if isNear sc a o b then [Relation.near] else []) ++
      if nearOnly a then [] else otherRelations sc o b all).filter fun r => Wanted a r

/-- How often each relation was counted. -/
abbrev Counters := Relation → Nat

/-- The counter of a name. -/
def Counters.get (n : Counters) (w : String) : Nat :=
  match kRelations.find? fun r => r.name = w with
  | some r => n r
  | none => 0

/-- Tests whether a relation that is asked for has not been counted often enough. -/
def Counters.isOpen (n : Counters) (a : PfAtom) : Bool :=
  (want a).any fun w => (n.get w : Int) < need sc a

/-- The loop over the objects of a page, with a flag for the checks it has asked. -/
def countRelations (a : PfAtom) (o : SObj) (all : List SObj) :
    List SObj → Counters → Bool → Counters × Bool
  | [], n, supported => (n, supported)
  | b :: rest, n, supported =>
      if !n.isOpen sc a then (n, supported)
      else
        countRelations a o all rest (fun r => n r + (countedFor sc a o b all).count r)
          (supported && (skipped sc o b || (found sc a b).2))

/-- The relations an object has to as many objects as are needed, and whether all checks that
were asked could be evaluated. -/
def relationsOf (a : PfAtom) (o : SObj) (all : List SObj) : List Relation × Bool :=
  let counted := countRelations sc a o all all (fun _ => 0) true
  (kRelations.filter fun r => need sc a ≤ counted.1 r, counted.2)

end Kura.Engine.Relations
