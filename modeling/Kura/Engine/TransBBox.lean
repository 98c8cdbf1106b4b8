import Mathlib.Data.Rat.Defs
import Mathlib.Algebra.Order.Field.Rat

/-!
# The box of what is transparent

A scan of a content stream collects the points of paths and of placed objects
that are painted while a graphics state with transparency is set. The page is
flattened in the box around them.

## Implementation notes

Numbers are exact. An array or a dictionary is one operand, which the scan does
not look into. Of the resources the scan reads the graphics states only: a name
without a dictionary has none.
-/

namespace Kura.Engine.TransBBox

/-- The values of entries of a graphics state. -/
inductive Value where
  | null
  | number (q : ℚ)
  | name (n : String)
  | array (items : List Value)
  | other

/-- An entry of `/ExtGState`. -/
structure ExtGState where
  ca : Value := .null
  CA : Value := .null
  SMask : Value := .null
  BM : Value := .null

/-- The graphics states of the resources. -/
abbrev Resources := String → Option ExtGState

/-- The operators that the scan tells apart. -/
inductive Op where
  | q | Q | cm | gs
  | m | l | c | v | y | re
  | S | s | f | F | fStar | B | BStar | b | bStar | n
  | Do
  | other
  deriving DecidableEq

/-- An object of a content stream. -/
inductive Obj where
  | number (q : ℚ)
  | name (n : String)
  | operand
  | operator (op : Op)

structure TMat where
  a : ℚ := 1
  b : ℚ := 0
  c : ℚ := 0
  d : ℚ := 1
  e : ℚ := 0
  f : ℚ := 0
  deriving DecidableEq

def tmul (m n : TMat) : TMat :=
  ⟨m.a * n.a + m.b * n.c, m.a * n.b + m.b * n.d,
    m.c * n.a + m.d * n.c, m.c * n.b + m.d * n.d,
    m.e * n.a + m.f * n.c + n.e, m.e * n.b + m.f * n.d + n.f⟩

/-- A point under a matrix. -/
def TMat.apply (m : TMat) (x y : ℚ) : ℚ × ℚ := (m.a * x + m.c * y + m.e, m.b * x + m.d * y + m.f)

/-- A box; the one to start with is turned over. -/
structure Extent where
  x0 : ℚ := 1000000000
  y0 : ℚ := 1000000000
  x1 : ℚ := -1000000000
  y1 : ℚ := -1000000000
  deriving DecidableEq

namespace Extent

def add (b : Extent) (p : ℚ × ℚ) : Extent :=
  ⟨min b.x0 p.1, min b.y0 p.2, max b.x1 p.1, max b.y1 p.2⟩

def union (b c : Extent) : Extent :=
  ⟨min b.x0 c.x0, min b.y0 c.y0, max b.x1 c.x1, max b.y1 c.y1⟩

end Extent

structure State where
  found : Bool := false
  box : Extent := {}
  ctm : TMat := {}
  stack : List TMat := []
  nums : List ℚ := []
  lastName : String := ""
  transp : Bool := false
  transpStack : List Bool := []
  path : Extent := {}
  deriving DecidableEq

def State.addPt (st : State) (x y : ℚ) : State := { st with path := st.path.add (st.ctm.apply x y) }

def State.grow (st : State) : State :=
  if st.path.x1 < st.path.x0 then st
  else { st with box := st.box.union st.path, found := true }

def State.resetPath (st : State) : State := { st with path := {} }

def nameOf : Value → String
  | .name n => n
  | _ => ""

/-- The name of a blend mode, the first one of an array. -/
def blendName : Value → String
  | .array (first :: _) => nameOf first
  | bm => nameOf bm

/-- The number is below one. -/
def belowOne : Value → Bool
  | .number q => q < 1
  | _ => false

/-- A soft mask that is one. -/
def isMask : Value → Bool
  | .null => false
  | .name n => n ≠ "/None"
  | _ => true

/-- A blend mode with an effect. -/
def blends (bmn : String) : Bool := bmn ≠ "" && bmn ≠ "/Normal" && bmn ≠ "/Compatible"

/-- The scan takes a graphics state for transparent. -/
def setsTransparency (g : ExtGState) : Bool :=
  belowOne g.ca || belowOne g.CA || isMask g.SMask || blends (blendName g.BM)

/-- What an operator asks for with its operands. -/
inductive Instr where
  | save
  | restore
  | concat (m : TMat)
  | setState
  | points (ps : List (ℚ × ℚ))
  | rect (x y w h : ℚ)
  | paint
  | endPath
  | place
  | nothing

/-- Reads operands; the numbers are given from the last one on. -/
def instrOf : Op → List ℚ → Instr
  | .q, _ => .save
  | .Q, _ => .restore
  | .cm, f :: e :: d :: c :: b :: a :: _ => .concat ⟨a, b, c, d, e, f⟩
  | .gs, _ => .setState
  | .m, y :: x :: _ => .points [(x, y)]
  | .l, y :: x :: _ => .points [(x, y)]
  | .c, y3 :: x3 :: y2 :: x2 :: y1 :: x1 :: _ => .points [(x1, y1), (x2, y2), (x3, y3)]
  | .v, y3 :: x3 :: y2 :: x2 :: _ => .points [(x2, y2), (x3, y3)]
  | .y, y3 :: x3 :: y1 :: x1 :: _ => .points [(x1, y1), (x3, y3)]
  | .re, h :: w :: y :: x :: _ => .rect x y w h
  | .S, _ | .s, _ | .f, _ | .F, _ | .fStar, _ | .B, _ | .BStar, _ | .b, _ | .bStar, _ => .paint
  | .n, _ => .endPath
  | .Do, _ => .place
  -- another operator, or operands are missing
  | _, _ => .nothing

/-- What an operator does. -/
def State.operate (res : Resources) (st : State) : Instr → State
  | .save => { st with stack := st.ctm :: st.stack, transpStack := st.transp :: st.transpStack }
  | .restore =>
      { st with
        ctm := st.stack.head?.getD st.ctm, stack := st.stack.tail
        transp := st.transpStack.head?.getD st.transp, transpStack := st.transpStack.tail }
  | .concat m => { st with ctm := tmul m st.ctm }
  | .setState =>
      match res st.lastName with
      | some g => if setsTransparency g then { st with transp := true } else st
      | none => st
  | .points ps => ps.foldl (fun st p => st.addPt p.1 p.2) st
  -- of a rectangle two corners are looked at
  | .rect x y w h => (st.addPt x y).addPt (x + w) (y + h)
  | .paint | .endPath => (if st.transp then st.grow else st).resetPath
  | .place => if st.transp then ((st.addPt 0 0).addPt 1 1).grow.resetPath else st
  | .nothing => st

/-- What the scan does with an object; an operator uses up the operands before it. -/
def State.handleObject (res : Resources) (st : State) : Obj → State
  | .number q => { st with nums := q :: st.nums }
  | .name n => { st with lastName := n }
  | .operand => st
  | .operator op => { st.operate res (instrOf op st.nums) with nums := [], lastName := "" }

/-- The scan of a content stream. -/
def scan (res : Resources) (objs : List Obj) : State :=
  objs.foldl (State.handleObject res) {}

end Kura.Engine.TransBBox
