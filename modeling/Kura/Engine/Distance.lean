import Kura.Base.Buffer
import Kura.Base.Envelope
import Kura.Base.Integers

/-!
# Distances to marked pixels

`nearestSeed` finds for every pixel of a mask a marked pixel next to it, and
`squaredDistance` the square of its distance. Both go along the columns first
and then along the rows, where the lower envelope of parabolas tells the
nearest column.

## Implementation notes

Numbers are exact: `double`s are rationals. Every access to an array is
checked, so a result is a run in which no index leaves its array. The index
`k` of the top of the stack is `none` where it is `-1`. Pixels are stored as
32-bit numbers.
-/

namespace Kura.Engine.Distance

open Kura.Base

/-- The number that stands for no bound. -/
def inf : ℚ := 10 ^ 20

/-- The parabolas of an envelope, where they start, and the index of the last one. -/
structure Stack where
  v : Buffer Nat
  z : Buffer ℚ
  k : Nat

/-- Where the parabola over `q` meets the one over `a`. -/
def cut (f : Buffer ℚ) (q a : Nat) : Option ℚ := do
  let fq ← f.read q
  let fa ← f.read a
  return parabolaCut fq fa q a

/-- Goes down the stack while the crossing is not behind the start of the top. -/
def pop (f : Buffer ℚ) (q : Nat) (v : Buffer Nat) (z : Buffer ℚ) : Nat → ℚ → Option (Nat × ℚ)
  | 0, sq => do
      let start ← z.read 0
      if sq ≤ start then none else some (0, sq)
  | k + 1, sq => do
      let start ← z.read (k + 1)
      if sq ≤ start then
        let a ← v.read k
        let sq ← cut f q a
        pop f q v z k sq
      else some (k + 1, sq)

/-- The first parabola of a stack. -/
def first (v : Buffer Nat) (z : Buffer ℚ) (q : Nat) : Option Stack := do
  let v ← v.write 0 q
  let z ← z.write 0 (-inf)
  let z ← z.write 1 inf
  return ⟨v, z, 0⟩

/-- Puts a parabola on a stack. -/
def push (f : Buffer ℚ) (q : Nat) (s : Stack) : Option Stack := do
  let a ← s.v.read s.k
  let sq ← cut f q a
  let (k, sq) ← pop f q s.v s.z s.k sq
  let v ← s.v.write (k + 1) q
  let z ← s.z.write (k + 1) sq
  let z ← z.write (k + 2) inf
  return ⟨v, z, k + 1⟩

/-- Goes up the stack while the next parabola starts before a place. -/
def advance (z : Buffer ℚ) (q : Nat) : Nat → Nat → Option Nat
  | 0, _ => none
  | fuel + 1, j => do
      let next ← z.read (j + 1)
      if next < q then advance z q fuel (j + 1) else some j

section

variable (on : Buffer Bool) (w h : Nat)

/-- One row on the way down a column, with the last marked row. -/
def downStep (x y : Nat) (st : Int × Buffer Int) : Option (Int × Buffer Int) := do
  let i := y * w + x
  let marked ← on.read i
  let last := if marked then (y : Int) else st.1
  let col ← st.2.write i last
  return (last, col)

/-- One row on the way up a column, which keeps the nearer one of the marked rows. -/
def upStep (x t : Nat) (st : Int × Buffer Int) : Option (Int × Buffer Int) := do
  let y := h - 1 - t
  let i := y * w + x
  let marked ← on.read i
  let last := if marked then (y : Int) else st.1
  let c ← st.2.read i
  if 0 ≤ last ∧ (c < 0 ∨ last - y < y - c) then
    let col ← st.2.write i last
    return (last, col)
  else return (last, st.2)

/-- One column, down and up. -/
def column (x : Nat) (col : Buffer Int) : Option (Buffer Int) := do
  let (_, col) ← forRange h (downStep on w x) (-1, col)
  let (_, col) ← forRange h (upStep on w h x) (-1, col)
  return col

/-- The nearest marked row of every pixel in its column. -/
def columns : Option (Buffer Int) :=
  forRange w (column on w h) (Buffer.fill (w * h) (-1))

/-- The heights and the stack of a row; the arrays are those of the row before. -/
structure Row where
  f : Buffer ℚ
  v : Buffer Nat
  z : Buffer ℚ
  k : Option Nat

/-- The arrays before the first row. -/
def Row.start (w : Nat) : Row := ⟨Buffer.fill w 0, Buffer.fill w 0, Buffer.fill (w + 1) 0, none⟩

/-- One column of a row: a column without marked pixels is left out. -/
def rowStep (col : Buffer Int) (y q : Nat) (r : Row) : Option Row := do
  let cy ← col.read (y * w + q)
  if cy < 0 then return r
  else
    let f ← r.f.write q ((cy - y) * (cy - y) : Int)
    match r.k with
    | none => (first r.v r.z q).map fun s => ⟨f, s.v, s.z, some s.k⟩
    | some k => (push f q ⟨r.v, r.z, k⟩).map fun s => ⟨f, s.v, s.z, some s.k⟩

/-- One pixel of a row. -/
def pixelStep (col : Buffer Int) (y : Nat) (s : Stack) (q : Nat) (st : Nat × Buffer Int) :
    Option (Nat × Buffer Int) := do
  let j ← advance s.z q s.z.size st.1
  let a ← s.v.read j
  let c ← col.read (y * w + a)
  let out ← st.2.write (y * w + q) (toInt32 (c * w + a))
  return (j, out)

/-- One row. -/
def row (col : Buffer Int) (y : Nat) (st : Row × Buffer Int) : Option (Row × Buffer Int) := do
  let r ← forRange w (rowStep w col y) { st.1 with k := none }
  match r.k with
  | none => return (r, st.2)
  | some k =>
      let (_, out) ← forRange w (pixelStep w col y ⟨r.v, r.z, k⟩) (0, st.2)
      return (r, out)

def nearestSeed : Option (Buffer Int) := do
  let col ← columns on w h
  let (_, out) ← forRange h (row w col) (Row.start w, Buffer.fill (w * h) (-1))
  return out

end

/-- Copies one place of a line. -/
def copyStep (base stride : Nat) (d : Buffer ℚ) (i : Nat) (g : Buffer ℚ) : Option (Buffer ℚ) := do
  let x ← d.read (base + i * stride)
  g.write i x

/-- Writes one place of a line. -/
def writeStep (base stride : Nat) (g : Buffer ℚ) (s : Stack) (q : Nat) (st : Nat × Buffer ℚ) :
    Option (Nat × Buffer ℚ) := do
  let j ← advance s.z q s.z.size st.1
  let a ← s.v.read j
  let ga ← g.read a
  let d ← st.2.write (base + q * stride) (((q : ℚ) - a) * (q - a) + ga)
  return (j, d)

/-- Every place of a line gets the lowest of the parabolas over the line's values. -/
def pass (base n stride : Nat) (d : Buffer ℚ) : Option (Buffer ℚ) := do
  let g ← forRange n (copyStep base stride d) (Buffer.fill n 0)
  let s ← first (Buffer.fill n 0) (Buffer.fill (n + 1) 0) 0
  let s ← forRange (n - 1) (fun t => push g (t + 1)) s
  let (_, d) ← forRange n (writeStep base stride g s) (0, d)
  return d

/-- The distance of a pixel before any other one is looked at. -/
def startStep (on : Buffer Bool) (i : Nat) (d : Buffer ℚ) : Option (Buffer ℚ) := do
  let marked ← on.read i
  d.write i (if marked then 0 else inf)

def squaredDistance (on : Buffer Bool) (w h : Nat) : Option (Buffer ℚ) := do
  let d ← forRange (w * h) (startStep on) (Buffer.fill (w * h) 0)
  let d ← forRange w (fun x => pass x h w) d
  forRange h (fun y => pass (y * w) w 1) d

end Kura.Engine.Distance
