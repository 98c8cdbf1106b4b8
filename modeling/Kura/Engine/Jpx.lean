import Kura.Base.Rounds
import Kura.Engine.Number

/-!
# Taking the TLM segments out of an image

The main header of a JPEG 2000 codestream may have segments that tell the lengths of
the tile parts. They are taken out, and the box around the codestream is shortened.

## Implementation notes

A place in a string is a number. The length of a box is added to its place in 64
bits; the other sums do not wrap, since a string has less than `2 ^ 63` bytes. No
byte behind the end is read, where the value would be zero. The walk over the boxes
is given some rounds.
-/

namespace Kura.Engine.Jpx

open Kura.Base

/-- A `std::string`. -/
abbrev StdString := {b : Bytes // b.length < 2 ^ 63}

def byteAt (b : Bytes) (i : Nat) : Nat := (b[i]?.getD 0).toNat

/-- The number in some bytes, the highest one first. -/
def fromBe (b : Bytes) : Nat := b.foldl (fun v c => 256 * v + c.toNat) 0

/-- The lowest bytes of a number, the highest one first. -/
def toBe : Nat → Nat → Bytes
  | 0, _ => []
  | k + 1, v => toBe k (v / 256) ++ [UInt8.ofNat (v % 256)]

/-- Some bytes from a place on. -/
def slice (b : Bytes) (i k : Nat) : Bytes := (b.drop i).take k

def be (b : Bytes) (i k : Nat) : Nat := fromBe (slice b i k)

/-- Writes a number over some bytes. -/
def setBe (b : Bytes) (i k v : Nat) : Bytes := b.take i ++ toBe k v ++ b.drop (i + k)

/-- The length of a box, as its header gives it, and the length of the header. -/
def boxHeader (b : Bytes) (p : Nat) : Nat × Nat :=
  if be b p 4 = 1 ∧ p + 16 ≤ b.length then (be b (p + 8) 8, 16) else (be b p 4, 8)

def isJp2c (b : Bytes) (p : Nat) : Bool := slice b (p + 4) 4 = lit "jp2c"

/-- Whether a codestream starts at a place. -/
def isSoc (b : Bytes) (p : Nat) : Bool := byteAt b p = 0xFF && byteAt b (p + 1) = 0x4F

/-- A round of the walk over the boxes: it ends at the box of the codestream, or at none. -/
def boxStep (b : Bytes) (p : Nat) : Option (Option Nat ⊕ Nat) :=
  if b.length < p + 8 then some (.inl none)
  else if isJp2c b p then some (.inl (some p))
  else
    let len := (boxHeader b p).1
    let hdr := (boxHeader b p).2
    if len = 0 ∨ len < hdr ∨ b.length < (p + len) % 2 ^ 64 then some (.inl none)
    else some (.inr ((p + len) % 2 ^ 64))

/-- Where a codestream starts, and the place and the size of the field that tells its length. -/
structure Place where
  cs : Nat
  boxLenAt : Option (Nat × Nat)

/-- The codestream in the box at `p`. -/
def placeIn (b : Bytes) (p : Nat) : Place where
  cs := p + (boxHeader b p).2
  boxLenAt :=
    if (boxHeader b p).1 ≠ 0 then
      some (if (boxHeader b p).2 = 16 then (p + 8, 8) else (p, 4))
    else none

def locate (b : Bytes) (rounds : Nat) : Option (Option Place) :=
  if 2 ≤ b.length ∧ isSoc b 0 then some (some ⟨0, none⟩)
  else (loop (boxStep b) rounds 0).map fun found => found.map (placeIn b)

/-- The markers that the main header ends at. -/
def endsHeader (marker : Nat) : Prop := marker = 0x90 ∨ marker = 0x93 ∨ marker = 0xD9

instance (marker : Nat) : Decidable (endsHeader marker) := inferInstanceAs (Decidable (_ ∨ _ ∨ _))

/-- Copies the segments that are kept: where the header ends, what is written, and the bytes left
out, if the header can be read. -/
def headerWalk (b : Bytes) (p : Nat) (out : Bytes) (removed : Nat) : Option (Nat × Bytes × Nat) :=
  if b.length < p + 4 then some (p, out, removed)
  else if byteAt b p ≠ 0xFF then none
  else if endsHeader (byteAt b (p + 1)) then some (p, out, removed)
  else
    let segLen := be b (p + 2) 2
    if segLen < 2 ∨ b.length < p + 2 + segLen then none
    else if byteAt b (p + 1) = 0x55 then
      headerWalk b (p + 2 + segLen) out (removed + (2 + segLen))
    else headerWalk b (p + 2 + segLen) (out ++ slice b p (2 + segLen)) removed
termination_by b.length - p

/-- Lowers the number in a field of some bytes. -/
def lowered (b : Bytes) (i k removed : Nat) : Bytes :=
  setBe b i k ((be b i k + 2 ^ 64 - removed) % 2 ^ 64)

/-- What the codestream at a place leaves of the string. -/
def stripped (b : Bytes) (place : Place) : Bytes :=
  if b.length < place.cs + 4 ∨ ¬ isSoc b place.cs then b
  else
    match headerWalk b (place.cs + 2) (b.take (place.cs + 2)) 0 with
    | none => b
    | some (p, out, removed) =>
        if removed = 0 then b
        else
          match place.boxLenAt with
          | none => out ++ b.drop p
          | some field => lowered (out ++ b.drop p) field.1 field.2 removed

/-- `withoutTlm`, with some rounds for the walk over the boxes. -/
def withoutTlm (rounds : Nat) (b : StdString) : Option Bytes :=
  (locate b.1 rounds).map fun place => (place.map (stripped b.1)).getD b.1

end Kura.Engine.Jpx
