import Kura.Base.Search
import Kura.Engine.Number

/-!
# Signing the written file

The signature dictionary is written with a placeholder: a `/ByteRange` of four
wide numbers and a `/Contents` string of zeros. `applySignature` looks for both
in the text of the file, fills in the range, passes what lies outside the
string to the signing callback and writes the answer into the string.

## Implementation notes

The callback is a parameter; the value `none` stands for its failure. What it
was called with is kept beside the result. A file has fewer than 2^63 bytes, so
offsets are natural numbers and `filled` is wide enough for the four of them.
-/

namespace Kura.Engine.Sign

open Kura.Base

/-- The options that signing reads. -/
structure Options where
  signReserveBytes : Nat
  signDocument : Bytes → Option Bytes

/-- The answer, the buffer after the call and what was passed to the callback. -/
structure Result where
  ok : Bool
  pdf : Bytes
  err : String
  signedData : Option Bytes
  deriving DecidableEq

/-- Where the string of the placeholder stands. -/
structure Placeholder where
  c : Nat
  hexStart : Nat
  hexEnd : Nat
  deriving DecidableEq

/-- `/Contents <`. -/
def placeholderMark : Bytes := lit "/Contents <"

/-- `/ByteRange`. -/
def byteRangeKey : Bytes := lit "/ByteRange"

/-- The search for a string of zeros; `at` is the next place of the mark. -/
def findPlaceholder (body : Bytes) (wantHex : Nat) : Nat → Option Nat → Option Placeholder
  | 0, _ => none
  | _ + 1, none => none
  | fuel + 1, some i =>
      let start := i + placeholderMark.length
      match findFrom (lit ">") body start with
      | none => none
      | some stop =>
          let next := findFrom placeholderMark body (i + 1)
          if stop - start ≠ wantHex then findPlaceholder body wantHex fuel next
          else if (findNot 0x30 body start).any (· < stop) then
            findPlaceholder body wantHex fuel next
          else some ⟨i, start, stop⟩

/-- `body.rfind(key, c)`, and the first one of the file if there is none. -/
def findByteRange (body : Bytes) (c : Nat) : Option Nat :=
  (rfindFrom byteRangeKey body c).or (findFrom byteRangeKey body 0)

/-- The brackets behind the key. -/
def findBrackets (body : Bytes) (br : Nat) : Option (Nat × Nat) := do
  let brOpen ← findFrom (lit "[") body br
  let brClose ← findFrom (lit "]") body brOpen
  return (brOpen, brClose)

/-- The four numbers in brackets. -/
def rangeText (r1 r2 r3 : Nat) : Bytes :=
  lit "[" ++ decimal 0 ++ lit " " ++ decimal r1 ++ lit " " ++ decimal r2 ++ lit " " ++
    decimal r3 ++ lit "]"

/-- The digits of a signature. -/
def hexDigit (n : Nat) : UInt8 := if n < 10 then UInt8.ofNat (0x30 + n) else UInt8.ofNat (0x57 + n)

/-- Both digits of each byte. -/
def hexText (der : Bytes) : Bytes :=
  der.flatMap fun ch => [hexDigit (ch.toNat / 16), hexDigit (ch.toNat % 16)]

/-- A text that is filled up to a width. -/
def padded (text : Bytes) (width : Nat) (fill : UInt8) : Bytes :=
  text ++ List.replicate (width - text.length) fill

/-- The buffer stays as it is on every error. -/
def failed (pdf : Bytes) (signedData : Option Bytes) (err : String) : Result :=
  ⟨false, pdf, err, signedData⟩

/-- The range is in place: what lies outside the gap is signed and the string is filled. -/
def signGap (opt : Options) (pdf body : Bytes) (hexStart hexEnd : Nat) : Result :=
  let signedData := body.take (hexStart - 1) ++ body.drop (hexEnd + 1)
  match opt.signDocument signedData with
  | none => failed pdf (some signedData) "the signing callback produced no signature"
  | some der =>
      if der = [] then failed pdf (some signedData) "the signing callback produced no signature"
      else
        let capacity := hexEnd - hexStart
        if der.length * 2 > capacity then
          failed pdf (some signedData)
            "signature is larger than the reserved space; raise signReserveBytes"
        else
          ⟨true, splice body hexStart capacity (padded (hexText der) capacity 0x30), "",
            some signedData⟩

/-- Signs the placeholder of a written file. -/
def applySignature (opt : Options) (pdf : Bytes) : Result :=
  let wantHex := opt.signReserveBytes * 2
  match findPlaceholder pdf wantHex (pdf.length + 1) (findFrom placeholderMark pdf 0) with
  | none => failed pdf none "signature placeholder not found in the written file"
  | some ⟨c, hexStart, hexEnd⟩ =>
      match findByteRange pdf c with
      | none => failed pdf none "ByteRange placeholder not found"
      | some br =>
          match findBrackets pdf br with
          | none => failed pdf none "ByteRange placeholder is malformed"
          | some (brOpen, brClose) =>
              let fill := rangeText (hexStart - 1) (hexEnd + 1) (pdf.length - (hexEnd + 1))
              let span := brClose - brOpen + 1
              if fill.length > span then
                failed pdf none "ByteRange does not fit the reserved space"
              else
                signGap opt pdf (splice pdf brOpen span (padded fill span 0x20)) hexStart hexEnd

end Kura.Engine.Sign
