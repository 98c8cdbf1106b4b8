import Kura.Base.Reading
import Kura.Engine.Content

/-!
# Checks of a file as it was written

The checks that read the bytes of a file instead of its objects: the header, the
cross-reference tables and what stands around the objects at the offsets of the
cross-reference table.

## Implementation notes

A function has no result if it reads a byte outside of the file or if its loops
need more than the given rounds. A comparison reads all of the bytes it may look
at. Places are natural numbers; the place before the first one does not exist.
-/

namespace Kura.Engine.FileScan

open Base (beforeAt cand cor loop sameAt scanWhile sliceAt)

variable (d : Bytes)

/-- A test of the byte at a place. -/
def byteIs (p : UInt8 → Bool) (i : Nat) : Option Bool := (d[i]?).map p

/-- A test of the byte before a place. -/
def beforeIs (p : UInt8 → Bool) (i : Nat) : Option Bool := (beforeAt d i).map p

/-- A test of the byte at a place that may be behind the file. -/
def byteAtIs (p : UInt8 → Bool) (i : Nat) : Option Bool :=
  cand (some (i < d.length)) (byteIs d p i)

def isEol (c : UInt8) : Bool := c == 0x0D || c == 0x0A

def pdfWs (c : UInt8) : Bool := c == 0 || c == 9 || c == 10 || c == 12 || c == 13 || c == 32

def pdfDelim (c : UInt8) : Bool := pdfWs c || (lit "()<>[]\x7b\x7d/%").contains c

/-- The length of the line ending at a place. -/
def eolLen (i : Nat) : Option Nat := do
  if ← byteAtIs d (· == 0x0D) i then
    if ← byteAtIs d (· == 0x0A) (i + 1) then some 2 else some 1
  else if ← byteAtIs d (· == 0x0A) i then some 1
  else some 0

/-- The first occurrence of a pattern from a place on. -/
def findBytes (i : Nat) (pat : Bytes) : Option (Option Nat) :=
  if i ≤ d.length then some (Base.findFrom pat d i) else none

/-- Whether the version of the header goes with a part of the standard. -/
def versionOk (part : Nat) : Option Bool :=
  if 4 ≤ part then byteIs d (· == 0x32) 5
  else cand (byteIs d (· == 0x31) 5) (byteIs d (· ≤ 0x37) 7)

/-- What is wrong with the header; empty if nothing is. -/
def headerProblem (part : Nat) : Option String := do
  if ← cor (some (d.length < 8)) (cor ((sameAt d 0 (lit "%PDF-")).map not)
      (cor ((byteAtIs d isDigit 5).map not)
        (cor (byteIs d (· != 0x2E) 6) ((byteAtIs d isDigit 7).map not)))) then
    some "file header does not start with %PDF-n.n at byte 0"
  else if ← cand (some (2 ≤ part)) (cor ((versionOk d part).map not)
      ((eolLen d 8).map (· == 0))) then
    some "file header version or line ending does not conform"
  else
    let eol ← scanWhile (fun c => !isEol c) d 8
    let i := eol + (← eolLen d eol)
    if ← cor (some (d.length < i + 5)) (byteIs d (· != 0x25) i) then
      some "file header is not followed by a binary comment line"
    else if ← [1, 2, 3, 4].foldr (fun k rest => cor (byteIs d (· < 128) (i + k)) rest)
        (some false) then
      some "binary comment after the file header has fewer than four high bytes"
    else some ""

/-- The words of a line. -/
def fields (line : Bytes) : List Bytes := (line.splitOnP pdfWs).filter (· ≠ [])

/-- Whether a line may be one with two numbers. -/
def separated (part : Nat) (line : Bytes) : Bool :=
  match fields line with
  | [a, b] => (a ++ lit " " ++ b).isPrefixOf line || 3 < part
  | _ => true

/-- One line of a table: what is wrong with the table, or where the next line starts. -/
def tableLine (part : Nat) (j : Nat) : Option (String ⊕ Nat) := do
  if ← cand (some (j < d.length)) ((sameAt d j (lit "trailer")).map not) then
    let le ← scanWhile (fun c => !isEol c) d j
    let line ← sliceAt d j le
    if !separated part line then
      some (.inl
        "a cross-reference subsection header does not separate its numbers with a single space")
    else if fields line = [] ∧ le = j then some (.inr (j + 1))
    else
      let e ← eolLen d le
      if le = d.length then some (.inl "") else some (.inr (le + e))
  else some (.inl "")

/-- What is wrong with the table at a place; empty if nothing is or if there is none. -/
def tableProblem (rounds part i : Nat) : Option String := do
  if ← (sameAt d i (lit "xref")).map not then some ""
  else if ← cand (some (0 < i)) (cand (beforeIs d (· != 0x0A) i) (beforeIs d (· != 0x0D) i)) then
    some ""
  else if ← cand (some (9 ≤ i)) (sameAt d (i - 9) (lit "startxref")) then some ""
  else
    let j := i + 4
    let e ← eolLen d j
    if ← cand (some (j < d.length)) (cand (byteIs d (fun c => !isDigit c) j)
        (byteIs d (fun c => !pdfWs c) j)) then
      some ""
    else if ← cor (some (e = 0)) (cor (some (d.length ≤ j + e))
        (byteIs d (fun c => !isDigit c) (j + e))) then
      some "the xref keyword is not followed by a single EOL marker"
    else loop (tableLine d part) rounds (j + e)

/-- The first problem at some places. -/
def firstProblem (problemAt : Nat → Option String) : List Nat → Option String
  | [] => some ""
  | i :: is => do
      let problem ← problemAt i
      if problem = "" then firstProblem problemAt is else some problem

/-- What is wrong with the tables; empty if nothing is. -/
def xrefProblem (rounds part : Nat) : Option String :=
  firstProblem (tableProblem d rounds part) (List.range (d.length + 1 - 4))

/-- Whether the header of an object with a number is at a place. -/
def headerAt (num : Bytes) (k : Nat) : Option Bool := do
  if ← cor (some (d.length ≤ k + num.length)) ((sameAt d k num).map not) then some false
  else if ← cand (some (0 < k)) (beforeIs d isDigit k) then some false
  else
    let m := k + num.length
    if ← cor (some (d.length ≤ m)) (byteIs d (fun c => !pdfWs c) m) then some false
    else
      let m ← scanWhile pdfWs d m
      let m ← scanWhile isDigit d m
      let m ← scanWhile pdfWs d m
      cand (some (m + 3 ≤ d.length)) (sameAt d m (lit "obj"))

/-- The header of an object that is some bytes away from a place. -/
def nearHeader (num : Bytes) (i : Nat) : List Nat → Option (Option Nat)
  | [] => some none
  | delta :: deltas => do
      if ← cand (some (delta ≤ i)) (headerAt d num (i - delta)) then some (some (i - delta))
      else if ← headerAt d num (i + delta) then some (some (i + delta))
      else nearHeader num i deltas

/-- The header of an object at a place or near to it. -/
def findHeader (num : Bytes) (i : Nat) : Option (Option Nat) := do
  if ← headerAt d num i then some (some i) else nearHeader d num i (List.range' 1 32)

/-- The header of an object: whether it is in order, and the end of its second number. -/
def objectHead (i : Nat) : Option (Bool × Nat) := do
  let p ← scanWhile isDigit d i
  let startOk ← cand (some (i < p)) (cand (some (p < d.length)) (cand (byteIs d pdfWs p)
    (cand (byteIs d (fun c => !pdfWs c) (p + 1))
      (cor (some (i = 0)) (cor (beforeIs d (· == 0x0A) i) (beforeIs d (· == 0x0D) i))))))
  let q ← scanWhile isDigit d (p + 1)
  let headOk ← cand (some startOk) (cand (some (p + 1 < q)) (cand (some (q + 4 ≤ d.length))
    (cand (byteIs d pdfWs q) (sameAt d (q + 1) (lit "obj")))))
  some (headOk, q)

/-- One byte of a string in parentheses: its end, or the next place and how many are open. -/
def parenStep (s : Nat × Int) : Option (Nat ⊕ Nat × Int) := do
  if d.length ≤ s.1 then some (.inl s.1)
  else
    let c ← d[s.1]?
    if c = 0x5C then some (.inr (s.1 + 2, s.2))
    else
      let depth := if c = 0x28 then s.2 + 1 else s.2
      if c = 0x29 ∧ depth - 1 = 0 then some (.inl s.1)
      else some (.inr (s.1 + 1, if c = 0x29 then depth - 1 else depth))

/-- A hexadecimal string that is read: the place, the digits and whether something else stood
there. -/
structure HexScan where
  place : Nat
  digits : Nat := 0
  bad : Bool := false

/-- One byte of a hexadecimal string. -/
def hexStep (h : HexScan) : Option (HexScan ⊕ HexScan) := do
  if ← byteAtIs d (· != 0x3E) h.place then
    let c ← d[h.place]?
    if isXDigit c then some (.inr { h with place := h.place + 1, digits := h.digits + 1 })
    else some (.inr { h with place := h.place + 1, bad := h.bad || !pdfWs c })
  else some (.inl h)

/-- An object that is read: the place, whether a hexadecimal string was bad, and how many streams
were. -/
structure BodyScan where
  place : Nat
  hexBad : Bool := false
  badStream : Nat := 0

/-- Whether the data of a stream that starts at a place have the length given for them. -/
def lengthOk (len : Option Int) (s : Nat) : Option Bool :=
  match len with
  | none => some false
  | some l =>
      let e := (s + l.toNat) % 2 ^ 64
      if 0 ≤ l ∧ e ≤ d.length then do
        let el ← eolLen d e
        cand (some (e + el + 9 ≤ d.length)) (sameAt d (e + el) (lit "endstream"))
      else some false

/-- The data of a stream whose keyword is at a place. -/
def streamStep (len : Option Int) (b : BodyScan) : Option (BodyScan ⊕ BodyScan) := do
  let s := b.place + 6
  let kwOk ← cand (some (s < d.length)) (cor (byteIs d (· == 0x0A) s)
    (cand (byteIs d (· == 0x0D) s) (byteAtIs d (· == 0x0A) (s + 1))))
  let s := s + (← eolLen d s)
  let lenOk ← lengthOk d len s
  let b := if !kwOk || !lenOk then { b with badStream := b.badStream + 1 } else b
  match ← findBytes d s (lit "endstream") with
  | none => some (.inl b)
  | some es => some (.inr { b with place := es + 9 })

/-- A keyword at a place. -/
def keywordAt (w : String) (i : Nat) : Option Bool :=
  cand (some (i + (lit w).length ≤ d.length)) (sameAt d i (lit w))

/-- One piece of an object. -/
def bodyStep (rounds : Nat) (len : Option Int) (b : BodyScan) : Option (BodyScan ⊕ BodyScan) := do
  if d.length ≤ b.place then some (.inl b)
  else
    let c ← d[b.place]?
    if c = 0x25 then
      let e ← scanWhile (fun c => !isEol c) d b.place
      some (.inr { b with place := e })
    else if c = 0x28 then
      let e ← loop (parenStep d) rounds (b.place, 0)
      some (.inr { b with place := e + 1 })
    else if ← cand (some (c = 0x3C)) (byteAtIs d (· == 0x3C) (b.place + 1)) then
      some (.inr { b with place := b.place + 2 })
    else if c = 0x3C then
      let h ← loop (hexStep d) rounds ⟨b.place + 1, 0, false⟩
      some (.inr { b with
        place := h.place + 1
        hexBad := b.hexBad || h.bad || h.digits % 2 = 1 })
    else if ← cand (some (c = 0x73)) (cand (keywordAt d "stream" b.place)
        (cor (some (b.place = 0)) (beforeIs d pdfDelim b.place))) then
      streamStep d len b
    else if ← cand (some (c = 0x65)) (keywordAt d "endobj" b.place) then some (.inl b)
    else if ← cand (some (c = 0x6F)) (cand (keywordAt d "obj" b.place)
        (beforeIs d pdfDelim b.place)) then
      some (.inl b)
    else some (.inr { b with place := b.place + 1 })

/-- What was found wrong with the objects. -/
structure Faults where
  badObj : Nat := 0
  badStream : Nat := 0
  badHex : Nat := 0

/-- Whether `endobj` at a place stands on a line of its own; true if it is not there. -/
def endOk (q i : Nat) : Option Bool := do
  if ← keywordAt d "endobj" i then
    let before ← cand (some (0 < i)) (cor (beforeIs d (· == 0x0A) i) (beforeIs d (· == 0x0D) i))
    let after ← cor (some (i + 6 = d.length)) ((eolLen d (i + 6)).map (· != 0))
    let objEol ← (eolLen d (q + 4)).map (· != 0)
    some (before && after && objEol)
  else some true

/-- An entry of the cross-reference table. -/
structure XRefEntry where
  obj : Nat
  type : Nat
  offset : Int

/-- The checks of the object at an entry, with the length its stream is given. -/
def checkEntry (rounds : Nat) (length : Nat → Option Int) (f : Faults) (x : XRefEntry) :
    Option Faults := do
  if x.type ≠ 1 ∨ x.offset < 0 ∨ d.length ≤ x.offset.toNat then some f
  else
    match ← findHeader d (decimal x.obj) x.offset.toNat with
    | none => some f
    | some i =>
        let (headOk, q) ← objectHead d i
        let b ← loop (bodyStep d rounds (length x.obj)) rounds ⟨q + 4, false, 0⟩
        let ok ← endOk d q b.place
        some {
          badObj := f.badObj + (!headOk).toNat + (!ok).toNat
          badStream := f.badStream + b.badStream
          badHex := f.badHex + b.hexBad.toNat }

/-- The checks of all objects of a cross-reference table. -/
def objectScan (rounds : Nat) (length : Nat → Option Int) (xref : List XRefEntry) : Option Faults :=
  xref.foldlM (checkEntry d rounds length) {}

end Kura.Engine.FileScan
