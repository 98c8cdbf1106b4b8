import Kura.Engine.InlineImage

/-!
# The content filter

The filter that repairs a content stream token by token. The checker runs the
same filter, throws the output away and counts the violations.

## Implementation notes

The record has the members of the filter, with the tokens written so far and
the violations counted so far. A name is held back until the next token that
is no white space. The tests of the source on the type of a token are one
match; what remains of a test in a branch stands in the order of the source.
-/

namespace Kura.Engine

/-- The rules a stream is filtered by. -/
structure FixMode where
  pdf14 : Bool
  limits23 : Bool
  scrubActualText : Bool

namespace FixMode

/-- Tests whether the implementation limits count. -/
def limits (m : FixMode) : Bool := m.pdf14 || m.limits23

/-- Longest string. -/
def maxStr (m : FixMode) : Nat := if m.pdf14 then kMaxString1 else kMaxString23

/-- Largest real. -/
def maxReal (m : FixMode) : Rat := if m.pdf14 then kMaxReal else kMaxReal2

end FixMode

/-- The filter between two tokens. -/
structure ContentFixFilter where
  nameSinceOp : Bool := false
  lastNameVal : Bytes := []
  usedNamed : Bool := false
  inImageDict : Bool := false
  swallowEI : Bool := false
  heldName : Option Token := none
  heldTrail : List Token := []
  qDepth : Nat := 0
  qSuppressed : Nat := 0
  arrDepth : Nat := 0
  dictDepth : Nat := 0
  iiToks : List Token := []
  out : List Token := []
  violations : Nat := 0
  iiFixed : Nat := 0
  puaFixed : Nat := 0

namespace ContentFixFilter

variable (q : Qpdf) (m : FixMode) (s : ContentFixFilter) (t : Token)

/-- Writes tokens. -/
def write (ts : List Token) : ContentFixFilter := { s with out := s.out ++ ts }

/-- Counts violations. -/
def violation (n : Nat) : ContentFixFilter := { s with violations := s.violations + n }

/-- Writes the name held back with the white space after it. -/
def flushHeld : ContentFixFilter :=
  { s with out := s.out ++ s.heldName.toList ++ s.heldTrail, heldName := none, heldTrail := [] }

/-- A token inside the dictionary of an image. -/
def imageToken : ContentFixFilter :=
  if t.isWord "ID" then s
  else if t.type = .inlineImage then
    let r := processInlineImage q s.iiToks t.raw
    { s with
      iiToks := []
      inImageDict := false
      swallowEI := true
      out := s.out ++ r.written
      violations := s.violations + r.violations
      iiFixed := s.iiFixed + r.fixed.toNat }
  else if t.isWord "EI" then
    { s with
      iiToks := []
      inImageDict := false
      out := s.out ++ cutImageTokens s.iiToks }
  else { s with iiToks := s.iiToks ++ [t] }

/-- Notes whether an operator refers to a resource by name. -/
def noteName : ContentFixFilter :=
  if t.type = .word then
    let named := t.value ∈ ["Tf", "Do", "gs", "sh", "scn", "SCN"].map lit
    let space := t.value = lit "cs" ∨ t.value = lit "CS"
    let device := s.lastNameVal ∈ ["/DeviceRGB", "/DeviceCMYK", "/DeviceGray", "/Pattern"].map lit
    { s with
      usedNamed := s.usedNamed || (s.nameSinceOp && decide (named ∨ space ∧ ¬ device))
      nameSinceOp := false }
  else if t.type = .name then { s with nameSinceOp := true, lastNameVal := t.value }
  else s

/-- Holds a name back, shortened if it is too long. -/
def nameToken : ContentFixFilter :=
  let s := s.flushHeld
  if m.limits ∧ kMaxName + 1 < t.value.length then
    { s.violation 1 with
      heldName := some (q.nameToken (lit "/" ++ shortenName (t.value.drop 1))) }
  else { s with heldName := some t }

/-- An operator that is neither `q` nor `Q`, or is one that counts. -/
def operator : ContentFixFilter :=
  match t.isWord "ri", s.heldName with
  | true, some n =>
      if n.value ∈ kValidRi then s.flushHeld.write [t]
      else
        ({ s.violation 1 with
          heldName := some (q.nameToken (lit "/RelativeColorimetric")) }).flushHeld.write [t]
  | _, _ =>
      if t.isWord "BI" then { s.flushHeld with inImageDict := true, iiToks := [] }
      else if t.value ∈ kValidOps then s.flushHeld.write [t]
      else (s.violation 1).flushHeld

/-- An operator; those that nest too deeply are dropped with their counterparts. -/
def wordToken : ContentFixFilter :=
  if m.limits ∧ t.value = lit "q" then
    if 28 ≤ s.qDepth then { s.violation 1 with qSuppressed := s.qSuppressed + 1 }.flushHeld
    else operator q { s with qDepth := s.qDepth + 1 } t
  else if m.limits ∧ t.value = lit "Q" then
    if 0 < s.qSuppressed then { s with qSuppressed := s.qSuppressed - 1 }.flushHeld
    else operator q { s with qDepth := s.qDepth - 1 } t
  else operator q s t

/-- White space and comments. -/
def blankToken : ContentFixFilter :=
  if s.heldName.isSome then { s with heldTrail := s.heldTrail ++ [t] }
  else s.flushHeld.write [t]

/-- Tests whether a string is replacement text with private use characters. -/
def scrubs : Bool :=
  m.scrubActualText && s.heldName.any (fun n => n.value = lit "/ActualText") &&
    (stripPuaUtf8 (q.getUTF8Value t.value)).2

/-- A string. -/
def stringToken : ContentFixFilter :=
  if s.scrubs q m t then
    let cleaned := (stripPuaUtf8 (q.getUTF8Value t.value)).1
    let s := s.flushHeld.write [q.stringToken (q.newUnicodeString cleaned)]
    { s.violation 1 with puaFixed := s.puaFixed + 1 }
  else
    let s := (s.violation (hexFaults t.raw)).flushHeld
    if m.limits then
      if m.maxStr < t.value.length then
        (s.violation 1).write [q.stringToken (t.value.take m.maxStr)]
      else s.write [q.stringToken t.value]
    else s.write [t]

/-- The string that is written for an invalid token that looks like one. -/
def hexToken (raw : Bytes) : Token :=
  ⟨.string, unhex (hexDigits raw), lit "<" ++ hexDigits raw ++ lit ">"⟩

/-- An invalid token. -/
def badToken : ContentFixFilter :=
  let s := (s.violation 1).flushHeld
  if isHexText t.raw then s.write [hexToken t.raw] else s

/-- The number written for a real, and the violations. -/
def fixReal : Token × Nat :=
  let v := strtod t.value
  let bound := Double.fin m.maxReal
  if ¬ m.limits then (t, 0)
  else if bound.lt v ∨ v.lt bound.neg then
    let clamped := if Double.lt (.fin 0) v then bound else bound.neg
    (.plain .real (realText clamped), 1)
  else if v ≠ .fin 0 ∧ Double.lt (.fin (-kMinDenorm)) v ∧ v.lt (.fin kMinDenorm) then
    (.plain .integer (lit "0"), m.pdf14.toNat)
  else (t, 0)

/-- The number written for an integer, and the violations. -/
def fixInteger : Token × Nat :=
  let v := strtoll t.value
  if m.limits ∧ (kMaxInt < v ∨ v < -kMaxInt) then
    (.plain .integer (toString10 (if 0 < v then kMaxInt else -kMaxInt)), 1)
  else (t, 0)

/-- A token outside of images. -/
def contentToken : ContentFixFilter :=
  let s := s.noteName t
  match t.type with
  | .name => s.nameToken q m t
  | .word => s.wordToken q m t
  | .space | .comment => s.blankToken t
  | .string => s.stringToken q m t
  | .bad => s.badToken t
  | .arrayOpen => { s with arrDepth := s.arrDepth + 1 }.flushHeld.write [t]
  | .arrayClose =>
      if s.arrDepth = 0 then (s.violation 1).flushHeld
      else { s with arrDepth := s.arrDepth - 1 }.flushHeld.write [t]
  | .dictOpen => { s with dictDepth := s.dictDepth + 1 }.flushHeld.write [t]
  | .dictClose =>
      if s.dictDepth = 0 then (s.violation 1).flushHeld
      else { s with dictDepth := s.dictDepth - 1 }.flushHeld.write [t]
  | .real => (s.flushHeld.violation (fixReal m t).2).write [(fixReal m t).1]
  | .integer => (s.flushHeld.violation (fixInteger m t).2).write [(fixInteger m t).1]
  | .braceOpen | .braceClose | .null | .bool | .inlineImage => s.flushHeld.write [t]

/-- One token of the stream. -/
def handleToken : ContentFixFilter :=
  if s.inImageDict then s.imageToken q t
  else if s.swallowEI then
    if t.type = .space then s
    else if t.isWord "EI" then { s with swallowEI := false }
    else contentToken q m { s with swallowEI := false } t
  else s.contentToken q m t

/-- The end of the stream closes what is open. -/
def handleEOF : ContentFixFilter :=
  let s := s.flushHeld
  { s with
    arrDepth := 0
    dictDepth := 0
    out := s.out ++ List.replicate s.arrDepth (.plain .arrayClose (lit "]")) ++
      List.replicate s.dictDepth (.plain .dictClose (lit ">>")) }

/-- The filter after some tokens. -/
def run (toks : List Token) : ContentFixFilter := toks.foldl (handleToken q m) {}

/-- The filter after a whole stream. -/
def filterTokens (toks : List Token) : ContentFixFilter := (run q m toks).handleEOF

end ContentFixFilter

end Kura.Engine
