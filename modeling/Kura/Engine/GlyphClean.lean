import Kura.Engine.CodePieces
import Kura.Engine.InlineImage
import Kura.Engine.TextState

/-!
# Glyphs that are missing

The filter that removes from a content stream the codes without a glyph, the
operators that name what the resources do not have and text without a font, and
that replaces invalid languages. Long streams that seem to need nothing of this
are not run through it.

## Implementation notes

A stream is given by its tokens, and its bytes are the texts of these. What is
written are tokens too; a string is written from its value. The character map of
a font and its ranges are one field, `cmap`, as they are set together.
-/

namespace Kura.Engine.GlyphClean

open CMap (Code Codespace)
open Text (Operation isOperator lastName)

/-- What is known of the glyphs of a font. -/
structure FontGlyphInfo where
  cid2byte : Bool := false
  cmap : Option Codespace := none
  badCodes : List Code := []
  bad : List Nat := []
  bad_ne_nil : badCodes ≠ [] → bad ≠ [] := by simp

/-- The resources that operators name. -/
structure Resources where
  fonts : List (Bytes × FontGlyphInfo) := []
  xobjects : List Bytes := []
  gstates : List Bytes := []
  shadings : List Bytes := []
  colorSpaces : List Bytes := []

/-- The colour spaces without a resource. -/
def kDevice : List Bytes := ["/DeviceRGB", "/DeviceCMYK", "/DeviceGray", "/Pattern"].map lit

/-- The names that an operator may have, if it is one whose name is looked up. -/
def Resources.domain (res : Resources) (op : Bytes) : Option (List Bytes) :=
  if op = lit "cs" ∨ op = lit "CS" then some (kDevice ++ res.colorSpaces)
  else if op = lit "Do" then some res.xobjects
  else if op = lit "gs" then some res.gstates
  else if op = lit "sh" then some res.shadings
  else none

/-- The bytes of a string without its bad codes, and how many there were. -/
def cleanCodes (cs : Codespace) (badCodes : List Code) (v : Bytes) :
    Bytes × Nat :=
  let isBad := fun place => badCodes.contains (cs.cleanPiece place).code
  (((cs.cuts v).filter fun place => !isBad place).flatMap fun place =>
      place.take (cs.cleanPiece place).len,
    (cs.cuts v).countP isBad)

/-- The same for codes of two bytes; a byte that is left over is left out. -/
def cleanPairs (bad : List Nat) : Bytes → Bytes × Nat
  | a :: b :: rest =>
      let more := cleanPairs bad rest
      if bad.contains (256 * a.toNat + b.toNat) then (more.1, more.2 + 1)
      else (a :: b :: more.1, more.2)
  | _ => ([], 0)

/-- A string without the codes that are bad in a font, and how many there were. -/
def FontGlyphInfo.clean (f : FontGlyphInfo) (v : Bytes) : Bytes × Nat :=
  match f.cmap, f.badCodes.isEmpty with
  | some cs, false => cleanCodes cs f.badCodes v
  | _, _ =>
      if f.bad.isEmpty then (v, 0)
      else if f.cid2byte then cleanPairs f.bad v
      else (v.filter fun c => !f.bad.contains c.toNat, v.countP fun c => f.bad.contains c.toNat)

/-- A string operand without bad codes. -/
def FontGlyphInfo.cleanToken (f : FontGlyphInfo) (t : Token) : Token :=
  if t.type = .string ∧ (f.clean t.value).1 ≠ t.value then .plain .string (f.clean t.value).1 else t

/-- How many codes of an operand are bad. -/
def FontGlyphInfo.badIn (f : FontGlyphInfo) (t : Token) : Nat :=
  if t.type = .string then (f.clean t.value).2 else 0

/-- Letters. -/
def isAlpha (c : UInt8) : Bool := (0x41 ≤ c && c ≤ 0x5A) || (0x61 ≤ c && c ≤ 0x7A)

/-- Tests one part of a language tag. -/
def segmentOk (seg : Nat) (w : Bytes) : Bool :=
  let alphas := w.countP isAlpha
  let digits := w.countP isDigit
  1 ≤ w.length && w.length ≤ 8 && w.all (fun c => isAlpha c || isDigit c) &&
    !(seg = 0 && 0 < digits) && !(0 < seg && w.length = 2 && 0 < digits) &&
    !(0 < seg && w.length = 3 && 0 < alphas && 0 < digits)

/-- Tests a language tag; a hyphen at its end does no harm. -/
def langOk (s : Bytes) : Bool :=
  let parts := s.splitOn 0x2D
  let parts := if parts.getLast? = some [] then parts.dropLast else parts
  s ≠ [] && parts.zipIdx.all fun p => segmentOk p.2 p.1

/-- Replaces the invalid languages among operands and counts them. The flag says that the last
name was `/Lang` and no string has followed. -/
def fixLangs (look : Bool) : List Token → List Token × Nat
  | [] => ([], 0)
  | t :: rest =>
      if t.type = .string then
        let more := fixLangs false rest
        if look && !langOk t.value then (.plain .string (lit "en") :: more.1, more.2 + 1)
        else (t :: more.1, more.2)
      else
        let more := fixLangs (if t.type = .name then t.value = lit "/Lang" else look) rest
        (t :: more.1, more.2)

/-- The state of the filter, what it has written and what it has counted. -/
structure GlyphCleanFilter where
  cur : Option FontGlyphInfo := none
  fontSet : Bool := false
  saved : List (Option FontGlyphInfo × Bool) := []
  operands : List Token := []
  out : List Token := []
  dropped : Nat := 0
  refDropped : Nat := 0
  langFixed : Nat := 0

/-- Operators that open or mark marked content. -/
def marks (op : Bytes) : Bool := op ∈ ["BDC", "BMC", "DP"].map lit

/-- Operators that show text. -/
def shows (op : Bytes) : Bool := op ∈ ["Tj", "TJ", "'", "\""].map lit

/-- How a token is written. -/
def written (q : Qpdf) (t : Token) : Token := if t.type = .string then q.stringToken t.value else t

namespace GlyphCleanFilter

variable (q : Qpdf) (res : Resources) (s : GlyphCleanFilter) (token : Token)

/-- Writes the operands and the operator. -/
def keep : GlyphCleanFilter :=
  { s with out := s.out ++ s.operands.map (written q) ++ [token], operands := [] }

/-- Leaves the operands and the operator out. -/
def drop : GlyphCleanFilter := { s with operands := [], refDropped := s.refDropped + 1 }

/-- Replaces invalid languages. -/
def mark : GlyphCleanFilter :=
  { s with
    operands := (fixLangs false s.operands).1
    langFixed := s.langFixed + (fixLangs false s.operands).2 }

/-- Saves or restores the font. -/
def saveRestore : GlyphCleanFilter :=
  if token.value = lit "q" then { s with saved := (s.cur, s.fontSet) :: s.saved }
  else if token.value = lit "Q" then
    match s.saved with
    | [] => s
    | (cur, fontSet) :: rest => { s with cur := cur, fontSet := fontSet, saved := rest }
  else s

/-- Sets the font. -/
def setFont : GlyphCleanFilter :=
  let name := lastName s.operands
  if name ≠ [] ∧ res.fonts.lookup name = none then { s.drop with cur := none, fontSet := false }
  else { s with cur := res.fonts.lookup name, fontSet := name ≠ [] }.keep q token

/-- Shows text. -/
def showText : GlyphCleanFilter :=
  if s.fontSet then
    match s.cur with
    | none => s.keep q token
    | some f =>
        { s with
          operands := s.operands.map f.cleanToken
          dropped := s.dropped + (s.operands.map f.badIn).sum }.keep q token
  else s.drop

/-- An operator. -/
def operator : GlyphCleanFilter :=
  if marks token.value then s.mark.keep q token
  else
    let s := s.saveRestore token
    if token.value = lit "Tf" then s.setFont q res token
    else
      match res.domain token.value with
      | some names =>
          if lastName s.operands ≠ [] ∧ lastName s.operands ∉ names then s.drop
          else s.keep q token
      | none => if shows token.value then s.showText q token else s.keep q token

def handleToken : GlyphCleanFilter :=
  if isOperator token then s.operator q res token
  else { s with operands := s.operands ++ [token] }

def handleEOF : GlyphCleanFilter :=
  { s with out := s.out ++ s.operands.map (written q), operands := [] }

end GlyphCleanFilter

/-- The filter before the end of a stream. -/
def filtered (q : Qpdf) (res : Resources) (ts : List Token) : GlyphCleanFilter :=
  ts.foldl (GlyphCleanFilter.handleToken q res) {}

/-- The filter behind a stream. -/
def filterContents (q : Qpdf) (res : Resources) (ts : List Token) : GlyphCleanFilter :=
  (filtered q res ts).handleEOF q

/-- The bytes of a stream. -/
def rawBytes (ts : List Token) : Bytes := ts.flatMap Token.raw

/-- Whether a stream names a language or a font with bad codes. -/
def mentions (res : Resources) (ts : List Token) : Bool :=
  lit "/Lang" <:+: rawBytes ts || res.fonts.any fun kv =>
    !kv.2.bad.isEmpty && kv.1 <:+: rawBytes ts

/-- Whether a stream is not run through the filter. -/
def skips (res : Resources) (ts : List Token) : Bool :=
  65536 < (rawBytes ts).length && !mentions res ts

end Kura.Engine.GlyphClean
