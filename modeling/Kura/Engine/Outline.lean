import Kura.Engine.InlineImage
import Kura.Engine.TextState

/-!
# Text as outlines

The filter that paints the text of some fonts as paths. A text object in which
such a font shows text is replaced by its paths and the operators of it that
have nothing to do with text, and by operators that set the text state that it
left. Other text objects are copied.

## Implementation notes

What is written is a list of tokens that are copied and of operators that are
written with exact numbers; the blanks between them are left out. FreeType is a
parameter: the glyph of a code, its width and the contours of a glyph are given
with a font. The name that qpdf reads where a name was written without escapes is
a parameter too.
-/

namespace Kura.Engine.Outline

open Text (TextState Arg Instr arg? truncate TextRun)

/-- A part of a contour. -/
inductive Segment where
  | moveTo (x y : ℚ)
  | lineTo (x y : ℚ)
  | conicTo (qx qy x y : ℚ)
  | cubicTo (x1 y1 x2 y2 x y : ℚ)

/-- A font with its glyphs. -/
structure OutFont where
  loadable : Bool := false
  cid : Bool := false
  vertical : Bool := false
  flagged : Bool := false
  upem : ℚ := 1000
  gidForCode : Nat → Nat := fun _ => 0
  widthForCode : Nat → Nat → ℚ := fun _ _ => 0
  /-- The contours of a glyph, if it has some that can be followed. -/
  decompose : Nat → Option (List Segment) := fun _ => none

/-- The fonts of a page. -/
abbrev Fonts := List (Bytes × OutFont)

/-- The font of a name. -/
def fontOf (fonts : Fonts) (name : Bytes) : Option OutFont := fonts.lookup name

/-- What is written: a token that is copied, or an operator. -/
inductive Piece where
  | token (t : Token)
  | instr (i : Instr)

/-- An operator with numbers. -/
def numbers (op : String) (args : List ℚ) : Piece := .instr ⟨lit op, args.map .number⟩

def isShowOp (op : Bytes) : Bool := op ∈ ["Tj", "TJ", "'", "\""].map lit

def isTextStateOp (op : Bytes) : Bool :=
  op ∈ ["Tf", "Tc", "Tw", "Tz", "TL", "Ts", "Tr", "Td", "TD", "Tm", "T*"].map lit

/-- An operator with the tokens before it. -/
def instr (op : Bytes) (rawArgs : List Token) : Instr := ⟨op, rawArgs.filterMap arg?⟩

/-- The operators that are followed everywhere. -/
def trackStateOp (st : TextState) (i : Instr) : TextState :=
  if i.op = lit "Tf" ∧ 2 ≤ i.args.length then
    { st with fontName := i.lastName, size := (i.num? 0).getD st.size }
  else if i.op = lit "Tc" ∧ 1 ≤ i.args.length then
    { st with charSpace := (i.num? 0).getD st.charSpace }
  else if i.op = lit "Tw" ∧ 1 ≤ i.args.length then
    { st with wordSpace := (i.num? 0).getD st.wordSpace }
  else if i.op = lit "Tz" ∧ 1 ≤ i.args.length then { st with hscale := (i.num? 0).getD st.hscale }
  else if i.op = lit "TL" ∧ 1 ≤ i.args.length then { st with leading := (i.num? 0).getD st.leading }
  else if i.op = lit "Ts" ∧ 1 ≤ i.args.length then { st with rise := (i.num? 0).getD st.rise }
  else if i.op = lit "Tr" ∧ 1 ≤ i.args.length then
    { st with renderMode := truncate ((i.num? 0).getD st.renderMode) }
  else st

/-- Whether text that is shown with some operands cannot be painted. -/
def unpaintable (of : Option OutFont) (args : List Token) : Bool :=
  (match of with
    | none => true
    | some of => !of.loadable || of.vertical) &&
  args.any fun t => t.type = .string

/-- Whether a font asks for outlines. -/
def isFlagged (of : Option OutFont) : Bool :=
  match of with
  | none => false
  | some of => of.flagged

/-- Whether text is shown that needs outlines, all text being such that can have them. -/
def needsOutline (fonts : Fonts) (sim : TextState) (args : List Token) (need : Bool) :
    List Token → Bool
  | [] => need
  | t :: ts =>
      if t.type ≠ .word then needsOutline fonts sim (args ++ [t]) need ts
      else
        let sim := trackStateOp sim (instr t.value args)
        let of := fontOf fonts sim.fontName
        if isShowOp t.value then
          if unpaintable of args then false
          else needsOutline fonts sim [] (need || isFlagged of) ts
        else needsOutline fonts sim [] need ts

/-- The product of two matrices, the first one being applied first. -/
def mul (m n : Text.Mat) : Text.Mat where
  a := m.a * n.a + m.b * n.c
  b := m.a * n.b + m.b * n.d
  c := m.c * n.a + m.d * n.c
  d := m.c * n.b + m.d * n.d
  e := m.e * n.a + m.f * n.c + n.e
  f := m.e * n.b + m.f * n.d + n.f

/-- What turns the units of a glyph into those of the page. -/
structure GlyphEmitter where
  trm : Text.Mat
  scale : ℚ
  hscale : ℚ

namespace GlyphEmitter

variable (g : GlyphEmitter)

def map (gx gy : ℚ) : ℚ × ℚ :=
  let u := gx * g.scale * g.hscale
  let v := gy * g.scale
  (g.trm.a * u + g.trm.c * v + g.trm.e, g.trm.b * u + g.trm.d * v + g.trm.f)

def point (x y : ℚ) (op : String) : Piece := numbers op [(g.map x y).1, (g.map x y).2]

def curve (x1 y1 x2 y2 x3 y3 : ℚ) : Piece :=
  numbers "c" [(g.map x1 y1).1, (g.map x1 y1).2, (g.map x2 y2).1, (g.map x2 y2).2,
    (g.map x3 y3).1, (g.map x3 y3).2]

/-- The path of a contour from a point on. -/
def path (curX curY : ℚ) : List Segment → List Piece
  | [] => []
  | .moveTo x y :: more => g.point x y "m" :: path x y more
  | .lineTo x y :: more => g.point x y "l" :: path x y more
  | .conicTo qx qy x y :: more =>
      g.curve (curX + 2 / 3 * (qx - curX)) (curY + 2 / 3 * (qy - curY))
        (x + 2 / 3 * (qx - x)) (y + 2 / 3 * (qy - y)) x y :: path x y more
  | .cubicTo x1 y1 x2 y2 x y :: more => g.curve x1 y1 x2 y2 x y :: path x y more

end GlyphEmitter

/-- The codes of a string. -/
def codes (cid : Bool) : Bytes → List Nat
  | [] => []
  | a :: rest =>
      if cid then
        match rest with
        | [] => []
        | b :: rest => (256 * a.toNat + b.toNat) :: codes cid rest
      else a.toNat :: codes cid rest

/-- A text object that is being replaced. -/
structure Block where
  ts : TextState
  tm : Text.Mat := {}
  tlm : Text.Mat := {}
  rawArgs : List Token := []
  out : List Piece := []
  clipOut : List Piece := []
  runs : Nat := 0

/-- The operator that paints a path in a mode. -/
def paintOp (mode : ℤ) : String :=
  if mode = 1 then "S" else if mode = 2 ∨ mode = 5 ∨ mode = 6 then "B" else "f"

namespace Block

def paints (b : Block) : Bool := b.ts.renderMode ∈ [0, 1, 2, 4, 5, 6]

def clips (b : Block) : Bool := 4 ≤ b.ts.renderMode ∧ b.ts.renderMode ≤ 7

/-- The path of a glyph, if it is wanted and there is one. -/
def glyphPath (b : Block) (of : OutFont) (gid : Nat) : Option (List Piece) :=
  let withRise : Text.Mat := { b.tm with
    e := b.tm.c * b.ts.rise + b.tm.e
    f := b.tm.d * b.ts.rise + b.tm.f }
  let em : GlyphEmitter := ⟨withRise, b.ts.size / of.upem, b.ts.hscale / 100⟩
  if (b.paints || b.clips) ∧ gid ≠ 0 then (of.decompose gid).map (em.path 0 0) else none

/-- One code of a string. -/
def emitGlyph (of : OutFont) (b : Block) (code : Nat) : Block :=
  let gid := of.gidForCode code
  let path := b.glyphPath of gid
  let adv := (of.widthForCode code gid / 1000 * b.ts.size + b.ts.charSpace +
    if !of.cid ∧ code = 32 then b.ts.wordSpace else 0) * b.ts.hscale / 100
  { b with
    out := b.out ++
      if b.paints then (path.map (· ++ [numbers (paintOp b.ts.renderMode) []])).getD [] else []
    clipOut := b.clipOut ++ if b.clips then path.getD [] else []
    tm := mul { e := adv } b.tm
    runs := b.runs + 1 }

/-- The text of a string. -/
def emitGlyphRun (of : OutFont) (b : Block) (bytes : Bytes) : Block :=
  (codes of.cid bytes).foldl (emitGlyph of) b

/-- An operand of `TJ`, the flag telling whether it stands in the array. -/
def adjust (of : OutFont) (s : Block × Bool) (a : Token) : Block × Bool :=
  match a.type with
  | .arrayOpen => (s.1, true)
  | .arrayClose => (s.1, false)
  | .string => (emitGlyphRun of s.1 a.value, s.2)
  | .integer | .real =>
      if s.2 then
        let tx := -Text.exactNumber a.value / 1000 * s.1.ts.size * s.1.ts.hscale / 100
        ({ s.1 with tm := mul { e := tx } s.1.tm }, s.2)
      else s
  | _ => s

/-- The operands of an operator that shows text. -/
def showArgs (of : OutFont) (b : Block) (op : Bytes) (args : List Token) : Block :=
  if op = lit "TJ" then (args.foldl (adjust of) (b, false)).1
  else (args.filter fun a => a.type = .string).foldl (fun b a => emitGlyphRun of b a.value) b

/-- The operands of an operator that shows text in a font, if this can be loaded. -/
def paintArgs (of : Option OutFont) (b : Block) (op : Bytes) (args : List Token) : Block :=
  match of with
  | none => b
  | some of => if of.loadable then showArgs of b op args else b

/-- The next line. -/
def nextLine (b : Block) : Block :=
  let tlm := mul { f := -b.ts.leading } b.tlm
  { b with tlm, tm := tlm }

/-- An operator that shows text. -/
def showOp (fonts : Fonts) (b : Block) (i : Instr) (args : List Token) : Block :=
  let of := fontOf fonts b.ts.fontName
  let b :=
    if i.op = lit "\"" ∧ 3 ≤ i.args.length then
      { b with ts := { b.ts with
        wordSpace := (i.num? 2).getD b.ts.wordSpace
        charSpace := (i.num? 1).getD b.ts.charSpace } }
    else b
  let b := if i.op = lit "'" ∨ i.op = lit "\"" then b.nextLine else b
  paintArgs of b i.op args

/-- An operator of the text object with the tokens before it. -/
def operator (fonts : Fonts) (b : Block) (t : Token) : Block :=
  let i := instr t.value b.rawArgs
  let args := b.rawArgs.filter fun a => a.type ≠ .space ∧ a.type ≠ .comment
  let b := { b with rawArgs := [] }
  if i.op = lit "BT" ∨ i.op = lit "ET" then { b with tm := {}, tlm := {} }
  else if i.op = lit "Tm" ∧ 6 ≤ i.args.length then
    let m : Text.Mat := ⟨(i.num? 5).getD 1, (i.num? 4).getD 0, (i.num? 3).getD 0, (i.num? 2).getD 1,
      (i.num? 1).getD 0, (i.num? 0).getD 0⟩
    { b with tm := m, tlm := m }
  else if (i.op = lit "Td" ∨ i.op = lit "TD") ∧ 2 ≤ i.args.length then
    let tx := (i.num? 1).getD 0
    let ty := (i.num? 0).getD 0
    let tlm := mul { e := tx, f := ty } b.tlm
    { b with
      ts := if i.op = lit "TD" then { b.ts with leading := -ty } else b.ts
      tlm, tm := tlm }
  else if i.op = lit "T*" then b.nextLine
  else if isTextStateOp i.op then { b with ts := trackStateOp b.ts i }
  else if isShowOp i.op then b.showOp fonts i args
  else { b with out := b.out ++ args.map .token ++ [.token t] }

def handleToken (fonts : Fonts) (b : Block) (t : Token) : Block :=
  if t.type ≠ .word then { b with rawArgs := b.rawArgs ++ [t] } else b.operator fonts t

end Block

/-- The numbers of a text state. -/
def syncNumbers (ts : TextState) : List Instr :=
  [⟨lit "Tc", [.number ts.charSpace]⟩, ⟨lit "Tw", [.number ts.wordSpace]⟩,
    ⟨lit "Tz", [.number ts.hscale]⟩, ⟨lit "TL", [.number ts.leading]⟩,
    ⟨lit "Ts", [.number ts.rise]⟩, ⟨lit "Tr", [.number ts.renderMode]⟩]

/-- The operators that set a text state. -/
def syncInstrs (ts : TextState) : List Instr :=
  if ts.fontName = [] then syncNumbers ts
  else ⟨lit "Tf", [.name ts.fontName, .number ts.size]⟩ :: syncNumbers ts

/-- What is written of them. -/
def sync (ts : TextState) : List Piece := (syncInstrs ts).map .instr

/-- The filter. -/
structure OutlineFilter where
  ts : TextState := {}
  gsStack : List TextState := []
  buffering : Bool := false
  buffer : List Token := []
  operands : List Token := []
  runs : Nat := 0
  touched : Bool := false
  out : List Piece := []

/-- How a token is written. -/
def writeToken (q : Qpdf) (t : Token) : Token :=
  if t.type = .string then q.stringToken t.value else t

namespace OutlineFilter

variable (q : Qpdf) (fonts : Fonts) (s : OutlineFilter) (token : Token)

def write (ts : List Token) : OutlineFilter :=
  { s with out := s.out ++ ts.map fun t => .token (writeToken q t) }

def flushOperands : OutlineFilter := { s.write q s.operands with operands := [] }

/-- The text state behind tokens that are copied. -/
def copyState (ts : TextState) (args : List Token) : List Token → TextState
  | [] => ts
  | t :: rest =>
      if t.type ≠ .word then copyState ts (args ++ [t]) rest
      else copyState (trackStateOp ts (instr t.value args)) [] rest

def blockNeedsOutline : Bool := needsOutline fonts s.ts [] false s.buffer

def finishBlock : OutlineFilter :=
  if s.blockNeedsOutline fonts then
    let b := s.buffer.foldl (Block.handleToken fonts) { ts := s.ts }
    let clip := if b.clipOut.isEmpty then [] else b.clipOut ++ [numbers "W" [], numbers "n" []]
    { s with
      ts := b.ts
      runs := s.runs + b.runs
      touched := true
      out := s.out ++ b.out ++ clip ++ sync b.ts }
  else { s.write q s.buffer with ts := copyState s.ts [] s.buffer }

/-- An operator outside of text objects. -/
def operator : OutlineFilter :=
  if token.value = lit "BT" then { s.flushOperands q with buffering := true, buffer := [token] }
  else
    let s := { s with ts := trackStateOp s.ts (instr token.value s.operands) }
    let s :=
      if token.value = lit "q" then { s with gsStack := s.ts :: s.gsStack }
      else if token.value = lit "Q" then
        match s.gsStack with
        | [] => s
        | ts :: rest => { s with ts, gsStack := rest }
      else s
    (s.flushOperands q).write q [token]

def handleToken : OutlineFilter :=
  if s.buffering then
    let s := { s with buffer := s.buffer ++ [token] }
    if token.isWord "ET" then { s.finishBlock q fonts with buffering := false, buffer := [] }
    else s
  else if token.type ≠ .word then { s with operands := s.operands ++ [token] }
  else s.operator q token

def handleEOF : OutlineFilter :=
  if s.buffering then
    { s.write q s.buffer with buffering := false, buffer := [] }.flushOperands q
  else s.flushOperands q

end OutlineFilter

/-- The filter behind some tokens. -/
def filterAfter (q : Qpdf) (fonts : Fonts) (ts : List Token) : OutlineFilter :=
  ts.foldl (OutlineFilter.handleToken q fonts) {}

/-- The filter at the end of a stream. -/
def filtered (q : Qpdf) (fonts : Fonts) (ts : List Token) : OutlineFilter :=
  (filterAfter q fonts ts).handleEOF q

/-- Tests for pieces that end an operation. -/
def endsPiece : Piece → Bool
  | .token t => Text.isOperator t
  | .instr _ => true

/-- What a reader sees of an operand, `reread` telling how a name is read that was written as it
is. -/
def Piece.arg? : Piece → Option Arg
  | .token t => Text.arg? t
  | .instr _ => none

/-- A name that was written as it is. -/
def rereadArg (reread : Bytes → Bytes) : Arg → Arg
  | .name n => .name (reread n)
  | a => a

/-- An operator that is read with the operands before it. -/
def instrOf (reread : Bytes → Bytes) (p : Base.Phrase endsPiece) : Instr :=
  match p.last with
  | .token t => ⟨t.value, p.words.filterMap Piece.arg?⟩
  | .instr i => ⟨i.op, p.words.filterMap Piece.arg? ++ i.args.map (rereadArg reread)⟩

/-- What holds behind pieces. -/
def readAfter (reread : Bytes → Bytes) (ps : List Piece) : TextRun :=
  Text.textRun ((Base.phrases endsPiece ps).1.map (instrOf reread))

/-- What is wanted at a text object, for the operations before it and what was written by then. -/
structure InForce (reread : Bytes → Bytes) (s : OutlineFilter) (pre : List Text.Operation)
    (final : List Piece) : Prop where
  /-- The filter knows the text state. -/
  tracked : s.ts = (Text.textRun (pre.map Text.instrOf)).state
  /-- A reader of what was written has the text state. -/
  kept : (readAfter reread s.out).state = (Text.textRun (pre.map Text.instrOf)).state
  /-- What was written by then stays. -/
  written : s.out <+: final

/-- Whether the text state is followed up to every text object of a stream. -/
def FollowsState (q : Qpdf) (reread : Bytes → Bytes) (fonts : Fonts) (ts : List Token) : Prop :=
  ∀ pre o post, (Text.operations ts).1 = pre ++ o :: post → o.last.isWord "BT" = true →
    (filterAfter q fonts (pre.flatMap Base.Phrase.text)).buffering = false →
      InForce reread (filterAfter q fonts (pre.flatMap Base.Phrase.text)) pre
        (filtered q fonts ts).out

end Kura.Engine.Outline
