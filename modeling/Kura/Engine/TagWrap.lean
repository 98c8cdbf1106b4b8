import Kura.Engine.TextState

/-!
# Wrapping content for tagging

The filter that puts the content of a page between the marks of a tagged
document: paintings of images into figures of their own, everything else that
is no artifact into paragraphs. Marks of the page other than those of artifacts
are left out.

## Implementation notes

What is written is a list of pieces, tokens that are copied and marks that are
inserted. The stack of marks has the innermost one first. `Reading` is how a
reader sees what was written: it takes every `EMC` for the end of the innermost
sequence, and a text object starts with a `BT` that stands in no other.
-/

namespace Kura.Engine.Tagging

open Text (lastName)

/-- A sequence that was inserted. -/
structure Segment where
  figure : Bool
  mcid : Nat
  deriving DecidableEq

/-- What is written. -/
inductive Piece where
  | copied (t : Token)
  | openP (mcid : Nat)
  | openFigure (mcid : Nat)
  | closeP
  | closeFigure
  deriving DecidableEq

/-- Tests for the tokens that end an operation: operators and the data of inline images. -/
def endsOperation (t : Token) : Bool := t.type = .word || t.type = .inlineImage

/-- An operation of a page. -/
abbrev Operation := Base.Phrase endsOperation

/-- The tag of marked content. -/
def tagOf (operands : List Token) : Bytes :=
  ((operands.find? fun t => t.type = .name).map Token.value).getD []

/-- The filter. -/
structure TagWrapFilter where
  segments : List Segment := []
  sawContent : Bool := false
  operands : List Token := []
  mcStack : List Bool := []
  btDepth : Nat := 0
  nextMcid : Nat := 0
  pOpen : Bool := false
  out : List Piece := []

namespace TagWrapFilter

variable (imageNames : List Bytes) (s : TagWrapFilter) (token : Token)

def inArtifact : Bool := s.mcStack.any id

def openP : TagWrapFilter :=
  if s.pOpen || s.inArtifact then s
  else
    { s with
      out := s.out ++ [.openP s.nextMcid]
      segments := s.segments ++ [⟨false, s.nextMcid⟩]
      nextMcid := s.nextMcid + 1
      pOpen := true }

def closeP : TagWrapFilter :=
  if s.pOpen then { s with out := s.out ++ [.closeP], pOpen := false } else s

def flushOperands : TagWrapFilter :=
  { s with out := s.out ++ s.operands.map .copied, operands := [] }

def writeToken : TagWrapFilter := { s with out := s.out ++ [.copied token] }

/-- Counts text objects that are open. -/
def countText : TagWrapFilter :=
  if token.value = lit "BT" then { s with btDepth := s.btDepth + 1 }
  else if token.value = lit "ET" then { s with btDepth := s.btDepth - 1 }
  else s

/-- Opens marked content. -/
def openMark : TagWrapFilter :=
  if tagOf s.operands = lit "/Artifact" then
    let s := (s.closeP.flushOperands).writeToken token
    { s with mcStack := true :: s.mcStack }
  else { s with operands := [], mcStack := false :: s.mcStack }

/-- Closes marked content. -/
def closeMark : TagWrapFilter :=
  match s.mcStack with
  | true :: rest => ({ s with mcStack := rest }.flushOperands).writeToken token
  | false :: rest => { s with mcStack := rest, operands := [] }
  | [] => { s with operands := [] }

/-- Whether an operator paints an image for which there is a figure. -/
def paintsFigure : Bool :=
  token.value = lit "Do" && !s.inArtifact && s.btDepth = 0 &&
    imageNames.contains (lastName s.operands)

def openFigure : TagWrapFilter :=
  { s with
    out := s.out ++ [.openFigure s.nextMcid]
    segments := s.segments ++ [⟨true, s.nextMcid⟩]
    nextMcid := s.nextMcid + 1 }

/-- Puts the painting of an image into a figure. -/
def figure : TagWrapFilter :=
  let s := (s.closeP.openFigure.flushOperands).writeToken token
  { s with out := s.out ++ [.closeFigure], sawContent := true }

/-- An operator. -/
def operator : TagWrapFilter :=
  let s := s.countText token
  if token.value = lit "BMC" ∨ token.value = lit "BDC" then s.openMark token
  else if token.value = lit "EMC" then s.closeMark token
  else if s.paintsFigure imageNames token then s.figure token
  else { (s.openP.flushOperands).writeToken token with sawContent := true }

def handleToken : TagWrapFilter :=
  if token.type = .inlineImage then (s.openP.flushOperands).writeToken token
  else if token.type = .word then s.operator imageNames token
  else { s with operands := s.operands ++ [token] }

def handleEOF : TagWrapFilter := s.flushOperands.closeP

end TagWrapFilter

/-- The filter behind the tokens of a page. -/
def wrapped (imageNames : List Bytes) (ts : List Token) : TagWrapFilter :=
  (ts.foldl (TagWrapFilter.handleToken imageNames) {}).handleEOF

/-- Tests whether a token is an operator that opens marked content. -/
def isOpener (t : Token) : Bool := t.isWord "BMC" || t.isWord "BDC"

/-- Tests whether a token is the operator that closes marked content. -/
def isCloser (t : Token) : Bool := t.isWord "EMC"

/-- Where a place stands: how many text objects are open, and how many have been started. -/
structure TextPlace where
  depth : Nat := 0
  started : Nat := 0
  deriving DecidableEq

/-- The text object around a place. -/
def TextPlace.object (p : TextPlace) : Option Nat := if p.depth = 0 then none else some p.started

/-- The place behind an operator. -/
def TextPlace.next (p : TextPlace) (t : Token) : TextPlace :=
  if t.isWord "BT" then ⟨p.depth + 1, if p.depth = 0 then p.started + 1 else p.started⟩
  else if t.isWord "ET" then ⟨p.depth - 1, p.started⟩
  else p

/-- A sequence that is open for a reader. -/
inductive Mark where
  | artifact
  | other
  | inserted (start : Option Nat)
  deriving DecidableEq

/-- Tests for a sequence that was inserted. -/
def Mark.isInserted : Mark → Bool
  | .inserted _ => true
  | _ => false

/-- What a reader knows. -/
structure Reading where
  stack : List Mark := []
  place : TextPlace := {}
  /-- Whether every `EMC` had a sequence to close. -/
  matched : Bool := true
  /-- The sequences that were inserted. -/
  opened : List Segment := []
  /-- The text objects in which inserted sequences start and end. -/
  closed : List (Option Nat × Option Nat) := []
  /-- The sequences around each operator. -/
  around : List (List Mark) := []

namespace Reading

variable (r : Reading)

/-- An inserted sequence starts. -/
def start (seg : Segment) : Reading :=
  { r with stack := .inserted r.place.object :: r.stack, opened := r.opened ++ [seg] }

/-- The innermost sequence ends. -/
def pop : Reading :=
  match r.stack with
  | [] => { r with matched := false }
  | .inserted start :: rest =>
      { r with stack := rest, closed := r.closed ++ [(start, r.place.object)] }
  | _ :: rest => { r with stack := rest }

/-- The tokens among pieces. -/
def tokens (ps : List Piece) : List Token :=
  ps.filterMap fun p =>
    match p with
    | .copied t => some t
    | _ => none

/-- A copied operator with the pieces before it. -/
def operator (words : List Piece) (t : Token) : Reading :=
  if isOpener t then
    { r with
      stack := (if tagOf (tokens words) = lit "/Artifact" then .artifact else .other) :: r.stack }
  else if isCloser t then r.pop
  else { r with place := r.place.next t, around := r.around ++ [r.stack] }

end Reading

/-- Tests for pieces that end an operation, marks being such. -/
def endsPiece : Piece → Bool
  | .copied t => endsOperation t
  | _ => true

/-- One more operation or mark. -/
def Reading.step (r : Reading) (p : Base.Phrase endsPiece) : Reading :=
  match p.last with
  | .copied t => r.operator p.words t
  | .openP mcid => r.start ⟨false, mcid⟩
  | .openFigure mcid => r.start ⟨true, mcid⟩
  | .closeP | .closeFigure => r.pop

/-- What a reader knows of pieces. -/
def reading (ps : List Piece) : Reading := (Base.phrases endsPiece ps).1.foldl Reading.step {}

/-- The marks that are open behind an operation, and whether it stays. A mark is told by whether it
is one of an artifact. -/
def markStep (marks : List Bool) (o : Operation) : List Bool × Bool :=
  if isOpener o.last then
    (decide (tagOf o.words = lit "/Artifact") :: marks, decide (tagOf o.words = lit "/Artifact"))
  else if isCloser o.last then (marks.tail, marks.head? = some true)
  else (marks, true)

/-- The operations of a page without the marks that are none of artifacts. -/
def withoutMarks : List Bool → List Operation → List Operation
  | _, [] => []
  | marks, o :: os =>
      (if (markStep marks o).2 then [o] else []) ++ withoutMarks (markStep marks o).1 os

/-- Whether every mark of a page is closed, some being open. -/
def balanced : Nat → List Operation → Bool
  | depth, [] => depth = 0
  | depth, o :: os =>
      if isOpener o.last then balanced (depth + 1) os
      else if isCloser o.last then depth ≠ 0 && balanced (depth - 1) os
      else balanced depth os

/-- What is wanted of a page that was wrapped. -/
structure WellTagged (imageNames : List Bytes) (ts : List Token) : Prop where
  copied : Reading.tokens (wrapped imageNames ts).out =
    (withoutMarks [] (Base.phrases endsOperation ts).1).flatMap Base.Phrase.text ++
      (Base.phrases endsOperation ts).2
  matched : (reading (wrapped imageNames ts).out).matched = true
  closed : (reading (wrapped imageNames ts).out).stack = []
  segments : (reading (wrapped imageNames ts).out).opened = (wrapped imageNames ts).segments
  numbered : (wrapped imageNames ts).segments.map Segment.mcid =
    List.range (wrapped imageNames ts).segments.length
  around : ∀ marks ∈ (reading (wrapped imageNames ts).out).around,
    Mark.artifact ∈ marks ∨ marks.countP Mark.isInserted = 1
  object : ∀ c ∈ (reading (wrapped imageNames ts).out).closed, c.1 = c.2

end Kura.Engine.Tagging
