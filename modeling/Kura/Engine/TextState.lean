import Kura.Base.Phrases
import Kura.Engine.Content

/-!
# The text state of a content stream

What the operators of a content stream do to the text state and to the line
matrix, as the format has it. The filters that remove or rewrite text are
compared with this.

## Implementation notes

An operation is an operator with the tokens before it. Numbers are exact. An
operand that is missing, or is no number where one is needed, leaves the value
it would set as it is. Showing text moves the text matrix only, which starts at
the line matrix in every line.
-/

namespace Kura.Engine.Text

/-- Tests whether a token is an operator. -/
def isOperator (t : Token) : Bool := t.type = .word

/-- An operator with the tokens before it. -/
abbrev Operation := Base.Phrase isOperator

/-- The operations of a stream, and the tokens behind the last one. -/
abbrev operations (ts : List Token) : List Operation × List Token :=
  Base.phrases isOperator ts

/-- The last name among operands. -/
def nameToken (operands : List Token) : Option Token :=
  operands.reverse.find? fun t => t.type = .name

/-- Its text. -/
def lastName (operands : List Token) : Bytes := ((nameToken operands).map Token.value).getD []

/-- The number that a token is read as. -/
def exactNumber (s : Bytes) : ℚ :=
  let (minus, rest) := signOf s
  let whole := rest.takeWhile isDigit
  let frac :=
    match rest.dropWhile isDigit with
    | 0x2E :: tail => tail.takeWhile isDigit
    | _ => []
  let v : ℚ := digitsValue (whole ++ frac) / 10 ^ frac.length
  if minus then -v else v

/-- What an operator sees of an operand. -/
inductive Arg where
  | number (q : ℚ)
  | name (n : Bytes)
  | other
  deriving DecidableEq

/-- The operand that a token is; none for white space and comments. -/
def arg? (t : Token) : Option Arg :=
  match t.type with
  | .space | .comment => none
  | .integer | .real => some (.number (exactNumber t.value))
  | .name => some (.name t.value)
  | _ => some .other

/-- An operator with its operands. -/
structure Instr where
  op : Bytes
  args : List Arg
  deriving DecidableEq

namespace Instr

variable (i : Instr)

/-- The number that is a given number of operands from the end. -/
def num? (k : Nat) : Option ℚ :=
  match i.args.reverse[k]? with
  | some (.number q) => some q
  | _ => none

/-- The name among the operands, the last one if there are several. -/
def lastName : Bytes :=
  (i.args.reverse.findSome? fun a =>
    match a with
    | .name n => some n
    | _ => none).getD []

end Instr

/-- The operator of an operation with its operands. -/
def instrOf (o : Operation) : Instr := ⟨o.last.value, o.words.filterMap arg?⟩

/-- The text state. -/
structure TextState where
  fontName : Bytes := []
  size : ℚ := 0
  charSpace : ℚ := 0
  wordSpace : ℚ := 0
  hscale : ℚ := 100
  leading : ℚ := 0
  rise : ℚ := 0
  renderMode : ℤ := 0
  deriving DecidableEq

/-- The integer that a number is cut off to. -/
def truncate (q : ℚ) : ℤ := if 0 ≤ q then q.floor else q.ceil

/-- What an operator sets in the text state. -/
def TextState.set (st : TextState) (i : Instr) : TextState :=
  if i.op = lit "Tf" then
    if 2 ≤ i.args.length then
      { st with fontName := i.lastName, size := (i.num? 0).getD st.size }
    else st
  else if i.op = lit "Tc" then { st with charSpace := (i.num? 0).getD st.charSpace }
  else if i.op = lit "Tw" then { st with wordSpace := (i.num? 0).getD st.wordSpace }
  else if i.op = lit "Tz" then { st with hscale := (i.num? 0).getD st.hscale }
  else if i.op = lit "TL" then { st with leading := (i.num? 0).getD st.leading }
  else if i.op = lit "Ts" then { st with rise := (i.num? 0).getD st.rise }
  else if i.op = lit "Tr" then
    { st with renderMode := ((i.num? 0).map truncate).getD st.renderMode }
  else if i.op = lit "TD" then
    if 2 ≤ i.args.length then { st with leading := -(i.num? 0).getD 0 } else st
  else if i.op = lit "\"" then
    if 3 ≤ i.args.length then
      { st with
        wordSpace := (i.num? 2).getD st.wordSpace
        charSpace := (i.num? 1).getD st.charSpace }
    else st
  else st

/-- The text state without its font. -/
def TextState.bare (st : TextState) : TextState := { st with fontName := [], size := 0 }

theorem TextState.bare_set {i : Instr} (h : i.op ≠ lit "Tf") (st : TextState) :
    (st.set i).bare = st.bare.set i := by
  rw [set, if_neg h, set, if_neg h]
  split_ifs <;> rfl

theorem TextState.bare_set_Tf {i : Instr} (h : i.op = lit "Tf") (st : TextState) :
    (st.set i).bare = st.bare := by
  rw [set, if_pos h]
  split_ifs <;> rfl

/-- A matrix. -/
@[ext]
structure Mat where
  a : ℚ := 1
  b : ℚ := 0
  c : ℚ := 0
  d : ℚ := 1
  e : ℚ := 0
  f : ℚ := 0
  deriving DecidableEq

/-- The matrix moved in its own directions. -/
def Mat.move (m : Mat) (tx ty : ℚ) : Mat :=
  { m with e := tx * m.a + ty * m.c + m.e, f := tx * m.b + ty * m.d + m.f }

/-- What an operator makes of the line matrix, the leading being set. -/
def lineAfter (leading : ℚ) (m : Mat) (i : Instr) : Mat :=
  if i.op = lit "BT" then {}
  else if i.op = lit "Td" ∨ i.op = lit "TD" then
    if 2 ≤ i.args.length then m.move ((i.num? 1).getD 0) ((i.num? 0).getD 0) else m
  else if i.op = lit "Tm" then
    if 6 ≤ i.args.length then
      ⟨(i.num? 5).getD 1, (i.num? 4).getD 0, (i.num? 3).getD 0, (i.num? 2).getD 1,
        (i.num? 1).getD 0, (i.num? 0).getD 0⟩
    else m
  else if i.op = lit "T*" ∨ i.op = lit "'" ∨ i.op = lit "\"" then m.move 0 (-leading)
  else m

/-- The text state, the line matrix and the text states that are saved. -/
structure TextRun where
  state : TextState := {}
  line : Mat := {}
  saved : List TextState := []
  deriving DecidableEq

/-- One operator. -/
def TextRun.step (s : TextRun) (i : Instr) : TextRun :=
  if i.op = lit "q" then { s with saved := s.state :: s.saved }
  else if i.op = lit "Q" then
    match s.saved with
    | [] => s
    | st :: rest => { s with state := st, saved := rest }
  else
    { s with
      state := s.state.set i
      line := lineAfter (s.state.set i).leading s.line i }

/-- Operators that change one of these. -/
def textOps : List Bytes :=
  ["q", "Q", "BT", "Tf", "Tc", "Tw", "Tz", "TL", "Ts", "Tr", "Td", "TD", "Tm", "T*", "'", "\""].map
    lit

theorem TextRun.step_of_not_mem {i : Instr} (h : i.op ∉ textOps) (s : TextRun) : s.step i = s := by
  simp only [textOps, List.map_cons, List.map_nil, List.mem_cons, List.not_mem_nil, not_or] at h
  simp only [step, TextState.set, lineAfter, h, if_false, or_self]

/-- A stream from its start. -/
def textRun (is : List Instr) : TextRun := is.foldl TextRun.step {}

theorem textRun_append (is : List Instr) (i : Instr) :
    textRun (is ++ [i]) = (textRun is).step i := List.foldl_append

/-- What holds behind the operations of a stream. -/
def textAfter (ts : List Token) : TextRun := textRun ((operations ts).1.map instrOf)

theorem operations_flatMap (ops : List Operation) :
    operations (ops.flatMap Base.Phrase.text) = (ops, []) := by
  have h := Base.phrases_flatMap_rest ops fun w hw => absurd hw List.not_mem_nil
  rwa [List.append_nil] at h

theorem textAfter_flatMap (ops : List Operation) :
    textAfter (ops.flatMap Base.Phrase.text) = textRun (ops.map instrOf) := by
  rw [textAfter, operations_flatMap]

end Kura.Engine.Text
