import Kura.Base.Nesting
import Kura.Engine.FixTwice

/-!
# Reading a content stream

What a reader makes of the tokens of a content stream: its brackets, its
operators and the operands before each operator. `contentEffect` says, in these
terms, what the filter does with one token.

## Implementation notes

The reader takes the text of an inline image for what the filter takes it for,
and an image for one operator. An invalid token that does not look like a
string is an operator, since it stands where a word would. A closer that closes
nothing is no part of an operand. The text of a filter is what it has written
and what it holds back.
-/

namespace Kura.Engine

open Base (Delim idle counts tally)

/-- Kinds of brackets. -/
inductive Bracket where
  | array
  | dict
  deriving DecidableEq

/-- Kinds of operators. -/
inductive OpKind where
  | word (w : Bytes)
  | image
  | invalid
  deriving DecidableEq

/-- An operator with the tokens of its operands. -/
structure Operator where
  kind : OpKind
  operands : List Token
  deriving DecidableEq

/-- What a token is to a reader. -/
inductive Role where
  | blank
  | operand
  | bracket (d : Delim Bracket)
  | operator (k : OpKind)

/-- What a token outside of images is to a reader. -/
def Token.role (t : Token) : Role :=
  match t.type with
  | .space | .comment => .blank
  | .arrayOpen => .bracket (.opener .array)
  | .arrayClose => .bracket (.closer .array)
  | .dictOpen => .bracket (.opener .dict)
  | .dictClose => .bracket (.closer .dict)
  | .word => .operator (.word t.value)
  | .bad => if isHexText t.raw then .operand else .operator .invalid
  | _ => .operand

/-- Where a reader stands. -/
inductive ReaderPlace where
  | content
  | image
  | afterImage
  deriving DecidableEq

/-- A reader between two tokens. -/
structure ContentReader where
  place : ReaderPlace := .content
  brackets : List (Delim Bracket) := []
  pending : List Token := []
  operators : List Operator := []

namespace ContentReader

variable (r : ContentReader) (t : Token)

/-- An operator takes the operands before it. -/
def operator (k : OpKind) : ContentReader :=
  { r with operators := r.operators ++ [⟨k, r.pending⟩], pending := [] }

/-- How many brackets of each kind are open. -/
def depth : Bracket → Nat := counts (fun _ => 0) r.brackets

/-- A bracket; one that closes nothing is no operand. -/
def bracket (d : Delim Bracket) : ContentReader :=
  { r with
    brackets := r.brackets ++ [d]
    pending := if idle r.depth d then r.pending else r.pending ++ [t] }

/-- A token that does not start an image. -/
def part : ContentReader :=
  match t.role with
  | .blank => r
  | .operand => { r with pending := r.pending ++ [t] }
  | .bracket d => r.bracket t d
  | .operator k => r.operator k

/-- A token outside of images. -/
def content : ContentReader :=
  if t.isWord "BI" then { r with place := .image } else part { r with place := .content } t

/-- One token. -/
def read : ContentReader :=
  match r.place with
  | .content => r.content t
  | .image =>
      if t.isWord "ID" then r
      else if t.type = .inlineImage then { r.operator .image with place := .afterImage }
      else if t.isWord "EI" then { r.operator .image with place := .content }
      else r
  | .afterImage =>
      if t.type = .space then r
      else if t.isWord "EI" then { r with place := .content }
      else r.content t

/-- The reader after some tokens. -/
def readAll (ts : List Token) : ContentReader := ts.foldl read {}

theorem readAll_append (ts us : List Token) : readAll (ts ++ us) = us.foldl read (readAll ts) :=
  List.foldl_append

variable {r t}

/-- Outside of images. -/
theorem read_content (h : r.place = .content) (ht : t.isWord "BI" = false) :
    r.read t = r.part t := by
  have hsame : { r with place := .content } = r := by rw [← h]
  simp only [read, h, content, ht, hsame, Bool.false_eq_true, if_false]

/-- Inside of an image. -/
theorem read_image (h : r.place = .image) :
    r.read t = if t.isWord "ID" then r
      else if t.type = .inlineImage then { r.operator .image with place := .afterImage }
      else if t.isWord "EI" then { r.operator .image with place := .content }
      else r := by
  rw [read, h]

/-- After the data of an image. -/
theorem read_afterImage (h : r.place = .afterImage) :
    r.read t = if t.type = .space then r
      else if t.isWord "EI" then { r with place := .content }
      else r.content t := by
  rw [read, h]

@[simp]
theorem place_part : (r.part t).place = r.place := by
  rw [part]
  cases t.role <;> rfl

theorem isWord_eq_false (ht : t.type ≠ .word) (w : String) : t.isWord w = false := by
  simp [Token.isWord, ht]

theorem foldl_read_blanks {ts : List Token} (h : r.place = .content)
    (hts : ∀ t ∈ ts, t.type = .space ∨ t.type = .comment) : ts.foldl read r = r := by
  induction ts with
  | nil => rfl
  | cons t ts ih =>
      have ht := hts t (by simp)
      have hword : t.isWord "BI" = false := by
        obtain ht | ht := ht <;> simp [Token.isWord, ht]
      have hrole : t.role = .blank := by
        obtain ht | ht := ht <;> simp [Token.role, ht]
      rw [List.foldl_cons, read_content h hword, part, hrole]
      exact ih fun t' ht' => hts t' (by simp [ht'])

theorem foldl_read_plain {ts : List Token} (h : r.place = .image) (hts : ∀ t ∈ ts, t.Plain) :
    ts.foldl read r = r := by
  induction ts with
  | nil => rfl
  | cons t ts ih =>
      obtain ⟨hid, hei, htype⟩ := hts t (by simp)
      have hone : r.read t = r := by
        simp [read, h, hid, hei, htype]
      rw [List.foldl_cons, hone]
      exact ih fun t' ht' => hts t' (by simp [ht'])

/-- The tokens that end a written image. -/
theorem read_image_end (h : r.place = .image) (data : Bytes) :
    [Token.op "ID", .newline, .plain .inlineImage data, .op "EI", .newline].foldl read r =
      { r.operator .image with place := .content } := by
  have hnewline : Token.newline.isWord "BI" = false ∧ Token.newline.role = .blank := by
    refine ⟨by decide, rfl⟩
  have hid : r.read (.op "ID") = r := by
    rw [read_image h]
    exact if_pos (by decide)
  have hblank : r.read .newline = r := by
    have hplain : ∀ t ∈ [Token.newline], t.Plain := by
      intro t ht
      rw [List.mem_singleton.mp ht]
      exact ContentFixFilter.plain_blank.2
    exact foldl_read_plain h hplain
  have hdata : r.read (.plain .inlineImage data) =
      { r.operator .image with place := .afterImage } := by
    have htype : (Token.plain .inlineImage data).type = .inlineImage := rfl
    have hword : (Token.plain .inlineImage data).isWord "ID" = false :=
      isWord_eq_false (by rw [htype]; decide) _
    rw [read_image h, hword, if_neg Bool.false_ne_true, if_pos htype]
  have hei : read { r.operator .image with place := .afterImage } (.op "EI") =
      { r.operator .image with place := .content } := by
    rw [read_afterImage rfl, if_neg (by decide), if_pos (by decide)]
  simp only [List.foldl_cons, List.foldl_nil, hid, hblank, hdata, hei]
  rw [read_content rfl hnewline.1, part, hnewline.2]

theorem read_image_start (h : r.place = .content) :
    r.read (.op "BI") = { r with place := .image } := by
  rw [read, h]
  exact if_pos (by decide)

theorem operator_of_image (h : r.place = .content) :
    { operator { r with place := .image } .image with place := .content } = r.operator .image := by
  rw [operator, operator, ← h]

/-- A written image is one operator. -/
theorem foldl_read_imageTokens {entries : List Token} (h : r.place = .content)
    (hplain : ∀ t ∈ entries, t.Plain) (data : Bytes) :
    (imageTokens entries data).foldl read r = r.operator .image := by
  have hopen : ∀ t ∈ entries ++ [Token.blank], t.Plain := by
    intro t ht
    obtain ht | ht := List.mem_append.mp ht
    · exact hplain t ht
    · rw [List.mem_singleton.mp ht]
      exact ContentFixFilter.plain_blank.1
  have hsplit : imageTokens entries data = Token.op "BI" :: ((entries ++ [Token.blank]) ++
      [Token.op "ID", .newline, .plain .inlineImage (data ++ [0x0A]), .op "EI", .newline]) := by
    simp [imageTokens]
  rw [hsplit, List.foldl_cons, read_image_start h, List.foldl_append, foldl_read_plain rfl hopen,
    read_image_end rfl]
  exact operator_of_image h

/-- So is an image without data. -/
theorem foldl_read_cutImageTokens {entries : List Token} (h : r.place = .content)
    (hplain : ∀ t ∈ entries, t.Plain) :
    (cutImageTokens entries).foldl read r = r.operator .image := by
  have hopen : ∀ t ∈ Token.blank :: (entries ++ [Token.blank]), t.Plain := by
    intro t ht
    simp only [List.mem_cons, List.mem_append, List.not_mem_nil, or_false] at ht
    obtain rfl | ht | rfl := ht
    · exact ContentFixFilter.plain_blank.1
    · exact hplain t ht
    · exact ContentFixFilter.plain_blank.1
  have hsplit : cutImageTokens entries =
      Token.op "BI" :: ((Token.blank :: (entries ++ [Token.blank])) ++ [.op "EI", .newline]) := by
    simp [cutImageTokens]
  have hnewline : Token.newline.isWord "BI" = false ∧ Token.newline.role = .blank :=
    ⟨by decide, rfl⟩
  have hei : read { r with place := .image } (.op "EI") = r.operator .image := by
    rw [← operator_of_image h, read_image rfl, if_neg (by decide), if_neg (by decide),
      if_pos (by decide)]
  rw [hsplit, List.foldl_cons, read_image_start h, List.foldl_append, foldl_read_plain rfl hopen,
    List.foldl_cons, hei, List.foldl_cons, List.foldl_nil, read_content (r := r.operator .image) h
      hnewline.1, part, hnewline.2]

end ContentReader

end Kura.Engine
