import Kura.Engine.Number

/-!
# Tokens and texts of content streams

The tokens of a content stream, the limits on them and the functions on byte
strings that the content filter uses.

## Implementation notes

A token has a type, a value and the text it was read from. The token at the
end of the stream has an empty text and is left out. Loops over a byte string
are recursions on a list; where the step skips several bytes or several bits, they
have a bound on the number of steps that the length of the input gives.
-/

namespace Kura.Engine

/-- Types of tokens. -/
inductive TokenType where
  | bad
  | arrayClose
  | arrayOpen
  | braceClose
  | braceOpen
  | dictClose
  | dictOpen
  | integer
  | name
  | real
  | string
  | null
  | bool
  | word
  | space
  | comment
  | inlineImage
  deriving DecidableEq

/-- A token with its value and its text. -/
structure Token where
  type : TokenType
  value : Bytes
  raw : Bytes
  deriving DecidableEq

namespace Token

/-- A token whose value is its text. -/
def plain (type : TokenType) (value : Bytes) : Token := ⟨type, value, value⟩

/-- An operator. -/
def op (w : String) : Token := plain .word (lit w)

/-- A single space. -/
def blank : Token := plain .space [0x20]

/-- A line break. -/
def newline : Token := plain .space [0x0A]

/-- Tests whether a token is a given operator. -/
def isWord (t : Token) (w : String) : Bool := t.type = .word ∧ t.value = lit w

end Token

/-- Largest real of PDF 1.4. -/
def kMaxReal : Rat := 32767

/-- The double next to 3.402823e38. -/
def kMaxReal2 : Rat := 340282299999999994960115009090224128000

/-- The double next to 1.175494e-38. -/
def kMinDenorm : Rat := 2251799141643259 / (2 ^ 177 : Nat)

/-- Largest integer. -/
def kMaxInt : Int := 2147483647

/-- Longest string of PDF 1.4. -/
def kMaxString1 : Nat := 65535

/-- Longest string of parts two and three. -/
def kMaxString23 : Nat := 32767

/-- Longest name, without the slash. -/
def kMaxName : Nat := 127

/-- Rendering intents. -/
def kValidRi : List Bytes :=
  ["/RelativeColorimetric", "/AbsoluteColorimetric", "/Perceptual", "/Saturation"].map lit

/-- Operators, with the three words that qpdf has types for. -/
def kValidOps : List Bytes :=
  ["w", "J", "j", "M", "d", "ri", "i", "gs", "q", "Q", "cm", "m", "l", "c", "v", "y",
    "h", "re", "S", "s", "f", "F", "f*", "B", "B*", "b", "b*", "n", "W", "W*", "BT",
    "ET", "Tc", "Tw", "Tz", "TL", "Tf", "Tr", "Ts", "Td", "TD", "Tm", "T*", "Tj", "TJ",
    "'", "\"", "d0", "d1", "CS", "cs", "SC", "SCN", "sc", "scn", "G", "g", "RG", "rg",
    "K", "k", "sh", "BI", "ID", "EI", "Do", "MP", "DP", "BMC", "BDC", "EMC", "BX", "EX",
    "true", "false", "null"].map lit

/-- The FNV-1a hash of a byte string. -/
def fnv1a32 (s : Bytes) : UInt32 :=
  s.foldl (fun hash c => (hash ^^^ c.toUInt32) * 16777619) 2166136261

/-- One digit of a number written in capitals at base sixteen. -/
def hexDigit (n : Nat) : UInt8 := if n < 10 then UInt8.ofNat (0x30 + n) else UInt8.ofNat (0x37 + n)

/-- Eight digits, as `%08X` writes them. -/
def hex8 (n : UInt32) : Bytes :=
  [7, 6, 5, 4, 3, 2, 1, 0].map fun i => hexDigit (n.toNat / 16 ^ i % 16)

/-- The name that stands for one that is too long. -/
def shortenName (n : Bytes) : Bytes := n.take (kMaxName - 9) ++ lit "X" ++ hex8 (fnv1a32 n)

theorem length_shortenName_le (n : Bytes) : (shortenName n).length ≤ kMaxName := by
  have hx : (lit "X").length = 1 := by decide
  have hhex : (hex8 (fnv1a32 n)).length = 8 := rfl
  have htake : (n.take (kMaxName - 9)).length ≤ kMaxName - 9 := by
    rw [List.length_take]
    omega
  have hname : kMaxName = 127 := rfl
  rw [shortenName, List.length_append, List.length_append, hx, hhex]
  omega

/-- Tests whether a byte of a hexadecimal string is none that may stand there. -/
def isStray (c : UInt8) : Bool := !isXDigit c && c != 0x3E && !isSpace c && c != 0 && c != 12

/-- The complaints about the text of a string. -/
def hexFaults : Bytes → Nat
  | 0x3C :: rest => rest.countP isStray + rest.countP isXDigit % 2
  | _ => 0

/-- Tests whether an invalid token is a hexadecimal string. -/
def isHexText (raw : Bytes) : Bool := (lit "<").isPrefixOf raw && !(lit "<<").isPrefixOf raw

/-- The digits of a text, as many as make whole bytes. -/
def hexDigits (raw : Bytes) : Bytes :=
  let hex := raw.filter isXDigit
  if hex.length % 2 = 1 then hex ++ lit "0" else hex

/-- The value of a hexadecimal digit. -/
def hexValue (c : UInt8) : UInt8 :=
  if isDigit c then c - 0x30 else if c < 0x61 then c - 0x37 else c - 0x57

/-- The bytes a string of digits stands for. -/
def unhex : Bytes → Bytes
  | a :: b :: rest => (16 * hexValue a + hexValue b) :: unhex rest
  | _ => []

/-- Both digits of a byte. -/
def hexOf (c : UInt8) : Bytes := [hexDigit (c.toNat / 16), hexDigit (c.toNat % 16)]

/-- Private use code points. -/
def isPuaCodepoint (cp : Nat) : Bool :=
  (0xE000 ≤ cp && cp ≤ 0xF8FF) || (0xF0000 ≤ cp && cp ≤ 0xFFFFD) ||
    (0x100000 ≤ cp && cp ≤ 0x10FFFD)

/-- The code point of a sequence, from its first byte and the rest. -/
def codepoint (first : Nat) (rest : Bytes) : Nat :=
  rest.foldl (fun cp c => cp * 64 + c.toNat % 64) first

/-- The length of a sequence that starts with a byte. -/
def stripLen (c : UInt8) : Nat :=
  if c < 0x80 then 1 else if c &&& 0xE0 = 0xC0 then 2 else if c &&& 0xF0 = 0xE0 then 3 else 4

/-- The bits of the first byte that belong to the code point. -/
def firstBits (len : Nat) (c : UInt8) : Nat :=
  if len = 1 then c.toNat else c.toNat % 2 ^ (7 - len)

/-- The loop of `stripPuaUtf8`. -/
def stripLoop : Nat → Bytes → Bytes × Bool
  | 0, _ => ([], false)
  | _ + 1, [] => ([], false)
  | n + 1, c :: cs =>
      let len := stripLen c
      if cs.length + 1 < len then ([], false)
      else
        let unit := c :: cs.take (len - 1)
        let (out, changed) := stripLoop n (cs.drop (len - 1))
        if isPuaCodepoint (codepoint (firstBits len c) (cs.take (len - 1))) then (out, true)
        else (unit ++ out, changed)

/-- The text without its private use characters, and whether there were any. -/
def stripPuaUtf8 (utf8 : Bytes) : Bytes × Bool := stripLoop utf8.length utf8

/-- The length of a sequence of valid text by its first byte. -/
def utf8Len (c : UInt8) : Option Nat :=
  if c < 0x80 then some 1
  else if c &&& 0xE0 = 0xC0 then some 2
  else if c &&& 0xF0 = 0xE0 then some 3
  else if c &&& 0xF8 = 0xF0 then some 4
  else none

/-- The tests on one sequence. -/
def validSequence (len : Nat) (c : UInt8) (rest : Bytes) : Bool :=
  let cp := codepoint (firstBits len c) rest
  rest.length = len - 1 && rest.all (fun d => d &&& 0xC0 = 0x80) &&
    !(len = 2 && cp < 0x80) && !(len = 3 && cp < 0x800) && !(len = 4 && cp < 0x10000) &&
    !(0x10FFFF < cp || (0xD800 ≤ cp && cp ≤ 0xDFFF))

/-- The loop of `validUtf8`. -/
def validLoop : Nat → Bytes → Bool
  | 0, s => s.isEmpty
  | _ + 1, [] => true
  | n + 1, c :: cs =>
      match utf8Len c with
      | none => false
      | some len => validSequence len c (cs.take (len - 1)) && validLoop n (cs.drop (len - 1))

/-- Tests whether a byte string is valid UTF-8. -/
def validUtf8 (s : Bytes) : Bool := validLoop s.length s

/-- The state of the decoder. -/
structure Lzw where
  table : List Bytes
  width : Nat := 9
  out : Bytes := []
  prev : Bytes := []
  bitpos : Nat := 0

/-- The table after a clear code: the bytes and two codes that stand for nothing. -/
def lzwReset : List Bytes :=
  (List.range 258).map fun i => if i < 256 then [UInt8.ofNat i] else []

/-- Reads the code at a position, highest bit first. -/
def lzwNext (input : Bytes) (bitpos width : Nat) : Option Nat :=
  if input.length * 8 < bitpos + width then none
  else some ((List.range width).foldl (fun code b =>
    let p := bitpos + b
    2 * code + (input.getD (p / 8) 0).toNat / 2 ^ (7 - p % 8) % 2) 0)

/-- The bytes a code stands for. -/
def Lzw.entry? (s : Lzw) (code : Nat) : Option Bytes :=
  if code < s.table.length ∧ (code < 256 ∨ 258 ≤ code) then s.table[code]?
  else if code = s.table.length ∧ s.prev ≠ [] then some (s.prev ++ s.prev.take 1)
  else none

/-- Adds the bytes of a code to the output and a row to the table. -/
def Lzw.append (s : Lzw) (entry : Bytes) : Lzw :=
  let table := if s.prev ≠ [] then s.table ++ [s.prev ++ entry.take 1] else s.table
  { s with
    out := s.out ++ entry
    table := table
    prev := entry
    width := if 2 ^ s.width - 1 ≤ table.length ∧ s.width < 12 then s.width + 1 else s.width }

/-- The loop of `lzwDecode`. -/
def lzwLoop (input : Bytes) : Nat → Lzw → Bytes × Bool
  | 0, s => (s.out, true)
  | n + 1, s =>
      match lzwNext input s.bitpos s.width with
      | none => (s.out, true)
      | some code =>
          let s := { s with bitpos := s.bitpos + s.width }
          if code = 256 then lzwLoop input n { s with table := lzwReset, width := 9, prev := [] }
          else if code = 257 then (s.out, true)
          else match s.entry? code with
          | none => (s.out, false)
          | some entry =>
              if 100000000 < s.out.length + entry.length then (s.out, false)
              else lzwLoop input n (s.append entry)

/-- The decoded bytes, and whether the input was in order. -/
def lzwDecode (input : Bytes) : Bytes × Bool :=
  -- A code has nine bits or more.
  lzwLoop input (input.length * 8 / 9 + 1) { table := lzwReset }

/-- White space of PDF. -/
def isWs (c : UInt8) : Bool :=
  c == 0x20 || c == 0x09 || c == 0x0D || c == 0x0A || c == 0x0C || c == 0

/-- Searches for an end mark; the flag says whether one may start here. -/
def terminatorFrom (before : Bool) : Bytes → Bool
  | [] => false
  | [_] => false
  | c :: d :: rest =>
      (before && c == 0x45 && d == 0x49 && (rest.head?.map isWs).getD true) ||
        terminatorFrom (isWs c) (d :: rest)

/-- Tests whether the data of an image holds the mark that ends it. -/
def containsInlineTerminator (data : Bytes) : Bool := terminatorFrom true data

end Kura.Engine
