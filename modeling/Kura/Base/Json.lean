import Mathlib

/-!
# JSON values and their compact text

Objects keep the order of their members. The text has no white space; in
strings only the quote, the backslash and the control characters below
space are escaped, with the short forms where there are such.
-/

namespace Kura.Base

/-- JSON values with integer numbers. -/
inductive Json where
  | null
  | bool (b : Bool)
  | num (n : Int)
  | str (s : String)
  | arr (items : List Json)
  | obj (members : List (String × Json))

namespace Json

/-- The member of an object. -/
def get? (members : List (String × Json)) (key : String) : Option Json :=
  (members.find? fun m => m.1 == key).map Prod.snd

/-- Replace a member in place, or append it. -/
def put (members : List (String × Json)) (key : String) (v : Json) : List (String × Json) :=
  if members.any fun m => m.1 == key then
    members.map fun m => if m.1 == key then (key, v) else m
  else members ++ [(key, v)]

/-- Remove a member; the others keep their order. -/
def remove (members : List (String × Json)) (key : String) : List (String × Json) :=
  members.filter fun m => m.1 != key

/-- The two lower case hexadecimal digits of a code below 256. -/
def hexPair (n : Nat) : List Char := [Nat.digitChar (n / 16), Nat.digitChar (n % 16)]

/-- A character inside a quoted string. -/
def escape (c : Char) : List Char :=
  if c = '"' then ['\\', '"']
  else if c = '\\' then ['\\', '\\']
  else if c.toNat = 8 then ['\\', 'b']
  else if c.toNat = 12 then ['\\', 'f']
  else if c = '\n' then ['\\', 'n']
  else if c = '\r' then ['\\', 'r']
  else if c = '\t' then ['\\', 't']
  else if c.toNat < 32 then ['\\', 'u', '0', '0'] ++ hexPair c.toNat
  else [c]

/-- A quoted string. -/
def quote (s : String) : List Char := '"' :: s.toList.flatMap escape ++ ['"']

/-- A decimal integer. -/
def intText (n : Int) : List Char :=
  if n < 0 then '-' :: Nat.toDigits 10 n.natAbs else Nat.toDigits 10 n.natAbs

mutual

/-- The compact text of a value. -/
def text : Json → List Char
  | .null => ['n', 'u', 'l', 'l']
  | .bool true => ['t', 'r', 'u', 'e']
  | .bool false => ['f', 'a', 'l', 's', 'e']
  | .num n => intText n
  | .str s => quote s
  | .arr [] => ['[', ']']
  | .arr (x :: xs) => '[' :: text x ++ itemsText xs
  | .obj [] => ['{', '}']
  | .obj ((k, v) :: ms) => '{' :: quote k ++ ':' :: text v ++ membersText ms

/-- The items after the first, with the closing bracket. -/
def itemsText : List Json → List Char
  | [] => [']']
  | x :: xs => ',' :: text x ++ itemsText xs

/-- The members after the first, with the closing brace. -/
def membersText : List (String × Json) → List Char
  | [] => ['}']
  | (k, v) :: ms => ',' :: quote k ++ ':' :: text v ++ membersText ms

end

end Json

/-- The UTF-8 encoding of a text. -/
def utf8 (cs : List Char) : List UInt8 := cs.flatMap String.utf8EncodeChar

end Kura.Base
