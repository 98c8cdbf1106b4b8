import Kura.Engine.Content

/-!
# Two readers of `ToUnicode`

The text of a font's codes is read from its `ToUnicode` stream twice: by
`parseToUnicode` when text is extracted, and by `toUnicodeMap` when a profile
is checked. Neither of them reads the stream as the language it is written in;
both look for the words around the entries and for strings in angle brackets.

## Implementation notes

A section is the text from its opening word up to the closing one. What stands
at its end is no angle bracket, so a string is closed inside of it or not at
all. Codes are 32 bits wide. A range that ends at the last of them has no end:
the loop over it never stops, and a reader that comes to it has no result.
-/

namespace Kura.Engine.ToUnicode

/-- The UTF-8 bytes of a code point. -/
def utf8Of (cp : Nat) : Bytes :=
  if cp < 0x80 then [UInt8.ofNat cp]
  else if cp < 0x800 then [UInt8.ofNat (0xC0 ||| cp >>> 6), UInt8.ofNat (0x80 ||| cp &&& 0x3F)]
  else if cp < 0x10000 then
    [UInt8.ofNat (0xE0 ||| cp >>> 12), UInt8.ofNat (0x80 ||| (cp >>> 6) &&& 0x3F),
      UInt8.ofNat (0x80 ||| cp &&& 0x3F)]
  else if cp < 0x110000 then
    [UInt8.ofNat (0xF0 ||| cp >>> 18), UInt8.ofNat (0x80 ||| (cp >>> 12) &&& 0x3F),
      UInt8.ofNat (0x80 ||| (cp >>> 6) &&& 0x3F), UInt8.ofNat (0x80 ||| cp &&& 0x3F)]
  else []

/-- The value of the hexadecimal digits at the start of a text. -/
def hexNumber (s : Bytes) : Nat :=
  (s.takeWhile isXDigit).foldl (fun n c => 16 * n + (hexValue c).toNat) 0

/-- `std::strtoul` at base sixteen of a text without a sign or blanks. -/
def strtoul16 (s : Bytes) : Nat := min (hexNumber s) (2 ^ 64 - 1)

def isHigh (u : Nat) : Bool := 0xD800 ≤ u && u < 0xDC00

def isLow (u : Nat) : Bool := 0xDC00 ≤ u && u < 0xE000

/-- The code point of two surrogates. -/
def combined (u l : Nat) : Nat := 0x10000 + (u - 0xD800) * 0x400 + l - 0xDC00

/-- The strings in angle brackets, each with the text behind it. With `brackets` an opening
square bracket counts as one. The first argument holds the digits of a string that is open. -/
def hexesFrom (brackets : Bool) : Option Bytes → Bytes → List (Bytes × Bytes)
  | _, [] => []
  | none, c :: rest =>
      if c = 0x3C then hexesFrom brackets (some []) rest
      else if brackets ∧ c = 0x5B then ([0x5B], rest) :: hexesFrom brackets none rest
      else hexesFrom brackets none rest
  | some h, c :: rest =>
      if c = 0x3E then (h, rest) :: hexesFrom brackets none rest
      else hexesFrom brackets (some (if isXDigit c then h ++ [c] else h)) rest

def hexes (brackets : Bool) (w : Bytes) : List (Bytes × Bytes) := hexesFrom brackets none w

/-- The sections between two words; the first argument holds the text of one that is open. -/
def sectionsFrom (first last : Bytes) : Option Bytes → Bytes → List Bytes
  | _, [] => []
  | none, c :: rest =>
      if first.isPrefixOf (c :: rest) then sectionsFrom first last (some [c]) rest
      else sectionsFrom first last none rest
  | some w, c :: rest =>
      if last.isPrefixOf (c :: rest) then w :: sectionsFrom first last none rest
      else sectionsFrom first last (some (w ++ [c])) rest

def charSections (t : Bytes) : List Bytes :=
  sectionsFrom (lit "beginbfchar") (lit "endbfchar") none t

/-- The sections of ranges, without their opening word. -/
def rangeSections (t : Bytes) : List Bytes :=
  (sectionsFrom (lit "beginbfrange") (lit "endbfrange") none t).map fun w => w.drop 12

/-- A code. -/
def codeOf (h : Bytes) : Nat := strtoul16 h % 2 ^ 32

/-- The number of codes in a range. -/
def span (lo hi : Nat) : Option Nat := if hi = 2 ^ 32 - 1 then none else some (hi - lo + 1)

/-- Both readers leave a section at such a range. -/
def badRange (lo hi : Nat) : Bool := hi < lo || 65535 < hi - lo

/-- Two by two. -/
def pairs : List Bytes → List (Bytes × Bytes)
  | a :: b :: rest => (a, b) :: pairs rest
  | _ => []

section Entries

variable {β : Type}

/-- Values for the codes from one on. -/
def numbered (lo : Nat) (vs : List β) : List (Nat × β) :=
  vs.zipIdx.map fun v => ((lo + v.2) % 2 ^ 32, v.1)

/-- Sets the texts of codes. -/
def assign (m : AList fun _ : Nat => β) (es : List (Nat × β)) : AList fun _ : Nat => β :=
  es.foldl (fun m e => m.insert e.1 e.2) m

/-- Reads sections one after the other, until the map is full. -/
def readSections (full : Nat → Bool) (read : Bytes → Option (List (Nat × β))) :
    AList (fun _ : Nat => β) → List Bytes → Option (AList fun _ : Nat => β)
  | m, [] => some m
  | m, w :: ws =>
      if full m.keys.length then some m
      else (read w).bind fun es => readSections full read (assign m es) ws

end Entries

/-- The bytes of a string of digits. -/
def bytesOf : Bytes → List Nat
  | a :: b :: rest => strtoul16 [a, b] :: bytesOf rest
  | _ => []

/-- The text of UTF-16 bytes; a high surrogate is joined with whatever follows. -/
def decodeBytes : List Nat → Bytes
  | a :: b :: c :: d :: rest =>
      if isHigh (256 * a + b) then
        utf8Of (combined (256 * a + b) (256 * c + d)) ++ decodeBytes rest
      else utf8Of (256 * a + b) ++ decodeBytes (c :: d :: rest)
  | a :: b :: rest => utf8Of (256 * a + b) ++ decodeBytes rest
  | _ => []

def utf16beToUtf8 (hex : Bytes) : Bytes := decodeBytes (bytesOf hex)

/-- Four digits, as `%04lX` writes them. -/
def hex4 (n : Nat) : Bytes := [3, 2, 1, 0].map fun i => hexDigit (n / 16 ^ i % 16)

/-- The destination of a range for its code at a distance: the last four digits are counted up. -/
def shifted (base : Bytes) (k : Nat) : Bytes :=
  base.take (base.length - 4) ++ hex4 ((strtoul16 (base.drop (base.length - 4)) + k) % 65536)

/-- The entries of a `bfchar` section. -/
def charEntries (w : Bytes) : List (Nat × Bytes) :=
  (pairs ((hexes false w).map Prod.fst)).map fun p => (codeOf p.1, utf16beToUtf8 p.2)

/-- The entries of a `bfrange` section. -/
def rangeEntries : Nat → Bytes → Option (List (Nat × Bytes))
  | 0, _ => some []
  | fuel + 1, w =>
      match hexes false w with
      | (a, _) :: (b, after) :: _ =>
          let lo := codeOf a
          let hi := codeOf b
          if badRange lo hi then some []
          else
            match after.dropWhile isSpace with
            | 0x5B :: rest =>
                if 0x5D ∈ rest then
                  let arr := (hexes false (rest.takeWhile (· ≠ 0x5D))).map Prod.fst
                  let arr := (span lo hi).elim arr fun n => arr.take n
                  (rangeEntries fuel ((rest.dropWhile (· ≠ 0x5D)).drop 1)).map
                    (numbered lo (arr.map utf16beToUtf8) ++ ·)
                else some []
            | q =>
                match hexes false q with
                | [] => some []
                | (base, rest) :: _ =>
                    (span lo hi).bind fun n =>
                      (rangeEntries fuel rest).map
                        (numbered lo ((List.range n).map fun k =>
                          utf16beToUtf8 (shifted base k)) ++ ·)
      | _ => some []

/-- The map of text extraction. -/
def parseToUnicode (t : Bytes) : Option (AList fun _ : Nat => Bytes) :=
  (readSections (fun _ => false) (fun w => some (charEntries w)) ∅ (charSections t)).bind fun m =>
    readSections (fun _ => false) (fun w => rangeEntries (w.length + 1) w) m (rangeSections t)

/-- The UTF-16 units of a string of digits; two digits are one. -/
def wholeUnits : Bytes → List Nat
  | a :: b :: c :: d :: rest => strtoul16 [a, b, c, d] :: wholeUnits rest
  | _ => []

def units (h : Bytes) : List Nat := wholeUnits h ++ if h.length = 2 then [strtoul16 h] else []

/-- The code points of units; surrogates that are no pair stand for themselves. -/
def decodePaired : List Nat → List Nat
  | u :: l :: rest =>
      if isHigh u && isLow l then combined u l :: decodePaired rest
      else u :: decodePaired (l :: rest)
  | [u] => [u]
  | [] => []

def utf16Hex (h : Bytes) : List Nat := decodePaired (units h)

/-- The destination of a range for its code at a distance: the last code point is counted up. -/
def addLast (base : List Nat) (k : Nat) : List Nat :=
  base.dropLast ++ base.getLast?.toList.map (· + k)

def profileChars (w : Bytes) : List (Nat × List Nat) :=
  (pairs ((hexes true w).map Prod.fst)).map fun p => (codeOf p.1, utf16Hex p.2)

/-- The entries of the strings of a `bfrange` section. -/
def profileRanges : Nat → List Bytes → Option (List (Nat × List Nat))
  | 0, _ => some []
  | fuel + 1, v =>
      match v with
      | a :: b :: d :: rest =>
          let lo := codeOf a
          let hi := codeOf b
          if badRange lo hi then some []
          else if d = [0x5B] then
            let run := rest.takeWhile (· ≠ [0x5B])
            let arr := (span lo hi).elim run fun n => run.take n
            (profileRanges fuel (rest.drop arr.length)).map (numbered lo (arr.map utf16Hex) ++ ·)
          else if utf16Hex d = [] then profileRanges fuel rest
          else
            (span lo hi).bind fun n =>
              (profileRanges fuel rest).map
                (numbered lo ((List.range n).map (addLast (utf16Hex d))) ++ ·)
      | _ => some []

/-- The map of profile checks. -/
def toUnicodeMap (t : Bytes) : Option (AList fun _ : Nat => List Nat) :=
  let full := fun n : Nat => !decide (n < 70000)
  (readSections full (fun w => some (profileChars w)) ∅ (charSections t)).bind fun m =>
    readSections full (fun w =>
      profileRanges ((hexes true w).length + 1) ((hexes true w).map Prod.fst)) m (rangeSections t)

/-- The text of a code, as UTF-8, by the two maps. -/
def extractedText (t : Bytes) (c : Nat) : Option (Option Bytes) :=
  (parseToUnicode t).map (AList.lookup c)

def profileText (t : Bytes) (c : Nat) : Option (Option Bytes) :=
  (toUnicodeMap t).map fun m => (m.lookup c).map fun s => s.flatMap utf8Of

end Kura.Engine.ToUnicode
