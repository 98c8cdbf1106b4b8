import Kura.Engine.CMap

/-!
# Forbidden characters in character maps

`scrubToUnicode` edits the strings that a `ToUnicode` map gives to codes: a
forbidden character is written over by the replacement character or, for a
private-use character that stands for a byte, by the character of that byte.

## Implementation notes

A place in the text is what stands from there on, as for the readers of these
maps, and the end of a section is the length of what stands from there on. The
place up to which the text has been copied is moved by the strings only, so the
text in front of a section is written once more in front of its first string.
-/

namespace Kura.Engine.ScrubToUnicode

open CMap (findText strtoul hexPad)

/-- The characters of the upper half of the Windows code page. -/
def kWinAnsiHigh : List Nat :=
  [0x20AC, 0, 0x201A, 0x0192, 0x201E, 0x2026, 0x2020, 0x2021,
    0x02C6, 0x2030, 0x0160, 0x2039, 0x0152, 0, 0x017D, 0,
    0, 0x2018, 0x2019, 0x201C, 0x201D, 0x2022, 0x2013, 0x2014,
    0x02DC, 0x2122, 0x0161, 0x203A, 0x0153, 0, 0x017E, 0x0178,
    0x00A0, 0x00A1, 0x00A2, 0x00A3, 0x00A4, 0x00A5, 0x00A6, 0x00A7,
    0x00A8, 0x00A9, 0x00AA, 0x00AB, 0x00AC, 0x00AD, 0x00AE, 0x00AF,
    0x00B0, 0x00B1, 0x00B2, 0x00B3, 0x00B4, 0x00B5, 0x00B6, 0x00B7,
    0x00B8, 0x00B9, 0x00BA, 0x00BB, 0x00BC, 0x00BD, 0x00BE, 0x00BF,
    0x00C0, 0x00C1, 0x00C2, 0x00C3, 0x00C4, 0x00C5, 0x00C6, 0x00C7,
    0x00C8, 0x00C9, 0x00CA, 0x00CB, 0x00CC, 0x00CD, 0x00CE, 0x00CF,
    0x00D0, 0x00D1, 0x00D2, 0x00D3, 0x00D4, 0x00D5, 0x00D6, 0x00D7,
    0x00D8, 0x00D9, 0x00DA, 0x00DB, 0x00DC, 0x00DD, 0x00DE, 0x00DF,
    0x00E0, 0x00E1, 0x00E2, 0x00E3, 0x00E4, 0x00E5, 0x00E6, 0x00E7,
    0x00E8, 0x00E9, 0x00EA, 0x00EB, 0x00EC, 0x00ED, 0x00EE, 0x00EF,
    0x00F0, 0x00F1, 0x00F2, 0x00F3, 0x00F4, 0x00F5, 0x00F6, 0x00F7,
    0x00F8, 0x00F9, 0x00FA, 0x00FB, 0x00FC, 0x00FD, 0x00FE, 0x00FF]

/-- A character of a code page that starts with ASCII. -/
def asciiOr (code : Nat) (high : List Nat) : Nat :=
  if 255 < code then 0
  else if 0x80 ≤ code then high.getD (code - 0x80) 0
  else if 0x20 ≤ code ∧ code < 0x7F then code
  else 0

def winAnsiToUnicode (code : Nat) : Nat := asciiOr code kWinAnsiHigh

/-- The value of digits, as an `unsigned`. -/
def unitOf (s : Bytes) : Nat := strtoul s % 2 ^ 32

/-- The private-use characters that are written as two units. -/
def privatePlane (cp : Nat) : Bool :=
  (0xF0000 ≤ cp && cp ≤ 0xFFFFD) || (0x100000 ≤ cp && cp ≤ 0x10FFFD)

/-- The digits that are written over a unit. -/
def scrubUnit (banned : Bool) (v : Nat) : Option Bytes :=
  if v = 0 ∨ v = 0xFEFF ∨ v = 0xFFFE then some (lit "FFFD")
  else if banned ∧ 0xE000 ≤ v ∧ v ≤ 0xF8FF then
    let win := if v &&& 0xFF00 = 0xF000 then winAnsiToUnicode (v &&& 0xFF) else 0
    some (hexPad 4 (if win ≠ 0 then win else 0xFFFD))
  else none

/-- Writes a unit in front of what follows. -/
def writeUnit (banned : Bool) (quad : Bytes) (more : Bytes × Bool) : Bytes × Bool :=
  match scrubUnit banned (unitOf quad) with
  | some rep => (rep ++ more.1, true)
  | none => (quad ++ more.1, more.2)

/-- What is written for the digits of a string, four by four. -/
def scrubQuads (banned : Bool) : Bytes → Bytes × Bool
  | a :: b :: c :: d :: e :: f :: g :: h :: rest =>
      let v := unitOf [a, b, c, d]
      let lo := unitOf [e, f, g, h]
      if banned && (0xD800 ≤ v && v ≤ 0xDBFF) && (0xDC00 ≤ lo && lo ≤ 0xDFFF) then
        let more := scrubQuads banned rest
        if privatePlane (0x10000 + (v - 0xD800) * 0x400 + (lo - 0xDC00)) then
          (lit "FFFD" ++ more.1, true)
        else ([a, b, c, d, e, f, g, h] ++ more.1, more.2)
      else writeUnit banned [a, b, c, d] (scrubQuads banned (e :: f :: g :: h :: rest))
  | a :: b :: c :: d :: rest => writeUnit banned [a, b, c, d] (scrubQuads banned rest)
  | hex => (hex, false)

/-- What is written for the digits of a string that holds something forbidden. -/
def scrubDst (banned : Bool) (digits : Bytes) : Option Bytes :=
  let hex := scrubQuads banned digits
  let v := unitOf hex.1
  -- fewer digits than a unit has
  if hex.1.length < 4 ∧ hex.1 ≠ [] ∧ (v = 0 ∨ v = 0xFEFF ∨ v = 0xFFFE) then
    some ((Nat.digits 16 (0xFFFD % 16 ^ hex.1.length)).reverse.map hexDigit)
  else if hex.2 then some hex.1
  else none

/-- The next string in angle brackets before the end of a section: what stands in front of it, its
digits and what stands behind it. -/
def nextString (stop : Nat) (s : Bytes) : Option (Bytes × Bytes × Bytes) :=
  let t := s.dropWhile (· ≠ 0x3C)
  if t.length ≤ stop then none
  else
    let u := (t.drop 1).dropWhile (· ≠ 0x3E)
    if u.length ≤ stop then none
    else some (s.takeWhile (· ≠ 0x3C), (t.drop 1).takeWhile (· ≠ 0x3E), u.drop 1)

/-- Whether an array is open, and the strings of an entry that were passed. -/
structure Phase where
  inArray : Bool
  phase : Nat

def Phase.bracket (p : Phase) (c : UInt8) : Phase :=
  if c = 0x5B then ⟨true, p.phase⟩ else if c = 0x5D then ⟨false, 0⟩ else p

/-- The string that comes next is one that is given to a code. -/
def Phase.isDst (range : Bool) (p : Phase) : Bool := if range then p.phase == 2 else p.phase == 1

def Phase.next (range : Bool) (p : Phase) : Phase :=
  if range then
    if p.phase < 2 then ⟨p.inArray, p.phase + 1⟩ else if !p.inArray then ⟨p.inArray, 0⟩ else p
  else ⟨p.inArray, p.phase ^^^ 1⟩

theorem dropWhile_ne_eq_cons {c : UInt8} {s : Bytes} (h : 0 < (s.dropWhile (· ≠ c)).length) :
    s.dropWhile (· ≠ c) = c :: (s.dropWhile (· ≠ c)).drop 1 := by
  induction s with
  | nil => cases h
  | cons d s ih =>
      rw [List.dropWhile_cons] at h ⊢
      split
      · rename_i hne
        rw [if_pos hne] at h
        exact ih h
      · rename_i heq
        rw [decide_eq_true_eq, not_not] at heq
        rw [heq]
        rfl

/-- The parts of a text around its next string. -/
theorem nextString_parts {stop : Nat} {s skipped digits rest : Bytes}
    (h : nextString stop s = some (skipped, digits, rest)) :
    s = skipped ++ 0x3C :: digits ++ 0x3E :: rest ∧ stop ≤ rest.length := by
  rw [nextString] at h
  dsimp only at h
  split at h
  · cases h
  · rename_i hopen
    split at h
    · cases h
    · rename_i hclose
      cases h
      have hs := List.takeWhile_append_dropWhile (p := (· ≠ 0x3C)) (l := s)
      have hdigits := List.takeWhile_append_dropWhile (p := (· ≠ 0x3E))
        (l := (s.dropWhile (· ≠ 0x3C)).drop 1)
      rw [dropWhile_ne_eq_cons (Nat.zero_lt_of_lt (Nat.lt_of_not_le hclose))] at hdigits
      rw [dropWhile_ne_eq_cons (Nat.zero_lt_of_lt (Nat.lt_of_not_le hopen)), ← hdigits] at hs
      refine ⟨?_, ?_⟩
      · rw [List.append_assoc]
        exact hs.symm
      · rw [List.length_drop]
        omega

theorem nextString_length {stop : Nat} {s skipped digits rest : Bytes}
    (h : nextString stop s = some (skipped, digits, rest)) : rest.length < s.length := by
  rw [(nextString_parts h).1]
  simp only [List.length_append, List.length_cons]
  omega

/-- What is written for the strings of a section, whether one of them was edited, and what stands
behind the text that has been copied. -/
structure SectionEdit where
  out : Bytes
  changed : Bool
  copied : Bytes

def scrubSection (banned range : Bool) (stop : Nat) (p : Phase) (copied s : Bytes) : SectionEdit :=
  match _hnext : nextString stop s with
  | none => ⟨[], false, copied⟩
  | some (skipped, digits, rest) =>
      let p := skipped.foldl Phase.bracket p
      let edited := if p.isDst range then scrubDst banned digits else none
      let more := scrubSection banned range stop (p.next range) rest rest
      ⟨copied.take (copied.length - s.length) ++ skipped ++ 0x3C :: edited.getD digits ++
        0x3E :: more.out, edited.isSome || more.changed, more.copied⟩
  termination_by s.length
  decreasing_by exact nextString_length _hnext

def beginMark (range : Bool) : Bytes := if range then lit "beginbfrange" else lit "beginbfchar"

def endMark (range : Bool) : Bytes := if range then lit "endbfrange" else lit "endbfchar"

/-- The next section of ranges or of single codes, whichever comes first. -/
def nextSection (s : Bytes) : Option (Bool × Bytes) :=
  match findText (beginMark false) s, findText (beginMark true) s with
  | none, none => none
  | some t, none => some (false, t)
  | none, some u => some (true, u)
  | some t, some u => if t.length < u.length then some (true, u) else some (false, t)

/-- A word that was found stands there. -/
theorem prefix_of_findText {word s t : Bytes} (h : findText word s = some t) :
    word <+: t ∧ t <:+ s := by
  induction s with
  | nil => cases h
  | cons c rest ih =>
      rw [findText] at h
      split at h
      · rename_i hword
        cases h
        exact ⟨List.isPrefixOf_iff_prefix.mp hword, List.suffix_rfl⟩
      · obtain ⟨hpre, hsuf⟩ := ih h
        exact ⟨hpre, hsuf.trans (List.suffix_cons c rest)⟩

theorem nextSection_spec {s t : Bytes} {range : Bool} (h : nextSection s = some (range, t)) :
    findText (beginMark range) s = some t := by
  rw [nextSection] at h
  split at h
  · cases h
  · cases h
    assumption
  · cases h
    assumption
  · split at h
    · cases h
      assumption
    · cases h
      assumption

/-- A section ends behind its start. -/
theorem endMark_length {s t u : Bytes} {range : Bool} (hsec : nextSection s = some (range, t))
    (hend : findText (endMark range) t = some u) : u.length < s.length := by
  obtain ⟨hbegin, hts⟩ := prefix_of_findText (nextSection_spec hsec)
  obtain ⟨hword, hut⟩ := prefix_of_findText hend
  refine lt_of_lt_of_le (lt_of_le_of_ne hut.length_le ?_) hts.length_le
  intro hlen
  rw [hut.eq_of_length hlen] at hword
  -- the two words would stand at one place
  cases range with
  | false =>
      have hsame := List.prefix_of_prefix_length_le hword hbegin (by decide)
      exact absurd hsame (by decide)
  | true =>
      have hsame := List.prefix_of_prefix_length_le hword hbegin (by decide)
      exact absurd hsame (by decide)

/-- What is written for a text that has been copied up to a place, and whether something was edited
in it. The text in front of a section is written when the section is found. -/
def scrubText (banned : Bool) (copied s : Bytes) : Bytes × Bool :=
  match _hsec : nextSection s with
  | none => (copied, false)
  | some (range, t) =>
      match _hend : findText (endMark range) t with
      | none => (copied, false)
      | some u =>
          let here := scrubSection banned range u.length ⟨false, 0⟩ copied t
          let more := scrubText banned here.copied u
          (copied.take (copied.length - t.length) ++ here.out ++ more.1, here.changed || more.2)
  termination_by s.length
  decreasing_by exact endMark_length _hsec _hend

/-- Private-use characters are banned at conformance level A and in accessible documents. -/
def puaBanned (conf : UInt8) (ua : Bool) : Bool := conf == 0x41 || ua

/-- The new text of a map, if something is edited in it. -/
def scrubToUnicode (conf : UInt8) (ua : Bool) (text : Bytes) : Option Bytes :=
  let out := scrubText (puaBanned conf ua) text text
  if out.2 then some out.1 else none

theorem writeUnit_unchanged {banned : Bool} {quad : Bytes} {more : Bytes × Bool}
    (h : (writeUnit banned quad more).2 = false) :
    (writeUnit banned quad more).1 = quad ++ more.1 ∧ more.2 = false := by
  rw [writeUnit] at h ⊢
  split at h
  · cases h
  · exact ⟨rfl, h⟩

/-- Digits that are reported as unchanged are unchanged. -/
theorem scrubQuads_unchanged {banned : Bool} {hex : Bytes}
    (h : (scrubQuads banned hex).2 = false) : (scrubQuads banned hex).1 = hex := by
  fun_induction scrubQuads banned hex with
  | case1 => cases h
  | case2 a b c d e f g g' rest v lo hpair more hplane ih =>
      have hrest : more.1 = rest := ih h
      rw [hrest]
      rfl
  | case3 a b c d e f g g' rest v lo hpair ih =>
      obtain ⟨heq, hmore⟩ := writeUnit_unchanged h
      rw [heq, ih hmore]
      rfl
  | case4 a b c d rest hshort ih =>
      obtain ⟨heq, hmore⟩ := writeUnit_unchanged h
      rw [heq, ih hmore]
      rfl
  | case5 => rfl

end Kura.Engine.ScrubToUnicode
