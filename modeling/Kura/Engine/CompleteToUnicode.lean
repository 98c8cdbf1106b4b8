import Kura.Base.SortedMap
import Kura.Engine.Jobs
import Kura.Engine.ScrubbedMap

/-!
# Completing `ToUnicode` maps

`ensureSimpleToUnicode` and `ensureCidToUnicode` read the texts of codes from
the `ToUnicode` map of a font, add a text for each code that has none, and
write all of them as a new map with `buildCMapStream`.

## Implementation notes

A font is seen as what is asked of its program: the names and the glyphs of its
codes and the code points of its glyphs. The map of texts is the list of its
assignments; it is written as the sorted list of its last ones. A map that is
read in all rounds is none if a range of it never ends.
-/

namespace Kura.Engine.CompleteToUnicode

open Base (assign firsts)
open CMap (Code Writes hexPad utf16Hex parseExistingToUnicode allRounds)
open Jobs (Issue)
open ScrubToUnicode (winAnsiToUnicode)

/-- The digits of a code. -/
def codeDigits (twoByte : Bool) (c : Code) : Bytes := hexPad (if twoByte then 4 else 2) c.toNat

def bfcharLine (twoByte : Bool) (e : Code × Bytes) : Bytes :=
  [0x3C] ++ codeDigits twoByte e.1 ++ lit "> <" ++ e.2 ++ lit ">\n"

/-- Sections of at most a hundred entries. -/
def bfcharBlocks (twoByte : Bool) : List (Code × Bytes) → Bytes
  | [] => []
  | e :: es =>
      decimal (min 100 (e :: es).length) ++ lit " beginbfchar\n" ++
        ((e :: es).take 100).flatMap (bfcharLine twoByte) ++ lit "endbfchar\n" ++
        bfcharBlocks twoByte (es.drop 99)
  termination_by entries => entries.length
  decreasing_by
    rw [List.length_drop, List.length_cons]
    omega

def cmapHeader (twoByte : Bool) : Bytes :=
  lit "/CIDInit /ProcSet findresource begin\n12 dict begin\nbegincmap\n" ++
    lit "/CIDSystemInfo << /Registry (Adobe) /Ordering (UCS) /Supplement 0 >> def\n" ++
    lit "/CMapName /Adobe-Identity-UCS def\n/CMapType 2 def\n" ++
    lit "1 begincodespacerange\n" ++ (if twoByte then lit "<0000> <FFFF>" else lit "<00> <FF>") ++
    lit "\nendcodespacerange\n"

def cmapFooter : Bytes := lit "endcmap\nCMapName currentdict /CMap defineresource pop\nend\nend\n"

def buildCMapStream (entries : List (Code × Bytes)) (twoByte : Bool) : Bytes :=
  cmapHeader twoByte ++ bfcharBlocks twoByte entries ++ cmapFooter

/-- A code has a text that is kept. -/
def hasText (entries : Writes Bytes) (c : Code) : Bool :=
  match assign (fun _ => none) entries c with
  | some s => s ≠ [] && s ≠ lit "0000"
  | none => false

/-- The texts of codes, and how many were added. -/
structure Progress where
  entries : Writes Bytes
  added : Nat

def Progress.step (fill : Nat → Option Code) (p : Progress) (code : Nat) : Progress :=
  if hasText p.entries (BitVec.ofNat 32 code) then p
  else
    match fill code with
    | none => p
    | some uni => ⟨p.entries ++ [(BitVec.ofNat 32 code, utf16Hex uni)], p.added + 1⟩

/-- Adds texts for the codes below a number. -/
def complete (fill : Nat → Option Code) (entries : Writes Bytes) (count : Nat) : Progress :=
  (List.range count).foldl (Progress.step fill) ⟨entries, 0⟩

/-- The map of assignments, sorted by codes. -/
def sorted (entries : Writes Bytes) : List (Code × Bytes) := firsts BitVec.toNat entries.reverse

/-- A new map, and what is reported. -/
structure Written where
  entries : List (Code × Bytes)
  stream : Bytes
  issue : Issue

/-- The new map of a font, if one is written. -/
def completeToUnicode (twoByte : Bool) (count : Nat) (fill : Nat → Option Code) (baseFont : String)
    (existing : Option Bytes) : Option (Option Written) :=
  let read := match existing with
    | some text => parseExistingToUnicode allRounds text
    | none => some []
  read.map fun entries =>
    let done := complete fill entries count
    if done.added = 0 then none
    else some ⟨sorted done.entries, buildCMapStream (sorted done.entries) twoByte,
      ⟨"TOUNICODE_BUILT", "completed ToUnicode mapping for " ++ baseFont, true, 0, []⟩⟩

/-- A font program that is loaded. -/
structure Face where
  numGlyphs : Nat
  /-- The code point of a glyph by the character map. -/
  gidToUni : Nat → Option Code
  /-- The name of the glyph that the character map has for a code. -/
  charName : Nat → Option Bytes
  glyphForCode : Nat → Nat

/-- The readers of glyph names. -/
structure GlyphNames where
  aglNameToUnicode : Bytes → Code
  parseUniName : Bytes → Option Code

structure SimpleFont where
  baseFont : String
  face : Option Face
  /-- The names of differences, with their slash. -/
  diffs : Nat → Bytes
  base : Option (Nat → BitVec 16)

/-- A code point that is not zero. -/
def nonzero (uni : Code) : Option Code := if uni = 0 then none else some uni

def winAnsi (code : Nat) : Code := BitVec.ofNat 32 (winAnsiToUnicode code)

def deriveSimpleUnicode (names : GlyphNames) (font : SimpleFont) (code : Nat) : Code :=
  let byDiff :=
    if font.diffs code = [] then none
    else nonzero (names.aglNameToUnicode ((font.diffs code).drop 1))
  let byBase := font.base.bind fun base => nonzero ((base code).setWidth 32)
  let byName := (font.face.bind fun face => face.charName code).bind fun name =>
    let uni := names.aglNameToUnicode name
    nonzero (if uni = 0 then (names.parseUniName name).getD 0 else uni)
  let byGlyph := font.face.bind fun face =>
    if face.glyphForCode code = 0 then none else face.gidToUni (face.glyphForCode code)
  ((((byDiff.or byBase).or byName).or byGlyph).or (nonzero (winAnsi code))).getD 0xFFFD

/-- A private-use character. -/
def isPrivate (uni : Code) : Bool := 0xE000 ≤ uni && uni ≤ 0xF8FF

/-- The character of the byte that a private-use character stands for; zero if there is none. -/
def symbolWin (uni : Code) : Code :=
  if uni &&& 0xFF00 = 0xF000 then winAnsi (uni &&& 0xFF).toNat else 0

/-- The text that is added for a code of a simple font. -/
def simpleFill (names : GlyphNames) (font : SimpleFont) (code : Nat) : Option Code :=
  let uni := deriveSimpleUnicode names font code
  some (if isPrivate uni then
    if symbolWin uni ≠ 0 then symbolWin uni
    else if winAnsi code ≠ 0 then winAnsi code else uni
  else uni)

def ensureSimpleToUnicode (names : GlyphNames) (font : SimpleFont) (existing : Option Bytes) :
    Option (Option Written) :=
  completeToUnicode false 256 (simpleFill names font) font.baseFont existing

/-- The descendant of a composite font. -/
structure CidFont where
  face : Option Face
  /-- The data of the map of glyphs; empty if there is none that can be read. -/
  mapData : Bytes

def CidFont.numCids (font : CidFont) : Nat :=
  min 65536 (if font.mapData ≠ [] then font.mapData.length / 2
    else match font.face with
      | some face => face.numGlyphs
      | none => 65536)

def CidFont.gid (font : CidFont) (cid : Nat) : Nat :=
  if font.mapData ≠ [] then
    (font.mapData[cid * 2]?.getD 0).toNat * 256 + (font.mapData[cid * 2 + 1]?.getD 0).toNat
  else cid

/-- The text that is added for a code of a composite font, if one is. -/
def cidFill (font : CidFont) (cid : Nat) : Option Code :=
  let gid := font.gid cid
  if gid = 0 ∧ cid ≠ 0 then none
  else if font.face.any fun face => face.numGlyphs ≤ gid then none
  else
    match (if gid = 0 then none else font.face.bind fun face => face.gidToUni gid) with
    | some uni =>
        some (if isPrivate uni then if symbolWin uni ≠ 0 then symbolWin uni else 0xFFFD else uni)
    | none =>
        some (if 0x20 ≤ cid ∧ cid ≤ 0x10FFFF ∧ ¬ (0xD800 ≤ cid ∧ cid ≤ 0xDFFF)
          then BitVec.ofNat 32 cid else 0xFFFD)

/-- A composite font with its descendants that are dictionaries. -/
structure Type0 where
  baseFont : String
  descendants : List (Option CidFont)

def ensureCidToUnicode (font : Type0) (existing : Option Bytes) : Option (Option Written) :=
  match font.descendants with
  | [some cidFont] =>
      completeToUnicode true cidFont.numCids (cidFill cidFont) font.baseFont existing
  | _ => some none

theorem digitsOf_append (s t : Bytes) :
    ToUnicode.digitsOf (s ++ t) = t.foldl (fun n c => 16 * n + (hexValue c).toNat)
      (ToUnicode.digitsOf s) := List.foldl_append

theorem digitsOf_zeros (k : Nat) (s : Bytes) :
    ToUnicode.digitsOf (List.replicate k 0x30 ++ s) = ToUnicode.digitsOf s := by
  induction k with
  | zero => rfl
  | succ k ih => exact ih

theorem digitsOf_digits (n : Nat) :
    ToUnicode.digitsOf ((Nat.digits 16 n).reverse.map hexDigit) = n := by
  have hdigits : ∀ d ∈ Nat.digits 16 n, (hexValue (hexDigit d)).toNat = d := fun d hd =>
    (ToUnicode.hexDigit_spec d (Nat.digits_lt_base (by decide) hd)).2
  have hfold : ∀ ds : List Nat, (∀ d ∈ ds, (hexValue (hexDigit d)).toNat = d) →
      ToUnicode.digitsOf (ds.reverse.map hexDigit) = Nat.ofDigits 16 ds := by
    intro ds hds
    induction ds with
    | nil => rfl
    | cons d ds ih =>
        obtain ⟨hd, hrest⟩ := List.forall_mem_cons.mp hds
        rw [List.reverse_cons, List.map_append, digitsOf_append, ih hrest, Nat.ofDigits_cons,
          List.map_singleton, List.foldl_cons, List.foldl_nil, hd, add_comm]
  rw [hfold _ hdigits, Nat.ofDigits_digits]

theorem digital_hexPad (w n : Nat) : ToUnicode.Digital (hexPad w n) := by
  intro c hc
  obtain hzero | hdigit := List.mem_append.mp hc
  · rw [List.eq_of_mem_replicate hzero]
    rfl
  · obtain ⟨d, hd, rfl⟩ := List.mem_map.mp hdigit
    exact (ToUnicode.hexDigit_spec d
      (Nat.digits_lt_base (by decide) (List.mem_reverse.mp hd))).1

theorem length_hexPad (w n : Nat) :
    (hexPad w n).length = max w (Nat.digits 16 n).length := by
  simp only [hexPad, List.length_append, List.length_replicate, List.length_map,
    List.length_reverse]
  omega

/-- A code is read back from its digits. -/
theorem codeOf_codeDigits (twoByte : Bool) (c : Code) : CMap.codeOf (codeDigits twoByte c) = c := by
  have hdigital := digital_hexPad (if twoByte then 4 else 2) c.toNat
  have hlen : 2 ≤ (hexPad (if twoByte then 4 else 2) c.toNat).length := by
    rw [length_hexPad]
    cases twoByte <;> simp
  have hvalue : ToUnicode.digitsOf (hexPad (if twoByte then 4 else 2) c.toNat) = c.toNat := by
    rw [hexPad, digitsOf_zeros, digitsOf_digits]
  rw [codeDigits, CMap.codeOf]
  obtain ⟨a, b, s, hs⟩ : ∃ a b s, hexPad (if twoByte then 4 else 2) c.toNat = a :: b :: s := by
    obtain ⟨a, t, ht⟩ := List.exists_cons_of_length_pos (Nat.zero_lt_of_lt hlen)
    rw [ht, List.length_cons] at hlen
    obtain ⟨b, s, rfl⟩ := List.exists_cons_of_length_pos (Nat.le_of_succ_le_succ hlen)
    exact ⟨a, b, s, ht⟩
  rw [hs] at hdigital hvalue ⊢
  rw [ScrubToUnicode.strtoul_digital hdigital, ToUnicode.strtoul16,
    ToUnicode.hexNumber_eq hdigital, hvalue, min_eq_left (by have := c.isLt; omega),
    BitVec.ofNat_toNat, BitVec.setWidth_eq]

theorem length_codeDigits (twoByte : Bool) (c : Code) :
    1 ≤ (codeDigits twoByte c).length ∧ (codeDigits twoByte c).length ≤ 8 := by
  have hdigits : (Nat.digits 16 c.toNat).length ≤ 8 :=
    Nat.digits_length_le_iff (by decide) _ |>.mpr c.isLt
  rw [codeDigits, length_hexPad]
  cases twoByte <;> simp <;> omega

end Kura.Engine.CompleteToUnicode
