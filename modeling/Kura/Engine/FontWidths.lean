import Kura.Base.Integers
import Kura.Engine.Jobs

/-!
# Widths of fonts

The widths that a font declares are compared with those of its embedded
program. Without the codes that are used, a font is repaired; with them it is
only checked.

## Implementation notes

Numbers are exact. An advance below zero is one that is not known. What the
libraries read from a program is a parameter: its glyphs, the advances of its
tables, and which glyph a code or a CID stands for. Of an array only is kept
which of its items are numbers.
-/

namespace Kura.Engine.FontWidths

open Base (toInt32 lround)
open Kura.Engine.Jobs

/-- A number as an integer: the fraction is cut off. -/
def truncate (q : ℚ) : ℤ := if 0 ≤ q then ⌊q⌋ else -⌊-q⌋

/-- The advances of a program. -/
structure Metrics where
  /-- The table of horizontal advances, if it can be read. -/
  hmtx : Option (Nat → ℚ)
  glyphAdvance : Nat → ℚ
  /-- The widths of charstrings, if they can be read. -/
  cff : Option (Nat → ℚ)
  upem : ℚ

def programAdvance (m : Metrics) (gid : Nat) : ℚ :=
  match m.hmtx with
  | some table => if 0 ≤ table gid then table gid else m.glyphAdvance gid
  | none => m.glyphAdvance gid

/-- A program: there is none, it cannot be read, or it is loaded. -/
inductive Loaded (α : Type) where
  | absent
  | unreadable
  | face (a : α)

/-- What is reported. -/
def widthsSynced (detail : String) : Issue := ⟨"FONT_WIDTHS_SYNCED", detail, true, 0, []⟩

/-- A program with the glyphs of the codes. -/
structure SimpleFace where
  metrics : Metrics
  gidOf : Nat → Nat

/-- A simple font. -/
structure SimpleFont where
  baseFont : String
  program : Loaded SimpleFace
  firstChar : Option Int
  lastChar : Option Int
  widths : Option (List (Option ℚ))
  missingWidth : Option ℚ

/-- The advance of a code; only positive widths of charstrings count. -/
def simpleAdvance (face : SimpleFace) (code : Nat) : ℚ :=
  let gid := face.gidOf code
  let progW := programAdvance face.metrics gid
  if progW < 0 then
    match face.metrics.cff with
    | some width => if 0 < width gid then width gid * 1000 / face.metrics.upem else progW
    | none => progW
  else progW

/-- The number that the array has for a code. -/
def declaredWidth (first last : Int) (widths : List (Option ℚ)) (code : Nat) : Option ℚ :=
  if toInt32 first ≤ code ∧ code ≤ toInt32 last ∧ code - toInt32 first < widths.length then
    (widths[(code - toInt32 first).toNat]?).join
  else none

/-- The difference counts. -/
def differs (limit declared progW : ℚ) : Bool := limit < |declared - progW|

/-- The codes whose widths are not those of the program. -/
def badCodes (face : SimpleFace) (declared : Nat → Option ℚ) (missing : ℚ) (codes : List Nat) :
    List Nat :=
  codes.filter fun code => code ≤ 255 && 0 ≤ simpleAdvance face code &&
    differs 1 ((declared code).getD missing) (simpleAdvance face code)

/-- What the repair makes of a code: it stays, it gets a width, or its width is changed. -/
inductive Repair where
  | kept (w : ℚ)
  | extended (w : ℤ)
  | changed (w : ℤ)

def Repair.width : Repair → ℚ
  | .kept w => w
  | .extended w => w
  | .changed w => w

def Repair.isKept : Repair → Bool
  | .kept _ => true
  | _ => false

def Repair.isChanged : Repair → Bool
  | .changed _ => true
  | _ => false

/-- The repair of a code; a code without a glyph keeps the width it has. -/
def repairCode (face : SimpleFace) (declared : Nat → Option ℚ) (code : Nat) : Repair :=
  let progW := simpleAdvance face code
  match declared code with
  | some w =>
      if face.gidOf code = 0 ∧ w ≠ 0 then .kept w
      else if progW < 0 then .kept w
      else if differs (9 / 10) w progW then .changed (lround progW)
      else .kept w
  | none =>
      if progW < 0 then .kept 0
      else if lround progW ≠ 0 then .extended (lround progW)
      else .kept 0

/-- Repairs the widths of a simple font, or checks those of the codes that are used. -/
def syncSimpleFontWidths (font : SimpleFont) (use : Option (List Nat)) : SimpleFont × List Issue :=
  match font.program, font.firstChar, font.lastChar, font.widths with
  | .unreadable, some _, some _, some _ =>
      (font, [⟨"FONT_PROGRAM_UNREADABLE", "embedded font program unreadable: " ++ font.baseFont,
        false, 0, []⟩])
  | .face face, some first, some last, some widths =>
      let declared := declaredWidth first last widths
      match use with
      | some codes =>
          let bad := (badCodes face declared (font.missingWidth.getD 0) codes).length
          (font, if bad = 0 then [] else
            [widthsSynced (toString bad ++ " glyph width(s) of " ++ font.baseFont ++
              " differ from the embedded font program")])
      | none =>
          let full := (List.range 256).map (repairCode face declared)
          if full.all Repair.isKept then (font, [])
          else
            ({ font with
                firstChar := some 0, lastChar := some 255
                widths := some (full.map fun r => some r.width) },
              [widthsSynced ("resynced " ++ toString (full.countP Repair.isChanged) ++
                " width(s) for " ++ font.baseFont ++
                " from the embedded font program and extended coverage to all codes")])
  | _, _, _, _ => (font, [])

/-- Items of `/W`. -/
inductive WItem where
  | num (q : ℚ)
  | list (items : List (Option ℚ))
  | other

/-- The map from CIDs to glyphs. -/
inductive CidToGid where
  | null
  | identity
  | stream (data : Bytes)
  | other

/-- The kinds of descendant fonts. -/
inductive CidSubtype where
  | cidFontType2
  | cidFontType0
  | other
  deriving DecidableEq

/-- A program with the CIDs of its glyphs, if it is keyed by them. -/
structure CidFace where
  metrics : Metrics
  numGlyphs : Nat
  cidOf : Option (Nat → Option Nat)

/-- A descendant font. -/
structure CidFont where
  baseFont : String
  subtype : CidSubtype
  program : Loaded CidFace
  cidToGid : CidToGid
  dw : Option ℚ
  w : Option (List WItem)

/-- The glyphs of CIDs, as far as they are given. -/
def cffCidToGid (face : CidFace) (cidOf : Nat → Option Nat) (cid : Nat) : Option Nat :=
  ((List.range face.numGlyphs).reverse).find? fun g => cidOf g = some cid

/-- A map of a font that is keyed by CIDs. -/
def keyedBy (font : CidFont) (face : CidFace) : Option (Nat → Option Nat) :=
  if font.subtype = .cidFontType0 then face.cidOf else none

/-- The number of CIDs; a font with another map is left as it is. -/
def numCids (font : CidFont) (face : CidFace) : Option Nat :=
  let n :=
    match font.subtype, font.cidToGid with
    | .cidFontType2, .stream data => some (data.length / 2)
    | .cidFontType2, .other => none
    | _, _ =>
        match keyedBy font face with
        | some cidOf =>
            some (((List.range face.numGlyphs).filterMap cidOf).foldl max 0 + 1)
        | none => some face.numGlyphs
  n.filter fun n => n ≠ 0 ∧ n ≤ 65536

/-- The glyph of a CID, if it has one. -/
def gidOfCid (font : CidFont) (face : CidFace) (cid : Nat) : Option Nat :=
  let own :=
    match keyedBy font face with
    | some cidOf =>
        -- an empty map is no map
        if (List.range face.numGlyphs).all fun g => (cidOf g).isNone then some cid
        else cffCidToGid face cidOf cid
    | none => some cid
  match font.subtype, font.cidToGid with
  | .cidFontType2, .stream data =>
      match data[2 * cid]?, data[2 * cid + 1]? with
      | some a, some b => some (256 * a.toNat + b.toNat)
      | _, _ => own
  | _, _ => own

/-- The advance of a glyph. -/
def cidAdvance (m : Metrics) (gid : Nat) : ℚ :=
  let adv := if m.hmtx.isSome then programAdvance m gid else -1
  let adv :=
    if adv < 0 then
      match m.cff with
      | some width => if 0 ≤ width gid then width gid * 1000 / m.upem else adv
      | none => adv
    else adv
  if adv < 0 then programAdvance m gid else adv

/-- The advance of a CID; one without a glyph has none. -/
def advanceOf (font : CidFont) (face : CidFace) (cid : Nat) : ℚ :=
  ((gidOfCid font face cid).map (cidAdvance face.metrics)).getD (-1)

/-- Reads `/W` over the widths so far, up to what is no entry. -/
def readW (n : Nat) : List WItem → (Nat → ℚ) → Nat → ℚ
  | .num a :: .list b :: rest, d =>
      let start := truncate a
      readW n rest fun cid =>
        if start ≤ cid ∧ cid - start < b.length ∧ cid < n then
          ((b[(cid - start).toNat]?).join).getD (d cid)
        else d cid
  | .num a :: .num b :: .num v :: rest, d =>
      let lo := max (truncate a) 0
      let hi := min (truncate (min b 1000000000)) (n - 1)
      readW n rest fun cid => if lo ≤ cid ∧ cid ≤ hi then v else d cid
  | _, d => d

/-- The widths that a font declares. -/
def declaredCids (font : CidFont) (n : Nat) : Nat → ℚ :=
  readW n (font.w.getD []) fun _ => font.dw.getD 1000

/-- The rounded widths of the program; a CID without an advance has the declared one. -/
def widthOfCid (declared adv : Nat → ℚ) (cid : Nat) : ℤ :=
  if adv cid < 0 then lround (declared cid) else lround (adv cid)

def exactOfCid (declared adv : Nat → ℚ) (cid : Nat) : ℚ :=
  if adv cid < 0 then declared cid else adv cid

/-- The length of the run of equal widths at the start. -/
def runLength : List ℤ → Nat
  | [] => 0
  | x :: rest => 1 + (rest.takeWhile (· = x)).length

/-- The widths before the next run of four or more. -/
def shortRuns : Nat → List ℤ → List ℤ
  | 0, _ => []
  | fuel + 1, ws =>
      if ws = [] ∨ 4 ≤ runLength ws then []
      else ws.take (runLength ws) ++ shortRuns fuel (ws.drop (runLength ws))

/-- Writes `/W` for the widths from a CID on. -/
def buildW : Nat → Nat → List ℤ → List WItem
  | 0, _, _ => []
  | fuel + 1, i, ws =>
      match ws with
      | [] => []
      | x :: _ =>
          if 4 ≤ runLength ws then
            .num i :: .num (i + runLength ws - 1 : Nat) :: .num x ::
              buildW fuel (i + runLength ws) (ws.drop (runLength ws))
          else
            let short := shortRuns ws.length ws
            .num i :: .list (short.map fun w : ℤ => some (w : ℚ)) ::
              buildW fuel (i + short.length) (ws.drop short.length)

/-- Repairs the widths of a composite font, or checks those of the CIDs that are used. -/
def syncCidFontWidths (font : CidFont) (use : Option (List Nat)) : CidFont × List Issue :=
  if font.subtype = .other then (font, [])
  else
    match font.program with
    | .face face =>
        match numCids font face with
        | none => (font, [])
        | some n =>
            let declared := declaredCids font n
            let adv := advanceOf font face
            match use with
            | some cids =>
                let bad := (cids.filter fun cid => cid < n &&
                  differs 1 (declared cid) (exactOfCid declared adv cid)).length
                (font, if bad = 0 then [] else
                  [widthsSynced (toString bad ++ " glyph width(s) of " ++ font.baseFont ++
                    " differ from the embedded font program")])
            | none =>
                let widths := (List.range n).map (widthOfCid declared adv)
                if (List.range n).any fun cid =>
                    differs (9 / 10) (declared cid) (widthOfCid declared adv cid) then
                  let notdef := programAdvance face.metrics 0
                  ({ font with
                      w := some (buildW n 0 widths)
                      dw := some (if notdef < 0 then 1000 else lround notdef) },
                    [widthsSynced ("rebuilt /W array for " ++ font.baseFont ++
                      " from embedded font program")])
                else (font, [])
    | _ => (font, [])

end Kura.Engine.FontWidths
