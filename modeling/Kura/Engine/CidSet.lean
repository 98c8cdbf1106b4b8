import Kura.Base.Bits
import Kura.Engine.FontWidths

/-!
# The CIDs of a subset

`ensureCidSet` writes for a subset font which CIDs it has, and `cidSetConsistent`
looks whether the CIDs of its program are among those that are written. The two
take the CIDs from different places.

## Implementation notes

A program is seen as the number of its glyphs, the CIDs of the glyphs if it is
keyed by them, and which glyphs have an outline. A font whose map cannot be
decoded is left as it is. Names have their slash, and what is no name is the
empty text.
-/

namespace Kura.Engine.CidSet

open Kura.Base (forall_byte)
open Kura.Engine.FontWidths (Loaded)
open Kura.Engine.Jobs (Issue)

/-- A font program that is loaded. -/
structure Face where
  numGlyphs : Nat
  /-- The CIDs of the glyphs, if the program is keyed by them. -/
  cidOf : Option (Nat → Option Nat)
  /-- The glyph can be loaded and has points or contours. -/
  outlined : Nat → Bool

structure Descriptor where
  program : Loaded Face
  /-- The data of the stream, if there is one; none of it if it cannot be decoded. -/
  cidSet : Option (Option Bytes)

inductive CidToGid where
  | stream (data : Option Bytes)
  | other

structure CidFont where
  subtype : String
  baseFont : String
  cidToGid : CidToGid
  descriptor : Option Descriptor

/-- A composite font with the items of its array of descendants that are dictionaries. -/
structure Type0 where
  baseFont : String
  descendants : List (Option CidFont)

/-- Names with a tag of six capital letters. -/
def isSubsetName (base : String) : Bool :=
  match base.toList with
  | '/' :: a :: b :: c :: d :: e :: f :: '+' :: _ => [a, b, c, d, e, f].all Char.isUpper
  | _ => false

/-- Sets a bit, counted from the highest one of the first byte. -/
def setBit (bits : Bytes) (i : Nat) : Bytes :=
  bits.modify (i / 8) (· ||| (0x80 >>> UInt8.ofNat (i % 8)))

/-- Tests whether a bit is set. -/
def hasBit (bits : Bytes) (i : Nat) : Bool :=
  ((bits[i / 8]?.getD 0) &&& (0x80 >>> UInt8.ofNat (i % 8))) != 0

def setBits (bits : Bytes) (is : List Nat) : Bytes := is.foldl setBit bits

/-- The glyph that a map gives to a CID. -/
def mapped (data : Bytes) (cid : Nat) : Nat :=
  (data[cid * 2]?.getD 0).toNat * 256 + (data[cid * 2 + 1]?.getD 0).toNat

/-- The set for a font with a map. -/
def mapBits (data : Bytes) : Bytes :=
  setBits ((List.replicate ((data.length / 2 + 7) / 8) 0).set 0 0x80)
    ((List.range (data.length / 2)).filter fun cid => mapped data cid != 0)

/-- The set for a font with as many CIDs as glyphs. -/
def glyphBits (numCids : Nat) : Bytes :=
  setBits (List.replicate ((numCids + 7) / 8) 0) (List.range numCids)

/-- The set of a font with a program, if one is written. -/
def bitsOf (cidFont : CidFont) (program : Loaded Face) : Option Bytes :=
  match cidFont.cidToGid with
  | .stream none => none
  | .stream (some data) =>
      if data.length / 2 = 0 ∨ 65536 < data.length / 2 then none else some (mapBits data)
  | .other =>
      match program with
      | .face face =>
          if face.numGlyphs = 0 ∨ 65536 < face.numGlyphs then none
          else some (glyphBits face.numGlyphs)
      | _ => none

/-- The set that is written for a font, if one is. -/
def newBits (font : Type0) : Option Bytes :=
  match font.descendants with
  | [some cidFont] =>
      match cidFont.descriptor with
      | some fd =>
          match fd.program with
          | .absent => none
          | program =>
              if !isSubsetName font.baseFont && !isSubsetName cidFont.baseFont then none
              else bitsOf cidFont program
      | none => none
  | _ => none

/-- The font with a set in its descriptor. -/
def withCidSet (font : Type0) (bits : Bytes) : Type0 :=
  { font with
    descendants := font.descendants.map (Option.map fun cidFont =>
      { cidFont with descriptor := cidFont.descriptor.map fun fd =>
          { fd with cidSet := some (some bits) } }) }

/-- The set that a font has, if it is a stream. -/
def prior (font : Type0) : Option (Option Bytes) :=
  match font.descendants with
  | [some cidFont] => cidFont.descriptor.bind Descriptor.cidSet
  | _ => none

/-- The base font of the descendant. -/
def descendantName (font : Type0) : String :=
  match font.descendants with
  | [some cidFont] => cidFont.baseFont
  | _ => ""

/-- The font with its set, and what is reported. -/
def ensureCidSet (font : Type0) : Type0 × List Issue :=
  match newBits font with
  | none => (font, [])
  | some bits =>
      (withCidSet font bits,
        if prior font = some (some bits) then []
        else [⟨"CIDSET_ADDED", (if (prior font).isSome then "regenerated" else "synthesized") ++
          " /CIDSet for subset " ++ descendantName font, true, 0, []⟩])

/-- The CIDs that the check looks for. -/
def presentCids (cidFont : CidFont) (face : Face) : List Nat :=
  match (if cidFont.subtype = "/CIDFontType0" then face.cidOf else none) with
  | some cidOf => (List.range face.numGlyphs).filterMap cidOf
  | none =>
      match cidFont.cidToGid with
      | .stream data =>
          let map := data.getD []
          (List.range (map.length / 2)).filter fun cid =>
            mapped map cid != 0 && mapped map cid < face.numGlyphs && face.outlined (mapped map cid)
      | .other =>
          if cidFont.subtype = "/CIDFontType2" then
            (List.range face.numGlyphs).filter fun gid => gid != 0 && face.outlined gid
          else List.range face.numGlyphs

/-- The check of a set against a program. -/
def listsPresent (cidFont : CidFont) (face : Face) (bits : Bytes) : Bool :=
  ((presentCids cidFont face).filter (· ≠ 0)).all fun cid =>
    ((List.range (bits.length * 8)).filter (hasBit bits)).contains cid

def cidSetConsistent (font : Type0) : Bool :=
  match font.descendants with
  | [some cidFont] =>
      match cidFont.descriptor with
      | none => false
      | some fd =>
          match fd.cidSet with
          | none => false
          | some set =>
              match fd.program with
              | .face face =>
                  match set with
                  | none => false
                  | some bits => listsPresent cidFont face bits
              | _ => true
  | _ => true

@[simp]
theorem length_setBit (bits : Bytes) (i : Nat) : (setBit bits i).length = bits.length :=
  List.length_modify _ _ _

/-- A bit of a byte after another one was set. -/
theorem byte_setBit (c : UInt8) {i j : Nat} (hi : i < 8) (hj : j < 8) :
    ((c ||| (0x80 >>> UInt8.ofNat j)) &&& (0x80 >>> UInt8.ofNat i) != 0) =
      (decide (i = j) || (c &&& (0x80 >>> UInt8.ofNat i) != 0)) := by
  have hall : ∀ i < 8, ∀ j < 8, ((c ||| ((0x80 : UInt8) >>> UInt8.ofNat j)) &&&
      ((0x80 : UInt8) >>> UInt8.ofNat i) != 0) =
        (decide (i = j) || (c &&& ((0x80 : UInt8) >>> UInt8.ofNat i) != 0)) :=
    forall_byte (P := fun c => ∀ i < 8, ∀ j < 8, ((c ||| ((0x80 : UInt8) >>> UInt8.ofNat j)) &&&
      ((0x80 : UInt8) >>> UInt8.ofNat i) != 0) =
        (decide (i = j) || (c &&& ((0x80 : UInt8) >>> UInt8.ofNat i) != 0))) (by decide +kernel) c
  exact hall i hi j hj

theorem hasBit_setBit {bits : Bytes} {j : Nat} (hj : j < 8 * bits.length) (i : Nat) :
    hasBit (setBit bits j) i = (decide (i = j) || hasBit bits i) := by
  have hmod : i % 8 < 8 ∧ j % 8 < 8 := ⟨Nat.mod_lt _ (by decide), Nat.mod_lt _ (by decide)⟩
  by_cases hbyte : j / 8 = i / 8
  · have hin : i / 8 < bits.length := by omega
    have hsame : (i % 8 = j % 8) ↔ i = j := by omega
    rw [hasBit, setBit, hbyte, List.getElem?_modify_eq, hasBit, List.getElem?_eq_getElem hin]
    exact (byte_setBit _ hmod.1 hmod.2).trans (by rw [decide_eq_decide.mpr hsame]; rfl)
  · have hne : i ≠ j := fun h => hbyte (by rw [h])
    rw [hasBit, setBit, List.getElem?_modify_ne _ _ hbyte, decide_eq_false hne, Bool.false_or,
      hasBit]

theorem hasBit_setBits {bits : Bytes} {is : List Nat} (h : ∀ j ∈ is, j < 8 * bits.length)
    (i : Nat) :
    hasBit (setBits bits is) i = (decide (i ∈ is) || hasBit bits i) := by
  induction is generalizing bits with
  | nil => simp [setBits]
  | cons j is ih =>
      have hj := h j List.mem_cons_self
      have hrest : ∀ k ∈ is, k < 8 * (setBit bits j).length := by
        rw [length_setBit]
        exact fun k hk => h k (List.mem_cons_of_mem _ hk)
      rw [setBits, List.foldl_cons]
      refine (ih hrest).trans ?_
      rw [hasBit_setBit hj, ← Bool.or_assoc]
      congr 1
      simp only [List.mem_cons, Bool.decide_or, Bool.or_comm]

theorem hasBit_zero (n i : Nat) : hasBit (List.replicate n 0) i = false := by
  have hbyte : (List.replicate n (0 : UInt8))[i / 8]?.getD 0 = 0 := by
    rw [List.getElem?_replicate]
    split_ifs <;> rfl
  rw [hasBit, hbyte, UInt8.zero_and]
  rfl

/-- The bits for all CIDs below the number of glyphs. -/
theorem hasBit_glyphBits (n cid : Nat) : hasBit (glyphBits n) cid = decide (cid < n) := by
  rw [glyphBits, hasBit_setBits, hasBit_zero, Bool.or_false, decide_eq_decide, List.mem_range]
  intro j hj
  have hlt := List.mem_range.mp hj
  rw [List.length_replicate]
  omega

/-- The bits for the CIDs that a map gives a glyph, and for the first one. -/
theorem hasBit_mapBits {data : Bytes} (hne : data.length / 2 ≠ 0) {cid : Nat} (hcid : cid ≠ 0) :
    hasBit (mapBits data) cid = decide (cid < data.length / 2 ∧ mapped data cid ≠ 0) := by
  have hfirst : hasBit ((List.replicate ((data.length / 2 + 7) / 8) 0).set 0 0x80) cid = false := by
    have hset : (List.replicate ((data.length / 2 + 7) / 8) (0 : UInt8)).set 0 0x80 =
        setBit (List.replicate ((data.length / 2 + 7) / 8) 0) 0 := by
      obtain ⟨k, hk⟩ := Nat.exists_eq_succ_of_ne_zero (by omega : (data.length / 2 + 7) / 8 ≠ 0)
      rw [hk]
      rfl
    rw [hset, hasBit_setBit (by rw [List.length_replicate]; omega), hasBit_zero, Bool.or_false,
      decide_eq_false hcid]
  rw [mapBits, hasBit_setBits, hfirst, Bool.or_false, decide_eq_decide, List.mem_filter,
    List.mem_range, bne_iff_ne]
  intro j hj
  have hlt := List.mem_range.mp (List.mem_of_mem_filter hj)
  rw [List.length_set, List.length_replicate]
  omega

theorem lt_of_hasBit {bits : Bytes} {i : Nat} (h : hasBit bits i = true) : i < bits.length * 8 := by
  by_contra hout
  have hnone : bits[i / 8]? = none := List.getElem?_eq_none (by omega)
  rw [hasBit, hnone] at h
  simp at h

theorem listsPresent_iff {cidFont : CidFont} {face : Face} {bits : Bytes} :
    listsPresent cidFont face bits = true ↔
      ∀ cid ∈ presentCids cidFont face, cid ≠ 0 → hasBit bits cid = true := by
  rw [listsPresent, List.all_eq_true]
  have hmem : ∀ cid, ((List.range (bits.length * 8)).filter (hasBit bits)).contains cid = true ↔
      hasBit bits cid = true := by
    intro cid
    rw [List.contains_iff_mem, List.mem_filter, List.mem_range]
    exact ⟨And.right, fun h => ⟨lt_of_hasBit h, h⟩⟩
  simp only [hmem, List.mem_filter, decide_eq_true_eq, and_imp]

/-- The CID has a glyph as the writing sees it. -/
def Covered (cidFont : CidFont) (face : Face) (cid : Nat) : Prop :=
  match cidFont.cidToGid with
  | .stream data =>
      cid < (data.getD []).length / 2 ∧ mapped (data.getD []) cid ≠ 0
  | .other => cid < face.numGlyphs

/-- The CIDs of the glyphs of a program that is keyed by them are covered; the first one is there
anyway. -/
def KeyedCovered (cidFont : CidFont) (face : Face) : Prop :=
  cidFont.subtype = "/CIDFontType0" → ∀ cidOf, face.cidOf = some cidOf →
    ∀ gid < face.numGlyphs, ∀ cid, cidOf gid = some cid → cid ≠ 0 → Covered cidFont face cid

variable {cidFont : CidFont} {face : Face} {bits : Bytes}

/-- The bits that are written are those of the CIDs that are covered. -/
theorem hasBit_bitsOf (h : bitsOf cidFont (.face face) = some bits) {cid : Nat} (hcid : cid ≠ 0) :
    hasBit bits cid = true ↔ Covered cidFont face cid := by
  rw [bitsOf] at h
  rw [Covered]
  cases hmap : cidFont.cidToGid with
  | stream data =>
      rw [hmap] at h
      cases data with
      | none => cases h
      | some data =>
          dsimp only at h
          split_ifs at h with hsize
          obtain rfl := Option.some.inj h
          rw [hasBit_mapBits (fun h => hsize (Or.inl h)) hcid, decide_eq_true_eq]
          rfl
  | other =>
      rw [hmap] at h
      dsimp only at h
      split_ifs at h with hsize
      obtain rfl := Option.some.inj h
      rw [hasBit_glyphBits, decide_eq_true_eq]

/-- The check finds all CIDs of the program exactly if those of a keyed program are covered. -/
theorem listsPresent_bitsOf_iff (h : bitsOf cidFont (.face face) = some bits) :
    listsPresent cidFont face bits = true ↔ KeyedCovered cidFont face := by
  rw [listsPresent_iff, presentCids]
  have hbit : ∀ {cid : Nat}, cid ≠ 0 → (hasBit bits cid = true ↔ Covered cidFont face cid) :=
    fun hcid => hasBit_bitsOf h hcid
  cases hkeyed : (if cidFont.subtype = "/CIDFontType0" then face.cidOf else none) with
  | some cidOf =>
      dsimp only
      have hsub : cidFont.subtype = "/CIDFontType0" := by
        by_contra hne
        rw [if_neg hne] at hkeyed
        cases hkeyed
      rw [if_pos hsub] at hkeyed
      simp only [List.mem_filterMap, List.mem_range]
      refine ⟨fun hall _ cidOf' hcidOf gid hgid cid hcid hne => ?_, fun hcovered cid hcid hne => ?_⟩
      · obtain rfl := Option.some.inj (hkeyed.symm.trans hcidOf)
        exact (hbit hne).mp (hall cid ⟨gid, hgid, hcid⟩ hne)
      · obtain ⟨gid, hgid, hcid⟩ := hcid
        exact (hbit hne).mpr (hcovered hsub cidOf hkeyed gid hgid cid hcid hne)
  | none =>
      dsimp only
      have hfree : KeyedCovered cidFont face := by
        intro hsub cidOf hcidOf
        rw [if_pos hsub, hcidOf] at hkeyed
        cases hkeyed
      refine iff_of_true (fun cid hcid hne => (hbit hne).mpr ?_) hfree
      rw [Covered]
      cases hmap : cidFont.cidToGid with
      | stream data =>
          rw [hmap] at hcid
          obtain ⟨hlt, htest⟩ := List.mem_filter.mp hcid
          rw [Bool.and_eq_true, Bool.and_eq_true, bne_iff_ne] at htest
          exact ⟨List.mem_range.mp hlt, htest.1.1⟩
      | other =>
          rw [hmap] at hcid
          dsimp only at hcid
          split_ifs at hcid
          · exact List.mem_range.mp (List.mem_of_mem_filter hcid)
          · exact List.mem_range.mp hcid

/-- For a subset font with a program that is loaded, the set that is written passes the check
exactly if the CIDs of a program that is keyed by them are covered. -/
theorem cidSetConsistent_ensureCidSet_iff {font : Type0} {cidFont : CidFont} {fd : Descriptor}
    {face : Face} {bits : Bytes} (hfont : font.descendants = [some cidFont])
    (hfd : cidFont.descriptor = some fd) (hprogram : fd.program = .face face)
    (hwritten : newBits font = some bits) :
    cidSetConsistent (ensureCidSet font).1 = true ↔ KeyedCovered cidFont face := by
  have hbits : bitsOf cidFont (.face face) = some bits := by
    rw [newBits, hfont] at hwritten
    dsimp only at hwritten
    rw [hfd] at hwritten
    dsimp only at hwritten
    rw [hprogram] at hwritten
    dsimp only at hwritten
    split_ifs at hwritten
    exact hwritten
  have hcheck : cidSetConsistent (ensureCidSet font).1 = listsPresent cidFont face bits := by
    rw [ensureCidSet, hwritten]
    simp only [withCidSet, cidSetConsistent, hfont, hfd, hprogram, List.map_cons, List.map_nil,
      Option.map_some]
    rfl
  rw [hcheck]
  exact listsPresent_bitsOf_iff hbits

/-- A font with a program of two glyphs that is keyed by CIDs. -/
def twoGlyphs (second : Nat) : Type0 where
  baseFont := "/ABCDEF+Font"
  descendants := [some
    { subtype := "/CIDFontType0", baseFont := "/ABCDEF+Font", cidToGid := .other
      descriptor := some
        { program := .face ⟨2, some fun gid => some (if gid = 0 then 0 else second), fun _ => true⟩
          cidSet := none } }]

/-- The second glyph has the CID one. -/
theorem twoGlyphs_consistent : cidSetConsistent (ensureCidSet (twoGlyphs 1)).1 = true := by
  refine (@cidSetConsistent_ensureCidSet_iff (twoGlyphs 1) _ _ _ (glyphBits 2) rfl rfl rfl
    (by decide +kernel)).mpr ?_
  intro _ cidOf hcidOf gid _ cid hcid _
  obtain rfl := Option.some.inj hcidOf
  have hvalue : cid = if gid = 0 then 0 else 1 := (Option.some.inj hcid).symm
  show cid < 2
  rw [hvalue]
  split_ifs <;> decide

/-- The second glyph has the CID 500. -/
theorem twoGlyphs_inconsistent : (newBits (twoGlyphs 500)).isSome = true ∧
    cidSetConsistent (ensureCidSet (twoGlyphs 500)).1 = false := by
  decide +kernel

end Kura.Engine.CidSet
