import Kura.Engine.KeptTexts

/-!
# Fonts with a completed `ToUnicode` map

The map that a simple or a composite font is given keeps every text of the map
that it had, and is read back as it was written, exactly if each of the codes is
read as the rules say and no text is empty.
-/

namespace Kura.Engine.CompleteToUnicode

open Base (assign)
open CMap (Code TextEntry Writes textEntries utf16Hex parseExistingToUnicode allRounds)
open ScrubToUnicode (LooseSection LooseMap Place beginMark places writes mapped mapped_eq lastPlace
  textEntries_loose parseExistingToUnicode_eq short_clear spaced)
open ToUnicode (Digital wholeUnits)

/-- No entry goes beyond a code. -/
def Within (t : LooseMap) (last : Nat) : Prop := ∀ e ∈ entries t, (lastCode e).toNat ≤ last

/-- The assignments that are read. -/
def readWrites (t : LooseMap) : Writes Bytes := (textEntries t.text).flatMap writes

/-- The reader of a map within a font comes to an end. -/
theorem parse_within {t : LooseMap} {last : Nat} (h : Within t last) (hlast : last ≤ 0xFFFF) :
    parseExistingToUnicode allRounds t.text = some (readWrites t) := by
  refine parseExistingToUnicode_eq fun e he hloop => ?_
  rw [textEntries_loose] at he
  have hle := h e (read_subset he)
  cases e with
  | char code dst => cases hloop
  | range lo hi dst =>
      have hhi : hi = BitVec.allOnes 32 := Option.some.inj hloop
      have hle' : hi.toNat ≤ last := hle
      rw [hhi, BitVec.toNat_allOnes] at hle'
      omega

theorem readWrites_text (t : LooseMap) (c : Code) :
    assign (fun _ => none) (readWrites t) c = (readPlace t c).map Place.value :=
  mapped_eq t.text c

section

variable {t : UnitMap} {fill : Nat → Option Code} {count : Nat}

/-- The texts of the completed map are digits. -/
theorem digital_completed (hcount : count ≤ 65536) :
    ∀ e ∈ sorted (complete fill (readWrites t.toLooseMap) count).entries, Digital e.2 := by
  rintro ⟨c, s⟩ he
  have hold : ∀ s, assign (fun _ => none) (readWrites t.toLooseMap) c = some s → Digital s := by
    intro s hs
    rw [readWrites_text] at hs
    obtain ⟨p, hp, rfl⟩ := Option.map_eq_some_iff.mp hs
    exact (sound_value (sound_readPlace hp)).1
  have htext := mem_sorted_iff.mp he
  rw [complete_text fill _ (hcount.trans (by decide))] at htext
  split at htext
  · cases hfill : fill c.toNat with
    | none =>
        rw [hfill] at htext
        exact hold s htext
    | some uni =>
        rw [hfill] at htext
        exact Option.some.inj htext ▸ digital_utf16Hex uni
  · exact hold s htext

/-- A text of the completed map is empty where an empty one was read and none was added. -/
theorem completed_empty_iff (hcount : count ≤ 65536) {t : LooseMap} (c : Code) :
    assign (fun _ => none) (complete fill (readWrites t) count).entries c = some [] ↔
      readPlace t c = some ⟨[], none⟩ ∧ ¬ (c.toNat < count ∧ (fill c.toNat).isSome) := by
  rw [complete_text fill _ (hcount.trans (by decide)), readWrites_text]
  have hread : (readPlace t c).map Place.value = some [] ↔ readPlace t c = some ⟨[], none⟩ := by
    rw [Option.map_eq_some_iff]
    constructor
    · rintro ⟨p, hp, hvalue⟩
      rw [hp, (value_eq_nil_iff p).mp hvalue]
    · intro h
      exact ⟨_, h, rfl⟩
  have hunset : readPlace t c = some ⟨[], none⟩ → hasText (readWrites t) c = false := by
    intro h
    have hempty : assign (fun _ => none) (readWrites t) c = some (Place.value ⟨[], none⟩) := by
      rw [readWrites_text, h]
      rfl
    exact (hasText_iff hempty).mpr (Or.inl rfl)
  split
  · rename_i hcond
    cases hfill : fill c.toNat with
    | none =>
        rw [Option.map_none, Option.none_or, hread]
        simp
    | some uni =>
        have hne : utf16Hex uni ≠ [] := by
          have hlength := length_utf16Hex uni
          intro hnil
          rw [hnil] at hlength
          cases hlength
        rw [Option.map_some, Option.some_or]
        simp [hne, hcond.1]
  · rename_i hcond
    rw [hread]
    refine (and_iff_left_of_imp fun h hfilled => ?_).symm
    exact hcond ⟨hfilled.1, hunset h⟩

/-- Reading back gives what was written if and only if every empty text was replaced. -/
theorem parse_completed_iff (twoByte : Bool) (hcount : count ≤ 65536) :
    parseExistingToUnicode allRounds (buildCMapStream
        (sorted (complete fill (readWrites t.toLooseMap) count).entries) twoByte) =
      some (sorted (complete fill (readWrites t.toLooseMap) count).entries) ↔
      ∀ c, readPlace t.toLooseMap c = some ⟨[], none⟩ →
        c.toNat < count ∧ (fill c.toNat).isSome := by
  rw [parse_buildCMapStream_iff twoByte (digital_completed hcount)]
  have hempty : ∀ c, (c, []) ∈ sorted (complete fill (readWrites t.toLooseMap) count).entries ↔
      readPlace t.toLooseMap c = some ⟨[], none⟩ ∧
        ¬ (c.toNat < count ∧ (fill c.toNat).isSome) := fun c => by
    rw [mem_sorted_iff, completed_empty_iff hcount]
  constructor
  · intro h c hc
    by_contra hnot
    exact h _ ((hempty c).mpr ⟨hc, hnot⟩) rfl
  · rintro h ⟨c, s⟩ he hs
    obtain rfl : s = [] := hs
    obtain ⟨hc, hnot⟩ := (hempty c).mp he
    exact hnot (h c hc)

/-- The texts are kept if and only if each code is read as the rules say, or filled so. -/
theorem keeps_iff (twoByte : Bool) (hcount : count ≤ 65536) :
    Keeps t.toLooseMap (buildCMapStream
        (sorted (complete fill (readWrites t.toLooseMap) count).entries) twoByte) ↔
      ∀ c p p', ruledPlace t.toLooseMap c = some p → readPlace t.toLooseMap c = some p' →
        ruled p ≠ [] → ruled p ≠ [0] → KeptAt fill count c p p' := by
  have hcode : ∀ {c p p'}, ruledPlace t.toLooseMap c = some p →
      readPlace t.toLooseMap c = some p' → ruled p ≠ [] → ruled p ≠ [0] →
      ((∃ d, mapped (buildCMapStream
        (sorted (complete fill (readWrites t.toLooseMap) count).entries) twoByte) c = some d ∧
          wholeUnits d = ruled p) ↔ KeptAt fill count c p p') := by
    intro c p p' hp hp' hne hzero
    have hread : assign (fun _ => none) (readWrites t.toLooseMap) c = some p'.value := by
      rw [readWrites_text, hp']
      rfl
    have hdst : p.dst ≠ [] := dst_ne_nil hne
    rw [← keptAt_iff (sound_ruledPlace hp) hne hzero hdst,
      ← completed_units_iff hcount hread hne hzero]
    simp only [mapped_buildCMapStream (digital_completed hcount)]
  constructor
  · intro hkeeps c p p' hp hp' hne hzero
    refine (hcode hp hp' hne hzero).mp (hkeeps c _ ?_ hne hzero)
    rw [meaning, hp]
    rfl
  · intro hkept c us hus hne hzero
    obtain ⟨p, hp, rfl⟩ := Option.map_eq_some_iff.mp hus
    obtain ⟨p', hp'⟩ := readPlace_isSome hp (dst_ne_nil hne)
    exact (hcode hp hp' hne hzero).mpr (hkept c p p' hp hp' hne hzero)

end

/-- A font that is given a map. -/
inductive Font where
  | simple (names : GlyphNames) (font : SimpleFont)
  | cid (baseFont : String) (font : CidFont)

namespace Font

def ensureToUnicode (font : Font) (existing : Option Bytes) : Option (Option Written) :=
  match font with
  | simple names font => ensureSimpleToUnicode names font existing
  | cid baseFont font => ensureCidToUnicode ⟨baseFont, [some font]⟩ existing

/-- The last code of the length that the font has. -/
def lastCode : Font → Nat
  | simple _ _ => 0xFF
  | cid _ _ => 0xFFFF

/-- How many codes are completed. -/
def count : Font → Nat
  | simple _ _ => 256
  | cid _ font => font.numCids

/-- The text that is added for a code. -/
def fill : Font → Nat → Option Code
  | simple names font => simpleFill names font
  | cid _ font => cidFill font

def twoByte : Font → Bool
  | simple _ _ => false
  | cid _ _ => true

def baseFont : Font → String
  | simple _ font => font.baseFont
  | cid baseFont _ => baseFont

theorem ensureToUnicode_eq (font : Font) (existing : Option Bytes) :
    font.ensureToUnicode existing =
      completeToUnicode font.twoByte font.count font.fill font.baseFont existing := by
  cases font <;> rfl

theorem count_le (font : Font) : font.count ≤ 65536 := by
  cases font with
  | simple names font => exact (by decide : 256 ≤ 65536)
  | cid baseFont font => exact min_le_left _ _

end Font

/-- For every map whose codes lie within those of the font the completion ends. What it writes keeps
the texts of the map and is read back as the map that was written if and only if each code is read
as the rules say, or filled so, and each empty text is replaced. -/
theorem ensureToUnicode_iff (font : Font) (t : UnitMap)
    (hwithin : Within t.toLooseMap font.lastCode) :
    ∃ out, font.ensureToUnicode (some t.text) = some out ∧ ∀ w, out = some w →
      ((Keeps t.toLooseMap w.stream ∧
        parseExistingToUnicode allRounds w.stream = some w.entries) ↔
          Keepable font.fill font.count t.toLooseMap) := by
  have hlast : font.lastCode ≤ 0xFFFF := by
    cases font with
    | simple names font => exact (by decide : 0xFF ≤ 0xFFFF)
    | cid baseFont font => exact le_rfl
  rw [font.ensureToUnicode_eq, completeToUnicode]
  dsimp only
  rw [parse_within hwithin hlast]
  refine ⟨_, rfl, fun w hw => ?_⟩
  dsimp only at hw
  split at hw
  · cases hw
  · obtain rfl := Option.some.inj hw
    dsimp only
    rw [keeps_iff font.twoByte font.count_le, parse_completed_iff font.twoByte font.count_le]
    exact ⟨fun h => ⟨h.1, h.2⟩, fun h => ⟨h.kept, h.full⟩⟩

/-- A font without a program, with names that say nothing. -/
def plainFont : Font :=
  .simple ⟨fun _ => 0, fun _ => none⟩ ⟨"/Font", none, fun _ => [], none⟩

theorem noMark_number (range : Bool) : ¬ beginMark range <:+: lit "1 " :=
  short_clear (by decide) range

theorem noMark_nil (range : Bool) : ¬ beginMark range <:+: [] := short_clear (by decide) range

/-- A map of one section. -/
def oneSection (sec : LooseSection) (units : ∀ e ∈ sec.entries, 4 ∣ (dstOf e).length) :
    UnitMap where
  parts := [(⟨lit "1 ", noMark_number⟩, sec)]
  tail := ⟨[], noMark_nil⟩
  units := fun e he => units e (by simpa [entries] using he)

/-- A map of one letter. -/
def letterMap : UnitMap :=
  oneSection (.chars [(⟨spaced (lit "41") (by decide), by decide⟩, spaced (lit "0041") (by decide))]
    blank) (by
      intro e he
      rw [List.mem_singleton.mp he]
      decide)

theorem digits_one : (lit "01").all isXDigit = true := by decide

theorem size_one : 1 ≤ (spaced (lit "01") digits_one).digits.length ∧
    (spaced (lit "01") digits_one).digits.length ≤ 8 := by decide

/-- A range of two codes with a string of two letters. -/
def pairMap : UnitMap :=
  oneSection (.ranges [.single ⟨spaced (lit "01") digits_one, size_one⟩
    ⟨spaced (lit "02") (by decide), by decide⟩ (spaced (lit "00410042") (by decide)) (by decide)]
    blank) (by
      intro e he
      rw [List.mem_singleton.mp he]
      decide)

/-- A text is added to a map without one for the first code. -/
theorem exists_written {t : UnitMap} (hwithin : Within t.toLooseMap 0xFF)
    (hfirst : readPlace t.toLooseMap 0 = none) :
    ∃ w, plainFont.ensureToUnicode (some t.text) = some (some w) ∧
      w.stream = buildCMapStream
        (sorted (complete plainFont.fill (readWrites t.toLooseMap) 256).entries) false := by
  have hadded : (complete plainFont.fill (readWrites t.toLooseMap) 256).added ≠ 0 := by
    intro hzero
    have htext := complete_text plainFont.fill (readWrites t.toLooseMap)
      (by decide : 256 ≤ 2 ^ 32) 0
    have hnone : assign (fun _ => none) (readWrites t.toLooseMap) 0 = none := by
      rw [readWrites_text, hfirst]
      rfl
    have hunset : hasText (readWrites t.toLooseMap) 0 = false := by
      rw [hasText, hnone]
    rw [entries_of_added hzero, hnone, if_pos ⟨by decide, hunset⟩] at htext
    exact absurd htext (by decide +kernel)
  rw [plainFont.ensureToUnicode_eq, completeToUnicode]
  dsimp only
  rw [parse_within hwithin (by decide), Option.map_some]
  exact ⟨_, congrArg some (if_neg hadded), rfl⟩

theorem letterMap_kept : ∃ w, plainFont.ensureToUnicode (some letterMap.text) = some (some w) ∧
    Keeps letterMap.toLooseMap w.stream ∧
      parseExistingToUnicode allRounds w.stream = some w.entries := by
  have hwithin : Within letterMap.toLooseMap 0xFF := by
    intro e he
    obtain rfl := List.mem_singleton.mp he
    decide
  have hplaces : ∀ c p, assign (fun _ => none) [((0x41 : Code), (⟨lit "0041", none⟩ : Place))] c =
      some p → p = ⟨lit "0041", none⟩ := by
    intro c p hp
    exact congrArg Prod.snd (List.mem_singleton.mp (Base.mem_of_assign hp))
  have hread : ∀ c p, readPlace letterMap.toLooseMap c = some p → p = ⟨lit "0041", none⟩ := by
    intro c p hp
    rw [readPlace_eq] at hp
    exact hplaces c p hp
  obtain ⟨w, hwritten, -⟩ := exists_written hwithin (by rw [readPlace_eq]; rfl)
  obtain ⟨out, hout, hiff⟩ := ensureToUnicode_iff plainFont letterMap hwithin
  refine ⟨w, hwritten, (hiff w (Option.some.inj (hout.symm.trans hwritten))).mpr ⟨?_, ?_⟩⟩
  · intro c p p' hp hp' _ _
    obtain rfl := hplaces c p hp
    exact Or.inl ⟨hread c p' hp', nofun⟩
  · intro c hc
    exact absurd (congrArg Place.dst (hread c _ hc)) (by decide)

/-- The second code of the range has another second letter by the rules. -/
theorem pairMap_not_kept :
    pairMap.text = lit "1 beginbfrange <01> <02> <00410042> endbfrange" ∧
      ∃ w, plainFont.ensureToUnicode (some pairMap.text) = some (some w) ∧
        ¬ Keeps pairMap.toLooseMap w.stream := by
  have hwithin : Within pairMap.toLooseMap 0xFF := by
    intro e he
    obtain rfl := List.mem_singleton.mp he
    decide
  obtain ⟨w, hwritten, hstream⟩ := exists_written hwithin (by rw [readPlace_eq]; rfl)
  refine ⟨by decide, w, hwritten, fun hkeeps => ?_⟩
  have hruled : ruledPlace pairMap.toLooseMap 2 = some ⟨lit "00410042", some 1⟩ := by
    rw [ruledPlace]
    rfl
  have hread : readPlace pairMap.toLooseMap 2 = some ⟨lit "00410042", some 1⟩ := by
    rw [readPlace_eq]
    rfl
  rw [hstream] at hkeeps
  have hkept := (keeps_iff false (by decide)).mp hkeeps 2 _ _ hruled hread (by decide) (by decide)
  obtain ⟨-, hcounts⟩ | ⟨hne, -⟩ := hkept
  · obtain hzero | ⟨hlen, -⟩ := hcounts 1 rfl
    · exact absurd hzero (by decide)
    · exact absurd hlen (by decide)
  · exact hne rfl

end Kura.Engine.CompleteToUnicode
