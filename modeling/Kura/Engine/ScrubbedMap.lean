import Kura.Engine.CMapEnds
import Kura.Engine.ScrubbedText

/-!
# What the edit of a character map does to the texts of codes

The edit of a well-formed map takes every forbidden character out of the texts
of codes and leaves all other texts as they are, unless the last assignment to
a code is made by a range whose strings are counted up.
-/

namespace Kura.Engine.ScrubToUnicode

open Base (assign codesUpTo)
open CMap (Code codeOf findText TextEntry textEntries Writes parseExistingToUnicode allRounds)
open ToUnicode (Digital wholeUnits decodePaired isHigh isLow combined)

/-- A string that is given to a code, and the distance of the code in its range. -/
structure Place where
  dst : Bytes
  offset : Option Code

/-- The text of the code. -/
def Place.value (p : Place) : Bytes :=
  match p.offset with
  | none => p.dst
  | some k => if p.dst.length ≤ 4 then CMap.utf16Hex (codeOf p.dst + k) else p.dst

/-- The assignments of an entry. -/
def places : TextEntry → List (Code × Place)
  | .range lo hi dst => (codesUpTo lo hi).map fun c => (c, ⟨dst, some (c - lo)⟩)
  | .char code dst => [(code, ⟨dst, none⟩)]

def writes (e : TextEntry) : Writes Bytes := (places e).map fun w => (w.1, w.2.value)

theorem run_eq {e : TextEntry} (h : e.loopEnd ≠ some (BitVec.allOnes 32)) (m : Writes Bytes) :
    e.run allRounds m = some (m ++ writes e) := by
  cases e with
  | char code dst => rfl
  | range lo hi dst =>
      have hlast : hi ≠ BitVec.allOnes 32 := fun heq => h (congrArg some heq)
      rw [TextEntry.run, CMap.countLoop_allRounds _ hlast, writes, places, List.map_map,
        List.map_eq_flatMap, List.flatMap_def]
      exact congrArg some List.foldl_append_eq_append

/-- What is read from a text whose ranges leave out the last code. -/
theorem parseExistingToUnicode_eq {text : Bytes}
    (h : ∀ e ∈ textEntries text, e.loopEnd ≠ some (BitVec.allOnes 32)) :
    parseExistingToUnicode allRounds text = some ((textEntries text).flatMap writes) := by
  rw [parseExistingToUnicode, Base.foldlM_eq_foldl fun e he m => run_eq (h e he) m]
  exact congrArg some List.flatMap_eq_foldl.symm

/-- The text of a code. -/
def mapped (text : Bytes) : Code → Option Bytes :=
  assign (fun _ => none) ((textEntries text).flatMap writes)

/-- The last assignment to a code. -/
def lastPlace (text : Bytes) : Code → Option Place :=
  assign (fun _ => none) ((textEntries text).flatMap places)

theorem mapped_eq (text : Bytes) (c : Code) :
    mapped text c = (lastPlace text c).map Place.value := by
  rw [mapped, lastPlace, ← Base.assign_map, List.map_flatMap]
  rfl

/-- The string is edited. -/
def Place.scrub (banned : Bool) (p : Place) : Place := ⟨(scrubQuads banned p.dst).1, p.offset⟩

theorem places_scrubEntry (banned : Bool) (e : TextEntry) :
    places (scrubEntry banned e) = (places e).map fun w => (w.1, w.2.scrub banned) := by
  cases e with
  | char code dst => rfl
  | range lo hi dst =>
      rw [scrubEntry, places, places, List.map_map]
      rfl

/-- The last assignments in the edited text are those of the text, edited. -/
theorem lastPlace_scrubbed (conf : UInt8) (ua : Bool) (t : MapText) (c : Code) :
    lastPlace ((scrubToUnicode conf ua t.text).getD t.text) c =
      (lastPlace t.text c).map (Place.scrub (puaBanned conf ua)) := by
  rw [lastPlace, lastPlace, ← Base.assign_map, textEntries_scrubbed, textEntries_text,
    List.map_flatMap, List.flatMap_map]
  simp only [places_scrubEntry]
  rfl

/-- A string of whole units, not too far from the start of its range. -/
structure Place.Good (p : Place) : Prop where
  digital : Digital p.dst
  nonempty : p.dst ≠ []
  units : 4 ∣ p.dst.length
  near : ∀ k ∈ p.offset, k.toNat ≤ 65535

theorem DstText.good (d : DstText) {offset : Option Code}
    (hnear : ∀ k ∈ offset, k.toNat ≤ 65535) : Place.Good ⟨d.digits, offset⟩ :=
  ⟨d.digital, d.nonempty, d.units, hnear⟩

theorem mem_arrayEntries {c : Code} {dsts : List DstText} {e : TextEntry}
    (h : e ∈ arrayEntries c dsts) : ∃ (c' : Code) (d : DstText), e = .char c' d.digits := by
  induction dsts generalizing c with
  | nil => cases h
  | cons d dsts ih =>
      obtain rfl | h := List.mem_cons.mp h
      · exact ⟨c, d, rfl⟩
      · exact ih h

theorem good_of_char {code : Code} {d : DstText} {w : Code × Place}
    (hw : w ∈ places (.char code d.digits)) : w.2.Good := by
  obtain rfl := List.mem_singleton.mp hw
  exact d.good fun k hk => by cases hk

theorem good_of_rangeText {r : RangeText} {e : TextEntry} (he : e ∈ r.entries) {w : Code × Place}
    (hw : w ∈ places e) : w.2.Good := by
  cases r with
  | single lo hi dst good =>
      obtain rfl := List.mem_singleton.mp he
      obtain ⟨c, hc, rfl⟩ := List.mem_map.mp hw
      refine dst.good fun k hk => ?_
      obtain rfl := Option.some.inj hk
      obtain ⟨hlo, hhi⟩ := Base.mem_codesUpTo.mp hc
      rw [CMap.badRange, Bool.or_eq_false_iff, decide_eq_false_iff_not,
        decide_eq_false_iff_not] at good
      bv_omega
  | array lo hi front dsts back good full =>
      obtain ⟨c, d, rfl⟩ := mem_arrayEntries he
      exact good_of_char hw

theorem good_of_section {s : SectionText} {e : TextEntry} (he : e ∈ s.entries) {w : Code × Place}
    (hw : w ∈ places e) : w.2.Good := by
  cases s with
  | chars entries back =>
      obtain ⟨x, _, rfl⟩ := List.mem_map.mp he
      exact good_of_char hw
  | ranges entries back =>
      obtain ⟨r, _, hr⟩ := List.mem_flatMap.mp he
      exact good_of_rangeText hr hw

theorem good_of_kind {range : Bool} {parts : List (Gap × SectionText)} {e : TextEntry}
    (he : e ∈ kindEntries range parts) {w : Code × Place} (hw : w ∈ places e) : w.2.Good := by
  obtain ⟨p, _, hp⟩ := List.mem_flatMap.mp he
  split at hp
  · exact good_of_section hp hw
  · cases hp

theorem good_of_entry {t : MapText} {e : TextEntry} (he : e ∈ t.entries) {w : Code × Place}
    (hw : w ∈ places e) : w.2.Good := by
  obtain hchars | hranges := List.mem_append.mp he
  · exact good_of_kind hchars hw
  · exact good_of_kind hranges hw

theorem good_of_lastPlace {t : MapText} {c : Code} {p : Place} (h : lastPlace t.text c = some p) :
    p.Good := by
  have hmem := Base.mem_of_assign h
  rw [textEntries_text] at hmem
  obtain ⟨e, he, hw⟩ := List.mem_flatMap.mp hmem
  exact good_of_entry he hw

/-- A text holds a forbidden character. -/
def HasForbidden (banned : Bool) (s : Bytes) : Prop := ∃ cp ∈ chars s, forbidden banned cp = true

theorem chars_hex4 {n : Nat} (h : n < 65536) : chars (ToUnicode.hex4 n) = [n] := by
  rw [chars, ToUnicode.wholeUnits_hex4 h]
  rfl

theorem combined_split {n : Nat} (h : 0xFFFF < n) :
    combined (0xD800 + (n - 0x10000) / 1024) (0xDC00 + (n - 0x10000) % 1024) = n := by
  have heq : combined (0xD800 + (n - 0x10000) / 1024) (0xDC00 + (n - 0x10000) % 1024) =
      0x10000 + (0xD800 + (n - 0x10000) / 1024 - 0xD800) * 0x400 +
        (0xDC00 + (n - 0x10000) % 1024) - 0xDC00 := rfl
  omega

/-- A character is written as its units. -/
theorem chars_utf16Hex {n : Code} (h : n.toNat < 0x110000) :
    chars (CMap.utf16Hex n) = [n.toNat] := by
  rw [CMap.utf16Hex]
  split
  · rename_i hlarge
    have hlarge' : 0xFFFF < n.toNat := BitVec.lt_def.mp hlarge
    have hv : (n - 0x10000).toNat = n.toNat - 0x10000 := by bv_omega
    have hhigh : (0xD800 + ((n - 0x10000) >>> 10)).toNat = 0xD800 + (n.toNat - 0x10000) / 1024 := by
      rw [BitVec.toNat_add, BitVec.toNat_ushiftRight, hv, Nat.shiftRight_eq_div_pow]
      change (0xD800 + (n.toNat - 0x10000) / 1024) % 2 ^ 32 = _
      omega
    have hlow : (0xDC00 + ((n - 0x10000) &&& 0x3FF)).toNat =
        0xDC00 + (n.toNat - 0x10000) % 1024 := by
      have hmask : (n.toNat - 0x10000) &&& 0x3FF = (n.toNat - 0x10000) % 1024 :=
        Nat.and_two_pow_sub_one_eq_mod _ 10
      rw [BitVec.toNat_add, BitVec.toNat_and, hv]
      change (0xDC00 + ((n.toNat - 0x10000) &&& 0x3FF)) % 2 ^ 32 = _
      rw [hmask]
      omega
    have hlt : 0xD800 + (n.toNat - 0x10000) / 1024 < 65536 := by omega
    have hlt' : 0xDC00 + (n.toNat - 0x10000) % 1024 < 65536 := by omega
    have hone := quad_hex4 hlt
    have htwo := quad_hex4 hlt'
    have hisHigh : isHigh (0xD800 + (n.toNat - 0x10000) / 1024) = true := isHigh_iff.mpr (by omega)
    have hisLow : isLow (0xDC00 + (n.toNat - 0x10000) % 1024) = true := isLow_iff.mpr (by omega)
    dsimp only
    rw [hhigh, hlow, hexPad_eq hlt, hexPad_eq hlt', chars, (hone.1.units _).1, hone.2,
      ToUnicode.wholeUnits_hex4 hlt', decodePaired, hisHigh, hisLow, Bool.and_self, if_pos rfl]
    have hvalue : combined (0xD800 + (n.toNat - 0x10000) / 1024)
        (0xDC00 + (n.toNat - 0x10000) % 1024) = n.toNat := combined_split hlarge'
    rw [hvalue]
    rfl
  · rename_i hsmall
    have hsmall' : n.toNat < 65536 := by
      have hle := BitVec.le_def.mp (BitVec.not_lt.mp hsmall)
      exact Nat.lt_succ_of_le hle
    rw [hexPad_eq hsmall', chars_hex4 hsmall']

theorem hasForbidden_utf16Hex {banned : Bool} {n : Code} (h : n.toNat < 0x110000) :
    HasForbidden banned (CMap.utf16Hex n) ↔ forbidden banned n.toNat = true := by
  rw [HasForbidden, chars_utf16Hex h]
  constructor
  · rintro ⟨cp, hcp, hbad⟩
    rwa [List.mem_singleton.mp hcp] at hbad
  · intro hbad
    exact ⟨_, List.mem_singleton_self _, hbad⟩

/-- No edited string holds a forbidden character. -/
theorem not_hasForbidden_scrubbed {banned : Bool} {hex : Bytes} (hd : Digital hex)
    (h4 : 4 ∣ hex.length) : ¬ HasForbidden banned (scrubQuads banned hex).1 := by
  rintro ⟨cp, hcp, hbad⟩
  rw [chars_scrubbed banned hd h4] at hcp
  obtain ⟨cp', _, rfl⟩ := List.mem_map.mp hcp
  rw [forbidden_scrubChar] at hbad
  cases hbad

theorem scrubbed_of_not_hasForbidden {banned : Bool} {hex : Bytes} (hd : Digital hex)
    (h4 : 4 ∣ hex.length) (h : ¬ HasForbidden banned hex) : (scrubQuads banned hex).1 = hex :=
  scrubQuads_kept hd h4 fun cp hcp => Bool.eq_false_of_not_eq_true fun hbad => h ⟨cp, hcp, hbad⟩

/-- The edit does what it should at a place. -/
structure Place.Fixed (banned : Bool) (p : Place) : Prop where
  clean : ¬ HasForbidden banned (p.scrub banned).value
  kept : ¬ HasForbidden banned p.value → (p.scrub banned).value = p.value

/-- Nothing forbidden is counted up to from the character that the edit leaves, and a forbidden
character is not the start of a count that comes to others. -/
structure Place.Safe (banned : Bool) (p : Place) : Prop where
  clean : ∀ k ∈ p.offset, ∀ cp, chars p.dst = [cp] → cp < 0x10000 ∨ forbidden banned cp = true →
    forbidden banned (scrubChar banned cp + k.toNat) = false
  kept : ∀ k ∈ p.offset, ∀ cp, chars p.dst = [cp] → cp < 0x10000 → forbidden banned cp = true →
    forbidden banned (cp + k.toNat) = true

/-- A string that is not counted. -/
theorem fixed_of_value {banned : Bool} {p : Place} (hp : p.Good) (hvalue : p.value = p.dst)
    (hscrub : (p.scrub banned).value = (p.scrub banned).dst) : p.Fixed banned := by
  refine ⟨?_, fun hfree => ?_⟩
  · rw [hscrub]
    exact not_hasForbidden_scrubbed hp.digital hp.units
  · rw [hvalue] at hfree ⊢
    rw [hscrub]
    exact scrubbed_of_not_hasForbidden hp.digital hp.units hfree

theorem length_units {s : Bytes} (h4 : 4 ∣ s.length) : s.length = 4 * (wholeUnits s).length := by
  fun_induction wholeUnits s with
  | case1 a b c d rest ih =>
      have hrest := ih (dvd_behind h4)
      simp only [List.length_cons] at hrest ⊢
      omega
  | case2 s hshort =>
      rw [eq_nil_of_short h4 hshort]
      rfl

theorem Quad.chars {quad : Bytes} (h : Quad quad) :
    chars quad = [unitOf quad] ∧ unitOf quad < 65536 := by
  obtain ⟨hunits, hlt⟩ := h.units []
  rw [List.append_nil] at hunits
  refine ⟨?_, hlt⟩
  rw [ScrubToUnicode.chars, hunits]
  rfl

/-- The code of a string of one unit is counted up. -/
theorem counted_value {dst : Bytes} (hq : Quad dst) {k : Code} (hk : k.toNat ≤ 65535) :
    Place.value ⟨dst, some k⟩ = CMap.utf16Hex (codeOf dst + k) ∧
      (codeOf dst + k).toNat = unitOf dst + k.toNat := by
  have hlt := hq.chars.2
  have hcode : (codeOf dst).toNat = unitOf dst := BitVec.toNat_ofNat _ _
  refine ⟨if_pos hq.length.le, ?_⟩
  rw [BitVec.toNat_add, hcode]
  exact Nat.mod_eq_of_lt (by omega)

theorem scrubChar_eq_self_iff {banned : Bool} {cp : Nat} :
    scrubChar banned cp = cp ↔ forbidden banned cp = false := by
  constructor
  · intro h
    rw [← h]
    exact forbidden_scrubChar banned cp
  · exact scrubChar_of_not_forbidden

/-- The characters that are counted up from in the edited text are units. -/
theorem scrubbed_quad {banned : Bool} {dst : Bytes} (hd : Digital dst) (h4 : 4 ∣ dst.length)
    (hlen : (scrubQuads banned dst).1.length = 4) :
    ∃ cp, chars dst = [cp] ∧ unitOf (scrubQuads banned dst).1 = scrubChar banned cp := by
  have hnew : Quad (scrubQuads banned dst).1 := ⟨hlen, (scrubQuads_edited banned hd h4).digital⟩
  have hchars := chars_scrubbed banned hd h4
  rw [hnew.chars.1] at hchars
  obtain ⟨cp, hcp, heq⟩ := List.map_eq_singleton_iff.mp hchars.symm
  exact ⟨cp, hcp, heq.symm⟩

/-- What the edit leaves of a string of one character is counted up from that character. -/
theorem hasForbidden_counted {banned : Bool} {dst : Bytes} {k : Code} {cp : Nat}
    (hp : Place.Good ⟨dst, some k⟩) (hlen : (scrubQuads banned dst).1.length = 4)
    (hcp : chars dst = [cp]) :
    HasForbidden banned (Place.scrub banned ⟨dst, some k⟩).value ↔
      forbidden banned (scrubChar banned cp + k.toNat) = true := by
  have hk := hp.near k rfl
  have hnew : Quad (scrubQuads banned dst).1 :=
    ⟨hlen, (scrubQuads_edited banned hp.digital hp.units).digital⟩
  obtain ⟨cp', hcp', hunit⟩ := scrubbed_quad hp.digital hp.units hlen
  obtain rfl := (List.cons.inj (hcp.symm.trans hcp')).1
  obtain ⟨hvalue, hnat⟩ := counted_value hnew hk
  have hsmall := hnew.chars.2
  rw [hunit] at hnat hsmall
  rw [Place.scrub, hvalue, hasForbidden_utf16Hex (by omega), hnat]

/-- The condition on a string of one character is about that character. -/
theorem safe_iff_of_chars {banned : Bool} {dst : Bytes} {k : Code} {cp : Nat}
    (hcp : chars dst = [cp]) :
    Place.Safe banned ⟨dst, some k⟩ ↔
      (cp < 0x10000 ∨ forbidden banned cp = true →
        forbidden banned (scrubChar banned cp + k.toNat) = false) ∧
      (cp < 0x10000 → forbidden banned cp = true → forbidden banned (cp + k.toNat) = true) := by
  constructor
  · rintro ⟨hclean, hkept⟩
    exact ⟨hclean k rfl cp hcp, hkept k rfl cp hcp⟩
  · rintro ⟨hclean, hkept⟩
    refine ⟨?_, ?_⟩
    · rintro k' hk' cp' hcp'
      obtain rfl := Option.some.inj hk'
      obtain rfl := (List.cons.inj (hcp.symm.trans hcp')).1
      exact hclean
    · rintro k' hk' cp' hcp'
      obtain rfl := Option.some.inj hk'
      obtain rfl := (List.cons.inj (hcp.symm.trans hcp')).1
      exact hkept

/-- A string of one unit is counted up before the edit and after it. -/
theorem fixed_iff_quad {banned : Bool} {dst : Bytes} {k : Code} (hp : Place.Good ⟨dst, some k⟩)
    (hlen : dst.length = 4) :
    Place.Fixed banned ⟨dst, some k⟩ ↔ Place.Safe banned ⟨dst, some k⟩ := by
  have hk := hp.near k rfl
  have hq : Quad dst := ⟨hlen, hp.digital⟩
  have hedited := scrubQuads_edited banned hp.digital hp.units
  have hnewLen : (scrubQuads banned dst).1.length = 4 := by
    have hone : wholeUnits dst = [unitOf dst] := by
      have h := (hq.units []).1
      rwa [List.append_nil] at h
    rw [length_units hedited.whole, hedited.units, hone]
    rfl
  obtain ⟨cp, hcp, hunit⟩ := scrubbed_quad hp.digital hp.units hnewLen
  have hcp' : unitOf dst = cp := (List.cons.inj (hq.chars.1.symm.trans hcp)).1
  have hsmall : cp < 0x10000 := hcp' ▸ hq.chars.2
  obtain ⟨hvalue, hnat⟩ := counted_value hq hk
  obtain ⟨hvalue', hnat'⟩ := counted_value (⟨hnewLen, hedited.digital⟩ : Quad _) hk
  have hsmall' := (⟨hnewLen, hedited.digital⟩ : Quad (scrubQuads banned dst).1).chars.2
  rw [hcp'] at hnat
  rw [hunit] at hnat' hsmall'
  have hold : HasForbidden banned (Place.value ⟨dst, some k⟩) ↔
      forbidden banned (cp + k.toNat) = true := by
    rw [hvalue, hasForbidden_utf16Hex (by omega), hnat]
  have hnew := hasForbidden_counted hp hnewLen hcp
  have hsame : (Place.scrub banned ⟨dst, some k⟩).value = Place.value ⟨dst, some k⟩ ↔
      scrubChar banned cp = cp := by
    rw [Place.scrub, hvalue', hvalue]
    constructor
    · intro heq
      have hchars := congrArg chars heq
      rw [chars_utf16Hex (by omega), chars_utf16Hex (by omega), hnat, hnat'] at hchars
      have h := (List.cons.inj hchars).1
      omega
    · intro heq
      have hcodes : codeOf (scrubQuads banned dst).1 + k = codeOf dst + k := by
        apply BitVec.eq_of_toNat_eq
        rw [hnat, hnat', heq]
      rw [hcodes]
  rw [safe_iff_of_chars hcp]
  constructor
  · rintro ⟨hclean, hkept⟩
    rw [hnew] at hclean
    rw [hold, hsame, scrubChar_eq_self_iff] at hkept
    refine ⟨fun _ => Bool.eq_false_of_not_eq_true hclean, fun _ hbad => ?_⟩
    by_contra hnot
    rw [hkept hnot] at hbad
    cases hbad
  · rintro ⟨hclean, hkept⟩
    refine ⟨?_, ?_⟩
    · rw [hnew, hclean (Or.inl hsmall)]
      exact Bool.false_ne_true
    · rw [hold, hsame, scrubChar_eq_self_iff]
      intro hnot
      refine Bool.eq_false_of_not_eq_true fun hbad => ?_
      exact hnot (hkept hsmall hbad)

theorem decodePaired_ne_nil (u : Nat) (us : List Nat) : decodePaired (u :: us) ≠ [] :=
  ToUnicode.decodePaired_ne_nil (List.cons_ne_nil u us)

/-- Units that are one character. -/
theorem units_of_single {us : List Nat} {cp : Nat} (h : decodePaired us = [cp]) :
    us = [cp] ∨ ∃ v lo, us = [v, lo] ∧ isHigh v = true ∧ isLow lo = true ∧ combined v lo = cp := by
  rcases us with _ | ⟨v, _ | ⟨lo, rest⟩⟩
  · cases h
  · exact Or.inl h
  · rw [decodePaired] at h
    split at h
    · rename_i hpair
      obtain ⟨hv, hlo⟩ := Bool.and_eq_true_iff.mp hpair
      obtain ⟨heq, hrest⟩ := List.cons.inj h
      cases rest with
      | nil => exact Or.inr ⟨v, lo, rfl, hv, hlo, heq⟩
      | cons u rest => exact absurd hrest (decodePaired_ne_nil u rest)
    · exact absurd (List.cons.inj h).2 (decodePaired_ne_nil lo rest)

/-- A longer string is counted up only if the edit leaves one unit of it. -/
theorem fixed_iff_long {banned : Bool} {dst : Bytes} {k : Code} (hp : Place.Good ⟨dst, some k⟩)
    (hlen : 4 < dst.length) :
    Place.Fixed banned ⟨dst, some k⟩ ↔ Place.Safe banned ⟨dst, some k⟩ := by
  have hedited := scrubQuads_edited banned hp.digital hp.units
  have hvalue : Place.value ⟨dst, some k⟩ = dst := if_neg (Nat.not_le.mpr hlen)
  -- its one character would be a pair of units
  have hsingle : ∀ cp, chars dst = [cp] → 0x10000 ≤ cp ∧
      (forbidden banned cp = true → (scrubQuads banned dst).1.length = 4) := by
    intro cp hcp
    obtain hunits | ⟨v, lo, hunits, hv, hlo, rfl⟩ := units_of_single hcp
    · have h := length_units hp.units
      rw [hunits] at h
      exact absurd h (Nat.ne_of_gt hlen)
    · refine ⟨le_combined hv hlo, fun hbad => ?_⟩
      rw [forbidden_of_large (le_combined hv hlo)] at hbad
      obtain ⟨rfl, hplane⟩ := Bool.and_eq_true_iff.mp hbad
      rw [length_units hedited.whole, hedited.units, hunits, scrubUnits, hv, hlo, Bool.and_self,
        Bool.and_self, if_pos rfl, if_pos hplane]
      rfl
  by_cases hnewLen : (scrubQuads banned dst).1.length = 4
  · obtain ⟨cp, hcp, -⟩ := scrubbed_quad hp.digital hp.units hnewLen
    obtain ⟨hlarge, _⟩ := hsingle cp hcp
    have hbad : forbidden banned cp = true := by
      by_contra hnot
      have hsame : (scrubQuads banned dst).1 = dst := by
        refine scrubQuads_kept hp.digital hp.units fun cp' hcp' => ?_
        rw [hcp, List.mem_singleton] at hcp'
        rw [hcp']
        exact Bool.eq_false_of_not_eq_true hnot
      rw [hsame] at hnewLen
      omega
    have hnew := hasForbidden_counted hp hnewLen hcp
    rw [safe_iff_of_chars hcp]
    constructor
    · rintro ⟨hclean, _⟩
      rw [hnew] at hclean
      exact ⟨fun _ => Bool.eq_false_of_not_eq_true hclean,
        fun hsmall => absurd hsmall (Nat.not_lt.mpr hlarge)⟩
    · rintro ⟨hclean, _⟩
      refine ⟨?_, ?_⟩
      · rw [hnew, hclean (Or.inr hbad)]
        exact Bool.false_ne_true
      · intro hfree
        rw [hvalue] at hfree
        refine absurd ⟨cp, ?_, hbad⟩ hfree
        rw [hcp]
        exact List.mem_singleton_self cp
  · have hlong : ¬ (scrubQuads banned dst).1.length ≤ 4 := by
      have hne := scrubQuads_ne_nil banned hp.digital hp.units hp.nonempty
      have hle := Nat.le_of_dvd (List.length_pos_of_ne_nil hne) hedited.whole
      exact fun h => hnewLen (Nat.le_antisymm h hle)
    refine iff_of_true (fixed_of_value hp hvalue (if_neg hlong)) ⟨?_, ?_⟩
    · rintro k' - cp hcp hbad
      obtain ⟨hlarge, hfour⟩ := hsingle cp hcp
      obtain hsmall | hbad := hbad
      · omega
      · exact absurd (hfour hbad) hnewLen
    · rintro k' - cp hcp hsmall -
      have h := (hsingle cp hcp).1
      omega

theorem Place.fixed_iff (banned : Bool) {p : Place} (hp : p.Good) :
    p.Fixed banned ↔ p.Safe banned := by
  obtain ⟨dst, offset⟩ := p
  cases offset with
  | none =>
      have hfixed : Place.Fixed banned ⟨dst, none⟩ := fixed_of_value hp rfl rfl
      exact iff_of_true hfixed ⟨(fun k hk => by cases hk), (fun k hk => by cases hk)⟩
  | some k =>
      have hle : 4 ≤ dst.length :=
        Nat.le_of_dvd (List.length_pos_of_ne_nil hp.nonempty) hp.units
      obtain heq | hlt := Nat.eq_or_lt_of_le hle
      · exact fixed_iff_quad hp heq.symm
      · exact fixed_iff_long hp hlt

/-- In the edited text no code has a text with a forbidden character, and the codes whose text had
none have it still. -/
structure ScrubsExactly (conf : UInt8) (ua : Bool) (text : Bytes) : Prop where
  clean : ∀ c s, mapped ((scrubToUnicode conf ua text).getD text) c = some s →
    ¬ HasForbidden (puaBanned conf ua) s
  kept : ∀ c s, mapped text c = some s → ¬ HasForbidden (puaBanned conf ua) s →
    mapped ((scrubToUnicode conf ua text).getD text) c = some s

/-- The text of a code in the edited map. -/
theorem mapped_scrubbed (conf : UInt8) (ua : Bool) (t : MapText) (c : Code) :
    mapped ((scrubToUnicode conf ua t.text).getD t.text) c =
      (lastPlace t.text c).map fun p => (p.scrub (puaBanned conf ua)).value := by
  rw [mapped_eq, lastPlace_scrubbed, Option.map_map]
  rfl

/-- The edit of a map does what it should if and only if it does at each last assignment. -/
theorem scrubsExactly_iff (conf : UInt8) (ua : Bool) (t : MapText) :
    ScrubsExactly conf ua t.text ↔
      ∀ c p, lastPlace t.text c = some p → p.Safe (puaBanned conf ua) := by
  constructor
  · rintro ⟨hclean, hkept⟩ c p hp
    have hnew := mapped_scrubbed conf ua t c
    have hold := mapped_eq t.text c
    rw [hp] at hnew hold
    refine (Place.fixed_iff _ (good_of_lastPlace hp)).mp ⟨hclean c _ hnew, fun hfree => ?_⟩
    have hsame := hkept c _ hold hfree
    exact Option.some.inj (hnew.symm.trans hsame)
  · intro hsafe
    refine ⟨fun c s hs => ?_, fun c s hs hfree => ?_⟩
    · rw [mapped_scrubbed] at hs
      obtain ⟨p, hp, rfl⟩ := Option.map_eq_some_iff.mp hs
      exact ((Place.fixed_iff _ (good_of_lastPlace hp)).mpr (hsafe c p hp)).clean
    · rw [mapped_eq] at hs
      obtain ⟨p, hp, rfl⟩ := Option.map_eq_some_iff.mp hs
      have hfixed := (Place.fixed_iff _ (good_of_lastPlace hp)).mpr (hsafe c p hp)
      rw [mapped_scrubbed, hp, Option.map_some, hfixed.kept hfree]

/-- A string behind a blank. -/
def spaced (digits : Bytes) (h : digits.all isXDigit = true) : HexText where
  space := ⟨[0x20], fun c hc => by rw [List.mem_singleton.mp hc]; rfl⟩
  digits := digits
  digital := List.all_eq_true.mp h

/-- A range of two codes from the first character on. -/
def zeroRange : RangeText :=
  .single ⟨spaced (lit "00") (by decide), by decide⟩ ⟨spaced (lit "01") (by decide), by decide⟩
    ⟨spaced (lit "0000") (by decide), by decide, by decide⟩ (by decide)

theorem short_clear {s : Bytes} (h : s.length < 11) (range : Bool) : ¬ beginMark range <:+: s := by
  intro hin
  have hle := hin.length_le
  cases range with
  | false =>
      have hlen : (beginMark false).length = 11 := by decide
      omega
  | true =>
      have hlen : (beginMark true).length = 12 := by decide
      omega

/-- A map of this range. -/
def zeroMap : MapText where
  parts := [(⟨lit "1 ", short_clear (by decide)⟩,
    .ranges [zeroRange] ⟨[0x20], fun c hc => by rw [List.mem_singleton.mp hc]; rfl⟩)]
  tail := ⟨[], short_clear (by decide)⟩
  apart := by
    intro p hp c hc
    rw [List.mem_singleton.mp hp] at hc
    obtain rfl := Option.some.inj hc
    rfl

/-- The code behind the first one of a range that is given the first character comes to a forbidden
character in the edited text. -/
theorem zeroMap_not_exact :
    zeroMap.text = lit "1 beginbfrange <00> <01> <0000> endbfrange" ∧
      ¬ ScrubsExactly 0x42 false zeroMap.text := by
  refine ⟨by decide, fun h => ?_⟩
  have hplace : lastPlace zeroMap.text 1 = some ⟨lit "0000", some 1⟩ := by
    rw [lastPlace, textEntries_text]
    rfl
  have hmapped : mapped ((scrubToUnicode 0x42 false zeroMap.text).getD zeroMap.text) 1 =
      some (lit "FFFE") := by
    rw [mapped_scrubbed, hplace]
    decide
  refine h.clean 1 _ hmapped ⟨0xFFFE, ?_, rfl⟩
  decide

end Kura.Engine.ScrubToUnicode
