import Kura.Engine.CompletedText

/-!
# Texts that completing a map keeps

By the rules of character maps the last entry for a code gives it its text, and
a range counts up the last unit of its string. `parseExistingToUnicode` reads
the ranges behind all single codes and counts up strings of one unit only. The
texts of a map are in the completed map exactly where this is the same.

Texts are compared by their units. A place is a string that is given to a code
and the distance of the code from the first one of its range; the rules and the
reader take the text of a code from its last place, each in an order of its own.
-/

namespace Kura.Engine.CompleteToUnicode

open Base (assign codesUpTo firsts)
open CMap (Code TextEntry Writes codeOf textEntries hexPad utf16Hex parseExistingToUnicode
  allRounds)
open ScrubToUnicode (Gap HexText LooseRange LooseSection LooseMap Place Quad places writes mapped
  lastPlace looseArrayEntries looseKind textEntries_loose parseExistingToUnicode_eq)
open ToUnicode (Digital wholeUnits hex4)

/-- Counts up the last unit. -/
def countLast (us : List Nat) (k : Nat) : List Nat :=
  us.dropLast ++ us.getLast?.toList.map fun u => (u + k) % 65536

/-- The units that the rules give to a code. -/
def ruled (p : Place) : List Nat :=
  match p.offset with
  | none => wholeUnits p.dst
  | some k => countLast (wholeUnits p.dst) k.toNat

/-- The entries of a map in the order of its text. -/
def entries (t : LooseMap) : List TextEntry := t.parts.flatMap fun p => p.2.entries

def dstOf : TextEntry → Bytes
  | .range _ _ dst => dst
  | .char _ dst => dst

/-- The last code of an entry. -/
def lastCode : TextEntry → Code
  | .range _ hi _ => hi
  | .char code _ => code

/-- A map whose strings consist of whole units. -/
structure UnitMap extends LooseMap where
  units : ∀ e ∈ entries toLooseMap, 4 ∣ (dstOf e).length

/-- The last place of a code by the rules. -/
def ruledPlace (t : LooseMap) : Code → Option Place :=
  assign (fun _ => none) ((entries t).flatMap places)

/-- The last place of a code for the reader. -/
def readPlace (t : LooseMap) : Code → Option Place := lastPlace t.text

/-- The units of a code by the rules. -/
def meaning (t : LooseMap) (c : Code) : Option (List Nat) := (ruledPlace t c).map ruled

theorem dst_ne_nil {p : Place} (h : ruled p ≠ []) : p.dst ≠ [] := by
  intro hnil
  apply h
  rw [ruled, hnil]
  cases p.offset <;> rfl

/-- A string of whole units, not too far from the start of its range. -/
structure Sound (p : Place) : Prop where
  digital : Digital p.dst
  units : 4 ∣ p.dst.length
  near : ∀ k ∈ p.offset, k.toNat ≤ 65535

theorem near_of_range {lo hi c k : Code} (good : CMap.badRange lo hi = false)
    (hc : c ∈ codesUpTo lo hi) (hk : k ∈ some (c - lo)) : k.toNat ≤ 65535 := by
  obtain rfl := Option.some.inj hk
  obtain ⟨hlo, hhi⟩ := Base.mem_codesUpTo.mp hc
  rw [CMap.badRange, Bool.or_eq_false_iff, decide_eq_false_iff_not, decide_eq_false_iff_not] at good
  bv_omega

/-- What the places of an entry are like. -/
def SoundEntry (e : TextEntry) : Prop :=
  4 ∣ (dstOf e).length → ∀ w ∈ places e, Sound w.2

theorem soundEntry_char (c : Code) (d : HexText) : SoundEntry (.char c d.digits) := by
  intro hunits w hw
  obtain rfl := List.mem_singleton.mp hw
  exact ⟨d.digital, hunits, nofun⟩

theorem soundEntry_array {c : Code} {dsts : List HexText} {e : TextEntry}
    (he : e ∈ looseArrayEntries c dsts) : SoundEntry e := by
  induction dsts generalizing c with
  | nil => cases he
  | cons d dsts ih =>
      obtain rfl | he := List.mem_cons.mp he
      · exact soundEntry_char c d
      · exact ih he

theorem soundEntry_of_range {r : LooseRange} {e : TextEntry} (he : e ∈ r.entries) :
    SoundEntry e := by
  cases r with
  | single lo hi dst good =>
      obtain rfl := List.mem_singleton.mp he
      intro hunits w hw
      obtain ⟨c, hc, rfl⟩ := List.mem_map.mp hw
      exact ⟨dst.digital, hunits, fun k hk => near_of_range good hc hk⟩
  | array lo hi front dsts back good full => exact soundEntry_array he

theorem soundEntry_of_section {s : LooseSection} {e : TextEntry} (he : e ∈ s.entries) :
    SoundEntry e := by
  cases s with
  | chars es back =>
      obtain ⟨x, _, rfl⟩ := List.mem_map.mp he
      exact soundEntry_char _ _
  | ranges es back =>
      obtain ⟨r, _, hr⟩ := List.mem_flatMap.mp he
      exact soundEntry_of_range hr

theorem mem_entries_of_read {s : LooseSection} {e : TextEntry} (he : e ∈ s.read) :
    e ∈ s.entries := by
  cases s with
  | chars es back =>
      obtain ⟨x, hx, rfl⟩ := List.mem_map.mp he
      exact List.mem_map.mpr ⟨x, (List.mem_filter.mp hx).1, rfl⟩
  | ranges es back => exact he

/-- What is read are entries of the map. -/
theorem read_subset {t : LooseMap} {e : TextEntry} (he : e ∈ t.read) : e ∈ entries t := by
  have hkind : ∀ range, e ∈ looseKind range t.parts → e ∈ entries t := by
    intro range h
    obtain ⟨p, hp, hread⟩ := List.mem_flatMap.mp h
    split at hread
    · exact List.mem_flatMap.mpr ⟨p, hp, mem_entries_of_read hread⟩
    · cases hread
  exact (List.mem_append.mp he).elim (hkind false) (hkind true)

/-- An entry that gives a string is read. -/
theorem mem_read_of_ne_nil {t : LooseMap} {e : TextEntry} (he : e ∈ entries t)
    (hne : dstOf e ≠ []) : e ∈ t.read := by
  obtain ⟨p, hp, hep⟩ := List.mem_flatMap.mp he
  have hread : e ∈ p.2.read := by
    obtain ⟨front, sec⟩ := p
    cases sec with
    | chars es back =>
        obtain ⟨x, hx, rfl⟩ := List.mem_map.mp hep
        exact List.mem_map.mpr ⟨x, List.mem_filter.mpr ⟨hx, decide_eq_true hne⟩, rfl⟩
    | ranges es back => exact hep
  have hkind : e ∈ looseKind p.2.range t.parts :=
    List.mem_flatMap.mpr ⟨p, hp, by rwa [if_pos rfl]⟩
  cases hrange : p.2.range with
  | false => exact List.mem_append_left _ (hrange ▸ hkind)
  | true => exact List.mem_append_right _ (hrange ▸ hkind)

theorem sound_of_entry {t : UnitMap} {e : TextEntry} (he : e ∈ entries t.toLooseMap)
    {w : Code × Place} (hw : w ∈ places e) : Sound w.2 := by
  obtain ⟨p, _, hp⟩ := List.mem_flatMap.mp he
  exact soundEntry_of_section hp (t.units e he) w hw

theorem readPlace_eq (t : LooseMap) :
    readPlace t = assign (fun _ => none) (t.read.flatMap places) := by
  rw [readPlace, lastPlace, textEntries_loose]

theorem sound_ruledPlace {t : UnitMap} {c : Code} {p : Place}
    (h : ruledPlace t.toLooseMap c = some p) : Sound p := by
  obtain ⟨e, he, hw⟩ := List.mem_flatMap.mp (Base.mem_of_assign h)
  exact sound_of_entry he hw

theorem sound_readPlace {t : UnitMap} {c : Code} {p : Place}
    (h : readPlace t.toLooseMap c = some p) : Sound p := by
  rw [readPlace_eq] at h
  obtain ⟨e, he, hw⟩ := List.mem_flatMap.mp (Base.mem_of_assign h)
  exact sound_of_entry (read_subset he) hw

theorem dstOf_places {e : TextEntry} {w : Code × Place} (hw : w ∈ places e) :
    w.2.dst = dstOf e := by
  cases e with
  | char code dst =>
      obtain rfl := List.mem_singleton.mp hw
      rfl
  | range lo hi dst =>
      obtain ⟨c, _, rfl⟩ := List.mem_map.mp hw
      rfl

/-- A code that has a string by the rules is read. -/
theorem readPlace_isSome {t : LooseMap} {c : Code} {p : Place} (h : ruledPlace t c = some p)
    (hne : p.dst ≠ []) : ∃ p', readPlace t c = some p' := by
  obtain ⟨e, he, hw⟩ := List.mem_flatMap.mp (Base.mem_of_assign h)
  have hread : e ∈ t.read := mem_read_of_ne_nil he (dstOf_places hw ▸ hne)
  obtain ⟨p', _, hp'⟩ := Base.assign_of_mem (m := fun _ => none)
    (List.mem_flatMap.mpr ⟨e, hread, hw⟩)
  exact ⟨p', by rw [readPlace_eq]; exact hp'⟩

/-- A character is written with one unit or with two. -/
theorem utf16Hex_text (n : Code) (h : n.toNat < 0x110000) :
    Digital (utf16Hex n) ∧ 4 ∣ (utf16Hex n).length ∧
      (n.toNat < 65536 → wholeUnits (utf16Hex n) = [n.toNat]) ∧
      (65536 ≤ n.toNat → (utf16Hex n).length = 8) := by
  by_cases hlarge : 0xFFFF < n
  · have hlarge' : 0xFFFF < n.toNat := BitVec.lt_def.mp hlarge
    have hv : (n - 0x10000).toNat = n.toNat - 0x10000 := by bv_omega
    have hhigh : (0xD800 + ((n - 0x10000) >>> 10)).toNat < 65536 := by
      rw [BitVec.toNat_add, BitVec.toNat_ushiftRight, hv, Nat.shiftRight_eq_div_pow]
      change (0xD800 + (n.toNat - 0x10000) / 1024) % 2 ^ 32 < _
      omega
    have hlow : (0xDC00 + ((n - 0x10000) &&& 0x3FF)).toNat < 65536 := by
      have hmask : (n.toNat - 0x10000) &&& 0x3FF = (n.toNat - 0x10000) % 1024 :=
        Nat.and_two_pow_sub_one_eq_mod _ 10
      rw [BitVec.toNat_add, BitVec.toNat_and, hv]
      change (0xDC00 + ((n.toNat - 0x10000) &&& 0x3FF)) % 2 ^ 32 < _
      rw [hmask]
      omega
    have htext : utf16Hex n = hex4 (0xD800 + ((n - 0x10000) >>> 10)).toNat ++
        hex4 (0xDC00 + ((n - 0x10000) &&& 0x3FF)).toNat := by
      rw [utf16Hex, if_pos hlarge, ← ScrubToUnicode.hexPad_eq hhigh,
        ← ScrubToUnicode.hexPad_eq hlow]
    have hlen : (utf16Hex n).length = 8 := by
      rw [htext]
      rfl
    refine ⟨?_, ⟨2, hlen⟩, fun hsmall => absurd hsmall (by omega), fun _ => hlen⟩
    intro c hc
    rw [htext] at hc
    exact (List.mem_append.mp hc).elim (ToUnicode.hex4_digital hhigh c)
      (ToUnicode.hex4_digital hlow c)
  · have hsmall : n.toNat < 65536 := by
      have hle := BitVec.le_def.mp (BitVec.not_lt.mp hlarge)
      exact Nat.lt_succ_of_le hle
    have htext : utf16Hex n = hex4 n.toNat := by
      rw [utf16Hex, if_neg hlarge, ScrubToUnicode.hexPad_eq hsmall]
    rw [htext]
    refine ⟨ToUnicode.hex4_digital hsmall, ⟨1, rfl⟩, fun _ => ToUnicode.wholeUnits_hex4 hsmall,
      fun hle => absurd hsmall (by omega)⟩

/-- The reader counts up as the rules do: a code at the start of a range, or a string of one unit
that is not counted over the last one. -/
def Counts (p : Place) : Prop :=
  ∀ k ∈ p.offset, k = 0 ∨ (p.dst.length = 4 ∧ ScrubToUnicode.unitOf p.dst + k.toNat < 65536)

/-- The value of a string with at most one unit that is counted up. -/
theorem counted_toNat {dst : Bytes} {k : Code} (h : Sound ⟨dst, some k⟩) (hlen : dst.length ≤ 4) :
    (codeOf dst + k).toNat = ScrubToUnicode.unitOf dst + k.toNat ∧
      ScrubToUnicode.unitOf dst < 65536 := by
  have hk := h.near k rfl
  have hcode : (codeOf dst).toNat = ScrubToUnicode.unitOf dst := BitVec.toNat_ofNat _ _
  have hlt : ScrubToUnicode.unitOf dst < 65536 := by
    obtain heq | hlt := Nat.eq_or_lt_of_le hlen
    · exact (Quad.chars ⟨heq, h.digital⟩).2
    · obtain ⟨m, hm⟩ := h.units
      dsimp only at hm
      have hzero : dst = [] := List.eq_nil_of_length_eq_zero (by omega)
      rw [hzero]
      decide
  refine ⟨?_, hlt⟩
  rw [BitVec.toNat_add, hcode]
  exact Nat.mod_eq_of_lt (by omega)

/-- What is read for a code consists of whole units. -/
theorem sound_value {p : Place} (h : Sound p) : Digital p.value ∧ 4 ∣ p.value.length := by
  obtain ⟨dst, offset⟩ := p
  cases offset with
  | none => exact ⟨h.digital, h.units⟩
  | some k =>
      by_cases hlen : dst.length ≤ 4
      · have hvalue : Place.value ⟨dst, some k⟩ = utf16Hex (codeOf dst + k) := if_pos hlen
        have hk := h.near k rfl
        have hnat := counted_toNat h hlen
        obtain ⟨hdigital, hunits, -⟩ := utf16Hex_text (codeOf dst + k) (by omega)
        rw [hvalue]
        exact ⟨hdigital, hunits⟩
      · have hvalue : Place.value ⟨dst, some k⟩ = dst := if_neg hlen
        rw [hvalue]
        exact ⟨h.digital, h.units⟩

theorem countLast_eq_iff {us : List Nat} (hne : us ≠ []) (hsmall : ∀ u ∈ us, u < 65536) {k : Nat}
    (hk : k ≤ 65535) : us = countLast us k ↔ k = 0 := by
  obtain ⟨init, u, rfl⟩ := List.eq_nil_or_concat us |>.resolve_left hne
  have hu := hsmall u (by simp)
  have hcount : countLast (init ++ [u]) k = init ++ [(u + k) % 65536] := by
    simp [countLast]
  rw [List.concat_eq_append, hcount, List.append_cancel_left_eq, List.cons.injEq, and_iff_left rfl]
  omega

theorem wholeUnits_lt {s : Bytes} (hd : Digital s) : ∀ u ∈ wholeUnits s, u < 65536 := by
  fun_induction wholeUnits s with
  | case1 a b c d rest ih =>
      have hfour : Digital [a, b, c, d] := fun x hx => hd x (by
        simp only [List.mem_cons, List.not_mem_nil, or_false] at hx ⊢
        tauto)
      obtain ⟨hvalue, hlt⟩ := ScrubToUnicode.unitOf_quad hfour
      intro u hu
      obtain rfl | hu := List.mem_cons.mp hu
      · omega
      · exact ih hd.tail.tail.tail.tail u hu
  | case2 => simp

/-- What is read for a code that has a string is what the rules say exactly if it is counted up as
they do. -/
theorem value_ruled_iff {p : Place} (h : Sound p) (hne : p.dst ≠ []) :
    wholeUnits p.value = ruled p ↔ Counts p := by
  obtain ⟨dst, offset⟩ := p
  cases offset with
  | none => exact iff_of_true rfl nofun
  | some k =>
      have hk := h.near k rfl
      have hcounts : Counts ⟨dst, some k⟩ ↔
          k = 0 ∨ (dst.length = 4 ∧ ScrubToUnicode.unitOf dst + k.toNat < 65536) := by
        simp [Counts]
      have hpos := List.length_pos_of_ne_nil hne
      obtain ⟨m, hm⟩ := h.units
      dsimp only at hm hpos
      by_cases hlen : dst.length ≤ 4
      · have hfour : dst.length = 4 := by omega
        have hquad : Quad dst := ⟨hfour, h.digital⟩
        obtain ⟨hnat, hlt⟩ := counted_toNat h hlen
        have hvalue : Place.value ⟨dst, some k⟩ = utf16Hex (codeOf dst + k) := if_pos hlen
        have hdst : wholeUnits dst = [ScrubToUnicode.unitOf dst] := by
          have hunits := (hquad.units []).1
          rwa [List.append_nil] at hunits
        have hruled : ruled ⟨dst, some k⟩ = [(ScrubToUnicode.unitOf dst + k.toNat) % 65536] := by
          simp [ruled, hdst, countLast]
        obtain ⟨-, hunits, hone, htwo⟩ := utf16Hex_text (codeOf dst + k) (by omega)
        rw [hvalue, hruled, hcounts]
        by_cases hover : ScrubToUnicode.unitOf dst + k.toNat < 65536
        · rw [hone (by omega), hnat, Nat.mod_eq_of_lt hover]
          exact iff_of_true rfl (Or.inr ⟨hfour, hover⟩)
        · refine iff_of_false (fun heq => ?_) ?_
          · have hlength := ScrubToUnicode.length_units hunits
            rw [heq, htwo (by omega)] at hlength
            simp at hlength
          · rintro (rfl | ⟨-, hsmall⟩)
            · simp at hover
              omega
            · exact hover hsmall
      · have hvalue : Place.value ⟨dst, some k⟩ = dst := if_neg hlen
        have hlength := ScrubToUnicode.length_units h.units
        have hunits : wholeUnits dst ≠ [] := fun hnil => by
          dsimp only at hlength
          rw [hnil] at hlength
          simp at hlength
          exact hne hlength
        rw [hvalue, hcounts, ruled]
        dsimp only
        rw [countLast_eq_iff hunits (wholeUnits_lt h.digital) hk]
        constructor
        · intro hzero
          exact Or.inl (BitVec.eq_of_toNat_eq hzero)
        · rintro (rfl | ⟨hfour, -⟩)
          · rfl
          · omega

theorem length_utf16Hex (n : Code) : 4 ≤ (utf16Hex n).length := by
  have hpad : ∀ k, 4 ≤ (hexPad 4 k).length := fun k => by
    rw [length_hexPad]
    exact le_max_left _ _
  rw [utf16Hex]
  split
  · rw [List.length_append]
    exact (hpad _).trans (Nat.le_add_right _ _)
  · exact hpad _

theorem digital_utf16Hex (n : Code) : Digital (utf16Hex n) := by
  rw [utf16Hex]
  split
  · intro c hc
    exact (List.mem_append.mp hc).elim (digital_hexPad 4 _ c) (digital_hexPad 4 _ c)
  · exact digital_hexPad 4 _

/-- A string that is not counted up as the rules do is longer than a unit. -/
theorem length_of_not_counts {p : Place} (h : Sound p) (hne : p.dst ≠ []) (hnot : ¬ Counts p) :
    4 < p.value.length := by
  obtain ⟨dst, offset⟩ := p
  cases offset with
  | none => exact absurd nofun hnot
  | some k =>
      have hk := h.near k rfl
      by_cases hlen : dst.length ≤ 4
      · obtain ⟨m, hm⟩ := h.units
        have hpos := List.length_pos_of_ne_nil hne
        dsimp only at hm hpos
        have hvalue : Place.value ⟨dst, some k⟩ = utf16Hex (codeOf dst + k) := if_pos hlen
        obtain ⟨hnat, hlt⟩ := counted_toNat h hlen
        have hfour : dst.length = 4 := by omega
        have hover : 65536 ≤ ScrubToUnicode.unitOf dst + k.toNat := by
          by_contra hsmall
          refine hnot fun k' hk' => Or.inr ⟨hfour, ?_⟩
          obtain rfl := Option.some.inj hk'
          exact Nat.not_le.mp hsmall
        rw [hvalue, (utf16Hex_text _ (by omega)).2.2.2 (by omega)]
        decide
      · have hvalue : Place.value ⟨dst, some k⟩ = dst := if_neg hlen
        rw [hvalue]
        exact Nat.not_le.mp hlen

theorem value_eq_nil_iff (p : Place) : p.value = [] ↔ p = ⟨[], none⟩ := by
  obtain ⟨dst, offset⟩ := p
  cases offset with
  | none =>
      have hvalue : Place.value ⟨dst, none⟩ = dst := rfl
      rw [hvalue, Place.mk.injEq, and_iff_left rfl]
  | some k =>
      refine iff_of_false (fun h => ?_) nofun
      by_cases hlen : dst.length ≤ 4
      · have hvalue : Place.value ⟨dst, some k⟩ = utf16Hex (codeOf dst + k) := if_pos hlen
        have hlength := length_utf16Hex (codeOf dst + k)
        rw [← hvalue, h] at hlength
        cases hlength
      · have hvalue : Place.value ⟨dst, some k⟩ = dst := if_neg hlen
        rw [hvalue] at h
        exact hlen (by rw [h]; decide)

/-- Nothing is read for a code that is kept. -/
def Unset (p : Place) : Prop := p.value = [] ∨ p.value = lit "0000"

theorem wholeUnits_of_unset {p : Place} (h : Unset p) :
    wholeUnits p.value = [] ∨ wholeUnits p.value = [0] := by
  obtain h | h := h
  · exact Or.inl (by rw [h]; rfl)
  · exact Or.inr (by rw [h]; decide)

section

variable (fill : Nat → Option Code) (count : Nat)

/-- The completion gives a code these units. -/
def Filled (c : Code) (us : List Nat) : Prop :=
  c.toNat < count ∧ ∃ uni, fill c.toNat = some uni ∧ wholeUnits (utf16Hex uni) = us

/-- A code with one last place is counted up as the rules do; if another place is read last, it
says the same, or nothing that is kept, and then the completion says the same. -/
def KeptAt (c : Code) (p p' : Place) : Prop :=
  (p' = p ∧ Counts p) ∨
    (p' ≠ p ∧ (wholeUnits p'.value = ruled p ∨ (Unset p' ∧ Filled fill count c (ruled p))))

/-- Every code keeps its text, and no text is empty. -/
structure Keepable (t : LooseMap) : Prop where
  kept : ∀ c p p', ruledPlace t c = some p → readPlace t c = some p' → ruled p ≠ [] →
    ruled p ≠ [0] → KeptAt fill count c p p'
  full : ∀ c, readPlace t c = some ⟨[], none⟩ → c.toNat < count ∧ (fill c.toNat).isSome

end

/-- Every text of a map but U+0000 is in the stream. -/
def Keeps (t : LooseMap) (stream : Bytes) : Prop :=
  ∀ c us, meaning t c = some us → us ≠ [] → us ≠ [0] →
    ∃ d, mapped stream c = some d ∧ wholeUnits d = us

variable {fill : Nat → Option Code} {count : Nat} {c : Code} {p p' : Place} {m : Writes Bytes}

theorem hasText_iff (h : assign (fun _ => none) m c = some p'.value) :
    hasText m c = false ↔ Unset p' := by
  rw [hasText, h, Unset]
  simp
  tauto

/-- The text of a code behind the completion, by what is read for the code. -/
theorem completed_units_iff (hcount : count ≤ 65536)
    (h : assign (fun _ => none) m c = some p'.value) {us : List Nat} (hne : us ≠ [])
    (hzero : us ≠ [0]) :
    (∃ d, (assign (fun _ => none) (complete fill m count).entries c = some d ∧ d ≠ []) ∧
      wholeUnits d = us) ↔
      wholeUnits p'.value = us ∨ (Unset p' ∧ Filled fill count c us) := by
  have hspec := complete_text fill m (hcount.trans (by decide)) c
  have hunset := hasText_iff h
  have hnil : wholeUnits ([] : Bytes) = [] := rfl
  by_cases hkept : Unset p'
  · -- what is read is not the text, so that only the completion can give it
    have hvalue : wholeUnits p'.value ≠ us := by
      rintro rfl
      exact (wholeUnits_of_unset hkept).elim hne hzero
    rw [or_iff_right hvalue, and_iff_right hkept]
    by_cases hfill : c.toNat < count ∧ ∃ uni, fill c.toNat = some uni
    · obtain ⟨hlt, uni, huni⟩ := hfill
      rw [if_pos ⟨hlt, hunset.mpr hkept⟩, huni, Option.map_some, Option.some_or] at hspec
      constructor
      · rintro ⟨d, ⟨hd, -⟩, hus⟩
        rw [hspec] at hd
        exact ⟨hlt, uni, huni, (Option.some.inj hd).symm ▸ hus⟩
      · rintro ⟨-, uni', huni', hus⟩
        obtain rfl := Option.some.inj (huni.symm.trans huni')
        refine ⟨_, ⟨hspec, fun hempty => hne ?_⟩, hus⟩
        rw [← hus, hempty]
        rfl
    · have hsame : assign (fun _ => none) (complete fill m count).entries c = some p'.value := by
        rw [hspec, h]
        split
        · rename_i hcond
          have hnone : fill c.toNat = none := by
            by_contra hsome
            exact hfill ⟨hcond.1, Option.ne_none_iff_exists'.mp hsome⟩
          rw [hnone]
          rfl
        · rfl
      refine iff_of_false ?_ ?_
      · rintro ⟨d, ⟨hd, -⟩, hus⟩
        rw [hsame] at hd
        exact hvalue ((Option.some.inj hd).symm ▸ hus)
      · rintro ⟨hlt, uni, huni, -⟩
        exact hfill ⟨hlt, uni, huni⟩
  · have hsame : assign (fun _ => none) (complete fill m count).entries c = some p'.value := by
      rw [hspec, if_neg (fun hcond => hkept (hunset.mp hcond.2)), h]
    constructor
    · rintro ⟨d, ⟨hd, -⟩, hus⟩
      rw [hsame] at hd
      exact Or.inl ((Option.some.inj hd).symm ▸ hus)
    · rintro (hus | ⟨hunset', -⟩)
      · exact ⟨_, ⟨hsame, fun hempty => hkept (Or.inl hempty)⟩, hus⟩
      · exact absurd hunset' hkept

/-- Where one place is the last one for both, the completion does not matter. -/
theorem keptAt_iff (hp : Sound p) (hne : ruled p ≠ []) (hzero : ruled p ≠ [0])
    (hdst : p.dst ≠ []) :
    (wholeUnits p'.value = ruled p ∨ (Unset p' ∧ Filled fill count c (ruled p))) ↔
      KeptAt fill count c p p' := by
  rw [KeptAt]
  by_cases hsame : p' = p
  · subst hsame
    have hset : ¬ Unset p' := by
      intro hunset
      by_cases hcounts : Counts p'
      · have hvalue := (value_ruled_iff hp hdst).mpr hcounts
        rw [← hvalue] at hne hzero
        exact (wholeUnits_of_unset hunset).elim hne hzero
      · have hlong := length_of_not_counts hp hdst hcounts
        obtain h | h := hunset
        · rw [h] at hlong
          cases hlong
        · rw [h] at hlong
          exact absurd hlong (by decide)
    simp only [hset, false_and, or_false, true_and, ne_eq, not_true_eq_false]
    exact value_ruled_iff hp hdst
  · simp only [hsame, false_and, false_or, ne_eq, not_false_eq_true, true_and]

end Kura.Engine.CompleteToUnicode
