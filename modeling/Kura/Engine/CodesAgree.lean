import Kura.Engine.CodePieces

/-!
# When two loops cut strings into the same codes

The loops go apart at the last bytes of a string, where no code is left in full:
one takes what there is, the other stops. Both test the ranges by number only,
and the glyphs of a map are kept by number only.
-/

namespace Kura.Engine.CMap

open Base (assign)

/-- A byte of a code, counted from its last one. -/
def codeByte (i : Nat) (c : Code) : Nat := c.toNat / 256 ^ i % 256

/-- Whether every byte of a code lies within the bytes of a range. -/
def CodespaceRange.HoldsBytes (sp : CodespaceRange) (w : Bytes) : Prop :=
  sp.bytes = w.length ∧ ∀ i < 4,
    codeByte i sp.lo ≤ codeByte i (codeValue w) ∧ codeByte i (codeValue w) ≤ codeByte i sp.hi

theorem le_of_codeByte {c d : Code} (h : ∀ i < 4, codeByte i c ≤ codeByte i d) : c ≤ d := by
  have h₀ := h 0 (by decide)
  have h₁ := h 1 (by decide)
  have h₂ := h 2 (by decide)
  have h₃ := h 3 (by decide)
  simp only [codeByte, pow_succ, pow_zero, one_mul, ← Nat.div_div_eq_div_mul, Nat.div_one]
    at h₀ h₁ h₂ h₃
  have hc := c.isLt
  have hd := d.isLt
  rw [BitVec.le_def]
  omega

theorem CodespaceRange.HoldsBytes.holds {sp : CodespaceRange} {w : Bytes} (h : sp.HoldsBytes w) :
    sp.holds w := by
  obtain ⟨hlen, hbytes⟩ := h
  have hlo : sp.lo ≤ codeValue w := le_of_codeByte fun i hi => (hbytes i hi).1
  have hhi : codeValue w ≤ sp.hi := le_of_codeByte fun i hi => (hbytes i hi).2
  simp only [CodespaceRange.holds, hlen, hlo, hhi, decide_true, Bool.and_self]

namespace Codespace

variable (cs : Codespace)

/-- Whether some bytes are a code that lies byte by byte in one of the ranges. -/
def InBytes (w : Bytes) : Prop := ∃ sp ∈ cs.spaces, sp.HoldsBytes w

/-- A code of one of the ranges that begins with no shorter one. -/
def First (w : Bytes) : Prop := cs.InRange w ∧ ∀ u, u <+: w → cs.InRange u → u = w

/-- Bytes that begin with no code of the ranges. -/
def Stray (w : Bytes) : Prop := ∀ u, u <+: w → ¬ cs.InRange u

/-- The bytes that can be cut off a string. -/
def Cut (w : Bytes) : Prop :=
  cs.First w ∨ w ≠ [] ∧ w.length ≤ cs.front.bytes ∧ cs.Stray w

variable {cs}

theorem InBytes.inRange {w : Bytes} (h : cs.InBytes w) : cs.InRange w := by
  obtain ⟨sp, hsp, hbytes⟩ := h
  exact ⟨sp, hsp, hbytes.holds⟩

theorem InRange.length {w : Bytes} (h : cs.InRange w) : 1 ≤ w.length ∧ w.length ≤ 4 := by
  obtain ⟨sp, hsp, hholds⟩ := h
  rw [CodespaceRange.holds, Bool.and_eq_true, Bool.and_eq_true, decide_eq_true_eq] at hholds
  exact hholds.1.1 ▸ cs.sized sp hsp

theorem First.ne_nil {w : Bytes} (h : cs.First w) : w ≠ [] :=
  List.length_pos_iff.mp h.1.length.1

theorem any_holds_iff {w : Bytes} : cs.spaces.any (·.holds w) = true ↔ cs.InRange w :=
  List.any_eq_true

/-- The length matched is the shortest one in a range. -/
theorem matchLen_eq_some_iff {v : Bytes} {nb : Nat} :
    cs.matchLen v = some nb ↔ nb ≤ v.length ∧ cs.First (v.take nb) := by
  have hrange : [1, 2, 3, 4] = List.range' 1 4 := rfl
  rw [matchLen, hrange, List.find?_range'_eq_some]
  simp only [Bool.and_eq_true, decide_eq_true_eq, any_holds_iff, List.mem_range'_1,
    Bool.not_eq_true', Bool.and_eq_false_imp]
  constructor
  · rintro ⟨⟨hle, hin⟩, -, hfirst⟩
    refine ⟨hle, hin, ?_⟩
    intro u hu hinu
    by_contra hne
    have hlt : u.length < nb := by
      have hlen := hu.length_le
      have hne' : u.length ≠ (v.take nb).length := fun h => hne (hu.eq_of_length h)
      rw [List.length_take, min_eq_left hle] at hlen hne'
      omega
    have huv : u = v.take u.length := List.prefix_iff_eq_take.mp (hu.trans (List.take_prefix _ _))
    have hnone := hfirst u.length hinu.length.1 hlt (hlt.le.trans hle)
    rw [← huv, ← Bool.not_eq_true, any_holds_iff] at hnone
    exact hnone hinu
  · rintro ⟨hle, hin, hfirst⟩
    have hlen : (v.take nb).length = nb := by rw [List.length_take, min_eq_left hle]
    have hbounds := hin.length
    rw [hlen] at hbounds
    refine ⟨⟨hle, hin⟩, ⟨hbounds.1, by omega⟩, ?_⟩
    intro m _ hm hmv
    rw [← Bool.not_eq_true, any_holds_iff]
    intro hinm
    have heq := hfirst (v.take m) (List.take_prefix_take_left hm.le) hinm
    have hmlen := congrArg List.length heq
    rw [List.length_take, List.length_take, min_eq_left hle, min_eq_left hmv] at hmlen
    omega

theorem matchLen_eq_none_iff {v : Bytes} : cs.matchLen v = none ↔ cs.Stray v := by
  have hrange : [1, 2, 3, 4] = List.range' 1 4 := rfl
  rw [matchLen, List.find?_eq_none, hrange]
  simp only [Bool.and_eq_true, decide_eq_true_eq, any_holds_iff, List.mem_range'_1, not_and]
  constructor
  · intro h u hu hin
    have hbounds := hin.length
    refine h u.length ⟨hbounds.1, by omega⟩ hu.length_le ?_
    rwa [← List.prefix_iff_eq_take.mp hu]
  · intro h nb _ _ hin
    exact h _ (List.take_prefix _ _) hin

/-- What is cut off at a place, in its bytes. -/
theorem cleanPiece_take {v : Bytes} (h : v ≠ []) :
    cs.Cut (v.take (cs.cleanPiece v).len) ∧
      cs.cleanPiece v = ⟨(v.take (cs.cleanPiece v).len).length,
        codeValue (v.take (cs.cleanPiece v).len)⟩ := by
  have hlen := List.length_pos_iff.mpr h
  cases hmatch : cs.matchLen v with
  | some nb =>
      obtain ⟨hle, hfirst⟩ := matchLen_eq_some_iff.mp hmatch
      have hpiece : cs.cleanPiece v = ⟨nb, codeValue (v.take nb)⟩ := by
        rw [cleanPiece, hmatch]
      rw [hpiece]
      refine ⟨Or.inl hfirst, ?_⟩
      rw [List.length_take, min_eq_left hle]
  | none =>
      have hstray := matchLen_eq_none_iff.mp hmatch
      have htake : v.take (min cs.front.bytes v.length) = v.take cs.front.bytes := by
        rw [← List.take_eq_take_min]
      have hpiece :
          cs.cleanPiece v = ⟨min cs.front.bytes v.length, codeValue (v.take cs.front.bytes)⟩ := by
        rw [cleanPiece, hmatch]
      rw [hpiece, htake]
      refine ⟨Or.inr ⟨?_, List.length_take_le _ _, ?_⟩, ?_⟩
      · have hpos := cs.front_sized.1
        rw [← List.length_pos_iff, List.length_take]
        exact lt_min hpos hlen
      · exact fun u hu => hstray u (hu.trans (List.take_prefix _ _))
      · rw [List.length_take]

/-- Bytes that can be cut off are cut off where they stand alone. -/
theorem cleanPiece_of_cut {w : Bytes} (h : cs.Cut w) :
    w ≠ [] ∧ cs.cleanPiece w = ⟨w.length, codeValue w⟩ := by
  obtain hfirst | ⟨hne, hle, hstray⟩ := h
  · refine ⟨hfirst.ne_nil, ?_⟩
    have hmatch : cs.matchLen w = some w.length :=
      matchLen_eq_some_iff.mpr ⟨le_rfl, by rwa [List.take_length]⟩
    rw [cleanPiece, hmatch]
    simp only [List.take_length]
  · refine ⟨hne, ?_⟩
    rw [cleanPiece, matchLen_eq_none_iff.mpr hstray]
    simp only [min_eq_right hle, List.take_of_length_le hle]

theorem cuts_cons {v : Bytes} (h : v ≠ []) :
    cs.cuts v = v :: cs.cuts (v.drop (cs.cleanPiece v).len) := by
  rw [cuts, dif_neg h]

theorem mem_cuts_self {v : Bytes} (h : v ≠ []) : v ∈ cs.cuts v := by
  rw [cuts_cons h]
  exact List.mem_cons_self

theorem ne_nil_of_mem_cuts {v place : Bytes} (h : place ∈ cs.cuts v) : place ≠ [] := by
  fun_induction cs.cuts v with
  | case1 => exact absurd h List.not_mem_nil
  | case2 v hv ih =>
      obtain rfl | h := List.mem_cons.mp h
      · exact hv
      · exact ih h

/-- Whether no string ends inside of a code. -/
def TailsRead (cs : Codespace) : Prop := cs.front.bytes = 1 ∨ ∀ b : UInt8, cs.InRange [b]

theorem TailsRead.useLen_le (h : cs.TailsRead) {v : Bytes} (hv : v ≠ []) :
    cs.useLen v ≤ v.length := by
  have hlen := List.length_pos_iff.mpr hv
  rw [useLen]
  cases hmatch : cs.matchLen v with
  | some nb => exact (matchLen_eq_some_iff.mp hmatch).1
  | none =>
      obtain hfront | hall := h
      · rw [Option.getD_none, hfront]
        exact hlen
      · obtain ⟨b, rest, rfl⟩ := List.exists_cons_of_ne_nil hv
        exact absurd (hall b) (matchLen_eq_none_iff.mp hmatch [b] ⟨rest, rfl⟩)

theorem cleanPiece_of_useLen_le {v : Bytes} (h : cs.useLen v ≤ v.length) :
    cs.cleanPiece v = ⟨cs.useLen v, codeValue (v.take (cs.useLen v))⟩ := by
  rw [useLen] at h ⊢
  rw [cleanPiece]
  cases hmatch : cs.matchLen v with
  | some nb => rfl
  | none =>
      rw [hmatch, Option.getD_none] at h
      simp only [min_eq_left h, Option.getD_none]

theorem TailsRead.usePieces_eq (h : cs.TailsRead) (v : Bytes) :
    cs.usePieces v = (cs.cleanPieces v, false) := by
  fun_induction cs.usePieces v with
  | case1 => rw [cleanPieces, cuts, dif_pos rfl, List.map_nil]
  | case2 v hv hshort => exact absurd (h.useLen_le hv) (not_le.mpr hshort)
  | case3 v hv hlong rest ih =>
      have hpiece := cleanPiece_of_useLen_le (not_lt.mp hlong)
      rw [cleanPieces, cuts_cons hv, List.map_cons, hpiece]
      change (_ :: rest.1, rest.2) = (_ :: cs.cleanPieces _, false)
      rw [show rest = _ from ih]

/-- A last byte in no range of its own is no piece. -/
theorem usePieces_single {b : UInt8} (hfront : cs.front.bytes ≠ 1) (h : ¬ cs.InRange [b]) :
    (cs.usePieces [b]).1 = [] := by
  have hstray : cs.Stray [b] := by
    intro u hu hin
    obtain rfl | rfl : u = [] ∨ u = [b] := by
      cases u with
      | nil => exact Or.inl rfl
      | cons c rest =>
          have hlen := hu.length_le
          rw [List.length_cons, List.length_singleton] at hlen
          exact Or.inr (hu.eq_of_length (by rw [List.length_cons, List.length_singleton]; omega))
    · exact absurd hin.length.1 (by decide)
    · exact h hin
  have huse : cs.useLen [b] = cs.front.bytes := by
    rw [useLen, matchLen_eq_none_iff.mpr hstray, Option.getD_none]
  have hpos := cs.front_sized.1
  rw [usePieces, dif_neg (List.cons_ne_nil _ _), if_pos]
  rw [huse, List.length_singleton]
  omega

theorem same_iff : (∀ v, cs.cleanPieces v = (cs.usePieces v).1) ↔ cs.TailsRead := by
  constructor
  · intro h
    by_contra hnot
    rw [TailsRead, not_or, not_forall] at hnot
    obtain ⟨hfront, b, hb⟩ := hnot
    have hsame := h [b]
    rw [usePieces_single hfront hb, cleanPieces, cuts_cons (List.cons_ne_nil _ _)] at hsame
    cases hsame
  · intro h v
    rw [h.usePieces_eq v]

/-- Whether no code that is in a range by its number only begins one that lies byte by byte
in a longer range. -/
def BytesKept (cs : Codespace) : Prop :=
  ∀ v w, v <+: w → cs.First v → cs.InBytes w → cs.InBytes v

theorem InBytes.exists_first {w : Bytes} (h : cs.InRange w) : ∃ v, v <+: w ∧ cs.First v := by
  cases hmatch : cs.matchLen w with
  | some nb => exact ⟨_, List.take_prefix _ _, (matchLen_eq_some_iff.mp hmatch).2⟩
  | none => exact absurd h (matchLen_eq_none_iff.mp hmatch w List.prefix_rfl)

theorem First.cleanPiece_take {v w : Bytes} (h : cs.First v) (hstart : v <+: w) :
    w.take (cs.cleanPiece w).len = v := by
  have hv := List.prefix_iff_eq_take.mp hstart
  have hmatch : cs.matchLen w = some v.length :=
    matchLen_eq_some_iff.mpr ⟨hstart.length_le, by rwa [← hv]⟩
  rw [cleanPiece, hmatch]
  exact hv.symm

theorem whole_iff :
    (∀ v, ∀ place ∈ cs.cuts v, (∃ w, w <+: place ∧ cs.InBytes w) →
      cs.InBytes (place.take (cs.cleanPiece place).len)) ↔ cs.BytesKept := by
  constructor
  · intro h v w hstart hfirst hbytes
    have hw : w ≠ [] := List.length_pos_iff.mp hbytes.inRange.length.1
    have hpiece := h w w (mem_cuts_self hw) ⟨w, List.prefix_rfl, hbytes⟩
    rwa [hfirst.cleanPiece_take hstart] at hpiece
  · rintro h v place - ⟨w, hstart, hbytes⟩
    obtain ⟨u, hu, hfirst⟩ := InBytes.exists_first hbytes.inRange
    rw [hfirst.cleanPiece_take (hu.trans hstart)]
    exact h u w hu hfirst hbytes

end Codespace

/-- The ranges of a section of glyph codes, each with the bytes of its codes. -/
def sizedRanges (stop : Nat) (s : Bytes) : List (Nat × CidEntry) :=
  if stop < s.length then
    match _hlo : hexAt s with
    | none => []
    | some lo =>
        if lo.rest.length < stop then []
        else
          match _hhi : hexAt lo.rest with
          | none => []
          | some hi =>
              if hi.rest.length < stop then []
              else
                let digits := digitsAt stop (skipWhile isSpace stop hi.rest)
                if digits.1 = [] then []
                else
                  (max lo.nbytes hi.nbytes, .range lo.val hi.val (atoi digits.1)) ::
                    sizedRanges stop digits.2
  else []
  termination_by s.length
  decreasing_by
    have hskip := skipWhile_length isSpace stop hi.rest
    have hdigits := skipWhile_length isDigit stop (skipWhile isSpace stop hi.rest)
    exact (hdigits.trans hskip).trans_lt ((hexAt_length _hhi).trans (hexAt_length _hlo))

/-- The codes of a section of glyph codes, each with its bytes. -/
def sizedChars (stop : Nat) (s : Bytes) : List (Nat × CidEntry) :=
  if stop < s.length then
    match _hcode : hexAt s with
    | none => []
    | some code =>
        if code.rest.length < stop then []
        else
          let digits := digitsAt stop (skipWhile isSpace stop code.rest)
          if digits.1 = [] then []
          else (code.nbytes, .char code.val (atoi digits.1)) :: sizedChars stop digits.2
  else []
  termination_by s.length
  decreasing_by
    have hskip := skipWhile_length isSpace stop code.rest
    have hdigits := skipWhile_length isDigit stop (skipWhile isSpace stop code.rest)
    exact (hdigits.trans hskip).trans_lt (hexAt_length _hcode)

/-- The ranges and codes of a text, each with the bytes of its codes. -/
def sizedEntries (text : Bytes) : List (Nat × CidEntry) :=
  (sections (lit "begincidrange") (lit "endcidrange") 0 (Nat.succPNat 0) text).flatMap
      (fun sec => sizedRanges sec.2 sec.1) ++
    (sections (lit "begincidchar") (lit "endcidchar") 0 (Nat.succPNat 0) text).flatMap
      (fun sec => sizedChars sec.2 sec.1)

theorem sizedRanges_map (stop : Nat) (s : Bytes) :
    (sizedRanges stop s).map Prod.snd = cidRanges stop s := by
  fun_induction sizedRanges stop s with
  | case1 | case2 | case3 | case4 | case5 | case6 | case7 => rw [cidRanges]; grind

theorem sizedChars_map (stop : Nat) (s : Bytes) :
    (sizedChars stop s).map Prod.snd = cidChars stop s := by
  fun_induction sizedChars stop s with
  | case1 | case2 | case3 | case4 | case5 => rw [cidChars]; grind

/-- The entries are those that are read without their bytes. -/
theorem sizedEntries_map (text : Bytes) : (sizedEntries text).map Prod.snd = cidEntries text := by
  rw [sizedEntries, cidEntries, List.map_append, List.map_flatMap, List.map_flatMap]
  simp only [sizedRanges_map, sizedChars_map]
  rfl

/-- The glyph that a text gives to a code of some bytes. -/
def glyphOf (text : Bytes) (p : Piece) : Option (BitVec 32) :=
  assign (fun _ => none)
    (((sizedEntries text).filter (·.1 = p.len)).flatMap (·.2.writes)) p.code

/-- `badCodes`: the codes that have one of the bad glyphs. -/
def CmapBody.badCodes (body : CmapBody) (bad : List (BitVec 32)) : List Code :=
  (body.code2cid.map Prod.fst).filter fun c => (body.cidOf c).any bad.contains

theorem CmapBody.mem_badCodes {body : CmapBody} {bad : List (BitVec 32)} {c : Code} :
    c ∈ body.badCodes bad ↔ ∃ cid ∈ bad, body.cidOf c = some cid := by
  rw [badCodes, List.mem_filter, Option.any_eq_true]
  constructor
  · rintro ⟨-, cid, hcid, hmem⟩
    exact ⟨cid, List.contains_iff_mem.mp hmem, hcid⟩
  · rintro ⟨cid, hmem, hcid⟩
    refine ⟨?_, cid, hcid, List.contains_iff_mem.mpr hmem⟩
    by_contra hnot
    have hnone : body.cidOf c = none := by
      refine Base.assign_of_forall_ne ?_
      rintro kv hkv rfl
      exact hnot (List.mem_map_of_mem hkv)
    cases hnone.symm.trans hcid

/-- Whether a code that can be cut off has the glyph that is given to codes of its length. -/
def LengthsTold (text : Bytes) (body : CmapBody) (cs : Codespace) : Prop :=
  ∀ w, cs.Cut w → body.cidOf (codeValue w) = glyphOf text ⟨w.length, codeValue w⟩

/-- Bad codes are told from good ones in every string exactly when lengths are told. -/
theorem told_iff {text : Bytes} {body : CmapBody} {cs : Codespace} :
    (∀ bad v, ∀ p ∈ cs.cleanPieces v,
        (p.code ∈ body.badCodes bad ↔ ∃ cid ∈ bad, glyphOf text p = some cid)) ↔
      LengthsTold text body cs := by
  simp only [CmapBody.mem_badCodes]
  constructor
  · intro h w hcut
    obtain ⟨hne, hpiece⟩ := Codespace.cleanPiece_of_cut hcut
    have hmem : (⟨w.length, codeValue w⟩ : Piece) ∈ cs.cleanPieces w := by
      rw [← hpiece]
      exact List.mem_map_of_mem (Codespace.mem_cuts_self hne)
    refine Option.ext fun cid => ?_
    have hcid := h [cid] w _ hmem
    simpa only [List.mem_singleton, exists_eq_left] using hcid
  · intro h bad v p hp
    obtain ⟨place, hplace, rfl⟩ := List.mem_map.mp hp
    obtain ⟨hcut, hpiece⟩ := Codespace.cleanPiece_take (Codespace.ne_nil_of_mem_cuts hplace)
    rw [hpiece, h _ hcut]

/-- Both loops cut strings into the same codes, each of them lies byte by byte in a range
if a code at its place does, and the glyph of a code is told by its length too. -/
structure SplitsAgree (text : Bytes) (body : CmapBody) (cs : Codespace) : Prop where
  same : ∀ v, cs.cleanPieces v = (cs.usePieces v).1
  whole : ∀ v, ∀ place ∈ cs.cuts v, (∃ w, w <+: place ∧ cs.InBytes w) →
    cs.InBytes (place.take (cs.cleanPiece place).len)
  told : ∀ bad v, ∀ p ∈ cs.cleanPieces v,
    (p.code ∈ body.badCodes bad ↔ ∃ cid ∈ bad, glyphOf text p = some cid)

/-- The loops agree if no string ends inside of a code, no code is in a range by its number only
that begins a longer one, and no code has the glyph of one of another length. -/
theorem splitsAgree_iff {rounds : Nat} {text : Bytes} {body : CmapBody}
    (h : parseCmapBody rounds text = some body) (hok : body.ok) :
    SplitsAgree text body (codespaceOf h hok) ↔
      (codespaceOf h hok).TailsRead ∧ (codespaceOf h hok).BytesKept ∧
        LengthsTold text body (codespaceOf h hok) := by
  rw [← Codespace.same_iff, ← Codespace.whole_iff, ← told_iff]
  constructor
  · intro hagree
    exact ⟨hagree.same, hagree.whole, hagree.told⟩
  · rintro ⟨hsame, hwhole, htold⟩
    exact ⟨hsame, hwhole, htold⟩

theorem sections_none {first last s : Bytes} {lead : Nat} {skip : ℕ+}
    (h : findText first s = none) : sections first last lead skip s = [] := by
  rw [sections]
  grind

theorem sections_single {first last s t u : Bytes} {lead : Nat} {skip : ℕ+}
    (hfirst : findText first s = some t) (hlast : findText last (t.drop lead) = some u)
    (hend : findText first (u.drop skip) = none) :
    sections first last lead skip s = [(t.drop first.length, u.length)] := by
  have hnone : sections first last lead skip (u.drop skip) = [] := sections_none hend
  rw [sections]
  grind

theorem codespaceRanges_single {stop : Nat} {s : Bytes} {a b : Hex} (hstop : stop < s.length)
    (hlo : hexAt s = some a) (hbehindLo : ¬ a.rest.length < stop)
    (hhi : hexAt a.rest = some b) (hbehindHi : ¬ b.rest.length < stop)
    (hend : hexAt b.rest = none) :
    codespaceRanges stop s = [⟨max a.nbytes b.nbytes, a.val, b.val⟩] := by
  have hnone : codespaceRanges stop b.rest = [] := by
    rw [codespaceRanges]
    grind
  rw [codespaceRanges]
  grind

theorem sizedChars_single {stop : Nat} {s : Bytes} {c : Hex} {d r : Bytes}
    (hstop : stop < s.length) (hcode : hexAt s = some c) (hbehind : ¬ c.rest.length < stop)
    (hdigits : digitsAt stop (skipWhile isSpace stop c.rest) = (d, r))
    (hsome : d ≠ []) (hend : hexAt r = none) :
    sizedChars stop s = [(c.nbytes, .char c.val (atoi d))] := by
  have hnone : sizedChars stop r = [] := by
    rw [sizedChars]
    grind
  rw [sizedChars]
  grind

/-- What is read from a text with one range and one code. -/
theorem parseCmapBody_single {text : Bytes} {sec : Bytes × Nat} {sp : CodespaceRange} {nb : Nat}
    {code : Code} {cid : BitVec 32}
    (hsec : sections (lit "begincodespacerange") (lit "endcodespacerange") 0 1 text = [sec])
    (hsp : codespaceRanges sec.2 sec.1 = [sp])
    (hentries : sizedEntries text = [(nb, .char code cid)]) (rounds : Nat) :
    parseCmapBody rounds text = some ⟨[sp], [(code, cid)], true⟩ := by
  have hcid : cidEntries text = [.char code cid] := by
    rw [← sizedEntries_map, hentries]
    rfl
  rw [parseCmapBody, hsec, hcid, List.flatMap_singleton, hsp]
  rfl

/-- The map of the codes of two bytes. -/
def pairText : Bytes :=
  lit "begincodespacerange <0000> <FFFF> endcodespacerange begincidchar <0041> 5 endcidchar"

theorem sizedEntries_pairText : sizedEntries pairText = [(2, .char 0x41 5)] := by
  have hranges :
      sections (lit "begincidrange") (lit "endcidrange") 0 (Nat.succPNat 0) pairText = [] :=
    sections_none (by decide)
  have hchars : sections (lit "begincidchar") (lit "endcidchar") 0 (Nat.succPNat 0) pairText =
      [(lit " <0041> 5 endcidchar", 10)] :=
    sections_single (t := lit "begincidchar <0041> 5 endcidchar") (u := lit "endcidchar")
      (by decide) (by decide) (by decide)
  have hchar : sizedChars 10 (lit " <0041> 5 endcidchar") = [(2, .char 0x41 5)] :=
    sizedChars_single (c := ⟨0x41, 2, lit " 5 endcidchar"⟩) (d := lit "5")
      (r := lit " endcidchar") (by decide) (by decide) (by decide) (by decide) (by decide)
      (by decide)
  rw [sizedEntries, hranges, hchars, List.flatMap_nil, List.nil_append, List.flatMap_singleton]
  exact hchar

/-- What is read from it. -/
def pairBody : CmapBody := ⟨[⟨2, 0, 0xFFFF⟩], [(0x41, 5)], true⟩

theorem parse_pairText (rounds : Nat) : parseCmapBody rounds pairText = some pairBody := by
  have hsec : sections (lit "begincodespacerange") (lit "endcodespacerange") 0 1 pairText =
      [(lit " <0000> <FFFF> endcodespacerange begincidchar <0041> 5 endcidchar", 50)] :=
    sections_single (t := pairText)
      (u := lit "endcodespacerange begincidchar <0041> 5 endcidchar") (by decide) (by decide)
      (by decide)
  refine parseCmapBody_single hsec ?_ sizedEntries_pairText rounds
  exact codespaceRanges_single
    (a := ⟨0, 2, lit " <FFFF> endcodespacerange begincidchar <0041> 5 endcidchar"⟩)
    (b := ⟨0xFFFF, 2, lit " endcodespacerange begincidchar <0041> 5 endcidchar"⟩)
    (by decide) (by decide) (by decide) (by decide) (by decide) (by decide)

/-- A single byte is a code to the filter and none to the collector. -/
theorem pairText_disagree :
    ¬ SplitsAgree pairText pairBody (codespaceOf (parse_pairText 0) rfl) := by
  intro h
  have hsame := h.same [1]
  have hnone : ((codespaceOf (parse_pairText 0) rfl).usePieces [1]).1 = [] := by
    refine Codespace.usePieces_single (by decide) ?_
    rintro ⟨sp, hsp, hholds⟩
    cases List.mem_singleton.mp hsp
    exact absurd hholds (by decide)
  rw [hnone, Codespace.cleanPieces, Codespace.cuts_cons (List.cons_ne_nil _ _)] at hsame
  cases hsame

/-- The map of the codes of one byte. -/
def byteText : Bytes :=
  lit "begincodespacerange <00> <FF> endcodespacerange begincidchar <41> 5 endcidchar"

theorem sizedEntries_byteText : sizedEntries byteText = [(1, .char 0x41 5)] := by
  have hranges :
      sections (lit "begincidrange") (lit "endcidrange") 0 (Nat.succPNat 0) byteText = [] :=
    sections_none (by decide)
  have hchars : sections (lit "begincidchar") (lit "endcidchar") 0 (Nat.succPNat 0) byteText =
      [(lit " <41> 5 endcidchar", 10)] :=
    sections_single (t := lit "begincidchar <41> 5 endcidchar") (u := lit "endcidchar")
      (by decide) (by decide) (by decide)
  have hchar : sizedChars 10 (lit " <41> 5 endcidchar") = [(1, .char 0x41 5)] :=
    sizedChars_single (c := ⟨0x41, 1, lit " 5 endcidchar"⟩) (d := lit "5")
      (r := lit " endcidchar") (by decide) (by decide) (by decide) (by decide) (by decide)
      (by decide)
  rw [sizedEntries, hranges, hchars, List.flatMap_nil, List.nil_append, List.flatMap_singleton]
  exact hchar

/-- What is read from it. -/
def byteBody : CmapBody := ⟨[⟨1, 0, 0xFF⟩], [(0x41, 5)], true⟩

theorem parse_byteText (rounds : Nat) : parseCmapBody rounds byteText = some byteBody := by
  have hsec : sections (lit "begincodespacerange") (lit "endcodespacerange") 0 1 byteText =
      [(lit " <00> <FF> endcodespacerange begincidchar <41> 5 endcidchar", 48)] :=
    sections_single (t := byteText)
      (u := lit "endcodespacerange begincidchar <41> 5 endcidchar") (by decide) (by decide)
      (by decide)
  refine parseCmapBody_single hsec ?_ sizedEntries_byteText rounds
  exact codespaceRanges_single
    (a := ⟨0, 1, lit " <FF> endcodespacerange begincidchar <41> 5 endcidchar"⟩)
    (b := ⟨0xFF, 1, lit " endcodespacerange begincidchar <41> 5 endcidchar"⟩)
    (by decide) (by decide) (by decide) (by decide) (by decide) (by decide)

/-- Codes of one byte are cut, and told apart, alike. -/
theorem byteText_agree : SplitsAgree byteText byteBody (codespaceOf (parse_byteText 0) rfl) := by
  have hfront : (codespaceOf (parse_byteText 0) rfl).front.bytes = 1 := rfl
  have hlen : ∀ {w}, (codespaceOf (parse_byteText 0) rfl).InRange w → w.length = 1 := by
    rintro w ⟨sp, hsp, hholds⟩
    cases List.mem_singleton.mp hsp
    rw [CodespaceRange.holds, Bool.and_eq_true, Bool.and_eq_true, decide_eq_true_eq] at hholds
    exact hholds.1.1.symm
  refine (splitsAgree_iff (parse_byteText 0) rfl).mpr ⟨Or.inl hfront, ?_, ?_⟩
  · intro v w hstart hfirst hbytes
    have hvw : v = w :=
      hstart.eq_of_length ((hlen hfirst.1).trans (hlen hbytes.inRange).symm)
    exact hvw ▸ hbytes
  · intro w hcut
    have hw : w.length = 1 := by
      obtain hfirst | ⟨hne, hle, -⟩ := hcut
      · exact hlen hfirst.1
      · exact le_antisymm (hfront ▸ hle) (List.length_pos_iff.mpr hne)
    rw [glyphOf, sizedEntries_byteText, hw]
    rfl

end Kura.Engine.CMap
