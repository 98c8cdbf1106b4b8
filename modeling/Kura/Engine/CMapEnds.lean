import Kura.Engine.CMap

/-!
# When the readers of character maps end

The loops over ranges of codes count up to the last code of a range, so a range
that ends at the last of all codes is never left behind. Every other range of a
text is, and then each of its codes has the glyph that the range gives it.
-/

namespace Kura.Engine.CMap

open Base (assign codesUpTo)

/-- More rounds than there are codes. -/
def allRounds : Nat := 2 ^ 32 + 1

theorem countLoop_allRounds {σ : Type} (body : Code → σ → σ) {lo hi : Code}
    (hlast : hi ≠ BitVec.allOnes 32) (s : σ) :
    Base.countLoop body hi allRounds lo s =
      some ((codesUpTo lo hi).foldl (fun s c => body c s) s) := by
  refine Base.countLoop_eq body hlast ?_ s
  have hlt := hi.isLt
  change _ < 2 ^ 32 + 1
  omega

def CidEntry.loopEnd : CidEntry → Option Code
  | .range lo hi _ => if badRange lo hi then none else some hi
  | .char _ _ => none

def BfEntry.loopEnd : BfEntry → Option Code
  | .range _ hi _ _ => some hi
  | .char _ => none

def TextEntry.loopEnd : TextEntry → Option Code
  | .range _ hi _ => some hi
  | .char _ _ => none

/-- Whether an entry says something about a code. -/
def CidEntry.covers (c : Code) : CidEntry → Bool
  | .range lo hi _ => !badRange lo hi && (lo ≤ c && c ≤ hi)
  | .char code _ => code == c

/-- What an entry assigns. -/
def CidEntry.writes : CidEntry → Writes (BitVec 32)
  | .range lo hi cid =>
      if badRange lo hi then [] else (codesUpTo lo hi).map fun c => (c, cid + (c - lo))
  | .char code cid => [(code, cid)]

theorem CidEntry.run_eq {e : CidEntry} (h : e.loopEnd ≠ some (BitVec.allOnes 32))
    (m : Writes (BitVec 32)) : e.run allRounds m = some (m ++ e.writes) := by
  cases e with
  | char code cid => rfl
  | range lo hi cid =>
      rw [CidEntry.loopEnd] at h
      rw [CidEntry.run, CidEntry.writes]
      split
      · rw [List.append_nil]
      · rename_i hgood
        rw [if_neg hgood] at h
        have hlast : hi ≠ BitVec.allOnes 32 := fun heq => h (congrArg some heq)
        rw [countLoop_allRounds _ hlast, List.map_eq_flatMap, List.flatMap_def]
        exact congrArg some List.foldl_append_eq_append

theorem CidEntry.run_eq_none {e : CidEntry} (h : e.loopEnd = some (BitVec.allOnes 32))
    (rounds : Nat) (m : Writes (BitVec 32)) : e.run rounds m = none := by
  cases e with
  | char code cid => cases h
  | range lo hi cid =>
      rw [CidEntry.loopEnd] at h
      rw [CidEntry.run]
      split at h
      · cases h
      · rename_i hgood
        rw [if_neg hgood, Option.some.inj h]
        exact Base.countLoop_allOnes _ _ _ _

/-- What is assigned to a code by a range. -/
theorem CidEntry.mem_writes_range {lo hi cid : BitVec 32} {kv : Code × BitVec 32} :
    kv ∈ (CidEntry.range lo hi cid).writes ↔
      (CidEntry.range lo hi cid).covers kv.1 ∧ kv.2 = cid + (kv.1 - lo) := by
  obtain ⟨k, v⟩ := kv
  rw [CidEntry.writes, CidEntry.covers]
  split
  · rename_i hbad
    simp only [hbad, Bool.not_true, Bool.false_and, List.not_mem_nil, false_and,
      Bool.false_eq_true]
  · rename_i hgood
    simp only [hgood, Bool.not_false, Bool.true_and, Bool.and_eq_true, decide_eq_true_eq,
      List.mem_map, Base.mem_codesUpTo, Prod.mk.injEq]
    constructor
    · rintro ⟨c, hc, rfl, rfl⟩
      exact ⟨hc, rfl⟩
    · rintro ⟨hc, rfl⟩
      exact ⟨k, hc, rfl, rfl⟩

/-- An entry leaves the codes alone that it says nothing about. -/
theorem CidEntry.writes_covers {e : CidEntry} {kv : Code × BitVec 32} (h : kv ∈ e.writes) :
    e.covers kv.1 := by
  cases e with
  | range lo hi cid => exact (CidEntry.mem_writes_range.mp h).1
  | char code cid =>
      cases List.mem_singleton.mp h
      exact beq_self_eq_true code

theorem BfEntry.run_isSome {e : BfEntry} (h : e.loopEnd ≠ some (BitVec.allOnes 32)) :
    ∃ f : List Code → List Code, ∀ mapped, e.run allRounds mapped = some (f mapped) := by
  cases e with
  | char code => exact ⟨_, fun mapped => rfl⟩
  | range lo hi dst digits =>
      have hlast : hi ≠ BitVec.allOnes 32 := fun heq => h (congrArg some heq)
      exact ⟨_, fun mapped => countLoop_allRounds _ hlast mapped⟩

theorem BfEntry.run_eq_none {e : BfEntry} (h : e.loopEnd = some (BitVec.allOnes 32))
    (rounds : Nat) (mapped : List Code) : e.run rounds mapped = none := by
  cases e with
  | char code => cases h
  | range lo hi dst digits =>
      rw [BfEntry.run, Option.some.inj h]
      exact Base.countLoop_allOnes _ _ _ _

theorem TextEntry.run_isSome {e : TextEntry} (h : e.loopEnd ≠ some (BitVec.allOnes 32)) :
    ∃ f : Writes Bytes → Writes Bytes, ∀ m, e.run allRounds m = some (f m) := by
  cases e with
  | char code dst => exact ⟨_, fun m => rfl⟩
  | range lo hi dst =>
      have hlast : hi ≠ BitVec.allOnes 32 := fun heq => h (congrArg some heq)
      exact ⟨_, fun m => countLoop_allRounds _ hlast m⟩

theorem TextEntry.run_eq_none {e : TextEntry} (h : e.loopEnd = some (BitVec.allOnes 32))
    (rounds : Nat) (m : Writes Bytes) : e.run rounds m = none := by
  cases e with
  | char code dst => cases h
  | range lo hi dst =>
      rw [TextEntry.run, Option.some.inj h]
      exact Base.countLoop_allOnes _ _ _ _

/-- No loop of the three readers runs up to the last code. -/
structure LeavesLastCode (text : Bytes) : Prop where
  cid : ∀ e ∈ cidEntries text, e.loopEnd ≠ some (BitVec.allOnes 32)
  bf : ∀ e ∈ bfEntries text, e.loopEnd ≠ some (BitVec.allOnes 32)
  text : ∀ e ∈ textEntries text, e.loopEnd ≠ some (BitVec.allOnes 32)

/-- The assignments of a body of a character map, one entry after the other. -/
theorem foldlM_run {es : List CidEntry} (h : ∀ e ∈ es, e.loopEnd ≠ some (BitVec.allOnes 32)) :
    es.foldlM (CidEntry.run allRounds) [] = some (es.flatMap CidEntry.writes) := by
  rw [Base.foldlM_eq_foldl fun e he m => CidEntry.run_eq (h e he) m]
  exact congrArg some List.flatMap_eq_foldl.symm

theorem parseCmapBody_eq {text : Bytes}
    (h : ∀ e ∈ cidEntries text, e.loopEnd ≠ some (BitVec.allOnes 32)) :
    ∃ body, parseCmapBody allRounds text = some body ∧
      body.code2cid = (cidEntries text).flatMap CidEntry.writes := by
  rw [parseCmapBody, foldlM_run h]
  exact ⟨_, rfl, rfl⟩

theorem parseCmapBody_eq_none {text : Bytes} {e : CidEntry} (he : e ∈ cidEntries text)
    (hlast : e.loopEnd = some (BitVec.allOnes 32)) (rounds : Nat) :
    parseCmapBody rounds text = none := by
  rw [parseCmapBody, Base.foldlM_eq_none he (CidEntry.run_eq_none hlast rounds)]
  rfl

theorem parseToUnicodeCodes_isSome_iff (text : Bytes) :
    (∃ rounds, (parseToUnicodeCodes rounds text).isSome) ↔
      ∀ e ∈ bfEntries text, e.loopEnd ≠ some (BitVec.allOnes 32) := by
  constructor
  · rintro ⟨rounds, hsome⟩ e he hlast
    rw [parseToUnicodeCodes, Base.foldlM_eq_none he (BfEntry.run_eq_none hlast rounds)] at hsome
    cases hsome
  · intro h
    exact ⟨allRounds, Base.foldlM_isSome (fun e he => BfEntry.run_isSome (h e he)) []⟩

theorem parseExistingToUnicode_isSome_iff (text : Bytes) :
    (∃ rounds, (parseExistingToUnicode rounds text).isSome) ↔
      ∀ e ∈ textEntries text, e.loopEnd ≠ some (BitVec.allOnes 32) := by
  constructor
  · rintro ⟨rounds, hsome⟩ e he hlast
    rw [parseExistingToUnicode,
      Base.foldlM_eq_none he (TextEntry.run_eq_none hlast rounds)] at hsome
    cases hsome
  · intro h
    exact ⟨allRounds, Base.foldlM_isSome (fun e he => TextEntry.run_isSome (h e he)) []⟩

/-- The glyph of a code. -/
def CmapBody.cidOf (body : CmapBody) (c : Code) : Option (BitVec 32) :=
  assign (fun _ => none) body.code2cid c

/-- Every range of a body gives its codes their glyphs, as long as no later entry gives another. -/
def CmapBody.Follows (body : CmapBody) (es : List CidEntry) : Prop :=
  ∀ before lo hi cid later c, es = before ++ .range lo hi cid :: later →
    (CidEntry.range lo hi cid).covers c → (∀ e ∈ later, ¬ e.covers c) →
    body.cidOf c = some (cid + (c - lo))

theorem follows_of_code2cid {body : CmapBody} {es : List CidEntry}
    (h : body.code2cid = es.flatMap CidEntry.writes) : body.Follows es := by
  rintro before lo hi cid later c rfl hcovers hlater
  rw [CmapBody.cidOf, h, List.flatMap_append, List.flatMap_cons, Base.assign_append,
    Base.assign_append, Base.assign_of_forall_ne]
  · have hmem : (c, cid + (c - lo)) ∈ (CidEntry.range lo hi cid).writes :=
      CidEntry.mem_writes_range.mpr ⟨hcovers, rfl⟩
    obtain ⟨v, hv, hfound⟩ := Base.assign_of_mem hmem
      (m := assign (fun _ => none) (before.flatMap CidEntry.writes))
    exact hfound.trans (congrArg some (CidEntry.mem_writes_range.mp hv).2)
  · rintro kv hkv rfl
    obtain ⟨e, he, hwrites⟩ := List.mem_flatMap.mp hkv
    exact hlater e he (CidEntry.writes_covers hwrites)

/-- The three readers come to an end, and the ranges of glyph codes do what they say. -/
def ReadersDone (text : Bytes) : Prop :=
  (∃ rounds body, parseCmapBody rounds text = some body ∧ body.Follows (cidEntries text)) ∧
    (∃ rounds, (parseToUnicodeCodes rounds text).isSome) ∧
    ∃ rounds, (parseExistingToUnicode rounds text).isSome

theorem readersDone_iff (text : Bytes) : ReadersDone text ↔ LeavesLastCode text := by
  rw [ReadersDone, parseToUnicodeCodes_isSome_iff, parseExistingToUnicode_isSome_iff]
  constructor
  · rintro ⟨⟨rounds, body, hbody, -⟩, hbf, htext⟩
    refine ⟨?_, hbf, htext⟩
    intro e he hlast
    rw [parseCmapBody_eq_none he hlast] at hbody
    cases hbody
  · rintro ⟨hcid, hbf, htext⟩
    obtain ⟨body, hbody, hwrites⟩ := parseCmapBody_eq hcid
    exact ⟨⟨allRounds, body, hbody, follows_of_code2cid hwrites⟩, hbf, htext⟩

theorem mem_sections {first last s t u : Bytes} {lead : Nat} {skip : ℕ+}
    (hfirst : findText first s = some t) (hlast : findText last (t.drop lead) = some u) :
    (t.drop first.length, u.length) ∈ sections first last lead skip s := by
  rw [sections]
  split
  · rename_i hnone
    cases hnone.symm.trans hfirst
  · rename_i t' ht
    cases ht.symm.trans hfirst
    split
    · rename_i hnone
      cases hnone.symm.trans hlast
    · rename_i u' hu
      cases hu.symm.trans hlast
      exact List.mem_cons_self

/-- A range whose three numbers are read in the section is one of its ranges. -/
theorem mem_cidRanges {stop : Nat} {s : Bytes} {lo hi : Hex} (hstop : stop < s.length)
    (hlo : hexAt s = some lo) (hbehindLo : ¬ lo.rest.length < stop)
    (hhi : hexAt lo.rest = some hi) (hbehindHi : ¬ hi.rest.length < stop)
    (hdigits : (digitsAt stop (skipWhile isSpace stop hi.rest)).1 ≠ []) :
    .range lo.val hi.val (atoi (digitsAt stop (skipWhile isSpace stop hi.rest)).1) ∈
      cidRanges stop s := by
  rw [cidRanges, if_pos hstop]
  split
  · rename_i hnone
    cases hnone.symm.trans hlo
  · rename_i lo' hlo'
    cases hlo'.symm.trans hlo
    rw [if_neg hbehindLo]
    split
    · rename_i hnone
      cases hnone.symm.trans hhi
    · rename_i hi' hhi'
      cases hhi'.symm.trans hhi
      rw [if_neg hbehindHi, if_neg hdigits]
      exact List.mem_cons_self

/-- A range of the last two codes. -/
def lastCodes : Bytes := lit "begincidrange <FFFFFFFE> <FFFFFFFF> 1 endcidrange"

theorem lastCodes_range :
    CidEntry.range 0xFFFFFFFE 0xFFFFFFFF 1 ∈ cidEntries lastCodes := by
  rw [cidEntries, List.mem_append, List.mem_flatMap]
  refine Or.inl ⟨(lit " <FFFFFFFE> <FFFFFFFF> 1 endcidrange", 11), ?_, ?_⟩
  · exact mem_sections (t := lastCodes) (u := lit "endcidrange") (by decide) (by decide)
  · have hlo : hexAt (lit " <FFFFFFFE> <FFFFFFFF> 1 endcidrange") =
        some ⟨0xFFFFFFFE, 4, lit " <FFFFFFFF> 1 endcidrange"⟩ := by decide
    have hhi : hexAt (lit " <FFFFFFFF> 1 endcidrange") =
        some ⟨0xFFFFFFFF, 4, lit " 1 endcidrange"⟩ := by decide
    exact mem_cidRanges (by decide) hlo (by decide) hhi (by decide) (by decide)

theorem lastCodes_endless : ¬ ReadersDone lastCodes := by
  rintro ⟨⟨rounds, body, hbody, -⟩, -⟩
  rw [parseCmapBody_eq_none lastCodes_range rfl] at hbody
  cases hbody

end Kura.Engine.CMap
