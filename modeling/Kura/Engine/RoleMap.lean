import Kura.Base.Chains
import Kura.Base.Rename
import Kura.Engine.Jobs

/-!
# The role map of a structure tree

Types of structure elements that are not standard are mapped to types that are.
Entries for standard types are dropped, entries that do not lead to a standard
type in a few steps are mapped to paragraphs, and so are the types of elements
that have no entry.

## Implementation notes

Of a dictionary is kept what tells whether it is an element, and its kids. Which
types are used is looked up among the indirect objects, one of which may be the
role map itself. A value of the role map that is not a name is `other`.
-/

namespace Kura.Engine.RoleMap

open Kura.Base
open Kura.Engine.Jobs (Issue)

/-- What an array of kids holds. A name that is missing, or is none, is `none`. -/
inductive Node where
  /-- A dictionary: its `/Type`, its `/S`, whether it has a `/P`, and its kids. -/
  | element (type s : Option String) (hasP : Bool) (kids : Option (List Node))
  /-- An indirect object. -/
  | ref (id : Nat)
  | content

/-- The value of an entry of the role map. -/
inductive Target where
  | absent
  | name (s : String)
  | other
  deriving DecidableEq

abbrev Entries := List (String × Target)

structure Document where
  objects : List Node
  /-- The kids of the structure tree root, if there is one. -/
  root : Option (List Node)
  /-- The role map, if it is a dictionary, in the order of its keys. -/
  roleMap : Option Entries
  /-- The role map is an indirect object. -/
  roleMapIndirect : Bool
  part : Int

def kStandardStructTypes : List String :=
  ["/Document", "/Part", "/Art", "/Sect", "/Div", "/BlockQuote", "/Caption", "/TOC",
    "/TOCI", "/Index", "/NonStruct", "/Private", "/P", "/H", "/H1", "/H2", "/H3", "/H4",
    "/H5", "/H6", "/L", "/LI", "/Lbl", "/LBody", "/Table", "/TR", "/TH", "/TD", "/THead",
    "/TBody", "/TFoot", "/Span", "/Quote", "/Note", "/Reference", "/BibEntry", "/Code",
    "/Link", "/Annot", "/Ruby", "/RB", "/RT", "/RP", "/Warichu", "/WT", "/WP", "/Figure",
    "/Formula", "/Form"]

/-- The types that came after the first part. -/
def t14 : List String :=
  ["/THead", "/TBody", "/TFoot", "/Ruby", "/RB", "/RT", "/RP", "/Warichu", "/WT", "/WP"]

/-- The standard types of a part. -/
def standard (part : Int) (t : String) : Bool :=
  kStandardStructTypes.contains t && !(part = 1 && t14.contains t)

def getKey (rm : Entries) (k : String) : Target := entryAt .absent rm k

def hasKey (rm : Entries) (k : String) : Bool := getKey rm k ≠ .absent

def getKeys (rm : Entries) : List String := (rm.map Prod.fst).filter (hasKey rm)

/-- The type that a type is mapped to. -/
def mapsTo (rm : Entries) (k : String) : Option String :=
  match getKey rm k with
  | .name s => some s
  | _ => none

/-- The type of a dictionary that is taken for an element, if it is not standard. -/
def usedType (part : Int) : Node → Option String
  | .element type (some s) hasP kids =>
      if (type = some "/StructElem" || type.isNone && (hasP || kids.isSome)) && !standard part s
      then some s else none
  | _ => none

/-- The role map as a dictionary among the objects. -/
def asObject (rm : Entries) : Node :=
  .element (mapsTo rm "/Type") (mapsTo rm "/S") (hasKey rm "/P")
    (if hasKey rm "/K" then some [] else none)

/-- All indirect objects. -/
def allObjects (doc : Document) : List Node :=
  match doc.roleMap, doc.roleMapIndirect with
  | some rm, true => asObject rm :: doc.objects
  | _, _ => doc.objects

/-- The types in use that are not standard. -/
def usedNonStandard (doc : Document) : List String :=
  ((allObjects doc).filterMap (usedType doc.part)).dedup

/-- A chain ends at a standard type; it must not come back to where it was. -/
def terminated (part : Int) (rm : Entries) : Nat → List String → String → Bool
  | 0, _, _ => false
  | hop + 1, chain, cur =>
      match mapsTo rm cur with
      | none => false
      | some next =>
          if standard part next then true
          else if next ∈ chain || !hasKey rm next then false
          else terminated part rm hop (next :: chain) next

/-- The map without an entry for a standard type. -/
def unmapStandard (part : Int) (r : Entries × Bool) (k : String) : Entries × Bool :=
  if standard part k then (eraseEntry r.1 k, true) else r

/-- An entry that leads nowhere is mapped to a paragraph. -/
def breakCycle (part : Int) (r : Entries × Bool) (k : String) : Entries × Bool :=
  if terminated part r.1 16 [k] k then r else (putEntry r.1 k (.name "/P"), true)

/-- A type without an entry is mapped to a paragraph. -/
def mapUsed (r : Entries × Bool) (t2 : String) : Entries × Bool :=
  if hasKey r.1 t2 then r else (putEntry r.1 t2 (.name "/P"), true)

/-- The repaired map, and whether it has changed. -/
def normalize (part : Int) (used : List String) (rm : Entries) : Entries × Bool :=
  let unmapped := (getKeys rm).foldl (unmapStandard part) (rm, false)
  let broken := (getKeys unmapped.1).foldl (breakCycle part) unmapped
  used.foldl mapUsed broken

def fixRoleMap (doc : Document) : Document × List Issue :=
  match doc.root with
  | none => (doc, [])
  | some _ =>
      let used := usedNonStandard doc
      if doc.roleMap.isNone && used.isEmpty then (doc, [])
      else
        let r := normalize doc.part used (doc.roleMap.getD [])
        ({ doc with
            roleMap := some r.1
            roleMapIndirect := doc.roleMap.isSome && doc.roleMapIndirect },
          if r.2 then
            [⟨"ROLEMAP_NORMALIZED", "normalized structure role map (standard types unmapped, " ++
              "cycles broken, non-standard types mapped)", true, 0, []⟩]
          else [])

/-- What hangs from the root. -/
inductive Reachable (doc : Document) : Node → Prop where
  | root {kids : List Node} {n : Node} : doc.root = some kids → n ∈ kids → Reachable doc n
  | object {id : Nat} {n : Node} : Reachable doc (.ref id) → doc.objects[id]? = some n →
      Reachable doc n
  | kid {type s : Option String} {hasP : Bool} {kids : List Node} {n : Node} :
      Reachable doc (.element type s hasP (some kids)) → n ∈ kids → Reachable doc n

/-- A structure element of a type. -/
def IsElement (n : Node) (t : String) : Prop :=
  ∃ type hasP kids, n = .element type (some t) hasP kids ∧
    (type = none ∨ type = some "/StructElem")

/-- A type leads to a standard one in at most sixteen steps. -/
def Leads (part : Int) (rm : Entries) (t : String) : Prop :=
  reachesIn (standard part) (mapsTo rm) 16 t = true

/-- A repair, if a second one is given. -/
structure Repaired (doc : Document) : Prop where
  unmapped : ∀ k ∈ getKeys ((fixRoleMap doc).1.roleMap.getD []), standard doc.part k = false
  keysLead : ∀ k ∈ getKeys ((fixRoleMap doc).1.roleMap.getD []),
    Leads doc.part ((fixRoleMap doc).1.roleMap.getD []) k
  typesLead : ∀ n t, Reachable doc n → IsElement n t →
    Leads doc.part ((fixRoleMap doc).1.roleMap.getD []) t
  kept : ∀ k, standard doc.part k = false → hasKey (doc.roleMap.getD []) k = true →
    Leads doc.part (doc.roleMap.getD []) k →
    getKey ((fixRoleMap doc).1.roleMap.getD []) k = getKey (doc.roleMap.getD []) k
  stable : (fixRoleMap (fixRoleMap doc).1).1 = (fixRoleMap doc).1

/-- The type of each element is standard, has an entry, or is that of an indirect object which
is taken for an element. -/
def TypesFound (doc : Document) : Prop :=
  ∀ n t, Reachable doc n → IsElement n t → standard doc.part t = true ∨
    hasKey (doc.roleMap.getD []) t = true ∨ t ∈ usedNonStandard doc

section

variable {part : Int} {rm rm' rm'' : Entries} {k j s : String}

theorem getKey_putEntry (rm : Entries) (k j : String) (v : Target) :
    getKey (putEntry rm k v) j = if j = k then v else getKey rm j := by
  rw [getKey, entryAt_putEntry, Function.update_apply]
  rfl

theorem getKey_eraseEntry (rm : Entries) (k j : String) :
    getKey (eraseEntry rm k) j = if j = k then .absent else getKey rm j := by
  rw [getKey, entryAt_eraseEntry, Function.update_apply]
  rfl

theorem mapsTo_congr (h : getKey rm' k = getKey rm k) : mapsTo rm' k = mapsTo rm k := by
  rw [mapsTo, mapsTo, h]

theorem hasKey_congr (h : getKey rm' k = getKey rm k) : hasKey rm' k = hasKey rm k := by
  rw [hasKey, hasKey, h]

theorem hasKey_of_mapsTo (h : mapsTo rm k = some j) : hasKey rm k = true := by
  refine decide_eq_true fun habsent => ?_
  rw [mapsTo, habsent] at h
  cases h

theorem mem_getKeys_iff : k ∈ getKeys rm ↔ hasKey rm k = true := by
  rw [getKeys, List.mem_filter]
  refine ⟨fun h => h.2, fun h => ⟨?_, h⟩⟩
  by_contra hnot
  refine of_decide_eq_true h (entryAt_of_notMem fun e he heq => hnot ?_)
  exact List.mem_map.mpr ⟨e, he, heq⟩

theorem standard_p (part : Int) : standard part "/P" = true := by
  have hmember : kStandardStructTypes.contains "/P" = true := by decide
  have hold : t14.contains "/P" = false := by decide
  rw [standard, hmember, hold, Bool.and_false, Bool.not_false, Bool.and_true]

/-- The walk along a chain tells whether a standard type is reached. -/
theorem terminated_eq {n : Nat} {chain : List String} {cur : String}
    (hcur : standard part cur = false)
    (hchain : ∀ c ∈ chain, ∀ n, reachesIn (standard part) (mapsTo rm) n c = true →
      reachesIn (standard part) (mapsTo rm) n cur = true) :
    terminated part rm n chain cur = reachesIn (standard part) (mapsTo rm) n cur := by
  induction n generalizing chain cur with
  | zero => exact hcur.symm
  | succ n ih =>
      rw [terminated]
      cases hnext : mapsTo rm cur with
      | none =>
          simp only [reachesIn, hcur, hnext, Bool.false_or]
      | some next =>
          simp only
          split_ifs with hstandard hback
          · symm
            exact (reachesIn_succ_iff hcur).mpr ⟨next, hnext, reachesIn_of_done hstandard⟩
          · symm
            rw [Bool.or_eq_true, decide_eq_true_eq] at hback
            rcases hback with hmem | hmissing
            · exact not_reachesIn_of_back hcur hnext (hchain next hmem) _
            · rw [← Bool.not_eq_true]
              intro hreach
              obtain ⟨j, hj, hreach⟩ := (reachesIn_succ_iff hcur).mp hreach
              obtain rfl := Option.some.inj (hnext.symm.trans hj)
              cases n with
              | zero => exact hstandard hreach
              | succ n =>
                  obtain ⟨j', hj', -⟩ :=
                    (reachesIn_succ_iff (Bool.eq_false_iff.mpr hstandard)).mp hreach
                  rw [hasKey_of_mapsTo hj'] at hmissing
                  cases hmissing
          · have hnot : standard part next = false := Bool.eq_false_iff.mpr hstandard
            rw [ih hnot ?_]
            · simp only [reachesIn, hcur, hnext, Bool.false_or]
            · intro c hc m hreach
              rcases List.mem_cons.mp hc with rfl | hc
              · exact hreach
              · have hstep := hchain c hc m hreach
                cases m with
                | zero => exact absurd hstep (by rw [reachesIn, hcur]; exact Bool.false_ne_true)
                | succ m =>
                    obtain ⟨j, hj, hstep⟩ := (reachesIn_succ_iff hcur).mp hstep
                    obtain rfl := Option.some.inj (hnext.symm.trans hj)
                    exact reachesIn_mono (Nat.le_succ m) hstep

theorem terminated_iff_leads (hk : standard part k = false) :
    terminated part rm 16 [k] k = true ↔ Leads part rm k := by
  rw [terminated_eq hk fun c hc n h => List.mem_singleton.mp hc ▸ h]
  exact Iff.rfl

theorem leads_of_standard (h : standard part k = true) : Leads part rm k := reachesIn_of_done h

theorem leads_of_mapsTo_p (h : mapsTo rm k = some "/P") : Leads part rm k := by
  cases hk : standard part k with
  | true => exact leads_of_standard hk
  | false => exact (reachesIn_succ_iff hk).mpr ⟨"/P", h, reachesIn_of_done (standard_p part)⟩

/-- A map in which what led to a standard type still does, by the same entries. -/
structure Improves (part : Int) (rm rm' : Entries) : Prop where
  leads : ∀ n ≤ 16, ∀ t, reachesIn (standard part) (mapsTo rm) n t = true →
    reachesIn (standard part) (mapsTo rm') n t = true
  entry : ∀ k, hasKey rm k = true → Leads part rm k → getKey rm' k = getKey rm k
  keys : ∀ k, hasKey rm k = true → hasKey rm' k = true

theorem Improves.refl (part : Int) (rm : Entries) : Improves part rm rm :=
  ⟨fun _ _ _ h => h, fun _ _ _ => rfl, fun _ h => h⟩

theorem Improves.trans (h : Improves part rm rm') (h' : Improves part rm' rm'') :
    Improves part rm rm'' where
  leads n hn t ht := h'.leads n hn t (h.leads n hn t ht)
  entry k hk hleads :=
    (h'.entry k (h.keys k hk) (h.leads 16 le_rfl k hleads)).trans (h.entry k hk hleads)
  keys k hk := h'.keys k (h.keys k hk)

/-- A key that leads nowhere may be given an entry. -/
theorem Improves.put (hk : standard part k = false) (hnot : hasKey rm k = true →
    ¬ Leads part rm k) :
    Improves part rm (putEntry rm k (.name "/P")) := by
  have hstuck : ¬ Leads part rm k := by
    intro hleads
    refine hnot ?_ hleads
    obtain ⟨j, hj, -⟩ := (reachesIn_succ_iff hk).mp hleads
    exact hasKey_of_mapsTo hj
  have hsame : ∀ j, j ≠ k → getKey (putEntry rm k (.name "/P")) j = getKey rm j := by
    intro j hj
    rw [getKey_putEntry, if_neg hj]
  constructor
  · intro n hn t ht
    refine reachesIn_congr (fun j _ hreach => mapsTo_congr (hsame j ?_)) ht
    rintro rfl
    exact hstuck (reachesIn_mono hn hreach)
  · intro j _ hleads
    refine hsame j ?_
    rintro rfl
    exact hstuck hleads
  · intro j hj
    rw [hasKey, getKey_putEntry]
    split_ifs
    · rfl
    · exact hj

theorem mapsTo_putEntry_self (rm : Entries) (k : String) :
    mapsTo (putEntry rm k (.name "/P")) k = some "/P" := by
  rw [mapsTo, getKey_putEntry, if_pos rfl]

/-- The standard types are unmapped, every other entry stays. -/
theorem getKey_foldl_unmapStandard (ks : List String) (r : Entries × Bool) (j : String) :
    getKey (ks.foldl (unmapStandard part) r).1 j =
      if standard part j = true ∧ j ∈ ks then .absent else getKey r.1 j := by
  induction ks generalizing r with
  | nil =>
      rw [if_neg fun h => absurd h.2 List.not_mem_nil]
      rfl
  | cons k ks ih =>
      rw [List.foldl_cons, ih]
      by_cases hj : standard part j = true ∧ j ∈ ks
      · rw [if_pos hj, if_pos ⟨hj.1, List.mem_cons_of_mem k hj.2⟩]
      · rw [if_neg hj, unmapStandard]
        by_cases hk : standard part k = true
        · rw [if_pos hk, getKey_eraseEntry]
          by_cases heq : j = k
          · rw [if_pos heq, if_pos ⟨heq ▸ hk, heq ▸ List.mem_cons_self⟩]
          · rw [if_neg heq, if_neg fun h => hj ⟨h.1, (List.mem_cons.mp h.2).resolve_left heq⟩]
        · rw [if_neg hk, if_neg]
          rintro ⟨hstandard, hmem⟩
          rcases List.mem_cons.mp hmem with rfl | hmem
          · exact hk hstandard
          · exact hj ⟨hstandard, hmem⟩

theorem foldl_unmapStandard_eq {ks : List String} (h : ∀ k ∈ ks, standard part k = false)
    (r : Entries × Bool) : ks.foldl (unmapStandard part) r = r := by
  induction ks with
  | nil => rfl
  | cons k ks ih =>
      rw [List.foldl_cons, unmapStandard,
        if_neg (by rw [h k List.mem_cons_self]; exact Bool.false_ne_true)]
      exact ih fun k' hk' => h k' (List.mem_cons_of_mem k hk')

/-- The entries that lead nowhere are mapped to paragraphs, and no other key is added. -/
theorem foldl_breakCycle {ks : List String} (hks : ∀ k ∈ ks, standard part k = false)
    (r : Entries × Bool) (hkeys : ∀ k ∈ ks, hasKey r.1 k = true) :
    Improves part r.1 (ks.foldl (breakCycle part) r).1 ∧
      (∀ k ∈ ks, Leads part (ks.foldl (breakCycle part) r).1 k) ∧
      ∀ k, hasKey (ks.foldl (breakCycle part) r).1 k = hasKey r.1 k := by
  induction ks generalizing r with
  | nil => exact ⟨Improves.refl part r.1, fun k hk => absurd hk List.not_mem_nil, fun _ => rfl⟩
  | cons k ks ih =>
      have hk := hks k List.mem_cons_self
      have hstep : Improves part r.1 (breakCycle part r k).1 ∧
          Leads part (breakCycle part r k).1 k ∧
          ∀ j, hasKey (breakCycle part r k).1 j = hasKey r.1 j := by
        rw [breakCycle]
        split_ifs with hends
        · exact ⟨Improves.refl part r.1, (terminated_iff_leads hk).mp hends, fun _ => rfl⟩
        · refine ⟨Improves.put hk fun _ hleads => hends ((terminated_iff_leads hk).mpr hleads),
            leads_of_mapsTo_p (mapsTo_putEntry_self r.1 k), fun j => ?_⟩
          rw [hasKey, getKey_putEntry]
          split_ifs with hj
          · rw [hj, hkeys k List.mem_cons_self]
            rfl
          · rfl
      obtain ⟨himproves, hleads, hsame⟩ := hstep
      obtain ⟨himproves', hleads', hsame'⟩ := ih (fun k' hk' => hks k' (List.mem_cons_of_mem k hk'))
        (breakCycle part r k) fun k' hk' => (hsame k').trans (hkeys k' (List.mem_cons_of_mem k hk'))
      refine ⟨himproves.trans himproves', fun k' hk' => ?_, fun j => (hsame' j).trans (hsame j)⟩
      rcases List.mem_cons.mp hk' with rfl | hk'
      · exact himproves'.leads 16 le_rfl _ hleads
      · exact hleads' k' hk'

theorem foldl_breakCycle_eq {ks : List String} (hks : ∀ k ∈ ks, standard part k = false)
    (r : Entries × Bool) (h : ∀ k ∈ ks, Leads part r.1 k) : ks.foldl (breakCycle part) r = r := by
  induction ks with
  | nil => rfl
  | cons k ks ih =>
      rw [List.foldl_cons, breakCycle,
        if_pos ((terminated_iff_leads (hks k List.mem_cons_self)).mpr (h k List.mem_cons_self))]
      exact ih (fun k' hk' => hks k' (List.mem_cons_of_mem k hk')) fun k' hk' =>
        h k' (List.mem_cons_of_mem k hk')

/-- The types in use have entries, and each key that has been added leads to a paragraph. -/
theorem foldl_mapUsed {used : List String} (hused : ∀ t ∈ used, standard part t = false)
    (r : Entries × Bool) :
    Improves part r.1 (used.foldl mapUsed r).1 ∧
      (∀ t ∈ used, hasKey (used.foldl mapUsed r).1 t = true) ∧
      ∀ k, hasKey (used.foldl mapUsed r).1 k = true →
        hasKey r.1 k = true ∨ k ∈ used ∧ Leads part (used.foldl mapUsed r).1 k := by
  induction used generalizing r with
  | nil => exact ⟨Improves.refl part r.1, fun t ht => absurd ht List.not_mem_nil,
      fun _ h => Or.inl h⟩
  | cons t used ih =>
      have ht := hused t List.mem_cons_self
      have hstep : Improves part r.1 (mapUsed r t).1 ∧ hasKey (mapUsed r t).1 t = true ∧
          ∀ k, hasKey (mapUsed r t).1 k = true → hasKey r.1 k = true ∨ k = t ∧
            Leads part (mapUsed r t).1 t := by
        rw [mapUsed]
        split_ifs with hhas
        · exact ⟨Improves.refl part r.1, hhas, fun _ h => Or.inl h⟩
        · refine ⟨Improves.put ht fun h => absurd h hhas, ?_, fun k hk => ?_⟩
          · exact hasKey_of_mapsTo (mapsTo_putEntry_self r.1 t)
          · by_cases heq : k = t
            · exact Or.inr ⟨heq, leads_of_mapsTo_p (mapsTo_putEntry_self r.1 t)⟩
            · rw [hasKey, getKey_putEntry, if_neg heq] at hk
              exact Or.inl hk
      obtain ⟨himproves, hhas, hnew⟩ := hstep
      obtain ⟨himproves', hhas', hnew'⟩ :=
        ih (fun t' ht' => hused t' (List.mem_cons_of_mem t ht')) (mapUsed r t)
      refine ⟨himproves.trans himproves', fun t' ht' => ?_, fun k hk => ?_⟩
      · rcases List.mem_cons.mp ht' with rfl | ht'
        · exact himproves'.keys _ hhas
        · exact hhas' t' ht'
      · rcases hnew' k hk with hold | ⟨hmem, hleads⟩
        · rcases hnew k hold with hold | ⟨rfl, hleads⟩
          · exact Or.inl hold
          · exact Or.inr ⟨List.mem_cons_self, himproves'.leads 16 le_rfl _ hleads⟩
        · exact Or.inr ⟨List.mem_cons_of_mem t hmem, hleads⟩

theorem foldl_mapUsed_eq {used : List String} (r : Entries × Bool)
    (h : ∀ t ∈ used, hasKey r.1 t = true) : used.foldl mapUsed r = r := by
  induction used with
  | nil => rfl
  | cons t used ih =>
      rw [List.foldl_cons, mapUsed, if_pos (h t List.mem_cons_self)]
      exact ih fun t' ht' => h t' (List.mem_cons_of_mem t ht')

theorem hasKey_of_leads (hk : standard part k = false) (h : Leads part rm k) :
    hasKey rm k = true := by
  obtain ⟨j, hj, -⟩ := (reachesIn_succ_iff hk).mp h
  exact hasKey_of_mapsTo hj

/-- What holds of a map that has been repaired. -/
theorem normalize_spec {used : List String} (hused : ∀ t ∈ used, standard part t = false)
    (rm : Entries) :
    (∀ k, hasKey (normalize part used rm).1 k = true →
      standard part k = false ∧ Leads part (normalize part used rm).1 k) ∧
    (∀ k, standard part k = false → (hasKey (normalize part used rm).1 k = true ↔
      hasKey rm k = true ∨ k ∈ used)) ∧
    ∀ k, standard part k = false → hasKey rm k = true → Leads part rm k →
      getKey (normalize part used rm).1 k = getKey rm k := by
  rw [normalize]
  generalize hunmapped : (getKeys rm).foldl (unmapStandard part) (rm, false) = unmapped
  have hsame : ∀ k, standard part k = false → getKey unmapped.1 k = getKey rm k := by
    intro k hk
    rw [← hunmapped, getKey_foldl_unmapStandard, if_neg fun h => by rw [hk] at h; cases h.1]
  have hnone : ∀ k, hasKey unmapped.1 k = true → standard part k = false := by
    intro k hk
    rw [← Bool.not_eq_true]
    intro hstandard
    by_cases hmem : k ∈ getKeys rm
    · rw [hasKey, ← hunmapped, getKey_foldl_unmapStandard, if_pos ⟨hstandard, hmem⟩] at hk
      cases hk
    · rw [hasKey, ← hunmapped, getKey_foldl_unmapStandard, if_neg fun h => hmem h.2] at hk
      exact hmem (mem_getKeys_iff.mpr hk)
  have hleads : ∀ k, Leads part unmapped.1 k ↔ Leads part rm k := by
    intro k
    rw [Leads, Leads, reachesIn_congr_of_done fun j hj => mapsTo_congr (hsame j hj)]
  obtain ⟨himproves, hbroken, hkeys⟩ :=
    foldl_breakCycle (fun k hk => hnone k (mem_getKeys_iff.mp hk)) unmapped
      fun k hk => mem_getKeys_iff.mp hk
  generalize (getKeys unmapped.1).foldl (breakCycle part) unmapped = broken at *
  obtain ⟨himproves', hmapped, hnew⟩ := foldl_mapUsed hused broken
  generalize used.foldl mapUsed broken = final at *
  refine ⟨fun k hk => ?_, fun k hk => ⟨fun h => ?_, fun h => ?_⟩, fun k hk hhas hlead => ?_⟩
  · rcases hnew k hk with hold | ⟨hmem, hlead⟩
    · rw [hkeys] at hold
      exact ⟨hnone k hold, himproves'.leads 16 le_rfl k (hbroken k (mem_getKeys_iff.mpr hold))⟩
    · exact ⟨hused k hmem, hlead⟩
  · rcases hnew k h with hold | ⟨hmem, -⟩
    · rw [hkeys, hasKey_congr (hsame k hk)] at hold
      exact Or.inl hold
    · exact Or.inr hmem
  · rcases h with hold | hmem
    · exact himproves'.keys k (by rw [hkeys, hasKey_congr (hsame k hk), hold])
    · exact hmapped k hmem
  · have hhas' : hasKey unmapped.1 k = true := (hasKey_congr (hsame k hk)).trans hhas
    calc getKey final.1 k = getKey unmapped.1 k :=
          (himproves.trans himproves').entry k hhas' ((hleads k).mpr hlead)
      _ = getKey rm k := hsame k hk

/-- A map that needs no repair is left as it is. -/
theorem normalize_eq {used : List String} (hkeys : ∀ k, hasKey rm k = true →
    standard part k = false ∧ Leads part rm k) (hused : ∀ t ∈ used, hasKey rm t = true) :
    normalize part used rm = (rm, false) := by
  have hunmapped : (getKeys rm).foldl (unmapStandard part) (rm, false) = (rm, false) :=
    foldl_unmapStandard_eq (fun k hk => (hkeys k (mem_getKeys_iff.mp hk)).1) _
  have hbroken : (getKeys rm).foldl (breakCycle part) (rm, false) = (rm, false) :=
    foldl_breakCycle_eq (fun k hk => (hkeys k (mem_getKeys_iff.mp hk)).1) _
      fun k hk => (hkeys k (mem_getKeys_iff.mp hk)).2
  rw [normalize, hunmapped, hbroken]
  exact foldl_mapUsed_eq _ hused

end

section

variable {doc : Document}

theorem standard_of_mem_used {t : String} (h : t ∈ usedNonStandard doc) :
    standard doc.part t = false := by
  obtain ⟨n, -, ht⟩ := List.mem_filterMap.mp (List.mem_dedup.mp h)
  unfold usedType at ht
  split at ht
  · split_ifs at ht with hcond
    rw [← Option.some.inj ht]
    rw [Bool.and_eq_true, Bool.not_eq_true'] at hcond
    exact hcond.2
  · cases ht

theorem mem_used_of_object {n : Node} {t : String} (hn : n ∈ doc.objects)
    (ht : usedType doc.part n = some t) : t ∈ usedNonStandard doc := by
  refine List.mem_dedup.mpr (List.mem_filterMap.mpr ⟨n, ?_, ht⟩)
  unfold allObjects
  split
  · exact List.mem_cons_of_mem _ hn
  · exact hn

/-- A repair leaves the document alone, or its map is the repaired one. -/
theorem fixRoleMap_cases {kids : List Node} (hroot : doc.root = some kids) :
    ((fixRoleMap doc).1 = doc ∧ doc.roleMap = none ∧ usedNonStandard doc = []) ∨
      (fixRoleMap doc).1 = { doc with
        roleMap := some (normalize doc.part (usedNonStandard doc) (doc.roleMap.getD [])).1
        roleMapIndirect := doc.roleMap.isSome && doc.roleMapIndirect } := by
  rw [fixRoleMap, hroot]
  simp only
  split_ifs with hnothing
  · rw [Bool.and_eq_true, Option.isNone_iff_eq_none, List.isEmpty_iff] at hnothing
    exact Or.inl ⟨rfl, hnothing⟩
  · exact Or.inr rfl
  · exact Or.inr rfl

/-- What holds of the map of a document that has been repaired. -/
theorem fixRoleMap_spec {kids : List Node} (hroot : doc.root = some kids) :
    (∀ k, hasKey ((fixRoleMap doc).1.roleMap.getD []) k = true →
      standard doc.part k = false ∧ Leads doc.part ((fixRoleMap doc).1.roleMap.getD []) k) ∧
    (∀ k, standard doc.part k = false → (hasKey ((fixRoleMap doc).1.roleMap.getD []) k = true ↔
      hasKey (doc.roleMap.getD []) k = true ∨ k ∈ usedNonStandard doc)) ∧
    ∀ k, standard doc.part k = false → hasKey (doc.roleMap.getD []) k = true →
      Leads doc.part (doc.roleMap.getD []) k →
      getKey ((fixRoleMap doc).1.roleMap.getD []) k = getKey (doc.roleMap.getD []) k := by
  rcases fixRoleMap_cases hroot with ⟨heq, hnone, hused⟩ | heq
  · have hempty : ∀ k, hasKey [] k = false := fun _ => rfl
    rw [heq, hnone, hused, Option.getD_none]
    refine ⟨fun k hk => ?_, fun k _ => ?_, fun k _ _ _ => rfl⟩
    · rw [hempty] at hk
      cases hk
    · rw [hempty]
      exact ⟨fun h => Or.inl h, fun h => h.resolve_right List.not_mem_nil⟩
  · rw [heq]
    exact normalize_spec (fun t ht => standard_of_mem_used ht) (doc.roleMap.getD [])

/-- A second repair changes nothing. -/
theorem fixRoleMap_stable {kids : List Node} (hroot : doc.root = some kids) :
    (fixRoleMap (fixRoleMap doc).1).1 = (fixRoleMap doc).1 := by
  obtain ⟨hkeys, hhas, -⟩ := fixRoleMap_spec hroot
  rcases fixRoleMap_cases hroot with ⟨heq, -, -⟩ | heq
  · rw [heq, heq]
  generalize hrepaired : (fixRoleMap doc).1 = doc' at *
  generalize (normalize doc.part (usedNonStandard doc) (doc.roleMap.getD [])).1 = rm at heq
  have hrm : doc'.roleMap = some rm := by rw [heq]
  have hpart : doc'.part = doc.part := by rw [heq]
  have hobjects : doc'.objects = doc.objects := by rw [heq]
  rw [hrm, Option.getD_some] at hkeys hhas
  -- a type that is in use now was in use before, or the map leads to it
  have hused : ∀ t ∈ usedNonStandard doc', hasKey rm t = true := by
    intro t ht
    have hstandard := hpart ▸ standard_of_mem_used ht
    obtain ⟨n, hn, hn'⟩ := List.mem_filterMap.mp (List.mem_dedup.mp ht)
    rw [hpart] at hn'
    have hobject : n ∈ doc'.objects → hasKey rm t = true := fun hmem =>
      (hhas t hstandard).mpr (Or.inr (mem_used_of_object (hobjects ▸ hmem) hn'))
    rw [allObjects, hrm] at hn
    cases hindirect : doc'.roleMapIndirect with
    | false =>
        rw [hindirect] at hn
        exact hobject hn
    | true =>
        rw [hindirect] at hn
        rcases List.mem_cons.mp hn with rfl | hn
        · have hs : mapsTo rm "/S" = some t := by
            unfold asObject usedType at hn'
            split at hn'
            next heq' =>
              split_ifs at hn'
              rw [(Node.element.inj heq').2.1, Option.some.inj hn']
            next => cases hn'
          have hlead := (hkeys "/S" (hasKey_of_mapsTo hs)).2
          have hnot := (hkeys "/S" (hasKey_of_mapsTo hs)).1
          obtain ⟨t', ht', hreach⟩ := (reachesIn_succ_iff hnot).mp hlead
          obtain rfl := Option.some.inj (hs.symm.trans ht')
          exact hasKey_of_leads hstandard (reachesIn_mono (by omega) hreach)
        · exact hobject hn
  have hroot' : doc'.root = some kids := by rw [heq, ← hroot]
  have hsome : doc'.roleMap.isNone = false := by rw [hrm]; rfl
  have hnormal : normalize doc'.part (usedNonStandard doc') rm = (rm, false) :=
    normalize_eq (fun k hk => hpart ▸ hkeys k hk) hused
  rcases fixRoleMap_cases hroot' with ⟨heq', -, -⟩ | heq'
  · exact heq'
  · rw [heq', hrm, Option.getD_some, hnormal, Option.isSome_some, Bool.true_and, ← hrm]

/-- The role map is repaired if and only if the repair finds the type of each element. -/
theorem repaired_iff_typesFound {kids : List Node} (hroot : doc.root = some kids) :
    Repaired doc ↔ TypesFound doc := by
  obtain ⟨hkeys, hhas, hkept⟩ := fixRoleMap_spec hroot
  constructor
  · intro h n t hn ht
    cases hstandard : standard doc.part t with
    | true => exact Or.inl rfl
    | false =>
        have hlead := h.typesLead n t hn ht
        exact Or.inr ((hhas t hstandard).mp (hasKey_of_leads hstandard hlead))
  · intro h
    refine ⟨fun k hk => (hkeys k (mem_getKeys_iff.mp hk)).1,
      fun k hk => (hkeys k (mem_getKeys_iff.mp hk)).2, fun n t hn ht => ?_, hkept,
      fixRoleMap_stable hroot⟩
    cases hstandard : standard doc.part t with
    | true => exact leads_of_standard hstandard
    | false =>
        have hfound := (h n t hn ht).resolve_left (by rw [hstandard]; exact Bool.false_ne_true)
        exact (hkeys t ((hhas t hstandard).mpr hfound)).2

/-- Two elements, and a role map with a chain, a cycle and an entry for a standard type. -/
def chainAndCycle : Document where
  objects := [.element (some "/StructElem") (some "/Kapitel") true none,
    .element (some "/StructElem") (some "/A") true none]
  root := some [.ref 0, .ref 1]
  roleMap := some [("/A", .name "/B"), ("/Abschnitt", .name "/Sect"), ("/B", .name "/A"),
    ("/Kapitel", .name "/Abschnitt"), ("/P", .name "/Sect")]
  roleMapIndirect := false
  part := 2

theorem chainAndCycle_typesFound : TypesFound chainAndCycle := by
  have hnodes : ∀ n, Reachable chainAndCycle n →
      n ∈ [Node.ref 0, .ref 1] ∨ n ∈ chainAndCycle.objects := by
    intro n hn
    induction hn with
    | root hroot hmem =>
        obtain rfl := Option.some.inj hroot
        exact Or.inl hmem
    | object _ hget _ => exact Or.inr (List.mem_of_getElem? hget)
    | kid _ _ ih =>
        rcases ih with href | hobject
        · simp at href
        · simp [chainAndCycle] at hobject
  rintro n t hn ⟨type, hasP, kids, rfl, -⟩
  rcases hnodes _ hn with href | hobject
  · simp at href
  · simp only [chainAndCycle, List.mem_cons, Node.element.injEq, Option.some.injEq,
      List.not_mem_nil, or_false] at hobject
    rcases hobject with ⟨-, rfl, -⟩ | ⟨-, rfl, -⟩
    · exact Or.inr (Or.inl (by decide +kernel))
    · exact Or.inr (Or.inl (by decide +kernel))

theorem chainAndCycle_repaired : Repaired chainAndCycle ∧
    (fixRoleMap chainAndCycle).1.roleMap = some [("/A", .name "/P"), ("/Abschnitt", .name "/Sect"),
      ("/B", .name "/A"), ("/Kapitel", .name "/Abschnitt")] :=
  ⟨(@repaired_iff_typesFound chainAndCycle [.ref 0, .ref 1] rfl).mpr chainAndCycle_typesFound,
    by decide +kernel⟩

/-- A tree with one element that is written in the array of kids. -/
def directElement : Document where
  objects := []
  root := some [.element (some "/StructElem") (some "/Absatz") true none]
  roleMap := none
  roleMapIndirect := false
  part := 2

/-- The type of an element that is no indirect object is not mapped. -/
theorem directElement_unmapped : ¬ Repaired directElement := by
  intro h
  have hreach :
      Reachable directElement (.element (some "/StructElem") (some "/Absatz") true none) :=
    Reachable.root rfl (List.mem_singleton_self _)
  have hlead := h.typesLead _ "/Absatz" hreach ⟨_, _, _, rfl, Or.inr rfl⟩
  have hstuck : reachesIn (standard 2) (mapsTo []) 16 "/Absatz" = false := by decide
  have hmap : ((fixRoleMap directElement).1.roleMap.getD []) = [] := by decide
  rw [Leads, hmap] at hlead
  exact absurd hlead
    (by rw [show directElement.part = 2 from rfl, hstuck]; exact Bool.false_ne_true)

end

end Kura.Engine.RoleMap
