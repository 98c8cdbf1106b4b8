import Kura.Engine.ObjectLimits
import Kura.Engine.PlainPdf
import Kura.Engine.WrittenName

/-!
# What is left of an object within the limits

An object loses nothing exactly if its dictionaries keep their keys apart and no
file outside of this one is named: each entry is then found under the name that
the content filter writes for it, with its value brought within the limits in the
same way.
-/

namespace Kura.Engine.Limits

open Base (moveKey)

/-- Objects and what is nested in them directly. -/
inductive Part (objects : Objects) : Node → Node → Prop
  | self (o : Node) : Part objects o o
  | item {o v : Node} {items : List Node} (hv : v ∈ items) (h : Part objects o v) :
      Part objects o (.array items)
  | entry {o : Node} {es : Entries} {k : Bytes} (hk : k ∈ es.getKeys objects)
      (h : Part objects o (es.getKey k)) : Part objects o (.dict es)
  | stream {o : Node} {es : Entries} (h : Part objects o (.dict es)) : Part objects o (.stream es)

/-- At most so many levels are nested directly. -/
def Fits (objects : Objects) : Nat → Node → Prop
  | n + 1, .array items => ∀ v ∈ items, Fits objects n v
  | n + 1, .dict es => ∀ k ∈ Entries.getKeys objects es, Fits objects n (Entries.getKey es k)
  | n + 1, .stream es => Fits objects n (.dict es)
  | 0, .array _ | 0, .dict _ | 0, .stream _ => False
  | _, _ => True

/-- The parts of an object that are brought within the limits; `p` tells whether an array keeps
all of its items. -/
inductive Walked (st : LimitStats) (objects : Objects) : Bool → Node → Node → Prop
  | self {p : Bool} (o : Node) : Walked st objects p o o
  | item {p : Bool} {o v : Node} {items : List Node} (hv : v ∈ clipItems st p items)
      (h : Walked st objects false o v) : Walked st objects p o (.array items)
  | entry {p : Bool} {o : Node} {es : Entries} {k : Bytes} (hk : k ∈ es.getKeys objects)
      (h : Walked st objects false o (es.getKey k)) : Walked st objects p o (.dict es)
  | stream {p : Bool} {o : Node} {es : Entries} (h : Walked st objects false o (.dict es)) :
      Walked st objects p o (.stream es)

/-- No two keys of a dictionary get the same name, and no stream has a key that is taken out. -/
structure KeysKept (st : LimitStats) (objects : Objects) (p : Bool) (o : Node) : Prop where
  apart : ∀ es : Entries, Walked st objects p (.dict es) o →
    ((es.getKeys objects).map limitName).Nodup
  internal : ∀ es : Entries, Walked st objects p (.stream es) o →
    ∀ k ∈ externalKeys, k ∉ es.getKeys objects

/-- A number, string or name within the limits. -/
def ScalarWithin (st : LimitStats) : Node → Prop
  | .real text =>
      ¬ (Double.fin st.maxReal).lt (strtod text) ∧ ¬ (strtod text).lt (Double.fin st.maxReal).neg ∧
        ¬ (strtod text ≠ .fin 0 ∧ Double.lt (.fin (-kMinDenorm)) (strtod text) ∧
          (strtod text).lt (.fin kMinDenorm))
  | .integer i => -kMaxInt ≤ i ∧ i ≤ kMaxInt
  | .string s => s.length ≤ st.maxString
  | .name n => n.length ≤ kMaxName + 1
  | _ => True

/-- Every number, string, name and key of an object is within the limits. -/
def Within (st : LimitStats) (objects : Objects) (o : Node) : Prop :=
  ∀ v, Part objects v o → ScalarWithin st (objects.resolve v) ∧
    ∀ k ∈ v.entries.getKeys objects, k.length ≤ kMaxName + 1

/-- An object and the same one brought within the limits, with as many entries in each of its
dictionaries. -/
inductive ClampedTo (st : LimitStats) (objects : Objects) : Bool → Node → Node → Prop
  | scalar {p : Bool} {v nv : Node} (h : clampScalar st objects v = some nv) :
      ClampedTo st objects p v nv
  | same {p : Bool} {v : Node} (h : ScalarWithin st (objects.resolve v))
      (hleaf : Fits objects 0 v) : ClampedTo st objects p v v
  | array {p : Bool} {items items' : List Node}
      (h : List.Forall₂ (fun v v' => ClampedTo st objects false v v')
        (clipItems st p items) items') :
      ClampedTo st objects p (.array items) (.array items')
  | dict {p : Bool} {es es' : Entries}
      (hcount : (es'.getKeys objects).length = (es.getKeys objects).length)
      (hkeys : ∀ j, j ∈ es'.getKeys objects ↔ ∃ k ∈ es.getKeys objects, limitName k = j)
      (h : ∀ k ∈ es.getKeys objects,
        ClampedTo st objects false (es.getKey k) (es'.getKey (limitName k))) :
      ClampedTo st objects p (.dict es) (.dict es')
  | stream {p : Bool} {es es' : Entries}
      (h : ClampedTo st objects false (.dict es) (.dict es')) :
      ClampedTo st objects p (.stream es) (.stream es')

theorem limitName_length (n : Bytes) : (limitName n).length ≤ kMaxName + 1 := by
  rw [limitName]
  split
  · have hslash : (lit "/").length = 1 := by decide
    have hshort := length_shortenName_le (n.drop 1)
    rw [List.length_append, hslash]
    omega
  · rename_i h
    exact not_lt.mp h

/-- A name that is too long becomes one that is as long as a name may be. -/
theorem limitName_length_of_long {n : Bytes} (h : kMaxName + 1 < n.length) :
    (limitName n).length = kMaxName + 1 := by
  have hname : kMaxName = 127 := rfl
  have hslash : (lit "/").length = 1 := by decide
  have hx : (lit "X").length = 1 := by decide
  have hhex : (hex8 (fnv1a32 (n.drop 1))).length = 8 := rfl
  rw [limitName, if_pos h, List.length_append, hslash, shortenName, List.length_append,
    List.length_append, hx, hhex, List.length_take, List.length_drop]
  omega

theorem limitName_of_le {n : Bytes} (h : n.length ≤ kMaxName + 1) : limitName n = n :=
  if_neg (not_lt.mpr h)

theorem limitName_limitName (n : Bytes) : limitName (limitName n) = limitName n :=
  limitName_of_le (limitName_length n)

variable {st : LimitStats} {objects : Objects} {nested : Node → Node}

/-- A scalar is left alone exactly when it is within the limits. -/
theorem clampScalar_eq_none_iff {v : Node} :
    clampScalar st objects v = none ↔ ScalarWithin st (objects.resolve v) := by
  rw [clampScalar]
  cases objects.resolve v with
  | real text =>
      simp only [ScalarWithin]
      by_cases hbound : (Double.fin st.maxReal).lt (strtod text) = true ∨
          (strtod text).lt (Double.fin st.maxReal).neg = true
      · rw [if_pos hbound]
        exact iff_of_false (Option.some_ne_none _) (fun h => hbound.elim h.1 h.2.1)
      · rw [if_neg hbound]
        obtain ⟨hhigh, hlow⟩ := not_or.mp hbound
        by_cases htiny : strtod text ≠ .fin 0 ∧
          Double.lt (.fin (-kMinDenorm)) (strtod text) = true ∧
            (strtod text).lt (.fin kMinDenorm) = true
        · rw [if_pos htiny]
          exact iff_of_false (Option.some_ne_none _) (fun h => h.2.2 htiny)
        · rw [if_neg htiny]
          exact iff_of_true rfl ⟨hhigh, hlow, htiny⟩
  | integer i =>
      simp only [ScalarWithin]
      split_ifs with hbound
      · exact iff_of_false (fun h => by cases h) (fun h => by omega)
      · exact iff_of_true rfl (by omega)
  | string s =>
      simp only [ScalarWithin]
      split_ifs with hlong
      · exact iff_of_false (fun h => by cases h) (not_le.mpr hlong)
      · exact iff_of_true rfl (not_lt.mp hlong)
  | name n =>
      simp only [ScalarWithin]
      split_ifs with hlong
      · exact iff_of_false (fun h => by cases h) (not_le.mpr hlong)
      · exact iff_of_true rfl (not_lt.mp hlong)
  | _ => exact iff_of_true rfl trivial

/-- The texts of the bounds are read back as the bounds. -/
theorem strtod_realText_bound {b : Rat}
    (h : b ∈ [kMaxReal, -kMaxReal, kMaxReal2, -kMaxReal2]) :
    strtod (realText (.fin b)) = .fin b := by
  have hall : ∀ b ∈ [kMaxReal, -kMaxReal, kMaxReal2, -kMaxReal2],
      strtod (realText (.fin b)) = .fin b := by decide +kernel
  exact hall b h

theorem realText_within (m : FixMode) (b : Rat)
    (hb : b = (LimitStats.of m).maxReal ∨ b = -(LimitStats.of m).maxReal) :
    ScalarWithin (LimitStats.of m) (.real (realText (.fin b))) := by
  have hmem : b ∈ [kMaxReal, -kMaxReal, kMaxReal2, -kMaxReal2] := by
    rw [LimitStats.of] at hb
    obtain rfl | rfl := hb <;> cases m.pdf14 <;> simp
  have hbounds : ∀ p : Bool, kMinDenorm ≤ (if p then kMaxReal else kMaxReal2) := by decide +kernel
  have hle : kMinDenorm ≤ (LimitStats.of m).maxReal := hbounds m.pdf14
  have hpos : (0 : Rat) < kMinDenorm := by decide +kernel
  rw [ScalarWithin, strtod_realText_bound hmem]
  simp only [Double.lt, Double.neg, decide_eq_true_eq]
  obtain rfl | rfl := hb
  · exact ⟨lt_irrefl _, by linarith, fun h => absurd h.2.2 (not_lt.mpr hle)⟩
  · exact ⟨by linarith, lt_irrefl _, fun h => by linarith [h.2.1]⟩

/-- A value that was changed is within the limits. -/
theorem within_of_clampScalar {m : FixMode} {v nv : Node}
    (h : clampScalar (LimitStats.of m) objects v = some nv) :
    ScalarWithin (LimitStats.of m) nv ∧ Fits objects 0 nv ∧ objects.resolve nv = nv ∧
      nv.isNull objects = false := by
  rw [clampScalar] at h
  cases hv : objects.resolve v with
  | real text =>
      rw [hv] at h
      simp only at h
      split_ifs at h with hbound hsign htiny
      · cases h
        exact ⟨realText_within m _ (Or.inl rfl), trivial, rfl, rfl⟩
      · cases h
        exact ⟨realText_within m _ (Or.inr rfl), trivial, rfl, rfl⟩
      · cases h
        exact ⟨⟨by decide, by decide⟩, trivial, rfl, rfl⟩
  | integer i =>
      rw [hv] at h
      simp only at h
      split_ifs at h with hbound hsign
      all_goals cases h
      all_goals exact ⟨⟨by decide, by decide⟩, trivial, rfl, rfl⟩
  | string s =>
      rw [hv] at h
      simp only at h
      split_ifs at h
      cases h
      exact ⟨List.length_take_le _ _, trivial, rfl, rfl⟩
  | name n =>
      rw [hv] at h
      simp only at h
      split_ifs at h
      cases h
      exact ⟨limitName_length n, trivial, rfl, rfl⟩
  | _ =>
      rw [hv] at h
      cases h

theorem getKey_removeKey (es : Entries) (k : Bytes) :
    (es.removeKey k).getKey = Function.update es.getKey k .null :=
  funext fun j => Base.entryAt_eraseEntry es k j

theorem getKey_replaceKey (es : Entries) (k : Bytes) (v : Node) :
    (es.replaceKey k v).getKey = Function.update es.getKey k v :=
  funext fun j => Base.entryAt_putEntry es k j v

theorem mem_getKeys {es : Entries} {k : Bytes} :
    k ∈ es.getKeys objects ↔ (es.getKey k).isNull objects = false := by
  rw [Entries.getKeys, List.mem_filter, List.mem_dedup, Bool.not_eq_true', and_iff_right_iff_imp]
  intro hvalue
  by_contra hnone
  have hnull : es.getKey k = .null := by
    refine Base.entryAt_of_notMem fun e he heq => hnone ?_
    exact heq ▸ List.mem_map_of_mem he
  rw [hnull] at hvalue
  cases hvalue

theorem nodup_getKeys (es : Entries) : (es.getKeys objects).Nodup :=
  (List.nodup_dedup _).filter _

/-- One key is moved to its new name, with its value within the limits. -/
theorem getKey_clampEntry (es : Entries) (k : Bytes) :
    (clampEntry st objects nested es k).getKey =
      moveKey limitName (clampValue st objects nested) .null es.getKey k := by
  have hmoved : (if kMaxName + 1 < k.length then
      (es.removeKey k).replaceKey (limitName k) (es.getKey k) else es).getKey =
      Function.update (Function.update es.getKey k .null) (limitName k) (es.getKey k) := by
    split
    · rw [getKey_replaceKey, getKey_removeKey]
    · rename_i hshort
      rw [limitName_of_le (not_lt.mp hshort), Function.update_idem, Function.update_eq_self]
  rw [clampEntry, moveKey]
  split
  · rename_i hkeep
    have hsame : clampValue st objects nested (es.getKey k) = es.getKey k := by
      rw [clampValue, Option.isNone_iff_eq_none.mp hkeep.1]
      exact if_pos hkeep.2
    rw [hmoved, hsame]
  · rw [getKey_replaceKey, hmoved, Function.update_idem]

theorem getKey_foldl_clampEntry (es : Entries) (ks : List Bytes) :
    (ks.foldl (clampEntry st objects nested) es).getKey =
      ks.foldl (moveKey limitName (clampValue st objects nested) .null) es.getKey :=
  (List.foldl_hom Entries.getKey fun es k => (getKey_clampEntry es k).symm).symm

/-- What is done to objects that are nested directly: none of them is made null. -/
def KeepsNull (objects : Objects) (nested : Node → Node) : Prop :=
  ∀ v, objects.resolve v = v → (nested v).isNull objects = v.isNull objects

/-- A value is null after the clamp exactly when it was before. -/
theorem isNull_clampValue (m : FixMode) (hnested : KeepsNull objects nested) (v : Node) :
    (clampValue (LimitStats.of m) objects nested v).isNull objects = v.isNull objects := by
  rw [clampValue]
  cases h : clampScalar (LimitStats.of m) objects v with
  | some nv =>
      rw [(within_of_clampScalar h).2.2.2]
      rw [clampScalar] at h
      rw [Node.isNull]
      cases hv : objects.resolve v with
      | null =>
          rw [hv] at h
          cases h
      | _ => rfl
  | none =>
      cases v with
      | indirect id => rfl
      | _ => exact hnested _ rfl

theorem keepsNull_clampObjectLimits (n : Nat) (p : Bool) :
    KeepsNull objects (clampObjectLimits st objects n p) := by
  intro v hv
  cases n with
  | zero => rfl
  | succ n => cases v <;> rfl

/-- The values of a dictionary whose keys are kept apart are found under their new names. -/
theorem getKey_clamped {es : Entries} (hnew : ((es.getKeys objects).map limitName).Nodup)
    {k : Bytes} (hk : k ∈ es.getKeys objects) :
    ((es.getKeys objects).foldl (clampEntry st objects nested) es).getKey (limitName k) =
      clampValue st objects nested (es.getKey k) := by
  rw [getKey_foldl_clampEntry]
  exact Base.foldl_moveKey_of_mem limitName_limitName hnew hk _

/-- The keys of a clamped dictionary are its keys, shortened. -/
theorem mem_getKeys_clamped {m : FixMode} (hnested : KeepsNull objects nested) {es : Entries}
    (hnew : ((es.getKeys objects).map limitName).Nodup) (j : Bytes) :
    j ∈ Entries.getKeys objects
        ((es.getKeys objects).foldl (clampEntry (LimitStats.of m) objects nested) es) ↔
      ∃ k ∈ es.getKeys objects, limitName k = j := by
  constructor
  · intro hj
    by_contra hnone
    have hmoved : ∀ k ∈ es.getKeys objects, j ≠ limitName k :=
      fun k hk heq => hnone ⟨k, hk, heq.symm⟩
    rw [mem_getKeys, getKey_foldl_clampEntry, Base.foldl_moveKey_of_notMem hmoved] at hj
    split at hj
    · cases hj
    · rename_i hold
      exact hold (mem_getKeys.mpr hj)
  · rintro ⟨k, hk, rfl⟩
    rw [mem_getKeys, getKey_clamped hnew hk, isNull_clampValue m hnested]
    exact mem_getKeys.mp hk

theorem length_getKeys_clamped {m : FixMode} (hnested : KeepsNull objects nested) {es : Entries}
    (hnew : ((es.getKeys objects).map limitName).Nodup) :
    (Entries.getKeys objects
        ((es.getKeys objects).foldl (clampEntry (LimitStats.of m) objects nested) es)).length =
      (es.getKeys objects).length := by
  have hperm : (Entries.getKeys objects
      ((es.getKeys objects).foldl (clampEntry (LimitStats.of m) objects nested) es)).Perm
      ((es.getKeys objects).map limitName) := by
    rw [List.perm_ext_iff_of_nodup (nodup_getKeys _) hnew]
    intro j
    rw [mem_getKeys_clamped hnested hnew, List.mem_map]
  rw [hperm.length_eq, List.length_map]

/-- Keys that are taken out of a dictionary. -/
theorem getKey_removeKeys (es : Entries) (ks : List Bytes) (j : Bytes) :
    (ks.foldl Entries.removeKey es).getKey j = if j ∈ ks then .null else es.getKey j := by
  induction ks generalizing es with
  | nil => rw [List.foldl_nil, if_neg List.not_mem_nil]
  | cons k ks ih =>
      rw [List.foldl_cons, ih, getKey_removeKey, Function.update_apply]
      by_cases hmem : j ∈ ks
      · rw [if_pos hmem, if_pos (List.mem_cons_of_mem _ hmem)]
      · rw [if_neg hmem]
        simp only [List.mem_cons, hmem, or_false]

theorem mem_getKeys_removeKeys {es : Entries} {ks : List Bytes} {j : Bytes}
    (h : j ∈ Entries.getKeys objects (ks.foldl Entries.removeKey es)) :
    j ∈ es.getKeys objects ∧ (ks.foldl Entries.removeKey es).getKey j = es.getKey j := by
  have hkey := getKey_removeKeys es ks j
  rw [mem_getKeys, hkey] at h
  rw [mem_getKeys, hkey]
  by_cases hmem : j ∈ ks
  · rw [if_pos hmem] at h
    cases h
  · rw [if_neg hmem] at h ⊢
    exact ⟨h, rfl⟩

/-- A stream without its external keys is no worse than before. -/
theorem keysKept_removeKeys {p : Bool} {es : Entries} {ks : List Bytes}
    (h : KeysKept st objects p (.stream es)) :
    KeysKept st objects false (.dict (ks.foldl Entries.removeKey es)) := by
  have hentry : ∀ {v k}, k ∈ Entries.getKeys objects (ks.foldl Entries.removeKey es) →
      Walked st objects false v ((ks.foldl Entries.removeKey es).getKey k) →
      Walked st objects p v (.stream es) := by
    intro v k hk hwalked
    obtain ⟨hold, hsame⟩ := mem_getKeys_removeKeys hk
    rw [hsame] at hwalked
    exact .stream (.entry hold hwalked)
  constructor
  · intro es' hwalked
    cases hwalked with
    | self =>
        refine List.Nodup.map_on ?_ (nodup_getKeys _)
        intro j hj k hk heq
        exact List.inj_on_of_nodup_map (h.apart es (.stream (.self _)))
          (mem_getKeys_removeKeys hj).1 (mem_getKeys_removeKeys hk).1 heq
    | entry hk hwalked => exact h.apart es' (hentry hk hwalked)
  · intro es' hwalked
    cases hwalked with
    | entry hk hwalked => exact h.internal es' (hentry hk hwalked)

/-- Taking out keys that are not there changes no keys. -/
theorem mem_getKeys_removeKeys_iff {es : Entries} {ks : List Bytes}
    (h : ∀ k ∈ ks, k ∉ es.getKeys objects) (j : Bytes) :
    j ∈ Entries.getKeys objects (ks.foldl Entries.removeKey es) ↔ j ∈ es.getKeys objects := by
  refine ⟨fun hj => (mem_getKeys_removeKeys hj).1, fun hj => ?_⟩
  have hstays : j ∉ ks := fun hmem => h j hmem hj
  rw [mem_getKeys, getKey_removeKeys, if_neg hstays]
  exact mem_getKeys.mp hj

/-- Two dictionaries with the same keys and values are brought within the limits alike. -/
theorem clampedTo_congr {es sd es' : Entries}
    (hmem : ∀ k, k ∈ sd.getKeys objects ↔ k ∈ es.getKeys objects)
    (hsame : ∀ k ∈ sd.getKeys objects, sd.getKey k = es.getKey k)
    (h : ClampedTo st objects false (.dict sd) (.dict es')) :
    ClampedTo st objects false (.dict es) (.dict es') := by
  cases h with
  | scalar h => cases h
  | same _ hleaf => cases hleaf
  | dict hcount hkeys h =>
      have hperm : (sd.getKeys objects).Perm (es.getKeys objects) :=
        (List.perm_ext_iff_of_nodup (nodup_getKeys _) (nodup_getKeys _)).mpr hmem
      refine .dict (hcount.trans hperm.length_eq) (fun j => ?_) fun k hk => ?_
      · rw [hkeys j]
        exact exists_congr fun k => and_congr_left' (hmem k)
      · rw [← hsame k ((hmem k).mpr hk)]
        exact h k ((hmem k).mpr hk)

/-- Nothing is nested in a number, string or name. -/
theorem fits_of_clampScalar {v nv : Node} (h : clampScalar st objects v = some nv) :
    Fits objects 0 v := by
  cases v with
  | array items => cases h
  | dict es => cases h
  | stream es => cases h
  | _ => trivial

theorem keysKept_of_leaf {p : Bool} {v : Node} (hleaf : Fits objects 0 v) :
    KeysKept st objects p v := by
  constructor
  · intro es hwalked
    cases hwalked with
    | self => cases hleaf
    | _ => cases hleaf
  · intro es hwalked
    cases hwalked with
    | self => cases hleaf
    | _ => cases hleaf

/-- The names of the keys are told apart if there are as many of them afterwards. -/
theorem nodup_of_count {es es' : Entries}
    (hcount : (es'.getKeys objects).length = (es.getKeys objects).length)
    (hkeys : ∀ j, j ∈ es'.getKeys objects ↔ ∃ k ∈ es.getKeys objects, limitName k = j) :
    ((es.getKeys objects).map limitName).Nodup := by
  have hperm : (es'.getKeys objects).Perm ((es.getKeys objects).map limitName).dedup := by
    rw [List.perm_ext_iff_of_nodup (nodup_getKeys _) (List.nodup_dedup _)]
    intro j
    rw [hkeys j, List.mem_dedup, List.mem_map]
  have hlength : ((es.getKeys objects).map limitName).dedup.length =
      ((es.getKeys objects).map limitName).length := by
    rw [← hperm.length_eq, hcount, List.length_map]
  rw [← List.dedup_eq_self]
  exact (List.dedup_sublist _).eq_of_length hlength

/-- A value of a dictionary or an array of which nothing is lost. -/
theorem keysKept_clampValue {v : Node} (h : ClampedTo st objects false v
      (clampValue st objects nested v))
    (hnested : ClampedTo st objects false v (nested v) → KeysKept st objects false v) :
    KeysKept st objects false v := by
  rw [clampValue] at h
  cases hscalar : clampScalar st objects v with
  | some nv => exact keysKept_of_leaf (fits_of_clampScalar hscalar)
  | none =>
      rw [hscalar] at h
      cases v with
      | indirect id => exact keysKept_of_leaf trivial
      | _ => exact hnested h

theorem keysKept_array {p : Bool} {items : List Node}
    (h : ∀ v ∈ clipItems st p items, KeysKept st objects false v) :
    KeysKept st objects p (.array items) := by
  constructor
  · intro es hwalked
    cases hwalked with
    | item hv hwalked => exact (h _ hv).apart es hwalked
  · intro es hwalked
    cases hwalked with
    | item hv hwalked => exact (h _ hv).internal es hwalked

theorem keysKept_dict {p : Bool} {es : Entries} (hnew : ((es.getKeys objects).map limitName).Nodup)
    (h : ∀ k ∈ es.getKeys objects, KeysKept st objects false (es.getKey k)) :
    KeysKept st objects p (.dict es) := by
  constructor
  · intro es' hwalked
    cases hwalked with
    | self => exact hnew
    | entry hk hwalked => exact (h _ hk).apart es' hwalked
  · intro es' hwalked
    cases hwalked with
    | entry hk hwalked => exact (h _ hk).internal es' hwalked

theorem keysKept_congr {es sd : Entries}
    (hmem : ∀ k, k ∈ sd.getKeys objects ↔ k ∈ es.getKeys objects)
    (hsame : ∀ k ∈ sd.getKeys objects, sd.getKey k = es.getKey k)
    (h : KeysKept st objects false (.dict sd)) : KeysKept st objects false (.dict es) := by
  have hperm : (sd.getKeys objects).Perm (es.getKeys objects) :=
    (List.perm_ext_iff_of_nodup (nodup_getKeys _) (nodup_getKeys _)).mpr hmem
  refine keysKept_dict ((hperm.map limitName).nodup_iff.mp (h.apart sd (.self _))) fun k hk => ?_
  have hold := (hmem k).mpr hk
  rw [← hsame k hold]
  exact ⟨fun es' hwalked => h.apart es' (.entry hold hwalked),
    fun es' hwalked => h.internal es' (.entry hold hwalked)⟩

theorem keysKept_stream {p : Bool} {es : Entries}
    (hnone : ∀ k ∈ externalKeys, k ∉ es.getKeys objects)
    (h : KeysKept st objects false (.dict es)) : KeysKept st objects p (.stream es) := by
  constructor
  · intro es' hwalked
    cases hwalked with
    | stream hwalked => exact h.apart es' hwalked
  · intro es' hwalked
    cases hwalked with
    | self => exact hnone
    | stream hwalked => exact h.internal es' hwalked

/-- No key becomes one of those that are taken out of a stream. -/
theorem external_not_clamped {n : Nat} {es : Entries} {k : Bytes} (hk : k ∈ externalKeys) :
    k ∉ Entries.getKeys objects (clampObjectLimits st objects n false
      (.dict (externalKeys.foldl Entries.removeKey es))).entries := by
  have hgone : k ∉ Entries.getKeys objects (externalKeys.foldl Entries.removeKey es) := by
    rw [mem_getKeys, getKey_removeKeys, if_pos hk]
    exact Bool.noConfusion
  cases n with
  | zero => exact hgone
  | succ n =>
      intro hj
      by_cases hmoved : ∃ k' ∈ Entries.getKeys objects (externalKeys.foldl Entries.removeKey es),
          k = limitName k'
      · obtain ⟨k', hk', heq⟩ := hmoved
        by_cases hlong : kMaxName + 1 < k'.length
        · have hlength := limitName_length_of_long hlong
          rw [← heq] at hlength
          have hshort : ∀ k ∈ externalKeys, k.length ≤ 20 := by decide
          have hle := hshort k hk
          have hname : kMaxName = 127 := rfl
          omega
        · rw [limitName_of_le (not_lt.mp hlong)] at heq
          exact hgone (heq ▸ hk')
      · have hout : ∀ k' ∈ Entries.getKeys objects (externalKeys.foldl Entries.removeKey es),
            k ≠ limitName k' := fun k' hk' heq => hmoved ⟨k', hk', heq⟩
        change k ∈ Entries.getKeys objects ((Entries.getKeys objects
          (externalKeys.foldl Entries.removeKey es)).foldl _ _) at hj
        rw [mem_getKeys, getKey_foldl_clampEntry, Base.foldl_moveKey_of_notMem hout] at hj
        split at hj
        · cases hj
        · exact hgone (mem_getKeys.mpr hj)

theorem fits_removeKeys {es : Entries} {ks : List Bytes} {n : Nat}
    (h : Fits objects n (.dict es)) : Fits objects n (.dict (ks.foldl Entries.removeKey es)) := by
  cases n with
  | zero => exact h
  | succ n =>
      rw [Fits] at h ⊢
      intro k hk
      obtain ⟨hold, hsame⟩ := mem_getKeys_removeKeys hk
      rw [hsame]
      exact h k hold

/-- An object that nothing is nested in has itself as its only part. -/
theorem within_of_leaf {o : Node} (hleaf : Fits objects 0 o)
    (h : ScalarWithin st (objects.resolve o)) : Within st objects o := by
  intro v hpart
  cases hpart with
  | self =>
      refine ⟨h, ?_⟩
      intro k hk
      cases o with
      | dict es => cases hleaf
      | _ => cases hk
  | _ => cases hleaf

/-- An object that was brought within the limits. -/
def Kept (m : FixMode) (objects : Objects) (p : Bool) (o o' : Node) : Prop :=
  ClampedTo (LimitStats.of m) objects p o o' ∧ Within (LimitStats.of m) objects o'

/-- A value of a dictionary or an array. -/
theorem kept_clampValue {m : FixMode} {v : Node}
    (hnested : objects.resolve v = v → ScalarWithin (LimitStats.of m) v →
      Kept m objects false v (nested v)) :
    Kept m objects false v (clampValue (LimitStats.of m) objects nested v) := by
  rw [clampValue]
  cases h : clampScalar (LimitStats.of m) objects v with
  | some nv =>
      obtain ⟨hwithin, hleaf, hresolve, -⟩ := within_of_clampScalar h
      refine ⟨.scalar h, within_of_leaf hleaf ?_⟩
      rw [hresolve]
      exact hwithin
  | none =>
      have hwithin := clampScalar_eq_none_iff.mp h
      cases v with
      | indirect id => exact ⟨.same hwithin trivial, within_of_leaf trivial hwithin⟩
      | _ => exact hnested rfl hwithin

theorem mem_of_mem_clipItems {p : Bool} {items : List Node} {v : Node}
    (hv : v ∈ clipItems st p items) : v ∈ items := by
  rw [clipItems] at hv
  split at hv
  · exact List.mem_of_mem_take hv
  · exact hv

theorem kept_array {m : FixMode} {p : Bool} {items : List Node}
    (h : ∀ v ∈ clipItems (LimitStats.of m) p items,
      Kept m objects false v (clampValue (LimitStats.of m) objects nested v)) :
    Kept m objects p (.array items)
      (.array ((clipItems (LimitStats.of m) p items).map
        (clampValue (LimitStats.of m) objects nested))) := by
  constructor
  · refine .array (List.forall₂_map_right_iff.mpr (List.forall₂_same.mpr ?_))
    intro v hv
    exact (h v hv).1
  · intro v hpart
    cases hpart with
    | self => exact ⟨trivial, fun k hk => by cases hk⟩
    | item hv hpart =>
        obtain ⟨w, hw, rfl⟩ := List.mem_map.mp hv
        exact (h w hw).2 v hpart

/-- A dictionary whose values are kept is kept under its shortened keys. -/
theorem kept_dict {m : FixMode} {p : Bool} {es : Entries} (hnested : KeepsNull objects nested)
    (hnew : ((es.getKeys objects).map limitName).Nodup)
    (h : ∀ k ∈ es.getKeys objects, Kept m objects false (es.getKey k)
      (clampValue (LimitStats.of m) objects nested (es.getKey k))) :
    Kept m objects p (.dict es)
      (.dict ((es.getKeys objects).foldl (clampEntry (LimitStats.of m) objects nested) es)) := by
  have hkeys := mem_getKeys_clamped (m := m) hnested hnew
  constructor
  · refine .dict (length_getKeys_clamped hnested hnew) hkeys ?_
    intro k hk
    rw [getKey_clamped hnew hk]
    exact (h k hk).1
  · intro v hpart
    cases hpart with
    | self =>
        refine ⟨trivial, ?_⟩
        intro j hj
        obtain ⟨k, -, rfl⟩ := (hkeys j).mp hj
        exact limitName_length k
    | entry hj hpart =>
        obtain ⟨k, hk, rfl⟩ := (hkeys _).mp hj
        rw [getKey_clamped hnew hk] at hpart
        exact (h k hk).2 v hpart

theorem clampObjectLimits_dict (n : Nat) (p : Bool) (es : Entries) :
    clampObjectLimits st objects n p (.dict es) =
      .dict (clampObjectLimits st objects n p (.dict es)).entries := by
  cases n <;> rfl

theorem kept_stream {m : FixMode} {p : Bool} {es es' : Entries}
    (hnone : ∀ k ∈ externalKeys, k ∉ es.getKeys objects)
    (h : Kept m objects false (.dict (externalKeys.foldl Entries.removeKey es)) (.dict es')) :
    Kept m objects p (.stream es) (.stream es') := by
  refine ⟨.stream (clampedTo_congr (mem_getKeys_removeKeys_iff hnone)
    (fun k hk => (mem_getKeys_removeKeys hk).2) h.1), ?_⟩
  intro v hpart
  cases hpart with
  | self => exact ⟨trivial, fun k hk => by cases hk⟩
  | stream hpart => exact h.2 v hpart

/-- What is nested in at most as many levels as are left is brought within the limits. -/
theorem kept_clampObjectLimits (m : FixMode) (n : Nat) :
    ∀ (p : Bool) (o : Node), objects.resolve o = o → Fits objects n o →
      KeysKept (LimitStats.of m) objects p o → ScalarWithin (LimitStats.of m) o →
      Kept m objects p o (clampObjectLimits (LimitStats.of m) objects n p o) := by
  induction n with
  | zero =>
      intro p o hdirect hfits hkeys hwithin
      have hscalar : ScalarWithin (LimitStats.of m) (objects.resolve o) := hdirect.symm ▸ hwithin
      exact ⟨.same hscalar hfits, within_of_leaf hfits hscalar⟩
  | succ n ih =>
      intro p o hdirect hfits hkeys hwithin
      cases o with
      | array items =>
          refine kept_array fun v hv => kept_clampValue fun hdirect' hwithin' => ?_
          have hitem : KeysKept (LimitStats.of m) objects false v :=
            ⟨fun es hwalked => hkeys.apart es (.item hv hwalked),
              fun es hwalked => hkeys.internal es (.item hv hwalked)⟩
          exact ih false v hdirect' (hfits v (mem_of_mem_clipItems hv)) hitem hwithin'
      | dict es =>
          refine kept_dict (keepsNull_clampObjectLimits n false) (hkeys.apart es (.self _)) ?_
          refine fun k hk => kept_clampValue fun hdirect' hwithin' => ?_
          have hvalue : KeysKept (LimitStats.of m) objects false (Entries.getKey es k) :=
            ⟨fun es hwalked => hkeys.apart es (.entry hk hwalked),
              fun es hwalked => hkeys.internal es (.entry hk hwalked)⟩
          exact ih false _ hdirect' (hfits k hk) hvalue hwithin'
      | stream es =>
          refine kept_stream (hkeys.internal es (.self _)) ?_
          rw [← clampObjectLimits_dict]
          exact ih false _ rfl (fits_removeKeys hfits) (keysKept_removeKeys hkeys) trivial
      | _ =>
          have hscalar := hdirect.symm ▸ hwithin
          exact ⟨.same hscalar trivial, within_of_leaf trivial hscalar⟩

/-- If no entry is lost, the keys are apart and none of them is taken out. -/
theorem keysKept_of_clampedTo (n : Nat) :
    ∀ (p : Bool) (o : Node), Fits objects n o →
      ClampedTo st objects p o (clampObjectLimits st objects n p o) → KeysKept st objects p o := by
  induction n with
  | zero => exact fun p o hfits _ => keysKept_of_leaf hfits
  | succ n ih =>
      intro p o hfits h
      have hvalue : ∀ v, Fits objects n v → ClampedTo st objects false v
          (clampValue st objects (clampObjectLimits st objects n false) v) →
          KeysKept st objects false v := fun v hv h => keysKept_clampValue h (ih false v hv)
      generalize hout : clampObjectLimits st objects (n + 1) p o = out at h
      cases h with
      | scalar h => exact keysKept_of_leaf (fits_of_clampScalar h)
      | same _ hleaf => exact keysKept_of_leaf hleaf
      | array h =>
          rw [← Node.array.inj hout] at h
          have hall := List.forall₂_same.mp (List.forall₂_map_right_iff.mp h)
          exact keysKept_array fun v hv => hvalue v (hfits v (mem_of_mem_clipItems hv)) (hall v hv)
      | dict hcount hkeys h =>
          have hnew := nodup_of_count hcount hkeys
          rw [← Node.dict.inj hout] at h
          refine keysKept_dict hnew fun k hk => hvalue _ (hfits k hk) ?_
          have hclamped := h k hk
          rwa [getKey_clamped hnew hk] at hclamped
      | stream h =>
          rename_i es es'
          have hentries := Node.stream.inj hout
          have hnone : ∀ k ∈ externalKeys, k ∉ es.getKeys objects := by
            intro k hk hmem
            have hshort : ∀ k ∈ externalKeys, k.length ≤ kMaxName + 1 := by decide
            have hstays : k ∈ es'.getKeys objects := by
              cases h with
              | scalar h => cases h
              | same _ hleaf => cases hleaf
              | dict _ hkeys _ => exact (hkeys k).mpr ⟨k, hmem, limitName_of_le (hshort k hk)⟩
            rw [← hentries] at hstays
            exact external_not_clamped hk hstays
          have hmem := mem_getKeys_removeKeys_iff hnone
          have hsame : ∀ k ∈ es.getKeys objects,
              Entries.getKey es k = (externalKeys.foldl Entries.removeKey es).getKey k :=
            fun k hk => (mem_getKeys_removeKeys ((hmem k).mpr hk)).2.symm
          have hdict := clampedTo_congr (fun k => (hmem k).symm) hsame h
          rw [← hentries, ← clampObjectLimits_dict] at hdict
          have hkept := ih false _ (fits_removeKeys hfits) hdict
          exact keysKept_stream hnone
            (keysKept_congr hmem (fun k hk => (hsame k ((hmem k).mp hk)).symm) hkept)

/-- An object of the file is brought within the limits without a loss exactly if its keys allow
it. -/
theorem kept_limitObject_iff (m : FixMode) {p : Bool} {o : Node}
    (hdirect : o.isIndirect = false) (hfits : Fits objects kMaxNest o) :
    Kept m objects p o (limitObject (LimitStats.of m) objects p o) ↔
      KeysKept (LimitStats.of m) objects p o := by
  have hleaf : objects.resolve o = o → Fits objects 0 o →
      (Kept m objects p o ((clampScalar (LimitStats.of m) objects o).getD o) ↔
        KeysKept (LimitStats.of m) objects p o) := by
    intro hresolve hleaf
    refine iff_of_true ?_ (keysKept_of_leaf hleaf)
    cases h : clampScalar (LimitStats.of m) objects o with
    | some nv =>
        obtain ⟨hwithin, hleaf', hresolve', -⟩ := within_of_clampScalar h
        exact ⟨.scalar h, within_of_leaf hleaf' (hresolve'.symm ▸ hwithin)⟩
    | none =>
        have hwithin := clampScalar_eq_none_iff.mp h
        exact ⟨.same hwithin hleaf, within_of_leaf hleaf hwithin⟩
  cases o with
  | indirect id => cases hdirect
  | real text => exact hleaf rfl trivial
  | integer n => exact hleaf rfl trivial
  | string s => exact hleaf rfl trivial
  | name n => exact hleaf rfl trivial
  | _ =>
      refine ⟨fun h => keysKept_of_clampedTo kMaxNest p _ hfits h.1, fun h => ?_⟩
      exact kept_clampObjectLimits m kMaxNest p _ rfl hfits h trivial

/-- Objects lose nothing exactly if their dictionaries keep their keys apart and nothing is taken
out of a stream, and their keys agree with the names of content streams outside of images. -/
theorem limits_kept_iff (q : Qpdf) (m : FixMode) (hlimits : m.limits = true) (objects : Objects)
    (p : Bool) (o : Node) (hdirect : o.isIndirect = false) (hfits : Fits objects kMaxNest o) :
    (ClampedTo (LimitStats.of m) objects p o (limitObject (LimitStats.of m) objects p o) ∧
        Within (LimitStats.of m) objects (limitObject (LimitStats.of m) objects p o) ↔
      KeysKept (LimitStats.of m) objects p o) ∧
    ∀ (pre post : List Token) (t : Token), t.type = .name →
      (ContentFixFilter.run q m pre).inImageDict = false → ContentFixFilter.NoIntent post →
      ∃ w, w.value = limitName t.value ∧ (ContentFixFilter.run q m pre).text ++ [w] <+:
        (ContentFixFilter.filterTokens q m (pre ++ t :: post)).out := by
  refine ⟨kept_limitObject_iff m hdirect hfits, ?_⟩
  intro pre post t ht houtside hnext
  refine ⟨ContentFixFilter.limitedName q m t, ?_,
    ContentFixFilter.limitedName_written pre post ht houtside hnext⟩
  rw [ContentFixFilter.limitedName, limitName]
  by_cases hlong : kMaxName + 1 < t.value.length
  · rw [if_pos ⟨hlimits, hlong⟩, if_pos hlong]
    rfl
  · rw [if_neg (fun h => hlong h.2), if_neg hlong]

/-- Resources with one name that is too long. -/
def longNamed : Node :=
  .dict [(lit "/" ++ List.replicate 128 0x41, .array [.real (lit "40000.5"), .indirect 1]),
    (lit "/B", .string [])]

theorem longNamed_keys {k : Bytes} (hk : k ∈ longNamed.entries.getKeys fun _ => .null) :
    longNamed.entries.getKey k = .array [.real (lit "40000.5"), .indirect 1] ∨
      longNamed.entries.getKey k = .string [] := by
  have hkeys : Entries.getKeys (fun _ => .null) longNamed.entries =
      [lit "/" ++ List.replicate 128 0x41, lit "/B"] := by decide
  rw [hkeys] at hk
  obtain rfl | hk := List.mem_cons.mp hk
  · exact Or.inl rfl
  · rw [List.mem_singleton.mp hk]
    exact Or.inr rfl

set_option maxRecDepth 8000 in
theorem longNamed_kept :
    (FixMode.limits ⟨true, false, false⟩ = true ∧ longNamed.isIndirect = false ∧
      Fits (fun _ => .null) kMaxNest longNamed ∧
      KeysKept (LimitStats.of ⟨true, false, false⟩) (fun _ => .null) false longNamed) ∧
    Within (LimitStats.of ⟨true, false, false⟩) (fun _ => .null)
      (limitObject (LimitStats.of ⟨true, false, false⟩) (fun _ => .null) false longNamed) := by
  have hfits : Fits (fun _ => .null) kMaxNest longNamed := by
    intro k hk
    obtain h | h := longNamed_keys hk
    · change Fits _ 199 (longNamed.entries.getKey k)
      rw [h]
      intro v hv
      obtain rfl | hv := List.mem_cons.mp hv
      · exact trivial
      · rw [List.mem_singleton.mp hv]
        exact trivial
    · change Fits _ 199 (longNamed.entries.getKey k)
      rw [h]
      exact trivial
  have hkeys : KeysKept (LimitStats.of ⟨true, false, false⟩) (fun _ => .null) false longNamed := by
    refine keysKept_dict (by decide) fun k hk => ?_
    obtain h | h := longNamed_keys hk
    · change KeysKept _ _ _ (longNamed.entries.getKey k)
      rw [h]
      refine keysKept_array fun v hv => keysKept_of_leaf ?_
      obtain rfl | hv := List.mem_cons.mp (mem_of_mem_clipItems hv)
      · exact trivial
      · rw [List.mem_singleton.mp hv]
        exact trivial
    · change KeysKept _ _ _ (longNamed.entries.getKey k)
      rw [h]
      exact keysKept_of_leaf trivial
  have hall := (limits_kept_iff PlainPdf.library ⟨true, false, false⟩ rfl (fun _ => .null) false
    longNamed rfl hfits).1.mpr hkeys
  exact ⟨⟨rfl, rfl, hfits, hkeys⟩, hall.2⟩

/-- Resources with a name that is too long and the name that it is shortened to. -/
def crossed : Node :=
  .dict [(lit "/" ++ List.replicate 128 0x41, .integer 1),
    (limitName (lit "/" ++ List.replicate 128 0x41), .integer 2)]

/-- An inline image whose colour space has a name that is too long. -/
def longSpace : List Token :=
  [.op "BI", .blank, .plain .name (lit "/W"), .blank, .plain .integer (lit "1"), .blank,
    .plain .name (lit "/H"), .blank, .plain .integer (lit "1"), .blank,
    .plain .name (lit "/CS"), .blank, .plain .name (lit "/" ++ List.replicate 128 0x41), .blank,
    .op "ID", .newline, .plain .inlineImage [0xFF, 0x0A], .op "EI", .newline]

set_option maxRecDepth 8000 in
/-- One of two entries is lost, and the name in the image is written as it was read. -/
theorem crossed_lost :
    (Entries.getKeys (fun _ => .null)
        (limitObject (LimitStats.of ⟨true, false, false⟩) (fun _ => .null) false
          crossed).entries).length <
      (crossed.entries.getKeys fun _ => .null).length ∧
    ∃ w ∈ (ContentFixFilter.filterTokens PlainPdf.library ⟨true, false, false⟩ longSpace).out,
      w.type = .name ∧ w.value = lit "/" ++ List.replicate 128 0x41 := by
  decide

end Kura.Engine.Limits
