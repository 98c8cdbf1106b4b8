import Kura.Engine.ProfileParse
import Kura.Engine.JsonTrip
import Kura.Base.PrefixCode

/-!
# Fixes kept to the pages of checks

A fix of a profile may name checks in `only_where`; it then runs on the pages
where one of them was hit. The names are looked up in the index of rules, once
when the profile is read and again when its fixes are scheduled, and the pages
of hits are kept under the ids of rules.

## Implementation notes

Of the options only the scheduled operations are modelled. Some fixes set other
options instead and never come to the pages. What a rule finds is given, as in
the reports of hits. Whether an output intent is set depends on the profiles
that are installed, and is a parameter.
-/

namespace Kura.Engine.OnlyWhere

open Kura.Base (assign assign_append assign_cons assign_of_mem assign_last)
open Kura.Base.Json (toDigits_injective)
open Kura.Engine.Profile Kura.Engine.ProfileParse
open Kura.Engine.RuleHits (Found admitted)

/-- The fixes that run over pages. -/
def fixTable : List String :=
  ["annotation.handle", "bleed.around_shape", "bleed.generate", "color.embed_measurements",
    "color.icc_to_device", "color.icc_to_v2", "color.map", "color.nchannel_to_devicen",
    "color.process_to_spot", "color.split_devicen", "color.to_library_spot",
    "content.bring_to_front", "content.fill_as_stroke", "content.fix_negative_dash",
    "content.remove_outside", "content.smooth_lines_to_curves", "document.associate_files",
    "document.remove_conformance_claim", "document.set_info", "document.set_view",
    "font.rename", "form.generate_appearances", "graphics.remove", "graphics.set",
    "image.expand_filter_names", "image.merge_fragments", "image.recompress",
    "image.set_interpolation", "image.sharpen", "ink.dot_gain", "ink.knockout_white",
    "ink.min_line_width", "ink.overprint_black", "ink.white_plate", "layer.flatten",
    "layer.move_objects", "layer.set", "link.from_text", "metadata.uncompress_xmp",
    "outline.from_headings", "outline.repair", "output_intent.remove_profile",
    "output_intent.set", "page.add_marks", "page.crop_to", "page.mirror", "page.move_origin",
    "page.rasterize", "page.remove_user_unit", "page.repair_resources", "page.rotate",
    "page.scale", "page.set_box", "place.barcode", "place.circle", "place.html", "place.pdf",
    "place.rectangle", "place.text", "spot.normalise_names", "spot.registration_to_black",
    "spot.rename", "spot.unify_definitions", "structure.actual_text_for_symbols",
    "structure.mark_header_footer", "structure.resolve_role_map", "text.add_invisible_copy",
    "text.set_render_mode", "transparency.flatten", "transparency.remove_unneeded_groups",
    "transparency.set_blend_space"]

def isContentFix (id : String) : Bool := fixTable.contains id

/-- The fixes that set options of the conversion. -/
def optionFixes : List String :=
  ["color.convert", "image.downsample", "image.upsample", "font.to_outlines", "document.linearize"]

/-- The operations on pages, and the rules that keep some of them to pages. -/
structure Options where
  profileFixOps : List (String × VarMap) := []
  profileFixRules : Nat → Option (List String) := fun _ => none

section

variable (scheduleOutputIntent : PfFix → Bool) (p : PfProfile)

/-- Whether a fix becomes an operation on pages. -/
def onPages (f : PfFix) : Bool :=
  decide (0 ≤ f.fix) && !optionFixes.contains f.id && isContentFix f.id &&
    (f.id ≠ "output_intent.set" || scheduleOutputIntent f)

/-- The ids of the rules that the names of a fix are found at. -/
def ruleIds (f : PfFix) : List String := f.onlyWhere.filterMap fun n => (p.ruleIndex n).map (·.id)

/-- Schedules one fix. -/
def applyFix (opt : Options) (f : PfFix) : Options :=
  if onPages scheduleOutputIntent f then
    { profileFixOps := opt.profileFixOps ++ [(f.id, f.args)]
      profileFixRules :=
        if ruleIds p f = [] then opt.profileFixRules
        else Function.update opt.profileFixRules opt.profileFixOps.length (some (ruleIds p f)) }
  else opt

def applyProfileFixes : Options := p.fixes.foldl (applyFix scheduleOutputIntent p) {}

end

/-- The pages that a report of a rule leaves behind; a report without pages leaves page zero. -/
def hitPages (found : PfRule → Found) (r : PfRule) : List Int :=
  let (hits, pages) := admitted r.toPfRule (found r)
  if hits = 0 then [] else if pages = [] then [0] else pages

/-- The pages of hits under the ids of rules. -/
def ruleHitPages (found : PfRule → Found) (rules : List PfRule) : String → List Int :=
  rules.foldl (fun m r => Function.update m r.id (m r.id ++ hitPages found r)) fun _ => []

/-- What comes of an operation: it runs on pages, or its checks found nothing. -/
inductive Outcome where
  | done (id : String) (pages : List Nat)
  | notNeeded (id : String)
  deriving DecidableEq

/-- An operation on the pages that it is kept to. -/
def keptTo (id : String) (pages : List Nat) : Outcome :=
  if pages = [] then .notNeeded id else .done id pages

/-- Whether a page is among pages of hits, where page zero stands for all pages. -/
def onPage (hit : List Int) (k : Nat) : Bool := hit.contains 0 || hit.contains (k + 1 : Int)

/-- One operation, with the rules that keep it to pages. -/
def runOp (hits : String → List Int) (count : Nat) (id : String) : Option (List String) → Outcome
  | none => .done id (List.range count)
  | some [] => .done id (List.range count)
  | some (rid :: rids) =>
      keptTo id ((List.range count).filter (onPage ((rid :: rids).flatMap hits)))

/-- The operations from a position on. -/
def runFrom (opt : Options) (hits : String → List Int) (count : Nat) :
    Nat → List (String × VarMap) → List Outcome
  | _, [] => []
  | fi, op :: ops =>
      (if isContentFix op.1 then [runOp hits count op.1 (opt.profileFixRules fi)] else []) ++
        runFrom opt hits count (fi + 1) ops

def passProfileFixups (opt : Options) (hits : String → List Int) (count : Nat) : List Outcome :=
  runFrom opt hits count 0 opt.profileFixOps

/-- A later check is given an id that is the name of a check. -/
def Shadowed (p : PfProfile) (r : PfRule) : Prop :=
  ∃ i j, i < j ∧ p.rules[i]? = some r ∧ j < p.rules.length ∧ r.name = ruleId j

theorem ruleId_injective {i j : Nat} (h : ruleId i = ruleId j) : i = j := by
  have hlists := congrArg String.toList h
  simp only [ruleId, String.toList_append, List.append_cancel_left_eq] at hlists
  have hdigits : Nat.toDigits 10 (i + 1) = Nat.toDigits 10 (j + 1) := by
    simpa [toString, Nat.repr] using hlists
  exact Nat.succ_injective (toDigits_injective hdigits)

section

variable {p : PfProfile} {names : List String}

theorem eq_of_name_eq (hp : Indexed p names) {i j : Nat} {r s : PfRule}
    (hr : p.rules[i]? = some r) (hs : p.rules[j]? = some s) (h : r.name = s.name) : i = j := by
  have hi : i < (p.rules.map fun r => r.name).length := by
    simpa using (List.getElem?_eq_some_iff.mp hr).1
  refine (List.getElem?_inj hi hp.nodup).mp ?_
  rw [List.getElem?_map, List.getElem?_map, hr, hs, Option.map_some, Option.map_some, h]

/-- The position of a rule is unique. -/
theorem position_unique (hp : Indexed p names) {i j : Nat} {r : PfRule}
    (hi : p.rules[i]? = some r) (hj : p.rules[j]? = some r) : i = j :=
  ruleId_injective ((hp.ids i r hi).symm.trans (hp.ids j r hj))

/-- A key of a later rule is its id or its name. -/
theorem mem_later_iff {rules : List PfRule} {i : Nat} {k : String} {s : PfRule} :
    (k, s) ∈ (rules.drop (i + 1)).flatMap keysOf ↔
      ∃ j, i < j ∧ rules[j]? = some s ∧ (k = s.id ∨ k = s.name) := by
  simp only [List.mem_flatMap, keysOf, List.mem_cons, List.not_mem_nil, or_false, Prod.mk.injEq]
  constructor
  · rintro ⟨t, ht, hkey⟩
    obtain ⟨n, hn⟩ := List.mem_iff_getElem?.mp ht
    rw [List.getElem?_drop] at hn
    obtain ⟨hk, rfl⟩ | ⟨hk, rfl⟩ := hkey
    · exact ⟨i + 1 + n, by omega, hn, .inl hk⟩
    · exact ⟨i + 1 + n, by omega, hn, .inr hk⟩
  · rintro ⟨j, hij, hs, hkey⟩
    refine ⟨s, List.mem_iff_getElem?.mpr ⟨j - (i + 1), ?_⟩, ?_⟩
    · rw [List.getElem?_drop, ← hs]
      congr 1
      omega
    · exact hkey.imp (fun h => ⟨h, rfl⟩) fun h => ⟨h, rfl⟩

/-- The assignments up to the name of a rule and those behind it. -/
theorem index_split (hp : Indexed p names) {i : Nat} {r : PfRule} (hr : p.rules[i]? = some r) :
    p.ruleIndex = assign (fun _ => none) (((p.rules.take i).flatMap keysOf ++ [(r.id, r)]) ++
      (r.name, r) :: (p.rules.drop (i + 1)).flatMap keysOf) := by
  obtain ⟨hi, hget⟩ := List.getElem?_eq_some_iff.mp hr
  have hrules : p.rules = p.rules.take i ++ r :: p.rules.drop (i + 1) := by
    rw [← hget, ← List.drop_eq_getElem_cons hi, List.take_append_drop]
  have hkeys : p.rules.flatMap keysOf =
      (p.rules.take i ++ r :: p.rules.drop (i + 1)).flatMap keysOf := congrArg _ hrules
  rw [hp.index, hkeys]
  simp [keysOf]

/-- The name of a check leads to its rule unless a later id is that name. -/
theorem ruleIndex_name_iff (hp : Indexed p names) {r : PfRule} (hr : r ∈ p.rules) :
    p.ruleIndex r.name = some r ↔ ¬ Shadowed p r := by
  obtain ⟨i, hi⟩ := List.mem_iff_getElem?.mp hr
  rw [index_split hp hi]
  constructor
  · rintro hlookup ⟨i', j, hij, hi', hj, hname⟩
    obtain rfl := position_unique hp hi hi'
    obtain ⟨s, hs⟩ : ∃ s, p.rules[j]? = some s := ⟨_, List.getElem?_eq_getElem hj⟩
    -- the assignment under the later id is behind the one under the name
    have hlater : (r.name, s) ∈ (p.rules.drop (i + 1)).flatMap keysOf :=
      mem_later_iff.mpr ⟨j, hij, hs, .inl (hname.trans (hp.ids j s hs).symm)⟩
    rw [assign_append, assign_cons] at hlookup
    obtain ⟨t, ht, heq⟩ := assign_of_mem hlater
    rw [heq, Option.some.injEq] at hlookup
    subst hlookup
    obtain ⟨k, hik, hk, -⟩ := mem_later_iff.mp ht
    have hpos := position_unique hp hi hk
    omega
  · intro hclear
    apply assign_last
    rintro ⟨k, s⟩ hmem rfl
    obtain ⟨j, hij, hs, hid | hname⟩ := mem_later_iff.mp hmem
    · have hj := (List.getElem?_eq_some_iff.mp hs).1
      exact hclear ⟨i, j, hij, hi, hj, hid.trans (hp.ids j s hs)⟩
    · have hpos := eq_of_name_eq hp hi hs hname
      omega

end

section

variable {scheduleOutputIntent : PfFix → Bool} {p : PfProfile} {hits : String → List Int}
  {count : Nat}

/-- What comes of one fix. -/
def outcome (scheduleOutputIntent : PfFix → Bool) (p : PfProfile) (hits : String → List Int)
    (count : Nat) (f : PfFix) : Option Outcome :=
  if onPages scheduleOutputIntent f then some (runOp hits count f.id (some (ruleIds p f)))
  else none

/-- No rules are kept for operations that are not there yet. -/
def Fresh (opt : Options) : Prop :=
  ∀ fi, opt.profileFixOps.length ≤ fi → opt.profileFixRules fi = none

theorem runFrom_append (opt : Options) (fi : Nat) (ops ops' : List (String × VarMap)) :
    runFrom opt hits count fi (ops ++ ops') =
      runFrom opt hits count fi ops ++ runFrom opt hits count (fi + ops.length) ops' := by
  induction ops generalizing fi with
  | nil => simp [runFrom]
  | cons op ops ih =>
      rw [List.cons_append, runFrom, runFrom, ih, List.length_cons, List.append_assoc,
        Nat.add_right_comm, Nat.add_assoc]

/-- Operations see their own rules only. -/
theorem runFrom_congr {opt opt' : Options} {fi : Nat} {ops : List (String × VarMap)}
    (h : ∀ k, fi ≤ k → k < fi + ops.length → opt.profileFixRules k = opt'.profileFixRules k) :
    runFrom opt hits count fi ops = runFrom opt' hits count fi ops := by
  induction ops generalizing fi with
  | nil => rfl
  | cons op ops ih =>
      rw [List.length_cons] at h
      rw [runFrom, runFrom, h fi le_rfl (by omega), ih fun k hle hlt => h k (by omega) (by omega)]

theorem isContentFix_of_onPages {f : PfFix} (h : onPages scheduleOutputIntent f = true) :
    isContentFix f.id = true := by
  simp only [onPages, Bool.and_eq_true] at h
  exact h.1.2

theorem applyFix_of_onPages {opt : Options} {f : PfFix}
    (h : onPages scheduleOutputIntent f = true) :
    applyFix scheduleOutputIntent p opt f =
      { profileFixOps := opt.profileFixOps ++ [(f.id, f.args)]
        profileFixRules :=
          if ruleIds p f = [] then opt.profileFixRules
          else Function.update opt.profileFixRules opt.profileFixOps.length
            (some (ruleIds p f)) } :=
  if_pos h

theorem Fresh.applyFix {opt : Options} (hopt : Fresh opt) (f : PfFix) :
    Fresh (applyFix scheduleOutputIntent p opt f) := by
  by_cases hf : onPages scheduleOutputIntent f = true
  · rw [applyFix_of_onPages hf]
    intro fi hfi
    rw [List.length_append, List.length_singleton] at hfi
    dsimp only
    split
    · exact hopt fi (by omega)
    · rw [Function.update_of_ne (by omega)]
      exact hopt fi (by omega)
  · rw [OnlyWhere.applyFix, if_neg hf]
    exact hopt

/-- Scheduling a fix adds what comes of it to the run. -/
theorem pass_applyFix {opt : Options} (hopt : Fresh opt) (f : PfFix) :
    passProfileFixups (applyFix scheduleOutputIntent p opt f) hits count =
      passProfileFixups opt hits count ++
        (outcome scheduleOutputIntent p hits count f).toList := by
  by_cases hf : onPages scheduleOutputIntent f = true
  · rw [applyFix_of_onPages hf, passProfileFixups, runFrom_append, outcome, if_pos hf]
    congr 1
    · apply runFrom_congr
      intro k _ hlt
      dsimp only
      split
      · rfl
      · exact Function.update_of_ne (by omega) _ _
    · rw [runFrom, if_pos (isContentFix_of_onPages hf), runFrom, List.append_nil, Nat.zero_add,
        Option.toList_some]
      dsimp only
      split
      · rename_i hnone
        rw [hopt _ le_rfl, hnone]
        rfl
      · rw [Function.update_self]
  · rw [applyFix, if_neg hf, outcome, if_neg hf, Option.toList_none, List.append_nil]

/-- Scheduling fixes adds what comes of each of them, in their order. -/
theorem pass_foldl {opt : Options} (hopt : Fresh opt) (fs : List PfFix) :
    passProfileFixups (fs.foldl (applyFix scheduleOutputIntent p) opt) hits count =
      passProfileFixups opt hits count ++
        fs.filterMap (outcome scheduleOutputIntent p hits count) := by
  induction fs generalizing opt with
  | nil => simp
  | cons f fs ih =>
      rw [List.foldl_cons, ih (hopt.applyFix f), pass_applyFix hopt f, List.append_assoc]
      congr 1
      cases hout : outcome scheduleOutputIntent p hits count f with
      | none => rw [List.filterMap_cons_none hout, Option.toList_none, List.nil_append]
      | some o => rw [List.filterMap_cons_some hout, Option.toList_some, List.singleton_append]

/-- The run of a profile with some fixes is what comes of them. -/
theorem pass_applyProfileFixes (p : PfProfile) (fixes : List PfFix) :
    passProfileFixups (applyProfileFixes scheduleOutputIntent { p with fixes }) hits count =
      fixes.filterMap (outcome scheduleOutputIntent p hits count) :=
  pass_foldl (fun _ _ => rfl) fixes

end

section

variable {p : PfProfile} {names : List String} {found : PfRule → Found}

theorem mem_foldl_hitPages {m : String → List Int} {rules : List PfRule} {id : String} {x : Int} :
    x ∈ rules.foldl (fun m r => Function.update m r.id (m r.id ++ hitPages found r)) m id ↔
      x ∈ m id ∨ ∃ r ∈ rules, r.id = id ∧ x ∈ hitPages found r := by
  induction rules generalizing m with
  | nil => simp
  | cons r rules ih =>
      rw [List.foldl_cons, ih, List.exists_mem_cons_iff]
      by_cases hid : r.id = id
      · subst hid
        rw [Function.update_self, List.mem_append, or_assoc]
        simp
      · rw [Function.update_of_ne (Ne.symm hid)]
        simp [hid]

/-- Under the id of a rule are the pages of its own hits. -/
theorem mem_ruleHitPages (hp : Indexed p names) {r : PfRule} (hr : r ∈ p.rules) {x : Int} :
    x ∈ ruleHitPages found p.rules r.id ↔ x ∈ hitPages found r := by
  rw [ruleHitPages, mem_foldl_hitPages]
  constructor
  · rintro (hnone | ⟨s, hs, hid, hx⟩)
    · cases hnone
    · obtain ⟨i, hi⟩ := List.mem_iff_getElem?.mp hr
      obtain ⟨j, hj⟩ := List.mem_iff_getElem?.mp hs
      rw [hp.ids j s hj, hp.ids i r hi] at hid
      obtain rfl := ruleId_injective hid
      rw [hi, Option.some.injEq] at hj
      exact hj ▸ hx
  · intro hx
    exact .inr ⟨r, hr, rfl, hx⟩

theorem onPage_iff {hit : List Int} {k : Nat} :
    onPage hit k = true ↔ 0 ∈ hit ∨ (k + 1 : Int) ∈ hit := by simp [onPage]

/-- The pages where one of some checks was hit. -/
def pagesWhere (found : PfRule → Found) (cs : List PfRule) (count : Nat) : List Nat :=
  (List.range count).filter fun k => cs.any fun r => onPage (hitPages found r) k

/-- The pages of the hits are the pages where a named check hit. -/
theorem filter_onPage (hp : Indexed p names) {cs : List PfRule} (hcs : ∀ r ∈ cs, r ∈ p.rules)
    (count : Nat) :
    (List.range count).filter
        (onPage ((cs.map fun r => r.id).flatMap (ruleHitPages found p.rules))) =
      pagesWhere found cs count := by
  apply List.filter_congr
  intro k _
  have hmem : ∀ x, x ∈ (cs.map fun r => r.id).flatMap (ruleHitPages found p.rules) ↔
      ∃ r ∈ cs, x ∈ hitPages found r := by
    intro x
    rw [List.flatMap_map, List.mem_flatMap]
    exact exists_congr fun r => and_congr_right fun hr => mem_ruleHitPages hp (hcs r hr)
  rw [Bool.eq_iff_iff, onPage_iff, hmem, hmem, List.any_eq_true]
  constructor
  · rintro (⟨r, hr, hx⟩ | ⟨r, hr, hx⟩)
    · exact ⟨r, hr, onPage_iff.mpr (.inl hx)⟩
    · exact ⟨r, hr, onPage_iff.mpr (.inr hx)⟩
  · rintro ⟨r, hr, hk⟩
    obtain hx | hx := onPage_iff.mp hk
    · exact .inl ⟨r, hr, hx⟩
    · exact .inr ⟨r, hr, hx⟩

end

section

variable {reg : Registry} {scheduleOutputIntent : PfFix → Bool} {p : PfProfile}
  {names : List String} {cs : List PfRule}

/-- A fix that names checks. -/
def naming (f : PfFix) (cs : List PfRule) : PfFix := { f with onlyWhere := cs.map fun r => r.name }

/-- The names of checks lead to their rules, are accepted in `only_where`, and keep a fix to the
pages where one of these checks was hit. -/
structure ResolvesByName (reg : Registry) (scheduleOutputIntent : PfFix → Bool) (p : PfProfile)
    (cs : List PfRule) (f : PfFix) : Prop where
  indexed : ∀ r ∈ cs, p.ruleIndex r.name = some r
  accepted : ∀ path, onlyWhere reg p.ruleIndex path (.arr (cs.map fun r => .str r.name)) =
    .ok (cs.map fun r => r.name)
  filtered : ∀ (found : PfRule → Found) (count : Nat) (before after : List PfFix),
    let run fixes := passProfileFixups (applyProfileFixes scheduleOutputIntent { p with fixes })
      (ruleHitPages found p.rules) count
    run (before ++ naming f cs :: after) =
      run before ++ keptTo f.id (pagesWhere found cs count) :: run after

/-- Names that find their own rules are accepted as they are. -/
theorem onlyWhere_of_indexed (h : ∀ r ∈ cs, p.ruleIndex r.name = some r) (path : String) :
    onlyWhere reg p.ruleIndex path (.arr (cs.map fun r => .str r.name)) =
      .ok (cs.map fun r => r.name) := by
  have hlist : scalarList reg (.arr (cs.map fun r => .str r.name)) =
      some (cs.map fun r => r.name) := by
    simp only [scalarList]
    induction cs with
    | nil => rfl
    | cons r cs ih =>
        have htail := ih fun s hs => h s (List.mem_cons_of_mem _ hs)
        simp [scalarText, htail]
  have hfind : (cs.map fun r => r.name).find?
      (fun n => !(p.ruleIndex n).any fun r => r.name = n) = none := by
    rw [List.find?_eq_none]
    intro n hn
    obtain ⟨r, hr, rfl⟩ := List.mem_map.mp hn
    simp [h r hr]
  simp only [onlyWhere, hlist, hfind]

theorem ruleIds_naming (h : ∀ r ∈ cs, p.ruleIndex r.name = some r) (f : PfFix) :
    ruleIds p (naming f cs) = cs.map fun r => r.id := by
  rw [ruleIds, naming, List.filterMap_map]
  induction cs with
  | nil => rfl
  | cons r cs ih =>
      have hid : ((fun n => (p.ruleIndex n).map (·.id)) ∘ fun r : PfRule => r.name) r =
          some r.id := by simp [h r List.mem_cons_self]
      rw [List.filterMap_cons_some hid, List.map_cons,
        ih fun s hs => h s (List.mem_cons_of_mem _ hs)]

/-- A fix that names checks found by their names is kept to their pages. -/
theorem outcome_naming (hp : Indexed p names) (hcs : ∀ r ∈ cs, r ∈ p.rules) (hne : cs ≠ [])
    (h : ∀ r ∈ cs, p.ruleIndex r.name = some r) {f : PfFix}
    (hf : onPages scheduleOutputIntent (naming f cs) = true) (found : PfRule → Found)
    (count : Nat) :
    outcome scheduleOutputIntent p (ruleHitPages found p.rules) count (naming f cs) =
      some (keptTo f.id (pagesWhere found cs count)) := by
  rw [outcome, if_pos hf, ruleIds_naming h, ← filter_onPage hp hcs]
  cases cs with
  | nil => exact absurd rfl hne
  | cons r cs => rfl

/-- References by name resolve exactly if no later check's id is one of the names, and the fix is
one that runs over pages. -/
theorem resolvesByName_iff {text : String} (h : parseKuraJson reg text = .ok p)
    (hcs : ∀ r ∈ cs, r ∈ p.rules) (hne : cs ≠ []) (f : PfFix) :
    ResolvesByName reg scheduleOutputIntent p cs f ↔
      (∀ r ∈ cs, ¬ Shadowed p r) ∧ onPages scheduleOutputIntent (naming f cs) = true := by
  obtain ⟨names, hp⟩ := indexed_of_parse h
  constructor
  · intro hres
    refine ⟨fun r hr => (ruleIndex_name_iff hp (hcs r hr)).mp (hres.indexed r hr), ?_⟩
    by_contra hf
    have hrun := hres.filtered (fun _ => ⟨0, [], []⟩) 0 [] []
    simp [pass_applyProfileFixes, outcome, hf] at hrun
  · rintro ⟨hclear, hf⟩
    have hindex : ∀ r ∈ cs, p.ruleIndex r.name = some r :=
      fun r hr => (ruleIndex_name_iff hp (hcs r hr)).mpr (hclear r hr)
    refine ⟨hindex, onlyWhere_of_indexed hindex, ?_⟩
    intro found count before after
    have hkept := outcome_naming hp hcs hne hindex hf found count
    simp only [pass_applyProfileFixes]
    rw [List.filterMap_append, List.filterMap_cons_some hkept]

end

/-- What the catalogue says of a check and of a fix. -/
def smallRegistry : Registry where
  checkIndex token := if token = "content.distorted" then 48 else -1
  takesParam _ _ := false
  valueType _ := "bool"
  checkAtom a place :=
    if a.token = "content.distorted" then ({ a with check := 48, op := "is", vals := ["true"] }, "")
    else (a, place ++ ".check: unknown check \"" ++ a.token ++ "\"")
  checkFix f _ := ({ f with fix := 50 }, "")
  parseQuantity _ _ _ := none
  scripting := JsonReader.cLibrary fun _ _ _ _ => .error "none"

/-- A fix that runs over pages. -/
def mirrorPages : PfFix := { id := "page.mirror", args := [("axis", "horizontal")], fix := 50 }

/-- A check with a name and one condition. -/
def namedCheck (name : String) : Json :=
  .obj [("name", .str name), ("all", .arr [.obj [("check", .str "content.distorted")]])]

/-- A profile with two named checks. -/
def twoChecks (first second : String) : Json :=
  .obj [("kura-profile", .num (.fin 1)), ("checks", .arr [namedCheck first, namedCheck second])]


/-- Its text is read as it is. -/
theorem parseJson_twoChecks (first second : String) :
    JsonReader.parseJson (jsonText smallRegistry.scripting (twoChecks first second)) =
      .ok (twoChecks first second) := by
  have hone : JsonReader.readNumber (numText smallRegistry.scripting (.fin 1)).toList = some 1 := by
    have htext : numText smallRegistry.scripting (.fin 1) = "1" := by decide
    rw [htext]
    decide +kernel
  apply JsonReader.parseJson_of_reread
  · simp [twoChecks, namedCheck, JsonReader.fits, JsonReader.itemsFit, JsonReader.membersFit,
      JsonReader.kMaxObjectWalk]
  · simp [twoChecks, namedCheck, JsonReader.reread, JsonReader.rereadItems,
      JsonReader.rereadMembers, hone]

theorem parseKuraJson_twoChecks (first second : String) :
    parseKuraJson smallRegistry (jsonText smallRegistry.scripting (twoChecks first second)) =
      profile smallRegistry (twoChecks first second) := by
  rw [parseKuraJson, parseJson_twoChecks]

theorem map_eq_ok {α β : Type} {x : Except String α} {f : α → β} {b : β} (h : x.map f = .ok b) :
    ∃ a, x = .ok a ∧ f a = b := by
  cases x with
  | error e => cases h
  | ok a => exact ⟨a, rfl, Except.ok.inj h⟩

/-- Two checks that are read become two rules. -/
theorem parse_twoChecks {first second : String}
    (h : (profile smallRegistry (twoChecks first second)).map
      (fun p => p.rules.map fun r => r.name) = .ok [first, second]) :
    ∃ p r s, parseKuraJson smallRegistry
        (jsonText smallRegistry.scripting (twoChecks first second)) = .ok p ∧
      p.rules = [r, s] ∧ r.name = first ∧ s.name = second := by
  obtain ⟨p, hp, hnames⟩ := map_eq_ok h
  obtain ⟨r, rest, hrules, hr, hrest⟩ := List.map_eq_cons_iff.mp hnames
  obtain ⟨s, rest, rfl, hs, hnil⟩ := List.map_eq_cons_iff.mp hrest
  rw [List.map_eq_nil_iff] at hnil
  subst hnil
  refine ⟨p, r, s, ?_, hrules, hr, hs⟩
  rw [parseKuraJson_twoChecks]
  exact hp

/-- The first check is named as the second one is numbered. -/
theorem numbered_name_not_resolved :
    ∃ p r, parseKuraJson smallRegistry
        (jsonText smallRegistry.scripting (twoChecks "K2" "Distorted")) = .ok p ∧
      r ∈ p.rules ∧ r.name = "K2" ∧ (p.ruleIndex "K2").map (fun s => s.name) = some "Distorted" ∧
      ¬ ResolvesByName smallRegistry (fun _ => true) p [r] mirrorPages := by
  have hnames : (profile smallRegistry (twoChecks "K2" "Distorted")).map
      (fun p => p.rules.map fun r => r.name) = .ok ["K2", "Distorted"] := rfl
  have hindex : (profile smallRegistry (twoChecks "K2" "Distorted")).map
      (fun p => (p.ruleIndex "K2").map fun s => s.name) = .ok (some "Distorted") := rfl
  obtain ⟨p, r, s, hp, hrules, hr, -⟩ := parse_twoChecks hnames
  have hfound : (p.ruleIndex "K2").map (fun s => s.name) = some "Distorted" := by
    obtain ⟨q, hq, hname⟩ := map_eq_ok hindex
    rw [parseKuraJson_twoChecks, hq] at hp
    exact Except.ok.inj hp ▸ hname
  refine ⟨p, r, hp, by simp [hrules], hr, hfound, ?_⟩
  intro hres
  have hown := hres.indexed r List.mem_cons_self
  rw [hr] at hown
  rw [hown, Option.map_some, hr] at hfound
  exact absurd hfound (by decide)

/-- Names that are no ids resolve. -/
theorem plain_names_resolved :
    ∃ p r, parseKuraJson smallRegistry
        (jsonText smallRegistry.scripting (twoChecks "Skewed" "Distorted")) = .ok p ∧
      ResolvesByName smallRegistry (fun _ => true) p [r] mirrorPages := by
  have hnames : (profile smallRegistry (twoChecks "Skewed" "Distorted")).map
      (fun p => p.rules.map fun r => r.name) = .ok ["Skewed", "Distorted"] := rfl
  obtain ⟨p, r, s, hp, hrules, hr, -⟩ := parse_twoChecks hnames
  refine ⟨p, r, hp, (resolvesByName_iff hp ?_ (by simp) mirrorPages).mpr ⟨?_, rfl⟩⟩
  · simp [hrules]
  · simp only [List.mem_singleton, forall_eq]
    rintro ⟨i, j, -, -, hj, hname⟩
    rw [hrules] at hj
    rw [hr] at hname
    obtain rfl | rfl : j = 0 ∨ j = 1 := by
      simp only [List.length_cons, List.length_nil] at hj
      omega
    · exact absurd hname (by decide)
    · exact absurd hname (by decide)

end Kura.Engine.OnlyWhere
