import Kura.Engine.Verdict

/-!
# Quick checks

A quick check keeps the first finding of a check and drops the others. The
range of pages is applied afterwards, to what is left, and the verdict is then
read off again. It agrees with that of the full check unless the first finding
lies outside of the range and another one inside.
-/

namespace Kura.Engine.Jobs

open Kura.Engine.Profile

/-- An issue concerns a range of pages if it names none or one of them. -/
def concerns (range : String) (i : Issue) : Bool :=
    i.pages.isEmpty || i.pages.any (pageInRange range)

/-- The options for a quick check or for a full one. -/
def Options.setQuick {ρ : Type} (opt : Options ρ) (b : Bool) : Options ρ :=
    { opt with quickCheck := b }

/-- Only the choice of the findings depends on whether a check is quick. -/
structure IgnoresQuick {ρ : Type} (env : Env ρ) : Prop where
  passes : ∀ data opt b, env.passes data (opt.setQuick b) = env.passes data opt
  docJsonOf : ∀ data opt b, env.docJsonOf data (opt.setQuick b) = env.docJsonOf data opt

/-- A range keeps the findings that concern it. -/
theorem any_filterRange (list : List Issue) (range : String) :
    (filterRange list range).any isFinding =
      list.any fun i => isFinding i && concerns range i := by
  rw [filterRange, List.any_filterMap]
  congr 1
  ext i
  by_cases hnone : i.pages = []
  · simp [hnone, concerns]
  · rw [if_neg hnone]
    dsimp only
    by_cases hout : i.pages.filter (pageInRange range) = []
    · rw [if_pos hout]
      rw [List.filter_eq_nil_iff] at hout
      have hany : i.pages.any (pageInRange range) = false := by
        rw [List.any_eq_false]
        exact hout
      simp [concerns, hany, hnone]
    · rw [if_neg hout]
      have hany : i.pages.any (pageInRange range) = true := by
        rw [← Bool.not_eq_false, List.any_eq_false]
        intro hnot
        exact hout (List.filter_eq_nil_iff.mpr hnot)
      simp [concerns, hany, isFinding]

/-- The first finding decides about a range exactly if it concerns the range or no finding does. -/
theorem any_first_eq_iff {list : List Issue} {first : Issue} (range : String)
    (hfirst : list.find? isFinding = some first) :
    (concerns range first = list.any fun i => isFinding i && concerns range i) ↔
      concerns range first = true ∨
        ∀ i ∈ list, isFinding i = true → concerns range i = false := by
  have hmem := List.mem_of_find?_eq_some hfirst
  have hfinding := List.find?_some hfirst
  cases hin : concerns range first with
  | true =>
      have hany : (list.any fun i => isFinding i && concerns range i) = true := by
        rw [List.any_eq_true]
        exact ⟨first, hmem, by rw [hfinding, hin]; rfl⟩
      simp [hany]
  | false =>
      rw [eq_comm, List.any_eq_false]
      simp

section Checks

variable {ρ : Type} {env : Env ρ}

/-- The verdict that is given for a range of pages. -/
theorem compliant_pageFiltered (opt : Options ρ) (hcheck : opt.verifyOnly = true)
    (hrange : opt.pageRange ≠ "") {r : Result} (hok : r.ok = true) :
    (pageFiltered opt r).compliant =
      !r.issues.any fun i => isFinding i && concerns opt.pageRange i := by
  rw [pageFiltered, if_neg hrange]
  dsimp only
  rw [if_pos ⟨hcheck, hok⟩, any_filterRange]

/-- Without a range, or for a check that did not come to its end, the verdict stays. -/
theorem compliant_pageFiltered_of_kept {opt : Options ρ} {r : Result}
    (h : opt.pageRange = "" ∨ r.ok = false) : (pageFiltered opt r).compliant = r.compliant := by
  unfold pageFiltered
  split
  · rfl
  · rename_i hrange
    obtain hnone | hfailed := h
    · exact absurd hnone hrange
    · dsimp only
      rw [if_neg]
      rintro ⟨-, hok⟩
      rw [hfailed] at hok
      cases hok

theorem compliant_quickChecked (opt : Options ρ) (r : Result) :
    (quickChecked opt r).compliant = r.compliant := by
  unfold quickChecked
  split
  · split
    · rfl
    · rfl
  · rfl

theorem quickChecked_of_first (opt : Options ρ) (hcheck : opt.verifyOnly = true)
    (hquick : opt.quickCheck = true) {r : Result} {first : Issue}
    (hfirst : r.issues.find? isFinding = some first) :
    quickChecked opt r = { r with issues := [first] } := by
  rw [quickChecked, if_pos ⟨hquick, hcheck⟩, hfirst]

theorem quickChecked_of_none {opt : Options ρ} {r : Result}
    (hnone : r.issues.find? isFinding = none) : quickChecked opt r = r := by
  rw [quickChecked, hnone]
  split
  · rfl
  · rfl

theorem quickChecked_of_full (opt : Options ρ) (hfull : opt.quickCheck = false) (r : Result) :
    quickChecked opt r = r := by
  rw [quickChecked, if_neg]
  rintro ⟨hquick, -⟩
  rw [hfull] at hquick
  cases hquick

/-- The first finding of a check decides about its range of pages. -/
def FirstDecides (range : String) (r : Result) : Prop :=
  range = "" ∨ r.ok = false ∨ ∀ first, r.issues.find? isFinding = some first →
    concerns range first = true ∨ ∀ i ∈ r.issues, isFinding i = true → concerns range i = false

/-- What is left of a check by its quick form has the same verdict exactly if its first finding
decides. -/
theorem filtered_quick_iff {opt : Options ρ} (hcheck : opt.verifyOnly = true) (r : Result) :
    (pageFiltered (opt.setQuick true) (quickChecked (opt.setQuick true) r)).compliant =
        (pageFiltered (opt.setQuick false) r).compliant ↔
      FirstDecides opt.pageRange r := by
  by_cases hkept : opt.pageRange = "" ∨ r.ok = false
  · have hquick : (pageFiltered (opt.setQuick true)
        (quickChecked (opt.setQuick true) r)).compliant = r.compliant := by
      rw [compliant_pageFiltered_of_kept, compliant_quickChecked]
      rw [ok_quickChecked]
      exact hkept
    have hfull : (pageFiltered (opt.setQuick false) r).compliant = r.compliant :=
      compliant_pageFiltered_of_kept hkept
    rw [hquick, hfull]
    refine iff_of_true rfl ?_
    obtain hnone | hfailed := hkept
    · exact .inl hnone
    · exact .inr (.inl hfailed)
  · rw [not_or, Bool.not_eq_false] at hkept
    obtain ⟨hrange, hok⟩ := hkept
    have hfull := compliant_pageFiltered (opt.setQuick false) hcheck hrange hok
    have hquick := compliant_pageFiltered (opt.setQuick true) hcheck hrange
      (r := quickChecked (opt.setQuick true) r) (by rw [ok_quickChecked, hok])
    have hdecides : FirstDecides opt.pageRange r ↔ ∀ first, r.issues.find? isFinding = some first →
        concerns opt.pageRange first = true ∨
          ∀ i ∈ r.issues, isFinding i = true → concerns opt.pageRange i = false := by
      rw [FirstDecides, or_iff_right hrange, or_iff_right]
      rw [hok]
      exact Bool.noConfusion
    rw [hfull, hquick, hdecides, Bool.not_inj_iff]
    cases hfirst : r.issues.find? isFinding with
    | none =>
        rw [quickChecked_of_none hfirst]
        exact iff_of_true rfl (fun first h => by cases h)
    | some first =>
        have hfinding := List.find?_some hfirst
        rw [quickChecked_of_first (opt.setQuick true) hcheck rfl hfirst]
        have hone : ([first].any fun i => isFinding i && concerns opt.pageRange i) =
            concerns opt.pageRange first := by
          simp [hfinding]
        have hall := any_first_eq_iff opt.pageRange hfirst
        rw [← hone] at hall
        refine hall.trans ?_
        rw [hone]
        constructor
        · rintro h other hother
          rwa [← Option.some.inj hother]
        · intro h
          exact h first rfl

theorem convertLevel_quick (cv : Json) (opt : Options ρ) (b : Bool) :
    convertLevel env cv (opt.setQuick b) =
      ((convertLevel env cv opt).1.setQuick b, (convertLevel env cv opt).2) := by
  unfold convertLevel Options.setQuick
  split
  · rfl
  · dsimp only
    split
    · split
      · rfl
      · rfl
    · rfl

theorem convertAlso_quick (cv : Json) (opt : Options ρ) (pre : List Issue) (what : String)
    (b : Bool) :
    convertAlso env cv (opt.setQuick b) pre what =
      ((convertAlso env cv opt pre what).1.setQuick b,
        (convertAlso env cv opt pre what).2) := by
  unfold convertAlso
  split
  · rfl
  · dsimp only
    split
    · rfl
    · split
      · rfl
      · rfl

theorem convertFallbacks_quick (cv : Json) (opt : Options ρ) (b : Bool) :
    convertFallbacks env cv (opt.setQuick b) =
      (convertFallbacks env cv opt).setQuick b := by
  unfold convertFallbacks Options.setQuick
  -- one case for each setting of the profile; none of them looks at the option
  cases cv.get "reconvert" with
  | none =>
      dsimp only
      repeat' split
      all_goals rfl
  | some rc =>
      dsimp only
      repeat' split
      all_goals rfl

theorem applyConvert_quick (root : Json) (opt : Options ρ) (b : Bool) :
    applyConvert env root (opt.setQuick b) =
      ((applyConvert env root opt).1.setQuick b, (applyConvert env root opt).2) := by
  unfold applyConvert
  split
  · dsimp only
    rw [convertLevel_quick, convertAlso_quick, convertFallbacks_quick]
  · rfl

/-- The same with the values of variables put into the profile. -/
theorem applyConvert_quick_profile (opt : Options ρ) (b : Bool) (root : Json) (text : String)
    (notes : List Issue) :
    ((applyConvert env root { opt.setQuick b with preflightProfile := text }).1,
        notes ++ (applyConvert env root { opt.setQuick b with preflightProfile := text }).2) =
      ((applyConvert env root { opt with preflightProfile := text }).1.setQuick b,
        notes ++ (applyConvert env root { opt with preflightProfile := text }).2) := by
  have hopt : { opt.setQuick b with preflightProfile := text } =
      ({ opt with preflightProfile := text } : Options ρ).setQuick b := rfl
  rw [hopt, applyConvert_quick]

/-- The preparation is the same with and without the quick check. -/
theorem prepare_quick (henv : IgnoresQuick env) (data : Bytes) (opt : Options ρ) (b : Bool) :
    prepare env data (opt.setQuick b) =
      ((prepare env data opt).1.setQuick b, (prepare env data opt).2) := by
  unfold prepare
  have hprofile : (opt.setQuick b).preflightProfile = opt.preflightProfile := rfl
  have hvars : (opt.setQuick b).profileVars = opt.profileVars := rfl
  rw [hprofile, hvars]
  split
  · rfl
  · split
    · dsimp only
      split
      · dsimp only
        rw [applyConvert_quick]
      · dsimp only
        rw [henv.docJsonOf]
        exact applyConvert_quick_profile opt b _ _ _
    · rfl

theorem convertOnce_quick (henv : IgnoresQuick env) {opt : Options ρ}
    (hcheck : opt.verifyOnly = true) (data : Bytes) (b : Bool) :
    convertOnce env data (opt.setQuick b) = convertOnce env data opt := by
  have hquick : (opt.setQuick b).verifyOnly = true := hcheck
  rw [convertOnce_of_check hcheck, convertOnce_of_check hquick]
  unfold convertPass
  rw [henv.passes]
  rfl

/-- What a check finds before it is reduced, with its profile prepared. -/
def found (env : Env ρ) (data : Bytes) (opt : Options ρ) : Result :=
  convertOnce env data (prepare env data opt).1

theorem runPrepared_quick (henv : IgnoresQuick env) (data : Bytes) {opt : Options ρ}
    (hcheck : opt.verifyOnly = true) (b : Bool) :
    runPrepared env data (opt.setQuick b) =
      let opt' := (prepare env data opt).1.setQuick b
      let r := pageFiltered opt' (quickChecked opt' (found env data opt))
      { r with analysis := (prepare env data opt).2 ++ r.analysis } := by
  have hprep : (prepare env data opt).1.verifyOnly = true := by
    rw [verifyOnly_prepare, hcheck]
  have hquick : ((prepare env data opt).1.setQuick b).verifyOnly = true := hprep
  unfold runPrepared
  rw [prepare_quick henv]
  dsimp only
  rw [withFallbacks_of_check hquick, convertOnce_quick henv hprep]
  rfl

end Checks

/-- A quick check gives the verdict of the full one exactly if the first finding concerns the
range of pages or no finding does (or there is no range, or the check failed). -/
theorem quickCheck_same_iff {ρ : Type} (env : Env ρ) (henv : IgnoresQuick env) (data : Bytes)
    (opt : Options ρ) (hcheck : opt.verifyOnly = true) :
    ((runPrepared env data (opt.setQuick true)).ok =
        (runPrepared env data (opt.setQuick false)).ok ∧
      (runPrepared env data (opt.setQuick true)).compliant =
        (runPrepared env data (opt.setQuick false)).compliant) ↔
      FirstDecides opt.pageRange (found env data opt) := by
  have hprep : (prepare env data opt).1.verifyOnly = true := by
    rw [verifyOnly_prepare, hcheck]
  have hverdict := filtered_quick_iff hprep (found env data opt)
  rw [pageRange_prepare] at hverdict
  have hok : (runPrepared env data (opt.setQuick true)).ok =
      (runPrepared env data (opt.setQuick false)).ok := by
    rw [runPrepared_quick henv data hcheck true, runPrepared_quick henv data hcheck false]
    dsimp only
    rw [ok_pageFiltered, ok_pageFiltered, ok_quickChecked, ok_quickChecked]
  rw [and_iff_right hok, runPrepared_quick henv data hcheck true,
    runPrepared_quick henv data hcheck false, ← hverdict]
  dsimp only
  rw [quickChecked_of_full ((prepare env data opt).1.setQuick false) rfl]

/-- The passes find a deviation on the first page and one on the second. -/
def twoPagesEnv : Env Unit where
  realText _ := ""
  wholeNumber _ := none
  evalScript _ _ _ _ := .error "this build has no script engine"
  passes data opt :=
    { stopped := false, pdf := data
      issues :=
        [⟨"TRANSPARENCY_FLATTENED", "flattened transparency", true, 3, [1]⟩,
          ⟨"RENDERING_INTENT_FIXED", "replaced a rendering intent", true, 3, [2]⟩]
      analysis := [], error := "", errorCode := "", suggestedLevel := "", level := some opt.level }
  docJsonOf _ _ := "\x7b\x7d"
  parseJson _ := .error "unexpected end of JSON at byte 0"
  readFile _ := none
  atof _ := .fin 0

/-- A check of a range of pages. -/
def rangeOptions (range : String) : Options Unit where
  level := .A2B
  verifyOnly := true
  preflightProfile := ""
  profilePath := ""
  profileVars := []
  profileFixOps := []
  colorJob := {}
  dualPrint := false
  pageRange := range
  levelFromProfile := false
  reconvert := false
  fallbackDpi := .fin 0
  fallbackProblemPagesOnly := false
  quickCheck := false
  bookmarks := ""
  rasterDpi := .fin 0
  rasterizeAllPages := false
  rasterKeepText := true
  rasterPages := []
  rasterizePage := false
  ocrPage := false
  signDocument := false
  rest := ()

/-- On its first page the file fails both checks. -/
theorem firstPage_same :
    IgnoresQuick twoPagesEnv ∧ (rangeOptions "1").verifyOnly = true ∧
    (runPrepared twoPagesEnv [0x25] ((rangeOptions "1").setQuick true)).compliant =
      (runPrepared twoPagesEnv [0x25] ((rangeOptions "1").setQuick false)).compliant := by
  have henv : IgnoresQuick twoPagesEnv := ⟨fun _ _ _ => rfl, fun _ _ _ => rfl⟩
  refine ⟨henv, rfl, ?_⟩
  refine ((quickCheck_same_iff twoPagesEnv henv [0x25] (rangeOptions "1") rfl).mpr ?_).2
  refine .inr (.inr fun first hfirst => .inl ?_)
  cases hfirst
  decide

/-- On its second page it passes the quick check only. -/
theorem secondPage_differs :
    (runPrepared twoPagesEnv [0x25] ((rangeOptions "2").setQuick true)).compliant = true ∧
    (runPrepared twoPagesEnv [0x25] ((rangeOptions "2").setQuick false)).compliant =
      false := by
  decide

end Kura.Engine.Jobs
