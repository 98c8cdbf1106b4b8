import Kura.Engine.RuleHits
import Kura.Engine.Verdict

/-!
# Hits that a step publishes

A step of a plan publishes the hits of its check, as they are read back from the
texts of the reports. The sum is right exactly if every text is read right and no
report lies outside of the pages that the job is about.
-/

namespace Kura.Engine.RuleHits

open Kura.Engine.Jobs Kura.Engine.Plan
open Kura.Engine.Profile (hasEntries)

/-- A report stays if it names no page, or one of the pages that are asked for. -/
def inRange (range : String) (pages : List Int) : Bool :=
  range == "" || pages.isEmpty || pages.any (pageInRange range)

/-- The report of a rule with its hits and pages. -/
def reportOf (rep : PfRule × Int × List Int) : Issue := hitIssue rep.1 rep.2.1 rep.2.2

/-- The hits of a result are the numbers that are read off its reports. -/
theorem collectHits_hits (r : Result) (so : StepOutcome) :
    (collectHits r so).hits = so.hits + ((r.analysis.filter isHit).map hitCount).sum := by
  unfold collectHits
  induction r.analysis.filter isHit generalizing so with
  | nil => simp
  | cons i is ih => rw [List.foldl_cons, ih, List.map_cons, List.sum_cons, ← Int.add_assoc]

/-- The number is read off the detail. -/
theorem hitCount_congr {i j : Issue} (h : i.detail = j.detail) : hitCount i = hitCount j := by
  unfold hitCount
  rw [h]

/-- Taking the pages out of a report changes neither its code nor its number. -/
theorem filter_isHit_filterRange (range : String) (is : List Issue) :
    ((filterRange is range).filter isHit).map hitCount =
      ((filterRange (is.filter isHit) range).map hitCount) := by
  induction is with
  | nil => rfl
  | cons i is ih =>
      unfold filterRange at ih ⊢
      by_cases hhit : isHit i = true
      · rw [List.filter_cons_of_pos hhit, List.filterMap_cons, List.filterMap_cons]
        dsimp only
        split
        · exact ih
        · rename_i j hj
          have hj' : isHit j = true := by
            split at hj
            · rwa [← Option.some.inj hj]
            · split at hj
              · cases hj
              · rw [← Option.some.inj hj]
                exact hhit
          rw [List.filter_cons_of_pos hj', List.map_cons, List.map_cons, ih]
      · rw [List.filter_cons_of_neg hhit, List.filterMap_cons]
        dsimp only
        split
        · exact ih
        · rename_i j hj
          have hj' : ¬ isHit j = true := by
            split at hj
            · rwa [← Option.some.inj hj]
            · split at hj
              · cases hj
              · rw [← Option.some.inj hj]
                exact hhit
          rw [List.filter_cons_of_neg hj', ih]

/-- The numbers of the reports that stay. -/
theorem map_hitCount_filterRange {range : String} (hrange : range ≠ "")
    (reps : List (PfRule × Int × List Int)) :
    (filterRange (reps.map reportOf) range).map hitCount =
      (reps.filter fun rep => inRange range rep.2.2).map fun rep => hitCount (reportOf rep) := by
  induction reps with
  | nil => rfl
  | cons rep reps ih =>
      have hpages : (reportOf rep).pages = rep.2.2 := rfl
      have hstays :
          inRange range rep.2.2 = (rep.2.2.isEmpty || rep.2.2.any (pageInRange range)) := by
        rw [inRange, beq_false_of_ne hrange, Bool.false_or]
      unfold filterRange at ih ⊢
      rw [List.map_cons, List.filterMap_cons, List.filter_cons]
      dsimp only
      rw [hpages]
      by_cases hnone : rep.2.2 = []
      · have hkept : inRange range rep.2.2 = true := by
          rw [hstays, hnone]
          rfl
        rw [if_pos hnone, if_pos hkept, List.map_cons, List.map_cons]
        exact congrArg _ ih
      · rw [if_neg hnone]
        by_cases hout : rep.2.2.filter (pageInRange range) = []
        · have hdropped : ¬ inRange range rep.2.2 = true := by
            simpa [hstays, hnone] using List.filter_eq_nil_iff.mp hout
          rw [if_pos hout, if_neg hdropped]
          exact ih
        · have hkept : inRange range rep.2.2 = true := by
            obtain ⟨page, hpage⟩ := List.exists_mem_of_ne_nil _ hout
            obtain ⟨hmem, hin⟩ := List.mem_filter.mp hpage
            rw [hstays, List.any_eq_true.mpr ⟨page, hmem, hin⟩, Bool.or_true]
          rw [if_neg hout, if_pos hkept, List.map_cons, List.map_cons]
          exact congrArg₂ List.cons (hitCount_congr rfl) ih

/-- Of positive numbers none can be left out of a sum. -/
theorem sum_filter_eq_iff {α : Type} {f : α → Int} {keep : α → Bool} {as : List α}
    (hpos : ∀ a ∈ as, 1 ≤ f a) :
    ((as.filter keep).map f).sum ≤ (as.map f).sum ∧
      (((as.filter keep).map f).sum = (as.map f).sum ↔ ∀ a ∈ as, keep a = true) := by
  induction as with
  | nil => simp
  | cons a as ih =>
      obtain ⟨hle, hiff⟩ := ih fun b hb => hpos b (List.mem_cons_of_mem _ hb)
      have hone := hpos a List.mem_cons_self
      rw [List.forall_mem_cons, List.map_cons, List.sum_cons]
      by_cases hkeep : keep a = true
      · rw [List.filter_cons_of_pos hkeep, List.map_cons, List.sum_cons, and_iff_right hkeep,
          ← hiff]
        constructor
        · exact Int.add_le_add_left hle _
        · constructor <;> intro h <;> omega
      · rw [List.filter_cons_of_neg hkeep]
        refine ⟨by omega, iff_of_false (by omega) fun h => hkeep h.1⟩

section Steps

variable {ρ : Type} (env : Env ρ) (p : Program ρ) (s : PlanState)

/-- The file and the options of the check whose hits a step publishes: its own one, or the check
of what a profile has converted. -/
def checkRun (job : SubJob) : Bytes × Options ρ :=
  let o := jobOptions env p s job
  if o.verifyOnly then (s.cur, o)
  else
    let r := jobResult env p s job
    (r.pdf, { o with
      verifyOnly := true, levelFromProfile := false
      level := (levelFromString r.level).getD o.level })

/-- A step publishes the hits of a check: it comes to run it, and the check comes to its end. -/
structure Publishes (kind : String) (job : SubJob) : Prop where
  started : job.failure = ""
  ran : (jobResult env p s job).ok = true
  checks : (jobOptions env p s job).verifyOnly = true ∨
    kind = "profile" ∧ hasEntries job.sub "checks" = true
  checked : (runPrepared env (checkRun env p s job).1 (checkRun env p s job).2).ok = true

/-- What the rules found that the check of a step runs. -/
def stepReports (found : Bytes → Options ρ → List (PfRule × Found)) (job : SubJob) :
    List (PfRule × Int × List Int) :=
  let run := checkRun env p s job
  reported (found run.1 (prepare env run.1 run.2).1)

variable {env p s} {found : Bytes → Options ρ → List (PfRule × Found)}

theorem isHit_classify (i : Issue) : isHit (classify i) = isHit i := by
  unfold isHit
  rw [code_classify]

theorem classify_reportOf (rep : PfRule × Int × List Int) :
    classify (reportOf rep) = reportOf rep := by
  have hsev : (reportOf rep).severity ≠ 0 := by
    unfold reportOf hitIssue
    dsimp only
    split
    · rename_i hin
      omega
    · decide
  rw [classify, if_neg hsev]

/-- Preparing a profile notes no hits. -/
theorem filter_isHit_prepare (data : Bytes) (opt : Options ρ) :
    (prepare env data opt).2.filter isHit = [] := by
  have hnotes : ∀ notes : List String, (notes.map variableSet).filter isHit = [] := by
    intro notes
    rw [List.filter_eq_nil_iff]
    intro i hi
    obtain ⟨n, -, rfl⟩ := List.mem_map.mp hi
    exact Bool.false_ne_true
  have hlevel : ∀ cv (o : Options ρ), (convertLevel env cv o).2.1.filter isHit = [] := by
    intro cv o
    unfold convertLevel
    repeat' split
    all_goals rfl
  have halso : ∀ cv (o : Options ρ) pre what, pre.filter isHit = [] →
      (convertAlso env cv o pre what).2.1.filter isHit = [] := by
    intro cv o pre what hpre
    unfold convertAlso
    dsimp only
    split
    · exact hpre
    · split
      · exact hpre
      · split
        · exact hpre
        · rw [List.filter_append, hpre]
          rfl
  have happly : ∀ root (o : Options ρ), (applyConvert env root o).2.filter isHit = [] := by
    intro root o
    unfold applyConvert
    split
    · dsimp only
      split
      · exact halso _ _ _ _ (hlevel _ _)
      · rw [List.filter_append, halso _ _ _ _ (hlevel _ _)]
        rfl
    · rfl
  unfold prepare
  split
  · rfl
  · split
    · dsimp only
      rw [List.filter_append, happly, List.append_nil]
      split
      · rfl
      · exact hnotes _
    · rfl

/-- The passes report hits of the rules of the profile only. -/
def ReportsRules (env : Env ρ) (found : Bytes → Options ρ → List (PfRule × Found)) : Prop :=
  ∀ data opt, (env.passes data opt).stopped = false →
    (env.passes data opt).analysis.filter isHit = reportRuleHits (found data opt)

/-- A check that comes to its end has the reports of its rules. -/
theorem filter_isHit_convertOnce (hreports : ReportsRules env found) {data : Bytes}
    {opt : Options ρ} (hcheck : opt.verifyOnly = true)
    (hok : (convertOnce env data opt).ok = true) :
    (convertOnce env data opt).analysis.filter isHit =
      (reported (found data opt)).map reportOf := by
  rw [convertOnce_of_check hcheck] at hok ⊢
  unfold convertPass at hok ⊢
  dsimp only at hok ⊢
  cases hstopped : (env.passes data opt).stopped with
  | true =>
      rw [hstopped, if_pos rfl] at hok
      cases hok
  | false =>
      rw [if_neg Bool.false_ne_true]
      dsimp only
      have hsame : isHit ∘ classify = isHit := funext isHit_classify
      rw [List.filter_map, hsame, hreports data opt hstopped, reportRuleHits, List.map_map]
      exact List.map_congr_left fun rep _ => classify_reportOf rep

/-- The numbers that are read off the reports of a check. -/
theorem hits_runPrepared (hreports : ReportsRules env found) {data : Bytes} {opt : Options ρ}
    (hcheck : opt.verifyOnly = true) (hok : (runPrepared env data opt).ok = true) :
    ((runPrepared env data opt).analysis.filter isHit).map hitCount =
      ((reported (found data (prepare env data opt).1)).filter fun rep =>
        inRange opt.pageRange rep.2.2).map fun rep => hitCount (reportOf rep) := by
  have hprep : (prepare env data opt).1.verifyOnly = true := by
    rw [verifyOnly_prepare, hcheck]
  have honce : (convertOnce env data (prepare env data opt).1).ok = true := by
    unfold runPrepared at hok
    dsimp only at hok
    rwa [withFallbacks_of_check hprep, ok_pageFiltered, ok_quickChecked] at hok
  have hrules := filter_isHit_convertOnce hreports hprep honce
  have hquick : ∀ r : Result, (quickChecked (prepare env data opt).1 r).analysis = r.analysis := by
    intro r
    unfold quickChecked
    repeat' split
    all_goals rfl
  unfold runPrepared
  dsimp only
  rw [withFallbacks_of_check hprep, List.filter_append, filter_isHit_prepare, List.nil_append]
  unfold pageFiltered
  rw [pageRange_prepare]
  by_cases hrange : opt.pageRange = ""
  · have hall : ∀ rep ∈ reported (found data (prepare env data opt).1),
        inRange opt.pageRange rep.2.2 = true := fun rep _ => by simp [inRange, hrange]
    rw [if_pos hrange, hquick, hrules, List.filter_eq_self.mpr hall, List.map_map]
    rfl
  · rw [if_neg hrange]
    dsimp only
    rw [filter_isHit_filterRange, hquick, hrules, map_hitCount_filterRange hrange]

theorem checkRun_check (job : SubJob) : (checkRun env p s job).2.verifyOnly = true := by
  unfold checkRun
  dsimp only
  split
  · assumption
  · rfl

theorem checkRun_range (job : SubJob) : (checkRun env p s job).2.pageRange = p.opt.pageRange := by
  unfold checkRun
  dsimp only
  split
  · rfl
  · rfl

/-- A step publishes the numbers that are read off the reports of its check. -/
theorem hits_jobStep {id kind : String} {job : SubJob} (h : Publishes env p s kind job) :
    (jobStep env p s id kind job).so.hits =
      (((runPrepared env (checkRun env p s job).1 (checkRun env p s job).2).analysis.filter
        isHit).map hitCount).sum := by
  have hstarted : ¬ job.failure ≠ "" := not_not.mpr h.started
  have hran : ¬ ¬ (jobResult env p s job).ok = true := not_not.mpr h.ran
  have hchecked := h.checked
  -- what a job reports has no part in how it is run
  have hoptions : ∀ reports, jobOptions env p { s with analysis := reports } job =
      jobOptions env p s job := fun _ => rfl
  unfold jobStep
  dsimp only
  rw [if_neg hstarted, if_neg hran, hoptions]
  by_cases hverify : (jobOptions env p s job).verifyOnly = true
  · have hrun : checkRun env p s job = (s.cur, jobOptions env p s job) := if_pos hverify
    rw [if_neg (not_not.mpr hverify), hrun]
    exact (collectHits_hits _ _).trans (Int.zero_add _)
  · rw [if_pos hverify]
    have hprofile := h.checks.resolve_left hverify
    have hrun : checkRun env p s job = _ := if_neg hverify
    rw [hrun] at hchecked ⊢
    dsimp only at hchecked ⊢
    unfold afterChecks
    rw [if_pos hprofile]
    exact (congrArg StepOutcome.hits (if_pos hchecked)).trans
      ((collectHits_hits _ _).trans (Int.zero_add _))

end Steps

/-- The number of hits of a rule is read back from its report exactly if its description does not
hold another one; a step publishes the sum of the hits of its rules, each of them read back, exactly
if this is so for all of them and each of their reports is about the pages of the job. -/
theorem hits_survive_iff (rule : PfRule) (pages : List Int) :
    (∀ n : Int, 1 ≤ n → n < 2 ^ 63 →
      (hitCount (hitIssue rule n pages) = n ↔ ¬ Misleading rule.description n)) ∧
    ∀ (ρ : Type) (env : Env ρ) (found : Bytes → Options ρ → List (PfRule × Found)),
      ReportsRules env found →
      ∀ (p : Program ρ) (s : PlanState) (id kind : String) (job : SubJob),
        Publishes env p s kind job →
        (∀ rep ∈ stepReports env p s found job, 1 ≤ rep.2.1 ∧ rep.2.1 < 2 ^ 63) →
        (((∀ rep ∈ stepReports env p s found job, hitCount (reportOf rep) = rep.2.1) ∧
            (jobStep env p s id kind job).so.hits =
              ((stepReports env p s found job).map fun rep => rep.2.1).sum) ↔
          ∀ rep ∈ stepReports env p s found job, ¬ Misleading rep.1.description rep.2.1 ∧
            inRange p.opt.pageRange rep.2.2 = true) := by
  refine ⟨fun n hn hfit => hitCount_hitIssue_iff rule hn hfit pages, ?_⟩
  intro ρ env found hreports p s id kind job hpub hfit
  have hone : ∀ rep ∈ stepReports env p s found job,
      (hitCount (reportOf rep) = rep.2.1 ↔ ¬ Misleading rep.1.description rep.2.1) :=
    fun rep hrep => hitCount_hitIssue_iff rep.1 (hfit rep hrep).1 (hfit rep hrep).2 rep.2.2
  have hsum : (jobStep env p s id kind job).so.hits = _ := hits_jobStep hpub
  rw [hits_runPrepared hreports (checkRun_check job) hpub.checked, checkRun_range] at hsum
  obtain ⟨-, hkept⟩ := @sum_filter_eq_iff _ (fun rep : PfRule × Int × List Int => rep.2.1)
    (fun rep => inRange p.opt.pageRange rep.2.2) (stepReports env p s found job)
    fun rep hrep => (hfit rep hrep).1
  -- once the numbers are read right, only reports that were dropped make a difference
  have hright : (∀ rep ∈ stepReports env p s found job, hitCount (reportOf rep) = rep.2.1) →
      ((jobStep env p s id kind job).so.hits =
        ((stepReports env p s found job).map fun rep => rep.2.1).sum ↔
          ∀ rep ∈ stepReports env p s found job, inRange p.opt.pageRange rep.2.2 = true) := by
    intro hall
    rw [hsum, ← hkept]
    have hmap : ((stepReports env p s found job).filter fun rep =>
        inRange p.opt.pageRange rep.2.2).map (fun rep => hitCount (reportOf rep)) =
        ((stepReports env p s found job).filter fun rep =>
          inRange p.opt.pageRange rep.2.2).map fun rep => rep.2.1 :=
      List.map_congr_left fun rep hrep => hall rep (List.mem_of_mem_filter hrep)
    unfold stepReports at hmap ⊢
    rw [hmap]
  constructor
  · rintro ⟨hall, hhits⟩ rep hrep
    exact ⟨(hone rep hrep).mp (hall rep hrep), (hright hall).mp hhits rep hrep⟩
  · intro h
    have hall : ∀ rep ∈ stepReports env p s found job, hitCount (reportOf rep) = rep.2.1 :=
      fun rep hrep => (hone rep hrep).mpr (h rep hrep).1
    exact ⟨hall, (hright hall).mpr fun rep hrep => (h rep hrep).2⟩

/-- A rule with a description. -/
def describedRule (description : String) : PfRule where
  name := "Thin lines"
  description := description
  severity := 2
  silent := false
  reportDocHits := ""
  reportPageHits := ""

/-- Three hits on two pages. -/
def thinLines : List (PfRule × Found) := [(describedRule "below 0.25 pt", ⟨3, [1, 2], []⟩)]

/-- The passes find the thin lines. -/
def thinEnv : Env Unit :=
  { lineEnv with
    passes := fun data opt =>
      { stopped := false, pdf := data, issues := [], analysis := reportRuleHits thinLines
        error := "", errorCode := "", suggestedLevel := "", level := some opt.level } }

/-- A plan for some pages of a file. -/
def pagesProgram (range : String) : Program Unit :=
  ⟨[0x25], { checkOptions with pageRange := range }, .obj [], []⟩

/-- The job of a step that checks for thin lines. -/
def thinJob : SubJob := ⟨.obj [], false, "check Thin lines", ""⟩

/-- Three hits of a rule that is described in other words are published as three. -/
theorem thinLines_survive :
    (jobStep thinEnv (pagesProgram "2-3") (initial (pagesProgram "2-3") [] []) "step1" "check"
      thinJob).so.hits = 3 := by
  have hreports : ReportsRules thinEnv fun _ _ => thinLines := fun _ _ _ => rfl
  have hpub : Publishes thinEnv (pagesProgram "2-3") (initial (pagesProgram "2-3") [] []) "check"
      thinJob := ⟨rfl, by decide, .inl rfl, by decide⟩
  have hstep : stepReports thinEnv (pagesProgram "2-3") (initial (pagesProgram "2-3") [] [])
      (fun _ _ => thinLines) thinJob = [(describedRule "below 0.25 pt", 3, [1, 2])] := rfl
  have hfit : ∀ rep ∈ stepReports thinEnv (pagesProgram "2-3")
      (initial (pagesProgram "2-3") [] []) (fun _ _ => thinLines) thinJob,
      1 ≤ rep.2.1 ∧ rep.2.1 < 2 ^ 63 := by
    rw [hstep]
    simp
  have hiff := (hits_survive_iff (describedRule "below 0.25 pt") [1, 2]).2 Unit thinEnv _ hreports
    (pagesProgram "2-3") (initial (pagesProgram "2-3") [] []) "step1" "check" thinJob hpub hfit
  rw [hstep] at hiff
  refine (hiff.mpr ?_).2
  intro rep hrep
  rw [List.mem_singleton.mp hrep]
  refine ⟨?_, by decide⟩
  rintro ⟨before, after, hsplit, -⟩
  have hnone : ¬ marker <:+: ' ' :: (describedRule "below 0.25 pt").description.toList := by
    decide
  exact hnone ⟨before, after, hsplit.symm⟩

/-- On other pages the same step publishes no hits. -/
example : (jobStep thinEnv (pagesProgram "5") (initial (pagesProgram "5") [] []) "step1" "check"
    thinJob).so.hits = 0 := by decide

/-- Three hits of a rule whose description speaks of ten are ten. -/
theorem tenHits_read :
    hitCount (hitIssue (describedRule "more than 10 hits are an error") 3 [1, 2]) = 10 ∧
    hitCount (hitIssue (describedRule "hit when a line is thin") 3 [1, 2]) = 1 := by
  decide

end Kura.Engine.RuleHits
