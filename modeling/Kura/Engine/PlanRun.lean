import Kura.Engine.Plan

/-!
# Runs of a plan

What the steps of a run do to its result, as a list of events: a run leaves
what its events leave, in their order. The events are told by the state before
each step; how the run jumps from step to step does not matter for this.
-/

namespace Kura.Engine.Plan

open Kura.Engine.Profile Kura.Engine.Jobs

/-- What a step does to the result of the run. -/
inductive Event where
  | reverted
  | checked (r : Result)
  | converted (r : Result)
  | failed (i : Issue)
  | quiet

/-- The parts of the result that the steps change. -/
structure Ledger where
  cur : Bytes
  converted : Bool
  level : String
  compliant : Bool
  issues : List Issue

/-- What an event does; `data` is the original file. -/
def Ledger.record (data : Bytes) (l : Ledger) : Event → Ledger
  | .reverted => { l with cur := data }
  | .checked r => { l with compliant := l.compliant && r.compliant }
  | .converted r =>
      { l with cur := r.pdf, converted := true, level := r.level, issues := l.issues ++ r.issues }
  | .failed i => { l with issues := l.issues ++ [i] }
  | .quiet => l

/-- The part of a state that becomes the result. -/
def ledger (s : PlanState) : Ledger := ⟨s.cur, s.converted, s.level, s.compliant, s.issues⟩

section Run

variable {ρ : Type} (env : Env ρ) (p : Program ρ)

/-- What running a job does. -/
def jobEvent (s : PlanState) (id : String) (job : SubJob) : Event :=
  if job.failure ≠ "" then .failed (planStepFailed id job.failure)
  else
    let r := jobResult env p s job
    if ¬ r.ok then .failed (planStepFailed id (job.what ++ ": " ++ r.error))
    else if ¬ (jobOptions env p s job).verifyOnly then .converted r
    else .checked r

/-- What a step does, by its kind. -/
def eventOf (s : PlanState) (id : String) (step : Json) : Event :=
  let kind := field env s.vars step "do"
  if kind = "revert" then .reverted
  else if kind = "variable" then
    let failure := (variableStep env p s id step).failure
    if failure = "" then .quiet else .failed (planStepFailed id failure)
  else if kind = "check" then jobEvent env p s id (checkJob env p s.vars step)
  else if kind = "fix" then jobEvent env p s id (fixJob env p s.vars step)
  else if kind = "profile" then jobEvent env p s id (profileJob env p s.vars step)
  else .failed (planStepFailed id ("unknown step kind \"" ++ kind ++ "\""))

/-- The issue of a step that goes to a step that does not exist. -/
def lostStep (i : Nat) (id : String) (step : Json) (d : Done) : List Issue :=
  (goTo env p d.st.vars i id (nextName env d.st.vars step (resultKey d.so.sev))).2

/-- The events of a step. -/
def stepEvents (i : Nat) (step : Json) (s : PlanState) : List Event :=
  let id := stepId env s.vars i step
  eventOf env p s id step ::
    (lostStep env p i id step (reportFailure id (perform env p s id step))).map .failed

/-- The events of a run, from a state on. -/
def eventsFrom : Nat → PlanState → List Event
  | 0, _ => []
  | fuel + 1, s =>
      match current p s with
      | some (i, step) =>
          (if disabled env s.vars step then [] else stepEvents env p i step s) ++
            eventsFrom fuel (turn env p i step s)
      | none => []

/-- A step that runs a job records its event in the ledger. -/
theorem ledger_jobStep (s : PlanState) (id kind : String) (job : SubJob) :
    ledger (reportFailure id (jobStep env p s id kind job)).st =
      (ledger s).record p.data (jobEvent env p s id job) := by
  have hopt : ∀ extra : List Issue,
      jobOptions env p { s with analysis := extra } job = jobOptions env p s job := fun _ => rfl
  unfold jobStep jobEvent reportFailure
  by_cases hfailure : job.failure ≠ ""
  · rw [if_pos hfailure, if_pos hfailure]
    dsimp only
    rw [if_neg hfailure]
    rfl
  · rw [if_neg hfailure, if_neg hfailure]
    simp only [hopt]
    by_cases hok : (jobResult env p s job).ok = true
    · rw [if_neg (not_not.mpr hok), if_neg (not_not.mpr hok)]
      by_cases hverify : (jobOptions env p s job).verifyOnly = true
      · rw [if_neg (not_not.mpr hverify), if_neg (not_not.mpr hverify)]
        dsimp only
        rw [if_pos rfl]
        rfl
      · rw [if_pos hverify, if_pos hverify]
        dsimp only
        rw [if_pos rfl]
        rfl
    · rw [if_pos hok, if_pos hok]
      dsimp only
      rw [if_pos rfl]
      rfl

/-- Setting a variable leaves the result as it is. -/
theorem ledger_variableStep (s : PlanState) (id : String) (step : Json) :
    ledger (variableStep env p s id step).st = ledger s := by
  unfold variableStep
  dsimp only
  split
  · rfl
  · split
    · rfl
    · split
      · rfl
      · rfl

/-- Any step records its event in the ledger. -/
theorem ledger_perform (s : PlanState) (id : String) (step : Json) :
    ledger (reportFailure id (perform env p s id step)).st =
      (ledger s).record p.data (eventOf env p s id step) := by
  unfold perform eventOf
  dsimp only
  split
  · rfl
  · split
    · have hsame := ledger_variableStep env p s id step
      unfold reportFailure
      split
      · exact hsame
      · have hissues : (variableStep env p s id step).st.issues = s.issues :=
          congrArg Ledger.issues hsame
        unfold ledger at hsame ⊢
        rw [Ledger.mk.injEq] at hsame
        simp only [Ledger.record, Ledger.mk.injEq, hissues, and_true]
        exact ⟨hsame.1, hsame.2.1, hsame.2.2.1, hsame.2.2.2.1⟩
    · split
      · exact ledger_jobStep env p s id _ _
      · split
        · exact ledger_jobStep env p s id _ _
        · split
          · exact ledger_jobStep env p s id _ _
          · unfold reportFailure
            dsimp only
            rw [if_neg]
            · rfl
            · intro hempty
              have hlen := congrArg String.length hempty
              simp at hlen

theorem ledger_advance (i : Nat) (id : String) (step : Json) (d : Done) :
    ledger (advance env p i id step d) =
      ((lostStep env p i id step d).map .failed).foldl (Ledger.record p.data) (ledger d.st) := by
  have hlost : ∀ (l : Ledger) (failed : List Issue),
      (failed.map Event.failed).foldl (Ledger.record p.data) l =
        { l with issues := l.issues ++ failed } := by
    intro l failed
    induction failed generalizing l with
    | nil => simp
    | cons f fs ih =>
        rw [List.map_cons, List.foldl_cons, ih]
        simp [Ledger.record]
  rw [hlost]
  rfl

/-- The step lemma: a turn of the loop does what its events say. -/
theorem ledger_turn (i : Nat) (step : Json) (s : PlanState) :
    ledger (turn env p i step s) =
      (if disabled env s.vars step then [] else stepEvents env p i step s).foldl
        (Ledger.record p.data) (ledger s) := by
  unfold turn
  split
  · rfl
  · rw [execute, ledger_advance, ledger_perform, stepEvents, List.foldl_cons]

/-- The run lemma: a run leaves what its events leave. -/
theorem ledger_loop (fuel : Nat) (s : PlanState) :
    ledger (loop env p fuel s) =
      (eventsFrom env p fuel s).foldl (Ledger.record p.data) (ledger s) := by
  induction fuel generalizing s with
  | zero => rfl
  | succ fuel ih =>
      unfold loop eventsFrom
      cases hcur : current p s with
      | none => rfl
      | some next =>
          obtain ⟨i, step⟩ := next
          dsimp only
          rw [ih, ledger_turn, List.foldl_append]

end Run

section Events

variable {ρ : Type} {env : Env ρ} {p : Program ρ} {P : Event → Prop}

/-- The kinds of events that a run can have. -/
structure AllEvents (env : Env ρ) (p : Program ρ) (P : Event → Prop) : Prop where
  reverted : P .reverted
  quiet : P .quiet
  failed : ∀ id text, P (.failed (planStepFailed id text))
  checked : ∀ s job, P (.checked (jobResult env p s job))
  converted : ∀ s job, (jobOptions env p s job).verifyOnly = false →
    P (.converted (jobResult env p s job))

namespace AllEvents

variable (h : AllEvents env p P)
include h

theorem jobEvent (s : PlanState) (id : String) (job : SubJob) :
    P (jobEvent env p s id job) := by
  unfold Plan.jobEvent
  dsimp only
  split
  · exact h.failed id _
  · split
    · exact h.failed id _
    · split
      · rename_i hverify
        exact h.converted s job (by simpa using hverify)
      · exact h.checked s job

theorem eventOf (s : PlanState) (id : String) (step : Json) : P (eventOf env p s id step) := by
  unfold Plan.eventOf
  dsimp only
  split
  · exact h.reverted
  · split
    · split
      · exact h.quiet
      · exact h.failed id _
    · split
      · exact h.jobEvent s id _
      · split
        · exact h.jobEvent s id _
        · split
          · exact h.jobEvent s id _
          · exact h.failed id _

theorem stepEvents (i : Nat) (step : Json) (s : PlanState) :
    ∀ e ∈ stepEvents env p i step s, P e := by
  intro e he
  unfold Plan.stepEvents at he
  obtain rfl | hlost := List.mem_cons.mp he
  · exact h.eventOf s _ step
  · obtain ⟨issue, hissue, rfl⟩ := List.mem_map.mp hlost
    unfold lostStep goTo at hissue
    split at hissue
    · cases hissue
    · split at hissue
      · cases hissue
      · split at hissue
        · cases hissue
        · rw [List.mem_singleton.mp hissue]
          exact h.failed _ _

/-- What holds of every kind of event holds of all events of a run. -/
theorem eventsFrom (fuel : Nat) (s : PlanState) : ∀ e ∈ eventsFrom env p fuel s, P e := by
  induction fuel generalizing s with
  | zero =>
      intro e he
      cases he
  | succ fuel ih =>
      intro e he
      unfold Plan.eventsFrom at he
      cases hcur : current p s with
      | none =>
          rw [hcur] at he
          cases he
      | some next =>
          obtain ⟨i, step⟩ := next
          rw [hcur] at he
          obtain hhere | hrest := List.mem_append.mp he
          · split at hhere
            · cases hhere
            · exact h.stepEvents i step s e hhere
          · exact ih _ e hrest

end AllEvents

end Events

section Result

variable {ρ : Type} (env : Env ρ) (data : Bytes) (optIn : Options ρ) (raw : Json)

/-- The options after the profile has named its target. -/
def planOptions : Options ρ := (start env data optIn raw).1.opt

/-- The events of the plan of a profile. -/
def events : List Event :=
  eventsFrom env (start env data optIn raw).1 256 (start env data optIn raw).2

/-- What the events of a plan leave. -/
def outcome : Ledger :=
  (events env data optIn raw).foldl (Ledger.record data)
    ⟨data, false, levelToString (planOptions env data optIn raw).level, true, []⟩

theorem runPlan_eq : ∃ s, runPlan env data optIn raw = finish (start env data optIn raw).1 s ∧
    ledger s = outcome env data optIn raw := by
  refine ⟨loop env (start env data optIn raw).1 256 (start env data optIn raw).2, rfl, ?_⟩
  rw [ledger_loop]
  rfl

end Result

/-- The result of a conversion. -/
def Event.result : Event → Option Result
  | .converted r => some r
  | _ => none

def Event.isRevert : Event → Bool
  | .reverted => true
  | _ => false

/-- The result of the last conversion. -/
def lastConversion (es : List Event) : Option Result := es.reverse.findSome? Event.result

/-- The result of the last conversion after the last revert. -/
def standing (es : List Event) : Option Result :=
  (es.reverse.takeWhile fun e => !e.isRevert).findSome? Event.result

/-- A revert follows the last conversion. -/
def Undone (es : List Event) : Prop :=
  ∃ pre post, es = pre ++ Event.reverted :: post ∧ (∃ r, Event.converted r ∈ pre) ∧
    ∀ r, Event.converted r ∉ post

theorem lastConversion_append (es : List Event) (e : Event) :
    lastConversion (es ++ [e]) = (e.result).or (lastConversion es) := by
  unfold lastConversion
  rw [List.reverse_append, List.reverse_singleton, List.singleton_append, List.findSome?_cons]
  cases e.result with
  | none => rfl
  | some r => rfl

theorem standing_append (es : List Event) (e : Event) :
    standing (es ++ [e]) = if e.isRevert then none else (e.result).or (standing es) := by
  unfold standing
  rw [List.reverse_append, List.reverse_singleton, List.singleton_append, List.takeWhile_cons]
  cases hrevert : e.isRevert with
  | true => simp
  | false =>
      simp only [Bool.not_false, if_true, List.findSome?_cons]
      cases e.result with
      | none => simp
      | some r => simp

theorem lastConversion_eq_none_iff (es : List Event) :
    lastConversion es = none ↔ ∀ r, Event.converted r ∉ es := by
  unfold lastConversion
  rw [List.findSome?_eq_none_iff]
  constructor
  · intro h r hmem
    exact absurd (h _ (List.mem_reverse.mpr hmem)) (by simp [Event.result])
  · intro h e he
    cases e with
    | converted r => exact absurd (List.mem_reverse.mp he) (h r)
    | _ => rfl

/-- The three parts of what a run leaves that conversions and reverts decide. -/
theorem conversions_foldl (data : Bytes) (level : String) (compliant : Bool) (issues : List Issue)
    (es : List Event) :
    let l := es.foldl (Ledger.record data) ⟨data, false, level, compliant, issues⟩
    l.cur = ((standing es).map Result.pdf).getD data ∧
    l.level = ((lastConversion es).map Result.level).getD level ∧
    l.converted = (lastConversion es).isSome := by
  induction es using List.reverseRecOn with
  | nil => exact ⟨rfl, rfl, rfl⟩
  | append_singleton es e ih =>
      obtain ⟨hcur, hlevel, hconv⟩ := ih
      dsimp only at hcur hlevel hconv ⊢
      rw [List.foldl_append, List.foldl_cons, List.foldl_nil, standing_append,
        lastConversion_append]
      cases e with
      | reverted => exact ⟨rfl, hlevel, hconv⟩
      | checked r => exact ⟨hcur, hlevel, hconv⟩
      | converted r => exact ⟨rfl, rfl, rfl⟩
      | failed i => exact ⟨hcur, hlevel, hconv⟩
      | quiet => exact ⟨hcur, hlevel, hconv⟩

/-- After a revert without a conversion nothing stands. -/
theorem standing_of_revert (pre post : List Event) (hpost : ∀ r, Event.converted r ∉ post) :
    standing (pre ++ Event.reverted :: post) = none := by
  induction post using List.reverseRecOn with
  | nil => rw [standing_append]; rfl
  | append_singleton post e ih =>
      have hrest := ih fun r hr => hpost r (List.mem_append_left _ hr)
      rw [← List.cons_append, ← List.append_assoc, standing_append, hrest]
      cases e with
      | converted r => exact absurd (List.mem_append_right post List.mem_cons_self) (hpost r)
      | _ => rfl

theorem Undone.append {es : List Event} (h : Undone es) {e : Event} (he : e.result = none) :
    Undone (es ++ [e]) := by
  obtain ⟨pre, post, rfl, hpre, hpost⟩ := h
  refine ⟨pre, post ++ [e], by simp, hpre, fun r hr => ?_⟩
  obtain hold | hnew := List.mem_append.mp hr
  · exact hpost r hold
  · rw [← List.mem_singleton.mp hnew] at he
    cases he

/-- Unless a revert follows it, the last conversion stands. -/
theorem standing_of_not_undone {es : List Event} (h : ¬ Undone es) :
    standing es = lastConversion es := by
  induction es using List.reverseRecOn with
  | nil => rfl
  | append_singleton es e ih =>
      rw [standing_append, lastConversion_append]
      cases e with
      | converted r => rfl
      | reverted =>
          have hnone : lastConversion es = none := by
            rw [lastConversion_eq_none_iff]
            intro r hr
            exact h ⟨es, [], rfl, ⟨r, hr⟩, fun _ => List.not_mem_nil⟩
          rw [hnone]
          rfl
      | checked r => exact ih fun hu => h (hu.append rfl)
      | failed i => exact ih fun hu => h (hu.append rfl)
      | quiet => exact ih fun hu => h (hu.append rfl)

theorem standing_of_undone {es : List Event} (h : Undone es) :
    standing es = none ∧ lastConversion es ≠ none := by
  obtain ⟨pre, post, rfl, ⟨r, hr⟩, hpost⟩ := h
  refine ⟨standing_of_revert pre post hpost, fun hnone => ?_⟩
  exact (lastConversion_eq_none_iff _).mp hnone r (List.mem_append_left _ hr)

/-- The report says what the output is: its level is that of the conversion that stands,
and without such a conversion it says that there was none. -/
structure Honest (initial : String) (es : List Event) (r : Result) : Prop where
  level : r.level = ((standing es).map Result.level).getD initial
  report : (∃ i ∈ r.issues, i.code = "PLAN_NO_CONVERSION") ↔ standing es = none

/-- No pass uses the code of plans without a conversion. -/
def PassesKeepCode {ρ : Type} (env : Env ρ) : Prop :=
  ∀ data opt, ∀ i ∈ (env.passes data opt).issues, i.code ≠ "PLAN_NO_CONVERSION"

section Report

variable {ρ : Type} {env : Env ρ}

/-- An event that adds issues adds none with the code. -/
def Event.KeepsCode : Event → Prop
  | .converted r => CodesMeet (· ≠ "PLAN_NO_CONVERSION") r
  | .failed i => i.code ≠ "PLAN_NO_CONVERSION"
  | _ => True

theorem keepsCode_events (hpass : PassesKeepCode env) (data : Bytes) (optIn : Options ρ)
    (raw : Json) : ∀ e ∈ events env data optIn raw, e.KeepsCode := by
  apply AllEvents.eventsFrom
  refine ⟨trivial, trivial, fun id text => ?_, fun s job => trivial, fun s job _ => ?_⟩
  · show ("PLAN_STEP_FAILED" : String) ≠ "PLAN_NO_CONVERSION"
    decide
  · exact codesMeet_runPrepared (P := (· ≠ "PLAN_NO_CONVERSION")) hpass (by decide) (by decide) _ _

/-- Events that keep the code leave no issue with it. -/
theorem code_foldl (data : Bytes) {l : Ledger} (es : List Event) (hes : ∀ e ∈ es, e.KeepsCode)
    (hl : ∀ i ∈ l.issues, i.code ≠ "PLAN_NO_CONVERSION") :
    ∀ i ∈ (es.foldl (Ledger.record data) l).issues, i.code ≠ "PLAN_NO_CONVERSION" := by
  induction es generalizing l with
  | nil => exact hl
  | cons e es ih =>
      apply ih fun e' he' => hes e' (List.mem_cons_of_mem _ he')
      have he := hes e List.mem_cons_self
      intro i hi
      cases e with
      | converted r =>
          obtain hold | hnew := List.mem_append.mp hi
          · exact hl i hold
          · exact he i hnew
      | failed f =>
          obtain hold | hnew := List.mem_append.mp hi
          · exact hl i hold
          · rw [List.mem_singleton.mp hnew]
            exact he
      | reverted => exact hl i hi
      | checked r => exact hl i hi
      | quiet => exact hl i hi

/-- The report of a plan that may convert, in terms of its conversions. -/
theorem runPlan_report (hpass : PassesKeepCode env) (data : Bytes) (optIn : Options ρ) (raw : Json)
    (hconvert : optIn.verifyOnly = false) :
    (runPlan env data optIn raw).pdf =
      ((standing (events env data optIn raw)).map Result.pdf).getD data ∧
    (runPlan env data optIn raw).level =
      ((lastConversion (events env data optIn raw)).map Result.level).getD
        (levelToString (planOptions env data optIn raw).level) ∧
    ((∃ i ∈ (runPlan env data optIn raw).issues, i.code = "PLAN_NO_CONVERSION") ↔
      lastConversion (events env data optIn raw) = none) := by
  obtain ⟨s, hrun, hs⟩ := runPlan_eq env data optIn raw
  have hverify : (start env data optIn raw).1.opt.verifyOnly = false := by
    rw [← hconvert]
    exact verifyOnly_applyConvert env _ _
  obtain ⟨hcur, hlevel, hconv⟩ := conversions_foldl data
    (levelToString (planOptions env data optIn raw).level) true [] (events env data optIn raw)
  have hcodes := code_foldl data (events env data optIn raw)
    (l := ⟨data, false, levelToString (planOptions env data optIn raw).level, true, []⟩)
    (keepsCode_events hpass data optIn raw) (fun i hi => by cases hi)
  have hout : outcome env data optIn raw = (events env data optIn raw).foldl (Ledger.record data)
      ⟨data, false, levelToString (planOptions env data optIn raw).level, true, []⟩ := rfl
  rw [← hout, ← hs] at hcur hlevel hconv hcodes
  rw [hrun]
  refine ⟨?_, hlevel, ?_⟩
  · rw [finish, hverify]
    exact hcur
  · have hflag : s.converted = (lastConversion (events env data optIn raw)).isSome := hconv
    rw [finish, hverify]
    dsimp only
    cases hlast : lastConversion (events env data optIn raw) with
    | none =>
        rw [hlast] at hflag
        rw [hflag]
        simp
    | some r =>
        rw [hlast] at hflag
        rw [hflag]
        constructor
        · rintro ⟨i, hi, hcode⟩
          exact absurd hcode (hcodes i hi)
        · intro h
          cases h

/-- The output is the file of the conversion that stands; the report is honest exactly if
no revert follows the last conversion. -/
theorem plan_honest_iff (hpass : PassesKeepCode env) (data : Bytes) (optIn : Options ρ)
    (raw : Json) (hconvert : optIn.verifyOnly = false) :
    (runPlan env data optIn raw).pdf =
      ((standing (events env data optIn raw)).map Result.pdf).getD data ∧
    (Honest (levelToString (planOptions env data optIn raw).level) (events env data optIn raw)
      (runPlan env data optIn raw) ↔ ¬ Undone (events env data optIn raw)) := by
  obtain ⟨hpdf, hlevel, hreport⟩ := runPlan_report hpass data optIn raw hconvert
  refine ⟨hpdf, ?_⟩
  constructor
  · intro hhonest hundone
    obtain ⟨hstanding, hlast⟩ := standing_of_undone hundone
    exact hlast (hreport.mp (hhonest.report.mpr hstanding))
  · intro hno
    have hstanding := standing_of_not_undone hno
    refine ⟨?_, ?_⟩
    · rw [hlevel, hstanding]
    · rw [hreport, hstanding]

end Report

/-- A profile whose target is PDF/A-1b. -/
def targetProfile : Json := .obj [("convert", .obj [("level", .str "1b")])]

/-- The passes give the file back with a line more; only one profile is read. -/
def lineEnv : Env Unit where
  realText _ := ""
  wholeNumber _ := none
  evalScript _ _ _ _ := .error "this build has no script engine"
  passes data opt :=
    { stopped := false, pdf := data ++ [0x0A], issues := [], analysis := [], error := ""
      errorCode := "", suggestedLevel := "", level := some opt.level }
  docJsonOf _ _ := "\x7b\x7d"
  parseJson text :=
    if text = "\x7b\"convert\":\x7b\"level\":\"1b\"\x7d\x7d" then .ok targetProfile
    else .error "unexpected character at byte 0"
  readFile _ := none
  atof _ := .fin 0

/-- A conversion to PDF/A-2b, unless the profile names another target. -/
def plainOptions : Options Unit where
  level := .A2B
  verifyOnly := false
  preflightProfile := ""
  profilePath := ""
  profileVars := []
  profileFixOps := []
  colorJob := {}
  dualPrint := false
  pageRange := ""
  levelFromProfile := true
  reconvert := false
  fallbackDpi := .fin 0
  fallbackProblemPagesOnly := false
  quickCheck := false
  bookmarks := ""
  rasterDpi := .fin 300
  rasterizeAllPages := false
  rasterKeepText := true
  rasterPages := []
  rasterizePage := false
  ocrPage := false
  signDocument := false
  rest := ()

/-- A profile with a plan. -/
def planOf (steps : List Json) : Json := .obj [("plan", .obj [("steps", .arr steps)])]

/-- The step that converts to PDF/A-1b. -/
def targetStep : Json := .obj [("do", .str "profile"), ("profile", targetProfile)]

def revertJson : Json := .obj [("do", .str "revert")]

theorem lineEnv_keepsCode : PassesKeepCode lineEnv := by
  intro data opt i hi
  cases hi

/-- A plan that goes back first and then converts is honest. -/
theorem revertFirst_honest :
    (runPlan lineEnv [0x25] plainOptions (planOf [revertJson, targetStep])).level = "1b" ∧
    Honest (levelToString (planOptions lineEnv [0x25] plainOptions
        (planOf [revertJson, targetStep])).level)
      (events lineEnv [0x25] plainOptions (planOf [revertJson, targetStep]))
      (runPlan lineEnv [0x25] plainOptions (planOf [revertJson, targetStep])) := by
  refine ⟨by decide, ?_⟩
  refine (plan_honest_iff lineEnv_keepsCode [0x25] plainOptions
    (planOf [revertJson, targetStep]) rfl).2.mpr ?_
  intro hundone
  obtain ⟨hstanding, -⟩ := standing_of_undone hundone
  have hstands : (standing (events lineEnv [0x25] plainOptions
      (planOf [revertJson, targetStep]))).isSome = true := by
    decide
  rw [hstanding] at hstands
  cases hstands

/-- A plan that converts and goes back gives the original file under the level of the conversion
and does not say that the output equals the input. -/
theorem revertLast_not_honest :
    (runPlan lineEnv [0x25] plainOptions (planOf [targetStep, revertJson])).pdf = [0x25] ∧
    (runPlan lineEnv [0x25] plainOptions (planOf [targetStep, revertJson])).level = "1b" ∧
    ¬ Honest (levelToString (planOptions lineEnv [0x25] plainOptions
        (planOf [targetStep, revertJson])).level)
      (events lineEnv [0x25] plainOptions (planOf [targetStep, revertJson]))
      (runPlan lineEnv [0x25] plainOptions (planOf [targetStep, revertJson])) := by
  refine ⟨by decide, by decide, fun hhonest => ?_⟩
  have hstanding : standing (events lineEnv [0x25] plainOptions
      (planOf [targetStep, revertJson])) = none := by
    decide
  have hsilent : ∀ i ∈ (runPlan lineEnv [0x25] plainOptions
      (planOf [targetStep, revertJson])).issues, i.code ≠ "PLAN_NO_CONVERSION" := by
    decide
  obtain ⟨i, hi, hcode⟩ := hhonest.report.mpr hstanding
  exact hsilent i hi hcode

end Kura.Engine.Plan
