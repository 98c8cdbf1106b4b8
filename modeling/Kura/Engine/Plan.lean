import Kura.Engine.Jobs

/-!
# Plans

A profile may hold a plan: steps that check, fix, run another profile, set a
variable or go back to the original file, and that name the step to follow for
each outcome. `runPlan` runs it, with at most 256 turns of its loop.

## Implementation notes

The state has the loop's variables and the parts of the result that the loop
changes. The index is `none` where the source has a negative one. A turn is cut
into what the kind of the step does, the report of a failure and the choice of
the next step.
-/

namespace Kura.Engine.Plan

open Kura.Base (findFrom rfindFrom)
open Kura.Engine.Profile Kura.Engine.Jobs

/-- The worst severity, the hits and the pages of a step. -/
structure StepOutcome where
  sev : Int := 0
  hits : Int := 0
  pages : List Int := []

def isHit (i : Issue) : Bool := i.code == "CHECK_HIT"

/-- The number before the last " hit" of a detail, or one. -/
def hitCount (i : Issue) : Int :=
  let cs := i.detail.toList
  match rfindFrom [' ', 'h', 'i', 't'] cs cs.length with
  | none => 1
  | some h =>
      let digits := ((cs.take h).reverse.takeWhile Char.isDigit).reverse
      if digits = [] then 1 else min (leadingNumber digits) (2 ^ 63 - 1)

/-- Adds a page to an ordered list of pages. -/
def insertPage (p : Int) : List Int → List Int
  | [] => [p]
  | q :: qs => if p < q then p :: q :: qs else if p = q then q :: qs else q :: insertPage p qs

/-- The hits of a result. -/
def collectHits (r : Result) (so : StepOutcome) : StepOutcome :=
  (r.analysis.filter isHit).foldl (fun so i =>
    { sev := max so.sev (if i.severity = 0 then 3 else min i.severity 3)
      hits := so.hits + hitCount i
      pages := i.pages.foldl (fun ps p => insertPage p ps) so.pages }) so

/-- The variables of the loop. -/
structure PlanState where
  i : Option Nat
  vars : VarMap
  cur : Bytes
  results : List String
  converted : Bool
  issues : List Issue
  analysis : List Issue
  level : String
  compliant : Bool

/-- What a run is given: the file, the options after the profile's target and the profile. -/
structure Program (ρ : Type) where
  data : Bytes
  opt : Options ρ
  raw : Json
  defs : List ProfileVariable

/-- A step's work: the state after it, its outcome, its description and its failure. -/
structure Done where
  st : PlanState
  so : StepOutcome
  what : String
  failure : String

section Run

variable {ρ : Type} (env : Env ρ) (p : Program ρ)

/-- The steps of the plan. -/
def Program.steps : List Json := (((p.raw.get "plan").bind (·.get "steps")).map Json.items).getD []

/-- The text of a field with the variables put in. -/
def field (vars : VarMap) (step : Json) (k : String) : String :=
  ((step.get k).map fun f => substituteVariables (f.text env.toScripting) vars).getD ""

/-- The name of a step. -/
def stepId (vars : VarMap) (i : Nat) (step : Json) : String :=
  match step.get "id" with
  | some id => substituteVariables (id.text env.toScripting) vars
  | none => "step" ++ toString (i + 1)

def planStepFailed (id text : String) : Issue :=
  ⟨"PLAN_STEP_FAILED", "[" ++ id ++ "] " ++ text, true, 3, []⟩

def resultsJson (results : List String) : String := "[" ++ commaJoin results ++ "]"

/-- Back to the original file. -/
def revertStep (s : PlanState) : Done :=
  ⟨{ s with cur := p.data }, {}, "revert to the original file", ""⟩

/-- Evaluates a variable. -/
def variableStep (s : PlanState) (id : String) (step : Json) : Done :=
  let name := field env s.vars step "variable"
  let old := (s.vars.get name).getD ""
  let set (vars : VarMap) (val : String) : Done :=
    ⟨{ s with
        vars := vars
        analysis := s.analysis ++
          [⟨"VARIABLE_SET", "[" ++ id ++ "] " ++ name ++ " = " ++ val, false, 1, []⟩] },
      { sev := if truthy val then 0 else 3 }, "variable " ++ name ++ " = " ++ val, ""⟩
  match p.defs.find? fun v => v.name == name with
  | none => ⟨s, {}, "", "variable " ++ name ++ " is not defined"⟩
  | some v =>
      if v.script = "" then set s.vars old
      else
        match env.evalScript v.script (env.docJsonOf s.cur p.opt) (s.vars.set name "")
            (resultsJson s.results) with
        | .ok (res, js) =>
            let val := if res = "" then (js.get name).getD "" else res
            set (s.vars.set name val) val
        | .error err => ⟨s, {}, "", "variable " ++ name ++ ": " ++ err⟩

/-- The profile a step runs, whether it converts, its description and its failure. -/
structure SubJob where
  sub : Json
  converts : Bool
  what : String
  failure : String

/-- The profile with one check. -/
def checkJob (vars : VarMap) (step : Json) : SubJob :=
  let name := field env vars step "check"
  let (sub, found) :=
    silenceChecks env.toScripting (withoutKeys p.raw ["plan", "fixes", "convert"]) name
  ⟨.obj sub, false, "check " ++ name,
    if found then "" else "check " ++ name ++ " is not in the profile"⟩

/-- The fix a step names or holds. -/
def fixOf (vars : VarMap) (step : Json) : Json :=
  match step.get "fix" with
  | none => .null
  | some (.obj ms) => .obj ms
  | some f =>
      let name := substituteVariables (f.text env.toScripting) vars
      let all := ((p.raw.get "fixes").map Json.items).getD []
      (all.find? fun c => (c.get "fix").map (Json.text env.toScripting) = some name).getD .null

/-- The profile with one fix. -/
def fixJob (vars : VarMap) (step : Json) : SubJob :=
  let fx := fixOf env p vars step
  let (sub, _) :=
    silenceChecks env.toScripting (withoutKeys p.raw ["plan", "fixes", "convert"]) ""
  ⟨.obj (setKey "fixes" (.arr [fx]) sub), true,
    "fix " ++ ((fx.get "fix").map (Json.text env.toScripting)).getD "?",
    if fx.isObj then ""
    else "fix " ++ ((step.get "fix").map (Json.text env.toScripting)).getD "" ++
      " is not in the profile"⟩

/-- The place of a profile file, relative to the profile that names it. -/
def profileFile (path profilePath : String) : String :=
  let cs := path.toList
  let folder := (profilePath.toList.reverse.dropWhile fun c => c != '/' && c != '\\').reverse
  if cs ≠ [] ∧ cs.head? ≠ some '/' ∧ ':' ∉ cs ∧ folder ≠ [] then String.ofList (folder ++ cs)
  else path

/-- Another profile, from the step itself or from a file. -/
def profileJob (vars : VarMap) (step : Json) : SubJob :=
  let (sub, what, failure) :=
    match step.get "profile" with
    | some (.obj ms) => (Json.obj ms, "profile (inline)", "")
    | _ =>
        let path := field env vars step "profile"
        let what := "profile " ++ path
        match env.readFile (profileFile path p.opt.profilePath) with
        | none => (.null, what, "cannot read profile " ++ path)
        | some text =>
            match env.parseJson text with
            | .error err => (.null, what, "profile " ++ path ++ ": " ++ err)
            | .ok (.obj ms) => (.obj ms, what, "")
            | .ok j => (j, what, "profile " ++ path ++ ": ")
  ⟨sub, hasEntries sub "fixes" || hasEntries sub "convert", what, failure⟩

/-- The options of a step's job. -/
def jobOptions (s : PlanState) (job : SubJob) : Options ρ :=
  { p.opt with
    preflightProfile := jsonText env.toScripting job.sub
    profileVars := s.vars
    verifyOnly := p.opt.verifyOnly || !job.converts }

/-- The result of a step's job. -/
def jobResult (s : PlanState) (job : SubJob) : Result :=
  runPrepared env s.cur (jobOptions env p s job)

/-- The checks of a profile after its conversion. -/
def afterChecks (s : PlanState) (kind : String) (job : SubJob) : StepOutcome :=
  if kind = "profile" ∧ hasEntries job.sub "checks" then
    let r := jobResult env p s job
    let o := jobOptions env p s job
    let v := { o with
      verifyOnly := true, levelFromProfile := false
      level := (levelFromString r.level).getD o.level }
    let after := runPrepared env r.pdf v
    if after.ok then collectHits after {} else { sev := 3 }
  else {}

/-- What a job reports, with the name of its step. -/
def stepAnalysis (id : String) (r : Result) : List Issue :=
  (r.analysis.filter fun i => i.code ≠ "VARIABLE_SET").map fun i =>
    { i with detail := "[" ++ id ++ "] " ++ i.detail }

/-- Runs the job of a step. -/
def jobStep (s : PlanState) (id kind : String) (job : SubJob) : Done :=
  if job.failure ≠ "" then ⟨s, {}, job.what, job.failure⟩
  else
    let r := jobResult env p s job
    let s := { s with analysis := s.analysis ++ stepAnalysis id r }
    if ¬ r.ok then
      ⟨{ s with issues := s.issues ++ [planStepFailed id (job.what ++ ": " ++ r.error)] },
        { sev := 3 }, job.what, ""⟩
    else if ¬ (jobOptions env p s job).verifyOnly then
      ⟨{ s with
          issues := s.issues ++ r.issues
          cur := r.pdf
          converted := true
          level := r.level },
        afterChecks env p s kind job, job.what, ""⟩
    else
      ⟨{ s with compliant := s.compliant && r.compliant }, collectHits r {}, job.what, ""⟩

/-- What the kind of a step does. -/
def perform (s : PlanState) (id : String) (step : Json) : Done :=
  let kind := field env s.vars step "do"
  if kind = "revert" then revertStep p s
  else if kind = "variable" then variableStep env p s id step
  else if kind = "check" then jobStep env p s id kind (checkJob env p s.vars step)
  else if kind = "fix" then jobStep env p s id kind (fixJob env p s.vars step)
  else if kind = "profile" then jobStep env p s id kind (profileJob env p s.vars step)
  else ⟨s, {}, "", "unknown step kind \"" ++ kind ++ "\""⟩

/-- A failure is an issue and the worst outcome. -/
def reportFailure (id : String) (d : Done) : Done :=
  if d.failure = "" then d
  else
    ⟨{ d.st with issues := d.st.issues ++ [planStepFailed id d.failure] },
      { d.so with sev := 3 }, d.failure, d.failure⟩

/-- The word for a severity. -/
def resultKey (sev : Int) : String :=
  if sev ≤ 0 then "pass" else if sev = 1 then "info" else if sev = 2 then "warning" else "error"

/-- The name of the step to follow. -/
def nextName (vars : VarMap) (step : Json) (key : String) : String :=
  match step.get "next" with
  | none => ""
  | some nx =>
      match (nx.get key).or (nx.get "default") with
      | some target => substituteVariables (target.text env.toScripting) vars
      | none => ""

/-- The last step with a name. -/
def findStep (vars : VarMap) (next : String) : Option Nat :=
  ((p.steps.zipIdx.filter fun si => stepId env vars si.2 si.1 == next).getLast?).map Prod.snd

/-- The index of the next step, and the issue if there is no such step. -/
def goTo (vars : VarMap) (i : Nat) (id next : String) : Option Nat × List Issue :=
  if next = "end" then (none, [])
  else if next = "" then (some (i + 1), [])
  else
    match findStep env p vars next with
    | some k => (some k, [])
    | none => (none, [planStepFailed id ("next step \"" ++ next ++ "\" does not exist")])

/-- The record of a step that scripts see. -/
def stepRecord (id : String) (so : StepOutcome) : String :=
  "\x7b\"step\":\"" ++ id ++ "\",\"hits\":" ++ toString so.hits ++ ",\"pages\":[" ++
    commaJoin (so.pages.map toString) ++ "]\x7d"

/-- The name of a step in reports; what is no step is the end. -/
def targetName (vars : VarMap) (i : Option Nat) : String :=
  match i.bind fun k => (p.steps[k]?).map (stepId env vars k) with
  | some name => name
  | none => "end"

/-- Goes on to the next step. -/
def advance (i : Nat) (id : String) (step : Json) (d : Done) : PlanState :=
  let s := d.st
  let key := resultKey d.so.sev
  let (ni, failed) := goTo env p s.vars i id (nextName env s.vars step key)
  { s with
    i := ni
    results := s.results ++ [stepRecord id d.so]
    issues := s.issues ++ failed
    analysis := s.analysis ++
      [⟨"PLAN_STEP", "step " ++ id ++ ": " ++ d.what ++ " -> " ++ key ++ ", next " ++
        targetName env p s.vars ni, false, 1, []⟩] }

/-- The step is switched off. -/
def disabled (vars : VarMap) (step : Json) : Bool :=
  match step.get "enabled" with
  | none => false
  | some (.bool false) => true
  | some en => substituteVariables (en.text env.toScripting) vars == "false"

/-- Executes the step at an index. -/
def execute (i : Nat) (step : Json) (s : PlanState) : PlanState :=
  let id := stepId env s.vars i step
  advance env p i id step (reportFailure id (perform env p s id step))

/-- The step that is next. -/
def current (s : PlanState) : Option (Nat × Json) :=
  s.i.bind fun i => (p.steps[i]?).map fun step => (i, step)

/-- One turn. -/
def turn (i : Nat) (step : Json) (s : PlanState) : PlanState :=
  if disabled env s.vars step then { s with i := some (i + 1) } else execute env p i step s

/-- The loop. -/
def loop : Nat → PlanState → PlanState
  | 0, s => s
  | fuel + 1, s =>
      match current p s with
      | some (i, step) => loop fuel (turn env p i step s)
      | none => s

/-- The state before the first step. -/
def initial (vars : VarMap) (analysis : List Issue) : PlanState where
  i := some 0
  vars := vars
  cur := p.data
  results := []
  converted := false
  issues := []
  analysis := analysis
  level := levelToString p.opt.level
  compliant := true

/-- The result of a run. -/
def finish (s : PlanState) : Result where
  ok := true
  pdf := if p.opt.verifyOnly then [] else s.cur
  issues :=
    if !s.converted && !p.opt.verifyOnly then
      s.issues ++ [⟨"PLAN_NO_CONVERSION",
        "the plan ran no converting step; output equals input", false, 1, []⟩]
    else s.issues
  analysis := s.analysis
  error := ""
  errorCode := ""
  suggestedLevel := ""
  level := s.level
  compliant := s.compliant

end Run

section Jobs

variable {ρ : Type} (env : Env ρ)

/-- The program and its first state; variables that a step sets have no script before it. -/
def start (data : Bytes) (optIn : Options ρ) (raw : Json) : Program ρ × PlanState :=
  let sc := env.toScripting
  let defs := listProfileVariables sc raw
  let steps := (((raw.get "plan").bind (·.get "steps")).map Json.items).getD []
  let stepVars := (steps.filter fun st => fieldText sc st "do" = "variable").filterMap fun st =>
    (st.get "variable").map (Json.text sc)
  let first := defs.map fun v => if stepVars.contains v.name then { v with script := "" } else v
  let (vars, notes) := resolveVariables sc first (env.docJsonOf data optIn) optIn.profileVars "[]"
  let (opt, pre) := applyConvert env (substituteProfile sc raw vars) optIn
  let p : Program ρ := ⟨data, opt, raw, defs⟩
  (p, initial p vars (notes.map variableSet ++ pre))

/-- Runs the plan of a profile. -/
def runPlan (data : Bytes) (optIn : Options ρ) (raw : Json) : Result :=
  let (p, s) := start env data optIn raw
  finish p (loop env p 256 s)

/-- A job: a plan if its profile has one. -/
def convert (data : Bytes) (opt : Options ρ) : Result :=
  if findFrom "\"plan\"".toList opt.preflightProfile.toList 0 = none then runPrepared env data opt
  else
    match env.parseJson opt.preflightProfile with
    | .ok (.obj ms) =>
        match ((Json.obj ms).get "plan").bind (·.get "steps") with
        | some (.arr _) => runPlan env data opt (.obj ms)
        | _ => runPrepared env data opt
    | _ => runPrepared env data opt

end Jobs

end Kura.Engine.Plan
