import Kura.Engine.PlanRun

/-!
# The verdict of a check

The verdict and the list of issues of a check agree if the file is found
compliant exactly when no issue counts against it. The verdict is given once
by `convertOnce`, again for a range of pages, and by hand along a plan.
-/

namespace Kura.Engine.Jobs

/-- The verdict of a check is that of its findings. -/
def Coherent (r : Result) : Prop := r.compliant = true ↔ findings r = 0

theorem findings_eq_zero_iff (r : Result) : findings r = 0 ↔ r.issues.any isFinding = false := by
  rw [findings, List.countP_eq_zero, List.any_eq_false]

/-- A verdict that is read off the issues. -/
theorem coherent_of_eq {r : Result} (h : r.compliant = !r.issues.any isFinding) : Coherent r := by
  rw [Coherent, findings_eq_zero_iff, h, Bool.not_eq_true']

section Checks

variable {ρ : Type} {env : Env ρ} {data : Bytes} {opt : Options ρ}

theorem convertOnce_of_check (hcheck : opt.verifyOnly = true) :
    convertOnce env data opt = convertPass env data opt := by
  rw [convertOnce, if_neg]
  rintro ⟨-, -, hconvert, -⟩
  exact hconvert hcheck

theorem coherent_convertOnce (hcheck : opt.verifyOnly = true)
    (hok : (convertOnce env data opt).ok = true) : Coherent (convertOnce env data opt) := by
  rw [convertOnce_of_check hcheck] at hok ⊢
  unfold convertPass at hok ⊢
  dsimp only at hok ⊢
  split
  · rename_i hstopped
    rw [if_pos hstopped] at hok
    cases hok
  · rename_i hstopped
    rw [if_neg hstopped] at hok
    apply coherent_of_eq
    dsimp only at hok ⊢
    rw [hok, hcheck, Bool.true_and, Bool.true_and]

theorem withFallbacks_of_check (hcheck : opt.verifyOnly = true) (r : Result) :
    withFallbacks env data r opt = r := by
  rw [withFallbacks, if_neg]
  rintro ⟨hconvert, -⟩
  exact hconvert hcheck

/-- A quick check keeps the first finding, if there is one. -/
theorem coherent_quickChecked {r : Result} (hr : Coherent r) : Coherent (quickChecked opt r) := by
  unfold quickChecked
  split
  · split
    · rename_i i hi
      have hfinding := List.find?_some hi
      have hmem := List.mem_of_find?_eq_some hi
      have hnot : r.compliant = false := by
        rw [Bool.eq_false_iff]
        intro hcompliant
        have hnone := (findings_eq_zero_iff r).mp (hr.mp hcompliant)
        rw [List.any_eq_false] at hnone
        exact hnone i hmem hfinding
      apply coherent_of_eq
      dsimp only
      rw [hnot, List.any_cons, hfinding]
      rfl
    · exact hr
  · exact hr

theorem ok_quickChecked (r : Result) : (quickChecked opt r).ok = r.ok := by
  unfold quickChecked
  split
  · split
    · rfl
    · rfl
  · rfl

theorem coherent_pageFiltered {r : Result} (hcheck : opt.verifyOnly = true) (hok : r.ok = true)
    (hr : Coherent r) : Coherent (pageFiltered opt r) := by
  unfold pageFiltered
  split
  · exact hr
  · apply coherent_of_eq
    dsimp only
    rw [if_pos ⟨hcheck, hok⟩]

theorem ok_pageFiltered (r : Result) : (pageFiltered opt r).ok = r.ok := by
  unfold pageFiltered
  split
  · rfl
  · rfl

/-- A check that comes through is coherent. -/
theorem coherent_runPrepared (hcheck : opt.verifyOnly = true)
    (hok : (runPrepared env data opt).ok = true) : Coherent (runPrepared env data opt) := by
  have hprep : (prepare env data opt).1.verifyOnly = true := by
    rw [verifyOnly_prepare, hcheck]
  have honce : (convertOnce env data (prepare env data opt).1).ok = true := by
    have hpage : (pageFiltered (prepare env data opt).1 (quickChecked (prepare env data opt).1
        (withFallbacks env data (convertOnce env data (prepare env data opt).1)
          (prepare env data opt).1))).ok = true := hok
    rw [ok_pageFiltered, ok_quickChecked, withFallbacks_of_check hprep] at hpage
    exact hpage
  have hquick : Coherent (quickChecked (prepare env data opt).1
      (convertOnce env data (prepare env data opt).1)) :=
    coherent_quickChecked (coherent_convertOnce hprep honce)
  have hfiltered := coherent_pageFiltered hprep
    (by rw [ok_quickChecked, honce]) hquick
  unfold runPrepared
  dsimp only
  rw [withFallbacks_of_check hprep]
  exact hfiltered

end Checks

end Kura.Engine.Jobs

namespace Kura.Engine.Plan

open Kura.Engine.Profile Kura.Engine.Jobs

/-- A step of a run finds that the file deviates. -/
def Deviates (es : List Event) : Prop := ∃ r, Event.checked r ∈ es ∧ r.compliant = false

/-- A step of a run fails. -/
def Fails (es : List Event) : Prop := ∃ i, Event.failed i ∈ es

/-- Events of a run that only checks. -/
def Event.OnlyChecks : Event → Prop
  | .converted _ => False
  | .failed i => isFinding i = true
  | _ => True

section Plans

variable {ρ : Type} {env : Env ρ}

theorem onlyChecks_events (data : Bytes) {optIn : Options ρ} (raw : Json)
    (hcheck : optIn.verifyOnly = true) : ∀ e ∈ events env data optIn raw, e.OnlyChecks := by
  have hopt : (start env data optIn raw).1.opt.verifyOnly = true := by
    rw [← hcheck]
    exact verifyOnly_applyConvert env _ _
  apply AllEvents.eventsFrom
  refine ⟨trivial, trivial, fun id text => ?_, fun s job => trivial, fun s job hconvert => ?_⟩
  · show (true && !issueIsNormalization "PLAN_STEP_FAILED") = true
    decide
  · have hverify : (jobOptions env (start env data optIn raw).1 s job).verifyOnly = true := by
      show ((start env data optIn raw).1.opt.verifyOnly || !job.converts) = true
      rw [hopt, Bool.true_or]
    rw [hverify] at hconvert
    cases hconvert

theorem deviates_cons (e : Event) (es : List Event) :
    Deviates (e :: es) ↔ (∃ r, e = .checked r ∧ r.compliant = false) ∨ Deviates es := by
  constructor
  · rintro ⟨r, hr, hnot⟩
    obtain rfl | hrest := List.mem_cons.mp hr
    · exact .inl ⟨r, rfl, hnot⟩
    · exact .inr ⟨r, hrest, hnot⟩
  · rintro (⟨r, rfl, hnot⟩ | ⟨r, hr, hnot⟩)
    · exact ⟨r, List.mem_cons_self, hnot⟩
    · exact ⟨r, List.mem_cons_of_mem _ hr, hnot⟩

theorem fails_cons (e : Event) (es : List Event) :
    Fails (e :: es) ↔ (∃ i, e = .failed i) ∨ Fails es := by
  constructor
  · rintro ⟨i, hi⟩
    obtain rfl | hrest := List.mem_cons.mp hi
    · exact .inl ⟨i, rfl⟩
    · exact .inr ⟨i, hrest⟩
  · rintro (⟨i, rfl⟩ | ⟨i, hi⟩)
    · exact ⟨i, List.mem_cons_self⟩
    · exact ⟨i, List.mem_cons_of_mem _ hi⟩

/-- The verdict of a plan is that of its checks. -/
theorem compliant_foldl (data : Bytes) (l : Ledger) (es : List Event) :
    (es.foldl (Ledger.record data) l).compliant = true ↔ l.compliant = true ∧ ¬ Deviates es := by
  induction es generalizing l with
  | nil =>
      refine ⟨fun h => ⟨h, ?_⟩, fun h => h.1⟩
      rintro ⟨r, hr, -⟩
      cases hr
  | cons e es ih =>
      rw [List.foldl_cons, ih, deviates_cons, not_or, ← and_assoc]
      apply and_congr_left
      intro _
      cases e with
      | checked r => simp [Ledger.record]
      | reverted => simp [Ledger.record]
      | converted r => simp [Ledger.record]
      | failed i => simp [Ledger.record]
      | quiet => simp [Ledger.record]

/-- The findings of a plan are its failures. -/
theorem findings_foldl (data : Bytes) (l : Ledger) (es : List Event)
    (hes : ∀ e ∈ es, e.OnlyChecks) :
    (es.foldl (Ledger.record data) l).issues.any isFinding = false ↔
      l.issues.any isFinding = false ∧ ¬ Fails es := by
  induction es generalizing l with
  | nil =>
      refine ⟨fun h => ⟨h, ?_⟩, fun h => h.1⟩
      rintro ⟨i, hi⟩
      cases hi
  | cons e es ih =>
      have he := hes e List.mem_cons_self
      rw [List.foldl_cons, ih _ fun e' he' => hes e' (List.mem_cons_of_mem _ he'), fails_cons,
        not_or, ← and_assoc]
      apply and_congr_left
      intro _
      cases e with
      | failed i =>
          have hfinding : isFinding i = true := he
          simp [Ledger.record, hfinding]
      | converted r => exact he.elim
      | reverted => simp [Ledger.record]
      | checked r => simp [Ledger.record]
      | quiet => simp [Ledger.record]

/-- A plan that checks is coherent exactly if a step deviates just when a step fails. -/
theorem coherent_runPlan_iff (data : Bytes) {optIn : Options ρ} (raw : Json)
    (hcheck : optIn.verifyOnly = true) :
    Coherent (runPlan env data optIn raw) ↔
      (Deviates (events env data optIn raw) ↔ Fails (events env data optIn raw)) := by
  obtain ⟨s, hrun, hs⟩ := runPlan_eq env data optIn raw
  have hverify : (start env data optIn raw).1.opt.verifyOnly = true := by
    rw [← hcheck]
    exact verifyOnly_applyConvert env _ _
  have hcompliant := compliant_foldl data
    ⟨data, false, levelToString (planOptions env data optIn raw).level, true, []⟩
    (events env data optIn raw)
  have hfindings := findings_foldl data
    ⟨data, false, levelToString (planOptions env data optIn raw).level, true, []⟩
    (events env data optIn raw) (onlyChecks_events data raw hcheck)
  have hout : outcome env data optIn raw = (events env data optIn raw).foldl (Ledger.record data)
      ⟨data, false, levelToString (planOptions env data optIn raw).level, true, []⟩ := rfl
  rw [← hout, ← hs] at hcompliant hfindings
  have hissues : (finish (start env data optIn raw).1 s).issues = s.issues := by
    rw [finish, hverify]
    simp
  rw [hrun, Coherent, findings_eq_zero_iff, hissues]
  have hleft : (finish (start env data optIn raw).1 s).compliant = true ↔
      ¬ Deviates (events env data optIn raw) := hcompliant.trans (and_iff_right rfl)
  have hright : s.issues.any isFinding = false ↔ ¬ Fails (events env data optIn raw) :=
    hfindings.trans (and_iff_right rfl)
  rw [hleft, hright, not_iff_not]

end Plans

/-- A check without a plan is coherent; one with a plan is so exactly if a step finds a
deviation just when a step fails. -/
theorem check_coherent_iff {ρ : Type} (env : Env ρ) (data : Bytes) (opt : Options ρ)
    (hcheck : opt.verifyOnly = true) :
    ((convertOnce env data opt).ok = true → Coherent (convertOnce env data opt)) ∧
    ((runPrepared env data opt).ok = true → Coherent (runPrepared env data opt)) ∧
    ∀ raw, (runPlan env data opt raw).ok = true ∧
      (Coherent (runPlan env data opt raw) ↔
        (Deviates (events env data opt raw) ↔ Fails (events env data opt raw))) :=
  ⟨coherent_convertOnce hcheck, coherent_runPrepared hcheck,
    fun raw => ⟨rfl, coherent_runPlan_iff data raw hcheck⟩⟩

/-- A check against PDF/A-2b. -/
def checkOptions : Options Unit := { plainOptions with verifyOnly := true }

/-- A plan whose steps neither fail nor find a deviation is coherent. -/
theorem revertOnly_coherent :
    checkOptions.verifyOnly = true ∧ Coherent (convertOnce lineEnv [0x25] checkOptions) ∧
    Coherent (runPrepared lineEnv [0x25] checkOptions) ∧
    Coherent (runPlan lineEnv [0x25] checkOptions (planOf [revertJson])) := by
  obtain ⟨honce, hprepared, hplan⟩ := check_coherent_iff lineEnv [0x25] checkOptions rfl
  refine ⟨rfl, honce (by decide), hprepared (by decide), ?_⟩
  refine (hplan (planOf [revertJson])).2.mpr ?_
  have hevents : events lineEnv [0x25] checkOptions (planOf [revertJson]) = [.reverted] := by
    rfl
  rw [hevents]
  constructor
  · rintro ⟨r, hr, -⟩
    cases List.mem_singleton.mp hr
  · rintro ⟨i, hi⟩
    cases List.mem_singleton.mp hi

/-- A profile with one check and a plan that runs it. -/
def checkPlan : Json :=
  .obj [("checks", .arr [.obj [("name", .str "c")]]),
    ("plan", .obj [("steps", .arr [.obj [("do", .str "check"), ("check", .str "c")]])])]

/-- The passes find that the file was encrypted. -/
def encryptedEnv : Env Unit :=
  { lineEnv with
    passes := fun data opt =>
      { stopped := false, pdf := data
        issues := [⟨"ENCRYPTION_REMOVED", "document was encrypted; encryption removed", true, 0,
          []⟩]
        analysis := [], error := "", errorCode := "", suggestedLevel := ""
        level := some opt.level }
    parseJson := fun text =>
      if text = "\x7b\"checks\":[\x7b\"name\":\"c\"\x7d]\x7d" then
        .ok (.obj [("checks", .arr [.obj [("name", .str "c")]])])
      else .error "unexpected character at byte 0" }

/-- The check of an encrypted file by a plan gives a verdict without findings. -/
theorem checkPlan_not_coherent :
    (runPlan encryptedEnv [0x25] checkOptions checkPlan).ok = true ∧
    (runPlan encryptedEnv [0x25] checkOptions checkPlan).compliant = false ∧
    findings (runPlan encryptedEnv [0x25] checkOptions checkPlan) = 0 ∧
    ¬ Coherent (runPlan encryptedEnv [0x25] checkOptions checkPlan) := by
  have hcompliant : (runPlan encryptedEnv [0x25] checkOptions checkPlan).compliant = false := by
    decide
  have hfindings : findings (runPlan encryptedEnv [0x25] checkOptions checkPlan) = 0 := by
    decide
  refine ⟨rfl, hcompliant, hfindings, fun hcoherent => ?_⟩
  have := hcoherent.mpr hfindings
  rw [hcompliant] at this
  cases this

end Kura.Engine.Plan
