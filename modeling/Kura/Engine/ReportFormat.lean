import Kura.Engine.Report
import Kura.Engine.PlanRun

/-!
# The format of reports

Every report is a JSON object. A batch of several processes prints an array
with one object for each input; a batch without them does so exactly if every
input is reported.
-/

namespace Kura.Engine.Report

open Kura.Base Kura.Base.JsonGrammar Kura.Engine.Jobs Kura.Engine.Batch

instance : DecidablePred IsHex := fun c =>
  inferInstanceAs (Decidable (('0' ≤ c ∧ c ≤ '9') ∨ ('a' ≤ c ∧ c ≤ 'f') ∨ ('A' ≤ c ∧ c ≤ 'F')))

/-- A text of some form that has no carriage return. -/
def Tidy (P : List Char → Prop) (s : List Char) : Prop := P s ∧ '\r' ∉ s

/-- A part of a string that is one character or one escape. -/
def isUnit : List Char → Bool
  | [c] => 0x20 ≤ c.toNat && c ≠ '"' && c ≠ '\\'
  | [a, c] => a = '\\' && c ∈ ['"', '\\', '/', 'b', 'f', 'n', 'r', 't']
  | [a, u, w, x, y, z] => a = '\\' && u = 'u' && IsHex w && IsHex x && IsHex y && IsHex z
  | _ => false

theorem stringBody_append {u s : List Char} (hu : isUnit u = true) (hs : StringBody s) :
    StringBody (u ++ s) := by
  unfold isUnit at hu
  split at hu
  · simp only [Bool.and_eq_true, decide_eq_true_eq] at hu
    exact .char hu.1.1 hu.1.2 hu.2 hs
  · simp only [Bool.and_eq_true, decide_eq_true_eq] at hu
    obtain ⟨rfl, hc⟩ := hu
    exact .escape hc hs
  · simp only [Bool.and_eq_true, decide_eq_true_eq] at hu
    obtain ⟨⟨⟨⟨⟨rfl, rfl⟩, hw⟩, hx⟩, hy⟩, hz⟩ := hu
    exact .unicode hw hx hy hz hs
  · cases hu

theorem isUnit_escapeByte (c : UInt8) : isUnit (escapeByte c) = true ∧ '\r' ∉ escapeByte c := by
  have hall : ∀ n : Nat, n < 256 → isUnit (escapeByte (UInt8.ofNat n)) = true ∧
      '\r' ∉ escapeByte (UInt8.ofNat n) := by
    decide +kernel
  have hc := hall c.toNat (UInt8.toNat_lt c)
  rwa [UInt8.ofNat_toNat] at hc

/-- A body in quotes. -/
theorem tidy_quotes {body : List Char} (h : Tidy StringBody body) :
    Tidy Quoted ('"' :: body ++ ['"']) := by
  refine ⟨⟨body, h.1, rfl⟩, ?_⟩
  simp only [List.cons_append, List.mem_cons, List.mem_append, List.not_mem_nil, or_false, not_or]
  exact ⟨by decide, h.2, by decide⟩

theorem tidy_quoted (s : String) : Tidy Quoted (quoted s) := by
  apply tidy_quotes
  unfold jsonEscape
  induction utf8 s.toList with
  | nil => exact ⟨.nil, List.not_mem_nil⟩
  | cons c cs ih =>
      obtain ⟨hunit, hclean⟩ := isUnit_escapeByte c
      rw [List.flatMap_cons]
      refine ⟨stringBody_append hunit ih.1, ?_⟩
      rw [List.mem_append, not_or]
      exact ⟨hclean, ih.2⟩

/-- A text that needs no escape. -/
def isPlain (s : String) : Bool :=
  s.toList.all fun c => 0x20 ≤ c.toNat && c ≠ '"' && c ≠ '\\'

theorem tidy_bare {s : String} (h : isPlain s = true) : Tidy Quoted (bare s) := by
  apply tidy_quotes
  unfold isPlain at h
  revert h
  induction s.toList with
  | nil => exact fun _ => ⟨.nil, List.not_mem_nil⟩
  | cons c cs ih =>
      intro h
      rw [List.all_cons, Bool.and_eq_true] at h
      have hrest := ih h.2
      simp only [Bool.and_eq_true, decide_eq_true_eq] at h
      refine ⟨.char h.1.1.1 h.1.1.2 h.1.2 hrest.1, ?_⟩
      rw [List.mem_cons, not_or]
      refine ⟨?_, hrest.2⟩
      rintro rfl
      exact absurd h.1.1.1 (by decide)

theorem tidy_str {s : List Char} (h : Tidy Quoted s) : Tidy Value s := ⟨.str h.1, h.2⟩

theorem tidy_boolText (b : Bool) : Tidy Value (boolText b) := by
  cases b with
  | true => exact ⟨.true, by decide⟩
  | false => exact ⟨.false, by decide⟩

theorem head_toDigits (n : Nat) (hn : n ≠ 0) : (Nat.toDigits 10 n).head? ≠ some '0' := by
  induction n using Nat.strongRecOn with
  | ind n ih =>
      by_cases hsmall : n < 10
      · have hdigit : ∀ m, m < 10 → m ≠ 0 → Nat.digitChar m ≠ '0' := by decide
        rw [Nat.toDigits_of_lt_base hsmall, List.head?_cons, Ne, Option.some.injEq]
        exact hdigit n hsmall hn
      · rw [Nat.toDigits_of_base_le (by decide) (by omega), List.head?_append_of_ne_nil _
          Nat.toDigits_ne_nil]
        exact ih (n / 10) (by omega) (by omega)

theorem whole_toDigits (n : Nat) : Whole (Nat.toDigits 10 n) := by
  by_cases hn : n = 0
  · subst hn
    exact .inl (Nat.toDigits_zero 10)
  · refine .inr ⟨⟨Nat.toDigits_ne_nil, fun c hc => ?_⟩, head_toDigits n hn⟩
    exact Nat.isDigit_of_mem_toDigits (by decide) (by decide) hc

theorem tidy_intText (n : Int) : Tidy Value (intText n) := by
  refine ⟨.num ⟨if n < 0 then ['-'] else [], Nat.toDigits 10 n.natAbs, [], [], ?_, ?_,
    whole_toDigits _, .inl rfl, .inl rfl⟩, ?_⟩
  · rw [List.append_nil, List.append_nil]
    rfl
  · split
    · exact .inr rfl
    · exact .inl rfl
  · unfold intText
    rw [List.mem_append, not_or]
    constructor
    · split
      · decide
      · exact List.not_mem_nil
    · intro hmem
      exact absurd (Nat.isDigit_of_mem_toDigits (by decide) (by decide) hmem) (by decide)

theorem tidy_member {key : String} {v : List Char} (hkey : isPlain key = true)
    (hv : Tidy Value v) : Tidy Member (member key v) := by
  have hk := tidy_bare hkey
  refine ⟨⟨bare key, v, hk.1, hv.1, rfl⟩, ?_⟩
  rw [member, List.mem_append, List.mem_cons, not_or, not_or]
  exact ⟨hk.2, by decide, hv.2⟩

theorem cr_notMem_joinComma {ms : List (List Char)} (h : ∀ m ∈ ms, '\r' ∉ m) :
    '\r' ∉ joinComma ms := by
  induction ms with
  | nil => exact List.not_mem_nil
  | cons m ms ih =>
      cases ms with
      | nil => exact h m List.mem_cons_self
      | cons m' ms =>
          rw [joinComma, List.mem_append, List.mem_cons, not_or, not_or]
          · exact ⟨h m List.mem_cons_self, by decide,
              ih fun u hu => h u (List.mem_cons_of_mem _ hu)⟩
          · exact List.cons_ne_nil _ _

theorem tidy_array {items : List (List Char)} (h : ∀ v ∈ items, Tidy Value v) :
    Tidy Value (array items) := by
  refine ⟨value_arr fun v hv => (h v hv).1, ?_⟩
  have hjoin := cr_notMem_joinComma fun v hv => (h v hv).2
  simp only [array, List.cons_append, List.mem_cons, List.mem_append, List.not_mem_nil, or_false,
    not_or]
  exact ⟨by decide, hjoin, by decide⟩

theorem tidy_object {members : List (List Char)} (h : ∀ m ∈ members, Tidy Member m) :
    Tidy Object (object members) := by
  refine ⟨object_joinComma fun m hm => (h m hm).1, ?_⟩
  have hjoin := cr_notMem_joinComma fun m hm => (h m hm).2
  simp only [object, List.cons_append, List.mem_cons, List.mem_append, List.not_mem_nil, or_false,
    not_or]
  exact ⟨by decide, hjoin, by decide⟩

theorem tidy_value_object {members : List (List Char)} (h : ∀ m ∈ members, Tidy Member m) :
    Tidy Value (object members) :=
  ⟨value_of_object (tidy_object h).1, (tidy_object h).2⟩

theorem tidy_text {key : String} (hkey : isPlain key = true) (s : String) :
    Tidy Member (member key (quoted s)) := tidy_member hkey (tidy_str (tidy_quoted s))

theorem tidy_optional {key : String} (hkey : isPlain key = true) (s : String) :
    ∀ m ∈ optional key s, Tidy Member m := by
  intro m hm
  unfold optional at hm
  split at hm
  · cases hm
  · rw [List.mem_singleton.mp hm]
    exact tidy_text hkey s

theorem tidy_issueMeta (i : Issue) : ∀ m ∈ issueMeta i, Tidy Member m := by
  intro m hm
  simp only [issueMeta, List.mem_cons, List.not_mem_nil, or_false] at hm
  obtain rfl | rfl := hm
  · exact tidy_member (by decide) (tidy_intText _)
  · refine tidy_member (by decide) (tidy_array fun v hv => ?_)
    obtain ⟨n, -, rfl⟩ := List.mem_map.mp hv
    exact tidy_intText n

theorem tidy_issueJson (i : Issue) : Tidy Value (issueJson i) := by
  apply tidy_value_object
  intro m hm
  obtain hm | hm := List.mem_append.mp hm
  · simp only [List.mem_cons, List.not_mem_nil, or_false] at hm
    obtain rfl | rfl | rfl := hm
    · exact tidy_text (by decide) _
    · exact tidy_text (by decide) _
    · exact tidy_member (by decide) (tidy_boolText _)
  · exact tidy_issueMeta i m hm

theorem tidy_analysisJson (i : Issue) : Tidy Value (analysisJson i) := by
  apply tidy_value_object
  intro m hm
  obtain hm | hm := List.mem_append.mp hm
  · simp only [List.mem_cons, List.not_mem_nil, or_false] at hm
    obtain rfl | rfl := hm
    · exact tidy_text (by decide) _
    · exact tidy_text (by decide) _
  · exact tidy_issueMeta i m hm

theorem isPlain_levelToString (l : Level) : isPlain (levelToString l) = true := by
  cases l <;> decide

section Members

variable {ρ : Type}

/-- Every part of a report is a member without a carriage return. -/
theorem tidy_reportMembers (g : Globals) (opt : Options ρ) {res : Result} (source output : String)
    (hlevel : isPlain res.level = true) :
    ∀ m ∈ reportMembers g opt res source output, Tidy Member m := by
  intro m hm
  unfold reportMembers at hm
  obtain hm | hm := List.mem_append.mp hm
  · exact tidy_optional (by decide) _ m hm
  obtain hm | hm := List.mem_append.mp hm
  · exact tidy_optional (by decide) _ m hm
  obtain hm | hm := List.mem_append.mp hm
  · simp only [List.mem_cons, List.not_mem_nil, or_false] at hm
    obtain rfl | rfl | rfl := hm
    · exact tidy_member (by decide) (tidy_boolText _)
    · apply tidy_member (by decide)
      split
      · exact tidy_str (tidy_bare (isPlain_levelToString _))
      · exact tidy_str (tidy_bare hlevel)
    · exact tidy_member (by decide) (tidy_str (tidy_bare (by decide)))
  obtain hm | hm := List.mem_append.mp hm
  · split at hm
    · cases hm
    · simp only [List.mem_cons, List.not_mem_nil, or_false] at hm
      obtain rfl | rfl := hm
      · exact tidy_text (by decide) _
      · exact tidy_text (by decide) _
  obtain hm | hm := List.mem_append.mp hm
  · exact tidy_optional (by decide) _ m hm
  obtain hm | hm := List.mem_append.mp hm
  · split at hm
    · simp only [List.mem_cons, List.not_mem_nil, or_false] at hm
      obtain rfl | rfl | rfl := hm
      · exact tidy_member (by decide) (tidy_str (tidy_bare (by decide)))
      · exact tidy_member (by decide) (tidy_boolText _)
      · exact tidy_member (by decide) (tidy_intText _)
    · cases hm
  obtain hm | hm := List.mem_append.mp hm
  · rw [List.mem_singleton.mp hm]
    refine tidy_member (by decide) (tidy_array fun v hv => ?_)
    obtain ⟨i, -, rfl⟩ := List.mem_map.mp hv
    exact tidy_issueJson i
  obtain hm | hm := List.mem_append.mp hm
  · split at hm
    · rw [List.mem_singleton.mp hm]
      refine tidy_member (by decide) (tidy_array fun v hv => ?_)
      obtain ⟨i, -, rfl⟩ := List.mem_map.mp hv
      exact tidy_analysisJson i
    · cases hm
  · exact tidy_optional (by decide) _ m hm

/-- Every report is an object. -/
theorem tidy_printReport (g : Globals) (opt : Options ρ) {res : Result} (source output : String)
    (hlevel : isPlain res.level = true) : Tidy Object (printReport g opt res source output) :=
  tidy_object (tidy_reportMembers g opt source output hlevel)

end Members

section Levels

theorem isPlain_append {s t : String} (hs : isPlain s = true) (ht : isPlain t = true) :
    isPlain (s ++ t) = true := by
  unfold isPlain at hs ht ⊢
  rw [String.toList_append, List.all_append, hs, ht]
  rfl

variable {ρ : Type} (env : Env ρ)

theorem isPlain_convertPass (data : Bytes) (opt : Options ρ) :
    isPlain (convertPass env data opt).level = true := by
  have hlevel : ∀ l : Option Level, isPlain ((l.map levelToString).getD "") = true := by
    intro l
    cases l with
    | none => rfl
    | some l => exact isPlain_levelToString l
  unfold convertPass
  dsimp only
  split
  · exact hlevel _
  · exact hlevel _

theorem isPlain_convertOnce (data : Bytes) (opt : Options ρ) :
    isPlain (convertOnce env data opt).level = true := by
  unfold convertOnce
  split
  · dsimp only
    split
    · dsimp only
      split
      · apply isPlain_append
        · exact isPlain_append (isPlain_levelToString _) (by decide)
        · exact isPlain_levelToString _
      · exact isPlain_convertPass env _ _
    · exact isPlain_convertPass env _ _
  · exact isPlain_convertPass env _ _

/-- The fallbacks leave a plain level. -/
theorem isPlain_withFallbacks (data : Bytes) {r : Result} (hr : isPlain r.level = true)
    (opt : Options ρ) : isPlain (withFallbacks env data r opt).level = true := by
  have hsecond : ∀ r2, reconverted env r opt = some r2 → isPlain r2.level = true := by
    intro r2 h2
    unfold reconverted at h2
    dsimp only at h2
    split at h2
    · cases h2
      exact isPlain_convertOnce env _ _
    · cases h2
  have himages : ∀ check r3, rasterized env data r check opt = some r3 →
      isPlain r3.level = true := by
    intro check r3 h3
    unfold rasterized at h3
    dsimp only at h3
    split at h3
    · cases h3
      exact isPlain_convertOnce env _ _
    · cases h3
  unfold withFallbacks
  split
  · split
    · rename_i r2 h2
      exact hsecond r2 h2
    · split
      · cases h3 : rasterized env data r (lastCheck env r opt) opt with
        | none => exact hr
        | some r3 => exact himages _ r3 h3
      · exact hr
  · exact hr

theorem level_quickChecked (opt : Options ρ) (r : Result) :
    (quickChecked opt r).level = r.level := by
  unfold quickChecked
  split
  · split
    · rfl
    · rfl
  · rfl

theorem level_pageFiltered (opt : Options ρ) (r : Result) :
    (pageFiltered opt r).level = r.level := by
  unfold pageFiltered
  split
  · rfl
  · rfl

theorem isPlain_runPrepared (data : Bytes) (opt : Options ρ) :
    isPlain (runPrepared env data opt).level = true := by
  unfold runPrepared
  dsimp only
  rw [level_pageFiltered, level_quickChecked]
  exact isPlain_withFallbacks env data (isPlain_convertOnce env _ _) _

/-- The level of a plan is its target or that of its last conversion. -/
theorem isPlain_runPlan (data : Bytes) (opt : Options ρ) (raw : Profile.Json) :
    isPlain (Plan.runPlan env data opt raw).level = true := by
  obtain ⟨s, hrun, hledger⟩ := Plan.runPlan_eq env data opt raw
  have hlevel : (Plan.runPlan env data opt raw).level =
      (Plan.outcome env data opt raw).level := by
    rw [hrun, ← hledger]
    rfl
  have hall : Plan.AllEvents env (Plan.start env data opt raw).1
      fun e => ∀ r, e = Plan.Event.converted r → isPlain r.level = true :=
    { reverted := fun r h => by cases h
      quiet := fun r h => by cases h
      failed := fun id text r h => by cases h
      checked := fun s job r h => by cases h
      converted := fun s job hverify r h => by
        cases h
        exact isPlain_runPrepared env _ _ }
  rw [hlevel, Plan.outcome, (Plan.conversions_foldl data _ true [] _).2.1]
  cases hlast : Plan.lastConversion (Plan.events env data opt raw) with
  | none => exact isPlain_levelToString _
  | some r =>
      obtain ⟨e, he, hresult⟩ := List.exists_of_findSome?_eq_some hlast
      have hconverted : e = Plan.Event.converted r := by
        cases e with
        | converted r' =>
            cases hresult
            rfl
        | reverted => cases hresult
        | checked r' => cases hresult
        | failed i => cases hresult
        | quiet => cases hresult
      exact hall.eventsFrom _ _ e (List.mem_reverse.mp he) r hconverted

/-- A conversion has a plain level. -/
theorem isPlain_convert (data : Bytes) (opt : Options ρ) :
    isPlain (Plan.convert env data opt).level = true := by
  have hprepared := isPlain_runPrepared env data opt
  have hplan := isPlain_runPlan env data opt
  unfold Plan.convert
  split
  · exact hprepared
  · cases env.parseJson opt.preflightProfile with
    | error e => exact hprepared
    | ok j =>
        cases j with
        | obj ms =>
            dsimp only
            split
            · exact hplan _
            · exact hprepared
        | _ => exact hprepared

theorem isPlain_converted (c : Setup ρ) (opt : Options ρ) (data : Bytes) :
    isPlain (converted c opt data).2.level = true := by
  unfold converted
  dsimp only
  split
  · exact isPlain_convert c.env _ _
  · exact isPlain_convert c.env _ _

theorem level_uaResult (c : Setup ρ) (opt : Options ρ) (data : Bytes) :
    (uaResult c opt data).level = "ua1" := by
  unfold uaResult
  split
  · rfl
  · split
    · rfl
    · rfl

end Levels

section One

variable {ρ : Type}

/-- A report of a file: an object that starts with the name of the file. -/
def IsReportOf (src : Path) (s : List Char) : Prop :=
  Object s ∧ (pathText src ≠ "" →
    ('\x7b' :: member "file" (quoted (pathText src))) <+: s)

theorem start_joinComma (m : List Char) (ms : List (List Char)) : m <+: joinComma (m :: ms) := by
  cases ms with
  | nil => exact List.prefix_refl m
  | cons m' ms => exact List.prefix_append m _

theorem start_object (m : List Char) (ms : List (List Char)) :
    ('\x7b' :: m) <+: object (m :: ms) := by
  rw [object, List.cons_append, List.cons_prefix_cons]
  exact ⟨rfl, (start_joinComma m ms).trans (List.prefix_append _ _)⟩

theorem tidy_report (g : Globals) (opt : Options ρ) {res : Result} (src : Path) (output : String)
    (hlevel : isPlain res.level = true) :
    Tidy (IsReportOf src) (printReport g opt res (pathText src) output) := by
  have htidy := tidy_printReport g opt (pathText src) output hlevel
  refine ⟨⟨htidy.1, fun hne => ?_⟩, htidy.2⟩
  have hfile : optional "file" (pathText src) = [member "file" (quoted (pathText src))] :=
    if_neg hne
  rw [printReport, reportMembers, hfile]
  exact start_object _ _

theorem tidy_noReport (src : Path) : Tidy (IsReportOf src) (noReport src) := by
  have htidy : Tidy Object (noReport src) := by
    apply tidy_object
    intro m hm
    simp only [List.mem_cons, List.not_mem_nil, or_false] at hm
    obtain rfl | rfl := hm
    · exact tidy_text (by decide) _
    · exact tidy_member (by decide) (tidy_boolText _)
  exact ⟨⟨htidy.1, fun _ => start_object _ _⟩, htidy.2⟩

/-- The output of a file has to be written. -/
def writes (c : Setup ρ) (opt : Options ρ) (src : Path) (data : Bytes) : Bool :=
  let opt := c.embed src data opt
  !c.globals.pureUa && (converted c opt data).2.ok && !(converted c opt data).1.verifyOnly

/-- The file can be read, and its output can be written if there is one. -/
def accessible (c : Setup ρ) (opt : Options ρ) (t : Tree) (src dst : Path) : Bool :=
  (t.read src).any fun data => !writes c opt src data || c.writable dst

/-- A file is reported if it and its output are accessible. -/
theorem runOne_text (c : Setup ρ) (opt : Options ρ) (t : Tree) (src dst : Path) :
    (accessible c opt t src dst = true ∧ ∃ s, Tidy (IsReportOf src) s ∧
      (runOne c opt t src dst).text = some (s ++ ['\n'])) ∨
    (accessible c opt t src dst = false ∧ (runOne c opt t src dst).text = none) := by
  unfold accessible runOne
  cases hread : t.read src with
  | none => exact .inr ⟨rfl, rfl⟩
  | some data =>
      have hlevel := isPlain_converted c (c.embed src data opt) data
      have hua : isPlain (uaResult c (c.embed src data opt) data).level = true := by
        rw [level_uaResult]
        decide
      dsimp only [Option.any_some]
      by_cases hpure : c.globals.pureUa
      · rw [if_pos hpure]
        refine .inl ⟨?_, _, tidy_report _ _ src "" hua, rfl⟩
        simp [writes, hpure]
      · rw [if_neg hpure]
        split
        · rename_i hout
          split
          · rename_i hwritable
            refine .inl ⟨by simp [hwritable], _, tidy_report _ _ src _ ?_, rfl⟩
            split
            · exact hlevel
            · exact hlevel
          · rename_i hwritable
            refine .inr ⟨?_, rfl⟩
            simp [writes, hpure, hout.1, hout.2, hwritable]
        · rename_i hout
          refine .inl ⟨?_, _, tidy_report _ _ src "" hlevel, rfl⟩
          have hwrites : writes c opt src data = false := by
            by_contra hne
            apply hout
            simpa [writes, hpure] using hne
          simp [hwrites]

end One

section Parallel

variable {ρ : Type}

/-- Only the line end behind a report is cut off. -/
theorem trimOutput_report {src : Path} {s : List Char} (h : Tidy (IsReportOf src) s) :
    trimOutput (s ++ ['\n']) = s := by
  obtain ⟨body, -, rfl⟩ := h.1.1
  have hclean : ('\x7b' :: body ++ ['\x7d'] ++ ['\n']).filter (· ≠ '\r') =
      '\x7b' :: body ++ ['\x7d'] ++ ['\n'] := by
    rw [List.filter_eq_self]
    intro c hc
    obtain hin | hend := List.mem_append.mp hc
    · have hne : c ≠ '\r' := fun heq => h.2 (heq ▸ hin)
      simpa using hne
    · rw [List.mem_singleton.mp hend]
      decide
  unfold trimOutput
  rw [hclean, List.reverse_append, List.reverse_append]
  simp

/-- The output of a process is a report, or there is none. -/
theorem childOutput_report (c : Setup ρ) (o : BatchOptions) (opt : Options ρ) (t : Tree)
    (src : Path) : childOutput c o opt t src = [] ∨ IsReportOf src (childOutput c o opt t src) := by
  unfold childOutput
  split
  · exact .inl rfl
  · rename_i d hdst
    obtain ⟨-, s, hs, htext⟩ | ⟨-, htext⟩ :=
      runOne_text c opt (withDestination o t src) src (d.getD [])
    · rw [htext, Option.getD_some, trimOutput_report hs]
      exact .inr hs.1
    · rw [htext]
      exact .inl rfl

/-- Blanks may stand before the items of an array. -/
theorem itemsFor_blank {α : Type*} {P : α → List Char → Prop} {xs : List α} {s blank : List Char}
    (hblank : Blank blank) (h : ItemsFor P xs s) : ItemsFor P xs (blank ++ s) := by
  have hboth : ∀ {a : List Char}, Blank a → Blank (blank ++ a) := by
    intro a ha c hc
    obtain hc | hc := List.mem_append.mp hc
    · exact hblank c hc
    · exact ha c hc
  cases h with
  | nil ha => exact .nil (hboth ha)
  | one ha hv hb =>
      have hone := ItemsFor.one (hboth ha) hv hb
      simpa only [List.append_assoc] using hone
  | more ha hv hb hs =>
      have hmore := ItemsFor.more (hboth ha) hv hb hs
      simpa only [List.append_assoc] using hmore

theorem blank_newline : Blank ['\n'] := fun _ hc => .inr (.inr (.inl (List.mem_singleton.mp hc)))

/-- A report with the comma and the line end behind it, before the other items. -/
theorem itemsFor_line {src : Path} {rest : List Path} {s blank text : List Char}
    (hs : IsReportOf src s) (hblank : Blank blank) (htext : ItemsFor IsReportOf rest text) :
    ItemsFor IsReportOf (src :: rest)
      (s ++ blank ++ (if rest = [] then [] else [',']) ++ '\n' :: text) := by
  cases rest with
  | nil =>
      cases htext with
      | nil ha =>
          have hend : Blank (blank ++ '\n' :: text) := by
            intro c hc
            obtain hc | hc := List.mem_append.mp hc
            · exact hblank c hc
            · obtain rfl | hc := List.mem_cons.mp hc
              · exact .inr (.inr (.inl rfl))
              · exact ha c hc
          have hone := ItemsFor.one (P := IsReportOf) blank_nil hs hend
          simpa using hone
  | cons next rest =>
      have hmore := ItemsFor.more blank_nil hs hblank (itemsFor_blank blank_newline htext)
      simpa using hmore

/-- The parallel batch writes one report for each input. -/
theorem itemsFor_parallel (c : Setup ρ) (o : BatchOptions) (opt : Options ρ)
    (during : Path → Tree) (inputs : List Path) :
    ItemsFor IsReportOf inputs (parallel c o opt during inputs) := by
  induction inputs with
  | nil => exact .nil blank_nil
  | cons src rest ih =>
      have hline : ∀ s, IsReportOf src s → ItemsFor IsReportOf (src :: rest)
          (s ++ (if rest = [] then [] else [',']) ++ '\n' :: parallel c o opt during rest) := by
        intro s hs
        have hitems := itemsFor_line hs blank_nil ih
        rwa [List.append_nil] at hitems
      rw [parallel]
      split
      · exact hline _ (tidy_noReport src).1
      · rename_i hout
        obtain hnone | hreport := childOutput_report c o opt (during src) src
        · exact absurd hnone hout
        · exact hline _ hreport

end Parallel

section Sequential

variable {ρ : Type} (c : Setup ρ) (o : BatchOptions) (opt : Options ρ)

/-- The inputs with the files as they are when their turn comes. -/
def turns : Tree → List Path → List (Tree × Path)
  | _, [] => []
  | t, src :: rest =>
      (t, src) ::
        match dstFor o t src with
        | none => turns t rest
        | some d => turns (runOne c opt (withDestination o t src) src (d.getD [])).tree rest

/-- An input that is not refused and is accessible. -/
def served (turn : Tree × Path) : Bool :=
  (dstFor o turn.1 turn.2).any fun d =>
    accessible c opt (withDestination o turn.1 turn.2) turn.2 (d.getD [])

theorem length_turns (t : Tree) (inputs : List Path) :
    (turns c o opt t inputs).length = inputs.length := by
  induction inputs generalizing t with
  | nil => rfl
  | cons src rest ih =>
      rw [turns, List.length_cons, List.length_cons]
      split
      · rw [ih]
      · rw [ih]

/-- The turn of an input: it is refused, reported, or not accessible. -/
theorem sequential_cons (t : Tree) (src : Path) (rest : List Path) :
    (served c o opt (t, src) = false ∧
      sequential c o opt t (src :: rest) = sequential c o opt t rest ∧
      turns c o opt t (src :: rest) = (t, src) :: turns c o opt t rest) ∨
    ∃ t' : Tree, turns c o opt t (src :: rest) = (t, src) :: turns c o opt t' rest ∧
      ((served c o opt (t, src) = true ∧ ∃ s, IsReportOf src s ∧
        sequential c o opt t (src :: rest) = s ++ ['\n'] ++
          (if rest = [] then [] else [',']) ++ '\n' :: sequential c o opt t' rest) ∨
      (served c o opt (t, src) = false ∧
        sequential c o opt t (src :: rest) =
          (if rest = [] then [] else [',']) ++ '\n' :: sequential c o opt t' rest)) := by
  cases hdst : dstFor o t src with
  | none =>
      refine .inl ⟨?_, ?_, ?_⟩
      · rw [served, hdst]
        rfl
      · rw [sequential, hdst]
      · rw [turns, hdst]
  | some d =>
      refine .inr ⟨(runOne c opt (withDestination o t src) src (d.getD [])).tree, ?_, ?_⟩
      · rw [turns, hdst]
      · have hserved : served c o opt (t, src) =
            accessible c opt (withDestination o t src) src (d.getD []) := by
          rw [served, hdst]
          rfl
        have hsequential : sequential c o opt t (src :: rest) =
            (runOne c opt (withDestination o t src) src (d.getD [])).text.getD [] ++
              (if rest = [] then [] else [',']) ++ '\n' ::
              sequential c o opt
                (runOne c opt (withDestination o t src) src (d.getD [])).tree rest := by
          rw [sequential, hdst]
        rw [hserved, hsequential]
        obtain ⟨haccess, s, hs, htext⟩ | ⟨haccess, htext⟩ :=
          runOne_text c opt (withDestination o t src) src (d.getD [])
        · refine .inl ⟨haccess, s, hs.1, ?_⟩
          rw [htext, Option.getD_some]
        · refine .inr ⟨haccess, ?_⟩
          rw [htext, Option.getD_none, List.nil_append]

/-- The sequential batch writes one report for each input it serves. -/
theorem itemsFor_sequential {t : Tree} {inputs : List Path}
    (h : ∀ turn ∈ turns c o opt t inputs, served c o opt turn = true) :
    ItemsFor IsReportOf inputs (sequential c o opt t inputs) := by
  induction inputs generalizing t with
  | nil => exact .nil blank_nil
  | cons src rest ih =>
      obtain ⟨hserved, -, hturns⟩ | ⟨t', hturns, hline⟩ := sequential_cons c o opt t src rest
      · have hall := h (t, src) (by rw [hturns]; exact List.mem_cons_self)
        rw [hserved] at hall
        cases hall
      · have hrest : ItemsFor IsReportOf rest (sequential c o opt t' rest) := by
          apply ih
          intro turn hturn
          apply h turn
          rw [hturns]
          exact List.mem_cons_of_mem _ hturn
        obtain ⟨-, s, hs, htext⟩ | ⟨hserved, -⟩ := hline
        · rw [htext]
          exact itemsFor_line hs blank_newline hrest
        · have hall := h (t, src) (by rw [hturns]; exact List.mem_cons_self)
          rw [hserved] at hall
          cases hall

/-- What stands behind a report is passed over. -/
theorem scan_separator (rest : List Path) (text : List Char) (n : Nat) :
    ((if rest = [] then [] else [',']) ++ '\n' :: text).foldl Scan.step ⟨n, 1, .out⟩ =
      text.foldl Scan.step ⟨n, 1, .out⟩ := by
  split
  · rfl
  · rfl

/-- A scan finds one object for each input that is served. -/
theorem scan_sequential (t : Tree) (inputs : List Path) (n : Nat) :
    (sequential c o opt t inputs).foldl Scan.step ⟨n, 1, .out⟩ =
      ⟨n + (turns c o opt t inputs).countP (served c o opt), 1, .out⟩ := by
  induction inputs generalizing t n with
  | nil => rfl
  | cons src rest ih =>
      obtain ⟨hserved, htext, hturns⟩ | ⟨t', hturns, hline⟩ := sequential_cons c o opt t src rest
      · rw [htext, hturns, ih, List.countP_cons_of_neg (by simp [hserved])]
      · rw [hturns]
        obtain ⟨hserved, s, hs, htext⟩ | ⟨hserved, htext⟩ := hline
        · have hreport : (s ++ ['\n']).foldl Scan.step ⟨n, 1, .out⟩ = ⟨n + 1, 1, .out⟩ := by
            rw [List.foldl_append, scan_object hs.1]
            rfl
          rw [htext, List.append_assoc (s ++ ['\n']), List.foldl_append, hreport, scan_separator,
            ih, List.countP_cons_of_pos hserved]
          congr 1
          omega
        · rw [htext, scan_separator, ih, List.countP_cons_of_neg (by simp [hserved])]

end Sequential

theorem object_of_isReportOf {src : Path} {s : List Char} (h : IsReportOf src s) : Object s := h.1

/-- What the watchdog prints does not end an array. -/
theorem not_arrayFor_timeout {P : Path → List Char → Prop} {inputs : List Path} {text : List Char}
    (g : Globals) : ¬ ArrayFor P inputs (text ++ timeoutReport g) := by
  rintro ⟨body, -, hbody⟩
  have hlast : (text ++ timeoutReport g).getLast? = some '\n' := by
    obtain ⟨front, hfront⟩ : ∃ front, timeoutReport g = front ++ ['\n'] :=
      ⟨_, (List.append_assoc _ ['\n', '\x7d'] ['\n']).symm⟩
    rw [hfront, ← List.append_assoc, List.getLast?_concat]
  rw [hbody, List.getLast?_concat] at hlast
  cases hlast

/-- Files are converted by adding a line; one of the outputs cannot be written. -/
def lockedSetup : Setup Unit where
  env := Plan.lineEnv
  globals := ⟨false, false, false, false, ""⟩
  embed _ _ opt := opt
  uaCheck _ := .ok []
  fresh := Plan.plainOptions
  writable p := p != names "out/a.pdf".toList
  certified _ := false

/-- Two files in a folder. -/
def lockedTree : Tree where
  files := (AList.singleton (names "in/b.pdf".toList) [0x25]).insert
    (names "in/a.pdf".toList) [0x25]
  dirs := [names "in".toList, names "out".toList]

def lockedOptions : BatchOptions := ⟨false, false, false, some (names "out".toList), "", false⟩

end Kura.Engine.Report
