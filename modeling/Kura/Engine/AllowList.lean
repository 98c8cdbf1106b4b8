import Kura.Engine.Cli
import Kura.Server.Accepted

/-!
# Accepted jobs on the command line

The server lets argument lists through that name options from its own tables.
The engine reads the resolved words with tables of its own. Both agree on
which options take a value, so no value, password or file name is ever taken
for an option.
-/

namespace Kura.Engine

open Kura.Server

/-- The options a job may have, with whether a value follows. -/
def allowList : List (String × Bool) :=
  [("--check", false), ("--verify-password", false), ("--level", true), ("--password", true),
    ("--profile", true)] ++ boolFlags.map (fun f => (f.2, false)) ++
    textFlags.map (fun f => (f.2, true)) ++ fileFields.map fun f => (f.2.1, true)

/-- The words an option with its value is given by. -/
def optionWords (o : String × Option String) : List String := o.1 :: o.2.toList

/-- What the engine checks about the value of an option. -/
def checkOf (flag : String) : Option Check := (valueOptions.find? fun o => o.1 == flag).map Prod.snd

/-- The exit status an option with its value ends the loop with. -/
def optionExit (env : CliEnv) (o : String × Option String) : Option Int :=
  o.2.bind fun v => (checkOf o.1).bind fun c => c.exit env v

/-- Options that are allowed, with a value exactly where one is expected. -/
def Allowed (o : String × Option String) : Prop := (o.1, o.2.isSome) ∈ allowList

/-- The tables of the engine agree with the allow-list. -/
theorem allowList_arity {p : String × Bool} (h : p ∈ allowList) :
    infoOptions.contains p.1 = false ∧ (p.2 = false → aloneOptions.contains p.1 = true) ∧
      (p.2 = true → aloneOptions.contains p.1 = false ∧ (checkOf p.1).isSome = true) := by
  have hall : ∀ p ∈ allowList,
      infoOptions.contains p.1 = false ∧ (p.2 = false → aloneOptions.contains p.1 = true) ∧
        (p.2 = true → aloneOptions.contains p.1 = false ∧ (checkOf p.1).isSome = true) := by
    decide
  exact hall p h

theorem readWord_alone {env : CliEnv} {f : String} {after : Option String}
    (h : Allowed (f, none)) : readWord env f after = .alone := by
  obtain ⟨hinfo, halone, -⟩ := allowList_arity h
  simp only [readWord, hinfo, halone rfl, Bool.false_eq_true, if_false, if_true]

theorem readWord_value {env : CliEnv} {f v : String} (h : Allowed (f, some v)) :
    readWord env f (some v) = (optionExit env (f, some v)).elim (.value v) .exit := by
  obtain ⟨hinfo, -, hvalue⟩ := allowList_arity h
  obtain ⟨halone, hcheck⟩ := hvalue rfl
  obtain ⟨c, hc⟩ := Option.isSome_iff_exists.mp hcheck
  obtain ⟨o, ho, rfl⟩ := Option.map_eq_some_iff.mp hc
  simp only at ho
  simp only [readWord, hinfo, halone, Bool.false_eq_true, if_false, ho, optionExit, hc,
    Option.bind_some]
  cases o.2.exit env v <;> rfl

/-- The loop reads allowed options one by one and stops at the first whose
value does not pass. -/
theorem argumentLoop_options {env : CliEnv} {opts : List (String × Option String)}
    (h : ∀ o ∈ opts, Allowed o) (st : CliState) (rest : List String) :
    argumentLoop env st (opts.flatMap optionWords ++ rest) =
      (opts.findSome? (optionExit env)).elim
        (argumentLoop env { st with options := st.options ++ opts } rest) .error := by
  induction opts generalizing st with
  | nil => simp
  | cons o opts ih =>
      have hrest := ih (fun p hp => h p (List.mem_cons_of_mem o hp))
      obtain ⟨f, v⟩ := o
      have ho : Allowed (f, v) := h _ List.mem_cons_self
      have hnote : ∀ v, (st.note f v).options ++ opts = st.options ++ (f, v) :: opts := by
        intro v
        simp [CliState.note]
      cases v with
      | none =>
          have hexit : optionExit env (f, none) = none := rfl
          have hstep : argumentLoop env st (f :: (opts.flatMap optionWords ++ rest)) =
              argumentLoop env (st.note f none) (opts.flatMap optionWords ++ rest) := by
            cases opts.flatMap optionWords ++ rest with
            | nil => simp only [argumentLoop, readWord_alone ho]
            | cons w ws => simp only [argumentLoop, readWord_alone ho]
          have hwords : ((f, none) :: opts).flatMap optionWords ++ rest =
              f :: (opts.flatMap optionWords ++ rest) := by
            simp [optionWords]
          rw [hwords, hstep, hrest, hnote, List.findSome?_cons, hexit]
          rfl
      | some v =>
          have hstep : argumentLoop env st (f :: v :: (opts.flatMap optionWords ++ rest)) =
              (optionExit env (f, some v)).elim
                (argumentLoop env (st.note f (some v)) (opts.flatMap optionWords ++ rest))
                .error := by
            rw [argumentLoop, readWord_value ho]
            cases optionExit env (f, some v) <;> rfl
          have hwords : ((f, some v) :: opts).flatMap optionWords ++ rest =
              f :: v :: (opts.flatMap optionWords ++ rest) := by
            simp [optionWords]
          rw [hwords, hstep, hrest, hnote, List.findSome?_cons]
          cases optionExit env (f, some v) <;> rfl

/-- Paths from the root. -/
def Absolute (path : String) : Prop := path.toList.head? = some '/'

theorem absolute_joinPath {dir : String} (h : Absolute dir) (name : String) :
    Absolute (joinPath dir name) := by
  have happ : ∀ s : String, (dir ++ s).toList.head? = some '/' := by
    intro s
    rw [String.toList_append, List.head?_append, h]
    rfl
  unfold joinPath
  split
  · rename_i heq
    rw [Absolute, heq]
    rfl
  · split_ifs
    · exact happ name
    · rw [String.append_assoc]
      exact happ _

/-- No option starts like a path. -/
theorem readWord_absolute {env : CliEnv} {path : String} (h : Absolute path)
    (after : Option String) : readWord env path after = .positional := by
  have hno : ∀ o ∈ infoOptions ++ aloneOptions ++ valueOptions.map Prod.fst,
      o.toList.head? ≠ some '/' := by
    decide
  have hinfo : infoOptions.contains path = false := by
    rw [← Bool.not_eq_true, List.contains_iff_mem]
    exact fun hmem => hno path (by simp [hmem]) h
  have halone : aloneOptions.contains path = false := by
    rw [← Bool.not_eq_true, List.contains_iff_mem]
    exact fun hmem => hno path (by simp [hmem]) h
  have hvalue : valueOptions.find? (fun o => o.1 == path) = none := by
    rw [List.find?_eq_none]
    intro o ho heq
    obtain rfl : o.1 = path := by simpa using heq
    exact hno o.1 (List.mem_append_right _ (List.mem_map_of_mem ho)) h
  simp only [readWord, hinfo, halone, hvalue, Bool.false_eq_true, if_false]

/-- An option of a job as the engine is given it. -/
def reading (jobDir profiles : String) (o : Opt) : String × Option String :=
  (o.flag, o.value.head?.map (resolveArg jobDir profiles))

theorem optionWords_reading (jobDir profiles : String) (o : Opt) :
    optionWords (reading jobDir profiles o) = o.args.map (resolveArg jobDir profiles) := by
  cases o <;> rfl

theorem allowed_reading {inLibrary : String → Bool} {jobDir profiles : String} {o : Opt}
    (h : o.Ok inLibrary) : Allowed (reading jobDir profiles o) := by
  cases o with
  | alone f =>
      obtain ⟨p, hp, rfl⟩ := List.mem_map.mp h
      exact List.mem_append_left _ (List.mem_append_left _
        (List.mem_append_right _ (List.mem_map_of_mem hp)))
  | text f v =>
      obtain ⟨p, hp, rfl⟩ := List.mem_map.mp h.1
      exact List.mem_append_left _ (List.mem_append_right _ (List.mem_map_of_mem hp))
  | password p => exact (by decide : ("--password", true) ∈ allowList)
  | library id => exact (by decide : ("--profile", true) ∈ allowList)
  | attached f n =>
      have hall : ∀ p ∈ Opt.attachable, (p.1, true) ∈ allowList := by decide
      exact hall (f, n) h

/-- The options of accepted jobs that the engine ends at, with the exit
status. -/
inductive Refuses (env : CliEnv) : String × Option String → Int → Prop
  | rasterDpi (v : String)
      (hout : (env.atof v).lt (.fin 24) = true ∨ Double.lt (.fin 1200) (env.atof v) = true) :
      Refuses env ("--raster-dpi", some v) 1
  | imageMaxPpi (v : String)
      (hout : Double.le (.fin 0) (env.atof v) = false ∨
        Double.lt (.fin 10000) (env.atof v) = true) :
      Refuses env ("--image-max-ppi", some v) exitUsage
  | file (f v : String) (hfile : f ∈ Opt.attachable.map Prod.fst)
      (hread : env.canRead v = false) : Refuses env (f, some v) 1

/-- A command line with an option that ends the program is refused with its code. -/
theorem refuses_of_exit {env : CliEnv} {inLibrary : String → Bool} {jobDir profiles : String}
    {o : Opt} {code : Int} (hok : o.Ok inLibrary)
    (hexit : optionExit env (reading jobDir profiles o) = some code) :
    Refuses env (reading jobDir profiles o) code := by
  have hreadable : ∀ f v, f ∈ Opt.attachable.map Prod.fst → checkOf f = some .readable →
      optionExit env (f, some v) = some code → Refuses env (f, some v) code := by
    intro f v hf hcheck hexit
    simp only [optionExit, hcheck, Option.bind_some, Check.exit] at hexit
    split_ifs at hexit with hread
    obtain rfl := Option.some.inj hexit
    exact .file f v hf (by simpa using hread)
  cases o with
  | alone f => cases hexit
  | text f v =>
      have hall : ∀ f ∈ textFlags.map Prod.snd, checkOf f = some .free ∨
          (f = "--raster-dpi" ∧ checkOf f = some (.resolution 1)) ∨
          (f = "--image-max-ppi" ∧ checkOf f = some .maxPpi) := by decide
      simp only [reading, Opt.flag, Opt.value, List.head?_cons, Option.map_some, resolveArg]
        at hexit
      rcases hall f hok.1 with hcheck | ⟨rfl, hcheck⟩ | ⟨rfl, hcheck⟩
      · simp only [optionExit, hcheck, Option.bind_some, Check.exit] at hexit
        cases hexit
      · simp only [optionExit, hcheck, Option.bind_some, Check.exit] at hexit
        split_ifs at hexit with hout
        obtain rfl := Option.some.inj hexit
        exact .rasterDpi v hout
      · simp only [optionExit, hcheck, Option.bind_some, Check.exit] at hexit
        split_ifs at hexit with hout
        obtain rfl := Option.some.inj hexit
        exact .imageMaxPpi v (by simpa using hout)
  | password p =>
      have hcheck : checkOf "--password" = some .free := by decide
      simp only [reading, Opt.flag, Opt.value, List.head?_cons, Option.map_some, optionExit,
        hcheck, Option.bind_some, Check.exit] at hexit
      cases hexit
  | library id => exact hreadable "--profile" _ (by decide) (by decide) hexit
  | attached f n =>
      have hall : ∀ p ∈ Opt.attachable, checkOf p.1 = some .readable := by decide
      exact hreadable f _ (List.mem_map_of_mem hok) (hall (f, n) hok) hexit

/-- The levels of the server are levels of the engine. -/
theorem optionExit_level {env : CliEnv} {kind : Kind} {level : String}
    (h : levelOk kind level = true) : optionExit env ("--level", some level) = none := by
  have hcheck : checkOf "--level" = some .level := by decide
  have hall : ∀ l ∈ levels ++ checkOnly, levelTable.contains l = true := by decide
  have hmem : level ∈ levels ++ checkOnly := by
    simp only [levelOk, Bool.or_eq_true, Bool.and_eq_true, List.contains_iff_mem] at h
    rcases h with h | ⟨-, h⟩
    · exact List.mem_append_left _ h
    · exact List.mem_append_right _ h
  simp only [optionExit, hcheck, Option.bind_some, Check.exit, hall level hmem, or_true, if_true]

/-- The command line of allowed options followed by paths. -/
theorem commandLine_options {env : CliEnv} {opts : List (String × Option String)}
    {input : String} {output : Option String} (hallowed : ∀ o ∈ opts, Allowed o)
    (hne : opts ≠ []) (hinput : Absolute input) (houtput : ∀ p ∈ output, Absolute p) :
    commandLine env (opts.flatMap optionWords ++ input :: output.toList) =
      (opts.findSome? (optionExit env)).elim (.run opts input (output.getD "")) .exit := by
  have htail : ∀ st : CliState, argumentLoop env st (input :: output.toList) =
      .ok { st with positional := st.positional ++ input :: output.toList } := by
    intro st
    cases output with
    | none => simp only [Option.toList_none, argumentLoop, readWord_absolute hinput, CliState.push]
    | some p =>
        have hp : ∀ after, readWord env p after = .positional :=
          readWord_absolute (houtput p rfl)
        simp only [Option.toList_some, argumentLoop, readWord_absolute hinput, hp, CliState.push,
          List.append_assoc, List.cons_append, List.nil_append]
  have hmerge : opts.contains ("--merge-inputs", none) = false := by
    rw [← Bool.not_eq_true, List.contains_iff_mem]
    intro hmem
    have hnot : ("--merge-inputs", false) ∉ allowList := by decide
    exact hnot (hallowed _ hmem)
  have hfirst : ∀ words,
      (∀ code, argumentLoop env .empty (opts.flatMap optionWords ++ words) = .error code →
        commandLine env (opts.flatMap optionWords ++ words) = .exit code) ∧
      ∀ st, argumentLoop env .empty (opts.flatMap optionWords ++ words) = .ok st →
        commandLine env (opts.flatMap optionWords ++ words) = placeInputs st := by
    intro words
    cases opts with
    | nil => exact absurd rfl hne
    | cons o opts =>
        have hnot : ∀ p ∈ allowList, p.1 ≠ "tool" ∧ p.1 ≠ "--compare" := by decide
        obtain ⟨htool, hcompare⟩ := hnot _ (hallowed o List.mem_cons_self)
        rw [List.flatMap_cons, optionWords, List.cons_append, List.cons_append]
        unfold commandLine
        split
        · rename_i heq
          exact absurd (List.cons.inj heq).1 htool
        · rename_i heq
          exact absurd (List.cons.inj heq).1 hcompare
        · constructor
          · intro code hloop
            rw [hloop]
          · intro st hloop
            rw [hloop]
  have hloop := @argumentLoop_options env opts hallowed .empty (input :: output.toList)
  cases hexit : opts.findSome? (optionExit env) with
  | some code =>
      rw [hexit] at hloop
      exact (hfirst _).1 code hloop
  | none =>
      rw [hexit, Option.elim_none, htail] at hloop
      rw [(hfirst _).2 _ hloop]
      simp only [Option.elim_none, placeInputs, CliState.empty, List.nil_append, hmerge,
        Bool.false_eq_true, false_and, if_false]
      cases output <;> rfl

/-- The options of an accepted job as the engine is given them, with the input
and the output. -/
theorem resolve_accepted {kind : Kind} {args : List Arg} {dir : Option Dir}
    {inLibrary : String → Bool} (h : Accepted dir inLibrary kind args) (env : CliEnv)
    (jobDir profiles : String) :
    ∃ opts input, opts ≠ [] ∧ (∀ o ∈ opts, Allowed o) ∧
      (input = "in.pdf" ∨ input = "in.jpg") ∧ Arg.file input ∈ args ∧
      resolve args jobDir profiles = opts.flatMap optionWords ++ joinPath jobDir input ::
        (if kind = .convert then some (joinPath jobDir "out.pdf") else none).toList ∧
      ∀ o ∈ opts, ∀ code, optionExit env o = some code → Refuses env o code := by
  cases h with
  | run _ level opts input hkind hlevel hopts hfiles hnodup hinput hpresent =>
      refine ⟨(if kind = .check then [("--check", none)] else []) ++
        ("--level", some level) :: opts.map (reading jobDir profiles), input, by simp, ?_, hinput,
        by simp [jobArgs], ?_, ?_⟩
      · intro o ho
        rcases List.mem_append.mp ho with hcheck | hrest
        · split_ifs at hcheck
          · obtain rfl := List.mem_singleton.mp hcheck
            exact (by decide : ("--check", false) ∈ allowList)
          · cases hcheck
        · rcases List.mem_cons.mp hrest with rfl | hrest
          · exact (by decide : ("--level", true) ∈ allowList)
          · obtain ⟨p, hp, rfl⟩ := List.mem_map.mp hrest
            exact allowed_reading (hopts p hp)
      · have hwords : ∀ ps : List Opt, (ps.map (reading jobDir profiles)).flatMap optionWords =
            (ps.flatMap Opt.args).map (resolveArg jobDir profiles) := by
          intro ps
          induction ps with
          | nil => rfl
          | cons p ps ih =>
              rw [List.map_cons, List.flatMap_cons, List.flatMap_cons, List.map_append, ih,
                optionWords_reading]
        rw [List.flatMap_append, List.flatMap_cons, hwords, resolve, jobArgs]
        cases kind with
        | verify => exact absurd rfl hkind
        | convert => simp [optionWords, resolveArg]
        | check => simp [optionWords, resolveArg]
      · intro o ho code hexit
        rcases List.mem_append.mp ho with hcheck | hrest
        · split_ifs at hcheck
          · obtain rfl := List.mem_singleton.mp hcheck
            cases hexit
          · cases hcheck
        · rcases List.mem_cons.mp hrest with rfl | hrest
          · rw [optionExit_level hlevel] at hexit
            cases hexit
          · obtain ⟨p, hp, rfl⟩ := List.mem_map.mp hrest
            exact refuses_of_exit (hopts p hp) hexit
  | verify password hpass hpresent =>
      refine ⟨("--verify-password", none) ::
        (password.elim [] fun p => [("--password", some p)]), "in.pdf", by simp, ?_, Or.inl rfl,
        by simp [verifyArgs], ?_, ?_⟩
      · intro o ho
        rcases List.mem_cons.mp ho with rfl | ho
        · exact (by decide : ("--verify-password", false) ∈ allowList)
        · cases password with
          | none => cases ho
          | some p =>
              obtain rfl := List.mem_singleton.mp ho
              exact (by decide : ("--password", true) ∈ allowList)
      · cases password <;> simp [verifyArgs, resolve, optionWords, resolveArg]
      · intro o ho code hexit
        have hcheck : checkOf "--password" = some .free := by decide
        rcases List.mem_cons.mp ho with rfl | ho
        · cases hexit
        · cases password with
          | none => cases ho
          | some p =>
              obtain rfl := List.mem_singleton.mp ho
              simp only [optionExit, hcheck, Option.bind_some, Check.exit] at hexit
              cases hexit

/-- On the resolved words of an accepted job the engine reads the options of
the allow-list, each with the value that follows it, and nothing else as an
option. It ends with the job's input and output, or at the first option whose
value it refuses, having read those before it. -/
theorem cli_reads_accepted {kind : Kind} {args : List Arg} {dir : Option Dir}
    {inLibrary : String → Bool} (h : validateJob kind args dir inLibrary = .ok ())
    (env : CliEnv) {jobDir profiles : String} (hjob : Absolute jobDir) :
    ∃ opts input, (∀ o ∈ opts, Allowed o) ∧ (input = "in.pdf" ∨ input = "in.jpg") ∧
      Arg.file input ∈ args ∧
      resolve args jobDir profiles = opts.flatMap optionWords ++ joinPath jobDir input ::
        (if kind = .convert then some (joinPath jobDir "out.pdf") else none).toList ∧
      (commandLine env (resolve args jobDir profiles) = .run opts (joinPath jobDir input)
          (if kind = .convert then joinPath jobDir "out.pdf" else "") ∨
        ∃ pre o post code, opts = pre ++ o :: post ∧ Refuses env o code ∧
          argumentLoop env .empty (pre.flatMap optionWords) = .ok ⟨pre, []⟩ ∧
          commandLine env (resolve args jobDir profiles) = .exit code) := by
  obtain ⟨opts, input, hne, hallowed, hinput, hfile, hwords, hrefuses⟩ :=
    resolve_accepted (accepted_of_validateJob h) env jobDir profiles
  refine ⟨opts, input, hallowed, hinput, hfile, hwords, ?_⟩
  have houtput : ∀ p ∈ (if kind = .convert then some (joinPath jobDir "out.pdf") else none),
      Absolute p := by
    intro p hp
    split_ifs at hp
    · obtain rfl := Option.some.inj hp
      exact absolute_joinPath hjob _
    · cases hp
  rw [hwords, commandLine_options hallowed hne (absolute_joinPath hjob _) houtput]
  cases hexit : opts.findSome? (optionExit env) with
  | none =>
      refine Or.inl ?_
      split_ifs <;> rfl
  | some code =>
      obtain ⟨pre, o, post, rfl, ho, hpre⟩ := List.findSome?_eq_some_iff.mp hexit
      refine Or.inr ⟨pre, o, post, code, rfl, hrefuses o (by simp) code ho, ?_, rfl⟩
      have hbefore : ∀ p ∈ pre, Allowed p := fun p hp =>
        hallowed p (List.mem_append_left _ hp)
      have hread : argumentLoop env .empty (pre.flatMap optionWords ++ []) = _ :=
        argumentLoop_options hbefore .empty []
      rw [List.append_nil, List.findSome?_eq_none_iff.mpr hpre] at hread
      exact hread

/-- The whole number a text starts with. -/
def leadingNat (s : String) : Nat :=
  (s.toList.takeWhile isAsciiDigit).foldl (fun n c => 10 * n + (c.toNat - 48)) 0

/-- A system on which every file can be read, for whole numbers. -/
def CliEnv.plain : CliEnv where
  atof v := .fin (leadingNat v)
  canRead _ := true
  canAppend _ := true
  varFileOk _ := true
  listVars _ := 0
  listProfiles _ := 0

/-- The arguments of a conversion that rasterizes at a resolution. -/
def rasterArgs (dpi : String) : List Arg :=
  [.lit "--level", .lit "2b", .lit "--raster-dpi", .lit dpi, .file "in.pdf", .out "out.pdf"]

theorem rasterArgs_read :
    validateJob .convert (rasterArgs "150") none (fun _ => false) = .ok () ∧
      Absolute "/job" ∧
      ∃ opts input, (∀ o ∈ opts, Allowed o) ∧ (input = "in.pdf" ∨ input = "in.jpg") ∧
        Arg.file input ∈ rasterArgs "150" ∧
        resolve (rasterArgs "150") "/job" "/profiles" =
          opts.flatMap optionWords ++ joinPath "/job" input ::
            (if Kind.convert = .convert then some (joinPath "/job" "out.pdf") else none).toList ∧
        (commandLine CliEnv.plain (resolve (rasterArgs "150") "/job" "/profiles") =
            .run opts (joinPath "/job" input)
              (if Kind.convert = .convert then joinPath "/job" "out.pdf" else "") ∨
          ∃ pre o post code, opts = pre ++ o :: post ∧ Refuses CliEnv.plain o code ∧
            argumentLoop CliEnv.plain .empty (pre.flatMap optionWords) = .ok ⟨pre, []⟩ ∧
            commandLine CliEnv.plain (resolve (rasterArgs "150") "/job" "/profiles") =
              .exit code) := by
  have hvalid : validateJob .convert (rasterArgs "150") none (fun _ => false) = .ok () := by
    decide
  have hjob : Absolute "/job" := by
    unfold Absolute
    decide
  exact ⟨hvalid, hjob, cli_reads_accepted hvalid CliEnv.plain hjob⟩

theorem rasterArgs_refused :
    ¬ ∀ (kind : Kind) (args : List Arg) (dir : Option Dir) (inLibrary : String → Bool)
      (env : CliEnv) (jobDir profiles : String),
      validateJob kind args dir inLibrary = .ok () → Absolute jobDir → Absolute profiles →
      ∃ opts input, commandLine env (resolve args jobDir profiles) =
        .run opts (joinPath jobDir input)
          (if kind = .convert then joinPath jobDir "out.pdf" else "") := by
  intro hclaim
  have hvalid : validateJob .convert (rasterArgs "10") none (fun _ => false) = .ok () := by
    decide
  have hjob : Absolute "/job" := by
    unfold Absolute
    decide
  have hprofiles : Absolute "/profiles" := by
    unfold Absolute
    decide
  have hexit : commandLine CliEnv.plain (resolve (rasterArgs "10") "/job" "/profiles") =
      .exit 1 := by
    decide
  obtain ⟨opts, input, hrun⟩ := hclaim _ _ _ _ CliEnv.plain _ _ hvalid hjob hprofiles
  rw [hexit] at hrun
  cases hrun

end Kura.Engine
