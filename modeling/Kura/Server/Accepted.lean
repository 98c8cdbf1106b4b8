import Kura.Server.Api

/-!
# The argument lists a job may have

`validateJob` reads an argument list from left to right. What it accepts is
described here without reading: a level, options each with what it takes, an
input and an output. Everything proved about accepted jobs starts from this
description.
-/

namespace Kura.Server

/-- An option with what it takes. -/
inductive Opt where
  | alone (flag : String)
  | text (flag value : String)
  | password (p : String)
  | library (id : String)
  | attached (flag name : String)
  deriving DecidableEq

namespace Opt

/-- The option itself. -/
def flag : Opt → String
  | .alone f => f
  | .text f _ => f
  | .password _ => "--password"
  | .library _ => "--profile"
  | .attached f _ => f

/-- The value, if one follows. -/
def value : Opt → List Arg
  | .alone _ => []
  | .text _ v => [.lit v]
  | .password p => [.lit p]
  | .library id => [.profile id]
  | .attached _ n => [.file n]

/-- The arguments an option is given by. -/
def args (o : Opt) : List Arg := .lit o.flag :: o.value

/-- The files of the job an option names. -/
def files : Opt → List String
  | .attached _ n => [n]
  | _ => []

/-- Options that take a file of the job, with that file's name. -/
def attachable : List (String × String) :=
  ("--profile", "profile.json") :: fileFields.map Prod.snd

/-- The options of the allow-list with values it permits. -/
def Ok (inLibrary : String → Bool) : Opt → Prop
  | .alone f => f ∈ boolFlags.map Prod.snd
  | .text f v => f ∈ textFlags.map Prod.snd ∧ valueOk f v = true
  | .password p => passwordOk p = true
  | .library id => libraryProfile inLibrary id = true
  | .attached f n => (f, n) ∈ attachable

end Opt

/-- An argument list read as options up to the first argument that is not a
literal. -/
structure Options (dir : Option Dir) (inLibrary : String → Bool) (seen : List String)
    (args rest : List Arg) (opts : List Opt) : Prop where
  args_eq : args = opts.flatMap Opt.args ++ rest
  ok : ∀ o ∈ opts, o.Ok inLibrary
  files : ∀ o ∈ opts, ∀ n ∈ o.files, present dir n = .ok ()
  fresh : ∀ o ∈ opts, o.flag ∉ seen
  nodup : (opts.map Opt.flag).Nodup
  stops : ∀ s r, rest ≠ .lit s :: r

/-- An option in front of the others is accepted with its files. -/
theorem Options.cons {dir : Option Dir} {inLibrary : String → Bool} {seen : List String}
    {args rest : List Arg} {opts : List Opt} {o : Opt} (hok : o.Ok inLibrary)
    (hfiles : ∀ n ∈ o.files, present dir n = .ok ()) (hfresh : o.flag ∉ seen)
    (h : Options dir inLibrary (o.flag :: seen) args rest opts) :
    Options dir inLibrary seen (o.args ++ args) rest (o :: opts) where
  args_eq := by
    rw [h.args_eq, List.flatMap_cons, List.append_assoc]
  ok := by
    intro o' ho'
    rcases List.mem_cons.mp ho' with rfl | hmem
    · exact hok
    · exact h.ok o' hmem
  files := by
    intro o' ho'
    rcases List.mem_cons.mp ho' with rfl | hmem
    · exact hfiles
    · exact h.files o' hmem
  fresh := by
    intro o' ho'
    rcases List.mem_cons.mp ho' with rfl | hmem
    · exact hfresh
    · exact fun hseen => h.fresh o' hmem (List.mem_cons_of_mem _ hseen)
  nodup := by
    rw [List.map_cons, List.nodup_cons]
    refine ⟨fun hmem => ?_, h.nodup⟩
    obtain ⟨o', ho', heq⟩ := List.mem_map.mp hmem
    exact h.fresh o' ho' (heq ▸ List.mem_cons_self)
  stops := h.stops

theorem mem_flags_of_any {α : Type} {fs : List (α × String)} {flag : String}
    (h : (fs.any fun f => f.2 == flag) = true) : flag ∈ fs.map Prod.snd := by
  obtain ⟨f, hf, heq⟩ := List.any_eq_true.mp h
  exact List.mem_map.mpr ⟨f, hf, by simpa using heq⟩

/-- What the option loop lets through is a list of permitted options. -/
theorem options_of_validateFlags {dir : Option Dir} {inLibrary : String → Bool}
    {seen : List String} {args rest : List Arg}
    (h : validateFlags dir inLibrary seen args = .ok rest) :
    ∃ opts, Options dir inLibrary seen args rest opts := by
  fun_induction validateFlags dir inLibrary seen args with
  | case2 seen flag args hseen hbool ih =>
      obtain ⟨opts, hopts⟩ := ih h
      have hfresh : flag ∉ seen := by simpa using hseen
      exact ⟨_, .cons (o := .alone flag) (mem_flags_of_any hbool) (by simp [Opt.files]) hfresh
        hopts⟩
  | case3 seen flag hseen _ htext v args hvalue ih =>
      obtain ⟨opts, hopts⟩ := ih h
      have hfresh : flag ∉ seen := by simpa using hseen
      exact ⟨_, .cons (o := .text flag v) ⟨mem_flags_of_any htext, hvalue⟩ (by simp [Opt.files])
        hfresh hopts⟩
  | case6 seen flag hseen _ _ hflag p args hpass ih =>
      obtain ⟨opts, hopts⟩ := ih h
      obtain rfl : flag = "--password" := by simpa using hflag
      have hfresh : "--password" ∉ seen := by simpa using hseen
      exact ⟨_, .cons (o := .password p) hpass (by simp [Opt.files]) hfresh hopts⟩
  | case9 seen flag hseen _ _ _ hflag id args hlib ih =>
      obtain ⟨opts, hopts⟩ := ih h
      obtain rfl : flag = "--profile" := by simpa using hflag
      have hfresh : "--profile" ∉ seen := by simpa using hseen
      exact ⟨_, .cons (o := .library id) hlib (by simp [Opt.files]) hfresh hopts⟩
  | case11 seen flag hseen _ _ _ hflag n args hname hpresent ih =>
      obtain ⟨opts, hopts⟩ := ih h
      obtain rfl : flag = "--profile" := by simpa using hflag
      obtain rfl : n = "profile.json" := by simpa using hname
      have hfresh : "--profile" ∉ seen := by simpa using hseen
      exact ⟨_, .cons (o := .attached "--profile" "profile.json") List.mem_cons_self
        (by simpa [Opt.files] using hpresent) hfresh hopts⟩
  | case15 seen flag hseen _ _ _ _ f hfind n args hname hpresent ih =>
      obtain ⟨opts, hopts⟩ := ih h
      obtain rfl : n = f.2.2 := by simpa using hname
      have hflag : f.2.1 = flag := by simpa using List.find?_some hfind
      have hmem : (flag, f.2.2) ∈ Opt.attachable := by
        refine List.mem_cons_of_mem _ (List.mem_map.mpr ⟨f, List.mem_of_find?_eq_some hfind, ?_⟩)
        rw [← hflag]
      have hfresh : flag ∉ seen := by simpa using hseen
      exact ⟨_, .cons (o := .attached flag f.2.2) hmem (by simpa [Opt.files] using hpresent)
        hfresh hopts⟩
  | case20 seen args hstops =>
      cases h
      exact ⟨[], by simp, by simp, by simp, by simp, by simp, fun s r heq => hstops s r heq⟩
  | _ => cases h

/-- The arguments of a conversion or a check. -/
def jobArgs (kind : Kind) (level : String) (opts : List Opt) (input : String) : List Arg :=
  (if kind = .check then [.lit "--check"] else []) ++
    .lit "--level" :: .lit level :: opts.flatMap Opt.args ++
    .file input :: if kind = .convert then [.out "out.pdf"] else []

/-- The arguments of a password check. -/
def verifyArgs (password : Option String) : List Arg :=
  .lit "--verify-password" ::
    (password.elim [] fun p => [.lit "--password", .lit p]) ++ [.file "in.pdf"]

/-- The levels of a kind of job. -/
def levelOk (kind : Kind) (level : String) : Bool :=
  levels.contains level || (kind == .check && checkOnly.contains level)

/-- The jobs that may run, with every file they name in place. -/
inductive Accepted (dir : Option Dir) (inLibrary : String → Bool) : Kind → List Arg → Prop
  | run (kind : Kind) (level : String) (opts : List Opt) (input : String)
      (hkind : kind ≠ .verify) (hlevel : levelOk kind level = true)
      (hopts : ∀ o ∈ opts, o.Ok inLibrary)
      (hfiles : ∀ o ∈ opts, ∀ n ∈ o.files, present dir n = .ok ())
      (hnodup : (opts.map Opt.flag).Nodup)
      (hinput : input = "in.pdf" ∨ input = "in.jpg") (hpresent : present dir input = .ok ()) :
      Accepted dir inLibrary kind (jobArgs kind level opts input)
  | verify (password : Option String) (hpass : ∀ p ∈ password, passwordOk p = true)
      (hpresent : present dir "in.pdf" = .ok ()) :
      Accepted dir inLibrary .verify (verifyArgs password)

theorem validateEnd_ok {args : List Arg} (h : validateEnd args = .ok ()) : args = [] := by
  cases args with
  | nil => rfl
  | cons a args => cases h

theorem validateOutput_ok {kind : Kind} {args : List Arg} (h : validateOutput kind args = .ok ()) :
    args = if kind = .convert then [.out "out.pdf"] else [] := by
  unfold validateOutput at h
  by_cases hk : kind = .convert
  · rw [if_pos hk] at h ⊢
    split at h
    · rename_i n rest
      split_ifs at h with hn
      obtain rfl : n = "out.pdf" := by simpa using hn
      rw [validateEnd_ok h]
    · cases h
  · rw [if_neg hk] at h ⊢
    exact validateEnd_ok h

theorem validateInput_ok {kind : Kind} {dir : Option Dir} {args : List Arg}
    (h : validateInput kind dir args = .ok ()) :
    ∃ input, (input = "in.pdf" ∨ input = "in.jpg") ∧ present dir input = .ok () ∧
      args = .file input :: if kind = .convert then [.out "out.pdf"] else [] := by
  unfold validateInput at h
  split at h
  · rename_i n rest
    split_ifs at h with hn
    split at h
    · rename_i hpresent
      refine ⟨n, by simpa using hn, hpresent, ?_⟩
      rw [validateOutput_ok h]
    · cases h
  · cases h

/-- Accepted arguments are a level and options. -/
theorem validateLevel_ok {kind : Kind} {dir : Option Dir} {inLibrary : String → Bool}
    {args : List Arg} (h : validateLevel kind dir inLibrary args = .ok ()) :
    ∃ level opts rest rest', levelOk kind level = true ∧
      args = .lit "--level" :: .lit level :: rest ∧
      Options dir inLibrary [] rest rest' opts ∧ validateInput kind dir rest' = .ok () := by
  unfold validateLevel at h
  split at h
  · split at h
    · rename_i level rest
      split_ifs at h with hlevel
      split at h
      · rename_i rest' hflags
        obtain ⟨opts, hopts⟩ := options_of_validateFlags hflags
        exact ⟨level, opts, rest, rest', hlevel, rfl, hopts, h⟩
      · cases h
    · cases h
  · cases h

theorem validateVerifyInput_ok {dir : Option Dir} {args : List Arg}
    (h : validateVerifyInput dir args = .ok ()) :
    args = [.file "in.pdf"] ∧ present dir "in.pdf" = .ok () := by
  unfold validateVerifyInput at h
  split at h
  · rename_i n rest
    split_ifs at h with hn
    obtain rfl : n = "in.pdf" := by simpa using hn
    split at h
    · rename_i hpresent
      rw [validateEnd_ok h]
      exact ⟨rfl, hpresent⟩
    · cases h
  · cases h

theorem accepted_of_validateLevel {kind : Kind} {dir : Option Dir} {inLibrary : String → Bool}
    {args : List Arg} (hkind : kind ≠ .verify)
    (h : validateLevel kind dir inLibrary args = .ok ()) :
    Accepted dir inLibrary kind
      ((if kind = .check then [.lit "--check"] else []) ++ args) := by
  obtain ⟨level, opts, rest, rest', hlevel, rfl, hopts, hin⟩ := validateLevel_ok h
  obtain ⟨input, hinput, hpresent, rfl⟩ := validateInput_ok hin
  rw [hopts.args_eq]
  have hrun := Accepted.run kind level opts input hkind hlevel hopts.ok hopts.files hopts.nodup
    hinput hpresent
  simpa [jobArgs] using hrun

/-- What is validated has the shape of an accepted job. -/
theorem accepted_of_validateJob {kind : Kind} {dir : Option Dir} {inLibrary : String → Bool}
    {args : List Arg} (h : validateJob kind args dir inLibrary = .ok ()) :
    Accepted dir inLibrary kind args := by
  cases kind with
  | convert => exact accepted_of_validateLevel (by simp) h
  | check =>
      simp only [validateJob] at h
      split at h
      · exact accepted_of_validateLevel (by simp) h
      · cases h
  | verify =>
      simp only [validateJob] at h
      split at h
      · unfold validateVerify at h
        split at h
        · split at h
          · rename_i p rest
            split_ifs at h with hp
            obtain ⟨rfl, hpresent⟩ := validateVerifyInput_ok h
            exact .verify (some p) (by simpa using hp) hpresent
          · cases h
        · obtain ⟨rfl, hpresent⟩ := validateVerifyInput_ok h
          exact .verify none (by simp) hpresent
      · cases h

/-- Whether an option stands in a table. -/
theorem any_flags {α : Type} {fs : List (α × String)} {flag : String} :
    (fs.any fun f => f.2 == flag) = true ↔ flag ∈ fs.map Prod.snd := by
  constructor
  · exact mem_flags_of_any
  · intro h
    obtain ⟨f, hf, rfl⟩ := List.mem_map.mp h
    exact List.any_eq_true.mpr ⟨f, hf, by simp⟩

/-- The tables of options have nothing in common. -/
theorem text_not_bool {f : String} (h : f ∈ textFlags.map Prod.snd) :
    f ∉ boolFlags.map Prod.snd := by
  have hall : ∀ f ∈ textFlags.map Prod.snd, f ∉ boolFlags.map Prod.snd := by decide
  exact hall f h

theorem attachable_elsewhere {p : String × String} (h : p ∈ Opt.attachable) :
    p.1 ∉ boolFlags.map Prod.snd ∧ p.1 ∉ textFlags.map Prod.snd ∧ p.1 ≠ "--password" ∧
      (p = ("--profile", "profile.json") ∨ (p.1 ≠ "--profile" ∧
        (fileFields.find? fun f => f.2.1 == p.1).map Prod.snd = some p)) := by
  have hall : ∀ p ∈ Opt.attachable, p.1 ∉ boolFlags.map Prod.snd ∧
      p.1 ∉ textFlags.map Prod.snd ∧ p.1 ≠ "--password" ∧
      (p = ("--profile", "profile.json") ∨ (p.1 ≠ "--profile" ∧
        (fileFields.find? fun f => f.2.1 == p.1).map Prod.snd = some p)) := by decide
  exact hall p h

/-- One permitted option is read with what it takes. -/
theorem validateFlags_opt {dir : Option Dir} {inLibrary : String → Bool} {seen : List String}
    {rest : List Arg} {o : Opt} (hok : o.Ok inLibrary) (hseen : o.flag ∉ seen)
    (hfiles : ∀ n ∈ o.files, present dir n = .ok ()) :
    validateFlags dir inLibrary seen (o.args ++ rest) =
      validateFlags dir inLibrary (o.flag :: seen) rest := by
  have hnot : seen.contains o.flag = false := by simpa using hseen
  have hno : ∀ {fs : List (String × String)}, o.flag ∉ fs.map Prod.snd →
      (fs.any fun f => f.2 == o.flag) = false := by
    intro fs h
    rw [← Bool.not_eq_true, any_flags]
    exact h
  cases o with
  | alone f =>
      have hbool := any_flags.mpr hok
      simp only [Opt.flag] at hnot
      rw [Opt.args, List.cons_append, validateFlags.eq_def]
      simp only [Opt.flag, hnot, hbool, Bool.false_eq_true, if_false, if_true]
      rfl
  | text f v =>
      have htext := any_flags.mpr hok.1
      have hbool := hno (text_not_bool hok.1)
      simp only [Opt.flag] at hnot hbool
      rw [Opt.args, List.cons_append, validateFlags.eq_def]
      simp only [Opt.flag, Opt.value, hnot, hbool, htext, hok.2, List.cons_append,
        List.nil_append, Bool.false_eq_true, if_false, if_true]
  | password p =>
      have hp : passwordOk p = true := hok
      have hbool : (boolFlags.any fun f => f.2 == "--password") = false := by decide
      have htext : (textFlags.any fun f => f.2 == "--password") = false := by decide
      simp only [Opt.flag] at hnot
      rw [Opt.args, List.cons_append, validateFlags.eq_def]
      simp only [Opt.flag, Opt.value, hnot, hbool, htext, hp, List.cons_append,
        List.nil_append, Bool.false_eq_true, if_false, if_true, BEq.rfl]
  | library id =>
      have hid : libraryProfile inLibrary id = true := hok
      have hbool : (boolFlags.any fun f => f.2 == "--profile") = false := by decide
      have htext : (textFlags.any fun f => f.2 == "--profile") = false := by decide
      have hpass : ("--profile" == "--password") = false := by decide
      simp only [Opt.flag] at hnot
      rw [Opt.args, List.cons_append, validateFlags.eq_def]
      simp only [Opt.flag, Opt.value, hnot, hbool, htext, hpass, hid, List.cons_append,
        List.nil_append, Bool.false_eq_true, if_false, if_true, BEq.rfl]
  | attached f n =>
      obtain ⟨hb, ht, hp, hor⟩ := attachable_elsewhere hok
      have hbool := hno hb
      have htext := hno ht
      have hpass : (f == "--password") = false := by simpa using hp
      have hpres : present dir n = .ok () := hfiles n List.mem_cons_self
      simp only [Opt.flag] at hnot hbool htext
      rw [Opt.args, List.cons_append, validateFlags.eq_def]
      rcases hor with heq | ⟨hne, hfind⟩
      · obtain ⟨rfl, rfl⟩ := Prod.mk.inj heq
        simp only [Opt.flag, Opt.value, hnot, hbool, htext, hpass, hpres, List.cons_append,
          List.nil_append, Bool.false_eq_true, if_false, if_true, BEq.rfl]
      · have hprof : (f == "--profile") = false := by simpa using hne
        obtain ⟨e, he, hsnd⟩ := Option.map_eq_some_iff.mp hfind
        have hname : (n == e.2.2) = true := by simp [hsnd]
        simp only at he
        simp only [Opt.flag, Opt.value, hnot, hbool, htext, hpass, hprof, he, hname, hpres,
          List.cons_append, List.nil_append, Bool.false_eq_true, if_false, if_true]

/-- Options that fit are accepted. -/
theorem validateFlags_of_options {dir : Option Dir} {inLibrary : String → Bool}
    {seen : List String} {args rest : List Arg} {opts : List Opt}
    (h : Options dir inLibrary seen args rest opts) :
    validateFlags dir inLibrary seen args = .ok rest := by
  obtain ⟨rfl, hok, hfiles, hfresh, hnodup, hstops⟩ := h
  induction opts generalizing seen with
  | nil =>
      cases rest with
      | nil => rfl
      | cons a rest =>
          cases a with
          | lit s => exact absurd rfl (hstops s rest)
          | _ => rfl
  | cons o opts ih =>
      rw [List.map_cons, List.nodup_cons] at hnodup
      rw [List.flatMap_cons, List.append_assoc, validateFlags_opt (hok o List.mem_cons_self)
        (hfresh o List.mem_cons_self) (hfiles o List.mem_cons_self)]
      refine ih (fun p hp => hok p (List.mem_cons_of_mem o hp))
        (fun p hp => hfiles p (List.mem_cons_of_mem o hp)) (fun p hp hmem => ?_) hnodup.2
      rcases List.mem_cons.mp hmem with heq | hmem
      · exact hnodup.1 (heq ▸ List.mem_map_of_mem hp)
      · exact hfresh p (List.mem_cons_of_mem o hp) hmem

theorem validateInput_of {kind : Kind} {dir : Option Dir} {input : String}
    (hinput : input = "in.pdf" ∨ input = "in.jpg") (hpresent : present dir input = .ok ()) :
    validateInput kind dir
      (.file input :: if kind = .convert then [.out "out.pdf"] else []) = .ok () := by
  have hname : (input == "in.pdf" || input == "in.jpg") = true := by
    simpa using hinput
  simp only [validateInput, hname, hpresent, if_true]
  cases kind <;> rfl

/-- Exactly the lists of that shape are validated. -/
theorem validateJob_iff {kind : Kind} {dir : Option Dir} {inLibrary : String → Bool}
    {args : List Arg} :
    validateJob kind args dir inLibrary = .ok () ↔ Accepted dir inLibrary kind args := by
  refine ⟨accepted_of_validateJob, fun h => ?_⟩
  cases h with
  | run _ level opts input hkind hlevel hopts hfiles hnodup hinput hpresent =>
      have hflags : validateFlags dir inLibrary []
          (opts.flatMap Opt.args ++
            .file input :: if kind = .convert then [.out "out.pdf"] else []) =
          .ok (.file input :: if kind = .convert then [.out "out.pdf"] else []) := by
        apply validateFlags_of_options
        exact ⟨rfl, hopts, hfiles, by simp, hnodup, by simp⟩
      have hlevel' : validateLevel kind dir inLibrary (.lit "--level" :: .lit level ::
          (opts.flatMap Opt.args ++
            .file input :: if kind = .convert then [.out "out.pdf"] else [])) = .ok () := by
        unfold levelOk at hlevel
        simp only [validateLevel, hlevel, hflags, if_true]
        exact validateInput_of hinput hpresent
      cases kind with
      | verify => exact absurd rfl hkind
      | convert => exact hlevel'
      | check => exact hlevel'
  | verify password hpass hpresent =>
      have hin : validateVerifyInput dir [.file "in.pdf"] = .ok () := by
        simp only [validateVerifyInput, BEq.rfl, if_true, hpresent, validateEnd]
      cases password with
      | none => exact hin
      | some p =>
          have hp : passwordOk p = true := hpass p rfl
          simp only [verifyArgs, Option.elim_some, List.cons_append, List.nil_append, validateJob,
            validateVerify, hp, if_true]
          exact hin

theorem inputFiles_append (as bs : List Arg) :
    inputFiles (as ++ bs) = inputFiles as ++ inputFiles bs := by
  simp [inputFiles]

theorem inputFiles_opts (opts : List Opt) :
    inputFiles (opts.flatMap Opt.args) = opts.flatMap Opt.files := by
  induction opts with
  | nil => rfl
  | cons o opts ih =>
      rw [List.flatMap_cons, List.flatMap_cons, inputFiles_append, ih]
      congr 1
      cases o <;> rfl

/-- A conversion or a check reads the files of its options, then its input. -/
theorem inputFiles_jobArgs (kind : Kind) (level : String) (opts : List Opt) (input : String) :
    inputFiles (jobArgs kind level opts input) = opts.flatMap Opt.files ++ [input] := by
  have hopts := inputFiles_opts opts
  cases kind <;> simp only [inputFiles] at hopts <;> simp [jobArgs, inputFiles, hopts]

theorem inputFiles_verifyArgs (password : Option String) :
    inputFiles (verifyArgs password) = ["in.pdf"] := by
  cases password <;> rfl

/-- Every file an accepted job names is there. -/
theorem Accepted.files_present {dir : Option Dir} {inLibrary : String → Bool} {kind : Kind}
    {args : List Arg} (h : Accepted dir inLibrary kind args) {n : String}
    (hn : n ∈ inputFiles args) : present dir n = .ok () := by
  cases h with
  | run _ level opts input hkind hlevel hopts hfiles hnodup hinput hpresent =>
      rw [inputFiles_jobArgs, List.mem_append, List.mem_flatMap] at hn
      rcases hn with ⟨o, ho, hno⟩ | hin
      · exact hfiles o ho n hno
      · obtain rfl := List.mem_singleton.mp hin
        exact hpresent
  | verify password hpass hpresent =>
      rw [inputFiles_verifyArgs] at hn
      obtain rfl := List.mem_singleton.mp hn
      exact hpresent

/-- Whether a job is accepted depends on its directory by these files only. -/
theorem Accepted.of_present {dir dir' : Option Dir} {inLibrary : String → Bool} {kind : Kind}
    {args : List Arg} (h : Accepted dir inLibrary kind args)
    (hfiles : ∀ n ∈ inputFiles args, present dir' n = .ok ()) :
    Accepted dir' inLibrary kind args := by
  cases h with
  | run _ level opts input hkind hlevel hopts _ hnodup hinput _ =>
      rw [inputFiles_jobArgs] at hfiles
      refine .run kind level opts input hkind hlevel hopts (fun o ho n hn => ?_) hnodup hinput ?_
      · exact hfiles n (List.mem_append_left _ (List.mem_flatMap.mpr ⟨o, ho, hn⟩))
      · exact hfiles input (List.mem_append_right _ List.mem_cons_self)
  | verify password hpass _ =>
      rw [inputFiles_verifyArgs] at hfiles
      exact .verify password hpass (hfiles _ List.mem_cons_self)

theorem Accepted.inputFiles_ne_nil {dir : Option Dir} {inLibrary : String → Bool} {kind : Kind}
    {args : List Arg} (h : Accepted dir inLibrary kind args) : inputFiles args ≠ [] := by
  cases h with
  | run => simp [inputFiles_jobArgs]
  | verify => simp [inputFiles_verifyArgs]

/-- The files options name are those of the option table. -/
theorem mem_attachable_of_files {inLibrary : String → Bool} {o : Opt} (hok : o.Ok inLibrary)
    {n : String} (hn : n ∈ o.files) : (o.flag, n) ∈ Opt.attachable := by
  cases o with
  | attached f m =>
      obtain rfl := List.mem_singleton.mp hn
      exact hok
  | _ => cases hn

theorem attachable_flag_eq {p q : String × String} (hp : p ∈ Opt.attachable)
    (hq : q ∈ Opt.attachable) (h : p.2 = q.2) : p.1 = q.1 := by
  have hall : ∀ p ∈ Opt.attachable, ∀ q ∈ Opt.attachable, p.2 = q.2 → p.1 = q.1 := by decide
  exact hall p hp q hq h

/-- No option table entry names an input or the empty name. -/
theorem attachable_name_ne {p : String × String} (hp : p ∈ Opt.attachable) :
    p.2 ≠ "in.pdf" ∧ p.2 ≠ "in.jpg" ∧ p.2 ≠ "" := by
  have hall : ∀ p ∈ Opt.attachable, p.2 ≠ "in.pdf" ∧ p.2 ≠ "in.jpg" ∧ p.2 ≠ "" := by decide
  exact hall p hp

/-- No file is named by two options. -/
theorem nodup_optFiles {inLibrary : String → Bool} {opts : List Opt}
    (hok : ∀ o ∈ opts, o.Ok inLibrary) (hnodup : (opts.map Opt.flag).Nodup) :
    (opts.flatMap Opt.files).Nodup := by
  induction opts with
  | nil => exact List.nodup_nil
  | cons o opts ih =>
      rw [List.map_cons, List.nodup_cons] at hnodup
      rw [List.flatMap_cons, List.nodup_append]
      refine ⟨?_, ih (fun p hp => hok p (List.mem_cons_of_mem o hp)) hnodup.2, ?_⟩
      · cases o <;> simp [Opt.files]
      · intro n hn m hm hnm
        subst hnm
        obtain ⟨o', ho', hn'⟩ := List.mem_flatMap.mp hm
        have hmem := mem_attachable_of_files (hok o List.mem_cons_self) hn
        have hmem' := mem_attachable_of_files (hok o' (List.mem_cons_of_mem o ho')) hn'
        have hflag : o.flag = o'.flag := attachable_flag_eq hmem hmem' rfl
        exact hnodup.1 (hflag ▸ List.mem_map_of_mem ho')

/-- An accepted job names each of its files once. -/
theorem Accepted.nodup_inputFiles {dir : Option Dir} {inLibrary : String → Bool} {kind : Kind}
    {args : List Arg} (h : Accepted dir inLibrary kind args) : (inputFiles args).Nodup := by
  cases h with
  | run _ level opts input hkind hlevel hopts hfiles hnodup hinput hpresent =>
      rw [inputFiles_jobArgs, List.nodup_append]
      refine ⟨nodup_optFiles hopts hnodup, by simp, ?_⟩
      intro n hn m hm hnm
      subst hnm
      obtain rfl := List.mem_singleton.mp hm
      obtain ⟨o, ho, hno⟩ := List.mem_flatMap.mp hn
      obtain ⟨hpdf, hjpg, -⟩ := attachable_name_ne (mem_attachable_of_files (hopts o ho) hno)
      rcases hinput with rfl | rfl
      · exact hpdf rfl
      · exact hjpg rfl
  | verify password =>
      rw [inputFiles_verifyArgs]
      simp

theorem Accepted.name_ne_empty {dir : Option Dir} {inLibrary : String → Bool} {kind : Kind}
    {args : List Arg} (h : Accepted dir inLibrary kind args) {n : String}
    (hn : n ∈ inputFiles args) : n ≠ "" := by
  cases h with
  | run _ level opts input hkind hlevel hopts hfiles hnodup hinput hpresent =>
      rw [inputFiles_jobArgs, List.mem_append, List.mem_flatMap] at hn
      rcases hn with ⟨o, ho, hno⟩ | hin
      · exact (attachable_name_ne (mem_attachable_of_files (hopts o ho) hno)).2.2
      · obtain rfl := List.mem_singleton.mp hin
        rcases hinput with rfl | rfl <;> decide
  | verify password =>
      rw [inputFiles_verifyArgs] at hn
      obtain rfl := List.mem_singleton.mp hn
      decide

theorem present_of_has {d : Dir} {n : String} (h : d.has n = true) :
    present (some d) n = .ok () := by
  simp [present, h]

theorem has_of_present {d : Dir} {n : String} (h : present (some d) n = .ok ()) :
    d.has n = true := by
  unfold present at h
  by_contra hno
  simp only [if_neg hno] at h
  cases h

end Kura.Server
