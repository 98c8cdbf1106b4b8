import Kura.Server.Accepted

/-!
# The argument lists a request asks for

`buildArgs` turns the query and the form fields of a request into an argument
list and stores the files that options take. What it builds is accepted by
`validateJob` once the document is stored as well.

## Implementation notes

Files of a form are stored in the job's directory while the request is read,
under names of their own. An error of the file system comes from outside, by
the name it concerns. After an error the directory is given up.
-/

namespace Kura.Server.BuildArgs

/-- The names and values of a query. -/
structure Query where
  pairs : List (String × String)

def Query.get (q : Query) (k : String) : Option String :=
  (q.pairs.find? fun p => p.1 == k).map Prod.snd

/-- A file that was stored while a request was read. -/
structure Upload where
  path : String
  own : path = "upload" ∨ ∃ n : Nat, path = "part-" ++ toString n

inductive Field where
  | text (s : String)
  | file (upload : Upload)

abbrev Fields := String → Option Field

/-- The value of a field that is no file. -/
def Fields.text (fields : Fields) (k : String) : Option String :=
  match fields k with
  | some (.text s) => some s
  | _ => none

/-- Why no argument list is built. -/
structure BadArgs where
  status : Status
  code : String
  message : String
  extra : Option (String × Kura.Base.Json)

def isTrue (v : Option String) : Bool := v == some "true" || v == some "1" || v == some "on"

/-- Moves a file of a directory, if it is there. -/
def rename (dir : Dir) (src dest : String) : Option Dir :=
  (dir.read src).map fun b => (dir.remove src).write dest b

/-- Stores what a field holds. -/
def store (refuses : String → Option String) (dir : Dir) (field : Field) (dest : String) :
    Except String Dir :=
  match refuses dest with
  | some e => .error e
  | none =>
      match field with
      | .text s => .ok (dir.write dest s.toUTF8.data.toList)
      | .file upload =>
          match rename dir upload.path dest with
          | some dir' => .ok dir'
          | none => .error "No such file or directory (os error 2)"

section
variable (get : String → Option String) (refuses : String → Option String)
  (inLibrary : String → Bool)

/-- The levels that a request may ask for. -/
def allowed (kind : Kind) : List String :=
  if kind = .check then levels ++ checkOnly else levels

def levelArgs (kind : Kind) : Except BadArgs (List Arg) :=
  match get "level" with
  | some l =>
      if (allowed kind).contains l then
        .ok (if kind = .check then [.lit "--check", .lit "--level", .lit l]
          else [.lit "--level", .lit l])
      else bad
  | none => bad
where
  bad := .error ⟨.badRequest, "BAD_LEVEL",
    "level must be one of " ++ ", ".intercalate (allowed kind),
    some ("levels", .arr ((allowed kind).map .str))⟩

def boolArgs (flags : List (String × String)) : List Arg :=
  (flags.filter fun f => isTrue (get f.1)).map fun f => .lit f.2

def textArgs : List (String × String) → Except BadArgs (List Arg)
  | [] => .ok []
  | (k, flag) :: flags =>
      match get k with
      | none => textArgs flags
      | some raw =>
          if raw = "" then textArgs flags
          else if textValue raw && valueOk flag raw then
            match textArgs flags with
            | .ok args => .ok (.lit flag :: .lit raw :: args)
            | .error e => .error e
          else .error ⟨.badRequest, "BAD_REQUEST", "invalid value for " ++ k, none⟩

def passwordArgs (password : Option String) : List Arg :=
  match password with
  | some p => if p = "" then [] else [.lit "--password", .lit p]
  | none => []

/-- An error of the file system. -/
def BadArgs.internal (e : String) : BadArgs := ⟨.internalServerError, "INTERNAL", e, none⟩

def profileArgs (q : Query) (fields : Fields) (dir : Dir) : Except BadArgs (List Arg × Dir) :=
  match (q.get "profile").filter (· ≠ "") with
  | some id =>
      if libraryProfile inLibrary id then .ok ([.lit "--profile", .profile id], dir)
      else .error ⟨.badRequest, "BAD_PROFILE", "no bundled profile with that name",
        some ("profiles", .str "/api/profiles")⟩
  | none =>
      match fields "profile" with
      | none => .ok ([], dir)
      | some f =>
          match store refuses dir f "profile.json" with
          | .ok dir' => .ok ([.lit "--profile", .file "profile.json"], dir')
          | .error e => .error (.internal e)

def fileArgs (fields : Fields) (dir : Dir) :
    List (String × String × String) → Except BadArgs (List Arg × Dir)
  | [] => .ok ([], dir)
  | (k, flag, name) :: entries =>
      match fields k with
      | none => fileArgs fields dir entries
      | some f =>
          match store refuses dir f name with
          | .error e => .error (.internal e)
          | .ok dir' =>
              match fileArgs fields dir' entries with
              | .ok (args, dir'') => .ok (.lit flag :: .file name :: args, dir'')
              | .error e => .error e

end

/-- The arguments before the input, and the directory with the files they name. -/
def buildArgs (refuses : String → Option String) (inLibrary : String → Bool) (q : Query)
    (password : Option String) (fields : Fields) (dir : Dir) (kind : Kind) :
    Except BadArgs (List Arg × Dir) :=
  let get (k : String) := (q.get k).or (fields.text k)
  match levelArgs get kind with
  | .error e => .error e
  | .ok level =>
      match textArgs get textFlags with
      | .error e => .error e
      | .ok texts =>
          match profileArgs refuses inLibrary q fields dir with
          | .error e => .error e
          | .ok (profile, dir') =>
              match fileArgs refuses fields dir' fileFields with
              | .error e => .error e
              | .ok (files, dir'') =>
                  .ok (level ++ (boolArgs get boolFlags ++ (texts ++
                    (passwordArgs (password.or (fields.text "password")) ++
                      (profile ++ files)))), dir'')

/-- Uploads have none of the names that options take. -/
theorem Upload.path_ne (upload : Upload) {p : String × String} (hp : p ∈ Opt.attachable) :
    upload.path ≠ p.2 := by
  have hnames : ∀ p ∈ Opt.attachable, p.2 ≠ "upload" ∧ ¬ "part-".toList <+: p.2.toList := by
    decide
  obtain ⟨hupload, hpart⟩ := hnames p hp
  intro heq
  rcases upload.own with hown | ⟨n, hown⟩
  · exact hupload (heq ▸ hown)
  · refine hpart ?_
    rw [← heq, hown, String.toList_append]
    exact List.prefix_append _ _

/-- A move keeps every file but the one that is moved. -/
theorem has_rename {dir dir' : Dir} {src dest n : String} (h : rename dir src dest = some dir')
    (hne : n ≠ src) (hn : dir.has n = true) : dir'.has n = true := by
  obtain ⟨b, -, rfl⟩ := Option.map_eq_some_iff.mp h
  refine Dir.has_write_of_has ?_
  rw [Dir.has_iff_read] at hn ⊢
  rwa [Dir.read_remove_ne dir hne]

theorem has_rename_self {dir dir' : Dir} {src dest : String}
    (h : rename dir src dest = some dir') : dir'.has dest = true := by
  obtain ⟨b, -, rfl⟩ := Option.map_eq_some_iff.mp h
  exact Dir.has_write_self _ _ _

variable {refuses : String → Option String} {inLibrary : String → Bool} {dir dir' : Dir}

/-- The files that options take. -/
def Attached (n : String) : Prop := n ∈ Opt.attachable.map Prod.snd

theorem Upload.ne_of_attached (upload : Upload) {n : String} (hn : Attached n) :
    n ≠ upload.path := by
  obtain ⟨p, hp, rfl⟩ := List.mem_map.mp hn
  exact (upload.path_ne hp).symm

/-- Files of options stay where they are. -/
def Keeps (dir dir' : Dir) : Prop := ∀ n, Attached n → dir.has n = true → dir'.has n = true

/-- A field that is stored is there, and the files of options stay. -/
theorem has_store {field : Field} {dest : String} (h : store refuses dir field dest = .ok dir') :
    dir'.has dest = true ∧ Keeps dir dir' := by
  rw [store.eq_def] at h
  cases hrefuses : refuses dest with
  | some e => simp only [hrefuses, reduceCtorEq] at h
  | none =>
      simp only [hrefuses] at h
      cases field with
      | text s =>
          obtain rfl := Except.ok.inj h
          exact ⟨Dir.has_write_self _ _ _, fun _ _ hn => Dir.has_write_of_has hn⟩
      | file upload =>
          dsimp only at h
          cases hrename : rename dir upload.path dest with
          | none => simp only [hrename, reduceCtorEq] at h
          | some moved =>
              simp only [hrename, Except.ok.injEq] at h
              subst h
              exact ⟨has_rename_self hrename, fun _ hattached hn =>
                has_rename hrename (upload.ne_of_attached hattached) hn⟩

/-- Arguments that are permitted options, with flags in the order of a table and files that are
there. -/
structure Built (inLibrary : String → Bool) (dir : Dir) (flags : List String) (args : List Arg)
    (opts : List Opt) : Prop where
  args_eq : args = opts.flatMap Opt.args
  ok : ∀ o ∈ opts, o.Ok inLibrary
  files : ∀ o ∈ opts, ∀ n ∈ o.files, dir.has n = true
  sublist : (opts.map Opt.flag).Sublist flags

theorem Built.nil (flags : List String) : Built inLibrary dir flags [] [] where
  args_eq := rfl
  ok := by simp
  files := by simp
  sublist := List.nil_sublist flags

theorem Built.append {flags flags' : List String} {args args' : List Arg} {opts opts' : List Opt}
    (h : Built inLibrary dir flags args opts) (h' : Built inLibrary dir flags' args' opts') :
    Built inLibrary dir (flags ++ flags') (args ++ args') (opts ++ opts') where
  args_eq := by rw [h.args_eq, h'.args_eq, List.flatMap_append]
  ok := fun o ho => (List.mem_append.mp ho).elim (h.ok o) (h'.ok o)
  files := fun o ho => (List.mem_append.mp ho).elim (h.files o) (h'.files o)
  sublist := by
    rw [List.map_append]
    exact h.sublist.append h'.sublist

/-- One option in front. -/
theorem Built.cons {flags : List String} {args : List Arg} {opts : List Opt} {o : Opt}
    (hok : o.Ok inLibrary) (hfiles : ∀ n ∈ o.files, dir.has n = true)
    (h : Built inLibrary dir flags args opts) :
    Built inLibrary dir (o.flag :: flags) (o.args ++ args) (o :: opts) where
  args_eq := by rw [h.args_eq, List.flatMap_cons]
  ok := List.forall_mem_cons.mpr ⟨hok, h.ok⟩
  files := List.forall_mem_cons.mpr ⟨hfiles, h.files⟩
  sublist := h.sublist.cons_cons o.flag

/-- A flag that is not used. -/
theorem Built.skip {flags : List String} {args : List Arg} {opts : List Opt} (flag : String)
    (h : Built inLibrary dir flags args opts) :
    Built inLibrary dir (flag :: flags) args opts :=
  { h with sublist := h.sublist.cons flag }

/-- The files of permitted options have names of the option table. -/
theorem attached_of_files {o : Opt} (hok : o.Ok inLibrary) {n : String} (hn : n ∈ o.files) :
    Attached n :=
  List.mem_map_of_mem (mem_attachable_of_files hok hn)

theorem Built.of_dir {flags : List String} {args : List Arg} {opts : List Opt}
    (h : Built inLibrary dir flags args opts)
    (hkept : Keeps dir dir') :
    Built inLibrary dir' flags args opts :=
  { h with
    files := fun o ho n hn => hkept n (attached_of_files (h.ok o ho) hn) (h.files o ho n hn) }

variable {get : String → Option String}

theorem built_boolArgs (get : String → Option String) {flags : List (String × String)}
    (hflags : ∀ f ∈ flags, f.2 ∈ boolFlags.map Prod.snd) :
    ∃ opts, Built inLibrary dir (flags.map Prod.snd) (boolArgs get flags) opts := by
  induction flags with
  | nil => exact ⟨[], .nil _⟩
  | cons f flags ih =>
      obtain ⟨opts, h⟩ := ih fun g hg => hflags g (List.mem_cons_of_mem f hg)
      rw [boolArgs, List.filter_cons]
      split_ifs
      · have hok : (Opt.alone f.2).Ok inLibrary := hflags f List.mem_cons_self
        exact ⟨_, Built.cons hok (by simp [Opt.files]) h⟩
      · exact ⟨opts, h.skip f.2⟩

/-- The text options of a query are built. -/
theorem built_textArgs {flags : List (String × String)}
    (hflags : ∀ f ∈ flags, f.2 ∈ textFlags.map Prod.snd) {args : List Arg}
    (h : textArgs get flags = .ok args) :
    ∃ opts, Built inLibrary dir (flags.map Prod.snd) args opts := by
  induction flags generalizing args with
  | nil =>
      obtain rfl := Except.ok.inj h
      exact ⟨[], .nil _⟩
  | cons f flags ih =>
      obtain ⟨k, flag⟩ := f
      have hrest := fun g hg => hflags g (List.mem_cons_of_mem (k, flag) hg)
      rw [textArgs] at h
      cases hraw : get k with
      | none =>
          simp only [hraw] at h
          obtain ⟨opts, hbuilt⟩ := ih hrest h
          exact ⟨opts, hbuilt.skip flag⟩
      | some raw =>
          simp only [hraw] at h
          split_ifs at h with hempty hvalue
          · obtain ⟨opts, hbuilt⟩ := ih hrest h
            exact ⟨opts, hbuilt.skip flag⟩
          · cases htexts : textArgs get flags with
            | error e => simp only [htexts, reduceCtorEq] at h
            | ok texts =>
                simp only [htexts, Except.ok.injEq] at h
                obtain ⟨opts, hbuilt⟩ := ih hrest htexts
                have hok : (Opt.text flag raw).Ok inLibrary :=
                  ⟨hflags (k, flag) List.mem_cons_self, (Bool.and_eq_true_iff.mp hvalue).2⟩
                subst h
                exact ⟨_, Built.cons hok (by simp [Opt.files]) hbuilt⟩

theorem built_passwordArgs {password : Option String}
    (hpassword : ∀ p ∈ password, p.utf8ByteSize ≤ 65536 ∧ Char.ofNat 0 ∉ p.toList) :
    ∃ opts, Built inLibrary dir ["--password"] (passwordArgs password) opts := by
  cases password with
  | none => exact ⟨[], .nil _⟩
  | some p =>
      rw [passwordArgs]
      split_ifs with hempty
      · exact ⟨[], .nil _⟩
      · obtain ⟨hsize, hnul⟩ := hpassword p rfl
        have hne : p.toList ≠ [] := fun h => hempty (String.toList_eq_nil_iff.mp h)
        have hok : (Opt.password p).Ok inLibrary := by
          simp [Opt.Ok, passwordOk, hsize, hnul, hne]
        exact ⟨_, Built.cons hok (by simp [Opt.files]) (Built.nil [])⟩

/-- The profile option of a query is built. -/
theorem built_profileArgs {q : Query} {fields : Fields} {args : List Arg}
    (h : profileArgs refuses inLibrary q fields dir = .ok (args, dir')) :
    ∃ opts, Built inLibrary dir' ["--profile"] args opts := by
  rw [profileArgs] at h
  cases hid : (q.get "profile").filter (· ≠ "") with
  | some id =>
      simp only [hid] at h
      split_ifs at h with hlibrary
      obtain ⟨rfl, rfl⟩ := Prod.mk.inj (Except.ok.inj h)
      have hok : (Opt.library id).Ok inLibrary := hlibrary
      exact ⟨_, Built.cons hok (by simp [Opt.files]) (Built.nil [])⟩
  | none =>
      simp only [hid] at h
      cases hfield : fields "profile" with
      | none =>
          simp only [hfield, Except.ok.injEq, Prod.mk.injEq] at h
          obtain ⟨rfl, rfl⟩ := h
          exact ⟨[], .nil _⟩
      | some f =>
          simp only [hfield] at h
          cases hstore : store refuses dir f "profile.json" with
          | error e => simp only [hstore, reduceCtorEq] at h
          | ok stored =>
              simp only [hstore, Except.ok.injEq, Prod.mk.injEq] at h
              obtain ⟨rfl, rfl⟩ := h
              have hok : (Opt.attached "--profile" "profile.json").Ok inLibrary :=
                List.mem_cons_self
              have hfiles : ∀ n ∈ (Opt.attached "--profile" "profile.json").files,
                  stored.has n = true := by
                intro n hn
                obtain rfl := List.mem_singleton.mp hn
                exact (has_store hstore).1
              exact ⟨_, Built.cons hok hfiles (Built.nil [])⟩

/-- The file options of a query are built, with their files in the directory. -/
theorem built_fileArgs {fields : Fields} {entries : List (String × String × String)}
    (hentries : ∀ e ∈ entries, e.2 ∈ Opt.attachable) {args : List Arg}
    (h : fileArgs refuses fields dir entries = .ok (args, dir')) :
    Keeps dir dir' ∧ ∃ opts, Built inLibrary dir' (entries.map fun e => e.2.1) args opts := by
  induction entries generalizing dir args with
  | nil =>
      obtain ⟨rfl, rfl⟩ := Prod.mk.inj (Except.ok.inj h)
      exact ⟨fun _ _ hn => hn, [], .nil _⟩
  | cons e entries ih =>
      obtain ⟨k, flag, name⟩ := e
      have hrest := fun g hg => hentries g (List.mem_cons_of_mem (k, flag, name) hg)
      have hattachable : (flag, name) ∈ Opt.attachable := hentries _ List.mem_cons_self
      rw [fileArgs] at h
      cases hfield : fields k with
      | none =>
          simp only [hfield] at h
          obtain ⟨hkeeps, opts, hbuilt⟩ := ih hrest h
          exact ⟨hkeeps, opts, hbuilt.skip flag⟩
      | some f =>
          simp only [hfield] at h
          cases hstore : store refuses dir f name with
          | error e => simp only [hstore, reduceCtorEq] at h
          | ok stored =>
              simp only [hstore] at h
              cases hfiles : fileArgs refuses fields stored entries with
              | error e => simp only [hfiles, reduceCtorEq] at h
              | ok out =>
                  obtain ⟨files, kept⟩ := out
                  simp only [hfiles, Except.ok.injEq, Prod.mk.injEq] at h
                  obtain ⟨rfl, rfl⟩ := h
                  obtain ⟨hkeeps, opts, hbuilt⟩ := ih hrest hfiles
                  have hok : (Opt.attached flag name).Ok inLibrary := hattachable
                  have hthere : ∀ n ∈ (Opt.attached flag name).files, kept.has n = true := by
                    intro n hn
                    obtain rfl := List.mem_singleton.mp hn
                    exact hkeeps _ (List.mem_map_of_mem hattachable) (has_store hstore).1
                  have hkeeps' : Keeps dir kept := fun n hn hdir =>
                    hkeeps n hn ((has_store hstore).2 n hn hdir)
                  exact ⟨hkeeps', _, Built.cons hok hthere hbuilt⟩

theorem levelOk_iff {kind : Kind} {l : String} :
    levelOk kind l = true ↔ (allowed kind).contains l = true := by
  cases kind <;> simp [levelOk, allowed]

theorem levelArgs_ok {kind : Kind} {args : List Arg} (h : levelArgs get kind = .ok args) :
    ∃ l, levelOk kind l = true ∧
      args = (if kind = .check then [.lit "--check"] else []) ++ [.lit "--level", .lit l] := by
  rw [levelArgs] at h
  cases hl : get "level" with
  | none => simp only [hl, levelArgs.bad, reduceCtorEq] at h
  | some l =>
      simp only [hl, levelArgs.bad] at h
      split_ifs at h with hallowed hkind
      all_goals
        obtain rfl := Except.ok.inj h
        refine ⟨l, levelOk_iff.mpr hallowed, ?_⟩
        simp [hkind]

/-- No flag stands twice in the tables. -/
theorem nodup_flags : (boolFlags.map Prod.snd ++ (textFlags.map Prod.snd ++ (["--password"] ++
    (["--profile"] ++ fileFields.map fun e => e.2.1)))).Nodup := by
  decide

variable {q : Query} {password : Option String} {fields : Fields} {kind : Kind} {args : List Arg}

/-- What is built is a level and options of the tables, with the files they take. -/
theorem built_buildArgs
    (hpassword : ∀ p ∈ password.or (fields.text "password"),
      p.utf8ByteSize ≤ 65536 ∧ Char.ofNat 0 ∉ p.toList)
    (h : buildArgs refuses inLibrary q password fields dir kind = .ok (args, dir')) :
    ∃ l options opts flags, levelOk kind l = true ∧ flags.Nodup ∧
      Built inLibrary dir' flags options opts ∧
      args = ((if kind = .check then [.lit "--check"] else []) ++ [.lit "--level", .lit l]) ++
        options := by
  simp only [buildArgs] at h
  cases hlevel : levelArgs (fun k => (q.get k).or (fields.text k)) kind with
  | error e => simp only [hlevel, reduceCtorEq] at h
  | ok level =>
      simp only [hlevel] at h
      cases htexts : textArgs (fun k => (q.get k).or (fields.text k)) textFlags with
      | error e => simp only [htexts, reduceCtorEq] at h
      | ok texts =>
          simp only [htexts] at h
          cases hprofile : profileArgs refuses inLibrary q fields dir with
          | error e => simp only [hprofile, reduceCtorEq] at h
          | ok out =>
              obtain ⟨profile, dir₁⟩ := out
              simp only [hprofile] at h
              cases hfiles : fileArgs refuses fields dir₁ fileFields with
              | error e => simp only [hfiles, reduceCtorEq] at h
              | ok out =>
                  obtain ⟨files, dir₂⟩ := out
                  simp only [hfiles, Except.ok.injEq, Prod.mk.injEq] at h
                  obtain ⟨rfl, rfl⟩ := h
                  obtain ⟨l, hl, rfl⟩ := levelArgs_ok hlevel
                  have hentries : ∀ e ∈ fileFields, e.2 ∈ Opt.attachable := by decide
                  have hbuilt : Keeps dir₁ dir₂ ∧
                      ∃ opts, Built inLibrary dir₂ (fileFields.map fun e => e.2.1) files opts :=
                    built_fileArgs hentries hfiles
                  obtain ⟨hkeeps, _, bfiles⟩ := hbuilt
                  obtain ⟨_, bprofile⟩ := built_profileArgs hprofile
                  obtain ⟨_, btexts⟩ := built_textArgs (fun f hf => List.mem_map_of_mem hf) htexts
                  obtain ⟨_, bbools⟩ := built_boolArgs
                    (fun k => (q.get k).or (fields.text k)) (fun f hf => List.mem_map_of_mem hf)
                  obtain ⟨_, bpassword⟩ := built_passwordArgs hpassword
                  have hall := bbools.append (btexts.append (bpassword.append
                    ((bprofile.of_dir hkeeps).append bfiles)))
                  exact ⟨l, _, _, _, hl, nodup_flags, hall, rfl⟩

/-- A request for which arguments are built is accepted once its document is stored. -/
theorem validateJob_buildArgs (hkind : kind ≠ .verify)
    (hpassword : ∀ p ∈ password.or (fields.text "password"),
      p.utf8ByteSize ≤ 65536 ∧ Char.ofNat 0 ∉ p.toList)
    (h : buildArgs refuses inLibrary q password fields dir kind = .ok (args, dir'))
    {input : String} (hinput : input = "in.pdf" ∨ input = "in.jpg") {upload : Upload} {job : Dir}
    (hstored : rename dir' upload.path input = some job) :
    validateJob kind (args ++ .file input :: if kind = .convert then [.out "out.pdf"] else [])
      (some job) inLibrary = .ok () := by
  obtain ⟨l, options, opts, flags, hl, hnodup, hbuilt, rfl⟩ := built_buildArgs hpassword h
  have hkeeps : Keeps dir' job := fun n hn hdir =>
    has_rename hstored (upload.ne_of_attached hn) hdir
  have hjob := hbuilt.of_dir hkeeps
  have haccepted : Accepted (some job) inLibrary kind (jobArgs kind l opts input) := by
    refine .run kind l opts input hkind hl hjob.ok (fun o ho n hn => ?_) ?_ hinput ?_
    · exact present_of_has (hjob.files o ho n hn)
    · exact hjob.sublist.nodup hnodup
    · exact present_of_has (has_rename_self hstored)
  have hargs : ((if kind = .check then [Arg.lit "--check"] else []) ++
      [.lit "--level", .lit l]) ++ options ++
        .file input :: (if kind = .convert then [.out "out.pdf"] else []) =
      jobArgs kind l opts input := by
    rw [jobArgs, hjob.args_eq]
    simp only [List.append_assoc, List.cons_append, List.nil_append]
  rw [hargs]
  exact validateJob_iff.mpr haccepted

/-- A request for a level with a profile to convert to. -/
def request : Query := ⟨[("level", "2b"), ("ua", "1"), ("lang", "en-US")]⟩

def requestFields : Fields := fun k => if k = "destProfile" then some (.text "icc") else none

theorem request_accepted :
    validateJob .convert ([.lit "--level", .lit "2b", .lit "--ua", .lit "--lang", .lit "en-US",
        .lit "--password", .lit "pw", .lit "--dest-profile", .file "dest.icc"] ++
          .file "in.pdf" :: if Kind.convert = .convert then [.out "out.pdf"] else [])
      (some [("in.pdf", [0x25]), ("dest.icc", [0x69, 0x63, 0x63])]) (fun _ => false) = .ok () := by
  refine @validateJob_buildArgs (fun _ => none) (fun _ => false) [("upload", [0x25])] _ request
    (some "pw") requestFields .convert _ (by decide) ?_ rfl _ (Or.inl rfl) ⟨"upload", Or.inl rfl⟩ _
    rfl
  intro p hp
  obtain rfl : "pw" = p := Option.some.inj hp
  decide

end Kura.Server.BuildArgs
