import Kura.Engine.Batch

/-!
# Destinations of a batch

Outputs do not collide with each other or with inputs exactly if the inputs
have different stems below one destination and none of them has the name of
another one's output. Then a batch leaves its inputs as they are, in whatever
order its conversions read and write.
-/

namespace Kura.Engine.Batch

open Kura.Base Kura.Transition

/-- A text in front of the first separator joins the first part. -/
theorem splitAt_append {sep : Char} {a b h : List Char} {t : List (List Char)} (ha : sep ∉ a)
    (hb : splitAt sep b = h :: t) : splitAt sep (a ++ b) = (a ++ h) :: t := by
  induction a with
  | nil => exact hb
  | cons c a ih =>
      have hne : c ≠ sep := fun heq => ha (by rw [heq]; exact List.mem_cons_self)
      rw [List.cons_append, splitAt, if_neg hne, ih fun hmem => ha (List.mem_cons_of_mem _ hmem)]
      rfl

theorem splitAt_ne_nil (sep : Char) (cs : List Char) : splitAt sep cs ≠ [] := by
  cases cs with
  | nil => exact List.cons_ne_nil _ _
  | cons c cs =>
      rw [splitAt]
      split
      · exact List.cons_ne_nil _ _
      · split
        · exact List.cons_ne_nil _ _
        · exact List.cons_ne_nil _ _

theorem names_val (text : List Char) :
    (names text).map (fun n => n.1.toList) = splitAt '/' text := by
  rw [names, List.map_map]
  have hfun : ((fun n : Name => n.1.toList) ∘ fun part : { x // x ∈ splitAt '/' text } =>
      (⟨String.ofList part.1, by
        rw [String.toList_ofList]
        exact notMem_of_mem_splitAt part.2⟩ : Name)) = Subtype.val := by
    funext part
    exact String.toList_ofList
  rw [hfun, List.attach_map_subtype_val]

theorem slash_notMem_stem (p : Path) : '/' ∉ stem p := by
  intro hmem
  have hname := List.mem_of_mem_take hmem
  unfold Path.filename at hname
  cases hlast : p.getLast? with
  | none =>
      rw [hlast] at hname
      cases hname
  | some n =>
      rw [hlast] at hname
      exact n.2 hname

/-- The names of an output are told by the stem of its input. -/
theorem dst_inj {o : BatchOptions} {p q : Path} :
    dst o p = dst o q ↔ destDir o p = destDir o q ∧ stem p = stem q := by
  constructor
  · intro heq
    obtain ⟨h, t, hsplit⟩ := List.exists_cons_of_ne_nil
      (splitAt_ne_nil '/' (o.suffix.toList ++ ['.', 'p', 'd', 'f']))
    have hvals : ∀ r : Path, (dst o r).map (fun n => n.1.toList) =
        ((destDir o r).map (fun n => n.1.toList) ++ [stem r ++ h]) ++ t := by
      intro r
      rw [dst, List.map_append, names_val, List.append_assoc,
        splitAt_append (slash_notMem_stem r) hsplit, List.append_assoc, List.singleton_append]
    have hlists : ((destDir o p).map (fun n => n.1.toList) ++ [stem p ++ h]) ++ t =
        ((destDir o q).map (fun n => n.1.toList) ++ [stem q ++ h]) ++ t := by
      rw [← hvals, ← hvals, heq]
    obtain ⟨hdir, hstem⟩ := List.append_inj' (List.append_cancel_right hlists) rfl
    constructor
    · have hinj : Function.Injective fun n : Name => n.1.toList := by
        intro m n hmn
        exact Subtype.ext (String.toList_inj.mp hmn)
      exact List.map_injective_iff.mpr hinj hdir
    · exact List.append_cancel_right (List.cons.inj hstem).1
  · rintro ⟨hdir, hstem⟩
    rw [dst, dst, hdir, hstem]

/-- Accepted inputs have destinations of their own, and none of them is an input. -/
structure Separate (o : BatchOptions) (t : Tree) (inputs : List Path) : Prop where
  apart : ∀ p ∈ inputs, ∀ q ∈ inputs, p ≠ q → ∀ d e, target o t p = some d →
    target o t q = some e → d ≠ e
  fresh : ∀ p ∈ inputs, ∀ d, target o t p = some d → d ∉ inputs

/-- No two inputs with one destination directory have one stem, and no input has the name of
another one's output; an input with its own output's name exists. -/
structure Distinct (o : BatchOptions) (t : Tree) (inputs : List Path) : Prop where
  stems : ∀ p ∈ inputs, ∀ q ∈ inputs, p ≠ q → destDir o p = destDir o q → stem p ≠ stem q
  names : ∀ p ∈ inputs, ∀ q ∈ inputs, p ≠ q → dst o p ≠ q
  present : ∀ p ∈ inputs, dst o p = p → (t.read p).isSome = true

/-- A file is converted unless its destination is the file itself. -/
theorem target_eq_some_iff {o : BatchOptions} {t : Tree} {p d : Path} (how : o.overwrite = false)
    (hconvert : o.verifyOnly = false) :
    target o t p = some d ↔ d = dst o p ∧ ¬ ((t.read p).isSome = true ∧ dst o p = p) := by
  unfold target dstFor
  rw [hconvert, how, if_neg Bool.false_ne_true]
  by_cases hown : dst o p = p
  · rw [hown]
    by_cases hread : (t.read p).isSome = true
    · rw [if_pos ⟨hread, Bool.false_ne_true, rfl⟩]
      constructor
      · intro h
        cases h
      · rintro ⟨-, hnot⟩
        exact absurd ⟨hread, rfl⟩ hnot
    · rw [if_neg fun h => hread h.1]
      constructor
      · intro h
        cases h
        exact ⟨rfl, fun h => hread h.1⟩
      · rintro ⟨rfl, -⟩
        rfl
  · rw [if_neg fun h => hown h.2.2]
    constructor
    · intro h
      cases h
      exact ⟨rfl, fun h => hown h.2⟩
    · rintro ⟨rfl, -⟩
      rfl

/-- Without overwriting, files are separate exactly when their destinations are distinct. -/
theorem separate_iff_distinct {o : BatchOptions} {t : Tree} {inputs : List Path}
    (how : o.overwrite = false) (hconvert : o.verifyOnly = false) :
    Separate o t inputs ↔ Distinct o t inputs := by
  constructor
  · intro hs
    have hnames : ∀ p ∈ inputs, ∀ q ∈ inputs, p ≠ q → dst o p ≠ q := by
      intro p hp q hq hne heq
      have htarget : target o t p = some (dst o p) := by
        rw [target_eq_some_iff how hconvert]
        refine ⟨rfl, fun h => hne ?_⟩
        rw [← h.2, heq]
      exact hs.fresh p hp _ htarget (by rw [heq]; exact hq)
    refine ⟨?_, hnames, ?_⟩
    · intro p hp q hq hne hdir hstem
      have hsame : dst o p = dst o q := dst_inj.mpr ⟨hdir, hstem⟩
      -- one of them is the other's output, or both are accepted
      by_cases hpown : dst o p = p
      · exact hnames q hq p hp (Ne.symm hne) (by rw [← hsame, hpown])
      · by_cases hqown : dst o q = q
        · exact hnames p hp q hq hne (by rw [hsame, hqown])
        · exact hs.apart p hp q hq hne _ _
            ((target_eq_some_iff how hconvert).mpr ⟨rfl, fun h => hpown h.2⟩)
            ((target_eq_some_iff how hconvert).mpr ⟨rfl, fun h => hqown h.2⟩) hsame
    · intro p hp hown
      by_contra hread
      have htarget : target o t p = some (dst o p) :=
        (target_eq_some_iff how hconvert).mpr ⟨rfl, fun h => hread h.1⟩
      exact hs.fresh p hp _ htarget (by rw [hown]; exact hp)
  · intro hd
    refine ⟨?_, ?_⟩
    · intro p hp q hq hne d e htp htq heq
      obtain ⟨rfl, -⟩ := (target_eq_some_iff how hconvert).mp htp
      obtain ⟨rfl, -⟩ := (target_eq_some_iff how hconvert).mp htq
      obtain ⟨hdir, hstem⟩ := dst_inj.mp heq
      exact hd.stems p hp q hq hne hdir hstem
    · intro p hp d htp hmem
      obtain ⟨rfl, hnot⟩ := (target_eq_some_iff how hconvert).mp htp
      by_cases hown : dst o p = p
      · exact hnot ⟨hd.present p hp hown, hown⟩
      · exact hd.names p hp _ hmem (Ne.symm hown) rfl

theorem Tree.read_write_of_ne {t : Tree} {p q : Path} {b : Bytes} (hne : p ≠ q) :
    (t.write q b).read p = t.read p := by
  unfold Tree.write
  split
  · exact AList.lookup_insert_ne hne
  · rfl

theorem Tree.read_write_self {t : Tree} {p : Path} {b : Bytes} (hdir : p.parent ∈ t.dirs) :
    (t.write p b).read p = some b := by
  unfold Tree.write
  rw [if_pos hdir]
  exact AList.lookup_insert _

theorem Tree.dirs_write (t : Tree) (p : Path) (b : Bytes) : (t.write p b).dirs = t.dirs := by
  unfold Tree.write
  split
  · rfl
  · rfl

/-- The directory of an output is there before the batch or is the destination. -/
def Writable (o : BatchOptions) (t : Tree) (src : Path) : Prop :=
  Path.parent (dst o src) ∈ t.dirs ∨ Path.parent (dst o src) = destDir o src

/-- What an input gives. -/
def result (convert : Path → Bytes → Option Bytes) (t : Tree) (src : Path) : Option Bytes :=
  (t.read src).bind (convert src)

/-- What holds between the steps of a batch. -/
structure Going (o : BatchOptions) (convert : Path → Bytes → Option Bytes) (t : Tree)
    (inputs : List Path) (s : BatchState) : Prop where
  kept : ∀ p ∈ inputs, s.tree.read p = t.read p
  waiting : ∀ p ∈ s.waiting, p ∈ inputs
  dirs : ∀ d ∈ t.dirs, d ∈ s.tree.dirs
  running : ∀ r ∈ s.running, r.1 ∈ inputs ∧ (target o t r.1).isSome = true ∧
    result convert t r.1 = some r.2 ∧ destDir o r.1 ∈ s.tree.dirs
  outputs : ∀ p ∈ inputs, ∀ d out, target o t p = some d → result convert t p = some out →
    Writable o t p → p ∈ s.waiting ∨ (p, out) ∈ s.running ∨ s.tree.read d = some out

section Going

variable {o : BatchOptions} {convert : Path → Bytes → Option Bytes} {t : Tree}
  {inputs : List Path} {s s' : BatchState}

theorem dst_of_target {src d : Path} (h : target o t src = some d) : d = dst o src := by
  unfold target dstFor at h
  split at h
  · cases h
  · split at h
    · cases h
    · cases h
      rfl

/-- Whether an input is accepted depends on the input only. -/
theorem target_congr {u : Tree} {src : Path} (h : u.read src = t.read src) :
    target o u src = target o t src := by
  unfold target dstFor
  by_cases hown : dst o src = src
  · rw [hown, h]
  · rw [if_neg fun hc : _ ∧ _ ∧ _ => hown hc.2.2, if_neg fun hc : _ ∧ _ ∧ _ => hown hc.2.2]

theorem going_start : Going o convert t inputs (startBatch t inputs) where
  kept _ _ := rfl
  waiting _ h := h
  dirs _ h := h
  running _ h := by cases h
  outputs _ hp _ _ _ _ _ := .inl hp

/-- A read keeps the invariant of the run. -/
theorem going_read {src : Path} (hg : Going o convert t inputs s)
    (h : act o convert s (.read src) = some s') : Going o convert t inputs s' := by
  unfold act at h
  dsimp only at h
  split at h
  · rename_i hsrc
    have hin := hg.waiting src hsrc
    have hread := hg.kept src hin
    have hmem : ∀ p, p ∈ s.waiting → p ≠ src → p ∈ s.waiting.erase src :=
      fun p hp hne => (List.mem_erase_of_ne hne).mpr hp
    rw [target_congr hread, hread] at h
    split at h
    · rename_i hnone
      cases h
      refine ⟨hg.kept, fun p hp => hg.waiting p (List.mem_of_mem_erase hp), hg.dirs, hg.running,
        fun p hp d out htarget hout hdir => ?_⟩
      obtain hwait | hrest := hg.outputs p hp d out htarget hout hdir
      · refine .inl (hmem p hwait ?_)
        rintro rfl
        rw [hnone] at htarget
        cases htarget
      · exact .inr hrest
    · rename_i dstSrc hsome
      have hdirs : ∀ e ∈ s.tree.dirs, e ∈ (s.tree.createDirectories (destDir o src)).dirs :=
        fun e he => List.mem_append_left _ he
      have hdest : destDir o src ∈ (s.tree.createDirectories (destDir o src)).dirs :=
        List.mem_append_right _ (List.mem_inits _ _ |>.mpr (List.prefix_refl _))
      split at h
      · rename_i hout'
        cases h
        refine ⟨hg.kept, fun p hp => hg.waiting p (List.mem_of_mem_erase hp),
          fun e he => hdirs e (hg.dirs e he), fun r hr => ?_,
          fun p hp d out htarget hout hdir => ?_⟩
        · obtain ⟨h1, h2, h3, h4⟩ := hg.running r hr
          exact ⟨h1, h2, h3, hdirs _ h4⟩
        · obtain hwait | hrest := hg.outputs p hp d out htarget hout hdir
          · refine .inl (hmem p hwait ?_)
            rintro rfl
            rw [result, hout'] at hout
            cases hout
          · exact .inr hrest
      · rename_i out' hout'
        cases h
        refine ⟨hg.kept, fun p hp => hg.waiting p (List.mem_of_mem_erase hp),
          fun e he => hdirs e (hg.dirs e he), fun r hr => ?_,
          fun p hp d out htarget hout hdir => ?_⟩
        · obtain rfl | hold := List.mem_cons.mp hr
          · exact ⟨hin, by rw [hsome]; rfl, hout', hdest⟩
          · obtain ⟨h1, h2, h3, h4⟩ := hg.running r hold
            exact ⟨h1, h2, h3, hdirs _ h4⟩
        · by_cases hpsrc : p = src
          · subst hpsrc
            have hsame : out' = out := Option.some.inj (hout'.symm.trans hout)
            rw [hsame]
            exact .inr (.inl List.mem_cons_self)
          · obtain hwait | hrun | hwritten := hg.outputs p hp d out htarget hout hdir
            · exact .inl (hmem p hwait hpsrc)
            · exact .inr (.inl (List.mem_cons_of_mem _ hrun))
            · exact .inr (.inr hwritten)
  · cases h

/-- A write to separate files keeps the invariant of the run. -/
theorem going_write {src : Path} (hsep : Separate o t inputs) (hg : Going o convert t inputs s)
    (h : act o convert s (.write src) = some s') : Going o convert t inputs s' := by
  unfold act at h
  dsimp only at h
  split at h
  · cases h
  · rename_i r hfind
    cases h
    have hrun := List.mem_of_find?_eq_some hfind
    have hrsrc : r.1 = src := by simpa using List.find?_some hfind
    obtain ⟨hin, hacc, hres, hdest⟩ := hg.running r hrun
    rw [hrsrc] at hin hacc hres hdest
    obtain ⟨d', hd'⟩ := Option.isSome_iff_exists.mp hacc
    obtain rfl := dst_of_target hd'
    have hfresh := hsep.fresh src hin _ hd'
    refine ⟨fun p hp => ?_, hg.waiting, fun e he => ?_, fun r' hr' => ?_,
      fun p hp d out htarget hout hdir => ?_⟩
    · have hne : p ≠ dst o src := by
        rintro rfl
        exact hfresh hp
      rw [Tree.read_write_of_ne hne]
      exact hg.kept p hp
    · rw [Tree.dirs_write]
      exact hg.dirs e he
    · rw [Tree.dirs_write]
      exact hg.running r' (List.mem_of_mem_erase hr')
    · obtain rfl := dst_of_target htarget
      by_cases hpsrc : p = src
      · subst hpsrc
        have hsame : r.2 = out := Option.some.inj (hres.symm.trans hout)
        refine .inr (.inr ?_)
        rw [← hsame]
        apply Tree.read_write_self
        obtain hthere | hmade := hdir
        · exact hg.dirs _ hthere
        · rw [hmade]
          exact hdest
      · have hapart := hsep.apart p hp src hin hpsrc _ _ htarget hd'
        obtain hwait | hrun' | hwritten := hg.outputs p hp _ out htarget hout hdir
        · exact .inl hwait
        · refine .inr (.inl ((List.mem_erase_of_ne ?_).mpr hrun'))
          rintro rfl
          exact hpsrc hrsrc
        · refine .inr (.inr ?_)
          rw [Tree.read_write_of_ne hapart]
          exact hwritten

/-- With separate destinations every run of a batch keeps its inputs and gives each accepted
input its own output. -/
theorem going_run (hsep : Separate o t inputs) {as : List Action}
    (hrun : Run (act o convert) (startBatch t inputs) as s) : Going o convert t inputs s := by
  apply RunWhere.invariant (I := Going o convert t inputs) _ hrun going_start
  intro s a s' hg _ hstep
  cases a with
  | read src => exact going_read hg hstep
  | write src => exact going_write hsep hg hstep

end Going

/-- Without `-w`, destinations are separate exactly if the inputs are distinct; then every
finished batch has left the inputs as they were and given each accepted one its output. -/
theorem batch_separate_iff (o : BatchOptions) (how : o.overwrite = false) (input : Path)
    (t : Tree) :
    (Separate (withDefaults o) t (collect (withDefaults o) input t) ↔
      (o.verifyOnly = false → Distinct (withDefaults o) t (collect (withDefaults o) input t))) ∧
    (Separate (withDefaults o) t (collect (withDefaults o) input t) →
      ∀ convert as s, Run (act (withDefaults o) convert)
        (startBatch t (collect (withDefaults o) input t)) as s → s.waiting = [] → s.running = [] →
        (∀ p ∈ collect (withDefaults o) input t, s.tree.read p = t.read p) ∧
        ∀ p ∈ collect (withDefaults o) input t, ∀ d out,
          target (withDefaults o) t p = some d → result convert t p = some out →
          Writable (withDefaults o) t p → s.tree.read d = some out) := by
  have how' : (withDefaults o).overwrite = false := by
    unfold withDefaults
    split
    · exact how
    · exact how
  have hverify : (withDefaults o).verifyOnly = o.verifyOnly := by
    unfold withDefaults
    split
    · rfl
    · rfl
  constructor
  · cases hv : o.verifyOnly with
    | false =>
        rw [hv] at hverify
        rw [separate_iff_distinct how' hverify]
        exact ⟨fun h _ => h, fun h => h rfl⟩
    | true =>
        rw [hv] at hverify
        refine iff_of_true ?_ fun h => by cases h
        have hnone : ∀ p, target (withDefaults o) t p = none := by
          intro p
          rw [target, dstFor, hverify]
          rfl
        refine ⟨fun p _ q _ _ d e hd => ?_, fun p _ d hd => ?_⟩
        · rw [hnone] at hd
          cases hd
        · rw [hnone] at hd
          cases hd
  · intro hsep convert as s hrun hwaiting hrunning
    have hg := going_run hsep hrun
    refine ⟨hg.kept, fun p hp d out htarget hout hdir => ?_⟩
    obtain hwait | hrun' | hwritten := hg.outputs p hp d out htarget hout hdir
    · rw [hwaiting] at hwait
      cases hwait
    · rw [hrunning] at hrun'
      cases hrun'
    · exact hwritten

/-- A name of a test. -/
def nameOf (s : String) (h : '/' ∉ s.toList) : Name := ⟨s, h⟩

/-- The folder `in` with two files of one name in two folders. -/
def twoFolders : Tree where
  files := (∅ : AList fun _ : Path => Bytes)
    |>.insert [nameOf "in" (by decide), nameOf "a" (by decide), nameOf "x.pdf" (by decide)] [1]
    |>.insert [nameOf "in" (by decide), nameOf "b" (by decide), nameOf "x.pdf" (by decide)] [2]
  dirs := [[nameOf "in" (by decide)], [nameOf "in" (by decide), nameOf "a" (by decide)],
    [nameOf "in" (by decide), nameOf "b" (by decide)]]

/-- `-r`, with or without a folder for the outputs. -/
def recursiveInto (outDir : Option Path) : BatchOptions where
  recursive := true
  overwrite := false
  watch := false
  outDir := outDir
  suffix := ""
  verifyOnly := false

/-- Beside their inputs the two outputs are separate. -/
theorem twoFolders_separate :
    (recursiveInto none).overwrite = false ∧
    collect (withDefaults (recursiveInto none)) [nameOf "in" (by decide)] twoFolders ≠ [] ∧
    Separate (withDefaults (recursiveInto none)) twoFolders
      (collect (withDefaults (recursiveInto none)) [nameOf "in" (by decide)] twoFolders) := by
  refine ⟨rfl, by decide, ?_⟩
  refine (batch_separate_iff (recursiveInto none) rfl [nameOf "in" (by decide)] twoFolders).1.mpr ?_
  intro _
  exact ⟨by decide, by decide, by decide⟩

/-- In one folder for the outputs they are the same file. -/
theorem twoFolders_collide :
    ¬ Separate (withDefaults (recursiveInto (some [nameOf "out" (by decide)]))) twoFolders
      (collect (withDefaults (recursiveInto (some [nameOf "out" (by decide)])))
        [nameOf "in" (by decide)] twoFolders) := by
  intro hsep
  refine hsep.apart
    [nameOf "in" (by decide), nameOf "a" (by decide), nameOf "x.pdf" (by decide)]
    (by decide)
    [nameOf "in" (by decide), nameOf "b" (by decide), nameOf "x.pdf" (by decide)]
    (by decide) (by decide)
    [nameOf "out" (by decide), nameOf "x.pdf" (by decide)]
    [nameOf "out" (by decide), nameOf "x.pdf" (by decide)]
    (by decide) (by decide) rfl

end Kura.Engine.Batch
