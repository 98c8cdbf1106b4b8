import Kura.Engine.Watch

/-!
# Runs of a watched folder

If only files are dropped that may be, no output is ever collected, no file in
`done` is replaced, and after the last drop the loop comes to rest with every
file converted once.
-/

namespace Kura.Engine.Batch

open Kura.Base Kura.Transition

section Paths

variable {o : BatchOptions} {input p q : Path}

theorem ne_nil_of_takes (h : takes o input p = true) : p ≠ [] := by
  rintro rfl
  rw [takes, Bool.and_eq_true] at h
  have hplace := h.2
  split at hplace
  · cases input with
    | nil => simp at hplace
    | cons n input => simp at hplace
  · simp at hplace

theorem doneAt_of_ne_nil (input : Path) (hp : p ≠ []) :
    ∃ n : Name, p.getLast? = some n ∧ doneAt input p = doneDir input ++ [n] := by
  refine ⟨p.getLast hp, List.getLast?_eq_some_getLast hp, ?_⟩
  rw [doneAt, List.getLast?_eq_some_getLast hp]
  rfl

theorem parent_doneAt (input : Path) (hp : p ≠ []) : (doneAt input p).parent = doneDir input := by
  obtain ⟨n, -, hdone⟩ := doneAt_of_ne_nil input hp
  rw [hdone, Path.parent, List.dropLast_concat]

/-- Two inputs moved to one place have one file name. -/
theorem doneAt_inj (h : doneAt input p = doneAt input q) : p.getLast? = q.getLast? := by
  have hlist := List.append_cancel_left h
  cases hp : p.getLast? with
  | none =>
      cases hq : q.getLast? with
      | none => rfl
      | some n =>
          rw [hp, hq] at hlist
          cases hlist
  | some m =>
      cases hq : q.getLast? with
      | none =>
          rw [hp, hq] at hlist
          cases hlist
      | some n =>
          rw [hp, hq] at hlist
          rw [List.head_eq_of_cons_eq hlist]

/-- What stands below `done` is left out. -/
theorem inDone_of_below (hinput : input ≠ []) {n : Name} {rest : Path}
    (h : p = doneDir input ++ n :: rest) : inDone p = true := by
  obtain ⟨m, input, rfl⟩ := List.exists_cons_of_ne_nil hinput
  rw [h, inDone, doneDir, List.any_eq_true]
  refine ⟨⟨"done", by decide⟩, ?_, by decide⟩
  have hsplit : ((m :: input) ++ [(⟨"done", by decide⟩ : Name)] ++ n :: rest).drop 1 =
      (input ++ [(⟨"done", by decide⟩ : Name)]) ++ n :: rest := by
    simp
  rw [hsplit, List.dropLast_append_of_ne_nil (List.cons_ne_nil n rest)]
  simp

theorem takes_doneAt (hwatch : o.watch = true) (hinput : input ≠ []) (hp : p ≠ []) :
    takes o input (doneAt input p) = false := by
  obtain ⟨n, -, hdone⟩ := doneAt_of_ne_nil input hp
  rw [takes, Bool.and_eq_false_iff]
  right
  split
  · rw [inDone_of_below hinput hdone, hwatch]
    simp
  · have hne : doneDir input ≠ input := by
      intro heq
      have hlen := congrArg List.length heq
      simp [doneDir] at hlen
    rw [parent_doneAt input hp, Bool.and_eq_false_iff]
    left
    simpa using hne

/-- No file that is collected stands below a place in `done`. -/
theorem not_doneAt_prefix (hwatch : o.watch = true) (hinput : input ≠ []) (hq : q ≠ [])
    (h : takes o input p = true) : ¬ doneAt input q <+: Path.parent p := by
  rintro ⟨rest, hrest⟩
  obtain ⟨n, -, hdone⟩ := doneAt_of_ne_nil input hq
  have hp := ne_nil_of_takes h
  rw [takes, Bool.and_eq_true] at h
  have hplace := h.2
  split at hplace
  · have hbelow : p = doneDir input ++ n :: (rest ++ [p.getLast hp]) := by
      have hjoin := List.dropLast_append_getLast hp
      rw [Path.parent] at hrest
      rw [← hrest, hdone] at hjoin
      simpa using hjoin.symm
    rw [inDone_of_below hinput hbelow, hwatch] at hplace
    simp at hplace
  · simp only [Bool.and_eq_true, beq_iff_eq] at hplace
    have hlen := congrArg List.length hrest
    rw [hplace.1, hdone] at hlen
    simp [doneDir] at hlen

end Paths

namespace Tree

variable {t : Tree} {p q : Path} {b : Bytes}

theorem isSome_read_write (h : (t.read p).isSome = true) :
    ((t.write q b).read p).isSome = true := by
  by_cases heq : p = q
  · subst heq
    by_cases hdir : p.parent ∈ t.dirs
    · rw [read_write_self hdir]
      rfl
    · rw [write, if_neg hdir]
      exact h
  · rw [read_write_of_ne heq]
    exact h

theorem read_rename_of_ne {r : Path} (hr : r ≠ p) (hrq : r ≠ q) :
    (t.rename p q).read r = t.read r := by
  unfold rename
  split
  · exact (AList.lookup_insert_ne hrq).trans (AList.lookup_erase_ne hr)
  · rfl

theorem read_rename_self (hp : p ≠ q) (h : t.canRename p q = true) :
    (t.rename p q).read p = none := by
  unfold rename
  rw [if_pos h]
  exact (AList.lookup_insert_ne hp).trans (AList.lookup_erase p t.files)

theorem dirs_rename (t : Tree) (p q : Path) : (t.rename p q).dirs = t.dirs := by
  unfold rename
  split
  · rfl
  · rfl

end Tree

theorem mem_collect_iff {o : BatchOptions} {input p : Path} {t : Tree} (hdir : input ∈ t.dirs) :
    p ∈ collect o input t ↔ takes o input p = true ∧ (t.read p).isSome = true := by
  rw [collect, if_pos hdir, List.mem_insertionSort, List.mem_filter, and_comm]
  have hkeys : p ∈ t.files.keys ↔ (t.read p).isSome = true := by
    rw [← AList.mem_keys, Tree.read, AList.lookup_isSome]
  rw [hkeys]

theorem nodup_collect {o : BatchOptions} {input : Path} {t : Tree} (hdir : input ∈ t.dirs) :
    (collect o input t).Nodup := by
  rw [collect, if_pos hdir, (List.perm_insertionSort _ _).nodup_iff]
  exact t.files.keys_nodup.filter _

section Act

variable {o : BatchOptions} {convert : Path → Bytes → Option Bytes} {t : Tree} {w : List Path}
  {r : List (Path × Bytes)} {src : Path} {next : BatchState}

/-- A read changes no file. -/
theorem act_read (h : act o convert ⟨t, w, r⟩ (.read src) = some next) :
    src ∈ w ∧ next.waiting = w.erase src ∧
    (next.tree = t ∨ next.tree = t.createDirectories (destDir o src)) ∧
    (next.running = r ∨ ∃ data out, o.verifyOnly = false ∧ t.read src = some data ∧
      convert src data = some out ∧ next.running = (src, out) :: r) := by
  simp only [act] at h
  split at h
  · rename_i hsrc
    refine ⟨hsrc, ?_⟩
    cases htarget : target o t src with
    | none =>
        rw [htarget] at h
        cases h
        exact ⟨rfl, .inl rfl, .inl rfl⟩
    | some d =>
        rw [htarget] at h
        have hcheck : o.verifyOnly = false := by
          by_contra hverify
          rw [Bool.not_eq_false] at hverify
          rw [target, dstFor, if_pos hverify] at htarget
          cases htarget
        cases hresult : (t.read src).bind (convert src) with
        | none =>
            simp only [hresult] at h
            cases h
            exact ⟨rfl, .inr rfl, .inl rfl⟩
        | some out =>
            simp only [hresult] at h
            cases h
            obtain ⟨data, hdata, hout⟩ := Option.bind_eq_some_iff.mp hresult
            exact ⟨rfl, .inr rfl, .inr ⟨data, out, hcheck, hdata, hout, rfl⟩⟩
  · cases h

/-- A write changes one file. -/
theorem act_write (h : act o convert ⟨t, w, r⟩ (.write src) = some next) :
    ∃ out, (src, out) ∈ r ∧ next.tree = t.write (dst o src) out ∧ next.waiting = w ∧
      next.running = r.erase (src, out) := by
  simp only [act] at h
  cases hfind : r.find? fun e => e.1 = src with
  | none =>
      rw [hfind] at h
      cases h
  | some e =>
      rw [hfind] at h
      cases h
      have hsrc : e.1 = src := by simpa using List.find?_some hfind
      obtain ⟨src', out⟩ := e
      subst hsrc
      exact ⟨out, List.mem_of_find?_eq_some hfind, rfl, rfl, rfl⟩

/-- An accepted file is converted from its own bytes. -/
theorem conversionOf_eq {b : Bytes} (hread : t.read src = some b)
    (haccepted : o.verifyOnly = true ∨ o.overwrite = true ∨ dst o src ≠ src) :
    conversionOf o t src = [(src, b)] := by
  have hsome : (dstFor o t src).isSome = true := by
    unfold dstFor
    split
    · rfl
    · rename_i hverify
      rw [if_neg]
      · rfl
      · rintro ⟨-, hover, hown⟩
        obtain hv | ho | hne := haccepted
        · exact hverify hv
        · exact hover ho
        · exact hne hown
  rw [conversionOf, if_pos hsome, hread]
  rfl

end Act

/-- Every dropped file waits, is in the batch, or was converted and moved. -/
structure Sound (o : BatchOptions) (input : Path) (convert : Path → Bytes → Option Bytes)
    (s : WatchState) : Prop where
  unlike : s.dropped.Pairwise fun d e => d.1.getLast? ≠ e.1.getLast?
  taken : ∀ d ∈ s.dropped, takes o input d.1 = true
  accepted : ∀ d ∈ s.dropped, o.verifyOnly = true ∨ o.overwrite = true ∨ dst o d.1 ≠ d.1
  apart : ∀ d ∈ s.dropped, o.verifyOnly = true ∨ convert d.1 d.2 = none ∨ dst o d.1 = d.1 ∨
    takes o input (dst o d.1) = false
  noDir : ∀ d ∈ s.dropped, doneAt input d.1 ∉ s.tree.dirs
  noOutDir : ∀ d ∈ s.dropped, ∀ dir ∈ o.outDir, ¬ doneAt input d.1 <+: dir
  dirs : input ∈ s.tree.dirs ∧ doneDir input ∈ s.tree.dirs
  known : ∀ p, takes o input p = true → (s.tree.read p).isSome = true → ∃ b, (p, b) ∈ s.dropped
  once : s.converted.Nodup
  converted : ∀ d ∈ s.converted, d ∈ s.dropped ∧ d.1 ∉ s.waiting ∧
    (d.1 ∉ s.leaving → s.tree.read d.1 = none)
  fresh : ∀ d ∈ s.dropped, d ∉ s.converted →
    s.tree.read d.1 = some d.2 ∧ (d.1 ∈ s.leaving → d.1 ∈ s.waiting)
  nodup : s.leaving.Nodup ∧ s.waiting.Nodup
  waiting : ∀ p ∈ s.waiting, p ∈ s.leaving
  leaving : ∀ p ∈ s.leaving, takes o input p = true ∧ (s.tree.read p).isSome = true
  running : ∀ r ∈ s.running, r.1 ∈ s.leaving ∧ (∃ b, (r.1, b) ∈ s.converted) ∧
    (dst o r.1 = r.1 ∨ takes o input (dst o r.1) = false)
  made : ∀ p ∈ s.made, takes o input p = true → p ∈ s.leaving
  moved : ∀ d ∈ s.dropped, doneAt input d.1 ∈ s.moved → s.tree.read d.1 = none

section Sound

variable {o : BatchOptions} {input : Path} {convert : Path → Bytes → Option Bytes}
  {s s' : WatchState}

/-- The start of a watch is sound. -/
theorem sound_start (o : BatchOptions) (convert : Path → Bytes → Option Bytes) {t : Tree}
    (hfree : ∀ p, takes o input p = true → t.read p = none) :
    Sound o input convert (startWatch input t) where
  unlike := List.Pairwise.nil
  taken _ h := by cases h
  accepted _ h := by cases h
  apart _ h := by cases h
  noDir _ h := by cases h
  noOutDir _ h := by cases h
  dirs := by
    constructor
    · refine List.mem_append_right _ ((List.mem_inits _ _).mpr ?_)
      exact List.prefix_append _ _
    · exact List.mem_append_right _ ((List.mem_inits _ _).mpr (List.prefix_refl _))
  known p hp hread := by
    have hnone : (startWatch input t).tree.read p = none := hfree p hp
    rw [hnone] at hread
    cases hread
  once := List.nodup_nil
  converted _ h := by cases h
  fresh _ h := by cases h
  nodup := ⟨List.nodup_nil, List.nodup_nil⟩
  waiting _ h := by cases h
  leaving _ h := by cases h
  running _ h := by cases h
  made _ h := by cases h
  moved _ h := by cases h

namespace Sound

variable (h : Sound o input convert s)
include h

/-- Dropped files with one name are the same. -/
theorem eq_of_last {d e : Path × Bytes} (hd : d ∈ s.dropped) (he : e ∈ s.dropped)
    (hlast : d.1.getLast? = e.1.getLast?) : d = e := by
  by_contra hne
  have hsymm : Std.Symm fun d e : Path × Bytes => d.1.getLast? ≠ e.1.getLast? :=
    ⟨fun _ _ => Ne.symm⟩
  exact h.unlike.forall hd he hne hlast

theorem eq_of_path {d e : Path × Bytes} (hd : d ∈ s.dropped) (he : e ∈ s.dropped)
    (hpath : d.1 = e.1) : d = e := h.eq_of_last hd he (by rw [hpath])

/-- The directories that a step creates are none in `done` that a file is moved to. -/
theorem noDir_of_inits (hwatch : o.watch = true) (hinput : input ≠ []) {dir : Path}
    (hdir : (∃ p, takes o input p = true ∧ dir = Path.parent p) ∨ dir ∈ o.outDir)
    {d : Path × Bytes} (hd : d ∈ s.dropped) : doneAt input d.1 ∉ dir.inits := by
  intro hmem
  have hstart := (List.mem_inits _ _).mp hmem
  obtain ⟨p, hp, rfl⟩ | hout := hdir
  · exact not_doneAt_prefix hwatch hinput (ne_nil_of_takes (h.taken d hd)) hp hstart
  · exact h.noOutDir d hd dir hout hstart

/-- A dropped file keeps the watch sound. -/
theorem drop (hwatch : o.watch = true) (hinput : input ≠ []) {p : Path} {b : Bytes}
    (hfits : Fits o input convert s p b) : Sound o input convert (dropFile s p b) := by
  have hne : ∀ d ∈ s.dropped, d.1 ≠ p := fun d hd heq => hfits.unlike d hd (by rw [heq])
  have hread : ∀ {q}, q ≠ p → (dropFile s p b).tree.read q = s.tree.read q := by
    intro q hq
    exact Tree.read_write_of_ne hq
  have hself : (dropFile s p b).tree.read p = some b := by
    apply Tree.read_write_self
    exact List.mem_append_right _ ((List.mem_inits _ _).mpr (List.prefix_refl _))
  have hdirs : (dropFile s p b).tree.dirs = s.tree.dirs ++ p.parent.inits :=
    Tree.dirs_write _ _ _
  have hmem : ∀ {d}, d ∈ (dropFile s p b).dropped → d ∈ s.dropped ∨ d = (p, b) := by
    intro d hd
    obtain hold | hnew := List.mem_append.mp hd
    · exact .inl hold
    · exact .inr (List.mem_singleton.mp hnew)
  constructor
  case unlike =>
    refine List.pairwise_append.mpr ⟨h.unlike, List.pairwise_singleton _ _, ?_⟩
    intro d hd e he
    rw [List.mem_singleton.mp he]
    exact hfits.unlike d hd
  case taken =>
    intro d hd
    obtain hold | rfl := hmem hd
    · exact h.taken d hold
    · exact hfits.taken
  case accepted =>
    intro d hd
    obtain hold | rfl := hmem hd
    · exact h.accepted d hold
    · exact hfits.accepted
  case apart =>
    intro d hd
    obtain hold | rfl := hmem hd
    · exact h.apart d hold
    · exact hfits.apart
  case noDir =>
    intro d hd
    rw [hdirs, List.mem_append, not_or]
    obtain hold | rfl := hmem hd
    · exact ⟨h.noDir d hold, h.noDir_of_inits hwatch hinput (.inl ⟨p, hfits.taken, rfl⟩) hold⟩
    · refine ⟨hfits.noDir, fun hinits => ?_⟩
      exact not_doneAt_prefix hwatch hinput (ne_nil_of_takes hfits.taken) hfits.taken
        ((List.mem_inits _ _).mp hinits)
  case noOutDir =>
    intro d hd
    obtain hold | rfl := hmem hd
    · exact h.noOutDir d hold
    · exact hfits.noOutDir
  case dirs =>
    rw [hdirs]
    exact ⟨List.mem_append_left _ h.dirs.1, List.mem_append_left _ h.dirs.2⟩
  case known =>
    intro q hq hsome
    by_cases heq : q = p
    · rw [heq]
      exact ⟨b, List.mem_append_right _ List.mem_cons_self⟩
    · rw [hread heq] at hsome
      obtain ⟨c, hc⟩ := h.known q hq hsome
      exact ⟨c, List.mem_append_left _ hc⟩
  case once => exact h.once
  case converted =>
    intro d hd
    obtain ⟨hdropped, hwaiting, hgone⟩ := h.converted d hd
    refine ⟨List.mem_append_left _ hdropped, hwaiting, fun hleaving => ?_⟩
    rw [hread (hne d hdropped)]
    exact hgone hleaving
  case fresh =>
    intro d hd hnot
    obtain hold | rfl := hmem hd
    · rw [hread (hne d hold)]
      exact h.fresh d hold hnot
    · refine ⟨hself, fun hleaving => ?_⟩
      -- a file of the batch was dropped before
      obtain ⟨hp, hsome⟩ := h.leaving p hleaving
      obtain ⟨c, hc⟩ := h.known p hp hsome
      exact absurd rfl (hne _ hc)
  case nodup => exact h.nodup
  case waiting => exact h.waiting
  case leaving =>
    intro q hq
    obtain ⟨htaken, hsome⟩ := h.leaving q hq
    exact ⟨htaken, Tree.isSome_read_write hsome⟩
  case running => exact h.running
  case made =>
    intro q hq
    exact h.made q (List.mem_of_mem_filter hq)
  case moved =>
    intro d hd hmoved
    have hold := List.mem_of_mem_filter hmoved
    obtain hdropped | rfl := hmem hd
    · rw [hread (hne d hdropped)]
      exact h.moved d hdropped hold
    · exact absurd hold hfits.unmoved

/-- A scan keeps the watch sound. -/
theorem scan (hidle : s.Idle) {ready : List Path}
    (hready : ready.Sublist (collect o input s.tree)) :
    Sound o input convert { s with waiting := ready, leaving := ready } := by
  obtain ⟨hwaiting, hrunning, hleaving⟩ := hidle
  have hcollected : ∀ p ∈ ready, takes o input p = true ∧ (s.tree.read p).isSome = true :=
    fun p hp => (mem_collect_iff h.dirs.1).mp (hready.subset hp)
  have hnodup : ready.Nodup := (nodup_collect h.dirs.1).sublist hready
  have hgone : ∀ d ∈ s.converted, s.tree.read d.1 = none := by
    intro d hd
    apply (h.converted d hd).2.2
    rw [hleaving]
    exact List.not_mem_nil
  have hnot : ∀ d ∈ s.converted, d.1 ∉ ready := by
    intro d hd hmem
    have hsome := (hcollected d.1 hmem).2
    rw [hgone d hd] at hsome
    cases hsome
  constructor
  case unlike => exact h.unlike
  case taken => exact h.taken
  case accepted => exact h.accepted
  case apart => exact h.apart
  case noDir => exact h.noDir
  case noOutDir => exact h.noOutDir
  case dirs => exact h.dirs
  case known => exact h.known
  case once => exact h.once
  case converted => exact fun d hd => ⟨(h.converted d hd).1, hnot d hd, fun _ => hgone d hd⟩
  case fresh => exact fun d hd hfresh => ⟨(h.fresh d hd hfresh).1, id⟩
  case nodup => exact ⟨hnodup, hnodup⟩
  case waiting => exact fun p hp => hp
  case leaving => exact hcollected
  case running =>
    intro r hr
    rw [hrunning] at hr
    cases hr
  case made =>
    intro p hp htaken
    have hmem := h.made p hp htaken
    rw [hleaving] at hmem
    cases hmem
  case moved => exact h.moved

/-- A read keeps the watch sound. -/
theorem read (hwatch : o.watch = true) (hinput : input ≠ []) {src : Path}
    (hstep : batchStep o convert s (.read src) = some s') : Sound o input convert s' := by
  obtain ⟨next, hact, rfl⟩ := Option.map_eq_some_iff.mp hstep
  obtain ⟨hsrc, hwaits, htree, hruns⟩ := act_read hact
  have hin := h.waiting src hsrc
  obtain ⟨htaken, hsome⟩ := h.leaving src hin
  obtain ⟨b, hdropped⟩ := h.known src htaken hsome
  have hnew : (src, b) ∉ s.converted := fun hmem => (h.converted _ hmem).2.1 hsrc
  have hdata : s.tree.read src = some b := (h.fresh _ hdropped hnew).1
  have hread : ∀ p, next.tree.read p = s.tree.read p := by
    intro p
    obtain heq | heq := htree
    · rw [heq]
    · rw [heq]
      rfl
  have hlist : s.converted ++ conversionOf o s.tree src = s.converted ++ [(src, b)] := by
    rw [conversionOf_eq hdata (h.accepted _ hdropped)]
  have hstill : ∀ {p}, p ∈ next.waiting → p ∈ s.waiting ∧ p ≠ src := by
    intro p hp
    rw [hwaits] at hp
    exact ⟨List.mem_of_mem_erase hp, fun heq => (h.nodup.2.not_mem_erase) (heq ▸ hp)⟩
  have hdestDir : (∃ p, takes o input p = true ∧ destDir o src = Path.parent p) ∨
      destDir o src ∈ o.outDir := by
    cases hout : o.outDir with
    | none => exact .inl ⟨src, htaken, by rw [destDir, hout]; rfl⟩
    | some dir => exact .inr (by rw [destDir, hout]; rfl)
  simp only [hlist]
  constructor
  case unlike => exact h.unlike
  case taken => exact h.taken
  case accepted => exact h.accepted
  case apart => exact h.apart
  case noDir =>
    intro d hd
    obtain heq | heq := htree
    · rw [heq]
      exact h.noDir d hd
    · rw [heq, Tree.createDirectories, List.mem_append, not_or]
      exact ⟨h.noDir d hd, h.noDir_of_inits hwatch hinput hdestDir hd⟩
  case noOutDir => exact h.noOutDir
  case dirs =>
    obtain heq | heq := htree
    · rw [heq]
      exact h.dirs
    · rw [heq]
      exact ⟨List.mem_append_left _ h.dirs.1, List.mem_append_left _ h.dirs.2⟩
  case known =>
    intro p hp hpsome
    rw [hread] at hpsome
    exact h.known p hp hpsome
  case once =>
    refine List.nodup_append.mpr ⟨h.once, List.nodup_singleton _, ?_⟩
    intro d hd e he heq
    rw [heq, List.mem_singleton.mp he] at hd
    exact hnew hd
  case converted =>
    intro d hd
    obtain hold | hlast := List.mem_append.mp hd
    · obtain ⟨hd', hnotWaiting, hgone⟩ := h.converted d hold
      refine ⟨hd', fun hmem => hnotWaiting (hstill hmem).1, fun hleaving => ?_⟩
      rw [hread]
      exact hgone hleaving
    · rw [List.mem_singleton.mp hlast]
      exact ⟨hdropped, fun hmem => (hstill hmem).2 rfl, fun hleaving => absurd hin hleaving⟩
  case fresh =>
    intro d hd hnot
    rw [List.mem_append, not_or, List.mem_singleton] at hnot
    obtain ⟨hfile, hwait⟩ := h.fresh d hd hnot.1
    refine ⟨by rw [hread]; exact hfile, fun hleaving => ?_⟩
    rw [hwaits, h.nodup.2.mem_erase_iff]
    exact ⟨fun heq => hnot.2 (h.eq_of_path hd hdropped heq), hwait hleaving⟩
  case nodup =>
    refine ⟨h.nodup.1, ?_⟩
    rw [hwaits]
    exact h.nodup.2.erase src
  case waiting => exact fun p hp => h.waiting p (hstill hp).1
  case leaving =>
    intro p hp
    rw [hread]
    exact h.leaving p hp
  case running =>
    have hold : ∀ r ∈ s.running, r.1 ∈ s.leaving ∧
        (∃ c, (r.1, c) ∈ s.converted ++ [(src, b)]) ∧
        (dst o r.1 = r.1 ∨ takes o input (dst o r.1) = false) := by
      intro r hr
      obtain ⟨hleaving, ⟨c, hc⟩, hdst⟩ := h.running r hr
      exact ⟨hleaving, ⟨c, List.mem_append_left _ hc⟩, hdst⟩
    obtain heq | ⟨data, out, hverify, hdata', hout, heq⟩ := hruns
    · rw [heq]
      exact hold
    · intro r hr
      rw [heq] at hr
      obtain rfl | hr := List.mem_cons.mp hr
      · refine ⟨hin, ⟨b, List.mem_append_right _ List.mem_cons_self⟩, ?_⟩
        rw [Option.some.inj (hdata.symm.trans hdata')] at hdropped
        obtain hv | hnone | hplace := h.apart _ hdropped
        · rw [hverify] at hv
          cases hv
        · rw [hout] at hnone
          cases hnone
        · exact hplace
      · exact hold r hr
  case made => exact h.made
  case moved =>
    intro d hd hmoved
    rw [hread]
    exact h.moved d hd hmoved

/-- A write keeps the watch sound. -/
theorem write {src : Path} (hstep : batchStep o convert s (.write src) = some s') :
    Sound o input convert s' := by
  obtain ⟨next, hact, rfl⟩ := Option.map_eq_some_iff.mp hstep
  obtain ⟨out, hrun, htree, hwaits, hruns⟩ := act_write hact
  obtain ⟨hin, ⟨b, hconverted⟩, hdst⟩ := h.running _ hrun
  have hdropped := (h.converted _ hconverted).1
  -- of the files that are collected only the own input can be replaced
  have hother : ∀ {p}, takes o input p = true → p ≠ src →
      next.tree.read p = s.tree.read p := by
    intro p hp hne
    rw [htree]
    apply Tree.read_write_of_ne
    rintro rfl
    obtain hown | hfree := hdst
    · exact hne hown
    · rw [hp] at hfree
      cases hfree
  have hsome : ∀ {p}, (s.tree.read p).isSome = true → (next.tree.read p).isSome = true := by
    intro p hp
    rw [htree]
    exact Tree.isSome_read_write hp
  have hdirs : next.tree.dirs = s.tree.dirs := by
    rw [htree]
    exact Tree.dirs_write _ _ _
  have hbase : Sound o input convert
      { s with tree := next.tree, waiting := next.waiting, running := next.running } := by
    constructor
    case unlike => exact h.unlike
    case taken => exact h.taken
    case accepted => exact h.accepted
    case apart => exact h.apart
    case noDir =>
      rw [hdirs]
      exact h.noDir
    case noOutDir => exact h.noOutDir
    case dirs =>
      rw [hdirs]
      exact h.dirs
    case known =>
      intro p hp hpsome
      by_cases heq : p = src
      · rw [heq]
        exact ⟨b, hdropped⟩
      · rw [hother hp heq] at hpsome
        exact h.known p hp hpsome
    case once => exact h.once
    case converted =>
      intro d hd
      obtain ⟨hd', hnotWaiting, hgone⟩ := h.converted d hd
      refine ⟨hd', by rw [hwaits]; exact hnotWaiting, fun hleaving => ?_⟩
      rw [hother (h.taken d hd') fun heq => hleaving (heq ▸ hin)]
      exact hgone hleaving
    case fresh =>
      intro d hd hnot
      have hne : d.1 ≠ src := by
        intro heq
        rw [h.eq_of_path hd hdropped heq] at hnot
        exact hnot hconverted
      rw [hother (h.taken d hd) hne, hwaits]
      exact h.fresh d hd hnot
    case nodup =>
      rw [hwaits]
      exact h.nodup
    case waiting =>
      rw [hwaits]
      exact h.waiting
    case leaving => exact fun p hp => ⟨(h.leaving p hp).1, hsome (h.leaving p hp).2⟩
    case running =>
      intro r hr
      rw [hruns] at hr
      exact h.running r (List.mem_of_mem_erase hr)
    case made => exact h.made
    case moved =>
      intro d hd hmoved
      have hnone := h.moved d hd hmoved
      have hne : d.1 ≠ src := by
        intro heq
        have hthere := (h.leaving src hin).2
        rw [← heq, hnone] at hthere
        cases hthere
      rw [hother (h.taken d hd) hne]
      exact hnone
  dsimp only
  split
  · refine { hbase with made := ?_, moved := ?_ }
    · intro p hp htaken
      obtain rfl | hold := List.mem_cons.mp hp
      · obtain hown | hfree := hdst
        · rw [hown]
          exact hin
        · rw [htaken] at hfree
          cases hfree
      · exact h.made p hold htaken
    · exact fun d hd hmoved => hbase.moved d hd (List.mem_of_mem_filter hmoved)
  · exact hbase

/-- A file of the batch can be moved, and of the files that are collected only it is gone. -/
theorem rename (hwatch : o.watch = true) (hinput : input ≠ []) {f : Path} (hf : f ∈ s.leaving) :
    s.tree.canRename f (doneAt input f) = true ∧
    (s.tree.rename f (doneAt input f)).read f = none ∧
    ∀ p, takes o input p = true → p ≠ doneAt input f ∧
      (p ≠ f → (s.tree.rename f (doneAt input f)).read p = s.tree.read p) := by
  obtain ⟨htaken, hsome⟩ := h.leaving f hf
  have hnil := ne_nil_of_takes htaken
  obtain ⟨b, hdropped⟩ := h.known f htaken hsome
  have hcan : s.tree.canRename f (doneAt input f) = true := by
    have hparent := parent_doneAt input hnil
    have hnoDir := h.noDir _ hdropped
    simp only [Tree.canRename, hsome, hparent, Bool.and_eq_true, List.contains_iff_mem, h.dirs.2,
      Bool.true_and, Bool.not_eq_true', and_true]
    simpa using hnoDir
  have haway : ∀ p, takes o input p = true → p ≠ doneAt input f := by
    rintro p hp rfl
    rw [takes_doneAt hwatch hinput hnil] at hp
    cases hp
  refine ⟨hcan, Tree.read_rename_self (haway f htaken) hcan, fun p hp => ⟨haway p hp, ?_⟩⟩
  exact fun hne => Tree.read_rename_of_ne hne (haway p hp)

/-- A move keeps the watch sound. -/
theorem move (hwatch : o.watch = true) (hinput : input ≠ []) (hwaiting : s.waiting = [])
    (hrunning : s.running = []) {f : Path} {rest : List Path} (hleaving : s.leaving = f :: rest) :
    Sound o input convert (moveFile input s f rest) := by
  have hf : f ∈ s.leaving := by rw [hleaving]; exact List.mem_cons_self
  obtain ⟨hcan, hself, hfiles⟩ := h.rename hwatch hinput hf
  obtain ⟨htaken, hsome⟩ := h.leaving f hf
  obtain ⟨b, hdropped⟩ := h.known f htaken hsome
  have hconverted : (f, b) ∈ s.converted := by
    by_contra hnot
    have hwait := (h.fresh _ hdropped hnot).2 hf
    rw [hwaiting] at hwait
    cases hwait
  have hother : ∀ {p}, takes o input p = true → p ≠ f →
      (s.tree.rename f (doneAt input f)).read p = s.tree.read p := fun hp => (hfiles _ hp).2
  have hnodup := h.nodup.1
  rw [hleaving, List.nodup_cons] at hnodup
  have hrest : ∀ {p}, p ∈ rest → p ∈ s.leaving ∧ p ≠ f := by
    intro p hp
    refine ⟨by rw [hleaving]; exact List.mem_cons_of_mem _ hp, ?_⟩
    rintro rfl
    exact hnodup.1 hp
  have hback : ∀ {p}, p ∈ s.leaving → p ≠ f → p ∈ rest := by
    intro p hp hne
    rw [hleaving] at hp
    exact (List.mem_cons.mp hp).resolve_left hne
  rw [moveFile, if_pos hcan]
  constructor
  case unlike => exact h.unlike
  case taken => exact h.taken
  case accepted => exact h.accepted
  case apart => exact h.apart
  case noDir =>
    rw [Tree.dirs_rename]
    exact h.noDir
  case noOutDir => exact h.noOutDir
  case dirs =>
    rw [Tree.dirs_rename]
    exact h.dirs
  case known =>
    intro p hp hpsome
    by_cases heq : p = f
    · rw [heq]
      exact ⟨b, hdropped⟩
    · rw [hother hp heq] at hpsome
      exact h.known p hp hpsome
  case once => exact h.once
  case converted =>
    intro d hd
    obtain ⟨hd', hnotWaiting, hgone⟩ := h.converted d hd
    refine ⟨hd', hnotWaiting, fun hnot => ?_⟩
    by_cases heq : d.1 = f
    · rw [heq]
      exact hself
    · rw [hother (h.taken d hd') heq]
      exact hgone fun hmem => hnot (hback hmem heq)
  case fresh =>
    intro d hd hnot
    have hne : d.1 ≠ f := by
      intro heq
      rw [h.eq_of_path hd hdropped heq] at hnot
      exact hnot hconverted
    obtain ⟨hfile, hwait⟩ := h.fresh d hd hnot
    exact ⟨by rw [hother (h.taken d hd) hne]; exact hfile, fun hmem => hwait (hrest hmem).1⟩
  case nodup => exact ⟨hnodup.2, h.nodup.2⟩
  case waiting =>
    intro p hp
    rw [hwaiting] at hp
    cases hp
  case leaving =>
    intro p hp
    obtain ⟨hmem, hne⟩ := hrest hp
    obtain ⟨hpt, hps⟩ := h.leaving p hmem
    exact ⟨hpt, by rw [hother hpt hne]; exact hps⟩
  case running =>
    intro r hr
    rw [hrunning] at hr
    cases hr
  case made =>
    intro p hp hpt
    dsimp only at hp
    split at hp
    · obtain heq | hold := List.mem_cons.mp hp
      · exact absurd heq (hfiles p hpt).1
      · obtain ⟨hmade, hne⟩ := List.mem_filter.mp hold
        exact hback (h.made p hmade hpt) (by simpa using hne)
    · rename_i hnot
      have hmade := List.mem_of_mem_filter hp
      exact hback (h.made p hmade hpt) fun heq => hnot (heq ▸ hmade)
  case moved =>
    intro d hd hmoved
    by_cases heq : d.1 = f
    · rw [heq]
      exact hself
    · rw [hother (h.taken d hd) heq]
      obtain hnew | hold := List.mem_cons.mp hmoved
      · have hsame := h.eq_of_last hd hdropped (doneAt_inj hnew)
        exact absurd (congrArg Prod.fst hsame) heq
      · exact h.moved d hd hold

/-- Every step keeps what holds between the steps. -/
theorem step (hwatch : o.watch = true) (hinput : input ≠ []) {a : WatchAction}
    (hmeets : Meets o input convert s a) (hstep : watchStep o input convert s a = some s') :
    Sound o input convert s' := by
  cases a with
  | drop p b =>
      cases hstep
      exact h.drop hwatch hinput hmeets
  | scan ready =>
      rw [watchStep] at hstep
      split at hstep
      · rename_i hscan
        cases hstep
        exact h.scan hscan.1 hscan.2
      · cases hstep
  | batch a =>
      cases a with
      | read src => exact h.read hwatch hinput hstep
      | write src => exact h.write hstep
  | move =>
      rw [watchStep] at hstep
      split at hstep
      · rename_i hdone
        split at hstep
        · cases hstep
        · rename_i f rest hleaving
          cases hstep
          exact h.move hwatch hinput hdone.1 hdone.2 hleaving
      · cases hstep

/-- Every step of the watch is safe. -/
theorem safe {a : WatchAction} (hstep : watchStep o input convert s a = some s') :
    Safe input s a := by
  cases a with
  | drop p b => exact trivial
  | batch a => exact trivial
  | scan ready =>
      rw [watchStep] at hstep
      split at hstep
      · rename_i hscan
        intro p hp hmade
        have htaken := ((mem_collect_iff h.dirs.1).mp (hscan.2.subset hp)).1
        have hmem := h.made p hmade htaken
        rw [hscan.1.2.2] at hmem
        cases hmem
      · cases hstep
  | move =>
      intro f hf hmoved
      have hmem := List.mem_of_mem_head? hf
      obtain ⟨htaken, hsome⟩ := h.leaving f hmem
      obtain ⟨b, hdropped⟩ := h.known f htaken hsome
      rw [h.moved _ hdropped hmoved] at hsome
      cases hsome

/-- Without a batch and without anything to collect, every dropped file was converted once. -/
theorem perm_of_settled (hsettled : Settled o input s) : s.converted.Perm s.dropped := by
  have hdistinct : s.dropped.Nodup := h.unlike.imp fun hne heq => hne (by rw [heq])
  rw [List.perm_ext_iff_of_nodup h.once hdistinct]
  intro d
  constructor
  · exact fun hd => (h.converted d hd).1
  · intro hd
    by_contra hnot
    have hfile := (h.fresh d hd hnot).1
    have hmem : d.1 ∈ collect o input s.tree := by
      rw [mem_collect_iff h.dirs.1, hfile]
      exact ⟨h.taken d hd, rfl⟩
    rw [hsettled.2] at hmem
    cases hmem

end Sound

end Sound

section Rest

variable {o : BatchOptions} {input : Path} {convert : Path → Bytes → Option Bytes}
  {s s' : WatchState}

/-- What a batch still has to do. -/
def remaining (s : WatchState) : ℕ := 2 * s.waiting.length + s.running.length + s.leaving.length

/-- Without a drop, the steps between scans bring a batch to its end. -/
theorem remaining_lt {a : WatchAction} (hdrop : ∀ p b, a ≠ .drop p b)
    (hscan : ∀ ready, a ≠ .scan ready) (hstep : watchStep o input convert s a = some s') :
    remaining s' < remaining s := by
  cases a with
  | drop p b => exact absurd rfl (hdrop p b)
  | scan ready => exact absurd rfl (hscan ready)
  | batch a =>
      cases a with
      | read src =>
          obtain ⟨next, hact, rfl⟩ := Option.map_eq_some_iff.mp hstep
          obtain ⟨hsrc, hwaits, -, hruns⟩ := act_read hact
          have hlen := List.length_erase_of_mem hsrc
          have hpos := List.length_pos_of_mem hsrc
          have hless : next.running.length ≤ s.running.length + 1 := by
            obtain heq | ⟨data, out, -, -, -, heq⟩ := hruns
            · rw [heq]
              omega
            · rw [heq, List.length_cons]
          simp only [remaining, hwaits]
          omega
      | write src =>
          obtain ⟨next, hact, rfl⟩ := Option.map_eq_some_iff.mp hstep
          obtain ⟨out, hrun, -, hwaits, hruns⟩ := act_write hact
          have hlen := List.length_erase_of_mem hrun
          have hpos := List.length_pos_of_mem hrun
          have hless : 2 * next.waiting.length + next.running.length + s.leaving.length <
              remaining s := by
            rw [remaining, hwaits, hruns]
            omega
          dsimp only
          split
          · exact hless
          · exact hless
  | move =>
      rw [watchStep] at hstep
      split at hstep
      · split at hstep
        · cases hstep
        · rename_i f rest hleaving
          cases hstep
          simp only [remaining, moveFile, hleaving, List.length_cons]
          split
          · exact Nat.lt_succ_self _
          · exact Nat.lt_succ_self _
      · cases hstep

/-- All files that are collected are in the batch. -/
def Covered (o : BatchOptions) (input : Path) (s : WatchState) : Prop :=
  ∀ p, takes o input p = true → (s.tree.read p).isSome = true → p ∈ s.leaving

theorem settled_of_covered (h : Sound o input convert s) (hidle : s.Idle)
    (hcovered : Covered o input s) : Settled o input s := by
  refine ⟨hidle, List.eq_nil_iff_forall_not_mem.mpr fun p hp => ?_⟩
  obtain ⟨htaken, hsome⟩ := (mem_collect_iff h.dirs.1).mp hp
  have hmem := hcovered p htaken hsome
  rw [hidle.2.2] at hmem
  cases hmem

/-- Without a drop, no file comes to those of a batch that has all of them. -/
theorem covered_step (hwatch : o.watch = true) (hinput : input ≠ [])
    (h : Sound o input convert s) (hcovered : Covered o input s) {a : WatchAction}
    (hdrop : ∀ p b, a ≠ .drop p b) (hscan : ∀ ready, a ≠ .scan ready)
    (hstep : watchStep o input convert s a = some s') : Covered o input s' := by
  cases a with
  | drop p b => exact absurd rfl (hdrop p b)
  | scan ready => exact absurd rfl (hscan ready)
  | batch a =>
      cases a with
      | read src =>
          obtain ⟨next, hact, rfl⟩ := Option.map_eq_some_iff.mp hstep
          obtain ⟨-, -, htree, -⟩ := act_read hact
          intro p hp hsome
          apply hcovered p hp
          obtain heq | heq := htree
          · rw [← heq]
            exact hsome
          · have hsame : next.tree.read p = s.tree.read p := by
              rw [heq]
              rfl
            rw [← hsame]
            exact hsome
      | write src =>
          obtain ⟨next, hact, rfl⟩ := Option.map_eq_some_iff.mp hstep
          obtain ⟨out, hrun, htree, -, -⟩ := act_write hact
          obtain ⟨hin, -, hdst⟩ := h.running _ hrun
          have hall : ∀ p, takes o input p = true → (next.tree.read p).isSome = true →
              p ∈ s.leaving := by
            intro p hp hsome
            by_cases heq : p = dst o src
            · obtain hown | hfree := hdst
              · rw [heq, hown]
                exact hin
              · rw [← heq, hp] at hfree
                cases hfree
            · rw [htree, Tree.read_write_of_ne heq] at hsome
              exact hcovered p hp hsome
          dsimp only
          split
          · exact hall
          · exact hall
  | move =>
      rw [watchStep] at hstep
      split at hstep
      · split at hstep
        · cases hstep
        · rename_i f rest hleaving
          cases hstep
          have hf : f ∈ s.leaving := by rw [hleaving]; exact List.mem_cons_self
          obtain ⟨hcan, hself, hfiles⟩ := h.rename hwatch hinput hf
          rw [moveFile, if_pos hcan]
          intro p hp hsome
          have hne : p ≠ f := by
            rintro rfl
            rw [hself] at hsome
            cases hsome
          rw [(hfiles p hp).2 hne] at hsome
          have hmem := hcovered p hp hsome
          rw [hleaving] at hmem
          exact (List.mem_cons.mp hmem).resolve_left hne
      · cases hstep

/-- A scan that takes every file has all of them in its batch. -/
theorem covered_scan (h : Sound o input convert s)
    (hstep : watchStep o input convert s (.scan (collect o input s.tree)) = some s') :
    Covered o input s' := by
  rw [watchStep] at hstep
  split at hstep
  · cases hstep
    exact fun p hp hsome => (mem_collect_iff h.dirs.1).mpr ⟨hp, hsome⟩
  · cases hstep

theorem idle_of_scan {ready : List Path}
    (hstep : watchStep o input convert s (.scan ready) = some s') : s.Idle := by
  rw [watchStep] at hstep
  split at hstep
  · rename_i hscan
    exact hscan.1
  · cases hstep

/-- Without a drop a loop that has nothing to convert converts nothing. -/
theorem settled_step (hsettled : Settled o input s) {a : WatchAction}
    (hdrop : ∀ p b, a ≠ .drop p b) (hstep : watchStep o input convert s a = some s') :
    Settled o input s' ∧ s'.converted = s.converted := by
  obtain ⟨⟨hwaiting, hrunning, hleaving⟩, hcollect⟩ := hsettled
  cases a with
  | drop p b => exact absurd rfl (hdrop p b)
  | scan ready =>
      rw [watchStep] at hstep
      split at hstep
      · rename_i hscan
        cases hstep
        have hnone : ready = [] := by
          have hsub := hscan.2
          rw [hcollect] at hsub
          exact List.sublist_nil.mp hsub
        exact ⟨⟨⟨hnone, hrunning, hnone⟩, hcollect⟩, rfl⟩
      · cases hstep
  | batch a =>
      exfalso
      cases a with
      | read src =>
          obtain ⟨next, hact, -⟩ := Option.map_eq_some_iff.mp hstep
          have hsrc := (act_read hact).1
          rw [hwaiting] at hsrc
          cases hsrc
      | write src =>
          obtain ⟨next, hact, -⟩ := Option.map_eq_some_iff.mp hstep
          obtain ⟨out, hrun, -⟩ := act_write hact
          rw [hrunning] at hrun
          cases hrun
  | move =>
      rw [watchStep, hleaving] at hstep
      split at hstep
      · cases hstep
      · cases hstep

/-- No step but a drop adds to what was dropped. -/
theorem dropped_step {a : WatchAction} (hdrop : ∀ p b, a ≠ .drop p b)
    (hstep : watchStep o input convert s a = some s') : s'.dropped = s.dropped := by
  cases a with
  | drop p b => exact absurd rfl (hdrop p b)
  | scan ready =>
      rw [watchStep] at hstep
      split at hstep
      · cases hstep
        rfl
      · cases hstep
  | batch a =>
      obtain ⟨next, -, rfl⟩ := Option.map_eq_some_iff.mp hstep
      cases a with
      | read src => rfl
      | write src =>
          dsimp only
          split
          · rfl
          · rfl
  | move =>
      rw [watchStep] at hstep
      split at hstep
      · split at hstep
        · cases hstep
        · cases hstep
          unfold moveFile
          dsimp only
          split
          · rfl
          · rfl
      · cases hstep

/-- After the last drop the loop comes to rest. -/
theorem comes_to_rest (hwatch : o.watch = true) (hinput : input ≠ []) {states : ℕ → WatchState}
    {actions : ℕ → WatchAction} (h : Sound o input convert (states 0))
    (hafter : AfterDrops o input convert states actions) :
    ∃ n, ∀ m, n ≤ m → Settled o input (states m) ∧
      (states m).converted = (states n).converted ∧
      (states m).converted.Perm (states 0).dropped := by
  obtain ⟨hrun, k, hready⟩ := hafter
  have hsound : ∀ m, Sound o input convert (states m) := by
    intro m
    refine hrun.invariant (fun s a t hs hdrop hstep => ?_) (Nat.zero_le m) h
    refine hs.step hwatch hinput ?_ hstep
    cases a with
    | drop p b => exact absurd rfl (hdrop p b)
    | scan ready => exact trivial
    | batch a => exact trivial
    | move => exact trivial
  have htick := fun n => hrun.exists_tick (fun _ a => ∃ ready, a = .scan ready) remaining
    (fun s a t hdrop hstep hnot => remaining_lt hdrop (fun r hr => hnot ⟨r, hr⟩) hstep) n
  -- the first scan with all files, and the one after it
  obtain ⟨first, hfirst, -, ready, hscan⟩ := htick k
  obtain ⟨second, hsecond, hbetween, later, hnext⟩ := htick (first + 1)
  have hcovered : ∀ m, first + 1 ≤ m → m ≤ second → Covered o input (states m) := by
    intro m hm hle
    induction m, hm using Nat.le_induction with
    | base =>
        have hstep := hrun.step first
        rw [hscan, hready first hfirst ready hscan] at hstep
        exact covered_scan (hsound first) hstep
    | succ m hm ih =>
        refine covered_step hwatch hinput (hsound m) (ih (by omega)) (hrun.ok m) ?_ (hrun.step m)
        exact fun r hr => hbetween m hm (by omega) ⟨r, hr⟩
  have hrest : Settled o input (states second) := by
    have hstep := hrun.step second
    rw [hnext] at hstep
    exact settled_of_covered (hsound second) (idle_of_scan hstep)
      (hcovered second hsecond (le_refl second))
  refine ⟨second, fun m hm => ?_⟩
  have hstays : Settled o input (states m) ∧ (states m).converted = (states second).converted := by
    refine hrun.invariant (I := fun s => Settled o input s ∧
      s.converted = (states second).converted) (fun s a t hs hdrop hstep => ?_) hm ⟨hrest, rfl⟩
    obtain ⟨hsettled, hsame⟩ := settled_step hs.1 hdrop hstep
    exact ⟨hsettled, hsame.trans hs.2⟩
  have hdropped : (states m).dropped = (states 0).dropped :=
    hrun.invariant (I := fun s => s.dropped = (states 0).dropped)
      (fun s a t hs hdrop hstep => (dropped_step hdrop hstep).trans hs) (Nat.zero_le m) rfl
  refine ⟨hstays.1, hstays.2, ?_⟩
  rw [← hdropped]
  exact (hsound m).perm_of_settled hstays.1

/-- A scan that takes nothing changes nothing. -/
theorem scan_nil (o : BatchOptions) (input : Path) (convert : Path → Bytes → Option Bytes)
    (hidle : s.Idle) : watchStep o input convert s (.scan []) = some s := by
  obtain ⟨hwaiting, hrunning, hleaving⟩ := hidle
  rw [watchStep, if_pos ⟨⟨hwaiting, hrunning, hleaving⟩, List.nil_sublist _⟩]
  cases s
  cases hwaiting
  cases hleaving
  rfl

end Rest

/-- `--watch`, with or without a folder for the outputs. -/
def watchInto (outDir : Option Path) : BatchOptions where
  recursive := false
  overwrite := false
  watch := true
  outDir := outDir
  suffix := ""
  verifyOnly := false

/-- Two empty folders. -/
def emptyFolders : Tree where
  files := ∅
  dirs := [names "in".toList, names "out".toList]

/-- The batch of one file. -/
def oneBatch (p : Path) : List WatchAction :=
  [.scan [p], .batch (.read p), .batch (.write p), .move]

/-- A conversion that gives the file back. -/
def sameBytes (_ : Path) (b : Bytes) : Option Bytes := some b

/-- The loop after a file was dropped and converted. -/
def afterOne (outDir : Option Path) : Option WatchState :=
  exec (watchStep (withDefaults (watchInto outDir)) (names "in".toList) sameBytes)
    (dropFile (startWatch (names "in".toList) emptyFolders) (names "in/x.pdf".toList) [0x25])
    (oneBatch (names "in/x.pdf".toList))

end Kura.Engine.Batch
