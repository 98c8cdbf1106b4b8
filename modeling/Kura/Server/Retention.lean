import Kura.Server.Accepted
import Kura.Server.Protocol

/-!
# Jobs that are still needed

A job is needed until it has ended and, for a watched folder, until its result
was put there. The row of a needed job is not forgotten and its files are not
deleted, whatever the clean-up is in the middle of.
-/

namespace Kura.Server

open Kura.Base Kura.Transition

/-- A job whose end, or whose delivery to a watched folder, is still to come. -/
def Job.Needed (j : Job) : Prop :=
  j.state.finished = false ∨ (j.folder.isSome = true ∧ j.delivered = false)

/-- The input files of a job are in its directory. -/
def Store.HasInputs (c : Store) (id : Nat) (j : Job) : Prop :=
  ∃ d, c.jobs id = some d ∧ ∀ n ∈ inputFiles j.args, d.has n = true

/-- Only what is no longer needed is released. -/
def ReleasesFetched (w : Coord) (a : Label) : Prop :=
  ∀ id readable marked j, a = .release id readable marked → w.job? id = some j → ¬ j.Needed

/-- What holds of the jobs, of those that were purged and of those that are to be. -/
structure Coord.Retains (w : Coord) : Prop where
  inputs : ∀ id j, w.job? id = some j → j.state.finished = false → w.store.HasInputs id j
  purged : ∀ id j, w.job? id = some j → j.purged = true → ¬ j.Needed
  todo : ∀ p, w.purging = some p → ∀ id ∈ p.todo,
    id ≤ w.store.db.seq ∧ ∀ j, w.job? id = some j → ¬ j.Needed

/-- A row that is not needed never becomes needed. -/
theorem RowChange.not_needed {set : Settings} {id : Nat} {a : Label} {j j' : Job}
    (h : RowChange set id a j j') (hj : ¬ j.Needed) : ¬ j'.Needed := by
  have hfinished : j.state.finished = true := by
    by_contra hopen
    exact hj (Or.inl (Bool.eq_false_iff.mpr hopen))
  cases h with
  | same => exact hj
  | lease worker now _ hqueued =>
      rw [hqueued] at hfinished
      cases hfinished
  | renew b now _ _ hrun =>
      rw [hrun] at hfinished
      cases hfinished
  | finish _ state result now _ hopen =>
      rw [hopen] at hfinished
      cases hfinished
  | requeue _ now _ hrun =>
      rw [hrun] at hfinished
      cases hfinished
  | purge => exact hj
  | release readable marked purge =>
      rintro (hopen | ⟨-, hdelivered⟩)
      · exact hj (Or.inl hopen)
      · cases hdelivered
  | deliver =>
      rintro (hopen | ⟨-, hdelivered⟩)
      · exact hj (Or.inl hopen)
      · cases hdelivered

/-- A row that is open was open before, with the same arguments. -/
theorem RowChange.open {set : Settings} {id : Nat} {a : Label} {j j' : Job}
    (h : RowChange set id a j j') (hopen : j'.state.finished = false) :
    j.state.finished = false ∧ j'.args = j.args := by
  cases h with
  | same => exact ⟨hopen, rfl⟩
  | lease worker now _ hqueued => exact ⟨by rw [hqueued]; rfl, rfl⟩
  | renew => exact ⟨hopen, rfl⟩
  | finish _ state result now _ _ hstate =>
      rw [finishRow, hstate] at hopen
      cases hopen
  | requeue _ now _ hrun => exact ⟨by rw [hrun]; rfl, rfl⟩
  | purge => exact ⟨hopen, rfl⟩
  | release => exact ⟨hopen, rfl⟩
  | deliver => exact ⟨hopen, rfl⟩

variable {env : Env} {set : Settings} {w : Coord} {a : Label} {out : Coord × Reply}

/-- A job that is no longer needed stays so. -/
theorem not_needed_of_step (h : Stepped env set w a out) {id : Nat} (hseq : id ≤ w.store.db.seq)
    (hold : ∀ j, w.job? id = some j → ¬ j.Needed) {j' : Job} (hj' : out.1.job? id = some j') :
    ¬ j'.Needed := by
  rcases row_of_step h hj' with ⟨j, hj, hchange⟩ | ⟨hid, -, -⟩
  · exact hchange.not_needed (hold j hj)
  · rw [hid, Table.nextId] at hseq
    omega

/-- The row of a job is there and not marked as purged. -/
def Store.Unpurged (c : Store) (id : Nat) : Prop := ∃ j, c.db.get? id = some j ∧ j.purged = false

section Unpurged

variable {c : Store} {id : Nat}

theorem Store.Unpurged.modify (h : c.Unpurged id) {db : Table Job} {k : Nat} {f : Job → Job}
    (hf : ∀ j, (f j).purged = j.purged) (hdb : db = c.db.modify k f) :
    ∃ j, db.get? id = some j ∧ j.purged = false := by
  obtain ⟨j, hj, hpurged⟩ := h
  rw [hdb, Table.get?_modify]
  split_ifs
  · exact ⟨f j, congrArg (Option.map f) hj, (hf j).trans hpurged⟩
  · exact ⟨j, hj, hpurged⟩

theorem Store.Unpurged.insert (h : c.Unpurged id) (row : Job) :
    ∃ j, (c.db.insert row).get? id = some j ∧ j.purged = false := by
  obtain ⟨j, hj, hpurged⟩ := h
  have hid : id ≠ c.db.nextId := by
    rintro rfl
    exact absurd hj (by simp)
  exact ⟨j, by rw [Table.get?_insert, if_neg hid]; exact hj, hpurged⟩

/-- A heartbeat purges no job. -/
theorem Store.Unpurged.heartbeat (h : c.Unpurged id) (b : Beat) (now : Int) :
    (heartbeat set c b now).Unpurged id := by
  simp only [Server.heartbeat, Store.Unpurged]
  generalize hdb : c.db = db
  obtain ⟨j, hj, hpurged⟩ := h
  rw [hdb] at hj
  clear hdb
  induction b.running generalizing db j with
  | nil => exact ⟨j, hj, hpurged⟩
  | cons k ks ih =>
      have hf : ∀ j, (renewRow b.id (now + set.leaseMs) j).purged = j.purged := by
        intro j
        unfold renewRow
        split_ifs <;> rfl
      obtain ⟨i, hi, hpurged'⟩ := Store.Unpurged.modify (c := { c with db := db })
        ⟨j, hj, hpurged⟩ hf rfl
      exact ih _ i hi hpurged'

theorem Store.Unpurged.finish (h : c.Unpurged id) {k : Nat} {result : RunResult}
    {staged : Option (Dir × List String)} {attempt : Option (Int × String)} {now : Int}
    {f : Fault FinishPoint} : (finish env c k result staged attempt now f).1.Unpurged id := by
  have hcase := finish_cases env c k result staged attempt now f
  generalize Server.finish env c k result staged attempt now f = out at hcase ⊢
  cases hcase with
  | refused c' reply hgrown => rwa [Store.Unpurged, hgrown.db]
  | recorded => exact h.modify (fun _ => by rfl) rfl

theorem Store.Unpurged.submit (h : c.Unpurged id) {r : Request} {now : Int} {io : SubmitIo} :
    (submit env set c r now io).1.Unpurged id := by
  have hcase := submit_cases env set c r now io
  generalize Server.submit env set c r now io = out at hcase ⊢
  cases hcase with
  | unchanged => exact h
  | undone => exact h
  | stranded => exact h
  | queued => exact h.insert _
  | cached => exact h.insert _

end Unpurged

/-- A row that is not purged stays, and it is purged by the clean-up that is at it, or where its job
is released. -/
theorem unpurged_of_step (h : Stepped env set w a out) {id : Nat} (hold : w.store.Unpurged id) :
    out.1.store.Unpurged id ∨ (∃ j', out.1.job? id = some j') ∧
      ((∃ p, w.purging = some p ∧ id ∈ p.todo) ∨ ∃ readable marked, a = .release id readable marked)
    := by
  have hthere : ∀ f : Job → Job, ∃ j', (w.store.db.modify id f).get? id = some j' := by
    intro f
    obtain ⟨j, hj, -⟩ := hold
    exact ⟨f j, by rw [Table.get?_modify, if_pos rfl, hj]; rfl⟩
  cases h with
  | submit =>
      rw [Coord.submitted_store]
      exact Or.inl hold.submit
  | lease worker now =>
      simp only [lease]
      split
      · exact Or.inl hold
      · exact Or.inl (hold.modify (fun _ => by rfl) rfl)
  | unreadable =>
      rw [Coord.finished_store]
      exact Or.inl hold.finish
  | heartbeat b now => exact Or.inl (hold.heartbeat b now)
  | complete =>
      rw [Coord.finished_store]
      exact Or.inl hold.finish
  | reapNext now asOf f updated e todo =>
      unfold Coord.reapOne
      split_ifs
      · rw [Coord.finished_store]
        exact Or.inl hold.finish
      · refine Or.inl (hold.modify (f := requeueRow asOf) (fun j => ?_) rfl)
        unfold requeueRow
        split_ifs <;> rfl
      · exact Or.inl hold
  | janitorRemove ok => cases ok <;> exact Or.inl hold
  | janitorMark ok k todo hup hpurge =>
      by_cases hid : id = k
      · subst hid
        refine Or.inr ⟨?_, Or.inl ⟨_, hpurge, List.mem_cons_self⟩⟩
        cases ok with
        | true => exact hthere _
        | false => exact hold.imp fun _ hj => hj.1
      · obtain ⟨j, hj, hpurged⟩ := hold
        refine Or.inl ⟨j, ?_, hpurged⟩
        cases ok with
        | true =>
            change (w.store.db.modify k _).get? id = some j
            rwa [Table.get?_modify, if_neg hid]
        | false => exact hj
  | janitorSweep now =>
      obtain ⟨j, hj, hpurged⟩ := hold
      refine Or.inl ⟨j, ?_, hpurged⟩
      simp only [sweep, Table.get?_delete, hj]
      rw [Option.filter_some, if_pos (by rw [hpurged]; rfl)]
  | release k readable marked =>
      by_cases hid : id = k
      · subst hid
        refine Or.inr ⟨?_, Or.inr ⟨readable, marked, rfl⟩⟩
        change ∃ j', (release w.store id readable marked).db.get? id = some j'
        simp only [release]
        split_ifs
        · exact hthere _
        · exact hthere _
        · exact hold.imp fun _ hj => hj.1
        · exact hold.imp fun _ hj => hj.1
      · obtain ⟨j, hj, hpurged⟩ := hold
        refine Or.inl ⟨j, ?_, hpurged⟩
        simp only [release]
        split_ifs
        · rwa [Table.get?_modify, if_neg hid]
        · rwa [Table.get?_modify, if_neg hid]
        · exact hj
        · exact hj
  | delivered k ok =>
      cases ok with
      | true =>
          exact Or.inl (hold.modify (f := fun j => { j with delivered := true }) (fun _ => rfl) rfl)
      | false => exact Or.inl hold
  | _ => exact Or.inl hold

/-- A directory loses no file. -/
def Store.Keeps (c c' : Store) (id : Nat) : Prop :=
  ∀ d, c.jobs id = some d → ∃ d', c'.jobs id = some d' ∧ d'.Extends d

theorem Store.Keeps.of_eq {c c' : Store} {id : Nat} (h : c'.jobs id = c.jobs id) : c.Keeps c' id :=
  fun d hd => ⟨d, h.trans hd, Dir.Extends.refl d⟩

theorem Store.Keeps.trans {c c' c'' : Store} {id : Nat} (h : c.Keeps c' id) (h' : c'.Keeps c'' id) :
    c.Keeps c'' id := by
  intro d hd
  obtain ⟨d', hd', hext⟩ := h d hd
  obtain ⟨d'', hd'', hext'⟩ := h' d' hd'
  exact ⟨d'', hd'', fun n hn => hext' n (hext n hn)⟩

theorem Store.Grown.keeps {c c' : Store} {k : Nat} (h : c.Grown k c') (id : Nat) :
    c.Keeps c' id := by
  by_cases hid : id = k
  · subst hid
    exact h.kept
  · exact .of_eq (h.others id hid)

theorem Store.HasInputs.kept {c c' : Store} {id : Nat} {j : Job} (h : c.HasInputs id j)
    (hkeeps : c.Keeps c' id) : c'.HasInputs id j := by
  obtain ⟨d, hd, hfiles⟩ := h
  obtain ⟨d', hd', hext⟩ := hkeeps d hd
  exact ⟨d', hd', fun n hn => hext n (hfiles n hn)⟩

theorem keeps_finish {c : Store} {k : Nat} {result : RunResult}
    {staged : Option (Dir × List String)} {attempt : Option (Int × String)} {now : Int}
    {f : Fault FinishPoint} (id : Nat) :
    c.Keeps (finish env c k result staged attempt now f).1 id := by
  have hcase := finish_cases env c k result staged attempt now f
  generalize finish env c k result staged attempt now f = out at hcase ⊢
  cases hcase with
  | refused c' reply hgrown => exact hgrown.keeps id
  | recorded i c' reply hget hopen hholds hgrown => exact hgrown.keeps id

theorem keeps_submit {c : Store} {r : Request} {now : Int} {io : SubmitIo} {id : Nat}
    (hid : id ≠ c.db.nextId) : c.Keeps (submit env set c r now io).1 id := by
  have hcase := submit_cases env set c r now io
  generalize submit env set c r now io = out at hcase ⊢
  cases hcase with
  | unchanged => exact .of_eq rfl
  | undone => exact .of_eq (c.setDir_jobs_ne _ hid)
  | stranded => exact .of_eq (c.setDir_jobs_ne _ hid)
  | queued => exact .of_eq (c.setDir_jobs_ne _ hid)
  | cached => exact .of_eq (c.setDir_jobs_ne _ hid)

/-- The directory of a needed job loses no file. -/
theorem keeps_of_step (hw : w.Retains) (hok : ReleasesFetched w a) (h : Stepped env set w a out)
    {id : Nat} {j : Job} (hj : w.job? id = some j) (hneeded : j.Needed) :
    w.store.Keeps out.1.store id := by
  have hnew : id ≠ w.store.db.nextId := by
    rintro rfl
    exact absurd hj (by simp [Coord.job?])
  cases h with
  | submit =>
      rw [Coord.submitted_store]
      exact keeps_submit hnew
  | lease worker now =>
      simp only [lease]
      split <;> exact .of_eq rfl
  | unreadable =>
      rw [Coord.finished_store]
      exact keeps_finish id
  | complete =>
      rw [Coord.finished_store]
      exact keeps_finish id
  | reapNext now asOf f updated e todo =>
      unfold Coord.reapOne
      split_ifs
      · rw [Coord.finished_store]
        exact keeps_finish id
      · exact .of_eq rfl
      · exact .of_eq rfl
  | janitorRemove ok k todo hup hpurge =>
      have hne : id ≠ k := by
        rintro rfl
        exact (hw.todo _ hpurge id List.mem_cons_self).2 j hj hneeded
      cases ok with
      | true => exact .of_eq (w.store.setDir_jobs_ne none hne)
      | false => exact .of_eq rfl
  | janitorMark ok => cases ok <;> exact .of_eq rfl
  | release k readable marked =>
      have hne : id ≠ k := by
        rintro rfl
        exact hok id readable marked j rfl hj hneeded
      simp only [release]
      split_ifs
      · exact .of_eq rfl
      · exact .of_eq (w.store.setDir_jobs_ne none hne)
      · exact .of_eq rfl
      · exact .of_eq (w.store.setDir_jobs_ne none hne)
  | delivered k ok => cases ok <;> exact .of_eq rfl
  | _ => exact .of_eq rfl

theorem finished_purging_or (w : Coord) (id : Nat) (out : Store × FinishReply) :
    (w.finished id out).1.purging = w.purging ∨ (w.finished id out).1.purging = none := by
  unfold Coord.finished
  split
  · exact Or.inl rfl
  · exact Or.inl rfl
  · exact Or.inr rfl

theorem submitted_purging_or (w : Coord) (r : Request) (out : Store × SubmitReply) :
    (w.submitted r out).1.purging = w.purging ∨ (w.submitted r out).1.purging = none := by
  unfold Coord.submitted
  split
  · exact Or.inl rfl
  · exact Or.inr rfl
  · exact Or.inl rfl

/-- The list of a clean-up only gets shorter, or it is made anew from what is purgeable. -/
theorem todo_of_step (h : Stepped env set w a out) {p' : Purging} (hp' : out.1.purging = some p') :
    (∃ p, w.purging = some p ∧ ∀ id ∈ p'.todo, id ∈ p.todo) ∨
      ∃ cutoff, p'.todo = purgeable w.store.db cutoff ∧ out.1.store = w.store := by
  have hsame : w.purging = some p' → ∃ p, w.purging = some p ∧ ∀ id ∈ p'.todo, id ∈ p.todo :=
    fun h => ⟨p', h, fun _ hid => hid⟩
  have hkept : out.1.purging = w.purging ∨ out.1.purging = none →
      ∃ p, w.purging = some p ∧ ∀ id ∈ p'.todo, id ∈ p.todo := by
    rintro (hpurging | hpurging)
    · exact hsame (hpurging.symm.trans hp')
    · rw [hpurging] at hp'
      cases hp'
  cases h with
  | submit => exact Or.inl (hkept (submitted_purging_or _ _ _))
  | unreadable => exact Or.inl (hkept (finished_purging_or _ _ _))
  | complete => exact Or.inl (hkept (finished_purging_or _ _ _))
  | reapNext now asOf f updated e todo =>
      refine Or.inl (hkept ?_)
      unfold Coord.reapOne
      split_ifs
      · exact finished_purging_or _ _ _
      · exact Or.inl rfl
      · exact Or.inl rfl
  | janitorSelect now =>
      cases hp'
      exact Or.inr ⟨_, rfl, rfl⟩
  | janitorRemove ok k todo hup hpurge =>
      cases hp'
      exact Or.inl ⟨_, hpurge, fun _ hid => hid⟩
  | janitorMark ok k todo hup hpurge =>
      cases hp'
      exact Or.inl ⟨_, hpurge, fun _ hid => List.mem_cons_of_mem _ hid⟩
  | janitorSweep => cases hp'
  | kill => cases hp'
  | _ => exact Or.inl (hsame hp')

/-- What is purgeable is no longer needed. -/
theorem not_needed_of_purgeable {db : Table Job} {cutoff : Int} {id : Nat}
    (h : id ∈ purgeable db cutoff) : id ≤ db.seq ∧ ∀ j, db.get? id = some j → ¬ j.Needed := by
  obtain ⟨⟨k, j⟩, hmem, rfl⟩ := List.mem_map.mp h
  obtain ⟨hget, hp⟩ := (db.mem_select _).mp hmem
  simp only [Bool.and_eq_true, Bool.or_eq_true, Bool.not_eq_true', decide_eq_true_eq] at hp
  obtain ⟨⟨⟨hfinished, -⟩, -⟩, hplace⟩ := hp
  refine ⟨Table.le_seq_of_get? hget, fun j' hj' hneeded => ?_⟩
  obtain rfl := Option.some.inj (hget.symm.trans hj')
  rcases hneeded with hopen | ⟨hfolder, hdelivered⟩
  · rw [hfinished] at hopen
    cases hopen
  · rcases hplace with hnone | hdone
    · rw [Option.isNone_iff_eq_none.mp hnone] at hfolder
      cases hfolder
    · rw [hdelivered] at hdone
      cases hdone

/-- A job that was just submitted has its input files. -/
theorem inputs_of_new (h : Stepped env set w a out) {j' : Job}
    (hj' : out.1.job? w.store.db.nextId = some j') (hopen : j'.state.finished = false) :
    out.1.store.HasInputs w.store.db.nextId j' := by
  have hnone : w.store.db.get? w.store.db.nextId = none := Table.get?_nextId _
  rcases row_of_step h hj' with ⟨j, hj, -⟩ | ⟨-, hnew, -⟩
  · exact absurd (hnone.symm.trans hj) (by simp)
  · cases hnew with
    | cached => cases hopen
    | queued r now io hash =>
        cases h with
        | submit _ _ _ hup hvalid =>
            rw [Coord.job?, Coord.submitted_store] at hj'
            rw [Coord.submitted_store]
            have hinputs : ∀ d : Dir, d.Extends r.src → ∀ n ∈ inputFiles r.args, d.has n = true :=
              fun d hd n hn =>
                hd n (has_of_present ((accepted_of_validateJob hvalid).files_present hn))
            have hcase := submit_cases env set w.store r now io
            generalize submit env set w.store r now io = sub at hcase hj' ⊢
            cases hcase with
            | unchanged => exact absurd (hnone.symm.trans hj') (by simp)
            | undone => exact absurd (hnone.symm.trans hj') (by simp)
            | stranded => exact absurd (hnone.symm.trans hj') (by simp)
            | queued _ d _ _ _ _ hd =>
                exact ⟨d, w.store.setDir_jobs_self _ _, hinputs d hd⟩
            | cached _ prev res d =>
                rw [Table.get?_insert, if_pos rfl] at hj'
                cases congrArg Job.state (Option.some.inj hj')

/-- A step that releases only what is no longer needed keeps what holds of the jobs. -/
theorem retains_of_step (hw : w.Retains) (hok : ReleasesFetched w a)
    (h : Stepped env set w a out) : out.1.Retains := by
  refine ⟨fun id j' hj' hopen => ?_, fun id j' hj' hpurged => ?_, fun p' hp' id hid => ?_⟩
  · rcases row_of_step h hj' with ⟨j, hj, hchange⟩ | ⟨rfl, -, -⟩
    · obtain ⟨hopen', hargs⟩ := hchange.open hopen
      have hinputs := (hw.inputs id j hj hopen').kept
        (keeps_of_step hw hok h hj (Or.inl hopen'))
      rwa [Store.HasInputs, hargs]
    · exact inputs_of_new h hj' hopen
  · have hold : id ≤ w.store.db.seq ∧ ∀ j, w.job? id = some j → ¬ j.Needed := by
      rcases row_of_step h hj' with ⟨j, hj, -⟩ | ⟨hid, hnew, -⟩
      · refine ⟨Table.le_seq_of_get? hj, ?_⟩
        cases hp : j.purged with
        | true =>
            intro i hi
            obtain rfl := Option.some.inj (hj.symm.trans hi)
            exact hw.purged id j hj hp
        | false =>
            rcases unpurged_of_step h ⟨j, hj, hp⟩ with ⟨i, hi, hfalse⟩ | ⟨-, ⟨p, hp, hmem⟩ |
              ⟨readable, marked, rfl⟩⟩
            · obtain rfl := Option.some.inj (hi.symm.trans hj')
              rw [hpurged] at hfalse
              cases hfalse
            · exact (hw.todo p hp id hmem).2
            · exact fun j hj => hok id readable marked j rfl hj
      · cases hnew <;> cases hpurged
    exact not_needed_of_step h hold.1 hold.2 hj'
  · have hold : id ≤ w.store.db.seq ∧ ∀ j, w.job? id = some j → ¬ j.Needed := by
      rcases todo_of_step h hp' with ⟨p, hp, hsub⟩ | ⟨cutoff, htodo, -⟩
      · exact hw.todo p hp id (hsub id hid)
      · rw [htodo] at hid
        exact not_needed_of_purgeable hid
    refine ⟨?_, fun j' hj' => not_needed_of_step h hold.1 hold.2 hj'⟩
    rcases seq_of_step h with hseq | hseq
    · exact hold.1.trans hseq.ge
    · rw [hseq, Table.nextId]
      omega

theorem retains_start : Coord.start.Retains :=
  ⟨fun _ _ hj => (nomatch hj), fun _ _ hj => (nomatch hj), fun _ hp => (nomatch hp)⟩

theorem retains_of_next {w' : Coord} (hw : w.Retains) (hok : ReleasesFetched w a)
    (hn : next env set w a = some w') : w'.Retains := by
  obtain ⟨reply, hstep⟩ := stepped_of_next hn
  exact retains_of_step hw hok hstep

theorem retains_of_run {w : Coord} {as : List Label}
    (h : RunWhere (next env set) ReleasesFetched Coord.start as w) : w.Retains :=
  h.invariant (fun _ _ _ hw hok hn => retains_of_next hw hok hn) retains_start

/-- From a state on, a job is needed throughout a run and loses no file, or it is at some point of
the run no longer needed and lost none until then. -/
theorem needed_of_run {w w' : Coord} {as : List Label} (hw : w.Retains)
    (h : RunWhere (next env set) ReleasesFetched w as w') {id : Nat} {j : Job}
    (hj : w.job? id = some j) (hneeded : j.Needed) :
    (∃ j', w'.job? id = some j' ∧ j'.Needed ∧ w.store.Keeps w'.store id) ∨
      ∃ as₁ as₂ u i, as = as₁ ++ as₂ ∧ RunWhere (next env set) ReleasesFetched w as₁ u ∧
        RunWhere (next env set) ReleasesFetched u as₂ w' ∧ u.job? id = some i ∧ ¬ i.Needed ∧
        w.store.Keeps u.store id := by
  induction h generalizing j with
  | nil w => exact Or.inl ⟨j, hj, hneeded, .of_eq rfl⟩
  | @cons w u w' a as hn hok htail ih =>
      obtain ⟨reply, hstep⟩ := stepped_of_next hn
      have hkeeps := keeps_of_step hw hok hstep hj hneeded
      have hunpurged : j.purged = false := by
        by_contra hpurged
        exact hw.purged id j hj (by simpa using hpurged) hneeded
      obtain ⟨i, hi⟩ : ∃ i, u.job? id = some i := by
        rcases unpurged_of_step hstep ⟨j, hj, hunpurged⟩ with hkept | ⟨hkept, -⟩
        · exact hkept.imp fun _ hi => hi.1
        · exact hkept
      by_cases hineeded : i.Needed
      · rcases ih (retains_of_step hw hok hstep) hi hineeded with
          ⟨j', hj', hneeded', hkeeps'⟩ | ⟨as₁, as₂, v, l, rfl, hleft, hright, hl, hlneeded, hkeeps'⟩
        · exact Or.inl ⟨j', hj', hneeded', hkeeps.trans hkeeps'⟩
        · exact Or.inr ⟨a :: as₁, as₂, v, l, rfl, .cons hn hok hleft, hright, hl, hlneeded,
            hkeeps.trans hkeeps'⟩
      · exact Or.inr ⟨[a], as, u, i, rfl, .single hn hok, htail, hi, hineeded, hkeeps⟩

/-- As long as only what was fetched is released, open jobs have their input files, whatever fails
or is killed, and a job that is needed is neither forgotten nor loses a file before its result was
recorded and put where it belongs. -/
theorem needed_kept {w : Coord} {as : List Label}
    (h : RunWhere (next env set) ReleasesFetched Coord.start as w) :
    (∀ id j, w.job? id = some j → j.state.finished = false → w.store.HasInputs id j) ∧
      ∀ bs w' id j, RunWhere (next env set) ReleasesFetched w bs w' → w.job? id = some j →
        j.Needed →
        (∃ j', w'.job? id = some j' ∧ j'.Needed ∧ w.store.Keeps w'.store id) ∨
          ∃ bs₁ bs₂ u i, bs = bs₁ ++ bs₂ ∧ RunWhere (next env set) ReleasesFetched w bs₁ u ∧
            RunWhere (next env set) ReleasesFetched u bs₂ w' ∧ u.job? id = some i ∧ ¬ i.Needed ∧
            w.store.Keeps u.store id := by
  have hw := retains_of_run h
  exact ⟨hw.inputs, fun bs w' id j hrun hj hneeded => needed_of_run hw hrun hj hneeded⟩

/-- A job that is handed out while the clean-up runs. -/
def cleanedUp : List Label :=
  [.submit (.convert [1] false) 0 .smooth, .janitorSelect 10000, .lease "w1" 10001]

theorem needed_kept_cleanedUp : ∃ w j, RunWhere (next Env.bare Settings.small) ReleasesFetched
    Coord.start cleanedUp w ∧ w.job? 1 = some j ∧ j.state = .running ∧ w.store.HasInputs 1 j := by
  have hexec : (exec (next Env.bare Settings.small) Coord.start cleanedUp).bind
      (fun w => (w.job? 1).map fun j => j.state) = some .running := by
    decide
  obtain ⟨w, hw, hjob⟩ := Option.bind_eq_some_iff.mp hexec
  obtain ⟨j, hj, hstate⟩ := Option.map_eq_some_iff.mp hjob
  have hrun : RunWhere (next Env.bare Settings.small) ReleasesFetched Coord.start cleanedUp w := by
    refine runWhere_of_exec hw fun a ha s => ?_
    rintro id readable marked j rfl
    simp [cleanedUp] at ha
  exact ⟨w, j, hrun, hj, hstate, (needed_kept hrun).1 1 j hj (by rw [hstate]; rfl)⟩

end Kura.Server
