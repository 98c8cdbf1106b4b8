import Kura.Server.Accepted
import Kura.Server.Protocol

/-!
# Finished conversions and their document

The state of a job is decided from the exit code of its run; the document is
whatever the uploaded bundle holds. The two agree as long as every successful
conversion brings its document and nothing deletes files without the mark
that says so.
-/

namespace Kura.Server

open Kura.Base Kura.Transition

/-- A finished conversion whose files are said to be kept. -/
structure Job.Offered (j : Job) : Prop where
  kind : j.kind = .convert
  state : j.state = .done
  unpurged : j.purged = false

/-- The document of a conversion is in the directory of a job. -/
def Store.HasOutput (c : Store) (id : Nat) : Prop :=
  ∃ d, c.jobs id = some d ∧ d.has "out.pdf" = true

/-- The clean-up has deleted the files of a job and not marked it yet. -/
def Coord.Purges (w : Coord) (id : Nat) : Prop := ∃ todo, w.purging = some ⟨id :: todo, true⟩

/-- Every finished conversion on offer has its document, but for the one the
clean-up is deleting. -/
def Coord.Served (w : Coord) : Prop :=
  ∀ id j, w.job? id = some j → j.Offered → ¬ w.Purges id → w.store.HasOutput id

/-- Whether a step ends the process. -/
def Label.kills : Label → Bool
  | .kill => true
  | .submit _ _ ⟨.kill _, _, _⟩ => true
  | .unreadable _ _ _ (.kill _) => true
  | .complete _ _ _ _ _ _ _ (.kill _) => true
  | .reapNext _ (.kill _) _ => true
  | _ => false

/-- A successful conversion brings its document or has it already. -/
def BringsOutput (w : Coord) (a : Label) : Prop :=
  ∀ id attempt worker result staging names now f j,
    a = .complete id attempt worker result staging names now f → w.job? id = some j →
    j.kind = .convert → result.code = some 0 → "out.pdf" ∈ names ∨ w.store.HasOutput id

/-- Files are not deleted without the mark that says so. -/
structure MarksPurge (w : Coord) (a : Label) : Prop where
  mark : a ≠ .janitorMark false
  killed : a.kills = true → ∀ id, ¬ w.Purges id
  release : ∀ id readable, a = .release id readable false →
    keepsFiles w.store.db id readable = true

/-- Both conditions on a step. -/
def Faithful (w : Coord) (a : Label) : Prop := BringsOutput w a ∧ MarksPurge w a

/-- A step that offers no new document, deletes none that is offered and
stays at its purge. -/
theorem Coord.Served.frame {w w' : Coord} (h : w.Served)
    (hrows : ∀ id j', w'.job? id = some j' → j'.Offered → ∃ j, w.job? id = some j ∧ j.Offered)
    (hpurge : ∀ id j', w'.job? id = some j' → j'.Offered → w.Purges id → w'.Purges id)
    (hfiles : ∀ id j', w'.job? id = some j' → j'.Offered → ¬ w'.Purges id →
      w.store.HasOutput id → w'.store.HasOutput id) : w'.Served := by
  intro id j' hj' hoff hnot
  obtain ⟨j, hj, hjoff⟩ := hrows id j' hj' hoff
  apply hfiles id j' hj' hoff hnot
  exact h id j hj hjoff fun hp => hnot (hpurge id j' hj' hoff hp)

/-- A step that only touches what is not looked at here. -/
theorem Coord.Served.same {w w' : Coord} (h : w.Served) (hjobs : w'.store.jobs = w.store.jobs)
    (hrows : ∀ id j', w'.job? id = some j' → j'.Offered → ∃ j, w.job? id = some j ∧ j.Offered)
    (hpurge : ∀ id, w.Purges id → w'.Purges id) : w'.Served := by
  refine h.frame hrows (fun id _ _ _ hp => hpurge id hp) fun id _ _ _ _ hout => ?_
  rw [Store.HasOutput, hjobs]
  exact hout

theorem offered_modify {db : Table Job} {k id : Nat} {f : Job → Job} {j' : Job}
    (hf : ∀ j, (f j).Offered → j.Offered) (h : (db.modify k f).get? id = some j')
    (hoff : j'.Offered) : ∃ j, db.get? id = some j ∧ j.Offered := by
  rw [Table.get?_modify] at h
  by_cases hid : id = k
  · rw [if_pos hid] at h
    obtain ⟨j, hj, rfl⟩ := Option.map_eq_some_iff.mp h
    exact ⟨j, hj, hf j hoff⟩
  · rw [if_neg hid] at h
    exact ⟨j', h, hoff⟩

theorem Store.HasOutput.grown {c c' : Store} {id k : Nat} (h : c.HasOutput k)
    (hg : c.Grown id c') : c'.HasOutput k := by
  obtain ⟨d, hd, hhas⟩ := h
  by_cases hk : k = id
  · subst hk
    obtain ⟨d', hd', hext⟩ := hg.kept d hd
    exact ⟨d', hd', hext _ hhas⟩
  · exact ⟨d, (hg.others k hk).trans hd, hhas⟩

/-- A conversion is done only with exit code zero. -/
theorem finishedState_convert {env : Env} {r : RunResult}
    (h : finishedState env .convert r = .done) : r.code = some 0 := by
  by_contra hne
  have hcode : (r.code == some 0) = false := by simpa using hne
  have hbad := engineFailure_ne_ok env.fromStr r
  unfold finishedState outcome at h
  simp only [hcode, Bool.false_eq_true, if_false] at h
  cases h

theorem Coord.finished_purging {w : Coord} {id : Nat} {out : Store × FinishReply}
    (h : out.2 ≠ .killed) : (w.finished id out).1.purging = w.purging := by
  unfold Coord.finished
  split
  · rfl
  · rfl
  · exact absurd ‹_› h

theorem Coord.submitted_purging {w : Coord} {r : Request} {out : Store × SubmitReply}
    (h : out.2 ≠ .killed) : (w.submitted r out).1.purging = w.purging := by
  unfold Coord.submitted
  split
  · rfl
  · exact absurd ‹_› h
  · rfl

theorem finishMoves_not_killed {c : Store} {id : Nat} {staged : Option (Dir × List String)}
    {f : Fault FinishPoint} (hf : ∀ p, f ≠ .kill p) :
    (finishMoves c id staged f).2 ≠ some .killed := by
  unfold finishMoves
  cases staged with
  | none => simp
  | some p =>
      simp only
      split
      · simp
      · exact absurd rfl (hf _)
      · split_ifs <;> simp

/-- Without a kill the finish returns. -/
theorem finish_not_killed {env : Env} {c : Store} {id : Nat} {result : RunResult}
    {staged : Option (Dir × List String)} {attempt : Option (Int × String)} {now : Int}
    {f : Fault FinishPoint} (hf : ∀ p, f ≠ .kill p) :
    (finish env c id result staged attempt now f).2 ≠ .killed := by
  unfold finish
  by_cases hstop : f.stops .begin = true
  · rw [if_pos hstop]
    unfold finishCut
    split
    · exact absurd rfl (hf _)
    · simp
  · rw [if_neg hstop]
    cases hget : c.db.get? id with
    | none => simp
    | some j =>
        simp only
        split_ifs
        · simp
        · cases hm : (finishMoves c id staged f).2 with
          | some reply =>
              intro hk
              obtain rfl : reply = .killed := hk
              exact finishMoves_not_killed hf hm
          | none =>
              simp only [commitFinish]
              split
              · simp
              · exact absurd rfl (hf _)
              · exact absurd rfl (hf _)
              · simp

/-- Without a kill the submission returns. -/
theorem submit_not_killed {env : Env} {set : Settings} {c : Store} {r : Request} {now : Int}
    {io : SubmitIo} (hf : ∀ p, io.fault ≠ .kill p) :
    (submit env set c r now io).2 ≠ .killed := by
  have hcut : io.cut ≠ .killed := by
    unfold SubmitIo.cut
    split
    · exact absurd ‹_› (hf _)
    · simp
  have hcommit : ∀ c' row cached, (commitSubmit c' io row cached).2 ≠ .killed := by
    intro c' row cached
    unfold commitSubmit
    split
    · simp
    · exact absurd ‹_› (hf _)
    · exact absurd ‹_› (hf _)
    · simp
  have hrenamed : ∀ c' row, (submitRenamed c' r io row now).2 ≠ .killed := by
    intro c' row
    unfold submitRenamed
    split
    · exact hcommit _ _ _
    · simp only
      split
      · exact absurd ‹_› (hf _)
      · split_ifs
        · exact hcut
        · exact hcommit _ _ _
        · exact hcommit _ _ _
  unfold submit
  by_cases hstop : io.fault.stops .hash = true
  · rw [if_pos hstop]
    exact hcut
  · rw [if_neg hstop]
    cases requestHash env r with
    | none => simp
    | some hash =>
        simp only
        split_ifs
        · exact hcut
        · simp
        · exact hcut
        · cases renameDir c r.src c.db.nextId with
          | none => simp
          | some c' => exact hrenamed _ _

/-- A completion keeps the documents there are, and the one it offers is
there if the bundle or the directory has it. -/
theorem finish_served {env : Env} {w w' : Coord} {k : Nat} {result : RunResult}
    {staged : Option (Dir × List String)} {attempt : Option (Int × String)} {now : Int}
    {f : Fault FinishPoint} (h : w.Served)
    (hstore : w'.store = (finish env w.store k result staged attempt now f).1)
    (hpurge : ∀ id, w.Purges id → w'.Purges id)
    (hbrings : ∀ j, w.job? k = some j → j.kind = .convert → result.code = some 0 →
      (∃ staging names, staged = some (staging, names) ∧ "out.pdf" ∈ names) ∨
        w.store.HasOutput k) : w'.Served := by
  intro id j' hj' hoff hnot
  have hcase := finish_cases env w.store k result staged attempt now f
  unfold Coord.job? at hj'
  rw [hstore] at hj' ⊢
  generalize finish env w.store k result staged attempt now f = out at hcase hj' ⊢
  cases hcase with
  | refused c' reply hgrown =>
      rw [hgrown.db] at hj'
      exact (h id j' hj' hoff fun hp => hnot (hpurge id hp)).grown hgrown
  | recorded j c' reply hget hopen hholds hgrown hbundle =>
      rw [Table.get?_modify] at hj'
      by_cases hid : id = k
      · rw [if_pos hid, hid, hget, Option.map_some] at hj'
        obtain rfl := Option.some.inj hj'
        have hkind : j.kind = .convert := hoff.kind
        have hdone : finishedState env j.kind result = .done := hoff.state
        rw [hkind] at hdone
        subst hid
        rcases hbrings j hget hkind (finishedState_convert hdone) with
          ⟨staging, names, hst, hmem⟩ | hhas
        · rcases hbundle staging names hst with hnil | ⟨d, hd, hall⟩
          · rw [hnil] at hmem
            cases hmem
          · exact ⟨d, hd, hall _ hmem⟩
        · have hout : c'.HasOutput id := hhas.grown hgrown
          exact hout
      · rw [if_neg hid] at hj'
        have hout : c'.HasOutput id :=
          (h id j' hj' hoff fun hp => hnot (hpurge id hp)).grown hgrown
        exact hout

/-- An accepted conversion writes its document. -/
theorem outputFiles_convert {dir : Option Dir} {inLibrary : String → Bool} {args : List Arg}
    (h : validateJob .convert args dir inLibrary = .ok ()) : "out.pdf" ∈ outputFiles args := by
  have hacc := accepted_of_validateJob h
  cases hacc with
  | run level opts input => simp [jobArgs, outputFiles]

/-- A submission keeps every conversion on offer with its document. -/
theorem submit_served {env : Env} {set : Settings} {w w' : Coord} {r : Request} {now : Int}
    {io : SubmitIo} (h : w.Served)
    (hvalid : validateJob r.kind r.args (some r.src) env.inLibrary = .ok ())
    (hstore : w'.store = (submit env set w.store r now io).1)
    (hpurge : ∀ id, w.Purges id → w'.Purges id) : w'.Served := by
  have hother : ∀ (d : Option Dir) (id : Nat) (j' : Job), w.store.db.get? id = some j' →
      j'.Offered → ¬ w'.Purges id → (w.store.setDir w.store.db.nextId d).HasOutput id := by
    intro d id j' hj' hoff hnot
    obtain ⟨e, he, hhas⟩ := h id j' hj' hoff fun hp => hnot (hpurge id hp)
    have hne : id ≠ w.store.db.nextId := by
      rintro rfl
      simp at hj'
    exact ⟨e, (w.store.setDir_jobs_ne _ hne).trans he, hhas⟩
  intro id j' hj' hoff hnot
  have hcase := submit_cases env set w.store r now io
  unfold Coord.job? at hj'
  rw [hstore] at hj' ⊢
  generalize submit env set w.store r now io = out at hcase hj' ⊢
  cases hcase with
  | unchanged => exact h id j' hj' hoff fun hp => hnot (hpurge id hp)
  | undone => exact hother none id j' hj' hoff hnot
  | stranded hash d => exact hother (some d) id j' hj' hoff hnot
  | queued hash d =>
      rw [Table.get?_insert] at hj'
      by_cases hid : id = w.store.db.nextId
      · rw [if_pos hid] at hj'
        obtain rfl := Option.some.inj hj'
        cases hoff.state
      · rw [if_neg hid] at hj'
        exact hother (some d) id j' hj' hoff hnot
  | cached hash prev res d reply _ _ _ _ hcopied =>
      rw [Table.get?_insert] at hj'
      by_cases hid : id = w.store.db.nextId
      · rw [if_pos hid] at hj'
        obtain rfl := Option.some.inj hj'
        have hkind : r.kind = .convert := hoff.kind
        rw [hkind] at hvalid
        subst hid
        exact ⟨d, w.store.setDir_jobs_self _ _,
          copyOutputs_has hcopied (outputFiles_convert hvalid)⟩
      · rw [if_neg hid] at hj'
        exact hother (some d) id j' hj' hoff hnot

/-- A release keeps every conversion on offer with its document. -/
theorem release_served {w w' : Coord} {k : Nat} {readable marked : Bool} (h : w.Served)
    (hstore : w'.store = release w.store k readable marked)
    (hpurge : ∀ id, w.Purges id → w'.Purges id)
    (hmarks : marked = false → keepsFiles w.store.db k readable = true) : w'.Served := by
  have hsub : ∀ id j', (release w.store k readable marked).db.get? id = some j' → j'.Offered →
      ∃ j, w.store.db.get? id = some j ∧ j.Offered := by
    intro id j' hj' hoff
    have hdb : (if keepsFiles w.store.db k readable = true then w.store
        else w.store.setDir k none).db = w.store.db := by
      split_ifs <;> rfl
    simp only [release] at hj'
    by_cases hm : marked = true
    · simp only [if_pos hm, hdb] at hj'
      refine offered_modify (fun j hj => ?_) hj' hoff
      have hun : (j.purged || !keepsFiles w.store.db k readable) = false := hj.unpurged
      exact ⟨hj.kind, hj.state, (Bool.or_eq_false_iff.mp hun).1⟩
    · simp only [if_neg hm, hdb] at hj'
      exact ⟨j', hj', hoff⟩
  refine h.frame (fun id j' hj' => ?_) (fun id _ _ _ hp => hpurge id hp) ?_
  · rw [Coord.job?, hstore] at hj'
    exact hsub id j' hj'
  · intro id j' hj' hoff _ hout
    by_cases hkeep : keepsFiles w.store.db k readable = true
    · have hjobs : w'.store.jobs = w.store.jobs := by
        rw [hstore]
        simp only [release, hkeep, if_true]
        split_ifs <;> rfl
      rw [Store.HasOutput, hjobs]
      exact hout
    · have hm : marked = true := by
        by_contra hno
        exact hkeep (hmarks (by simpa using hno))
      by_cases hid : id = k
      · subst hid
        rw [Coord.job?, hstore] at hj'
        simp only [release, hm, if_true, if_neg hkeep, Table.get?_modify, Store.setDir_db] at hj'
        obtain ⟨j, -, rfl⟩ := Option.map_eq_some_iff.mp hj'
        have hun : (j.purged || !keepsFiles w.store.db id readable) = false := hoff.unpurged
        simp [hkeep] at hun
      · obtain ⟨d, hd, hhas⟩ := hout
        refine ⟨d, ?_, hhas⟩
        rw [hstore]
        simp only [release, hm, if_true, if_neg hkeep]
        exact (w.store.setDir_jobs_ne none hid).trans hd

/-- A step that brings documents and marks deletions keeps what is on offer
served. -/
theorem next_served {env : Env} {set : Settings} {w w' : Coord} {a : Label} (h : w.Served)
    (hok : Faithful w a) (hn : next env set w a = some w') : w'.Served := by
  obtain ⟨hbrings, hmarks⟩ := hok
  obtain ⟨reply, hstep⟩ := stepped_of_next hn
  generalize hout : (w', reply) = out at hstep
  obtain rfl : w' = out.1 := congrArg Prod.fst hout
  clear hout hn
  have hsame : ∀ u : Coord, u.store = w.store → (∀ id, w.Purges id → u.Purges id) → u.Served := by
    intro u hu hp
    refine h.same (by rw [hu]) (fun id j' hj' hoff => ⟨j', ?_, hoff⟩) hp
    rw [Coord.job?, ← hu]
    exact hj'
  have hfinished : ∀ k result staged attempt now f, (∀ p, f = .kill p → a.kills = true) →
      (∀ j, w.job? k = some j → j.kind = .convert → result.code = some 0 →
        (∃ staging names, staged = some (staging, names) ∧ "out.pdf" ∈ names) ∨
          w.store.HasOutput k) →
      ∀ u : Coord, u.store = w.store → u.purging = w.purging →
        (u.finished k (finish env w.store k result staged attempt now f)).1.Served := by
    intro k result staged attempt now f hkills hb u hu hup
    refine finish_served h (Coord.finished_store _ _ _) (fun id hp => ?_) hb
    obtain ⟨todo, htodo⟩ := hp
    have hf : ∀ p, f ≠ .kill p := by
      intro p hp
      exact hmarks.killed (hkills p hp) id ⟨todo, htodo⟩
    exact ⟨todo, by rw [Coord.finished_purging (finish_not_killed hf), hup, htodo]⟩
  cases hstep with
  | «open» => exact hsame _ rfl fun id hp => hp
  | kill => exact hsame _ rfl fun id hp => absurd hp (hmarks.killed rfl id)
  | submit r now io hup hvalid =>
      refine submit_served h hvalid (Coord.submitted_store _ _ _) fun id hp => ?_
      obtain ⟨todo, htodo⟩ := hp
      have hf : ∀ p, io.fault ≠ .kill p := by
        intro p hp
        obtain ⟨fault, copyOk, removeOk⟩ := io
        obtain rfl : fault = .kill p := hp
        exact hmarks.killed rfl id ⟨todo, htodo⟩
      exact ⟨todo, by rw [Coord.submitted_purging (submit_not_killed hf), htodo]⟩
  | lease worker now =>
      refine h.same ?_ (fun id j' hj' hoff => ?_) fun id hp => hp
      · simp only [lease]
        split <;> rfl
      · simp only [Coord.job?, lease] at hj'
        split at hj'
        · exact ⟨j', hj', hoff⟩
        · exact offered_modify (fun j hj => absurd hj.state (by simp [leaseRow])) hj' hoff
  | served => exact hsame _ rfl fun id hp => hp
  | unreadable k err now f =>
      refine hfinished k _ none none now f ?_ ?_ _ rfl rfl
      · rintro p rfl
        rfl
      · intro j _ _ hcode
        cases hcode
  | heartbeat b now =>
      refine h.same rfl (fun id j' hj' hoff => ?_) fun id hp => hp
      simp only [Coord.job?, heartbeat] at hj' ⊢
      revert hj'
      generalize w.store.db = db
      induction b.running generalizing db with
      | nil => exact fun hj' => ⟨j', hj', hoff⟩
      | cons k ks ih =>
          intro hj'
          obtain ⟨i, hi, hioff⟩ := ih _ hj'
          refine offered_modify (fun j hj => ?_) hi hioff
          unfold renewRow at hj
          split_ifs at hj with hold
          · exact absurd hj.state (by simp [hold.2])
          · exact hj
  | complete k attempt worker result staging names now f =>
      refine hfinished k result _ _ now f ?_ ?_ _ rfl rfl
      · rintro p rfl
        rfl
      · intro j hj hkind hcode
        rcases hbrings k attempt worker result staging names now f j rfl hj hkind hcode with
          hmem | hhas
        · exact Or.inl ⟨staging, names, rfl, hmem⟩
        · exact Or.inr hhas
  | reapSelect => exact hsame _ rfl fun id hp => hp
  | reapEnd => exact hsame _ rfl fun id hp => hp
  | reapNext now asOf f updated e todo =>
      unfold Coord.reapOne
      split_ifs
      · refine hfinished e.id (lostResult e.attempts) none none now f ?_ ?_ _ rfl rfl
        · rintro p rfl
          rfl
        · intro j _ _ hcode
          cases hcode
      · refine h.same rfl (fun id j' hj' hoff => ?_) fun id hp => hp
        refine offered_modify (fun j hj => ?_) hj' hoff
        unfold requeueRow at hj
        split_ifs at hj with hrun
        · cases hj.state
        · exact hj
      · exact hsame _ rfl fun id hp => hp
  | janitorSelect now hup hidle =>
      refine hsame _ rfl fun id hp => ?_
      obtain ⟨todo, htodo⟩ := hp
      rw [hidle] at htodo
      cases htodo
  | janitorRemove ok k todo hup hpurging =>
      have hnone : ∀ id, ¬ w.Purges id := by
        rintro id ⟨todo', htodo⟩
        rw [hpurging] at htodo
        cases htodo
      cases ok with
      | false => exact hsame _ rfl fun id hp => absurd hp (hnone id)
      | true =>
          refine h.frame (fun id j' hj' hoff => ⟨j', hj', hoff⟩)
            (fun id _ _ _ hp => absurd hp (hnone id)) fun id j' hj' hoff hnot hhas => ?_
          by_cases hid : id = k
          · subst hid
            exact absurd ⟨todo, rfl⟩ hnot
          · obtain ⟨d, hd, hd'⟩ := hhas
            exact ⟨d, (w.store.setDir_jobs_ne none hid).trans hd, hd'⟩
  | janitorMark ok k todo hup hpurging =>
      cases ok with
      | false => exact absurd rfl hmarks.mark
      | true =>
          refine h.frame (fun id j' hj' hoff => ?_) (fun id j' hj' hoff hp => ?_)
            fun id j' hj' hoff hnot hhas => hhas
          · have hget : (markPurged w.store k).db.get? id = some j' := hj'
            refine offered_modify (fun j hj => ?_) hget hoff
            cases hj.unpurged
          · obtain ⟨todo', htodo⟩ := hp
            rw [hpurging] at htodo
            cases htodo
            have hget : (markPurged w.store k).db.get? k = some j' := hj'
            rw [markPurged, Table.get?_modify, if_pos rfl] at hget
            obtain ⟨j, -, rfl⟩ := Option.map_eq_some_iff.mp hget
            cases hoff.unpurged
  | janitorSweep now b hup hpurging =>
      refine h.same rfl (fun id j' hj' hoff => ⟨j', ?_, hoff⟩) fun id hp => ?_
      · have hget : (w.store.db.delete _).get? id = some j' := hj'
        rw [Table.get?_delete] at hget
        exact Option.eq_some_of_filter_eq_some hget
      · obtain ⟨todo, htodo⟩ := hp
        rw [hpurging] at htodo
        cases htodo
  | release k readable marked =>
      refine release_served h rfl (fun id hp => hp) ?_
      rintro rfl
      exact hmarks.release k readable rfl
  | delivered k ok =>
      cases ok with
      | false => exact hsame _ rfl fun id hp => hp
      | true =>
          refine h.same rfl (fun id j' hj' hoff => ?_) fun id hp => hp
          have hget : (markDelivered w.store k).db.get? id = some j' := hj'
          refine offered_modify ?_ hget hoff
          exact fun j hj => ⟨hj.kind, hj.state, hj.unpurged⟩

/-- Along every run in which successful conversions bring their document and
deletions are marked, what is on offer is served. -/
theorem done_convert_has_output (env : Env) (set : Settings) {as : List Label} {w : Coord}
    (hrun : RunWhere (next env set) Faithful Coord.start as w) {id : Nat} {j : Job}
    (hj : w.job? id = some j) (hkind : j.kind = .convert) (hdone : j.state = .done)
    (hkept : j.purged = false) (hidle : ¬ w.Purges id) : w.store.HasOutput id := by
  have hstart : Coord.start.Served := by
    intro id j hj
    simp [Coord.job?, Coord.start, Store.empty] at hj
  have hserved : w.Served :=
    hrun.invariant (fun s a t hs hok hn => next_served hs hok hn) hstart
  exact hserved id j hj ⟨hkind, hdone, hkept⟩ hidle

/-- A conversion that ends well and brings its document. -/
def servedRun : List Label :=
  [.submit (.convert [1] false) 0 .smooth, .lease "w1" 10,
    .complete 1 1 "w1" .success [("out.pdf", [2])] ["out.pdf"] 20 .none]

theorem servedRun_has_output :
    ∃ w, RunWhere (next Env.bare Settings.small) Faithful Coord.start servedRun w ∧
      ((w.job? 1).map fun j => (j.kind, j.state, j.purged)) = some (.convert, .done, false) ∧
      w.store.HasOutput 1 := by
  have hexec : ((exec (next Env.bare Settings.small) Coord.start servedRun).bind fun w =>
      (w.job? 1).map fun j => (j.kind, j.state, j.purged, w.purging.isNone)) =
      some (.convert, .done, false, true) := by
    decide
  obtain ⟨w, hw, h⟩ := Option.bind_eq_some_iff.mp hexec
  obtain ⟨j, hj, h⟩ := Option.map_eq_some_iff.mp h
  simp only [Prod.mk.injEq, Option.isNone_iff_eq_none] at h
  obtain ⟨hkind, hdone, hkept, hpurging⟩ := h
  have hrun : RunWhere (next Env.bare Settings.small) Faithful Coord.start servedRun w := by
    refine runWhere_of_exec hw fun a ha s => ?_
    simp only [servedRun, List.mem_cons, List.not_mem_nil, or_false] at ha
    rcases ha with rfl | rfl | rfl
    · exact ⟨by rintro _ _ _ _ _ _ _ _ _ ⟨⟩, by simp, by simp [Label.kills, SubmitIo.smooth],
        by simp⟩
    · exact ⟨by rintro _ _ _ _ _ _ _ _ _ ⟨⟩, by simp, by simp [Label.kills], by simp⟩
    · refine ⟨?_, by simp, by simp [Label.kills], by simp⟩
      rintro _ _ _ _ _ _ _ _ j ⟨⟩ _ _ _
      exact Or.inl (by simp)
  have hidle : ¬ w.Purges 1 := by
    rintro ⟨todo, htodo⟩
    rw [hpurging] at htodo
    cases htodo
  refine ⟨w, hrun, by simp [hj, hkind, hdone, hkept], ?_⟩
  exact done_convert_has_output _ _ hrun hj hkind hdone hkept hidle

/-- A conversion that ends well and brings nothing. -/
def emptyBundle : List Label :=
  [.submit (.convert [1] false) 0 .smooth, .lease "w1" 10,
    .complete 1 1 "w1" .success [] [] 20 .none]

theorem emptyBundle_without_output :
    ¬ ∀ as w id j, Run (next Env.bare Settings.small) Coord.start as w → w.job? id = some j →
      j.kind = .convert → j.state = .done → j.purged = false → w.store.HasOutput id := by
  intro hclaim
  have hexec : ((exec (next Env.bare Settings.small) Coord.start emptyBundle).bind fun w =>
      (w.job? 1).map fun j =>
        (j.kind, j.state, j.purged, (w.store.jobs 1).map fun d => d.has "out.pdf")) =
      some (.convert, .done, false, some false) := by
    decide
  obtain ⟨w, hw, h⟩ := Option.bind_eq_some_iff.mp hexec
  obtain ⟨j, hj, h⟩ := Option.map_eq_some_iff.mp h
  simp only [Prod.mk.injEq] at h
  obtain ⟨hkind, hdone, hkept, hdir⟩ := h
  obtain ⟨d, hd, hhas⟩ := hclaim _ w 1 j (run_of_exec hw) hj hkind hdone hkept
  simp [hd, hhas] at hdir

end Kura.Server
