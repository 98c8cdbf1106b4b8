import Kura.Server.Coordinator
import Kura.Server.QueueSpec

/-!
# What a step does to a row

Every row after a step is a row from before, changed in one of the ways
below, or the row of a job just submitted. Facts about single fields of rows
along runs are read off this list. The counter of the table is followed too.
-/

namespace Kura.Server

open Kura.Base

/-- The changes a step can make to the row of a job. -/
inductive RowChange (set : Settings) (id : Nat) : Label → Job → Job → Prop
  | same (a : Label) (j : Job) : RowChange set id a j j
  | lease (worker : String) (now : Int) (j : Job) (hqueued : j.state = .queued) :
      RowChange set id (.lease worker now) j (leaseRow set worker now j)
  | renew (b : Beat) (now : Int) (j : Job) (hmem : id ∈ b.running) (hrun : j.state = .running)
      (hholder : j.worker = some b.id) :
      RowChange set id (.heartbeat b now) j { j with leaseUntil := some (now + set.leaseMs) }
  | finish (a : Label) (state : JobState) (result : RunResult) (now : Int) (j : Job)
      (hopen : j.state.finished = false) (hstate : state.finished = true) :
      RowChange set id a j (finishRow state result now j)
  | requeue (a : Label) (now : Int) (j : Job) (hrun : j.state = .running) :
      RowChange set id a j
        { j with state := .queued, worker := none, leaseUntil := none, updated := now }
  | purge (a : Label) (j : Job) : RowChange set id a j { j with purged := true }
  | release (readable marked purge : Bool) (j : Job) :
      RowChange set id (.release id readable marked) j (markReleased purge j)
  | deliver (ok : Bool) (j : Job) :
      RowChange set id (.delivered id ok) j { j with delivered := true }

/-- The row of a job that a step has submitted. -/
inductive RowNew (env : Env) (c : Store) : Label → Job → Prop
  | queued (r : Request) (now : Int) (io : SubmitIo) (hash : Option String)
      (hhash : requestHash env r = some hash) :
      RowNew env c (.submit r now io) (newRow r hash now)
  | cached (r : Request) (now : Int) (io : SubmitIo) (hash : Option String) (prev : Nat)
      (res : RunResult) (hhash : requestHash env r = some hash)
      (hprev : cachedResult c.db hash = some (prev, res)) :
      RowNew env c (.submit r now io) (dedupeRow (newRow r hash now) res now)

theorem finishedState_finished (env : Env) (kind : Kind) (r : RunResult) :
    (finishedState env kind r).finished = true := by
  unfold finishedState
  split <;> rfl

/-- Changing one row in a way that is listed. -/
theorem rowChange_modify {set : Settings} {a : Label} {db : Table Job} {k id : Nat}
    {f : Job → Job} {j' : Job}
    (hf : ∀ j, id = k → db.get? k = some j → RowChange set id a j (f j))
    (h : (db.modify k f).get? id = some j') :
    ∃ j, db.get? id = some j ∧ RowChange set id a j j' := by
  rw [Table.get?_modify] at h
  by_cases hid : id = k
  · rw [if_pos hid] at h
    obtain ⟨j, hj, rfl⟩ := Option.map_eq_some_iff.mp h
    exact ⟨j, hj, hf j hid (hid ▸ hj)⟩
  · rw [if_neg hid] at h
    exact ⟨j', h, .same a j'⟩

theorem rowChange_finish {set : Settings} {a : Label} {env : Env} {c : Store} {k : Nat}
    {result : RunResult} {staged : Option (Dir × List String)} {attempt : Option (Int × String)}
    {now : Int} {f : Fault FinishPoint} {id : Nat} {j' : Job}
    (h : (finish env c k result staged attempt now f).1.db.get? id = some j') :
    ∃ j, c.db.get? id = some j ∧ RowChange set id a j j' := by
  have hcase := finish_cases env c k result staged attempt now f
  generalize finish env c k result staged attempt now f = out at hcase h
  cases hcase with
  | refused c' reply hgrown =>
      rw [hgrown.db] at h
      exact ⟨j', h, .same a j'⟩
  | recorded i c' reply hget hopen =>
      refine rowChange_modify (fun j _ hj => ?_) h
      obtain rfl := Option.some.inj (hget.symm.trans hj)
      exact .finish a _ result now i hopen (finishedState_finished env i.kind result)

theorem rowChange_requeue {set : Settings} {a : Label} {c : Store} {k id : Nat} {now : Int}
    {j' : Job} (h : (requeue c k now).db.get? id = some j') :
    ∃ j, c.db.get? id = some j ∧ RowChange set id a j j' := by
  refine rowChange_modify (fun j _ _ => ?_) h
  unfold requeueRow
  split_ifs with hrun
  · exact .requeue a now j hrun
  · exact .same a j

theorem rowChange_release {set : Settings} {c : Store} {k id : Nat}
    {readable marked : Bool} {j' : Job}
    (h : (release c k readable marked).db.get? id = some j') :
    ∃ j, c.db.get? id = some j ∧ RowChange set id (.release k readable marked) j j' := by
  have hdb : (if keepsFiles c.db k readable = true then c else c.setDir k none).db = c.db := by
    split_ifs <;> rfl
  simp only [release] at h
  by_cases hm : marked = true
  · simp only [if_pos hm, hdb] at h
    refine rowChange_modify (fun j hid _ => ?_) h
    exact hid ▸ .release readable marked _ j
  · simp only [if_neg hm, hdb] at h
    exact ⟨j', h, .same _ j'⟩

/-- A heartbeat renews what its sender holds and names, and keeps the rest. -/
theorem heartbeat_row {set : Settings} {c : Store} {b : Beat} {now : Int} {id : Nat} {j' : Job}
    (h : (heartbeat set c b now).db.get? id = some j') :
    ∃ j, c.db.get? id = some j ∧ (j' = j ∨
      (id ∈ b.running ∧ j.state = .running ∧ j.worker = some b.id ∧
        j' = { j with leaseUntil := some (now + set.leaseMs) })) := by
  simp only [heartbeat] at h
  revert h
  generalize c.db = db
  induction b.running generalizing db with
  | nil =>
      intro h
      exact ⟨j', h, Or.inl rfl⟩
  | cons k ks ih =>
      intro h
      obtain ⟨i, hi, hor⟩ := ih _ h
      rw [Table.get?_modify] at hi
      by_cases hid : id = k
      · rw [if_pos hid] at hi
        obtain ⟨j, hj, rfl⟩ := Option.map_eq_some_iff.mp hi
        refine ⟨j, hj, ?_⟩
        by_cases hold : j.worker = some b.id ∧ j.state = .running
        · rw [renewRow, if_pos hold] at hor
          refine Or.inr ⟨hid ▸ List.mem_cons_self, hold.2, hold.1, ?_⟩
          rcases hor with heq | ⟨-, -, -, heq⟩
          · exact heq
          · exact heq
        · rw [renewRow, if_neg hold] at hor
          rcases hor with heq | ⟨-, hs, hw, -⟩
          · exact Or.inl heq
          · exact absurd ⟨hw, hs⟩ hold
      · rw [if_neg hid] at hi
        refine ⟨i, hi, ?_⟩
        rcases hor with heq | ⟨hmem, hrest⟩
        · exact Or.inl heq
        · exact Or.inr ⟨List.mem_cons_of_mem _ hmem, hrest⟩

/-- A row behind a submission is a changed one or the new one. -/
theorem rowNew_submit {set : Settings} {a : Label} {env : Env} {c : Store} {r : Request}
    {now : Int} {io : SubmitIo} {id : Nat} {j' : Job}
    (h : (submit env set c r now io).1.db.get? id = some j') :
    (∃ j, c.db.get? id = some j ∧ RowChange set id a j j') ∨
      (id = c.db.nextId ∧ RowNew env c (.submit r now io) j' ∧
        (submit env set c r now io).1.db.seq = c.db.nextId) := by
  have hsame : c.db.get? id = some j' → ∃ j, c.db.get? id = some j ∧ RowChange set id a j j' :=
    fun h => ⟨j', h, .same a j'⟩
  have hinsert : ∀ row : Job, RowNew env c (.submit r now io) row →
      (c.db.insert row).get? id = some j' →
      (∃ j, c.db.get? id = some j ∧ RowChange set id a j j') ∨
        (id = c.db.nextId ∧ RowNew env c (.submit r now io) j' ∧
          (c.db.insert row).seq = c.db.nextId) := by
    intro row hrow hget
    rw [Table.get?_insert] at hget
    by_cases hid : id = c.db.nextId
    · rw [if_pos hid] at hget
      obtain rfl := Option.some.inj hget
      exact Or.inr ⟨hid, hrow, Table.seq_insert _ _⟩
    · rw [if_neg hid] at hget
      exact Or.inl (hsame hget)
  have hcase := submit_cases env set c r now io
  generalize submit env set c r now io = out at hcase h
  cases hcase with
  | unchanged => exact Or.inl (hsame h)
  | undone => exact Or.inl (hsame h)
  | stranded => exact Or.inl (hsame h)
  | queued hash d reply hhash => exact hinsert _ (.queued r now io hash hhash) h
  | cached hash prev res d reply hhash hfree hcut hprev =>
      exact hinsert _ (.cached r now io hash prev res hhash hprev) h

/-- Where a row comes from. -/
theorem row_of_step {env : Env} {set : Settings} {w : Coord} {a : Label} {out : Coord × Reply}
    {id : Nat} {j' : Job} (h : Stepped env set w a out) (hj' : out.1.job? id = some j') :
    (∃ j, w.job? id = some j ∧ RowChange set id a j j') ∨
      (id = w.store.db.nextId ∧ RowNew env w.store a j' ∧
        out.1.store.db.seq = w.store.db.nextId) := by
  have hsame : w.job? id = some j' → ∃ j, w.job? id = some j ∧ RowChange set id a j j' :=
    fun h => ⟨j', h, .same a j'⟩
  cases h with
  | «open» => exact Or.inl (hsame hj')
  | kill => exact Or.inl (hsame hj')
  | submit r now io =>
      rw [Coord.job?, Coord.submitted_store] at hj'
      rw [Coord.submitted_store]
      exact rowNew_submit hj'
  | lease worker now =>
      simp only [Coord.job?, lease] at hj'
      split at hj'
      · exact Or.inl (hsame hj')
      · rename_i k i hfirst
        obtain ⟨hget, hq⟩ := Table.get?_of_first? hfirst
        refine Or.inl (rowChange_modify (fun j _ hj => ?_) hj')
        obtain rfl := Option.some.inj (hget.symm.trans hj)
        exact .lease worker now i (by simpa using hq)
  | served => exact Or.inl (hsame hj')
  | unreadable k err now f =>
      rw [Coord.job?, Coord.finished_store] at hj'
      exact Or.inl (rowChange_finish hj')
  | heartbeat b now =>
      obtain ⟨j, hj, rfl | ⟨hmem, hs, hw, rfl⟩⟩ := heartbeat_row hj'
      · exact Or.inl ⟨j', hj, .same _ _⟩
      · exact Or.inl ⟨j, hj, .renew b now j hmem hs hw⟩
  | complete k attempt worker result staging names now f =>
      rw [Coord.job?, Coord.finished_store] at hj'
      exact Or.inl (rowChange_finish hj')
  | reapSelect => exact Or.inl (hsame hj')
  | reapEnd => exact Or.inl (hsame hj')
  | reapNext now asOf f updated e todo =>
      unfold Coord.reapOne at hj'
      split_ifs at hj'
      · rw [Coord.job?, Coord.finished_store] at hj'
        exact Or.inl (rowChange_finish hj')
      · exact Or.inl (rowChange_requeue hj')
      · exact Or.inl (hsame hj')
  | janitorSelect => exact Or.inl (hsame hj')
  | janitorRemove ok k todo => cases ok <;> exact Or.inl (hsame hj')
  | janitorMark ok k todo =>
      cases ok with
      | false => exact Or.inl (hsame hj')
      | true =>
          have hget : (markPurged w.store k).db.get? id = some j' := hj'
          refine Or.inl (rowChange_modify ?_ hget)
          exact fun j _ _ => .purge _ j
  | janitorSweep now =>
      have hget : (w.store.db.delete _).get? id = some j' := hj'
      rw [Table.get?_delete] at hget
      exact Or.inl (hsame (Option.eq_some_of_filter_eq_some hget))
  | release k readable marked => exact Or.inl (rowChange_release hj')
  | delivered k ok =>
      cases ok with
      | false => exact Or.inl (hsame hj')
      | true =>
          have hget : (markDelivered w.store k).db.get? id = some j' := hj'
          refine Or.inl (rowChange_modify ?_ hget)
          exact fun j hid _ => hid ▸ .deliver true j

theorem heartbeat_seq (set : Settings) (c : Store) (b : Beat) (now : Int) :
    (heartbeat set c b now).db.seq = c.db.seq := by
  simp only [heartbeat]
  generalize c.db = db
  induction b.running generalizing db with
  | nil => rfl
  | cons k ks ih => rw [List.foldl_cons, ih, Table.seq_modify]

theorem finish_seq (env : Env) (c : Store) (id : Nat) (result : RunResult)
    (staged : Option (Dir × List String)) (attempt : Option (Int × String)) (now : Int)
    (f : Fault FinishPoint) :
    (finish env c id result staged attempt now f).1.db.seq = c.db.seq := by
  have hcase := finish_cases env c id result staged attempt now f
  generalize finish env c id result staged attempt now f = out at hcase ⊢
  cases hcase with
  | refused c' reply hgrown => rw [hgrown.db]
  | recorded i c' reply hget hopen => exact Table.seq_modify _ _ _

/-- The table only ever counts up, by one for a submission. -/
theorem seq_of_step {env : Env} {set : Settings} {w : Coord} {a : Label} {out : Coord × Reply}
    (h : Stepped env set w a out) :
    out.1.store.db.seq = w.store.db.seq ∨ out.1.store.db.seq = w.store.db.nextId := by
  cases h with
  | submit r now io =>
      rw [Coord.submitted_store]
      have hcase := submit_cases env set w.store r now io
      generalize submit env set w.store r now io = sub at hcase ⊢
      cases hcase with
      | unchanged => exact Or.inl rfl
      | undone => exact Or.inl rfl
      | stranded => exact Or.inl rfl
      | queued => exact Or.inr (Table.seq_insert _ _)
      | cached => exact Or.inr (Table.seq_insert _ _)
  | lease worker now =>
      simp only [lease]
      split
      · exact Or.inl rfl
      · exact Or.inl (Table.seq_modify _ _ _)
  | unreadable =>
      rw [Coord.finished_store]
      exact Or.inl (finish_seq _ _ _ _ _ _ _ _)
  | heartbeat => exact Or.inl (heartbeat_seq _ _ _ _)
  | complete =>
      rw [Coord.finished_store]
      exact Or.inl (finish_seq _ _ _ _ _ _ _ _)
  | reapNext now asOf f updated e todo =>
      unfold Coord.reapOne
      split_ifs
      · rw [Coord.finished_store]
        exact Or.inl (finish_seq _ _ _ _ _ _ _ _)
      · exact Or.inl (Table.seq_modify _ _ _)
      · exact Or.inl rfl
  | janitorRemove ok => cases ok <;> exact Or.inl rfl
  | janitorMark ok =>
      cases ok with
      | true => exact Or.inl (Table.seq_modify _ _ _)
      | false => exact Or.inl rfl
  | janitorSweep => exact Or.inl (Table.seq_delete _ _)
  | release k readable marked =>
      refine Or.inl ?_
      simp only [release]
      split_ifs <;> simp
  | delivered k ok =>
      cases ok with
      | true => exact Or.inl (Table.seq_modify _ _ _)
      | false => exact Or.inl rfl
  | _ => exact Or.inl rfl

theorem seq_le_of_step {env : Env} {set : Settings} {w : Coord} {a : Label} {out : Coord × Reply}
    (h : Stepped env set w a out) : w.store.db.seq ≤ out.1.store.db.seq := by
  rcases seq_of_step h with heq | heq
  · exact Nat.le_of_eq heq.symm
  · exact Nat.le_trans (Nat.le_succ _) (Nat.le_of_eq heq.symm)

end Kura.Server
