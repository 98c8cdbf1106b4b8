import Kura.Server.Rows

/-!
# The life of a job

What the queue is for, said without rows, locks and requests: a job waits,
is held by a worker under a numbered attempt, and ends once. The moves below
are all a job may make. Every step of the coordinator moves every job by at
most one of them.

`Life.gone` differs from `Life.unused`: the key of a deleted row is not given
out again, so a job that ended cannot come back under the same id.

A reap works from a list made earlier. What makes its entries still true is
that nothing but the reap itself takes a running job back to the queue; this
is `Coord.ReapOk`.
-/

namespace Kura.Server

open Kura.Base Kura.Transition

/-- The stages of a job, with the number of times it was handed out. -/
inductive Life where
  | unused
  | waiting (attempts : Nat)
  | held (attempts : Nat) (worker : Option String)
  | ended (attempts : Nat) (state : JobState) (result : Option RunResult)
  | gone

/-- The moves of a job that may be tried `max` times. A job is handed out
only where `grant` is set. -/
inductive Move (max : Nat) (grant : Bool) : Life → Life → Prop
  | stay (l : Life) : Move max grant l l
  | submit : Move max grant .unused (.waiting 0)
  | reuse (state : JobState) (result : Option RunResult) :
      Move max grant .unused (.ended 0 state result)
  | lease (n : Nat) (worker : String) (h : grant = true) :
      Move max grant (.waiting n) (.held (n + 1) (some worker))
  | requeue (n : Nat) (worker : Option String) (h : n < max) :
      Move max grant (.held n worker) (.waiting n)
  | finish (n : Nat) (worker : Option String) (state : JobState) (result : Option RunResult) :
      Move max grant (.held n worker) (.ended n state result)
  | abandon (n : Nat) (state : JobState) (result : Option RunResult) :
      Move max grant (.waiting n) (.ended n state result)
  | forget (l : Life) (h : l ≠ .unused) : Move max grant l .gone

namespace Life

/-- The number of times a job was handed out. -/
def attempts : Life → Option Nat
  | .waiting n | .held n _ | .ended n _ _ => some n
  | .unused | .gone => none

/-- A job that may still be handed out has tries left. -/
def Bounded (max : Nat) : Life → Prop
  | .waiting n => n < max
  | .held n _ | .ended n _ _ => n ≤ max
  | .unused | .gone => True

/-- What may become of a stage: the count never falls, what has ended stays
as it is until it is forgotten, and what is forgotten stays so. -/
def Later (l l' : Life) : Prop :=
  match l with
  | .unused => True
  | .waiting n | .held n _ => l' = .gone ∨ ∃ n', l'.attempts = some n' ∧ n ≤ n'
  | .ended .. => l' = l ∨ l' = .gone
  | .gone => l' = .gone

theorem Later.refl (l : Life) : l.Later l := by
  cases l with
  | unused => trivial
  | waiting n => exact Or.inr ⟨n, rfl, Nat.le_refl n⟩
  | held n w => exact Or.inr ⟨n, rfl, Nat.le_refl n⟩
  | ended n s r => exact Or.inl rfl
  | gone => rfl

/-- Attempts are only counted up. -/
theorem Later.attempts_le {l l' : Life} (h : l.Later l') {n n' : Nat} (hn : l.attempts = some n)
    (hn' : l'.attempts = some n') : n ≤ n' := by
  cases l with
  | unused => cases hn
  | gone => cases hn
  | waiting m =>
      obtain rfl := Option.some.inj hn
      rcases h with rfl | ⟨k, hk, hle⟩
      · cases hn'
      · rw [hn'] at hk
        exact Option.some.inj hk ▸ hle
  | held m w =>
      obtain rfl := Option.some.inj hn
      rcases h with rfl | ⟨k, hk, hle⟩
      · cases hn'
      · rw [hn'] at hk
        exact Option.some.inj hk ▸ hle
  | ended m s r =>
      rcases h with rfl | rfl
      · rw [hn] at hn'
        exact Nat.le_of_eq (Option.some.inj hn')
      · cases hn'

/-- From a counted stage one gets to a counted stage or to the end. -/
theorem Later.gone_or_attempts {l l' : Life} (h : l.Later l') {n : Nat}
    (hn : l.attempts = some n) : l' = .gone ∨ ∃ n', l'.attempts = some n' ∧ n ≤ n' := by
  cases l with
  | unused => cases hn
  | gone => cases hn
  | waiting m =>
      obtain rfl := Option.some.inj hn
      exact h
  | held m w =>
      obtain rfl := Option.some.inj hn
      exact h
  | ended m s r =>
      rcases h with rfl | rfl
      · exact Or.inr ⟨n, hn, Nat.le_refl n⟩
      · exact Or.inl rfl

/-- Later is transitive. -/
theorem Later.trans {l l' l'' : Life} (h : l.Later l') (h' : l'.Later l'') : l.Later l'' := by
  have hcounted : ∀ n, (l' = .gone ∨ ∃ n', l'.attempts = some n' ∧ n ≤ n') →
      l'' = .gone ∨ ∃ n', l''.attempts = some n' ∧ n ≤ n' := by
    rintro n (rfl | ⟨k, hk, hle⟩)
    · exact Or.inl h'
    · rcases h'.gone_or_attempts hk with hgone | ⟨m, hm, hkm⟩
      · exact Or.inl hgone
      · exact Or.inr ⟨m, hm, Nat.le_trans hle hkm⟩
  cases l with
  | unused => trivial
  | waiting n => exact hcounted n h
  | held n w => exact hcounted n h
  | ended n s r =>
      rcases h with rfl | rfl
      · exact h'
      · exact Or.inr h'
  | gone =>
      obtain rfl := h
      exact h'

end Life

namespace Move

variable {max : Nat} {grant : Bool} {l l' : Life}

theorem later (h : Move max grant l l') : l.Later l' := by
  cases h with
  | stay => exact Life.Later.refl l
  | submit => trivial
  | reuse => trivial
  | lease n w => exact Or.inr ⟨n + 1, rfl, Nat.le_succ n⟩
  | requeue n w => exact Or.inr ⟨n, rfl, Nat.le_refl n⟩
  | finish n w s r => exact Or.inr ⟨n, rfl, Nat.le_refl n⟩
  | abandon n s r => exact Or.inr ⟨n, rfl, Nat.le_refl n⟩
  | forget l hl =>
      cases l with
      | unused => exact absurd rfl hl
      | waiting => exact Or.inl rfl
      | held => exact Or.inl rfl
      | ended => exact Or.inr rfl
      | gone => rfl

theorem bounded (hmax : 0 < max) (h : Move max grant l l') (hl : l.Bounded max) :
    l'.Bounded max := by
  cases h with
  | stay => exact hl
  | submit => exact hmax
  | reuse => exact Nat.zero_le _
  | lease => exact hl
  | requeue n w hn => exact hn
  | finish => exact hl
  | abandon => exact Nat.le_of_lt hl
  | forget => trivial

/-- The count of a job that stays known never falls, and rises by one with a
lease of a waiting job only. -/
theorem attempts_cases (h : Move max grant l l') {n n' : Nat} (hn : l.attempts = some n)
    (hn' : l'.attempts = some n') :
    n' = n ∨ (grant = true ∧ l = .waiting n ∧ n' = n + 1) := by
  cases h with
  | stay =>
      rw [hn] at hn'
      exact Or.inl (Option.some.inj hn').symm
  | lease m w hgrant =>
      obtain rfl := Option.some.inj hn
      obtain rfl := Option.some.inj hn'
      exact Or.inr ⟨hgrant, rfl, rfl⟩
  | requeue m w hm =>
      obtain rfl := Option.some.inj hn
      exact Or.inl (Option.some.inj hn').symm
  | finish m w s r =>
      obtain rfl := Option.some.inj hn
      exact Or.inl (Option.some.inj hn').symm
  | abandon m s r =>
      obtain rfl := Option.some.inj hn
      exact Or.inl (Option.some.inj hn').symm
  | submit => cases hn
  | reuse => cases hn
  | forget => cases hn'

end Move

/-- The stage a row records. -/
def Job.life (j : Job) : Life :=
  match j.state with
  | .queued => .waiting j.attempts
  | .running => .held j.attempts j.worker
  | .done => .ended j.attempts .done j.result
  | .failed => .ended j.attempts .failed j.result

/-- The stage of a job in a table. -/
def lifeOf (db : Table Job) (id : Nat) : Life :=
  match db.get? id with
  | some j => j.life
  | none => if id ≤ db.seq then .gone else .unused

theorem lifeOf_of_get? {db : Table Job} {id : Nat} {j : Job} (h : db.get? id = some j) :
    lifeOf db id = j.life := by
  simp [lifeOf, h]

theorem Job.attempts_life (j : Job) : j.life.attempts = some j.attempts := by
  unfold Job.life
  split <;> rfl

theorem Job.life_finished {j : Job} (h : j.state.finished = true) :
    j.life = .ended j.attempts j.state j.result := by
  unfold Job.life
  split
  · rename_i hs
    simp [hs, JobState.finished] at h
  · rename_i hs
    simp [hs, JobState.finished] at h
  · rename_i hs
    rw [hs]
  · rename_i hs
    rw [hs]

theorem Job.life_finishRow {s : JobState} (hs : s.finished = true) (result : RunResult)
    (now : Int) (j : Job) :
    (finishRow s result now j).life = .ended j.attempts s (some result) :=
  Job.life_finished (j := finishRow s result now j) hs

/-- A row update that keeps every stage keeps the stages of the table. -/
theorem lifeOf_modify_of_life_eq {db : Table Job} {k : Nat} {f : Job → Job}
    (hf : ∀ j, (f j).life = j.life) (id : Nat) : lifeOf (db.modify k f) id = lifeOf db id := by
  simp only [lifeOf, Table.get?_modify, Table.seq_modify]
  by_cases h : id = k
  · rw [if_pos h]
    cases db.get? id with
    | none => rfl
    | some j => exact hf j
  · rw [if_neg h]
    rfl

/-- A row update moves the other jobs nowhere. -/
theorem lifeOf_modify_ne {db : Table Job} {k id : Nat} (f : Job → Job) (h : id ≠ k) :
    lifeOf (db.modify k f) id = lifeOf db id := by
  simp only [lifeOf, Table.get?_modify, Table.seq_modify, if_neg h]
  rfl

theorem lifeOf_modify_self {db : Table Job} {k : Nat} {f : Job → Job} {j : Job}
    (h : db.get? k = some j) : lifeOf (db.modify k f) k = (f j).life := by
  simp [lifeOf, Table.get?_modify, h]

/-- Moves of one modified row, given the move of that row. -/
theorem move_modify {max : Nat} {grant : Bool} {db : Table Job} {k : Nat} {f : Job → Job} {j : Job}
    (hget : db.get? k = some j) (hmove : Move max grant j.life (f j).life) (id : Nat) :
    Move max grant (lifeOf db id) (lifeOf (db.modify k f) id) := by
  by_cases h : id = k
  · subst h
    rw [lifeOf_of_get? hget, lifeOf_modify_self hget]
    exact hmove
  · rw [lifeOf_modify_ne f h]
    exact .stay _

theorem lifeOf_nextId (db : Table Job) : lifeOf db db.nextId = .unused := by
  have h : ¬ db.nextId ≤ db.seq := by
    simp only [Table.nextId]
    omega
  simp [lifeOf, h]

/-- Inserting a row starts one job and moves no other. -/
theorem move_insert {max : Nat} {grant : Bool} {db : Table Job} {row : Job}
    (hrow : Move max grant .unused row.life) (id : Nat) :
    Move max grant (lifeOf db id) (lifeOf (db.insert row) id) := by
  by_cases h : id = db.nextId
  · subst h
    rw [lifeOf_nextId]
    simpa [lifeOf, Table.get?_insert] using hrow
  · have hle : (id ≤ db.nextId) ↔ (id ≤ db.seq) := by
      simp only [Table.nextId] at h ⊢
      omega
    have heq : lifeOf (db.insert row) id = lifeOf db id := by
      simp only [lifeOf, Table.get?_insert, if_neg h, Table.seq_insert, hle]
    rw [heq]
    exact .stay _

theorem move_delete {max : Nat} {grant : Bool} (db : Table Job) (p : Nat → Job → Bool) (id : Nat) :
    Move max grant (lifeOf db id) (lifeOf (db.delete p) id) := by
  simp only [lifeOf, Table.get?_delete, Table.seq_delete]
  cases hget : db.get? id with
  | none => exact .stay _
  | some j =>
      have hle := Table.le_seq_of_get? hget
      by_cases hp : p id j = true
      · simp only [Option.filter_some, hp, Bool.not_true, Bool.false_eq_true, if_false]
        change Move max grant j.life (if id ≤ db.seq then .gone else .unused)
        rw [if_pos hle]
        refine .forget _ ?_
        unfold Job.life
        split <;> simp
      · simp only [Option.filter_some, hp, Bool.not_false, if_true]
        exact .stay _

theorem Move.mono {max : Nat} {grant : Bool} {l l' : Life} (h : Move 0 grant l l') :
    Move max grant l l' := by
  cases h with
  | stay => exact .stay _
  | submit => exact .submit
  | reuse s r => exact .reuse s r
  | lease n w hgrant => exact .lease n w hgrant
  | requeue n w hn => exact absurd hn (Nat.not_lt_zero n)
  | finish n w s r => exact .finish n w s r
  | abandon n s r => exact .abandon n s r
  | forget l hl => exact .forget l hl

theorem submit_moves (env : Env) (set : Settings) (c : Store) (r : Request) (now : Int)
    (io : SubmitIo) (id : Nat) :
    Move 0 false (lifeOf c.db id) (lifeOf (submit env set c r now io).1.db id) := by
  have hcase := submit_cases env set c r now io
  generalize submit env set c r now io = out at hcase
  cases hcase with
  | unchanged => exact .stay _
  | undone => exact .stay _
  | stranded => exact .stay _
  | queued => exact move_insert .submit id
  | cached hash prev res => exact move_insert (.reuse .done (some res)) id

theorem lease_moves (set : Settings) (c : Store) (worker : String) (now : Int) (id : Nat) :
    Move 0 true (lifeOf c.db id) (lifeOf (lease set c worker now).1.db id) := by
  unfold lease
  split
  · exact .stay _
  · rename_i k j hfirst
    obtain ⟨hget, hq⟩ := Table.get?_of_first? hfirst
    apply move_modify hget
    have hlife : j.life = .waiting j.attempts := by
      simp only [decide_eq_true_eq] at hq
      simp [Job.life, hq]
    rw [hlife]
    exact .lease j.attempts worker rfl

theorem Job.life_renewRow (worker : String) (t : Int) (j : Job) :
    (renewRow worker t j).life = j.life := by
  unfold renewRow
  split_ifs <;> rfl

theorem heartbeat_life (set : Settings) (c : Store) (b : Beat) (now : Int) (id : Nat) :
    lifeOf (heartbeat set c b now).db id = lifeOf c.db id := by
  simp only [heartbeat]
  generalize c.db = db
  induction b.running generalizing db with
  | nil => rfl
  | cons k ks ih =>
      rw [List.foldl_cons, ih]
      exact lifeOf_modify_of_life_eq (Job.life_renewRow _ _) id

/-- To finish a job is a move in the life of every job. -/
theorem finish_moves (env : Env) (c : Store) (k : Nat) (result : RunResult)
    (staged : Option (Dir × List String)) (attempt : Option (Int × String)) (now : Int)
    (f : Fault FinishPoint) (id : Nat) :
    Move 0 false (lifeOf c.db id)
      (lifeOf (finish env c k result staged attempt now f).1.db id) := by
  have hcase := finish_cases env c k result staged attempt now f
  generalize finish env c k result staged attempt now f = out at hcase
  cases hcase with
  | refused c' reply hgrown =>
      rw [hgrown.db]
      exact .stay _
  | recorded j c' reply hget hopen =>
      apply move_modify hget
      rw [Job.life_finishRow (finishedState_finished _ _ _)]
      unfold Job.life
      split
      · exact .abandon _ _ _
      · exact .finish _ _ _ _
      · rename_i hs
        simp [hs, JobState.finished] at hopen
      · rename_i hs
        simp [hs, JobState.finished] at hopen

/-- To queue a job again is a move in the life of every job. -/
theorem requeue_moves {c : Store} {k max : Nat} {grant : Bool} {now : Int}
    (h : ∀ j, c.db.get? k = some j → j.state = .running → j.attempts < max) (id : Nat) :
    Move max grant (lifeOf c.db id) (lifeOf (requeue c k now).db id) := by
  cases hget : c.db.get? k with
  | none =>
      have heq : lifeOf (requeue c k now).db id = lifeOf c.db id := by
        by_cases hid : id = k
        · subst hid
          simp only [requeue, lifeOf, Table.get?_modify, if_true, hget, Option.map_none]
          rfl
        · exact lifeOf_modify_ne _ hid
      rw [heq]
      exact .stay _
  | some j =>
      apply move_modify hget
      by_cases hrun : j.state = .running
      · have hlife : j.life = .held j.attempts j.worker := by simp [Job.life, hrun]
        have hlife' : (requeueRow now j).life = .waiting j.attempts := by
          simp [requeueRow, hrun, Job.life]
        rw [hlife, hlife']
        exact .requeue _ _ (h j hget hrun)
      · rw [requeueRow, if_neg hrun]
        exact .stay _

theorem release_life (c : Store) (k : Nat) (readable marked : Bool) (id : Nat) :
    lifeOf (release c k readable marked).db id = lifeOf c.db id := by
  simp only [release]
  have hdb : (if keepsFiles c.db k readable = true then c else c.setDir k none).db = c.db := by
    split_ifs <;> rfl
  by_cases hm : marked = true
  · simp only [if_pos hm, hdb]
    have hlife : ∀ j, (markReleased (!keepsFiles c.db k readable) j).life = j.life :=
      fun _ => rfl
    exact lifeOf_modify_of_life_eq hlife id
  · simp only [if_neg hm, hdb]

theorem markPurged_life (c : Store) (k id : Nat) :
    lifeOf (markPurged c k).db id = lifeOf c.db id := by
  have hlife : ∀ j : Job, Job.life { j with purged := true } = j.life := fun _ => rfl
  exact lifeOf_modify_of_life_eq hlife id

theorem markDelivered_life (c : Store) (k id : Nat) :
    lifeOf (markDelivered c k).db id = lifeOf c.db id := by
  have hlife : ∀ j : Job, Job.life { j with delivered := true } = j.life := fun _ => rfl
  exact lifeOf_modify_of_life_eq hlife id

/-- The stage of a job. -/
def Coord.life (w : Coord) (id : Nat) : Life := lifeOf w.store.db id

/-- Whether a step hands out jobs. -/
def Label.grants : Label → Bool
  | .lease .. => true
  | _ => false

/-- What a step does to the stages and to a reap under way. -/
inductive StepCase (set : Settings) (w w' : Coord) : Label → Prop
  | plain (a : Label) (hmove : ∀ id, Move 0 a.grants (w.life id) (w'.life id))
      (hreap : w'.reaping = w.reaping ∨ w'.reaping = none) : StepCase set w w' a
  | select (now : Int) (hstore : w'.store = w.store)
      (hreap : w'.reaping = some ⟨now, expired w.store.db now⟩) :
      StepCase set w w' (.reapSelect now)
  | giveUp (asOf now : Int) (e : Expired) (todo : List Expired) (f : Fault FinishPoint)
      (updated : Bool) (hreap : w.reaping = some ⟨asOf, e :: todo⟩)
      (hmove : ∀ id, Move 0 false (w.life id) (w'.life id))
      (hreap' : w'.reaping = some ⟨asOf, todo⟩ ∨ w'.reaping = none) :
      StepCase set w w' (.reapNext now f updated)
  | requeue (asOf now : Int) (e : Expired) (todo : List Expired) (f : Fault FinishPoint)
      (hreap : w.reaping = some ⟨asOf, e :: todo⟩) (hlt : e.attempts < set.maxAttempts)
      (hstore : w'.store = requeue w.store e.id asOf)
      (hreap' : w'.reaping = some ⟨asOf, todo⟩) :
      StepCase set w w' (.reapNext now f true)

/-- A step that keeps every stage and the reap under way. -/
theorem StepCase.same {set : Settings} {w w' : Coord} {a : Label}
    (hlife : ∀ id, w'.life id = w.life id) (hreap : w'.reaping = w.reaping) :
    StepCase set w w' a := by
  refine .plain a (fun id => ?_) (Or.inl hreap)
  rw [hlife id]
  exact .stay _

theorem reapOne_cases (env : Env) (set : Settings) (w : Coord) (asOf : Int) (e : Expired)
    (now : Int) (f : Fault FinishPoint) (updated : Bool) :
    ((∀ id, Move 0 false (w.life id) ((w.reapOne env set asOf e now f updated).1.life id)) ∧
      ((w.reapOne env set asOf e now f updated).1.reaping = w.reaping ∨
        (w.reapOne env set asOf e now f updated).1.reaping = none)) ∨
    (updated = true ∧ e.attempts < set.maxAttempts ∧
      (w.reapOne env set asOf e now f updated).1.store = requeue w.store e.id asOf ∧
      (w.reapOne env set asOf e now f updated).1.reaping = w.reaping) := by
  unfold Coord.reapOne
  split_ifs with hmax hup
  · refine Or.inl ⟨fun id => ?_, Coord.finished_reaping _ _ _⟩
    simp only [Coord.life, Coord.finished_store]
    exact finish_moves _ _ _ _ _ _ _ _ id
  · exact Or.inr ⟨hup, Nat.lt_of_not_le hmax, rfl, rfl⟩
  · exact Or.inl ⟨fun id => .stay _, Or.inl rfl⟩

/-- Everything a step can do to the stages of jobs. -/
theorem step_cases {env : Env} {set : Settings} {w : Coord} {a : Label} {out : Coord × Reply}
    (h : Stepped env set w a out) : StepCase set w out.1 a := by
  cases h with
  | «open» => exact .same (fun _ => rfl) rfl
  | kill => exact .plain _ (fun _ => .stay _) (Or.inr rfl)
  | submit r now io =>
      refine .plain _ (fun id => ?_) (Coord.submitted_reaping _ _ _)
      simp only [Coord.life, Coord.submitted_store]
      exact submit_moves _ _ _ _ _ _ id
  | lease worker now => exact .plain _ (fun id => lease_moves _ _ _ _ id) (Or.inl rfl)
  | served => exact .same (fun _ => rfl) rfl
  | unreadable id err now f =>
      refine .plain _ (fun k => ?_) (Coord.finished_reaping _ _ _)
      simp only [Coord.life, Coord.finished_store]
      exact finish_moves _ _ _ _ _ _ _ _ k
  | heartbeat b now => exact .same (fun id => heartbeat_life _ _ _ _ id) rfl
  | complete id attempt worker result staging names now f =>
      refine .plain _ (fun k => ?_) (Coord.finished_reaping _ _ _)
      simp only [Coord.life, Coord.finished_store]
      exact finish_moves _ _ _ _ _ _ _ _ k
  | reapSelect now => exact .select now rfl rfl
  | reapEnd => exact .plain _ (fun _ => .stay _) (Or.inr rfl)
  | reapNext now asOf f updated e todo _ hreap =>
      rcases reapOne_cases env set { w with reaping := some ⟨asOf, todo⟩ } asOf e now f updated
        with ⟨hmove, hr⟩ | ⟨rfl, hlt, hstore, hr⟩
      · exact .giveUp asOf now e todo f updated hreap hmove hr
      · exact .requeue asOf now e todo f hreap hlt hstore hr
  | janitorSelect => exact .same (fun _ => rfl) rfl
  | janitorRemove ok id todo =>
      refine .same (fun _ => ?_) rfl
      simp only [Coord.life]
      split_ifs <;> rfl
  | janitorMark ok id todo =>
      refine .same (fun k => ?_) rfl
      simp only [Coord.life]
      split_ifs
      · exact markPurged_life _ _ k
      · rfl
  | janitorSweep => exact .plain _ (fun id => move_delete _ _ id) (Or.inl rfl)
  | release id readable marked => exact .same (fun k => release_life _ _ _ _ k) rfl
  | delivered id ok =>
      refine .same (fun k => ?_) rfl
      simp only [Coord.life]
      split_ifs
      · exact markDelivered_life _ _ k
      · rfl

end Kura.Server
