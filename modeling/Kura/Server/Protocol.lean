import Kura.Server.Lifecycle

/-!
# The job protocol

From a fresh data directory, whatever the order of requests, background
loops, failures and restarts, every job follows the moves of its life: it
ends once, for the holder of its lease only, and is handed out at most as
often as the settings allow.
-/

namespace Kura.Server

open Kura.Base Kura.Transition

/-- What was remembered of an expired lease is still true of the job, or the
job has ended since. -/
def Expired.Follows (e : Expired) : Life → Prop
  | .held n worker => n = e.attempts ∧ worker = e.worker
  | .ended .. | .gone => True
  | .unused | .waiting _ => False

/-- Only going back to the queue makes a remembered lease untrue. -/
theorem Expired.Follows.move {e : Expired} {grant : Bool} {l l' : Life} (h : e.Follows l)
    (hm : Move 0 grant l l') : e.Follows l' := by
  cases hm with
  | stay => exact h
  | submit => exact h.elim
  | reuse => trivial
  | lease => exact h.elim
  | requeue n w hn => exact absurd hn (Nat.not_lt_zero n)
  | finish => trivial
  | abandon => trivial
  | forget => trivial

/-- The list of a reap names each job once, and what it says is still true. -/
structure Coord.ReapOk (w : Coord) : Prop where
  nodup : ∀ r, w.reaping = some r → (r.todo.map Expired.id).Nodup
  follows : ∀ r, w.reaping = some r → ∀ e ∈ r.todo, e.Follows (w.life e.id)

theorem mem_expired {db : Table Job} {now : Int} {e : Expired} (h : e ∈ expired db now) :
    ∃ j t, db.get? e.id = some j ∧ j.state = .running ∧ j.leaseUntil = some t ∧ t < now ∧
      e.attempts = j.attempts ∧ e.worker = j.worker := by
  obtain ⟨⟨id, j⟩, hmem, rfl⟩ := List.mem_map.mp h
  obtain ⟨hget, hp⟩ := (db.mem_select _).mp hmem
  simp only [Bool.and_eq_true, decide_eq_true_eq] at hp
  obtain ⟨hrun, hany⟩ := hp
  cases ht : j.leaseUntil with
  | none => simp [ht] at hany
  | some t =>
      simp only [ht, Option.any_some, decide_eq_true_eq] at hany
      exact ⟨j, t, hget, hrun, ht, hany, rfl, rfl⟩

theorem nodup_expired (db : Table Job) (now : Int) : ((expired db now).map Expired.id).Nodup := by
  simp only [expired, List.map_map]
  exact Table.nodup_select _ _

theorem follows_expired {db : Table Job} {now : Int} {e : Expired} (h : e ∈ expired db now) :
    e.Follows (lifeOf db e.id) := by
  obtain ⟨j, t, hget, hrun, -, -, hatt, hw⟩ := mem_expired h
  have hlife : lifeOf db e.id = .held j.attempts j.worker := by
    rw [lifeOf_of_get? hget]
    simp [Job.life, hrun]
  rw [hlife]
  exact ⟨hatt.symm, hw.symm⟩

theorem Coord.ReapOk.of_none {w : Coord} (h : w.reaping = none) : w.ReapOk := by
  constructor
  · intro r hr
    cases h.symm.trans hr
  · intro r hr
    cases h.symm.trans hr

/-- A step that requeues nothing keeps a reap with a shorter list. -/
theorem Coord.ReapOk.plain {w w' : Coord} {grant : Bool} (h : w.ReapOk)
    (hmove : ∀ id, Move 0 grant (w.life id) (w'.life id))
    (hreap : ∀ r', w'.reaping = some r' → ∃ r, w.reaping = some r ∧ r'.todo.Sublist r.todo) :
    w'.ReapOk := by
  constructor
  · intro r' hr'
    obtain ⟨r, hr, hsub⟩ := hreap r' hr'
    exact (h.nodup r hr).sublist (hsub.map _)
  · intro r' hr' e he
    obtain ⟨r, hr, hsub⟩ := hreap r' hr'
    exact (h.follows r hr e (hsub.subset he)).move (hmove e.id)

/-- Every step keeps what the reaper has noted right. -/
theorem stepCase_reapOk {set : Settings} {w w' : Coord} {a : Label} (h : w.ReapOk)
    (hcase : StepCase set w w' a) : w'.ReapOk := by
  cases hcase with
  | plain _ hmove hreap =>
      refine h.plain hmove fun r' hr' => ?_
      rcases hreap with heq | hnone
      · exact ⟨r', heq ▸ hr', List.Sublist.refl _⟩
      · cases hnone.symm.trans hr'
  | select now hstore hreap =>
      constructor
      · intro r hr
        obtain rfl := Option.some.inj (hreap.symm.trans hr)
        exact nodup_expired _ _
      · intro r hr e he
        obtain rfl := Option.some.inj (hreap.symm.trans hr)
        rw [Coord.life, hstore]
        exact follows_expired he
  | giveUp asOf now e todo f updated hreap hmove hreap' =>
      refine h.plain hmove fun r' hr' => ?_
      rcases hreap' with heq | hnone
      · obtain rfl := Option.some.inj (heq.symm.trans hr')
        exact ⟨_, hreap, List.sublist_cons_self e todo⟩
      · cases hnone.symm.trans hr'
  | requeue asOf now e todo f hreap hlt hstore hreap' =>
      have hnodup := h.nodup _ hreap
      obtain ⟨hnotin, htail⟩ := List.nodup_cons.mp hnodup
      constructor
      · intro r' hr'
        obtain rfl := Option.some.inj (hreap'.symm.trans hr')
        exact htail
      · intro r' hr' e' he'
        obtain rfl := Option.some.inj (hreap'.symm.trans hr')
        have hne : e'.id ≠ e.id := by
          intro heq
          exact hnotin (heq ▸ List.mem_map_of_mem he')
        have hsame : w'.life e'.id = w.life e'.id := by
          rw [Coord.life, hstore]
          exact lifeOf_modify_ne _ hne
        rw [hsame]
        exact h.follows _ hreap e' (List.mem_cons_of_mem _ he')

/-- Every step moves every job by at most one move of its life. -/
theorem stepCase_moves {set : Settings} {w w' : Coord} {a : Label} (h : w.ReapOk)
    (hcase : StepCase set w w' a) (id : Nat) :
    Move set.maxAttempts a.grants (w.life id) (w'.life id) := by
  cases hcase with
  | plain _ hmove => exact (hmove id).mono
  | select now hstore =>
      rw [Coord.life, Coord.life, hstore]
      exact .stay _
  | giveUp asOf now e todo f updated hreap hmove => exact (hmove id).mono
  | requeue asOf now e todo f hreap hlt hstore =>
      rw [Coord.life, Coord.life, hstore]
      apply requeue_moves
      intro j hget hrun
      have hfollows := h.follows _ hreap e List.mem_cons_self
      have hlife : w.life e.id = .held j.attempts j.worker := by
        rw [Coord.life, lifeOf_of_get? hget]
        simp [Job.life, hrun]
      rw [hlife] at hfollows
      rw [hfollows.1]
      exact hlt

variable {env : Env} {set : Settings}

theorem next_reapOk {w w' : Coord} {a : Label} (h : w.ReapOk) (hn : next env set w a = some w') :
    w'.ReapOk := by
  obtain ⟨reply, hstep⟩ := stepped_of_next hn
  exact stepCase_reapOk h (step_cases hstep)

theorem next_moves {w w' : Coord} {a : Label} (h : w.ReapOk) (hn : next env set w a = some w')
    (id : Nat) : Move set.maxAttempts a.grants (w.life id) (w'.life id) := by
  obtain ⟨reply, hstep⟩ := stepped_of_next hn
  exact stepCase_moves h (step_cases hstep) id

theorem reachable_reapOk {w : Coord} (h : Reachable env set w) : w.ReapOk := by
  obtain ⟨as, hrun⟩ := h
  have hstart : Coord.start.ReapOk := .of_none rfl
  exact hrun.invariant (fun _ _ _ hs _ hn => next_reapOk hs hn) hstart

/-- A run from a reachable state takes every job to a later stage. -/
theorem run_later {w w' : Coord} {as : List Label} (hw : w.ReapOk)
    (h : Run (next env set) w as w') (id : Nat) : (w.life id).Later (w'.life id) := by
  have hrel := h.related (I := Coord.ReapOk) (R := fun s t => (s.life id).Later (t.life id))
  apply hrel
  · exact fun _ => Life.Later.refl _
  · exact fun _ _ _ h₁ h₂ => h₁.trans h₂
  · exact fun _ _ _ hs _ hn => next_reapOk hs hn
  · exact fun _ _ _ hs _ hn => (next_moves hs hn id).later
  · exact hw

theorem lifeOf_start (id : Nat) : Coord.start.life id = .unused ∨ Coord.start.life id = .gone := by
  simp only [Coord.life, Coord.start, Store.empty, lifeOf]
  by_cases h : id ≤ (Table.empty : Table Job).seq
  · exact Or.inr (by simp [h])
  · exact Or.inl (by simp [h])

/-- With at least one try allowed, no job is handed out more often. -/
theorem reachable_bounded (hmax : 1 ≤ set.maxAttempts) {w : Coord} (h : Reachable env set w)
    (id : Nat) : (w.life id).Bounded set.maxAttempts := by
  obtain ⟨as, hrun⟩ := h
  have hinv := hrun.invariant
    (I := fun s => s.ReapOk ∧ (s.life id).Bounded set.maxAttempts)
  refine (hinv ?_ ⟨.of_none rfl, ?_⟩).2
  · rintro s a t ⟨hok, hb⟩ - hn
    exact ⟨next_reapOk hok hn, (next_moves hok hn id).bounded hmax hb⟩
  · rcases lifeOf_start id with h | h <;> rw [h] <;> trivial

theorem Coord.life_of_job {w : Coord} {id : Nat} {j : Job} (h : w.job? id = some j) :
    w.life id = j.life :=
  lifeOf_of_get? h

/-- What a finished job is recorded as stays recorded. -/
theorem finished_of_run {w w' : Coord} {as : List Label} {id : Nat} {j j' : Job}
    (hw : w.ReapOk) (hrun : Run (next env set) w as w') (hj : w.job? id = some j)
    (hfin : j.state.finished = true) (hj' : w'.job? id = some j') :
    j'.state = j.state ∧ j'.result = j.result := by
  have hlater := run_later hw hrun id
  rw [Coord.life_of_job hj, Coord.life_of_job hj', Job.life_finished hfin] at hlater
  rcases hlater with heq | hgone
  · unfold Job.life at heq
    split at heq
    · cases heq
    · cases heq
    · injection heq with _ hs hr
      exact ⟨‹j'.state = _›.trans hs, hr⟩
    · injection heq with _ hs hr
      exact ⟨‹j'.state = _›.trans hs, hr⟩
  · have hatt := j'.attempts_life
    rw [hgone] at hatt
    cases hatt

theorem attempts_le_of_run {w w' : Coord} {as : List Label} {id : Nat} {j j' : Job}
    (hw : w.ReapOk) (hrun : Run (next env set) w as w') (hj : w.job? id = some j)
    (hj' : w'.job? id = some j') : j.attempts ≤ j'.attempts := by
  have hlater := run_later hw hrun id
  rw [Coord.life_of_job hj, Coord.life_of_job hj'] at hlater
  exact hlater.attempts_le j.attempts_life j'.attempts_life

theorem attempts_le_max (hmax : 1 ≤ set.maxAttempts) {w : Coord} (hw : Reachable env set w)
    {id : Nat} {j : Job} (hj : w.job? id = some j) : j.attempts ≤ set.maxAttempts := by
  have hb := reachable_bounded hmax hw id
  rw [Coord.life_of_job hj] at hb
  unfold Job.life at hb
  split at hb
  · exact Nat.le_of_lt hb
  · exact hb
  · exact hb
  · exact hb

/-- A job that appears was not handed out yet. -/
theorem attempts_zero_of_new {w w' : Coord} {a : Label} {id : Nat} {j' : Job} (hw : w.ReapOk)
    (hn : next env set w a = some w') (hj : w.job? id = none) (hj' : w'.job? id = some j') :
    j'.attempts = 0 := by
  have hatt := j'.attempts_life
  rw [← Coord.life_of_job hj'] at hatt
  have hlife : w.life id = .gone ∨ w.life id = .unused := by
    have hget : w.store.db.get? id = none := hj
    simp only [Coord.life, lifeOf, hget]
    by_cases hle : id ≤ w.store.db.seq
    · exact Or.inl (if_pos hle)
    · exact Or.inr (if_neg hle)
  have hmove := next_moves hw hn id
  rcases hlife with h | h
  · rw [h] at hmove
    have hgone : w'.life id = .gone := hmove.later
    rw [hgone] at hatt
    cases hatt
  · rw [h] at hmove
    generalize w'.life id = l' at hmove hatt
    cases hmove with
    | stay => cases hatt
    | submit => exact (Option.some.inj hatt).symm
    | reuse => exact (Option.some.inj hatt).symm
    | forget => cases hatt

/-- A lease gives out one waiting job, under the next attempt. -/
theorem lease_spec {c : Store} {worker : String} {now : Int} {m : LeaseMeta}
    (h : (lease set c worker now).2 = some m) :
    ∃ j, c.db.get? m.id = some j ∧ j.state = .queued ∧ m.attempt = j.attempts + 1 ∧
      (lease set c worker now).1.db.get? m.id = some (leaseRow set worker now j) := by
  unfold lease at h ⊢
  split at h
  · cases h
  · rename_i id j hfirst
    obtain ⟨hget, hq⟩ := Table.get?_of_first? hfirst
    obtain rfl := Option.some.inj h
    refine ⟨j, hget, by simpa using hq, rfl, ?_⟩
    simp only [Table.get?_modify, if_true, hget, Option.map_some]

/-- A lease changes the row of the job it gives out only. -/
theorem lease_others {c : Store} {worker : String} {now : Int} {id : Nat}
    (h : ∀ m, (lease set c worker now).2 = some m → m.id ≠ id) :
    (lease set c worker now).1.db.get? id = c.db.get? id := by
  unfold lease at h ⊢
  split
  · rfl
  · rename_i k j hfirst
    have hne : k ≠ id := by
      rw [hfirst] at h
      exact h _ rfl
    simp only [Table.get?_modify, if_neg (Ne.symm hne)]

/-- The count of a job changes with its own leases only. -/
theorem attempts_of_step {w : Coord} {out : Coord × Reply} {a : Label} {id : Nat} {j j' : Job}
    (hw : w.ReapOk) (hstep : step env set w a = some out) (hj : w.job? id = some j)
    (hj' : out.1.job? id = some j') :
    j'.attempts = j.attempts ∨
      ∃ worker now m, a = .lease worker now ∧ out.2 = .lease (some m) ∧ m.id = id ∧
        j'.attempts = j.attempts + 1 := by
  have hstepped := stepped_of_step hstep
  have hmove := stepCase_moves hw (step_cases hstepped) id
  have hn : (w.life id).attempts = some j.attempts := by
    rw [Coord.life_of_job hj, j.attempts_life]
  have hn' : (out.1.life id).attempts = some j'.attempts := by
    rw [Coord.life_of_job hj', j'.attempts_life]
  rcases hmove.attempts_cases hn hn' with heq | ⟨hgrant, -, hsucc⟩
  · exact Or.inl heq
  · cases hstepped with
    | lease worker now =>
        cases hm : (lease set w.store worker now).2 with
        | none =>
            have hne : ∀ m, (lease set w.store worker now).2 = some m → m.id ≠ id := by
              simp [hm]
            have hget : (lease set w.store worker now).1.db.get? id = some j' := hj'
            rw [lease_others hne] at hget
            exact Or.inl (congrArg Job.attempts (Option.some.inj (hget.symm.trans hj)))
        | some m =>
            by_cases hid : m.id = id
            · exact Or.inr ⟨worker, now, m, rfl, rfl, hid, hsucc⟩
            · have hne : ∀ m', (lease set w.store worker now).2 = some m' → m'.id ≠ id := by
                intro m' hm'
                obtain rfl := Option.some.inj (hm.symm.trans hm')
                exact hid
              have hget : (lease set w.store worker now).1.db.get? id = some j' := hj'
              rw [lease_others hne] at hget
              exact Or.inl (congrArg Job.attempts (Option.some.inj (hget.symm.trans hj)))
    | _ => cases hgrant

/-- A job is open before a step and finished after it. -/
def Coord.Ends (w w' : Coord) (id : Nat) : Prop :=
  (∃ j, w.job? id = some j ∧ j.state.finished = false) ∧
    ∃ j, w'.job? id = some j ∧ j.state.finished = true

theorem Coord.finished_reply (w : Coord) (id : Nat) (out : Store × FinishReply) :
    (w.finished id out).2 = .finish out.2 := by
  unfold Coord.finished
  split <;> rename_i h <;> rw [h]

/-- A completion sent by a worker leaves the row alone and is not accepted, or
it comes from the holder of the lease and ends the job. -/
theorem complete_cases {w : Coord} {out : Coord × Reply} {id : Nat} {attempt : Int}
    {worker : String}
    {result : RunResult} {staging : Dir} {names : List String} {now : Int}
    {f : Fault FinishPoint}
    (h : step env set w (.complete id attempt worker result staging names now f) = some out) :
    (out.1.store.db = w.store.db ∧ ∀ s, out.2 ≠ .finish (.accepted s)) ∨
      ∃ j, w.job? id = some j ∧ holdsRow j attempt worker = true ∧ w.Ends out.1 id := by
  cases stepped_of_step h with
  | complete _ _ _ _ _ _ _ _ hup =>
      have hcase := finish_cases env w.store id result (some (staging, names))
        (some (attempt, worker)) now f
      rw [Coord.finished_store, Coord.finished_reply]
      unfold Coord.Ends Coord.job?
      rw [Coord.finished_store]
      generalize finish env w.store id result (some (staging, names)) (some (attempt, worker)) now
        f = out at hcase
      cases hcase with
      | refused c' fr hgrown _ hreply =>
          refine Or.inl ⟨hgrown.db, fun s heq => hreply s ?_⟩
          injection heq
      | recorded j c' fr hget hopen hholds =>
          refine Or.inr ⟨j, hget, hholds attempt worker rfl, ⟨j, hget, hopen⟩, ?_⟩
          refine ⟨finishRow (finishedState env j.kind result) result now j, ?_, ?_⟩
          · simp only [Table.get?_modify, if_true, hget, Option.map_some]
          · exact finishedState_finished env j.kind result

theorem holdsRow_iff {j : Job} {attempt : Int} {worker : String} :
    holdsRow j attempt worker = true ↔
      j.state = .running ∧ j.worker = some worker ∧ (j.attempts : Int) = attempt := by
  simp only [holdsRow, Bool.and_eq_true, decide_eq_true_eq]
  constructor
  · rintro ⟨⟨ha, hw⟩, hs⟩
    exact ⟨hs, hw, ha⟩
  · rintro ⟨hs, hw, ha⟩
    exact ⟨⟨ha, hw⟩, hs⟩

/-- After a job has ended it does not end again. -/
theorem not_ends_again {w w' u u' : Coord} {as : List Label} {id : Nat} (hw : w'.ReapOk)
    (hends : w.Ends w' id) (hrun : Run (next env set) w' as u) : ¬ u.Ends u' id := by
  rintro ⟨⟨k, hk, hopen⟩, -⟩
  obtain ⟨-, j, hj, hfin⟩ := hends
  have hstate := (finished_of_run hw hrun hj hfin hk).1
  rw [hstate, hfin] at hopen
  cases hopen

/-- What the queue promises about its jobs in a state. -/
structure Coord.Protocol (env : Env) (set : Settings) (w : Coord) : Prop where
  /-- The state and the result of a finished job never change. -/
  final : ∀ id j, w.job? id = some j → j.state.finished = true →
    ∀ as w' j', Run (next env set) w as w' → w'.job? id = some j' →
      j'.state = j.state ∧ j'.result = j.result
  /-- A job ends at most once, whoever ends it. -/
  ends_once : ∀ a w' id, next env set w a = some w' → w.Ends w' id →
    ∀ as u b u', Run (next env set) w' as u → next env set u b = some u' → ¬ u.Ends u' id
  /-- A completion that is accepted, or that is recorded before its answer is
  lost, comes from the holder of the lease and ends the job. -/
  fenced : ∀ id attempt worker result staging names now f w' reply,
    step env set w (.complete id attempt worker result staging names now f) = some (w', reply) →
    (w.Ends w' id ∨ ∃ s, reply = .finish (.accepted s)) →
    w.Ends w' id ∧ ∃ j, w.job? id = some j ∧ j.state = .running ∧ j.worker = some worker ∧
      (j.attempts : Int) = attempt
  /-- After an accepted completion no other one of the same job is accepted. -/
  accepted_once : ∀ id attempt worker result staging names now f w' s,
    step env set w (.complete id attempt worker result staging names now f) =
      some (w', .finish (.accepted s)) →
    ∀ as u, Run (next env set) w' as u →
    ∀ attempt' worker' result' staging' names' now' f' u' s',
      step env set u (.complete id attempt' worker' result' staging' names' now' f') ≠
        some (u', .finish (.accepted s'))
  /-- A completion of another attempt than the current one is refused. -/
  outdated : ∀ id j attempt worker result staging names now f w' reply,
    w.job? id = some j → attempt ≠ (j.attempts : Int) →
    step env set w (.complete id attempt worker result staging names now f) = some (w', reply) →
    (∀ s, reply ≠ .finish (.accepted s)) ∧ w'.job? id = some j
  /-- A job is handed out at most as often as the settings allow. -/
  attempts_le : ∀ id j, w.job? id = some j → j.attempts ≤ set.maxAttempts
  /-- A job starts without attempts. -/
  attempts_new : ∀ id j' a w', next env set w a = some w' → w.job? id = none →
    w'.job? id = some j' → j'.attempts = 0
  /-- The attempts of a job never decrease. -/
  attempts_mono : ∀ id j as w' j', w.job? id = some j → Run (next env set) w as w' →
    w'.job? id = some j' → j.attempts ≤ j'.attempts
  /-- No step but a lease of the job itself changes its attempts. -/
  attempts_step : ∀ id j a w' reply j', w.job? id = some j →
    step env set w a = some (w', reply) → w'.job? id = some j' →
    j'.attempts = j.attempts ∨
      ∃ worker now m, a = .lease worker now ∧ reply = .lease (some m) ∧ m.id = id ∧
        j'.attempts = j.attempts + 1
  /-- A lease hands out a queued job and counts one attempt. -/
  lease_queued : ∀ worker now w' m,
    step env set w (.lease worker now) = some (w', .lease (some m)) →
    ∃ j j', w.job? m.id = some j ∧ j.state = .queued ∧ w'.job? m.id = some j' ∧
      j'.state = .running ∧ j'.worker = some worker ∧ j'.attempts = j.attempts + 1 ∧
      m.attempt = j'.attempts

/-- Every reachable state keeps the promises of the queue, whatever the order
of requests, loops, failures and restarts that led to it. -/
theorem reachable_protocol (hmax : 1 ≤ set.maxAttempts) {w : Coord}
    (hw : Reachable env set w) : w.Protocol env set := by
  have hreap := reachable_reapOk hw
  have hnext : ∀ {a w' reply}, step env set w a = some (w', reply) →
      next env set w a = some w' := by
    intro a w' reply h
    simp [next, h]
  constructor
  case final =>
    intro id j hj hfin as w' j' hrun hj'
    exact finished_of_run hreap hrun hj hfin hj'
  case ends_once =>
    intro a w' id hn hends as u b u' hrun _
    exact not_ends_again (next_reapOk hreap hn) hends hrun
  case fenced =>
    intro id attempt worker result staging names now f w' reply hstep hor
    rcases complete_cases hstep with ⟨hsame, hnot⟩ | ⟨j, hj, hholds, hends⟩
    · rcases hor with ⟨⟨j, hj, hopen⟩, j', hj', hfin⟩ | ⟨s, hs⟩
      · rw [Coord.job?, hsame] at hj'
        obtain rfl := Option.some.inj (hj.symm.trans hj')
        rw [hfin] at hopen
        cases hopen
      · exact absurd hs (hnot s)
    · exact ⟨hends, j, hj, holdsRow_iff.mp hholds⟩
  case accepted_once =>
    intro id attempt worker result staging names now f w' s hstep as u hrun
      attempt' worker' result' staging' names' now' f' u' s' hstep'
    rcases complete_cases hstep with ⟨-, hnot⟩ | ⟨-, -, -, hends⟩
    · exact hnot s rfl
    · rcases complete_cases hstep' with ⟨-, hnot⟩ | ⟨-, -, -, hends'⟩
      · exact hnot s' rfl
      · exact not_ends_again (next_reapOk hreap (hnext hstep)) hends hrun hends'
  case outdated =>
    intro id j attempt worker result staging names now f w' reply hj hne hstep
    rcases complete_cases hstep with ⟨hsame, hnot⟩ | ⟨k, hk, hholds, -⟩
    · exact ⟨hnot, by rw [Coord.job?, hsame]; exact hj⟩
    · obtain rfl := Option.some.inj (hj.symm.trans hk)
      exact absurd (holdsRow_iff.mp hholds).2.2.symm hne
  case attempts_le =>
    intro id j hj
    exact attempts_le_max hmax hw hj
  case attempts_new =>
    intro id j' a w' hn hj hj'
    exact attempts_zero_of_new hreap hn hj hj'
  case attempts_mono =>
    intro id j as w' j' hj hrun hj'
    exact attempts_le_of_run hreap hrun hj hj'
  case attempts_step =>
    intro id j a w' reply j' hj hstep hj'
    exact attempts_of_step hreap hstep hj hj'
  case lease_queued =>
    intro worker now w' m hstep
    have hstepped := stepped_of_step hstep
    generalize hout : (w', Reply.lease (some m)) = out at hstepped
    cases hstepped with
    | lease _ _ hup =>
        injection hout with hw' hreply
        injection hreply with hm
        obtain ⟨j, hget, hq, hatt, hrow⟩ := lease_spec hm.symm
        refine ⟨j, leaseRow set worker now j, hget, hq, ?_, rfl, rfl, rfl, hatt⟩
        rw [hw']
        exact hrow

/-- A job whose first worker went quiet, ended by the second. -/
def handedOver : List Label :=
  [.submit (.convert [1] false) 0 .smooth, .lease "w1" 10, .served 1, .reapSelect 2000,
    .reapNext 2000 .none true, .lease "w2" 3000,
    .complete 1 1 "w1" .success [("out.pdf", [2])] ["out.pdf"] 3100 .none,
    .complete 1 2 "w2" .success [("out.pdf", [3])] ["out.pdf"] 3200 .none]

theorem handedOver_protocol :
    ∃ w, Reachable Env.bare Settings.small w ∧
      ((w.job? 1).map fun j => (j.state, j.attempts)) = some (.done, 2) ∧
      w.Protocol Env.bare Settings.small := by
  have hrun : (exec (next Env.bare Settings.small) Coord.start handedOver).bind
      (fun w => (w.job? 1).map fun j => (j.state, j.attempts)) = some (.done, 2) := by
    decide
  obtain ⟨w, hw, hjob⟩ := Option.bind_eq_some_iff.mp hrun
  have hreach : Reachable Env.bare Settings.small w := ⟨_, run_of_exec hw⟩
  exact ⟨w, hreach, hjob, reachable_protocol (by decide) hreach⟩

end Kura.Server
