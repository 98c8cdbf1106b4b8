import Kura.Server.Protocol

/-!
# Reaping and live leases

A reap lists the expired leases, lets go of the database and comes back to
each job of the list later. It does not look at the lease again, so a lease
renewed in between is taken away all the same. What keeps reaps from doing
that is that no listed lease is renewed.
-/

namespace Kura.Server

open Kura.Base Kura.Transition

/-- Two rows of one running job with the same holder and the same deadline. -/
structure Job.Kept (j j' : Job) : Prop where
  running : j.state = .running
  attempts : j'.attempts = j.attempts
  worker : j'.worker = j.worker
  leaseUntil : j'.leaseUntil = j.leaseUntil

/-- Where the row of a running job comes from. -/
theorem running_of_step {env : Env} {set : Settings} {w : Coord} {a : Label}
    {out : Coord × Reply} {id : Nat} {j' : Job} (h : Stepped env set w a out)
    (hj' : out.1.job? id = some j') (hrun : j'.state = .running) :
    ∃ j, w.job? id = some j ∧ (j.Kept j' ∨ j.state = .queued ∨
      ∃ b now, a = .heartbeat b now ∧ id ∈ b.running ∧ j.state = .running ∧
        j.worker = some b.id ∧ j'.leaseUntil = some (now + set.leaseMs)) := by
  rcases row_of_step h hj' with ⟨j, hj, hchange⟩ | ⟨-, hnew, -⟩
  · refine ⟨j, hj, ?_⟩
    cases hchange with
    | same => exact Or.inl ⟨hrun, rfl, rfl, rfl⟩
    | lease worker now _ hqueued => exact Or.inr (Or.inl hqueued)
    | renew b now _ hmem hs hw => exact Or.inr (Or.inr ⟨b, now, rfl, hmem, hs, hw, rfl⟩)
    | finish _ state result now _ hopen hstate =>
        have hstate' : state = .running := hrun
        rw [hstate'] at hstate
        cases hstate
    | requeue => cases hrun
    | purge => exact Or.inl ⟨hrun, rfl, rfl, rfl⟩
    | release => exact Or.inl ⟨hrun, rfl, rfl, rfl⟩
    | deliver => exact Or.inl ⟨hrun, rfl, rfl, rfl⟩
  · cases hnew with
    | queued => cases hrun
    | cached => cases hrun

/-- The lease of a running job reaches to `asOf` at least. -/
def Job.Live (j : Job) (asOf : Int) : Prop :=
  j.state = .running ∧ ∃ t, j.leaseUntil = some t ∧ asOf ≤ t

/-- The job a reap comes to next keeps running for its holder if its lease is
live. -/
def Coord.SparesLive (w w' : Coord) : Prop :=
  ∀ asOf e todo j, w.reaping = some ⟨asOf, e :: todo⟩ → w.job? e.id = some j → j.Live asOf →
    ∃ j', w'.job? e.id = some j' ∧ j'.state = .running ∧ j'.worker = j.worker ∧
      j'.attempts = j.attempts

/-- A step that renews no lease on the list of an unfinished reap up to the
time of that reap or beyond. -/
def Quiet (set : Settings) (w : Coord) (a : Label) : Prop :=
  ∀ b now r e j, a = .heartbeat b now → w.reaping = some r → e ∈ r.todo → e.id ∈ b.running →
    w.job? e.id = some j → j.state = .running → j.worker = some b.id →
    now + set.leaseMs < r.now

/-- No lease on the list of a reap is live. -/
def Coord.ListExpired (w : Coord) : Prop :=
  ∀ r e j, w.reaping = some r → e ∈ r.todo → w.job? e.id = some j → ¬ j.Live r.now

variable {env : Env} {set : Settings}

/-- The list after a step is a new one or part of the old one. -/
theorem reaping_of_step {w w' : Coord} {a : Label} (h : StepCase set w w' a) {r' : Reaping}
    (hr' : w'.reaping = some r') :
    (∃ r, w.reaping = some r ∧ r'.now = r.now ∧ ∀ e ∈ r'.todo, e ∈ r.todo) ∨
      (w'.store = w.store ∧ r'.todo = expired w.store.db r'.now) := by
  cases h with
  | plain _ hmove hreap =>
      rcases hreap with heq | hnone
      · exact Or.inl ⟨r', heq ▸ hr', rfl, fun _ he => he⟩
      · cases hnone.symm.trans hr'
  | select now hstore hreap =>
      obtain rfl := Option.some.inj (hreap.symm.trans hr')
      exact Or.inr ⟨hstore, rfl⟩
  | giveUp asOf now e todo f updated hreap hmove hreap' =>
      rcases hreap' with heq | hnone
      · obtain rfl := Option.some.inj (heq.symm.trans hr')
        exact Or.inl ⟨_, hreap, rfl, fun _ he => List.mem_cons_of_mem _ he⟩
      · cases hnone.symm.trans hr'
  | requeue asOf now e todo f hreap hlt hstore hreap' =>
      obtain rfl := Option.some.inj (hreap'.symm.trans hr')
      exact Or.inl ⟨_, hreap, rfl, fun _ he => List.mem_cons_of_mem _ he⟩

theorem not_live_of_mem_expired {db : Table Job} {now : Int} {e : Expired} {j : Job}
    (he : e ∈ expired db now) (hj : db.get? e.id = some j) : ¬ j.Live now := by
  rintro ⟨-, t, ht, hle⟩
  obtain ⟨i, t', hi, -, ht', hlt, -⟩ := mem_expired he
  obtain rfl := Option.some.inj (hi.symm.trans hj)
  obtain rfl := Option.some.inj (ht'.symm.trans ht)
  omega

/-- A step that renews no listed lease brings none of them back to life. -/
theorem next_listExpired {w w' : Coord} {a : Label} (hok : w.ReapOk) (hw : w.ListExpired)
    (hquiet : Quiet set w a) (hn : next env set w a = some w') : w'.ListExpired := by
  obtain ⟨reply, hstep⟩ := stepped_of_next hn
  intro r' e j' hr' he hj' hlive
  rcases reaping_of_step (step_cases hstep) hr' with ⟨r, hr, hnow, hsub⟩ | ⟨hstore, htodo⟩
  · have hmem := hsub e he
    obtain ⟨j, hj, hfrom⟩ := running_of_step hstep hj' hlive.1
    rcases hfrom with hkept | hq | ⟨b, now, rfl, hbeat, hs, hwk, hlease⟩
    · apply hw r e j hr hmem hj
      obtain ⟨t, ht, hle⟩ := hlive.2
      exact ⟨hkept.running, t, hkept.leaseUntil ▸ ht, hnow ▸ hle⟩
    · have hfollows := hok.follows r hr e hmem
      have hlife : w.life e.id = .waiting j.attempts := by
        rw [Coord.life_of_job hj]
        simp [Job.life, hq]
      rw [hlife] at hfollows
      exact hfollows
    · have hlt := hquiet b now r e j rfl hr hmem hbeat hj hs hwk
      obtain ⟨t, ht, hle⟩ := hlive.2
      obtain rfl := Option.some.inj (hlease.symm.trans ht)
      omega
  · rw [htodo] at he
    rw [Coord.job?, hstore] at hj'
    exact not_live_of_mem_expired he hj' hlive

theorem runWhere_listExpired {as : List Label} {w : Coord}
    (h : RunWhere (next env set) (Quiet set) Coord.start as w) : w.ReapOk ∧ w.ListExpired := by
  refine h.invariant (I := fun w => w.ReapOk ∧ w.ListExpired) ?_ ⟨.of_none rfl, ?_⟩
  · rintro s a t ⟨hok, hexp⟩ hquiet hn
    exact ⟨next_reapOk hok hn, next_listExpired hok hexp hquiet hn⟩
  · intro r e j hr
    cases hr

/-- A reap that comes to a live lease, undisturbed, takes it away. -/
theorem reapNext_live {w w' : Coord} {asOf now : Int} {e : Expired} {todo : List Expired}
    {j : Job} (hreap : w.reaping = some ⟨asOf, e :: todo⟩) (hj : w.job? e.id = some j)
    (hlive : j.Live asOf) (hn : next env set w (.reapNext now .none true) = some w') :
    ∃ j', w'.job? e.id = some j' ∧ j'.state ≠ .running := by
  obtain ⟨reply, hstep⟩ := stepped_of_next hn
  generalize hout : (w', reply) = out at hstep
  cases hstep with
  | reapEnd _ asOf' f updated hup hreap' => cases hreap.symm.trans hreap'
  | reapNext _ asOf' f updated e' todo' hup hreap' =>
      obtain ⟨⟩ := Option.some.inj (hreap.symm.trans hreap')
      obtain rfl : w' = (Coord.reapOne env set { w with reaping := some ⟨asOf, todo⟩ } asOf e now
        .none true).1 := congrArg Prod.fst hout
      have hget : w.store.db.get? e.id = some j := hj
      have hopen : j.state.finished = false := by
        rw [hlive.1]
        rfl
      by_cases hmax : set.maxAttempts ≤ e.attempts
      · refine ⟨finishRow (finishedState env j.kind (lostResult e.attempts))
          (lostResult e.attempts) now j, ?_, ?_⟩
        · rw [Coord.reapOne, if_pos hmax, Coord.job?, Coord.finished_store]
          simp [finish, hget, hopen, Fault.stops, finishMoves, commitFinish, Table.get?_modify]
        · intro hrun
          have hfin := finishedState_finished env j.kind (lostResult e.attempts)
          have hstate : finishedState env j.kind (lostResult e.attempts) = .running := hrun
          rw [hstate] at hfin
          cases hfin
      · refine ⟨requeueRow asOf j, ?_, ?_⟩
        · rw [Coord.reapOne, if_neg hmax, if_pos rfl, Coord.job?]
          simp [requeue, Table.get?_modify, hget]
        · rw [requeueRow, if_pos hlive.1]
          simp

/-- In a run in which no listed lease is renewed before its reap comes to it,
reaps spare live leases. In any run, a reap that comes to a live lease and is
not disturbed takes it away. -/
theorem reap_spares_live (env : Env) (set : Settings) :
    (∀ as w now f updated w', RunWhere (next env set) (Quiet set) Coord.start as w →
      next env set w (.reapNext now f updated) = some w' → w.SparesLive w') ∧
    (∀ w w' asOf e todo j now, Reachable env set w → w.reaping = some ⟨asOf, e :: todo⟩ →
      w.job? e.id = some j → j.Live asOf → next env set w (.reapNext now .none true) = some w' →
      ¬ w.SparesLive w') := by
  constructor
  · intro as w now f updated w' hrun _ asOf e todo j hreap hj hlive
    obtain ⟨-, hexp⟩ := runWhere_listExpired hrun
    exact absurd hlive (hexp _ e j hreap List.mem_cons_self hj)
  · intro w w' asOf e todo j now _ hreap hj hlive hn hspares
    obtain ⟨j', hj', hstate⟩ := reapNext_live hreap hj hlive hn
    obtain ⟨i, hi, hrun, -⟩ := hspares asOf e todo j hreap hj hlive
    obtain rfl := Option.some.inj (hj'.symm.trans hi)
    exact hstate hrun

/-- A lease that ran out is listed by a reap. -/
def listedLate : List Label :=
  [.submit (.convert [1] false) 0 .smooth, .lease "w1" 10, .reapSelect 2000]

theorem listedLate_spared :
    ∃ w w', RunWhere (next Env.bare Settings.small) (Quiet Settings.small) Coord.start
        listedLate w ∧
      next Env.bare Settings.small w (.reapNext 2002 .none true) = some w' ∧
      w.SparesLive w' := by
  have hexec : ((exec (next Env.bare Settings.small) Coord.start listedLate).bind fun w =>
      next Env.bare Settings.small w (.reapNext 2002 .none true)).isSome = true := by
    decide
  obtain ⟨w', h⟩ := Option.isSome_iff_exists.mp hexec
  obtain ⟨w, hw, hw'⟩ := Option.bind_eq_some_iff.mp h
  have hrun : RunWhere (next Env.bare Settings.small) (Quiet Settings.small) Coord.start
      listedLate w := by
    refine runWhere_of_exec hw fun a ha s b now r e j heq => ?_
    subst heq
    simp [listedLate] at ha
  exact ⟨w, w', hrun, hw', (reap_spares_live _ _).1 _ w 2002 .none true w' hrun hw'⟩

/-- A lease that ran out, is listed by a reap and renewed by its holder. -/
def renewedLate : List Label := listedLate ++ [.heartbeat ⟨"w1", "w1", 1, [1], ""⟩ 2001]

/-- The renewed lease is taken away: the job goes back to the queue while its
holder works on it. -/
theorem reap_takes_renewed :
    ¬ ∀ as w now f updated w', Run (next Env.bare Settings.small) Coord.start as w →
      next Env.bare Settings.small w (.reapNext now f updated) = some w' → w.SparesLive w' := by
  intro hclaim
  have hexec : ((exec (next Env.bare Settings.small) Coord.start renewedLate).bind fun w =>
      w.reaping.bind fun r => r.todo.head?.bind fun e => (w.job? e.id).bind fun j =>
      (next Env.bare Settings.small w (.reapNext 2002 .none true)).map fun w' =>
        (r.now, j.state, j.leaseUntil, r.todo.length, (w'.job? e.id).map Job.state)) =
      some (2000, .running, some 3001, 1, some .queued) := by
    decide
  obtain ⟨w, hw, h⟩ := Option.bind_eq_some_iff.mp hexec
  obtain ⟨⟨asOf, todo⟩, hr, h⟩ := Option.bind_eq_some_iff.mp h
  obtain ⟨e, he, h⟩ := Option.bind_eq_some_iff.mp h
  obtain ⟨j, hj, h⟩ := Option.bind_eq_some_iff.mp h
  obtain ⟨w', hw', h⟩ := Option.map_eq_some_iff.mp h
  simp only [Prod.mk.injEq] at h
  obtain ⟨rfl, hs, ht, -, hs'⟩ := h
  obtain ⟨rest, rfl⟩ := List.head?_eq_some_iff.mp he
  obtain ⟨j', hj', hrun, -⟩ :=
      hclaim _ w 2002 .none true w' (run_of_exec hw) hw' 2000 e rest j hr hj
    ⟨hs, 3001, ht, by decide⟩
  simp [hj', hrun] at hs'

end Kura.Server
