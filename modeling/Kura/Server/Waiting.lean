import Kura.Server.Protocol

/-!
# How long jobs wait

A waiting job is not passed by later ones, and the earlier ones cannot keep it
waiting for ever: each of them has a number of tries, and every lease uses one of
them up.

The tries that are left of a job are read off its stage. No move adds to them,
and a lease takes one. A job waits throughout a run if it waits before and after
it with the same number of tries.
-/

namespace Kura.Server

open Kura.Base Kura.Transition

/-- The tries that are left of a job. -/
def Life.left (max : Nat) : Life → Nat
  | .unused => max
  | .waiting n | .held n _ => max - n
  | .ended .. | .gone => 0

/-- The job that an answer hands out. -/
def Reply.granted : Reply → List Nat
  | .lease (some m) => [m.id]
  | _ => []

/-- The jobs that a run hands out, in order. -/
def grants (env : Env) (set : Settings) : Coord → List Label → List Nat
  | _, [] => []
  | w, a :: as =>
      match step env set w a with
      | none => []
      | some (w', reply) => reply.granted ++ grants env set w' as

theorem Move.left_le {max : Nat} {grant : Bool} {l l' : Life} (h : Move max grant l l') :
    l'.left max ≤ l.left max := by
  cases h with
  | stay => exact le_rfl
  | submit => exact le_rfl
  | reuse => exact Nat.zero_le _
  | lease n => exact Nat.sub_le_sub_left (Nat.le_succ n) max
  | requeue => exact le_rfl
  | finish => exact Nat.zero_le _
  | abandon => exact Nat.zero_le _
  | forget => exact Nat.zero_le _

variable {env : Env} {set : Settings}

/-- A lease uses up one try of the job it hands out. -/
theorem left_of_lease {c : Store} {worker : String} {now : Int} {m : LeaseMeta}
    (h : (lease set c worker now).2 = some m)
    (hbound : (lifeOf c.db m.id).Bounded set.maxAttempts) :
    (lifeOf (lease set c worker now).1.db m.id).left set.maxAttempts + 1 =
      (lifeOf c.db m.id).left set.maxAttempts := by
  obtain ⟨j, hj, hqueued, -, hj'⟩ := lease_spec h
  have hlife : lifeOf c.db m.id = .waiting j.attempts := by
    rw [lifeOf_of_get? hj, Job.life, hqueued]
  have hlife' : lifeOf (lease set c worker now).1.db m.id =
      .held (j.attempts + 1) (some worker) := lifeOf_of_get? hj'
  rw [hlife] at hbound
  have hlt : j.attempts < set.maxAttempts := hbound
  rw [hlife, hlife', Life.left, Life.left]
  omega

theorem granted_submitted (w : Coord) (r : Request) (out : Store × SubmitReply) :
    (w.submitted r out).2.granted = [] := by
  unfold Coord.submitted
  split <;> rfl

theorem granted_finished (w : Coord) (id : Nat) (out : Store × FinishReply) :
    (w.finished id out).2.granted = [] := by
  unfold Coord.finished
  split <;> rfl

theorem granted_reapOne (w : Coord) (asOf : Int) (e : Expired) (now : Int)
    (f : Fault FinishPoint) (updated : Bool) :
    (w.reapOne env set asOf e now f updated).2.granted = [] := by
  unfold Coord.reapOne
  split_ifs
  · exact granted_finished _ _ _
  · rfl
  · rfl

/-- Only leases hand out jobs. -/
theorem granted_of_step {w : Coord} {a : Label} {out : Coord × Reply}
    (h : Stepped env set w a out) :
    out.2.granted = [] ∨ ∃ worker now m, (lease set w.store worker now).2 = some m ∧
      out.1.store = (lease set w.store worker now).1 ∧ out.2.granted = [m.id] := by
  cases h with
  | lease worker now =>
      cases hm : (lease set w.store worker now).2 with
      | none => exact Or.inl rfl
      | some m => exact Or.inr ⟨worker, now, m, hm, rfl, rfl⟩
  | submit => exact Or.inl (granted_submitted _ _ _)
  | unreadable => exact Or.inl (granted_finished _ _ _)
  | complete => exact Or.inl (granted_finished _ _ _)
  | reapNext => exact Or.inl (granted_reapOne _ _ _ _ _ _)
  | _ => exact Or.inl rfl

/-- A step hands out a job only with one of its tries. -/
theorem granted_le {w : Coord} {a : Label} {out : Coord × Reply} (hw : w.ReapOk)
    (hbound : ∀ id, (w.life id).Bounded set.maxAttempts) (h : step env set w a = some out)
    (id : Nat) :
    out.2.granted.count id + (out.1.life id).left set.maxAttempts ≤
      (w.life id).left set.maxAttempts := by
  have hstepped := stepped_of_step h
  have hle : (out.1.life id).left set.maxAttempts ≤ (w.life id).left set.maxAttempts :=
    (stepCase_moves hw (step_cases hstepped) id).left_le
  rcases granted_of_step hstepped with hnone | ⟨worker, now, m, hm, hstore, hgranted⟩
  · rw [hnone, List.count_nil, Nat.zero_add]
    exact hle
  · rw [hgranted]
    by_cases hid : m.id = id
    · subst hid
      have hone := left_of_lease hm (hbound m.id)
      rw [List.count_singleton_self, Nat.add_comm, Coord.life, hstore]
      exact hone.le
    · rw [List.count_singleton, if_neg (by simpa using hid), Nat.zero_add]
      exact hle

/-- A run hands out a job at most as often as it has tries left. -/
theorem count_grants_le {w w' : Coord} {as : List Label} (hw : w.ReapOk)
    (hmax : 0 < set.maxAttempts) (hbound : ∀ id, (w.life id).Bounded set.maxAttempts)
    (h : Run (next env set) w as w') (id : Nat) :
    (grants env set w as).count id + (w'.life id).left set.maxAttempts ≤
      (w.life id).left set.maxAttempts := by
  induction h with
  | nil => simp [grants]
  | @cons w t u a as hn _ _ ih =>
      obtain ⟨out, hstep, rfl⟩ := Option.map_eq_some_iff.mp hn
      have hone := granted_le hw hbound hstep id
      have hrest := ih (next_reapOk hw hn) fun id => (next_moves hw hn id).bounded hmax (hbound id)
      rw [grants, hstep]
      dsimp only
      rw [List.count_append]
      omega

theorem left_le {max : Nat} {l : Life} : l.left max ≤ max := by
  cases l with
  | unused => exact le_rfl
  | waiting n => exact Nat.sub_le max n
  | held n worker => exact Nat.sub_le max n
  | ended => exact Nat.zero_le _
  | gone => exact Nat.zero_le _

/-- A stage that comes after a waiting one and before the same one is the same one. -/
theorem Life.Later.waiting_between {l : Life} {n : Nat} {max : Nat} {grant : Bool}
    (h : Move max grant (.waiting n) l) (h' : l.Later (.waiting n)) : l = .waiting n := by
  cases h with
  | stay => rfl
  | lease =>
      rcases h' with h' | ⟨n', hn', hle⟩
      · cases h'
      · cases hn'
        omega
  | abandon =>
      rcases h' with h' | h'
      · cases h'
      · cases h'
  | forget => cases h'

/-- A job that waits is in the table. -/
theorem get?_of_waiting {db : Table Job} {id n : Nat} (h : lifeOf db id = .waiting n) :
    ∃ j, db.get? id = some j ∧ j.state = .queued := by
  unfold lifeOf at h
  split at h
  · rename_i j hj
    refine ⟨j, hj, ?_⟩
    unfold Job.life at h
    split at h
    · assumption
    all_goals cases h
  · split_ifs at h

/-- A lease hands out the oldest waiting job. -/
theorem lease_le {c : Store} {worker : String} {now : Int} {m : LeaseMeta}
    (h : (lease set c worker now).2 = some m) {id : Nat} {j : Job} (hj : c.db.get? id = some j)
    (hqueued : j.state = .queued) : m.id ≤ id := by
  unfold lease at h
  split at h
  · cases h
  · rename_i k j' hfirst
    obtain rfl := Option.some.inj h
    exact Table.le_of_first? hfirst hj (decide_eq_true hqueued)

/-- What is handed out while a job goes on waiting comes before it. -/
theorem granted_lt {w : Coord} {a : Label} {out : Coord × Reply} (h : step env set w a = some out)
    {id n : Nat} (hlife : w.life id = .waiting n) (hlife' : out.1.life id = .waiting n) {g : Nat}
    (hg : g ∈ out.2.granted) : g < id := by
  rcases granted_of_step (stepped_of_step h) with hnone | ⟨worker, now, m, hm, hstore, hgranted⟩
  · rw [hnone] at hg
    cases hg
  · rw [hgranted] at hg
    obtain rfl := List.mem_singleton.mp hg
    obtain ⟨j, hj, hqueued⟩ := get?_of_waiting hlife
    refine lt_of_le_of_ne (lease_le hm hj hqueued) fun hid => ?_
    -- The job itself would be held by the worker.
    obtain ⟨k, -, -, -, hk⟩ := lease_spec hm
    have hheld := lifeOf_of_get? hk
    rw [Coord.life, hstore, ← hid, hheld] at hlife'
    cases hlife'

/-- Only earlier jobs are granted while a job waits. -/
theorem mem_grants_lt {w w' : Coord} {as : List Label} (hw : w.ReapOk)
    (h : Run (next env set) w as w') {id n : Nat} (hlife : w.life id = .waiting n)
    (hlife' : w'.life id = .waiting n) {g : Nat} (hg : g ∈ grants env set w as) : g < id := by
  induction h with
  | nil => cases hg
  | @cons w t u a as hn _ htail ih =>
      obtain ⟨out, hstep, rfl⟩ := Option.map_eq_some_iff.mp hn
      have hok := next_reapOk hw hn
      have hlater := run_later hok htail id
      have hmove := next_moves hw hn id
      rw [hlife] at hmove
      rw [hlife'] at hlater
      have hbetween := hlater.waiting_between hmove
      rw [grants, hstep] at hg
      rcases List.mem_append.mp hg with hg | hg
      · exact granted_lt hstep hlife hbetween hg
      · exact ih hok hbetween hlife' hg

theorem life_zero {w : Coord} (h : Reachable env set w) : w.life 0 = .gone := by
  obtain ⟨as, hrun⟩ := h
  have hstart : Coord.start.life 0 = .gone := by
    simp [Coord.life, Coord.start, Store.empty, lifeOf]
  have hlater := run_later (.of_none rfl) hrun 0
  rw [hstart] at hlater
  exact hlater

/-- While a job waits, only earlier ones are handed out, and each of them at most as often as the
settings allow. -/
theorem waits_bounded (hmax : 1 ≤ set.maxAttempts) {w w' : Coord} {as : List Label}
    (hw : Reachable env set w) (h : Run (next env set) w as w') {id n : Nat}
    (hlife : w.life id = .waiting n) (hlife' : w'.life id = .waiting n) :
    (∀ g ∈ grants env set w as, g < id ∧ (grants env set w as).count g ≤ set.maxAttempts) ∧
      (grants env set w as).length ≤ set.maxAttempts * (id - 1) := by
  have hok := reachable_reapOk hw
  have hcount : ∀ g, (grants env set w as).count g ≤ (w.life g).left set.maxAttempts := by
    intro g
    have hle := count_grants_le hok hmax (reachable_bounded hmax hw) h g
    omega
  have hper : ∀ g, (grants env set w as).count g ≤ set.maxAttempts := fun g =>
    (hcount g).trans left_le
  have hearlier : ∀ g ∈ grants env set w as, g < id := fun g hg =>
    mem_grants_lt hok h hlife hlife' hg
  have hids : (grants env set w as).toFinset ⊆ Finset.Ico 1 id := by
    intro g hg
    have hmem := List.mem_toFinset.mp hg
    refine Finset.mem_Ico.mpr ⟨Nat.pos_of_ne_zero fun hzero => ?_, hearlier g hmem⟩
    have hpos := List.count_pos_iff.mpr hmem
    have hle := hcount g
    rw [hzero, life_zero hw, Life.left] at hle
    rw [hzero] at hpos
    omega
  refine ⟨fun g hg => ⟨hearlier g hg, hper g⟩, ?_⟩
  calc (grants env set w as).length
      = ∑ g ∈ (grants env set w as).toFinset, (grants env set w as).count g :=
        (List.sum_toFinset_count_eq_length _).symm
    _ ≤ ∑ _g ∈ Finset.Ico 1 id, set.maxAttempts :=
        (Finset.sum_le_sum fun g _ => hper g).trans (Finset.sum_le_sum_of_subset hids)
    _ = set.maxAttempts * (id - 1) := by
        rw [Finset.sum_const, Nat.card_Ico, smul_eq_mul, Nat.mul_comm]

/-- Two jobs are submitted. -/
def twoJobs : List Label :=
  [.submit (.convert [1] false) 0 .smooth, .submit (.convert [2] false) 1 .smooth]

theorem waits_bounded_twoJobs :
    ∃ w w', Reachable Env.bare Settings.small w ∧
      Run (next Env.bare Settings.small) w [.lease "w1" 10] w' ∧ w'.life 2 = .waiting 0 ∧
      (grants Env.bare Settings.small w [.lease "w1" 10]).length ≤
        Settings.small.maxAttempts * (2 - 1) := by
  have hrun : (exec (next Env.bare Settings.small) Coord.start twoJobs).bind (fun w =>
      (exec (next Env.bare Settings.small) w [.lease "w1" 10]).map fun w' =>
        (w.life 2, w'.life 2)) = some (.waiting 0, .waiting 0) := rfl
  obtain ⟨w, hw, hstep⟩ := Option.bind_eq_some_iff.mp hrun
  obtain ⟨w', hw', hlives⟩ := Option.map_eq_some_iff.mp hstep
  obtain ⟨hlife, hlife'⟩ := Prod.mk.inj hlives
  have hreach : Reachable Env.bare Settings.small w := ⟨_, run_of_exec hw⟩
  exact ⟨w, w', hreach, run_of_exec hw', hlife',
    (waits_bounded (by decide) hreach (run_of_exec hw') hlife hlife').2⟩

end Kura.Server
