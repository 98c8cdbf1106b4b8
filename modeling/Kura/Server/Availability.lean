import Kura.Server.Accepted
import Kura.Server.Protocol

/-!
# Submission stays available

A submission renames its directory to the place of the next job before the
row of that job is committed. SQLite gives the id out again when the
transaction is rolled back; the directory stays. From then on every rename
to that place fails.
-/

namespace Kura.Server

open Kura.Base Kura.Transition

/-- A submission that is cut after the rename of its directory and before its
commit, and whose directory is not removed. -/
def Strands (env : Env) (set : Settings) (c : Store) (r : Request) (io : SubmitIo) : Prop :=
  ∃ hash, requestHash env r = some hash ∧ r.hasRoom set c ∧ io.strands c r hash = true

/-- A step that is not such a submission. -/
def Unstranded (env : Env) (set : Settings) (w : Coord) (a : Label) : Prop :=
  ∀ r now io, a = .submit r now io → ¬ Strands env set w.store r io

/-- No directory with files lies beyond the jobs of the table. -/
def Store.Clear (c : Store) : Prop :=
  ∀ k, c.db.seq < k → c.jobs k = none ∨ c.jobs k = some []

theorem Store.Clear.free {c : Store} (h : c.Clear) : c.Free :=
  h c.db.nextId (Nat.lt_succ_self _)

/-- Emptying and touching known jobs keeps the rest clear. -/
theorem Store.Clear.of_jobs {c c' : Store} (h : c.Clear) (hseq : c'.db.seq = c.db.seq)
    (hjobs : ∀ k, c.db.seq < k → c'.jobs k = c.jobs k ∨ c'.jobs k = none) : c'.Clear := by
  intro k hk
  rw [hseq] at hk
  rcases hjobs k hk with heq | hnone
  · rw [heq]
    exact h k hk
  · exact Or.inl hnone

theorem Store.Clear.setDir_none {c : Store} (h : c.Clear) (id : Nat) :
    (c.setDir id none).Clear := by
  refine h.of_jobs rfl fun k _ => ?_
  by_cases hk : k = id
  · subst hk
    exact Or.inr (c.setDir_jobs_self _ _)
  · exact Or.inl (c.setDir_jobs_ne _ hk)

/-- A committed submission fills its own place only. -/
theorem Store.Clear.insert {c : Store} (h : c.Clear) (d : Option Dir) (row : Job) :
    Store.Clear { c.setDir c.db.nextId d with db := c.db.insert row } := by
  intro k hk
  have hlt : c.db.seq < k ∧ k ≠ c.db.nextId := by
    simp only [Table.seq_insert, Table.nextId] at hk ⊢
    omega
  have hjobs : (c.setDir c.db.nextId d).jobs k = c.jobs k := c.setDir_jobs_ne _ hlt.2
  exact hjobs ▸ h k hlt.1

variable {env : Env} {set : Settings}

theorem submit_clear {c : Store} {r : Request} {now : Int} {io : SubmitIo} (h : c.Clear)
    (hcut : ¬ Strands env set c r io) : (submit env set c r now io).1.Clear := by
  have hcase := submit_cases env set c r now io
  generalize submit env set c r now io = out at hcase
  cases hcase with
  | unchanged => exact h
  | undone => exact h.setDir_none _
  | stranded hash d reply hhash hroom hfree hstr => exact absurd ⟨hash, hhash, hroom, hstr⟩ hcut
  | queued => exact h.insert _ _
  | cached => exact h.insert _ _

/-- To finish a job keeps what lies beyond the table clear. -/
theorem finish_clear {c : Store} {k : Nat} {result : RunResult}
    {staged : Option (Dir × List String)} {attempt : Option (Int × String)} {now : Int}
    {f : Fault FinishPoint} (h : c.Clear) :
    (finish env c k result staged attempt now f).1.Clear := by
  have hgrown : ∀ (c' : Store) (j : Job), c.db.get? k = some j → c.Grown k c' →
      ∀ i, c.db.seq < i → c'.jobs i = c.jobs i := by
    intro c' j hget hg i hi
    have hle := Table.le_seq_of_get? hget
    exact hg.others i (by omega)
  have hcase := finish_cases env c k result staged attempt now f
  generalize finish env c k result staged attempt now f = out at hcase
  cases hcase with
  | refused c' reply hg hrow =>
      rcases hrow with rfl | ⟨j, hget⟩
      · exact h
      · exact h.of_jobs (by rw [hg.db]) fun i hi => Or.inl (hgrown c' j hget hg i hi)
  | recorded j c' reply hget hopen hholds hg =>
      refine h.of_jobs (by simp) fun i hi => Or.inl (hgrown c' j hget hg i hi)

theorem release_clear {c : Store} {k : Nat} {readable marked : Bool} (h : c.Clear) :
    (release c k readable marked).Clear := by
  have hfiles : (if keepsFiles c.db k readable = true then c else c.setDir k none).Clear := by
    split_ifs
    · exact h
    · exact h.setDir_none k
  simp only [release]
  generalize (if keepsFiles c.db k readable = true then c else c.setDir k none) = c' at hfiles ⊢
  by_cases hm : marked = true
  · rw [if_pos hm]
    exact hfiles.of_jobs (by simp) fun _ _ => Or.inl rfl
  · rw [if_neg hm]
    exact hfiles

/-- The places beyond the table stay clear as long as no submission strands. -/
theorem next_clear {w w' : Coord} {a : Label} (h : w.store.Clear) (hok : Unstranded env set w a)
    (hn : next env set w a = some w') : w'.store.Clear := by
  obtain ⟨reply, hstep⟩ := stepped_of_next hn
  generalize hout : (w', reply) = out at hstep
  obtain rfl : w' = out.1 := congrArg Prod.fst hout
  clear hout hn
  cases hstep with
  | «open» => exact h
  | kill => exact h
  | submit r now io =>
      rw [Coord.submitted_store]
      exact submit_clear h (hok r now io rfl)
  | lease worker now =>
      simp only [lease]
      split
      · exact h
      · exact h.of_jobs (by simp) fun _ _ => Or.inl rfl
  | served => exact h
  | unreadable id err now f =>
      rw [Coord.finished_store]
      exact finish_clear h
  | heartbeat b now =>
      refine h.of_jobs ?_ fun _ _ => Or.inl rfl
      exact heartbeat_seq _ _ _ _
  | complete id attempt worker result staging names now f =>
      rw [Coord.finished_store]
      exact finish_clear h
  | reapSelect => exact h
  | reapEnd => exact h
  | reapNext now asOf f updated e todo =>
      unfold Coord.reapOne
      split_ifs
      · rw [Coord.finished_store]
        exact finish_clear h
      · exact h.of_jobs (by simp [requeue]) fun _ _ => Or.inl rfl
      · exact h
  | janitorSelect => exact h
  | janitorRemove ok id todo =>
      cases ok with
      | true => exact h.setDir_none id
      | false => exact h
  | janitorMark ok id todo =>
      cases ok with
      | true => exact h.of_jobs (by simp [markPurged]) fun _ _ => Or.inl rfl
      | false => exact h
  | janitorSweep now => exact h.of_jobs (by simp [sweep]) fun _ _ => Or.inl rfl
  | release id readable marked => exact release_clear h
  | delivered id ok =>
      cases ok with
      | true => exact h.of_jobs (by simp [markDelivered]) fun _ _ => Or.inl rfl
      | false => exact h

theorem runWhere_clear {as : List Label} {w : Coord}
    (h : RunWhere (next env set) (Unstranded env set) Coord.start as w) : w.store.Clear := by
  refine h.invariant (I := fun w => w.store.Clear) ?_ fun k _ => Or.inl rfl
  exact fun s a t hs hok hn => next_clear hs hok hn

/-- The files of a validated request can be hashed. -/
theorem requestHash_isSome {r : Request}
    (h : validateJob r.kind r.args (some r.src) env.inLibrary = .ok ()) :
    (requestHash env r).isSome = true := by
  have hacc := accepted_of_validateJob h
  have hbytes : (fileBytes r.src (inputFiles r.args)).isSome = true :=
    fileBytes_isSome fun n hn => has_of_present (hacc.files_present hn)
  unfold requestHash
  split_ifs
  · simpa [hashJob, hashInput] using hbytes
  · rfl

/-- A validated request has a file. -/
theorem src_ne_nil {r : Request}
    (h : validateJob r.kind r.args (some r.src) env.inLibrary = .ok ()) :
    ∃ n, r.src.has n = true := by
  have hacc := accepted_of_validateJob h
  obtain ⟨n, hn⟩ := List.exists_mem_of_ne_nil _ hacc.inputFiles_ne_nil
  exact ⟨n, has_of_present (hacc.files_present hn)⟩

theorem Coord.submitted_reply (w : Coord) (r : Request) (out : Store × SubmitReply) :
    (w.submitted r out).2 = .submit out.2 := by
  unfold Coord.submitted
  split
  all_goals (rename_i h; simp [h])

theorem not_free_of_strands {c : Store} {r : Request} {now : Int} {io : SubmitIo}
    (hvalid : validateJob r.kind r.args (some r.src) env.inLibrary = .ok ()) (hfree : c.Free)
    (h : Strands env set c r io) : ¬ (submit env set c r now io).1.Free := by
  obtain ⟨hash, hhash, hroom, hcut⟩ := h
  obtain ⟨d, reply, hext, heq⟩ : ∃ d reply, d.Extends r.src ∧
      submit env set c r now io = (c.setDir c.db.nextId (some d), reply) :=
    submit_of_strands hhash hroom hfree hcut
  obtain ⟨n, hn⟩ := src_ne_nil hvalid
  rw [heq]
  simp only [Store.Free, Store.setDir_db, Store.setDir_jobs_self]
  rintro (hnone | hempty)
  · cases hnone
  · obtain rfl := Option.some.inj hempty
    cases hext n hn

/-- Along every run without a stranding submission, the place of the next job
is free and a submission that nothing cuts is accepted under a new id. A
submission that strands takes the place, and then no submission is accepted
until the directory is gone. -/
theorem submission_available (env : Env) (set : Settings) :
    (∀ as w, RunWhere (next env set) (Unstranded env set) Coord.start as w →
      w.store.Free ∧ w.job? w.store.db.nextId = none ∧
      ∀ r now io out, step env set w (.submit r now io) = some out → io.fault = .none →
        r.hasRoom set w.store → ∃ cached, out.2 = .submit (.ok w.store.db.nextId cached)) ∧
    (∀ as w r now io w', RunWhere (next env set) (Unstranded env set) Coord.start as w →
      next env set w (.submit r now io) = some w' →
      (w'.store.Free ↔ ¬ Strands env set w.store r io)) ∧
    (∀ w r now io out, ¬ w.store.Free → step env set w (.submit r now io) = some out →
      out.1.store = w.store ∧ ∀ id cached, out.2 ≠ .submit (.ok id cached)) := by
  refine ⟨?_, ?_, ?_⟩
  · intro as w hrun
    have hclear := runWhere_clear hrun
    refine ⟨hclear.free, Table.get?_nextId _, ?_⟩
    intro r now io out hstep hio hroom
    cases stepped_of_step hstep with
    | submit _ _ _ hup hvalid =>
        have hok : ∃ cached, (submit env set w.store r now io).2 =
            .ok w.store.db.nextId cached :=
          submit_ok hio hclear.free (requestHash_isSome hvalid) hroom
        obtain ⟨cached, hok⟩ := hok
        exact ⟨cached, by rw [Coord.submitted_reply, hok]⟩
  · intro as w r now io w' hrun hn
    have hclear := runWhere_clear hrun
    constructor
    · intro hfree hstr
      obtain ⟨reply, hstep⟩ := stepped_of_next hn
      generalize hout : (w', reply) = out at hstep
      obtain rfl : w' = out.1 := congrArg Prod.fst hout
      cases hstep with
      | submit _ _ _ hup hvalid =>
          rw [Coord.submitted_store] at hfree
          exact not_free_of_strands hvalid hclear.free hstr hfree
    · intro hstr
      have hok : Unstranded env set w (.submit r now io) := by
        intro r' now' io' heq
        cases heq
        exact hstr
      exact (next_clear hclear hok hn).free
  · intro w r now io out hfree hstep
    cases stepped_of_step hstep with
    | submit _ _ _ hup hvalid =>
        have hstuck : (submit env set w.store r now io).1 = w.store ∧
            ∀ id b, (submit env set w.store r now io).2 ≠ .ok id b :=
          submit_not_ok_of_not_free hfree
        obtain ⟨hsame, hnot⟩ := hstuck
        rw [Coord.submitted_store, Coord.submitted_reply]
        refine ⟨hsame, fun id cached heq => hnot id cached ?_⟩
        injection heq

/-- A submission whose commit fails is cleaned up after. -/
def undoneSubmit : List Label := [.submit (.convert [1] false) 0 ⟨.error .commit, true, true⟩]

theorem undoneSubmit_available :
    ∃ w out, RunWhere (next Env.bare Settings.small) (Unstranded Env.bare Settings.small)
        Coord.start undoneSubmit w ∧
      step Env.bare Settings.small w (.submit (.convert [2] false) 1 .smooth) = some out ∧
      w.store.Free ∧ ∃ cached, out.2 = .submit (.ok 1 cached) := by
  have hexec : ((exec (next Env.bare Settings.small) Coord.start undoneSubmit).bind fun w =>
      (step Env.bare Settings.small w (.submit (.convert [2] false) 1 .smooth)).map fun _ =>
        (w.store.db.nextId, queuedCount w.store.db)) = some (1, 0) := by
    decide
  obtain ⟨w, hw, h⟩ := Option.bind_eq_some_iff.mp hexec
  obtain ⟨out, hout, h⟩ := Option.map_eq_some_iff.mp h
  obtain ⟨hid, hcount⟩ := Prod.mk.inj h
  have hrun : RunWhere (next Env.bare Settings.small) (Unstranded Env.bare Settings.small)
      Coord.start undoneSubmit w := by
    refine runWhere_of_exec hw fun a ha s r now io heq hstr => ?_
    obtain ⟨hash, -, -, hcut⟩ := hstr
    obtain rfl := List.mem_singleton.mp ha
    cases heq
    cases hcut
  have hroom : (Request.convert [2] false).hasRoom Settings.small w.store :=
    Or.inr (by rw [hcount]; decide)
  obtain ⟨hfree, -, hok⟩ := (submission_available _ _).1 _ w hrun
  obtain ⟨cached, hreply⟩ := hok _ 1 .smooth out hout rfl hroom
  exact ⟨w, out, hrun, hout, hfree, cached, hid ▸ hreply⟩

/-- A submission killed just before its commit, and the restart after it. -/
def strandedSubmit : List Label :=
  [.submit (.convert [1] false) 0 ⟨.kill .commit, true, true⟩, .open]

/-- The next submission fails although nothing cuts it. -/
theorem strandedSubmit_unavailable :
    ¬ (∀ as w, Run (next Env.bare Settings.small) Coord.start as w → w.store.Free) ∧
    ¬ (∀ as w r now io out, Run (next Env.bare Settings.small) Coord.start as w →
      step Env.bare Settings.small w (.submit r now io) = some out → io.fault = .none →
      r.hasRoom Settings.small w.store →
      ∃ cached, out.2 = .submit (.ok w.store.db.nextId cached)) := by
  have hexec : ((exec (next Env.bare Settings.small) Coord.start strandedSubmit).bind fun w =>
      (step Env.bare Settings.small w (.submit (.convert [2] false) 1 .smooth)).map fun _ =>
        (w.store.jobs w.store.db.nextId, queuedCount w.store.db)) =
      some (some [("in.pdf", [1])], 0) := by
    decide
  obtain ⟨w, hw, h⟩ := Option.bind_eq_some_iff.mp hexec
  obtain ⟨out, hout, h⟩ := Option.map_eq_some_iff.mp h
  obtain ⟨hdir, hcount⟩ := Prod.mk.inj h
  have hstuck : ¬ w.store.Free := by
    rintro (hf | hf)
    · cases hdir.symm.trans hf
    · cases hdir.symm.trans hf
  constructor
  · intro hclaim
    exact hstuck (hclaim _ w (run_of_exec hw))
  · intro hclaim
    obtain ⟨cached, hok⟩ := hclaim _ w _ 1 .smooth out (run_of_exec hw) hout rfl
      (Or.inr (by rw [hcount]; decide))
    cases stepped_of_step hout with
    | submit _ _ _ hup hvalid =>
        rw [Coord.submitted_reply] at hok
        injection hok with hok
        exact (submit_not_ok_of_not_free hstuck).2 _ _ hok

end Kura.Server
