import Kura.Server.Protocol

/-!
# Rows and the requests they were made from

`Coord.origin` remembers the request of every committed submission. As long
as a row exists, what it says about its job is what that request said.
-/

namespace Kura.Server

open Kura.Base Kura.Transition

variable {env : Env} {set : Settings}

/-- A row says of its job what a request said. -/
structure Job.MadeFrom (env : Env) (j : Job) (r : Request) : Prop where
  hash : requestHash env r = some j.hash
  kind : j.kind = r.kind
  folder : j.folder = r.hot.map Prod.fst
  file : j.file = r.hot.map Prod.snd
  valid : validateJob r.kind r.args (some r.src) env.inLibrary = .ok ()

/-- Every row is made from the request remembered for it. -/
def Coord.OriginOk (env : Env) (w : Coord) : Prop :=
  ∀ id j, w.job? id = some j → ∃ r, w.origin id = some r ∧ j.MadeFrom env r

/-- No change to a row touches what the request said. -/
theorem RowChange.madeFrom {id : Nat} {a : Label} {j j' : Job} {r : Request}
    (h : RowChange set id a j j') (hr : j.MadeFrom env r) : j'.MadeFrom env r := by
  have hsame : j'.hash = j.hash ∧ j'.kind = j.kind ∧ j'.folder = j.folder ∧ j'.file = j.file := by
    cases h <;> exact ⟨rfl, rfl, rfl, rfl⟩
  obtain ⟨hhash, hkind, hfolder, hfile⟩ := hsame
  exact ⟨hhash ▸ hr.hash, hkind.trans hr.kind, hfolder.trans hr.folder, hfile.trans hr.file,
    hr.valid⟩

@[simp] theorem Coord.finished_origin (w : Coord) (id : Nat) (out : Store × FinishReply) :
    (w.finished id out).1.origin = w.origin := by
  unfold Coord.finished
  split <;> rfl

theorem Coord.submitted_origin (w : Coord) (r : Request) (out : Store × SubmitReply) :
    (w.submitted r out).1.origin =
      if out.1.db.seq = w.store.db.nextId then
        Function.update w.origin w.store.db.nextId (some r) else w.origin := by
  unfold Coord.submitted
  split <;> rfl

/-- Only a committed submission is remembered, in the place of its job. -/
theorem origin_cases {w : Coord} {a : Label} {out : Coord × Reply}
    (h : Stepped env set w a out) :
    out.1.origin = w.origin ∨ ∃ r, out.1.store.db.seq = w.store.db.nextId ∧
      out.1.origin = Function.update w.origin w.store.db.nextId (some r) := by
  cases h with
  | submit r now io =>
      rw [Coord.submitted_origin, Coord.submitted_store]
      split_ifs with hseq
      · exact Or.inr ⟨r, hseq, rfl⟩
      · exact Or.inl rfl
  | unreadable => exact Or.inl (Coord.finished_origin _ _ _)
  | complete => exact Or.inl (Coord.finished_origin _ _ _)
  | reapNext now asOf f updated e todo =>
      unfold Coord.reapOne
      split_ifs
      · exact Or.inl (Coord.finished_origin _ _ _)
      · exact Or.inl rfl
      · exact Or.inl rfl
  | _ => exact Or.inl rfl

/-- Only the place of the next job gets an origin. -/
theorem origin_of_step {w : Coord} {a : Label} {out : Coord × Reply}
    (h : Stepped env set w a out) {id : Nat} (hid : id ≠ w.store.db.nextId) :
    out.1.origin id = w.origin id := by
  rcases origin_cases h with hsame | ⟨r, -, hnew⟩
  · rw [hsame]
  · rw [hnew, Function.update_of_ne hid]

theorem ne_nextId_of_job {w : Coord} {id : Nat} {j : Job} (h : w.job? id = some j) :
    id ≠ w.store.db.nextId := by
  rintro rfl
  have hnone : w.job? w.store.db.nextId = none := Table.get?_nextId _
  rw [hnone] at h
  cases h

/-- A row that a step has made remembers the submitted request. -/
theorem origin_of_new {w : Coord} {a : Label} {out : Coord × Reply} {j' : Job}
    (h : Stepped env set w a out) (hnew : RowNew env w.store a j')
    (hseq : out.1.store.db.seq = w.store.db.nextId) :
    ∃ r now io, a = .submit r now io ∧ out.1.origin w.store.db.nextId = some r ∧
      j'.MadeFrom env r := by
  cases h with
  | submit r now io hup hvalid =>
      refine ⟨r, now, io, rfl, ?_, ?_⟩
      · rw [Coord.submitted_store] at hseq
        rw [Coord.submitted_origin, if_pos hseq, Function.update_self]
      · cases hnew with
        | queued _ _ _ hash hhash => exact ⟨hhash, rfl, rfl, rfl, hvalid⟩
        | cached _ _ _ hash prev res hhash => exact ⟨hhash, rfl, rfl, rfl, hvalid⟩
  | _ => cases hnew

theorem next_originOk {w w' : Coord} {a : Label} (h : w.OriginOk env)
    (hn : next env set w a = some w') : w'.OriginOk env := by
  obtain ⟨reply, hstep⟩ := stepped_of_next hn
  intro id j' hj'
  rcases row_of_step hstep hj' with ⟨j, hj, hchange⟩ | ⟨rfl, hnew, hseq⟩
  · obtain ⟨r, hr, hmade⟩ := h id j hj
    exact ⟨r, (origin_of_step hstep (ne_nextId_of_job hj)).trans hr, hchange.madeFrom hmade⟩
  · obtain ⟨r, -, -, -, horigin, hmade⟩ := origin_of_new hstep hnew hseq
    exact ⟨r, horigin, hmade⟩

theorem reachable_originOk {w : Coord} (h : Reachable env set w) : w.OriginOk env := by
  obtain ⟨as, hrun⟩ := h
  refine hrun.invariant (I := Coord.OriginOk env) (fun s a t hs _ hn => next_originOk hs hn) ?_
  intro id j hj
  simp [Coord.job?, Coord.start, Store.empty] at hj

/-- What is remembered belongs to jobs that were given an id. -/
def Coord.OriginBounded (w : Coord) : Prop :=
  ∀ id r, w.origin id = some r → id ≤ w.store.db.seq

theorem next_originBounded {w w' : Coord} {a : Label} (h : w.OriginBounded)
    (hn : next env set w a = some w') : w'.OriginBounded := by
  obtain ⟨reply, hstep⟩ := stepped_of_next hn
  intro id r hr
  have hseq : w.store.db.seq ≤ w'.store.db.seq := seq_le_of_step hstep
  rcases origin_cases hstep with hsame | ⟨q, hnext, hnew⟩
  · exact Nat.le_trans (h id r (congrFun hsame id ▸ hr)) hseq
  · by_cases hid : id = w.store.db.nextId
    · exact Nat.le_of_eq (hid.trans hnext.symm)
    · have hold : w.origin id = some r := by
        rwa [hnew, Function.update_of_ne hid] at hr
      exact Nat.le_trans (h id r hold) hseq

/-- Nothing that is remembered is forgotten. -/
theorem origin_of_next {w w' : Coord} {a : Label} (h : w.OriginBounded)
    (hn : next env set w a = some w') {id : Nat} {r : Request} (hr : w.origin id = some r) :
    w'.origin id = some r := by
  obtain ⟨reply, hstep⟩ := stepped_of_next hn
  have hle := h id r hr
  have hid : id ≠ w.store.db.nextId := by
    rw [Table.nextId]
    omega
  exact (origin_of_step hstep hid).trans hr

end Kura.Server
