import Kura.Base.Transition
import Kura.Server.Queue

/-!
# The coordinator as a state machine

The requests and the background loops of a coordinator act on one store. The
database lock orders their critical sections; between two of them anything
may happen, and the process may be killed. The volatile part of the state
remembers what the loops and handlers carry from one critical section to the
next.

## Implementation notes

One reap and one clean-up run at a time, each in its own loop. A reap that
has selected its expired leases keeps the list, with the time it was made,
until every entry is dealt with; a clean-up keeps the ids it still has to
delete and whether the files of the first are gone already.

`origin` is a history variable: the request each committed job came from.
No transition reads it.
-/

namespace Kura.Server

open Kura.Base Kura.Transition

/-- A reap between its phases. -/
structure Reaping where
  now : Int
  todo : List Expired

/-- A clean-up between its phases. -/
structure Purging where
  todo : List Nat
  removed : Bool

/-- A coordinator: its disk, and what the running process remembers. -/
structure Coord where
  store : Store
  up : Bool
  serving : List Nat
  reaping : Option Reaping
  purging : Option Purging
  delivering : List Nat
  origin : Nat → Option Request

namespace Coord

/-- A coordinator started on a fresh data directory. -/
def start : Coord := ⟨Store.empty, true, [], none, none, [], fun _ => none⟩

/-- The row of a job. -/
def job? (w : Coord) (id : Nat) : Option Job := w.store.db.get? id

/-- The process is gone; the disk stays. -/
def kill (w : Coord) : Coord :=
  { w with up := false, serving := [], reaping := none, purging := none, delivering := [] }

/-- A new process on the same disk delivers what is left over. -/
def reopen (w : Coord) : Coord :=
  { w with up := true, delivering := undelivered w.store.db }

end Coord

/-- The atomic steps of a coordinator with everything decided outside it. -/
inductive Label where
  | submit (r : Request) (now : Int) (io : SubmitIo)
  | lease (worker : String) (now : Int)
  | served (id : Nat)
  | unreadable (id : Nat) (err : String) (now : Int) (f : Fault FinishPoint)
  | heartbeat (b : Beat) (now : Int)
  | complete (id : Nat) (attempt : Int) (worker : String) (result : RunResult) (staging : Dir)
      (names : List String) (now : Int) (f : Fault FinishPoint)
  | reapSelect (now : Int)
  | reapNext (now : Int) (f : Fault FinishPoint) (updated : Bool)
  | janitorSelect (now : Int)
  | janitorRemove (ok : Bool)
  | janitorMark (ok : Bool)
  | janitorSweep (now : Int)
  | release (id : Nat) (readable marked : Bool)
  | delivered (id : Nat) (ok : Bool)
  | kill
  | open

/-- What a step answers. -/
inductive Reply where
  | none
  | submit (r : SubmitReply)
  | lease (m : Option LeaseMeta)
  | finish (r : FinishReply)

/-- A finished job of a watched folder is delivered next. -/
def noteFinished (w : Coord) (id : Nat) : List Nat :=
  match w.job? id with
  | some j => if j.folder.isSome then id :: w.delivering else w.delivering
  | none => w.delivering

/-- Carry the outcome of a completion into the machine. -/
def Coord.finished (w : Coord) (id : Nat) (out : Store × FinishReply) : Coord × Reply :=
  let w' := { w with store := out.1 }
  match out.2 with
  | .accepted s => ({ w' with delivering := noteFinished w id }, .finish (.accepted s))
  | .refused => (w', .finish .refused)
  | .killed => (w'.kill, .finish .killed)

/-- Carry the outcome of a submission into the machine. -/
def Coord.submitted (w : Coord) (r : Request) (out : Store × SubmitReply) : Coord × Reply :=
  let id := w.store.db.nextId
  let w' := { w with
    store := out.1
    origin := if out.1.db.seq = id then Function.update w.origin id (some r) else w.origin }
  match out.2 with
  | .ok k cached =>
      ({ w' with delivering := if cached && r.hot.isSome then k :: w.delivering else w.delivering },
        .submit (.ok k cached))
  | .killed => (w'.kill, .submit .killed)
  | reply => (w', .submit reply)

/-- The later phase of a reap, for one expired lease. -/
def Coord.reapOne (env : Env) (set : Settings) (w : Coord) (asOf : Int) (e : Expired)
    (now : Int) (f : Fault FinishPoint) (updated : Bool) : Coord × Reply :=
  if set.maxAttempts ≤ e.attempts then
    w.finished e.id (finish env w.store e.id (lostResult e.attempts) none none now f)
  else if updated then ({ w with store := requeue w.store e.id asOf }, .none)
  else (w, .none)

/-- One step; undefined where the label is not enabled. -/
def step (env : Env) (set : Settings) (w : Coord) : Label → Option (Coord × Reply)
  | .open => if w.up then none else some (w.reopen, .none)
  | .kill => if w.up then some (w.kill, .none) else none
  | .submit r now io =>
      if w.up ∧ (validateJob r.kind r.args (some r.src) env.inLibrary).isOk then
        some (w.submitted r (submit env set w.store r now io))
      else none
  | .lease worker now =>
      if w.up then
        let out := lease set w.store worker now
        some ({ w with
          store := out.1
          serving := match out.2 with
            | some m => m.id :: w.serving
            | none => w.serving }, .lease out.2)
      else none
  | .served id =>
      if w.up ∧ id ∈ w.serving then some ({ w with serving := w.serving.erase id }, .none)
      else none
  | .unreadable id err now f =>
      if w.up ∧ id ∈ w.serving then
        some ({ w with serving := w.serving.erase id }.finished id
          (finish env w.store id (.lost ("job files unreadable: " ++ err)) none none now f))
      else none
  | .heartbeat b now =>
      if w.up then some ({ w with store := heartbeat set w.store b now }, .none) else none
  | .complete id attempt worker result staging names now f =>
      if w.up then
        some (w.finished id
          (finish env w.store id result (some (staging, names)) (some (attempt, worker)) now f))
      else none
  | .reapSelect now =>
      if w.up ∧ w.reaping.isNone then
        some ({ w with reaping := some ⟨now, expired w.store.db now⟩ }, .none)
      else none
  | .reapNext now f updated =>
      if w.up then
        match w.reaping with
        | none => none
        | some ⟨_, []⟩ => some ({ w with reaping := none }, .none)
        | some ⟨asOf, e :: todo⟩ =>
            some ({ w with reaping := some ⟨asOf, todo⟩ }.reapOne env set asOf e now f updated)
      else none
  | .janitorSelect now =>
      if w.up ∧ w.purging.isNone then
        some ({ w with purging := some ⟨purgeable w.store.db (now - set.ttlMs), false⟩ }, .none)
      else none
  | .janitorRemove ok =>
      if w.up then
        match w.purging with
        | some ⟨id :: todo, false⟩ =>
            some ({ w with
              store := if ok then w.store.setDir id none else w.store
              purging := some ⟨id :: todo, true⟩ }, .none)
        | _ => none
      else none
  | .janitorMark ok =>
      if w.up then
        match w.purging with
        | some ⟨id :: todo, true⟩ =>
            some ({ w with
              store := if ok then markPurged w.store id else w.store
              purging := some ⟨todo, false⟩ }, .none)
        | _ => none
      else none
  | .janitorSweep now =>
      if w.up then
        match w.purging with
        | some ⟨[], _⟩ => some ({ w with store := sweep w.store now, purging := none }, .none)
        | _ => none
      else none
  | .release id readable marked =>
      if w.up then some ({ w with store := release w.store id readable marked }, .none) else none
  | .delivered id ok =>
      if w.up ∧ id ∈ w.delivering then
        some ({ w with
          store := if ok then markDelivered w.store id else w.store
          delivering := w.delivering.erase id }, .none)
      else none

/-- The machine: steps without their answers. -/
def next (env : Env) (set : Settings) (w : Coord) (a : Label) : Option Coord :=
  (step env set w a).map Prod.fst

/-- States a coordinator started on a fresh data directory can be in. -/
def Reachable (env : Env) (set : Settings) (w : Coord) : Prop :=
  ∃ as, Run (next env set) Coord.start as w

/-- The enabled steps, one constructor for each way a label can go. -/
inductive Stepped (env : Env) (set : Settings) (w : Coord) : Label → Coord × Reply → Prop
  | «open» (hup : w.up = false) : Stepped env set w .open (w.reopen, .none)
  | kill (hup : w.up = true) : Stepped env set w .kill (w.kill, .none)
  | submit (r : Request) (now : Int) (io : SubmitIo) (hup : w.up = true)
      (hvalid : validateJob r.kind r.args (some r.src) env.inLibrary = .ok ()) :
      Stepped env set w (.submit r now io) (w.submitted r (submit env set w.store r now io))
  | lease (worker : String) (now : Int) (hup : w.up = true) :
      Stepped env set w (.lease worker now)
        ({ w with
            store := (lease set w.store worker now).1
            serving := match (lease set w.store worker now).2 with
              | some m => m.id :: w.serving
              | none => w.serving }, .lease (lease set w.store worker now).2)
  | served (id : Nat) (hup : w.up = true) (hmem : id ∈ w.serving) :
      Stepped env set w (.served id) ({ w with serving := w.serving.erase id }, .none)
  | unreadable (id : Nat) (err : String) (now : Int) (f : Fault FinishPoint)
      (hup : w.up = true) (hmem : id ∈ w.serving) :
      Stepped env set w (.unreadable id err now f)
        ({ w with serving := w.serving.erase id }.finished id
          (finish env w.store id (.lost ("job files unreadable: " ++ err)) none none now f))
  | heartbeat (b : Beat) (now : Int) (hup : w.up = true) :
      Stepped env set w (.heartbeat b now) ({ w with store := heartbeat set w.store b now }, .none)
  | complete (id : Nat) (attempt : Int) (worker : String) (result : RunResult) (staging : Dir)
      (names : List String) (now : Int) (f : Fault FinishPoint) (hup : w.up = true) :
      Stepped env set w (.complete id attempt worker result staging names now f)
        (w.finished id
          (finish env w.store id result (some (staging, names)) (some (attempt, worker)) now f))
  | reapSelect (now : Int) (hup : w.up = true) (hidle : w.reaping = none) :
      Stepped env set w (.reapSelect now)
        ({ w with reaping := some ⟨now, expired w.store.db now⟩ }, .none)
  | reapEnd (now asOf : Int) (f : Fault FinishPoint) (updated : Bool) (hup : w.up = true)
      (hreap : w.reaping = some ⟨asOf, []⟩) :
      Stepped env set w (.reapNext now f updated) ({ w with reaping := none }, .none)
  | reapNext (now asOf : Int) (f : Fault FinishPoint) (updated : Bool) (e : Expired)
      (todo : List Expired) (hup : w.up = true) (hreap : w.reaping = some ⟨asOf, e :: todo⟩) :
      Stepped env set w (.reapNext now f updated)
        ({ w with reaping := some ⟨asOf, todo⟩ }.reapOne env set asOf e now f updated)
  | janitorSelect (now : Int) (hup : w.up = true) (hidle : w.purging = none) :
      Stepped env set w (.janitorSelect now)
        ({ w with purging := some ⟨purgeable w.store.db (now - set.ttlMs), false⟩ }, .none)
  | janitorRemove (ok : Bool) (id : Nat) (todo : List Nat) (hup : w.up = true)
      (hpurge : w.purging = some ⟨id :: todo, false⟩) :
      Stepped env set w (.janitorRemove ok)
        ({ w with
            store := if ok then w.store.setDir id none else w.store
            purging := some ⟨id :: todo, true⟩ }, .none)
  | janitorMark (ok : Bool) (id : Nat) (todo : List Nat) (hup : w.up = true)
      (hpurge : w.purging = some ⟨id :: todo, true⟩) :
      Stepped env set w (.janitorMark ok)
        ({ w with
            store := if ok then markPurged w.store id else w.store
            purging := some ⟨todo, false⟩ }, .none)
  | janitorSweep (now : Int) (b : Bool) (hup : w.up = true) (hpurge : w.purging = some ⟨[], b⟩) :
      Stepped env set w (.janitorSweep now)
        ({ w with store := sweep w.store now, purging := none }, .none)
  | release (id : Nat) (readable marked : Bool) (hup : w.up = true) :
      Stepped env set w (.release id readable marked)
        ({ w with store := release w.store id readable marked }, .none)
  | delivered (id : Nat) (ok : Bool) (hup : w.up = true) (hmem : id ∈ w.delivering) :
      Stepped env set w (.delivered id ok)
        ({ w with
            store := if ok then markDelivered w.store id else w.store
            delivering := w.delivering.erase id }, .none)

/-- Inversion of a step. -/
theorem stepped_of_step {env : Env} {set : Settings} {w : Coord} {a : Label} {out : Coord × Reply}
    (h : step env set w a = some out) : Stepped env set w a out := by
  by_cases hup : w.up = true
  · cases a with
    | «open» => simp [step, hup] at h
    | kill =>
        simp only [step, if_pos hup, Option.some.injEq] at h
        exact h ▸ .kill hup
    | submit r now io =>
        simp only [step] at h
        split_ifs at h with hv
        cases hok : validateJob r.kind r.args (some r.src) env.inLibrary with
        | error e => simp [hok, Except.isOk, Except.toBool] at hv
        | ok u => exact Option.some.inj h ▸ .submit r now io hup hok
    | lease worker now =>
        simp only [step, if_pos hup, Option.some.injEq] at h
        exact h ▸ .lease worker now hup
    | served id =>
        simp only [step] at h
        split_ifs at h with hv
        exact Option.some.inj h ▸ .served id hup hv.2
    | unreadable id err now f =>
        simp only [step] at h
        split_ifs at h with hv
        exact Option.some.inj h ▸ .unreadable id err now f hup hv.2
    | heartbeat b now =>
        simp only [step, if_pos hup, Option.some.injEq] at h
        exact h ▸ .heartbeat b now hup
    | complete id attempt worker result staging names now f =>
        simp only [step, if_pos hup, Option.some.injEq] at h
        exact h ▸ .complete id attempt worker result staging names now f hup
    | reapSelect now =>
        simp only [step] at h
        split_ifs at h with hv
        exact Option.some.inj h ▸ .reapSelect now hup (Option.isNone_iff_eq_none.mp hv.2)
    | reapNext now f updated =>
        simp only [step, if_pos hup] at h
        split at h
        · cases h
        · exact Option.some.inj h ▸ .reapEnd now _ f updated hup ‹_›
        · exact Option.some.inj h ▸ .reapNext now _ f updated _ _ hup ‹_›
    | janitorSelect now =>
        simp only [step] at h
        split_ifs at h with hv
        exact Option.some.inj h ▸ .janitorSelect now hup (Option.isNone_iff_eq_none.mp hv.2)
    | janitorRemove ok =>
        simp only [step, if_pos hup] at h
        split at h
        · exact Option.some.inj h ▸ .janitorRemove ok _ _ hup ‹_›
        · cases h
    | janitorMark ok =>
        simp only [step, if_pos hup] at h
        split at h
        · exact Option.some.inj h ▸ .janitorMark ok _ _ hup ‹_›
        · cases h
    | janitorSweep now =>
        simp only [step, if_pos hup] at h
        split at h
        · exact Option.some.inj h ▸ .janitorSweep now _ hup ‹_›
        · cases h
    | release id readable marked =>
        simp only [step, if_pos hup, Option.some.injEq] at h
        exact h ▸ .release id readable marked hup
    | delivered id ok =>
        by_cases hv : w.up = true ∧ id ∈ w.delivering
        · simp only [step, if_pos hv, Option.some.injEq] at h
          exact h ▸ .delivered id ok hup hv.2
        · simp only [step, if_neg hv, reduceCtorEq] at h
  · have hdown : w.up = false := by simpa using hup
    cases a with
    | «open» =>
        simp only [step, if_neg hup, Option.some.injEq] at h
        exact h ▸ .open hdown
    | kill => simp [step, hdown] at h
    | submit => simp [step, hdown] at h
    | lease => simp [step, hdown] at h
    | served => simp [step, hdown] at h
    | unreadable => simp [step, hdown] at h
    | heartbeat => simp [step, hdown] at h
    | complete => simp [step, hdown] at h
    | reapSelect => simp [step, hdown] at h
    | reapNext => simp [step, hdown] at h
    | janitorSelect => simp [step, hdown] at h
    | janitorRemove => simp [step, hdown] at h
    | janitorMark => simp [step, hdown] at h
    | janitorSweep => simp [step, hdown] at h
    | release => simp [step, hdown] at h
    | delivered => simp [step, hdown] at h

theorem stepped_of_next {env : Env} {set : Settings} {w w' : Coord} {a : Label}
    (h : next env set w a = some w') : ∃ reply, Stepped env set w a (w', reply) := by
  obtain ⟨out, hout, rfl⟩ := Option.map_eq_some_iff.mp h
  exact ⟨out.2, stepped_of_step hout⟩

/-- What is submitted has been validated. -/
theorem valid_of_submit {env : Env} {set : Settings} {w w' : Coord} {r : Request} {now : Int}
    {io : SubmitIo} (h : next env set w (.submit r now io) = some w') :
    validateJob r.kind r.args (some r.src) env.inLibrary = .ok () := by
  obtain ⟨reply, hstep⟩ := stepped_of_next h
  generalize (w', reply) = out at hstep
  cases hstep with
  | submit _ _ _ _ hvalid => exact hvalid

namespace Coord

@[simp] theorem finished_store (w : Coord) (id : Nat) (out : Store × FinishReply) :
    (w.finished id out).1.store = out.1 := by
  unfold finished
  split <;> rfl

@[simp] theorem submitted_store (w : Coord) (r : Request) (out : Store × SubmitReply) :
    (w.submitted r out).1.store = out.1 := by
  unfold submitted
  split <;> rfl

theorem finished_reaping (w : Coord) (id : Nat) (out : Store × FinishReply) :
    (w.finished id out).1.reaping = w.reaping ∨ (w.finished id out).1.reaping = none := by
  unfold finished
  split
  · exact Or.inl rfl
  · exact Or.inl rfl
  · exact Or.inr rfl

theorem submitted_reaping (w : Coord) (r : Request) (out : Store × SubmitReply) :
    (w.submitted r out).1.reaping = w.reaping ∨ (w.submitted r out).1.reaping = none := by
  unfold submitted
  split
  · exact Or.inl rfl
  · exact Or.inr rfl
  · exact Or.inl rfl

end Coord

/-- A digest that spells its input out, no JSON reader and no profile library. -/
def Env.bare : Env where
  sha256 b := String.ofList (b.map fun x => Char.ofNat x.toNat)
  fromStr _ := none
  inLibrary _ := false

/-- Two tries, a lease of a second and a place for two waiting jobs. -/
def Settings.small : Settings where
  maxAttempts := 2
  leaseMs := 1000
  ttlMs := 5000
  queueLimit := 2
  timeoutMs := 100

/-- A conversion of a file with the given contents. -/
def Request.convert (b : Bytes) (dedupe : Bool) : Request where
  src := [("in.pdf", b)]
  kind := .convert
  args := [.lit "--level", .lit "2b", .file "in.pdf", .out "out.pdf"]
  name := "a.pdf"
  hot := none
  dedupe := dedupe

/-- A submission that nothing disturbs. -/
def SubmitIo.smooth : SubmitIo := ⟨.none, true, true⟩

/-- The result of a run that succeeded. -/
def RunResult.success : RunResult := ⟨some 0, "", "", false⟩

end Kura.Server
