import Kura.Base.Table
import Kura.Server.Api

/-!
# The coordinator's queue

The rows of the job table and the job directories are the two stores a
coordinator keeps on disk. Every function below is one critical section of
the source: it is entered with the database lock held and released at its
end. What the operating system or SQLite decide (a clock reading, an error,
a kill) is an argument.

## Implementation notes

A transaction that does not commit leaves the table as it was, and with it
the sequence counter. Files are not part of any transaction: a directory
renamed or a file moved inside a transaction stays where it is.
-/

namespace Kura.Server

open Kura.Base

/-- The states of a job. -/
inductive JobState where
  | queued
  | running
  | done
  | failed
  deriving DecidableEq, Repr

/-- States in which a job has a result. -/
def JobState.finished : JobState → Bool
  | .done | .failed => true
  | .queued | .running => false

/-- A row of the job table. -/
structure Job where
  kind : Kind
  args : List Arg
  name : String
  folder : Option String
  file : Option String
  hash : Option String
  state : JobState
  attempts : Nat
  worker : Option String
  leaseUntil : Option Int
  result : Option RunResult
  delivered : Bool
  purged : Bool
  created : Int
  updated : Int

/-- A row of the worker table. -/
structure WorkerRow where
  id : String
  name : String
  slots : Int
  running : Nat
  version : String
  lastSeen : Int

/-- The settings a coordinator is started with. -/
structure Settings where
  maxAttempts : Nat
  leaseMs : Int
  ttlMs : Int
  queueLimit : Nat
  timeoutMs : Nat

/-- What the coordinator uses of other libraries and of the file system
outside its data directory. -/
structure Env where
  sha256 : Bytes → String
  fromStr : String → Option Json
  inLibrary : String → Bool

/-- What a coordinator keeps on disk. -/
structure Store where
  db : Table Job
  workers : List WorkerRow
  jobs : Nat → Option Dir

namespace Store

/-- A fresh data directory. -/
def empty : Store := ⟨Table.empty, [], fun _ => none⟩

/-- Replace a job directory. -/
def setDir (c : Store) (id : Nat) (d : Option Dir) : Store :=
  { c with jobs := Function.update c.jobs id d }

@[simp] theorem setDir_db (c : Store) (id : Nat) (d : Option Dir) : (c.setDir id d).db = c.db :=
  rfl

@[simp] theorem setDir_jobs_self (c : Store) (id : Nat) (d : Option Dir) :
    (c.setDir id d).jobs id = d := by
  simp [setDir]

theorem setDir_jobs_ne (c : Store) {id k : Nat} (d : Option Dir) (h : k ≠ id) :
    (c.setDir id d).jobs k = c.jobs k := by
  simp [setDir, h]

end Store

/-- Where a request can be cut: an error returned by the call made at a
point, or a kill of the process just before it. -/
inductive Fault (P : Type) where
  | none
  | error (p : P)
  | kill (p : P)
  deriving DecidableEq

/-- Whether the request does not get past a point. -/
def Fault.stops {P : Type} [DecidableEq P] (f : Fault P) (p : P) : Bool :=
  f = .error p || f = .kill p

/-- A job as a client or a watched folder hands it in. -/
structure Request where
  src : Dir
  kind : Kind
  args : List Arg
  name : String
  hot : Option (String × String)
  dedupe : Bool

/-- The fallible calls of a submission, in order; `reply` is past the commit. -/
inductive SubmitPoint where
  | hash
  | count
  | begin
  | insert
  | rename
  | copy (n : Nat)
  | update
  | commit
  | reply
  deriving DecidableEq

/-- What the system decides during a submission. -/
structure SubmitIo where
  fault : Fault SubmitPoint
  copyOk : Bool
  removeOk : Bool

/-- The answers of a submission. -/
inductive SubmitReply where
  | ok (id : Nat) (cached : Bool)
  | busy
  | failed
  | killed
  deriving DecidableEq

/-- The answer of a submission that is cut. -/
def SubmitIo.cut (io : SubmitIo) : SubmitReply :=
  match io.fault with
  | .kill _ => .killed
  | _ => .failed

/-- The word for a kind in the database and in hashes. -/
def kindStr : Kind → String
  | .convert => "convert"
  | .check => "check"
  | .verify => "verify"

/-- An argument as a tagged JSON object. -/
def Arg.toJson : Arg → Json
  | .lit s => .obj [("t", .str "Lit"), ("v", .str s)]
  | .file n => .obj [("t", .str "File"), ("v", .str n)]
  | .out n => .obj [("t", .str "Out"), ("v", .str n)]
  | .profile id => .obj [("t", .str "Profile"), ("v", .str id)]

/-- An argument list as JSON. -/
def argsJson (args : List Arg) : Json := .arr (args.map Arg.toJson)

/-- Names and contents of the given files, in order; undefined where a file
cannot be read. -/
def fileBytes (dir : Dir) : List String → Option Bytes
  | [] => some []
  | n :: ns => (dir.read n).bind fun b =>
      (fileBytes dir ns).map fun rest => utf8 n.toList ++ b ++ rest

/-- The bytes that are hashed for a job. -/
def hashInput (kind : Kind) (args : List Arg) (dir : Dir) : Option Bytes :=
  (fileBytes dir (inputFiles args)).map fun files =>
    utf8 (kindStr kind).toList ++ utf8 (argsJson args).text ++ files

/-- The hash of a job. -/
def hashJob (env : Env) (kind : Kind) (args : List Arg) (dir : Dir) : Option String :=
  (hashInput kind args dir).map env.sha256

/-- The hash column of a submission; undefined where hashing fails. -/
def requestHash (env : Env) (r : Request) : Option (Option String) :=
  if r.dedupe then (hashJob env r.kind r.args r.src).map some else some none

/-- The row a submission inserts. -/
def newRow (r : Request) (hash : Option String) (now : Int) : Job where
  kind := r.kind
  args := r.args
  name := r.name
  folder := r.hot.map Prod.fst
  file := r.hot.map Prod.snd
  hash := hash
  state := .queued
  attempts := 0
  worker := none
  leaseUntil := none
  result := none
  delivered := false
  purged := false
  created := now
  updated := now

/-- Waiting jobs that did not come from a watched folder. -/
def queuedCount (db : Table Job) : Nat :=
  db.count fun j => j.state = .queued && j.folder.isNone

/-- Renaming a directory: the target must be absent or empty. -/
def renameDir (c : Store) (src : Dir) (id : Nat) : Option Store :=
  match c.jobs id with
  | some (_ :: _) => none
  | _ => some (c.setDir id (some src))

/-- The newest finished job with the hash whose files are still kept. -/
def cachedResult (db : Table Job) (hash : Option String) : Option (Nat × RunResult) :=
  match hash with
  | none => none
  | some h =>
      match db.last? fun _ j => j.hash = some h && j.state = .done && !j.purged with
      | some (prev, j) => j.result.map fun res => (prev, res)
      | none => none

/-- Copy files until one cannot be copied. -/
def copyOutputs (source : Option Dir) (ok : Bool) (dest : Dir) : List String → Dir × Bool
  | [] => (dest, true)
  | n :: ns =>
      match ok, source.bind fun d => d.read n with
      | true, some b => copyOutputs source ok (dest.write n b) ns
      | _, _ => (dest, false)

/-- The row of a job answered by an earlier result. -/
def dedupeRow (row : Job) (result : RunResult) (now : Int) : Job :=
  { row with
    state := .done
    result := some result
    args := []
    worker := some "dedupe"
    updated := now }

/-- Commit the row of a submission whose directory is in place. -/
def commitSubmit (c : Store) (io : SubmitIo) (row : Job) (cached : Bool) : Store × SubmitReply :=
  let id := c.db.nextId
  match io.fault with
  | .error .commit => (if io.removeOk then c.setDir id none else c, .failed)
  | .kill .commit => (c, .killed)
  | .kill .reply => ({ c with db := c.db.insert row }, .killed)
  | _ => ({ c with db := c.db.insert row }, .ok id cached)

/-- The part of a submission after the rename of its directory. -/
def submitRenamed (c : Store) (r : Request) (io : SubmitIo) (row : Job) (now : Int) :
    Store × SubmitReply :=
  let id := c.db.nextId
  match cachedResult c.db row.hash with
  | none => commitSubmit c io row false
  | some (prev, result) =>
      let copy (ns : List String) := copyOutputs (c.jobs prev) io.copyOk r.src ns
      match io.fault with
      | .kill (.copy n) =>
          (c.setDir id (some (copy ((outputFiles r.args).take n)).1), .killed)
      | _ =>
          let copied := copy (outputFiles r.args)
          let c' := c.setDir id (some copied.1)
          if copied.2 then
            if io.fault.stops .update then (c', io.cut)
            else commitSubmit c' io (dedupeRow row result now) true
          else commitSubmit c' io row false

/-- Submission of a job. -/
def submit (env : Env) (set : Settings) (c : Store) (r : Request) (now : Int) (io : SubmitIo) :
    Store × SubmitReply :=
  if io.fault.stops .hash then (c, io.cut)
  else match requestHash env r with
  | none => (c, .failed)
  | some hash =>
      if io.fault.stops .count then (c, io.cut)
      else if r.hot.isNone && set.queueLimit ≤ queuedCount c.db then (c, .busy)
      else if io.fault.stops .begin || io.fault.stops .insert || io.fault.stops .rename then
        (c, io.cut)
      else match renameDir c r.src c.db.nextId with
      | none => (c, .failed)
      | some c' => submitRenamed c' r io (newRow r hash now) now

/-- What a worker is given with a job. -/
structure LeaseMeta where
  id : Nat
  attempt : Nat
  kind : Kind
  args : List Arg
  timeoutMs : Nat

/-- The row of a leased job. -/
def leaseRow (set : Settings) (worker : String) (now : Int) (j : Job) : Job :=
  { j with
    state := .running
    attempts := j.attempts + 1
    worker := some worker
    leaseUntil := some (now + set.leaseMs)
    updated := now }

/-- Hand out the oldest waiting job. -/
def lease (set : Settings) (c : Store) (worker : String) (now : Int) :
    Store × Option LeaseMeta :=
  match c.db.first? fun j => j.state = .queued with
  | none => (c, none)
  | some (id, j) =>
      ({ c with db := c.db.modify id (leaseRow set worker now) },
        some ⟨id, j.attempts + 1, j.kind, j.args, set.timeoutMs⟩)

/-- A worker's sign of life: the jobs it runs. -/
structure Beat where
  id : String
  name : String
  slots : Int
  running : List Nat
  version : String

/-- Renew one lease of a worker. -/
def renewRow (worker : String) (until_ : Int) (j : Job) : Job :=
  if j.worker = some worker ∧ j.state = .running then { j with leaseUntil := some until_ } else j

/-- Record the worker and renew the leases it names. -/
def heartbeat (set : Settings) (c : Store) (b : Beat) (now : Int) : Store :=
  { c with
    db := b.running.foldl (fun db id => db.modify id (renewRow b.id (now + set.leaseMs))) c.db
    workers := ⟨b.id, b.name, b.slots, b.running.length, b.version, now⟩ ::
      c.workers.filter fun w => w.id != b.id }

/-- Whether a worker holds an attempt of a job. -/
def holdsRow (j : Job) (attempt : Int) (worker : String) : Bool :=
  (j.attempts : Int) = attempt && j.worker = some worker && j.state = .running

/-- Whether a worker holds an attempt of a job, asked of the table. -/
def holds (db : Table Job) (id : Nat) (attempt : Int) (worker : String) : Bool :=
  match db.get? id with
  | some j => holdsRow j attempt worker
  | none => false

/-- The fallible calls of a completion. `move n` is the move of the file with
that position in the bundle. -/
inductive FinishPoint where
  | begin
  | move (n : Nat)
  | commit
  | reply
  deriving DecidableEq

/-- The answers of a completion. -/
inductive FinishReply where
  | accepted (state : JobState)
  | refused
  | killed
  deriving DecidableEq

/-- The answer of a completion that is cut. -/
def finishCut (f : Fault FinishPoint) : FinishReply :=
  match f with
  | .kill _ => .killed
  | _ => .refused

/-- The state a result puts a job in. -/
def finishedState (env : Env) (kind : Kind) (r : RunResult) : JobState :=
  match outcome env.fromStr kind r with
  | .pdf _ => .done
  | .json .ok _ => .done
  | .json _ _ => .failed

/-- Move staged files into a job directory until one is missing. -/
def moveStaged (staging : Dir) (dir : Dir) : List String → Dir × Bool
  | [] => (dir, true)
  | n :: ns =>
      match staging.read n with
      | some b => moveStaged (staging.remove n) (dir.write n b) ns
      | none => (dir, false)

/-- Move the files of a bundle into the directory of a job. Without that
directory only the empty bundle can be moved. -/
def takeBundle (c : Store) (id : Nat) (staging : Dir) (names : List String) : Store × Bool :=
  match c.jobs id with
  | some d =>
      let moved := moveStaged staging d names
      (c.setDir id (some moved.1), moved.2)
  | none => (c, names.isEmpty)

/-- The moves of a completion, cut where the fault says. -/
def finishMoves (c : Store) (id : Nat) (staged : Option (Dir × List String))
    (f : Fault FinishPoint) : Store × Option FinishReply :=
  match staged with
  | none => (c, none)
  | some (staging, names) =>
      match f with
      | .error (.move n) => ((takeBundle c id staging (names.take n)).1, some .refused)
      | .kill (.move n) => ((takeBundle c id staging (names.take n)).1, some .killed)
      | _ =>
          let taken := takeBundle c id staging names
          (taken.1, if taken.2 then none else some .refused)

/-- The row of a finished job. -/
def finishRow (state : JobState) (result : RunResult) (now : Int) (j : Job) : Job :=
  { j with
    state := state
    result := some result
    args := []
    leaseUntil := none
    updated := now }

/-- Commit a result. -/
def commitFinish (c : Store) (id : Nat) (state : JobState) (result : RunResult) (now : Int)
    (f : Fault FinishPoint) : Store × FinishReply :=
  let c' := { c with db := c.db.modify id (finishRow state result now) }
  match f with
  | .error .commit => (c, .refused)
  | .kill .commit => (c, .killed)
  | .kill .reply => (c', .killed)
  | _ => (c', .accepted state)

/-- Record a result for a job. With `attempt` only the holder of the lease is
heard; without it any job that has no result is ended. -/
def finish (env : Env) (c : Store) (id : Nat) (result : RunResult)
    (staged : Option (Dir × List String)) (attempt : Option (Int × String)) (now : Int)
    (f : Fault FinishPoint) : Store × FinishReply :=
  if f.stops .begin then (c, finishCut f)
  else match c.db.get? id with
  | none => (c, .refused)
  | some j =>
      if j.state.finished || attempt.any fun a => !holds c.db id a.1 a.2 then (c, .refused)
      else
        let moved := finishMoves c id staged f
        match moved.2 with
        | some reply => (moved.1, reply)
        | none => commitFinish moved.1 id (finishedState env j.kind result) result now f

/-- What is remembered of an expired lease between the two phases of a reap. -/
structure Expired where
  id : Nat
  attempts : Nat
  worker : Option String

/-- The running jobs whose lease ended before `now`. -/
def expired (db : Table Job) (now : Int) : List Expired :=
  (db.select fun j => j.state = .running && j.leaseUntil.any fun t => t < now).map fun r =>
    ⟨r.1, r.2.attempts, r.2.worker⟩

/-- The row of a job put back in the queue. -/
def requeueRow (now : Int) (j : Job) : Job :=
  if j.state = .running then
    { j with state := .queued, worker := none, leaseUntil := none, updated := now }
  else j

/-- Put a job back in the queue. -/
def requeue (c : Store) (id : Nat) (now : Int) : Store :=
  { c with db := c.db.modify id (requeueRow now) }

/-- The result of a job whose worker was lost too often. -/
def lostResult (attempts : Nat) : RunResult :=
  .lost ("worker lost " ++ toString attempts ++ " time(s)")

/-- The finished jobs whose files are due for deletion. -/
def purgeable (db : Table Job) (cutoff : Int) : List Nat :=
  (db.select fun j => j.state.finished && !j.purged && j.updated < cutoff &&
    (j.folder.isNone || j.delivered)).map Prod.fst

/-- Mark a job whose files are deleted. -/
def markPurged (c : Store) (id : Nat) : Store :=
  { c with db := c.db.modify id fun j => { j with purged := true } }

/-- A week in milliseconds. -/
def weekMs : Int := 7 * 24 * 3600 * 1000

/-- Forget old purged jobs and workers. -/
def sweep (c : Store) (now : Int) : Store :=
  { c with
    db := c.db.delete fun _ j => j.purged && j.updated < now - weekMs
    workers := c.workers.filter fun w => !(w.lastSeen < now - weekMs) }

/-- Mark a job whose result was fetched. -/
def markReleased (purge : Bool) (j : Job) : Job :=
  { j with delivered := true, purged := j.purged || purge }

/-- Whether the files of a job outlive its release; not so for a row that
cannot be read. -/
def keepsFiles (db : Table Job) (id : Nat) (readable : Bool) : Bool :=
  match db.get? id with
  | some j => readable && j.hash.isSome
  | none => false

/-- A result was fetched: its files go unless a later duplicate may use them.
`marked` is whether the row could be updated after that. -/
def release (c : Store) (id : Nat) (readable marked : Bool) : Store :=
  let keep := keepsFiles c.db id readable
  let c' := if keep then c else c.setDir id none
  if marked then { c' with db := c'.db.modify id (markReleased !keep) } else c'

/-- Mark a job whose result was put into its watched folder. -/
def markDelivered (c : Store) (id : Nat) : Store :=
  { c with db := c.db.modify id fun j => { j with delivered := true } }

/-- Finished jobs of watched folders whose result was not put there yet. -/
def undelivered (db : Table Job) : List Nat :=
  (db.select fun j => j.state.finished && j.folder.isSome && !j.delivered).map Prod.fst

/-- Whether a file of a watched folder belongs to a job not yet delivered. -/
def inFlight (db : Table Job) (folder file : String) : Bool :=
  (db.first? fun j => j.folder = some folder && j.file = some file && !j.delivered).isSome

end Kura.Server
