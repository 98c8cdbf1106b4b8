import Kura.Server.Coordinator

/-!
# Watched folders

A watched folder has an input, a done and a failed part. A scan takes a file
of the input part that did not change between two looks and that no job is
under way for, copies it and submits it, or moves it away if it cannot be a
job. When the job has ended, its result is placed into the folder and the
input file is taken away by name.

## Implementation notes

Users write and delete input files at any moment; the time stamp of a file is
theirs to choose. The scan is one loop: it remembers what it saw of every
file and, between its steps, the file it is at. A file that is written while
it is copied is copied with any contents. Deliveries are done by the request
that ended the job, and by the restart for those left over; the number of
deliveries under way is not bounded.

The number of a file counts the files that users wrote before it. The numbers,
`stable`, `begun` and `gone` are history variables: the contents a scan saw
unchanged, for the job of an id how many files had been written when the scan
opened the one it was made of, and what became of the files that left their
folders. No transition reads them.

The options of a folder are what its query stands for; a query that is not
understood has an answer instead, which is an error. How an object is written into a file is a
parameter. Front ends acknowledge only jobs they have submitted, which are
never those of a watched folder.
-/

namespace Kura.Server

open Kura.Base Kura.Transition

/-- A file users can change, with its number. -/
structure File where
  bytes : Bytes
  modified : Int
  serial : Nat

/-- What the coordinator is told about a watched folder. -/
structure HotFolder where
  root : String
  kind : Kind
  dedupe : Bool
  options : Except (Status × Json) (List Arg)
  refuses : ∀ e, options = .error e → e.1 ≠ .ok

/-- The parts of a watched folder. -/
structure Tray where
  input : String → Option File
  done : Dir
  failed : Dir

/-- Whether a text occurs. -/
def hasInfix (pat : Bytes) : Bytes → Bool
  | [] => pat.isEmpty
  | b :: bs => pat.isPrefixOf (b :: bs) || hasInfix pat bs

/-- The kind of a document by its first bytes. -/
def sniff (head : Bytes) : Option String :=
  if [0xff, 0xd8, 0xff].isPrefixOf head then some "jpg"
  else if hasInfix [0x25, 0x50, 0x44, 0x46] (head.take 1024) then some "pdf"
  else none

/-- A file name without its last extension. -/
def fileStem (name : String) : String :=
  match name.toList.reverse.dropWhile (· != '.') with
  | [] => name
  | ['.'] => name
  | _ :: before => String.ofList before.reverse

/-- The fallible calls that place a result. -/
inductive PlacePoint where
  | document
  | report
  | input
  deriving DecidableEq

/-- How placing a result ends. -/
inductive PlaceEnd where
  | ok
  | failed
  | killed
  deriving DecidableEq

/-- The end of a placing that is cut. -/
def placeCut (f : Fault PlacePoint) : PlaceEnd :=
  match f with
  | .kill _ => .killed
  | _ => .failed

namespace Tray

/-- Write a file into the part a status belongs to. -/
def put (t : Tray) (status : Status) (name : String) (b : Bytes) : Tray :=
  if status = .ok then { t with done := t.done.write name b }
  else { t with failed := t.failed.write name b }

/-- Take an input file away. -/
def clear (t : Tray) (name : String) : Tray :=
  { t with input := Function.update t.input name none }

end Tray

/-- Place an outcome: document and report, or report and original. -/
def place (render : Json → Bytes) (t : Tray) (file : String) (outcome : Outcome)
    (pdf : Option Bytes) (f : Fault PlacePoint) : Tray × PlaceEnd :=
  let stem := fileStem file
  match outcome with
  | .pdf report =>
      if f.stops .document then (t, placeCut f)
      else match pdf with
      | none => (t, .failed)
      | some b =>
          let t₁ := t.put .ok (stem ++ ".pdf") b
          if f.stops .report then (t₁, placeCut f)
          else
            let t₂ := t₁.put .ok (stem ++ ".json") (render (.obj report))
            if f.stops .input then (t₂, placeCut f) else (t₂.clear file, .ok)
  | .json status body =>
      if f.stops .report then (t, placeCut f)
      else
        let t₁ := t.put status (stem ++ ".json") (render body)
        if f.stops .input then (t₁, placeCut f)
        else match t₁.input file with
        | none => (t₁, .ok)
        | some x => ((t₁.put status file x.bytes).clear file, .ok)

/-- The submission made of an input file. -/
def hotRequest (f : HotFolder) (name ext : String) (bytes : Bytes) (options : List Arg) :
    Request where
  src := [("in." ++ ext, bytes)]
  kind := f.kind
  args := options ++ .file ("in." ++ ext) ::
    if f.kind = .convert then [.out "out.pdf"] else []
  name := name
  hot := some (f.root, name)
  dedupe := f.dedupe

/-- What becomes of an input file. -/
inductive Intake where
  | refuse (status : Status) (body : Json)
  | accept (r : Request)

/-- Decide about the contents of an input file. -/
def intake (inLibrary : String → Bool) (f : HotFolder) (name : String) (bytes : Bytes) : Intake :=
  match sniff (bytes.take 1024) with
  | none =>
      .refuse .badRequest (errorBody "NOT_A_PDF" "the body is neither a PDF nor a JPEG")
  | some ext =>
      match f.options with
      | .error e => .refuse e.1 e.2
      | .ok options =>
          let r := hotRequest f name ext bytes options
          match validateJob r.kind r.args (some r.src) inLibrary with
          | .error e => .refuse .badRequest (errorBody "BAD_REQUEST" e)
          | .ok () => .accept r

/-- Where a scan is, with the number of files written before it opened the one it copies. -/
inductive ScanAt where
  | idle
  | stable (f : HotFolder) (name : String)
  | clear (f : HotFolder) (name : String)
  | copying (f : HotFolder) (name : String) (bytes : Bytes) (torn : Bool) (since : Nat)
  | copied (f : HotFolder) (name : String) (bytes : Bytes) (since : Nat)

/-- A write to a file tears the copy that is being made of it. -/
def ScanAt.write (root name : String) : ScanAt → ScanAt
  | .copying f n b torn since => .copying f n b (torn || (f.root = root && n = name)) since
  | s => s

/-- A content of an input file, by folder and name, and its number. -/
structure Content where
  root : String
  name : String
  bytes : Bytes
  serial : Nat
  deriving DecidableEq

/-- What made a file leave its folder: its users, the refusal of a copy with the number of files
written before that copy was begun, or the delivery of a job. -/
inductive Fate where
  | replaced
  | refused (since : Nat)
  | delivered (id : Nat)
  deriving DecidableEq

/-- A coordinator with the folders it watches. -/
structure Watch where
  coord : Coord
  tray : String → Tray
  seen : String → String → Option (Nat × Int)
  scan : ScanAt
  retried : List Nat
  placed : List Nat
  drops : Nat
  stable : List Content
  begun : Nat → Nat
  gone : List (Content × Fate)

/-- What a coordinator with watched folders is started with. -/
structure WatchConfig where
  env : Env
  set : Settings
  folders : List HotFolder
  render : Json → Bytes

namespace Watch

/-- A coordinator on a fresh data directory and empty folders. -/
def start : Watch where
  coord := .start
  tray _ := ⟨fun _ => none, [], []⟩
  seen _ _ := none
  scan := .idle
  retried := []
  placed := []
  drops := 0
  stable := []
  begun _ := 0
  gone := []

/-- The input file of a folder. -/
def file? (w : Watch) (root name : String) : Option File := (w.tray root).input name

/-- Replace a folder. -/
def setTray (w : Watch) (root : String) (t : Tray) : Watch :=
  { w with tray := Function.update w.tray root t }

/-- Put or delete an input file. -/
def setFile (w : Watch) (root name : String) (x : Option File) : Watch :=
  w.setTray root { w.tray root with input := Function.update (w.tray root).input name x }

/-- The content of an input file, to be remembered. -/
def content (w : Watch) (root name : String) : List Content :=
  match w.file? root name with
  | some x => [⟨root, name, x.bytes, x.serial⟩]
  | none => []

/-- Remember what became of the input file of a folder. -/
def lose (w : Watch) (root name : String) (fate : Fate) : Watch :=
  { w with gone := (w.content root name).map (·, fate) ++ w.gone }

/-- Remember what was seen of a file. -/
def see (w : Watch) (root name : String) (sig : Option (Nat × Int)) : Watch :=
  { w with seen := Function.update w.seen root (Function.update (w.seen root) name sig) }

/-- A user writes an input file. -/
def write (w : Watch) (root name : String) (bytes : Bytes) (modified : Int) : Watch :=
  { (w.lose root name .replaced).setFile root name (some ⟨bytes, modified, w.drops⟩) with
    scan := w.scan.write root name
    drops := w.drops + 1 }

/-- A user deletes an input file. -/
def delete (w : Watch) (root name : String) : Watch :=
  (w.lose root name .replaced).setFile root name none

/-- Carry a step of the coordinator; a process that is gone forgets. -/
def settle (w : Watch) (c : Coord) : Watch :=
  if c.up then { w with coord := c }
  else { w with coord := c, scan := .idle, retried := [], placed := [], seen := fun _ _ => none }

/-- Carry what placing has done to a folder. -/
def carry (w : Watch) (root name : String) (fate : Fate) (out : Tray × PlaceEnd) : Watch :=
  let v := (if out.1.input name = none then w.lose root name fate else w).setTray root out.1
  if out.2 = .killed then v.settle w.coord.kill else v

end Watch

/-- The steps of a coordinator with watched folders. -/
inductive WatchLabel where
  | coord (a : Label)
  | write (root name : String) (bytes : Bytes) (modified : Int)
  | delete (root name : String)
  | look (folder : Nat) (name : String)
  | check
  | open
  | copy (bytes : Bytes)
  | giveUp
  | enqueue (now : Int) (io : SubmitIo) (f : Fault PlacePoint)
  | retain (root name : String)
  | place (id : Nat) (f : Fault PlacePoint)
  | placeError (id : Nat) (err : String) (f : Fault PlacePoint)
  | mark (id : Nat) (ok : Bool)

/-- The steps of the coordinator that do not come from watched folders. -/
def Label.api (c : Coord) : Label → Bool
  | .submit r _ _ => r.hot.isNone
  | .delivered .. => false
  | .release id _ _ => (c.job? id).all fun j => j.folder.isNone
  | _ => true

/-- Where the result of a job belongs. -/
def Job.target (j : Job) : Option (String × String) :=
  j.folder.bind fun root => j.file.map fun name => (root, name)

/-- The outcome of a job that has ended. -/
def Job.outcome (env : Env) (j : Job) : Outcome :=
  Server.outcome env.fromStr j.kind (j.result.getD (.lost "no result"))

/-- The steps of a scan. -/
def scanStep (cfg : WatchConfig) (w : Watch) : WatchLabel → Option Watch
  | .look i name =>
      match w.scan, cfg.folders[i]? with
      | .idle, some f =>
          match w.file? f.root name with
          | some x =>
              if name.toList.head? = some '.' then none
              else
                let sig := (x.bytes.length, x.modified)
                if w.seen f.root name = some sig then
                  some { w with
                    scan := .stable f name
                    stable := ⟨f.root, name, x.bytes, x.serial⟩ :: w.stable }
                else some (w.see f.root name (some sig))
          | none => none
      | _, _ => none
  | .check =>
      match w.scan with
      | .stable f name =>
          if inFlight w.coord.store.db f.root name then some { w with scan := .idle }
          else some { w.see f.root name none with scan := .clear f name }
      | _ => none
  | .open =>
      match w.scan with
      | .clear f name =>
          match w.file? f.root name with
          | some x => some { w with scan := .copying f name x.bytes false w.drops }
          | none => some { w with scan := .idle }
      | _ => none
  | .copy bytes =>
      match w.scan with
      | .copying f name b torn since =>
          if torn ∨ bytes = b then some { w with scan := .copied f name bytes since } else none
      | _ => none
  | .giveUp =>
      match w.scan with
      | .clear .. | .copying .. | .copied .. => some { w with scan := .idle }
      | _ => none
  | .enqueue now io fault =>
      match w.scan with
      | .copied f name bytes since =>
          match intake cfg.env.inLibrary f name bytes with
          | .refuse status body =>
              let out := Server.place cfg.render (w.tray f.root) name (.json status body) none fault
              some ({ w with scan := .idle }.carry f.root name (.refused since) out)
          | .accept r =>
              -- the id that a new row gets
              let id := w.coord.store.db.nextId
              (next cfg.env cfg.set w.coord (.submit r now io)).map
                { w with scan := .idle, begun := Function.update w.begun id since }.settle
      | _ => none
  | .retain root name =>
      match w.scan, w.file? root name with
      | .idle, none => some (w.see root name none)
      | _, _ => none
  | _ => none

/-- The steps of a delivery. -/
def deliverStep (cfg : WatchConfig) (w : Watch) : WatchLabel → Option Watch
  | .place id fault =>
      if id ∈ w.coord.delivering ∧ id ∉ w.retried ∧ id ∉ w.placed then
        match w.coord.job? id with
        | some j =>
            match j.target with
            | some (root, name) =>
                let pdf := (w.coord.store.jobs id).bind fun d => d.read "out.pdf"
                let out :=
                  Server.place cfg.render (w.tray root) name (j.outcome cfg.env) pdf fault
                let w' := w.carry root name (.delivered id) out
                match out.2 with
                | .ok => some { w' with placed := id :: w.placed }
                | .failed => some { w' with retried := id :: w.retried }
                | .killed => some w'
            | none => (next cfg.env cfg.set w.coord (.delivered id false)).map w.settle
        | none => (next cfg.env cfg.set w.coord (.delivered id false)).map w.settle
      else none
  | .placeError id err fault =>
      if id ∈ w.coord.delivering ∧ id ∈ w.retried then
        match (w.coord.job? id).bind Job.target with
        | some (root, name) =>
            let out := Server.place cfg.render (w.tray root) name
              (.json .internalServerError (errorBody "INTERNAL" err)) none fault
            let w' := { w with retried := w.retried.erase id }.carry root name (.delivered id) out
            match out.2 with
            | .ok => some { w' with placed := id :: w.placed }
            | .failed =>
                (next cfg.env cfg.set w.coord (.delivered id false)).map w'.settle
            | .killed => some w'
        | none => none
      else none
  | .mark id ok =>
      if id ∈ w.placed then
        (next cfg.env cfg.set w.coord (.delivered id ok)).map
          { w with placed := w.placed.erase id }.settle
      else none
  | _ => none

/-- One step; undefined where the label is not enabled. -/
def watchStep (cfg : WatchConfig) (w : Watch) : WatchLabel → Option Watch
  | .coord a => if a.api w.coord then (next cfg.env cfg.set w.coord a).map w.settle else none
  | .write root name bytes modified => some (w.write root name bytes modified)
  | .delete root name => some (w.delete root name)
  | a =>
      if w.coord.up then
        match a with
        | .place .. | .placeError .. | .mark .. => deliverStep cfg w a
        | _ => scanStep cfg w a
      else none

end Kura.Server
