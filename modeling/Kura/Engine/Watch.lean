import Kura.Engine.BatchPaths

/-!
# A watched folder

With `--watch` the folder is collected again and again. The files that nobody
has written to for two seconds are converted as a batch and then moved to the
folder `done`.

## Implementation notes

Files are dropped at any moment, also between the steps of a conversion. Time
is not modelled: a scan takes some of the files that are collected. Files that
are there when the loop starts count as dropped before the first scan. The
last four fields of the state are not the loop's; they record what was dropped
and converted, which files conversions wrote and which were moved.
-/

namespace Kura.Engine.Batch

open Kura.Base Kura.Transition

/-- The folder of the files that are done. -/
def doneDir (input : Path) : Path := input ++ [⟨"done", by decide⟩]

/-- Where a file is moved to. -/
def doneAt (input src : Path) : Path := doneDir input ++ src.getLast?.toList

namespace Tree

/-- A file can be given another name, unless that is a directory. -/
def canRename (t : Tree) (p q : Path) : Bool :=
  (t.read p).isSome && !t.dirs.contains q && t.dirs.contains q.parent

/-- Gives a file another name; one that has it is replaced. -/
def rename (t : Tree) (p q : Path) : Tree :=
  if t.canRename p q then { t with files := (t.files.erase p).insert q ((t.read p).getD []) } else t

end Tree

/-- The state of the loop. -/
structure WatchState where
  tree : Tree
  /-- Files of the batch that are not read yet. -/
  waiting : List Path
  /-- Conversions that are not written yet. -/
  running : List (Path × Bytes)
  /-- Files of the batch that are not moved yet. -/
  leaving : List Path
  dropped : List (Path × Bytes)
  converted : List (Path × Bytes)
  /-- Files that a conversion wrote. -/
  made : List Path
  /-- Files that were moved. -/
  moved : List Path

/-- What happens next. -/
inductive WatchAction where
  | drop (p : Path) (b : Bytes)
  | scan (ready : List Path)
  | batch (a : Action)
  | move

/-- There is no batch. -/
def WatchState.Idle (s : WatchState) : Prop := s.waiting = [] ∧ s.running = [] ∧ s.leaving = []

instance (s : WatchState) : Decidable s.Idle :=
  inferInstanceAs (Decidable (s.waiting = [] ∧ s.running = [] ∧ s.leaving = []))

/-- The file that is converted; one that is refused is not. -/
def conversionOf (o : BatchOptions) (t : Tree) (src : Path) : List (Path × Bytes) :=
  if (dstFor o t src).isSome then ((t.read src).map fun b => (src, b)).toList else []

/-- A file is dropped; what was there is replaced. -/
def dropFile (s : WatchState) (p : Path) (b : Bytes) : WatchState :=
  { s with
    tree := (s.tree.createDirectories p.parent).write p b
    dropped := s.dropped ++ [(p, b)]
    made := s.made.filter (· ≠ p)
    moved := s.moved.filter (· ≠ p) }

/-- A step of the batch. -/
def batchStep (o : BatchOptions) (convert : Path → Bytes → Option Bytes) (s : WatchState)
    (a : Action) : Option WatchState :=
  (act o convert ⟨s.tree, s.waiting, s.running⟩ a).map fun b =>
    let next := { s with tree := b.tree, waiting := b.waiting, running := b.running }
    match a with
    | .read src => { next with converted := s.converted ++ conversionOf o s.tree src }
    | .write src =>
        if Path.parent (dst o src) ∈ s.tree.dirs then
          { next with made := dst o src :: s.made, moved := s.moved.filter (· ≠ dst o src) }
        else next

/-- Moves the first file that is left; errors are ignored. -/
def moveFile (input : Path) (s : WatchState) (f : Path) (rest : List Path) : WatchState :=
  let q := doneAt input f
  if s.tree.canRename f q then
    { s with
      tree := s.tree.rename f q
      leaving := rest
      made := if f ∈ s.made then q :: s.made.filter (· ≠ f) else s.made.filter (· ≠ q)
      moved := q :: s.moved }
  else { s with leaving := rest }

/-- A step of the loop or of its users. -/
def watchStep (o : BatchOptions) (input : Path) (convert : Path → Bytes → Option Bytes)
    (s : WatchState) : WatchAction → Option WatchState
  | .drop p b => some (dropFile s p b)
  | .scan ready =>
      if s.Idle ∧ ready.Sublist (collect o input s.tree) then
        some { s with waiting := ready, leaving := ready }
      else none
  | .batch a => batchStep o convert s a
  | .move =>
      if s.waiting = [] ∧ s.running = [] then
        match s.leaving with
        | [] => none
        | f :: rest => some (moveFile input s f rest)
      else none

/-- The loop before its first scan; files in `done` are from earlier runs. -/
def startWatch (input : Path) (t : Tree) : WatchState where
  tree := t.createDirectories (doneDir input)
  waiting := []
  running := []
  leaving := []
  dropped := []
  converted := []
  made := []
  moved := t.files.keys.filter fun p => Path.parent p = doneDir input

/-- No file that a conversion wrote is taken as an input, and no file is moved over one that was
moved. -/
def Safe (input : Path) (s : WatchState) : WatchAction → Prop
  | .scan ready => ∀ p ∈ ready, p ∉ s.made
  | .move => ∀ f ∈ s.leaving.head?, doneAt input f ∉ s.moved
  | _ => True

/-- There is nothing to convert. -/
def Settled (o : BatchOptions) (input : Path) (s : WatchState) : Prop :=
  s.Idle ∧ collect o input s.tree = []

/-- A file that may be dropped: it is collected and not refused, its output is no input, and its
name is free in `done`. -/
structure Fits (o : BatchOptions) (input : Path) (convert : Path → Bytes → Option Bytes)
    (s : WatchState) (p : Path) (b : Bytes) : Prop where
  taken : takes o input p = true
  accepted : o.verifyOnly = true ∨ o.overwrite = true ∨ dst o p ≠ p
  apart : o.verifyOnly = true ∨ convert p b = none ∨ dst o p = p ∨ takes o input (dst o p) = false
  unlike : ∀ d ∈ s.dropped, d.1.getLast? ≠ p.getLast?
  unmoved : doneAt input p ∉ s.moved
  noDir : doneAt input p ∉ s.tree.dirs
  noOutDir : ∀ dir ∈ o.outDir, ¬ doneAt input p <+: dir

/-- Only files that may be are dropped. -/
def Meets (o : BatchOptions) (input : Path) (convert : Path → Bytes → Option Bytes)
    (s : WatchState) : WatchAction → Prop
  | .drop p b => Fits o input convert s p b
  | _ => True

/-- A run of the loop after the last drop; at some time on all files are ready when a scan comes. -/
structure AfterDrops (o : BatchOptions) (input : Path) (convert : Path → Bytes → Option Bytes)
    (states : ℕ → WatchState) (actions : ℕ → WatchAction) : Prop where
  run : Endless (watchStep o input convert) (fun _ a => ∀ p b, a ≠ .drop p b) states actions
  ready : ∃ k, ∀ n, k ≤ n → ∀ ready, actions n = .scan ready →
    ready = collect o input (states n).tree

end Kura.Engine.Batch
