import Kura.Base.Search
import Kura.Base.Transition
import Kura.Engine.Cli

/-!
# Batches of files

A call with a folder converts every PDF file in it. `collect` lists the
inputs, `dstFor` names the file an input is converted to, and `runBatch` runs
the conversions, one after the other or several at a time.

## Implementation notes

A path is the list of its names, as its text is split at the slashes; one
directory is written in one way, and there are no links, so that different
paths are different files. A conversion reads its input at one moment and
writes its output at a later one; between them other conversions read and
write. What a conversion gives is a parameter; the reports are left out.
-/

namespace Kura.Engine.Batch

open Kura.Base

/-- The name of a file or a directory. -/
abbrev Name := { s : String // '/' ∉ s.toList }

/-- A path. -/
abbrev Path := List Name

scoped instance : LawfulBEq Path := List.instLawfulBEq

/-- A part of a split text does not have the separator. -/
theorem notMem_of_mem_splitAt {sep : Char} {cs part : List Char} (h : part ∈ splitAt sep cs) :
    sep ∉ part := by
  induction cs generalizing part with
  | nil =>
      rw [splitAt, List.mem_singleton] at h
      rw [h]
      exact List.not_mem_nil
  | cons c cs ih =>
      rw [splitAt] at h
      split at h
      · obtain rfl | hrest := List.mem_cons.mp h
        · exact List.not_mem_nil
        · exact ih hrest
      · rename_i hne
        split at h
        · rw [List.mem_singleton.mp h]
          simpa using fun heq => hne heq.symm
        · rename_i w ws hparts
          obtain rfl | hrest := List.mem_cons.mp h
          · have hw : sep ∉ w := ih (by rw [hparts]; exact List.mem_cons_self)
            simp only [List.mem_cons, not_or]
            exact ⟨fun heq => hne heq.symm, hw⟩
          · exact ih (by rw [hparts]; exact List.mem_cons_of_mem _ hrest)

/-- The names of a text. -/
def names (text : List Char) : Path :=
  (splitAt '/' text).attach.map fun part =>
    ⟨String.ofList part.1, by
      rw [String.toList_ofList]
      exact notMem_of_mem_splitAt part.2⟩

namespace Path

/-- The directory of a file. -/
def parent (p : Path) : Path := p.dropLast

/-- The last name, empty for the empty path. -/
def filename (p : Path) : List Char := ((p.getLast?).map fun n => n.1.toList).getD []

end Path

/-- Where the extension of a name starts: at its last dot, unless the name starts there. -/
def extensionAt (name : List Char) : Nat :=
  if name = ['.', '.'] then name.length
  else
    match rfindFrom ['.'] name name.length with
    | none => name.length
    | some 0 => name.length
    | some (k + 1) => k + 1

def stem (p : Path) : List Char := (Path.filename p).take (extensionAt (Path.filename p))

def extension (p : Path) : List Char := (Path.filename p).drop (extensionAt (Path.filename p))

/-- The extension of a PDF file, in any case. -/
def isPdf (p : Path) : Bool := lowerOf (String.ofList (extension p)) == ".pdf"

/-- The files and the directories. -/
structure Tree where
  files : AList fun _ : Path => Bytes
  dirs : List Path

namespace Tree

/-- The contents of a file. -/
def read (t : Tree) (p : Path) : Option Bytes := t.files.lookup p

/-- Creates a directory and those above it. -/
def createDirectories (t : Tree) (dir : Path) : Tree := { t with dirs := t.dirs ++ dir.inits }

/-- Writes a file; fails if its directory does not exist. -/
def write (t : Tree) (p : Path) (b : Bytes) : Tree :=
  if p.parent ∈ t.dirs then { t with files := t.files.insert p b } else t

end Tree

/-- The options of a batch, and whether the files are only checked. -/
structure BatchOptions where
  recursive : Bool
  overwrite : Bool
  watch : Bool
  outDir : Option Path
  suffix : String
  verifyOnly : Bool

/-- Outputs beside their inputs get a suffix, unless inputs may be overwritten. -/
def withDefaults (o : BatchOptions) : BatchOptions :=
  if ¬ o.verifyOnly ∧ o.outDir = none ∧ o.suffix = "" ∧ ¬ o.overwrite then
    { o with suffix := "_pdfa" }
  else o

/-- The text of a path, for the order of inputs. -/
def pathText (p : Path) : String := "/".intercalate (p.map Subtype.val)

/-- A watched folder leaves out what stands below a directory `done`. -/
def inDone (p : Path) : Bool := (p.drop 1).dropLast.any fun n => n.1 == "done"

/-- A file of the folder that is an input. -/
def takes (o : BatchOptions) (input p : Path) : Bool :=
  isPdf p &&
    if o.recursive then input.isPrefixOf p && input != p && !(o.watch && inDone p)
    else Path.parent p == input && p != []

/-- The inputs of a call. -/
def collect (o : BatchOptions) (input : Path) (t : Tree) : List Path :=
  if input ∈ t.dirs then
    (t.files.keys.filter (takes o input)).insertionSort fun p q => pathText p ≤ pathText q
  else if o.watch then [] else [input]

/-- The directory an output is written to. -/
def destDir (o : BatchOptions) (src : Path) : Path := o.outDir.getD (Path.parent src)

/-- The file an input is converted to. -/
def dst (o : BatchOptions) (src : Path) : Path :=
  destDir o src ++ names (stem src ++ o.suffix.toList ++ ['.', 'p', 'd', 'f'])

/-- The destination of an input, if there is to be one; an input that would be its own
output is refused. -/
def dstFor (o : BatchOptions) (t : Tree) (src : Path) : Option (Option Path) :=
  if o.verifyOnly then some none
  else if (t.read (dst o src)).isSome ∧ ¬ o.overwrite ∧ dst o src = src then none
  else some (some (dst o src))

/-- The file an accepted input is converted to. -/
def target (o : BatchOptions) (t : Tree) (src : Path) : Option Path := (dstFor o t src).bind id

/-- What is still to do. -/
structure BatchState where
  tree : Tree
  /-- Inputs that are not read yet. -/
  waiting : List Path
  /-- Conversions that are not written yet. -/
  running : List (Path × Bytes)

/-- What a thread does next for an input. -/
inductive Action where
  | read (src : Path)
  | write (src : Path)

/-- A step of the batch. -/
def act (o : BatchOptions) (convert : Path → Bytes → Option Bytes) (s : BatchState) :
    Action → Option BatchState
  | .read src =>
      if src ∈ s.waiting then
        let s := { s with waiting := s.waiting.erase src }
        match target o s.tree src with
        | none => some s
        | some _ =>
            let tree := s.tree.createDirectories (destDir o src)
            -- an input that cannot be read or is rejected has no output
            match (s.tree.read src).bind (convert src) with
            | none => some { s with tree := tree }
            | some out => some { s with tree := tree, running := (src, out) :: s.running }
      else none
  | .write src =>
      match s.running.find? fun r => r.1 = src with
      | none => none
      | some r =>
          some { s with
            tree := s.tree.write (dst o src) r.2
            running := s.running.erase r }

/-- The batch before its first step. -/
def startBatch (t : Tree) (inputs : List Path) : BatchState := ⟨t, inputs, []⟩

end Kura.Engine.Batch
