import Mathlib

/-!
# Job arguments, results and files

The argument list of a job names files only by their plain names inside the
job's own directory; absolute paths appear when a list is resolved for one
engine run.
-/

namespace Kura.Server

/-- File contents. -/
abbrev Bytes := List UInt8

/-- What a job asks of the engine. -/
inductive Kind where
  | convert
  | check
  | verify
  deriving DecidableEq, Repr

/-- One command line argument of a job. -/
inductive Arg where
  | lit (s : String)
  | file (n : String)
  | out (n : String)
  | profile (id : String)
  deriving DecidableEq, Repr

/-- What an engine run left: exit code, captured output, timeout flag. -/
structure RunResult where
  code : Option Int
  out : String
  err : String
  timedOut : Bool
  deriving DecidableEq, Repr

/-- The result recorded for a job no worker brought to an end. -/
def RunResult.lost (err : String) : RunResult := ⟨some (-1), "", err, false⟩

/-- Joining a relative or absolute name to a directory path. -/
def joinPath (dir name : String) : String :=
  match name.toList with
  | '/' :: _ => name
  | _ => if dir.toList.getLast? = some '/' then dir ++ name else dir ++ "/" ++ name

/-- Where a library profile is stored. -/
def profilePath (profiles id : String) : String := joinPath profiles (id ++ ".json")

/-- The words of one argument on the engine's command line. -/
def resolveArg (dir profiles : String) : Arg → String
  | .lit s => s
  | .file n => joinPath dir n
  | .out n => joinPath dir n
  | .profile id => profilePath profiles id

/-- The engine's command line for an argument list. -/
def resolve (args : List Arg) (dir profiles : String) : List String :=
  args.map (resolveArg dir profiles)

/-- The files an argument list reads, in order. -/
def inputFiles (args : List Arg) : List String :=
  args.filterMap fun a => match a with
    | .file n => some n
    | _ => none

/-- The files an argument list writes, in order. -/
def outputFiles (args : List Arg) : List String :=
  args.filterMap fun a => match a with
    | .out n => some n
    | _ => none

/-- Letters and digits of ASCII. -/
def isAsciiAlphanumeric (c : Char) : Bool :=
  ('a' ≤ c && c ≤ 'z') || ('A' ≤ c && c ≤ 'Z') || ('0' ≤ c && c ≤ '9')

/-- Decimal digits of ASCII. -/
def isAsciiDigit (c : Char) : Bool := '0' ≤ c && c ≤ '9'

/-- Names that stay inside the directory they are joined to. -/
def safeName (name : String) : Bool :=
  !name.toList.isEmpty && name.utf8ByteSize ≤ 100 && name.toList.head? != some '.' &&
    name.toList.all fun c => isAsciiAlphanumeric c || c == '.' || c == '_' || c == '-'

/-- A directory: its plain files with their contents. -/
abbrev Dir := List (String × Bytes)

namespace Dir

/-- The contents of a file. -/
def read (d : Dir) (n : String) : Option Bytes := (d.find? fun f => f.1 == n).map Prod.snd

/-- Whether a file exists. -/
def has (d : Dir) (n : String) : Bool := d.any fun f => f.1 == n

/-- Delete a file. -/
def remove (d : Dir) (n : String) : Dir := d.filter fun f => f.1 != n

/-- Create or replace a file. -/
def write (d : Dir) (n : String) (b : Bytes) : Dir := (n, b) :: d.remove n

theorem has_iff (d : Dir) (n : String) : d.has n = true ↔ ∃ b, (n, b) ∈ d := by
  simp [has]

theorem has_iff_read (d : Dir) (n : String) : d.has n = true ↔ ∃ b, d.read n = some b := by
  rw [has_iff]
  constructor
  · rintro ⟨b, hb⟩
    have hs : (d.find? fun f => f.1 == n).isSome := by
      rw [List.find?_isSome]
      exact ⟨_, hb, by simp⟩
    obtain ⟨f, hf⟩ := Option.isSome_iff_exists.mp hs
    exact ⟨f.2, by simp [read, hf]⟩
  · rintro ⟨b, hb⟩
    obtain ⟨f, hf, rfl⟩ := Option.map_eq_some_iff.mp hb
    have hname : f.1 = n := by simpa using List.find?_some hf
    exact ⟨f.2, hname ▸ List.mem_of_find?_eq_some hf⟩

@[simp] theorem read_write_self (d : Dir) (n : String) (b : Bytes) :
    (d.write n b).read n = some b := by
  simp [write, read]

theorem read_remove_ne (d : Dir) {m n : String} (h : m ≠ n) :
    (d.remove n).read m = d.read m := by
  have hp : (fun f : String × Bytes => decide ((f.1 != n) = true ∧ (f.1 == m) = true)) =
      fun f => f.1 == m := by
    funext f
    by_cases hf : f.1 = m
    · simp [hf, h]
    · simp [hf]
  simp only [read, remove, List.find?_filter, hp]

theorem read_write_ne (d : Dir) {m n : String} (b : Bytes) (h : m ≠ n) :
    (d.write n b).read m = d.read m := by
  have hnm : ¬ n = m := fun he => h he.symm
  rw [← read_remove_ne d h]
  simp [write, read, hnm]

/-- Writing keeps every file that was there. -/
theorem has_write_of_has {d : Dir} {m n : String} {b : Bytes} (h : d.has m = true) :
    (d.write n b).has m = true := by
  by_cases hm : m = n
  · subst hm
    simp [write, has]
  · rw [has_iff_read] at h ⊢
    rwa [read_write_ne d b hm]

@[simp] theorem has_write_self (d : Dir) (n : String) (b : Bytes) :
    (d.write n b).has n = true := by
  simp [write, has]

end Dir

end Kura.Server
