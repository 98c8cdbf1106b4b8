import Kura.Base.Json
import Kura.Base.JsonGrammar
import Kura.Engine.Batch
import Kura.Engine.Plan

/-!
# Reports

Every file that is converted or checked is reported as a JSON object. A batch
prints an array of them: one after the other as the files are done, or, with
several jobs, from the outputs of the processes that did them.

## Implementation notes

A report is written as its members with commas between them; the source adds
the comma to the member before or behind it. A process of its own runs
`runOne` on its file, with the files as they are at that moment. The time limit
is that of the batch; the one that `runOne` sets for each file is left out, and
so are the report file and the temporary file of a certificate.
-/

namespace Kura.Engine.Report

open Kura.Base Kura.Base.JsonGrammar Kura.Engine.Jobs Kura.Engine.Batch

/-- A byte inside quotes; what is not printable ASCII is escaped byte by byte. -/
def escapeByte (c : UInt8) : List Char :=
  if c = 0x22 then ['\\', '"']
  else if c = 0x5C then ['\\', '\\']
  else if c = 0x0A then ['\\', 'n']
  else if c = 0x0D then ['\\', 'r']
  else if c = 0x09 then ['\\', 't']
  else if c < 0x20 ∨ 0x7E < c then
    ['\\', 'u', '0', '0', Nat.digitChar (c.toNat / 16), Nat.digitChar (c.toNat % 16)]
  else [Char.ofNat c.toNat]

def jsonEscape (s : String) : List Char := (utf8 s.toList).flatMap escapeByte

/-- A text in quotes. -/
def quoted (s : String) : List Char := '"' :: jsonEscape s ++ ['"']

/-- A text in quotes that is not escaped. -/
def bare (s : String) : List Char := '"' :: s.toList ++ ['"']

def boolText (b : Bool) : List Char := if b then "true".toList else "false".toList

def intText (n : Int) : List Char := (if n < 0 then ['-'] else []) ++ Nat.toDigits 10 n.natAbs

/-- A member of an object. -/
def member (key : String) (value : List Char) : List Char := bare key ++ ':' :: value

def array (items : List (List Char)) : List Char := '[' :: joinComma items ++ [']']

def object (members : List (List Char)) : List Char := '\x7b' :: joinComma members ++ ['\x7d']

/-- The severity and the pages of an issue. -/
def issueMeta (i : Issue) : List (List Char) :=
  [member "severity" (intText i.severity), member "pages" (array (i.pages.map intText))]

def issueJson (i : Issue) : List Char :=
  object ([member "code" (quoted i.code), member "detail" (quoted i.detail),
    member "fixed" (boolText i.fixed)] ++ issueMeta i)

def analysisJson (i : Issue) : List Char :=
  object ([member "code" (quoted i.code), member "detail" (quoted i.detail)] ++ issueMeta i)

/-- The engine and its version. -/
def engineText : String := "BentoPDF Kura Engine 1.3.0"

/-- What the command line sets beside the options. -/
structure Globals where
  pureUa : Bool
  onlyPdfa : Bool
  certify : Bool
  analyze : Bool
  jobId : String

variable {ρ : Type}

/-- A text member that is left out if it is empty. -/
def optional (key value : String) : List (List Char) :=
  if value = "" then [] else [member key (quoted value)]

/-- The members of a report, with the file and its output. -/
def reportMembers (g : Globals) (opt : Options ρ) (res : Result) (source output : String) :
    List (List Char) :=
  optional "file" source ++ (optional "output" output ++
    ([member "ok" (boolText res.ok),
      member "level" (bare (if res.level = "" then levelToString opt.level else res.level)),
      member "engine" (bare engineText)] ++
    ((if res.errorCode = "" then []
      else [member "errorCode" (quoted res.errorCode), member "error" (quoted res.error)]) ++
    (optional "suggestedLevel" res.suggestedLevel ++
    ((if opt.verifyOnly then
      [member "mode" (bare "check"), member "compliant" (boolText res.compliant),
        member "findings" (intText (findings res))]
      else []) ++
    ([member "issues" (array
      ((res.issues.filter fun i => !opt.verifyOnly || isFinding i).map issueJson))] ++
    ((if g.analyze ∨ opt.preflightProfile ≠ "" then
      [member "analysis" (array (res.analysis.map analysisJson))] else []) ++
    optional "jobId" g.jobId)))))))

/-- A report. -/
def printReport (g : Globals) (opt : Options ρ) (res : Result) (source output : String) :
    List Char :=
  object (reportMembers g opt res source output)

/-- What a run uses beside the jobs. -/
structure Setup (ρ : Type) where
  env : Env ρ
  globals : Globals
  /-- The options with the source to embed. -/
  embed : Path → Bytes → Options ρ → Options ρ
  /-- The findings of the accessibility check. -/
  uaCheck : Bytes → Except String (List Issue)
  /-- The options of the check of a result. -/
  fresh : Options ρ
  writable : Path → Bool
  certified : Path → Bool

/-- Options and result of a conversion; with `onlyPdfa` the result has to pass its check. -/
def converted (c : Setup ρ) (opt : Options ρ) (data : Bytes) : Options ρ × Result :=
  let res := Plan.convert c.env data opt
  let name := String.ofList (res.level.toList.takeWhile (· ≠ '+'))
  let opt := { opt with level := (levelFromString name).getD opt.level }
  if c.globals.onlyPdfa ∧ res.ok ∧ ¬ opt.verifyOnly ∧ levelFamily opt.level = .PDFA ∧
      ¬ (Plan.convert c.env res.pdf
        { c.fresh with level := opt.level, verifyOnly := true }).compliant
  then
    (opt, { res with
      ok := false, errorCode := "NOT_PDFA"
      error := "the result does not pass PDF/A validation; no output written", pdf := [] })
  else (opt, res)

/-- The result of the accessibility check. -/
def uaResult (c : Setup ρ) (opt : Options ρ) (data : Bytes) : Result :=
  if ¬ opt.verifyOnly then
    { noResult with
      level := "ua1", errorCode := "LEVEL_VERIFY_ONLY"
      error := "ua1 is a check-only level; convert with --level 2u --ua" }
  else
    match c.uaCheck data with
    | .ok issues =>
        { noResult with level := "ua1", ok := true, issues, compliant := issues.isEmpty }
    | .error e => { noResult with level := "ua1", errorCode := "PARSE_ERROR", error := e }

/-- The note on a certificate. -/
def certificateIssue (done : Bool) : Issue :=
  if done then
    ⟨"CERTIFIED", "embedded a check certificate (verify with kura tool verify-cert)", true, 1, []⟩
  else ⟨"CERTIFY_FAILED", "could not embed the check certificate", false, 2, []⟩

/-- Exit codes. -/
def exitOf (opt : Options ρ) (res : Result) : Int :=
  if ¬ res.ok then 2 else if opt.verifyOnly ∧ ¬ res.compliant then 1 else 0

/-- What a file leaves: the files, the text that is printed and the exit code. -/
structure Ran where
  tree : Tree
  text : Option (List Char)
  code : Int

/-- Converts or checks a file and reports it; a file that cannot be read or an output that
cannot be written is not reported. -/
def runOne (c : Setup ρ) (opt : Options ρ) (t : Tree) (src dst : Path) : Ran :=
  match t.read src with
  | none => ⟨t, none, 2⟩
  | some data =>
      let opt := c.embed src data opt
      if c.globals.pureUa then
        let ua := uaResult c opt data
        ⟨t, some (printReport c.globals opt ua (pathText src) "" ++ ['\n']),
          if ¬ ua.ok then 2 else if ua.compliant then 0 else 1⟩
      else
        let (opt, res) := converted c opt data
        if res.ok ∧ ¬ opt.verifyOnly then
          if c.writable dst then
            let res :=
              if c.globals.certify then
                { res with issues := res.issues ++ [certificateIssue (c.certified dst)] }
              else res
            ⟨t.write dst res.pdf,
              some (printReport c.globals opt res (pathText src) (pathText dst) ++ ['\n']),
              exitOf opt res⟩
          else ⟨t, none, 2⟩
        else
          ⟨t, some (printReport c.globals opt res (pathText src) "" ++ ['\n']), exitOf opt res⟩

/-- Naming a destination creates its directory. -/
def withDestination (o : BatchOptions) (t : Tree) (src : Path) : Tree :=
  if o.verifyOnly then t else t.createDirectories (destDir o src)

/-- The files one after the other. -/
def sequential (c : Setup ρ) (o : BatchOptions) (opt : Options ρ) : Tree → List Path → List Char
  | _, [] => []
  | t, src :: rest =>
      match dstFor o t src with
      | none => sequential c o opt t rest
      | some d =>
          let ran := runOne c opt (withDestination o t src) src (d.getD [])
          ran.text.getD [] ++ (if rest = [] then [] else [',']) ++ '\n' ::
            sequential c o opt ran.tree rest

/-- The output of a process without carriage returns and line ends behind it. -/
def trimOutput (s : List Char) : List Char :=
  ((s.filter (· ≠ '\r')).reverse.dropWhile fun c => c = '\n' ∨ c = '\r').reverse

/-- What the process of a file prints, empty if there was none. -/
def childOutput (c : Setup ρ) (o : BatchOptions) (opt : Options ρ) (t : Tree) (src : Path) :
    List Char :=
  match dstFor o t src with
  | none => []
  | some d =>
      trimOutput ((runOne c opt (withDestination o t src) src (d.getD [])).text.getD [])

/-- The report of a file whose process printed nothing. -/
def noReport (src : Path) : List Char :=
  object [member "file" (quoted (pathText src)), member "ok" (boolText false)]

/-- The reports of processes; `during` tells the files at the moment a process runs. -/
def parallel (c : Setup ρ) (o : BatchOptions) (opt : Options ρ) (during : Path → Tree) :
    List Path → List Char
  | [] => []
  | src :: rest =>
      let out := childOutput c o opt (during src) src
      (if out = [] then noReport src else out) ++ (if rest = [] then [] else [',']) ++ '\n' ::
        parallel c o opt during rest

/-- The watchdog of a batch. Its deadline is set when the program starts, and again only by
`runOne`, which other processes run for a batch of several processes. -/
structure Watchdog where
  /-- The milliseconds that are allowed, or zero. -/
  limit : Nat
  /-- When it looks at the clock, up to the end of the batch. -/
  looks : List Nat
  /-- How much of the text was printed when it ended the program. -/
  printed : Nat

/-- The watchdog finds the deadline passed. -/
def Watchdog.strikes (w : Watchdog) : Bool := w.limit ≠ 0 && w.looks.any fun t => w.limit ≤ t

/-- What the watchdog prints before it ends the program. -/
def timeoutReport (g : Globals) : List Char :=
  ("\x7b\n  \"ok\": false,\n  \"errorCode\": \"CONVERT_TIMEOUT\",\n" ++
    "  \"error\": \"conversion exceeded the time budget; the input may be " ++
    "malformed or crafted with pathological nesting\"").toList ++
    (if g.jobId = "" then [] else ",\n  \"jobId\": ".toList ++ quoted g.jobId) ++
    ['\n', '\x7d', '\n']

/-- The array that a batch prints, as far as the watchdog lets it. -/
def batchText (c : Setup ρ) (o : BatchOptions) (opt : Options ρ) (w : Watchdog) (jobs : Nat)
    (t : Tree) (during : Path → Tree) (inputs : List Path) : List Char :=
  if 1 < jobs ∧ 1 < inputs.length then
    let text := '[' :: '\n' :: parallel c o opt during inputs ++ [']']
    if w.strikes then text.take w.printed ++ timeoutReport c.globals else text
  else '[' :: '\n' :: sequential c o opt t inputs ++ [']']

end Kura.Engine.Report
