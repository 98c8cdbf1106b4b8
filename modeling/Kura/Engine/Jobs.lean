import Kura.Engine.Profile
import Kura.Engine.Cli

/-!
# Conversions and checks

`convertOnce` runs the passes over a file and gives the verdict of a check.
`runPrepared` puts the values of the variables into the profile first, tries
the fallbacks of a conversion and reduces a check to a range of pages.

## Implementation notes

The passes are a parameter: they give the issues they found and the file they
wrote, or an error. Nothing here depends on which passes there are. The
options they alone read are a field of any type. Of the callbacks only is kept
whether they are set. Reading JSON, files and the facts of a document are
parameters too.
-/

namespace Kura.Engine.Jobs

open Kura.Base (findFrom)
open Kura.Engine.Profile

/-- The standards. -/
inductive Level where
  | A1B | A1A | A2B | A2U | A2A | A3B | A3U | A3A | A4 | A4F | A4E
  | X1A | X3 | X4 | X6 | E1 | VT1 | VT3 | X4P | X5G | X5N | X5PG | X6N | X6P | VT2
  deriving DecidableEq

inductive Family where
  | PDFA | PDFX | PDFE | PDFVT
  deriving DecidableEq

/-- A row of the level table. -/
structure LevelRow where
  level : Level
  name : String
  part : Nat
  conformance : Option Char
  family : Family

/-- The level table. -/
def kLevelTable : List LevelRow :=
  [⟨.A1B, "1b", 1, 'B', .PDFA⟩, ⟨.A1A, "1a", 1, 'A', .PDFA⟩, ⟨.A2B, "2b", 2, 'B', .PDFA⟩,
    ⟨.A2U, "2u", 2, 'U', .PDFA⟩, ⟨.A2A, "2a", 2, 'A', .PDFA⟩, ⟨.A3B, "3b", 3, 'B', .PDFA⟩,
    ⟨.A3U, "3u", 3, 'U', .PDFA⟩, ⟨.A3A, "3a", 3, 'A', .PDFA⟩, ⟨.A4, "4", 4, none, .PDFA⟩,
    ⟨.A4F, "4f", 4, 'F', .PDFA⟩, ⟨.A4E, "4e", 4, 'E', .PDFA⟩, ⟨.X1A, "x1a", 0, none, .PDFX⟩,
    ⟨.X3, "x3", 0, none, .PDFX⟩, ⟨.X4, "x4", 0, none, .PDFX⟩, ⟨.X6, "x6", 0, none, .PDFX⟩,
    ⟨.E1, "e1", 0, none, .PDFE⟩, ⟨.VT1, "vt1", 0, none, .PDFVT⟩, ⟨.VT3, "vt3", 0, none, .PDFVT⟩,
    ⟨.X4P, "x4p", 0, none, .PDFX⟩, ⟨.X5G, "x5g", 0, none, .PDFX⟩, ⟨.X5N, "x5n", 0, none, .PDFX⟩,
    ⟨.X5PG, "x5pg", 0, none, .PDFX⟩, ⟨.X6N, "x6n", 0, none, .PDFX⟩, ⟨.X6P, "x6p", 0, none, .PDFX⟩,
    ⟨.VT2, "vt2", 0, none, .PDFVT⟩]

/-- The row of a level. -/
def levelRow (level : Level) : LevelRow :=
  (kLevelTable.find? fun r => r.level = level).getD ⟨.A2B, "2b", 2, 'B', .PDFA⟩

def levelFromString (s : String) : Option Level :=
  (kLevelTable.find? fun r => r.name == s).map LevelRow.level

def levelToString (level : Level) : String := (levelRow level).name

def levelPart (level : Level) : Nat := (levelRow level).part

def levelFamily (level : Level) : Family := (levelRow level).family

/-- A colour conversion; its settings are read by the passes only. -/
structure ColorJob where
  enabled : Bool := false
  settings : List (String × String) := []

/-- The options that jobs read or change, and the rest of them. -/
structure Options (ρ : Type) where
  level : Level
  verifyOnly : Bool
  preflightProfile : String
  profilePath : String
  profileVars : VarMap
  profileFixOps : List (String × VarMap)
  colorJob : ColorJob
  dualPrint : Bool
  pageRange : String
  levelFromProfile : Bool
  reconvert : Bool
  fallbackDpi : Double
  fallbackProblemPagesOnly : Bool
  quickCheck : Bool
  bookmarks : String
  rasterDpi : Double
  rasterizeAllPages : Bool
  rasterKeepText : Bool
  rasterPages : List Int
  rasterizePage : Bool
  ocrPage : Bool
  signDocument : Bool
  rest : ρ

/-- Something a pass or a job reports. -/
structure Issue where
  code : String
  detail : String
  fixed : Bool
  severity : Int
  pages : List Int
  deriving DecidableEq

/-- The result of a job. -/
structure Result where
  ok : Bool
  pdf : Bytes
  issues : List Issue
  analysis : List Issue
  error : String
  errorCode : String
  suggestedLevel : String
  level : String
  compliant : Bool
  deriving DecidableEq

/-- What the passes leave: they stop early, with an error, or come to an end. -/
structure PassRun where
  stopped : Bool
  pdf : Bytes
  issues : List Issue
  analysis : List Issue
  error : String
  errorCode : String
  suggestedLevel : String
  level : Option Level

/-- What jobs use of the passes, of the file system and of the libraries. -/
structure Env (ρ : Type) extends Scripting where
  passes : Bytes → Options ρ → PassRun
  docJsonOf : Bytes → Options ρ → String
  parseJson : String → Except String Json
  readFile : String → Option String
  atof : String → Double

/-- Issues that are no deviations of the file. -/
def issueIsNormalization (code : String) : Bool :=
  code == "XMP_REBUILT" || code == "CONTENT_FILTERED" || code == "OUTPUT_INTENT_PRESENT"

/-- The severity of an issue that has none. -/
def issueSeverity (code : String) : Int :=
  if issueIsNormalization code ∨ code = "IMAGE_INPUT_WRAPPED" ∨ lit "ANALYZE_" <+: lit code then 1
  else if code = "SCAN_INCOMPLETE" ∨ code = "FONT_SUBSTITUTED" ∨ code = "STRUCT_TREE_SYNTHESIZED"
  then 2
  else 3

def classify (i : Issue) : Issue :=
  if i.severity = 0 then { i with severity := issueSeverity i.code } else i

/-- An issue that counts against a file that is checked. -/
def isFinding (i : Issue) : Bool := i.fixed && !issueIsNormalization i.code

/-- The number of findings that a report of a check gives. -/
def findings (r : Result) : Nat := r.issues.countP isFinding

/-- Another level that a failed conversion suggests. -/
def suggestion (level : Level) (run : PassRun) : String :=
  let code := run.errorCode
  if levelFamily level = .PDFA ∧ levelPart level = 1 ∧
      (code = "TRANSPARENCY_P1" ∨ code = "JPX_IN_PDFA1" ∨ code = "CMYK_MIXED_P1" ∨
        code = "RGB_UNDER_CMYK_P1") then
    if (levelRow level).conformance = some 'A' then "2a" else "2b"
  else if (levelFamily level = .PDFX ∨ levelFamily level = .PDFVT) ∧
      (code = "TRANSPARENCY_P1" ∨ code = "JPX_IN_PDFA1" ∨ code = "X1A_COLOR_UNCONVERTIBLE") then
    "x4"
  else run.suggestedLevel

variable {ρ : Type} (env : Env ρ)

/-- One run of the passes; a failed one gives no file. -/
def convertPass (data : Bytes) (opt : Options ρ) : Result :=
  let run := env.passes data opt
  let level := (run.level.map levelToString).getD ""
  if run.stopped then
    { ok := false, pdf := [], issues := run.issues, analysis := run.analysis
      error := run.error, errorCode := run.errorCode, suggestedLevel := run.suggestedLevel
      level := level, compliant := false }
  else
    let ok := run.errorCode == ""
    let issues := run.issues.map classify
    { ok := ok, pdf := if ok then run.pdf else [], issues := issues,
      analysis := run.analysis.map classify
      error := run.error, errorCode := run.errorCode
      suggestedLevel := if ok then run.suggestedLevel else suggestion opt.level run
      level := level, compliant := opt.verifyOnly && ok && !issues.any isFinding }

/-- The level of print production beside a PDF/A level. -/
def dualLevel (level : Level) : Level := if levelPart level = 4 then .X6 else .X4

/-- A conversion; one to two standards takes two runs. -/
def convertOnce (data : Bytes) (opt : Options ρ) : Result :=
  if opt.dualPrint ∧ levelFamily opt.level = .PDFA ∧ ¬ opt.verifyOnly ∧
      (levelPart opt.level = 2 ∨ levelPart opt.level = 4) then
    let first := { opt with level := dualLevel opt.level, signDocument := false }
    let r1 := convertPass env data first
    if r1.ok then
      let second :=
        { opt with
          preflightProfile := "", profileFixOps := [], colorJob := {}
          rasterizePage := false, ocrPage := false }
      let r2 := convertPass env r1.pdf second
      { r2 with
        analysis := r1.analysis ++ r2.analysis
        issues := r1.issues ++ r2.issues
        level := if r2.ok then levelToString opt.level ++ "+" ++ levelToString first.level
          else r2.level }
    else r1
  else convertPass env data opt

/-- Without the white space around it. -/
def trimmed (cs : List Char) : List Char :=
  let blank (c : Char) : Bool := c == ' ' || c == '\t' || c == '\r' || c == '\n'
  ((cs.dropWhile blank).reverse.dropWhile blank).reverse

/-- The value of leading digits. -/
def leadingNumber (cs : List Char) : Nat :=
  (cs.takeWhile Char.isDigit).foldl (fun n c => 10 * n + (c.toNat - 48)) 0

/-- `std::atoi`; a number that does not fit is cut to 32 bits. -/
def atoi (cs : List Char) : Int :=
  let blank (c : Char) : Bool := c == ' ' || ('\t' ≤ c && c ≤ '\r')
  let wide : Int :=
    match cs.dropWhile blank with
    | '-' :: rest => max (-(leadingNumber rest : Int)) (-2 ^ 63)
    | '+' :: rest => min (leadingNumber rest) (2 ^ 63 - 1)
    | rest => min (leadingNumber rest) (2 ^ 63 - 1)
  wide.bmod (2 ^ 32)

/-- The part of a range of pages covers a page. -/
def partCovers (part : List Char) (page : Int) : Bool :=
  if part = "even".toList ∧ page.tmod 2 = 0 then true
  else if part = "odd".toList ∧ page.tmod 2 = 1 then true
  else
    match findFrom ['-'] part 0 with
    | none => atoi part ≤ page && page ≤ atoi part
    | some dash =>
        let lo := if dash = 0 then 1 else atoi part
        let hi := if dash + 1 ≥ part.length then 2 ^ 30 else atoi (part.drop (dash + 1))
        lo ≤ page && page ≤ hi

/-- The parts between commas; there is none behind a last comma. -/
def rangeParts (range : String) : List (List Char) :=
  let parts := splitAt ',' range.toList
  if parts.getLast? = some [] then parts.dropLast else parts

/-- A page lies in a range. -/
def pageInRange (range : String) (page : Int) : Bool :=
  (rangeParts range).any fun part => partCovers (trimmed part) page

/-- The issues that concern a range; those without pages stay. -/
def filterRange (list : List Issue) (range : String) : List Issue :=
  list.filterMap fun i =>
    if i.pages = [] then some i
    else
      let pages := i.pages.filter (pageInRange range)
      if pages = [] then none else some { i with pages := pages }

/-- The name of a level as profiles write it. -/
def levelName (s : String) : String :=
  let cs := (lowerOf s).toList
  let cs := if ['p', 'd', 'f'].isPrefixOf cs then cs.drop 3 else cs
  let cs := cs.filter fun c => !(c == '-' || c == '/' || c == ' ' || c == '_')
  match cs with
  | 'a' :: d :: rest => String.ofList (if d.isDigit then d :: rest else cs)
  | _ => String.ofList cs

/-- A resolution from 24 to 1200. -/
def resolutionOf (j : Option Json) (dflt : Double) : Double :=
  match j with
  | none => dflt
  | some j =>
      let v := env.atof (j.text env.toScripting)
      if Double.lt (.fin 0) v then
        if Double.lt v (.fin 24) then .fin 24 else if Double.lt (.fin 1200) v then .fin 1200 else v
      else dflt

def profileInvalid (detail : String) : Issue := ⟨"PROFILE_INVALID", detail, false, 3, []⟩

/-- The target a profile names. -/
def convertLevel (cv : Json) (opt : Options ρ) : Options ρ × List Issue × String :=
  match cv.get "level" with
  | none => (opt, [], "")
  | some lv =>
      if opt.levelFromProfile then
        match levelFromString (levelName (lv.text env.toScripting)) with
        | some l => ({ opt with level := l }, [], "profile converts to " ++ levelToString l)
        | none =>
            (opt, [profileInvalid ("convert.level: \"" ++ lv.text env.toScripting ++
              "\" is not a known standard")], "")
      else (opt, [], "")

/-- The standard of print production a profile adds. -/
def convertAlso (cv : Json) (opt : Options ρ) (pre : List Issue) (what : String) :
    Options ρ × List Issue × String :=
  match cv.get "also" with
  | none => (opt, pre, what)
  | some also =>
      let text := also.text env.toScripting
      if text = "" then (opt, pre, what)
      else
        match (levelFromString (levelName text)).filter fun l => levelFamily l = .PDFX with
        | some l =>
            ({ opt with dualPrint := true }, pre,
              what ++ (if what = "" then "profile adds" else ",") ++ " also " ++ levelToString l)
        | none =>
            (opt, pre ++ [profileInvalid ("convert.also: \"" ++ text ++
              "\" is not a PDF/X standard")], what)

/-- The fallbacks a profile asks for. -/
def convertFallbacks (cv : Json) (opt : Options ρ) : Options ρ :=
  let opt :=
    match cv.get "reconvert" with
    | some (.bool b) => { opt with reconvert := opt.reconvert || b }
    | _ => opt
  match cv.get "raster_fallback" with
  | some (.obj ms) =>
      let rf := Json.obj ms
      let opt :=
        if opt.fallbackDpi.le (.fin 0) then
          { opt with fallbackDpi := resolutionOf env (rf.get "resolution") (.fin 300) }
        else opt
      let opt :=
        if (rf.get "pages").map (Json.text env.toScripting) = some "problem_pages" then
          { opt with fallbackProblemPagesOnly := true }
        else opt
      match rf.get "keep_text" with
      | some (.bool false) => { opt with rasterKeepText := false }
      | _ => opt
  | _ => opt

/-- The options and the issues of the `convert` part of a profile. -/
def applyConvert (root : Json) (opt : Options ρ) : Options ρ × List Issue :=
  match root.get "convert" with
  | some (.obj ms) =>
      let cv := Json.obj ms
      let (opt, pre, what) := convertLevel env cv opt
      let (opt, pre, what) := convertAlso env cv opt pre what
      (convertFallbacks env cv opt,
        if what = "" then pre else pre ++ [⟨"PROFILE_TARGET", what, false, 1, []⟩])
  | _ => (opt, [])

/-- What was noted about a variable. -/
def variableSet (n : String) : Issue :=
  ⟨"VARIABLE_SET", n, false, if "variable ".toList.isPrefixOf n.toList then 2 else 1, []⟩

/-- The options with the values of the variables put into the profile. -/
def prepare (data : Bytes) (opt : Options ρ) : Options ρ × List Issue :=
  if opt.preflightProfile = "" then (opt, [])
  else
    match env.parseJson opt.preflightProfile with
    | .ok (.obj ms) =>
        let root := Json.obj ms
        let defs := listProfileVariables env.toScripting root
        let (root, opt, pre) :=
          if defs.isEmpty ∧ opt.profileVars.isEmpty then (root, opt, [])
          else
            let (values, notes) :=
              resolveVariables env.toScripting defs (env.docJsonOf data opt) opt.profileVars "[]"
            let root := substituteProfile env.toScripting root values
            (root, { opt with preflightProfile := jsonText env.toScripting root },
              notes.map variableSet)
        let (opt, more) := applyConvert env root opt
        (opt, pre ++ more)
    | _ => (opt, [])

/-- What a job does, apart from its target. -/
def Options.scope (opt : Options ρ) : Bool × String := (opt.verifyOnly, opt.pageRange)

theorem scope_convertLevel (cv : Json) (opt : Options ρ) :
    (convertLevel env cv opt).1.scope = opt.scope := by
  unfold convertLevel
  split
  · rfl
  · split
    · split
      · rfl
      · rfl
    · rfl

theorem scope_convertAlso (cv : Json) (opt : Options ρ) (pre : List Issue) (what : String) :
    (convertAlso env cv opt pre what).1.scope = opt.scope := by
  unfold convertAlso
  split
  · rfl
  · dsimp only
    split
    · rfl
    · split
      · rfl
      · rfl

theorem scope_convertFallbacks (cv : Json) (opt : Options ρ) :
    (convertFallbacks env cv opt).scope = opt.scope := by
  unfold convertFallbacks
  dsimp only
  -- one case for each setting of the profile, all of them about other options
  repeat' split
  all_goals rfl

theorem scope_applyConvert (root : Json) (opt : Options ρ) :
    (applyConvert env root opt).1.scope = opt.scope := by
  unfold applyConvert
  split
  · rename_i ms hcv
    dsimp only
    rw [scope_convertFallbacks, scope_convertAlso, scope_convertLevel]
  · rfl

theorem verifyOnly_applyConvert (root : Json) (opt : Options ρ) :
    (applyConvert env root opt).1.verifyOnly = opt.verifyOnly :=
  congrArg Prod.fst (scope_applyConvert env root opt)

/-- A profile cannot turn a check into a conversion or change the pages it is about. -/
theorem scope_prepare (data : Bytes) (opt : Options ρ) :
    (prepare env data opt).1.scope = opt.scope := by
  unfold prepare
  split
  · rfl
  · split
    · dsimp only
      split
      · exact scope_applyConvert env _ _
      · exact scope_applyConvert env _ _
    · rfl

theorem verifyOnly_prepare (data : Bytes) (opt : Options ρ) :
    (prepare env data opt).1.verifyOnly = opt.verifyOnly :=
  congrArg Prod.fst (scope_prepare env data opt)

theorem pageRange_prepare (data : Bytes) (opt : Options ρ) :
    (prepare env data opt).1.pageRange = opt.pageRange :=
  congrArg Prod.snd (scope_prepare env data opt)

/-- A check of a file that was written. -/
def verifyBytes (pdf : Bytes) (opt : Options ρ) : Result :=
  convertOnce env pdf
    { opt with
      verifyOnly := true, preflightProfile := "", profileFixOps := [], colorJob := {}
      signDocument := false, rasterizePage := false, bookmarks := "" }

/-- The second conversion starts from the file of the first one. -/
def secondRun (r : Result) (opt : Options ρ) : Result :=
  convertOnce env r.pdf { opt with preflightProfile := "", profileFixOps := [], colorJob := {} }

/-- The second conversion, if it is asked for and gives a file that passes the check. -/
def reconverted (r : Result) (opt : Options ρ) : Option Result :=
  let r2 := secondRun env r opt
  if opt.reconvert ∧ r.ok ∧ r2.ok ∧ (verifyBytes env r2.pdf opt).compliant then
    some { r2 with
      analysis := r.analysis ++ r2.analysis
      issues := r2.issues ++ [⟨"FALLBACK_RECONVERTED",
        "converted a second time from the first result", true, 1, []⟩] }
  else none

/-- The pages that become images; with none, all of them. -/
def rasterOptions (r check : Result) (opt : Options ρ) : Options ρ :=
  let pages :=
    if opt.fallbackProblemPagesOnly ∧ r.ok then
      (opt.rasterPages ++ (check.issues.filter isFinding).flatMap Issue.pages).dedup
    else opt.rasterPages
  { opt with
    rasterDpi := opt.fallbackDpi
    rasterPages := pages
    rasterizeAllPages := opt.rasterizeAllPages || pages.isEmpty }

/-- The conversion of pages to images; `check` is the last check that was made. -/
def rasterized (data : Bytes) (r check : Result) (opt : Options ρ) : Option Result :=
  let o := rasterOptions r check opt
  let r3 := convertOnce env data o
  if r3.ok then
    some { r3 with
      issues := r3.issues ++ [⟨"FALLBACK_RASTERIZED",
        "regular conversion did not reach compliance; " ++
          (if o.rasterizeAllPages then "all pages"
            else toString o.rasterPages.length ++ " page(s)") ++
          " converted to images" ++
          (if o.rasterKeepText then " with the original text kept invisible" else ""),
        true, 2, []⟩] }
  else none

/-- The empty result. -/
def noResult : Result := ⟨false, [], [], [], "", "", "", "", false⟩

/-- The check of the first file. -/
def firstCheck (r : Result) (opt : Options ρ) : Result :=
  if r.ok then verifyBytes env r.pdf opt else noResult

/-- The last check that was made; a second conversion is checked too. -/
def lastCheck (r : Result) (opt : Options ρ) : Result :=
  let r2 := secondRun env r opt
  if opt.reconvert ∧ r.ok ∧ r2.ok then verifyBytes env r2.pdf opt else firstCheck env r opt

/-- The fallbacks of a conversion that does not reach its level. -/
def withFallbacks (data : Bytes) (r : Result) (opt : Options ρ) : Result :=
  if ¬ opt.verifyOnly ∧ (opt.reconvert ∨ Double.lt (.fin 0) opt.fallbackDpi) ∧
      levelFamily opt.level = .PDFA ∧ ¬ (r.ok ∧ (firstCheck env r opt).compliant) then
    match reconverted env r opt with
    | some r2 => r2
    | none =>
        if Double.lt (.fin 0) opt.fallbackDpi ∧ opt.rasterizePage then
          (rasterized env data r (lastCheck env r opt) opt).getD r
        else r
  else r

/-- A quick check stops at the first finding. -/
def quickChecked (opt : Options ρ) (r : Result) : Result :=
  if opt.quickCheck ∧ opt.verifyOnly then
    match r.issues.find? isFinding with
    | some i => { r with issues := [i] }
    | none => r
  else r

/-- The result for a range of pages; the verdict of a check is given again. -/
def pageFiltered (opt : Options ρ) (r : Result) : Result :=
  if opt.pageRange = "" then r
  else
    let issues := filterRange r.issues opt.pageRange
    { r with
      issues := issues
      analysis := filterRange r.analysis opt.pageRange
      compliant := if opt.verifyOnly ∧ r.ok then !issues.any isFinding else r.compliant }

/-- A conversion or a check with its profile. -/
def runPrepared (data : Bytes) (optIn : Options ρ) : Result :=
  let (opt, pre) := prepare env data optIn
  let r := withFallbacks env data (convertOnce env data opt) opt
  let r := pageFiltered opt (quickChecked opt r)
  { r with analysis := pre ++ r.analysis }

section Codes

variable {env} {P : String → Prop}

theorem code_classify (i : Issue) : (classify i).code = i.code := by
  unfold classify
  split
  · rfl
  · rfl

/-- The codes of a result all meet a condition. -/
def CodesMeet (P : String → Prop) (r : Result) : Prop := ∀ i ∈ r.issues, P i.code

theorem codesMeet_convertPass (hpass : ∀ data opt, ∀ i ∈ (env.passes data opt).issues, P i.code)
    (data : Bytes) (opt : Options ρ) : CodesMeet P (convertPass env data opt) := by
  intro i hi
  unfold convertPass at hi
  dsimp only at hi
  split at hi
  · exact hpass data opt i hi
  · obtain ⟨j, hj, rfl⟩ := List.mem_map.mp hi
    rw [code_classify]
    exact hpass data opt j hj

theorem codesMeet_convertOnce (hpass : ∀ data opt, ∀ i ∈ (env.passes data opt).issues, P i.code)
    (data : Bytes) (opt : Options ρ) : CodesMeet P (convertOnce env data opt) := by
  unfold convertOnce
  split
  · dsimp only
    split
    · intro i hi
      obtain hfirst | hsecond := List.mem_append.mp hi
      · exact codesMeet_convertPass hpass _ _ i hfirst
      · exact codesMeet_convertPass hpass _ _ i hsecond
    · exact codesMeet_convertPass hpass _ _
  · exact codesMeet_convertPass hpass _ _

/-- An issue more. -/
theorem CodesMeet.push {r : Result} {i : Issue} (h : CodesMeet P r) (hi : P i.code) :
    ∀ j ∈ r.issues ++ [i], P j.code := by
  intro j hj
  obtain hold | hnew := List.mem_append.mp hj
  · exact h j hold
  · rw [List.mem_singleton.mp hnew]
    exact hi

/-- A property of all issue codes survives the two fallbacks. -/
theorem codesMeet_withFallbacks (hpass : ∀ data opt, ∀ i ∈ (env.passes data opt).issues, P i.code)
    (hre : P "FALLBACK_RECONVERTED") (hraster : P "FALLBACK_RASTERIZED")
    (data : Bytes) {r : Result} (hr : CodesMeet P r) (opt : Options ρ) :
    CodesMeet P (withFallbacks env data r opt) := by
  have hsecond : ∀ r2, reconverted env r opt = some r2 → CodesMeet P r2 := by
    intro r2 h2
    unfold reconverted at h2
    dsimp only at h2
    split at h2
    · cases h2
      exact (codesMeet_convertOnce hpass _ _).push hre
    · cases h2
  have himages : ∀ check r3, rasterized env data r check opt = some r3 → CodesMeet P r3 := by
    intro check r3 h3
    unfold rasterized at h3
    dsimp only at h3
    split at h3
    · cases h3
      exact (codesMeet_convertOnce hpass _ _).push hraster
    · cases h3
  unfold withFallbacks
  split
  · split
    · rename_i r2 h2
      exact hsecond r2 h2
    · split
      · cases h3 : rasterized env data r (lastCheck env r opt) opt with
        | none => exact hr
        | some r3 => exact himages _ r3 h3
      · exact hr
  · exact hr

theorem codesMeet_quickChecked {r : Result} (hr : CodesMeet P r) (opt : Options ρ) :
    CodesMeet P (quickChecked opt r) := by
  unfold quickChecked
  split
  · split
    · rename_i i hi
      intro j hj
      rw [List.mem_singleton.mp hj]
      exact hr i (List.mem_of_find?_eq_some hi)
    · exact hr
  · exact hr

theorem codesMeet_pageFiltered {r : Result} (hr : CodesMeet P r) (opt : Options ρ) :
    CodesMeet P (pageFiltered opt r) := by
  unfold pageFiltered
  split
  · exact hr
  · intro i hi
    obtain ⟨j, hj, hkept⟩ := List.mem_filterMap.mp hi
    have hcode : i.code = j.code := by
      dsimp only at hkept
      split at hkept
      · rw [Option.some.inj hkept]
      · split at hkept
        · cases hkept
        · rw [← Option.some.inj hkept]
    rw [hcode]
    exact hr j hj

/-- A job has the codes of the passes and those of its fallbacks. -/
theorem codesMeet_runPrepared (hpass : ∀ data opt, ∀ i ∈ (env.passes data opt).issues, P i.code)
    (hre : P "FALLBACK_RECONVERTED") (hraster : P "FALLBACK_RASTERIZED")
    (data : Bytes) (opt : Options ρ) : CodesMeet P (runPrepared env data opt) := by
  have honce := codesMeet_convertOnce hpass data (prepare env data opt).1
  have hfall := codesMeet_withFallbacks hpass hre hraster data honce (prepare env data opt).1
  exact codesMeet_pageFiltered (codesMeet_quickChecked hfall _) _

end Codes

end Kura.Engine.Jobs
