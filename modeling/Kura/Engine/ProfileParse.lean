import Kura.Base.Assign
import Kura.Engine.JsonReader
import Kura.Engine.RuleHits

/-!
# Reading profiles

`parseKuraJson` reads the text of a profile: its checks become rules with
conditions, its shapes and fixes are read after them. Every check is kept in an
index twice, under its generated id and under its name, and later checks
overwrite what earlier ones wrote.

## Implementation notes

What the build generates from the catalogue is a parameter: the numbers of
checks and fixes, the parameters they take, and the checks of an atom or a fix
against them. The index is a function that assignments update. Conditions are
kept in the order in which they are read; only the message of a profile that is
refused anyway depends on the order of their keys.
-/

namespace Kura.Engine.ProfileParse

open Kura.Base (assign assign_append)
open Kura.Engine.Profile

/-- One requirement of a condition. -/
structure PfAtom where
  token : String := ""
  op : String := ""
  vals : List String := []
  params : VarMap := []
  refs : List String := []
  tol : Double := .fin 0
  negate : Bool := false
  icase : Bool := false
  countOp : String := ""
  nums : List Double := []
  check : Int := -1
  deriving DecidableEq

/-- Requirements that are met together. -/
structure PfCondition where
  atoms : List PfAtom := []
  deriving DecidableEq

/-- A rule: what its report uses, its id and how it is evaluated. -/
structure PfRule extends RuleHits.PfRule where
  id : String
  logic : Int
  scope : Int
  maxHitsPerPage : Int
  condIds : List String

/-- A fix with its settings and the checks whose pages it is kept to. -/
structure PfFix where
  id : String := ""
  args : VarMap := []
  onlyWhere : List String := []
  fix : Int := -1

/-- A shape: a page box or what a check finds, moved out by an offset. -/
structure PfShape where
  box : String := ""
  check : String := ""
  offset : Double := .fin 0

/-- A profile that has been read. -/
structure PfProfile where
  name : String := ""
  description : String := ""
  conds : List (String × PfCondition) := []
  rules : List PfRule := []
  ruleIndex : String → Option PfRule := fun _ => none
  fixes : List PfFix := []
  shapes : List (String × PfShape) := []

/-- What is used of the catalogue and of the C library. -/
structure Registry where
  /-- The number of a check, negative for an unknown one. -/
  checkIndex : String → Int
  /-- Whether a check takes a parameter. -/
  takesParam : Int → String → Bool
  /-- The type of a check's value. -/
  valueType : Int → String
  /-- An atom with its defaults and the message of what is wrong with it. -/
  checkAtom : PfAtom → String → PfAtom × String
  /-- A fix with its number and defaults, and the message of what is wrong with it. -/
  checkFix : PfFix → String → PfFix × String
  /-- A text as a quantity of a type, in a unit if it names none. -/
  parseQuantity : (text type unit : String) → Option Double
  /-- The scripting library, for the texts of numbers. -/
  scripting : Scripting

section

variable (reg : Registry)

def Registry.text (v : Json) : String := v.text reg.scripting

/-- The text of a text, a number or a truth value. -/
def scalarText : Json → Option String
  | .str s => some s
  | .num d => some (reg.text (.num d))
  | .bool b => some (reg.text (.bool b))
  | _ => none

/-- The texts of a list of scalars or of one scalar. -/
def scalarList : Json → Option (List String)
  | .arr xs => xs.mapM (scalarText reg)
  | v => (scalarText reg v).map fun t => [t]

/-- The items with line ends between them. -/
def joinList (items : List String) : String := "\n".intercalate items

/-- The texts of a list of texts only. -/
def checkNames : List Json → Option (List String)
  | [] => some []
  | .str s :: rest => (checkNames rest).map fun names => s :: names
  | _ => none

/-- One member of an atom; the tolerance is kept aside. -/
def atomMember (path : String) (key : String) (v : Json) (st : PfAtom × Option Json) :
    Except String (PfAtom × Option Json) :=
  let (a, tol) := st
  if key = "check" then
    match v with
    | .str s => .ok ({ a with token := s }, tol)
    | _ => .error (path ++ ": expected a check id")
  else if key = "op" then
    match v with
    | .str s => .ok ({ a with op := s }, tol)
    | _ => .error (path ++ ": expected an operator")
  else if key = "compare" then
    match v with
    | .str s => .ok ({ a with countOp := s }, tol)
    | _ => .error (path ++ ": expected an operator")
  else if key = "value" then
    match scalarList reg v with
    | some vals => .ok ({ a with vals := a.vals ++ vals }, tol)
    | none => .error (path ++ ": expected a value or a list of values")
  else if key = "negate" then
    match v with
    | .bool b => .ok ({ a with negate := b }, tol)
    | _ => .error (path ++ ": expected true or false")
  else if key = "case_sensitive" then
    match v with
    | .bool b => .ok ({ a with icase := !b }, tol)
    | _ => .error (path ++ ": expected true or false")
  else if key = "tolerance" then
    match v with
    | .num d => .ok (a, some (.num d))
    | .str s => .ok (a, some (.str s))
    | _ => .error (path ++ ": expected a number")
  else if key = "objects" then
    match v with
    | .arr xs =>
        match checkNames xs with
        | some names => .ok ({ a with refs := a.refs ++ names }, tol)
        | none => .error (path ++ ": expected a list of check names")
    | _ => .error (path ++ ": expected a list of check names")
  else
    match scalarList reg v with
    | some items => .ok ({ a with params := a.params.set key (joinList items) }, tol)
    | none => .error (path ++ ": expected a value or a list of values")

/-- The members of an atom, one after the other. -/
def atomMembers (place : String) :
    List (String × Json) → PfAtom × Option Json → Except String (PfAtom × Option Json)
  | [], st => .ok st
  | (key, v) :: rest, st =>
      match atomMember reg (place ++ "." ++ key) key v st with
      | .error e => .error e
      | .ok st' => atomMembers place rest st'

/-- The parameter of an atom. -/
def param (a : PfAtom) (name : String) : String := (a.params.get name).getD ""

/-- The size of a quantity. -/
def fabs : Double → Double
  | .fin q => .fin |q|
  | .negInf => .posInf
  | d => d

/-- The tolerance of a checked atom. -/
def withTolerance (place : String) (a : PfAtom) : Option Json → Except String PfAtom
  | none => .ok a
  | some tol =>
      let type := reg.valueType a.check
      let unit := if param a "unit" = "" then "pt" else param a "unit"
      match reg.parseQuantity (reg.text tol) (if type = "size" then "length" else type) unit with
      | some t => .ok { a with tol := fabs t }
      | none => .error (place ++ ".tolerance: " ++ reg.text tol ++ " is not a " ++ type)

def atom (place : String) : Json → Except String PfAtom
  | .obj ms =>
      match atomMembers reg place ms ({}, none) with
      | .error e => .error e
      | .ok (a, tol) =>
          if a.token = "" then .error (place ++ ".check: missing")
          else
            let ci := reg.checkIndex a.token
            -- a tolerance that is a parameter of the check is no tolerance of the comparison
            let asParam := 0 ≤ ci ∧ reg.takesParam ci "tolerance" = true
            let (a, tol) :=
              match tol with
              | some t =>
                  if asParam then
                    ({ a with params := a.params.set "tolerance" (reg.text t) }, none)
                  else (a, some t)
              | none => (a, none)
            let (a, e) := reg.checkAtom a place
            if e ≠ "" then .error e else withTolerance reg place a tol
  | _ => .error (place ++ ": expected an object")

/-- The atoms of a condition from a position on. -/
def conditionFrom (place : String) : Nat → List Json → Except String (List PfAtom)
  | _, [] => .ok []
  | k, x :: xs =>
      match atom reg (place ++ "[" ++ toString k ++ "]") x with
      | .error e => .error e
      | .ok a => (conditionFrom place (k + 1) xs).map fun rest => a :: rest

def condition (place : String) : Option Json → Except String PfCondition
  | some (.arr (x :: xs)) => (conditionFrom reg place 0 (x :: xs)).map fun atoms => ⟨atoms⟩
  | _ => .error (place ++ ": expected a non-empty list of conditions")

/-- The id of the check at a position. -/
def ruleId (index : Nat) : String := "K" ++ toString (index + 1)

def knownFields : List String :=
  ["name", "severity", "description", "all", "any", "scope", "report_when", "max_hits_per_page",
    "silent"]

/-- The name of a check. -/
def nameOf (c : Json) : Option String :=
  match c.get "name" with
  | some (.str s) => if s = "" then none else some s
  | _ => none

def severityOf (place : String) : Option Json → Except String Int
  | none => .ok 1
  | some (.str s) =>
      if s = "error" then .ok 3 else if s = "warning" then .ok 2 else if s = "info" then .ok 1
      else .error (place ++ ".severity: expected error, warning or info")
  | some _ => .error (place ++ ".severity: expected error, warning or info")

def descriptionOf (place : String) : Option Json → Except String String
  | none => .ok ""
  | some (.str s) => .ok s
  | some _ => .error (place ++ ".description: expected text")

def scopeOf (place : String) : Option Json → Except String Int
  | none => .ok 0
  | some (.str s) =>
      if s = "trim" then .ok 2 else if s = "bleed" then .ok 3 else if s = "page" then .ok 0
      else .error (place ++ ".scope: expected page, trim or bleed")
  | some _ => .error (place ++ ".scope: expected page, trim or bleed")

/-- The comparisons on the hits of the document and of a page. -/
def reportWhenMembers (place : String) :
    List (String × Json) → String × String → Except String (String × String)
  | [], st => .ok st
  | (k, v) :: rest, (doc, page) =>
      if k ≠ "document_hits" ∧ k ≠ "page_hits" then
        .error (place ++ ".report_when." ++ k ++ ": unknown field")
      else
        match v with
        | .str s =>
            if RuleHits.hitsRule s then
              reportWhenMembers place rest
                (if k = "document_hits" then (s, page) else (doc, s))
            else .error (place ++ ".report_when." ++ k ++
              ": expected a comparison such as \"> 3\"")
        | _ => .error (place ++ ".report_when." ++ k ++ ": expected a comparison such as \"> 3\"")

def reportWhen (place : String) : Option Json → Except String (String × String)
  | none => .ok ("", "")
  | some (.obj ms) => reportWhenMembers place ms ("", "")
  | some _ => .error (place ++ ".report_when: expected an object")

def maxHitsPerPageOf (place : String) : Option Json → Except String Int
  | none => .ok 0
  | some (.num (.fin q)) =>
      if q < 0 ∨ q.den ≠ 1 then .error (place ++ ".max_hits_per_page: expected a whole number")
      else .ok q.num
  | some _ => .error (place ++ ".max_hits_per_page: expected a whole number")

def silentOf (place : String) : Option Json → Except String Bool
  | none => .ok false
  | some (.bool b) => .ok b
  | some _ => .error (place ++ ".silent: expected true or false")

/-- The alternatives of a check from a position on. -/
def alternatives (place : String) : Nat → List Json → Except String (List (Option Json × String))
  | _, [] => .ok []
  | g, alt :: rest =>
      let path := place ++ ".any[" ++ toString g ++ "]"
      if alt.isObj ∧ alt.members.length = 1 ∧ (alt.get "all").isSome then
        (alternatives place (g + 1) rest).map fun groups =>
          (alt.get "all", path ++ ".all") :: groups
      else .error (path ++ ": expected \x7b\"all\": [...]\x7d")

/-- The logic of a check and the lists of conditions it has. -/
def groupsOf (place : String) (c : Json) :
    Except String (Int × List (Option Json × String)) :=
  match c.get "all", c.get "any" with
  | some all, none => .ok (0, [(some all, place ++ ".all")])
  | none, some (.arr (x :: xs)) => (alternatives place 0 (x :: xs)).map fun groups => (1, groups)
  | none, some _ => .error (place ++ ".any: expected a non-empty list")
  | _, _ => .error (place ++ ": needs either all or any")

/-- The conditions of a rule, with the keys they are kept under. -/
def conditions (id : String) :
    Nat → List (Option Json × String) → Except String (List (String × PfCondition))
  | _, [] => .ok []
  | g, (list, place) :: rest =>
      match condition reg place list with
      | .error e => .error e
      | .ok cond => (conditions id (g + 1) rest).map fun conds =>
          ("C" ++ id ++ "_" ++ toString g, cond) :: conds

/-- What a check says of its rule, once its name is known. -/
def ruleOf (c : Json) (index : Nat) (name : String) :
    Except String (PfRule × List (String × PfCondition)) := do
  let place := "check \"" ++ name ++ "\""
  let severity ← severityOf place (c.get "severity")
  let description ← descriptionOf place (c.get "description")
  let scope ← scopeOf place (c.get "scope")
  let (reportDocHits, reportPageHits) ← reportWhen place (c.get "report_when")
  let maxHitsPerPage ← maxHitsPerPageOf place (c.get "max_hits_per_page")
  let silent ← silentOf place (c.get "silent")
  let (logic, groups) ← groupsOf place c
  let conds ← conditions reg (ruleId index) 0 groups
  return ({ id := ruleId index, name, description, severity, silent, reportDocHits, reportPageHits,
            logic, scope, maxHitsPerPage, condIds := conds.map Prod.fst }, conds)

/-- Keeps a rule: its conditions, and the rule itself under its id and under its name. -/
def addRule (out : PfProfile) (rule : PfRule) (conds : List (String × PfCondition)) : PfProfile :=
  { out with
    conds := out.conds ++ conds
    ruleIndex :=
      Function.update (Function.update out.ruleIndex rule.id (some rule)) rule.name (some rule)
    rules := out.rules ++ [rule] }

def check (c : Json) (index : Nat) (out : PfProfile) (names : List String) :
    Except String (PfProfile × List String) :=
  let place := "checks[" ++ toString index ++ "]"
  if c.isObj = false then .error (place ++ ": expected an object")
  else
    match c.members.find? fun m => !knownFields.contains m.1 with
    | some m => .error (place ++ "." ++ m.1 ++ ": unknown field")
    | none =>
        match nameOf c with
        | none => .error (place ++ ".name: missing")
        | some name =>
            if name ∈ names then
              .error (place ++ ".name: duplicate check name \"" ++ name ++ "\"")
            else
              match ruleOf reg c index name with
              | .error e => .error e
              | .ok (rule, conds) => .ok (addRule out rule conds, name :: names)

/-- The checks of a profile from a position on. -/
def checksFrom :
    Nat → List Json → PfProfile × List String → Except String (PfProfile × List String)
  | _, [], st => .ok st
  | k, c :: cs, st =>
      match check reg c k st.1 st.2 with
      | .error e => .error e
      | .ok st' => checksFrom (k + 1) cs st'

def boxNames : List String := ["media", "crop", "bleed", "trim", "art"]

/-- The members of a shape. -/
def shapeMembers (path : String) (names : List String) :
    List (String × Json) → PfShape → Except String PfShape
  | [], sh => .ok sh
  | (key, v) :: rest, sh =>
      let text := reg.text v
      if key = "box" then
        if boxNames.contains text then shapeMembers path names rest { sh with box := text }
        else .error (path ++ ".box: \"" ++ text ++ "\" is not one of media,crop,bleed,trim,art")
      else if key = "check" then
        if names.contains text then shapeMembers path names rest { sh with check := text }
        else .error (path ++ ".check: no check named \"" ++ text ++ "\"")
      else if key = "offset" then
        match reg.parseQuantity text "length" "pt" with
        | some d => shapeMembers path names rest { sh with offset := d }
        | none => .error (path ++ ".offset: " ++ text ++ " is not a length")
      else .error (path ++ "." ++ key ++ ": unknown field")

def shape (path : String) (names : List String) : Json → Except String PfShape
  | .obj ms =>
      match shapeMembers reg path names ms {} with
      | .error e => .error e
      | .ok sh =>
          if (sh.box = "") ↔ (sh.check = "") then .error (path ++ ": give either box or check")
          else .ok sh
  | _ => .error (path ++ ": expected an object")

def shapesFrom (names : List String) :
    List (String × Json) → List (String × PfShape) → Except String (List (String × PfShape))
  | [], shapes => .ok shapes
  | (name, d) :: rest, shapes =>
      match shape reg ("shapes." ++ name) names d with
      | .error e => .error e
      | .ok sh => shapesFrom names rest (shapes.filter (fun s => s.1 ≠ name) ++ [(name, sh)])

/-- Whether an atom names a shape that there is. -/
def shapeKnown (shapes : List (String × PfShape)) (names : List String) (a : PfAtom) : Bool :=
  let sh := param a "shape"
  a.token ≠ "content.shape_relation" || sh.toList.contains '\x7b' || boxNames.contains sh ||
    shapes.any (fun s => s.1 = sh) || names.contains sh

/-- The names of `only_where`: each is to be the name of the rule it is found at. -/
def onlyWhere (index : String → Option PfRule) (path : String) (v : Json) :
    Except String (List String) :=
  match v with
  | .arr xs =>
      match scalarList reg (.arr xs) with
      | none => .error (path ++ ": expected a list of check names")
      | some names =>
          match names.find? fun n => !(index n).any fun r => r.name = n with
          | some n => .error (path ++ ": no check named \"" ++ n ++ "\"")
          | none => .ok names
  | _ => .error (path ++ ": expected a list of check names")

/-- One member of a fix. -/
def fixMember (index : String → Option PfRule) (path key : String) (v : Json) (fx : PfFix) :
    Except String PfFix :=
  if key = "fix" then
    match v with
    | .str s => if s = "" then .error (path ++ ": expected a fix id") else .ok { fx with id := s }
    | _ => .error (path ++ ": expected a fix id")
  else if key = "only_where" then
    (onlyWhere reg index path v).map fun names => { fx with onlyWhere := fx.onlyWhere ++ names }
  else
    match scalarList reg v with
    | some items => .ok { fx with args := fx.args.set key (joinList items) }
    | none => .error (path ++ ": expected a value or a list of values")

def fixMembers (index : String → Option PfRule) (place : String) :
    List (String × Json) → PfFix → Except String PfFix
  | [], fx => .ok fx
  | (key, v) :: rest, fx =>
      match fixMember reg index (place ++ "." ++ key) key v fx with
      | .error e => .error e
      | .ok fx' => fixMembers index place rest fx'

def fix (index : String → Option PfRule) (k : Nat) : Json → Except String PfFix
  | .obj ms =>
      let place := "fixes[" ++ toString k ++ "]"
      match fixMembers reg index place ms {} with
      | .error e => .error e
      | .ok fx =>
          if fx.id = "" then .error (place ++ ".fix: missing")
          else
            let (fx, e) := reg.checkFix fx place
            if e ≠ "" then .error e else .ok fx
  | _ => .error ("fixes[" ++ toString k ++ "]: expected an object")

def fixesFrom (index : String → Option PfRule) : Nat → List Json → Except String (List PfFix)
  | _, [] => .ok []
  | k, f :: fs =>
      match fix reg index k f with
      | .error e => .error e
      | .ok fx => (fixesFrom index (k + 1) fs).map fun rest => fx :: rest

def topFields : List String :=
  ["kura-profile", "name", "description", "variables", "shapes", "checks", "fixes", "convert",
    "plan"]

/-- A member that is to be a text. -/
def textField (root : Json) (key : String) : Except String String :=
  match root.get key with
  | none => .ok ""
  | some (.str s) => .ok s
  | some _ => .error (key ++ ": expected text")

/-- A member that is to be a list. -/
def listField (root : Json) (key : String) : Except String (List Json) :=
  match root.get key with
  | none => .ok []
  | some (.arr xs) => .ok xs
  | some _ => .error (key ++ ": expected a list")

/-- The shapes of a profile. -/
def shapesField (root : Json) (names : List String) : Except String (List (String × PfShape)) :=
  match root.get "shapes" with
  | none => .ok []
  | some (.obj ms) => shapesFrom reg names ms []
  | some _ => .error "shapes: expected an object"

/-- The message about an atom that names no shape, the first in the order of the keys. -/
def shapeError (conds : List (String × PfCondition)) (shapes : List (String × PfShape))
    (names : List String) : Option String :=
  let sorted := conds.insertionSort fun a b => a.1 ≤ b.1
  ((sorted.flatMap fun c => c.2.atoms).find? fun a => !shapeKnown shapes names a).map fun a =>
    "content.shape_relation.shape: \"" ++ param a "shape" ++
      "\" is not a page box, a shape or a check name"

/-- What is wrong with a profile before its parts are read. -/
def headError (root : Json) : Option String :=
  if root.isObj = false then some "profile: expected a JSON object"
  else
    match root.get "kura-profile" with
    | none => some "kura-profile: missing"
    | some (.num d) =>
        if d = .fin 1 then
          (root.members.find? fun m => !topFields.contains m.1).map fun m =>
            m.1 ++ ": unknown field"
        else some "kura-profile: expected 1"
    | some _ => some "kura-profile: expected 1"

/-- The fixes of a profile whose checks and shapes have been read. -/
def fixesField (root : Json) (out : PfProfile) : Except String PfProfile := do
  let fs ← listField root "fixes"
  let fixes ← fixesFrom reg out.ruleIndex 0 fs
  return { out with fixes }

/-- The parts of a profile. -/
def parts (root : Json) : Except String PfProfile := do
  let name ← textField root "name"
  let description ← textField root "description"
  let checks ← listField root "checks"
  let (out, names) ← checksFrom reg 0 checks ({ name, description }, [])
  let shapes ← shapesField reg root names
  match shapeError out.conds shapes names with
  | some e => .error e
  | none => fixesField reg root { out with shapes }

def profile (root : Json) : Except String PfProfile :=
  match headError root with
  | some e => .error e
  | none => parts reg root

def parseKuraJson (text : String) : Except String PfProfile :=
  match JsonReader.parseJson text with
  | .error e => .error ("not valid JSON: " ++ e)
  | .ok root => profile reg root

end

section

variable {reg : Registry}

/-- What a rule is kept under. -/
def keysOf (r : PfRule) : List (String × PfRule) := [(r.id, r), (r.name, r)]

/-- What reading checks maintains: ids by position, names once, and the index that the
assignments of all rules give. -/
structure Indexed (out : PfProfile) (names : List String) : Prop where
  ids : ∀ (j : Nat) (r : PfRule), out.rules[j]? = some r → r.id = ruleId j
  names_iff : ∀ n, n ∈ names ↔ ∃ r ∈ out.rules, r.name = n
  nodup : (out.rules.map fun r => r.name).Nodup
  index : out.ruleIndex = assign (fun _ => none) (out.rules.flatMap keysOf)

theorem indexed_empty (name description : String) : Indexed { name, description } [] where
  ids := by simp
  names_iff := by simp
  nodup := List.nodup_nil
  index := rfl

theorem bind_eq_ok_iff {α β : Type} {x : Except String α} {f : α → Except String β} {b : β} :
    x >>= f = .ok b ↔ ∃ a, x = .ok a ∧ f a = .ok b := by
  cases x with
  | error e => simp [bind, Except.bind]
  | ok a => simp [bind, Except.bind]

/-- The rule of a check has its id by its position. -/
theorem ruleOf_eq_ok {c : Json} {index : Nat} {name : String} {rule : PfRule}
    {conds : List (String × PfCondition)} (h : ruleOf reg c index name = .ok (rule, conds)) :
    rule.id = ruleId index ∧ rule.name = name := by
  unfold ruleOf at h
  simp only [bind_eq_ok_iff] at h
  obtain ⟨_, -, _, -, _, -, _, -, _, -, _, -, _, -, _, -, hrule⟩ := h
  cases hrule
  exact ⟨rfl, rfl⟩

/-- An accepted check adds one rule under its id and a new name. -/
theorem check_eq_ok {c : Json} {index : Nat} {out out' : PfProfile} {names names' : List String}
    (h : check reg c index out names = .ok (out', names')) :
    ∃ rule conds, rule.id = ruleId index ∧ rule.name ∉ names ∧
      out' = addRule out rule conds ∧ names' = rule.name :: names := by
  simp only [check] at h
  split at h
  · cases h
  · split at h
    · cases h
    · split at h
      · cases h
      · split at h
        · cases h
        · rename_i name _ hnew
          split at h
          · cases h
          · rename_i rule conds hrule
            obtain ⟨hid, hname⟩ := ruleOf_eq_ok hrule
            cases h
            exact ⟨rule, conds, hid, hname ▸ hnew, rfl, by rw [hname]⟩

/-- A check that is read keeps the index. -/
theorem Indexed.check {c : Json} {out out' : PfProfile} {names names' : List String}
    (hout : Indexed out names)
    (h : ProfileParse.check reg c out.rules.length out names = .ok (out', names')) :
    Indexed out' names' ∧ out'.rules.length = out.rules.length + 1 := by
  obtain ⟨rule, conds, hid, hnew, rfl, rfl⟩ := check_eq_ok h
  have hrules : (addRule out rule conds).rules = out.rules ++ [rule] := rfl
  refine ⟨⟨?_, ?_, ?_, ?_⟩, by simp [hrules]⟩
  · intro j r hr
    rw [hrules, List.getElem?_append] at hr
    split at hr
    · exact hout.ids j r hr
    · rename_i hge
      rw [List.getElem?_singleton] at hr
      split at hr
      · rename_i hzero
        have hj : j = out.rules.length := by omega
        cases hr
        rw [hid, hj]
      · cases hr
  · intro n
    rw [List.mem_cons, hout.names_iff, hrules]
    constructor
    · rintro (rfl | ⟨r, hr, rfl⟩)
      · exact ⟨rule, by simp, rfl⟩
      · exact ⟨r, by simp [hr], rfl⟩
    · rintro ⟨r, hr, rfl⟩
      obtain hr | hr := List.mem_append.mp hr
      · exact .inr ⟨r, hr, rfl⟩
      · rw [List.mem_singleton] at hr
        subst hr
        exact .inl rfl
  · rw [hrules, List.map_append, List.map_singleton, List.nodup_append]
    refine ⟨hout.nodup, List.nodup_singleton _, ?_⟩
    intro a ha b hb hab
    rw [List.mem_singleton] at hb
    subst hb
    obtain ⟨r, hr, hname⟩ := List.mem_map.mp ha
    exact hnew ((hout.names_iff _).mpr ⟨r, hr, hname.trans hab⟩)
  · rw [hrules, List.flatMap_append, assign_append, ← hout.index]
    rfl

/-- Reading checks from where the rules end keeps the index. -/
theorem Indexed.checksFrom {cs : List Json} {out out' : PfProfile} {names names' : List String}
    (hout : Indexed out names)
    (h : ProfileParse.checksFrom reg out.rules.length cs (out, names) = .ok (out', names')) :
    Indexed out' names' := by
  induction cs generalizing out names with
  | nil =>
      cases h
      exact hout
  | cons c cs ih =>
      rw [ProfileParse.checksFrom] at h
      split at h
      · cases h
      · rename_i st hcheck
        obtain ⟨hnext, hlength⟩ := hout.check hcheck
        rw [← hlength] at h
        exact ih hnext h

theorem Indexed.fixesField {root : Json} {out p : PfProfile} {names : List String}
    (hout : Indexed out names) (h : ProfileParse.fixesField reg root out = .ok p) :
    Indexed p names := by
  simp only [ProfileParse.fixesField, bind_eq_ok_iff] at h
  obtain ⟨_, -, fixes, -, hp⟩ := h
  cases hp
  exact ⟨hout.ids, hout.names_iff, hout.nodup, hout.index⟩

/-- Every profile that is read has its rules in the index. -/
theorem indexed_of_profile {root : Json} {p : PfProfile} (h : profile reg root = .ok p) :
    ∃ names, Indexed p names := by
  unfold profile at h
  split at h
  · cases h
  · simp only [parts, bind_eq_ok_iff] at h
    obtain ⟨name, -, description, -, checks, -, ⟨out, names⟩, hchecks, shapes, -, h⟩ := h
    have hout : Indexed out names := (indexed_empty name description).checksFrom hchecks
    split at h
    · cases h
    · have hshapes : Indexed { out with shapes } names :=
        ⟨hout.ids, hout.names_iff, hout.nodup, hout.index⟩
      exact ⟨names, hshapes.fixesField h⟩

theorem indexed_of_parse {text : String} {p : PfProfile} (h : parseKuraJson reg text = .ok p) :
    ∃ names, Indexed p names := by
  unfold parseKuraJson at h
  split at h
  · cases h
  · exact indexed_of_profile h

end

end Kura.Engine.ProfileParse
