import Kura.Engine.Jobs

/-!
# Repairing annotations

Actions that a standard does not allow are removed, flags are set, and the
appearance is reduced to one stream, or for a button to one stream for each
state.

## Implementation notes

A name is given without its slash. Of an action is kept what decides whether it
is allowed, of an entry whether it is a stream, a dictionary of states or
neither. Keys are in their order. The field an annotation belongs to and the
fields above it are numbered from the annotation on; they may go on for ever.
The dictionaries are different objects.
-/

namespace Kura.Engine.Annotations

open Kura.Engine.Jobs

/-- An action. -/
structure Action where
  S : Option String
  N : Option String
  next : Bool
  deriving DecidableEq

/-- Where an action should be. -/
inductive ActionValue where
  | action (a : Action)
  | other
  deriving DecidableEq

/-- The value of `/AA`. -/
inductive AdditionalActions where
  | dict (entries : List (String × ActionValue))
  | other
  deriving DecidableEq

/-- A stream of the document, or an empty one of a width and a height. -/
inductive StreamObj where
  | given (id : Nat)
  | empty (w h : ℚ)
  deriving DecidableEq

/-- The appearance of a state. -/
inductive StateObj where
  | stream (s : StreamObj)
  | other
  deriving DecidableEq

/-- An entry of an appearance dictionary. -/
inductive Entry where
  | stream (s : StreamObj)
  | dict (states : List (String × StateObj))
  | other
  deriving DecidableEq

/-- An appearance dictionary with the keys it has besides. -/
structure Appearance where
  N : Option Entry
  D : Option Entry
  R : Option Entry
  extra : List String
  deriving DecidableEq

/-- What a field has itself. -/
structure FieldNode where
  FT : Option String
  V : Option String

structure Annot where
  subtype : Option String
  A : Option ActionValue
  AA : Option AdditionalActions
  /-- The flags, if they are an integer. -/
  F : Option (BitVec 64)
  /-- The opacity, if it is a number. -/
  CA : Option ℚ
  OC : Bool
  /-- The appearance, if it is a dictionary. -/
  AP : Option Appearance
  /-- The state, if there is one; it may be no name. -/
  AS : Option (Option String)
  /-- The items of the rectangle, if it is an array. -/
  Rect : Option (List (Option ℚ))
  fields : Nat → Option FieldNode

structure Ctx where
  level : Level
  verifyOnly : Bool := false

namespace Ctx

variable (ctx : Ctx)

def part : Nat := levelPart ctx.level

def conf : Option Char := (levelRow ctx.level).conformance

def isA : Bool := levelFamily ctx.level = .PDFA

def isX : Bool := levelFamily ctx.level = .PDFX ∨ levelFamily ctx.level = .PDFVT

def isE : Bool := levelFamily ctx.level = .PDFE

def pdf14Target : Bool := ctx.isA && ctx.part = 1 || ctx.level = .X1A || ctx.level = .X3

def allowEmbeddedFiles : Bool :=
  ctx.isA && (ctx.part = 3 || ctx.conf = some 'F' || ctx.conf = some 'E')

def allow3D : Bool := ctx.conf = some 'E' || ctx.isE

end Ctx

def issue (code detail : String) (fixed : Bool) : Issue := ⟨code, detail, fixed, 0, []⟩

/-- The text of a name, empty if it is none. -/
def nameText : Option String → String
  | some s => "/" ++ s
  | none => ""

def kAllowedNamedActions : List String := ["NextPage", "PrevPage", "FirstPage", "LastPage"]

def namedAllowed (a : Action) : Bool :=
  match a.N with
  | some n => n ∈ kAllowedNamedActions
  | none => false

def actionAllowed (ctx : Ctx) : ActionValue → Bool
  | .other => false
  | .action a =>
      if ctx.isX then false
      else
        match a.S with
        | none => false
        | some s =>
            if ctx.isE then
              s ∈ ["GoTo", "GoToR", "URI", "GoTo3DView", "SetOCGState"] ||
                s = "Named" && namedAllowed a
            else if s ∈ ["GoTo", "GoToR", "URI", "SubmitForm", "Thread"] then true
            else if s = "GoToE" then ctx.allowEmbeddedFiles
            else if s = "JavaScript" ∨ s = "GoToDp" then ctx.isA && 4 ≤ ctx.part
            else if s = "RichMediaExecute" ∨ s = "SetOCGState" ∨ s = "GoTo3DView" then ctx.allow3D
            else if s = "Named" then namedAllowed a
            else false

/-- An action without the one that follows it. -/
def ActionValue.alone : ActionValue → ActionValue
  | .action a => .action { a with next := false }
  | .other => .other

def ActionValue.hasNext : ActionValue → Bool
  | .action a => a.next
  | .other => false

def ActionValue.text : ActionValue → String
  | .action a => nameText a.S
  | .other => ""

def annotKeys : List String := ["PO", "PC", "PV", "PI"]

/-- The additional actions of an annotation are not allowed. -/
def aaForbidden (ctx : Ctx) : AdditionalActions → Bool
  | .other => true
  | .dict entries =>
      !ctx.isA || ctx.part < 4 ||
        entries.any fun e => e.1 ∈ annotKeys || !actionAllowed ctx e.2

/-- What is left of the additional actions one by one, and what is reported. -/
def keepActions (ctx : Ctx) (place : String) :
    List (String × ActionValue) → List (String × ActionValue) × List Issue
  | [] => ([], [])
  | (k, v) :: rest =>
      let later := keepActions ctx place rest
      if !actionAllowed ctx v then
        (later.1, issue "ACTION_REMOVED"
          ("removed forbidden additional action /" ++ k ++ " in " ++ place) true :: later.2)
      else if v.hasNext then
        ((k, v.alone) :: later.1, issue "ACTION_CHAIN_REMOVED"
          ("removed /Next action chain in " ++ place) true :: later.2)
      else ((k, v) :: later.1, later.2)

/-- The additional actions that are left, and what is reported. -/
def sanitizeAdditionalActions (ctx : Ctx) (aa : Option AdditionalActions) (place : String)
    (aaAllowed : Bool) : Option AdditionalActions × List Issue :=
  match aa with
  | none => (none, [])
  | some aa =>
      if ctx.verifyOnly && ctx.isA && 4 ≤ ctx.part then
        (none, [issue "ADDITIONAL_ACTIONS_REMOVED" ("removed /AA from " ++ place)
          (aaForbidden ctx aa)])
      else
        match aaAllowed && ctx.isA && 4 ≤ ctx.part, aa with
        | true, .dict entries =>
            let left := keepActions ctx place entries
            (if left.1 = [] then none else some (.dict left.1), left.2)
        | _, _ => (none, [issue "ADDITIONAL_ACTIONS_REMOVED" ("removed /AA from " ++ place) true])

/-- The first name from a field on, within so many fields. -/
def firstName (get : FieldNode → Option String) (fields : Nat → Option FieldNode) :
    Nat → Nat → Option String
  | 0, _ => none
  | fuel + 1, i =>
      match fields i with
      | none => none
      | some node =>
          match get node with
          | some n => some n
          | none => firstName get fields fuel (i + 1)

def fieldTypeIsBtn (annot : Annot) : Bool := firstName FieldNode.FT annot.fields 32 0 = some "Btn"

def buttonStateName (annot : Annot) : String :=
  match annot.AS.join with
  | some as => as
  | none => (firstName FieldNode.V annot.fields 32 0).getD "Off"

/-- An empty stream of the size of the rectangle. -/
def makeEmptyAppearance (rect : Option (List (Option ℚ))) : StreamObj :=
  match rect with
  | some [x1, y1, x2, y2] =>
      .empty |x2.getD 0 - x1.getD 0| |y2.getD 0 - y1.getD 0|
  | _ => .empty 0 0

def zeroRect (rect : Option (List (Option ℚ))) : Bool :=
  match rect with
  | some [some x1, some y1, some x2, some y2] => x1 = x2 && y1 = y2
  | _ => false

/-- The states of a button with one appearance. -/
def wrapStates (state : String) (shown off : StreamObj) : List (String × StateObj) :=
  if state = "Off" then [(state, .stream shown)]
  else if state < "Off" then [(state, .stream shown), ("Off", .stream off)]
  else [("Off", .stream off), (state, .stream shown)]

/-- A part of the repair: what is left of the annotation, and what is reported. -/
abbrev Step := Annot → Annot × List Issue

/-- One part after the other. -/
def Step.andThen (first second : Step) : Step := fun annot =>
  let r := first annot
  let s := second r.1
  (s.1, r.2 ++ s.2)

def isWidget (annot : Annot) : Bool := annot.subtype = some "Widget"

def fixAction (ctx : Ctx) : Step := fun annot =>
  match annot.A with
  | none => (annot, [])
  | some a =>
      if isWidget annot || !actionAllowed ctx a then
        ({ annot with A := none }, [issue "ACTION_REMOVED"
          (if isWidget annot then "removed action from Widget annotation (widgets may not have /A)"
          else "removed forbidden action " ++ a.text ++ " from annotation") true])
      else if a.hasNext then
        ({ annot with A := some a.alone },
          [issue "ACTION_CHAIN_REMOVED" "removed /Next action chain in annotation" true])
      else (annot, [])

def fixAdditionalActions (ctx : Ctx) : Step := fun annot =>
  let r := sanitizeAdditionalActions ctx annot.AA ("annotation " ++ nameText annot.subtype)
    (isWidget annot)
  ({ annot with AA := r.1 }, r.2)

/-- Printed, and not invisible, hidden, without a view or toggling it. -/
def fixedFlags (f : BitVec 64) : BitVec 64 :=
  (f ||| 4#64) &&& ~~~(1#64 ||| 2#64 ||| 32#64 ||| 256#64)

def fixFlags (ctx : Ctx) : Step := fun annot =>
  if fixedFlags (annot.F.getD 0) ≠ annot.F.getD 0 ∨ annot.F = none then
    ({ annot with F := some (fixedFlags (annot.F.getD 0)) },
      [issue "ANNOT_FLAGS_FIXED" ("normalized annotation flags on " ++ nameText annot.subtype)
        (!ctx.verifyOnly || annot.subtype ≠ some "Popup")])
  else (annot, [])

def fixOpacity (ctx : Ctx) : Step := fun annot =>
  if ctx.pdf14Target ∧ annot.CA.getD 1 < 1 then
    ({ annot with CA := some 1 },
      [issue "TRANSPARENCY_FLATTENED" "forced annotation /CA to 1 (visual risk)" true])
  else (annot, [])

def fixLayer (ctx : Ctx) : Step := fun annot =>
  if ctx.pdf14Target && annot.OC then
    ({ annot with OC := false },
      [issue "OPTIONAL_CONTENT_REMOVED" "removed /OC from annotation" true])
  else (annot, [])

/-- The entry can stand in for the normal appearance. -/
def Entry.isCandidate : Entry → Bool
  | .stream _ => true
  | .dict _ => true
  | .other => false

/-- The normal appearance, or another one in its place. -/
def Appearance.normal (ap : Appearance) : Option Entry :=
  match ap.N with
  | some n => some n
  | none => (ap.D.filter Entry.isCandidate).or (ap.R.filter Entry.isCandidate)

/-- An appearance dictionary with the normal appearance only. -/
def only (n : Entry) : Appearance := ⟨some n, none, none, []⟩

/-- Reduces an appearance dictionary to the normal appearance. -/
def reduceAppearance (annot : Annot) (ap : Appearance) : Entry × List Issue :=
  let removedExtra := if ap.D.isSome || ap.R.isSome || ap.extra ≠ [] then
      [issue "APPEARANCE_EXTRA_REMOVED"
        ("reduced appearance dictionary to /N only on " ++ nameText annot.subtype) true]
    else []
  match ap.normal with
  | some n => (n, removedExtra)
  | none =>
      (.stream (makeEmptyAppearance annot.Rect), removedExtra ++
        [issue "APPEARANCE_ADDED"
          ("synthesized empty appearance stream for " ++ nameText annot.subtype) true])

/-- The appearance of the state that is set, if there is one. -/
def stateSet (annot : Annot) (states : List (String × StateObj)) : Option StateObj :=
  annot.AS.join.bind fun name => states.lookup name

/-- A stream among the states: that of the state shown, or else the first one. -/
def pickState (annot : Annot) (states : List (String × StateObj)) : StreamObj :=
  match stateSet annot states with
  | some (.stream s) => s
  | _ =>
      (states.findSome? fun e =>
        match e.2 with
        | .stream s => some s
        | .other => none).getD (makeEmptyAppearance annot.Rect)

/-- Gives a button its states, and other annotations a single stream. -/
def fixStates (isBtn : Bool) (n : Entry) : Step := fun annot =>
  match isBtn, n with
  | true, .stream s =>
      let state := buttonStateName annot
      ({ annot with
          AP := some (only (.dict (wrapStates state s (makeEmptyAppearance annot.Rect))))
          AS := some (some state) },
        [issue "APPEARANCE_STATES_WRAPPED"
          "wrapped button widget appearance stream into a state subdictionary" true])
  | false, .dict states =>
      ({ annot with AP := some (only (.stream (pickState annot states))), AS := none },
        [issue "APPEARANCE_FLATTENED"
          ("reduced appearance state subdictionary to a single stream on " ++
            nameText annot.subtype) true])
  | _, _ => ({ annot with AP := some (only n) }, [])

/-- Sets a state if there is none for the appearances. -/
def addState : Step := fun annot =>
  match annot.AP with
  | some { N := some (.dict states), .. } =>
      if (stateSet annot states).isNone then
        match states with
        | [] => (annot, [])
        | (k, _) :: _ =>
            ({ annot with AS := some (some k) },
              [issue "APPEARANCE_STATE_ADDED" ("added missing /AS for " ++ nameText annot.subtype)
                true])
      else (annot, [])
  | _ => (annot, [])

/-- The annotation needs an appearance. -/
def needsAppearance (ctx : Ctx) (annot : Annot) : Bool :=
  annot.subtype ≠ some "Popup" && annot.subtype ≠ some "Link" &&
    annot.subtype ≠ some "Projection" && !(ctx.verifyOnly && zeroRect annot.Rect)

def fixAppearance (ctx : Ctx) : Step := fun annot =>
  let isBtn := isWidget annot && fieldTypeIsBtn annot
  match annot.AP with
  | some ap =>
      let r := reduceAppearance annot ap
      let s := (fixStates isBtn r.1).andThen addState annot
      (s.1, r.2 ++ s.2)
  | none =>
      if needsAppearance ctx annot then
        let empty := makeEmptyAppearance annot.Rect
        let added := issue "APPEARANCE_ADDED"
          ("synthesized empty appearance stream for " ++ nameText annot.subtype) true
        if isBtn then
          let state := buttonStateName annot
          ({ annot with
              AP := some (only (.dict (wrapStates state empty empty)))
              AS := some (some state) }, [added])
        else ({ annot with AP := some (only (.stream empty)) }, [added])
      else (annot, [])

/-- Repairs an annotation. -/
def fixAnnotation (ctx : Ctx) : Step :=
  (fixAction ctx).andThen <| (fixAdditionalActions ctx).andThen <| (fixFlags ctx).andThen <|
    (fixOpacity ctx).andThen <| (fixLayer ctx).andThen (fixAppearance ctx)

end Kura.Engine.Annotations
