import Kura.Base.Search
import Kura.Engine.Number

/-!
# Profiles and their variables

A profile is a JSON object. Its variables get values from the options, from
scripts or from their defaults; the values are put in where a text names a
variable in braces.

## Implementation notes

Texts are `String`s: all that is searched for is ASCII. A map of variables is a
list of pairs without order; only scripts see its order. Scripts, the reading
of whole texts as numbers and the text of numbers with a fraction are
parameters, as they are the script engine's and the C library's.
-/

namespace Kura.Engine.Profile

open Kura.Base

/-- JSON values of a profile. -/
inductive Json where
  | null
  | bool (b : Bool)
  | num (d : Double)
  | str (s : String)
  | arr (items : List Json)
  | obj (members : List (String × Json))

/-- Values of variables. -/
abbrev VarMap := List (String × String)

/-- The value of a variable. -/
def VarMap.get (vars : VarMap) (name : String) : Option String :=
  (vars.find? fun v => v.1 == name).map Prod.snd

/-- Sets a variable. -/
def VarMap.set (vars : VarMap) (name value : String) : VarMap :=
  if vars.any fun v => v.1 == name then
    vars.map fun v => if v.1 == name then (name, value) else v
  else vars ++ [(name, value)]

/-- What is used of the C library and of the script engine. -/
structure Scripting where
  /-- `%.15g` of a number with a fraction or of a large one. -/
  realText : Double → String
  /-- The number that is the whole text, if it is one. -/
  wholeNumber : String → Option Double
  /-- The result and the variables after a script, or its error. -/
  evalScript : (script docJson : String) → VarMap → (results : String) →
    Except String (String × VarMap)

namespace Json

/-- The members of an object. -/
def members : Json → List (String × Json)
  | .obj ms => ms
  | _ => []

/-- The items of an array. -/
def items : Json → List Json
  | .arr xs => xs
  | _ => []

/-- The first member with a key. -/
def get (j : Json) (key : String) : Option Json :=
  (j.members.find? fun m => m.1 == key).map Prod.snd

def isObj : Json → Bool
  | .obj _ => true
  | _ => false

end Json

section Text

variable (env : Scripting)

/-- The text of a number. -/
def numText : Double → String
  | .fin q =>
      if |q| < 10 ^ 15 ∧ q.den = 1 then
        String.ofList ((if q < 0 then ['-'] else []) ++ Nat.toDigits 10 q.num.natAbs)
      else env.realText (.fin q)
  | d => env.realText d

/-- The text of a scalar. -/
def Json.text : Json → String
  | .str s => s
  | .bool b => if b then "true" else "false"
  | .num d => numText env d
  | _ => ""

/-- A character inside quotes. -/
def escape (c : Char) : List Char :=
  if c = '"' ∨ c = '\\' then ['\\', c]
  else if c.toNat < 0x20 then
    ['\\', 'u', '0', '0', Nat.digitChar (c.toNat / 16), Nat.digitChar (c.toNat % 16)]
  else [c]

/-- A text in quotes. -/
def jsonStr (s : String) : String := String.ofList ('"' :: s.toList.flatMap escape ++ ['"'])

/-- The texts with commas between them. -/
def commaJoin : List String → String
  | [] => ""
  | [s] => s
  | s :: rest => s ++ "," ++ commaJoin rest

mutual

/-- The text of a value. -/
def jsonText : Json → String
  | .null => "null"
  | .bool b => (Json.bool b).text env
  | .num d => (Json.num d).text env
  | .str s => jsonStr s
  | .arr xs => "[" ++ commaJoin (itemTexts xs) ++ "]"
  | .obj ms => "\x7b" ++ commaJoin (memberTexts ms) ++ "\x7d"

def itemTexts : List Json → List String
  | [] => []
  | x :: xs => jsonText x :: itemTexts xs

def memberTexts : List (String × Json) → List String
  | [] => []
  | (k, v) :: ms => (jsonStr k ++ ":" ++ jsonText v) :: memberTexts ms

end

end Text

/-- The loop over the braces from an offset on. -/
def substituteFrom (text : List Char) (values : VarMap) : Nat → Nat → List Char
  | 0, p => text.drop p
  | fuel + 1, p =>
      match findFrom ['\x7b'] text p with
      | none => text.drop p
      | some o =>
          match findFrom ['\x7d'] text (o + 1) with
          | none => text.drop p
          | some c =>
              match values.get (String.ofList ((text.drop (o + 1)).take (c - o - 1))) with
              | none => (text.drop p).take (o + 1 - p) ++ substituteFrom text values fuel (o + 1)
              | some v =>
                  (text.drop p).take (o - p) ++ v.toList ++
                    substituteFrom text values fuel (c + 1)

/-- The text with the values of the variables it names. -/
def substituteVariables (text : String) (values : VarMap) : String :=
  String.ofList (substituteFrom text.toList values text.length 0)

section Substitute

variable (env : Scripting)

/-- A text that is one variable becomes a truth value or a number if its value is one. -/
def substituteStr (s : String) (values : VarMap) : Json :=
  let cs := s.toList
  let whole :=
    if 2 < cs.length ∧ cs.head? = some '\x7b' ∧ cs.getLast? = some '\x7d' then
      values.get (String.ofList ((cs.drop 1).take (cs.length - 2)))
    else none
  match whole with
  | none => .str (substituteVariables s values)
  | some v =>
      if v = "true" ∨ v = "false" then .bool (v = "true")
      else match env.wholeNumber v with
      | some d => .num d
      | none => .str (substituteVariables s values)

mutual

def substituteNode (values : VarMap) : Json → Json
  | .str s => substituteStr env s values
  | .arr xs => .arr (substituteItems values xs)
  | .obj ms => .obj (substituteMembers values ms)
  | j => j

def substituteItems (values : VarMap) : List Json → List Json
  | [] => []
  | x :: xs => substituteNode values x :: substituteItems values xs

def substituteMembers (values : VarMap) : List (String × Json) → List (String × Json)
  | [] => []
  | (k, v) :: ms => (k, substituteNode values v) :: substituteMembers values ms

end

/-- A profile with values put in; the variables themselves stay. -/
def substituteProfile (profile : Json) (values : VarMap) : Json :=
  match profile with
  | .obj ms =>
      .obj (ms.map fun m => if m.1 = "variables" then m else (m.1, substituteNode env values m.2))
  | j => j

/-- A variable of a profile. -/
structure ProfileVariable where
  name : String
  defaultValue : String
  script : String
  choices : List String

/-- The text of a member, empty if there is none. -/
def fieldText (j : Json) (key : String) : String := ((j.get key).map (Json.text env)).getD ""

/-- The variables a profile declares. -/
def listProfileVariables (profile : Json) : List ProfileVariable :=
  let declared := ((profile.get "variables").map Json.items).getD []
  (declared.filter Json.isObj).map (fun v =>
    { name := fieldText env v "name"
      defaultValue := fieldText env v "default"
      script := fieldText env v "script"
      choices := (((v.get "choices").map Json.items).getD []).map (Json.text env) })
    |>.filter fun v => v.name ≠ ""

/-- The value of one variable and what is noted about it. -/
def resolveVariable (docJson : String) (overrides : VarMap) (results : String)
    (st : VarMap × List String) (v : ProfileVariable) : VarMap × List String :=
  let (values, notes) := st
  let (values, notes) :=
    match overrides.get v.name with
    | some given => (values, notes ++ [v.name ++ " = " ++ given])
    | none =>
        if v.script = "" then (values, notes)
        else match env.evalScript v.script docJson (values.set v.name "") results with
        | .ok (res, js) =>
            let res := if res = "" then (js.get v.name).getD "" else res
            (values.set v.name res, notes ++ [v.name ++ " = " ++ res])
        | .error err =>
            (values, notes ++ ["variable " ++ v.name ++ " not evaluated, default used: " ++ err])
  let value := (values.get v.name).getD ""
  if v.choices = [] ∨ v.choices.contains value then (values, notes)
  else (values,
    notes ++ ["variable " ++ v.name ++ ": \"" ++ value ++ "\" is not one of its choices"])

/-- The values of the variables; what was given stands before script and default. -/
def resolveVariables (defs : List ProfileVariable) (docJson : String) (overrides : VarMap)
    (results : String) : VarMap × List String :=
  let defaults := defs.foldl (fun values v =>
    if (values.get v.name).isSome then values else values.set v.name v.defaultValue) overrides
  defs.foldl (resolveVariable env docJson overrides results) (defaults, [])

end Substitute

/-- The first member with the key is replaced, or one is added. -/
def setKey (key : String) (val : Json) : List (String × Json) → List (String × Json)
  | [] => [(key, val)]
  | m :: ms => if m.1 = key then (m.1, val) :: ms else m :: setKey key val ms

/-- The profile as an object without some keys. -/
def withoutKeys (root : Json) (drop : List String) : List (String × Json) :=
  root.members.filter fun m => !drop.contains m.1

/-- Whether a check has the name that is kept. -/
def isKept (env : Scripting) (keep : String) (c : Json) : Bool :=
  match c.get "name" with
  | none => false
  | some n => keep ≠ "" && n.text env == keep

/-- All checks but the named one are silenced; tells whether that one was found. -/
def silenceChecks (env : Scripting) (prof : List (String × Json)) (keep : String) :
    List (String × Json) × Bool :=
  let silence (c : Json) : Json :=
    match c with
    | .obj ms => if isKept env keep c then c else .obj (setKey "silent" (.bool true) ms)
    | _ => c
  (prof.map fun m =>
      if m.1 = "checks" then
        (m.1, match m.2 with
          | .arr cs => .arr (cs.map silence)
          | j => j)
      else m,
    prof.any fun m => m.1 == "checks" && m.2.items.any (isKept env keep))

/-- The profile has something under a key. -/
def hasEntries (prof : Json) (key : String) : Bool :=
  match prof.get key with
  | some (.arr items) => !items.isEmpty
  | some (.obj _) => true
  | _ => false

/-- A value of a variable that counts as true. -/
def truthy (v : String) : Bool :=
  !(v == "" || v == "0" || v == "false" || v == "undefined" || v == "null" || v == "NaN")

end Kura.Engine.Profile
