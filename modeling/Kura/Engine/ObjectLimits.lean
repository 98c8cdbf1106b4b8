import Kura.Base.Rename
import Kura.Engine.ContentRun

/-!
# Limits on objects

The numbers, strings and names of the objects of a file are brought within the
limits of the older versions of the format. Dictionaries are changed while their
keys are walked through: a key that is too long is taken out and put back under
a shorter name.

## Implementation notes

Objects that are nested directly are part of their parent; a reference is looked
up in a table. The guard against deep nesting counts down how many levels are
left. A dictionary is a list of entries ordered by key; of several entries with
one key only the first one counts. What was changed is counted in the source for
a message, which is left out.
-/

namespace Kura.Engine.Limits

open Base (moveKey)

/-- Objects, with references to other ones. -/
inductive Node where
  | null
  | bool (b : Bool)
  | integer (n : Int)
  | real (text : Bytes)
  | string (value : Bytes)
  | name (n : Bytes)
  | array (items : List Node)
  | dict (entries : List (Bytes × Node))
  | stream (entries : List (Bytes × Node))
  | indirect (id : Nat)

/-- The objects of a file. -/
abbrev Objects := Nat → Node

/-- The entries of a dictionary. -/
abbrev Entries := List (Bytes × Node)

/-- What an object stands for. -/
def Objects.resolve (objects : Objects) : Node → Node
  | .indirect id => objects id
  | v => v

namespace Node

def isIndirect : Node → Bool
  | .indirect _ => true
  | _ => false

/-- Whether an object stands for the null object. -/
def isNull (objects : Objects) (v : Node) : Bool :=
  match objects.resolve v with
  | .null => true
  | _ => false

/-- The entries of a dictionary. -/
def entries : Node → Entries
  | .dict es => es
  | _ => []

end Node

namespace Entries

/-- The value of a key; null if there is none. -/
def getKey : Entries → Bytes → Node := Base.entryAt .null

/-- Removes a key. -/
def removeKey : Entries → Bytes → Entries := Base.eraseEntry

/-- Sets the value of a key. -/
def replaceKey : Entries → Bytes → Node → Entries := Base.putEntry

/-- The keys that have a value. -/
def getKeys (objects : Objects) (es : Entries) : List Bytes :=
  (es.map Prod.fst).dedup.filter fun k => !(es.getKey k).isNull objects

end Entries

/-- The limits of a version. -/
structure LimitStats where
  maxReal : Rat
  maxString : Nat
  clampArrays : Bool

/-- The limits that go with the rules for content streams. -/
def LimitStats.of (m : FixMode) : LimitStats where
  maxReal := if m.pdf14 then kMaxReal else kMaxReal2
  maxString := if m.pdf14 then kMaxString1 else kMaxString23
  clampArrays := m.pdf14

/-- Longest array. -/
def kMaxArray : Nat := 8191

/-- Levels of objects that are looked at. -/
def kMaxNest : Nat := 200

/-- A name or a key within the limit. -/
def limitName (n : Bytes) : Bytes :=
  if kMaxName + 1 < n.length then lit "/" ++ shortenName (n.drop 1) else n

section

variable (st : LimitStats) (objects : Objects)

/-- A number, string or name within the limits; none if it is already. -/
def clampScalar (v : Node) : Option Node :=
  match objects.resolve v with
  | .real text =>
      let d := strtod text
      let bound := Double.fin st.maxReal
      if bound.lt d ∨ d.lt bound.neg then
        some (.real (realText (if Double.lt (.fin 0) d then bound else bound.neg)))
      else if d ≠ .fin 0 ∧ Double.lt (.fin (-kMinDenorm)) d ∧ d.lt (.fin kMinDenorm) then
        some (.integer 0)
      else none
  | .integer i =>
      if kMaxInt < i ∨ i < -kMaxInt then some (.integer (if 0 < i then kMaxInt else -kMaxInt))
      else none
  | .string s => if st.maxString < s.length then some (.string (s.take st.maxString)) else none
  | .name n => if kMaxName + 1 < n.length then some (.name (limitName n)) else none
  | _ => none

/-- A value within the limits. Objects that are nested directly are changed in place. -/
def clampValue (nested : Node → Node) (v : Node) : Node :=
  match clampScalar st objects v with
  | some nv => nv
  | none => if v.isIndirect then v else nested v

/-- One key of a dictionary. -/
def clampEntry (nested : Node → Node) (es : Entries) (k : Bytes) : Entries :=
  let v := es.getKey k
  let useKey := limitName k
  let es := if kMaxName + 1 < k.length then (es.removeKey k).replaceKey useKey v else es
  if (clampScalar st objects v).isNone ∧ v.isIndirect then es
  else es.replaceKey useKey (clampValue st objects nested v)

/-- The items of an array that are kept. -/
def clipItems (isProtected : Bool) (items : List Node) : List Node :=
  if st.clampArrays ∧ ¬ isProtected then items.take kMaxArray else items

/-- The keys of a stream that name a file outside of this one. -/
def externalKeys : List Bytes := [lit "/F", lit "/FFilter", lit "/FDecodeParms"]

/-- Brings what is nested in an object within the limits, if some levels are left. -/
def clampObjectLimits : Nat → Bool → Node → Node
  | 0, _, o => o
  | n + 1, _, .stream es =>
      let sd := externalKeys.foldl Entries.removeKey es
      .stream (clampObjectLimits n false (.dict sd)).entries
  | n + 1, _, .dict es =>
      .dict ((Entries.getKeys objects es).foldl (clampEntry st objects (clampObjectLimits n false))
        es)
  | n + 1, isProtected, .array items =>
      .array ((clipItems st isProtected items).map
        (clampValue st objects (clampObjectLimits n false)))
  | _ + 1, _, o => o

/-- What becomes of an object of the file. -/
def limitObject (isProtected : Bool) (o : Node) : Node :=
  match o with
  | .real _ | .integer _ | .string _ | .name _ => (clampScalar st objects o).getD o
  | _ => clampObjectLimits st objects kMaxNest isProtected o

end

end Kura.Engine.Limits
