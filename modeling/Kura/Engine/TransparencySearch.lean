import Kura.Base.DepthFirst
import Mathlib.Data.Rat.Defs
import Mathlib.Tactic.NormNum

/-!
# Searching resources for transparency

The resources of a page lead to forms and patterns with resources of their own.
The search collects all places where something transparent is used and enters no
object twice.

## Implementation notes

An object is given by its number, if it is indirect, and by the entries of its
dictionary that the search reads. An `/ExtGState` is a dictionary of graphics
states in resources and a graphics state in a pattern. Numbers are exact.
-/

namespace Kura.Engine.Transparency

open Kura.Base

/-- A value, as far as it is looked at. -/
inductive Value where
  | null
  | name (s : String)
  | num (v : ℚ)
  | arr (items : List Value)
  | other

namespace Value

def isNull : Value → Bool
  | null => true
  | _ => false

def nameIs (v : Value) (n : String) : Bool :=
  match v with
  | name s => s == n
  | _ => false

def nameOf : Value → String
  | name s => s
  | _ => ""

def numOf (v : Value) (dflt : ℚ) : ℚ :=
  match v with
  | num x => x
  | _ => dflt

end Value

structure GState where
  SMask : Value := .null
  BM : Value := .null
  CA : Value := .null
  ca : Value := .null

/-- The blend mode: the first one of an array. -/
def blendMode : Value → String
  | .arr (bm :: _) => bm.nameOf
  | bm => bm.nameOf

/-- A value that is no dictionary is no graphics state. -/
def gsHasTransparency : Option GState → Bool
  | none => false
  | some gs =>
      (!gs.SMask.isNull && !gs.SMask.nameIs "/None") ||
        (blendMode gs.BM != "" && blendMode gs.BM != "/Normal" &&
          blendMode gs.BM != "/Compatible") ||
        decide (gs.CA.numOf 1 < 1 - 1 / 10 ^ 6) || decide (gs.ca.numOf 1 < 1 - 1 / 10 ^ 6)

/-- The entries of a dictionary or of that of a stream. -/
structure Entries (ι : Type*) where
  gstates : List (String × Option GState) := []
  gstate : Option GState := none
  xObject : List (String × ι) := []
  pattern : List (String × ι) := []
  subtype : Value := .null
  /-- The `/S` of a `/Group` that is a dictionary. -/
  group : Option Value := none
  resources : Option ι := none
  SMask : Value := .null
  SMaskInData : Value := .null

/-- The objects of a document with their numbers. -/
structure Doc (ι κ : Type*) where
  objGen : ι → Option κ
  getObject : κ → ι
  getObject_objGen : ∀ i k, objGen i = some k → getObject k = i
  isStream : ι → Bool
  entries : ι → Option (Entries ι)

namespace Entries

variable {ι : Type*} (d : Entries ι)

def transparencyGroup : Bool :=
  match d.group with
  | some s => s.nameIs "/Transparency"
  | none => false

def softMasked : Bool := !d.SMask.isNull && !d.SMask.nameIs "/None"

def maskInData : Bool := decide (0 < d.SMaskInData.numOf 0)

end Entries

namespace Doc

variable {ι κ : Type*} (doc : Doc ι κ)

/-- The entries of an object that is a dictionary. -/
def dict (i : ι) : Option (Entries ι) := if doc.isStream i then none else doc.entries i

/-- The entries of an object that is a stream. -/
def stream (i : ι) : Option (Entries ι) := if doc.isStream i then doc.entries i else none

section Search

variable [DecidableEq κ]

structure TransparencyReport where
  real : Bool := false
  place : List String := []

/-- What was entered, and what was found. -/
structure Scan (κ : Type*) where
  seen : List κ := []
  rep : TransparencyReport := {}

def Scan.add (s : Scan κ) (text : String) : Scan κ :=
  { s with rep := { real := true, place := s.rep.place ++ [text] } }

def scanXObject (scan : Scan κ → Option ι → Scan κ) (s : Scan κ) (e : String × ι) : Scan κ :=
  match doc.stream e.2 with
  | none => s
  | some d =>
      match VisitGraph.enter (doc.objGen e.2) s.seen with
      | none => s
      | some seen =>
          let s := { s with seen := seen }
          if d.subtype.nameIs "/Form" then
            scan (if d.transparencyGroup then s.add ("XObject" ++ e.1 ++ " transparency group")
              else s) d.resources
          else if d.subtype.nameIs "/Image" then
            let s := if d.softMasked then s.add ("XObject" ++ e.1 ++ " /SMask") else s
            if d.maskInData then s.add ("XObject" ++ e.1 ++ " /SMaskInData") else s
          else s

def scanPattern (scan : Scan κ → Option ι → Scan κ) (s : Scan κ) (e : String × ι) : Scan κ :=
  match VisitGraph.enter (doc.objGen e.2) s.seen with
  | none => s
  | some seen =>
      let s := { s with seen := seen }
      match doc.entries e.2 with
      | none => s
      | some d =>
          scan (if gsHasTransparency d.gstate then s.add ("Pattern" ++ e.1 ++ " /ExtGState") else s)
            d.resources

/-- `scanResources`, for so many levels as are left of `kMaxNest`. -/
def scanResources : Nat → Scan κ → Option ι → Scan κ
  | 0, s, _ => s
  | levels + 1, s, res =>
      match res.bind doc.dict with
      | none => s
      | some d =>
          match VisitGraph.enter (res.bind doc.objGen) s.seen with
          | none => s
          | some seen =>
              let s := { s with seen := seen }
              let s := d.gstates.foldl (fun s e =>
                if gsHasTransparency e.2 then s.add ("ExtGState" ++ e.1) else s) s
              let s := d.xObject.foldl (doc.scanXObject (scanResources levels)) s
              d.pattern.foldl (doc.scanPattern (scanResources levels)) s

def kMaxNest : Nat := 200

/-- `resourcesHaveTransparency`, the one that keeps no memo. -/
def plainResourcesHaveTransparency (res : ι) : Bool :=
  let rep := (doc.scanResources kMaxNest {} (some res)).rep
  rep.real || !rep.place.isEmpty

end Search

/-- An XObject that is transparent itself. -/
def ShowsXObject (d : Entries ι) : Prop :=
  (d.subtype.nameIs "/Image" = true ∧ (d.softMasked = true ∨ d.maskInData = true)) ∨
    (d.subtype.nameIs "/Form" = true ∧ d.transparencyGroup = true)

/-- A transparent graphics state, a soft-masked image or a transparency group is used by some
resources or by the forms and patterns they lead to. -/
inductive Reaches : ι → Prop
  | gstate {r : ι} {d : Entries ι} (hr : doc.dict r = some d) {e : String × Option GState}
      (he : e ∈ d.gstates) (h : gsHasTransparency e.2 = true) : Reaches r
  | xObject {r : ι} {d x : Entries ι} (hr : doc.dict r = some d) {e : String × ι}
      (he : e ∈ d.xObject) (hx : doc.stream e.2 = some x) (h : ShowsXObject x) : Reaches r
  | form {r next : ι} {d x : Entries ι} (hr : doc.dict r = some d) {e : String × ι}
      (he : e ∈ d.xObject) (hx : doc.stream e.2 = some x) (hform : x.subtype.nameIs "/Form" = true)
      (hres : x.resources = some next) (h : Reaches next) : Reaches r
  | patternState {r : ι} {d p : Entries ι} (hr : doc.dict r = some d) {e : String × ι}
      (he : e ∈ d.pattern) (hp : doc.entries e.2 = some p) (h : gsHasTransparency p.gstate = true) :
      Reaches r
  | pattern {r next : ι} {d p : Entries ι} (hr : doc.dict r = some d) {e : String × ι}
      (he : e ∈ d.pattern) (hp : doc.entries e.2 = some p) (hres : p.resources = some next)
      (h : Reaches next) : Reaches r

theorem dict_eq_some {i : ι} {d : Entries ι} :
    doc.dict i = some d ↔ doc.isStream i = false ∧ doc.entries i = some d := by
  rw [dict]
  cases doc.isStream i <;> simp

theorem stream_eq_some {i : ι} {d : Entries ι} :
    doc.stream i = some d ↔ doc.isStream i = true ∧ doc.entries i = some d := by
  rw [stream]
  cases doc.isStream i <;> simp

/-- The places of an object in resources. -/
inductive Node (ι : Type*) where
  | resources (i : ι)
  | xObject (i : ι)
  | pattern (i : ι)

/-- The resources that an entry leads to, if they are a dictionary. -/
def below (res : Option ι) : List (Node ι) :=
  (res.toList.filter fun i => (doc.dict i).isSome).map .resources

/-- The resources of a document as the search sees them. -/
def visitGraph : VisitGraph (Node ι) κ where
  key
    | .resources i => if (doc.dict i).isSome then doc.objGen i else none
    | .xObject i => if (doc.stream i).isSome then doc.objGen i else none
    | .pattern i => doc.objGen i
  hit
    | .resources i =>
        match doc.dict i with
        | none => false
        | some d => d.gstates.any fun e => gsHasTransparency e.2
    | .xObject i =>
        match doc.stream i with
        | none => false
        | some d =>
            if d.subtype.nameIs "/Form" then d.transparencyGroup
            else if d.subtype.nameIs "/Image" then d.softMasked || d.maskInData
            else false
    | .pattern i =>
        match doc.entries i with
        | none => false
        | some d => gsHasTransparency d.gstate
  next
    | .resources i =>
        match doc.dict i with
        | none => []
        | some d => (d.xObject.map fun e => .xObject e.2) ++ d.pattern.map fun e => .pattern e.2
    | .xObject i =>
        match doc.stream i with
        | none => []
        | some d => if d.subtype.nameIs "/Form" then doc.below d.resources else []
    | .pattern i =>
        match doc.entries i with
        | none => []
        | some d => doc.below d.resources

/-- Where no object is entered twice, at most so many dictionaries of resources are below each
other, from one on. -/
def NestedWithin (n : Nat) (r : ι) : Prop := doc.visitGraph.Nested (2 * n) ∅ (.resources r)

section Nodes

variable {doc}

theorem next_resources {r : ι} {d : Entries ι} (hr : doc.dict r = some d) :
    doc.visitGraph.next (.resources r) =
      (d.xObject.map fun e => .xObject e.2) ++ d.pattern.map fun e => .pattern e.2 := by
  simp [visitGraph, hr]

theorem next_xObject {i : ι} {x : Entries ι} (hx : doc.stream i = some x) :
    doc.visitGraph.next (.xObject i) =
      if x.subtype.nameIs "/Form" then doc.below x.resources else [] := by
  simp [visitGraph, hx]

theorem next_pattern {i : ι} {p : Entries ι} (hp : doc.entries i = some p) :
    doc.visitGraph.next (.pattern i) = doc.below p.resources := by
  simp [visitGraph, hp]

theorem hit_xObject {i : ι} {x : Entries ι} (hx : doc.stream i = some x) :
    doc.visitGraph.hit (.xObject i) =
      if x.subtype.nameIs "/Form" then x.transparencyGroup
      else if x.subtype.nameIs "/Image" then x.softMasked || x.maskInData else false := by
  simp [visitGraph, hx]

theorem hit_pattern {i : ι} {p : Entries ι} (hp : doc.entries i = some p) :
    doc.visitGraph.hit (.pattern i) = gsHasTransparency p.gstate := by
  simp [visitGraph, hp]

end Nodes

section Scan

variable {doc}

/-- What was entered, and whether something was found. -/
def Scan.outcome (s : Scan κ) : List κ × Bool := (s.seen, s.rep.real || !s.rep.place.isEmpty)

theorem outcome_addIf (s : Scan κ) (b : Bool) (text : String) :
    (if b then s.add text else s).outcome = (s.seen, s.outcome.2 || b) := by
  cases b with
  | true => exact Prod.ext rfl (Bool.or_true _).symm
  | false => exact Prod.ext rfl (Bool.or_false _).symm

theorem seen_addIf (s : Scan κ) (b : Bool) (text : String) :
    (if b then s.add text else s).seen = s.seen := by
  cases b <;> rfl

theorem outcome_gstates (gs : List (String × Option GState)) (s : Scan κ) :
    (gs.foldl (fun s e => if gsHasTransparency e.2 then s.add ("ExtGState" ++ e.1) else s)
        s).outcome =
      (s.seen, s.outcome.2 || gs.any fun e => gsHasTransparency e.2) := by
  induction gs generalizing s with
  | nil => exact Prod.ext rfl (Bool.or_false _).symm
  | cons e gs ih =>
      rw [List.foldl_cons, ih, seen_addIf, outcome_addIf, List.any_cons, Bool.or_assoc]

variable [DecidableEq κ] {scan : Scan κ → Option ι → Scan κ} {levels : Nat}

/-- An XObject is visited. -/
theorem outcome_scanXObject (hscan : ∀ s res, (scan s res).outcome =
      (doc.below res).foldl (doc.visitGraph.visit levels) s.outcome) (s : Scan κ)
    (e : String × ι) : (doc.scanXObject scan s e).outcome =
      doc.visitGraph.visit (levels + 1) s.outcome (.xObject e.2) := by
  rw [scanXObject]
  cases hx : doc.stream e.2 with
  | none =>
      refine (VisitGraph.visit_of_bare ?_ ?_ ?_ _ _).symm <;> simp [visitGraph, hx]
  | some d =>
      have hkey : doc.visitGraph.key (.xObject e.2) = doc.objGen e.2 := by simp [visitGraph, hx]
      rw [VisitGraph.visit, hkey, hit_xObject hx, next_xObject hx]
      dsimp only
      have hseen : s.outcome.1 = s.seen := rfl
      rw [hseen]
      cases VisitGraph.enter (doc.objGen e.2) s.seen with
      | none => rfl
      | some seen =>
          dsimp only
          have houtcome : ({ s with seen := seen } : Scan κ).outcome = (seen, s.outcome.2) := rfl
          by_cases hform : d.subtype.nameIs "/Form" = true
          · rw [if_pos hform, if_pos hform, if_pos hform, hscan, outcome_addIf, houtcome]
          · rw [if_neg hform, if_neg hform, if_neg hform]
            by_cases himage : d.subtype.nameIs "/Image" = true
            · rw [if_pos himage, if_pos himage, outcome_addIf, seen_addIf, outcome_addIf, houtcome,
                Bool.or_assoc]
              rfl
            · rw [if_neg himage, if_neg himage, houtcome, Bool.or_false]
              rfl

/-- A pattern is visited. -/
theorem outcome_scanPattern (hscan : ∀ s res, (scan s res).outcome =
      (doc.below res).foldl (doc.visitGraph.visit levels) s.outcome) (s : Scan κ)
    (e : String × ι) : (doc.scanPattern scan s e).outcome =
      doc.visitGraph.visit (levels + 1) s.outcome (.pattern e.2) := by
  have hkey : doc.visitGraph.key (.pattern e.2) = doc.objGen e.2 := rfl
  have hseen : s.outcome.1 = s.seen := rfl
  rw [scanPattern, VisitGraph.visit, hkey, hseen]
  cases VisitGraph.enter (doc.objGen e.2) s.seen with
  | none => rfl
  | some seen =>
      dsimp only
      have houtcome : ({ s with seen := seen } : Scan κ).outcome = (seen, s.outcome.2) := rfl
      cases hp : doc.entries e.2 with
      | none =>
          have hhit : doc.visitGraph.hit (.pattern e.2) = false := by simp [visitGraph, hp]
          have hnext : doc.visitGraph.next (.pattern e.2) = [] := by simp [visitGraph, hp]
          rw [hhit, hnext, Bool.or_false]
          rfl
      | some d =>
          dsimp only
          rw [hit_pattern hp, next_pattern hp, hscan, outcome_addIf, houtcome]

/-- The search is that of the graph. -/
theorem outcome_scanResources (levels : Nat) (s : Scan κ) (res : Option ι) :
    (doc.scanResources levels s res).outcome =
      (doc.below res).foldl (doc.visitGraph.visit (2 * levels)) s.outcome := by
  induction levels generalizing s res with
  | zero =>
      have hstay : ∀ (ws : List (Node ι)) (o : List κ × Bool),
          ws.foldl (doc.visitGraph.visit 0) o = o := by
        intro ws o
        induction ws with
        | nil => rfl
        | cons w ws ih => exact ih
      exact (hstay _ _).symm
  | succ levels ih =>
      rw [scanResources]
      cases hd : res.bind doc.dict with
      | none =>
          have hbelow : doc.below res = [] := by
            cases res with
            | none => rfl
            | some r =>
                rw [Option.bind_some] at hd
                simp [below, hd]
          rw [hbelow]
          rfl
      | some d =>
          obtain ⟨r, rfl, hr⟩ := Option.bind_eq_some_iff.mp hd
          have hbelow : doc.below (some r) = [.resources r] := by simp [below, hr]
          have hkey : doc.visitGraph.key (.resources r) = doc.objGen r := by simp [visitGraph, hr]
          have hhit : doc.visitGraph.hit (.resources r) =
              d.gstates.any fun e => gsHasTransparency e.2 := by
            simp [visitGraph, hr]
          have hlevels : 2 * (levels + 1) = 2 * levels + 1 + 1 := rfl
          have hseen : s.outcome.1 = s.seen := rfl
          rw [hbelow, List.foldl_cons, List.foldl_nil, hlevels, VisitGraph.visit, hkey, hhit,
            next_resources hr, hseen, Option.bind_some]
          dsimp only
          cases VisitGraph.enter (doc.objGen r) s.seen with
          | none => rfl
          | some seen =>
              dsimp only
              have hxObject : ∀ s, (d.xObject.foldl
                  (doc.scanXObject (doc.scanResources levels)) s).outcome =
                  (d.xObject.map fun e => Node.xObject e.2).foldl
                    (doc.visitGraph.visit (2 * levels + 1)) s.outcome := by
                intro s
                rw [List.foldl_map]
                exact (List.foldl_hom Scan.outcome fun s e =>
                  (outcome_scanXObject ih s e).symm).symm
              have hpattern : ∀ s, (d.pattern.foldl
                  (doc.scanPattern (doc.scanResources levels)) s).outcome =
                  (d.pattern.map fun e => Node.pattern e.2).foldl
                    (doc.visitGraph.visit (2 * levels + 1)) s.outcome := by
                intro s
                rw [List.foldl_map]
                exact (List.foldl_hom Scan.outcome fun s e =>
                  (outcome_scanPattern ih s e).symm).symm
              rw [hpattern, hxObject, outcome_gstates, List.foldl_append]
              rfl

end Scan

theorem not_image_of_form {v : Value} (h : v.nameIs "/Form" = true) :
    v.nameIs "/Image" = false := by
  cases v with
  | name s =>
      have hs : s = "/Form" := eq_of_beq h
      rw [hs]
      decide
  | _ => cases h

section Reached

variable {doc}

/-- Below a reference stand the resources it resolves to. -/
theorem mem_below {res : Option ι} {v : Node ι} :
    v ∈ doc.below res ↔ ∃ i d, res = some i ∧ doc.dict i = some d ∧ v = .resources i := by
  cases res with
  | none => simp [below]
  | some i =>
      rw [below, List.mem_map]
      constructor
      · rintro ⟨j, hj, rfl⟩
        obtain ⟨hj, hdict⟩ := List.mem_filter.mp hj
        obtain rfl : j = i := by simpa using hj
        obtain ⟨d, hd⟩ := Option.isSome_iff_exists.mp hdict
        exact ⟨j, d, rfl, hd, rfl⟩
      · rintro ⟨j, d, hj, hd, rfl⟩
        obtain rfl := Option.some.inj hj
        refine ⟨i, List.mem_filter.mpr ⟨by simp, ?_⟩, rfl⟩
        rw [hd]
        rfl

theorem hit_resources {r : ι} {d : Entries ι} (hr : doc.dict r = some d) :
    doc.visitGraph.hit (.resources r) = true ↔
      ∃ e ∈ d.gstates, gsHasTransparency e.2 = true := by
  simp [visitGraph, hr]

theorem hit_xObject_iff {i : ι} {x : Entries ι} (hx : doc.stream i = some x) :
    doc.visitGraph.hit (.xObject i) = true ↔ ShowsXObject x := by
  rw [hit_xObject hx, ShowsXObject]
  cases hform : x.subtype.nameIs "/Form" with
  | true => simp [not_image_of_form hform]
  | false => cases x.subtype.nameIs "/Image" <;> simp

/-- What a node that reaches something tells of its object. -/
def Means (doc : Doc ι κ) : Node ι → Prop
  | .resources r => doc.Reaches r
  | .xObject i => ∃ x, doc.stream i = some x ∧ (ShowsXObject x ∨
      x.subtype.nameIs "/Form" = true ∧ ∃ next, x.resources = some next ∧ doc.Reaches next)
  | .pattern i => ∃ p, doc.entries i = some p ∧ (gsHasTransparency p.gstate = true ∨
      ∃ next, p.resources = some next ∧ doc.Reaches next)

theorem means_of_hit {v : Node ι} (h : doc.visitGraph.hit v = true) : doc.Means v := by
  cases v with
  | resources r =>
      cases hr : doc.dict r with
      | none => simp [visitGraph, hr] at h
      | some d =>
          obtain ⟨e, he, hgs⟩ := (hit_resources hr).mp h
          exact .gstate hr he hgs
  | xObject i =>
      cases hx : doc.stream i with
      | none => simp [visitGraph, hx] at h
      | some x => exact ⟨x, hx, Or.inl ((hit_xObject_iff hx).mp h)⟩
  | pattern i =>
      cases hp : doc.entries i with
      | none => simp [visitGraph, hp] at h
      | some p => exact ⟨p, hp, Or.inl ((hit_pattern hp).symm.trans h)⟩

/-- What holds of a successor holds of the node that leads to it. -/
theorem means_of_next {v w : Node ι} (hw : w ∈ doc.visitGraph.next v) (h : doc.Means w) :
    doc.Means v := by
  cases v with
  | resources r =>
      cases hr : doc.dict r with
      | none => simp [visitGraph, hr] at hw
      | some d =>
          rw [next_resources hr, List.mem_append, List.mem_map, List.mem_map] at hw
          rcases hw with ⟨e, he, rfl⟩ | ⟨e, he, rfl⟩
          · obtain ⟨x, hx, hshows | ⟨hform, next, hres, hreach⟩⟩ := h
            · exact .xObject hr he hx hshows
            · exact .form hr he hx hform hres hreach
          · obtain ⟨p, hp, hgs | ⟨next, hres, hreach⟩⟩ := h
            · exact .patternState hr he hp hgs
            · exact .pattern hr he hp hres hreach
  | xObject i =>
      cases hx : doc.stream i with
      | none => simp [visitGraph, hx] at hw
      | some x =>
          by_cases hform : x.subtype.nameIs "/Form" = true
          · rw [next_xObject hx, if_pos hform] at hw
            obtain ⟨next, d, hres, -, rfl⟩ := mem_below.mp hw
            exact ⟨x, hx, Or.inr ⟨hform, next, hres, h⟩⟩
          · simp [visitGraph, hx, hform] at hw
  | pattern i =>
      cases hp : doc.entries i with
      | none => simp [visitGraph, hp] at hw
      | some p =>
          rw [next_pattern hp] at hw
          obtain ⟨next, d, hres, -, rfl⟩ := mem_below.mp hw
          exact ⟨p, hp, Or.inr ⟨next, hres, h⟩⟩

/-- What reaches something is a dictionary of resources. -/
theorem Reaches.dict {r : ι} (h : doc.Reaches r) : ∃ d, doc.dict r = some d := by
  cases h <;> exact ⟨_, by assumption⟩

/-- Resources that reach something reach it in the graph of the search. -/
theorem visit_reaches {r : ι} (h : doc.Reaches r) :
    doc.visitGraph.Reaches (.resources r) := by
  induction h with
  | gstate hr he h => exact .here ((hit_resources hr).mpr ⟨_, he, h⟩)
  | @xObject r d x hr e he hx h =>
      have hmem : Node.xObject e.2 ∈ doc.visitGraph.next (.resources r) := by
        rw [next_resources hr]
        exact List.mem_append_left _ (List.mem_map.mpr ⟨e, he, rfl⟩)
      exact .next hmem (.here ((hit_xObject_iff hx).mpr h))
  | @form r next d x hr e he hx hform hres h ih =>
      have hmem : Node.xObject e.2 ∈ doc.visitGraph.next (.resources r) := by
        rw [next_resources hr]
        exact List.mem_append_left _ (List.mem_map.mpr ⟨e, he, rfl⟩)
      have hnext : Node.resources next ∈ doc.visitGraph.next (.xObject e.2) := by
        obtain ⟨d', hd'⟩ := h.dict
        rw [next_xObject hx, if_pos hform]
        exact mem_below.mpr ⟨next, d', hres, hd', rfl⟩
      exact .next hmem (.next hnext ih)
  | @patternState r d p hr e he hp h =>
      have hmem : Node.pattern e.2 ∈ doc.visitGraph.next (.resources r) := by
        rw [next_resources hr]
        exact List.mem_append_right _ (List.mem_map.mpr ⟨e, he, rfl⟩)
      exact .next hmem (.here ((hit_pattern hp).trans h))
  | @pattern r next d p hr e he hp hres h ih =>
      have hmem : Node.pattern e.2 ∈ doc.visitGraph.next (.resources r) := by
        rw [next_resources hr]
        exact List.mem_append_right _ (List.mem_map.mpr ⟨e, he, rfl⟩)
      have hnext : Node.resources next ∈ doc.visitGraph.next (.pattern e.2) := by
        obtain ⟨d', hd'⟩ := h.dict
        rw [next_pattern hp]
        exact mem_below.mpr ⟨next, d', hres, hd', rfl⟩
      exact .next hmem (.next hnext ih)

theorem visit_reaches_iff {r : ι} : doc.visitGraph.Reaches (.resources r) ↔ doc.Reaches r := by
  constructor
  · intro h
    have hmeans : ∀ v, doc.visitGraph.Reaches v → doc.Means v := by
      intro v hv
      induction hv with
      | here hhit => exact means_of_hit hhit
      | next hw _ ih => exact means_of_next hw ih
    exact hmeans _ h
  · exact visit_reaches

end Reached

/-- An object that some resources list as a pattern. -/
def IsPattern (i : ι) : Prop := ∃ r d e, doc.dict r = some d ∧ e ∈ d.pattern ∧ e.2 = i

/-- No pattern is listed as an XObject or used as resources. -/
structure PatternsApart : Prop where
  xObject : ∀ r d e, doc.dict r = some d → e ∈ d.xObject → ¬ doc.IsPattern e.2
  resources : ∀ i d next, doc.entries i = some d → d.resources = some next → ¬ doc.IsPattern next

/-- The places in which objects stand if patterns are kept apart. -/
def Fits : Node ι → Prop
  | .resources i => ¬ doc.IsPattern i
  | .xObject i => ¬ doc.IsPattern i
  | .pattern i => doc.IsPattern i

section Places

variable {doc}

theorem entries_of_stream {i : ι} {d : Entries ι} (h : doc.stream i = some d) :
    doc.entries i = some d := (doc.stream_eq_some.mp h).2

/-- The successors of a node that fits its place fit theirs. -/
theorem fits_next (hapart : doc.PatternsApart) {v w : Node ι} (hv : doc.Fits v)
    (hw : w ∈ doc.visitGraph.next v) : doc.Fits w := by
  cases v with
  | resources r =>
      cases hr : doc.dict r with
      | none => simp [visitGraph, hr] at hw
      | some d =>
          rw [next_resources hr, List.mem_append, List.mem_map, List.mem_map] at hw
          rcases hw with ⟨e, he, rfl⟩ | ⟨e, he, rfl⟩
          · exact hapart.xObject r d e hr he
          · exact ⟨r, d, e, hr, he, rfl⟩
  | xObject i =>
      cases hx : doc.stream i with
      | none => simp [visitGraph, hx] at hw
      | some x =>
          by_cases hform : x.subtype.nameIs "/Form" = true
          · rw [next_xObject hx, if_pos hform] at hw
            obtain ⟨next, d, hres, -, rfl⟩ := mem_below.mp hw
            exact hapart.resources i x next (entries_of_stream hx) hres
          · simp [visitGraph, hx, hform] at hw
  | pattern i =>
      cases hp : doc.entries i with
      | none => simp [visitGraph, hp] at hw
      | some p =>
          rw [next_pattern hp] at hw
          obtain ⟨next, d, hres, -, rfl⟩ := mem_below.mp hw
          exact hapart.resources i p next hp hres

/-- The object of a node. -/
def Node.object : Node ι → ι
  | .resources i => i
  | .xObject i => i
  | .pattern i => i

open Classical in
/-- The place that an object fits. -/
noncomputable def place (doc : Doc ι κ) (i : ι) : Node ι :=
  if doc.IsPattern i then .pattern i else if doc.isStream i then .xObject i else .resources i

/-- A node with a number is in the place that its object fits. -/
theorem place_of_key {v : Node ι} {k : κ} (hv : doc.Fits v) (hkey : doc.visitGraph.key v = some k) :
    doc.objGen v.object = some k ∧ v = doc.place v.object := by
  cases v with
  | resources i =>
      change (if (doc.dict i).isSome then doc.objGen i else none) = some k at hkey
      split_ifs at hkey with hdict
      obtain ⟨d, hd⟩ := Option.isSome_iff_exists.mp hdict
      refine ⟨hkey, ?_⟩
      rw [Node.object, place, if_neg hv, (doc.dict_eq_some.mp hd).1, if_neg Bool.false_ne_true]
  | xObject i =>
      change (if (doc.stream i).isSome then doc.objGen i else none) = some k at hkey
      split_ifs at hkey with hstream
      obtain ⟨d, hd⟩ := Option.isSome_iff_exists.mp hstream
      refine ⟨hkey, ?_⟩
      rw [Node.object, place, if_neg hv, (doc.stream_eq_some.mp hd).1, if_pos rfl]
  | pattern i => exact ⟨hkey, (if_pos hv).symm⟩

/-- Objects with one number in places that they fit are in the same place. -/
theorem fits_key {v w : Node ι} {k : κ} (hv : doc.Fits v) (hw : doc.Fits w)
    (hkv : doc.visitGraph.key v = some k) (hkw : doc.visitGraph.key w = some k) : v = w := by
  obtain ⟨hgv, hpv⟩ := place_of_key hv hkv
  obtain ⟨hgw, hpw⟩ := place_of_key hw hkw
  have hobject : v.object = w.object :=
    (doc.getObject_objGen _ k hgv).symm.trans (doc.getObject_objGen _ k hgw)
  calc v = doc.place v.object := hpv
    _ = doc.place w.object := congrArg doc.place hobject
    _ = w := hpw.symm

theorem occur (hapart : doc.PatternsApart) : doc.visitGraph.Occur doc.Fits :=
  ⟨fun _ hv _ hw => fits_next hapart hv hw, fun _ _ _ hv hw hkv hkw => fits_key hv hw hkv hkw⟩

theorem plain_eq [DecidableEq κ] (r : ι) : doc.plainResourcesHaveTransparency r =
    ((doc.below (some r)).foldl (doc.visitGraph.visit (2 * kMaxNest)) ([], false)).2 := by
  have hstart : ({} : Scan κ).outcome = ([], false) := rfl
  rw [← hstart, ← outcome_scanResources]
  rfl

/-- What is below some resources is visited rightly, if the levels suffice. -/
theorem below_iff [DecidableEq κ] (hapart : doc.PatternsApart) {r : ι} (hr : ¬ doc.IsPattern r)
    {n : Nat} (hnest : doc.NestedWithin n r) :
    ((doc.below (some r)).foldl (doc.visitGraph.visit (2 * n)) ([], false)).2 = true ↔
      doc.Reaches r := by
  cases hd : doc.dict r with
  | none =>
      have hbelow : doc.below (some r) = [] := by simp [below, hd]
      rw [hbelow]
      refine iff_of_false Bool.false_ne_true fun hreaches => ?_
      obtain ⟨d, hd'⟩ := hreaches.dict
      rw [hd] at hd'
      cases hd'
  | some d =>
      have hbelow : doc.below (some r) = [.resources r] := by simp [below, hd]
      rw [hbelow, List.foldl_cons, List.foldl_nil, ← visit_reaches_iff]
      exact VisitGraph.visit_iff (occur hapart) hr hnest

end Places

/-- The search answers whether something transparent is reached. -/
theorem plain_iff [DecidableEq κ] (doc : Doc ι κ) (hapart : doc.PatternsApart) {r : ι}
    (hr : ¬ doc.IsPattern r) (hnest : doc.NestedWithin kMaxNest r) :
    doc.plainResourcesHaveTransparency r = true ↔ doc.Reaches r := by
  rw [plain_eq]
  exact below_iff hapart hr hnest

/-- A page with a form that is a transparency group. -/
def groupPage : Doc Nat Nat where
  objGen := some
  getObject := id
  getObject_objGen _ _ h := (Option.some.inj h).symm
  isStream i := i == 2
  entries
    | 1 => some { xObject := [("/F", 2)] }
    | 2 => some { subtype := .name "/Form", group := some (.name "/Transparency") }
    | _ => none

theorem dict_groupPage {r : Nat} {d : Entries Nat} (h : groupPage.dict r = some d) :
    r = 1 ∧ d.pattern = [] := by
  obtain ⟨hstream, hentries⟩ := groupPage.dict_eq_some.mp h
  rcases r with _ | _ | _ | r
  · cases hentries
  · cases hentries
    exact ⟨rfl, rfl⟩
  · cases hstream
  · cases hentries

theorem not_isPattern_groupPage (i : Nat) : ¬ groupPage.IsPattern i := by
  rintro ⟨r, d, e, hr, he, -⟩
  rw [(dict_groupPage hr).2] at he
  cases he

theorem patternsApart_groupPage : groupPage.PatternsApart :=
  ⟨fun _ _ e _ _ => not_isPattern_groupPage e.2, fun _ _ next _ _ => not_isPattern_groupPage next⟩

theorem nested_groupPage {r : Nat} (hr : r ∈ [1, 2]) :
    groupPage.visitGraph.Nested 2 ∅ (.resources r) := by
  intro _ w hw
  simp only [List.mem_cons, List.not_mem_nil, or_false] at hr
  rcases hr with rfl | rfl
  · obtain rfl : w = .xObject 2 := List.mem_singleton.mp hw
    exact fun _ _ hw' => absurd hw' List.not_mem_nil
  · exact absurd hw List.not_mem_nil

theorem plain_iff_groupPage :
    groupPage.plainResourcesHaveTransparency 1 = true ↔ groupPage.Reaches 1 :=
  plain_iff groupPage patternsApart_groupPage (not_isPattern_groupPage 1)
    ((nested_groupPage List.mem_cons_self).mono (by decide))

end Doc

end Kura.Engine.Transparency
