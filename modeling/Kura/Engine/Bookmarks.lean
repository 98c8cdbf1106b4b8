import Mathlib.Data.List.Basic
import Mathlib.Tactic

/-!
# Bookmarks

The headings of a document are nested by their levels, and the nested headings
are linked into an outline.

## Implementation notes

A vector of nodes is its first node, the vector of that node's kids, and the rest
of the vector. A pointer to a vector is the way to it from the outermost one; it
dangles once a vector on its way has grown, since the nodes of that vector may
have been moved. Using a dangling pointer is an error. The stacks have their tops
first. Only the dictionaries of the outline are kept in the objects of a file, and
counters are not bounded, as an outline has as many objects as entries.
-/

namespace Kura.Engine.Bookmarks

structure Heading where
  title : String
  page : Int
  level : Int
  deriving DecidableEq

/-- A vector of nodes. -/
inductive OutlineNodes where
  | nil
  | cons (h : Heading) (kids rest : OutlineNodes)
  deriving DecidableEq

namespace OutlineNodes

/-- The number of nodes in the vector. -/
def length : OutlineNodes → Nat
  | nil => 0
  | cons _ _ rest => rest.length + 1

/-- The number of nodes in the vector and below it. -/
def total : OutlineNodes → Nat
  | nil => 0
  | cons _ kids rest => 1 + kids.total + rest.total

/-- The headings in the order of the document. -/
def preorder : OutlineNodes → List Heading
  | nil => []
  | cons h kids rest => h :: (kids.preorder ++ rest.preorder)

/-- The vector at the end of a way. -/
def at? : List Nat → OutlineNodes → Option OutlineNodes
  | [], nodes => some nodes
  | _ :: _, nil => none
  | 0 :: way, cons _ kids _ => kids.at? way
  | (i + 1) :: way, cons _ _ rest => rest.at? (i :: way)

/-- Puts a heading behind the nodes of the vector at the end of a way. -/
def pushBack (n : Heading) : List Nat → OutlineNodes → Option OutlineNodes
  | [], nil => some (cons n nil nil)
  | [], cons h kids rest => (rest.pushBack n []).map (cons h kids)
  | _ :: _, nil => none
  | 0 :: way, cons h kids rest => (kids.pushBack n way).map (cons h · rest)
  | (i + 1) :: way, cons h kids rest => (rest.pushBack n (i :: way)).map (cons h kids)

end OutlineNodes

/-- A pointer to a vector, if it does not dangle. -/
abbrev Pointer := Option (List Nat)

/-- What the vectors on the stack have become when the one at `way` has grown. -/
def moved (way : List Nat) (stack : List Pointer) : List Pointer :=
  stack.map fun p => p.filter fun w => !(way.isPrefixOf w && way != w)

/-- The state of `nest`. -/
structure Nest where
  out : OutlineNodes
  stack : List Pointer
  levels : List Int

/-- Pops the vectors that a heading does not belong to. -/
def unwind (level : Int) : List Int → List Pointer → List Int × List Pointer
  | l :: l' :: ls, p :: ps =>
      if level ≤ l then unwind level (l' :: ls) ps else (l :: l' :: ls, p :: ps)
  | ls, ps => (ls, ps)

/-- Adds a heading. -/
def Nest.add (s : Nest) (n : Heading) : Option Nest :=
  let popped := unwind n.level s.levels s.stack
  match popped.2 with
  | some way :: _ =>
      (s.out.at? way).bind fun vector =>
        (s.out.pushBack n way).map fun out =>
          { out
            stack := some (way ++ [vector.length]) :: moved way popped.2
            levels := n.level :: popped.1 }
  | _ => none

def nest (flat : List Heading) : Option OutlineNodes :=
  (flat.foldlM Nest.add ⟨.nil, [some []], [0]⟩).map Nest.out

/-- A dictionary of an outline. -/
structure Dict where
  type : Option String := none
  title : Option String := none
  /-- The page of the `/Fit` destination. -/
  dest : Option Nat := none
  parent : Option Nat := none
  first : Option Nat := none
  last : Option Nat := none
  prev : Option Nat := none
  next : Option Nat := none
  count : Option Int := none
  deriving DecidableEq

structure Pdf where
  size : Nat
  objects : Nat → Dict
  /-- The `/Outlines` of the catalog. -/
  outlines : Option Nat

namespace Pdf

def makeIndirectObject (pdf : Pdf) (d : Dict) : Pdf :=
  { pdf with size := pdf.size + 1, objects := Function.update pdf.objects pdf.size d }

/-- Replaces keys of an object. -/
def modify (pdf : Pdf) (id : Nat) (f : Dict → Dict) : Pdf :=
  { pdf with objects := Function.update pdf.objects id (f (pdf.objects id)) }

end Pdf

/-- The pages of a document that has some. -/
abbrev Pages := {pages : List Nat // pages ≠ []}

/-- The page with the number that is closest to the one given. -/
def Pages.at (pages : Pages) (page : Int) : Nat :=
  pages.1.get ⟨(max 1 (min page pages.1.length) - 1).toNat, by
    have hpos := List.length_pos_iff.mpr pages.2
    omega⟩

def outlineItem (pdf : Pdf) (title : String) (page : Nat) : Pdf :=
  pdf.makeIndirectObject { title := some title, dest := some page }

/-- Links a new entry to its parent and to the entry before it. -/
def link (pdf : Pdf) (it parent : Nat) (prev : Option Nat) : Pdf :=
  let pdf := pdf.modify it fun d => { d with parent := some parent }
  let pdf := if prev.isNone then pdf.modify parent fun d => { d with first := some it } else pdf
  let pdf :=
    match prev with
    | some p =>
        (pdf.modify p fun d => { d with next := some it }).modify it fun d =>
          { d with prev := some p }
    | none => pdf
  pdf.modify parent fun d => { d with last := some it }

/-- Makes the entries of a vector behind the entry `prev`, and counts them. -/
def linkOutline (pages : Pages) (parent : Nat) :
    OutlineNodes → Option Nat → Pdf → Pdf × Int
  | .nil, _, pdf => (pdf, 0)
  | .cons h kids rest, prev, pdf =>
      let it := pdf.size
      let made := link (outlineItem pdf h.title (pages.at h.page)) it parent prev
      let sub := linkOutline pages it kids none made
      let pdf :=
        if sub.2 ≠ 0 then sub.1.modify it fun d => { d with count := some (-sub.2) } else sub.1
      let more := linkOutline pages parent rest (some it) pdf
      (more.1, more.2 + 1)

/-- Makes the outline of the headings. -/
def passBookmarks (pages : Pages) (flat : List Heading) (pdf : Pdf) : Option Pdf :=
  (nest flat).map fun tree =>
    let outlines := pdf.size
    let r := linkOutline pages outlines tree none
      (pdf.makeIndirectObject { type := some "/Outlines" })
    { r.1.modify outlines fun d => { d with count := some r.2 } with outlines := some outlines }

end Kura.Engine.Bookmarks
