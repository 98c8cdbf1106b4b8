import Mathlib.Data.List.Basic
import Mathlib.Data.List.Forall2
import Mathlib.Logic.Function.Basic
import Mathlib.Tactic

/-!
# The page tree

Finding out whether the page tree has to be rebuilt, and rebuilding it bottom up
with at most 1024 kids for each node.

## Implementation notes

Objects are numbered; a dictionary is a function, with null for the keys it does
not have. The walk over the tree ends where it finds the tree inconsistent, so
its flag is an `Option`. Reading the pages and handing inherited attributes down
to them are functions of a library; the cache of the pages is left out.
-/

namespace Kura.Engine.PageTree

/-- Values in a file. -/
inductive Value where
  | null
  | integer (n : Int)
  | name (n : String)
  | array (items : List Value)
  | dictionary (entries : String → Value)
  | indirect (id : Nat)
  | other

/-- The entries of a dictionary. -/
abbrev Entries := String → Value

/-- The objects of a file, numbered from zero, and the `/Pages` entry of the catalog. -/
structure Pdf where
  size : Nat
  objects : Nat → Value
  fresh : ∀ id, size ≤ id → objects id = .null
  pages : Value

namespace Pdf

variable (pdf : Pdf)

/-- What a value stands for. -/
def resolve : Value → Value
  | .indirect id => pdf.objects id
  | v => v

/-- The entries of a dictionary. -/
def dict? (v : Value) : Option Entries :=
  match pdf.resolve v with
  | .dictionary d => some d
  | _ => none

/-- Tests for a name. -/
def nameIs (v : Value) (n : String) : Bool :=
  match pdf.resolve v with
  | .name m => m = n
  | _ => false

/-- The items of an array. -/
def array? (v : Value) : Option (List Value) :=
  match pdf.resolve v with
  | .array items => some items
  | _ => none

/-- The value of an integer. -/
def integer? (v : Value) : Option Int :=
  match pdf.resolve v with
  | .integer n => some n
  | _ => none

/-- The entry of an object that is a dictionary. -/
def getKey (id : Nat) (k : String) : Value :=
  match pdf.objects id with
  | .dictionary d => d k
  | _ => .null

/-- Sets the entry of an object that is a dictionary. -/
def replaceKey (id : Nat) (k : String) (v : Value) : Pdf :=
  match h : pdf.objects id with
  | .dictionary d =>
      { pdf with
        objects := Function.update pdf.objects id (.dictionary (Function.update d k v))
        fresh := by
          intro i hi
          rw [Function.update_of_ne, pdf.fresh i hi]
          rintro rfl
          rw [pdf.fresh i hi] at h
          cases h }
  | _ => pdf

/-- A new object. -/
def makeIndirectObject (v : Value) : Pdf where
  size := pdf.size + 1
  objects := Function.update pdf.objects pdf.size v
  fresh := by
    intro i hi
    rw [Function.update_of_ne (by omega)]
    exact pdf.fresh i (by omega)
  pages := pdf.pages

end Pdf

/-- The functions of qpdf that are used. -/
structure Qpdf where
  /-- Hands inherited attributes down to the pages. -/
  pushInheritedAttributesToPage : Pdf → Pdf
  /-- The numbers of the pages, and the file with what was repaired. -/
  getAllPages : Pdf → Pdf × List Nat

/-- Longest array. -/
def kMaxArray : Nat := 8191

/-- Deepest walk. -/
def kMaxObjectWalk : Nat := 64

/-- A node of a page tree with too many kids. -/
def oversizedAt (pdf : Pdf) (id : Nat) : Bool :=
  match pdf.objects id with
  | .dictionary d =>
      pdf.nameIs (d "/Type") "/Pages" &&
        match pdf.array? (d "/Kids") with
        | some items => kMaxArray < items.length
        | none => false
  | _ => false

/-- Tests whether any object is a node with too many kids. -/
def oversized (pdf : Pdf) : Bool := (List.range pdf.size).any (oversizedAt pdf)

/-- The number of an indirect value. -/
def Value.id? : Value → Option Nat
  | .indirect id => some id
  | _ => none

/-- Notes that a node has been seen; none if it had been. -/
def enter (seen : List Nat) (node : Value) : Option (List Nat) :=
  match node.id? with
  | some id => if id ∈ seen then none else some (id :: seen)
  | none => some seen

/-- Tests whether the parent that a node names is the one it was reached from. -/
def parentFits (pdf : Pdf) (d : Entries) : Option Value → Bool
  | none => true
  | some parent =>
      (pdf.dict? (d "/Parent")).isSome &&
        match (d "/Parent").id?, parent.id? with
        | some p, some q => p = q
        | _, _ => false

/-- The leaves under a node and the nodes seen by then; none if the tree is inconsistent. The
first argument is the number of levels that may follow. -/
def walk (pdf : Pdf) : Nat → Value → Option Value → List Nat → Option (Nat × List Nat)
  | 0, _, _, _ => none
  | levels + 1, node, parent, seen => do
      let d ← pdf.dict? node
      let seen ← enter seen node
      if !parentFits pdf d parent then none
      else if pdf.nameIs (d "/Type") "/Page" then some (1, seen)
      else
        let kids ← pdf.array? (d "/Kids")
        let (leaves, seen) ← kids.foldlM (fun (acc : Nat × List Nat) kid => do
          let (n, seen) ← walk pdf levels kid (some node) acc.2
          some (acc.1 + n, seen)) (0, seen)
        if pdf.integer? (d "/Count") = some (leaves : Int) then some (leaves, seen) else none

/-- Tests whether the page tree is inconsistent. -/
def inconsistent (pdf : Pdf) : Bool :=
  match pdf.dict? pdf.pages with
  | some _ =>
      match walk pdf (kMaxObjectWalk + 1) pdf.pages none [] with
      | some (n, _) => n = 0
      | none => true
  | none => true

/-- Most kids of a new node. -/
def kFanout : Nat := 1024

/-- The leaves that a kid of a new node adds. -/
def leavesOf (pdf : Pdf) (kid : Nat) : Int :=
  if pdf.nameIs (pdf.getKey kid "/Type") "/Pages" then
    (pdf.integer? (pdf.getKey kid "/Count")).getD 0
  else 1

/-- Hangs kids under a node and counts their leaves. -/
def adopt (node : Nat) : Pdf → Int → List Nat → Pdf × Int
  | pdf, count, [] => (pdf, count)
  | pdf, count, kid :: kids =>
      let pdf := pdf.replaceKey kid "/Parent" (.indirect node)
      adopt node pdf (count + leavesOf pdf kid) kids

/-- The entries of a node before it has kids. -/
def bareNode : Entries := Function.update (fun _ => .null) "/Type" (.name "/Pages")

/-- A new node above some kids, and its number. -/
def makeNode (pdf : Pdf) (kids : List Nat) : Pdf × Nat :=
  let node := pdf.size
  let pdf := pdf.makeIndirectObject (.dictionary bareNode)
  let (pdf, count) := adopt node pdf 0 kids
  ((pdf.replaceKey node "/Kids" (.array (kids.map .indirect))).replaceKey node "/Count"
    (.integer count), node)

/-- The nodes above one level. -/
def makeLevel (pdf : Pdf) : List Nat → Pdf × List Nat
  | [] => (pdf, [])
  | k :: ks =>
      let (pdf, node) := makeNode pdf ((k :: ks).take kFanout)
      let (pdf, next) := makeLevel pdf ((k :: ks).drop kFanout)
      (pdf, node :: next)
  termination_by level => level.length
  decreasing_by simp [kFanout]

/-- A level above another one is shorter, unless it is the root. -/
theorem length_makeLevel (pdf : Pdf) (level : List Nat) :
    (makeLevel pdf level).2.length ≤ (level.length + (kFanout - 1)) / kFanout := by
  fun_induction makeLevel pdf level with
  | case1 => exact Nat.zero_le _
  | case2 pdf k ks pdf' node hnode pdf'' next hnext ih =>
      have hk : kFanout = 1024 := rfl
      rw [hnext, List.length_drop, hk] at ih
      rw [hk]
      simp only [List.length_cons] at ih ⊢
      omega

theorem length_makeLevel_lt {pdf : Pdf} {level : List Nat}
    (h : 1 < (makeLevel pdf level).2.length) : (makeLevel pdf level).2.length < level.length := by
  have hlen := length_makeLevel pdf level
  have hk : kFanout = 1024 := rfl
  rw [hk] at hlen
  omega

/-- Levels above one another, up to the root. -/
def build (pdf : Pdf) (level : List Nat) : Pdf × List Nat :=
  let next := makeLevel pdf level
  if 1 < next.2.length then build next.1 next.2 else next
  termination_by level.length
  decreasing_by
    rename_i h
    exact length_makeLevel_lt h

/-- Rebuilds the tree over the pages of a file. -/
def rebuild (pdf : Pdf) (pages : List Nat) : Pdf :=
  match build pdf pages with
  | (pdf, root :: _) => { pdf.replaceKey root "/Parent" .null with pages := .indirect root }
  | (pdf, []) => pdf

/-- Rebuilds the page tree if a node has too many kids or the tree is inconsistent; says whether
it did. -/
def rebalancePageTree (q : Qpdf) (pdf : Pdf) : Pdf × Bool :=
  if !oversized pdf && !inconsistent pdf then (pdf, false)
  else
    let (pdf, pages) := q.getAllPages (q.pushInheritedAttributesToPage pdf)
    if pages = [] then (pdf, false) else (rebuild pdf pages, true)

/-- Trees of one height; a node has a number and its kids. -/
def Tree : Nat → Type
  | 0 => Nat
  | height + 1 => Nat × List (Tree height)

namespace Tree

/-- A node above trees of one height. -/
def node {height : Nat} (id : Nat) (kids : List (Tree height)) : Tree (height + 1) := (id, kids)

/-- The number of the topmost node. -/
def root : {height : Nat} → Tree height → Nat
  | 0, page => page
  | _ + 1, t => t.1

/-- The pages, from the first to the last. -/
def leaves : {height : Nat} → Tree height → List Nat
  | 0, page => [page]
  | _ + 1, t => t.2.flatMap leaves

/-- The numbers of all nodes. -/
def ids : {height : Nat} → Tree height → List Nat
  | 0, page => [page]
  | _ + 1, t => t.1 :: t.2.flatMap ids

end Tree

/-- A page. -/
def IsPage (pdf : Pdf) (id : Nat) : Prop :=
  ∃ d, pdf.objects id = .dictionary d ∧ pdf.nameIs (d "/Type") "/Page" = true

/-- A node with its kids and its count. -/
def IsNode (pdf : Pdf) (id : Nat) (kids : List Nat) (count : Nat) : Prop :=
  ∃ d, pdf.objects id = .dictionary d ∧ d "/Type" = .name "/Pages" ∧
    d "/Kids" = .array (kids.map .indirect) ∧ d "/Count" = .integer count

/-- A file holds a tree: every node has at most 1024 kids, counts its leaves and is the parent of
its kids. -/
def Holds (pdf : Pdf) : {height : Nat} → Tree height → Prop
  | 0, page => IsPage pdf page
  | _ + 1, t =>
      IsNode pdf t.1 (t.2.map Tree.root) (t.2.flatMap Tree.leaves).length ∧
        t.2.length ≤ kFanout ∧
        ∀ kid ∈ t.2, pdf.getKey kid.root "/Parent" = .indirect t.1 ∧ Holds pdf kid

end Kura.Engine.PageTree
