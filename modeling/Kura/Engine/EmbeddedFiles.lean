import Kura.Engine.Jobs

/-!
# Documents without embedded files

A level that allows no attachments drops the tree of embedded files and the
associated files of the catalog, and it takes the embedded file out of each
file specification that it recognises.

## Implementation notes

A dictionary is told by its place in the document, whether it has an object
number or is written in place; the document says which objects are indirect.
An array is written in place or is an object. Removing entries leaves all places
as they are, so what is reached afterwards is reached along the entries that are
left.
-/

namespace Kura.Engine.EmbeddedFiles

open Kura.Engine.Jobs (Issue)

inductive Value where
  | null
  | name (s : String)
  /-- An object of the document, indirect or written in place. -/
  | object (id : Nat)
  | array (items : List Value)
  | other

abbrev Entries := List (String × Value)

inductive Obj where
  | null
  | name (s : String)
  | dictionary (entries : Entries)
  | stream (entries : Entries)
  | array (items : List Value)
  | other

structure Document where
  objects : List Obj
  indirect : Nat → Bool
  /-- The catalog. -/
  root : Nat

namespace Document

variable (doc : Document)

def obj (id : Nat) : Obj := doc.objects[id]?.getD .null

/-- The object that a value stands for. -/
def resolve : Value → Obj
  | .null => .null
  | .name s => .name s
  | .object id => doc.obj id
  | .array items => .array items
  | .other => .other

def isNull (v : Value) : Bool :=
  match doc.resolve v with
  | .null => true
  | _ => false

/-- The entries of a dictionary. -/
def dict? (id : Nat) : Option Entries :=
  match doc.obj id with
  | .dictionary entries => some entries
  | _ => none

def getKey (id : Nat) (k : String) : Value :=
  match doc.dict? id with
  | some entries => (entries.lookup k).getD .null
  | none => .null

def hasKey (id : Nat) (k : String) : Bool := !doc.isNull (doc.getKey id k)

/-- The place of a value that is a dictionary. -/
def dictId? : Value → Option Nat
  | .object id => (doc.dict? id).map fun _ => id
  | _ => none

def nameIs (v : Value) (n : String) : Bool :=
  match doc.resolve v with
  | .name s => s = n
  | _ => false

def setObj (id : Nat) (o : Obj) : Document := { doc with objects := doc.objects.set id o }

/-- The document without some entries of a dictionary. -/
def removeKey (id : Nat) (k : String) : Document :=
  match doc.dict? id with
  | some entries => doc.setObj id (.dictionary (entries.filter fun e => e.1 ≠ k))
  | none => doc

end Document

def stripEmbeddedFilespec (r : Document × List Issue) (fs : Nat) : Document × List Issue :=
  if r.1.hasKey fs "/EF" then
    (r.1.removeKey fs "/EF",
      r.2 ++ [⟨"EMBEDDED_FILE_REMOVED", "removed embedded file stream from filespec", true, 0, []⟩])
  else r

/-- An object that is recognised as a file specification. -/
def isFilespec (doc : Document) (id : Nat) : Bool :=
  doc.indirect id && doc.nameIs (doc.getKey id "/Type") "/Filespec"

/-- The tree of embedded files with the dictionary that holds it. -/
def embeddedFiles? (doc : Document) : Option (Nat × Nat) :=
  match doc.dictId? (doc.getKey doc.root "/Names") with
  | some names => (doc.dictId? (doc.getKey names "/EmbeddedFiles")).map fun tree => (names, tree)
  | none => none

def removeTree (part : Int) (doc : Document) : Document × List Issue :=
  match embeddedFiles? doc with
  | some (names, _) =>
      (doc.removeKey names "/EmbeddedFiles",
        [⟨"EMBEDDED_FILES_REMOVED",
          if 4 ≤ part then
            "removed /EmbeddedFiles name tree (PDF/A-4 requires attachments to be " ++
            "PDF/A themselves; target PDF/A-4f to keep arbitrary attachments)"
          else "removed /EmbeddedFiles name tree (forbidden before PDF/A-3)", true, 0, []⟩])
  | none => (doc, [])

/-- `handleEmbeddedFiles` where attachments are not allowed. -/
def handleEmbeddedFiles (part : Int) (doc : Document) : Document × List Issue :=
  let stripped := (List.range doc.objects.length).foldl
    (fun r id => if isFilespec r.1 id then stripEmbeddedFilespec r id else r) (removeTree part doc)
  (if stripped.1.hasKey doc.root "/AF" then stripped.1.removeKey doc.root "/AF" else stripped.1,
    stripped.2)

/-- The entries of a dictionary or a stream. -/
def entriesOf (doc : Document) (id : Nat) : Entries :=
  match doc.obj id with
  | .dictionary entries => entries
  | .stream entries => entries
  | _ => []

/-- The items of an array. -/
def itemsOf (doc : Document) (v : Value) : List Value :=
  match doc.resolve v with
  | .array items => items
  | _ => []

/-- Which entries there are: the place of a dictionary or stream, a key and its value. -/
abbrev Edges := Nat → String → Value → Prop

/-- The entries of a document. -/
def edges (doc : Document) : Edges := fun id k v => (k, v) ∈ entriesOf doc id

section

variable (edge : Edges) (doc : Document)

/-- What can be reached from the catalog. -/
inductive Reachable : Value → Prop where
  | root : Reachable (.object doc.root)
  | entry {id : Nat} {k : String} {v : Value} : Reachable (.object id) → edge id k v → Reachable v
  | item {v w : Value} : Reachable v → w ∈ itemsOf doc v → Reachable w

/-- The nodes of the tree of embedded files. -/
inductive TreeNode : Value → Prop where
  | root {names : Nat} {v : Value} : edge doc.root "/Names" (.object names) →
      edge names "/EmbeddedFiles" v → TreeNode v
  | kid {id : Nat} {v w : Value} : TreeNode (.object id) → edge id "/Kids" v →
      w ∈ itemsOf doc v → TreeNode w

/-- The places where a file specification hangs. -/
inductive FileSpec : Value → Prop where
  /-- A value of the tree of embedded files. -/
  | tree {id i : Nat} {v w : Value} : TreeNode edge doc (.object id) → edge id "/Names" v →
      (itemsOf doc v)[2 * i + 1]? = some w → FileSpec w
  /-- An associated file. -/
  | associated {id : Nat} {v w : Value} : Reachable edge doc (.object id) → edge id "/AF" v →
      w ∈ itemsOf doc v → FileSpec w
  /-- The file of an annotation. -/
  | annotation {id : Nat} {v t : Value} : Reachable edge doc (.object id) →
      edge id "/Subtype" t → doc.nameIs t "/FileAttachment" = true → edge id "/FS" v → FileSpec v
  /-- The file of an action. -/
  | action {id : Nat} {v s : Value} {n : String} : Reachable edge doc (.object id) →
      edge id "/S" s → doc.nameIs s n = true → edge id "/F" v → FileSpec v

end

/-- A file specification with an embedded file. -/
def Embeds (doc : Document) (v : Value) : Prop := ∃ id, v = .object id ∧ doc.hasKey id "/EF" = true

/-- No embedded file is left, and one that there was is reported. -/
structure Removed (part : Int) (doc : Document) : Prop where
  none : ∀ v, FileSpec (edges (handleEmbeddedFiles part doc).1) (handleEmbeddedFiles part doc).1 v →
    ¬ Embeds (handleEmbeddedFiles part doc).1 v
  reported : (∃ v, FileSpec (edges doc) doc v ∧ Embeds doc v) →
    ∃ i ∈ (handleEmbeddedFiles part doc).2,
      i.code = "EMBEDDED_FILE_REMOVED" ∨ i.code = "EMBEDDED_FILES_REMOVED"

/-- An entry that is dropped: the tree, the embedded file of what is recognised as a file
specification, or the associated files of the catalog. -/
def dropped (doc : Document) (id : Nat) (k : String) : Bool :=
  (embeddedFiles? doc).map Prod.fst = some id && k = "/EmbeddedFiles" ||
    isFilespec doc id && doc.hasKey id "/EF" && k = "/EF" ||
    id = doc.root && doc.hasKey doc.root "/AF" && k = "/AF"

/-- The entries that are not dropped. -/
def remaining (doc : Document) : Edges := fun id k v => edges doc id k v ∧ dropped doc id k = false

/-- Each file specification with an embedded file that can be reached without the entries that
are dropped is recognised as one. -/
def AllRecognised (doc : Document) : Prop :=
  ∀ v, FileSpec (remaining doc) doc v → Embeds doc v →
    ∃ id, v = .object id ∧ isFilespec doc id = true

/-- If a file is embedded, there is a tree, or something that is recognised embeds one. -/
def SomeRecognised (doc : Document) : Prop :=
  (∃ v, FileSpec (edges doc) doc v ∧ Embeds doc v) →
    (embeddedFiles? doc).isSome = true ∨
      ∃ id, isFilespec doc id = true ∧ doc.hasKey id "/EF" = true

/-- An object without some of its entries. -/
def Obj.without (drop : String → Bool) : Obj → Obj
  | .dictionary entries => .dictionary (entries.filter fun e => !drop e.1)
  | o => o

namespace Document

variable {doc : Document} {id : Nat} {entries : Entries}

theorem dict?_eq_some_iff : doc.dict? id = some entries ↔ doc.obj id = .dictionary entries := by
  unfold dict?
  cases doc.obj id <;> simp

theorem lt_length_of_dict? (h : doc.dict? id = some entries) : id < doc.objects.length := by
  have hobj := dict?_eq_some_iff.mp h
  by_contra hge
  rw [obj, List.getElem?_eq_none (Nat.le_of_not_lt hge)] at hobj
  cases hobj

theorem obj_setObj_self (o : Obj) (h : id < doc.objects.length) : (doc.setObj id o).obj id = o := by
  rw [obj, setObj, List.getElem?_set_self h]
  rfl

theorem obj_setObj_of_ne (doc : Document) (o : Obj) {i : Nat} (h : i ≠ id) :
    (doc.setObj id o).obj i = doc.obj i := by
  rw [obj, setObj, List.getElem?_set_ne h.symm]
  rfl

end Document

/-- Only a dictionary has entries that can be dropped. -/
theorem Obj.without_of_dict?_none {doc : Document} {id : Nat} (h : doc.dict? id = none)
    {drop : String → Bool} : (doc.obj id).without drop = doc.obj id := by
  cases hobj : doc.obj id with
  | dictionary entries =>
      rw [Document.dict?_eq_some_iff.mpr hobj] at h
      cases h
  | null => rfl
  | name s => rfl
  | stream entries => rfl
  | array items => rfl
  | other => rfl

/-- A document is another one without some entries of its dictionaries. -/
structure Without (doc : Document) (drop : Nat → String → Bool) (d : Document) : Prop where
  length : d.objects.length = doc.objects.length
  indirect : d.indirect = doc.indirect
  root : d.root = doc.root
  obj : ∀ id, d.obj id = (doc.obj id).without (drop id)

namespace Without

variable {doc d : Document} {drop : Nat → String → Bool}

theorem refl (doc : Document) : Without doc (fun _ _ => false) doc := by
  refine ⟨rfl, rfl, rfl, fun id => ?_⟩
  cases doc.obj id with
  | dictionary entries =>
      exact congrArg Obj.dictionary (List.filter_eq_self.mpr fun _ _ => rfl).symm
  | null => rfl
  | name s => rfl
  | stream entries => rfl
  | array items => rfl
  | other => rfl

theorem dict? (h : Without doc drop d) (id : Nat) :
    d.dict? id = (doc.dict? id).map fun entries => entries.filter fun e => !drop id e.1 := by
  unfold Document.dict?
  rw [h.obj]
  cases doc.obj id <;> rfl

theorem isNull (h : Without doc drop d) (v : Value) : d.isNull v = doc.isNull v := by
  cases v with
  | object id =>
      unfold Document.isNull Document.resolve
      simp only [h.obj]
      cases doc.obj id <;> rfl
  | null => rfl
  | name s => rfl
  | array items => rfl
  | other => rfl

theorem nameIs (h : Without doc drop d) (v : Value) (n : String) :
    d.nameIs v n = doc.nameIs v n := by
  cases v with
  | object id =>
      unfold Document.nameIs Document.resolve
      simp only [h.obj]
      cases doc.obj id <;> rfl
  | null => rfl
  | name s => rfl
  | array items => rfl
  | other => rfl

theorem itemsOf (h : Without doc drop d) (v : Value) :
    EmbeddedFiles.itemsOf d v = EmbeddedFiles.itemsOf doc v := by
  cases v with
  | object id =>
      unfold EmbeddedFiles.itemsOf Document.resolve
      simp only [h.obj]
      cases doc.obj id <;> rfl
  | null => rfl
  | name s => rfl
  | array items => rfl
  | other => rfl

/-- What a filter drops is not found, the rest as before. -/
theorem lookup_filter (entries : Entries) (p : String → Bool) (k : String) :
    (entries.filter fun e => !p e.1).lookup k = if p k then none else entries.lookup k := by
  induction entries with
  | nil => rw [List.filter_nil, List.lookup_nil, ite_self]
  | cons e entries ih =>
      by_cases hk : k = e.1
      · subst hk
        cases hp : p e.1 with
        | true =>
            rw [List.filter_cons_of_neg (by rw [hp]; decide), ih, hp, if_pos rfl, if_pos rfl]
        | false =>
            rw [List.filter_cons_of_pos (by rw [hp]; rfl), if_neg Bool.false_ne_true,
              List.lookup_cons_self, List.lookup_cons_self]
      · have hne : (k == e.1) = false := beq_eq_false_iff_ne.mpr hk
        rw [List.lookup_cons, hne]
        cases hp : p e.1 with
        | true => rw [List.filter_cons_of_neg (by rw [hp]; decide), ih]
        | false => rw [List.filter_cons_of_pos (by rw [hp]; rfl), List.lookup_cons, hne, ih]

theorem getKey (h : Without doc drop d) (id : Nat) (k : String) :
    d.getKey id k = if drop id k then .null else doc.getKey id k := by
  unfold Document.getKey
  rw [h.dict?]
  cases doc.dict? id with
  | none => rw [Option.map_none, ite_self]
  | some entries =>
      simp only [Option.map_some, lookup_filter]
      split_ifs
      · rfl
      · rfl

theorem hasKey (h : Without doc drop d) (id : Nat) (k : String) :
    d.hasKey id k = (!drop id k && doc.hasKey id k) := by
  unfold Document.hasKey
  rw [h.isNull, h.getKey]
  cases drop id k with
  | true => rfl
  | false => rfl

/-- An entry more is removed. -/
theorem removeKey (h : Without doc drop d) (id : Nat) (k : String) :
    Without doc (fun i j => drop i j || (i = id && j = k)) (d.removeKey id k) := by
  have hsame : ∀ i, i ≠ id → ∀ o : Obj,
      o.without (fun j => drop i j || (i = id && j = k)) = o.without (drop i) := by
    intro i hi o
    simp only [hi, decide_false, Bool.false_and, Bool.or_false]
  unfold Document.removeKey
  cases hd : d.dict? id with
  | none =>
      refine ⟨h.length, h.indirect, h.root, fun i => ?_⟩
      rcases eq_or_ne i id with rfl | hi
      · rw [h.dict?, Option.map_eq_none_iff] at hd
        rw [h.obj, Obj.without_of_dict?_none hd, Obj.without_of_dict?_none hd]
      · rw [hsame i hi, h.obj]
  | some entries =>
      have hobj := Document.dict?_eq_some_iff.mp hd
      obtain ⟨entries', hd', hentries⟩ := Option.map_eq_some_iff.mp ((h.dict? id).symm.trans hd)
      refine ⟨by rw [← h.length]; exact List.length_set, h.indirect, h.root, fun i => ?_⟩
      rcases eq_or_ne i id with rfl | hi
      · rw [Document.obj_setObj_self _ (Document.lt_length_of_dict? hd),
          Document.dict?_eq_some_iff.mp hd', Obj.without, ← hentries, List.filter_filter]
        congr 2
        funext e
        simp only [decide_true, Bool.true_and, Bool.not_or, decide_not, Bool.and_comm]
      · rw [hsame i hi, ← h.obj, Document.obj_setObj_of_ne _ _ hi]

/-- Entries are told apart by whether they are removed. -/
theorem congr (h : Without doc drop d) {drop' : Nat → String → Bool}
    (hdrop : ∀ id k, drop' id k = drop id k) : Without doc drop' d :=
  (funext fun id => funext fun k => hdrop id k : drop' = drop) ▸ h

end Without

section

variable {doc : Document}

theorem isFilespec_congr {d : Document} {drop : Nat → String → Bool} (h : Without doc drop d)
    (htype : ∀ id, drop id "/Type" = false) (id : Nat) : isFilespec d id = isFilespec doc id := by
  rw [isFilespec, isFilespec, h.indirect, h.nameIs, h.getKey, htype, if_neg Bool.false_ne_true]

/-- What is recognised among some objects loses its embedded file, and each loss is reported. -/
theorem foldl_strip {ids : List Nat} (hids : ids.Nodup) {r : Document × List Issue}
    {drop : Nat → String → Bool} (h : Without doc drop r.1)
    (htype : ∀ id, drop id "/Type" = false) (hfile : ∀ id ∈ ids, drop id "/EF" = false) :
    Without doc (fun id k => drop id k ||
        (ids.contains id && (isFilespec doc id && doc.hasKey id "/EF" && k = "/EF")))
      (ids.foldl (fun r id => if isFilespec r.1 id then stripEmbeddedFilespec r id else r) r).1 ∧
    ((∃ i ∈ (ids.foldl (fun r id => if isFilespec r.1 id then stripEmbeddedFilespec r id else r)
      r).2,
        i.code = "EMBEDDED_FILE_REMOVED" ∨ i.code = "EMBEDDED_FILES_REMOVED") ↔
      (∃ i ∈ r.2, i.code = "EMBEDDED_FILE_REMOVED" ∨ i.code = "EMBEDDED_FILES_REMOVED") ∨
        ∃ id ∈ ids, isFilespec doc id = true ∧ doc.hasKey id "/EF" = true) := by
  induction ids generalizing r drop with
  | nil =>
      refine ⟨h.congr fun id k => ?_, ?_⟩
      · rw [List.contains_nil, Bool.false_and, Bool.or_false]
      · exact ⟨fun hi => Or.inl hi, fun hi => hi.resolve_right fun hid => by
          obtain ⟨id, hid, -⟩ := hid
          exact absurd hid List.not_mem_nil⟩
  | cons id ids ih =>
      obtain ⟨hnew, hrest⟩ := List.nodup_cons.mp hids
      have hmem : ids.contains id = false := by
        rw [← Bool.not_eq_true, List.contains_iff_mem]
        exact hnew
      have hspec := isFilespec_congr h htype id
      have hhas : r.1.hasKey id "/EF" = doc.hasKey id "/EF" := by
        rw [h.hasKey, hfile id List.mem_cons_self, Bool.not_false, Bool.true_and]
      rw [List.foldl_cons]
      by_cases hloses : isFilespec doc id = true ∧ doc.hasKey id "/EF" = true
      · have hstep : (if isFilespec r.1 id then stripEmbeddedFilespec r id else r) =
            (r.1.removeKey id "/EF", r.2 ++
              [⟨"EMBEDDED_FILE_REMOVED", "removed embedded file stream from filespec",
                true, 0, []⟩]) := by
          rw [hspec, if_pos hloses.1, stripEmbeddedFilespec, hhas, if_pos hloses.2]
        rw [hstep]
        obtain ⟨hwithout, hissues⟩ := @ih hrest (r.1.removeKey id "/EF", r.2 ++
            [⟨"EMBEDDED_FILE_REMOVED", "removed embedded file stream from filespec", true, 0, []⟩])
          (fun i j => drop i j || (i = id && j = "/EF")) (h.removeKey id "/EF")
          (fun i => by rw [htype]; simp) fun i hi => by
            have hne : i ≠ id := fun heq => hnew (heq ▸ hi)
            rw [hfile i (List.mem_cons_of_mem id hi)]
            simp [hne]
        refine ⟨hwithout.congr fun i k => ?_, ?_⟩
        · rcases eq_or_ne i id with rfl | hi
          · simp [hloses.1, hloses.2, hnew]
          · simp [hi]
        · rw [hissues]
          constructor
          · intro _
            exact Or.inr ⟨id, List.mem_cons_self, hloses⟩
          · intro _
            exact Or.inl ⟨_, List.mem_append_right _ (List.mem_singleton_self _), Or.inl rfl⟩
      · have hstep : (if isFilespec r.1 id then stripEmbeddedFilespec r id else r) = r := by
          rw [hspec]
          split_ifs with hfilespec
          · rw [stripEmbeddedFilespec, hhas, if_neg fun hef => hloses ⟨hfilespec, hef⟩]
          · rfl
        have hfalse : (isFilespec doc id && doc.hasKey id "/EF") = false := by
          rw [← Bool.not_eq_true, Bool.and_eq_true]
          exact hloses
        rw [hstep]
        obtain ⟨hwithout, hissues⟩ :=
            ih hrest h htype fun i hi => hfile i (List.mem_cons_of_mem id hi)
        refine ⟨hwithout.congr fun i k => ?_, ?_⟩
        · rcases eq_or_ne i id with rfl | hi
          · rw [hfalse]
            simp
          · simp [hi]
        · rw [hissues]
          refine or_congr_right ⟨fun ⟨i, hi, hboth⟩ => ⟨i, List.mem_cons_of_mem id hi, hboth⟩, ?_⟩
          rintro ⟨i, hi, hboth⟩
          rcases List.mem_cons.mp hi with rfl | hi
          · exact absurd hboth hloses
          · exact ⟨i, hi, hboth⟩

theorem isFilespec_lt {id : Nat} (h : isFilespec doc id = true) : id < doc.objects.length := by
  rw [isFilespec, Bool.and_eq_true] at h
  by_contra hge
  have hobj : doc.obj id = .null := by
    rw [Document.obj, List.getElem?_eq_none (Nat.le_of_not_lt hge)]
    rfl
  have hkey : doc.getKey id "/Type" = .null := by
    unfold Document.getKey Document.dict?
    rw [hobj]
  rw [hkey] at h
  cases h.2

/-- The tree is dropped with the dictionary entry that holds it, and that is reported. -/
theorem removeTree_spec (part : Int) (doc : Document) :
    Without doc (fun id k => (embeddedFiles? doc).map Prod.fst = some id && k = "/EmbeddedFiles")
      (removeTree part doc).1 ∧
    ((∃ i ∈ (removeTree part doc).2,
        i.code = "EMBEDDED_FILE_REMOVED" ∨ i.code = "EMBEDDED_FILES_REMOVED") ↔
      (embeddedFiles? doc).isSome = true) := by
  unfold removeTree
  cases hfiles : embeddedFiles? doc with
  | none =>
      refine ⟨(Without.refl doc).congr fun id k => ?_, ?_⟩
      · simp
      · simp
  | some found =>
      obtain ⟨names, tree⟩ := found
      refine ⟨((Without.refl doc).removeKey names "/EmbeddedFiles").congr fun id k => ?_, ?_⟩
      · simp [eq_comm]
      · exact iff_of_true ⟨_, List.mem_singleton_self _, Or.inr rfl⟩ rfl

/-- The document that is left, and what is reported. -/
theorem handleEmbeddedFiles_spec (part : Int) (doc : Document) :
    Without doc (dropped doc) (handleEmbeddedFiles part doc).1 ∧
    ((∃ i ∈ (handleEmbeddedFiles part doc).2,
        i.code = "EMBEDDED_FILE_REMOVED" ∨ i.code = "EMBEDDED_FILES_REMOVED") ↔
      (embeddedFiles? doc).isSome = true ∨
        ∃ id, isFilespec doc id = true ∧ doc.hasKey id "/EF" = true) := by
  obtain ⟨htree, hissues⟩ := removeTree_spec part doc
  obtain ⟨hstripped, hissues'⟩ := foldl_strip List.nodup_range htree (fun id => by simp)
    fun id _ => by simp
  rw [hissues] at hissues'
  have hall : ∀ id, isFilespec doc id = true → (List.range doc.objects.length).contains id = true :=
    fun id hid => List.contains_iff_mem.mpr (List.mem_range.mpr (isFilespec_lt hid))
  have hdrop : ∀ id k, (((embeddedFiles? doc).map Prod.fst = some id && k = "/EmbeddedFiles") ||
      ((List.range doc.objects.length).contains id &&
        (isFilespec doc id && doc.hasKey id "/EF" && k = "/EF"))) =
      (((embeddedFiles? doc).map Prod.fst = some id && k = "/EmbeddedFiles") ||
        (isFilespec doc id && doc.hasKey id "/EF" && k = "/EF")) := by
    intro id k
    cases hid : isFilespec doc id with
    | true => rw [hall id hid, Bool.true_and]
    | false => simp only [Bool.false_and, Bool.and_false]
  replace hstripped := hstripped.congr fun id k => (hdrop id k).symm
  have hroot : ((List.range doc.objects.length).foldl
      (fun r id => if isFilespec r.1 id then stripEmbeddedFilespec r id else r)
      (removeTree part doc)).1.hasKey doc.root "/AF" = doc.hasKey doc.root "/AF" := by
    rw [hstripped.hasKey]
    simp
  constructor
  · unfold handleEmbeddedFiles
    simp only [hroot]
    split_ifs with haf
    · refine (hstripped.removeKey doc.root "/AF").congr fun id k => ?_
      rw [dropped, haf, Bool.and_true]
    · refine hstripped.congr fun id k => ?_
      rw [dropped, Bool.eq_false_iff.mpr haf, Bool.and_false, Bool.false_and, Bool.or_false]
  · refine hissues'.trans (or_congr_right ⟨fun ⟨id, _, hboth⟩ => ⟨id, hboth⟩, ?_⟩)
    rintro ⟨id, hid, hef⟩
    exact ⟨id, List.mem_range.mpr (isFilespec_lt hid), hid, hef⟩

/-- Only entries of dictionaries are dropped. -/
theorem dict?_of_dropped {id : Nat} {k : String} (h : dropped doc id k = true) :
    (doc.dict? id).isSome = true := by
  have hkey : ∀ {j}, doc.hasKey id j = true → (doc.dict? id).isSome = true := by
    intro j hj
    unfold Document.hasKey Document.getKey at hj
    cases hd : doc.dict? id with
    | none =>
        rw [hd] at hj
        cases hj
    | some entries => rfl
  simp only [dropped, Bool.or_eq_true, Bool.and_eq_true, decide_eq_true_eq] at h
  rcases h with (⟨hnames, -⟩ | ⟨⟨-, hef⟩, -⟩) | ⟨⟨rfl, haf⟩, -⟩
  · obtain ⟨⟨names, tree⟩, hfound, rfl⟩ := Option.map_eq_some_iff.mp hnames
    unfold embeddedFiles? at hfound
    split at hfound
    next names' _ =>
      obtain ⟨tree', htree, heq⟩ := Option.map_eq_some_iff.mp hfound
      obtain ⟨rfl, rfl⟩ := Prod.mk.inj heq
      unfold Document.getKey at htree
      cases hd : doc.dict? names' with
      | none =>
          rw [hd] at htree
          cases htree
      | some entries => rfl
    next => cases hfound
  · exact hkey hef
  · exact hkey haf

/-- A document without what is dropped has the remaining entries. -/
theorem edges_of_without {d : Document} (h : Without doc (dropped doc) d) :
    edges d = remaining doc := by
  funext id k v
  refine propext ?_
  unfold edges remaining entriesOf
  rw [h.obj]
  cases hobj : doc.obj id with
  | dictionary entries =>
      simp only [Obj.without, edges, entriesOf, hobj, List.mem_filter, Bool.not_eq_true']
  | stream entries =>
      have hnot : dropped doc id k = false := by
        rw [← Bool.not_eq_true]
        intro hdropped
        obtain ⟨entries', hd⟩ := Option.isSome_iff_exists.mp (dict?_of_dropped hdropped)
        rw [Document.dict?_eq_some_iff.mp hd] at hobj
        cases hobj
      simp only [Obj.without, edges, entriesOf, hobj, hnot, and_true]
  | null => simp [Obj.without, edges, entriesOf, hobj]
  | name s => simp [Obj.without, edges, entriesOf, hobj]
  | array items => simp [Obj.without, edges, entriesOf, hobj]
  | other => simp [Obj.without, edges, entriesOf, hobj]

variable {edge : Edges} {drop : Nat → String → Bool} {d : Document}

/-- By the same entries the same values can be reached. -/
theorem Reachable.congr (h : Without doc drop d) {v : Value} :
    Reachable edge d v ↔ Reachable edge doc v := by
  constructor
  · intro hreach
    induction hreach with
    | root =>
        rw [h.root]
        exact Reachable.root
    | entry _ hedge ih => exact Reachable.entry ih hedge
    | item _ hw ih =>
        rw [h.itemsOf] at hw
        exact Reachable.item ih hw
  · intro hreach
    induction hreach with
    | root =>
        rw [← h.root]
        exact Reachable.root
    | entry _ hedge ih => exact Reachable.entry ih hedge
    | item _ hw ih =>
        rw [← h.itemsOf] at hw
        exact Reachable.item ih hw

/-- By the same entries the same values are nodes of the tree. -/
theorem TreeNode.congr (h : Without doc drop d) {v : Value} :
    TreeNode edge d v ↔ TreeNode edge doc v := by
  constructor
  · intro hnode
    induction hnode with
    | root hnames htree =>
        rw [h.root] at hnames
        exact TreeNode.root hnames htree
    | kid _ hkids hw ih =>
        rw [h.itemsOf] at hw
        exact TreeNode.kid ih hkids hw
  · intro hnode
    induction hnode with
    | root hnames htree =>
        rw [← h.root] at hnames
        exact TreeNode.root hnames htree
    | kid _ hkids hw ih =>
        rw [← h.itemsOf] at hw
        exact TreeNode.kid ih hkids hw

/-- Along the same entries file specifications hang from the same places. -/
theorem FileSpec.congr (h : Without doc drop d) {v : Value} :
    FileSpec edge d v ↔ FileSpec edge doc v := by
  constructor
  · intro hspec
    cases hspec with
    | tree hnode hnames hw =>
        rw [h.itemsOf] at hw
        exact FileSpec.tree ((TreeNode.congr h).mp hnode) hnames hw
    | associated hreach haf hw =>
        rw [h.itemsOf] at hw
        exact FileSpec.associated ((Reachable.congr h).mp hreach) haf hw
    | annotation hreach hsubtype hname hfs =>
        rw [h.nameIs] at hname
        exact FileSpec.annotation ((Reachable.congr h).mp hreach) hsubtype hname hfs
    | action hreach hs hname hf =>
        rw [h.nameIs] at hname
        exact FileSpec.action ((Reachable.congr h).mp hreach) hs hname hf
  · intro hspec
    cases hspec with
    | tree hnode hnames hw =>
        rw [← h.itemsOf] at hw
        exact FileSpec.tree ((TreeNode.congr h).mpr hnode) hnames hw
    | associated hreach haf hw =>
        rw [← h.itemsOf] at hw
        exact FileSpec.associated ((Reachable.congr h).mpr hreach) haf hw
    | annotation hreach hsubtype hname hfs =>
        rw [← h.nameIs] at hname
        exact FileSpec.annotation ((Reachable.congr h).mpr hreach) hsubtype hname hfs
    | action hreach hs hname hf =>
        rw [← h.nameIs] at hname
        exact FileSpec.action ((Reachable.congr h).mpr hreach) hs hname hf

/-- What embeds a file afterwards did so before and is not recognised. -/
theorem embeds_iff (part : Int) (doc : Document) (v : Value) :
    Embeds (handleEmbeddedFiles part doc).1 v ↔
      ∃ id, v = .object id ∧ doc.hasKey id "/EF" = true ∧ isFilespec doc id = false := by
  have hef : ∀ id, dropped doc id "/EF" = (isFilespec doc id && doc.hasKey id "/EF") := by
    intro id
    simp [dropped]
  refine exists_congr fun id => and_congr_right fun _ => ?_
  rw [(handleEmbeddedFiles_spec part doc).1.hasKey, hef]
  cases doc.hasKey id "/EF" with
  | true => cases isFilespec doc id <;> decide
  | false => cases isFilespec doc id <;> decide

/-- Embedded files are removed and reported if and only if what embeds a file and stays is
recognised as a file specification, and something is recognised if anything embeds a file. -/
theorem removed_iff (part : Int) (doc : Document) :
    Removed part doc ↔ AllRecognised doc ∧ SomeRecognised doc := by
  obtain ⟨hwithout, hissues⟩ := handleEmbeddedFiles_spec part doc
  have hedges := edges_of_without hwithout
  have hembeds := embeds_iff part doc
  constructor
  · rintro ⟨hnone, hreported⟩
    refine ⟨fun v hv hembed => ?_, fun hany => hissues.mp (hreported hany)⟩
    obtain ⟨id, rfl, hhas⟩ := hembed
    refine ⟨id, rfl, ?_⟩
    rw [← Bool.not_eq_false]
    intro hnot
    refine hnone (.object id) ?_ ((hembeds _).mpr ⟨id, rfl, hhas, hnot⟩)
    rw [hedges]
    exact (FileSpec.congr hwithout).mpr hv
  · rintro ⟨hall, hsome⟩
    refine ⟨fun v hv hembed => ?_, fun hany => hissues.mpr (hsome hany)⟩
    rw [hedges] at hv
    obtain ⟨id, rfl, hhas, hnot⟩ := (hembeds v).mp hembed
    obtain ⟨id', heq, hspec⟩ := hall _ ((FileSpec.congr hwithout).mp hv) ⟨id, rfl, hhas⟩
    rw [← Value.object.inj heq, hnot] at hspec
    cases hspec

/-- A page has a file annotation whose file specification has no type. -/
def untypedFilespec : Document where
  objects := [.dictionary [("/Annots", .array [.object 1])],
    .dictionary [("/Subtype", .name "/FileAttachment"), ("/FS", .object 2)],
    .dictionary [("/F", .other), ("/EF", .object 3)],
    .dictionary [("/F", .object 4)], .stream []]
  indirect _ := true
  root := 0

/-- The file of the annotation stays embedded. -/
theorem untypedFilespec_stays : ¬ Removed 2 untypedFilespec := by
  rintro ⟨hnone, -⟩
  have hwithout := (handleEmbeddedFiles_spec 2 untypedFilespec).1
  have hannots : Reachable (remaining untypedFilespec) untypedFilespec (.array [.object 1]) :=
    Reachable.entry Reachable.root ⟨List.mem_cons_self, by decide⟩
  have hannot : Reachable (remaining untypedFilespec) untypedFilespec (.object 1) :=
    Reachable.item hannots List.mem_cons_self
  have hsubtype : remaining untypedFilespec 1 "/Subtype" (.name "/FileAttachment") :=
    ⟨List.mem_cons_self, by decide⟩
  have hfs : remaining untypedFilespec 1 "/FS" (.object 2) :=
    ⟨List.mem_cons_of_mem _ List.mem_cons_self, by decide⟩
  have hspec := FileSpec.annotation hannot hsubtype (by decide) hfs
  refine hnone (.object 2) ?_ ((embeds_iff 2 untypedFilespec _).mpr ⟨2, rfl, by decide, by decide⟩)
  rw [edges_of_without hwithout]
  exact (FileSpec.congr hwithout).mpr hspec

end

end Kura.Engine.EmbeddedFiles
