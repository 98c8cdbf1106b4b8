import Kura.Base.Fresh
import Kura.Base.JsonText
import Kura.Base.SortedMap
import Kura.Engine.Number

/-!
# The ids of notes

Structure elements that are notes are given ids, and the tree that leads from the
ids to their elements is rebuilt if it is not the one there should be.

## Implementation notes

An element is told by its object number. Of an `/ID` that is not a string nothing is
kept. The set of the ids there are is a list. An `int` counts the serial numbers;
`serial_le` shows that it never gets above the number of elements, so that it is a
plain number here. The search for an id takes fuel, one unit for each id that is
taken and one more.
-/

namespace Kura.Engine.NoteIds

open Kura.Base

/-- An item of an array: its object number, if it is indirect, and its text, if it is a string. -/
structure Item where
  object : Option Nat
  string : Option Bytes
  deriving DecidableEq

/-- A structure element. -/
structure Elem where
  s : Bytes
  id : Option Bytes

structure Document where
  elem : Nat → Elem
  /-- The `/IDTree`, if there is one, and its `/Names`, if these are an array. -/
  idTree : Option (Option (List Item))

namespace Document

variable (doc : Document)

def isNote (e : Nat) : Prop := (doc.elem e).s = lit "/Note"

instance (e : Nat) : Decidable (doc.isNote e) := inferInstanceAs (Decidable (_ = _))

/-- The string of an `/ID`. -/
def id? (e : Nat) : Option Bytes := (doc.elem e).id

/-- Whether an element has an `/ID` that is a string and not empty. -/
def named (e : Nat) : Bool := (doc.id? e).any (· ≠ [])

def setId (e : Nat) (id : Bytes) : Document :=
  { doc with elem := Function.update doc.elem e { doc.elem e with id := some id } }

/-- The items of the `/Names` of the tree. -/
def names : List Item := (doc.idTree.bind fun names => names).getD []

end Document

/-- `note-%06d` -/
def noteId (serial : Nat) : Bytes :=
  lit "note-" ++
    ((Nat.toDigits 10 serial).leftpad 6 '0').map fun c => UInt8.ofNat c.toNat

/-- The next serial number whose id is not taken. -/
def search (existing : List Bytes) (serial : Nat) : Nat :=
  freshCounter noteId existing (existing.length + 1) serial

structure Pass where
  doc : Document
  existing : List Bytes
  serial : Nat
  added : Nat

/-- Gives an element an id if it is a note without one. -/
def Pass.add (p : Pass) (e : Nat) : Pass :=
  if ¬ p.doc.isNote e then p
  else if p.doc.named e then p
  else
    let serial := search p.existing p.serial
    { doc := p.doc.setId e (noteId serial)
      existing := noteId serial :: p.existing
      serial
      added := p.added + 1 }

def ensureNoteIds (elems : List Nat) (doc : Document) : Pass :=
  elems.foldl Pass.add ⟨doc, elems.filterMap doc.id?, 0, 0⟩

/-- Strings are compared by the values of their bytes. -/
def byteOrder (id : Bytes) : List Nat := id.map UInt8.toNat

/-- The elements with an id that is not empty. -/
def keyed (elems : List Nat) (doc : Document) : List (Bytes × Nat) :=
  elems.filterMap fun e => (doc.id? e).bind fun id => if id ≠ [] then some (id, e) else none

/-- The `/Names` that a map of ids is written as. -/
def namesOf (byId : List (Bytes × Nat)) : List Item :=
  byId.flatMap fun e => [⟨none, some e.1⟩, ⟨some e.2, none⟩]

/-- Compares the keys and the values of two lists of the same length. -/
def sameNames : List Item → List Item → Bool
  | k :: v :: rest, k' :: v' :: rest' =>
      k.string.isSome && k.string = k'.string && v.object.isSome && v.object = v'.object &&
        sameNames rest rest'
  | [k], k' :: _ => k.string.isSome && k.string = k'.string
  | _, _ => true

/-- Rebuilds the tree; the flag tells whether it was changed. -/
def rebuildIdTree (elems : List Nat) (doc : Document) : Document × Bool :=
  let byId := firsts byteOrder (keyed elems doc)
  if byId = [] then
    if doc.idTree.isSome then ({ doc with idTree := none }, true) else (doc, false)
  else
    let names := namesOf byId
    match doc.idTree with
    | some (some old) =>
        if old.length = names.length ∧ sameNames old names then (doc, false)
        else ({ doc with idTree := some (some names) }, true)
    | _ => ({ doc with idTree := some (some names) }, true)

/-- Both passes. -/
def repair (elems : List Nat) (doc : Document) : Document :=
  (rebuildIdTree elems (ensureNoteIds elems doc).doc).1

/-- The ids and the objects that the names of a tree tell. -/
def entries : List Item → List (Bytes × Nat)
  | k :: v :: rest =>
      match k.string, v.object with
      | some id, some e => (id, e) :: entries rest
      | _, _ => entries rest
  | _ => []

theorem ofDigitChars_leftpad (n k : Nat) :
    Nat.ofDigitChars 10 ((Nat.toDigits 10 n).leftpad k '0') 0 = n := by
  rw [List.leftpad, Nat.ofDigitChars_append]
  have hzeros : ∀ j, Nat.ofDigitChars 10 (List.replicate j '0') 0 = 0 := by
    intro j
    induction j with
    | zero => rfl
    | succ j ih => rw [List.replicate_succ, Nat.ofDigitChars_cons]; exact ih
  rw [hzeros, Nat.ofDigitChars_toDigits (by decide) (by decide)]

/-- Two serial numbers make two ids. -/
theorem noteId_injective : Function.Injective noteId := by
  intro i j h
  have hmap := List.append_cancel_left h
  have hback : ∀ n, (((Nat.toDigits 10 n).leftpad 6 '0').map fun c => UInt8.ofNat c.toNat).map
      (fun b => Char.ofNat b.toNat) = (Nat.toDigits 10 n).leftpad 6 '0' := by
    intro n
    rw [List.map_map]
    refine (List.map_congr_left fun c hc => ?_).trans (List.map_id _)
    have hdigit : c.isDigit = true := by
      rw [List.leftpad, List.mem_append] at hc
      obtain hc | hc := hc
      · rw [List.eq_of_mem_replicate hc]
        rfl
      · exact Nat.isDigit_of_mem_toDigits (by decide) (by decide) hc
    have hlt : c.toNat < 256 := by
      have h9 := hdigit
      simp only [Char.isDigit, Bool.and_eq_true, decide_eq_true_eq] at h9
      have hle : c.toNat ≤ 57 := h9.2
      omega
    have hbyte : (UInt8.ofNat c.toNat).toNat = c.toNat := by
      rw [UInt8.toNat_ofNat']
      exact Nat.mod_eq_of_lt hlt
    simp only [Function.comp_apply, hbyte, Char.ofNat_toNat, id_eq]
  have hsame := congrArg (List.map fun b => Char.ofNat b.toNat) hmap
  rw [hback, hback] at hsame
  rw [← ofDigitChars_leftpad i 6, hsame, ofDigitChars_leftpad]

theorem noteId_ne_nil (serial : Nat) : noteId serial ≠ [] := by
  have hword : lit "note-" ≠ [] := by decide
  exact fun h => hword (List.append_eq_nil_iff.mp h).1

/-- The search ends at an id that is not taken. -/
theorem search_notMem (existing : List Bytes) (serial : Nat) :
    noteId (search existing serial) ∉ existing :=
  freshCounter_notMem noteId_injective _ _

theorem id?_setId (doc : Document) (e : Nat) (id : Bytes) :
    (doc.setId e id).id? = Function.update doc.id? e (some id) := by
  funext e'
  by_cases h : e' = e
  · subst h
    simp [Document.id?, Document.setId]
  · simp [Document.id?, Document.setId, h]

theorem isNote_setId (doc : Document) (e e' : Nat) (id : Bytes) :
    (doc.setId e id).isNote e' ↔ doc.isNote e' := by
  by_cases h : e' = e
  · subst h
    simp [Document.isNote, Document.setId]
  · simp [Document.isNote, Document.setId, h]

theorem named_iff {doc : Document} {e : Nat} :
    doc.named e = true ↔ ∃ id, doc.id? e = some id ∧ id ≠ [] := by
  rw [Document.named, Option.any_eq_true]
  simp only [decide_eq_true_eq]

/-- Where the first pass stands behind some of the elements. -/
structure Given (elems done : List Nat) (doc : Document) (p : Pass) : Prop where
  notes : ∀ e, p.doc.isNote e ↔ doc.isNote e
  idTree : p.doc.idTree = doc.idTree
  known : ∀ e ∈ elems, ∀ id, p.doc.id? e = some id → id ∈ p.existing
  kept : ∀ e id, doc.id? e = some id → id ≠ [] → p.doc.id? e = some id
  others : ∀ e, ¬ doc.isNote e → p.doc.id? e = doc.id? e
  emptied : ∀ e, p.doc.id? e = some [] → doc.id? e = some []
  shared : ∀ e ∈ elems, ∀ e' ∈ elems, ∀ id, p.doc.id? e = some id → p.doc.id? e' = some id →
    e = e' ∨ doc.id? e = some id ∧ doc.id? e' = some id
  finished : ∀ e ∈ done, doc.isNote e → p.doc.named e = true
  taken : ∀ i, 1 ≤ i → i ≤ p.serial → noteId i ∈ p.existing
  named_le : (p.existing.filter (· ≠ [])).length ≤ (elems.filter doc.named).length + p.added
  added_le : p.added ≤ (done.filter fun e => !doc.named e).length

/-- One more element is given its id. -/
theorem Given.add {elems done : List Nat} {doc : Document} {p : Pass} (h : Given elems done doc p)
    {e : Nat} (he : e ∈ elems) : Given elems (done ++ [e]) doc (p.add e) := by
  have hfilter : (done.filter fun e => !doc.named e).length ≤
      ((done ++ [e]).filter fun e => !doc.named e).length := by
    rw [List.filter_append, List.length_append]
    exact Nat.le_add_right _ _
  have hdone : ∀ p' : Pass, (∀ e', p.doc.named e' = true → p'.doc.named e' = true) →
      (doc.isNote e → p'.doc.named e = true) →
      ∀ e' ∈ done ++ [e], doc.isNote e' → p'.doc.named e' = true := by
    intro p' hmono hself e' he' hnote
    obtain hold | hnew := List.mem_append.mp he'
    · exact hmono e' (h.finished e' hold hnote)
    · obtain rfl := List.mem_singleton.mp hnew
      exact hself hnote
  rw [Pass.add]
  by_cases hnote : p.doc.isNote e
  swap
  · rw [if_pos hnote]
    exact { h with
      finished := hdone p (fun _ => id) fun hn => absurd ((h.notes e).mpr hn) hnote
      added_le := h.added_le.trans hfilter }
  rw [if_neg (not_not.mpr hnote)]
  by_cases hnamed : p.doc.named e = true
  · rw [if_pos hnamed]
    exact { h with
      finished := hdone p (fun _ => id) fun _ => hnamed
      added_le := h.added_le.trans hfilter }
  · rw [if_neg hnamed]
    set serial := search p.existing p.serial with hserial
    have hfresh : noteId serial ∉ p.existing := search_notMem _ _
    have hid : ∀ e', (p.doc.setId e (noteId serial)).id? e' =
        if e' = e then some (noteId serial) else p.doc.id? e' := by
      intro e'
      rw [id?_setId, Function.update_apply]
    have hold : doc.named e = false := by
      refine Bool.eq_false_iff.mpr fun hn => hnamed ?_
      obtain ⟨id, hsome, hne⟩ := named_iff.mp hn
      exact named_iff.mpr ⟨id, h.kept e id hsome hne, hne⟩
    refine ⟨fun e' => (isNote_setId _ _ _ _).trans (h.notes e'), h.idTree, ?_, ?_, ?_,
      ?_, ?_, ?_, ?_,
      ?_, ?_⟩
    · intro e' he' id hsome
      rw [hid] at hsome
      split_ifs at hsome with heq
      · cases hsome
        exact List.mem_cons_self
      · exact List.mem_cons_of_mem _ (h.known e' he' id hsome)
    · intro e' id hsome hne
      rw [hid, if_neg]
      · exact h.kept e' id hsome hne
      · rintro rfl
        rw [named_iff.mpr ⟨id, hsome, hne⟩] at hold
        cases hold
    · intro e' hother
      rw [hid, if_neg]
      · exact h.others e' hother
      · rintro rfl
        exact hother ((h.notes e').mp hnote)
    · intro e' hempty
      rw [hid] at hempty
      split_ifs at hempty with heq
      · exact absurd (Option.some_inj.mp hempty) (noteId_ne_nil serial)
      · exact h.emptied e' hempty
    · intro a ha b hb id hsomeA hsomeB
      rw [hid] at hsomeA hsomeB
      split_ifs at hsomeA hsomeB with hae hbe hbe
      · exact Or.inl (hae.trans hbe.symm)
      · cases hsomeA
        exact absurd (h.known b hb _ hsomeB) hfresh
      · cases hsomeB
        exact absurd (h.known a ha _ hsomeA) hfresh
      · exact h.shared a ha b hb id hsomeA hsomeB
    · refine hdone _ (fun e' hn => ?_) fun _ => ?_
      · obtain ⟨id, hsome, hne⟩ := named_iff.mp hn
        by_cases heq : e' = e
        · exact named_iff.mpr ⟨noteId serial, by rw [hid, if_pos heq], noteId_ne_nil _⟩
        · exact named_iff.mpr ⟨id, by rw [hid, if_neg heq, hsome], hne⟩
      · exact named_iff.mpr ⟨noteId serial, by rw [hid, if_pos rfl], noteId_ne_nil _⟩
    · intro i hi hle
      obtain hlt | rfl := Nat.lt_or_eq_of_le hle
      · refine List.mem_cons_of_mem _ ?_
        obtain hbig | hsmall := Nat.lt_or_ge p.serial i
        · exact mem_of_lt_freshCounter hbig hlt
        · exact h.taken i hi hsmall
      · exact List.mem_cons_self
    · rw [List.filter_cons_of_pos (by simpa using noteId_ne_nil serial), List.length_cons]
      exact Nat.succ_le_succ h.named_le
    · rw [List.filter_append, List.length_append, List.filter_singleton, hold]
      exact Nat.add_le_add_right h.added_le 1

theorem length_given (elems : List Nat) (doc : Document) :
    ((elems.filterMap doc.id?).filter (· ≠ [])).length = (elems.filter doc.named).length := by
  induction elems with
  | nil => rfl
  | cons e es ih =>
      cases hid : doc.id? e with
      | none =>
          have hnamed : doc.named e = false := by rw [Document.named, hid]; rfl
          rw [List.filterMap_cons_none hid, ih, List.filter_cons_of_neg (by simp [hnamed])]
      | some id =>
          have hnamed : doc.named e = decide (id ≠ []) := by rw [Document.named, hid]; rfl
          rw [List.filterMap_cons_some hid, List.filter_cons, List.filter_cons, hnamed]
          split
          · rw [List.length_cons, List.length_cons, ih]
          · exact ih

/-- Every note of the document is given an id. -/
theorem given_ensureNoteIds (elems : List Nat) (doc : Document) :
    Given elems elems doc (ensureNoteIds elems doc) := by
  have hprefix : ∀ done rest, elems = done ++ rest →
      Given elems done doc (done.foldl Pass.add ⟨doc, elems.filterMap doc.id?, 0, 0⟩) := by
    intro done
    induction done using List.reverseRecOn with
    | nil =>
        intro rest _
        refine ⟨fun _ => Iff.rfl, rfl, ?_, fun _ _ hsome _ => hsome, fun _ _ => rfl,
          fun _ hempty => hempty, ?_, ?_, ?_, ?_, le_rfl⟩
        · exact fun e he id hsome => List.mem_filterMap.mpr ⟨e, he, hsome⟩
        · exact fun e _ e' _ id hsome hsome' => Or.inr ⟨hsome, hsome'⟩
        · exact fun e he => absurd he List.not_mem_nil
        · exact fun i hi hle => absurd (Nat.le_zero.mp hle) (Nat.one_le_iff_ne_zero.mp hi)
        · exact (length_given elems doc).le
    | append_singleton done e ih =>
        intro rest hsplit
        rw [List.append_assoc] at hsplit
        rw [List.foldl_append]
        exact (ih _ hsplit).add (hsplit ▸ by simp)
  exact hprefix elems [] (List.append_nil _).symm

/-- The serial numbers are no more than the elements. -/
theorem serial_le (elems : List Nat) (doc : Document) :
    (ensureNoteIds elems doc).serial ≤ elems.length := by
  have h := given_ensureNoteIds elems doc
  set p := ensureNoteIds elems doc
  have hnodup : ((List.range p.serial).map fun i => noteId (i + 1)).Nodup :=
    List.nodup_range.map fun i j hij => Nat.succ_injective (noteId_injective hij)
  have hsub : ((List.range p.serial).map fun i => noteId (i + 1)) ⊆
      p.existing.filter (· ≠ []) := by
    intro id hid
    obtain ⟨i, hi, rfl⟩ := List.mem_map.mp hid
    have hmem := h.taken (i + 1) (Nat.succ_le_succ (Nat.zero_le i)) (List.mem_range.mp hi)
    exact List.mem_filter.mpr ⟨hmem, by simpa using noteId_ne_nil (i + 1)⟩
  have hle := (hnodup.subperm hsub).length_le
  rw [List.length_map, List.length_range] at hle
  calc p.serial ≤ (p.existing.filter (· ≠ [])).length := hle
    _ ≤ (elems.filter doc.named).length + p.added := h.named_le
    _ ≤ (elems.filter doc.named).length + (elems.filter fun e => !doc.named e).length :=
      Nat.add_le_add_left h.added_le _
    _ = elems.length := (List.length_eq_length_filter_add doc.named).symm

theorem entries_namesOf (byId : List (Bytes × Nat)) : entries (namesOf byId) = byId := by
  induction byId with
  | nil => rfl
  | cons e es ih =>
      rw [namesOf, List.flatMap_cons]
      exact congrArg (e :: ·) ih

/-- Names that are found to be the same have the same entries. -/
theorem entries_of_sameNames {old : List Item} {byId : List (Bytes × Nat)}
    (hlen : old.length = (namesOf byId).length) (h : sameNames old (namesOf byId) = true) :
    entries old = byId := by
  induction byId generalizing old with
  | nil =>
      obtain rfl := List.length_eq_zero_iff.mp hlen
      rfl
  | cons e es ih =>
      have hnames : namesOf (e :: es) = ⟨none, some e.1⟩ :: ⟨some e.2, none⟩ :: namesOf es := rfl
      rw [hnames] at hlen h
      obtain _ | ⟨k, _ | ⟨v, rest⟩⟩ := old
      · cases hlen
      · cases hlen
      · simp only [List.length_cons, Nat.add_right_cancel_iff] at hlen
        simp only [sameNames, Bool.and_eq_true, decide_eq_true_eq] at h
        obtain ⟨⟨⟨⟨-, hkey⟩, -⟩, hvalue⟩, hrest⟩ := h
        simp only [entries, hkey, hvalue, ih hlen hrest]

/-- The tree has the entries there should be, whether it is rebuilt or kept. -/
theorem entries_rebuildIdTree (elems : List Nat) (doc : Document) :
    entries (rebuildIdTree elems doc).1.names = firsts byteOrder (keyed elems doc) := by
  rw [rebuildIdTree]
  split_ifs with hnil htree
  · rw [hnil]
    rfl
  · rw [hnil, Document.names, Option.not_isSome_iff_eq_none.mp htree]
    rfl
  · split
    · rename_i old hold
      simp only
      split_ifs with hsame
      · rw [Document.names, hold]
        exact entries_of_sameNames hsame.1 hsame.2
      · exact entries_namesOf _
    · exact entries_namesOf _

theorem elem_rebuildIdTree (elems : List Nat) (doc : Document) :
    (rebuildIdTree elems doc).1.elem = doc.elem := by
  rw [rebuildIdTree]
  split_ifs
  · rfl
  · rfl
  · split
    · simp only
      split_ifs <;> rfl
    · rfl

theorem byteOrder_injective : Function.Injective byteOrder :=
  List.map_injective_iff.mpr fun _ _ => UInt8.toNat_inj.mp

/-- An id leads to the first element that has it. -/
theorem mem_firsts_keyed_iff {elems : List Nat} {doc : Document} {id : Bytes} {e : Nat} :
    (id, e) ∈ firsts byteOrder (keyed elems doc) ↔
      id ≠ [] ∧ elems.find? (fun e => doc.id? e = some id) = some e := by
  rw [mem_firsts_iff byteOrder_injective]
  induction elems with
  | nil => exact iff_of_false nofun nofun
  | cons e₀ es ih =>
      rw [keyed, List.find?_cons]
      cases hid : doc.id? e₀ with
      | none =>
          rw [List.filterMap_cons_none (by rw [hid]; rfl)]
          exact ih
      | some id₀ =>
          by_cases hnil : id₀ = []
          · subst hnil
            rw [List.filterMap_cons_none (by rw [hid]; rfl)]
            by_cases hsame : id = []
            · subst hsame
              refine iff_of_false (fun h => ?_) (fun h => h.1 rfl)
              exact (ih.mp h).1 rfl
            · have hne : decide (some ([] : Bytes) = some id) =
                  false := by simpa using Ne.symm hsame
              rw [hne]
              exact ih
          · rw [List.filterMap_cons_some (b := (id₀, e₀)) (by rw [hid]; simp [hnil]),
              List.find?_cons]
            by_cases hsame : id₀ = id
            · subst hsame
              simp [hnil]
            · have hne : decide (some id₀ = some id) = false := by simpa using hsame
              have hne' : decide (id₀ = id) = false := by simpa using hsame
              rw [hne, hne']
              exact ih

/-- Every note has an id, no two elements share one, and the tree leads to each element. -/
structure Indexed (elems : List Nat) (doc : Document) : Prop where
  notes : ∀ e ∈ elems, doc.isNote e → ∃ id, doc.id? e = some id ∧ id ≠ []
  unique : ∀ e ∈ elems, ∀ e' ∈ elems, ∀ id, doc.id? e = some id → doc.id? e' = some id → e = e'
  increasing : Increasing byteOrder (entries doc.names)
  mapped : ∀ e ∈ elems, ∀ id, doc.id? e = some id → (id, e) ∈ entries doc.names

/-- No two elements have the same id that is not empty, and only notes have an empty one. -/
def Apart (elems : List Nat) (doc : Document) : Prop :=
  (∀ e ∈ elems, ∀ e' ∈ elems, e ≠ e' → ∀ id, id ≠ [] → doc.id? e = some id →
    doc.id? e' ≠ some id) ∧
  ∀ e ∈ elems, doc.id? e = some [] → doc.isNote e

section

variable (elems : List Nat) (doc : Document)

theorem id?_repair : (repair elems doc).id? = (ensureNoteIds elems doc).doc.id? := by
  funext e
  rw [Document.id?, Document.id?, repair, elem_rebuildIdTree]

theorem isNote_repair (e : Nat) : (repair elems doc).isNote e ↔ doc.isNote e := by
  rw [Document.isNote, repair, elem_rebuildIdTree]
  exact (given_ensureNoteIds elems doc).notes e

/-- The entries of the tree are the ids that are not empty, each with the first element that has
it. -/
theorem mem_entries_repair_iff {id : Bytes} {e : Nat} :
    (id, e) ∈ entries (repair elems doc).names ↔
      id ≠ [] ∧ elems.find? (fun e => (repair elems doc).id? e = some id) = some e := by
  rw [repair, entries_rebuildIdTree, mem_firsts_keyed_iff, ← repair, id?_repair]

/-- The ids of elements that were apart are unique, and an empty one is left to no element. -/
theorem Apart.ids {elems : List Nat} {doc : Document} (h : Apart elems doc) {e : Nat}
    (he : e ∈ elems) {id : Bytes} (hid : (repair elems doc).id? e = some id) :
    id ≠ [] ∧ ∀ e' ∈ elems, (repair elems doc).id? e' = some id → e = e' := by
  have hgiven := given_ensureNoteIds elems doc
  rw [id?_repair] at hid ⊢
  have hne : id ≠ [] := by
    rintro rfl
    have hold := hgiven.emptied e hid
    obtain ⟨id, hsome, hne⟩ := named_iff.mp (hgiven.finished e he (h.2 e he hold))
    rw [hid] at hsome
    cases hsome
    exact hne rfl
  refine ⟨hne, fun e' he' hid' => ?_⟩
  obtain hsame | ⟨hold, hold'⟩ := hgiven.shared e he e' he' id hid hid'
  · exact hsame
  · by_contra hdiff
    exact h.1 e he e' he' hdiff id hne hold hold'

/-- The passes do what they should exactly if no two elements have the same id and only notes have
an empty one. -/
theorem indexed_iff :
    (Indexed elems (repair elems doc) ∧
      ∀ existing serial, noteId (search existing serial) ∉ existing) ↔ Apart elems doc := by
  have hgiven := given_ensureNoteIds elems doc
  rw [and_iff_left search_notMem]
  constructor
  · intro h
    constructor
    · intro e he e' he' hdiff id hne hid hid'
      refine hdiff (h.unique e he e' he' id ?_ ?_)
      · rw [id?_repair]
        exact hgiven.kept e id hid hne
      · rw [id?_repair]
        exact hgiven.kept e' id hid' hne
    · intro e he hid
      by_contra hnote
      have hleft : (repair elems doc).id? e = some [] := by
        rw [id?_repair]
        exact hgiven.others e hnote ▸ hid
      exact ((mem_entries_repair_iff elems doc).mp (h.mapped e he [] hleft)).1 rfl
  · intro h
    refine ⟨?_, ?_, ?_, ?_⟩
    · intro e he hnote
      rw [id?_repair]
      exact named_iff.mp (hgiven.finished e he ((isNote_repair elems doc e).mp hnote))
    · exact fun e he e' he' id hid hid' => (h.ids he hid).2 e' he' hid'
    · rw [repair, entries_rebuildIdTree]
      exact increasing_firsts byteOrder_injective _
    · intro e he id hid
      obtain ⟨hne, honly⟩ := h.ids he hid
      refine (mem_entries_repair_iff elems doc).mpr ⟨hne, ?_⟩
      cases hfound : elems.find? fun e => (repair elems doc).id? e = some id with
      | none =>
          have hnone := List.find?_eq_none.mp hfound e he
          exact absurd (decide_eq_true hid) hnone
      | some e' =>
          have hid' : (repair elems doc).id? e' = some id := by simpa using List.find?_some hfound
          rw [honly e' (List.mem_of_find?_eq_some hfound) hid']

end

/-- Two notes with the same id. -/
def alike : Document := ⟨fun _ => ⟨lit "/Note", some (lit "a")⟩, none⟩

/-- They keep it. -/
theorem alike_shared : ¬ Indexed [0, 1] (repair [0, 1] alike) := by
  intro h
  have hid : ∀ e, (repair [0, 1] alike).id? e = some (lit "a") := by
    intro e
    rw [id?_repair]
    exact (given_ensureNoteIds [0, 1] alike).kept e _ rfl (by decide)
  exact absurd (h.unique 0 (by simp) 1 (by simp) _ (hid 0) (hid 1)) (by decide)

end Kura.Engine.NoteIds
