import Kura.Engine.Jobs
import Kura.Engine.Number

/-!
# Records of a document

Ranges of pages are read from a text, and the document is divided into one part
for each of them. Ranges that do not follow one another from the first page to
the last are not used; the document is then one part.

## Implementation notes

A page is told by its place in the document, an object by its place among the
objects. The numbers of ranges are exact; they are bounded by the number of
pages before one is added to them.
-/

namespace Kura.Engine.Records

open Kura.Engine.Jobs (Issue)

/-- `std::stoi`; there is none without digits or out of the range of an `int`. -/
def stoi (s : Bytes) : Option Int :=
  let (minus, rest) := signOf s
  let ds := rest.takeWhile isDigit
  let n : Int := if minus then -(digitsValue ds) else digitsValue ds
  if ds = [] ∨ n < -2147483648 ∨ 2147483647 < n then none else some n

/-- The two numbers of a part; an open range ends with the document. -/
def bounds (pageCount : Int) (part : Bytes) : Option (Int × Int) :=
  match part.dropWhile (· ≠ 0x2D) with
  | [] => (stoi part).map fun lo => (lo, lo)
  | _ :: hiStr =>
      match stoi (part.takeWhile (· ≠ 0x2D)) with
      | none => none
      | some lo =>
          if hiStr = [] then some (lo, pageCount)
          else (stoi hiStr).map fun hi => (lo, hi)

/-- The range of a part, if it lies in the document. -/
def range (pageCount : Int) (part : Bytes) : Option (Int × Int) :=
  (bounds pageCount part).filter fun r => 1 ≤ r.1 && r.1 ≤ r.2 && r.2 ≤ pageCount

/-- The page behind ranges that follow one another. -/
def expectAfter : Int → List (Int × Int) → Option Int
  | expect, [] => some expect
  | expect, r :: out => if r.1 ≠ expect then none else expectAfter (r.2 + 1) out

/-- The parts between the commas that are not empty. -/
def parts (spec : Bytes) : List Bytes := (spec.splitOn 0x2C).filter (· ≠ [])

/-- The ranges of a text; if it does not divide the document there are none. -/
def parseRecords (spec : Bytes) (pageCount : Int) : List (Int × Int) :=
  match (parts spec).mapM (range pageCount) with
  | none => []
  | some out => if expectAfter 1 out = some (pageCount + 1) then out else []

/-- An object of a document, as far as document parts go. -/
inductive Obj where
  | other
  /-- The root of the hierarchy. -/
  | dpartRoot (rootNode : Nat) (nodeNames : List String) (recordLevel : Int)
  /-- The part that holds the records. -/
  | rootNode (parent : Nat) (dparts : List Nat)
  /-- A record; one of a single page has no end. -/
  | leaf (parent start : Nat) (stop : Option Nat)
  deriving DecidableEq

structure Document where
  objects : List Obj
  /-- The part of each page, if there is one. -/
  pages : List (Option Nat)
  root : Option Nat
  /-- The root has a node. -/
  hasRootNode : Bool
  deriving DecidableEq

/-- The leaves made so far and the parts of the pages. -/
structure Leaves where
  leaves : List Obj
  pages : List (Option Nat)

/-- The part of a record. -/
def leafOf (rootRef : Nat) (rec : Int × Int) : Obj :=
  .leaf rootRef (rec.1 - 1).toNat (if rec.2 ≠ rec.1 then some (rec.2 - 1).toNat else none)

/-- Makes the part of a record and sets it for the pages of the record. -/
def addRecord (rootRef : Nat) (st : Leaves) (rec : Int × Int) : Leaves :=
  let leafRef := rootRef + 2 + st.leaves.length
  { leaves := st.leaves ++ [leafOf rootRef rec]
    pages := (List.range' rec.1.toNat (rec.2 + 1 - rec.1).toNat).foldl
      (fun pages p => pages.set (p - 1) (some leafRef)) st.pages }

/-- Every page has a part already. -/
def keepsHierarchy (doc : Document) : Bool :=
  doc.root.isSome && doc.hasRootNode && doc.pages.all Option.isSome

/-- The records of a document: without usable ranges it is one. -/
def recordsOf (vtRecords : Bytes) (n : Int) : List (Int × Int) × List Issue :=
  let records := if vtRecords = [] then [] else parseRecords vtRecords n
  let issues : List Issue :=
    if vtRecords ≠ [] && records = [] then
      [⟨"VT_RECORDS_INVALID", "vtRecords did not parse as contiguous 1-based page ranges " ++
        "covering the document; falling back to a single document part", false, 0, []⟩]
    else []
  (if records = [] then [(1, n)] else records, issues)

/-- `buildDPartTree`: the root node comes first, then the root, then the leaves. -/
def buildDPartTree (vtRecords : Bytes) (doc : Document) : Document × List Issue :=
  let n := doc.pages.length
  if n = 0 then (doc, [])
  else if keepsHierarchy doc then
    (doc, [⟨"VT_DPART_PRESENT", "kept existing document part hierarchy", false, 0, []⟩])
  else
    let (records, issues) := recordsOf vtRecords n
    let rootRef := doc.objects.length
    let st := records.foldl (addRecord rootRef) ⟨[], doc.pages⟩
    let single := records.length = 1 && vtRecords = []
    ({ objects := doc.objects ++
        [.rootNode (rootRef + 1) (List.range' (rootRef + 2) st.leaves.length),
          .dpartRoot rootRef ["/Root", "/Record"] 1] ++ st.leaves
       pages := st.pages
       root := some (rootRef + 1)
       hasRootNode := true },
      issues ++ [⟨if single then "VT_SINGLE_PART" else "VT_DPART_BUILT",
        "built document part hierarchy with " ++ toString records.length ++ " record part(s)" ++
          (if single then " (no record structure supplied; whole document is one part)" else ""),
        true, 0, []⟩])

/-- Ranges that follow one another from a page to the last one. -/
def Consecutive (n : Int) : Int → List (Int × Int) → Prop
  | expect, [] => expect = n + 1
  | expect, r :: out => r.1 = expect ∧ r.1 ≤ r.2 ∧ Consecutive n (r.2 + 1) out

/-- The ranges that divide the pages of a document. -/
def Partition (n : Int) (out : List (Int × Int)) : Prop := Consecutive n 1 out

/-- A range as it may be written. -/
inductive Writes (n : Int) : Int × Int → Bytes → Prop where
  | single (a : Nat) : Writes n (a, a) (decimal a)
  | closed (a b : Nat) : Writes n (a, b) (decimal a ++ 0x2D :: decimal b)
  /-- A range that ends with the document may be open. -/
  | opened (a : Nat) : Writes n (a, n) (decimal a ++ [0x2D])

/-- A list is mapped exactly when each of its elements is. -/
theorem mapM_eq_some_iff {α β : Type*} {f : α → Option β} {as : List α} {bs : List β} :
    as.mapM f = some bs ↔ List.Forall₂ (fun a b => f a = some b) as bs := by
  induction as generalizing bs with
  | nil =>
      rw [List.mapM_nil, List.forall₂_nil_left_iff]
      exact ⟨fun h => (Option.some.inj h).symm, fun h => congrArg some h.symm⟩
  | cons a as ih =>
      rw [List.mapM_cons]
      constructor
      · intro h
        obtain ⟨b, hb, h⟩ := Option.bind_eq_some_iff.mp h
        obtain ⟨rest, hrest, h⟩ := Option.bind_eq_some_iff.mp h
        rw [← Option.some.inj h]
        exact List.Forall₂.cons hb (ih.mp hrest)
      · intro h
        cases h with
        | cons hb hrest =>
            rw [hb, ih.mpr hrest]
            rfl

theorem exists_of_mem_right {α β : Type*} {rel : α → β → Prop} {as : List α} {bs : List β}
    (h : List.Forall₂ rel as bs) {b : β} (hb : b ∈ bs) : ∃ a, rel a b := by
  induction h with
  | nil => exact absurd hb List.not_mem_nil
  | cons hfirst _ ih =>
      rcases List.mem_cons.mp hb with rfl | hb
      · exact ⟨_, hfirst⟩
      · exact ih hb

/-- The page expected behind the ranges is the last one when they are consecutive. -/
theorem expectAfter_eq_some_iff {n expect : Int} {out : List (Int × Int)}
    (hout : ∀ r ∈ out, r.1 ≤ r.2) :
    expectAfter expect out = some (n + 1) ↔ Consecutive n expect out := by
  induction out generalizing expect with
  | nil =>
      rw [expectAfter, Consecutive]
      exact Option.some_inj
  | cons r out ih =>
      have hrest := @ih (r.2 + 1) fun r' hr' => hout r' (List.mem_cons_of_mem r hr')
      rw [expectAfter, Consecutive]
      split_ifs with hfirst
      · constructor
        · intro h
          cases h
        · intro h
          exact absurd h.1 hfirst
      · rw [hrest]
        exact ⟨fun h => ⟨not_not.mp hfirst, hout r List.mem_cons_self, h⟩, fun h => h.2.2⟩

theorem range_eq_some_iff {n : Int} {part : Bytes} {r : Int × Int} :
    range n part = some r ↔ bounds n part = some r ∧ 1 ≤ r.1 ∧ r.1 ≤ r.2 ∧ r.2 ≤ n := by
  rw [range, Option.filter_eq_some_iff]
  simp only [Bool.and_eq_true, decide_eq_true_eq, and_assoc]

/-- What is read divides the document, or there is nothing. -/
theorem parseRecords_partition (spec : Bytes) (n : Int) :
    parseRecords spec n = [] ∨ Partition n (parseRecords spec n) := by
  unfold parseRecords
  cases hread : (parts spec).mapM (range n) with
  | none => exact Or.inl rfl
  | some out =>
      simp only
      split_ifs with hexpect
      · refine Or.inr ((expectAfter_eq_some_iff fun r hr => ?_).mp hexpect)
        obtain ⟨part, hrange⟩ := exists_of_mem_right (mapM_eq_some_iff.mp hread) hr
        exact (range_eq_some_iff.mp hrange).2.2.1
      · exact Or.inl rfl

/-- A number written without a sign has none. -/
theorem signOf_decimal (n : Nat) (rest : Bytes) :
    signOf (decimal n ++ rest) = (false, decimal n ++ rest) := by
  cases hdecimal : decimal n with
  | nil => exact absurd hdecimal (decimal_ne_nil n)
  | cons d ds =>
      have hd : isDigit d = true := isDigit_of_mem_decimal (n := n) (hdecimal ▸ List.mem_cons_self)
      have hspace : (d :: ds ++ rest).dropWhile isSpace = d :: ds ++ rest :=
        List.dropWhile_cons_of_neg (by rw [not_isSpace_of_isDigit hd]; exact Bool.false_ne_true)
      rw [signOf, hspace]
      split
      next heq =>
        rw [(List.cons.inj heq).1] at hd
        exact absurd hd (by decide)
      next heq =>
        rw [(List.cons.inj heq).1] at hd
        exact absurd hd (by decide)
      next => rfl

theorem takeWhile_decimal (n : Nat) : (decimal n).takeWhile isDigit = decimal n :=
  List.takeWhile_eq_self_iff.mpr fun _ hd => isDigit_of_mem_decimal hd

/-- A number that an `int` holds is read as it was written. -/
theorem stoi_decimal {n : Nat} (h : n ≤ 2147483647) : stoi (decimal n) = some (n : Int) := by
  have hsign := signOf_decimal n []
  rw [List.append_nil] at hsign
  simp only [stoi, hsign, takeWhile_decimal, digitsValue_decimal, Bool.false_eq_true, if_false]
  rw [if_neg]
  rintro (hnil | hlow | hhigh)
  · exact decimal_ne_nil n hnil
  · omega
  · omega

theorem ne_dash_of_mem_decimal {n : Nat} {d : UInt8} (h : d ∈ decimal n) : d ≠ 0x2D := by
  rintro rfl
  exact absurd (isDigit_of_mem_decimal h) (by decide)

theorem ne_comma_of_mem_decimal {n : Nat} {d : UInt8} (h : d ∈ decimal n) : d ≠ 0x2C := by
  rintro rfl
  exact absurd (isDigit_of_mem_decimal h) (by decide)

/-- The text before the dash and the text behind it. -/
theorem cut_at_dash (a : Nat) (rest : Bytes) :
    (decimal a ++ 0x2D :: rest).takeWhile (· ≠ 0x2D) = decimal a ∧
      (decimal a ++ 0x2D :: rest).dropWhile (· ≠ 0x2D) = 0x2D :: rest := by
  have hall : ∀ d ∈ decimal a, decide (d ≠ 0x2D) = true := fun d hd =>
    decide_eq_true (ne_dash_of_mem_decimal hd)
  constructor
  · rw [List.takeWhile_append_of_pos hall, List.takeWhile_cons_of_neg (by decide), List.append_nil]
  · rw [List.dropWhile_append_of_pos hall, List.dropWhile_cons_of_neg (by decide)]

/-- A range is read as it was written. -/
theorem bounds_of_writes {n : Int} {r : Int × Int} {text : Bytes} (h : Writes n r text)
    (hr : r.1 ≤ 2147483647 ∧ r.2 ≤ 2147483647) : bounds n text = some r := by
  cases h with
  | single a =>
      have hnone : (decimal a).dropWhile (· ≠ 0x2D) = [] :=
        List.dropWhile_eq_nil_iff.mpr fun d hd => decide_eq_true (ne_dash_of_mem_decimal hd)
      rw [bounds, hnone, stoi_decimal (by have h := hr.1; omega)]
      rfl
  | closed a b =>
      obtain ⟨hbefore, hbehind⟩ := cut_at_dash a (decimal b)
      rw [bounds, hbehind, hbefore, stoi_decimal (by have h := hr.1; omega)]
      simp only
      rw [if_neg (decimal_ne_nil b), stoi_decimal (by have h := hr.2; omega)]
      rfl
  | opened a =>
      obtain ⟨hbefore, hbehind⟩ := cut_at_dash a []
      rw [bounds, hbehind, hbefore, stoi_decimal (by have h := hr.1; omega)]
      rfl

theorem ne_comma_of_writes {n : Int} {r : Int × Int} {text : Bytes} (h : Writes n r text) :
    text ≠ [] ∧ (0x2C : UInt8) ∉ text := by
  cases h with
  | single a => exact ⟨decimal_ne_nil a, fun hmem => ne_comma_of_mem_decimal hmem rfl⟩
  | closed a b =>
      refine ⟨List.append_ne_nil_of_left_ne_nil (decimal_ne_nil a) _, fun hmem => ?_⟩
      rcases List.mem_append.mp hmem with hmem | hmem
      · exact ne_comma_of_mem_decimal hmem rfl
      · rcases List.mem_cons.mp hmem with heq | hmem
        · exact absurd heq (by decide)
        · exact ne_comma_of_mem_decimal hmem rfl
  | opened a =>
      refine ⟨List.append_ne_nil_of_left_ne_nil (decimal_ne_nil a) _, fun hmem => ?_⟩
      rcases List.mem_append.mp hmem with hmem | hmem
      · exact ne_comma_of_mem_decimal hmem rfl
      · exact absurd (List.mem_singleton.mp hmem) (by decide)

/-- The ranges of a partition lie in the document. -/
theorem Consecutive.bounds {n expect : Int} {out : List (Int × Int)}
    (h : Consecutive n expect out) (hexpect : 1 ≤ expect) :
    expect ≤ n + 1 ∧ ∀ r ∈ out, expect ≤ r.1 ∧ r.1 ≤ r.2 ∧ r.2 ≤ n := by
  induction out generalizing expect with
  | nil => exact ⟨le_of_eq h, fun r hr => absurd hr List.not_mem_nil⟩
  | cons first out ih =>
      obtain ⟨hfirst, hle, hrest⟩ := h
      obtain ⟨hlast, hbounds⟩ := ih hrest (by omega)
      refine ⟨by omega, fun r hr => ?_⟩
      rcases List.mem_cons.mp hr with rfl | hr
      · omega
      · have hr := hbounds r hr
        omega

/-- A partition is read as it was written. -/
theorem parseRecords_written {n : Int} (hn : 1 ≤ n) (hint : n ≤ 2147483647)
    {out : List (Int × Int)} (hout : Partition n out) {texts : List Bytes}
    (htexts : List.Forall₂ (Writes n) out texts) :
    parseRecords (List.intercalate [0x2C] texts) n = out := by
  have hbounds := (Consecutive.bounds hout (le_refl 1)).2
  have hne : texts ≠ [] := by
    rintro rfl
    cases htexts
    have hempty : (1 : Int) = n + 1 := hout
    omega
  have hcomma : ∀ text ∈ texts, text ≠ [] ∧ (0x2C : UInt8) ∉ text := by
    intro text htext
    obtain ⟨r, hwrites⟩ := exists_of_mem_right htexts htext
    exact ne_comma_of_writes hwrites
  have hparts : parts (List.intercalate [0x2C] texts) = texts := by
    rw [parts, List.splitOn_intercalate (0x2C : UInt8) (fun text htext =>
      (hcomma text htext).2) hne]
    exact List.filter_eq_self.mpr fun text htext => decide_eq_true (hcomma text htext).1
  have hread : texts.mapM (range n) = some out := by
    have hboth := (List.forall₂_and_left out texts).mpr ⟨hbounds, htexts⟩
    refine mapM_eq_some_iff.mpr (List.Forall₂.imp ?_ hboth.flip)
    rintro text r ⟨hr, hwrites⟩
    exact range_eq_some_iff.mpr ⟨bounds_of_writes hwrites ⟨by omega, by omega⟩, by omega, hr.2⟩
  have hexpect : expectAfter 1 out = some (n + 1) :=
    (expectAfter_eq_some_iff fun r hr => (hbounds r hr).2.1).mpr hout
  rw [parseRecords, hparts, hread]
  exact if_pos hexpect

/-- The pages of the list are set, the others stay. -/
theorem foldl_set_eq (ps : List Nat) (pages : List (Option Nat)) (ref p : Nat)
    (hp : p < pages.length) (hps : ∀ q ∈ ps, 1 ≤ q) :
    (ps.foldl (fun pages q => pages.set (q - 1) (some ref)) pages)[p]? =
      if p + 1 ∈ ps then some (some ref) else pages[p]? := by
  induction ps generalizing pages with
  | nil => rfl
  | cons q ps ih =>
      have hq := hps q List.mem_cons_self
      rw [List.foldl_cons, ih _ (by rwa [List.length_set]) fun q' hq' =>
        hps q' (List.mem_cons_of_mem q hq')]
      by_cases hmem : p + 1 ∈ ps
      · rw [if_pos hmem, if_pos (List.mem_cons_of_mem q hmem)]
      · rw [if_neg hmem]
        by_cases heq : p + 1 = q
        · rw [if_pos (heq ▸ List.mem_cons_self), ← heq, Nat.add_sub_cancel,
            List.getElem?_set_self hp]
        · have hnot : p + 1 ∉ q :: ps := fun h => (List.mem_cons.mp h).elim heq hmem
          rw [if_neg hnot, List.getElem?_set_ne (by omega)]

theorem length_addRecord (rootRef : Nat) (st : Leaves) (rec : Int × Int) :
    (addRecord rootRef st rec).pages.length = st.pages.length := by
  have hfold : ∀ (ps : List Nat) (pages : List (Option Nat)) (ref : Nat),
      (ps.foldl (fun pages q => pages.set (q - 1) (some ref)) pages).length = pages.length := by
    intro ps pages ref
    induction ps generalizing pages with
    | nil => rfl
    | cons q ps ih => rw [List.foldl_cons, ih, List.length_set]
  exact hfold _ _ _

/-- A page of the record has the part of the record, another one the part it had. -/
theorem pages_addRecord (rootRef : Nat) (st : Leaves) {rec : Int × Int} (hrec : 1 ≤ rec.1)
    {p : Nat} (hp : p < st.pages.length) :
    (addRecord rootRef st rec).pages[p]? =
      if rec.1 ≤ (p : Int) + 1 ∧
        (p : Int) + 1 ≤ rec.2 then some (some (rootRef + 2 + st.leaves.length))
      else st.pages[p]? := by
  have hmem : p + 1 ∈ List.range' rec.1.toNat (rec.2 + 1 - rec.1).toNat ↔
      rec.1 ≤ (p : Int) + 1 ∧ (p : Int) + 1 ≤ rec.2 := by
    rw [List.mem_range'_1]
    omega
  have hps : ∀ q ∈ List.range' rec.1.toNat (rec.2 + 1 - rec.1).toNat, 1 ≤ q := by
    intro q hq
    have hq := (List.mem_range'_1.mp hq).1
    omega
  refine (foldl_set_eq _ st.pages _ p hp hps).trans ?_
  simp only [hmem]

/-- The records that follow one another give each page behind them the leaf of its record. -/
theorem foldl_addRecord {n expect : Int} {records : List (Int × Int)} (rootRef : Nat)
    (h : Consecutive n expect records) (hexpect : 1 ≤ expect) (st : Leaves)
    (hlength : (st.pages.length : Int) = n) :
    (records.foldl (addRecord rootRef) st).leaves = st.leaves ++ records.map (leafOf rootRef) ∧
      (records.foldl (addRecord rootRef) st).pages.length = st.pages.length ∧
      ∀ p < st.pages.length,
        ((p : Int) + 1 < expect →
          (records.foldl (addRecord rootRef) st).pages[p]? = st.pages[p]?) ∧
        (expect ≤ (p : Int) + 1 → ∃ i r, records[i]? = some r ∧ r.1 ≤ (p : Int) + 1 ∧
          (p : Int) + 1 ≤ r.2 ∧
          (records.foldl (addRecord rootRef) st).pages[p]? =
            some (some (rootRef + 2 + st.leaves.length + i))) := by
  induction records generalizing expect st with
  | nil =>
      rw [Consecutive] at h
      refine ⟨by rw [List.map_nil, List.append_nil]; rfl, rfl, fun p hp =>
        ⟨fun _ => rfl, fun hle => ?_⟩⟩
      omega
  | cons r records ih =>
      obtain ⟨hfirst, hle, hrest⟩ := h
      have hlength' := length_addRecord rootRef st r
      obtain ⟨hleaves, hpages, hparts⟩ :=
        ih hrest (by omega) (addRecord rootRef st r) (by rw [hlength']; exact hlength)
      have hmade : (addRecord rootRef st r).leaves = st.leaves ++ [leafOf rootRef r] := rfl
      rw [List.foldl_cons]
      refine ⟨?_, hpages.trans hlength', fun p hp => ?_⟩
      · rw [hleaves, hmade, List.map_cons, List.append_assoc, List.singleton_append]
      · obtain ⟨hbefore, hbehind⟩ := hparts p (hlength'.symm ▸ hp)
        have hadd := pages_addRecord rootRef st (by omega : 1 ≤ r.1) hp
        constructor
        · intro hlt
          rw [hbefore (by omega), hadd, if_neg (by omega)]
        · intro hge
          rcases Int.lt_or_le ((p : Int) + 1) (r.2 + 1) with hin | hlater
          · refine ⟨0, r, rfl, by omega, by omega, ?_⟩
            rw [hbefore hin, hadd, if_pos ⟨by omega, by omega⟩]
            rfl
          · obtain ⟨i, r', hr', hlow, hhigh, hpart⟩ := hbehind hlater
            refine ⟨i + 1, r', hr', hlow, hhigh, ?_⟩
            have hplace : rootRef + 2 + (st.leaves.length + 1) + i =
                rootRef + 2 + st.leaves.length + (i + 1) := by omega
            rw [hpart, hmade, List.length_append, List.length_singleton, hplace]

/-- A page lies in one record only. -/
theorem Consecutive.unique {n expect : Int} {records : List (Int × Int)}
    (h : Consecutive n expect records) (hexpect : 1 ≤ expect) {i j : Nat} {r r' : Int × Int}
    {q : Int} (hr : records[i]? = some r) (hr' : records[j]? = some r')
    (hq : r.1 ≤ q ∧ q ≤ r.2) (hq' : r'.1 ≤ q ∧ q ≤ r'.2) : i = j := by
  induction records generalizing expect i j with
  | nil => cases hr
  | cons first records ih =>
      obtain ⟨hfirst, hle, hrest⟩ := h
      have hlater := (Consecutive.bounds hrest (by omega)).2
      cases i with
      | zero =>
          cases j with
          | zero => rfl
          | succ j =>
              obtain rfl := Option.some.inj hr
              have hmem := hlater r' (List.mem_of_getElem? hr')
              omega
      | succ i =>
          cases j with
          | zero =>
              obtain rfl := Option.some.inj hr'
              have hmem := hlater r (List.mem_of_getElem? hr)
              omega
          | succ j => rw [ih hrest (by omega) hr hr']

/-- A leaf that starts at a page or before it and ends at the page or behind it. -/
def Covers (objects : List Obj) (leaf page : Nat) : Prop :=
  ∃ parent start stop, objects[leaf]? = some (.leaf parent start stop) ∧ start ≤ page ∧
    page ≤ stop.getD start

/-- The part of each page is the one leaf of the hierarchy that covers the page. -/
def PagesHaveParts (doc : Document) : Prop :=
  ∃ rootRef nodeRef names level parent leaves, doc.root = some rootRef ∧
    doc.objects[rootRef]? = some (.dpartRoot nodeRef names level) ∧
    doc.objects[nodeRef]? = some (.rootNode parent leaves) ∧
    ∀ page < doc.pages.length, ∃ leaf, doc.pages[page]? = some (some leaf) ∧ leaf ∈ leaves ∧
      Covers doc.objects leaf page ∧
      ∀ other ∈ leaves, Covers doc.objects other page → other = leaf

/-- The records that are used divide the document. -/
theorem recordsOf_partition (vtRecords : Bytes) {n : Int} (hn : 1 ≤ n) :
    Partition n (recordsOf vtRecords n).1 := by
  have hwhole : Partition n [(1, n)] := ⟨rfl, hn, rfl⟩
  simp only [recordsOf]
  split_ifs with hempty hnone hnone
  · exact hwhole
  · exact absurd rfl hnone
  · exact hwhole
  · exact (parseRecords_partition vtRecords n).resolve_left hnone

/-- A leaf covers the pages of its range. -/
theorem covers_leafOf_iff {objects : List Obj} {rootRef leaf page : Nat} {r : Int × Int}
    (hleaf : objects[leaf]? = some (leafOf rootRef r)) (hr : 1 ≤ r.1) (hle : r.1 ≤ r.2) :
    Covers objects leaf page ↔ r.1 ≤ (page : Int) + 1 ∧ (page : Int) + 1 ≤ r.2 := by
  have hstop : (if r.2 ≠ r.1 then some (r.2 - 1).toNat else none).getD (r.1 - 1).toNat =
      (r.2 - 1).toNat := by
    split_ifs with hne
    · rfl
    · rw [not_not.mp hne]
      rfl
  constructor
  · rintro ⟨parent, start, stop, hget, hstart, hpage⟩
    rw [hleaf, leafOf] at hget
    obtain ⟨-, rfl, rfl⟩ := Obj.leaf.inj (Option.some.inj hget)
    rw [hstop] at hpage
    omega
  · intro h
    refine ⟨_, _, _, hleaf, by omega, ?_⟩
    rw [hstop]
    omega

/-- A document that is divided anew has a part for each page, and the part covers it. -/
theorem pagesHaveParts (vtRecords : Bytes) {doc : Document} (hpages : 1 ≤ doc.pages.length)
    (hkeep : keepsHierarchy doc = false) :
    (buildDPartTree vtRecords doc).1.pages.length = doc.pages.length ∧
      PagesHaveParts (buildDPartTree vtRecords doc).1 := by
  have hrecords := recordsOf_partition vtRecords (n := doc.pages.length) (by omega)
  obtain ⟨hleaves, hlength, hparts⟩ :=
    foldl_addRecord doc.objects.length hrecords (le_refl 1) ⟨[], doc.pages⟩ rfl
  have hbuild : (buildDPartTree vtRecords doc).1 =
      { objects := doc.objects ++ [.rootNode (doc.objects.length + 1)
            (List.range' (doc.objects.length + 2) (recordsOf vtRecords doc.pages.length).1.length),
          .dpartRoot doc.objects.length ["/Root", "/Record"] 1] ++
            (recordsOf vtRecords doc.pages.length).1.map (leafOf doc.objects.length)
        pages := ((recordsOf vtRecords doc.pages.length).1.foldl
            (addRecord doc.objects.length) ⟨[], doc.pages⟩).pages
        root := some (doc.objects.length + 1)
        hasRootNode := true } := by
    simp only [buildDPartTree, hkeep, hleaves, List.nil_append, List.length_map]
    rw [if_neg (by omega), if_neg Bool.false_ne_true]
  generalize (recordsOf vtRecords doc.pages.length).1 = records at *
  rw [hbuild]
  refine ⟨hlength, doc.objects.length + 1, doc.objects.length, ["/Root", "/Record"], 1,
    doc.objects.length + 1, List.range' (doc.objects.length + 2) records.length, rfl, ?_, ?_, ?_⟩
  · simp
  · simp
  have hleaf : ∀ i r, records[i]? = some r →
      (doc.objects ++ [Obj.rootNode (doc.objects.length + 1)
            (List.range' (doc.objects.length + 2) records.length),
          .dpartRoot doc.objects.length ["/Root", "/Record"] 1] ++
          records.map (leafOf doc.objects.length))[doc.objects.length + 2 + i]? =
        some (leafOf doc.objects.length r) := by
    intro i r hr
    rw [List.getElem?_append_right (by simp), List.getElem?_map]
    simp [hr]
  have hbounds := (Consecutive.bounds hrecords (le_refl 1)).2
  intro page hpage
  replace hpage : page < doc.pages.length := hlength ▸ hpage
  obtain ⟨i, r, hr, hlow, hhigh, hpart⟩ := (hparts page hpage).2 (by omega)
  have hrange := hbounds r (List.mem_of_getElem? hr)
  refine ⟨doc.objects.length + 2 + i, hpart, ?_, ?_, ?_⟩
  · have hi := (List.getElem?_eq_some_iff.mp hr).1
    exact List.mem_range'_1.mpr (by omega)
  · exact (covers_leafOf_iff (hleaf i r hr) hrange.1 hrange.2.1).mpr ⟨hlow, hhigh⟩
  · intro other hother hcovers
    obtain ⟨hge, hlt⟩ := List.mem_range'_1.mp hother
    obtain ⟨j, rfl⟩ := Nat.exists_eq_add_of_le hge
    obtain ⟨r', hr'⟩ : ∃ r', records[j]? = some r' :=
      ⟨_, List.getElem?_eq_getElem (by omega)⟩
    have hrange' := hbounds r' (List.mem_of_getElem? hr')
    have hpage' := (covers_leafOf_iff (hleaf j r' hr') hrange'.1 hrange'.2.1).mp hcovers
    rw [Consecutive.unique hrecords (le_refl 1) hr' hr hpage' ⟨hlow, hhigh⟩]

/-- The records of a text divide the document or there are none, a division is read as it was
written, and a document that is divided anew has one part for each page, which covers it. -/
theorem records_divide (n : Nat) (hn : 1 ≤ n) (hint : n ≤ 2147483647) :
    (∀ spec, parseRecords spec n = [] ∨ Partition n (parseRecords spec n)) ∧
      (∀ out texts, Partition n out → List.Forall₂ (Writes n) out texts →
        parseRecords (List.intercalate [0x2C] texts) n = out) ∧
      ∀ vtRecords doc, doc.pages.length = n → keepsHierarchy doc = false →
        (buildDPartTree vtRecords doc).1.pages.length = n ∧
          PagesHaveParts (buildDPartTree vtRecords doc).1 := by
  refine ⟨fun spec => parseRecords_partition spec n, fun out texts hout htexts =>
    parseRecords_written (by omega) (by omega) hout htexts, fun vtRecords doc hlength hkeep => ?_⟩
  subst hlength
  exact pagesHaveParts vtRecords hn hkeep

/-- Five pages and an object that is no part of the hierarchy. -/
def fivePages : Document where
  objects := [.other]
  pages := List.replicate 5 none
  root := none
  hasRootNode := false

theorem records_divide_five :
    Partition 5 (parseRecords (lit "1-2,3,4-") 5) ∧
      PagesHaveParts (buildDPartTree (lit "1-2,3,4-") fivePages).1 ∧
      (buildDPartTree (lit "1-2,3,4-") fivePages).1.objects.drop 3 =
        (parseRecords (lit "1-2,3,4-") 5).map (leafOf 1) ∧
      (buildDPartTree (lit "1-2,3,4-") fivePages).1.pages =
        [some 3, some 3, some 4, some 5, some 5] := by
  have hread : parseRecords (lit "1-2,3,4-") (5 : Nat) = [(1, 2), (3, 3), (4, 5)] := by decide
  obtain ⟨hsome, -, hparts⟩ := records_divide 5 (by decide) (by decide)
  refine ⟨(hsome (lit "1-2,3,4-")).resolve_left ?_, (hparts _ fivePages rfl rfl).2, ?_, ?_⟩
  · rw [hread]
    exact List.cons_ne_nil _ _
  · decide
  · decide

end Kura.Engine.Records
