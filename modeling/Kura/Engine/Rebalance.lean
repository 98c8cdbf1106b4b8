import Kura.Engine.PageTree

/-!
# What the rebuilt page tree is

The rebuilt tree has the pages as its leaves, in order, and its nodes have the
kids, the counts and the parents they should have. The walk over it finds it
consistent. A second call still rebuilds it if an object of the old tree has too
many kids, since every object of the file is looked at.
-/

namespace Kura.Engine.PageTree

section Steps

variable {pdf : Pdf} {id i : Nat} {k : String} {v : Value} {d : Entries}

theorem objects_replaceKey_of_ne (h : i ≠ id) :
    (pdf.replaceKey id k v).objects i = pdf.objects i := by
  rw [Pdf.replaceKey]
  split
  · exact Function.update_of_ne h _ _
  · rfl

theorem objects_replaceKey_self (h : pdf.objects id = .dictionary d) :
    (pdf.replaceKey id k v).objects id = .dictionary (Function.update d k v) := by
  rw [Pdf.replaceKey]
  split
  case h_1 d' hd =>
    rw [h] at hd
    cases hd
    exact Function.update_self _ _ _
  case h_2 hnone => exact absurd h (hnone d)

@[simp]
theorem size_replaceKey : (pdf.replaceKey id k v).size = pdf.size := by
  rw [Pdf.replaceKey]
  split <;> rfl

@[simp]
theorem objects_makeIndirectObject_self : (pdf.makeIndirectObject v).objects pdf.size = v :=
  Function.update_self _ _ _

theorem objects_makeIndirectObject_of_ne (h : i ≠ pdf.size) :
    (pdf.makeIndirectObject v).objects i = pdf.objects i := Function.update_of_ne h _ _

theorem lt_size_of_dictionary (h : pdf.objects id = .dictionary d) : id < pdf.size := by
  by_contra hle
  rw [pdf.fresh id (by omega)] at h
  cases h

end Steps

/-- One object before and after some steps: it is the same, it is a dictionary with another
parent, or it is a new dictionary. -/
inductive Kept (pdf pdf' : Pdf) (i : Nat) : Prop
  | same (h : pdf'.objects i = pdf.objects i)
  | parent {d d' : Entries} (h : pdf.objects i = .dictionary d)
      (h' : pdf'.objects i = .dictionary d')
      (hkeys : ∀ k, k ≠ "/Parent" → d' k = d k)
  | new {d' : Entries} (h : pdf.size ≤ i) (h' : pdf'.objects i = .dictionary d')

/-- Some steps change the parents of some objects and make new ones. -/
structure Keeps (changed : Nat → Prop) (pdf pdf' : Pdf) : Prop where
  size : pdf.size ≤ pdf'.size
  kept : ∀ i, Kept pdf pdf' i
  same : ∀ i, i < pdf.size → ¬ changed i → pdf'.objects i = pdf.objects i

namespace Keeps

variable {changed changed' : Nat → Prop} {pdf pdf' pdf'' : Pdf}

theorem refl (pdf : Pdf) : Keeps (fun _ => False) pdf pdf :=
  ⟨le_rfl, fun _ => .same rfl, fun _ _ _ => rfl⟩

theorem mono (h : Keeps changed pdf pdf') (himp : ∀ i, changed i → changed' i) :
    Keeps changed' pdf pdf' :=
  ⟨h.size, h.kept, fun i hi hnot => h.same i hi fun hc => hnot (himp i hc)⟩

/-- Two edits change what one of them changes. -/
theorem trans (h : Keeps changed pdf pdf') (h' : Keeps changed' pdf' pdf'') :
    Keeps (fun i => changed i ∨ changed' i) pdf pdf'' := by
  refine ⟨h.size.trans h'.size, fun i => ?_, fun i hi hnot => ?_⟩
  · obtain hsame | ⟨hd, hd', hkeys⟩ | ⟨hnew, hd'⟩ := h.kept i
    · obtain hsame' | ⟨he, he', hkeys'⟩ | ⟨hnew', he'⟩ := h'.kept i
      · exact .same (hsame'.trans hsame)
      · exact .parent (hsame ▸ he) he' hkeys'
      · exact .new (h.size.trans hnew') he'
    · obtain hsame' | ⟨he, he', hkeys'⟩ | ⟨hnew', he'⟩ := h'.kept i
      · exact .parent hd (hsame'.trans hd') hkeys
      · rw [hd'] at he
        cases he
        exact .parent hd he' fun k hk => (hkeys' k hk).trans (hkeys k hk)
      · exact absurd (lt_size_of_dictionary hd') (by omega)
    · obtain hsame' | ⟨he, he', hkeys'⟩ | ⟨hnew', he'⟩ := h'.kept i
      · exact .new hnew (hsame'.trans hd')
      · exact .new hnew he'
      · exact .new hnew he'
  · rw [not_or] at hnot
    rw [h'.same i (lt_of_lt_of_le hi h.size) hnot.2, h.same i hi hnot.1]

/-- What a value stands for is the same, or is a dictionary or nothing before and a dictionary
afterwards. -/
theorem resolve (h : Keeps changed pdf pdf') (v : Value) :
    pdf'.resolve v = pdf.resolve v ∨
      ((∃ d', pdf'.resolve v = .dictionary d') ∧
        (pdf.resolve v = .null ∨ ∃ d, pdf.resolve v = .dictionary d)) := by
  cases v with
  | indirect id =>
      obtain hsame | ⟨hd, hd', -⟩ | ⟨hnew, hd'⟩ := h.kept id
      · exact Or.inl hsame
      · exact Or.inr ⟨⟨_, hd'⟩, Or.inr ⟨_, hd⟩⟩
      · exact Or.inr ⟨⟨_, hd'⟩, Or.inl (pdf.fresh id hnew)⟩
  | _ => exact Or.inl rfl

theorem nameIs (h : Keeps changed pdf pdf') (v : Value) (n : String) :
    pdf'.nameIs v n = pdf.nameIs v n := by
  rw [Pdf.nameIs, Pdf.nameIs]
  obtain hsame | ⟨⟨d', hd'⟩, hnone | ⟨d, hd⟩⟩ := h.resolve v
  · rw [hsame]
  · rw [hd', hnone]
  · rw [hd', hd]

theorem array? (h : Keeps changed pdf pdf') (v : Value) : pdf'.array? v = pdf.array? v := by
  rw [Pdf.array?, Pdf.array?]
  obtain hsame | ⟨⟨d', hd'⟩, hnone | ⟨d, hd⟩⟩ := h.resolve v
  · rw [hsame]
  · rw [hd', hnone]
  · rw [hd', hd]

/-- A dictionary stays one. -/
theorem dictionary (h : Keeps changed pdf pdf') {i : Nat} {d : Entries}
    (hd : pdf.objects i = .dictionary d) :
    ∃ d', pdf'.objects i = .dictionary d' ∧ ∀ k, k ≠ "/Parent" → d' k = d k := by
  obtain hsame | ⟨he, he', hkeys⟩ | ⟨hnew, -⟩ := h.kept i
  · exact ⟨d, hsame.trans hd, fun _ _ => rfl⟩
  · rw [hd] at he
    cases he
    exact ⟨_, he', hkeys⟩
  · exact absurd (lt_size_of_dictionary hd) (by omega)

theorem oversizedAt (h : Keeps changed pdf pdf') {i : Nat} (hi : i < pdf.size) :
    oversizedAt pdf' i = oversizedAt pdf i := by
  rw [PageTree.oversizedAt, PageTree.oversizedAt]
  obtain hsame | ⟨hd, hd', hkeys⟩ | ⟨hnew, -⟩ := h.kept i
  · rw [hsame]
    cases pdf.objects i with
    | dictionary d => simp only [h.nameIs, h.array?]
    | _ => rfl
  · rw [hd, hd']
    simp only [hkeys "/Type" (by decide), hkeys "/Kids" (by decide), h.nameIs, h.array?]
  · omega

theorem isPage (h : Keeps changed pdf pdf') {i : Nat} (hp : IsPage pdf i) : IsPage pdf' i := by
  obtain ⟨d, hd, htype⟩ := hp
  obtain ⟨d', hd', hkeys⟩ := h.dictionary hd
  refine ⟨d', hd', ?_⟩
  rw [hkeys "/Type" (by decide), h.nameIs]
  exact htype

theorem isNode (h : Keeps changed pdf pdf') {i n : Nat} {kids : List Nat}
    (hn : IsNode pdf i kids n) : IsNode pdf' i kids n := by
  obtain ⟨d, hd, htype, hkids, hcount⟩ := hn
  obtain ⟨d', hd', hkeys⟩ := h.dictionary hd
  refine ⟨d', hd', ?_, ?_, ?_⟩
  · rw [hkeys "/Type" (by decide), htype]
  · rw [hkeys "/Kids" (by decide), hkids]
  · rw [hkeys "/Count" (by decide), hcount]

end Keeps

/-- A new parent changes its own object only. -/
theorem keeps_replaceParent (pdf : Pdf) (id : Nat) (v : Value) :
    Keeps (· = id) pdf (pdf.replaceKey id "/Parent" v) := by
  refine ⟨size_replaceKey.ge, fun i => ?_, fun i _ hne => objects_replaceKey_of_ne hne⟩
  by_cases hi : i = id
  · subst hi
    cases hd : pdf.objects i with
    | dictionary d =>
        exact .parent hd (objects_replaceKey_self hd) fun k hk => Function.update_of_ne hk _ _
    | _ =>
        refine .same ?_
        rw [Pdf.replaceKey]
        split
        · rename_i hdict
          rw [hd] at hdict
          cases hdict
        · rfl
  · exact .same (objects_replaceKey_of_ne hi)

theorem keeps_makeIndirectObject (pdf : Pdf) (d : Entries) :
    Keeps (fun _ => False) pdf (pdf.makeIndirectObject (.dictionary d)) := by
  refine ⟨Nat.le_succ _, fun i => ?_, fun i hi _ => objects_makeIndirectObject_of_ne (by omega)⟩
  by_cases hi : i = pdf.size
  · exact .new hi.ge (by rw [hi, objects_makeIndirectObject_self])
  · exact .same (objects_makeIndirectObject_of_ne hi)

/-- Setting the entries of a new object keeps the objects there were. -/
theorem Keeps.replaceNew {changed : Nat → Prop} {pdf pdf' : Pdf} (h : Keeps changed pdf pdf')
    {id : Nat} (hid : pdf.size ≤ id) (k : String) (v : Value) :
    Keeps changed pdf (pdf'.replaceKey id k v) := by
  refine ⟨h.size.trans size_replaceKey.ge, fun i => ?_, fun i hi hnot => ?_⟩
  · by_cases hi : i = id
    · subst hi
      cases hd : pdf'.objects i with
      | dictionary d => exact .new hid (objects_replaceKey_self hd)
      | _ =>
          refine .same ?_
          rw [Pdf.replaceKey]
          split
          · rename_i hdict
            rw [hd] at hdict
            cases hdict
          · obtain hsame | ⟨hd', he, -⟩ | ⟨-, he⟩ := h.kept i
            · exact hsame
            · exact absurd he (by rw [hd]; exact Value.noConfusion)
            · exact absurd he (by rw [hd]; exact Value.noConfusion)
    · have hsame : (pdf'.replaceKey id k v).objects i = pdf'.objects i :=
        objects_replaceKey_of_ne hi
      obtain hkept | ⟨hd, hd', hkeys⟩ | ⟨hnew, hd'⟩ := h.kept i
      · exact .same (hsame.trans hkept)
      · exact .parent hd (hsame.trans hd') hkeys
      · exact .new hnew (hsame.trans hd')
  · rw [objects_replaceKey_of_ne (by omega)]
    exact h.same i hi hnot

namespace Tree

variable {height : Nat}

/-- The nodes under the topmost one. -/
def below : {height : Nat} → Tree height → List Nat
  | 0, _ => []
  | _ + 1, t => t.2.flatMap ids

theorem ids_eq (t : Tree height) : t.ids = t.root :: t.below := by
  cases height <;> rfl

variable (id : Nat) (kids : List (Tree height))

@[simp]
theorem root_node : (node id kids).root = id := rfl

@[simp]
theorem leaves_node : (node id kids).leaves = kids.flatMap leaves := rfl

@[simp]
theorem ids_node : (node id kids).ids = id :: kids.flatMap ids := rfl

theorem root_mem_ids (t : Tree height) : t.root ∈ t.ids := by
  rw [ids_eq]
  exact List.mem_cons_self

end Tree

variable {height : Nat} {changed : Nat → Prop} {pdf pdf' : Pdf}

/-- What a file says about the topmost node of a tree. -/
def TopHolds (pdf : Pdf) : {height : Nat} → Tree height → Prop
  | 0, page => IsPage pdf page
  | _ + 1, t => IsNode pdf t.1 (t.2.map Tree.root) (t.2.flatMap Tree.leaves).length

theorem Holds.top {t : Tree height} (h : Holds pdf t) : TopHolds pdf t := by
  cases height with
  | zero => exact h
  | succ height => exact h.1

theorem TopHolds.keeps {t : Tree height} (h : TopHolds pdf t) (hk : Keeps changed pdf pdf') :
    TopHolds pdf' t := by
  cases height with
  | zero => exact hk.isPage h
  | succ height => exact hk.isNode h

theorem TopHolds.dictionary {t : Tree height} (h : TopHolds pdf t) :
    ∃ d, pdf.objects t.root = .dictionary d := by
  cases height with
  | zero =>
      obtain ⟨d, hd, -⟩ := h
      exact ⟨d, hd⟩
  | succ height =>
      obtain ⟨d, hd, -⟩ := h
      exact ⟨d, hd⟩

theorem getKey_of_dictionary {id : Nat} {d : Entries} (h : pdf.objects id = .dictionary d)
    (k : String) : pdf.getKey id k = d k := by
  rw [Pdf.getKey, h]

/-- A tree adds its leaves to the count of the node above it. -/
theorem TopHolds.leavesOf {t : Tree height} (h : TopHolds pdf t) :
    leavesOf pdf t.root = t.leaves.length := by
  cases height with
  | zero =>
      obtain ⟨d, hd, htype⟩ := h
      have hpages : pdf.nameIs (d "/Type") "/Pages" = false := by
        rw [Pdf.nameIs] at htype ⊢
        cases hv : pdf.resolve (d "/Type") with
        | name n =>
            rw [hv] at htype
            have hn : n = "/Page" := by simpa using htype
            rw [hn]
            decide
        | _ => rfl
      have hkey : pdf.getKey t.root "/Type" = d "/Type" := getKey_of_dictionary hd _
      rw [PageTree.leavesOf, hkey, hpages]
      rfl
  | succ height =>
      obtain ⟨d, hd, htype, -, hcount⟩ := h
      have hkey : ∀ k, pdf.getKey t.root k = d k := getKey_of_dictionary hd
      rw [PageTree.leavesOf, hkey, hkey, htype, hcount]
      rfl

theorem holds_node {id : Nat} {kids : List (Tree height)} :
    Holds pdf (Tree.node id kids) ↔
      IsNode pdf id (kids.map Tree.root) (kids.flatMap Tree.leaves).length ∧
        kids.length ≤ kFanout ∧
        ∀ kid ∈ kids, pdf.getKey kid.root "/Parent" = .indirect id ∧ Holds pdf kid := Iff.rfl

/-- A tree stays in the file if its topmost node only gets another parent. -/
theorem Holds.keeps {t : Tree height} (h : Holds pdf t) (hk : Keeps changed pdf pdf')
    (hbelow : ∀ i ∈ t.below, ¬ changed i) : Holds pdf' t := by
  induction height with
  | zero => exact hk.isPage h
  | succ height ih =>
      obtain ⟨hnode, hlen, hkids⟩ := h
      refine ⟨hk.isNode hnode, hlen, fun kid hkid => ?_⟩
      obtain ⟨hparent, hsub⟩ := hkids kid hkid
      have hmem : ∀ i ∈ kid.ids, i ∈ @Tree.below (height + 1) t := fun i hi =>
        List.mem_flatMap.mpr ⟨kid, hkid, hi⟩
      obtain ⟨d, hd⟩ := hsub.top.dictionary
      have hsame := hk.same kid.root (lt_size_of_dictionary hd)
        (hbelow _ (hmem _ kid.root_mem_ids))
      refine ⟨?_, ih hsub fun i hi => hbelow i (hmem i ?_)⟩
      · rw [Pdf.getKey, hsame]
        exact hparent
      · rw [Tree.ids_eq]
        exact List.mem_cons_of_mem _ hi

/-- The nodes of a tree are objects of the file. -/
theorem Holds.lt_size {t : Tree height} (h : Holds pdf t) : ∀ i ∈ t.ids, i < pdf.size := by
  induction height with
  | zero =>
      intro i hi
      obtain ⟨d, hd⟩ := h.top.dictionary
      rw [List.mem_singleton.mp hi]
      exact lt_size_of_dictionary hd
  | succ height ih =>
      intro i hi
      obtain ⟨d, hd⟩ := h.top.dictionary
      obtain rfl | hi := List.mem_cons.mp hi
      · exact lt_size_of_dictionary hd
      · obtain ⟨kid, hkid, hi⟩ := List.mem_flatMap.mp hi
        exact ih (h.2.2 kid hkid).2 i hi

section Adopt

variable (node : Nat)

theorem keeps_adopt (pdf : Pdf) (count : Int) (kids : List Nat) :
    Keeps (· ∈ kids) pdf (adopt node pdf count kids).1 := by
  induction kids generalizing pdf count with
  | nil => exact (Keeps.refl pdf).mono fun i h => h.elim
  | cons kid kids ih =>
      refine ((keeps_replaceParent pdf kid (.indirect node)).trans (ih _ _)).mono fun i hi => ?_
      exact List.mem_cons.mpr hi

@[simp]
theorem size_adopt (pdf : Pdf) (count : Int) (kids : List Nat) :
    (adopt node pdf count kids).1.size = pdf.size := by
  induction kids generalizing pdf count with
  | nil => rfl
  | cons kid kids ih => rw [adopt, ih, size_replaceKey]

theorem count_adopt (pdf : Pdf) (count : Int) (ts : List (Tree height))
    (h : ∀ t ∈ ts, TopHolds pdf t) :
    (adopt node pdf count (ts.map Tree.root)).2 = count + (ts.flatMap Tree.leaves).length := by
  induction ts generalizing pdf count with
  | nil => simp [adopt]
  | cons t ts ih =>
      have hk := keeps_replaceParent pdf t.root (.indirect node)
      rw [List.map_cons, adopt, ih _ _ fun u hu => (h u (List.mem_cons_of_mem _ hu)).keeps hk,
        ((h t List.mem_cons_self).keeps hk).leavesOf, List.flatMap_cons, List.length_append]
      push_cast
      ring

/-- Every kid gets the node as its parent. -/
theorem parent_adopt (pdf : Pdf) (count : Int) (kids : List Nat) {kid : Nat} (hkid : kid ∈ kids)
    (hdict : ∃ d, pdf.objects kid = .dictionary d) :
    (adopt node pdf count kids).1.getKey kid "/Parent" = .indirect node := by
  induction kids generalizing pdf count with
  | nil => cases hkid
  | cons k kids ih =>
      rw [adopt]
      have hk := keeps_replaceParent pdf k (.indirect node)
      obtain ⟨d, hd⟩ := hdict
      by_cases hrest : kid ∈ kids
      · obtain ⟨d', hd', -⟩ := hk.dictionary hd
        exact ih _ _ hrest ⟨d', hd'⟩
      · obtain rfl := (List.mem_cons.mp hkid).resolve_right hrest
        have hself := objects_replaceKey_self (k := "/Parent") (v := .indirect node) hd
        have hsame := (keeps_adopt node (pdf.replaceKey kid "/Parent" (.indirect node))
          (count + leavesOf (pdf.replaceKey kid "/Parent" (.indirect node)) kid) kids).same kid
          (lt_size_of_dictionary hself) hrest
        rw [Pdf.getKey, hsame, hself]
        exact Function.update_self _ _ _

end Adopt

theorem not_root_of_below {ts : List (Tree height)} (h : (ts.flatMap Tree.ids).Nodup)
    {t : Tree height} (ht : t ∈ ts) {i : Nat} (hi : i ∈ t.below) : i ∉ ts.map Tree.root := by
  rintro hroot
  obtain ⟨u, hu, rfl⟩ := List.mem_map.mp hroot
  obtain ⟨hone, hpair⟩ := List.nodup_flatMap.mp h
  have hin : u.root ∈ t.ids := by
    rw [Tree.ids_eq]
    exact List.mem_cons_of_mem _ hi
  by_cases hut : u = t
  · subst hut
    have hnodup := hone u hu
    rw [Tree.ids_eq] at hnodup
    exact (List.nodup_cons.mp hnodup).1 hi
  · have hsymm : Std.Symm (Function.onFun List.Disjoint (@Tree.ids height)) :=
      ⟨fun _ _ hdisj => hdisj.symm⟩
    exact hpair.forall hu ht hut u.root_mem_ids hin

/-- What making a node does. -/
structure MadeNode (pdf : Pdf) (ts : List (Tree height)) (made : Pdf × Nat) : Prop where
  number : made.2 = pdf.size
  size : made.1.size = pdf.size + 1
  keeps : Keeps (· ∈ ts.map Tree.root) pdf made.1
  holds : Holds made.1 (Tree.node pdf.size ts)

/-- A node made over a list of trees is a tree. -/
theorem madeNode {ts : List (Tree height)} (hts : ∀ t ∈ ts, Holds pdf t)
    (hlen : ts.length ≤ kFanout) (hnodup : (ts.flatMap Tree.ids).Nodup) :
    MadeNode pdf ts (makeNode pdf (ts.map Tree.root)) := by
  have hk1 := keeps_makeIndirectObject pdf bareNode
  have hself : (pdf.makeIndirectObject (.dictionary bareNode)).objects pdf.size =
      .dictionary bareNode := objects_makeIndirectObject_self
  rw [makeNode]
  generalize hp1 : pdf.makeIndirectObject (.dictionary bareNode) = p1 at hk1 hself ⊢
  have hk2 := keeps_adopt pdf.size p1 0 (ts.map Tree.root)
  have hcount := count_adopt pdf.size p1 0 ts fun t ht => (hts t ht).top.keeps hk1
  have hparent : ∀ t ∈ ts, (adopt pdf.size p1 0 (ts.map Tree.root)).1.getKey t.root "/Parent" =
      .indirect pdf.size := by
    intro t ht
    obtain ⟨d, hd⟩ := (hts t ht).top.dictionary
    obtain ⟨d', hd', -⟩ := hk1.dictionary hd
    exact parent_adopt _ _ _ _ (List.mem_map_of_mem ht) ⟨d', hd'⟩
  generalize hp2 : adopt pdf.size p1 0 (ts.map Tree.root) = p2 at hk2 hcount hparent ⊢
  obtain ⟨p2, count⟩ := p2
  dsimp only at hk2 hcount hparent ⊢
  have hsize1 : p1.size = pdf.size + 1 := by
    rw [← hp1]
    rfl
  have hnotkid : pdf.size ∉ ts.map Tree.root := by
    intro hmem
    obtain ⟨t, ht, hroot⟩ := List.mem_map.mp hmem
    exact absurd ((hts t ht).lt_size _ t.root_mem_ids) (by omega)
  have hnode2 : p2.objects pdf.size = .dictionary bareNode :=
    (hk2.same pdf.size (by omega) hnotkid).trans hself
  have hnode3 := objects_replaceKey_self (k := "/Kids")
    (v := .array ((ts.map Tree.root).map .indirect)) hnode2
  have hnode4 := objects_replaceKey_self (k := "/Count") (v := .integer count) hnode3
  have hkeeps2 : Keeps (· ∈ ts.map Tree.root) pdf p2 :=
    (hk1.trans hk2).mono fun i hi => hi.resolve_left id
  have hkeeps := (hkeeps2.replaceNew le_rfl "/Kids"
    (.array ((ts.map Tree.root).map .indirect))).replaceNew le_rfl "/Count" (.integer count)
  have hsize2 : p2.size = p1.size := by
    have hsize := size_adopt pdf.size p1 0 (ts.map Tree.root)
    rwa [hp2] at hsize
  refine ⟨rfl, ?_, hkeeps, holds_node.mpr ⟨?_, hlen, fun t ht => ⟨?_, ?_⟩⟩⟩
  · rw [size_replaceKey, size_replaceKey, hsize2, hsize1]
  · refine ⟨_, hnode4, ?_, ?_, ?_⟩
    · simp [bareNode]
    · simp
    · rw [Function.update_self, hcount, zero_add]
  · have hne : t.root ≠ pdf.size := ((hts t ht).lt_size _ t.root_mem_ids).ne
    rw [Pdf.getKey, objects_replaceKey_of_ne hne, objects_replaceKey_of_ne hne]
    exact hparent t ht
  · exact (hts t ht).keeps hkeeps fun i hi => not_root_of_below hnodup ht hi

/-- An object that does not exist has no kids. -/
theorem oversizedAt_of_size_le {i : Nat} (hi : pdf.size ≤ i) : oversizedAt pdf i = false := by
  rw [oversizedAt, pdf.fresh i hi]

theorem MadeNode.small {ts : List (Tree height)} {made : Pdf × Nat} (h : MadeNode pdf ts made)
    {i : Nat} (hi : pdf.size ≤ i) : oversizedAt made.1 i = false := by
  obtain rfl | hlt := hi.eq_or_lt
  · obtain ⟨⟨d, hd, -, hkids, -⟩, hlen, -⟩ := holds_node.mp h.holds
    have hfan : kFanout ≤ kMaxArray := by decide
    have hshort : ¬ kMaxArray < (ts.map (Value.indirect ∘ Tree.root)).length := by
      rw [List.length_map]
      exact not_lt.mpr (hlen.trans hfan)
    rw [oversizedAt, hd]
    simp only [hkids, Pdf.array?, Pdf.resolve, List.map_map, hshort, decide_false, Bool.and_false]
  · refine oversizedAt_of_size_le ?_
    rw [h.size]
    exact hlt

/-- What making a level does. -/
structure MadeLevel (pdf : Pdf) (ts : List (Tree height)) (made : Pdf × List Nat)
    (ts' : List (Tree (height + 1))) : Prop where
  numbers : made.2 = ts'.map Tree.root
  keeps : Keeps (· ∈ ts.map Tree.root) pdf made.1
  holds : ∀ t ∈ ts', Holds made.1 t
  leaves : ts'.flatMap Tree.leaves = ts.flatMap Tree.leaves
  ids : ∀ i ∈ ts'.flatMap Tree.ids, i ∈ ts.flatMap Tree.ids ∨ pdf.size ≤ i
  nodup : (ts'.flatMap Tree.ids).Nodup
  small : ∀ i, pdf.size ≤ i → oversizedAt made.1 i = false

theorem root_mem_flatMap {ts : List (Tree height)} {i : Nat} (h : i ∈ ts.map Tree.root) :
    i ∈ ts.flatMap Tree.ids := by
  obtain ⟨t, ht, rfl⟩ := List.mem_map.mp h
  exact List.mem_flatMap.mpr ⟨t, ht, t.root_mem_ids⟩

theorem below_mem_flatMap {ts : List (Tree height)} {t : Tree height} (ht : t ∈ ts) {i : Nat}
    (hi : i ∈ t.below) : i ∈ ts.flatMap Tree.ids := by
  refine List.mem_flatMap.mpr ⟨t, ht, ?_⟩
  rw [Tree.ids_eq]
  exact List.mem_cons_of_mem _ hi

/-- A node and the level made after it. -/
theorem MadeLevel.cons {chunk rest : List (Tree height)} {made : Pdf × Nat}
    {next : Pdf × List Nat} {ts' : List (Tree (height + 1))}
    (hchunk : ∀ t ∈ chunk, Holds pdf t) (hrest : ∀ t ∈ rest, Holds pdf t)
    (hnodup : ((chunk ++ rest).flatMap Tree.ids).Nodup) (hmade : MadeNode pdf chunk made)
    (hnext : MadeLevel made.1 rest next ts') :
    MadeLevel pdf (chunk ++ rest) (next.1, made.2 :: next.2) (Tree.node pdf.size chunk :: ts') := by
  rw [List.flatMap_append] at hnodup
  obtain ⟨hnodup1, -, hdisj⟩ := List.nodup_append'.mp hnodup
  have hlt : ∀ {ts : List (Tree height)}, (∀ t ∈ ts, Holds pdf t) →
      ∀ i ∈ ts.flatMap Tree.ids, i < pdf.size := by
    intro ts hts i hi
    obtain ⟨t, ht, hi⟩ := List.mem_flatMap.mp hi
    exact (hts t ht).lt_size i hi
  have hids : ∀ i, i ∈ List.flatMap Tree.ids (Tree.node pdf.size chunk :: ts') ↔
      i = pdf.size ∨ i ∈ chunk.flatMap Tree.ids ∨ i ∈ ts'.flatMap Tree.ids := by
    intro i
    rw [List.flatMap_cons, List.mem_append, Tree.ids_node, List.mem_cons, or_assoc]
  refine ⟨?_, ?_, ?_, ?_, ?_, ?_, ?_⟩
  · rw [List.map_cons, Tree.root_node, hmade.number, hnext.numbers]
  · refine (hmade.keeps.trans hnext.keeps).mono fun i hi => ?_
    rw [List.map_append, List.mem_append]
    exact hi
  · intro t ht
    obtain rfl | ht := List.mem_cons.mp ht
    · exact hmade.holds.keeps hnext.keeps fun i hi hroot => hdisj hi (root_mem_flatMap hroot)
    · exact hnext.holds t ht
  · rw [List.flatMap_cons, Tree.leaves_node, hnext.leaves, List.flatMap_append]
  · intro i hi
    rw [List.flatMap_append, List.mem_append]
    obtain rfl | hi | hi := (hids i).mp hi
    · exact Or.inr le_rfl
    · exact Or.inl (Or.inl hi)
    · obtain hi | hi := hnext.ids i hi
      · exact Or.inl (Or.inr hi)
      · rw [hmade.size] at hi
        exact Or.inr (by omega)
  · have hnew : ∀ i ∈ ts'.flatMap Tree.ids, i ∈ rest.flatMap Tree.ids ∨ pdf.size < i := by
      intro i hi
      have hsplit := hnext.ids i hi
      rw [hmade.size] at hsplit
      exact hsplit
    rw [List.flatMap_cons, Tree.ids_node]
    refine List.nodup_append'.mpr ⟨?_, hnext.nodup, ?_⟩
    · refine List.nodup_cons.mpr ⟨fun hmem => ?_, hnodup1⟩
      exact absurd (hlt hchunk _ hmem) (lt_irrefl _)
    · intro i hi hi'
      obtain rfl | hi := List.mem_cons.mp hi
      · obtain hin | hin := hnew _ hi'
        · exact absurd (hlt hrest _ hin) (lt_irrefl _)
        · exact absurd hin (lt_irrefl _)
      · obtain hin | hin := hnew _ hi'
        · exact hdisj hi hin
        · exact absurd (hlt hchunk _ hi) (by omega)
  · intro i hi
    by_cases hin : i < made.1.size
    · rw [hnext.keeps.oversizedAt hin]
      exact hmade.small hi
    · exact hnext.small i (by omega)

/-- A level made over a list of trees is a list of trees with the same pages. -/
theorem exists_madeLevel {ts : List (Tree height)} (hts : ∀ t ∈ ts, Holds pdf t)
    (hnodup : (ts.flatMap Tree.ids).Nodup) :
    ∃ ts', MadeLevel pdf ts (makeLevel pdf (ts.map Tree.root)) ts' := by
  induction hn : ts.length using Nat.strongRecOn generalizing pdf ts with
  | ind n ih =>
      subst hn
      cases ts with
      | nil =>
          rw [List.map_nil, makeLevel]
          refine ⟨[], rfl, (Keeps.refl pdf).mono fun i h => h.elim, ?_, rfl, ?_, List.nodup_nil,
            fun i hi => oversizedAt_of_size_le hi⟩
          · intro t ht
            cases ht
          · intro i hi
            cases hi
      | cons t ts =>
          have hsplit := (List.take_append_drop kFanout (t :: ts)).symm
          have htake : ∀ u ∈ (t :: ts).take kFanout, Holds pdf u := fun u hu =>
            hts u (List.mem_of_mem_take hu)
          have hdrop : ∀ u ∈ (t :: ts).drop kFanout, Holds pdf u := fun u hu =>
            hts u (List.mem_of_mem_drop hu)
          rw [hsplit] at hnodup
          have hparts := hnodup
          rw [List.flatMap_append] at hparts
          obtain ⟨hnodup1, hnodup2, hdisj⟩ := List.nodup_append'.mp hparts
          have hmade := madeNode htake (by simp) hnodup1
          have hrest : ∀ u ∈ (t :: ts).drop kFanout,
              Holds (makeNode pdf (((t :: ts).take kFanout).map Tree.root)).1 u := fun u hu =>
            (hdrop u hu).keeps hmade.keeps fun i hi hroot =>
              hdisj (root_mem_flatMap hroot) (below_mem_flatMap hu hi)
          obtain ⟨ts', hnext⟩ := ih _ (by simp [kFanout]) hrest hnodup2 rfl
          refine ⟨Tree.node pdf.size ((t :: ts).take kFanout) :: ts', ?_⟩
          have hlevel := MadeLevel.cons htake hdrop hnodup hmade hnext
          rw [← hsplit] at hlevel
          rw [List.map_cons, makeLevel, ← List.map_cons, ← List.map_take, ← List.map_drop]
          exact hlevel

/-- What making all levels does: one tree is left, with as few levels as its pages need. -/
structure Built (pdf : Pdf) (ts : List (Tree height)) (built : Pdf × List Nat) {k : Nat}
    (t : Tree (k + 1)) : Prop where
  root : built.2 = [t.root]
  holds : Holds built.1 t
  leaves : t.leaves = ts.flatMap Tree.leaves
  nodup : t.ids.Nodup
  keeps : ∃ changed, Keeps changed pdf built.1
  small : ∀ i, pdf.size ≤ i → oversizedAt built.1 i = false
  levels : ∀ n, ts.length ≤ kFanout ^ (n + 1) → k ≤ height + n

/-- Levels are built until one tree holds all. -/
theorem exists_built {ts : List (Tree height)} (hts : ∀ t ∈ ts, Holds pdf t)
    (hnodup : (ts.flatMap Tree.ids).Nodup) (hne : ts ≠ []) :
    ∃ (k : Nat) (t : Tree (k + 1)), Built pdf ts (build pdf (ts.map Tree.root)) t := by
  induction hn : ts.length using Nat.strongRecOn generalizing pdf height with
  | ind n ih =>
      subst hn
      obtain ⟨ts', hmade⟩ := exists_madeLevel hts hnodup
      have hlen := length_makeLevel pdf (ts.map Tree.root)
      rw [hmade.numbers, List.length_map, List.length_map] at hlen
      have hfan : kFanout = 1024 := rfl
      rw [build]
      by_cases hmore : 1 < (makeLevel pdf (ts.map Tree.root)).2.length
      · have hshort := length_makeLevel_lt hmore
        rw [if_pos hmore]
        rw [hmade.numbers, List.length_map] at hmore
        rw [hmade.numbers, List.length_map, List.length_map] at hshort
        have hne' : ts' ≠ [] := by
          rintro rfl
          cases hmore
        obtain ⟨k, t, hbuilt⟩ := ih _ hshort hmade.holds hmade.nodup hne' rfl
        rw [hmade.numbers]
        obtain ⟨changed, hkeeps⟩ := hbuilt.keeps
        refine ⟨k, t, hbuilt.root, hbuilt.holds, hbuilt.leaves.trans hmade.leaves, hbuilt.nodup,
          ⟨_, hmade.keeps.trans hkeeps⟩, fun i hi => ?_, fun n hfits => ?_⟩
        · by_cases hin : i < (makeLevel pdf (ts.map Tree.root)).1.size
          · rw [hkeeps.oversizedAt hin]
            exact hmade.small i hi
          · exact hbuilt.small i (by omega)
        · cases n with
          | zero =>
              rw [hfan] at hfits hlen
              omega
          | succ n =>
              have hfits' : ts'.length ≤ kFanout ^ (n + 1) := by
                rw [hfan] at hlen hfits ⊢
                rw [pow_succ] at hfits
                omega
              have hk := hbuilt.levels n hfits'
              omega
      · rw [if_neg hmore]
        rw [hmade.numbers, List.length_map] at hmore
        obtain ⟨t, rfl⟩ : ∃ t, ts' = [t] := by
          cases ts' with
          | nil =>
              obtain ⟨u, rest, rfl⟩ := List.exists_cons_of_ne_nil hne
              have hnone := hmade.numbers
              rw [List.map_cons, makeLevel] at hnone
              cases hnone
          | cons t rest =>
              rw [List.length_cons] at hmore
              exact ⟨t, by rw [List.length_eq_zero_iff.mp (by omega : rest.length = 0)]⟩
        refine ⟨height, t, hmade.numbers, hmade.holds t (by simp), ?_, ?_, ⟨_, hmade.keeps⟩,
          hmade.small, fun n _ => Nat.le_add_right _ _⟩
        · simpa using hmade.leaves
        · simpa using hmade.nodup

/-- The kids of a node, one after another. -/
def walkKids (pdf : Pdf) (levels : Nat) (node : Value) (acc : Nat × List Nat) (kid : Value) :
    Option (Nat × List Nat) := do
  let (n, seen) ← walk pdf levels kid (some node) acc.2
  some (acc.1 + n, seen)

section Walk

variable {levels r : Nat} {parent : Option Value} {seen : List Nat} {d : Entries}
  (hd : pdf.objects r = .dictionary d) (hseen : r ∉ seen) (hparent : parentFits pdf d parent = true)
include hd hseen hparent

theorem walk_page (htype : pdf.nameIs (d "/Type") "/Page" = true) :
    walk pdf (levels + 1) (.indirect r) parent seen = some (1, r :: seen) := by
  have hdict : pdf.dict? (.indirect r) = some d := by
    rw [Pdf.dict?, Pdf.resolve, hd]
  have henter : enter seen (.indirect r) = some (r :: seen) := if_neg hseen
  simp [walk, hdict, henter, hparent, htype]

theorem walk_node {items : List Value} {n : Nat} {seen' : List Nat}
    (htype : pdf.nameIs (d "/Type") "/Page" = false) (hkids : pdf.array? (d "/Kids") = some items)
    (hcount : pdf.integer? (d "/Count") = some (n : Int))
    (hfold : items.foldlM (walkKids pdf levels (.indirect r)) (0, r :: seen) = some (n, seen')) :
    walk pdf (levels + 1) (.indirect r) parent seen = some (n, seen') := by
  have hdict : pdf.dict? (.indirect r) = some d := by
    rw [Pdf.dict?, Pdf.resolve, hd]
  have henter : enter seen (.indirect r) = some (r :: seen) := if_neg hseen
  have hloop : items.foldlM (fun (acc : Nat × List Nat) kid => do
      let (n, seen) ← walk pdf levels kid (some (.indirect r)) acc.2
      some (acc.1 + n, seen)) (0, r :: seen) = some (n, seen') := hfold
  simp only [walk, hdict, henter, hparent, htype, hkids, Option.bind_eq_bind, Option.bind_some,
    Bool.not_true, Bool.false_eq_true, if_false]
  simp only [Option.bind_eq_bind] at hloop
  rw [hloop, Option.bind_some, if_pos hcount]

end Walk

/-- A walk over a tree finds its leaves and notes its nodes. -/
def Walked (t : Tree height) (seen : List Nat) (result : Option (Nat × List Nat)) : Prop :=
  ∃ seen', result = some (t.leaves.length, seen') ∧ ∀ i, i ∈ seen' ↔ i ∈ t.ids ∨ i ∈ seen

/-- The walk over the kids meets the pages of each, in order. -/
theorem foldlM_walkKids {levels : Nat} {node : Value} {kids : List (Tree height)}
    (hkids : ∀ u ∈ kids, ∀ seen, (∀ i ∈ u.ids, i ∉ seen) →
      Walked u seen (walk pdf levels (.indirect u.root) (some node) seen))
    (hnodup : (kids.flatMap Tree.ids).Nodup) (n : Nat) {seen : List Nat}
    (hseen : ∀ i ∈ kids.flatMap Tree.ids, i ∉ seen) :
    ∃ seen', ((kids.map Tree.root).map Value.indirect).foldlM (walkKids pdf levels node) (n, seen) =
        some (n + (kids.flatMap Tree.leaves).length, seen') ∧
      ∀ i, i ∈ seen' ↔ i ∈ kids.flatMap Tree.ids ∨ i ∈ seen := by
  induction kids generalizing n seen with
  | nil => exact ⟨seen, rfl, fun i => by simp⟩
  | cons u kids ih =>
      rw [List.flatMap_cons] at hnodup
      obtain ⟨-, hrest, hdisj⟩ := List.nodup_append'.mp hnodup
      simp only [List.flatMap_cons, List.mem_append] at hseen
      obtain ⟨seen₁, hwalk, hmem⟩ := hkids u List.mem_cons_self seen fun i hi =>
        hseen i (Or.inl hi)
      have hseen₁ : ∀ i ∈ kids.flatMap Tree.ids, i ∉ seen₁ := by
        intro i hi hin
        obtain hin | hin := (hmem i).mp hin
        · exact hdisj hin hi
        · exact hseen i (Or.inr hi) hin
      obtain ⟨seen', hfold, hmem'⟩ := ih (fun v hv => hkids v (List.mem_cons_of_mem _ hv)) hrest
        (n + u.leaves.length) hseen₁
      have hone : walkKids pdf levels node (n, seen) (.indirect u.root) =
          some (n + u.leaves.length, seen₁) := by
        simp [walkKids, hwalk]
      refine ⟨seen', ?_, fun i => ?_⟩
      · rw [List.map_cons, List.map_cons, List.foldlM_cons, hone, Option.bind_eq_bind,
          Option.bind_some, hfold, List.flatMap_cons, List.length_append, Nat.add_assoc]
      · rw [hmem', hmem, List.flatMap_cons, List.mem_append, or_left_comm, or_assoc]

/-- The walk over a tree that a file holds finds its leaves. -/
theorem walk_of_holds {t : Tree height} (h : Holds pdf t) (hnodup : t.ids.Nodup) {levels : Nat}
    (hlevels : height < levels) {parent : Option Value} {seen : List Nat}
    (hseen : ∀ i ∈ t.ids, i ∉ seen) {d : Entries} (hd : pdf.objects t.root = .dictionary d)
    (hparent : parentFits pdf d parent = true) :
    Walked t seen (walk pdf levels (.indirect t.root) parent seen) := by
  obtain ⟨levels, rfl⟩ : ∃ l, levels = l + 1 := ⟨levels - 1, by omega⟩
  induction height generalizing levels parent seen d with
  | zero =>
      obtain ⟨d', hd', htype⟩ := h
      obtain rfl : d = d' := Value.dictionary.inj (hd.symm.trans hd')
      refine ⟨_, walk_page hd (hseen _ t.root_mem_ids) hparent htype, fun i => ?_⟩
      exact List.mem_cons.trans (or_congr_left List.mem_singleton.symm)
  | succ height ih =>
      obtain ⟨r, kids⟩ := t
      obtain ⟨⟨d', hd', htype, hkids, hcount⟩, -, hsub⟩ := h
      obtain rfl : d = d' := Value.dictionary.inj (hd.symm.trans hd')
      obtain ⟨levels, rfl⟩ : ∃ l, levels = l + 1 := ⟨levels - 1, by omega⟩
      obtain ⟨hr, hnodup⟩ := List.nodup_cons.mp hnodup
      have hone : ∀ u ∈ kids, ∀ seen, (∀ i ∈ u.ids, i ∉ seen) →
          Walked u seen (walk pdf (levels + 1) (.indirect u.root) (some (.indirect r)) seen) := by
        intro u hu seen hseen
        obtain ⟨hparent, hholds⟩ := hsub u hu
        obtain ⟨d', hd''⟩ := hholds.top.dictionary
        refine ih hholds ((List.nodup_flatMap.mp hnodup).1 u hu) hseen hd'' ?_ _ (by omega)
        have hkey : d' "/Parent" = .indirect r := by
          rw [Pdf.getKey, hd''] at hparent
          exact hparent
        have hdict : pdf.dict? (.indirect r) = some d := by
          rw [Pdf.dict?, Pdf.resolve, hd']
        simp [parentFits, hkey, hdict, Value.id?]
      have hfresh : ∀ i ∈ kids.flatMap Tree.ids, i ∉ r :: seen := by
        intro i hi hin
        obtain rfl | hin := List.mem_cons.mp hin
        · exact hr hi
        · exact hseen i (List.mem_cons_of_mem _ hi) hin
      obtain ⟨seen', hfold, hmem⟩ := foldlM_walkKids hone hnodup 0 hfresh
      rw [Nat.zero_add] at hfold
      refine ⟨seen', walk_node hd (hseen _ List.mem_cons_self) hparent ?_ ?_ ?_ hfold, fun i => ?_⟩
      · simp [htype, Pdf.nameIs, Pdf.resolve]
      · rw [hkids]
        rfl
      · rw [hcount]
        rfl
      · rw [hmem, List.mem_cons]
        exact or_left_comm.trans (or_assoc.symm.trans (or_congr_left List.mem_cons.symm))

/-- The library finds pages that differ and are pages; object numbers have 32 bits and a sign. -/
def Qpdf.Lawful (q : Qpdf) : Prop :=
  ∀ pdf, (q.getAllPages pdf).2.Nodup ∧
    ∀ p ∈ (q.getAllPages pdf).2, p < 2 ^ 31 ∧ IsPage (q.getAllPages pdf).1 p

/-- The pages are the leaves of the page tree, in order; its root has no parent. -/
def Rebuilt (pdf : Pdf) (pages : List Nat) : Prop :=
  ∃ (height : Nat) (t : Tree (height + 1)), Holds pdf t ∧ t.ids.Nodup ∧ t.leaves = pages ∧
    pdf.pages = .indirect t.root ∧ pdf.getKey t.root "/Parent" = .null

/-- Rebuilding changes nothing. -/
def Stable (q : Qpdf) (pdf : Pdf) : Prop :=
  oversized pdf = false ∧ inconsistent pdf = false ∧ rebalancePageTree q pdf = (pdf, false)

/-- The file whose pages the tree is rebuilt over, and its pages. -/
def Qpdf.readPages (q : Qpdf) (pdf : Pdf) : Pdf × List Nat :=
  q.getAllPages (q.pushInheritedAttributesToPage pdf)

theorem keeps_pages (pdf : Pdf) (v : Value) : Keeps (fun _ => False) pdf { pdf with pages := v } :=
  ⟨le_rfl, fun _ => .same rfl, fun _ _ _ => rfl⟩

/-- A tree over few enough pages is walked over. -/
theorem consistent_of_holds {k : Nat} {t : Tree (k + 1)} (h : Holds pdf t) (hnodup : t.ids.Nodup)
    (hpages : pdf.pages = .indirect t.root) (hk : k < kMaxObjectWalk) (hne : t.leaves ≠ []) :
    inconsistent pdf = false := by
  obtain ⟨d, hd⟩ := h.top.dictionary
  have hdict : pdf.dict? (.indirect t.root) = some d := by
    rw [Pdf.dict?, Pdf.resolve, hd]
  have hwalked : Walked t [] (walk pdf (kMaxObjectWalk + 1) (.indirect t.root) none []) :=
    walk_of_holds h hnodup (by omega) (fun i _ => List.not_mem_nil) hd rfl
  obtain ⟨seen, hwalk, -⟩ := hwalked
  rw [inconsistent, hpages, hdict]
  simp only [hwalk]
  simpa using hne

/-- Pages with numbers of 31 bits that differ are not more than 1024⁴. -/
theorem length_le_of_nodup {pages : List Nat} (hnodup : pages.Nodup)
    (hlt : ∀ p ∈ pages, p < 2 ^ 31) : pages.length ≤ kFanout ^ (3 + 1) := by
  have hsub : pages.toFinset ⊆ Finset.range (2 ^ 31) := by
    intro p hp
    exact Finset.mem_range.mpr (hlt p (List.mem_toFinset.mp hp))
  have hcard := Finset.card_le_card hsub
  rw [List.toFinset_card_of_nodup hnodup, Finset.card_range] at hcard
  exact hcard.trans (by norm_num [kFanout])

theorem oversized_eq {changed : Nat → Prop} (hk : Keeps changed pdf pdf')
    (hsmall : ∀ i, pdf.size ≤ i → oversizedAt pdf' i = false) : oversized pdf' = oversized pdf := by
  rw [Bool.eq_iff_iff, oversized, oversized, List.any_eq_true, List.any_eq_true]
  simp only [List.mem_range]
  constructor
  · rintro ⟨i, -, hi⟩
    by_cases hlt : i < pdf.size
    · exact ⟨i, hlt, (hk.oversizedAt hlt).symm.trans hi⟩
    · rw [hsmall i (by omega)] at hi
      cases hi
  · rintro ⟨i, hlt, hi⟩
    exact ⟨i, lt_of_lt_of_le hlt hk.size, (hk.oversizedAt hlt).trans hi⟩

/-- What a rebuilt file holds, and whether any of its objects has too many kids. -/
theorem rebuild_spec {pages : List Nat} (hnodup : pages.Nodup) (hne : pages ≠ [])
    (hpages : ∀ p ∈ pages, p < 2 ^ 31 ∧ IsPage pdf p) :
    Rebuilt (rebuild pdf pages) pages ∧ inconsistent (rebuild pdf pages) = false ∧
      oversized (rebuild pdf pages) = oversized pdf := by
  -- The pages are the trees of height zero.
  have hroots : pages.map (@Tree.root 0) = pages := List.map_id pages
  have hids : pages.flatMap (@Tree.ids 0) = pages := List.flatMap_singleton' pages
  have hleaves : pages.flatMap (@Tree.leaves 0) = pages := List.flatMap_singleton' pages
  have htrees : ∀ p ∈ pages, @Holds pdf 0 p := fun p hp => (hpages p hp).2
  obtain ⟨k, t, hbuilt⟩ := @exists_built 0 pdf pages htrees (hids.symm ▸ hnodup) hne
  rw [hroots] at hbuilt
  have hk := hbuilt.levels 3 (length_le_of_nodup hnodup fun p hp => (hpages p hp).1)
  obtain ⟨changed, hkeeps⟩ := hbuilt.keeps
  have hrebuild : rebuild pdf pages =
      { (build pdf pages).1.replaceKey t.root "/Parent" .null with pages := .indirect t.root } := by
    rw [rebuild]
    have hroot := hbuilt.root
    generalize build pdf pages = built at hroot ⊢
    obtain ⟨p, roots⟩ := built
    rw [show roots = [t.root] from hroot]
  have hlast := (keeps_replaceParent (build pdf pages).1 t.root .null).trans
    (keeps_pages _ (.indirect t.root))
  rw [← hrebuild] at hlast
  have hnodup' := hbuilt.nodup
  rw [Tree.ids_eq] at hnodup'
  have hholds : Holds (rebuild pdf pages) t := hbuilt.holds.keeps hlast fun i hi hroot => by
    obtain rfl := hroot.resolve_right id
    exact (List.nodup_cons.mp hnodup').1 hi
  have hpagesKey : (rebuild pdf pages).pages = .indirect t.root := by rw [hrebuild]
  have htree : t.leaves = pages := hbuilt.leaves.trans hleaves
  refine ⟨⟨k, t, hholds, hbuilt.nodup, htree, hpagesKey, ?_⟩, ?_, ?_⟩
  · obtain ⟨d, hd⟩ := hbuilt.holds.top.dictionary
    have hself := objects_replaceKey_self (k := "/Parent") (v := .null) hd
    rw [hrebuild]
    exact (getKey_of_dictionary hself _).trans (Function.update_self _ _ _)
  · exact consistent_of_holds hholds hbuilt.nodup hpagesKey (by rw [kMaxObjectWalk]; omega)
      (by rw [htree]; exact hne)
  · refine oversized_eq (hkeeps.trans hlast) fun i hi => ?_
    by_cases hlt : i < (build pdf pages).1.size
    · rw [hlast.oversizedAt hlt]
      exact hbuilt.small i hi
    · refine oversizedAt_of_size_le ?_
      have hsize : (rebuild pdf pages).size = (build pdf pages).1.size := by
        rw [hrebuild]
        exact size_replaceKey
      omega

/-- A rebuilt page tree has the pages as its leaves, in order, with the kids, counts and parents
it should have; rebuilding it again changes nothing exactly if no object of the file was a node
with more than 8191 kids. -/
theorem rebuilt_stable_iff (q : Qpdf) (hq : q.Lawful) (pdf : Pdf)
    (h : (rebalancePageTree q pdf).2 = true) :
    Rebuilt (rebalancePageTree q pdf).1 (q.readPages pdf).2 ∧
      (Stable q (rebalancePageTree q pdf).1 ↔ oversized (q.readPages pdf).1 = false) := by
  obtain ⟨hnodup, hpages⟩ := hq (q.pushInheritedAttributesToPage pdf)
  have hrebalance : (q.readPages pdf).2 ≠ [] ∧
      (rebalancePageTree q pdf).1 = rebuild (q.readPages pdf).1 (q.readPages pdf).2 := by
    rw [rebalancePageTree] at h ⊢
    split at h
    · cases h
    · rename_i hneeded
      rw [if_neg hneeded]
      dsimp only at h ⊢
      split at h
      · cases h
      · rename_i hne
        rw [if_neg hne]
        exact ⟨hne, rfl⟩
  obtain ⟨hne, hresult⟩ := hrebalance
  obtain ⟨hrebuilt, hconsistent, hover⟩ := rebuild_spec hnodup hne hpages
  rw [hresult]
  refine ⟨hrebuilt, ?_⟩
  constructor
  · rintro ⟨hsmall, -, -⟩
    exact hover.symm.trans hsmall
  · intro hsmall
    have hsmall' := hover.trans hsmall
    refine ⟨hsmall', hconsistent, ?_⟩
    rw [rebalancePageTree]
    refine if_pos ?_
    rw [Bool.and_eq_true, Bool.not_eq_true', Bool.not_eq_true']
    exact ⟨hsmall', hconsistent⟩

/-- Tests for a page. -/
def isPage (pdf : Pdf) (id : Nat) : Bool :=
  match pdf.objects id with
  | .dictionary d => pdf.nameIs (d "/Type") "/Page"
  | _ => false

theorem isPage_iff (pdf : Pdf) (id : Nat) : isPage pdf id = true ↔ IsPage pdf id := by
  rw [isPage, IsPage]
  cases pdf.objects id <;> simp

/-- Pages in the order of their numbers. -/
def plainLibrary : Qpdf where
  pushInheritedAttributesToPage := id
  getAllPages pdf := (pdf, (List.range (min pdf.size (2 ^ 31))).filter (isPage pdf))

theorem plainLibrary_lawful : plainLibrary.Lawful := by
  intro pdf
  refine ⟨List.nodup_range.filter _, fun p hp => ?_⟩
  obtain ⟨hlt, hpage⟩ := List.mem_filter.mp hp
  have hmin := List.mem_range.mp hlt
  exact ⟨by omega, (isPage_iff pdf p).mp hpage⟩

/-- A node above some pages, with a count. -/
def flatFile (n count : Nat) : Pdf where
  size := n + 1
  objects id :=
    if id = 0 then
      .dictionary fun k =>
        if k = "/Type" then .name "/Pages"
        else if k = "/Kids" then .array ((List.range n).map fun i => .indirect (i + 1))
        else if k = "/Count" then .integer count
        else .null
    else if id ≤ n then
      .dictionary fun k =>
        if k = "/Type" then .name "/Page"
        else if k = "/Parent" then .indirect 0
        else .null
    else .null
  fresh := by
    intro id hid
    rw [if_neg (by omega), if_neg (by omega)]
  pages := .indirect 0

/-- A small tree with a wrong count is rebuilt once. -/
theorem flatFile_stable :
    Rebuilt (rebalancePageTree plainLibrary (flatFile 2 5)).1 [1, 2] ∧
      Stable plainLibrary (rebalancePageTree plainLibrary (flatFile 2 5)).1 := by
  have hrebuilt : (rebalancePageTree plainLibrary (flatFile 2 5)).2 = true := by decide
  obtain ⟨htree, hstable⟩ := rebuilt_stable_iff plainLibrary plainLibrary_lawful (flatFile 2 5)
    hrebuilt
  exact ⟨htree, hstable.mpr (by decide)⟩

/-- A large flat tree is rebuilt, and its old root is still an object of the file. -/
theorem flatFile_oversized {n : Nat} (hn : kMaxArray < n) :
    (rebalancePageTree plainLibrary (flatFile n n)).2 = true ∧
      oversized (rebalancePageTree plainLibrary (flatFile n n)).1 = true := by
  have hpage : isPage (flatFile n n) 1 = true := by
    have hle : 1 ≤ n := by omega
    simp [isPage, flatFile, hle, Pdf.nameIs, Pdf.resolve]
  have hone : 1 ∈ (plainLibrary.readPages (flatFile n n)).2 :=
    List.mem_filter.mpr ⟨List.mem_range.mpr (lt_min (Nat.succ_lt_succ (by omega)) (by norm_num)),
      hpage⟩
  have hne : (plainLibrary.readPages (flatFile n n)).2 ≠ [] := List.ne_nil_of_mem hone
  have hover : oversized (flatFile n n) = true := by
    refine List.any_eq_true.mpr ⟨0, List.mem_range.mpr (Nat.succ_pos n), ?_⟩
    simp [oversizedAt, flatFile, Pdf.nameIs, Pdf.array?, Pdf.resolve, hn]
  have hresult : rebalancePageTree plainLibrary (flatFile n n) =
      (rebuild (flatFile n n) (plainLibrary.readPages (flatFile n n)).2, true) := by
    rw [rebalancePageTree, hover]
    exact if_neg hne
  obtain ⟨hnodup, hpages⟩ := plainLibrary_lawful (flatFile n n)
  rw [hresult]
  exact ⟨rfl, (rebuild_spec hnodup hne hpages).2.2.trans hover⟩

/-- Over 8192 pages a flat tree is rebuilt again and again. -/
theorem flatFile_unstable :
    (rebalancePageTree plainLibrary (flatFile 8192 8192)).2 = true ∧
      ¬ Stable plainLibrary (rebalancePageTree plainLibrary (flatFile 8192 8192)).1 := by
  have hlong : kMaxArray < 8192 := by decide
  obtain ⟨hrebuilt, hover⟩ := flatFile_oversized hlong
  refine ⟨hrebuilt, fun hstable => ?_⟩
  exact absurd (hstable.1.symm.trans hover) Bool.false_ne_true

end Kura.Engine.PageTree
