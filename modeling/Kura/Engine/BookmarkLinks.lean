import Kura.Engine.BookmarkTree

/-!
# What the outline of the headings is

The entries of the outline are the headings in their order. The parent of an entry
is the nearest earlier one on a level less deep, and the links and the counts are
those of the tree that this makes.
-/

namespace Kura.Engine.Bookmarks

def levelAt (hs : List Heading) (i : Nat) : Int := (hs[i]?.map Heading.level).getD 0

/-- The nearest earlier heading on a level less deep. -/
def parentOf (hs : List Heading) (i : Nat) : Option Nat :=
  ((List.range i).filter fun j => levelAt hs j < levelAt hs i).getLast?

/-- The headings with a parent, or with none. -/
def children (hs : List Heading) (p : Option Nat) : List Nat :=
  (List.range hs.length).filter fun j => parentOf hs j = p

/-- The child of the same parent before a heading. -/
def prevSibling (hs : List Heading) (i : Nat) : Option Nat :=
  ((children hs (parentOf hs i)).filter (· < i)).getLast?

/-- The child of the same parent behind a heading. -/
def nextSibling (hs : List Heading) (i : Nat) : Option Nat :=
  ((children hs (parentOf hs i)).filter (i < ·)).head?

/-- The object of the heading at a place, behind an outline. -/
def entry (outlines i : Nat) : Nat := outlines + 1 + i

/-- The object of a parent. -/
def parentEntry (outlines : Nat) (p : Option Nat) : Nat := (p.map (entry outlines)).getD outlines

def entryDict (pages : Pages) (hs : List Heading) (outlines i : Nat) : Dict where
  title := hs[i]?.map Heading.title
  dest := hs[i]?.map fun h => pages.at h.page
  parent := some (parentEntry outlines (parentOf hs i))
  first := (children hs (some i)).head?.map (entry outlines)
  last := (children hs (some i)).getLast?.map (entry outlines)
  prev := (prevSibling hs i).map (entry outlines)
  next := (nextSibling hs i).map (entry outlines)
  count := if children hs (some i) = [] then none else some (-(children hs (some i)).length)

def outlineDict (hs : List Heading) (outlines : Nat) : Dict where
  type := some "/Outlines"
  first := (children hs none).head?.map (entry outlines)
  last := (children hs none).getLast?.map (entry outlines)
  count := some (children hs none).length

/-- The entries from one on, each before the ones below it and those before the ones behind it. -/
def walk (objects : Nat → Dict) : Nat → Option Nat → List Nat
  | fuel + 1, some id =>
      id :: (walk objects fuel (objects id).first ++ walk objects fuel (objects id).next)
  | _, _ => []

variable {hs : List Heading}

/-- The last index that passes a filter is the greatest one. -/
theorem getLast?_filter_range {p : Nat → Bool} {n q : Nat} :
    ((List.range n).filter p).getLast? = some q ↔
      q < n ∧ p q = true ∧ ∀ j, q < j → j < n → p j = false := by
  induction n with
  | zero => simp
  | succ n ih =>
      rw [List.range_succ, List.filter_append, List.filter_singleton]
      cases hn : p n with
      | true =>
          rw [cond_true, List.getLast?_concat, Option.some_inj]
          constructor
          · rintro rfl
            exact ⟨Nat.lt_succ_self _, hn, fun j hj hlt => by omega⟩
          · rintro ⟨hq, -, hafter⟩
            by_contra hne
            rw [hafter n (by omega) (Nat.lt_succ_self n)] at hn
            cases hn
      | false =>
          rw [cond_false, List.append_nil, ih]
          constructor
          · rintro ⟨hq, hpq, hafter⟩
            refine ⟨by omega, hpq, fun j hj hlt => ?_⟩
            obtain hlt | rfl := Nat.lt_or_eq_of_le (Nat.le_of_lt_succ hlt)
            · exact hafter j hj hlt
            · exact hn
          · rintro ⟨hq, hpq, hafter⟩
            have hne : q ≠ n := fun h => by
              rw [h, hn] at hpq
              cases hpq
            exact ⟨by omega, hpq, fun j hj hlt => hafter j hj (by omega)⟩

theorem parentOf_eq_some_iff {i q : Nat} :
    parentOf hs i = some q ↔ q < i ∧ levelAt hs q < levelAt hs i ∧
      ∀ j, q < j → j < i → levelAt hs i ≤ levelAt hs j := by
  rw [parentOf, getLast?_filter_range]
  simp only [decide_eq_true_eq, decide_eq_false_iff_not, not_lt]

theorem parentOf_eq_none_iff {i : Nat} :
    parentOf hs i = none ↔ ∀ j, j < i → levelAt hs i ≤ levelAt hs j := by
  rw [parentOf, List.getLast?_eq_none_iff, List.filter_eq_nil_iff]
  simp only [List.mem_range, decide_eq_true_eq, not_lt]

/-- The parent is what bounds the deeper levels before a heading. -/
theorem parentOf_eq {i : Nat} {q : Option Nat}
    (hq : ∀ m ∈ q, m < i ∧ levelAt hs m < levelAt hs i)
    (hbetween : ∀ j, j < i → (∀ m ∈ q, m < j) → levelAt hs i ≤ levelAt hs j) :
    parentOf hs i = q := by
  cases q with
  | none => exact parentOf_eq_none_iff.mpr fun j hj => hbetween j hj fun m hm => by cases hm
  | some m =>
      obtain ⟨hm, hlevel⟩ := hq m rfl
      exact parentOf_eq_some_iff.mpr ⟨hm, hlevel, fun j hmj hj =>
        hbetween j hj fun m' hm' => by cases hm'; exact hmj⟩

theorem children_pairwise (p : Option Nat) : (children hs p).Pairwise (· < ·) :=
  List.pairwise_lt_range.filter _

/-- The siblings of an entry are the ones around it. -/
theorem siblings_eq {i : Nat} {before behind : List Nat} {q : Option Nat} (hq : parentOf hs i = q)
    (h : children hs q = before ++ i :: behind) :
    prevSibling hs i = before.getLast? ∧ nextSibling hs i = behind.head? := by
  subst hq
  have hsorted := @children_pairwise hs (parentOf hs i)
  rw [h, List.pairwise_append, List.pairwise_cons] at hsorted
  obtain ⟨-, ⟨hbehind, -⟩, hbefore⟩ := hsorted
  have hlt : ∀ j ∈ before, j < i := fun j hj => hbefore j hj i List.mem_cons_self
  rw [prevSibling, nextSibling, h, List.filter_append, List.filter_append]
  constructor
  · rw [List.filter_eq_self.mpr fun j hj => decide_eq_true (hlt j hj),
      List.filter_eq_nil_iff.mpr, List.append_nil]
    intro j hj
    obtain rfl | hj := List.mem_cons.mp hj
    · simp
    · have hij := hbehind j hj
      simp only [decide_eq_true_eq]
      omega
  · rw [List.filter_eq_nil_iff.mpr, List.nil_append, List.filter_cons_of_neg (by simp),
      List.filter_eq_self.mpr fun j hj => decide_eq_true (hbehind j hj)]
    intro j hj
    have hji := hlt j hj
    simp only [decide_eq_true_eq]
    omega

namespace OutlineNodes

/-- The places of the nodes of a vector, from the place of the first. -/
def roots : Nat → OutlineNodes → List Nat
  | _, nil => []
  | b, cons _ kids rest => b :: roots (b + 1 + kids.total) rest

theorem length_preorder (nodes : OutlineNodes) : nodes.preorder.length = nodes.total := by
  induction nodes with
  | nil => rfl
  | cons h kids rest ihk ihr =>
      rw [preorder, total, List.length_cons, List.length_append, ihk, ihr]
      omega

theorem length_roots (b : Nat) (nodes : OutlineNodes) : (nodes.roots b).length = nodes.length := by
  induction nodes generalizing b with
  | nil => rfl
  | cons h kids rest _ ihr => rw [roots, length, List.length_cons, ihr]

theorem roots_eq_nil_iff {b : Nat} {nodes : OutlineNodes} : nodes.roots b = [] ↔ nodes = nil := by
  cases nodes with
  | nil => exact iff_of_true rfl rfl
  | cons h kids rest => exact iff_of_false (List.cons_ne_nil _ _) (fun h => by cases h)

theorem roots_add (c b : Nat) (nodes : OutlineNodes) :
    nodes.roots (c + b) = (nodes.roots b).map (c + ·) := by
  induction nodes generalizing b with
  | nil => rfl
  | cons h kids rest _ ihr =>
      rw [roots, roots, List.map_cons, ← ihr, Nat.add_assoc c, Nat.add_assoc c]

/-- The nodes from a place on are the headings from there on, and they have the parents and
children that the levels give them. -/
def Placed (hs : List Heading) : Option Nat → Nat → OutlineNodes → Prop
  | _, _, nil => True
  | q, b, cons h kids rest =>
      hs[b]? = some h ∧ parentOf hs b = q ∧ children hs (some b) = kids.roots (b + 1) ∧
        Placed hs (some b) (b + 1) kids ∧ Placed hs q (b + 1 + kids.total) rest

variable {q : Option Nat} {b : Nat} {nodes : OutlineNodes}

/-- The parents of nodes that stand together. -/
theorem Placed.parentOf_cases (h : nodes.Placed hs q b) {j : Nat} (hb : b ≤ j)
    (hj : j < b + nodes.total) : parentOf hs j = q ∨ ∃ m, b ≤ m ∧ parentOf hs j = some m := by
  induction nodes generalizing q b with
  | nil => simp only [total] at hj; omega
  | cons g kids rest ihk ihr =>
      obtain ⟨-, hparent, -, hkids, hrest⟩ := h
      simp only [total] at hj
      by_cases hfirst : j = b
      · exact Or.inl (hfirst ▸ hparent)
      · by_cases hin : j < b + 1 + kids.total
        · obtain hq | ⟨m, hm, hq⟩ := ihk hkids (by omega) hin
          · exact Or.inr ⟨b, le_rfl, hq⟩
          · exact Or.inr ⟨m, by omega, hq⟩
        · obtain hq | ⟨m, hm, hq⟩ := ihr hrest (by omega) (by omega)
          · exact Or.inl hq
          · exact Or.inr ⟨m, by omega, hq⟩

/-- Where nodes stand together, the ones with their parent are the nodes of the vector. -/
theorem Placed.filter_eq (h : nodes.Placed hs q b) (hq : ∀ m ∈ q, m < b) :
    ((List.range' b nodes.total).filter fun j => parentOf hs j = q) = nodes.roots b := by
  induction nodes generalizing b with
  | nil => rfl
  | cons g kids rest ihk ihr =>
      obtain ⟨-, hparent, -, hkids, hrest⟩ := h
      have hsplit : List.range' b (cons g kids rest).total =
          b :: (List.range' (b + 1) kids.total ++ List.range' (b + 1 + kids.total) rest.total) := by
        rw [List.range'_append_1, total, Nat.add_assoc, Nat.add_comm 1, List.range'_succ]
      have hbelow : ((List.range' (b + 1) kids.total).filter fun j => parentOf hs j = q) = [] := by
        refine List.filter_eq_nil_iff.mpr fun j hj => ?_
        obtain ⟨hlow, hhigh⟩ := List.mem_range'_1.mp hj
        rw [decide_eq_true_eq]
        intro hsame
        obtain hparent' | ⟨m, hm, hparent'⟩ := hkids.parentOf_cases hlow hhigh
        · have hlt := hq b (hsame.symm.trans hparent')
          omega
        · have hlt := hq m (hsame.symm.trans hparent')
          omega
      have hbehind := ihr hrest fun m hm => by have hlt := hq m hm; omega
      rw [hsplit, List.filter_cons, if_pos (decide_eq_true hparent), List.filter_append, hbelow,
        List.nil_append, hbehind, roots]

/-- The children of a heading stand behind it, down to the next one that is no deeper. -/
theorem children_eq {before behind : List Heading} {h : Heading} {kids : OutlineNodes}
    (hhs : hs = before ++ h :: (kids.preorder ++ behind)) (hb : before.length = b)
    (hkids : kids.Placed hs (some b) (b + 1)) (hstop : ∀ g ∈ behind.head?, g.level ≤ h.level) :
    children hs (some b) = kids.roots (b + 1) := by
  have hlength : hs.length = b + 1 + kids.total + behind.length := by
    rw [hhs, List.length_append, List.length_cons, List.length_append, length_preorder, hb]
    omega
  have hsplit : List.range hs.length = List.range (b + 1) ++
      (List.range' (b + 1) kids.total ++ List.range' (b + 1 + kids.total) behind.length) := by
    rw [List.range'_append_1, hlength, List.range_eq_range', List.range_eq_range', Nat.add_assoc,
      ← List.range'_append_1, Nat.zero_add]
  have hown : levelAt hs b = h.level := by
    rw [levelAt, hhs, List.getElem?_append_right (by omega), hb, Nat.sub_self]
    rfl
  have hfront : ((List.range (b + 1)).filter fun j => parentOf hs j = some b) = [] := by
    refine List.filter_eq_nil_iff.mpr fun j hj => ?_
    rw [decide_eq_true_eq]
    intro hparent
    have hlt := (parentOf_eq_some_iff.mp hparent).1
    have hle := List.mem_range.mp hj
    omega
  -- the heading behind the children would be a nearer parent
  have hback : ((List.range' (b + 1 + kids.total) behind.length).filter
      fun j => parentOf hs j = some b) = [] := by
    refine List.filter_eq_nil_iff.mpr fun j hj => ?_
    obtain ⟨hlow, hhigh⟩ := List.mem_range'_1.mp hj
    rw [decide_eq_true_eq]
    intro hparent
    obtain ⟨-, hdeeper, hbetween⟩ := parentOf_eq_some_iff.mp hparent
    obtain ⟨g, gs, rfl⟩ := List.exists_cons_of_length_pos (l := behind) (by omega)
    have hg : levelAt hs (b + 1 + kids.total) = g.level := by
      rw [levelAt, hhs, List.getElem?_append_right (by omega), hb,
        show b + 1 + kids.total - b = kids.total + 1 by omega, List.getElem?_cons_succ,
        List.getElem?_append_right (by rw [length_preorder]), length_preorder, Nat.sub_self]
      rfl
    have hle := hstop g rfl
    obtain hlt | rfl := Nat.lt_or_eq_of_le hlow
    · have hnear := hbetween _ (by omega) hlt
      omega
    · omega
  rw [children, hsplit, List.filter_append, List.filter_append, hfront, hback, List.nil_append,
    List.append_nil]
  exact hkids.filter_eq fun m hm => by cases hm; exact Nat.lt_succ_self b

/-- Headings that are nested in order have the parents that the levels give them. -/
theorem Ordered.placed {above : Option Int} (hordered : Ordered above nodes)
    {before behind : List Heading} (hhs : hs = before ++ (nodes.preorder ++ behind))
    (hb : before.length = b) (habove : q.map (levelAt hs) = above) (hq : ∀ m ∈ q, m < b)
    (hbetween : ∀ g ∈ nodes.head?, ∀ j, j < b → (∀ m ∈ q, m < j) → g.level ≤ levelAt hs j)
    (hstop : ∀ g ∈ behind.head?, ∃ l ∈ above, g.level ≤ l) : nodes.Placed hs q b := by
  induction nodes generalizing above before behind q b with
  | nil => trivial
  | cons h kids rest ihk ihr =>
      obtain ⟨hdeeper, hkids, hrest, hnext⟩ := hordered
      have hhead : hs[b]? = some h := by
        rw [hhs, List.getElem?_append_right hb.le, hb, Nat.sub_self]
        rfl
      have hown : levelAt hs b = h.level := by rw [levelAt, hhead]; rfl
      have hparent : parentOf hs b = q := by
        refine parentOf_eq (fun m hm => ⟨hq m hm, ?_⟩) fun j hj hm => ?_
        · rw [hown]
          refine hdeeper _ ?_
          rw [← habove]
          exact Option.mem_map_of_mem _ hm
        · rw [hown]
          exact hbetween h rfl j hj hm
      have hhs' : hs = before ++ h :: (kids.preorder ++ (rest.preorder ++ behind)) := by
        rw [hhs, preorder, List.cons_append, List.append_assoc]
      have hstopKids : ∀ g ∈ (rest.preorder ++ behind).head?, g.level ≤ h.level := by
        intro g hg
        cases rest with
        | nil =>
            obtain ⟨l, hl, hle⟩ := hstop g hg
            exact hle.trans (hdeeper l hl).le
        | cons g' kids' rest' => exact hnext g hg
      have hplaced : kids.Placed hs (some b) (b + 1) := by
        have hhsKids : hs = (before ++ [h]) ++ (kids.preorder ++ (rest.preorder ++ behind)) := by
          rw [hhs', List.append_assoc, List.singleton_append]
        refine ihk hkids hhsKids ?_ ?_ ?_ ?_ ?_
        · rw [List.length_append, hb, List.length_singleton]
        · rw [Option.map_some, hown]
        · exact fun m hm => by cases hm; exact Nat.lt_succ_self b
        · intro g _ j hj hm
          have hbj := hm b rfl
          omega
        · exact fun g hg => ⟨h.level, rfl, hstopKids g hg⟩
      refine ⟨hhead, hparent, children_eq hhs' hb hplaced hstopKids, hplaced, ?_⟩
      have hhsRest : hs = (before ++ h :: kids.preorder) ++ (rest.preorder ++ behind) := by
        rw [hhs', List.append_assoc, List.cons_append]
      refine ihr hrest hhsRest ?_ habove ?_ ?_ hstop
      · rw [List.length_append, List.length_cons, length_preorder, hb]
        omega
      · exact fun m hm => by have hlt := hq m hm; omega
      · intro g hg j hj hm
        have hle := hnext g hg
        obtain hlt | rfl | hgt := Nat.lt_trichotomy j b
        · exact hle.trans (hbetween h rfl j hlt hm)
        · rw [hown]
          exact hle
        · have hmem : ∃ g' ∈ kids.preorder, levelAt hs j = g'.level := by
            have hin : j - (b + 1) < kids.preorder.length := by
              rw [length_preorder]
              omega
            refine ⟨kids.preorder[j - (b + 1)], List.getElem_mem hin, ?_⟩
            rw [levelAt, hhs', List.getElem?_append_right (by omega), hb,
              show j - b = j - (b + 1) + 1 by omega, List.getElem?_cons_succ,
              List.getElem?_append_left hin, List.getElem?_eq_getElem hin]
            rfl
          obtain ⟨g', hg', hlevel⟩ := hmem
          rw [hlevel]
          exact hle.trans (hkids.lt_level g' hg').le

end OutlineNodes

namespace OutlineNodes

/-- The nodes from the object `b` on are linked to each other, to what they stand below and to
the entry before them. -/
def Holds (pages : Pages) (objects : Nat → Dict) (parent : Nat) :
    Option Nat → Nat → OutlineNodes → Prop
  | _, _, nil => True
  | prev, b, cons h kids rest =>
      objects b =
          { title := some h.title
            dest := some (pages.at h.page)
            parent := some parent
            first := (kids.roots (b + 1)).head?
            last := (kids.roots (b + 1)).getLast?
            prev
            next := (rest.roots (b + 1 + kids.total)).head?
            count := if kids = nil then none else some (-kids.length) } ∧
        Holds pages objects b none (b + 1) kids ∧
        Holds pages objects parent (some b) (b + 1 + kids.total) rest

theorem Holds.congr {pages : Pages} {objects objects' : Nat → Dict} {parent b : Nat}
    {prev : Option Nat} {nodes : OutlineNodes} (h : nodes.Holds pages objects parent prev b)
    (hsame : ∀ id, b ≤ id → id < b + nodes.total → objects' id = objects id) :
    nodes.Holds pages objects' parent prev b := by
  induction nodes generalizing parent prev b with
  | nil => trivial
  | cons g kids rest ihk ihr =>
      obtain ⟨hfirst, hkids, hrest⟩ := h
      simp only [total] at hsame
      refine ⟨?_, ihk hkids fun id hlow hhigh => ?_, ihr hrest fun id hlow hhigh => ?_⟩
      · rw [hsame b le_rfl (by omega)]
        exact hfirst
      · exact hsame id (by omega) (by omega)
      · exact hsame id (by omega) (by omega)

end OutlineNodes

section Links

variable {pages : Pages} {pdf : Pdf} {it parent : Nat} {prev : Option Nat}

@[simp]
theorem size_link : (link pdf it parent prev).size = pdf.size := by
  cases prev <;> rfl

theorem link_it (hparent : parent ≠ it) (hprev : ∀ p ∈ prev, p ≠ it) :
    (link pdf it parent prev).objects it =
      { pdf.objects it with parent := some parent, prev := prev.or (pdf.objects it).prev } := by
  cases prev with
  | none => simp [link, Pdf.modify, hparent.symm]
  | some p => simp [link, Pdf.modify, hparent.symm, (hprev p rfl).symm]

theorem link_parent (hparent : parent ≠ it) (hprev : ∀ p ∈ prev, p ≠ parent) :
    (link pdf it parent prev).objects parent =
      { pdf.objects parent with
        first := if prev.isNone then some it else (pdf.objects parent).first
        last := some it } := by
  cases prev with
  | none => simp [link, Pdf.modify, hparent]
  | some p => simp [link, Pdf.modify, hparent, (hprev p rfl).symm]

theorem link_prev {p : Nat} (hp : p ≠ it) (hparent : p ≠ parent) :
    (link pdf it parent (some p)).objects p = { pdf.objects p with next := some it } := by
  simp [link, Pdf.modify, hp, hparent]

theorem link_of_ne {id : Nat} (hit : id ≠ it) (hparent : id ≠ parent) (hprev : id ∉ prev) :
    (link pdf it parent prev).objects id = pdf.objects id := by
  cases prev with
  | none => simp [link, Pdf.modify, hit, hparent]
  | some p =>
      have hne : id ≠ p := fun h => hprev (congrArg some h.symm)
      simp [link, Pdf.modify, hit, hparent, hne]

/-- What linking a vector does to the objects. -/
structure Linked (pages : Pages) (parent : Nat) (prev : Option Nat) (nodes : OutlineNodes)
    (pdf : Pdf) (r : Pdf × Int) : Prop where
  count : r.2 = nodes.length
  size : r.1.size = pdf.size + nodes.total
  holds : nodes.Holds pages r.1.objects parent prev pdf.size
  parentDict : r.1.objects parent =
    { pdf.objects parent with
      first := if prev.isNone then (nodes.roots pdf.size).head?.or (pdf.objects parent).first
        else (pdf.objects parent).first
      last := (nodes.roots pdf.size).getLast?.or (pdf.objects parent).last }
  prevDict : ∀ p ∈ prev, r.1.objects p =
    { pdf.objects p with next := (nodes.roots pdf.size).head?.or (pdf.objects p).next }
  others : ∀ id, id < pdf.size → id ≠ parent → id ∉ prev → r.1.objects id = pdf.objects id

/-- The nodes written for a list of headings are linked as the list says. -/
theorem linkOutline_linked (nodes : OutlineNodes) (hparent : parent < pdf.size)
    (hprev : ∀ p ∈ prev, p < pdf.size ∧ p ≠ parent) :
    Linked pages parent prev nodes pdf (linkOutline pages parent nodes prev pdf) := by
  induction nodes generalizing parent prev pdf with
  | nil =>
      refine ⟨rfl, rfl, trivial, ?_, fun p hp => ?_, fun _ _ _ _ => rfl⟩
      · cases prev <;> rfl
      · rfl
  | cons h kids rest ihk ihr =>
      rw [linkOutline]
      set it := pdf.size with hit
      set made := link (outlineItem pdf h.title (pages.at h.page)) it parent prev with hmade
      have hsize : made.size = it + 1 := size_link
      have hne : parent ≠ it := hparent.ne
      have hnePrev : ∀ p ∈ prev, p ≠ it := fun p hp => (hprev p hp).1.ne
      have hitem : ∀ id, id ≠ it →
          (outlineItem pdf h.title (pages.at h.page)).objects id = pdf.objects id :=
        fun id hid => Function.update_of_ne hid _ _
      have hsub := @ihk made it none (by omega) (fun p hp => by cases hp)
      set sub := linkOutline pages it kids none made with hsubEq
      set counted := if sub.2 ≠ 0 then sub.1.modify it fun d => { d with count := some (-sub.2) }
        else sub.1 with hcounted
      have hsizeCounted : counted.size = it + 1 + kids.total := by
        have hsame : counted.size = sub.1.size := by
          rw [hcounted]
          split <;> rfl
        rw [hsame, hsub.size, hsize]
      have hcountedNe : ∀ id, id ≠ it → counted.objects id = sub.1.objects id := by
        intro id hid
        rw [hcounted]
        split
        · exact Function.update_of_ne hid _ _
        · rfl
      have hmore := @ihr counted parent (some it) (by omega)
        (fun p hp => by cases hp; exact ⟨by omega, hne.symm⟩)
      set more := linkOutline pages parent rest (some it) counted with hmoreEq
      -- an object that was there is only touched if it is the parent or the entry before
      have hold : ∀ id, id < it → counted.objects id = made.objects id := by
        intro id hid
        rw [hcountedNe id hid.ne]
        exact hsub.others id (by omega) hid.ne fun hmem => by cases hmem
      have hitDict : counted.objects it =
          { title := some h.title
            dest := some (pages.at h.page)
            parent := some parent
            first := (kids.roots (it + 1)).head?
            last := (kids.roots (it + 1)).getLast?
            prev
            count := if kids = .nil then none else some (-kids.length) } := by
        have hnew : made.objects it =
            { title := some h.title
              dest := some (pages.at h.page)
              parent := some parent
              prev } := by
          rw [hmade, link_it hne hnePrev]
          simp [outlineItem, Pdf.makeIndirectObject, hit]
        have hlinked := hsub.parentDict
        rw [hnew, hsize] at hlinked
        simp only [Option.isNone_none, if_true, Option.or_none] at hlinked
        rw [hcounted, hsub.count]
        cases kids with
        | nil => simpa [OutlineNodes.length] using hlinked
        | cons g ks ks' =>
            have hpos : ((OutlineNodes.cons g ks ks').length : Int) ≠ 0 := by
              rw [OutlineNodes.length]
              omega
            rw [if_pos hpos, if_neg (fun hnil => by cases hnil)]
            simp only [Pdf.modify, Function.update_self, hlinked]
      refine ⟨?_, ?_, ⟨?_, ?_, ?_⟩, ?_, ?_, ?_⟩
      · rw [hmore.count, OutlineNodes.length]
        push_cast
        ring
      · rw [hmore.size, hsizeCounted, OutlineNodes.total]
        omega
      · rw [hmore.prevDict it rfl, hitDict, hsizeCounted, Option.or_none]
      · have hkids := hsub.holds
        rw [hsize] at hkids
        refine hkids.congr fun id hlow hhigh => ?_
        rw [hmore.others id (by omega) (by omega) fun hmem => by cases hmem; omega,
          hcountedNe id (by omega)]
      · have hrest := hmore.holds
        rwa [hsizeCounted] at hrest
      · rw [hmore.parentDict, hsizeCounted, hold parent hparent, hmade, link_parent hne fun p hp =>
          (hprev p hp).2, hitem parent hne, OutlineNodes.roots, List.head?_cons,
          List.getLast?_cons]
        cases prev <;> cases (rest.roots (it + 1 + kids.total)).getLast? <;> rfl
      · intro p hp
        obtain rfl : prev = some p := hp
        obtain ⟨hlt, hpne⟩ := hprev p rfl
        rw [hmore.others p (by omega) hpne fun hmem => by cases hmem; omega, hold p hlt, hmade,
          link_prev hlt.ne hpne, hitem p hlt.ne]
        rfl
      · intro id hid hidne hidprev
        rw [hmore.others id (by omega) hidne fun hmem => by cases hmem; omega, hold id hid, hmade,
          link_of_ne hid.ne hidne hidprev, hitem id hid.ne]

end Links

namespace OutlineNodes

variable {pages : Pages} {objects : Nat → Dict} {outlines b : Nat} {q : Option Nat}
  {nodes : OutlineNodes}

theorem roots_entry (b : Nat) (nodes : OutlineNodes) :
    nodes.roots (entry outlines b) = (nodes.roots b).map (entry outlines) := roots_add _ _ _

/-- The objects of nodes that stand behind some of their siblings. -/
theorem Holds.entryDict_eq {before : List Nat} (hp : nodes.Placed hs q b)
    (hh : nodes.Holds pages objects (parentEntry outlines q)
      (before.getLast?.map (entry outlines)) (entry outlines b))
    (hsiblings : children hs q = before ++ nodes.roots b) {i : Nat} (hb : b ≤ i)
    (hi : i < b + nodes.total) :
    objects (entry outlines i) = entryDict pages hs outlines i := by
  induction nodes generalizing q b before with
  | nil => simp only [total] at hi; omega
  | cons h kids rest ihk ihr =>
      obtain ⟨hhead, hparent, hchildren, hkids, hrest⟩ := hp
      obtain ⟨hdict, hkidsHold, hrestHold⟩ := hh
      have hnext : entry outlines b + 1 + kids.total = entry outlines (b + 1 + kids.total) := by
        simp only [entry]
        omega
      have hbelow : entry outlines b + 1 = entry outlines (b + 1) := rfl
      simp only [total] at hi
      by_cases hfirst : i = b
      · subst hfirst
        have hsib := siblings_eq hparent hsiblings
        rw [hdict, hnext, hbelow, roots_entry, roots_entry, entryDict, hhead, hparent, hsib.1,
          hsib.2, hchildren, List.head?_map, List.head?_map, List.getLast?_map, length_roots]
        simp only [Option.map_some, roots_eq_nil_iff]
      · by_cases hin : i < b + 1 + kids.total
        · have hwhole : children hs (some b) = [] ++ kids.roots (b + 1) := hchildren
          have hhold : kids.Holds pages objects (parentEntry outlines (some b))
              (([] : List Nat).getLast?.map (entry outlines)) (entry outlines (b + 1)) := hkidsHold
          exact ihk hkids hhold hwhole (by omega) hin
        · have hbehind : children hs q = (before ++ [b]) ++ rest.roots (b + 1 + kids.total) := by
            rw [hsiblings, roots, List.append_assoc, List.singleton_append]
          refine ihr hrest ?_ hbehind (by omega) (by omega)
          rw [List.getLast?_concat, Option.map_some, ← hnext]
          exact hrestHold

/-- The walk from the first node of a vector meets its nodes and the ones below in order. -/
theorem Holds.walk_eq {parent id : Nat} {prev : Option Nat}
    (h : nodes.Holds pages objects parent prev id) {fuel : Nat} (hfuel : nodes.total ≤ fuel) :
    walk objects fuel (nodes.roots id).head? = List.range' id nodes.total := by
  induction nodes generalizing parent id prev fuel with
  | nil => cases fuel <;> rfl
  | cons g kids rest ihk ihr =>
      obtain ⟨hdict, hkids, hrest⟩ := h
      simp only [total] at hfuel
      obtain ⟨fuel, rfl⟩ := Nat.exists_eq_add_of_le (show 1 ≤ fuel by omega)
      rw [Nat.add_comm, roots, List.head?_cons, walk, hdict]
      simp only
      rw [ihk hkids (by omega), ihr hrest (by omega), List.range'_append_1, total, Nat.add_assoc,
        Nat.add_comm 1, List.range'_succ]

end OutlineNodes

open OutlineNodes

/-- The headings always become an outline: its entries are the headings in their order, with the
links that their levels give, and the objects that were there stay. -/
theorem outline_consistent (pages : Pages) (flat : List Heading) (pdf : Pdf) :
    ∃ pdf', passBookmarks pages flat pdf = some pdf' ∧ pdf'.outlines = some pdf.size ∧
      pdf'.objects pdf.size = outlineDict flat pdf.size ∧
      (∀ i < flat.length, pdf'.objects (entry pdf.size i) = entryDict pages flat pdf.size i) ∧
      (∀ fuel, flat.length ≤ fuel → walk pdf'.objects fuel (pdf'.objects pdf.size).first =
        (List.range flat.length).map (entry pdf.size)) ∧
      ∀ id < pdf.size, pdf'.objects id = pdf.objects id := by
  obtain ⟨tree, htree, hpreorder, hordered⟩ := exists_nest flat
  have htotal : tree.total = flat.length := by rw [← hpreorder, length_preorder]
  have hplaced : tree.Placed flat none 0 := by
    have hhs : flat = [] ++ (tree.preorder ++ []) := by
      rw [List.nil_append, List.append_nil, hpreorder]
    refine hordered.placed hhs rfl rfl ?_ ?_ ?_
    · exact fun m hm => by cases hm
    · exact fun g _ j hj => absurd hj (Nat.not_lt_zero j)
    · exact fun g hg => by cases hg
  have hchildren : children flat none = tree.roots 0 := by
    rw [children, List.range_eq_range', ← htotal]
    exact hplaced.filter_eq fun m hm => by cases hm
  have hlinked := @linkOutline_linked pages (pdf.makeIndirectObject { type := some "/Outlines" })
    pdf.size none tree (Nat.lt_succ_self _) fun p hp => by cases hp
  set r := linkOutline pages pdf.size tree none
    (pdf.makeIndirectObject { type := some "/Outlines" }) with hr
  have hroots : tree.roots (pdf.size + 1) = (tree.roots 0).map (entry pdf.size) :=
    roots_entry 0 tree
  have hholds : tree.Holds pages r.1.objects pdf.size none (entry pdf.size 0) := hlinked.holds
  have hroot : r.1.objects pdf.size =
      { type := some "/Outlines"
        first := (children flat none).head?.map (entry pdf.size)
        last := (children flat none).getLast?.map (entry pdf.size) } := by
    have hparent := hlinked.parentDict
    rw [show (pdf.makeIndirectObject { type := some "/Outlines" }).size = pdf.size + 1 from rfl,
      hroots, ← hchildren, List.head?_map, List.getLast?_map] at hparent
    simpa [Pdf.makeIndirectObject] using hparent
  have hframe : ∀ id, id ≠ pdf.size →
      (r.1.modify pdf.size fun d => { d with count := some r.2 }).objects id = r.1.objects id :=
    fun id hid => Function.update_of_ne hid _ _
  refine ⟨{ r.1.modify pdf.size fun d => { d with count := some r.2 } with
    outlines := some pdf.size }, ?_, rfl, ?_, ?_, ?_, ?_⟩
  · rw [passBookmarks, htree, Option.map_some]
  · simp only [Pdf.modify, Function.update_self]
    rw [hroot, outlineDict, hlinked.count, hchildren, length_roots]
  · intro i hi
    have hdict := hholds.entryDict_eq hplaced (hchildren.trans (List.nil_append _).symm)
      (Nat.zero_le i) (by omega)
    rw [← hdict]
    exact hframe _ (by simp only [entry]; omega)
  · intro fuel hfuel
    have hwhole : tree.Holds pages
        (r.1.modify pdf.size fun d => { d with count := some r.2 }).objects pdf.size none
        (entry pdf.size 0) :=
      hholds.congr fun id hlow _ => hframe id (by simp only [entry] at hlow; omega)
    have hfirst : ((r.1.modify pdf.size fun d => { d with count := some r.2 }).objects
        pdf.size).first = (tree.roots (entry pdf.size 0)).head? := by
      simp only [Pdf.modify, Function.update_self]
      rw [hroot, roots_entry, hchildren, List.head?_map]
    have hshift : entry pdf.size = fun i => pdf.size + 1 + i := rfl
    rw [hfirst, hwhole.walk_eq (by omega), htotal, List.range_eq_range', hshift,
      List.map_add_range']
  · intro id hid
    have hlt : id < (pdf.makeIndirectObject { type := some "/Outlines" }).size :=
      Nat.lt_succ_of_lt hid
    rw [hframe id hid.ne, hlinked.others id hlt hid.ne fun h => by cases h]
    exact Function.update_of_ne hid.ne _ _

end Kura.Engine.Bookmarks
