import Kura.Engine.SpatialRelations

/-!
# Symmetry of relations

What one object is counted as for another, compared with the converse. Shapes
are compared alike in both directions, and so are distances. Whether an overlap
can be seen is decided by the objects above both, but each direction leaves out
the fill or stroke that belongs to its own object and all that do not touch its
own extent. `symmetric_iff` says that nothing else can differ.
-/

namespace Kura.Engine.Relations

open Kura.Engine.ProfileParse (PfAtom)

variable {sc : Scene} {a : PfAtom} {o b : SObj} {all : List SObj} {r : Relation}

/-- The counters after some of the objects. -/
def countersAfter (sc : Scene) (a : PfAtom) (o : SObj) (all l : List SObj) : Counters :=
  (countRelations sc a o all l (fun _ => 0) true).1

/-- The loop for an object counts another one as being in a relation. -/
def Counts (sc : Scene) (a : PfAtom) (all : List SObj) (o b : SObj) (r : Relation) : Prop :=
  ∃ pre post, all = pre ++ b :: post ∧
    countersAfter sc a o all (pre ++ [b]) r = countersAfter sc a o all pre r + 1

theorem need_pos (a : PfAtom) : 0 < need sc a := lt_of_lt_of_le Int.one_pos (le_max_left _ _)

theorem isOpen_of_lt {n : Counters} (h : ∀ r, (n r : Int) < need sc a) :
    n.isOpen sc a = !(want a).isEmpty := by
  have hget : ∀ w, (n.get w : Int) < need sc a := by
    intro w
    rw [Counters.get]
    split
    · exact h _
    · exact need_pos a
  rw [Counters.isOpen]
  cases hw : want a with
  | nil => rfl
  | cons w ws => simp [hget]

theorem countedFor_of_want_nil (h : want a = []) : countedFor sc a o b all = [] := by
  have hnone : ∀ r, ¬ Wanted a r := by
    intro r hr
    rw [Wanted, h] at hr
    cases hr
  rw [countedFor]
  split
  · rfl
  · exact List.filter_eq_nil_iff.mpr fun r _ => by simpa using hnone r

theorem mem_overlapRelations (r : Relation) (rel : Rel) (top : Bool) :
    r ∈ overlapRelations rel top ↔
      r = .above ∧ top = true ∨ r = .below ∧ top = false ∨ r = .crosses ∧ rel = .cross ∨
        r = .inside ∧ rel = .aIn ∨ r = .covered ∧ rel = .aIn ∧ top = false ∨
        r = .covers ∧ rel = .bIn ∧ top = true := by
  cases rel <;> cases top <;> cases r <;> decide

theorem nodup_otherRelations : (otherRelations sc o b all).Nodup := by
  have hoverlap : ∀ rel top, (overlapRelations rel top).Nodup := by
    intro rel top
    cases rel <;> cases top <;> decide
  simp only [otherRelations]
  split
  · split
    · exact List.nodup_singleton _
    · exact List.nodup_nil
  · split
    · exact List.nodup_nil
    · exact hoverlap _ _

theorem near_notMem_otherRelations : Relation.near ∉ otherRelations sc o b all := by
  simp only [otherRelations]
  split
  · split <;> simp
  · split
    · simp
    · simp [mem_overlapRelations]

/-- A relation is counted once at most. -/
theorem count_countedFor_le (r : Relation) : (countedFor sc a o b all).count r ≤ 1 := by
  refine List.nodup_iff_count_le_one.mp ?_ r
  rw [countedFor]
  split
  · exact List.nodup_nil
  · refine List.Nodup.filter _ (List.Nodup.append ?_ ?_ ?_)
    · split
      · exact List.nodup_singleton _
      · exact List.nodup_nil
    · split
      · exact List.nodup_nil
      · exact nodup_otherRelations
    · intro r hnear hother
      have hr : r = .near := by
        split at hnear
        · exact List.mem_singleton.mp hnear
        · cases hnear
      subst hr
      split at hother
      · cases hother
      · exact near_notMem_otherRelations hother

/-- As long as no counter reaches the bound, the loop counts every object. -/
theorem countRelations_eq (l : List SObj) {n : Counters} {supported : Bool}
    (h : ∀ r, (n r : Int) + l.length ≤ need sc a - 1) (r : Relation) :
    (countRelations sc a o all l n supported).1 r =
      n r + (l.map fun b => (countedFor sc a o b all).count r).sum := by
  induction l generalizing n supported with
  | nil => simp [countRelations]
  | cons b l ih =>
      have hopen : n.isOpen sc a = !(want a).isEmpty := isOpen_of_lt fun r => by
        have := h r
        simp only [List.length_cons, Nat.cast_add, Nat.cast_one] at this
        omega
      rw [countRelations, hopen]
      by_cases hwant : want a = []
      · have hzero : ∀ b', (countedFor sc a o b' all).count r = 0 := fun b' => by
          rw [countedFor_of_want_nil hwant]
          rfl
        simp [hwant, hzero]
      · have hbang : (!(!(want a).isEmpty)) = false := by simpa using hwant
        rw [hbang, if_neg Bool.false_ne_true, ih, List.map_cons, List.sum_cons, Nat.add_assoc]
        intro r'
        have hr := h r'
        have hone : (countedFor sc a o b all).count r' ≤ 1 := count_countedFor_le r'
        simp only [List.length_cons, Nat.cast_add, Nat.cast_one] at hr ⊢
        omega

/-- Where the loop does not stop, it counts what is counted for each object. -/
theorem counts_iff (hneed : (all.length : Int) < need sc a) (hb : b ∈ all) :
    Counts sc a all o b r ↔ r ∈ countedFor sc a o b all := by
  have hafter : ∀ l : List SObj, l.length ≤ all.length → countersAfter sc a o all l r =
      (l.map fun b => (countedFor sc a o b all).count r).sum := by
    intro l hl
    rw [countersAfter, countRelations_eq l (fun r => by push_cast; omega), Nat.zero_add]
  have hstep : ∀ pre post, all = pre ++ b :: post →
      (countersAfter sc a o all (pre ++ [b]) r = countersAfter sc a o all pre r + 1 ↔
        r ∈ countedFor sc a o b all) := by
    intro pre post heq
    have hlen : all.length = pre.length + (post.length + 1) := by rw [heq]; simp
    rw [hafter pre (by omega), hafter (pre ++ [b]) (by rw [List.length_append]; simp; omega),
      List.map_append, List.sum_append, List.map_singleton, List.sum_singleton,
      Nat.add_left_cancel_iff]
    constructor
    · intro hone
      exact List.count_pos_iff.mp (by omega)
    · intro hmem
      have hpos := List.count_pos_iff.mpr hmem
      have hle : (countedFor sc a o b all).count r ≤ 1 := count_countedFor_le r
      omega
  constructor
  · rintro ⟨pre, post, heq, hcount⟩
    exact (hstep pre post heq).mp hcount
  · intro hmem
    obtain ⟨pre, post, heq⟩ := List.append_of_mem hb
    exact ⟨pre, post, heq, (hstep pre post heq).mpr hmem⟩

/-- What it takes for an object to be counted. -/
def Holds (sc : Scene) (a : PfAtom) (all : List SObj) (o b : SObj) : Relation → Prop
  | .near => isNear sc a o b = true
  | .outside => classify [sc.shape o] [sc.shape b] = .apart ∧ seen sc o all = true ∧
      seen sc b all = true
  | r => classify [sc.shape o] [sc.shape b] ≠ .apart ∧ overlapVisible sc o b all = true ∧
      r ∈ overlapRelations (classify [sc.shape o] [sc.shape b]) (zLess b.zp o.zp)

theorem mem_otherRelations (r : Relation) :
    r ∈ otherRelations sc o b all ↔ r ≠ .near ∧ Holds sc a all o b r := by
  simp only [otherRelations]
  by_cases hapart : classify [sc.shape o] [sc.shape b] = .apart
  · rw [if_pos hapart]
    cases r <;> simp [Holds, hapart]
  · rw [if_neg hapart]
    by_cases hvis : overlapVisible sc o b all = true
    · rw [hvis]
      cases r <;> simp [Holds, hapart, hvis, mem_overlapRelations]
    · rw [Bool.not_eq_true] at hvis
      cases r <;> simp [Holds, hapart, hvis]

/-- Without a check to find objects, a relation is counted if it is asked for and holds. -/
theorem mem_countedFor (hnames : names a = []) (hskip : skipped sc o b = false) :
    r ∈ countedFor sc a o b all ↔ Wanted a r ∧ Holds sc a all o b r := by
  have hfound : (found sc a b).1 = true := by simp [found, hnames]
  have hnot : (skipped sc o b || !(found sc a b).1) = false := by rw [hskip, hfound]; rfl
  rw [countedFor, hnot, if_neg Bool.false_ne_true, List.mem_filter, decide_eq_true_eq, and_comm]
  refine and_congr_right fun hwanted => ?_
  rw [List.mem_append]
  by_cases hr : r = .near
  · subst hr
    have hno : Relation.near ∉ (if nearOnly a then [] else otherRelations sc o b all) := by
      split
      · exact List.not_mem_nil
      · exact near_notMem_otherRelations
    rw [or_iff_left hno, Holds]
    cases isNear sc a o b <;> simp
  · have hno : r ∉ (if isNear sc a o b then [Relation.near] else []) := by
      split
      · exact fun h => hr (List.mem_singleton.mp h)
      · exact List.not_mem_nil
    have hmore : nearOnly a = false := by
      rw [nearOnly, Bool.and_eq_false_iff]
      refine Or.inr (List.all_eq_false.mpr ⟨r.name, hwanted, ?_⟩)
      simpa using fun h => hr (Relation.name_inj h)
    rw [or_iff_right hno, hmore, if_neg Bool.false_ne_true, mem_otherRelations (a := a),
      and_iff_right hr]

/-- The relation of two sets of shapes seen from the second one. -/
def Rel.swap : Rel → Rel
  | .aIn => .bIn
  | .bIn => .aIn
  | r => r

/-- Two shapes in the other order stand in the swapped relation. -/
theorem classify_swap (s t : ShapeSet) : classify t s = (classify s t).swap := by
  simp only [classify, touches_comm (setBox t) (setBox s)]
  split
  · rfl
  · by_cases hapart : (tally s t).inn = 0 ∧ (tally s t).on = 0 ∧ (tally t s).inn = 0 ∧
        (tally t s).on = 0
    · have hapart' : (tally t s).inn = 0 ∧ (tally t s).on = 0 ∧ (tally s t).inn = 0 ∧
          (tally s t).on = 0 := ⟨hapart.2.2.1, hapart.2.2.2, hapart.1, hapart.2.1⟩
      rw [if_pos hapart, if_pos hapart']
      rfl
    · have hapart' : ¬ ((tally t s).inn = 0 ∧ (tally t s).on = 0 ∧ (tally s t).inn = 0 ∧
          (tally s t).on = 0) := fun h => hapart ⟨h.2.2.1, h.2.2.2, h.1, h.2.1⟩
      rw [if_neg hapart, if_neg hapart']
      by_cases hfirst : (tally s t).out = 0 ∧ (tally s t).on = 0 ∧ (tally t s).inn = 0 ∧
          (tally t s).on = 0
      · -- With both, no sample is left and the sets would be apart.
        have hsecond : ¬ ((tally t s).out = 0 ∧ (tally t s).on = 0 ∧ (tally s t).inn = 0 ∧
            (tally s t).on = 0) := fun h => hapart ⟨h.2.2.1, h.2.2.2, hfirst.2.2.1, h.2.1⟩
        rw [if_pos hfirst, if_neg hsecond, if_pos hfirst]
        rfl
      · by_cases hsecond : (tally t s).out = 0 ∧ (tally t s).on = 0 ∧ (tally s t).inn = 0 ∧
            (tally s t).on = 0
        · rw [if_pos hsecond, if_neg hfirst, if_pos hsecond]
          rfl
        · rw [if_neg hsecond, if_neg hfirst, if_neg hfirst, if_neg hsecond]
          rfl

theorem swap_eq_apart_iff (r : Rel) : r.swap = .apart ↔ r = .apart := by
  cases r <;> simp [Rel.swap]

section Near

theorem setBox_singleton (s : Shape) :
    (setBox [s]).valid = s.bb.valid ∧ (s.bb.valid = true → setBox [s] = s.bb) := by
  cases hv : s.bb.valid with
  | false => simp [setBox, hv]
  | true =>
      have hself : setBox [s] = s.bb := by
        obtain ⟨⟨x0, y0, x1, y1, v⟩, _, _, _, _⟩ := s
        simp only at hv
        simp [setBox, hv]
      rw [hself, hv]
      exact ⟨rfl, fun _ => rfl⟩

theorem foldl_min_lt_iff {α : Type} (f : α → Rat) (ps : List α) (best d : Rat) :
    ps.foldl (fun best q => min best (f q)) best < d ↔ best < d ∨ ∃ q ∈ ps, f q < d := by
  induction ps generalizing best with
  | nil => simp
  | cons q ps ih =>
      rw [List.foldl_cons, ih, min_lt_iff, or_assoc]
      simp

/-- A sample is passed over only if none of the other samples is near enough to it. -/
theorem foldl_distance_lt_iff {α β : Type} (f : α → β → Rat) (skip : α → Rat) (ps : List α)
    (qs : List β) (hskip : ∀ p ∈ ps, ∀ q ∈ qs, skip p ≤ f p q) (best d : Rat) :
    ps.foldl (fun best p =>
        if min best d < skip p then best else qs.foldl (fun best q => min best (f p q)) best) best
        < d ↔
      best < d ∨ ∃ p ∈ ps, ∃ q ∈ qs, f p q < d := by
  induction ps generalizing best with
  | nil => simp
  | cons p ps ih =>
      rw [List.foldl_cons, ih fun p' hp' => hskip p' (List.mem_cons_of_mem _ hp')]
      have hp := hskip p List.mem_cons_self
      by_cases hpass : min best d < skip p
      · rw [if_pos hpass]
        constructor
        · rintro (h | ⟨p', hp', q, hq, hlt⟩)
          · exact Or.inl h
          · exact Or.inr ⟨p', List.mem_cons_of_mem _ hp', q, hq, hlt⟩
        · rintro (h | ⟨p', hp', q, hq, hlt⟩)
          · exact Or.inl h
          · obtain rfl | hp' := List.mem_cons.mp hp'
            · have hlow : min best d < d := lt_trans (lt_of_lt_of_le hpass (hp q hq)) hlt
              exact Or.inl ((min_lt_iff.mp hlow).resolve_right (lt_irrefl d))
            · exact Or.inr ⟨p', hp', q, hq, hlt⟩
      · rw [if_neg hpass, foldl_min_lt_iff, or_assoc]
        simp

/-- The distance is below a bound when two points of the edges are. -/
theorem edgeDistance_lt_iff (hsc : sc.Lawful) (s t : Shape) (d : Rat) :
    edgeDistance sc [s] [t] d < d ↔
      kFar < d ∨ ∃ p ∈ s.edge, ∃ q ∈ t.edge, sc.hypot (p.x - q.x) (p.y - q.y) < d := by
  obtain ⟨hvalid, hbox⟩ := setBox_singleton t
  simp only [edgeDistance, exposed_singleton]
  cases hv : t.bb.valid with
  | false =>
      have hnone : ∀ q, q ∉ t.edge := fun q hq => by
        have := (t.edge_bb q hq).1
        rw [hv] at this
        cases this
      rw [hvalid, hv]
      simp [hnone]
  | true =>
      rw [hvalid, hv, hbox hv]
      simp only [Bool.not_true, Bool.false_eq_true, if_false]
      refine foldl_distance_lt_iff (fun p q : Pt => sc.hypot (p.x - q.x) (p.y - q.y)) _ _ _ ?_ _ _
      intro p _ q hq
      have hin := (t.edge_bb q hq).2
      simp only [inBox, Bool.and_eq_true, decide_eq_true_eq] at hin
      obtain ⟨⟨⟨hx0, hx1⟩, hy0⟩, hy1⟩ := hin
      refine hsc.mono (le_max_left _ _) (le_max_left _ _) ?_ ?_
      · refine max_le (abs_nonneg _) (max_le ?_ ?_)
        · exact le_trans (by linarith) (neg_le_abs _)
        · exact le_trans (by linarith) (le_abs_self _)
      · refine max_le (abs_nonneg _) (max_le ?_ ?_)
        · exact le_trans (by linarith) (neg_le_abs _)
        · exact le_trans (by linarith) (le_abs_self _)

/-- Nearness is symmetric. -/
theorem isNear_comm (hsc : sc.Lawful) (a : PfAtom) (o b : SObj) :
    isNear sc a o b = isNear sc a b o := by
  have hhypot : ∀ p q :
      Pt, sc.hypot (p.x - q.x) (p.y - q.y) = sc.hypot (q.x - p.x) (q.y - p.y) := by
    intro p q
    rw [← neg_sub q.x, ← neg_sub q.y, hsc.neg]
  rw [Bool.eq_iff_iff, isNear, isNear, decide_eq_true_eq, decide_eq_true_eq,
    edgeDistance_lt_iff hsc, edgeDistance_lt_iff hsc]
  refine or_congr_right ⟨?_, ?_⟩
  · rintro ⟨p, hp, q, hq, hlt⟩
    exact ⟨q, hq, p, hp, hhypot p q ▸ hlt⟩
  · rintro ⟨p, hp, q, hq, hlt⟩
    exact ⟨q, hq, p, hp, hhypot p q ▸ hlt⟩

end Near

theorem zLess_of_ne {x y : List Int} (h : x ≠ y) : zLess y x = !zLess x y := by
  rw [zLess, zLess]
  rcases lt_trichotomy x y with hlt | heq | hgt
  · simp [hlt, not_lt_of_gt hlt]
  · exact absurd heq h
  · simp [hgt, not_lt_of_gt hgt]

theorem mem_common_comm (p : Pt) : p ∈ common sc o b ↔ p ∈ common sc b o := by
  rw [common, common, List.mem_append, List.mem_append, or_comm]

/-- An object counts as hiding the overlap of two others, seen from the first of them. -/
def Hides (all : List SObj) (o b x : SObj) : Prop :=
  x ∈ all ∧ x.p ≠ o.p ∧ x.p ≠ b.p ∧ x.opq = true ∧ x.hidden = false ∧ sameObj o x = false ∧
    zLess (topOf o b) x.zp = true ∧ touches x.ext o.ext = true

/-- All samples two objects have in common are hidden, seen from the first of them. -/
def HiddenFor (sc : Scene) (all : List SObj) (o b : SObj) : Prop :=
  ∀ p ∈ common sc o b, ∃ x, Hides all o b x ∧ insideShape (sc.shape x) p = true

theorem mem_occluders (x : SObj) :
    x ∈ occluders o all (topOf o b) (some b.p) ↔ Hides all o b x := by
  simp only [occluders, Hides, List.mem_filter, Bool.and_eq_true, Bool.not_eq_true',
    Bool.or_eq_false_iff, decide_eq_false_iff_not, Option.some_inj, Bool.not_eq_false']
  tauto

theorem overlapVisible_iff :
    overlapVisible sc o b all = true ↔ common sc o b = [] ∨ ¬ HiddenFor sc all o b := by
  have hset : ∀ p, inSet (shapes sc (occluders o all (topOf o b) (some b.p))) p = true ↔
      ∃ x, Hides all o b x ∧ insideShape (sc.shape x) p = true := by
    intro p
    simp only [inSet, shapes, List.any_map, List.any_eq_true, Function.comp_apply, mem_occluders]
  simp only [overlapVisible]
  by_cases hnil : common sc o b = []
  · simp [hnil]
  · have hempty : (common sc o b).isEmpty = false := by simpa using hnil
    rw [hempty, if_neg Bool.false_ne_true, or_iff_right hnil, HiddenFor, List.any_eq_true]
    push Not
    refine exists_congr fun p => and_congr_right fun _ => ?_
    rw [Bool.not_eq_true', ← Bool.not_eq_true, hset]
    push Not
    rfl

/-- Without samples in common, or where both directions agree on what is hidden, the overlap is
visible in both directions or in none. -/
theorem overlapVisible_comm_iff :
    (overlapVisible sc o b all = true ↔ overlapVisible sc b o all = true) ↔
      common sc o b = [] ∨ (HiddenFor sc all o b ↔ HiddenFor sc all b o) := by
  have hnil : common sc b o = [] ↔ common sc o b = [] := by
    simp only [List.eq_nil_iff_forall_not_mem, mem_common_comm (o := o)]
  rw [overlapVisible_iff, overlapVisible_iff, hnil]
  by_cases h : common sc o b = []
  · simp [h]
  · simp only [h, false_or, not_iff_not]

/-- What an object is for the other one. -/
def Relation.converse : Relation → Relation
  | .above => .below
  | .below => .above
  | .covers => .covered
  | .covered => .covers
  | r => r

/-- The relations that depend on whether an overlap can be seen. -/
def overlapKinds : List Relation := [.below, .covered, .crosses]

/-- The relations that are compared. -/
def comparedKinds : List Relation := [.below, .covered, .crosses, .outside, .near]

/-- An object is in a relation as far as shapes and stacking go. -/
def Meets (sc : Scene) (o b : SObj) (r : Relation) : Prop :=
  classify [sc.shape o] [sc.shape b] ≠ .apart ∧
    r ∈ overlapRelations (classify [sc.shape o] [sc.shape b]) (zLess b.zp o.zp)

theorem meets_converse (hz : o.zp ≠ b.zp) {r : Relation} (hr : r ∈ overlapKinds) :
    Meets sc b o r.converse ↔ Meets sc o b r := by
  rw [Meets, Meets, classify_swap [sc.shape o] [sc.shape b], Ne, Ne, swap_eq_apart_iff,
    zLess_of_ne hz.symm, mem_overlapRelations, mem_overlapRelations]
  simp only [overlapKinds, List.mem_cons, List.not_mem_nil, or_false] at hr
  refine and_congr_right fun _ => ?_
  generalize classify [sc.shape o] [sc.shape b] = rel
  generalize zLess b.zp o.zp = top
  obtain rfl | rfl | rfl := hr <;> cases rel <;> cases top <;> decide

/-- The relations that depend on an overlap hold where shapes and stacking fit and it is seen. -/
theorem holds_overlap (hr : r ∈ overlapKinds ∨ r.converse ∈ overlapKinds) :
    Holds sc a all o b r ↔ Meets sc o b r ∧ overlapVisible sc o b all = true := by
  have hmain : ∀ p q s : Prop, (p ∧ q ∧ s) ↔ ((p ∧ s) ∧ q) := by tauto
  cases r with
  | outside => simp [overlapKinds, Relation.converse] at hr
  | near => simp [overlapKinds, Relation.converse] at hr
  | _ => exact hmain _ _ _

/-- Each direction of a pair hides its overlap by other objects, and a relation that depends on it
and its converse are both asked for. -/
def Lopsided (sc : Scene) (a : PfAtom) (all : List SObj) (o b : SObj) : Prop :=
  common sc o b ≠ [] ∧ ¬ (HiddenFor sc all o b ↔ HiddenFor sc all b o) ∧
    ∃ r ∈ overlapKinds, Wanted a r ∧ Wanted a r.converse ∧ (Meets sc o b r ∨ Meets sc b o r)

/-- Fill and stroke of one path. -/
structure Partners (o b : SObj) : Prop where
  paint : o.paint = true ∧ b.paint = true
  stroke : o.stroke ≠ b.stroke
  length : o.zp.length = b.zp.length
  ne_nil : o.zp ≠ []
  init : o.zp.dropLast = b.zp.dropLast
  last : |o.zp.getLastD 0 - b.zp.getLastD 0| = 1
  bbox : o.source.bbox.x0 = b.source.bbox.x0 ∧ o.source.bbox.y0 = b.source.bbox.y0 ∧
    o.source.bbox.x1 = b.source.bbox.x1 ∧ o.source.bbox.y1 = b.source.bbox.y1

theorem Partners.symm (h : Partners o b) : Partners b o where
  paint := h.paint.symm
  stroke := h.stroke.symm
  length := h.length.symm
  ne_nil := fun hnil => h.ne_nil (List.length_eq_zero_iff.mp (by rw [h.length, hnil]; rfl))
  init := h.init.symm
  last := by rw [abs_sub_comm]; exact h.last
  bbox := ⟨h.bbox.1.symm, h.bbox.2.1.symm, h.bbox.2.2.1.symm, h.bbox.2.2.2.symm⟩

/-- One object is the same place or a partner. -/
theorem sameObj_iff : sameObj o b = true ↔ o.p = b.p ∨ Partners o b := by
  simp only [sameObj]
  by_cases hp : o.p = b.p
  · simp [hp]
  rw [if_neg hp, or_iff_right hp]
  constructor
  · intro h
    split_ifs at h with hpaint hlen hinit hlast
    simp only [Bool.or_eq_true, Bool.not_eq_true', decide_eq_true_eq, not_or, Bool.not_eq_false,
      not_not, List.isEmpty_iff, ne_eq] at hpaint hlen hinit hlast
    simp only [Bool.and_eq_true, decide_eq_true_eq] at h
    exact ⟨⟨hpaint.1.1, hpaint.1.2⟩, hpaint.2, hlen.1, hlen.2, hinit, hlast,
      h.1.1.1, h.1.1.2, h.1.2, h.2⟩
  · intro h
    have hlast := h.last
    rw [List.getLastD_eq_getLast?, List.getLastD_eq_getLast?] at hlast
    simp [h.paint, h.stroke, h.length.symm, h.ne_nil, h.init, hlast, h.bbox]

theorem sameObj_comm (o b : SObj) : sameObj o b = sameObj b o := by
  rw [Bool.eq_iff_iff, sameObj_iff, sameObj_iff, eq_comm]
  exact or_congr_right ⟨Partners.symm, Partners.symm⟩

/-- The counters for two objects that are usable. -/
theorem counts_iff_holds (hneed : (all.length : Int) < need sc a) (hnames : names a = [])
    (hb : b ∈ all) (hub : usable sc b = true) (hsame : sameObj o b = false) :
    Counts sc a all o b r ↔ Wanted a r ∧ Holds sc a all o b r := by
  have hp : ¬ b.p = o.p := fun h => by
    rw [sameObj, if_pos h.symm] at hsame
    cases hsame
  rw [counts_iff hneed hb]
  exact mem_countedFor hnames (by simp [skipped, hp, hsame, hub])

/-- Two objects are counted for each other in converse relations exactly if both directions agree
on whether their overlap is hidden, where that matters. -/
theorem symmetric_iff (sc : Scene) (hsc : sc.Lawful) (a : PfAtom) (all : List SObj)
    (hz : all.Pairwise fun x y => x.zp ≠ y.zp) (hnames : names a = [])
    (hneed : (all.length : Int) < need sc a) (o b : SObj) (ho : o ∈ all) (hb : b ∈ all)
    (huo : usable sc o = true) (hub : usable sc b = true) (hsame : sameObj o b = false) :
    (∀ r ∈ comparedKinds, Wanted a r → Wanted a r.converse →
      (Counts sc a all o b r ↔ Counts sc a all b o r.converse) ∧
        (Counts sc a all b o r ↔ Counts sc a all o b r.converse)) ↔
      ¬ Lopsided sc a all o b := by
  have hsame' : sameObj b o = false := by rw [sameObj_comm, hsame]
  have hne : o.zp ≠ b.zp := by
    intro heq
    have hob : o ≠ b := by
      rintro rfl
      rw [sameObj, if_pos rfl] at hsame
      cases hsame
    have hsymm : Std.Symm fun x y : SObj => x.zp ≠ y.zp := ⟨fun _ _ h => h.symm⟩
    exact hz.forall ho hb hob heq
  have hcount : ∀ r, Counts sc a all o b r ↔ Wanted a r ∧ Holds sc a all o b r := fun _ =>
    counts_iff_holds hneed hnames hb hub hsame
  have hcount' : ∀ r, Counts sc a all b o r ↔ Wanted a r ∧ Holds sc a all b o r := fun _ =>
    counts_iff_holds hneed hnames ho huo hsame'
  -- What depends on an overlap differs where shapes and stacking fit and visibility differs.
  have hoverlap : ∀ r ∈ overlapKinds, Wanted a r → Wanted a r.converse →
      (((Counts sc a all o b r ↔ Counts sc a all b o r.converse) ∧
        (Counts sc a all b o r ↔ Counts sc a all o b r.converse)) ↔
        (Meets sc o b r ∨ Meets sc b o r →
          (overlapVisible sc o b all = true ↔ overlapVisible sc b o all = true))) := by
    intro r hr hw hw'
    have hconv : r.converse ∈ overlapKinds ∨ r.converse.converse ∈ overlapKinds := by
      refine Or.inr ?_
      cases r <;> exact hr
    rw [hcount, hcount', hcount, hcount', holds_overlap (Or.inl hr), holds_overlap (Or.inl hr),
      holds_overlap hconv, holds_overlap hconv, meets_converse hne hr, meets_converse hne.symm hr]
    simp only [hw, hw', true_and]
    tauto
  have hrest : ∀ r ∈ comparedKinds, r ∉ overlapKinds → Wanted a r → Wanted a r.converse →
      (Counts sc a all o b r ↔ Counts sc a all b o r.converse) ∧
        (Counts sc a all b o r ↔ Counts sc a all o b r.converse) := by
    intro r hr hno _ _
    have hapart : classify [sc.shape o] [sc.shape b] = .apart ↔
        classify [sc.shape b] [sc.shape o] = .apart := by
      rw [classify_swap [sc.shape o], swap_eq_apart_iff]
    rw [hcount, hcount', hcount, hcount']
    cases r with
    | outside =>
        simp only [Relation.converse, Holds, hapart]
        tauto
    | near => simp only [Relation.converse, Holds, isNear_comm hsc a o b, and_self]
    | _ => simp [comparedKinds, overlapKinds] at hr hno
  have hsubset : ∀ r ∈ overlapKinds, r ∈ comparedKinds := by decide
  rw [Lopsided]
  constructor
  · rintro h ⟨hcommon, hdiffer, r, hr, hw, hw', hmeets⟩
    have hvis := (hoverlap r hr hw hw').mp (h r (hsubset r hr) hw hw') hmeets
    exact (overlapVisible_comm_iff.mp hvis).elim hcommon hdiffer
  · intro h r hr hw hw'
    by_cases hkind : r ∈ overlapKinds
    · refine (hoverlap r hkind hw hw').mpr fun hmeets => overlapVisible_comm_iff.mpr ?_
      by_contra hnot
      rw [not_or] at hnot
      exact h ⟨hnot.1, hnot.2, r, hkind, hw, hw', hmeets⟩
    · exact hrest r hr hkind hw hw'

/-- The length of a vector, rounded down to thousandths. -/
def lengthDown (x y : Rat) : Rat := (Nat.sqrt ⌊(x * x + y * y) * 1000000⌋₊ : Nat) / 1000

theorem lengthDown_mono {x y x' y' : Rat} (hx : 0 ≤ x) (hy : 0 ≤ y) (hxx : x ≤ |x'|)
    (hyy : y ≤ |y'|) : lengthDown x y ≤ lengthDown x' y' := by
  have hsquare : ∀ {u v : Rat}, 0 ≤ u → u ≤ |v| → u * u ≤ v * v := by
    intro u v hu huv
    rw [← abs_mul_abs_self v]
    exact mul_self_le_mul_self hu huv
  have hsum : (x * x + y * y) * 1000000 ≤ (x' * x' + y' * y') * 1000000 := by
    have := hsquare hx hxx
    have := hsquare hy hyy
    linarith
  have hroot := Nat.sqrt_le_sqrt (Nat.floor_mono hsum)
  rw [lengthDown, lengthDown]
  have hcast : ((Nat.sqrt ⌊(x * x + y * y) * 1000000⌋₊ : Nat) : Rat) ≤
      (Nat.sqrt ⌊(x' * x' + y' * y') * 1000000⌋₊ : Nat) := by exact_mod_cast hroot
  linarith

/-- A box as a shape, sampled at given points. -/
def boxShape (edge fill : List Pt) (b : Box) : Shape where
  bb := b
  edge := edge.filter fun p => b.valid && inBox b p &&
    (p.x = b.x0 || p.x = b.x1 || p.y = b.y0 || p.y = b.y1)
  fill := fill.filter (inBox b)
  inside := fun _ => true
  edge_bb := by
    intro p hp
    simp only [List.mem_filter, Bool.and_eq_true] at hp
    exact hp.2.1

/-- Boxes as shapes; an atom needs more objects than there are. -/
def boxScene : Scene where
  shape := fun o => boxShape [⟨10, 7⟩, ⟨7, 10⟩, ⟨5, 7⟩, ⟨7, 5⟩, ⟨15, 12⟩] [⟨7, 7⟩, ⟨8, 8⟩] o.ext
  hypot := lengthDown
  paramNum := fun _ name => if name = "min_objects" then 5 else 0
  member := fun _ _ => (false, true)

theorem boxScene_lawful : boxScene.Lawful where
  neg := fun x y => by simp [boxScene, lengthDown]
  mono := lengthDown_mono

/-- An atom that asks for all relations. -/
def countAtom : PfAtom := { op := "count", params := [("min_objects", "5")] }

/-- A square that is filled, or stroked with a line as thick as twice its side. -/
def square (i : Nat) (box ext : Box) (z : Int) (stroke : Bool) : SObj where
  raw := ext
  ext := ext
  zp := [z]
  vis := true
  rect := !stroke
  stroke := stroke
  paint := true
  white := false
  p := ⟨0, i⟩
  source := .paint { bbox := box, stroke := stroke, fillOp := !stroke, width := 20, page := 1 }
  page := 1
  hidden := false
  opq := true

/-- The lower of two squares that overlap. -/
def lowerSquare : SObj := square 0 ⟨5, 5, 15, 15, true⟩ ⟨5, 5, 15, 15, true⟩ 0 false

/-- The upper one. -/
def upperSquare : SObj := square 1 ⟨0, 0, 10, 10, true⟩ ⟨0, 0, 10, 10, true⟩ 1 false

/-- The stroke of the upper one. -/
def upperStroke : SObj := square 2 ⟨0, 0, 10, 10, true⟩ ⟨-10, -10, 20, 20, true⟩ 2 true

theorem need_countAtom : need boxScene countAtom = 5 := by
  simp [need, boxScene]

/-- Without other objects the squares are counted for each other. -/
theorem squares_symmetric :
    (Counts boxScene countAtom [lowerSquare, upperSquare] upperSquare lowerSquare .below ↔
        Counts boxScene countAtom [lowerSquare, upperSquare] lowerSquare upperSquare .above) ∧
      (Counts boxScene countAtom [lowerSquare, upperSquare] lowerSquare upperSquare .below ↔
        Counts boxScene countAtom [lowerSquare, upperSquare] upperSquare lowerSquare .above) := by
  refine (symmetric_iff boxScene boxScene_lawful countAtom [lowerSquare, upperSquare] (by decide)
    (by decide) (by rw [need_countAtom]; decide) upperSquare lowerSquare (by simp) (by simp)
    (by decide) (by decide) (by decide)).mpr ?_ .below (by decide) (by decide) (by decide)
  have hnone : ∀ o b, o.p = lowerSquare.p ∧ b.p = upperSquare.p ∨
      o.p = upperSquare.p ∧ b.p = lowerSquare.p →
      ∀ x, ¬ Hides [lowerSquare, upperSquare] o b x := by
    rintro o b hob x ⟨hx, hxo, hxb, -⟩
    simp only [List.mem_cons, List.not_mem_nil, or_false] at hx
    obtain rfl | rfl := hx <;> obtain ⟨ho, hb⟩ | ⟨ho, hb⟩ := hob <;> simp_all
  have hpoint : (⟨7, 7⟩ : Pt) ∈ common boxScene upperSquare lowerSquare := by decide
  rintro ⟨-, hdiffer, -⟩
  refine hdiffer (iff_of_false (fun h => ?_) fun h => ?_)
  · obtain ⟨x, hx, -⟩ := h _ hpoint
    exact hnone _ _ (Or.inr ⟨rfl, rfl⟩) x hx
  · obtain ⟨x, hx, -⟩ := h _ ((mem_common_comm _).mp hpoint)
    exact hnone _ _ (Or.inl ⟨rfl, rfl⟩) x hx

/-- The stroke of the upper square hides the overlap for the lower one only. -/
theorem squares_lopsided :
    ¬ ∀ r ∈ comparedKinds, Wanted countAtom r → Wanted countAtom r.converse →
      (Counts boxScene countAtom [lowerSquare, upperSquare, upperStroke] upperSquare lowerSquare r ↔
        Counts boxScene countAtom [lowerSquare, upperSquare, upperStroke] lowerSquare upperSquare
          r.converse) ∧
      (Counts boxScene countAtom [lowerSquare, upperSquare, upperStroke] lowerSquare upperSquare r ↔
        Counts boxScene countAtom [lowerSquare, upperSquare, upperStroke] upperSquare lowerSquare
          r.converse) := by
  intro h
  have hneed : (([lowerSquare, upperSquare, upperStroke] : List SObj).length : Int) <
      need boxScene countAtom := by
    rw [need_countAtom]
    decide
  have hw : Wanted countAtom .below ∧ Wanted countAtom .above := by
    constructor <;> simp [Wanted, want, countAtom, kRelations]
  have hmeet : classify [boxScene.shape upperSquare] [boxScene.shape lowerSquare] = .cross := by
    norm_num [classify, setBox, touches, tally, status, inSet, insideShape, boxScene, boxShape,
      upperSquare, lowerSquare, square, inBox, kProbe]
  have habove : Counts boxScene countAtom [lowerSquare, upperSquare, upperStroke] upperSquare
      lowerSquare .above :=
    (counts_iff_holds hneed (by decide) (by simp) (by decide) (by decide)).mpr
      ⟨hw.2, by rw [hmeet]; decide, by decide, by decide⟩
  have hbelow := ((h .below (by decide) hw.1 hw.2).2).mpr habove
  have hholds := (counts_iff_holds hneed (by decide) (by simp) (by decide) (by decide)).mp hbelow
  exact absurd hholds.2.2.1 (by decide)

end Kura.Engine.Relations
