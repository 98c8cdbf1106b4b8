import Kura.Engine.Bookmarks

/-!
# What the nested headings are

The nodes are the headings in their order, each node is on a deeper level than the
one it stands below, and of two siblings the later one is not on a deeper level. No
pointer that is used dangles, so that there always is a tree.
-/

namespace Kura.Engine.Bookmarks

namespace OutlineNodes

/-- The places and the levels of the last node, of the last of its kids, and so on. -/
def spine : OutlineNodes → List (Nat × Int)
  | nil => []
  | cons h kids rest =>
      match rest.spine with
      | [] => (0, h.level) :: kids.spine
      | (i, l) :: s => (i + 1, l) :: s

def head? : OutlineNodes → Option Heading
  | nil => none
  | cons h _ _ => some h

theorem spine_eq_nil_iff {nodes : OutlineNodes} : nodes.spine = [] ↔ nodes = nil := by
  cases nodes with
  | nil => exact iff_of_true rfl rfl
  | cons h kids rest =>
      refine iff_of_false ?_ (fun h => by cases h)
      rw [spine]
      split <;> exact List.cons_ne_nil _ _

/-- A heading is put behind the nodes of a vector of the spine. -/
inductive Push (n : Heading) : Nat → OutlineNodes → OutlineNodes → Prop
  | last : Push n 0 nil (cons n nil nil)
  | under {d h kids kids'} (hp : Push n d kids kids') :
      Push n (d + 1) (cons h kids nil) (cons h kids' nil)
  | behind {d h kids rest rest'} (hp : Push n d rest rest') (hd : rest = nil → d = 0) :
      Push n d (cons h kids rest) (cons h kids rest')

/-- A pointer along the spine leads to a vector, and a heading can be put there. -/
theorem exists_push (n : Heading) {d : Nat} {nodes : OutlineNodes} (hd : d ≤ nodes.spine.length) :
    ∃ vector nodes', nodes.at? ((nodes.spine.take d).map Prod.fst) = some vector ∧
      nodes.pushBack n ((nodes.spine.take d).map Prod.fst) = some nodes' ∧
      Push n d nodes nodes' ∧
      nodes'.spine = nodes.spine.take d ++ [(vector.length, n.level)] := by
  induction nodes generalizing d with
  | nil =>
      obtain rfl : d = 0 := Nat.le_zero.mp hd
      exact ⟨nil, cons n nil nil, rfl, rfl, .last, rfl⟩
  | cons h kids rest ihk ihr =>
      cases d with
      | zero =>
          obtain ⟨vector, rest', hat, hpush, hrel, hspine⟩ := ihr (Nat.zero_le _)
          have hat' : some rest = some vector := by rwa [List.take_zero, List.map_nil, at?] at hat
          obtain rfl : rest = vector := Option.some_inj.mp hat'
          have hlast : rest'.spine = [(rest.length, n.level)] := hspine
          have hwhole : (cons h kids rest).pushBack n [] = some (cons h kids rest') := by
            have hrest : rest.pushBack n [] = some rest' := hpush
            rw [pushBack, hrest, Option.map_some]
          refine ⟨cons h kids rest, cons h kids rest', rfl, hwhole, .behind hrel fun _ => rfl, ?_⟩
          rw [spine, hlast]
          rfl
      | succ d =>
          cases hrest : rest.spine with
          | nil =>
              obtain rfl := spine_eq_nil_iff.mp hrest
              have hd' : d ≤ kids.spine.length := Nat.le_of_succ_le_succ hd
              obtain ⟨vector, kids', hat, hpush, hrel, hspine⟩ := ihk hd'
              refine ⟨vector, cons h kids' nil, hat, ?_, .under hrel, ?_⟩
              · have hway : (((cons h kids nil).spine.take (d + 1)).map Prod.fst) =
                    0 :: (kids.spine.take d).map Prod.fst := rfl
                rw [hway, pushBack, hpush, Option.map_some]
              · have hdown : (cons h kids' nil).spine = (0, h.level) :: kids'.spine := rfl
                rw [hdown, hspine]
                rfl
          | cons x s =>
              have hspineEq : (cons h kids rest).spine = (x.1 + 1, x.2) :: s := by
                rw [spine, hrest]
              have hd' : d + 1 ≤ rest.spine.length := by
                rw [hspineEq] at hd
                rw [hrest]
                exact hd
              obtain ⟨vector, rest', hat, hpush, hrel, hspine⟩ := ihr hd'
              rw [hrest, List.take_succ_cons, List.map_cons] at hat hpush
              rw [hrest, List.take_succ_cons, List.cons_append] at hspine
              have hne : rest ≠ nil := fun hnil => by
                rw [spine_eq_nil_iff.mpr hnil] at hrest
                cases hrest
              refine ⟨vector, cons h kids rest', ?_, ?_,
                .behind hrel fun hnil => absurd hnil hne, ?_⟩
              · rw [hspineEq, List.take_succ_cons, List.map_cons, at?, hat]
              · rw [hspineEq, List.take_succ_cons, List.map_cons, pushBack, hpush, Option.map_some]
              · rw [spine, hspine, hspineEq, List.take_succ_cons, List.cons_append]

variable {n : Heading} {d : Nat} {nodes nodes' : OutlineNodes}

/-- The new node is the last one. -/
theorem Push.preorder_eq (h : Push n d nodes nodes') :
    nodes'.preorder = nodes.preorder ++ [n] := by
  induction h with
  | last => rfl
  | under hp ih =>
      simp only [preorder, ih, List.append_nil, List.cons_append]
  | behind hp hd ih => rw [preorder, preorder, ih, List.cons_append, List.append_assoc]

theorem Push.head?_eq (h : Push n d nodes nodes') (hne : nodes ≠ nil) :
    nodes'.head? = nodes.head? := by
  cases h with
  | last => exact absurd rfl hne
  | under => rfl
  | behind => rfl

/-- Nodes are on deeper levels than what they stand below, and siblings do not get deeper. -/
def Ordered : Option Int → OutlineNodes → Prop
  | _, nil => True
  | above, cons h kids rest =>
      (∀ l ∈ above, l < h.level) ∧ Ordered (some h.level) kids ∧ Ordered above rest ∧
        ∀ g ∈ rest.head?, g.level ≤ h.level

/-- The level of the node that a vector of the spine stands below. -/
def levelAbove (above : Option Int) (nodes : OutlineNodes) : Nat → Option Int
  | 0 => above
  | d + 1 => nodes.spine[d]?.map Prod.snd

theorem spine_behind {h : Heading} {kids rest : OutlineNodes} (hne : rest ≠ nil) (d : Nat) :
    (cons h kids rest).spine[d]?.map Prod.snd = rest.spine[d]?.map Prod.snd := by
  cases hrest : rest.spine with
  | nil => exact absurd (spine_eq_nil_iff.mp hrest) hne
  | cons x s =>
      rw [spine, hrest]
      cases d <;> rfl

/-- A new node fits if it is deeper than what it stands below, and no deeper than the sibling
before it. -/
theorem Push.ordered {above : Option Int} (h : Push n d nodes nodes')
    (hordered : Ordered above nodes) (hlow : ∀ l ∈ levelAbove above nodes d, l < n.level)
    (hhigh : ∀ x ∈ nodes.spine[d]?, n.level ≤ x.2) : Ordered above nodes' := by
  induction h generalizing above with
  | last => exact ⟨hlow, trivial, trivial, fun g hg => by cases hg⟩
  | @under d h kids kids' hp ih =>
      obtain ⟨habove, hkids, -, -⟩ := hordered
      refine ⟨habove, ih hkids ?_ ?_, trivial, fun g hg => by cases hg⟩
      · intro l hl
        refine hlow l ?_
        cases d with
        | zero => exact hl
        | succ d => exact hl
      · exact hhigh
  | @behind d h kids rest rest' hp hd ih =>
      obtain ⟨habove, hkids, hrest, hnext⟩ := hordered
      by_cases hnil : rest = nil
      · subst hnil
        obtain rfl := hd rfl
        have hfits : n.level ≤ h.level := hhigh _ rfl
        cases hp with
        | last => exact ⟨habove, hkids, ⟨hlow, trivial, trivial, fun g hg => by cases hg⟩,
            fun g hg => by cases hg; exact hfits⟩
      · refine ⟨habove, hkids, ih hrest ?_ ?_, ?_⟩
        · intro l hl
          refine hlow l ?_
          cases d with
          | zero => exact hl
          | succ d => rwa [levelAbove, spine_behind hnil]
        · intro x hx
          have hlevel := @spine_behind h kids _ hnil d
          rw [hx, Option.map_some, Option.map_eq_some_iff] at hlevel
          obtain ⟨y, hy, hsame⟩ := hlevel
          rw [← hsame]
          exact hhigh y hy
        · rw [hp.head?_eq hnil]
          exact hnext

/-- All nodes of a vector are deeper than what it stands below. -/
theorem Ordered.lt_level {l : Int} (h : Ordered (some l) nodes) :
    ∀ g ∈ nodes.preorder, l < g.level := by
  have hgeneral : ∀ above, Ordered above nodes →
      ∀ l ∈ above, ∀ g ∈ nodes.preorder, l < g.level := by
    clear h
    induction nodes with
    | nil => intro _ _ _ _ g hg; cases hg
    | cons h kids rest ihk ihr =>
        rintro above ⟨habove, hkids, hrest, -⟩ l hl g hg
        rw [preorder, List.mem_cons, List.mem_append] at hg
        obtain rfl | hg | hg := hg
        · exact habove l hl
        · exact (habove l hl).trans (ihk _ hkids h.level rfl g hg)
        · exact ihr above hrest l hl g hg
  exact hgeneral _ h l rfl

end OutlineNodes

open OutlineNodes

/-- The levels on the stack. -/
def levelStack (spine : List (Nat × Int)) : List Int := (spine.map Prod.snd).reverse ++ [0]

/-- The pointers on the stack. -/
def pointerStack (spine : List (Nat × Int)) : List Pointer :=
  ((spine.map Prod.fst).inits.map some).reverse

theorem levelStack_concat (s : List (Nat × Int)) (x : Nat × Int) :
    levelStack (s ++ [x]) = x.2 :: levelStack s := by
  rw [levelStack, List.map_append, List.reverse_append]
  rfl

theorem pointerStack_concat (s : List (Nat × Int)) (x : Nat × Int) :
    pointerStack (s ++ [x]) = some ((s ++ [x]).map Prod.fst) :: pointerStack s := by
  rw [pointerStack, List.map_append, List.map_singleton, List.inits_append, pointerStack]
  simp

theorem pointerStack_ne_nil (s : List (Nat × Int)) :
    ∃ ps, pointerStack s = some (s.map Prod.fst) :: ps := by
  induction s using List.reverseRecOn with
  | nil => exact ⟨[], rfl⟩
  | append_singleton s x _ => exact ⟨_, pointerStack_concat s x⟩

theorem levelStack_ne_nil (s : List (Nat × Int)) : ∃ l ls, levelStack s = l :: ls := by
  induction s using List.reverseRecOn with
  | nil => exact ⟨0, [], rfl⟩
  | append_singleton s x _ => exact ⟨_, _, levelStack_concat s x⟩

/-- The stacks are cut where the levels above are less deep than the new heading. -/
theorem unwind_eq (level : Int) (s : List (Nat × Int)) :
    ∃ d ≤ s.length, unwind level (levelStack s) (pointerStack s) =
        (levelStack (s.take d), pointerStack (s.take d)) ∧
      (∀ x ∈ (s.take d).getLast?, x.2 < level) ∧ ∀ x ∈ s[d]?, level ≤ x.2 := by
  induction s using List.reverseRecOn with
  | nil =>
      refine ⟨0, le_rfl, ?_, fun x hx => (by cases hx), fun x hx => (by cases hx)⟩
      rfl
  | append_singleton s x ih =>
      obtain ⟨l, ls, hls⟩ := levelStack_ne_nil s
      rw [levelStack_concat, pointerStack_concat, hls, unwind, ← hls]
      by_cases hle : level ≤ x.2
      · obtain ⟨d, hd, heq, hlow, hhigh⟩ := ih
        have htake : (s ++ [x]).take d = s.take d := List.take_append_of_le_length hd
        refine ⟨d, hd.trans (by simp), ?_, ?_, ?_⟩
        · rw [if_pos hle, heq, htake]
        · rwa [htake]
        · intro y hy
          obtain hlt | rfl := Nat.lt_or_eq_of_le hd
          · rw [List.getElem?_append_left hlt] at hy
            exact hhigh y hy
          · rw [List.getElem?_concat_length] at hy
            cases hy
            exact hle
      · refine ⟨s.length + 1, by simp, ?_, ?_, ?_⟩
        · rw [if_neg hle, List.take_of_length_le (by simp), levelStack_concat, pointerStack_concat]
        · rw [List.take_of_length_le (by simp), List.getLast?_concat]
          intro y hy
          cases hy
          exact lt_of_not_ge hle
        · intro y hy
          rw [List.getElem?_eq_none (by simp)] at hy
          cases hy

/-- The vectors that the pointers lead to stay where they are: the one that grows is the
innermost. -/
theorem moved_pointerStack (s : List (Nat × Int)) :
    moved (s.map Prod.fst) (pointerStack s) = pointerStack s := by
  refine (List.map_congr_left fun p hp => ?_).trans (List.map_id _)
  obtain ⟨w, hw, rfl⟩ := List.mem_map.mp (List.mem_reverse.mp hp)
  have hstart : w <+: s.map Prod.fst := (List.mem_inits _ _).mp hw
  have hkeep : (!((s.map Prod.fst).isPrefixOf w && s.map Prod.fst != w)) = true := by
    rw [Bool.not_eq_true', Bool.and_eq_false_iff]
    by_cases hsame : s.map Prod.fst = w
    · exact Or.inr (by simp [hsame])
    · refine Or.inl (Bool.eq_false_iff.mpr fun h => hsame ?_)
      have hback := List.isPrefixOf_iff_prefix.mp h
      exact hback.eq_of_length (hback.length_le.antisymm hstart.length_le)
  rw [Option.filter_some, if_pos hkeep]
  rfl

/-- The state of `nest` behind some headings. -/
structure Ready (s : Nest) (done : List Heading) : Prop where
  stack : s.stack = pointerStack s.out.spine
  levels : s.levels = levelStack s.out.spine
  preorder : s.out.preorder = done
  ordered : s.out.Ordered none

/-- A heading can always be added, and the nest is ready for the next. -/
theorem Ready.add {s : Nest} {done : List Heading} (h : Ready s done) (n : Heading) :
    ∃ s', s.add n = some s' ∧ Ready s' (done ++ [n]) := by
  obtain ⟨d, hd, hpopped, hlow, hhigh⟩ := unwind_eq n.level s.out.spine
  obtain ⟨vector, out, hat, hpush, hrel, hspine⟩ := exists_push n hd
  obtain ⟨ps, hps⟩ := pointerStack_ne_nil (s.out.spine.take d)
  have hmoved := moved_pointerStack (s.out.spine.take d)
  have hadd : s.add n = some
      { out
        stack := some ((s.out.spine.take d).map Prod.fst ++ [vector.length]) ::
          pointerStack (s.out.spine.take d)
        levels := n.level :: levelStack (s.out.spine.take d) } := by
    rw [Nest.add, h.levels, h.stack, hpopped]
    simp only [hps]
    rw [hat, Option.bind_some, hpush, Option.map_some, ← hps, hmoved]
  refine ⟨_, hadd, ?_, ?_, ?_, ?_⟩
  · rw [hspine, pointerStack_concat, List.map_append]
    rfl
  · rw [hspine, levelStack_concat]
  · rw [hrel.preorder_eq, h.preorder]
  · refine hrel.ordered h.ordered ?_ hhigh
    intro l hl
    cases d with
    | zero => cases hl
    | succ d =>
        obtain ⟨x, hx, rfl⟩ := Option.map_eq_some_iff.mp hl
        refine hlow x ?_
        rw [List.getLast?_eq_getElem?, List.length_take_of_le hd, Nat.add_sub_cancel,
          List.getElem?_take_of_lt (Nat.lt_succ_self d)]
        exact hx

/-- Headings are always nested. -/
theorem exists_nest (flat : List Heading) :
    ∃ tree, nest flat = some tree ∧ tree.preorder = flat ∧ tree.Ordered none := by
  have hrun : ∃ s, flat.foldlM Nest.add ⟨.nil, [some []], [0]⟩ = some s ∧ Ready s flat := by
    induction flat using List.reverseRecOn with
    | nil => exact ⟨_, rfl, rfl, rfl, rfl, trivial⟩
    | append_singleton flat n ih =>
        obtain ⟨s, hs, hready⟩ := ih
        obtain ⟨s', hs', hready'⟩ := hready.add n
        refine ⟨s', ?_, hready'⟩
        rw [List.foldlM_append, hs]
        simpa using hs'
  obtain ⟨s, hs, hready⟩ := hrun
  exact ⟨s.out, by rw [nest, hs, Option.map_some], hready.preorder, hready.ordered⟩

end Kura.Engine.Bookmarks
