import Mathlib.Data.Set.Insert

/-!
# A search that goes down first

A search visits a node and then, one after the other, the nodes that it leads to.
It notes the keys of the nodes it has entered and enters none of them twice, and
it goes down a limited number of levels.

A node without a key is entered each time. Nodes that occur are told by their
keys. A node is settled if all that it leads to has been entered; what has been
entered is settled unless it is still being searched.
-/

namespace Kura.Base

/-- Nodes with their keys, whether something is shown at them, and where they lead. -/
structure VisitGraph (ν κ : Type*) where
  key : ν → Option κ
  hit : ν → Bool
  next : ν → List ν

namespace VisitGraph

variable {ν κ : Type*} (g : VisitGraph ν κ)

/-- Something is shown at a node or at one that it leads to. -/
inductive Reaches : ν → Prop
  | here {v : ν} (h : g.hit v = true) : Reaches v
  | next {v w : ν} (hw : w ∈ g.next v) (h : Reaches w) : Reaches v

/-- Nodes that occur, which are told by their keys. -/
structure Occur (g : VisitGraph ν κ) (good : ν → Prop) : Prop where
  next : ∀ v, good v → ∀ w ∈ g.next v, good w
  key : ∀ v w k, good v → good w → g.key v = some k → g.key w = some k → v = w

/-- The keys with that of a node. -/
def enterKey (S : Set κ) (v : ν) : Set κ := {k | g.key v = some k ∨ k ∈ S}

/-- Where nothing is entered twice, there are at most so many levels below a node. -/
def Nested : Nat → Set κ → ν → Prop
  | 0, S, v => ∃ k ∈ S, g.key v = some k
  | n + 1, S, v => (∀ k, g.key v = some k → k ∉ S) → ∀ w ∈ g.next v, Nested n (g.enterKey S v) w

variable {g}

theorem Nested.mono {n : Nat} {S : Set κ} {v : ν} (h : g.Nested n S v) {n' : Nat} (hle : n ≤ n') :
    g.Nested n' S v := by
  induction n generalizing S v n' with
  | zero =>
      obtain ⟨k, hk, hkey⟩ := h
      cases n' with
      | zero => exact ⟨k, hk, hkey⟩
      | succ n' => exact fun hnew => absurd hk (hnew k hkey)
  | succ n ih =>
      obtain ⟨n', rfl⟩ : ∃ m, n' = m + 1 := ⟨n' - 1, by omega⟩
      exact fun hnew w hw => ih (h hnew w hw) (Nat.le_of_succ_le_succ hle)

section Search

variable [DecidableEq κ]

/-- Enters a node, unless it was entered before. -/
def enter (key : Option κ) (seen : List κ) : Option (List κ) :=
  match key with
  | none => some seen
  | some k => if k ∈ seen then none else some (k :: seen)

variable (g)

/-- The search, for at most some levels. -/
def visit : Nat → List κ × Bool → ν → List κ × Bool
  | 0, s, _ => s
  | levels + 1, s, v =>
      match enter (g.key v) s.1 with
      | none => s
      | some seen => (g.next v).foldl (visit levels) (seen, s.2 || g.hit v)

variable {g}

theorem enter_eq_none {key : Option κ} {seen : List κ} (h : enter key seen = none) :
    ∃ k ∈ seen, key = some k := by
  cases key with
  | none => cases h
  | some k =>
      rw [enter] at h
      split_ifs at h with hk
      exact ⟨k, hk, rfl⟩

theorem enter_eq_some {key : Option κ} {seen seen' : List κ} (h : enter key seen = some seen') :
    (∀ k, key = some k → k ∉ seen) ∧ ∀ k, k ∈ seen' ↔ key = some k ∨ k ∈ seen := by
  cases key with
  | none =>
      cases h
      exact ⟨fun _ h => (nomatch h), fun k => (or_iff_right fun h => (nomatch h)).symm⟩
  | some k =>
      rw [enter] at h
      split_ifs at h with hk
      cases h
      refine ⟨fun k' hk' => Option.some.inj hk' ▸ hk, fun k' => ?_⟩
      rw [List.mem_cons, Option.some.injEq, eq_comm]

/-- Nothing comes of a node without a key that shows nothing and leads nowhere. -/
theorem visit_of_bare {v : ν} (hkey : g.key v = none) (hhit : g.hit v = false)
    (hnext : g.next v = []) (levels : Nat) (s : List κ × Bool) : g.visit levels s v = s := by
  cases levels with
  | zero => rfl
  | succ levels =>
      rw [visit, hkey, hhit, hnext, Bool.or_false]
      rfl

theorem foldl_visit_found {levels : Nat} {ws : List ν} (ih : ∀ s w, w ∈ ws →
    (g.visit levels s w).2 = true → s.2 = true ∨ g.Reaches w) (s : List κ × Bool)
    (h : (ws.foldl (g.visit levels) s).2 = true) : s.2 = true ∨ ∃ w ∈ ws, g.Reaches w := by
  induction ws generalizing s with
  | nil => exact Or.inl h
  | cons w ws ihws =>
      rcases ihws (fun s w' hw' => ih s w' (List.mem_cons_of_mem _ hw')) _ h with h | ⟨w', hw', h⟩
      · exact (ih s w List.mem_cons_self h).imp id fun h => ⟨w, List.mem_cons_self, h⟩
      · exact Or.inr ⟨w', List.mem_cons_of_mem _ hw', h⟩

theorem visit_found (levels : Nat) (s : List κ × Bool) (v : ν)
    (h : (g.visit levels s v).2 = true) : s.2 = true ∨ g.Reaches v := by
  induction levels generalizing s v with
  | zero => exact Or.inl h
  | succ levels ih =>
      rw [visit] at h
      cases henter : enter (g.key v) s.1 with
      | none =>
          rw [henter] at h
          exact Or.inl h
      | some seen =>
          rw [henter] at h
          rcases foldl_visit_found (fun s w _ => ih s w) _ h with h | ⟨w, hw, h⟩
          · rw [Bool.or_eq_true] at h
            exact h.imp id .here
          · exact Or.inr (.next hw h)

/-- Everything that a node leads to has been entered, and nothing is shown before that. -/
inductive Settled (g : VisitGraph ν κ) (seen : List κ) : ν → Prop
  | entered {v : ν} {k : κ} (hkey : g.key v = some k) (hk : k ∈ seen) : Settled g seen v
  | clear {v : ν} (hhit : g.hit v = false) (hnext : ∀ w ∈ g.next v, Settled g seen w) :
      Settled g seen v

/-- What has been entered is settled, apart from the nodes that are still being searched. -/
def Kept (g : VisitGraph ν κ) (good : ν → Prop) (busy : Set κ) (seen : List κ) : Prop :=
  ∀ v k, good v → g.key v = some k → k ∈ seen → k ∉ busy →
    g.hit v = false ∧ ∀ w ∈ g.next v, g.Settled seen w

omit [DecidableEq κ] in
theorem Settled.mono {seen seen' : List κ} (hsub : seen ⊆ seen') {v : ν} (h : g.Settled seen v) :
    g.Settled seen' v := by
  induction h with
  | entered hkey hk => exact .entered hkey (hsub hk)
  | clear hhit _ ih => exact .clear hhit ih

/-- A search that found nothing settles the node it started from. -/
structure Searched (g : VisitGraph ν κ) (good : ν → Prop) (busy : Set κ) (seen seen' : List κ)
    (vs : List ν) : Prop where
  sub : seen ⊆ seen'
  kept : g.Kept good busy seen'
  settled : ∀ v ∈ vs, g.Settled seen' v

theorem foldl_visit_yes {levels : Nat} (ih : ∀ seen w, (g.visit levels (seen, true) w).2 = true)
    (ws : List ν) (seen : List κ) : (ws.foldl (g.visit levels) (seen, true)).2 = true := by
  induction ws generalizing seen with
  | nil => rfl
  | cons w ws ihws =>
      have hw := ih seen w
      rw [List.foldl_cons]
      have hsplit : g.visit levels (seen, true) w = ((g.visit levels (seen, true) w).1, true) :=
        Prod.ext rfl hw
      rw [hsplit]
      exact ihws _

theorem visit_yes (levels : Nat) (seen : List κ) (v : ν) :
    (g.visit levels (seen, true) v).2 = true := by
  induction levels generalizing seen v with
  | zero => rfl
  | succ levels ih =>
      rw [visit]
      cases enter (g.key v) seen with
      | none => rfl
      | some seen => exact foldl_visit_yes ih _ _

variable {good : ν → Prop}

/-- The successors of a vertex, visited one after the other, are all searched. -/
theorem foldl_visit_searched {levels : Nat} {busy : Set κ} {ws : List ν}
    (ih : ∀ seen w, w ∈ ws → g.Kept good busy seen → (∀ k ∈ busy, k ∈ seen) →
      (g.visit levels (seen, false) w).2 = false →
      g.Searched good busy seen (g.visit levels (seen, false) w).1 [w])
    {seen : List κ} (hkept : g.Kept good busy seen) (hbusy : ∀ k ∈ busy, k ∈ seen)
    (h : (ws.foldl (g.visit levels) (seen, false)).2 = false) :
    g.Searched good busy seen (ws.foldl (g.visit levels) (seen, false)).1 ws := by
  induction ws generalizing seen with
  | nil => exact ⟨fun _ hk => hk, hkept, fun _ hv => absurd hv List.not_mem_nil⟩
  | cons w ws ihws =>
      rw [List.foldl_cons] at h ⊢
      cases hfirst : (g.visit levels (seen, false) w).2 with
      | true =>
          have hsplit : g.visit levels (seen, false) w =
              ((g.visit levels (seen, false) w).1, true) := Prod.ext rfl hfirst
          rw [hsplit, foldl_visit_yes (visit_yes levels)] at h
          cases h
      | false =>
          have hone := ih seen w List.mem_cons_self hkept hbusy hfirst
          have hsplit : g.visit levels (seen, false) w =
              ((g.visit levels (seen, false) w).1, false) := Prod.ext rfl hfirst
          rw [hsplit] at h ⊢
          have hrest := ihws (fun seen w' hw' => ih seen w' (List.mem_cons_of_mem _ hw')) hone.kept
            (fun k hk => hone.sub (hbusy k hk)) h
          refine ⟨fun k hk => hrest.sub (hone.sub hk), hrest.kept, fun v hv => ?_⟩
          rcases List.mem_cons.mp hv with rfl | hv
          · exact (hone.settled v List.mem_cons_self).mono hrest.sub
          · exact hrest.settled v hv

/-- A search that finds nothing settles its node, if the levels suffice. -/
theorem visit_searched (hoccur : g.Occur good) {levels : Nat} {busy : Set κ} {seen : List κ}
    {v : ν} (hv : good v) (hkept : g.Kept good busy seen) (hbusy : ∀ k ∈ busy, k ∈ seen)
    (hnest : g.Nested levels busy v) (h : (g.visit levels (seen, false) v).2 = false) :
    g.Searched good busy seen (g.visit levels (seen, false) v).1 [v] := by
  induction levels generalizing busy seen v with
  | zero =>
      obtain ⟨k, hk, hkey⟩ := hnest
      refine ⟨fun _ hk => hk, hkept, fun w hw => ?_⟩
      rw [List.mem_singleton.mp hw]
      exact .entered hkey (hbusy k hk)
  | succ levels ih =>
      rw [visit] at h ⊢
      dsimp only at h ⊢
      cases henter : enter (g.key v) seen with
      | none =>
          obtain ⟨k, hk, hkey⟩ := enter_eq_none henter
          refine ⟨fun _ hk => hk, hkept, fun w hw => ?_⟩
          rw [List.mem_singleton.mp hw]
          exact .entered hkey hk
      | some seen' =>
          rw [henter] at h
          dsimp only at h ⊢
          obtain ⟨hnew, hmem⟩ := enter_eq_some henter
          have hsub : seen ⊆ seen' := fun k hk => (hmem k).mpr (Or.inr hk)
          have hhit : g.hit v = false := by
            by_contra hne
            rw [Bool.not_eq_false] at hne
            rw [hne, Bool.or_true, foldl_visit_yes (visit_yes levels)] at h
            cases h
          rw [hhit, Bool.or_false] at h ⊢
          -- The node is still being searched while what it leads to is visited.
          have hkept' : g.Kept good (g.enterKey busy v) seen' := by
            intro w k hw hkey hk hfree
            have hold : k ∈ seen := by
              rcases (hmem k).mp hk with hk | hk
              · exact absurd (Or.inl hk) hfree
              · exact hk
            obtain ⟨hhit, hnext⟩ := hkept w k hw hkey hold fun hk => hfree (Or.inr hk)
            exact ⟨hhit, fun w' hw' => (hnext w' hw').mono hsub⟩
          have hbusy' : ∀ k ∈ g.enterKey busy v, k ∈ seen' := by
            intro k hk
            exact (hmem k).mpr (hk.imp id (hbusy k))
          have hbelow : ∀ w ∈ g.next v, g.Nested levels (g.enterKey busy v) w :=
            hnest fun k hkey hk => hnew k hkey (hbusy k hk)
          have hsearched := foldl_visit_searched (fun seen w hw hkept hbusy h =>
            ih (hoccur.next v hv w hw) hkept hbusy (hbelow w hw) h) hkept' hbusy' h
          refine ⟨fun k hk => hsearched.sub (hsub hk), ?_, fun w hw => ?_⟩
          · intro w k hw hkey hk hfree
            by_cases hself : g.key v = some k
            · rw [hoccur.key w v k hw hv hkey hself]
              exact ⟨hhit, hsearched.settled⟩
            · exact hsearched.kept w k hw hkey hk fun hk => hk.elim hself hfree
          · rw [List.mem_singleton.mp hw]
            exact .clear hhit hsearched.settled

/-- The search finds something exactly if something is reached, if the levels suffice. -/
theorem visit_iff (hoccur : g.Occur good) {levels : Nat} {v : ν} (hv : good v)
    (hnest : g.Nested levels ∅ v) : (g.visit levels ([], false) v).2 = true ↔ g.Reaches v := by
  constructor
  · intro h
    exact (visit_found levels _ v h).resolve_left Bool.false_ne_true
  · intro hreaches
    by_contra hne
    have hkept : g.Kept good ∅ [] := fun _ _ _ _ hk => absurd hk List.not_mem_nil
    have hsearched := visit_searched hoccur hv hkept (fun _ hk => absurd hk (Set.notMem_empty _))
      hnest (Bool.eq_false_iff.mpr hne)
    have hnone : ∀ w, g.Reaches w → good w →
        ¬ g.Settled (g.visit levels ([], false) v).1 w := by
      intro w hw
      induction hw with
      | here hhit =>
          intro hgood hsettled
          cases hsettled with
          | entered hkey hk =>
              have hfalse := (hsearched.kept _ _ hgood hkey hk (Set.notMem_empty _)).1
              rw [hhit] at hfalse
              cases hfalse
          | clear hfalse =>
              rw [hhit] at hfalse
              cases hfalse
      | next hw _ ih =>
          intro hgood hsettled
          refine ih (hoccur.next _ hgood _ hw) ?_
          cases hsettled with
          | entered hkey hk =>
              exact (hsearched.kept _ _ hgood hkey hk (Set.notMem_empty _)).2 _ hw
          | clear _ hnext => exact hnext _ hw
    exact hnone v hreaches hv (hsearched.settled v List.mem_cons_self)

end Search

end VisitGraph

end Kura.Base
