import Kura.Base.Search
import Mathlib.Logic.Relation

/-!
# Reading within bounds

Every read of a list at a place behind its end fails, and so does what needs the
value. Tests are connected as in C: the second one is made only if it matters.
Loops are given by their step and run for at most some rounds.
-/

namespace Kura.Base

variable {α σ ρ : Type*}

/-- The second test is made if the first one holds. -/
def cand (a b : Option Bool) : Option Bool := a.bind fun x => if x then b else some false

/-- The second test is made if the first one does not hold. -/
def cor (a b : Option Bool) : Option Bool := a.bind fun x => if x then some true else b

@[simp]
theorem cand_true (b : Option Bool) : cand (some true) b = b := rfl

@[simp]
theorem cand_false (b : Option Bool) : cand (some false) b = some false := rfl

@[simp]
theorem cor_false (b : Option Bool) : cor (some false) b = b := rfl

theorem cand_isSome {a b : Option Bool} (ha : a.isSome) (hb : a = some true → b.isSome) :
    (cand a b).isSome := by
  obtain ⟨x, rfl⟩ := Option.isSome_iff_exists.mp ha
  cases x with
  | true => exact hb rfl
  | false => rfl

theorem cor_isSome {a b : Option Bool} (ha : a.isSome) (hb : a = some false → b.isSome) :
    (cor a b).isSome := by
  obtain ⟨x, rfl⟩ := Option.isSome_iff_exists.mp ha
  cases x with
  | true => rfl
  | false => exact hb rfl

theorem cand_eq_true_iff {a b : Option Bool} :
    cand a b = some true ↔ a = some true ∧ b = some true := by
  match a with
  | none => exact iff_of_false (fun h => by cases h) (fun h => by cases h.1)
  | some true => exact ⟨fun h => ⟨rfl, h⟩, fun h => h.2⟩
  | some false => exact iff_of_false (fun h => by cases h) (fun h => by cases h.1)

theorem cor_eq_false_iff {a b : Option Bool} :
    cor a b = some false ↔ a = some false ∧ b = some false := by
  match a with
  | none => exact iff_of_false (fun h => by cases h) (fun h => by cases h.1)
  | some true => exact iff_of_false (fun h => by cases h) (fun h => by cases h.1)
  | some false => exact ⟨fun h => ⟨rfl, h⟩, fun h => h.2⟩

/-- What needs a value has a result if the value is there. -/
theorem bind_isSome {β γ : Type*} {a : Option β} {f : β → Option γ} (ha : a.isSome)
    (hf : ∀ x, a = some x → (f x).isSome) : (a.bind f).isSome := by
  obtain ⟨x, rfl⟩ := Option.isSome_iff_exists.mp ha
  exact hf x rfl

/-- A branch on a test. -/
theorem branch_isSome {β : Type*} {a : Option Bool} {x y : Option β} (ha : a.isSome)
    (hx : a = some true → x.isSome) (hy : a = some false → y.isSome) :
    (a.bind fun b => if b = true then x else y).isSome := by
  obtain ⟨b, rfl⟩ := Option.isSome_iff_exists.mp ha
  cases b with
  | true => exact hx rfl
  | false => exact hy rfl

theorem branch_eq_some {β : Type*} {a : Option Bool} {x y : Option β} {v : β}
    (h : (a.bind fun b => if b = true then x else y) = some v) :
    (a = some true ∧ x = some v) ∨ (a = some false ∧ y = some v) := by
  match a with
  | none => cases h
  | some true => exact Or.inl ⟨rfl, h⟩
  | some false => exact Or.inr ⟨rfl, h⟩

/-- The value before a place; there is none before the first one. -/
def beforeAt (d : List α) (i : Nat) : Option α := if i = 0 then none else d[i - 1]?

/-- Compares a whole part of a list with a pattern. -/
def sameAt [DecidableEq α] (d : List α) (i : Nat) (p : List α) : Option Bool :=
  if i + p.length ≤ d.length then some (occursAt p d i) else none

/-- A part of a list. -/
def sliceAt (d : List α) (i j : Nat) : Option (List α) :=
  if j ≤ d.length then some ((d.drop i).take (j - i)) else none

theorem beforeAt_isSome {d : List α} {i : Nat} (h : 0 < i) (hi : i ≤ d.length) :
    (beforeAt d i).isSome := by
  rw [beforeAt, if_neg h.ne', List.getElem?_eq_getElem (by omega)]
  rfl

theorem getElem?_isSome {d : List α} {i : Nat} (h : i < d.length) : (d[i]?).isSome := by
  rw [List.getElem?_eq_getElem h]
  rfl

theorem sameAt_isSome_iff [DecidableEq α] {d p : List α} {i : Nat} :
    (sameAt d i p).isSome ↔ i + p.length ≤ d.length := by
  rw [sameAt]
  split
  · rename_i h
    exact iff_of_true rfl h
  · rename_i h
    exact iff_of_false (fun h => by cases h) h

theorem sameAt_of_le [DecidableEq α] {d p : List α} {i : Nat} (h : i + p.length ≤ d.length) :
    sameAt d i p = some (occursAt p d i) := if_pos h

/-- The place behind the values with a property. -/
def scanWhile (p : α → Bool) (d : List α) (i : Nat) : Option Nat :=
  if i < d.length then
    (d[i]?).bind fun c => if p c then scanWhile p d (i + 1) else some i
  else some i
  termination_by d.length - i

/-- Where a run of values with a property ends. -/
def scanEnd (p : α → Bool) (d : List α) (i : Nat) : Nat := i + ((d.drop i).takeWhile p).length

theorem scanEnd_of_pos {p : α → Bool} {d : List α} {i : Nat} {c : α} (hc : d[i]? = some c)
    (h : p c = true) : scanEnd p d i = scanEnd p d (i + 1) := by
  obtain ⟨hi, rfl⟩ := List.getElem?_eq_some_iff.mp hc
  rw [scanEnd, scanEnd, List.drop_eq_getElem_cons hi, List.takeWhile_cons_of_pos h,
    List.length_cons]
  omega

theorem scanEnd_of_neg {p : α → Bool} {d : List α} {i : Nat} {c : α} (hc : d[i]? = some c)
    (h : p c = false) : scanEnd p d i = i := by
  obtain ⟨hi, rfl⟩ := List.getElem?_eq_some_iff.mp hc
  rw [scanEnd, List.drop_eq_getElem_cons hi,
    List.takeWhile_cons_of_neg (ne_true_of_eq_false h), List.length_nil, Nat.add_zero]

theorem scanEnd_of_le {p : α → Bool} {d : List α} {i : Nat} (h : d.length ≤ i) :
    scanEnd p d i = i := by
  rw [scanEnd, List.drop_eq_nil_of_le h, List.takeWhile_nil, List.length_nil, Nat.add_zero]

/-- A scan reads nothing that it must not read. -/
theorem scanWhile_eq (p : α → Bool) (d : List α) (i : Nat) :
    scanWhile p d i = some (scanEnd p d i) := by
  fun_induction scanWhile p d i with
  | case1 i hi ih =>
      have hc := List.getElem?_eq_getElem hi
      rw [hc, Option.bind_some]
      by_cases hp : p d[i] = true
      · rw [if_pos hp, ih, scanEnd_of_pos hc hp]
      · rw [if_neg hp, scanEnd_of_neg hc (Bool.not_eq_true _ ▸ hp)]
  | case2 i hi => rw [scanEnd_of_le (not_lt.mp hi)]

theorem le_scanEnd (p : α → Bool) (d : List α) (i : Nat) : i ≤ scanEnd p d i := Nat.le_add_right _ _

theorem scanEnd_le {p : α → Bool} {d : List α} {i : Nat} (h : i ≤ d.length) :
    scanEnd p d i ≤ d.length := by
  have hlen := (List.takeWhile_sublist (p := p) (l := d.drop i)).length_le
  rw [List.length_drop] at hlen
  rw [scanEnd]
  omega

/-- A run of values with a property that another value ends. -/
theorem scanEnd_of_prefix {p : α → Bool} {d t : List α} {i : Nat} {c : α} (ht : t <+: d.drop i)
    (hall : ∀ a ∈ t, p a = true) (hc : d[i + t.length]? = some c) (hend : p c = false) :
    scanEnd p d i = i + t.length := by
  obtain ⟨rest, hrest⟩ := ht
  have hhead : rest.head? = some c := by
    rw [← hc, ← List.getElem?_drop, ← hrest, List.getElem?_append_right (Nat.le_refl _),
      Nat.sub_self, List.head?_eq_getElem?]
  rw [scanEnd, ← hrest, List.takeWhile_append_of_pos hall]
  cases rest with
  | nil => cases hhead
  | cons c' rest =>
      cases hhead
      rw [List.takeWhile_cons_of_neg (ne_true_of_eq_false hend), List.append_nil]

/-- A loop: each step gives its result or the next state. -/
def loop (step : σ → Option (ρ ⊕ σ)) : Nat → σ → Option ρ
  | 0, _ => none
  | rounds + 1, s =>
      match step s with
      | none => none
      | some (.inl r) => some r
      | some (.inr s') => loop step rounds s'

/-- One state comes after another. -/
def Follows (step : σ → Option (ρ ⊕ σ)) (s s' : σ) : Prop := step s = some (.inr s')

/-- One state is reached from another. -/
abbrev Reaches (step : σ → Option (ρ ⊕ σ)) : σ → σ → Prop := Relation.ReflTransGen (Follows step)

variable {step : σ → Option (ρ ⊕ σ)}

theorem loop_of_follows {s s' : σ} (h : Follows step s s') (rounds : Nat) :
    loop step (rounds + 1) s = loop step rounds s' := by
  rw [loop, h]

/-- A loop with a result has come to a state that gives it. -/
theorem reaches_of_loop {rounds : Nat} {s : σ} {r : ρ} (h : loop step rounds s = some r) :
    ∃ s', Reaches step s s' ∧ step s' = some (.inl r) := by
  induction rounds generalizing s with
  | zero => cases h
  | succ rounds ih =>
      rw [loop] at h
      cases hstep : step s with
      | none =>
          rw [hstep] at h
          cases h
      | some x =>
          rw [hstep] at h
          cases x with
          | inl r' =>
              cases h
              exact ⟨s, .refl, hstep⟩
          | inr s₁ =>
              obtain ⟨s', hreach, hresult⟩ := ih h
              exact ⟨s', .head hstep hreach, hresult⟩

/-- All states that a loop with a result comes to have a next step, and none gives another
result. -/
theorem step_of_loop {rounds : Nat} {s s' : σ} {r : ρ} (h : loop step rounds s = some r)
    (hreach : Reaches step s s') : (step s').isSome ∧ ∀ r', step s' = some (.inl r') → r' = r := by
  induction hreach using Relation.ReflTransGen.head_induction_on generalizing rounds with
  | refl =>
      cases rounds with
      | zero => cases h
      | succ rounds =>
          rw [loop] at h
          cases hstep : step s' with
          | none =>
              rw [hstep] at h
              cases h
          | some x =>
              rw [hstep] at h
              refine ⟨rfl, ?_⟩
              rintro r' ⟨⟩
              exact Option.some.inj h
  | head hstep _ ih =>
      cases rounds with
      | zero => cases h
      | succ rounds =>
          rw [loop_of_follows hstep] at h
          exact ih h

/-- A loop whose measure goes down has a result if no step fails. -/
theorem loop_isSome {μ : σ → Nat} {s : σ}
    (hstep : ∀ s', Reaches step s s' → (step s').isSome)
    (hdown : ∀ s' s'', Reaches step s s' → Follows step s' s'' → μ s'' < μ s') {rounds : Nat}
    (hrounds : μ s < rounds) : (loop step rounds s).isSome := by
  induction rounds generalizing s with
  | zero => omega
  | succ rounds ih =>
      obtain ⟨x, hx⟩ := Option.isSome_iff_exists.mp (hstep s .refl)
      rw [loop, hx]
      cases x with
      | inl r => rfl
      | inr s₁ =>
          have hlt := hdown s s₁ .refl hx
          exact ih (fun s' h => hstep s' (.head hx h)) (fun s' s'' h => hdown s' s'' (.head hx h))
            (by omega)

/-- A step that does not fail, with what its result or the next state is like. -/
def StepOk (Q : ρ → Prop) (N : σ → Prop) (x : Option (ρ ⊕ σ)) : Prop :=
  ∃ y, x = some y ∧ (∀ r, y = .inl r → Q r) ∧ ∀ s', y = .inr s' → N s'

variable {Q : ρ → Prop} {N : σ → Prop}

theorem stepOk_stop {r : ρ} (h : Q r) : StepOk Q N (some (.inl r)) :=
  ⟨.inl r, rfl, fun _ hr => Sum.inl.inj hr ▸ h, fun _ hs => by cases hs⟩

theorem stepOk_next {s : σ} (h : N s) : StepOk Q N (some (.inr s)) :=
  ⟨.inr s, rfl, fun _ hr => (by cases hr), fun _ hs => Sum.inr.inj hs ▸ h⟩

theorem stepOk_branch {a : Option Bool} {x y : Option (ρ ⊕ σ)} (ha : a.isSome)
    (hx : a = some true → StepOk Q N x) (hy : a = some false → StepOk Q N y) :
    StepOk Q N (a.bind fun b => if b = true then x else y) := by
  obtain ⟨b, rfl⟩ := Option.isSome_iff_exists.mp ha
  cases b with
  | true => exact hx rfl
  | false => exact hy rfl

/-- A loop whose steps succeed, keep an invariant and make the measure go down has a result. -/
theorem loop_total {P : σ → Prop} {μ : σ → Nat}
    (hstep : ∀ s, P s → StepOk Q (fun s' => P s' ∧ μ s' < μ s) (step s)) {s : σ} (hs : P s)
    {rounds : Nat} (hrounds : μ s < rounds) : ∃ r, loop step rounds s = some r ∧ Q r := by
  have hreach : ∀ s', Reaches step s s' → P s' := by
    intro s' h
    induction h with
    | refl => exact hs
    | tail _ hlast ih =>
        obtain ⟨x, hx, -, hnext⟩ := hstep _ ih
        exact (hnext _ (Option.some.inj (hx.symm.trans hlast))).1
  have hsome : (loop step rounds s).isSome := by
    refine loop_isSome (μ := μ) ?_ ?_ hrounds
    · intro s' h
      obtain ⟨x, hx, -⟩ := hstep s' (hreach s' h)
      rw [hx]
      rfl
    · intro s' s'' h hlast
      obtain ⟨x, hx, -, hnext⟩ := hstep s' (hreach s' h)
      exact (hnext _ (Option.some.inj (hx.symm.trans hlast))).2
  obtain ⟨r, hr⟩ := Option.isSome_iff_exists.mp hsome
  obtain ⟨s', hreached, hresult⟩ := reaches_of_loop hr
  obtain ⟨x, hx, hQ, -⟩ := hstep s' (hreach s' hreached)
  exact ⟨r, hr, hQ r (Option.some.inj (hx.symm.trans hresult))⟩

end Kura.Base
