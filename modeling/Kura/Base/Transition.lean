import Mathlib

/-!
# Runs of guarded step functions

A machine is a function `next` from a state and a label to the following
state, undefined where the label is not enabled. A run lists its labels in
order. Runs are also taken under a condition on every step, so that a fact
about well-behaved environments is stated over the same step function.

The label carries everything the machine does not decide itself (clock
readings, failures, the choice between parties), so interleavings are label
lists and `next` stays executable.
-/

namespace Kura.Transition

variable {σ α : Type*}

/-- Runs whose every step, taken with the state it starts from, meets `ok`. -/
inductive RunWhere (next : σ → α → Option σ) (ok : σ → α → Prop) : σ → List α → σ → Prop
  | nil (s : σ) : RunWhere next ok s [] s
  | cons {s t u : σ} {a : α} {as : List α} (h : next s a = some t) (hok : ok s a)
      (tail : RunWhere next ok t as u) : RunWhere next ok s (a :: as) u

/-- Unrestricted runs. -/
abbrev Run (next : σ → α → Option σ) : σ → List α → σ → Prop :=
  RunWhere next fun _ _ => True

namespace RunWhere

variable {next : σ → α → Option σ} {ok : σ → α → Prop} {s t u : σ} {a : α} {as bs : List α}

/-- One enabled step is a run. -/
theorem single (h : next s a = some t) (hok : ok s a) : RunWhere next ok s [a] t :=
  .cons h hok (.nil t)

/-- An invariant kept by every step that meets the condition is kept by runs. -/
theorem invariant {I : σ → Prop}
    (hstep : ∀ s a t, I s → ok s a → next s a = some t → I t)
    (h : RunWhere next ok s as t) (hs : I s) : I t := by
  induction h with
  | nil => exact hs
  | cons hn hok _ ih => exact ih (hstep _ _ _ hs hok hn)

/-- A reflexive and transitive relation that contains every step from states
satisfying an invariant contains every run from such a state. -/
theorem related {I : σ → Prop} {R : σ → σ → Prop}
    (hrefl : ∀ s, R s s) (htrans : ∀ s t u, R s t → R t u → R s u)
    (hinv : ∀ s a t, I s → ok s a → next s a = some t → I t)
    (hstep : ∀ s a t, I s → ok s a → next s a = some t → R s t)
    (h : RunWhere next ok s as t) (hs : I s) : R s t := by
  induction h with
  | nil => exact hrefl _
  | cons hn hok _ ih =>
      exact htrans _ _ _ (hstep _ _ _ hs hok hn) (ih (hinv _ _ _ hs hok hn))

end RunWhere

/-- Executing a label list; undefined as soon as one label is not enabled. -/
def exec (next : σ → α → Option σ) : σ → List α → Option σ
  | s, [] => some s
  | s, a :: as => (next s a).bind fun t => exec next t as

/-- A successful execution is a run, under any condition its labels meet in
every state. -/
theorem runWhere_of_exec {next : σ → α → Option σ} {ok : σ → α → Prop} {s t : σ} {as : List α}
    (h : exec next s as = some t) (hok : ∀ a ∈ as, ∀ s, ok s a) : RunWhere next ok s as t := by
  induction as generalizing s with
  | nil =>
      cases h
      exact .nil _
  | cons a as ih =>
      obtain ⟨u, hu, hrest⟩ := Option.bind_eq_some_iff.mp h
      have htail := ih hrest fun b hb => hok b (List.mem_cons_of_mem a hb)
      exact .cons hu (hok a List.mem_cons_self s) htail

theorem run_of_exec {next : σ → α → Option σ} {s t : σ} {as : List α}
    (h : exec next s as = some t) : Run next s as t :=
  runWhere_of_exec h fun _ _ _ => trivial

/-- If every step of a total machine adds to a count exactly when it is bad,
the count of a run says whether a step of it was. -/
theorem foldl_count {step : σ → α → σ} {bad : σ → α → Prop} {I : σ → Nat → Prop}
    (hstep : ∀ s n a, I s n → ∃ k, I (step s a) (n + k) ∧ (k = 0 ↔ ¬ bad s a)) {s : σ} {n : Nat}
    (h : I s n) (as : List α) :
    ∃ k, I (as.foldl step s) (n + k) ∧
      (k = 0 ↔ ∀ pre a post, as = pre ++ a :: post → ¬ bad (pre.foldl step s) a) := by
  induction as generalizing s n with
  | nil =>
      refine ⟨0, h, iff_of_true rfl ?_⟩
      intro pre a post heq
      simp at heq
  | cons b as ih =>
      obtain ⟨k₁, h₁, hfirst⟩ := hstep s n b h
      obtain ⟨k₂, h₂, hrest⟩ := ih h₁
      refine ⟨k₁ + k₂, by rw [← Nat.add_assoc]; exact h₂, ?_⟩
      rw [Nat.add_eq_zero_iff, hfirst, hrest]
      constructor
      · rintro ⟨hb, hall⟩ pre a post heq
        cases pre with
        | nil =>
            obtain ⟨rfl, rfl⟩ := List.cons.inj heq
            exact hb
        | cons p pre =>
            obtain ⟨rfl, htail⟩ := List.cons.inj heq
            exact hall pre a post htail
      · intro hall
        refine ⟨hall [] b as rfl, ?_⟩
        intro pre a post heq
        exact hall (b :: pre) a post (by rw [heq, List.cons_append])

/-- A run that never ends, with a condition on its steps. -/
structure Endless (next : σ → α → Option σ) (ok : σ → α → Prop) (states : ℕ → σ)
    (labels : ℕ → α) : Prop where
  step : ∀ n, next (states n) (labels n) = some (states (n + 1))
  ok : ∀ n, ok (states n) (labels n)

namespace Endless

variable {next : σ → α → Option σ} {ok : σ → α → Prop} {states : ℕ → σ} {labels : ℕ → α}

/-- What every step keeps holds from where it holds once. -/
theorem invariant {I : σ → Prop} (h : Endless next ok states labels)
    (hstep : ∀ s a t, I s → ok s a → next s a = some t → I t) {n m : ℕ} (hnm : n ≤ m)
    (hn : I (states n)) : I (states m) := by
  induction m, hnm using Nat.le_induction with
  | base => exact hn
  | succ m _ ih => exact hstep _ _ _ ih (h.ok m) (h.step m)

/-- If all steps but some make a measure smaller, then these come again and again. -/
theorem exists_tick (tick : σ → α → Prop) (measure : σ → ℕ)
    (h : Endless next ok states labels)
    (hless : ∀ s a t, ok s a → next s a = some t → ¬ tick s a → measure t < measure s) (n : ℕ) :
    ∃ m, n ≤ m ∧ (∀ k, n ≤ k → k < m → ¬ tick (states k) (labels k)) ∧
      tick (states m) (labels m) := by
  induction hmeasure : measure (states n) using Nat.strong_induction_on generalizing n with
  | h size ih =>
      by_cases htick : tick (states n) (labels n)
      · exact ⟨n, le_refl n, fun k hk hlt => absurd hk (by omega), htick⟩
      · have hsmaller := hless _ _ _ (h.ok n) (h.step n) htick
        obtain ⟨m, hnm, hbefore, hm⟩ := ih _ (by omega) (n + 1) rfl
        refine ⟨m, by omega, fun k hk hlt => ?_, hm⟩
        obtain rfl | hlater := Nat.eq_or_lt_of_le hk
        · exact htick
        · exact hbefore k hlater hlt

end Endless

end Kura.Transition
