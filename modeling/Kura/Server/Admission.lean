import Kura.Base.Transition
import Kura.Server.Queue

/-!
# Admission of requests

A server runs a limited number of jobs at a time and lets a limited number of
requests wait. Each request asks a semaphore, raises a counter if it has to wait,
and lowers it again when it leaves. Requests take these steps in any order, and
one that waits or runs may be given up at any moment.

## Implementation notes

The semaphore is a parameter. It knows requests by their numbers; a permit that
is given back may be assigned to one that waits before that one looks, and goes
back if it is given up before it looks. The semaphore is never closed.

The counter is raised and read in one step and lowered in a later one, so for a
moment it counts requests that do not wait. It is a number without bounds: since
it is the number of requests that raised it and did not lower it yet, it is never
lowered below zero.
-/

namespace Kura.Server.Admission

open Kura.Base Kura.Transition

/-- A semaphore: what it has to give, who has a permit, who waits for one, and its operations. -/
structure Semaphore (σ : Type) where
  new : Nat → σ
  availablePermits : σ → Nat
  granted : σ → Finset Nat
  queued : σ → Finset Nat
  tryAcquire : σ → Nat → Option σ
  acquire : σ → Nat → σ
  drop : σ → Nat → σ

namespace Semaphore

variable {σ : Type}

/-- A semaphore goes on with the same number of permits and hands some of them to requests that
wait. -/
def Passes (S : Semaphore σ) (s s' : σ) (holders waiters : Finset Nat) : Prop :=
  (∃ chosen ⊆ waiters, S.granted s' = holders ∪ chosen ∧ S.queued s' = waiters \ chosen) ∧
    S.availablePermits s' + (S.granted s').card = S.availablePermits s + (S.granted s).card

/-- What is documented of a semaphore, for a request that asks once. -/
structure Lawful (S : Semaphore σ) : Prop where
  new : ∀ n, S.availablePermits (S.new n) = n ∧ S.granted (S.new n) = ∅ ∧ S.queued (S.new n) = ∅
  apart : ∀ s, Disjoint (S.granted s) (S.queued s)
  taken : ∀ s i s', i ∉ S.granted s → i ∉ S.queued s → S.tryAcquire s i = some s' →
    S.granted s' = insert i (S.granted s) ∧ S.queued s' = S.queued s ∧
      S.availablePermits s' + 1 = S.availablePermits s
  denied : ∀ s i, i ∉ S.granted s → i ∉ S.queued s → S.tryAcquire s i = none →
    S.availablePermits s = 0
  acquired : ∀ s i, i ∉ S.granted s → i ∉ S.queued s →
    S.Passes s (S.acquire s i) (S.granted s) (insert i (S.queued s))
  dropped : ∀ s i,
    S.Passes s (S.drop s i) ((S.granted s).erase i) ((S.queued s).erase i)

end Semaphore

/-- Where a request stands in `acquire` and behind it. -/
inductive Stage where
  | arrived
  | unlucky
  | turned
  | joining
  | queued
  | dropping
  | leaving
  | running
  | refused
  | ended
  deriving DecidableEq, Repr

namespace Stage

/-- A request with a permit in its hand. -/
def holds : Stage → Bool
  | leaving | running => true
  | _ => false

/-- A request that may have a permit, in its hand or assigned to it. -/
def owns : Stage → Bool
  | queued | leaving | running => true
  | _ => false

/-- A request that has raised the counter. -/
def counted : Stage → Bool
  | turned | joining | queued | dropping | leaving => true
  | _ => false

/-- A request that was let wait and has not left. -/
def waits : Stage → Bool
  | joining | queued | dropping | leaving => true
  | _ => false

/-- A request that has been answered, or was given up. -/
def gone : Stage → Bool
  | refused | ended => true
  | _ => false

theorem not_owns_of_gone {s : Stage} (h : s.gone = true) : ¬ s.owns = true := by
  cases s <;> simp_all [gone, owns]

theorem not_counted_of_gone {s : Stage} (h : s.gone = true) : ¬ s.counted = true := by
  cases s <;> simp_all [gone, counted]

end Stage

/-- Who runs the jobs of a server. -/
inductive Exec where
  | «local»
  | queue (db : Table Job)
  | remote

/-- The semaphore, the counter and the requests. -/
structure Gate (σ : Type) where
  sem : σ
  waiting : Nat
  requests : List Stage

/-- A new request, the next step of a request, or its end from outside. -/
inductive Label where
  | arrive
  | act (i : Nat)
  | giveUp (i : Nat)

namespace Gate

variable {σ : Type}

/-- The gate of a server that runs so many jobs at a time. -/
def start (S : Semaphore σ) (concurrency : Nat) : Gate σ := ⟨S.new concurrency, 0, []⟩

/-- A request goes on to a stage. -/
def move (g : Gate σ) (i : Nat) (s : Stage) : Gate σ := { g with requests := g.requests.set i s }

/-- The next step of a request at a stage. -/
def act (S : Semaphore σ) (queueLimit : Nat) (g : Gate σ) (i : Nat) : Stage → Option (Gate σ)
  | .arrived =>
      match S.tryAcquire g.sem i with
      | some sem => some { g.move i .running with sem }
      | none => some (g.move i .unlucky)
  | .unlucky =>
      some { g.move i (if queueLimit ≤ g.waiting then .turned else .joining) with
        waiting := g.waiting + 1 }
  | .turned => some { g.move i .refused with waiting := g.waiting - 1 }
  | .joining => some { g.move i .queued with sem := S.acquire g.sem i }
  | .queued => if i ∈ S.granted g.sem then some (g.move i .leaving) else none
  | .dropping => some { g.move i .ended with waiting := g.waiting - 1 }
  | .leaving => some { g.move i .running with waiting := g.waiting - 1 }
  | .running => some { g.move i .ended with sem := S.drop g.sem i }
  | .refused | .ended => none

/-- A request that is given up while it waits or while its job runs. -/
def giveUp (S : Semaphore σ) (g : Gate σ) (i : Nat) : Stage → Option (Gate σ)
  -- the wait goes first, then the guard that lowers the counter
  | .queued => some { g.move i .dropping with sem := S.drop g.sem i }
  | .running => some { g.move i .ended with sem := S.drop g.sem i }
  | _ => none

/-- One step; undefined where it is not enabled. -/
def next (S : Semaphore σ) (queueLimit : Nat) (g : Gate σ) : Label → Option (Gate σ)
  | .arrive => some { g with requests := g.requests ++ [.arrived] }
  | .act i => g.requests[i]?.bind (g.act S queueLimit i)
  | .giveUp i => g.requests[i]?.bind (g.giveUp S i)

/-- The numbers of jobs that run and that wait, as they are reported. -/
def load (S : Semaphore σ) (concurrency : Nat) (g : Gate σ) : Exec → Nat × Nat
  | .queue db =>
      (db.count fun j => j.state = .running, db.count fun j => j.state = .queued)
  | _ => (concurrency - S.availablePermits g.sem, g.waiting)

/-- How many requests are of some kind. -/
def count (g : Gate σ) (p : Stage → Bool) : Nat := g.requests.countP p

/-- The books of the gate are right. -/
structure Sound (S : Semaphore σ) (concurrency queueLimit : Nat) (g : Gate σ) : Prop where
  permits : S.availablePermits g.sem + (S.granted g.sem).card = concurrency
  owners : ∀ i ∈ S.granted g.sem, ∃ s, g.requests[i]? = some s ∧ s.owns = true
  holders : ∀ i s, g.requests[i]? = some s → s.holds = true → i ∈ S.granted g.sem
  queued : ∀ i ∈ S.queued g.sem, g.requests[i]? = some .queued
  counter : g.waiting = g.count Stage.counted
  queue : g.count Stage.waits ≤ queueLimit

variable {S : Semaphore σ} {concurrency queueLimit i : Nat} {g g' : Gate σ} {s s' : Stage}

/-- A request that moves on is counted at its new stage and not at its old one. -/
theorem count_move (h : g.requests[i]? = some s) (p : Stage → Bool) (s' : Stage) :
    (g.move i s').count p + (p s).toNat = g.count p + (p s').toNat := by
  obtain ⟨hi, hs⟩ := List.getElem?_eq_some_iff.mp h
  have hpos : p s = true → 0 < g.requests.countP p := by
    intro hp
    exact List.countP_pos_iff.mpr ⟨s, List.mem_of_getElem? h, hp⟩
  rw [count, count, move, List.countP_set hi, hs]
  cases hp : p s with
  | true =>
      have := hpos hp
      cases p s' <;> simp <;> omega
  | false => cases p s' <;> simp

/-- Whoever waits has raised the counter. -/
theorem count_waits_le (g : Gate σ) : g.count Stage.waits ≤ g.count Stage.counted :=
  List.countP_mono_left fun s _ hs => by cases s <;> first | rfl | cases hs

/-- A new request has nothing yet. -/
theorem Sound.arrive (h : g.Sound S concurrency queueLimit) :
    Sound S concurrency queueLimit { g with requests := g.requests ++ [.arrived] } where
  permits := h.permits
  owners := by
    intro i hi
    obtain ⟨s, hs, howns⟩ := h.owners i hi
    exact ⟨s, List.getElem?_append_left (List.getElem?_eq_some_iff.mp hs).1 ▸ hs, howns⟩
  holders := by
    intro i s hs hholds
    rcases lt_or_ge i g.requests.length with hi | hi
    · rw [List.getElem?_append_left hi] at hs
      exact h.holders i s hs hholds
    · rw [List.getElem?_append_right hi] at hs
      obtain rfl := List.mem_singleton.mp (List.mem_of_getElem? hs)
      cases hholds
  queued := by
    intro i hi
    have hs := h.queued i hi
    rwa [List.getElem?_append_left (List.getElem?_eq_some_iff.mp hs).1]
  counter := by
    rw [h.counter, count, count, List.countP_append]
    rfl
  queue := by
    rw [count, List.countP_append]
    exact h.queue

/-- What happens when a request goes from one stage to another: permits are neither made nor lost,
those of others stay or go to requests that wait, it raises or lowers the counter, and it is let
wait only if the counter allows it. -/
structure Moves (S : Semaphore σ) (queueLimit i : Nat) (g g' : Gate σ) (s s' : Stage) : Prop where
  requests : g'.requests = g.requests.set i s'
  total : S.availablePermits g'.sem + (S.granted g'.sem).card =
    S.availablePermits g.sem + (S.granted g.sem).card
  kept : ∀ j ≠ i, j ∈ S.granted g.sem → j ∈ S.granted g'.sem
  passed : ∀ j ≠ i, j ∈ S.granted g'.sem → j ∈ S.granted g.sem ∨ j ∈ S.queued g.sem
  waiting : ∀ j ≠ i, j ∈ S.queued g'.sem → j ∈ S.queued g.sem
  owns : i ∈ S.granted g'.sem → s'.owns = true
  holds : s'.holds = true → i ∈ S.granted g'.sem
  queued : i ∈ S.queued g'.sem → s' = .queued
  counter : g'.waiting + s.counted.toNat = g.waiting + s'.counted.toNat
  queue : s'.waits = true → s.waits = true ∨ g.waiting < queueLimit

/-- A step that leaves the semaphore alone. -/
theorem Moves.of_sem (hrequests : g'.requests = g.requests.set i s') (hsem : g'.sem = g.sem)
    (howns : i ∈ S.granted g.sem → s'.owns = true)
    (hholds : s'.holds = true → i ∈ S.granted g.sem)
    (hqueued : i ∈ S.queued g.sem → s' = .queued)
    (hcounter : g'.waiting + s.counted.toNat = g.waiting + s'.counted.toNat)
    (hqueue : s'.waits = true → s.waits = true ∨ g.waiting < queueLimit) :
    g.Moves S queueLimit i g' s s' where
  requests := hrequests
  total := by rw [hsem]
  kept := fun _ _ hj => hsem.symm ▸ hj
  passed := fun _ _ hj => Or.inl (hsem ▸ hj)
  waiting := fun _ _ hj => hsem ▸ hj
  owns := by rwa [hsem]
  holds := by rwa [hsem]
  queued := by rwa [hsem]
  counter := hcounter
  queue := hqueue

/-- A request that drops its permit or its wait has neither; what it had may go to another. -/
theorem Moves.of_drop (hS : S.Lawful) (hrequests : g'.requests = g.requests.set i s')
    (hsem : g'.sem = S.drop g.sem i) (hholds : s'.holds = false)
    (hcounter : g'.waiting + s.counted.toNat = g.waiting + s'.counted.toNat)
    (hqueue : s'.waits = true → s.waits = true ∨ g.waiting < queueLimit) :
    g.Moves S queueLimit i g' s s' := by
  obtain ⟨⟨chosen, hchosen, hgranted, hqueued⟩, htotal⟩ := hS.dropped g.sem i
  rw [← hsem] at hgranted hqueued htotal
  have hnot : i ∉ chosen := fun hi => Finset.notMem_erase i _ (hchosen hi)
  refine ⟨hrequests, htotal, ?_, ?_, ?_, ?_, ?_, ?_, hcounter, hqueue⟩
  · intro j hne hj
    rw [hgranted]
    exact Finset.mem_union_left _ (Finset.mem_erase.mpr ⟨hne, hj⟩)
  · intro j hne hj
    rw [hgranted] at hj
    rcases Finset.mem_union.mp hj with hold | hnew
    · exact Or.inl (Finset.mem_of_mem_erase hold)
    · exact Or.inr (Finset.mem_of_mem_erase (hchosen hnew))
  · intro j hne hj
    rw [hqueued] at hj
    exact Finset.mem_of_mem_erase (Finset.mem_sdiff.mp hj).1
  · intro hi
    rw [hgranted] at hi
    rcases Finset.mem_union.mp hi with hold | hnew
    · exact absurd hold (Finset.notMem_erase i _)
    · exact absurd hnew hnot
  · rw [hholds]
    exact fun h => by cases h
  · intro hi
    rw [hqueued] at hi
    exact absurd (Finset.mem_sdiff.mp hi).1 (Finset.notMem_erase i _)

/-- A request that gets a permit at once had none. -/
theorem Moves.of_tryAcquire {sem : σ} (hS : S.Lawful) (hgranted : i ∉ S.granted g.sem)
    (hqueued : i ∉ S.queued g.sem) (htry : S.tryAcquire g.sem i = some sem) :
    g.Moves S queueLimit i { g.move i .running with sem } .arrived .running := by
  obtain ⟨htaken, hsame, htotal⟩ := hS.taken g.sem i sem hgranted hqueued htry
  refine ⟨rfl, ?_, ?_, ?_, ?_, fun _ => rfl, ?_, ?_, rfl, fun h => by cases h⟩
  · dsimp only
    rw [htaken, Finset.card_insert_of_notMem hgranted]
    omega
  · intro j hne hj
    dsimp only
    rw [htaken]
    exact Finset.mem_insert_of_mem hj
  · intro j hne hj
    dsimp only at hj
    rw [htaken] at hj
    exact Or.inl (Finset.mem_of_mem_insert_of_ne hj hne)
  · intro j hne hj
    dsimp only at hj
    rwa [hsame] at hj
  · intro _
    dsimp only
    rw [htaken]
    exact Finset.mem_insert_self i _
  · intro hi
    dsimp only at hi
    rw [hsame] at hi
    exact absurd hi hqueued

/-- A request that joins the queue has no permit and is not there yet. -/
theorem Moves.of_acquire (hS : S.Lawful) (hgranted : i ∉ S.granted g.sem)
    (hqueued : i ∉ S.queued g.sem) :
    g.Moves S queueLimit i { g.move i .queued with sem := S.acquire g.sem i } .joining .queued := by
  obtain ⟨⟨chosen, hchosen, hgranted', hqueued'⟩, htotal⟩ := hS.acquired g.sem i hgranted hqueued
  refine ⟨rfl, htotal, ?_, ?_, ?_, fun _ => rfl, ?_, fun _ => rfl, rfl, fun _ => Or.inl rfl⟩
  · intro j hne hj
    rw [hgranted']
    exact Finset.mem_union_left _ hj
  · intro j hne hj
    rw [hgranted'] at hj
    rcases Finset.mem_union.mp hj with hold | hnew
    · exact Or.inl hold
    · exact Or.inr (Finset.mem_of_mem_insert_of_ne (hchosen hnew) hne)
  · intro j hne hj
    rw [hqueued'] at hj
    exact Finset.mem_of_mem_insert_of_ne (Finset.mem_sdiff.mp hj).1 hne
  · exact fun h => by cases h

/-- Who has raised the counter finds it raised. -/
theorem Sound.counter_pos (h : g.Sound S concurrency queueLimit) (hs : g.requests[i]? = some s)
    (hcounted : s.counted = true) : 0 < g.waiting := by
  rw [h.counter]
  exact List.countP_pos_iff.mpr ⟨s, List.mem_of_getElem? hs, hcounted⟩

theorem Sound.owns (h : g.Sound S concurrency queueLimit) (hs : g.requests[i]? = some s)
    (hi : i ∈ S.granted g.sem) : s.owns = true := by
  obtain ⟨s', hs', howns⟩ := h.owners i hi
  obtain rfl := Option.some.inj (hs.symm.trans hs')
  exact howns

/-- Who does not wait is not in the queue of the semaphore. -/
theorem Sound.queued_eq (h : g.Sound S concurrency queueLimit) (hs : g.requests[i]? = some s)
    (hi : i ∈ S.queued g.sem) : s = .queued :=
  Option.some.inj (hs.symm.trans (h.queued i hi))

/-- A request of a stage without permits is unknown to the semaphore. -/
theorem Sound.unknown (h : g.Sound S concurrency queueLimit) (hs : g.requests[i]? = some s)
    (howns : s.owns = false) : i ∉ S.granted g.sem ∧ i ∉ S.queued g.sem := by
  constructor
  · intro hi
    rw [h.owns hs hi] at howns
    cases howns
  · intro hi
    rw [h.queued_eq hs hi] at howns
    cases howns

/-- An action of a request is one of its moves. -/
theorem Sound.act_moves (hS : S.Lawful) (h : g.Sound S concurrency queueLimit)
    (hs : g.requests[i]? = some s) (hact : g.act S queueLimit i s = some g') :
    ∃ s', g.Moves S queueLimit i g' s s' := by
  cases s with
  | arrived =>
      obtain ⟨hgranted, hqueued⟩ := h.unknown hs rfl
      rw [act] at hact
      cases htry : S.tryAcquire g.sem i with
      | none =>
          rw [htry] at hact
          cases hact
          exact ⟨.unlucky, .of_sem rfl rfl (fun hi => absurd hi hgranted) (fun h => by cases h)
            (fun hi => absurd hi hqueued) rfl (fun h => by cases h)⟩
      | some sem =>
          rw [htry] at hact
          cases hact
          exact ⟨.running, .of_tryAcquire hS hgranted hqueued htry⟩
  | unlucky =>
      obtain ⟨hgranted, hqueued⟩ := h.unknown hs rfl
      cases hact
      by_cases hfull : queueLimit ≤ g.waiting
      · refine ⟨.turned, .of_sem ?_ rfl (fun hi => absurd hi hgranted) (fun h => by cases h)
          (fun hi => absurd hi hqueued) rfl (fun h => by cases h)⟩
        rw [if_pos hfull]
        rfl
      · refine ⟨.joining, .of_sem ?_ rfl (fun hi => absurd hi hgranted) (fun h => by cases h)
          (fun hi => absurd hi hqueued) rfl (fun _ => Or.inr (Nat.lt_of_not_le hfull))⟩
        rw [if_neg hfull]
        rfl
  | turned =>
      obtain ⟨hgranted, hqueued⟩ := h.unknown hs rfl
      cases hact
      exact ⟨.refused, .of_sem rfl rfl (fun hi => absurd hi hgranted) (fun h => by cases h)
        (fun hi => absurd hi hqueued) (Nat.sub_add_cancel (h.counter_pos hs rfl))
        (fun h => by cases h)⟩
  | joining =>
      obtain ⟨hgranted, hqueued⟩ := h.unknown hs rfl
      cases hact
      exact ⟨.queued, .of_acquire hS hgranted hqueued⟩
  | queued =>
      rw [act] at hact
      split_ifs at hact with hfree
      cases hact
      exact ⟨.leaving, .of_sem rfl rfl (fun _ => rfl) (fun _ => hfree)
        (fun hi => absurd hi (Finset.disjoint_left.mp (hS.apart g.sem) hfree)) rfl
        (fun _ => Or.inl rfl)⟩
  | dropping =>
      obtain ⟨hgranted, hqueued⟩ := h.unknown hs rfl
      cases hact
      exact ⟨.ended, .of_sem rfl rfl (fun hi => absurd hi hgranted) (fun h => by cases h)
        (fun hi => absurd hi hqueued) (Nat.sub_add_cancel (h.counter_pos hs rfl))
        (fun h => by cases h)⟩
  | leaving =>
      cases hact
      exact ⟨.running, .of_sem rfl rfl (fun _ => rfl) (fun _ => h.holders i _ hs rfl)
        (fun hi => by cases h.queued_eq hs hi) (Nat.sub_add_cancel (h.counter_pos hs rfl))
        (fun h => by cases h)⟩
  | running =>
      cases hact
      exact ⟨.ended, .of_drop hS rfl rfl rfl rfl (fun h => by cases h)⟩
  | refused => cases hact
  | ended => cases hact

theorem Sound.giveUp_moves (hS : S.Lawful) (hact : g.giveUp S i s = some g') :
    ∃ s', g.Moves S queueLimit i g' s s' := by
  cases s with
  | queued =>
      cases hact
      exact ⟨.dropping, .of_drop hS rfl rfl rfl rfl (fun _ => Or.inl rfl)⟩
  | running =>
      cases hact
      exact ⟨.ended, .of_drop hS rfl rfl rfl rfl (fun h => by cases h)⟩
  | _ => cases hact

/-- A request that moves on keeps the books. -/
theorem Sound.moves (h : g.Sound S concurrency queueLimit) (hs : g.requests[i]? = some s)
    (hmoves : g.Moves S queueLimit i g' s s') : g'.Sound S concurrency queueLimit := by
  have hi := (List.getElem?_eq_some_iff.mp hs).1
  have hself : g'.requests[i]? = some s' := by
    rw [hmoves.requests, List.getElem?_set_self hi]
  have hother : ∀ j ≠ i, g'.requests[j]? = g.requests[j]? := by
    intro j hne
    rw [hmoves.requests, List.getElem?_set_ne hne.symm]
  have hcount : ∀ p : Stage → Bool,
      g'.count p + (p s).toNat = g.count p + (p s').toNat := by
    intro p
    rw [count, hmoves.requests]
    exact count_move hs p s'
  refine ⟨hmoves.total.trans h.permits, ?_, ?_, ?_, ?_, ?_⟩
  · intro j hj
    by_cases hne : j = i
    · subst hne
      exact ⟨s', hself, hmoves.owns hj⟩
    · rcases hmoves.passed j hne hj with hold | hwaits
      · obtain ⟨sj, hsj, howns⟩ := h.owners j hold
        exact ⟨sj, (hother j hne).trans hsj, howns⟩
      · exact ⟨.queued, (hother j hne).trans (h.queued j hwaits), rfl⟩
  · intro j sj hsj hholds
    by_cases hne : j = i
    · subst hne
      obtain rfl := Option.some.inj (hself.symm.trans hsj)
      exact hmoves.holds hholds
    · rw [hother j hne] at hsj
      exact hmoves.kept j hne (h.holders j sj hsj hholds)
  · intro j hj
    by_cases hne : j = i
    · subst hne
      rw [hself, hmoves.queued hj]
    · rw [hother j hne]
      exact h.queued j (hmoves.waiting j hne hj)
  · have hcounted := hcount Stage.counted
    have hcounter := hmoves.counter
    have hbooks := h.counter
    omega
  · have hwaits := hcount Stage.waits
    have hqueue := h.queue
    cases hs' : s'.waits with
    | false =>
        rw [hs', Bool.toNat_false] at hwaits
        omega
    | true =>
        rcases hmoves.queue hs' with hold | hroom
        · rw [hs', hold] at hwaits
          omega
        · have hle := g.count_waits_le
          have hbooks := h.counter
          rw [hs', Bool.toNat_true] at hwaits
          omega

/-- Every step keeps the books. -/
theorem Sound.next {a : Label} (hS : S.Lawful) (h : g.Sound S concurrency queueLimit)
    (hn : g.next S queueLimit a = some g') : g'.Sound S concurrency queueLimit := by
  cases a with
  | arrive =>
      cases hn
      exact h.arrive
  | act i =>
      obtain ⟨s, hs, hact⟩ := Option.bind_eq_some_iff.mp hn
      obtain ⟨s', hmoves⟩ := h.act_moves hS hs hact
      exact h.moves hs hmoves
  | giveUp i =>
      obtain ⟨s, hs, hact⟩ := Option.bind_eq_some_iff.mp hn
      obtain ⟨s', hmoves⟩ := giveUp_moves hS hact
      exact h.moves hs hmoves

theorem sound_start (hS : S.Lawful) (concurrency queueLimit : Nat) :
    (start S concurrency).Sound S concurrency queueLimit := by
  obtain ⟨havailable, hgranted, hqueued⟩ := hS.new concurrency
  refine ⟨?_, ?_, ?_, ?_, rfl, Nat.zero_le _⟩
  · rw [start, hgranted, havailable]
    rfl
  · intro i hi
    rw [start, hgranted] at hi
    cases hi
  · intro i s hs
    cases hs
  · intro i hi
    rw [start, hqueued] at hi
    cases hi

theorem sound_of_run {as : List Label} (hS : S.Lawful)
    (h : Run (Gate.next S queueLimit) (start S concurrency) as g) :
    g.Sound S concurrency queueLimit :=
  h.invariant (fun _ _ _ hs _ hn => hs.next hS hn) (sound_start hS concurrency queueLimit)

/-- How many elements satisfy a predicate is how many places hold one. -/
theorem countP_eq_places {α : Type} (p : α → Bool) (l : List α) :
    l.countP p = ((Finset.range l.length).filter fun i => (l[i]?).any p = true).card := by
  induction l using List.reverseRecOn with
  | nil => rfl
  | append_singleton l a ih =>
      have hlast : (l ++ [a])[l.length]? = some a := by simp
      have hbefore : ((Finset.range l.length).filter fun i => ((l ++ [a])[i]?).any p = true) =
          (Finset.range l.length).filter fun i => (l[i]?).any p = true := by
        refine Finset.filter_congr fun i hi => ?_
        rw [List.getElem?_append_left (Finset.mem_range.mp hi)]
      rw [List.countP_append, List.countP_singleton, ih, List.length_append, List.length_singleton,
        Finset.range_add_one, Finset.filter_insert, hlast, hbefore, Option.any_some]
      split_ifs
      · rw [Finset.card_insert_of_notMem (by simp)]
      · rfl

/-- The requests with a permit in their hands are among those the semaphore knows. -/
theorem Sound.count_holds_le (h : g.Sound S concurrency queueLimit) :
    g.count Stage.holds ≤ (S.granted g.sem).card := by
  rw [count, countP_eq_places]
  refine Finset.card_le_card fun i hi => ?_
  obtain ⟨s, hs, hholds⟩ := (Option.any_eq_true _ _).mp (Finset.mem_filter.mp hi).2
  exact h.holders i s hs hholds

/-- A request is turned away only if the counter was raised so many times by others. -/
theorem turned_of_next (hs : g.requests[i]? = some .unlucky)
    (hn : g.next S queueLimit (.act i) = some g') (ht : g'.requests[i]? = some .turned) :
    queueLimit ≤ g.waiting := by
  rw [Gate.next, hs] at hn
  by_contra hroom
  cases hn
  simp [move, hroom, (List.getElem?_eq_some_iff.mp hs).1] at ht

/-- A request that finds no permit has come to a semaphore with none. -/
theorem Sound.unlucky_of_next (hS : S.Lawful) (h : g.Sound S concurrency queueLimit)
    (hs : g.requests[i]? = some .arrived)
    (hn : g.next S queueLimit (.act i) = some g') (hu : g'.requests[i]? = some .unlucky) :
    S.availablePermits g.sem = 0 := by
  obtain ⟨hgranted, hqueued⟩ := h.unknown hs rfl
  rw [Gate.next, hs, Option.bind_some, act] at hn
  cases htry : S.tryAcquire g.sem i with
  | none => exact hS.denied g.sem i hgranted hqueued htry
  | some sem =>
      rw [htry] at hn
      cases hn
      simp [move, (List.getElem?_eq_some_iff.mp hs).1] at hu

end Gate

/-- A semaphore that serves requests in the order in which they ask. -/
structure Fifo where
  free : Nat
  granted : List Nat
  queue : List Nat
  nodup : (granted ++ queue).Nodup

namespace Fifo

/-- All permits are free. -/
def new (n : Nat) : Fifo := ⟨n, [], [], List.nodup_nil⟩

theorem nodup_take {granted queue : List Nat} {i : Nat} (h : (granted ++ queue).Nodup)
    (hi : i ∉ granted ++ queue) : (i :: granted ++ queue).Nodup :=
  List.nodup_cons.mpr ⟨hi, h⟩

theorem nodup_join {granted queue : List Nat} {i : Nat} (h : (granted ++ queue).Nodup)
    (hi : i ∉ granted ++ queue) : (granted ++ (queue ++ [i])).Nodup := by
  rw [← List.append_assoc, ← List.concat_eq_append]
  exact h.concat hi

theorem nodup_leave {granted queue : List Nat} (i : Nat) (h : (granted ++ queue).Nodup) :
    (granted.erase i ++ queue.erase i).Nodup :=
  h.sublist (List.erase_sublist.append List.erase_sublist)

theorem nodup_pass {granted queue : List Nat} {j : Nat} (h : (granted ++ j :: queue).Nodup) :
    (j :: granted ++ queue).Nodup :=
  List.perm_middle.nodup_iff.mp h

/-- Take a permit that is free. -/
def tryAcquire (s : Fifo) (i : Nat) : Option Fifo :=
  if hi : i ∉ s.granted ++ s.queue then
    if 0 < s.free then some ⟨s.free - 1, i :: s.granted, s.queue, nodup_take s.nodup hi⟩ else none
  else none

/-- Take a permit that is free, or join the queue. -/
def acquire (s : Fifo) (i : Nat) : Fifo :=
  if hi : i ∉ s.granted ++ s.queue then
    if 0 < s.free then ⟨s.free - 1, i :: s.granted, s.queue, nodup_take s.nodup hi⟩
    else ⟨s.free, s.granted, s.queue ++ [i], nodup_join s.nodup hi⟩
  else s

/-- A permit that is given back goes to the first of the queue. -/
def pass (granted : List Nat) (free : Nat) :
    (queue : List Nat) → (granted ++ queue).Nodup → Fifo
  | [], h => ⟨free + 1, granted, [], h⟩
  | j :: queue, h => ⟨free, j :: granted, queue, nodup_pass h⟩

/-- Give a permit back, or leave the queue. -/
def drop (s : Fifo) (i : Nat) : Fifo :=
  if i ∈ s.granted then pass (s.granted.erase i) s.free (s.queue.erase i) (nodup_leave i s.nodup)
  else ⟨s.free, s.granted.erase i, s.queue.erase i, nodup_leave i s.nodup⟩

end Fifo

/-- The semaphore that serves requests in their order. -/
def fifo : Semaphore Fifo where
  new := Fifo.new
  availablePermits := Fifo.free
  granted s := s.granted.toFinset
  queued s := s.queue.toFinset
  tryAcquire := Fifo.tryAcquire
  acquire := Fifo.acquire
  drop := Fifo.drop

namespace Fifo

variable {s s' : Fifo} {i : Nat}

theorem card_granted (s : Fifo) : (fifo.granted s).card = s.granted.length :=
  List.toFinset_card_of_nodup (List.nodup_append.mp s.nodup).1

theorem unknown (hgranted : i ∉ fifo.granted s) (hqueued : i ∉ fifo.queued s) :
    i ∉ s.granted ++ s.queue := by
  rw [List.mem_append]
  rintro (hi | hi)
  · exact hgranted (List.mem_toFinset.mpr hi)
  · exact hqueued (List.mem_toFinset.mpr hi)

/-- To acquire queues the request and may pass a permit on. -/
theorem acquired (hgranted : i ∉ fifo.granted s) (hqueued : i ∉ fifo.queued s) :
    fifo.Passes s (fifo.acquire s i) (fifo.granted s) (insert i (fifo.queued s)) := by
  have hi := unknown hgranted hqueued
  change fifo.Passes s (acquire s i) _ _
  rw [acquire, dif_pos hi]
  split_ifs with hfree
  · refine ⟨⟨{i}, by simp, ?_, ?_⟩, ?_⟩
    · ext j
      simp [fifo]
    · ext j
      have hne : j ∈ s.queue → j ≠ i := by
        rintro hj rfl
        exact hqueued (List.mem_toFinset.mpr hj)
      simp [fifo]
      tauto
    · rw [card_granted, card_granted]
      change s.free - 1 + (i :: s.granted).length = s.free + s.granted.length
      rw [List.length_cons]
      omega
  · refine ⟨⟨∅, by simp, ?_, ?_⟩, ?_⟩
    · simp [fifo]
    · ext j
      simp [fifo]
    · rw [card_granted, card_granted]
      rfl

/-- A permit that is given back is free, or it is that of the first of the queue. -/
theorem pass_spec (granted : List Nat) (free : Nat) (queue : List Nat)
    (h : (granted ++ queue).Nodup) :
    (∃ chosen ⊆ queue.toFinset,
      fifo.granted (pass granted free queue h) = granted.toFinset ∪ chosen ∧
        fifo.queued (pass granted free queue h) = queue.toFinset \ chosen) ∧
      (pass granted free queue h).free + (pass granted free queue h).granted.length =
        free + granted.length + 1 := by
  cases queue with
  | nil => exact ⟨⟨∅, by simp, by simp [fifo, pass], by simp [fifo, pass]⟩, by simp [pass]; omega⟩
  | cons j queue =>
      have hj : j ∉ queue := (List.nodup_cons.mp (List.nodup_append.mp h).2.1).1
      refine ⟨⟨{j}, by simp, ?_, ?_⟩, by simp [pass]; omega⟩
      · ext k
        simp [fifo, pass]
      · ext k
        have hne : k ∈ queue → k ≠ j := by
          rintro hk rfl
          exact hj hk
        simp [fifo, pass]
        tauto

/-- To drop a request takes it out of both sets and may pass its permit on. -/
theorem dropped (s : Fifo) (i : Nat) :
    fifo.Passes s (fifo.drop s i) ((fifo.granted s).erase i) ((fifo.queued s).erase i) := by
  have hgranted : (fifo.granted s).erase i = (s.granted.erase i).toFinset := by
    ext j
    simp [fifo, (List.nodup_append.mp s.nodup).1.mem_erase_iff]
  have hqueued : (fifo.queued s).erase i = (s.queue.erase i).toFinset := by
    ext j
    simp [fifo, (List.nodup_append.mp s.nodup).2.1.mem_erase_iff]
  rw [hgranted, hqueued]
  change fifo.Passes s (drop s i) _ _
  rw [drop]
  split_ifs with hi
  · obtain ⟨hpassed, htotal⟩ := pass_spec (s.granted.erase i) s.free (s.queue.erase i)
      (nodup_leave i s.nodup)
    refine ⟨hpassed, ?_⟩
    have hlength := List.length_erase_add_one hi
    rw [card_granted, card_granted]
    change _ = s.free + _
    exact htotal.trans (by omega)
  · refine ⟨⟨∅, by simp, by simp [fifo], by simp [fifo]⟩, ?_⟩
    rw [card_granted, card_granted]
    change s.free + (s.granted.erase i).length = s.free + s.granted.length
    rw [List.erase_of_not_mem hi]

/-- The semaphore is as it should be. -/
theorem lawful : fifo.Lawful where
  new _ := ⟨rfl, rfl, rfl⟩
  apart s := by
    rw [Finset.disjoint_left]
    intro i hi hq
    exact (List.nodup_append.mp s.nodup).2.2 i (List.mem_toFinset.mp hi) i
      (List.mem_toFinset.mp hq) rfl
  taken s i s' hgranted hqueued h := by
    have hi := unknown hgranted hqueued
    change tryAcquire s i = some s' at h
    rw [tryAcquire, dif_pos hi] at h
    split_ifs at h with hfree
    obtain rfl := Option.some.inj h
    exact ⟨List.toFinset_cons, rfl, Nat.sub_add_cancel hfree⟩
  denied s i hgranted hqueued h := by
    have hi := unknown hgranted hqueued
    change tryAcquire s i = none at h
    rw [tryAcquire, dif_pos hi] at h
    split_ifs at h with hfree
    exact Nat.eq_zero_of_not_pos hfree
  acquired _ _ hgranted hqueued := acquired hgranted hqueued
  dropped := dropped

end Fifo

/-- One job at a time and one place to wait: the third request is turned away, and the first is
given up, so that its permit is assigned to the second. -/
def threeRequests : List Label :=
  [.arrive, .act 0, .arrive, .act 1, .act 1, .act 1, .arrive, .act 2, .act 2, .act 2, .giveUp 0]

end Kura.Server.Admission
