import Kura.Base.Transition
import Kura.Server.Queue

/-!
# A worker and its slots

Each slot of a worker asks the coordinator for a job, downloads it, runs it
and uploads the result. The heartbeat names the jobs of a set the slots share:
a job is put in after its download and taken out, by its id, after its upload.

## Implementation notes

What the coordinator answers and how long each phase takes is decided by the
labels. The shared set is a list in which the order does not matter. The
heartbeat loop gives up at a stop signal only if it then sees the set empty.
-/

namespace Kura.Server

open Kura.Transition

/-- What a slot is doing. -/
inductive Phase where
  | asking
  | downloading (m : LeaseMeta)
  | executing (m : LeaseMeta)
  | uploading (m : LeaseMeta) (result : RunResult)
  | ended

namespace Phase

/-- The job a slot has received the lease of. -/
def job? : Phase → Option LeaseMeta
  | .downloading m | .executing m | .uploading m _ => some m
  | .asking | .ended => none

/-- The job of a slot whose download is over. -/
def started? : Phase → Option LeaseMeta
  | .executing m | .uploading m _ => some m
  | .asking | .downloading _ | .ended => none

theorem job?_of_started? {p : Phase} {m : LeaseMeta} (h : p.started? = some m) :
    p.job? = some m := by
  cases p with
  | executing => exact h
  | uploading => exact h
  | _ => cases h

theorem job?_cases {p : Phase} {m : LeaseMeta} (h : p.job? = some m) :
    p = .downloading m ∨ p.started? = some m := by
  cases p with
  | downloading k =>
      obtain rfl := Option.some.inj h
      exact Or.inl rfl
  | executing => exact Or.inr h
  | uploading => exact Or.inr h
  | asking => cases h
  | ended => cases h

end Phase

/-- A worker. -/
structure Worker where
  id : String
  name : String
  version : String
  slots : Nat
  slot : Nat → Phase
  running : List Nat
  stopped : Bool
  beating : Bool

namespace Worker

/-- A worker that has just started. -/
def start (id name version : String) (slots : Nat) : Worker :=
  ⟨id, name, version, slots, fun _ => .asking, [], false, true⟩

/-- What a heartbeat says. -/
def beat (w : Worker) : Beat := ⟨w.id, w.name, w.slots, w.running, w.version⟩

/-- Put a slot into a phase. -/
def setSlot (w : Worker) (i : Nat) (p : Phase) : Worker :=
  { w with slot := Function.update w.slot i p }

end Worker

/-- The steps of a worker with everything decided outside it. -/
inductive WorkerLabel where
  | granted (i : Nat) (m : LeaseMeta)
  | noJob (i : Nat)
  | downloadFailed (i : Nat)
  | started (i : Nat)
  | ran (i : Nat) (result : RunResult)
  | retried (i : Nat)
  | uploaded (i : Nat)
  | heartbeat
  | stop
  | beatSeesStop
  | quit (i : Nat)

/-- One step; undefined where the label is not enabled. -/
def workerStep (w : Worker) : WorkerLabel → Option Worker
  | .granted i m =>
      match w.slot i with
      | .asking => if i < w.slots then some (w.setSlot i (.downloading m)) else none
      | _ => none
  | .noJob i =>
      match w.slot i with
      | .asking => if i < w.slots then some w else none
      | _ => none
  | .downloadFailed i =>
      match w.slot i with
      | .downloading _ => some (w.setSlot i .asking)
      | _ => none
  | .started i =>
      match w.slot i with
      | .downloading m =>
          some { w.setSlot i (.executing m) with running := w.running.insert m.id }
      | _ => none
  | .ran i result =>
      match w.slot i with
      | .executing m => some (w.setSlot i (.uploading m result))
      | _ => none
  | .retried i =>
      match w.slot i with
      | .uploading _ _ => some w
      | _ => none
  | .uploaded i =>
      match w.slot i with
      | .uploading m _ =>
          some { w.setSlot i .asking with running := w.running.filter (· ≠ m.id) }
      | _ => none
  | .heartbeat => if w.beating then some w else none
  | .stop => if w.stopped then none else some { w with stopped := true }
  | .beatSeesStop =>
      if w.stopped ∧ w.beating then some { w with beating := !w.running.isEmpty } else none
  | .quit i =>
      match w.slot i with
      | .asking => if w.stopped ∧ i < w.slots then some (w.setSlot i .ended) else none
      | _ => none

namespace Worker

/-- Every job a slot holds is named by the heartbeat. -/
def NamesAll (w : Worker) : Prop :=
  ∀ i m, (w.slot i).job? = some m → m.id ∈ w.beat.running

/-- A slot has received a lease and not finished its download. -/
def Downloads (w : Worker) : Prop := ∃ i m, w.slot i = .downloading m

/-- A step that grants no job some slot still holds. -/
def Fresh (w : Worker) (a : WorkerLabel) : Prop :=
  ∀ i m, a = .granted i m → ∀ k m', (w.slot k).job? = some m' → m'.id ≠ m.id

/-- The shared set is the set of started jobs, and no job is held twice. -/
structure Exact (w : Worker) : Prop where
  named : ∀ i m, (w.slot i).started? = some m → m.id ∈ w.running
  held : ∀ id ∈ w.running, ∃ i m, (w.slot i).started? = some m ∧ m.id = id
  distinct : ∀ i k m m', (w.slot i).job? = some m → (w.slot k).job? = some m' → m.id = m'.id →
    i = k

theorem slot_setSlot_self (w : Worker) (i : Nat) (p : Phase) : (w.setSlot i p).slot i = p := by
  simp [setSlot]

theorem slot_setSlot_ne (w : Worker) {i k : Nat} (p : Phase) (h : k ≠ i) :
    (w.setSlot i p).slot k = w.slot k := by
  simp [setSlot, h]

/-- Moving a slot along without touching the set keeps everything exact if the
job the slot holds, and whether it is started, stay the same. -/
theorem Exact.setSlot_same {w : Worker} (h : w.Exact) {i : Nat} {p : Phase}
    (hjob : p.job? = (w.slot i).job?) (hstarted : p.started? = (w.slot i).started?) :
    (w.setSlot i p).Exact := by
  have hjob' : ∀ k, ((w.setSlot i p).slot k).job? = (w.slot k).job? := by
    intro k
    by_cases hk : k = i
    · rw [hk, slot_setSlot_self, hjob]
    · rw [slot_setSlot_ne w p hk]
  have hstarted' : ∀ k, ((w.setSlot i p).slot k).started? = (w.slot k).started? := by
    intro k
    by_cases hk : k = i
    · rw [hk, slot_setSlot_self, hstarted]
    · rw [slot_setSlot_ne w p hk]
  constructor
  · intro k m hm
    rw [hstarted'] at hm
    exact h.named k m hm
  · intro id hid
    obtain ⟨k, m, hm, heq⟩ := h.held id hid
    exact ⟨k, m, by rw [hstarted', hm], heq⟩
  · intro k l m m' hm hm'
    rw [hjob'] at hm hm'
    exact h.distinct k l m m' hm hm'

/-- A slot that gives up what it has not started. -/
theorem Exact.setSlot_empty {w : Worker} (h : w.Exact) {i : Nat} {p : Phase}
    (hp : p.job? = none) (hnot : (w.slot i).started? = none) : (w.setSlot i p).Exact := by
  have hpnot : p.started? = none := by
    cases hs : p.started? with
    | none => rfl
    | some m =>
        rw [Phase.job?_of_started? hs] at hp
        cases hp
  have hstarted' : ∀ k, ((w.setSlot i p).slot k).started? = (w.slot k).started? := by
    intro k
    by_cases hk : k = i
    · rw [hk, slot_setSlot_self, hpnot, hnot]
    · rw [slot_setSlot_ne w p hk]
  have hjob' : ∀ k m, ((w.setSlot i p).slot k).job? = some m → (w.slot k).job? = some m := by
    intro k m hm
    by_cases hk : k = i
    · rw [hk, slot_setSlot_self, hp] at hm
      cases hm
    · rwa [slot_setSlot_ne w p hk] at hm
  constructor
  · intro k m hm
    rw [hstarted'] at hm
    exact h.named k m hm
  · intro id hid
    obtain ⟨k, m, hm, heq⟩ := h.held id hid
    exact ⟨k, m, by rw [hstarted', hm], heq⟩
  · intro k l m m' hm hm'
    exact h.distinct k l m m' (hjob' k m hm) (hjob' l m' hm')

/-- A granted lease keeps the shared set exact. -/
theorem Exact.granted {w : Worker} (h : w.Exact) {i : Nat} {m : LeaseMeta}
    (hslot : w.slot i = .asking)
    (hfresh : ∀ k m', (w.slot k).job? = some m' → m'.id ≠ m.id) :
    (w.setSlot i (.downloading m)).Exact := by
  have hstarted' : ∀ k, ((w.setSlot i (.downloading m)).slot k).started? =
      (w.slot k).started? := by
    intro k
    by_cases hk : k = i
    · rw [hk, slot_setSlot_self, hslot]
      rfl
    · rw [slot_setSlot_ne w _ hk]
  constructor
  · intro k m' hm
    rw [hstarted'] at hm
    exact h.named k m' hm
  · intro id hid
    obtain ⟨k, m', hm, heq⟩ := h.held id hid
    exact ⟨k, m', by rw [hstarted', hm], heq⟩
  · intro k l m₁ m₂ h₁ h₂ heq
    by_cases hk : k = i <;> by_cases hl : l = i
    · rw [hk, hl]
    · rw [hk, slot_setSlot_self] at h₁
      rw [slot_setSlot_ne w _ hl] at h₂
      obtain rfl := Option.some.inj h₁
      exact absurd heq.symm (hfresh l m₂ h₂)
    · rw [slot_setSlot_ne w _ hk] at h₁
      rw [hl, slot_setSlot_self] at h₂
      obtain rfl := Option.some.inj h₂
      exact absurd heq (hfresh k m₁ h₁)
    · rw [slot_setSlot_ne w _ hk] at h₁
      rw [slot_setSlot_ne w _ hl] at h₂
      exact h.distinct k l m₁ m₂ h₁ h₂ heq

/-- A job that starts joins the shared set. -/
theorem Exact.started {w : Worker} (h : w.Exact) {i : Nat} {m : LeaseMeta}
    (hslot : w.slot i = .downloading m) :
    Exact { w.setSlot i (.executing m) with running := w.running.insert m.id } := by
  constructor
  · intro k m' hm
    by_cases hk : k = i
    · have hm' : ((w.setSlot i (.executing m)).slot k).started? = some m' := hm
      rw [hk, slot_setSlot_self] at hm'
      obtain rfl := Option.some.inj hm'
      exact List.mem_insert_self
    · have hm' : ((w.setSlot i (.executing m)).slot k).started? = some m' := hm
      rw [slot_setSlot_ne w _ hk] at hm'
      exact List.mem_insert_of_mem (h.named k m' hm')
  · intro id hid
    rcases List.mem_insert_iff.mp hid with rfl | hmem
    · refine ⟨i, m, ?_, rfl⟩
      change ((w.setSlot i (.executing m)).slot i).started? = some m
      rw [slot_setSlot_self]
      rfl
    · obtain ⟨k, m', hm, heq⟩ := h.held id hmem
      have hk : k ≠ i := by
        rintro rfl
        rw [hslot] at hm
        cases hm
      refine ⟨k, m', ?_, heq⟩
      change ((w.setSlot i (.executing m)).slot k).started? = some m'
      rw [slot_setSlot_ne w _ hk, hm]
  · have hjob' : ∀ k, ((w.setSlot i (.executing m)).slot k).job? = (w.slot k).job? := by
      intro k
      by_cases hk : k = i
      · rw [hk, slot_setSlot_self, hslot]
        rfl
      · rw [slot_setSlot_ne w _ hk]
    intro k l m₁ m₂ h₁ h₂ heq
    exact h.distinct k l m₁ m₂ ((hjob' k).symm.trans h₁) ((hjob' l).symm.trans h₂) heq

/-- A job that is uploaded leaves the shared set. -/
theorem Exact.uploaded {w : Worker} (h : w.Exact) {i : Nat} {m : LeaseMeta} {result : RunResult}
    (hslot : w.slot i = .uploading m result) :
    Exact { w.setSlot i .asking with running := w.running.filter (· ≠ m.id) } := by
  have hi : (w.slot i).started? = some m := by
    rw [hslot]
    rfl
  have hne : ∀ k m', ((w.setSlot i .asking).slot k).job? = some m' →
      k ≠ i ∧ (w.slot k).job? = some m' := by
    intro k m' hm
    by_cases hk : k = i
    · rw [hk, slot_setSlot_self] at hm
      cases hm
    · rw [slot_setSlot_ne w _ hk] at hm
      exact ⟨hk, hm⟩
  constructor
  · intro k m' hm
    have hm' : ((w.setSlot i .asking).slot k).started? = some m' := hm
    obtain ⟨hk, hjob⟩ := hne k m' (Phase.job?_of_started? hm')
    rw [slot_setSlot_ne w _ hk] at hm'
    refine List.mem_filter.mpr ⟨h.named k m' hm', ?_⟩
    have hid : m'.id ≠ m.id :=
      fun heq => hk (h.distinct k i m' m hjob (Phase.job?_of_started? hi) heq)
    simpa using hid
  · intro id hid
    obtain ⟨hmem, hid'⟩ := List.mem_filter.mp hid
    obtain ⟨k, m', hm, heq⟩ := h.held id hmem
    have hk : k ≠ i := by
      rintro rfl
      rw [hi] at hm
      obtain rfl := Option.some.inj hm
      exact of_decide_eq_true hid' heq.symm
    refine ⟨k, m', ?_, heq⟩
    change ((w.setSlot i .asking).slot k).started? = some m'
    rw [slot_setSlot_ne w _ hk, hm]
  · intro k l m₁ m₂ h₁ h₂ heq
    exact h.distinct k l m₁ m₂ (hne k m₁ h₁).2 (hne l m₂ h₂).2 heq

/-- Steps keep the set exact as long as no job is granted twice at a time. -/
theorem step_exact {w w' : Worker} {a : WorkerLabel} (h : w.Exact) (hfresh : w.Fresh a)
    (hn : workerStep w a = some w') : w'.Exact := by
  cases a with
  | granted i m =>
      simp only [workerStep] at hn
      split at hn
      · split_ifs at hn
        obtain rfl := Option.some.inj hn
        exact h.granted ‹_› (hfresh i m rfl)
      · cases hn
  | noJob i =>
      simp only [workerStep] at hn
      split at hn
      · split_ifs at hn
        obtain rfl := Option.some.inj hn
        exact h
      · cases hn
  | downloadFailed i =>
      simp only [workerStep] at hn
      split at hn
      · rename_i m hslot
        obtain rfl := Option.some.inj hn
        exact h.setSlot_empty rfl (by rw [hslot]; rfl)
      · cases hn
  | started i =>
      simp only [workerStep] at hn
      split at hn
      · rename_i m hslot
        obtain rfl := Option.some.inj hn
        exact h.started hslot
      · cases hn
  | ran i result =>
      simp only [workerStep] at hn
      split at hn
      · rename_i m hslot
        obtain rfl := Option.some.inj hn
        exact h.setSlot_same (by rw [hslot]; rfl) (by rw [hslot]; rfl)
      · cases hn
  | retried i =>
      simp only [workerStep] at hn
      split at hn
      · obtain rfl := Option.some.inj hn
        exact h
      · cases hn
  | uploaded i =>
      simp only [workerStep] at hn
      split at hn
      · rename_i m result hslot
        obtain rfl := Option.some.inj hn
        exact h.uploaded hslot
      · cases hn
  | heartbeat =>
      simp only [workerStep] at hn
      split_ifs at hn
      obtain rfl := Option.some.inj hn
      exact h
  | stop =>
      simp only [workerStep] at hn
      split_ifs at hn
      obtain rfl := Option.some.inj hn
      exact ⟨h.named, h.held, h.distinct⟩
  | beatSeesStop =>
      simp only [workerStep] at hn
      split_ifs at hn
      obtain rfl := Option.some.inj hn
      exact ⟨h.named, h.held, h.distinct⟩
  | quit i =>
      simp only [workerStep] at hn
      split at hn
      · rename_i hslot
        split_ifs at hn
        obtain rfl := Option.some.inj hn
        exact h.setSlot_empty rfl (by rw [hslot]; rfl)
      · cases hn

theorem start_exact (id name version : String) (slots : Nat) :
    (start id name version slots).Exact := by
  constructor
  · intro i m hm
    cases hm
  · intro id hid
    cases hid
  · intro i k m m' hm
    cases hm

/-- With an exact set, all that is not named is what is being downloaded. -/
theorem Exact.namesAll_iff {w : Worker} (h : w.Exact) : w.NamesAll ↔ ¬ w.Downloads := by
  constructor
  · rintro hall ⟨i, m, hslot⟩
    have hjob : (w.slot i).job? = some m := by
      rw [hslot]
      rfl
    obtain ⟨k, m', hm', heq⟩ := h.held m.id (hall i m hjob)
    have hki : k = i := h.distinct k i m' m (Phase.job?_of_started? hm') hjob heq
    rw [hki, hslot] at hm'
    cases hm'
  · intro hnone i m hjob
    rcases Phase.job?_cases hjob with hdown | hstarted
    · exact absurd ⟨i, m, hdown⟩ hnone
    · exact h.named i m hstarted

/-- A slot that ends takes the job of another slot out of the set with its
own. -/
theorem not_namesAll_of_shared {w w' : Worker} {i k : Nat} {m m' : LeaseMeta}
    {result : RunResult} (hslot : w.slot i = .uploading m result) (hk : k ≠ i)
    (hjob : (w.slot k).job? = some m') (hid : m'.id = m.id)
    (hn : workerStep w (.uploaded i) = some w') : ¬ w'.NamesAll := by
  simp only [workerStep, hslot] at hn
  obtain rfl := Option.some.inj hn
  intro hall
  have hjob' : ((w.setSlot i .asking).slot k).job? = some m' := by
    rw [slot_setSlot_ne w _ hk, hjob]
  have hmem : m'.id ∈ w.running.filter (· ≠ m.id) := hall k m' hjob'
  have hne := of_decide_eq_true (List.mem_filter.mp hmem).2
  exact hne hid

end Worker

/-- In every state of a worker that is never granted a job one of its slots
still holds, the heartbeat names every held job exactly when no slot is
between its lease and the end of its download. Where two slots hold attempts
of one job, the first to end makes the heartbeat forget the other. -/
theorem heartbeat_names_held (id name version : String) (slots : Nat) :
    (∀ as w, RunWhere workerStep Worker.Fresh (Worker.start id name version slots) as w →
      (w.NamesAll ↔ ¬ w.Downloads)) ∧
    (∀ as w w' i k m m' result, Run workerStep (Worker.start id name version slots) as w →
      w.slot i = .uploading m result → k ≠ i → (w.slot k).job? = some m' → m'.id = m.id →
      workerStep w (.uploaded i) = some w' → ¬ w'.NamesAll) := by
  constructor
  · intro as w hrun
    have hexact : w.Exact :=
      hrun.invariant (fun s a t hs hok hn => Worker.step_exact hs hok hn)
        (Worker.start_exact id name version slots)
    exact hexact.namesAll_iff
  · intro as w w' i k m m' result _ hslot hk hjob hid hn
    exact Worker.not_namesAll_of_shared hslot hk hjob hid hn

/-- An attempt of job seven. -/
def LeaseMeta.seventh (attempt : Nat) : LeaseMeta := ⟨7, attempt, .convert, [], 100⟩

/-- A worker with two slots. -/
def Worker.pair : Worker := .start "w1" "w1" "" 2

theorem pair_names_held :
    ∃ w, RunWhere workerStep Worker.Fresh Worker.pair [.granted 0 (.seventh 1), .started 0] w ∧
      w.NamesAll := by
  have hrun : RunWhere workerStep Worker.Fresh Worker.pair
      [.granted 0 (.seventh 1), .started 0]
      { (Worker.pair.setSlot 0 (.downloading (.seventh 1))).setSlot 0
          (.executing (.seventh 1)) with running := [7] } := by
    refine .cons rfl ?_ (.cons rfl ?_ (.nil _))
    · intro i m _ k m' hm
      cases hm
    · intro i m h
      cases h
  refine ⟨_, hrun, ((heartbeat_names_held "w1" "w1" "" 2).1 _ _ hrun).mpr ?_⟩
  rintro ⟨i, m, hslot⟩
  by_cases hi : i = 0
  · subst hi
    cases hslot
  · have hask : Worker.pair.slot i = .downloading m := by
      rw [← hslot]
      simp [Worker.setSlot, hi]
    cases hask

/-- The first slot ends its attempt while the second holds a later one. -/
def sharedJob : List WorkerLabel :=
  [.granted 0 (.seventh 1), .started 0, .granted 1 (.seventh 2), .started 1, .ran 0 (.lost ""),
    .uploaded 0]

/-- The worker after that. -/
def sharedEnd : Worker :=
  (((((Worker.pair.setSlot 0 (.downloading (.seventh 1))).setSlot 0
    (.executing (.seventh 1))).setSlot 1 (.downloading (.seventh 2))).setSlot 1
    (.executing (.seventh 2))).setSlot 0 (.uploading (.seventh 1) (.lost ""))).setSlot 0 .asking

theorem sharedJob_exec : exec workerStep Worker.pair sharedJob = some sharedEnd := rfl

/-- A job being downloaded is not named, and neither is one another slot has
ended an attempt of. -/
theorem pair_forgets :
    ¬ (∀ as w, Run workerStep Worker.pair as w → w.NamesAll) ∧
    ¬ (∀ as w, Run workerStep Worker.pair as w → ¬ w.Downloads → w.NamesAll) := by
  constructor
  · intro hclaim
    have hexec : exec workerStep Worker.pair [.granted 0 (.seventh 1)] =
        some (Worker.pair.setSlot 0 (.downloading (.seventh 1))) := rfl
    have hmem := hclaim _ _ (run_of_exec hexec) 0 (.seventh 1) rfl
    cases hmem
  · intro hclaim
    have hdown : ¬ sharedEnd.Downloads := by
      rintro ⟨i, m, hslot⟩
      by_cases h₀ : i = 0
      · simp [sharedEnd, Worker.setSlot, h₀] at hslot
      · by_cases h₁ : i = 1
        · simp [sharedEnd, Worker.setSlot, h₁] at hslot
        · simp [sharedEnd, Worker.setSlot, h₀, h₁, Worker.pair, Worker.start] at hslot
    have hmem := hclaim _ sharedEnd (run_of_exec sharedJob_exec) hdown 1 (.seventh 2) rfl
    cases hmem

end Kura.Server
