import Kura.Server.Queue

/-!
# What one critical section can do

One inversion lemma for each function of the queue that has more than one
way to end. Everything that is proved about runs of a coordinator starts
from these and never unfolds the functions themselves.
-/

namespace Kura.Server

open Kura.Base

/-- No file lies where the directory of the next job will be put. -/
def Store.Free (c : Store) : Prop := c.jobs c.db.nextId = none ∨ c.jobs c.db.nextId = some []

/-- A directory that has every file of another. -/
def Dir.Extends (d src : Dir) : Prop := ∀ n, src.has n = true → d.has n = true

theorem Dir.Extends.refl (d : Dir) : d.Extends d := fun _ h => h

theorem fileBytes_isSome {d : Dir} {ns : List String} (h : ∀ n ∈ ns, d.has n = true) :
    (fileBytes d ns).isSome = true := by
  induction ns with
  | nil => rfl
  | cons n ns ih =>
      obtain ⟨b, hb⟩ := (d.has_iff_read n).mp (h n List.mem_cons_self)
      obtain ⟨rest, hrest⟩ := Option.isSome_iff_exists.mp
        (ih fun m hm => h m (List.mem_cons_of_mem n hm))
      simp [fileBytes, hb, hrest]

/-- The copies of earlier outputs that are attempted for a submission. -/
def copiedOutputs (c : Store) (r : Request) (io : SubmitIo) (prev : Nat) : Dir × Bool :=
  copyOutputs (c.jobs prev) io.copyOk r.src (outputFiles r.args)

/-- Whether a submission that has renamed its directory is cut before its
commit and leaves the directory behind. -/
def SubmitIo.strands (io : SubmitIo) (c : Store) (r : Request) (hash : Option String) : Bool :=
  match io.fault with
  | .kill .commit => true
  | .error .commit => !io.removeOk
  | .kill (.copy _) => (cachedResult c.db hash).isSome
  | .kill .update | .error .update =>
      match cachedResult c.db hash with
      | some (prev, _) => (copiedOutputs c r io prev).2
      | none => false
  | _ => false

/-- Whether the limit of waiting jobs lets a submission through. -/
def Request.hasRoom (set : Settings) (c : Store) (r : Request) : Prop :=
  r.hot.isSome = true ∨ queuedCount c.db < set.queueLimit

/-- The ways a submission ends. -/
inductive SubmitCase (env : Env) (set : Settings) (c : Store) (r : Request) (now : Int)
    (io : SubmitIo) : Store × SubmitReply → Prop
  | unchanged (reply : SubmitReply) (hreply : ∀ id b, reply ≠ .ok id b) :
      SubmitCase env set c r now io (c, reply)
  | undone (hfree : c.Free) (hfault : io.fault = .error .commit) :
      SubmitCase env set c r now io (c.setDir c.db.nextId none, .failed)
  | stranded (hash : Option String) (d : Dir) (reply : SubmitReply)
      (hhash : requestHash env r = some hash) (hroom : r.hasRoom set c) (hfree : c.Free)
      (hcut : io.strands c r hash = true) (hd : d.Extends r.src)
      (hreply : ∀ id b, reply ≠ .ok id b) :
      SubmitCase env set c r now io (c.setDir c.db.nextId (some d), reply)
  | queued (hash : Option String) (d : Dir) (reply : SubmitReply)
      (hhash : requestHash env r = some hash) (hfree : c.Free)
      (hcut : io.strands c r hash = false) (hd : d.Extends r.src)
      (hreply : reply = .ok c.db.nextId false ∨ reply = .killed) :
      SubmitCase env set c r now io
        ({ c.setDir c.db.nextId (some d) with db := c.db.insert (newRow r hash now) }, reply)
  | cached (hash : Option String) (prev : Nat) (res : RunResult) (d : Dir) (reply : SubmitReply)
      (hhash : requestHash env r = some hash) (hfree : c.Free)
      (hcut : io.strands c r hash = false)
      (hprev : cachedResult c.db hash = some (prev, res))
      (hcopied : copiedOutputs c r io prev = (d, true))
      (hreply : reply = .ok c.db.nextId true ∨ reply = .killed) :
      SubmitCase env set c r now io
        ({ c.setDir c.db.nextId (some d) with
            db := c.db.insert (dedupeRow (newRow r hash now) res now) }, reply)

/-- Copying keeps what the target has and adds the copied names. -/
theorem copyOutputs_extends (source : Option Dir) (ok : Bool) (dest : Dir) (ns : List String) :
    (copyOutputs source ok dest ns).1.Extends dest := by
  induction ns generalizing dest with
  | nil => exact Dir.Extends.refl dest
  | cons n ns ih =>
      simp only [copyOutputs]
      split
      · intro m hm
        exact ih _ m (Dir.has_write_of_has hm)
      · exact Dir.Extends.refl dest

/-- Copying that reaches its end leaves every copied name in the target. -/
theorem copyOutputs_has {source : Option Dir} {ok : Bool} {dest d : Dir} {ns : List String}
    (h : copyOutputs source ok dest ns = (d, true)) {n : String} (hn : n ∈ ns) :
    d.has n = true := by
  induction ns generalizing dest with
  | nil => cases hn
  | cons m ns ih =>
      simp only [copyOutputs] at h
      split at h
      · rcases List.mem_cons.mp hn with rfl | hmem
        · have hext := copyOutputs_extends source true (dest.write n ‹_›) ns n
            (Dir.has_write_self _ _ _)
          rwa [h] at hext
        · exact ih h hmem
      · cases h

theorem renameDir_eq_some {c c' : Store} {src : Dir} (h : renameDir c src c.db.nextId = some c') :
    c.Free ∧ c' = c.setDir c.db.nextId (some src) := by
  unfold renameDir at h
  split at h
  · cases h
  · rename_i hne
    refine ⟨?_, (Option.some.inj h).symm⟩
    cases hd : c.jobs c.db.nextId with
    | none => exact Or.inl hd
    | some d =>
        cases d with
        | nil => exact Or.inr hd
        | cons f rest => exact absurd hd (hne f rest)

theorem renameDir_of_free {c : Store} (h : c.Free) (src : Dir) :
    renameDir c src c.db.nextId = some (c.setDir c.db.nextId (some src)) := by
  unfold renameDir
  rcases h with h | h <;> simp [h]

/-- Moving the last directory write over an earlier one. -/
theorem Store.setDir_setDir (c : Store) (id : Nat) (d e : Option Dir) :
    (c.setDir id d).setDir id e = c.setDir id e := by
  simp [Store.setDir]

/-- The commit of a submission, by what cuts it. -/
theorem commitSubmit_cases (c : Store) (io : SubmitIo) (row : Job) (cached : Bool) :
    (io.fault = .error .commit ∧
      commitSubmit c io row cached =
        (if io.removeOk then c.setDir c.db.nextId none else c, .failed)) ∨
    (io.fault = .kill .commit ∧ commitSubmit c io row cached = (c, .killed)) ∨
    (io.fault ≠ .error .commit ∧ io.fault ≠ .kill .commit ∧
      ∃ reply, (reply = .ok c.db.nextId cached ∨ reply = .killed) ∧
        commitSubmit c io row cached = ({ c with db := c.db.insert row }, reply)) := by
  unfold commitSubmit
  split
  · exact Or.inl ⟨‹_›, rfl⟩
  · exact Or.inr (Or.inl ⟨‹_›, rfl⟩)
  · rename_i h
    exact Or.inr (Or.inr ⟨by simp [h], by simp [h], _, Or.inr rfl, rfl⟩)
  · rename_i h₁ h₂ _
    exact Or.inr (Or.inr ⟨h₁, h₂, _, Or.inl rfl, rfl⟩)

/-- A submission committing from the state after its rename. -/
theorem submitCase_of_commit {env : Env} {set : Settings} {c : Store} {r : Request} {now : Int}
    {io : SubmitIo}
    {hash : Option String} {d : Dir} {row : Job} {cached : Bool}
    (hhash : requestHash env r = some hash) (hroom : r.hasRoom set c) (hfree : c.Free)
    (hd : d.Extends r.src)
    (hcut : io.fault ≠ .error .commit → io.fault ≠ .kill .commit →
      io.strands c r hash = false ∧ ∀ reply,
        reply = .ok c.db.nextId cached ∨ reply = .killed →
        SubmitCase env set c r now io
          ({ c.setDir c.db.nextId (some d) with db := c.db.insert row }, reply)) :
    SubmitCase env set c r now io (commitSubmit (c.setDir c.db.nextId (some d)) io row cached) := by
  rcases commitSubmit_cases (c.setDir c.db.nextId (some d)) io row cached with
    ⟨hf, heq⟩ | ⟨hf, heq⟩ | ⟨hf, hf', reply, hreply, heq⟩
  · rw [heq]
    by_cases hrm : io.removeOk = true
    · simp only [if_pos hrm, Store.setDir_db, Store.setDir_setDir]
      exact .undone hfree hf
    · rw [if_neg hrm]
      exact .stranded hash d .failed hhash hroom hfree (by simp [SubmitIo.strands, hf, hrm]) hd
        (by simp)
  · rw [heq]
    exact .stranded hash d .killed hhash hroom hfree (by simp [SubmitIo.strands, hf]) hd (by simp)
  · rw [heq]
    exact (hcut hf hf').2 reply hreply

/-- Cutting points that are never reached strand nothing. -/
theorem strands_eq_false {io : SubmitIo} {c : Store} {r : Request} {hash : Option String}
    (h₁ : io.fault ≠ .error .commit) (h₂ : io.fault ≠ .kill .commit)
    (h₃ : ∀ n, io.fault = .kill (.copy n) → cachedResult c.db hash = none)
    (h₄ : io.fault.stops .update = true → ∀ prev res, cachedResult c.db hash = some (prev, res) →
      (copiedOutputs c r io prev).2 = false) : io.strands c r hash = false := by
  unfold SubmitIo.strands
  split
  · exact absurd ‹_› h₂
  · exact absurd ‹_› h₁
  · rename_i n hf
    simp [h₃ n hf]
  · rename_i hf
    have hs : io.fault.stops .update = true := by simp [Fault.stops, hf]
    split
    · rename_i prev res hres
      exact h₄ hs prev res hres
    · rfl
  · rename_i hf
    have hs : io.fault.stops .update = true := by simp [Fault.stops, hf]
    split
    · rename_i prev res hres
      exact h₄ hs prev res hres
    · rfl
  · rfl

/-- The reused job is an earlier, finished, unpurged one with the same hash. -/
theorem cachedResult_eq_some {db : Table Job} {hash : Option String} {prev : Nat}
    {res : RunResult} (h : cachedResult db hash = some (prev, res)) :
    ∃ j k, hash = some k ∧ db.get? prev = some j ∧ j.hash = some k ∧ j.state = .done ∧
      j.purged = false ∧ j.result = some res := by
  cases hash with
  | none => cases h
  | some k =>
      simp only [cachedResult] at h
      split at h
      · rename_i id j hlast
        obtain ⟨res', hres, heq⟩ := Option.map_eq_some_iff.mp h
        obtain ⟨rfl, rfl⟩ := Prod.mk.inj heq
        obtain ⟨hget, hp⟩ := Table.get?_of_last? hlast
        simp only [Bool.and_eq_true, decide_eq_true_eq, Bool.not_eq_true'] at hp
        exact ⟨j, k, rfl, hget, hp.1.1, hp.1.2, hp.2, hres⟩
      · cases h

theorem cachedResult_ne_nextId {db : Table Job} {hash : Option String} {prev : Nat}
    {res : RunResult} (h : cachedResult db hash = some (prev, res)) : prev ≠ db.nextId := by
  obtain ⟨j, k, -, hget, -⟩ := cachedResult_eq_some h
  rintro rfl
  simp at hget

/-- What a submission can do once its directory is in place. -/
theorem submitRenamed_cases {env : Env} {set : Settings} {c : Store} {r : Request} {now : Int}
    {io : SubmitIo} {hash : Option String} (hhash : requestHash env r = some hash)
    (hroom : r.hasRoom set c) (hfree : c.Free) :
    SubmitCase env set c r now io
      (submitRenamed (c.setDir c.db.nextId (some r.src)) r io (newRow r hash now) now) := by
  have hrow : (newRow r hash now).hash = hash := rfl
  unfold submitRenamed
  simp only [Store.setDir_db, hrow]
  cases hres : cachedResult c.db hash with
  | none =>
      apply submitCase_of_commit hhash hroom hfree (Dir.Extends.refl _)
      intro h₁ h₂
      have hcut : io.strands c r hash = false :=
        strands_eq_false h₁ h₂ (fun _ _ => hres) fun _ _ _ h => by simp [hres] at h
      exact ⟨hcut, fun reply hreply => .queued hash _ reply hhash hfree hcut
        (Dir.Extends.refl _) hreply⟩
  | some p =>
      obtain ⟨prev, res⟩ := p
      have hne := cachedResult_ne_nextId hres
      simp only [Store.setDir_jobs_ne c _ hne, Store.setDir_setDir]
      have hext : ∀ ns, (copyOutputs (c.jobs prev) io.copyOk r.src ns).1.Extends r.src :=
        copyOutputs_extends _ _ _
      split
      · rename_i n hf
        exact .stranded hash _ .killed hhash hroom hfree (by simp [SubmitIo.strands, hf, hres])
          (hext _) (by simp)
      · rename_i hf
        by_cases hc : (copyOutputs (c.jobs prev) io.copyOk r.src (outputFiles r.args)).2 = true
        · rw [if_pos hc]
          by_cases hs : io.fault.stops .update = true
          · rw [if_pos hs]
            refine .stranded hash _ io.cut hhash hroom hfree ?_ (hext _) ?_
            · simp only [Fault.stops, Bool.or_eq_true, decide_eq_true_eq] at hs
              rcases hs with hs | hs <;> simp [SubmitIo.strands, hs, hres, copiedOutputs, hc]
            · unfold SubmitIo.cut
              split <;> simp
          · rw [if_neg hs]
            apply submitCase_of_commit hhash hroom hfree (hext _)
            intro h₁ h₂
            have hcut : io.strands c r hash = false :=
              strands_eq_false h₁ h₂ (fun n h => absurd h (hf n)) fun h => absurd h hs
            exact ⟨hcut, fun reply hreply => .cached hash prev res _ reply hhash hfree hcut hres
              (Prod.ext rfl hc) hreply⟩
        · rw [if_neg hc]
          apply submitCase_of_commit hhash hroom hfree (hext _)
          intro h₁ h₂
          have hcut : io.strands c r hash = false := by
            refine strands_eq_false h₁ h₂ (fun n h => absurd h (hf n)) ?_
            intro _ prev' res' h
            obtain ⟨rfl, rfl⟩ := Prod.mk.inj (Option.some.inj (hres.symm.trans h))
            simpa [copiedOutputs] using hc
          exact ⟨hcut, fun reply hreply => .queued hash _ reply hhash hfree hcut (hext _) hreply⟩

/-- Everything a submission can do. -/
theorem submit_cases (env : Env) (set : Settings) (c : Store) (r : Request) (now : Int)
    (io : SubmitIo) : SubmitCase env set c r now io (submit env set c r now io) := by
  have hcut : ∀ id b, io.cut ≠ .ok id b := by
    intro id b
    unfold SubmitIo.cut
    split <;> simp
  unfold submit
  by_cases hstop : io.fault.stops .hash = true
  · rw [if_pos hstop]
    exact .unchanged _ hcut
  · rw [if_neg hstop]
    cases hhash : requestHash env r with
    | none => exact .unchanged _ (by simp)
    | some hash =>
        simp only
        split_ifs with _ hbusy
        · exact .unchanged _ hcut
        · exact .unchanged _ (by simp)
        · exact .unchanged _ hcut
        · have hroom : r.hasRoom set c := by
            cases hhot : r.hot with
            | none => exact Or.inr (by simpa [hhot] using hbusy)
            | some _ => exact Or.inl (by simp [hhot])
          cases hren : renameDir c r.src c.db.nextId with
          | none => exact .unchanged _ (by simp)
          | some c' =>
              obtain ⟨hfree, rfl⟩ := renameDir_eq_some hren
              exact submitRenamed_cases hhash hroom hfree

/-- The calls of a submission up to the rename of its directory. -/
def SubmitPoint.early : List SubmitPoint := [.hash, .count, .begin, .insert, .rename]

/-- A submission that gets past the rename of its directory. -/
theorem submit_eq_renamed {env : Env} {set : Settings} {c : Store} {r : Request} {now : Int}
    {io : SubmitIo} {hash : Option String} (hhash : requestHash env r = some hash)
    (hroom : r.hasRoom set c) (hfree : c.Free)
    (hio : ∀ p ∈ SubmitPoint.early, io.fault.stops p = false) :
    submit env set c r now io =
      submitRenamed (c.setDir c.db.nextId (some r.src)) r io (newRow r hash now) now := by
  have hbusy : ¬ ((r.hot.isNone && decide (set.queueLimit ≤ queuedCount c.db)) = true) := by
    rcases hroom with h | h
    · cases hh : r.hot with
      | none => simp [hh] at h
      | some _ => simp
    · simp only [Bool.and_eq_true, decide_eq_true_eq, not_and]
      omega
  simp only [SubmitPoint.early, List.forall_mem_cons] at hio
  unfold submit
  simp only [hio, hhash, hbusy, renameDir_of_free hfree, Bool.false_eq_true, if_false,
    Bool.or_self]

/-- A submission that nothing cuts is accepted when the next directory is
free and the queue has room. -/
theorem submit_ok {env : Env} {set : Settings} {c : Store} {r : Request} {now : Int}
    {io : SubmitIo} (hio : io.fault = .none) (hfree : c.Free)
    (hhash : (requestHash env r).isSome = true) (hroom : r.hasRoom set c) :
    ∃ cached, (submit env set c r now io).2 = .ok c.db.nextId cached := by
  obtain ⟨hash, hhash⟩ := Option.isSome_iff_exists.mp hhash
  have hstops : ∀ p, io.fault.stops p = false := by
    intro p
    simp [Fault.stops, hio]
  have hcommit : ∀ c' row cached, (commitSubmit c' io row cached).2 = .ok c'.db.nextId cached := by
    intro c' row cached
    simp [commitSubmit, hio]
  rw [submit_eq_renamed hhash hroom hfree fun p _ => hstops p]
  unfold submitRenamed
  simp only [hstops, Bool.false_eq_true, if_false]
  simp only [hio]
  split
  · exact ⟨false, hcommit _ _ _⟩
  · split_ifs
    · exact ⟨true, hcommit _ _ _⟩
    · exact ⟨false, hcommit _ _ _⟩

/-- The faults that strand a directory, by whether an earlier result is used. -/
theorem strands_iff {io : SubmitIo} {c : Store} {r : Request} {hash : Option String} :
    io.strands c r hash = true ↔
      (io.fault = .kill .commit ∨ (io.fault = .error .commit ∧ io.removeOk = false)) ∨
      ∃ prev res, cachedResult c.db hash = some (prev, res) ∧
        ((∃ n, io.fault = .kill (.copy n)) ∨
          (io.fault.stops .update = true ∧ (copiedOutputs c r io prev).2 = true)) := by
  unfold SubmitIo.strands
  split
  all_goals rename_i hf
  · simp [hf]
  · simp [hf, Fault.stops]
  · simp only [hf, Option.isSome_iff_exists, Prod.exists]
    simp [Fault.stops]
  · rcases cachedResult c.db hash with _ | ⟨prev, res⟩ <;> simp [hf, Fault.stops]
  · rcases cachedResult c.db hash with _ | ⟨prev, res⟩ <;> simp [hf, Fault.stops]
  · rename_i h₁ h₂ h₃ h₄
    simp only [Bool.false_eq_true, false_iff]
    rintro ((h | ⟨h, -⟩) | ⟨prev, res, -, ⟨n, h⟩ | ⟨h, -⟩⟩)
    · exact h₁ h
    · exact h₂ h
    · exact h₃ n h
    · simp only [Fault.stops, Bool.or_eq_true, decide_eq_true_eq] at h
      rcases h with h | h
      · exact hf h
      · exact h₄ h

theorem commitSubmit_cut {io : SubmitIo}
    (h : io.fault = .kill .commit ∨ (io.fault = .error .commit ∧ io.removeOk = false))
    (c : Store) (row : Job) (cached : Bool) :
    ∃ reply, commitSubmit c io row cached = (c, reply) := by
  rcases h with h | ⟨h, hrm⟩
  · exact ⟨.killed, by simp [commitSubmit, h]⟩
  · exact ⟨.failed, by simp [commitSubmit, h, hrm]⟩

/-- A submission that strands its directory leaves it where the next job's
directory will be put. -/
theorem submit_of_strands {env : Env} {set : Settings} {c : Store} {r : Request} {now : Int}
    {io : SubmitIo} {hash : Option String} (hhash : requestHash env r = some hash)
    (hroom : r.hasRoom set c) (hfree : c.Free) (hcut : io.strands c r hash = true) :
    ∃ d reply, d.Extends r.src ∧
      submit env set c r now io = (c.setDir c.db.nextId (some d), reply) := by
  rw [strands_iff] at hcut
  have hearly : ∀ p ∈ SubmitPoint.early, io.fault.stops p = false := by
    simp only [SubmitPoint.early, List.forall_mem_cons]
    rcases hcut with (h | ⟨h, -⟩) | ⟨prev, res, -, ⟨n, h⟩ | ⟨h, -⟩⟩
    · simp [Fault.stops, h]
    · simp [Fault.stops, h]
    · simp [Fault.stops, h]
    · simp only [Fault.stops, Bool.or_eq_true, decide_eq_true_eq] at h
      rcases h with h | h <;> simp [Fault.stops, h]
  rw [submit_eq_renamed hhash hroom hfree hearly]
  have hrow : (newRow r hash now).hash = hash := rfl
  unfold submitRenamed
  simp only [Store.setDir_db, hrow]
  rcases hcut with hcommit | ⟨prev, res, hres, hmid⟩
  · cases hres : cachedResult c.db hash with
    | none =>
        obtain ⟨reply, heq⟩ := commitSubmit_cut hcommit (c.setDir c.db.nextId (some r.src))
          (newRow r hash now) false
        exact ⟨r.src, reply, Dir.Extends.refl _, heq⟩
    | some p =>
        obtain ⟨prev, res⟩ := p
        have hupdate : io.fault.stops .update = false := by
          rcases hcommit with h | ⟨h, -⟩ <;> simp [Fault.stops, h]
        have hcopy : ∀ n, io.fault ≠ .kill (.copy n) := by
          rcases hcommit with h | ⟨h, -⟩ <;> simp [h]
        simp only [hupdate, Bool.false_eq_true, if_false, Store.setDir_setDir]
        split_ifs
        · obtain ⟨reply, heq⟩ := commitSubmit_cut hcommit (c.setDir c.db.nextId _)
            (dedupeRow (newRow r hash now) res now) true
          exact ⟨_, reply, copyOutputs_extends _ _ _ _, heq⟩
        · obtain ⟨reply, heq⟩ := commitSubmit_cut hcommit (c.setDir c.db.nextId _)
            (newRow r hash now) false
          exact ⟨_, reply, copyOutputs_extends _ _ _ _, heq⟩
  · have hne := cachedResult_ne_nextId hres
    simp only [hres, Store.setDir_jobs_ne c _ hne, Store.setDir_setDir]
    rcases hmid with ⟨n, hf⟩ | ⟨hstop, hcopied⟩
    · simp only [hf]
      exact ⟨_, .killed, copyOutputs_extends _ _ _ _, rfl⟩
    · have hcopy : ∀ n, io.fault ≠ .kill (.copy n) := by
        intro n hf
        simp [Fault.stops, hf] at hstop
      split
      · exact absurd ‹_› (hcopy _)
      · rw [copiedOutputs] at hcopied
        rw [if_pos hcopied, if_pos hstop]
        exact ⟨_, io.cut, copyOutputs_extends _ _ _ _, rfl⟩

/-- A file in the way refuses every submission. -/
theorem submit_not_ok_of_not_free {env : Env} {set : Settings} {c : Store} {r : Request}
    {now : Int} {io : SubmitIo} (h : ¬ c.Free) :
    (submit env set c r now io).1 = c ∧ ∀ id b, (submit env set c r now io).2 ≠ .ok id b := by
  have hcase := submit_cases env set c r now io
  generalize submit env set c r now io = out at hcase
  cases hcase with
  | unchanged reply hreply => exact ⟨rfl, hreply⟩
  | undone hfree => exact absurd hfree h
  | stranded _ _ _ _ _ hfree => exact absurd hfree h
  | queued _ _ _ _ hfree => exact absurd hfree h
  | cached _ _ _ _ _ _ hfree => exact absurd hfree h

/-- Only the directory of one job differs, and it lost no file. -/
structure Store.Grown (c : Store) (id : Nat) (c' : Store) : Prop where
  db : c'.db = c.db
  workers : c'.workers = c.workers
  others : ∀ k, k ≠ id → c'.jobs k = c.jobs k
  absent : c.jobs id = none → c'.jobs id = none
  kept : ∀ d, c.jobs id = some d → ∃ d', c'.jobs id = some d' ∧ d'.Extends d

theorem Store.Grown.refl (c : Store) (id : Nat) : c.Grown id c :=
  ⟨rfl, rfl, fun _ _ => rfl, fun h => h, fun d h => ⟨d, h, Dir.Extends.refl d⟩⟩

theorem moveStaged_extends (staging dir : Dir) (ns : List String) :
    (moveStaged staging dir ns).1.Extends dir := by
  induction ns generalizing staging dir with
  | nil => exact Dir.Extends.refl dir
  | cons n ns ih =>
      simp only [moveStaged]
      split
      · intro m hm
        exact ih _ _ m (Dir.has_write_of_has hm)
      · exact Dir.Extends.refl dir

theorem moveStaged_has {staging dir : Dir} {ns : List String}
    (h : (moveStaged staging dir ns).2 = true) {n : String} (hn : n ∈ ns) :
    (moveStaged staging dir ns).1.has n = true := by
  induction ns generalizing staging dir with
  | nil => cases hn
  | cons m ns ih =>
      simp only [moveStaged] at h ⊢
      split at h
      · rename_i b hb
        rcases List.mem_cons.mp hn with rfl | hmem
        · exact moveStaged_extends _ _ ns n (Dir.has_write_self _ _ _)
        · exact ih h hmem
      · cases h

theorem takeBundle_grown (c : Store) (id : Nat) (staging : Dir) (names : List String) :
    c.Grown id (takeBundle c id staging names).1 := by
  unfold takeBundle
  cases hd : c.jobs id with
  | none => exact Store.Grown.refl c id
  | some d =>
      refine ⟨rfl, rfl, fun k hk => c.setDir_jobs_ne _ hk, fun h => ?_, fun e he => ?_⟩
      · cases hd.symm.trans h
      · obtain rfl := Option.some.inj (hd.symm.trans he)
        exact ⟨_, c.setDir_jobs_self _ _, moveStaged_extends _ _ _⟩

/-- The files of a bundle that a completion has taken. -/
def Store.HasBundle (c : Store) (id : Nat) (names : List String) : Prop :=
  names = [] ∨ ∃ d, c.jobs id = some d ∧ ∀ n ∈ names, d.has n = true

theorem takeBundle_has {c : Store} {id : Nat} {staging : Dir} {names : List String}
    (h : (takeBundle c id staging names).2 = true) :
    (takeBundle c id staging names).1.HasBundle id names := by
  unfold takeBundle at h ⊢
  cases hd : c.jobs id with
  | none =>
      rw [hd] at h
      exact Or.inl (List.isEmpty_iff.mp h)
  | some d =>
      rw [hd] at h
      exact Or.inr ⟨_, c.setDir_jobs_self _ _, fun n hn => moveStaged_has h hn⟩

/-- The ways a completion ends. -/
inductive FinishCase (env : Env) (c : Store) (id : Nat) (result : RunResult)
    (staged : Option (Dir × List String)) (attempt : Option (Int × String)) (now : Int) :
    Store × FinishReply → Prop
  | refused (c' : Store) (reply : FinishReply) (hgrown : c.Grown id c')
      (hrow : c' = c ∨ ∃ j, c.db.get? id = some j) (hreply : ∀ s, reply ≠ .accepted s) :
      FinishCase env c id result staged attempt now (c', reply)
  | recorded (j : Job) (c' : Store) (reply : FinishReply) (hget : c.db.get? id = some j)
      (hopen : j.state.finished = false)
      (hholds : ∀ a w, attempt = some (a, w) → holdsRow j a w = true)
      (hgrown : c.Grown id c')
      (hbundle : ∀ staging names, staged = some (staging, names) → c'.HasBundle id names)
      (hreply : reply = .accepted (finishedState env j.kind result) ∨ reply = .killed) :
      FinishCase env c id result staged attempt now
        ({ c' with
            db := c.db.modify id (finishRow (finishedState env j.kind result) result now) },
          reply)

/-- The moves of a completion either stop it or take the whole bundle. -/
theorem finishMoves_spec (c : Store) (id : Nat) (staged : Option (Dir × List String))
    (f : Fault FinishPoint) :
    c.Grown id (finishMoves c id staged f).1 ∧
      (∀ reply s, (finishMoves c id staged f).2 = some reply → reply ≠ .accepted s) ∧
      ((finishMoves c id staged f).2 = none → ∀ staging names, staged = some (staging, names) →
        (finishMoves c id staged f).1.HasBundle id names) := by
  unfold finishMoves
  cases staged with
  | none => exact ⟨Store.Grown.refl c id, by simp, by simp⟩
  | some p =>
      obtain ⟨staging, names⟩ := p
      simp only
      split
      · exact ⟨takeBundle_grown _ _ _ _, by rintro _ _ ⟨⟩; simp, by simp⟩
      · exact ⟨takeBundle_grown _ _ _ _, by rintro _ _ ⟨⟩; simp, by simp⟩
      · refine ⟨takeBundle_grown _ _ _ _, ?_, ?_⟩
        · intro reply s hreply
          split_ifs at hreply
          cases hreply
          simp
        · intro hnone staging' names' heq
          obtain ⟨rfl, rfl⟩ := Prod.mk.inj (Option.some.inj heq)
          split_ifs at hnone with htaken
          exact takeBundle_has htaken

/-- Everything a completion can do. -/
theorem finish_cases (env : Env) (c : Store) (id : Nat) (result : RunResult)
    (staged : Option (Dir × List String)) (attempt : Option (Int × String)) (now : Int)
    (f : Fault FinishPoint) :
    FinishCase env c id result staged attempt now
      (finish env c id result staged attempt now f) := by
  have hself := Store.Grown.refl c id
  unfold finish
  by_cases hstop : f.stops .begin = true
  · rw [if_pos hstop]
    refine .refused c _ hself (Or.inl rfl) fun s => ?_
    unfold finishCut
    split <;> simp
  · rw [if_neg hstop]
    cases hget : c.db.get? id with
    | none => exact .refused c _ hself (Or.inl rfl) (by simp)
    | some j =>
        simp only
        split_ifs with hrefuse
        · exact .refused c _ hself (Or.inl rfl) (by simp)
        · obtain ⟨hgrown, hreply, hbundle⟩ := finishMoves_spec c id staged f
          simp only [Bool.or_eq_true, not_or, Bool.not_eq_true] at hrefuse
          have hholds : ∀ a w, attempt = some (a, w) → holdsRow j a w = true := by
            rintro a w rfl
            simpa [holds, hget] using hrefuse.2
          cases hm : (finishMoves c id staged f).2 with
          | some reply =>
              exact .refused _ reply hgrown (Or.inr ⟨j, hget⟩) fun s => hreply reply s hm
          | none =>
              have hb := hbundle hm
              have hrec : ∀ reply,
                  reply = .accepted (finishedState env j.kind result) ∨ reply = .killed →
                  FinishCase env c id result staged attempt now
                    ({ (finishMoves c id staged f).1 with
                        db := c.db.modify id
                          (finishRow (finishedState env j.kind result) result now) }, reply) :=
                fun reply h => .recorded j _ reply hget hrefuse.1 hholds hgrown hb h
              simp only [commitFinish, hgrown.db]
              split
              · exact .refused _ _ hgrown (Or.inr ⟨j, hget⟩) (by simp)
              · exact .refused _ _ hgrown (Or.inr ⟨j, hget⟩) (by simp)
              · exact hrec _ (Or.inr rfl)
              · exact hrec _ (Or.inl rfl)

end Kura.Server
