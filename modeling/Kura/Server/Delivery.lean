import Kura.Server.Origin

/-!
# The deliveries of a coordinator

The jobs of watched folders are delivered one by one after they have ended.
A delivery is under way only for a job that is finished and not marked
delivered, and never twice for the same job, whatever requests, loops and
restarts come in between.
-/

namespace Kura.Server

open Kura.Base Kura.Transition

variable {env : Env} {set : Settings}

/-- A job whose result is to be put into its watched folder. -/
structure Job.Due (j : Job) : Prop where
  finished : j.state.finished = true
  hot : j.folder.isSome = true
  undelivered : j.delivered = false

/-- Deliveries are under way for jobs that are due, one for each. -/
structure Coord.DeliverOk (w : Coord) : Prop where
  nodup : w.delivering.Nodup
  known : ∀ id ∈ w.delivering, id ≤ w.store.db.seq
  due : ∀ id ∈ w.delivering, ∀ j, w.job? id = some j → j.Due
  pending : ∀ id j, w.job? id = some j → j.folder.isSome = true → j.state.finished = false →
    j.delivered = false

/-- No job of a watched folder is acknowledged by a front end. -/
def Coord.KeepsHot (w : Coord) (a : Label) : Prop :=
  ∀ id readable marked, a = .release id readable marked →
    ∀ j, w.job? id = some j → j.folder = none

theorem RowChange.folder_eq {id : Nat} {a : Label} {j j' : Job} (h : RowChange set id a j j') :
    j'.folder = j.folder := by
  cases h <;> rfl

theorem RowChange.file_eq {id : Nat} {a : Label} {j j' : Job} (h : RowChange set id a j j') :
    j'.file = j.file := by
  cases h <;> rfl

/-- What is not delivered after a change was not delivered before. -/
theorem RowChange.undelivered {id : Nat} {a : Label} {j j' : Job} (h : RowChange set id a j j')
    (hj' : j'.delivered = false) : j.delivered = false := by
  cases h with
  | release => cases hj'
  | deliver => cases hj'
  | _ => exact hj'

theorem RowChange.finished {id : Nat} {a : Label} {j j' : Job} (h : RowChange set id a j j')
    (hj : j.state.finished = true) : j'.state.finished = true := by
  cases h with
  | lease worker now _ hqueued => simp [hqueued, JobState.finished] at hj
  | finish a state result now _ hopen hstate => exact hstate
  | requeue a now _ hrun => simp [hrun, JobState.finished] at hj
  | _ => exact hj

/-- Only a delivery, or an acknowledgement, marks a row as delivered. -/
theorem RowChange.delivered {id : Nat} {a : Label} {j j' : Job} (h : RowChange set id a j j')
    (hj : j.delivered = false) (hj' : j'.delivered = true) :
    (∃ readable marked, a = .release id readable marked) ∨ ∃ ok, a = .delivered id ok := by
  cases h with
  | release readable marked => exact Or.inl ⟨readable, marked, rfl⟩
  | deliver ok => exact Or.inr ⟨ok, rfl⟩
  | _ =>
      have hj' : j.delivered = true := hj'
      rw [hj] at hj'
      cases hj'

/-- Jobs that are due stay so until they are delivered. -/
theorem RowChange.due {w : Coord} {id : Nat} {a : Label} {j j' : Job}
    (h : RowChange set id a j j') (hget : w.job? id = some j) (hkeep : w.KeepsHot a)
    (hnot : ∀ ok, a ≠ .delivered id ok) (hj : j.Due) : j'.Due := by
  refine ⟨h.finished hj.finished, h.folder_eq ▸ hj.hot, ?_⟩
  by_contra hd
  rcases h.delivered hj.undelivered (by simpa using hd) with ⟨readable, marked, rfl⟩ | ⟨ok, rfl⟩
  · have hnone := hkeep id readable marked rfl j hget
    have hsome := hj.hot
    rw [hnone] at hsome
    cases hsome
  · exact hnot ok rfl

/-- A step keeps the deliveries in order if those it adds are for jobs that
are due afterwards and the one it ends is not listed any more. -/
theorem Coord.DeliverOk.of_step {w : Coord} {a : Label} {out : Coord × Reply} (hw : w.DeliverOk)
    (h : Stepped env set w a out) (hkeep : w.KeepsHot a) (hnodup : out.1.delivering.Nodup)
    (hmem : ∀ id ∈ out.1.delivering,
      (id ∈ w.delivering ∧ ∀ ok, a ≠ .delivered id ok) ∨
        (id ≤ out.1.store.db.seq ∧ ∀ j, out.1.job? id = some j → j.Due)) :
    out.1.DeliverOk where
  nodup := hnodup
  known := by
    intro id hid
    rcases hmem id hid with ⟨hold, -⟩ | ⟨hle, -⟩
    · have hle := hw.known id hold
      rcases seq_of_step h with hseq | hseq
      · omega
      · rw [hseq, Table.nextId]
        omega
    · exact hle
  due := by
    intro id hid j' hj'
    rcases hmem id hid with ⟨hold, hnot⟩ | ⟨-, hdue⟩
    · rcases row_of_step h hj' with ⟨j, hj, hchange⟩ | ⟨rfl, -, -⟩
      · exact hchange.due hj hkeep hnot (hw.due id hold j hj)
      · have hle := hw.known _ hold
        rw [Table.nextId] at hle
        omega
    · exact hdue j' hj'
  pending := by
    intro id j' hj' hhot hopen
    rcases row_of_step h hj' with ⟨j, hj, hchange⟩ | ⟨rfl, hnew, -⟩
    · have hjopen : j.state.finished = false := by
        by_contra hf
        have hfin := hchange.finished (by simpa using hf)
        rw [hopen] at hfin
        cases hfin
      have hjhot : j.folder.isSome = true := hchange.folder_eq ▸ hhot
      have hjundelivered := hw.pending id j hj hjhot hjopen
      by_contra hd
      rcases hchange.delivered hjundelivered (by simpa using hd) with
        ⟨readable, marked, rfl⟩ | ⟨ok, rfl⟩
      · rw [hkeep id readable marked rfl j hj] at hjhot
        cases hjhot
      · -- a delivery is only ever of a job that is due, hence finished
        cases h with
        | delivered _ _ hup hlisted =>
            have hfin := (hw.due id hlisted j hj).finished
            rw [hjopen] at hfin
            cases hfin
    · cases hnew <;> rfl

/-- What a completion does to the list of deliveries. -/
theorem finished_delivering (env : Env) (w : Coord) (id : Nat) (result : RunResult)
    (staged : Option (Dir × List String)) (attempt : Option (Int × String)) (now : Int)
    (f : Fault FinishPoint) :
    let out := (w.finished id (finish env w.store id result staged attempt now f)).1
    out.delivering = w.delivering ∨ out.delivering = [] ∨
      ∃ j j', w.job? id = some j ∧ j.state.finished = false ∧ j.folder.isSome = true ∧
        out.delivering = id :: w.delivering ∧ out.job? id = some j' ∧
        j'.state.finished = true ∧ j'.folder = j.folder ∧ j'.delivered = j.delivered := by
  have hcase := finish_cases env w.store id result staged attempt now f
  generalize finish env w.store id result staged attempt now f = out at hcase ⊢
  cases hcase with
  | refused c' reply hgrown hrow hreply =>
      cases reply with
      | accepted s => exact absurd rfl (hreply s)
      | refused => exact Or.inl rfl
      | killed => exact Or.inr (Or.inl rfl)
  | recorded j c' reply hget hopen hholds hgrown hbundle hreply =>
      rcases hreply with rfl | rfl
      · have hjob : w.job? id = some j := hget
        by_cases hhot : j.folder.isSome = true
        · refine Or.inr (Or.inr ⟨j, finishRow (finishedState env j.kind result) result now j,
            hjob, hopen, hhot, ?_, ?_, ?_, rfl, rfl⟩)
          · simp [Coord.finished, noteFinished, hjob, hhot]
          · simp only [Coord.job?, Coord.finished_store, Table.get?_modify, if_pos, hget]
            rfl
          · exact finishedState_finished env j.kind result
        · refine Or.inl ?_
          simp [Coord.finished, noteFinished, hjob, hhot]
      · exact Or.inr (Or.inl rfl)

/-- What a submission does to the list of deliveries. -/
theorem submitted_delivering (env : Env) (set : Settings) (w : Coord) (r : Request) (now : Int)
    (io : SubmitIo) :
    let out := (w.submitted r (submit env set w.store r now io)).1
    out.delivering = w.delivering ∨ out.delivering = [] ∨
      ∃ j, r.hot.isSome = true ∧ out.delivering = w.store.db.nextId :: w.delivering ∧
        out.job? w.store.db.nextId = some j ∧ out.store.db.seq = w.store.db.nextId ∧
        j.state.finished = true ∧ j.folder = r.hot.map Prod.fst ∧ j.delivered = false := by
  have hcase := submit_cases env set w.store r now io
  generalize submit env set w.store r now io = out at hcase ⊢
  have hnot : ∀ (c : Store) (reply : SubmitReply), (∀ id b, reply ≠ .ok id b) →
      (w.submitted r (c, reply)).1.delivering = w.delivering ∨
        (w.submitted r (c, reply)).1.delivering = [] := by
    intro c reply hreply
    cases reply with
    | ok id b => exact absurd rfl (hreply id b)
    | killed => exact Or.inr rfl
    | busy => exact Or.inl rfl
    | failed => exact Or.inl rfl
  cases hcase with
  | unchanged reply hreply => exact (hnot _ _ hreply).imp_right Or.inl
  | undone => exact Or.inl rfl
  | stranded hash d reply _ _ _ _ _ hreply => exact (hnot _ _ hreply).imp_right Or.inl
  | queued hash d reply _ _ _ _ hreply =>
      rcases hreply with rfl | rfl
      · exact Or.inl rfl
      · exact Or.inr (Or.inl rfl)
  | cached hash prev res d reply _ _ _ _ _ hreply =>
      rcases hreply with rfl | rfl
      · by_cases hhot : r.hot.isSome = true
        · refine Or.inr (Or.inr ⟨dedupeRow (newRow r hash now) res now,
            hhot, ?_, ?_, ?_, rfl, rfl, rfl⟩)
          · simp [Coord.submitted, hhot]
          · simp only [Coord.job?, Coord.submitted_store, Table.get?_insert, if_pos]
          · simp only [Coord.submitted_store]
            exact Table.seq_insert _ _
        · refine Or.inl ?_
          simp [Coord.submitted, hhot]
      · exact Or.inr (Or.inl rfl)

/-- Steps that leave the list of deliveries alone keep it in order. -/
theorem Coord.DeliverOk.of_same {w : Coord} {a : Label} {out : Coord × Reply} (hw : w.DeliverOk)
    (h : Stepped env set w a out) (hkeep : w.KeepsHot a) (hnot : ∀ k ok, a ≠ .delivered k ok)
    (hsame : out.1.delivering = w.delivering) : out.1.DeliverOk := by
  apply hw.of_step h hkeep
  · rw [hsame]
    exact hw.nodup
  · intro k hk
    rw [hsame] at hk
    exact Or.inl ⟨hk, hnot k⟩

/-- So do steps that forget it. -/
theorem Coord.DeliverOk.of_nil {w : Coord} {a : Label} {out : Coord × Reply} (hw : w.DeliverOk)
    (h : Stepped env set w a out) (hkeep : w.KeepsHot a) (hnil : out.1.delivering = []) :
    out.1.DeliverOk := by
  apply hw.of_step h hkeep
  · rw [hnil]
    exact List.nodup_nil
  · intro k hk
    rw [hnil] at hk
    cases hk

/-- So do steps that add one job that is due. -/
theorem Coord.DeliverOk.of_cons {w : Coord} {a : Label} {out : Coord × Reply} {id : Nat} {j : Job}
    (hw : w.DeliverOk) (h : Stepped env set w a out) (hkeep : w.KeepsHot a)
    (hnot : ∀ k ok, a ≠ .delivered k ok) (hcons : out.1.delivering = id :: w.delivering)
    (hnew : id ∉ w.delivering) (hj : out.1.job? id = some j) (hdue : j.Due) :
    out.1.DeliverOk := by
  apply hw.of_step h hkeep
  · rw [hcons]
    exact List.nodup_cons.mpr ⟨hnew, hw.nodup⟩
  · intro k hk
    rw [hcons] at hk
    rcases List.mem_cons.mp hk with rfl | hk
    · refine Or.inr ⟨Table.le_seq_of_get? hj, fun i hi => ?_⟩
      obtain rfl := Option.some.inj (hj.symm.trans hi)
      exact hdue
    · exact Or.inl ⟨hk, hnot k⟩

/-- A completion keeps the deliveries in order. -/
theorem Coord.DeliverOk.finished {w w₀ : Coord} {a : Label} {id : Nat} {result : RunResult}
    {staged : Option (Dir × List String)} {attempt : Option (Int × String)} {now : Int}
    {f : Fault FinishPoint} (hw : w.DeliverOk) (hkeep : w.KeepsHot a)
    (hnot : ∀ k ok, a ≠ .delivered k ok)
    (hstore : w₀.store = w.store) (hdel : w₀.delivering = w.delivering)
    (h : Stepped env set w a
      (w₀.finished id (finish env w₀.store id result staged attempt now f))) :
    (w₀.finished id (finish env w₀.store id result staged attempt now f)).1.DeliverOk := by
  rcases finished_delivering env w₀ id result staged attempt now f with
    hsame | hnil | ⟨j, j', hj, hopen, hhot, hcons, hj', hfin, hfolder, hdelivered⟩
  · exact hw.of_same h hkeep hnot (hsame.trans hdel)
  · exact hw.of_nil h hkeep hnil
  · have hjob : w.job? id = some j := by rwa [Coord.job?, hstore] at hj
    have hdue : j'.Due := ⟨hfin, hfolder ▸ hhot, hdelivered ▸ hw.pending id j hjob hhot hopen⟩
    refine hw.of_cons h hkeep hnot (hdel ▸ hcons) (fun hmem => ?_) hj' hdue
    have hf := (hw.due id hmem j hjob).finished
    rw [hopen] at hf
    cases hf

/-- A submission keeps the deliveries in order. -/
theorem Coord.DeliverOk.submitted {w : Coord} {r : Request} {now : Int} {io : SubmitIo}
    (hw : w.DeliverOk)
    (h : Stepped env set w (.submit r now io)
      (w.submitted r (submit env set w.store r now io))) :
    (w.submitted r (submit env set w.store r now io)).1.DeliverOk := by
  have hkeep : w.KeepsHot (.submit r now io) := by
    rintro _ _ _ ⟨⟩
  have hnot : ∀ k ok, Label.submit r now io ≠ .delivered k ok := by
    rintro _ _ ⟨⟩
  rcases submitted_delivering env set w r now io with
    hsame | hnil | ⟨j, hhot, hcons, hj, hseq, hfin, hfolder, hdelivered⟩
  · exact hw.of_same h hkeep hnot hsame
  · exact hw.of_nil h hkeep hnil
  · have hdue : j.Due := ⟨hfin, by rw [hfolder, Option.isSome_map, hhot], hdelivered⟩
    refine hw.of_cons h hkeep hnot hcons (fun hmem => ?_) hj hdue
    have hle := hw.known _ hmem
    rw [Table.nextId] at hle
    omega

theorem mem_undelivered {db : Table Job} {id : Nat} {j : Job} (hid : id ∈ undelivered db)
    (hj : db.get? id = some j) : j.Due := by
  obtain ⟨⟨k, i⟩, hmem, rfl⟩ := List.mem_map.mp hid
  obtain ⟨hget, hp⟩ := (Table.mem_select db _).mp hmem
  obtain rfl := Option.some.inj (hget.symm.trans hj)
  simp only [Bool.and_eq_true, Bool.not_eq_true'] at hp
  exact ⟨hp.1.1, hp.1.2, hp.2⟩

/-- Every step that acknowledges no job of a watched folder keeps the
deliveries in order. -/
theorem next_deliverOk {w w' : Coord} {a : Label} (hw : w.DeliverOk) (hkeep : w.KeepsHot a)
    (hn : next env set w a = some w') : w'.DeliverOk := by
  obtain ⟨reply, h⟩ := stepped_of_next hn
  generalize hout : (w', reply) = out at h
  obtain rfl : w' = out.1 := congrArg Prod.fst hout
  clear hout hn
  have hstep := h
  cases h with
  | «open» hup =>
      apply hw.of_step hstep hkeep
      · exact Table.nodup_select _ _
      · intro id hid
        obtain ⟨⟨k, j⟩, hmem, rfl⟩ := List.mem_map.mp hid
        have hget := ((Table.mem_select _ _).mp hmem).1
        exact Or.inr ⟨Table.le_seq_of_get? hget, fun j hj => mem_undelivered hid hj⟩
  | kill => exact hw.of_nil hstep hkeep rfl
  | submit r now io => exact hw.submitted hstep
  | unreadable id err now f => exact hw.finished hkeep (by rintro _ _ ⟨⟩) rfl rfl hstep
  | complete => exact hw.finished hkeep (by rintro _ _ ⟨⟩) rfl rfl hstep
  | reapNext now asOf f updated e todo =>
      revert hstep
      unfold Coord.reapOne
      split_ifs
      · exact hw.finished hkeep (by rintro _ _ ⟨⟩) rfl rfl
      · exact fun hstep => hw.of_same hstep hkeep (by rintro _ _ ⟨⟩) rfl
      · exact fun hstep => hw.of_same hstep hkeep (by rintro _ _ ⟨⟩) rfl
  | delivered id ok hup hmem =>
      apply hw.of_step hstep hkeep
      · exact hw.nodup.erase id
      · intro k hk
        obtain ⟨hne, hold⟩ := (hw.nodup.mem_erase_iff).mp hk
        refine Or.inl ⟨hold, ?_⟩
        rintro _ ⟨⟩
        exact hne rfl
  | _ => exact hw.of_same hstep hkeep (by rintro _ _ ⟨⟩) rfl

end Kura.Server
