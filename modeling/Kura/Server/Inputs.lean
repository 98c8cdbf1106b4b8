import Kura.Server.Delivery
import Kura.Server.HotFolder

/-!
# No input of a watched folder is lost

A job is tied to its input file by folder and name only, and the file is taken
away long after it was copied. As long as the row of the job is not marked
delivered, the file under its name is the one the job was made from, or one
that users wrote there after the scan had opened that file.

Every step that is not a user's is summed up in `Watch.Moves`: what it can do
to the files and to the histories, and which step of the coordinator it takes.
-/

namespace Kura.Server

open Kura.Base Kura.Transition

variable {cfg : WatchConfig}

/-- A request made of a content. -/
structure Request.MadeOf (r : Request) (c : Content) : Prop where
  hot : r.hot = some (c.root, c.name)
  src : ∃ n, r.src = [(n, c.bytes)]

/-- An input file the intake does not make a job of. -/
def WatchConfig.Refuses (cfg : WatchConfig) (c : Content) : Prop :=
  ∃ f ∈ cfg.folders, f.root = c.root ∧
    ∃ status body, intake cfg.env.inLibrary f c.name c.bytes = .refuse status body

namespace Watch

/-- A content that is in its folder, in the file that brought it there. -/
def Held (w : Watch) (c : Content) : Prop :=
  ∃ x, w.file? c.root c.name = some x ∧ x.bytes = c.bytes ∧ x.serial = c.serial

/-- A content that a job was made of. -/
def InputOf (w : Watch) (id : Nat) (c : Content) : Prop :=
  ∃ r, w.coord.origin id = some r ∧ r.MadeOf c

/-- A content may be gone: users replaced it, the intake refuses it, or it was the input of the
job that was delivered; or users wrote it after the scan had begun the copy that was refused or
that the job was made of. -/
def Fair (cfg : WatchConfig) (w : Watch) (c : Content) : Fate → Prop
  | .replaced => True
  | .refused since => cfg.Refuses c ∨ since ≤ c.serial
  | .delivered id => w.InputOf id c ∨ w.begun id ≤ c.serial

/-- A content is in its folder, or it is known what became of it. -/
def Accounted (cfg : WatchConfig) (w : Watch) (c : Content) : Prop :=
  w.Held c ∨ ∃ fate, (c, fate) ∈ w.gone ∧ w.Fair cfg c fate

/-- What the scan is about to submit is what is in the folder. -/
def ScanOk (cfg : WatchConfig) (w : Watch) : Prop :=
  match w.scan with
  | .idle => True
  | .stable f _ | .clear f _ => f ∈ cfg.folders
  | .copying f name b torn since =>
      f ∈ cfg.folders ∧ since ≤ w.drops ∧ ∀ x, w.file? f.root name = some x →
        (torn = false ∧ x.bytes = b) ∨ since ≤ x.serial
  | .copied f name b since =>
      f ∈ cfg.folders ∧ since ≤ w.drops ∧ ∀ x, w.file? f.root name = some x →
        x.bytes = b ∨ since ≤ x.serial

/-- What holds in every state of a coordinator with watched folders. -/
structure Ok (cfg : WatchConfig) (w : Watch) : Prop where
  origin : w.coord.OriginOk cfg.env
  bounded : w.coord.OriginBounded
  deliver : w.coord.DeliverOk
  begun : ∀ id, w.begun id ≤ w.drops
  known : ∀ c id, (c, .delivered id) ∈ w.gone → id ≤ w.coord.store.db.seq
  flight : ∀ id j root name x, w.coord.job? id = some j → j.delivered = false →
    j.target = some (root, name) → w.file? root name = some x →
      w.InputOf id ⟨root, name, x.bytes, x.serial⟩ ∨ w.begun id ≤ x.serial
  scan : w.ScanOk cfg
  stable : ∀ c ∈ w.stable, w.Accounted cfg c

/-- A file and the report of its refusal are in the failed part of its folder; a file with the name
of its report is there in place of it. -/
def InFailed (w : Watch) (c : Content) (report : Bytes) : Prop :=
  let failed := (w.tray c.root).failed
  failed.read c.name = some c.bytes ∧
    (fileStem c.name ++ ".json" ≠ c.name → failed.read (fileStem c.name ++ ".json") = some report)

end Watch

/-- The job a step delivers. -/
def WatchLabel.delivery : WatchLabel → Option Nat
  | .place id _ | .placeError id _ _ => some id
  | _ => none

/-- What a step does that makes a content leave its folder. -/
def WatchLabel.Causes (cfg : WatchConfig) (a : WatchLabel) (w' : Watch) (c : Content) :
    Fate → Prop
  | .replaced => (∃ bytes modified, a = .write c.root c.name bytes modified) ∨
      a = .delete c.root c.name
  | .refused _ => ∃ body, w'.InFailed c (cfg.render body)
  | .delivered id => a.delivery = some id

/-- Steps that leave the histories alone and at most end the scan. -/
structure Watch.Frame (w w' : Watch) : Prop where
  stable : w'.stable = w.stable
  begun : w'.begun = w.begun
  drops : w'.drops = w.drops
  gone : w'.gone = w.gone
  scan : w'.scan = w.scan ∨ w'.scan = .idle

namespace Watch

theorem Frame.trans {w v u : Watch} (h : w.Frame v) (h' : v.Frame u) : w.Frame u where
  stable := h'.stable.trans h.stable
  begun := h'.begun.trans h.begun
  drops := h'.drops.trans h.drops
  gone := h'.gone.trans h.gone
  scan := by
    rcases h'.scan with hs | hs
    · rw [hs]
      exact h.scan
    · exact Or.inr hs

theorem frame_settle (w : Watch) (c : Coord) : w.Frame (w.settle c) := by
  unfold settle
  split_ifs
  · exact ⟨rfl, rfl, rfl, rfl, Or.inl rfl⟩
  · exact ⟨rfl, rfl, rfl, rfl, Or.inr rfl⟩

@[simp] theorem settle_coord (w : Watch) (c : Coord) : (w.settle c).coord = c := by
  unfold settle
  split_ifs <;> rfl

@[simp] theorem settle_tray (w : Watch) (c : Coord) : (w.settle c).tray = w.tray := by
  unfold settle
  split_ifs <;> rfl

theorem frame_placed (w : Watch) (ids : List Nat) : w.Frame { w with placed := ids } :=
  ⟨rfl, rfl, rfl, rfl, Or.inl rfl⟩

/-- What is remembered when something is placed. -/
theorem carry_spec (w : Watch) (root name : String) (fate : Fate) (out : Tray × PlaceEnd) :
    (w.carry root name fate out).tray = Function.update w.tray root out.1 ∧
      (w.carry root name fate out).coord =
        (if out.2 = .killed then w.coord.kill else w.coord) ∧
      (w.carry root name fate out).stable = w.stable ∧
      (w.carry root name fate out).begun = w.begun ∧
      (w.carry root name fate out).drops = w.drops ∧
      ((w.carry root name fate out).scan = w.scan ∨ (w.carry root name fate out).scan = .idle) ∧
      (w.carry root name fate out).gone =
        if out.1.input name = none then (w.content root name).map (·, fate) ++ w.gone
        else w.gone := by
  generalize hv :
    (if out.1.input name = none then w.lose root name fate else w).setTray root out.1 = v
  have htray : v.tray = Function.update w.tray root out.1 := by
    rw [← hv]
    split_ifs <;> rfl
  have hcoord : v.coord = w.coord := by
    rw [← hv]
    split_ifs <;> rfl
  have hgone : v.gone =
      if out.1.input name = none then (w.content root name).map (·, fate) ++ w.gone
      else w.gone := by
    rw [← hv]
    split_ifs <;> rfl
  have hrest : v.stable = w.stable ∧ v.begun = w.begun ∧ v.drops = w.drops ∧ v.scan = w.scan := by
    rw [← hv]
    split_ifs <;> exact ⟨rfl, rfl, rfl, rfl⟩
  obtain ⟨hstable, hbegun, hdrops, hscan⟩ := hrest
  rw [carry, hv, ← hcoord, ← htray, ← hstable, ← hbegun, ← hdrops, ← hscan, ← hgone]
  split_ifs with hkill
  · have hframe := v.frame_settle v.coord.kill
    exact ⟨settle_tray _ _, settle_coord _ _, hframe.stable, hframe.begun, hframe.drops,
      hframe.scan, hframe.gone⟩
  · exact ⟨rfl, rfl, rfl, rfl, rfl, Or.inl rfl, rfl⟩

end Watch

/-- Placing a result at most takes the input file of that name away. -/
theorem place_input (render : Json → Bytes) (t : Tray) (file : String) (o : Outcome)
    (pdf : Option Bytes) (f : Fault PlacePoint) :
    (place render t file o pdf f).1.input = t.input ∨
      (place render t file o pdf f).1.input = Function.update t.input file none := by
  have hput : ∀ (t : Tray) (status : Status) (name : String) (b : Bytes),
      (t.put status name b).input = t.input := by
    intro t status name b
    unfold Tray.put
    split_ifs <;> rfl
  unfold place
  cases o with
  | pdf report =>
      by_cases h₁ : f.stops .document = true
      · exact Or.inl (by simp [h₁])
      · cases pdf with
        | none => exact Or.inl (by simp [h₁])
        | some b =>
            by_cases h₂ : f.stops .report = true
            · exact Or.inl (by simp [h₁, h₂, hput])
            · by_cases h₃ : f.stops .input = true
              · exact Or.inl (by simp [h₁, h₂, h₃, hput])
              · exact Or.inr (by simp [h₁, h₂, h₃, hput, Tray.clear])
  | json status body =>
      by_cases h₁ : f.stops .report = true
      · exact Or.inl (by simp [h₁])
      · by_cases h₂ : f.stops .input = true
        · exact Or.inl (by simp [h₁, h₂, hput])
        · cases hx : t.input file with
          | none => exact Or.inl (by simp [h₁, h₂, hput, hx])
          | some x => exact Or.inr (by simp [h₁, h₂, hput, hx, Tray.clear])

/-- The input files after a folder was replaced by one without a file. -/
theorem file?_of_update {w w' : Watch} {root name : String} {t : Tray}
    (htray : w'.tray = Function.update w.tray root t)
    (hinput : t.input = (w.tray root).input ∨
      t.input = Function.update (w.tray root).input name none) (r n : String) :
    w'.file? r n = w.file? r n ∨ (r = root ∧ n = name ∧ w'.file? r n = none) := by
  simp only [Watch.file?, htray]
  by_cases hr : r = root
  · subst hr
    rw [Function.update_self]
    rcases hinput with hsame | hclear
    · exact Or.inl (by rw [hsame])
    · rw [hclear]
      by_cases hn : n = name
      · subst hn
        exact Or.inr ⟨rfl, rfl, Function.update_self _ _ _⟩
      · exact Or.inl (Function.update_of_ne hn _ _)
  · exact Or.inl (by rw [Function.update_of_ne hr])

/-- A refused file is in the failed part, and the report with it. -/
theorem place_refused {render : Json → Bytes} {t : Tray} {file : String} {status : Status}
    {body : Json} {f : Fault PlacePoint} {x : File} (hstatus : status ≠ .ok)
    (hx : t.input file = some x)
    (hgone : (place render t file (.json status body) none f).1.input file = none) :
    (place render t file (.json status body) none f).1.failed.read file = some x.bytes ∧
      (fileStem file ++ ".json" ≠ file →
        (place render t file (.json status body) none f).1.failed.read (fileStem file ++ ".json") =
          some (render body)) := by
  have hput : ∀ (t : Tray) (name : String) (b : Bytes),
      t.put status name b = { t with failed := t.failed.write name b } :=
    fun t name b => if_neg hstatus
  unfold place at hgone ⊢
  dsimp only at hgone ⊢
  split_ifs at hgone ⊢ with hreport hinput
  · rw [hx] at hgone
    cases hgone
  · rw [hput, hx] at hgone
    cases hgone
  · rw [hput] at hgone ⊢
    dsimp only at hgone ⊢
    rw [hx]
    dsimp only
    rw [hput]
    refine ⟨Dir.read_write_self _ _ _, fun hne => ?_⟩
    exact (Dir.read_write_ne _ _ hne).trans (Dir.read_write_self _ _ _)

/-- Where a scan can go in one step. -/
inductive ScanMove (cfg : WatchConfig) (w : Watch) : ScanAt → Prop
  | same : ScanMove cfg w w.scan
  | idle : ScanMove cfg w .idle
  | stable (f : HotFolder) (name : String) (hf : f ∈ cfg.folders) : ScanMove cfg w (.stable f name)
  | clear (f : HotFolder) (name : String) (hscan : w.scan = .stable f name) :
      ScanMove cfg w (.clear f name)
  | opened (f : HotFolder) (name : String) (x : File) (hscan : w.scan = .clear f name)
      (hx : w.file? f.root name = some x) :
      ScanMove cfg w (.copying f name x.bytes false w.drops)
  | copied (f : HotFolder) (name : String) (b bytes : Bytes) (torn : Bool) (since : Nat)
      (hscan : w.scan = .copying f name b torn since) (hb : torn = true ∨ bytes = b) :
      ScanMove cfg w (.copied f name bytes since)

/-- The step of the coordinator that a step takes, if any. A job of a watched folder is made of the
copy that the scan holds. -/
def Watch.CoordMoves (cfg : WatchConfig) (w w' : Watch) : Prop :=
  (w'.coord = w.coord ∧ w'.begun = w.begun) ∨
    ∃ l, next cfg.env cfg.set w.coord l = some w'.coord ∧ w.coord.KeepsHot l ∧
      (((∀ r now io, l = .submit r now io → r.hot = none) ∧ w'.begun = w.begun) ∨
        ∃ r now io f name bytes since, l = .submit r now io ∧
          w.scan = .copied f name bytes since ∧ r.hot = some (f.root, name) ∧
            (∃ n, r.src = [(n, bytes)]) ∧
            w'.begun = Function.update w.begun w.coord.store.db.nextId since)

/-- A step that is not a user's takes a content away. -/
inductive Watch.Takes (cfg : WatchConfig) (w : Watch) (a : WatchLabel) (w' : Watch) :
    Content → Fate → Prop
  | delivered {id : Nat} {j : Job} {c : Content} (ha : a.delivery = some id)
      (hid : id ∈ w.coord.delivering) (hj : w.coord.job? id = some j)
      (htarget : j.target = some (c.root, c.name)) (hc : w.Held c) :
      Takes cfg w a w' c (.delivered id)
  | refused {f : HotFolder} {b : Bytes} {since : Nat} {status : Status} {body : Json} {c : Content}
      (ha : a.delivery = none) (hscan : w.scan = .copied f c.name b since) (hroot : f.root = c.root)
      (hrefuse : intake cfg.env.inLibrary f c.name b = .refuse status body) (hc : w.Held c)
      (hfailed : w'.InFailed c (cfg.render body)) : Takes cfg w a w' c (.refused since)

/-- What a step that is not a user's can do. -/
structure Watch.Moves (cfg : WatchConfig) (w : Watch) (a : WatchLabel) (w' : Watch) : Prop where
  coord : w.CoordMoves cfg w'
  files : ∀ root name x, w'.file? root name = some x → w.file? root name = some x
  lost : ∀ root name x, w.file? root name = some x → w'.file? root name = some x ∨
    ∃ fate, (⟨root, name, x.bytes, x.serial⟩, fate) ∈ w'.gone ∧
      w.Takes cfg a w' ⟨root, name, x.bytes, x.serial⟩ fate
  stable : ∀ c ∈ w'.stable, c ∈ w.stable ∨ w.Held c
  drops : w'.drops = w.drops
  gone : ∀ e ∈ w'.gone, e ∈ w.gone ∨ w.Takes cfg a w' e.1 e.2
  kept : ∀ e ∈ w.gone, e ∈ w'.gone
  scan : ScanMove cfg w w'.scan

namespace Watch

variable {w w' : Watch} {a : WatchLabel}

theorem Moves.of_frame (h : w.Frame w') (hcoord : w.CoordMoves cfg w')
    (hfile : ∀ root name, w'.file? root name = w.file? root name) : w.Moves cfg a w' where
  coord := hcoord
  files := fun root name _ hx => (hfile root name).symm.trans hx
  lost := fun root name _ hx => Or.inl ((hfile root name).trans hx)
  stable := fun _ hc => Or.inl (h.stable ▸ hc)
  drops := h.drops
  gone := fun _ he => Or.inl (h.gone ▸ he)
  kept := fun _ he => h.gone.symm ▸ he
  scan := by
    rcases h.scan with hs | hs
    · rw [hs]
      exact .same
    · rw [hs]
      exact .idle

theorem mem_content {root name : String} {x : File} (h : w.file? root name = some x) :
    (⟨root, name, x.bytes, x.serial⟩ : Content) ∈ w.content root name := by
  simp [content, h]

theorem eq_of_mem_content {root name : String} {c : Content} (h : c ∈ w.content root name) :
    c.root = root ∧ c.name = name ∧ w.Held c := by
  unfold content at h
  split at h
  · rename_i x hx
    obtain rfl := List.mem_singleton.mp h
    exact ⟨rfl, rfl, x, hx, rfl, rfl⟩
  · cases h

/-- Placing something takes at most the file of that name away, and what became of it is
remembered. -/
theorem Moves.of_place {root name : String} {fate : Fate} {t : Tray} (hcoord : w.CoordMoves cfg w')
    (htray : w'.tray = Function.update w.tray root t)
    (hinput : t.input = (w.tray root).input ∨
      t.input = Function.update (w.tray root).input name none)
    (hstable : w'.stable = w.stable) (hdrops : w'.drops = w.drops)
    (hgone : w'.gone =
      if t.input name = none then (w.content root name).map (·, fate) ++ w.gone else w.gone)
    (hscan : w'.scan = w.scan ∨ w'.scan = .idle)
    (htakes : ∀ x, w.file? root name = some x → t.input name = none →
      w.Takes cfg a w' ⟨root, name, x.bytes, x.serial⟩ fate) : w.Moves cfg a w' where
  coord := hcoord
  files := by
    intro r n x hx
    rcases file?_of_update htray hinput r n with hsame | ⟨-, -, hnone⟩
    · rwa [hsame] at hx
    · rw [hnone] at hx
      cases hx
  lost := by
    intro r n x hx
    rcases file?_of_update htray hinput r n with hsame | ⟨rfl, rfl, hnone⟩
    · exact Or.inl (hsame.trans hx)
    · have hempty : t.input n = none := by rwa [file?, htray, Function.update_self] at hnone
      refine Or.inr ⟨fate, ?_, htakes x hx hempty⟩
      rw [hgone, if_pos hempty]
      exact List.mem_append_left _ (List.mem_map_of_mem (mem_content hx))
  stable := fun _ hc => Or.inl (hstable ▸ hc)
  drops := hdrops
  gone := by
    intro e he
    rw [hgone] at he
    split_ifs at he with hempty
    · rcases List.mem_append.mp he with hnew | hold
      · obtain ⟨c, hc, rfl⟩ := List.mem_map.mp hnew
        obtain ⟨rfl, rfl, x, hx, hb, hserial⟩ := eq_of_mem_content hc
        obtain ⟨root, name, bytes, serial⟩ := c
        obtain rfl : x.bytes = bytes := hb
        obtain rfl : x.serial = serial := hserial
        exact Or.inr (htakes x hx hempty)
      · exact Or.inl hold
    · exact Or.inl he
  kept := by
    intro e he
    rw [hgone]
    split_ifs
    · exact List.mem_append_right _ he
    · exact he
  scan := by
    rcases hscan with hs | hs
    · rw [hs]
      exact .same
    · rw [hs]
      exact .idle

/-- A step of the scan that changes neither the folders nor the coordinator. -/
theorem Moves.of_scan {s : ScanAt} (hscan : ScanMove cfg w s) (hs : w'.scan = s)
    (hcoord : w'.coord = w.coord) (htray : w'.tray = w.tray)
    (hstable : ∀ c ∈ w'.stable, c ∈ w.stable ∨ w.Held c) (hbegun : w'.begun = w.begun)
    (hdrops : w'.drops = w.drops) (hgone : w'.gone = w.gone) : w.Moves cfg a w' where
  coord := Or.inl ⟨hcoord, hbegun⟩
  files := fun _ _ _ hx => by rwa [file?, htray] at hx
  lost := fun _ _ _ hx => Or.inl (by rwa [file?, htray])
  stable := hstable
  drops := hdrops
  gone := fun _ he => Or.inl (hgone ▸ he)
  kept := fun _ he => hgone.symm ▸ he
  scan := hs ▸ hscan

theorem coordMoves_carry (hup : w.coord.up = true) {out : Tray × PlaceEnd}
    (hcoord : w'.coord = if out.2 = .killed then w.coord.kill else w.coord)
    (hbegun : w'.begun = w.begun) : w.CoordMoves cfg w' := by
  split_ifs at hcoord
  · refine Or.inr ⟨.kill, ?_, ?_, Or.inl ⟨?_, hbegun⟩⟩
    · simp [next, step, hup, hcoord]
    · rintro _ _ _ ⟨⟩
    · rintro _ _ _ ⟨⟩
  · exact Or.inl ⟨hcoord, hbegun⟩

theorem coordMoves_delivered {id : Nat} {ok : Bool}
    (hn : next cfg.env cfg.set w.coord (.delivered id ok) = some w'.coord)
    (hbegun : w'.begun = w.begun) : w.CoordMoves cfg w' := by
  refine Or.inr ⟨.delivered id ok, hn, ?_, Or.inl ⟨?_, hbegun⟩⟩
  · rintro _ _ _ ⟨⟩
  · rintro _ _ _ ⟨⟩

end Watch

/-- The request of an accepted input file is made of its content. -/
theorem madeOf_of_intake {inLibrary : String → Bool} {f : HotFolder} {name : String} {b : Bytes}
    {r : Request} {serial : Nat} (h : intake inLibrary f name b = .accept r) :
    r.MadeOf ⟨f.root, name, b, serial⟩ := by
  unfold intake at h
  split at h
  · cases h
  · split at h
    · cases h
    · dsimp only at h
      split at h
      · cases h
      · obtain rfl := Intake.accept.inj h
        exact ⟨rfl, _, rfl⟩

/-- Placing something for a job, whatever is remembered of the delivery. -/
theorem placed_moves {w : Watch} {a : WatchLabel} {id : Nat} {j : Job} {root name : String}
    {outcome : Outcome} {pdf : Option Bytes} {fault : Fault PlacePoint}
    (hup : w.coord.up = true) (ha : a.delivery = some id) (hid : id ∈ w.coord.delivering)
    (hj : w.coord.job? id = some j) (htarget : j.target = some (root, name))
    (retried retried' placed : List Nat) :
    w.Moves cfg a { Watch.carry { w with retried } root name (.delivered id)
      (place cfg.render (w.tray root) name outcome pdf fault) with
        retried := retried'
        placed } := by
  have hinput := place_input cfg.render (w.tray root) name outcome pdf fault
  generalize place cfg.render (w.tray root) name outcome pdf fault = out at hinput ⊢
  obtain ⟨htray, hcoord, hstable, hbegun, hdrops, hscan, hgone⟩ :=
    Watch.carry_spec { w with retried } root name (.delivered id) out
  exact .of_place (Watch.coordMoves_carry hup hcoord hbegun) htray hinput hstable hdrops hgone hscan
    fun x hx _ => .delivered ha hid hj htarget ⟨x, hx, rfl, rfl⟩

/-- Every step of a delivery is one of the moves. -/
theorem deliver_moves {w w' : Watch} {a : WatchLabel} (hup : w.coord.up = true)
    (h : deliverStep cfg w a = some w') : w.Moves cfg a w' := by
  cases a with
  | place id fault =>
      simp only [deliverStep] at h
      split_ifs at h with hen
      have hdropped : ∀ w' : Watch,
          (next cfg.env cfg.set w.coord (.delivered id false)).map w.settle = some w' →
          w.Moves cfg (.place id fault) w' := by
        intro w' hw'
        obtain ⟨c, hc, rfl⟩ := Option.map_eq_some_iff.mp hw'
        have hframe := w.frame_settle c
        rw [← w.settle_coord c] at hc
        exact .of_frame hframe (Watch.coordMoves_delivered hc hframe.begun)
          fun _ _ => by simp [Watch.file?]
      cases hj : w.coord.job? id with
      | none =>
          rw [hj] at h
          exact hdropped w' h
      | some j =>
          simp only [hj] at h
          cases htarget : j.target with
          | none =>
              rw [htarget] at h
              exact hdropped w' h
          | some p =>
              obtain ⟨root, name⟩ := p
              simp only [htarget] at h
              split at h
              · cases h
                exact placed_moves hup rfl hen.1 hj htarget w.retried _ _
              · cases h
                exact placed_moves hup rfl hen.1 hj htarget w.retried _ _
              · cases h
                exact placed_moves hup rfl hen.1 hj htarget w.retried _ _
  | placeError id err fault =>
      simp only [deliverStep] at h
      split_ifs at h with hen
      cases hp : (w.coord.job? id).bind Job.target with
      | none =>
          rw [hp] at h
          cases h
      | some p =>
          obtain ⟨root, name⟩ := p
          obtain ⟨j, hj, htarget⟩ := Option.bind_eq_some_iff.mp hp
          simp only [hp] at h
          split at h
          · cases h
            exact placed_moves hup rfl hen.1 hj htarget (w.retried.erase id) _ _
          · obtain ⟨c, hc, rfl⟩ := Option.map_eq_some_iff.mp h
            have hinput := place_input cfg.render (w.tray root) name
              (.json .internalServerError (errorBody "INTERNAL" err)) none fault
            generalize place cfg.render (w.tray root) name
              (.json .internalServerError (errorBody "INTERNAL" err)) none fault = out
              at hc hinput ⊢
            obtain ⟨htray, hcoord, hstable, hbegun, hdrops, hscan, hgone⟩ := Watch.carry_spec
              { w with retried := w.retried.erase id } root name (.delivered id) out
            generalize Watch.carry { w with retried := w.retried.erase id } root name
              (.delivered id) out = v at htray hstable hbegun hdrops hscan hgone ⊢
            have hframe := v.frame_settle c
            rw [← v.settle_coord c] at hc
            refine .of_place (Watch.coordMoves_delivered hc (hframe.begun.trans hbegun)) ?_ hinput
              (hframe.stable.trans hstable) (hframe.drops.trans hdrops) (hframe.gone.trans hgone)
              ?_ fun x hx _ => .delivered rfl hen.1 hj htarget ⟨x, hx, rfl, rfl⟩
            · rwa [Watch.settle_tray]
            · rcases hframe.scan with hs | hs
              · rw [hs]
                exact hscan
              · exact Or.inr hs
          · cases h
            exact placed_moves hup rfl hen.1 hj htarget (w.retried.erase id) _ _
  | mark id ok =>
      simp only [deliverStep] at h
      split_ifs at h with hen
      obtain ⟨c, hc, rfl⟩ := Option.map_eq_some_iff.mp h
      have hframe := (w.frame_placed (w.placed.erase id)).trans (Watch.frame_settle _ c)
      rw [← Watch.settle_coord { w with placed := w.placed.erase id } c] at hc
      refine .of_frame hframe (Watch.coordMoves_delivered hc hframe.begun) fun root name => ?_
      rw [Watch.file?, Watch.settle_tray]
      rfl
  | _ => cases h

/-- Moving a refused file away. -/
theorem refused_moves {w : Watch} {a : WatchLabel} {f : HotFolder} {name : String} {b : Bytes}
    {since : Nat} {status : Status} {body : Json} {fault : Fault PlacePoint}
    (ha : a.delivery = none) (hup : w.coord.up = true) (hscan : w.scan = .copied f name b since)
    (hrefuse : intake cfg.env.inLibrary f name b = .refuse status body) :
    w.Moves cfg a ({ w with scan := .idle }.carry f.root name (.refused since)
      (place cfg.render (w.tray f.root) name (.json status body) none fault)) := by
  have hstatus : status ≠ .ok := by
    unfold intake at hrefuse
    split at hrefuse
    · cases hrefuse
      decide
    · split at hrefuse
      · rename_i e he
        cases hrefuse
        exact f.refuses e he
      · dsimp only at hrefuse
        split at hrefuse
        · cases hrefuse
          decide
        · cases hrefuse
  have hinput := place_input cfg.render (w.tray f.root) name (.json status body) none fault
  have hfailed := @place_refused cfg.render (w.tray f.root) name status body fault
  generalize place cfg.render (w.tray f.root) name (.json status body) none fault = out
    at hinput hfailed
  obtain ⟨htray, hcoord, hstable, hbegun, hdrops, hidle, hgone⟩ :=
    Watch.carry_spec { w with scan := .idle } f.root name (.refused since) out
  generalize Watch.carry { w with scan := .idle } f.root name (.refused since) out = w'
    at htray hcoord hstable hbegun hdrops hidle hgone ⊢
  have hend : w'.scan = .idle := hidle.elim id id
  refine .of_place (Watch.coordMoves_carry hup hcoord hbegun) htray hinput hstable hdrops hgone
    (Or.inr hend) fun x hx hempty => .refused ha hscan rfl hrefuse ⟨x, hx, rfl, rfl⟩ ?_
  have hthere : w'.tray f.root = out.1 := by rw [htray, Function.update_self]
  rw [Watch.InFailed]
  dsimp only
  rw [hthere]
  exact hfailed hstatus hx hempty

/-- Submitting an accepted file. -/
theorem accepted_moves {w w' : Watch} {f : HotFolder} {name : String} {b : Bytes} {since : Nat}
    {r : Request} {now : Int} {io : SubmitIo} {fault : Fault PlacePoint}
    (hscan : w.scan = .copied f name b since)
    (haccept : intake cfg.env.inLibrary f name b = .accept r)
    (h : (next cfg.env cfg.set w.coord (.submit r now io)).map
      { w with
        scan := .idle
        begun := Function.update w.begun w.coord.store.db.nextId since }.settle = some w') :
    w.Moves cfg (.enqueue now io fault) w' := by
  obtain ⟨c, hc, rfl⟩ := Option.map_eq_some_iff.mp h
  have hof := @madeOf_of_intake _ _ _ _ _ 0 haccept
  generalize hv : { w with
    scan := .idle
    begun := Function.update w.begun w.coord.store.db.nextId since } = v
  have hframe := v.frame_settle c
  have hbegun : (v.settle c).begun =
      Function.update w.begun w.coord.store.db.nextId since := by
    rw [hframe.begun, ← hv]
  have hidle : (v.settle c).scan = .idle := by
    rcases hframe.scan with hs | hs
    · rw [hs, ← hv]
    · exact hs
  refine ⟨Or.inr ⟨_, ?_, ?_, Or.inr ⟨r, now, io, f, name, b, since, rfl, hscan, hof.hot,
    hof.src, hbegun⟩⟩, ?_, ?_, ?_, ?_, ?_, ?_, ?_⟩
  · rw [Watch.settle_coord]
    exact hc
  · rintro _ _ _ ⟨⟩
  · intro root n x hx
    rwa [Watch.file?, Watch.settle_tray, ← hv] at hx
  · intro root n x hx
    exact Or.inl (by rwa [Watch.file?, Watch.settle_tray, ← hv])
  · intro c' hc'
    rw [hframe.stable, ← hv] at hc'
    exact Or.inl hc'
  · rw [hframe.drops, ← hv]
  · intro e he
    rw [hframe.gone, ← hv] at he
    exact Or.inl he
  · intro e he
    rw [hframe.gone, ← hv]
    exact he
  · rw [hidle]
    exact .idle

/-- Every step of the scan is one of the moves. -/
theorem scan_moves {w w' : Watch} {a : WatchLabel} (hup : w.coord.up = true)
    (h : scanStep cfg w a = some w') : w.Moves cfg a w' := by
  cases a with
  | look i name =>
      simp only [scanStep] at h
      split at h
      · rename_i f hs hf
        split at h
        · rename_i x hx
          split_ifs at h with hdot hseen
          · cases h
            refine .of_scan (.stable f name (List.mem_of_getElem? hf)) rfl rfl rfl ?_ rfl rfl rfl
            intro c hc
            rcases List.mem_cons.mp hc with rfl | hc
            · exact Or.inr ⟨x, hx, rfl, rfl⟩
            · exact Or.inl hc
          · cases h
            exact .of_scan .same rfl rfl rfl (fun c hc => Or.inl hc) rfl rfl rfl
        · cases h
      · cases h
  | check =>
      simp only [scanStep] at h
      split at h
      · rename_i f name hs
        split_ifs at h with hflight
        · cases h
          exact .of_scan .idle rfl rfl rfl (fun c hc => Or.inl hc) rfl rfl rfl
        · cases h
          exact .of_scan (.clear f name hs) rfl rfl rfl (fun c hc => Or.inl hc) rfl rfl rfl
      · cases h
  | «open» =>
      simp only [scanStep] at h
      split at h
      · rename_i f name hs
        split at h
        · rename_i x hx
          cases h
          exact .of_scan (.opened f name x hs hx) rfl rfl rfl (fun c hc => Or.inl hc) rfl rfl rfl
        · cases h
          exact .of_scan .idle rfl rfl rfl (fun c hc => Or.inl hc) rfl rfl rfl
      · cases h
  | copy bytes =>
      simp only [scanStep] at h
      split at h
      · rename_i f name b torn since hs
        split_ifs at h with hb
        cases h
        exact .of_scan (.copied f name b bytes torn since hs hb) rfl rfl rfl
          (fun c hc => Or.inl hc) rfl rfl rfl
      · cases h
  | giveUp =>
      simp only [scanStep] at h
      split at h
      · cases h
        exact .of_scan .idle rfl rfl rfl (fun c hc => Or.inl hc) rfl rfl rfl
      · cases h
        exact .of_scan .idle rfl rfl rfl (fun c hc => Or.inl hc) rfl rfl rfl
      · cases h
        exact .of_scan .idle rfl rfl rfl (fun c hc => Or.inl hc) rfl rfl rfl
      · cases h
  | enqueue now io fault =>
      simp only [scanStep] at h
      split at h
      · rename_i f name b since hs
        split at h
        · rename_i status body hrefuse
          obtain rfl := Option.some.inj h
          exact refused_moves rfl hup hs hrefuse
        · rename_i r haccept
          exact accepted_moves hs haccept h
      · cases h
  | retain root name =>
      simp only [scanStep] at h
      split at h
      · cases h
        exact .of_scan .same rfl rfl rfl (fun c hc => Or.inl hc) rfl rfl rfl
      · cases h
  | _ => cases h

/-- A step is a user's or one of the coordinator, a scan or a delivery. -/
theorem watchStep_cases {w w' : Watch} {a : WatchLabel} (h : watchStep cfg w a = some w') :
    (∃ root name bytes modified, a = .write root name bytes modified ∧
        w' = w.write root name bytes modified) ∨
      (∃ root name, a = .delete root name ∧ w' = w.delete root name) ∨ w.Moves cfg a w' := by
  have hdeliver : ∀ a : WatchLabel,
      (if w.coord.up = true then deliverStep cfg w a else none) = some w' → w.Moves cfg a w' := by
    intro a ha
    split_ifs at ha with hup
    exact deliver_moves hup ha
  have hscan : ∀ a : WatchLabel,
      (if w.coord.up = true then scanStep cfg w a else none) = some w' → w.Moves cfg a w' := by
    intro a ha
    split_ifs at ha with hup
    exact scan_moves hup ha
  cases a with
  | coord l =>
      simp only [watchStep] at h
      split_ifs at h with hapi
      obtain ⟨c, hc, rfl⟩ := Option.map_eq_some_iff.mp h
      have hframe := w.frame_settle c
      refine Or.inr (Or.inr (.of_frame hframe ?_ fun root n => ?_))
      · refine Or.inr ⟨l, by rwa [Watch.settle_coord], ?_, Or.inl ⟨?_, hframe.begun⟩⟩
        · rintro id readable marked rfl j hj
          simpa [Label.api, hj] using hapi
        · rintro r now io rfl
          simpa [Label.api] using hapi
      · rw [Watch.file?, Watch.settle_tray]
        rfl
  | write root name bytes modified =>
      exact Or.inl ⟨root, name, bytes, modified, rfl, (Option.some.inj h).symm⟩
  | delete root name => exact Or.inr (Or.inl ⟨root, name, rfl, (Option.some.inj h).symm⟩)
  | place => exact Or.inr (Or.inr (hdeliver _ h))
  | placeError => exact Or.inr (Or.inr (hdeliver _ h))
  | mark => exact Or.inr (Or.inr (hdeliver _ h))
  | _ => exact Or.inr (Or.inr (hscan _ h))

namespace Watch

variable {w w' : Watch} {a : WatchLabel}

theorem CoordMoves.inputOf {id : Nat} {c : Content} (h : w.CoordMoves cfg w')
    (hw : w.Ok cfg) (hc : w.InputOf id c) : w'.InputOf id c := by
  obtain ⟨r, hr, hmade⟩ := hc
  refine ⟨r, ?_, hmade⟩
  rcases h with ⟨hsame, -⟩ | ⟨l, hn, -⟩
  · rwa [hsame]
  · exact origin_of_next hw.bounded hn hr

/-- Ids that were given out stay given out. -/
theorem CoordMoves.seq_le (h : w.CoordMoves cfg w') :
    w.coord.store.db.seq ≤ w'.coord.store.db.seq := by
  rcases h with ⟨hsame, -⟩ | ⟨l, hn, -⟩
  · rw [hsame]
  · obtain ⟨reply, hstep⟩ := stepped_of_next hn
    exact seq_le_of_step hstep

/-- What is remembered of an id that was given out stays. -/
theorem CoordMoves.begun {id : Nat} (h : w.CoordMoves cfg w')
    (hid : id ≤ w.coord.store.db.seq) : w'.begun id = w.begun id := by
  rcases h with ⟨-, hbegun⟩ | ⟨l, -, -, hsubmit⟩
  · rw [hbegun]
  · rcases hsubmit with ⟨-, hbegun⟩ | ⟨r, now, io, f, n, b, since, -, -, -, -, hbegun⟩
    · rw [hbegun]
    · rw [hbegun]
      refine Function.update_of_ne ?_ _ _
      rw [Table.nextId]
      omega

/-- A job that is due has its own file in the folder, or one of a user. -/
theorem Ok.file_of_delivering {id : Nat} {j : Job} {root name : String} {x : File}
    (hw : w.Ok cfg) (hid : id ∈ w.coord.delivering) (hj : w.coord.job? id = some j)
    (htarget : j.target = some (root, name)) (hx : w.file? root name = some x) :
    w.InputOf id ⟨root, name, x.bytes, x.serial⟩ ∨ w.begun id ≤ x.serial :=
  hw.flight id j root name x hj (hw.deliver.due id hid j hj).undelivered htarget hx

/-- What a step that is not a user's takes away may be gone. -/
theorem Takes.fair {c : Content} {fate : Fate} (ht : w.Takes cfg a w' c fate)
    (h : w.Moves cfg a w') (hw : w.Ok cfg) : w'.Fair cfg c fate := by
  obtain ⟨root, name, bytes, serial⟩ := c
  cases ht with
  | delivered ha hid hj htarget hc =>
      obtain ⟨x, hx, hb, hserial⟩ := hc
      obtain rfl : x.bytes = bytes := hb
      obtain rfl : x.serial = serial := hserial
      rcases hw.file_of_delivering hid hj htarget hx with hin | hlate
      · exact Or.inl (h.coord.inputOf hw hin)
      · exact Or.inr ((h.coord.begun (Table.le_seq_of_get? hj)).trans_le hlate)
  | refused ha hscan hroot hrefuse hc hfailed =>
      obtain ⟨x, hx, hb, hserial⟩ := hc
      obtain rfl : x.bytes = bytes := hb
      obtain rfl : x.serial = serial := hserial
      have hok := hw.scan
      rw [ScanOk, hscan] at hok
      rcases hok.2.2 x (by rwa [hroot]) with hsame | hlate
      · rw [← hsame] at hrefuse
        exact Or.inl ⟨_, hok.1, hroot, _, _, hrefuse⟩
      · exact Or.inr hlate

/-- What may be gone stays so. -/
theorem Moves.fair {c : Content} {fate : Fate} (h : w.Moves cfg a w') (hw : w.Ok cfg)
    (hmem : (c, fate) ∈ w.gone) (hfair : w.Fair cfg c fate) : w'.Fair cfg c fate := by
  cases fate with
  | replaced => trivial
  | refused since => exact hfair
  | delivered id =>
      rcases hfair with hin | hlate
      · exact Or.inl (h.coord.inputOf hw hin)
      · exact Or.inr ((h.coord.begun (hw.known c id hmem)).trans_le hlate)

/-- No step but a user's makes a content disappear without a trace. -/
theorem Moves.accounted {c : Content} (h : w.Moves cfg a w') (hw : w.Ok cfg)
    (hc : w.Accounted cfg c) : w'.Accounted cfg c := by
  rcases hc with ⟨x, hx, hb, hserial⟩ | ⟨fate, hmem, hfair⟩
  · obtain ⟨root, name, bytes, serial⟩ := c
    obtain rfl : x.bytes = bytes := hb
    obtain rfl : x.serial = serial := hserial
    rcases h.lost root name x hx with hkept | ⟨fate, hmem, htakes⟩
    · exact Or.inl ⟨x, hkept, rfl, rfl⟩
    · exact Or.inr ⟨fate, hmem, htakes.fair h hw⟩
  · exact Or.inr ⟨fate, h.kept _ hmem, h.fair hw hmem hfair⟩

/-- A scan opened the file it copies before now. -/
theorem ScanOk.since_le {f : HotFolder} {name : String} {b : Bytes} {since : Nat}
    (hw : w.ScanOk cfg) (hscan : w.scan = .copied f name b since) : since ≤ w.drops := by
  rw [ScanOk, hscan] at hw
  exact hw.2.1

theorem Moves.begun_le (h : w.Moves cfg a w') (hw : w.Ok cfg) (id : Nat) :
    w'.begun id ≤ w'.drops := by
  rw [h.drops]
  rcases h.coord with ⟨-, hbegun⟩ | ⟨l, -, -, hsubmit⟩
  · rw [hbegun]
    exact hw.begun id
  · rcases hsubmit with ⟨-, hbegun⟩ | ⟨r, now, io, f, n, b, since, -, hscan, -, -, hbegun⟩
    · rw [hbegun]
      exact hw.begun id
    · rw [hbegun, Function.update_apply]
      split_ifs
      · exact hw.scan.since_le hscan
      · exact hw.begun id

theorem Moves.known (h : w.Moves cfg a w') (hw : w.Ok cfg) {c : Content} {id : Nat}
    (hmem : (c, .delivered id) ∈ w'.gone) : id ≤ w'.coord.store.db.seq := by
  refine le_trans ?_ h.coord.seq_le
  rcases h.gone _ hmem with hold | htakes
  · exact hw.known c id hold
  · cases htakes with
    | delivered _ _ hj _ _ => exact Table.le_seq_of_get? hj

/-- A file at the place of a delivery under way is its input or a later one. -/
theorem Moves.flight (h : w.Moves cfg a w') (hw : w.Ok cfg) {id : Nat} {j' : Job}
    {root name : String} {x : File} (hj' : w'.coord.job? id = some j')
    (hdel : j'.delivered = false) (htarget : j'.target = some (root, name))
    (hx : w'.file? root name = some x) :
    w'.InputOf id ⟨root, name, x.bytes, x.serial⟩ ∨ w'.begun id ≤ x.serial := by
  have hfile := h.files root name x hx
  have hold : ∀ j, w.coord.job? id = some j → j.delivered = false →
      j.target = some (root, name) →
      w'.InputOf id ⟨root, name, x.bytes, x.serial⟩ ∨ w'.begun id ≤ x.serial := by
    intro j hj hjdel hjtarget
    rcases hw.flight id j root name x hj hjdel hjtarget hfile with hin | hlate
    · exact Or.inl (h.coord.inputOf hw hin)
    · exact Or.inr ((h.coord.begun (Table.le_seq_of_get? hj)).trans_le hlate)
  rcases h.coord with ⟨hsame, -⟩ | ⟨l, hn, hkeep, hsubmit⟩
  · exact hold j' (hsame ▸ hj') hdel htarget
  · obtain ⟨reply, hstep⟩ := stepped_of_next hn
    rcases row_of_step hstep hj' with ⟨j, hj, hchange⟩ | ⟨rfl, hnew, hseq⟩
    · refine hold j hj (hchange.undelivered hdel) ?_
      rwa [Job.target, hchange.folder_eq, hchange.file_eq] at htarget
    · -- a new row comes from the scan, which holds a copy of the file
      obtain ⟨r, now, io, hl, horigin, hmade⟩ := origin_of_new hstep hnew hseq
      rw [Job.target, hmade.folder, hmade.file] at htarget
      rcases hsubmit with ⟨hnone, -⟩ |
        ⟨r', now', io', f, n, b, since, hl', hscan, hhot, hsrc, hbegun⟩
      · rw [hnone r now io hl] at htarget
        cases htarget
      · obtain ⟨rfl, -, -⟩ := Label.submit.inj (hl.symm.trans hl')
        rw [hhot] at htarget
        obtain ⟨rfl, rfl⟩ := Prod.mk.inj (Option.some.inj htarget)
        have hok := hw.scan
        rw [ScanOk, hscan] at hok
        rcases hok.2.2 x hfile with rfl | hlate
        · exact Or.inl ⟨r, horigin, hhot, hsrc⟩
        · refine Or.inr ?_
          rwa [hbegun, Function.update_self]

theorem ScanOk.of_files (hw : w.ScanOk cfg) (hscan : w'.scan = w.scan) (hdrops : w'.drops = w.drops)
    (hfile : ∀ root name x, w'.file? root name = some x → w.file? root name = some x) :
    w'.ScanOk cfg := by
  unfold ScanOk at hw ⊢
  rw [hscan, hdrops]
  cases hs : w.scan with
  | idle => trivial
  | stable f name => rwa [hs] at hw
  | clear f name => rwa [hs] at hw
  | copying f name b torn since =>
      rw [hs] at hw
      exact ⟨hw.1, hw.2.1, fun x hx => hw.2.2 x (hfile _ _ x hx)⟩
  | copied f name b since =>
      rw [hs] at hw
      exact ⟨hw.1, hw.2.1, fun x hx => hw.2.2 x (hfile _ _ x hx)⟩

/-- A move keeps what the scan is about to submit right. -/
theorem Moves.scanOk (h : w.Moves cfg a w') (hw : w.Ok cfg) : w'.ScanOk cfg := by
  have hok := hw.scan
  have hscan := h.scan
  generalize hs : w'.scan = s at hscan
  unfold ScanOk at hok ⊢
  rw [hs, h.drops]
  cases hscan with
  | same =>
      have hsame := hw.scan.of_files hs h.drops h.files
      rwa [ScanOk, hs, h.drops] at hsame
  | idle => trivial
  | stable f name hf => exact hf
  | clear f name hscan => rwa [hscan] at hok
  | opened f name x hscan hx =>
      rw [hscan] at hok
      refine ⟨hok, le_rfl, fun y hy => Or.inl ⟨rfl, ?_⟩⟩
      have hxy := hx.symm.trans (h.files _ _ y hy)
      rw [Option.some.inj hxy]
  | copied f name b bytes torn since hscan hb =>
      rw [hscan] at hok
      refine ⟨hok.1, hok.2.1, fun x hx => ?_⟩
      rcases hok.2.2 x (h.files _ _ x hx) with ⟨hwhole, hxb⟩ | hlate
      · rcases hb with htorn | rfl
        · rw [hwhole] at htorn
          cases htorn
        · exact Or.inl hxb
      · exact Or.inr hlate

/-- Every step that is not a user's keeps the invariant. -/
theorem Moves.ok (h : w.Moves cfg a w') (hw : w.Ok cfg) : w'.Ok cfg where
  origin := by
    rcases h.coord with ⟨hsame, -⟩ | ⟨l, hn, -⟩
    · rw [hsame]
      exact hw.origin
    · exact next_originOk hw.origin hn
  bounded := by
    rcases h.coord with ⟨hsame, -⟩ | ⟨l, hn, -⟩
    · rw [hsame]
      exact hw.bounded
    · exact next_originBounded hw.bounded hn
  deliver := by
    rcases h.coord with ⟨hsame, -⟩ | ⟨l, hn, hkeep, -⟩
    · rw [hsame]
      exact hw.deliver
    · exact next_deliverOk hw.deliver hkeep hn
  begun := h.begun_le hw
  known := fun _ _ hmem => h.known hw hmem
  flight := fun _ _ _ _ _ hj' hdel htarget hx => h.flight hw hj' hdel htarget hx
  scan := h.scanOk hw
  stable := by
    intro c hc
    rcases h.stable c hc with hold | hheld
    · exact h.accounted hw (hw.stable c hold)
    · exact h.accounted hw (Or.inl hheld)

theorem file?_setFile (w : Watch) (root name : String) (x : Option File) (r n : String) :
    (w.setFile root name x).file? r n = if r = root ∧ n = name then x else w.file? r n := by
  simp only [file?, setFile, setTray]
  by_cases hr : r = root
  · subst hr
    rw [Function.update_self]
    by_cases hn : n = name
    · subst hn
      simp
    · simp [hn]
  · simp [hr]

theorem file?_write (w : Watch) (root name : String) (b : Bytes) (m : Int) (r n : String) :
    (w.write root name b m).file? r n =
      if r = root ∧ n = name then some ⟨b, m, w.drops⟩ else w.file? r n :=
  (w.lose root name .replaced).file?_setFile root name (some ⟨b, m, w.drops⟩) r n

theorem file?_delete (w : Watch) (root name : String) (r n : String) :
    (w.delete root name).file? r n = if r = root ∧ n = name then none else w.file? r n :=
  (w.lose root name .replaced).file?_setFile root name none r n

/-- Only what users replace is new among what is gone. -/
theorem mem_lose {root name : String} {e : Content × Fate}
    (h : e ∈ (w.lose root name .replaced).gone) :
    e ∈ w.gone ∨ (e.1.root = root ∧ e.1.name = name ∧ e.2 = .replaced ∧ w.Held e.1) := by
  rcases List.mem_append.mp h with hnew | hold
  · obtain ⟨c, hc, rfl⟩ := List.mem_map.mp hnew
    obtain ⟨hroot, hname, hheld⟩ := eq_of_mem_content hc
    exact Or.inr ⟨hroot, hname, rfl, hheld⟩
  · exact Or.inl hold

/-- A content that a user takes away is remembered. -/
theorem accounted_of_user (w : Watch) (root name : String) {c : Content}
    (hcoord : w'.coord = w.coord) (hbegun : w'.begun = w.begun)
    (hfile : ∀ r n, ¬ (r = root ∧ n = name) → w'.file? r n = w.file? r n)
    (hgone : w'.gone = (w.lose root name .replaced).gone) (hc : w.Accounted cfg c) :
    w'.Accounted cfg c := by
  rcases hc with ⟨x, hx, hb, hserial⟩ | ⟨fate, hmem, hfair⟩
  · by_cases hat : c.root = root ∧ c.name = name
    · obtain ⟨rfl, rfl⟩ := hat
      have hmem := mem_content hx
      rw [hb, hserial] at hmem
      refine Or.inr ⟨.replaced, ?_, trivial⟩
      rw [hgone]
      exact List.mem_append_left _ (List.mem_map_of_mem hmem)
    · exact Or.inl ⟨x, (hfile _ _ hat).trans hx, hb, hserial⟩
  · refine Or.inr ⟨fate, ?_, ?_⟩
    · rw [hgone]
      exact List.mem_append_right _ hmem
    · cases fate with
      | replaced => trivial
      | refused since => exact hfair
      | delivered id => simpa only [Fair, InputOf, hcoord, hbegun] using hfair

theorem known_of_user {root name : String} (hw : w.Ok cfg) {c : Content} {id : Nat}
    (h : (c, .delivered id) ∈ (w.lose root name .replaced).gone) :
    id ≤ w.coord.store.db.seq := by
  rcases mem_lose h with hold | ⟨-, -, hfate, -⟩
  · exact hw.known c id hold
  · cases hfate

/-- What the scan holds of a file is kept by a write; a file that is written
after the scan opened it has a number that says so. -/
theorem scanOk_write {root name : String} {b : Bytes} {m : Int} (hw : w.ScanOk cfg) :
    (w.write root name b m).ScanOk cfg := by
  have hscan : (w.write root name b m).scan = w.scan.write root name := rfl
  have hdrops : (w.write root name b m).drops = w.drops + 1 := rfl
  have hlate : ∀ f n since y, since ≤ w.drops → f = root ∧ n = name →
      (w.write root name b m).file? f n = some y → since ≤ y.serial := by
    rintro f n since y hsince hat hy
    rw [file?_write, if_pos hat] at hy
    obtain rfl := Option.some.inj hy
    exact hsince
  unfold ScanOk at hw ⊢
  rw [hscan, hdrops]
  cases hs : w.scan with
  | idle => trivial
  | stable f n => rwa [hs] at hw
  | clear f n => rwa [hs] at hw
  | copying f n b' torn since =>
      rw [hs] at hw
      refine ⟨hw.1, hw.2.1.trans (Nat.le_succ _), fun y hy => ?_⟩
      by_cases hat : f.root = root ∧ n = name
      · exact Or.inr (hlate _ _ since y hw.2.1 hat hy)
      · rw [file?_write, if_neg hat] at hy
        rcases hw.2.2 y hy with ⟨htorn, hb⟩ | hold
        · refine Or.inl ⟨?_, hb⟩
          simpa [htorn] using fun hr => not_and.mp hat hr
        · exact Or.inr hold
  | copied f n b' since =>
      rw [hs] at hw
      refine ⟨hw.1, hw.2.1.trans (Nat.le_succ _), fun y hy => ?_⟩
      by_cases hat : f.root = root ∧ n = name
      · exact Or.inr (hlate _ _ since y hw.2.1 hat hy)
      · rw [file?_write, if_neg hat] at hy
        exact hw.2.2 y hy

/-- A file dropped keeps the invariant. -/
theorem Ok.write (hw : w.Ok cfg) (root name : String) (b : Bytes) (m : Int) :
    (w.write root name b m).Ok cfg where
  origin := hw.origin
  bounded := hw.bounded
  deliver := hw.deliver
  begun := fun id => (hw.begun id).trans (Nat.le_succ _)
  known := fun _ _ hmem => known_of_user hw hmem
  flight := by
    intro id j r n y hj hdel htarget hy
    rw [file?_write] at hy
    split_ifs at hy with hat
    · -- the new file has the next number
      obtain rfl := Option.some.inj hy
      exact Or.inr (hw.begun id)
    · exact hw.flight id j r n y hj hdel htarget hy
  scan := scanOk_write hw.scan
  stable := by
    intro c hc
    refine accounted_of_user w root name rfl rfl ?_ rfl (hw.stable c hc)
    intro r n hat
    rw [file?_write, if_neg hat]

/-- A file deleted from outside keeps the invariant. -/
theorem Ok.delete (hw : w.Ok cfg) (root name : String) : (w.delete root name).Ok cfg where
  origin := hw.origin
  bounded := hw.bounded
  deliver := hw.deliver
  begun := hw.begun
  known := fun _ _ hmem => known_of_user hw hmem
  flight := by
    intro id j r n y hj hdel htarget hy
    rw [file?_delete] at hy
    split_ifs at hy with hat
    exact hw.flight id j r n y hj hdel htarget hy
  scan := by
    refine hw.scan.of_files rfl rfl fun r n y hy => ?_
    rw [file?_delete] at hy
    split_ifs at hy with hat
    exact hy
  stable := by
    intro c hc
    refine accounted_of_user w root name rfl rfl ?_ rfl (hw.stable c hc)
    intro r n hat
    rw [file?_delete, if_neg hat]

/-- The start has the invariant. -/
theorem start_ok (cfg : WatchConfig) : Watch.start.Ok cfg where
  origin := by
    intro id j hj
    simp [start, Coord.job?, Coord.start, Store.empty] at hj
  bounded := by
    intro id r hr
    cases hr
  deliver := by
    refine ⟨List.nodup_nil, ?_, ?_, ?_⟩
    · intro id hid
      cases hid
    · intro id hid
      cases hid
    · intro id j hj
      simp [start, Coord.job?, Coord.start, Store.empty] at hj
  begun := fun _ => le_rfl
  known := by
    intro c id hmem
    cases hmem
  flight := by
    intro id j root name x hj hdel htarget hx
    cases hx
  scan := trivial
  stable := by
    intro c hc
    cases hc

end Watch

theorem watchStep_ok {w w' : Watch} {a : WatchLabel} (hw : w.Ok cfg)
    (h : watchStep cfg w a = some w') : w'.Ok cfg := by
  rcases watchStep_cases h with ⟨root, name, b, m, -, rfl⟩ | ⟨root, name, -, rfl⟩ | hmoves
  · exact hw.write root name b m
  · exact hw.delete root name
  · exact hmoves.ok hw

theorem run_ok {w : Watch} {as : List WatchLabel} (h : Run (watchStep cfg) Watch.start as w) :
    w.Ok cfg :=
  h.invariant (I := Watch.Ok cfg) (fun _ _ _ hs _ hn => watchStep_ok hs hn) (Watch.start_ok cfg)

/-- What a step takes away is taken by what it says. -/
theorem Watch.Takes.causes {w w' : Watch} {a : WatchLabel} {c : Content} {fate : Fate}
    (h : w.Takes cfg a w' c fate) : w.Held c ∧ a.Causes cfg w' c fate := by
  cases h with
  | delivered ha hid hj htarget hc => exact ⟨hc, ha⟩
  | refused ha hscan hroot hrefuse hc hfailed => exact ⟨hc, _, hfailed⟩

/-- A content that leaves its folder was there, and a user, a refusal or a delivery took it. -/
theorem gone_of_step {w w' : Watch} {a : WatchLabel} (h : watchStep cfg w a = some w')
    {e : Content × Fate} (he : e ∈ w'.gone) :
    e ∈ w.gone ∨ (w.Held e.1 ∧ a.Causes cfg w' e.1 e.2) := by
  obtain ⟨c, fate⟩ := e
  rcases watchStep_cases h with ⟨root, name, b, m, rfl, rfl⟩ | ⟨root, name, rfl, rfl⟩ | hmoves
  · rcases Watch.mem_lose he with hold | ⟨rfl, rfl, rfl, hheld⟩
    · exact Or.inl hold
    · exact Or.inr ⟨hheld, Or.inl ⟨b, m, rfl⟩⟩
  · rcases Watch.mem_lose he with hold | ⟨rfl, rfl, rfl, hheld⟩
    · exact Or.inl hold
    · exact Or.inr ⟨hheld, Or.inr rfl⟩
  · exact (hmoves.gone _ he).imp_right Watch.Takes.causes

/-- Along every run of users, scans, deliveries, kills and restarts: a delivery
takes away only the file its job was made of, or one that users wrote under that
name after the scan had opened that file; a content that a scan saw unchanged is
still in its folder or it is remembered what took it away, which was fair; and
what is remembered is what the steps do. -/
theorem delivery_takes_own_input (cfg : WatchConfig) :
    ∀ as w, Run (watchStep cfg) Watch.start as w →
      (∀ a w' id root name x, a.delivery = some id → watchStep cfg w a = some w' →
        w.file? root name = some x → w'.file? root name ≠ some x →
        w.InputOf id ⟨root, name, x.bytes, x.serial⟩ ∨ w.begun id ≤ x.serial) ∧
      (∀ c ∈ w.stable, w.Accounted cfg c) ∧
      ∀ a w', watchStep cfg w a = some w' →
        ∀ e ∈ w'.gone, e ∈ w.gone ∨ (w.Held e.1 ∧ a.Causes cfg w' e.1 e.2) := by
  intro as w hrun
  have hw := run_ok hrun
  refine ⟨?_, hw.stable, fun a w' hstep e he => gone_of_step hstep he⟩
  intro a w' id root name x hdel hstep hx hgone
  rcases watchStep_cases hstep with ⟨_, _, _, _, rfl, -⟩ | ⟨_, _, rfl, -⟩ | hmoves
  · cases hdel
  · cases hdel
  · rcases hmoves.lost root name x hx with hkept | ⟨fate, -, htakes⟩
    · exact absurd hkept hgone
    · cases htakes with
      | delivered ha hid hj htarget hc =>
          obtain rfl := Option.some.inj (hdel.symm.trans ha)
          exact hw.file_of_delivering hid hj htarget hx
      | refused ha _ _ _ _ _ =>
          rw [hdel] at ha
          cases ha

/-- A query that is understood has no answer of its own. -/
theorem understood_refuses {options : List Arg} (e : Status × Json)
    (h : (.ok options : Except (Status × Json) (List Arg)) = .error e) : e.1 ≠ .ok := by
  cases h

/-- One folder, with conversions to level 2b. -/
def WatchConfig.small : WatchConfig where
  env := Env.bare
  set := Settings.small
  folders := [⟨"/in", .convert, false, .ok [.lit "--level", .lit "2b"], understood_refuses⟩]
  render _ := []

/-- A file that is put into the folder, seen twice and copied. -/
def droppedFile (name : String) (b : Bytes) : List WatchLabel :=
  [.write "/in" name b 0, .look 0 name, .look 0 name, .check, .open, .copy b,
    .enqueue 5 .smooth .none]

/-- A document that was converted. -/
def convertedFile : List WatchLabel :=
  droppedFile "a.pdf" [0x25, 0x50, 0x44, 0x46] ++
    [.coord (.lease "w1" 10),
      .coord (.complete 1 1 "w1" .success [("out.pdf", [3])] ["out.pdf"] 20 .none)]

theorem convertedFile_taken :
    ∃ w w' x, Run (watchStep WatchConfig.small) Watch.start convertedFile w ∧
      watchStep WatchConfig.small w (.place 1 .none) = some w' ∧
      w.file? "/in" "a.pdf" = some x ∧ w'.file? "/in" "a.pdf" = none ∧
      (w.InputOf 1 ⟨"/in", "a.pdf", x.bytes, x.serial⟩ ∨ w.begun 1 ≤ x.serial) := by
  have hexec : ((exec (watchStep WatchConfig.small) Watch.start convertedFile).bind fun w =>
      (w.file? "/in" "a.pdf").bind fun x =>
        (watchStep WatchConfig.small w (.place 1 .none)).map fun w' =>
          (w'.file? "/in" "a.pdf").isNone) = some true := by
    decide
  obtain ⟨w, hw, h⟩ := Option.bind_eq_some_iff.mp hexec
  obtain ⟨x, hx, h⟩ := Option.bind_eq_some_iff.mp h
  obtain ⟨w', hw', h⟩ := Option.map_eq_some_iff.mp h
  have hnone : w'.file? "/in" "a.pdf" = none := Option.isNone_iff_eq_none.mp h
  have hrun := run_of_exec hw
  refine ⟨w, w', x, hrun, hw', hx, hnone, ?_⟩
  apply (delivery_takes_own_input WatchConfig.small _ w hrun).1 _ w' 1 "/in" "a.pdf" x rfl hw' hx
  rw [hnone]
  simp

/-- A note that is neither a document nor an image. -/
def refusedNote : List WatchLabel := droppedFile "notes.txt" [0x68, 0x69]

theorem refusedNote_no_job :
    ¬ ∀ as w, Run (watchStep WatchConfig.small) Watch.start as w →
      ∀ c ∈ w.stable, w.Held c ∨ ∃ id, w.InputOf id c := by
  intro hclaim
  have hexec : ((exec (watchStep WatchConfig.small) Watch.start refusedNote).map fun w =>
      (w.stable, w.coord.store.db.seq, (w.coord.origin 0).isNone,
        (w.file? "/in" "notes.txt").isNone)) =
      some ([⟨"/in", "notes.txt", [0x68, 0x69], 0⟩], 0, true, true) := by
    decide
  obtain ⟨w, hw, h⟩ := Option.map_eq_some_iff.mp hexec
  simp only [Prod.mk.injEq, Option.isNone_iff_eq_none] at h
  obtain ⟨hstable, hseq, horigin, hfile⟩ := h
  have hrun := run_of_exec hw
  rcases hclaim _ w hrun ⟨"/in", "notes.txt", [0x68, 0x69], 0⟩ (by rw [hstable]; simp) with
    ⟨x, hx, -⟩ | ⟨id, r, hr, -⟩
  · rw [hfile] at hx
    cases hx
  · -- no job was ever given an id
    have hle := (run_ok hrun).bounded id r hr
    obtain rfl : id = 0 := by omega
    rw [horigin] at hr
    cases hr

end Kura.Server
