import Kura.Server.Placing

/-!
# Deliveries that are cut off

The process may die at any call of a delivery, also in the middle of writing a
file, and makes the delivery again from its start when it is back. Until then
every result that can be seen is the one from before or a whole new one, and the
input file is there unless all results are. The delivery that comes to its end
leaves what one leaves that was never cut off.

A write that is cut off leaves any bytes in the file, which is a hidden one.
`Underway` is what holds between any two calls, and `Safe` follows the calls of a
delivery to its end.
-/

namespace Kura.Server.Placing

open Kura.Base

/-- What is executed of some calls that are cut off. -/
inductive Cut : List Call → List Call → Prop
  | stop (cs : List Call) : Cut cs []
  | torn (p : Part) (name : String) (b b' : Bytes) (cs : List Call) :
      Cut (.write p name b :: cs) [.write p name b']
  | go (c : Call) {cs cs' : List Call} (h : Cut cs cs') : Cut (c :: cs) (c :: cs')

/-- The trays that some calls leave when they are cut off, again and again. -/
inductive CutOff (cs : List Call) (t : Tray) : Tray → Prop
  | start : CutOff cs t t
  | again {u v : Tray} {cs' : List Call} (h : CutOff cs t u) (hcut : Cut cs cs')
      (hrun : run u cs' = some v) : CutOff cs t v

/-- The results that are written under a hidden name first. -/
def renamed (d : Delivery) : List String :=
  match d.outcome with
  | .pdf _ => [d.stem ++ ".pdf", d.stem ++ ".json"]
  | .json _ _ => [d.stem ++ ".json"]

/-- The hidden files of a delivery. -/
def partPaths (d : Delivery) : List Path := (renamed d).map fun name => (d.part, partName name)

theorem notMem_partPaths (d : Delivery) {k : Path} (h : Visible k.2) : k ∉ partPaths d := by
  intro hk
  obtain ⟨name, -, rfl⟩ := List.mem_map.mp hk
  exact not_visible_partName name h

/-- The results and the input file while a delivery is made, from a tray and to some results. -/
structure Underway (results : Path → Option Bytes) (t : Tray) (x : File) (d : Delivery) (u : Tray) :
    Prop where
  result : ∀ k ∉ partPaths d, look u k = look t k ∨ look u k = results k
  others : ∀ name, name ≠ d.file → u.input name = t.input name
  original : u.input d.file = some x ∨
    u.input d.file = none ∧ ∀ k ∉ partPaths d, look u k = results k

section

variable {results : Path → Option Bytes} {t u v : Tray} {x : File} {d : Delivery}

/-- What can be seen stays or becomes a result. -/
theorem Underway.change (h : Underway results t x d u)
    (hkeep : ∀ k ∉ partPaths d, look v k = results k ∨ look v k = look u k)
    (hinput : v.input = u.input) : Underway results t x d v := by
  refine ⟨fun k hk => ?_, fun name hname => hinput ▸ h.others name hname, ?_⟩
  · rcases hkeep k hk with hr | hr
    · exact Or.inr hr
    · rw [hr]
      exact h.result k hk
  · rw [hinput]
    refine h.original.imp_right fun ⟨hnone, hall⟩ => ⟨hnone, fun k hk => ?_⟩
    exact (hkeep k hk).elim id fun hr => hr.trans (hall k hk)

theorem Underway.write (h : Underway results t x d u) {p : Part} {name : String}
    (hpart : (p, name) ∈ partPaths d) (b : Bytes) :
    Underway results t x d (setDir u ((dir u p).write name b) p) := by
  apply h.change
  · intro k hk
    have hne : k ≠ (p, name) := fun he => hk (he ▸ hpart)
    exact Or.inr (by rw [look_write, Function.update_of_ne hne])
  · exact setDir_input u _ p

/-- The calls of a delivery find what they need, and lead to the results. -/
def Safe (results : Path → Option Bytes) (t : Tray) (x : File) (d : Delivery) :
    List Call → Tray → Prop
  | [], u => Underway results t x d u ∧ look u = results ∧ u.input d.file = none
  | c :: cs, u =>
      Underway results t x d u ∧ (∀ p name b, c = .write p name b → (p, name) ∈ partPaths d) ∧
        ∃ v, exec u c = some v ∧ Safe results t x d cs v

/-- Wherever the calls are cut off, the delivery is still underway. -/
theorem Safe.cut {cs cs' : List Call} (h : Safe results t x d cs u) (hcut : Cut cs cs')
    (hrun : run u cs' = some v) : Underway results t x d v := by
  induction hcut generalizing u with
  | stop cs =>
      cases hrun
      cases cs with
      | nil => exact h.1
      | cons c cs => exact h.1
  | torn p name b b' cs =>
      cases hrun
      exact h.1.write (h.2.1 p name b rfl) b'
  | go c _ ih =>
      obtain ⟨-, -, w, hw, hsafe⟩ := h
      rw [run, hw] at hrun
      exact ih hsafe hrun

theorem Safe.run {cs : List Call} (h : Safe results t x d cs u) :
    ∃ v, run u cs = some v ∧ look v = results ∧ v.input d.file = none ∧
      ∀ name, name ≠ d.file → v.input name = t.input name := by
  induction cs generalizing u with
  | nil => exact ⟨u, rfl, h.2.1, h.2.2, h.1.others⟩
  | cons c cs ih =>
      obtain ⟨-, -, w, hw, hsafe⟩ := h
      rw [Placing.run, hw]
      exact ih hsafe

/-- A renamed file is there under its new name only. -/
theorem look_rename (u : Tray) (p : Part) (source target : String) (b : Bytes) :
    look (setDir u (((dir u p).remove source).write target b) p) =
      Function.update (Function.update (look u) (p, source) none) (p, target) (some b) := by
  have hremove : look (setDir u ((dir u p).remove source) p) =
      Function.update (look u) (p, source) none := by
    funext ⟨q, n⟩
    by_cases hk : (q, n) = (p, source)
    · obtain ⟨rfl, rfl⟩ := Prod.ext_iff.mp hk
      rw [Function.update_self, look, dir_setDir_self, Dir.read, Dir.remove, List.find?_filter]
      simp
    · rw [Function.update_of_ne hk]
      by_cases hq : q = p
      · subst hq
        rw [look, look, dir_setDir_self]
        exact Dir.read_remove_ne _ fun hn => hk (by rw [show n = source from hn])
      · rw [look, look, dir_setDir_ne u _ hq]
  rw [← hremove, ← look_write, dir_setDir_self, setDir_setDir]

/-- A result is written under its hidden name and then renamed; other paths that are as they should
be stay so. -/
theorem Underway.replace {p : Part} {name : String} {b : Bytes} {rest : List Call}
    (h : Underway results t x d u) (hpart : (p, partName name) ∈ partPaths d)
    (hresult : results (p, name) = some b) (hhidden : results (p, partName name) = none)
    (hrest : ∀ v, Underway results t x d v → v.input = u.input →
      (∀ k, k = (p, name) ∨ k = (p, partName name) ∨ look u k = results k →
        look v k = results k) → Safe results t x d rest v) :
    Safe results t x d (atomicWrite p name b ++ rest) u := by
  obtain ⟨w, hw⟩ : ∃ w, w = setDir u ((dir u p).write (partName name) b) p := ⟨_, rfl⟩
  have hwritten : Underway results t x d w := hw ▸ h.write hpart b
  have hinput : w.input = u.input := by rw [hw, setDir_input]
  have hread : (dir w p).read (partName name) = some b := by
    rw [hw, dir_setDir_self, Dir.read_write_self]
  refine ⟨h, ?_, w, by rw [exec, hw], hwritten, fun _ _ _ hcall => Call.noConfusion hcall, _,
    by rw [exec, hread, Option.map_some], ?_⟩
  · rintro _ _ _ ⟨⟩
    exact hpart
  obtain ⟨v, hv⟩ : ∃ v, v = setDir w (((dir w p).remove (partName name)).write name b) p := ⟨_, rfl⟩
  have hne : (p, partName name) ≠ (p, name) := by
    intro he
    rw [he, hresult] at hhidden
    cases hhidden
  have hnew : look v (p, name) = results (p, name) := by
    rw [hv, look_rename, Function.update_self, hresult]
  have hgone : look v (p, partName name) = results (p, partName name) := by
    rw [hv, look_rename, Function.update_of_ne hne, Function.update_self, hhidden]
  have hkept : ∀ k, k ≠ (p, name) → k ≠ (p, partName name) → look v k = look u k := by
    intro k hk hkpart
    rw [hv, look_rename, Function.update_of_ne hk, Function.update_of_ne hkpart, hw, look_write,
      Function.update_of_ne hkpart]
  have hvinput : v.input = u.input := by rw [hv, setDir_input, hinput]
  rw [← hv]
  refine hrest v (h.change (fun k hk => ?_) hvinput) hvinput ?_
  · rcases eq_or_ne k (p, name) with rfl | hname
    · exact Or.inl hnew
    · exact Or.inr (hkept k hname fun he => hk (he ▸ hpart))
  · intro k hk
    rcases eq_or_ne k (p, name) with rfl | hname
    · exact hnew
    · rcases eq_or_ne k (p, partName name) with rfl | hkpart
      · exact hgone
      · rw [hkept k hname hkpart]
        exact (hk.resolve_left hname).resolve_left hkpart

/-- The input file goes when all results are there. -/
theorem Underway.finish (h : Underway results t x d u) (hlook : look v = results)
    (hnone : v.input d.file = none)
    (hothers : ∀ name, name ≠ d.file → v.input name = u.input name) :
    Safe results t x d [] v := by
  have hall : ∀ k ∉ partPaths d, look v k = results k := fun k _ => congrFun hlook k
  refine ⟨⟨fun k hk => Or.inr (hall k hk), ?_, Or.inr ⟨hnone, hall⟩⟩, hlook, hnone⟩
  exact fun name hname => (hothers name hname).trans (h.others name hname)

/-- Wherever a delivery was cut off, it can be made from its start. -/
theorem Underway.safe {render : Json → Bytes} (hnodup : (targets d).Nodup)
    (hdoes : Does t (placeCalls render d) (writesOf render x.bytes d) v)
    (h : Underway (look v) t x d u) : Safe (look v) t x d (placeCalls render d) u := by
  have hwrites : ∀ w ∈ writesOf render x.bytes d, look v w.1 = some w.2 := by
    intro w hw
    rw [hdoes.look]
    exact writeAll_of_nodup (by rw [map_writesOf]; exact hnodup) hw
  have hhidden : ∀ p name, look v (p, partName name) = none := by
    intro p name
    by_contra hk
    exact not_visible_partName name (hdoes.shown p _ hk)
  have hend : ∀ w, Underway (look v) t x d w → ∀ k,
      (k ∈ targets d ∨ k ∈ partPaths d → look w k = look v k) → look w k = look v k := by
    intro w hw k hk
    by_cases hmem : k ∈ targets d ∨ k ∈ partPaths d
    · exact hk hmem
    · rw [not_or] at hmem
      have hsame : look v k = look t k := by
        rw [hdoes.look, writeAll_of_notMem (by rw [map_writesOf]; exact hmem.1)]
      exact (hw.result k hmem.2).elim (fun hr => hr.trans hsame.symm) id
  cases hout : d.outcome with
  | pdf report =>
      simp only [writesOf, Delivery.part, Delivery.report, hout, List.forall_mem_cons] at hwrites
      simp only [targets, partPaths, renamed, Delivery.part, hout, List.map_cons, List.map_nil,
        List.mem_cons, List.not_mem_nil, or_false] at hend
      rw [placeCalls, hout]
      simp only [List.append_assoc]
      refine h.replace (by simp [partPaths, renamed, Delivery.part, hout]) hwrites.1 (hhidden _ _)
        fun w hw hwinput hwlook => ?_
      refine hw.replace (by simp [partPaths, renamed, Delivery.part, hout]) hwrites.2.1
        (hhidden _ _) fun y hy hyinput hylook => ?_
      refine ⟨hy, fun _ _ _ hcall => Call.noConfusion hcall, _, rfl, hy.finish ?_ ?_ ?_⟩
      · rw [look_clear]
        funext k
        refine hend y hy k fun hk => hylook k ?_
        rcases hk with (rfl | rfl) | rfl | rfl
        · exact Or.inr (Or.inr (hwlook _ (Or.inl rfl)))
        · exact Or.inl rfl
        · exact Or.inr (Or.inr (hwlook _ (Or.inr (Or.inl rfl))))
        · exact Or.inr (Or.inl rfl)
      · exact Function.update_self _ _ _
      · exact fun name hname => Function.update_of_ne hname _ _
  | json status body =>
      simp only [writesOf, Delivery.report, hout, List.forall_mem_cons] at hwrites
      simp only [targets, partPaths, renamed, hout, List.map_cons, List.map_nil, List.mem_cons,
        List.not_mem_nil, or_false] at hend
      have hcalls : placeCalls render d = atomicWrite d.part (d.stem ++ ".json") (render body) ++
          [.move d.part d.file] := by
        rw [placeCalls, Delivery.part, hout]
      rw [hcalls]
      refine h.replace (by simp [partPaths, renamed, hout]) hwrites.1 (hhidden _ _)
        fun y hy hyinput hylook => ?_
      refine ⟨hy, fun _ _ _ hcall => Call.noConfusion hcall, ?_⟩
      rw [exec]
      rcases hy.original with hsome | ⟨hnone, hall⟩
      · rw [hsome]
        refine ⟨_, rfl, hy.finish ?_ ?_ ?_⟩
        · rw [look_clear, look_write]
          funext k
          rcases eq_or_ne k (d.part, d.file) with rfl | hk
          · rw [Function.update_self, hwrites.2.1]
          · rw [Function.update_of_ne hk]
            refine hend y hy k fun hmem => hylook k ?_
            rcases hmem with (hjson | hfile) | hpart
            · exact Or.inl hjson
            · exact absurd hfile hk
            · exact Or.inr (Or.inl hpart)
        · exact Function.update_self _ _ _
        · intro name hname
          rw [Tray.clear, setDir_input]
          exact Function.update_of_ne hname _ _
      · rw [hnone]
        refine ⟨y, rfl, hy.finish ?_ hnone fun _ _ => rfl⟩
        funext k
        by_cases hk : k ∈ partPaths d
        · simp only [partPaths, renamed, hout, List.map_cons, List.map_nil,
            List.mem_singleton] at hk
          exact hylook k (Or.inr (Or.inl hk))
        · exact hall k hk

end

/-- A delivery that is cut off again and again, and then made to its end. -/
theorem redelivered (render : Json → Bytes) (t u : Tray) (d : Delivery) (x : File) (ht : Shown t)
    (hx : t.input d.file = some x) (hown : d.moved = true → d.file ≠ d.stem ++ ".json")
    (hcut : CutOff (placeCalls render d) t u) :
    let v := (place render t d.file d.outcome (some d.document) .none).1
    (∀ p name, Visible name → look u (p, name) = look t (p, name) ∨
        look u (p, name) = look v (p, name)) ∧
      (u.input d.file = some x ∨ u.input d.file = none ∧
        ∀ p name, Visible name → look u (p, name) = look v (p, name)) ∧
      ∃ w, run u (placeCalls render d) = some w ∧ look w = look v ∧ w.input = v.input := by
  intro v
  obtain ⟨v', hdoes, -⟩ := does_placeCalls render ht d hx
  have hv : v' = v := by
    have hrun := hdoes.run
    rw [run_placeCalls render ht d] at hrun
    exact (Option.some.inj hrun).symm
  rw [hv] at hdoes
  have hnodup := (nodup_targets_iff d).mpr hown
  have hstart : Underway (look v) t x d t := ⟨fun _ _ => Or.inl rfl, fun _ _ => rfl, Or.inl hx⟩
  have hu : Underway (look v) t x d u := by
    induction hcut with
    | start => exact hstart
    | again _ hcut hrun ih => exact (ih.safe hnodup hdoes).cut hcut hrun
  obtain ⟨y, hy, -, hynone, hyothers⟩ := (hstart.safe hnodup hdoes).run
  obtain ⟨w, hw, hwlook, hwnone, hwothers⟩ := (hu.safe hnodup hdoes).run
  refine ⟨fun p name hname => hu.result _ (notMem_partPaths d hname),
    hu.original.imp_right fun ⟨hnone, hall⟩ => ⟨hnone, fun p name hname =>
      hall _ (notMem_partPaths d hname)⟩, w, hw, hwlook, ?_⟩
  rw [hdoes.run] at hy
  cases hy
  funext name
  by_cases hname : name = d.file
  · rw [hname, hwnone, hynone]
  · rw [hwothers name hname, hyothers name hname]

/-- The process dies while it writes the document, and makes the delivery when it is back. -/
theorem redelivered_torn : ∃ u w, run twoInputs [.write .done (partName "a.pdf") []] = some u ∧
    run u (placeCalls (fun _ => [0x7b, 0x7d])
      ⟨"a.pdf", ⟨'a', _, rfl, by decide⟩, .pdf [], [0x25]⟩) = some w ∧
    look w (.done, "a.pdf") = some [0x25] ∧ w.input "a.pdf" = none := by
  have hshown : Shown twoInputs := fun p name h => absurd (by cases p <;> rfl) h
  have hcut : CutOff (placeCalls (fun _ => [0x7b, 0x7d])
      ⟨"a.pdf", ⟨'a', _, rfl, by decide⟩, .pdf [], [0x25]⟩) twoInputs
      (setDir twoInputs [(partName "a.pdf", [])] .done) :=
    CutOff.start.again (.torn .done (partName "a.pdf") [0x25] [] _) rfl
  obtain ⟨-, -, w, hw, hlook, hinput⟩ := redelivered _ _ _ _ ⟨[0x25], 0, 0⟩ hshown rfl
    (fun h => by cases h) hcut
  refine ⟨_, w, rfl, hw, ?_, ?_⟩
  · rw [hlook]
    rfl
  · rw [hinput]
    rfl

end Kura.Server.Placing
