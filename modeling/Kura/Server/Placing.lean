import Kura.Base.Writes
import Kura.Server.HotFolder

/-!
# Results of many files in one watched folder

`place` writes the report of a file, and its document or its original, under
names it makes from the name of the file. Here it is a sequence of calls on
files, and many deliveries run one after the other.
-/

namespace Kura.Server.Placing

open Kura.Base

/-- The parts of a folder that results go to. -/
inductive Part where
  | done | failed
  deriving DecidableEq

/-- A path of a result. -/
abbrev Path := Part × String

def dir (t : Tray) : Part → Dir
  | .done => t.done
  | .failed => t.failed

def setDir (t : Tray) (d : Dir) : Part → Tray
  | .done => { t with done := d }
  | .failed => { t with failed := d }

/-- The contents of a result. -/
def look (t : Tray) (k : Path) : Option Bytes := (dir t k.1).read k.2

/-- The calls that place results. -/
inductive Call where
  | write (p : Part) (name : String) (b : Bytes)
  | rename (p : Part) (source target : String)
  | move (p : Part) (file : String)
  | removeInput (file : String)

/-- A call; a source that is missing is an error, except for input files. -/
def exec (t : Tray) : Call → Option Tray
  | .write p name b => some (setDir t ((dir t p).write name b) p)
  | .rename p source target =>
      ((dir t p).read source).map fun b => setDir t (((dir t p).remove source).write target b) p
  | .move p file =>
      match t.input file with
      | none => some t
      | some x => some ((setDir t ((dir t p).write file x.bytes) p).clear file)
  | .removeInput file => some (t.clear file)

/-- A call replaces a file that is there. -/
def overwrites (t : Tray) : Call → Bool
  | .write p name _ => (dir t p).has name
  | .rename p _ target => (dir t p).has target
  | .move p file => (t.input file).isSome && (dir t p).has file
  | .removeInput _ => false

def run : Tray → List Call → Option Tray
  | t, [] => some t
  | t, c :: cs => (exec t c).bind fun t' => run t' cs

/-- No call of a run replaces a file. -/
def Intact : Tray → List Call → Prop
  | _, [] => True
  | t, c :: cs => overwrites t c = false ∧ ∀ t', exec t c = some t' → Intact t' cs

/-- A name that is not hidden. -/
def Visible (name : String) : Prop := ∃ c cs, name.toList = c :: cs ∧ c ≠ '.'

/-- A file that a scan took, with the outcome of its job and the document it made. -/
structure Delivery where
  file : String
  visible : Visible file
  outcome : Outcome
  document : Bytes

namespace Delivery

def stem (d : Delivery) : String := fileStem d.file

/-- The part the results of a file go to. -/
def part (d : Delivery) : Part :=
  match d.outcome with
  | .pdf _ => .done
  | .json status _ => if status = .ok then .done else .failed

/-- The original goes there too. -/
def moved (d : Delivery) : Bool :=
  match d.outcome with
  | .pdf _ => false
  | .json _ _ => true

/-- The report. -/
def report (d : Delivery) : Json :=
  match d.outcome with
  | .pdf report => .obj report
  | .json _ body => body

end Delivery

def partName (name : String) : String := "." ++ name ++ ".part"

def atomicWrite (p : Part) (name : String) (b : Bytes) : List Call :=
  [.write p (partName name) b, .rename p (partName name) name]

/-- The calls of `place`. -/
def placeCalls (render : Json → Bytes) (d : Delivery) : List Call :=
  match d.outcome with
  | .pdf report =>
      atomicWrite .done (d.stem ++ ".pdf") d.document ++
        atomicWrite .done (d.stem ++ ".json") (render (.obj report)) ++ [.removeInput d.file]
  | .json status body =>
      let part : Part := if status = .ok then .done else .failed
      atomicWrite part (d.stem ++ ".json") (render body) ++ [.move part d.file]

/-- Many deliveries, one after the other. -/
def deliveries (render : Json → Bytes) (ds : List Delivery) : List Call :=
  ds.flatMap (placeCalls render)

/-- The files that a delivery writes, in order; `original` is the input file. -/
def writesOf (render : Json → Bytes) (original : Bytes) (d : Delivery) : List (Path × Bytes) :=
  match d.outcome with
  | .pdf _ => [((d.part, d.stem ++ ".pdf"), d.document),
      ((d.part, d.stem ++ ".json"), render d.report)]
  | .json _ _ => [((d.part, d.stem ++ ".json"), render d.report), ((d.part, d.file), original)]

@[simp] theorem dir_setDir_self (t : Tray) (d : Dir) (p : Part) : dir (setDir t d p) p = d := by
  cases p <;> rfl

theorem dir_setDir_ne (t : Tray) (d : Dir) {p q : Part} (h : q ≠ p) :
    dir (setDir t d p) q = dir t q := by
  cases p <;> cases q <;> first | rfl | exact absurd rfl h

@[simp] theorem setDir_setDir (t : Tray) (d e : Dir) (p : Part) :
    setDir (setDir t d p) e p = setDir t e p := by
  cases p <;> rfl

@[simp] theorem setDir_input (t : Tray) (d : Dir) (p : Part) : (setDir t d p).input = t.input := by
  cases p <;> rfl

@[simp] theorem dir_clear (t : Tray) (file : String) (p : Part) :
    dir (t.clear file) p = dir t p := by
  cases p <;> rfl

theorem look_write (t : Tray) (p : Part) (name : String) (b : Bytes) :
    look (setDir t ((dir t p).write name b) p) = Function.update (look t) (p, name) (some b) := by
  funext k
  obtain ⟨q, n⟩ := k
  by_cases hq : q = p
  · subst hq
    by_cases hn : n = name
    · subst hn
      rw [Function.update_self, look, dir_setDir_self, Dir.read_write_self]
    · rw [Function.update_of_ne fun h => hn (Prod.ext_iff.mp h).2, look, dir_setDir_self,
        Dir.read_write_ne _ _ hn]
      rfl
  · rw [Function.update_of_ne fun h => hq (Prod.ext_iff.mp h).1, look, dir_setDir_ne t _ hq]
    rfl

theorem has_eq_false_iff (t : Tray) (p : Part) (name : String) :
    (dir t p).has name = false ↔ look t (p, name) = none := by
  rw [look, Option.eq_none_iff_forall_ne_some, Bool.eq_false_iff, Ne, Dir.has_iff_read, not_exists]

theorem look_clear (t : Tray) (file : String) : look (t.clear file) = look t := by
  funext k
  rw [look, dir_clear]
  rfl

/-- No result is hidden. -/
def Shown (t : Tray) : Prop := ∀ p name, look t (p, name) ≠ none → Visible name

theorem not_visible_partName (name : String) : ¬ Visible (partName name) := by
  rintro ⟨c, cs, hname, hc⟩
  have hlist : (partName name).toList = '.' :: (name.toList ++ ".part".toList) := by
    rw [partName, String.toList_append, String.toList_append]
    rfl
  rw [hlist] at hname
  exact hc (List.cons.inj hname).1.symm

theorem shown_write {t : Tray} (ht : Shown t) (p : Part) {name : String} (b : Bytes)
    (hname : Visible name) : Shown (setDir t ((dir t p).write name b) p) := by
  intro q n h
  rw [look_write] at h
  by_cases hk : (q, n) = (p, name)
  · obtain ⟨-, rfl⟩ := Prod.ext_iff.mp hk
    exact hname
  · rw [Function.update_of_ne hk] at h
    exact ht q n h

theorem shown_clear {t : Tray} (ht : Shown t) (file : String) : Shown (t.clear file) := by
  intro q n h
  rw [look_clear] at h
  exact ht q n h

theorem run_append (t : Tray) (cs cs' : List Call) :
    run t (cs ++ cs') = (run t cs).bind fun t' => run t' cs' := by
  induction cs generalizing t with
  | nil => rfl
  | cons c cs ih =>
      rw [List.cons_append, run, run, Option.bind_assoc]
      exact congrArg _ (funext fun t' => ih t')

/-- Calls are intact when the first ones are and then the rest. -/
theorem intact_append {t t' : Tray} {cs : List Call} (cs' : List Call) (h : run t cs = some t') :
    Intact t (cs ++ cs') ↔ Intact t cs ∧ Intact t' cs' := by
  induction cs generalizing t with
  | nil =>
      cases h
      exact ⟨fun h => ⟨trivial, h⟩, And.right⟩
  | cons c cs ih =>
      obtain ⟨u, hu, hrest⟩ := Option.bind_eq_some_iff.mp h
      have hnext := ih hrest
      rw [List.cons_append, Intact, Intact]
      constructor
      · rintro ⟨hc, hcs⟩
        have hboth := hnext.mp (hcs u hu)
        refine ⟨⟨hc, ?_⟩, hboth.2⟩
        intro v hv
        rw [hu] at hv
        cases hv
        exact hboth.1
      · rintro ⟨⟨hc, hcs⟩, hcs'⟩
        refine ⟨hc, ?_⟩
        intro v hv
        rw [hu] at hv
        cases hv
        exact hnext.mpr ⟨hcs u hu, hcs'⟩

theorem remove_of_none {d : Dir} {n : String} (h : d.read n = none) : d.remove n = d := by
  rw [Dir.remove, List.filter_eq_self]
  intro f hf
  rw [bne_iff_ne]
  rintro rfl
  have hhas : d.has f.1 = true := (Dir.has_iff d f.1).mpr ⟨f.2, hf⟩
  obtain ⟨b, hb⟩ := (Dir.has_iff_read d f.1).mp hhas
  rw [h] at hb
  cases hb

/-- Writing a file under a hidden name first does what writing it does, and meets the same file. -/
theorem run_atomicWrite {t : Tray} (ht : Shown t) (p : Part) {name : String} (b : Bytes)
    (hname : Visible name) :
    run t (atomicWrite p name b) = some (setDir t ((dir t p).write name b) p) ∧
      (Intact t (atomicWrite p name b) ↔ look t (p, name) = none) := by
  have hne : name ≠ partName name := fun h => not_visible_partName name (h ▸ hname)
  have hfree : look t (p, partName name) = none := by
    by_contra h
    exact not_visible_partName name (ht p _ h)
  have hrename : exec (setDir t ((dir t p).write (partName name) b) p)
      (.rename p (partName name) name) = some (setDir t ((dir t p).write name b) p) := by
    have hremove : ((dir t p).write (partName name) b).remove (partName name) = dir t p := by
      rw [Dir.write, Dir.remove, List.filter_cons_of_neg (by simp)]
      change ((dir t p).remove _).remove _ = _
      rw [remove_of_none hfree, remove_of_none hfree]
    rw [exec, dir_setDir_self, Dir.read_write_self, Option.map_some, hremove, setDir_setDir]
  refine ⟨?_, ?_⟩
  · rw [atomicWrite, run, exec, Option.bind_some, run, hrename]
    rfl
  · have hkept : look (setDir t ((dir t p).write (partName name) b) p) (p, name) =
        look t (p, name) := by
      rw [look_write, Function.update_of_ne fun h => hne (Prod.ext_iff.mp h).2]
    simp only [atomicWrite, Intact, overwrites, has_eq_false_iff, hfree, exec, Option.some.injEq,
      true_and, and_true, forall_eq', hkept, implies_true]

/-- A stem is the name itself, or what stands before its last dot. -/
theorem fileStem_cases (name : String) : fileStem name = name ∨
    ∃ c cs rest, (fileStem name).toList = c :: cs ∧ name.toList = c :: cs ++ '.' :: rest := by
  rw [fileStem]
  have hsplit := List.takeWhile_append_dropWhile (p := (· != '.')) (l := name.toList.reverse)
  split
  · exact .inl rfl
  · exact .inl rfl
  next dot before hne hdrop =>
    right
    have hdot : dot = '.' := by
      have hhead := List.head?_dropWhile_not (· != '.') name.toList.reverse
      rw [hdrop, List.head?_cons] at hhead
      simpa using hhead
    have hbefore : before.reverse ≠ [] := by
      intro h
      rw [List.reverse_eq_nil_iff] at h
      subst h
      exact hne hdot rfl
    obtain ⟨c, cs, hcs⟩ := List.exists_cons_of_ne_nil hbefore
    refine ⟨c, cs, (name.toList.reverse.takeWhile (· != '.')).reverse, ?_, ?_⟩
    · rw [String.toList_ofList, hcs]
    · have hrev := congrArg List.reverse hsplit
      rw [List.reverse_append, List.reverse_reverse, hdrop, List.reverse_cons, hcs, hdot] at hrev
      rw [List.append_assoc] at hrev
      exact hrev.symm

theorem visible_fileStem {name : String} (h : Visible name) : Visible (fileStem name) := by
  obtain ⟨c, cs, hname, hc⟩ := h
  obtain hstem | ⟨c', cs', rest, hstem, hsplit⟩ := fileStem_cases name
  · rw [hstem]
    exact ⟨c, cs, hname, hc⟩
  · rw [hname, List.cons_append] at hsplit
    obtain ⟨rfl, -⟩ := List.cons.inj hsplit
    exact ⟨c, cs', hstem, hc⟩

theorem visible_append {s : String} (h : Visible s) (ext : String) : Visible (s ++ ext) := by
  obtain ⟨c, cs, hs, hc⟩ := h
  exact ⟨c, cs ++ ext.toList, by rw [String.toList_append, hs, List.cons_append], hc⟩

/-- An extension is cut off again. -/
theorem fileStem_append {s ext : String} (hs : s ≠ "") {cs : List Char}
    (hext : ext.toList = '.' :: cs) (hcs : '.' ∉ cs) : fileStem (s ++ ext) = s := by
  have hdrop : (s ++ ext).toList.reverse.dropWhile (· != '.') = '.' :: s.toList.reverse := by
    rw [String.toList_append, hext, List.reverse_append, List.reverse_cons, List.append_assoc,
      List.dropWhile_append_of_pos]
    · rfl
    · intro c hc
      rw [bne_iff_ne]
      rintro rfl
      exact hcs (List.mem_reverse.mp hc)
  have hne : s.toList.reverse ≠ [] := by
    rw [Ne, List.reverse_eq_nil_iff, String.toList_eq_nil_iff]
    exact hs
  rw [fileStem, hdrop]
  split
  · next h => cases h
  · next h => exact absurd (List.cons.inj h).2 hne
  · next h =>
      rw [(List.cons.inj h).2.symm, List.reverse_reverse, String.ofList_toList]

theorem stem_ne_empty (d : Delivery) : d.stem ≠ "" := by
  obtain ⟨c, cs, hstem, -⟩ := visible_fileStem d.visible
  intro h
  rw [Delivery.stem] at h
  rw [h] at hstem
  cases hstem

theorem stem_of_json {d : Delivery} {s : String} (hs : s ≠ "") (h : d.file = s ++ ".json") :
    d.stem = s := by
  rw [Delivery.stem, h]
  exact fileStem_append hs (rfl : ".json".toList = ['.', 'j', 's', 'o', 'n']) (by decide)

theorem stem_of_pdf {d : Delivery} {s : String} (hs : s ≠ "") (h : d.file = s ++ ".pdf") :
    d.stem = s := by
  rw [Delivery.stem, h]
  exact fileStem_append hs (rfl : ".pdf".toList = ['.', 'p', 'd', 'f']) (by decide)

theorem pdf_ne_json (s s' : String) : s ++ ".pdf" ≠ s' ++ ".json" := by
  intro h
  have hlist := congrArg (fun n => n.toList.reverse.head?) h
  simp [String.toList_append] at hlist

theorem visible_stem (d : Delivery) (ext : String) : Visible (d.stem ++ ext) :=
  visible_append (visible_fileStem d.visible) ext

/-- The calls of a delivery do what `place` does. -/
theorem run_placeCalls (render : Json → Bytes) {t : Tray} (ht : Shown t) (d : Delivery) :
    run t (placeCalls render d) =
      some (place render t d.file d.outcome (some d.document) .none).1 := by
  have hpdf := visible_stem d ".pdf"
  have hjson := visible_stem d ".json"
  cases hout : d.outcome with
  | pdf report =>
      have hshown := shown_write ht .done d.document hpdf
      simp only [placeCalls, hout, run_append, (run_atomicWrite ht .done d.document hpdf).1,
        (run_atomicWrite hshown .done (render (.obj report)) hjson).1, Option.bind_some, run, exec]
      rfl
  | json status body =>
      have hplace : ∀ part : Part, part = (if status = .ok then .done else .failed) →
          run t (atomicWrite part (d.stem ++ ".json") (render body) ++ [.move part d.file]) =
            some (place render t d.file (.json status body) (some d.document) .none).1 := by
        intro part hpart
        have hput : ∀ (u : Tray) (name : String) (b : Bytes),
            setDir u ((dir u part).write name b) part = u.put status name b := by
          intro u name b
          rw [hpart, Tray.put]
          split <;> rfl
        rw [run_append, (run_atomicWrite ht part (render body) hjson).1, Option.bind_some, run,
          exec, setDir_input, hput]
        have hinput : (t.put status (d.stem ++ ".json") (render body)).input = t.input := by
          rw [Tray.put]
          split <;> rfl
        cases hfile : t.input d.file with
        | none =>
            simp only [place, Fault.stops, Delivery.stem] at hinput ⊢
            simp [run, hinput, hfile]
        | some x =>
            simp only [hput]
            simp only [place, Fault.stops, Delivery.stem] at hinput ⊢
            simp [run, hinput, hfile]
      rw [placeCalls, hout]
      exact hplace _ rfl

/-- What a sequence of calls does to a tray without hidden results: it succeeds, the results
change by some writes, and it replaces no file if and only if these are fresh. -/
structure Does (t : Tray) (cs : List Call) (ws : List (Path × Bytes)) (t' : Tray) : Prop where
  run : run t cs = some t'
  shown : Shown t'
  look : look t' = writeAll (look t) ws
  intact : Intact t cs ↔ Fresh (Placing.look t) ws

theorem Does.append {t t' t'' : Tray} {cs cs' : List Call} {ws ws' : List (Path × Bytes)}
    (h : Does t cs ws t') (h' : Does t' cs' ws' t'') : Does t (cs ++ cs') (ws ++ ws') t'' where
  run := by rw [run_append, h.run, Option.bind_some, h'.run]
  shown := h'.shown
  look := by rw [h'.look, h.look, writeAll_append]
  intact := by rw [intact_append cs' h.run, h.intact, h'.intact, h.look, fresh_append]

theorem does_atomicWrite {t : Tray} (ht : Shown t) (p : Part) {name : String} (b : Bytes)
    (hname : Visible name) : Does t (atomicWrite p name b) [((p, name), b)]
      (setDir t ((dir t p).write name b) p) where
  run := (run_atomicWrite ht p b hname).1
  shown := shown_write ht p b hname
  look := by rw [look_write, writeAll_cons, writeAll_nil]
  intact := by
    rw [(run_atomicWrite ht p b hname).2]
    exact ⟨fun h => ⟨h, trivial⟩, And.left⟩

theorem does_removeInput {t : Tray} (ht : Shown t) (file : String) :
    Does t [.removeInput file] [] (t.clear file) where
  run := rfl
  shown := shown_clear ht file
  look := look_clear t file
  intact := by simp [Intact, overwrites, Fresh]

theorem does_move {t : Tray} (ht : Shown t) (p : Part) {file : String} (hfile : Visible file)
    {x : File} (hx : t.input file = some x) : Does t [.move p file] [((p, file), x.bytes)]
      ((setDir t ((dir t p).write file x.bytes) p).clear file) where
  run := by
    rw [Placing.run, exec, hx]
    rfl
  shown := shown_clear (shown_write ht p x.bytes hfile) file
  look := by rw [look_clear, look_write, writeAll_cons, writeAll_nil]
  intact := by simp [Intact, overwrites, Fresh, hx, has_eq_false_iff]

/-- One delivery of a file that is there. -/
theorem does_placeCalls (render : Json → Bytes) {t : Tray} (ht : Shown t) (d : Delivery) {x : File}
    (hx : t.input d.file = some x) :
    ∃ t', Does t (placeCalls render d) (writesOf render x.bytes d) t' ∧
      ∀ name, name ≠ d.file → t'.input name = t.input name := by
  have hpdf := visible_stem d ".pdf"
  have hjson := visible_stem d ".json"
  cases hout : d.outcome with
  | pdf report =>
      have hcalls : placeCalls render d = atomicWrite .done (d.stem ++ ".pdf") d.document ++
          atomicWrite .done (d.stem ++ ".json") (render (.obj report)) ++
            [.removeInput d.file] := by
        rw [placeCalls, hout]
      have hwrites : writesOf render x.bytes d = [((.done, d.stem ++ ".pdf"), d.document)] ++
          [((.done, d.stem ++ ".json"), render (.obj report))] ++ [] := by
        simp only [writesOf, Delivery.part, Delivery.report, hout]
        rfl
      have hdocument := does_atomicWrite ht .done d.document hpdf
      have hreport := does_atomicWrite hdocument.shown .done (render (.obj report)) hjson
      rw [hcalls, hwrites]
      refine ⟨_, (hdocument.append hreport).append (does_removeInput hreport.shown d.file), ?_⟩
      intro name hname
      rw [Tray.clear, setDir_input, setDir_input]
      exact Function.update_of_ne hname _ _
  | json status body =>
      have hpart : d.part = if status = .ok then .done else .failed := by rw [Delivery.part, hout]
      have hcalls : placeCalls render d = atomicWrite d.part (d.stem ++ ".json") (render body) ++
          [.move d.part d.file] := by
        rw [placeCalls, hpart, hout]
      have hwrites : writesOf render x.bytes d = [((d.part, d.stem ++ ".json"), render body)] ++
          [((d.part, d.file), x.bytes)] := by
        simp only [writesOf, Delivery.report, hout]
        rfl
      have hreport := does_atomicWrite ht d.part (render body) hjson
      have hinput : (setDir t ((dir t d.part).write (d.stem ++ ".json") (render body)) d.part).input
          d.file = some x := by
        rw [setDir_input]
        exact hx
      rw [hcalls, hwrites]
      refine ⟨_, hreport.append (does_move hreport.shown d.part d.visible hinput), ?_⟩
      intro name hname
      rw [Tray.clear, setDir_input, setDir_input]
      exact Function.update_of_ne hname _ _

/-- The bytes of an input file. -/
def original (t : Tray) (d : Delivery) : Bytes := ((t.input d.file).map File.bytes).getD []

/-- Run: deliveries of files with different names. -/
theorem does_deliveries (render : Json → Bytes) {t : Tray} (ht : Shown t) {ds : List Delivery}
    (hnames : (ds.map Delivery.file).Nodup) (hinput : ∀ d ∈ ds, t.input d.file ≠ none) :
    ∃ t', Does t (deliveries render ds) (ds.flatMap fun d =>
      writesOf render (original t d) d) t' := by
  induction ds generalizing t with
  | nil =>
      refine ⟨t, rfl, ht, rfl, ?_⟩
      exact ⟨fun _ => trivial, fun _ => trivial⟩
  | cons d ds ih =>
      rw [List.map_cons, List.nodup_cons] at hnames
      obtain ⟨x, hx⟩ := Option.ne_none_iff_exists'.mp (hinput d List.mem_cons_self)
      obtain ⟨u, hdoes, hother⟩ := does_placeCalls render ht d hx
      have hne : ∀ e ∈ ds, e.file ≠ d.file := fun e he heq =>
        hnames.1 (heq ▸ List.mem_map_of_mem he)
      have hsame : ∀ e ∈ ds, u.input e.file = t.input e.file := fun e he => hother _ (hne e he)
      obtain ⟨t', hrest⟩ := ih hdoes.shown hnames.2 fun e he => by
        rw [hsame e he]
        exact hinput e (List.mem_cons_of_mem d he)
      have hwrites : ds.flatMap (fun e => writesOf render (original u e) e) =
          ds.flatMap fun e => writesOf render (original t e) e := by
        apply List.flatMap_congr
        intro e he
        rw [original, original, hsame e he]
      have hx' : original t d = x.bytes := by
        rw [original, hx]
        rfl
      rw [hwrites] at hrest
      refine ⟨t', ?_⟩
      rw [deliveries, List.flatMap_cons, List.flatMap_cons, hx']
      exact hdoes.append hrest

/-- The results of a file are there as they were made. -/
def Kept (render : Json → Bytes) (t t' : Tray) (d : Delivery) : Prop :=
  look t' (d.part, d.stem ++ ".json") = some (render d.report) ∧
    match d.outcome with
    | .pdf _ => look t' (d.part, d.stem ++ ".pdf") = some d.document
    | .json _ _ => look t' (d.part, d.file) = some (original t d)

/-- All deliveries succeed, their results are there at the end, and none was ever replaced. -/
def AllKept (render : Json → Bytes) (t : Tray) (ds : List Delivery) : Prop :=
  ∃ t', run t (deliveries render ds) = some t' ∧ (∀ d ∈ ds, Kept render t t' d) ∧
    Intact t (deliveries render ds)

/-- The paths a delivery writes. -/
def targets (d : Delivery) : List Path :=
  match d.outcome with
  | .pdf _ => [(d.part, d.stem ++ ".pdf"), (d.part, d.stem ++ ".json")]
  | .json _ _ => [(d.part, d.stem ++ ".json"), (d.part, d.file)]

theorem map_writesOf (render : Json → Bytes) (b : Bytes) (d : Delivery) :
    (writesOf render b d).map Prod.fst = targets d := by
  rw [writesOf, targets]
  cases d.outcome <;> rfl

theorem kept_of_writes {render : Json → Bytes} {t t' : Tray} {d : Delivery}
    (h : ∀ w ∈ writesOf render (original t d) d, look t' w.1 = some w.2) : Kept render t t' d := by
  cases hout : d.outcome with
  | pdf report =>
      simp only [writesOf, hout, List.forall_mem_cons] at h
      simp only [Kept, hout]
      exact ⟨h.2.1, h.1⟩
  | json status body =>
      simp only [writesOf, hout, List.forall_mem_cons] at h
      simp only [Kept, hout]
      exact ⟨h.1, h.2.1⟩

/-- All results are kept if and only if no path is written twice. -/
theorem allKept_iff_nodup (render : Json → Bytes) {t : Tray} {ds : List Delivery}
    (hdone : t.done = []) (hfailed : t.failed = []) (hnames : (ds.map Delivery.file).Nodup)
    (hinput : ∀ d ∈ ds, t.input d.file ≠ none) :
    AllKept render t ds ↔ (ds.flatMap targets).Nodup := by
  have hempty : ∀ k, look t k = none := by
    rintro ⟨p, name⟩
    cases p with
    | done =>
        rw [look, dir, hdone]
        rfl
    | failed =>
        rw [look, dir, hfailed]
        rfl
  have hshown : Shown t := fun p name h => absurd (hempty (p, name)) h
  obtain ⟨t', hdoes⟩ := does_deliveries render hshown hnames hinput
  have hkeys : (ds.flatMap fun d => writesOf render (original t d) d).map Prod.fst =
      ds.flatMap targets := by
    rw [List.map_flatMap]
    exact List.flatMap_congr fun d _ => map_writesOf render (original t d) d
  have hfresh : Fresh (look t) (ds.flatMap fun d => writesOf render (original t d) d) ↔
      (ds.flatMap targets).Nodup := by
    rw [fresh_iff, hkeys]
    exact and_iff_left fun k _ => hempty k
  constructor
  · rintro ⟨-, -, -, hintact⟩
    exact hfresh.mp (hdoes.intact.mp hintact)
  · intro hnodup
    refine ⟨t', hdoes.run, ?_, hdoes.intact.mpr (hfresh.mpr hnodup)⟩
    intro d hd
    apply kept_of_writes
    intro w hw
    rw [hdoes.look]
    refine writeAll_of_nodup (by rw [hkeys]; exact hnodup) ?_
    exact List.mem_flatMap.mpr ⟨d, hd, hw⟩

/-- A delivery by itself. -/
theorem nodup_targets_iff (d : Delivery) :
    (targets d).Nodup ↔ (d.moved = true → d.file ≠ d.stem ++ ".json") := by
  cases hout : d.outcome with
  | pdf report =>
      simp only [targets, Delivery.moved, hout]
      simp
  | json status body =>
      simp only [targets, Delivery.moved, hout]
      simp [eq_comm]

theorem mem_targets {d : Delivery} {k : Path} (h : k ∈ targets d) : k.1 = d.part ∧
    (k.2 = d.stem ++ ".json" ∨ k.2 = d.stem ++ ".pdf" ∨ d.moved = true ∧ k.2 = d.file) := by
  cases hout : d.outcome with
  | pdf report =>
      simp only [targets, hout, List.mem_cons, List.not_mem_nil, or_false] at h
      obtain rfl | rfl := h
      · exact ⟨rfl, .inr (.inl rfl)⟩
      · exact ⟨rfl, .inl rfl⟩
  | json status body =>
      simp only [targets, hout, List.mem_cons, List.not_mem_nil, or_false] at h
      obtain rfl | rfl := h
      · exact ⟨rfl, .inl rfl⟩
      · exact ⟨rfl, .inr (.inr ⟨by rw [Delivery.moved, hout], rfl⟩)⟩

theorem report_mem_targets (d : Delivery) : (d.part, d.stem ++ ".json") ∈ targets d := by
  rw [targets]
  cases d.outcome <;> simp

/-- The stem of a file is told by each name it writes. -/
theorem stem_eq_of_name {a b : Delivery} {name : String} (hfile : a.file ≠ b.file)
    (ha : name = a.stem ++ ".json" ∨ name = a.stem ++ ".pdf" ∨ a.moved = true ∧ name = a.file)
    (hb : name = b.stem ++ ".json" ∨ name = b.stem ++ ".pdf" ∨ b.moved = true ∧ name = b.file) :
    a.stem = b.stem := by
  obtain rfl | rfl | ⟨-, rfl⟩ := ha
  · obtain h | h | ⟨-, h⟩ := hb
    · exact String.append_left_inj _ |>.mp h
    · exact absurd h.symm (pdf_ne_json _ _)
    · exact (stem_of_json (stem_ne_empty a) h.symm).symm
  · obtain h | h | ⟨-, h⟩ := hb
    · exact absurd h (pdf_ne_json _ _)
    · exact String.append_left_inj _ |>.mp h
    · exact (stem_of_pdf (stem_ne_empty a) h.symm).symm
  · obtain h | h | ⟨-, h⟩ := hb
    · exact stem_of_json (stem_ne_empty b) h
    · exact stem_of_pdf (stem_ne_empty b) h
    · exact absurd h hfile

/-- Two deliveries of different files. -/
theorem disjoint_targets_iff {a b : Delivery} (hfile : a.file ≠ b.file) :
    List.Disjoint (targets a) (targets b) ↔ (a.part = b.part → a.stem ≠ b.stem) := by
  constructor
  · intro h hpart hstem
    refine h (report_mem_targets a) ?_
    rw [hpart, hstem]
    exact report_mem_targets b
  · intro h k ha hb
    obtain ⟨hpa, hna⟩ := mem_targets ha
    obtain ⟨hpb, hnb⟩ := mem_targets hb
    exact h (hpa.symm.trans hpb) (stem_eq_of_name hfile hna hnb)

/-- Deliveries of files with different names into an empty folder keep all results if and only if
no two of them go to one part with the same stem and no original that is moved has the name of
its own report. -/
theorem allKept_iff (render : Json → Bytes) (t : Tray) (ds : List Delivery)
    (hdone : t.done = []) (hfailed : t.failed = []) (hnames : (ds.map Delivery.file).Nodup)
    (hinput : ∀ d ∈ ds, t.input d.file ≠ none) :
    AllKept render t ds ↔ ds.Pairwise (fun a b => a.part = b.part → a.stem ≠ b.stem) ∧
      ∀ d ∈ ds, d.moved = true → d.file ≠ d.stem ++ ".json" := by
  have hfiles : ds.Pairwise fun a b => a.file ≠ b.file := List.pairwise_map.mp hnames
  have hpairs : ds.Pairwise (Function.onFun List.Disjoint targets) ↔
      ds.Pairwise fun a b => a.part = b.part → a.stem ≠ b.stem := by
    constructor
    · intro h
      exact (hfiles.and h).imp fun hab => (disjoint_targets_iff hab.1).mp hab.2
    · intro h
      exact (hfiles.and h).imp fun hab => (disjoint_targets_iff hab.1).mpr hab.2
  have hown : (∀ d ∈ ds, (targets d).Nodup) ↔
      ∀ d ∈ ds, d.moved = true → d.file ≠ d.stem ++ ".json" :=
    forall₂_congr fun d _ => nodup_targets_iff d
  rw [allKept_iff_nodup render hdone hfailed hnames hinput, List.nodup_flatMap, hown, hpairs,
    and_comm]

/-- A folder with two input files. -/
def twoInputs : Tray where
  input name := if name = "a.pdf" ∨ name = "b.jpg" then some ⟨[0x25], 0, 0⟩ else none
  done := []
  failed := []

/-- A conversion and a file that is refused. -/
theorem twoInputs_kept : AllKept (fun _ => [0x7b, 0x7d]) twoInputs
    [⟨"a.pdf", ⟨'a', _, rfl, by decide⟩, .pdf [], [0x25]⟩,
      ⟨"b.jpg", ⟨'b', _, rfl, by decide⟩, .json .badRequest (.obj []), []⟩] :=
  (allKept_iff _ _ _ rfl rfl (by decide) (by decide)).mpr ⟨by decide, by decide⟩

/-- A folder with three input files. -/
def threeInputs : Tray where
  input name := if name ∈ ["a.jpg", "a.pdf", "x.json"] then some ⟨[0x78], 0, 0⟩ else none
  done := []
  failed := []

/-- The document of `a.jpg` is replaced by that of `a.pdf`, and the reason why `x.json` was refused
by `x.json` itself. -/
theorem sameNames_replaced :
    let render : Json → Bytes := fun _ => [0x7b, 0x7d]
    let ds : List Delivery := [⟨"a.jpg", ⟨'a', _, rfl, by decide⟩, .pdf [], [1]⟩,
      ⟨"a.pdf", ⟨'a', _, rfl, by decide⟩, .pdf [], [2]⟩,
      ⟨"x.json", ⟨'x', _, rfl, by decide⟩, .json .badRequest (.obj []), []⟩]
    (ds.map Delivery.file).Nodup ∧
      (∃ t', run threeInputs (deliveries render ds) = some t' ∧
        look t' (.done, "a.pdf") = some [2] ∧ look t' (.failed, "x.json") = some [0x78]) ∧
      ¬ AllKept render threeInputs ds := by
  intro render ds
  have hnames : (ds.map Delivery.file).Nodup := by decide
  refine ⟨hnames, ⟨_, rfl, by decide, by decide⟩, ?_⟩
  rw [allKept_iff_nodup render rfl rfl hnames (by decide)]
  decide

end Kura.Server.Placing
