import Kura.Base.PrefixCode
import Kura.Server.Accepted
import Kura.Server.Origin

/-!
# Reused results

What is hashed of a job determines its kind and its argument list: the words
for kinds and the texts of argument lists show where they end. The contents
of files do not, so of several files only the concatenation is determined.
-/

namespace Kura.Server

open Kura.Base Kura.Transition

theorem Arg.toJson_injective {a b : Arg} (h : a.toJson = b.toJson) : a = b := by
  cases a <;> cases b <;> simp_all [Arg.toJson]

theorem argsJson_injective {as bs : List Arg} (h : argsJson as = argsJson bs) : as = bs := by
  simp only [argsJson, Json.arr.injEq] at h
  exact List.map_injective_iff.mpr (fun _ _ => Arg.toJson_injective) h

/-- The words for kinds show where they end. -/
theorem kindStr_append_inj {k k' : Kind} {x y : Bytes}
    (h : utf8 (kindStr k).toList ++ x = utf8 (kindStr k').toList ++ y) : k = k' ∧ x = y := by
  have hconvert : utf8 (kindStr .convert).toList = [99, 111, 110, 118, 101, 114, 116] := by decide
  have hcheck : utf8 (kindStr .check).toList = [99, 104, 101, 99, 107] := by decide
  have hverify : utf8 (kindStr .verify).toList = [118, 101, 114, 105, 102, 121] := by decide
  cases k <;> cases k' <;> simp_all

/-- What is hashed tells the kind, the arguments and the file bytes. -/
theorem hashInput_inj {k k' : Kind} {as as' : List Arg} {d d' : Dir} {b : Bytes}
    (h : hashInput k as d = some b) (h' : hashInput k' as' d' = some b) :
    k = k' ∧ as = as' ∧
      ∃ files, fileBytes d (inputFiles as) = some files ∧
        fileBytes d' (inputFiles as) = some files := by
  obtain ⟨fs, hfs, rfl⟩ := Option.map_eq_some_iff.mp h
  obtain ⟨fs', hfs', heq⟩ := Option.map_eq_some_iff.mp h'
  rw [List.append_assoc, List.append_assoc] at heq
  obtain ⟨rfl, hrest⟩ := kindStr_append_inj heq
  have hbracketed : ∀ as, (argsJson as).Bracketed := fun _ => trivial
  obtain ⟨hargs, rfl⟩ := Json.utf8_text_append_inj (hbracketed _) (hbracketed _) hrest
  obtain rfl := argsJson_injective hargs
  exact ⟨rfl, rfl, fs', hfs, hfs'⟩

/-- The bytes of one file tell its contents. -/
theorem read_eq_of_fileBytes {d d' : Dir} {n : String} {b : Bytes}
    (h : fileBytes d [n] = some b) (h' : fileBytes d' [n] = some b) : d.read n = d'.read n := by
  simp only [fileBytes, Option.map_some, Option.bind_eq_some_iff, Option.some.injEq,
    List.append_nil] at h h'
  obtain ⟨x, hx, rfl⟩ := h
  obtain ⟨y, hy, heq⟩ := h'
  rw [hx, hy, List.append_cancel_left heq]

/-- A directory that has one content for one name and nothing in the other
files. -/
def oneFull (ns : List String) (full : String) (b : Bytes) : Dir :=
  ns.map fun n => (n, if n = full then b else [])

theorem read_oneFull {ns : List String} {n full : String} {b : Bytes} (h : n ∈ ns) :
    (oneFull ns full b).read n = some (if n = full then b else []) := by
  induction ns with
  | nil => cases h
  | cons m ns ih =>
      by_cases hmn : m = n
      · subst hmn
        simp [oneFull, Dir.read]
      · have hmem : n ∈ ns := by
          rcases List.mem_cons.mp h with rfl | hmem
          · exact absurd rfl hmn
          · exact hmem
        have hskip : (oneFull (m :: ns) full b).read n = (oneFull ns full b).read n := by
          simp [oneFull, Dir.read, hmn]
        rw [hskip, ih hmem]

theorem fileBytes_of_empty {d : Dir} {ns : List String} (h : ∀ n ∈ ns, d.read n = some []) :
    fileBytes d ns = some (ns.flatMap fun n => utf8 n.toList) := by
  induction ns with
  | nil => rfl
  | cons n ns ih =>
      rw [fileBytes, h n List.mem_cons_self, ih fun m hm => h m (List.mem_cons_of_mem n hm)]
      simp

/-- Two files: the name of the second, moved from the contents of the first to
those of the second, leaves the bytes as they are. -/
theorem fileBytes_collide {n m : String} {ns : List String} (hnm : n ≠ m) (hn : n ∉ ns)
    (hm : m ∉ ns) :
    fileBytes (oneFull (n :: m :: ns) n (utf8 m.toList)) (n :: m :: ns) =
      fileBytes (oneFull (n :: m :: ns) m (utf8 m.toList)) (n :: m :: ns) := by
  have hempty : ∀ full, full ∉ ns → ∀ k ∈ ns,
      (oneFull (n :: m :: ns) full (utf8 m.toList)).read k = some [] := by
    intro full hfull k hk
    have hne : k ≠ full := by
      rintro rfl
      exact hfull hk
    rw [read_oneFull (List.mem_cons_of_mem _ (List.mem_cons_of_mem _ hk)), if_neg hne]
  simp only [fileBytes, fileBytes_of_empty (hempty n hn), fileBytes_of_empty (hempty m hm)]
  rw [read_oneFull List.mem_cons_self, read_oneFull (by simp), read_oneFull List.mem_cons_self,
    read_oneFull (by simp)]
  simp [hnm, Ne.symm hnm]

/-- What is hashed of a job tells everything the job depends on. -/
def HashSound (inLibrary : String → Bool) (kind : Kind) (args : List Arg) : Prop :=
  ∀ kind' args' d d' b, validateJob kind args (some d) inLibrary = .ok () →
    validateJob kind' args' (some d') inLibrary = .ok () →
    hashInput kind args d = some b → hashInput kind' args' d' = some b →
    kind' = kind ∧ args' = args ∧ ∀ n ∈ inputFiles args, d'.read n = d.read n

theorem has_oneFull {ns : List String} {n full : String} {b : Bytes} (h : n ∈ ns) :
    (oneFull ns full b).has n = true :=
  (Dir.has_iff_read _ _).mpr ⟨_, read_oneFull h⟩

theorem utf8_ne_nil {s : String} (h : s ≠ "") : utf8 s.toList ≠ [] := by
  cases hs : s.toList with
  | nil => exact absurd (String.toList_injective hs) h
  | cons c cs =>
      rw [utf8_cons]
      intro hnil
      exact utf8EncodeChar_ne_nil c (List.append_eq_nil_iff.mp hnil).1

/-- With two files or more, two different jobs have the same bytes hashed. -/
theorem not_hashSound {inLibrary : String → Bool} {kind : Kind} {args : List Arg} {d : Dir}
    (hvalid : validateJob kind args (some d) inLibrary = .ok ())
    (hlen : 2 ≤ (inputFiles args).length) : ¬ HashSound inLibrary kind args := by
  have hacc := accepted_of_validateJob hvalid
  have hnodup := hacc.nodup_inputFiles
  have hnames : ∀ n ∈ inputFiles args, n ≠ "" := fun n hn => hacc.name_ne_empty hn
  have hvalid' : ∀ full b, validateJob kind args (some (oneFull (inputFiles args) full b))
      inLibrary = .ok () := by
    intro full b
    rw [validateJob_iff]
    exact hacc.of_present fun n hn => present_of_has (has_oneFull hn)
  intro hsound
  match hns : inputFiles args with
  | [] => simp [hns] at hlen
  | [_] => simp [hns] at hlen
  | n :: m :: ns =>
      rw [hns] at hnodup hnames
      simp only [List.nodup_cons, List.mem_cons, not_or] at hnodup
      obtain ⟨⟨hnm, hn⟩, hm, -⟩ := hnodup
      have hcollide := fileBytes_collide hnm hn hm
      have hsome : (fileBytes (oneFull (n :: m :: ns) n (utf8 m.toList))
          (n :: m :: ns)).isSome = true :=
        fileBytes_isSome fun k hk => has_oneFull hk
      obtain ⟨b, hb⟩ := Option.isSome_iff_exists.mp hsome
      have hfirst : hashInput kind args (oneFull (inputFiles args) n (utf8 m.toList)) = some
          (utf8 (kindStr kind).toList ++ utf8 (argsJson args).text ++ b) := by
        rw [hashInput, hns, hb, Option.map_some]
      have hsecond : hashInput kind args (oneFull (inputFiles args) m (utf8 m.toList)) = some
          (utf8 (kindStr kind).toList ++ utf8 (argsJson args).text ++ b) := by
        rw [hashInput, hns, ← hcollide, hb, Option.map_some]
      obtain ⟨-, -, hread⟩ := hsound kind args _ _ _ (hvalid' _ _) (hvalid' _ _) hfirst hsecond
      have hn' := hread n (by rw [hns]; exact List.mem_cons_self)
      rw [read_oneFull (by rw [hns]; exact List.mem_cons_self),
        read_oneFull (by rw [hns]; exact List.mem_cons_self), if_neg hnm, if_pos rfl] at hn'
      exact utf8_ne_nil (hnames m (by simp)) (Option.some.inj hn').symm

/-- The hash is sound exactly for the jobs that name one file. -/
theorem hashSound_iff {inLibrary : String → Bool} {kind : Kind} {args : List Arg} {d : Dir}
    (hvalid : validateJob kind args (some d) inLibrary = .ok ()) :
    HashSound inLibrary kind args ↔ (inputFiles args).length = 1 := by
  have hne := (accepted_of_validateJob hvalid).inputFiles_ne_nil
  have hpos : 1 ≤ (inputFiles args).length := List.length_pos_iff.mpr hne
  constructor
  · intro hsound
    by_contra hlen
    exact not_hashSound hvalid (by omega) hsound
  · intro hlen kind' args' d d' b _ _ hb hb'
    obtain ⟨rfl, rfl, files, hfiles, hfiles'⟩ := hashInput_inj hb hb'
    refine ⟨rfl, rfl, fun n hn => ?_⟩
    obtain ⟨m, hm⟩ := List.length_eq_one_iff.mp hlen
    rw [hm] at hfiles hfiles' hn
    obtain rfl := List.mem_singleton.mp hn
    exact (read_eq_of_fileBytes hfiles hfiles').symm

variable {env : Env} {set : Settings}

/-- A submission was answered with the result of an earlier job. -/
def AnswersFrom (env : Env) (w : Coord) (r : Request) (w' : Coord) (prev : Nat) : Prop :=
  ∃ hash res j', requestHash env r = some hash ∧ cachedResult w.store.db hash = some (prev, res) ∧
    w'.job? w.store.db.nextId = some j' ∧ j'.state = .done ∧ j'.worker = some "dedupe" ∧
    j'.result = some res

theorem hashJob_of_requestHash {r : Request} {h : String}
    (hr : requestHash env r = some (some h)) : hashJob env r.kind r.args r.src = some h := by
  unfold requestHash at hr
  split_ifs at hr
  · obtain ⟨k, hk, heq⟩ := Option.map_eq_some_iff.mp hr
    obtain rfl := Option.some.inj heq
    exact hk
  · cases Option.some.inj hr

/-- Equal hashes come from equal bytes. -/
theorem hashInput_of_hashJob (hsha : Function.Injective env.sha256) {k k' : Kind}
    {as as' : List Arg} {d d' : Dir} {h : String} (hh : hashJob env k as d = some h)
    (hh' : hashJob env k' as' d' = some h) :
    ∃ b, hashInput k as d = some b ∧ hashInput k' as' d' = some b := by
  obtain ⟨b, hb, rfl⟩ := Option.map_eq_some_iff.mp hh
  obtain ⟨b', hb', heq⟩ := Option.map_eq_some_iff.mp hh'
  exact ⟨b, hb, hsha heq ▸ hb'⟩

/-- A submission answered from the cache gets the result of an earlier job of
the same kind with the same arguments; the contents of its input are the same
if it has one input file. With several the hash does not tell. -/
theorem dedupe_sound (env : Env) (set : Settings) (hsha : Function.Injective env.sha256) :
    (∀ w r now io w' j', Reachable env set w → next env set w (.submit r now io) = some w' →
      w'.job? w.store.db.nextId = some j' → j'.worker = some "dedupe" →
      ∃ prev r₀, AnswersFrom env w r w' prev ∧ w.origin prev = some r₀ ∧ r₀.kind = r.kind ∧
        r₀.args = r.args ∧
        ((inputFiles r.args).length = 1 →
          ∀ n ∈ inputFiles r.args, r₀.src.read n = r.src.read n)) ∧
    (∀ kind args d, validateJob kind args (some d) env.inLibrary = .ok () →
      (HashSound env.inLibrary kind args ↔ (inputFiles args).length = 1)) := by
  refine ⟨?_, fun kind args d hvalid => hashSound_iff hvalid⟩
  intro w r now io w' j' hw hn' hj' hworker
  obtain ⟨reply, hstep⟩ := stepped_of_next hn'
  have hnone : w.job? w.store.db.nextId = none := Table.get?_nextId _
  rcases row_of_step hstep hj' with ⟨j, hj, -⟩ | ⟨-, hnew, -⟩
  · rw [hnone] at hj
    cases hj
  · cases hnew with
    | queued => cases hworker
    | cached _ _ _ hash prev res hhash hprev =>
        obtain ⟨j, k, rfl, hget, hk, hdone, hkept, hres⟩ := cachedResult_eq_some hprev
        obtain ⟨r₀, hr₀, hmade⟩ := reachable_originOk hw prev j hget
        have hhash₀ := hmade.hash
        rw [hk] at hhash₀
        obtain ⟨b, hb, hb'⟩ := hashInput_of_hashJob hsha (hashJob_of_requestHash hhash₀)
          (hashJob_of_requestHash hhash)
        obtain ⟨hkind, hargs, -⟩ := hashInput_inj hb hb'
        refine ⟨prev, r₀, ⟨_, res, _, hhash, hprev, hj', rfl, rfl, rfl⟩, hr₀, hkind, hargs, ?_⟩
        intro hlen n hn
        have hsound := (hashSound_iff (valid_of_submit hn')).mpr hlen
        exact (hsound r₀.kind r₀.args r.src r₀.src b (valid_of_submit hn') hmade.valid hb' hb).2.2 n
          hn

theorem Env.bare_sha256_injective : Function.Injective Env.bare.sha256 := by
  intro b b' h
  have hchar : Function.Injective fun x : UInt8 => Char.ofNat x.toNat := by
    intro x y hxy
    have hnat := congrArg Char.toNat hxy
    have hcode : ∀ z : UInt8, (Char.ofNat z.toNat).toNat = z.toNat := by
      intro z
      have hz := z.toNat_lt
      have hvalid : z.toNat.isValidChar := Or.inl (by omega)
      rw [Char.ofNat, dif_pos hvalid]
      rfl
    rw [hcode, hcode] at hnat
    exact UInt8.toNat_inj.mp hnat
  exact List.map_injective_iff.mpr hchar (String.ofList_injective h)

/-- The second of two equal submissions gets the result of the first. -/
def reusedRun : List Label :=
  [.submit (.convert [1] true) 0 .smooth, .lease "w1" 10,
    .complete 1 1 "w1" .success [("out.pdf", [2])] ["out.pdf"] 20 .none]

theorem reusedRun_sound :
    ∃ w w' prev r₀, Reachable Env.bare Settings.small w ∧
      next Env.bare Settings.small w (.submit (.convert [1] true) 30 .smooth) = some w' ∧
      AnswersFrom Env.bare w (.convert [1] true) w' prev ∧ w.origin prev = some r₀ ∧
      r₀.src.read "in.pdf" = some [1] := by
  have hexec : ((exec (next Env.bare Settings.small) Coord.start reusedRun).bind fun w =>
      (next Env.bare Settings.small w (.submit (.convert [1] true) 30 .smooth)).bind fun w' =>
      (w'.job? w.store.db.nextId).map fun j => j.worker) = some (some "dedupe") := by
    decide +kernel
  obtain ⟨w, hw, h⟩ := Option.bind_eq_some_iff.mp hexec
  obtain ⟨w', hw', h⟩ := Option.bind_eq_some_iff.mp h
  obtain ⟨j, hj, hworker⟩ := Option.map_eq_some_iff.mp h
  have hreach : Reachable Env.bare Settings.small w := ⟨_, run_of_exec hw⟩
  obtain ⟨prev, r₀, hfrom, horigin, -, -, hsame⟩ :=
    (dedupe_sound Env.bare Settings.small Env.bare_sha256_injective).1 w _ 30 .smooth
      w' j hreach hw'
      hj hworker
  refine ⟨w, w', prev, r₀, hreach, hw', hfrom, horigin, ?_⟩
  exact hsame (by decide) "in.pdf" (by decide)

/-- A conversion that attaches a file. -/
def Request.attach (xml pdf : Bytes) : Request :=
  { Request.convert pdf true with
    src := [("attachment.xml", xml), ("in.pdf", pdf)]
    args := [.lit "--level", .lit "3b", .lit "--attach-xml", .file "attachment.xml",
      .file "in.pdf", .out "out.pdf"] }

/-- The name of the input and a first document in the attachment. -/
def shiftedFirst : Request := .attach (utf8 "<a/>in.pdf%PDF-1".toList) (utf8 "%PDF-2".toList)

/-- The same bytes with the first document in the input. -/
def shiftedSecond : Request := .attach (utf8 "<a/>".toList) (utf8 "%PDF-1in.pdf%PDF-2".toList)

/-- A different attachment and a different input are answered with the result
of another job. -/
theorem shifted_answered :
    Function.Injective Env.bare.sha256 ∧
    ¬ ∀ w r now io w' prev r₀, Reachable Env.bare Settings.small w →
      next Env.bare Settings.small w (.submit r now io) = some w' →
      AnswersFrom Env.bare w r w' prev → w.origin prev = some r₀ →
      r₀.kind = r.kind ∧ r₀.args = r.args ∧
        ∀ n ∈ inputFiles r.args, r₀.src.read n = r.src.read n := by
  refine ⟨Env.bare_sha256_injective, fun hclaim => ?_⟩
  have hexec : ((exec (next Env.bare Settings.small) Coord.start
      [.submit shiftedFirst 0 .smooth, .lease "w1" 10,
        .complete 1 1 "w1" .success [("out.pdf", [2])] ["out.pdf"] 20 .none]).bind fun w =>
      (next Env.bare Settings.small w (.submit shiftedSecond 30 .smooth)).bind fun w' =>
      (w'.job? w.store.db.nextId).bind fun j =>
      (requestHash Env.bare shiftedSecond).bind fun hash =>
      (cachedResult w.store.db hash).bind fun p => (w.origin p.1).map fun r₀ =>
        (j.state, j.worker, decide (j.result = some p.2),
          decide (r₀.src.read "in.pdf" = shiftedSecond.src.read "in.pdf"))) =
      some (.done, some "dedupe", true, false) := by
    decide +kernel
  obtain ⟨w, hw, h⟩ := Option.bind_eq_some_iff.mp hexec
  obtain ⟨w', hw', h⟩ := Option.bind_eq_some_iff.mp h
  obtain ⟨j, hj, h⟩ := Option.bind_eq_some_iff.mp h
  obtain ⟨hash, hhash, h⟩ := Option.bind_eq_some_iff.mp h
  obtain ⟨⟨prev, res⟩, hprev, h⟩ := Option.bind_eq_some_iff.mp h
  obtain ⟨r₀, hr₀, h⟩ := Option.map_eq_some_iff.mp h
  simp only [Prod.mk.injEq, decide_eq_true_eq, decide_eq_false_iff_not] at h
  obtain ⟨hdone, hworker, hres, hread⟩ := h
  have hfrom : AnswersFrom Env.bare w shiftedSecond w' prev :=
    ⟨hash, _, j, hhash, hprev, hj, hdone, hworker, hres⟩
  obtain ⟨-, -, hsame⟩ := hclaim w _ 30 .smooth w' prev r₀ ⟨_, run_of_exec hw⟩ hw' hfrom hr₀
  exact hread (hsame "in.pdf" (by decide))

end Kura.Server
