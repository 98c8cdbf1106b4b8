import Kura.Server.Wire

/-!
# What is sent is what is received

A bundle of distinct safe names arrives as it was sent, in whatever chunks,
exactly if its header is not larger than the reading side allows. The size of
a header is counted on the message and the table, before anything is written.
-/

namespace Kura.Server

open Kura.Base

section

variable {T : Type} [Message T]

theorem Entry.fromJson_toJson {e : Entry} (h : e.size < u64Bound) :
    Entry.fromJson e.toJson = some e := by
  obtain ⟨name, size⟩ := e
  simp only [Entry.toJson, Entry.fromJson]
  rw [Json.natField?_eq h (by simp [Json.field?])]
  simp [Json.field?, Json.string?]

theorem entries_fromJson {es : List Entry} (h : ∀ e ∈ es, e.size < u64Bound) :
    Json.list? Entry.fromJson (.arr (es.map Entry.toJson)) = some es := by
  rw [Json.list?]
  induction es with
  | nil => rfl
  | cons e es ih =>
      have hrest := ih fun i hi => h i (List.mem_cons_of_mem e hi)
      simp [Entry.fromJson_toJson (h e List.mem_cons_self), hrest]

theorem headFromJson_headJson {x : T} {es : List Entry} (hx : Message.Fits x)
    (h : ∀ e ∈ es, e.size < u64Bound) : headFromJson T (headJson x es) = some (x, es) := by
  have hmeta := Message.fromJson_toJson x hx
  have hfiles := entries_fromJson h
  simp only [headJson, headFromJson]
  simp [Json.field?, hmeta, hfiles]

/-- The head is nested no deeper than the reader allows. -/
theorem headJson_within {x : T} {es : List Entry} (hx : Message.Fits x)
    (h : ∀ e ∈ es, e.size < u64Bound) : (headJson x es).Within 127 := by
  have hmeta : (Message.toJson x).Within 126 :=
    Json.within_mono (by decide) (Message.within x hx)
  have hfiles : (Json.arr (es.map Entry.toJson)).Within 126 := by
    intro j hj
    obtain ⟨e, he, rfl⟩ := List.mem_map.mp hj
    have hsize := h e he
    simp only [u64Bound] at hsize
    simp only [Entry.toJson, Json.Within, List.mem_cons, forall_eq_or_imp, List.not_mem_nil,
      false_implies, implies_true, and_true, true_and]
    omega
  intro m hm
  simp only [List.mem_cons, List.not_mem_nil, or_false] at hm
  rcases hm with rfl | rfl
  · exact hmeta
  · exact hfiles

/-- The table of the named files of a directory. -/
def tableOf (src : Dir) (names : List String) : List Entry :=
  names.map fun n => ⟨n, ((src.read n).getD []).length⟩

/-- How many bytes the header of a bundle takes. -/
def headSize (x : T) (src : Dir) (names : List String) : Nat :=
  (headJson x (tableOf src names)).size

/-- Files that can be sent in one bundle. -/
structure Sendable (src : Dir) (names : List String) (maxTotal : Nat) : Prop where
  nodup : names.Nodup
  safe : ∀ n ∈ names, safeName n = true
  present : ∀ n ∈ names, src.has n = true
  total : ((tableOf src names).map Entry.size).sum ≤ maxTotal
  bounded : maxTotal < u64Bound

/-- The files that are there are opened under their names. -/
theorem openFiles_eq {src : Dir} {names : List String} (h : ∀ n ∈ names, src.has n = true) :
    ∃ files, openFiles src names = some files ∧ files.map Prod.fst = names ∧
      entries files = tableOf src names ∧ ∀ f ∈ files, src.read f.1 = some f.2 := by
  induction names with
  | nil => exact ⟨[], rfl, rfl, rfl, by simp⟩
  | cons n ns ih =>
      obtain ⟨b, hb⟩ := (src.has_iff_read n).mp (h n List.mem_cons_self)
      obtain ⟨files, hopen, hnames, htable, hread⟩ :=
        ih fun m hm => h m (List.mem_cons_of_mem n hm)
      refine ⟨(n, b) :: files, ?_, ?_, ?_, ?_⟩
      · simp only [openFiles] at hopen ⊢
        simp [hb, hopen]
      · rw [List.map_cons, hnames]
      · simp only [entries, tableOf] at htable ⊢
        rw [List.map_cons, htable, List.map_cons, hb, Option.getD_some]
      · intro f hf
        rcases List.mem_cons.mp hf with rfl | hf
        · exact hb
        · exact hread f hf

/-- Receiving the files whose contents the stream starts with. -/
theorem decodeFiles_eq {maxTotal : Nat} (hmax : maxTotal < u64Bound)
    {files : List (String × Bytes)} (hsafe : ∀ f ∈ files, safeName f.1 = true)
    {total : Nat} (htotal : total + ((entries files).map Entry.size).sum ≤ maxTotal)
    {chunks : List Bytes} {tail : Bytes}
    (hchunks : chunks.flatten = (files.map Prod.snd).flatten ++ tail) (dir : Dir) :
    decodeFiles maxTotal total dir chunks (entries files) =
      (files.foldl (fun d f => d.write f.1 f.2) dir, .ok (files.map Prod.fst)) := by
  induction files generalizing total chunks dir with
  | nil => rfl
  | cons f files ih =>
      obtain ⟨n, b⟩ := f
      have hcons : entries ((n, b) :: files) = ⟨n, b.length⟩ :: entries files := rfl
      rw [hcons, List.map_cons, List.sum_cons] at htotal
      have hnext : total + b.length + ((entries files).map Entry.size).sum ≤ maxTotal := by
        rw [Nat.add_assoc]
        exact htotal
      have hsat : saturatingAdd total b.length = total + b.length := by
        unfold saturatingAdd
        omega
      rw [List.map_cons, List.flatten_cons, List.append_assoc] at hchunks
      obtain ⟨rest, hread, hrest⟩ := readUpTo_append hchunks
      have hsafe' : safeName n = true := hsafe (n, b) List.mem_cons_self
      have hroom : ¬ maxTotal < total + b.length := by omega
      have htail := ih (fun f hf => hsafe f (List.mem_cons_of_mem _ hf)) hnext hrest
        (dir.write n b)
      rw [hcons]
      simp only [decodeFiles, hsat, hread, hsafe', Bool.not_true, Bool.false_or,
        decide_eq_true_eq, if_neg hroom, ne_eq, not_true_eq_false, if_false, htail]
      rfl

/-- The files of a directory after distinct names were written. -/
theorem read_foldl_write {files : List (String × Bytes)} (hnodup : (files.map Prod.fst).Nodup)
    (dir : Dir) (n : String) :
    (files.foldl (fun d f => d.write f.1 f.2) dir).read n =
      match files.find? fun f => f.1 == n with
      | some f => some f.2
      | none => dir.read n := by
  induction files generalizing dir with
  | nil => rfl
  | cons f files ih =>
      obtain ⟨m, b⟩ := f
      rw [List.map_cons, List.nodup_cons] at hnodup
      rw [List.foldl_cons, ih hnodup.2]
      by_cases hn : m = n
      · subst hn
        have hnone : files.find? (fun f => f.1 == m) = none := by
          rw [List.find?_eq_none]
          intro f hf hfm
          apply hnodup.1
          exact List.mem_map.mpr ⟨f, hf, by simpa using hfm⟩
        rw [hnone, List.find?_cons_of_pos (by simp)]
        exact Dir.read_write_self _ _ _
      · rw [List.find?_cons_of_neg (by simpa using hn), Dir.read_write_ne _ _ fun h => hn h.symm]

/-- Written into an empty directory, the files are exactly those of the
source. -/
theorem read_received {src : Dir} {files : List (String × Bytes)}
    (hnodup : (files.map Prod.fst).Nodup) (hread : ∀ f ∈ files, src.read f.1 = some f.2)
    (n : String) :
    Dir.read (files.foldl (fun d f => Dir.write d f.1 f.2) []) n =
      if n ∈ files.map Prod.fst then src.read n else none := by
  rw [read_foldl_write hnodup]
  cases hfind : files.find? fun f => f.1 == n with
  | none =>
      have hnot : n ∉ files.map Prod.fst := by
        intro hmem
        obtain ⟨f, hf, hfn⟩ := List.mem_map.mp hmem
        exact absurd (by simpa using hfn) (List.find?_eq_none.mp hfind f hf)
      rw [if_neg hnot]
      rfl
  | some f =>
      have hf := List.mem_of_find?_eq_some hfind
      have hfn : f.1 = n := by simpa using List.find?_some hfind
      have hmem : n ∈ files.map Prod.fst := List.mem_map.mpr ⟨f, hf, hfn⟩
      rw [if_pos hmem, ← hfn, hread f hf]

/-- What is sent arrives: under any chunking the same message, the same names
in the same order, and exactly those files. -/
def RoundTrips (reader : JsonReader) (x : T) (src : Dir) (names : List String)
    (maxTotal : Nat) : Prop :=
  ∃ body, encode x src names = some body ∧ ∀ chunks : List Bytes, chunks.flatten = body →
    ∃ dir, decode T reader chunks [] maxTotal = (dir, .ok (x, names)) ∧
      ∀ n, dir.read n = if n ∈ names then src.read n else none

theorem size_lt_of_sendable {src : Dir} {names : List String} {maxTotal : Nat}
    (h : Sendable src names maxTotal) : ∀ e ∈ tableOf src names, e.size < u64Bound := by
  intro e he
  have hle : e.size ≤ ((tableOf src names).map Entry.size).sum :=
    List.single_le_sum (by simp) _ (List.mem_map_of_mem he)
  have htotal := h.total
  have hbounded := h.bounded
  omega

/-- A header that is not too large is read back. -/
theorem decode_eq {reader : JsonReader} {x : T} {files : List (String × Bytes)}
    {maxTotal : Nat} {chunks : List Bytes} (hx : Message.Fits x)
    (hsize : ∀ e ∈ entries files, e.size < u64Bound)
    (hhead : (headJson x (entries files)).size ≤ maxHead)
    (hchunks : chunks.flatten = bundle x files) :
    ∃ body, body.flatten = (files.map Prod.snd).flatten ∧
      decode T reader chunks [] maxTotal =
        ((decodeFiles maxTotal 0 [] body (entries files)).1,
          (decodeFiles maxTotal 0 [] body (entries files)).2.map fun names => (x, names)) := by
  have hlength := Json.length_utf8_text (headJson x (entries files))
  have hsmall : (utf8 (headJson x (entries files)).text).length < 2 ^ 32 := by
    simp only [maxHead] at hhead
    omega
  simp only [bundle, Nat.mod_eq_of_lt hsmall, List.append_assoc] at hchunks
  obtain ⟨rest, hlen, hrest⟩ := readExact_append hchunks
  rw [length_toBeBytes] at hlen
  obtain ⟨body, hread, hbody⟩ := readExact_append hrest
  refine ⟨body, hbody, ?_⟩
  have hnot : ¬ maxHead < (utf8 (headJson x (entries files)).text).length := by omega
  have hjson := reader.reads_text _ (headJson_within hx hsize)
  simp only [decode, hlen, fromBeBytes_toBeBytes hsmall, if_neg hnot, hread, hjson,
    Option.bind_some, headFromJson_headJson hx hsize]

/-- A header that is too large is refused, or cut where its length was. -/
theorem decode_too_large (reader : JsonReader) {x : T} {files : List (String × Bytes)}
    (maxTotal : Nat) (hhead : maxHead < (headJson x (entries files)).size) :
    ∃ e, (decode T reader [bundle x files] [] maxTotal).2 = .error e := by
  have hlength := Json.length_utf8_text (headJson x (entries files))
  generalize hj : headJson x (entries files) = j at hlength hhead
  have hbracketed : j.Bracketed := hj ▸ trivial
  generalize hlen : (utf8 j.text).length % 2 ^ 32 = len
  have hlt : len < 2 ^ 32 := hlen ▸ Nat.mod_lt _ (by decide)
  have hflat : ([bundle x files] : List Bytes).flatten =
      toBeBytes len ++ (utf8 j.text ++ (files.map Prod.snd).flatten) := by
    simp only [bundle, hj, hlen, List.flatten_cons, List.flatten_nil, List.append_nil,
      List.append_assoc]
  obtain ⟨rest, hread, hrest⟩ := readExact_append hflat
  rw [length_toBeBytes] at hread
  simp only [decode, hread, fromBeBytes_toBeBytes hlt]
  by_cases hbig : maxHead < len
  · rw [if_pos hbig]
    exact ⟨_, rfl⟩
  · -- the length was cut, so what is read is a beginning of the header
    rw [if_neg hbig]
    have hshort : len < (utf8 j.text).length := by omega
    have hsplit : rest.flatten = (utf8 j.text).take len ++
        ((utf8 j.text).drop len ++ (files.map Prod.snd).flatten) := by
      rw [hrest, ← List.append_assoc, List.take_append_drop]
    have htake : ((utf8 j.text).take len).length = len := by
      rw [List.length_take]
      omega
    obtain ⟨body, hcut, -⟩ := readExact_append hsplit
    rw [htake] at hcut
    have hne : (utf8 j.text).take len ≠ utf8 j.text := by
      intro h
      rw [h] at htake
      omega
    have hnone := reader.refuses_cut j _ hbracketed (List.take_prefix len _) hne
    simp only [hcut, hnone, Option.bind_none]
    exact ⟨_, rfl⟩

/-- A message is read back exactly when its head fits. -/
theorem roundTrips_iff (reader : JsonReader) {x : T} (hx : Message.Fits x) {src : Dir}
    {names : List String} {maxTotal : Nat} (hsend : Sendable src names maxTotal) :
    RoundTrips reader x src names maxTotal ↔ headSize x src names ≤ maxHead := by
  obtain ⟨files, hopen, rfl, htable, hread⟩ := openFiles_eq hsend.present
  have hsize := size_lt_of_sendable hsend
  rw [headSize, ← htable]
  rw [← htable] at hsize
  constructor
  · rintro ⟨body, hbody, hall⟩
    by_contra hbig
    obtain ⟨e, he⟩ := decode_too_large reader maxTotal (Nat.lt_of_not_le hbig)
    simp only [encode, hopen, Option.map_some, Option.some.injEq] at hbody
    obtain ⟨dir, hdir, -⟩ := hall [body] (by simp)
    rw [← hbody, Prod.ext_iff] at hdir
    rw [hdir.2] at he
    cases he
  · intro hhead
    refine ⟨bundle x files, by simp [encode, hopen], fun chunks hchunks => ?_⟩
    obtain ⟨body, hbody, hdecode⟩ := decode_eq hx hsize hhead hchunks
    have hsafe : ∀ f ∈ files, safeName f.1 = true := by
      intro f hf
      exact hsend.safe f.1 (List.mem_map_of_mem hf)
    have htotal : 0 + ((entries files).map Entry.size).sum ≤ maxTotal := by
      rw [Nat.zero_add, htable]
      exact hsend.total
    have hfiles := decodeFiles_eq hsend.bounded hsafe htotal
      (hbody.trans (List.append_nil _).symm) []
    rw [hfiles] at hdecode
    exact ⟨_, hdecode, read_received hsend.nodup hread⟩

end

/-- For every result of a run, every lease and every submission: a bundle
makes the round trip exactly if its header is not too large. -/
theorem wire_round_trip (reader : JsonReader) {src : Dir} {names : List String} {maxTotal : Nat}
    (hsend : Sendable src names maxTotal) :
    (∀ e : RunEnd, RoundTrips reader (runKura e) src names maxTotal ↔
      headSize (runKura e) src names ≤ maxHead) ∧
    (∀ m : LeaseMeta, m.Fits → (RoundTrips reader m src names maxTotal ↔
      headSize m src names ≤ maxHead)) ∧
    ∀ s : Submit, RoundTrips reader s src names maxTotal ↔ headSize s src names ≤ maxHead := by
  refine ⟨fun e => ?_, fun m hm => ?_, fun s => ?_⟩
  · exact roundTrips_iff reader (runKura_fits e) hsend
  · exact roundTrips_iff reader hm hsend
  · exact roundTrips_iff reader (x := s) trivial hsend

/-- A run that greets, sent with its document. -/
def greeting : RunEnd := .exited (some 0) [0x68, 0x69] []

theorem greeting_round_trips :
    Sendable [("out.pdf", [1, 2])] ["out.pdf"] 10 ∧
      RoundTrips JsonReader.exact (runKura greeting) [("out.pdf", [1, 2])] ["out.pdf"] 10 := by
  have hsend : Sendable [("out.pdf", [1, 2])] ["out.pdf"] 10 := by
    refine ⟨by decide, ?_, ?_, by decide, by decide⟩
    · decide
    · decide
  have hrun : runKura greeting = ⟨some 0, "hi", "", false⟩ := by
    simp [greeting, runKura, outCap, errCap, fromUtf8Lossy, firstChar]
  refine ⟨hsend, ((wire_round_trip JsonReader.exact hsend).1 greeting).mpr ?_⟩
  rw [hrun]
  decide

theorem fromUtf8Lossy_replicate (n : Nat) :
    fromUtf8Lossy (List.replicate n 0x61) = List.replicate n 'a' := by
  induction n with
  | zero => simp [fromUtf8Lossy]
  | succ n ih =>
      have hfirst : firstChar 0x61 (List.replicate n 0x61) = ('a', 0) := by
        unfold firstChar
        rw [if_pos (by decide)]
        decide
      rw [List.replicate_succ, fromUtf8Lossy, hfirst, List.drop_zero, ih, List.replicate_succ]

/-- The output of a run is part of the header. -/
theorem quoteSize_le_headSize (r : RunResult) (src : Dir) (names : List String) :
    Json.quoteSize r.out ≤ headSize r src names := by
  have htext : Json.quoteSize r.out ≤ (Message.toJson r).size := by
    simp only [Message.toJson, RunResult.toJson, Json.size, Json.membersSize]
    omega
  simp only [headSize, headJson, Json.size]
  omega

theorem quoteSize_replicate (n : Nat) :
    Json.quoteSize (String.ofList (List.replicate n 'a')) = 2 + n := by
  have hone : Json.escapeSize 'a' = 1 := by decide
  rw [Json.quoteSize, String.toList_ofList, List.map_replicate, hone, List.sum_replicate_nat,
    Nat.mul_one]

/-- A run that writes 64 MiB, a quarter of what is kept. -/
def longRun : RunEnd := .exited (some 0) (List.replicate maxHead 0x61) []

theorem longRun_refused :
    ¬ ∀ (reader : JsonReader) (e : RunEnd) (src : Dir) (names : List String) (maxTotal : Nat),
      Sendable src names maxTotal → RoundTrips reader (runKura e) src names maxTotal := by
  intro hclaim
  have hsend : Sendable [("out.pdf", [1, 2])] ["out.pdf"] 10 := by
    refine ⟨by decide, ?_, ?_, by decide, by decide⟩
    · decide
    · decide
  have htrip := hclaim JsonReader.exact longRun _ _ _ hsend
  have hhead := (roundTrips_iff _ (runKura_fits longRun) hsend).mp htrip
  have hquote := quoteSize_le_headSize (runKura longRun) [("out.pdf", [1, 2])] ["out.pdf"]
  have hout : (runKura longRun).out = String.ofList (List.replicate maxHead 'a') := by
    simp only [longRun, runKura]
    rw [List.take_of_length_le, fromUtf8Lossy_replicate]
    rw [List.length_replicate]
    decide
  rw [hout, quoteSize_replicate] at hquote
  have hlt : ∀ n, ¬ 2 + n ≤ n := by
    intro n
    omega
  exact hlt maxHead (hquote.trans hhead)

end Kura.Server
