import Kura.Engine.InlineImage

/-!
# Images after their repair

What the filter finds in an image it has written itself. A repaired image has
no violation left. An image that was passed through is read again as it was,
so its violations are those of the first time.
-/

namespace Kura.Engine

/-- Objects in which the filter sees no difference. -/
structure Obj.Alike (a b : Obj) : Prop where
  null : a.isNull = b.isNull
  bool : a.bool? = b.bool?
  name : a.name? = b.name?
  names : a.filterNames = b.filterNames

/-- Tokens that do not end the dictionary of an image. -/
def Token.Plain (t : Token) : Prop :=
  t.isWord "ID" = false ∧ t.isWord "EI" = false ∧ t.type ≠ .inlineImage

/-- What qpdf does with texts it has written itself. -/
structure Qpdf.Lawful (q : Qpdf) : Prop where
  /-- White space around the entries of a dictionary does not matter. -/
  parse_blank : ∀ ts, q.parse (.blank :: ts ++ [.blank, .newline]) = q.parse ts
  /-- The entries of a dictionary are read back as they were written. -/
  parse_entries : ∀ d : Dict, ∃ d' : Dict,
    q.parse (entryTokens q d ++ [.blank, .newline]) = some (.dict d') ∧
      ∀ k, (d'.getKey k).Alike (d.getKey k)
  /-- The text of an object has no operators. -/
  unparse_plain : ∀ o, ∀ t ∈ q.unparse o, t.Plain
  /-- The text of a string is well formed. -/
  hexFaults_unparseString : ∀ v, hexFaults (q.unparseString v) = 0
  /-- Valid text survives being made a string. -/
  getUTF8Value_newUnicodeString : ∀ u, validUtf8 u → q.getUTF8Value (q.newUnicodeString u) = u

/-- The entries that are checked hold nothing wrong. -/
structure Dict.Clean (d : Dict) : Prop where
  intent : ∀ n, (d.getKey (lit "/Intent")).name? = some n → n ∈ kValidRi
  short : (d.getKey (lit "/I")).bool? ≠ some true
  long : (d.getKey (lit "/Interpolate")).bool? ≠ some true

theorem Dict.Clean.congr {d d' : Dict} (h : d.Clean)
    (hname : (d'.getKey (lit "/Intent")).name? = (d.getKey (lit "/Intent")).name?)
    (hbool : ∀ k, k = lit "/I" ∨ k = lit "/Interpolate" →
      (d'.getKey k).bool? = (d.getKey k).bool?) : d'.Clean where
  intent := by
    intro n hn
    exact h.intent n (hname ▸ hn)
  short := by
    rw [hbool _ (Or.inl rfl)]
    exact h.short
  long := by
    rw [hbool _ (Or.inr rfl)]
    exact h.long

/-- A repair of one key: the others are untouched and the count says whether there was one. -/
structure Repair.Step (k : Bytes) (r r' : Repair) : Prop where
  others : ∀ j, j ≠ k → r'.dict.getKey j = r.dict.getKey j
  count : r.violations ≤ r'.violations
  same : r'.violations = r.violations → r' = r

theorem Repair.step_intent (r : Repair) : Repair.Step (lit "/Intent") r r.intent := by
  rw [Repair.intent]
  cases h : (r.dict.getKey (lit "/Intent")).name? with
  | none => exact ⟨fun j _ => rfl, le_refl _, fun _ => rfl⟩
  | some n =>
      by_cases hn : n ∈ kValidRi
      · simp only [hn, if_true]
        exact ⟨fun j _ => rfl, le_refl _, fun _ => rfl⟩
      · simp only [hn, if_false]
        refine ⟨?_, by simp, by simp⟩
        intro j hj
        rw [Dict.getKey_replaceKey, if_neg hj]

theorem Repair.step_flag (k : Bytes) (r : Repair) : Repair.Step k r (r.flag k) := by
  rw [Repair.flag]
  by_cases h : (r.dict.getKey k).bool? = some true
  · rw [if_pos h]
    refine ⟨?_, by simp, by simp⟩
    intro j hj
    rw [Dict.getKey_replaceKey, if_neg hj]
  · rw [if_neg h]
    exact ⟨fun j _ => rfl, le_refl _, fun _ => rfl⟩

/-- The intent that is left is a name of the format's list. -/
theorem Repair.intent_valid (r : Repair) {n : Bytes}
    (h : (r.intent.dict.getKey (lit "/Intent")).name? = some n) : n ∈ kValidRi := by
  rw [Repair.intent] at h
  cases hname : (r.dict.getKey (lit "/Intent")).name? with
  | none =>
      rw [hname] at h
      simp only [hname] at h
      cases h
  | some n' =>
      simp only [hname] at h
      by_cases hn : n' ∈ kValidRi
      · rw [if_pos hn, hname] at h
        exact Option.some.inj h ▸ hn
      · rw [if_neg hn, Dict.getKey_replaceKey, if_pos rfl] at h
        have hrel : lit "/RelativeColorimetric" = n := Option.some.inj h
        rw [← hrel]
        decide

theorem Repair.flag_off (k : Bytes) (r : Repair) :
    ((r.flag k).dict.getKey k).bool? ≠ some true := by
  rw [Repair.flag]
  by_cases h : (r.dict.getKey k).bool? = some true
  · rw [if_pos h, Dict.getKey_replaceKey, if_pos rfl]
    simp [Obj.bool?]
  · rw [if_neg h]
    exact h

/-- The keys that are repaired. -/
def repairedKeys : List Bytes := ["/Intent", "/I", "/Interpolate"].map lit

theorem getKey_repairEntries (d : Dict) {k : Bytes} (hk : k ∉ repairedKeys) :
    (repairEntries d).dict.getKey k = d.getKey k := by
  have hne : k ≠ lit "/Intent" ∧ k ≠ lit "/I" ∧ k ≠ lit "/Interpolate" := by
    simpa [repairedKeys] using hk
  rw [repairEntries, (Repair.step_flag _ _).others k hne.2.2,
    (Repair.step_flag _ _).others k hne.2.1, (Repair.step_intent _).others k hne.1]

/-- A repaired dictionary is clean. -/
theorem clean_repairEntries (d : Dict) : (repairEntries d).dict.Clean where
  intent := by
    intro n hn
    rw [repairEntries, (Repair.step_flag _ _).others _ (by decide),
      (Repair.step_flag _ _).others _ (by decide)] at hn
    exact Repair.intent_valid _ hn
  short := by
    rw [repairEntries, (Repair.step_flag _ _).others _ (by decide)]
    exact Repair.flag_off _ _
  long := Repair.flag_off _ _

/-- No violation is counted in a clean dictionary. -/
theorem repairEntries_of_clean {d : Dict} (h : d.Clean) : repairEntries d = ⟨d, 0⟩ := by
  have hintent : Repair.intent ⟨d, 0⟩ = ⟨d, 0⟩ := by
    rw [Repair.intent]
    cases hname : (d.getKey (lit "/Intent")).name? with
    | none => rfl
    | some n => exact if_pos (h.intent n hname)
  have hflag : ∀ k, (d.getKey k).bool? ≠ some true → Repair.flag k ⟨d, 0⟩ = ⟨d, 0⟩ := by
    intro k hk
    rw [Repair.flag, if_neg hk]
  rw [repairEntries, hintent, hflag _ h.short, hflag _ h.long]

/-- Without a violation nothing is changed. -/
theorem dict_repairEntries {d : Dict} (h : (repairEntries d).violations = 0) :
    (repairEntries d).dict = d := by
  have h₁ := Repair.step_intent ⟨d, 0⟩
  have h₂ := Repair.step_flag (lit "/I") (Repair.intent ⟨d, 0⟩)
  have h₃ := Repair.step_flag (lit "/Interpolate") ((Repair.intent ⟨d, 0⟩).flag (lit "/I"))
  have hzero : (repairEntries d).violations =
      (((Repair.intent ⟨d, 0⟩).flag (lit "/I")).flag (lit "/Interpolate")).violations := rfl
  have hc₁ := h₁.count
  have hc₂ := h₂.count
  have hc₃ := h₃.count
  simp only at hc₁
  rw [repairEntries, h₃.same (by omega), h₂.same (by omega), h₁.same (by simp only; omega)]

theorem repairEntries_violations_eq_zero_iff (d : Dict) :
    (repairEntries d).violations = 0 ↔ d.Clean := by
  constructor
  · intro h
    rw [← dict_repairEntries h]
    exact clean_repairEntries d
  · intro h
    rw [repairEntries_of_clean h]

/-- A filter the source has a short name for. -/
def KnownFilter (n : Bytes) : Prop := (kToAbbrev.lookup n).isSome = true

/-- A short name stands for itself. -/
theorem lookup_short {n short : Bytes} (h : kToAbbrev.lookup n = some short) :
    kToAbbrev.lookup short = some short := by
  have hall : ∀ e ∈ kToAbbrev, kToAbbrev.lookup e.2 = some e.2 := by decide
  have hmem : (n, short) ∈ kToAbbrev := by
    obtain ⟨l₁, l₂, heq, -⟩ := List.lookup_eq_some_iff.mp h
    rw [heq]
    simp
  exact hall _ hmem

namespace FilterScan

theorem loop_cons_known (s : FilterScan) {n short : Bytes} (ns : List Bytes)
    (h : kToAbbrev.lookup n = some short) :
    s.loop (n :: ns) = (s.keep n short).loop ns := by
  rw [loop, h]

theorem loop_cons_lzw (s : FilterScan) {n : Bytes} (ns : List Bytes)
    (h : kToAbbrev.lookup n = none) (hlzw : isLzwName n = true) :
    s.loop (n :: ns) = s.sawLzw.loop ns := by
  rw [loop, h]
  exact if_pos hlzw

theorem loop_cons_unknown (s : FilterScan) {n : Bytes} (ns : List Bytes)
    (h : kToAbbrev.lookup n = none) (hlzw : isLzwName n = false) :
    s.loop (n :: ns) = { s with violations := s.violations + 1, unknown := true } := by
  rw [loop, h]
  simp [hlzw]

/-- The violations of the loop never get fewer. -/
theorem violations_le_loop (s : FilterScan) (ns : List Bytes) :
    s.violations ≤ (s.loop ns).violations := by
  induction ns generalizing s with
  | nil => exact le_refl _
  | cons n ns ih =>
      cases h : kToAbbrev.lookup n with
      | some short =>
          rw [loop_cons_known s ns h]
          exact ih (s.keep n short)
      | none =>
          cases hlzw : isLzwName n with
          | true =>
              rw [loop_cons_lzw s ns h hlzw]
              exact Nat.le_of_succ_le (ih s.sawLzw)
          | false =>
              rw [loop_cons_unknown s ns h hlzw]
              exact Nat.le_succ _

/-- The loop counts a violation exactly if a filter has no short name. -/
theorem loop_violations_iff (s : FilterScan) (ns : List Bytes) :
    (s.loop ns).violations = s.violations ↔ ∀ n ∈ ns, KnownFilter n := by
  induction ns generalizing s with
  | nil => simp [loop]
  | cons n ns ih =>
      cases h : kToAbbrev.lookup n with
      | some short =>
          have hcount : (s.keep n short).violations = s.violations := rfl
          rw [loop_cons_known s ns h, ← hcount, ih, List.forall_mem_cons]
          simp [KnownFilter, h]
      | none =>
          have hnot : ¬ ∀ n' ∈ n :: ns, KnownFilter n' := by
            intro hall
            have hn := hall n (by simp)
            simp [KnownFilter, h] at hn
          refine iff_of_false ?_ hnot
          cases hlzw : isLzwName n with
          | true =>
              rw [loop_cons_lzw s ns h hlzw]
              intro heq
              have hle : s.violations + 1 ≤ (s.sawLzw.loop ns).violations :=
                violations_le_loop s.sawLzw ns
              omega
          | false =>
              rw [loop_cons_unknown s ns h hlzw]
              simp

/-- What the loop says about filters it has short names for. -/
theorem loop_of_known (s : FilterScan) {ns : List Bytes} (h : ∀ n ∈ ns, KnownFilter n) :
    (s.loop ns).unknown = s.unknown ∧ (s.loop ns).lzwSeen = s.lzwSeen ∧
      ∀ n ∈ (s.loop ns).outNames, n ∈ s.outNames ∨ kToAbbrev.lookup n = some n := by
  induction ns generalizing s with
  | nil => exact ⟨rfl, rfl, fun n hn => Or.inl hn⟩
  | cons n ns ih =>
      obtain ⟨short, hshort⟩ := Option.isSome_iff_exists.mp (h n (by simp))
      obtain ⟨hunknown, hlzw, hnames⟩ := ih (s.keep n short) fun n' hn' => h n' (by simp [hn'])
      rw [loop_cons_known s ns hshort]
      refine ⟨hunknown, hlzw, ?_⟩
      intro n' hn'
      obtain hmem | hself := hnames n' hn'
      · obtain hmem | hone := List.mem_append.mp hmem
        · exact Or.inl hmem
        · rw [List.mem_singleton.mp hone]
          exact Or.inr (lookup_short hshort)
      · exact Or.inr hself

/-- The loop ends early exactly at a filter that is neither known nor LZW. -/
theorem loop_unknown_iff (s : FilterScan) (ns : List Bytes) (hs : s.unknown = false) :
    (s.loop ns).unknown = true ↔ ∃ n ∈ ns, ¬ KnownFilter n ∧ isLzwName n = false := by
  induction ns generalizing s with
  | nil => simp [loop, hs]
  | cons n ns ih =>
      cases h : kToAbbrev.lookup n with
      | some short =>
          rw [loop_cons_known s ns h, ih (s.keep n short) hs, List.exists_mem_cons_iff]
          simp [KnownFilter, h]
      | none =>
          cases hlzw : isLzwName n with
          | true =>
              rw [loop_cons_lzw s ns h hlzw, ih s.sawLzw hs, List.exists_mem_cons_iff]
              simp [hlzw]
          | false =>
              rw [loop_cons_unknown s ns h hlzw]
              refine iff_of_true rfl ⟨n, by simp, ?_, hlzw⟩
              simp [KnownFilter, h]

/-- Unless the loop ends early, it sees LZW exactly if some filter has no short name. -/
theorem loop_lzwSeen_iff (s : FilterScan) (ns : List Bytes) (hs : s.unknown = false)
    (hend : (s.loop ns).unknown = false) :
    (s.loop ns).lzwSeen = true ↔ s.lzwSeen = true ∨ ¬ ∀ n ∈ ns, KnownFilter n := by
  induction ns generalizing s with
  | nil => simp [loop]
  | cons n ns ih =>
      cases h : kToAbbrev.lookup n with
      | some short =>
          rw [loop_cons_known s ns h] at hend ⊢
          rw [ih (s.keep n short) hs hend, List.forall_mem_cons]
          simp [KnownFilter, h, keep]
      | none =>
          cases hlzw : isLzwName n with
          | true =>
              rw [loop_cons_lzw s ns h hlzw] at hend ⊢
              rw [ih s.sawLzw hs hend, List.forall_mem_cons]
              simp [KnownFilter, h, sawLzw]
          | false =>
              rw [loop_cons_unknown s ns h hlzw] at hend
              cases hend

end FilterScan

theorem filters_repairEntries (d : Dict) : (repairEntries d).dict.filters = d.filters := by
  rw [Dict.filters, Dict.filters, getKey_repairEntries d (by decide),
    getKey_repairEntries d (by decide)]

theorem predictor_repairEntries (d : Dict) : (repairEntries d).dict.predictor = d.predictor := by
  rw [Dict.predictor, Dict.predictor, getKey_repairEntries d (by decide),
    getKey_repairEntries d (by decide)]

/-- The violations counted in the dictionary of an image. -/
def imageViolations (d : Dict) : Nat :=
  (repairEntries d).violations + (FilterScan.loop {} d.filters).violations

theorem imageViolations_eq_zero_iff (d : Dict) :
    imageViolations d = 0 ↔ d.Clean ∧ ∀ n ∈ d.filters, KnownFilter n := by
  have hscan := FilterScan.loop_violations_iff {} d.filters
  rw [imageViolations, Nat.add_eq_zero_iff, repairEntries_violations_eq_zero_iff, ← hscan]

/-- Dictionaries in which the filter sees no difference have the same faults. -/
theorem imageViolations_of_alike {d d' : Dict} (h : ∀ k, (d'.getKey k).Alike (d.getKey k))
    (hd : imageViolations d = 0) : imageViolations d' = 0 := by
  have hfilters : d'.filters = d.filters := by
    rw [Dict.filters, Dict.filters, (h _).null]
    by_cases hnull : (d.getKey (lit "/F")).isNull = true
    · rw [if_pos hnull, if_pos hnull, (h _).names]
    · rw [if_neg hnull, if_neg hnull, (h _).names]
  rw [imageViolations_eq_zero_iff] at hd ⊢
  refine ⟨hd.1.congr (h _).name fun k _ => (h k).bool, ?_⟩
  rw [hfilters]
  exact hd.2

/-- The violations of an image are those of its dictionary. -/
theorem processInlineImage_violations (q : Qpdf) {toks : List Token} {d : Dict} (data : Bytes)
    (h : q.parse toks = some (.dict d)) :
    (processInlineImage q toks data).violations = imageViolations d := by
  rw [processInlineImage, h, imageViolations, ← filters_repairEntries]
  simp only
  split
  · rfl
  · split
    · rfl
    · split <;> rfl

/-- What is no dictionary is passed through without a violation. -/
theorem processInlineImage_of_no_dict (q : Qpdf) {toks : List Token} (data : Bytes)
    (h : ∀ d, q.parse toks ≠ some (.dict d)) :
    processInlineImage q toks data = ⟨0, imageTokens (.blank :: toks) data, false⟩ := by
  rw [processInlineImage]
  split
  · rename_i d hd
    exact absurd hd (h d)
  · rfl

/-- An image whose LZW data is left as it is. -/
def LzwRefused (q : Qpdf) (d : Dict) (data : Bytes) : Prop :=
  d.filters.length ≠ 1 ∨ (lzwDecode data).2 = false ∨ (lzwDecode data).1 = [] ∨
    (1 < d.predictor ∧ q.flateCompress (lzwDecode data).1 = [])

theorem replaceLzw_eq_none_iff (q : Qpdf) (d : Dict) (data : Bytes) :
    replaceLzw q d d.filters data = none ↔ LzwRefused q d data := by
  rw [replaceLzw, LzwRefused]
  by_cases hlen : d.filters.length = 1
  · by_cases hok : (lzwDecode data).2 = true
    · by_cases hraw : (lzwDecode data).1 = []
      · simp [hlen, hraw]
      · by_cases hpred : 1 < d.predictor <;>
          by_cases hpacked : q.flateCompress (lzwDecode data).1 = [] <;>
          simp [hlen, hok, hraw, hpred, hpacked]
        split <;> simp
    · simp [hlen, hok]
  · simp [hlen]

/-- The image that replaces one with LZW data. -/
theorem replaceLzw_some {q : Qpdf} {d : Dict} {names : List Bytes} {data : Bytes} {i : ImageData}
    (h : replaceLzw q d names data = some i) :
    (∀ k ∈ repairedKeys, i.dict.getKey k = d.getKey k) ∧
      ∀ n ∈ i.outNames, kToAbbrev.lookup n = some n := by
  have hkeys : ∀ k ∈ repairedKeys, k ≠ lit "/DP" ∧ k ≠ lit "/DecodeParms" := by decide
  have hrest : ∀ must : Bool, ∀ k ∈ repairedKeys,
      (if must then d else (d.removeKey (lit "/DP")).removeKey (lit "/DecodeParms")).getKey k =
        d.getKey k := by
    intro must k hk
    cases must with
    | true => rfl
    | false =>
        obtain ⟨hdp, hparms⟩ := hkeys k hk
        simp only [Bool.false_eq_true, if_false]
        rw [Dict.getKey_removeKey, if_neg hparms, Dict.getKey_removeKey, if_neg hdp]
  have hflate : kToAbbrev.lookup (lit "/Fl") = some (lit "/Fl") := by decide
  rw [replaceLzw] at h
  simp only at h
  split at h
  · cases h
  · split at h
    · cases h
    · split at h
      · cases h
        refine ⟨hrest _, ?_⟩
        intro n hn
        rw [List.mem_singleton.mp hn]
        exact hflate
      · split at h
        · cases h
          refine ⟨hrest _, ?_⟩
          intro n hn
          cases hn
        · cases h

theorem filters_setFilters {d : Dict} (ns : List Bytes) (hF : d.getKey (lit "/F") = .null)
    (hFilter : d.getKey (lit "/Filter") = .null) : (d.setFilters ns).filters = ns := by
  have hname : ∀ ns : List Bytes, (ns.map Obj.name).map Obj.nameOf = ns := by
    intro ns
    rw [List.map_map]
    exact List.map_id ns
  rw [Dict.filters]
  match ns with
  | [] => simp [Dict.setFilters, hF, hFilter, Obj.isNull, Obj.filterNames]
  | [n] => simp [Dict.setFilters, Dict.getKey_replaceKey, Obj.isNull, Obj.filterNames]
  | n₁ :: n₂ :: ns =>
      simp only [Dict.setFilters, Dict.getKey_replaceKey, if_true, Obj.isNull, Bool.false_eq_true,
        if_false, Obj.filterNames]
      exact hname _

theorem getKey_setFilters (d : Dict) (ns : List Bytes) {k : Bytes} (hk : k ≠ lit "/F") :
    (d.setFilters ns).getKey k = d.getKey k := by
  match ns with
  | [] => rfl
  | [n] => rw [Dict.setFilters, Dict.getKey_replaceKey, if_neg hk]
  | n₁ :: n₂ :: ns => simp only [Dict.setFilters, Dict.getKey_replaceKey, if_neg hk]

namespace ImageData

/-- The keys that are read in the second run are those of the image. -/
theorem getKey_close (i : ImageData) {k : Bytes} (hk : k ∈ repairedKeys) :
    i.close.dict.getKey k = i.dict.getKey k := by
  have hkeys : ∀ k ∈ repairedKeys, k ≠ lit "/F" ∧ k ≠ lit "/Filter" ∧ k ≠ lit "/L" ∧
      k ≠ lit "/Length" := by decide
  obtain ⟨hF, hFilter, hL, hLength⟩ := hkeys k hk
  rw [close]
  split
  · simp only [getKey_setFilters _ _ hF, Dict.getKey_removeKey, if_neg hF, if_neg hFilter,
      if_neg hL, if_neg hLength]
  · simp only [getKey_setFilters _ _ hF, Dict.getKey_removeKey, if_neg hF, if_neg hFilter,
      if_neg hL, if_neg hLength]

theorem filters_close (i : ImageData) : i.close.dict.filters = i.close.outNames := by
  have hF : lit "/F" ≠ lit "/Filter" ∧ lit "/F" ≠ lit "/L" ∧ lit "/F" ≠ lit "/Length" := by decide
  have hFilter : lit "/Filter" ≠ lit "/L" ∧ lit "/Filter" ≠ lit "/Length" := by decide
  rw [close]
  split
  · apply filters_setFilters
    · rw [Dict.getKey_removeKey, if_neg hF.1, Dict.getKey_removeKey, if_pos rfl]
    · rw [Dict.getKey_removeKey, if_pos rfl]
  · apply filters_setFilters
    · rw [Dict.getKey_removeKey, if_neg hF.2.2, Dict.getKey_removeKey, if_neg hF.2.1,
        Dict.getKey_removeKey, if_neg hF.1, Dict.getKey_removeKey, if_pos rfl]
    · rw [Dict.getKey_removeKey, if_neg hFilter.2, Dict.getKey_removeKey, if_neg hFilter.1,
        Dict.getKey_removeKey, if_pos rfl]

theorem known_outNames_close (i : ImageData) (h : ∀ n ∈ i.outNames, kToAbbrev.lookup n = some n)
    {n : Bytes} (hn : n ∈ i.close.outNames) : KnownFilter n := by
  have hhex : KnownFilter (lit "/AHx") := by
    show (kToAbbrev.lookup (lit "/AHx")).isSome = true
    decide
  have hown : ∀ n ∈ i.outNames, KnownFilter n := by
    intro n hn
    rw [KnownFilter, h n hn]
    rfl
  rw [close] at hn
  split at hn
  · obtain rfl | hmem := List.mem_cons.mp hn
    · exact hhex
    · exact hown n hmem
  · exact hown n hn

/-- An image with clean entries and short names has no violation when it is read again. -/
theorem imageViolations_close {i : ImageData} {d : Dict} (hd : d.Clean)
    (hkeys : ∀ k ∈ repairedKeys, i.dict.getKey k = d.getKey k)
    (hnames : ∀ n ∈ i.outNames, kToAbbrev.lookup n = some n) :
    imageViolations i.close.dict = 0 := by
  rw [imageViolations_eq_zero_iff]
  have hsame : ∀ k ∈ repairedKeys, i.close.dict.getKey k = d.getKey k := by
    intro k hk
    rw [i.getKey_close hk, hkeys k hk]
  constructor
  · apply hd.congr
    · rw [hsame _ (by decide)]
    · intro k hk
      obtain rfl | rfl := hk
      · rw [hsame _ (by decide)]
      · rw [hsame _ (by decide)]
  · intro n hn
    rw [i.filters_close] at hn
    exact i.known_outNames_close hnames hn

end ImageData

/-- An image with violations that is passed through. -/
def ImageStuck (q : Qpdf) (toks : List Token) (data : Bytes) : Prop :=
  ∃ d : Dict, q.parse toks = some (.dict d) ∧
    ((∃ n ∈ d.filters, ¬ KnownFilter n ∧ isLzwName n = false) ∨
      ((∃ n ∈ d.filters, ¬ KnownFilter n) ∧ LzwRefused q d data))

/-- What can become of an image: it is passed through, or repaired so that no violation is
left. -/
def ImageOutcome (q : Qpdf) (toks : List Token) (data : Bytes) (p : ImageFix) : Prop :=
  (p.written = imageTokens (.blank :: toks) data ∧
    (p.violations = 0 ↔ ¬ ImageStuck q toks data)) ∨
  (∃ d data', p.written = imageTokens (entryTokens q d) data' ∧ imageViolations d = 0 ∧
    ¬ ImageStuck q toks data)

section Dictionaries

variable {q : Qpdf} {toks : List Token} {d : Dict} (data : Bytes)

/-- An image with a filter that is not known. -/
theorem outcome_of_unknown (hd : q.parse toks = some (.dict d))
    (h : ∃ n ∈ d.filters, ¬ KnownFilter n ∧ isLzwName n = false) :
    ImageOutcome q toks data (processInlineImage q toks data) := by
  have hend : (FilterScan.loop {} (repairEntries d).dict.filters).unknown = true := by
    rw [filters_repairEntries]
    exact (FilterScan.loop_unknown_iff {} d.filters rfl).mpr h
  have hstuck : ImageStuck q toks data := ⟨d, hd, Or.inl h⟩
  refine Or.inl ⟨?_, ?_⟩
  · rw [processInlineImage, hd]
    simp only [hend, if_true]
  · rw [processInlineImage_violations q data hd, imageViolations_eq_zero_iff]
    refine iff_of_false ?_ (not_not_intro hstuck)
    rintro ⟨-, hknown⟩
    obtain ⟨n, hn, hnot, -⟩ := h
    exact hnot (hknown n hn)

/-- An image with LZW data. -/
theorem outcome_of_lzw (hd : q.parse toks = some (.dict d))
    (hend : (FilterScan.loop {} d.filters).unknown = false)
    (h : ¬ ∀ n ∈ d.filters, KnownFilter n) :
    ImageOutcome q toks data (processInlineImage q toks data) := by
  have hlzw : (FilterScan.loop {} d.filters).lzwSeen = true :=
    (FilterScan.loop_lzwSeen_iff {} d.filters rfl hend).mpr (Or.inr h)
  have hrefused : replaceLzw q (repairEntries d).dict d.filters data = none ↔
      LzwRefused q d data := by
    rw [← filters_repairEntries d, replaceLzw_eq_none_iff, LzwRefused, LzwRefused,
      filters_repairEntries, predictor_repairEntries]
  have hexists : ∃ n ∈ d.filters, ¬ KnownFilter n := by
    simpa only [not_forall, exists_prop] using h
  cases hrepack : replaceLzw q (repairEntries d).dict d.filters data with
  | none =>
      have hstuck : ImageStuck q toks data := ⟨d, hd, Or.inr ⟨hexists, hrefused.mp hrepack⟩⟩
      refine Or.inl ⟨?_, ?_⟩
      · rw [processInlineImage, hd]
        simp only [filters_repairEntries, hend, hlzw, hrepack, Bool.false_eq_true, if_false,
          if_true]
      · rw [processInlineImage_violations q data hd, imageViolations_eq_zero_iff]
        exact iff_of_false (fun hclean => h hclean.2) (not_not_intro hstuck)
  | some i =>
      obtain ⟨hkeys, hnames⟩ := replaceLzw_some hrepack
      refine Or.inr ⟨i.close.dict, i.close.data, ?_, ?_, ?_⟩
      · rw [processInlineImage, hd]
        simp only [filters_repairEntries, hend, hlzw, hrepack, Bool.false_eq_true, if_false,
          if_true, Bool.or_true]
      · exact ImageData.imageViolations_close (clean_repairEntries d) hkeys hnames
      · rintro ⟨d', hd', hcause⟩
        obtain rfl : d = d' := by simpa [hd] using hd'
        obtain hunknown | ⟨-, hno⟩ := hcause
        · rw [(FilterScan.loop_unknown_iff {} d.filters rfl).mpr hunknown] at hend
          cases hend
        · rw [hrefused.mpr hno] at hrepack
          cases hrepack

/-- An image whose filters have short names. -/
theorem outcome_of_known (hd : q.parse toks = some (.dict d))
    (h : ∀ n ∈ d.filters, KnownFilter n) :
    ImageOutcome q toks data (processInlineImage q toks data) := by
  obtain ⟨hend, hlzw, hnames⟩ := FilterScan.loop_of_known {} h
  have hfree : ¬ ImageStuck q toks data := by
    rintro ⟨d', hd', hcause⟩
    obtain rfl : d = d' := by simpa [hd] using hd'
    obtain ⟨n, hn, hnot, -⟩ | ⟨⟨n, hn, hnot⟩, -⟩ := hcause
    · exact hnot (h n hn)
    · exact hnot (h n hn)
  by_cases hchanged : (FilterScan.loop {} d.filters).filterChanged = true ∨
      0 < (repairEntries d).violations
  · have hcond : ((FilterScan.loop {} d.filters).filterChanged ||
        decide (0 < (repairEntries d).violations)) = true := by simpa using hchanged
    let i : ImageData :=
      ⟨(repairEntries d).dict, data, (FilterScan.loop {} d.filters).outNames⟩
    refine Or.inr ⟨i.close.dict, i.close.data, ?_, ?_, hfree⟩
    · rw [processInlineImage, hd]
      simp only [filters_repairEntries, hend, hlzw, Bool.false_eq_true, if_false, Bool.or_false,
        hcond, if_true, i]
    · apply ImageData.imageViolations_close (clean_repairEntries d)
      · intro k _
        rfl
      · intro n hn
        obtain hnil | hself := hnames n hn
        · cases hnil
        · exact hself
  · have hcond : ((FilterScan.loop {} d.filters).filterChanged ||
        decide (0 < (repairEntries d).violations)) = false := by simpa using hchanged
    refine Or.inl ⟨?_, ?_⟩
    · rw [processInlineImage, hd]
      simp only [filters_repairEntries, hend, hlzw, Bool.false_eq_true, if_false, Bool.or_false,
        hcond]
    · rw [processInlineImage_violations q data hd, imageViolations_eq_zero_iff,
        ← repairEntries_violations_eq_zero_iff]
      exact iff_of_true ⟨by omega, h⟩ hfree

end Dictionaries

/-- An image is passed through, or repaired so that no violation is left. -/
theorem processInlineImage_outcome (q : Qpdf) (toks : List Token) (data : Bytes) :
    ImageOutcome q toks data (processInlineImage q toks data) := by
  by_cases hdict : ∃ d : Dict, q.parse toks = some (.dict d)
  · obtain ⟨d, hd⟩ := hdict
    by_cases hknown : ∀ n ∈ d.filters, KnownFilter n
    · exact outcome_of_known data hd hknown
    · cases hend : (FilterScan.loop {} d.filters).unknown with
      | true =>
          apply outcome_of_unknown data hd
          exact (FilterScan.loop_unknown_iff {} d.filters rfl).mp hend
      | false => exact outcome_of_lzw data hd hend hknown
  · have hnone : ∀ d, q.parse toks ≠ some (.dict d) := fun d hd => hdict ⟨d, hd⟩
    rw [processInlineImage_of_no_dict q data hnone]
    refine Or.inl ⟨rfl, iff_of_true rfl ?_⟩
    rintro ⟨d, hd, -⟩
    exact hnone d hd

/-- The tokens between the operators of a written image, and the violations found in it when
it is read again. -/
theorem processInlineImage_again {q : Qpdf} (hq : q.Lawful) {toks : List Token} (data : Bytes)
    (hplain : ∀ t ∈ toks, t.Plain) :
    ∃ entries data', (processInlineImage q toks data).written = imageTokens entries data' ∧
      (∀ t ∈ entries, t.Plain) ∧
      ∀ again, ((processInlineImage q (entries ++ [.blank, .newline]) again).violations = 0 ↔
        ¬ ImageStuck q toks data) := by
  have hblank : Token.Plain .blank := by
    refine ⟨?_, ?_, ?_⟩ <;> decide
  obtain ⟨hwritten, hcount⟩ | ⟨d, data', hwritten, hzero, hfree⟩ :=
    processInlineImage_outcome q toks data
  · refine ⟨_, data, hwritten, ?_, ?_⟩
    · intro t ht
      obtain rfl | hmem := List.mem_cons.mp ht
      · exact hblank
      · exact hplain t hmem
    · intro again
      rw [← hcount]
      have hparse := hq.parse_blank toks
      by_cases hdict : ∃ d, q.parse toks = some (.dict d)
      · obtain ⟨d, hd⟩ := hdict
        rw [processInlineImage_violations q again (hparse.trans hd),
          processInlineImage_violations q data hd]
      · have hnone : ∀ d, q.parse toks ≠ some (.dict d) := fun d hd => hdict ⟨d, hd⟩
        rw [processInlineImage_of_no_dict q data hnone,
          processInlineImage_of_no_dict q again fun d hd => hnone d (hparse.symm.trans hd)]
  · refine ⟨_, data', hwritten, ?_, ?_⟩
    · intro t ht
      obtain ⟨k, -, hmem⟩ := List.mem_flatMap.mp ht
      obtain hmem | hmem := List.mem_append.mp hmem
      · simp only [List.mem_cons, List.not_mem_nil, or_false] at hmem
        obtain rfl | rfl | rfl := hmem
        · exact hblank
        · exact ⟨rfl, rfl, by simp [Token.plain]⟩
        · exact hblank
      · exact hq.unparse_plain _ t hmem
    · intro again
      obtain ⟨d', hd', halike⟩ := hq.parse_entries d
      rw [processInlineImage_violations q again hd']
      exact iff_of_true (imageViolations_of_alike halike hzero) hfree

end Kura.Engine
