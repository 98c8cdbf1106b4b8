import Kura.Engine.Operands

/-!
# Saving and restoring the graphics state

The filter drops each `q` below the 28th level and the `Q` that closes it. Two
counters stand for the levels that are open: the first is the number of levels
up to 28, the second is the number of those that are dropped.
-/

namespace Kura.Engine

open Base (Delim Nested level)

/-- The deepest level that is kept. -/
def kMaxLevel : Nat := 28

/-- Whether an operator opens or closes a level. -/
def OpKind.saves : OpKind → List (Delim Unit)
  | .word w => if w = lit "q" then [.opener ()] else if w = lit "Q" then [.closer ()] else []
  | _ => []

/-- The levels that operators open and close. -/
def saves (os : List Operator) : List (Delim Unit) := os.flatMap fun o => o.kind.saves

namespace ContentFixFilter

open ContentReader (readAll)

/-- The levels that a stream opens and closes. -/
def nesting (ts : List Token) : List (Delim Unit) := saves (readAll ts).operators

/-- The level that a token of a stream opens or closes. -/
def saveAt (toks : List Token) (i : Nat) : List (Delim Unit) :=
  (nesting (toks.take (i + 1))).drop (nesting (toks.take i)).length

/-- A token of a stream is dropped: it adds nothing to the text of the filter. -/
def Removed (q : Qpdf) (m : FixMode) (toks : List Token) (i : Nat) : Prop :=
  (run q m (toks.take (i + 1))).text = (run q m (toks.take i)).text

instance (q : Qpdf) (m : FixMode) (toks : List Token) (i : Nat) :
    Decidable (Removed q m toks i) := inferInstanceAs (Decidable (_ = _))

/-- One token opens the level that another one closes: there are only pairs between them. -/
structure Closes (toks : List Token) (i j : Nat) : Prop where
  opens : saveAt toks i = [.opener ()]
  closes : saveAt toks j = [.closer ()]
  between : ∃ u, Nested u ∧ nesting (toks.take j) = nesting (toks.take (i + 1)) ++ u

/-- The levels of the tokens that are not dropped, in the order of the stream. -/
def kept (q : Qpdf) (m : FixMode) (toks : List Token) : List (Delim Unit) :=
  (List.range toks.length).flatMap fun i => if Removed q m toks i then [] else saveAt toks i

variable {q : Qpdf} {m : FixMode} {s s' : ContentFixFilter} {t : Token}

theorem saves_append (os os' : List Operator) : saves (os ++ os') = saves os ++ saves os' :=
  List.flatMap_append

theorem saves_congr {os os' : List Operator} (h : List.Forall₂ (Operator.Kept q m) os os') :
    saves os = saves os' := by
  induction h with
  | nil => rfl
  | cons hone _ ih =>
      simp only [saves, List.flatMap_cons] at ih ⊢
      rw [hone.1, ih]

theorem take_succ_eq {toks : List Token} {i : Nat} (hi : i < toks.length) :
    toks.take (i + 1) = toks.take i ++ [toks[i]] := (List.take_append_getElem hi).symm

/-- What one more token does to the operators: it adds none, or one that is dropped exactly if the
text of the filter stays as it is. -/
inductive OperatorStep (q : Qpdf) (m : FixMode) (toks : List Token) (t : Token) : Prop
  | none (hops : (readAll (toks ++ [t])).operators = (readAll toks).operators)
  | one (o : Operator) (hops : (readAll (toks ++ [t])).operators = (readAll toks).operators ++ [o])
      (htext : (run q m (toks ++ [t])).text = (run q m toks).text ↔
        Attribution.Dropped m (readAll toks).operators o)

theorem length_of_intent {k : OpKind} {ts : List Token} (h : ts = s.text ∨ IntentText q s k ts) :
    ts.length = s.text.length := by
  obtain rfl | ⟨-, n, hn, -, rfl⟩ := h
  · rfl
  · rw [text_of_held hn, List.length_append, List.length_append]
    rfl

/-- One operator, taken apart. -/
theorem operatorStep (hq : q.Lawful) (toks : List Token) (t : Token) :
    OperatorStep q m toks t := by
  have hnest := (operands_run (m := m) hq toks).nest
  obtain ⟨hmoved, -, -⟩ := moved_run (m := m) hq toks t
  cases hmoved with
  | part hbi heffect hr =>
      rw [ContentReader.part] at hr
      cases heffect with
      | blank hrole htext hsame =>
          rw [hrole] at hr
          exact .none (by rw [hr])
      | operand hrole hrole' hclamped htext hsame =>
          rw [hrole] at hr
          exact .none (by rw [hr])
      | bracket hrole htext hdepth hnest' =>
          rw [hrole] at hr
          exact .none (by rw [hr]; rfl)
      | @dropped k hrole hdrops htext hdepth hnest' =>
          rw [hrole] at hr
          refine .one ⟨k, (readAll toks).pending⟩ (by rw [hr]; rfl) ?_
          rw [Attribution.Dropped, ← hnest]
          exact iff_of_true htext hdrops
      | @written k ts hrole hdrops hts htext hdepth hnest' =>
          rw [hrole] at hr
          refine .one ⟨k, (readAll toks).pending⟩ (by rw [hr]; rfl) ?_
          rw [Attribution.Dropped, ← hnest]
          refine iff_of_false (fun h => ?_) (ne_true_of_eq_false hdrops)
          have hlen := congrArg List.length (htext.symm.trans h)
          rw [List.length_append, length_of_intent hts] at hlen
          exact absurd hlen (Nat.succ_ne_self _)
  | @image ts p hr htext hread hsame =>
      refine .one ⟨.image, (readAll toks).pending⟩ (by rw [hr]; rfl) ?_
      refine iff_of_false (fun h => ?_) Bool.false_ne_true
      -- What is written for an image is read as an operator, so it is not empty.
      have hempty : ts = [] := by
        rw [htext] at h
        exact List.append_right_eq_self.mp h
      have hnone := congrArg ContentReader.operators (hread {} rfl)
      rw [hempty] at hnone
      cases hnone
  | skip p hr htext hsame => exact .none (by rw [hr])

/-- The counters stand for the levels that are open in the stream, and the text has those of them
that are not too deep. -/
structure Levels (n : Nest) (w v : List (Delim Unit)) : Prop where
  depth : n.depth = min (level w) kMaxLevel
  suppressed : n.suppressed = level w - kMaxLevel
  text : level v = min (level w) kMaxLevel
  shallow : ∀ u, u <+: v → level u ≤ kMaxLevel

/-- An operator opens a level, closes one, or does neither. -/
theorem saves_cases (k : OpKind) :
    k = .word (lit "q") ∨ k = .word (lit "Q") ∨ (k.saves = [] ∧ ∀ n : Nest, n.after m k = n) := by
  cases k with
  | word w =>
      by_cases hq : w = lit "q"
      · exact Or.inl (congrArg _ hq)
      by_cases hQ : w = lit "Q"
      · exact Or.inr (Or.inl (congrArg _ hQ))
      · refine Or.inr (Or.inr ⟨?_, fun n => ?_⟩)
        · simp [OpKind.saves, hq, hQ]
        · simp [Nest.after, hq, hQ]
  | image => exact Or.inr (Or.inr ⟨rfl, fun _ => rfl⟩)
  | invalid => exact Or.inr (Or.inr ⟨rfl, fun _ => rfl⟩)

section Step

variable {n : Nest} {w v : List (Delim Unit)} (hlimits : m.limits = true) (h : Levels n w v)
include hlimits h

theorem Levels.drops_save : n.drops m (.word (lit "q")) = true ↔ kMaxLevel ≤ level w := by
  have hdrops : n.drops m (.word (lit "q")) = true ↔ kMaxLevel ≤ n.depth := by
    simp [Nest.drops, hlimits, kMaxLevel]
  rw [hdrops, h.depth, le_min_iff, and_iff_left le_rfl]

theorem Levels.drops_restore : n.drops m (.word (lit "Q")) = true ↔ kMaxLevel < level w := by
  have hne : lit "Q" ≠ lit "q" := by decide
  have hdrops : n.drops m (.word (lit "Q")) = true ↔ 0 < n.suppressed := by
    simp [Nest.drops, hlimits, hne]
  rw [hdrops, h.suppressed, Nat.sub_pos_iff_lt]

/-- One operator; a level is written unless it is dropped. -/
theorem Levels.step (k : OpKind) :
    Levels (n.after m k) (w ++ k.saves) (v ++ if n.drops m k then [] else k.saves) := by
  have hne : lit "Q" ≠ lit "q" := by decide
  have hmax : kMaxLevel = 28 := rfl
  obtain ⟨hdepth, hsuppressed, htext, hshallow⟩ := id h
  obtain rfl | rfl | ⟨hsaves, hafter⟩ := saves_cases (m := m) k
  · have hopen : (OpKind.word (lit "q")).saves = [.opener ()] := by
      rw [OpKind.saves, if_pos rfl]
    rw [hopen]
    by_cases hdrops : n.drops m (.word (lit "q")) = true
    · have hdeep := (h.drops_save hlimits).mp hdrops
      have hafter : n.after m (.word (lit "q")) = { n with suppressed := n.suppressed + 1 } := by
        simp only [Nest.after, hlimits, true_and, if_true]
        exact if_pos (by omega)
      rw [if_pos hdrops, hafter, List.append_nil]
      refine ⟨?_, ?_, ?_, hshallow⟩
      all_goals simp only [Base.level_opener]
      all_goals omega
    · have hdeep := mt (h.drops_save hlimits).mpr hdrops
      have hafter : n.after m (.word (lit "q")) = { n with depth := n.depth + 1 } := by
        simp only [Nest.after, hlimits, true_and, if_true]
        exact if_neg (by omega)
      rw [if_neg hdrops, hafter]
      refine ⟨?_, ?_, ?_, ?_⟩
      · simp only [Base.level_opener]
        omega
      · simp only [Base.level_opener]
        omega
      · simp only [Base.level_opener]
        omega
      · intro u hu
        obtain rfl | hu := List.prefix_concat_iff.mp hu
        · rw [Base.level_opener]
          omega
        · exact hshallow u hu
  · have hclose : (OpKind.word (lit "Q")).saves = [.closer ()] := by
      rw [OpKind.saves, if_neg hne, if_pos rfl]
    rw [hclose]
    by_cases hdrops : n.drops m (.word (lit "Q")) = true
    · have hdeep := (h.drops_restore hlimits).mp hdrops
      have hafter : n.after m (.word (lit "Q")) = { n with suppressed := n.suppressed - 1 } := by
        simp only [Nest.after, hlimits, hne, true_and, and_false, if_false, if_true]
        exact if_pos (by omega)
      rw [if_pos hdrops, hafter, List.append_nil]
      refine ⟨?_, ?_, ?_, hshallow⟩
      all_goals simp only [Base.level_closer]
      all_goals omega
    · have hdeep := mt (h.drops_restore hlimits).mpr hdrops
      have hafter : n.after m (.word (lit "Q")) = { n with depth := n.depth - 1 } := by
        simp only [Nest.after, hlimits, hne, true_and, and_false, if_false, if_true]
        exact if_neg (by omega)
      rw [if_neg hdrops, hafter]
      refine ⟨?_, ?_, ?_, ?_⟩
      · simp only [Base.level_closer]
        omega
      · simp only [Base.level_closer]
        omega
      · simp only [Base.level_closer]
        omega
      · intro u hu
        obtain rfl | hu := List.prefix_concat_iff.mp hu
        · rw [Base.level_closer]
          omega
        · exact hshallow u hu
  · rw [hsaves, ite_self, List.append_nil, List.append_nil, hafter]
    exact h

end Step

/-- The levels after all operators of a stream. -/
theorem levels_assign (hlimits : m.limits = true) (os : List Operator) :
    Levels (Attribution.assign m os).nest (saves os) (saves (Attribution.assign m os).merged) := by
  induction os using List.reverseRecOn with
  | nil =>
      refine ⟨rfl, rfl, rfl, fun u hu => ?_⟩
      rw [List.prefix_nil.mp hu]
      exact Nat.zero_le _
  | append_singleton os o ih =>
      have hone : saves [o] = o.kind.saves := List.append_nil _
      have hstep := ih.step hlimits o.kind
      rw [Attribution.assign_concat, Attribution.nest_step, saves_append, hone]
      cases hdrops : (Attribution.assign m os).nest.drops m o.kind with
      | true =>
          rw [hdrops, if_pos rfl, List.append_nil] at hstep
          rw [Attribution.step_dropped hdrops]
          exact hstep
      | false =>
          have hmerged : saves [⟨o.kind, (Attribution.assign m os).carried ++ o.operands⟩] =
              o.kind.saves := List.append_nil _
          rw [hdrops, if_neg Bool.false_ne_true] at hstep
          rw [Attribution.step_written hdrops, saves_append, hmerged]
          exact hstep

theorem nesting_text (hq : q.Lawful) (toks : List Token) :
    nesting (run q m toks).text = saves (Attribution.assign m (readAll toks).operators).merged :=
  (saves_congr (operands_run hq toks).operators).symm

section Stream

variable {toks : List Token} {i j : Nat}

/-- What a token of a stream does, by its place. -/
theorem operatorStep_at (hq : q.Lawful) (hi : i < toks.length) :
    (saveAt toks i = [] ∧ nesting (toks.take (i + 1)) = nesting (toks.take i)) ∨
      ∃ o : Operator, saveAt toks i = o.kind.saves ∧
        nesting (toks.take (i + 1)) = nesting (toks.take i) ++ o.kind.saves ∧
        (Removed q m toks i ↔ Attribution.Dropped m (readAll (toks.take i)).operators o) := by
  have htake := take_succ_eq hi
  cases operatorStep (m := m) hq (toks.take i) toks[i] with
  | none hops =>
      have hsame : nesting (toks.take (i + 1)) = nesting (toks.take i) := by
        rw [htake, nesting, hops, nesting]
      exact Or.inl ⟨by rw [saveAt, hsame, List.drop_length], hsame⟩
  | one o hops htext =>
      have hone : nesting (toks.take (i + 1)) = nesting (toks.take i) ++ o.kind.saves := by
        rw [htake, nesting, hops, saves_append, nesting]
        exact congrArg _ (List.append_nil _)
      refine Or.inr ⟨o, by rw [saveAt, hone, List.drop_left], hone, ?_⟩
      rw [Removed, htake]
      exact htext

theorem saveAt_of_le (hi : toks.length ≤ i) : saveAt toks i = [] := by
  rw [saveAt, List.take_of_length_le hi, List.take_of_length_le (by omega), List.drop_length]

theorem lt_of_saveAt {d : Delim Unit} (h : saveAt toks i = [d]) : i < toks.length := by
  by_contra hi
  rw [saveAt_of_le (by omega)] at h
  cases h

theorem nesting_take_succ (hq : q.Lawful) (toks : List Token) (i : Nat) :
    nesting (toks.take (i + 1)) = nesting (toks.take i) ++ saveAt toks i := by
  obtain hi | hi := Nat.lt_or_ge i toks.length
  · obtain ⟨hnone, hsame⟩ | ⟨o, hone, hnext, -⟩ :=
        operatorStep_at (m := ⟨false, false, false⟩) hq hi
    · rw [hnone, hsame, List.append_nil]
    · rw [hone, hnext]
  · rw [saveAt_of_le hi, List.take_of_length_le hi, List.take_of_length_le (by omega),
      List.append_nil]

/-- A level that is opened is dropped below the last level that is kept. -/
theorem removed_save (hq : q.Lawful) (hlimits : m.limits = true)
    (h : saveAt toks i = [.opener ()]) :
    Removed q m toks i ↔ kMaxLevel ≤ level (nesting (toks.take i)) := by
  obtain ⟨hnone, -⟩ | ⟨o, hone, -, hremoved⟩ := operatorStep_at (m := m) hq (lt_of_saveAt h)
  · rw [hnone] at h
    cases h
  have hkind : o.kind = .word (lit "q") := by
    rw [hone] at h
    obtain hk | hk | ⟨hk, -⟩ := saves_cases (m := m) o.kind
    · exact hk
    · rw [hk] at h
      cases h
    · rw [hk] at h
      cases h
  rw [hremoved, Attribution.Dropped, hkind, (levels_assign hlimits _).drops_save hlimits, nesting]

/-- A level that is closed is dropped if it is below the last level that is kept. -/
theorem removed_restore (hq : q.Lawful) (hlimits : m.limits = true)
    (h : saveAt toks j = [.closer ()]) :
    Removed q m toks j ↔ kMaxLevel < level (nesting (toks.take j)) := by
  obtain ⟨hnone, -⟩ | ⟨o, hone, -, hremoved⟩ := operatorStep_at (m := m) hq (lt_of_saveAt h)
  · rw [hnone] at h
    cases h
  have hkind : o.kind = .word (lit "Q") := by
    rw [hone] at h
    obtain hk | hk | ⟨hk, -⟩ := saves_cases (m := m) o.kind
    · rw [hk] at h
      cases h
    · exact hk
    · rw [hk] at h
      cases h
  rw [hremoved, Attribution.Dropped, hkind, (levels_assign hlimits _).drops_restore hlimits,
    nesting]

/-- A token that closes a level is dropped exactly with the one that opens it. -/
theorem Closes.removed_alike (hq : q.Lawful) (hlimits : m.limits = true) (h : Closes toks i j) :
    Removed q m toks j ↔ Removed q m toks i := by
  obtain ⟨u, hu, hbetween⟩ := h.between
  have hlevel : level (nesting (toks.take j)) = level (nesting (toks.take i)) + 1 := by
    rw [hbetween, Base.level_of_nested _ hu, nesting_take_succ hq, h.opens, Base.level_opener]
  rw [removed_restore hq hlimits h.closes, removed_save hq hlimits h.opens, hlevel,
    Nat.lt_succ_iff]

/-- A token opens or closes one level at most. -/
theorem saveAt_cases (hq : q.Lawful) (toks : List Token) (i : Nat) :
    saveAt toks i = [] ∨ ∃ d, saveAt toks i = [d] := by
  obtain hi | hi := Nat.lt_or_ge i toks.length
  · obtain ⟨hnone, -⟩ | ⟨o, hone, -, -⟩ := operatorStep_at (m := ⟨false, false, false⟩) hq hi
    · exact Or.inl hnone
    · rw [hone]
      obtain hk | hk | ⟨hk, -⟩ := saves_cases (m := ⟨false, false, false⟩) o.kind
      · rw [hk]
        exact Or.inr ⟨_, rfl⟩
      · rw [hk]
        exact Or.inr ⟨_, rfl⟩
      · exact Or.inl hk
  · exact Or.inl (saveAt_of_le hi)

theorem nesting_le_of_take (hq : q.Lawful) (toks : List Token) (n : Nat) :
    nesting (toks.take n) <+: nesting toks := by
  have hstep : ∀ k, nesting (toks.take n) <+: nesting (toks.take (n + k)) := by
    intro k
    induction k with
    | zero => exact List.prefix_rfl
    | succ k ih =>
        rw [← Nat.add_assoc, nesting_take_succ hq]
        exact ih.trans (List.prefix_append _ _)
  have hend : toks.take (n + toks.length) = toks := List.take_of_length_le (by omega)
  have hall := hstep toks.length
  rwa [hend] at hall

/-- Each level of a stream is opened or closed by one of its tokens. -/
theorem exists_saveAt (hq : q.Lawful) (toks : List Token) (j : Nat) {pre u : List (Delim Unit)}
    {d : Delim Unit} (h : nesting (toks.take j) = pre ++ [d] ++ u) :
    ∃ i, i < j ∧ nesting (toks.take i) = pre ∧ saveAt toks i = [d] := by
  induction j generalizing u with
  | zero =>
      have hlen := congrArg List.length h
      simp [nesting, saves, readAll] at hlen
  | succ j ih =>
      rw [nesting_take_succ hq] at h
      obtain hnone | ⟨x, hx⟩ := saveAt_cases hq toks j
      · rw [hnone, List.append_nil] at h
        obtain ⟨i, hi, hfound⟩ := ih h
        exact ⟨i, by omega, hfound⟩
      · rw [hx] at h
        obtain rfl | ⟨u, y, rfl⟩ := List.eq_nil_or_concat u
        · rw [List.append_nil] at h
          obtain ⟨hpre, hlast⟩ := List.append_inj' h rfl
          exact ⟨j, by omega, hpre, hx.trans hlast⟩
        · rw [List.concat_eq_append, ← List.append_assoc] at h
          obtain ⟨i, hi, hfound⟩ := ih (List.append_inj' h rfl).1
          exact ⟨i, by omega, hfound⟩

/-- A token that closes a level behind another one closes the level of some token. -/
theorem exists_closes (hq : q.Lawful) (h : saveAt toks j = [.closer ()])
    (hlevel : 0 < level (nesting (toks.take j))) : ∃ i, Closes toks i j := by
  obtain ⟨pre, u, hsplit, hu⟩ := Base.exists_innermost _ hlevel
  obtain ⟨i, -, hpre, hopen⟩ := exists_saveAt hq toks j hsplit
  refine ⟨i, hopen, h, u, hu, ?_⟩
  rw [nesting_take_succ hq, hpre, hopen, hsplit]

/-- The levels of the output are those of the tokens that are kept. -/
theorem nesting_text_eq_kept (hq : q.Lawful) (toks : List Token) :
    nesting (run q m toks).text = kept q m toks := by
  induction toks using List.reverseRecOn with
  | nil => rfl
  | append_singleton toks t ih =>
      have htake : ∀ i, i ≤ toks.length → (toks ++ [t]).take i = toks.take i := fun i hi =>
        List.take_append_of_le_length hi
      have hlen : toks.length < (toks ++ [t]).length := by simp
      have hpre : (List.range toks.length).flatMap (fun i =>
          if Removed q m (toks ++ [t]) i then [] else saveAt (toks ++ [t]) i) = kept q m toks := by
        refine List.flatMap_congr fun i hi => ?_
        have hi' := List.mem_range.mp hi
        simp only [Removed, saveAt, htake i (by omega), htake (i + 1) (by omega)]
        rfl
      have hstep : kept q m (toks ++ [t]) = kept q m toks ++
          if Removed q m (toks ++ [t]) toks.length then [] else saveAt (toks ++ [t])
            toks.length := by
        rw [kept, List.length_append, List.length_singleton, List.range_succ, List.flatMap_append,
          hpre, List.flatMap_singleton]
      have hfull : (toks ++ [t]).take (toks.length + 1) = toks ++ [t] :=
        List.take_of_length_le (by simp)
      have hlast : saveAt (toks ++ [t]) toks.length =
          (nesting (toks ++ [t])).drop (nesting toks).length := by
        rw [saveAt, hfull, htake _ le_rfl, List.take_length]
      have hremoved : Removed q m (toks ++ [t]) toks.length ↔
          (run q m (toks ++ [t])).text = (run q m toks).text := by
        rw [Removed, hfull, htake _ le_rfl, List.take_length]
      rw [hstep, hlast, ← ih, nesting_text hq, nesting_text hq]
      cases operatorStep (m := m) hq toks t with
      | none hops =>
          have hsame : nesting (toks ++ [t]) = nesting toks := by rw [nesting, hops, nesting]
          rw [hops, hsame, List.drop_length, ite_self, List.append_nil]
      | one o hops htext =>
          have hnext : nesting (toks ++ [t]) = nesting toks ++ o.kind.saves := by
            rw [nesting, hops, saves_append, nesting]
            exact congrArg _ (List.append_nil _)
          rw [hops, hnext, List.drop_left, Attribution.assign_concat]
          by_cases hdrops : Attribution.Dropped m (readAll toks).operators o
          · rw [if_pos (hremoved.mpr (htext.mpr hdrops)), Attribution.step_dropped hdrops,
              List.append_nil]
          · rw [if_neg (fun h => hdrops (htext.mp (hremoved.mp h))),
              Attribution.step_written (Bool.not_eq_true _ ▸ hdrops), saves_append]
            exact congrArg _ (List.append_nil _)

/-- The filter drops pairs only: the output is never nested deeper than 28 levels, its levels are
those of the stream without the ones that are dropped, in the same order, a `Q` is dropped exactly
with the `q` it closes, and a stream that is not nested deeper keeps all of them. The output is the
list of tokens written, whose texts can fuse where a closer is dropped. -/
theorem pairs_removed (q : Qpdf) (hq : q.Lawful) (m : FixMode) (hlimits : m.limits = true)
    (toks : List Token) :
    (∀ u, u <+: nesting (filterTokens q m toks).out → level u ≤ kMaxLevel) ∧
    nesting (filterTokens q m toks).out = kept q m toks ∧
    (∀ j, saveAt toks j = [.closer ()] → Removed q m toks j →
      ∃ i, Closes toks i j ∧ Removed q m toks i) ∧
    (∀ i j, Closes toks i j → ¬ Removed q m toks i → ¬ Removed q m toks j) ∧
    ((∀ u, u <+: nesting toks → level u ≤ kMaxLevel) →
      ∀ i, saveAt toks i ≠ [] → ¬ Removed q m toks i) := by
  have hout : nesting (filterTokens q m toks).out = nesting (run q m toks).text :=
    congrArg saves (operators_filterTokens hq toks)
  refine ⟨?_, ?_, ?_, ?_, ?_⟩
  · rw [hout, nesting_text hq]
    exact (levels_assign hlimits _).shallow
  · rw [hout, nesting_text_eq_kept hq]
  · intro j hj hremoved
    have hdeep := (removed_restore hq hlimits hj).mp hremoved
    obtain ⟨i, hcloses⟩ := exists_closes hq hj (by omega)
    exact ⟨i, hcloses, (hcloses.removed_alike hq hlimits).mp hremoved⟩
  · intro i j hcloses hkept
    exact mt (hcloses.removed_alike hq hlimits).mp hkept
  · intro hshallow i hi hremoved
    have hat : ∀ n, level (nesting (toks.take n)) ≤ kMaxLevel := fun n =>
      hshallow _ (nesting_le_of_take hq toks n)
    have hnext := hat (i + 1)
    rw [nesting_take_succ hq] at hnext
    obtain hnone | ⟨⟨⟩ | ⟨⟩, hd⟩ := saveAt_cases hq toks i
    · exact hi hnone
    · have hdeep := (removed_save hq hlimits hd).mp hremoved
      rw [hd, Base.level_opener] at hnext
      omega
    · have hdeep := (removed_restore hq hlimits hd).mp hremoved
      exact absurd (hat i) (by omega)

/-- Some levels inside of each other. -/
def deepStream (n : Nat) : List Token :=
  List.replicate n (Token.op "q") ++ List.replicate n (Token.op "Q")

/-- Of 29 levels the innermost one is dropped. -/
theorem deepStream_pairs :
    (∀ u, u <+: nesting (filterTokens PlainPdf.library ⟨true, false, false⟩ (deepStream 29)).out →
      level u ≤ kMaxLevel) ∧
    ∀ j, saveAt (deepStream 29) j = [.closer ()] →
      Removed PlainPdf.library ⟨true, false, false⟩ (deepStream 29) j →
        ∃ i, Closes (deepStream 29) i j ∧
          Removed PlainPdf.library ⟨true, false, false⟩ (deepStream 29) i := by
  obtain ⟨hshallow, -, hpairs, -, -⟩ := pairs_removed PlainPdf.library PlainPdf.library_lawful
    ⟨true, false, false⟩ rfl (deepStream 29)
  exact ⟨hshallow, hpairs⟩

end Stream

end ContentFixFilter

end Kura.Engine
