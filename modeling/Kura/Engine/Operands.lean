import Kura.Engine.Brackets

/-!
# Operands of a filtered stream

The operators of a stream, those of the filtered stream, and the operands of
both. An operator that is dropped leaves its operands behind, and the next
operator that is written takes them. So the operands are those of the stream
exactly if no operator that is dropped before a written one has any.
-/

namespace Kura.Engine

/-- What becomes of the operators of a stream. -/
structure Attribution where
  nest : Nest := {}
  /-- The operands left behind since the last operator that was written. -/
  carried : List Token := []
  /-- The operators that are written, with their own operands. -/
  written : List Operator := []
  /-- The same operators with the operands they are written with. -/
  merged : List Operator := []

namespace Attribution

variable (m : FixMode) (a : Attribution) (o : Operator)

/-- One operator. -/
def step : Attribution :=
  if a.nest.drops m o.kind then
    { a with nest := a.nest.after m o.kind, carried := a.carried ++ o.operands }
  else
    { nest := a.nest.after m o.kind
      carried := []
      written := a.written ++ [o]
      merged := a.merged ++ [⟨o.kind, a.carried ++ o.operands⟩] }

/-- All operators of a stream. -/
def assign (os : List Operator) : Attribution := os.foldl (step m) {}

/-- Tests whether an operator is dropped after some others. -/
def Dropped (pre : List Operator) (o : Operator) : Prop :=
  (assign m pre).nest.drops m o.kind = true

instance (pre : List Operator) : Decidable (Dropped m pre o) :=
  inferInstanceAs (Decidable (_ = true))

/-- No operator that is dropped before a written one has operands. -/
def NothingLost (os : List Operator) : Prop :=
  ∀ pre o mid w post, os = pre ++ o :: (mid ++ w :: post) → Dropped m pre o →
    ¬ Dropped m (pre ++ o :: mid) w → o.operands = []

variable {m a o}

theorem step_dropped (h : a.nest.drops m o.kind = true) :
    a.step m o = { a with nest := a.nest.after m o.kind, carried := a.carried ++ o.operands } :=
  if_pos h

theorem step_written (h : a.nest.drops m o.kind = false) :
    a.step m o =
      { nest := a.nest.after m o.kind
        carried := []
        written := a.written ++ [o]
        merged := a.merged ++ [⟨o.kind, a.carried ++ o.operands⟩] } :=
  if_neg (ne_true_of_eq_false h)

@[simp]
theorem nest_step : (a.step m o).nest = a.nest.after m o.kind := by
  rw [step]
  split <;> rfl

theorem assign_concat (os : List Operator) (o : Operator) :
    assign m (os ++ [o]) = (assign m os).step m o := List.foldl_concat ..

/-- An operator takes operands of others before its own. -/
def Extends (w g : Operator) : Prop := g.kind = w.kind ∧ ∃ c, g.operands = c ++ w.operands

theorem extends_assign (os : List Operator) :
    List.Forall₂ Extends (assign m os).written (assign m os).merged := by
  induction os using List.reverseRecOn with
  | nil => exact .nil
  | append_singleton os o ih =>
      rw [assign_concat]
      cases h : (assign m os).nest.drops m o.kind with
      | true =>
          rw [step_dropped h]
          exact ih
      | false =>
          rw [step_written h]
          exact List.rel_append ih (.cons ⟨rfl, _, rfl⟩ .nil)

/-- No operator that is dropped has operands. -/
def Bare (m : FixMode) (os : List Operator) : Prop :=
  ∀ pre o post, os = pre ++ o :: post → Dropped m pre o → o.operands = []

theorem bare_concat (os : List Operator) (x : Operator) :
    Bare m (os ++ [x]) ↔ Bare m os ∧ (Dropped m os x → x.operands = []) := by
  constructor
  · intro h
    refine ⟨?_, fun hx => h os x [] rfl hx⟩
    intro pre o post heq
    exact h pre o (post ++ [x]) (by rw [heq]; simp)
  · rintro ⟨hos, hx⟩ pre o post heq hdropped
    obtain rfl | ⟨post, y, rfl⟩ := List.eq_nil_or_concat post
    · obtain ⟨rfl, hlast⟩ := List.append_inj' heq rfl
      rw [List.singleton_inj] at hlast
      subst hlast
      exact hx hdropped
    · have hsplit : os ++ [x] = (pre ++ o :: post) ++ [y] := by rw [heq]; simp
      obtain ⟨rfl, -⟩ := List.append_inj' hsplit rfl
      exact hos pre o post rfl hdropped

/-- An operator that is written needs all operators before it to be bare. -/
theorem nothingLost_concat (os : List Operator) (x : Operator) :
    NothingLost m (os ++ [x]) ↔ NothingLost m os ∧ (¬ Dropped m os x → Bare m os) := by
  constructor
  · intro h
    refine ⟨?_, ?_⟩
    · intro pre o mid w post heq
      exact h pre o mid w (post ++ [x]) (by rw [heq]; simp)
    · intro hx pre o post heq hdropped
      exact h pre o post x [] (by rw [heq]; simp) hdropped (heq ▸ hx)
  · rintro ⟨hos, hx⟩ pre o mid w post heq hdropped hwritten
    obtain rfl | ⟨post, y, rfl⟩ := List.eq_nil_or_concat post
    · have hsplit : os ++ [x] = (pre ++ o :: mid) ++ [w] := by rw [heq]; simp
      obtain ⟨rfl, hlast⟩ := List.append_inj' hsplit rfl
      rw [List.singleton_inj] at hlast
      subst hlast
      exact hx hwritten pre o mid rfl hdropped
    · have hsplit : os ++ [x] = (pre ++ o :: (mid ++ w :: post)) ++ [y] := by rw [heq]; simp
      obtain ⟨rfl, -⟩ := List.append_inj' hsplit rfl
      exact hos pre o mid w post rfl hdropped hwritten

theorem merged_concat_iff {ws gs : List Operator} {w g : Operator} :
    gs ++ [g] = ws ++ [w] ↔ gs = ws ∧ g = w := by
  constructor
  · intro h
    obtain ⟨hs, hlast⟩ := List.append_inj' h rfl
    exact ⟨hs, List.singleton_inj.mp hlast⟩
  · rintro ⟨rfl, rfl⟩
    rfl

theorem extended_eq_iff (c : List Token) (o : Operator) :
    (⟨o.kind, c ++ o.operands⟩ : Operator) = o ↔ c = [] := by
  obtain ⟨k, xs⟩ := o
  simp

/-- All that is dropped is bare exactly when the operands written are the own ones. -/
theorem bare_iff (os : List Operator) :
    Bare m os ↔ (assign m os).merged = (assign m os).written ∧
      (assign m os).carried = [] := by
  induction os using List.reverseRecOn with
  | nil =>
      refine iff_of_true ?_ ⟨rfl, rfl⟩
      intro pre o post heq
      simp at heq
  | append_singleton os o ih =>
      rw [bare_concat, ih, assign_concat, Dropped]
      cases h : (assign m os).nest.drops m o.kind with
      | true =>
          rw [step_dropped h]
          simp [and_assoc]
      | false =>
          rw [step_written h, merged_concat_iff, extended_eq_iff]
          simp

/-- The operators are written with their own operands exactly if nothing is lost. -/
theorem nothingLost_iff (os : List Operator) :
    NothingLost m os ↔ (assign m os).merged = (assign m os).written := by
  induction os using List.reverseRecOn with
  | nil =>
      refine iff_of_true ?_ rfl
      intro pre o mid w post heq
      simp at heq
  | append_singleton os o ih =>
      rw [nothingLost_concat, bare_iff, ih, assign_concat, Dropped]
      cases h : (assign m os).nest.drops m o.kind with
      | true =>
          rw [step_dropped h]
          simp
      | false =>
          rw [step_written h, merged_concat_iff, extended_eq_iff]
          simp +contextual

end Attribution

open Attribution (assign)

/-- The intent of `ri` is replaced by one that is known. -/
def IntentKept (q : Qpdf) (m : FixMode) (o o' : Operator) : Prop :=
  o.kind = .word (lit "ri") ∧ ∃ xs ys n, o.operands = xs ++ [n] ∧
    o'.operands = ys ++ [q.nameToken (lit "/RelativeColorimetric")] ∧ n.type = .name ∧
    n.value ∉ kValidRi ∧ List.Forall₂ (Clamped q m) xs ys

/-- The same operator with the same operands, up to what is clamped. -/
def Operator.Kept (q : Qpdf) (m : FixMode) (o o' : Operator) : Prop :=
  o.kind = o'.kind ∧
    (List.Forall₂ (Clamped q m) o.operands o'.operands ∨ IntentKept q m o o')

theorem Operator.Kept.length_eq {q : Qpdf} {m : FixMode} {o o' : Operator} (h : o.Kept q m o') :
    o.operands.length = o'.operands.length := by
  obtain ⟨-, hall | ⟨-, xs, ys, n, hxs, hys, -, -, hall⟩⟩ := h
  · exact hall.length_eq
  · rw [hxs, hys, List.length_append, List.length_append, hall.length_eq]
    rfl

/-- Written operators that are kept as they are have taken nothing over. -/
theorem merged_eq_of_kept {q : Qpdf} {m : FixMode} {ws gs os : List Operator}
    (hext : List.Forall₂ Attribution.Extends ws gs) (hg : List.Forall₂ (Operator.Kept q m) gs os)
    (hw : List.Forall₂ (Operator.Kept q m) ws os) : gs = ws := by
  induction hext generalizing os with
  | nil => rfl
  | @cons w g ws gs hone _ ih =>
      obtain ⟨hkind, c, hc⟩ := hone
      cases hg with
      | cons hgo hgs =>
          cases hw with
          | cons hwo hws =>
              have hlen : g.operands.length = w.operands.length :=
                hgo.length_eq.trans hwo.length_eq.symm
              have hnil : c = [] := by
                rw [hc, List.length_append] at hlen
                exact List.length_eq_zero_iff.mp (by omega)
              have hsame : g = w := by
                obtain ⟨k, xs⟩ := g
                obtain ⟨k', xs'⟩ := w
                rw [hnil, List.nil_append] at hc
                cases hkind
                cases hc
                rfl
              rw [hsame, ih hgs hws]

namespace ContentFixFilter

open Base (Delim idle counts keep)
open ContentReader (readAll)

variable {q : Qpdf} {m : FixMode} {s s' : ContentFixFilter} {r r' : ContentReader} {t : Token}

/-- The operators and operands of the text, from those of the stream. -/
structure Operands (q : Qpdf) (m : FixMode) (s : ContentFixFilter) (r : ContentReader) : Prop where
  nest : s.nest = (assign m r.operators).nest
  operators : List.Forall₂ (Operator.Kept q m) (assign m r.operators).merged
    (readAll s.text).operators
  pending : List.Forall₂ (Clamped q m) ((assign m r.operators).carried ++ r.pending)
    (readAll s.text).pending

theorem Operands.same (h : Operands q m s r) (hops : r'.operators = r.operators)
    (hpend : r'.pending = r.pending)
    (htext : (readAll s'.text).operators = (readAll s.text).operators ∧
      (readAll s'.text).pending = (readAll s.text).pending)
    (hnest : s'.nest = s.nest) : Operands q m s' r' := by
  refine ⟨?_, ?_, ?_⟩
  · rw [hnest, hops, h.nest]
  · rw [hops, htext.1]
    exact h.operators
  · rw [hops, hpend, htext.2]
    exact h.pending

/-- An operand is written. -/
theorem Operands.operand {t' : Token} (h : Operands q m s r) (hclamped : Clamped q m t t')
    (hops : r'.operators = r.operators) (hpend : r'.pending = r.pending ++ [t])
    (htext : (readAll s'.text).operators = (readAll s.text).operators ∧
      (readAll s'.text).pending = (readAll s.text).pending ++ [t'])
    (hnest : s'.nest = s.nest) : Operands q m s' r' := by
  refine ⟨?_, ?_, ?_⟩
  · rw [hnest, hops, h.nest]
  · rw [hops, htext.1]
    exact h.operators
  · rw [hops, hpend, htext.2, ← List.append_assoc]
    exact List.rel_append h.pending (.cons hclamped .nil)

/-- An operator is dropped. -/
theorem Operands.dropped {k : OpKind} (h : Operands q m s r) (hdrops : s.nest.drops m k = true)
    (htext : s'.text = s.text) (hnest : s'.nest = s.nest.after m k) :
    Operands q m s' (r.operator k) := by
  have hassign : assign m (r.operator k).operators =
      { assign m r.operators with
        nest := (assign m r.operators).nest.after m k
        carried := (assign m r.operators).carried ++ r.pending } := by
    rw [ContentReader.operator, Attribution.assign_concat,
      Attribution.step_dropped (by rw [← h.nest]; exact hdrops)]
  refine ⟨?_, ?_, ?_⟩
  · rw [hassign, hnest, h.nest]
  · rw [hassign, htext]
    exact h.operators
  · have hpend : (r.operator k).pending = [] := rfl
    rw [hassign, hpend, List.append_nil, htext]
    exact h.pending

/-- An operator is written. -/
theorem Operands.written {k : OpKind} {o : Operator} (h : Operands q m s r)
    (hdrops : s.nest.drops m k = false)
    (hkept : Operator.Kept q m ⟨k, (assign m r.operators).carried ++ r.pending⟩ o)
    (hops : (readAll s'.text).operators = (readAll s.text).operators ++ [o])
    (hpend : (readAll s'.text).pending = []) (hnest : s'.nest = s.nest.after m k) :
    Operands q m s' (r.operator k) := by
  have hassign := Attribution.assign_concat (m := m) r.operators ⟨k, r.pending⟩
  rw [Attribution.step_written (by rw [← h.nest]; exact hdrops)] at hassign
  have hoperators : (r.operator k).operators = r.operators ++ [⟨k, r.pending⟩] := rfl
  refine ⟨?_, ?_, ?_⟩
  · rw [hoperators, hassign, hnest, h.nest]
  · rw [hoperators, hassign, hops]
    exact List.rel_append h.operators (.cons hkept .nil)
  · rw [hoperators, hassign, hpend]
    exact .nil

/-- A name that takes the place of another is one. -/
theorem name_of_clamped {t' : Token} (h : Clamped q m t t') (ht' : t'.type = .name)
    (hvalid : t'.value ∉ kValidRi) : t.type = .name ∧ t.value ∉ kValidRi := by
  have hshort : ∀ v ∈ kValidRi, v.length ≤ kMaxName + 1 := by decide
  cases h with
  | same => exact ⟨ht', hvalid⟩
  | name htype hlimits hlong => exact ⟨htype, fun hmem => absurd (hshort _ hmem) (by omega)⟩
  | string => cases ht'
  | scrubbed => cases ht'
  | hex => cases ht'
  | real htype =>
      exfalso
      revert ht'
      simp only [fixReal]
      split
      · simp [htype]
      · split
        · simp [Token.plain]
        · split
          · simp [Token.plain]
          · simp [htype]
  | integer htype =>
      exfalso
      revert ht'
      simp only [fixInteger]
      split
      · simp [Token.plain]
      · simp [htype]

theorem forall₂_concat {α β : Type*} {R : α → β → Prop} {xs : List α} {ys : List β} {y : β}
    (h : List.Forall₂ R xs (ys ++ [y])) :
    ∃ init x, xs = init ++ [x] ∧ List.Forall₂ R init ys ∧ R x y := by
  have hdrop := List.forall₂_drop_append xs ys [y] h
  cases hlast : xs.drop ys.length with
  | nil =>
      rw [hlast] at hdrop
      cases hdrop
  | cons x rest =>
      rw [hlast] at hdrop
      cases hdrop with
      | cons hxy hrest =>
          cases hrest
          refine ⟨xs.take ys.length, x, ?_, List.forall₂_take_append xs ys [y] h, hxy⟩
          rw [← hlast, List.take_append_drop]

/-- The intent held back is the last operand. -/
theorem intentKept_of_held {n : Token} {xs : List Token} (hs : Sound m s)
    (hout : (readAll s.out).place = .content) (hn : s.heldName = some n)
    (hvalid : n.value ∉ kValidRi) (h : List.Forall₂ (Clamped q m) xs (readAll s.text).pending) :
    IntentKept q m ⟨.word (lit "ri"), xs⟩
      ⟨.word (lit "ri"),
        (readAll s.out).pending ++ [q.nameToken (lit "/RelativeColorimetric")]⟩ := by
  have htype := (hs.heldName n hn).1
  rw [text_of_held hn, readAll_held hs hout (role_name htype)] at h
  obtain ⟨init, x, rfl, hinit, hx⟩ := forall₂_concat h
  obtain ⟨hname, hbad⟩ := name_of_clamped hx htype hvalid
  exact ⟨rfl, init, _, x, rfl, rfl, hname, hbad, hinit⟩

theorem readAll_text_concat {ts : List Token} (h : (readAll ts).place = .content)
    (hbi : t.isWord "BI" = false) : readAll (ts ++ [t]) = (readAll ts).part t := by
  rw [readAll_concat, ContentReader.read_content h hbi]

/-- Both readers count the same open brackets. -/
theorem Balance.readers (h : Balance s r.brackets) :
    r.depth = s.depth ∧ (readAll s.text).depth = s.depth := by
  refine ⟨h.depth.symm, ?_⟩
  rw [ContentReader.depth, h.text, Base.counts_keep, h.depth]

/-- The effect of a token on the operands. -/
theorem Operands.effect (h : Operands q m s r) (hs : Sound m s) (hbal : Balance s r.brackets)
    (hout : (readAll s.out).place = .content) (hplace : (readAll s.text).place = .content)
    (hbi : t.isWord "BI" = false) (heffect : Effect q m s t s') :
    Operands q m s' (ContentReader.part { r with place := .content } t) := by
  obtain ⟨hdepth, hdepth'⟩ := hbal.readers
  have hplaced : Operands q m s { r with place := .content } := ⟨h.nest, h.operators, h.pending⟩
  cases heffect with
  | blank hrole htext hsame =>
      rw [ContentReader.part, hrole]
      refine h.same rfl rfl ?_ hsame.2
      rw [htext, readAll_text_concat hplace hbi, ContentReader.part, hrole]
      exact ⟨rfl, rfl⟩
  | @operand t' hrole hrole' hclamped htext hsame =>
      have hbi' := isWord_of_role hrole' (fun w h => by cases h) "BI"
      rw [ContentReader.part, hrole]
      refine h.operand hclamped rfl rfl ?_ hsame.2
      rw [htext, readAll_text_concat hplace hbi', ContentReader.part, hrole']
      exact ⟨rfl, rfl⟩
  | @bracket d hrole htext hdepth'' hnest =>
      rw [ContentReader.part, hrole]
      have hidle : idle (ContentReader.depth { r with place := .content }) d = idle s.depth d :=
        congrArg (fun c => idle c d) hdepth
      by_cases hclose : idle s.depth d = true
      · rw [hclose, if_pos rfl, List.append_nil] at htext
        refine h.same rfl ?_ (by rw [htext]; exact ⟨rfl, rfl⟩) hnest
        exact if_pos (hidle.trans hclose)
      · rw [if_neg hclose] at htext
        refine h.operand (.same t) rfl (if_neg (hidle ▸ hclose)) ?_ hnest
        rw [htext, readAll_text_concat hplace hbi, ContentReader.part, hrole]
        exact ⟨rfl, if_neg (hdepth' ▸ hclose)⟩
  | dropped hrole hdrops htext hdepth'' hnest =>
      rw [ContentReader.part, hrole]
      exact hplaced.dropped hdrops htext hnest
  | @written k ts hrole hdrops hts htext hdepth'' hnest =>
      rw [ContentReader.part, hrole]
      obtain rfl | ⟨rfl, n, hn, hvalid, rfl⟩ := hts
      · have hread : readAll s'.text = (readAll s.text).operator k := by
          rw [htext, readAll_text_concat hplace hbi, ContentReader.part, hrole]
        refine hplaced.written (o := ⟨k, (readAll s.text).pending⟩) hdrops
          ⟨rfl, Or.inl h.pending⟩ ?_ ?_ hnest
        · rw [hread]
          rfl
        · rw [hread]
          rfl
      · have hkept := intentKept_of_held hs hout hn hvalid h.pending
        have hheld := readAll_held hs hout (n := q.nameToken (lit "/RelativeColorimetric"))
          (role_name rfl)
        have hheld' := readAll_held hs hout (role_name (hs.heldName n hn).1)
        rw [← text_of_held hn] at hheld'
        have hread : readAll s'.text =
            ContentReader.operator { readAll s.out with
              pending := (readAll s.out).pending ++
                [q.nameToken (lit "/RelativeColorimetric")] } (.word (lit "ri")) := by
          rw [htext, readAll_text_concat (by rw [hheld]; exact hout) hbi, ContentReader.part, hrole,
            hheld]
        refine hplaced.written (o := ⟨.word (lit "ri"), (readAll s.out).pending ++
          [q.nameToken (lit "/RelativeColorimetric")]⟩) hdrops ⟨rfl, Or.inr hkept⟩ ?_ ?_ hnest
        · rw [hread, hheld']
          rfl
        · rw [hread]
          rfl

/-- The operands after every token. -/
theorem operands_run (hq : q.Lawful) (toks : List Token) :
    Operands q m (run q m toks) (readAll toks) := by
  induction toks using List.reverseRecOn with
  | nil => exact ⟨rfl, .nil, .nil⟩
  | append_singleton toks t ih =>
      obtain ⟨hout, hplace⟩ := place_text (m := m) hq toks
      obtain ⟨hmoved, -, -⟩ := moved_run (m := m) hq toks t
      cases hmoved with
      | part hbi heffect hr =>
          rw [hr]
          exact ih.effect (sound_run hq toks) (balance_run hq toks) hout hplace hbi heffect
      | image p hr htext hread hsame =>
          have htaken : readAll (run q m (toks ++ [t])).text =
              (readAll (run q m toks).text).operator .image := by
            rw [htext, ContentReader.readAll_append, hread _ hplace]
          have himage : Operands q m (run q m (toks ++ [t])) ((readAll toks).operator .image) := by
            refine ih.written (o := ⟨.image, (readAll (run q m toks).text).pending⟩) rfl
              ⟨rfl, Or.inl ih.pending⟩ ?_ ?_ hsame.2
            · rw [htaken]
              rfl
            · rw [htaken]
              rfl
          rw [hr]
          exact ⟨himage.nest, himage.operators, himage.pending⟩
      | skip p hr htext hsame =>
          rw [hr]
          exact ih.same rfl rfl (by rw [htext]; exact ⟨rfl, rfl⟩) hsame.2

theorem operators_foldl_replicate {r : ContentReader} (n : Nat) (h : r.place = .content)
    (hbi : t.isWord "BI" = false) {d : Delim Bracket} (hrole : t.role = .bracket d) :
    ((List.replicate n t).foldl ContentReader.read r).place = .content ∧
      ((List.replicate n t).foldl ContentReader.read r).operators = r.operators := by
  induction n generalizing r with
  | zero => exact ⟨h, rfl⟩
  | succ n ih =>
      have hone : (r.part t).operators = r.operators := by
        rw [ContentReader.part, hrole]
        rfl
      rw [List.replicate_succ, List.foldl_cons, ContentReader.read_content h hbi, ← hone]
      exact ih (ContentReader.place_part.trans h)

/-- The closers at the end belong to no operator. -/
theorem operators_filterTokens (hq : q.Lawful) (toks : List Token) :
    (readAll (filterTokens q m toks).out).operators = (readAll (run q m toks).text).operators := by
  have hplace := (place_text (m := m) hq toks).2
  have hout : (filterTokens q m toks).out = ((run q m toks).text ++
      List.replicate (run q m toks).arrDepth (.plain .arrayClose (lit "]"))) ++
        List.replicate (run q m toks).dictDepth (.plain .dictClose (lit ">>")) := rfl
  obtain ⟨hplaceArr, harr⟩ := operators_foldl_replicate (run q m toks).arrDepth hplace
    (t := .plain .arrayClose (lit "]")) rfl rfl
  obtain ⟨-, hdict⟩ := operators_foldl_replicate (run q m toks).dictDepth hplaceArr
    (t := .plain .dictClose (lit ">>")) rfl rfl
  rw [hout, ContentReader.readAll_append, ContentReader.readAll_append, hdict, harr]

/-- The operators of the stream that are written. -/
def writtenOperators (m : FixMode) (toks : List Token) : List Operator :=
  (assign m (readAll toks).operators).written

/-- The operators of the output have their own operands exactly if no operator that is dropped
before one of them has operands. The output is the list of tokens written; where a closer is
dropped, the texts of its neighbours can fuse when they are read anew. -/
theorem operands_kept_iff (q : Qpdf) (hq : q.Lawful) (m : FixMode) (toks : List Token) :
    List.Forall₂ (Operator.Kept q m) (writtenOperators m toks)
        (readAll (filterTokens q m toks).out).operators ↔
      Attribution.NothingLost m (readAll toks).operators := by
  have hkept := (operands_run (m := m) hq toks).operators
  rw [operators_filterTokens hq, Attribution.nothingLost_iff, writtenOperators]
  constructor
  · exact merged_eq_of_kept (Attribution.extends_assign _) hkept
  · intro h
    rw [h] at hkept
    exact hkept

/-- A stream with an operator that is not known, with or without operands. -/
def unknownStream (operands : List Token) : List Token :=
  operands ++ [.op "foo", .blank, .plain .integer (lit "3"), .blank, .op "w", .newline]

/-- An operator that is not known and has no operands does no harm. -/
theorem unknownStream_kept :
    List.Forall₂ (Operator.Kept PlainPdf.library ⟨true, false, false⟩)
      (writtenOperators ⟨true, false, false⟩ (unknownStream []))
      (readAll (filterTokens PlainPdf.library ⟨true, false, false⟩
        (unknownStream [])).out).operators :=
  (operands_kept_iff PlainPdf.library PlainPdf.library_lawful ⟨true, false, false⟩
    (unknownStream [])).mpr (by rw [Attribution.nothingLost_iff]; decide)

/-- The operands of an operator that is not known are those of the next one. -/
theorem unknownStream_lost :
    ¬ List.Forall₂ (Operator.Kept PlainPdf.library ⟨true, false, false⟩)
      (writtenOperators ⟨true, false, false⟩
        (unknownStream [.plain .integer (lit "1"), .blank]))
      (readAll (filterTokens PlainPdf.library ⟨true, false, false⟩
        (unknownStream [.plain .integer (lit "1"), .blank])).out).operators := by
  have hone : writtenOperators ⟨true, false, false⟩
      (unknownStream [.plain .integer (lit "1"), .blank]) =
        [⟨.word (lit "w"), [.plain .integer (lit "3")]⟩] := by decide
  have htwo : (readAll (filterTokens PlainPdf.library ⟨true, false, false⟩
      (unknownStream [.plain .integer (lit "1"), .blank])).out).operators =
        [⟨.word (lit "w"), [.plain .integer (lit "1"), .plain .integer (lit "3")]⟩] := by decide
  rw [hone, htwo]
  intro h
  cases h with
  | cons hkept _ => exact absurd hkept.length_eq (by decide)

end ContentFixFilter

end Kura.Engine
