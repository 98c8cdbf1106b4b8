import Kura.Engine.GlyphSteps
import Kura.Engine.PlainPdf

/-!
# Text that stays where it is

The filter leaves out text that has no font. An operator that only shows text
can be left out with no effect on what follows; one that starts a new line
before it does so cannot.
-/

namespace Kura.Engine.GlyphClean

open Base (Phrase)
open Text

variable {q : Qpdf} {res : Resources} {s : GlyphCleanFilter}

/-- Whether the operators that have set the font in force, and the fonts that are saved, are
written. -/
structure FontKept where
  kept : Bool := true
  saved : List Bool := []

/-- Whether the filter writes an operator that sets the font. -/
def fontFound (res : Resources) (o : Operation) : Bool :=
  lastName o.words = [] || (res.fonts.lookup (lastName o.words)).isSome

/-- One operation. An operator without a size leaves the old one in force. -/
def FontKept.step (res : Resources) (k : FontKept) (o : Operation) : FontKept :=
  if o.last.value = lit "q" then { k with saved := k.kept :: k.saved }
  else if o.last.value = lit "Q" then
    match k.saved with
    | [] => k
    | kept :: rest => ⟨kept, rest⟩
  else if o.last.value = lit "Tf" ∧ 2 ≤ (instrOf o).args.length then
    { k with kept := fontFound res o && (((instrOf o).num? 0).isSome || k.kept) }
  else k

/-- The fonts behind operations. -/
def fontKept (res : Resources) (ops : List Operation) : FontKept := ops.foldl (FontKept.step res) {}

/-- Text states that differ in the font only, and not in that if it was kept. -/
structure Agree (kept : Bool) (st st' : TextState) : Prop where
  bare : st'.bare = st.bare
  font : kept = true → st' = st

/-- The same for states that are saved. -/
inductive SavedAgree : List Bool → List TextState → List TextState → Prop
  | nil : SavedAgree [] [] []
  | cons {kept : Bool} {st st' : TextState} {ks : List Bool} {sts sts' : List TextState}
      (h : Agree kept st st') (rest : SavedAgree ks sts sts') :
      SavedAgree (kept :: ks) (st :: sts) (st' :: sts')

/-- Runs that differ in fonts only. -/
structure Sim (k : FontKept) (a b : TextRun) : Prop where
  state : Agree k.kept a.state b.state
  line : b.line = a.line
  saved : SavedAgree k.saved a.saved b.saved

theorem Agree.set {kept : Bool} {st st' : TextState} (h : Agree kept st st') {i : Instr}
    (hTf : i.op ≠ lit "Tf") : Agree kept (st.set i) (st'.set i) := by
  refine ⟨?_, fun hkept => by rw [h.font hkept]⟩
  rw [TextState.bare_set hTf, TextState.bare_set hTf, h.bare]

/-- Everything else is the same. -/
theorem Agree.eq_of_bare {α : Type} (f : TextState → α) (hf : ∀ st, f st.bare = f st) {kept : Bool}
    {st st' : TextState} (h : Agree kept st st') : f st' = f st := by
  rw [← hf st', h.bare, hf]

/-- A font that is set makes them the same. -/
theorem Agree.set_Tf {kept : Bool} {st st' : TextState} (h : Agree kept st st') {i : Instr}
    (hTf : i.op = lit "Tf") (hargs : 2 ≤ i.args.length) :
    Agree ((i.num? 0).isSome || kept) (st.set i) (st'.set i) := by
  refine ⟨?_, ?_⟩
  · rw [TextState.bare_set_Tf hTf, TextState.bare_set_Tf hTf, h.bare]
  · intro hset
    rw [TextState.set, if_pos hTf, if_pos hargs, TextState.set, if_pos hTf, if_pos hargs]
    cases hnum : i.num? 0 with
    | some size =>
        have hsame := congrArg
          (fun b : TextState => { b with fontName := i.lastName, size := size }) h.bare
        exact hsame
    | none =>
        rw [hnum, Option.isSome_none, Bool.false_or] at hset
        rw [h.font hset]

theorem FontKept.step_of_ne {k : FontKept} {o : Operation} (hq : o.last.value ≠ lit "q")
    (hQ : o.last.value ≠ lit "Q") (hTf : o.last.value ≠ lit "Tf") : k.step res o = k := by
  rw [step, if_neg hq, if_neg hQ, if_neg (fun h => hTf h.1)]

theorem TextRun.step_of_ne {a : TextRun} {i : Instr} (hq : i.op ≠ lit "q") (hQ : i.op ≠ lit "Q") :
    a.step i =
      { a with state := a.state.set i, line := lineAfter (a.state.set i).leading a.line i } := by
  rw [TextRun.step, if_neg hq, if_neg hQ]

theorem lineAfter_Tf {i : Instr} (h : i.op = lit "Tf") (leading : ℚ) (m : Text.Mat) :
    lineAfter leading m i = m := by
  have hne : ∀ w ∈ ["BT", "Td", "TD", "Tm", "T*", "'", "\""], i.op ≠ lit w := by
    rw [h]
    decide
  simp only [List.forall_mem_cons] at hne
  simp only [lineAfter, hne, if_false, or_self]

theorem set_Tf_of_lt {i : Instr} (h : i.op = lit "Tf") (hargs : ¬ 2 ≤ i.args.length)
    (st : TextState) : st.set i = st := by
  rw [TextState.set, if_pos h, if_neg hargs]

/-- An operator that is written has the same effect on both runs. -/
theorem Sim.written {k : FontKept} {a b : TextRun} (h : Sim k a b) {o : Operation}
    (hfound : o.last.value = lit "Tf" → fontFound res o = true) :
    Sim (k.step res o) (a.step (instrOf o)) (b.step (instrOf o)) := by
  have hop : (instrOf o).op = o.last.value := rfl
  by_cases hq : o.last.value = lit "q"
  · rw [FontKept.step, TextRun.step, TextRun.step, hop, if_pos hq, if_pos hq, if_pos hq]
    exact ⟨h.state, h.line, .cons h.state h.saved⟩
  by_cases hQ : o.last.value = lit "Q"
  · rw [FontKept.step, TextRun.step, TextRun.step, hop, if_neg hq, if_neg hq, if_neg hq, if_pos hQ,
      if_pos hQ, if_pos hQ]
    obtain ⟨kept, ks⟩ := k
    obtain ⟨st, line, sts⟩ := a
    obtain ⟨st', line', sts'⟩ := b
    have hsaved := h.saved
    cases hsaved with
    | nil => exact ⟨h.state, h.line, .nil⟩
    | cons hfirst hrest => exact ⟨hfirst, h.line, hrest⟩
  rw [TextRun.step_of_ne hq hQ, TextRun.step_of_ne hq hQ]
  by_cases hTf : o.last.value = lit "Tf"
  · rw [FontKept.step, if_neg hq, if_neg hQ, lineAfter_Tf hTf, lineAfter_Tf hTf]
    by_cases hargs : 2 ≤ (instrOf o).args.length
    · rw [if_pos ⟨hTf, hargs⟩, hfound hTf, Bool.true_and]
      exact ⟨h.state.set_Tf hTf hargs, h.line, h.saved⟩
    · rw [if_neg fun hboth => hargs hboth.2, set_Tf_of_lt hTf hargs, set_Tf_of_lt hTf hargs]
      exact h
  · rw [FontKept.step_of_ne hq hQ hTf]
    have hstate := h.state.set (i := instrOf o) hTf
    exact ⟨hstate, by rw [hstate.eq_of_bare TextState.leading fun _ => rfl, h.line], h.saved⟩

/-- An operator for the font that is left out. -/
theorem Sim.noFont {k : FontKept} {a b : TextRun} (h : Sim k a b) {o : Operation}
    (hTf : o.last.value = lit "Tf") (hfound : fontFound res o = false) :
    Sim (k.step res o) (a.step (instrOf o)) b := by
  have hop : (instrOf o).op = o.last.value := rfl
  have hq : o.last.value ≠ lit "q" := by rw [hTf]; decide
  have hQ : o.last.value ≠ lit "Q" := by rw [hTf]; decide
  rw [TextRun.step_of_ne hq hQ, lineAfter_Tf hTf, FontKept.step, if_neg hq, if_neg hQ]
  by_cases hargs : 2 ≤ (instrOf o).args.length
  · rw [if_pos ⟨hTf, hargs⟩, hfound, Bool.false_and]
    refine ⟨⟨?_, fun hkept => by cases hkept⟩, h.line, h.saved⟩
    rw [TextState.bare_set_Tf (hop.trans hTf), h.state.bare]
  · rw [if_neg fun hboth => hargs hboth.2, set_Tf_of_lt hTf hargs]
    exact h

/-- An operator that is left out and changes nothing. -/
theorem Sim.left {k : FontKept} {a b : TextRun} (h : Sim k a b) {o : Operation}
    (hop : o.last.value ∉ textOps) : Sim (k.step res o) (a.step (instrOf o)) b := by
  have hne : o.last.value ≠ lit "q" ∧ o.last.value ≠ lit "Q" ∧ o.last.value ≠ lit "Tf" := by
    refine ⟨?_, ?_, ?_⟩ <;> exact fun h => hop (by rw [h]; decide)
  rw [FontKept.step_of_ne hne.1 hne.2.1 hne.2.2, TextRun.step_of_not_mem hop]
  exact h

/-- The operators that show text in a new line. -/
def quotes (op : Bytes) : Bool := op ∈ ["'", "\""].map lit

/-- Whether a font is set wherever text is shown in a new line. -/
def QuotesSet (res : Resources) (ops : List Operation) : Prop :=
  Base.AtEach (fun pre o => quotes o.last.value = true → (fontUse res pre).name.isSome = true) ops

/-- What is written for operations are operations, with the same effect but for fonts. -/
structure Rewritten (q : Qpdf) (res : Resources) (ops : List Operation) (s : GlyphCleanFilter) :
    Prop where
  operands : s.operands = []
  follows : Follows res (fontUse res ops) s
  sim : ∃ kops : List Operation, s.out = kops.flatMap Phrase.text ∧
    Sim (fontKept res ops) (textRun (ops.map instrOf)) (textRun (kops.map instrOf))

/-- One operation more is rewritten as the filter handles it. -/
theorem Rewritten.handled {ops : List Operation} {o : Operation} {s' : GlyphCleanFilter}
    (h : Rewritten q res ops s) (hs : Handled q res s o s')
    (hquote : quotes o.last.value = true → (fontUse res ops).name.isSome = true) :
    Rewritten q res (ops ++ [o]) s' := by
  have hfollows : Follows res (fontUse res (ops ++ [o])) s' := by
    rw [fontUse, List.foldl_append]
    exact h.follows.handled hs
  refine ⟨hs.operands_eq, hfollows, ?_⟩
  obtain ⟨kops, hout, hsim⟩ := h.sim
  have hkept : fontKept res (ops ++ [o]) = (fontKept res ops).step res o := List.foldl_append
  rw [hkept, List.map_append, List.map_singleton, textRun_append]
  -- An operation that is written stands at the end of those that are.
  have hwrite : ∀ {ws : List Token}, List.Forall₂ Alike o.words ws →
      (o.last.value = lit "Tf" → fontFound res o = true) →
      ∃ kops' : List Operation,
        s.out ++ (ws.map (GlyphClean.written q) ++ [o.last]) = kops'.flatMap Phrase.text ∧
          Sim ((fontKept res ops).step res o) ((textRun (ops.map instrOf)).step (instrOf o))
            (textRun (kops'.map instrOf)) := by
    intro ws halike hfound
    refine ⟨kops ++ [withWords o (forall₂_map (@alike_written q) halike)], ?_, ?_⟩
    · rw [List.flatMap_append, ← hout, List.flatMap_singleton]
      rfl
    · rw [List.map_append, List.map_singleton, textRun_append, instrOf_withWords]
      exact hsim.written hfound
  have hne : ∀ {op : Bytes}, Fontless op → op = lit "Tf" → fontFound res o = true :=
    fun hfont hTf => absurd hTf hfont.1
  cases hs with
  | marked hmarks => exact hwrite (alike_edited o) (hne (@fontless_of_marks res _ hmarks).1)
  | noFont hTf hname hnone =>
      have hfound : fontFound res o = false := by
        rw [fontFound, hnone, Option.isSome_none, Bool.or_false]
        exact decide_eq_false hname
      exact ⟨kops, hout, hsim.noFont hTf hfound⟩
  | font hTf hfound =>
      refine hwrite (forall₂_refl _) fun _ => ?_
      rw [fontFound, Bool.or_eq_true, decide_eq_true_eq]
      exact hfound
  | noResource names hdomain hname hmissing =>
      refine ⟨kops, hout, hsim.left ?_⟩
      obtain h | h | h | h | h := domain_eq_some hdomain <;> rw [h] <;> decide
  | resource names hdomain =>
      exact hwrite (forall₂_refl _) (hne (fontless_of_domain hdomain).1)
  | unset hshows hset =>
      refine ⟨kops, hout, hsim.left ?_⟩
      have hunset : (fontUse res ops).name.isSome = false := h.follows.font.1.symm.trans hset
      rw [hunset] at hquote
      obtain h | h | h | h := shows_iff.mp hshows
      · rw [h]; decide
      · rw [h]; decide
      · exact absurd (hquote (by rw [h]; decide)) Bool.false_ne_true
      · exact absurd (hquote (by rw [h]; decide)) Bool.false_ne_true
  | shown hshows hset =>
      exact hwrite (alike_edited o) (hne (@fontless_of_shows res _ hshows).1)
  | other hmarks hTf =>
      exact hwrite (forall₂_refl _) fun h => absurd h hTf

theorem rewritten (ops : List Operation) (h : QuotesSet res ops) :
    Rewritten q res ops (filtered q res (ops.flatMap Phrase.text)) := by
  induction ops using List.reverseRecOn with
  | nil => exact ⟨rfl, ⟨⟨rfl, fun t ht => by cases ht⟩, .nil⟩, [], rfl,
      ⟨rfl, fun _ => rfl⟩, rfl, .nil⟩
  | append_singleton ops o ih =>
      obtain ⟨hops, ho⟩ := Base.atEach_append.mp h
      have hrun := ih hops
      rw [filtered, List.flatMap_append, List.foldl_append, List.flatMap_singleton, ← filtered,
        foldl_text o hrun.operands]
      exact hrun.handled (step_handled o) ho

/-- Whether an operator that shows text has the same line, spacing and leading where it is written
as where it was read, and the same font if this was kept. -/
structure SameText (kept : Bool) (a b : TextRun) : Prop where
  line : b.line = a.line
  wordSpace : b.state.wordSpace = a.state.wordSpace
  charSpace : b.state.charSpace = a.state.charSpace
  leading : b.state.leading = a.state.leading
  font : kept = true → b.state.fontName = a.state.fontName ∧ b.state.size = a.state.size

/-- Whether text that is written stays in place. -/
def InPlace (q : Qpdf) (res : Resources) (ts : List Token) : Prop :=
  ∀ pre o post, (operations ts).1 = pre ++ o :: post → shows o.last.value = true →
    (∃ words, (filtered q res ((pre ++ [o]).flatMap Phrase.text)).out =
      (filtered q res (pre.flatMap Phrase.text)).out ++ words ++ [o.last]) →
    SameText (fontKept res pre).kept (textAfter (pre.flatMap Phrase.text))
      (textAfter (filtered q res (pre.flatMap Phrase.text)).out)

/-- If every operator that shows text in a new line has a font, all text that is written stays
in place. -/
theorem inPlace_of_quotesSet {ts : List Token} (h : QuotesSet res (operations ts).1) :
    InPlace q res ts := by
  rintro pre o post hops - -
  have hpre : QuotesSet res pre := by
    rw [hops] at h
    exact Base.AtEach.left h
  obtain ⟨kops, hout, hsim⟩ := (rewritten (q := q) pre hpre).sim
  rw [textAfter_flatMap, hout, textAfter_flatMap]
  refine ⟨hsim.line, ?_, ?_, ?_, ?_⟩
  · exact hsim.state.eq_of_bare TextState.wordSpace fun _ => rfl
  · exact hsim.state.eq_of_bare TextState.charSpace fun _ => rfl
  · exact hsim.state.eq_of_bare TextState.leading fun _ => rfl
  · intro hkept
    rw [hsim.state.font hkept]
    exact ⟨rfl, rfl⟩

theorem isOperator_op (w : String) : isOperator (Token.op w) = true := rfl

/-- An operation of some operands. -/
def operation (w : String) (words : List Token) : Operation where
  words := words.filter fun t => !isOperator t
  last := Token.op w
  words_open _ ht := (Bool.not_eq_true' _).mp (List.mem_filter.mp ht).2
  last_ends := isOperator_op w

/-- A font without bad codes. -/
def oneFont : Resources := { fonts := [(lit "/F1", {})] }

/-- `BT 12 TL (a) ' /F1 10 Tf`. -/
def beforeText : List Operation :=
  [operation "BT" [], operation "TL" [.plain .integer (lit "12")],
    operation "'" [⟨.string, lit "a", lit "(a)"⟩],
    operation "Tf" [.plain .name (lit "/F1"), .plain .integer (lit "10")]]

/-- `(b) Tj`. -/
def showB : Operation := operation "Tj" [⟨.string, lit "b", lit "(b)"⟩]

/-- The text that follows a quote without a font is written a line too high. -/
theorem beforeText_moved :
    ¬ InPlace PlainPdf.library oneFont ((beforeText ++ [showB]).flatMap Phrase.text) := by
  intro h
  have hops : (operations ((beforeText ++ [showB]).flatMap Phrase.text)).1 =
      beforeText ++ showB :: [] := congrArg Prod.fst (operations_flatMap _)
  have hline := (h beforeText showB [] hops rfl ⟨_, rfl⟩).line
  rw [textAfter_flatMap] at hline
  revert hline
  decide +kernel

/-- `BT /F1 10 Tf (b) '`. -/
def newLine : List Operation :=
  [operation "BT" [], operation "Tf" [.plain .name (lit "/F1"), .plain .integer (lit "10")],
    operation "'" [⟨.string, lit "b", lit "(b)"⟩]]

theorem newLine_inPlace : InPlace PlainPdf.library oneFont (newLine.flatMap Phrase.text) := by
  refine inPlace_of_quotesSet ?_
  rw [operations_flatMap]
  have hset : QuotesSet oneFont ((([] ++ [newLine[0]]) ++ [newLine[1]]) ++ [newLine[2]]) := by
    simp only [QuotesSet, Base.atEach_append]
    exact ⟨⟨⟨.nil, by decide⟩, by decide⟩, by decide⟩
  exact hset

end Kura.Engine.GlyphClean
