import Kura.Engine.TagWrap

/-!
# Content between marks

The filter leaves balanced marks around every operator, numbered in order. A
paragraph goes on until an artifact, the painting of an image or the end of the
page, so it may start outside of a text object and end inside.
-/

namespace Kura.Engine.Tagging

open Base (Phrase)
open Text (lastName)

/-- The stretch of operators outside of artifacts that goes on, and those that have ended. -/
structure Stretches where
  marks : List Bool := []
  place : TextPlace := {}
  start : Option (Option Nat) := none
  ended : List (Option Nat × Option Nat) := []

namespace Stretches

variable (imageNames : List Bytes) (m : Stretches)

def inArtifact : Bool := m.marks.any id

/-- The stretch ends, if there is one. -/
def stop : Stretches :=
  match m.start with
  | none => m
  | some b => { m with start := none, ended := m.ended ++ [(b, m.place.object)] }

/-- The stretch goes on, or one starts. -/
def goOn : Stretches := if m.inArtifact then m else {
    m with start := some (m.start.getD m.place.object) }

/-- Whether an operation paints an image outside of artifacts and text. -/
def paints (o : Operation) : Bool :=
  o.last.isWord "Do" && !m.inArtifact && m.place.depth = 0 &&
    imageNames.contains (lastName o.words)

/-- One operation. -/
def step (o : Operation) : Stretches :=
  if isOpener o.last then
    if tagOf o.words = lit "/Artifact" then { m.stop with marks := true :: m.marks }
    else { m with marks := false :: m.marks }
  else if isCloser o.last then { m with marks := m.marks.tail }
  else if m.paints imageNames o then m.stop
  else { m.goOn with place := m.place.next o.last }

end Stretches

/-- The text objects in which the stretches of a page start and end. -/
def stretches (imageNames : List Bytes) (os : List Operation) : List (Option Nat × Option Nat) :=
  (os.foldl (Stretches.step imageNames) {}).stop.ended

/-- Whether pieces end with an operation or a mark. -/
def Whole (ps : List Piece) : Prop := (Base.phrases endsPiece ps).2 = []

theorem reading_append {ps : List Piece} (h : Whole ps) (p : Phrase endsPiece) :
    reading (ps ++ p.text) = (reading ps).step p ∧ Whole (ps ++ p.text) := by
  have hphrases := Base.phrases_concat h p
  rw [reading, Whole, hphrases, List.foldl_append]
  exact ⟨rfl, rfl⟩

/-- A mark as a phrase. -/
def markPhrase (p : Piece) (h : endsPiece p = true) : Phrase endsPiece :=
  ⟨[], p, fun _ hw => absurd hw List.not_mem_nil, h⟩

/-- An operation that is copied as a phrase. -/
def copiedPhrase (o : Operation) : Phrase endsPiece where
  words := o.words.map .copied
  last := .copied o.last
  words_open := List.forall_mem_map.mpr o.words_open
  last_ends := o.last_ends

theorem text_copiedPhrase (o : Operation) : (copiedPhrase o).text = o.text.map .copied := by
  rw [Phrase.text, Phrase.text, List.map_append]
  rfl

theorem tokens_append (ps qs : List Piece) :
    Reading.tokens (ps ++ qs) = Reading.tokens ps ++ Reading.tokens qs := List.filterMap_append

theorem tokens_copied (ts : List Token) : Reading.tokens (ts.map .copied) = ts := by
  rw [Reading.tokens, List.filterMap_map]
  exact List.filterMap_some

/-- The marks that are open for a reader: those of the artifacts, or of the paragraph. -/
def openMarks : Option (Option Nat) → List Bool → List Mark
  | some b, _ => [.inserted b]
  | none, marks => (marks.filter id).map fun _ => .artifact

/-- What a reader knows of what was written, for the stretches of the page. -/
structure Wraps (s : TagWrapFilter) (m : Stretches) : Prop where
  whole : Whole s.out
  stack : (reading s.out).stack = openMarks m.start s.mcStack
  place : (reading s.out).place = m.place
  matched : (reading s.out).matched = true
  opened : (reading s.out).opened = s.segments
  numbered : s.segments.map Segment.mcid = List.range s.nextMcid
  around : ∀ marks ∈ (reading s.out).around,
    Mark.artifact ∈ marks ∨ marks.countP Mark.isInserted = 1
  ended : (∀ c ∈ (reading s.out).closed, c.1 = c.2) ↔ ∀ c ∈ m.ended, c.1 = c.2
  marks : m.marks = s.mcStack
  start : m.start.isSome = s.pOpen
  quiet : m.start.isSome = true → s.inArtifact = false

variable {imageNames : List Bytes} {s : TagWrapFilter} {m : Stretches}

theorem reading_mark {ps : List Piece} (h : Whole ps) {p : Piece} (hp : endsPiece p = true) :
    reading (ps ++ [p]) = (reading ps).step (markPhrase p hp) ∧ Whole (ps ++ [p]) :=
  reading_append h (markPhrase p hp)

theorem reading_copied {ps : List Piece} (h : Whole ps) (o : Operation) :
    reading (ps ++ o.text.map .copied) = (reading ps).operator (o.words.map .copied) o.last ∧
      Whole (ps ++ o.text.map .copied) := by
  rw [← text_copiedPhrase]
  exact reading_append h (copiedPhrase o)

theorem pop_inserted {r : Reading} {b : Option Nat} {rest : List Mark}
    (h : r.stack = .inserted b :: rest) :
    r.pop = { r with stack := rest, closed := r.closed ++ [(b, r.place.object)] } := by
  rw [Reading.pop, h]

theorem pop_artifact {r : Reading} {rest : List Mark} (h : r.stack = .artifact :: rest) :
    r.pop = { r with stack := rest } := by
  rw [Reading.pop, h]

theorem forall_closed_append {l : List (Option Nat × Option Nat)} {b e : Option Nat} :
    (∀ c ∈ l ++ [(b, e)], c.1 = c.2) ↔ (∀ c ∈ l, c.1 = c.2) ∧ b = e := by
  rw [List.forall_mem_append, List.forall_mem_singleton]

/-- To close the paragraph keeps the markers wrapped. -/
theorem Wraps.closeP (h : Wraps s m) : Wraps s.closeP m.stop := by
  rw [TagWrapFilter.closeP, Stretches.stop]
  cases hstart : m.start with
  | none =>
      have hopen : s.pOpen = false := by rw [← h.start, hstart]; rfl
      rw [hopen, if_neg Bool.false_ne_true]
      exact h
  | some b =>
      have hopen : s.pOpen = true := by rw [← h.start, hstart]; rfl
      have hquiet : s.mcStack.filter id = [] := by
        have hnone := h.quiet (by rw [hstart]; rfl)
        rw [TagWrapFilter.inArtifact, List.any_eq_false] at hnone
        exact List.filter_eq_nil_iff.mpr hnone
      have hstack : (reading s.out).stack = [.inserted b] := by rw [h.stack, hstart]; rfl
      obtain ⟨hread, hwhole⟩ := reading_mark h.whole (p := .closeP) rfl
      have hread' : reading (s.out ++ [.closeP]) = (reading s.out).pop := hread
      rw [pop_inserted hstack] at hread'
      rw [hopen, if_pos rfl]
      refine ⟨hwhole, ?_, ?_, ?_, ?_, h.numbered, ?_, ?_, h.marks, rfl, fun hsome => by cases hsome⟩
      · rw [hread', openMarks, hquiet]
        rfl
      · rw [hread']
        exact h.place
      · rw [hread']
        exact h.matched
      · rw [hread']
        exact h.opened
      · rw [hread']
        exact h.around
      · rw [hread', forall_closed_append, forall_closed_append, h.ended, h.place]

/-- To open a paragraph keeps the markers wrapped. -/
theorem Wraps.openP (h : Wraps s m) (hquiet : s.inArtifact = false) : Wraps s.openP m.goOn := by
  have hartifact : m.inArtifact = false := by rw [Stretches.inArtifact, h.marks]; exact hquiet
  rw [TagWrapFilter.openP, Stretches.goOn, hquiet, hartifact, Bool.or_false,
    if_neg Bool.false_ne_true]
  cases hstart : m.start with
  | some b =>
      have hopen : s.pOpen = true := by rw [← h.start, hstart]; rfl
      rw [hopen, if_pos rfl, Option.getD_some, ← hstart]
      exact h
  | none =>
      have hopen : s.pOpen = false := by rw [← h.start, hstart]; rfl
      have hnone : s.mcStack.filter id = [] := by
        rw [TagWrapFilter.inArtifact, List.any_eq_false] at hquiet
        exact List.filter_eq_nil_iff.mpr hquiet
      have hstack : (reading s.out).stack = [] := by
        rw [h.stack, hstart, openMarks, hnone]
        rfl
      obtain ⟨hread, hwhole⟩ := reading_mark h.whole (p := .openP s.nextMcid) rfl
      have hread' : reading (s.out ++ [.openP s.nextMcid]) =
          (reading s.out).start ⟨false, s.nextMcid⟩ := hread
      rw [hopen, if_neg Bool.false_ne_true, Option.getD_none]
      refine ⟨hwhole, ?_, ?_, ?_, ?_, ?_, ?_, ?_, h.marks, rfl, fun _ => hquiet⟩
      · rw [hread', Reading.start, hstack, h.place]
        rfl
      · rw [hread']
        exact h.place
      · rw [hread']
        exact h.matched
      · rw [hread', Reading.start, h.opened]
      · rw [List.map_append, h.numbered, List.range_succ]
        rfl
      · rw [hread']
        exact h.around
      · rw [hread']
        exact h.ended

/-- Only what is written and counted matters. -/
theorem Wraps.congr {s' : TagWrapFilter} (h : Wraps s m) (hout : s'.out = s.out)
    (hsegments : s'.segments = s.segments) (hmarks : s'.mcStack = s.mcStack)
    (hmcid : s'.nextMcid = s.nextMcid) (hopen : s'.pOpen = s.pOpen) : Wraps s' m := by
  obtain ⟨segments, sawContent, operands, mcStack, btDepth, nextMcid, pOpen, out⟩ := s
  obtain ⟨segments', sawContent', operands', mcStack', btDepth', nextMcid', pOpen', out'⟩ := s'
  dsimp only at hout hsegments hmarks hmcid hopen
  subst hout hsegments hmarks hmcid hopen
  exact ⟨h.whole, h.stack, h.place, h.matched, h.opened, h.numbered, h.around, h.ended, h.marks,
    h.start, h.quiet⟩

/-- The filter behind an operation that it copies. -/
def copy (s : TagWrapFilter) (o : Operation) : TagWrapFilter :=
  { s with operands := [], out := s.out ++ o.text.map .copied }

theorem flush_write {o : Operation} (hs : s.operands = o.words) :
    s.flushOperands.writeToken o.last = copy s o := by
  rw [TagWrapFilter.flushOperands, TagWrapFilter.writeToken, copy, Phrase.text, List.map_append, hs,
    ← List.append_assoc]
  rfl

/-- A copied operation keeps the markers wrapped. -/
theorem Wraps.copied (h : Wraps s m) {o : Operation} (hopener : isOpener o.last = false)
    (hcloser : isCloser o.last = false) (hinside : m.start.isSome = true ∨ s.inArtifact = true) :
    Wraps (copy s o) { m with place := m.place.next o.last } := by
  obtain ⟨hread, hwhole⟩ := reading_copied h.whole o
  rw [Reading.operator, hopener, if_neg Bool.false_ne_true, hcloser, if_neg Bool.false_ne_true]
    at hread
  refine ⟨hwhole, ?_, ?_, ?_, ?_, h.numbered, ?_, ?_, h.marks, h.start, h.quiet⟩
  · rw [copy, hread]
    exact h.stack
  · rw [copy, hread, h.place]
  · rw [copy, hread]
    exact h.matched
  · rw [copy, hread]
    exact h.opened
  · rw [copy, hread]
    refine List.forall_mem_append.mpr ⟨h.around, List.forall_mem_singleton.mpr ?_⟩
    rw [h.stack]
    cases hstart : m.start with
    | some b => exact Or.inr rfl
    | none =>
        rw [hstart] at hinside
        obtain hsome | hartifact := hinside
        · cases hsome
        · obtain ⟨b, hb, rfl⟩ := List.any_eq_true.mp hartifact
          exact Or.inl (List.mem_map.mpr ⟨true, List.mem_filter.mpr ⟨hb, rfl⟩, rfl⟩)
  · rw [copy, hread]
    exact h.ended

/-- An artifact starts. -/
theorem Wraps.artifact (h : Wraps s m) (hstart : m.start = none) {o : Operation}
    (hopener : isOpener o.last = true) (htag : tagOf o.words = lit "/Artifact") :
    Wraps { copy s o with mcStack := true :: s.mcStack } { m with marks := true :: m.marks } := by
  obtain ⟨hread, hwhole⟩ := reading_copied h.whole o
  rw [Reading.operator, if_pos hopener, tokens_copied, if_pos htag] at hread
  refine ⟨hwhole, ?_, ?_, ?_, ?_, h.numbered, ?_, ?_, ?_, h.start, ?_⟩
  · rw [copy, hread, h.stack, hstart]
    rfl
  · rw [copy, hread]
    exact h.place
  · rw [copy, hread]
    exact h.matched
  · rw [copy, hread]
    exact h.opened
  · rw [copy, hread]
    exact h.around
  · rw [copy, hread]
    exact h.ended
  · rw [h.marks]
  · intro hsome
    rw [hstart] at hsome
    cases hsome

/-- An artifact ends. -/
theorem Wraps.endArtifact (h : Wraps s m) {rest : List Bool} (hmarks : s.mcStack = true :: rest)
    {o : Operation} (hopener : isOpener o.last = false) (hcloser : isCloser o.last = true) :
    Wraps { copy s o with mcStack := rest } { m with marks := m.marks.tail } := by
  have hstart : m.start = none := by
    rw [← Option.not_isSome_iff_eq_none]
    intro hsome
    have hquiet := h.quiet hsome
    rw [TagWrapFilter.inArtifact, hmarks] at hquiet
    cases hquiet
  have hstack : (reading s.out).stack = .artifact :: openMarks none rest := by
    rw [h.stack, hstart, hmarks]
    rfl
  obtain ⟨hread, hwhole⟩ := reading_copied h.whole o
  rw [Reading.operator, hopener, if_neg Bool.false_ne_true, if_pos hcloser, pop_artifact hstack]
    at hread
  refine ⟨hwhole, ?_, ?_, ?_, ?_, h.numbered, ?_, ?_, ?_, h.start, ?_⟩
  · rw [copy, hread, hstart]
  · rw [copy, hread]
    exact h.place
  · rw [copy, hread]
    exact h.matched
  · rw [copy, hread]
    exact h.opened
  · rw [copy, hread]
    exact h.around
  · rw [copy, hread]
    exact h.ended
  · rw [h.marks, hmarks]
    rfl
  · intro hsome
    rw [hstart] at hsome
    cases hsome

theorem Wraps.otherMark (h : Wraps s m) :
    Wraps { s with mcStack := false :: s.mcStack, operands := [] }
      { m with marks := false :: m.marks } := by
  refine ⟨h.whole, ?_, h.place, h.matched, h.opened, h.numbered, h.around, h.ended, ?_, h.start, ?_⟩
  · rw [h.stack]
    cases m.start <;> rfl
  · rw [h.marks]
  · exact h.quiet

theorem Wraps.endOther (h : Wraps s m) {rest : List Bool} (hmarks : s.mcStack = false :: rest) :
    Wraps { s with mcStack := rest, operands := [] } { m with marks := m.marks.tail } := by
  refine ⟨h.whole, ?_, h.place, h.matched, h.opened, h.numbered, h.around, h.ended, ?_, h.start, ?_⟩
  · rw [h.stack, hmarks]
    cases m.start <;> rfl
  · rw [h.marks, hmarks]
    rfl
  · intro hsome
    have hquiet := h.quiet hsome
    rw [TagWrapFilter.inArtifact, hmarks] at hquiet
    exact hquiet

theorem Stretches.stop_start (m : Stretches) : m.stop.start = none := by
  rw [stop]
  cases h : m.start with
  | none => exact h
  | some b => rfl

theorem next_of_ne {p : TextPlace} {t : Token} (hBT : t.isWord "BT" = false)
    (hET : t.isWord "ET" = false) : p.next t = p := by
  rw [TextPlace.next, hBT, if_neg Bool.false_ne_true, hET, if_neg Bool.false_ne_true]

/-- A figure of its own keeps the markers wrapped. -/
theorem Wraps.figure (h : Wraps s m) (hstart : m.start = none) (hquiet : s.inArtifact = false)
    {o : Operation} (hs : s.operands = o.words) (hopener : isOpener o.last = false)
    (hcloser : isCloser o.last = false) (hnext : m.place.next o.last = m.place) :
    Wraps { (s.openFigure.flushOperands).writeToken o.last with
      out := ((s.openFigure.flushOperands).writeToken o.last).out ++ [.closeFigure]
      sawContent := true } m := by
  have hnone : s.mcStack.filter id = [] := by
    rw [TagWrapFilter.inArtifact, List.any_eq_false] at hquiet
    exact List.filter_eq_nil_iff.mpr hquiet
  have hstack : (reading s.out).stack = [] := by
    rw [h.stack, hstart, openMarks, hnone]
    rfl
  have hcopy : (s.openFigure.flushOperands).writeToken o.last = copy s.openFigure o :=
    flush_write hs
  obtain ⟨hstarted, hwhole₁⟩ := reading_mark h.whole (p := .openFigure s.nextMcid) rfl
  obtain ⟨hcopied, hwhole₂⟩ := reading_copied hwhole₁ o
  obtain ⟨hended, hwhole₃⟩ := reading_mark hwhole₂ (p := .closeFigure) rfl
  have hread : reading (s.out ++ [.openFigure s.nextMcid]) =
      (reading s.out).start ⟨true, s.nextMcid⟩ := hstarted
  rw [hread, Reading.operator, hopener, if_neg Bool.false_ne_true, hcloser,
    if_neg Bool.false_ne_true] at hcopied
  have hread₂ :
      reading (s.out ++ [.openFigure s.nextMcid] ++ o.text.map .copied ++ [.closeFigure]) =
      (reading (s.out ++ [.openFigure s.nextMcid] ++ o.text.map .copied)).pop := hended
  have hinner : (reading (s.out ++ [.openFigure s.nextMcid] ++ o.text.map .copied)).stack =
      [.inserted m.place.object] := by
    rw [hcopied, Reading.start, hstack, h.place]
  rw [pop_inserted hinner, hcopied] at hread₂
  rw [hcopy]
  refine ⟨hwhole₃, ?_, ?_, ?_, ?_, ?_, ?_, ?_, h.marks, h.start, h.quiet⟩
  · rw [copy, TagWrapFilter.openFigure, hread₂, hstart, openMarks, hnone]
    rfl
  · rw [copy, TagWrapFilter.openFigure, hread₂]
    change (reading s.out).place.next o.last = m.place
    rw [h.place, hnext]
  · rw [copy, TagWrapFilter.openFigure, hread₂]
    exact h.matched
  · rw [copy, TagWrapFilter.openFigure, hread₂, Reading.start, h.opened]
  · rw [copy, TagWrapFilter.openFigure, List.map_append, h.numbered, List.range_succ]
    rfl
  · rw [copy, TagWrapFilter.openFigure, hread₂, Reading.start, hstack]
    exact List.forall_mem_append.mpr ⟨h.around, List.forall_mem_singleton.mpr (Or.inr rfl)⟩
  · rw [copy, TagWrapFilter.openFigure, hread₂, forall_closed_append]
    change ((∀ c ∈ (reading s.out).closed, c.1 = c.2) ∧
      m.place.object = ((reading s.out).place.next o.last).object) ↔ _
    rw [h.place, hnext, h.ended]
    exact and_iff_left rfl

/-- An operator that is neither a mark nor the painting of an image. -/
theorem Wraps.plain (h : Wraps s m) {o : Operation} (hs : s.operands = o.words)
    (hopener : isOpener o.last = false) (hcloser : isCloser o.last = false) :
    Wraps ((s.openP.flushOperands).writeToken o.last)
      { m.goOn with place := m.place.next o.last } := by
  have hartifact : m.inArtifact = s.inArtifact := by
    rw [Stretches.inArtifact, h.marks, TagWrapFilter.inArtifact]
  cases hinside : s.inArtifact with
  | true =>
      have hopenP : s.openP = s := by
        rw [TagWrapFilter.openP, hinside, Bool.or_true, if_pos rfl]
      have hgoOn : m.goOn = m := by
        rw [Stretches.goOn, hartifact, hinside, if_pos rfl]
      rw [hopenP, hgoOn, flush_write hs]
      exact h.copied hopener hcloser (Or.inr hinside)
  | false =>
      have hopened := h.openP hinside
      have hwords : s.openP.operands = o.words := by
        rw [TagWrapFilter.openP]
        split
        · exact hs
        · exact hs
      have hgoOn : m.goOn = { m with start := some (m.start.getD m.place.object) } := by
        rw [Stretches.goOn, hartifact, hinside, if_neg Bool.false_ne_true]
      rw [flush_write hwords]
      have hcopied := hopened.copied hopener hcloser (Or.inl (by rw [hgoOn]; rfl))
      rw [hgoOn] at hcopied ⊢
      exact hcopied

/-- What holds of the filter before each operation. -/
structure Inv (s : TagWrapFilter) (m : Stretches) : Prop where
  wraps : Wraps s m
  depth : m.place.depth = s.btDepth
  operands : s.operands = []

/-- The filter behind one more operation. -/
def step (imageNames : List Bytes) (s : TagWrapFilter) (o : Operation) : TagWrapFilter :=
  ({ s with operands := o.words }).handleToken imageNames o.last

theorem isWord_iff {t : Token} {w : String} :
    t.isWord w = true ↔ t.type = .word ∧ t.value = lit w := by
  simp [Token.isWord]

theorem isWord_eq_false {t : Token} {w : String} (h : t.value ≠ lit w) : t.isWord w = false := by
  rw [← Bool.not_eq_true, isWord_iff]
  exact fun hboth => h hboth.2

theorem isOpener_iff {t : Token} :
    isOpener t = true ↔ t.type = .word ∧ (t.value = lit "BMC" ∨ t.value = lit "BDC") := by
  rw [isOpener, Bool.or_eq_true, isWord_iff, isWord_iff, ← and_or_left]

theorem type_of_last (o : Operation) : o.last.type = .word ∨ o.last.type = .inlineImage := by
  have hends := o.last_ends
  rw [endsOperation, Bool.or_eq_true, decide_eq_true_eq, decide_eq_true_eq] at hends
  exact hends

theorem countText_of_ne {t : Token} (hBT : t.value ≠ lit "BT") (hET : t.value ≠ lit "ET")
    (s : TagWrapFilter) : s.countText t = s := by
  rw [TagWrapFilter.countText, if_neg hBT, if_neg hET]

theorem step_opener {o : Operation} (h : isOpener o.last = true) :
    step imageNames s o = ({ s with operands := o.words }).openMark o.last := by
  obtain ⟨hword, hvalue⟩ := isOpener_iff.mp h
  have hne : o.last.value ≠ lit "BT" ∧ o.last.value ≠ lit "ET" := by
    obtain hvalue | hvalue := hvalue <;> rw [hvalue] <;> decide
  rw [step, TagWrapFilter.handleToken, hword, if_neg (by decide), if_pos rfl,
    TagWrapFilter.operator, if_pos hvalue, countText_of_ne hne.1 hne.2]

theorem step_closer {o : Operation} (h : isCloser o.last = true) :
    step imageNames s o = ({ s with operands := o.words }).closeMark o.last := by
  obtain ⟨hword, hvalue⟩ := isWord_iff.mp h
  have hne : o.last.value ≠ lit "BT" ∧ o.last.value ≠ lit "ET" ∧
      ¬ (o.last.value = lit "BMC" ∨ o.last.value = lit "BDC") := by
    rw [hvalue]
    decide
  rw [step, TagWrapFilter.handleToken, hword, if_neg (by decide), if_pos rfl,
    TagWrapFilter.operator, if_neg hne.2.2, if_pos hvalue, countText_of_ne hne.1 hne.2.1]

theorem step_image {o : Operation} (h : o.last.type = .inlineImage) :
    step imageNames s o =
      (({ s with operands := o.words }).openP.flushOperands).writeToken o.last := by
  rw [step, TagWrapFilter.handleToken, if_pos h]

/-- An operator that is no marker, taken apart. -/
theorem step_word {o : Operation} (hword : o.last.type = .word) (hopener : isOpener o.last = false)
    (hcloser : isCloser o.last = false) :
    step imageNames s o =
      if (({ s with operands := o.words }).countText o.last).paintsFigure imageNames o.last then
        (({ s with operands := o.words }).countText o.last).figure o.last
      else
        { ((({ s with operands := o.words }).countText o.last).openP.flushOperands).writeToken
          o.last
          with sawContent := true } := by
  have hmark : ¬ (o.last.value = lit "BMC" ∨ o.last.value = lit "BDC") := by
    intro hvalue
    rw [isOpener_iff.mpr ⟨hword, hvalue⟩] at hopener
    cases hopener
  have hclose : o.last.value ≠ lit "EMC" := by
    intro hvalue
    rw [isCloser, isWord_iff.mpr ⟨hword, hvalue⟩] at hcloser
    cases hcloser
  rw [step, TagWrapFilter.handleToken, hword, if_neg (by decide), if_pos rfl,
    TagWrapFilter.operator, if_neg hmark, if_neg hclose]

theorem balanced_cons {marks : List Bool} {o : Operation} {os : List Operation}
    (h : balanced marks.length (o :: os) = true) :
    balanced (markStep marks o).1.length os = true := by
  rw [balanced] at h
  rw [markStep]
  split_ifs at h ⊢ with hopener hcloser
  · exact h
  · rw [Bool.and_eq_true] at h
    rw [List.length_tail]
    exact h.2
  · exact h

/-- What the filter makes of one more operation: its marks, and what it copies. -/
structure Follows (s : TagWrapFilter) (o : Operation) (s' : TagWrapFilter) : Prop where
  marks : s'.mcStack = (markStep s.mcStack o).1
  copied : Reading.tokens s'.out =
    Reading.tokens s.out ++ if (markStep s.mcStack o).2 then o.text else []

theorem tokens_copy (s : TagWrapFilter) (o : Operation) :
    Reading.tokens (copy s o).out = Reading.tokens s.out ++ o.text := by
  rw [copy, tokens_append, tokens_copied]

theorem tokens_closeP (s : TagWrapFilter) :
    Reading.tokens s.closeP.out = Reading.tokens s.out := by
  rw [TagWrapFilter.closeP]
  split
  · rw [tokens_append]
    exact List.append_nil _
  · rfl

theorem tokens_openP (s : TagWrapFilter) : Reading.tokens s.openP.out = Reading.tokens s.out := by
  rw [TagWrapFilter.openP]
  split
  · rfl
  · rw [tokens_append]
    exact List.append_nil _

theorem closeP_rest (s : TagWrapFilter) :
    s.closeP.mcStack = s.mcStack ∧ s.closeP.btDepth = s.btDepth ∧
      s.closeP.operands = s.operands := by
  rw [TagWrapFilter.closeP]
  split <;> exact ⟨rfl, rfl, rfl⟩

theorem openP_rest (s : TagWrapFilter) :
    s.openP.mcStack = s.mcStack ∧ s.openP.btDepth = s.btDepth ∧ s.openP.operands = s.operands := by
  rw [TagWrapFilter.openP]
  split <;> exact ⟨rfl, rfl, rfl⟩

theorem markStep_plain {marks : List Bool} {o : Operation} (hopener : isOpener o.last = false)
    (hcloser : isCloser o.last = false) : markStep marks o = (marks, true) := by
  rw [markStep, hopener, if_neg Bool.false_ne_true, hcloser, if_neg Bool.false_ne_true]

theorem stop_rest (m : Stretches) : m.stop.marks = m.marks ∧ m.stop.place = m.place := by
  rw [Stretches.stop]
  cases m.start <;> exact ⟨rfl, rfl⟩

theorem Inv.words (h : Inv s m) (ws : List Token) : Wraps { s with operands := ws } m :=
  h.wraps.congr rfl rfl rfl rfl rfl

/-- An opener keeps the invariant. -/
theorem Inv.opener (h : Inv s m) {o : Operation} (hopener : isOpener o.last = true) :
    Inv (step imageNames s o) (m.step imageNames o) ∧ Follows s o (step imageNames s o) := by
  rw [step_opener hopener, TagWrapFilter.openMark, Stretches.step, if_pos hopener]
  by_cases htag : tagOf o.words = lit "/Artifact"
  · have hmark : markStep s.mcStack o = (true :: s.mcStack, true) := by
      rw [markStep, if_pos hopener, decide_eq_true htag]
    obtain ⟨hmarks, hdepth, hwords⟩ := closeP_rest { s with operands := o.words }
    obtain ⟨hstopMarks, hstopPlace⟩ := stop_rest m
    have hclosed := (h.words o.words).closeP.artifact m.stop_start hopener htag
    rw [if_pos htag, if_pos htag, flush_write hwords]
    refine ⟨⟨?_, ?_, rfl⟩, ?_, ?_⟩
    · rw [hstopMarks] at hclosed
      exact hclosed
    · exact (congrArg TextPlace.depth hstopPlace).trans (h.depth.trans hdepth.symm)
    · rw [hmark]
      exact congrArg (List.cons true) hmarks
    · rw [hmark, if_pos rfl]
      exact (tokens_copy _ o).trans (congrArg (· ++ o.text) (tokens_closeP _))
  · have hmark : markStep s.mcStack o = (false :: s.mcStack, false) := by
      rw [markStep, if_pos hopener, decide_eq_false htag]
    rw [if_neg htag, if_neg htag]
    refine ⟨⟨(h.words o.words).otherMark, h.depth, rfl⟩, ?_, ?_⟩
    · rw [hmark]
    · rw [hmark, if_neg Bool.false_ne_true, List.append_nil]

theorem closeMark_nil {t : Token} (h : s.mcStack = []) :
    s.closeMark t = { s with operands := [] } := by
  rw [TagWrapFilter.closeMark, h]

theorem closeMark_artifact {t : Token} {rest : List Bool} (h : s.mcStack = true :: rest) :
    s.closeMark t = ({ s with mcStack := rest }.flushOperands).writeToken t := by
  rw [TagWrapFilter.closeMark, h]

theorem closeMark_other {t : Token} {rest : List Bool} (h : s.mcStack = false :: rest) :
    s.closeMark t = { s with mcStack := rest, operands := [] } := by
  rw [TagWrapFilter.closeMark, h]

/-- The marks that are open are none, or the innermost is one of an artifact, or it is another. -/
theorem marks_cases (marks : List Bool) :
    marks = [] ∨ (∃ rest, marks = true :: rest) ∨ ∃ rest, marks = false :: rest := by
  cases marks with
  | nil => exact Or.inl rfl
  | cons b rest =>
      cases b with
      | true => exact Or.inr (Or.inl ⟨rest, rfl⟩)
      | false => exact Or.inr (Or.inr ⟨rest, rfl⟩)

/-- A closer keeps the invariant. -/
theorem Inv.closer (h : Inv s m) {o : Operation} (hopener : isOpener o.last = false)
    (hcloser : isCloser o.last = true) :
    Inv (step imageNames s o) (m.step imageNames o) ∧ Follows s o (step imageNames s o) := by
  have hmark : markStep s.mcStack o = (s.mcStack.tail, decide (s.mcStack.head? = some true)) := by
    rw [markStep, hopener, if_neg Bool.false_ne_true, if_pos hcloser]
  have hm : m.step imageNames o = { m with marks := m.marks.tail } := by
    rw [Stretches.step, hopener, if_neg Bool.false_ne_true, if_pos hcloser]
  rw [step_closer hcloser, hm]
  have hwraps := h.words o.words
  obtain hstack | ⟨rest, hstack⟩ | ⟨rest, hstack⟩ := marks_cases s.mcStack
  · have hmarks : m.marks.tail = m.marks := by
      rw [h.wraps.marks, hstack]
      rfl
    have hclose := @closeMark_nil { s with operands := o.words } o.last hstack
    rw [hstack] at hmark
    rw [hclose, hmarks]
    refine ⟨⟨h.wraps.congr rfl rfl rfl rfl rfl, h.depth, rfl⟩, ?_, ?_⟩
    · rw [hstack, hmark]
      rfl
    · rw [hstack, hmark]
      exact (List.append_nil _).symm
  · have hclose := @closeMark_artifact { s with operands := o.words } o.last rest hstack
    rw [hstack] at hmark
    rw [hclose, flush_write rfl]
    refine ⟨⟨hwraps.endArtifact hstack hopener hcloser, h.depth, rfl⟩, ?_, ?_⟩
    · rw [hstack, hmark]
      rfl
    · rw [hstack, hmark]
      exact tokens_copy s o
  · have hclose := @closeMark_other { s with operands := o.words } o.last rest hstack
    rw [hstack] at hmark
    rw [hclose]
    refine ⟨⟨h.wraps.endOther hstack, h.depth, rfl⟩, ?_, ?_⟩
    · rw [hstack, hmark]
      rfl
    · rw [hstack, hmark]
      exact (List.append_nil _).symm

/-- Counting text objects changes nothing else. -/
theorem countText_eq (s : TagWrapFilter) (t : Token) :
    s.countText t = { s with btDepth := (s.countText t).btDepth } := by
  rw [TagWrapFilter.countText]
  split_ifs <;> rfl

theorem depth_next {o : Operation} (hword : o.last.type = .word) {s : TagWrapFilter}
    (h : m.place.depth = s.btDepth) :
    (m.place.next o.last).depth = (s.countText o.last).btDepth := by
  have hisWord : ∀ w, o.last.isWord w = true ↔ o.last.value = lit w :=
    fun w => isWord_iff.trans (and_iff_right hword)
  rw [TextPlace.next, TagWrapFilter.countText]
  by_cases hBT : o.last.value = lit "BT"
  · rw [if_pos ((hisWord "BT").mpr hBT), if_pos hBT]
    exact congrArg (· + 1) h
  · rw [if_neg fun hw => hBT ((hisWord "BT").mp hw), if_neg hBT]
    by_cases hET : o.last.value = lit "ET"
    · rw [if_pos ((hisWord "ET").mpr hET), if_pos hET]
      exact congrArg (· - 1) h
    · rw [if_neg fun hw => hET ((hisWord "ET").mp hw), if_neg hET]
      exact h

theorem paintsFigure_eq (h : Inv s m) {o : Operation} (hword : o.last.type = .word) :
    (({ s with operands := o.words }).countText o.last).paintsFigure imageNames o.last =
      m.paints imageNames o := by
  rw [TagWrapFilter.paintsFigure, Stretches.paints]
  by_cases hDo : o.last.value = lit "Do"
  · have hcount :
        ({ s with operands := o.words }).countText o.last = { s with operands := o.words } :=
      countText_of_ne (by rw [hDo]; decide) (by rw [hDo]; decide) _
    rw [hcount, decide_eq_true hDo, isWord_iff.mpr ⟨hword, hDo⟩, Stretches.inArtifact,
      h.wraps.marks, h.depth]
    rfl
  · have hnot : o.last.isWord "Do" = false := by
      rw [← Bool.not_eq_true, isWord_iff]
      exact fun hboth => hDo hboth.2
    rw [decide_eq_false hDo, hnot]
    rfl

/-- An operation that is copied behind the start of a paragraph. -/
theorem Wraps.write {s' : TagWrapFilter} {o : Operation} (hwraps : Wraps s' m)
    (hopener : isOpener o.last = false) (hcloser : isCloser o.last = false)
    (hwords : s'.operands = o.words) (hmarks : s'.mcStack = s.mcStack) (hout : s'.out = s.out)
    (hdepth : (m.place.next o.last).depth = s'.btDepth) :
    Inv ((s'.openP.flushOperands).writeToken o.last) { m.goOn with place := m.place.next o.last } ∧
      Follows s o ((s'.openP.flushOperands).writeToken o.last) := by
  obtain ⟨hopenMarks, hopenDepth, hopenWords⟩ := openP_rest s'
  have hplain := hwraps.plain hwords hopener hcloser
  have hmark : markStep s.mcStack o = (s.mcStack, true) := markStep_plain hopener hcloser
  rw [flush_write (hopenWords.trans hwords)] at hplain ⊢
  refine ⟨⟨hplain, hdepth.trans hopenDepth.symm, rfl⟩, ?_, ?_⟩
  · rw [hmark]
    exact hopenMarks.trans hmarks
  · rw [hmark, if_pos rfl, tokens_copy, tokens_openP, hout]

/-- The painting of an image. -/
theorem Inv.figure (h : Inv s m) {o : Operation} (hopener : isOpener o.last = false)
    (hcloser : isCloser o.last = false) (hquiet : s.inArtifact = false)
    (hnext : m.place.next o.last = m.place) :
    Inv (({ s with operands := o.words }).figure o.last) m.stop ∧
      Follows s o (({ s with operands := o.words }).figure o.last) := by
  obtain ⟨hmarks, hdepth, hwords⟩ := closeP_rest { s with operands := o.words }
  obtain ⟨-, hstopPlace⟩ := stop_rest m
  have hmark : markStep s.mcStack o = (s.mcStack, true) := markStep_plain hopener hcloser
  have hclosedQuiet : ({ s with operands := o.words }).closeP.inArtifact = false := by
    rw [TagWrapFilter.inArtifact, hmarks]
    exact hquiet
  have hstopNext : m.stop.place.next o.last = m.stop.place := by
    rw [hstopPlace]
    exact hnext
  have hfigure := (h.words o.words).closeP.figure m.stop_start hclosedQuiet hwords hopener hcloser
    hstopNext
  refine ⟨⟨hfigure, ?_, rfl⟩, ?_, ?_⟩
  · exact (congrArg TextPlace.depth hstopPlace).trans (h.depth.trans hdepth.symm)
  · rw [hmark]
    exact hmarks
  · have hcopy :
        (({ s with operands := o.words }).closeP.openFigure.flushOperands).writeToken o.last =
        copy ({ s with operands := o.words }).closeP.openFigure o := flush_write hwords
    rw [hmark, if_pos rfl, TagWrapFilter.figure, hcopy]
    calc Reading.tokens ((copy ({ s with operands := o.words }).closeP.openFigure o).out ++
          [.closeFigure])
        = Reading.tokens (copy ({ s with operands := o.words }).closeP.openFigure o).out := by
          rw [tokens_append]
          exact List.append_nil _
      _ = Reading.tokens ({ s with operands := o.words }).closeP.openFigure.out ++ o.text :=
          tokens_copy _ o
      _ = Reading.tokens ({ s with operands := o.words }).closeP.out ++ o.text := by
          rw [TagWrapFilter.openFigure, tokens_append]
          exact congrArg (· ++ o.text) (List.append_nil _)
      _ = Reading.tokens s.out ++ o.text := by rw [tokens_closeP]

/-- Any other operation keeps the invariant. -/
theorem Inv.plain (h : Inv s m) {o : Operation} (hopener : isOpener o.last = false)
    (hcloser : isCloser o.last = false) :
    Inv (step imageNames s o) (m.step imageNames o) ∧ Follows s o (step imageNames s o) := by
  have hm : m.step imageNames o =
      if m.paints imageNames o then m.stop
      else { m.goOn with place := m.place.next o.last } := by
    rw [Stretches.step, hopener, if_neg Bool.false_ne_true, hcloser, if_neg Bool.false_ne_true]
  rw [hm]
  obtain hword | himage := type_of_last o
  · have hcount := countText_eq { s with operands := o.words } o.last
    rw [step_word hword hopener hcloser, paintsFigure_eq h hword]
    cases hpaints : m.paints imageNames o with
    | true =>
        rw [Stretches.paints, Bool.and_eq_true, Bool.and_eq_true, Bool.and_eq_true] at hpaints
        obtain ⟨⟨⟨hDo, hquiet⟩, -⟩, -⟩ := hpaints
        have hvalue := (isWord_iff.mp hDo).2
        have hne : o.last.value ≠ lit "BT" ∧ o.last.value ≠ lit "ET" := by
          rw [hvalue]
          decide
        have hnext : m.place.next o.last = m.place :=
          next_of_ne (isWord_eq_false hne.1) (isWord_eq_false hne.2)
        have hsame : s.inArtifact = false := by
          rw [Bool.not_eq_true', Stretches.inArtifact, h.wraps.marks] at hquiet
          exact hquiet
        rw [if_pos rfl, if_pos rfl, countText_of_ne hne.1 hne.2]
        exact h.figure hopener hcloser hsame hnext
    | false =>
        have hwraps : Wraps (({ s with operands := o.words }).countText o.last) m := by
          rw [hcount]
          exact (h.words o.words).congr rfl rfl rfl rfl rfl
        have hrest : (({ s with operands := o.words }).countText o.last).operands = o.words ∧
            (({ s with operands := o.words }).countText o.last).mcStack = s.mcStack ∧
            (({ s with operands := o.words }).countText o.last).out = s.out := by
          rw [hcount]
          exact ⟨rfl, rfl, rfl⟩
        obtain ⟨hinv, hfollows⟩ := hwraps.write hopener hcloser hrest.1 hrest.2.1 hrest.2.2
          (depth_next hword h.depth)
        rw [if_neg Bool.false_ne_true, if_neg Bool.false_ne_true]
        exact ⟨⟨hinv.wraps.congr rfl rfl rfl rfl rfl, hinv.depth, hinv.operands⟩,
          hfollows.marks, hfollows.copied⟩
  · have hnot : ∀ w, o.last.isWord w = false := by
      intro w
      rw [← Bool.not_eq_true, isWord_iff, himage]
      exact fun hboth => absurd hboth.1 (by decide)
    have hpaints : m.paints imageNames o = false := by
      rw [Stretches.paints, hnot]
      rfl
    have hnext : m.place.next o.last = m.place := next_of_ne (hnot "BT") (hnot "ET")
    have hdepth : (m.place.next o.last).depth = s.btDepth := by
      rw [hnext]
      exact h.depth
    rw [step_image himage, hpaints, if_neg Bool.false_ne_true]
    exact (h.words o.words).write hopener hcloser rfl rfl rfl hdepth

theorem Inv.step (h : Inv s m) (o : Operation) :
    Inv (step imageNames s o) (m.step imageNames o) ∧
      Follows s o (Tagging.step imageNames s o) := by
  cases hopener : isOpener o.last with
  | true => exact h.opener hopener
  | false =>
      cases hcloser : isCloser o.last with
      | true => exact h.closer hopener hcloser
      | false => exact h.plain hopener hcloser

theorem Inv.run (h : Inv s m) (os : List Operation) :
    Inv (os.foldl (Tagging.step imageNames) s) (os.foldl (Stretches.step imageNames) m) ∧
      Reading.tokens (os.foldl (Tagging.step imageNames) s).out =
        Reading.tokens s.out ++ (withoutMarks s.mcStack os).flatMap Phrase.text := by
  induction os generalizing s m with
  | nil => exact ⟨h, (List.append_nil _).symm⟩
  | cons o os ih =>
      obtain ⟨hinv, hfollows⟩ := @Inv.step imageNames s m h o
      obtain ⟨hrun, hcopied⟩ := ih hinv
      refine ⟨hrun, ?_⟩
      rw [List.foldl_cons, hcopied, hfollows.copied, hfollows.marks, withoutMarks,
        List.flatMap_append, List.append_assoc]
      congr 2
      split
      · exact (List.flatMap_singleton _ _).symm
      · rfl

theorem Inv.balanced (h : Inv s m) {os : List Operation}
    (hbalanced : balanced s.mcStack.length os = true) :
    (os.foldl (Tagging.step imageNames) s).mcStack = [] := by
  induction os generalizing s m with
  | nil => exact List.length_eq_zero_iff.mp (of_decide_eq_true hbalanced)
  | cons o os ih =>
      obtain ⟨hinv, hfollows⟩ := @Inv.step imageNames s m h o
      refine ih hinv ?_
      rw [hfollows.marks]
      exact balanced_cons hbalanced

theorem Inv.start : Inv {} {} where
  wraps := ⟨rfl, rfl, rfl, rfl, rfl, rfl, fun _ hm => absurd hm List.not_mem_nil, Iff.rfl, rfl, rfl,
    fun _ => rfl⟩
  depth := rfl
  operands := rfl

theorem handleToken_collects (s : TagWrapFilter) (ws : List Token) (w : Token)
    (h : endsOperation w = false) :
    ({ s with operands := ws }).handleToken imageNames w = { s with operands := ws ++ [w] } := by
  rw [endsOperation, Bool.or_eq_false_iff, decide_eq_false_iff_not, decide_eq_false_iff_not] at h
  rw [TagWrapFilter.handleToken, if_neg h.2, if_neg h.1]

theorem foldl_words (hs : s.operands = []) {ws : List Token}
    (hws : ∀ w ∈ ws, endsOperation w = false) :
    ws.foldl (TagWrapFilter.handleToken imageNames) s = { s with operands := ws } := by
  have h := Base.foldl_open (@handleToken_collects imageNames s) hws
  have hsame : { s with operands := [] } = s := by rw [← hs]
  rwa [hsame] at h

theorem foldl_operations (h : Inv s m) (os : List Operation) :
    (os.flatMap Phrase.text).foldl (TagWrapFilter.handleToken imageNames) s =
      os.foldl (step imageNames) s := by
  induction os generalizing s m with
  | nil => rfl
  | cons o os ih =>
      obtain ⟨hinv, -⟩ := @Inv.step imageNames s m h o
      have htext := Base.foldl_text (@handleToken_collects imageNames s) o
      have hs : { s with operands := [] } = s := by rw [← h.operands]
      rw [hs] at htext
      rw [List.flatMap_cons, List.foldl_append, htext]
      exact ih hinv

theorem copied_open {ws : List Token} (h : ∀ w ∈ ws, endsOperation w = false) :
    ∀ p ∈ ws.map Piece.copied, endsPiece p = false := List.forall_mem_map.mpr h

theorem reading_rest {ps ws : List Piece} (h : Whole ps) (hws : ∀ w ∈ ws, endsPiece w = false) :
    reading (ps ++ ws) = reading ps := by
  have htext := @Base.phrases_text _ endsPiece ps
  rw [h, List.append_nil] at htext
  have hphrases := Base.phrases_flatMap_rest (Base.phrases endsPiece ps).1 hws
  rw [htext] at hphrases
  rw [reading, hphrases, reading]

/-- The words at the end are read with the end of the last paragraph. -/
theorem reading_handleEOF (h : Wraps s m) {rest : List Token}
    (hrest : ∀ w ∈ rest, endsOperation w = false) :
    reading ({ s with operands := rest }).handleEOF.out = reading s.closeP.out := by
  rw [TagWrapFilter.handleEOF, TagWrapFilter.flushOperands, TagWrapFilter.closeP,
    TagWrapFilter.closeP]
  cases hopen : s.pOpen with
  | true =>
      obtain ⟨hread, -⟩ := reading_mark h.whole (p := .closeP) rfl
      obtain ⟨hreadRest, -⟩ :=
          reading_append h.whole ⟨rest.map .copied, .closeP, copied_open hrest, rfl⟩
      rw [Phrase.text, ← List.append_assoc] at hreadRest
      exact hreadRest.trans hread.symm
  | false => exact reading_rest h.whole (copied_open hrest)

theorem tokens_handleEOF (s : TagWrapFilter) (rest : List Token) :
    Reading.tokens ({ s with operands := rest }).handleEOF.out = Reading.tokens s.out ++ rest := by
  rw [TagWrapFilter.handleEOF, tokens_closeP, TagWrapFilter.flushOperands, tokens_append,
    tokens_copied]

theorem segments_handleEOF (s : TagWrapFilter) (rest : List Token) :
    ({ s with operands := rest }).handleEOF.segments = s.segments := by
  rw [TagWrapFilter.handleEOF, TagWrapFilter.flushOperands, TagWrapFilter.closeP]
  split <;> rfl

/-- The filter behind the operations of a page. -/
theorem wrapped_eq (imageNames : List Bytes) (ts : List Token) :
    wrapped imageNames ts =
      ({ (Base.phrases endsOperation ts).1.foldl (step imageNames) {} with
        operands := (Base.phrases endsOperation ts).2 }).handleEOF := by
  obtain ⟨hinv, -⟩ := @Inv.run imageNames {} {} Inv.start (Base.phrases endsOperation ts).1
  have hrest := @foldl_words imageNames _ hinv.operands _ (@Base.phrases_rest _ endsOperation ts)
  conv_lhs => rw [wrapped, ← @Base.phrases_text _ endsOperation ts]
  rw [List.foldl_append, foldl_operations Inv.start, hrest]

/-- A page whose marks are balanced is well tagged exactly if its stretches start and end in the
same text objects. -/
theorem wellTagged_iff (imageNames : List Bytes) (ts : List Token)
    (h : balanced 0 (Base.phrases endsOperation ts).1 = true) :
    WellTagged imageNames ts ↔
      ∀ c ∈ stretches imageNames (Base.phrases endsOperation ts).1, c.1 = c.2 := by
  obtain ⟨hinv, hcopied⟩ :=
    @Inv.run imageNames {} {} Inv.start (Base.phrases endsOperation ts).1
  have hmarks : ((Base.phrases endsOperation ts).1.foldl (step imageNames) {}).mcStack = [] :=
    Inv.start.balanced h
  have hrest := @Base.phrases_rest _ endsOperation ts
  have heq := wrapped_eq imageNames ts
  generalize (Base.phrases endsOperation ts).1.foldl (step imageNames) {} = s at *
  have hclosed := hinv.wraps.closeP
  have hread : reading (wrapped imageNames ts).out = reading s.closeP.out := by
    rw [heq]
    exact reading_handleEOF hinv.wraps hrest
  have hsegments : (wrapped imageNames ts).segments = s.segments := by
    rw [heq]
    exact segments_handleEOF s _
  have hsame : s.closeP.segments = s.segments := by
    rw [TagWrapFilter.closeP]
    split <;> rfl
  rw [stretches, ← hclosed.ended, ← hread]
  refine ⟨WellTagged.object, fun hobject => ⟨?_, ?_, ?_, ?_, ?_, ?_, hobject⟩⟩
  · rw [heq, tokens_handleEOF, hcopied]
    rfl
  · rw [hread]
    exact hclosed.matched
  · rw [hread, hclosed.stack, Stretches.stop_start, (closeP_rest s).1, hmarks]
    rfl
  · rw [hread, hclosed.opened, hsegments, hsame]
  · rw [hsegments, hinv.wraps.numbered, ← List.length_map, hinv.wraps.numbered, List.length_range]
  · rw [hread]
    exact hclosed.around

/-- `(a) Tj`. -/
def showA : List Token := [⟨.string, lit "a", lit "(a)"⟩, Token.op "Tj"]

/-- `BT (a) Tj /Artifact BMC (a) Tj EMC ET`. -/
def artifactInText : List Token :=
  Token.op "BT" :: showA ++ [.plain .name (lit "/Artifact"), Token.op "BMC"] ++ showA ++
    [Token.op "EMC", Token.op "ET"]

/-- The paragraph before the text object ends inside of it. -/
theorem artifactInText_torn :
    balanced 0 (Base.phrases endsOperation artifactInText).1 = true ∧
      ¬ WellTagged [] artifactInText := by
  refine ⟨by decide +kernel, fun h => ?_⟩
  have hobject := h.object
  revert hobject
  decide +kernel

/-- A text object without artifacts lies in one paragraph. -/
theorem showA_wellTagged : WellTagged [] (Token.op "BT" :: showA ++ [Token.op "ET"]) :=
  (wellTagged_iff [] _ (by decide +kernel)).mpr (by decide +kernel)

end Kura.Engine.Tagging
