import Kura.Engine.OutlineState

/-!
# Runs of the outline filter

The operations of a stream, one at a time: outside of text objects they are
copied and followed, inside they are held back up to the end of the object.
-/

namespace Kura.Engine.Outline

open Base (Phrase AtEach)
open Text (Operation TextState TextRun Instr operations textRun isOperator)

/-- Regular characters that need no escape in a name. -/
def plainChar (c : UInt8) : Bool :=
  decide (0x21 ≤ c ∧ c ≤ 0x7E) && !(lit "()<>[]\x7b\x7d/%#").contains c

/-- Names that are written as they are. -/
def plainName (n : Bytes) : Bool := n.head? = some 0x2F && n.tail.all plainChar

/-- The text state that some operations leave. -/
def stateAfter (ts : TextState) (ops : List Operation) : TextState :=
  (ops.map Text.instrOf).foldl TextState.set ts

/-- Whether the end of a text object is followed: operators that are overlooked do not stand in one
that is copied, and the font behind one that is replaced has a plain name, if any. -/
def closesWell (fonts : Fonts) (s : OutlineFilter) : Bool :=
  if s.blockNeedsOutline fonts then
    let name := (stateAfter s.ts (operations s.buffer).1).fontName
    name = [] || plainName name
  else (operations s.buffer).1.all fun o => !overlooked (Text.instrOf o)

/-- Whether an operation is followed, the filter being in a state before it. -/
def followed (fonts : Fonts) (s : OutlineFilter) (o : Operation) : Bool :=
  named (Text.instrOf o) &&
    if s.buffering then
      !saves o.last.value &&
        (!o.last.isWord "ET" || closesWell fonts { s with buffer := s.buffer ++ o.text })
    else !overlooked (Text.instrOf o)

variable {q : Qpdf} {fonts : Fonts} {reread : Bytes → Bytes} {s : OutlineFilter}

theorem out_finishBlock (s : OutlineFilter) : s.out <+: (s.finishBlock q fonts).out := by
  rw [OutlineFilter.finishBlock]
  split
  · dsimp only
    rw [List.append_assoc, List.append_assoc]
    exact List.prefix_append _ _
  · exact List.prefix_append _ _

theorem out_operator (s : OutlineFilter) (t : Token) : s.out <+: (s.operator q t).out := by
  rw [OutlineFilter.operator]
  split
  · exact List.prefix_append _ _
  · dsimp only
    split
    · exact (List.prefix_append _ _).trans (List.prefix_append _ _)
    · split
      · split
        · exact (List.prefix_append _ _).trans (List.prefix_append _ _)
        · exact (List.prefix_append _ _).trans (List.prefix_append _ _)
      · exact (List.prefix_append _ _).trans (List.prefix_append _ _)

theorem out_handleToken (s : OutlineFilter) (t : Token) :
    s.out <+: (s.handleToken q fonts t).out := by
  rw [OutlineFilter.handleToken]
  split
  · dsimp only
    split
    · exact out_finishBlock { s with buffer := s.buffer ++ [t] }
    · exact List.prefix_rfl
  · split
    · exact List.prefix_rfl
    · exact out_operator s t

theorem out_foldl (ts : List Token) (s : OutlineFilter) :
    s.out <+: (ts.foldl (OutlineFilter.handleToken q fonts) s).out := by
  induction ts generalizing s with
  | nil => exact List.prefix_rfl
  | cons t ts ih => exact (out_handleToken s t).trans (ih _)

theorem out_handleEOF (s : OutlineFilter) : s.out <+: (s.handleEOF q).out := by
  rw [OutlineFilter.handleEOF]
  split
  · exact (List.prefix_append _ _).trans (List.prefix_append _ _)
  · exact List.prefix_append _ _

/-- A text state, the ones that are saved and what was written, for the operations so far. -/
structure Agrees (reread : Bytes → Bytes) (ts : TextState) (saved : List TextState)
    (out : List Piece) (pre : List Operation) : Prop where
  whole : Whole out
  tracked : (ts, saved) = core (textRun (pre.map Text.instrOf))
  read : core (readAfter reread out) = core (textRun (pre.map Text.instrOf))

/-- The operator alone. -/
def bare (o : Operation) : Operation :=
  ⟨[], o.last, fun _ hw => absurd hw List.not_mem_nil, o.last_ends⟩

/-- An operation that may be held back. -/
structure Held (o : Operation) : Prop where
  saves : saves o.last.value = false
  named : named (Text.instrOf o) = true

/-- Where the filter stands behind some operations. -/
inductive Stands (q : Qpdf) (reread : Bytes → Bytes) (s : OutlineFilter) :
    List Operation → Prop
  | outside {pre : List Operation} (operands : s.operands = []) (buffering : s.buffering = false)
      (agrees : Agrees reread s.ts s.gsStack s.out pre) : Stands q reread s pre
  | inside {pre : List Operation} {start : Operation} {inner : List Operation} {out : List Piece}
      (operands : s.operands = []) (buffering : s.buffering = true)
      (begins : start.last.isWord "BT" = true) (held : ∀ o ∈ inner, Held o)
      (buffer : s.buffer = (bare start :: inner).flatMap Phrase.text)
      (written : s.out = out ++ start.words.map (copyPiece q))
      (agrees : Agrees reread s.ts s.gsStack out pre) :
      Stands q reread s (pre ++ start :: inner)

theorem handleToken_operands (s : OutlineFilter) (hbuffering : s.buffering = false)
    (ws : List Token) (t : Token) (h : isOperator t = false) :
    ({ s with operands := ws }).handleToken q fonts t = { s with operands := ws ++ [t] } := by
  rw [OutlineFilter.handleToken, hbuffering, if_neg Bool.false_ne_true,
    if_pos (type_of_isOperator h)]

/-- The filter behind one more operation. -/
def step (q : Qpdf) (fonts : Fonts) (s : OutlineFilter) (o : Operation) : OutlineFilter :=
  o.text.foldl (OutlineFilter.handleToken q fonts) s

theorem step_outside (hoperands : s.operands = []) (hbuffering : s.buffering = false)
    (o : Operation) :
    step q fonts s o = ({ s with operands := o.words }).operator q o.last := by
  have htext := Base.foldl_text (@handleToken_operands q fonts s hbuffering) o
  have hs : { s with operands := [] } = s := by rw [← hoperands]
  rw [hs] at htext
  rw [step, htext, OutlineFilter.handleToken, hbuffering, if_neg Bool.false_ne_true,
    if_neg (not_not_intro (type_of_last o))]

theorem write_words (s : OutlineFilter) (o : Operation) :
    (({ s with operands := o.words }).flushOperands q).write q [o.last] =
      { s with operands := [], out := s.out ++ o.text.map (copyPiece q) } := by
  rw [OutlineFilter.flushOperands, OutlineFilter.write, OutlineFilter.write, Phrase.text,
    List.map_append, ← List.append_assoc]
  rfl

/-- An operation that is copied. -/
structure Copies (q : Qpdf) (s : OutlineFilter) (o : Operation) (r : TextRun)
    (s' : OutlineFilter) : Prop where
  operands : s'.operands = []
  buffering : s'.buffering = s.buffering
  written : s'.out = s.out ++ o.text.map (copyPiece q)
  tracked : (s'.ts, s'.gsStack) = core (r.step (Text.instrOf o))

/-- An operator outside of text is copied. -/
theorem copies_operator {o : Operation} (hBT : o.last.value ≠ lit "BT")
    (hseen : overlooked (Text.instrOf o) = false) {r : TextRun}
    (hr : (s.ts, s.gsStack) = core r) :
    Copies q s o r (({ s with operands := o.words }).operator q o.last) := by
  obtain ⟨hts, hsaved⟩ := Prod.mk.injEq _ _ _ _ ▸ hr
  have hinstr : instr o.last.value o.words = Text.instrOf o := rfl
  have hop : (Text.instrOf o).op = o.last.value := rfl
  rw [OutlineFilter.operator, if_neg hBT]
  dsimp only
  rw [hinstr, trackStateOp_eq hseen]
  by_cases hq : o.last.value = lit "q"
  · have hnot : (Text.instrOf o).op ∉ setOps := by
      rw [hop, hq]
      decide
    rw [if_pos hq, set_of_not_mem hnot]
    refine ⟨rfl, rfl, congrArg OutlineFilter.out (write_words _ o), ?_⟩
    rw [TextRun.step, if_pos (hop.trans hq)]
    exact Prod.ext hts (congrArg₂ List.cons hts hsaved)
  · rw [if_neg hq]
    by_cases hQ : o.last.value = lit "Q"
    · have hnot : (Text.instrOf o).op ∉ setOps := by
        rw [hop, hQ]
        decide
      rw [if_pos hQ, set_of_not_mem hnot]
      obtain ⟨ts, gsStack, buffering, buffer, operands, runs, touched, out⟩ := s
      obtain ⟨state, line, saved⟩ := r
      dsimp only at hts hsaved
      subst hts hsaved
      cases gsStack with
      | nil =>
          refine ⟨rfl, rfl, congrArg OutlineFilter.out (write_words _ o), ?_⟩
          rw [TextRun.step, if_neg (hop ▸ hq), if_pos (hop.trans hQ)]
          rfl
      | cons st rest =>
          refine ⟨rfl, rfl, congrArg OutlineFilter.out (write_words _ o), ?_⟩
          rw [TextRun.step, if_neg (hop ▸ hq), if_pos (hop.trans hQ)]
          rfl
    · have hsaves : saves (Text.instrOf o).op = false := by
        rw [saves, hop, decide_eq_false hq, decide_eq_false hQ]
        rfl
      rw [if_neg hQ]
      refine ⟨rfl, rfl, congrArg OutlineFilter.out (write_words _ o), ?_⟩
      rw [core_step_of_not_saves hsaves]
      exact Prod.ext (congrArg (TextState.set · _) hts) hsaved

theorem textRun_concat (pre : List Operation) (o : Operation) :
    textRun ((pre ++ [o]).map Text.instrOf) =
      (textRun (pre.map Text.instrOf)).step (Text.instrOf o) := by
  rw [List.map_append]
  exact Text.textRun_append _ _

theorem Agrees.copied {pre : List Operation} {o : Operation} {s' : OutlineFilter}
    (h : Agrees reread s.ts s.gsStack s.out pre)
    (hcopies : Copies q s o (textRun (pre.map Text.instrOf)) s') :
    Agrees reread s'.ts s'.gsStack s'.out (pre ++ [o]) := by
  obtain ⟨hwhole, hread⟩ := @readAfter_copied reread q s.out h.whole [o]
  rw [List.flatMap_singleton, ← hcopies.written] at hwhole hread
  refine ⟨hwhole, ?_, ?_⟩
  · rw [textRun_concat]
    exact hcopies.tracked
  · rw [hread, textRun_concat]
    exact core_step h.read _

theorem Stands.outside_step {pre : List Operation} (hoperands : s.operands = [])
    (hbuffering : s.buffering = false) (h : Agrees reread s.ts s.gsStack s.out pre)
    {o : Operation} (hseen : overlooked (Text.instrOf o) = false) :
    Stands q reread (step q fonts s o) (pre ++ [o]) := by
  rw [step_outside hoperands hbuffering]
  by_cases hBT : o.last.value = lit "BT"
  · rw [OutlineFilter.operator, if_pos hBT]
    refine .inside rfl rfl ?_ (fun o ho => absurd ho List.not_mem_nil) rfl ?_ h
    · exact decide_eq_true ⟨type_of_last o, hBT⟩
    · rw [OutlineFilter.flushOperands, OutlineFilter.write]
      rfl
  · have hcopies := @copies_operator q s o hBT hseen _ h.tracked
    exact .outside hcopies.operands (hcopies.buffering.trans hbuffering) (h.copied hcopies)

theorem handleToken_buffer (hbuffering : s.buffering = true) (ws : List Token) (t : Token)
    (h : isOperator t = false) :
    ({ s with buffer := s.buffer ++ ws }).handleToken q fonts t =
      { s with buffer := s.buffer ++ (ws ++ [t]) } := by
  have hET : t.isWord "ET" = false := by
    rw [Token.isWord, decide_eq_false_iff_not]
    exact fun hboth => type_of_isOperator h hboth.1
  rw [OutlineFilter.handleToken, hbuffering, if_pos rfl, hET]
  dsimp only
  rw [if_neg Bool.false_ne_true, List.append_assoc]

theorem step_inside (hbuffering : s.buffering = true) (o : Operation) :
    step q fonts s o =
      if o.last.isWord "ET" then
        { ({ s with buffer := s.buffer ++ o.text }).finishBlock q fonts with
          buffering := false
          buffer := [] }
      else { s with buffer := s.buffer ++ o.text } := by
  have htext := Base.foldl_text (@handleToken_buffer q fonts s hbuffering) o
  have hs : { s with buffer := s.buffer ++ [] } = s := by rw [List.append_nil]
  rw [hs] at htext
  rw [step, htext, OutlineFilter.handleToken, hbuffering, if_pos rfl, Phrase.text,
    ← List.append_assoc]

/-- The text state behind a text object whose operators save nothing. -/
theorem core_textObject {pre : List Operation} {start : Operation} {rest : List Operation}
    (hbegins : start.last.isWord "BT" = true)
    (hrest : ∀ o ∈ rest, saves o.last.value = false) {ts : TextState} {saved : List TextState}
    (h : (ts, saved) = core (textRun (pre.map Text.instrOf))) :
    core (textRun ((pre ++ start :: rest).map Text.instrOf)) =
      (stateAfter ts (bare start :: rest), saved) := by
  obtain ⟨hts, hsaved⟩ := Prod.mk.injEq _ _ _ _ ▸ h
  have hBT : start.last.value = lit "BT" := (of_decide_eq_true hbegins).2
  have hsaves : ∀ i ∈ (start :: rest).map Text.instrOf, saves i.op = false := by
    refine List.forall_mem_map.mpr (List.forall_mem_cons.mpr ⟨?_, hrest⟩)
    change saves start.last.value = false
    rw [hBT]
    decide
  have hset : ∀ (o : Operation) (st : TextState), o.last.value = lit "BT" →
      st.set (Text.instrOf o) = st := by
    intro o st ho
    refine set_of_not_mem ?_ st
    change o.last.value ∉ setOps
    rw [ho]
    decide
  rw [List.map_append, textRun, List.foldl_append, core_foldl hsaves, stateAfter, List.map_cons,
    List.map_cons, List.foldl_cons, List.foldl_cons, hset start _ hBT, hset (bare start) ts hBT,
    hts, hsaved]
  rfl

theorem stands_held {pre : List Operation} {start : Operation} {inner : List Operation}
    {out : List Piece} (hoperands : s.operands = []) (hbuffering : s.buffering = true)
    (hbegins : start.last.isWord "BT" = true) (hheld : ∀ o ∈ inner, Held o)
    (hbuffer : s.buffer = (bare start :: inner).flatMap Phrase.text)
    (hwritten : s.out = out ++ start.words.map (copyPiece q))
    (h : Agrees reread s.ts s.gsStack out pre) {o : Operation} (ho : Held o) :
    Stands q reread { s with buffer := s.buffer ++ o.text } (pre ++ start :: inner ++ [o]) := by
  rw [List.append_assoc, List.cons_append]
  refine .inside hoperands hbuffering hbegins ?_ ?_ hwritten h
  · exact List.forall_mem_append.mpr ⟨hheld, List.forall_mem_singleton.mpr ho⟩
  · rw [hbuffer, ← List.cons_append, List.flatMap_append, List.flatMap_singleton]

theorem operations_block (start : Operation) (rest : List Operation) :
    (operations ((bare start :: rest).flatMap Phrase.text)).1 = bare start :: rest :=
  congrArg Prod.fst (Text.operations_flatMap _)

/-- A text object that is copied. -/
theorem agrees_copied {pre : List Operation} {start : Operation} {rest : List Operation}
    {out : List Piece} (hbegins : start.last.isWord "BT" = true)
    (hrest : ∀ o ∈ rest, saves o.last.value = false)
    (hbuffer : s.buffer = (bare start :: rest).flatMap Phrase.text)
    (hwritten : s.out = out ++ start.words.map (copyPiece q))
    (h : Agrees reread s.ts s.gsStack out pre) (houtline : s.blockNeedsOutline fonts = false)
    (hseen : ∀ o ∈ bare start :: rest, overlooked (Text.instrOf o) = false) :
    Agrees reread (s.finishBlock q fonts).ts (s.finishBlock q fonts).gsStack
      (s.finishBlock q fonts).out (pre ++ start :: rest) := by
  have hcore := core_textObject hbegins hrest h.tracked
  have htext : (s.write q s.buffer).out =
      out ++ ((start :: rest).flatMap Phrase.text).map (copyPiece q) := by
    have hwords : start.words ++ (bare start :: rest).flatMap Phrase.text =
        (start :: rest).flatMap Phrase.text := by
      rw [List.flatMap_cons, List.flatMap_cons, ← List.append_assoc]
      rfl
    rw [← hwords, List.map_append, ← List.append_assoc, ← hwritten, ← hbuffer]
    rfl
  obtain ⟨hwhole, hread⟩ := @readAfter_copied reread q out h.whole (start :: rest)
  rw [OutlineFilter.finishBlock, houtline, if_neg Bool.false_ne_true]
  refine ⟨?_, ?_, ?_⟩
  · dsimp only
    rw [htext]
    exact hwhole
  · rw [hcore]
    refine Prod.ext ?_ rfl
    dsimp only
    rw [hbuffer, copyState_flatMap hseen]
    rfl
  · dsimp only
    rw [htext, hread, List.map_append, textRun, List.foldl_append]
    exact core_run h.read _

/-- A text object that is replaced. -/
theorem agrees_replaced (hreread : ∀ n, plainName n = true → reread n = n) {pre : List Operation}
    {start : Operation} {rest : List Operation} {out : List Piece}
    (hbegins : start.last.isWord "BT" = true) (hrest : ∀ o ∈ rest, saves o.last.value = false)
    (hnamed : ∀ o ∈ rest, named (Text.instrOf o) = true)
    (hbuffer : s.buffer = (bare start :: rest).flatMap Phrase.text)
    (hwritten : s.out = out ++ start.words.map (copyPiece q))
    (h : Agrees reread s.ts s.gsStack out pre) (houtline : s.blockNeedsOutline fonts = true)
    (hname : (stateAfter s.ts (bare start :: rest)).fontName = [] ∨
      plainName (stateAfter s.ts (bare start :: rest)).fontName = true) :
    Agrees reread (s.finishBlock q fonts).ts (s.finishBlock q fonts).gsStack
      (s.finishBlock q fonts).out (pre ++ start :: rest) := by
  have hcore := core_textObject hbegins hrest h.tracked
  have hBT : start.last.value = lit "BT" := (of_decide_eq_true hbegins).2
  have hsaves : ∀ o ∈ bare start :: rest, saves o.last.value = false := by
    refine List.forall_mem_cons.mpr ⟨?_, hrest⟩
    change saves start.last.value = false
    rw [hBT]
    decide
  obtain ⟨hts, hcalm⟩ := @block_run fonts (bare start :: rest) hsaves { ts := s.ts } rfl
    ⟨fun p hp => absurd hp List.not_mem_nil, fun p hp => absurd hp List.not_mem_nil⟩
  rw [OutlineFilter.finishBlock, houtline, if_pos rfl, hbuffer]
  generalize ((bare start :: rest).flatMap Phrase.text).foldl (Block.handleToken fonts)
    { ts := s.ts } = b at hts hcalm ⊢
  have hstate : b.ts = stateAfter s.ts (bare start :: rest) := hts
  have hquiet : ∀ p ∈ (if b.clipOut.isEmpty then []
      else b.clipOut ++ [numbers "W" [], numbers "n" []]), Quiet p := by
    split
    · exact fun p hp => absurd hp List.not_mem_nil
    · refine List.forall_mem_append.mpr ⟨hcalm.clipOut, ?_⟩
      exact List.forall_mem_cons.mpr ⟨quiet_numbers (by decide) [],
        List.forall_mem_singleton.mpr (quiet_numbers (by decide) [])⟩
  have hwords : ∀ p ∈ start.words.map (copyPiece q), endsPiece p = false :=
    List.forall_mem_map.mpr fun w hw => (writeToken_eq q w).1.trans (start.words_open w hw)
  have hall : ∀ i ∈ (bare start :: rest).map Text.instrOf, named i = true := by
    refine List.forall_mem_map.mpr (List.forall_mem_cons.mpr ⟨?_, hnamed⟩)
    refine decide_eq_true fun hTf => ?_
    have hvalue : lit "BT" = lit "Tf" := hBT.symm.trans hTf
    exact absurd hvalue (by decide)
  obtain ⟨hwhole, hsync⟩ := @core_sync reread (s.out ++ b.out ++
    (if b.clipOut.isEmpty then [] else b.clipOut ++ [numbers "W" [], numbers "n" []])) b.ts
  have hbefore : (s.ts, s.gsStack) = core (readAfter reread out) := h.tracked.trans h.read.symm
  obtain ⟨hfont, hsaved⟩ := Prod.mk.injEq _ _ _ _ ▸ hbefore
  rw [readAfter_quiet hquiet, readAfter_quiet hcalm.out, hwritten, readAfter_words hwords,
    ← hfont, ← hsaved] at hsync
  refine ⟨?_, ?_, ?_⟩
  · exact hwhole
  · rw [hcore, ← hstate]
  · rw [hcore, ← hstate]
    dsimp only
    rw [hwritten, hsync]
    refine Prod.ext ?_ rfl
    split
    · rename_i hnone
      rw [hstate] at hnone
      obtain ⟨hname₀, hsize⟩ := font_of_named hall hnone
      have hsame : b.ts.fontName = s.ts.fontName := by rw [hstate, hnone, hname₀]
      have hsameSize : b.ts.size = s.ts.size := by
        rw [hstate]
        exact hsize
      rw [← hsame, ← hsameSize]
    · rename_i hsome
      rw [hstate] at hsome
      have hplain := hname.resolve_left hsome
      rw [← hstate] at hplain
      rw [hreread _ hplain]

theorem operands_finishBlock (s : OutlineFilter) :
    (s.finishBlock q fonts).operands = s.operands := by
  rw [OutlineFilter.finishBlock]
  split <;> rfl

/-- A finished text object agrees with what a reader sees of its operations. -/
theorem agrees_finishBlock (hreread : ∀ n, plainName n = true → reread n = n) {pre : List Operation}
    {start : Operation} {rest : List Operation} {out : List Piece}
    (hbegins : start.last.isWord "BT" = true) (hrest : ∀ o ∈ rest, saves o.last.value = false)
    (hnamed : ∀ o ∈ rest, named (Text.instrOf o) = true)
    (hbuffer : s.buffer = (bare start :: rest).flatMap Phrase.text)
    (hwritten : s.out = out ++ start.words.map (copyPiece q))
    (h : Agrees reread s.ts s.gsStack out pre) (hcloses : closesWell fonts s = true) :
    Agrees reread (s.finishBlock q fonts).ts (s.finishBlock q fonts).gsStack
      (s.finishBlock q fonts).out (pre ++ start :: rest) := by
  have hops : (operations s.buffer).1 = bare start :: rest := by rw [hbuffer, operations_block]
  rw [closesWell, hops] at hcloses
  cases houtline : s.blockNeedsOutline fonts with
  | true =>
      rw [houtline, if_pos rfl, Bool.or_eq_true, decide_eq_true_eq] at hcloses
      exact agrees_replaced hreread hbegins hrest hnamed hbuffer hwritten h houtline hcloses
  | false =>
      rw [houtline, if_neg Bool.false_ne_true, List.all_eq_true] at hcloses
      refine agrees_copied hbegins hrest hbuffer hwritten h houtline fun o ho => ?_
      have hseen := hcloses o ho
      rwa [Bool.not_eq_true'] at hseen

/-- The filter still stands right behind one operation more. -/
theorem Stands.step (hreread : ∀ n, plainName n = true → reread n = n) {pre : List Operation}
    (h : Stands q reread s pre) {o : Operation} (ho : followed fonts s o = true) :
    Stands q reread (step q fonts s o) (pre ++ [o]) := by
  rw [followed, Bool.and_eq_true] at ho
  obtain ⟨hnamed, ho⟩ := ho
  cases h with
  | outside hoperands hbuffering hagrees =>
      rw [hbuffering, if_neg Bool.false_ne_true, Bool.not_eq_true'] at ho
      exact Stands.outside_step hoperands hbuffering hagrees ho
  | @inside pre start inner out hoperands hbuffering hbegins hheld hbuffer hwritten hagrees =>
      rw [hbuffering, if_pos rfl, Bool.and_eq_true, Bool.not_eq_true'] at ho
      obtain ⟨hsaves, hcloses⟩ := ho
      rw [step_inside hbuffering]
      cases hET : o.last.isWord "ET" with
      | false =>
          rw [if_neg Bool.false_ne_true]
          exact stands_held hoperands hbuffering hbegins hheld hbuffer hwritten hagrees
            ⟨hsaves, hnamed⟩
      | true =>
          rw [hET, Bool.not_true, Bool.false_or] at hcloses
          rw [if_pos rfl, List.append_assoc, List.cons_append]
          have hblock :
              s.buffer ++ o.text = (bare start :: (inner ++ [o])).flatMap Phrase.text := by
            rw [hbuffer, ← List.cons_append, List.flatMap_append, List.flatMap_singleton]
          refine .outside ((operands_finishBlock _).trans hoperands) rfl ?_
          refine agrees_finishBlock hreread hbegins ?_ ?_ hblock hwritten hagrees hcloses
          · exact List.forall_mem_append.mpr
              ⟨fun o ho => (hheld o ho).saves, List.forall_mem_singleton.mpr hsaves⟩
          · exact List.forall_mem_append.mpr
              ⟨fun o ho => (hheld o ho).named, List.forall_mem_singleton.mpr hnamed⟩

theorem filterAfter_concat (pre : List Operation) (o : Operation) :
    filterAfter q fonts ((pre ++ [o]).flatMap Phrase.text) =
      step q fonts (filterAfter q fonts (pre.flatMap Phrase.text)) o := by
  rw [filterAfter, List.flatMap_append, List.flatMap_singleton, List.foldl_append]
  rfl

/-- Whether every operation of a stream is followed. -/
def Followed (q : Qpdf) (fonts : Fonts) (ops : List Operation) : Prop :=
  AtEach (fun pre o => followed fonts (filterAfter q fonts (pre.flatMap Phrase.text)) o = true) ops

theorem stands_of_followed (hreread : ∀ n, plainName n = true → reread n = n)
    {ops : List Operation} (h : Followed q fonts ops) :
    Stands q reread (filterAfter q fonts (ops.flatMap Phrase.text)) ops := by
  induction ops using List.reverseRecOn with
  | nil => exact .outside rfl rfl ⟨rfl, rfl, rfl⟩
  | append_singleton ops o ih =>
      obtain ⟨hops, ho⟩ := Base.atEach_append.mp h
      rw [filterAfter_concat]
      exact (ih hops).step hreread ho

/-- A stream whose operations are followed has its text state in every text object. -/
theorem followsState_of_followed (hreread : ∀ n, plainName n = true → reread n = n)
    {ts : List Token} (h : Followed q fonts (operations ts).1) :
    FollowsState q reread fonts ts := by
  rintro pre o post hops - hbuffering
  have hpre : Followed q fonts pre := by
    rw [hops] at h
    exact Base.AtEach.left h
  have hwritten :
      (filterAfter q fonts (pre.flatMap Phrase.text)).out <+: (filtered q fonts ts).out := by
    have htext := @Base.phrases_text _ isOperator ts
    rw [hops, List.flatMap_append, List.append_assoc] at htext
    rw [filtered, ← htext, filterAfter, filterAfter, List.foldl_append]
    exact (out_foldl _ _).trans (out_handleEOF _)
  cases stands_of_followed hreread hpre with
  | outside hoperands houtside hagrees =>
      have hread := hagrees.read
      rw [core, core, Prod.mk.injEq] at hread
      exact ⟨congrArg Prod.fst hagrees.tracked, hread.1, hwritten⟩
  | inside hoperands hinside =>
      rw [hinside] at hbuffering
      cases hbuffering

/-- An operation of some operands. -/
def operation (w : String) (words : List Token)
    (h : ∀ t ∈ words, isOperator t = false := by decide) : Operation :=
  ⟨words, Token.op w, h, rfl⟩

/-- A font that is replaced and one that is copied. -/
def twoFonts : Fonts :=
  [(lit "/F1", { loadable := true, flagged := true }), (lit "/F2", { loadable := true })]

/-- A text object that shows a letter in a font. -/
def letter (font : String) : List Operation :=
  [operation "BT" [],
    ⟨[.plain .name (lit font), .plain .integer (lit "10")], Token.op "Tf",
      List.forall_mem_cons.mpr ⟨rfl, List.forall_mem_singleton.mpr rfl⟩, rfl⟩,
    operation "Tj" [⟨.string, lit "a", lit "(a)"⟩], operation "ET" []]

/-- `BT 0 -12 TD ET` before a text object. -/
def movedDown : List Operation :=
  [operation "BT" [],
    operation "TD" [.plain .integer (lit "0"), .plain .integer (lit "-12")], operation "ET" []]

/-- The leading that is set in text that is copied is not known behind it. -/
theorem movedDown_lost : ¬ FollowsState PlainPdf.library id twoFonts
    ((movedDown ++ letter "/F1").flatMap Phrase.text) := by
  intro h
  have hops : (operations ((movedDown ++ letter "/F1").flatMap Phrase.text)).1 =
      movedDown ++ operation "BT" [] :: (letter "/F1").tail :=
    congrArg Prod.fst (Text.operations_flatMap _)
  have htracked := (h movedDown (operation "BT" []) _ hops rfl (by decide +kernel)).tracked
  have hleading := congrArg TextState.leading htracked
  revert hleading
  decide +kernel

/-- Text that is replaced and text that is copied behind it. -/
theorem letters_followed : FollowsState PlainPdf.library id twoFonts
    ((letter "/F1" ++ letter "/F2").flatMap Phrase.text) := by
  refine followsState_of_followed (fun n _ => rfl) ?_
  rw [Text.operations_flatMap]
  refine Base.atEach_of_getElem ?_
  decide +kernel

end Kura.Engine.Outline
