import Kura.Base.AtEach
import Kura.Engine.Outline
import Kura.Engine.PlainPdf

/-!
# The text state around outlines

The text state that the filter follows is the one of the stream, and what it
writes leaves a reader with this state before every text object, as long as the
operators that it overlooks where it copies are absent and the fonts of text
that it replaces have names that can be written as they are.
-/

namespace Kura.Engine.Outline

open Base (Phrase AtEach)
open Text (Operation TextState TextRun Instr Arg arg? operations textRun textOps isOperator)

/-- Tests for operators that set the text state and are not followed where text is copied. -/
def overlooked (i : Instr) : Bool :=
  decide (i.op = lit "TD" ∧ 2 ≤ i.args.length) || decide (i.op = lit "\"" ∧ 3 ≤ i.args.length)

/-- Tests for operators that save or restore the graphics state. -/
def saves (op : Bytes) : Bool := op = lit "q" || op = lit "Q"

/-- Tests whether a font that is set has a name. -/
def named (i : Instr) : Bool :=
  decide (i.op = lit "Tf" → 2 ≤ i.args.length → i.lastName ≠ [])

theorem num?_of_not_pos {i : Instr} (h : ¬ 1 ≤ i.args.length) (k : Nat) : i.num? k = none := by
  have hnil : i.args = [] := List.length_eq_zero_iff.mp (Nat.lt_one_iff.mp (not_le.mp h))
  rw [Instr.num?, hnil]
  rfl

theorem truncate_intCast (n : ℤ) : Text.truncate (n : ℚ) = n := by
  rw [Text.truncate]
  split
  · exact Rat.floor_intCast n
  · exact Rat.ceil_intCast n

/-- Operators that set the text state. -/
def setOps : List Bytes := ["Tf", "Tc", "Tw", "Tz", "TL", "Ts", "Tr", "TD", "\""].map lit

theorem set_of_not_mem {i : Instr} (h : i.op ∉ setOps) (st : TextState) : st.set i = st := by
  simp only [setOps, List.map_cons, List.map_nil, List.mem_cons, List.not_mem_nil, not_or] at h
  simp only [TextState.set, h, if_false]

theorem trackStateOp_of_not_mem {i : Instr} (h : i.op ∉ setOps) (st : TextState) :
    trackStateOp st i = st := by
  simp only [setOps, List.map_cons, List.map_nil, List.mem_cons, List.not_mem_nil, not_or] at h
  simp only [trackStateOp, h, false_and, if_false]

theorem trackStateOp_of_not_pos {i : Instr} (h : ¬ 1 ≤ i.args.length) (st : TextState) :
    trackStateOp st i = st.set i := by
  have h2 : ¬ 2 ≤ i.args.length := fun h2 => h (Nat.le_of_succ_le h2)
  have h3 : ¬ 3 ≤ i.args.length := fun h3 => h2 (Nat.le_of_succ_le h3)
  simp only [trackStateOp, TextState.set, num?_of_not_pos h, h, h2, h3, and_false, if_false,
    Option.getD_none, Option.map_none, ite_self]

theorem trackStateOp_of_mem {i : Instr} (hTD : ¬ (i.op = lit "TD" ∧ 2 ≤ i.args.length))
    (hquote : ¬ (i.op = lit "\"" ∧ 3 ≤ i.args.length)) (hmem : i.op ∈ setOps)
    (h : 1 ≤ i.args.length) (st : TextState) : trackStateOp st i = st.set i := by
  obtain ⟨op, args⟩ := i
  simp only [setOps, List.map_cons, List.map_nil, List.mem_cons, List.not_mem_nil, or_false] at hmem
  dsimp only at hTD hquote h
  obtain rfl | rfl | rfl | rfl | rfl | rfl | rfl | rfl | rfl := hmem
  all_goals
    simp +decide only [trackStateOp, TextState.set, h, and_true, true_and, if_true, if_false,
      false_and] at hTD hquote ⊢
  · cases Instr.num? ⟨lit "Tr", args⟩ 0 with
    | none => rw [Option.getD_none, Option.map_none, Option.getD_none, truncate_intCast]
    | some v => rfl
  · rw [if_neg hTD]
  · rw [if_neg hquote]

/-- Operators that are not overlooked are followed as they are. -/
theorem trackStateOp_eq {i : Instr} (h : overlooked i = false) (st : TextState) :
    trackStateOp st i = st.set i := by
  rw [overlooked, Bool.or_eq_false_iff, decide_eq_false_iff_not, decide_eq_false_iff_not] at h
  by_cases hmem : i.op ∈ setOps
  · by_cases hpos : 1 ≤ i.args.length
    · exact trackStateOp_of_mem h.1 h.2 hmem hpos st
    · exact trackStateOp_of_not_pos hpos st
  · rw [trackStateOp_of_not_mem hmem, set_of_not_mem hmem]

/-- Pieces that leave the text state as it is. -/
def Quiet : Piece → Prop
  | .token t => isOperator t = true → t.value ∉ textOps
  | .instr i => i.op ∉ textOps

/-- A text object whose replacement leaves the text state as it is. -/
structure Calm (b : Block) : Prop where
  out : ∀ p ∈ b.out, Quiet p
  clipOut : ∀ p ∈ b.clipOut, Quiet p

/-- What painting does to a text object. -/
structure Paints (b b' : Block) : Prop where
  ts : b'.ts = b.ts
  rawArgs : b'.rawArgs = b.rawArgs
  calm : Calm b → Calm b'

namespace Paints

variable {b b' b'' : Block}

theorem refl (b : Block) : Paints b b := ⟨rfl, rfl, id⟩

theorem trans (h : Paints b b') (h' : Paints b' b'') : Paints b b'' :=
  ⟨h'.ts.trans h.ts, h'.rawArgs.trans h.rawArgs, h'.calm ∘ h.calm⟩

theorem foldl {α : Type*} {f : Block → α → Block} (h : ∀ b a, Paints b (f b a)) (as : List α)
    (b : Block) : Paints b (as.foldl f b) := by
  induction as generalizing b with
  | nil => exact refl b
  | cons a as ih => exact (h b a).trans (ih _)

end Paints

theorem quiet_numbers {op : String} (h : lit op ∉ textOps) (args : List ℚ) :
    Quiet (numbers op args) := h

theorem quiet_path (g : GlyphEmitter) (segments : List Segment) (curX curY : ℚ) :
    ∀ p ∈ g.path curX curY segments, Quiet p := by
  induction segments generalizing curX curY with
  | nil => exact fun p hp => absurd hp List.not_mem_nil
  | cons segment segments ih =>
      have hcurve : lit "c" ∉ textOps := by decide
      cases segment with
      | moveTo x y => exact List.forall_mem_cons.mpr ⟨quiet_numbers (by decide) _, ih _ _⟩
      | lineTo x y => exact List.forall_mem_cons.mpr ⟨quiet_numbers (by decide) _, ih _ _⟩
      | conicTo qx qy x y => exact List.forall_mem_cons.mpr ⟨quiet_numbers hcurve _, ih _ _⟩
      | cubicTo x1 y1 x2 y2 x y => exact List.forall_mem_cons.mpr ⟨quiet_numbers hcurve _, ih _ _⟩

theorem quiet_paintOp (mode : ℤ) : Quiet (numbers (paintOp mode) []) := by
  rw [paintOp]
  split_ifs
  · exact quiet_numbers (by decide) []
  · exact quiet_numbers (by decide) []
  · exact quiet_numbers (by decide) []

theorem quiet_glyphPath {b : Block} {of : OutFont} {gid : Nat} {path : List Piece}
    (h : b.glyphPath of gid = some path) : ∀ p ∈ path, Quiet p := by
  rw [Block.glyphPath] at h
  split at h
  · obtain ⟨segments, -, rfl⟩ := Option.map_eq_some_iff.mp h
    exact quiet_path _ segments 0 0
  · cases h

/-- To emit a glyph is to paint. -/
theorem paints_emitGlyph (of : OutFont) (b : Block) (code : Nat) :
    Paints b (b.emitGlyph of code) := by
  refine ⟨rfl, rfl, fun h => ?_⟩
  rw [Block.emitGlyph]
  cases hpath : b.glyphPath of (of.gidForCode code) with
  | none =>
      refine ⟨List.forall_mem_append.mpr ⟨h.out, ?_⟩, List.forall_mem_append.mpr ⟨h.clipOut, ?_⟩⟩
      · rw [Option.map_none, Option.getD_none, ite_self]
        exact fun p hp => absurd hp List.not_mem_nil
      · rw [Option.getD_none, ite_self]
        exact fun p hp => absurd hp List.not_mem_nil
  | some path =>
      have hquiet := quiet_glyphPath hpath
      refine ⟨List.forall_mem_append.mpr ⟨h.out, ?_⟩, List.forall_mem_append.mpr ⟨h.clipOut, ?_⟩⟩
      · split
        · exact List.forall_mem_append.mpr
            ⟨hquiet, List.forall_mem_singleton.mpr (quiet_paintOp _)⟩
        · exact fun p hp => absurd hp List.not_mem_nil
      · split
        · exact hquiet
        · exact fun p hp => absurd hp List.not_mem_nil

theorem paints_emitGlyphRun (of : OutFont) (b : Block) (bytes : Bytes) :
    Paints b (b.emitGlyphRun of bytes) := Paints.foldl (paints_emitGlyph of) _ b

theorem paints_adjust (of : OutFont) (s : Block × Bool) (a : Token) :
    Paints s.1 (Block.adjust of s a).1 := by
  rw [Block.adjust]
  split
  · exact Paints.refl _
  · exact Paints.refl _
  · exact paints_emitGlyphRun of s.1 a.value
  · split
    · exact ⟨rfl, rfl, fun h => ⟨h.out, h.clipOut⟩⟩
    · exact Paints.refl _
  · split
    · exact ⟨rfl, rfl, fun h => ⟨h.out, h.clipOut⟩⟩
    · exact Paints.refl _
  · exact Paints.refl _

theorem paints_showArgs (of : OutFont) (b : Block) (op : Bytes) (args : List Token) :
    Paints b (b.showArgs of op args) := by
  rw [Block.showArgs]
  split
  · have hfold : ∀ s : Block × Bool, Paints s.1 (args.foldl (Block.adjust of) s).1 := by
      induction args with
      | nil => exact fun s => Paints.refl s.1
      | cons a args ih => exact fun s => (paints_adjust of s a).trans (ih _)
    exact hfold (b, false)
  · exact Paints.foldl (fun b (a : Token) => paints_emitGlyphRun of b a.value) _ b

theorem paints_paintArgs (of : Option OutFont) (b : Block) (op : Bytes) (args : List Token) :
    Paints b (b.paintArgs of op args) := by
  cases of with
  | none => exact Paints.refl b
  | some of =>
      rw [Block.paintArgs]
      split
      · exact paints_showArgs of b op args
      · exact Paints.refl b

theorem paints_nextLine (b : Block) : Paints b b.nextLine :=
  ⟨rfl, rfl, fun h => ⟨h.out, h.clipOut⟩⟩

/-- What an operator does to a text object. -/
structure Sets (i : Instr) (b b' : Block) : Prop where
  ts : b'.ts = b.ts.set i
  rawArgs : b'.rawArgs = []
  calm : Calm b → Calm b'

theorem Paints.sets {i : Instr} {b b' : Block} (h : Paints b b') (hargs : b.rawArgs = [])
    (hset : b.ts.set i = b.ts) : Sets i b b' :=
  ⟨h.ts.trans hset.symm, h.rawArgs.trans hargs, h.calm⟩

/-- Operators that show text set nothing, unless they are a quote with three operands. -/
theorem set_of_isShowOp {i : Instr} (hshow : isShowOp i.op = true)
    (hquote : ¬ (i.op = lit "\"" ∧ 3 ≤ i.args.length)) (st : TextState) : st.set i = st := by
  by_cases hop : i.op = lit "\""
  · have hargs : ¬ 3 ≤ i.args.length := fun h => hquote ⟨hop, h⟩
    simp +decide only [TextState.set, hop, hargs, if_true, if_false]
  · rw [isShowOp, decide_eq_true_eq] at hshow
    simp only [List.map_cons, List.map_nil, List.mem_cons, List.not_mem_nil, or_false] at hshow
    have hnot : i.op ∉ setOps := by
      obtain h | h | h | h := hshow
      · rw [h]
        decide
      · rw [h]
        decide
      · rw [h]
        decide
      · exact absurd h hop
    exact set_of_not_mem hnot st

/-- An operator that shows text sets what a reader sets. -/
theorem sets_showOp (fonts : Fonts) {b : Block} (hargs : b.rawArgs = []) {i : Instr}
    (hshow : isShowOp i.op = true) (args : List Token) : Sets i b (b.showOp fonts i args) := by
  have hline : ∀ b' : Block,
      Paints b' (if i.op = lit "'" ∨ i.op = lit "\"" then b'.nextLine else b') := by
    intro b'
    split
    · exact paints_nextLine b'
    · exact Paints.refl b'
  rw [Block.showOp]
  by_cases hquote : i.op = lit "\"" ∧ 3 ≤ i.args.length
  · have hpaints := (hline { b with ts := b.ts.set i }).trans
        (paints_paintArgs (fontOf fonts b.ts.fontName) _ i.op args)
    have hset : b.ts.set i = { b.ts with
        wordSpace := (i.num? 2).getD b.ts.wordSpace
        charSpace := (i.num? 1).getD b.ts.charSpace } := by
      simp +decide only [TextState.set, hquote.1, hquote.2, if_true, if_false]
    rw [if_pos hquote, ← hset]
    exact ⟨hpaints.ts, hpaints.rawArgs.trans hargs,
      fun h => hpaints.calm ⟨h.out, h.clipOut⟩⟩
  · rw [if_neg hquote]
    exact ((hline b).trans (paints_paintArgs _ _ i.op args)).sets hargs
      (set_of_isShowOp hshow hquote b.ts)

theorem setOps_subset : setOps ⊆ textOps := by decide

theorem not_mem_textOps {op : Bytes} (hsaves : saves op = false)
    (hends : ¬ (op = lit "BT" ∨ op = lit "ET")) (hstate : ¬ isTextStateOp op = true)
    (hshow : ¬ isShowOp op = true) : op ∉ textOps := by
  rw [saves, Bool.or_eq_false_iff, decide_eq_false_iff_not, decide_eq_false_iff_not] at hsaves
  rw [isTextStateOp, decide_eq_true_eq] at hstate
  rw [isShowOp, decide_eq_true_eq] at hshow
  simp only [List.map_cons, List.map_nil, List.mem_cons, List.not_mem_nil, or_false, not_or,
    textOps] at hends hstate hshow ⊢
  simp only [hsaves, hends, hstate, hshow, not_false_eq_true, and_self]

/-- An operator inside of a text object sets what a reader sets. -/
theorem sets_operator (fonts : Fonts) {b : Block} {t : Token} (hsaves : saves t.value = false)
    (hraw : ∀ a ∈ b.rawArgs, isOperator a = false) :
    Sets (instr t.value b.rawArgs) b (b.operator fonts t) := by
  have hempty : ∀ {i b'}, Sets i { b with rawArgs := [] } b' → Sets i b b' :=
    fun h => ⟨h.ts, h.rawArgs, fun hcalm => h.calm ⟨hcalm.out, hcalm.clipOut⟩⟩
  refine hempty ?_
  rw [Block.operator]
  generalize hi : instr t.value b.rawArgs = i
  have hop : i.op = t.value := by rw [← hi, instr]
  dsimp only
  split_ifs with hends hTm hTd hTD hTstar hstate hshow
  · have hnot : i.op ∉ setOps := by
      obtain h | h := hends <;> rw [h] <;> decide
    exact ⟨(set_of_not_mem hnot _).symm, rfl, fun h => ⟨h.out, h.clipOut⟩⟩
  · have hnot : i.op ∉ setOps := by
      rw [hTm.1]
      decide
    exact ⟨(set_of_not_mem hnot _).symm, rfl, fun h => ⟨h.out, h.clipOut⟩⟩
  · have hset : b.ts.set i = { b.ts with leading := -(i.num? 0).getD 0 } := by
      simp +decide only [TextState.set, hTD, hTd.2, if_true, if_false]
    exact ⟨hset.symm, rfl, fun h => ⟨h.out, h.clipOut⟩⟩
  · have hnot : i.op ∉ setOps := by
      rw [hTd.1.resolve_right hTD]
      decide
    exact ⟨(set_of_not_mem hnot _).symm, rfl, fun h => ⟨h.out, h.clipOut⟩⟩
  · have hnot : i.op ∉ setOps := by
      rw [hTstar]
      decide
    exact (paints_nextLine _).sets rfl (set_of_not_mem hnot _)
  · have hseen : overlooked i = false := by
      rw [overlooked, Bool.or_eq_false_iff, decide_eq_false_iff_not, decide_eq_false_iff_not]
      refine ⟨fun h => hTd ⟨Or.inr h.1, h.2⟩, fun h => ?_⟩
      rw [h.1] at hstate
      revert hstate
      decide
    exact ⟨trackStateOp_eq hseen _, rfl, fun h => ⟨h.out, h.clipOut⟩⟩
  · exact sets_showOp fonts rfl hshow _
  · have hnot : t.value ∉ textOps := by
      rw [← hop] at hsaves ⊢
      exact not_mem_textOps hsaves hends hstate hshow
    have hset : i.op ∉ setOps := fun hmem => hnot (hop ▸ setOps_subset hmem)
    refine ⟨(set_of_not_mem hset _).symm, rfl, fun h => ⟨?_, h.clipOut⟩⟩
    refine List.forall_mem_append.mpr ⟨List.forall_mem_append.mpr ⟨h.out, ?_⟩, ?_⟩
    · refine List.forall_mem_map.mpr fun a ha hoperator => ?_
      rw [hraw a (List.mem_of_mem_filter ha)] at hoperator
      cases hoperator
    · exact List.forall_mem_singleton.mpr fun _ => hnot

theorem type_of_isOperator {t : Token} (h : isOperator t = false) : t.type ≠ .word :=
  of_decide_eq_false h

theorem type_of_last (o : Operation) : o.last.type = .word := of_decide_eq_true o.last_ends

theorem handleToken_collects (fonts : Fonts) (b : Block) (ws : List Token) (t : Token)
    (h : isOperator t = false) :
    ({ b with rawArgs := ws }).handleToken fonts t = { b with rawArgs := ws ++ [t] } := by
  rw [Block.handleToken, if_pos (type_of_isOperator h)]

theorem sets_text (fonts : Fonts) {b : Block} (hargs : b.rawArgs = []) {o : Operation}
    (hsaves : saves o.last.value = false) :
    Sets (Text.instrOf o) b (o.text.foldl (Block.handleToken fonts) b) := by
  have htext := Base.foldl_text (handleToken_collects fonts b) o
  have hb : { b with rawArgs := [] } = b := by rw [← hargs]
  rw [hb] at htext
  have hsets := @sets_operator fonts { b with rawArgs := o.words } o.last hsaves o.words_open
  rw [htext, Block.handleToken, if_neg (not_not_intro (type_of_last o))]
  exact ⟨hsets.ts, hsets.rawArgs, fun h => hsets.calm ⟨h.out, h.clipOut⟩⟩

/-- A text object that is replaced sets what its operators set. -/
theorem block_run (fonts : Fonts) {ops : List Operation}
    (hsaves : ∀ o ∈ ops, saves o.last.value = false) {b : Block} (hargs : b.rawArgs = [])
    (hcalm : Calm b) :
    ((ops.flatMap Phrase.text).foldl (Block.handleToken fonts) b).ts =
        (ops.map Text.instrOf).foldl TextState.set b.ts ∧
      Calm ((ops.flatMap Phrase.text).foldl (Block.handleToken fonts) b) := by
  induction ops generalizing b with
  | nil => exact ⟨rfl, hcalm⟩
  | cons o ops ih =>
      obtain ⟨ho, hops⟩ := List.forall_mem_cons.mp hsaves
      have hsets := sets_text fonts hargs ho
      rw [List.flatMap_cons, List.foldl_append, List.map_cons, List.foldl_cons, ← hsets.ts]
      exact ih hops hsets.rawArgs (hsets.calm hcalm)

theorem copyState_words {ws : List Token} (h : ∀ w ∈ ws, isOperator w = false) (st : TextState)
    (args rest : List Token) :
    OutlineFilter.copyState st args (ws ++ rest) =
      OutlineFilter.copyState st (args ++ ws) rest := by
  induction ws generalizing args with
  | nil => rw [List.nil_append, List.append_nil]
  | cons w ws ih =>
      obtain ⟨hw, hws⟩ := List.forall_mem_cons.mp h
      rw [List.cons_append, OutlineFilter.copyState, if_pos (type_of_isOperator hw), ih hws,
        List.append_assoc, List.singleton_append]

theorem copyState_flatMap {ops : List Operation}
    (h : ∀ o ∈ ops, overlooked (Text.instrOf o) = false) (st : TextState) :
    OutlineFilter.copyState st [] (ops.flatMap Phrase.text) =
      (ops.map Text.instrOf).foldl TextState.set st := by
  induction ops generalizing st with
  | nil => rfl
  | cons o ops ih =>
      obtain ⟨ho, hops⟩ := List.forall_mem_cons.mp h
      rw [List.flatMap_cons, Phrase.text, List.append_assoc, copyState_words o.words_open,
        List.nil_append, List.singleton_append, OutlineFilter.copyState,
        if_neg (not_not_intro (type_of_last o)), ih hops, List.map_cons, List.foldl_cons,
        ← trackStateOp_eq ho]
      rfl

theorem font_set {i : Instr} (h : i.op ≠ lit "Tf") (st : TextState) :
    (st.set i).fontName = st.fontName ∧ (st.set i).size = st.size := by
  rw [TextState.set, if_neg h]
  refine ⟨?_, ?_⟩
  · simp only [apply_ite TextState.fontName, ite_self]
  · simp only [apply_ite TextState.size, ite_self]

/-- A font that is in force in the end is none that was set, if it has no name. -/
theorem font_of_named {is : List Instr} (h : ∀ i ∈ is, named i = true) {st : TextState}
    (hnone : (is.foldl TextState.set st).fontName = []) :
    st.fontName = [] ∧ (is.foldl TextState.set st).size = st.size := by
  induction is generalizing st with
  | nil => exact ⟨hnone, rfl⟩
  | cons i is ih =>
      obtain ⟨hi, his⟩ := List.forall_mem_cons.mp h
      obtain ⟨hname, hsize⟩ := ih his hnone
      rw [List.foldl_cons, hsize]
      rw [named, decide_eq_true_eq] at hi
      by_cases hTf : i.op = lit "Tf"
      · rw [TextState.set, if_pos hTf] at hname ⊢
        split at hname
        · rename_i hargs
          exact absurd hname (hi hTf hargs)
        · rename_i hargs
          rw [if_neg hargs]
          exact ⟨hname, rfl⟩
      · obtain ⟨hsameName, hsameSize⟩ := font_set hTf st
        rw [hsameSize]
        exact ⟨hsameName.symm.trans hname, rfl⟩

/-- The text state and the text states that are saved. -/
def core (r : TextRun) : TextState × List TextState := (r.state, r.saved)

theorem core_step {r r' : TextRun} (h : core r = core r') (i : Instr) :
    core (r.step i) = core (r'.step i) := by
  obtain ⟨state, line, saved⟩ := r
  obtain ⟨state', line', saved'⟩ := r'
  obtain ⟨rfl, rfl⟩ := Prod.mk.injEq _ _ _ _ ▸ h
  rw [TextRun.step, TextRun.step]
  split_ifs
  · rfl
  · dsimp only
    cases saved <;> rfl
  · rfl

theorem core_run {r r' : TextRun} (h : core r = core r') (is : List Instr) :
    core (is.foldl TextRun.step r) = core (is.foldl TextRun.step r') := by
  induction is generalizing r r' with
  | nil => exact h
  | cons i is ih => exact ih (core_step h i)

theorem core_step_of_not_saves {i : Instr} (h : saves i.op = false) (r : TextRun) :
    core (r.step i) = (r.state.set i, r.saved) := by
  rw [saves, Bool.or_eq_false_iff, decide_eq_false_iff_not, decide_eq_false_iff_not] at h
  rw [TextRun.step, if_neg h.1, if_neg h.2]
  rfl

/-- Operators that save nothing change the text state only. -/
theorem core_foldl {is : List Instr} (h : ∀ i ∈ is, saves i.op = false) (r : TextRun) :
    core (is.foldl TextRun.step r) = (is.foldl TextState.set r.state, r.saved) := by
  induction is generalizing r with
  | nil => rfl
  | cons i is ih =>
      obtain ⟨hi, his⟩ := List.forall_mem_cons.mp h
      have hstep := core_step_of_not_saves hi r
      rw [List.foldl_cons, ih his, List.foldl_cons]
      rw [core, Prod.mk.injEq] at hstep
      rw [hstep.1, hstep.2]

/-- Whether pieces end with an operation. -/
def Whole (ps : List Piece) : Prop := (Base.phrases endsPiece ps).2 = []

variable {reread : Bytes → Bytes} {q : Qpdf}

theorem readAfter_end (ps : List Piece) {p : Piece} (h : endsPiece p = true) :
    Whole (ps ++ [p]) ∧ readAfter reread (ps ++ [p]) = (readAfter reread ps).step
      (instrOf reread ⟨(Base.phrases endsPiece ps).2, p, Base.phrases_rest ps, h⟩) := by
  rw [Whole, readAfter, Base.phrases_end ps h, List.map_append, readAfter]
  exact ⟨rfl, Text.textRun_append _ _⟩

theorem readAfter_word (ps : List Piece) {p : Piece} (h : endsPiece p = false) :
    readAfter reread (ps ++ [p]) = readAfter reread ps := by
  rw [readAfter, Base.phrases_word ps h, readAfter]

theorem readAfter_words {ps ws : List Piece} (h : ∀ w ∈ ws, endsPiece w = false) :
    readAfter reread (ps ++ ws) = readAfter reread ps := by
  induction ws using List.reverseRecOn with
  | nil => rw [List.append_nil]
  | append_singleton ws w ih =>
      obtain ⟨hws, hw⟩ := List.forall_mem_append.mp h
      rw [← List.append_assoc, readAfter_word _ (hw w List.mem_cons_self), ih hws]

theorem instrOf_op (p : Phrase endsPiece) (h : Quiet p.last) : (instrOf reread p).op ∉ textOps := by
  obtain ⟨words, last, hwords, hends⟩ := p
  cases last with
  | token t => exact h hends
  | instr i => exact h

theorem readAfter_quiet {ps ws : List Piece} (h : ∀ w ∈ ws, Quiet w) :
    readAfter reread (ps ++ ws) = readAfter reread ps := by
  induction ws using List.reverseRecOn with
  | nil => rw [List.append_nil]
  | append_singleton ws w ih =>
      obtain ⟨hws, hw⟩ := List.forall_mem_append.mp h
      have hquiet := hw w List.mem_cons_self
      rw [← List.append_assoc]
      cases hends : endsPiece w with
      | false => rw [readAfter_word _ hends, ih hws]
      | true => rw [(readAfter_end _ hends).2,
          TextRun.step_of_not_mem (instrOf_op _ hquiet), ih hws]

/-- A token as it is copied. -/
def copyPiece (q : Qpdf) (t : Token) : Piece := .token (writeToken q t)

theorem writeToken_eq (q : Qpdf) (t : Token) :
    isOperator (writeToken q t) = isOperator t ∧ (writeToken q t).value = t.value ∧
      arg? (writeToken q t) = arg? t := by
  rw [writeToken]
  split
  · rename_i h
    rw [isOperator, isOperator, arg?, arg?, h]
    exact ⟨rfl, rfl, rfl⟩
  · exact ⟨rfl, rfl, rfl⟩

/-- An operation as it is copied. -/
def copied (q : Qpdf) (o : Operation) : Phrase endsPiece where
  words := o.words.map (copyPiece q)
  last := copyPiece q o.last
  words_open := List.forall_mem_map.mpr fun w hw => (writeToken_eq q w).1.trans (o.words_open w hw)
  last_ends := (writeToken_eq q o.last).1.trans o.last_ends

theorem text_copied (q : Qpdf) (o : Operation) : (copied q o).text = o.text.map (copyPiece q) := by
  rw [Phrase.text, Phrase.text, List.map_append]
  rfl

theorem instrOf_copied (q : Qpdf) (o : Operation) :
    instrOf reread (copied q o) = Text.instrOf o := by
  have hargs : (fun t => (copyPiece q t).arg?) = arg? := funext fun t => (writeToken_eq q t).2.2
  have hwords : (o.words.map (copyPiece q)).filterMap Piece.arg? = o.words.filterMap arg? := by
    rw [List.filterMap_map]
    exact congrArg (List.filterMap · o.words) hargs
  rw [instrOf, Text.instrOf]
  exact congrArg₂ Instr.mk (writeToken_eq q o.last).2.1 hwords

/-- Operations that are copied are read as they are. -/
theorem readAfter_copied {ps : List Piece} (h : Whole ps) (ops : List Operation) :
    Whole (ps ++ (ops.flatMap Phrase.text).map (copyPiece q)) ∧
      readAfter reread (ps ++ (ops.flatMap Phrase.text).map (copyPiece q)) =
        (ops.map Text.instrOf).foldl TextRun.step (readAfter reread ps) := by
  induction ops generalizing ps with
  | nil =>
      rw [List.flatMap_nil, List.map_nil, List.append_nil]
      exact ⟨h, rfl⟩
  | cons o ops ih =>
      have hphrases := Base.phrases_concat h (copied q o)
      have hwhole : Whole (ps ++ (copied q o).text) := by rw [Whole, hphrases]
      have hread : readAfter reread (ps ++ (copied q o).text) =
          (readAfter reread ps).step (Text.instrOf o) := by
        rw [readAfter, hphrases, List.map_append, ← instrOf_copied q o]
        exact Text.textRun_append _ _
      have hrest := ih hwhole
      rw [hread, text_copied] at hrest
      rw [List.flatMap_cons, List.map_append, ← List.append_assoc]
      exact hrest

/-- An operator as it is read. -/
def rereadInstr (reread : Bytes → Bytes) (i : Instr) : Instr :=
  ⟨i.op, i.args.map (rereadArg reread)⟩

/-- Operators for which operands further in front do not matter. -/
structure Alone (reread : Bytes → Bytes) (i : Instr) : Prop where
  saves : saves i.op = false
  set : ∀ (args : List Arg) (st : TextState),
    st.set ⟨i.op, args ++ (rereadInstr reread i).args⟩ = st.set (rereadInstr reread i)

/-- Instructions that stand alone are read back one by one. -/
theorem core_instrs {is : List Instr} (h : ∀ i ∈ is, Alone reread i) (ps : List Piece) :
    core (readAfter reread (ps ++ is.map .instr)) =
      ((is.map (rereadInstr reread)).foldl TextState.set (readAfter reread ps).state,
        (readAfter reread ps).saved) := by
  induction is generalizing ps with
  | nil => rw [List.map_nil, List.append_nil, core, List.map_nil, List.foldl_nil]
  | cons i is ih =>
      obtain ⟨hi, his⟩ := List.forall_mem_cons.mp h
      have hread := (@readAfter_end reread ps (.instr i) rfl).2
      have hstep : core (readAfter reread (ps ++ [.instr i])) =
          ((readAfter reread ps).state.set (rereadInstr reread i),
            (readAfter reread ps).saved) := by
        have hset := hi.set ((Base.phrases endsPiece ps).2.filterMap Piece.arg?)
          (readAfter reread ps).state
        rw [hread, ← hset]
        exact @core_step_of_not_saves ⟨i.op, _ ++ (rereadInstr reread i).args⟩ hi.saves _
      rw [core, Prod.mk.injEq] at hstep
      have hrest := ih his (ps ++ [.instr i])
      rw [hstep.1, hstep.2, List.append_assoc] at hrest
      exact hrest

theorem num?_last (op : Bytes) (args : List Arg) (v : ℚ) :
    Instr.num? ⟨op, args ++ [.number v]⟩ 0 = some v := by
  rw [Instr.num?, List.reverse_append]
  rfl

theorem alone_number {op : Bytes} (hsaves : saves op = false)
    (hop : op ≠ lit "Tf" ∧ op ≠ lit "TD" ∧ op ≠ lit "\"") (v : ℚ) :
    Alone reread ⟨op, [.number v]⟩ := by
  refine ⟨hsaves, fun args st => ?_⟩
  have hnum : Instr.num? ⟨op, args ++ [.number v]⟩ 0 = Instr.num? ⟨op, [.number v]⟩ 0 :=
    num?_last op args v
  change st.set ⟨op, args ++ [.number v]⟩ = st.set ⟨op, [.number v]⟩
  simp only [TextState.set, hop, if_false, hnum]

theorem set_font (n : Bytes) (v : ℚ) (args : List Arg) (st : TextState) :
    st.set ⟨lit "Tf", args ++ [.name n, .number v]⟩ = { st with fontName := n, size := v } := by
  have hlength : 2 ≤ (args ++ [Arg.name n, .number v]).length := by
    rw [List.length_append]
    exact Nat.le_add_left 2 _
  have hname : Instr.lastName ⟨lit "Tf", args ++ [.name n, .number v]⟩ = n := by
    rw [Instr.lastName, List.reverse_append]
    rfl
  have hnum : Instr.num? ⟨lit "Tf", args ++ [.name n, .number v]⟩ 0 = some v := by
    rw [Instr.num?, List.reverse_append]
    rfl
  rw [TextState.set, if_pos rfl, if_pos hlength, hname, hnum, Option.getD_some]

theorem alone_font (n : Bytes) (v : ℚ) : Alone reread ⟨lit "Tf", [.name n, .number v]⟩ :=
  have hsaves : saves (lit "Tf") = false := by decide
  ⟨hsaves, fun args st => (set_font _ v args st).trans (set_font _ v [] st).symm⟩

theorem alone_syncNumbers (ts : TextState) : ∀ i ∈ syncNumbers ts, Alone reread i := by
  simp only [syncNumbers, List.forall_mem_cons]
  refine ⟨alone_number ?_ ?_ _, alone_number ?_ ?_ _, alone_number ?_ ?_ _, alone_number ?_ ?_ _,
    alone_number ?_ ?_ _, alone_number ?_ ?_ _, fun i hi => absurd hi List.not_mem_nil⟩ <;> decide

theorem foldl_syncNumbers (st ts : TextState) :
    ((syncNumbers ts).map (rereadInstr reread)).foldl TextState.set st =
      { ts with fontName := st.fontName, size := st.size } := by
  have hnum : ∀ op v, Instr.num? ⟨op, [Arg.number v]⟩ 0 = some v := fun op v => num?_last op [] v
  simp +decide only [syncNumbers, List.map_cons, List.map_nil, List.foldl_cons, List.foldl_nil,
    rereadInstr, rereadArg, TextState.set, hnum, if_true, if_false, Option.getD_some,
    Option.map_some, truncate_intCast]

theorem whole_instrs {is : List Instr} (h : is ≠ []) (ps : List Piece) :
    Whole (ps ++ is.map .instr) := by
  obtain ⟨is, i, rfl⟩ := (List.eq_nil_or_concat is).resolve_left h
  rw [List.concat_eq_append, List.map_append, ← List.append_assoc]
  exact (@readAfter_end id _ (.instr i) rfl).1

/-- A text state is set by the operators for it, up to how its name is read; without a name the
font stays. -/
theorem core_sync (ps : List Piece) (ts : TextState) :
    Whole (ps ++ sync ts) ∧ core (readAfter reread (ps ++ sync ts)) =
      (if ts.fontName = [] then
          { ts with
            fontName := (readAfter reread ps).state.fontName
            size := (readAfter reread ps).state.size }
        else { ts with fontName := reread ts.fontName },
        (readAfter reread ps).saved) := by
  rw [sync, syncInstrs]
  split
  · refine ⟨whole_instrs (List.cons_ne_nil _ _) ps, ?_⟩
    rw [core_instrs (alone_syncNumbers ts), foldl_syncNumbers]
  · refine ⟨whole_instrs (List.cons_ne_nil _ _) ps, ?_⟩
    have hread : rereadInstr reread ⟨lit "Tf", [.name ts.fontName, .number ts.size]⟩ =
        ⟨lit "Tf", [] ++ [.name (reread ts.fontName), .number ts.size]⟩ := rfl
    rw [core_instrs (List.forall_mem_cons.mpr ⟨alone_font _ _, alone_syncNumbers ts⟩),
      List.map_cons, List.foldl_cons, foldl_syncNumbers, hread, set_font]

end Kura.Engine.Outline
