import Kura.Base.AtEach
import Kura.Engine.GlyphClean

/-!
# What the filter does with an operation

The filter writes an operation, perhaps with other strings, or leaves it out.
`Handled` lists what it can do. The font that it has is the one that the names
in the stream set.
-/

namespace Kura.Engine.GlyphClean

open Base (Phrase)
open Text

variable {q : Qpdf} {res : Resources} {s : GlyphCleanFilter}

/-- Whether one token stands for another; only strings are changed. -/
def Alike (t t' : Token) : Prop := t'.type = t.type ∧ (t.type ≠ .string → t' = t)

namespace Alike

theorem refl (t : Token) : Alike t t := ⟨rfl, fun _ => rfl⟩

theorem trans {t t' t'' : Token} (h : Alike t t') (h' : Alike t' t'') : Alike t t'' :=
  ⟨h'.1.trans h.1, fun hne => (h'.2 (h.1 ▸ hne)).trans (h.2 hne)⟩

theorem arg_eq {t t' : Token} (h : Alike t t') : arg? t' = arg? t := by
  by_cases hstring : t.type = .string
  · rw [arg?, arg?, h.1, hstring]
  · rw [h.2 hstring]

theorem isOperator_eq {t t' : Token} (h : Alike t t') : isOperator t' = isOperator t := by
  rw [isOperator, isOperator, h.1]

end Alike

theorem alike_written (t : Token) : Alike t (written q t) := by
  rw [written]
  split
  · rename_i hstring
    exact ⟨hstring.symm, fun hne => absurd hstring hne⟩
  · exact Alike.refl t

theorem alike_cleanToken (f : FontGlyphInfo) (t : Token) : Alike t (f.cleanToken t) := by
  rw [FontGlyphInfo.cleanToken]
  split
  · rename_i hstring
    exact ⟨hstring.1.symm, fun hne => absurd hstring.1 hne⟩
  · exact Alike.refl t

theorem alike_fixLangs (look : Bool) (ts : List Token) :
    List.Forall₂ Alike ts (fixLangs look ts).1 := by
  induction ts generalizing look with
  | nil => exact .nil
  | cons t ts ih =>
      rw [fixLangs]
      split
      · rename_i hstring
        split
        · exact .cons ⟨hstring.symm, fun hne => absurd hstring hne⟩ (ih _)
        · exact .cons (Alike.refl t) (ih _)
      · exact .cons (Alike.refl t) (ih _)

theorem forall₂_map {f : Token → Token} (h : ∀ t, Alike t (f t)) {ts ts' : List Token}
    (hts : List.Forall₂ Alike ts ts') : List.Forall₂ Alike ts (ts'.map f) := by
  induction hts with
  | nil => exact .nil
  | cons hab _ ih => exact .cons (hab.trans (h _)) ih

theorem forall₂_refl (ts : List Token) : List.Forall₂ Alike ts ts :=
  List.forall₂_same.mpr fun t _ => Alike.refl t

theorem forall_not_isOperator {ts ts' : List Token} (h : List.Forall₂ Alike ts ts')
    (hts : ∀ t ∈ ts, isOperator t = false) : ∀ t ∈ ts', isOperator t = false := by
  induction h with
  | nil => exact hts
  | cons hab _ ih =>
      obtain ⟨ha, hrest⟩ := List.forall_mem_cons.mp hts
      exact List.forall_mem_cons.mpr ⟨hab.isOperator_eq.trans ha, ih hrest⟩

theorem filterMap_arg {ts ts' : List Token} (h : List.Forall₂ Alike ts ts') :
    ts'.filterMap arg? = ts.filterMap arg? := by
  induction h with
  | nil => rfl
  | cons hab _ ih => rw [List.filterMap_cons, List.filterMap_cons, hab.arg_eq, ih]

/-- An operation with other operands that stand for its own. -/
def withWords (o : Operation) {ws : List Token} (h : List.Forall₂ Alike o.words ws) :
    Operation where
  words := ws
  last := o.last
  words_open := forall_not_isOperator h o.words_open
  last_ends := o.last_ends

theorem instrOf_withWords (o : Operation) {ws : List Token} (h : List.Forall₂ Alike o.words ws) :
    instrOf (withWords o h) = instrOf o := by
  rw [instrOf, instrOf]
  exact congrArg (Instr.mk o.last.value) (filterMap_arg h)

/-- The filter behind one more operation. -/
def step (q : Qpdf) (res : Resources) (s : GlyphCleanFilter) (o : Operation) : GlyphCleanFilter :=
  ({ s with operands := o.words }).operator q res o.last

theorem handleToken_collects (s : GlyphCleanFilter) (ws : List Token) (t : Token)
    (h : isOperator t = false) :
    GlyphCleanFilter.handleToken q res { s with operands := ws } t =
      { s with operands := ws ++ [t] } := by
  rw [GlyphCleanFilter.handleToken, h, if_neg Bool.false_ne_true]

theorem foldl_operands {ts : List Token} (hts : ∀ t ∈ ts, isOperator t = false)
    (hs : s.operands = []) :
    ts.foldl (GlyphCleanFilter.handleToken q res) s = { s with operands := ts } := by
  have h := Base.foldl_open (@handleToken_collects q res s) hts
  rwa [← hs] at h

theorem foldl_text (o : Operation) (hs : s.operands = []) :
    o.text.foldl (GlyphCleanFilter.handleToken q res) s = step q res s o := by
  have h := Base.foldl_text (@handleToken_collects q res s) o
  rw [← hs] at h
  rw [h, GlyphCleanFilter.handleToken, if_pos o.last_ends, step]

/-- The operands that are written for an operation. -/
def edited (s : GlyphCleanFilter) (o : Operation) : List Token :=
  if marks o.last.value then (fixLangs false o.words).1
  else if shows o.last.value then
    match s.cur with
    | none => o.words
    | some f => o.words.map f.cleanToken
  else o.words

/-- The languages that are replaced in an operation. -/
def langsIn (o : Operation) : Nat :=
  if marks o.last.value then (fixLangs false o.words).2 else 0

/-- The bad codes in an operation. -/
def badIn (s : GlyphCleanFilter) (o : Operation) : Nat :=
  if shows o.last.value then
    match s.cur with
    | none => 0
    | some f => (o.words.map f.badIn).sum
  else 0

theorem marks_iff {op : Bytes} :
    marks op = true ↔ op = lit "BDC" ∨ op = lit "BMC" ∨ op = lit "DP" := by
  simp [marks]

theorem shows_iff {op : Bytes} :
    shows op = true ↔ op = lit "Tj" ∨ op = lit "TJ" ∨ op = lit "'" ∨ op = lit "\"" := by
  simp [shows]

theorem domain_eq_some {op : Bytes} {names : List Bytes} (h : res.domain op = some names) :
    op = lit "cs" ∨ op = lit "CS" ∨ op = lit "Do" ∨ op = lit "gs" ∨ op = lit "sh" := by
  rw [Resources.domain] at h
  split_ifs at h with hcs hdo hgs hsh
  · exact hcs.imp_right Or.inl
  · exact Or.inr (Or.inr (Or.inl hdo))
  · exact Or.inr (Or.inr (Or.inr (Or.inl hgs)))
  · exact Or.inr (Or.inr (Or.inr (Or.inr hsh)))

/-- An operator that does nothing with the font. -/
def Fontless (op : Bytes) : Prop := op ≠ lit "Tf" ∧ op ≠ lit "q" ∧ op ≠ lit "Q"

theorem fontless_of_marks {op : Bytes} (h : marks op = true) :
    Fontless op ∧ shows op = false ∧ res.domain op = none := by
  obtain rfl | rfl | rfl := marks_iff.mp h <;>
    exact ⟨⟨by decide, by decide, by decide⟩, by decide, by simp +decide [Resources.domain]⟩

theorem fontless_of_shows {op : Bytes} (h : shows op = true) :
    Fontless op ∧ marks op = false ∧ res.domain op = none := by
  obtain rfl | rfl | rfl | rfl := shows_iff.mp h <;>
    exact ⟨⟨by decide, by decide, by decide⟩, by decide, by simp +decide [Resources.domain]⟩

theorem fontless_of_domain {op : Bytes} {names : List Bytes} (h : res.domain op = some names) :
    Fontless op ∧ marks op = false ∧ shows op = false := by
  obtain rfl | rfl | rfl | rfl | rfl := domain_eq_some h <;>
    exact ⟨⟨by decide, by decide, by decide⟩, by decide, by decide⟩

theorem domain_Tf : res.domain (lit "Tf") = none := by simp +decide [Resources.domain]

theorem Fontless.saveRestore_eq {token : Token} (h : Fontless token.value) (s : GlyphCleanFilter) :
    s.saveRestore token = s := by
  rw [GlyphCleanFilter.saveRestore, if_neg h.2.1, if_neg h.2.2]

theorem saveRestore_operands (s : GlyphCleanFilter) (token : Token) (ws : List Token) :
    ({ s with operands := ws }).saveRestore token =
      { s.saveRestore token with operands := ws } := by
  obtain ⟨cur, fontSet, saved⟩ := s
  rw [GlyphCleanFilter.saveRestore, GlyphCleanFilter.saveRestore]
  split_ifs
  · rfl
  · cases saved <;> rfl
  · rfl

theorem step_marks {o : Operation} (h : marks o.last.value = true) :
    step q res s o =
      { s with
        operands := []
        out := s.out ++ ((edited s o).map (written q) ++ [o.last])
        langFixed := s.langFixed + langsIn o } := by
  rw [step, GlyphCleanFilter.operator, if_pos h, edited, langsIn, if_pos h, if_pos h,
    ← List.append_assoc]
  rfl

/-- The font operator, taken apart. -/
theorem step_Tf {o : Operation} (h : o.last.value = lit "Tf") :
    step q res s o =
      if lastName o.words ≠ [] ∧ res.fonts.lookup (lastName o.words) = none then
        { s with
          cur := none, fontSet := false, operands := [], refDropped := s.refDropped + 1 }
      else
        { s with
          cur := res.fonts.lookup (lastName o.words)
          fontSet := lastName o.words ≠ []
          operands := []
          out := s.out ++ (o.words.map (written q) ++ [o.last]) } := by
  have hmarks : marks o.last.value = false := by rw [h]; decide
  have hsave : ∀ s : GlyphCleanFilter, s.saveRestore o.last = s := by
    intro s
    rw [GlyphCleanFilter.saveRestore, if_neg (by rw [h]; decide), if_neg (by rw [h]; decide)]
  rw [step, GlyphCleanFilter.operator, if_neg (Bool.not_eq_true _ ▸ hmarks), hsave, if_pos h,
    GlyphCleanFilter.setFont]
  split_ifs
  · rfl
  · rw [← List.append_assoc]
    rfl

theorem step_domain {o : Operation} {names : List Bytes}
    (h : res.domain o.last.value = some names) :
    step q res s o =
      if lastName o.words ≠ [] ∧ lastName o.words ∉ names then
        { s with operands := [], refDropped := s.refDropped + 1 }
      else
        { s with operands := [], out := s.out ++ (o.words.map (written q) ++ [o.last]) } := by
  obtain ⟨hfont, hmarks, -⟩ := fontless_of_domain h
  rw [step, GlyphCleanFilter.operator, if_neg (Bool.not_eq_true _ ▸ hmarks), hfont.saveRestore_eq,
    if_neg hfont.1, h, ← List.append_assoc]
  by_cases hmissing : lastName o.words ≠ [] ∧ lastName o.words ∉ names
  · rw [if_pos hmissing]
    exact if_pos hmissing
  · rw [if_neg hmissing]
    exact if_neg hmissing

/-- An operator that shows text, taken apart. -/
theorem step_shows {o : Operation} (h : shows o.last.value = true) :
    step q res s o =
      if s.fontSet then
        { s with
          operands := []
          out := s.out ++ ((edited s o).map (written q) ++ [o.last])
          dropped := s.dropped + badIn s o }
      else { s with operands := [], refDropped := s.refDropped + 1 } := by
  obtain ⟨hfont, hmarks, hdomain⟩ := @fontless_of_shows res _ h
  have hstep : step q res s o = ({ s with operands := o.words }).showText q o.last := by
    rw [step, GlyphCleanFilter.operator, if_neg (Bool.not_eq_true _ ▸ hmarks),
      hfont.saveRestore_eq, if_neg hfont.1, hdomain]
    exact if_pos h
  have hnot : ¬ marks o.last.value = true := Bool.not_eq_true _ ▸ hmarks
  rw [hstep, edited, badIn, if_neg hnot, if_pos h, if_pos h, GlyphCleanFilter.showText,
    ← List.append_assoc]
  by_cases hset : s.fontSet = true
  · rw [if_pos hset, if_pos hset]
    cases s.cur <;> rfl
  · rw [if_neg hset, if_neg hset]
    rfl

theorem step_other {o : Operation} (hmarks : marks o.last.value = false)
    (hfont : o.last.value ≠ lit "Tf") (hdomain : res.domain o.last.value = none)
    (hshows : shows o.last.value = false) :
    step q res s o =
      { s.saveRestore o.last with
        operands := []
        out := (s.saveRestore o.last).out ++ (o.words.map (written q) ++ [o.last]) } := by
  rw [step, GlyphCleanFilter.operator, if_neg (Bool.not_eq_true _ ▸ hmarks), if_neg hfont, hdomain,
    saveRestore_operands]
  simp only [hshows, Bool.false_eq_true, if_false]
  rw [← List.append_assoc]
  rfl

/-- What the filter does with an operation. -/
inductive Handled (q : Qpdf) (res : Resources) (s : GlyphCleanFilter) (o : Operation) :
    GlyphCleanFilter → Prop
  | marked (hmarks : marks o.last.value = true) :
      Handled q res s o { s with
        operands := []
        out := s.out ++ ((edited s o).map (written q) ++ [o.last])
        langFixed := s.langFixed + langsIn o }
  | noFont (hTf : o.last.value = lit "Tf") (hname : lastName o.words ≠ [])
      (hnone : res.fonts.lookup (lastName o.words) = none) :
      Handled q res s o { s with
        cur := none, fontSet := false, operands := [], refDropped := s.refDropped + 1 }
  | font (hTf : o.last.value = lit "Tf")
      (hfound : lastName o.words = [] ∨ (res.fonts.lookup (lastName o.words)).isSome) :
      Handled q res s o { s with
        cur := res.fonts.lookup (lastName o.words)
        fontSet := lastName o.words ≠ []
        operands := []
        out := s.out ++ (o.words.map (written q) ++ [o.last]) }
  | noResource (names : List Bytes) (hdomain : res.domain o.last.value = some names)
      (hname : lastName o.words ≠ []) (hmissing : lastName o.words ∉ names) :
      Handled q res s o { s with operands := [], refDropped := s.refDropped + 1 }
  | resource (names : List Bytes) (hdomain : res.domain o.last.value = some names)
      (hfound : lastName o.words = [] ∨ lastName o.words ∈ names) :
      Handled q res s o { s with
        operands := [], out := s.out ++ (o.words.map (written q) ++ [o.last]) }
  | unset (hshows : shows o.last.value = true) (hset : s.fontSet = false) :
      Handled q res s o { s with operands := [], refDropped := s.refDropped + 1 }
  | shown (hshows : shows o.last.value = true) (hset : s.fontSet = true) :
      Handled q res s o { s with
        operands := []
        out := s.out ++ ((edited s o).map (written q) ++ [o.last])
        dropped := s.dropped + badIn s o }
  | other (hmarks : marks o.last.value = false) (hTf : o.last.value ≠ lit "Tf")
      (hdomain : res.domain o.last.value = none) (hshows : shows o.last.value = false) :
      Handled q res s o { s.saveRestore o.last with
        operands := [], out := s.out ++ (o.words.map (written q) ++ [o.last]) }

theorem saveRestore_out (s : GlyphCleanFilter) (token : Token) :
    (s.saveRestore token).out = s.out := by
  rw [GlyphCleanFilter.saveRestore]
  split_ifs
  · rfl
  · cases s.saved <;> rfl
  · rfl

/-- The filter does one of these. -/
theorem step_handled (o : Operation) : Handled q res s o (step q res s o) := by
  cases hmarks : marks o.last.value with
  | true =>
      rw [step_marks hmarks]
      exact .marked hmarks
  | false =>
      by_cases hTf : o.last.value = lit "Tf"
      · rw [step_Tf hTf]
        split_ifs with hmissing
        · exact .noFont hTf hmissing.1 hmissing.2
        · refine .font hTf ?_
          rw [not_and_or, not_ne_iff] at hmissing
          exact hmissing.imp_right Option.isSome_iff_ne_none.mpr
      · cases hdomain : res.domain o.last.value with
        | some names =>
            rw [step_domain hdomain]
            split_ifs with hmissing
            · exact .noResource names hdomain hmissing.1 hmissing.2
            · refine .resource names hdomain ?_
              rw [not_and_or, not_ne_iff, not_not] at hmissing
              exact hmissing
        | none =>
            cases hshows : shows o.last.value with
            | true =>
                rw [step_shows hshows]
                split_ifs with hset
                · exact .shown hshows hset
                · exact .unset hshows (Bool.not_eq_true _ ▸ hset)
            | false =>
                rw [step_other hmarks hTf hdomain hshows, saveRestore_out]
                exact .other hmarks hTf hdomain hshows

theorem Handled.operands_eq {o : Operation} {s' : GlyphCleanFilter} (h : Handled q res s o s') :
    s'.operands = [] := by
  cases h <;> rfl

theorem alike_edited (o : Operation) : List.Forall₂ Alike o.words (edited s o) := by
  rw [edited]
  split
  · exact alike_fixLangs false o.words
  · split
    · cases s.cur with
      | none => exact forall₂_refl _
      | some f => exact forall₂_map (alike_cleanToken f) (forall₂_refl _)
    · exact forall₂_refl _

/-- The name of a font of the resources among operands. -/
def fontNamed (res : Resources) (words : List Token) : Option Token :=
  (nameToken words).filter fun t => t.value ≠ [] && (res.fonts.lookup t.value).isSome

/-- The name that has set the font in force, and those of the fonts that are saved. -/
structure FontUse where
  name : Option Token := none
  saved : List (Option Token) := []

/-- One operation. -/
def FontUse.step (res : Resources) (u : FontUse) (o : Operation) : FontUse :=
  if o.last.value = lit "q" then { u with saved := u.name :: u.saved }
  else if o.last.value = lit "Q" then
    match u.saved with
    | [] => u
    | name :: rest => ⟨name, rest⟩
  else if o.last.value = lit "Tf" then { u with name := fontNamed res o.words }
  else u

/-- The name that has set the font behind operations, if there is such a font. -/
def fontUse (res : Resources) (ops : List Operation) : FontUse := ops.foldl (FontUse.step res) {}

/-- Whether the filter has the font that a name sets. -/
def HasFont (res : Resources) (name : Option Token) (font : Option FontGlyphInfo × Bool) : Prop :=
  font.2 = name.isSome ∧ ∀ t, name = some t → font.1 = res.fonts.lookup t.value

/-- Whether the filter has the fonts that the names of a stream set. -/
structure Follows (res : Resources) (u : FontUse) (s : GlyphCleanFilter) : Prop where
  font : HasFont res u.name (s.cur, s.fontSet)
  saved : List.Forall₂ (HasFont res) u.saved s.saved

theorem FontUse.step_fontless {u : FontUse} {o : Operation} (h : Fontless o.last.value) :
    u.step res o = u := by
  rw [FontUse.step, if_neg h.2.1, if_neg h.2.2, if_neg h.1]

theorem FontUse.step_Tf {u : FontUse} {o : Operation} (h : o.last.value = lit "Tf") :
    u.step res o = { u with name := fontNamed res o.words } := by
  rw [FontUse.step, if_neg (by rw [h]; decide), if_neg (by rw [h]; decide), if_pos h]

/-- The name and the font are found together. -/
theorem hasFont_fontNamed {words : List Token} :
    (lastName words = [] ∨ (res.fonts.lookup (lastName words)).isSome → HasFont res
        (fontNamed res words) (res.fonts.lookup (lastName words), decide (lastName words ≠ []))) ∧
      (lastName words ≠ [] → res.fonts.lookup (lastName words) = none →
        HasFont res (fontNamed res words) (none, false)) := by
  rw [lastName, fontNamed]
  cases nameToken words with
  | none => exact ⟨fun _ => ⟨rfl, fun t ht => by cases ht⟩, fun h => absurd rfl h⟩
  | some t =>
      change (t.value = [] ∨ _ → _) ∧ _
      constructor
      · intro hfound
        by_cases hempty : t.value = []
        · have hnone :
              (some t).filter (fun t => t.value ≠ [] && (res.fonts.lookup t.value).isSome) =
              none := by simp [hempty]
          rw [hnone]
          exact ⟨by simp [hempty], fun t ht => by cases ht⟩
        · have hsome :
              (some t).filter (fun t => t.value ≠ [] && (res.fonts.lookup t.value).isSome) =
              some t := by simpa [hempty] using hfound
          rw [hsome]
          refine ⟨by simp [hempty], ?_⟩
          rintro _ ⟨⟩
          rfl
      · intro hne hnone
        have hfilter :
            (some t).filter (fun t => t.value ≠ [] && (res.fonts.lookup t.value).isSome) =
            none := by
          have hlookup : res.fonts.lookup t.value = none := hnone
          rw [Option.filter_some, hlookup, Option.isSome_none, Bool.and_false,
            if_neg Bool.false_ne_true]
        rw [hfilter]
        exact ⟨rfl, fun t ht => by cases ht⟩

/-- The filter follows the font in use over every operation. -/
theorem Follows.handled {u : FontUse} {o : Operation} {s' : GlyphCleanFilter} (h : Follows res u s)
    (hs : Handled q res s o s') : Follows res (u.step res o) s' := by
  cases hs with
  | marked hmarks =>
      rw [FontUse.step_fontless (@fontless_of_marks res _ hmarks).1]
      exact ⟨h.font, h.saved⟩
  | noFont hTf hname hnone =>
      rw [FontUse.step_Tf hTf]
      exact ⟨hasFont_fontNamed.2 hname hnone, h.saved⟩
  | font hTf hfound =>
      rw [FontUse.step_Tf hTf]
      exact ⟨hasFont_fontNamed.1 hfound, h.saved⟩
  | noResource names hdomain =>
      rw [FontUse.step_fontless (fontless_of_domain hdomain).1]
      exact ⟨h.font, h.saved⟩
  | resource names hdomain =>
      rw [FontUse.step_fontless (fontless_of_domain hdomain).1]
      exact ⟨h.font, h.saved⟩
  | unset hshows hset =>
      rw [FontUse.step_fontless (@fontless_of_shows res _ hshows).1]
      exact ⟨h.font, h.saved⟩
  | shown hshows hset =>
      rw [FontUse.step_fontless (@fontless_of_shows res _ hshows).1]
      exact ⟨h.font, h.saved⟩
  | other hmarks hTf =>
      rw [FontUse.step, GlyphCleanFilter.saveRestore]
      split_ifs with hq hQ
      · exact ⟨h.font, .cons h.font h.saved⟩
      · obtain ⟨name, names⟩ := u
        obtain ⟨cur, fontSet, saved⟩ := s
        have hsaved := h.saved
        cases hsaved with
        | nil => exact ⟨h.font, .nil⟩
        | cons hfirst hrest => exact ⟨hfirst, hrest⟩
      · exact ⟨h.font, h.saved⟩

end Kura.Engine.GlyphClean
