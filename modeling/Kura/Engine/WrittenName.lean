import Kura.Engine.ContentRun

/-!
# The name that is written for a name

A name is held back until the next token that is no white space. Unless this is
`ri`, the name is written as it is held, and what has been written stays.
-/

namespace Kura.Engine

namespace ContentFixFilter

variable {q : Qpdf} {m : FixMode} {s : ContentFixFilter} {t w : Token}

theorem out_isPrefix_text (s : ContentFixFilter) : s.out <+: s.text :=
  ⟨s.heldName.toList ++ s.heldTrail, (List.append_assoc _ _ _).symm⟩

theorem Effect.out_isPrefix {s' : ContentFixFilter} (h : Effect q m s t s') :
    s.out <+: s'.text := by
  have htext := out_isPrefix_text s
  cases h with
  | blank hrole ht hsame => exact ht ▸ htext.trans (List.prefix_append _ _)
  | operand hrole hrole' hclamped ht hsame => exact ht ▸ htext.trans (List.prefix_append _ _)
  | bracket hrole ht hdepth hnest => exact ht ▸ htext.trans (List.prefix_append _ _)
  | dropped hrole hdrops ht hdepth hnest => exact ht ▸ htext
  | written hrole hdrops hts ht hdepth hnest =>
      rw [ht]
      refine List.IsPrefix.trans ?_ (List.prefix_append _ _)
      obtain rfl | ⟨-, n, -, -, rfl⟩ := hts
      · exact htext
      · exact List.prefix_append _ _

theorem out_contentToken (s : ContentFixFilter) : s.out <+: (s.contentToken q m t).out := by
  by_cases hbi : t.isWord "BI" = true
  · obtain ⟨htext, hname, htrail, -⟩ := contentToken_start (q := q) (m := m) s hbi
    rw [← text_of_empty hname htrail, htext]
    exact out_isPrefix_text s
  · have hbi' : t.isWord "BI" = false := Bool.not_eq_true _ ▸ hbi
    obtain h | h | h := (frame_contentToken (q := q) (m := m) s hbi').out
    · rw [h]
    · rw [h]
      exact out_isPrefix_text s
    · rw [h]
      exact (effect_content s hbi').out_isPrefix

theorem out_imageToken (s : ContentFixFilter) : s.out <+: (s.imageToken q t).out := by
  rw [imageToken]
  split
  · exact List.prefix_rfl
  · split
    · exact List.prefix_append _ _
    · split
      · exact List.prefix_append _ _
      · exact List.prefix_rfl

theorem out_handleToken (s : ContentFixFilter) : s.out <+: (handleToken q m s t).out := by
  rw [handleToken]
  split
  · exact out_imageToken s
  · split
    · split
      · exact List.prefix_rfl
      · split
        · exact List.prefix_rfl
        · exact out_contentToken { s with swallowEI := false }
    · exact out_contentToken s

theorem out_handleEOF (s : ContentFixFilter) : s.text <+: s.handleEOF.out :=
  (List.prefix_append _ _).trans (List.prefix_append _ _)

theorem out_foldl (ts : List Token) (s : ContentFixFilter) :
    s.out <+: (ts.foldl (handleToken q m) s).out := by
  induction ts generalizing s with
  | nil => exact List.prefix_rfl
  | cons t ts ih => exact (out_handleToken s).trans (ih _)

/-- A filter outside of images that holds a name back. -/
structure Holds (s : ContentFixFilter) (w : Token) : Prop where
  flags : s.flags = (false, false)
  name : s.heldName = some w

theorem Holds.text_eq (h : Holds s w) : s.out ++ [w] <+: s.text := by
  rw [text_of_held h.name]
  exact ⟨s.heldTrail, by rw [List.append_assoc, List.singleton_append]⟩

theorem Holds.handleToken_eq (h : Holds s w) (t : Token) :
    handleToken q m s t = s.contentToken q m t := by
  have himage : s.inImageDict = false := congrArg Prod.fst h.flags
  have hswallow : s.swallowEI = false := congrArg Prod.snd h.flags
  rw [handleToken, if_neg (ne_true_of_eq_false himage), if_neg (ne_true_of_eq_false hswallow)]

/-- White space and comments leave the name where it is. -/
theorem Holds.blank (h : Holds s w) (ht : t.type = .space ∨ t.type = .comment) :
    Holds (handleToken q m s t) w ∧ (handleToken q m s t).out = s.out := by
  obtain ⟨a, b, u, hnote⟩ := noteName_eq s t
  have hblank : s.contentToken q m t = (s.noteName t).blankToken t := by
    rw [contentToken]
    obtain ht | ht := ht <;> rw [ht]
  have hheld : (s.noteName t).heldName.isSome = true := by
    rw [hnote]
    exact congrArg Option.isSome h.name
  rw [h.handleToken_eq, hblank, blankToken, if_pos hheld, hnote]
  exact ⟨⟨h.flags, h.name⟩, rfl⟩

/-- A token in the role of a word is the word. -/
theorem isWord_of_role_word {w : String} (h : t.role = .operator (.word (lit w))) :
    t.isWord w = true := by
  rw [Token.role] at h
  cases ht : t.type with
  | word =>
      rw [ht] at h
      injection h with h
      injection h with h
      rw [Token.isWord, decide_eq_true_eq]
      exact ⟨ht, h⟩
  | bad =>
      rw [ht] at h
      simp only at h
      split at h
      · cases h
      · injection h with h
        cases h
  | _ =>
      rw [ht] at h
      cases h

/-- A token that is neither `ri` nor holds anything back writes what was held. -/
theorem out_of_flushed {c : ContentFixFilter} (hname : c.heldName = none)
    (htrail : c.heldTrail = [])
    (heffect : Effect q m s t c) (hri : t.isWord "ri" = false) : s.text <+: c.out := by
  rw [← text_of_empty hname htrail]
  cases heffect with
  | blank hrole ht hsame => exact ht ▸ List.prefix_append _ _
  | operand hrole hrole' hclamped ht hsame => exact ht ▸ List.prefix_append _ _
  | bracket hrole ht hdepth hnest => exact ht ▸ List.prefix_append _ _
  | dropped hrole hdrops ht hdepth hnest => exact ht ▸ List.prefix_rfl
  | written hrole hdrops hts ht hdepth hnest =>
      rw [ht]
      refine List.IsPrefix.trans ?_ (List.prefix_append _ _)
      obtain rfl | ⟨rfl, -⟩ := hts
      · exact List.prefix_rfl
      · exact absurd (isWord_of_role_word hrole) (ne_true_of_eq_false hri)

/-- Nothing is held back. -/
def Empty (s : ContentFixFilter) : Prop := s.heldName = none ∧ s.heldTrail = []

theorem empty_operator : Empty (s.operator q t) := by
  rw [operator]
  split
  · split <;> exact ⟨rfl, rfl⟩
  · split
    · exact ⟨rfl, rfl⟩
    · split <;> exact ⟨rfl, rfl⟩

theorem empty_wordToken : Empty (s.wordToken q m t) := by
  rw [wordToken]
  split
  · split
    · exact ⟨rfl, rfl⟩
    · exact empty_operator
  · split
    · split
      · exact ⟨rfl, rfl⟩
      · exact empty_operator
    · exact empty_operator

theorem empty_stringToken : Empty (s.stringToken q m t) := by
  rw [stringToken]
  split
  · exact ⟨rfl, rfl⟩
  · split
    · split <;> exact ⟨rfl, rfl⟩
    · exact ⟨rfl, rfl⟩

/-- Names and white space apart, nothing is held back after a token. -/
theorem empty_contentToken (s : ContentFixFilter) (hname : t.type ≠ .name)
    (hspace : t.type ≠ .space) (hcomment : t.type ≠ .comment) :
    Empty (s.contentToken q m t) := by
  rw [contentToken]
  cases ht : t.type with
  | name => exact absurd ht hname
  | space => exact absurd ht hspace
  | comment => exact absurd ht hcomment
  | word => exact empty_wordToken
  | string => exact empty_stringToken
  | bad =>
      simp only [badToken]
      split <;> exact ⟨rfl, rfl⟩
  | arrayClose =>
      simp only []
      split <;> exact ⟨rfl, rfl⟩
  | dictClose =>
      simp only []
      split <;> exact ⟨rfl, rfl⟩
  | _ => exact ⟨rfl, rfl⟩

/-- The first token that is no white space writes the name, unless it is `ri`. -/
theorem Holds.next (h : Holds s w) (hspace : t.type ≠ .space) (hcomment : t.type ≠ .comment)
    (hri : t.isWord "ri" = false) : s.out ++ [w] <+: (handleToken q m s t).out := by
  refine h.text_eq.trans ?_
  rw [h.handleToken_eq]
  by_cases hname : t.type = .name
  · obtain ⟨a, b, u, hnote⟩ := noteName_eq s t
    have hout : (s.contentToken q m t).out = s.text := by
      rw [contentToken, hname, hnote]
      simp only [nameToken]
      split <;> rfl
    rw [hout]
  · obtain ⟨hheld, htrail⟩ := empty_contentToken (q := q) (m := m) s hname hspace hcomment
    by_cases hbi : t.isWord "BI" = true
    · obtain ⟨htext, -⟩ := contentToken_start (q := q) (m := m) s hbi
      rw [← text_of_empty hheld htrail, htext]
    · exact out_of_flushed hheld htrail (effect_content s (Bool.not_eq_true _ ▸ hbi)) hri

/-- Tests for white space and comments. -/
def isBlank (t : Token) : Bool := t.type = .space || t.type = .comment

/-- The next token that is no white space is not `ri`. -/
def NoIntent (ts : List Token) : Prop :=
  ∀ t ∈ (ts.dropWhile isBlank).head?, t.isWord "ri" = false

/-- The name that is held back is written before all that follows. -/
theorem Holds.written (h : Holds s w) {ts : List Token} (hnext : NoIntent ts) :
    s.out ++ [w] <+: ((ts.foldl (handleToken q m) s).handleEOF).out := by
  induction ts generalizing s with
  | nil => exact h.text_eq.trans (out_handleEOF s)
  | cons t ts ih =>
      rw [NoIntent, List.dropWhile_cons] at hnext
      rw [List.foldl_cons]
      by_cases hblank : isBlank t = true
      · rw [if_pos hblank] at hnext
        rw [isBlank, Bool.or_eq_true, decide_eq_true_eq, decide_eq_true_eq] at hblank
        obtain ⟨hholds, hout⟩ := h.blank (q := q) (m := m) hblank
        rw [← hout]
        exact ih hholds hnext
      · rw [if_neg hblank] at hnext
        rw [isBlank, Bool.or_eq_true, decide_eq_true_eq, decide_eq_true_eq, not_or] at hblank
        have hstep := h.next (q := q) (m := m) hblank.1 hblank.2 (hnext t rfl)
        exact hstep.trans ((out_foldl ts _).trans ((out_isPrefix_text _).trans (out_handleEOF _)))

/-- The token that is written for a name. -/
def limitedName (q : Qpdf) (m : FixMode) (t : Token) : Token :=
  if m.limits ∧ kMaxName + 1 < t.value.length then
    q.nameToken (lit "/" ++ shortenName (t.value.drop 1))
  else t

/-- A name outside of images is held back, cut to the limit. -/
theorem handleToken_name (ht : t.type = .name) (himage : s.inImageDict = false) :
    Holds (handleToken q m s t) (limitedName q m t) ∧ (handleToken q m s t).out = s.text := by
  have hcontent : ∀ c : ContentFixFilter, c.inImageDict = false → c.swallowEI = false →
      Holds (c.contentToken q m t) (limitedName q m t) ∧ (c.contentToken q m t).out = c.text := by
    intro c hc hswallow
    obtain ⟨a, b, u, hnote⟩ := noteName_eq c t
    have hflags : c.flags = (false, false) := Prod.ext hc hswallow
    rw [contentToken, ht, hnote]
    simp only [nameToken, limitedName]
    split
    · exact ⟨⟨hflags, rfl⟩, rfl⟩
    · exact ⟨⟨hflags, rfl⟩, rfl⟩
  have hspace : t.type ≠ .space := by
    rw [ht]
    decide
  have hei : t.isWord "EI" = false := ContentReader.isWord_eq_false (by rw [ht]; decide) "EI"
  rw [handleToken, if_neg (ne_true_of_eq_false himage)]
  by_cases hswallow : s.swallowEI = true
  · rw [if_pos hswallow, if_neg hspace, hei, if_neg Bool.false_ne_true]
    exact hcontent { s with swallowEI := false } himage rfl
  · rw [if_neg hswallow]
    exact hcontent s himage (Bool.not_eq_true _ ▸ hswallow)

/-- A name outside of images is written behind everything that was written for what is before it. -/
theorem limitedName_written (pre post : List Token) (ht : t.type = .name)
    (houtside : (run q m pre).inImageDict = false) (hnext : NoIntent post) :
    (run q m pre).text ++ [limitedName q m t] <+: (filterTokens q m (pre ++ t :: post)).out := by
  obtain ⟨hholds, hout⟩ := handleToken_name (q := q) (m := m) ht houtside
  have hrun : run q m (pre ++ t :: post) =
      post.foldl (handleToken q m) (handleToken q m (run q m pre) t) := by
    rw [run, List.foldl_append, List.foldl_cons]
    rfl
  rw [filterTokens, hrun, ← hout]
  exact hholds.written hnext

end ContentFixFilter

end Kura.Engine
