import Mathlib.Data.List.Induction

/-!
# Words up to one that ends them

A text is cut into phrases, each of some words and a last one that ends it. A
text has one such reading, so what is read of a text that was put together from
phrases is these phrases.
-/

namespace Kura.Base

variable {α : Type*} {ends : α → Bool}

/-- Words of which only the last one is an end. -/
@[ext]
structure Phrase (ends : α → Bool) where
  words : List α
  last : α
  words_open : ∀ w ∈ words, ends w = false
  last_ends : ends last = true

namespace Phrase

/-- The words of a phrase. -/
def text (p : Phrase ends) : List α := p.words ++ [p.last]

/-- A phrase with one more word in front. -/
def push (a : α) (h : ends a = false) (p : Phrase ends) : Phrase ends where
  words := a :: p.words
  last := p.last
  words_open := List.forall_mem_cons.mpr ⟨h, p.words_open⟩
  last_ends := p.last_ends

end Phrase

/-- The phrases of a text, and the words behind the last one. -/
def phrases (ends : α → Bool) : List α → List (Phrase ends) × List α
  | [] => ([], [])
  | a :: as =>
      let more := phrases ends as
      if h : ends a =
        true then (⟨[], a, fun _ hw => absurd hw List.not_mem_nil, h⟩ :: more.1, more.2)
      else
        match more.1 with
        | [] => ([], a :: more.2)
        | p :: ps => (p.push a (Bool.not_eq_true _ ▸ h) :: ps, more.2)

theorem phrases_text (as : List α) :
    (phrases ends as).1.flatMap Phrase.text ++ (phrases ends as).2 = as := by
  induction as with
  | nil => rfl
  | cons a as ih =>
      rw [phrases]
      split
      · exact congrArg (List.cons a) ih
      · split
        · rename_i hnil
          rw [hnil] at ih
          exact congrArg (List.cons a) ih
        · rename_i p ps hcons
          rw [hcons] at ih
          exact congrArg (List.cons a) ih

theorem phrases_rest (as : List α) : ∀ w ∈ (phrases ends as).2, ends w = false := by
  induction as with
  | nil => exact fun w hw => absurd hw List.not_mem_nil
  | cons a as ih =>
      rw [phrases]
      split
      · exact ih
      · rename_i ha
        split
        · exact List.forall_mem_cons.mpr ⟨Bool.not_eq_true _ ▸ ha, ih⟩
        · exact ih

theorem phrases_of_open {as : List α} (h : ∀ w ∈ as, ends w = false) :
    phrases ends as = ([], as) := by
  induction as with
  | nil => rfl
  | cons a as ih =>
      obtain ⟨ha, has⟩ := List.forall_mem_cons.mp h
      rw [phrases, ih has, dif_neg (Bool.not_eq_true _ ▸ ha)]

/-- A phrase in front of a text is its first one. -/
theorem phrases_append (p : Phrase ends) (as : List α) :
    phrases ends (p.text ++ as) = (p :: (phrases ends as).1, (phrases ends as).2) := by
  obtain ⟨words, last, hwords, hlast⟩ := p
  induction words with
  | nil =>
      change phrases ends (last :: as) = _
      rw [phrases, dif_pos hlast]
  | cons a words ih =>
      obtain ⟨ha, hrest⟩ := List.forall_mem_cons.mp hwords
      change phrases ends (a :: (Phrase.text ⟨words, last, hrest, hlast⟩ ++ as)) = _
      rw [phrases, ih hrest, dif_neg (Bool.not_eq_true _ ▸ ha)]
      rfl

/-- What is read of phrases is these phrases. -/
theorem phrases_flatMap (ps : List (Phrase ends)) (as : List α) :
    phrases ends (ps.flatMap Phrase.text ++ as) =
      (ps ++ (phrases ends as).1, (phrases ends as).2) := by
  induction ps with
  | nil => rfl
  | cons p ps ih => rw [List.flatMap_cons, List.append_assoc, phrases_append, ih, List.cons_append]

theorem phrases_flatMap_rest (ps : List (Phrase ends)) {rest : List α}
    (h : ∀ w ∈ rest, ends w = false) :
    phrases ends (ps.flatMap Phrase.text ++ rest) = (ps, rest) := by
  rw [phrases_flatMap, phrases_of_open h, List.append_nil]

/-- A phrase behind a text that ends with one is its last one. -/
theorem phrases_concat {as : List α} (h : (phrases ends as).2 = []) (p : Phrase ends) :
    phrases ends (as ++ p.text) = ((phrases ends as).1 ++ [p], []) := by
  have htext := @phrases_text α ends as
  rw [h, List.append_nil] at htext
  generalize (phrases ends as).1 = ps at htext ⊢
  subst htext
  have hread := phrases_flatMap (ps ++ [p]) []
  rwa [List.append_nil, List.flatMap_append, List.flatMap_singleton, phrases, List.append_nil]
    at hread

/-- One more word that ends a phrase takes the words that were left. -/
theorem phrases_end (as : List α) {a : α} (h : ends a = true) :
    phrases ends (as ++ [a]) =
      ((phrases ends as).1 ++ [⟨(phrases ends as).2, a, phrases_rest as, h⟩], []) := by
  have hread := phrases_flatMap (phrases ends as).1
    (Phrase.text ⟨(phrases ends as).2, a, phrases_rest as, h⟩)
  rw [Phrase.text, ← List.append_assoc, phrases_text] at hread
  have hlast := phrases_append ⟨(phrases ends as).2, a, phrases_rest as, h⟩ []
  rw [List.append_nil, Phrase.text, phrases] at hlast
  rw [hread, hlast]

/-- One more word that ends no phrase is left. -/
theorem phrases_word (as : List α) {a : α} (h : ends a = false) :
    phrases ends (as ++ [a]) = ((phrases ends as).1, (phrases ends as).2 ++ [a]) := by
  have hrest : ∀ w ∈ (phrases ends as).2 ++ [a], ends w = false :=
    List.forall_mem_append.mpr ⟨phrases_rest as, List.forall_mem_singleton.mpr h⟩
  have hread := phrases_flatMap_rest (phrases ends as).1 hrest
  rwa [← List.append_assoc, phrases_text] at hread

/-- Words that end nothing are collected. -/
theorem foldl_open {σ : Type*} {f : σ → α → σ} {collect : List α → σ}
    (h : ∀ ws w, ends w = false → f (collect ws) w = collect (ws ++ [w])) {ws : List α}
    (hws : ∀ w ∈ ws, ends w = false) : ws.foldl f (collect []) = collect ws := by
  induction ws using List.reverseRecOn with
  | nil => rfl
  | append_singleton ws w ih =>
      obtain ⟨hinit, hlast⟩ := List.forall_mem_append.mp hws
      rw [List.foldl_append, ih hinit]
      exact h ws w (hlast w List.mem_cons_self)

/-- A reader that collects words up to an end sees a phrase at its last word. -/
theorem foldl_text {σ : Type*} {f : σ → α → σ} {collect : List α → σ}
    (h : ∀ ws w, ends w = false → f (collect ws) w = collect (ws ++ [w])) (p : Phrase ends) :
    p.text.foldl f (collect []) = f (collect p.words) p.last := by
  rw [Phrase.text, List.foldl_append, foldl_open h p.words_open]
  rfl

end Kura.Base
