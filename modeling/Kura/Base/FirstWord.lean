import Mathlib

/-!
# Words that do not start in a part of a text

A search for a word passes over a part of a text if the word starts at none of
its places, also where it would reach behind the part.
-/

namespace Kura.Base

variable {α : Type*} {word a b rest v : List α}

/-- The word starts at no place of the first part. -/
def StartsNowhere (word a rest : List α) : Prop :=
  ∀ s, s ≠ [] → s <:+ a → ¬ word <+: s ++ rest

theorem StartsNowhere.tail {x : α} (h : StartsNowhere word (x :: a) rest) :
    StartsNowhere word a rest := fun s hs hsuf => h s hs (hsuf.trans (List.suffix_cons x a))

theorem StartsNowhere.head {x : α} (h : StartsNowhere word (x :: a) rest) :
    ¬ word <+: x :: (a ++ rest) := h (x :: a) (List.cons_ne_nil x a) List.suffix_rfl

/-- A letter of the word is missing. -/
theorem startsNowhere_of_letter {i : Nat} {y : α} (hletter : word[i]? = some y) (ha : y ∉ a)
    (hrest : y ∉ rest.take i) : StartsNowhere word a rest := by
  intro s hs hsuf hpre
  have hi : i < word.length := (List.getElem?_eq_some_iff.mp hletter).1
  have hget : (s ++ rest)[i]? = some y := by
    obtain ⟨t, ht⟩ := hpre
    rw [← ht, List.getElem?_append_left hi]
    exact hletter
  by_cases hlt : i < s.length
  · rw [List.getElem?_append_left hlt] at hget
    exact ha (hsuf.subset (List.mem_of_getElem? hget))
  · rw [List.getElem?_append_right (Nat.le_of_not_lt hlt)] at hget
    have hpos := List.length_pos_of_ne_nil hs
    refine hrest (List.mem_of_getElem? (i := i - s.length) ?_)
    rw [List.getElem?_take_of_lt (by omega)]
    exact hget

/-- The word is not in the first part, and no end of it fits to what follows. -/
theorem startsNowhere_of_ends (ha : ¬ word <:+: a)
    (hends : ∀ j, 0 < j → j < word.length → ¬ word.drop j <+: v ∧ ¬ v <+: word.drop j) :
    StartsNowhere word a (v ++ rest) := by
  intro s hs hsuf hpre
  have hpos := List.length_pos_of_ne_nil hs
  by_cases hlt : s.length < word.length
  · have hdrop : word.drop s.length <+: v ++ rest := by
      have h := hpre.drop s.length
      rwa [List.drop_left] at h
    obtain hle | hle := List.prefix_or_prefix_of_prefix hdrop (List.prefix_append v rest)
    · exact (hends s.length hpos hlt).1 hle
    · exact (hends s.length hpos hlt).2 hle
  · have hin : word <+: s :=
      List.prefix_of_prefix_length_le hpre (List.prefix_append s (v ++ rest)) (Nat.le_of_not_lt hlt)
    exact ha (hin.isInfix.trans hsuf.isInfix)

/-- The word is not in the first part, which ends with a letter that the word does not have. -/
theorem startsNowhere_of_apart (ha : ¬ word <:+: a) (hlast : ∀ x ∈ a.getLast?, x ∉ word) :
    StartsNowhere word a rest := by
  intro s hs hsuf hpre
  by_cases hlt : s.length < word.length
  · have hin : s <+: word :=
      List.prefix_of_prefix_length_le (List.prefix_append s rest) hpre hlt.le
    refine hlast (s.getLast hs) ?_ (hin.subset (List.getLast_mem hs))
    obtain ⟨front, rfl⟩ := hsuf
    rw [List.getLast?_append_of_ne_nil front hs, List.getLast?_eq_some_getLast hs]
    rfl
  · have hin : word <+: s :=
      List.prefix_of_prefix_length_le hpre (List.prefix_append s rest) (Nat.le_of_not_lt hlt)
    exact ha (hin.isInfix.trans hsuf.isInfix)

/-- The word is not in a part behind which there is nothing. -/
theorem startsNowhere_of_last (ha : ¬ word <:+: a) : StartsNowhere word a [] := by
  intro s _ hsuf hpre
  rw [List.append_nil] at hpre
  exact ha (hpre.isInfix.trans hsuf.isInfix)

end Kura.Base
