import Mathlib.Data.List.Basic

/-!
# What holds at each place of a list

A condition on the elements of a list may depend on what is before them. It
holds at each place if it holds for the last element behind all others and at
each place of these.
-/

namespace Kura.Base

variable {α : Type*} {P : List α → α → Prop} {l : List α} {a : α}

/-- Whether every element stands in a relation with those before it. -/
def AtEach (P : List α → α → Prop) (l : List α) : Prop :=
  ∀ before a after, l = before ++ a :: after → P before a

theorem AtEach.nil : AtEach P [] := by
  intro before a after heq
  cases before <;> cases heq

theorem atEach_append : AtEach P (l ++ [a]) ↔ AtEach P l ∧ P l a := by
  constructor
  · intro h
    refine ⟨?_, h l a [] rfl⟩
    intro before b after heq
    exact h before b (after ++ [a]) (by rw [heq, List.append_assoc, List.cons_append])
  · rintro ⟨hl, ha⟩ before b after heq
    obtain rfl | ⟨after, c, rfl⟩ := List.eq_nil_or_concat after
    · obtain ⟨rfl, hlast⟩ := List.append_inj' heq rfl
      cases hlast
      exact ha
    · rw [List.concat_eq_append, ← List.cons_append, ← List.append_assoc] at heq
      obtain ⟨heq, -⟩ := List.append_inj' heq rfl
      exact hl before b after heq

/-- What holds at each place holds at each place of the first part. -/
theorem AtEach.left {l' : List α} (h : AtEach P (l ++ l')) : AtEach P l := by
  intro before b after heq
  exact h before b (after ++ l') (by rw [heq, List.append_assoc, List.cons_append])

theorem AtEach.mono {Q : List α → α → Prop} (hPQ : ∀ before a, a ∈ l → P before a → Q before a)
    (h : AtEach P l) : AtEach Q l := by
  intro before a after heq
  refine hPQ before a ?_ (h before a after heq)
  rw [heq]
  exact List.mem_append_right _ List.mem_cons_self

/-- What holds of every element and those before it, told by its place. -/
theorem atEach_of_getElem (h : ∀ i, ∀ hi : i < l.length, P (l.take i) l[i]) : AtEach P l := by
  intro before a after heq
  subst heq
  have hi : before.length < (before ++ a :: after).length := by
    rw [List.length_append, List.length_cons]
    omega
  have hplace := h before.length hi
  rwa [List.take_left, List.getElem_of_append rfl rfl] at hplace

end Kura.Base
