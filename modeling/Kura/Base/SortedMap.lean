import Mathlib.Data.List.Lex
import Mathlib.Tactic

/-!
# Maps sorted by their keys

A map is a list of keys with their values, sorted by what an injective function
makes of the keys. A key that is there keeps its value.
-/

namespace Kura.Base

variable {κ α ω : Type*} [LinearOrder ω]

/-- Puts a key into a sorted list, unless it is there. -/
def emplace (order : κ → ω) (k : κ) (a : α) : List (κ × α) → List (κ × α)
  | [] => [(k, a)]
  | e :: es =>
      if order k < order e.1 then (k, a) :: e :: es
      else if order k = order e.1 then e :: es
      else e :: emplace order k a es

/-- The map of a list in which keys may occur more than once. -/
def firsts (order : κ → ω) (kvs : List (κ × α)) : List (κ × α) :=
  kvs.foldl (fun m kv => emplace order kv.1 kv.2 m) []

/-- The keys are strictly increasing. -/
def Increasing (order : κ → ω) (m : List (κ × α)) : Prop :=
  m.Pairwise fun e e' => order e.1 < order e'.1

variable {order : κ → ω} {k : κ} {a : α} {m : List (κ × α)}

/-- An emplaced entry is new only where its key is. -/
theorem mem_emplace_iff (horder : Function.Injective order) (hm : Increasing order m)
    {e : κ × α} : e ∈ emplace order k a m ↔
      e ∈ m ∨ e = (k, a) ∧ ∀ e' ∈ m, e'.1 ≠ k := by
  induction m with
  | nil => simp [emplace]
  | cons e₀ es ih =>
      obtain ⟨hfirst, hrest⟩ := List.pairwise_cons.mp hm
      rw [emplace]
      split_ifs with hlt heq
      · have hnone : ∀ e' ∈ e₀ :: es, e'.1 ≠ k := by
          intro e' he' hk
          subst hk
          obtain rfl | hmem := List.mem_cons.mp he'
          · exact lt_irrefl _ hlt
          · exact lt_asymm hlt (hfirst e' hmem)
        rw [List.mem_cons, or_comm, and_iff_left hnone]
      · refine (or_iff_left ?_).symm
        rintro ⟨-, hnone⟩
        exact hnone e₀ List.mem_cons_self (horder heq).symm
      · have hne : e₀.1 ≠ k := fun h => heq (congrArg order h.symm)
        rw [List.mem_cons, ih hrest, List.mem_cons, or_assoc]
        refine or_congr_right (or_congr_right (and_congr_right fun _ => ?_))
        exact ⟨fun h e' he' => (List.mem_cons.mp he').elim (fun h' => h' ▸ hne) (h e'),
          fun h e' he' => h e' (List.mem_cons_of_mem _ he')⟩

/-- To emplace an entry keeps the map in order. -/
theorem Increasing.emplace (horder : Function.Injective order) (hm : Increasing order m) :
    Increasing order (emplace order k a m) := by
  induction m with
  | nil => exact List.pairwise_singleton _ _
  | cons e₀ es ih =>
      obtain ⟨hfirst, hrest⟩ := List.pairwise_cons.mp hm
      rw [Base.emplace]
      split_ifs with hlt heq
      · refine List.pairwise_cons.mpr ⟨fun e' he' => ?_, hm⟩
        obtain rfl | hmem := List.mem_cons.mp he'
        · exact hlt
        · exact hlt.trans (hfirst e' hmem)
      · exact hm
      · refine List.pairwise_cons.mpr ⟨fun e' he' => ?_, ih hrest⟩
        obtain hmem | ⟨rfl, -⟩ := (mem_emplace_iff horder hrest).mp he'
        · exact hfirst e' hmem
        · exact lt_of_le_of_ne (not_lt.mp hlt) (Ne.symm heq)

theorem firsts_concat (kvs : List (κ × α)) (kv : κ × α) :
    firsts order (kvs ++ [kv]) = emplace order kv.1 kv.2 (firsts order kvs) := by
  rw [firsts, List.foldl_append]
  rfl

theorem increasing_firsts (horder : Function.Injective order) (kvs : List (κ × α)) :
    Increasing order (firsts order kvs) := by
  induction kvs using List.reverseRecOn with
  | nil => exact List.Pairwise.nil
  | append_singleton kvs kv ih =>
      rw [firsts_concat]
      exact ih.emplace horder

variable [DecidableEq κ]

/-- Each key has its first value. -/
theorem mem_firsts_iff (horder : Function.Injective order) {kvs : List (κ × α)} :
    (k, a) ∈ firsts order kvs ↔ kvs.find? (fun kv => kv.1 = k) = some (k, a) := by
  induction kvs using List.reverseRecOn generalizing k a with
  | nil => exact iff_of_false List.not_mem_nil nofun
  | append_singleton kvs kv ih =>
      have hkeys : (∀ e ∈ firsts order kvs, e.1 ≠ kv.1) ↔
          kvs.find? (fun e => e.1 = kv.1) = none := by
        constructor
        · intro h
          by_contra hsome
          obtain ⟨e, he⟩ := Option.ne_none_iff_exists'.mp hsome
          have hkey : e.1 = kv.1 := by simpa using List.find?_some he
          obtain ⟨k', a'⟩ := e
          obtain rfl : k' = kv.1 := hkey
          exact h _ (ih.mpr he) rfl
        · rintro h ⟨k', a'⟩ he rfl
          rw [ih.mp he] at h
          cases h
      rw [firsts_concat, mem_emplace_iff horder (increasing_firsts horder kvs), ih, hkeys,
        List.find?_append, List.find?_singleton]
      cases hfound : kvs.find? (fun e => e.1 = k) with
      | some e =>
          rw [Option.some_or]
          refine or_iff_left ?_
          rintro ⟨hsame, hnone⟩
          obtain rfl : k = kv.1 := congrArg Prod.fst hsame
          rw [hfound] at hnone
          cases hnone
      | none =>
          rw [Option.none_or]
          by_cases hkey : kv.1 = k
          · subst hkey
            rw [if_pos (by simp)]
            simp only [reduceCtorEq, false_or, Option.some_inj, and_iff_left hfound]
            exact eq_comm
          · rw [if_neg (by simpa using hkey)]
            simp only [reduceCtorEq, false_or, iff_false, not_and]
            rintro hsame -
            exact hkey (congrArg Prod.fst hsame).symm

end Kura.Base
