import Kura.Base.Fresh
import Kura.Engine.Strtod

/-!
# The resources of a page

The resource dictionaries that the flattener extends: one for each category,
with names for objects. A new object gets a name that its dictionary does not
have.

## Implementation notes

A category without a dictionary is one without entries. The first entry of a
name counts. Colour spaces that were added are found again by a key of theirs.
-/

namespace Kura.Engine

/-- The page resources and what the flattener remembers about them. -/
structure PageEnv (O : Type*) where
  res : String → List (String × O)
  counter : Nat
  spaces : List (String × String)

namespace PageEnv

variable {O : Type*}

/-- The names that are made for a prefix. -/
def numbered (pre : String) (k : Nat) : String := "/" ++ pre ++ toString k

/-- The object of a name. -/
def getKey (env : PageEnv O) (c n : String) : Option O := (env.res c).lookup n

/-- Adds an object to the dictionary of a category, and gives its name there. -/
def add (env : PageEnv O) (c pre : String) (obj : O) : String × PageEnv O :=
  let k := Base.freshCounter (numbered pre) ((env.res c).map Prod.fst) ((env.res c).length + 1)
    env.counter
  (numbered pre k,
    { env with
      counter := k
      res := Function.update env.res c ((numbered pre k, obj) :: env.res c) })

/-- The name of a colour space; one that was added before keeps its name. -/
def spaceName (env : PageEnv O) (space : O) (key : String) : String × PageEnv O :=
  match env.spaces.lookup key with
  | some n => (n, env)
  | none =>
      let r := env.add "/ColorSpace" "KuraCS" space
      (r.1, { r.2 with spaces := (key, r.1) :: r.2.spaces })

theorem numbered_injective (pre : String) : Function.Injective (numbered pre) := by
  intro k k' h
  have hdigits : Nat.toDigits 10 k = Nat.toDigits 10 k' := by
    have hlist := congrArg String.toList h
    simpa [numbered, String.toList_append, Nat.repr, toString] using hlist
  rw [← CText.number_toDigits k, hdigits, CText.number_toDigits]

variable (env : PageEnv O) (c pre : String) (obj : O)

theorem add_notMem : (env.add c pre obj).1 ∉ (env.res c).map Prod.fst := by
  have h := Base.freshCounter_notMem (numbered_injective pre) ((env.res c).map Prod.fst) env.counter
  rwa [List.length_map] at h

@[simp] theorem getKey_add_self :
    (env.add c pre obj).2.getKey c (env.add c pre obj).1 = some obj := by
  simp [getKey, add]

/-- An object is added beside the ones that are there. -/
theorem getKey_add_of_ne {c' n : String} (h : c' ≠ c ∨ n ≠ (env.add c pre obj).1) :
    (env.add c pre obj).2.getKey c' n = env.getKey c' n := by
  by_cases hc : c' = c
  · subst hc
    have hn : (n == (env.add c' pre obj).1) = false := by
      rw [beq_eq_false_iff_ne]
      exact h.resolve_left fun h => h rfl
    rw [getKey, add]
    simp only [Function.update_self, List.lookup_cons]
    rw [add] at hn
    simp only [hn]
    rfl
  · simp [getKey, add, Function.update_of_ne hc]

/-- What has a name keeps it. -/
theorem getKey_add_of_some {c' n : String} {o : O} (h : env.getKey c' n = some o) :
    (env.add c pre obj).2.getKey c' n = some o := by
  by_cases hc : c' = c
  · subst hc
    rw [getKey_add_of_ne _ _ _ _ (Or.inr ?_), h]
    rintro rfl
    refine add_notMem env c' pre obj ?_
    obtain ⟨l₁, l₂, hl, -⟩ := List.lookup_eq_some_iff.mp h
    rw [hl]
    simp
  · rw [getKey_add_of_ne _ _ _ _ (Or.inl hc), h]

end PageEnv

end Kura.Engine
