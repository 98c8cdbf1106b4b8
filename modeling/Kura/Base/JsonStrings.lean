import Mathlib

/-!
# The characters of a JSON string

What a reader of JSON makes of the text between the quotes of a string.

Escapes with four digits are code units of UTF-16, so that two of them may be
one character. The text is first read as numbers, one for each character or
escape, and two numbers that are halves of a character are put together after
that. Half a character alone is no text.
-/

namespace Kura.Base.JsonStrings

/-- The value of a digit of an escape. -/
def hexDigit (c : Char) : Option Nat :=
  if '0' ≤ c ∧ c ≤ '9' then some (c.toNat - '0'.toNat)
  else if 'a' ≤ c ∧ c ≤ 'f' then some (c.toNat - 'a'.toNat + 10)
  else if 'A' ≤ c ∧ c ≤ 'F' then some (c.toNat - 'A'.toNat + 10)
  else none

def hex4 (a b c d : Char) : Option Nat := do
  return (((← hexDigit a) * 16 + (← hexDigit b)) * 16 + (← hexDigit c)) * 16 + (← hexDigit d)

/-- What a short escape stands for. -/
def shortEscape (e : Char) : Option Nat :=
  if e = '"' ∨ e = '\\' ∨ e = '/' then some e.toNat
  else if e = 'b' then some 8
  else if e = 'f' then some 12
  else if e = 'n' then some 10
  else if e = 'r' then some 13
  else if e = 't' then some 9
  else none

/-- What stands behind a backslash. -/
def nextEscape : List Char → Option (Nat × List Char)
  | 'u' :: a :: b :: c :: d :: rest => (hex4 a b c d).map fun n => (n, rest)
  | e :: rest => (shortEscape e).map fun n => (n, rest)
  | [] => none

/-- The first number of a text and what is left of the text. -/
def next : List Char → Option (Nat × List Char)
  | [] => none
  | c :: rest =>
      if c = '\\' then nextEscape rest
      else if c.toNat < 0x20 ∨ c = '"' then none
      else some (c.toNat, rest)

/-- The numbers of a text, each of which takes a character at least. -/
def numbers : Nat → List Char → Option (List Nat)
  | _, [] => some []
  | 0, _ :: _ => none
  | fuel + 1, c :: rest =>
      (next (c :: rest)).bind fun first => (numbers fuel first.2).map fun ns => first.1 :: ns

/-- The characters of numbers, halves put together. -/
def characters : List Nat → Option (List Char)
  | [] => some []
  | n :: ns =>
      if n.isValidChar then (characters ns).map fun cs => Char.ofNat n :: cs
      else
        match ns with
        | [] => none
        | low :: ns =>
            if 0xD800 ≤ n ∧ n < 0xDC00 ∧ 0xDC00 ≤ low ∧ low < 0xE000 then
              (characters ns).map fun cs =>
                Char.ofNat (0x10000 + (n - 0xD800) * 1024 + (low - 0xDC00)) :: cs
            else none

/-- The characters of a string with its quotes. -/
def decode : List Char → Option (List Char)
  | '"' :: rest =>
      if rest.getLast? = some '"' then (numbers rest.length rest.dropLast).bind characters else none
  | _ => none

/-- A piece of a text is read as a number in front of whatever follows. -/
def Reads (piece : List Char) (n : Nat) : Prop :=
  piece ≠ [] ∧ ∀ rest, next (piece ++ rest) = some (n, rest)

/-- A character that needs no escape. -/
theorem reads_char {c : Char} (hslash : c ≠ '\\') (hquote : c ≠ '"') (hlow : 0x20 ≤ c.toNat) :
    Reads [c] c.toNat := by
  refine ⟨List.cons_ne_nil _ _, fun rest => ?_⟩
  have hplain : ¬ (c.toNat < 0x20 ∨ c = '"') := not_or.mpr ⟨not_lt.mpr hlow, hquote⟩
  rw [List.singleton_append, next, if_neg hslash, if_neg hplain]

/-- An escape of one letter. -/
theorem reads_short {e : Char} {n : Nat} (hu : e ≠ 'u') (h : shortEscape e = some n) :
    Reads ['\\', e] n := by
  refine ⟨List.cons_ne_nil _ _, fun rest => ?_⟩
  show nextEscape (e :: rest) = _
  rw [nextEscape.eq_def]
  split
  · rename_i hcons
    cases hcons
    exact absurd rfl hu
  · rename_i hcons
    cases hcons
    rw [h]
    rfl
  · rename_i hcons
    cases hcons

/-- An escape of four digits. -/
theorem reads_unicode {a b c d : Char} {n : Nat} (h : hex4 a b c d = some n) :
    Reads ['\\', 'u', a, b, c, d] n := by
  refine ⟨List.cons_ne_nil _ _, fun rest => ?_⟩
  show (hex4 a b c d).map _ = _
  rw [h]
  rfl

/-- The numbers of a text made of pieces are the numbers of its pieces. -/
theorem numbers_flatMap {α : Type*} {piece : α → List Char} {value : α → Nat}
    (h : ∀ a, Reads (piece a) (value a)) (as : List α) :
    ∀ fuel, (as.flatMap piece).length ≤ fuel →
      numbers fuel (as.flatMap piece) = some (as.map value) := by
  induction as with
  | nil =>
      intro fuel _
      cases fuel <;> rfl
  | cons a as ih =>
      intro fuel hfuel
      obtain ⟨hne, hnext⟩ := h a
      obtain ⟨c, cs, hc⟩ := List.exists_cons_of_ne_nil hne
      have hread := hnext (as.flatMap piece)
      rw [List.flatMap_cons] at hfuel ⊢
      rw [List.length_append] at hfuel
      rw [hc, List.cons_append] at hread ⊢
      rw [hc, List.length_cons] at hfuel
      cases fuel with
      | zero => omega
      | succ fuel =>
          rw [numbers, hread, Option.bind_some, ih fuel (by omega)]
          rfl

theorem characters_valid {ns : List Nat} (h : ∀ n ∈ ns, n.isValidChar) :
    characters ns = some (ns.map Char.ofNat) := by
  induction ns with
  | nil => rfl
  | cons n ns ih =>
      rw [characters.eq_def]
      dsimp only
      rw [if_pos (h n List.mem_cons_self), ih fun m hm => h m (List.mem_cons_of_mem _ hm)]
      rfl

/-- A string of pieces that are read as characters. -/
theorem decode_flatMap {α : Type*} {piece : α → List Char} {value : α → Nat}
    (h : ∀ a, Reads (piece a) (value a)) {as : List α} (hvalid : ∀ a ∈ as, (value a).isValidChar) :
    decode ('"' :: as.flatMap piece ++ ['"']) = some (as.map fun a => Char.ofNat (value a)) := by
  have hlast : (as.flatMap piece ++ ['"']).getLast? = some '"' := List.getLast?_concat
  have hvalid' : ∀ n ∈ as.map value, n.isValidChar := by
    intro n hn
    obtain ⟨a, ha, rfl⟩ := List.mem_map.mp hn
    exact hvalid a ha
  rw [List.cons_append, decode, if_pos hlast, List.dropLast_concat,
    numbers_flatMap h as _ (by simp), Option.bind_some, characters_valid hvalid', List.map_map]
  rfl

end Kura.Base.JsonStrings
