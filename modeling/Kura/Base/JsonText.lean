import Kura.Base.PrefixCode

/-!
# Sizes and readers of JSON text

How many bytes a value takes is a sum over its parts. Values of other types
are read from members and items. A reader is anything that reads the text of
a value back and reports the end of input for a text that was cut short.
-/

namespace Kura.Base

namespace Json

/-- How many bytes a character takes inside a quoted string. -/
def escapeSize (c : Char) : Nat :=
  if c = '"' ∨ c = '\\' ∨ c.toNat = 8 ∨ c.toNat = 12 ∨ c = '\n' ∨ c = '\r' ∨ c = '\t' then 2
  else if c.toNat < 32 then 6
  else c.utf8Size

/-- How many bytes a quoted string takes. -/
def quoteSize (s : String) : Nat := 2 + (s.toList.map escapeSize).sum

mutual

/-- How many bytes the text of a value takes. -/
def size : Json → Nat
  | .null => 4
  | .bool true => 4
  | .bool false => 5
  | .num n => (intText n).length
  | .str s => quoteSize s
  | .arr [] => 2
  | .arr (x :: xs) => 1 + size x + itemsSize xs
  | .obj [] => 2
  | .obj ((k, v) :: ms) => 2 + quoteSize k + size v + membersSize ms

/-- The items after the first, with the closing bracket. -/
def itemsSize : List Json → Nat
  | [] => 1
  | x :: xs => 1 + size x + itemsSize xs

/-- The members after the first, with the closing brace. -/
def membersSize : List (String × Json) → Nat
  | [] => 1
  | (k, v) :: ms => 2 + quoteSize k + size v + membersSize ms

end

theorem length_utf8_append (cs ds : List Char) :
    (utf8 (cs ++ ds)).length = (utf8 cs).length + (utf8 ds).length := by
  rw [utf8_append, List.length_append]

theorem length_utf8_cons (c : Char) (cs : List Char) :
    (utf8 (c :: cs)).length = c.utf8Size + (utf8 cs).length := by
  rw [utf8_cons, List.length_append, String.length_utf8EncodeChar]

/-- An escaped character is as many bytes long as `escapeSize` says. -/
theorem length_utf8_escape (c : Char) : (utf8 (escape c)).length = escapeSize c := by
  have hhex : ∀ n < 32, (utf8 (['\\', 'u', '0', '0'] ++ hexPair n)).length = 6 := by decide
  unfold escape escapeSize
  by_cases hshort :
      c = '"' ∨ c = '\\' ∨ c.toNat = 8 ∨ c.toNat = 12 ∨ c = '\n' ∨ c = '\r' ∨ c = '\t'
  · rw [if_pos hshort]
    split_ifs with h₁ h₂ h₃ h₄ h₅ h₆ h₇ h₈
    iterate 7 decide
    · simp_all
    · simp_all
  · rw [if_neg hshort]
    simp only [not_or] at hshort
    obtain ⟨h₁, h₂, h₃, h₄, h₅, h₆, h₇⟩ := hshort
    rw [if_neg h₁, if_neg h₂, if_neg h₃, if_neg h₄, if_neg h₅, if_neg h₆, if_neg h₇]
    split_ifs with hctl
    · exact hhex _ hctl
    · exact length_utf8_cons c []

theorem length_utf8_quote (s : String) : (utf8 (quote s)).length = quoteSize s := by
  have hbody : ∀ cs : List Char,
      (utf8 (cs.flatMap escape)).length = (cs.map escapeSize).sum := by
    intro cs
    induction cs with
    | nil => rfl
    | cons c cs ih =>
        rw [List.flatMap_cons, length_utf8_append, length_utf8_escape, ih, List.map_cons,
          List.sum_cons]
  have hmark : ('"' : Char).utf8Size = 1 := by decide
  have hend : (utf8 ['"']).length = 1 := by decide
  rw [quote, List.cons_append, length_utf8_cons, length_utf8_append, hbody, hmark, hend, quoteSize]
  omega

/-- Decimal integers are ASCII. -/
theorem length_utf8_intText (n : Int) : (utf8 (intText n)).length = (intText n).length := by
  have hascii : ∀ cs : List Char, (∀ c ∈ cs, c.utf8Size = 1) → (utf8 cs).length = cs.length := by
    intro cs h
    induction cs with
    | nil => rfl
    | cons c cs ih =>
        rw [length_utf8_cons, h c List.mem_cons_self,
          ih fun d hd => h d (List.mem_cons_of_mem c hd), List.length_cons]
        omega
  have hdigit : ∀ c : Char, c.isDigit = true → c.utf8Size = 1 := by
    intro c hc
    rw [Char.utf8Size_eq_one_iff]
    simp only [Char.isDigit, Bool.and_eq_true, decide_eq_true_eq] at hc
    exact UInt32.le_trans hc.2 (by decide)
  apply hascii
  intro c hc
  unfold intText at hc
  split_ifs at hc
  · rcases List.mem_cons.mp hc with rfl | hc
    · decide
    · exact hdigit c (toDigits_isDigit _ c hc)
  · exact hdigit c (toDigits_isDigit _ c hc)

mutual

/-- The size of a value is the length of its text. -/
theorem length_utf8_text : ∀ j : Json, (utf8 (text j)).length = size j
  | .null => by decide
  | .bool true => by decide
  | .bool false => by decide
  | .num n => by rw [text, size, length_utf8_intText]
  | .str s => by rw [text, size, length_utf8_quote]
  | .arr [] => by simp only [text, size]; decide
  | .arr (x :: xs) => by
      have hmark : ('[' : Char).utf8Size = 1 := by decide
      rw [text, size, List.cons_append, length_utf8_cons, length_utf8_append, length_utf8_text x,
        length_utf8_itemsText xs, hmark]
      omega
  | .obj [] => by simp only [text, size]; decide
  | .obj ((k, v) :: ms) => by
      have hmark : ('{' : Char).utf8Size = 1 := by decide
      have hcolon : (':' : Char).utf8Size = 1 := by decide
      rw [text, size]
      simp only [List.cons_append, List.append_assoc, length_utf8_cons, length_utf8_append,
        length_utf8_quote, length_utf8_text v, length_utf8_membersText ms, hmark, hcolon]
      omega

theorem length_utf8_itemsText : ∀ xs : List Json, (utf8 (itemsText xs)).length = itemsSize xs
  | [] => by simp only [itemsText, itemsSize]; decide
  | x :: xs => by
      have hmark : (',' : Char).utf8Size = 1 := by decide
      rw [itemsText, itemsSize, List.cons_append, length_utf8_cons, length_utf8_append,
        length_utf8_text x, length_utf8_itemsText xs, hmark]
      omega

theorem length_utf8_membersText :
    ∀ ms : List (String × Json), (utf8 (membersText ms)).length = membersSize ms
  | [] => by simp only [membersText, membersSize]; decide
  | (k, v) :: ms => by
      have hmark : (',' : Char).utf8Size = 1 := by decide
      have hcolon : (':' : Char).utf8Size = 1 := by decide
      rw [membersText, membersSize]
      simp only [List.cons_append, List.append_assoc, length_utf8_cons, length_utf8_append,
        length_utf8_quote, length_utf8_text v, length_utf8_membersText ms, hmark, hcolon]
      omega

end

/-- The member of an object that appears once. -/
def field? (members : List (String × Json)) (key : String) : Option Json :=
  match members.filter fun m => m.1 == key with
  | [m] => some m.2
  | _ => none

/-- A text. -/
def string? : Json → Option String
  | .str s => some s
  | _ => none

/-- A truth value. -/
def bool? : Json → Option Bool
  | .bool b => some b
  | _ => none

/-- A number between two bounds, the upper one excluded. -/
def int? (lo hi : Int) : Json → Option Int
  | .num n => if lo ≤ n ∧ n < hi then some n else none
  | _ => none

/-- A number without a sign, below a bound. -/
def nat? (hi : Nat) (j : Json) : Option Nat := (int? 0 hi j).map Int.toNat

/-- The items of an array, each read. -/
def list? {α : Type} (f : Json → Option α) : Json → Option (List α)
  | .arr items => items.mapM f
  | _ => none

theorem int?_num {lo hi n : Int} (h : lo ≤ n ∧ n < hi) : int? lo hi (.num n) = some n :=
  if_pos h

theorem nat?_num {hi n : Nat} (h : n < hi) : nat? hi (.num n) = some n := by
  rw [nat?, int?_num ⟨Int.natCast_nonneg n, Int.ofNat_lt.mpr h⟩, Option.map_some, Int.toNat_natCast]

/-- A member that is a number without a sign, below a bound. -/
def natField? (members : List (String × Json)) (key : String) (hi : Nat) : Option Nat :=
  (field? members key).bind (nat? hi)

theorem natField?_eq {members : List (String × Json)} {key : String} {hi n : Nat} (h : n < hi)
    (hfield : field? members key = some (.num n)) : natField? members key hi = some n := by
  rw [natField?, hfield, Option.bind_some, nat?_num h]

theorem list?_map {α : Type} {f : α → Json} {g : Json → Option α} (h : ∀ a, g (f a) = some a)
    (as : List α) : list? g (.arr (as.map f)) = some as := by
  rw [list?]
  induction as with
  | nil => rfl
  | cons a as ih => simp [h, ih]

/-- Values whose numbers fit in 64 bits and that are nested at most so deep. -/
def Within : Nat → Json → Prop
  | _, .null | _, .bool _ | _, .str _ => True
  | _, .num n => -2 ^ 63 ≤ n ∧ n < 2 ^ 64
  | 0, .arr _ | 0, .obj _ => False
  | d + 1, .arr xs => ∀ x ∈ xs, Within d x
  | d + 1, .obj ms => ∀ m ∈ ms, Within d m.2

theorem within_succ {d : Nat} {j : Json} (h : j.Within d) : j.Within (d + 1) := by
  induction d generalizing j with
  | zero =>
      cases j with
      | arr xs => exact h.elim
      | obj ms => exact h.elim
      | _ => exact h
  | succ d ih =>
      cases j with
      | arr xs => exact fun x hx => ih (h x hx)
      | obj ms => exact fun m hm => ih (h m hm)
      | _ => exact h

theorem within_mono {d e : Nat} (hde : d ≤ e) {j : Json} (h : j.Within d) : j.Within e := by
  induction hde with
  | refl => exact h
  | step _ ih => exact within_succ ih

end Json

/-- A reader of JSON text with the nesting it allows. -/
structure JsonReader where
  read : List UInt8 → Option Json
  reads_text : ∀ j : Json, j.Within 127 → read (utf8 j.text) = some j
  refuses_cut : ∀ (j : Json) (b : List UInt8), j.Bracketed → b <+: utf8 j.text →
    b ≠ utf8 j.text → read b = none

/-- The reader that takes the texts of values and nothing else. -/
noncomputable def JsonReader.exact : JsonReader where
  read b := open Classical in if h : ∃ j : Json, b = utf8 j.text then some h.choose else none
  reads_text := by
    intro j _
    have h : ∃ i : Json, utf8 j.text = utf8 i.text := ⟨j, rfl⟩
    rw [dif_pos h]
    have htext : j.text ++ [] = h.choose.text ++ [] := by
      rw [List.append_nil, List.append_nil]
      exact utf8_injective h.choose_spec
    exact congrArg some (Json.text_append_inj _ _ (by simp [Json.NoDigit]) (by simp [Json.NoDigit])
      htext).1.symm
  refuses_cut := by
    rintro j b hj ⟨z, hz⟩ hne
    refine dif_neg ?_
    rintro ⟨i, rfl⟩
    obtain ⟨es, hes⟩ := prefix_of_utf8_append hz
    have happ : j.text ++ [] = i.text ++ es := by rw [List.append_nil, hes]
    obtain ⟨rfl, -⟩ := Json.bracketed_append_inj hj happ
    exact hne rfl

end Kura.Base
