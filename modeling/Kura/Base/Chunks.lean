import Mathlib

/-!
# Reading from chunks

A stream arrives in chunks of any size, empty ones included. A reader asks
for a number of items and gets as many, or what is left at the end. What it
gets depends only on the concatenation of the chunks.
-/

namespace Kura.Base

section Chunks

variable {α : Type*}

/-- Read up to `n` items; the second part is what remains unread. -/
def readUpTo : Nat → List (List α) → List α × List (List α)
  | _, [] => ([], [])
  | n, c :: cs =>
      if c.length ≤ n then
        let out := readUpTo (n - c.length) cs
        (c ++ out.1, out.2)
      else (c.take n, c.drop n :: cs)

/-- Read `n` items; undefined where the stream ends before. -/
def readExact (n : Nat) (cs : List (List α)) : Option (List α × List (List α)) :=
  let out := readUpTo n cs
  if out.1.length = n then some out else none

theorem readUpTo_fst (n : Nat) (cs : List (List α)) : (readUpTo n cs).1 = cs.flatten.take n := by
  induction cs generalizing n with
  | nil => simp [readUpTo]
  | cons c cs ih =>
      simp only [readUpTo, List.flatten_cons]
      split_ifs with h
      · rw [ih, List.take_append, List.take_of_length_le h]
      · rw [List.take_append_of_le_length (by omega)]

theorem readUpTo_snd (n : Nat) (cs : List (List α)) :
    (readUpTo n cs).2.flatten = cs.flatten.drop n := by
  induction cs generalizing n with
  | nil => simp [readUpTo]
  | cons c cs ih =>
      simp only [readUpTo, List.flatten_cons]
      split_ifs with h
      · rw [ih, List.drop_append, List.drop_of_length_le h, List.nil_append]
      · rw [List.flatten_cons, List.drop_append_of_le_length (by omega)]

/-- Reading as many items as the first part of the stream has. -/
theorem readUpTo_append {cs : List (List α)} {a b : List α} (h : cs.flatten = a ++ b) :
    ∃ rest, readUpTo a.length cs = (a, rest) ∧ rest.flatten = b := by
  refine ⟨(readUpTo a.length cs).2, ?_, ?_⟩
  · apply Prod.ext
    · rw [readUpTo_fst, h, List.take_left]
    · rfl
  · rw [readUpTo_snd, h, List.drop_left]

theorem readExact_append {cs : List (List α)} {a b : List α} (h : cs.flatten = a ++ b) :
    ∃ rest, readExact a.length cs = some (a, rest) ∧ rest.flatten = b := by
  obtain ⟨rest, hread, hrest⟩ := readUpTo_append h
  refine ⟨rest, ?_, hrest⟩
  simp [readExact, hread]

end Chunks

/-- The four bytes of a 32-bit number, the highest first. -/
def toBeBytes (n : Nat) : List UInt8 :=
  [UInt8.ofNat (n / 2 ^ 24), UInt8.ofNat (n / 2 ^ 16), UInt8.ofNat (n / 2 ^ 8), UInt8.ofNat n]

/-- The number that bytes with the highest first stand for. -/
def fromBeBytes (bs : List UInt8) : Nat := bs.foldl (fun n b => 256 * n + b.toNat) 0

theorem length_toBeBytes (n : Nat) : (toBeBytes n).length = 4 := rfl

theorem fromBeBytes_toBeBytes {n : Nat} (h : n < 2 ^ 32) : fromBeBytes (toBeBytes n) = n := by
  simp only [fromBeBytes, toBeBytes, List.foldl_cons, List.foldl_nil, UInt8.toNat_ofNat']
  omega

end Kura.Base
