import Mathlib

/-!
# Bytes and numbers of the engine

Texts of a content stream are byte strings. Numbers are read from them and
written to them by the functions of the C library, in the C locale.

## Implementation notes

A double is kept by its value. `strtod` reads the decimal form without an
exponent, the only one a number token has, and rounds to the nearest double,
ties to even. Both readers take the value zero if there is no digit.
-/

namespace Kura.Engine

/-- Byte strings. -/
abbrev Bytes := List UInt8

scoped instance : LawfulBEq Bytes := List.instLawfulBEq

/-- The bytes of a literal of the source; all of them are ASCII. -/
def lit (s : String) : Bytes := s.toList.map fun c => UInt8.ofNat c.toNat

/-- Double precision numbers by their value. -/
inductive Double where
  | nan
  | negInf
  | fin (q : Rat)
  | posInf
  deriving DecidableEq

namespace Double

/-- Less than; false whenever one side is no number. -/
def lt : Double → Double → Bool
  | .negInf, .fin _ | .negInf, .posInf | .fin _, .posInf => true
  | .fin p, .fin q => p < q
  | _, _ => false

/-- At most; false whenever one side is no number. -/
def le : Double → Double → Bool
  | .nan, _ | _, .nan => false
  | x, y => !lt y x

/-- The number with the other sign. -/
def neg : Double → Double
  | .nan => .nan
  | .negInf => .posInf
  | .fin q => .fin (-q)
  | .posInf => .negInf

end Double

/-- The nearest integer, the even one of two. -/
def roundHalfEven (q : Rat) : Int :=
  let below := q.floor
  let rest := q - below
  if rest < 1 / 2 then below
  else if 1 / 2 < rest then below + 1
  else if below % 2 = 0 then below
  else below + 1

/-- A rational times a power of two. -/
def scaleBy (q : Rat) : Int → Rat
  | .ofNat e => q * (2 ^ e : Nat)
  | .negSucc e => q / (2 ^ (e + 1) : Nat)

/-- The double nearest to a number that is not negative. -/
def nearestDouble (q : Rat) : Double :=
  if q = 0 then .fin 0
  else
    let log : Int := q.num.natAbs.log2 - q.den.log2
    let top := if scaleBy 1 log ≤ q then log else log - 1
    let unit := max (top - 52) (-1074)
    let v := scaleBy (roundHalfEven (scaleBy q (-unit))) unit
    if scaleBy 1 1024 ≤ v then .posInf else .fin v

/-- The digits 0 to 9. -/
def isDigit (c : UInt8) : Bool := 0x30 ≤ c && c ≤ 0x39

/-- White space of the C library. -/
def isSpace (c : UInt8) : Bool := c == 0x20 || (0x09 ≤ c && c ≤ 0x0D)

/-- Digits of hexadecimal numbers. -/
def isXDigit (c : UInt8) : Bool :=
  isDigit c || (0x41 ≤ c && c ≤ 0x46) || (0x61 ≤ c && c ≤ 0x66)

/-- The value of a string of digits. -/
def digitsValue (ds : Bytes) : Nat := ds.foldl (fun n d => 10 * n + (d.toNat - 0x30)) 0

/-- White space and a sign at the start of a number. -/
def signOf (s : Bytes) : Bool × Bytes :=
  match s.dropWhile isSpace with
  | 0x2D :: rest => (true, rest)
  | 0x2B :: rest => (false, rest)
  | rest => (false, rest)

/-- `std::strtoll` at base ten; what does not fit is the nearest number that does. -/
def strtoll (s : Bytes) : Int :=
  let (minus, rest) := signOf s
  let n : Int := digitsValue (rest.takeWhile isDigit)
  if minus then max (-n) (-2 ^ 63) else min n (2 ^ 63 - 1)

/-- `std::strtod` of a decimal number. -/
def strtod (s : Bytes) : Double :=
  let (minus, rest) := signOf s
  let whole := rest.takeWhile isDigit
  let frac :=
    match rest.dropWhile isDigit with
    | 0x2E :: tail => tail.takeWhile isDigit
    | _ => []
  let v := nearestDouble ((digitsValue (whole ++ frac) : Nat) / (10 ^ frac.length : Nat))
  if minus then v.neg else v

/-- The digits of a number. -/
def decimal (n : Nat) : Bytes := (Nat.toDigits 10 n).map fun c => UInt8.ofNat c.toNat

/-- `std::to_string`. -/
def toString10 (n : Int) : Bytes := (if n < 0 then [0x2D] else []) ++ decimal n.natAbs

/-- A finite number with one digit after the point. -/
def realText : Double → Bytes
  | .fin q =>
      let tenths := (roundHalfEven (|q| * 10)).toNat
      (if q < 0 then [0x2D] else []) ++ decimal (tenths / 10) ++ [0x2E] ++ decimal (tenths % 10)
  | _ => []

theorem isDigit_ofNat {c : Char} (h : c.isDigit = true) :
    (UInt8.ofNat c.toNat).toNat = c.toNat ∧ isDigit (UInt8.ofNat c.toNat) = true := by
  rw [Char.isDigit, Bool.and_eq_true, decide_eq_true_eq, decide_eq_true_eq] at h
  have hlow : 48 ≤ c.toNat := h.1
  have hhigh : c.toNat ≤ 57 := h.2
  have hbyte : (UInt8.ofNat c.toNat).toNat = c.toNat :=
    UInt8.toNat_ofNat_of_lt' (show c.toNat < 256 by omega)
  refine ⟨hbyte, ?_⟩
  rw [isDigit, Bool.and_eq_true, decide_eq_true_eq, decide_eq_true_eq, UInt8.le_iff_toNat_le,
    UInt8.le_iff_toNat_le, hbyte]
  exact ⟨hlow, hhigh⟩

theorem isDigit_of_mem_decimal {n : Nat} {d : UInt8} (h : d ∈ decimal n) : isDigit d = true := by
  obtain ⟨c, hc, rfl⟩ := List.mem_map.mp h
  exact (isDigit_ofNat (Nat.isDigit_of_mem_toDigits (by decide) (by decide) hc)).2

theorem not_isSpace_of_isDigit {c : UInt8} (h : isDigit c = true) : isSpace c = false := by
  rw [isDigit, Bool.and_eq_true, decide_eq_true_eq, decide_eq_true_eq, UInt8.le_iff_toNat_le,
    UInt8.le_iff_toNat_le] at h
  have hlow : 48 ≤ c.toNat := h.1
  rw [isSpace, Bool.or_eq_false_iff, Bool.and_eq_false_iff]
  refine ⟨?_, Or.inr ?_⟩
  · rw [beq_eq_false_iff_ne]
    rintro rfl
    exact absurd hlow (by decide)
  · rw [decide_eq_false_iff_not, UInt8.le_iff_toNat_le]
    have hcr : (0x0D : UInt8).toNat = 13 := rfl
    omega

theorem decimal_ne_nil (n : Nat) : decimal n ≠ [] := by
  rw [decimal, Ne, List.map_eq_nil_iff]
  exact Nat.toDigits_ne_nil

theorem digitsValue_digits {cs : List Char} (h : ∀ c ∈ cs, c.isDigit = true) (n : Nat) :
    (cs.map fun c => UInt8.ofNat c.toNat).foldl (fun n d => 10 * n + (d.toNat - 0x30)) n =
      Nat.ofDigitChars 10 cs n := by
  induction cs generalizing n with
  | nil => simp
  | cons c cs ih =>
      have hbyte := (isDigit_ofNat (h c (by simp))).1
      rw [List.map_cons, List.foldl_cons, Nat.ofDigitChars_cons,
        ih (fun c' hc' => h c' (by simp [hc'])), hbyte]
      rfl

theorem digitsValue_decimal (n : Nat) : digitsValue (decimal n) = n := by
  rw [digitsValue, decimal, digitsValue_digits]
  · exact Nat.ofDigitChars_ten_toDigits
  · intro c hc
    exact Nat.isDigit_of_mem_toDigits (by decide) (by decide) hc

end Kura.Engine
