import Kura.Engine.Rounding

/-!
# Numbers in texts

`strtod` and `%.15g` of the C library, in the C locale: reading the number at
the start of a text, and writing a number with fifteen significant digits.

## Implementation notes

A text is a list of characters below 256, one for each byte; a C string ends
at its first null character. Reading gives the number and what stands behind
it; if there is no number at the start, it is zero and the whole text is left.
-/

namespace Kura.Engine.CText

/-- The text up to its first null character. -/
def cstr (s : List Char) : List Char := s.takeWhile (· != '\x00')

/-- White space of the C library. -/
def isBlank (c : Char) : Bool := c == ' ' || ('\t' ≤ c && c ≤ '\r')

/-- Digits of hexadecimal numbers. -/
def isHexDigit (c : Char) : Bool :=
  c.isDigit || ('a' ≤ c && c ≤ 'f') || ('A' ≤ c && c ≤ 'F')

def digitValue (c : Char) : Nat :=
  if c.isDigit then c.toNat - '0'.toNat
  else if 'a' ≤ c then c.toNat - 'a'.toNat + 10
  else c.toNat - 'A'.toNat + 10

/-- The value of digits. -/
def number (base : Nat) (ds : List Char) : Nat := ds.foldl (fun n d => base * n + digitValue d) 0

theorem number_toDigits (n : Nat) : number 10 (Nat.toDigits 10 n) = n := by
  have hall : ∀ c ∈ Nat.toDigits 10 n, c.isDigit = true := fun c hc =>
    Nat.isDigit_of_mem_toDigits (by decide) (by decide) hc
  have hfold : ∀ (cs : List Char) (k : Nat), (∀ c ∈ cs, c.isDigit = true) →
      cs.foldl (fun n d => 10 * n + digitValue d) k = Nat.ofDigitChars 10 cs k := by
    intro cs
    induction cs with
    | nil => simp
    | cons c cs ih =>
        intro k hcs
        rw [List.foldl_cons, Nat.ofDigitChars_cons, ih _ fun d hd =>
          hcs d (List.mem_cons_of_mem _ hd),
          digitValue, if_pos (hcs c List.mem_cons_self)]
  rw [number, hfold _ 0 hall]
  exact Nat.ofDigitChars_ten_toDigits

/-- A sign at the start. -/
def signOf : List Char → Bool × List Char
  | '-' :: rest => (true, rest)
  | '+' :: rest => (false, rest)
  | rest => (false, rest)

/-- The digits before and behind the point, and the rest. -/
def mantissa (isDigit : Char → Bool) (s : List Char) : List Char × List Char × List Char :=
  match s.dropWhile isDigit with
  | '.' :: tail => (s.takeWhile isDigit, tail.takeWhile isDigit, tail.dropWhile isDigit)
  | rest => (s.takeWhile isDigit, [], rest)

/-- An exponent behind its mark; without digits there is none. -/
def exponentOf (low high : Char) (s : List Char) : Int × List Char :=
  match s with
  | [] => (0, [])
  | c :: rest =>
      let (minus, ds) := signOf rest
      if (c = low ∨ c = high) ∧ ds.takeWhile Char.isDigit ≠ [] then
        let e : Int := number 10 (ds.takeWhile Char.isDigit)
        (if minus then -e else e, ds.dropWhile Char.isDigit)
      else (0, s)

/-- A number times a power. -/
def scaled (base n : Nat) : Int → ℚ
  | .ofNat e => (n * base ^ e : Nat)
  | .negSucc e => (n : ℚ) / (base ^ (e + 1) : Nat)

/-- Infinity, or no number. -/
def wordFloat (s : List Char) : Option (Double × List Char) :=
  let low := s.map Char.toLower
  if "infinity".toList.isPrefixOf low then some (.posInf, s.drop 8)
  else if "inf".toList.isPrefixOf low then some (.posInf, s.drop 3)
  else if "nan".toList.isPrefixOf low then
    match s.drop 3 with
    | '(' :: tail =>
        match tail.dropWhile fun c => c.isAlphanum || c == '_' with
        | ')' :: rest => some (.nan, rest)
        | _ => some (.nan, s.drop 3)
    | rest => some (.nan, rest)
  else none

/-- A hexadecimal number. -/
def hexFloat (s : List Char) : Option (Double × List Char) :=
  match s with
  | '0' :: x :: tail =>
      let (whole, frac, rest) := mantissa isHexDigit tail
      if (x = 'x' ∨ x = 'X') ∧ whole ++ frac ≠ [] then
        let (e, rest) := exponentOf 'p' 'P' rest
        some (nearestDouble (scaled 2 (number 16 (whole ++ frac)) (e - 4 * frac.length)), rest)
      else none
  | _ => none

/-- A decimal number. -/
def decimalFloat (s : List Char) : Option (Double × List Char) :=
  let (whole, frac, rest) := mantissa Char.isDigit s
  if whole ++ frac = [] then none
  else
    let (e, rest) := exponentOf 'e' 'E' rest
    some (nearestDouble (scaled 10 (number 10 (whole ++ frac)) (e - frac.length)), rest)

/-- `std::strtod`: the number at the start and what is left. -/
def strtod (s : List Char) : Double × List Char :=
  let (minus, rest) := signOf (s.dropWhile isBlank)
  match (wordFloat rest).or ((hexFloat rest).or (decimalFloat rest)) with
  | some (v, left) => (if minus then v.neg else v, left)
  | none => (.fin 0, s)

/-- `std::atof`. -/
def atof (s : List Char) : Double := (strtod (cstr s)).1

/-- The exponent of the first digit of a positive number. -/
def magnitude (q : ℚ) : Int :=
  if 1 ≤ q then (Nat.toDigits 10 q.floor.toNat).length - 1
  else
    let m := (1 / q).ceil.toNat
    if m ≤ 1 then 0 else -(Nat.toDigits 10 (m - 1)).length

/-- Fifteen digits and the exponent of the first one. -/
def significant (q : ℚ) : Nat × Int :=
  let e := magnitude q
  let m := (roundHalfEven (q * scaled 10 1 (14 - e))).toNat
  if m = 10 ^ 15 then (10 ^ 14, e + 1) else (m, e)

/-- Digits behind the point without the zeros at their end. -/
def fraction (ds : List Char) : List Char :=
  match (ds.reverse.dropWhile (· == '0')).reverse with
  | [] => []
  | kept => '.' :: kept

/-- A number with two digits or more. -/
def twoDigits (n : Nat) : List Char :=
  if n < 10 then '0' :: Nat.toDigits 10 n else Nat.toDigits 10 n

/-- A positive number, `%.15g`. -/
def positiveText (q : ℚ) : List Char :=
  let (m, e) := significant q
  let ds := Nat.toDigits 10 m
  if 0 ≤ e ∧ e < 15 then ds.take (e.toNat + 1) ++ fraction (ds.drop (e.toNat + 1))
  else if -4 ≤ e ∧ e < 0 then '0' :: fraction (List.replicate (-e - 1).toNat '0' ++ ds)
  else
    ds.take 1 ++ fraction (ds.drop 1) ++ ['e', if e < 0 then '-' else '+'] ++ twoDigits e.natAbs

/-- A number, `%.15g`. -/
def gText : Double → List Char
  | .nan => "nan".toList
  | .negInf => "-inf".toList
  | .posInf => "inf".toList
  | .fin q =>
      if q = 0 then ['0'] else if q < 0 then '-' :: positiveText (-q) else positiveText q

example : gText (.fin (3 / 10)) = "0.3".toList := by decide +kernel

example : gText (.fin (2 ^ 53)) = "9.00719925474099e+15".toList := by decide +kernel

theorem scaled_nonneg (base n : Nat) (e : Int) : 0 ≤ scaled base n e := by
  cases e with
  | ofNat e => exact Nat.cast_nonneg _
  | negSucc e => exact div_nonneg (Nat.cast_nonneg _) (Nat.cast_nonneg _)

theorem isDouble_wordFloat {s rest : List Char} {v : Double} (h : wordFloat s = some (v, rest)) :
    v.IsDouble := by
  unfold wordFloat at h
  dsimp only at h
  repeat' split at h
  all_goals first | cases h; trivial | cases h

theorem isDouble_hexFloat {s rest : List Char} {v : Double} (h : hexFloat s = some (v, rest)) :
    v.IsDouble := by
  unfold hexFloat at h
  dsimp only at h
  split at h
  · split at h
    · cases h
      exact isDouble_nearestDouble (scaled_nonneg _ _ _)
    · cases h
  · cases h

theorem isDouble_decimalFloat {s rest : List Char} {v : Double}
    (h : decimalFloat s = some (v, rest)) : v.IsDouble := by
  unfold decimalFloat at h
  dsimp only at h
  split at h
  · cases h
  · cases h
    exact isDouble_nearestDouble (scaled_nonneg _ _ _)

theorem isDouble_zero : (Double.fin 0).IsDouble := by
  have h := isDouble_nearestDouble (le_refl 0)
  rwa [nearestDouble, if_pos rfl] at h

theorem isDouble_strtod (s : List Char) : (strtod s).1.IsDouble := by
  unfold strtod
  dsimp only
  split
  · rename_i v left h
    have hv : v.IsDouble := by
      rw [Option.or_eq_some_iff, Option.or_eq_some_iff] at h
      obtain hword | ⟨-, hhex | ⟨-, hdecimal⟩⟩ := h
      · exact isDouble_wordFloat hword
      · exact isDouble_hexFloat hhex
      · exact isDouble_decimalFloat hdecimal
    dsimp only
    split
    · exact isDouble_neg hv
    · exact hv
  · exact isDouble_zero

end Kura.Engine.CText
