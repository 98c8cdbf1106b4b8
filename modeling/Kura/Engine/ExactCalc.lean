import Kura.Engine.Calculator

/-!
# The calculator over exact numbers

The calculator of PDF functions with rationals for its numbers, and the decimal
texts that are written for it.

## Implementation notes

Roots, sines, powers and logarithms have no exact value in general; they are a
parameter. A word is read as the number it denotes, without rounding; there is
no infinity among the exact numbers, and its words are not read.
-/

namespace Kura.Engine.Calculator

open Kura.Engine.CText

/-- The functions of the C library without an exact value; angles are in degrees. -/
structure MathLib where
  sqrt : ℚ → ℚ
  sin : ℚ → ℚ
  cos : ℚ → ℚ
  log : ℚ → ℚ
  log10 : ℚ → ℚ
  pow : ℚ → ℚ → ℚ
  atan2 : ℚ → ℚ → ℚ

/-- Towards zero. -/
def trunc (x : ℚ) : Int := if x < 0 then ⌈x⌉ else ⌊x⌋

def ofBool (b : Bool) : ℚ := if b then 1 else 0

/-- A hexadecimal number at the start of a text. -/
def hexExact (s : List Char) : Option (ℚ × List Char) :=
  match s with
  | '0' :: x :: tail =>
      let m := mantissa isHexDigit tail
      if (x = 'x' ∨ x = 'X') ∧ m.1 ++ m.2.1 ≠ [] then
        let e := exponentOf 'p' 'P' m.2.2
        some (scaled 2 (number 16 (m.1 ++ m.2.1)) (e.1 - 4 * m.2.1.length), e.2)
      else none
  | _ => none

/-- A decimal number at the start of a text. -/
def decimalExact (s : List Char) : Option (ℚ × List Char) :=
  let m := mantissa Char.isDigit s
  if m.1 ++ m.2.1 = [] then none
  else
    let e := exponentOf 'e' 'E' m.2.2
    some (scaled 10 (number 10 (m.1 ++ m.2.1)) (e.1 - m.2.1.length), e.2)

/-- The value of a word that is a number as a whole; the empty text is taken for zero. -/
def wordNumber (w : List Char) : Option ℚ :=
  if cstr w = [] then some 0
  else
    let start := CText.signOf ((cstr w).dropWhile isBlank)
    match (hexExact start.2).or (decimalExact start.2) with
    | some (v, []) => some (if start.1 then -v else v)
    | _ => none

/-- The operators of one number. -/
def unary (lib : MathLib) : PsOp → ℚ → ℚ
  | .abs, x => |x|
  | .neg, x => -x
  | .ceiling, x => ⌈x⌉
  | .floor, x => ⌊x⌋
  | .round, x => ⌊x + 1 / 2⌋
  | .truncate, x | .cvi, x => trunc x
  | .sqrt, x => lib.sqrt (max 0 x)
  | .sin, x => lib.sin x
  | .cos, x => lib.cos x
  | .ln, x => if 0 < x then lib.log x else 0
  | .log, x => if 0 < x then lib.log10 x else 0
  | .not, x => if x = 0 then 1 else if x = 1 then 0 else (-trunc x - 1 : Int)
  | _, x => x

/-- The operators of two numbers; those of integers see them without their fractions. -/
def binary (lib : MathLib) (o : PsOp) (a b : ℚ) : ℚ :=
  let ia := trunc a
  let ib := trunc b
  match o with
  | .add => a + b
  | .sub => a - b
  | .mul => a * b
  | .div => if b = 0 then 0 else a / b
  | .idiv => if ib = 0 then 0 else (ia.tdiv ib : Int)
  | .mod => if ib = 0 then 0 else (ia.tmod ib : Int)
  | .exp => lib.pow a b
  | .atan => if lib.atan2 a b < 0 then lib.atan2 a b + 360 else lib.atan2 a b
  | .and => (ia.land ib : Int)
  | .or => (ia.lor ib : Int)
  | .xor => (ia.xor ib : Int)
  | .bitshift =>
      if 0 ≤ ib then (Int.bmod (ia * 2 ^ (min ib 62).toNat) (2 ^ 64) : Int)
      else (ia >>> (min (-ib) 62).toNat : Int)
  | .eq => ofBool (a = b)
  | .ne => ofBool (a ≠ b)
  | .gt => ofBool (b < a)
  | .ge => ofBool (b ≤ a)
  | .lt => ofBool (a < b)
  | .le => ofBool (a ≤ b)
  | _ => 0

/-- The arithmetic of exact numbers. -/
def exact (lib : MathLib) : Arith ℚ where
  number := wordNumber
  isZero x := x = 0
  ofBool := ofBool
  toInt := trunc
  unary := unary lib
  binary := binary lib
  lt x y := x < y

theorem trunc_natCast (n : Nat) : trunc n = n := by
  have hn : ¬ (n : ℚ) < 0 := not_lt.mpr (Nat.cast_nonneg n)
  rw [trunc, if_neg hn, Int.floor_natCast]

def kPdfRealLimit : ℚ := 32767

/-- A number with at most some digits behind the point, without zeros at its end. -/
def fmtFixed (v : ℚ) (decimals : Nat) : List Char :=
  let v := if kPdfRealLimit < v then kPdfRealLimit else v
  let v := if v < -kPdfRealLimit then -kPdfRealLimit else v
  let decimals := min decimals 6
  let scale : Nat := 10 ^ decimals
  let scaled := ⌊|v| * scale + 1 / 2⌋₊
  let whole := scaled / scale
  let frac := scaled % scale
  (if v < 0 ∧ (whole ≠ 0 ∨ frac ≠ 0) then ['-'] else []) ++ Nat.toDigits 10 whole ++
    if 0 < decimals ∧ frac ≠ 0 then
      let f := (List.replicate (decimals - (Nat.toDigits 10 frac).length) '0' ++
        Nat.toDigits 10 frac).rdropWhile (· == '0')
      if f = [] then [] else '.' :: f
    else []

def f4 (x : ℚ) : List Char := fmtFixed x 4

/-- The number with four decimals next to a number. -/
def round4 (x : ℚ) : ℚ := (⌊x * 10000 + 1 / 2⌋₊ : ℚ) / 10000

theorem isDigit_bounds {c : Char} (h : c.isDigit = true) : 48 ≤ c.toNat ∧ c.toNat ≤ 57 := by
  rw [Char.isDigit, Bool.and_eq_true, decide_eq_true_eq, decide_eq_true_eq] at h
  exact h

/-- A digit is no character with another meaning in numbers and words. -/
theorem ne_of_isDigit {c d : Char} (h : c.isDigit = true) (hd : d.isDigit = false) : c ≠ d := by
  rintro rfl
  rw [h] at hd
  cases hd

theorem isBlank_of_isDigit {c : Char} (h : c.isDigit = true) : isBlank c = false := by
  have hle := (isDigit_bounds h).1
  rw [isBlank, Bool.or_eq_false_iff, Bool.and_eq_false_iff]
  refine ⟨beq_eq_false_iff_ne.mpr (ne_of_isDigit h (by decide)), Or.inr (decide_eq_false ?_)⟩
  intro hcr
  have hcr' : c.toNat ≤ 13 := hcr
  omega

theorem isWordChar_of_isDigit {c : Char} (h : c.isDigit = true) : isWordChar c = true := by
  rw [isWordChar, isBlank_of_isDigit h]
  simp [ne_of_isDigit h (d := '\x7b') (by decide), ne_of_isDigit h (d := '\x7d') (by decide),
    ne_of_isDigit h (d := '%') (by decide)]

/-- Digits behind a point, if there are any. -/
def point (fs : List Char) : List Char := if fs = [] then [] else '.' :: fs

variable {ds fs : List Char}

theorem mantissa_point (hds : ∀ c ∈ ds, c.isDigit = true) (hfs : ∀ c ∈ fs, c.isDigit = true) :
    mantissa Char.isDigit (ds ++ point fs) = (ds, fs, []) := by
  rw [mantissa, List.dropWhile_append_of_pos hds, List.takeWhile_append_of_pos hds, point]
  split_ifs with h
  · subst h
    simp
  · rw [List.dropWhile_cons_of_neg (by decide), List.takeWhile_cons_of_neg (by decide)]
    simp only [List.append_nil, List.takeWhile_eq_self_iff.mpr hfs,
      List.dropWhile_eq_nil_iff.mpr hfs]

theorem scaled_neg (n k : Nat) : scaled 10 n (-(k : Int)) = (n : ℚ) / (10 : ℚ) ^ k := by
  cases k with
  | zero => simp [scaled]
  | succ k =>
      have hneg : (-((k + 1 : Nat) : Int)) = Int.negSucc k := rfl
      rw [hneg, scaled]
      push_cast
      rfl

/-- A decimal text is read as its number. -/
theorem wordNumber_point (hne : ds ≠ []) (hds : ∀ c ∈ ds, c.isDigit = true)
    (hfs : ∀ c ∈ fs, c.isDigit = true) :
    wordNumber (ds ++ point fs) = some ((number 10 (ds ++ fs) : ℚ) / 10 ^ fs.length) := by
  have hchars : ∀ c ∈ ds ++ point fs, c.isDigit = true ∨ c = '.' := by
    intro c hc
    rcases List.mem_append.mp hc with hc | hc
    · exact Or.inl (hds c hc)
    · rw [point] at hc
      split_ifs at hc with hnil
      · cases hc
      · rcases List.mem_cons.mp hc with rfl | hc
        · exact Or.inr rfl
        · exact Or.inl (hfs c hc)
  have hcstr : cstr (ds ++ point fs) = ds ++ point fs := by
    refine List.takeWhile_eq_self_iff.mpr fun c hc => bne_iff_ne.mpr ?_
    rcases hchars c hc with h | rfl
    · exact ne_of_isDigit h (by decide)
    · decide
  have hdecimal : decimalExact (ds ++ point fs) =
      some ((number 10 (ds ++ fs) : ℚ) / 10 ^ fs.length, []) := by
    rw [decimalExact, mantissa_point hds hfs]
    simp only [List.append_eq_nil_iff, hne, false_and, if_false, exponentOf, zero_sub, scaled_neg]
  cases ds with
  | nil => exact absurd rfl hne
  | cons d ds =>
      have hd := hds d List.mem_cons_self
      have hhex : hexExact (d :: ds ++ point fs) = none := by
        cases hrest : ds ++ point fs with
        | nil =>
            rw [List.cons_append, hrest, hexExact.eq_def]
            simp
        | cons x tail =>
            have hx : x ≠ 'x' ∧ x ≠ 'X' := by
              rcases hchars x (by rw [List.cons_append, hrest]; simp) with h | rfl
              · exact ⟨ne_of_isDigit h (by decide), ne_of_isDigit h (by decide)⟩
              · decide
            rw [List.cons_append, hrest, hexExact.eq_def]
            split
            · rename_i heq
              cases heq
              simp [hx.1, hx.2]
            · rfl
      have hsign : CText.signOf ((d :: ds ++ point fs).dropWhile isBlank) =
          (false, d :: ds ++ point fs) := by
        rw [List.cons_append, List.dropWhile_cons_of_neg (by rw [isBlank_of_isDigit hd]; decide),
          CText.signOf.eq_def]
        split
        · rename_i heq
          cases heq
          exact absurd hd (by decide)
        · rename_i heq
          cases heq
          exact absurd hd (by decide)
        · rfl
      rw [wordNumber, hcstr, if_neg (by simp), hsign]
      simp only [hhex, hdecimal]
      rfl

theorem all_toDigits (n : Nat) : ∀ c ∈ Nat.toDigits 10 n, c.isDigit = true := fun _ hc =>
  Nat.isDigit_of_mem_toDigits (by decide) (by decide) hc

theorem wordNumber_toDigits (n : Nat) : wordNumber (Nat.toDigits 10 n) = some (n : ℚ) := by
  have h := @wordNumber_point _ [] Nat.toDigits_ne_nil (all_toDigits n) (by simp)
  simpa [point, number_toDigits] using h

theorem number_foldl (cs : List Char) (n : Nat) :
    cs.foldl (fun n d => 10 * n + digitValue d) n = n * 10 ^ cs.length + number 10 cs := by
  induction cs generalizing n with
  | nil => simp [number]
  | cons c cs ih =>
      rw [number, List.foldl_cons, List.foldl_cons, ih, ih (10 * 0 + digitValue c),
        List.length_cons, pow_succ]
      ring

theorem number_append_digits (cs cs' : List Char) :
    number 10 (cs ++ cs') = number 10 cs * 10 ^ cs'.length + number 10 cs' := by
  rw [number, List.foldl_append, number_foldl]
  rfl

theorem number_zeroes {cs : List Char} (h : ∀ c ∈ cs, c = '0') : number 10 cs = 0 := by
  rw [List.eq_replicate_of_mem h]
  induction cs.length with
  | zero => rfl
  | succ k ih =>
      rw [List.replicate_succ, ← List.singleton_append, number_append_digits, ih]
      simp [number, digitValue]

/-- The digits of a fraction, without the zeros at their end, still have its value. -/
theorem fraction_digits {k n : Nat} (hk : 0 < k) (hn : n < 10 ^ k) :
    ∃ fs zs : List Char, (List.replicate (k - (Nat.toDigits 10 n).length) '0' ++
        Nat.toDigits 10 n).rdropWhile (· == '0') = fs ∧ (∀ c ∈ fs, c.isDigit = true) ∧
      fs.length + zs.length = k ∧ number 10 fs * 10 ^ zs.length = n := by
  set digits :=
    List.replicate (k - (Nat.toDigits 10 n).length) '0' ++ Nat.toDigits 10 n with hdigits
  have hsplit : digits.rdropWhile (· == '0') ++ digits.rtakeWhile (· == '0') = digits :=
    List.rdropWhile_append_rtakeWhile
  refine ⟨_, digits.rtakeWhile (· == '0'), rfl, ?_, ?_, ?_⟩
  · intro c hc
    have hmem : c ∈ digits := (List.rdropWhile_prefix _ _).mem hc
    rw [hdigits] at hmem
    rcases List.mem_append.mp hmem with hzero | hdigit
    · rw [List.eq_of_mem_replicate hzero]
      rfl
    · exact all_toDigits n c hdigit
  · have hlen := Nat.toDigits_length 10 n k hk hn
    rw [← List.length_append, hsplit, hdigits, List.length_append, List.length_replicate]
    omega
  · have hzeros : number 10 (digits.rtakeWhile (· == '0')) = 0 := by
      refine number_zeroes fun c hc => ?_
      have hzero := List.mem_rtakeWhile_imp hc
      exact beq_iff_eq.mp hzero
    calc number 10 (digits.rdropWhile (· == '0')) * 10 ^ (digits.rtakeWhile (· == '0')).length
        = number 10 digits := by
          rw [← hsplit, number_append_digits, hzeros, hsplit, Nat.add_zero]
      _ = n := by
          rw [hdigits, number_append_digits, number_toDigits,
            number_zeroes (fun c hc => List.eq_of_mem_replicate hc), Nat.zero_mul, Nat.zero_add]

/-- A number that is written with four decimals is read back as the one with four decimals
next to it. -/
theorem f4_text {x : ℚ} (h0 : 0 ≤ x) (h1 : x ≤ kPdfRealLimit) :
    ∃ ds fs : List Char, f4 x = ds ++ point fs ∧ ds ≠ [] ∧ (∀ c ∈ ds, c.isDigit = true) ∧
      (∀ c ∈ fs, c.isDigit = true) ∧ (number 10 (ds ++ fs) : ℚ) / 10 ^ fs.length = round4 x := by
  have hneg : ¬ x < -kPdfRealLimit := by
    have hlimit : (0 : ℚ) < kPdfRealLimit := by norm_num [kPdfRealLimit]
    linarith
  set n := ⌊x * 10000 + 1 / 2⌋₊ with hn
  have htext : f4 x = Nat.toDigits 10 (n / 10000) ++
      if n % 10000 ≠ 0 then
        point ((List.replicate (4 - (Nat.toDigits 10 (n % 10000)).length) '0' ++
          Nat.toDigits 10 (n % 10000)).rdropWhile (· == '0'))
      else [] := by
    rw [f4, fmtFixed]
    simp only [if_neg (not_lt.mpr h1), if_neg hneg, abs_of_nonneg h0, not_lt.mpr h0, false_and,
      if_false, List.nil_append, point]
    norm_num
    rfl
  by_cases hfrac : n % 10000 = 0
  · refine ⟨Nat.toDigits 10 (n / 10000), [], ?_, Nat.toDigits_ne_nil, all_toDigits _, by simp, ?_⟩
    · rw [htext, if_neg (not_not.mpr hfrac)]
      rfl
    · have hdiv : n / 10000 * 10000 = n := Nat.div_mul_cancel (Nat.dvd_of_mod_eq_zero hfrac)
      rw [List.append_nil, number_toDigits, round4, ← hn, List.length_nil, pow_zero, div_one,
        eq_div_iff (by norm_num)]
      exact_mod_cast hdiv
  · obtain ⟨fs, zs, hfs, hdigit, hlen, hvalue⟩ :=
      fraction_digits (k := 4) (n := n % 10000) (by decide) (Nat.mod_lt _ (by decide))
    refine ⟨Nat.toDigits 10 (n / 10000), fs, ?_, Nat.toDigits_ne_nil, all_toDigits _, hdigit, ?_⟩
    · rw [htext, if_pos hfrac, hfs]
    · have hpow : (10 : ℚ) ^ fs.length * 10 ^ zs.length = 10000 := by
        rw [← pow_add, hlen]
        norm_num
      have hsum : number 10 (Nat.toDigits 10 (n / 10000) ++ fs) * 10 ^ zs.length = n := by
        calc number 10 (Nat.toDigits 10 (n / 10000) ++ fs) * 10 ^ zs.length
            = n / 10000 * 10 ^ (fs.length + zs.length) + number 10 fs * 10 ^ zs.length := by
              rw [number_append_digits, number_toDigits, pow_add]
              ring
          _ = n := by
              rw [hlen, hvalue]
              omega
      rw [round4, ← hn, div_eq_div_iff (by positivity) (by norm_num), ← hpow]
      have hcast : (number 10 (Nat.toDigits 10 (n / 10000) ++ fs) : ℚ) * 10 ^ zs.length = n := by
        exact_mod_cast hsum
      rw [← hcast]
      ring

theorem wordNumber_f4 {x : ℚ} (h0 : 0 ≤ x) (h1 : x ≤ kPdfRealLimit) :
    wordNumber (f4 x) = some (round4 x) := by
  obtain ⟨ds, fs, htext, hne, hds, hfs, hvalue⟩ := f4_text h0 h1
  rw [htext, wordNumber_point hne hds hfs, hvalue]

variable {lib : MathLib}

theorem means_toDigits (n : Nat) : Means (exact lib) (Nat.toDigits 10 n) (.push n) := by
  refine ⟨Nat.toDigits_ne_nil, fun c hc => isWordChar_of_isDigit (all_toDigits n c hc), ?_⟩
  have hread : (exact lib).number (Nat.toDigits 10 n) = some (n : ℚ) := wordNumber_toDigits n
  rw [instrOf, hread]

/-- The four decimals written for a number of [0, 1] mean the rounded number. -/
theorem means_f4 {x : ℚ} (h0 : 0 ≤ x) (h1 : x ≤ 1) :
    Means (exact lib) (f4 x) (.push (round4 x)) := by
  have hlimit : x ≤ kPdfRealLimit := h1.trans (by norm_num [kPdfRealLimit])
  obtain ⟨ds, fs, htext, hne, hds, hfs, -⟩ := f4_text h0 hlimit
  refine ⟨?_, fun c hc => ?_, ?_⟩
  · rw [htext]
    exact List.append_ne_nil_of_left_ne_nil hne _
  · rw [htext] at hc
    rcases List.mem_append.mp hc with hc | hc
    · exact isWordChar_of_isDigit (hds c hc)
    · rw [point] at hc
      split_ifs at hc with hnil
      · cases hc
      · rcases List.mem_cons.mp hc with rfl | hc
        · decide
        · exact isWordChar_of_isDigit (hfs c hc)
  · have hread : (exact lib).number (f4 x) = some (round4 x) := wordNumber_f4 h0 hlimit
    rw [instrOf, hread]

/-- A word that starts with a letter is no number. -/
theorem wordNumber_letter {c : Char} {w : List Char} (hc : c.isLower = true)
    (hnul : CText.cstr (c :: w) = c :: w) : wordNumber (c :: w) = none := by
  have hne {d : Char} (hd : d.isLower = false) : c ≠ d := by
    rintro rfl
    rw [hc] at hd
    cases hd
  have hlow : 97 ≤ c.toNat := by
    rw [Char.isLower, Bool.and_eq_true, decide_eq_true_eq] at hc
    exact hc.1
  have hdigit : ¬ c.isDigit = true := fun h => by
    have := (isDigit_bounds h).2
    omega
  have hblank : ¬ CText.isBlank c = true := by
    intro h
    rw [CText.isBlank, Bool.or_eq_true, Bool.and_eq_true, decide_eq_true_eq, decide_eq_true_eq] at h
    rcases h with h | h
    · exact hne (by decide) (beq_iff_eq.mp h)
    · have hcr : c.toNat ≤ 13 := h.2
      omega
  have hsign : CText.signOf ((c :: w).dropWhile CText.isBlank) = (false, c :: w) := by
    rw [List.dropWhile_cons_of_neg hblank, CText.signOf.eq_def]
    split
    · rename_i heq
      cases heq
      exact absurd hc (by decide)
    · rename_i heq
      cases heq
      exact absurd hc (by decide)
    · rfl
  have hhex : hexExact (c :: w) = none := by
    rw [hexExact.eq_def]
    split
    · rename_i heq
      cases heq
      exact absurd hc (by decide)
    · rfl
  have hmantissa : CText.mantissa Char.isDigit (c :: w) = ([], [], c :: w) := by
    rw [CText.mantissa, List.dropWhile_cons_of_neg hdigit, List.takeWhile_cons_of_neg hdigit]
    split
    · rename_i heq
      cases heq
      exact absurd hc (by decide)
    · rfl
  have hdecimal : decimalExact (c :: w) = none := by
    rw [decimalExact, hmantissa]
    rfl
  rw [wordNumber, hnul, if_neg (by simp), hsign]
  simp only [hhex, hdecimal]
  rfl

/-- The words of the operators are read as these. -/
theorem means_op {o : String × PsOp} (ho : o ∈ ops) : Means (exact lib) o.1.toList (.op o.2) := by
  have hall : ∀ o ∈ ops, (o.1.toList.head?.any Char.isLower = true ∧
      CText.cstr o.1.toList = o.1.toList ∧ o.1.toList.all isWordChar = true) ∧
      ops.find? (fun o' => o.1.toList = o'.1.toList) = some o := by decide +kernel
  obtain ⟨⟨hhead, hnul, hw⟩, hfind⟩ := hall o ho
  have hnumber : (exact lib).number o.1.toList = none := by
    cases hword : o.1.toList with
    | nil => simp [hword] at hhead
    | cons c w =>
        rw [hword] at hhead hnul
        exact wordNumber_letter (by simpa using hhead) hnul
  refine ⟨?_, List.all_eq_true.mp hw, ?_⟩
  · intro hnil
    simp [hnil] at hhead
  · rw [instrOf, hnumber]
    simp only [hfind, Option.map_some]

end Kura.Engine.Calculator
