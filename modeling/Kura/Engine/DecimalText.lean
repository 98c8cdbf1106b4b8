import Kura.Engine.ExactCalc

/-!
# Decimal texts

What a written number denotes, which multiple of a power of ten it is, and that
no other text of that number is as short.
-/

namespace Kura.Engine.Calculator

open Kura.Engine.CText

variable {ds fs ds' fs' : List Char}

theorem digitValue_lt {c : Char} (h : c.isDigit = true) : digitValue c < 10 := by
  have hbounds := isDigit_bounds h
  rw [digitValue, if_pos h]
  have hzero : '0'.toNat = 48 := rfl
  omega

theorem digitValue_inj {c d : Char} (hc : c.isDigit = true) (hd : d.isDigit = true)
    (h : digitValue c = digitValue d) : c = d := by
  have hcb := isDigit_bounds hc
  have hdb := isDigit_bounds hd
  rw [digitValue, digitValue, if_pos hc, if_pos hd] at h
  have hzero : '0'.toNat = 48 := rfl
  have hnat : c.toNat = d.toNat := by omega
  exact Char.toNat_inj.mp hnat

theorem number_concat (c : Char) : number 10 (ds ++ [c]) = number 10 ds * 10 + digitValue c := by
  rw [number_append_digits]
  simp [number]

theorem number_lt (h : ∀ c ∈ ds, c.isDigit = true) : number 10 ds < 10 ^ ds.length := by
  induction ds using List.reverseRecOn with
  | nil => simp [number]
  | append_singleton ds c ih =>
      have hds := ih fun d hd => h d (List.mem_append_left _ hd)
      have hc := digitValue_lt (h c (by simp))
      rw [number_concat, List.length_append, List.length_singleton, pow_succ]
      omega

/-- Strings of as many digits with the same value are the same. -/
theorem digits_unique (h : ∀ c ∈ ds, c.isDigit = true) (h' : ∀ c ∈ ds', c.isDigit = true)
    (hlength : ds.length = ds'.length) (hvalue : number 10 ds = number 10 ds') : ds = ds' := by
  induction ds using List.reverseRecOn generalizing ds' with
  | nil => exact (List.eq_nil_of_length_eq_zero hlength.symm).symm
  | append_singleton ds c ih =>
      cases ds' using List.reverseRecOn with
      | nil => simp at hlength
      | append_singleton ds' c' =>
          have hc := h c (by simp)
          have hc' := h' c' (by simp)
          have hlt := digitValue_lt hc
          have hlt' := digitValue_lt hc'
          rw [number_concat, number_concat] at hvalue
          rw [List.length_append, List.length_append] at hlength
          have hfront : ds = ds' := ih (fun d hd => h d (List.mem_append_left _ hd))
            (fun d hd => h' d (List.mem_append_left _ hd)) (Nat.add_right_cancel hlength) (by omega)
          rw [hfront, digitValue_inj hc hc' (by omega)]

/-- The parts of a decimal text. -/
structure Decimal where
  minus : Bool
  whole : List Char
  frac : List Char
  whole_ne_nil : whole ≠ []
  whole_digits : ∀ c ∈ whole, c.isDigit = true
  frac_digits : ∀ c ∈ frac, c.isDigit = true

namespace Decimal

/-- The text; there is a point in front of digits only. -/
def text (x : Decimal) : List Char := (if x.minus then ['-'] else []) ++ x.whole ++ point x.frac

/-- The number without its sign. -/
def magnitude (x : Decimal) : ℚ := (number 10 (x.whole ++ x.frac) : ℚ) / 10 ^ x.frac.length

/-- The number that is denoted. -/
def value (x : Decimal) : ℚ := if x.minus then -x.magnitude else x.magnitude

theorem magnitude_nonneg (x : Decimal) : 0 ≤ x.magnitude := by
  rw [magnitude]
  positivity

theorem abs_value (x : Decimal) : |x.value| = x.magnitude := by
  rw [value]
  split_ifs with h
  · rw [abs_neg, abs_of_nonneg x.magnitude_nonneg]
  · exact abs_of_nonneg x.magnitude_nonneg

theorem length_text (x : Decimal) :
    x.text.length = (if x.minus then 1 else 0) + x.whole.length +
      (if x.frac = [] then 0 else x.frac.length + 1) := by
  rw [text, point]
  split_ifs <;> simp <;> omega

end Decimal

/-- A text that denotes a number. -/
def Denotes (s : List Char) (q : ℚ) : Prop := ∃ x : Decimal, x.text = s ∧ x.value = q

/-- The only text of a number that is not longer than others. -/
structure Shortest (s : List Char) (q : ℚ) : Prop where
  denotes : Denotes s q
  le_length : ∀ t, Denotes t q → s.length ≤ t.length
  eq_of_length : ∀ t, Denotes t q → t.length = s.length → t = s

/-- A decimal text that wastes no sign and no zero. -/
structure Decimal.Trimmed (x : Decimal) : Prop where
  minus : x.minus = true → x.value ≠ 0
  whole : x.whole = Nat.toDigits 10 (number 10 x.whole)
  frac : ∀ fs : List Char, x.frac ≠ fs ++ ['0']

namespace Decimal

variable {x y : Decimal}

theorem number_whole_frac (x : Decimal) :
    number 10 (x.whole ++ x.frac) = number 10 x.whole * 10 ^ x.frac.length + number 10 x.frac :=
  number_append_digits _ _

/-- The whole part of a text is the whole part of its number. -/
theorem number_whole (x : Decimal) : number 10 x.whole = ⌊x.magnitude⌋₊ := by
  have hlt := number_lt x.frac_digits
  rw [magnitude]
  have hfloor : ⌊(number 10 (x.whole ++ x.frac) : ℚ) / ((10 ^ x.frac.length : ℕ) : ℚ)⌋₊ =
      number 10 (x.whole ++ x.frac) / 10 ^ x.frac.length := Nat.floor_div_eq_div _ _
  push_cast at hfloor
  rw [hfloor, number_whole_frac, Nat.mul_comm, Nat.mul_add_div (by positivity),
    Nat.div_eq_of_lt hlt, Nat.add_zero]

/-- Two texts of a number, cross multiplied. -/
theorem number_eq (h : x.magnitude = y.magnitude) :
    number 10 (x.whole ++ x.frac) * 10 ^ y.frac.length =
      number 10 (y.whole ++ y.frac) * 10 ^ x.frac.length := by
  rw [magnitude, magnitude, div_eq_div_iff (by positivity) (by positivity)] at h
  exact_mod_cast h

/-- No text of the number has fewer digits behind the point than a trimmed one. -/
theorem Trimmed.frac_le (h : x.Trimmed) (heq : x.magnitude = y.magnitude) :
    x.frac.length ≤ y.frac.length := by
  by_contra hlong
  obtain ⟨k, hk⟩ : ∃ k, x.frac.length = y.frac.length + (k + 1) :=
    ⟨x.frac.length - y.frac.length - 1, by omega⟩
  obtain ⟨fs, c, hfrac⟩ : ∃ fs c, x.frac = fs ++ [c] := by
    refine ⟨_, _, (List.dropLast_append_getLast ?_).symm⟩
    rintro hnil
    rw [hnil, List.length_nil] at hk
    omega
  have hcross := number_eq heq
  rw [hk, pow_add, ← mul_assoc, mul_right_comm] at hcross
  have hnumber : number 10 (x.whole ++ x.frac) = number 10 (y.whole ++ y.frac) * 10 ^ (k + 1) :=
    Nat.eq_of_mul_eq_mul_right (by positivity) hcross
  -- the last digit of a number that ten divides is a zero
  have hc := x.frac_digits c (by simp [hfrac])
  have hlt := digitValue_lt hc
  rw [hfrac, ← List.append_assoc, number_concat, pow_succ, ← mul_assoc] at hnumber
  have hzero : digitValue c = digitValue '0' := by
    have hz : digitValue '0' = 0 := rfl
    omega
  exact h.frac fs (by rw [hfrac, digitValue_inj hc (by decide) hzero])

/-- No text of the number has fewer digits before the point than a trimmed one. -/
theorem Trimmed.whole_le (h : x.Trimmed) (heq : x.magnitude = y.magnitude) :
    x.whole.length ≤ y.whole.length := by
  rw [h.whole, number_whole x, heq, ← number_whole y]
  exact Nat.toDigits_length 10 _ _ (List.length_pos_iff.mpr y.whole_ne_nil)
    (number_lt y.whole_digits)

/-- A trimmed text has a minus sign only if every text of the number has one. -/
theorem Trimmed.minus_le (h : x.Trimmed) (heq : x.value = y.value) (hx : x.minus = true) :
    y.minus = true := by
  by_contra hy
  have hneg : x.value ≤ 0 := by
    rw [value, if_pos hx, neg_nonpos]
    exact x.magnitude_nonneg
  have hpos : 0 ≤ y.value := by
    rw [value, if_neg hy]
    exact y.magnitude_nonneg
  exact h.minus hx (le_antisymm hneg (heq ▸ hpos))

/-- A trimmed text is the shortest one of its number. -/
theorem Trimmed.shortest (h : x.Trimmed) : Shortest x.text x.value := by
  have hmagnitude : ∀ {y : Decimal}, y.value = x.value → x.magnitude = y.magnitude := by
    intro y hy
    rw [← abs_value x, ← abs_value y, hy]
  have hpoint : ∀ {y : Decimal}, x.frac.length ≤ y.frac.length →
      (if x.frac = [] then 0 else x.frac.length + 1) ≤
        if y.frac = [] then 0 else y.frac.length + 1 := by
    intro y hle
    split_ifs with hx hy
    · exact le_rfl
    · exact Nat.zero_le _
    · exact absurd (List.length_pos_iff.mpr hx) (by rw [‹y.frac = []›] at hle; simpa using hle)
    · omega
  have hminus : ∀ {y : Decimal}, y.value = x.value →
      (if x.minus then 1 else 0) ≤ if y.minus then 1 else 0 := by
    intro y hy
    split_ifs with hx hym
    · exact le_rfl
    · exact absurd (h.minus_le hy.symm hx) hym
    · exact Nat.zero_le _
    · exact le_rfl
  refine ⟨⟨x, rfl, rfl⟩, ?_, ?_⟩
  · rintro t ⟨y, rfl, hy⟩
    have hwhole := h.whole_le (hmagnitude hy)
    have hfrac := hpoint (h.frac_le (hmagnitude hy))
    have hsign := hminus hy
    rw [length_text, length_text]
    omega
  · rintro t ⟨y, rfl, hy⟩ hlength
    have hwhole := h.whole_le (hmagnitude hy)
    have hfrac := h.frac_le (hmagnitude hy)
    have hfrac' := hpoint hfrac
    have hsign := hminus hy
    rw [length_text, length_text] at hlength
    -- nothing is longer in one part, so that nothing is in any
    have hm : x.minus = y.minus := by
      cases hx : x.minus <;> cases hym : y.minus <;> simp [hx, hym] at hsign hlength ⊢
      omega
    have hw : x.whole.length = y.whole.length := by omega
    have hf : x.frac.length = y.frac.length := by
      by_cases hx : x.frac = []
      · by_cases hy' : y.frac = []
        · rw [hx, hy']
        · rw [if_pos hx, if_neg hy', hm] at hlength
          omega
      · have hy' : y.frac ≠ [] := by
          rintro hnil
          rw [hnil, List.length_nil, Nat.le_zero, List.length_eq_zero_iff] at hfrac
          exact hx hfrac
        rw [if_neg hx, if_neg hy', hm] at hlength
        omega
    have hnumber := number_eq (hmagnitude hy)
    rw [hf] at hnumber
    have hall : x.whole ++ x.frac = y.whole ++ y.frac := by
      refine digits_unique ?_ ?_ (by rw [List.length_append, List.length_append, hw, hf])
        (Nat.eq_of_mul_eq_mul_right (by positivity) hnumber)
      · exact fun c hc => (List.mem_append.mp hc).elim (x.whole_digits c) (x.frac_digits c)
      · exact fun c hc => (List.mem_append.mp hc).elim (y.whole_digits c) (y.frac_digits c)
    obtain ⟨hwhole', hfrac''⟩ := List.append_inj hall hw
    rw [text, text, hm, hwhole', hfrac'']

/-- A minus sign in front of a number gives the number with the other sign. -/
theorem wordNumber_minus {d : Char} {rest : List Char} {q : ℚ} (hd : d.isDigit = true)
    (h : wordNumber (d :: rest) = some q) : wordNumber ('-' :: d :: rest) = some (-q) := by
  have hnul : cstr (d :: rest) = d :: cstr rest :=
    List.takeWhile_cons_of_pos (bne_iff_ne.mpr (ne_of_isDigit hd (by decide)))
  have hcstr : cstr ('-' :: d :: rest) = '-' :: d :: cstr rest := by
    rw [← hnul]
    exact List.takeWhile_cons_of_pos (by decide)
  have hplus : CText.signOf (d :: cstr rest) = (false, d :: cstr rest) := by
    rw [CText.signOf.eq_def]
    split
    · rename_i heq
      cases heq
      exact absurd hd (by decide)
    · rename_i heq
      cases heq
      exact absurd hd (by decide)
    · rfl
  have hminus : CText.signOf ('-' :: d :: cstr rest) = (true, d :: cstr rest) := rfl
  rw [wordNumber, hnul, if_neg (by simp),
    List.dropWhile_cons_of_neg (by rw [isBlank_of_isDigit hd]; decide), hplus] at h
  rw [wordNumber, hcstr, if_neg (by simp), List.dropWhile_cons_of_neg (by decide), hminus]
  dsimp only at h ⊢
  revert h
  cases (hexExact (d :: cstr rest)).or (decimalExact (d :: cstr rest)) with
  | none => exact fun h => absurd h.symm (Option.some_ne_none q)
  | some found =>
      obtain ⟨v, tail⟩ := found
      cases tail with
      | nil =>
          intro h
          have hv : v = q := Option.some.inj h
          rw [← hv]
          rfl
      | cons _ _ => exact fun h => absurd h.symm (Option.some_ne_none q)

/-- A decimal text is read as the number that it denotes. -/
theorem wordNumber_text (x : Decimal) : wordNumber x.text = some x.value := by
  have hread : wordNumber (x.whole ++ point x.frac) = some x.magnitude :=
    wordNumber_point x.whole_ne_nil x.whole_digits x.frac_digits
  cases hx : x.minus with
  | false =>
      rw [text, value, hx, if_neg (by decide), if_neg (by decide), List.nil_append]
      exact hread
  | true =>
      obtain ⟨d, ds, hwhole⟩ := List.exists_cons_of_ne_nil x.whole_ne_nil
      have hd : d.isDigit = true := x.whole_digits d (by simp [hwhole])
      rw [hwhole, List.cons_append] at hread
      rw [text, value, hx, if_pos rfl, if_pos rfl, hwhole]
      exact wordNumber_minus hd hread

end Decimal

/-- The multiple of a power of ten that is next to a number; of two, the one away from zero. -/
structure NearestMultiple (decimals : Nat) (c q : ℚ) : Prop where
  multiple : ∃ m : ℤ, q = m / 10 ^ decimals
  nearest : ∀ k : ℤ, |q - c| ≤ |k / 10 ^ decimals - c|
  away : ∀ k : ℤ, |k / 10 ^ decimals - c| = |q - c| → |(k / 10 ^ decimals : ℚ)| ≤ |q|

/-- The nearest multiple of the negated number is the negated multiple. -/
theorem NearestMultiple.neg {decimals : Nat} {c q : ℚ} (h : NearestMultiple decimals c q) :
    NearestMultiple decimals (-c) (-q) := by
  have hflip : ∀ x : ℚ, |-x - -c| = |x - c| := by
    intro x
    rw [← abs_neg (x - c)]
    ring_nf
  have hcast : ∀ k : ℤ, (k / 10 ^ decimals : ℚ) = -((-k : ℤ) / 10 ^ decimals) := by
    intro k
    push_cast
    ring
  obtain ⟨m, hm⟩ := h.multiple
  refine ⟨⟨-m, ?_⟩, fun k => ?_, fun k => ?_⟩
  · rw [hm, hcast, neg_neg]
  · rw [hcast k, hflip, hflip]
    exact h.nearest (-k)
  · rw [hcast k, hflip, hflip, abs_neg, abs_neg]
    exact h.away (-k)

/-- What is at least as near as any other multiple is at most half a unit away. -/
theorem NearestMultiple.abs_sub_le {decimals : Nat} {c q : ℚ} (h : NearestMultiple decimals c q) :
    |q - c| ≤ 1 / 2 / 10 ^ decimals := by
  have hpos : (0 : ℚ) < 10 ^ decimals := by positivity
  have hround := abs_sub_round (c * 10 ^ decimals)
  calc |q - c| ≤ |(round (c * 10 ^ decimals) : ℤ) / 10 ^ decimals - c| := h.nearest _
    _ = |c * 10 ^ decimals - round (c * 10 ^ decimals)| / 10 ^ decimals := by
        rw [abs_sub_comm, ← abs_of_pos hpos, ← abs_div, abs_of_pos hpos]
        congr 1
        field_simp
    _ ≤ 1 / 2 / 10 ^ decimals := by gcongr

/-- Half a unit more and no part of a unit gives the nearest multiple. -/
theorem nearestMultiple_floor (decimals : Nat) {a : ℚ} (ha : 0 ≤ a) :
    NearestMultiple decimals a (⌊a * 10 ^ decimals + 1 / 2⌋₊ / 10 ^ decimals) := by
  have hpos : (0 : ℚ) < 10 ^ decimals := by positivity
  set s : ℚ := 10 ^ decimals
  set n := ⌊a * s + 1 / 2⌋₊ with hn
  have hlow : (n : ℚ) ≤ a * s + 1 / 2 := Nat.floor_le (by positivity)
  have hhigh : a * s + 1 / 2 < n + 1 := Nat.lt_floor_add_one _
  have hscale : ∀ x : ℚ, |x / s - a| = |x - a * s| / s := by
    intro x
    rw [← abs_of_pos hpos, ← abs_div, abs_of_pos hpos]
    congr 1
    field_simp
  have hnear : |(n : ℚ) - a * s| ≤ 1 / 2 := by
    rw [abs_le]
    constructor <;> linarith
  -- a multiple above is more than half a unit away, one below at least half a unit
  have habove : ∀ k : ℤ, (n : ℤ) < k → 1 / 2 < |(k : ℚ) - a * s| := by
    intro k hk
    have hk' : (n : ℚ) + 1 ≤ k := by exact_mod_cast hk
    exact (by linarith : (1 / 2 : ℚ) < k - a * s).trans_le (le_abs_self _)
  refine ⟨⟨n, by push_cast; rfl⟩, fun k => ?_, fun k => ?_⟩
  · rw [hscale, hscale]
    refine div_le_div_of_nonneg_right ?_ hpos.le
    rcases lt_trichotomy (n : ℤ) k with hk | hk | hk
    · exact hnear.trans (habove k hk).le
    · rw [← hk, Int.cast_natCast]
    · have hk' : (k : ℚ) + 1 ≤ n := by exact_mod_cast hk
      exact hnear.trans ((by linarith : (1 / 2 : ℚ) ≤ -(k - a * s)).trans (neg_le_abs _))
  · rw [hscale, hscale, div_left_inj' hpos.ne']
    intro htie
    have hk : k ≤ n := by
      by_contra hk
      exact absurd (htie ▸ hnear) (not_le.mpr (habove k (not_le.mp hk)))
    have hk0 : 0 ≤ k := by
      by_contra hk0
      have hk' : (k : ℚ) + 1 ≤ 0 := by exact_mod_cast not_le.mp hk0
      have has : 0 ≤ a * s := by positivity
      have hfar := neg_le_abs ((k : ℚ) - a * s)
      rw [htie] at hfar
      linarith
    have hcast : (k : ℚ) ≤ n := by exact_mod_cast hk
    have hcast0 : (0 : ℚ) ≤ k := by exact_mod_cast hk0
    rw [abs_of_nonneg (div_nonneg hcast0 hpos.le), abs_of_nonneg (by positivity)]
    gcongr

/-- A number brought within the limit. -/
def clamped (v : ℚ) : ℚ := max (-kPdfRealLimit) (min v kPdfRealLimit)

theorem fmtFixed_clamps (v : ℚ) :
    (let w := if kPdfRealLimit < v then kPdfRealLimit else v
     if w < -kPdfRealLimit then -kPdfRealLimit else w) = clamped v := by
  have hlimit : (0 : ℚ) < kPdfRealLimit := by norm_num [kPdfRealLimit]
  have hmin : (if kPdfRealLimit < v then kPdfRealLimit else v) = min v kPdfRealLimit := by
    split_ifs with h
    · exact (min_eq_right h.le).symm
    · exact (min_eq_left (not_lt.mp h)).symm
  show (if (if kPdfRealLimit < v then kPdfRealLimit else v) < -kPdfRealLimit then -kPdfRealLimit
    else if kPdfRealLimit < v then kPdfRealLimit else v) = clamped v
  rw [hmin, clamped]
  split_ifs with h
  · exact (max_eq_left h.le).symm
  · exact (max_eq_right (not_lt.mp h)).symm

/-- What is left of digits without the zeros at their end does not end in a zero. -/
theorem rdropWhile_zero_ne (cs fs : List Char) : cs.rdropWhile (· == '0') ≠ fs ++ ['0'] := by
  intro h
  have hne : cs.rdropWhile (· == '0') ≠ [] := by simp [h]
  have hlast := List.rdropWhile_last_not (· == '0') cs hne
  simp [h] at hlast

/-- What is written behind the point. -/
theorem fmtFixed_frac {n d : Nat} : ∃ (fs : List Char) (k : Nat),
    (if 0 < d ∧ n % 10 ^ d ≠ 0 then
      point ((List.replicate (d - (Nat.toDigits 10 (n % 10 ^ d)).length) '0' ++
        Nat.toDigits 10 (n % 10 ^ d)).rdropWhile (· == '0'))
    else []) = point fs ∧ (∀ c ∈ fs, c.isDigit = true) ∧ fs.length + k = d ∧
      number 10 fs * 10 ^ k = n % 10 ^ d ∧ ∀ gs : List Char, fs ≠ gs ++ ['0'] := by
  by_cases hsome : 0 < d ∧ n % 10 ^ d ≠ 0
  · obtain ⟨fs, zs, hfs, hdigits, hlength, hnumber⟩ :=
      fraction_digits hsome.1 (Nat.mod_lt n (by positivity : 0 < 10 ^ d))
    refine ⟨fs, zs.length, ?_, hdigits, hlength, hnumber, fun gs => ?_⟩
    · rw [if_pos hsome, hfs]
    · rw [← hfs]
      exact rdropWhile_zero_ne _ gs
  · refine ⟨[], d, ?_, by simp, by simp, ?_, by simp⟩
    · rw [if_neg hsome]
      rfl
    · rcases Nat.eq_zero_or_pos d with rfl | hd
      · rw [pow_zero, Nat.mod_one]
        rfl
      · have hmod : n % 10 ^ d = 0 := by
          by_contra hne
          exact hsome ⟨hd, hne⟩
        rw [hmod]
        simp [number]

/-- The parts of what is written are those of a trimmed text. -/
theorem fmtFixed_text (v : ℚ) {decimals : Nat} (hd : decimals ≤ 6) :
    ∃ x : Decimal, fmtFixed v decimals = x.text ∧ x.Trimmed ∧
      x.magnitude = ⌊|clamped v| * 10 ^ decimals + 1 / 2⌋₊ / 10 ^ decimals ∧
      (x.minus = true ↔ clamped v < 0 ∧ x.magnitude ≠ 0) := by
  set n := ⌊|clamped v| * 10 ^ decimals + 1 / 2⌋₊ with hn
  have hscaled : ⌊|clamped v| * ((10 ^ decimals : Nat) : ℚ) + 1 / 2⌋₊ = n := by
    rw [hn]
    push_cast
    rfl
  have hclamps := fmtFixed_clamps v
  dsimp only at hclamps
  have hpos : 0 < 10 ^ decimals := by positivity
  have hsplit : n / 10 ^ decimals * 10 ^ decimals + n % 10 ^ decimals = n := by
    rw [Nat.mul_comm]
    exact Nat.div_add_mod _ _
  have hzero : (n / 10 ^ decimals ≠ 0 ∨ n % 10 ^ decimals ≠ 0) ↔ n ≠ 0 := by
    refine ⟨?_, fun h => ?_⟩
    · intro h hnil
      rw [hnil, Nat.zero_div, Nat.zero_mod] at h
      exact h.elim (absurd rfl) (absurd rfl)
    · by_contra hboth
      obtain ⟨hdiv, hmod⟩ := not_or.mp hboth
      rw [not_not] at hdiv hmod
      rw [hdiv, hmod] at hsplit
      omega
  have htext : fmtFixed v decimals =
      (if clamped v < 0 ∧ n ≠ 0 then ['-'] else []) ++ Nat.toDigits 10 (n / 10 ^ decimals) ++
        if 0 < decimals ∧ n % 10 ^ decimals ≠ 0 then
          point ((List.replicate (decimals - (Nat.toDigits 10 (n % 10 ^ decimals)).length) '0' ++
            Nat.toDigits 10 (n % 10 ^ decimals)).rdropWhile (· == '0'))
        else [] := by
    rw [fmtFixed]
    simp only [hclamps, min_eq_left hd, hscaled, hzero, point]
  obtain ⟨fs, k, htail, hdigits, hlength, hnumber, hlast⟩ := fmtFixed_frac (n := n) (d := decimals)
  have hmagnitude : (number 10 (Nat.toDigits 10 (n / 10 ^ decimals) ++ fs) : ℚ) /
      10 ^ fs.length = n / 10 ^ decimals := by
    have hnat : (n / 10 ^ decimals * 10 ^ fs.length + number 10 fs) * 10 ^ k = n := by
      rw [Nat.add_mul, hnumber, Nat.mul_assoc, ← pow_add, hlength]
      exact hsplit
    have hcast : (number 10 (Nat.toDigits 10 (n / 10 ^ decimals) ++ fs) : ℚ) * 10 ^ k = n := by
      rw [number_append_digits, number_toDigits]
      exact_mod_cast hnat
    have hpow : (10 : ℚ) ^ decimals = 10 ^ fs.length * 10 ^ k := by rw [← pow_add, hlength]
    rw [div_eq_div_iff (by positivity) (by positivity), hpow, ← hcast]
    ring
  let x : Decimal :=
    { minus := decide (clamped v < 0 ∧ n ≠ 0)
      whole := Nat.toDigits 10 (n / 10 ^ decimals)
      frac := fs
      whole_ne_nil := Nat.toDigits_ne_nil
      whole_digits := all_toDigits _
      frac_digits := hdigits }
  have hx : x.magnitude = n / 10 ^ decimals := hmagnitude
  have hx0 : x.magnitude ≠ 0 ↔ n ≠ 0 := by
    rw [hx, Ne, div_eq_zero_iff, not_or]
    exact ⟨fun h => by exact_mod_cast h.1, fun h => ⟨by exact_mod_cast h, by positivity⟩⟩
  have hminus : x.minus = true ↔ clamped v < 0 ∧ x.magnitude ≠ 0 := by
    rw [hx0]
    exact decide_eq_true_iff
  refine ⟨x, ?_, ⟨fun hm => ?_, ?_, hlast⟩, hx, hminus⟩
  · rw [htext, htail, Decimal.text]
    simp only [x, decide_eq_true_eq]
  · rw [← abs_ne_zero, x.abs_value]
    exact (hminus.mp hm).2
  · show Nat.toDigits 10 _ = Nat.toDigits 10 (number 10 (Nat.toDigits 10 _))
    rw [number_toDigits]

/-- What is written for a number is the shortest text of the multiple next to it, which is
read back at most half a unit of its last place away. -/
theorem fmtFixed_shortest (v : ℚ) {decimals : Nat} (hd : decimals ≤ 6) :
    ∃ x : Decimal, fmtFixed v decimals = x.text ∧ x.Trimmed ∧ Shortest x.text x.value ∧
      NearestMultiple decimals (clamped v) x.value ∧ wordNumber x.text = some x.value ∧
      |x.value - clamped v| ≤ 1 / 2 / 10 ^ decimals := by
  obtain ⟨x, htext, htrimmed, hmagnitude, hminus⟩ := fmtFixed_text v hd
  have hnearest : NearestMultiple decimals (clamped v) x.value := by
    have habs := nearestMultiple_floor decimals (abs_nonneg (clamped v))
    rw [← hmagnitude] at habs
    rcases lt_or_ge (clamped v) 0 with hneg | hpos
    · have hvalue : x.value = -x.magnitude := by
        rw [Decimal.value]
        split_ifs with hm
        · rfl
        · have hzero : x.magnitude = 0 := by
            by_contra hne
            exact hm (hminus.mpr ⟨hneg, hne⟩)
          rw [hzero, neg_zero]
      have hflip := habs.neg
      rwa [abs_of_neg hneg, neg_neg, ← hvalue] at hflip
    · have hvalue : x.value = x.magnitude :=
        if_neg fun hm => absurd (hminus.mp hm).1 (not_lt.mpr hpos)
      rwa [abs_of_nonneg hpos, ← hvalue] at habs
  exact ⟨x, htext, htrimmed, htrimmed.shortest, hnearest, x.wordNumber_text, hnearest.abs_sub_le⟩

/-- A half below zero is rounded away from zero. -/
theorem fmtFixed_shortest_half : 2 ≤ 6 ∧ ∃ x : Decimal, fmtFixed (-1 / 8) 2 = x.text ∧ x.Trimmed ∧
    Shortest x.text x.value ∧ NearestMultiple 2 (clamped (-1 / 8)) x.value ∧
    wordNumber x.text = some x.value ∧ |x.value - clamped (-1 / 8)| ≤ 1 / 2 / 10 ^ 2 :=
  ⟨by decide, fmtFixed_shortest (-1 / 8) (by decide)⟩

end Kura.Engine.Calculator
