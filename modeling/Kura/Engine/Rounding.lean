import Kura.Engine.Number

/-!
# Rounding to doubles

`nearestDouble` rounds a number to a multiple of its unit, the last place of
a double of that size. It keeps the order of numbers, and the numbers it gives
are those it leaves as they are.
-/

namespace Kura.Engine

theorem roundHalfEven_intCast (k : Int) : roundHalfEven (k : ℚ) = k := by
  have hfloor : (k : ℚ).floor = k := Rat.floor_intCast k
  simp [roundHalfEven, hfloor]

theorem floor_le_roundHalfEven (q : ℚ) : ⌊q⌋ ≤ roundHalfEven q := by
  have hfloor : q.floor = ⌊q⌋ := rfl
  simp only [roundHalfEven, hfloor]
  split_ifs
  · exact le_refl _
  · omega
  · exact le_refl _
  · omega

theorem roundHalfEven_le_floor_add_one (q : ℚ) : roundHalfEven q ≤ ⌊q⌋ + 1 := by
  have hfloor : q.floor = ⌊q⌋ := rfl
  simp only [roundHalfEven, hfloor]
  split_ifs
  · omega
  · exact le_refl _
  · omega
  · exact le_refl _

theorem le_roundHalfEven {k : Int} {q : ℚ} (h : (k : ℚ) ≤ q) : k ≤ roundHalfEven q :=
  (Int.le_floor.mpr h).trans (floor_le_roundHalfEven q)

theorem roundHalfEven_le {k : Int} {q : ℚ} (h : q ≤ k) : roundHalfEven q ≤ k := by
  obtain hlt | rfl := lt_or_eq_of_le h
  · have hbelow : ⌊q⌋ < k := Int.floor_lt.mpr hlt
    have hround := roundHalfEven_le_floor_add_one q
    omega
  · exact (roundHalfEven_intCast k).le

/-- Rounding to integers keeps the order. -/
theorem roundHalfEven_mono {p q : ℚ} (h : p ≤ q) : roundHalfEven p ≤ roundHalfEven q := by
  obtain hlt | heq := lt_or_eq_of_le (Int.floor_mono h)
  · have hp := roundHalfEven_le_floor_add_one p
    have hq := floor_le_roundHalfEven q
    omega
  · -- between two integers the parts behind the point decide
    have hfloorp : p.floor = ⌊p⌋ := rfl
    have hfloorq : q.floor = ⌊q⌋ := rfl
    have hrest : p - (⌊p⌋ : ℚ) ≤ q - (⌊q⌋ : ℚ) := by
      rw [heq]
      linarith
    simp only [roundHalfEven, hfloorp, hfloorq]
    rw [heq] at hrest ⊢
    split_ifs
    all_goals first | omega | (exfalso; linarith)

theorem scaleBy_eq (q : ℚ) (e : Int) : scaleBy q e = q * (2 : ℚ) ^ e := by
  cases e with
  | ofNat e => simp [scaleBy]
  | negSucc e =>
      rw [scaleBy, zpow_negSucc, div_eq_mul_inv]
      simp

theorem two_zpow_le_iff {q : ℚ} (hq : 0 < q) {e : Int} : (2 : ℚ) ^ e ≤ q ↔ e ≤ Int.log 2 q := by
  have h := Int.zpow_le_iff_le_log one_lt_two hq (x := e)
  rwa [Nat.cast_ofNat] at h

theorem lt_two_zpow_iff {q : ℚ} (hq : 0 < q) {e : Int} : q < (2 : ℚ) ^ e ↔ Int.log 2 q < e := by
  have h := Int.lt_zpow_iff_log_lt one_lt_two hq (x := e)
  rwa [Nat.cast_ofNat] at h

/-- The last place of a double of the size of a number. -/
def unitOf (q : ℚ) : Int := max (Int.log 2 q - 52) (-1074)

/-- A number rounded to its unit, without a bound. -/
def rounded (q : ℚ) : ℚ := roundHalfEven (q * (2 : ℚ) ^ (-unitOf q)) * (2 : ℚ) ^ unitOf q

/-- The logarithm by the lengths of numerator and denominator. -/
theorem log_eq {q : ℚ} (hq : 0 < q) :
    (if scaleBy 1 ((q.num.natAbs.log2 : Int) - q.den.log2) ≤ q
      then (q.num.natAbs.log2 : Int) - q.den.log2
      else (q.num.natAbs.log2 : Int) - q.den.log2 - 1) = Int.log 2 q := by
  have hnum : q.num.natAbs ≠ 0 := by
    rw [Int.natAbs_ne_zero]
    exact (Rat.num_pos.mpr hq).ne'
  have hvalue : q = (q.num.natAbs : ℚ) / q.den := by
    have habs : (q.num.natAbs : ℚ) = (q.num : ℚ) := by
      rw [Nat.cast_natAbs, abs_of_pos (Rat.num_pos.mpr hq)]
    rw [habs, Rat.num_div_den]
  have hden : (0 : ℚ) < q.den := by exact_mod_cast q.den_pos
  generalize ha : q.num.natAbs.log2 = a
  generalize hb : q.den.log2 = b
  have hnumlow : (2 : ℚ) ^ a ≤ q.num.natAbs := by
    exact_mod_cast (Nat.le_log2 hnum).mp ha.ge
  have hnumhigh : (q.num.natAbs : ℚ) < 2 ^ (a + 1) := by
    exact_mod_cast (Nat.log2_lt hnum).mp (by omega)
  have hdenlow : (2 : ℚ) ^ b ≤ q.den := by
    exact_mod_cast (Nat.le_log2 q.den_ne_zero).mp hb.ge
  have hdenhigh : (q.den : ℚ) < 2 ^ (b + 1) := by
    exact_mod_cast (Nat.log2_lt q.den_ne_zero).mp (by omega)
  have hlow : (2 : ℚ) ^ ((a : Int) - b - 1) ≤ q := by
    rw [hvalue, le_div_iff₀ hden, zpow_sub₀ two_ne_zero, zpow_sub₀ two_ne_zero]
    simp only [zpow_natCast, zpow_one]
    have hpos : (0 : ℚ) < 2 ^ b := by positivity
    rw [div_div, div_mul_eq_mul_div, div_le_iff₀ (by positivity)]
    have hpow : (2 : ℚ) ^ (b + 1) = 2 ^ b * 2 := pow_succ _ _
    nlinarith
  have hhigh : q < (2 : ℚ) ^ ((a : Int) - b + 1) := by
    rw [hvalue, div_lt_iff₀ hden]
    have hsplit : (2 : ℚ) ^ ((a : Int) - b + 1) = 2 ^ (a + 1) / 2 ^ b := by
      rw [show (a : Int) - b + 1 = ((a + 1 : Nat) : Int) - b by push_cast; ring,
        zpow_sub₀ two_ne_zero, zpow_natCast, zpow_natCast]
    rw [hsplit, div_mul_eq_mul_div, lt_div_iff₀ (by positivity)]
    have hpos : (0 : ℚ) < 2 ^ b := by positivity
    nlinarith
  have hlogLow := (two_zpow_le_iff hq).mp hlow
  have hlogHigh := (lt_two_zpow_iff hq).mp hhigh
  rw [scaleBy_eq, one_mul]
  split
  · rename_i hle
    have := (two_zpow_le_iff hq).mp hle
    omega
  · rename_i hlt
    have := (lt_two_zpow_iff hq).mp (not_le.mp hlt)
    omega

/-- Rounding to doubles, told by the unit. -/
theorem nearestDouble_of_pos {q : ℚ} (hq : 0 < q) :
    nearestDouble q = if (2 : ℚ) ^ (1024 : Int) ≤ rounded q then .posInf else .fin (rounded q) := by
  rw [nearestDouble, if_neg hq.ne']
  dsimp only
  rw [log_eq hq, scaleBy_eq, scaleBy_eq, scaleBy_eq, one_mul]
  rfl

theorem two_zpow_pos (e : Int) : (0 : ℚ) < 2 ^ e := zpow_pos two_pos e

theorem unit_mul_cancel (e : Int) : (2 : ℚ) ^ e * 2 ^ (-e) = 1 := by
  rw [← zpow_add₀ two_ne_zero, add_neg_cancel, zpow_zero]

/-- A multiple of the unit below a number is below the rounded number. -/
theorem le_rounded {q : ℚ} {k : Int} (h : k * (2 : ℚ) ^ unitOf q ≤ q) :
    k * (2 : ℚ) ^ unitOf q ≤ rounded q := by
  apply mul_le_mul_of_nonneg_right _ (two_zpow_pos _).le
  have hscaled : (k : ℚ) ≤ q * 2 ^ (-unitOf q) := by
    calc (k : ℚ) = k * 2 ^ unitOf q * 2 ^ (-unitOf q) := by
          rw [mul_assoc, unit_mul_cancel, mul_one]
      _ ≤ q * 2 ^ (-unitOf q) := mul_le_mul_of_nonneg_right h (two_zpow_pos _).le
  exact_mod_cast le_roundHalfEven hscaled

/-- A multiple of the unit above a number is above the rounded number. -/
theorem rounded_le {q : ℚ} {k : Int} (h : q ≤ k * (2 : ℚ) ^ unitOf q) :
    rounded q ≤ k * (2 : ℚ) ^ unitOf q := by
  apply mul_le_mul_of_nonneg_right _ (two_zpow_pos _).le
  have hscaled : q * 2 ^ (-unitOf q) ≤ (k : ℚ) := by
    calc q * 2 ^ (-unitOf q) ≤ k * 2 ^ unitOf q * 2 ^ (-unitOf q) :=
          mul_le_mul_of_nonneg_right h (two_zpow_pos _).le
      _ = k := by rw [mul_assoc, unit_mul_cancel, mul_one]
  exact_mod_cast roundHalfEven_le hscaled

/-- Multiples of the unit are not rounded. -/
theorem rounded_of_multiple {q : ℚ} {k : Int} (h : q = k * (2 : ℚ) ^ unitOf q) : rounded q = q := by
  have hup := rounded_le h.le
  have hdown := le_rounded h.ge
  rw [← h] at hup hdown
  exact le_antisymm hup hdown

/-- A power of two is a multiple of each smaller unit. -/
theorem two_zpow_eq_multiple {u e : Int} (h : u ≤ e) : ∃ k : Int, (2 : ℚ) ^ e = k * 2 ^ u := by
  refine ⟨2 ^ (e - u).toNat, ?_⟩
  push_cast
  rw [← zpow_natCast, ← zpow_add₀ two_ne_zero]
  congr 1
  omega

theorem two_zpow_le_rounded {q : ℚ} {e : Int} (hu : unitOf q ≤ e) (h : (2 : ℚ) ^ e ≤ q) :
    (2 : ℚ) ^ e ≤ rounded q := by
  obtain ⟨k, hk⟩ := two_zpow_eq_multiple hu
  rw [hk] at h ⊢
  exact le_rounded h

theorem rounded_le_two_zpow {q : ℚ} {e : Int} (hu : unitOf q ≤ e) (h : q ≤ (2 : ℚ) ^ e) :
    rounded q ≤ (2 : ℚ) ^ e := by
  obtain ⟨k, hk⟩ := two_zpow_eq_multiple hu
  rw [hk] at h ⊢
  exact rounded_le h

theorem rounded_nonneg {q : ℚ} (hq : 0 ≤ q) : 0 ≤ rounded q := by
  have h := le_rounded (q := q) (k := 0) (by simpa using hq)
  simpa using h

theorem unitOf_mono {p q : ℚ} (hp : 0 < p) (h : p ≤ q) : unitOf p ≤ unitOf q := by
  have hlog := Int.log_mono_right (b := 2) hp h
  simp only [unitOf]
  omega

/-- Rounding keeps the order. -/
theorem rounded_mono {p q : ℚ} (hp : 0 < p) (h : p ≤ q) : rounded p ≤ rounded q := by
  obtain hlt | heq := lt_or_eq_of_le (unitOf_mono hp h)
  · -- a power of two lies between numbers with different units
    have hq : 0 < q := hp.trans_le h
    have hlogs : Int.log 2 p < Int.log 2 q ∧ unitOf q = Int.log 2 q - 52 := by
      simp only [unitOf] at hlt ⊢
      omega
    have hbelow : p ≤ (2 : ℚ) ^ Int.log 2 q := ((lt_two_zpow_iff hp).mpr hlogs.1).le
    have habove : (2 : ℚ) ^ Int.log 2 q ≤ q := (two_zpow_le_iff hq).mpr le_rfl
    calc rounded p ≤ (2 : ℚ) ^ Int.log 2 q := rounded_le_two_zpow (by omega) hbelow
      _ ≤ rounded q := two_zpow_le_rounded (by omega) habove
  · rw [rounded, rounded, heq]
    apply mul_le_mul_of_nonneg_right _ (two_zpow_pos _).le
    have hscaled := mul_le_mul_of_nonneg_right h (two_zpow_pos (-unitOf q)).le
    exact_mod_cast roundHalfEven_mono hscaled

/-- A rounded number is at most the next power of two. -/
theorem rounded_le_next {q : ℚ} (hq : 0 < q) (e : Int) (he : -1074 ≤ e) (h : q ≤ (2 : ℚ) ^ e) :
    rounded q ≤ (2 : ℚ) ^ e := by
  obtain hlt | heq := lt_or_eq_of_le h
  · apply rounded_le_two_zpow _ h
    have hlog := (lt_two_zpow_iff hq).mp hlt
    simp only [unitOf]
    omega
  · apply rounded_le_two_zpow _ h
    have hlog : Int.log 2 q = e := by
      rw [heq]
      exact_mod_cast Int.log_zpow (R := ℚ) one_lt_two e
    simp only [unitOf]
    omega

/-- Rounded numbers are not rounded again. -/
theorem rounded_rounded {q : ℚ} (hq : 0 < q) (hpos : 0 < rounded q) :
    rounded (rounded q) = rounded q := by
  have hlog := (lt_two_zpow_iff hq).mpr (Int.lt_succ (Int.log 2 q))
  have hlow := (two_zpow_le_iff hq).mpr le_rfl
  have hmultiple : ∃ k : Int, rounded q = k * (2 : ℚ) ^ unitOf q := ⟨_, rfl⟩
  have hupper : rounded q ≤ (2 : ℚ) ^ max (Int.log 2 q + 1) (-1074) := by
    apply rounded_le_next hq _ (le_max_right _ _)
    apply hlog.le.trans
    exact zpow_le_zpow_right₀ one_le_two (le_max_left _ _)
  obtain hlt | heq := lt_or_eq_of_le hupper
  · -- the rounded number has the same unit
    have hsame : unitOf (rounded q) = unitOf q := by
      have hlogUp := (lt_two_zpow_iff hpos).mp hlt
      by_cases hnormal : -1022 ≤ Int.log 2 q
      · have hlogLow := (two_zpow_le_iff hpos).mp
          (two_zpow_le_rounded (by simp only [unitOf]; omega) hlow)
        simp only [unitOf]
        omega
      · simp only [unitOf]
        omega
    obtain ⟨k, hk⟩ := hmultiple
    apply rounded_of_multiple (k := k)
    rw [hsame]
    exact hk
  · -- it is a power of two
    have hpower : Int.log 2 (rounded q) = max (Int.log 2 q + 1) (-1074) := by
      rw [heq]
      exact_mod_cast Int.log_zpow (R := ℚ) one_lt_two _
    obtain ⟨k, hk⟩ := two_zpow_eq_multiple (u := unitOf (rounded q))
      (e := max (Int.log 2 q + 1) (-1074)) (by simp only [unitOf]; omega)
    apply rounded_of_multiple (k := k)
    rw [← hk]
    exact heq

theorem rounded_zero : rounded 0 = 0 := rounded_of_multiple (k := 0) (by simp)

/-- A value that a double can have. -/
def Double.IsDouble : Double → Prop
  | .fin r => |r| < (2 : ℚ) ^ (1024 : Int) ∧ rounded |r| = |r|
  | _ => True

/-- The conversion of an integer. -/
def ofInt (n : Int) : Double := if n < 0 then (nearestDouble (-n)).neg else nearestDouble n

theorem nearestDouble_eq {q : ℚ} (hq : 0 ≤ q) :
    nearestDouble q = if (2 : ℚ) ^ (1024 : Int) ≤ rounded q then .posInf else .fin (rounded q) := by
  obtain hpos | rfl := lt_or_eq_of_le hq
  · exact nearestDouble_of_pos hpos
  · rw [rounded_zero, if_neg (two_zpow_pos _).not_ge, nearestDouble, if_pos rfl]

theorem isDouble_nearestDouble {q : ℚ} (hq : 0 ≤ q) : (nearestDouble q).IsDouble := by
  rw [nearestDouble_eq hq]
  split
  · trivial
  · rename_i hsmall
    have hnonneg := rounded_nonneg hq
    rw [Double.IsDouble, abs_of_nonneg hnonneg]
    refine ⟨not_le.mp hsmall, ?_⟩
    obtain hpos | hzero := lt_or_eq_of_le hnonneg
    · obtain hq' | rfl := lt_or_eq_of_le hq
      · exact rounded_rounded hq' hpos
      · rw [rounded_zero, rounded_zero]
    · rw [← hzero, rounded_zero]

theorem isDouble_neg {v : Double} (h : v.IsDouble) : v.neg.IsDouble := by
  cases v with
  | fin r => simpa [Double.neg, Double.IsDouble, abs_neg] using h
  | nan => trivial
  | negInf => trivial
  | posInf => trivial

/-- Whole numbers up to `2 ^ 53` are doubles. -/
theorem nearestDouble_natCast {n : Nat} (h : n ≤ 2 ^ 53) : nearestDouble n = .fin n := by
  have hround : rounded (n : ℚ) = n := by
    obtain rfl | hpos := Nat.eq_zero_or_pos n
    · exact_mod_cast rounded_zero
    · have hq : (0 : ℚ) < n := by exact_mod_cast hpos
      obtain hlt | rfl := lt_or_eq_of_le h
      · have hlog : Int.log 2 (n : ℚ) < 53 := (lt_two_zpow_iff hq).mp (by exact_mod_cast hlt)
        have hunit : unitOf n ≤ 0 := by
          simp only [unitOf]
          omega
        obtain ⟨k, hk⟩ := two_zpow_eq_multiple hunit
        rw [zpow_zero] at hk
        apply rounded_of_multiple (k := n * k)
        push_cast
        rw [mul_assoc, ← hk, mul_one]
      · have hpower : ((2 ^ 53 : Nat) : ℚ) = (2 : ℚ) ^ (53 : Int) := by norm_num
        have hlog : Int.log 2 ((2 ^ 53 : Nat) : ℚ) = 53 := by
          rw [hpower]
          exact_mod_cast Int.log_zpow (R := ℚ) one_lt_two 53
        obtain ⟨k, hk⟩ := two_zpow_eq_multiple (u := unitOf ((2 ^ 53 : Nat) : ℚ)) (e := 53)
          (by simp only [unitOf]; omega)
        apply rounded_of_multiple (k := k)
        rw [← hk]
        exact hpower
  rw [nearestDouble_eq (by positivity), hround, if_neg]
  rw [not_le]
  calc (n : ℚ) ≤ ((2 ^ 53 : Nat) : ℚ) := by exact_mod_cast h
    _ = (2 : ℚ) ^ (53 : Int) := by norm_num
    _ < (2 : ℚ) ^ (1024 : Int) := zpow_lt_zpow_right₀ one_lt_two (by norm_num)

/-- Numbers that are not too large have a finite double. -/
theorem nearestDouble_finite {q : ℚ} (hq : 0 ≤ q) (h : q ≤ (2 : ℚ) ^ (1023 : Int)) :
    ∃ r, nearestDouble q = .fin r := by
  have hsmall : rounded q < (2 : ℚ) ^ (1024 : Int) := by
    obtain hpos | rfl := lt_or_eq_of_le hq
    · calc rounded q ≤ (2 : ℚ) ^ (1023 : Int) := rounded_le_next hpos 1023 (by norm_num) h
        _ < (2 : ℚ) ^ (1024 : Int) := zpow_lt_zpow_right₀ one_lt_two (by norm_num)
    · rw [rounded_zero]
      exact two_zpow_pos _
  rw [nearestDouble_eq hq, if_neg (not_le.mpr hsmall)]
  exact ⟨_, rfl⟩

/-- Rounding does not lead over a double from below. -/
theorem rounded_le_of_le {q r : ℚ} (hq : 0 ≤ q) (hr : rounded |r| = |r|) (h : q ≤ r) :
    rounded q ≤ r := by
  have habs : |r| = r := abs_of_nonneg (hq.trans h)
  rw [habs] at hr
  obtain hpos | rfl := lt_or_eq_of_le hq
  · rw [← hr]
    exact rounded_mono hpos h
  · rw [rounded_zero]
    exact h

/-- Rounding does not lead over a double from above. -/
theorem le_rounded_of_le {q r : ℚ} (hq : 0 ≤ q) (hr : rounded |r| = |r|) (h : r ≤ q) :
    r ≤ rounded q := by
  obtain hneg | hnonneg := lt_or_ge r 0
  · exact hneg.le.trans (rounded_nonneg hq)
  · rw [abs_of_nonneg hnonneg] at hr
    obtain hpos | rfl := lt_or_eq_of_le hnonneg
    · rw [← hr]
      exact rounded_mono hpos h
    · exact rounded_nonneg hq

/-- A number and its double lie on the same side of every other double. -/
theorem lt_nearestDouble {q : ℚ} (hq : 0 ≤ q) {v : Double} (hv : v.IsDouble)
    (hne : nearestDouble q ≠ v) :
    (nearestDouble q).lt v = (Double.fin q).lt v ∧ v.lt (nearestDouble q) = v.lt (.fin q) := by
  rw [nearestDouble_eq hq] at hne ⊢
  cases v with
  | nan =>
      split
      · exact ⟨rfl, rfl⟩
      · exact ⟨rfl, rfl⟩
  | negInf =>
      split
      · exact ⟨rfl, rfl⟩
      · exact ⟨rfl, rfl⟩
  | posInf =>
      split
      · rename_i hlarge
        rw [if_pos hlarge] at hne
        exact absurd rfl hne
      · exact ⟨rfl, rfl⟩
  | fin r =>
      obtain ⟨hbound, hround⟩ := hv
      have hbelow := rounded_le_of_le hq hround
      have habove := le_rounded_of_le hq hround
      split
      · rename_i hlarge
        have hover : r < q := by
          by_contra hnot
          have := hbelow (not_lt.mp hnot)
          have := le_abs_self r
          linarith
        simp only [Double.lt]
        constructor
        · rw [eq_comm, decide_eq_false_iff_not]
          exact hover.not_gt
        · rw [eq_comm, decide_eq_true_eq]
          exact hover
      · rename_i hsmall
        rw [if_neg hsmall] at hne
        have hne' : rounded q ≠ r := fun h => hne (by rw [h])
        simp only [Double.lt, decide_eq_decide]
        constructor
        · constructor
          · intro hlt
            by_contra hnot
            exact absurd (habove (not_lt.mp hnot)) (not_le.mpr hlt)
          · intro hlt
            exact lt_of_le_of_ne (hbelow hlt.le) hne'
        · constructor
          · intro hlt
            by_contra hnot
            exact absurd (hbelow (not_lt.mp hnot)) (not_le.mpr hlt)
          · intro hlt
            exact lt_of_le_of_ne (habove hlt.le) hne'.symm

end Kura.Engine
