import Kura.Engine.ScrubToUnicode
import Kura.Engine.ToUnicodeAgree

/-!
# The characters of an edited string

The edit of a string writes a replacement over each of its forbidden characters
and leaves the others as they are.
-/

namespace Kura.Engine.ScrubToUnicode

open CMap (strtoul hexPad)
open ToUnicode (Digital wholeUnits decodePaired isHigh isLow combined hex4 strtoul16)

/-- The characters that may not stay. -/
def forbidden (banned : Bool) (cp : Nat) : Bool :=
  cp == 0 || cp == 0xFEFF || cp == 0xFFFE ||
    (banned && ((0xE000 ≤ cp && cp ≤ 0xF8FF) || privatePlane cp))

/-- What is written over a forbidden character. -/
def replacement (cp : Nat) : Nat :=
  let win := if cp ≤ 0xFFFF ∧ cp &&& 0xFF00 = 0xF000 then winAnsiToUnicode (cp &&& 0xFF) else 0
  if win ≠ 0 then win else 0xFFFD

def scrubChar (banned : Bool) (cp : Nat) : Nat :=
  if forbidden banned cp then replacement cp else cp

theorem winAnsiToUnicode_le (code : Nat) : winAnsiToUnicode code ≤ 0x2122 := by
  have hhigh : ∀ u ∈ kWinAnsiHigh, u ≤ 0x2122 := by decide +kernel
  rw [winAnsiToUnicode, asciiOr]
  split
  · exact Nat.zero_le _
  · split
    · rw [List.getD_eq_getElem?_getD]
      cases hget : kWinAnsiHigh[code - 0x80]? with
      | none => exact Nat.zero_le _
      | some u => exact hhigh u (List.mem_of_getElem? hget)
    · split
      · omega
      · exact Nat.zero_le _

/-- A replacement is an assigned character of one unit. -/
theorem replacement_spec (cp : Nat) :
    replacement cp = 0xFFFD ∨ 0 < replacement cp ∧ replacement cp ≤ 0x2122 := by
  rw [replacement]
  split
  · split
    · rename_i hwin
      exact Or.inr ⟨Nat.pos_of_ne_zero hwin, winAnsiToUnicode_le _⟩
    · exact Or.inl rfl
  · exact Or.inl rfl

theorem forbidden_of_le {banned : Bool} {cp : Nat} (hpos : 0 < cp) (hle : cp ≤ 0x2122) :
    forbidden banned cp = false := by
  simp only [forbidden, privatePlane]
  grind

theorem forbidden_replacement (banned : Bool) (cp : Nat) :
    forbidden banned (replacement cp) = false := by
  obtain heq | ⟨hpos, hle⟩ := replacement_spec cp
  · rw [heq]
    cases banned <;> decide
  · exact forbidden_of_le hpos hle

theorem forbidden_scrubChar (banned : Bool) (cp : Nat) :
    forbidden banned (scrubChar banned cp) = false := by
  rw [scrubChar]
  split
  · exact forbidden_replacement banned cp
  · rename_i h
    exact Bool.eq_false_of_not_eq_true h

theorem scrubChar_of_not_forbidden {banned : Bool} {cp : Nat} (h : forbidden banned cp = false) :
    scrubChar banned cp = cp := by
  rw [scrubChar, h]
  rfl

/-- What is written for the units of a string. -/
def scrubUnits (banned : Bool) : List Nat → List Nat
  | v :: lo :: rest =>
      if banned && isHigh v && isLow lo then
        if privatePlane (combined v lo) then 0xFFFD :: scrubUnits banned rest
        else v :: lo :: scrubUnits banned rest
      else scrubChar banned v :: scrubUnits banned (lo :: rest)
  | [v] => [scrubChar banned v]
  | [] => []

theorem forbidden_surrogate {banned : Bool} {u : Nat} (h : 0xD800 ≤ u ∧ u < 0xE000) :
    forbidden banned u = false := by
  simp only [forbidden, privatePlane]
  grind

theorem surrogate_scrubChar {banned : Bool} {u : Nat}
    (h : 0xD800 ≤ scrubChar banned u ∧ scrubChar banned u < 0xE000) : scrubChar banned u = u := by
  rw [scrubChar] at h ⊢
  split at h
  · have hspec := replacement_spec u
    omega
  · rename_i hnot
    rw [if_neg hnot]

theorem isHigh_iff {u : Nat} : isHigh u = true ↔ 0xD800 ≤ u ∧ u < 0xDC00 := by
  rw [isHigh, Bool.and_eq_true, decide_eq_true_eq, decide_eq_true_eq]

theorem isLow_iff {u : Nat} : isLow u = true ↔ 0xDC00 ≤ u ∧ u < 0xE000 := by
  rw [isLow, Bool.and_eq_true, decide_eq_true_eq, decide_eq_true_eq]

theorem scrubUnits_low (banned : Bool) {lo : Nat} (h : isLow lo = true) (rest : List Nat) :
    scrubUnits banned (lo :: rest) = lo :: scrubUnits banned rest := by
  have hlow := isLow_iff.mp h
  have hhigh : isHigh lo = false := by
    rw [Bool.eq_false_iff, Ne, isHigh_iff]
    omega
  have hkeep : scrubChar banned lo = lo :=
    scrubChar_of_not_forbidden (forbidden_surrogate (by omega))
  cases rest with
  | nil => rw [scrubUnits, hkeep, scrubUnits]
  | cons l rest => rw [scrubUnits, hhigh, Bool.and_false, Bool.false_and, if_neg (by decide), hkeep]

/-- A low surrogate comes first only where one came first. -/
theorem scrubUnits_head {banned : Bool} {lo x : Nat} {rest more : List Nat}
    (h : scrubUnits banned (lo :: rest) = x :: more) (hx : isLow x = true) : isLow lo = true := by
  have hx' := isLow_iff.mp hx
  have hchar : scrubChar banned lo = x → isLow lo = true := by
    intro heq
    have hsame : scrubChar banned lo = lo := surrogate_scrubChar (by omega)
    rw [← hsame, heq]
    exact hx
  cases rest with
  | nil =>
      rw [scrubUnits] at h
      exact hchar (List.cons.inj h).1
  | cons l rest =>
      rw [scrubUnits] at h
      split at h
      · split at h
        · rw [List.cons.injEq] at h
          omega
        · rw [(List.cons.inj h).1]
          exact hx
      · exact hchar (List.cons.inj h).1

theorem decodePaired_cons {u : Nat} {us : List Nat}
    (h : isHigh u = true → ∀ x more, us = x :: more → isLow x = false) :
    decodePaired (u :: us) = u :: decodePaired us := by
  cases us with
  | nil => rfl
  | cons x more =>
      rw [decodePaired, if_neg]
      rintro hpair
      obtain ⟨hu, hx⟩ := Bool.and_eq_true_iff.mp hpair
      rw [h hu x more rfl] at hx
      cases hx

theorem le_combined {u l : Nat} (hu : isHigh u = true) (hl : isLow l = true) :
    0x10000 ≤ combined u l := by
  have hu' := isHigh_iff.mp hu
  have hl' := isLow_iff.mp hl
  have h : combined u l = 0x10000 + (u - 0xD800) * 0x400 + l - 0xDC00 := rfl
  omega

/-- Of the characters of two units only those of the private planes are forbidden. -/
theorem forbidden_of_large {banned : Bool} {cp : Nat} (h : 0x10000 ≤ cp) :
    forbidden banned cp = (banned && privatePlane cp) := by
  have hone : (cp == 0) = false ∧ (cp == 0xFEFF) = false ∧ (cp == 0xFFFE) = false := by
    simp only [beq_eq_false_iff_ne]
    omega
  have htwo : decide (cp ≤ 0xF8FF) = false := decide_eq_false (by omega)
  rw [forbidden, hone.1, hone.2.1, hone.2.2, htwo, Bool.and_false, Bool.false_or, Bool.false_or,
    Bool.false_or, Bool.false_or]

/-- A pair that may stay is left as it is. -/
theorem scrubUnits_pair {banned : Bool} {v lo : Nat} (hv : isHigh v = true) (hlo : isLow lo = true)
    (hplane : (banned && privatePlane (combined v lo)) = false) (rest : List Nat) :
    scrubUnits banned (v :: lo :: rest) = v :: lo :: scrubUnits banned rest := by
  have hv' := isHigh_iff.mp hv
  have hkeep : scrubChar banned v = v :=
    scrubChar_of_not_forbidden (forbidden_surrogate (by omega))
  rw [scrubUnits, hv, hlo, Bool.and_true, Bool.and_true]
  cases banned with
  | false => rw [if_neg (by decide), hkeep, scrubUnits_low false hlo]
  | true =>
      rw [Bool.true_and] at hplane
      rw [if_pos rfl, hplane, if_neg (by decide)]

/-- The characters of the units that are written. -/
theorem decodePaired_scrubUnits (banned : Bool) (us : List Nat) :
    decodePaired (scrubUnits banned us) = (decodePaired us).map (scrubChar banned) := by
  fun_induction decodePaired us with
  | case1 v lo rest hpair ih =>
      obtain ⟨hv, hlo⟩ := Bool.and_eq_true_iff.mp hpair
      have hforbidden :
          forbidden banned (combined v lo) = (banned && privatePlane (combined v lo)) :=
        forbidden_of_large (le_combined hv hlo)
      rw [List.map_cons, ← ih]
      cases hplane : banned && privatePlane (combined v lo) with
      | true =>
          obtain ⟨rfl, hp⟩ := Bool.and_eq_true_iff.mp hplane
          have hlarge := le_combined hv hlo
          have hnew : scrubChar true (combined v lo) = 0xFFFD := by
            have hnot : ¬ (combined v lo ≤ 0xFFFF ∧ combined v lo &&& 0xFF00 = 0xF000) :=
              fun h => absurd h.1 (by omega)
            rw [scrubChar, hforbidden, hp, Bool.and_true, if_pos rfl, replacement, if_neg hnot]
            rfl
          rw [hnew, scrubUnits, hv, hlo, hp, Bool.and_true, Bool.and_true, if_pos rfl, if_pos rfl,
            decodePaired_cons]
          intro h
          cases h
      | false =>
          rw [hplane] at hforbidden
          rw [scrubUnits_pair hv hlo hplane, decodePaired, if_pos hpair,
            scrubChar_of_not_forbidden hforbidden]
  | case2 v lo rest hpair ih =>
      have hnot : (banned && isHigh v && isLow lo) = false := by
        rw [Bool.and_assoc, Bool.eq_false_of_not_eq_true hpair, Bool.and_false]
      rw [scrubUnits, hnot, if_neg (by decide), List.map_cons, ← ih, decodePaired_cons]
      intro hhigh x more hmore
      -- the first unit was a high surrogate before, and so what follows is no low one
      have hv := isHigh_iff.mp hhigh
      rw [surrogate_scrubChar (by omega)] at hhigh
      by_contra hlow
      have hlo := scrubUnits_head hmore (Bool.eq_true_of_not_eq_false hlow)
      exact hpair (Bool.and_eq_true_iff.mpr ⟨hhigh, hlo⟩)
  | case3 u => rfl
  | case4 => rfl

/-- The characters of a string of units. -/
def chars (digits : Bytes) : List Nat := decodePaired (wholeUnits digits)

/-- Four digits write any unit of 16 bits. -/
theorem hexPad_eq {n : Nat} (h : n < 65536) : hexPad 4 n = hex4 n := by
  have hdigit : ∀ m, m < 16 → 0 < m → Nat.digits 16 m = [m] := fun m hlt hpos =>
    Nat.digits_of_lt 16 m (Nat.ne_of_gt hpos) hlt
  have hstep : ∀ m, 0 < m → Nat.digits 16 m = m % 16 :: Nat.digits 16 (m / 16) := fun m hpos =>
    Nat.digits_def' (by decide) hpos
  have hcases : n = 0 ∨ 0 < n ∧ n < 16 ∨ 16 ≤ n ∧ n < 256 ∨ 256 ≤ n ∧ n < 4096 ∨ 4096 ≤ n := by
    omega
  rw [hexPad, hex4]
  rcases hcases with rfl | h1 | h2 | h3 | h4
  · rfl
  · have e3 : n / 16 ^ 3 % 16 = 0 := by omega
    have e2 : n / 16 ^ 2 % 16 = 0 := by omega
    have e1 : n / 16 ^ 1 % 16 = 0 := by omega
    have e0 : n / 16 ^ 0 % 16 = n := by omega
    rw [hdigit n h1.2 h1.1, List.map_cons, List.map_cons, List.map_cons, List.map_cons, e3, e2, e1,
      e0]
    rfl
  · have e3 : n / 16 ^ 3 % 16 = 0 := by omega
    have e2 : n / 16 ^ 2 % 16 = 0 := by omega
    have e1 : n / 16 ^ 1 % 16 = n / 16 := by omega
    have e0 : n / 16 ^ 0 % 16 = n % 16 := by omega
    rw [hstep n (by omega), hdigit (n / 16) (by omega) (by omega), List.map_cons, List.map_cons,
      List.map_cons, List.map_cons, e3, e2, e1, e0]
    rfl
  · have e3 : n / 16 ^ 3 % 16 = 0 := by omega
    have e2 : n / 16 ^ 2 % 16 = n / 16 / 16 := by omega
    have e1 : n / 16 ^ 1 % 16 = n / 16 % 16 := by omega
    have e0 : n / 16 ^ 0 % 16 = n % 16 := by omega
    rw [hstep n (by omega), hstep (n / 16) (by omega),
      hdigit (n / 16 / 16) (by omega) (by omega), List.map_cons, List.map_cons,
      List.map_cons, List.map_cons, e3, e2, e1, e0]
    rfl
  · have e3 : n / 16 ^ 3 % 16 = n / 16 / 16 / 16 := by omega
    have e2 : n / 16 ^ 2 % 16 = n / 16 / 16 % 16 := by omega
    have e1 : n / 16 ^ 1 % 16 = n / 16 % 16 := by omega
    have e0 : n / 16 ^ 0 % 16 = n % 16 := by omega
    rw [hstep n (by omega), hstep (n / 16) (by omega), hstep (n / 16 / 16) (by omega),
      hdigit (n / 16 / 16 / 16) (by omega) (by omega), List.map_cons, List.map_cons,
      List.map_cons, List.map_cons, e3, e2, e1, e0]
    rfl

theorem not_isSpace_of_isXDigit {c : UInt8} (h : isXDigit c = true) :
    isSpace c = false ∧ c ≠ 0x2D ∧ c ≠ 0x2B ∧ c ≠ 0x78 ∧ c ≠ 0x58 := by
  have hall : ∀ n : Nat, n < 256 → isXDigit (UInt8.ofNat n) = true →
      isSpace (UInt8.ofNat n) = false ∧ UInt8.ofNat n ≠ 0x2D ∧ UInt8.ofNat n ≠ 0x2B ∧
        UInt8.ofNat n ≠ 0x78 ∧ UInt8.ofNat n ≠ 0x58 := by
    decide +kernel
  have hc := hall c.toNat (UInt8.toNat_lt c)
  rw [UInt8.ofNat_toNat] at hc
  exact hc h

/-- Digits are read as a number. -/
theorem strtoul_digital {a b : UInt8} {s : Bytes} (h : Digital (a :: b :: s)) :
    strtoul (a :: b :: s) = strtoul16 (a :: b :: s) := by
  obtain ⟨hspace, hminus, hplus, _⟩ := not_isSpace_of_isXDigit h.head
  obtain ⟨_, _, _, hx, hX⟩ := not_isSpace_of_isXDigit h.tail.head
  have hdrop : (a :: b :: s).dropWhile isSpace = a :: b :: s :=
    List.dropWhile_cons_of_neg (by rw [hspace]; decide)
  have hsign : ¬ ((a :: b :: s).head? = some 0x2D ∨ (a :: b :: s).head? = some 0x2B) := by
    rintro (h | h)
    · exact hminus (Option.some.inj h)
    · exact hplus (Option.some.inj h)
  have hmark : ¬ ((a :: b :: s).take 2 = lit "0x" ∨ (a :: b :: s).take 2 = lit "0X") := by
    rintro (h | h)
    · exact hx (List.cons.inj (List.cons.inj h).2).1
    · exact hX (List.cons.inj (List.cons.inj h).2).1
  have hneg : ¬ (a :: b :: s).head? = some 0x2D := fun h => hsign (Or.inl h)
  rw [strtoul, strtoul16]
  simp only [hdrop, hneg, false_or]
  rw [if_neg (fun h => hsign (Or.inr h) : ¬ (a :: b :: s).head? = some 0x2B),
    if_neg (fun h => hmark h.1 : ¬ (((a :: b :: s).take 2 = lit "0x" ∨ (a :: b :: s).take 2 =
      lit "0X") ∧ ((a :: b :: s).drop 2).head?.any isXDigit = true))]
  rw [if_neg not_false]
  split <;> omega

/-- The value of four digits. -/
theorem unitOf_quad {a b c d : UInt8} (h : Digital [a, b, c, d]) :
    unitOf [a, b, c, d] = strtoul16 [a, b, c, d] ∧ unitOf [a, b, c, d] < 65536 := by
  have hvalue := ToUnicode.strtoul16_four h.head h.tail.head h.tail.tail.head h.tail.tail.tail.head
  have ha := ToUnicode.hexValue_lt h.head
  have hb := ToUnicode.hexValue_lt h.tail.head
  have hc := ToUnicode.hexValue_lt h.tail.tail.head
  have hd := ToUnicode.hexValue_lt h.tail.tail.tail.head
  rw [unitOf, strtoul_digital h, hvalue]
  omega

theorem replacement_lt (cp : Nat) : replacement cp < 65536 := by
  have h := replacement_spec cp
  omega

/-- The digits that are written over a unit. -/
theorem scrubUnit_eq {banned : Bool} {v : Nat} (hv : v < 65536) :
    scrubUnit banned v = if forbidden banned v then some (hex4 (replacement v)) else none := by
  have hplane : privatePlane v = false := by
    rw [privatePlane, decide_eq_false (by omega : ¬ 0xF0000 ≤ v),
      decide_eq_false (by omega : ¬ 0x100000 ≤ v)]
    rfl
  have hreplacement := replacement_lt v
  rw [scrubUnit]
  by_cases hone : v = 0 ∨ v = 0xFEFF ∨ v = 0xFFFE
  · rw [if_pos hone]
    rcases hone with rfl | rfl | rfl
    · cases banned <;> rfl
    · cases banned <;> decide
    · cases banned <;> decide
  · rw [if_neg hone]
    have hnot : (v == 0 || v == 0xFEFF || v == 0xFFFE) = false := by
      rw [not_or, not_or] at hone
      rw [beq_false_of_ne hone.1, beq_false_of_ne hone.2.1, beq_false_of_ne hone.2.2]
      rfl
    rw [forbidden, hnot, hplane, Bool.false_or, Bool.or_false, ← hexPad_eq hreplacement,
      replacement]
    have hsmall : v ≤ 0xFFFF := by omega
    by_cases hprivate : banned = true ∧ 0xE000 ≤ v ∧ v ≤ 0xF8FF
    · obtain ⟨rfl, hlo, hhi⟩ := hprivate
      rw [if_pos ⟨rfl, hlo, hhi⟩, decide_eq_true hlo, decide_eq_true hhi, Bool.and_self,
        Bool.and_self, if_pos rfl]
      simp only [hsmall, true_and]
    · rw [if_neg hprivate, if_neg]
      intro h
      rw [Bool.and_eq_true, Bool.and_eq_true, decide_eq_true_eq, decide_eq_true_eq] at h
      exact hprivate h

/-- Four digits. -/
structure Quad (quad : Bytes) : Prop where
  length : quad.length = 4
  digital : Digital quad

theorem Quad.units {quad : Bytes} (h : Quad quad) (s : Bytes) :
    wholeUnits (quad ++ s) = unitOf quad :: wholeUnits s ∧ unitOf quad < 65536 := by
  obtain ⟨hlen, hdigital⟩ := h
  obtain ⟨a, b, c, d, rfl⟩ := List.length_eq_four.mp hlen
  obtain ⟨hvalue, hlt⟩ := unitOf_quad hdigital
  refine ⟨?_, hlt⟩
  rw [hvalue]
  rfl

theorem quad_hex4 {n : Nat} (h : n < 65536) : Quad (hex4 n) ∧ unitOf (hex4 n) = n := by
  have hquad : Quad (hex4 n) := ⟨rfl, ToUnicode.hex4_digital h⟩
  have hunits := (hquad.units []).1
  rw [List.append_nil, ToUnicode.wholeUnits_hex4 h] at hunits
  exact ⟨hquad, (List.cons.inj hunits).1.symm⟩

theorem digital_append {s t : Bytes} (hs : Digital s) (ht : Digital t) : Digital (s ++ t) := by
  intro c hc
  obtain hc | hc := List.mem_append.mp hc
  · exact hs c hc
  · exact ht c hc

/-- What an edit of a string leaves. -/
structure Edited (banned : Bool) (hex : Bytes) (out : Bytes) : Prop where
  units : wholeUnits out = scrubUnits banned (wholeUnits hex)
  digital : Digital out
  whole : 4 ∣ out.length

theorem edited_nil (banned : Bool) : Edited banned [] [] :=
  ⟨rfl, fun _ h => absurd h List.not_mem_nil, dvd_zero 4⟩

/-- A unit in front of others. -/
theorem edited_writeUnit {banned : Bool} {quad hex : Bytes} {more : Bytes × Bool} (hq : Quad quad)
    (hmore : Edited banned hex more.1)
    (hunits : scrubUnits banned (unitOf quad :: wholeUnits hex) =
      scrubChar banned (unitOf quad) :: scrubUnits banned (wholeUnits hex)) :
    Edited banned (quad ++ hex) (writeUnit banned quad more).1 := by
  obtain ⟨hquad, hlt⟩ := hq.units hex
  have hfront : ∀ new : Bytes, Quad new → unitOf new = scrubChar banned (unitOf quad) →
      Edited banned (quad ++ hex) (new ++ more.1) := by
    intro new hnew hvalue
    refine ⟨?_, digital_append hnew.digital hmore.digital, ?_⟩
    · rw [(hnew.units more.1).1, hquad, hunits, hvalue, hmore.units]
    · rw [List.length_append, hnew.length]
      exact (Nat.dvd_add_right (dvd_refl 4)).mpr hmore.whole
  rw [writeUnit, scrubUnit_eq hlt]
  cases hforbidden : forbidden banned (unitOf quad) with
  | true =>
      obtain ⟨hnew, hvalue⟩ := quad_hex4 (replacement_lt (unitOf quad))
      refine hfront _ hnew ?_
      rw [hvalue, scrubChar, hforbidden, if_pos rfl]
  | false => exact hfront quad hq (scrubChar_of_not_forbidden hforbidden).symm

theorem high_eq (v : Nat) : (decide (0xD800 ≤ v) && decide (v ≤ 0xDBFF)) = isHigh v := by
  rw [isHigh, decide_eq_decide.mpr (Nat.lt_succ_iff (n := 0xDBFF)).symm]

theorem low_eq (v : Nat) : (decide (0xDC00 ≤ v) && decide (v ≤ 0xDFFF)) = isLow v := by
  rw [isLow, decide_eq_decide.mpr (Nat.lt_succ_iff (n := 0xDFFF)).symm]

theorem quad_of_digital {a b c d : UInt8} {s : Bytes} (h : Digital (a :: b :: c :: d :: s)) :
    Quad [a, b, c, d] ∧ Digital s := by
  refine ⟨⟨rfl, ?_⟩, h.tail.tail.tail.tail⟩
  intro x hx
  exact h x (List.mem_append_left s hx)

theorem dvd_behind {a b c d : UInt8} {s : Bytes} (h : 4 ∣ (a :: b :: c :: d :: s).length) :
    4 ∣ s.length := by
  simp only [List.length_cons] at h
  omega

/-- Two units, of which the code makes one character. -/
structure Pair (v lo : Bytes) : Prop where
  first : Quad v
  second : Quad lo
  high : isHigh (unitOf v) = true
  low : isLow (unitOf lo) = true

theorem Pair.units {v lo : Bytes} (h : Pair v lo) (s : Bytes) :
    wholeUnits (v ++ (lo ++ s)) = unitOf v :: unitOf lo :: wholeUnits s := by
  rw [(h.first.units _).1, (h.second.units _).1]

theorem Pair.combined_eq {v lo : Bytes} (h : Pair v lo) :
    0x10000 + (unitOf v - 0xD800) * 0x400 + (unitOf lo - 0xDC00) =
      combined (unitOf v) (unitOf lo) := by
  have hlow := isLow_iff.mp h.low
  exact (Nat.add_sub_assoc hlow.1 _).symm

/-- A surrogate pair in front is edited as one character. -/
theorem edited_pair {v lo hex more : Bytes} (h : Pair v lo) (hmore : Edited true hex more) :
    Edited true (v ++ (lo ++ hex)) (if privatePlane (combined (unitOf v) (unitOf lo)) then
      lit "FFFD" ++ more else v ++ (lo ++ more)) := by
  have hfffd : Quad (lit "FFFD") := (quad_hex4 (by decide : 0xFFFD < 65536)).1
  split
  · rename_i hplane
    refine ⟨?_, digital_append hfffd.digital hmore.digital, ?_⟩
    · rw [(hfffd.units more).1, h.units, scrubUnits, h.high, h.low, hplane, hmore.units]
      rfl
    · rw [List.length_append]
      exact (Nat.dvd_add_right (dvd_refl 4)).mpr hmore.whole
  · rename_i hplane
    refine ⟨?_, digital_append h.first.digital (digital_append h.second.digital hmore.digital), ?_⟩
    · rw [h.units, h.units, scrubUnits, h.high, h.low, Bool.and_self, Bool.and_self, if_pos rfl,
        if_neg hplane, hmore.units]
    · rw [List.length_append, List.length_append, h.first.length, h.second.length]
      exact (Nat.dvd_add_right (dvd_refl 4)).mpr ((Nat.dvd_add_right (dvd_refl 4)).mpr hmore.whole)

theorem eq_nil_of_short {s : Bytes} (h4 : 4 ∣ s.length)
    (hshort : ∀ a b c d t, s = a :: b :: c :: d :: t → False) : s = [] := by
  rcases s with _ | ⟨a, _ | ⟨b, _ | ⟨c, _ | ⟨d, t⟩⟩⟩⟩
  · rfl
  · exact absurd h4 (by simp)
  · exact absurd h4 (by simp)
  · exact absurd h4 (by simp)
  · exact (hshort a b c d t rfl).elim

/-- Whole units are edited character by character. -/
theorem scrubQuads_edited (banned : Bool) {hex : Bytes} (hd : Digital hex) (h4 : 4 ∣ hex.length) :
    Edited banned hex (scrubQuads banned hex).1 := by
  fun_induction scrubQuads banned hex with
  | case1 a b c d e f g g' rest v lo hpair more hplane ih =>
      obtain ⟨hv, hd'⟩ := quad_of_digital hd
      obtain ⟨hlo, hd''⟩ := quad_of_digital hd'
      have hmore := ih hd'' (dvd_behind (dvd_behind h4))
      rw [high_eq, low_eq, Bool.and_eq_true, Bool.and_eq_true] at hpair
      obtain ⟨⟨rfl, hhigh⟩, hlow⟩ := hpair
      have hp : Pair [a, b, c, d] [e, f, g, g'] := ⟨hv, hlo, hhigh, hlow⟩
      have h := edited_pair hp hmore
      rw [hp.combined_eq] at hplane
      rw [if_pos hplane] at h
      exact h
  | case2 a b c d e f g g' rest v lo hpair more hplane ih =>
      obtain ⟨hv, hd'⟩ := quad_of_digital hd
      obtain ⟨hlo, hd''⟩ := quad_of_digital hd'
      have hmore := ih hd'' (dvd_behind (dvd_behind h4))
      rw [high_eq, low_eq, Bool.and_eq_true, Bool.and_eq_true] at hpair
      obtain ⟨⟨rfl, hhigh⟩, hlow⟩ := hpair
      have hp : Pair [a, b, c, d] [e, f, g, g'] := ⟨hv, hlo, hhigh, hlow⟩
      have h := edited_pair hp hmore
      rw [hp.combined_eq] at hplane
      rw [if_neg hplane] at h
      exact h
  | case3 a b c d e f g g' rest v lo hpair ih =>
      obtain ⟨hv, hd'⟩ := quad_of_digital hd
      have hlo := (quad_of_digital hd').1
      refine edited_writeUnit hv (ih hd' (dvd_behind h4)) ?_
      rw [high_eq, low_eq] at hpair
      have hunits : wholeUnits (e :: f :: g :: g' :: rest) = lo :: wholeUnits rest :=
        (hlo.units rest).1
      rw [hunits, scrubUnits, if_neg hpair]
  | case4 a b c d rest hshort ih =>
      obtain ⟨hv, hd'⟩ := quad_of_digital hd
      refine edited_writeUnit hv (ih hd' (dvd_behind h4)) ?_
      rw [eq_nil_of_short (dvd_behind h4) hshort]
      rfl
  | case5 hex hlong hshort =>
      rw [eq_nil_of_short h4 hshort]
      exact edited_nil banned

theorem decodePaired_low {lo : Nat} (h : isLow lo = true) (us : List Nat) :
    decodePaired (lo :: us) = lo :: decodePaired us := by
  refine decodePaired_cons fun hhigh => ?_
  have hhigh' := isHigh_iff.mp hhigh
  have hlow' := isLow_iff.mp h
  omega

/-- If no character is forbidden, then neither is the first unit nor a character of the others. -/
theorem forbidden_units {banned : Bool} {v lo : Nat} {us : List Nat}
    (hfree : ∀ cp ∈ decodePaired (v :: lo :: us), forbidden banned cp = false) :
    forbidden banned v = false ∧ ∀ cp ∈ decodePaired (lo :: us), forbidden banned cp = false := by
  rw [decodePaired] at hfree
  split at hfree
  · rename_i hpair
    obtain ⟨hhigh, hlow⟩ := Bool.and_eq_true_iff.mp hpair
    have hhigh' := isHigh_iff.mp hhigh
    have hlow' := isLow_iff.mp hlow
    refine ⟨forbidden_surrogate (by omega), ?_⟩
    rw [decodePaired_low hlow, List.forall_mem_cons]
    exact ⟨forbidden_surrogate (by omega), (List.forall_mem_cons.mp hfree).2⟩
  · exact List.forall_mem_cons.mp hfree

theorem writeUnit_kept {banned : Bool} {quad : Bytes} {more : Bytes × Bool} (hq : Quad quad)
    (h : forbidden banned (unitOf quad) = false) :
    (writeUnit banned quad more).1 = quad ++ more.1 := by
  rw [writeUnit, scrubUnit_eq (hq.units []).2, h]
  rfl

/-- A string without a forbidden character is left as it is. -/
theorem scrubQuads_kept {banned : Bool} {hex : Bytes} (hd : Digital hex) (h4 : 4 ∣ hex.length)
    (hfree : ∀ cp ∈ chars hex, forbidden banned cp = false) : (scrubQuads banned hex).1 = hex := by
  fun_induction scrubQuads banned hex with
  | case1 a b c d e f g g' rest v lo hpair more hplane ih =>
      obtain ⟨hv, hd'⟩ := quad_of_digital hd
      have hlo := (quad_of_digital hd').1
      rw [high_eq, low_eq, Bool.and_eq_true, Bool.and_eq_true] at hpair
      obtain ⟨⟨rfl, hhigh⟩, hlow⟩ := hpair
      have hp : Pair [a, b, c, d] [e, f, g, g'] := ⟨hv, hlo, hhigh, hlow⟩
      have hunits : wholeUnits (a :: b :: c :: d :: e :: f :: g :: g' :: rest) =
          v :: lo :: wholeUnits rest := hp.units rest
      rw [hp.combined_eq] at hplane
      have hmem : combined v lo ∈ chars (a :: b :: c :: d :: e :: f :: g :: g' :: rest) := by
        rw [chars, hunits, decodePaired, if_pos (Bool.and_eq_true_iff.mpr ⟨hhigh, hlow⟩)]
        exact List.mem_cons_self
      have hbad := hfree _ hmem
      rw [forbidden_of_large (le_combined hhigh hlow), Bool.true_and] at hbad
      rw [hbad] at hplane
      cases hplane
  | case2 a b c d e f g g' rest v lo hpair more hplane ih =>
      obtain ⟨hv, hd'⟩ := quad_of_digital hd
      obtain ⟨hlo, hd''⟩ := quad_of_digital hd'
      rw [high_eq, low_eq, Bool.and_eq_true, Bool.and_eq_true] at hpair
      obtain ⟨⟨rfl, hhigh⟩, hlow⟩ := hpair
      have hp : Pair [a, b, c, d] [e, f, g, g'] := ⟨hv, hlo, hhigh, hlow⟩
      have hunits : wholeUnits (a :: b :: c :: d :: e :: f :: g :: g' :: rest) =
          v :: lo :: wholeUnits rest := hp.units rest
      rw [chars, hunits, decodePaired, if_pos (Bool.and_eq_true_iff.mpr ⟨hhigh, hlow⟩)] at hfree
      have hmore : more.1 = rest :=
        ih hd'' (dvd_behind (dvd_behind h4)) (List.forall_mem_cons.mp hfree).2
      rw [hmore]
      rfl
  | case3 a b c d e f g g' rest v lo hpair ih =>
      obtain ⟨hv, hd'⟩ := quad_of_digital hd
      have hlo := (quad_of_digital hd').1
      have hunits : wholeUnits (a :: b :: c :: d :: e :: f :: g :: g' :: rest) =
          v :: wholeUnits (e :: f :: g :: g' :: rest) := (hv.units _).1
      have hrest : wholeUnits (e :: f :: g :: g' :: rest) = lo :: wholeUnits rest :=
        (hlo.units rest).1
      rw [chars, hunits, hrest] at hfree
      obtain ⟨hfirst, hothers⟩ := forbidden_units hfree
      rw [writeUnit_kept hv hfirst, ih hd' (dvd_behind h4) (by rwa [chars, hrest])]
      rfl
  | case4 a b c d rest hshort ih =>
      obtain ⟨hv, hd'⟩ := quad_of_digital hd
      obtain rfl := eq_nil_of_short (dvd_behind h4) hshort
      have hfirst : forbidden banned (unitOf [a, b, c, d]) = false := by
        refine hfree _ ?_
        rw [chars, show [a, b, c, d] = [a, b, c, d] ++ [] from rfl, (hv.units []).1]
        exact List.mem_cons_self
      rw [writeUnit_kept hv hfirst]
      rfl
  | case5 => rfl

/-- The digits after an edit, whether there is one or not. -/
theorem scrubDst_getD (banned : Bool) {hex : Bytes} (hd : Digital hex) (h4 : 4 ∣ hex.length) :
    (scrubDst banned hex).getD hex = (scrubQuads banned hex).1 := by
  have hwhole := (scrubQuads_edited banned hd h4).whole
  have hshort : ¬ ((scrubQuads banned hex).1.length < 4 ∧ (scrubQuads banned hex).1 ≠ [] ∧
      (unitOf (scrubQuads banned hex).1 = 0 ∨ unitOf (scrubQuads banned hex).1 = 0xFEFF ∨
        unitOf (scrubQuads banned hex).1 = 0xFFFE)) := by
    rintro ⟨hlt, hne, _⟩
    exact hne (List.eq_nil_of_length_eq_zero (Nat.eq_zero_of_dvd_of_lt hwhole hlt))
  rw [scrubDst, if_neg hshort]
  split
  · rfl
  · rename_i hsame
    exact (scrubQuads_unchanged (Bool.eq_false_of_not_eq_true hsame)).symm

/-- The characters after an edit. -/
theorem chars_scrubbed (banned : Bool) {hex : Bytes} (hd : Digital hex) (h4 : 4 ∣ hex.length) :
    chars (scrubQuads banned hex).1 = (chars hex).map (scrubChar banned) := by
  rw [chars, (scrubQuads_edited banned hd h4).units, decodePaired_scrubUnits]
  rfl

theorem scrubUnits_cons_ne_nil (banned : Bool) (v : Nat) (us : List Nat) :
    scrubUnits banned (v :: us) ≠ [] := by
  cases us with
  | nil => exact List.cons_ne_nil _ _
  | cons lo us =>
      rw [scrubUnits]
      split
      · split
        · exact List.cons_ne_nil _ _
        · exact List.cons_ne_nil _ _
      · exact List.cons_ne_nil _ _

theorem scrubQuads_ne_nil (banned : Bool) {hex : Bytes} (hd : Digital hex) (h4 : 4 ∣ hex.length)
    (hne : hex ≠ []) : (scrubQuads banned hex).1 ≠ [] := by
  intro hnil
  have hunits := (scrubQuads_edited banned hd h4).units
  rcases hex with _ | ⟨a, _ | ⟨b, _ | ⟨c, _ | ⟨d, s⟩⟩⟩⟩
  · exact hne rfl
  · exact absurd h4 (by simp)
  · exact absurd h4 (by simp)
  · exact absurd h4 (by simp)
  · rw [hnil, wholeUnits] at hunits
    exact scrubUnits_cons_ne_nil banned _ _ hunits.symm

end Kura.Engine.ScrubToUnicode
