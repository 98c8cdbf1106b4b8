import Mathlib.Algebra.Order.Field.Basic
import Mathlib.Tactic.FieldSimp
import Mathlib.Tactic.Linarith
import Mathlib.Tactic.Ring

/-!
# Lower envelopes

Curves of which any two cross once have a lower envelope that a stack holds:
the curves on it, in their order, each from the crossing with the one before
it. A new last curve takes the place of those that it is below of from where
they start.

The stack is a pair of sequences with the index of its top, as programs keep
it: `z i` is where the curve `v i` starts to be the lowest one. Only the values
up to the top matter.
-/

namespace Kura.Base

section Curves

variable {ι K : Type*} [LinearOrder K]

/-- One curve is below another one from a place on, and above it before. -/
structure Crosses (val : ι → K → K) (a q : ι) (c : K) : Prop where
  right : ∀ x, val q x ≤ val a x ↔ c ≤ x
  left : ∀ x, val a x ≤ val q x ↔ x ≤ c

/-- Each curve of a stack is the lowest of the seen ones between its start and the next one. -/
structure Envelope (val : ι → K → K) (seen : ι → Prop) (v : Nat → ι) (z : Nat → K) (k : Nat) :
    Prop where
  mono : ∀ i, i < k → z i < z (i + 1)
  mem : ∀ i, i ≤ k → seen (v i)
  lowest : ∀ i, i ≤ k → ∀ x, z i ≤ x → (i < k → x ≤ z (i + 1)) →
    ∀ a, seen a → val (v i) x ≤ val a x

namespace Envelope

variable {val : ι → K → K} {seen : ι → Prop} {v : Nat → ι} {z : Nat → K} {k : Nat}

/-- A single curve is its own envelope. -/
theorem single (val : ι → K → K) {v : Nat → ι} (z : Nat → K) {q : ι} (hq : v 0 = q) :
    Envelope val (· = q) v z 0 where
  mono i hi := absurd hi (Nat.not_lt_zero i)
  mem i hi := by rw [Nat.le_zero.mp hi, hq]
  lowest i hi x _ _ a ha := by rw [Nat.le_zero.mp hi, hq, ha]

/-- Only the part of the stack up to its top matters. -/
theorem congr (h : Envelope val seen v z k) {seen' : ι → Prop} (hseen : ∀ a, seen' a ↔ seen a)
    {v' : Nat → ι} (hv : ∀ i, i ≤ k → v' i = v i) {z' : Nat → K} (hz : ∀ i, i ≤ k → z' i = z i) :
    Envelope val seen' v' z' k where
  mono i hi := by
    rw [hz i (by omega), hz (i + 1) (by omega)]
    exact h.mono i hi
  mem i hi := by
    rw [hseen, hv i hi]
    exact h.mem i hi
  lowest i hi x hle hnext a ha := by
    rw [hz i hi] at hle
    rw [hv i hi]
    refine h.lowest i hi x hle (fun hlt => ?_) a ((hseen a).mp ha)
    rw [← hz (i + 1) (by omega)]
    exact hnext hlt

/-- Starts grow with the index. -/
theorem le_of_le (h : Envelope val seen v z k) {i j : Nat} (hij : i ≤ j) (hj : j ≤ k) :
    z i ≤ z j := by
  induction j, hij using Nat.le_induction with
  | base => exact le_rfl
  | succ j _ ih => exact (ih (by omega)).trans (h.mono j (by omega)).le

/-- Every place behind a start lies between the start of a curve and the next one. -/
theorem exists_interval {m : Nat} (hm : m ≤ k) {x : K} (hx : z m ≤ x) :
    ∃ i, m ≤ i ∧ i ≤ k ∧ z i ≤ x ∧ (i < k → x ≤ z (i + 1)) := by
  induction hd : k - m generalizing m with
  | zero => exact ⟨m, le_rfl, hm, hx, fun hlt => by omega⟩
  | succ d ih =>
      obtain hnext | hnext := le_total x (z (m + 1))
      · exact ⟨m, le_rfl, hm, hx, fun _ => hnext⟩
      · obtain ⟨i, hmi, hik, hi⟩ := ih (by omega) hnext (by omega)
        exact ⟨i, by omega, hik, hi⟩

/-- A curve that replaces the ones above the index `m` crosses the one there before the next
start. -/
theorem crossing_le (h : Envelope val seen v z k) {m : Nat} (hm : m < k) {q : ι} {c d : K}
    (hc : Crosses val (v m) q c) (hd : Crosses val (v (m + 1)) q d) (hle : d ≤ z (m + 1)) :
    c ≤ z (m + 1) := by
  have hq : val q (z (m + 1)) ≤ val (v (m + 1)) (z (m + 1)) := (hd.right _).mpr hle
  -- where the next curve starts it is as low as this one
  have hboth : val (v (m + 1)) (z (m + 1)) ≤ val (v m) (z (m + 1)) :=
    h.lowest (m + 1) hm _ le_rfl (fun hlt => (h.mono (m + 1) hlt).le) _ (h.mem m hm.le)
  exact (hc.right _).mp (hq.trans hboth)

/-- The new curve is the lowest one from where it crosses the curve it is put on. -/
theorem lowest_new (h : Envelope val seen v z k) {m : Nat} (hm : m ≤ k) {q : ι} {cut : ι → K}
    (hcut : ∀ a, seen a → Crosses val a q (cut a)) (hstart : z m < cut (v m))
    (hpopped : ∀ i, m < i → i ≤ k → cut (v i) ≤ z i) {x : K} (hx : cut (v m) ≤ x) {a : ι}
    (ha : seen a) : val q x ≤ val a x := by
  obtain ⟨i, hmi, hik, hi, hnext⟩ := exists_interval hm (hstart.le.trans hx)
  have hlow : val (v i) x ≤ val a x := h.lowest i hik x hi hnext a ha
  have hcross := hcut (v i) (h.mem i hik)
  obtain rfl | hlt := hmi.eq_or_lt
  · exact ((hcross.right x).mpr hx).trans hlow
  · exact ((hcross.right x).mpr ((hpopped i hlt hik).trans hi)).trans hlow

/-- Puts a new curve on the stack, above the first curve it crosses behind its start. -/
theorem push (h : Envelope val seen v z k) {m : Nat} (hm : m ≤ k) {q : ι}
    {cut : ι → K} (hcut : ∀ a, seen a → Crosses val a q (cut a)) (hstart : z m < cut (v m))
    (hpopped : ∀ i, m < i → i ≤ k → cut (v i) ≤ z i) :
    Envelope val (fun a => seen a ∨ a = q) (Function.update v (m + 1) q)
      (Function.update z (m + 1) (cut (v m))) (m + 1) where
  mono i hi := by
    obtain rfl | hlt := (Nat.lt_succ_iff.mp hi).eq_or_lt
    · rw [Function.update_self, Function.update_of_ne (by omega)]
      exact hstart
    · rw [Function.update_of_ne (by omega), Function.update_of_ne (by omega)]
      exact h.mono i (by omega)
  mem i hi := by
    obtain rfl | hlt := hi.eq_or_lt
    · rw [Function.update_self]
      exact .inr rfl
    · rw [Function.update_of_ne (by omega)]
      exact .inl (h.mem i (by omega))
  lowest i hi x hx hnext a ha := by
    obtain rfl | hlt := hi.eq_or_lt
    · rw [Function.update_self] at hx ⊢
      obtain ha | rfl := ha
      · exact h.lowest_new hm hcut hstart hpopped hx ha
      · exact le_rfl
    · rw [Function.update_of_ne (by omega)] at hx ⊢
      have hnext := hnext hlt
      -- up to the new crossing the old curves stay the lowest ones
      have hbefore : x ≤ cut (v m) ∧ (i < k → x ≤ z (i + 1)) := by
        obtain rfl | him := (Nat.lt_succ_iff.mp hlt).eq_or_lt
        · rw [Function.update_self] at hnext
          refine ⟨hnext, fun hik => hnext.trans ?_⟩
          exact h.crossing_le hik (hcut _ (h.mem i hm)) (hcut _ (h.mem (i + 1) hik))
            (hpopped (i + 1) (by omega) hik)
        · rw [Function.update_of_ne (by omega)] at hnext
          exact ⟨(hnext.trans (h.le_of_le him hm)).trans hstart.le, fun _ => hnext⟩
      have hold : ∀ b, seen b → val (v i) x ≤ val b x :=
        h.lowest i (by omega) x hx hbefore.2
      obtain ha | rfl := ha
      · exact hold a ha
      · exact (hold (v m) (h.mem m hm)).trans
          (((hcut (v m) (h.mem m hm)).left x).mpr hbefore.1)

end Envelope

end Curves

section Parabolas

variable {K : Type*} [Field K] [LinearOrder K] [IsStrictOrderedRing K]

/-- The parabola with its lowest point over a number. -/
def parabola (f : Nat → K) (a : Nat) (x : K) : K := (x - a) * (x - a) + f a

/-- Where a parabola meets one further right. -/
def parabolaCut (fq fa : K) (q a : Nat) : K := ((fq + q * q) - (fa + a * a)) / (2 * q - 2 * a)

/-- Two parabolas cross exactly at the cut that the code computes. -/
theorem crosses_parabola (f : Nat → K) {a q : Nat} (haq : a < q) :
    Crosses (parabola f) a q (parabolaCut (f q) (f a) q a) := by
  have hcast : (a : K) < q := Nat.cast_lt.mpr haq
  have hpos : (0 : K) < 2 * q - 2 * a := by linarith
  refine ⟨fun x => ?_, fun x => ?_⟩
  · rw [parabolaCut, div_le_iff₀ hpos, parabola, parabola]
    constructor
    · intro h
      nlinarith
    · intro h
      nlinarith
  · rw [parabolaCut, le_div_iff₀ hpos, parabola, parabola]
    constructor
    · intro h
      nlinarith
    · intro h
      nlinarith

/-- Parabolas of heights that differ by less than `b` do not meet before `-b`. -/
theorem neg_lt_parabolaCut {fq fa b : K} (hb : 0 < b) {q a : Nat} (haq : a < q)
    (hf : fa - fq ≤ b) : -b < parabolaCut fq fa q a := by
  have hcast : (a : K) + 1 ≤ q := by exact_mod_cast haq
  have hzero : (0 : K) ≤ a := Nat.cast_nonneg a
  have hpos : (0 : K) < 2 * q - 2 * a := by linarith
  rw [parabolaCut, lt_div_iff₀ hpos]
  nlinarith

end Parabolas

end Kura.Base
