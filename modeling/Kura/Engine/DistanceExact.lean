import Kura.Engine.Distance
import Mathlib.Order.Bounds.Basic

/-!
# The distances are exact

The stack of a line holds the lower envelope of its parabolas, so the pointer
that goes up the stack finds the nearest column of every pixel. Over the
nearest rows of the columns this is a marked pixel at minimal distance.
-/

namespace Kura.Engine.Distance

open Kura.Base

section

variable {F : Nat → ℚ} {seen : Nat → Prop} {f : Buffer ℚ} {n q : Nat}

/-- Where the parabola over `q` meets the one over `a`, for heights given by a function. -/
def crossing (F : Nat → ℚ) (q a : Nat) : ℚ := parabolaCut (F q) (F a) q a

/-- A stack that holds the envelope of the parabolas over places before `q`. -/
structure Holds (F : Nat → ℚ) (seen : Nat → Prop) (n q : Nat) (s : Stack) : Prop where
  size_v : s.v.size = n
  size_z : s.z.size = n + 1
  top_lt : s.k < q
  seen_lt : ∀ a, seen a → a < q
  bottom : s.z.val 0 = -inf
  top : s.z.val (s.k + 1) = inf
  env : Envelope (parabola F) seen s.v.val s.z.val s.k

/-- The heights that a stack needs are in the array, between zero and the number for no bound. -/
structure Heights (F : Nat → ℚ) (seen : Nat → Prop) (f : Buffer ℚ) : Prop where
  read : ∀ a, seen a → f.read a = some (F a)
  nonneg : ∀ a, seen a → 0 ≤ F a
  le_inf : ∀ a, seen a → F a ≤ inf

theorem inf_pos : 0 < inf := by norm_num [inf]

theorem cut_eq (hf : Heights F (fun a => seen a ∨ a = q) f) {a : Nat} (ha : seen a) :
    cut f q a = some (crossing F q a) := by
  simp [cut, hf.read q (.inr rfl), hf.read a (.inl ha), crossing]

/-- No crossing is at the start of the lowest parabola. -/
theorem neg_inf_lt_crossing (hf : Heights F (fun a => seen a ∨ a = q) f) {a : Nat} (ha : seen a)
    (haq : a < q) : -inf < crossing F q a := by
  apply neg_lt_parabolaCut inf_pos haq
  have hq := hf.nonneg q (.inr rfl)
  have hle := hf.le_inf a (.inl ha)
  linarith

/-- Going down the stack ends at the first parabola that the new one crosses behind its start. -/
theorem pop_total (hf : Heights F (fun a => seen a ∨ a = q) f) {v : Buffer Nat} {z : Buffer ℚ}
    {k : Nat} (hv : k < v.size) (hz : k < z.size) (hseen : ∀ i, i ≤ k → seen (v.val i))
    (hbottom : z.val 0 < crossing F q (v.val 0)) :
    ∃ m, pop f q v z k (crossing F q (v.val k)) = some (m, crossing F q (v.val m)) ∧ m ≤ k ∧
      z.val m < crossing F q (v.val m) ∧
      ∀ i, m < i → i ≤ k → crossing F q (v.val i) ≤ z.val i := by
  induction k with
  | zero =>
      refine ⟨0, ?_, le_rfl, hbottom, fun i hi hle => by omega⟩
      simp [pop, Buffer.read_of_lt hz, not_le.mpr hbottom]
  | succ k ih =>
      by_cases hstart : crossing F q (v.val (k + 1)) ≤ z.val (k + 1)
      · obtain ⟨m, hpop, hmk, hm, hpopped⟩ :=
          ih (by omega) (by omega) fun i hi => hseen i (by omega)
        refine ⟨m, ?_, by omega, hm, ?_⟩
        · simp [pop, Buffer.read_of_lt hz, hstart, Buffer.read_of_lt (show k < v.size by omega),
            cut_eq hf (hseen k (by omega)), hpop]
        · intro i hmi hik
          obtain rfl | hlt := hik.eq_or_lt
          · exact hstart
          · exact hpopped i hmi (by omega)
      · refine ⟨k + 1, ?_, le_rfl, not_le.mp hstart, fun i hi hle => by omega⟩
        simp [pop, Buffer.read_of_lt hz, hstart]

/-- A stack with one parabola. -/
theorem first_total {v : Buffer Nat} {z : Buffer ℚ} (hv : v.size = n) (hz : z.size = n + 1)
    (hq : q < n) : ∃ s, first v z q = some s ∧ Holds F (· = q) n (q + 1) s := by
  refine ⟨⟨v.set 0 q, (z.set 0 (-inf)).set 1 inf, 0⟩, ?_, ?_⟩
  · simp [first, Buffer.write, hv, hz, show 0 < n by omega]
  · exact
      { size_v := hv
        size_z := hz
        top_lt := Nat.succ_pos q
        seen_lt := fun a ha => ha ▸ Nat.lt_succ_self q
        bottom := by
          rw [Buffer.val_set_of_ne _ (by omega), Buffer.val_set_self]
        top := Buffer.val_set_self _ _ _
        env := Envelope.single _ _ (Buffer.val_set_self _ _ _) }

/-- A stack with one parabola more. -/
theorem push_total {s : Stack} (hs : Holds F seen n q s)
    (hf : Heights F (fun a => seen a ∨ a = q) f) (hq : q < n) :
    ∃ s', push f q s = some s' ∧ Holds F (fun a => seen a ∨ a = q) n (q + 1) s' := by
  obtain ⟨v, z, k⟩ := s
  have hv : v.size = n := hs.size_v
  have hz : z.size = n + 1 := hs.size_z
  have hk : k < q := hs.top_lt
  have hseen : ∀ i, i ≤ k → seen (v.val i) := hs.env.mem
  have hbottom : z.val 0 < crossing F q (v.val 0) := by
    have h0 : z.val 0 = -inf := hs.bottom
    rw [h0]
    exact neg_inf_lt_crossing hf (hseen 0 (by omega)) (hs.seen_lt _ (hseen 0 (by omega)))
  obtain ⟨m, hpop, hmk, hstart, hpopped⟩ :=
    pop_total hf (show k < v.size by omega) (show k < z.size by omega) hseen hbottom
  refine ⟨⟨v.set (m + 1) q,
    (z.set (m + 1) (crossing F q (v.val m))).set (m + 2) inf, m + 1⟩, ?_, ?_⟩
  · simp [push, Buffer.read_of_lt (show k < v.size by omega), cut_eq hf (hseen k le_rfl), hpop,
      Buffer.write, hv, hz, show m + 1 < n by omega, show m < n by omega,
      show m + 2 < n + 1 by omega]
  · have henv := hs.env.push hmk
      (fun a ha => crosses_parabola F (hs.seen_lt a ha)) hstart hpopped
    exact
      { size_v := hv
        size_z := hz
        top_lt := Nat.succ_lt_succ (hmk.trans_lt hk)
        seen_lt := by
          rintro a (ha | rfl)
          · exact (hs.seen_lt a ha).trans (Nat.lt_succ_self q)
          · exact Nat.lt_succ_self a
        bottom := by
          rw [Buffer.val_set_of_ne _ (by omega), Buffer.val_set_of_ne _ (by omega)]
          exact hs.bottom
        top := Buffer.val_set_self _ _ _
        env := henv.congr (fun _ => Iff.rfl) (fun _ _ => rfl)
          fun i hi => Buffer.val_set_of_ne _ (by omega) _ }

/-- Going up the stack ends at the parabola that is the lowest one at a place. -/
theorem advance_total {z : Buffer ℚ} {k fuel j : Nat} (hz : k + 1 < z.size) (hj : j ≤ k)
    (hfuel : k - j < fuel) (hstart : z.val j ≤ q) (htop : (q : ℚ) ≤ z.val (k + 1)) :
    ∃ j', advance z q fuel j = some j' ∧ j' ≤ k ∧ z.val j' ≤ q ∧ (q : ℚ) ≤ z.val (j' + 1) := by
  induction fuel generalizing j with
  | zero => omega
  | succ fuel ih =>
      by_cases hnext : z.val (j + 1) < q
      · have hjk : j ≠ k := by
          rintro rfl
          exact absurd htop (not_le.mpr hnext)
        obtain ⟨j', hadv, hj'⟩ := ih (j := j + 1) (by omega) (by omega) hnext.le
        refine ⟨j', ?_, hj'⟩
        simp [advance, Buffer.read_of_lt (show j + 1 < z.size by omega), hnext, hadv]
      · refine ⟨j, ?_, hj, hstart, not_lt.mp hnext⟩
        simp [advance, Buffer.read_of_lt (show j + 1 < z.size by omega), hnext]

/-- The pointer of a stack is between a start before a place and the top. -/
structure Points (s : Stack) (q j : Nat) : Prop where
  le_top : j ≤ s.k
  start : s.z.val j ≤ q

theorem points_zero {s : Stack} {p : Nat} (hs : Holds F seen n p s) : Points s 0 0 := by
  refine ⟨Nat.zero_le _, ?_⟩
  rw [hs.bottom]
  have hpos := inf_pos
  push_cast
  linarith

/-- The pointer goes up to the lowest parabola at a place. -/
theorem Points.advance {s : Stack} {p j : Nat} (hs : Holds F seen n p s) (hp : p ≤ n)
    (hq : (q : ℚ) ≤ inf) (hj : Points s q j) :
    ∃ j', Distance.advance s.z q s.z.size j = some j' ∧ Points s (q + 1) j' ∧
      s.v.read j' = some (s.v.val j') ∧ seen (s.v.val j') ∧
      ∀ a, seen a → parabola F (s.v.val j') q ≤ parabola F a q := by
  have hk := hs.top_lt
  have hsize := hs.size_z
  have hsum : s.k + 1 < s.z.size := by omega
  have hfuel : s.k - j < s.z.size := by omega
  obtain ⟨j', hadv, hle, hstart, hnext⟩ :=
    advance_total hsum hj.le_top hfuel hj.start (hs.top ▸ hq)
  refine ⟨j', hadv, ⟨hle, hstart.trans ?_⟩, Buffer.read_of_lt ?_, hs.env.mem j' hle, ?_⟩
  · exact_mod_cast Nat.le_succ q
  · rw [hs.size_v]
    omega
  · exact hs.env.lowest j' hle q hstart fun _ => hnext

end

theorem Holds.congr {F : Nat → ℚ} {seen seen' : Nat → Prop} {n q : Nat} {s : Stack}
    (hs : Holds F seen n q s) (h : ∀ a, seen' a ↔ seen a) : Holds F seen' n q s where
  size_v := hs.size_v
  size_z := hs.size_z
  top_lt := hs.top_lt
  seen_lt a ha := hs.seen_lt a ((h a).mp ha)
  bottom := hs.bottom
  top := hs.top
  env := hs.env.congr h (fun _ _ => rfl) fun _ _ => rfl

/-- The heights of the parabolas of a line at a place. -/
def heightsAt (G : Nat → ℚ) (n q : Nat) : Set ℚ := {t | ∃ a, a < n ∧ parabola G a q = t}

section

variable {base n stride : Nat} {d : Buffer ℚ}

/-- The values of a line. -/
def line (base stride : Nat) (d : Buffer ℚ) (i : Nat) : ℚ := d.val (base + i * stride)

/-- A line inside of the array, with values between zero and the number for no bound. -/
structure Line (base n stride : Nat) (d : Buffer ℚ) : Prop where
  pos : 0 < n
  stride_pos : 0 < stride
  inside : ∀ i, i < n → base + i * stride < d.size
  nonneg : ∀ i, i < n → 0 ≤ line base stride d i
  le_inf : ∀ i, i < n → line base stride d i ≤ inf
  short : (n : ℚ) ≤ inf

/-- The copy of a line. -/
theorem copy_total (hd : Line base n stride d) :
    ∃ g, forRange n (copyStep base stride d) (Buffer.fill n 0) = some g ∧
      g.size = n ∧ ∀ i, i < n → g.val i = line base stride d i := by
  have hstart : (Buffer.fill n (0 : ℚ)).size = n ∧
      ∀ i, i < 0 → (Buffer.fill n (0 : ℚ)).val i = line base stride d i := by
    refine ⟨rfl, ?_⟩
    intro i hi
    omega
  refine forRange_total
    (P := fun k (g : Buffer ℚ) => g.size = n ∧ ∀ i, i < k →
      g.val i = line base stride d i) hstart ?_
  rintro k g hk ⟨hsize, hcopied⟩
  refine ⟨g.set k (line base stride d k), ?_, hsize, ?_⟩
  · simp [copyStep, Buffer.read_of_lt (hd.inside k hk), Buffer.write, hsize, hk, line]
  · intro i hi
    obtain rfl | hlt := (Nat.lt_succ_iff.mp hi).eq_or_lt
    · exact Buffer.val_set_self _ _ _
    · rw [Buffer.val_set_of_ne _ (by omega)]
      exact hcopied i hlt

/-- The stack of a line holds the envelope of all its parabolas. -/
theorem stack_total (hd : Line base n stride d) {g : Buffer ℚ} (hsize : g.size = n)
    (hcopy : ∀ i, i < n → g.val i = line base stride d i) {s : Stack}
    (hs : Holds (line base stride d) (· = 0) n 1 s) :
    ∃ s', forRange (n - 1) (fun t => push g (t + 1)) s = some s' ∧
      Holds (line base stride d) (· < n) n n s' := by
  have hpos := hd.pos
  have hstart : Holds (line base stride d) (· < 0 + 1) n (0 + 1) s :=
    hs.congr fun a => by omega
  have hstep : ∀ t s, t < n - 1 → Holds (line base stride d) (· < t + 1) n (t + 1) s →
      ∃ s', push g (t + 1) s = some s' ∧
        Holds (line base stride d) (· < t + 1 + 1) n (t + 1 + 1) s' := by
    intro t s ht hs
    have hheights : Heights (line base stride d) (fun a => a < t + 1 ∨ a = t + 1) g :=
      { read := fun a ha => by
          have hlt : a < n := by omega
          rw [Buffer.read_of_lt (hsize ▸ hlt), hcopy a hlt]
        nonneg := fun a ha => hd.nonneg a (by omega)
        le_inf := fun a ha => hd.le_inf a (by omega) }
    obtain ⟨s', hpush, hs'⟩ := push_total hs hheights (by omega)
    exact ⟨s', hpush, hs'.congr fun a => by omega⟩
  obtain ⟨s', hrun, hs'⟩ := forRange_total
    (P := fun t s => Holds (line base stride d) (· < t + 1) n (t + 1) s) hstart hstep
  rw [Nat.sub_add_cancel hpos] at hs'
  exact ⟨s', hrun, hs'⟩

/-- What has been written of a line up to a place. -/
structure Written (base n stride : Nat) (d : Buffer ℚ) (q : Nat) (d' : Buffer ℚ) : Prop where
  size_eq : d'.size = d.size
  least : ∀ i, i < q → IsLeast (heightsAt (line base stride d) n i) (line base stride d' i)
  other : ∀ m, (∀ i, i < q → m ≠ base + i * stride) → d'.val m = d.val m

/-- One more place of a line is written with the least height there. -/
theorem Written.step (hd : Line base n stride d) {q : Nat} {d' : Buffer ℚ}
    (hd' : Written base n stride d q d') {t : ℚ}
    (ht : IsLeast (heightsAt (line base stride d) n q) t) :
    Written base n stride d (q + 1)
      (d'.set (base + q * stride) t) where
  size_eq := hd'.size_eq
  least i hi := by
    obtain rfl | hlt := (Nat.lt_succ_iff.mp hi).eq_or_lt
    · simpa [line] using ht
    · have hne : base + i * stride ≠ base + q * stride := by
        have hmul := Nat.mul_lt_mul_of_pos_right hlt hd.stride_pos
        omega
      have hold := hd'.least i hlt
      simpa [line, Buffer.val_set_of_ne _ hne] using hold
  other m hm := by
    rw [Buffer.val_set_of_ne _ (hm q (Nat.lt_succ_self q))]
    exact hd'.other m fun i hi => hm i (by omega)

/-- The places of a line get the lowest parabola, one after the other. -/
theorem scan_total (hd : Line base n stride d) {g : Buffer ℚ} (hsize : g.size = n)
    (hcopy : ∀ i, i < n → g.val i = line base stride d i) {s : Stack}
    (hs : Holds (line base stride d) (· < n) n n s) :
    ∃ st, forRange n (writeStep base stride g s) (0, d) = some st ∧
      Written base n stride d n st.2 := by
  have hstart : Points s 0 ((0, d) : Nat × Buffer ℚ).1 ∧
      Written base n stride d 0 ((0, d) : Nat × Buffer ℚ).2 := by
    refine ⟨points_zero hs, rfl, ?_, fun _ _ => rfl⟩
    intro i hi
    omega
  have hstep : ∀ q (st : Nat × Buffer ℚ), q < n →
      Points s q st.1 ∧ Written base n stride d q st.2 →
      ∃ st', writeStep base stride g s q st = some st' ∧
        Points s (q + 1) st'.1 ∧ Written base n stride d (q + 1) st'.2 := by
    rintro q ⟨j, d'⟩ hq ⟨hj, hd'⟩
    have hshort : (q : ℚ) ≤ inf := by
      have hcast : (q : ℚ) ≤ n := by exact_mod_cast hq.le
      exact hcast.trans hd.short
    obtain ⟨j', hadv, hj', hread, hlt, hlow⟩ := hj.advance hs le_rfl hshort
    have hleast : IsLeast (heightsAt (line base stride d) n q)
        (parabola (line base stride d) (s.v.val j') q) := by
      refine ⟨⟨_, hlt, rfl⟩, ?_⟩
      rintro t ⟨a, ha, rfl⟩
      exact hlow a ha
    refine ⟨(j', d'.set (base + q * stride)
      (parabola (line base stride d) (s.v.val j') q)), ?_, hj', hd'.step hd hleast⟩
    have hsize' : d'.size = d.size := hd'.size_eq
    simp [writeStep, hadv, hread, Buffer.read_of_lt (hsize ▸ hlt), hcopy _ hlt, Buffer.write,
      hsize', hd.inside q hq, parabola]
  obtain ⟨st, hrun, -, hst⟩ := forRange_total
    (P := fun q (st : Nat × Buffer ℚ) => Points s q st.1 ∧ Written base n stride d q st.2)
    hstart hstep
  exact ⟨st, hrun, hst⟩

/-- One pass along a line. -/
theorem pass_total (hd : Line base n stride d) :
    ∃ d', pass base n stride d = some d' ∧ Written base n stride d n d' := by
  obtain ⟨g, hcopy, hsize, hg⟩ := copy_total hd
  obtain ⟨s, hfirst, hs⟩ := first_total (F := line base stride d) (v := Buffer.fill n 0)
    (z := Buffer.fill (n + 1) 0) rfl rfl hd.pos
  obtain ⟨s', hpush, hs'⟩ := stack_total hd hsize hg hs
  obtain ⟨⟨j, d'⟩, hscan, hd'⟩ := scan_total hd hsize hg hs'
  refine ⟨d', ?_, hd'⟩
  simp [pass, hcopy, hfirst, hpush, hscan]

end

section

variable {base : Nat → Nat} {m n stride : Nat} {d : Buffer ℚ}

theorem Line.congr {b : Nat} (hd : Line b n stride d) {d' : Buffer ℚ} (hsize : d'.size = d.size)
    (hsame : ∀ i, i < n → line b stride d' i = line b stride d i) : Line b n stride d' where
  pos := hd.pos
  stride_pos := hd.stride_pos
  inside i hi := hsize ▸ hd.inside i hi
  nonneg i hi := hsame i hi ▸ hd.nonneg i hi
  le_inf i hi := hsame i hi ▸ hd.le_inf i hi
  short := hd.short

theorem heightsAt_congr {G G' : Nat → ℚ} (h : ∀ a, a < n → G' a = G a) (q : Nat) :
    heightsAt G' n q = heightsAt G n q := by
  ext t
  refine exists_congr fun a => and_congr_right fun ha => ?_
  rw [parabola, parabola, h a ha]

/-- Lines without common places. -/
structure Lines (base : Nat → Nat) (m n stride : Nat) (d : Buffer ℚ) : Prop where
  line : ∀ k, k < m → Line (base k) n stride d
  disjoint : ∀ k k' i i', k < m → k' < m → i < n → i' < n →
    base k + i * stride = base k' + i' * stride → k = k'

/-- What has been done of the lines before one of them. -/
structure Passed (base : Nat → Nat) (m n stride : Nat) (d : Buffer ℚ) (k : Nat) (d' : Buffer ℚ) :
    Prop where
  size_eq : d'.size = d.size
  least : ∀ k', k' < k → ∀ i, i < n →
    IsLeast (heightsAt (line (base k') stride d) n i) (line (base k') stride d' i)
  later : ∀ k', k ≤ k' → k' < m → ∀ i, i < n →
    line (base k') stride d' i = line (base k') stride d i

/-- One more line of the array is passed. -/
theorem Passed.step (hd : Lines base m n stride d) {k : Nat} (hk : k < m) {d₁ d₂ : Buffer ℚ}
    (h₁ : Passed base m n stride d k d₁) (h₂ : Written (base k) n stride d₁ n d₂) :
    Passed base m n stride d (k + 1) d₂ where
  size_eq := h₂.size_eq.trans h₁.size_eq
  least k' hk' i hi := by
    obtain rfl | hlt := (Nat.lt_succ_iff.mp hk').eq_or_lt
    · have hleast := h₂.least i hi
      rwa [heightsAt_congr (h₁.later k' le_rfl hk)] at hleast
    · have hsame : line (base k') stride d₂ i = line (base k') stride d₁ i := by
        apply h₂.other
        intro i' hi' heq
        have hcommon := hd.disjoint k' k i i' (hlt.trans hk) hk hi hi' heq
        omega
      rw [hsame]
      exact h₁.least k' hlt i hi
  later k' hle hlt i hi := by
    rw [← h₁.later k' (by omega) hlt i hi]
    apply h₂.other
    intro i' hi' heq
    have hcommon := hd.disjoint k' k i i' hlt hk hi hi' heq
    omega

/-- The passes along lines without common places do not disturb each other. -/
theorem passes_total (hd : Lines base m n stride d) :
    ∃ d', forRange m (fun k => pass (base k) n stride) d = some d' ∧
      Passed base m n stride d m d' := by
  have hstart : Passed base m n stride d 0 d := by
    refine ⟨rfl, ?_, fun _ _ _ _ _ => rfl⟩
    intro k' hk'
    omega
  refine forRange_total hstart ?_
  intro k d₁ hk h₁
  have hline : Line (base k) n stride d₁ :=
    (hd.line k hk).congr h₁.size_eq (h₁.later k le_rfl hk)
  obtain ⟨d₂, hpass, h₂⟩ := pass_total hline
  exact ⟨d₂, hpass, h₁.step hd hk h₂⟩

end

section

variable {on : Buffer Bool} {w h : Nat}

/-- The distance of a pixel before any other one is looked at. -/
def startValue (on : Buffer Bool) (i : Nat) : ℚ := if on.val i then 0 else inf

theorem startValue_nonneg (on : Buffer Bool) (i : Nat) : 0 ≤ startValue on i := by
  unfold startValue
  split
  · exact le_rfl
  · exact inf_pos.le

theorem startValue_le_inf (on : Buffer Bool) (i : Nat) : startValue on i ≤ inf := by
  unfold startValue
  split
  · exact inf_pos.le
  · exact le_rfl

theorem start_total {n : Nat} (hsize : on.size = n) :
    ∃ d, forRange n (startStep on) (Buffer.fill n 0) = some d ∧ d.size = n ∧
      ∀ i, i < n → d.val i = startValue on i := by
  have hstart : (Buffer.fill n (0 : ℚ)).size = n ∧
      ∀ i, i < 0 → (Buffer.fill n (0 : ℚ)).val i = startValue on i :=
    ⟨rfl, fun i hi => absurd hi (Nat.not_lt_zero i)⟩
  refine forRange_total
    (P := fun k (d : Buffer ℚ) => d.size = n ∧ ∀ i, i < k → d.val i = startValue on i) hstart ?_
  rintro k d hk ⟨hd, hvals⟩
  refine ⟨d.set k (startValue on k), ?_, hd, ?_⟩
  · simp [startStep, Buffer.read_of_lt (hsize ▸ hk), Buffer.write, hd, hk, startValue]
  · intro i hi
    obtain rfl | hlt := (Nat.lt_succ_iff.mp hi).eq_or_lt
    · exact Buffer.val_set_self _ _ _
    · rw [Buffer.val_set_of_ne _ (by omega)]
      exact hvals i hlt

theorem pixel_lt {x y : Nat} (hx : x < w) (hy : y < h) : y * w + x < w * h := by
  have hle : (y + 1) * w ≤ h * w := Nat.mul_le_mul_right w hy
  rw [Nat.add_one_mul, Nat.mul_comm h w] at hle
  omega

theorem pixel_mod {x : Nat} (hx : x < w) (y : Nat) : (y * w + x) % w = x := by
  rw [Nat.mul_comm, Nat.mul_add_mod, Nat.mod_eq_of_lt hx]

theorem pixel_div {x : Nat} (hx : x < w) (y : Nat) : (y * w + x) / w = y := by
  rw [Nat.mul_comm, Nat.mul_add_div (Nat.zero_lt_of_lt hx), Nat.div_eq_of_lt hx, Nat.add_zero]

theorem pixel_inj {x x' y y' : Nat} (hx : x < w) (hx' : x' < w) (h : y * w + x = y' * w + x') :
    x = x' ∧ y = y' := by
  have hmod := congrArg (· % w) h
  have hdiv := congrArg (· / w) h
  simp only [pixel_mod hx, pixel_mod hx'] at hmod
  simp only [pixel_div hx, pixel_div hx'] at hdiv
  exact ⟨hmod, hdiv⟩

/-- The squares of distances from a pixel, with the number for no bound at pixels without a mark. -/
def distancesAt (on : Buffer Bool) (w h x y : Nat) : Set ℚ :=
  {t | ∃ a r, a < w ∧ r < h ∧
    ((x : ℚ) - a) * (x - a) + (((y : ℚ) - r) * (y - r) + startValue on (r * w + a)) = t}

/-- The squared distances are found, each the least one. -/
theorem squaredDistance_total (hsize : on.size = w * h) (hw : 0 < w) (hh : 0 < h)
    (hbound : w * h < 2 ^ 31) :
    ∃ d, squaredDistance on w h = some d ∧ d.size = w * h ∧
      ∀ x y, x < w → y < h → IsLeast (distancesAt on w h x y) (d.val (y * w + x)) := by
  have hwlt : w < 2 ^ 31 := (Nat.le_mul_of_pos_right w hh).trans_lt hbound
  have hhlt : h < 2 ^ 31 := (Nat.le_mul_of_pos_left h hw).trans_lt hbound
  have hshort : ∀ n : Nat, n < 2 ^ 31 → (n : ℚ) ≤ inf := by
    intro n hn
    have hcast : (n : ℚ) < (2 : ℚ) ^ 31 := by exact_mod_cast hn
    have hinf : (2 : ℚ) ^ 31 ≤ inf := by norm_num [inf]
    linarith
  obtain ⟨d₀, hstart, hsize₀, hvals₀⟩ := start_total hsize
  have hcolumn : ∀ x, x < w → ∀ y, y < h → line x w d₀ y = startValue on (y * w + x) := by
    intro x hx y hy
    rw [line, Nat.add_comm, hvals₀ _ (pixel_lt hx hy)]
  have hcolumns : Lines id w h w d₀ :=
    { line := fun x hx =>
        { pos := hh
          stride_pos := hw
          inside := fun y hy => by
            rw [hsize₀, Nat.add_comm]
            exact pixel_lt hx hy
          nonneg := fun y hy => hcolumn x hx y hy ▸ startValue_nonneg _ _
          le_inf := fun y hy => hcolumn x hx y hy ▸ startValue_le_inf _ _
          short := hshort h hhlt }
      disjoint := fun x x' y y' hx hx' _ _ heq => by
        rw [Nat.add_comm, Nat.add_comm (id x')] at heq
        exact (pixel_inj hx hx' heq).1 }
  obtain ⟨d₁, hdown, h₁⟩ := passes_total hcolumns
  have hleast₁ : ∀ x, x < w → ∀ y, y < h →
      IsLeast (heightsAt (fun r => startValue on (r * w + x)) h y) (d₁.val (y * w + x)) := by
    intro x hx y hy
    have hleast := h₁.least x hx y hy
    rw [heightsAt_congr fun r hr => (hcolumn x hx r hr).symm, ← Nat.add_comm x]
    exact hleast
  have hrow : ∀ y x, line (y * w) 1 d₁ x = d₁.val (y * w + x) := by
    intro y x
    rw [line, Nat.mul_one]
  have hrows : Lines (fun y => y * w) h w 1 d₁ :=
    { line := fun y hy =>
        { pos := hw
          stride_pos := Nat.one_pos
          inside := fun x hx => by
            rw [h₁.size_eq, hsize₀, Nat.mul_one]
            exact pixel_lt hx hy
          nonneg := fun x hx => by
            obtain ⟨⟨r, -, heq⟩, -⟩ := hleast₁ x hx y hy
            rw [hrow, ← heq]
            exact add_nonneg (mul_self_nonneg _) (startValue_nonneg _ _)
          le_inf := fun x hx => by
            rw [hrow]
            refine ((hleast₁ x hx y hy).2 ⟨y, hy, rfl⟩).trans ?_
            rw [parabola, sub_self, mul_zero, zero_add]
            exact startValue_le_inf _ _
          short := hshort w hwlt }
      disjoint := fun y y' x x' _ _ hx hx' heq => by
        rw [Nat.mul_one, Nat.mul_one] at heq
        exact (pixel_inj hx hx' heq).2 }
  obtain ⟨d₂, hacross, h₂⟩ := passes_total hrows
  refine ⟨d₂, ?_, h₂.size_eq.trans (h₁.size_eq.trans hsize₀), ?_⟩
  · simp only [id] at hdown
    simp [squaredDistance, hstart, hdown, hacross]
  · intro x y hx hy
    have hleast := h₂.least y hy x hx
    have hplace : line (y * w) 1 d₂ x = d₂.val (y * w + x) := by rw [line, Nat.mul_one]
    rw [hplace] at hleast
    obtain ⟨⟨a, ha, heq⟩, hlow⟩ := hleast
    obtain ⟨⟨r, hr, hcol⟩, -⟩ := hleast₁ a ha y hy
    refine ⟨⟨a, r, ha, hr, ?_⟩, ?_⟩
    · rw [← heq, parabola, hrow, ← hcol, parabola]
    · rintro t ⟨a', r', ha', hr', rfl⟩
      refine (hlow ⟨a', ha', rfl⟩).trans ?_
      have hcolumnLow := (hleast₁ a' ha' y hy).2 ⟨r', hr', rfl⟩
      rw [parabola] at hcolumnLow
      rw [parabola, hrow]
      linarith

end

end Kura.Engine.Distance
