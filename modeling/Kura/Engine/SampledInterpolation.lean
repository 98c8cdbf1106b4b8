import Kura.Base.Multilinear
import Kura.Engine.SampledFunction

/-!
# What a sampled function evaluates to

The loop over the corners of a cell adds up samples with weights. What it adds up
is the multilinear interpolation of the decoded samples.
-/

namespace Kura.Engine.Sampled

open Kura.Base Kura.Engine.Calculator

namespace SampledFn

section Meaning

variable (f : SampledFn)

/-- An input that is clipped to its domain and taken to its axis. -/
def encoded (inp : Nat → ℚ) (i : Nat) : ℚ :=
  let lo := f.domain.getD (2 * i) 0
  let hi := f.domain.getD (2 * i + 1) 0
  let e := interp (min (max (inp i) lo) hi) lo hi (f.encode.getD (2 * i) 0)
    (f.encode.getD (2 * i + 1) 0)
  min (max e 0) ((f.size.getD i 0 : ℚ) - 1)

/-- Where the inputs are on the grid. -/
def place (inp : Nat → ℚ) : List (Nat × ℚ) :=
  f.size.zip ((List.range f.inputs).map (f.encoded inp))

/-- The decoded sample of an output at a numbered point. -/
def decodedAt (o k : Nat) : ℚ :=
  let v := ofBits (((byteBits f.data).drop ((k * f.nOut + o) * f.bps)).take f.bps)
  f.decode.getD (2 * o) 0 +
    (v : ℚ) * (f.decode.getD (2 * o + 1) 0 - f.decode.getD (2 * o) 0) / (2 ^ f.bps - 1)

/-- The decoded sample of an output at a point of the grid. -/
def decoded (o : Nat) (ks : List Nat) : ℚ := f.decodedAt o (gridIndex f.size ks)

/-- A value of an output that is clipped to its range. -/
def clipped (o : Nat) (v : ℚ) : ℚ :=
  min (max v (f.range.getD (2 * o) 0)) (f.range.getD (2 * o + 1) 0)

/-- The inputs are taken to a point of the grid. -/
def AtPoint (inp : Nat → ℚ) (ks : List Nat) : Prop :=
  (List.range f.inputs).map (f.encoded inp) = ks.map fun k : Nat => (k : ℚ)

/-- A function that is loaded from a stream has the interpolated value at some inputs. -/
structure Evaluates (s : FnStream) (inp : Nat → ℚ) : Prop where
  padded : ∃ data n, s.data = some data ∧ f.data = data ++ List.replicate n 0
  inside : ∀ c < 2 ^ f.inputs, ∀ o < f.nOut, ∀ b < f.bps,
    (((corner (f.axes inp) c).2 * f.nOut + o) * f.bps + b) / 8 < f.data.length
  weights : ∑ c ∈ Finset.range (2 ^ f.inputs), (corner (f.axes inp) c).1 = 1
  value : f.compute inp = (List.range f.nOut).map fun o =>
    f.clipped o (multilinear (f.place inp) (f.decoded o))
  atPoint : ∀ ks : List Nat, f.AtPoint inp ks →
    f.compute inp = (List.range f.nOut).map fun o => f.clipped o (f.decoded o ks)
  kept : ∀ ks : List Nat, f.AtPoint inp ks →
    (∀ o < f.nOut, f.range.getD (2 * o) 0 ≤ f.decoded o ks ∧
      f.decoded o ks ≤ f.range.getD (2 * o + 1) 0) →
    f.compute inp = (List.range f.nOut).map fun o => f.decoded o ks

end Meaning

theorem readSizes_spec {sz : List ℚ} {total : Int} {ns : List Nat}
    (h : readSizes sz total = some ns) : ns.length = sz.length ∧ ∀ n ∈ ns, 1 ≤ n := by
  induction sz generalizing total ns with
  | nil =>
      cases h
      exact ⟨rfl, fun n hn => absurd hn List.not_mem_nil⟩
  | cons s sz ih =>
      rw [readSizes] at h
      split_ifs at h with hs
      obtain ⟨ns, hns, rfl⟩ := Option.map_eq_some_iff.mp h
      obtain ⟨hlength, hone⟩ := ih hns
      refine ⟨by rw [List.length_cons, hlength, List.length_cons], fun n hn => ?_⟩
      rcases List.mem_cons.mp hn with rfl | hn
      · omega
      · exact hone n hn

/-- What the loader makes sure of. -/
structure Loaded (f : SampledFn) : Prop where
  sizes : f.size.length = f.inputs
  one_le : ∀ n ∈ f.size, 1 ≤ n
  room : f.size.prod * f.nOut * f.bps ≤ 8 * f.data.length
  bps : f.bps ∈ [1, 2, 4, 8, 12, 16, 24, 32]

theorem length_padded {data : Bytes} {need : Nat} :
    need ≤ 8 * (if data.length * 8 < need then
      data ++ List.replicate ((need + 7) / 8 - data.length) 0 else data).length := by
  split_ifs with h
  · rw [List.length_append, List.length_replicate]
    omega
  · omega

variable {s : FnStream} {f : SampledFn}

theorem toNat_mem_bps {bps : Int} (h : bps ∈ ([1, 2, 4, 8, 12, 16, 24, 32] : List Int)) :
    bps.toNat ∈ [1, 2, 4, 8, 12, 16, 24, 32] :=
  List.mem_map_of_mem (f := Int.toNat) h

/-- A loaded function has its data, padded with zeros. -/
theorem init_spec (h : init s = some f) :
    Loaded f ∧ ∃ data n, s.data = some data ∧ f.data = data ++ List.replicate n 0 := by
  rw [init] at h
  dsimp only at h
  split at h
  · cases h
  rename_i hcounts
  split at h
  · cases h
  rename_i hbps
  obtain ⟨size, hsize, h⟩ := Option.bind_eq_some_iff.mp h
  obtain ⟨data, hdata, rfl⟩ := Option.map_eq_some_iff.mp h
  obtain ⟨hlength, hone⟩ := readSizes_spec hsize
  refine ⟨⟨?_, hone, length_padded, toNat_mem_bps (Decidable.not_not.mp hbps)⟩, ?_⟩
  · have hm : s.size.length = s.domain.length / 2 := by omega
    exact hlength.trans hm
  · by_cases hshort : data.length * 8 <
        size.prod * (s.range.length / 2) * ((s.bitsPerSample.getD 0).bmod (2 ^ 32)).toNat
    · exact ⟨data, _, hdata, if_pos hshort⟩
    · exact ⟨data, 0, hdata, (if_neg hshort).trans (List.append_nil data).symm⟩

/-- The axis with some points that a coordinate is on. -/
def axisAt (p : Nat × ℚ) : Axis :=
  let lo := if p.1 - 1 ≤ ⌊p.2⌋₊ then p.1 - 2 else ⌊p.2⌋₊
  { size := p.1, lo := lo, frac := if p.1 = 1 then 0 else p.2 - lo }

/-- A coordinate that is within its axis. -/
def Within (p : Nat × ℚ) : Prop := 1 ≤ p.1 ∧ 0 ≤ p.2 ∧ p.2 ≤ (p.1 : ℚ) - 1

theorem Within.floor_lt {p : Nat × ℚ} (h : Within p) : ⌊p.2⌋₊ < p.1 := by
  have hfloor : (⌊p.2⌋₊ : ℚ) ≤ p.2 := Nat.floor_le h.2.1
  have hlt : (⌊p.2⌋₊ : ℚ) < p.1 := by linarith [h.2.2]
  exact_mod_cast hlt

theorem Within.pos_lt {p : Nat × ℚ} (h : Within p) (bit : Bool) : (axisAt p).pos bit < p.1 := by
  have hlt := h.floor_lt
  have hone := h.1
  have hbit : bit.toNat ≤ 1 := Bool.toNat_le bit
  rw [Axis.pos, axisAt]
  dsimp only
  split_ifs <;> omega

/-- The two ends of an axis weigh as the two points around the coordinate. -/
theorem Within.ends_eq {p : Nat × ℚ} (h : Within p) (v : Nat → ℚ) :
    (1 - (axisAt p).frac) * v ((axisAt p).pos false) + (axisAt p).frac * v ((axisAt p).pos true) =
      (1 - (p.2 - ⌊p.2⌋₊)) * v ⌊p.2⌋₊ + (p.2 - ⌊p.2⌋₊) * v (min (⌊p.2⌋₊ + 1) (p.1 - 1)) := by
  obtain ⟨n, e⟩ := p
  have hlt : ⌊e⌋₊ < n := h.floor_lt
  have hfloor : (⌊e⌋₊ : ℚ) ≤ e := Nat.floor_le h.2.1
  have hle : e ≤ (n : ℚ) - 1 := h.2.2
  dsimp only
  by_cases hend : n - 1 ≤ ⌊e⌋₊
  · -- At the end of the axis the coordinate is the last point.
    have hlast : ⌊e⌋₊ = n - 1 := by omega
    have he : e = ((n - 1 : Nat) : ℚ) := by
      have hcast : ((n - 1 : Nat) : ℚ) = (n : ℚ) - 1 := by
        rw [Nat.cast_sub h.1, Nat.cast_one]
      rw [← hlast] at hcast ⊢
      linarith
    by_cases hone : n = 1
    · subst hone
      rw [hlast]
      simp [axisAt, Axis.pos, he]
    · have hfrac : (axisAt (n, e)).frac = 1 := by
        have hcast : ((n - 1 : Nat) : ℚ) = ((n - 2 : Nat) : ℚ) + 1 := by
          have hsucc : n - 1 = n - 2 + 1 := by omega
          exact_mod_cast hsucc
        rw [axisAt]
        dsimp only
        rw [if_neg hone, if_pos hend, he, hcast]
        ring
      have hpos : (axisAt (n, e)).pos true = n - 1 := by
        rw [Axis.pos, axisAt]
        dsimp only
        rw [if_neg hone, if_pos hend, Bool.toNat_true]
        omega
      rw [hfrac, hpos, hlast, ← he]
      ring
  · have hone : n ≠ 1 := by omega
    have hmin : min (⌊e⌋₊ + 1) (n - 1) = ⌊e⌋₊ + 1 := by omega
    rw [hmin, Axis.pos, Axis.pos, axisAt]
    dsimp only
    rw [if_neg hone, if_neg hend, if_neg hone, if_neg hone, Bool.toNat_false, Bool.toNat_true,
      Nat.add_zero]

theorem weightOf_double (c : Nat) {b : Nat} (hb : b < 2) (as : List Axis) (i : Nat) :
    weightOf (2 * c + b) (i + 1) as = weightOf c i as := by
  induction as generalizing i with
  | nil => rfl
  | cons a as ih =>
      have hhalf : (2 * c + b) / 2 = c := by omega
      rw [weightOf, weightOf, ih, Nat.testBit_succ, hhalf]

theorem indexOf_double (c : Nat) {b : Nat} (hb : b < 2) (as : List Axis) (i : Nat) :
    indexOf (2 * c + b) (i + 1) as = indexOf c i as := by
  induction as generalizing i with
  | nil => rfl
  | cons a as ih =>
      have hhalf : (2 * c + b) / 2 = c := by omega
      rw [indexOf, indexOf, ih, Nat.testBit_succ, hhalf]

/-- The samples at the corners, with their weights, add up to the interpolated value. -/
theorem sum_corners {es : List (Nat × ℚ)} (h : ∀ p ∈ es, Within p) (v : Nat → ℚ) :
    ∑ c ∈ Finset.range (2 ^ es.length),
        weightOf c 0 (es.map axisAt) * v (indexOf c 0 (es.map axisAt)) =
      multilinear es fun ks => v (gridIndex (es.map Prod.fst) ks) := by
  induction es generalizing v with
  | nil => simp [weightOf, indexOf, multilinear, gridIndex]
  | cons p es ih =>
      have hp : Within p := h p List.mem_cons_self
      have hes : ∀ q ∈ es, Within q := fun q hq => h q (List.mem_cons_of_mem _ hq)
      have hpair : ∀ c, weightOf (2 * c) 0 ((p :: es).map axisAt) *
            v (indexOf (2 * c) 0 ((p :: es).map axisAt)) +
          weightOf (2 * c + 1) 0 ((p :: es).map axisAt) *
            v (indexOf (2 * c + 1) 0 ((p :: es).map axisAt)) =
          (1 - (axisAt p).frac) * (weightOf c 0 (es.map axisAt) *
            v ((axisAt p).pos false + p.1 * indexOf c 0 (es.map axisAt))) +
          (axisAt p).frac * (weightOf c 0 (es.map axisAt) *
            v ((axisAt p).pos true + p.1 * indexOf c 0 (es.map axisAt))) := by
        intro c
        have heven : (2 * c).testBit 0 = false := by simp
        have hodd : (2 * c + 1).testBit 0 = true := by simp
        have hweight := weightOf_double c (b := 0) (by decide) (es.map axisAt) 0
        have hindex := indexOf_double c (b := 0) (by decide) (es.map axisAt) 0
        rw [Nat.add_zero] at hweight hindex
        rw [List.map_cons, weightOf, weightOf, indexOf, indexOf, heven, hodd, hweight, hindex,
          weightOf_double c (by decide), indexOf_double c (by decide)]
        change (1 - (axisAt p).frac) * _ * v (_ + p.1 * _) +
          (axisAt p).frac * _ * v (_ + p.1 * _) = _
        ring
      rw [List.length_cons, pow_succ', sum_range_two_mul]
      simp only [hpair]
      rw [Finset.sum_add_distrib, ← Finset.mul_sum, ← Finset.mul_sum,
        ih hes fun j => v ((axisAt p).pos false + p.1 * j),
        ih hes fun j => v ((axisAt p).pos true + p.1 * j)]
      exact hp.ends_eq fun k =>
        multilinear es fun ks => v (k + p.1 * gridIndex (es.map Prod.fst) ks)

theorem indexOf_lt {es : List (Nat × ℚ)} (h : ∀ p ∈ es, Within p) (c i : Nat) :
    indexOf c i (es.map axisAt) < (es.map Prod.fst).prod := by
  induction es generalizing i with
  | nil => exact Nat.zero_lt_one
  | cons p es ih =>
      have hpos := (h p List.mem_cons_self).pos_lt (c.testBit i)
      have hrest := ih (fun q hq => h q (List.mem_cons_of_mem _ hq)) (i + 1)
      rw [List.map_cons, List.map_cons, indexOf, List.prod_cons]
      calc (axisAt p).pos (c.testBit i) + p.1 * indexOf c (i + 1) (es.map axisAt)
          < p.1 + p.1 * indexOf c (i + 1) (es.map axisAt) := Nat.add_lt_add_right hpos _
        _ = p.1 * (indexOf c (i + 1) (es.map axisAt) + 1) := by ring
        _ ≤ p.1 * (es.map Prod.fst).prod := Nat.mul_le_mul_left p.1 hrest

theorem Loaded.length_place (h : Loaded f) (inp : Nat → ℚ) : (f.place inp).length = f.inputs := by
  rw [place, List.length_zip, List.length_map, List.length_range, h.sizes, min_self]

theorem Loaded.map_fst_place (h : Loaded f) (inp : Nat → ℚ) :
    (f.place inp).map Prod.fst = f.size := by
  refine List.map_fst_zip ?_
  rw [List.length_map, List.length_range, h.sizes]

theorem Loaded.getElem_place (h : Loaded f) (inp : Nat → ℚ) {i : Nat}
    (hi : i < (f.place inp).length) :
    (f.place inp)[i] = (f.size.getD i 0, f.encoded inp i) := by
  have hsize : i < f.size.length := by rwa [h.sizes, ← h.length_place inp]
  simp only [place, List.getElem_zip, List.getElem_map, List.getElem_range,
    List.getD_eq_getElem _ _ hsize]

theorem Loaded.axes_eq (h : Loaded f) (inp : Nat → ℚ) :
    f.axes inp = (f.place inp).map axisAt := by
  refine List.ext_getElem ?_ fun i hi hi' => ?_
  · rw [axes, List.length_map, List.length_map, List.length_range, h.length_place]
  · rw [List.getElem_map, h.getElem_place]
    simp only [axes, List.getElem_map, List.getElem_range]
    rfl

theorem Loaded.within (h : Loaded f) (inp : Nat → ℚ) : ∀ p ∈ f.place inp, Within p := by
  intro p hp
  obtain ⟨i, hi, rfl⟩ := List.getElem_of_mem hp
  rw [h.getElem_place]
  have hsize : i < f.size.length := by rwa [h.sizes, ← h.length_place inp]
  have hone : 1 ≤ f.size.getD i 0 := by
    rw [List.getD_eq_getElem _ _ hsize]
    exact h.one_le _ (List.getElem_mem hsize)
  have hone' : (1 : ℚ) ≤ f.size.getD i 0 := by exact_mod_cast hone
  exact ⟨hone, le_min (le_max_right _ _) (by linarith), min_le_right _ _⟩

theorem Loaded.bits_inside (h : Loaded f) {k o : Nat} (hk : k < f.size.prod) (ho : o < f.nOut) :
    (k * f.nOut + o) * f.bps + f.bps ≤ 8 * f.data.length := by
  have hrow : k * f.nOut + o + 1 ≤ f.size.prod * f.nOut := by
    calc k * f.nOut + o + 1 ≤ k * f.nOut + f.nOut := by omega
      _ = (k + 1) * f.nOut := by ring
      _ ≤ f.size.prod * f.nOut := Nat.mul_le_mul_right _ hk
  calc (k * f.nOut + o) * f.bps + f.bps = (k * f.nOut + o + 1) * f.bps := by ring
    _ ≤ f.size.prod * f.nOut * f.bps := Nat.mul_le_mul_right _ hrow
    _ ≤ 8 * f.data.length := h.room

theorem Loaded.corner_lt (h : Loaded f) (inp : Nat → ℚ) (c : Nat) :
    (corner (f.axes inp) c).2 < f.size.prod := by
  rw [corner_eq, h.axes_eq, ← h.map_fst_place inp]
  exact indexOf_lt (h.within inp) c 0

theorem Loaded.maxv_eq (h : Loaded f) : f.maxv = 2 ^ f.bps - 1 := by
  have hbps := h.bps
  rw [maxv]
  split_ifs with hwide
  · have heq : f.bps = 32 := by
      simp only [List.mem_cons, List.not_mem_nil, or_false] at hbps
      omega
    rw [heq]
    norm_num
  · rfl

/-- What is added at a corner is its decoded sample. -/
theorem Loaded.interp_sample (h : Loaded f) {k o : Nat} (hk : k < f.size.prod) (ho : o < f.nOut) :
    interp ((f.sample (k * f.nOut + o) : ℚ) / f.maxv) 0 1 (f.decode.getD (2 * o) 0)
      (f.decode.getD (2 * o + 1) 0) = f.decodedAt o k := by
  rw [interp, if_neg one_ne_zero, f.sample_eq (h.bits_inside hk ho), h.maxv_eq, decodedAt]
  ring

theorem Loaded.addCorner_eq (h : Loaded f) (inp : Nat → ℚ) (c : Nat) (g : Nat → ℚ) :
    f.addCorner (f.axes inp) c ((List.range f.nOut).map g) = (List.range f.nOut).map fun o =>
      g o + (corner (f.axes inp) c).1 * f.decodedAt o (corner (f.axes inp) c).2 := by
  rw [addCorner]
  split_ifs with hzero
  · simp only [hzero, zero_mul, add_zero]
  · refine List.ext_getElem (by simp) fun o ho ho' => ?_
    rw [List.length_map, List.length_range] at ho'
    simp only [List.getElem_mapIdx, List.getElem_map, List.getElem_range,
      h.interp_sample (h.corner_lt inp c) ho']

theorem Loaded.foldl_corners (h : Loaded f) (inp : Nat → ℚ) (n : Nat) :
    (List.range n).foldl (fun out c => f.addCorner (f.axes inp) c out) (List.replicate f.nOut 0) =
      (List.range f.nOut).map fun o => ∑ c ∈ Finset.range n,
        (corner (f.axes inp) c).1 * f.decodedAt o (corner (f.axes inp) c).2 := by
  induction n with
  | zero => simp
  | succ n ih =>
      rw [List.range_succ, List.foldl_append, ih, List.foldl_cons, List.foldl_nil, h.addCorner_eq]
      simp only [Finset.sum_range_succ]

theorem Loaded.sum_eq (h : Loaded f) (inp : Nat → ℚ) (v : Nat → ℚ) :
    ∑ c ∈ Finset.range (2 ^ f.inputs),
        (corner (f.axes inp) c).1 * v (corner (f.axes inp) c).2 =
      multilinear (f.place inp) fun ks => v (gridIndex f.size ks) := by
  have hsum := sum_corners (h.within inp) v
  rw [h.length_place, h.map_fst_place, ← h.axes_eq] at hsum
  simp only [corner_eq]
  exact hsum

theorem clipOut_map (f : SampledFn) (g : Nat → ℚ) :
    f.clipOut ((List.range f.nOut).map g) = (List.range f.nOut).map fun o => f.clipped o (g o) := by
  have hnOut : f.nOut = f.range.length / 2 := rfl
  rw [clipOut, if_neg (by omega)]
  refine List.ext_getElem (by simp) fun o ho ho' => ?_
  simp only [List.getElem_mapIdx, List.getElem_map, List.getElem_range]
  rfl

theorem Loaded.compute_eq (h : Loaded f) (inp : Nat → ℚ) :
    f.compute inp = (List.range f.nOut).map fun o =>
      f.clipped o (multilinear (f.place inp) (f.decoded o)) := by
  rw [compute, h.foldl_corners, clipOut_map]
  simp only [h.sum_eq]
  rfl

/-- A point's cell lies on the axes of the table. -/
theorem Loaded.onAxes (h : Loaded f) {inp : Nat → ℚ} {ks : List Nat}
    (hks : f.AtPoint inp ks) :
    OnAxes f.size ks := by
  have hlength : ks.length = f.inputs := by
    have hlen := congrArg List.length hks
    rw [List.length_map, List.length_range, List.length_map] at hlen
    exact hlen.symm
  refine List.forall₂_iff_get.mpr ⟨h.sizes.trans hlength.symm, fun i hi hi' => ?_⟩
  have hplace : i < (f.place inp).length := by rwa [h.length_place, ← h.sizes]
  have hwithin := h.within inp _ (List.getElem_mem hplace)
  rw [h.getElem_place] at hwithin
  have hget : f.encoded inp i = (ks.get ⟨i, hi'⟩ : ℚ) := by
    have hat : ((List.range f.inputs).map (f.encoded inp))[i]? =
        (ks.map fun k : Nat => (k : ℚ))[i]? := congrArg (·[i]?) hks
    rw [List.getElem?_map, List.getElem?_range (hlength ▸ hi'), List.getElem?_map,
      List.getElem?_eq_getElem hi'] at hat
    exact Option.some.inj hat
  have hlt : (ks.get ⟨i, hi'⟩ : ℚ) < (f.size.get ⟨i, hi⟩ : ℚ) := by
    have hle := hwithin.2.2
    simp only [List.getD_eq_getElem _ _ hi, hget] at hle
    exact lt_of_le_of_lt hle (sub_one_lt _)
  exact_mod_cast hlt

theorem Loaded.multilinear_decoded (h : Loaded f) {inp : Nat → ℚ} {ks : List Nat}
    (hks : f.AtPoint inp ks) (o : Nat) :
    multilinear (f.place inp) (f.decoded o) = f.decoded o ks := by
  have hks' : (List.range f.inputs).map (f.encoded inp) = ks.map fun k : Nat => (k : ℚ) := hks
  rw [place, hks', multilinear_point (h.onAxes hks)]

theorem Loaded.compute_point_eq (h : Loaded f) {inp : Nat → ℚ} {ks : List Nat}
    (hks : f.AtPoint inp ks) :
    f.compute inp = (List.range f.nOut).map fun o => f.clipped o (f.decoded o ks) := by
  rw [h.compute_eq]
  simp only [h.multilinear_decoded hks]

/-- Every function that is loaded evaluates to the interpolation of its decoded samples. -/
theorem init_evaluates (s : FnStream) (f : SampledFn) (h : init s = some f) (inp : Nat → ℚ) :
    f.Evaluates s inp := by
  obtain ⟨hloaded, hpadded⟩ := init_spec h
  refine ⟨hpadded, fun c _ o ho b hb => ?_, ?_, hloaded.compute_eq inp,
    fun ks hks => hloaded.compute_point_eq hks, fun ks hks hrange => ?_⟩
  · have hbits := hloaded.bits_inside (hloaded.corner_lt inp c) ho
    omega
  · have hsum := hloaded.sum_eq inp fun _ => 1
    simp only [mul_one] at hsum
    rw [hsum, multilinear_const]
  · rw [hloaded.compute_point_eq hks]
    refine List.map_congr_left fun o ho => ?_
    obtain ⟨hlow, hhigh⟩ := hrange o (List.mem_range.mp ho)
    rw [clipped, max_eq_left hlow, min_eq_left hhigh]

/-- A table of one byte, for a function of one input and one output, that lacks its second one. -/
def cutTable : FnStream where
  functionType := some 0
  domain := [0, 1]
  range := [0, 1]
  size := [2]
  bitsPerSample := some 8
  data := some [255]

/-- The function that is loaded for it. -/
def falling : SampledFn where
  domain := [0, 1]
  range := [0, 1]
  bps := 8
  size := [2]
  encode := [0, 1]
  decode := [0, 1]
  data := [255, 0]

theorem init_evaluates_cutTable : falling.Evaluates cutTable fun _ => 1 / 4 := by
  refine init_evaluates cutTable falling ?_ _
  have htrunc : trunc 2 = 2 := trunc_natCast 2
  have hsizes : readSizes [2] 1 = some [2] := by simp [readSizes, htrunc]
  have hbps : (8 : Int).bmod 4294967296 = 8 := by decide
  norm_num [init, cutTable, hsizes, hbps, falling, defaultEncode]
  decide

example : falling.compute (fun _ => 1 / 4) = [3 / 4] := by decide +kernel

end SampledFn

end Kura.Engine.Sampled
