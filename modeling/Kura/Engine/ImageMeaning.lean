import Kura.Engine.ImageResolution
import Mathlib.Algebra.Order.Floor.Ring
import Mathlib.Data.Rat.Floor
import Mathlib.Tactic.Linarith
import Mathlib.Tactic.NormNum

/-!
# What samples mean after a change of resolution

The samples of a resampled image are in the colour space of the source. The
larger image names it; the smaller one names a device colour space, whatever it
was. The range of samples is taken to be from zero to one, which it is not for
every colour space, and the mapped value is stored in 32 bits before it is moved
into its range. The larger image loses its mask in JPEG 2000 data.

An array that gives the ranges of samples is applied to them if every sample
then stands for the same value in the range of the colour space, up to half of
a step. The array has no effect on JPEG 2000 data.
-/

namespace Kura.Engine.ImageResolution

open Base (toInt32 lround abs_lround_sub_le toInt32_of_mem)

variable {μ : Type}

/-- The values that the samples of a component stand for if no array says so. -/
def naturalRange (cs : ColorSpace) (c : Nat) : ℚ × ℚ :=
  match cs with
  | .lab a b => [(0, 100), a, b][c]?.getD (0, 1)
  | .iccBased _ range => range[c]?.getD (0, 1)
  | .indexed _ => (0, 255)
  | _ => (0, 1)

/-- The value of a sample in a range. -/
def valueIn (range : ℚ × ℚ) (v : UInt8) : ℚ := range.1 + (v.toNat : ℚ) / 255 * (range.2 - range.1)

/-- A value that is moved into a range. -/
def clampTo (range : ℚ × ℚ) (q : ℚ) : ℚ := min (max q range.1) range.2

/-- A sample in one range stands for the same value as the mapped sample in another one. -/
def Applied (lib : Codecs μ) (pair range : ℚ × ℚ) : Prop :=
  ∀ v : UInt8, |valueIn range (mapSample lib pair v) - clampTo range (valueIn pair v)| ≤
    |range.2 - range.1| / 510

/-- Values with more steps than 32 bits can count are stored as numbers on their side. -/
def FarKept (lib : Codecs μ) (pair : ℚ × ℚ) : Prop :=
  ∀ v : UInt8,
    (2 ^ 31 ≤ lround (valueIn pair v * 255) → 255 ≤ roundedInt lib (valueIn pair v * 255)) ∧
    (lround (valueIn pair v * 255) < -2 ^ 31 → roundedInt lib (valueIn pair v * 255) ≤ 0)

variable {lib : Codecs μ} {q : ℚ}

/-- A number whose nearest integer has 32 bits is stored as that integer. -/
theorem roundedInt_near (h0 : -2 ^ 31 ≤ lround q) (h1 : lround q < 2 ^ 31) :
    roundedInt lib q = lround q := by
  have hlong : -2 ^ 63 ≤ lround q ∧ lround q < 2 ^ 63 := ⟨by omega, by omega⟩
  rw [roundedInt, if_pos hlong]
  exact toInt32_of_mem h0 h1

/-- A mapped sample is the number that is stored, moved into the range. -/
theorem toNat_mapSample (lib : Codecs μ) (pair : ℚ × ℚ) (v : UInt8) :
    ((mapSample lib pair v).toNat : ℤ) =
      min (max (roundedInt lib (valueIn pair v * 255)) 0) 255 := by
  have hmap : mapSample lib pair v =
      UInt8.ofNat (min (max (roundedInt lib (valueIn pair v * 255)) 0) 255).toNat := rfl
  have hlt : (min (max (roundedInt lib (valueIn pair v * 255)) 0) 255).toNat < 256 := by omega
  rw [hmap, UInt8.toNat_ofNat_of_lt' hlt]
  exact Int.toNat_of_nonneg (by omega)

/-- Moving into a range brings numbers no further apart. -/
theorem abs_clamp_sub_le (a b lo hi : ℚ) :
    |min (max a lo) hi - min (max b lo) hi| ≤ |a - b| :=
  (abs_min_sub_min_le_max _ _ _ _).trans (by
    rw [sub_self, abs_zero, max_eq_left (abs_nonneg _)]
    refine (abs_max_sub_max_le_max _ _ _ _).trans ?_
    rw [sub_self, abs_zero, max_eq_left (abs_nonneg _)])

/-- Numbers at most one half apart are still so when they are moved into the steps of a sample. -/
theorem abs_steps_sub_le {n : ℤ} {x : ℚ} (h : |(n : ℚ) - x| ≤ 1 / 2) :
    |((min (max n 0) 255 : ℤ) : ℚ) - min (max x 0) 255| ≤ 1 / 2 := by
  push_cast
  exact (abs_clamp_sub_le n x 0 255).trans h

/-- In the range from zero to one, half of a step is one half of a sample. -/
theorem applied_unit_iff_steps {pair : ℚ × ℚ} : Applied lib pair (0, 1) ↔ ∀ v : UInt8,
    |((min (max (roundedInt lib (valueIn pair v * 255)) 0) 255 : ℤ) : ℚ) -
      min (max (valueIn pair v * 255) 0) 255| ≤ 1 / 2 := by
  refine forall_congr' fun v => ?_
  have hvalue : valueIn (0, 1) (mapSample lib pair v) = (mapSample lib pair v).toNat / 255 := by
    unfold valueIn
    ring
  have hscale : min (max (valueIn pair v * 255) 0) 255 = clampTo (0, 1) (valueIn pair v) * 255 := by
    unfold clampTo
    rw [min_mul_of_nonneg _ _ (by norm_num : (0 : ℚ) ≤ 255),
      max_mul_of_nonneg _ _ (by norm_num : (0 : ℚ) ≤ 255), zero_mul, one_mul]
  rw [← toNat_mapSample, hvalue, hscale, Int.cast_natCast, abs_le, abs_le]
  norm_num
  constructor <;> rintro ⟨hlow, hhigh⟩ <;> constructor <;> linarith

/-- Samples from zero to one are mapped as they should be unless 32 bits are too few. -/
theorem applied_unit_iff {pair : ℚ × ℚ} : Applied lib pair (0, 1) ↔ FarKept lib pair := by
  rw [applied_unit_iff_steps]
  refine forall_congr' fun v => ?_
  generalize hx : valueIn pair v * 255 = x
  have hround := abs_lround_sub_le x
  obtain ⟨hlow, hhigh⟩ := abs_le.mp hround
  rcases lt_or_ge (lround x) (-2 ^ 31) with hbelow | hnear
  · -- far below the range, the sample has to be the first one
    have hint : (lround x : ℚ) ≤ -2 ^ 31 - 1 := by
      exact_mod_cast Int.le_sub_one_of_lt hbelow
    have hneg : x ≤ 0 := by linarith
    rw [max_eq_right hneg, min_eq_left (by norm_num : (0 : ℚ) ≤ 255), sub_zero]
    constructor
    · intro h
      refine ⟨fun habove => absurd (habove.trans_lt hbelow) (by norm_num), fun _ => ?_⟩
      by_contra hpos
      have hone : (1 : ℤ) ≤ min (max (roundedInt lib x) 0) 255 := by omega
      have hone' : (1 : ℚ) ≤ ((min (max (roundedInt lib x) 0) 255 : ℤ) : ℚ) := by
        exact_mod_cast hone
      linarith [(abs_le.mp h).2]
    · rintro ⟨-, h⟩
      have hzero : min (max (roundedInt lib x) 0) 255 = 0 := by
        have := h hbelow
        omega
      rw [hzero]
      norm_num
  · rcases lt_or_ge (lround x) (2 ^ 31) with hin | habove
    · rw [roundedInt_near hnear hin]
      refine iff_of_true (abs_steps_sub_le hround) ⟨fun h => ?_, fun h => ?_⟩
      · exact absurd hin (not_lt.mpr h)
      · exact absurd hnear (not_le.mpr h)
    · -- far above the range, the sample has to be the last one
      have hint : (2 ^ 31 : ℚ) ≤ lround x := by exact_mod_cast habove
      have hbig : 255 ≤ x := by linarith
      rw [max_eq_left (by linarith : 0 ≤ x), min_eq_right hbig]
      constructor
      · intro h
        refine ⟨fun _ => ?_, fun hbelow => absurd hnear (not_le.mpr hbelow)⟩
        by_contra hless
        have hlast : min (max (roundedInt lib x) 0) 255 ≤ (254 : ℤ) := by omega
        have hlast' : ((min (max (roundedInt lib x) 0) 255 : ℤ) : ℚ) ≤ 254 := by
          exact_mod_cast hlast
        linarith [(abs_le.mp h).1]
      · rintro ⟨h, -⟩
        have hend : min (max (roundedInt lib x) 0) 255 = 255 := by
          have := h habove
          omega
        rw [hend]
        norm_num

/-- The array of ranges has an effect on the samples, with its range of a component. -/
def RangeOf (lib : Codecs μ) (img : Image μ) (c : Nat) (pair : ℚ × ℚ) : Prop :=
  terminal img ≠ some "JPXDecode" ∧ ∃ src pairs, sourceOf lib img = some src ∧
    decodePairs img.decode src.comps = some pairs ∧ pairs[c]? = some pair

/-- The samples of a rewritten image are in the colour space that it names, and its masks and
ranges are those of the source. -/
structure KeepsMeaning (lib : Codecs μ) (img img' : Image μ) : Prop where
  space : isIndexed img.colorSpace = false → img.colorSpace ≠ .null →
    img'.colorSpace = img.colorSpace
  decode : img'.decode = img.decode ∨
    ∀ c pair, RangeOf lib img c pair → Applied lib pair (naturalRange img.colorSpace c)
  sMask : img'.sMask = img.sMask
  mask : img'.mask = img.mask
  imageMask : img'.imageMask = img.imageMask
  sMaskInData : img'.sMaskInData = img.sMaskInData

/-- An image that keeps its meaning: it has no mask in its data where samples are added, it is in
the device colour space where they are averaged, and its ranges are from zero to one and not too
wide for 32 bits. -/
structure Safe (lib : Codecs μ) (opt : Options) (wpt hpt : ℚ) (img : Image μ) : Prop where
  up : ∀ nw nh, route opt wpt hpt img = .up nw nh → img.sMaskInData = none
  down : ∀ nw nh src, route opt wpt hpt img = .down nw nh → sourceOf lib img = some src →
    isIndexed img.colorSpace = true ∨ img.colorSpace = .null ∨
      img.colorSpace = deviceSpace src.comps
  units : ∀ c pair, RangeOf lib img c pair → naturalRange img.colorSpace c = (0, 1) →
    FarKept lib pair
  ranges : ∀ c pair, RangeOf lib img c pair → naturalRange img.colorSpace c ≠ (0, 1) →
    Applied lib pair (naturalRange img.colorSpace c)

/-- The entries of a rewritten image that the paths have in common. -/
structure Edited (img img' : Image μ) : Prop where
  decode : img'.decode = none
  sMask : img'.sMask = img.sMask
  mask : img'.mask = img.mask
  imageMask : img'.imageMask = img.imageMask

variable {opt : Options} {img img' : Image μ} {nw nh : Nat}

theorem edited_upsample (h : upsample lib img nw nh = some img') : ∃ src,
    sourceOf lib img = some src ∧ Edited img img' ∧ img'.sMaskInData = none ∧
      img'.colorSpace = if isIndexed img.colorSpace ∨ img.colorSpace = .null then
        deviceSpace src.comps else img.colorSpace := by
  obtain ⟨src, hsrc, h⟩ := Option.bind_eq_some_iff.mp h
  refine ⟨src, hsrc, ?_⟩
  obtain ⟨-, h⟩ := Option.ite_none_left_eq_some.mp h
  cases h
  exact ⟨⟨rfl, rfl, rfl, rfl⟩, rfl, rfl⟩

/-- A downsampled image is edited, with the device space of its source. -/
theorem edited_downsample (h : downsample lib opt img nw nh = some img') : ∃ src,
    sourceOf lib img = some src ∧ Edited img img' ∧ img'.sMaskInData = img.sMaskInData ∧
      img'.colorSpace = deviceSpace src.comps := by
  obtain ⟨src, hsrc, h⟩ := Option.bind_eq_some_iff.mp h
  refine ⟨src, hsrc, ?_⟩
  obtain ⟨hkind, h⟩ := Option.ite_none_left_eq_some.mp h
  obtain ⟨small, -, h⟩ := Option.bind_eq_some_iff.mp h
  by_cases hbitmap : opt.imageDownsampleKind = "bitmap"
  · -- a bitmap has one component
    have hcomps : src.comps = 1 := by
      by_contra hne
      exact hkind (.inr ⟨.inr hbitmap, hne⟩)
    rw [if_pos hbitmap] at h
    obtain ⟨-, h⟩ := Option.ite_none_left_eq_some.mp h
    cases h
    refine ⟨⟨rfl, rfl, rfl, rfl⟩, rfl, ?_⟩
    rw [hcomps]
    rfl
  · rw [if_neg hbitmap] at h
    obtain ⟨-, h⟩ := Option.ite_none_left_eq_some.mp h
    cases h
    exact ⟨⟨rfl, rfl, rfl, rfl⟩, rfl, rfl⟩

/-- The ranges are applied exactly if those from zero to one are not too wide and the others
happen to be. -/
theorem decode_kept_iff (hnone : img'.decode = none) :
    (img'.decode = img.decode ∨
      ∀ c pair, RangeOf lib img c pair → Applied lib pair (naturalRange img.colorSpace c)) ↔
    (∀ c pair, RangeOf lib img c pair → naturalRange img.colorSpace c = (0, 1) →
      FarKept lib pair) ∧
    ∀ c pair, RangeOf lib img c pair → naturalRange img.colorSpace c ≠ (0, 1) →
      Applied lib pair (naturalRange img.colorSpace c) := by
  constructor
  · intro h
    have hall : ∀ c pair, RangeOf lib img c pair →
        Applied lib pair (naturalRange img.colorSpace c) := by
      intro c pair hrange
      obtain hsame | hall := h
      · obtain ⟨-, src, pairs, -, hpairs, -⟩ := hrange
        rw [← hsame, hnone] at hpairs
        cases hpairs
      · exact hall c pair hrange
    refine ⟨fun c pair hrange hunit => ?_, fun c pair hrange _ => hall c pair hrange⟩
    rw [← applied_unit_iff, ← hunit]
    exact hall c pair hrange
  · rintro ⟨hunits, hothers⟩
    right
    intro c pair hrange
    by_cases hunit : naturalRange img.colorSpace c = (0, 1)
    · rw [hunit, applied_unit_iff]
      exact hunits c pair hrange hunit
    · exact hothers c pair hrange hunit

/-- Plain data, packed as zlib does it for sixty-four grey samples and for sixteen others. -/
def plainCodecs : Codecs Unit where
  jpx := fun _ => none
  dct := fun _ => none
  inflate := fun _ => none
  streamData := fun img => some img.data
  flate := fun bytes =>
    if bytes.length = 64 then [120, 156, 107, 104, 160, 12, 0, 0, 16, 124, 32, 1]
    else
      [120, 156, 251, 255, 106, 255, 170, 171, 251, 167, 54, 52, 100, 57, 104, 135, 58, 136, 50, 0,
        0, 88, 200, 7, 251]
  jpeg := fun _ _ _ _ _ => []
  lroundFar := fun _ => -2 ^ 63

/-- A square image of plain samples of one component. -/
def plainImage (size : Nat) (cs : ColorSpace) : Image Unit where
  data := List.replicate (size * size) 128
  width := some size
  height := some size
  bitsPerComponent := some 8
  colorSpace := cs
  imageMask := false
  decode := none
  filter := .none
  decodeParms := none
  interpolate := none
  sMask := none
  mask := none
  sMaskInData := none

/-- Four grey samples that are inverted by their range. -/
def inverted : Image Unit :=
  { plainImage 2 (.name "DeviceGray") with
    data := [0, 85, 170, 255], decode := some [some 1, some 0] }

/-- The samples between the four. -/
def gradient : Bytes := [255, 234, 191, 170, 213, 191, 149, 128, 128, 106, 64, 43, 85, 64, 21, 0]

theorem rewrite_inverted :
    rewriteImage plainCodecs ⟨0, 0, "", 150, 144⟩ 2 2 inverted =
      some (replaceData inverted (plainCodecs.flate gradient) "FlateDecode" 4 4 8) := by
  have hroute : route ⟨0, 0, "", 150, 144⟩ 2 2 inverted = .up 4 4 := by decide +kernel
  have hsource : sourceOf plainCodecs inverted = some ⟨2, 2, 1, [255, 170, 85, 0]⟩ := by
    decide +kernel
  have hsamples : interpolated ⟨2, 2, 1, [255, 170, 85, 0]⟩ 4 4 = gradient := by decide +kernel
  rw [rewriteImage, hroute]
  dsimp only
  rw [upsample, hsource, Option.bind_some, hsamples]
  rfl

end Kura.Engine.ImageResolution
