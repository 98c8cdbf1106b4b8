import Kura.Base.Bits
import Kura.Engine.ImageResolution

/-!
# Averages over boxes

`boxDownsample` reads every pixel of the larger image for one pixel of the
smaller one, and what it writes is the average of the samples it reads.
-/

namespace Kura.Engine.ImageResolution

open Kura.Base (length_flatMap_rows getElem?_flatMap_rows)

variable {size outSize : Nat}

/-- The places of a cell. -/
def cellPlaces (size outSize x : Nat) : List Nat :=
  List.range' (cell size outSize x).1 ((cell size outSize x).2 - (cell size outSize x).1)

/-- A cell of an image that is not enlarged ends where the next one starts. -/
theorem cell_eq (hpos : 0 < outSize) (hle : outSize ≤ size) {x : Nat} (hx : x < outSize) :
    cell size outSize x = (x * size / outSize, (x + 1) * size / outSize) ∧
      x * size / outSize < (x + 1) * size / outSize := by
  have hlt : x * size / outSize < (x + 1) * size / outSize := by
    calc x * size / outSize < x * size / outSize + 1 := Nat.lt_succ_self _
      _ = (x * size + outSize) / outSize := (Nat.add_div_right _ hpos).symm
      _ ≤ (x + 1) * size / outSize := by
          rw [Nat.succ_mul]
          exact Nat.div_le_div_right (Nat.add_le_add_left hle _)
  have hend : (x + 1) * size / outSize ≤ size := by
    refine Nat.div_le_of_le_mul ?_
    exact Nat.mul_le_mul_right _ hx
  refine ⟨?_, hlt⟩
  rw [cell, if_neg (not_le.mpr hlt), min_eq_left hend]

/-- The first cells are the first places in order. -/
theorem flatMap_cellPlaces (hpos : 0 < outSize) (hle : outSize ≤ size) {n : Nat}
    (hn : n ≤ outSize) :
    (List.range n).flatMap (cellPlaces size outSize) = List.range (n * size / outSize) := by
  induction n with
  | zero => simp
  | succ n ih =>
      obtain ⟨hcell, hlt⟩ := cell_eq hpos hle hn
      have hjoin := @List.range'_append_1 0 (n * size / outSize)
        ((n + 1) * size / outSize - n * size / outSize)
      rw [Nat.zero_add, Nat.add_sub_cancel' hlt.le] at hjoin
      rw [List.range_succ, List.flatMap_append, ih (Nat.le_of_succ_le hn), List.flatMap_singleton,
        cellPlaces, hcell, List.range_eq_range', List.range_eq_range', hjoin]

/-- All cells together are all places in order. -/
theorem flatMap_cellPlaces_all (hpos : 0 < outSize) (hle : outSize ≤ size) :
    (List.range outSize).flatMap (cellPlaces size outSize) = List.range size := by
  rw [flatMap_cellPlaces hpos hle le_rfl, Nat.mul_div_cancel_left _ hpos]

theorem cellPlaces_ne_nil (hpos : 0 < outSize) (hle : outSize ≤ size) {x : Nat}
    (hx : x < outSize) : cellPlaces size outSize x ≠ [] := by
  obtain ⟨hcell, hlt⟩ := cell_eq hpos hle hx
  rw [cellPlaces, hcell, Ne, List.range'_eq_nil_iff]
  exact Nat.sub_ne_zero_of_lt hlt

variable (src : RawImage) (outW outH : Nat)

/-- The pixels that are read for a pixel, row by row. -/
def reads (x y : Nat) : List (Nat × Nat) :=
  (cellPlaces src.height.toNat outH y).flatMap fun yy =>
    (cellPlaces src.width.toNat outW x).map fun xx => (xx, yy)

/-- All pixels that are read, in the order of the pixels that are written. -/
def allReads : List (Nat × Nat) :=
  (List.range outH).flatMap fun y => (List.range outW).flatMap fun x => reads src outW outH x y

/-- All pixels of an image, row by row. -/
def pixels : List (Nat × Nat) :=
  (List.range src.height.toNat).flatMap fun yy =>
    (List.range src.width.toNat).map fun xx => (xx, yy)

/-- The place of a sample among the samples of an image. -/
def sampleIndex (p : Nat × Nat) (c : Nat) : Nat := (p.2 * src.width.toNat + p.1) * src.comps + c

/-- The samples that are averaged. -/
def values (x y c : Nat) : List Nat := (reads src outW outH x y).map fun p => sampleAt src p.1 p.2 c

variable {src outW outH}

theorem boxDownsample_eq (hw : 0 < outW) (hh : 0 < outH) (hcomps : src.comps ≠ 0)
    (hsize : src.width * src.height * src.comps ≤ src.samples.length) :
    boxDownsample src outW outH = some ((List.range outH).flatMap fun y =>
      (List.range outW).flatMap fun x => (List.range src.comps).map fun c =>
        UInt8.ofNat ((values src outW outH x y c).sum / (values src outW outH x y c).length)) := by
  rw [boxDownsample, if_neg (by omega), if_neg (by omega)]
  simp only [values, reads, List.map_flatMap, List.map_map]
  rfl

/-- The pixels that are read are all pixels, each of them once. -/
theorem allReads_perm (hw : 0 < outW) (hh : 0 < outH) (hwle : outW ≤ src.width.toNat)
    (hhle : outH ≤ src.height.toNat) : (allReads src outW outH).Perm (pixels src) := by
  have hrow : ∀ y, ((List.range outW).flatMap fun x => reads src outW outH x y).Perm
      ((cellPlaces src.height.toNat outH y).flatMap fun yy =>
        (List.range src.width.toNat).map fun xx => (xx, yy)) := by
    intro y
    rw [← flatMap_cellPlaces_all hw hwle]
    simp only [List.map_flatMap, reads]
    rw [← Multiset.coe_eq_coe]
    simp only [← Multiset.coe_bind]
    exact Multiset.bind_bind _ _
  have hall : pixels src = (List.range outH).flatMap fun y =>
      (cellPlaces src.height.toNat outH y).flatMap fun yy =>
        (List.range src.width.toNat).map fun xx => (xx, yy) := by
    rw [pixels, ← flatMap_cellPlaces_all hh hhle, List.flatMap_assoc]
  rw [hall, allReads]
  exact List.Perm.flatMap_left _ fun y _ => hrow y

theorem mem_pixels {p : Nat × Nat} :
    p ∈ pixels src ↔ p.1 < src.width.toNat ∧ p.2 < src.height.toNat := by
  simp only [pixels, List.mem_flatMap, List.mem_map, List.mem_range]
  refine ⟨?_, fun h => ⟨p.2, h.2, p.1, h.1, rfl⟩⟩
  rintro ⟨yy, hy, xx, hx, rfl⟩
  exact ⟨hx, hy⟩

theorem mem_pixels_of_mem_reads (hw : 0 < outW) (hh : 0 < outH) (hwle : outW ≤ src.width.toNat)
    (hhle : outH ≤ src.height.toNat) {x y : Nat} (hx : x < outW) (hy : y < outH)
    {p : Nat × Nat} (hp : p ∈ reads src outW outH x y) : p ∈ pixels src := by
  refine (allReads_perm hw hh hwle hhle).mem_iff.mp ?_
  rw [allReads, List.mem_flatMap]
  refine ⟨y, List.mem_range.mpr hy, ?_⟩
  rw [List.mem_flatMap]
  exact ⟨x, List.mem_range.mpr hx, hp⟩

/-- The samples of a pixel of the image are among its samples. -/
theorem sampleIndex_lt (hsize : src.width * src.height * src.comps ≤ src.samples.length)
    {p : Nat × Nat} (hp : p ∈ pixels src) {c : Nat} (hc : c < src.comps) :
    sampleIndex src p c < src.samples.length := by
  obtain ⟨hx, hy⟩ := mem_pixels.mp hp
  have hwidth : ((src.width.toNat : Nat) : Int) = src.width := Int.toNat_of_nonneg (by omega)
  have hheight : ((src.height.toNat : Nat) : Int) = src.height := Int.toNat_of_nonneg (by omega)
  rw [← hwidth, ← hheight] at hsize
  have hsize' : src.width.toNat * src.height.toNat * src.comps ≤ src.samples.length := by
    exact_mod_cast hsize
  calc sampleIndex src p c < (p.2 * src.width.toNat + p.1) * src.comps + src.comps :=
        Nat.add_lt_add_left hc _
    _ = (p.2 * src.width.toNat + p.1 + 1) * src.comps := (Nat.succ_mul _ _).symm
    _ ≤ ((p.2 + 1) * src.width.toNat) * src.comps := by
        refine Nat.mul_le_mul_right _ ?_
        rw [Nat.succ_mul]
        omega
    _ ≤ (src.height.toNat * src.width.toNat) * src.comps :=
        Nat.mul_le_mul_right _ (Nat.mul_le_mul_right _ hy)
    _ ≤ src.samples.length := by rwa [Nat.mul_comm src.height.toNat]

/-- An average lies between two of the numbers. -/
theorem exists_le_average {ns : List Nat} (h : ns ≠ []) :
    (∃ n ∈ ns, n ≤ ns.sum / ns.length) ∧ ∃ n ∈ ns, ns.sum / ns.length ≤ n := by
  have hpos : 0 < ns.length := List.length_pos_iff.mpr h
  have hlow := Nat.div_mul_le_self ns.sum ns.length
  have hhigh := Nat.lt_div_mul_add hpos (a := ns.sum)
  refine ⟨?_, ?_⟩
  · by_contra hnone
    have hall : ∀ n ∈ ns, ns.sum / ns.length + 1 ≤ n := fun n hn =>
      not_le.mp fun hle => hnone ⟨n, hn, hle⟩
    have hsum := List.card_nsmul_le_sum ns _ hall
    rw [smul_eq_mul, Nat.mul_comm, Nat.succ_mul] at hsum
    omega
  · by_contra hnone
    obtain ⟨n, hn⟩ := List.exists_mem_of_ne_nil ns h
    have hq : 0 < ns.sum / ns.length :=
      (Nat.zero_le n).trans_lt (not_le.mp fun hle => hnone ⟨n, hn, hle⟩)
    have hall : ∀ n ∈ ns, n ≤ ns.sum / ns.length - 1 := by
      intro n hn
      have hlt : n < ns.sum / ns.length := not_le.mp fun hle => hnone ⟨n, hn, hle⟩
      omega
    have hsum := List.sum_le_card_nsmul ns _ hall
    rw [smul_eq_mul, Nat.mul_comm, Nat.sub_mul, Nat.one_mul] at hsum
    have hle : ns.length ≤ ns.sum / ns.length * ns.length := Nat.le_mul_of_pos_left _ hq
    omega

theorem sampleAt_lt (x y c : Nat) : sampleAt src x y c < 256 := UInt8.toNat_lt_size _

/-- What averaging over boxes does to an image. -/
structure Averaged (src : RawImage) (outW outH : Nat) : Prop where
  /-- Each pixel is read for exactly one pixel that is written. -/
  partition : (allReads src outW outH).Perm (pixels src)
  bounds : ∀ x < outW, ∀ y < outH, ∀ c < src.comps, ∀ p ∈ reads src outW outH x y,
    sampleIndex src p c < src.samples.length
  written : src.comps ≠ 0 → ∃ out, boxDownsample src outW outH = some out ∧
    out.length = outH * (outW * src.comps) ∧
    ∀ x < outW, ∀ y < outH, ∀ c < src.comps, ∃ v, out[(y * outW + x) * src.comps + c]? = some v ∧
      -- the sum over the box, divided by the number of its pixels and rounded down
      v.toNat = ((reads src outW outH x y).map fun p => sampleAt src p.1 p.2 c).sum /
        (reads src outW outH x y).length ∧
      (∃ p ∈ reads src outW outH x y, sampleAt src p.1 p.2 c ≤ v.toNat) ∧
      ∃ p ∈ reads src outW outH x y, v.toNat ≤ sampleAt src p.1 p.2 c

/-- An image that is not enlarged is partitioned into boxes and read in bounds, and each sample
that is written is the average of its box, rounded down. -/
theorem boxDownsample_averaged (src : RawImage) {outW outH : Nat} (hw : 1 ≤ outW) (hh : 1 ≤ outH)
    (hwle : (outW : Int) ≤ src.width) (hhle : (outH : Int) ≤ src.height)
    (hsize : src.width * src.height * src.comps ≤ src.samples.length) :
    Averaged src outW outH := by
  have hwle' : outW ≤ src.width.toNat := by omega
  have hhle' : outH ≤ src.height.toNat := by omega
  refine ⟨allReads_perm hw hh hwle' hhle', ?_, fun hcomps => ?_⟩
  · intro x hx y hy c hc p hp
    exact sampleIndex_lt hsize (mem_pixels_of_mem_reads hw hh hwle' hhle' hx hy hp) hc
  · have hpixel : ∀ y, ∀ x ∈ List.range outW, ((List.range src.comps).map fun c =>
        UInt8.ofNat ((values src outW outH x y c).sum /
          (values src outW outH x y c).length)).length = src.comps := by
      intro y x _
      rw [List.length_map, List.length_range]
    have hrow : ∀ y ∈ List.range outH, ((List.range outW).flatMap fun x =>
        (List.range src.comps).map fun c =>
          UInt8.ofNat ((values src outW outH x y c).sum /
            (values src outW outH x y c).length)).length = outW * src.comps := by
      intro y _
      rw [length_flatMap_rows (hpixel y), List.length_range]
    refine ⟨_, boxDownsample_eq hw hh hcomps hsize, ?_, ?_⟩
    · rw [length_flatMap_rows hrow, List.length_range]
    · intro x hx y hy c hc
      have hindex : (y * outW + x) * src.comps + c =
          y * (outW * src.comps) + (x * src.comps + c) := by ring
      have hinner : x * src.comps + c < outW * src.comps := by
        calc x * src.comps + c < x * src.comps + src.comps := Nat.add_lt_add_left hc _
          _ = (x + 1) * src.comps := (Nat.succ_mul _ _).symm
          _ ≤ outW * src.comps := Nat.mul_le_mul_right _ hx
      have hx' : (List.range outW)[x]? = some x := List.getElem?_range hx
      have hy' : (List.range outH)[y]? = some y := List.getElem?_range hy
      rw [hindex, getElem?_flatMap_rows hrow hy' hinner, getElem?_flatMap_rows (hpixel y) hx' hc,
        List.getElem?_map, List.getElem?_range hc]
      refine ⟨_, rfl, ?_⟩
      have hne : values src outW outH x y c ≠ [] := by
        obtain ⟨yy, hyy⟩ := List.exists_mem_of_ne_nil _ (cellPlaces_ne_nil hh hhle' hy)
        obtain ⟨xx, hxx⟩ := List.exists_mem_of_ne_nil _ (cellPlaces_ne_nil hw hwle' hx)
        rw [values, Ne, List.map_eq_nil_iff, reads, List.flatMap_eq_nil_iff]
        intro hnil
        exact List.ne_nil_of_mem (List.mem_map_of_mem hxx) (hnil yy hyy)
      obtain ⟨⟨n, hn, hlow⟩, m, hm, hhigh⟩ := exists_le_average hne
      obtain ⟨p, hp, rfl⟩ := List.mem_map.mp hn
      obtain ⟨q, hq, rfl⟩ := List.mem_map.mp hm
      have hbyte : (values src outW outH x y c).sum / (values src outW outH x y c).length < 256 :=
        hhigh.trans_lt (sampleAt_lt _ _ _)
      have hlength : (values src outW outH x y c).length = (reads src outW outH x y).length :=
        List.length_map _
      rw [UInt8.toNat_ofNat_of_lt' hbyte]
      exact ⟨congrArg ((values src outW outH x y c).sum / ·) hlength, ⟨p, hp, hlow⟩, q, hq, hhigh⟩

/-- A row of three grey pixels, averaged to two. -/
theorem boxDownsample_averaged_row : Averaged ⟨3, 1, 1, [0, 100, 201]⟩ 2 1 :=
  boxDownsample_averaged ⟨3, 1, 1, [0, 100, 201]⟩ (by decide) (by decide) (by decide) (by decide)
    (by decide)

end Kura.Engine.ImageResolution
