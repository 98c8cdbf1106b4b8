import Kura.Base.Bits
import Kura.Engine.Number

/-!
# The size of a JPEG file

`jpegDims` looks for the first frame header: it goes from marker to marker by the
lengths of the segments, and byte by byte where there is no marker.

## Implementation notes

A byte that is read is looked up, and a reading behind the end gives nothing at
all. The three numbers are references, so that they keep their values where none
are found. A well-formed file is given by its segments; a marker has as many
bytes 0xFF before its own one as it likes.
-/

namespace Kura.Engine.JpegDims

open Kura.Base (forall_byte)

/-- The numbers of a frame header. -/
structure Dims where
  w : Nat
  h : Nat
  comps : Nat
  deriving DecidableEq

/-- Markers that no length follows. -/
def standalone (m : UInt8) : Bool := m == 0xD8 || (0xD0 ≤ m && m ≤ 0xD7) || m == 0x01

/-- Markers of frame headers. -/
def isFrame (m : UInt8) : Bool :=
  (0xC0 ≤ m && m ≤ 0xC3) || (0xC5 ≤ m && m ≤ 0xC7) || (0xC9 ≤ m && m ≤ 0xCB) ||
    (0xCD ≤ m && m ≤ 0xCF)

/-- A number of two bytes. -/
def word (a b : UInt8) : Nat := a.toNat * 256 + b.toNat

/-- The sizes that can be wrapped. -/
def Dims.usable (x : Dims) : Bool :=
  0 < x.w && 0 < x.h && (x.comps == 1 || x.comps == 3 || x.comps == 4)

/-- The numbers of the frame header whose marker is at a place. -/
def readFrame (d : Bytes) (i : Nat) : Option Dims := do
  let h1 ← d[i + 5]?
  let h0 ← d[i + 6]?
  let w1 ← d[i + 7]?
  let w0 ← d[i + 8]?
  let comps ← d[i + 9]?
  return ⟨word w1 w0, word h1 h0, comps.toNat⟩

/-- Where a round of the scan goes on; or the numbers of a frame header. -/
def scanStep (d : Bytes) (i : Nat) : Option (Dims ⊕ Nat) :=
  d[i]?.bind fun c =>
    if c ≠ 0xFF then some (.inr (i + 1))
    else d[i + 1]?.bind fun m =>
      if standalone m then some (.inr (i + 2))
      else d[i + 2]?.bind fun a => d[i + 3]?.bind fun b =>
        if isFrame m then (readFrame d i).map .inl else some (.inr (i + 2 + word a b))

/-- A step of the scan goes forward. -/
theorem lt_of_scanStep {d : Bytes} {i j : Nat} (h : scanStep d i = some (.inr j)) : i < j := by
  simp only [scanStep, Option.bind_eq_some_iff] at h
  obtain ⟨c, -, h⟩ := h
  by_cases hc : c ≠ 0xFF
  · rw [if_pos hc] at h
    have hj : i + 1 = j := Sum.inr.inj (Option.some.inj h)
    omega
  · rw [if_neg hc] at h
    obtain ⟨m, -, h⟩ := Option.bind_eq_some_iff.mp h
    by_cases hm : standalone m = true
    · rw [if_pos hm] at h
      have hj : i + 2 = j := Sum.inr.inj (Option.some.inj h)
      omega
    · rw [if_neg hm] at h
      obtain ⟨a, -, h⟩ := Option.bind_eq_some_iff.mp h
      obtain ⟨b, -, h⟩ := Option.bind_eq_some_iff.mp h
      by_cases hframe : isFrame m = true
      · rw [if_pos hframe] at h
        obtain ⟨x, -, hx⟩ := Option.map_eq_some_iff.mp h
        cases hx
      · rw [if_neg hframe] at h
        have hj : i + 2 + word a b = j := Sum.inr.inj (Option.some.inj h)
        omega

def scan (d : Bytes) (i : Nat) (dims : Dims) : Option (Bool × Dims) :=
  if i + 9 < d.length then
    match _h : scanStep d i with
    | none => none
    | some (.inl found) => some (found.usable, found)
    | some (.inr j) => scan d j dims
  else some (false, dims)
termination_by d.length - i
decreasing_by
  have hlt := lt_of_scanStep ‹_›
  omega

def jpegDims (d : Bytes) (dims : Dims) : Option (Bool × Dims) :=
  if d.length < 4 then some (false, dims)
  else d[0]?.bind fun c => d[1]?.bind fun m =>
    if c ≠ 0xFF ∨ m ≠ 0xD8 then some (false, dims) else scan d 2 dims

/-- A step within the bounds the loop checks reads in bounds. -/
theorem exists_scanStep {d : Bytes} {i : Nat} (h : i + 9 < d.length) :
    ∃ r, scanStep d i = some r := by
  have hread : ∀ k ≤ 9, ∃ c, d[i + k]? = some c := fun k hk =>
    ⟨_, List.getElem?_eq_getElem (by omega : i + k < d.length)⟩
  obtain ⟨c, hc⟩ : ∃ c, d[i]? = some c := hread 0 (by omega)
  obtain ⟨m, hm⟩ := hread 1 (by omega)
  obtain ⟨a, ha⟩ := hread 2 (by omega)
  obtain ⟨b, hb⟩ := hread 3 (by omega)
  obtain ⟨h1, hh1⟩ := hread 5 (by omega)
  obtain ⟨h0, hh0⟩ := hread 6 (by omega)
  obtain ⟨w1, hw1⟩ := hread 7 (by omega)
  obtain ⟨w0, hw0⟩ := hread 8 (by omega)
  obtain ⟨n, hn⟩ := hread 9 (by omega)
  have hframe : readFrame d i = some ⟨word w1 w0, word h1 h0, n.toNat⟩ := by
    rw [readFrame, hh1, hh0, hw1, hw0, hn]
    rfl
  rw [scanStep, hc, Option.bind_some, hm, Option.bind_some, ha, Option.bind_some, hb,
    Option.bind_some, hframe]
  split_ifs <;> exact ⟨_, rfl⟩

/-- The scan ends and has read no byte behind the end. -/
theorem scan_isSome (d : Bytes) (i : Nat) (dims : Dims) : (scan d i dims).isSome = true := by
  induction hn : d.length - i using Nat.strong_induction_on generalizing i with
  | _ n ih =>
      rw [scan]
      split_ifs with hin
      · obtain ⟨r, hr⟩ := exists_scanStep hin
        split
        · rename_i hnone
          rw [hr] at hnone
          cases hnone
        · rfl
        · rename_i j hj
          have hlt := lt_of_scanStep hj
          exact ih _ (by omega) j rfl
      · rfl

theorem jpegDims_isSome (d : Bytes) (dims : Dims) : (jpegDims d dims).isSome = true := by
  rw [jpegDims]
  split_ifs with hshort
  · rfl
  · have h0 : d[0]? = some d[0] := List.getElem?_eq_getElem (by omega)
    have h1 : d[1]? = some d[1] := List.getElem?_eq_getElem (by omega)
    rw [h0, h1, Option.bind_some, Option.bind_some]
    split_ifs
    · rfl
    · exact scan_isSome d 2 dims

/-- A marker behind fill bytes. -/
def marker (fill : Nat) (m : UInt8) : Bytes := List.replicate fill 0xFF ++ [0xFF, m]

/-- A part of a file before its first frame header. -/
inductive Segment where
  | alone (fill : Nat) (m : UInt8) (h : standalone m = true)
  /-- A segment with a length, which counts its own two bytes. -/
  | long (fill : Nat) (m a b : UInt8) (payload : Bytes)
      (h : standalone m = false ∧ isFrame m = false ∧ m ≠ 0 ∧ m ≠ 0xFF ∧ m ≠ 0xD9)
      (hlength : word a b = payload.length + 2)

namespace Segment

def bytes : Segment → Bytes
  | .alone fill m _ => marker fill m
  | .long fill m a b payload _ _ => marker fill m ++ a :: b :: payload

def fill : Segment → Nat
  | .alone fill _ _ => fill
  | .long fill _ _ _ _ _ _ => fill

end Segment

/-- A file from its start to the component bytes of its first frame header, and more. -/
structure Jpeg where
  segments : List Segment
  fill : Nat
  m : UInt8
  isFrame : isFrame m = true
  /-- The length and the precision. -/
  l1 : UInt8
  l0 : UInt8
  precision : UInt8
  h1 : UInt8
  h0 : UInt8
  w1 : UInt8
  w0 : UInt8
  comps : UInt8
  rest : Bytes
  components : 3 * comps.toNat ≤ rest.length

namespace Jpeg

def bytes (x : Jpeg) : Bytes :=
  [0xFF, 0xD8] ++ (x.segments.flatMap Segment.bytes ++ (marker x.fill x.m ++
    ([x.l1, x.l0, x.precision, x.h1, x.h0, x.w1, x.w0, x.comps] ++ x.rest)))

/-- The numbers of the first frame header. -/
def dims (x : Jpeg) : Dims := ⟨word x.w1 x.w0, word x.h1 x.h0, x.comps.toNat⟩

/-- No marker up to the frame header has fill bytes. -/
def Unfilled (x : Jpeg) : Prop := (∀ s ∈ x.segments, s.fill = 0) ∧ x.fill = 0

/-- The function reports the frame header if it is usable, and nothing otherwise. -/
def Reported (x : Jpeg) : Prop := ∀ dims, ∃ out,
  jpegDims x.bytes dims = some (x.dims.usable, out) ∧ (x.dims.usable = true → out = x.dims)

end Jpeg

variable {d pre tail : Bytes} {m a b : UInt8} {i j : Nat} {dims found : Dims}

theorem scan_of_next (hin : i + 9 < d.length) (h : scanStep d i = some (.inr j)) :
    scan d i dims = scan d j dims := by
  rw [scan, if_pos hin]
  split
  · rename_i hnone
    rw [h] at hnone
    cases hnone
  · rename_i hfound
    rw [h] at hfound
    cases hfound
  · rename_i hnext
    rw [h] at hnext
    cases hnext
    rfl

theorem scan_of_found (hin : i + 9 < d.length) (h : scanStep d i = some (.inl found)) :
    scan d i dims = some (found.usable, found) := by
  rw [scan, if_pos hin]
  split
  · rename_i hnone
    rw [h] at hnone
    cases hnone
  · rename_i hfound
    rw [h] at hfound
    cases hfound
    rfl
  · rename_i hnext
    rw [h] at hnext
    cases hnext

theorem getElem?_behind (pre tail : Bytes) (k : Nat) :
    (pre ++ tail)[pre.length + k]? = tail[k]? := by
  rw [List.getElem?_append_right (Nat.le_add_right _ _), Nat.add_sub_cancel_left]

/-- A marker without a length is passed over. -/
theorem scanStep_alone (hm : standalone m = true) :
    scanStep (pre ++ 0xFF :: m :: tail) pre.length = some (.inr (pre.length + 2)) := by
  have hff : (pre ++ 0xFF :: m :: tail)[pre.length]? = some 0xFF := getElem?_behind _ _ 0
  rw [scanStep, hff, Option.bind_some, if_neg (not_not.mpr rfl), getElem?_behind]
  simp only [List.getElem?_cons_succ, List.getElem?_cons_zero, Option.bind_some, if_pos hm]

/-- A segment is passed over by its length; what looks like a marker is taken for one. -/
theorem scanStep_long (hm : standalone m = false) (hframe : isFrame m = false) :
    scanStep (pre ++ 0xFF :: m :: a :: b :: tail) pre.length =
      some (.inr (pre.length + 2 + word a b)) := by
  have hff : (pre ++ 0xFF :: m :: a :: b :: tail)[pre.length]? = some 0xFF :=
    getElem?_behind _ _ 0
  rw [scanStep, hff, Option.bind_some, if_neg (not_not.mpr rfl)]
  simp only [getElem?_behind, List.getElem?_cons_succ, List.getElem?_cons_zero, Option.bind_some,
    hm, hframe, if_neg Bool.false_ne_true]

theorem standalone_of_isFrame (h : isFrame m = true) : standalone m = false :=
  forall_byte (P := fun m => isFrame m = true → standalone m = false) (by decide +kernel) m h

/-- A frame header is read. -/
theorem scanStep_frame (hframe : isFrame m = true) {l1 l0 p h1 h0 w1 w0 n : UInt8} :
    scanStep (pre ++ 0xFF :: m :: l1 :: l0 :: p :: h1 :: h0 :: w1 :: w0 :: n :: tail) pre.length =
      some (.inl ⟨word w1 w0, word h1 h0, n.toNat⟩) := by
  have hff : (pre ++ 0xFF :: m :: l1 :: l0 :: p :: h1 :: h0 :: w1 :: w0 :: n ::
      tail)[pre.length]? = some 0xFF := getElem?_behind _ _ 0
  rw [scanStep, hff, Option.bind_some, if_neg (not_not.mpr rfl)]
  simp only [getElem?_behind, List.getElem?_cons_succ, List.getElem?_cons_zero, Option.bind_some,
    standalone_of_isFrame hframe, if_neg Bool.false_ne_true, if_pos hframe, readFrame]
  rfl

theorem jpegDims_start (h : 2 ≤ tail.length) :
    jpegDims ([0xFF, 0xD8] ++ tail) dims = scan ([0xFF, 0xD8] ++ tail) 2 dims := by
  have hlength : ¬ ([0xFF, 0xD8] ++ tail).length < 4 := by
    rw [List.length_append]
    exact not_lt.mpr (Nat.add_le_add_left h 2)
  rw [jpegDims, if_neg hlength]
  rfl

/-- Segments without fill bytes are passed over, if enough follows them. -/
theorem scan_segments {segs : List Segment} (hfill : ∀ s ∈ segs, s.fill = 0)
    (htail : 10 ≤ tail.length) (pre : Bytes) :
    scan (pre ++ (segs.flatMap Segment.bytes ++ tail)) pre.length dims =
      scan ((pre ++ segs.flatMap Segment.bytes) ++ tail) (pre ++ segs.flatMap Segment.bytes).length
        dims := by
  induction segs generalizing pre with
  | nil => rw [List.flatMap_nil, List.nil_append, List.append_nil]
  | cons s segs ih =>
      have hs := hfill s List.mem_cons_self
      have hnext := ih (fun t ht => hfill t (List.mem_cons_of_mem _ ht)) (pre ++ s.bytes)
      have hassoc : pre ++ ((s :: segs).flatMap Segment.bytes ++ tail) =
          (pre ++ s.bytes) ++ (segs.flatMap Segment.bytes ++ tail) := by
        rw [List.flatMap_cons, List.append_assoc, List.append_assoc]
      have hstep : scanStep (pre ++ ((s :: segs).flatMap Segment.bytes ++ tail)) pre.length =
          some (.inr (pre ++ s.bytes).length) := by
        rw [hassoc, List.append_assoc]
        cases s with
        | alone fill m h =>
            obtain rfl : fill = 0 := hs
            rw [List.length_append]
            exact scanStep_alone h
        | long fill m a b payload h hlength =>
            obtain rfl : fill = 0 := hs
            have hlen : (pre ++ (Segment.long 0 m a b payload h hlength).bytes).length =
                pre.length + 2 + word a b := by
              rw [List.length_append, hlength]
              show pre.length + (payload.length + 4) = _
              omega
            rw [hlen]
            exact scanStep_long h.1 h.2.1
      have hin : pre.length + 9 < (pre ++ ((s :: segs).flatMap Segment.bytes ++ tail)).length := by
        rw [List.length_append, List.length_append]
        omega
      rw [scan_of_next hin hstep, hassoc, hnext, List.flatMap_cons, List.append_assoc pre]

/-- A file without fill bytes is reported. -/
theorem reported_of_unfilled (x : Jpeg) (h : x.Unfilled) : x.Reported := by
  obtain ⟨hsegments, hfill⟩ := h
  intro dims
  refine ⟨x.dims, ?_, fun _ => rfl⟩
  have hbytes : x.bytes = [0xFF, 0xD8] ++ (x.segments.flatMap Segment.bytes ++
      0xFF :: x.m :: x.l1 :: x.l0 :: x.precision :: x.h1 :: x.h0 :: x.w1 :: x.w0 :: x.comps ::
        x.rest) := by
    rw [Jpeg.bytes, hfill]
    rfl
  have hscan := @scan_segments (0xFF :: x.m :: x.l1 :: x.l0 :: x.precision :: x.h1 :: x.h0 ::
    x.w1 :: x.w0 :: x.comps :: x.rest) dims _ hsegments (by simp) [0xFF, 0xD8]
  rw [hbytes, jpegDims_start (by simp; omega)]
  refine hscan.trans ?_
  have hin : ([0xFF, 0xD8] ++ x.segments.flatMap Segment.bytes).length + 9 <
      (([0xFF, 0xD8] ++ x.segments.flatMap Segment.bytes) ++ 0xFF :: x.m :: x.l1 :: x.l0 ::
        x.precision :: x.h1 :: x.h0 :: x.w1 :: x.w0 :: x.comps :: x.rest).length := by
    simp only [List.length_append, List.length_cons]
    omega
  rw [scan_of_found hin (scanStep_frame x.isFrame)]
  rfl

/-- A fill byte is taken for a marker with a length; the two bytes behind it say where the scan
goes on. -/
theorem scanStep_fill :
    scanStep (pre ++ 0xFF :: 0xFF :: a :: b :: tail) pre.length =
      some (.inr (pre.length + 2 + word a b)) :=
  scanStep_long rfl rfl

/-- Where that is behind the end, nothing is reported. -/
theorem not_reported_of_fill {segs : List Segment} (hfill : ∀ s ∈ segs, s.fill = 0)
    (htail : 6 ≤ tail.length) (hend : tail.length < word a b + 7) (dims : Dims) :
    jpegDims ([0xFF, 0xD8] ++ (segs.flatMap Segment.bytes ++ 0xFF :: 0xFF :: a :: b :: tail)) dims =
      some (false, dims) := by
  have hscan := @scan_segments (0xFF :: 0xFF :: a :: b :: tail) dims _ hfill (by simp; omega)
    [0xFF, 0xD8]
  rw [jpegDims_start (by simp; omega)]
  refine hscan.trans ?_
  have hin : ([0xFF, 0xD8] ++ segs.flatMap Segment.bytes).length + 9 <
      (([0xFF, 0xD8] ++ segs.flatMap Segment.bytes) ++ 0xFF :: 0xFF :: a :: b :: tail).length := by
    simp only [List.length_append, List.length_cons]
    omega
  have hout : ¬ ([0xFF, 0xD8] ++ segs.flatMap Segment.bytes).length + 2 + word a b + 9 <
      (([0xFF, 0xD8] ++ segs.flatMap Segment.bytes) ++ 0xFF :: 0xFF :: a :: b :: tail).length := by
    simp only [List.length_append, List.length_cons]
    omega
  rw [scan_of_next hin scanStep_fill, scan, if_neg hout]

/-- The first fill byte of a file makes the scan go on behind the end. -/
def Jpeg.Overshoots (x : Jpeg) : Prop :=
  ∃ (segs : List Segment) (a b : UInt8) (tail : Bytes), (∀ s ∈ segs, s.fill = 0) ∧
    x.bytes = [0xFF, 0xD8] ++ (segs.flatMap Segment.bytes ++ 0xFF :: 0xFF :: a :: b :: tail) ∧
    6 ≤ tail.length ∧ tail.length < word a b + 7

theorem reported_iff_of_overshoots (x : Jpeg) (h : x.Overshoots) :
    x.Reported ↔ x.dims.usable = false := by
  obtain ⟨segs, a, b, tail, hfill, hbytes, htail, hend⟩ := h
  have hnone : ∀ dims, jpegDims x.bytes dims = some (false, dims) := by
    intro dims
    rw [hbytes]
    exact not_reported_of_fill hfill htail hend dims
  refine ⟨fun hreported => ?_, fun husable dims => ⟨dims, ?_, ?_⟩⟩
  · obtain ⟨out, hout, -⟩ := hreported x.dims
    rw [hnone] at hout
    exact (Prod.mk.inj (Option.some.inj hout)).1.symm
  · rw [hnone, husable]
  · rw [husable]
    exact fun hfalse => absurd hfalse Bool.false_ne_true

/-- Every string is scanned to an end without reading behind it, and a file is reported as it
should be if no marker up to its first frame header has fill bytes. Where the first fill byte
makes the scan go on behind the end, it is so only if there is nothing to report. -/
theorem jpegDims_total_and_reported (x : Jpeg) :
    (∀ d dims, (jpegDims d dims).isSome = true) ∧ (x.Unfilled → x.Reported) ∧
      (x.Overshoots → (x.Reported ↔ x.dims.usable = false)) :=
  ⟨jpegDims_isSome, reported_of_unfilled x, reported_iff_of_overshoots x⟩

/-- A grey pixel. -/
def plain : Jpeg where
  segments := []
  fill := 0
  m := 0xC0
  isFrame := rfl
  l1 := 0
  l0 := 11
  precision := 8
  h1 := 0
  h0 := 1
  w1 := 0
  w0 := 1
  comps := 1
  rest := [1, 0x11, 0, 0xFF, 0xD9]
  components := by decide

theorem plain_reported : plain.Reported :=
  (jpegDims_total_and_reported plain).2.1 ⟨fun _ hs => absurd hs List.not_mem_nil, rfl⟩

/-- The same with a fill byte in front of the frame header. -/
def filled : Jpeg := { plain with fill := 1 }

theorem filled_not_reported : ¬ ∀ x : Jpeg, x.Reported := by
  intro h
  obtain ⟨out, hout, -⟩ := h filled ⟨0, 0, 0⟩
  have hnone : jpegDims filled.bytes ⟨0, 0, 0⟩ = some (false, ⟨0, 0, 0⟩) :=
    @not_reported_of_fill [11, 8, 0, 1, 0, 1, 1, 1, 0x11, 0, 0xFF, 0xD9] 0xC0 0 [] (by simp)
      (by decide) (by decide) ⟨0, 0, 0⟩
  rw [hnone] at hout
  cases hout

end Kura.Engine.JpegDims
