import Kura.Base.Bits
import Kura.Engine.ExactCalc
import Kura.Engine.Number
import Mathlib.Data.Nat.Digits.Defs

/-!
# Functions that are sampled

A function of colours is replaced by a table of its values at the points of a
grid, and the table is written as a function of type 0. What the loader makes of
such a stream is computed at the points of the grid.

## Implementation notes

Numbers are exact. `real` is the number that is read back for one that is
written to four decimals; all that matters is that it is monotone. The arrays of
numbers a function is called with are functions of the index. `weightOf` and
`indexOf` say what the loop over the axes of a corner adds up.
-/

namespace Kura.Engine.Sampled

open Kura.Base Kura.Engine.Calculator

/-- What is read of a function that is a stream; the data is missing if it cannot be decoded. -/
structure FnStream where
  functionType : Option Int
  domain : List ℚ
  range : List ℚ
  size : List ℚ
  bitsPerSample : Option Int
  encode : List ℚ := []
  decode : List ℚ := []
  data : Option Bytes

/-- A loaded function of type 0. -/
structure SampledFn where
  domain : List ℚ
  range : List ℚ
  bps : Nat
  size : List Nat
  encode : List ℚ
  decode : List ℚ
  data : Bytes

def interp (x xmin xmax ymin ymax : ℚ) : ℚ :=
  if xmax = xmin then ymin else ymin + (x - xmin) * (ymax - ymin) / (xmax - xmin)

/-- The sizes of a table with at most so many entries. -/
def readSizes : List ℚ → Int → Option (List Nat)
  | [], _ => some []
  | s :: sz, total =>
      if trunc s < 1 ∨ 2 ^ 20 < trunc s ∨ 16000000 < total * trunc s then none
      else (readSizes sz (total * trunc s)).map ((trunc s).toNat :: ·)

/-- Each input is taken to the whole of its axis. -/
def defaultEncode (size : List Nat) : List ℚ := size.flatMap fun n : Nat => [0, (n : ℚ) - 1]

namespace SampledFn

def init (s : FnStream) : Option SampledFn :=
  let m := s.domain.length / 2
  let nOut := s.range.length / 2
  let bps := (s.bitsPerSample.getD 0).bmod (2 ^ 32)
  if m < 1 ∨ 8 < m ∨ nOut < 1 ∨ 32 < nOut ∨ s.size.length ≠ m then none
  else if bps ∉ [1, 2, 4, 8, 12, 16, 24, 32] then none
  else
    (readSizes s.size 1).bind fun size =>
      s.data.map fun data =>
        let needBits := size.prod * nOut * bps.toNat
        { domain := s.domain
          range := s.range
          bps := bps.toNat
          size := size
          encode := if s.encode.length ≠ 2 * m then defaultEncode size else s.encode
          decode := if s.decode.length ≠ s.range.length then s.range else s.decode
          data :=
            if data.length * 8 < needBits then
              data ++ List.replicate ((needBits + 7) / 8 - data.length) 0
            else data }

variable (f : SampledFn)

def inputs : Nat := f.domain.length / 2

def nOut : Nat := f.range.length / 2

/-- One sample: its bits, the highest first. -/
def sample (k : Nat) : Nat :=
  (List.range f.bps).foldl (fun v b =>
    let p := k * f.bps + b
    2 * v + ((f.data.getD (p / 8) 0).toNat.testBit (7 - p % 8)).toNat) 0

/-- Where an input is on its axis. -/
structure Axis where
  size : Nat
  lo : Nat
  frac : ℚ

def axis (inp : Nat → ℚ) (i : Nat) : Axis :=
  let x := min (max (inp i) (f.domain.getD (2 * i) 0)) (f.domain.getD (2 * i + 1) 0)
  let size := f.size.getD i 0
  let e := interp x (f.domain.getD (2 * i) 0) (f.domain.getD (2 * i + 1) 0)
    (f.encode.getD (2 * i) 0) (f.encode.getD (2 * i + 1) 0)
  let e := min (max e 0) ((size : ℚ) - 1)
  let lo := if size - 1 ≤ ⌊e⌋₊ then size - 2 else ⌊e⌋₊
  { size := size, lo := lo, frac := if size = 1 then 0 else e - lo }

def axes (inp : Nat → ℚ) : List Axis := (List.range f.inputs).map (f.axis inp)

namespace Axis

/-- The place on an axis at the lower or the upper end. -/
def pos (a : Axis) (bit : Bool) : Nat := a.lo + if a.size = 1 then 0 else bit.toNat

def weight (a : Axis) (bit : Bool) : ℚ := if bit then a.frac else 1 - a.frac

end Axis

/-- The weight of a corner of the cell and its index in the table. -/
def corner (as : List Axis) (c : Nat) : ℚ × Nat :=
  let r := as.zipIdx.foldl (fun (r : ℚ × Nat × Nat) a =>
    let bit := c.testBit a.2
    (r.1 * a.1.weight bit, r.2.1 + a.1.pos bit * r.2.2, r.2.2 * a.1.size)) (1, 0, 1)
  (r.1, r.2.1)

def maxv : ℚ := if 32 ≤ f.bps then 4294967295 else 2 ^ f.bps - 1

/-- Adds the samples at a corner with its weight. -/
def addCorner (as : List Axis) (c : Nat) (out : List ℚ) : List ℚ :=
  let r := corner as c
  if r.1 = 0 then out
  else
    out.mapIdx fun o v => v + r.1 * interp ((f.sample (r.2 * f.nOut + o) : ℚ) / f.maxv) 0 1
      (f.decode.getD (2 * o) 0) (f.decode.getD (2 * o + 1) 0)

def clipOut (out : List ℚ) : List ℚ :=
  if f.range.length < 2 * f.nOut then out
  else out.mapIdx fun o v => min (max v (f.range.getD (2 * o) 0)) (f.range.getD (2 * o + 1) 0)

def compute (inp : Nat → ℚ) : List ℚ :=
  f.clipOut ((List.range (2 ^ f.inputs)).foldl (fun out c => f.addCorner (f.axes inp) c out)
    (List.replicate f.nOut 0))

end SampledFn

/-- `PdfFunction::load` of a stream of type 0. -/
def load (s : FnStream) : Option SampledFn :=
  if s.functionType = some 0 then SampledFn.init s else none

/-- The points of the grid along each axis. -/
def per (inputs : Nat) : Nat :=
  if inputs = 1 then 256 else if inputs = 2 then 33 else if inputs = 3 then 17
  else if inputs = 4 then 9 else if inputs = 5 then 6 else 4

/-- The points of the grid, counted in 64 bits. -/
def total (inputs : Nat) : Int := ((per inputs : Int) ^ inputs).bmod (2 ^ 64)

/-- The place of a point on each axis; the first one varies fastest. -/
def digits (per : Nat) : Nat → Nat → List Nat
  | 0, _ => []
  | n + 1, r => r % per :: digits per n (r / per)

/-- A point of the grid. -/
def point (domain : List ℚ) (per : Nat) (idx : List Nat) : Nat → ℚ := fun i =>
  domain.getD (2 * i) 0 +
    (domain.getD (2 * i + 1) 0 - domain.getD (2 * i) 0) * (idx.getD i 0 : ℚ) / ((per : ℚ) - 1)

/-- `lround` of a value between 0 and 1 taken 65535 times. -/
def level (v : ℚ) : Nat := ⌊min (max v 0) 1 * 65535 + 1 / 2⌋₊

/-- The samples of a point. -/
def row (outputs : Nat) (out : Nat → ℚ) : Bytes :=
  (List.range outputs).flatMap fun o =>
    [UInt8.ofNat (level (out o) / 256), UInt8.ofNat (level (out o) % 256)]

variable (real : ℚ → ℚ) (fn : (Nat → ℚ) → Option (Nat → ℚ))

/-- The samples of some points, if the function has a value at all of them. -/
def rows (domain : List ℚ) (inputs outputs : Nat) : List Nat → Option Bytes
  | [] => some []
  | k :: ks =>
      (fn (point domain (per inputs) (digits (per inputs) inputs k))).bind fun out =>
        (rows domain inputs outputs ks).map (row outputs out ++ ·)

/-- The stream that is written for a table. -/
def written (inputs : Nat) (domain : List ℚ) (outputs : Nat) (data : Bytes) : FnStream where
  functionType := some 0
  domain := (List.range inputs).flatMap fun i =>
    [real (domain.getD (2 * i) 0), real (domain.getD (2 * i + 1) 0)]
  range := (List.range outputs).flatMap fun _ => [0, 1]
  size := List.replicate inputs (per inputs : ℚ)
  bitsPerSample := some 16
  data := some data

/-- The function that is written, if the table is not too large. -/
def sampledFunction (inputs : Nat) (domain : List ℚ) (outputs : Nat) : Option FnStream :=
  if 2000000 < total inputs then none
  else
    (rows fn domain inputs outputs (List.range (total inputs).toNat)).map
      (written real inputs domain outputs)

/-- The values at a point of the grid, as they are written. -/
def values (inputs : Nat) (domain : List ℚ) (outputs : Nat) (idx : List Nat) : Option (List Nat) :=
  (fn (point domain (per inputs) idx)).map fun out =>
    (List.range outputs).map fun o => level (out o)

/-- A place on each axis of the grid. -/
structure OnGrid (inputs : Nat) (idx : List Nat) : Prop where
  length : idx.length = inputs
  lt : ∀ k ∈ idx, k < per inputs

/-- What is written is loaded, and has the values at the points of the grid that were written. -/
def ReadsBack (inputs : Nat) (domain : List ℚ) (outputs : Nat) (s : FnStream) : Prop :=
  ∃ f, load s = some f ∧ ∀ idx, OnGrid inputs idx →
    (values fn inputs domain outputs idx).map (List.map fun v : Nat => (v : ℚ) / 65535) =
      some (f.compute (point s.domain (per inputs) idx))

theorem four_le_per (inputs : Nat) : 4 ≤ per inputs := by
  unfold per
  split_ifs <;> decide

variable {inputs outputs : Nat} {domain : List ℚ}

theorem total_of_le (h : inputs ≤ 8) : (total inputs).toNat = per inputs ^ inputs := by
  interval_cases inputs <;> decide

theorem pow_per_le (h : inputs ≤ 8) : per inputs ^ inputs ≤ 65536 := by
  interval_cases inputs <;> decide

theorem readSizes_replicate {p : Nat} (h1 : 1 ≤ p) (h2 : p ≤ 2 ^ 20) (n t : Nat)
    (ht : t * p ^ n ≤ 16000000) :
    readSizes (List.replicate n (p : ℚ)) t = some (List.replicate n p) := by
  induction n generalizing t with
  | zero => rfl
  | succ n ih =>
      have hstep : t * p * p ^ n ≤ 16000000 := by rwa [Nat.mul_assoc, ← pow_succ']
      have hle : t * p ≤ 16000000 :=
        (Nat.le_mul_of_pos_right _ (Nat.pow_pos h1)).trans hstep
      have hcast : (t : Int) * (p : Int) = ((t * p : Nat) : Int) := by push_cast; rfl
      rw [List.replicate_succ, readSizes, trunc_natCast, hcast,
        if_neg (by push_cast; omega), ih _ hstep]
      rfl

/-- Pairs of numbers stand at even places. -/
theorem getD_pairs (g h : Nat → ℚ) {n i : Nat} (hi : i < n) :
    ((List.range n).flatMap fun i => [g i, h i]).getD (2 * i) 0 = g i ∧
      ((List.range n).flatMap fun i => [g i, h i]).getD (2 * i + 1) 0 = h i := by
  have hlen : ∀ a ∈ List.range n, [g a, h a].length = 2 := fun _ _ => rfl
  have hget : (List.range n)[i]? = some i := by rw [List.getElem?_range hi]
  have hlow := getElem?_flatMap_rows hlen hget (j := 0) (by decide)
  have hhigh := getElem?_flatMap_rows hlen hget (j := 1) (by decide)
  rw [Nat.mul_comm] at hlow hhigh
  constructor
  · rw [List.getD_eq_getElem?_getD, ← Nat.add_zero (2 * i), hlow]
    rfl
  · rw [List.getD_eq_getElem?_getD, hhigh]
    rfl

theorem length_pairs (g h : Nat → ℚ) (n : Nat) :
    ((List.range n).flatMap fun i => [g i, h i]).length = n * 2 := by
  rw [@length_flatMap_rows _ _ _ 2 _ fun _ _ => rfl, List.length_range]

/-- The function that is loaded for a table. -/
def loaded (inputs : Nat) (domain : List ℚ) (outputs : Nat) (data : Bytes) : SampledFn where
  domain := (written real inputs domain outputs data).domain
  range := (written real inputs domain outputs data).range
  bps := 16
  size := List.replicate inputs (per inputs)
  encode := defaultEncode (List.replicate inputs (per inputs))
  decode := (written real inputs domain outputs data).range
  data := data

theorem load_eq_init (data : Bytes) : load (written real inputs domain outputs data) =
    SampledFn.init (written real inputs domain outputs data) := if_pos rfl

theorem load_written_of_not {data : Bytes}
    (h : ¬ ((1 ≤ inputs ∧ inputs ≤ 8) ∧ 1 ≤ outputs ∧ outputs ≤ 32)) :
    load (written real inputs domain outputs data) = none := by
  have hm : (written real inputs domain outputs data).domain.length / 2 = inputs := by
    rw [written, length_pairs, Nat.mul_div_cancel _ (by decide)]
  have hn : (written real inputs domain outputs data).range.length / 2 = outputs := by
    rw [written, length_pairs, Nat.mul_div_cancel _ (by decide)]
  rw [load_eq_init, SampledFn.init]
  simp only [hm, hn]
  rw [if_pos (by omega)]

/-- The function that was written is loaded. -/
theorem load_written {data : Bytes} (hm : 1 ≤ inputs ∧ inputs ≤ 8) (hn : 1 ≤ outputs ∧ outputs ≤ 32)
    (hdata : data.length = per inputs ^ inputs * (outputs * 2)) :
    load (written real inputs domain outputs data) =
      some (loaded real inputs domain outputs data) := by
  have hin : (written real inputs domain outputs data).domain.length / 2 = inputs := by
    rw [written, length_pairs, Nat.mul_div_cancel _ (by decide)]
  have hlength : (written real inputs domain outputs data).range.length = outputs * 2 :=
    length_pairs _ _ _
  have hout : (written real inputs domain outputs data).range.length / 2 = outputs := by
    rw [hlength, Nat.mul_div_cancel _ (by decide)]
  have hper := four_le_per inputs
  have hper' : per inputs ≤ 256 := by
    unfold per
    split_ifs <;> decide
  have hsizes : readSizes (written real inputs domain outputs data).size 1 =
      some (List.replicate inputs (per inputs)) :=
    readSizes_replicate (by omega) (by omega) inputs 1
      (by rw [Nat.one_mul]; exact (pow_per_le hm.2).trans (by decide))
  have hbps : ((written real inputs domain outputs data).bitsPerSample.getD 0).bmod
      (2 ^ 32) = 16 := by
    change (16 : Int).bmod (2 ^ 32) = 16
    decide
  have hprod : (List.replicate inputs (per inputs)).prod = per inputs ^ inputs :=
      List.prod_replicate _ _
  have hroom : ¬ data.length * 8 < per inputs ^ inputs * outputs * 16 := by
    rw [hdata, Nat.not_lt]
    exact le_of_eq (by ring)
  have hnone : (written real inputs domain outputs data).encode.length ≠ 2 * inputs := by
    change 0 ≠ 2 * inputs
    omega
  have hnone' : (written real inputs domain outputs data).decode.length ≠
      (written real inputs domain outputs data).range.length := by
    rw [hlength]
    change 0 ≠ outputs * 2
    omega
  rw [load_eq_init, SampledFn.init]
  simp only [hin, hout, hbps, hsizes]
  rw [if_neg (by rw [written, List.length_replicate]; omega), if_neg (by decide), Option.bind_some]
  change some _ = _
  simp only [hprod, Int.reduceToNat]
  rw [if_pos hnone, if_pos hnone', if_neg hroom]
  rfl

namespace SampledFn

/-- The weight that the loop over the axes makes. -/
def weightOf (c : Nat) : Nat → List Axis → ℚ
  | _, [] => 1
  | i, a :: as => a.weight (c.testBit i) * weightOf c (i + 1) as

/-- The index that it makes. -/
def indexOf (c : Nat) : Nat → List Axis → Nat
  | _, [] => 0
  | i, a :: as => a.pos (c.testBit i) + a.size * indexOf c (i + 1) as

/-- A corner has its weight and its index. -/
theorem corner_eq (as : List Axis) (c : Nat) : corner as c = (weightOf c 0 as, indexOf c 0 as) := by
  have hloop : ∀ (i : Nat) (w : ℚ) (n stride : Nat),
      ∃ stride', (as.zipIdx i).foldl (fun (r : ℚ × Nat × Nat) a =>
        (r.1 * a.1.weight (c.testBit a.2), r.2.1 + a.1.pos (c.testBit a.2) * r.2.2,
          r.2.2 * a.1.size)) (w, n, stride) =
        (w * weightOf c i as, n + stride * indexOf c i as, stride') := by
    induction as with
    | nil => exact fun i w n stride => ⟨stride, by simp [weightOf, indexOf]⟩
    | cons a as ih =>
        intro i w n stride
        rw [List.zipIdx_cons, List.foldl_cons]
        obtain ⟨stride', h⟩ := ih (i + 1) (w * a.weight (c.testBit i))
          (n + a.pos (c.testBit i) * stride) (stride * a.size)
        refine ⟨stride', h.trans ?_⟩
        rw [weightOf, indexOf]
        congr 1
        · ring
        · congr 1
          ring
  obtain ⟨stride, h⟩ := hloop 0 1 0 1
  rw [corner]
  simp only [h, one_mul, Nat.zero_add]

/-- The bits of a corner from one on. -/
def bitsFrom (c i n : Nat) : List Bool := (List.range' i n).map c.testBit

/-- An axis at one of its ends. -/
def AtEnd (p : Nat) (a : Axis) (e : Bool × Nat) : Prop :=
  a.frac = (if e.1 then 1 else 0) ∧ a.pos e.1 = e.2 ∧ a.size = p

variable {p : Nat} {as : List Axis} {es : List (Bool × Nat)}

theorem weightOf_atEnd (h : List.Forall₂ (AtEnd p) as es) (c i : Nat) :
    weightOf c i as = if bitsFrom c i es.length = es.map Prod.fst then 1 else 0 := by
  induction h generalizing i with
  | nil => rfl
  | @cons a e as es ha _ ih =>
      have hbits : (bitsFrom c i (e :: es).length = (e :: es).map Prod.fst) ↔
          c.testBit i = e.1 ∧ bitsFrom c (i + 1) es.length = es.map Prod.fst := by
        rw [bitsFrom, List.length_cons, List.range'_succ, List.map_cons, List.map_cons,
          List.cons.injEq]
        rfl
      have hweight : a.weight (c.testBit i) = if c.testBit i = e.1 then 1 else 0 := by
        rw [Axis.weight, ha.1]
        cases c.testBit i <;> cases e.1 <;> simp
      rw [weightOf, ih, hweight, if_congr hbits rfl rfl, ite_and]
      split_ifs <;> simp

theorem indexOf_atEnd (h : List.Forall₂ (AtEnd p) as es) {c i : Nat}
    (hc : bitsFrom c i es.length = es.map Prod.fst) :
    indexOf c i as = Nat.ofDigits p (es.map Prod.snd) := by
  induction h generalizing i with
  | nil => rfl
  | @cons a e as es ha _ ih =>
      rw [bitsFrom, List.length_cons, List.range'_succ, List.map_cons, List.map_cons,
        List.cons.injEq] at hc
      rw [indexOf, hc.1, ha.2.1, ha.2.2, ih hc.2, List.map_cons, Nat.ofDigits_cons]

/-- One corner has all the bits, and no other of them. -/
theorem exists_corner (bs : List Bool) : ∃ c < 2 ^ bs.length, bitsFrom c 0 bs.length = bs ∧
    ∀ c' < 2 ^ bs.length, bitsFrom c' 0 bs.length = bs → c' = c := by
  set c := Nat.ofBits fun i : Fin bs.length => bs.get i with hc
  have hlt : c < 2 ^ bs.length := Nat.ofBits_lt_two_pow _
  have hbits : bitsFrom c 0 bs.length = bs := by
    refine List.ext_getElem (by simp [bitsFrom]) fun i hi hi' => ?_
    simp only [bitsFrom, List.getElem_map, List.getElem_range', Nat.one_mul, Nat.zero_add]
    rw [hc, Nat.testBit_ofBits_lt _ _ hi']
    rfl
  refine ⟨c, hlt, hbits, fun c' hlt' hc' => Nat.eq_of_testBit_eq fun i => ?_⟩
  by_cases hi : i < bs.length
  · have hsame : ∀ d, bitsFrom d 0 bs.length = bs → d.testBit i = bs[i] := by
      intro d hd
      have hget : (bitsFrom d 0 bs.length)[i]? = bs[i]? := congrArg (·[i]?) hd
      rw [bitsFrom, List.getElem?_map, List.getElem?_range' hi, List.getElem?_eq_getElem hi,
        Option.map_some, Option.some.injEq, Nat.one_mul, Nat.zero_add] at hget
      exact hget
    rw [hsame c' hc', hsame c hbits]
  · have hpow : 2 ^ bs.length ≤ 2 ^ i := Nat.pow_le_pow_right (by decide) (Nat.not_lt.mp hi)
    rw [Nat.testBit_lt_two_pow (hlt'.trans_le hpow), Nat.testBit_lt_two_pow (hlt.trans_le hpow)]

end SampledFn

/-- A sample is the number its bits write. -/
theorem SampledFn.sample_eq (f : SampledFn) {k : Nat} (h : k * f.bps + f.bps ≤ 8 * f.data.length) :
    f.sample k = ofBits (((byteBits f.data).drop (k * f.bps)).take f.bps) := by
  have hloop : ∀ n ≤ f.bps, (List.range n).foldl (fun v b =>
      2 * v + ((f.data.getD ((k * f.bps + b) / 8) 0).toNat.testBit
        (7 - (k * f.bps + b) % 8)).toNat) 0 =
      ofBits (((byteBits f.data).drop (k * f.bps)).take n) := by
    intro n hn
    induction n with
    | zero => rfl
    | succ n ih =>
        have hlt : (k * f.bps + n) / 8 < f.data.length := by omega
        have hbit : (byteBits f.data)[k * f.bps + n]? =
            some ((f.data.getD ((k * f.bps + n) / 8) 0).toNat.testBit
              (7 - (k * f.bps + n) % 8)) := by
          rw [getElem?_byteBits, List.getD_eq_getElem?_getD, List.getElem?_eq_getElem hlt]
          rfl
        rw [List.range_succ, List.foldl_append, ih (Nat.le_of_succ_le hn), ofBits_take_succ hbit]
        rfl
  exact hloop f.bps le_rfl

theorem level_le (v : ℚ) : level v ≤ 65535 := by
  have h : min (max v 0) 1 * 65535 + 1 / 2 < 65536 := by
    have hle : min (max v 0) 1 ≤ 1 := min_le_right _ _
    linarith
  have hlt : level v < 65536 := (Nat.floor_lt' (by decide)).mpr (by exact_mod_cast h)
  omega

theorem byteBits_level {v : Nat} (h : v ≤ 65535) :
    byteBits [UInt8.ofNat (v / 256), UInt8.ofNat (v % 256)] = toBits 16 v := by
  have hhigh : (UInt8.ofNat (v / 256)).toNat = v / 2 ^ 8 := by
    exact (UInt8.toNat_ofNat' ..).trans (Nat.mod_eq_of_lt (by omega))
  have hlow : (UInt8.ofNat (v % 256)).toNat = v % 2 ^ 8 := by
    exact (UInt8.toNat_ofNat' ..).trans (Nat.mod_eq_of_lt (by omega))
  rw [byteBits_cons, byteBits_cons, hhigh, hlow, toBits_mod 8 v le_rfl, toBits_add 8 8]
  exact congrArg _ (List.append_nil _)

/-- The values at a point, by its number. -/
def outAt (inputs : Nat) (domain : List ℚ) (k : Nat) : Nat → ℚ :=
  (fn (point domain (per inputs) (digits (per inputs) inputs k))).getD fun _ => 0

/-- The rows are the outputs of the function at the grid points. -/
theorem rows_spec {ks : List Nat} {data : Bytes}
    (h : rows fn domain inputs outputs ks = some data) :
    (∀ k ∈ ks, fn (point domain (per inputs) (digits (per inputs) inputs k)) =
        some (outAt fn inputs domain k)) ∧
      data = ks.flatMap fun k => row outputs (outAt fn inputs domain k) := by
  induction ks generalizing data with
  | nil =>
      cases h
      exact ⟨fun k hk => absurd hk List.not_mem_nil, rfl⟩
  | cons k ks ih =>
      rw [rows, Option.bind_eq_some_iff] at h
      obtain ⟨out, hout, h⟩ := h
      obtain ⟨rest, hrest, rfl⟩ := Option.map_eq_some_iff.mp h
      obtain ⟨hks, hdata⟩ := ih hrest
      have hk : outAt fn inputs domain k = out := by rw [outAt, hout, Option.getD_some]
      refine ⟨fun j hj => ?_, ?_⟩
      · rcases List.mem_cons.mp hj with rfl | hj
        · rw [hk, hout]
        · exact hks j hj
      · rw [List.flatMap_cons, hk, hdata]

theorem length_row (out : Nat → ℚ) : (row outputs out).length = outputs * 2 := by
  rw [row, @length_flatMap_rows _ _ _ 2 _ fun _ _ => rfl, List.length_range]

/-- The bits of the table are those of its values. -/
theorem byteBits_rows (g : Nat → Nat → ℚ) (ks : List Nat) :
    byteBits (ks.flatMap fun k => row outputs (g k)) =
      (ks.flatMap fun k => (List.range outputs).map fun o => level (g k o)).flatMap
        (toBits 16) := by
  have hrow : ∀ os : List Nat, ∀ out : Nat → ℚ, byteBits (os.flatMap fun o =>
      [UInt8.ofNat (level (out o) / 256), UInt8.ofNat (level (out o) % 256)]) =
      (os.map fun o => level (out o)).flatMap (toBits 16) := by
    intro os out
    induction os with
    | nil => rfl
    | cons o os ih =>
        rw [List.flatMap_cons, byteBits_append, ih, byteBits_level (level_le _), List.map_cons,
          List.flatMap_cons]
  induction ks with
  | nil => rfl
  | cons k ks ih =>
      rw [List.flatMap_cons, byteBits_append, ih, row, hrow, List.flatMap_cons, List.flatMap_append]

/-- Each value is read where it was written. -/
theorem sample_loaded {g : Nat → Nat → ℚ} {n k o : Nat} (hk : k < n) (ho : o < outputs) :
    (loaded real inputs domain outputs
      ((List.range n).flatMap fun k => row outputs (g k))).sample (k * outputs + o) =
      level (g k o) := by
  set f := loaded real inputs domain outputs ((List.range n).flatMap fun k =>
    row outputs (g k)) with hf
  set vs := (List.range n).flatMap fun k => (List.range outputs).map fun o => level (g k o) with hvs
  have hrows :
      ∀ k ∈ List.range n, ((List.range outputs).map fun o => level (g k o)).length = outputs :=
    fun _ _ => by rw [List.length_map, List.length_range]
  have hv : vs[k * outputs + o]? = some (level (g k o)) := by
    rw [hvs, getElem?_flatMap_rows hrows (List.getElem?_range hk) ho, List.getElem?_map,
      List.getElem?_range ho]
    rfl
  have hbits : byteBits f.data = vs.flatMap (toBits 16) := byteBits_rows g _
  have hlen : ∀ v ∈ vs, (toBits 16 v).length = 16 := fun v _ => length_toBits 16 v
  have hlt : k * outputs + o < vs.length := (List.getElem?_eq_some_iff.mp hv).1
  have hroom : (k * outputs + o) * f.bps + f.bps ≤ 8 * f.data.length := by
    rw [← length_byteBits, hbits, length_flatMap_rows hlen, hf, loaded]
    simp only
    omega
  rw [f.sample_eq hroom, hbits, show f.bps = 16 from rfl, take_drop_flatMap hlen hv, ofBits_toBits]
  have hle := level_le (g k o)
  exact Nat.mod_eq_of_lt (by omega)

theorem digits_ofDigits {p : Nat} {l : List Nat} (h : ∀ k ∈ l, k < p) :
    digits p l.length (Nat.ofDigits p l) = l := by
  induction l with
  | nil => rfl
  | cons k l ih =>
      have hk : k < p := h k List.mem_cons_self
      rw [List.length_cons, digits, Nat.ofDigits_cons, Nat.add_mul_mod_self_left,
        Nat.mod_eq_of_lt hk,
        Nat.add_mul_div_left _ _ (by omega), Nat.div_eq_of_lt hk, Nat.zero_add,
        ih fun j hj => h j (List.mem_cons_of_mem _ hj)]

/-- Where a point of the grid is found: at the start of an axis whose ends are written alike. -/
def place (domain : List ℚ) (idx : List Nat) (i : Nat) : Nat :=
  if real (domain.getD (2 * i) 0) = real (domain.getD (2 * i + 1) 0) then 0 else idx.getD i 0

def places (inputs : Nat) (domain : List ℚ) (idx : List Nat) : List Nat :=
  (List.range inputs).map (place real domain idx)

/-- The ends of the axes a point is at. -/
def ends (inputs : Nat) (domain : List ℚ) (idx : List Nat) : List (Bool × Nat) :=
  (List.range inputs).map fun i =>
    (decide (per inputs - 1 ≤ place real domain idx i), place real domain idx i)

variable {real} {idx : List Nat}

theorem getD_lt_per (hidx : OnGrid inputs idx) (i : Nat) : idx.getD i 0 < per inputs := by
  have hper := four_le_per inputs
  by_cases hi : i < idx.length
  · rw [List.getD_eq_getElem _ _ hi]
    exact hidx.lt _ (List.getElem_mem hi)
  · rw [List.getD_eq_default _ _ (Nat.not_lt.mp hi)]
    omega

theorem place_lt (hidx : OnGrid inputs idx) (i : Nat) : place real domain idx i < per inputs := by
  have hper := four_le_per inputs
  unfold place
  split_ifs
  · omega
  · exact getD_lt_per hidx i

theorem onGrid_places (hidx : OnGrid inputs idx) :
    OnGrid inputs (places real inputs domain idx) := by
  refine ⟨by rw [places, List.length_map, List.length_range], fun k hk => ?_⟩
  obtain ⟨i, -, rfl⟩ := List.mem_map.mp hk
  exact place_lt hidx i

/-- On its axis a point is at its place. -/
theorem interp_place {lo hi : ℚ} (hle : lo ≤ hi) {p k : Nat} (hp : 4 ≤ p) (hk : k < p) :
    interp (min (max (lo + (hi - lo) * (k : ℚ) / ((p : ℚ) - 1)) lo) hi) lo hi 0 ((p : ℚ) - 1) =
      ((if lo = hi then 0 else k : Nat) : ℚ) := by
  have hp' : (4 : ℚ) ≤ p := by exact_mod_cast hp
  have hk' : (k : ℚ) ≤ (p : ℚ) - 1 := by
    have hle : (k : ℚ) + 1 ≤ p := by exact_mod_cast hk
    linarith
  rcases hle.eq_or_lt with heq | hlt
  · rw [interp, if_pos heq.symm, if_pos heq, Nat.cast_zero]
  · have hwidth : 0 < hi - lo := sub_pos.mpr hlt
    have hpos : (0 : ℚ) < (p : ℚ) - 1 := by linarith
    have hge : lo ≤ lo + (hi - lo) * (k : ℚ) / ((p : ℚ) - 1) := by
      have hnonneg : 0 ≤ (hi - lo) * (k : ℚ) / ((p : ℚ) - 1) := by positivity
      linarith
    have hend : lo + (hi - lo) * (k : ℚ) / ((p : ℚ) - 1) ≤ hi := by
      have hquot : (hi - lo) * (k : ℚ) / ((p : ℚ) - 1) ≤ hi - lo := by
        rw [div_le_iff₀ hpos]
        exact mul_le_mul_of_nonneg_left hk' hwidth.le
      linarith
    rw [max_eq_left hge, min_eq_left hend, interp, if_neg hlt.ne', if_neg hlt.ne]
    field_simp
    ring

/-- A grid point stands at an end of its cell on each axis. -/
theorem axis_atEnd (hreal : Monotone real) (hlt : ∀ i < inputs, domain.getD (2 * i) 0 <
    domain.getD (2 * i + 1) 0) (hidx : OnGrid inputs idx) (data : Bytes) {i :
      Nat} (hi : i < inputs) :
    SampledFn.AtEnd (per inputs) ((loaded real inputs domain outputs data).axis
      (point (written real inputs domain outputs data).domain (per inputs) idx) i)
      (decide (per inputs - 1 ≤ place real domain idx i), place real domain idx i) := by
  have hper := four_le_per inputs
  obtain ⟨hlo, hhi⟩ := getD_pairs (fun i => real (domain.getD (2 * i) 0))
    (fun i => real (domain.getD (2 * i + 1) 0)) hi
  have hencode : defaultEncode (List.replicate inputs (per inputs)) =
      (List.range inputs).flatMap fun _ => [0, (per inputs : ℚ) - 1] := by
    have hmap : (List.range inputs).map (fun _ => per inputs) =
        List.replicate inputs (per inputs) := by
      rw [List.map_const', List.length_range]
    rw [defaultEncode, ← hmap, List.flatMap_map]
  obtain ⟨hfirst, hlast⟩ := getD_pairs (fun _ => 0) (fun _ => (per inputs : ℚ) - 1) hi
  have hsize : (List.replicate inputs (per inputs)).getD i 0 = per inputs := by
    rw [List.getD_eq_getElem _ _ (by rwa [List.length_replicate]), List.getElem_replicate]
  have hplace : place real domain idx i < per inputs := place_lt hidx i
  have he : interp
      (min (max (point (written real inputs domain outputs data).domain (per inputs) idx i)
      (real (domain.getD (2 * i) 0))) (real (domain.getD (2 * i + 1) 0)))
      (real (domain.getD (2 * i) 0)) (real (domain.getD (2 * i + 1) 0)) 0 ((per inputs : ℚ) - 1) =
      (place real domain idx i : ℚ) := by
    rw [point, written]
    simp only [hlo, hhi]
    exact interp_place (hreal (hlt i hi).le) hper (getD_lt_per hidx i)
  have hclip : min (max (place real domain idx i : ℚ) 0) ((per inputs : ℚ) - 1) =
      place real domain idx i := by
    have hle : (place real domain idx i : ℚ) + 1 ≤ per inputs := by exact_mod_cast hplace
    rw [max_eq_left (Nat.cast_nonneg _), min_eq_left (by linarith)]
  have hone : per inputs ≠ 1 := by omega
  have haxis : (loaded real inputs domain outputs data).axis
      (point (written real inputs domain outputs data).domain (per inputs) idx) i =
      ⟨per inputs, if per inputs - 1 ≤ place real domain idx i then per inputs - 2
        else place real domain idx i, place real domain idx i -
          ((if per inputs - 1 ≤ place real domain idx i then per inputs - 2
            else place real domain idx i : Nat) : ℚ)⟩ := by
    rw [SampledFn.axis]
    simp only [loaded, hencode, hfirst, hlast, hsize, if_neg hone]
    have hlo' : (written real inputs domain outputs data).domain.getD (2 * i) 0 =
        real (domain.getD (2 * i) 0) := hlo
    have hhi' : (written real inputs domain outputs data).domain.getD (2 * i + 1) 0 =
        real (domain.getD (2 * i + 1) 0) := hhi
    rw [hlo', hhi', he, hclip, Nat.floor_natCast]
  rw [haxis]
  refine ⟨?_, ?_, rfl⟩
  · by_cases hend : per inputs - 1 ≤ place real domain idx i
    · have heq : place real domain idx i = per inputs - 2 + 1 := by omega
      simp only [hend, if_true, decide_true]
      rw [heq]
      push_cast
      ring
    · simp only [hend, if_false, decide_false, sub_self, Bool.false_eq_true]
  · rw [SampledFn.Axis.pos]
    simp only [hone, if_false]
    by_cases hend : per inputs - 1 ≤ place real domain idx i
    · simp only [hend, if_true, decide_true, Bool.toNat_true]
      omega
    · simp only [hend, if_false, decide_false, Bool.toNat_false, Nat.add_zero]

/-- A loop of which one round does something is that round. -/
theorem foldl_eq_single {α σ : Type*} {step : σ → α → σ} {l : List α} {a : α} (hnodup : l.Nodup)
    (ha : a ∈ l) (h : ∀ b ∈ l, b ≠ a → ∀ s, step s b = s) (s : σ) : l.foldl step s = step s a := by
  have hnone : ∀ l' : List α, (∀ b ∈ l', ∀ s, step s b = s) → ∀ s, l'.foldl step s = s := by
    intro l' hl'
    induction l' with
    | nil => exact fun _ => rfl
    | cons b l' ih =>
        intro s
        rw [List.foldl_cons, hl' b List.mem_cons_self, ih fun c hc =>
          hl' c (List.mem_cons_of_mem _ hc)]
  obtain ⟨l₁, l₂, rfl⟩ := List.append_of_mem ha
  obtain ⟨-, hnodup₂, hdisjoint⟩ := List.nodup_append.mp hnodup
  have ha₂ : a ∉ l₂ := (List.nodup_cons.mp hnodup₂).1
  have hfirst : ∀ b ∈ l₁, ∀ s, step s b = s := fun b hb =>
    h b (List.mem_append_left _ hb) (hdisjoint b hb a List.mem_cons_self)
  have hlast : ∀ b ∈ l₂, ∀ s, step s b = s := fun b hb =>
    h b (List.mem_append_right _ (List.mem_cons_of_mem _ hb)) fun heq => ha₂ (heq ▸ hb)
  rw [List.foldl_append, hnone l₁ hfirst, List.foldl_cons, hnone l₂ hlast]

/-- At a point of the grid the loaded function has the sample of its place. -/
theorem compute_point (hreal : Monotone real) (hlt : ∀ i < inputs, domain.getD (2 * i) 0 <
    domain.getD (2 * i + 1) 0) (hidx : OnGrid inputs idx) {data : Bytes} {g : Nat → Nat}
    (hg : ∀ o < outputs, g o ≤ 65535 ∧ (loaded real inputs domain outputs data).sample
      (Nat.ofDigits (per inputs) (places real inputs domain idx) * outputs + o) = g o) :
    (loaded real inputs domain outputs data).compute
      (point (written real inputs domain outputs data).domain (per inputs) idx) =
      (List.range outputs).map fun o => (g o : ℚ) / 65535 := by
  set f := loaded real inputs domain outputs data with hf
  set inp := point (written real inputs domain outputs data).domain (per inputs) idx with hinp
  have hinputs : f.inputs = inputs := by
    rw [SampledFn.inputs, hf, loaded, written]
    simp only
    rw [length_pairs, Nat.mul_div_cancel _ (by decide)]
  have hrange : f.range.length = outputs * 2 := length_pairs _ _ _
  have hnOut : f.nOut = outputs := by
    rw [SampledFn.nOut, hrange, Nat.mul_div_cancel _ (by decide)]
  have hends : List.Forall₂ (SampledFn.AtEnd (per inputs)) (f.axes inp)
      (ends real inputs domain idx) := by
    rw [SampledFn.axes, ends, hinputs, List.forall₂_map_left_iff, List.forall₂_map_right_iff,
      List.forall₂_same]
    exact fun i hi => axis_atEnd hreal hlt hidx data (List.mem_range.mp hi)
  have hlength : (ends real inputs domain idx).length = inputs := by
    rw [ends, List.length_map, List.length_range]
  -- The corner all of whose weight the point has.
  obtain ⟨c, hc, hbits, hunique⟩ :=
    SampledFn.exists_corner ((ends real inputs domain idx).map Prod.fst)
  rw [List.length_map] at hc hbits hunique
  have hsnd : (ends real inputs domain idx).map Prod.snd = places real inputs domain idx := by
    rw [ends, List.map_map, places]
    rfl
  have hcorner : SampledFn.corner (f.axes inp) c =
      (1, Nat.ofDigits (per inputs) (places real inputs domain idx)) := by
    rw [SampledFn.corner_eq, SampledFn.weightOf_atEnd hends, if_pos hbits,
      SampledFn.indexOf_atEnd hends hbits, hsnd]
  have hother : ∀ c' ∈ List.range (2 ^ f.inputs), c' ≠ c → ∀ out,
      f.addCorner (f.axes inp) c' out = out := by
    intro c' hc' hne out
    rw [hinputs, ← hlength, List.mem_range] at hc'
    have hzero : (SampledFn.corner (f.axes inp) c').1 = 0 := by
      rw [SampledFn.corner_eq, SampledFn.weightOf_atEnd hends]
      exact if_neg fun h => hne (hunique c' hc' h)
    rw [SampledFn.addCorner]
    exact if_pos hzero
  have hmem : c ∈ List.range (2 ^ f.inputs) := by rwa [hinputs, ← hlength, List.mem_range]
  have hmaxv : f.maxv = 65535 := by
    rw [SampledFn.maxv, show f.bps = 16 from rfl, if_neg (by decide)]
    norm_num
  rw [SampledFn.compute, foldl_eq_single List.nodup_range hmem hother, SampledFn.clipOut,
    if_neg (by rw [hrange, hnOut]; omega), SampledFn.addCorner, hcorner, hnOut, hmaxv]
  simp only [one_ne_zero, if_false]
  refine List.ext_getElem (by simp) fun o ho ho' => ?_
  rw [List.length_map, List.length_range] at ho'
  obtain ⟨hlow, hhigh⟩ := getD_pairs (fun _ => 0) (fun _ => 1) ho'
  obtain ⟨hle, hsample⟩ := hg o ho'
  have hdecode : f.decode.getD (2 * o) 0 = 0 ∧ f.decode.getD (2 * o + 1) 0 = 1 := ⟨hlow, hhigh⟩
  have hclip : f.range.getD (2 * o) 0 = 0 ∧ f.range.getD (2 * o + 1) 0 = 1 := ⟨hlow, hhigh⟩
  have hvalue : (0 : ℚ) ≤ (g o : ℚ) / 65535 ∧ (g o : ℚ) / 65535 ≤ 1 := by
    have hle' : (g o : ℚ) ≤ 65535 := by exact_mod_cast hle
    exact ⟨by positivity, (div_le_one (by norm_num)).mpr hle'⟩
  have hinterp : interp ((g o : ℚ) / 65535) 0 1 0 1 = (g o : ℚ) / 65535 := by
    rw [interp, if_neg one_ne_zero]
    ring
  simp only [List.getElem_mapIdx, List.getElem_replicate, List.getElem_map, List.getElem_range,
    hdecode, hclip, hsample, hinterp, zero_add, one_mul, max_eq_left hvalue.1, min_eq_left hvalue.2]

theorem map_level_injective : Function.Injective
    (Option.map (List.map fun v : Nat => (v : ℚ) / 65535)) := by
  refine Option.map_injective (List.map_injective_iff.mpr fun v v' h => ?_)
  have heq : (v : ℚ) = v' := by
    rw [div_left_inj' (by norm_num)] at h
    exact h
  exact_mod_cast heq

/-- The loaded function has the values that were written at the places of the points. -/
theorem compute_eq_values (hreal : Monotone real) (hlt : ∀ i < inputs, domain.getD (2 * i) 0 <
    domain.getD (2 * i + 1) 0) (hm : inputs ≤ 8) {data : Bytes}
    (hdata : rows fn domain inputs outputs (List.range (total inputs).toNat) = some data)
    (hidx : OnGrid inputs idx) :
    (values fn inputs domain outputs (places real inputs domain idx)).map
        (List.map fun v : Nat => (v : ℚ) / 65535) =
      some ((loaded real inputs domain outputs data).compute
        (point (written real inputs domain outputs data).domain (per inputs) idx)) := by
  obtain ⟨hvalues, hrows⟩ := rows_spec fn hdata
  rw [total_of_le hm] at hvalues hrows
  have hgrid : OnGrid inputs (places real inputs domain idx) := onGrid_places hidx
  have hper := four_le_per inputs
  set k := Nat.ofDigits (per inputs) (places real inputs domain idx) with hk
  have hklt : k < per inputs ^ inputs := by
    have h := Nat.ofDigits_lt_base_pow_length (b := per inputs) (by omega) hgrid.lt
    rwa [hgrid.length] at h
  have hdigits : digits (per inputs) inputs k = places real inputs domain idx := by
    have h := digits_ofDigits hgrid.lt
    rwa [hgrid.length] at h
  have hout := hvalues k (List.mem_range.mpr hklt)
  rw [hdigits] at hout
  rw [values, hout, Option.map_some, Option.map_some, List.map_map, Option.some.injEq,
    compute_point hreal hlt hidx (g := fun o => level (outAt fn inputs domain k o)) fun o ho =>
      ⟨level_le _, by rw [hrows, sample_loaded real hklt ho]⟩]
  rfl

/-- The values do not depend on the inputs whose bounds are written alike. -/
def Separates (real : ℚ → ℚ) (fn : (Nat → ℚ) → Option (Nat → ℚ)) (inputs : Nat) (domain : List ℚ)
    (outputs : Nat) : Prop :=
  ∀ idx idx', OnGrid inputs idx → OnGrid inputs idx' →
    (∀ i < inputs, real (domain.getD (2 * i) 0) ≠ real (domain.getD (2 * i + 1) 0) →
      idx.getD i 0 = idx'.getD i 0) →
    values fn inputs domain outputs idx = values fn inputs domain outputs idx'

/-- The inputs are separated when the values at the places read are those of the grid. -/
theorem separates_iff : Separates real fn inputs domain outputs ↔ ∀ idx, OnGrid inputs idx →
    values fn inputs domain outputs (places real inputs domain idx) =
      values fn inputs domain outputs idx := by
  have hget : ∀ (idx : List Nat) {i : Nat}, i < inputs →
      (places real inputs domain idx).getD i 0 = place real domain idx i := by
    intro idx i hi
    rw [places, List.getD_eq_getElem _ _ (by simpa using hi), List.getElem_map, List.getElem_range]
  constructor
  · intro h idx hidx
    refine h _ _ (onGrid_places hidx) hidx fun i hi hne => ?_
    rw [hget idx hi, place, if_neg hne]
  · intro h idx idx' hidx hidx' hsame
    have hplaces : places real inputs domain idx = places real inputs domain idx' := by
      refine List.map_congr_left fun i hi => ?_
      unfold place
      split_ifs with hwritten
      · rfl
      · exact hsame i (List.mem_range.mp hi) hwritten
    rw [← h idx hidx, ← h idx' hidx', hplaces]

/-- A function that is written is loaded and has its values at the points of the grid exactly if
it has at most 8 inputs and at most 32 outputs, at least one of each, and its values do not
depend on inputs whose bounds are written alike. -/
theorem readsBack_iff (hreal : Monotone real) (hlt : ∀ i < inputs, domain.getD (2 * i) 0 <
    domain.getD (2 * i + 1) 0) {s : FnStream}
    (hs : sampledFunction real fn inputs domain outputs = some s) :
    ReadsBack fn inputs domain outputs s ↔
      ((1 ≤ inputs ∧ inputs ≤ 8) ∧ 1 ≤ outputs ∧ outputs ≤ 32) ∧
        Separates real fn inputs domain outputs := by
  rw [sampledFunction] at hs
  split_ifs at hs
  obtain ⟨data, hdata, rfl⟩ := Option.map_eq_some_iff.mp hs
  by_cases hsize : (1 ≤ inputs ∧ inputs ≤ 8) ∧ 1 ≤ outputs ∧ outputs ≤ 32
  · have hlength : data.length = per inputs ^ inputs * (outputs * 2) := by
      rw [(rows_spec fn hdata).2, length_flatMap_rows fun k _ => length_row _, List.length_range,
        total_of_le hsize.1.2]
    have hload : load (written real inputs domain outputs data) =
        some (loaded real inputs domain outputs data) := load_written real hsize.1 hsize.2 hlength
    have hcompute : ∀ idx, OnGrid inputs idx → _ := fun idx hidx =>
      compute_eq_values fn hreal hlt hsize.1.2 hdata hidx
    rw [and_iff_right hsize, separates_iff]
    constructor
    · rintro ⟨f, hf, hall⟩ idx hidx
      rw [hload, Option.some.injEq] at hf
      subst hf
      exact map_level_injective ((hcompute idx hidx).trans (hall idx hidx).symm)
    · refine fun h => ⟨_, hload, fun idx hidx => ?_⟩
      rw [← h idx hidx]
      exact hcompute idx hidx
  · refine iff_of_false ?_ fun h => hsize h.1
    rintro ⟨f, hf, -⟩
    rw [load_written_of_not real hsize] at hf
    cases hf

theorem rows_isSome (h : ∀ x, (fn x).isSome) (ks : List Nat) :
    (rows fn domain inputs outputs ks).isSome := by
  induction ks with
  | nil => rfl
  | cons k ks ih =>
      obtain ⟨out, hout⟩ := Option.isSome_iff_exists.mp (h (point domain (per inputs)
        (digits (per inputs) inputs k)))
      rw [rows, hout, Option.bind_some, Option.isSome_map]
      exact ih

theorem monotone_round4 : Monotone round4 := by
  intro x y h
  unfold round4
  gcongr

/-- The table of a function with one input that it leaves as it is. -/
def identityTable : Bytes := (rows some [0, 1] 1 1 (List.range (total 1).toNat)).getD []

theorem readsBack_iff_identity :
    ReadsBack some 1 [0, 1] 1 (written round4 1 [0, 1] 1 identityTable) := by
  have hrows : rows some [0, 1] 1 1 (List.range (total 1).toNat) = some identityTable :=
    (Option.getD_of_ne_none (Option.isSome_iff_ne_none.mp (rows_isSome some (fun _ => rfl) _))
      _).symm
  have hone : ∀ i < 1, ([0, 1] : List ℚ).getD (2 * i) 0 < ([0, 1] : List ℚ).getD (2 * i + 1) 0 := by
    intro i hi
    rw [Nat.lt_one_iff.mp hi]
    exact zero_lt_one
  have hwritten : sampledFunction round4 some 1 [0, 1] 1 =
      some (written round4 1 [0, 1] 1 identityTable) := by
    rw [sampledFunction, if_neg (by decide), hrows, Option.map_some]
  refine (readsBack_iff some monotone_round4 hone hwritten).mpr ⟨by decide, ?_⟩
  intro idx idx' hidx hidx' hsame
  have hne : round4 (([0, 1] : List ℚ).getD (2 * 0) 0) ≠ round4
      (([0, 1] : List ℚ).getD (2 * 0 + 1) 0) := by
    norm_num [round4]
  have hfirst := hsame 0 Nat.zero_lt_one hne
  obtain ⟨k, rfl⟩ := List.length_eq_one_iff.mp hidx.length
  obtain ⟨k', rfl⟩ := List.length_eq_one_iff.mp hidx'.length
  rw [show k = k' from hfirst]

/-- A function with nine inputs is written, but not loaded. -/
theorem nine_inputs_lost :
    ¬ ∀ (real : ℚ → ℚ) (fn : (Nat → ℚ) → Option (Nat → ℚ)) (inputs outputs : Nat) (domain : List ℚ)
      (s : FnStream), Monotone real → domain.length = 2 * inputs →
        (∀ i < inputs, domain.getD (2 * i) 0 < domain.getD (2 * i + 1) 0) →
        sampledFunction real fn inputs domain outputs = some s →
        ReadsBack fn inputs domain outputs s := by
  intro h
  set domain : List ℚ := (List.range 9).flatMap fun _ => [0, 1] with hdomain
  obtain ⟨data, hdata⟩ := Option.isSome_iff_exists.mp
    (@rows_isSome (fun _ => some fun _ => 0) 9 1 domain (fun _ => rfl)
      (List.range (total 9).toNat))
  have hwritten : sampledFunction round4 (fun _ => some fun _ => 0) 9 domain 1 =
      some (written round4 9 domain 1 data) := by
    rw [sampledFunction, if_neg (by decide), hdata, Option.map_some]
  have hlt : ∀ i < 9, domain.getD (2 * i) 0 < domain.getD (2 * i + 1) 0 := by
    intro i hi
    obtain ⟨hlow, hhigh⟩ := getD_pairs (fun _ => 0) (fun _ => 1) hi
    rw [hlow, hhigh]
    exact zero_lt_one
  obtain ⟨f, hf, -⟩ := h _ _ 9 1 domain _ monotone_round4 (length_pairs _ _ 9) hlt hwritten
  rw [load_written_of_not round4 (by decide)] at hf
  cases hf

end Kura.Engine.Sampled
