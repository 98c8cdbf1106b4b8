import Kura.Base.Bits
import Kura.Engine.Number
import Mathlib.Algebra.Order.Floor.Ring
import Mathlib.Data.Rat.Floor

/-!
# Mesh shadings with new colours

The data of a mesh shading are vertices or patches, numbers of some bits each.
They are read one after the other and written anew with their colours mapped to
another colour space. Whether the records are padded to whole bytes is found out
by trying.

## Implementation notes

Numbers are exact. A reader is told by the bits that are left, a writer by the
bits it was given; `Takes` and `Puts` say so for what reads and writes. A flag
that cannot be read leaves the reader at its end, so the attempt is over and not
failed. The widths of flags are at most that of the variable they are read into.
-/

namespace Kura.Engine.Mesh

open Kura.Base

/-- Some data and the bit that is read next. -/
structure BitReader where
  data : Bytes
  pos : Nat := 0

namespace BitReader

variable (r : BitReader)

/-- Shifts in the bits of a number; nothing is read if the data ends before. -/
def readInto : Nat → Nat → BitReader → Option (Nat × BitReader)
  | 0, v, r => some (v, r)
  | n + 1, v, r =>
      if 8 * r.data.length ≤ r.pos then none
      else
        readInto n (2 * v + ((r.data.getD (r.pos / 8) 0).toNat.testBit (7 - r.pos % 8)).toNat)
          { r with pos := r.pos + 1 }

def read (bits : Nat) : Option (Nat × BitReader) := readInto bits 0 r

def align : BitReader := { r with pos := (r.pos + 7) / 8 * 8 }

def atEnd : Bool := 8 * r.data.length - r.pos < 8

def more : Bool := r.pos < 8 * r.data.length

/-- The bits that are left. -/
def rest : List Bool := (byteBits r.data).drop r.pos

end BitReader

/-- The bytes that are complete and the bits of the next one. -/
structure BitWriter where
  out : Bytes := []
  cur : Nat := 0
  n : Nat := 0
  lt : n < 8 := by decide

namespace BitWriter

variable (w : BitWriter)

def writeBit (b : Bool) : BitWriter :=
  if h : w.n + 1 = 8 then { out := w.out ++ [UInt8.ofNat (2 * w.cur + b.toNat)] }
  else
    { out := w.out
      cur := (2 * w.cur + b.toNat) % 256
      n := w.n + 1
      lt := lt_of_le_of_ne (Nat.succ_le_of_lt w.lt) h }

def write : Nat → Nat → BitWriter → BitWriter
  | 0, _, w => w
  | n + 1, v, w => write n v (w.writeBit (v.testBit n))

def align : BitWriter := (List.replicate ((8 - w.n) % 8) false).foldl writeBit w

/-- The bits that were written. -/
def bits : List Bool := byteBits w.out ++ toBits w.n w.cur

end BitWriter

namespace BitReader

variable {r r' r'' : BitReader} {n v : Nat} {bs bs' : List Bool}

/-- A reader takes some bits. -/
structure Takes (r : BitReader) (bs : List Bool) (r' : BitReader) : Prop where
  data : r'.data = r.data
  rest : r.rest = bs ++ r'.rest

theorem Takes.refl (r : BitReader) : Takes r [] r := ⟨rfl, rfl⟩

theorem Takes.trans (h : Takes r bs r') (h' : Takes r' bs' r'') : Takes r (bs ++ bs') r'' :=
  ⟨h'.data.trans h.data, by rw [h.rest, h'.rest, List.append_assoc]⟩

theorem length_rest (r : BitReader) : r.rest.length = 8 * r.data.length - r.pos := by
  rw [rest, List.length_drop, length_byteBits]

theorem more_iff (r : BitReader) : r.more = true ↔ r.rest ≠ [] := by
  rw [more, decide_eq_true_iff, ← List.length_pos_iff, length_rest]
  omega

theorem atEnd_iff (r : BitReader) : r.atEnd = true ↔ r.rest.length < 8 := by
  rw [atEnd, decide_eq_true_iff, length_rest]

/-- A number of n bits is read where n bits are left. -/
theorem readInto_eq (n v : Nat) (r : BitReader) : readInto n v r =
    if n ≤ r.rest.length then
      some (v * 2 ^ n + ofBits (r.rest.take n), { r with pos := r.pos + n })
    else none := by
  induction n generalizing v r with
  | zero => simp [readInto, ofBits]
  | succ n ih =>
      rw [readInto]
      by_cases hend : 8 * r.data.length ≤ r.pos
      · rw [if_pos hend, if_neg (by rw [length_rest]; omega)]
      · set b := (r.data.getD (r.pos / 8) 0).toNat.testBit (7 - r.pos % 8) with hb
        have hlt : r.pos / 8 < r.data.length := by omega
        have hbit : (byteBits r.data)[r.pos]? = some b := by
          rw [getElem?_byteBits, hb, List.getD_eq_getElem?_getD, List.getElem?_eq_getElem hlt]
          rfl
        have hrest : r.rest = b :: ({ r with pos := r.pos + 1 } : BitReader).rest := by
          rw [rest, List.drop_eq_getElem?_toList_append, hbit]
          rfl
        rw [if_neg hend, ih, hrest]
        simp only [List.length_cons, Nat.add_le_add_iff_right, List.take_succ_cons, ofBits_cons,
          Nat.add_assoc, Nat.add_comm 1 n]
        by_cases hn : n ≤ ({ r with pos := r.pos + 1 } : BitReader).rest.length
        · rw [if_pos hn, if_pos hn, List.length_take, Nat.min_eq_left hn]
          congr 2
          ring
        · rw [if_neg hn, if_neg hn]

theorem takes_of_read (h : r.read n = some (v, r')) : v < 2 ^ n ∧ Takes r (toBits n v) r' := by
  rw [read, readInto_eq, Nat.zero_mul, Nat.zero_add] at h
  split_ifs at h with hn
  rw [Option.some.injEq, Prod.mk.injEq] at h
  obtain ⟨rfl, rfl⟩ := h
  have hlen : (r.rest.take n).length = n := by rw [List.length_take, Nat.min_eq_left hn]
  have hbits : toBits n (ofBits (r.rest.take n)) = r.rest.take n := by
    have h := toBits_ofBits (r.rest.take n)
    rwa [hlen] at h
  refine ⟨by simpa only [hlen] using ofBits_lt (r.rest.take n), rfl, ?_⟩
  rw [hbits, rest, rest, ← List.drop_drop, List.take_append_drop]

theorem read_eq_none_iff : r.read n = none ↔ r.rest.length < n := by
  rw [read, readInto_eq]
  split_ifs with hn
  · simp [hn]
  · simpa using hn

/-- Alignment skips the bits up to the next byte. -/
theorem rest_align (r : BitReader) : r.align.rest = r.rest.drop (r.rest.length % 8) := by
  rw [rest, rest, List.drop_drop, align, List.length_drop, length_byteBits]
  by_cases hpos : r.pos ≤ 8 * r.data.length
  · congr 1
    simp only
    omega
  · rw [List.drop_of_length_le (by rw [length_byteBits]; simp only; omega),
      List.drop_of_length_le (by rw [length_byteBits]; omega)]

end BitReader

/-- The bits that fill the last byte. -/
def padding (n : Nat) : List Bool := List.replicate ((8 - n % 8) % 8) false

namespace BitWriter

variable (w : BitWriter)

/-- A bit written stands behind the bits before. -/
theorem bits_writeBit (b : Bool) : (w.writeBit b).bits = w.bits ++ [b] := by
  have hadd : toBits (w.n + 1) (2 * w.cur + b.toNat) = toBits w.n w.cur ++ [b] := by
    rw [toBits_add w.n 1]
    cases b with
    | true =>
        have hdiv : (2 * w.cur + 1) / 2 ^ 1 = w.cur := by omega
        have hodd : (2 * w.cur + 1).testBit 0 = true := by simp
        rw [Bool.toNat_true, hdiv, toBits, toBits, hodd]
    | false =>
        have hdiv : (2 * w.cur + 0) / 2 ^ 1 = w.cur := by omega
        have heven : (2 * w.cur + 0).testBit 0 = false := by simp
        rw [Bool.toNat_false, hdiv, toBits, toBits, heven]
  rw [writeBit]
  split_ifs with hfull
  · have hbyte : toBits 8 (UInt8.ofNat (2 * w.cur + b.toNat)).toNat = toBits w.n w.cur ++ [b] := by
      rw [UInt8.toNat_ofNat', toBits_mod 8 _ le_rfl, ← hadd, hfull]
    have hlast : byteBits [UInt8.ofNat (2 * w.cur + b.toNat)] = toBits w.n w.cur ++ [b] := by
      rw [← hbyte, byteBits_cons]
      exact List.append_nil _
    rw [bits, bits, byteBits_append, hlast, ← List.append_assoc]
    exact List.append_nil _
  · have hlt : w.n + 1 ≤ 8 := w.lt
    rw [bits, bits]
    simp only
    rw [show (256 : Nat) = 2 ^ 8 from rfl, toBits_mod _ _ hlt, hadd, List.append_assoc]

theorem bits_write (n v : Nat) : (w.write n v).bits = w.bits ++ toBits n v := by
  induction n generalizing w with
  | zero => exact (List.append_nil _).symm
  | succ n ih => rw [write, ih, bits_writeBit, List.append_assoc, toBits, List.singleton_append]

theorem length_bits : w.bits.length % 8 = w.n := by
  rw [bits, List.length_append, length_byteBits, length_toBits, Nat.mul_add_mod]
  exact Nat.mod_eq_of_lt w.lt

theorem bits_align : w.align.bits = w.bits ++ padding w.bits.length := by
  have hfold : ∀ (bs : List Bool) (w : BitWriter), (bs.foldl writeBit w).bits = w.bits ++ bs := by
    intro bs
    induction bs with
    | nil => exact fun w => (List.append_nil _).symm
    | cons b bs ih =>
        intro w
        rw [List.foldl_cons, ih, bits_writeBit, List.append_assoc, List.singleton_append]
  rw [align, hfold, padding, length_bits]

/-- Of an aligned writer all bits are in complete bytes. -/
theorem byteBits_align : byteBits w.align.out = w.bits ++ padding w.bits.length := by
  have hn : w.align.n = 0 := by
    rw [← length_bits, bits_align, List.length_append, padding, List.length_replicate]
    omega
  rw [← bits_align, bits, hn]
  exact (List.append_nil _).symm

end BitWriter

/-- What the loops are over for: a colour without an image, or data that ends too early. -/
inductive Stop where
  | refused
  | short
  deriving DecidableEq

/-- The entries of a mesh shading that are read, and its data if it can be decoded. -/
structure Shading where
  type : Nat
  bitsPerCoordinate : Int
  bitsPerComponent : Int
  bitsPerFlag : Int
  decode : Option (List ℚ)
  data : Option Bytes

/-- The widths of the numbers, the components of a colour before and after, and their ranges. -/
structure Layout where
  type : Nat
  bpc : Nat
  bpcomp : Nat
  bpf : Nat
  n : Nat
  dn : Nat
  decode : List ℚ

abbrev State := BitReader × BitWriter

namespace Layout

variable (l : Layout)

def maxComp : ℚ := 2 ^ l.bpcomp - 1

/-- The points of a record: fewer if a patch continues another one. -/
def points (flag : Nat) : Nat :=
  if l.type = 6 then if flag = 0 then 12 else 8
  else if l.type = 7 then if flag = 0 then 16 else 12
  else 1

def colours (flag : Nat) : Nat :=
  if l.type = 6 ∨ l.type = 7 then if flag = 0 then 4 else 2 else 1

/-- Copies points. -/
def copyPoints : Nat → State → Except Stop State
  | 0, s => .ok s
  | p + 1, s =>
      match s.1.read l.bpc with
      | none => .error .short
      | some (x, r) =>
          match r.read l.bpc with
          | none => .error .short
          | some (y, r) => copyPoints p (r, (s.2.write l.bpc x).write l.bpc y)

/-- Reads the components of a colour. -/
def readComps : Nat → BitReader → Option (List Nat × BitReader)
  | 0, r => some ([], r)
  | k + 1, r => (r.read l.bpcomp).bind fun v => (readComps k v.2).map fun vs => (v.1 :: vs.1, vs.2)

/-- The values of a colour, each in its range of the decode array. -/
def valuesOf (vs : List Nat) : List ℚ :=
  vs.zipIdx.map fun v => l.decode.getD (4 + 2 * v.2) 0 +
    (v.1 : ℚ) / l.maxComp * (l.decode.getD (5 + 2 * v.2) 0 - l.decode.getD (4 + 2 * v.2) 0)

/-- `lround` of a component, as an unsigned number. -/
def level (v : ℚ) : Nat := ⌊v * l.maxComp + 1 / 2⌋₊

variable (conv : List ℚ → Option (Nat → ℚ))

/-- Writes the components of a colour. -/
def writeComps (out : Nat → ℚ) (w : BitWriter) : BitWriter :=
  (List.range l.dn).foldl (fun w k => w.write l.bpcomp (l.level (out k))) w

/-- Maps colours. -/
def mapColours : Nat → State → Except Stop State
  | 0, s => .ok s
  | c + 1, s =>
      match l.readComps l.n s.1 with
      | none => .error .short
      | some (vs, r) =>
          match conv (l.valuesOf vs) with
          | none => .error .refused
          | some out => mapColours c (r, l.writeComps out s.2)

/-- The points and the colours of a record. -/
def record (flag : Nat) (s : State) : Except Stop State :=
  (l.copyPoints (l.points flag) s).bind (l.mapColours conv (l.colours flag))

/-- Goes on to the next record. -/
def advance (alignEach : Bool) (s : State) : State :=
  if alignEach then (s.1.align, s.2.align) else s

/-- The records one after the other. -/
def loop (alignEach : Bool) : Nat → Bool → State → Except Stop BitWriter
  | 0, _, s => .ok s.2
  | fuel + 1, first, s =>
      if !s.1.more then .ok s.2
      else if s.1.atEnd && !first then .ok s.2
      else
        match s.1.read l.bpf with
        -- the reader is at its end
        | none => .ok s.2
        | some (flag, r) =>
            (l.record conv flag (r, s.2.write l.bpf flag)).bind fun s =>
              loop alignEach fuel false (advance alignEach s)

def attempt (alignEach : Bool) (data : Bytes) : Except Stop BitWriter :=
  l.loop conv alignEach (8 * data.length) true ({ data := data }, {})

end Layout

namespace Shading

variable (m : Shading) (n dn : Nat)

/-- The layout of the data, if it is one that is read. -/
def layout? : Option Layout :=
  match m.decode with
  | none => none
  | some decode =>
      if m.bitsPerCoordinate < 1 ∨ 32 < m.bitsPerCoordinate ∨ m.bitsPerComponent < 1 ∨
          16 < m.bitsPerComponent ∨ decode.length ≠ 4 + 2 * n then none
      else
        some
          { type := m.type
            bpc := m.bitsPerCoordinate.toNat
            bpcomp := m.bitsPerComponent.toNat
            bpf := if m.type = 5 then 0 else m.bitsPerFlag.toNat
            n := n
            dn := dn
            decode := decode }

/-- The shading with new data; the ranges of the points stay. -/
def replaced (decode : List ℚ) (w : BitWriter) : Shading :=
  { m with
    decode := some (decode.take 4 ++ (List.replicate dn [0, 1]).flatten)
    data := some w.align.out }

/-- The second attempt is made if the data ends too early for the first one. -/
def outcome (decode : List ℚ) : Except Stop BitWriter → Except Stop BitWriter → Bool × Shading
  | .ok w, _ => (true, m.replaced dn decode w)
  | .error .refused, _ => (false, m)
  | .error .short, .ok w => (true, m.replaced dn decode w)
  | .error .short, .error _ => (false, m)

def meshVertices (conv : List ℚ → Option (Nat → ℚ)) : Bool × Shading :=
  match m.layout? n dn, m.data with
  | some l, some data =>
      m.outcome dn l.decode (l.attempt conv (m.type == 4) data) (l.attempt conv (m.type != 4) data)
  | _, _ => (false, m)

end Shading

end Kura.Engine.Mesh
