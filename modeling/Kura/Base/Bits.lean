import Mathlib.Data.Nat.Bitwise
import Mathlib.Data.List.Basic
import Mathlib.Tactic.Ring

/-!
# Numbers as bits

Numbers of a fixed width are written one after the other as bits, the highest
bit first, and the bits are packed into bytes. What is packed is read back up to
the bits that fill the last byte.
-/

namespace Kura.Base

/-- The bits of a number of a width, the highest first. -/
def toBits : Nat → Nat → List Bool
  | 0, _ => []
  | n + 1, v => v.testBit n :: toBits n v

/-- The number with some bits. -/
def ofBits (bs : List Bool) : Nat := bs.foldl (fun v b => 2 * v + b.toNat) 0

@[simp]
theorem length_toBits (n v : Nat) : (toBits n v).length = n := by
  induction n with
  | zero => rfl
  | succ n ih => rw [toBits, List.length_cons, ih]

theorem foldl_bits (bs : List Bool) (v : Nat) :
    bs.foldl (fun v b => 2 * v + b.toNat) v = v * 2 ^ bs.length + ofBits bs := by
  induction bs generalizing v with
  | nil => simp [ofBits]
  | cons b bs ih =>
      rw [ofBits, List.foldl_cons, List.foldl_cons, ih, ih (2 * 0 + b.toNat), List.length_cons,
        pow_succ]
      ring

theorem ofBits_cons (b : Bool) (bs : List Bool) :
    ofBits (b :: bs) = b.toNat * 2 ^ bs.length + ofBits bs := by
  rw [ofBits, List.foldl_cons, foldl_bits, Nat.mul_zero, Nat.zero_add]

theorem ofBits_append (as bs : List Bool) :
    ofBits (as ++ bs) = ofBits as * 2 ^ bs.length + ofBits bs := by
  rw [ofBits, List.foldl_append]
  exact foldl_bits bs _

theorem ofBits_concat (bs : List Bool) (b : Bool) :
    ofBits (bs ++ [b]) = 2 * ofBits bs + b.toNat := by
  rw [ofBits_append, List.length_singleton, pow_one, Nat.mul_comm]
  simp [ofBits]

theorem ofBits_lt (bs : List Bool) : ofBits bs < 2 ^ bs.length := by
  induction bs with
  | nil => simp [ofBits]
  | cons b bs ih =>
      rw [ofBits_cons, List.length_cons, pow_succ]
      have hb : b.toNat * 2 ^ bs.length ≤ 1 * 2 ^ bs.length :=
        Nat.mul_le_mul_right _ (Bool.toNat_le b)
      omega

/-- The bits of a number give its last digits to the base two. -/
theorem ofBits_toBits (n v : Nat) : ofBits (toBits n v) = v % 2 ^ n := by
  induction n with
  | zero => simp [toBits, ofBits, Nat.mod_one]
  | succ n ih =>
      rw [toBits, ofBits_cons, length_toBits, ih, Nat.mod_pow_succ, Nat.toNat_testBit]
      ring

theorem toBits_mod (n v : Nat) {m : Nat} (h : n ≤ m) : toBits n (v % 2 ^ m) = toBits n v := by
  induction n with
  | zero => rfl
  | succ n ih =>
      have hbit : (v % 2 ^ m).testBit n = v.testBit n := by
        rw [Nat.testBit_mod_two_pow, decide_eq_true (Nat.lt_of_succ_le h), Bool.true_and]
      rw [toBits, toBits, hbit, ih (Nat.le_of_succ_le h)]

theorem toBits_ofBits (bs : List Bool) : toBits bs.length (ofBits bs) = bs := by
  induction bs with
  | nil => rfl
  | cons b bs ih =>
      have hlow : toBits bs.length (ofBits (b :: bs)) = bs := by
        rw [← toBits_mod bs.length _ le_rfl, ofBits_cons, Nat.add_comm, Nat.add_mul_mod_self_right,
          Nat.mod_eq_of_lt (ofBits_lt bs), ih]
      have hhigh : (ofBits (b :: bs)).testBit bs.length = b := by
        rw [ofBits_cons, Nat.mul_comm, Nat.testBit_two_pow_mul_add _ (ofBits_lt bs),
          if_neg (lt_irrefl _),
          Nat.sub_self]
        cases b <;> rfl
      rw [List.length_cons, toBits, hhigh, hlow]

theorem toBits_inj {n v v' : Nat} (hv : v < 2 ^ n) (hv' : v' < 2 ^ n)
    (h : toBits n v = toBits n v') :
    v = v' := by
  have heq := congrArg ofBits h
  rwa [ofBits_toBits, ofBits_toBits, Nat.mod_eq_of_lt hv, Nat.mod_eq_of_lt hv'] at heq

theorem toBits_zero (n : Nat) : toBits n 0 = List.replicate n false := by
  induction n with
  | zero => rfl
  | succ n ih => rw [toBits, ih, Nat.zero_testBit, List.replicate_succ]

theorem toBits_allOnes (n : Nat) : toBits n (2 ^ n - 1) = List.replicate n true := by
  have h : ∀ m ≤ n, toBits m (2 ^ n - 1) = List.replicate m true := by
    intro m hm
    induction m with
    | zero => rfl
    | succ m ih =>
        rw [toBits, ih (Nat.le_of_succ_le hm), Nat.testBit_two_pow_sub_one,
          decide_eq_true (Nat.lt_of_succ_le hm), List.replicate_succ]
  exact h n le_rfl

/-- What is checked for the numbers below 256 holds of all bytes. -/
theorem forall_byte {P : UInt8 → Prop} (h : ∀ n < 256, P (UInt8.ofNat n)) (c : UInt8) : P c := by
  have hc := h c.toNat c.toNat_lt_size
  rwa [UInt8.ofNat_toNat] at hc

/-- The bits of some bytes. -/
def byteBits (data : List UInt8) : List Bool := data.flatMap fun b => toBits 8 b.toNat

@[simp]
theorem length_byteBits (data : List UInt8) : (byteBits data).length = 8 * data.length := by
  induction data with
  | nil => rfl
  | cons b data ih =>
      rw [byteBits, List.flatMap_cons, List.length_append, length_toBits, List.length_cons]
      rw [byteBits] at ih
      omega

theorem byteBits_append (data data' : List UInt8) :
    byteBits (data ++ data') = byteBits data ++ byteBits data' := List.flatMap_append

theorem byteBits_cons (b : UInt8) (data : List UInt8) :
    byteBits (b :: data) = toBits 8 b.toNat ++ byteBits data := List.flatMap_cons

theorem getElem?_toBits {n j : Nat} (h : j < n) (v : Nat) :
    (toBits n v)[j]? = some (v.testBit (n - 1 - j)) := by
  induction n generalizing j with
  | zero => omega
  | succ n ih =>
      cases j with
      | zero => rfl
      | succ j =>
          rw [toBits, List.getElem?_cons_succ, ih (Nat.lt_of_succ_lt_succ h)]
          congr 2
          omega

/-- A bit of some bytes is one of the byte it is in. -/
theorem getElem?_byteBits (data : List UInt8) (p : Nat) :
    (byteBits data)[p]? = data[p / 8]?.map fun b => b.toNat.testBit (7 - p % 8) := by
  induction data generalizing p with
  | nil => simp [byteBits]
  | cons b data ih =>
      rw [byteBits_cons]
      by_cases hp : p < 8
      · rw [List.getElem?_append_left (by rwa [length_toBits]), getElem?_toBits hp,
          Nat.div_eq_of_lt hp, Nat.mod_eq_of_lt hp]
        rfl
      · rw [List.getElem?_append_right (by rw [length_toBits]; omega), length_toBits, ih]
        have hdiv : p / 8 = (p - 8) / 8 + 1 := by omega
        have hmod : (p - 8) % 8 = p % 8 := by omega
        rw [hdiv, hmod, List.getElem?_cons_succ]

/-- The numbers of some bits that follow each other are read one after the other. -/
theorem ofBits_take_succ {bs : List Bool} {p n : Nat} {b : Bool} (h : bs[p + n]? = some b) :
    ofBits ((bs.drop p).take (n + 1)) = 2 * ofBits ((bs.drop p).take n) + b.toNat := by
  have hb : (bs.drop p)[n]? = some b := by rw [List.getElem?_drop, h]
  rw [List.take_add_one, hb]
  exact ofBits_concat _ b

theorem toBits_add (m n v : Nat) : toBits (m + n) v = toBits m (v / 2 ^ n) ++ toBits n v := by
  induction m with
  | zero => rw [Nat.zero_add, toBits, List.nil_append]
  | succ m ih =>
      rw [Nat.succ_add, toBits, ih, toBits, Nat.testBit_div_two_pow]
      rfl

section Rows

variable {α β : Type*} {f : α → List β} {len : Nat} {l : List α}

theorem drop_flatMap (h : ∀ a ∈ l, (f a).length = len) (k : Nat) :
    (l.flatMap f).drop (k * len) = (l.drop k).flatMap f := by
  induction l generalizing k with
  | nil => simp
  | cons a l ih =>
      cases k with
      | zero => rw [Nat.zero_mul, List.drop_zero, List.drop_zero]
      | succ k =>
          have hlen : (f a).length = len := h a List.mem_cons_self
          rw [List.flatMap_cons, Nat.succ_mul, Nat.add_comm, ← List.drop_drop,
            List.drop_append_of_le_length hlen.ge, List.drop_of_length_le hlen.le, List.nil_append,
            List.drop_succ_cons]
          exact ih (fun b hb => h b (List.mem_cons_of_mem _ hb)) k

theorem length_flatMap_rows (h : ∀ a ∈ l, (f a).length = len) :
    (l.flatMap f).length = l.length * len := by
  induction l with
  | nil => simp
  | cons a l ih =>
      rw [List.flatMap_cons, List.length_append, h a List.mem_cons_self,
        ih fun b hb => h b (List.mem_cons_of_mem _ hb), List.length_cons,
          Nat.succ_mul, Nat.add_comm]

/-- A row is read back at its place. -/
theorem take_drop_flatMap (h : ∀ a ∈ l, (f a).length = len) {k : Nat} {a : α}
    (ha : l[k]? = some a) :
    ((l.flatMap f).drop (k * len)).take len = f a := by
  obtain ⟨hk, hget⟩ := List.getElem?_eq_some_iff.mp ha
  have hlen : (f a).length = len := h a (List.mem_of_getElem? ha)
  rw [drop_flatMap h, List.drop_eq_getElem_cons hk, hget, List.flatMap_cons,
    List.take_append_of_le_length hlen.ge, List.take_of_length_le hlen.le]

/-- So is each of its entries. -/
theorem getElem?_flatMap_rows (h : ∀ a ∈ l, (f a).length = len) {k j : Nat} {a : α}
    (ha : l[k]? = some a) (hj : j < len) : (l.flatMap f)[k * len + j]? = (f a)[j]? := by
  rw [← List.getElem?_drop, ← take_drop_flatMap h ha, List.getElem?_take_of_lt hj]

theorem getElem?_flatten_replicate {row : List β} {n k j : Nat} (hk : k < n) (hj : j < row.length) :
    (List.replicate n row).flatten[k * row.length + j]? = row[j]? := by
  have hlen : ∀ a ∈ List.replicate n row, (id a).length = row.length := fun a ha => by
    rw [List.eq_of_mem_replicate ha, id]
  have hrow : (List.replicate n row)[k]? = some row := by rw [List.getElem?_replicate, if_pos hk]
  rw [← List.flatMap_id, getElem?_flatMap_rows hlen hrow hj, id]

/-- Rows of one length that differ are told apart. -/
theorem flatMap_rows_inj {l' : List α} (h : ∀ a ∈ l, (f a).length = len)
    (h' : ∀ a ∈ l', (f a).length = len) (hlen : l.length = l'.length)
    (hinj : ∀ a ∈ l, ∀ b ∈ l', f a = f b → a = b) (heq : l.flatMap f = l'.flatMap f) : l = l' := by
  induction l generalizing l' with
  | nil => exact (List.length_eq_zero_iff.mp hlen.symm).symm
  | cons a l ih =>
      cases l' with
      | nil => cases hlen
      | cons b l' =>
          rw [List.flatMap_cons, List.flatMap_cons] at heq
          have hrow : (f a).length = (f b).length :=
            (h a List.mem_cons_self).trans (h' b List.mem_cons_self).symm
          obtain ⟨hab, hrest⟩ := List.append_inj heq hrow
          have hhead : a = b := hinj a List.mem_cons_self b List.mem_cons_self hab
          have htail : l = l' := ih (fun c hc => h c (List.mem_cons_of_mem _ hc))
            (fun c hc => h' c (List.mem_cons_of_mem _ hc)) (Nat.succ.inj hlen)
            (fun c hc d hd => hinj c (List.mem_cons_of_mem _ hc) d (List.mem_cons_of_mem _ hd))
              hrest
          rw [hhead, htail]

end Rows

end Kura.Base
