import Kura.Engine.Number

/-!
# The encoding of XMP packets

`xmpUtf8` brings a packet to UTF-8. It looks at the bytes around the first `<`:
zeros before or behind it tell the width of the code units and their order.

What a packet should become is told by the encoders below, from the scalar
values of its text. A packet with large code units in big endian order is taken
for one in little endian order if the unit behind the first `<` has a zero
there; what is read then is compared by the number of its characters, or
character by character, as the bytes are shifted by one.
-/

namespace Kura.Engine.XmpText

/-- The number of some bytes, the most significant first. -/
def bigEndian (bs : Bytes) : Nat := bs.foldl (fun n b => n * 256 + b.toNat) 0

/-- A code unit. -/
def unit (big : Bool) (bs : Bytes) : Nat := bigEndian (if big then bs else bs.reverse)

/-- The bytes that are added for a code point. -/
def appendUtf8 (cp : Nat) : Bytes :=
  if cp < 0x80 then [UInt8.ofNat cp]
  else if cp < 0x800 then [UInt8.ofNat (0xC0 ||| cp >>> 6), UInt8.ofNat (0x80 ||| cp &&& 0x3F)]
  else if cp < 0x10000 then
    [UInt8.ofNat (0xE0 ||| cp >>> 12), UInt8.ofNat (0x80 ||| (cp >>> 6) &&& 0x3F),
      UInt8.ofNat (0x80 ||| cp &&& 0x3F)]
  else
    [UInt8.ofNat (0xF0 ||| cp >>> 18), UInt8.ofNat (0x80 ||| (cp >>> 12) &&& 0x3F),
      UInt8.ofNat (0x80 ||| (cp >>> 6) &&& 0x3F), UInt8.ofNat (0x80 ||| cp &&& 0x3F)]

/-- The loop over code units; a high surrogate is joined with whatever follows. -/
def decodeFrom (width : Nat) (big : Bool) : Nat → Bytes → Bytes
  | 0, _ => []
  | fuel + 1, bs =>
      if bs.length < width then []
      else
        let cp := unit big (bs.take width)
        if width = 2 ∧ 0xD800 ≤ cp ∧ cp < 0xDC00 ∧ 4 ≤ bs.length then
          let lo := unit big ((bs.drop 2).take 2)
          appendUtf8 (0x10000 + (cp - 0xD800) <<< 10 + lo - 0xDC00) ++
            decodeFrom width big fuel (bs.drop 4)
        else appendUtf8 cp ++ decodeFrom width big fuel (bs.drop width)

/-- The width of the code units and whether the most significant byte is the first. -/
def guess (raw : Bytes) (lt : Nat) : Nat × Bool :=
  if (raw.drop lt).take 4 = [0x3C, 0, 0, 0] then (4, false)
  else if 3 ≤ lt ∧ (raw.drop (lt - 3)).take 4 = [0, 0, 0, 0x3C] then (4, true)
  else if (raw.drop lt).take 2 = [0x3C, 0] then (2, false)
  else if 1 ≤ lt ∧ raw[lt - 1]? = some 0 then (2, true)
  else (1, false)

/-- A packet in UTF-8. -/
def xmpUtf8 (raw : Bytes) : Bytes :=
  match raw.findIdx? (· == 0x3C) with
  | none => raw
  | some lt =>
      if 8 ≤ lt then raw
      else
        let (width, big) := guess raw lt
        if 1 < width then
          decodeFrom width big raw.length (raw.drop (if big then lt - (width - 1) else lt))
        else raw

inductive Encoding where
  | utf8 | utf16le | utf16be | utf32le | utf32be
  deriving DecidableEq

/-- The UTF-8 bytes of a scalar value. -/
def utf8Char (c : Char) : Bytes :=
  let n := c.toNat
  if n < 0x80 then [UInt8.ofNat n]
  else if n < 0x800 then [UInt8.ofNat (0xC0 + n / 64), UInt8.ofNat (0x80 + n % 64)]
  else if n < 0x10000 then
    [UInt8.ofNat (0xE0 + n / 4096), UInt8.ofNat (0x80 + n / 64 % 64), UInt8.ofNat (0x80 + n % 64)]
  else
    [UInt8.ofNat (0xF0 + n / 262144), UInt8.ofNat (0x80 + n / 4096 % 64),
      UInt8.ofNat (0x80 + n / 64 % 64), UInt8.ofNat (0x80 + n % 64)]

/-- The UTF-16 units of a scalar value. -/
def utf16Units (c : Char) : List Nat :=
  if c.toNat < 0x10000 then [c.toNat]
  else [0xD800 + (c.toNat - 0x10000) / 1024, 0xDC00 + (c.toNat - 0x10000) % 1024]

/-- The bytes of a number with some width, in either order. -/
def unitBytes (big : Bool) (width n : Nat) : Bytes :=
  let bs := (List.range width).map fun i => UInt8.ofNat (n / 256 ^ i % 256)
  if big then bs.reverse else bs

def encodeChar : Encoding → Char → Bytes
  | .utf8, c => utf8Char c
  | .utf16le, c => (utf16Units c).flatMap (unitBytes false 2)
  | .utf16be, c => (utf16Units c).flatMap (unitBytes true 2)
  | .utf32le, c => unitBytes false 4 c.toNat
  | .utf32be, c => unitBytes true 4 c.toNat

def encode (e : Encoding) (cs : List Char) : Bytes := cs.flatMap (encodeChar e)

/-- The byte order mark of an encoding. -/
def bom (e : Encoding) : Bytes := encodeChar e '\uFEFF'

/-- A text in an encoding, with its byte order mark or without. -/
def encoded (e : Encoding) (mark : Bool) (cs : List Char) : Bytes :=
  (if mark then bom e else []) ++ encode e cs

theorem or_low (x : Nat) : 0x80 ||| x &&& 0x3F = 0x80 + x % 64 := by
  have hmask : x &&& 0x3F = x % 64 := Nat.and_two_pow_sub_one_eq_mod x 6
  rw [hmask]
  exact (Nat.two_pow_add_eq_or_of_lt (i := 6) (Nat.mod_lt x (by decide)) 2).symm

/-- The marks of the first byte do not meet the bits of a scalar value. -/
theorem or_first {n : Nat} : (n < 64 → 0xC0 ||| n = 0xC0 + n) ∧ (n < 32 → 0xE0 ||| n = 0xE0 + n) ∧
    (n < 16 → 0xF0 ||| n = 0xF0 + n) :=
  ⟨fun h => (Nat.two_pow_add_eq_or_of_lt (i := 6) h 3).symm,
    fun h => (Nat.two_pow_add_eq_or_of_lt (i := 5) h 7).symm,
    fun h => (Nat.two_pow_add_eq_or_of_lt (i := 4) h 15).symm⟩

/-- Characters are scalar values. -/
theorem scalar_range (c : Char) :
    c.toNat < 0xD800 ∨ (0xDFFF < c.toNat ∧ c.toNat < 0x110000) := c.valid

/-- A scalar value is encoded as the decoder writes it. -/
theorem appendUtf8_toNat (c : Char) : appendUtf8 c.toNat = utf8Char c := by
  have hmax := scalar_range c
  unfold appendUtf8 utf8Char
  dsimp only
  simp only [or_low, Nat.shiftRight_eq_div_pow]
  split
  · rfl
  · split
    · rw [or_first.1 (by omega)]
    · split
      · rw [or_first.2.1 (by omega)]
      · rw [or_first.2.2 (by omega)]

/-- A first byte tells its code point or is large; the others go on with it. -/
theorem appendUtf8_shape (cp : Nat) : ∃ b more, appendUtf8 cp = b :: more ∧
    (cp < 0x80 ∧ b.toNat = cp ∨ 0x80 ≤ cp ∧ cp < 0x800 ∧ b.toNat = 0xC0 + cp / 64 ∨
      0x800 ≤ cp ∧ 0xE0 ≤ b.toNat) ∧ ∀ r ∈ more, r.toNat / 64 = 2 := by
  have hlow : ∀ x, (UInt8.ofNat (0x80 ||| x &&& 0x3F)).toNat / 64 = 2 := by
    intro x
    rw [or_low, UInt8.toNat_ofNat']
    omega
  have hlarge : ∀ x, 0xE0 ≤ (UInt8.ofNat (0xF0 ||| x)).toNat := by
    intro x
    rw [UInt8.toNat_ofNat', Nat.or_mod_two_pow]
    exact (show 0xE0 ≤ 0xF0 % 2 ^ 8 by decide).trans Nat.left_le_or
  unfold appendUtf8
  split
  · rename_i hcp
    refine ⟨_, [], rfl, .inl ⟨hcp, ?_⟩, by simp⟩
    rw [UInt8.toNat_ofNat']
    omega
  · split
    · rename_i hlo hcp
      refine ⟨_, _, rfl, .inr (.inl ⟨by omega, hcp, ?_⟩),
        List.forall_mem_singleton.mpr (hlow _)⟩
      rw [Nat.shiftRight_eq_div_pow, or_first.1 (by omega), UInt8.toNat_ofNat']
      omega
    · split
      · rename_i hlo hcp
        refine ⟨_, _, rfl, .inr (.inr ⟨by omega, ?_⟩),
          List.forall_mem_cons.mpr ⟨hlow _, List.forall_mem_singleton.mpr (hlow _)⟩⟩
        rw [Nat.shiftRight_eq_div_pow, or_first.2.1 (by omega), UInt8.toNat_ofNat']
        omega
      · exact ⟨_, _, rfl, .inr (.inr ⟨by omega, hlarge _⟩), List.forall_mem_cons.mpr ⟨hlow _,
          List.forall_mem_cons.mpr ⟨hlow _, List.forall_mem_singleton.mpr (hlow _)⟩⟩⟩

/-- The number of bytes that do not go on with a character. -/
def leads (bs : Bytes) : Nat := bs.countP fun b => b.toNat / 64 ≠ 2

theorem leads_append (as bs : Bytes) : leads (as ++ bs) = leads as + leads bs :=
  List.countP_append

theorem leads_appendUtf8 (cp : Nat) : leads (appendUtf8 cp) = 1 := by
  obtain ⟨b, more, htext, hfirst, hmore⟩ := appendUtf8_shape cp
  have hb : b.toNat / 64 ≠ 2 := by omega
  have hnone : more.countP (fun r => r.toNat / 64 ≠ 2) = 0 := by
    rw [List.countP_eq_zero]
    intro r hr
    simp [hmore r hr]
  rw [htext, leads, List.countP_cons, hnone]
  simp [hb]

theorem leads_encode (cs : List Char) : leads (encode .utf8 cs) = cs.length := by
  induction cs with
  | nil => rfl
  | cons c cs ih =>
      have hc : leads (encodeChar .utf8 c) = 1 := by
        rw [encodeChar, ← appendUtf8_toNat, leads_appendUtf8]
      rw [encode, List.flatMap_cons, leads_append, hc, ← encode, ih, List.length_cons, Nat.add_comm]

theorem length_unitBytes (big : Bool) (width n : Nat) : (unitBytes big width n).length = width := by
  unfold unitBytes
  dsimp only
  split
  · simp
  · simp

theorem unit_two (big : Bool) {n : Nat} (hn : n < 65536) : unit big (unitBytes big 2 n) = n := by
  have hbytes : unit big (unitBytes big 2 n) = n / 256 % 256 * 256 + n % 256 := by
    cases big with
    | true => simp [unit, unitBytes, bigEndian, List.range_succ]
    | false => simp [unit, unitBytes, bigEndian, List.range_succ]
  rw [hbytes]
  omega

theorem unit_four (big : Bool) {n : Nat} (hn : n < 2 ^ 32) : unit big (unitBytes big 4 n) = n := by
  have hbytes : unit big (unitBytes big 4 n) =
      ((n / 256 ^ 3 % 256 * 256 + n / 256 ^ 2 % 256) * 256 + n / 256 % 256) * 256 + n % 256 := by
    cases big with
    | true => simp [unit, unitBytes, bigEndian, List.range_succ]
    | false => simp [unit, unitBytes, bigEndian, List.range_succ]
  rw [hbytes]
  omega

/-- A turn with a code unit that stands for itself. -/
theorem decodeFrom_unit {width : Nat} (big : Bool) (fuel : Nat) {bs : Bytes} (rest : Bytes)
    (hlen : bs.length = width)
    (hplain : width = 2 → ¬ (0xD800 ≤ unit big bs ∧ unit big bs < 0xDC00)) :
    decodeFrom width big (fuel + 1) (bs ++ rest) =
      appendUtf8 (unit big bs) ++ decodeFrom width big fuel rest := by
  have htake : (bs ++ rest).take width = bs := by rw [← hlen, List.take_left]
  have hdrop : (bs ++ rest).drop width = rest := by rw [← hlen, List.drop_left]
  have hlong : ¬ (bs ++ rest).length < width := by
    rw [List.length_append]
    omega
  have hpair : ¬ (width = 2 ∧ 0xD800 ≤ unit big bs ∧ unit big bs < 0xDC00 ∧
      4 ≤ (bs ++ rest).length) := by
    rintro ⟨htwo, hhigh, hlow, -⟩
    exact hplain htwo ⟨hhigh, hlow⟩
  rw [decodeFrom, if_neg hlong, htake, hdrop]
  dsimp only
  rw [if_neg hpair]

/-- A turn with a high surrogate and what follows. -/
theorem decodeFrom_pair (big : Bool) (fuel : Nat) {bs bs' : Bytes} (rest : Bytes)
    (hlen : bs.length = 2) (hlen' : bs'.length = 2)
    (hhigh : 0xD800 ≤ unit big bs ∧ unit big bs < 0xDC00) :
    decodeFrom 2 big (fuel + 1) (bs ++ (bs' ++ rest)) =
      appendUtf8 (0x10000 + (unit big bs - 0xD800) * 1024 + unit big bs' - 0xDC00) ++
        decodeFrom 2 big fuel rest := by
  have htake : (bs ++ (bs' ++ rest)).take 2 = bs := by rw [← hlen, List.take_left]
  have hdrop : (bs ++ (bs' ++ rest)).drop 2 = bs' ++ rest := by rw [← hlen, List.drop_left]
  have htake' : (bs' ++ rest).take 2 = bs' := by rw [← hlen', List.take_left]
  have hrest : (bs ++ (bs' ++ rest)).drop 4 = rest := by
    rw [← List.append_assoc]
    apply List.drop_left'
    rw [List.length_append]
    omega
  have hlong : 4 ≤ (bs ++ (bs' ++ rest)).length := by
    simp only [List.length_append]
    omega
  rw [decodeFrom, if_neg (by omega), htake, hdrop, htake', hrest]
  dsimp only
  rw [if_pos ⟨rfl, hhigh.1, hhigh.2, hlong⟩, Nat.shiftLeft_eq]

/-- A turn with the UTF-16 units of a character. -/
theorem decodeFrom_utf16 (big : Bool) (fuel : Nat) (c : Char) (rest : Bytes) :
    decodeFrom 2 big (fuel + 1) ((utf16Units c).flatMap (unitBytes big 2) ++ rest) =
      utf8Char c ++ decodeFrom 2 big fuel rest := by
  have hrange := scalar_range c
  unfold utf16Units
  split
  · rename_i hbmp
    have hunit := unit_two big hbmp
    rw [List.flatMap_singleton, decodeFrom_unit big fuel rest (length_unitBytes big 2 _), hunit,
      appendUtf8_toNat]
    rw [hunit]
    omega
  · rename_i hbmp
    have hhigh := unit_two big (n := 0xD800 + (c.toNat - 0x10000) / 1024) (by omega)
    have hlow := unit_two big (n := 0xDC00 + (c.toNat - 0x10000) % 1024) (by omega)
    have hjoined : 0x10000 + (0xD800 + (c.toNat - 0x10000) / 1024 - 0xD800) * 1024 +
        (0xDC00 + (c.toNat - 0x10000) % 1024) - 0xDC00 = c.toNat := by
      omega
    rw [List.flatMap_cons, List.flatMap_singleton, List.append_assoc,
      decodeFrom_pair big fuel rest (length_unitBytes _ _ _) (length_unitBytes _ _ _), hhigh, hlow,
      hjoined, appendUtf8_toNat]
    rw [hhigh]
    omega

theorem decodeFrom_utf32 (big : Bool) (fuel : Nat) (c : Char) (rest : Bytes) :
    decodeFrom 4 big (fuel + 1) (unitBytes big 4 c.toNat ++ rest) =
      utf8Char c ++ decodeFrom 4 big fuel rest := by
  have hrange := scalar_range c
  have hunit := unit_four big (n := c.toNat) (by omega)
  rw [decodeFrom_unit big fuel rest (length_unitBytes big 4 _) (by intro h; cases h), hunit,
    appendUtf8_toNat]

/-- The run lemma: turns that give the characters of a text give its UTF-8 bytes. -/
theorem decodeFrom_encode {width : Nat} {big : Bool} {e : Encoding}
    (hstep : ∀ fuel c rest, decodeFrom width big (fuel + 1) (encodeChar e c ++ rest) =
      utf8Char c ++ decodeFrom width big fuel rest)
    (hwidth : 0 < width) (cs : List Char) {fuel : Nat} (hfuel : cs.length ≤ fuel) :
    decodeFrom width big fuel (encode e cs) = encode .utf8 cs := by
  induction cs generalizing fuel with
  | nil =>
      cases fuel with
      | zero => rfl
      | succ fuel =>
          rw [encode, List.flatMap_nil, decodeFrom, List.length_nil, if_pos hwidth]
          rfl
  | cons c cs ih =>
      obtain ⟨fuel, rfl⟩ := Nat.exists_eq_add_of_le' (Nat.le_of_add_left_le hfuel)
      rw [encode, List.flatMap_cons, hstep, ← encode, ih (by simpa using hfuel)]
      rfl

/-- Four bytes each give a character. -/
theorem leads_decodeFrom (big : Bool) {fuel : Nat} {bs : Bytes} (hfuel : bs.length ≤ fuel) :
    leads (decodeFrom 4 big fuel bs) = bs.length / 4 := by
  induction fuel generalizing bs with
  | zero =>
      rw [Nat.le_zero.mp hfuel]
      rfl
  | succ fuel ih =>
      by_cases hshort : bs.length < 4
      · rw [decodeFrom, if_pos hshort, Nat.div_eq_of_lt hshort]
        rfl
      · have hlen : (bs.take 4).length = 4 := by
          rw [List.length_take]
          omega
        have hdrop : (bs.drop 4).length = bs.length - 4 := List.length_drop
        have hturn := decodeFrom_unit big fuel (bs.drop 4) hlen (by intro h; cases h)
        rw [List.take_append_drop] at hturn
        rw [hturn, leads_append, leads_appendUtf8, ih (by omega), hdrop]
        omega

/-- The order and the width are told by the bytes before the first `<` and behind it. -/
theorem guess_split (pre tail : Bytes) :
    guess (pre ++ 0x3C :: tail) pre.length =
      if tail.take 3 = [0, 0, 0] then (4, false)
      else if 3 ≤ pre.length ∧ pre.drop (pre.length - 3) = [0, 0, 0] then (4, true)
      else if tail.head? = some 0 then (2, false)
      else if pre.getLast? = some 0 then (2, true)
      else (1, false) := by
  have hdrop : (pre ++ 0x3C :: tail).drop pre.length = 0x3C :: tail := List.drop_left
  have hfour : (0x3C :: tail).take 4 = [0x3C, 0, 0, 0] ↔ tail.take 3 = [0, 0, 0] := by
    rw [List.take_succ_cons, List.cons.injEq, and_iff_right rfl]
  have hback : (3 ≤ pre.length ∧
      ((pre ++ 0x3C :: tail).drop (pre.length - 3)).take 4 = [0, 0, 0, 0x3C]) ↔
      (3 ≤ pre.length ∧ pre.drop (pre.length - 3) = [0, 0, 0]) := by
    refine and_congr_right fun hlong => ?_
    have hthree : (pre.drop (pre.length - 3)).length = 3 := by
      rw [List.length_drop]
      omega
    have hsplit : ((pre ++ 0x3C :: tail).drop (pre.length - 3)).take 4 =
        pre.drop (pre.length - 3) ++ [0x3C] := by
      rw [List.drop_append_of_le_length (by omega), List.take_append, hthree,
        List.take_of_length_le (by omega)]
      rfl
    rw [hsplit]
    constructor
    · intro h
      have happend : pre.drop (pre.length - 3) ++ [0x3C] = [0, 0, 0] ++ [0x3C] := h
      exact List.append_inj_left' happend rfl
    · intro h
      rw [h]
      rfl
  have htwo : (0x3C :: tail).take 2 = [0x3C, 0] ↔ tail.head? = some 0 := by
    rw [List.take_succ_cons, List.cons.injEq, and_iff_right rfl]
    cases tail with
    | nil => simp
    | cons b tail => simp
  have hlast : (1 ≤ pre.length ∧ (pre ++ 0x3C :: tail)[pre.length - 1]? = some 0) ↔
      pre.getLast? = some 0 := by
    rw [List.getLast?_eq_getElem?]
    constructor
    · rintro ⟨hpos, hget⟩
      rwa [List.getElem?_append_left (by omega)] at hget
    · intro hget
      have hpos := (List.getElem?_eq_some_iff.mp hget).1
      refine ⟨by omega, ?_⟩
      rwa [List.getElem?_append_left (by omega)]
  unfold guess
  simp only [hdrop, hfour, hback, htwo, hlast]

/-- The text is decoded as guessed from the first angle bracket. -/
theorem xmpUtf8_split {pre : Bytes} (tail : Bytes) (hpre : 0x3C ∉ pre) (hlen : pre.length < 8) :
    xmpUtf8 (pre ++ 0x3C :: tail) =
      let (width, big) := guess (pre ++ 0x3C :: tail) pre.length
      if 1 < width then
        decodeFrom width big (pre ++ 0x3C :: tail).length
          ((pre ++ 0x3C :: tail).drop (if big then pre.length - (width - 1) else pre.length))
      else pre ++ 0x3C :: tail := by
  have hfind : (pre ++ 0x3C :: tail).findIdx? (· == 0x3C) = some pre.length := by
    have hnone : pre.findIdx? (· == 0x3C) = none := by
      rw [List.findIdx?_eq_none_iff]
      intro b hb
      simp only [beq_eq_false_iff_ne, ne_eq]
      rintro rfl
      exact hpre hb
    rw [List.findIdx?_append, hnone, List.findIdx?_cons]
    simp
  unfold xmpUtf8
  rw [hfind]
  dsimp only
  rw [if_neg (by omega)]

/-- The number of zeros at the start. -/
def zeros (bs : Bytes) : Nat := (bs.takeWhile (· == 0)).length

theorem bigEndian_eq_zero {bs : Bytes} (h : bigEndian bs = 0) : ∀ b ∈ bs, b = 0 := by
  have hfold : ∀ (bs : Bytes) (n : Nat), bs.foldl (fun n b => n * 256 + b.toNat) n = 0 →
      n = 0 ∧ ∀ b ∈ bs, b = 0 := by
    intro bs
    induction bs with
    | nil => exact fun n hn => ⟨hn, by simp⟩
    | cons b bs ih =>
        intro n hn
        obtain ⟨hfirst, hrest⟩ := ih _ hn
        dsimp only at hfirst
        have hb : b = 0 := UInt8.toNat_inj.mp (by
          show b.toNat = 0
          omega)
        exact ⟨by omega, List.forall_mem_cons.mpr ⟨hb, hrest⟩⟩
  exact (hfold bs 0 h).2

theorem zeros_appendUtf8 (cp : Nat) (bs : Bytes) :
    zeros (appendUtf8 cp ++ bs) = if cp = 0 then 1 + zeros bs else 0 := by
  split
  · rename_i hcp
    have hone : appendUtf8 cp = [0] := by
      rw [hcp]
      rfl
    rw [hone, zeros, List.singleton_append, List.takeWhile_cons]
    simp [zeros, Nat.add_comm]
  · obtain ⟨b, more, htext, hfirst, -⟩ := appendUtf8_shape cp
    have hb : b ≠ 0 := by
      rintro rfl
      simp at hfirst
      omega
    rw [htext, zeros, List.cons_append, List.takeWhile_cons]
    simp [hb]

/-- Code units have at least as many zeros as what is read from them. -/
theorem zeros_decodeFrom {width : Nat} (hwidth : 0 < width) (big : Bool) (fuel : Nat) (bs : Bytes) :
    zeros (decodeFrom width big fuel bs) ≤ zeros bs := by
  induction fuel generalizing bs with
  | zero => exact Nat.zero_le _
  | succ fuel ih =>
      rw [decodeFrom]
      split
      · exact Nat.zero_le _
      · rename_i hlong
        dsimp only
        split
        · rename_i hpair
          rw [zeros_appendUtf8, Nat.shiftLeft_eq, if_neg (by omega)]
          exact Nat.zero_le _
        · rw [zeros_appendUtf8]
          split
          · rename_i hzero
            have hall : ∀ b ∈ bs.take width, b = 0 := by
              have hbytes := bigEndian_eq_zero hzero
              cases big with
              | true => exact hbytes
              | false => exact fun b hb => hbytes b (List.mem_reverse.mpr hb)
            have hsplit : zeros bs = width + zeros (bs.drop width) := by
              have hlen : (bs.take width).length = width := by
                rw [List.length_take]
                omega
              conv_lhs => rw [← List.take_append_drop width bs]
              rw [zeros, List.takeWhile_append_of_pos (by simpa using hall), List.length_append,
                hlen]
              rfl
            have hrest := ih (bs.drop width)
            omega
          · exact Nat.zero_le _

/-- Code points that are not below 256 start with other bytes. -/
theorem appendUtf8_ne {cp : Nat} (l : UInt8) (hcp : 256 ≤ cp) (as bs : Bytes) :
    appendUtf8 cp ++ as ≠ appendUtf8 l.toNat ++ bs := by
  intro heq
  obtain ⟨b, more, hb, hfirst, -⟩ := appendUtf8_shape cp
  obtain ⟨b', more', hb', hfirst', -⟩ := appendUtf8_shape l.toNat
  rw [hb, hb'] at heq
  have hsame : b = b' := (List.cons.inj heq).1
  have hl : l.toNat < 256 := l.toNat_lt
  rw [hsame] at hfirst
  omega

theorem appendUtf8_append_ne_nil (cp : Nat) (bs : Bytes) : appendUtf8 cp ++ bs ≠ [] := by
  obtain ⟨b, more, hb, -⟩ := appendUtf8_shape cp
  rw [hb]
  exact List.cons_ne_nil _ _

theorem unitBytes_true (n : Nat) :
    unitBytes true 2 n = [UInt8.ofNat (n / 256 % 256), UInt8.ofNat (n % 256)] := by
  simp [unitBytes, List.range_succ]

/-- The first unit of a character, and its high byte. -/
theorem encodeChar_utf16be (c : Char) : ∃ u more, encodeChar .utf16be c =
    UInt8.ofNat (u / 256 % 256) :: UInt8.ofNat (u % 256) :: more ∧ u < 65536 ∧
      (u < 256 → u = c.toNat ∧ more = []) ∧ (c.toNat < 256 → u < 256) := by
  have hrange := scalar_range c
  rw [encodeChar, utf16Units]
  split
  · rename_i hbmp
    refine ⟨c.toNat, [], ?_, hbmp, fun _ => ⟨rfl, rfl⟩, id⟩
    rw [List.flatMap_singleton, unitBytes_true]
  · rename_i hbmp
    refine ⟨0xD800 + (c.toNat - 0x10000) / 1024,
      [0xDC00 + (c.toNat - 0x10000) % 1024].flatMap (unitBytes true 2), ?_, by omega, by omega,
      by omega⟩
    rw [List.flatMap_cons, unitBytes_true]
    rfl

/-- A big endian text that is read from its second byte on as little endian loses its last
character. -/
theorem shifted_ne (cs : List Char) (fuel : Nat) (l : UInt8) :
    decodeFrom 2 false fuel (l :: encode .utf16be cs) ≠ appendUtf8 l.toNat ++ encode .utf8 cs := by
  induction cs generalizing fuel l with
  | nil =>
      intro heq
      cases fuel with
      | zero => exact appendUtf8_append_ne_nil _ _ heq.symm
      | succ fuel => exact appendUtf8_append_ne_nil _ _ heq.symm
  | cons c cs ih =>
      cases fuel with
      | zero => exact fun heq => appendUtf8_append_ne_nil _ _ heq.symm
      | succ fuel =>
          obtain ⟨u, more, htext, hu, hsmall, -⟩ := encodeChar_utf16be c
          have hbytes : l :: encode .utf16be (c :: cs) =
              l :: UInt8.ofNat (u / 256 % 256) :: (UInt8.ofNat (u % 256) ::
                (more ++ encode .utf16be cs)) := by
            rw [encode, List.flatMap_cons, htext]
            rfl
          have hunit : unit false [l, UInt8.ofNat (u / 256 % 256)] =
              u / 256 * 256 + l.toNat := by
            have hhigh : (UInt8.ofNat (u / 256 % 256)).toNat = u / 256 := by
              rw [UInt8.toNat_ofNat']
              omega
            simp [unit, bigEndian, hhigh]
          rw [hbytes, decodeFrom, if_neg (by simp)]
          dsimp only
          rw [List.take_succ_cons, List.take_succ_cons, List.take_zero, hunit]
          split
          · rw [Nat.shiftLeft_eq]
            exact appendUtf8_ne l (by omega) _ _
          · by_cases hhigh : 256 ≤ u
            · exact appendUtf8_ne l (by omega) _ _
            · -- Both sides go on with the next character.
              obtain ⟨huc, rfl⟩ := hsmall (by omega)
              have hzero : u / 256 * 256 + l.toNat = l.toNat := by omega
              have hlow : (UInt8.ofNat (u % 256)).toNat = c.toNat := by
                rw [UInt8.toNat_ofNat']
                omega
              have hchar : encode .utf8 (c :: cs) =
                  appendUtf8 (UInt8.ofNat (u % 256)).toNat ++ encode .utf8 cs := by
                rw [hlow, appendUtf8_toNat]
                rfl
              rw [hzero, hchar]
              intro heq
              exact ih fuel _ (List.append_cancel_left heq)

/-- What a text should become: UTF-8 stays as it is, with its mark. -/
def expected (e : Encoding) (mark : Bool) (cs : List Char) : Bytes :=
  if e = .utf8 then encoded .utf8 mark cs else encode .utf8 cs

/-- The character behind the first `<` does not hide the encoding. -/
def Decodes (e : Encoding) (rest : List Char) : Prop :=
  match e with
  | .utf8 | .utf16le => rest.head? ≠ some '\x00'
  | .utf32le => True
  | .utf16be | .utf32be => ∀ c ∈ rest.head?, 0xFF < c.toNat

/-- The bytes before the byte of the first `<`. -/
def front (e : Encoding) (mark : Bool) : Bytes :=
  (if mark then bom e else []) ++
    match e with
    | .utf16be => [0]
    | .utf32be => [0, 0, 0]
    | _ => []

/-- The bytes behind it. -/
def behind (e : Encoding) (rest : List Char) : Bytes :=
  (match e with
    | .utf16le => [0]
    | .utf32le => [0, 0, 0]
    | _ => []) ++ encode e rest

theorem encoded_split (e : Encoding) (mark : Bool) (rest : List Char) :
    encoded e mark ('<' :: rest) = front e mark ++ 0x3C :: behind e rest := by
  cases e with
  | utf8 => cases mark <;> rfl
  | utf16le => cases mark <;> rfl
  | utf16be => cases mark <;> rfl
  | utf32le => cases mark <;> rfl
  | utf32be => cases mark <;> rfl

theorem front_short (e : Encoding) (mark : Bool) :
    0x3C ∉ front e mark ∧ (front e mark).length < 8 := by
  cases e with
  | utf8 => cases mark <;> decide
  | utf16le => cases mark <;> decide
  | utf16be => cases mark <;> decide
  | utf32le => cases mark <;> decide
  | utf32be => cases mark <;> decide

/-- Only with four bytes in big endian order three zeros stand before the byte. -/
theorem front_zeros (e : Encoding) (mark : Bool) : (3 ≤ (front e mark).length ∧
    (front e mark).drop ((front e mark).length - 3) = [0, 0, 0]) ↔ e = .utf32be := by
  cases e with
  | utf8 => cases mark <;> decide
  | utf16le => cases mark <;> decide
  | utf16be => cases mark <;> decide
  | utf32le => cases mark <;> decide
  | utf32be => cases mark <;> decide

theorem head_utf8 (rest : List Char) :
    (encode .utf8 rest).head? = some 0 ↔ rest.head? = some '\x00' := by
  cases rest with
  | nil => decide
  | cons c rest =>
      obtain ⟨b, more, htext, hfirst, -⟩ := appendUtf8_shape c.toNat
      have hchar : encode .utf8 (c :: rest) = b :: (more ++ encode .utf8 rest) := by
        rw [encode, List.flatMap_cons, encodeChar, ← appendUtf8_toNat, htext]
        rfl
      have hzero : b = 0 ↔ b.toNat = 0 := UInt8.toNat_inj.symm
      have hnull : c = '\x00' ↔ c.toNat = 0 := Char.toNat_inj.symm
      rw [hchar, List.head?_cons, List.head?_cons, Option.some_inj, Option.some_inj, hzero, hnull]
      omega

theorem ofNat_eq_zero {n : Nat} : UInt8.ofNat (n % 256) = 0 ↔ n % 256 = 0 := by
  rw [← UInt8.toNat_inj, UInt8.toNat_ofNat']
  show n % 256 % 2 ^ 8 = 0 ↔ n % 256 = 0
  omega

/-- UTF-16LE begins with two zero bytes when a null character comes first. -/
theorem take_utf16le (rest : List Char) :
    (encode .utf16le rest).take 2 = [0, 0] ↔ rest.head? = some '\x00' := by
  cases rest with
  | nil => decide
  | cons c rest =>
      have hrange := scalar_range c
      obtain ⟨u, more, htext, hu, hzero⟩ : ∃ u more, encode .utf16le (c :: rest) =
          UInt8.ofNat (u % 256) :: UInt8.ofNat (u / 256 % 256) :: more ∧ u < 65536 ∧
            (u = 0 ↔ c.toNat = 0) := by
        rw [encode, List.flatMap_cons, encodeChar, utf16Units]
        split
        · rename_i hbmp
          refine ⟨c.toNat, encode .utf16le rest, ?_, hbmp, Iff.rfl⟩
          simp [unitBytes, List.range_succ, encode]
        · rename_i hbmp
          refine ⟨0xD800 + (c.toNat - 0x10000) / 1024,
            unitBytes false 2 (0xDC00 + (c.toNat - 0x10000) % 1024) ++ encode .utf16le rest, ?_,
            by omega, by omega⟩
          simp [unitBytes, List.range_succ, encode]
      have hnull : c = '\x00' ↔ c.toNat = 0 := Char.toNat_inj.symm
      rw [htext, List.take_succ_cons, List.take_succ_cons, List.take_zero, List.head?_cons,
        Option.some_inj, hnull, ← hzero, List.cons.injEq, List.cons.injEq, ofNat_eq_zero,
        ofNat_eq_zero, and_iff_left rfl]
      omega

/-- The character behind the first one is below 256. -/
def Small (rest : List Char) : Prop := ∃ c ∈ rest.head?, c.toNat ≤ 0xFF

/-- UTF-16BE begins with a zero byte when the character is below 256. -/
theorem head_utf16be (rest : List Char) : (encode .utf16be rest).head? = some 0 ↔ Small rest := by
  cases rest with
  | nil => exact iff_of_false (by decide) (by rintro ⟨c, hc, -⟩; cases hc)
  | cons c rest =>
      obtain ⟨u, more, htext, hu, hsmall, hlow⟩ := encodeChar_utf16be c
      have hchar : (encode .utf16be (c :: rest)).head? = some (UInt8.ofNat (u / 256 % 256)) := by
        rw [encode, List.flatMap_cons, htext]
        rfl
      have hc : Small (c :: rest) ↔ c.toNat ≤ 0xFF := by simp [Small]
      rw [hchar, Option.some_inj, ofNat_eq_zero, hc]
      constructor
      · intro hzero
        have := (hsmall (by omega)).1
        omega
      · intro hle
        have := hlow (by omega)
        omega

theorem take_utf32be (rest : List Char) :
    (encode .utf32be rest).take 3 = [0, 0, 0] ↔ Small rest := by
  cases rest with
  | nil => exact iff_of_false (by decide) (by rintro ⟨c, hc, -⟩; cases hc)
  | cons c rest =>
      have hrange := scalar_range c
      have hchar : (encode .utf32be (c :: rest)).take 3 = [UInt8.ofNat (c.toNat / 256 ^ 3 % 256),
          UInt8.ofNat (c.toNat / 256 ^ 2 % 256), UInt8.ofNat (c.toNat / 256 % 256)] := by
        rw [encode, List.flatMap_cons, encodeChar]
        simp [unitBytes, List.range_succ]
      have hc : Small (c :: rest) ↔ c.toNat ≤ 0xFF := by simp [Small]
      rw [hchar, hc, List.cons.injEq, List.cons.injEq, List.cons.injEq,
        ofNat_eq_zero, ofNat_eq_zero,
        ofNat_eq_zero, and_iff_left rfl]
      omega

/-- A character is one to four bytes in every encoding. -/
theorem length_encodeChar (e : Encoding) (c : Char) :
    1 ≤ (encodeChar e c).length ∧ (encodeChar e c).length ≤ 4 := by
  have hunits : ∀ big, ((utf16Units c).flatMap (unitBytes big 2)).length =
      2 * (utf16Units c).length := by
    intro big
    rw [List.length_flatMap]
    simp [length_unitBytes, Nat.mul_comm]
  have htwo : 1 ≤ (utf16Units c).length ∧ (utf16Units c).length ≤ 2 := by
    unfold utf16Units
    split
    · simp
    · simp
  cases e with
  | utf8 =>
      rw [encodeChar, utf8Char]
      repeat' split
      all_goals simp
  | utf16le =>
      rw [encodeChar, hunits]
      omega
  | utf16be =>
      rw [encodeChar, hunits]
      omega
  | utf32le =>
      rw [encodeChar, length_unitBytes]
      decide
  | utf32be =>
      rw [encodeChar, length_unitBytes]
      decide

theorem length_encode (e : Encoding) (cs : List Char) :
    cs.length ≤ (encode e cs).length ∧ (encode e cs).length ≤ 4 * cs.length := by
  induction cs with
  | nil => exact ⟨le_refl _, le_refl _⟩
  | cons c cs ih =>
      have hc := length_encodeChar e c
      rw [encode, List.flatMap_cons, ← encode, List.length_append, List.length_cons]
      omega

section Cases

variable (mark : Bool) (rest : List Char)

/-- A text is read if the width and the order of its units are guessed. -/
theorem xmpUtf8_of_guess {width : Nat} {big : Bool} {e : Encoding}
    (hstep : ∀ fuel c rest, decodeFrom width big (fuel + 1) (encodeChar e c ++ rest) =
      utf8Char c ++ decodeFrom width big fuel rest)
    (hwidth : 1 < width)
    (hguess : guess (front e mark ++ 0x3C :: behind e rest) (front e mark).length = (width, big))
    (htext : (front e mark ++ 0x3C :: behind e rest).drop
      (if big then (front e mark).length - (width - 1) else (front e mark).length) =
        encode e ('<' :: rest)) :
    xmpUtf8 (encoded e mark ('<' :: rest)) = encode .utf8 ('<' :: rest) := by
  obtain ⟨hpre, hlen⟩ := front_short e mark
  rw [encoded_split, xmpUtf8_split _ hpre hlen, hguess]
  dsimp only
  rw [if_pos hwidth, htext]
  apply decodeFrom_encode hstep (by omega)
  calc ('<' :: rest).length ≤ (encode e ('<' :: rest)).length := (length_encode e _).1
    _ ≤ (front e mark ++ 0x3C :: behind e rest).length := by
      rw [← htext, List.length_drop]
      omega

/-- Units of four bytes from the first `<` on are fewer than the characters of a text that is
written with fewer bytes. -/
theorem xmpUtf8_ne_of_guess {e : Encoding}
    (hguess : guess (front e mark ++ 0x3C :: behind e rest) (front e mark).length = (4, false))
    (hshort : (behind e rest).length < 4 * rest.length + 3) :
    xmpUtf8 (encoded e mark ('<' :: rest)) ≠ encode .utf8 ('<' :: rest) := by
  obtain ⟨hpre, hlen⟩ := front_short e mark
  rw [encoded_split, xmpUtf8_split _ hpre hlen, hguess]
  dsimp only
  rw [if_pos (by decide), if_neg (by decide), List.drop_left]
  intro heq
  have hleads := congrArg leads heq
  rw [leads_decodeFrom false (by simp), leads_encode, List.length_cons, List.length_cons] at hleads
  omega

theorem xmpUtf8_utf32le :
    xmpUtf8 (encoded .utf32le mark ('<' :: rest)) = encode .utf8 ('<' :: rest) := by
  apply xmpUtf8_of_guess mark rest (e := .utf32le) (decodeFrom_utf32 false) (by decide)
  · rw [guess_split]
    rfl
  · exact List.drop_left

/-- UTF-16LE is decoded unless a null character follows. -/
theorem xmpUtf8_utf16le_iff :
    xmpUtf8 (encoded .utf16le mark ('<' :: rest)) = encode .utf8 ('<' :: rest) ↔
      rest.head? ≠ some '\x00' := by
  have hzeros : (behind .utf16le rest).take 3 = [0, 0, 0] ↔ rest.head? = some '\x00' := by
    rw [← take_utf16le]
    exact ⟨fun h => (List.cons.inj h).2, fun h => congrArg (0 :: ·) h⟩
  by_cases hnull : rest.head? = some '\x00'
  · refine iff_of_false ?_ (not_not.mpr hnull)
    apply xmpUtf8_ne_of_guess
    · rw [guess_split, if_pos (hzeros.mpr hnull)]
    · have hlen := (length_encode .utf16le rest).2
      simp only [behind, List.length_append, List.length_cons, List.length_nil]
      omega
  · refine iff_of_true ?_ hnull
    apply xmpUtf8_of_guess mark rest (e := .utf16le) (decodeFrom_utf16 false) (by decide)
    · rw [guess_split, if_neg (fun h => hnull (hzeros.mp h)),
        if_neg (fun h => by cases (front_zeros .utf16le mark).mp h)]
      rfl
    · exact List.drop_left

/-- UTF-32BE is decoded unless a small character follows. -/
theorem xmpUtf8_utf32be_iff :
    xmpUtf8 (encoded .utf32be mark ('<' :: rest)) = encode .utf8 ('<' :: rest) ↔ ¬ Small rest := by
  have hzeros : (behind .utf32be rest).take 3 = [0, 0, 0] ↔ Small rest := take_utf32be rest
  by_cases hsmall : Small rest
  · refine iff_of_false ?_ (not_not.mpr hsmall)
    apply xmpUtf8_ne_of_guess
    · rw [guess_split, if_pos (hzeros.mpr hsmall)]
    · have hlen := (length_encode .utf32be rest).2
      simp only [behind, List.length_append, List.length_nil]
      omega
  · refine iff_of_true ?_ hsmall
    apply xmpUtf8_of_guess mark rest (e := .utf32be) (decodeFrom_utf32 true) (by decide)
    · rw [guess_split, if_neg (fun h => hsmall (hzeros.mp h)),
        if_pos ((front_zeros .utf32be mark).mpr rfl)]
    · cases mark with
      | false => rfl
      | true => rfl

/-- Zeros behind the byte of the first `<` make it a code unit in little endian order. -/
theorem decodeFrom_lt {width : Nat} {tail : Bytes} (fuel : Nat) (hwidth : width = 2 ∨ width = 4)
    (hzeros : tail.take (width - 1) = List.replicate (width - 1) 0) :
    decodeFrom width false (fuel + 1) (0x3C :: tail) =
      0x3C :: decodeFrom width false fuel (tail.drop (width - 1)) := by
  have hsplit : 0x3C :: tail =
      (0x3C :: List.replicate (width - 1) 0) ++ tail.drop (width - 1) := by
    rw [← hzeros, List.cons_append, List.take_append_drop]
  have hlen : (0x3C :: List.replicate (width - 1) (0 : UInt8)).length = width := by
    rw [List.length_cons, List.length_replicate]
    omega
  have hunit : unit false (0x3C :: List.replicate (width - 1) 0) = 0x3C := by
    obtain rfl | rfl := hwidth
    · rfl
    · rfl
  rw [hsplit, decodeFrom_unit false fuel _ hlen (by rw [hunit]; omega), hunit]
  rfl

/-- Three zeros start with one. -/
theorem head_of_take {bs : Bytes} (h : bs.take 3 = [0, 0, 0]) : bs.head? = some 0 := by
  cases bs with
  | nil => cases h
  | cons b bs => rw [List.head?_cons, (List.cons.inj h).1]

/-- UTF-16BE is decoded unless a small character follows. -/
theorem xmpUtf8_utf16be_iff :
    xmpUtf8 (encoded .utf16be mark ('<' :: rest)) = encode .utf8 ('<' :: rest) ↔ ¬ Small rest := by
  have hhead : (behind .utf16be rest).head? = some 0 ↔ Small rest := head_utf16be rest
  by_cases hsmall : Small rest
  · refine iff_of_false ?_ (not_not.mpr hsmall)
    by_cases hzeros : (behind .utf16be rest).take 3 = [0, 0, 0]
    · apply xmpUtf8_ne_of_guess
      · rw [guess_split, if_pos hzeros]
      · have hlen := (length_encode .utf16be rest).2
        simp only [behind, List.length_append, List.length_nil]
        omega
    · obtain ⟨c, hc, hle⟩ := hsmall
      obtain ⟨cs, rfl⟩ := List.head?_eq_some_iff.mp hc
      obtain ⟨u, more, htext, -, hfirst, hlow⟩ := encodeChar_utf16be c
      obtain ⟨rfl, rfl⟩ := hfirst (hlow (by omega))
      have hbyte : (UInt8.ofNat (c.toNat % 256)).toNat = c.toNat := by
        rw [UInt8.toNat_ofNat']
        omega
      have hbehind : behind .utf16be (c :: cs) =
          0 :: UInt8.ofNat (c.toNat % 256) :: encode .utf16be cs := by
        have hzero : UInt8.ofNat (c.toNat / 256 % 256) = 0 := ofNat_eq_zero.mpr (by omega)
        have htail : behind .utf16be (c :: cs) = encodeChar .utf16be c ++ encode .utf16be cs := rfl
        rw [htail, htext, hzero]
        rfl
      have hguess : guess (front .utf16be mark ++ 0x3C :: behind .utf16be (c :: cs))
          (front .utf16be mark).length = (2, false) := by
        rw [guess_split, if_neg hzeros, if_neg (fun h => by cases (front_zeros .utf16be mark).mp h),
          if_pos (hhead.mpr ⟨c, hc, hle⟩)]
      obtain ⟨hpre, hlen⟩ := front_short .utf16be mark
      rw [encoded_split, xmpUtf8_split _ hpre hlen, hguess]
      dsimp only
      obtain ⟨fuel, hfuel⟩ :
          ∃ fuel, (front .utf16be mark ++ 0x3C :: behind .utf16be (c :: cs)).length = fuel + 1 :=
        Nat.exists_eq_succ_of_ne_zero (by simp)
      rw [if_pos (by decide), if_neg (by decide), List.drop_left, hfuel,
        decodeFrom_lt fuel (.inl rfl) (by rw [hbehind]; rfl), hbehind]
      intro heq
      apply shifted_ne cs fuel (UInt8.ofNat (c.toNat % 256))
      rw [hbyte, appendUtf8_toNat]
      exact (List.cons.inj heq).2
  · refine iff_of_true ?_ hsmall
    apply xmpUtf8_of_guess mark rest (e := .utf16be) (decodeFrom_utf16 true) (by decide)
    · have hlast : (front .utf16be mark).getLast? = some 0 := by
        cases mark with
        | false => rfl
        | true => rfl
      rw [guess_split, if_neg (fun h => hsmall (hhead.mp (head_of_take h))),
        if_neg (fun h => by cases (front_zeros .utf16be mark).mp h),
        if_neg (fun h => hsmall (hhead.mp h)), if_pos hlast]
    · cases mark with
      | false => rfl
      | true => rfl

/-- UTF-8 is left alone unless a null character follows. -/
theorem xmpUtf8_utf8_iff :
    xmpUtf8 (encoded .utf8 mark ('<' :: rest)) = encoded .utf8 mark ('<' :: rest) ↔
      rest.head? ≠ some '\x00' := by
  have hhead : (behind .utf8 rest).head? = some 0 ↔ rest.head? = some '\x00' := head_utf8 rest
  obtain ⟨hpre, hlen⟩ := front_short .utf8 mark
  by_cases hnull : rest.head? = some '\x00'
  · refine iff_of_false ?_ (not_not.mpr hnull)
    obtain ⟨width, hwidth, hguess, hzeros⟩ : ∃ width, (width = 2 ∨ width = 4) ∧
        guess (front .utf8 mark ++ 0x3C :: behind .utf8 rest) (front .utf8 mark).length =
          (width, false) ∧
        (behind .utf8 rest).take (width - 1) = List.replicate (width - 1) 0 := by
      by_cases hthree : (behind .utf8 rest).take 3 = [0, 0, 0]
      · exact ⟨4, .inr rfl, by rw [guess_split, if_pos hthree], hthree⟩
      · refine ⟨2, .inl rfl, ?_, ?_⟩
        · rw [guess_split, if_neg hthree, if_neg (fun h => by cases (front_zeros .utf8 mark).mp h),
            if_pos (hhead.mpr hnull)]
        · obtain ⟨bs, hbs⟩ := List.head?_eq_some_iff.mp (hhead.mpr hnull)
          rw [hbs]
          rfl
    rw [encoded_split, xmpUtf8_split _ hpre hlen, hguess]
    dsimp only
    rw [if_pos (by omega), if_neg (by decide), List.drop_left]
    obtain ⟨fuel, hfuel⟩ :
        ∃ fuel, (front .utf8 mark ++ 0x3C :: behind .utf8 rest).length = fuel + 1 :=
      Nat.exists_eq_succ_of_ne_zero (by simp)
    rw [hfuel, decodeFrom_lt fuel hwidth hzeros]
    intro heq
    cases mark with
    | true => cases (List.cons.inj heq).1
    | false =>
        -- The text has more zeros than what is read from it.
        have htail : decodeFrom width false fuel ((behind .utf8 rest).drop (width - 1)) =
            behind .utf8 rest := (List.cons.inj heq).2
        have hpos : 0 < width := by omega
        have hle := zeros_decodeFrom hpos false fuel
          ((behind .utf8 rest).drop (width - 1))
        have hsplit : zeros (behind .utf8 rest) =
            width - 1 + zeros ((behind .utf8 rest).drop (width - 1)) := by
          conv_lhs => rw [← List.take_append_drop (width - 1) (behind .utf8 rest), hzeros]
          rw [zeros, List.takeWhile_append_of_pos (by simp), List.length_append,
            List.length_replicate]
          rfl
        rw [htail] at hle
        omega
  · refine iff_of_true ?_ hnull
    have hlast : (front .utf8 mark).getLast? ≠ some 0 := by
      cases mark with
      | false => decide
      | true => decide
    rw [encoded_split, xmpUtf8_split _ hpre hlen, guess_split,
      if_neg (fun h => hnull (hhead.mp (head_of_take h))),
      if_neg (fun h => by cases (front_zeros .utf8 mark).mp h),
      if_neg (fun h => hnull (hhead.mp h)), if_neg hlast]
    rfl

end Cases

/-- A text that begins with `<` is brought to UTF-8 exactly if the character behind it does not
hide its encoding. -/
theorem xmpUtf8_decodes_iff (e : Encoding) (mark : Bool) (rest : List Char) :
    xmpUtf8 (encoded e mark ('<' :: rest)) = expected e mark ('<' :: rest) ↔ Decodes e rest := by
  have hsmall : (∀ c ∈ rest.head?, 0xFF < c.toNat) ↔ ¬ Small rest := by
    simp [Small]
  cases e with
  | utf8 => exact xmpUtf8_utf8_iff mark rest
  | utf16le => exact xmpUtf8_utf16le_iff mark rest
  | utf16be => exact (xmpUtf8_utf16be_iff mark rest).trans hsmall.symm
  | utf32le => exact iff_of_true (xmpUtf8_utf32le mark rest) trivial
  | utf32be => exact (xmpUtf8_utf32be_iff mark rest).trans hsmall.symm

/-- The last character of a packet in big endian order is lost. -/
theorem bigEndian_shortened :
    xmpUtf8 (encoded .utf16be false ['<', '?']) = encode .utf8 ['<'] ∧
    xmpUtf8 (encoded .utf16be false ['<', '?']) ≠ expected .utf16be false ['<', '?'] ∧
    xmpUtf8 (encoded .utf32be true ['<', '?']) ≠ expected .utf32be true ['<', '?'] := by
  decide

end Kura.Engine.XmpText
