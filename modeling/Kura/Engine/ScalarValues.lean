import Kura.Base.Bits
import Kura.Base.PrefixCode
import Kura.Engine.TextRepair

/-!
# UTF-8 as the encoding of scalar values

The test for UTF-8 accepts the encodings of sequences of scalar values, and
stripping such a text is filtering the sequence.
-/

namespace Kura.Engine

open Kura.Base (utf8 utf8_cons forall_byte)

/-- The length of a sequence, by the value of its first byte. -/
theorem utf8Len_eq (c : UInt8) : utf8Len c =
    if c.toNat < 0x80 then some 1
    else if c.toNat < 0xC0 then none
    else if c.toNat < 0xE0 then some 2
    else if c.toNat < 0xF0 then some 3
    else if c.toNat < 0xF8 then some 4
    else none :=
  forall_byte (P := fun c => utf8Len c =
    if c.toNat < 0x80 then some 1
    else if c.toNat < 0xC0 then none
    else if c.toNat < 0xE0 then some 2
    else if c.toNat < 0xF0 then some 3
    else if c.toNat < 0xF8 then some 4
    else none) (by decide +kernel) c

theorem continuation_iff (c : UInt8) : c &&& 0xC0 = 0x80 ↔ c.toNat / 64 = 2 :=
  forall_byte (P := fun c => c &&& 0xC0 = 0x80 ↔ c.toNat / 64 = 2) (by decide +kernel) c

/-- The mask of the test and the mask of stripping leave the bits of the first byte. -/
theorem firstBits_masks (c : UInt8) :
    firstBits 2 c = (c &&& 0x1F).toNat ∧ firstBits 2 c = (c &&& ((0xFF : UInt8) >>> 3)).toNat ∧
      firstBits 3 c = (c &&& 0x0F).toNat ∧ firstBits 3 c = (c &&& ((0xFF : UInt8) >>> 4)).toNat ∧
      firstBits 4 c = (c &&& 0x07).toNat ∧ firstBits 4 c = (c &&& ((0xFF : UInt8) >>> 5)).toNat :=
  forall_byte (P := fun c =>
    firstBits 2 c = (c &&& 0x1F).toNat ∧ firstBits 2 c = (c &&& ((0xFF : UInt8) >>> 3)).toNat ∧
      firstBits 3 c = (c &&& 0x0F).toNat ∧ firstBits 3 c = (c &&& ((0xFF : UInt8) >>> 4)).toNat ∧
      firstBits 4 c = (c &&& 0x07).toNat ∧ firstBits 4 c = (c &&& ((0xFF : UInt8) >>> 5)).toNat)
    (by decide +kernel) c

/-- Shifting in the low bits of the other bytes gives the code point. -/
theorem codepoint_shifts (first : Nat) (rest : Bytes) :
    codepoint first rest = rest.foldl (fun cp c => (cp <<< 6) ||| (c &&& 0x3F).toNat) first := by
  have hlow : ∀ c : UInt8, (c &&& 0x3F).toNat = c.toNat % 64 := fun c =>
    forall_byte (P := fun c => (c &&& 0x3F).toNat = c.toNat % 64) (by decide +kernel) c
  have hor : ∀ (cp : Nat) (c : UInt8),
      (cp <<< 6) ||| (c &&& 0x3F).toNat = cp * 64 + c.toNat % 64 := by
    intro cp c
    rw [hlow, ← Nat.shiftLeft_add_eq_or_of_lt (by omega : c.toNat % 64 < 2 ^ 6), Nat.shiftLeft_eq]
  simp only [hor]
  rfl

variable {b : UInt8} {rest : Bytes} {len : Nat}

/-- The tests on a sequence, with the number that is put together. -/
theorem validSequence_iff : validSequence len b rest = true ↔
    rest.length = len - 1 ∧ (∀ d ∈ rest, d.toNat / 64 = 2) ∧
      (len = 2 → 0x80 ≤ codepoint (firstBits len b) rest) ∧
      (len = 3 → 0x800 ≤ codepoint (firstBits len b) rest) ∧
      (len = 4 → 0x10000 ≤ codepoint (firstBits len b) rest) ∧
      Nat.isValidChar (codepoint (firstBits len b) rest) := by
  simp only [validSequence, Bool.and_eq_true, Bool.not_eq_true', decide_eq_true_eq,
    Bool.and_eq_false_imp, Bool.or_eq_false_iff, decide_eq_false_iff_not, List.all_eq_true,
    continuation_iff, Nat.isValidChar, not_lt]
  refine ⟨?_, ?_⟩
  · rintro ⟨⟨⟨⟨⟨hlength, hall⟩, htwo⟩, hthree⟩, hfour⟩, htop, hsurrogate⟩
    refine ⟨hlength, hall, htwo, hthree, hfour, ?_⟩
    have := fun h => not_le.mp (hsurrogate h)
    omega
  · rintro ⟨hlength, hall, htwo, hthree, hfour, hvalid⟩
    refine ⟨⟨⟨⟨⟨hlength, hall⟩, htwo⟩, hthree⟩, hfour⟩, by omega, fun h => by omega⟩

theorem ofNat_eq (x : UInt8) {n : Nat} (h : n = x.toNat) : UInt8.ofNat n = x := by
  rw [h, UInt8.ofNat_toNat]

theorem toNat_ofNat_lt {n : Nat} (h : n < 256) : (UInt8.ofNat n).toNat = n :=
  UInt8.toNat_ofNat_of_lt' h

/-- A sequence that passes the tests is the encoding of the character with its number. -/
theorem encode_of_validSequence (hlen : utf8Len b = some len)
    (h : validSequence len b rest = true) :
    ∃ c : Char, c.toNat = codepoint (firstBits len b) rest ∧
      String.utf8EncodeChar c = b :: rest := by
  obtain ⟨hlength, hall, htwo, hthree, hfour, hvalid⟩ := validSequence_iff.mp h
  refine ⟨Char.ofNatAux _ hvalid, Char.toNat_ofNatAux hvalid, ?_⟩
  have hval : (Char.ofNatAux _ hvalid).val.toNat = codepoint (firstBits len b) rest :=
    Char.toNat_ofNatAux hvalid
  rw [String.utf8EncodeChar, hval]
  rw [utf8Len_eq] at hlen
  split_ifs at hlen with h1 h2 h3 h4 h5
  all_goals
    obtain rfl := Option.some.inj hlen
    clear hlen hval hvalid h
  · obtain rfl := List.length_eq_zero_iff.mp hlength
    have hcp : codepoint (firstBits 1 b) [] = b.toNat := rfl
    rw [hcp, if_pos (by omega), UInt8.ofNat_toNat]
  · obtain ⟨x, rfl⟩ := List.length_eq_one_iff.mp hlength
    have hx := hall x (by simp)
    have hcp : codepoint (firstBits 2 b) [x] = b.toNat % 32 * 64 + x.toNat % 64 := rfl
    have hlow := htwo rfl
    rw [hcp] at hlow ⊢
    rw [if_neg (by omega), if_pos (by omega), ofNat_eq b (by omega), ofNat_eq x (by omega)]
  · obtain ⟨x, y, rfl⟩ := List.length_eq_two.mp hlength
    have hx := hall x (by simp)
    have hy := hall y (by simp)
    have hcp : codepoint (firstBits 3 b) [x, y] =
      (b.toNat % 16 * 64 + x.toNat % 64) * 64 + y.toNat % 64 := rfl
    have hlow := hthree rfl
    rw [hcp] at hlow ⊢
    rw [if_neg (by omega), if_neg (by omega), if_pos (by omega), ofNat_eq b (by omega),
      ofNat_eq x (by omega), ofNat_eq y (by omega)]
  · obtain ⟨x, y, z, rfl⟩ := List.length_eq_three.mp hlength
    have hx := hall x (by simp)
    have hy := hall y (by simp)
    have hz := hall z (by simp)
    have hcp : codepoint (firstBits 4 b) [x, y, z] =
      ((b.toNat % 8 * 64 + x.toNat % 64) * 64 + y.toNat % 64) * 64 + z.toNat % 64 := rfl
    have hlow := hfour rfl
    rw [hcp] at hlow ⊢
    rw [if_neg (by omega), if_neg (by omega), if_neg (by omega), ofNat_eq b (by omega),
      ofNat_eq x (by omega), ofNat_eq y (by omega), ofNat_eq z (by omega)]

/-- The encoding of a character passes the tests, with the number of the character. -/
theorem validSequence_encode (c : Char) :
    ∃ len b rest, String.utf8EncodeChar c = b :: rest ∧ utf8Len b = some len ∧
      validSequence len b rest = true ∧ codepoint (firstBits len b) rest = c.toNat := by
  have hvalid : Nat.isValidChar c.toNat := c.valid
  have hbound : c.toNat < 0x110000 := by
    rcases hvalid with h | h
    · omega
    · exact h.2
  have hencode := String.utf8EncodeChar.eq_1 c
  have hval : c.val.toNat = c.toNat := rfl
  rw [hval] at hencode
  set v := c.toNat
  split_ifs at hencode with h1 h2 h3
  · have hb := toNat_ofNat_lt (by omega : v < 256)
    refine ⟨1, _, _, hencode, ?_, ?_⟩
    · rw [utf8Len_eq, hb, if_pos (by omega)]
    · have hcp : codepoint (firstBits 1 (UInt8.ofNat v)) [] = v := hb
      rw [validSequence_iff, hcp]
      exact ⟨⟨rfl, by simp, by simp, by simp, by simp, hvalid⟩, rfl⟩
  · have hb := toNat_ofNat_lt (by omega : v / 64 % 0x20 + 0xc0 < 256)
    have hx := toNat_ofNat_lt (by omega : v % 0x40 + 0x80 < 256)
    refine ⟨2, _, _, hencode, ?_, ?_⟩
    · rw [utf8Len_eq, hb, if_neg (by omega), if_neg (by omega), if_pos (by omega)]
    · have hcp : codepoint (firstBits 2 (UInt8.ofNat (v / 64 % 0x20 + 0xc0)))
          [UInt8.ofNat (v % 0x40 + 0x80)] = v := by
        show (UInt8.ofNat _).toNat % 32 * 64 + (UInt8.ofNat _).toNat % 64 = v
        rw [hb, hx]
        omega
      rw [validSequence_iff, hcp]
      refine ⟨⟨rfl, ?_, fun _ => by omega, by simp, by simp, hvalid⟩, rfl⟩
      simp only [List.mem_singleton, forall_eq, hx]
      omega
  · have hb := toNat_ofNat_lt (by omega : v / 4096 % 0x10 + 0xe0 < 256)
    have hx := toNat_ofNat_lt (by omega : v / 64 % 0x40 + 0x80 < 256)
    have hy := toNat_ofNat_lt (by omega : v % 0x40 + 0x80 < 256)
    refine ⟨3, _, _, hencode, ?_, ?_⟩
    · rw [utf8Len_eq, hb, if_neg (by omega), if_neg (by omega), if_neg (by omega),
        if_pos (by omega)]
    · have hcp : codepoint (firstBits 3 (UInt8.ofNat (v / 4096 % 0x10 + 0xe0)))
          [UInt8.ofNat (v / 64 % 0x40 + 0x80), UInt8.ofNat (v % 0x40 + 0x80)] = v := by
        show ((UInt8.ofNat _).toNat % 16 * 64 + (UInt8.ofNat _).toNat % 64) * 64 +
          (UInt8.ofNat _).toNat % 64 = v
        rw [hb, hx, hy]
        omega
      rw [validSequence_iff, hcp]
      refine ⟨⟨rfl, ?_, by simp, fun _ => by omega, by simp, hvalid⟩, rfl⟩
      simp only [List.mem_cons, List.not_mem_nil, or_false, forall_eq_or_imp, forall_eq, hx, hy]
      omega
  · have hb := toNat_ofNat_lt (by omega : v / 262144 % 0x08 + 0xf0 < 256)
    have hx := toNat_ofNat_lt (by omega : v / 4096 % 0x40 + 0x80 < 256)
    have hy := toNat_ofNat_lt (by omega : v / 64 % 0x40 + 0x80 < 256)
    have hz := toNat_ofNat_lt (by omega : v % 0x40 + 0x80 < 256)
    refine ⟨4, _, _, hencode, ?_, ?_⟩
    · rw [utf8Len_eq, hb, if_neg (by omega), if_neg (by omega), if_neg (by omega),
        if_neg (by omega), if_pos (by omega)]
    · have hcp : codepoint (firstBits 4 (UInt8.ofNat (v / 262144 % 0x08 + 0xf0)))
          [UInt8.ofNat (v / 4096 % 0x40 + 0x80), UInt8.ofNat (v / 64 % 0x40 + 0x80),
            UInt8.ofNat (v % 0x40 + 0x80)] = v := by
        show (((UInt8.ofNat _).toNat % 8 * 64 + (UInt8.ofNat _).toNat % 64) * 64 +
          (UInt8.ofNat _).toNat % 64) * 64 + (UInt8.ofNat _).toNat % 64 = v
        rw [hb, hx, hy, hz]
        omega
      rw [validSequence_iff, hcp]
      refine ⟨⟨rfl, ?_, by simp, by simp, fun _ => by omega, hvalid⟩, rfl⟩
      simp only [List.mem_cons, List.not_mem_nil, or_false, forall_eq_or_imp, forall_eq, hx, hy, hz]
      omega

/-- Texts of valid sequences are the encodings of sequences of characters. -/
theorem utf8_iff {s : Bytes} : Utf8 s ↔ ∃ cs : List Char, utf8 cs = s := by
  refine ⟨fun h => ?_, ?_⟩
  · induction h with
    | nil => exact ⟨[], rfl⟩
    | cons hlen hrest _ ih =>
        obtain ⟨cs, rfl⟩ := ih
        obtain ⟨c, -, hc⟩ := encode_of_validSequence hlen hrest
        exact ⟨c :: cs, by rw [utf8_cons, hc, List.cons_append]⟩
  · rintro ⟨cs, rfl⟩
    induction cs with
    | nil => exact Utf8.nil
    | cons c cs ih =>
        obtain ⟨len, b, rest, hc, hlen, hrest, -⟩ := validSequence_encode c
        rw [utf8_cons, hc, List.cons_append]
        exact Utf8.cons hlen hrest ih

theorem validUtf8_iff (s : Bytes) : validUtf8 s = true ↔ Utf8 s :=
  ⟨utf8_of_validLoop, fun h => validLoop_of_utf8 h _ le_rfl⟩

/-- Stripping goes through an encoded sequence character by character. -/
theorem stripLoop_utf8 (cs : List Char) : ∀ n, (utf8 cs).length ≤ n →
    stripLoop n (utf8 cs) = (utf8 (cs.filter fun c => !isPuaCodepoint c.toNat),
      cs.any fun c => isPuaCodepoint c.toNat) := by
  induction cs with
  | nil =>
      intro n _
      cases n with
      | zero => rfl
      | succ n => rfl
  | cons c cs ih =>
      intro n hn
      obtain ⟨len, b, rest, hc, hlen, hrest, hcp⟩ := validSequence_encode c
      have hstrip := stripLen_of_utf8Len hlen
      have hrlen := length_of_validSequence hrest
      rw [utf8_cons, hc, List.cons_append] at hn ⊢
      rw [List.length_cons, List.length_append] at hn
      cases n with
      | zero => omega
      | succ n =>
          rw [stripLoop]
          simp only [hstrip, List.take_left' hrlen, List.drop_left' hrlen, hcp, ih n (by omega)]
          rw [if_neg (by rw [List.length_append]; omega), List.any_cons, List.filter_cons]
          cases hpua : isPuaCodepoint c.toNat with
          | true => rfl
          | false =>
              rw [if_neg (by decide), Bool.not_false, if_pos rfl, utf8_cons, hc, Bool.false_or]

/-- The test accepts the encodings of sequences of scalar values and nothing else, and
stripping removes the private-use characters of such a sequence. -/
theorem validUtf8_and_stripPuaUtf8 :
    (∀ s : Bytes, validUtf8 s = true ↔ ∃ cs : List Char, utf8 cs = s) ∧
    ∀ cs : List Char, stripPuaUtf8 (utf8 cs) =
      (utf8 (cs.filter fun c => !isPuaCodepoint c.toNat), cs.any fun c => isPuaCodepoint c.toNat) :=
  ⟨fun s => (validUtf8_iff s).trans utf8_iff, fun cs => stripLoop_utf8 cs _ le_rfl⟩

end Kura.Engine
