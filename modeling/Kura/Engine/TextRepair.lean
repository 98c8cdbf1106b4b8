import Kura.Engine.ContentFix

/-!
# Texts after their repair

What the filter finds in a single token it has written itself: numbers are
within their bounds, the text of a hexadecimal string is in order and a
scrubbed text has no private use characters.
-/

namespace Kura.Engine

/-- A text without private use characters has none left. -/
theorem stripLoop_again (k : Nat) (u : Bytes) :
    ∀ n, (stripLoop n (stripLoop k u).1).2 = false := by
  have hnil : ∀ n, (stripLoop n []).2 = false := by
    intro n
    cases n with
    | zero => rfl
    | succ n => rfl
  induction k generalizing u with
  | zero => exact hnil
  | succ k ih =>
      cases u with
      | nil => exact hnil
      | cons c cs =>
          rw [stripLoop]
          simp only
          by_cases hshort : cs.length + 1 < stripLen c
          · rw [if_pos hshort]
            exact hnil
          · rw [if_neg hshort]
            split
            · exact ih _
            · rename_i hpua
              intro n
              have hlen : (cs.take (stripLen c - 1)).length = stripLen c - 1 := by
                rw [List.length_take]
                omega
              cases n with
              | zero => rfl
              | succ n =>
                  rw [List.cons_append, stripLoop]
                  simp only [List.take_left' hlen, List.drop_left' hlen, hpua]
                  rw [if_neg (by rw [List.length_append, hlen]; omega)]
                  exact ih _ n

theorem stripPuaUtf8_again (u : Bytes) : (stripPuaUtf8 (stripPuaUtf8 u).1).2 = false :=
  stripLoop_again _ _ _

/-- Texts that consist of valid sequences. -/
inductive Utf8 : Bytes → Prop
  | nil : Utf8 []
  | cons {len : Nat} {c : UInt8} {rest tail : Bytes} (hlen : utf8Len c = some len)
      (hrest : validSequence len c rest = true) (htail : Utf8 tail) : Utf8 (c :: (rest ++ tail))

theorem length_of_validSequence {len : Nat} {c : UInt8} {rest : Bytes}
    (h : validSequence len c rest = true) : rest.length = len - 1 := by
  simp only [validSequence, Bool.and_eq_true, decide_eq_true_eq] at h
  exact h.1.1.1.1.1

/-- What the validator accepts is UTF-8. -/
theorem utf8_of_validLoop {n : Nat} {s : Bytes} (h : validLoop n s = true) : Utf8 s := by
  induction n generalizing s with
  | zero =>
      obtain rfl : s = [] := List.isEmpty_iff.mp h
      exact Utf8.nil
  | succ n ih =>
      cases s with
      | nil => exact Utf8.nil
      | cons c cs =>
          rw [validLoop] at h
          cases hlen : utf8Len c with
          | none =>
              rw [hlen] at h
              cases h
          | some len =>
              simp only [hlen, Bool.and_eq_true] at h
              rw [← List.take_append_drop (len - 1) cs]
              exact Utf8.cons hlen h.1 (ih h.2)

/-- The validator accepts UTF-8. -/
theorem validLoop_of_utf8 {s : Bytes} (h : Utf8 s) : ∀ n, s.length ≤ n → validLoop n s = true := by
  induction h with
  | nil =>
      intro n _
      cases n with
      | zero => rfl
      | succ n => rfl
  | @cons len c rest tail hlen hrest htail ih =>
      intro n hn
      have hrlen := length_of_validSequence hrest
      rw [List.length_cons, List.length_append] at hn
      cases n with
      | zero => omega
      | succ n =>
          rw [validLoop, hlen]
          simp only [List.take_left' hrlen, List.drop_left' hrlen, hrest, Bool.true_and]
          exact ih n (by omega)

theorem stripLen_of_utf8Len {c : UInt8} {len : Nat} (h : utf8Len c = some len) :
    stripLen c = len := by
  rw [utf8Len] at h
  rw [stripLen]
  split_ifs at h ⊢ <;> simp_all

/-- Stripping keeps valid text valid. -/
theorem utf8_stripLoop {u : Bytes} (h : Utf8 u) : ∀ n, Utf8 (stripLoop n u).1 := by
  induction h with
  | nil =>
      intro n
      cases n with
      | zero => exact Utf8.nil
      | succ n => exact Utf8.nil
  | @cons len c rest tail hlen hrest htail ih =>
      intro n
      have hrlen := length_of_validSequence hrest
      have hstrip := stripLen_of_utf8Len hlen
      cases n with
      | zero => exact Utf8.nil
      | succ n =>
          rw [stripLoop]
          simp only [hstrip, List.take_left' hrlen, List.drop_left' hrlen]
          rw [if_neg (by rw [List.length_append]; omega)]
          split
          · exact ih n
          · exact Utf8.cons hlen hrest (ih n)

theorem validUtf8_strip {u : Bytes} (h : validUtf8 u = true) :
    validUtf8 (stripPuaUtf8 u).1 = true := by
  apply validLoop_of_utf8
  · exact utf8_stripLoop (utf8_of_validLoop h) _
  · exact le_refl _

theorem hexDigits_isXDigit (raw : Bytes) : ∀ c ∈ hexDigits raw, isXDigit c = true := by
  have hfilter : ∀ c ∈ raw.filter isXDigit, isXDigit c = true := by
    intro c hc
    exact (List.mem_filter.mp hc).2
  intro c hc
  rw [hexDigits] at hc
  split at hc
  · obtain hmem | hzero := List.mem_append.mp hc
    · exact hfilter c hmem
    · rw [List.mem_singleton.mp hzero]
      decide
  · exact hfilter c hc

theorem even_length_hexDigits (raw : Bytes) : (hexDigits raw).length % 2 = 0 := by
  have hzero : (lit "0").length = 1 := by decide
  rw [hexDigits]
  split
  · rw [List.length_append, hzero]
    omega
  · omega

/-- Pairs of digits between brackets are in order. -/
theorem hexFaults_eq_zero {ds : Bytes} (hds : ∀ c ∈ ds, isXDigit c = true)
    (heven : ds.length % 2 = 0) : hexFaults (0x3C :: (ds ++ [0x3E])) = 0 := by
  have hclose : isStray 0x3E = false ∧ isXDigit 0x3E = false := by decide
  have hcount : ds.countP isXDigit = ds.length := List.countP_eq_length.mpr hds
  have hnone : ds.countP isStray = 0 := by
    rw [List.countP_eq_zero]
    intro c hc
    simp [isStray, hds c hc]
  calc hexFaults (0x3C :: (ds ++ [0x3E]))
      = (ds ++ [0x3E]).countP isStray + (ds ++ [0x3E]).countP isXDigit % 2 := rfl
    _ = 0 + ds.length % 2 := by
        rw [List.countP_append, List.countP_append, hnone, hcount]
        simp [hclose]
    _ = 0 := by rw [heven]

/-- The string written for an invalid token is in order. -/
theorem hexFaults_hexToken (raw : Bytes) : hexFaults (ContentFixFilter.hexToken raw).raw = 0 :=
  hexFaults_eq_zero (hexDigits_isXDigit raw) (even_length_hexDigits raw)

namespace ContentFixFilter

variable (m : FixMode)

/-- The texts that are written for numbers out of bounds are within them. -/
theorem clamped_within :
    (∀ b ∈ [Double.fin m.maxReal, Double.neg (.fin m.maxReal)],
      (fixReal m (.plain .real (realText b))).2 = 0) ∧
    ∀ n ∈ [0, kMaxInt, -kMaxInt], (fixInteger m (.plain .integer (toString10 n))).2 = 0 := by
  have hall : ∀ p l s : Bool,
      (∀ b ∈ [Double.fin (FixMode.maxReal ⟨p, l, s⟩),
        Double.neg (.fin (FixMode.maxReal ⟨p, l, s⟩))],
        (fixReal ⟨p, l, s⟩ (.plain .real (realText b))).2 = 0) ∧
      ∀ n ∈ [0, kMaxInt, -kMaxInt],
        (fixInteger ⟨p, l, s⟩ (.plain .integer (toString10 n))).2 = 0 := by decide +kernel
  exact hall m.pdf14 m.limits23 m.scrubActualText

/-- An integer is within its bounds once it is written. -/
theorem fixInteger_again (t : Token) (ht : t.type = .integer) :
    (fixInteger m t).1.type = .integer ∧ (fixInteger m (fixInteger m t).1).2 = 0 := by
  have hwithin := (clamped_within m).2
  by_cases h : m.limits = true ∧ (kMaxInt < strtoll t.value ∨ strtoll t.value < -kMaxInt)
  · have hfix : (fixInteger m t).1 =
        .plain .integer (toString10 (if 0 < strtoll t.value then kMaxInt else -kMaxInt)) := by
      rw [fixInteger]
      simp only [h, if_true, and_self]
    rw [hfix]
    refine ⟨rfl, hwithin _ ?_⟩
    split <;> simp
  · have hfix : fixInteger m t = (t, 0) := by
      rw [fixInteger]
      exact if_neg h
    rw [hfix]
    exact ⟨ht, by rw [hfix]⟩

/-- What is written for a real: itself, a bound or zero. -/
theorem fixReal_forms (t : Token) :
    fixReal m t = (t, 0) ∨
    (∃ b ∈ [Double.fin m.maxReal, Double.neg (.fin m.maxReal)],
      fixReal m t = (.plain .real (realText b), 1)) ∨
    fixReal m t = (.plain .integer (toString10 0), m.pdf14.toNat) := by
  rw [fixReal]
  simp only
  split
  · exact Or.inl rfl
  · split
    · refine Or.inr (Or.inl ⟨_, ?_, rfl⟩)
      split <;> simp
    · split
      · exact Or.inr (Or.inr rfl)
      · exact Or.inl rfl

/-- A real is within its bounds once it is written; it may have become an integer. -/
theorem fixReal_again (t : Token) (ht : t.type = .real) :
    ((fixReal m t).1.type = .real ∧ (fixReal m (fixReal m t).1).2 = 0) ∨
    ((fixReal m t).1.type = .integer ∧ (fixInteger m (fixReal m t).1).2 = 0) := by
  have hwithin := clamped_within m
  obtain hkeep | ⟨b, hb, hclamp⟩ | hzero := fixReal_forms m t
  · rw [hkeep]
    exact Or.inl ⟨ht, by rw [hkeep]⟩
  · rw [hclamp]
    exact Or.inl ⟨rfl, hwithin.1 b hb⟩
  · rw [hzero]
    exact Or.inr ⟨rfl, hwithin.2 0 (by simp)⟩

end ContentFixFilter

end Kura.Engine
