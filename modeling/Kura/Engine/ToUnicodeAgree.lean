import Kura.Engine.ToUnicode

/-!
# Where the two readers of `ToUnicode` agree

A regular stream has the entries that both readers take it to have. Its
destinations are whole units in which high surrogates are followed by low
ones, and a range does not run over the last unit. An array has one string for
each code of its range, or nothing behind it is an entry for either reader.
-/

namespace Kura.Engine.ToUnicode

/-- The value of digits. -/
def digitsOf (s : Bytes) : Nat := s.foldl (fun n c => 16 * n + (hexValue c).toNat) 0

theorem hexValue_lt {c : UInt8} (h : isXDigit c = true) : (hexValue c).toNat < 16 := by
  have hall : ∀ n : Nat, n < 256 → isXDigit (UInt8.ofNat n) = true →
      (hexValue (UInt8.ofNat n)).toNat < 16 := by
    decide +kernel
  have hc := hall c.toNat (UInt8.toNat_lt c)
  rw [UInt8.ofNat_toNat] at hc
  exact hc h

theorem hexDigit_spec (n : Nat) (h : n < 16) :
    isXDigit (hexDigit n) = true ∧ (hexValue (hexDigit n)).toNat = n := by
  have hall : ∀ n : Nat, n < 16 → isXDigit (hexDigit n) = true ∧
      (hexValue (hexDigit n)).toNat = n := by
    decide
  exact hall n h

theorem hexNumber_eq {s : Bytes} (h : ∀ c ∈ s, isXDigit c = true) : hexNumber s = digitsOf s := by
  rw [hexNumber, List.takeWhile_eq_self_iff.mpr h]
  rfl

theorem digitsOf_two (a b : UInt8) :
    digitsOf [a, b] = 16 * (hexValue a).toNat + (hexValue b).toNat := by
  simp [digitsOf]

theorem digitsOf_four (a b c d : UInt8) :
    digitsOf [a, b, c, d] = 4096 * (hexValue a).toNat + 256 * (hexValue b).toNat +
      16 * (hexValue c).toNat + (hexValue d).toNat := by
  simp only [digitsOf, List.foldl_cons, List.foldl_nil]
  omega

section Small

variable {a b c d : UInt8}

theorem strtoul16_two (ha : isXDigit a = true) (hb : isXDigit b = true) :
    strtoul16 [a, b] = 16 * (hexValue a).toNat + (hexValue b).toNat := by
  have hdigits : hexNumber [a, b] = 16 * (hexValue a).toNat + (hexValue b).toNat := by
    rw [hexNumber_eq, digitsOf_two]
    intro x hx
    simp only [List.mem_cons, List.not_mem_nil, or_false] at hx
    obtain rfl | rfl := hx
    · exact ha
    · exact hb
  have hsmall := hexValue_lt ha
  have hsmall' := hexValue_lt hb
  rw [strtoul16, hdigits, Nat.min_eq_left]
  omega

/-- Four hex digits are the number they write. -/
theorem strtoul16_four (ha : isXDigit a = true) (hb : isXDigit b = true) (hc : isXDigit c = true)
    (hd : isXDigit d = true) :
    strtoul16 [a, b, c, d] = 4096 * (hexValue a).toNat + 256 * (hexValue b).toNat +
      16 * (hexValue c).toNat + (hexValue d).toNat := by
  have hdigits : hexNumber [a, b, c, d] = 4096 * (hexValue a).toNat + 256 * (hexValue b).toNat +
      16 * (hexValue c).toNat + (hexValue d).toNat := by
    rw [hexNumber_eq, digitsOf_four]
    intro x hx
    simp only [List.mem_cons, List.not_mem_nil, or_false] at hx
    obtain rfl | rfl | rfl | rfl := hx
    · exact ha
    · exact hb
    · exact hc
    · exact hd
  have := hexValue_lt ha
  have := hexValue_lt hb
  have := hexValue_lt hc
  have := hexValue_lt hd
  rw [strtoul16, hdigits, Nat.min_eq_left]
  omega

end Small

/-- Four digits are read back as the number they were written for. -/
theorem hex4_spec {n : Nat} (h : n < 65536) :
    ∃ a b c d, hex4 n = [a, b, c, d] ∧ isXDigit a = true ∧ isXDigit b = true ∧ isXDigit c = true ∧
      isXDigit d = true ∧ (hexValue a).toNat = n / 4096 ∧ (hexValue b).toNat = n / 256 % 16 ∧
      (hexValue c).toNat = n / 16 % 16 ∧ (hexValue d).toNat = n % 16 := by
  have h3 := hexDigit_spec (n / 16 ^ 3 % 16) (Nat.mod_lt _ (by decide))
  have h2 := hexDigit_spec (n / 16 ^ 2 % 16) (Nat.mod_lt _ (by decide))
  have h1 := hexDigit_spec (n / 16 ^ 1 % 16) (Nat.mod_lt _ (by decide))
  have h0 := hexDigit_spec (n / 16 ^ 0 % 16) (Nat.mod_lt _ (by decide))
  refine ⟨_, _, _, _, rfl, h3.1, h2.1, h1.1, h0.1, ?_, ?_, ?_, ?_⟩
  · rw [h3.2]
    omega
  · rw [h2.2]
    norm_num
  · rw [h1.2]
    norm_num
  · rw [h0.2]
    norm_num

theorem wholeUnits_hex4 {n : Nat} (h : n < 65536) : wholeUnits (hex4 n) = [n] := by
  obtain ⟨a, b, c, d, heq, ha, hb, hc, hd, va, vb, vc, vd⟩ := hex4_spec h
  rw [heq, wholeUnits, strtoul16_four ha hb hc hd, va, vb, vc, vd, wholeUnits]
  · congr 1
    omega
  · simp

/-- All digits. -/
def Digital (h : Bytes) : Prop := ∀ c ∈ h, isXDigit c = true

/-- The code points when a high surrogate is joined with whatever follows. -/
def decodeAny : List Nat → List Nat
  | u :: l :: rest => if isHigh u then combined u l :: decodeAny rest else u ::
      decodeAny (l :: rest)
  | [u] => [u]
  | [] => []

/-- Every high surrogate is followed by a low one, if anything follows. -/
def paired : List Nat → Bool
  | u :: l :: rest => if isHigh u then isLow l && paired rest else paired (l :: rest)
  | _ => true

theorem Digital.tail {c : UInt8} {h : Bytes} (hd : Digital (c :: h)) : Digital h :=
  fun x hx => hd x (List.mem_cons_of_mem _ hx)

theorem Digital.head {c : UInt8} {h : Bytes} (hd : Digital (c :: h)) : isXDigit c = true :=
  hd c List.mem_cons_self

/-- Reading bytes is reading units. -/
theorem utf16beToUtf8_eq {h : Bytes} (hd : Digital h) :
    utf16beToUtf8 h = (decodeAny (wholeUnits h)).flatMap utf8Of := by
  have hunit : ∀ {a b c d : UInt8}, isXDigit a = true → isXDigit b = true → isXDigit c = true →
      isXDigit d = true → 256 * strtoul16 [a, b] + strtoul16 [c, d] = strtoul16 [a, b, c, d] := by
    intro a b c d ha hb hc hd
    rw [strtoul16_two ha hb, strtoul16_two hc hd, strtoul16_four ha hb hc hd]
    omega
  unfold utf16beToUtf8
  induction hlen : h.length using Nat.strong_induction_on generalizing h with
  | h n ih =>
      match h, hd with
      | [], _ => rfl
      | [_], _ => rfl
      | [_, _], _ => rfl
      | [_, _, _], _ => rfl
      | a :: b :: c :: d :: [], hd =>
          simp only [bytesOf, decodeBytes, wholeUnits, decodeAny, List.flatMap_cons,
            List.flatMap_nil]
          rw [hunit hd.head hd.tail.head hd.tail.tail.head hd.tail.tail.tail.head]
      | a :: b :: c :: d :: [e], hd =>
          simp only [bytesOf, decodeBytes, wholeUnits, decodeAny, List.flatMap_cons,
            List.flatMap_nil]
          rw [hunit hd.head hd.tail.head hd.tail.tail.head hd.tail.tail.tail.head]
      | a :: b :: c :: d :: [e, f], hd =>
          simp only [bytesOf, decodeBytes, wholeUnits, decodeAny, List.flatMap_cons,
            List.flatMap_nil]
          rw [hunit hd.head hd.tail.head hd.tail.tail.head hd.tail.tail.tail.head]
      | a :: b :: c :: d :: [e, f, g], hd =>
          simp only [bytesOf, decodeBytes, wholeUnits, decodeAny, List.flatMap_cons,
            List.flatMap_nil]
          rw [hunit hd.head hd.tail.head hd.tail.tail.head hd.tail.tail.tail.head]
      | a :: b :: c :: d :: e :: f :: g :: i :: rest, hd =>
          have hfirst := hunit hd.head hd.tail.head hd.tail.tail.head hd.tail.tail.tail.head
          have hrest : Digital (e :: f :: g :: i :: rest) := hd.tail.tail.tail.tail
          have hnext := hunit hrest.head hrest.tail.head hrest.tail.tail.head
            hrest.tail.tail.tail.head
          simp only [List.length_cons] at hlen
          simp only [bytesOf, decodeBytes, wholeUnits, decodeAny, hfirst, hnext]
          split
          · rw [List.flatMap_cons, ih _ (by omega) hrest.tail.tail.tail.tail rfl]
          · have hih := ih (e :: f :: g :: i :: rest).length
                (by simp only [List.length_cons]; omega)
              hrest rfl
            simp only [bytesOf, wholeUnits] at hih
            rw [List.flatMap_cons, hih]

theorem decodeAny_of_paired {us : List Nat} (h : paired us = true) :
    decodeAny us = decodePaired us := by
  fun_induction paired us with
  | case1 u l rest hhigh ih =>
      rw [Bool.and_eq_true] at h
      rw [decodeAny, decodePaired, if_pos hhigh, hhigh, h.1, Bool.true_and, if_pos rfl, ih h.2]
  | case2 u l rest hhigh ih =>
      have hnot : isHigh u = false := by simpa using hhigh
      rw [decodeAny, decodePaired, if_neg hhigh, hnot, Bool.false_and, if_neg (by decide), ih h]
  | case3 us hshort =>
      match us, hshort with
      | [], _ => rfl
      | [u], _ => rfl
      | u :: l :: rest, hshort => exact absurd rfl (hshort u l rest)

/-- A destination of whole units with paired surrogates is read alike. -/
theorem utf16_alike {h : Bytes} (hd : Digital h) (htwo : h.length ≠ 2)
    (hpaired : paired (units h) = true) : utf16beToUtf8 h = (utf16Hex h).flatMap utf8Of := by
  have hunits : units h = wholeUnits h := by
    rw [units, if_neg htwo, List.append_nil]
  rw [hunits] at hpaired
  rw [utf16beToUtf8_eq hd, decodeAny_of_paired hpaired, utf16Hex, hunits]

theorem addLast_append (init : List Nat) (x k : Nat) :
    addLast (init ++ [x]) k = init ++ [x + k] := by
  rw [addLast, List.dropLast_concat, List.getLast?_concat]
  rfl

theorem addLast_cons (u : Nat) {us : List Nat} (hne : us ≠ []) (k : Nat) :
    addLast (u :: us) k = u :: addLast us k := by
  rw [addLast, addLast, List.dropLast_cons_of_ne_nil hne, List.getLast?_cons_of_ne_nil hne]
  rfl

theorem addLast_zero (us : List Nat) : addLast us 0 = us := by
  induction us using List.reverseRecOn with
  | nil => rfl
  | append_singleton init x _ => rw [addLast_append, Nat.add_zero]

theorem decodePaired_ne_nil {us : List Nat} (h : us ≠ []) : decodePaired us ≠ [] := by
  fun_cases decodePaired us with
  | case1 u l rest hpair => exact List.cons_ne_nil _ _
  | case2 u l rest hpair => exact List.cons_ne_nil _ _
  | case3 u => exact List.cons_ne_nil _ _
  | case4 => exact absurd rfl h

/-- Counting up the last unit counts up the last code point. -/
theorem decodeAny_addLast {us : List Nat} (h : paired us = true) (k : Nat) :
    decodeAny (addLast us k) = addLast (decodePaired us) k := by
  fun_induction paired us with
  | case1 u l rest hhigh ih =>
      rw [Bool.and_eq_true] at h
      have hlow : isHigh u && isLow l := by
        rw [hhigh, h.1]
        rfl
      rw [decodePaired, if_pos hlow]
      cases rest with
      | nil =>
          have hadd : addLast [u, l] k = [u, l + k] := rfl
          have hplus : combined u (l + k) = combined u l + k := by
            unfold combined
            omega
          rw [hadd, decodeAny, if_pos hhigh, hplus]
          rfl
      | cons x xs =>
          rw [addLast_cons u (List.cons_ne_nil _ _), addLast_cons l (List.cons_ne_nil _ _),
            decodeAny, if_pos hhigh, ih h.2,
            addLast_cons _ (decodePaired_ne_nil (List.cons_ne_nil x xs))]
  | case2 u l rest hhigh ih =>
      have hnot : ¬ (isHigh u && isLow l) := by
        rw [Bool.and_eq_true]
        exact fun hboth => hhigh hboth.1
      have hrec := ih h
      rw [decodePaired, if_neg hnot,
        addLast_cons _ (decodePaired_ne_nil (List.cons_ne_nil l rest)), ← hrec,
        addLast_cons u (List.cons_ne_nil _ _)]
      -- what follows the first unit is not empty
      obtain ⟨y, ys, hy⟩ : ∃ y ys, addLast (l :: rest) k = y :: ys := by
        cases rest with
        | nil => exact ⟨l + k, [], rfl⟩
        | cons x xs => exact ⟨l, addLast (x :: xs) k, addLast_cons l (List.cons_ne_nil _ _) k⟩
      rw [hy, decodeAny, if_neg hhigh]
  | case3 us hshort =>
      match us, hshort with
      | [], _ => rfl
      | [u], _ => rfl
      | u :: l :: rest, hshort => exact absurd rfl (hshort u l rest)

/-- The units of two texts, the first of whole units, one after the other. -/
theorem wholeUnits_append {pre : Bytes} (hpre : 4 ∣ pre.length) (s : Bytes) :
    wholeUnits (pre ++ s) = wholeUnits pre ++ wholeUnits s := by
  fun_induction wholeUnits pre with
  | case1 a b c d rest ih =>
      have hrest : 4 ∣ rest.length := by
        simp only [List.length_cons] at hpre
        omega
      simp only [List.cons_append, wholeUnits, ih hrest]
  | case2 pre hshort =>
      have hnil : pre = [] := by
        match pre, hshort with
        | [], _ => rfl
        | [_], _ => simp at hpre
        | [_, _], _ => simp at hpre
        | [_, _, _], _ => simp at hpre
        | a :: b :: c :: d :: rest, hshort => exact absurd rfl (hshort a b c d rest)
      rw [hnil]
      rfl

/-- Units depend on the values of the digits only. -/
theorem wholeUnits_congr {s s' : Bytes} (hs : Digital s) (hs' : Digital s')
    (h : s.map hexValue = s'.map hexValue) : wholeUnits s = wholeUnits s' := by
  fun_induction wholeUnits s generalizing s' with
  | case1 a b c d rest ih =>
      match s', hs', h with
      | a' :: b' :: c' :: d' :: rest', hs', h =>
          simp only [List.map_cons, List.cons.injEq] at h
          obtain ⟨ha, hb, hc, hd, hrest⟩ := h
          rw [wholeUnits, ih hs.tail.tail.tail.tail hs'.tail.tail.tail.tail hrest,
            strtoul16_four hs.head hs.tail.head hs.tail.tail.head hs.tail.tail.tail.head,
            strtoul16_four hs'.head hs'.tail.head hs'.tail.tail.head hs'.tail.tail.tail.head,
            ha, hb, hc, hd]
      | [], _, h => cases h
      | [_], _, h => simp at h
      | [_, _], _, h => simp at h
      | [_, _, _], _, h => simp at h
  | case2 s hshort =>
      have hlen : s'.length = s.length := by
        have := congrArg List.length h
        simpa using this.symm
      match s, s', hshort, hlen with
      | [], [], _, _ => rfl
      | [_], [_], _, _ => rfl
      | [_, _], [_, _], _, _ => rfl
      | [_, _, _], [_, _, _], _, _ => rfl
      | a :: b :: c :: d :: rest, _, hshort, _ => exact absurd rfl (hshort a b c d rest)

/-- A destination that a range of `n + 1` codes can count up. -/
structure Shiftable (d : Bytes) (n : Nat) : Prop where
  whole : d.length = 2 ∨ (4 ≤ d.length ∧ (4 ∣ d.length ∨ n = 0))
  paired : paired (units d) = true
  fits : ∀ u ∈ (units d).getLast?, u + n ≤ 0xFFFF

theorem hex4_digital {n : Nat} (h : n < 65536) : Digital (hex4 n) := by
  obtain ⟨a, b, c, d, heq, ha, hb, hc, hd, -⟩ := hex4_spec h
  rw [heq]
  intro x hx
  simp only [List.mem_cons, List.not_mem_nil, or_false] at hx
  obtain rfl | rfl | rfl | rfl := hx
  · exact ha
  · exact hb
  · exact hc
  · exact hd

theorem digital_shifted {d : Bytes} (hd : Digital d) (k : Nat) : Digital (shifted d k) := by
  intro c hc
  obtain hpre | hlast := List.mem_append.mp hc
  · exact hd c (List.mem_of_mem_take hpre)
  · exact hex4_digital (Nat.mod_lt _ (by decide)) c hlast

/-- The last four digits of a destination. -/
theorem last_four {d : Bytes} (h : 4 ≤ d.length) :
    ∃ a b c e, d.drop (d.length - 4) = [a, b, c, e] := by
  have hlen : (d.drop (d.length - 4)).length = 4 := by
    rw [List.length_drop]
    omega
  match hdrop : d.drop (d.length - 4), hlen with
  | [a, b, c, e], _ => exact ⟨a, b, c, e, rfl⟩

/-- To shift the text is to add to its last unit. -/
theorem wholeUnits_shifted {d : Bytes} {n k : Nat} (hd : Digital d) (hs : Shiftable d n)
    (hk : k ≤ n) : wholeUnits (shifted d k) = addLast (units d) k := by
  obtain htwo | ⟨hfour, hwhole⟩ := hs.whole
  · have hunits : units d = [strtoul16 d] := by
      match d, htwo with
      | [a, b], _ => rfl
    have hfits : strtoul16 d + n ≤ 0xFFFF := hs.fits _ (by rw [hunits]; rfl)
    have hshort : d.length - 4 = 0 := by omega
    have hmod : (strtoul16 d + k) % 65536 = strtoul16 d + k := Nat.mod_eq_of_lt (by omega)
    rw [shifted, hshort, List.take_zero, List.drop_zero, List.nil_append, hmod,
      wholeUnits_hex4 (by omega), hunits]
    rfl
  · obtain ⟨a, b, c, e, hlast⟩ := last_four hfour
    have hsplit : d.take (d.length - 4) ++ [a, b, c, e] = d := by
      rw [← hlast]
      exact List.take_append_drop _ _
    have hunits : units d = wholeUnits d := by
      rw [units, if_neg (by omega), List.append_nil]
    have hdl : Digital [a, b, c, e] := by
      intro x hx
      apply hd x
      rw [← hsplit]
      exact List.mem_append_right _ hx
    obtain hdiv | hzero := hwhole
    · have hpre : 4 ∣ (d.take (d.length - 4)).length := by
        rw [List.length_take]
        omega
      have hall : units d = wholeUnits (d.take (d.length - 4)) ++ [strtoul16 [a, b, c, e]] := by
        rw [hunits]
        nth_rewrite 1 [← hsplit]
        rw [wholeUnits_append hpre]
        rfl
      have hfits : strtoul16 [a, b, c, e] + n ≤ 0xFFFF :=
        hs.fits _ (by rw [hall, List.getLast?_concat]; rfl)
      have hmod : (strtoul16 [a, b, c, e] + k) % 65536 = strtoul16 [a, b, c, e] + k :=
        Nat.mod_eq_of_lt (by omega)
      rw [shifted, hlast, hmod, wholeUnits_append hpre, wholeUnits_hex4 (by omega), hall,
        addLast_append]
    · -- the digits are written again as they are
      have hk0 : k = 0 := by omega
      have hval := strtoul16_four hdl.head hdl.tail.head hdl.tail.tail.head hdl.tail.tail.tail.head
      have ha := hexValue_lt hdl.head
      have hb := hexValue_lt hdl.tail.head
      have hc := hexValue_lt hdl.tail.tail.head
      have he := hexValue_lt hdl.tail.tail.tail.head
      have hsmall : strtoul16 [a, b, c, e] < 65536 := by omega
      obtain ⟨a', b', c', e', heq, -, -, -, -, va, vb, vc, ve⟩ := hex4_spec hsmall
      have hsame : (hex4 (strtoul16 [a, b, c, e])).map hexValue = [a, b, c, e].map hexValue := by
        rw [heq]
        simp only [List.map_cons, List.map_nil, List.cons.injEq, and_true]
        refine ⟨UInt8.toNat_inj.mp ?_, UInt8.toNat_inj.mp ?_, UInt8.toNat_inj.mp ?_,
          UInt8.toNat_inj.mp ?_⟩
        · omega
        · omega
        · omega
        · omega
      have hmod : (strtoul16 [a, b, c, e] + 0) % 65536 = strtoul16 [a, b, c, e] :=
        Nat.mod_eq_of_lt (by omega)
      rw [hk0, addLast_zero, hunits]
      refine wholeUnits_congr (digital_shifted hd 0) hd ?_
      nth_rewrite 2 [← hsplit]
      rw [shifted, hlast, hmod, List.map_append, hsame, List.map_append]

/-- A destination of a range is read alike for all codes. -/
theorem shifted_alike {d : Bytes} {n k : Nat} (hd : Digital d) (hs : Shiftable d n) (hk : k ≤ n) :
    utf16beToUtf8 (shifted d k) = (addLast (utf16Hex d) k).flatMap utf8Of := by
  rw [utf16beToUtf8_eq (digital_shifted hd k), wholeUnits_shifted hd hs hk,
    decodeAny_addLast hs.paired, utf16Hex]

theorem ne_bracket_of_digital {h : Bytes} (hd : Digital h) : h ≠ [0x5B] := by
  rintro rfl
  exact absurd (hd 0x5B List.mem_cons_self) (by decide)

theorem digital_snoc {h : Bytes} (hd : Digital h) (c : UInt8) :
    Digital (if isXDigit c then h ++ [c] else h) := by
  split
  · rename_i hc
    intro x hx
    obtain hx | hx := List.mem_append.mp hx
    · exact hd x hx
    · rw [List.mem_singleton.mp hx]
      exact hc
  · exact hd

/-- Without brackets the other strings are seen. -/
theorem hexesFrom_false {open' : Option Bytes} (hopen : ∀ h ∈ open', Digital h) (w : Bytes) :
    hexesFrom false open' w = (hexesFrom true open' w).filter fun p => p.1 ≠ [0x5B] := by
  have hnone : ∀ h ∈ (none : Option Bytes), Digital h := fun h hh => by cases hh
  induction w generalizing open' with
  | nil =>
      cases open' with
      | none => rfl
      | some h => rfl
  | cons c w ih =>
      cases open' with
      | none =>
          simp only [hexesFrom, Bool.false_eq_true, false_and, if_false, true_and]
          split
          · apply ih
            intro h hh
            cases hh
            exact fun x hx => by cases hx
          · split
            · rw [ih hnone, List.filter_cons_of_neg (by simp)]
            · exact ih hnone
      | some h =>
          have hd := hopen h rfl
          simp only [hexesFrom]
          split
          · rw [ih hnone, List.filter_cons_of_pos (by simpa using ne_bracket_of_digital hd)]
          · apply ih
            intro h' hh
            cases hh
            exact digital_snoc hd c

theorem hexes_false (w : Bytes) :
    hexes false w = (hexes true w).filter fun p => p.1 ≠ [0x5B] :=
  hexesFrom_false (fun h hh => by cases hh) w

/-- The strings of a section are brackets and hex digits. -/
theorem digital_of_mem {open' : Option Bytes} (hopen : ∀ h ∈ open', Digital h) {w : Bytes}
    {p : Bytes × Bytes} (hp : p ∈ hexesFrom true open' w) : p.1 = [0x5B] ∨ Digital p.1 := by
  have hnone : ∀ h ∈ (none : Option Bytes), Digital h := fun h hh => by cases hh
  induction w generalizing open' with
  | nil =>
      cases open' with
      | none => cases hp
      | some h => cases hp
  | cons c w ih =>
      cases open' with
      | none =>
          simp only [hexesFrom, true_and] at hp
          split at hp
          · refine ih ?_ hp
            intro h hh
            cases hh
            exact fun x hx => by cases hx
          · split at hp
            · obtain rfl | hp := List.mem_cons.mp hp
              · exact .inl rfl
              · exact ih hnone hp
            · exact ih hnone hp
      | some h =>
          have hd := hopen h rfl
          simp only [hexesFrom] at hp
          split at hp
          · obtain rfl | hp := List.mem_cons.mp hp
            · exact .inr hd
            · exact ih hnone hp
          · refine ih ?_ hp
            intro h' hh
            cases hh
            exact digital_snoc hd c

theorem digital_of_mem_hexes {w : Bytes} {p : Bytes × Bytes} (hp : p ∈ hexes true w)
    (hne : p.1 ≠ [0x5B]) : Digital p.1 :=
  (digital_of_mem (fun h hh => by cases hh) hp).resolve_left hne

/-- The strings behind the first one are those of the text behind it. -/
theorem hexesFrom_cons {brackets : Bool} {open' : Option Bytes} {w x rest : Bytes}
    {more : List (Bytes × Bytes)} (h : hexesFrom brackets open' w = (x, rest) :: more) :
    more = hexes brackets rest ∧ rest.length < w.length := by
  induction w generalizing open' with
  | nil =>
      cases open' with
      | none => cases h
      | some h' => cases h
  | cons c w ih =>
      cases open' with
      | none =>
          simp only [hexesFrom] at h
          split at h
          · have hrec := ih h
            exact ⟨hrec.1, Nat.lt_succ_of_lt hrec.2⟩
          · split at h
            · cases h
              exact ⟨rfl, Nat.lt_succ_self _⟩
            · have hrec := ih h
              exact ⟨hrec.1, Nat.lt_succ_of_lt hrec.2⟩
      | some h' =>
          simp only [hexesFrom] at h
          split at h
          · cases h
            exact ⟨rfl, Nat.lt_succ_self _⟩
          · have hrec := ih h
            exact ⟨hrec.1, Nat.lt_succ_of_lt hrec.2⟩

theorem hexes_dropWhile (brackets : Bool) (w : Bytes) :
    hexes brackets (w.dropWhile isSpace) = hexes brackets w := by
  induction w with
  | nil => rfl
  | cons c w ih =>
      rw [List.dropWhile_cons]
      split
      · rename_i hspace
        have hopen : c ≠ 0x3C := by
          rintro rfl
          exact absurd hspace (by decide)
        have hbracket : ¬ (brackets = true ∧ c = 0x5B) := by
          rintro ⟨-, rfl⟩
          exact absurd hspace (by decide)
        rw [ih, hexes, hexes, hexesFrom, if_neg hopen, if_neg hbracket]
      · rfl

/-- Every string of a text is closed in it; the first argument tells whether one is open. -/
def closed : Bool → Bytes → Bool
  | inside, [] => !inside
  | false, c :: rest => closed (c == 0x3C) rest
  | true, c :: rest => closed (c != 0x3E) rest

/-- The strings behind a closed text are read on their own. -/
theorem hexesFrom_append {brackets : Bool} {open' : Option Bytes} {w : Bytes}
    (h : closed open'.isSome w = true) (s : Bytes) :
    (hexesFrom brackets open' (w ++ s)).map Prod.fst =
      (hexesFrom brackets open' w).map Prod.fst ++ (hexes brackets s).map Prod.fst := by
  induction w generalizing open' with
  | nil =>
      cases open' with
      | none => rfl
      | some h' => cases h
  | cons c w ih =>
      cases open' with
      | none =>
          simp only [List.cons_append, hexesFrom]
          split
          · rename_i hc
            apply ih
            simpa [closed, hc] using h
          · rename_i hc
            have hother : (c == 0x3C) = false := beq_eq_false_iff_ne.mpr hc
            have hrest : closed (none : Option Bytes).isSome w = true := by
              simpa [closed, hother] using h
            split
            · rw [List.map_cons, List.map_cons, ih hrest, List.cons_append]
            · exact ih hrest
      | some h' =>
          simp only [List.cons_append, hexesFrom]
          split
          · rename_i hc
            have hrest : closed (none : Option Bytes).isSome w = true := by
              simpa [closed, hc] using h
            rw [List.map_cons, List.map_cons, ih hrest, List.cons_append]
          · rename_i hc
            have hother : (c != 0x3E) = true := bne_iff_ne.mpr hc
            apply ih
            simpa [closed, hother] using h

theorem hexes_append {brackets : Bool} {w : Bytes} (h : closed false w = true) (s : Bytes) :
    (hexes brackets (w ++ s)).map Prod.fst =
      (hexes brackets w).map Prod.fst ++ (hexes brackets s).map Prod.fst := by
  apply hexesFrom_append
  exact h

/-- The text of an entry in UTF-8. -/
def inUtf8 (e : Nat × List Nat) : Nat × Bytes := (e.1, e.2.flatMap utf8Of)

/-- A string that both readers decode alike. -/
structure Decoded (d : Bytes) : Prop where
  string : d ≠ [0x5B]
  whole : d.length ≠ 2
  paired : paired (units d) = true

instance (d : Bytes) : Decidable (Decoded d) :=
  decidable_of_iff (d ≠ [0x5B] ∧ d.length ≠ 2 ∧ paired (units d) = true)
    ⟨fun h => ⟨h.1, h.2.1, h.2.2⟩, fun h => ⟨h.string, h.whole, h.paired⟩⟩

/-- No bracket stands in an entry, and destinations are decoded alike. -/
def RegularChars (w : Bytes) : Prop :=
  ∀ p ∈ pairs ((hexes true w).map Prod.fst), p.1 ≠ [0x5B] ∧ Decoded p.2

/-- Strings that are no entry of a range. -/
inductive Idle : List Bytes → Prop
  | few {strings : List Bytes} (h : strings.length ≤ 2) : Idle strings
  | bad {a b d : Bytes} {more : List Bytes} (h : badRange (codeOf a) (codeOf b) = true) :
      Idle (a :: b :: d :: more)

/-- Two codes directly followed by an array. -/
structure ArrayAt (w a b inner after : Bytes) : Prop where
  strings : ∃ r₁ r₂ more,
    hexes true w = (a, r₁) :: (b, r₂) :: ([0x5B], inner ++ 0x5D :: after) :: more ∧
      r₂.dropWhile isSpace = 0x5B :: (inner ++ 0x5D :: after)
  first : a ≠ [0x5B]
  last : b ≠ [0x5B]
  good : badRange (codeOf a) (codeOf b) = false
  inside : 0x5D ∉ inner
  closed : closed false inner = true

/-- The entries of a section of ranges: strings that are no whole entry, a range that both readers
leave the section at, a range with a destination, or one with an array. An array that is shorter
than its range is the last entry, and so is one that is longer and leaves no entry. -/
inductive Ranges : Bytes → List (Nat × List Nat) → Prop
  | rest {w : Bytes} (hshort : (hexes true w).length ≤ 2) : Ranges w []
  | bad {w a b r₁ r₂ : Bytes} {p : Bytes × Bytes} {more : List (Bytes × Bytes)}
      (hw : hexes true w = (a, r₁) :: (b, r₂) :: p :: more) (ha : a ≠ [0x5B]) (hb : b ≠ [0x5B])
      (hbad : badRange (codeOf a) (codeOf b) = true) : Ranges w []
  | single {w a b d r₁ r₂ r₃ : Bytes} {more : List (Bytes × Bytes)} {n : Nat}
      {es : List (Nat × List Nat)}
      (hw : hexes true w = (a, r₁) :: (b, r₂) :: (d, r₃) :: more) (ha : a ≠ [0x5B])
      (hb : b ≠ [0x5B]) (hd : d ≠ [0x5B]) (hgood : badRange (codeOf a) (codeOf b) = false)
      (hspan : span (codeOf a) (codeOf b) = some (n + 1)) (hshift : Shiftable d n)
      (hrest : Ranges r₃ es) :
      Ranges w (numbered (codeOf a) ((List.range (n + 1)).map (addLast (utf16Hex d))) ++ es)
  | array {w a b inner after : Bytes} {es : List (Nat × List Nat)} (h : ArrayAt w a b inner after)
      (hsize : span (codeOf a) (codeOf b) = some (hexes true inner).length)
      (hitems : ∀ p ∈ hexes true inner, Decoded p.1) (hrest : Ranges after es) :
      Ranges w (numbered (codeOf a) ((hexes true inner).map fun p => utf16Hex p.1) ++ es)
  | short {w a b inner after : Bytes} (h : ArrayAt w a b inner after)
      (hsize : ∀ n ∈ span (codeOf a) (codeOf b), (hexes true inner).length ≤ n)
      (hitems : ∀ p ∈ hexes true inner, Decoded p.1) (hend : hexes true after = []) :
      Ranges w (numbered (codeOf a) ((hexes true inner).map fun p => utf16Hex p.1))
  | long {w a b inner after : Bytes} {n : Nat} (h : ArrayAt w a b inner after)
      (hsize : span (codeOf a) (codeOf b) = some n) (hlong : n < (hexes true inner).length)
      (hitems : ∀ p ∈ (hexes true inner).take n, Decoded p.1)
      (hidle : Idle (((hexes true inner).drop n ++ hexes true after).map Prod.fst))
      (hrest : Ranges after []) :
      Ranges w (numbered (codeOf a) (((hexes true inner).take n).map fun p => utf16Hex p.1))

/-- Before each section with an entry fewer than 70000 codes have a text. -/
def Small (sections : List (List (Nat × List Nat))) : Prop :=
  ∀ pre es post, sections = pre ++ es :: post → es ≠ [] →
    (pre.flatten.map Prod.fst).dedup.length < 70000

/-- A stream that both readers take to have the same entries. -/
def Regular (t : Bytes) : Prop :=
  (∀ w ∈ charSections t, RegularChars w) ∧
  ∃ ess, List.Forall₂ Ranges (rangeSections t) ess ∧
    Small ((charSections t).map profileChars ++ ess)

theorem numbered_map {β γ : Type} (f : β → γ) (lo : Nat) (vs : List β) :
    numbered lo (vs.map f) = (numbered lo vs).map fun e => (e.1, f e.2) := by
  rw [numbered, numbered, List.zipIdx_map, List.map_map, List.map_map]
  rfl

theorem filter_of_flat {l : List (Bytes × Bytes)} (h : ∀ p ∈ l, p.1 ≠ [0x5B]) :
    l.filter (fun p => p.1 ≠ [0x5B]) = l :=
  List.filter_eq_self.mpr fun p hp => by simpa using h p hp

theorem mem_of_mem_pairs {l : List Bytes} {p : Bytes × Bytes} (h : p ∈ pairs l) : p.2 ∈ l := by
  fun_induction pairs l with
  | case1 a b rest ih =>
      obtain rfl | hrest := List.mem_cons.mp h
      · exact List.mem_cons_of_mem _ List.mem_cons_self
      · exact List.mem_cons_of_mem _ (List.mem_cons_of_mem _ (ih hrest))
  | case2 l hshort => cases h

/-- A bracket behind the last pair does not change the pairs. -/
theorem pairs_filter {l : List Bytes} (h : ∀ p ∈ pairs l, p.1 ≠ [0x5B] ∧ p.2 ≠ [0x5B]) :
    pairs (l.filter fun x => x ≠ [0x5B]) = pairs l := by
  fun_induction pairs l with
  | case1 a b rest ih =>
      obtain ⟨⟨ha, hb⟩, hrest⟩ := List.forall_mem_cons.mp h
      rw [List.filter_cons_of_pos (by simpa using ha), List.filter_cons_of_pos (by simpa using hb),
        pairs, ih hrest]
  | case2 l hshort =>
      match l, hshort with
      | [], _ => rfl
      | [a], _ =>
          rw [List.filter_cons, List.filter_nil]
          split
          · rfl
          · rfl
      | a :: b :: rest, hshort => exact absurd rfl (hshort a b rest)

/-- Both readers see the same characters of a regular section. -/
theorem charEntries_eq {w : Bytes} (h : RegularChars w) :
    charEntries w = (profileChars w).map inUtf8 := by
  have hstrings : (hexes false w).map Prod.fst =
      ((hexes true w).map Prod.fst).filter fun x => x ≠ [0x5B] := by
    rw [hexes_false, List.filter_map]
    rfl
  rw [charEntries, profileChars, hstrings, pairs_filter fun p hp => ⟨(h p hp).1, (h p hp).2.string⟩,
    List.map_map]
  apply List.map_congr_left
  intro p hp
  obtain ⟨-, hdecoded⟩ := h p hp
  obtain ⟨q, hq, hfst⟩ := List.mem_map.mp (mem_of_mem_pairs hp)
  have hd : Digital p.2 := by
    rw [← hfst]
    refine digital_of_mem_hexes hq fun hbracket => hdecoded.string ?_
    rw [← hfst, hbracket]
  rw [Function.comp, inUtf8, utf16_alike hd hdecoded.whole hdecoded.paired]

theorem inUtf8_numbered (lo : Nat) (vs : List (List Nat)) :
    (numbered lo vs).map inUtf8 = numbered lo (vs.map fun s => s.flatMap utf8Of) := by
  rw [numbered_map]
  rfl

theorem wholeUnits_ne_nil {d : Bytes} (h : 4 ≤ d.length) : wholeUnits d ≠ [] := by
  match d, h with
  | a :: b :: c :: e :: rest, _ => exact List.cons_ne_nil _ _

theorem units_ne_nil {d : Bytes} {n : Nat}
    (h : d.length = 2 ∨ (4 ≤ d.length ∧ (4 ∣ d.length ∨ n = 0))) : units d ≠ [] := by
  rw [units]
  obtain htwo | ⟨hfour, -⟩ := h
  · rw [if_pos htwo]
    exact List.append_ne_nil_of_right_ne_nil _ (List.cons_ne_nil _ _)
  · exact List.append_ne_nil_of_left_ne_nil (wholeUnits_ne_nil hfour) _

/-- The first strings of a section of which none is a bracket, as the other reader sees them. -/
theorem hexes_false_cons {w x r : Bytes} {more : List (Bytes × Bytes)}
    (h : hexes true w = (x, r) :: more) (hx : x ≠ [0x5B]) :
    hexes false w = (x, r) :: hexes false r := by
  rw [hexes_false, h, List.filter_cons_of_pos (by simpa using hx), (hexesFrom_cons h).1,
    ← hexes_false]

/-- Where at most two strings are seen, there is no entry. -/
theorem rangeEntries_rest {w : Bytes} (h : (hexes true w).length ≤ 2) (fuel : Nat) :
    rangeEntries (fuel + 1) w = some [] := by
  rw [rangeEntries]
  match hw : hexes true w, h with
  | [], _ => rw [hexes_false, hw]; rfl
  | [(x, r)], _ =>
      have hlen : (hexes false w).length ≤ 1 := by
        rw [hexes_false, hw]
        exact List.length_filter_le _ _
      match hexes false w, hlen with
      | [], _ => rfl
      | [_], _ => rfl
  | [(a, r₁), (b, r₂)], _ =>
      have htail := (hexesFrom_cons hw).1
      have hend := (hexesFrom_cons htail.symm).1
      by_cases hbracket : a = [0x5B] ∨ b = [0x5B]
      · have hlen : (hexes false w).length ≤ 1 := by
          rw [hexes_false, hw]
          obtain rfl | rfl := hbracket
          · rw [List.filter_cons_of_neg (by simp)]
            exact List.length_filter_le _ _
          · rw [List.filter_cons, List.filter_cons_of_neg (by simp), List.filter_nil]
            split
            · exact le_rfl
            · exact Nat.zero_le 1
        match hexes false w, hlen with
        | [], _ => rfl
        | [_], _ => rfl
      · rw [not_or] at hbracket
        rw [hexes_false_cons hw hbracket.1, hexes_false_cons htail.symm hbracket.2]
        dsimp only
        split
        · rfl
        · have hnone : hexes true (r₂.dropWhile isSpace) = [] := by rw [hexes_dropWhile, ← hend]
          split
          · rename_i r hr
            rw [hr] at hnone
            cases hnone
          · rw [hexes_false, hnone]
            rfl

section Array

variable {w a b inner after : Bytes} (h : ArrayAt w a b inner after)

include h

/-- The one reader goes on behind the closing bracket. -/
theorem rangeEntries_array (fuel : Nat) :
    rangeEntries (fuel + 1) w = (rangeEntries fuel after).map
      (numbered (codeOf a) (((span (codeOf a) (codeOf b)).elim ((hexes false inner).map Prod.fst)
        fun n => ((hexes false inner).map Prod.fst).take n).map utf16beToUtf8) ++ ·) := by
  obtain ⟨r₁, r₂, more, hw, hopen⟩ := h.strings
  have htail := (hexesFrom_cons hw).1
  have hpass : ∀ x ∈ inner, decide (x ≠ 0x5D) = true := fun x hx => by
    simpa using fun heq : x = 0x5D => h.inside (heq ▸ hx)
  have htake : (inner ++ 0x5D :: after).takeWhile (· ≠ 0x5D) = inner := by
    rw [List.takeWhile_append_of_pos hpass]
    simp
  have hdrop : (inner ++ 0x5D :: after).dropWhile (· ≠ 0x5D) = 0x5D :: after := by
    rw [List.dropWhile_append_of_pos hpass]
    simp
  rw [rangeEntries, hexes_false_cons hw h.first, hexes_false_cons htail.symm h.last]
  dsimp only
  rw [if_neg (by rw [h.good]; decide), hopen]
  split
  · rename_i rest hcons
    obtain rfl := (List.cons.inj hcons).2
    rw [if_pos (by simp), htake, hdrop, List.drop_one, List.tail_cons]
  · rename_i hno
    exact absurd rfl (hno _)

/-- The strings behind the opening bracket, as the other reader sees them. -/
theorem strings_array : ∃ more : List (Bytes × Bytes),
    (hexes true w).map Prod.fst = a :: b :: [0x5B] :: more.map Prod.fst ∧
      more.map Prod.fst = (hexes true inner).map Prod.fst ++ (hexes true after).map Prod.fst := by
  obtain ⟨r₁, r₂, more, hw, -⟩ := h.strings
  have htokens : more = hexes true (inner ++ 0x5D :: after) :=
    (hexesFrom_cons (hexesFrom_cons (hexesFrom_cons hw).1.symm).1.symm).1
  refine ⟨more, ?_, ?_⟩
  · rw [hw]
    rfl
  · rw [htokens]
    exact hexes_append h.closed _

theorem length_array : (hexes true inner).length + (hexes true after).length + 3 =
    (hexes true w).length ∧ inner.length + after.length < w.length := by
  obtain ⟨more, hw, hmore⟩ := strings_array h
  obtain ⟨r₁, r₂, more', hw', -⟩ := h.strings
  obtain ⟨htail, hlen₁⟩ := hexesFrom_cons hw'
  obtain ⟨htail₂, hlen₂⟩ := hexesFrom_cons htail.symm
  obtain ⟨-, hlen₃⟩ := hexesFrom_cons htail₂.symm
  have hstrings := congrArg List.length hw
  have hlen := congrArg List.length hmore
  simp only [List.length_map, List.length_cons, List.length_append] at hstrings hlen hlen₃
  omega

end Array

/-- Strings that both readers decode alike. -/
theorem decoded_alike {w : Bytes} {ps : List (Bytes × Bytes)} (hps : ps ⊆ hexes true w)
    (h : ∀ p ∈ ps, Decoded p.1) (lo : Nat) :
    (numbered lo (ps.map fun p => utf16Hex p.1)).map inUtf8 =
      numbered lo ((ps.map Prod.fst).map utf16beToUtf8) := by
  rw [inUtf8_numbered, List.map_map, List.map_map]
  congr 1
  apply List.map_congr_left
  intro p hp
  have hdecoded := h p hp
  exact (utf16_alike (digital_of_mem_hexes (hps hp) hdecoded.string) hdecoded.whole
    hdecoded.paired).symm

/-- The first strings of a text, of which none is a bracket, as both readers see them. -/
theorem take_strings {w : Bytes} {n : Nat} (h : ∀ p ∈ (hexes true w).take n, Decoded p.1) :
    ((hexes false w).map Prod.fst).take n = ((hexes true w).take n).map Prod.fst ∨
      (hexes true w).length < n := by
  rw [or_iff_not_imp_right, Nat.not_lt]
  intro hle
  have hfirst : ((hexes true w).take n).filter (fun p => p.1 ≠ [0x5B]) = (hexes true w).take n :=
    filter_of_flat fun p hp => (h p hp).string
  have hlen : ((hexes true w).take n).length = n := by rw [List.length_take, Nat.min_eq_left hle]
  rw [← List.map_take, hexes_false]
  congr 1
  nth_rewrite 1 [← List.take_append_drop n (hexes true w)]
  rw [List.filter_append, hfirst, List.take_left' hlen]

theorem hexes_false_of_decoded {w : Bytes} (h : ∀ p ∈ hexes true w, Decoded p.1) :
    hexes false w = hexes true w := by
  rw [hexes_false, filter_of_flat fun p hp => (h p hp).string]

/-- The engine's reader sees the ranges of a regular section. -/
theorem rangeEntries_eq {w : Bytes} {es : List (Nat × List Nat)} (h : Ranges w es) {fuel : Nat}
    (hfuel : w.length < fuel) : rangeEntries fuel w = some (es.map inUtf8) := by
  induction h generalizing fuel with
  | @rest w hshort =>
      obtain ⟨fuel, rfl⟩ := Nat.exists_eq_succ_of_ne_zero (Nat.ne_zero_of_lt hfuel)
      exact rangeEntries_rest hshort fuel
  | @bad w a b r₁ r₂ p more hw ha hb hbad =>
      obtain ⟨fuel, rfl⟩ := Nat.exists_eq_succ_of_ne_zero (Nat.ne_zero_of_lt hfuel)
      have htail := (hexesFrom_cons hw).1
      rw [rangeEntries, hexes_false_cons hw ha, hexes_false_cons htail.symm hb]
      dsimp only
      rw [if_pos hbad]
      rfl
  | @single w a b d r₁ r₂ r₃ more n es hw ha hb hd hgood hspan hshift hrest ih =>
      obtain ⟨fuel, rfl⟩ := Nat.exists_eq_succ_of_ne_zero (Nat.ne_zero_of_lt hfuel)
      obtain ⟨htail, hlen₁⟩ := hexesFrom_cons hw
      obtain ⟨htail₂, hlen₂⟩ := hexesFrom_cons htail.symm
      obtain ⟨-, hlen₃⟩ := hexesFrom_cons htail₂.symm
      have hdigital : Digital d := by
        refine digital_of_mem_hexes (p := (d, r₃)) (w := w) ?_ hd
        rw [hw]
        simp
      have hdst : hexes true (r₂.dropWhile isSpace) = (d, r₃) :: more := by
        rw [hexes_dropWhile, ← htail₂]
      rw [rangeEntries, hexes_false_cons hw ha, hexes_false_cons htail.symm hb]
      dsimp only
      rw [if_neg (by rw [hgood]; decide)]
      split
      · rename_i r hr
        rw [hr] at hdst
        cases hdst
        exact absurd rfl hd
      · rw [hexes_false_cons hdst hd]
        dsimp only
        rw [hspan, Option.bind_some, ih (by omega), Option.map_some, List.map_append]
        congr 2
        rw [inUtf8_numbered, List.map_map]
        congr 1
        apply List.map_congr_left
        intro k hk
        have hle : k ≤ n := by
          have := List.mem_range.mp hk
          omega
        rw [shifted_alike hdigital hshift hle]
        rfl
  | @array w a b inner after es h hsize hitems hrest ih =>
      obtain ⟨fuel, rfl⟩ := Nat.exists_eq_succ_of_ne_zero (Nat.ne_zero_of_lt hfuel)
      have hlen := (length_array h).2
      have htake := List.take_length (l := (hexes true inner).map Prod.fst)
      rw [List.length_map] at htake
      rw [rangeEntries_array h, hsize, Option.elim_some, hexes_false_of_decoded hitems, htake,
        ih (by omega), List.map_append, decoded_alike (List.Subset.refl _) hitems]
      rfl
  | @short w a b inner after h hsize hitems hend =>
      obtain ⟨fuel, rfl⟩ := Nat.exists_eq_succ_of_ne_zero (Nat.ne_zero_of_lt hfuel)
      have hlen := (length_array h).2
      obtain ⟨fuel, rfl⟩ : ∃ k, fuel = k + 1 := ⟨fuel - 1, by omega⟩
      have hall : ((span (codeOf a) (codeOf b)).elim ((hexes false inner).map Prod.fst)
          fun n => ((hexes false inner).map Prod.fst).take n) =
            (hexes true inner).map Prod.fst := by
        rw [hexes_false_of_decoded hitems]
        cases hspan : span (codeOf a) (codeOf b) with
        | none => rfl
        | some n =>
            rw [Option.elim_some, List.take_of_length_le]
            rw [List.length_map]
            exact hsize n hspan
      rw [rangeEntries_array h, hall, rangeEntries_rest (by rw [hend]; decide), Option.map_some,
        List.append_nil, decoded_alike (List.Subset.refl _) hitems]
  | @long w a b inner after n h hsize hlong hitems hidle hrest ih =>
      obtain ⟨fuel, rfl⟩ := Nat.exists_eq_succ_of_ne_zero (Nat.ne_zero_of_lt hfuel)
      have hlen := (length_array h).2
      have htake := (take_strings hitems).resolve_right (by omega)
      rw [rangeEntries_array h, hsize, Option.elim_some, htake, ih (by omega),
        decoded_alike (List.take_subset _ _) hitems]
      simp

/-- Strings that are no entry. -/
theorem profileRanges_idle {strings : List Bytes} (h : Idle strings) (fuel : Nat) :
    profileRanges fuel strings = some [] := by
  cases fuel with
  | zero => rfl
  | succ fuel =>
      cases h with
      | few h =>
          match strings, h with
          | [], _ => rfl
          | [_], _ => rfl
          | [_, _], _ => rfl
      | bad h => rw [profileRanges, if_pos h]

/-- The other reader takes strings up to the next opening bracket. -/
theorem profileRanges_array {w a b inner after : Bytes} (h : ArrayAt w a b inner after) {n : Nat}
    (hitems : ∀ p ∈ (hexes true inner).take n, Decoded p.1) (hle : n ≤ (hexes true inner).length)
    (hsize : span (codeOf a) (codeOf b) = some n ∨ (hexes true inner).length = n ∧
      (∀ size ∈ span (codeOf a) (codeOf b), n ≤ size) ∧ hexes true after = []) (fuel : Nat) :
    profileRanges (fuel + 1) ((hexes true w).map Prod.fst) =
      (profileRanges fuel (((hexes true inner).drop n ++ hexes true after).map Prod.fst)).map
        (numbered (codeOf a) (((hexes true inner).take n).map fun p => utf16Hex p.1) ++ ·) := by
  obtain ⟨more, hw, hmore⟩ := strings_array h
  have hall : ∀ x ∈ ((hexes true inner).take n).map Prod.fst, decide (x ≠ [0x5B]) = true := by
    intro x hx
    obtain ⟨p, hp, rfl⟩ := List.mem_map.mp hx
    simpa using (hitems p hp).string
  have hlen : (((hexes true inner).take n).map Prod.fst).length = n := by
    rw [List.length_map, List.length_take, Nat.min_eq_left hle]
  have hsplit : more.map Prod.fst = ((hexes true inner).take n).map Prod.fst ++
      ((hexes true inner).drop n ++ hexes true after).map Prod.fst := by
    rw [hmore, ← List.map_append, ← List.map_append, ← List.append_assoc, List.take_append_drop]
  have hrun : ((span (codeOf a) (codeOf b)).elim ((more.map Prod.fst).takeWhile (· ≠ [0x5B]))
      fun n => ((more.map Prod.fst).takeWhile (· ≠ [0x5B])).take n) =
      ((hexes true inner).take n).map Prod.fst := by
    rw [hsplit, List.takeWhile_append_of_pos hall]
    obtain hsome | ⟨hcount, hbound, hend⟩ := hsize
    · rw [hsome, Option.elim_some, List.take_left' hlen]
    · rw [List.drop_eq_nil_of_le (Nat.le_of_eq hcount), hend, List.append_nil, List.map_nil,
        List.takeWhile_nil, List.append_nil]
      cases hspan : span (codeOf a) (codeOf b) with
      | none => rfl
      | some size =>
          rw [Option.elim_some, List.take_of_length_le]
          rw [hlen]
          exact hbound size hspan
  rw [hw, profileRanges]
  dsimp only
  rw [if_neg (by rw [h.good]; decide), if_pos rfl, hrun, hlen, hsplit, List.drop_left' hlen,
    List.map_map]
  rfl

/-- The profile's reader sees the ranges of a regular section. -/
theorem profileRanges_eq {w : Bytes} {es : List (Nat × List Nat)} (h : Ranges w es) {fuel : Nat}
    (hfuel : (hexes true w).length < fuel) :
    profileRanges fuel ((hexes true w).map Prod.fst) = some es := by
  induction h generalizing fuel with
  | @rest w hshort =>
      exact profileRanges_idle (.few (by rwa [List.length_map])) fuel
  | @bad w a b r₁ r₂ p more hw ha hb hbad =>
      rw [hw]
      exact profileRanges_idle (.bad hbad) fuel
  | @single w a b d r₁ r₂ r₃ more n es hw ha hb hd hgood hspan hshift hrest ih =>
      obtain ⟨fuel, rfl⟩ := Nat.exists_eq_succ_of_ne_zero (Nat.ne_zero_of_lt hfuel)
      have hmore : more = hexes true r₃ :=
        (hexesFrom_cons (hexesFrom_cons (hexesFrom_cons hw).1.symm).1.symm).1
      have hbase : utf16Hex d ≠ [] := decodePaired_ne_nil (units_ne_nil hshift.whole)
      rw [hw] at hfuel ⊢
      simp only [List.length_cons] at hfuel
      simp only [List.map_cons, profileRanges]
      rw [if_neg (by rw [hgood]; decide), if_neg hd, if_neg hbase, hspan, Option.bind_some, hmore,
        ih (by rw [← hmore]; omega)]
      rfl
  | @array w a b inner after es h hsize hitems hrest ih =>
      obtain ⟨fuel, rfl⟩ := Nat.exists_eq_succ_of_ne_zero (Nat.ne_zero_of_lt hfuel)
      have hlen := (length_array h).1
      have hall := List.take_length (l := hexes true inner)
      rw [profileRanges_array h (by rwa [hall]) le_rfl (.inl hsize), hall, List.drop_length,
        List.nil_append, ih (by omega)]
      rfl
  | @short w a b inner after h hsize hitems hend =>
      obtain ⟨fuel, rfl⟩ := Nat.exists_eq_succ_of_ne_zero (Nat.ne_zero_of_lt hfuel)
      have hall := List.take_length (l := hexes true inner)
      rw [profileRanges_array h (by rwa [hall]) le_rfl (.inr ⟨rfl, hsize, hend⟩), hall,
        List.drop_length, hend, List.nil_append, profileRanges_idle (.few (by decide)),
        Option.map_some, List.append_nil]
  | @long w a b inner after n h hsize hlong hitems hidle hrest ih =>
      obtain ⟨fuel, rfl⟩ := Nat.exists_eq_succ_of_ne_zero (Nat.ne_zero_of_lt hfuel)
      rw [profileRanges_array h hitems hlong.le (.inl hsize), profileRanges_idle hidle,
        Option.map_some, List.append_nil]

section Maps

variable {β γ : Type}

theorem lookup_assign {f : β → γ} {m : AList fun _ : Nat => β} {m' : AList fun _ : Nat => γ}
    (h : ∀ c, m'.lookup c = (m.lookup c).map f) (es : List (Nat × β)) (c : Nat) :
    (assign m' (es.map fun e => (e.1, f e.2))).lookup c = ((assign m es).lookup c).map f := by
  induction es generalizing m m' with
  | nil => exact h c
  | cons e es ih =>
      refine ih (fun c => ?_)
      by_cases heq : c = e.1
      · rw [heq, AList.lookup_insert, AList.lookup_insert, Option.map_some]
      · rw [AList.lookup_insert_ne heq, AList.lookup_insert_ne heq]
        exact h c

theorem assign_append (m : AList fun _ : Nat => β) (es es' : List (Nat × β)) :
    assign m (es ++ es') = assign (assign m es) es' := List.foldl_append

/-- The keys are the old ones and the assigned ones. -/
theorem mem_keys_assign (m : AList fun _ : Nat => β) (es : List (Nat × β)) (c : Nat) :
    c ∈ (assign m es).keys ↔ c ∈ m.keys ∨ c ∈ es.map Prod.fst := by
  induction es generalizing m with
  | nil =>
      rw [List.map_nil, List.mem_nil_iff, or_false]
      rfl
  | cons e es ih =>
      have hinsert : c ∈ (m.insert e.1 e.2).keys ↔ c = e.1 ∨ c ∈ m.keys := by
        rw [← AList.mem_keys, AList.mem_insert, AList.mem_keys]
      have hrec := ih (m.insert e.1 e.2)
      rw [hinsert] at hrec
      rw [List.map_cons, List.mem_cons]
      constructor
      · intro hc
        obtain (hnew | hold) | hlater := hrec.mp hc
        · exact .inr (.inl hnew)
        · exact .inl hold
        · exact .inr (.inr hlater)
      · intro hc
        apply hrec.mpr
        obtain hold | hnew | hlater := hc
        · exact .inl (.inr hold)
        · exact .inl (.inl hnew)
        · exact .inr hlater

/-- The size of a map is the number of its codes. -/
theorem length_keys_assign (es : List (Nat × β)) :
    (assign ∅ es).keys.length = (es.map Prod.fst).dedup.length := by
  apply List.Perm.length_eq
  rw [List.perm_ext_iff_of_nodup (AList.keys_nodup _) (List.nodup_dedup _)]
  intro c
  rw [mem_keys_assign, List.mem_dedup]
  exact or_iff_right List.not_mem_nil

/-- There is room for each section that has an entry. -/
def Room (full : Nat → Bool) (done : List (Nat × β)) (ess : List (List (Nat × β))) : Prop :=
  ∀ pre es post, ess = pre ++ es :: post → es ≠ [] →
    full (assign ∅ (done ++ pre.flatten)).keys.length = false

theorem Room.tail {full : Nat → Bool} {done es : List (Nat × β)} {ess : List (List (Nat × β))}
    (h : Room full done (es :: ess)) : Room full (done ++ es) ess := by
  intro pre e post heq hne
  have hlater := h (es :: pre) e post (by rw [heq, List.cons_append]) hne
  rwa [List.flatten_cons, ← List.append_assoc] at hlater

/-- A full map has room for sections without entries only. -/
theorem Room.flatten_eq_nil {full : Nat → Bool} {done : List (Nat × β)}
    {ess : List (List (Nat × β))} (h : Room full done ess)
    (hfull : full (assign ∅ done).keys.length = true) : ess.flatten = [] := by
  induction ess with
  | nil => rfl
  | cons es ess ih =>
      have hnil : es = [] := by
        by_contra hne
        have hroom := h [] es ess rfl hne
        rw [List.flatten_nil, List.append_nil, hfull] at hroom
        cases hroom
      subst hnil
      rw [List.flatten_cons, List.nil_append]
      have htail := h.tail
      rw [List.append_nil] at htail
      exact ih htail

/-- Sections that are read one after the other. -/
theorem readSections_eq (full : Nat → Bool) (read : Bytes → Option (List (Nat × β)))
    {ws : List Bytes} {ess : List (List (Nat × β))}
    (h : List.Forall₂ (fun w es => read w = some es) ws ess) (done : List (Nat × β))
    (hroom : Room full done ess) :
    readSections full read (assign ∅ done) ws = some (assign ∅ (done ++ ess.flatten)) := by
  induction h generalizing done with
  | nil => rw [List.flatten_nil, List.append_nil, readSections]
  | @cons w es ws ess hread hrest ih =>
      rw [readSections]
      split
      · rename_i hfull
        rw [hroom.flatten_eq_nil hfull, List.append_nil]
      · rw [hread, Option.bind_some, ← assign_append, ih (done ++ es) hroom.tail, List.flatten_cons,
          List.append_assoc]

end Maps

/-- Both readers give the entries of a regular stream. -/
theorem maps_of_regular {t : Bytes} (h : Regular t) :
    ∃ es, toUnicodeMap t = some (assign ∅ es) ∧
      parseToUnicode t = some (assign ∅ (es.map inUtf8)) := by
  obtain ⟨hchars, ess, hranges, hsmall⟩ := h
  refine ⟨((charSections t).map profileChars).flatten ++ ess.flatten, ?_, ?_⟩
  · have hroom : ∀ pre es post, (charSections t).map profileChars ++ ess = pre ++ es :: post →
        es ≠ [] → (!decide ((assign ∅ pre.flatten).keys.length < 70000)) = false := by
      intro pre es post heq hne
      rw [length_keys_assign]
      simpa using hsmall pre es post heq hne
    have hsame : List.Forall₂ (fun w es => some (profileChars w) = some es) (charSections t)
        ((charSections t).map profileChars) :=
      List.forall₂_map_right_iff.mpr (List.forall₂_same.mpr fun _ _ => rfl)
    have hread := hranges.imp fun w es hw => profileRanges_eq hw (Nat.lt_succ_self _)
    have hfirst := readSections_eq (fun n => !decide (n < 70000)) _ hsame []
      (fun pre es post heq hne => by
        refine hroom pre es (post ++ ess) ?_ hne
        rw [heq, List.append_assoc, List.cons_append])
    have hsecond := readSections_eq (fun n => !decide (n < 70000)) _ hread
      ((charSections t).map profileChars).flatten
      (fun pre es post heq hne => by
        rw [← List.flatten_append]
        refine hroom _ es post ?_ hne
        rw [heq, List.append_assoc])
    rw [toUnicodeMap]
    rw [show (∅ : AList fun _ : Nat => List Nat) = assign ∅ [] from rfl, hfirst, Option.bind_some,
      List.nil_append]
    exact hsecond
  · have hsame : List.Forall₂ (fun w es => some (charEntries w) = some es) (charSections t)
        ((charSections t).map fun w => (profileChars w).map inUtf8) :=
      List.forall₂_map_right_iff.mpr (List.forall₂_same.mpr fun w hw => by
        rw [charEntries_eq (hchars w hw)])
    have hread : List.Forall₂ (fun w es => rangeEntries (w.length + 1) w = some es)
        (rangeSections t) (ess.map fun es => es.map inUtf8) :=
      List.forall₂_map_right_iff.mpr
        (hranges.imp fun w es hw => rangeEntries_eq hw (Nat.lt_succ_self _))
    have hfirst := readSections_eq (fun _ => false) _ hsame [] (fun _ _ _ _ _ => rfl)
    have hsecond := readSections_eq (fun _ => false) _ hread
      ((charSections t).map fun w => (profileChars w).map inUtf8).flatten (fun _ _ _ _ _ => rfl)
    rw [parseToUnicode, show (∅ : AList fun _ : Nat => Bytes) = assign ∅ [] from rfl, hfirst,
      Option.bind_some, List.nil_append, hsecond, List.map_append, List.map_flatten,
      List.map_flatten, List.map_map]
    rfl

theorem small_of_length {sections : List (List (Nat × List Nat))}
    (h : sections.flatten.length < 70000) : Small sections := by
  rintro pre es post rfl -
  have hdedup := (List.dedup_sublist (pre.flatten.map Prod.fst)).length_le
  rw [List.length_map] at hdedup
  rw [List.flatten_append, List.length_append] at h
  omega

/-- A stream with an entry of each kind. Its last array is shorter than its range. -/
def plainStream : Bytes :=
  lit "1 beginbfchar <01> <0041> endbfchar 3 beginbfrange <02> <03> <D83DDE00>\n" ++
    lit "<04> <05> [<0042> <00430044>] <06> <08> [<0045>] endbfrange"

theorem plainStream_regular : Regular plainStream := by
  have hlast : ArrayAt (lit " <06> <08> [<0045>] ") (lit "06") (lit "08") (lit "<0045>")
      (lit " ") :=
    ⟨⟨lit " <08> [<0045>] ", lit " [<0045>] ", [(lit "0045", lit "] ")], by decide, by decide⟩,
      by decide, by decide, by decide, by decide, by decide⟩
  have hshort := Ranges.short hlast (by decide) (by decide) (by decide)
  have harray : ArrayAt (lit "\n<04> <05> [<0042> <00430044>] <06> <08> [<0045>] ") (lit "04")
      (lit "05") (lit "<0042> <00430044>") (lit " <06> <08> [<0045>] ") :=
    ⟨⟨lit " <05> [<0042> <00430044>] <06> <08> [<0045>] ",
      lit " [<0042> <00430044>] <06> <08> [<0045>] ",
      hexes true (lit "<0042> <00430044>] <06> <08> [<0045>] "), by decide, by decide⟩,
      by decide, by decide, by decide, by decide, by decide⟩
  have hrest := Ranges.array harray (by decide) (by decide) hshort
  have hfirst : hexes true
      (lit " <02> <03> <D83DDE00>\n<04> <05> [<0042> <00430044>] <06> <08> [<0045>] ") =
      (lit "02", lit " <03> <D83DDE00>\n<04> <05> [<0042> <00430044>] <06> <08> [<0045>] ") ::
        (lit "03", lit " <D83DDE00>\n<04> <05> [<0042> <00430044>] <06> <08> [<0045>] ") ::
        (lit "D83DDE00", lit "\n<04> <05> [<0042> <00430044>] <06> <08> [<0045>] ") ::
        hexes true (lit "\n<04> <05> [<0042> <00430044>] <06> <08> [<0045>] ") := by
    decide
  have hall := Ranges.single hfirst (by decide) (by decide) (by decide)
    (by decide) (show span (codeOf (lit "02")) (codeOf (lit "03")) = some (1 + 1) by
      decide) ⟨by decide, by decide, by decide⟩ hrest
  have hchars : charSections plainStream = [lit "beginbfchar <01> <0041> "] := by decide
  have hranges : rangeSections plainStream =
      [lit " <02> <03> <D83DDE00>\n<04> <05> [<0042> <00430044>] <06> <08> [<0045>] "] := by
    decide
  have hentries := List.Forall₂.cons hall (.nil (R := Ranges))
  rw [← hranges] at hentries
  refine ⟨?_, _, hentries, small_of_length ?_⟩
  · rw [hchars]
    intro w hw
    rw [List.mem_singleton.mp hw]
    unfold RegularChars
    decide
  · rw [hchars]
    decide

end Kura.Engine.ToUnicode
