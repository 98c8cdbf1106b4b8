import Kura.Base.Json

/-!
# Texts that show where they end

A JSON text can be cut off the front of a longer text in one way only, and so
can the UTF-8 encoding of a character. Whatever is written after an array or
an object is therefore recovered, and so is the value.
-/

namespace Kura.Base

/-- The first character of an encoded text is unique. -/
theorem utf8EncodeChar_append_inj {c d : Char} {x y : List UInt8}
    (h : String.utf8EncodeChar c ++ x = String.utf8EncodeChar d ++ y) : c = d ∧ x = y := by
  have hdecode : ∀ (c : Char) (x : List UInt8),
      ByteArray.utf8DecodeChar? (String.utf8EncodeChar c ++ x).toByteArray 0 = some c := by
    intro c x
    rw [List.toByteArray_append]
    exact ByteArray.utf8DecodeChar?_utf8EncodeChar_append
  have hc : some c = some d := by
    rw [← hdecode c x, ← hdecode d y, h]
  obtain rfl := Option.some.inj hc
  exact ⟨rfl, List.append_cancel_left h⟩

theorem utf8_cons (c : Char) (cs : List Char) :
    utf8 (c :: cs) = String.utf8EncodeChar c ++ utf8 cs := rfl

theorem utf8_append (cs ds : List Char) : utf8 (cs ++ ds) = utf8 cs ++ utf8 ds :=
  List.flatMap_append

theorem utf8EncodeChar_ne_nil (c : Char) : String.utf8EncodeChar c ≠ [] := by
  intro h
  have hlen := congrArg List.length h
  rw [String.length_utf8EncodeChar] at hlen
  have hpos := c.utf8Size_pos
  simp only [List.length_nil] at hlen
  omega

/-- If one of two encodings starts the other, the texts do so too. -/
theorem prefix_of_utf8_append {cs ds : List Char} {x : List UInt8}
    (h : utf8 cs ++ x = utf8 ds) : ∃ es, ds = cs ++ es := by
  induction cs generalizing ds with
  | nil => exact ⟨ds, rfl⟩
  | cons c cs ih =>
      cases ds with
      | nil =>
          have hnil := (List.append_eq_nil_iff.mp h).1
          exact absurd (List.append_eq_nil_iff.mp hnil).1 (utf8EncodeChar_ne_nil c)
      | cons d ds =>
          rw [utf8_cons, utf8_cons, List.append_assoc] at h
          obtain ⟨rfl, htail⟩ := utf8EncodeChar_append_inj h
          obtain ⟨es, rfl⟩ := ih htail
          exact ⟨es, rfl⟩

theorem utf8_injective {cs ds : List Char} (h : utf8 cs = utf8 ds) : cs = ds := by
  have hle : ∀ {cs ds : List Char}, utf8 cs = utf8 ds → ∃ es, ds = cs ++ es := by
    intro cs ds h
    apply prefix_of_utf8_append (x := [])
    rw [List.append_nil, h]
  obtain ⟨es, rfl⟩ := hle h
  obtain ⟨fs, hfs⟩ := hle h.symm
  have hnil : es ++ fs = [] := by
    have hcs : cs ++ (es ++ fs) = cs ++ [] := by
      rw [← List.append_assoc, ← hfs, List.append_nil]
    exact List.append_cancel_left hcs
  rw [(List.append_eq_nil_iff.mp hnil).1, List.append_nil]

namespace Json

theorem digitChar_injective {m n : Nat} (hm : m < 16) (hn : n < 16)
    (h : Nat.digitChar m = Nat.digitChar n) : m = n := by
  have hall : ∀ m < 16, ∀ n < 16, Nat.digitChar m = Nat.digitChar n → m = n := by decide
  exact hall m hm n hn h

theorem hexPair_injective {m n : Nat} (hm : m < 256) (hn : n < 256)
    (h : hexPair m = hexPair n) : m = n := by
  simp only [hexPair, List.cons.injEq, and_true] at h
  have hdiv : m / 16 = n / 16 := digitChar_injective (by omega) (by omega) h.1
  have hmod : m % 16 = n % 16 := digitChar_injective (by omega) (by omega) h.2
  omega

/-- The characters with a short escape, each after the letter that stands for
it. -/
def shortEscapes : List (Char × Char) :=
  [('"', '"'), ('\\', '\\'), ('b', Char.ofNat 8), ('f', Char.ofNat 12), ('n', '\n'), ('r', '\r'),
    ('t', '\t')]

/-- The three forms of a character in a quoted string. -/
theorem escape_forms (c : Char) :
    (escape c = [c] ∧ c ≠ '"' ∧ c ≠ '\\') ∨
    (∃ e, (e, c) ∈ shortEscapes ∧ escape c = ['\\', e]) ∨
    (c.toNat < 32 ∧ escape c = ['\\', 'u', '0', '0'] ++ hexPair c.toNat) := by
  have hof : ∀ n, c.toNat = n → c = Char.ofNat n := by
    rintro n rfl
    exact (Char.ofNat_toNat c).symm
  unfold escape
  split_ifs with h₁ h₂ h₃ h₄ h₅ h₆ h₇ h₈
  · exact Or.inr (Or.inl ⟨'"', by simp [shortEscapes, h₁], rfl⟩)
  · exact Or.inr (Or.inl ⟨'\\', by simp [shortEscapes, h₂], rfl⟩)
  · exact Or.inr (Or.inl ⟨'b', by simp [shortEscapes, hof 8 h₃], rfl⟩)
  · exact Or.inr (Or.inl ⟨'f', by simp [shortEscapes, hof 12 h₄], rfl⟩)
  · exact Or.inr (Or.inl ⟨'n', by simp [shortEscapes, h₅], rfl⟩)
  · exact Or.inr (Or.inl ⟨'r', by simp [shortEscapes, h₆], rfl⟩)
  · exact Or.inr (Or.inl ⟨'t', by simp [shortEscapes, h₇], rfl⟩)
  · exact Or.inr (Or.inr ⟨h₈, rfl⟩)
  · exact Or.inl ⟨rfl, h₁, h₂⟩

theorem eq_of_shortEscapes {e c d : Char} (hc : (e, c) ∈ shortEscapes)
    (hd : (e, d) ∈ shortEscapes) : c = d := by
  have hall : ∀ p ∈ shortEscapes, ∀ q ∈ shortEscapes, p.1 = q.1 → p.2 = q.2 := by decide
  exact hall _ hc _ hd rfl

theorem not_u_of_shortEscapes {c : Char} : ('u', c) ∉ shortEscapes := by
  have hall : ∀ p ∈ shortEscapes, p.1 ≠ 'u' := by decide
  exact fun h => hall _ h rfl

/-- A quoted character shows where it ends. -/
theorem escape_append_inj {c d : Char} {x y : List Char} (h : escape c ++ x = escape d ++ y) :
    c = d ∧ x = y := by
  rcases escape_forms c with ⟨hc, -, hcb⟩ | ⟨e, he, hc⟩ | ⟨hlt, hc⟩ <;>
    rcases escape_forms d with ⟨hd, -, hdb⟩ | ⟨f, hf, hd⟩ | ⟨hlt', hd⟩ <;>
    rw [hc, hd] at h <;>
    simp only [List.cons_append, List.nil_append, List.cons.injEq] at h
  · exact h
  · exact absurd h.1 hcb
  · exact absurd h.1 hcb
  · exact absurd h.1.symm hdb
  · obtain ⟨-, rfl, rfl⟩ := h
    exact ⟨eq_of_shortEscapes he hf, rfl⟩
  · exact absurd (h.2.1 ▸ he) not_u_of_shortEscapes
  · exact absurd h.1.symm hdb
  · exact absurd (h.2.1 ▸ hf) not_u_of_shortEscapes
  · obtain ⟨-, -, -, -, h⟩ := h
    obtain ⟨hhex, rfl⟩ := List.append_inj h rfl
    have hnat := hexPair_injective (by omega) (by omega) hhex
    exact ⟨Char.toNat_inj.mp hnat, rfl⟩

theorem escape_append_ne_quote {c : Char} {x y : List Char} : escape c ++ x ≠ '"' :: y := by
  intro h
  rcases escape_forms c with ⟨hc, hq, -⟩ | ⟨e, he, hc⟩ | ⟨hlt, hc⟩
  · rw [hc] at h
    exact hq (List.cons.inj h).1
  · rw [hc] at h
    exact absurd (List.cons.inj h).1 (by decide)
  · rw [hc] at h
    exact absurd (List.cons.inj h).1 (by decide)

/-- An escaped text ends at its first bare quote, so it can be read off the front. -/
theorem escaped_append_inj {cs ds : List Char} {x y : List Char}
    (h : cs.flatMap escape ++ '"' :: x = ds.flatMap escape ++ '"' :: y) : cs = ds ∧ x = y := by
  induction cs generalizing ds with
  | nil =>
      cases ds with
      | nil => exact ⟨rfl, (List.cons.inj h).2⟩
      | cons d ds =>
          rw [List.flatMap_cons, List.append_assoc] at h
          exact absurd h.symm escape_append_ne_quote
  | cons c cs ih =>
      cases ds with
      | nil =>
          rw [List.flatMap_cons, List.append_assoc] at h
          exact absurd h escape_append_ne_quote
      | cons d ds =>
          rw [List.flatMap_cons, List.flatMap_cons, List.append_assoc, List.append_assoc] at h
          obtain ⟨rfl, htail⟩ := escape_append_inj h
          obtain ⟨rfl, hxy⟩ := ih htail
          exact ⟨rfl, hxy⟩

/-- A quoted string shows where it ends. -/
theorem quote_append_inj {s t : String} {x y : List Char} (h : quote s ++ x = quote t ++ y) :
    s = t ∧ x = y := by
  simp only [quote, List.cons_append, List.append_assoc, List.nil_append, List.cons.injEq,
    true_and] at h
  obtain ⟨hst, hxy⟩ := escaped_append_inj h
  exact ⟨String.toList_injective hst, hxy⟩

/-- What follows a number. -/
def NoDigit (x : List Char) : Prop := ∀ c ∈ x.head?, c.isDigit = false

/-- A run of digits ends where the digits end, so it can be read off the front. -/
theorem digits_append_inj {ds es x y : List Char} (hds : ∀ c ∈ ds, c.isDigit = true)
    (hes : ∀ c ∈ es, c.isDigit = true) (hx : NoDigit x) (hy : NoDigit y)
    (h : ds ++ x = es ++ y) : ds = es ∧ x = y := by
  induction ds generalizing es with
  | nil =>
      cases es with
      | nil => exact ⟨rfl, h⟩
      | cons e es =>
          have hdigit := hes e List.mem_cons_self
          have hno := hx e (by rw [List.nil_append] at h; simp [h])
          rw [hdigit] at hno
          cases hno
  | cons d ds ih =>
      cases es with
      | nil =>
          have hdigit := hds d List.mem_cons_self
          have hno := hy d (by rw [List.nil_append] at h; simp [← h])
          rw [hdigit] at hno
          cases hno
      | cons e es =>
          obtain ⟨rfl, htail⟩ := List.cons.inj h
          obtain ⟨rfl, hxy⟩ := ih (fun c hc => hds c (List.mem_cons_of_mem _ hc))
            (fun c hc => hes c (List.mem_cons_of_mem _ hc)) htail
          exact ⟨rfl, hxy⟩

theorem toDigits_isDigit (n : Nat) : ∀ c ∈ Nat.toDigits 10 n, c.isDigit = true :=
  fun _ hc => Nat.isDigit_of_mem_toDigits (by decide) (by decide) hc

theorem toDigits_injective {m n : Nat} (h : Nat.toDigits 10 m = Nat.toDigits 10 n) : m = n := by
  rw [← Nat.ofDigitChars_ten_toDigits (n := m), h, Nat.ofDigitChars_ten_toDigits]

theorem toDigits_append_inj {m n : Nat} {x y : List Char} (hx : NoDigit x) (hy : NoDigit y)
    (h : Nat.toDigits 10 m ++ x = Nat.toDigits 10 n ++ y) : m = n ∧ x = y := by
  obtain ⟨hmn, hxy⟩ := digits_append_inj (toDigits_isDigit m) (toDigits_isDigit n) hx hy h
  exact ⟨toDigits_injective hmn, hxy⟩

/-- A number starts with a digit or a minus sign. -/
theorem intText_head (n : Int) : ∃ c cs, intText n = c :: cs ∧ (c = '-' ∨ c.isDigit = true) := by
  unfold intText
  split_ifs
  · exact ⟨'-', _, rfl, Or.inl rfl⟩
  · cases hd : Nat.toDigits 10 n.natAbs with
    | nil => exact absurd hd Nat.toDigits_ne_nil
    | cons c cs =>
        have hc := toDigits_isDigit n.natAbs c (by rw [hd]; exact List.mem_cons_self)
        exact ⟨c, cs, rfl, Or.inr hc⟩

theorem toDigits_ne_minus {n : Nat} {x y : List Char} : Nat.toDigits 10 n ++ x ≠ '-' :: y := by
  intro h
  cases hd : Nat.toDigits 10 n with
  | nil => exact absurd hd Nat.toDigits_ne_nil
  | cons c cs =>
      have hc := toDigits_isDigit n c (by rw [hd]; exact List.mem_cons_self)
      rw [hd] at h
      obtain rfl := (List.cons.inj h).1
      exact absurd hc (by decide)

/-- A number shows where it ends if no digit follows. -/
theorem intText_append_inj {m n : Int} {x y : List Char} (hx : NoDigit x) (hy : NoDigit y)
    (h : intText m ++ x = intText n ++ y) : m = n ∧ x = y := by
  unfold intText at h
  split_ifs at h with hm hn hn
  · obtain ⟨habs, hxy⟩ := toDigits_append_inj hx hy (List.cons.inj h).2
    exact ⟨by omega, hxy⟩
  · exact absurd h.symm toDigits_ne_minus
  · exact absurd h toDigits_ne_minus
  · obtain ⟨habs, hxy⟩ := toDigits_append_inj hx hy h
    exact ⟨by omega, hxy⟩

/-- The kinds of values. -/
def ctor : Json → Nat
  | .null => 0
  | .bool _ => 1
  | .num _ => 2
  | .str _ => 3
  | .arr _ => 4
  | .obj _ => 5

/-- The kind of the value a text starts with. -/
def ctorOf (c : Char) : Nat :=
  if c = 'n' then 0
  else if c = 't' ∨ c = 'f' then 1
  else if c = '"' then 3
  else if c = '[' then 4
  else if c = '{' then 5
  else 2

theorem ctorOf_digit {c : Char} (h : c = '-' ∨ c.isDigit = true) : ctorOf c = 2 := by
  have hne : ∀ d : Char, d ≠ '-' → d.isDigit = false → c ≠ d := by
    rintro d hminus hdigit rfl
    rcases h with rfl | h
    · exact hminus rfl
    · rw [h] at hdigit
      cases hdigit
  simp [ctorOf, hne 'n' (by decide) (by decide), hne 't' (by decide) (by decide),
    hne 'f' (by decide) (by decide), hne '"' (by decide) (by decide),
    hne '[' (by decide) (by decide), hne '{' (by decide) (by decide)]

/-- The first character of a text tells the kind of its value and closes no
array. -/
theorem text_head (j : Json) : ∃ c cs, text j = c :: cs ∧ ctorOf c = ctor j ∧ c ≠ ']' := by
  cases j with
  | null => exact ⟨_, _, rfl, rfl, by decide⟩
  | bool b => cases b <;> exact ⟨_, _, rfl, rfl, by decide⟩
  | num n =>
      obtain ⟨c, cs, heq, hc⟩ := intText_head n
      refine ⟨c, cs, by rw [text, heq], ctorOf_digit hc, ?_⟩
      rintro rfl
      revert hc
      decide
  | str s => exact ⟨_, _, rfl, rfl, by decide⟩
  | arr items => cases items <;> exact ⟨_, _, rfl, rfl, by decide⟩
  | obj members => rcases members with _ | ⟨⟨k, v⟩, ms⟩ <;> exact ⟨_, _, rfl, rfl, by decide⟩

theorem text_append_ne_close {j : Json} {x y : List Char} : text j ++ x ≠ ']' :: y := by
  intro h
  obtain ⟨c, cs, hc, -, hne⟩ := text_head j
  rw [hc] at h
  exact hne (List.cons.inj h).1

theorem ctor_eq_of_append {j j' : Json} {x y : List Char} (h : text j ++ x = text j' ++ y) :
    ctor j = ctor j' := by
  obtain ⟨c, cs, hc, hctor, -⟩ := text_head j
  obtain ⟨d, ds, hd, hctor', -⟩ := text_head j'
  rw [hc, hd] at h
  obtain rfl := (List.cons.inj h).1
  rw [← hctor, hctor']

theorem noDigit_itemsText (xs : List Json) (x : List Char) : NoDigit (itemsText xs ++ x) := by
  cases xs <;> simp [NoDigit, itemsText]

theorem noDigit_membersText (ms : List (String × Json)) (x : List Char) :
    NoDigit (membersText ms ++ x) := by
  rcases ms with _ | ⟨⟨k, v⟩, ms⟩ <;> simp [NoDigit, membersText]

mutual

/-- A value shows where its text ends if no digit follows. -/
theorem text_append_inj (j j' : Json) {x y : List Char} (hx : NoDigit x) (hy : NoDigit y)
    (h : text j ++ x = text j' ++ y) : j = j' ∧ x = y := by
  have hctor := ctor_eq_of_append h
  match j, j' with
  | .null, .null => exact ⟨rfl, List.append_cancel_left h⟩
  | .bool b, .bool b' =>
      cases b <;> cases b'
      · exact ⟨rfl, List.append_cancel_left h⟩
      · simp [text] at h
      · simp [text] at h
      · exact ⟨rfl, List.append_cancel_left h⟩
  | .num n, .num n' =>
      simp only [text] at h
      obtain ⟨rfl, hxy⟩ := intText_append_inj hx hy h
      exact ⟨rfl, hxy⟩
  | .str s, .str s' =>
      simp only [text] at h
      obtain ⟨rfl, hxy⟩ := quote_append_inj h
      exact ⟨rfl, hxy⟩
  | .arr xs, .arr ys =>
      obtain ⟨rfl, hxy⟩ := arr_append_inj xs ys h
      exact ⟨rfl, hxy⟩
  | .obj ms, .obj ns =>
      obtain ⟨rfl, hxy⟩ := obj_append_inj ms ns h
      exact ⟨rfl, hxy⟩
  | .null, .bool _ | .null, .num _ | .null, .str _ | .null, .arr _ | .null, .obj _ => cases hctor
  | .bool _, .null | .bool _, .num _ | .bool _, .str _ | .bool _, .arr _ | .bool _, .obj _ =>
      cases hctor
  | .num _, .null | .num _, .bool _ | .num _, .str _ | .num _, .arr _ | .num _, .obj _ =>
      cases hctor
  | .str _, .null | .str _, .bool _ | .str _, .num _ | .str _, .arr _ | .str _, .obj _ =>
      cases hctor
  | .arr _, .null | .arr _, .bool _ | .arr _, .num _ | .arr _, .str _ | .arr _, .obj _ =>
      cases hctor
  | .obj _, .null | .obj _, .bool _ | .obj _, .num _ | .obj _, .str _ | .obj _, .arr _ =>
      cases hctor
termination_by (sizeOf j, 0)

/-- An array shows where its text ends. -/
theorem arr_append_inj (xs ys : List Json) {x y : List Char}
    (h : text (.arr xs) ++ x = text (.arr ys) ++ y) : xs = ys ∧ x = y := by
  match xs, ys with
  | [], [] => exact ⟨rfl, List.append_cancel_left h⟩
  | [], b :: ys =>
      simp only [text, List.cons_append, List.append_assoc, List.cons.injEq, true_and] at h
      exact absurd h.symm text_append_ne_close
  | a :: xs, [] =>
      simp only [text, List.cons_append, List.append_assoc, List.cons.injEq, true_and] at h
      exact absurd h text_append_ne_close
  | a :: xs, b :: ys =>
      simp only [text, List.cons_append, List.append_assoc, List.cons.injEq, true_and] at h
      obtain ⟨rfl, htail⟩ := text_append_inj a b (noDigit_itemsText _ _) (noDigit_itemsText _ _) h
      obtain ⟨rfl, hxy⟩ := items_append_inj xs ys htail
      exact ⟨rfl, hxy⟩
termination_by (sizeOf xs, 1)

theorem items_append_inj (xs ys : List Json) {x y : List Char}
    (h : itemsText xs ++ x = itemsText ys ++ y) : xs = ys ∧ x = y := by
  match xs, ys with
  | [], [] => exact ⟨rfl, List.append_cancel_left h⟩
  | [], b :: ys => simp [itemsText] at h
  | a :: xs, [] => simp [itemsText] at h
  | a :: xs, b :: ys =>
      simp only [itemsText, List.cons_append, List.append_assoc, List.cons.injEq, true_and] at h
      obtain ⟨rfl, htail⟩ := text_append_inj a b (noDigit_itemsText _ _) (noDigit_itemsText _ _) h
      obtain ⟨rfl, hxy⟩ := items_append_inj xs ys htail
      exact ⟨rfl, hxy⟩
termination_by (sizeOf xs, 0)

/-- An object shows where its text ends. -/
theorem obj_append_inj (ms ns : List (String × Json)) {x y : List Char}
    (h : text (.obj ms) ++ x = text (.obj ns) ++ y) : ms = ns ∧ x = y := by
  match ms, ns with
  | [], [] => exact ⟨rfl, List.append_cancel_left h⟩
  | [], (l, w) :: ns => simp [text, quote] at h
  | (k, v) :: ms, [] => simp [text, quote] at h
  | (k, v) :: ms, (l, w) :: ns =>
      simp only [text, List.cons_append, List.append_assoc, List.cons.injEq, true_and] at h
      obtain ⟨rfl, hrest⟩ := quote_append_inj h
      obtain ⟨rfl, htail⟩ := text_append_inj v w (noDigit_membersText _ _)
        (noDigit_membersText _ _) (List.cons.inj hrest).2
      obtain ⟨rfl, hxy⟩ := members_append_inj ms ns htail
      exact ⟨rfl, hxy⟩
termination_by (sizeOf ms, 1)

theorem members_append_inj (ms ns : List (String × Json)) {x y : List Char}
    (h : membersText ms ++ x = membersText ns ++ y) : ms = ns ∧ x = y := by
  match ms, ns with
  | [], [] => exact ⟨rfl, List.append_cancel_left h⟩
  | [], (l, w) :: ns => simp [membersText] at h
  | (k, v) :: ms, [] => simp [membersText] at h
  | (k, v) :: ms, (l, w) :: ns =>
      simp only [membersText, List.cons_append, List.append_assoc, List.cons.injEq,
        true_and] at h
      obtain ⟨rfl, hrest⟩ := quote_append_inj h
      obtain ⟨rfl, htail⟩ := text_append_inj v w (noDigit_membersText _ _)
        (noDigit_membersText _ _) (List.cons.inj hrest).2
      obtain ⟨rfl, hxy⟩ := members_append_inj ms ns htail
      exact ⟨rfl, hxy⟩
termination_by (sizeOf ms, 0)

end

/-- Arrays and objects. -/
def Bracketed : Json → Prop
  | .arr _ | .obj _ => True
  | _ => False

/-- Arrays and objects show where they end, whatever follows. -/
theorem bracketed_append_inj {j j' : Json} {x y : List Char} (hj : j.Bracketed)
    (h : text j ++ x = text j' ++ y) : j = j' ∧ x = y := by
  have hctor := ctor_eq_of_append h
  cases j with
  | arr xs =>
      cases j' with
      | arr ys =>
          obtain ⟨rfl, hxy⟩ := arr_append_inj xs ys h
          exact ⟨rfl, hxy⟩
      | _ => cases hctor
  | obj ms =>
      cases j' with
      | obj ns =>
          obtain ⟨rfl, hxy⟩ := obj_append_inj ms ns h
          exact ⟨rfl, hxy⟩
      | _ => cases hctor
  | _ => exact hj.elim

/-- Encoded arrays and objects show where they end, whatever bytes follow. -/
theorem utf8_text_append_inj {j j' : Json} {x y : List UInt8} (hj : j.Bracketed)
    (hj' : j'.Bracketed) (h : utf8 (text j) ++ x = utf8 (text j') ++ y) : j = j' ∧ x = y := by
  have heq : j = j' := by
    rcases List.append_eq_append_iff.mp h with ⟨z, hz, -⟩ | ⟨z, hz, -⟩
    · obtain ⟨es, hes⟩ := prefix_of_utf8_append hz.symm
      have happ : text j ++ es = text j' ++ [] := by rw [List.append_nil, hes]
      exact (bracketed_append_inj hj happ).1
    · obtain ⟨es, hes⟩ := prefix_of_utf8_append hz.symm
      have happ : text j' ++ es = text j ++ [] := by rw [List.append_nil, hes]
      exact (bracketed_append_inj hj' happ).1.symm
  subst heq
  exact ⟨rfl, List.append_cancel_left h⟩

end Json

end Kura.Base
