import Kura.Engine.Profile
import Kura.Engine.Strtod

/-!
# Reading JSON

The reader of profiles: `parseJson` reads a whole text as one value. It goes
down the text from the left, with a limit on the nesting, and tells where it
could not go on.

## Implementation notes

A text is a string of bytes: the character with a code below 256 is the byte
with that value, so escapes beyond ASCII give several characters. The reader's
index is told by what is left of the text, and its failures by the number of
bytes before that. The calls are bounded by a number that grows with the text;
`value_of_more` shows that a larger bound changes nothing that was read.
-/

namespace Kura.Engine.JsonReader

open Kura.Engine.Profile Kura.Engine.CText

/-- The limit on the nesting. -/
def kMaxObjectWalk : Nat := 64

/-- What a function of the reader gives: a result and what is left, or a message. -/
abbrev Read (α : Type) := Except String (α × List Char)

/-- A failure before the rest of a text with some size. -/
def fail {α : Type} (size : Nat) (what : String) (rest : List Char) : Read α :=
  .error (what ++ " at byte " ++ toString (size - rest.length))

def isWs (c : Char) : Bool := c == ' ' || c == '\t' || c == '\n' || c == '\r'

def ws (s : List Char) : List Char := s.dropWhile isWs

/-- The bytes of a character. -/
def utf8 (cp : Nat) : List Char :=
  if cp < 0x80 then [Char.ofNat cp]
  else if cp < 0x800 then [Char.ofNat (0xC0 + cp / 64), Char.ofNat (0x80 + cp % 64)]
  else if cp < 0x10000 then
    [Char.ofNat (0xE0 + cp / 4096), Char.ofNat (0x80 + cp / 64 % 64), Char.ofNat (0x80 + cp % 64)]
  else
    [Char.ofNat (0xF0 + cp / 262144), Char.ofNat (0x80 + cp / 4096 % 64),
      Char.ofNat (0x80 + cp / 64 % 64), Char.ofNat (0x80 + cp % 64)]

def hexDigits (size : Nat) : Nat → Nat → List Char → Read Nat
  | 0, cp, s => .ok (cp, s)
  | _ + 1, _, [] => fail size "bad \\u escape" []
  | k + 1, cp, h :: s =>
      if isHexDigit h then hexDigits size k (16 * cp + digitValue h) s
      else fail size "bad \\u escape" s

/-- The four digits of an escape. -/
def hex4 (size : Nat) (s : List Char) : Read Nat :=
  if s.length < 4 then fail size "bad \\u escape" s else hexDigits size 4 0 s

/-- The escape of a code unit; two of them can be one character. -/
def unicode (size : Nat) (s : List Char) : Read (List Char) :=
  match hex4 size s with
  | .error e => .error e
  | .ok (cp, s) =>
      if 0xD800 ≤ cp ∧ cp < 0xDC00 ∧ ['\\', 'u'].isPrefixOf s then
        match hex4 size (s.drop 2) with
        | .error e => .error e
        | .ok (lo, s) =>
            if 0xDC00 ≤ lo ∧ lo < 0xE000 then
              .ok (utf8 (0x10000 + (cp - 0xD800) * 1024 + (lo - 0xDC00)), s)
            else .ok (utf8 0xFFFD, s)
      else if 0xD800 ≤ cp ∧ cp < 0xE000 then .ok (utf8 0xFFFD, s)
      else .ok (utf8 cp, s)

/-- What a backslash and a character stand for. -/
def escaped (size : Nat) (e : Char) (s : List Char) : Read (List Char) :=
  if e = '"' then .ok (['"'], s)
  else if e = '\\' then .ok (['\\'], s)
  else if e = '/' then .ok (['/'], s)
  else if e = 'b' then .ok (['\x08'], s)
  else if e = 'f' then .ok (['\x0c'], s)
  else if e = 'n' then .ok (['\n'], s)
  else if e = 'r' then .ok (['\r'], s)
  else if e = 't' then .ok (['\t'], s)
  else if e = 'u' then unicode size s
  else fail size "bad escape in string" s

/-- A string from behind its opening quote. -/
def stringFrom (size : Nat) : Nat → List Char → Read (List Char)
  | 0, s => fail size "unterminated string" s
  | _ + 1, [] => fail size "unterminated string" []
  | fuel + 1, c :: s =>
      if c = '"' then .ok ([], s)
      else if c.toNat < 0x20 then fail size "control character in string" s
      else if c ≠ '\\' then
        match stringFrom size fuel s with
        | .error e => .error e
        | .ok (out, rest) => .ok (c :: out, rest)
      else
        match s with
        | [] => fail size "unterminated string" []
        | e :: s =>
            match escaped size e s with
            | .error e => .error e
            | .ok (chars, s) =>
                match stringFrom size fuel s with
                | .error e => .error e
                | .ok (out, rest) => .ok (chars ++ out, rest)

def string (size : Nat) (s : List Char) : Read String :=
  match stringFrom size (s.length + 1) s with
  | .error e => .error e
  | .ok (out, rest) => .ok (String.ofList out, rest)

/-- The characters that can stand in a number. -/
def isNumberChar (c : Char) : Bool :=
  c.isDigit || c == '.' || c == 'e' || c == 'E' || c == '+' || c == '-'

/-- A whole text as a number that is finite. -/
def readNumber (t : List Char) : Option ℚ :=
  if t = [] ∨ !t.all isNumberChar then none
  else match CText.strtod t with
  | (.fin q, []) => some q
  | _ => none

def number (size : Nat) (s : List Char) : Read Json :=
  match readNumber (s.takeWhile isNumberChar) with
  | some q => .ok (.num (.fin q), s.dropWhile isNumberChar)
  | none => fail size "unexpected character" s

/-- A value that is neither an object nor an array. -/
def scalar (size : Nat) (s : List Char) : Read Json :=
  if s.head? = some '"' then
    match string size (s.drop 1) with
    | .error e => .error e
    | .ok (str, rest) => .ok (.str str, rest)
  else if ['t', 'r', 'u', 'e'].isPrefixOf s then .ok (.bool true, s.drop 4)
  else if ['f', 'a', 'l', 's', 'e'].isPrefixOf s then .ok (.bool false, s.drop 5)
  else if ['n', 'u', 'l', 'l'].isPrefixOf s then .ok (.null, s.drop 4)
  else number size s

mutual

/-- A value, inside of as many arrays and objects as `depth` tells. -/
def value (size : Nat) : Nat → Nat → List Char → Read Json
  | 0, _, s => fail size "unexpected end of JSON" s
  | fuel + 1, depth, s =>
      match ws s with
      | [] => fail size "unexpected end of JSON" []
      | c :: rest =>
          if kMaxObjectWalk ≤ depth then fail size "JSON nested too deeply" (c :: rest)
          else if c = '\x7b' then object size fuel (depth + 1) (ws rest)
          else if c = '[' then array size fuel (depth + 1) (ws rest)
          else scalar size (c :: rest)

/-- An object from behind its brace. -/
def object (size : Nat) : Nat → Nat → List Char → Read Json
  | 0, _, s => fail size "unexpected end of JSON" s
  | fuel + 1, depth, s =>
      if s.head? = some '\x7d' then .ok (.obj [], s.drop 1)
      else
        match members size fuel depth s with
        | .error e => .error e
        | .ok (ms, rest) => .ok (.obj ms, rest)

/-- Members up to the closing brace. -/
def members (size : Nat) : Nat → Nat → List Char → Read (List (String × Json))
  | 0, _, s => fail size "unexpected end of JSON" s
  | fuel + 1, depth, s =>
      match ws s with
      | '"' :: s =>
          match string size s with
          | .error e => .error e
          | .ok (key, s) =>
              match ws s with
              | ':' :: s =>
                  match value size fuel depth s with
                  | .error e => .error e
                  | .ok (child, s) =>
                      match ws s with
                      | ',' :: s =>
                          match members size fuel depth s with
                          | .error e => .error e
                          | .ok (ms, s) => .ok ((key, child) :: ms, s)
                      | '\x7d' :: s => .ok ([(key, child)], s)
                      | s => fail size "expected ',' or '\x7d'" s
              | s => fail size "expected ':'" s
      | s => fail size "expected a quoted key" s

/-- An array from behind its bracket. -/
def array (size : Nat) : Nat → Nat → List Char → Read Json
  | 0, _, s => fail size "unexpected end of JSON" s
  | fuel + 1, depth, s =>
      if s.head? = some ']' then .ok (.arr [], s.drop 1)
      else
        match items size fuel depth s with
        | .error e => .error e
        | .ok (xs, rest) => .ok (.arr xs, rest)

/-- Items up to the closing bracket. -/
def items (size : Nat) : Nat → Nat → List Char → Read (List Json)
  | 0, _, s => fail size "unexpected end of JSON" s
  | fuel + 1, depth, s =>
      match value size fuel depth s with
      | .error e => .error e
      | .ok (child, s) =>
          match ws s with
          | ',' :: s =>
              match items size fuel depth s with
              | .error e => .error e
              | .ok (xs, s) => .ok (child :: xs, s)
          | ']' :: s => .ok ([child], s)
          | s => fail size "expected ',' or ']'" s

end

/-- Calls enough for a text with some length. -/
def fuelFor (length : Nat) : Nat := 3 * length + 3

/-- Reads a whole text as one value. -/
def parseJson (text : String) : Except String Json :=
  let s := text.toList
  match value s.length (fuelFor s.length) 0 s with
  | .error e => .error e
  | .ok (v, rest) =>
      match ws rest with
      | [] => .ok v
      | rest =>
          .error ("unexpected text after the JSON value at byte " ++
            toString (s.length - rest.length))

section Cases

variable {size fuel depth : Nat} {s rest : List Char}

/-- A value is an object, an array or a scalar, above the limit of the nesting. -/
theorem value_eq_ok_iff {v : Json} :
    value size (fuel + 1) depth s = .ok (v, rest) ↔
      ∃ c tail, ws s = c :: tail ∧ depth < kMaxObjectWalk ∧
        ((c = '\x7b' ∧ object size fuel (depth + 1) (ws tail) = .ok (v, rest)) ∨
          (c = '[' ∧ array size fuel (depth + 1) (ws tail) = .ok (v, rest)) ∨
          (c ≠ '\x7b' ∧ c ≠ '[' ∧ scalar size (c :: tail) = .ok (v, rest))) := by
  rw [value]
  split
  · rename_i hws
    constructor
    · intro h
      cases h
    · rintro ⟨c, tail, hcons, -⟩
      rw [hws] at hcons
      cases hcons
  · rename_i c tail hws
    split
    · rename_i hdeep
      constructor
      · intro h
        cases h
      · rintro ⟨c', tail', -, hdepth, -⟩
        omega
    · rename_i hdeep
      have hdepth : depth < kMaxObjectWalk := by omega
      constructor
      · intro h
        refine ⟨c, tail, hws, hdepth, ?_⟩
        split at h
        · rename_i hc
          exact .inl ⟨hc, h⟩
        · rename_i hobj
          split at h
          · rename_i hc
            exact .inr (.inl ⟨hc, h⟩)
          · rename_i harr
            exact .inr (.inr ⟨hobj, harr, h⟩)
      · rintro ⟨c', tail', hcons, -, hcase⟩
        obtain ⟨rfl, rfl⟩ := List.cons.inj (hws.symm.trans hcons)
        obtain ⟨rfl, h⟩ | ⟨rfl, h⟩ | ⟨hobj, harr, h⟩ := hcase
        · rw [if_pos rfl]
          exact h
        · rw [if_neg (by decide), if_pos rfl]
          exact h
        · rw [if_neg hobj, if_neg harr]
          exact h

/-- An object is a brace at once, or its members. -/
theorem object_eq_ok_iff {v : Json} :
    object size (fuel + 1) depth s = .ok (v, rest) ↔
      (s.head? = some '\x7d' ∧ v = .obj [] ∧ rest = s.drop 1) ∨
        (s.head? ≠ some '\x7d' ∧ ∃ ms, v = .obj ms ∧
          members size fuel depth s = .ok (ms, rest)) := by
  rw [object]
  split
  · rename_i hempty
    simp [hempty, eq_comm]
  · rename_i hempty
    cases hms : members size fuel depth s with
    | error e => simp [hempty]
    | ok out =>
        obtain ⟨ms, rest'⟩ := out
        constructor
        · intro h
          cases h
          exact .inr ⟨hempty, ms, rfl, rfl⟩
        · rintro (⟨hhead, -⟩ | ⟨-, ms', rfl, h⟩)
          · exact absurd hhead hempty
          · cases h
            rfl

/-- An array is a bracket at once, or its items. -/
theorem array_eq_ok_iff {v : Json} :
    array size (fuel + 1) depth s = .ok (v, rest) ↔
      (s.head? = some ']' ∧ v = .arr [] ∧ rest = s.drop 1) ∨
        (s.head? ≠ some ']' ∧ ∃ xs, v = .arr xs ∧ items size fuel depth s = .ok (xs, rest)) := by
  rw [array]
  split
  · rename_i hempty
    simp [hempty, eq_comm]
  · rename_i hempty
    cases hxs : items size fuel depth s with
    | error e => simp [hempty]
    | ok out =>
        obtain ⟨xs, rest'⟩ := out
        constructor
        · intro h
          cases h
          exact .inr ⟨hempty, xs, rfl, rfl⟩
        · rintro (⟨hhead, -⟩ | ⟨-, xs', rfl, h⟩)
          · exact absurd hhead hempty
          · cases h
            rfl

/-- A key, a value, and more members or the end. -/
theorem members_eq_ok_iff {ms : List (String × Json)} :
    members size (fuel + 1) depth s = .ok (ms, rest) ↔
      ∃ s₁ key s₂ s₃ child s₄, ws s = '"' :: s₁ ∧ string size s₁ = .ok (key, s₂) ∧
        ws s₂ = ':' :: s₃ ∧ value size fuel depth s₃ = .ok (child, s₄) ∧
        ((∃ s₅ more, ws s₄ = ',' :: s₅ ∧ members size fuel depth s₅ = .ok (more, rest) ∧
            ms = (key, child) :: more) ∨
          (ws s₄ = '\x7d' :: rest ∧ ms = [(key, child)])) := by
  rw [members]
  constructor
  · intro h
    repeat' split at h
    all_goals grind [fail]
  · rintro ⟨s₁, key, s₂, s₃, child, s₄, hquote, hkey, hcolon, hchild, hend⟩
    simp only [hquote, hkey, hcolon, hchild]
    obtain ⟨s₅, more, hcomma, hmore, rfl⟩ | ⟨hbrace, rfl⟩ := hend
    · simp only [hcomma, hmore]
    · simp only [hbrace]

/-- A value, and more items or the end. -/
theorem items_eq_ok_iff {xs : List Json} :
    items size (fuel + 1) depth s = .ok (xs, rest) ↔
      ∃ child s₁, value size fuel depth s = .ok (child, s₁) ∧
        ((∃ s₂ more, ws s₁ = ',' :: s₂ ∧ items size fuel depth s₂ = .ok (more, rest) ∧
            xs = child :: more) ∨
          (ws s₁ = ']' :: rest ∧ xs = [child])) := by
  rw [items]
  constructor
  · intro h
    repeat' split at h
    all_goals grind [fail]
  · rintro ⟨child, s₁, hchild, hend⟩
    simp only [hchild]
    obtain ⟨s₂, more, hcomma, hmore, rfl⟩ | ⟨hbracket, rfl⟩ := hend
    · simp only [hcomma, hmore]
    · simp only [hbracket]

end Cases

section Bound

variable {size : Nat}

theorem length_ws_le (s : List Char) : (ws s).length ≤ s.length := List.length_dropWhile_le _ _

theorem length_hexDigits {k cp n : Nat} {s rest : List Char}
    (h : hexDigits size k cp s = .ok (n, rest)) : rest.length ≤ s.length := by
  induction k generalizing cp s with
  | zero =>
      cases h
      exact le_refl _
  | succ k ih =>
      cases s with
      | nil => cases h
      | cons c s =>
          rw [hexDigits] at h
          split at h
          · exact (ih h).trans (Nat.le_succ _)
          · cases h

theorem length_hex4 {n : Nat} {s rest : List Char} (h : hex4 size s = .ok (n, rest)) :
    rest.length ≤ s.length := by
  unfold hex4 at h
  split at h
  · cases h
  · exact length_hexDigits h

/-- A unicode escape gives no characters back. -/
theorem length_unicode {out s rest : List Char} (h : unicode size s = .ok (out, rest)) :
    rest.length ≤ s.length := by
  unfold unicode at h
  split at h
  · cases h
  · rename_i cp s₁ hfirst
    have hle := length_hex4 hfirst
    split at h
    · split at h
      · cases h
      · rename_i lo s₂ hsecond
        have hle₂ := length_hex4 hsecond
        rw [List.length_drop] at hle₂
        split at h
        · rw [← (Prod.mk.inj (Except.ok.inj h)).2]
          omega
        · rw [← (Prod.mk.inj (Except.ok.inj h)).2]
          omega
    · split at h
      · rw [← (Prod.mk.inj (Except.ok.inj h)).2]
        exact hle
      · rw [← (Prod.mk.inj (Except.ok.inj h)).2]
        exact hle

theorem length_escaped {e : Char} {out s rest : List Char}
    (h : escaped size e s = .ok (out, rest)) : rest.length ≤ s.length := by
  by_cases hu : e = 'u'
  · subst hu
    have hunicode : unicode size s = .ok (out, rest) := h
    exact length_unicode hunicode
  · unfold escaped at h
    rw [if_neg hu] at h
    repeat' split at h
    all_goals first
      | (cases h; done)
      | (cases h; exact le_refl _)

/-- The end of a string, a character as it is, or an escape. -/
theorem stringFrom_eq_ok {fuel : Nat} {c : Char} {out s rest : List Char}
    (h : stringFrom size (fuel + 1) (c :: s) = .ok (out, rest)) :
    (c = '"' ∧ out = [] ∧ rest = s) ∨
      (c ≠ '"' ∧ c ≠ '\\' ∧ 0x20 ≤ c.toNat ∧
        ∃ more, stringFrom size fuel s = .ok (more, rest) ∧ out = c :: more) ∨
      (c = '\\' ∧ ∃ e s₁ chars s₂ more, s = e :: s₁ ∧ escaped size e s₁ = .ok (chars, s₂) ∧
        stringFrom size fuel s₂ = .ok (more, rest) ∧ out = chars ++ more) := by
  unfold stringFrom at h
  split at h
  · rename_i hquote
    cases h
    exact .inl ⟨hquote, rfl, rfl⟩
  · rename_i hquote
    split at h
    · cases h
    · rename_i hcontrol
      split at h
      · rename_i hslash
        split at h
        · cases h
        · rename_i more rest' hmore
          cases h
          exact .inr (.inl ⟨hquote, hslash, not_lt.mp hcontrol, more, hmore, rfl⟩)
      · rename_i hslash
        split at h
        · cases h
        · rename_i e s₁
          split at h
          · cases h
          · rename_i chars s₂ hescape
            split at h
            · cases h
            · rename_i more rest' hmore
              cases h
              exact .inr (.inr ⟨not_not.mp hslash, e, s₁, chars, s₂, more, rfl,
                hescape, hmore, rfl⟩)

theorem length_stringFrom {fuel : Nat} {out s rest : List Char}
    (h : stringFrom size fuel s = .ok (out, rest)) : rest.length < s.length := by
  induction fuel generalizing out s with
  | zero => cases h
  | succ fuel ih =>
      cases s with
      | nil => cases h
      | cons c s =>
          obtain ⟨-, -, rfl⟩ | ⟨-, -, -, more, hmore, -⟩ |
            ⟨-, e, s₁, chars, s₂, more, rfl, hescape, hmore, -⟩ := stringFrom_eq_ok h
          · exact Nat.lt_succ_self _
          · exact (ih hmore).trans (Nat.lt_succ_self _)
          · have hle := length_escaped hescape
            have hlt := ih hmore
            simp only [List.length_cons]
            omega

theorem length_string {str : String} {s rest : List Char} (h : string size s = .ok (str, rest)) :
    rest.length < s.length := by
  unfold string at h
  split at h
  · cases h
  · rename_i out rest' hbody
    cases h
    exact length_stringFrom hbody

theorem length_number {v : Json} {s rest : List Char} (h : number size s = .ok (v, rest)) :
    rest.length < s.length := by
  unfold number at h
  split at h
  · rename_i q hread
    cases h
    have hne : s.takeWhile isNumberChar ≠ [] := by
      intro hnone
      rw [hnone] at hread
      cases hread
    have hlen := congrArg List.length
      (List.takeWhile_append_dropWhile (l := s) (p := isNumberChar))
    rw [List.length_append] at hlen
    have hpos := List.length_pos_iff.mpr hne
    omega
  · cases h

/-- A scalar takes at least one character. -/
theorem length_scalar {v : Json} {s rest : List Char} (h : scalar size s = .ok (v, rest)) :
    rest.length < s.length := by
  unfold scalar at h
  split at h
  · rename_i hquote
    obtain ⟨tail, rfl⟩ := List.head?_eq_some_iff.mp hquote
    split at h
    · cases h
    · rename_i str rest' hstr
      cases h
      exact (length_string hstr).trans (Nat.lt_succ_self _)
  · repeat' split at h
    all_goals first
      | exact length_number h
      | skip
    all_goals
      rename_i hword
      have hlen := (List.isPrefixOf_iff_prefix.mp hword).length_le
      cases h
      rw [List.length_drop]
      simp only [List.length_cons, List.length_nil] at hlen
      omega

/-- What was read with some number of calls is read with three calls for each character, and
those on the way to the next value. -/
structure Enough (size fuel : Nat) : Prop where
  value : ∀ {depth s v rest}, JsonReader.value size fuel depth s = .ok (v, rest) →
    rest.length < s.length ∧ ∀ more, 3 * (s.length - rest.length) ≤ more →
      JsonReader.value size more depth s = .ok (v, rest)
  object : ∀ {depth s v rest}, JsonReader.object size fuel depth s = .ok (v, rest) →
    rest.length < s.length ∧ ∀ more, 3 * (s.length - rest.length) + 2 ≤ more →
      JsonReader.object size more depth s = .ok (v, rest)
  members : ∀ {depth s ms rest}, JsonReader.members size fuel depth s = .ok (ms, rest) →
    rest.length < s.length ∧ ∀ more, 3 * (s.length - rest.length) + 1 ≤ more →
      JsonReader.members size more depth s = .ok (ms, rest)
  array : ∀ {depth s v rest}, JsonReader.array size fuel depth s = .ok (v, rest) →
    rest.length < s.length ∧ ∀ more, 3 * (s.length - rest.length) + 2 ≤ more →
      JsonReader.array size more depth s = .ok (v, rest)
  items : ∀ {depth s xs rest}, JsonReader.items size fuel depth s = .ok (xs, rest) →
    rest.length < s.length ∧ ∀ more, 3 * (s.length - rest.length) + 1 ≤ more →
      JsonReader.items size more depth s = .ok (xs, rest)

section Step

variable {fuel : Nat} (ih : Enough size fuel)

include ih

/-- Fuel in proportion to what a value takes is enough for it. -/
theorem enough_value {depth : Nat} {s rest : List Char} {v : Json}
    (h : value size (fuel + 1) depth s = .ok (v, rest)) : rest.length < s.length ∧
      ∀ more, 3 * (s.length - rest.length) ≤ more → value size more depth s = .ok (v, rest) := by
  obtain ⟨c, tail, hws, hdepth, hcase⟩ := value_eq_ok_iff.mp h
  have hle := length_ws_le s
  rw [hws, List.length_cons] at hle
  have htail := length_ws_le tail
  obtain ⟨hc, hobj⟩ | ⟨hc, harr⟩ | ⟨hbrace, hbracket, hscalar⟩ := hcase
  · obtain ⟨hlt, hmore⟩ := ih.object hobj
    refine ⟨by omega, fun more henough => ?_⟩
    obtain ⟨more, rfl⟩ := Nat.exists_eq_succ_of_ne_zero (n := more) (by omega)
    exact value_eq_ok_iff.mpr
      ⟨c, tail, hws, hdepth, .inl ⟨hc, hmore more (by omega)⟩⟩
  · obtain ⟨hlt, hmore⟩ := ih.array harr
    refine ⟨by omega, fun more henough => ?_⟩
    obtain ⟨more, rfl⟩ := Nat.exists_eq_succ_of_ne_zero (n := more) (by omega)
    exact value_eq_ok_iff.mpr
      ⟨c, tail, hws, hdepth, .inr (.inl ⟨hc, hmore more (by omega)⟩)⟩
  · have hlt := length_scalar hscalar
    rw [List.length_cons] at hlt
    refine ⟨by omega, fun more henough => ?_⟩
    obtain ⟨more, rfl⟩ := Nat.exists_eq_succ_of_ne_zero (n := more) (by omega)
    exact value_eq_ok_iff.mpr
      ⟨c, tail, hws, hdepth, .inr (.inr ⟨hbrace, hbracket, hscalar⟩)⟩

theorem enough_object {depth : Nat} {s rest : List Char} {v : Json}
    (h : object size (fuel + 1) depth s = .ok (v, rest)) : rest.length < s.length ∧
      ∀ more, 3 * (s.length - rest.length) + 2 ≤ more →
        object size more depth s = .ok (v, rest) := by
  obtain ⟨hempty, hv, hrest⟩ | ⟨hfull, ms, hv, hms⟩ := object_eq_ok_iff.mp h
  · obtain ⟨tail, rfl⟩ := List.head?_eq_some_iff.mp hempty
    refine ⟨by rw [hrest]; exact Nat.lt_succ_self _, fun more henough => ?_⟩
    obtain ⟨more, rfl⟩ := Nat.exists_eq_succ_of_ne_zero (n := more) (by omega)
    exact object_eq_ok_iff.mpr (.inl ⟨hempty, hv, hrest⟩)
  · obtain ⟨hlt, hmore⟩ := ih.members hms
    refine ⟨hlt, fun more henough => ?_⟩
    obtain ⟨more, rfl⟩ := Nat.exists_eq_succ_of_ne_zero (n := more) (by omega)
    exact object_eq_ok_iff.mpr (.inr ⟨hfull, ms, hv, hmore more (by omega)⟩)

/-- Fuel in proportion to what the members take is enough for them. -/
theorem enough_members {depth : Nat} {s rest : List Char} {ms : List (String × Json)}
    (h : members size (fuel + 1) depth s = .ok (ms, rest)) : rest.length < s.length ∧
      ∀ more, 3 * (s.length - rest.length) + 1 ≤ more →
        members size more depth s = .ok (ms, rest) := by
  obtain ⟨s₁, key, s₂, s₃, child, s₄, hquote, hkey, hcolon, hchild, hend⟩ :=
    members_eq_ok_iff.mp h
  obtain ⟨hvalue, hvalueMore⟩ := ih.value hchild
  have hquoteLen := length_ws_le s
  have hkeyLen := length_string hkey
  have hcolonLen := length_ws_le s₂
  have hendLen := length_ws_le s₄
  rw [hquote, List.length_cons] at hquoteLen
  rw [hcolon, List.length_cons] at hcolonLen
  obtain ⟨s₅, next, hcomma, hnext, hms⟩ | ⟨hbrace, hms⟩ := hend
  · obtain ⟨hlt, hmore⟩ := ih.members hnext
    rw [hcomma, List.length_cons] at hendLen
    refine ⟨by omega, fun more henough => ?_⟩
    obtain ⟨more, rfl⟩ := Nat.exists_eq_succ_of_ne_zero (n := more) (by omega)
    exact members_eq_ok_iff.mpr ⟨s₁, key, s₂, s₃, child, s₄, hquote, hkey, hcolon,
      hvalueMore more (by omega), .inl ⟨s₅, next, hcomma, hmore more (by omega), hms⟩⟩
  · rw [hbrace, List.length_cons] at hendLen
    refine ⟨by omega, fun more henough => ?_⟩
    obtain ⟨more, rfl⟩ := Nat.exists_eq_succ_of_ne_zero (n := more) (by omega)
    exact members_eq_ok_iff.mpr ⟨s₁, key, s₂, s₃, child, s₄, hquote, hkey, hcolon,
      hvalueMore more (by omega), .inr ⟨hbrace, hms⟩⟩

theorem enough_array {depth : Nat} {s rest : List Char} {v : Json}
    (h : array size (fuel + 1) depth s = .ok (v, rest)) : rest.length < s.length ∧
      ∀ more, 3 * (s.length - rest.length) + 2 ≤ more →
        array size more depth s = .ok (v, rest) := by
  obtain ⟨hempty, hv, hrest⟩ | ⟨hfull, xs, hv, hxs⟩ := array_eq_ok_iff.mp h
  · obtain ⟨tail, rfl⟩ := List.head?_eq_some_iff.mp hempty
    refine ⟨by rw [hrest]; exact Nat.lt_succ_self _, fun more henough => ?_⟩
    obtain ⟨more, rfl⟩ := Nat.exists_eq_succ_of_ne_zero (n := more) (by omega)
    exact array_eq_ok_iff.mpr (.inl ⟨hempty, hv, hrest⟩)
  · obtain ⟨hlt, hmore⟩ := ih.items hxs
    refine ⟨hlt, fun more henough => ?_⟩
    obtain ⟨more, rfl⟩ := Nat.exists_eq_succ_of_ne_zero (n := more) (by omega)
    exact array_eq_ok_iff.mpr (.inr ⟨hfull, xs, hv, hmore more (by omega)⟩)

/-- Fuel in proportion to what the items take is enough for them. -/
theorem enough_items {depth : Nat} {s rest : List Char} {xs : List Json}
    (h : items size (fuel + 1) depth s = .ok (xs, rest)) : rest.length < s.length ∧
      ∀ more, 3 * (s.length - rest.length) + 1 ≤ more →
        items size more depth s = .ok (xs, rest) := by
  obtain ⟨child, s₁, hchild, hend⟩ := items_eq_ok_iff.mp h
  obtain ⟨hvalue, hvalueMore⟩ := ih.value hchild
  have hendLen := length_ws_le s₁
  obtain ⟨s₂, next, hcomma, hnext, hxs⟩ | ⟨hbracket, hxs⟩ := hend
  · obtain ⟨hlt, hmore⟩ := ih.items hnext
    rw [hcomma, List.length_cons] at hendLen
    refine ⟨by omega, fun more henough => ?_⟩
    obtain ⟨more, rfl⟩ := Nat.exists_eq_succ_of_ne_zero (n := more) (by omega)
    exact items_eq_ok_iff.mpr ⟨child, s₁, hvalueMore more (by omega),
      .inl ⟨s₂, next, hcomma, hmore more (by omega), hxs⟩⟩
  · rw [hbracket, List.length_cons] at hendLen
    refine ⟨by omega, fun more henough => ?_⟩
    obtain ⟨more, rfl⟩ := Nat.exists_eq_succ_of_ne_zero (n := more) (by omega)
    exact items_eq_ok_iff.mpr ⟨child, s₁, hvalueMore more (by omega),
      .inr ⟨hbracket, hxs⟩⟩

end Step

/-- A reading that succeeds needs no more fuel than it takes text. -/
theorem enough (size fuel : Nat) : Enough size fuel := by
  induction fuel with
  | zero =>
      constructor
      · intro depth s v rest h
        rw [value] at h
        cases h
      · intro depth s v rest h
        rw [object] at h
        cases h
      · intro depth s ms rest h
        rw [members] at h
        cases h
      · intro depth s v rest h
        rw [array] at h
        cases h
      · intro depth s xs rest h
        rw [items] at h
        cases h
  | succ fuel ih =>
      exact ⟨enough_value ih, enough_object ih, enough_members ih, enough_array ih,
        enough_items ih⟩

/-- The calls that `parseJson` allows are enough for every value that can be read at all. -/
theorem value_of_more {fuel depth : Nat} {s rest : List Char} {v : Json}
    (h : value size fuel depth s = .ok (v, rest)) :
    value size (fuelFor s.length) depth s = .ok (v, rest) :=
  ((enough size fuel).value h).2 _ (by unfold fuelFor; omega)

/-- A text is read if there is nothing but white space behind a value. -/
theorem parseJson_eq_ok_iff {text : String} {v : Json} :
    parseJson text = .ok v ↔
      ∃ fuel rest, value text.toList.length fuel 0 text.toList = .ok (v, rest) ∧ ws rest = [] := by
  unfold parseJson
  dsimp only
  constructor
  · intro h
    split at h
    · cases h
    · rename_i v' rest hread
      split at h
      · rename_i hend
        cases h
        exact ⟨_, rest, hread, hend⟩
      · cases h
  · rintro ⟨fuel, rest, hread, hend⟩
    rw [value_of_more hread]
    dsimp only
    rw [hend]

end Bound

end Kura.Engine.JsonReader
