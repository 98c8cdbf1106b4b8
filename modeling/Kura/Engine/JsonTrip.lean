import Kura.Engine.JsonReader

/-!
# Writing and reading JSON

A value that was read, written by `jsonText` and read again is the same value,
if its numbers are read back from their texts. Nothing else is lost: strings
are kept byte for byte, members in their order, and the nesting is the same.
-/

namespace Kura.Engine.JsonReader

open Kura.Engine.Profile Kura.Engine.CText

mutual

def same : Json → Json → Bool
  | .null, .null => true
  | .bool a, .bool b => a == b
  | .num a, .num b => a == b
  | .str a, .str b => a == b
  | .arr xs, .arr ys => sameItems xs ys
  | .obj ms, .obj ns => sameMembers ms ns
  | _, _ => false

def sameItems : List Json → List Json → Bool
  | [], [] => true
  | x :: xs, y :: ys => same x y && sameItems xs ys
  | _, _ => false

def sameMembers : List (String × Json) → List (String × Json) → Bool
  | [], [] => true
  | (k, v) :: ms, (l, w) :: ns => k == l && same v w && sameMembers ms ns
  | _, _ => false

end

mutual

theorem same_iff (v w : Json) : same v w = true ↔ v = w := by
  match v with
  | .null => cases w <;> simp [same]
  | .bool a => cases w <;> simp [same]
  | .num a => cases w <;> simp [same]
  | .str a => cases w <;> simp [same]
  | .arr xs =>
      have ih := sameItems_iff xs
      cases w <;> simp [same, ih]
  | .obj ms =>
      have ih := sameMembers_iff ms
      cases w <;> simp [same, ih]
termination_by structural v

theorem sameItems_iff (xs ys : List Json) : sameItems xs ys = true ↔ xs = ys := by
  match xs with
  | [] => cases ys <;> simp [sameItems]
  | x :: xs =>
      have hx := same_iff x
      have hxs := sameItems_iff xs
      cases ys <;> simp [sameItems, hx, hxs]
termination_by structural xs

theorem sameMembers_iff (ms ns : List (String × Json)) : sameMembers ms ns = true ↔ ms = ns := by
  match ms with
  | [] => cases ns <;> simp [sameMembers]
  | (k, v) :: ms =>
      have hv := same_iff v
      have hms := sameMembers_iff ms
      cases ns <;> simp [sameMembers, hv, hms, Prod.ext_iff, and_assoc]
termination_by structural ms

end

instance : DecidableEq Json := fun v w => decidable_of_iff _ (same_iff v w)

/-- Tells whether a text is read as a value. -/
def readsAs (text : String) (v : Json) : Bool :=
  match parseJson text with
  | .ok w => same w v
  | .error _ => false

theorem parseJson_of_readsAs {text : String} {v : Json} (h : readsAs text v = true) :
    parseJson text = .ok v := by
  unfold readsAs at h
  split at h
  · rename_i w hw
    rw [hw, (same_iff w v).mp h]
  · cases h

mutual

/-- A value at some depth has no part at the limit. -/
def fits (depth : Nat) : Json → Prop
  | .arr xs => depth < kMaxObjectWalk ∧ itemsFit (depth + 1) xs
  | .obj ms => depth < kMaxObjectWalk ∧ membersFit (depth + 1) ms
  | _ => depth < kMaxObjectWalk

def itemsFit (depth : Nat) : List Json → Prop
  | [] => True
  | x :: xs => fits depth x ∧ itemsFit depth xs

def membersFit (depth : Nat) : List (String × Json) → Prop
  | [] => True
  | (_, v) :: ms => fits depth v ∧ membersFit depth ms

end

/-- What is read is above the limit. -/
structure Sound (size fuel : Nat) : Prop where
  value : ∀ {depth s v rest}, JsonReader.value size fuel depth s = .ok (v, rest) → fits depth v
  object : ∀ {depth s v rest}, JsonReader.object size fuel (depth + 1) s = .ok (v, rest) →
    depth < kMaxObjectWalk → fits depth v
  members : ∀ {depth s ms rest}, JsonReader.members size fuel depth s = .ok (ms, rest) →
    membersFit depth ms
  array : ∀ {depth s v rest}, JsonReader.array size fuel (depth + 1) s = .ok (v, rest) →
    depth < kMaxObjectWalk → fits depth v
  items : ∀ {depth s xs rest}, JsonReader.items size fuel depth s = .ok (xs, rest) →
    itemsFit depth xs

/-- A scalar fits at any depth the walk allows. -/
theorem fits_scalar {size depth : Nat} {s rest : List Char} {v : Json}
    (hdepth : depth < kMaxObjectWalk) (h : scalar size s = .ok (v, rest)) : fits depth v := by
  unfold scalar at h
  split at h
  · split at h
    · cases h
    · cases h
      exact hdepth
  · split at h
    · cases h
      exact hdepth
    · split at h
      · cases h
        exact hdepth
      · split at h
        · cases h
          exact hdepth
        · unfold number at h
          split at h
          · cases h
            exact hdepth
          · cases h

/-- What the parser reads fits the walk that writes it. -/
theorem sound (size fuel : Nat) : Sound size fuel := by
  induction fuel with
  | zero =>
      constructor
      · intro depth s v rest h
        rw [JsonReader.value] at h
        cases h
      · intro depth s v rest h
        rw [JsonReader.object] at h
        cases h
      · intro depth s ms rest h
        rw [JsonReader.members] at h
        cases h
      · intro depth s v rest h
        rw [JsonReader.array] at h
        cases h
      · intro depth s xs rest h
        rw [JsonReader.items] at h
        cases h
  | succ fuel ih =>
      constructor
      · intro depth s v rest h
        obtain ⟨c, tail, -, hdepth, hcase⟩ := value_eq_ok_iff.mp h
        obtain ⟨-, hobj⟩ | ⟨-, harr⟩ | ⟨-, -, hscalar⟩ := hcase
        · exact ih.object hobj hdepth
        · exact ih.array harr hdepth
        · exact fits_scalar hdepth hscalar
      · intro depth s v rest h hdepth
        obtain ⟨-, rfl, -⟩ | ⟨-, ms, rfl, hms⟩ := object_eq_ok_iff.mp h
        · exact ⟨hdepth, trivial⟩
        · exact ⟨hdepth, ih.members hms⟩
      · intro depth s ms rest h
        obtain ⟨s₁, key, s₂, s₃, child, s₄, -, -, -, hchild, hend⟩ := members_eq_ok_iff.mp h
        obtain ⟨s₅, more, -, hmore, rfl⟩ | ⟨-, rfl⟩ := hend
        · exact ⟨ih.value hchild, ih.members hmore⟩
        · exact ⟨ih.value hchild, trivial⟩
      · intro depth s v rest h hdepth
        obtain ⟨-, rfl, -⟩ | ⟨-, xs, rfl, hxs⟩ := array_eq_ok_iff.mp h
        · exact ⟨hdepth, trivial⟩
        · exact ⟨hdepth, ih.items hxs⟩
      · intro depth s xs rest h
        obtain ⟨child, s₁, hchild, hend⟩ := items_eq_ok_iff.mp h
        obtain ⟨s₂, more, -, hmore, rfl⟩ | ⟨-, rfl⟩ := hend
        · exact ⟨ih.value hchild, ih.items hmore⟩
        · exact ⟨ih.value hchild, trivial⟩

theorem fits_of_parseJson {text : String} {v : Json} (h : parseJson text = .ok v) : fits 0 v := by
  obtain ⟨fuel, rest, hread, -⟩ := parseJson_eq_ok_iff.mp h
  exact (sound _ _).value hread

theorem length_escape_pos (c : Char) : 0 < (escape c).length := by
  unfold escape
  split
  · exact Nat.succ_pos _
  · split
    · exact Nat.succ_pos _
    · exact Nat.succ_pos _

/-- The escape of a control character is read back. -/
theorem unicode_escape (size : Nat) {c : Char} (hc : c.toNat < 0x20) (tail : List Char) :
    unicode size ('0' :: '0' :: Nat.digitChar (c.toNat / 16) :: Nat.digitChar (c.toNat % 16) ::
      tail) = .ok ([c], tail) := by
  have hnumber : hex4 size ('0' :: '0' :: Nat.digitChar (c.toNat / 16) ::
      Nat.digitChar (c.toNat % 16) :: tail) = .ok (c.toNat, tail) := by
    unfold hex4
    rw [if_neg (by simp)]
    generalize c.toNat = n at hc
    interval_cases n
    all_goals rfl
  unfold unicode
  rw [hnumber]
  dsimp only
  rw [if_neg (by omega), if_neg (by omega), utf8, if_pos (by omega), Char.ofNat_toNat]

/-- An escaped character is read back. -/
theorem stringFrom_escape (size : Nat) (c : Char) {fuel : Nat} {tail out rest : List Char}
    (h : stringFrom size fuel tail = .ok (out, rest)) :
    stringFrom size (fuel + 1) (escape c ++ tail) = .ok (c :: out, rest) := by
  unfold escape
  split
  · rename_i hspecial
    have hescaped : escaped size c tail = .ok ([c], tail) := by
      obtain rfl | rfl := hspecial
      · rfl
      · rfl
    simp only [List.cons_append, List.nil_append, stringFrom, hescaped, h]
    rfl
  · rename_i hplain
    rw [not_or] at hplain
    split
    · rename_i hcontrol
      have hescaped : escaped size 'u' ('0' :: '0' :: Nat.digitChar (c.toNat / 16) ::
          Nat.digitChar (c.toNat % 16) :: tail) = .ok ([c], tail) := unicode_escape
            size hcontrol tail
      simp only [List.cons_append, List.nil_append, stringFrom, hescaped, h]
      rfl
    · rename_i hcontrol
      simp only [List.cons_append, List.nil_append, stringFrom, h]
      rw [if_neg hplain.1, if_neg hcontrol, if_pos hplain.2]

theorem stringFrom_flatMap (size : Nat) (cs rest : List Char) {fuel : Nat}
    (hfuel : cs.length < fuel) :
    stringFrom size fuel (cs.flatMap escape ++ '"' :: rest) = .ok (cs, rest) := by
  induction cs generalizing fuel with
  | nil =>
      obtain ⟨fuel, rfl⟩ := Nat.exists_eq_succ_of_ne_zero (Nat.ne_zero_of_lt hfuel)
      rfl
  | cons c cs ih =>
      obtain ⟨fuel, rfl⟩ := Nat.exists_eq_succ_of_ne_zero (Nat.ne_zero_of_lt hfuel)
      rw [List.flatMap_cons, List.append_assoc]
      apply stringFrom_escape
      apply ih
      simpa using hfuel

theorem length_le_flatMap_escape (cs : List Char) : cs.length ≤ (cs.flatMap escape).length := by
  induction cs with
  | nil => exact le_refl _
  | cons c cs ih =>
      have hpos := length_escape_pos c
      rw [List.flatMap_cons, List.length_append, List.length_cons]
      omega

/-- A text in quotes is read back. -/
theorem string_flatMap (size : Nat) (str : String) (rest : List Char) :
    string size (str.toList.flatMap escape ++ '"' :: rest) = .ok (str, rest) := by
  have hlen := length_le_flatMap_escape str.toList
  unfold string
  rw [stringFrom_flatMap]
  · simp
  · simp only [List.length_append, List.length_cons]
    omega

/-- What follows does not go on with a number. -/
def EndsNumber (rest : List Char) : Prop := ∀ c ∈ rest.head?, isNumberChar c = false

theorem endsNumber_cons {c : Char} (hc : isNumberChar c = false) (rest : List Char) :
    EndsNumber (c :: rest) := by
  intro d hd
  cases hd
  exact hc

theorem takeWhile_number {t rest : List Char} (ht : t.all isNumberChar = true)
    (hrest : EndsNumber rest) : (t ++ rest).takeWhile isNumberChar = t := by
  rw [List.takeWhile_append_of_pos (fun c hc => List.all_eq_true.mp ht c hc)]
  cases rest with
  | nil => simp
  | cons c rest =>
      have hc : isNumberChar c = false := hrest c rfl
      simp [hc]

theorem dropWhile_number {t rest : List Char} (ht : t.all isNumberChar = true)
    (hrest : EndsNumber rest) : (t ++ rest).dropWhile isNumberChar = rest := by
  rw [List.dropWhile_append_of_pos (fun c hc => List.all_eq_true.mp ht c hc)]
  cases rest with
  | nil => rfl
  | cons c rest =>
      have hc : isNumberChar c = false := hrest c rfl
      simp [hc]

/-- A text that is read as a number has only characters of numbers, and one at least. -/
theorem readNumber_chars {t : List Char} {q : ℚ} (h : readNumber t = some q) :
    t ≠ [] ∧ t.all isNumberChar = true := by
  unfold readNumber at h
  split at h
  · cases h
  · rename_i hchars
    rw [not_or] at hchars
    exact ⟨hchars.1, by simpa using hchars.2⟩

theorem readNumber_of_strtod {t : List Char} {q : ℚ} (hne : t ≠ [])
    (hall : t.all isNumberChar = true) (h : CText.strtod t = (.fin q, [])) :
    readNumber t = some q := by
  unfold readNumber
  rw [if_neg (by simp [hne, hall]), h]

theorem number_append (size : Nat) {t rest : List Char} (ht : t.all isNumberChar = true)
    (hrest : EndsNumber rest) :
    number size (t ++ rest) = match readNumber t with
      | some q => .ok (.num (.fin q), rest)
      | none => fail size "unexpected character" (t ++ rest) := by
  cases hread : readNumber t with
  | some q => rw [number, takeWhile_number ht hrest, dropWhile_number ht hrest, hread]
  | none => rw [number, takeWhile_number ht hrest, dropWhile_number ht hrest, hread]

/-- Nothing else starts as a number does. -/
theorem number_starts {c : Char} (hc : isNumberChar c = true) :
    isWs c = false ∧ c ≠ '[' ∧ c ≠ '\x7b' ∧ c ≠ '"' ∧ c ≠ 't' ∧ c ≠ 'f' ∧ c ≠ 'n' := by
  have hne : ∀ d : Char, isNumberChar d = false → c ≠ d := by
    rintro d hd rfl
    rw [hc] at hd
    cases hd
  refine ⟨?_, hne _ (by decide), hne _ (by decide), hne _ (by decide), hne _ (by decide),
    hne _ (by decide), hne _ (by decide)⟩
  have h₁ := hne ' ' (by decide)
  have h₂ := hne '\t' (by decide)
  have h₃ := hne '\n' (by decide)
  have h₄ := hne '\r' (by decide)
  simp [isWs, h₁, h₂, h₃, h₄]

theorem scalar_eq_number (size : Nat) {c : Char} (hc : isNumberChar c = true) (s : List Char) :
    scalar size (c :: s) = number size (c :: s) := by
  obtain ⟨-, -, -, hquote, ht, hf, hn⟩ := number_starts hc
  unfold scalar
  simp [hquote, Ne.symm ht, Ne.symm hf, Ne.symm hn]

theorem ws_cons {c : Char} (hc : isWs c = false) (s : List Char) : ws (c :: s) = c :: s := by
  simp [ws, hc]

section More

variable {size fuel depth more : Nat} {s rest : List Char}

theorem value_of_le {v : Json} (h : value size fuel depth s = .ok (v, rest))
    (hmore : fuelFor s.length ≤ more) : value size more depth s = .ok (v, rest) :=
  ((enough size fuel).value h).2 _ (by unfold fuelFor at hmore; omega)

theorem items_of_le {xs : List Json} (h : items size fuel depth s = .ok (xs, rest))
    (hmore : fuelFor s.length ≤ more) : items size more depth s = .ok (xs, rest) :=
  ((enough size fuel).items h).2 _ (by unfold fuelFor at hmore; omega)

theorem members_of_le {ms : List (String × Json)}
    (h : members size fuel depth s = .ok (ms, rest))
    (hmore : fuelFor s.length ≤ more) : members size more depth s = .ok (ms, rest) :=
  ((enough size fuel).members h).2 _ (by unfold fuelFor at hmore; omega)

theorem value_of_scalar {c : Char} {tail : List Char} {v : Json} (hdepth : depth < kMaxObjectWalk)
    (hc : isWs c = false ∧ c ≠ '\x7b' ∧ c ≠ '[')
    (h : scalar size (c :: tail) = .ok (v, rest)) :
    value size 1 depth (c :: tail) = .ok (v, rest) :=
  value_eq_ok_iff.mpr ⟨c, tail, ws_cons hc.1 tail, hdepth, .inr (.inr ⟨hc.2.1, hc.2.2, h⟩)⟩

theorem value_of_number {t : List Char} {q : ℚ} (hdepth : depth < kMaxObjectWalk)
    (h : readNumber t = some q) (hrest : EndsNumber rest) :
    value size 1 depth (t ++ rest) = .ok (.num (.fin q), rest) := by
  obtain ⟨hne, hall⟩ := readNumber_chars h
  have hnumber := number_append size hall hrest
  rw [h] at hnumber
  cases t with
  | nil => exact absurd rfl hne
  | cons c tail =>
      rw [List.all_cons, Bool.and_eq_true] at hall
      obtain ⟨hws, hbracket, hbrace, -⟩ := number_starts hall.1
      apply value_of_scalar hdepth ⟨hws, hbrace, hbracket⟩
      rw [scalar_eq_number size hall.1]
      exact hnumber

theorem value_of_string (hdepth : depth < kMaxObjectWalk) {str : String}
    (h : string size s = .ok (str, rest)) :
      value size 1 depth ('"' :: s) = .ok (.str str, rest) := by
  apply value_of_scalar hdepth (by decide)
  simp only [scalar, List.head?_cons, if_true, List.drop_one, List.tail_cons, h]

theorem value_of_emptyArray (hdepth : depth < kMaxObjectWalk) :
    value size 2 depth ('[' :: ']' :: rest) = .ok (.arr [], rest) := by
  refine value_eq_ok_iff.mpr ⟨'[', ']' :: rest, ws_cons (by decide) _, hdepth,
    .inr (.inl ⟨rfl, ?_⟩)⟩
  rw [ws_cons (by decide)]
  exact array_eq_ok_iff.mpr (.inl ⟨rfl, rfl, rfl⟩)

theorem ws_ws (s : List Char) : ws (ws s) = ws s := List.dropWhile_idempotent _ s

/-- White space before a value is skipped. -/
theorem value_ws_iff {v : Json} :
    value size fuel depth (ws s) = .ok (v, rest) ↔ value size fuel depth s = .ok (v, rest) := by
  cases fuel with
  | zero => simp [value, fail]
  | succ fuel => rw [value_eq_ok_iff, value_eq_ok_iff, ws_ws]

theorem items_ws_iff {xs : List Json} :
    items size fuel depth (ws s) = .ok (xs, rest) ↔ items size fuel depth s = .ok (xs, rest) := by
  cases fuel with
  | zero => simp [items, fail]
  | succ fuel =>
      rw [items_eq_ok_iff, items_eq_ok_iff]
      simp only [value_ws_iff]

/-- Items start with a value, so no closing bracket stands before them. -/
theorem head_of_items {xs : List Json} (h : items size fuel depth s = .ok (xs, rest)) :
    (ws s).head? ≠ some ']' := by
  have hmore := items_of_le h (le_refl _)
  obtain ⟨x, s₁, hvalue, -⟩ := items_eq_ok_iff.mp hmore
  obtain ⟨c, tail, hws, -, hcase⟩ := value_eq_ok_iff.mp hvalue
  rw [hws]
  intro hhead
  cases hhead
  obtain ⟨hc, -⟩ | ⟨hc, -⟩ | ⟨-, -, hscalar⟩ := hcase
  · exact absurd hc (by decide)
  · exact absurd hc (by decide)
  · cases hscalar

theorem value_of_array {xs : List Json} (hdepth : depth < kMaxObjectWalk)
    (h : items size fuel (depth + 1) s = .ok (xs, rest)) :
    value size (fuel + 2) depth ('[' :: s) = .ok (.arr xs, rest) := by
  exact value_eq_ok_iff.mpr ⟨'[', s, ws_cons (by decide) _, hdepth, .inr (.inl ⟨rfl,
    array_eq_ok_iff.mpr (.inr ⟨head_of_items h, xs, rfl, items_ws_iff.mpr h⟩)⟩)⟩

theorem value_of_object {tail : List Char} {ms : List (String × Json)}
    (hdepth : depth < kMaxObjectWalk)
    (h : members size fuel (depth + 1) ('"' :: tail) = .ok (ms, rest)) :
    value size (fuel + 2) depth ('\x7b' :: '"' :: tail) = .ok (.obj ms, rest) := by
  refine value_eq_ok_iff.mpr ⟨'\x7b', '"' :: tail, ws_cons (by decide) _, hdepth, .inl ⟨rfl, ?_⟩⟩
  rw [ws_cons (by decide)]
  refine object_eq_ok_iff.mpr (.inr ⟨?_, ms, rfl, h⟩)
  intro hhead
  cases hhead

theorem items_last {x : Json} (h : value size fuel depth s = .ok (x, ']' :: rest)) :
    items size (fuel + 1) depth s = .ok ([x], rest) :=
  items_eq_ok_iff.mpr ⟨x, ']' :: rest, h, .inr ⟨ws_cons (by decide) _, rfl⟩⟩

theorem items_next {x : Json} {xs : List Json} {tail : List Char} {fuel' : Nat}
    (h : value size fuel depth s = .ok (x, ',' :: tail))
    (htail : items size fuel' depth tail = .ok (xs, rest)) :
    ∃ more, items size more depth s = .ok (x :: xs, rest) := by
  refine ⟨max (fuelFor s.length) (fuelFor tail.length) + 1, items_eq_ok_iff.mpr ⟨x, ',' :: tail,
    value_of_le h (le_max_left _ _), .inl ⟨tail, xs, ws_cons (by decide) _,
      items_of_le htail (le_max_right _ _), rfl⟩⟩⟩

theorem members_last {k : String} {v : Json}
    (h : value size fuel depth s = .ok (v, '\x7d' :: rest)) :
    members size (fuel + 1) depth ('"' :: (k.toList.flatMap escape ++ '"' :: ':' :: s)) =
      .ok ([(k, v)], rest) :=
  members_eq_ok_iff.mpr ⟨_, k, ':' :: s, s, v, '\x7d' :: rest, ws_cons (by decide) _,
    string_flatMap size k _, ws_cons (by decide) _, h, .inr ⟨ws_cons (by decide) _, rfl⟩⟩

theorem members_next {k : String} {v : Json} {ms : List (String × Json)} {tail : List Char}
    {fuel' : Nat} (h : value size fuel depth s = .ok (v, ',' :: tail))
    (htail : members size fuel' depth tail = .ok (ms, rest)) :
    ∃ more, members size more depth ('"' :: (k.toList.flatMap escape ++ '"' :: ':' :: s)) =
      .ok ((k, v) :: ms, rest) := by
  refine ⟨max (fuelFor s.length) (fuelFor tail.length) + 1, members_eq_ok_iff.mpr ⟨_, k, ':' :: s,
    s, v, ',' :: tail, ws_cons (by decide) _, string_flatMap size k _, ws_cons (by decide) _,
    value_of_le h (le_max_left _ _), .inl ⟨tail, ms, ws_cons (by decide) _,
      members_of_le htail (le_max_right _ _), rfl⟩⟩⟩

end More

theorem toList_commaJoin_cons (s t : String) (ts : List String) :
    (commaJoin (s :: t :: ts)).toList = s.toList ++ ',' :: (commaJoin (t :: ts)).toList := by
  simp [commaJoin]

section Reread

variable (env : Scripting)

mutual

/-- A value with its numbers as they are read from their texts. -/
def reread : Json → Option Json
  | .num d => (readNumber (numText env d).toList).map fun q => .num (.fin q)
  | .arr xs => (rereadItems xs).map .arr
  | .obj ms => (rereadMembers ms).map .obj
  | j => some j

def rereadItems : List Json → Option (List Json)
  | [] => some []
  | x :: xs => (reread x).bind fun y => (rereadItems xs).map (y :: ·)

def rereadMembers : List (String × Json) → Option (List (String × Json))
  | [] => some []
  | (k, v) :: ms => (reread v).bind fun w => (rereadMembers ms).map ((k, w) :: ·)

end

theorem toList_jsonText_str (s : String) (rest : List Char) :
    (jsonText env (.str s)).toList ++ rest = '"' :: (s.toList.flatMap escape ++ '"' :: rest) := by
  simp [jsonText, jsonStr]

theorem toList_jsonText_arr (xs : List Json) (rest : List Char) :
    (jsonText env (.arr xs)).toList ++ rest =
      '[' :: ((commaJoin (itemTexts env xs)).toList ++ ']' :: rest) := by
  simp [jsonText]

theorem toList_jsonText_obj (ms : List (String × Json)) (rest : List Char) :
    (jsonText env (.obj ms)).toList ++ rest =
      '\x7b' :: ((commaJoin (memberTexts env ms)).toList ++ '\x7d' :: rest) := by
  simp [jsonText]

variable {env}

variable {size : Nat}

theorem value_str (s : String) {depth : Nat} (hdepth : depth < kMaxObjectWalk)
    (rest : List Char) :
    value size 1 depth ((jsonText env (.str s)).toList ++ rest) = .ok (.str s, rest) := by
  rw [toList_jsonText_str]
  exact value_of_string hdepth (string_flatMap size s rest)

theorem value_bool (b : Bool) {depth : Nat} (hdepth : depth < kMaxObjectWalk)
    (rest : List Char) :
    value size 1 depth ((jsonText env (.bool b)).toList ++ rest) = .ok (.bool b, rest) := by
  cases b with
  | false =>
      have htext : (jsonText env (.bool false)).toList = ['f', 'a', 'l', 's', 'e'] := by
        simp [jsonText, Json.text]
      rw [htext]
      exact value_of_scalar hdepth (by decide) rfl
  | true =>
      have htext : (jsonText env (.bool true)).toList = ['t', 'r', 'u', 'e'] := by
        simp [jsonText, Json.text]
      rw [htext]
      exact value_of_scalar hdepth (by decide) rfl

theorem value_null {depth : Nat} (hdepth : depth < kMaxObjectWalk) (rest : List Char) :
    value size 1 depth ((jsonText env .null).toList ++ rest) = .ok (.null, rest) := by
  have htext : (jsonText env .null).toList = ['n', 'u', 'l', 'l'] := by simp [jsonText]
  rw [htext]
  exact value_of_scalar hdepth (by decide) rfl

theorem toList_memberTexts (k : String) (v : Json) (ms : List (String × Json))
    (rest : List Char) :
    (commaJoin (memberTexts env ((k, v) :: ms))).toList ++ rest =
      '"' :: (k.toList.flatMap escape ++ '"' :: ':' :: ((jsonText env v).toList ++
        (if ms = [] then rest else ',' :: ((commaJoin (memberTexts env ms)).toList ++ rest)))) := by
  cases ms with
  | nil => simp [memberTexts, commaJoin, jsonStr]
  | cons m ms =>
      obtain ⟨k', v'⟩ := m
      rw [if_neg (List.cons_ne_nil _ _), memberTexts, memberTexts, toList_commaJoin_cons]
      simp [jsonStr]

theorem toList_itemTexts (x : Json) (xs : List Json) (rest : List Char) :
    (commaJoin (itemTexts env (x :: xs))).toList ++ rest =
      (jsonText env x).toList ++
        (if xs = [] then rest else ',' :: ((commaJoin (itemTexts env xs)).toList ++ rest)) := by
  cases xs with
  | nil => simp [itemTexts, commaJoin]
  | cons y ys =>
      rw [if_neg (List.cons_ne_nil _ _), itemTexts, itemTexts, toList_commaJoin_cons]
      simp

theorem value_empty {depth : Nat} (hdepth : depth < kMaxObjectWalk) (rest : List Char) :
    value size 2 depth ((jsonText env (.obj [])).toList ++ rest) = .ok (.obj [], rest) := by
  rw [toList_jsonText_obj]
  refine value_eq_ok_iff.mpr ⟨'\x7b', '\x7d' :: rest, ws_cons (by decide) _, hdepth,
    .inl ⟨rfl, ?_⟩⟩
  rw [ws_cons (by decide)]
  exact object_eq_ok_iff.mpr (.inl ⟨rfl, rfl, rfl⟩)

theorem value_of_members {fuel depth : Nat} {ms ns : List (String × Json)} {rest : List Char}
    (hdepth : depth < kMaxObjectWalk) (hne : ms ≠ [])
    (h : members size fuel (depth + 1)
      ((commaJoin (memberTexts env ms)).toList ++ '\x7d' :: rest) = .ok (ns, rest)) :
    value size (fuel + 2) depth ((jsonText env (.obj ms)).toList ++ rest) =
      .ok (.obj ns, rest) := by
  obtain ⟨⟨k, v⟩, ms, rfl⟩ := List.exists_cons_of_ne_nil hne
  rw [toList_jsonText_obj]
  rw [toList_memberTexts] at h ⊢
  exact value_of_object hdepth h

-- The text of a value is read, whatever follows that is not part of a number.

mutual

/-- The text of a value is read back as the value. -/
theorem value_jsonText (v : Json) {w : Json} {depth : Nat} {rest : List Char}
    (hfits : fits depth v) (h : reread env v = some w) (hrest : EndsNumber rest) :
    ∃ fuel, value size fuel depth ((jsonText env v).toList ++ rest) = .ok (w, rest) := by
  match v with
  | .null =>
      cases h
      exact ⟨1, value_null hfits rest⟩
  | .bool b =>
      cases h
      exact ⟨1, value_bool b hfits rest⟩
  | .num d =>
      obtain ⟨q, hq, rfl⟩ := Option.map_eq_some_iff.mp h
      exact ⟨1, value_of_number hfits hq hrest⟩
  | .str s =>
      cases h
      exact ⟨1, value_str s hfits rest⟩
  | .arr xs =>
      obtain ⟨ys, hys, rfl⟩ := Option.map_eq_some_iff.mp h
      obtain rfl | hne := eq_or_ne xs []
      · cases hys
        rw [toList_jsonText_arr]
        exact ⟨2, value_of_emptyArray hfits.1⟩
      · obtain ⟨fuel, hitems⟩ := items_jsonText xs hne hfits.2 hys rest
        rw [toList_jsonText_arr]
        exact ⟨_, value_of_array hfits.1 hitems⟩
  | .obj ms =>
      obtain ⟨ns, hns, rfl⟩ := Option.map_eq_some_iff.mp h
      obtain rfl | hne := eq_or_ne ms []
      · cases hns
        exact ⟨2, value_empty hfits.1 rest⟩
      · obtain ⟨fuel, hmembers⟩ := members_jsonText ms hne hfits.2 hns rest
        exact ⟨_, value_of_members hfits.1 hne hmembers⟩
termination_by structural v

/-- The text of a list of items is read back. -/
theorem items_jsonText (xs : List Json) {ys : List Json} {depth : Nat} (hne : xs ≠ [])
    (hfits : itemsFit depth xs) (h : rereadItems env xs = some ys) (rest : List Char) :
    ∃ fuel, items size fuel depth ((commaJoin (itemTexts env xs)).toList ++ ']' :: rest) =
      .ok (ys, rest) := by
  match xs with
  | [] => exact absurd rfl hne
  | x :: xs =>
      obtain ⟨y, hy, htail⟩ := Option.bind_eq_some_iff.mp h
      obtain ⟨ys', hys, rfl⟩ := Option.map_eq_some_iff.mp htail
      rw [toList_itemTexts]
      split
      · rename_i hnil
        rw [hnil] at hys
        cases hys
        obtain ⟨fuel, hvalue⟩ := value_jsonText x hfits.1 hy (endsNumber_cons (c := ']') rfl rest)
        exact ⟨fuel + 1, items_last hvalue⟩
      · rename_i hmore
        obtain ⟨fuel', hitems⟩ := items_jsonText xs hmore hfits.2 hys rest
        obtain ⟨fuel, hvalue⟩ := value_jsonText x hfits.1 hy (endsNumber_cons (c := ',') rfl _)
        exact items_next hvalue hitems
termination_by structural xs

/-- The text of a list of members is read back. -/
theorem members_jsonText (ms : List (String × Json)) {ns : List (String × Json)} {depth : Nat}
    (hne : ms ≠ []) (hfits : membersFit depth ms) (h : rereadMembers env ms = some ns)
    (rest : List Char) :
    ∃ fuel, members size fuel depth
      ((commaJoin (memberTexts env ms)).toList ++ '\x7d' :: rest) = .ok (ns, rest) := by
  match ms with
  | [] => exact absurd rfl hne
  | (k, v) :: ms =>
      obtain ⟨w, hw, htail⟩ := Option.bind_eq_some_iff.mp h
      obtain ⟨ns', hns, rfl⟩ := Option.map_eq_some_iff.mp htail
      rw [toList_memberTexts]
      split
      · rename_i hnil
        rw [hnil] at hns
        cases hns
        obtain ⟨fuel, hvalue⟩ := value_jsonText v hfits.1 hw
          (endsNumber_cons (c := '\x7d') rfl rest)
        exact ⟨fuel + 1, members_last hvalue⟩
      · rename_i hmore
        obtain ⟨fuel', hmembers⟩ := members_jsonText ms hmore hfits.2 hns rest
        obtain ⟨fuel, hvalue⟩ := value_jsonText v hfits.1 hw (endsNumber_cons (c := ',') rfl _)
        exact members_next hvalue hmembers
termination_by structural ms

end

/-- A value is read back as a whole text, with its numbers as they were printed. -/
theorem parseJson_of_reread {v w : Json} (hfits : fits 0 v) (h : reread env v = some w) :
    parseJson (jsonText env v) = .ok w := by
  have hend : EndsNumber [] := by
    intro c hc
    cases hc
  obtain ⟨fuel, hvalue⟩ := value_jsonText v hfits h hend
  rw [List.append_nil] at hvalue
  exact parseJson_eq_ok_iff.mpr ⟨fuel, [], hvalue, rfl⟩

end Reread

/-- A whole text that is a number. -/
def numeric (v : String) : Bool :=
  v ≠ "" && !(v.toList.any fun c => "xXnNiI".toList.contains c) &&
    (CText.strtod (cstr v.toList)).2.isEmpty

/-- The numbers of the C library, with some engine for scripts. -/
def cLibrary (evalScript : String → String → VarMap → String → Except String (String × VarMap)) :
    Scripting where
  realText d := String.ofList (gText d)
  wholeNumber v := if numeric v then some (CText.strtod (cstr v.toList)).1 else none
  evalScript := evalScript

theorem isNumberChar_of_isDigit {c : Char} (hc : c.isDigit = true) : isNumberChar c = true := by
  simp [isNumberChar, hc]

theorem all_toDigits (n : Nat) : (Nat.toDigits 10 n).all isNumberChar = true := by
  rw [List.all_eq_true]
  intro c hc
  exact isNumberChar_of_isDigit (Nat.isDigit_of_mem_toDigits (by decide) (by decide) hc)

theorem all_fraction {ds : List Char} (hds : ds.all isNumberChar = true) :
    (fraction ds).all isNumberChar = true := by
  unfold fraction
  split
  · rfl
  · rw [List.all_cons, Bool.and_eq_true]
    refine ⟨rfl, ?_⟩
    rw [List.all_eq_true] at hds ⊢
    intro c hc
    rw [List.mem_reverse] at hc
    exact hds c (List.mem_reverse.mp (List.dropWhile_subset _ hc))

theorem all_twoDigits (n : Nat) : (twoDigits n).all isNumberChar = true := by
  unfold twoDigits
  split
  · rw [List.all_cons, all_toDigits]
    rfl
  · exact all_toDigits n

theorem all_take {ds : List Char} (hds : ds.all isNumberChar = true) (k : Nat) :
    (ds.take k).all isNumberChar = true := by
  rw [List.all_eq_true] at hds ⊢
  intro c hc
  exact hds c (List.mem_of_mem_take hc)

theorem all_drop {ds : List Char} (hds : ds.all isNumberChar = true) (k : Nat) :
    (ds.drop k).all isNumberChar = true := by
  rw [List.all_eq_true] at hds ⊢
  intro c hc
  exact hds c (List.mem_of_mem_drop hc)

theorem take_toDigits_ne_nil (n k : Nat) : (Nat.toDigits 10 n).take (k + 1) ≠ [] := by
  rw [Ne, List.take_eq_nil_iff, not_or]
  exact ⟨Nat.succ_ne_zero k, Nat.toDigits_ne_nil⟩

/-- The text of a number is not empty and has number characters only. -/
theorem positiveText_chars (q : ℚ) :
    positiveText q ≠ [] ∧ (positiveText q).all isNumberChar = true := by
  unfold positiveText
  generalize significant q = me
  obtain ⟨m, e⟩ := me
  dsimp only
  have hds := all_toDigits m
  split
  · refine ⟨List.append_ne_nil_of_left_ne_nil (take_toDigits_ne_nil m _) _, ?_⟩
    rw [List.all_append, all_take hds, all_fraction (all_drop hds _)]
    rfl
  · split
    · refine ⟨List.cons_ne_nil _ _, ?_⟩
      rw [List.all_cons, all_fraction]
      · rfl
      · rw [List.all_append, hds, Bool.and_true, List.all_replicate]
        simp [isNumberChar]
    · refine ⟨?_, ?_⟩
      · rw [List.append_assoc, List.append_assoc]
        exact List.append_ne_nil_of_left_ne_nil (take_toDigits_ne_nil m 0) _
      · have hsign : isNumberChar (if e < 0 then '-' else '+') = true := by
          split
          · rfl
          · rfl
        simp only [List.all_append, List.all_cons, List.all_nil, all_take hds,
          all_fraction (all_drop hds _), all_twoDigits, hsign]
        rfl

section Library

variable (evalScript : String → String → VarMap → String → Except String (String × VarMap))

/-- The text of a finite number has only characters of numbers. -/
theorem numText_chars (q : ℚ) : (numText (cLibrary evalScript) (.fin q)).toList ≠ [] ∧
    (numText (cLibrary evalScript) (.fin q)).toList.all isNumberChar = true := by
  unfold numText
  dsimp only
  split
  · rw [String.toList_ofList]
    refine ⟨List.append_ne_nil_of_right_ne_nil _ Nat.toDigits_ne_nil, ?_⟩
    rw [List.all_append, all_toDigits]
    split
    · rfl
    · rfl
  · rw [cLibrary, String.toList_ofList, gText]
    split
    · exact ⟨by decide, rfl⟩
    · split
      · refine ⟨List.cons_ne_nil _ _, ?_⟩
        rw [List.all_cons, (positiveText_chars _).2]
        rfl
      · exact positiveText_chars q

/-- A number is finite and is the value of its text. -/
def PrintsExactly (d : Double) : Prop :=
  ∃ q, d = .fin q ∧ CText.strtod (numText (cLibrary evalScript) d).toList = (d, [])

theorem readNumber_of_exact {q : ℚ} (h : PrintsExactly evalScript (.fin q)) :
    readNumber (numText (cLibrary evalScript) (.fin q)).toList = some q := by
  obtain ⟨-, -, hread⟩ := h
  obtain ⟨hne, hall⟩ := numText_chars evalScript q
  exact readNumber_of_strtod hne hall hread

mutual

/-- All numbers of a value print exactly. -/
def ExactNumbers : Json → Prop
  | .num d => PrintsExactly evalScript d
  | .arr xs => ExactItems xs
  | .obj ms => ExactMembers ms
  | _ => True

def ExactItems : List Json → Prop
  | [] => True
  | x :: xs => ExactNumbers x ∧ ExactItems xs

def ExactMembers : List (String × Json) → Prop
  | [] => True
  | (_, v) :: ms => ExactNumbers v ∧ ExactMembers ms

end

mutual

theorem reread_of_exact (v : Json) (h : ExactNumbers evalScript v) :
    reread (cLibrary evalScript) v = some v := by
  match v with
  | .null => rfl
  | .bool b => rfl
  | .num d =>
      obtain ⟨q, rfl, hread⟩ := id h
      rw [reread, readNumber_of_exact evalScript h]
      rfl
  | .str s => rfl
  | .arr xs =>
      rw [reread, rereadItems_of_exact xs h]
      rfl
  | .obj ms =>
      rw [reread, rereadMembers_of_exact ms h]
      rfl
termination_by structural v

theorem rereadItems_of_exact (xs : List Json) (h : ExactItems evalScript xs) :
    rereadItems (cLibrary evalScript) xs = some xs := by
  match xs with
  | [] => rfl
  | x :: xs =>
      rw [rereadItems, reread_of_exact x h.1, rereadItems_of_exact xs h.2]
      rfl
termination_by structural xs

theorem rereadMembers_of_exact (ms : List (String × Json)) (h : ExactMembers evalScript ms) :
    rereadMembers (cLibrary evalScript) ms = some ms := by
  match ms with
  | [] => rfl
  | (k, v) :: ms =>
      rw [rereadMembers, reread_of_exact v h.1, rereadMembers_of_exact ms h.2]
      rfl
termination_by structural ms

end

/-- A value that was read, and whose numbers print exactly, is read back from its text. -/
theorem parseJson_jsonText {text : String} {v : Json} (h : parseJson text = .ok v)
    (hexact : ExactNumbers evalScript v) :
    parseJson (jsonText (cLibrary evalScript) v) = .ok v :=
  parseJson_of_reread (fits_of_parseJson h) (reread_of_exact evalScript v hexact)

theorem nestedList_trip : parseJson (jsonText (cLibrary fun _ _ _ _ => .error "none")
      (.arr [.num (.fin (-5 / 2)), .str "A\x00é", .obj [("k", .bool true), ("k", .null)]])) =
    .ok (.arr [.num (.fin (-5 / 2)), .str "A\x00é", .obj [("k", .bool true), ("k", .null)]]) := by
  have hread : parseJson "[ -2.50, \"\\u0041\\u0000é\", \x7b\"k\":true,\"k\" : null\x7d ]" =
      .ok (.arr [.num (.fin (-5 / 2)), .str "A\x00é", .obj [("k", .bool true), ("k", .null)]]) :=
    parseJson_of_readsAs (by decide +kernel)
  exact parseJson_jsonText _ hread ⟨⟨_, rfl, by decide +kernel⟩, trivial,
    ⟨trivial, trivial, trivial⟩,
    trivial⟩

end Library

end Kura.Engine.JsonReader
