import Mathlib

/-!
# The grammar of JSON texts

Which texts are JSON values, and how many objects stand directly in an array.

The grammar is that of the standard, with white space between tokens. A scan
that only knows strings and nesting counts the objects at the first level; two
readings of one text as an array of objects have the same number of them.
-/

namespace Kura.Base.JsonGrammar

/-- White space. -/
def Blank (s : List Char) : Prop := ∀ c ∈ s, c = ' ' ∨ c = '\t' ∨ c = '\n' ∨ c = '\r'

def IsHex (c : Char) : Prop :=
  ('0' ≤ c ∧ c ≤ '9') ∨ ('a' ≤ c ∧ c ≤ 'f') ∨ ('A' ≤ c ∧ c ≤ 'F')

/-- What stands between the quotes of a string. -/
inductive StringBody : List Char → Prop
  | nil : StringBody []
  | char {c : Char} {s : List Char} (hlow : 0x20 ≤ c.toNat) (hquote : c ≠ '"') (hslash : c ≠ '\\')
      (rest : StringBody s) : StringBody (c :: s)
  | escape {c : Char} {s : List Char} (hc : c ∈ ['"', '\\', '/', 'b', 'f', 'n', 'r', 't'])
      (rest : StringBody s) : StringBody ('\\' :: c :: s)
  | unicode {a b c d : Char} {s : List Char} (ha : IsHex a) (hb : IsHex b) (hc : IsHex c)
      (hd : IsHex d) (rest : StringBody s) : StringBody ('\\' :: 'u' :: a :: b :: c :: d :: s)

/-- A string. -/
def Quoted (s : List Char) : Prop := ∃ body, StringBody body ∧ s = '"' :: body ++ ['"']

def Digits (s : List Char) : Prop := s ≠ [] ∧ ∀ c ∈ s, c.isDigit = true

/-- The digits before the point: zero, or digits that do not start with it. -/
def Whole (s : List Char) : Prop := s = ['0'] ∨ (Digits s ∧ s.head? ≠ some '0')

/-- A number. -/
def Number (s : List Char) : Prop :=
  ∃ sign whole frac exp, s = sign ++ whole ++ frac ++ exp ∧ (sign = [] ∨ sign = ['-']) ∧
    Whole whole ∧ (frac = [] ∨ ∃ ds, Digits ds ∧ frac = '.' :: ds) ∧
    (exp = [] ∨ ∃ e m ds, (e = 'e' ∨ e = 'E') ∧ (m = [] ∨ m = ['+'] ∨ m = ['-']) ∧ Digits ds ∧
      exp = e :: m ++ ds)

mutual

/-- A value. -/
inductive Value : List Char → Prop
  | null : Value ['n', 'u', 'l', 'l']
  | true : Value ['t', 'r', 'u', 'e']
  | false : Value ['f', 'a', 'l', 's', 'e']
  | num {s : List Char} (h : Number s) : Value s
  | str {s : List Char} (h : Quoted s) : Value s
  | arr {s : List Char} (h : Items s) : Value ('[' :: s ++ [']'])
  | obj {s : List Char} (h : Members s) : Value ('{' :: s ++ ['}'])

/-- What stands between the brackets of an array. -/
inductive Items : List Char → Prop
  | none {a : List Char} (ha : Blank a) : Items a
  | some {s : List Char} (hs : MoreItems s) : Items s

/-- One item or more. -/
inductive MoreItems : List Char → Prop
  | one {a v b : List Char} (ha : Blank a) (hv : Value v) (hb : Blank b) : MoreItems (a ++ v ++ b)
  | more {a v b s : List Char} (ha : Blank a) (hv : Value v) (hb : Blank b) (hs : MoreItems s) :
      MoreItems (a ++ v ++ b ++ ',' :: s)

/-- What stands between the braces of an object. -/
inductive Members : List Char → Prop
  | none {a : List Char} (ha : Blank a) : Members a
  | some {s : List Char} (hs : MoreMembers s) : Members s

/-- One member or more. -/
inductive MoreMembers : List Char → Prop
  | one {a k b c v d : List Char} (ha : Blank a) (hk : Quoted k) (hb : Blank b) (hc : Blank c)
      (hv : Value v) (hd : Blank d) : MoreMembers (a ++ k ++ b ++ ':' :: c ++ v ++ d)
  | more {a k b c v d s : List Char} (ha : Blank a) (hk : Quoted k) (hb : Blank b) (hc : Blank c)
      (hv : Value v) (hd : Blank d) (hs : MoreMembers s) :
      MoreMembers (a ++ k ++ b ++ ':' :: c ++ v ++ d ++ ',' :: s)

end

/-- An object. -/
def Object (s : List Char) : Prop := ∃ body, Members body ∧ s = '{' :: body ++ ['}']

/-- The items of an array, one for each element of a list and as told by it. -/
inductive ItemsFor {α : Type*} (P : α → List Char → Prop) : List α → List Char → Prop
  | nil {a : List Char} (ha : Blank a) : ItemsFor P [] a
  | one {x : α} {a v b : List Char} (ha : Blank a) (hv : P x v) (hb : Blank b) :
      ItemsFor P [x] (a ++ v ++ b)
  | more {x y : α} {xs : List α} {a v b s : List Char} (ha : Blank a) (hv : P x v) (hb : Blank b)
      (hs : ItemsFor P (y :: xs) s) : ItemsFor P (x :: y :: xs) (a ++ v ++ b ++ ',' :: s)

/-- An array with one object for each element of a list. -/
def ArrayFor {α : Type*} (P : α → List Char → Prop) (xs : List α) (s : List Char) : Prop :=
  ∃ body, ItemsFor P xs body ∧ s = '[' :: body ++ [']']

/-- Where a scan stands. -/
inductive Mode where
  | out
  | string
  | escaped

/-- The objects at the first level so far, the nesting and the place. -/
structure Scan where
  count : Nat
  depth : Nat
  mode : Mode

/-- One character more. -/
def Scan.step (st : Scan) (c : Char) : Scan :=
  match st.mode with
  | .escaped => { st with mode := .string }
  | .string =>
      if c = '"' then { st with mode := .out }
      else if c = '\\' then { st with mode := .escaped }
      else st
  | .out =>
      if c = '"' then { st with mode := .string }
      else if c = '{' then ⟨if st.depth = 1 then st.count + 1 else st.count, st.depth + 1, .out⟩
      else if c = '[' then { st with depth := st.depth + 1 }
      else if c = '}' ∨ c = ']' then { st with depth := st.depth - 1 }
      else st

/-- Characters that a scan outside of strings passes over. -/
def Plain (s : List Char) : Prop := ∀ c ∈ s, c ∉ ['"', '{', '[', '}', ']']

theorem scan_plain {s : List Char} (h : Plain s) (n d : Nat) :
    s.foldl Scan.step ⟨n, d, .out⟩ = ⟨n, d, .out⟩ := by
  induction s with
  | nil => rfl
  | cons c s ih =>
      have hc := h c List.mem_cons_self
      simp only [List.mem_cons, List.not_mem_nil, or_false, not_or] at hc
      have hstep : Scan.step ⟨n, d, .out⟩ c = ⟨n, d, .out⟩ := by
        simp [Scan.step, hc]
      rw [List.foldl_cons, hstep]
      exact ih fun c' hc' => h c' (List.mem_cons_of_mem _ hc')

theorem plain_of_blank {s : List Char} (h : Blank s) : Plain s := by
  intro c hc
  obtain rfl | rfl | rfl | rfl := h c hc
  · decide
  · decide
  · decide
  · decide

theorem plain_of_digits {s : List Char} (h : ∀ c ∈ s, c.isDigit = true) : Plain s := by
  intro c hc hmem
  have hdigit := h c hc
  simp only [List.mem_cons, List.not_mem_nil, or_false] at hmem
  obtain rfl | rfl | rfl | rfl | rfl := hmem
  · exact absurd hdigit (by decide)
  · exact absurd hdigit (by decide)
  · exact absurd hdigit (by decide)
  · exact absurd hdigit (by decide)
  · exact absurd hdigit (by decide)

theorem Plain.append {s t : List Char} (hs : Plain s) (ht : Plain t) : Plain (s ++ t) := by
  intro c hc
  obtain h | h := List.mem_append.mp hc
  · exact hs c h
  · exact ht c h

/-- A number has no quote, bracket or brace. -/
theorem plain_of_number {s : List Char} (h : Number s) : Plain s := by
  obtain ⟨sign, whole, frac, exp, rfl, hsign, hwhole, hfrac, hexp⟩ := h
  have hminus : Plain ['-'] := by
    intro c hc
    rw [List.mem_singleton.mp hc]
    decide
  refine ((Plain.append ?_ ?_).append ?_).append ?_
  · obtain rfl | rfl := hsign
    · exact fun c hc => by cases hc
    · exact hminus
  · obtain rfl | ⟨hdigits, -⟩ := hwhole
    · exact plain_of_digits (fun c hc => by
        rw [List.mem_singleton.mp hc]
        rfl)
    · exact plain_of_digits hdigits.2
  · obtain rfl | ⟨ds, hdigits, rfl⟩ := hfrac
    · exact fun c hc => by cases hc
    · exact Plain.append (s := ['.']) (fun c hc => by
        rw [List.mem_singleton.mp hc]
        decide) (plain_of_digits hdigits.2)
  · obtain rfl | ⟨e, m, ds, he, hm, hdigits, rfl⟩ := hexp
    · exact fun c hc => by cases hc
    · refine Plain.append (s := e :: m) ?_ (plain_of_digits hdigits.2)
      refine Plain.append (s := [e]) ?_ ?_
      · intro c hc
        rw [List.mem_singleton.mp hc]
        obtain rfl | rfl := he
        · decide
        · decide
      · obtain rfl | rfl | rfl := hm
        · exact fun c hc => by cases hc
        · intro c hc
          rw [List.mem_singleton.mp hc]
          decide
        · exact hminus

/-- A scan of a string comes back to where it was. -/
theorem scan_body {s : List Char} (h : StringBody s) (n d : Nat) :
    s.foldl Scan.step ⟨n, d, .string⟩ = ⟨n, d, .string⟩ := by
  induction h with
  | nil => rfl
  | @char c s hlow hquote hslash rest ih =>
      have hstep : Scan.step ⟨n, d, .string⟩ c = ⟨n, d, .string⟩ := by
        simp [Scan.step, hquote, hslash]
      rw [List.foldl_cons, hstep, ih]
  | escape hc rest ih =>
      rw [List.foldl_cons, List.foldl_cons]
      exact ih
  | @unicode a b c e s ha hb hc he rest ih =>
      have hhex : ∀ x, IsHex x → Scan.step ⟨n, d, .string⟩ x = ⟨n, d, .string⟩ := by
        intro x hx
        have hquote : x ≠ '"' := by
          rintro rfl
          exact absurd hx (by unfold IsHex; decide)
        have hslash : x ≠ '\\' := by
          rintro rfl
          exact absurd hx (by unfold IsHex; decide)
        simp [Scan.step, hquote, hslash]
      have hunicode : Scan.step (Scan.step ⟨n, d, .string⟩ '\\') 'u' = ⟨n, d, .string⟩ := rfl
      simp only [List.foldl_cons]
      rw [hunicode, hhex a ha, hhex b hb, hhex c hc, hhex e he, ih]

theorem scan_quoted {s : List Char} (h : Quoted s) (n d : Nat) :
    s.foldl Scan.step ⟨n, d, .out⟩ = ⟨n, d, .out⟩ := by
  obtain ⟨body, hbody, rfl⟩ := h
  have hopen : Scan.step ⟨n, d, .out⟩ '"' = ⟨n, d, .string⟩ := rfl
  rw [List.cons_append, List.foldl_cons, hopen, List.foldl_append, scan_body hbody]
  rfl

mutual

/-- Below the first level a scan of a value counts nothing. -/
theorem scan_value {s : List Char} (h : Value s) (n d : Nat) (hd : 2 ≤ d) :
    s.foldl Scan.step ⟨n, d, .out⟩ = ⟨n, d, .out⟩ := by
  have hdeep : ¬ d = 1 := by omega
  match h with
  | .null => rfl
  | .true => rfl
  | .false => rfl
  | .num hnum => exact scan_plain (plain_of_number hnum) n d
  | .str hstr => exact scan_quoted hstr n d
  | .arr hitems =>
      have hopen : Scan.step ⟨n, d, .out⟩ '[' = ⟨n, d + 1, .out⟩ := rfl
      rw [List.cons_append, List.foldl_cons, hopen, List.foldl_append,
        scan_items hitems n (d + 1) (by omega)]
      rfl
  | .obj hmembers =>
      have hopen : Scan.step ⟨n, d, .out⟩ '{' = ⟨n, d + 1, .out⟩ := by
        simp [Scan.step, hdeep]
      rw [List.cons_append, List.foldl_cons, hopen, List.foldl_append,
        scan_members hmembers n (d + 1) (by omega)]
      rfl

theorem scan_items {s : List Char} (h : Items s) (n d : Nat) (hd : 2 ≤ d) :
    s.foldl Scan.step ⟨n, d, .out⟩ = ⟨n, d, .out⟩ := by
  match h with
  | .none ha => exact scan_plain (plain_of_blank ha) n d
  | .some hs => exact scan_moreItems hs n d hd

theorem scan_moreItems {s : List Char} (h : MoreItems s) (n d : Nat) (hd : 2 ≤ d) :
    s.foldl Scan.step ⟨n, d, .out⟩ = ⟨n, d, .out⟩ := by
  match h with
  | .one ha hv hb =>
      rw [List.foldl_append, List.foldl_append, scan_plain (plain_of_blank ha),
        scan_value hv n d hd, scan_plain (plain_of_blank hb)]
  | .more ha hv hb hs =>
      have hcomma : Scan.step ⟨n, d, .out⟩ ',' = ⟨n, d, .out⟩ := rfl
      rw [List.foldl_append, List.foldl_append, List.foldl_append,
        scan_plain (plain_of_blank ha), scan_value hv n d hd, scan_plain (plain_of_blank hb),
        List.foldl_cons, hcomma, scan_moreItems hs n d hd]

theorem scan_members {s : List Char} (h : Members s) (n d : Nat) (hd : 2 ≤ d) :
    s.foldl Scan.step ⟨n, d, .out⟩ = ⟨n, d, .out⟩ := by
  match h with
  | .none ha => exact scan_plain (plain_of_blank ha) n d
  | .some hs => exact scan_moreMembers hs n d hd

theorem scan_moreMembers {s : List Char} (h : MoreMembers s) (n d : Nat) (hd : 2 ≤ d) :
    s.foldl Scan.step ⟨n, d, .out⟩ = ⟨n, d, .out⟩ := by
  have hcolon : Scan.step ⟨n, d, .out⟩ ':' = ⟨n, d, .out⟩ := rfl
  match h with
  | .one ha hk hb hc hv he =>
      simp only [List.foldl_append, List.foldl_cons]
      rw [scan_plain (plain_of_blank ha), scan_quoted hk, scan_plain (plain_of_blank hb), hcolon,
        scan_plain (plain_of_blank hc), scan_value hv n d hd, scan_plain (plain_of_blank he)]
  | .more ha hk hb hc hv he hs =>
      have hcomma : Scan.step ⟨n, d, .out⟩ ',' = ⟨n, d, .out⟩ := rfl
      simp only [List.foldl_append, List.foldl_cons]
      rw [scan_plain (plain_of_blank ha), scan_quoted hk, scan_plain (plain_of_blank hb), hcolon,
        scan_plain (plain_of_blank hc), scan_value hv n d hd, scan_plain (plain_of_blank he),
        hcomma, scan_moreMembers hs n d hd]

end

/-- An object at the first level is counted. -/
theorem scan_object {s : List Char} (h : Object s) (n : Nat) :
    s.foldl Scan.step ⟨n, 1, .out⟩ = ⟨n + 1, 1, .out⟩ := by
  obtain ⟨body, hbody, rfl⟩ := h
  have hopen : Scan.step ⟨n, 1, .out⟩ '{' = ⟨n + 1, 2, .out⟩ := rfl
  rw [List.cons_append, List.foldl_cons, hopen, List.foldl_append,
    scan_members hbody (n + 1) 2 (le_refl 2)]
  rfl

/-- A list of objects, scanned at depth one, counts one object for each item. -/
theorem scan_itemsFor {α : Type*} {P : α → List Char → Prop} (hP : ∀ x s, P x s → Object s)
    {xs : List α} {s : List Char} (h : ItemsFor P xs s) (n : Nat) :
    s.foldl Scan.step ⟨n, 1, .out⟩ = ⟨n + xs.length, 1, .out⟩ := by
  induction h generalizing n with
  | nil ha => exact scan_plain (plain_of_blank ha) n 1
  | one ha hv hb =>
      rw [List.foldl_append, List.foldl_append, scan_plain (plain_of_blank ha),
        scan_object (hP _ _ hv), scan_plain (plain_of_blank hb)]
      rfl
  | more ha hv hb hs ih =>
      have hcomma : ∀ k, Scan.step ⟨k, 1, .out⟩ ',' = ⟨k, 1, .out⟩ := fun _ => rfl
      rw [List.foldl_append, List.foldl_append, List.foldl_append,
        scan_plain (plain_of_blank ha), scan_object (hP _ _ hv), scan_plain (plain_of_blank hb),
        List.foldl_cons, hcomma, ih]
      congr 1
      simp only [List.length_cons]
      omega

/-- The scan of an array of objects tells how many there are. -/
theorem scan_arrayFor {α : Type*} {P : α → List Char → Prop} (hP : ∀ x s, P x s → Object s)
    {xs : List α} {s : List Char} (h : ArrayFor P xs s) :
    s.foldl Scan.step ⟨0, 0, .out⟩ = ⟨xs.length, 0, .out⟩ := by
  obtain ⟨body, hbody, rfl⟩ := h
  have hopen : Scan.step ⟨0, 0, .out⟩ '[' = ⟨0, 1, .out⟩ := rfl
  rw [List.cons_append, List.foldl_cons, hopen, List.foldl_append, scan_itemsFor hP hbody,
    Nat.zero_add]
  rfl

/-- Texts with commas between them. -/
def joinComma : List (List Char) → List Char
  | [] => []
  | [s] => s
  | s :: rest => s ++ ',' :: joinComma rest

theorem blank_nil : Blank [] := fun _ h => by cases h

theorem moreItems_joinComma {v : List Char} {vs : List (List Char)} (h : ∀ u ∈ v :: vs, Value u) :
    MoreItems (joinComma (v :: vs)) := by
  induction vs generalizing v with
  | nil =>
      have hone := MoreItems.one blank_nil (h v List.mem_cons_self) blank_nil
      simpa [joinComma] using hone
  | cons u us ih =>
      have hmore := MoreItems.more blank_nil (h v List.mem_cons_self) blank_nil
        (ih fun w hw => h w (List.mem_cons_of_mem _ hw))
      simpa [joinComma] using hmore

/-- Values with commas between them are an array. -/
theorem value_arr {vs : List (List Char)} (h : ∀ v ∈ vs, Value v) :
    Value ('[' :: joinComma vs ++ [']']) := by
  apply Value.arr
  cases vs with
  | nil => exact .none blank_nil
  | cons v vs => exact .some (moreItems_joinComma h)

/-- A key and a value. -/
def Member (m : List Char) : Prop := ∃ k v, Quoted k ∧ Value v ∧ m = k ++ ':' :: v

theorem moreMembers_joinComma {m : List Char} {ms : List (List Char)}
    (h : ∀ u ∈ m :: ms, Member u) : MoreMembers (joinComma (m :: ms)) := by
  induction ms generalizing m with
  | nil =>
      obtain ⟨k, v, hk, hv, rfl⟩ := h m List.mem_cons_self
      have hone := MoreMembers.one blank_nil hk blank_nil blank_nil hv blank_nil
      simpa [joinComma] using hone
  | cons u us ih =>
      obtain ⟨k, v, hk, hv, rfl⟩ := h m List.mem_cons_self
      have hmore := MoreMembers.more blank_nil hk blank_nil blank_nil hv blank_nil
        (ih fun w hw => h w (List.mem_cons_of_mem _ hw))
      simpa [joinComma] using hmore

/-- Members with commas between them are an object. -/
theorem object_joinComma {ms : List (List Char)} (h : ∀ m ∈ ms, Member m) :
    Object ('{' :: joinComma ms ++ ['}']) := by
  refine ⟨joinComma ms, ?_, rfl⟩
  cases ms with
  | nil => exact .none blank_nil
  | cons m ms => exact .some (moreMembers_joinComma h)

theorem value_of_object {s : List Char} (h : Object s) : Value s := by
  obtain ⟨body, hbody, rfl⟩ := h
  exact .obj hbody

end Kura.Base.JsonGrammar
