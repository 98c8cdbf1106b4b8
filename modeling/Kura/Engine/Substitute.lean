import Kura.Engine.JsonTrip

/-!
# Profiles with their variables put in

Before a profile is evaluated, the values of its variables are put in, the
profile is written as a text and that text is read again. A string that is one
variable becomes a number if the value is one.

What is read again is told by `reread`, for values with any numbers
(`parseJson_jsonText_iff`). The condition under which nothing else changes is
then a condition on each node: a number is the value of its text, and a string
that becomes a number has a text that can be read.
-/

namespace Kura.Engine.JsonReader

open Kura.Base (findFrom occursAt_singleton_iff findFrom_eq_some_iff)
open Kura.Engine.Profile Kura.Engine.CText

section Printed

variable (evalScript : String → String → VarMap → String → Except String (String × VarMap))

/-- The texts of numbers that are not finite. -/
theorem numText_infinite {d : Double} (h : ∀ q, d ≠ .fin q) :
    (numText (cLibrary evalScript) d).toList = "nan".toList ∨
      (numText (cLibrary evalScript) d).toList = "inf".toList ∨
      (numText (cLibrary evalScript) d).toList = "-inf".toList := by
  cases d with
  | nan => exact .inl (by simp [numText, cLibrary, gText])
  | posInf => exact .inr (.inl (by simp [numText, cLibrary, gText]))
  | negInf => exact .inr (.inr (by simp [numText, cLibrary, gText]))
  | fin q => exact absurd rfl (h q)

/-- The text of a number is read as a number and as nothing else. -/
theorem numText_scalar (size : Nat) (d : Double) (rest : List Char) :
    ∃ c tail, (numText (cLibrary evalScript) d).toList ++ rest = c :: tail ∧ isWs c = false ∧
      c ≠ ']' ∧ c ≠ '\x7b' ∧ c ≠ '[' ∧ scalar size (c :: tail) = number size (c :: tail) := by
  by_cases hfin : ∃ q, d = .fin q
  · obtain ⟨q, rfl⟩ := hfin
    obtain ⟨hne, hall⟩ := numText_chars evalScript q
    obtain ⟨c, tail, htext⟩ := List.exists_cons_of_ne_nil hne
    rw [htext, List.all_cons, Bool.and_eq_true] at hall
    obtain ⟨hws, hbracket, hbrace, -⟩ := number_starts hall.1
    refine ⟨c, tail ++ rest, by rw [htext, List.cons_append], hws, ?_, hbrace, hbracket,
      scalar_eq_number size hall.1 _⟩
    rintro rfl
    exact absurd hall.1 (by decide)
  · rw [not_exists] at hfin
    obtain htext | htext | htext := numText_infinite evalScript hfin
    · exact ⟨'n', 'a' :: 'n' :: rest, by rw [htext]; rfl, by decide, by decide,
        by decide, by decide, by simp [scalar]⟩
    · exact ⟨'i', 'n' :: 'f' :: rest, by rw [htext]; rfl, by decide, by decide,
        by decide, by decide, by simp [scalar]⟩
    · exact ⟨'-', 'i' :: 'n' :: 'f' :: rest, by rw [htext]; rfl, by decide, by decide, by decide,
        by decide, by simp [scalar]⟩

/-- What is read at the text of a number is the number of the whole text. -/
theorem readNumber_of_number {size : Nat} {d : Double} {w : Json} {rest rest' : List Char}
    (hrest : EndsNumber rest)
    (h : number size ((numText (cLibrary evalScript) d).toList ++ rest) = .ok (w, rest')) :
    ∃ q, readNumber (numText (cLibrary evalScript) d).toList = some q := by
  by_cases hfin : ∃ q, d = .fin q
  · obtain ⟨q, rfl⟩ := hfin
    rw [number_append size (numText_chars evalScript q).2 hrest] at h
    split at h
    · rename_i q' hq
      exact ⟨q', hq⟩
    · cases h
  · rw [not_exists] at hfin
    obtain htext | htext | htext := numText_infinite evalScript hfin
    · rw [htext] at h
      cases h
    · rw [htext] at h
      cases h
    · rw [htext] at h
      cases h

/-- The first character of a value's text. -/
theorem jsonText_starts (v : Json) (rest : List Char) :
    ∃ c tail, (jsonText (cLibrary evalScript) v).toList ++ rest = c :: tail ∧ isWs c = false ∧
      c ≠ ']' := by
  cases v with
  | null => exact ⟨'n', ['u', 'l', 'l'] ++ rest, by simp [jsonText], by decide, by decide⟩
  | bool b =>
      cases b with
      | false =>
          exact ⟨'f', ['a', 'l', 's', 'e'] ++ rest, by simp [jsonText, Json.text], by decide,
            by decide⟩
      | true =>
          exact ⟨'t', ['r', 'u', 'e'] ++ rest, by simp [jsonText, Json.text], by decide,
            by decide⟩
  | num d =>
      obtain ⟨c, tail, htext, hws, hend, -⟩ := numText_scalar evalScript 0 d rest
      exact ⟨c, tail, htext, hws, hend⟩
  | str s => exact ⟨'"', _, toList_jsonText_str _ s rest, by decide, by decide⟩
  | arr xs => exact ⟨'[', _, toList_jsonText_arr _ xs rest, by decide, by decide⟩
  | obj ms => exact ⟨'\x7b', _, toList_jsonText_obj _ ms rest, by decide, by decide⟩

variable {evalScript} {size : Nat}

/-- An array that is read has items that are read. -/
theorem items_of_value {fuel depth : Nat} {x w : Json} {xs : List Json} {rest rest' : List Char}
    (h : value size fuel depth ((jsonText (cLibrary evalScript) (.arr (x :: xs))).toList ++ rest) =
      .ok (w, rest')) :
    ∃ fuel' ys, items size fuel' (depth + 1)
      ((commaJoin (itemTexts (cLibrary evalScript) (x :: xs))).toList ++ ']' :: rest) =
        .ok (ys, rest') := by
  have hmore := value_of_more h
  rw [toList_jsonText_arr] at hmore
  obtain ⟨c, tail, hws, -, hcase⟩ := value_eq_ok_iff.mp hmore
  rw [ws_cons (by decide)] at hws
  obtain ⟨rfl, rfl⟩ := List.cons.inj hws
  obtain ⟨hc, -⟩ | ⟨-, harray⟩ | ⟨-, hc, -⟩ := hcase
  · exact absurd hc (by decide)
  · obtain ⟨hhead, -⟩ | ⟨-, ys, -, hitems⟩ := array_eq_ok_iff.mp harray
    · rw [toList_itemTexts] at hhead
      obtain ⟨c, tail, htext, hws, hend⟩ :=
          jsonText_starts evalScript x (if xs = [] then ']' :: rest
        else ',' :: ((commaJoin (itemTexts (cLibrary evalScript) xs)).toList ++ ']' :: rest))
      rw [htext, ws_cons hws] at hhead
      cases hhead
      exact absurd rfl hend
    · exact ⟨_, ys, items_ws_iff.mp hitems⟩
  · exact absurd rfl hc

/-- An object that is read has members that are read. -/
theorem members_of_value {fuel depth : Nat} {k : String} {v w : Json} {ms : List (String × Json)}
    {rest rest' : List Char}
    (h : value size fuel depth
      ((jsonText (cLibrary evalScript) (.obj ((k, v) :: ms))).toList ++ rest) = .ok (w, rest')) :
    ∃ fuel' ns, members size fuel' (depth + 1)
      ((commaJoin (memberTexts (cLibrary evalScript) ((k, v) :: ms))).toList ++ '\x7d' :: rest) =
        .ok (ns, rest') := by
  have hmore := value_of_more h
  rw [toList_jsonText_obj] at hmore
  obtain ⟨c, tail, hws, -, hcase⟩ := value_eq_ok_iff.mp hmore
  rw [ws_cons (by decide)] at hws
  obtain ⟨rfl, rfl⟩ := List.cons.inj hws
  obtain ⟨-, hobject⟩ | ⟨hc, -⟩ | ⟨hc, -⟩ := hcase
  · rw [toList_memberTexts, ws_cons (by decide)] at hobject
    obtain ⟨hhead, -⟩ | ⟨-, ns, -, hmembers⟩ := object_eq_ok_iff.mp hobject
    · cases hhead
    · rw [toList_memberTexts]
      exact ⟨_, ns, hmembers⟩
  · exact absurd hc (by decide)
  · exact absurd rfl hc

-- If the text of a value can be read, so can all its numbers.

mutual

/-- A value whose text is read is one that reads back. -/
theorem reread_of_value (v : Json) {w : Json} {fuel depth : Nat} {rest rest' : List Char}
    (hfits : fits depth v) (hrest : EndsNumber rest)
    (h : value size fuel depth ((jsonText (cLibrary evalScript) v).toList ++ rest) =
      .ok (w, rest')) :
    ∃ v', reread (cLibrary evalScript) v = some v' := by
  match v with
  | .null => exact ⟨_, rfl⟩
  | .bool b => exact ⟨_, rfl⟩
  | .num d =>
      obtain ⟨c, tail, htext, hws, -, hbrace, hbracket, hscalar⟩ :=
        numText_scalar evalScript size d rest
      rw [jsonText, Json.text, htext] at h
      obtain ⟨c', tail', hcons, -, hcase⟩ := value_eq_ok_iff.mp (value_of_more h)
      rw [ws_cons hws] at hcons
      obtain ⟨rfl, rfl⟩ := List.cons.inj hcons
      obtain ⟨hc, -⟩ | ⟨hc, -⟩ | ⟨-, -, hread⟩ := hcase
      · exact absurd hc hbrace
      · exact absurd hc hbracket
      · rw [hscalar, ← htext] at hread
        obtain ⟨q, hq⟩ := readNumber_of_number evalScript hrest hread
        rw [reread, hq]
        exact ⟨_, rfl⟩
  | .str s => exact ⟨_, rfl⟩
  | .arr [] => exact ⟨_, rfl⟩
  | .arr (x :: xs) =>
      obtain ⟨fuel', ys, hitems⟩ := items_of_value h
      obtain ⟨zs, hzs⟩ := rereadItems_of_items (x :: xs) hfits.2 hitems
      rw [reread, hzs]
      exact ⟨_, rfl⟩
  | .obj [] => exact ⟨_, rfl⟩
  | .obj ((k, v) :: ms) =>
      obtain ⟨fuel', ns, hmembers⟩ := members_of_value h
      obtain ⟨os, hos⟩ := rereadMembers_of_members ((k, v) :: ms) hfits.2 hmembers
      rw [reread, hos]
      exact ⟨_, rfl⟩
termination_by structural v

/-- Items whose text is read are ones that read back. -/
theorem rereadItems_of_items (xs : List Json) {ys : List Json} {fuel depth : Nat}
    {rest rest' : List Char} (hfits : itemsFit depth xs)
    (h : items size fuel depth
      ((commaJoin (itemTexts (cLibrary evalScript) xs)).toList ++ ']' :: rest) = .ok (ys, rest')) :
    ∃ zs, rereadItems (cLibrary evalScript) xs = some zs := by
  match xs with
  | [] => exact ⟨_, rfl⟩
  | x :: xs =>
      obtain ⟨y, s₁, hvalue, hend⟩ := items_eq_ok_iff.mp (items_of_le h (le_refl _))
      rw [toList_itemTexts] at hvalue
      have htail : EndsNumber (if xs = [] then ']' :: rest else
          ',' :: ((commaJoin (itemTexts (cLibrary evalScript) xs)).toList ++ ']' :: rest)) := by
        split
        · exact endsNumber_cons rfl _
        · exact endsNumber_cons rfl _
      obtain ⟨y', hy⟩ := reread_of_value x hfits.1 htail hvalue
      -- The value is read as its text, so the other items stand behind it.
      obtain ⟨fuel', hprinted⟩ : ∃ fuel', value size fuel' _ _ = _ :=
        value_jsonText x hfits.1 hy htail
      obtain ⟨-, rfl⟩ := Prod.mk.inj (Except.ok.inj
        ((value_of_more hvalue).symm.trans (value_of_more hprinted)))
      by_cases hnil : xs = []
      · rw [rereadItems, hy, hnil]
        exact ⟨_, rfl⟩
      · rw [if_neg hnil, ws_cons (by decide)] at hend
        obtain ⟨s₂, more, hcomma, hmore, -⟩ | ⟨hbracket, -⟩ := hend
        · obtain ⟨-, rfl⟩ := List.cons.inj hcomma
          obtain ⟨zs, hzs⟩ := rereadItems_of_items xs hfits.2 hmore
          rw [rereadItems, hy, hzs]
          exact ⟨_, rfl⟩
        · cases hbracket
termination_by structural xs

/-- Members whose text is read are ones that read back. -/
theorem rereadMembers_of_members (ms : List (String × Json)) {ns : List (String × Json)}
    {fuel depth : Nat} {rest rest' : List Char} (hfits : membersFit depth ms)
    (h : members size fuel depth
      ((commaJoin (memberTexts (cLibrary evalScript) ms)).toList ++ '\x7d' :: rest) =
        .ok (ns, rest')) :
    ∃ os, rereadMembers (cLibrary evalScript) ms = some os := by
  match ms with
  | [] => exact ⟨_, rfl⟩
  | (k, v) :: ms =>
      obtain ⟨s₁, key, s₂, s₃, child, s₄, hquote, hkey, hcolon, hvalue, hend⟩ :=
        members_eq_ok_iff.mp (members_of_le h (le_refl _))
      rw [toList_memberTexts, ws_cons (by decide)] at hquote
      obtain ⟨-, rfl⟩ := List.cons.inj hquote
      rw [string_flatMap] at hkey
      obtain ⟨-, rfl⟩ := Prod.mk.inj (Except.ok.inj hkey)
      rw [ws_cons (by decide)] at hcolon
      obtain ⟨-, rfl⟩ := List.cons.inj hcolon
      have htail : EndsNumber (if ms = [] then '\x7d' :: rest else
          ',' :: ((commaJoin (memberTexts (cLibrary evalScript) ms)).toList ++
            '\x7d' :: rest)) := by
        split
        · exact endsNumber_cons rfl _
        · exact endsNumber_cons rfl _
      obtain ⟨w, hw⟩ := reread_of_value v hfits.1 htail hvalue
      obtain ⟨fuel', hprinted⟩ : ∃ fuel', value size fuel' _ _ = _ :=
        value_jsonText v hfits.1 hw htail
      obtain ⟨-, rfl⟩ := Prod.mk.inj (Except.ok.inj
        ((value_of_more hvalue).symm.trans (value_of_more hprinted)))
      by_cases hnil : ms = []
      · rw [rereadMembers, hw, hnil]
        exact ⟨_, rfl⟩
      · rw [if_neg hnil, ws_cons (by decide)] at hend
        obtain ⟨s₅, more, hcomma, hmore, -⟩ | ⟨hbrace, -⟩ := hend
        · obtain ⟨-, rfl⟩ := List.cons.inj hcomma
          obtain ⟨os, hos⟩ := rereadMembers_of_members ms hfits.2 hmore
          rw [rereadMembers, hw, hos]
          exact ⟨_, rfl⟩
        · cases hbrace
termination_by structural ms

end

/-- A printed value is read as the value with its numbers reread, if they all can be. -/
theorem parseJson_jsonText_iff {v w : Json} (hfits : fits 0 v) :
    parseJson (jsonText (cLibrary evalScript) v) = .ok w ↔
      reread (cLibrary evalScript) v = some w := by
  constructor
  · intro h
    obtain ⟨fuel, rest, hread, -⟩ := parseJson_eq_ok_iff.mp h
    have hend : EndsNumber [] := by
      intro c hc
      cases hc
    rw [← List.append_nil (jsonText _ v).toList] at hread
    obtain ⟨w', hw⟩ := reread_of_value v hfits hend hread
    rw [parseJson_of_reread hfits hw] at h
    rw [hw, Except.ok.inj h]
  · exact parseJson_of_reread hfits

end Printed

/-- A text names a variable that has a value. -/
def References (values : VarMap) (s : List Char) : Prop :=
  ∃ name, (values.get name).isSome ∧ '\x7b' :: (name.toList ++ ['\x7d']) <:+: s

/-- A part between two braces. -/
theorem braces_infix {s : List Char} {o c : Nat} (ho : s[o]? = some '\x7b')
    (hc : s[c]? = some '\x7d') (hlt : o < c) :
    '\x7b' :: ((s.drop (o + 1)).take (c - o - 1) ++ ['\x7d']) <:+: s := by
  obtain ⟨hcl, hcv⟩ := List.getElem?_eq_some_iff.mp hc
  obtain ⟨hol, hov⟩ := List.getElem?_eq_some_iff.mp ho
  refine ⟨s.take o, s.drop (c + 1), ?_⟩
  calc s.take o ++ '\x7b' :: ((s.drop (o + 1)).take (c - o - 1) ++ ['\x7d']) ++ s.drop (c + 1)
      = s.take o ++ '\x7b' :: ((s.drop (o + 1)).take (c - o - 1) ++ s.drop c) := by
        rw [List.drop_eq_getElem_cons hcl, hcv]
        simp
    _ = s.take o ++ '\x7b' :: s.drop (o + 1) := by
        have hdrop : s.drop c = (s.drop (o + 1)).drop (c - o - 1) := by
          rw [List.drop_drop]
          congr 1
          omega
        rw [hdrop, List.take_append_drop]
    _ = s := by
        rw [← hov, ← List.drop_eq_getElem_cons hol, List.take_append_drop]

/-- A text without references is left alone. -/
theorem substituteFrom_of_unreferenced {values : VarMap} {s : List Char}
    (h : ¬ References values s) (fuel p : Nat) : substituteFrom s values fuel p = s.drop p := by
  induction fuel generalizing p with
  | zero => rfl
  | succ fuel ih =>
      rw [substituteFrom]
      split
      · rfl
      · rename_i o ho
        split
        · rfl
        · rename_i c hc
          obtain ⟨hle, -, hopen, -⟩ := findFrom_eq_some_iff.mp ho
          obtain ⟨hlt, -, hclose, -⟩ := findFrom_eq_some_iff.mp hc
          split
          · rw [ih]
            have hsplit : s.drop (o + 1) = (s.drop p).drop (o + 1 - p) := by
              rw [List.drop_drop]
              congr 1
              omega
            rw [hsplit, List.take_append_drop]
          · rename_i v hv
            -- The name between the braces has a value.
            refine absurd ⟨_, by rw [hv]; rfl, ?_⟩ h
            rw [String.toList_ofList]
            exact braces_infix (occursAt_singleton_iff.mp hopen) (occursAt_singleton_iff.mp hclose)
              hlt

theorem substituteVariables_of_unreferenced {values : VarMap} {s : String}
    (h : ¬ References values s.toList) : substituteVariables s values = s := by
  rw [substituteVariables, substituteFrom_of_unreferenced h, List.drop_zero, String.ofList_toList]

def isScalar : Json → Bool
  | .arr _ => false
  | .obj _ => false
  | _ => true

section Frame

variable (values : VarMap)

mutual

/-- Only strings that name a variable may be others, and these are still scalars. -/
def Framed : Json → Json → Prop
  | .str s, w => isScalar w = true ∧ (¬ References values s.toList → w = .str s)
  | .arr xs, .arr ys => FramedItems xs ys
  | .obj ms, .obj ns => FramedMembers ms ns
  | v, w => w = v

def FramedItems : List Json → List Json → Prop
  | [], [] => True
  | x :: xs, y :: ys => Framed x y ∧ FramedItems xs ys
  | _, _ => False

def FramedMembers : List (String × Json) → List (String × Json) → Prop
  | [], [] => True
  | (k, v) :: ms, (l, w) :: ns => l = k ∧ Framed v w ∧ FramedMembers ms ns
  | _, _ => False

end

/-- The members of a profile, those with the variables as they were. -/
def FramedTop : List (String × Json) → List (String × Json) → Prop
  | [], [] => True
  | (k, v) :: ms, (l, w) :: ns =>
      l = k ∧ (if k = "variables" then w = v else Framed values v w) ∧ FramedTop ms ns
  | _, _ => False

/-- A profile with its variables put in; what is no object stays. -/
def FramedProfile : Json → Json → Prop
  | .obj ms, .obj ns => FramedTop values ms ns
  | v, w => w = v

end Frame

section Condition

variable (evalScript : String → String → VarMap → String → Except String (String × VarMap))
variable (values : VarMap)

/-- The value of the variable that a whole text names. -/
def wholeReference (s : String) : Option String :=
  if 2 < s.toList.length ∧ s.toList.head? = some '\x7b' ∧ s.toList.getLast? = some '\x7d' then
    values.get (String.ofList ((s.toList.drop 1).take (s.toList.length - 2)))
  else none

/-- The number of a value is read back from its text. -/
def Rereadable (v : String) : Prop :=
  numeric v = true →
    (readNumber (numText (cLibrary evalScript) (CText.strtod (cstr v.toList)).1).toList).isSome

mutual

/-- Numbers print exactly, and a string that becomes a number becomes one that can be read. -/
def Kept : Json → Prop
  | .num d => PrintsExactly evalScript d
  | .str s => ∀ v, wholeReference values s = some v → Rereadable evalScript v
  | .arr xs => KeptItems xs
  | .obj ms => KeptMembers ms
  | _ => True

def KeptItems : List Json → Prop
  | [] => True
  | x :: xs => Kept x ∧ KeptItems xs

def KeptMembers : List (String × Json) → Prop
  | [] => True
  | (_, v) :: ms => Kept v ∧ KeptMembers ms

end

/-- The members of a profile; nothing is put into those with the variables. -/
def KeptTop : List (String × Json) → Prop
  | [] => True
  | (k, v) :: ms =>
      (if k = "variables" then ExactNumbers evalScript v else Kept evalScript values v) ∧ KeptTop ms

def KeptProfile : Json → Prop
  | .obj ms => KeptTop evalScript values ms
  | v => ExactNumbers evalScript v

/-- A number prints exactly when its text is read back as the number. -/
theorem printsExactly_iff {d : Double} :
    PrintsExactly evalScript d ↔ reread (cLibrary evalScript) (.num d) = some (.num d) := by
  constructor
  · intro h
    exact reread_of_exact evalScript (.num d) h
  · intro h
    obtain ⟨q, hq, hd⟩ := Option.map_eq_some_iff.mp h
    obtain rfl := Json.num.inj hd
    refine ⟨q, rfl, ?_⟩
    unfold readNumber at hq
    split at hq
    · cases hq
    · split at hq
      · rename_i q' hread
        obtain rfl := Option.some.inj hq
        exact hread
      · cases hq

mutual

theorem exact_of_reread (v : Json) (h : reread (cLibrary evalScript) v = some v) :
    ExactNumbers evalScript v := by
  match v with
  | .null => trivial
  | .bool b => trivial
  | .num d => exact (printsExactly_iff evalScript).mpr h
  | .str s => trivial
  | .arr xs =>
      obtain ⟨ys, hys, hsame⟩ := Option.map_eq_some_iff.mp h
      rw [Json.arr.inj hsame] at hys
      exact exactItems_of_reread xs hys
  | .obj ms =>
      obtain ⟨ns, hns, hsame⟩ := Option.map_eq_some_iff.mp h
      rw [Json.obj.inj hsame] at hns
      exact exactMembers_of_reread ms hns
termination_by structural v

theorem exactItems_of_reread (xs : List Json)
    (h : rereadItems (cLibrary evalScript) xs = some xs) : ExactItems evalScript xs := by
  match xs with
  | [] => trivial
  | x :: xs =>
      obtain ⟨y, hy, htail⟩ := Option.bind_eq_some_iff.mp h
      obtain ⟨ys, hys, hsame⟩ := Option.map_eq_some_iff.mp htail
      obtain ⟨hhead, hrest⟩ := List.cons.inj hsame
      rw [hhead] at hy
      rw [hrest] at hys
      exact ⟨exact_of_reread x hy, exactItems_of_reread xs hys⟩
termination_by structural xs

theorem exactMembers_of_reread (ms : List (String × Json))
    (h : rereadMembers (cLibrary evalScript) ms = some ms) : ExactMembers evalScript ms := by
  match ms with
  | [] => trivial
  | (k, v) :: ms =>
      obtain ⟨w, hw, htail⟩ := Option.bind_eq_some_iff.mp h
      obtain ⟨ns, hns, hsame⟩ := Option.map_eq_some_iff.mp htail
      obtain ⟨hhead, hrest⟩ := List.cons.inj hsame
      rw [(Prod.mk.inj hhead).2] at hw
      rw [hrest] at hns
      exact ⟨exact_of_reread v hw, exactMembers_of_reread ms hns⟩
termination_by structural ms

end

theorem exactNumbers_iff (v : Json) :
    (∃ t, reread (cLibrary evalScript) v = some t ∧ t = v) ↔ ExactNumbers evalScript v := by
  constructor
  · rintro ⟨t, hread, rfl⟩
    exact exact_of_reread evalScript t hread
  · intro h
    exact ⟨v, reread_of_exact evalScript v h, rfl⟩

/-- A whole reference is a reference. -/
theorem references_of_whole {values : VarMap} {s v : String}
    (h : wholeReference values s = some v) :
    References values s.toList := by
  unfold wholeReference at h
  split at h
  · rename_i hwhole
    obtain ⟨hlen, hhead, hlast⟩ := hwhole
    refine ⟨_, by rw [h]; rfl, ?_⟩
    rw [String.toList_ofList]
    have hopen : s.toList[0]? = some '\x7b' := by
      rw [← List.head?_eq_getElem?]
      exact hhead
    have hclose : s.toList[s.toList.length - 1]? = some '\x7d' := by
      rw [← List.getLast?_eq_getElem?]
      exact hlast
    have hinfix := braces_infix hopen hclose (by omega)
    have hcount : s.toList.length - 1 - 0 - 1 = s.toList.length - 2 := by omega
    rw [hcount, Nat.zero_add] at hinfix
    exact hinfix
  · cases h

theorem framed_substituteVariables (values : VarMap) (s : String) :
    Framed values (.str s) (.str (substituteVariables s values)) := by
  refine ⟨rfl, fun hnone => ?_⟩
  rw [substituteVariables_of_unreferenced hnone]

section SubstituteStr

variable {env : Scripting} {values : VarMap} {s v : String}

theorem substituteStr_of_none (h : wholeReference values s = none) :
    substituteStr env s values = .str (substituteVariables s values) := by
  rw [wholeReference] at h
  simp only [substituteStr, h]

theorem substituteStr_of_bool (h : wholeReference values s = some v)
    (hbool : v = "true" ∨ v = "false") : substituteStr env s values = .bool (v = "true") := by
  rw [wholeReference] at h
  simp only [substituteStr, h, if_pos hbool]

theorem substituteStr_of_text (h : wholeReference values s = some v)
    (hbool : ¬ (v = "true" ∨ v = "false")) (hnone : env.wholeNumber v = none) :
    substituteStr env s values = .str (substituteVariables s values) := by
  rw [wholeReference] at h
  simp only [substituteStr, h, if_neg hbool, hnone]

theorem substituteStr_of_number (h : wholeReference values s = some v)
    (hbool : ¬ (v = "true" ∨ v = "false")) {d : Double} (hsome : env.wholeNumber v = some d) :
    substituteStr env s values = .num d := by
  rw [wholeReference] at h
  simp only [substituteStr, h, if_neg hbool, hsome]

end SubstituteStr

/-- What a string becomes is read again exactly if it is no number or one that can be read. -/
theorem keptStr_iff (s : String) :
    (∃ t, reread (cLibrary evalScript) (substituteStr (cLibrary evalScript) s values) = some t ∧
      Framed values (.str s) t) ↔ Kept evalScript values (.str s) := by
  have hplain : ∃ t, reread (cLibrary evalScript) (.str (substituteVariables s values)) = some t ∧
      Framed values (.str s) t :=
    ⟨_, rfl, framed_substituteVariables values s⟩
  rw [Kept]
  cases hwhole : wholeReference values s with
  | none =>
      rw [substituteStr_of_none hwhole]
      refine iff_of_true hplain ?_
      intro v hv
      cases hv
  | some v =>
      have hreference := references_of_whole hwhole
      have hscalar : ∀ t, isScalar t = true → Framed values (.str s) t := fun t ht =>
        ⟨ht, fun hnone => absurd hreference hnone⟩
      by_cases hbool : v = "true" ∨ v = "false"
      · rw [substituteStr_of_bool hwhole hbool]
        refine iff_of_true ⟨_, rfl, hscalar _ rfl⟩ ?_
        rintro v' hv' hnumeric
        cases hv'
        obtain rfl | rfl := hbool
        · exact absurd hnumeric (by decide)
        · exact absurd hnumeric (by decide)
      · cases hnumeric : numeric v with
        | false =>
            have hnone : (cLibrary evalScript).wholeNumber v = none := by
              simp [cLibrary, hnumeric]
            rw [substituteStr_of_text hwhole hbool hnone]
            refine iff_of_true hplain ?_
            rintro v' hv' hn
            cases hv'
            rw [hnumeric] at hn
            cases hn
        | true =>
            have hsome : (cLibrary evalScript).wholeNumber v =
                some (CText.strtod (cstr v.toList)).1 := by
              simp [cLibrary, hnumeric]
            rw [substituteStr_of_number hwhole hbool hsome]
            constructor
            · rintro ⟨t, hread, -⟩ v' hv' -
              cases hv'
              obtain ⟨q, hq, -⟩ := Option.map_eq_some_iff.mp hread
              rw [hq]
              rfl
            · intro hkept
              obtain ⟨q, hq⟩ := Option.isSome_iff_exists.mp (hkept v rfl hnumeric)
              refine ⟨.num (.fin q), ?_, hscalar _ rfl⟩
              rw [reread, hq]
              rfl

mutual

/-- A value is kept exactly when its text is read back with other strings at most. -/
theorem keptValue_iff (v : Json) :
    (∃ t, reread (cLibrary evalScript) (substituteNode (cLibrary evalScript) values v) = some t ∧
      Framed values v t) ↔ Kept evalScript values v := by
  match v with
  | .null => exact iff_of_true ⟨.null, rfl, rfl⟩ trivial
  | .bool b => exact iff_of_true ⟨.bool b, rfl, rfl⟩ trivial
  | .num d => exact exactNumbers_iff evalScript (.num d)
  | .str s => exact keptStr_iff evalScript values s
  | .arr xs =>
      rw [Kept, ← keptItems_iff xs]
      constructor
      · rintro ⟨t, hread, hframed⟩
        obtain ⟨ys, hys, rfl⟩ := Option.map_eq_some_iff.mp hread
        exact ⟨ys, hys, hframed⟩
      · rintro ⟨ys, hys, hframed⟩
        refine ⟨.arr ys, ?_, hframed⟩
        rw [substituteNode, reread, hys]
        rfl
  | .obj ms =>
      rw [Kept, ← keptMembers_iff ms]
      constructor
      · rintro ⟨t, hread, hframed⟩
        obtain ⟨ns, hns, rfl⟩ := Option.map_eq_some_iff.mp hread
        exact ⟨ns, hns, hframed⟩
      · rintro ⟨ns, hns, hframed⟩
        refine ⟨.obj ns, ?_, hframed⟩
        rw [substituteNode, reread, hns]
        rfl
termination_by structural v

/-- Items are kept exactly when their texts are read back so. -/
theorem keptItems_iff (xs : List Json) :
    (∃ ys, rereadItems (cLibrary evalScript)
        (substituteItems (cLibrary evalScript) values xs) = some ys ∧ FramedItems values xs ys) ↔
      KeptItems evalScript values xs := by
  match xs with
  | [] => exact iff_of_true ⟨[], rfl, trivial⟩ trivial
  | x :: xs =>
      rw [KeptItems, ← keptValue_iff x, ← keptItems_iff xs]
      constructor
      · rintro ⟨zs, hread, hframed⟩
        obtain ⟨y, hy, htail⟩ := Option.bind_eq_some_iff.mp hread
        obtain ⟨ys, hys, rfl⟩ := Option.map_eq_some_iff.mp htail
        exact ⟨⟨y, hy, hframed.1⟩, ys, hys, hframed.2⟩
      · rintro ⟨⟨y, hy, hframed⟩, ys, hys, hframedTail⟩
        refine ⟨y :: ys, ?_, hframed, hframedTail⟩
        rw [substituteItems, rereadItems, hy, hys]
        rfl
termination_by structural xs

/-- Members are kept exactly when their texts are read back so. -/
theorem keptMembers_iff (ms : List (String × Json)) :
    (∃ ns, rereadMembers (cLibrary evalScript)
        (substituteMembers (cLibrary evalScript) values ms) = some ns ∧
          FramedMembers values ms ns) ↔ KeptMembers evalScript values ms := by
  match ms with
  | [] => exact iff_of_true ⟨[], rfl, trivial⟩ trivial
  | (k, v) :: ms =>
      rw [KeptMembers, ← keptValue_iff v, ← keptMembers_iff ms]
      constructor
      · rintro ⟨os, hread, hframed⟩
        obtain ⟨w, hw, htail⟩ := Option.bind_eq_some_iff.mp hread
        obtain ⟨ns, hns, rfl⟩ := Option.map_eq_some_iff.mp htail
        exact ⟨⟨w, hw, hframed.2.1⟩, ns, hns, hframed.2.2⟩
      · rintro ⟨⟨w, hw, hframed⟩, ns, hns, hframedTail⟩
        refine ⟨(k, w) :: ns, ?_, rfl, hframed, hframedTail⟩
        rw [substituteMembers, rereadMembers, hw, hns]
        rfl
termination_by structural ms

end

/-- A member of a profile with the variables put in. -/
def substituteMember (m : String × Json) : String × Json :=
  if m.1 = "variables" then m else (m.1, substituteNode (cLibrary evalScript) values m.2)

theorem substituteMember_eq (k : String) (v : Json) :
    substituteMember evalScript values (k, v) =
      (k, (substituteMember evalScript values (k, v)).2) := by
  unfold substituteMember
  dsimp only
  split
  · rfl
  · rfl

theorem keptMember_iff (k : String) (v : Json) :
    (∃ t, reread (cLibrary evalScript) (substituteMember evalScript values (k, v)).2 = some t ∧
      if k = "variables" then t = v else Framed values v t) ↔
      if k = "variables" then ExactNumbers evalScript v else Kept evalScript values v := by
  unfold substituteMember
  dsimp only
  split
  · exact exactNumbers_iff evalScript v
  · exact keptValue_iff evalScript values v

/-- The members at the top are kept exactly when their texts are read back so. -/
theorem keptTop_iff (ms : List (String × Json)) :
    (∃ ns, rereadMembers (cLibrary evalScript) (ms.map (substituteMember evalScript values)) =
      some ns ∧ FramedTop values ms ns) ↔ KeptTop evalScript values ms := by
  induction ms with
  | nil => exact iff_of_true ⟨[], rfl, trivial⟩ trivial
  | cons m ms ih =>
      obtain ⟨k, v⟩ := m
      rw [KeptTop, ← keptMember_iff, ← ih, List.map_cons, substituteMember_eq, rereadMembers]
      constructor
      · rintro ⟨os, hread, hframed⟩
        obtain ⟨w, hw, htail⟩ := Option.bind_eq_some_iff.mp hread
        obtain ⟨ns, hns, rfl⟩ := Option.map_eq_some_iff.mp htail
        exact ⟨⟨w, hw, hframed.2.1⟩, ns, hns, hframed.2.2⟩
      · rintro ⟨⟨w, hw, hframed⟩, ns, hns, hframedTail⟩
        refine ⟨(k, w) :: ns, ?_, rfl, hframed, hframedTail⟩
        rw [hw, hns]
        rfl

theorem fits_of_scalar {depth : Nat} {v : Json} (hv : isScalar v = true) :
    fits depth v ↔ depth < kMaxObjectWalk := by
  cases v with
  | arr xs => cases hv
  | obj ms => cases hv
  | null => exact Iff.rfl
  | bool b => exact Iff.rfl
  | num d => exact Iff.rfl
  | str s => exact Iff.rfl

theorem isScalar_substituteStr (env : Scripting) (s : String) :
    isScalar (substituteStr env s values) = true := by
  unfold substituteStr
  dsimp only
  repeat' split
  all_goals rfl

mutual

theorem fits_substituteNode (env : Scripting) (v : Json) {depth : Nat} (h : fits depth v) :
    fits depth (substituteNode env values v) := by
  match v with
  | .null => exact h
  | .bool b => exact h
  | .num d => exact h
  | .str s => exact (fits_of_scalar (isScalar_substituteStr values env s)).mpr h
  | .arr xs => exact ⟨h.1, itemsFit_substitute env xs h.2⟩
  | .obj ms => exact ⟨h.1, membersFit_substitute env ms h.2⟩
termination_by structural v

theorem itemsFit_substitute (env : Scripting) (xs : List Json) {depth : Nat}
    (h : itemsFit depth xs) : itemsFit depth (substituteItems env values xs) := by
  match xs with
  | [] => trivial
  | x :: xs => exact ⟨fits_substituteNode env x h.1, itemsFit_substitute env xs h.2⟩
termination_by structural xs

theorem membersFit_substitute (env : Scripting) (ms : List (String × Json)) {depth : Nat}
    (h : membersFit depth ms) : membersFit depth (substituteMembers env values ms) := by
  match ms with
  | [] => trivial
  | (k, v) :: ms => exact ⟨fits_substituteNode env v h.1, membersFit_substitute env ms h.2⟩
termination_by structural ms

end

theorem membersFit_top {ms : List (String × Json)} {depth : Nat} (h : membersFit depth ms) :
    membersFit depth (ms.map (substituteMember evalScript values)) := by
  induction ms with
  | nil => trivial
  | cons m ms ih =>
      obtain ⟨k, v⟩ := m
      rw [List.map_cons, substituteMember_eq]
      refine ⟨?_, ih h.2⟩
      unfold substituteMember
      dsimp only
      split
      · exact h.1
      · exact fits_substituteNode values _ v h.1

theorem fits_substituteProfile {root : Json} {depth : Nat} (h : fits depth root) :
    fits depth (substituteProfile (cLibrary evalScript) root values) := by
  cases root with
  | obj ms => exact ⟨h.1, membersFit_top evalScript values h.2⟩
  | null => exact h
  | bool b => exact h
  | num d => exact h
  | str s => exact h
  | arr xs => exact h

/-- A profile with its variables put in is read again with the same shape, and with nothing else
changed, exactly if its numbers print exactly and each string that becomes a number becomes one
that is read back from its text. -/
theorem substitute_readable_iff {text : String} {root : Json} (hroot : parseJson text = .ok root) :
    (∃ tree, parseJson (jsonText (cLibrary evalScript)
        (substituteProfile (cLibrary evalScript) root values)) = .ok tree ∧
      FramedProfile values root tree) ↔ KeptProfile evalScript values root := by
  have hfits := fits_substituteProfile evalScript values (fits_of_parseJson hroot)
  have hread : ∀ tree, parseJson (jsonText (cLibrary evalScript)
      (substituteProfile (cLibrary evalScript) root values)) = .ok tree ↔
      reread (cLibrary evalScript) (substituteProfile (cLibrary evalScript) root values) =
        some tree := fun tree => parseJson_jsonText_iff hfits
  simp only [hread]
  cases root with
  | obj ms =>
      rw [KeptProfile, ← keptTop_iff]
      constructor
      · rintro ⟨t, htree, hframed⟩
        obtain ⟨ns, hns, rfl⟩ := Option.map_eq_some_iff.mp htree
        exact ⟨ns, hns, hframed⟩
      · rintro ⟨ns, hns, hframed⟩
        exact ⟨.obj ns, Option.map_eq_some_iff.mpr ⟨ns, hns, rfl⟩, hframed⟩
  | null => exact exactNumbers_iff evalScript .null
  | bool b => exact exactNumbers_iff evalScript (.bool b)
  | num d => exact exactNumbers_iff evalScript (.num d)
  | str s => exact exactNumbers_iff evalScript (.str s)
  | arr xs => exact exactNumbers_iff evalScript (.arr xs)

end Condition

/-- A profile in which a string names a variable and another one does not. -/
def scaledProfile : Json :=
  .obj [("variables", .arr [.obj [("name", .str "x")]]), ("scale", .str "\x7bx\x7d"),
    ("note", .str "at \x7by\x7d"), ("width", .num (.fin (1 / 4)))]

/-- With a number that is not too large the profile stays readable. -/
theorem smallScale_readable : ∃ tree, parseJson (jsonText (cLibrary fun _ _ _ _ => .error "none")
      (substituteProfile (cLibrary fun _ _ _ _ => .error "none") scaledProfile [("x", "1e3")])) =
        .ok tree ∧ FramedProfile [("x", "1e3")] scaledProfile tree := by
  have hroot : parseJson ("\x7b\"variables\":[\x7b\"name\":\"x\"\x7d]," ++
      "\"scale\":\"\x7bx\x7d\",\"note\":\"at \x7by\x7d\",\"width\":0.25\x7d") =
        .ok scaledProfile :=
    parseJson_of_readsAs (by decide +kernel)
  refine (substitute_readable_iff _ _ hroot).mpr ⟨⟨⟨trivial, trivial⟩, trivial⟩, ?_,
    ?_, ?_, trivial⟩
  · intro v hv
    have hvalue : wholeReference [("x", "1e3")] "\x7bx\x7d" = some "1e3" := by decide
    obtain rfl := Option.some.inj (hvalue.symm.trans hv)
    unfold Rereadable
    decide +kernel
  · intro v hv
    have hvalue : wholeReference [("x", "1e3")] "at \x7by\x7d" = none := by decide
    rw [hvalue] at hv
    cases hv
  · exact ⟨1 / 4, rfl, by decide +kernel⟩

/-- A number beyond all doubles makes the profile unreadable, and a number with sixteen digits
becomes another one. -/
theorem hugeScale_unreadable :
    parseJson "\x7b\"scale\":\"\x7bx\x7d\"\x7d" = .ok (.obj [("scale", .str "\x7bx\x7d")]) ∧
    (∀ tree, parseJson (jsonText (cLibrary fun _ _ _ _ => .error "none")
      (substituteProfile (cLibrary fun _ _ _ _ => .error "none")
        (.obj [("scale", .str "\x7bx\x7d")]) [("x", "1e999")])) ≠ .ok tree) ∧
    parseJson (jsonText (cLibrary fun _ _ _ _ => .error "none")
      (substituteProfile (cLibrary fun _ _ _ _ => .error "none")
        (.obj [("width", .num (nearestDouble (30000000000000004 / 100000000000000000)))]) [])) =
        .ok (.obj [("width", .num (nearestDouble (3 / 10)))]) ∧
    nearestDouble (30000000000000004 / 100000000000000000) ≠ nearestDouble (3 / 10) := by
  refine ⟨parseJson_of_readsAs (by decide +kernel), ?_, parseJson_of_readsAs (by decide +kernel),
    by decide +kernel⟩
  intro tree htree
  have hfails : (parseJson (jsonText (cLibrary fun _ _ _ _ => .error "none")
      (substituteProfile (cLibrary fun _ _ _ _ => .error "none")
        (.obj [("scale", .str "\x7bx\x7d")]) [("x", "1e999")]))).isOk = false := by
    decide +kernel
  rw [htree] at hfails
  cases hfails

end Kura.Engine.JsonReader
