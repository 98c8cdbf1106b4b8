import Kura.Engine.JsonTrip
import Kura.Engine.PlanRun
import Kura.Engine.RuleHits

/-!
# The results that scripts of a plan see

After each step a plan adds a record to its results: the step's name, its hits
and its pages. Scripts of variables get the records as one text, in which the
names stand as they are.
-/

namespace Kura.Engine.PlanResults

open Kura.Engine.Profile Kura.Engine.Jobs Kura.Engine.Plan Kura.Engine.JsonReader
open Kura.Engine.CText hiding number

theorem digit_mem {c : Char} (hc : c.isDigit = true) :
    c ∈ ['0', '1', '2', '3', '4', '5', '6', '7', '8', '9'] := by
  have hrange : 48 ≤ c.toNat ∧ c.toNat ≤ 57 := by
    simpa [Char.isDigit, UInt32.le_iff_toNat_le] using hc
  have hchar : c = Char.ofNat c.toNat := (Char.ofNat_toNat c).symm
  rw [hchar]
  generalize c.toNat = n at hrange
  obtain ⟨hlow, hhigh⟩ := hrange
  interval_cases n
  all_goals decide

/-- A digit starts no word, is no blank, no sign and no mark of another base. -/
theorem digit_plain {c : Char} (hc : c.isDigit = true) : c.toLower ≠ 'i' ∧ c.toLower ≠ 'n' ∧
    c ≠ 'x' ∧ c ≠ 'X' ∧ c ≠ '-' ∧ c ≠ '+' ∧ isBlank c = false := by
  have hmem := digit_mem hc
  clear hc
  fin_cases hmem
  all_goals decide

/-- Digits are no word and have no mark of another base. -/
theorem words_digits {ds : List Char} (hall : ∀ c ∈ ds, c.isDigit = true) :
    wordFloat ds = none ∧ hexFloat ds = none := by
  constructor
  · cases ds with
    | nil => rfl
    | cons c ds =>
        obtain ⟨hi, hn, -⟩ := digit_plain (hall c List.mem_cons_self)
        simp [wordFloat, Ne.symm hi, Ne.symm hn]
  · unfold hexFloat
    split
    · rename_i x tail
      obtain ⟨-, -, hx, hX, -⟩ := digit_plain (hall x (by simp))
      simp [hx, hX]
    · rfl

theorem decimalFloat_toDigits (n : Nat) :
    decimalFloat (Nat.toDigits 10 n) = some (nearestDouble n, []) := by
  have hall : ∀ c ∈ Nat.toDigits 10 n, c.isDigit = true := fun c hc =>
    Nat.isDigit_of_mem_toDigits (by decide) (by decide) hc
  have hmantissa : mantissa Char.isDigit (Nat.toDigits 10 n) = (Nat.toDigits 10 n, [], []) := by
    unfold mantissa
    rw [List.dropWhile_eq_nil_iff.mpr hall, List.takeWhile_eq_self_iff.mpr hall]
  unfold decimalFloat
  rw [hmantissa]
  dsimp only
  rw [List.append_nil, if_neg Nat.toDigits_ne_nil, number_toDigits]
  simp [exponentOf, scaled]

/-- A written number is read as the nearest double. -/
theorem strtod_toDigits (n : Nat) : CText.strtod (Nat.toDigits 10 n) = (nearestDouble n, []) := by
  have hall : ∀ c ∈ Nat.toDigits 10 n, c.isDigit = true := fun c hc =>
    Nat.isDigit_of_mem_toDigits (by decide) (by decide) hc
  have hstart :
      CText.signOf ((Nat.toDigits 10 n).dropWhile isBlank) = (false, Nat.toDigits 10 n) := by
    cases hds : Nat.toDigits 10 n with
    | nil => exact absurd hds Nat.toDigits_ne_nil
    | cons c ds =>
        have hc : c.isDigit = true := hall c (by rw [hds]; exact List.mem_cons_self)
        obtain ⟨-, -, -, -, hminus, hplus, hblank⟩ := digit_plain hc
        rw [List.dropWhile_cons, hblank]
        simp [CText.signOf, hminus, hplus]
  unfold CText.strtod
  rw [hstart]
  dsimp only
  rw [(words_digits hall).1, (words_digits hall).2, decimalFloat_toDigits]
  rfl

theorem strtod_neg_toDigits (n : Nat) :
    CText.strtod ('-' :: Nat.toDigits 10 n) = ((nearestDouble n).neg, []) := by
  have hall : ∀ c ∈ Nat.toDigits 10 n, c.isDigit = true := fun c hc =>
    Nat.isDigit_of_mem_toDigits (by decide) (by decide) hc
  have hstart : CText.signOf (('-' :: Nat.toDigits 10 n).dropWhile isBlank) =
      (true, Nat.toDigits 10 n) := rfl
  unfold CText.strtod
  rw [hstart]
  dsimp only
  rw [(words_digits hall).1, (words_digits hall).2, decimalFloat_toDigits]
  rfl

/-- An integer is read as the number nearest to it. -/
theorem readNumber_toString {n : Int} {q : ℚ} (h : ofInt n = .fin q) :
    readNumber (toString n).toList = some q := by
  have hchars : (toString n).toList ≠ [] ∧ (toString n).toList.all isNumberChar = true := by
    rw [RuleHits.toList_toString]
    refine ⟨List.append_ne_nil_of_right_ne_nil _ Nat.toDigits_ne_nil, ?_⟩
    rw [List.all_append, all_toDigits]
    split
    · rfl
    · rfl
  have hread : CText.strtod (toString n).toList = (.fin q, []) := by
    rw [RuleHits.toList_toString, ← h, ofInt]
    split
    · rename_i hneg
      have habs : ((n.natAbs : Nat) : ℚ) = ((-n : Int) : ℚ) := by
        rw [← Int.ofNat_natAbs_of_nonpos hneg.le]
        rfl
      rw [List.singleton_append, strtod_neg_toDigits, habs]
      push_cast
      rfl
    · rename_i hpos
      have habs : ((n.natAbs : Nat) : ℚ) = (n : ℚ) := by
        rw [← Int.natAbs_of_nonneg (not_lt.mp hpos)]
        rfl
      rw [List.nil_append, strtod_toDigits, habs]
  exact readNumber_of_strtod hchars.1 hchars.2 hread

/-- A text that can stand in quotes as it is. -/
def Plain (cs : List Char) : Prop := ∀ c ∈ cs, c ≠ '"' ∧ c ≠ '\\' ∧ 0x20 ≤ c.toNat

instance (cs : List Char) : Decidable (Plain cs) := List.decidableBAll _ cs

theorem escape_plain {cs : List Char} (h : Plain cs) : cs.flatMap escape = cs := by
  induction cs with
  | nil => rfl
  | cons c cs ih =>
      obtain ⟨hquote, hslash, hcontrol⟩ := h c List.mem_cons_self
      rw [List.flatMap_cons, ih fun d hd => h d (List.mem_cons_of_mem _ hd), escape,
        if_neg (by simp [hquote, hslash]), if_neg (by omega)]
      rfl

section Raw

variable {size : Nat} {t : List Char}

/-- The digits of an escape are inside of the quotes. -/
theorem hexDigits_inside {k cp n : Nat} {cs s : List Char}
    (h : JsonReader.hexDigits size k cp (cs ++ '"' :: t) = .ok (n, s)) :
    ∃ ds left, cs = ds ++ left ∧ ds.length = k ∧ s = left ++ '"' :: t := by
  induction k generalizing cp cs with
  | zero =>
      cases h
      exact ⟨[], cs, rfl, rfl, rfl⟩
  | succ k ih =>
      cases cs with
      | nil => cases h
      | cons c cs =>
          rw [List.cons_append, JsonReader.hexDigits] at h
          split at h
          · obtain ⟨ds, left, rfl, hlen, rfl⟩ := ih h
            exact ⟨c :: ds, left, rfl, by rw [List.length_cons, hlen], rfl⟩
          · cases h

theorem hex4_inside {n : Nat} {cs s : List Char} (h : hex4 size (cs ++ '"' :: t) = .ok (n, s)) :
    ∃ ds left, cs = ds ++ left ∧ ds.length = 4 ∧ s = left ++ '"' :: t := by
  unfold hex4 at h
  split at h
  · cases h
  · exact hexDigits_inside h

theorem length_utf8_le (cp : Nat) : (utf8 cp).length ≤ 4 := by
  unfold utf8
  repeat' split
  all_goals simp

/-- An escape of a code unit takes more characters than it gives. -/
theorem unicode_inside {cs out s : List Char} (h : unicode size (cs ++ '"' :: t) = .ok (out, s)) :
    ∃ ds left, cs = ds ++ left ∧ 4 ≤ ds.length ∧ out.length ≤ 4 ∧ s = left ++ '"' :: t := by
  unfold unicode at h
  split at h
  · cases h
  · rename_i cp s₁ hcp
    obtain ⟨ds, left, rfl, hlen, rfl⟩ := hex4_inside hcp
    split at h
    · rename_i hpair
      split at h
      · cases h
      · rename_i lo s₂ hlo
        -- A second escape starts with two characters that are no quotes.
        have hleft : ∃ more, left = '\\' :: 'u' :: more := by
          have hstart := hpair.2.2
          match left with
          | [] => simp at hstart
          | [c] => simp at hstart
          | c :: d :: more =>
              simp at hstart
              exact ⟨more, by rw [← hstart.1, ← hstart.2]⟩
        obtain ⟨more, rfl⟩ := hleft
        have hlow : hex4 size (more ++ '"' :: t) = .ok (lo, s₂) := hlo
        obtain ⟨ds', left', rfl, hlen', rfl⟩ := hex4_inside hlow
        have hgiven : out.length ≤ 4 ∧ s = left' ++ '"' :: t := by
          split at h
          · obtain ⟨rfl, rfl⟩ := Prod.mk.inj (Except.ok.inj h)
            exact ⟨length_utf8_le _, rfl⟩
          · obtain ⟨rfl, rfl⟩ := Prod.mk.inj (Except.ok.inj h)
            exact ⟨length_utf8_le _, rfl⟩
        refine ⟨ds ++ '\\' :: 'u' :: ds', left', by simp, ?_, hgiven.1, hgiven.2⟩
        rw [List.length_append]
        omega
    · split at h
      · obtain ⟨rfl, rfl⟩ := Prod.mk.inj (Except.ok.inj h)
        exact ⟨ds, left, rfl, hlen.ge, length_utf8_le _, rfl⟩
      · obtain ⟨rfl, rfl⟩ := Prod.mk.inj (Except.ok.inj h)
        exact ⟨ds, left, rfl, hlen.ge, length_utf8_le _, rfl⟩

theorem escaped_inside {e : Char} {cs out s : List Char}
    (h : escaped size e (cs ++ '"' :: t) = .ok (out, s)) :
    ∃ ds left, cs = ds ++ left ∧ out.length ≤ ds.length + 1 ∧ s = left ++ '"' :: t := by
  have hone : ∀ {c : Char}, Except.ok ([c], cs ++ '"' :: t) = (.ok (out, s) : Read (List Char)) →
      ∃ ds left, cs = ds ++ left ∧ out.length ≤ ds.length + 1 ∧ s = left ++ '"' :: t := by
    intro c hc
    obtain ⟨rfl, rfl⟩ := Prod.mk.inj (Except.ok.inj hc)
    exact ⟨[], cs, rfl, le_refl _, rfl⟩
  unfold escaped at h
  iterate 8
    split at h
    · exact hone h
  split at h
  · obtain ⟨ds, left, rfl, hlen, hout, rfl⟩ := unicode_inside h
    exact ⟨ds, left, rfl, by omega, rfl⟩
  · cases h

/-- What is read from a name in quotes is the name, or shorter, or it goes over the quotes. -/
theorem stringFrom_raw {fuel : Nat} {cs out s : List Char}
    (h : stringFrom size fuel (cs ++ '"' :: ',' :: '"' :: t) = .ok (out, s)) :
    (out = cs ∧ Plain cs) ∨ out.length < cs.length ∨
      (cs.getLast? = some '\\' ∧ out.getLast? = some ',') := by
  induction fuel generalizing cs out s with
  | zero => cases h
  | succ fuel ih =>
      cases cs with
      | nil =>
          cases h
          exact .inl ⟨rfl, fun c hc => absurd hc List.not_mem_nil⟩
      | cons c cs =>
          obtain ⟨-, rfl, -⟩ | ⟨hquote, hslash, hcontrol, more, hmore, rfl⟩ |
            ⟨rfl, e, s₁, chars, s₂, more, htail, hescape, hmore, rfl⟩ := stringFrom_eq_ok h
          · exact .inr (.inl (Nat.succ_pos _))
          · obtain ⟨rfl, hplain⟩ | hlen | ⟨hlast, hcomma⟩ := ih hmore
            · exact .inl ⟨rfl, List.forall_mem_cons.mpr ⟨⟨hquote, hslash, hcontrol⟩, hplain⟩⟩
            · exact .inr (.inl (Nat.succ_lt_succ hlen))
            · refine .inr (.inr ⟨?_, ?_⟩)
              · rw [List.getLast?_cons, hlast]
                rfl
              · rw [List.getLast?_cons, hcomma]
                rfl
          · cases cs with
            | nil =>
                -- The quotes are escaped, so the text ends with those of the next key.
                obtain ⟨rfl, rfl⟩ := List.cons.inj htail
                obtain ⟨rfl, rfl⟩ := Prod.mk.inj (Except.ok.inj hescape)
                refine .inr (.inr ⟨rfl, ?_⟩)
                match fuel, hmore with
                | fuel + 2, hmore =>
                    cases hmore
                    rfl
            | cons d cs =>
                obtain ⟨rfl, rfl⟩ := List.cons.inj htail
                obtain ⟨ds, left, rfl, hlen, rfl⟩ := escaped_inside hescape
                obtain ⟨rfl, -⟩ | hless | ⟨hlast, hcomma⟩ := ih hmore
                · refine .inr (.inl ?_)
                  simp only [List.length_append, List.length_cons]
                  omega
                · refine .inr (.inl ?_)
                  simp only [List.length_append, List.length_cons]
                  omega
                · refine .inr (.inr ⟨?_, ?_⟩)
                  · rw [List.getLast?_cons, List.getLast?_cons, List.getLast?_append, hlast]
                    rfl
                  · rw [List.getLast?_append, hcomma]
                    rfl

/-- A name that is read back from quotes can stand in quotes. -/
theorem plain_of_string {id : String} {s : List Char}
    (h : string size (id.toList ++ '"' :: ',' :: '"' :: t) = .ok (id, s)) : Plain id.toList := by
  unfold string at h
  split at h
  · cases h
  · rename_i out rest hread
    obtain ⟨hid, -⟩ := Prod.mk.inj (Except.ok.inj h)
    have hout : out = id.toList := by rw [← hid, String.toList_ofList]
    obtain ⟨-, hplain⟩ | hlen | ⟨hlast, hcomma⟩ := stringFrom_raw hread
    · exact hplain
    · rw [hout] at hlen
      exact absurd hlen (lt_irrefl _)
    · rw [hout, hlast] at hcomma
      exact absurd hcomma (by decide)

end Raw

/-- The records of some steps. -/
def records (es : List (String × StepOutcome)) : List String :=
  es.map fun e => stepRecord e.1 e.2

/-- The number of an integer. -/
def intJson (n : Int) : Json := .num (ofInt n)

/-- What the record of a step is meant to be. -/
def recordJson (e : String × StepOutcome) : Json :=
  .obj [("step", .str e.1), ("hits", intJson e.2.hits), ("pages", .arr (e.2.pages.map intJson))]

/-- Numbers that the types of the source can hold. -/
def InRange (so : StepOutcome) : Prop :=
  (-2 ^ 63 ≤ so.hits ∧ so.hits < 2 ^ 63) ∧ ∀ p ∈ so.pages, -2 ^ 31 ≤ p ∧ p < 2 ^ 31

instance (so : StepOutcome) : Decidable (InRange so) := inferInstanceAs (Decidable (_ ∧ _))

/-- An integer of 64 bits is a finite double. -/
theorem ofInt_finite {n : Int} (hlow : -2 ^ 63 ≤ n) (hhigh : n < 2 ^ 63) :
    ∃ q, ofInt n = .fin q := by
  have hbound : ∀ m : Int, m ≤ 2 ^ 63 → (m : ℚ) ≤ 2 ^ (1023 : Int) := by
    intro m hm
    calc (m : ℚ) ≤ ((2 ^ 63 : Int) : ℚ) := Int.cast_le.mpr hm
      _ = (2 : ℚ) ^ (63 : Int) := by norm_num
      _ ≤ (2 : ℚ) ^ (1023 : Int) := zpow_le_zpow_right₀ one_le_two (by norm_num)
  unfold ofInt
  split
  · rename_i hneg
    have hpos : (0 : ℚ) ≤ -(n : ℚ) := by
      rw [Left.nonneg_neg_iff]
      exact_mod_cast hneg.le
    have hle : -(n : ℚ) ≤ 2 ^ (1023 : Int) := by
      have := hbound (-n) (by omega)
      rwa [Int.cast_neg] at this
    obtain ⟨q, hq⟩ := nearestDouble_finite hpos hle
    rw [hq]
    exact ⟨-q, rfl⟩
  · rename_i hpos
    exact nearestDouble_finite (Int.cast_nonneg (not_lt.mp hpos)) (hbound n hhigh.le)

section Read

variable {size depth : Nat}

theorem value_int {n : Int} (hlow : -2 ^ 63 ≤ n) (hhigh : n < 2 ^ 63)
    (hdepth : depth < kMaxObjectWalk) {rest : List Char} (hrest : EndsNumber rest) :
    value size 1 depth ((toString n).toList ++ rest) = .ok (intJson n, rest) := by
  obtain ⟨q, hq⟩ := ofInt_finite hlow hhigh
  rw [intJson, hq]
  exact value_of_number hdepth (readNumber_toString hq) hrest

/-- A list of integers is read back. -/
theorem items_ints {n : Int} {ns : List Int} (h : ∀ m ∈ n :: ns, -2 ^ 63 ≤ m ∧ m < 2 ^ 63)
    (hdepth : depth < kMaxObjectWalk) (rest : List Char) :
    ∃ fuel, items size fuel depth
      ((commaJoin ((n :: ns).map toString)).toList ++ ']' :: rest) =
        .ok ((n :: ns).map intJson, rest) := by
  induction ns generalizing n with
  | nil =>
      obtain ⟨hlow, hhigh⟩ := h n List.mem_cons_self
      exact ⟨2, items_last (value_int hlow hhigh hdepth (endsNumber_cons rfl rest))⟩
  | cons m ns ih =>
      obtain ⟨hlow, hhigh⟩ := h n List.mem_cons_self
      obtain ⟨fuel, hmore⟩ := ih (n := m) fun k hk => h k (List.mem_cons_of_mem _ hk)
      have htext : (commaJoin ((n :: m :: ns).map toString)).toList ++ ']' :: rest =
          (toString n).toList ++ ',' :: ((commaJoin ((m :: ns).map toString)).toList ++
            ']' :: rest) := by
        rw [List.map_cons, List.map_cons, toList_commaJoin_cons]
        simp
      rw [htext]
      exact items_next (value_int hlow hhigh hdepth (endsNumber_cons rfl _)) hmore

theorem value_ints {ns : List Int} (h : ∀ m ∈ ns, -2 ^ 63 ≤ m ∧ m < 2 ^ 63)
    (hdepth : depth + 1 < kMaxObjectWalk) (rest : List Char) :
    ∃ fuel, value size fuel depth ('[' :: ((commaJoin (ns.map toString)).toList ++ ']' :: rest)) =
      .ok (.arr (ns.map intJson), rest) := by
  cases ns with
  | nil => exact ⟨2, value_of_emptyArray (by omega)⟩
  | cons n ns =>
      obtain ⟨fuel, hitems⟩ := items_ints h hdepth rest
      exact ⟨_, value_of_array (by omega) hitems⟩

/-- A key in quotes and its value. -/
def keyed (key : String) (s : List Char) : List Char :=
  '"' :: (key.toList.flatMap escape ++ '"' :: ':' :: s)

theorem toList_stepRecord (e : String × StepOutcome) (rest : List Char) :
    (stepRecord e.1 e.2).toList ++ rest =
      '\x7b' :: keyed "step" ('"' :: (e.1.toList ++ '"' :: ',' ::
        keyed "hits" ((toString e.2.hits).toList ++ ',' ::
          keyed "pages" ('[' :: ((commaJoin (e.2.pages.map toString)).toList ++
            ']' :: '\x7d' :: rest))))) := by
  have hstep : "step".toList.flatMap escape = "step".toList := by decide
  have hhits : "hits".toList.flatMap escape = "hits".toList := by decide
  have hpages : "pages".toList.flatMap escape = "pages".toList := by decide
  simp only [keyed, hstep, hhits, hpages, stepRecord]
  simp

/-- A record is read as it is meant, if its name can stand in quotes. -/
theorem value_record {e : String × StepOutcome} (hplain : Plain e.1.toList) (hrange : InRange e.2)
    (hdepth : depth + 2 < kMaxObjectWalk) (rest : List Char) :
    ∃ fuel, value size fuel depth ((stepRecord e.1 e.2).toList ++ rest) =
      .ok (recordJson e, rest) := by
  obtain ⟨⟨hlow, hhigh⟩, hpages⟩ := hrange
  have hstring : ∀ s, string size (e.1.toList ++ '"' :: s) = .ok (e.1, s) := by
    intro s
    have hread := string_flatMap size e.1 s
    rwa [escape_plain hplain] at hread
  have hwide : ∀ m ∈ e.2.pages, -2 ^ 63 ≤ m ∧ m < 2 ^ 63 := by
    intro m hm
    have := hpages m hm
    omega
  obtain ⟨fuel₁, hvalue₁⟩ : ∃ fuel, value size fuel (depth + 1) _ = _ :=
    value_ints hwide hdepth ('\x7d' :: rest)
  have hmembers₁ := members_last (k := "pages") hvalue₁
  have hvalue₂ : value size 1 (depth + 1) _ = _ := value_int hlow hhigh (by omega)
    (endsNumber_cons (c := ',') rfl (keyed "pages" ('[' ::
      ((commaJoin (e.2.pages.map toString)).toList ++ ']' :: '\x7d' :: rest))))
  obtain ⟨fuel₂, hmembers₂⟩ := members_next (k := "hits") hvalue₂ hmembers₁
  have hvalue₃ : ∀ s, value size 1 (depth + 1) ('"' :: (e.1.toList ++ '"' :: s)) =
      .ok (.str e.1, s) := fun s => value_of_string (by omega) (hstring s)
  obtain ⟨fuel₃, hmembers₃⟩ := members_next (k := "step") (hvalue₃ _) hmembers₂
  rw [toList_stepRecord]
  exact ⟨_, value_of_object (by omega) hmembers₃⟩

theorem string_of_value {fuel : Nat} {str : String} {s rest : List Char}
    (h : value size fuel depth ('"' :: s) = .ok (.str str, rest)) :
    ∃ left, string size s = .ok (str, left) := by
  obtain ⟨c, tail, hws, -, hcase⟩ := value_eq_ok_iff.mp (value_of_more h)
  rw [ws_cons (by decide)] at hws
  obtain ⟨rfl, rfl⟩ := List.cons.inj hws
  obtain ⟨hc, -⟩ | ⟨hc, -⟩ | ⟨-, -, hscalar⟩ := hcase
  · exact absurd hc (by decide)
  · exact absurd hc (by decide)
  · simp only [scalar, List.head?_cons, if_true, List.drop_one, List.tail_cons] at hscalar
    split at hscalar
    · cases hscalar
    · rename_i str' rest' hstring
      cases hscalar
      exact ⟨_, hstring⟩

/-- The string behind a key. -/
theorem string_of_members {fuel : Nat} {key str : String} {s rest : List Char}
    {ms : List (String × Json)}
    (h : members size fuel depth (keyed key ('"' :: s)) = .ok ((key, .str str) :: ms, rest)) :
    ∃ left, string size s = .ok (str, left) := by
  cases fuel with
  | zero =>
      rw [members] at h
      cases h
  | succ fuel =>
      obtain ⟨s₁, key', s₂, s₃, child, s₄, hquote, hkey, hcolon, hchild, hend⟩ :=
        members_eq_ok_iff.mp h
      rw [keyed, ws_cons (by decide)] at hquote
      obtain ⟨-, rfl⟩ := List.cons.inj hquote
      rw [string_flatMap] at hkey
      obtain ⟨rfl, rfl⟩ := Prod.mk.inj (Except.ok.inj hkey)
      rw [ws_cons (by decide)] at hcolon
      obtain ⟨-, rfl⟩ := List.cons.inj hcolon
      have hstr : child = .str str := by
        obtain ⟨s₅, more, -, -, hms⟩ | ⟨-, hms⟩ := hend
        · exact (Prod.mk.inj (List.cons.inj hms).1).2.symm
        · exact (Prod.mk.inj (List.cons.inj hms).1).2.symm
      subst hstr
      exact string_of_value hchild

/-- If a record is read as it is meant, its name can stand in quotes. -/
theorem plain_of_record {fuel : Nat} {e : String × StepOutcome} {rest rest' : List Char}
    (h : value size fuel depth ((stepRecord e.1 e.2).toList ++ rest) = .ok (recordJson e, rest')) :
    Plain e.1.toList := by
  have hmore := value_of_more h
  rw [toList_stepRecord] at hmore
  obtain ⟨c, tail, hws, -, hcase⟩ := value_eq_ok_iff.mp hmore
  rw [ws_cons (by decide)] at hws
  obtain ⟨rfl, rfl⟩ := List.cons.inj hws
  obtain ⟨-, hobj⟩ | ⟨hc, -⟩ | ⟨hc, -⟩ := hcase
  · rw [keyed, ws_cons (by decide)] at hobj
    obtain ⟨hc, -⟩ | ⟨-, ms, hms, hmembers⟩ := object_eq_ok_iff.mp hobj
    · cases hc
    · obtain rfl := Json.obj.inj hms
      obtain ⟨left, hstring⟩ := string_of_members hmembers
      exact plain_of_string hstring
  · exact absurd hc (by decide)
  · exact absurd rfl hc

theorem items_first {fuel : Nat} {x : Json} {xs : List Json} {s rest : List Char}
    (h : items size fuel depth s = .ok (x :: xs, rest)) :
    ∃ fuel' s₁, value size fuel' depth s = .ok (x, s₁) ∧
      (xs ≠ [] → ∃ s₂, ws s₁ = ',' :: s₂ ∧ items size fuel' depth s₂ = .ok (xs, rest)) := by
  cases fuel with
  | zero =>
      rw [items] at h
      cases h
  | succ fuel =>
      obtain ⟨child, s₁, hvalue, hend⟩ := items_eq_ok_iff.mp h
      obtain ⟨s₂, more, hcomma, hmore, hxs⟩ | ⟨-, hxs⟩ := hend
      · obtain ⟨rfl, rfl⟩ := List.cons.inj hxs
        exact ⟨fuel, s₁, hvalue, fun _ => ⟨s₂, hcomma, hmore⟩⟩
      · obtain ⟨rfl, rfl⟩ := List.cons.inj hxs
        exact ⟨fuel, s₁, hvalue, fun hne => absurd rfl hne⟩

theorem toList_records (e e' : String × StepOutcome) (es : List (String × StepOutcome))
    (s : List Char) :
    (commaJoin (records (e :: e' :: es))).toList ++ s =
      (stepRecord e.1 e.2).toList ++ ',' :: ((commaJoin (records (e' :: es))).toList ++ s) := by
  rw [records, List.map_cons, List.map_cons, toList_commaJoin_cons]
  simp [records]

/-- Records with plain ids are read back. -/
theorem items_of_plain {e : String × StepOutcome} {es : List (String × StepOutcome)}
    (hrange : ∀ d ∈ e :: es, InRange d.2) (hplain : ∀ d ∈ e :: es, Plain d.1.toList)
    (hdepth : depth + 2 < kMaxObjectWalk) (rest : List Char) :
    ∃ fuel, items size fuel depth ((commaJoin (records (e :: es))).toList ++ ']' :: rest) =
      .ok ((e :: es).map recordJson, rest) := by
  induction es generalizing e with
  | nil =>
      obtain ⟨fuel, hvalue⟩ : ∃ fuel, value size fuel depth _ = _ :=
        value_record (hplain e List.mem_cons_self) (hrange e List.mem_cons_self)
          hdepth (']' :: rest)
      exact ⟨fuel + 1, items_last hvalue⟩
  | cons e' es ih =>
      obtain ⟨fuel', hmore⟩ := ih (fun d hd => hrange d (List.mem_cons_of_mem _ hd))
        (fun d hd => hplain d (List.mem_cons_of_mem _ hd))
      rw [toList_records]
      obtain ⟨fuel, hvalue⟩ : ∃ fuel, value size fuel depth _ = _ :=
        value_record (hplain e List.mem_cons_self) (hrange e List.mem_cons_self) hdepth
        (',' :: ((commaJoin (records (e' :: es))).toList ++ ']' :: rest))
      exact items_next hvalue hmore

/-- Where the records are read back, their ids are plain. -/
theorem plain_of_items {fuel : Nat} {e : String × StepOutcome} {es : List (String × StepOutcome)}
    {s rest : List Char} (hrange : ∀ d ∈ e :: es, InRange d.2)
    (hdepth : depth + 2 < kMaxObjectWalk)
    (h : items size fuel depth ((commaJoin (records (e :: es))).toList ++ s) =
      .ok ((e :: es).map recordJson, rest)) :
    ∀ d ∈ e :: es, Plain d.1.toList := by
  induction es generalizing e fuel with
  | nil =>
      obtain ⟨fuel', s₁, hvalue, -⟩ := items_first h
      exact List.forall_mem_singleton.mpr (plain_of_record hvalue)
  | cons e' es ih =>
      rw [toList_records] at h
      obtain ⟨fuel', s₁, hvalue, hnext⟩ := items_first h
      obtain ⟨s₂, hcomma, hmore⟩ := hnext (List.cons_ne_nil _ _)
      have hplain := plain_of_record hvalue
      -- Reading the record leaves the text behind it, so the next records stand there.
      obtain ⟨fuel₁, hrecord⟩ : ∃ fuel, value size fuel depth _ = _ :=
        value_record hplain (hrange e List.mem_cons_self) hdepth
        (',' :: ((commaJoin (records (e' :: es))).toList ++ s))
      have hsame := (value_of_more hvalue).symm.trans (value_of_more hrecord)
      obtain ⟨-, rfl⟩ := Prod.mk.inj (Except.ok.inj hsame)
      rw [ws_cons (by decide)] at hcomma
      obtain ⟨-, rfl⟩ := List.cons.inj hcomma
      exact List.forall_mem_cons.mpr
        ⟨hplain, ih (fun d hd => hrange d (List.mem_cons_of_mem _ hd)) hmore⟩

end Read

/-- The text of records is read as the records exactly if each name can stand in quotes. -/
theorem parseJson_records_iff {es : List (String × StepOutcome)} (hrange : ∀ e ∈ es, InRange e.2) :
    parseJson (resultsJson (records es)) = .ok (.arr (es.map recordJson)) ↔
      ∀ e ∈ es, Plain e.1.toList := by
  have htext : (resultsJson (records es)).toList =
      '[' :: ((commaJoin (records es)).toList ++ [']']) := by
    simp [resultsJson]
  rw [parseJson_eq_ok_iff, htext]
  cases es with
  | nil =>
      refine iff_of_true ⟨2, [], ?_, rfl⟩ (fun e he => absurd he List.not_mem_nil)
      exact value_of_emptyArray (by decide)
  | cons e es =>
      constructor
      · rintro ⟨fuel, rest, hvalue, -⟩
        obtain ⟨c, tail, hws, -, hcase⟩ := value_eq_ok_iff.mp (value_of_more hvalue)
        rw [ws_cons (by decide)] at hws
        obtain ⟨rfl, rfl⟩ := List.cons.inj hws
        obtain ⟨hc, -⟩ | ⟨-, harray⟩ | ⟨-, hc, -⟩ := hcase
        · exact absurd hc (by decide)
        · obtain ⟨-, hnil, -⟩ | ⟨-, xs, hxs, hitems⟩ := array_eq_ok_iff.mp harray
          · cases hnil
          · obtain rfl := Json.arr.inj hxs
            exact plain_of_items hrange (by decide) (items_ws_iff.mp hitems)
        · exact absurd rfl hc
      · intro hplain
        obtain ⟨fuel, hitems⟩ : ∃ fuel, items _ fuel 1 _ = _ :=
          items_of_plain hrange hplain (by decide) []
        exact ⟨_, [], value_of_array (by decide) hitems, rfl⟩

section Run

variable {ρ : Type} (env : Env ρ) (p : Program ρ)

/-- The name and the outcome of a step that is executed. -/
def outcome (i : Nat) (step : Json) (s : PlanState) : String × StepOutcome :=
  let id := stepId env s.vars i step
  (id, (reportFailure id (perform env p s id step)).so)

/-- The steps that a run executes, with their outcomes. -/
def executed : Nat → PlanState → List (String × StepOutcome)
  | 0, _ => []
  | fuel + 1, s =>
      match current p s with
      | some (i, step) =>
          (if disabled env s.vars step then [] else [outcome env p i step s]) ++
            executed fuel (turn env p i step s)
      | none => []

theorem results_jobStep (s : PlanState) (id kind : String) (job : SubJob) :
    (jobStep env p s id kind job).st.results = s.results := by
  unfold jobStep
  dsimp only
  repeat' split
  all_goals rfl

theorem results_perform (s : PlanState) (id : String) (step : Json) :
    (perform env p s id step).st.results = s.results := by
  unfold perform
  dsimp only
  split
  · rfl
  · split
    · unfold variableStep
      dsimp only
      repeat' split
      all_goals rfl
    · repeat' split
      · exact results_jobStep env p s id _ _
      · exact results_jobStep env p s id _ _
      · exact results_jobStep env p s id _ _
      · rfl

/-- The step lemma: a turn adds the record of its step. -/
theorem results_turn (i : Nat) (step : Json) (s : PlanState) :
    (turn env p i step s).results = s.results ++
      records (if disabled env s.vars step then [] else [outcome env p i step s]) := by
  have hfailure : ∀ id (d : Done), (reportFailure id d).st.results = d.st.results := by
    intro id d
    unfold reportFailure
    split
    · rfl
    · rfl
  unfold turn
  split
  · exact (List.append_nil _).symm
  · unfold execute advance
    dsimp only
    rw [hfailure, results_perform]
    rfl

/-- The run lemma: the results are the records of the steps that were executed. -/
theorem results_loop (fuel : Nat) (s : PlanState) :
    (loop env p fuel s).results = s.results ++ records (executed env p fuel s) := by
  induction fuel generalizing s with
  | zero => exact (List.append_nil _).symm
  | succ fuel ih =>
      unfold loop executed
      cases current p s with
      | none => exact (List.append_nil _).symm
      | some next =>
          obtain ⟨i, step⟩ := next
          dsimp only
          rw [ih, results_turn, records, records, records, List.map_append, List.append_assoc]

end Run

/-- What scripts of a plan see after any number of turns is read as the records of the executed
steps exactly if the names of these steps can stand in quotes. -/
theorem results_wellFormed_iff {ρ : Type} (env : Env ρ) (data : Bytes) (optIn : Options ρ)
    (raw : Json) (turns : Nat)
    (hrange : ∀ e ∈ executed env (start env data optIn raw).1 turns (start env data optIn raw).2,
      InRange e.2) :
    parseJson (resultsJson
        (loop env (start env data optIn raw).1 turns (start env data optIn raw).2).results) =
      .ok (.arr ((executed env (start env data optIn raw).1 turns
        (start env data optIn raw).2).map recordJson)) ↔
    ∀ e ∈ executed env (start env data optIn raw).1 turns (start env data optIn raw).2,
      Plain e.1.toList := by
  have hinitial : (start env data optIn raw).2.results = [] := rfl
  rw [results_loop, hinitial, List.nil_append]
  exact parseJson_records_iff hrange

/-- A plan with one step that goes back to the original file, under a name with a variable. -/
def namedStep : Json := planOf [.obj [("id", .str "back \x7btitle\x7d"), ("do", .str "revert")]]

/-- Options that give the variable a value. -/
def titled (title : String) : Options Unit :=
    { plainOptions with profileVars := [("title", title)] }

/-- The names of the steps that were executed. -/
def executedIds (title : String) : List String :=
  (executed lineEnv (start lineEnv [0x25] (titled title) namedStep).1 256
    (start lineEnv [0x25] (titled title) namedStep).2).map Prod.fst

/-- What a script would see behind the last step. -/
def seenResults (title : String) : String :=
  resultsJson (loop lineEnv (start lineEnv [0x25] (titled title) namedStep).1 256
    (start lineEnv [0x25] (titled title) namedStep).2).results

/-- A name without quotes is read back. -/
theorem quiet_wellFormed : (∀ e ∈ executed lineEnv
      (start lineEnv [0x25] (titled "home") namedStep).1 256
      (start lineEnv [0x25] (titled "home") namedStep).2, InRange e.2) ∧
    executedIds "home" = ["back home"] ∧
    parseJson (seenResults "home") = .ok (.arr ((executed lineEnv
      (start lineEnv [0x25] (titled "home") namedStep).1 256
      (start lineEnv [0x25] (titled "home") namedStep).2).map recordJson)) := by
  have hrange : ∀ e ∈ executed lineEnv (start lineEnv [0x25] (titled "home") namedStep).1 256
      (start lineEnv [0x25] (titled "home") namedStep).2, InRange e.2 := by
    decide
  have hplain : ∀ e ∈ executed lineEnv (start lineEnv [0x25] (titled "home") namedStep).1 256
      (start lineEnv [0x25] (titled "home") namedStep).2, Plain e.1.toList := by
    decide
  refine ⟨hrange, by decide, ?_⟩
  unfold seenResults
  exact (results_wellFormed_iff lineEnv [0x25] (titled "home") namedStep 256 hrange).mpr
    hplain

/-- A name with quotes makes another record, of a step that was never executed. -/
theorem quoted_adds_record :
    executedIds "\",\"hits\":0,\"pages\":[]\x7d,\x7b\"step\":\"approve" =
      ["back \",\"hits\":0,\"pages\":[]\x7d,\x7b\"step\":\"approve"] ∧
    parseJson (seenResults "\",\"hits\":0,\"pages\":[]\x7d,\x7b\"step\":\"approve") =
      .ok (.arr [recordJson ("back ", {}), recordJson ("approve", {})]) := by
  refine ⟨by decide +kernel, parseJson_of_readsAs (by decide +kernel)⟩

end Kura.Engine.PlanResults
