import Kura.Engine.Plan
import Kura.Engine.Strtod

/-!
# Hits of rules

A rule of a profile reports how often it was hit, if a comparison on the
number of hits admits it. The number stands in the text of the report, between
the name of the rule and its description; plans read it back from there.

What a rule found is given: the number of hits, the pages and the hits on each
page. Reading the number back looks for the last mark of the whole text, so the
description can hide the right one. The comparison is checked when the profile
is read and scanned again when it is used; only the first scan skips blanks
before the operator.
-/

namespace Kura.Engine.RuleHits

open Kura.Base (findFrom rfindFrom occursAt occursAt_iff rfindFrom_eq_some_iff)
open Kura.Engine.Jobs Kura.Engine.Plan Kura.Engine.CText

/-- The operators of a comparison. -/
inductive Comparison where
  | lt | le | eq | ne | ge | gt
  deriving DecidableEq

/-- The comparison of two numbers. -/
def Comparison.holds : Comparison → Double → Double → Bool
  | .lt, x, v => x.lt v
  | .le, x, v => x.le v
  | .eq, x, v => x.le v && v.le x
  | .ne, x, v => !(x.le v && v.le x)
  | .ge, x, v => v.le x
  | .gt, x, v => v.lt x

/-- The operators as they are written. -/
def operatorOf (op : List Char) : Option Comparison :=
  if op = ['<'] then some .lt
  else if op = ['<', '='] then some .le
  else if op = ['=', '='] then some .eq
  else if op = ['!', '='] then some .ne
  else if op = ['>', '='] then some .ge
  else if op = ['>'] then some .gt
  else none

/-- The characters of operators. -/
def isOp (c : Char) : Bool := c == '<' || c == '>' || c == '=' || c == '!'

/-- The operator and the number of an accepted text. -/
def ruleParts (s : List Char) : Option (Comparison × Double) :=
  let t := s.dropWhile (· == ' ')
  let rest := cstr (t.dropWhile isOp)
  let (v, left) := CText.strtod rest
  match operatorOf (t.takeWhile isOp) with
  | none => none
  | some op =>
      if left.length = rest.length then none
      else if left.dropWhile (· == ' ') = [] then some (op, v) else none

/-- Whether a text is a comparison. -/
def hitsRule (s : String) : Bool := (ruleParts s.toList).isSome

/-- Whether a number of hits meets a comparison. -/
def hitsSatisfy (n : Int) (rule : String) : Bool :=
  -- the terminating null character is found among the operators too
  let opOrNull (c : Char) : Bool := isOp c || c == '\x00'
  let v := atof (rule.toList.dropWhile opOrNull)
  match operatorOf (rule.toList.takeWhile opOrNull) with
  | some op => op.holds (ofInt n) v
  | none => Comparison.eq.holds (ofInt n) v

/-- The fields of a rule that its report uses. -/
structure PfRule where
  name : String
  description : String
  severity : Int
  silent : Bool
  reportDocHits : String
  reportPageHits : String

/-- What a rule found: the hits, the pages in order, and the hits on each page. -/
structure Found where
  hits : Int
  pages : List Int
  perPage : List (Int × Int)

/-- The hits and pages that are reported. -/
def admitted (rule : PfRule) (found : Found) : Int × List Int :=
  let (hits, pages) :=
    if rule.reportPageHits = "" then (found.hits, found.pages)
    else
      let kept := found.perPage.filter fun pn => 0 < pn.2 && hitsSatisfy pn.2 rule.reportPageHits
      ((kept.map Prod.snd).sum, kept.map Prod.fst)
  if rule.reportDocHits ≠ "" ∧ hitsSatisfy hits rule.reportDocHits = false then (0, [])
  else (hits, pages)

/-- Successive pages as the first and the last one of them. -/
def spans : List Int → List (Int × Int)
  | [] => []
  | p :: ps =>
      match spans ps with
      | [] => [(p, p)]
      | (a, b) :: rest => if a = p + 1 then (p, b) :: rest else (p, p) :: (a, b) :: rest

/-- Three pages or more are written as a range. -/
def spanText (ab : Int × Int) : String :=
  if 2 ≤ ab.2 - ab.1 then toString ab.1 ++ "-" ++ toString ab.2
  else if ab.2 = ab.1 + 1 then toString ab.1 ++ ", " ++ toString ab.2
  else toString ab.1

def pageRangeList (pages : List Int) : String :=
  (if pages.length = 1 then "page " else "pages ") ++
    String.intercalate ", " ((spans pages).map spanText)

/-- The names of severities. -/
def sevName (sev : Int) : String :=
  if sev = 1 then "Info" else if sev = 2 then "Warning" else if sev = 3 then "Error" else ""

/-- The report of a rule. -/
def hitIssue (rule : PfRule) (hits : Int) (pages : List Int) : Issue :=
  let sev := if rule.severity < 4 ∧ 0 < rule.severity then rule.severity else 1
  { code := "CHECK_HIT"
    detail := sevName sev ++ ": " ++ rule.name ++ " (" ++ toString hits ++ " hit(s)" ++
      (if pages = [] then "" else ", " ++ pageRangeList pages) ++ ")" ++
      (if rule.description = "" then "" else " - " ++ rule.description)
    fixed := false
    severity := sev
    pages := pages }

/-- The rules that report, with their hits and pages; a silent rule does not. -/
def reported (rules : List (PfRule × Found)) : List (PfRule × Int × List Int) :=
  rules.filterMap fun rf =>
    let (hits, pages) := admitted rf.1 rf.2
    if hits ≠ 0 ∧ rf.1.silent = false then some (rf.1, hits, pages) else none

/-- The reports of the rules. -/
def reportRuleHits (rules : List (PfRule × Found)) : List Issue :=
  (reported rules).map fun rep => hitIssue rep.1 rep.2.1 rep.2.2

/-- What stands behind the number. -/
def marker : List Char := [' ', 'h', 'i', 't']

/-- The number right before a mark, or one. -/
def countBefore (before : List Char) : Int :=
  let digits := (before.reverse.takeWhile Char.isDigit).reverse
  if digits = [] then 1 else min (leadingNumber digits) (2 ^ 63 - 1)

/-- Another number than `n` is read off a description. -/
def Misleading (description : String) (n : Int) : Prop :=
  ∃ before after, ' ' :: description.toList = before ++ marker ++ after ∧ ¬ marker <:+: after ∧
    countBefore before ≠ n

/-- The last mark is the one behind which there is none. -/
theorem rfindFrom_marker (before : List Char) {after : List Char} (h : ¬ marker <:+: after) :
    rfindFrom marker (before ++ marker ++ after) (before ++ marker ++ after).length =
      some before.length := by
  rw [rfindFrom_eq_some_iff]
  refine ⟨by simp, ?_, ?_⟩
  · rw [occursAt_iff, List.append_assoc, List.drop_left]
    exact List.prefix_append _ _
  · intro j hlt hle
    rw [← Bool.not_eq_true, occursAt_iff]
    intro hocc
    obtain ⟨k, rfl⟩ := Nat.exists_eq_add_of_lt hlt
    have hdrop : (before ++ marker ++ after).drop (before.length + k + 1) =
        (marker ++ after).drop (k + 1) := by
      rw [List.append_assoc, Nat.add_assoc, ← List.drop_drop, List.drop_left]
    rw [hdrop] at hocc
    -- a later mark starts inside of this one, or it lies behind it
    obtain hinside | hbehind := Nat.lt_or_ge k 3
    · obtain ⟨rest, hrest⟩ := hocc
      interval_cases k
      · simp [marker] at hrest
      · simp [marker] at hrest
      · simp [marker] at hrest
    · have hafter : (marker ++ after).drop (k + 1) = after.drop (k - 3) := by
        rw [List.drop_append]
        have hlen : marker.length = 4 := rfl
        rw [List.drop_eq_nil_of_le (by omega), List.nil_append, hlen]
        congr 1
      rw [hafter] at hocc
      exact h (hocc.isInfix.trans (List.drop_suffix _ _).isInfix)

theorem hitCount_of_last {i : Issue} {before after : List Char}
    (hdetail : i.detail.toList = before ++ marker ++ after) (h : ¬ marker <:+: after) :
    hitCount i = countBefore before := by
  have hfind := rfindFrom_marker before h
  rw [← hdetail] at hfind
  unfold hitCount
  dsimp only
  have hmarker : [' ', 'h', 'i', 't'] = marker := rfl
  rw [hmarker, hfind]
  dsimp only
  rw [hdetail, List.append_assoc, List.take_left]
  rfl

theorem toList_toString (n : Int) :
    (toString n).toList = (if n < 0 then ['-'] else []) ++ Nat.toDigits 10 n.natAbs := by
  cases n with
  | ofNat n => simp [toString, Int.repr, Nat.repr]
  | negSucc n => simp [toString, Int.repr, Nat.repr]

theorem h_notMem_toString (n : Int) : 'h' ∉ (toString n).toList := by
  rw [toList_toString, List.mem_append, not_or]
  constructor
  · split
    · decide
    · decide
  · intro hmem
    have hdigit := Nat.isDigit_of_mem_toDigits (by decide) (by decide) hmem
    exact absurd hdigit (by decide)

theorem h_notMem_append {s u : String} (hs : 'h' ∉ s.toList) (hu : 'h' ∉ u.toList) :
    'h' ∉ (s ++ u).toList := by
  rw [String.toList_append, List.mem_append, not_or]
  exact ⟨hs, hu⟩

theorem h_notMem_spanText (ab : Int × Int) : 'h' ∉ (spanText ab).toList := by
  unfold spanText
  split
  · exact h_notMem_append (h_notMem_append (h_notMem_toString _) (by decide)) (h_notMem_toString _)
  · split
    · exact h_notMem_append (h_notMem_append (h_notMem_toString _) (by decide))
        (h_notMem_toString _)
    · exact h_notMem_toString _

theorem h_notMem_intercalate {texts : List String} (h : ∀ s ∈ texts, 'h' ∉ s.toList) :
    'h' ∉ (String.intercalate ", " texts).toList := by
  rw [String.toList_intercalate]
  induction texts with
  | nil => simp
  | cons s rest ih =>
      have hs := h s List.mem_cons_self
      have hrest := ih fun u hu => h u (List.mem_cons_of_mem _ hu)
      cases rest with
      | nil => simpa using hs
      | cons u rest =>
          rw [List.map_cons, List.map_cons, List.intercalate_cons_cons, ← List.map_cons]
          simp only [List.mem_append, not_or]
          exact ⟨⟨hs, by decide⟩, hrest⟩

theorem h_notMem_pageRangeList (pages : List Int) : 'h' ∉ (pageRangeList pages).toList := by
  unfold pageRangeList
  apply h_notMem_append
  · split
    · decide
    · decide
  · apply h_notMem_intercalate
    intro s hs
    obtain ⟨ab, -, rfl⟩ := List.mem_map.mp hs
    exact h_notMem_spanText ab

/-- A mark behind a text without the letter `h` that ends in another character than a blank. -/
theorem marker_infix_of_append {front back : List Char} (hfront : 'h' ∉ front)
    (hlast : front.getLast? ≠ some ' ') (h : marker <:+: front ++ back) : marker <:+: back := by
  obtain ⟨before, after, heq⟩ := h
  rw [List.append_assoc, List.append_eq_append_iff] at heq
  obtain ⟨mid, rfl, hmid⟩ | ⟨mid, rfl, hmid⟩ := heq
  · -- a mark that starts in the first text would end it with a blank or have its `h` there
    match mid, hmid with
    | [], hmid => exact ⟨[], after, by simpa using hmid⟩
    | [c], hmid =>
        simp only [marker, List.cons_append, List.cons.injEq] at hmid
        rw [← hmid.1] at hlast
        simp at hlast
    | c :: d :: mid, hmid =>
        simp only [marker, List.cons_append, List.cons.injEq] at hmid
        rw [← hmid.2.1] at hfront
        simp at hfront
  · exact ⟨mid, after, by rw [hmid, List.append_assoc]⟩

/-- The text up to the number. -/
def leading (rule : PfRule) (hits : Int) : List Char :=
  (sevName (hitIssue rule hits []).severity ++ ": " ++ rule.name ++ " (" ++ toString hits).toList

/-- The text from the mark of the number to the description. -/
def closing (pages : List Int) : List Char :=
  "(s)".toList ++ (if pages = [] then "" else ", " ++ pageRangeList pages).toList ++ [')']

theorem detail_hitIssue (rule : PfRule) (hits : Int) (pages : List Int) :
    (hitIssue rule hits pages).detail.toList =
      leading rule hits ++ marker ++ (closing pages ++
        if rule.description = "" then [] else " -".toList ++ ' ' :: rule.description.toList) := by
  simp only [hitIssue, leading, closing, String.toList_append]
  by_cases hnone : rule.description = ""
  · simp [hnone, marker]
  · simp [hnone, marker]

theorem h_notMem_closing (pages : List Int) : 'h' ∉ closing pages := by
  simp only [closing, List.mem_append, not_or]
  refine ⟨⟨by decide, ?_⟩, by decide⟩
  split
  · decide
  · exact h_notMem_append (by decide) (h_notMem_pageRangeList pages)

theorem leadingNumber_toDigits (n : Nat) : leadingNumber (Nat.toDigits 10 n) = n := by
  have hall : ∀ c ∈ Nat.toDigits 10 n, c.isDigit = true := fun c hc =>
    Nat.isDigit_of_mem_toDigits (by decide) (by decide) hc
  have hfold : ∀ (cs : List Char) (k : Nat),
      cs.foldl (fun n c => 10 * n + (c.toNat - 48)) k = Nat.ofDigitChars 10 cs k := by
    intro cs
    induction cs with
    | nil => simp
    | cons c cs ih =>
        intro k
        rw [List.foldl_cons, Nat.ofDigitChars_cons, ih]
        rfl
  rw [leadingNumber, List.takeWhile_eq_self_iff.mpr hall, hfold]
  exact Nat.ofDigitChars_ten_toDigits

/-- The digits at the end of a text, up to a character that is none. -/
theorem trailingDigits_append {front ds : List Char} {c : Char} (hc : c.isDigit = false) :
    ((front ++ c :: ds).reverse.takeWhile Char.isDigit) = ds.reverse.takeWhile Char.isDigit := by
  have hrev : (front ++ c :: ds).reverse = ds.reverse ++ c :: front.reverse := by simp
  rw [hrev, List.takeWhile_append]
  split
  · rename_i hall
    rw [List.takeWhile_cons, hc]
    have := List.takeWhile_prefix (l := ds.reverse) Char.isDigit
    simp [this.eq_of_length hall]
  · rfl

theorem countBefore_leading (rule : PfRule) {n : Int} (hn : 1 ≤ n) (hfit : n < 2 ^ 63) :
    countBefore (leading rule n) = n := by
  have htext :
      leading rule n = (sevName (hitIssue rule n []).severity ++ ": " ++ rule.name).toList ++
      [' '] ++ '(' :: Nat.toDigits 10 n.natAbs := by
    simp only [leading, String.toList_append, toList_toString, if_neg (by omega : ¬ n < 0)]
    simp
  have hall : ∀ c ∈ (Nat.toDigits 10 n.natAbs).reverse, c.isDigit = true := fun c hc =>
    Nat.isDigit_of_mem_toDigits (by decide) (by decide) (List.mem_reverse.mp hc)
  rw [countBefore, htext, trailingDigits_append (by decide), List.takeWhile_eq_self_iff.mpr hall,
    List.reverse_reverse, if_neg Nat.toDigits_ne_nil, leadingNumber_toDigits]
  omega

theorem exists_last_marker {s : List Char} (h : marker <:+: s) :
    ∃ before after, s = before ++ marker ++ after ∧ ¬ marker <:+: after := by
  induction hlen : s.length using Nat.strong_induction_on generalizing s with
  | h len ih =>
      obtain ⟨before, after, rfl⟩ := h
      by_cases hafter : marker <:+: after
      · have hshort : after.length < len := by
          rw [← hlen]
          simp only [List.length_append, marker, List.length_cons]
          omega
        obtain ⟨before', after', rfl, hlast⟩ := ih _ hshort hafter rfl
        exact ⟨before ++ marker ++ before', after', by simp, hlast⟩
      · exact ⟨before, after, rfl, hafter⟩

/-- With a mark in the description, the number before the last one is read. -/
theorem hitCount_of_marked (rule : PfRule) (n : Int) (pages : List Int) {before after : List Char}
    (hsplit : ' ' :: rule.description.toList = before ++ marker ++ after)
    (hlast : ¬ marker <:+: after) : hitCount (hitIssue rule n pages) = countBefore before := by
  have hdescription : rule.description ≠ "" := by
    intro hnone
    rw [hnone] at hsplit
    have hlen := congrArg List.length hsplit
    simp [marker] at hlen
    omega
  have hdetail := detail_hitIssue rule n pages
  rw [if_neg hdescription, hsplit] at hdetail
  have hwhole : (hitIssue rule n pages).detail.toList =
      (leading rule n ++ marker ++ closing pages ++ [' '] ++ '-' :: before) ++ marker ++ after := by
    rw [hdetail]
    simp
  rw [hitCount_of_last hwhole hlast, countBefore, trailingDigits_append (by decide)]
  rfl

theorem hitCount_of_unmarked (rule : PfRule) {n : Int} (hn : 1 ≤ n) (hfit : n < 2 ^ 63)
    (pages : List Int) (hmark : ¬ marker <:+: ' ' :: rule.description.toList) :
    hitCount (hitIssue rule n pages) = n := by
  have hend : (closing pages).getLast? = some ')' := by
    rw [closing, List.getLast?_append]
    rfl
  rw [hitCount_of_last (detail_hitIssue rule n pages), countBefore_leading rule hn hfit]
  intro h
  have hbehind := marker_infix_of_append (h_notMem_closing pages) (by rw [hend]; decide) h
  split at hbehind
  · exact absurd hbehind (by decide)
  · exact hmark (marker_infix_of_append (by decide) (by decide) hbehind)

/-- The number of hits is read back exactly if the description does not hold another one. -/
theorem hitCount_hitIssue_iff (rule : PfRule) {n : Int} (hn : 1 ≤ n) (hfit : n < 2 ^ 63)
    (pages : List Int) :
    hitCount (hitIssue rule n pages) = n ↔ ¬ Misleading rule.description n := by
  by_cases hmark : marker <:+: ' ' :: rule.description.toList
  · obtain ⟨before, after, hsplit, hlast⟩ := exists_last_marker hmark
    constructor
    · rintro hcount ⟨before', after', hsplit', hlast', hother⟩
      rw [hitCount_of_marked rule n pages hsplit' hlast'] at hcount
      exact hother hcount
    · intro hclear
      rw [hitCount_of_marked rule n pages hsplit hlast]
      by_contra hother
      exact hclear ⟨before, after, hsplit, hlast, hother⟩
  · refine iff_of_true (hitCount_of_unmarked rule hn hfit pages hmark) ?_
    rintro ⟨before, after, hsplit, -, -⟩
    exact hmark ⟨before, after, hsplit.symm⟩

/-- The order of two numbers decides a comparison. -/
theorem holds_congr (op : Comparison) {x y v : Double} (hx : x ≠ .nan) (hy : y ≠ .nan)
    (hlt : x.lt v = y.lt v) (hgt : v.lt x = v.lt y) : op.holds x v = op.holds y v := by
  have hle : x.le v = y.le v := by
    cases v with
    | nan => cases x <;> cases y <;> rfl
    | negInf => cases x <;> cases y <;> simp_all [Double.le]
    | fin q => cases x <;> cases y <;> simp_all [Double.le]
    | posInf => cases x <;> cases y <;> simp_all [Double.le]
  have hge : v.le x = v.le y := by
    cases v with
    | nan => cases x <;> cases y <;> rfl
    | negInf => cases x <;> cases y <;> simp_all [Double.le]
    | fin q => cases x <;> cases y <;> simp_all [Double.le]
    | posInf => cases x <;> cases y <;> simp_all [Double.le]
  cases op with
  | lt => exact hlt
  | le => exact hle
  | eq => simp only [Comparison.holds, hle, hge]
  | ne => simp only [Comparison.holds, hle, hge]
  | ge => exact hge
  | gt => exact hgt

theorem ofInt_natCast (n : Nat) : ofInt n = nearestDouble n := by
  rw [ofInt, if_neg (by omega)]
  rfl

theorem nearestDouble_ne_nan {q : ℚ} (hq : 0 ≤ q) : nearestDouble q ≠ .nan := by
  rw [nearestDouble_eq hq]
  split
  · exact Double.noConfusion
  · exact Double.noConfusion

/-- Converting a number of hits changes a comparison exactly if it becomes the other number and
is another one. -/
theorem holds_ofInt_iff (op : Comparison) (n : Nat) {v : Double} (hv : v.IsDouble) :
    op.holds (ofInt n) v = op.holds (.fin n) v ↔
      ¬ (ofInt n = v ∧ op.holds (.fin n) v ≠ op.holds v v) := by
  rw [ofInt_natCast]
  by_cases hsame : nearestDouble n = v
  · rw [hsame]
    simp [eq_comm]
  · obtain ⟨hlt, hgt⟩ := lt_nearestDouble (Nat.cast_nonneg n) hv hsame
    refine iff_of_true ?_ fun h => hsame h.1
    exact holds_congr op (nearestDouble_ne_nan (Nat.cast_nonneg n)) Double.noConfusion hlt hgt

/-- Only zero is rounded to zero. -/
theorem nearestDouble_eq_zero_iff (n : Nat) : nearestDouble n = .fin 0 ↔ n = 0 := by
  constructor
  · intro h
    by_contra hne
    have hone : rounded 1 = 1 := by
      have h1 := nearestDouble_natCast (n := 1) (by norm_num)
      rw [nearestDouble_eq (by norm_num)] at h1
      split at h1
      · cases h1
      · simpa using h1
    have hmono : rounded 1 ≤ rounded n := by
      apply rounded_mono one_pos
      exact_mod_cast Nat.one_le_iff_ne_zero.mpr hne
    rw [nearestDouble_eq (Nat.cast_nonneg n)] at h
    split at h
    · cases h
    · have hzero := Double.fin.inj h
      rw [hone, hzero] at hmono
      exact absurd hmono (by norm_num)
  · rintro rfl
    rw [nearestDouble, if_pos Nat.cast_zero]

/-- The number zero is met by no hits only. -/
theorem eq_zero_holds (n : Nat) : Comparison.eq.holds (ofInt n) (.fin 0) = decide (n = 0) := by
  rw [ofInt_natCast]
  by_cases hzero : n = 0
  · rw [(nearestDouble_eq_zero_iff n).mpr hzero, hzero]
    rfl
  · obtain ⟨hlt, hgt⟩ := lt_nearestDouble (Nat.cast_nonneg n) isDouble_zero
      (mt (nearestDouble_eq_zero_iff n).mp hzero)
    rw [holds_congr .eq (nearestDouble_ne_nan (Nat.cast_nonneg n)) Double.noConfusion hlt hgt]
    have hpos : (0 : ℚ) < n := by exact_mod_cast Nat.pos_of_ne_zero hzero
    simp [Comparison.holds, Double.le, Double.lt, hpos, hzero]

/-- A null character is no operator. -/
theorem spanOp_eq {s : List Char} (h : (s.dropWhile isOp).head? ≠ some '\x00') :
    (s.takeWhile fun c => isOp c || c == '\x00') = s.takeWhile isOp ∧
      (s.dropWhile fun c => isOp c || c == '\x00') = s.dropWhile isOp := by
  induction s with
  | nil => exact ⟨rfl, rfl⟩
  | cons c s ih =>
      cases hop : isOp c with
      | true =>
          rw [List.dropWhile_cons, if_pos hop] at h
          obtain ⟨htake, hdrop⟩ := ih h
          simp only [List.takeWhile_cons, List.dropWhile_cons, hop, Bool.true_or, if_true, htake,
            hdrop, and_self]
      | false =>
          rw [List.dropWhile_cons, if_neg (by rw [hop]; exact Bool.false_ne_true)] at h
          have hnull : (c == '\x00') = false := by simpa using h
          simp [hop, hnull]

/-- No number starts with an operator. -/
theorem strtod_isOp {c : Char} (hc : isOp c = true) (s blanks : List Char)
    (hblank : ∀ b ∈ blanks, isBlank b = true) :
    CText.strtod (blanks ++ c :: s) = (.fin 0, blanks ++ c :: s) := by
  have hcases : c = '<' ∨ c = '>' ∨ c = '=' ∨ c = '!' := by
    simpa [isOp, or_assoc] using hc
  have hskip : (blanks ++ c :: s).dropWhile isBlank = c :: s := by
    rw [List.dropWhile_append_of_pos hblank, List.dropWhile_cons, if_neg]
    obtain rfl | rfl | rfl | rfl := hcases
    all_goals decide
  unfold CText.strtod
  rw [hskip]
  obtain rfl | rfl | rfl | rfl := hcases
  all_goals rfl

/-- What is known of an accepted text. -/
theorem ruleParts_eq_some {s : List Char} {op : Comparison} {v : Double}
    (h : ruleParts s = some (op, v)) :
    operatorOf ((s.dropWhile (· == ' ')).takeWhile isOp) = some op ∧
      (CText.strtod (cstr ((s.dropWhile (· == ' ')).dropWhile isOp))).1 = v ∧
      cstr ((s.dropWhile (· == ' ')).dropWhile isOp) ≠ [] := by
  unfold ruleParts at h
  dsimp only at h
  split at h
  · cases h
  · rename_i op' hop
    split at h
    · cases h
    · rename_i hread
      split at h
      · cases h
        refine ⟨hop, rfl, fun hnone => hread ?_⟩
        rw [hnone]
        rfl
      · cases h

/-- A comparison that starts with its operator is scanned alike. -/
theorem hitsSatisfy_of_start {s : String} {op : Comparison} {v : Double}
    (h : ruleParts s.toList = some (op, v)) (hstart : s.toList.head? ≠ some ' ') (n : Int) :
    hitsSatisfy n s = op.holds (ofInt n) v := by
  obtain ⟨hop, hv, hread⟩ := ruleParts_eq_some h
  have hskip : s.toList.dropWhile (· == ' ') = s.toList := by
    cases hs : s.toList with
    | nil => rfl
    | cons c rest =>
        rw [hs] at hstart
        rw [List.dropWhile_cons, if_neg]
        simpa using hstart
  rw [hskip] at hop hv hread
  have hnull : (s.toList.dropWhile isOp).head? ≠ some '\x00' := by
    intro hhead
    apply hread
    cases hrest : s.toList.dropWhile isOp with
    | nil => rfl
    | cons c rest =>
        rw [hrest, List.head?_cons] at hhead
        rw [Option.some.inj hhead]
        rfl
  obtain ⟨htake, hdrop⟩ := spanOp_eq hnull
  unfold hitsSatisfy
  dsimp only
  rw [htake, hdrop, hop, atof, hv]

/-- A comparison behind a blank is read as no hits. -/
theorem hitsSatisfy_of_blank {s : String} {op : Comparison} {v : Double}
    (h : ruleParts s.toList = some (op, v)) (hstart : s.toList.head? = some ' ') (n : Nat) :
    hitsSatisfy n s = decide (n = 0) := by
  obtain ⟨hop, -, -⟩ := ruleParts_eq_some h
  obtain ⟨c, rest, hrest⟩ : ∃ c rest, s.toList.dropWhile (· == ' ') = c :: rest ∧
      isOp c = true := by
    cases hdrop : s.toList.dropWhile (· == ' ') with
    | nil =>
        rw [hdrop] at hop
        cases hop
    | cons c rest =>
        refine ⟨c, rest, rfl, ?_⟩
        by_contra hnot
        rw [hdrop, List.takeWhile_cons, if_neg hnot] at hop
        cases hop
  have hblanks : ∀ b ∈ s.toList.takeWhile (· == ' '), b = ' ' := by
    intro b hb
    have hblank := List.mem_takeWhile_imp hb
    exact eq_of_beq hblank
  have hsplit : s.toList = s.toList.takeWhile (· == ' ') ++ c :: rest := by
    rw [← hrest.1, List.takeWhile_append_dropWhile]
  have hcstr : cstr s.toList = s.toList.takeWhile (· == ' ') ++ c :: cstr rest := by
    rw [hsplit, cstr, List.takeWhile_append_of_pos]
    · rw [List.takeWhile_cons, if_pos]
      · rw [← hsplit]
        rfl
      · have hc := hrest.2
        simp only [bne_iff_ne, ne_eq]
        rintro rfl
        exact absurd hc (by decide)
    · intro b hb
      rw [hblanks b hb]
      rfl
  obtain ⟨tail, htail⟩ : ∃ tail, s.toList = ' ' :: tail := List.head?_eq_some_iff.mp hstart
  have htake : (s.toList.takeWhile fun c => isOp c || c == '\x00') = [] := by
    rw [htail]
    rfl
  have hdrop : (s.toList.dropWhile fun c => isOp c || c == '\x00') = s.toList := by
    rw [htail]
    rfl
  unfold hitsSatisfy
  dsimp only
  rw [htake, hdrop, atof, hcstr, strtod_isOp hrest.2]
  · exact eq_zero_holds n
  · intro b hb
    rw [hblanks b hb]
    rfl

/-- A comparison is evaluated as it is written: it starts with its operator and the conversion of
the number of hits does not matter, or it is behind a blank and means no hits anyway. -/
def AsWritten (s : String) (op : Comparison) (v : Double) (n : Nat) : Prop :=
  if s.toList.head? = some ' ' then op.holds (.fin n) v = decide (n = 0)
  else ¬ (ofInt n = v ∧ op.holds (.fin n) v ≠ op.holds v v)

/-- Each accepted comparison has an operator and a number, and a number of hits meets it as
written exactly if no blank stands before the operator and the number of hits does not become
the number of the comparison by its conversion. -/
theorem hitsSatisfy_iff (s : String) (hrule : hitsRule s = true) :
    ∃ op v, ruleParts s.toList = some (op, v) ∧
      ∀ n : Nat, hitsSatisfy n s = op.holds (.fin n) v ↔ AsWritten s op v n := by
  obtain ⟨⟨op, v⟩, hparts⟩ := Option.isSome_iff_exists.mp hrule
  have hv : v.IsDouble := by
    rw [← (ruleParts_eq_some hparts).2.1]
    exact isDouble_strtod _
  refine ⟨op, v, hparts, fun n => ?_⟩
  unfold AsWritten
  split
  · rename_i hblank
    rw [hitsSatisfy_of_blank hparts hblank, eq_comm]
  · rename_i hstart
    rw [hitsSatisfy_of_start hparts hstart]
    exact holds_ofInt_iff op n hv

/-- More than three hits, without a blank. -/
theorem moreThanThree_means :
    hitsRule "> 3" = true ∧
      ∃ op v, ruleParts "> 3".toList = some (op, v) ∧
        hitsSatisfy 4 "> 3" = op.holds (.fin 4) v := by
  have hrule : hitsRule "> 3" = true := by decide
  refine ⟨hrule, ?_⟩
  obtain ⟨op, v, hparts, hmeans⟩ := hitsSatisfy_iff "> 3" hrule
  have hsame : ruleParts "> 3".toList = some (.gt, .fin 3) := by decide +kernel
  obtain ⟨rfl, rfl⟩ := Prod.mk.inj (Option.some.inj (hparts.symm.trans hsame))
  exact ⟨_, _, hparts, (hmeans 4).mpr (by unfold AsWritten; decide +kernel)⟩

/-- With a blank before it, four hits are not more than three and no hits are. -/
theorem blank_moreThanThree :
    hitsRule " > 3" = true ∧ ruleParts " > 3".toList = some (.gt, .fin 3) ∧
      hitsSatisfy 4 " > 3" = false ∧ hitsSatisfy 0 " > 3" = true := by
  decide +kernel

end Kura.Engine.RuleHits
