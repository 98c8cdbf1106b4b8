import Kura.Engine.Strtod

/-!
# Dates of the document information and of XMP

`parseDateFlexible` brings a date into the two forms in which it is written, and
`dateParts` reads a date of either form when the two are compared.

## Implementation notes

A text is a list of characters, one for each byte. A field that was parsed
carries its range. The form with separators and the one without differ in where
the offset may stand (`isoZone`, `compactZone`). The comparison removes hyphens
before it looks for the sign of the offset, so it never finds a minus there.
-/

namespace Kura.Engine.XmpDate

open Kura.Engine.CText

/-- A number in a range. -/
abbrev Field (lo hi : Nat) := {n : Nat // lo ≤ n ∧ n ≤ hi}

/-- The digits at a place, if they are all digits and their value is in the range. -/
def parseIntField (s : List Char) (pos len lo hi : Nat) : Option (Field lo hi) :=
  let ds := (s.drop pos).take len
  if s.length < pos + len ∨ !ds.all Char.isDigit then none
  else if h : lo ≤ number 10 ds ∧ number 10 ds ≤ hi then some ⟨number 10 ds, h⟩
  else none

/-- The offset of a date: its sign, hours and minutes, and whether there is one. -/
structure Zone where
  neg : Bool := false
  tzh : Field 0 23 := ⟨0, by decide⟩
  tzm : Field 0 59 := ⟨0, by decide⟩
  haveTz : Bool := false

/-- The fields of a date; what is missing is the first of its range. -/
structure Date where
  year : Field 1 9999
  month : Field 1 12 := ⟨1, by decide⟩
  day : Field 1 31 := ⟨1, by decide⟩
  hour : Field 0 23 := ⟨0, by decide⟩
  minute : Field 0 59 := ⟨0, by decide⟩
  second : Field 0 59 := ⟨0, by decide⟩
  zone : Zone := {}

def isSign (c : Option Char) : Bool := c == some '+' || c == some '-'

def isIso (s : List Char) : Bool := 10 ≤ s.length && s[4]? == some '-' && s[7]? == some '-'

/-- Where the offset would stand: behind the seconds and their fraction. -/
def isoZonePos (s : List Char) : Nat :=
  19 + ((s.drop 19).takeWhile fun c => c.isDigit || c == '.').length

def isoZone (s : List Char) : Zone :=
  let tzPos := isoZonePos s
  if isSign s[tzPos]? then
    { neg := s[tzPos]? == some '-'
      tzh := (parseIntField s (tzPos + 1) 2 0 23).getD ⟨0, by decide⟩
      tzm :=
        if tzPos + 4 < s.length ∧ s[tzPos + 3]? = some ':' then
          (parseIntField s (tzPos + 4) 2 0 59).getD ⟨0, by decide⟩
        else ⟨0, by decide⟩
      haveTz := (parseIntField s (tzPos + 1) 2 0 23).isSome }
  else { haveTz := s[tzPos]? == some 'Z' }

/-- A date has a time if it is long enough. -/
def hasTime (s : List Char) : Bool :=
  19 ≤ s.length && (s[10]? == some 'T' || s[10]? == some ' ')

def isoDate (s : List Char) : Option Date :=
  match parseIntField s 0 4 1 9999, parseIntField s 5 2 1 12, parseIntField s 8 2 1 31 with
  | some year, some month, some day =>
      if hasTime s then
        some { year, month, day
               hour := (parseIntField s 11 2 0 23).getD ⟨0, by decide⟩
               minute := (parseIntField s 14 2 0 59).getD ⟨0, by decide⟩
               second := (parseIntField s 17 2 0 59).getD ⟨0, by decide⟩
               zone := isoZone s }
      else some { year, month, day }
  | _, _, _ => none

/-- Where the minutes of the offset would stand. -/
def compactMinutePos (s : List Char) : Nat := if s[17]? = some '\'' then 18 else 17

def compactZone (s : List Char) : Zone :=
  if isSign s[14]? then
    match parseIntField s 15 2 0 23 with
    | some tzh =>
        { neg := s[14]? == some '-'
          tzh := tzh
          tzm := (parseIntField s (compactMinutePos s) 2 0 59).getD ⟨0, by decide⟩
          haveTz := true }
    | none => { neg := s[14]? == some '-' }
  else { haveTz := s[14]? == some 'Z' }

/-- Fields are read up to the first one that is missing. -/
def compactDate (s : List Char) : Option Date :=
  match parseIntField s 0 4 1 9999 with
  | none => none
  | some year =>
      match parseIntField s 4 2 1 12 with
      | none => some { year }
      | some month =>
          match parseIntField s 6 2 1 31 with
          | none => some { year, month }
          | some day =>
              match parseIntField s 8 2 0 23 with
              | none => some { year, month, day }
              | some hour =>
                  match parseIntField s 10 2 0 59 with
                  | none => some { year, month, day, hour }
                  | some minute =>
                      some { year, month, day, hour, minute
                             second := (parseIntField s 12 2 0 59).getD ⟨0, by decide⟩
                             zone := compactZone s }

/-- `%02d` and `%04d` of a number that is not negative. -/
def padded (width n : Nat) : List Char :=
  List.replicate (width - (Nat.toDigits 10 n).length) '0' ++ Nat.toDigits 10 n

/-- There is an offset, and it is not zero. -/
def Zone.shown (z : Zone) : Prop := z.haveTz = true ∧ (z.tzh.1 ≠ 0 ∨ z.tzm.1 ≠ 0)

instance (z : Zone) : Decidable z.shown := inferInstanceAs (Decidable (_ ∧ _))

def zoneIso (z : Zone) : List Char :=
  if z.shown then
    (if z.neg then '-' else '+') :: (padded 2 z.tzh ++ ':' :: padded 2 z.tzm)
  else ['Z']

def zonePdf (z : Zone) : List Char :=
  if z.shown then
    (if z.neg then '-' else '+') :: (padded 2 z.tzh ++ '\'' :: (padded 2 z.tzm ++ ['\'']))
  else ['Z']

def isoText (d : Date) : List Char :=
  padded 4 d.year ++ '-' :: (padded 2 d.month ++ '-' :: (padded 2 d.day ++ 'T' ::
    (padded 2 d.hour ++ ':' :: (padded 2 d.minute ++ ':' :: (padded 2 d.second ++
      zoneIso d.zone)))))

def pdfText (d : Date) : List Char :=
  'D' :: ':' :: (padded 4 d.year ++ padded 2 d.month ++ padded 2 d.day ++ padded 2 d.hour ++
    padded 2 d.minute ++ padded 2 d.second ++ zonePdf d.zone)

/-- The text without the mark of PDF dates. -/
def withoutMark (s : List Char) : List Char := if ['D', ':'].isPrefixOf s then s.drop 2 else s

def parsedDate (raw : List Char) : Option Date :=
  if isIso (withoutMark raw) then isoDate (withoutMark raw) else compactDate (withoutMark raw)

/-- The forms for XMP and for the document information. -/
def parseDateFlexible (raw : List Char) : Option (List Char × List Char) :=
  (parsedDate raw).map fun d => (isoText d, pdfText d)

/-- Fields with some lengths from the start of a text, up to one that does not start with a digit;
the first one must. -/
def fieldsFrom : List Nat → Bool → List Char → Option (List Nat × List Char)
  | [], _, s => some ([], s)
  | len :: lens, first, s =>
      if (s.head?.map Char.isDigit) ≠ some true then if first then none else some ([], s)
      else if s.length < len ∨ !(s.take len).all Char.isDigit then none
      else (fieldsFrom lens false (s.drop len)).map fun r => (number 10 (s.take len) :: r.1, r.2)

/-- A fraction of the seconds is skipped. -/
def skipFraction (s : List Char) : List Char :=
  match s with
  | '.' :: rest => rest.dropWhile Char.isDigit
  | s => s

/-- The offset in minutes. -/
def offsetOf (s : List Char) : Int :=
  if isSign s.head? then
    let d := (s.drop 1).filter Char.isDigit
    let hh := if 2 ≤ d.length then number 10 (d.take 2) else 0
    let mm := if 4 ≤ d.length then number 10 ((d.drop 2).take 2) else 0
    (if s.head? = some '-' then -1 else 1) * (hh * 60 + mm)
  else 0

/-- The seconds of a day and a time. -/
def seconds (y m d hour minute second off : Int) : Int :=
  let y := if m ≤ 2 then y - 1 else y
  let era := (if 0 ≤ y then y else y - 399).tdiv 400
  let yoe := y - era * 400
  let doy := (153 * (m + (if 2 < m then -3 else 9)) + 2).tdiv 5 + d - 1
  let days := era * 146097 + yoe * 365 + yoe.tdiv 4 - yoe.tdiv 100 + doy
  ((days * 24 + hour) * 60 + minute - off) * 60 + second

/-- The instant of a date, of either form. -/
def dateParts (s : List Char) (pdf : Bool) : Option Int :=
  let s := if pdf then withoutMark s else s.filter fun c => c != '-' && c != ':' && c != 'T'
  match fieldsFrom [4, 2, 2, 2, 2, 2] true s with
  | none => none
  | some (f, rest) =>
      let at' (k default : Nat) : Int := f.getD k default
      some (seconds (at' 0 0) (at' 1 1) (at' 2 1) (at' 3 0) (at' 4 0) (at' 5 0)
        (offsetOf (skipFraction rest)))

theorem number_zeros (k : Nat) (ds : List Char) :
    number 10 (List.replicate k '0' ++ ds) = number 10 ds := by
  induction k with
  | zero => rfl
  | succ k ih =>
      rw [← ih, List.replicate_succ, List.cons_append, number, List.foldl_cons]
      rfl

/-- Digits that are the text of a number. -/
structure Digits (n : Nat) (ds : List Char) : Prop where
  digits : ∀ c ∈ ds, c.isDigit = true
  number : CText.number 10 ds = n

theorem digits_padded (width n : Nat) : Digits n (padded width n) := by
  refine ⟨?_, ?_⟩
  · intro c hc
    rw [padded, List.mem_append] at hc
    obtain hzero | hdigit := hc
    · rw [List.eq_of_mem_replicate hzero]
      rfl
    · exact Nat.isDigit_of_mem_toDigits (by decide) (by decide) hdigit
  · rw [padded, number_zeros, number_toDigits]

theorem length_padded {width n : Nat} (hwidth : 0 < width) (hn : n < 10 ^ width) :
    (padded width n).length = width := by
  have hle := (Nat.length_toDigits_le_iff (by decide) hwidth).mpr hn
  rw [padded, List.length_append, List.length_replicate]
  omega

theorem padded_two {n : Nat} (hn : n < 100) : ∃ a b, padded 2 n = [a, b] ∧ Digits n [a, b] := by
  have hlen : (padded 2 n).length = 2 := length_padded (by decide) hn
  obtain ⟨a, b, hab⟩ := List.length_eq_two.mp hlen
  exact ⟨a, b, hab, hab ▸ digits_padded 2 n⟩

theorem padded_four {n : Nat} (hn : n < 10000) :
    ∃ a b c d, padded 4 n = [a, b, c, d] ∧ Digits n [a, b, c, d] := by
  have hlen : (padded 4 n).length = 4 := length_padded (by decide) hn
  match htext : padded 4 n, hlen with
  | [a, b, c, d], _ => exact ⟨a, b, c, d, rfl, htext ▸ digits_padded 4 n⟩

/-- A field is parsed from its digits. -/
theorem parseIntField_of_digits {s ds : List Char} {pos len lo hi : Nat} (n : Field lo hi)
    (htext : (s.drop pos).take len = ds) (hlen : pos + len ≤ s.length) (hds : Digits n ds) :
    parseIntField s pos len lo hi = some n := by
  have hall : ds.all Char.isDigit = true := List.all_eq_true.mpr hds.digits
  have hrange : lo ≤ number 10 ds ∧ number 10 ds ≤ hi := by
    rw [hds.number]
    exact n.2
  have hguard : ¬ (s.length < pos + len ∨ (!ds.all Char.isDigit) = true) := by
    simp only [hall, Bool.not_true, Bool.false_eq_true, or_false, not_lt]
    exact hlen
  simp only [parseIntField, htext]
  rw [if_neg hguard, dif_pos hrange]
  exact congrArg some (Subtype.ext hds.number)

theorem digit_ne {c d : Char} (hc : c.isDigit = true) (hd : d.isDigit = false) : c ≠ d := by
  rintro rfl
  rw [hc] at hd
  cases hd

theorem getElem?_front {front t : List Char} {n : Nat} (hfront : front.length = n) (k : Nat) :
    (front ++ t)[n + k]? = t[k]? := by
  rw [List.getElem?_append_right (by omega)]
  congr 1
  omega

theorem parseIntField_front {front t : List Char} {n : Nat} (hfront : front.length = n)
    (k len lo hi : Nat) :
    parseIntField (front ++ t) (n + k) len lo hi = parseIntField t k len lo hi := by
  have hdrop : (front ++ t).drop (n + k) = t.drop k := by
    rw [← List.drop_drop, ← hfront, List.drop_left]
  have hlen : (front ++ t).length < n + k + len ↔ t.length < k + len := by
    rw [List.length_append]
    omega
  unfold parseIntField
  simp only [hdrop, hlen]

/-- The offset as it is read again. -/
def Zone.canonical (z : Zone) : Zone := if z.shown then z else { haveTz := true }

theorem canonical_of_shown {z : Zone} (h : z.shown) :
    ({ neg := z.neg, tzh := z.tzh, tzm := z.tzm, haveTz := true } : Zone) = z.canonical := by
  rw [Zone.canonical, if_pos h]
  obtain ⟨neg, tzh, tzm, haveTz⟩ := z
  obtain ⟨rfl, -⟩ := h
  rfl

theorem isSign_shown (neg : Bool) : isSign (some (if neg then '-' else '+')) = true ∧
    (some (if neg then '-' else '+') == some '-') = neg := by
  cases neg with
  | true => exact ⟨rfl, rfl⟩
  | false => exact ⟨rfl, rfl⟩

/-- A zone that is shown, or the letter. -/
theorem zone_texts (z : Zone) :
    (z.shown ∧ ∃ sign h₁ h₂ m₁ m₂, sign = (if z.neg then '-' else '+') ∧
      zoneIso z = [sign, h₁, h₂, ':', m₁, m₂] ∧ zonePdf z = [sign, h₁, h₂, '\'', m₁, m₂, '\''] ∧
      Digits z.tzh [h₁, h₂] ∧ Digits z.tzm [m₁, m₂]) ∨
    (¬ z.shown ∧ zoneIso z = ['Z'] ∧ zonePdf z = ['Z']) := by
  by_cases hshown : z.shown
  · obtain ⟨h₁, h₂, hh, hhd⟩ := padded_two (n := z.tzh.1) (by have := z.tzh.2.2; omega)
    obtain ⟨m₁, m₂, hm, hmd⟩ := padded_two (n := z.tzm.1) (by have := z.tzm.2.2; omega)
    refine .inl ⟨hshown, _, h₁, h₂, m₁, m₂, rfl, ?_, ?_, hhd, hmd⟩
    · rw [zoneIso, if_pos hshown, hh, hm]
      rfl
    · rw [zonePdf, if_pos hshown, hh, hm]
      rfl
  · exact .inr ⟨hshown, if_neg hshown, if_neg hshown⟩

/-- The zone of an ISO date is read behind its 19 characters. -/
theorem isoZone_front {front : List Char} (hfront : front.length = 19) (z : Zone) :
    isoZone (front ++ zoneIso z) = z.canonical := by
  have hrun : ∀ {c : Char} {t : List Char}, (c.isDigit || c == '.') = false →
      isoZonePos (front ++ c :: t) = 19 := by
    intro c t hc
    rw [isoZonePos, ← hfront, List.drop_left, List.takeWhile_cons, hc]
    rfl
  obtain ⟨hshown, sign, h₁, h₂, m₁, m₂, hsign, hiso, -, hh, hm⟩ | ⟨hshown, hiso, -⟩ := zone_texts z
  · have hpos : isoZonePos (front ++ zoneIso z) = 19 := by
      rw [hiso, hrun]
      rw [hsign]
      split
      · rfl
      · rfl
    have hfirst : (front ++ zoneIso z)[19]? = some sign := by
      rw [hiso]
      exact getElem?_front hfront 0
    have hcolon : (front ++ zoneIso z)[19 + 3]? = some ':' := by
      rw [hiso]
      exact getElem?_front hfront 3
    have hhours : parseIntField (front ++ zoneIso z) (19 + 1) 2 0 23 = some z.tzh := by
      rw [hiso, parseIntField_front hfront]
      exact parseIntField_of_digits z.tzh rfl (by simp) hh
    have hminutes : parseIntField (front ++ zoneIso z) (19 + 4) 2 0 59 = some z.tzm := by
      rw [hiso, parseIntField_front hfront]
      exact parseIntField_of_digits z.tzm rfl (by simp) hm
    have hlen : 19 + 4 < (front ++ zoneIso z).length := by
      rw [hiso, List.length_append, hfront]
      simp
    obtain ⟨hsigned, hneg⟩ := isSign_shown z.neg
    rw [← hsign] at hsigned hneg
    simp only [isoZone, hpos, hfirst, hcolon, hhours, hminutes, hlen, hneg, hsigned]
    exact canonical_of_shown hshown
  · have hz : (front ++ ['Z'])[19]? = some 'Z' := getElem?_front hfront 0
    rw [hiso, isoZone, hrun (by decide), Zone.canonical, if_neg hshown]
    simp only [hz]
    rfl

/-- The zone of a PDF date is read behind its 14 characters. -/
theorem compactZone_front {front : List Char} (hfront : front.length = 14) (z : Zone) :
    compactZone (front ++ zonePdf z) = z.canonical := by
  obtain ⟨hshown, sign, h₁, h₂, m₁, m₂, hsign, -, hpdf, hh, hm⟩ | ⟨hshown, -, hpdf⟩ := zone_texts z
  · have hfirst : (front ++ zonePdf z)[14]? = some sign := by
      rw [hpdf]
      exact getElem?_front hfront 0
    have hminutePos : compactMinutePos (front ++ zonePdf z) = 14 + 4 := by
      have hquote : (front ++ zonePdf z)[14 + 3]? = some '\'' := by
        rw [hpdf]
        exact getElem?_front hfront 3
      rw [compactMinutePos, if_pos hquote]
    have hhours : parseIntField (front ++ zonePdf z) (14 + 1) 2 0 23 = some z.tzh := by
      rw [hpdf, parseIntField_front hfront]
      exact parseIntField_of_digits z.tzh rfl (by simp) hh
    have hminutes : parseIntField (front ++ zonePdf z) (14 + 4) 2 0 59 = some z.tzm := by
      rw [hpdf, parseIntField_front hfront]
      exact parseIntField_of_digits z.tzm rfl (by simp) hm
    obtain ⟨hsigned, hneg⟩ := isSign_shown z.neg
    rw [← hsign] at hsigned hneg
    simp only [compactZone, hfirst, hsigned, hhours, hminutePos, hminutes, hneg]
    exact canonical_of_shown hshown
  · have hz : (front ++ ['Z'])[14]? = some 'Z' := getElem?_front hfront 0
    rw [hpdf, compactZone, Zone.canonical, if_neg hshown]
    simp only [hz]
    rfl

/-- The date as it is read again. -/
def Date.canonical (d : Date) : Date := { d with zone := d.zone.canonical }

theorem shown_canonical (z : Zone) : z.canonical.shown ↔ z.shown := by
  unfold Zone.canonical
  split
  · rfl
  · rename_i h
    exact iff_of_false (fun hshown => by simp [Zone.shown] at hshown) h

theorem texts_canonical (d : Date) : isoText d.canonical = isoText d ∧
    pdfText d.canonical = pdfText d := by
  have hzone : zoneIso d.zone.canonical = zoneIso d.zone ∧
      zonePdf d.zone.canonical = zonePdf d.zone := by
    by_cases hshown : d.zone.shown
    · rw [Zone.canonical, if_pos hshown]
      exact ⟨rfl, rfl⟩
    · have hcanonical : ¬ d.zone.canonical.shown := fun h => hshown ((shown_canonical _).mp h)
      exact ⟨(if_neg hcanonical).trans (if_neg hshown).symm,
        (if_neg hcanonical).trans (if_neg hshown).symm⟩
  exact ⟨by rw [isoText, isoText, ← hzone.1]; rfl, by rw [pdfText, pdfText, ← hzone.2]; rfl⟩

/-- The digits of a date. -/
theorem date_texts (d : Date) : ∃ y₁ y₂ y₃ y₄ m₁ m₂ d₁ d₂ h₁ h₂ i₁ i₂ s₁ s₂,
    isoText d = [y₁, y₂, y₃, y₄, '-', m₁, m₂, '-', d₁, d₂, 'T', h₁, h₂, ':', i₁, i₂, ':', s₁, s₂] ++
      zoneIso d.zone ∧
    pdfText d = 'D' :: ':' :: ([y₁, y₂, y₃, y₄, m₁, m₂, d₁, d₂, h₁, h₂, i₁, i₂, s₁, s₂] ++
      zonePdf d.zone) ∧
    Digits d.year [y₁, y₂, y₃, y₄] ∧ Digits d.month [m₁, m₂] ∧ Digits d.day [d₁, d₂] ∧
    Digits d.hour [h₁, h₂] ∧ Digits d.minute [i₁, i₂] ∧ Digits d.second [s₁, s₂] := by
  obtain ⟨y₁, y₂, y₃, y₄, hy, hyd⟩ := padded_four (n := d.year.1) (by have := d.year.2.2; omega)
  obtain ⟨m₁, m₂, hm, hmd⟩ := padded_two (n := d.month.1) (by have := d.month.2.2; omega)
  obtain ⟨d₁, d₂, hd, hdd⟩ := padded_two (n := d.day.1) (by have := d.day.2.2; omega)
  obtain ⟨h₁, h₂, hh, hhd⟩ := padded_two (n := d.hour.1) (by have := d.hour.2.2; omega)
  obtain ⟨i₁, i₂, hi, hid⟩ := padded_two (n := d.minute.1) (by have := d.minute.2.2; omega)
  obtain ⟨s₁, s₂, hs, hsd⟩ := padded_two (n := d.second.1) (by have := d.second.2.2; omega)
  refine ⟨y₁, y₂, y₃, y₄, m₁, m₂, d₁, d₂, h₁, h₂, i₁, i₂, s₁, s₂, ?_, ?_, hyd, hmd, hdd, hhd, hid,
    hsd⟩
  · rw [isoText, hy, hm, hd, hh, hi, hs]
    rfl
  · rw [pdfText, hy, hm, hd, hh, hi, hs]
    rfl

theorem withoutMark_digit {c : Char} (hc : c.isDigit = true) (s : List Char) :
    withoutMark (c :: s) = c :: s := by
  have hne : c ≠ 'D' := digit_ne hc (by decide)
  simp [withoutMark, Ne.symm hne]

/-- The form for XMP is read as it was printed. -/
theorem parsedDate_isoText (d : Date) : parsedDate (isoText d) = some d.canonical := by
  obtain ⟨y₁, y₂, y₃, y₄, m₁, m₂, d₁, d₂, h₁, h₂, i₁, i₂, s₁, s₂, hiso, -, hy, hm,
      hd, hh, hi, hs⟩ :=
    date_texts d
  have hmark : withoutMark (isoText d) = isoText d := by
    rw [hiso]
    exact withoutMark_digit (hy.digits y₁ List.mem_cons_self) _
  have hzone : isoZone (isoText d) = d.zone.canonical := by
    rw [hiso]
    exact isoZone_front rfl d.zone
  have hlen : 19 ≤ (isoText d).length := by
    rw [hiso]
    simp
  have hform : isIso (isoText d) = true := by
    rw [hiso]
    rfl
  have htime : hasTime (isoText d) = true := by
    rw [hiso]
    rfl
  have hfields : parseIntField (isoText d) 0 4 1 9999 = some d.year ∧
      parseIntField (isoText d) 5 2 1 12 = some d.month ∧
      parseIntField (isoText d) 8 2 1 31 = some d.day ∧
      parseIntField (isoText d) 11 2 0 23 = some d.hour ∧
      parseIntField (isoText d) 14 2 0 59 = some d.minute ∧
      parseIntField (isoText d) 17 2 0 59 = some d.second := by
    refine ⟨parseIntField_of_digits _ (by rw [hiso]; rfl) (by omega) hy,
      parseIntField_of_digits _ (by rw [hiso]; rfl) (by omega) hm,
      parseIntField_of_digits _ (by rw [hiso]; rfl) (by omega) hd,
      parseIntField_of_digits _ (by rw [hiso]; rfl) (by omega) hh,
      parseIntField_of_digits _ (by rw [hiso]; rfl) (by omega) hi,
      parseIntField_of_digits _ (by rw [hiso]; rfl) (by omega) hs⟩
  obtain ⟨hyear, hmonth, hday, hhour, hminute, hsecond⟩ := hfields
  rw [parsedDate, hmark, if_pos hform, isoDate]
  simp only [hyear, hmonth, hday, hhour, hminute, hsecond, htime, hzone]
  rfl

/-- The form for the document information is read as it was printed. -/
theorem parsedDate_pdfText (d : Date) : parsedDate (pdfText d) = some d.canonical := by
  obtain ⟨y₁, y₂, y₃, y₄, m₁, m₂, d₁, d₂, h₁, h₂, i₁, i₂, s₁, s₂, -, hpdf, hy, hm,
      hd, hh, hi, hs⟩ :=
    date_texts d
  have hmark : withoutMark (pdfText d) =
      [y₁, y₂, y₃, y₄, m₁, m₂, d₁, d₂, h₁, h₂, i₁, i₂, s₁, s₂] ++ zonePdf d.zone := by
    rw [hpdf]
    rfl
  have hzone : compactZone (withoutMark (pdfText d)) = d.zone.canonical := by
    rw [hmark]
    exact compactZone_front rfl d.zone
  have hlen : 14 ≤ (withoutMark (pdfText d)).length := by
    rw [hmark]
    simp
  have hform : isIso (withoutMark (pdfText d)) = false := by
    have hne : m₁ ≠ '-' := digit_ne (hm.digits m₁ List.mem_cons_self) (by decide)
    rw [hmark]
    simp [isIso, hne]
  have hfields : parseIntField (withoutMark (pdfText d)) 0 4 1 9999 = some d.year ∧
      parseIntField (withoutMark (pdfText d)) 4 2 1 12 = some d.month ∧
      parseIntField (withoutMark (pdfText d)) 6 2 1 31 = some d.day ∧
      parseIntField (withoutMark (pdfText d)) 8 2 0 23 = some d.hour ∧
      parseIntField (withoutMark (pdfText d)) 10 2 0 59 = some d.minute ∧
      parseIntField (withoutMark (pdfText d)) 12 2 0 59 = some d.second := by
    refine ⟨parseIntField_of_digits _ (by rw [hmark]; rfl) (by omega) hy,
      parseIntField_of_digits _ (by rw [hmark]; rfl) (by omega) hm,
      parseIntField_of_digits _ (by rw [hmark]; rfl) (by omega) hd,
      parseIntField_of_digits _ (by rw [hmark]; rfl) (by omega) hh,
      parseIntField_of_digits _ (by rw [hmark]; rfl) (by omega) hi,
      parseIntField_of_digits _ (by rw [hmark]; rfl) (by omega) hs⟩
  obtain ⟨hyear, hmonth, hday, hhour, hminute, hsecond⟩ := hfields
  rw [parsedDate, hform, if_neg (by decide), compactDate]
  simp only [hyear, hmonth, hday, hhour, hminute, hsecond, hzone]
  rfl

theorem parseDateFlexible_isoText (d : Date) :
    parseDateFlexible (isoText d) = some (isoText d, pdfText d) := by
  rw [parseDateFlexible, parsedDate_isoText, Option.map_some, (texts_canonical d).1,
    (texts_canonical d).2]

theorem parseDateFlexible_pdfText (d : Date) :
    parseDateFlexible (pdfText d) = some (isoText d, pdfText d) := by
  rw [parseDateFlexible, parsedDate_pdfText, Option.map_some, (texts_canonical d).1,
    (texts_canonical d).2]

theorem fieldsFrom_digits {n len : Nat} {ds : List Char} (hds : Digits n ds)
    (hlen : ds.length = len + 1) (lens : List Nat) (first : Bool) (rest : List Char) :
    fieldsFrom ((len + 1) :: lens) first (ds ++ rest) =
      (fieldsFrom lens false rest).map fun r => (n :: r.1, r.2) := by
  obtain ⟨c, cs, rfl⟩ := List.exists_cons_of_length_eq_add_one hlen
  have hc : c.isDigit = true := hds.digits c List.mem_cons_self
  have htake : (c :: cs ++ rest).take (len + 1) = c :: cs := by
    rw [← hlen, List.take_left]
  have hdrop : (c :: cs ++ rest).drop (len + 1) = rest := by
    rw [← hlen, List.drop_left]
  have hall : (c :: cs).all Char.isDigit = true := List.all_eq_true.mpr hds.digits
  have hlong : ¬ (c :: cs ++ rest).length < len + 1 := by
    rw [List.length_append]
    omega
  rw [fieldsFrom, htake, hdrop, hds.number, if_neg (by simp [hc]),
    if_neg (by simp only [hall, hlong]; decide)]

/-- The fields of a date in front of its offset. -/
theorem fieldsFrom_date (d : Date) (rest : List Char) :
    fieldsFrom [4, 2, 2, 2, 2, 2] true (padded 4 d.year ++ (padded 2 d.month ++ (padded 2 d.day ++
      (padded 2 d.hour ++ (padded 2 d.minute ++ (padded 2 d.second ++ rest)))))) =
      some ([d.year.1, d.month.1, d.day.1, d.hour.1, d.minute.1, d.second.1], rest) := by
  have hyear : (padded 4 d.year).length = 3 + 1 :=
    length_padded (by decide) (by have := d.year.2.2; omega)
  have htwo : ∀ n, n < 100 → (padded 2 n).length = 1 + 1 := fun n hn =>
    length_padded (by decide) hn
  rw [fieldsFrom_digits (digits_padded _ _) hyear,
    fieldsFrom_digits (digits_padded _ _) (htwo _ (by have := d.month.2.2; omega)),
    fieldsFrom_digits (digits_padded _ _) (htwo _ (by have := d.day.2.2; omega)),
    fieldsFrom_digits (digits_padded _ _) (htwo _ (by have := d.hour.2.2; omega)),
    fieldsFrom_digits (digits_padded _ _) (htwo _ (by have := d.minute.2.2; omega)),
    fieldsFrom_digits (digits_padded _ _) (htwo _ (by have := d.second.2.2; omega))]
  rfl

/-- The minutes of an offset that is shown. -/
def Zone.minutes (z : Zone) : Int :=
  if z.shown then (if z.neg then -1 else 1) * (z.tzh.1 * 60 + z.tzm.1) else 0

/-- The instant of a date with some offset. -/
def Date.instant (d : Date) (off : Int) : Int :=
  seconds d.year.1 d.month.1 d.day.1 d.hour.1 d.minute.1 d.second.1 off

theorem offsetOf_digits {h m : Nat} {h₁ h₂ m₁ m₂ : Char} (hh : Digits h [h₁, h₂])
    (hm : Digits m [m₁, m₂]) {neg : Bool} {t : List Char}
    (ht : t.filter Char.isDigit = [h₁, h₂, m₁, m₂]) :
    offsetOf ((if neg then '-' else '+') :: t) = (if neg then -1 else 1) * (h * 60 + m) := by
  have hsigned := (isSign_shown neg).1
  have hnumbers : number 10 ([h₁, h₂, m₁, m₂].take 2) = h ∧
      number 10 (([h₁, h₂, m₁, m₂].drop 2).take 2) = m := ⟨hh.number, hm.number⟩
  have hminus : (some (if neg then '-' else '+') = some '-') ↔ neg = true := by
    cases neg with
    | true => decide
    | false => decide
  simp only [offsetOf, List.head?_cons, hsigned, List.drop_one, List.tail_cons, ht,
    hnumbers, hminus]
  simp

theorem offsetOf_zonePdf (z : Zone) : offsetOf (skipFraction (zonePdf z)) = z.minutes := by
  obtain ⟨hshown, sign, h₁, h₂, m₁, m₂, hsign, -, hpdf, hh, hm⟩ | ⟨hshown, -, hpdf⟩ := zone_texts z
  · have hskip : skipFraction (zonePdf z) = zonePdf z := by
      rw [hpdf, hsign]
      cases z.neg with
      | true => rfl
      | false => rfl
    have hdigits : [h₁, h₂, '\'', m₁, m₂, '\''].filter Char.isDigit = [h₁, h₂, m₁, m₂] := by
      simp [hh.digits, hm.digits]
    rw [hskip, hpdf, hsign, offsetOf_digits hh hm hdigits, Zone.minutes, if_pos hshown]
  · rw [hpdf, Zone.minutes, if_neg hshown]
    rfl

/-- What the comparison keeps of a date with separators. -/
def keeps (c : Char) : Bool := c != '-' && c != ':' && c != 'T'

theorem filter_padded (width n : Nat) : (padded width n).filter keeps = padded width n := by
  rw [List.filter_eq_self]
  intro c hc
  have hdigit := (digits_padded width n).digits c hc
  simp [keeps, digit_ne hdigit]

/-- Without hyphens only a plus is found before an offset. -/
theorem offsetOf_zoneIso (z : Zone) : offsetOf (skipFraction ((zoneIso z).filter keeps)) =
    if z.neg then 0 else z.minutes := by
  obtain ⟨hshown, sign, h₁, h₂, m₁, m₂, hsign, hiso, -, hh, hm⟩ | ⟨hshown, hiso, -⟩ := zone_texts z
  · have hh₁ := hh.digits h₁ List.mem_cons_self
    have hfour : [h₁, h₂, m₁, m₂].filter keeps = [h₁, h₂, m₁, m₂] ∧
        [h₁, h₂, m₁, m₂].filter Char.isDigit = [h₁, h₂, m₁, m₂] := by
      have hdigits : ∀ c ∈ [h₁, h₂] ++ [m₁, m₂], c.isDigit = true :=
        List.forall_mem_append.mpr ⟨hh.digits, hm.digits⟩
      refine ⟨List.filter_eq_self.mpr fun c hc => ?_, List.filter_eq_self.mpr hdigits⟩
      simp [keeps, digit_ne (hdigits c hc)]
    have hkept : (zoneIso z).filter keeps = [sign].filter keeps ++ [h₁, h₂, m₁, m₂] := by
      rw [← hfour.1, ← List.filter_append, hiso]
      simp [keeps, List.filter_cons]
    rw [hkept, Zone.minutes, if_pos hshown, hsign]
    cases z.neg with
    | true =>
        have hskip : skipFraction [h₁, h₂, m₁, m₂] = [h₁, h₂, m₁, m₂] := by
          unfold skipFraction
          split
          · rename_i hdot
            cases hdot
            exact absurd hh₁ (by decide)
          · rfl
        have hunsigned : isSign (some h₁) = false := by
          simp [isSign, digit_ne hh₁]
        change offsetOf (skipFraction [h₁, h₂, m₁, m₂]) = 0
        rw [hskip, offsetOf, List.head?_cons, hunsigned]
        rfl
    | false =>
        have hoffset :
            offsetOf ((if false then '-' else '+') :: _) = (if false then -1 else 1) * _ :=
          offsetOf_digits hh hm hfour.2
        exact hoffset
  · rw [hiso, Zone.minutes, if_neg hshown, ite_self]
    rfl

theorem dateParts_pdfText (d : Date) :
    dateParts (pdfText d) true = some (d.instant d.zone.minutes) := by
  have hmark : withoutMark (pdfText d) = padded 4 d.year ++ (padded 2 d.month ++ (padded 2 d.day ++
      (padded 2 d.hour ++ (padded 2 d.minute ++ (padded 2 d.second ++ zonePdf d.zone))))) := by
    simp [withoutMark, pdfText]
  unfold dateParts
  dsimp only
  rw [if_pos rfl, hmark, fieldsFrom_date]
  dsimp only
  rw [offsetOf_zonePdf]
  rfl

/-- A minus before the offset is lost. -/
theorem dateParts_isoText (d : Date) :
    dateParts (isoText d) false =
      some (d.instant (if d.zone.neg then 0 else d.zone.minutes)) := by
  have hkept : (isoText d).filter (fun c => c != '-' && c != ':' && c != 'T') =
      padded 4 d.year ++ (padded 2 d.month ++ (padded 2 d.day ++ (padded 2 d.hour ++
        (padded 2 d.minute ++ (padded 2 d.second ++ (zoneIso d.zone).filter keeps))))) := by
    have hkeeps : (fun c : Char => c != '-' && c != ':' && c != 'T') = keeps := rfl
    have hsep : keeps '-' = false ∧ keeps ':' = false ∧ keeps 'T' = false := by decide
    rw [hkeeps, isoText]
    simp only [List.filter_append, List.filter_cons, filter_padded, hsep]
    simp
  unfold dateParts
  dsimp only
  rw [if_neg (by decide), hkept, fieldsFrom_date]
  dsimp only
  rw [offsetOf_zoneIso]
  rfl

theorem instant_inj (d : Date) {off off' : Int} : d.instant off = d.instant off' ↔ off = off' := by
  unfold Date.instant seconds
  dsimp only
  omega

/-- Losing the minus changes the offset if it is shown. -/
theorem zone_minutes_iff (z : Zone) :
    (z.minutes = if z.neg then 0 else z.minutes) ↔ ¬ (z.neg = true ∧ z.shown) := by
  cases hneg : z.neg with
  | false => simp
  | true =>
      by_cases hshown : z.shown
      · have hne := hshown.2
        simp only [Zone.minutes, hshown, hneg, if_true, and_self, not_true_eq_false, iff_false]
        omega
      · simp [Zone.minutes, hshown]

/-- The place of the offset of a date, if one is read. -/
def zonePos (s : List Char) : Option Nat :=
  if isIso s then if hasTime s then some (isoZonePos s) else none
  else if (parseIntField s 4 2 1 12).isSome ∧ (parseIntField s 6 2 1 31).isSome ∧
      (parseIntField s 8 2 0 23).isSome ∧ (parseIntField s 10 2 0 59).isSome then some 14
  else none

/-- The place of the minutes of an offset; with separators they stand behind a colon. -/
def minutePos (s : List Char) (p : Nat) : Option Nat :=
  if isIso s then if s[p + 3]? = some ':' then some (p + 4) else none
  else some (compactMinutePos s)

/-- A number that is parsed is not zero. -/
def nonzero {lo hi : Nat} (n : Option (Field lo hi)) : Prop := ∃ k, n = some k ∧ k.1 ≠ 0

/-- A date has a minus with an offset that is not zero. -/
def NegativeOffset (raw : List Char) : Prop :=
  ∃ p, zonePos (withoutMark raw) = some p ∧ (withoutMark raw)[p]? = some '-' ∧
    (parseIntField (withoutMark raw) (p + 1) 2 0 23).isSome ∧
    (nonzero (parseIntField (withoutMark raw) (p + 1) 2 0 23) ∨
      ∃ q, minutePos (withoutMark raw) p = some q ∧
        nonzero (parseIntField (withoutMark raw) q 2 0 59))

theorem nonzero_iff {hi : Nat} {o : Option (Field 0 hi)} {z : Field 0 hi} (hz : z.1 = 0) :
    (o.getD z).1 ≠ 0 ↔ nonzero o := by
  cases o with
  | none =>
      refine iff_of_false (fun h => h hz) ?_
      rintro ⟨k, hk, -⟩
      cases hk
  | some k =>
      constructor
      · intro h
        exact ⟨k, rfl, h⟩
      · rintro ⟨k', hk, hne⟩
        cases hk
        exact hne

theorem length_of_parseIntField {t : List Char} {pos len lo hi : Nat} {n : Field lo hi}
    (h : parseIntField t pos len lo hi = some n) : pos + len ≤ t.length := by
  unfold parseIntField at h
  dsimp only at h
  split at h
  · cases h
  · rename_i hguard
    rw [not_or] at hguard
    exact not_lt.mp hguard.1

/-- The zone is negative and shown when its text has a minus and is not zero. -/
theorem isoZone_iff (t : List Char) : (isoZone t).neg = true ∧ (isoZone t).shown ↔
    t[isoZonePos t]? = some '-' ∧ (parseIntField t (isoZonePos t + 1) 2 0 23).isSome ∧
      (nonzero (parseIntField t (isoZonePos t + 1) 2 0 23) ∨
        t[isoZonePos t + 3]? = some ':' ∧ nonzero (parseIntField t (isoZonePos t + 4) 2 0 59)) := by
  unfold isoZone
  dsimp only
  split
  · rename_i hsigned
    rw [Zone.shown]
    dsimp only
    rw [beq_iff_eq, nonzero_iff rfl]
    have hminutes : (if isoZonePos t + 4 < t.length ∧ t[isoZonePos t + 3]? = some ':' then
          (parseIntField t (isoZonePos t + 4) 2 0 59).getD ⟨0, by decide⟩
        else ⟨0, by decide⟩).1 ≠ 0 ↔
        t[isoZonePos t + 3]? = some ':' ∧ nonzero (parseIntField t (isoZonePos t + 4) 2 0 59) := by
      split
      · rename_i hcolon
        rw [nonzero_iff rfl, and_iff_right hcolon.2]
      · rename_i hcolon
        refine iff_of_false (fun hne => hne rfl) ?_
        rintro ⟨hmark, k, hk, -⟩
        have hlen := length_of_parseIntField hk
        exact hcolon ⟨by omega, hmark⟩
    rw [hminutes]
  · rename_i hsigned
    refine iff_of_false (fun h => by cases h.1) ?_
    rintro ⟨hminus, -⟩
    rw [hminus] at hsigned
    exact hsigned rfl

/-- The zone is negative and shown when its text has a minus and is not zero. -/
theorem compactZone_iff (t : List Char) : (compactZone t).neg = true ∧ (compactZone t).shown ↔
    t[14]? = some '-' ∧ (parseIntField t 15 2 0 23).isSome ∧
      (nonzero (parseIntField t 15 2 0 23) ∨
        nonzero (parseIntField t (compactMinutePos t) 2 0 59)) := by
  unfold compactZone
  split
  · split
    · rename_i tzh htzh
      rw [Zone.shown]
      dsimp only
      rw [beq_iff_eq, nonzero_iff rfl, htzh]
      simp [nonzero]
    · rename_i htzh
      rw [htzh, Zone.shown]
      simp
  · rename_i hsigned
    refine iff_of_false (fun h => by cases h.1) ?_
    rintro ⟨hminus, -⟩
    rw [hminus] at hsigned
    exact hsigned rfl

theorem zone_isoDate {t : List Char} {d : Date} (h : isoDate t = some d) :
    d.zone = if hasTime t then isoZone t else {} := by
  unfold isoDate at h
  split at h
  · split at h
    · rename_i htime
      cases h
      rw [if_pos htime]
    · rename_i htime
      cases h
      rw [if_neg htime]
  · cases h

theorem zone_compactDate {t : List Char} {d : Date} (h : compactDate t = some d) :
    d.zone = if (parseIntField t 4 2 1 12).isSome ∧ (parseIntField t 6 2 1 31).isSome ∧
      (parseIntField t 8 2 0 23).isSome ∧ (parseIntField t 10 2 0 59).isSome then compactZone t
      else {} := by
  unfold compactDate at h
  -- Without one of the fields the rest is not looked at.
  repeat' split at h
  all_goals cases h
  all_goals simp [*]

/-- A date is parsed with such an offset exactly if it has one. -/
theorem negativeOffset_iff {raw : List Char} {d : Date} (h : parsedDate raw = some d) :
    NegativeOffset raw ↔ d.zone.neg = true ∧ d.zone.shown := by
  have hnone : ¬ (({} : Zone).neg = true ∧ ({} : Zone).shown) := fun h => by cases h.1
  unfold parsedDate at h
  unfold NegativeOffset
  generalize withoutMark raw = t at h
  split at h
  · rename_i hform
    rw [zone_isoDate h]
    split
    · rename_i htime
      rw [isoZone_iff]
      simp [zonePos, minutePos, hform, htime]
    · rename_i htime
      refine iff_of_false ?_ hnone
      simp [zonePos, hform, htime]
  · rename_i hform
    rw [zone_compactDate h]
    split
    · rename_i hfields
      rw [compactZone_iff]
      simp [zonePos, minutePos, hform, hfields]
    · rename_i hfields
      refine iff_of_false ?_ hnone
      rintro ⟨p, hp, -⟩
      rw [zonePos, if_neg hform, if_neg hfields] at hp
      cases hp

/-- What is parsed gives the same texts again, and the two texts are the same instant exactly if
the date has no minus with an offset that is not zero. -/
theorem canonical_agrees_iff {raw iso pdfDate : List Char}
    (h : parseDateFlexible raw = some (iso, pdfDate)) :
    ((∃ when, dateParts pdfDate true = some when ∧ dateParts iso false = some when) ∧
      parseDateFlexible iso = some (iso, pdfDate) ∧
      parseDateFlexible pdfDate = some (iso, pdfDate)) ↔ ¬ NegativeOffset raw := by
  obtain ⟨d, hd, htexts⟩ := Option.map_eq_some_iff.mp h
  obtain ⟨rfl, rfl⟩ := Prod.mk.inj htexts
  rw [negativeOffset_iff hd,
    and_iff_left ⟨parseDateFlexible_isoText d, parseDateFlexible_pdfText d⟩,
    dateParts_pdfText, dateParts_isoText]
  have hsame : (∃ when, some (d.instant d.zone.minutes) = some when ∧
      some (d.instant (if d.zone.neg then 0 else d.zone.minutes)) = some when) ↔
      d.zone.minutes = if d.zone.neg then 0 else d.zone.minutes := by
    rw [← instant_inj d]
    constructor
    · rintro ⟨when, hpdf, hiso⟩
      exact Option.some.inj (hpdf.trans hiso.symm)
    · intro heq
      exact ⟨_, rfl, congrArg some heq.symm⟩
  rw [hsame, ← zone_minutes_iff]

/-- A date with an offset to the east. -/
theorem eastern_agrees :
    (∃ when, dateParts "D:20240102030405+05'30'".toList true = some when ∧
      dateParts "2024-01-02T03:04:05+05:30".toList false = some when) ∧
    parseDateFlexible "2024-01-02T03:04:05+05:30".toList =
      some ("2024-01-02T03:04:05+05:30".toList, "D:20240102030405+05'30'".toList) ∧
    parseDateFlexible "D:20240102030405+05'30'".toList =
      some ("2024-01-02T03:04:05+05:30".toList, "D:20240102030405+05'30'".toList) := by
  have hparse : parseDateFlexible "D:20240102030405+05'30".toList =
      some ("2024-01-02T03:04:05+05:30".toList, "D:20240102030405+05'30'".toList) := by
    decide
  refine (canonical_agrees_iff hparse).mpr ?_
  rintro ⟨p, hp, hminus, -⟩
  have hpos : zonePos (withoutMark "D:20240102030405+05'30".toList) = some 14 := by decide
  obtain rfl := Option.some.inj (hpos.symm.trans hp)
  exact absurd hminus (by decide)

/-- A date with an offset to the west is five hours and a half earlier for XMP. -/
theorem western_differs :
    parseDateFlexible "D:20240102030405-05'30'".toList =
      some ("2024-01-02T03:04:05-05:30".toList, "D:20240102030405-05'30'".toList) ∧
    dateParts "D:20240102030405-05'30'".toList true = some 63866219645 ∧
    dateParts "2024-01-02T03:04:05-05:30".toList false = some 63866199845 := by
  decide

end Kura.Engine.XmpDate
