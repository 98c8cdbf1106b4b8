import Kura.Engine.GlyphClean

/-!
# Language tags

The two functions that test a language tag: the one of the content filter, and the one
for the languages of a document. Both cut a tag at its hyphens and leave out a
hyphen at the end.

## Implementation notes

The loops over the parts are one test of all parts with their numbers. `Loose`
is the grammar of the content filter; it is told by the text alone.
-/

namespace Kura.Engine.LangTags

open GlyphClean (isAlpha segmentOk langOk)

/-- Letters and digits. -/
def isAlnum (c : UInt8) : Bool := isAlpha c || isDigit c

/-- The parts of a tag. -/
def tagParts (s : Bytes) : List Bytes :=
  let parts := s.splitOn 0x2D
  if parts.getLast? = some [] then parts.dropLast else parts

/-- Tests one part of a language tag of a document. -/
def validPart (seg : Nat) (w : Bytes) : Bool :=
  let alphas := w.countP isAlpha
  let digits := w.countP isDigit
  1 ≤ w.length && w.length ≤ 8 && w.all isAlnum &&
    if seg = 0 then !(0 < digits || 8 < w.length)
    else if w.length = 1 then 0 < alphas
    else if w.length = 2 then digits = 0
    else if w.length = 3 then !(0 < alphas && 0 < digits)
    else if w.length = 4 then !(0 < digits && 0 < alphas && !(w.head?.any isDigit))
    else true

/-- Tests a language tag of a document. -/
def validLangTag (s : Bytes) : Bool :=
  s ≠ [] && (tagParts s).zipIdx.all (fun p => validPart p.2 p.1) && 1 ≤ (tagParts s).length

/-- The first part of a tag. -/
structure Primary (w : Bytes) : Prop where
  nonempty : 1 ≤ w.length
  short : w.length ≤ 8
  letters : ∀ c ∈ w, isAlpha c = true

/-- A part of a tag behind a hyphen. -/
structure Subtag (w : Bytes) : Prop where
  nonempty : 1 ≤ w.length
  short : w.length ≤ 8
  alnum : ∀ c ∈ w, isAlnum c = true

/-- A text of the form of a language tag. -/
def Form (s : Bytes) : Prop :=
  ∃ first rest, Primary first ∧ (∀ p ∈ rest, Subtag p) ∧ s = [0x2D].intercalate (first :: rest)

/-- Parts with a digit where two or three characters are none or all digits. -/
def mixed (w : Bytes) : Bool :=
  (w.length = 2 && w.any isDigit) || (w.length = 3 && w.any isAlpha && w.any isDigit)

/-- A single digit, or four characters with a digit of which the first one is a letter. -/
def odd (w : Bytes) : Bool :=
  (w.length = 1 && w.any isDigit) ||
    (w.length = 4 && w.any isAlpha && w.any isDigit && !w.head?.any isDigit)

/-- A text that is cut into parts, with or without a hyphen at its end. -/
structure Loose (s first : Bytes) (rest : List Bytes) (trailing : Bool) : Prop where
  text : s = [0x2D].intercalate (first :: rest) ++ if trailing then [0x2D] else []
  primary : Primary first
  subtag : ∀ p ∈ rest, Subtag p
  plain : ∀ p ∈ rest, mixed p = false

/-- What is wanted of the two tests on a text. -/
structure Agree (s : Bytes) : Prop where
  same : langOk s = validLangTag s
  form : langOk s = true → Form s
  formValid : validLangTag s = true → Form s

theorem hyphen_notMem {w : Bytes} (h : ∀ c ∈ w, isAlnum c = true) : (0x2D : UInt8) ∉ w :=
  fun hmem => absurd (h _ hmem) (by decide)

theorem Primary.subtag {w : Bytes} (h : Primary w) : Subtag w :=
  ⟨h.nonempty, h.short, fun c hc => Bool.or_eq_true_iff.mpr (Or.inl (h.letters c hc))⟩

theorem intercalate_concat (x : UInt8) {parts : List Bytes} (h : parts ≠ []) :
    [x].intercalate parts ++ [x] = [x].intercalate (parts ++ [[]]) := by
  induction parts with
  | nil => exact absurd rfl h
  | cons p parts ih =>
      cases parts with
      | nil =>
          rw [List.intercalate_singleton, List.singleton_append, List.intercalate_cons_cons,
            List.intercalate_singleton, List.append_nil]
      | cons p' parts =>
          rw [List.intercalate_cons_cons, List.cons_append, List.cons_append,
            List.intercalate_cons_cons, List.append_assoc, ih (List.cons_ne_nil _ _),
            List.cons_append]

/-- A text that is put together from parts is cut into these. -/
theorem tagParts_of_text {s : Bytes} {parts : List Bytes} {trailing : Bool} (hne : parts ≠ [])
    (hparts : ∀ p ∈ parts, Subtag p)
    (hs : s = [0x2D].intercalate parts ++ if trailing then [0x2D] else []) :
    tagParts s = parts := by
  have hhyphen : ∀ p ∈ parts, (0x2D : UInt8) ∉ p := fun p hp => hyphen_notMem (hparts p hp).alnum
  rw [tagParts, hs]
  cases trailing with
  | false =>
      have hlast : parts.getLast? ≠ some [] := by
        intro hsome
        have hnonempty := (hparts [] (List.mem_of_getLast? hsome)).nonempty
        exact absurd hnonempty (by decide)
      rw [if_neg Bool.false_ne_true, List.append_nil, List.splitOn_intercalate _ hhyphen hne,
        if_neg hlast]
  | true =>
      have hall : ∀ p ∈ parts ++ [[]], (0x2D : UInt8) ∉ p :=
        List.forall_mem_append.mpr ⟨hhyphen, List.forall_mem_singleton.mpr List.not_mem_nil⟩
      rw [if_pos rfl, intercalate_concat _ hne,
        List.splitOn_intercalate _ hall (List.concat_ne_nil _ _), List.getLast?_concat, if_pos rfl,
        List.dropLast_concat]

/-- The parts of a text and the hyphen at its end, if there is one, make up the text. -/
theorem text_of_tagParts {s : Bytes} (h : tagParts s ≠ []) :
    ∃ trailing : Bool, s = [0x2D].intercalate (tagParts s) ++ if trailing then [0x2D] else [] := by
  have htext : [0x2D].intercalate (s.splitOn 0x2D) = s := List.intercalate_splitOn 0x2D
  rw [tagParts] at h ⊢
  split_ifs at h ⊢ with hlast
  · refine ⟨true, ?_⟩
    have hsplit : s.splitOn 0x2D = (s.splitOn 0x2D).dropLast ++ [[]] :=
      (List.dropLast_append_getLast? _ hlast).symm
    rw [if_pos rfl, intercalate_concat _ h, ← hsplit, htext]
  · refine ⟨false, ?_⟩
    rw [if_neg Bool.false_ne_true, List.append_nil, htext]

theorem tagParts_ne_nil {s : Bytes} (h : s ≠ []) : tagParts s ≠ [] := by
  have htext : [0x2D].intercalate (s.splitOn 0x2D) = s := List.intercalate_splitOn 0x2D
  rw [tagParts]
  split_ifs with hlast
  · intro hnil
    have hsplit : s.splitOn 0x2D = (s.splitOn 0x2D).dropLast ++ [[]] :=
      (List.dropLast_append_getLast? _ hlast).symm
    rw [hsplit, hnil] at htext
    exact h htext.symm
  · exact List.splitOn_ne_nil _ _

theorem countP_pos {w : Bytes} {p : UInt8 → Bool} : 0 < w.countP p ↔ w.any p = true := by
  rw [List.countP_pos_iff, List.any_eq_true]

theorem subtag_iff {w : Bytes} :
    Subtag w ↔ 1 ≤ w.length ∧ w.length ≤ 8 ∧ w.all isAlnum = true := by
  rw [List.all_eq_true]
  exact ⟨fun h => ⟨h.nonempty, h.short, h.alnum⟩, fun h => ⟨h.1, h.2.1, h.2.2⟩⟩

theorem isDigit_of_isAlpha {c : UInt8} (h : isAlpha c = true) : isDigit c = false := by
  rw [isDigit, Bool.and_eq_false_iff, decide_eq_false_iff_not, decide_eq_false_iff_not]
  simp only [isAlpha, Bool.or_eq_true, Bool.and_eq_true, decide_eq_true_eq,
    UInt8.le_iff_toNat_le, UInt8.toNat_ofNat] at h ⊢
  omega

/-- The first part has letters exactly if it has letters and digits without digits. -/
theorem primary_iff {w : Bytes} : Primary w ↔ Subtag w ∧ w.any isDigit = false := by
  constructor
  · intro h
    refine ⟨h.subtag, ?_⟩
    rw [List.any_eq_false]
    exact fun c hc => by rw [isDigit_of_isAlpha (h.letters c hc)]; exact Bool.false_ne_true
  · rintro ⟨h, hdigit⟩
    refine ⟨h.nonempty, h.short, fun c hc => ?_⟩
    have hnone := List.any_eq_false.mp hdigit c hc
    exact (Bool.or_eq_true_iff.mp (h.alnum c hc)).resolve_right hnone

theorem decide_countP (w : Bytes) (p : UInt8 → Bool) : decide (0 < w.countP p) = w.any p := by
  rw [Bool.eq_iff_iff, decide_eq_true_eq, countP_pos]

/-- What the test of the content filter says of a part. -/
theorem segmentOk_iff (seg : Nat) (w : Bytes) :
    segmentOk seg w = true ↔
      Subtag w ∧ if seg = 0 then w.any isDigit = false else mixed w = false := by
  have hall : (w.all fun c => isAlpha c || isDigit c) = w.all isAlnum := rfl
  rw [subtag_iff, segmentOk, mixed]
  simp only [decide_countP, hall]
  generalize w.any isDigit = digit
  generalize w.any isAlpha = letter
  by_cases hseg : seg = 0
  · simp [hseg, and_assoc]
  · cases digit <;> cases letter <;> simp [hseg, Nat.pos_of_ne_zero hseg, and_assoc]

/-- A single character is a letter or a digit. -/
theorem any_isAlpha_of_length {w : Bytes} (h : Subtag w) (hlen : w.length = 1) :
    w.any isAlpha = !w.any isDigit := by
  obtain ⟨c, rfl⟩ := List.length_eq_one_iff.mp hlen
  have halnum := h.alnum c List.mem_cons_self
  rw [List.any_cons, List.any_nil, Bool.or_false, List.any_cons, List.any_nil, Bool.or_false]
  cases hletter : isAlpha c with
  | true => rw [isDigit_of_isAlpha hletter, Bool.not_false]
  | false =>
      rw [isAlnum, hletter, Bool.false_or] at halnum
      rw [halnum, Bool.not_true]

/-- What the test of a document says of a part. -/
theorem validPart_iff (seg : Nat) (w : Bytes) :
    validPart seg w = true ↔
      Subtag w ∧ if seg = 0 then w.any isDigit = false else mixed w = false ∧ odd w = false := by
  by_cases hsub : Subtag w
  · obtain ⟨hnonempty, hshort, hall⟩ := subtag_iff.mp hsub
    have hone := any_isAlpha_of_length hsub
    have hzero : decide (w.countP isDigit = 0) = !w.any isDigit := by
      rw [← decide_countP, ← decide_not, decide_eq_decide]
      omega
    rw [validPart, mixed, odd, and_iff_right hsub]
    simp only [decide_countP, hzero, hall, hnonempty, hshort]
    generalize w.any isDigit = digit at hone
    generalize w.any isAlpha = letter at hone
    by_cases hseg : seg = 0
    · simp [hseg, hshort]
    · by_cases h1 : w.length = 1
      · cases digit <;> simp [hseg, h1, hone h1]
      · by_cases h2 : w.length = 2
        · simp [hseg, h2]
        · by_cases h3 : w.length = 3
          · cases digit <;> cases letter <;> simp [hseg, h3]
          · by_cases h4 : w.length = 4
            · cases digit <;> cases letter <;> simp [hseg, h4]
            · simp [hseg, h1, h2, h3, h4]
  · refine ⟨fun h => absurd ?_ hsub, fun h => absurd h.1 hsub⟩
    rw [validPart] at h
    simp only [Bool.and_eq_true, decide_eq_true_eq] at h
    exact subtag_iff.mpr ⟨h.1.1.1, h.1.1.2, h.1.2⟩

theorem all_zipIdx {f : Nat → Bytes → Bool} (hf : ∀ seg p, f (seg + 1) p = f 1 p) (seg : Nat)
    (rest : List Bytes) :
    ((rest.zipIdx (seg + 1)).all fun p => f p.2 p.1) = rest.all (f 1) := by
  induction rest generalizing seg with
  | nil => rfl
  | cons p rest ih => rw [List.zipIdx_cons, List.all_cons, List.all_cons, ih, hf]

/-- A test of parts of which those behind the first one are tested alike. -/
theorem all_parts {f : Nat → Bytes → Bool} (hf : ∀ seg p, f (seg + 1) p = f 1 p) (first : Bytes)
    (rest : List Bytes) :
    (((first :: rest).zipIdx).all fun p => f p.2 p.1) = (f 0 first && rest.all (f 1)) := by
  rw [List.zipIdx_cons, List.all_cons, all_zipIdx hf]

theorem segmentOk_succ (seg : Nat) (p : Bytes) : segmentOk (seg + 1) p = segmentOk 1 p := by
  rw [Bool.eq_iff_iff, segmentOk_iff, segmentOk_iff, if_neg (Nat.succ_ne_zero seg),
    if_neg one_ne_zero]

theorem validPart_succ (seg : Nat) (p : Bytes) : validPart (seg + 1) p = validPart 1 p := by
  rw [Bool.eq_iff_iff, validPart_iff, validPart_iff, if_neg (Nat.succ_ne_zero seg),
    if_neg one_ne_zero]

theorem Loose.tagParts_eq {s first : Bytes} {rest : List Bytes} {trailing : Bool}
    (h : Loose s first rest trailing) : tagParts s = first :: rest :=
  tagParts_of_text (List.cons_ne_nil _ _)
    (List.forall_mem_cons.mpr ⟨h.primary.subtag, h.subtag⟩) h.text

theorem Loose.ne_nil {s first : Bytes} {rest : List Bytes} {trailing : Bool}
    (h : Loose s first rest trailing) : s ≠ [] := by
  rintro rfl
  have hparts := h.tagParts_eq
  rw [tagParts, List.splitOn_nil] at hparts
  cases hparts

/-- The content filter accepts the texts of its grammar. -/
theorem langOk_iff (s : Bytes) :
    langOk s = true ↔ ∃ first rest trailing, Loose s first rest trailing := by
  have hlangOk : langOk s = (s ≠ [] && (tagParts s).zipIdx.all fun p => segmentOk p.2 p.1) := rfl
  constructor
  · intro h
    rw [hlangOk, Bool.and_eq_true] at h
    have hne : tagParts s ≠ [] := tagParts_ne_nil (of_decide_eq_true h.1)
    obtain ⟨trailing, htext⟩ := text_of_tagParts hne
    obtain ⟨first, rest, hparts⟩ := List.exists_cons_of_ne_nil hne
    rw [hparts, all_parts segmentOk_succ, Bool.and_eq_true, List.all_eq_true] at h
    rw [hparts] at htext
    have hfirst := (segmentOk_iff 0 first).mp h.2.1
    refine ⟨first, rest, trailing, htext, primary_iff.mpr hfirst, fun p hp => ?_, fun p hp => ?_⟩
    · exact ((segmentOk_iff 1 p).mp (h.2.2 p hp)).1
    · exact ((segmentOk_iff 1 p).mp (h.2.2 p hp)).2
  · rintro ⟨first, rest, trailing, h⟩
    rw [hlangOk, h.tagParts_eq, all_parts segmentOk_succ, Bool.and_eq_true, Bool.and_eq_true,
      List.all_eq_true]
    refine ⟨decide_eq_true h.ne_nil, (segmentOk_iff 0 first).mpr (primary_iff.mp h.primary),
      fun p hp => ?_⟩
    exact (segmentOk_iff 1 p).mpr ⟨h.subtag p hp, h.plain p hp⟩

/-- The test of a document accepts those of them without odd parts. -/
theorem Loose.validLangTag_iff {s first : Bytes} {rest : List Bytes} {trailing : Bool}
    (h : Loose s first rest trailing) :
    validLangTag s = true ↔ ∀ p ∈ rest, odd p = false := by
  rw [validLangTag, h.tagParts_eq, all_parts validPart_succ, Bool.and_eq_true, Bool.and_eq_true,
    Bool.and_eq_true, List.all_eq_true]
  constructor
  · intro hvalid p hp
    exact ((validPart_iff 1 p).mp (hvalid.1.2.2 p hp)).2.2
  · intro hodd
    refine ⟨⟨decide_eq_true h.ne_nil, (validPart_iff 0 first).mpr (primary_iff.mp h.primary),
      fun p hp => ?_⟩, rfl⟩
    exact (validPart_iff 1 p).mpr ⟨h.subtag p hp, h.plain p hp, hodd p hp⟩

theorem langOk_of_validLangTag {s : Bytes} (h : validLangTag s = true) : langOk s = true := by
  have hlangOk : langOk s = (s ≠ [] && (tagParts s).zipIdx.all fun p => segmentOk p.2 p.1) := rfl
  rw [validLangTag, Bool.and_eq_true, Bool.and_eq_true, List.all_eq_true] at h
  rw [hlangOk, Bool.and_eq_true, List.all_eq_true]
  refine ⟨h.1.1, fun p hp => ?_⟩
  obtain ⟨hsub, hrule⟩ := (validPart_iff p.2 p.1).mp (h.1.2 p hp)
  refine (segmentOk_iff p.2 p.1).mpr ⟨hsub, ?_⟩
  split_ifs at hrule ⊢ with hseg
  · exact hrule
  · exact hrule.1

/-- A tag with a hyphen at its end has not the form of a tag. -/
theorem Loose.trailing_of_form {s first : Bytes} {rest : List Bytes} {trailing : Bool}
    (h : Loose s first rest trailing) (hform : Form s) : trailing = false := by
  obtain ⟨first', rest', hprimary, hsubtag, hs⟩ := hform
  cases trailing with
  | false => rfl
  | true =>
      have hhyphen : ∀ {first : Bytes} {rest : List Bytes}, Primary first →
          (∀ p ∈ rest, Subtag p) → ∀ p ∈ first :: rest, (0x2D : UInt8) ∉ p :=
        fun hfirst hrest => List.forall_mem_cons.mpr
          ⟨hyphen_notMem hfirst.subtag.alnum, fun p hp => hyphen_notMem (hrest p hp).alnum⟩
      have htext := h.text
      rw [if_pos rfl, intercalate_concat _ (List.cons_ne_nil _ _)] at htext
      have hsplit : s.splitOn 0x2D = first :: rest ++ [[]] := by
        rw [htext]
        refine List.splitOn_intercalate _ ?_ (List.concat_ne_nil _ _)
        exact List.forall_mem_append.mpr
          ⟨hhyphen h.primary h.subtag, List.forall_mem_singleton.mpr List.not_mem_nil⟩
      have hsplit' : s.splitOn 0x2D = first' :: rest' := by
        rw [hs]
        exact List.splitOn_intercalate _ (hhyphen hprimary hsubtag) (List.cons_ne_nil _ _)
      have hmem : [] ∈ first' :: rest' := by
        rw [← hsplit', hsplit]
        exact List.mem_append_right _ List.mem_cons_self
      obtain hnil | hnil := List.mem_cons.mp hmem
      · exact absurd hprimary.nonempty (hnil ▸ by decide)
      · exact absurd (hsubtag [] hnil).nonempty (by decide)

/-- The two tests agree on a text and accept it only if it is a tag exactly if the text, where it
can be cut into parts, has no hyphen at its end and no odd part. -/
theorem agree_iff (s : Bytes) :
    Agree s ↔ ∀ first rest trailing, Loose s first rest trailing →
      trailing = false ∧ ∀ p ∈ rest, odd p = false := by
  constructor
  · intro h first rest trailing hloose
    have hok := (langOk_iff s).mpr ⟨first, rest, trailing, hloose⟩
    refine ⟨hloose.trailing_of_form (h.form hok), hloose.validLangTag_iff.mp ?_⟩
    rw [← h.same, hok]
  · intro h
    have hform : langOk s = true → Form s := by
      intro hok
      obtain ⟨first, rest, trailing, hloose⟩ := (langOk_iff s).mp hok
      obtain ⟨rfl, -⟩ := h first rest trailing hloose
      have htext := hloose.text
      rw [if_neg Bool.false_ne_true, List.append_nil] at htext
      exact ⟨first, rest, hloose.primary, hloose.subtag, htext⟩
    refine ⟨?_, hform, fun hvalid => hform (langOk_of_validLangTag hvalid)⟩
    rw [Bool.eq_iff_iff]
    refine ⟨fun hok => ?_, langOk_of_validLangTag⟩
    obtain ⟨first, rest, trailing, hloose⟩ := (langOk_iff s).mp hok
    exact hloose.validLangTag_iff.mpr (h first rest trailing hloose).2

/-- `en-1` is a language for the content filter only. -/
theorem singleDigit_differs : ¬ Agree (lit "en-1") := by
  intro h
  have hsame := h.same
  revert hsame
  decide +kernel

/-- Both tests accept `en-`. -/
example : langOk (lit "en-") = true ∧ validLangTag (lit "en-") = true := by decide +kernel

end Kura.Engine.LangTags
