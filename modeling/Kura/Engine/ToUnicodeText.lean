import Kura.Base.FirstWord
import Kura.Engine.ScrubToUnicode
import Kura.Engine.ToUnicodeAgree

/-!
# Well-formed character maps

A well-formed `ToUnicode` map is a text with sections of single codes and of
ranges. Each section is a sequence of strings in angle brackets between white
space; a code has up to eight digits, what is given to it consists of whole
units, and an array has a string for each code of its range. In a loose map any
strings are given to codes, also empty ones.

The parts of a map carry what makes them well-formed, and the text of a map is
put together from them. What stands between the sections is any text without
their first words that ends apart from them. The entries of a map are told from
its parts and shown to be what is read from its text.
-/

namespace Kura.Engine.ScrubToUnicode

open Base (StartsNowhere startsNowhere_of_letter startsNowhere_of_ends startsNowhere_of_last)
open CMap (Code codeOf findText sections parseHexToken skipWhile TextEntry textChars textArray
  textRanges closeArray badRange)
open ToUnicode (Digital)

/-- White space. -/
structure White where
  bytes : Bytes
  white : ∀ c ∈ bytes, isSpace c = true

/-- A string in angle brackets behind white space. -/
structure HexText where
  space : White
  digits : Bytes
  digital : Digital digits

/-- A code. -/
structure CodeText extends HexText where
  size : 1 ≤ digits.length ∧ digits.length ≤ 8

/-- A string of whole units. -/
structure DstText extends HexText where
  nonempty : digits ≠ []
  units : 4 ∣ digits.length

def HexText.text (t : HexText) : Bytes := t.space.bytes ++ (0x3C :: t.digits ++ [0x3E])

def CodeText.code (t : CodeText) : Code := codeOf t.digits

/-- A range of codes with one string, or with one string for each of them. -/
inductive RangeText where
  | single (lo hi : CodeText) (dst : DstText) (good : badRange lo.code hi.code = false)
  | array (lo hi : CodeText) (front : White) (dsts : List DstText) (back : White)
      (good : badRange lo.code hi.code = false)
      (full : dsts.length = (hi.code - lo.code).toNat + 1)

def arrayText (dsts : List DstText) : Bytes := dsts.flatMap fun d => d.text

def RangeText.text : RangeText → Bytes
  | single lo hi dst _ => lo.text ++ (hi.text ++ dst.text)
  | array lo hi front dsts back _ _ =>
      lo.text ++ (hi.text ++ (front.bytes ++ 0x5B :: (arrayText dsts ++ (back.bytes ++ [0x5D]))))

/-- A section of single codes or of ranges. -/
inductive SectionText where
  | chars (entries : List (CodeText × DstText)) (back : White)
  | ranges (entries : List RangeText) (back : White)

def SectionText.range : SectionText → Bool
  | chars _ _ => false
  | ranges _ _ => true

def charsText (entries : List (CodeText × DstText)) : Bytes :=
  entries.flatMap fun e => e.1.text ++ e.2.text

def rangesText (entries : List RangeText) : Bytes := entries.flatMap RangeText.text

def SectionText.body : SectionText → Bytes
  | chars entries back => charsText entries ++ back.bytes
  | ranges entries back => rangesText entries ++ back.bytes

def SectionText.text (s : SectionText) : Bytes := beginMark s.range ++ (s.body ++ endMark s.range)

/-- A text in which no section starts. -/
structure Gap where
  bytes : Bytes
  clear : ∀ range, ¬ beginMark range <:+: bytes

/-- A character that ends a word: white space or a closing bracket. -/
def endsWord (c : UInt8) : Bool :=
  isSpace c || c == 0 || c == 0x3E || c == 0x5D || c == 0x29 || c == 0x7D

/-- A well-formed map. The first words of its sections are words of their own. -/
structure MapText where
  parts : List (Gap × SectionText)
  tail : Gap
  apart : ∀ p ∈ parts, ∀ c ∈ p.1.bytes.getLast?, endsWord c = true

def partsText (parts : List (Gap × SectionText)) (tail : Bytes) : Bytes :=
  parts.foldr (fun p s => p.1.bytes ++ (p.2.text ++ s)) tail

def MapText.text (t : MapText) : Bytes := partsText t.parts t.tail.bytes

/-- The strings of an array go to the codes from one on. -/
def arrayEntries : Code → List DstText → List TextEntry
  | _, [] => []
  | c, d :: dsts => .char c d.digits :: arrayEntries (c + 1) dsts

def RangeText.entries : RangeText → List TextEntry
  | single lo hi dst _ => [.range lo.code hi.code dst.digits]
  | array lo _ _ dsts _ _ _ => arrayEntries lo.code dsts

def SectionText.entries : SectionText → List TextEntry
  | chars entries _ => entries.map fun e => .char e.1.code e.2.digits
  | ranges entries _ => entries.flatMap RangeText.entries

/-- The entries of the sections of one kind. -/
def kindEntries (range : Bool) (parts : List (Gap × SectionText)) : List TextEntry :=
  parts.flatMap fun p => if p.2.range = range then p.2.entries else []

/-- The single codes are read first. -/
def MapText.entries (t : MapText) : List TextEntry :=
  kindEntries false t.parts ++ kindEntries true t.parts

/-- A range of codes with any strings. -/
inductive LooseRange where
  | single (lo hi : CodeText) (dst : HexText) (good : badRange lo.code hi.code = false)
  | array (lo hi : CodeText) (front : White) (dsts : List HexText) (back : White)
      (good : badRange lo.code hi.code = false)
      (full : dsts.length = (hi.code - lo.code).toNat + 1)

def looseArrayText (dsts : List HexText) : Bytes := dsts.flatMap fun d => d.text

def LooseRange.text : LooseRange → Bytes
  | single lo hi dst _ => lo.text ++ (hi.text ++ dst.text)
  | array lo hi front dsts back _ _ =>
      lo.text ++ (hi.text ++
        (front.bytes ++ 0x5B :: (looseArrayText dsts ++ (back.bytes ++ [0x5D]))))

/-- A section of single codes or of ranges, with any strings. -/
inductive LooseSection where
  | chars (entries : List (CodeText × HexText)) (back : White)
  | ranges (entries : List LooseRange) (back : White)

def LooseSection.range : LooseSection → Bool
  | chars _ _ => false
  | ranges _ _ => true

def looseCharsText (entries : List (CodeText × HexText)) : Bytes :=
  entries.flatMap fun e => e.1.text ++ e.2.text

def looseRangesText (entries : List LooseRange) : Bytes := entries.flatMap LooseRange.text

def LooseSection.body : LooseSection → Bytes
  | chars entries back => looseCharsText entries ++ back.bytes
  | ranges entries back => looseRangesText entries ++ back.bytes

/-- The characters in a section. -/
def inBody (c : UInt8) : Bool :=
  isSpace c || isXDigit c || c == 0x3C || c == 0x3E || c == 0x5B || c == 0x5D

/-- The parts of a map around and in a section. -/
structure Block where
  front : Gap
  range : Bool
  body : Bytes
  plain : ∀ c ∈ body, inBody c = true

/-- The text of blocks in front of a last gap. -/
def blocksText (blocks : List Block) (tail : Bytes) : Bytes :=
  blocks.foldr (fun b s => b.front.bytes ++ (beginMark b.range ++
    (b.body ++ (endMark b.range ++ s)))) tail

theorem blocksText_cons (b : Block) (blocks : List Block) (tail : Bytes) :
    blocksText (b :: blocks) tail = b.front.bytes ++ (beginMark b.range ++
      (b.body ++ (endMark b.range ++ blocksText blocks tail))) := rfl

theorem findText_pass {word a rest : Bytes} (h : StartsNowhere word a rest) :
    findText word (a ++ rest) = findText word rest := by
  induction a with
  | nil => rfl
  | cons c a ih =>
      rw [List.cons_append, findText, if_neg, ih h.tail]
      rw [List.isPrefixOf_iff_prefix]
      exact h.head

theorem findText_here {word : Bytes} (hne : word ≠ []) (rest : Bytes) :
    findText word (word ++ rest) = some (word ++ rest) := by
  obtain ⟨c, word, rfl⟩ := List.exists_cons_of_ne_nil hne
  rw [List.cons_append, findText, if_pos]
  rw [List.isPrefixOf_iff_prefix]
  exact List.prefix_append (c :: word) rest

theorem HexText.text_inBody (t : HexText) : ∀ c ∈ t.text, inBody c = true := by
  intro c hc
  simp only [HexText.text, List.mem_append, List.mem_cons, List.not_mem_nil, or_false] at hc
  rw [inBody]
  rcases hc with hspace | (rfl | hdigit) | rfl
  · simp [t.space.white c hspace]
  · rfl
  · simp [t.digital c hdigit]
  · rfl

theorem White.inBody (w : White) : ∀ c ∈ w.bytes, inBody c = true := by
  intro c hc
  simp [ScrubToUnicode.inBody, w.white c hc]

theorem looseArrayText_inBody (dsts : List HexText) :
    ∀ c ∈ looseArrayText dsts, inBody c = true := by
  intro c hc
  obtain ⟨d, _, hd⟩ := List.mem_flatMap.mp hc
  exact d.text_inBody c hd

/-- The text of a range has body characters only. -/
theorem LooseRange.text_inBody (e : LooseRange) : ∀ c ∈ e.text, inBody c = true := by
  intro c hc
  cases e with
  | single lo hi dst good =>
      simp only [LooseRange.text, List.mem_append] at hc
      rcases hc with hlo | hhi | hdst
      · exact lo.text_inBody c hlo
      · exact hi.text_inBody c hhi
      · exact dst.text_inBody c hdst
  | array lo hi front dsts back good full =>
      simp only [LooseRange.text, List.mem_append, List.mem_cons, List.not_mem_nil, or_false] at hc
      rcases hc with hlo | hhi | hfront | rfl | hdsts | hback | rfl
      · exact lo.text_inBody c hlo
      · exact hi.text_inBody c hhi
      · exact front.inBody c hfront
      · rfl
      · exact looseArrayText_inBody dsts c hdsts
      · exact back.inBody c hback
      · rfl

theorem LooseSection.body_inBody (s : LooseSection) : ∀ c ∈ s.body, inBody c = true := by
  intro c hc
  cases s with
  | chars entries back =>
      obtain hentries | hback := List.mem_append.mp hc
      · obtain ⟨e, _, he⟩ := List.mem_flatMap.mp hentries
        obtain hcode | hdst := List.mem_append.mp he
        · exact e.1.text_inBody c hcode
        · exact e.2.text_inBody c hdst
      · exact back.inBody c hback
  | ranges entries back =>
      obtain hentries | hback := List.mem_append.mp hc
      · obtain ⟨e, _, he⟩ := List.mem_flatMap.mp hentries
        exact e.text_inBody c he
      · exact back.inBody c hback

def RangeText.loose : RangeText → LooseRange
  | single lo hi dst good => .single lo hi dst.toHexText good
  | array lo hi front dsts back good full =>
      .array lo hi front (dsts.map DstText.toHexText) back good (by rw [List.length_map, full])

def SectionText.loose : SectionText → LooseSection
  | chars entries back => .chars (entries.map fun e => (e.1, e.2.toHexText)) back
  | ranges entries back => .ranges (entries.map RangeText.loose) back

theorem SectionText.loose_range (s : SectionText) : s.loose.range = s.range := by
  cases s <;> rfl

theorem RangeText.loose_text (e : RangeText) : e.loose.text = e.text := by
  cases e with
  | single lo hi dst good => rfl
  | array lo hi front dsts back good full =>
      simp only [RangeText.loose, LooseRange.text, looseArrayText, List.flatMap_map]
      rfl

theorem SectionText.loose_body (s : SectionText) : s.loose.body = s.body := by
  cases s with
  | chars entries back =>
      simp only [SectionText.loose, LooseSection.body, looseCharsText, List.flatMap_map]
      rfl
  | ranges entries back =>
      simp only [SectionText.loose, LooseSection.body, looseRangesText, List.flatMap_map,
        RangeText.loose_text]
      rfl

theorem SectionText.body_inBody (s : SectionText) : ∀ c ∈ s.body, inBody c = true := by
  rw [← s.loose_body]
  exact s.loose.body_inBody

theorem SectionText.notMem_body (s : SectionText) {c : UInt8} (h : inBody c = false) :
    c ∉ s.body := fun hc => ne_true_of_eq_false h (s.body_inBody c hc)

/-- A map with any strings. -/
structure LooseMap where
  parts : List (Gap × LooseSection)
  tail : Gap

def looseBlock (p : Gap × LooseSection) : Block where
  front := p.1
  range := p.2.range
  body := p.2.body
  plain := p.2.body_inBody

def LooseMap.text (t : LooseMap) : Bytes := blocksText (t.parts.map looseBlock) t.tail.bytes

def looseArrayEntries : Code → List HexText → List TextEntry
  | _, [] => []
  | c, d :: dsts => .char c d.digits :: looseArrayEntries (c + 1) dsts

def LooseRange.entries : LooseRange → List TextEntry
  | single lo hi dst _ => [.range lo.code hi.code dst.digits]
  | array lo _ _ dsts _ _ _ => looseArrayEntries lo.code dsts

/-- The entries of a section. -/
def LooseSection.entries : LooseSection → List TextEntry
  | chars entries _ => entries.map fun e => .char e.1.code e.2.digits
  | ranges entries _ => entries.flatMap LooseRange.entries

/-- The entries of a section that are read: a single code with an empty string is none. -/
def LooseSection.read : LooseSection → List TextEntry
  | chars entries _ =>
      (entries.filter fun e => e.2.digits ≠ []).map fun e => .char e.1.code e.2.digits
  | ranges entries _ => entries.flatMap LooseRange.entries

/-- The entries of the sections of one kind that are read. -/
def looseKind (range : Bool) (parts : List (Gap × LooseSection)) : List TextEntry :=
  parts.flatMap fun p => if p.2.range = range then p.2.read else []

/-- What is read from a map: the single codes first. -/
def LooseMap.read (t : LooseMap) : List TextEntry :=
  looseKind false t.parts ++ looseKind true t.parts

theorem looseArrayEntries_loose (c : Code) (dsts : List DstText) :
    looseArrayEntries c (dsts.map DstText.toHexText) = arrayEntries c dsts := by
  induction dsts generalizing c with
  | nil => rfl
  | cons d dsts ih =>
      rw [List.map_cons, looseArrayEntries, ih]
      rfl

theorem RangeText.loose_entries (e : RangeText) : e.loose.entries = e.entries := by
  cases e with
  | single lo hi dst good => rfl
  | array lo hi front dsts back good full => exact looseArrayEntries_loose lo.code dsts

/-- No string of a well-formed map is empty. -/
theorem SectionText.loose_read (s : SectionText) : s.loose.read = s.entries := by
  cases s with
  | chars entries back =>
      have hall : ∀ e ∈ entries.map fun e => (e.1, e.2.toHexText),
          decide (e.2.digits ≠ []) = true := by
        intro e he
        obtain ⟨e', _, rfl⟩ := List.mem_map.mp he
        exact decide_eq_true e'.2.nonempty
      rw [SectionText.loose, LooseSection.read, List.filter_eq_self.mpr hall, List.map_map]
      rfl
  | ranges entries back =>
      simp only [SectionText.loose, LooseSection.read, List.flatMap_map, RangeText.loose_entries]
      rfl

def MapText.loose (t : MapText) : LooseMap := ⟨t.parts.map fun p => (p.1, p.2.loose), t.tail⟩

theorem MapText.loose_text (t : MapText) : t.loose.text = t.text := by
  obtain ⟨parts, tail, hapart⟩ := t
  rw [LooseMap.text, MapText.text, MapText.loose, List.map_map]
  dsimp only
  clear hapart
  induction parts with
  | nil => rfl
  | cons p parts ih =>
      rw [List.map_cons, blocksText_cons, ih]
      simp [partsText, SectionText.text, looseBlock, SectionText.loose_range,
        SectionText.loose_body]

theorem MapText.loose_kind (range : Bool) (t : MapText) :
    looseKind range t.loose.parts = kindEntries range t.parts := by
  rw [MapText.loose, looseKind, List.flatMap_map, kindEntries]
  simp only [SectionText.loose_range, SectionText.loose_read]

theorem MapText.loose_read (t : MapText) : t.loose.read = t.entries := by
  rw [LooseMap.read, MapText.entries, t.loose_kind, t.loose_kind]

theorem endMark_head (range : Bool) (rest : Bytes) :
    (endMark range ++ rest).take 2 = [0x65, 0x6E] := by
  cases range <;> rfl

/-- The last word of a section is found behind its strings. -/
theorem findText_endMark (range : Bool) {body : Bytes} (h : ∀ c ∈ body, inBody c = true)
    (rest : Bytes) :
    findText (endMark range) (body ++ (endMark range ++ rest)) = some (endMark range ++ rest) := by
  -- the second letter of the word is not in the strings
  have hletter : (endMark range)[1]? = some 0x6E := by cases range <;> decide
  have hbody : (0x6E : UInt8) ∉ body := fun hc => absurd (h _ hc) (by decide)
  have hrest : (0x6E : UInt8) ∉ (endMark range ++ rest).take 1 := by
    rw [show 1 = min 1 2 from rfl, ← List.take_take, endMark_head]
    decide
  rw [findText_pass (startsNowhere_of_letter hletter hbody hrest), findText_here]
  cases range <;> decide

/-- No section starts in the strings of another. -/
theorem findText_body (range range' : Bool) {body : Bytes} (h : ∀ c ∈ body, inBody c = true)
    (rest : Bytes) :
    findText (beginMark range) (body ++ (endMark range' ++ rest)) =
      findText (beginMark range) (endMark range' ++ rest) := by
  -- the third letter of the word is not in the strings
  have hletter : (beginMark range)[2]? = some 0x67 := by cases range <;> decide
  have hbody : (0x67 : UInt8) ∉ body := fun hc => absurd (h _ hc) (by decide)
  have hrest : (0x67 : UInt8) ∉ (endMark range' ++ rest).take 2 := by
    rw [endMark_head]
    decide
  exact findText_pass (startsNowhere_of_letter hletter hbody hrest)

theorem beginMark_head (range : Bool) : lit "be" <+: beginMark range := by
  cases range <;> decide

theorem beginMark_ends (range : Bool) (j : Nat) (hpos : 0 < j)
    (hlt : j < (beginMark range).length) :
    ¬ (beginMark range).drop j <+: lit "be" ∧ ¬ lit "be" <+: (beginMark range).drop j := by
  cases range with
  | false =>
      have hlt : j < 11 := hlt
      interval_cases j <;> decide
  | true =>
      have hlt : j < 12 := hlt
      interval_cases j <;> decide

/-- No section starts in front of the first word of one. -/
theorem findText_gap (range range' : Bool) (g : Gap) (rest : Bytes) :
    findText (beginMark range) (g.bytes ++ (beginMark range' ++ rest)) =
      findText (beginMark range) (beginMark range' ++ rest) := by
  obtain ⟨more, hmore⟩ := beginMark_head range'
  refine findText_pass ?_
  rw [← hmore, List.append_assoc]
  exact startsNowhere_of_ends (g.clear range) (beginMark_ends range)

theorem findText_tail (range : Bool) (g : Gap) : findText (beginMark range) g.bytes = none := by
  have hpass := findText_pass (startsNowhere_of_last (g.clear range))
  rw [List.append_nil] at hpass
  rw [hpass]
  rfl

/-- No end mark begins in a begin mark. -/
theorem findText_endMark_beginMark (range range' : Bool) {s : Bytes} (h : s.head? ≠ some 0x6E) :
    findText (endMark range) (beginMark range' ++ s) = findText (endMark range) s := by
  -- the first word of ranges ends with the letter that the last words start with
  have hlast : findText (endMark range) (0x65 :: s) = findText (endMark range) s := by
    refine findText_pass (a := [0x65]) ?_
    intro t hne hsuf hpre
    obtain rfl : t = [0x65] :=
      hsuf.eq_of_length (Nat.le_antisymm hsuf.length_le (List.length_pos_of_ne_nil hne))
    have htwo : [0x65, 0x6E] <+: endMark range := by cases range <;> decide
    obtain ⟨r, hr⟩ := htwo.trans hpre
    cases hr
    exact h rfl
  cases range' with
  | false => cases range <;> rfl
  | true =>
      rw [← hlast]
      cases range <;> rfl

theorem findText_beginMark_endMark (range range' : Bool) (s : Bytes) :
    findText (beginMark range) (endMark range' ++ s) = findText (beginMark range) s := by
  cases range <;> cases range' <;> rfl

theorem findText_beginMark_other (range : Bool) (s : Bytes) :
    findText (beginMark range) (beginMark (!range) ++ s) = findText (beginMark range) s := by
  cases range <;> rfl

end Kura.Engine.ScrubToUnicode
