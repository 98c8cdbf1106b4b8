import Kura.Base.Assign
import Kura.Base.CountLoop
import Kura.Engine.ToUnicode

/-!
# Readers of character maps

Three readers look for the sections of a character map and for the strings in
angle brackets in them: `parseCmapBody` for the codes of glyphs,
`parseToUnicodeCodes` for the codes that have a text, and
`parseExistingToUnicode` for these texts.

## Implementation notes

A place in a text is what stands from there on; the end of a section is the
length of what stands from there on. Every loop over a text ends, since a string
that was read is left behind. The loops over a range of codes are run for at
most some rounds. What a reader writes is the list of its assignments, in order;
`int` is read as 32 bits that start over.
-/

namespace Kura.Engine.CMap

open Base (countLoop)

/-- Codes. -/
abbrev Code := BitVec 32

/-- The text from the first occurrence of a word on. -/
def findText (word : Bytes) : Bytes → Option Bytes
  | [] => none
  | c :: rest => if word.isPrefixOf (c :: rest) then some (c :: rest) else findText word rest

theorem findText_length {word s t : Bytes} (h : findText word s = some t) :
    0 < t.length ∧ t.length ≤ s.length := by
  induction s with
  | nil => cases h
  | cons c rest ih =>
      rw [findText] at h
      split at h
      · cases h
        exact ⟨Nat.succ_pos _, le_rfl⟩
      · obtain ⟨hpos, hle⟩ := ih h
        exact ⟨hpos, hle.trans (Nat.le_succ _)⟩

/-- `std::strtoul` at base sixteen. -/
def strtoul (s : Bytes) : Nat :=
  let t := s.dropWhile isSpace
  let neg := t.head? = some 0x2D
  let t := if neg ∨ t.head? = some 0x2B then t.drop 1 else t
  let two := t.take 2
  let t := if (two = lit "0x" ∨ two = lit "0X") ∧ (t.drop 2).head?.any isXDigit then t.drop 2 else t
  let n := ToUnicode.hexNumber t
  if 2 ^ 64 ≤ n then 2 ^ 64 - 1 else if neg then (2 ^ 64 - n) % 2 ^ 64 else n

/-- The code of a string of digits. -/
def codeOf (digits : Bytes) : Code := BitVec.ofNat 32 (strtoul digits)

/-- The string at an opening bracket, and the text behind its closing one. -/
def bracketed (s : Bytes) : Option (Bytes × Bytes) :=
  if 0x3E ∈ s.drop 1 then
    some ((s.drop 1).takeWhile (· ≠ 0x3E), ((s.drop 1).dropWhile (· ≠ 0x3E)).drop 1)
  else none

/-- Skips characters before the end of a section. -/
def skipWhile (p : UInt8 → Bool) (stop : Nat) : Bytes → Bytes
  | [] => []
  | c :: rest => if stop ≤ rest.length ∧ p c then skipWhile p stop rest else c :: rest

/-- The sections of a text: each is given by the text behind its first word and by what is left at
its last word. The last word is looked for `lead` characters behind the start of the first one, and
the next section `skip` characters behind the start of the last one. -/
def sections (first last : Bytes) (lead : Nat) (skip : ℕ+) (s : Bytes) : List (Bytes × Nat) :=
  match _hfirst : findText first s with
  | none => []
  | some t =>
      match _hlast : findText last (t.drop lead) with
      | none => []
      | some u =>
          (t.drop first.length, u.length) :: sections first last lead skip (u.drop skip)
  termination_by s.length
  decreasing_by
    have ht := (findText_length _hfirst).2
    have hu := findText_length _hlast
    have hskip := skip.pos
    simp only [List.length_drop] at hu ⊢
    omega

/-- A range of the code space. -/
structure CodespaceRange where
  bytes : Nat
  lo : Code
  hi : Code

/-- A code that was read: its value, its bytes and the text behind it. -/
structure Hex where
  val : Code
  nbytes : Nat
  rest : Bytes
  deriving DecidableEq

/-- Looks for the next string, up to a word that starts with `end`. -/
def seekHex : Bytes → Option Bytes
  | [] => none
  | c :: rest =>
      if c = 0x3C then some (c :: rest)
      else if (lit "end").isPrefixOf (c :: rest) then none
      else seekHex rest

/-- Reads the next string as a code. -/
def hexAt (s : Bytes) : Option Hex :=
  match seekHex s with
  | none => none
  | some t =>
      match bracketed t with
      | none => none
      | some (digits, rest) =>
          if digits = [] ∨ 8 < digits.length then none
          else some ⟨codeOf digits, (digits.length + 1) / 2, rest⟩

theorem skipWhile_length (p : UInt8 → Bool) (stop : Nat) (s : Bytes) :
    (skipWhile p stop s).length ≤ s.length := by
  induction s with
  | nil => exact le_rfl
  | cons c rest ih =>
      rw [skipWhile]
      split
      · exact ih.trans (Nat.le_succ _)
      · exact le_rfl

theorem bracketed_length {s digits rest : Bytes} (h : bracketed s = some (digits, rest)) :
    rest.length < s.length := by
  rw [bracketed] at h
  split at h
  · rename_i hmem
    cases h
    have hdrop := (List.dropWhile_suffix (fun c => decide (c ≠ 0x3E)) (l := s.drop 1)).length_le
    have hpos := List.length_pos_of_mem hmem
    simp only [List.length_drop] at hdrop hpos ⊢
    omega
  · cases h

theorem seekHex_length {s t : Bytes} (h : seekHex s = some t) : t.length ≤ s.length := by
  induction s with
  | nil => cases h
  | cons c rest ih =>
      rw [seekHex] at h
      split at h
      · cases h
        exact le_rfl
      · split at h
        · cases h
        · exact (ih h).trans (Nat.le_succ _)

/-- A string that is read is left behind. -/
theorem hexAt_length {s : Bytes} {x : Hex} (h : hexAt s = some x) : x.rest.length < s.length := by
  rw [hexAt] at h
  split at h
  · cases h
  · rename_i t ht
    split at h
    · cases h
    · rename_i digits rest hread
      split at h
      · cases h
      · cases h
        exact (bracketed_length hread).trans_le (seekHex_length ht)

/-- The ranges of a section of the code space. -/
def codespaceRanges (stop : Nat) (s : Bytes) : List CodespaceRange :=
  if stop < s.length then
    match _hlo : hexAt s with
    | none => []
    | some lo =>
        if lo.rest.length < stop then []
        else
          match _hhi : hexAt lo.rest with
          | none => []
          | some hi =>
              if hi.rest.length < stop then []
              else ⟨max lo.nbytes hi.nbytes, lo.val, hi.val⟩ :: codespaceRanges stop hi.rest
  else []
  termination_by s.length
  decreasing_by exact (hexAt_length _hhi).trans (hexAt_length _hlo)

/-- An assignment to codes: a range with the value of its first code, or one code. -/
inductive CidEntry where
  | range (lo hi : Code) (cid : BitVec 32)
  | char (code : Code) (cid : BitVec 32)

/-- `std::atoi` of digits. -/
def atoi (digits : Bytes) : BitVec 32 := BitVec.ofNat 32 (min (digitsValue digits) (2 ^ 63 - 1))

/-- The digits before the end of a section, and the text behind them. -/
def digitsAt (stop : Nat) (s : Bytes) : Bytes × Bytes :=
  let rest := skipWhile isDigit stop s
  (s.take (s.length - rest.length), rest)

/-- The ranges of a section of glyph codes. -/
def cidRanges (stop : Nat) (s : Bytes) : List CidEntry :=
  if stop < s.length then
    match _hlo : hexAt s with
    | none => []
    | some lo =>
        if lo.rest.length < stop then []
        else
          match _hhi : hexAt lo.rest with
          | none => []
          | some hi =>
              if hi.rest.length < stop then []
              else
                let digits := digitsAt stop (skipWhile isSpace stop hi.rest)
                if digits.1 = [] then []
                else .range lo.val hi.val (atoi digits.1) :: cidRanges stop digits.2
  else []
  termination_by s.length
  decreasing_by
    have hskip := skipWhile_length isSpace stop hi.rest
    have hdigits := skipWhile_length isDigit stop (skipWhile isSpace stop hi.rest)
    exact (hdigits.trans hskip).trans_lt ((hexAt_length _hhi).trans (hexAt_length _hlo))

/-- The codes of a section of glyph codes. -/
def cidChars (stop : Nat) (s : Bytes) : List CidEntry :=
  if stop < s.length then
    match _hcode : hexAt s with
    | none => []
    | some code =>
        if code.rest.length < stop then []
        else
          let digits := digitsAt stop (skipWhile isSpace stop code.rest)
          if digits.1 = [] then []
          else .char code.val (atoi digits.1) :: cidChars stop digits.2
  else []
  termination_by s.length
  decreasing_by
    have hskip := skipWhile_length isSpace stop code.rest
    have hdigits := skipWhile_length isDigit stop (skipWhile isSpace stop code.rest)
    exact (hdigits.trans hskip).trans_lt (hexAt_length _hcode)

/-- Whether a range is passed over. -/
def badRange (lo hi : Code) : Bool := hi < lo || 65535 < hi - lo

/-- Assignments, in the order in which they are made. -/
abbrev Writes (α : Type) := List (Code × α)

/-- The assignments of a range or of a code. -/
def CidEntry.run (rounds : Nat) (m : Writes (BitVec 32)) : CidEntry → Option (Writes (BitVec 32))
  | .range lo hi cid =>
      if badRange lo hi then some m
      else countLoop (fun c m => m ++ [(c, cid + (c - lo))]) hi rounds lo m
  | .char code cid => some (m ++ [(code, cid)])

/-- The ranges and then the codes of a text. -/
def cidEntries (text : Bytes) : List CidEntry :=
  (sections (lit "begincidrange") (lit "endcidrange") 0 1 text).flatMap
      (fun sec => cidRanges sec.2 sec.1) ++
    (sections (lit "begincidchar") (lit "endcidchar") 0 1 text).flatMap
      (fun sec => cidChars sec.2 sec.1)

/-- What is read from the body of a character map. -/
structure CmapBody where
  spaces : List CodespaceRange
  code2cid : Writes (BitVec 32)
  ok : Bool

def parseCmapBody (rounds : Nat) (text : Bytes) : Option CmapBody := do
  let spaces := (sections (lit "begincodespacerange") (lit "endcodespacerange") 0 1 text).flatMap
    fun sec => codespaceRanges sec.2 sec.1
  let code2cid ← (cidEntries text).foldlM (CidEntry.run rounds) []
  some ⟨spaces, code2cid, !spaces.isEmpty && !code2cid.isEmpty⟩

/-- A string that was read inside of a section, if there is one, and where the reader stands. -/
abbrev Token := Option (Code × Bytes) × Bytes

/-- Reads the string at the start of a section, behind white space and square brackets. -/
def tokenAt (stop : Nat) : Bytes → Token
  | [] => (none, [])
  | c :: rest =>
      if rest.length < stop then (none, c :: rest)
      else if c = 0x3C then
        match bracketed (c :: rest) with
        | none => (none, c :: rest)
        | some (digits, behind) =>
            if behind.length + 1 < stop then (none, c :: rest)
            else if digits = [] ∨ 8 < digits.length then (none, behind)
            else (some (codeOf digits, digits), behind)
      else if c = 0x5B ∨ c = 0x5D ∨ isSpace c then tokenAt stop rest
      else (none, c :: rest)

/-- A token read takes at least one byte, and no read gives bytes back. -/
theorem tokenAt_length (stop : Nat) (s : Bytes) :
    (tokenAt stop s).2.length ≤ s.length ∧
      ((tokenAt stop s).1.isSome → (tokenAt stop s).2.length < s.length) := by
  induction s with
  | nil => exact ⟨le_rfl, fun h => by cases h⟩
  | cons c rest ih =>
      rw [tokenAt]
      split
      · exact ⟨le_rfl, fun h => by cases h⟩
      · split
        · split
          · exact ⟨le_rfl, fun h => by cases h⟩
          · rename_i digits behind hread
            have hlt := bracketed_length hread
            split
            · exact ⟨le_rfl, fun h => by cases h⟩
            · split
              · exact ⟨hlt.le, fun h => by cases h⟩
              · exact ⟨hlt.le, fun _ => hlt⟩
        · split
          · exact ⟨ih.1.trans (Nat.le_succ _), fun h => (ih.2 h).trans (Nat.lt_succ_self _)⟩
          · exact ⟨le_rfl, fun h => by cases h⟩

theorem tokenAt_some {stop : Nat} {s rest : Bytes} {x : Code × Bytes}
    (h : tokenAt stop s = (some x, rest)) : rest.length < s.length := by
  have hlen := (tokenAt_length stop s).2
  rw [h] at hlen
  exact hlen rfl

theorem tokenAt_le {stop : Nat} {s rest : Bytes} {x : Option (Code × Bytes)}
    (h : tokenAt stop s = (x, rest)) : rest.length ≤ s.length := by
  have hlen := (tokenAt_length stop s).1
  rw [h] at hlen
  exact hlen

/-- Whether a text says something. -/
def realDst (digits : Bytes) (v : Code) : Bool :=
  if digits = [] then false
  else if digits.length ≤ 4 then
    v ≠ 0 && v ≠ 0xFFFD && v ≠ 0xFFFE && v ≠ 0xFEFF && !(0xE000 ≤ v && v ≤ 0xF8FF)
  else v ≠ 0

/-- A code that has a text, or a range with the text of its first code. -/
inductive BfEntry where
  | range (lo hi dst : Code) (digits : Bytes)
  | char (code : Code)

/-- The codes of a section that have a text. -/
def bfChars (stop : Nat) (s : Bytes) : List BfEntry :=
  if stop < s.length then
    match _hsrc : tokenAt stop s with
    | (none, _) => []
    | (some src, s₁) =>
        match _hdst : tokenAt stop s₁ with
        | (none, _) => []
        | (some dst, s₂) =>
            if realDst dst.2 dst.1 then .char src.1 :: bfChars stop s₂ else bfChars stop s₂
  else []
  termination_by s.length
  decreasing_by all_goals exact (tokenAt_some _hdst).trans (tokenAt_some _hsrc)

/-- The texts between square brackets, for the codes from one on: the codes that have one, and
where the reader stands. -/
def bfArray (stop : Nat) (hi c : Code) (s : Bytes) : List BfEntry × Bytes :=
  if c ≤ hi ∧ stop < s.length then
    match hdst : tokenAt stop s with
    | (none, s₁) => ([], s₁)
    | (some dst, s₁) =>
        let more := bfArray stop hi (c + 1) s₁
        (if realDst dst.2 dst.1 then .char c :: more.1 else more.1, more.2)
  else ([], s)
  termination_by s.length
  decreasing_by exact tokenAt_some hdst

theorem bfArray_length (stop : Nat) (hi c : Code) (s : Bytes) :
    (bfArray stop hi c s).2.length ≤ s.length := by
  fun_induction bfArray stop hi c s with
  | case1 c s _ s₁ hdst => exact tokenAt_le hdst
  | case2 c s _ dst s₁ hdst more ih => exact ih.trans (tokenAt_some hdst).le
  | case3 => exact le_rfl

/-- The ranges of a section. -/
def bfRanges (stop : Nat) (s : Bytes) : List BfEntry :=
  if stop < s.length then
    match _hlo : tokenAt stop s with
    | (none, _) => []
    | (some lo, s₁) =>
        match _hhi : tokenAt stop s₁ with
        | (none, _) => []
        | (some hi, s₂) =>
            let s₃ := skipWhile isSpace stop s₂
            if stop < s₃.length ∧ s₃.head? = some 0x5B then
              let array := bfArray stop hi.1 lo.1 s₃
              array.1 ++ bfRanges stop (skipWhile (fun c => c == 0x5D || isSpace c) stop array.2)
            else
              match _hdst : tokenAt stop s₃ with
              | (none, _) => []
              | (some dst, s₄) =>
                  if badRange lo.1 hi.1 then bfRanges stop s₄
                  else .range lo.1 hi.1 dst.1 dst.2 :: bfRanges stop s₄
  else []
  termination_by s.length
  decreasing_by
    all_goals have hread := (tokenAt_some _hhi).trans (tokenAt_some _hlo)
    all_goals have hskip := skipWhile_length isSpace stop s₂
    · have harray := bfArray_length stop hi.1 lo.1 (skipWhile isSpace stop s₂)
      exact ((skipWhile_length _ _ _).trans (harray.trans hskip)).trans_lt hread
    · exact (tokenAt_some _hdst).trans (hskip.trans_lt hread)
    · exact (tokenAt_some _hdst).trans (hskip.trans_lt hread)

/-- The codes that are noted for an entry. -/
def BfEntry.run (rounds : Nat) (mapped : List Code) : BfEntry → Option (List Code)
  | .range lo hi dst digits =>
      countLoop (fun c mapped => if realDst digits (dst + (c - lo)) then mapped ++ [c] else mapped)
        hi rounds lo mapped
  | .char code => some (mapped ++ [code])

/-- The single codes and then the ranges of a text. -/
def bfEntries (text : Bytes) : List BfEntry :=
  (sections (lit "beginbfchar") (lit "endbfchar") 0 1 text).flatMap
      (fun sec => bfChars sec.2 sec.1) ++
    (sections (lit "beginbfrange") (lit "endbfrange") 0 1 text).flatMap
      (fun sec => bfRanges sec.2 sec.1)

def parseToUnicodeCodes (rounds : Nat) (text : Bytes) : Option (List Code) :=
  (bfEntries text).foldlM (BfEntry.run rounds) []

/-- `%0wX` of a number. -/
def hexPad (w n : Nat) : Bytes :=
  let digits := (Nat.digits 16 n).reverse.map hexDigit
  List.replicate (w - digits.length) 0x30 ++ digits

/-- The digits of a code point in UTF-16. -/
def utf16Hex (uni : Code) : Bytes :=
  if 0xFFFF < uni then
    let v := uni - 0x10000
    hexPad 4 (0xD800 + (v >>> 10)).toNat ++ hexPad 4 (0xDC00 + (v &&& 0x3FF)).toNat
  else hexPad 4 uni.toNat

/-- Reads the string at the start of a text, behind white space: the string, if there is one, and
where the reader stands. -/
def parseHexToken (s : Bytes) : Option Bytes × Bytes :=
  let t := s.dropWhile isSpace
  if t.head? = some 0x3C then
    match bracketed t with
    | some (digits, rest) => (some digits, rest)
    | none => (none, t)
  else (none, t)

theorem parseHexToken_length (s : Bytes) :
    (parseHexToken s).2.length ≤ s.length ∧
      ((parseHexToken s).1.isSome → (parseHexToken s).2.length < s.length) := by
  have hdrop := (List.dropWhile_suffix isSpace (l := s)).length_le
  rw [parseHexToken]
  split
  · split
    · rename_i digits rest hread
      have hlt := (bracketed_length hread).trans_le hdrop
      exact ⟨hlt.le, fun _ => hlt⟩
    · exact ⟨hdrop, fun h => by cases h⟩
  · exact ⟨hdrop, fun h => by cases h⟩

theorem parseHexToken_some {s rest digits : Bytes} (h : parseHexToken s = (some digits, rest)) :
    rest.length < s.length := by
  have hlen := (parseHexToken_length s).2
  rw [h] at hlen
  exact hlen rfl

theorem parseHexToken_le {s rest : Bytes} {x : Option Bytes} (h : parseHexToken s = (x, rest)) :
    rest.length ≤ s.length := by
  have hlen := (parseHexToken_length s).1
  rw [h] at hlen
  exact hlen

/-- The text of a code, or a range with the text of its first code. -/
inductive TextEntry where
  | range (lo hi : Code) (dst : Bytes)
  | char (code : Code) (dst : Bytes)

/-- The texts of a section. -/
def textChars (stop : Nat) (s : Bytes) : List TextEntry :=
  if stop < s.length then
    match _hsrc : parseHexToken s with
    | (none, _) => []
    | (some src, s₁) =>
        if stop < s₁.length then
          match _hdst : parseHexToken s₁ with
          | (none, _) => []
          | (some dst, s₂) =>
              if src.length ≤ 8 ∧ dst ≠ [] then .char (codeOf src) dst :: textChars stop s₂
              else textChars stop s₂
        else []
  else []
  termination_by s.length
  decreasing_by all_goals exact (parseHexToken_some _hdst).trans (parseHexToken_some _hsrc)

/-- The texts between square brackets, for the codes from one on, and where the reader stands. -/
def textArray (stop : Nat) (hi c : Code) (s : Bytes) : List TextEntry × Bytes :=
  if c ≤ hi ∧ stop < s.length then
    match hdst : parseHexToken s with
    | (none, s₁) => ([], s₁)
    | (some dst, s₁) =>
        let more := textArray stop hi (c + 1) (skipWhile isSpace stop s₁)
        (.char c dst :: more.1, more.2)
  else ([], s)
  termination_by s.length
  decreasing_by exact (skipWhile_length _ _ _).trans_lt (parseHexToken_some hdst)

theorem textArray_length (stop : Nat) (hi c : Code) (s : Bytes) :
    (textArray stop hi c s).2.length ≤ s.length := by
  fun_induction textArray stop hi c s with
  | case1 c s _ s₁ hdst => exact parseHexToken_le hdst
  | case2 c s _ dst s₁ hdst more ih =>
      exact ih.trans ((skipWhile_length _ _ _).trans (parseHexToken_some hdst).le)
  | case3 => exact le_rfl

/-- Leaves a closing square bracket behind. -/
def closeArray (stop : Nat) (s : Bytes) : Bytes :=
  if stop < s.length ∧ s.head? = some 0x5D then s.drop 1 else s

theorem closeArray_length (stop : Nat) (s : Bytes) : (closeArray stop s).length ≤ s.length := by
  rw [closeArray]
  split
  · rw [List.length_drop]
    exact Nat.sub_le _ _
  · exact le_rfl

/-- The ranges of a section. -/
def textRanges (stop : Nat) (s : Bytes) : List TextEntry :=
  if stop < s.length then
    match _hlo : parseHexToken s with
    | (none, _) => []
    | (some lo, s₁) =>
        match _hhi : parseHexToken s₁ with
        | (none, _) => []
        | (some hi, s₂) =>
            let s₃ := skipWhile isSpace stop s₂
            if badRange (codeOf lo) (codeOf hi) then []
            else if stop < s₃.length ∧ s₃.head? = some 0x5B then
              let array := textArray stop (codeOf hi) (codeOf lo) (s₃.drop 1)
              array.1 ++ textRanges stop (skipWhile isSpace stop (closeArray stop array.2))
            else
              match _hdst : parseHexToken s₃ with
              | (none, _) => []
              | (some dst, s₄) =>
                  .range (codeOf lo) (codeOf hi) dst :: textRanges stop (skipWhile isSpace stop s₄)
  else []
  termination_by s.length
  decreasing_by
    all_goals have hread := (parseHexToken_some _hhi).trans (parseHexToken_some _hlo)
    all_goals have hskip := skipWhile_length isSpace stop s₂
    · have harray := textArray_length stop (codeOf hi) (codeOf lo)
        ((skipWhile isSpace stop s₂).drop 1)
      have hdrop := List.length_drop (i := 1) (l := skipWhile isSpace stop s₂)
      have hclose := closeArray_length stop (textArray stop (codeOf hi) (codeOf lo)
        ((skipWhile isSpace stop s₂).drop 1)).2
      have _hlast := skipWhile_length isSpace stop (closeArray stop (textArray stop (codeOf hi)
        (codeOf lo) ((skipWhile isSpace stop s₂).drop 1)).2)
      omega
    · exact (skipWhile_length _ _ _).trans_lt
        ((parseHexToken_some _hdst).trans (hskip.trans_lt hread))

/-- The texts that are noted for an entry. A text of one unit counts up with its codes. -/
def TextEntry.run (rounds : Nat) (m : Writes Bytes) : TextEntry → Option (Writes Bytes)
  | .range lo hi dst =>
      countLoop
        (fun c m => m ++ [(c, if dst.length ≤ 4 then utf16Hex (codeOf dst + (c - lo)) else dst)])
        hi rounds lo m
  | .char code dst => some (m ++ [(code, dst)])

/-- The single codes and then the ranges of a text. -/
def textEntries (text : Bytes) : List TextEntry :=
  (sections (lit "beginbfchar") (lit "endbfchar") 11 9 text).flatMap
      (fun sec => textChars sec.2 sec.1) ++
    (sections (lit "beginbfrange") (lit "endbfrange") 12 10 text).flatMap
      (fun sec => textRanges sec.2 sec.1)

def parseExistingToUnicode (rounds : Nat) (text : Bytes) : Option (Writes Bytes) :=
  (textEntries text).foldlM (TextEntry.run rounds) []

end Kura.Engine.CMap
