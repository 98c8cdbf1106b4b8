import Kura.Engine.ImageRepair
import Kura.Engine.TextRepair

/-!
# The second run of the filter

The checker is the filter itself, run on tokens that were written. What it
counts for a written token depends on the name before the token and on the
depths it has reached.
-/

namespace Kura.Engine

namespace ContentFixFilter

/-- Tests whether the value of a string has private use characters. -/
def hasPua (q : Qpdf) (v : Bytes) : Bool := (stripPuaUtf8 (q.getUTF8Value v)).2

/-- The name at the end of a text, with a token after it. -/
def lead (l : Option Bytes) (t : Token) : Option Bytes :=
  match t.type with
  | .name => some t.value
  | .space | .comment => l
  | _ => none

/-- The name at the end of a text, if only white space follows it. -/
def leadName (ts : List Token) : Option Bytes := ts.foldl lead none

/-- What the second run knows between two tokens. -/
structure View where
  held : Option Bytes
  qDepth : Nat
  arrDepth : Nat
  dictDepth : Nat

/-- The second run between two tokens, with the violations counted so far. -/
structure Rests (c : ContentFixFilter) (v : View) (n : Nat) : Prop where
  image : c.inImageDict = false
  swallow : c.swallowEI = false
  suppressed : c.qSuppressed = 0
  held : c.heldName.map Token.value = v.held
  qDepth : c.qDepth = v.qDepth
  arrDepth : c.arrDepth = v.arrDepth
  dictDepth : c.dictDepth = v.dictDepth
  violations : c.violations = n

/-- The violations of an operator after a name. -/
def intentFaults (held : Option Bytes) (t : Token) : Nat :=
  (decide (t.value = lit "ri") && held.any fun name => name ∉ kValidRi).toNat

/-- The depth of saved states after an operator. -/
def depthAfter (m : FixMode) (t : Token) (depth : Nat) : Nat :=
  if m.limits = true ∧ t.value = lit "q" then depth + 1
  else if m.limits = true ∧ t.value = lit "Q" then depth - 1
  else depth

/-- The violations of a string after a name. -/
def stringFaults (q : Qpdf) (m : FixMode) (held : Option Bytes) (t : Token) : Nat :=
  if m.scrubActualText && held.any (fun w => w = lit "/ActualText") && hasPua q t.value then 1
  else hexFaults t.raw + if m.limits = true ∧ m.maxStr < t.value.length then 1 else 0

namespace Rests

variable {q : Qpdf} {m : FixMode} {c : ContentFixFilter} {v : View} {n : Nat} {t : Token}

theorem write (h : Rests c v n) (ts : List Token) : Rests (c.write ts) v n :=
  ⟨h.image, h.swallow, h.suppressed, h.held, h.qDepth, h.arrDepth, h.dictDepth, h.violations⟩

theorem violation (h : Rests c v n) (k : Nat) : Rests (c.violation k) v (n + k) :=
  ⟨h.image, h.swallow, h.suppressed, h.held, h.qDepth, h.arrDepth, h.dictDepth,
    congrArg (· + k) h.violations⟩

theorem flushHeld (h : Rests c v n) : Rests c.flushHeld { v with held := none } n :=
  ⟨h.image, h.swallow, h.suppressed, rfl, h.qDepth, h.arrDepth, h.dictDepth, h.violations⟩

theorem noteName (h : Rests c v n) (t : Token) : Rests (c.noteName t) v n := by
  rw [ContentFixFilter.noteName]
  split
  · exact ⟨h.image, h.swallow, h.suppressed, h.held, h.qDepth, h.arrDepth, h.dictDepth,
      h.violations⟩
  · split
    · exact ⟨h.image, h.swallow, h.suppressed, h.held, h.qDepth, h.arrDepth, h.dictDepth,
        h.violations⟩
    · exact h

/-- Outside of images a token is handled by its type. -/
theorem handleToken_eq (h : Rests c v n) (t : Token) :
    handleToken q m c t = contentToken q m c t := by
  rw [handleToken, if_neg (by simp [h.image]), if_neg (by simp [h.swallow])]

/-- A name that is not too long is held back. -/
theorem name (h : Rests c v n) (ht : t.type = .name)
    (hlen : m.limits = true → t.value.length ≤ kMaxName + 1) :
    Rests (handleToken q m c t) { v with held := some t.value } n := by
  have hshort : ¬ (m.limits = true ∧ kMaxName + 1 < t.value.length) := by
    rintro ⟨hlimits, hlong⟩
    exact absurd (hlen hlimits) (by omega)
  rw [h.handleToken_eq, contentToken]
  simp only [ht]
  rw [nameToken, if_neg hshort]
  have hf := (h.noteName t).flushHeld
  exact ⟨hf.image, hf.swallow, hf.suppressed, rfl, hf.qDepth, hf.arrDepth, hf.dictDepth,
    hf.violations⟩

/-- White space changes nothing. -/
theorem blank (h : Rests c v n) (ht : t.type = .space ∨ t.type = .comment) :
    Rests (handleToken q m c t) v n := by
  have hblank : contentToken q m c t = (c.noteName t).blankToken t := by
    rw [contentToken]
    obtain ht | ht := ht
    · simp only [ht]
    · simp only [ht]
  have hn := h.noteName t
  rw [h.handleToken_eq, hblank, blankToken]
  split
  · exact ⟨hn.image, hn.swallow, hn.suppressed, hn.held, hn.qDepth, hn.arrDepth, hn.dictDepth,
      hn.violations⟩
  · rename_i hheld
    have hnone : v.held = none := by
      rw [← hn.held]
      simpa using hheld
    have hf := hn.flushHeld.write [t]
    exact ⟨hf.image, hf.swallow, hf.suppressed, hf.held.trans hnone.symm, hf.qDepth, hf.arrDepth,
      hf.dictDepth, hf.violations⟩

/-- An operator that stays, with a name before it that may be no intent. -/
theorem operator (h : Rests c v n) (ht : t.type = .word) (hop : t.value ∈ kValidOps)
    (hbi : t.value ≠ lit "BI") :
    Rests (ContentFixFilter.operator q c t) { v with held := none }
      (n + intentFaults v.held t) := by
  have hword : ∀ w, t.isWord w = decide (t.value = lit w) := by
    intro w
    rw [Token.isWord, ht]
    simp
  rw [ContentFixFilter.operator, intentFaults, ← h.held, hword, hword]
  by_cases hri : t.value = lit "ri"
  · cases hheld : c.heldName with
    | none =>
        simp only [hri, decide_true]
        rw [if_neg (by decide), if_pos (by decide)]
        exact h.flushHeld.write [t]
    | some name =>
        simp only [hri, decide_true, Option.map_some, Option.any_some, Bool.true_and]
        by_cases hvalid : name.value ∈ kValidRi
        · simp only [hvalid, if_true, not_true_eq_false, decide_false, Bool.toNat_false]
          exact h.flushHeld.write [t]
        · simp only [hvalid, if_false, not_false_eq_true, decide_true, Bool.toNat_true]
          have hf := (h.violation 1).flushHeld
          exact ⟨hf.image, hf.swallow, hf.suppressed, rfl, hf.qDepth, hf.arrDepth, hf.dictDepth,
            hf.violations⟩
  · simp only [hri, hbi, hop, decide_false, Bool.false_and, Bool.toNat_false, Bool.false_eq_true,
      if_false, if_true]
    exact h.flushHeld.write [t]

/-- An operator; the depth of saved states may change. -/
theorem word (h : Rests c v n) (ht : t.type = .word) (hop : t.value ∈ kValidOps)
    (hbi : t.value ≠ lit "BI")
    (hq : m.limits = true → t.value = lit "q" → v.qDepth < 28) :
    Rests (handleToken q m c t) { v with held := none, qDepth := depthAfter m t v.qDepth }
      (n + intentFaults v.held t) := by
  have hn := h.noteName t
  rw [h.handleToken_eq, contentToken]
  simp only [ht]
  rw [wordToken, depthAfter]
  by_cases hsave : m.limits = true ∧ t.value = lit "q"
  · have hlt : ¬ 28 ≤ (c.noteName t).qDepth := by
      rw [hn.qDepth]
      exact Nat.not_le.mpr (hq hsave.1 hsave.2)
    rw [if_pos hsave, if_pos hsave, if_neg hlt]
    have hdeep : Rests { c.noteName t with qDepth := (c.noteName t).qDepth + 1 }
        { v with qDepth := v.qDepth + 1 } n :=
      ⟨hn.image, hn.swallow, hn.suppressed, hn.held, congrArg (· + 1) hn.qDepth, hn.arrDepth,
        hn.dictDepth, hn.violations⟩
    exact hdeep.operator ht hop hbi
  · rw [if_neg hsave, if_neg hsave]
    by_cases hrestore : m.limits = true ∧ t.value = lit "Q"
    · rw [if_pos hrestore, if_pos hrestore, if_neg (by rw [hn.suppressed]; omega)]
      have hup : Rests { c.noteName t with qDepth := (c.noteName t).qDepth - 1 }
          { v with qDepth := v.qDepth - 1 } n :=
        ⟨hn.image, hn.swallow, hn.suppressed, hn.held, congrArg (· - 1) hn.qDepth, hn.arrDepth,
          hn.dictDepth, hn.violations⟩
      exact hup.operator ht hop hbi
    · rw [if_neg hrestore, if_neg hrestore]
      exact hn.operator ht hop hbi

/-- A string. -/
theorem string (h : Rests c v n) (ht : t.type = .string) :
    Rests (handleToken q m c t) { v with held := none } (n + stringFaults q m v.held t) := by
  have hn := h.noteName t
  have hscrubs : (c.noteName t).scrubs q m t =
      (m.scrubActualText && v.held.any (fun w => w = lit "/ActualText") && hasPua q t.value) := by
    rw [scrubs, ← hn.held, hasPua, Option.any_map]
  rw [h.handleToken_eq, contentToken]
  simp only [ht]
  rw [stringToken, stringFaults, hscrubs]
  split
  · have hf := (hn.flushHeld.write
      [q.stringToken (q.newUnicodeString (stripPuaUtf8 (q.getUTF8Value t.value)).1)]).violation 1
    exact ⟨hf.image, hf.swallow, hf.suppressed, hf.held, hf.qDepth, hf.arrDepth, hf.dictDepth,
      hf.violations⟩
  · have hf := (hn.violation (hexFaults t.raw)).flushHeld
    by_cases hlimits : m.limits = true
    · by_cases hlong : m.maxStr < t.value.length
      · simp only [hlimits, hlong, if_true, and_self]
        rw [← Nat.add_assoc]
        exact (hf.violation 1).write _
      · simp only [hlimits, hlong, if_true, if_false, and_false]
        exact hf.write _
    · simp only [hlimits]
      exact hf.write _

/-- A token that only ends the operand before it. -/
theorem other (h : Rests c v n)
    (ht : t.type ∈ [.braceOpen, .braceClose, .null, .bool, .inlineImage]) :
    Rests (handleToken q m c t) { v with held := none } n := by
  have hcontent : contentToken q m c t = (c.noteName t).flushHeld.write [t] := by
    rw [contentToken]
    simp only [List.mem_cons, List.not_mem_nil, or_false] at ht
    obtain ht | ht | ht | ht | ht := ht
    all_goals simp only [ht]
  rw [h.handleToken_eq, hcontent]
  exact (h.noteName t).flushHeld.write [t]

theorem real (h : Rests c v n) (ht : t.type = .real) :
    Rests (handleToken q m c t) { v with held := none } (n + (fixReal m t).2) := by
  rw [h.handleToken_eq, contentToken]
  simp only [ht]
  exact ((h.noteName t).flushHeld.violation _).write _

theorem integer (h : Rests c v n) (ht : t.type = .integer) :
    Rests (handleToken q m c t) { v with held := none } (n + (fixInteger m t).2) := by
  rw [h.handleToken_eq, contentToken]
  simp only [ht]
  exact ((h.noteName t).flushHeld.violation _).write _

theorem arrayOpen (h : Rests c v n) (ht : t.type = .arrayOpen) :
    Rests (handleToken q m c t) { v with held := none, arrDepth := v.arrDepth + 1 } n := by
  have hf := (h.noteName t).flushHeld.write [t]
  rw [h.handleToken_eq, contentToken]
  simp only [ht]
  exact ⟨hf.image, hf.swallow, hf.suppressed, hf.held, hf.qDepth, congrArg (· + 1) hf.arrDepth,
    hf.dictDepth, hf.violations⟩

theorem dictOpen (h : Rests c v n) (ht : t.type = .dictOpen) :
    Rests (handleToken q m c t) { v with held := none, dictDepth := v.dictDepth + 1 } n := by
  have hf := (h.noteName t).flushHeld.write [t]
  rw [h.handleToken_eq, contentToken]
  simp only [ht]
  exact ⟨hf.image, hf.swallow, hf.suppressed, hf.held, hf.qDepth, hf.arrDepth,
    congrArg (· + 1) hf.dictDepth, hf.violations⟩

/-- A closing bracket that has a counterpart. -/
theorem arrayClose (h : Rests c v n) (ht : t.type = .arrayClose) (hopen : v.arrDepth ≠ 0) :
    Rests (handleToken q m c t) { v with held := none, arrDepth := v.arrDepth - 1 } n := by
  have hf := (h.noteName t).flushHeld.write [t]
  rw [h.handleToken_eq, contentToken]
  simp only [ht]
  rw [if_neg (by rw [(h.noteName t).arrDepth]; exact hopen)]
  exact ⟨hf.image, hf.swallow, hf.suppressed, hf.held, hf.qDepth, congrArg (· - 1) hf.arrDepth,
    hf.dictDepth, hf.violations⟩

theorem dictClose (h : Rests c v n) (ht : t.type = .dictClose) (hopen : v.dictDepth ≠ 0) :
    Rests (handleToken q m c t) { v with held := none, dictDepth := v.dictDepth - 1 } n := by
  have hf := (h.noteName t).flushHeld.write [t]
  rw [h.handleToken_eq, contentToken]
  simp only [ht]
  rw [if_neg (by rw [(h.noteName t).dictDepth]; exact hopen)]
  exact ⟨hf.image, hf.swallow, hf.suppressed, hf.held, hf.qDepth, hf.arrDepth,
    congrArg (· - 1) hf.dictDepth, hf.violations⟩

end Rests

/-- The second run inside the dictionary of an image. -/
structure InImage (c : ContentFixFilter) (v : View) (n : Nat) (toks : List Token) : Prop where
  image : c.inImageDict = true
  iiToks : c.iiToks = toks
  rests : Rests { c with inImageDict := false } v n

namespace InImage

variable {q : Qpdf} {m : FixMode} {c : ContentFixFilter} {v : View} {n : Nat}
  {toks : List Token} {t : Token}

theorem handleToken_eq (h : InImage c v n toks) (t : Token) :
    handleToken q m c t = imageToken q c t := by
  rw [handleToken, if_pos h.image]

theorem plain (h : InImage c v n toks) (ht : t.Plain) :
    InImage (handleToken q m c t) v n (toks ++ [t]) := by
  have happend : imageToken q c t = { c with iiToks := c.iiToks ++ [t] } := by
    rw [imageToken, if_neg (by simp [ht.1]), if_neg ht.2.2, if_neg (by simp [ht.2.1])]
  rw [h.handleToken_eq, happend]
  refine ⟨h.image, congrArg (· ++ [t]) h.iiToks, ?_⟩
  have hr := h.rests
  exact ⟨rfl, hr.swallow, hr.suppressed, hr.held, hr.qDepth, hr.arrDepth, hr.dictDepth,
    hr.violations⟩

theorem plains (h : InImage c v n toks) {ts : List Token} (hts : ∀ t ∈ ts, t.Plain) :
    InImage (ts.foldl (handleToken q m) c) v n (toks ++ ts) := by
  induction ts generalizing c toks with
  | nil => simpa using h
  | cons t ts ih =>
      have hone := h.plain (q := q) (m := m) (hts t (by simp))
      rw [List.foldl_cons, ← List.singleton_append, ← List.append_assoc]
      exact ih hone fun t' ht' => hts t' (by simp [ht'])

/-- The data of an image and the operator after it. -/
theorem data (h : InImage c v n toks) (data : Bytes) :
    Rests (handleToken q m (handleToken q m c (.plain .inlineImage data)) (.op "EI")) v
      (n + (processInlineImage q toks data).violations) := by
  have hr := h.rests
  have hdata : handleToken q m c (.plain .inlineImage data) =
      { c with
        iiToks := []
        inImageDict := false
        swallowEI := true
        out := c.out ++ (processInlineImage q c.iiToks data).written
        violations := c.violations + (processInlineImage q c.iiToks data).violations
        iiFixed := c.iiFixed + (processInlineImage q c.iiToks data).fixed.toNat } := by
    rw [h.handleToken_eq, imageToken, if_neg (by simp [Token.isWord, Token.plain])]
    exact if_pos rfl
  rw [hdata, ← h.iiToks, handleToken]
  simp only [Bool.false_eq_true, if_false, if_true]
  rw [if_neg (by decide), if_pos (by decide)]
  exact ⟨rfl, rfl, hr.suppressed, hr.held, hr.qDepth, hr.arrDepth, hr.dictDepth,
    congrArg (· + _) hr.violations⟩

/-- An image that ends before its data. -/
theorem cut (h : InImage c v n toks) : Rests (handleToken q m c (.op "EI")) v n := by
  have hr := h.rests
  rw [h.handleToken_eq, imageToken, if_neg (by decide), if_neg (by decide), if_pos (by decide)]
  exact ⟨rfl, hr.swallow, hr.suppressed, hr.held, hr.qDepth, hr.arrDepth, hr.dictDepth,
    hr.violations⟩

/-- The start of an image. -/
theorem start (h : Rests c v n) :
    InImage (handleToken q m c (.op "BI")) { v with held := none } n [] := by
  have hn := h.noteName (.op "BI")
  have hbi : handleToken q m c (.op "BI") =
      { (c.noteName (.op "BI")).flushHeld with inImageDict := true, iiToks := [] } := by
    rw [h.handleToken_eq, contentToken]
    simp only [Token.op, Token.plain]
    have hsave : lit "BI" ≠ lit "q" ∧ lit "BI" ≠ lit "Q" := by decide
    rw [wordToken, if_neg (fun hw => hsave.1 hw.2), if_neg (fun hw => hsave.2 hw.2)]
    rfl
  rw [hbi]
  have hf := hn.flushHeld
  refine ⟨rfl, rfl, ?_⟩
  exact ⟨rfl, hf.swallow, hf.suppressed, hf.held, hf.qDepth, hf.arrDepth, hf.dictDepth,
    hf.violations⟩

end InImage

section Images

variable {q : Qpdf} {m : FixMode} {c : ContentFixFilter} {v : View} {n : Nat}

theorem plain_blank : Token.Plain .blank ∧ Token.Plain .newline := by
  refine ⟨⟨?_, ?_, ?_⟩, ⟨?_, ?_, ?_⟩⟩ <;> decide

/-- A whole image: the second run repairs it again and counts what it finds. -/
theorem Rests.wholeImage (h : Rests c v n) {entries : List Token} (hplain : ∀ t ∈ entries, t.Plain)
    (data : Bytes) :
    Rests ((imageTokens entries data).foldl (handleToken q m) c) { v with held := none }
      (n + (processInlineImage q (entries ++ [.blank, .newline])
        (data ++ [0x0A])).violations) := by
  have hentries := ((InImage.start (q := q) (m := m) h).plains (q := q) (m := m) hplain).plain
    (q := q) (m := m) plain_blank.1
  have hid : ∀ {c' : ContentFixFilter} {toks}, InImage c' { v with held := none } n toks →
      handleToken q m c' (.op "ID") = c' := by
    intro c' toks hc'
    rw [hc'.handleToken_eq, imageToken, if_pos (by decide)]
  have hopen := hentries.plain (q := q) (m := m) plain_blank.2
  rw [imageTokens]
  simp only [List.foldl_cons, List.foldl_append, List.foldl_nil, hid hentries]
  apply Rests.blank
  · simpa using hopen.data (data ++ [0x0A])
  · exact Or.inl rfl

/-- An image without data. -/
theorem Rests.cutImage (h : Rests c v n) {toks : List Token} (hplain : ∀ t ∈ toks, t.Plain) :
    Rests ((cutImageTokens toks).foldl (handleToken q m) c) { v with held := none } n := by
  have hopen := (((InImage.start (q := q) (m := m) h).plain (q := q) (m := m)
    plain_blank.1).plains (q := q) (m := m) hplain).plain (q := q) (m := m) plain_blank.1
  rw [cutImageTokens]
  simp only [List.foldl_cons, List.foldl_append, List.foldl_nil]
  apply Rests.blank
  · exact hopen.cut
  · exact Or.inl rfl

end Images

end ContentFixFilter

end Kura.Engine
