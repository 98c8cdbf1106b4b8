import Kura.Engine.ContentReader

/-!
# What the filter does with one token

The text of the filter is what it has written and what it holds back. Each
token of the content adds to the text what it is replaced by, or nothing; only
the intent before `ri` is changed afterwards. `contentEffect` is the only place
where the steps of the filter are taken apart for the two readers.
-/

namespace Kura.Engine

open Base (Delim idle counts tally)

/-- How deep `q` has been nested, and how many were dropped. -/
structure Nest where
  depth : Nat := 0
  suppressed : Nat := 0
  deriving DecidableEq

namespace Nest

variable (m : FixMode) (n : Nest)

/-- Tests whether an operator is dropped. -/
def drops : OpKind → Bool
  | .word w =>
      if m.limits ∧ w = lit "q" then 28 ≤ n.depth
      else if m.limits ∧ w = lit "Q" then 0 < n.suppressed
      else w ∉ kValidOps
  | .image => false
  | .invalid => true

/-- The nesting after an operator. -/
def after : OpKind → Nest
  | .word w =>
      if m.limits ∧ w = lit "q" then
        if 28 ≤ n.depth then { n with suppressed := n.suppressed + 1 }
        else { n with depth := n.depth + 1 }
      else if m.limits ∧ w = lit "Q" then
        if 0 < n.suppressed then { n with suppressed := n.suppressed - 1 }
        else { n with depth := n.depth - 1 }
      else n
  | _ => n

end Nest

/-- An operand and what is written for it: numbers, strings and names are brought within their
limits, invalid strings are made valid, and private use characters are taken out. -/
inductive Clamped (q : Qpdf) (m : FixMode) : Token → Token → Prop
  | same (t : Token) : Clamped q m t t
  | name {t : Token} (htype : t.type = .name) (hlimits : m.limits = true)
      (hlong : kMaxName + 1 < t.value.length) :
      Clamped q m t (q.nameToken (lit "/" ++ shortenName (t.value.drop 1)))
  | string {t : Token} (htype : t.type = .string) (hlimits : m.limits = true) :
      Clamped q m t (q.stringToken (t.value.take m.maxStr))
  | scrubbed {t : Token} (htype : t.type = .string) (hscrub : m.scrubActualText = true) :
      Clamped q m t
        (q.stringToken (q.newUnicodeString (stripPuaUtf8 (q.getUTF8Value t.value)).1))
  | hex {t : Token} (htype : t.type = .bad) (hhex : isHexText t.raw = true) :
      Clamped q m t (ContentFixFilter.hexToken t.raw)
  | real {t : Token} (htype : t.type = .real) : Clamped q m t (ContentFixFilter.fixReal m t).1
  | integer {t : Token} (htype : t.type = .integer) :
      Clamped q m t (ContentFixFilter.fixInteger m t).1

namespace ContentFixFilter

variable {q : Qpdf} {m : FixMode} {s s' : ContentFixFilter} {t : Token}

/-- What has been written and what is held back. -/
def text (s : ContentFixFilter) : List Token := s.flushHeld.out

/-- The brackets the filter counts as open. -/
def depth (s : ContentFixFilter) : Bracket → Nat
  | .array => s.arrDepth
  | .dict => s.dictDepth

/-- The nesting the filter counts. -/
def nest (s : ContentFixFilter) : Nest := ⟨s.qDepth, s.qSuppressed⟩

/-- The text after the intent held back was replaced, before `ri`. -/
def IntentText (q : Qpdf) (s : ContentFixFilter) (k : OpKind) (ts : List Token) : Prop :=
  k = .word (lit "ri") ∧ ∃ n, s.heldName = some n ∧ n.value ∉ kValidRi ∧
    ts = s.out ++ q.nameToken (lit "/RelativeColorimetric") :: s.heldTrail

/-- The counters are as before. -/
def SameCounters (s s' : ContentFixFilter) : Prop := s'.depth = s.depth ∧ s'.nest = s.nest

/-- What a token that does not start an image does. -/
inductive Effect (q : Qpdf) (m : FixMode) (s : ContentFixFilter) (t : Token)
    (s' : ContentFixFilter) : Prop
  | blank (hrole : t.role = .blank) (htext : s'.text = s.text ++ [t]) (hsame : SameCounters s s')
  | operand {t' : Token} (hrole : t.role = .operand) (hrole' : t'.role = .operand)
      (hclamped : Clamped q m t t') (htext : s'.text = s.text ++ [t']) (hsame : SameCounters s s')
  | bracket {d : Delim Bracket} (hrole : t.role = .bracket d)
      (htext : s'.text = s.text ++ if idle s.depth d then [] else [t])
      (hdepth : s'.depth = tally s.depth d) (hnest : s'.nest = s.nest)
  | dropped {k : OpKind} (hrole : t.role = .operator k) (hdrops : s.nest.drops m k = true)
      (htext : s'.text = s.text) (hdepth : s'.depth = s.depth) (hnest : s'.nest = s.nest.after m k)
  | written {k : OpKind} {ts : List Token} (hrole : t.role = .operator k)
      (hdrops : s.nest.drops m k = false) (hts : ts = s.text ∨ IntentText q s k ts)
      (htext : s'.text = ts ++ [t]) (hdepth : s'.depth = s.depth)
      (hnest : s'.nest = s.nest.after m k)

theorem text_of_empty (hname : s.heldName = none) (htrail : s.heldTrail = []) : s.text = s.out := by
  simp [text, flushHeld, hname, htrail]

@[simp]
theorem text_flushHeld : s.flushHeld.text = s.text := text_of_empty rfl rfl

@[simp]
theorem text_flushHeld_write (ts : List Token) : (s.flushHeld.write ts).text = s.text ++ ts :=
  text_of_empty rfl rfl

theorem role_name (ht : t.type = .name) : t.role = .operand := by simp [Token.role, ht]

/-- A name. -/
theorem effect_name (ht : t.type = .name) : Effect q m s t (s.nameToken q m t) := by
  have hheld : ∀ (c : ContentFixFilter) (n : Token), c.out = s.text → c.heldTrail = [] →
      text { c with heldName := some n } = s.text ++ [n] := by
    intro c n hout htrail
    simp [text, flushHeld, hout, htrail]
  rw [nameToken]
  by_cases hlong : m.limits = true ∧ kMaxName + 1 < t.value.length
  · rw [if_pos hlong]
    exact .operand (role_name ht) (role_name rfl) (.name ht hlong.1 hlong.2) (hheld _ _ rfl rfl)
      ⟨rfl, rfl⟩
  · rw [if_neg hlong]
    exact .operand (role_name ht) (role_name ht) (.same t) (hheld _ _ rfl rfl) ⟨rfl, rfl⟩

/-- White space and comments. -/
theorem effect_blank (hrole : t.role = .blank) : Effect q m s t (s.blankToken t) := by
  rw [blankToken]
  by_cases hheld : s.heldName.isSome = true
  · rw [if_pos hheld]
    refine .blank hrole ?_ ⟨rfl, rfl⟩
    simp [text, flushHeld]
  · rw [if_neg hheld]
    exact .blank hrole (text_flushHeld_write _) ⟨rfl, rfl⟩

/-- A string. -/
theorem effect_string (ht : t.type = .string) : Effect q m s t (s.stringToken q m t) := by
  have hrole : ∀ u : Token, u.type = .string → u.role = .operand := by
    intro u hu
    simp [Token.role, hu]
  rw [stringToken]
  by_cases hscrub : s.scrubs q m t = true
  · have hmode : m.scrubActualText = true := by
      simp only [scrubs, Bool.and_eq_true] at hscrub
      exact hscrub.1.1
    rw [if_pos hscrub]
    exact .operand (hrole t ht) (hrole _ rfl) (.scrubbed ht hmode) (text_of_empty rfl rfl)
      ⟨rfl, rfl⟩
  · rw [if_neg hscrub]
    by_cases hlimits : m.limits = true
    · rw [if_pos hlimits]
      by_cases hlong : m.maxStr < t.value.length
      · rw [if_pos hlong]
        exact .operand (hrole t ht) (hrole _ rfl) (.string ht hlimits) (text_of_empty rfl rfl)
          ⟨rfl, rfl⟩
      · have hshort : t.value.take m.maxStr = t.value := List.take_of_length_le (by omega)
        have hclamped := Clamped.string (q := q) ht hlimits
        rw [hshort] at hclamped
        rw [if_neg hlong]
        exact .operand (hrole t ht) (hrole _ rfl) hclamped (text_of_empty rfl rfl) ⟨rfl, rfl⟩
    · rw [if_neg hlimits]
      exact .operand (hrole t ht) (hrole t ht) (.same t) (text_of_empty rfl rfl) ⟨rfl, rfl⟩

/-- An invalid token. -/
theorem effect_bad (ht : t.type = .bad) : Effect q m s t (s.badToken t) := by
  rw [badToken]
  by_cases hhex : isHexText t.raw = true
  · rw [if_pos hhex]
    exact .operand (by simp [Token.role, ht, hhex]) rfl (.hex ht hhex) (text_of_empty rfl rfl)
      ⟨rfl, rfl⟩
  · rw [if_neg hhex]
    exact .dropped (k := .invalid) (by simp [Token.role, ht, hhex]) rfl (text_of_empty rfl rfl) rfl
      rfl

/-- A number, as the function that fixes it leaves it. -/
theorem effect_number {t' : Token} (n : Nat) (hrole : t.role = .operand)
    (hrole' : t'.role = .operand) (hclamped : Clamped q m t t') :
    Effect q m s t ((s.flushHeld.violation n).write [t']) :=
  .operand hrole hrole' hclamped (text_of_empty rfl rfl) ⟨rfl, rfl⟩

theorem role_fixReal (ht : t.type = .real) : (fixReal m t).1.role = .operand := by
  have hrole : t.role = .operand := by simp [Token.role, ht]
  simp only [fixReal]
  split
  · exact hrole
  · split
    · rfl
    · split
      · rfl
      · exact hrole

theorem role_fixInteger (ht : t.type = .integer) : (fixInteger m t).1.role = .operand := by
  have hrole : t.role = .operand := by simp [Token.role, ht]
  simp only [fixInteger]
  split
  · rfl
  · exact hrole

theorem depth_array (n : Nat) (s : ContentFixFilter) :
    depth { s with arrDepth := n } = Function.update s.depth .array n := by
  funext b
  cases b <;> rfl

theorem depth_dict (n : Nat) (s : ContentFixFilter) :
    depth { s with dictDepth := n } = Function.update s.depth .dict n := by
  funext b
  cases b <;> rfl

/-- An opening bracket. -/
theorem effect_opener {b : Bracket} (hrole : t.role = .bracket (.opener b))
    (htext : s'.text = s.text ++ [t])
      (hdepth : s'.depth = Function.update s.depth b (s.depth b + 1))
    (hnest : s'.nest = s.nest) : Effect q m s t s' :=
  .bracket hrole htext hdepth hnest

/-- A closing bracket. -/
theorem effect_closer {b : Bracket} (hrole : t.role = .bracket (.closer b))
    (hidle : s.depth b = 0 → s'.text = s.text ∧ s'.depth = s.depth)
    (hopen : s.depth b ≠ 0 →
      s'.text = s.text ++ [t] ∧ s'.depth = Function.update s.depth b (s.depth b - 1))
    (hnest : s'.nest = s.nest) : Effect q m s t s' := by
  by_cases hzero : s.depth b = 0
  · have htrue : idle s.depth (.closer b) = true := decide_eq_true hzero
    obtain ⟨htext, hdepth⟩ := hidle hzero
    refine .bracket hrole ?_ (hdepth.trans (Base.tally_of_idle htrue).symm) hnest
    rw [htrue, if_pos rfl, List.append_nil, htext]
  · have hfalse : idle s.depth (.closer b) = false := decide_eq_false hzero
    obtain ⟨htext, hdepth⟩ := hopen hzero
    refine .bracket hrole ?_ hdepth hnest
    rw [hfalse, if_neg Bool.false_ne_true, htext]

/-- An operator that neither starts an image nor is `q` or `Q` under limits. -/
theorem effect_operator {c : ContentFixFilter} (ht : t.type = .word) (hbi : t.isWord "BI" = false)
    (htext : c.text = s.text) (hheld : c.heldName = s.heldName) (htrail : c.heldTrail = s.heldTrail)
    (hout : c.out = s.out) (hdepth : c.depth = s.depth)
    (hnest : c.nest = s.nest.after m (.word t.value))
    (hdrops : s.nest.drops m (.word t.value) = decide (t.value ∉ kValidOps)) :
    Effect q m s t (c.operator q t) := by
  have hrole : t.role = .operator (.word t.value) := by simp [Token.role, ht]
  have hrest : Effect q m s t
      (if t.isWord "BI" then { c.flushHeld with inImageDict := true, iiToks := [] }
      else if t.value ∈ kValidOps then c.flushHeld.write [t]
      else (c.violation 1).flushHeld) := by
    rw [hbi, if_neg Bool.false_ne_true]
    by_cases hop : t.value ∈ kValidOps
    · rw [if_pos hop]
      refine .written hrole (by simpa [hdrops] using hop) (Or.inl rfl) ?_ hdepth hnest
      rw [text_flushHeld_write, htext]
    · rw [if_neg hop]
      refine .dropped hrole (by simpa [hdrops] using hop) ?_ hdepth hnest
      rw [text_flushHeld, ← htext]
      rfl
  rw [operator]
  split
  case h_1 n hri hn =>
    rw [Token.isWord, decide_eq_true_eq] at hri
    have hop : t.value ∈ kValidOps := by
      rw [hri.2]
      decide
    have hkept : s.nest.drops m (.word t.value) = false := by simpa [hdrops] using hop
    by_cases hvalid : n.value ∈ kValidRi
    · rw [if_pos hvalid]
      refine .written hrole hkept (Or.inl rfl) ?_ hdepth hnest
      rw [text_flushHeld_write, htext]
    · rw [if_neg hvalid]
      have hintent : IntentText q s (.word t.value)
          (s.out ++ q.nameToken (lit "/RelativeColorimetric") :: s.heldTrail) :=
        ⟨congrArg _ hri.2, n, hheld ▸ hn, hvalid, rfl⟩
      refine .written hrole hkept (Or.inr hintent) ?_ hdepth hnest
      rw [text_flushHeld_write]
      simp [text, flushHeld, violation, hout, htrail]
  case h_2 => exact hrest

/-- An operator that does not start an image. -/
theorem effect_word (ht : t.type = .word) (hbi : t.isWord "BI" = false) :
    Effect q m s t (s.wordToken q m t) := by
  have hrole : t.role = .operator (.word t.value) := by simp [Token.role, ht]
  have hsave : lit "q" ∈ kValidOps ∧ lit "Q" ∈ kValidOps ∧ lit "q" ≠ lit "Q" := by decide
  rw [wordToken]
  by_cases hq : m.limits = true ∧ t.value = lit "q"
  · rw [if_pos hq]
    by_cases hdeep : 28 ≤ s.qDepth
    · have hdrops : s.nest.drops m (.word t.value) = true := by simp [Nest.drops, hq, nest, hdeep]
      rw [if_pos hdeep]
      refine .dropped hrole hdrops (text_flushHeld.trans rfl) rfl ?_
      simp [Nest.after, hq, nest, hdeep, flushHeld, violation]
    · rw [if_neg hdeep]
      refine effect_operator ht hbi rfl rfl rfl rfl rfl ?_ ?_
      · simp [Nest.after, hq, nest, hdeep]
      · simp [Nest.drops, hq, nest, hdeep, hsave]
  · rw [if_neg hq]
    by_cases hQ : m.limits = true ∧ t.value = lit "Q"
    · have hne : ¬ lit "Q" = lit "q" := fun h => hsave.2.2 h.symm
      rw [if_pos hQ]
      by_cases hsup : 0 < s.qSuppressed
      · have hdrops : s.nest.drops m (.word t.value) = true := by
          simp [Nest.drops, hQ, nest, hsup, hne]
        rw [if_pos hsup]
        refine .dropped hrole hdrops (text_flushHeld.trans rfl) rfl ?_
        simp [Nest.after, hQ, nest, hsup, hne, flushHeld]
      · rw [if_neg hsup]
        refine effect_operator ht hbi rfl rfl rfl rfl rfl ?_ ?_
        · simp [Nest.after, hQ, nest, hsup, hne]
        · simp [Nest.drops, hQ, nest, hsup, hsave, hne]
    · rw [if_neg hQ]
      refine effect_operator ht hbi rfl rfl rfl rfl rfl ?_ ?_
      · rw [Nest.after, if_neg hq, if_neg hQ]
      · rw [Nest.drops, if_neg hq, if_neg hQ]

/-- The effect depends on what the text, the counters and the name held back are. -/
theorem Effect.congr {c : ContentFixFilter} (h : Effect q m c t s')
    (hname : c.heldName = s.heldName)
    (htrail : c.heldTrail = s.heldTrail) (hout : c.out = s.out) (hdepth : c.depth = s.depth)
    (hnest : c.nest = s.nest) : Effect q m s t s' := by
  have htext : c.text = s.text := by simp [text, flushHeld, hname, htrail, hout]
  cases h with
  | blank hrole ht hsame =>
      exact .blank hrole (htext ▸ ht) ⟨hsame.1.trans hdepth, hsame.2.trans hnest⟩
  | operand hrole hrole' hclamped ht hsame =>
      exact .operand hrole hrole' hclamped (htext ▸ ht)
        ⟨hsame.1.trans hdepth, hsame.2.trans hnest⟩
  | bracket hrole ht hd hn =>
      rw [htext, hdepth] at ht
      rw [hdepth] at hd
      exact .bracket hrole ht hd (hn.trans hnest)
  | dropped hrole hdrops ht hd hn =>
      rw [hnest] at hdrops hn
      exact .dropped hrole hdrops (ht.trans htext) (hd.trans hdepth) hn
  | written hrole hdrops hts ht hd hn =>
      rw [hnest] at hdrops hn
      rw [htext, IntentText, hname, htrail, hout] at hts
      exact .written hrole hdrops hts ht (hd.trans hdepth) hn

/-- A token that does not start an image. -/
theorem effect_content (s : ContentFixFilter) (hbi : t.isWord "BI" = false) :
    Effect q m s t (s.contentToken q m t) := by
  obtain ⟨a, b, u, hnote⟩ := noteName_eq s t
  have hnoted : ∀ s', Effect q m (s.noteName t) t s' → Effect q m s t s' := by
    rw [hnote]
    intro s' h
    exact h.congr rfl rfl rfl rfl rfl
  rw [contentToken]
  apply hnoted
  generalize s.noteName t = s
  cases ht : t.type with
  | name => exact effect_name ht
  | word => exact effect_word ht hbi
  | space => exact effect_blank (by simp [Token.role, ht])
  | comment => exact effect_blank (by simp [Token.role, ht])
  | string => exact effect_string ht
  | bad => exact effect_bad ht
  | real => exact effect_number _ (by simp [Token.role, ht]) (role_fixReal ht) (.real ht)
  | integer => exact effect_number _ (by simp [Token.role, ht]) (role_fixInteger ht) (.integer ht)
  | arrayOpen =>
      exact effect_opener (b := .array) (by simp [Token.role, ht]) (text_flushHeld_write _)
        (depth_array _ s) rfl
  | dictOpen =>
      exact effect_opener (b := .dict) (by simp [Token.role, ht]) (text_flushHeld_write _)
        (depth_dict _ s) rfl
  | arrayClose =>
      by_cases hzero : s.arrDepth = 0
      · simp only [if_pos hzero]
        exact effect_closer (b := .array) (by simp [Token.role, ht])
          (fun _ => ⟨text_flushHeld, rfl⟩) (fun h => absurd hzero h) rfl
      · simp only [if_neg hzero]
        exact effect_closer (b := .array) (by simp [Token.role, ht]) (fun h => absurd h hzero)
          (fun _ => ⟨text_flushHeld_write _, depth_array _ s⟩) rfl
  | dictClose =>
      by_cases hzero : s.dictDepth = 0
      · simp only [if_pos hzero]
        exact effect_closer (b := .dict) (by simp [Token.role, ht])
          (fun _ => ⟨text_flushHeld, rfl⟩) (fun h => absurd hzero h) rfl
      · simp only [if_neg hzero]
        exact effect_closer (b := .dict) (by simp [Token.role, ht]) (fun h => absurd h hzero)
          (fun _ => ⟨text_flushHeld_write _, depth_dict _ s⟩) rfl
  | _ =>
      have hrole : t.role = .operand := by simp [Token.role, ht]
      exact .operand hrole hrole (.same t) (text_flushHeld_write _) ⟨rfl, rfl⟩

/-- The flags that say whether the filter is at an image. -/
def flags (s : ContentFixFilter) : Bool × Bool := (s.inImageDict, s.swallowEI)

/-- The filter stays where it is, and writes no more than it has read. -/
structure Frame (s s' : ContentFixFilter) : Prop where
  flags : s'.flags = s.flags
  out : s'.out = s.out ∨ s'.out = s.text ∨ s'.out = s'.text

theorem Frame.flushed (hflags : s'.flags = s.flags) (hname : s'.heldName = none)
    (htrail : s'.heldTrail = []) : Frame s s' :=
  ⟨hflags, Or.inr (Or.inr (text_of_empty hname htrail).symm)⟩

theorem frame_operator (hbi : t.isWord "BI" = false) : Frame s (s.operator q t) := by
  rw [operator]
  split
  · split <;> exact .flushed rfl rfl rfl
  · rw [hbi, if_neg Bool.false_ne_true]
    split <;> exact .flushed rfl rfl rfl

theorem frame_wordToken (hbi : t.isWord "BI" = false) : Frame s (s.wordToken q m t) := by
  have hoperator : ∀ n, Frame s (operator q { s with qDepth := n } t) := by
    intro n
    obtain ⟨hflags, hout⟩ := frame_operator (q := q) (s := { s with qDepth := n }) hbi
    exact ⟨hflags, hout⟩
  rw [wordToken]
  split
  · split
    · exact .flushed rfl rfl rfl
    · exact hoperator _
  · split
    · split
      · exact .flushed rfl rfl rfl
      · exact hoperator _
    · exact frame_operator hbi

theorem frame_stringToken : Frame s (s.stringToken q m t) := by
  rw [stringToken]
  split
  · exact .flushed rfl rfl rfl
  · split
    · split <;> exact .flushed rfl rfl rfl
    · exact .flushed rfl rfl rfl

theorem frame_nameToken : Frame s (s.nameToken q m t) := by
  rw [nameToken]
  split <;> exact ⟨rfl, Or.inr (Or.inl rfl)⟩

theorem frame_blankToken : Frame s (s.blankToken t) := by
  rw [blankToken]
  split
  · exact ⟨rfl, Or.inl rfl⟩
  · exact .flushed rfl rfl rfl

/-- A token that does not start an image leaves the filter where it is. -/
theorem frame_contentToken (s : ContentFixFilter) (hbi : t.isWord "BI" = false) :
    Frame s (s.contentToken q m t) := by
  obtain ⟨a, b, u, hnote⟩ := noteName_eq s t
  have hnoted : ∀ s', Frame (s.noteName t) s' → Frame s s' := by
    rw [hnote]
    intro s' h
    exact ⟨h.flags, h.out⟩
  rw [contentToken]
  apply hnoted
  generalize s.noteName t = s
  cases ht : t.type with
  | name => exact frame_nameToken
  | word => exact frame_wordToken hbi
  | space => exact frame_blankToken
  | comment => exact frame_blankToken
  | string => exact frame_stringToken
  | bad =>
      simp only [badToken]
      split <;> exact .flushed rfl rfl rfl
  | arrayClose =>
      simp only []
      split <;> exact .flushed rfl rfl rfl
  | dictClose =>
      simp only []
      split <;> exact .flushed rfl rfl rfl
  | _ => exact .flushed rfl rfl rfl

/-- The word that starts an image. -/
theorem contentToken_start (s : ContentFixFilter) (hbi : t.isWord "BI" = true) :
    (s.contentToken q m t).text = s.text ∧ (s.contentToken q m t).heldName = none ∧
      (s.contentToken q m t).heldTrail = [] ∧ (s.contentToken q m t).flags = (true, s.swallowEI) ∧
      SameCounters s (s.contentToken q m t) := by
  obtain ⟨a, b, u, hnote⟩ := noteName_eq s t
  rw [Token.isWord, decide_eq_true_eq] at hbi
  have hsave : lit "BI" ≠ lit "q" ∧ lit "BI" ≠ lit "Q" ∧ lit "BI" ≠ lit "ri" := by decide
  have hword : ∀ c : ContentFixFilter, c.wordToken q m t =
      { c.flushHeld with inImageDict := true, iiToks := [] } := by
    intro c
    have hri : t.isWord "ri" = false := by simp [Token.isWord, hbi, hsave]
    have hstart : t.isWord "BI" = true := by simp [Token.isWord, hbi]
    rw [wordToken, hbi.2, if_neg fun h => hsave.1 h.2, if_neg fun h => hsave.2.1 h.2, operator, hri]
    simp only [hstart, if_true]
  rw [contentToken, hbi.1]
  simp only [hword, hnote]
  exact ⟨text_flushHeld, rfl, rfl, rfl, rfl, rfl⟩

end ContentFixFilter

end Kura.Engine
