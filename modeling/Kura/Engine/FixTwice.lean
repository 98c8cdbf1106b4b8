import Kura.Base.Transition
import Kura.Engine.PlainPdf
import Kura.Engine.Recheck

/-!
# The filter on its own output

The result says exactly for which streams a second run of the filter, on the
tokens the first run has written, counts no violation.
-/

namespace Kura.Engine

namespace ContentFixFilter

/-- The name before the next token that is written. -/
def exposed (s : ContentFixFilter) : Option Bytes :=
  match s.heldName with
  | some n => some n.value
  | none => leadName s.out

/-- The next string written stands for text. -/
def AfterActualText (m : FixMode) (s : ContentFixFilter) : Prop :=
  m.scrubActualText = true ∧ s.exposed = some (lit "/ActualText")

/-- A string that is written with a violation left in it. -/
def StringStuck (q : Qpdf) (m : FixMode) (s : ContentFixFilter) (t : Token) : Prop :=
  if s.scrubs q m t then
    let text := q.getUTF8Value t.value
    let cleaned := q.newUnicodeString (stripPuaUtf8 text).1
    (m.limits = true ∧ m.maxStr < cleaned.length) ∨
      (validUtf8 text = false ∧ hasPua q cleaned = true)
  else
    (m.limits = false ∧ hexFaults t.raw ≠ 0) ∨
      (AfterActualText m s ∧
        hasPua q (if m.limits then t.value.take m.maxStr else t.value) = true)

/-- An invalid token that is written as a string with a violation in it. -/
def BadStuck (q : Qpdf) (m : FixMode) (s : ContentFixFilter) (t : Token) : Prop :=
  isHexText t.raw = true ∧
    ((m.limits = true ∧ m.maxStr < (unhex (hexDigits t.raw)).length) ∨
      (AfterActualText m s ∧ hasPua q (unhex (hexDigits t.raw)) = true))

/-- An intent whose name was written before a token that was dropped. -/
def IntentStuck (s : ContentFixFilter) (t : Token) : Prop :=
  t.value = lit "ri" ∧ s.heldName = none ∧ ∃ n, leadName s.out = some n ∧ n ∉ kValidRi

/-- The next token ends an image that is passed through although it has violations. -/
def PassedThrough (q : Qpdf) (s : ContentFixFilter) (t : Token) : Prop :=
  s.inImageDict = true ∧ t.type = .inlineImage ∧ ImageStuck q s.iiToks t.raw

/-- A violation that is not repaired, by the type of the token that is handled. -/
def ContentStuck (q : Qpdf) (m : FixMode) (s : ContentFixFilter) (t : Token) : Prop :=
  match t.type with
  | .string => StringStuck q m s t
  | .bad => BadStuck q m s t
  | .word => IntentStuck s t
  | _ => False

/-- The next token is outside of images and a violation in it is not repaired. -/
def Missed (q : Qpdf) (m : FixMode) (s : ContentFixFilter) (t : Token) : Prop :=
  s.inImageDict = false ∧ ContentStuck q m s t

/-- The next token is written with a violation left in it. -/
def Unrepaired (q : Qpdf) (m : FixMode) (s : ContentFixFilter) (t : Token) : Prop :=
  PassedThrough q s t ∨ Missed q m s t

theorem unrepaired_of_image {q : Qpdf} {m : FixMode} {s : ContentFixFilter} {t : Token}
    (h : s.inImageDict = true) :
    Unrepaired q m s t ↔ t.type = .inlineImage ∧ ImageStuck q s.iiToks t.raw := by
  simp [Unrepaired, PassedThrough, Missed, h]

theorem unrepaired_of_content {q : Qpdf} {m : FixMode} {s : ContentFixFilter} {t : Token}
    (h : s.inImageDict = false) :
    Unrepaired q m s t ↔ ContentStuck q m s t := by
  simp [Unrepaired, PassedThrough, Missed, h]

variable {q : Qpdf} {m : FixMode} {s : ContentFixFilter} {t : Token} {n : Nat}

theorem leadName_append (ts us : List Token) :
    leadName (ts ++ us) = us.foldl lead (leadName ts) := List.foldl_append

/-- What the second run knows after the tokens written so far. -/
def view (s : ContentFixFilter) : View := ⟨leadName s.out, s.qDepth, s.arrDepth, s.dictDepth⟩

/-- What the first run has put aside is fit to be written. -/
structure Sound (m : FixMode) (s : ContentFixFilter) : Prop where
  heldName : ∀ name, s.heldName = some name →
    name.type = .name ∧ (m.limits = true → name.value.length ≤ kMaxName + 1)
  heldTrail : ∀ t ∈ s.heldTrail, t.type = .space ∨ t.type = .comment
  iiToks : ∀ t ∈ s.iiToks, t.Plain

/-- Both runs between two tokens of the first, with the violations of the second. -/
structure Agrees (q : Qpdf) (m : FixMode) (s : ContentFixFilter) (n : Nat) : Prop where
  sound : Sound m s
  rests : Rests (run q m s.out) s.view n

theorem Sound.of_empty {s' : ContentFixFilter} (h : Sound m s) (hname : s'.heldName = none)
    (htrail : s'.heldTrail = []) (hii : s'.iiToks = s.iiToks) : Sound m s' := by
  refine ⟨?_, ?_, ?_⟩
  · intro name hn
    rw [hname] at hn
    cases hn
  · rw [htrail]
    intro t ht
    cases ht
  · rw [hii]
    exact h.iiToks

/-- The second run after further tokens were written. -/
theorem Agrees.wrote {s' : ContentFixFilter} {ts : List Token} {k : Nat} (h : Agrees q m s n)
    (hsound : Sound m s') (hout : s'.out = s.out ++ ts)
    (hrests : Rests (run q m s.out) s.view n →
      Rests (ts.foldl (handleToken q m) (run q m s.out)) s'.view (n + k)) :
    Agrees q m s' (n + k) := by
  refine ⟨hsound, ?_⟩
  rw [hout, run, List.foldl_append]
  exact hrests h.rests

theorem Rests.blanks {c : ContentFixFilter} {v : View} {ts : List Token} (h : Rests c v n)
    (hts : ∀ t ∈ ts, t.type = .space ∨ t.type = .comment) :
    Rests (ts.foldl (handleToken q m) c) v n := by
  induction ts generalizing c with
  | nil => exact h
  | cons t ts ih => exact ih (h.blank (hts t (by simp))) fun t' ht' => hts t' (by simp [ht'])

theorem foldl_lead_blanks {ts : List Token} (l : Option Bytes)
    (hts : ∀ t ∈ ts, t.type = .space ∨ t.type = .comment) : ts.foldl lead l = l := by
  induction ts with
  | nil => rfl
  | cons t ts ih =>
      have hone : lead l t = l := by
        rw [lead]
        obtain ht | ht := hts t (by simp)
        · simp only [ht]
        · simp only [ht]
      rw [List.foldl_cons, hone]
      exact ih fun t' ht' => hts t' (by simp [ht'])

/-- After a flush the name before the next token is the last one written. -/
theorem leadName_flushHeld (h : Sound m s) : leadName s.flushHeld.out = s.exposed := by
  have hout : s.flushHeld.out = s.out ++ (s.heldName.toList ++ s.heldTrail) :=
    List.append_assoc _ _ _
  rw [hout, leadName_append, List.foldl_append, foldl_lead_blanks _ h.heldTrail, exposed]
  cases hname : s.heldName with
  | none => rfl
  | some name =>
      simp [lead, (h.heldName name hname).1]

/-- The view after a flush. -/
theorem view_flushHeld (h : Sound m s) :
    s.flushHeld.view = { s.view with held := s.exposed } := by
  rw [view, leadName_flushHeld h]
  rfl

theorem Agrees.flushHeld (h : Agrees q m s n) : Agrees q m s.flushHeld n := by
  refine h.wrote (k := 0) (h.sound.of_empty rfl rfl rfl) (List.append_assoc _ _ _) ?_
  intro hr
  rw [view_flushHeld h.sound, List.foldl_append]
  apply Rests.blanks _ h.sound.heldTrail
  rw [exposed]
  cases hname : s.heldName with
  | none => exact hr
  | some name =>
      obtain ⟨htype, hlen⟩ := h.sound.heldName name hname
      exact hr.name htype hlen

/-- One more token is written after a flush. -/
theorem Agrees.flushWrite {s' : ContentFixFilter} {t' : Token} {k : Nat} (h : Agrees q m s n)
    (hout : s'.out = s.flushHeld.out ++ [t']) (hname : s'.heldName = none)
    (htrail : s'.heldTrail = []) (hii : s'.iiToks = s.iiToks)
    (hrests : ∀ c, Rests c { s.view with held := s.exposed } n →
      Rests (handleToken q m c t') s'.view (n + k)) :
    Agrees q m s' (n + k) := by
  refine h.flushHeld.wrote (h.sound.of_empty hname htrail hii) hout ?_
  intro hr
  rw [view_flushHeld h.sound] at hr
  exact hrests _ hr

/-- The view after a token that is neither a name nor white space. -/
theorem view_of_out {s' : ContentFixFilter} {ts : List Token} (hout : s'.out = ts ++ [t])
    (ht : t.type ∉ [.name, .space, .comment]) :
    s'.view = ⟨none, s'.qDepth, s'.arrDepth, s'.dictDepth⟩ := by
  have hlead : ∀ l, lead l t = none := by
    intro l
    rw [lead]
    cases htype : t.type with
    | name => exact absurd (by simp [htype]) ht
    | space => exact absurd (by simp [htype]) ht
    | comment => exact absurd (by simp [htype]) ht
    | _ => rfl
  rw [view, hout, leadName_append, List.foldl_cons, List.foldl_nil, hlead]

/-- A step with the violations it adds to the second run; there are some exactly if the
condition holds. -/
def Adds (q : Qpdf) (m : FixMode) (s' : ContentFixFilter) (n : Nat) (bad : Prop) : Prop :=
  ∃ k, Agrees q m s' (n + k) ∧ (k = 0 ↔ ¬ bad)

theorem Agrees.adds_none {bad : Prop} (h : Agrees q m s n) (hbad : ¬ bad) :
    Adds q m s n bad := ⟨0, h, iff_of_true rfl hbad⟩

/-- A name is held back. -/
theorem Agrees.nameToken (h : Agrees q m s n) (ht : t.type = .name) :
    Agrees q m (s.nameToken q m t) n := by
  have hf := h.flushHeld
  have hlong : (lit "/" ++ shortenName (t.value.drop 1)).length ≤ kMaxName + 1 := by
    have hslash : (lit "/").length = 1 := by decide
    have hname := length_shortenName_le (t.value.drop 1)
    rw [List.length_append, hslash]
    omega
  rw [ContentFixFilter.nameToken]
  by_cases hcut : m.limits = true ∧ kMaxName + 1 < t.value.length
  · simp only [hcut, and_self, if_true]
    refine ⟨⟨?_, hf.sound.heldTrail, hf.sound.iiToks⟩, hf.rests⟩
    intro name hname
    obtain rfl := Option.some.inj hname
    exact ⟨rfl, fun _ => hlong⟩
  · simp only [hcut, if_false]
    refine ⟨⟨?_, hf.sound.heldTrail, hf.sound.iiToks⟩, hf.rests⟩
    intro name hname
    obtain rfl := Option.some.inj hname
    refine ⟨ht, ?_⟩
    intro hlimits
    exact Nat.not_lt.mp fun hlt => hcut ⟨hlimits, hlt⟩

/-- A space or a comment keeps the two runs in agreement. -/
theorem Agrees.blankToken (h : Agrees q m s n) (ht : t.type = .space ∨ t.type = .comment) :
    Agrees q m (s.blankToken t) n := by
  rw [ContentFixFilter.blankToken]
  split
  · refine ⟨⟨h.sound.heldName, ?_, h.sound.iiToks⟩, h.rests⟩
    intro t' ht'
    obtain hmem | hlast := List.mem_append.mp ht'
    · exact h.sound.heldTrail t' hmem
    · rw [List.mem_singleton.mp hlast]
      exact ht
  · refine h.flushWrite (k := 0) rfl rfl rfl rfl ?_
    intro c hc
    have hview : (s.flushHeld.write [t]).view = { s.view with held := s.exposed } := by
      rw [← view_flushHeld h.sound, view, view, write, leadName_append]
      congr 1
      exact foldl_lead_blanks _ (by simpa using ht)
    rw [hview]
    exact hc.blank ht

/-- Operators that end an operand and may change the depth. -/
theorem Agrees.writeOperator (h : Agrees q m s n) (ht : t.type = .word)
    (hop : t.value ∈ kValidOps) (hbi : t.value ≠ lit "BI")
    (hsave : m.limits = true → t.value = lit "q" → s.qDepth < 28) :
    Agrees q m ({ s with qDepth := depthAfter m t s.qDepth }.flushHeld.write [t])
      (n + intentFaults s.exposed t) := by
  refine h.flushWrite rfl rfl rfl rfl ?_
  intro c hc
  rw [view_of_out (t := t) rfl (by simp [ht])]
  exact hc.word ht hop hbi hsave

theorem depthAfter_of_ne {depth : Nat} (hq : t.value ≠ lit "q") (hQ : t.value ≠ lit "Q") :
    depthAfter m t depth = depth := by
  rw [depthAfter, if_neg (fun h => hq h.2), if_neg (fun h => hQ h.2)]

theorem intentFaults_eq_zero_iff (held : Option Bytes) (t : Token) :
    intentFaults held t = 0 ↔
      ¬ (t.value = lit "ri" ∧ ∃ name, held = some name ∧ name ∉ kValidRi) := by
  rw [intentFaults]
  cases held with
  | none => simp
  | some name => by_cases hri : t.value = lit "ri" <;> simp [hri]

/-- The intent before an operator is replaced if it is none. -/
theorem Agrees.intentOperator {name : Token} (h : Agrees q m s n) (ht : t.type = .word)
    (hri : t.value = lit "ri") (hname : s.heldName = some name) :
    Agrees q m (ContentFixFilter.operator q s t) n := by
  have hop : t.value ∈ kValidOps ∧ t.value ≠ lit "BI" ∧ t.value ≠ lit "q" ∧ t.value ≠ lit "Q" := by
    rw [hri]
    decide
  have hdepth : ∀ s' : ContentFixFilter, { s' with qDepth := depthAfter m t s'.qDepth } = s' := by
    intro s'
    rw [depthAfter_of_ne hop.2.2.1 hop.2.2.2]
  have hfree : ∀ (s' : ContentFixFilter) (name' : Token), Agrees q m s' n →
      s'.heldName = some name' → name'.value ∈ kValidRi →
        Agrees q m (s'.flushHeld.write [t]) n := by
    intro s' name' h' hname' hvalid
    have hwrite := h'.writeOperator ht hop.1 hop.2.1 fun _ hq => absurd hq hop.2.2.1
    have hzero : intentFaults s'.exposed t = 0 := by
      rw [intentFaults_eq_zero_iff, exposed, hname']
      rintro ⟨-, w, hw, hnot⟩
      exact hnot (Option.some.inj hw ▸ hvalid)
    rw [hzero, hdepth] at hwrite
    exact hwrite
  have hword : t.isWord "ri" = true := by simp [Token.isWord, ht, hri]
  rw [ContentFixFilter.operator, hword, hname]
  simp only
  by_cases hvalid : name.value ∈ kValidRi
  · rw [if_pos hvalid]
    exact hfree s name h hname hvalid
  · rw [if_neg hvalid]
    have hrel : (q.nameToken (lit "/RelativeColorimetric")).value ∈ kValidRi := by
      show lit "/RelativeColorimetric" ∈ kValidRi
      decide
    refine hfree _ (q.nameToken (lit "/RelativeColorimetric"))
      ⟨⟨?_, h.sound.heldTrail, h.sound.iiToks⟩, h.rests⟩ rfl hrel
    intro name' hname'
    obtain rfl := Option.some.inj hname'
    refine ⟨rfl, fun _ => ?_⟩
    show (lit "/RelativeColorimetric").length ≤ kMaxName + 1
    decide

/-- An operator that is not dropped for its depth. -/
theorem Agrees.operator (h : Agrees q m s n) (ht : t.type = .word)
    (hsave : m.limits = true → t.value = lit "q" → s.qDepth < 28) :
    Adds q m (ContentFixFilter.operator q { s with qDepth := depthAfter m t s.qDepth } t) n
      (IntentStuck s t) := by
  have hword : ∀ w, t.isWord w = decide (t.value = lit w) := by
    intro w
    rw [Token.isWord, ht]
    simp
  by_cases hheld : t.value = lit "ri" ∧ s.heldName ≠ none
  · obtain ⟨hri, hsome⟩ := hheld
    obtain ⟨name, hname⟩ := Option.ne_none_iff_exists'.mp hsome
    have hdepth : depthAfter m t s.qDepth = s.qDepth := by
      apply depthAfter_of_ne
      · rw [hri]
        decide
      · rw [hri]
        decide
    rw [hdepth]
    exact (h.intentOperator ht hri hname).adds_none fun hstuck => hsome hstuck.2.1
  · have hplain : ContentFixFilter.operator q { s with qDepth := depthAfter m t s.qDepth } t =
        if t.isWord "BI" then
          { { s with qDepth := depthAfter m t s.qDepth }.flushHeld with
            inImageDict := true, iiToks := [] }
        else if t.value ∈ kValidOps then
          { s with qDepth := depthAfter m t s.qDepth }.flushHeld.write [t]
        else ({ s with qDepth := depthAfter m t s.qDepth }.violation 1).flushHeld := by
      rw [ContentFixFilter.operator, hword "ri"]
      by_cases hri : t.value = lit "ri"
      · have hnone : s.heldName = none := by
          by_contra hsome
          exact hheld ⟨hri, hsome⟩
        simp only [hri, hnone, decide_true]
      · simp only [hri, decide_false]
    have hdrop : t.value ∉ kValidOps ∨ t.value = lit "BI" → depthAfter m t s.qDepth = s.qDepth ∧
        t.value ≠ lit "ri" := by
      intro hno
      have hne : ∀ w : String, lit w ∈ kValidOps → lit w ≠ lit "BI" → t.value ≠ lit w := by
        intro w hw hwbi hval
        obtain hnot | hbi := hno
        · exact hnot (hval ▸ hw)
        · exact hwbi (hval ▸ hbi)
      refine ⟨depthAfter_of_ne (hne "q" ?_ ?_) (hne "Q" ?_ ?_), hne "ri" ?_ ?_⟩ <;> decide
    rw [hplain, hword]
    by_cases hbi : t.value = lit "BI"
    · obtain ⟨hdepth, hri⟩ := hdrop (Or.inr hbi)
      have hf := h.flushHeld
      simp only [hbi, decide_true, if_true, hdepth]
      refine Agrees.adds_none ⟨⟨hf.sound.heldName, hf.sound.heldTrail, ?_⟩, hf.rests⟩
        fun hstuck => hri hstuck.1
      intro t' ht'
      cases ht'
    · simp only [hbi, decide_false, Bool.false_eq_true, if_false]
      by_cases hop : t.value ∈ kValidOps
      · rw [if_pos hop]
        refine ⟨_, h.writeOperator ht hop hbi hsave, ?_⟩
        rw [intentFaults_eq_zero_iff, IntentStuck, exposed]
        cases hname : s.heldName with
        | none => simp
        | some name =>
            have hri : t.value ≠ lit "ri" := fun hri => hheld ⟨hri, by simp [hname]⟩
            simp [hri]
      · obtain ⟨hdepth, hri⟩ := hdrop (Or.inl hop)
        rw [if_neg hop, hdepth]
        have hf := h.flushHeld
        exact Agrees.adds_none ⟨⟨hf.sound.heldName, hf.sound.heldTrail, hf.sound.iiToks⟩, hf.rests⟩
          fun hstuck => hri hstuck.1

/-- An operator. -/
theorem Agrees.wordToken (h : Agrees q m s n) (ht : t.type = .word) :
    Adds q m (s.wordToken q m t) n (IntentStuck s t) := by
  have hf := h.flushHeld
  have hdropped : ∀ w, t.value = lit w → lit w ≠ lit "ri" → ¬ IntentStuck s t := by
    intro w hw hne hstuck
    exact hne (hw ▸ hstuck.1)
  rw [ContentFixFilter.wordToken]
  by_cases hq : m.limits = true ∧ t.value = lit "q"
  · rw [if_pos hq]
    by_cases hdeep : 28 ≤ s.qDepth
    · rw [if_pos hdeep]
      exact Agrees.adds_none ⟨⟨hf.sound.heldName, hf.sound.heldTrail, hf.sound.iiToks⟩, hf.rests⟩
        (hdropped "q" hq.2 (by decide))
    · rw [if_neg hdeep]
      have hkeep := h.operator ht fun _ _ => Nat.not_le.mp hdeep
      rw [depthAfter, if_pos hq] at hkeep
      exact hkeep
  · have hsave : m.limits = true → t.value = lit "q" → s.qDepth < 28 := by
      intro hlimits hval
      exact absurd ⟨hlimits, hval⟩ hq
    have hkeep := h.operator ht hsave
    rw [if_neg hq]
    rw [depthAfter, if_neg hq] at hkeep
    by_cases hQ : m.limits = true ∧ t.value = lit "Q"
    · rw [if_pos hQ] at hkeep ⊢
      by_cases hsuppressed : 0 < s.qSuppressed
      · rw [if_pos hsuppressed]
        exact Agrees.adds_none ⟨⟨hf.sound.heldName, hf.sound.heldTrail, hf.sound.iiToks⟩, hf.rests⟩
          (hdropped "Q" hQ.2 (by decide))
      · rw [if_neg hsuppressed]
        exact hkeep
    · rw [if_neg hQ] at hkeep ⊢
      exact hkeep

/-- A string is written. -/
theorem Agrees.writeString {s' : ContentFixFilter} (h : Agrees q m s n) (t' : Token)
    (ht : t'.type = .string) (hout : s'.out = s.flushHeld.out ++ [t'])
    (hname : s'.heldName = none) (htrail : s'.heldTrail = []) (hii : s'.iiToks = s.iiToks)
    (hq : s'.qDepth = s.qDepth) (ha : s'.arrDepth = s.arrDepth) (hd : s'.dictDepth = s.dictDepth) :
    Agrees q m s' (n + stringFaults q m s.exposed t') := by
  refine h.flushWrite hout hname htrail hii ?_
  intro c hc
  rw [view_of_out hout (by simp [ht]), hq, ha, hd]
  exact hc.string ht

theorem stringFaults_eq_zero_iff (t' : Token) :
    stringFaults q m s.exposed t' = 0 ↔
      ¬ (AfterActualText m s ∧ hasPua q t'.value = true) ∧ hexFaults t'.raw = 0 ∧
        ¬ (m.limits = true ∧ m.maxStr < t'.value.length) := by
  have hafter : (m.scrubActualText && s.exposed.any (fun w => w = lit "/ActualText") &&
      hasPua q t'.value) = true ↔ AfterActualText m s ∧ hasPua q t'.value = true := by
    rw [AfterActualText, Bool.and_eq_true, Bool.and_eq_true, Option.any_eq_true]
    simp
  rw [stringFaults]
  by_cases hpua : AfterActualText m s ∧ hasPua q t'.value = true
  · rw [if_pos (hafter.mpr hpua)]
    exact iff_of_false Nat.one_ne_zero fun hzero => hzero.1 hpua
  · rw [if_neg (fun hcond => hpua (hafter.mp hcond)), Nat.add_eq_zero_iff]
    by_cases hlong : m.limits = true ∧ m.maxStr < t'.value.length
    · simp [hlong]
    · simp [hpua, hlong]

/-- A string that is scrubbed stands for text. -/
theorem afterActualText_of_scrubs (h : s.scrubs q m t = true) : AfterActualText m s := by
  rw [scrubs, Bool.and_eq_true, Bool.and_eq_true, Option.any_eq_true] at h
  obtain ⟨⟨hscrub, name, hname, hvalue⟩, -⟩ := h
  refine ⟨hscrub, ?_⟩
  rw [exposed, hname]
  simpa using hvalue

/-- Scrubbed text has no private use characters if it was valid. -/
theorem hasPua_scrubbed (hq : q.Lawful) (text : Bytes) (hvalid : validUtf8 text = true) :
    hasPua q (q.newUnicodeString (stripPuaUtf8 text).1) = false := by
  rw [hasPua, hq.getUTF8Value_newUnicodeString _ (validUtf8_strip hvalid)]
  exact stripPuaUtf8_again text

/-- A string. -/
theorem Agrees.stringToken (hq : q.Lawful) (h : Agrees q m s n) (ht : t.type = .string) :
    Adds q m (s.stringToken q m t) n (StringStuck q m s t) := by
  rw [ContentFixFilter.stringToken]
  by_cases hscrubs : s.scrubs q m t = true
  · rw [if_pos hscrubs, StringStuck, if_pos hscrubs]
    refine ⟨_, h.writeString (q.stringToken _) rfl rfl rfl rfl rfl rfl rfl rfl, ?_⟩
    rw [stringFaults_eq_zero_iff]
    have hafter := afterActualText_of_scrubs hscrubs
    have hpua := hasPua_scrubbed hq (q.getUTF8Value t.value)
    simp only [Qpdf.stringToken, hq.hexFaults_unparseString, hafter, true_and]
    cases hvalid : validUtf8 (q.getUTF8Value t.value) with
    | true => simp [hpua hvalid]
    | false =>
        simp only [true_and, not_or]
        exact and_comm
  · rw [if_neg hscrubs, StringStuck, if_neg hscrubs]
    by_cases hlimits : m.limits = true
    · have hwritten : ∀ v, v = t.value.take m.maxStr →
          (stringFaults q m s.exposed (q.stringToken v) = 0 ↔
            ¬ ((m.limits = false ∧ hexFaults t.raw ≠ 0) ∨ (AfterActualText m s ∧
              hasPua q (if m.limits then t.value.take m.maxStr else t.value) = true))) := by
        rintro v rfl
        rw [stringFaults_eq_zero_iff]
        simp [Qpdf.stringToken, hq.hexFaults_unparseString, hlimits]
      by_cases hlong : m.maxStr < t.value.length
      · simp only [hlimits, hlong, if_true] at hwritten ⊢
        exact ⟨_, h.writeString (q.stringToken _) rfl rfl rfl rfl rfl rfl rfl rfl,
          hwritten _ rfl⟩
      · simp only [hlimits, hlong, if_true, if_false] at hwritten ⊢
        exact ⟨_, h.writeString (q.stringToken _) rfl rfl rfl rfl rfl rfl rfl rfl,
          hwritten _ (List.take_of_length_le (Nat.not_lt.mp hlong)).symm⟩
    · have hoff : m.limits = false := Bool.not_eq_true _ ▸ hlimits
      simp only [hoff, Bool.false_eq_true, if_false, true_and]
      refine ⟨_, h.writeString t ht rfl rfl rfl rfl rfl rfl rfl, ?_⟩
      rw [stringFaults_eq_zero_iff]
      simp only [hoff, Bool.false_eq_true, false_and, not_false_eq_true, and_true, not_or,
        ne_eq, not_not]
      exact and_comm

/-- An invalid token. -/
theorem Agrees.badToken (h : Agrees q m s n) :
    Adds q m (s.badToken t) n (BadStuck q m s t) := by
  rw [ContentFixFilter.badToken, BadStuck]
  by_cases hhex : isHexText t.raw = true
  · simp only [hhex, if_true, true_and]
    refine ⟨_, h.writeString (hexToken t.raw) rfl rfl rfl rfl rfl rfl rfl rfl, ?_⟩
    rw [stringFaults_eq_zero_iff, hexFaults_hexToken, not_or]
    simp only [hexToken, true_and]
    exact and_comm
  · have hf := h.flushHeld
    simp only [hhex, Bool.false_eq_true, if_false, false_and]
    exact Agrees.adds_none ⟨⟨hf.sound.heldName, hf.sound.heldTrail, hf.sound.iiToks⟩, hf.rests⟩
      not_false

/-- A token is written after a flush and the second run does not object to it. -/
theorem Agrees.writeEnd {s' : ContentFixFilter} (h : Agrees q m s n) (t' : Token)
    (ht : t'.type ∉ [.name, .space, .comment]) (hout : s'.out = s.flushHeld.out ++ [t'])
    (hname : s'.heldName = none) (htrail : s'.heldTrail = []) (hii : s'.iiToks = s.iiToks)
    (hrests : ∀ c, Rests c { s.view with held := s.exposed } n →
      Rests (handleToken q m c t') ⟨none, s'.qDepth, s'.arrDepth, s'.dictDepth⟩ n) :
    Agrees q m s' n := by
  refine h.flushWrite (k := 0) hout hname htrail hii ?_
  rw [view_of_out hout ht]
  exact hrests

theorem Agrees.real (h : Agrees q m s n) (ht : t.type = .real) :
    Agrees q m ((s.flushHeld.violation (fixReal m t).2).write [(fixReal m t).1]) n := by
  obtain ⟨htype, hzero⟩ | ⟨htype, hzero⟩ := fixReal_again m t ht
  · refine h.writeEnd _ (by simp [htype]) rfl rfl rfl rfl ?_
    intro c hc
    have hreal := hc.real (q := q) (m := m) htype
    rw [hzero] at hreal
    exact hreal
  · refine h.writeEnd _ (by simp [htype]) rfl rfl rfl rfl ?_
    intro c hc
    have hinteger := hc.integer (q := q) (m := m) htype
    rw [hzero] at hinteger
    exact hinteger

theorem Agrees.integer (h : Agrees q m s n) (ht : t.type = .integer) :
    Agrees q m ((s.flushHeld.violation (fixInteger m t).2).write [(fixInteger m t).1]) n := by
  obtain ⟨htype, hzero⟩ := fixInteger_again m t ht
  refine h.writeEnd _ (by simp [htype]) rfl rfl rfl rfl ?_
  intro c hc
  have hinteger := hc.integer (q := q) (m := m) htype
  rw [hzero] at hinteger
  exact hinteger

/-- Nothing but a flush happens to a token that is dropped. -/
theorem Agrees.dropped (h : Agrees q m s n) : Agrees q m (s.violation 1).flushHeld n := by
  have hf := h.flushHeld
  exact ⟨⟨hf.sound.heldName, hf.sound.heldTrail, hf.sound.iiToks⟩, hf.rests⟩

theorem Agrees.arrayOpen (h : Agrees q m s n) (ht : t.type = .arrayOpen) :
    Agrees q m ({ s with arrDepth := s.arrDepth + 1 }.flushHeld.write [t]) n := by
  refine h.writeEnd t (by simp [ht]) rfl rfl rfl rfl ?_
  intro c hc
  exact hc.arrayOpen ht

theorem Agrees.dictOpen (h : Agrees q m s n) (ht : t.type = .dictOpen) :
    Agrees q m ({ s with dictDepth := s.dictDepth + 1 }.flushHeld.write [t]) n := by
  refine h.writeEnd t (by simp [ht]) rfl rfl rfl rfl ?_
  intro c hc
  exact hc.dictOpen ht

theorem Agrees.arrayClose (h : Agrees q m s n) (ht : t.type = .arrayClose) :
    Agrees q m (if s.arrDepth = 0 then (s.violation 1).flushHeld
      else { s with arrDepth := s.arrDepth - 1 }.flushHeld.write [t]) n := by
  split
  · exact h.dropped
  · rename_i hopen
    refine h.writeEnd t (by simp [ht]) rfl rfl rfl rfl ?_
    intro c hc
    exact hc.arrayClose ht hopen

theorem Agrees.dictClose (h : Agrees q m s n) (ht : t.type = .dictClose) :
    Agrees q m (if s.dictDepth = 0 then (s.violation 1).flushHeld
      else { s with dictDepth := s.dictDepth - 1 }.flushHeld.write [t]) n := by
  split
  · exact h.dropped
  · rename_i hopen
    refine h.writeEnd t (by simp [ht]) rfl rfl rfl rfl ?_
    intro c hc
    exact hc.dictClose ht hopen

theorem Agrees.other (h : Agrees q m s n)
    (ht : t.type ∈ [.braceOpen, .braceClose, .null, .bool, .inlineImage]) :
    Agrees q m (s.flushHeld.write [t]) n := by
  have hend : t.type ∉ [.name, .space, .comment] := by
    simp only [List.mem_cons, List.not_mem_nil, or_false] at ht
    obtain ht | ht | ht | ht | ht := ht
    all_goals simp [ht]
  refine h.writeEnd t hend rfl rfl rfl rfl ?_
  intro c hc
  exact hc.other ht

theorem Agrees.noteName (h : Agrees q m s n) (t : Token) : Agrees q m (s.noteName t) n := by
  rw [ContentFixFilter.noteName]
  split
  · exact ⟨⟨h.sound.heldName, h.sound.heldTrail, h.sound.iiToks⟩, h.rests⟩
  · split
    · exact ⟨⟨h.sound.heldName, h.sound.heldTrail, h.sound.iiToks⟩, h.rests⟩
    · exact h

/-- What the conditions look at is not changed by `noteName`. -/
theorem noteName_eq (s : ContentFixFilter) (t : Token) :
    ∃ a b u, s.noteName t = { s with nameSinceOp := a, lastNameVal := b, usedNamed := u } := by
  rw [ContentFixFilter.noteName]
  split
  · exact ⟨_, _, _, rfl⟩
  · split
    · exact ⟨_, _, _, rfl⟩
    · exact ⟨s.nameSinceOp, s.lastNameVal, s.usedNamed, rfl⟩

/-- A token outside of images. -/
theorem Agrees.contentToken (hq : q.Lawful) (h : Agrees q m s n) (himage : s.inImageDict = false) :
    Adds q m (s.contentToken q m t) n (Unrepaired q m s t) := by
  have hn := h.noteName t
  obtain ⟨a, b, u, hnote⟩ := noteName_eq s t
  simp only [unrepaired_of_content himage]
  rw [ContentFixFilter.contentToken, ContentStuck]
  rw [hnote] at hn ⊢
  cases ht : t.type with
  | name => exact (hn.nameToken ht).adds_none not_false
  | word => exact hn.wordToken ht
  | space => exact (hn.blankToken (Or.inl ht)).adds_none not_false
  | comment => exact (hn.blankToken (Or.inr ht)).adds_none not_false
  | string => exact hn.stringToken hq ht
  | bad => exact hn.badToken
  | real => exact (hn.real ht).adds_none not_false
  | integer => exact (hn.integer ht).adds_none not_false
  | arrayOpen => exact (hn.arrayOpen ht).adds_none not_false
  | arrayClose => exact (hn.arrayClose ht).adds_none not_false
  | dictOpen => exact (hn.dictOpen ht).adds_none not_false
  | dictClose => exact (hn.dictClose ht).adds_none not_false
  | _ => exact (hn.other (by simp [ht])).adds_none not_false

theorem leadName_imageTokens (ts entries : List Token) (data : Bytes) :
    leadName (ts ++ imageTokens entries data) = none := by
  simp [imageTokens, leadName_append, lead, Token.op, Token.plain, Token.newline]

theorem leadName_cutImageTokens (ts entries : List Token) :
    leadName (ts ++ cutImageTokens entries) = none := by
  simp [cutImageTokens, leadName_append, lead, Token.op, Token.plain, Token.newline]

/-- A token inside an image. -/
theorem Agrees.imageToken (hq : q.Lawful) (h : Agrees q m s n) (himage : s.inImageDict = true) :
    Adds q m (s.imageToken q t) n (Unrepaired q m s t) := by
  have hword : ∀ w, t.isWord w = true → t.type ≠ .inlineImage := by
    intro w hw
    rw [Token.isWord, decide_eq_true_eq] at hw
    rw [hw.1]
    decide
  have hempty : ∀ t' ∈ ([] : List Token), t'.Plain := by
    intro t' ht'
    cases ht'
  rw [ContentFixFilter.imageToken]
  simp only [unrepaired_of_image himage]
  by_cases hid : t.isWord "ID" = true
  · rw [if_pos hid]
    exact h.adds_none fun hstuck => hword _ hid hstuck.1
  · rw [if_neg hid]
    by_cases hdata : t.type = .inlineImage
    · obtain ⟨entries, data', hwritten, hplain, hagain⟩ :=
        processInlineImage_again hq t.raw h.sound.iiToks
      have hlead : leadName (s.out ++ (processInlineImage q s.iiToks t.raw).written) = none := by
        rw [hwritten]
        exact leadName_imageTokens _ _ _
      rw [if_pos hdata]
      refine ⟨(processInlineImage q (entries ++ [.blank, .newline]) (data' ++ [0x0A])).violations,
        h.wrote ⟨h.sound.heldName, h.sound.heldTrail, hempty⟩ rfl ?_, ?_⟩
      · intro hr
        rw [view, hlead, hwritten]
        exact hr.wholeImage hplain data'
      · rw [hagain]
        simp only [hdata, true_and]
    · rw [if_neg hdata]
      by_cases hei : t.isWord "EI" = true
      · rw [if_pos hei]
        refine Agrees.adds_none ?_ fun hstuck => hdata hstuck.1
        refine h.wrote (k := 0) ⟨h.sound.heldName, h.sound.heldTrail, hempty⟩ rfl ?_
        intro hr
        rw [view, leadName_cutImageTokens]
        exact hr.cutImage h.sound.iiToks
      · rw [if_neg hei]
        refine Agrees.adds_none ⟨⟨h.sound.heldName, h.sound.heldTrail, ?_⟩, h.rests⟩
          fun hstuck => hdata hstuck.1
        intro t' ht'
        obtain hmem | hlast := List.mem_append.mp ht'
        · exact h.sound.iiToks t' hmem
        · rw [List.mem_singleton.mp hlast]
          exact ⟨by simpa using hid, by simpa using hei, hdata⟩

/-- One token of the first run. -/
theorem Agrees.handleToken (hq : q.Lawful) (h : Agrees q m s n) (t : Token) :
    Adds q m (ContentFixFilter.handleToken q m s t) n (Unrepaired q m s t) := by
  rw [ContentFixFilter.handleToken]
  by_cases himage : s.inImageDict = true
  · rw [if_pos himage]
    exact h.imageToken hq himage
  · have hout : s.inImageDict = false := Bool.not_eq_true _ ▸ himage
    rw [if_neg himage]
    by_cases hswallow : s.swallowEI = true
    · have hopen : Agrees q m { s with swallowEI := false } n :=
        ⟨⟨h.sound.heldName, h.sound.heldTrail, h.sound.iiToks⟩, h.rests⟩
      rw [if_pos hswallow]
      by_cases hspace : t.type = .space
      · rw [if_pos hspace]
        apply h.adds_none
        simp [unrepaired_of_content hout, ContentStuck, hspace]
      · rw [if_neg hspace]
        by_cases hei : t.isWord "EI" = true
        · rw [if_pos hei]
          apply hopen.adds_none
          rw [Token.isWord, decide_eq_true_eq] at hei
          have hne : lit "EI" ≠ lit "ri" := by decide
          simp [unrepaired_of_content hout, ContentStuck, hei, IntentStuck, hne]
        · rw [if_neg hei]
          exact hopen.contentToken hq hout
    · rw [if_neg hswallow]
      exact h.contentToken hq hout

theorem agrees_start : Agrees q m {} 0 := by
  refine ⟨⟨?_, ?_, ?_⟩, ?_⟩
  · intro name hname
    cases hname
  · intro t ht
    cases ht
  · intro t ht
    cases ht
  · exact ⟨rfl, rfl, rfl, rfl, rfl, rfl, rfl, rfl⟩

theorem Rests.arrayCloses {c : ContentFixFilter} {v : View} (h : Rests c v n) {k : Nat}
    (hk : k ≤ v.arrDepth) :
    ∃ v' : View, v'.dictDepth = v.dictDepth ∧
      Rests ((List.replicate k (.plain .arrayClose (lit "]"))).foldl (handleToken q m) c) v' n := by
  induction k generalizing c v with
  | zero => exact ⟨v, rfl, h⟩
  | succ k ih =>
      have hone := h.arrayClose (q := q) (m := m) (t := .plain .arrayClose (lit "]")) rfl
        (by omega)
      obtain ⟨v', hdict, hrests⟩ := ih hone (by simp only; omega)
      rw [List.replicate_succ, List.foldl_cons]
      exact ⟨v', hdict, hrests⟩

theorem Rests.dictCloses {c : ContentFixFilter} {v : View} (h : Rests c v n) {k : Nat}
    (hk : k ≤ v.dictDepth) :
    ∃ v' : View,
      Rests ((List.replicate k (.plain .dictClose (lit ">>"))).foldl (handleToken q m) c) v' n := by
  induction k generalizing c v with
  | zero => exact ⟨v, h⟩
  | succ k ih =>
      have hone := h.dictClose (q := q) (m := m) (t := .plain .dictClose (lit ">>")) rfl
        (by omega)
      obtain ⟨v', hrests⟩ := ih hone (by simp only; omega)
      rw [List.replicate_succ, List.foldl_cons]
      exact ⟨v', hrests⟩

/-- The brackets written at the end are no violation. -/
theorem Agrees.handleEOF (h : Agrees q m s n) : (run q m s.handleEOF.out).violations = n := by
  have hf := h.flushHeld.rests
  obtain ⟨v, hdict, harrays⟩ := hf.arrayCloses (q := q) (m := m) (le_refl _)
  obtain ⟨v', hclosed⟩ := harrays.dictCloses (q := q) (m := m) (le_of_eq hdict.symm)
  have hrun : run q m s.handleEOF.out =
      (List.replicate s.dictDepth (.plain .dictClose (lit ">>"))).foldl
        (ContentFixFilter.handleToken q m)
        ((List.replicate s.arrDepth (.plain .arrayClose (lit "]"))).foldl
          (ContentFixFilter.handleToken q m) (run q m s.flushHeld.out)) := by
    rw [ContentFixFilter.handleEOF, run, List.foldl_append, List.foldl_append]
    rfl
  rw [hrun]
  exact hclosed.violations

/-- A second run counts no violation in what the first has written exactly if no token of the
stream is written with a violation left in it. -/
theorem violations_again_iff (q : Qpdf) (hq : q.Lawful) (m : FixMode) (toks : List Token) :
    (filterTokens q m (filterTokens q m toks).out).violations = 0 ↔
      ∀ pre t post, toks = pre ++ t :: post → ¬ Unrepaired q m (run q m pre) t := by
  obtain ⟨k, hagrees, hcount⟩ := Transition.foldl_count
    (fun s n t (h : Agrees q m s n) => h.handleToken hq t) agrees_start toks
  rw [Nat.zero_add] at hagrees
  have hsecond : (filterTokens q m (filterTokens q m toks).out).violations = k := hagrees.handleEOF
  rw [hsecond, hcount]
  rfl

/-- Unless a violation outside of images was missed, a second run counts no violation in what
the first has written exactly if no image with violations was passed through. -/
theorem second_run_clean_iff (q : Qpdf) (hq : q.Lawful) (m : FixMode) (toks : List Token)
    (hmissed : ∀ pre t post, toks = pre ++ t :: post → ¬ Missed q m (run q m pre) t) :
    (filterTokens q m (filterTokens q m toks).out).violations = 0 ↔
      ∀ pre t post, toks = pre ++ t :: post → ¬ PassedThrough q (run q m pre) t := by
  rw [violations_again_iff q hq m toks]
  constructor
  · intro h pre t post heq hpassed
    exact h pre t post heq (Or.inl hpassed)
  · intro h pre t post heq hleft
    obtain hpassed | hmiss := hleft
    · exact h pre t post heq hpassed
    · exact hmissed pre t post heq hmiss

/-- A stream with an intent that is none, a string with three digits and a bracket without a
counterpart. -/
def faultyStream : List Token :=
  [.plain .name (lit "/Fast"), .blank, .op "ri", .newline,
    ⟨.string, [0xAB, 0xC0], lit "<abc>"⟩, .blank, .op "Tj", .newline,
    .plain .arrayClose (lit "]"), .newline]

/-- Under the rules of PDF 1.4 every violation of the stream is repaired. -/
theorem faultyStream_unmissed :
    (filterTokens PlainPdf.library ⟨true, false, false⟩ faultyStream).violations = 3 ∧
    ∀ pre t post, faultyStream = pre ++ t :: post →
      ¬ Missed PlainPdf.library ⟨true, false, false⟩
        (run PlainPdf.library ⟨true, false, false⟩ pre) t := by
  refine ⟨by decide, ?_⟩
  intro pre t post heq hmissed
  have hclean : (filterTokens PlainPdf.library ⟨true, false, false⟩
      (filterTokens PlainPdf.library ⟨true, false, false⟩ faultyStream).out).violations = 0 := by
    decide
  rw [violations_again_iff PlainPdf.library PlainPdf.library_lawful] at hclean
  exact hclean pre t post heq (Or.inr hmissed)

/-- No image of the stream is passed through, so the second run is clean. -/
theorem faultyStream_clean :
    PlainPdf.library.Lawful ∧
    (∀ pre t post, faultyStream = pre ++ t :: post →
      ¬ Missed PlainPdf.library ⟨true, false, false⟩
        (run PlainPdf.library ⟨true, false, false⟩ pre) t) ∧
    ∀ pre t post, faultyStream = pre ++ t :: post →
      ¬ PassedThrough PlainPdf.library (run PlainPdf.library ⟨true, false, false⟩ pre) t :=
  ⟨PlainPdf.library_lawful, faultyStream_unmissed.2,
    (second_run_clean_iff PlainPdf.library PlainPdf.library_lawful ⟨true, false, false⟩
      faultyStream faultyStream_unmissed.2).mp (by decide)⟩

/-- A stream with an image whose filter is not known for inline images. -/
def jpxStream : List Token :=
  [.op "BI", .blank, .plain .name (lit "/W"), .blank, .plain .integer (lit "1"), .blank,
    .plain .name (lit "/H"), .blank, .plain .integer (lit "1"), .blank,
    .plain .name (lit "/F"), .blank, .plain .name (lit "/JPXDecode"), .blank,
    .op "ID", .newline, .plain .inlineImage [0xFF, 0x4F, 0x0A], .op "EI", .newline]

/-- The image is passed through and the second run counts it again. -/
theorem jpxStream_counted_again :
    (filterTokens PlainPdf.library ⟨true, false, false⟩
      (filterTokens PlainPdf.library ⟨true, false, false⟩ jpxStream).out).violations = 1 := by
  decide

end ContentFixFilter

end Kura.Engine
