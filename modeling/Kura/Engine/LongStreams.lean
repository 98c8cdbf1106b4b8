import Kura.Engine.GlyphSteps
import Kura.Engine.PlainPdf

/-!
# Long streams that are not filtered

A long stream is not run through the filter if its bytes hold neither `/Lang` nor
the name of a font with bad codes. The filter does more than look for these: it
leaves out operators that name nothing and text without a font, and names may be
written with escapes.
-/

namespace Kura.Engine.GlyphClean

open Base (Phrase)
open CMap (Code Codespace)
open Text

variable {q : Qpdf} {res : Resources} {s : GlyphCleanFilter}

/-- The bytes left and the number of codes dropped are no more than the string. -/
theorem length_cleanCodes (cs : Codespace) (badCodes : List Code) (v : Bytes) :
    (cleanCodes cs badCodes v).1.length + (cleanCodes cs badCodes v).2 ≤ v.length := by
  simp only [cleanCodes]
  fun_induction cs.cuts v with
  | case1 => exact le_rfl
  | case2 v hv ih =>
      obtain ⟨hpos, hle⟩ := cs.cleanPiece_len hv
      rw [List.length_drop] at ih
      rw [List.filter_cons, List.countP_cons]
      cases badCodes.contains (cs.cleanPiece v).code with
      | true =>
          simp only [Bool.not_true, Bool.false_eq_true, if_false, if_true]
          omega
      | false =>
          simp only [Bool.not_false, if_true, List.flatMap_cons, List.length_append,
            List.length_take, Bool.false_eq_true, if_false]
          omega

theorem length_cleanPairs (bad : List Nat) (v : Bytes) :
    (cleanPairs bad v).1.length + (cleanPairs bad v).2 ≤ v.length := by
  fun_induction cleanPairs bad v with
  | case1 a b rest more hbad ih =>
      have hmore : more.1.length + more.2 ≤ rest.length := ih
      simp only [List.length_cons]
      omega
  | case2 a b rest more hgood ih =>
      have hmore : more.1.length + more.2 ≤ rest.length := ih
      simp only [List.length_cons]
      omega
  | case3 => exact Nat.zero_le _

theorem FontGlyphInfo.length_clean (f : FontGlyphInfo) (v : Bytes) :
    (f.clean v).1.length + (f.clean v).2 ≤ v.length := by
  rw [clean]
  split
  · exact length_cleanCodes _ _ _
  · split
    · exact le_rfl
    · split
      · exact length_cleanPairs _ _
      · have hcount := List.length_eq_countP_add_countP (fun c : UInt8 => f.bad.contains c.toNat)
          (l := v)
        simpa [List.countP_eq_length_filter, add_comm] using hcount.ge

/-- A string that stays has no bad code. -/
theorem FontGlyphInfo.clean_count {f : FontGlyphInfo} {v : Bytes} (h : (f.clean v).1 = v) :
    (f.clean v).2 = 0 := by
  have hlen := f.length_clean v
  rw [h] at hlen
  omega

/-- A font without bad glyphs leaves every string. -/
theorem FontGlyphInfo.clean_of_nil {f : FontGlyphInfo} (h : f.bad = []) (v : Bytes) :
    f.clean v = (v, 0) := by
  have hcodes : f.badCodes = [] := by
    by_contra hne
    exact f.bad_ne_nil hne h
  rw [clean, hcodes, h]
  split
  · rename_i hfalse
    cases hfalse
  · rfl

/-- What a token says. -/
def content (t : Token) : TokenType × Bytes := (t.type, t.value)

theorem content_written (t : Token) : content (written q t) = content t := by
  rw [written]
  split
  · rename_i hstring
    rw [content, content, hstring]
    rfl
  · rfl

/-- Whether the strings among operands stay. -/
def Clean (f : FontGlyphInfo) (ws : List Token) : Prop :=
  ∀ t ∈ ws, t.type = .string → (f.clean t.value).1 = t.value

theorem clean_iff {f : FontGlyphInfo} {ws : List Token} :
    (ws.map f.cleanToken).map content = ws.map content ↔ Clean f ws := by
  rw [List.map_map, List.map_inj_left]
  refine forall₂_congr fun t ht => ?_
  rw [Function.comp_apply, FontGlyphInfo.cleanToken]
  split
  · rename_i hchanged
    simp only [content, Token.plain, hchanged.1, Prod.mk.injEq, true_and, forall_const]
  · rename_i hsame
    rw [not_and, not_not] at hsame
    exact ⟨fun _ => hsame, fun _ => rfl⟩

theorem badIn_of_clean {f : FontGlyphInfo} {ws : List Token} (h : Clean f ws) :
    (ws.map f.badIn).sum = 0 := by
  rw [List.sum_eq_zero_iff]
  intro n hn
  obtain ⟨t, ht, rfl⟩ := List.mem_map.mp hn
  rw [FontGlyphInfo.badIn]
  split
  · rename_i hstring
    exact FontGlyphInfo.clean_count (h t ht hstring)
  · rfl

/-- The first string among operands, no name being before it. -/
def NextString (ws : List Token) (t : Token) : Prop :=
  ∃ mid post, ws = mid ++ t :: post ∧ (∀ u ∈ mid, u.type ≠ .string ∧ u.type ≠ .name) ∧
    t.type = .string

/-- A name `/Lang` and the string that goes with it. -/
def LangAt (ws : List Token) (tag t : Token) : Prop :=
  ∃ pre rest, ws = pre ++ tag :: rest ∧ tag.type = .name ∧ tag.value = lit "/Lang" ∧
    NextString rest t

theorem nextString_cons {u t : Token} {ws : List Token} :
    NextString (u :: ws) t ↔
      u.type = .string ∧ t = u ∨ (u.type ≠ .string ∧ u.type ≠ .name) ∧ NextString ws t := by
  constructor
  · rintro ⟨mid, post, heq, hmid, ht⟩
    cases mid with
    | nil =>
        obtain ⟨rfl, rfl⟩ := List.cons.inj heq
        exact Or.inl ⟨ht, rfl⟩
    | cons u' mid =>
        obtain ⟨rfl, rfl⟩ := List.cons.inj heq
        obtain ⟨hu, hrest⟩ := List.forall_mem_cons.mp hmid
        exact Or.inr ⟨hu, mid, post, rfl, hrest, ht⟩
  · rintro (⟨hu, rfl⟩ | ⟨hu, mid, post, rfl, hmid, ht⟩)
    · exact ⟨[], ws, rfl, fun v hv => absurd hv List.not_mem_nil, hu⟩
    · exact ⟨u :: mid, post, rfl, List.forall_mem_cons.mpr ⟨hu, hmid⟩, ht⟩

theorem langAt_cons {u tag t : Token} {ws : List Token} :
    LangAt (u :: ws) tag t ↔
      u = tag ∧ tag.type = .name ∧ tag.value = lit "/Lang" ∧ NextString ws t ∨ LangAt ws tag t := by
  constructor
  · rintro ⟨pre, rest, heq, htag⟩
    cases pre with
    | nil =>
        obtain ⟨rfl, rfl⟩ := List.cons.inj heq
        exact Or.inl ⟨rfl, htag⟩
    | cons u' pre =>
        obtain ⟨rfl, rfl⟩ := List.cons.inj heq
        exact Or.inr ⟨pre, rest, rfl, htag⟩
  · rintro (⟨rfl, htag⟩ | ⟨pre, rest, rfl, htag⟩)
    · exact ⟨[], ws, rfl, htag⟩
    · exact ⟨u :: pre, rest, rfl, htag⟩

theorem not_nextString_nil (t : Token) : ¬ NextString [] t := by
  rintro ⟨mid, post, heq, -⟩
  cases mid <;> cases heq

theorem not_langAt_nil (tag t : Token) : ¬ LangAt [] tag t := by
  rintro ⟨pre, rest, heq, -⟩
  cases pre <;> cases heq

/-- No language is replaced if all of them are valid. -/
theorem fixLangs_count {look : Bool} {ws : List Token} :
    (fixLangs look ws).2 = 0 ↔
      (look = true → ∀ t, NextString ws t → langOk t.value = true) ∧
        ∀ tag t, LangAt ws tag t → langOk t.value = true := by
  induction ws generalizing look with
  | nil =>
      refine ⟨fun _ => ⟨fun _ t ht => ?_, fun tag t ht => ?_⟩, fun _ => rfl⟩
      · exact absurd ht (not_nextString_nil t)
      · exact absurd ht (not_langAt_nil tag t)
  | cons u ws ih =>
      rw [fixLangs]
      simp only [nextString_cons, langAt_cons]
      by_cases hstring : u.type = .string
      · have hname : u.type ≠ .name := by rw [hstring]; decide
        rw [if_pos hstring]
        split_ifs with hbad
        · rw [Bool.and_eq_true, Bool.not_eq_true'] at hbad
          refine ⟨fun h => h.elim, fun h => ?_⟩
          have hok := h.1 hbad.1 u (Or.inl ⟨hstring, rfl⟩)
          exact absurd (hok.symm.trans hbad.2) Bool.noConfusion
        · rw [Bool.and_eq_true, Bool.not_eq_true', not_and, Bool.not_eq_false] at hbad
          rw [ih]
          constructor
          · rintro ⟨-, hall⟩
            refine ⟨fun hlook t ht => ?_, fun tag t ht => ?_⟩
            · obtain ⟨-, rfl⟩ | ⟨⟨hne, -⟩, -⟩ := ht
              · exact hbad hlook
              · exact absurd hstring hne
            · obtain ⟨rfl, htag, -⟩ | ht := ht
              · exact absurd htag hname
              · exact hall tag t ht
          · rintro ⟨-, hall⟩
            exact ⟨fun h => absurd h Bool.false_ne_true, fun tag t ht => hall tag t (Or.inr ht)⟩
      · rw [if_neg hstring, ih]
        by_cases hname : u.type = .name
        · rw [if_pos hname]
          simp only [decide_eq_true_eq]
          constructor
          · rintro ⟨hnext, hall⟩
            refine ⟨fun hlook t ht => ?_, fun tag t ht => ?_⟩
            · obtain ⟨h, -⟩ | ⟨⟨-, hne⟩, -⟩ := ht
              · exact absurd h hstring
              · exact absurd hname hne
            · obtain ⟨rfl, -, hlang, ht⟩ | ht := ht
              · exact hnext hlang t ht
              · exact hall tag t ht
          · rintro ⟨-, hall⟩
            exact ⟨fun hlang t ht => hall u t (Or.inl ⟨rfl, hname, hlang, ht⟩),
              fun tag t ht => hall tag t (Or.inr ht)⟩
        · rw [if_neg hname]
          constructor
          · rintro ⟨hnext, hall⟩
            refine ⟨fun hlook t ht => ?_, fun tag t ht => ?_⟩
            · obtain ⟨h, -⟩ | ⟨-, ht⟩ := ht
              · exact absurd h hstring
              · exact hnext hlook t ht
            · obtain ⟨rfl, htag, -⟩ | ht := ht
              · exact absurd htag hname
              · exact hall tag t ht
          · rintro ⟨hnext, hall⟩
            exact ⟨fun hlook t ht => hnext hlook t (Or.inr ⟨⟨hstring, hname⟩, ht⟩),
              fun tag t ht => hall tag t (Or.inr ht)⟩

theorem fixLangs_self {look : Bool} {ws : List Token} (h : (fixLangs look ws).2 = 0) :
    (fixLangs look ws).1 = ws := by
  induction ws generalizing look with
  | nil => rfl
  | cons u ws ih =>
      rw [fixLangs] at h ⊢
      by_cases hstring : u.type = .string
      · rw [if_pos hstring] at h ⊢
        by_cases hbad : (look && !langOk u.value) = true
        · rw [if_pos hbad] at h
          exact absurd h (Nat.succ_ne_zero _)
        · rw [if_neg hbad] at h ⊢
          exact congrArg (List.cons u) (ih h)
      · rw [if_neg hstring] at h ⊢
        exact congrArg (List.cons u) (ih h)

/-- Whether the filter has changed nothing and counted nothing. -/
structure Unchanged (s : GlyphCleanFilter) (ts : List Token) : Prop where
  dropped : s.dropped = 0
  refDropped : s.refDropped = 0
  langFixed : s.langFixed = 0
  same : s.out.map content = ts.map content

/-- Whether an operation is one that the filter leaves as it is. -/
structure Stays (res : Resources) (name : Option Token) (o : Operation) : Prop where
  font : o.last.value = lit "Tf" →
    lastName o.words = [] ∨ (res.fonts.lookup (lastName o.words)).isSome
  resource : ∀ names, res.domain o.last.value = some names →
    lastName o.words = [] ∨ lastName o.words ∈ names
  set : shows o.last.value = true → name.isSome = true
  langs : marks o.last.value = true → ∀ tag t, LangAt o.words tag t → langOk t.value = true
  glyphs : shows o.last.value = true → ∀ t f, name = some t →
    res.fonts.lookup t.value = some f → Clean f o.words

/-- What is written for an operation says what the operation says. -/
theorem content_append {out ts ws : List Token} {o : Operation}
    (hlen : ws.length = o.words.length) :
    (out ++ (ws.map (written q) ++ [o.last])).map content = (ts ++ o.text).map content ↔
      out.map content = ts.map content ∧ ws.map content = o.words.map content := by
  have hwritten : (ws.map (written q)).map content = ws.map content := by
    rw [List.map_map]
    exact List.map_congr_left fun t _ => content_written t
  rw [Phrase.text, List.map_append, List.map_append, List.map_append, List.map_append, hwritten]
  constructor
  · intro h
    obtain ⟨hout, htext⟩ := List.append_inj' h (by simp [hlen])
    exact ⟨hout, (List.append_inj' htext rfl).1⟩
  · rintro ⟨hout, hws⟩
    rw [hout, hws]

/-- An operation is kept unchanged when nothing of it is dropped or edited. -/
theorem Unchanged.kept {s' : GlyphCleanFilter} {ts ws : List Token} {o : Operation}
    (hlen : ws.length = o.words.length)
    (hout : s'.out = s.out ++ (ws.map (written q) ++ [o.last])) {b l : Nat}
    (hdropped : s'.dropped = s.dropped + b) (href : s'.refDropped = s.refDropped)
    (hlangs : s'.langFixed = s.langFixed + l) :
    Unchanged s' (ts ++ o.text) ↔
      Unchanged s ts ∧ b = 0 ∧ l = 0 ∧ ws.map content = o.words.map content := by
  constructor
  · intro h
    have hcontent := h.same
    rw [hout, content_append hlen] at hcontent
    have hd := hdropped.symm.trans h.dropped
    have hl := hlangs.symm.trans h.langFixed
    exact ⟨⟨(Nat.add_eq_zero_iff.mp hd).1, href.symm.trans h.refDropped,
      (Nat.add_eq_zero_iff.mp hl).1, hcontent.1⟩, (Nat.add_eq_zero_iff.mp hd).2,
      (Nat.add_eq_zero_iff.mp hl).2, hcontent.2⟩
  · rintro ⟨h, rfl, rfl, hws⟩
    refine ⟨hdropped.trans h.dropped, href.trans h.refDropped, hlangs.trans h.langFixed, ?_⟩
    rw [hout, content_append hlen]
    exact ⟨h.same, hws⟩

theorem not_unchanged {s' : GlyphCleanFilter} {ts : List Token} {n : Nat}
    (href : s'.refDropped = n + 1) : ¬ Unchanged s' ts :=
  fun h => absurd (href.symm.trans h.refDropped) (Nat.succ_ne_zero _)

theorem stays_other {name : Option Token} {o : Operation} (hmarks : marks o.last.value = false)
    (hTf : o.last.value ≠ lit "Tf") (hdomain : res.domain o.last.value = none)
    (hshows : shows o.last.value = false) : Stays res name o where
  font := fun h => absurd h hTf
  resource := fun _ h => absurd (h.symm.trans hdomain) (Option.some_ne_none _)
  set := fun h => absurd (hshows.symm.trans h) Bool.false_ne_true
  langs := fun h => absurd (hmarks.symm.trans h) Bool.false_ne_true
  glyphs := fun h => absurd (hshows.symm.trans h) Bool.false_ne_true

theorem stays_of_marks {name : Option Token} {o : Operation} (hmarks : marks o.last.value = true) :
    Stays res name o ↔ ∀ tag t, LangAt o.words tag t → langOk t.value = true := by
  obtain ⟨hfont, hshows, hdomain⟩ := @fontless_of_marks res _ hmarks
  constructor
  · exact fun h => h.langs hmarks
  · intro h
    exact ⟨fun hTf => absurd hTf hfont.1, fun _ hn =>
      absurd (hn.symm.trans hdomain) (Option.some_ne_none _),
      fun hs => absurd (hshows.symm.trans hs) Bool.false_ne_true, fun _ => h,
      fun hs => absurd (hshows.symm.trans hs) Bool.false_ne_true⟩

theorem stays_of_shows {name : Option Token} {o : Operation} (hshows : shows o.last.value = true) :
    Stays res name o ↔ name.isSome = true ∧
      ∀ t f, name = some t → res.fonts.lookup t.value = some f → Clean f o.words := by
  obtain ⟨hfont, hmarks, hdomain⟩ := @fontless_of_shows res _ hshows
  constructor
  · exact fun h => ⟨h.set hshows, h.glyphs hshows⟩
  · rintro ⟨hset, hglyphs⟩
    exact ⟨fun hTf => absurd hTf hfont.1, fun _ hn =>
      absurd (hn.symm.trans hdomain) (Option.some_ne_none _),
      fun _ => hset, fun hm => absurd (hmarks.symm.trans hm) Bool.false_ne_true, fun _ => hglyphs⟩

theorem stays_of_Tf {name : Option Token} {o : Operation} (hTf : o.last.value = lit "Tf")
    (hfound : lastName o.words = [] ∨ (res.fonts.lookup (lastName o.words)).isSome) :
    Stays res name o := by
  have hmarks : marks o.last.value = false := by rw [hTf]; decide
  have hshows : shows o.last.value = false := by rw [hTf]; decide
  have hdomain : res.domain o.last.value = none := by rw [hTf]; exact domain_Tf
  exact ⟨fun _ => hfound, fun _ hn => absurd (hn.symm.trans hdomain) (Option.some_ne_none _),
    fun hs => absurd (hshows.symm.trans hs) Bool.false_ne_true,
    fun hm => absurd (hmarks.symm.trans hm) Bool.false_ne_true,
    fun hs => absurd (hshows.symm.trans hs) Bool.false_ne_true⟩

theorem stays_of_domain {name : Option Token} {o : Operation} {names : List Bytes}
    (hdomain : res.domain o.last.value = some names)
    (hfound : lastName o.words = [] ∨ lastName o.words ∈ names) : Stays res name o := by
  obtain ⟨hfont, hmarks, hshows⟩ := fontless_of_domain hdomain
  refine ⟨fun hTf => absurd hTf hfont.1, ?_,
    fun hs => absurd (hshows.symm.trans hs) Bool.false_ne_true,
    fun hm => absurd (hmarks.symm.trans hm) Bool.false_ne_true,
    fun hs => absurd (hshows.symm.trans hs) Bool.false_ne_true⟩
  intro names' hnames'
  cases hdomain.symm.trans hnames'
  exact hfound

theorem length_edited (s : GlyphCleanFilter) (o : Operation) :
    (edited s o).length = o.words.length := (alike_edited o).length_eq.symm

theorem saveRestore_counts (s : GlyphCleanFilter) (token : Token) :
    (s.saveRestore token).dropped = s.dropped ∧ (s.saveRestore token).refDropped = s.refDropped ∧
      (s.saveRestore token).langFixed = s.langFixed := by
  rw [GlyphCleanFilter.saveRestore]
  split_ifs
  · exact ⟨rfl, rfl, rfl⟩
  · cases s.saved <;> exact ⟨rfl, rfl, rfl⟩
  · exact ⟨rfl, rfl, rfl⟩

/-- The filter leaves one more operation if it has left all before it and this one is such. -/
theorem unchanged_handled {u : FontUse} {ts : List Token} {o : Operation} {s' : GlyphCleanFilter}
    (hfollows : Follows res u s) (hs : Handled q res s o s') :
    Unchanged s' (ts ++ o.text) ↔ Unchanged s ts ∧ Stays res u.name o := by
  cases hs with
  | marked hmarks =>
      refine Iff.trans (Unchanged.kept (s := s) (q := q) (length_edited s o) rfl (b := 0) rfl rfl
        (l := langsIn o) rfl) ?_
      rw [stays_of_marks hmarks, edited, langsIn, if_pos hmarks, if_pos hmarks]
      refine and_congr_right fun _ => ⟨fun h => (fixLangs_count.mp h.2.1).2, fun h => ?_⟩
      have hcount : (fixLangs false o.words).2 = 0 :=
        fixLangs_count.mpr ⟨fun hlook => absurd hlook Bool.false_ne_true, h⟩
      exact ⟨rfl, hcount, by rw [fixLangs_self hcount]⟩
  | noFont hTf hname hnone =>
      refine iff_of_false (not_unchanged rfl) fun h => ?_
      obtain hnil | hsome := h.2.font hTf
      · exact hname hnil
      · rw [hnone] at hsome
        cases hsome
  | font hTf hfound =>
      refine Iff.trans (Unchanged.kept (s := s) (q := q) rfl rfl (b := 0) rfl rfl (l := 0) rfl) ?_
      exact and_congr_right fun _ => iff_of_true ⟨rfl, rfl, rfl⟩ (stays_of_Tf hTf hfound)
  | noResource names hdomain hname hmissing =>
      refine iff_of_false (not_unchanged rfl) fun h => ?_
      exact (h.2.resource names hdomain).elim hname hmissing
  | resource names hdomain hfound =>
      refine Iff.trans (Unchanged.kept (s := s) (q := q) rfl rfl (b := 0) rfl rfl (l := 0) rfl) ?_
      exact and_congr_right fun _ => iff_of_true ⟨rfl, rfl, rfl⟩ (stays_of_domain hdomain hfound)
  | unset hshows hset =>
      refine iff_of_false (not_unchanged rfl) fun h => ?_
      have hsome := h.2.set hshows
      rw [← hfollows.font.1, hset] at hsome
      cases hsome
  | shown hshows hset =>
      obtain ⟨-, hmarks, -⟩ := @fontless_of_shows res _ hshows
      refine Iff.trans
        (Unchanged.kept (s := s) (q := q) (length_edited s o) rfl (b := badIn s o) rfl rfl
        (l := 0) rfl) ?_
      have hnot : ¬ marks o.last.value = true := by
        rw [hmarks]
        exact Bool.false_ne_true
      rw [stays_of_shows hshows, edited, badIn, if_neg hnot, if_pos hshows, if_pos hshows]
      obtain ⟨t, ht⟩ := Option.isSome_iff_exists.mp (hfollows.font.1.symm.trans hset)
      have hcur : s.cur = res.fonts.lookup t.value := hfollows.font.2 t ht
      refine and_congr_right fun _ => ?_
      rw [hcur, ht]
      cases hfont : res.fonts.lookup t.value with
      | none =>
          refine iff_of_true ⟨rfl, rfl, rfl⟩ ⟨rfl, ?_⟩
          rintro _ f ⟨⟩ hf
          exact absurd (hf.symm.trans hfont) (Option.some_ne_none _)
      | some f =>
          constructor
          · rintro ⟨-, -, hsame⟩
            refine ⟨rfl, ?_⟩
            rintro _ f' ⟨⟩ hf'
            cases hfont.symm.trans hf'
            exact clean_iff.mp hsame
          · rintro ⟨-, hall⟩
            have hclean := hall t f rfl hfont
            exact ⟨badIn_of_clean hclean, rfl, clean_iff.mpr hclean⟩
  | other hmarks hTf hdomain hshows =>
      have hcounts := saveRestore_counts s o.last
      refine Iff.trans
        (Unchanged.kept (s := s) (q := q) rfl rfl (b := 0) hcounts.1 hcounts.2.1 (l := 0)
        hcounts.2.2) ?_
      exact and_congr_right fun _ =>
        iff_of_true ⟨rfl, rfl, rfl⟩ (stays_other hmarks hTf hdomain hshows)

/-- Whether the filter leaves each operation of a stream, with the font that is set there. -/
def AllStay (res : Resources) (ops : List Operation) : Prop :=
  Base.AtEach (fun pre o => Stays res (fontUse res pre).name o) ops

/-- Whole operations leave no operand behind, and are unchanged when all stay. -/
theorem filtered_ops (ops : List Operation) :
    (filtered q res (ops.flatMap Phrase.text)).operands = [] ∧
      Follows res (fontUse res ops) (filtered q res (ops.flatMap Phrase.text)) ∧
      (Unchanged (filtered q res (ops.flatMap Phrase.text)) (ops.flatMap Phrase.text) ↔
        AllStay res ops) := by
  induction ops using List.reverseRecOn with
  | nil =>
      refine ⟨rfl, ⟨⟨rfl, fun t ht => by cases ht⟩, .nil⟩, ?_⟩
      exact iff_of_true ⟨rfl, rfl, rfl, rfl⟩ .nil
  | append_singleton ops o ih =>
      obtain ⟨hoperands, hfollows, hiff⟩ := ih
      have hhandled := @step_handled q res (filtered q res (ops.flatMap Phrase.text)) o
      have hstep : filtered q res ((ops ++ [o]).flatMap Phrase.text) =
          step q res (filtered q res (ops.flatMap Phrase.text)) o := by
        rw [filtered, List.flatMap_append, List.foldl_append, List.flatMap_singleton, ← filtered,
          foldl_text o hoperands]
      rw [hstep, List.flatMap_append, List.flatMap_singleton, unchanged_handled hfollows hhandled,
        hiff, AllStay, AllStay, Base.atEach_append]
      refine ⟨hhandled.operands_eq, ?_, Iff.rfl⟩
      rw [fontUse, List.foldl_append]
      exact hfollows.handled hhandled

/-- The filter leaves a stream if it leaves each of its operations. -/
theorem unchanged_iff (ts : List Token) :
    Unchanged (filterContents q res ts) ts ↔ AllStay res (operations ts).1 := by
  have hrest := @Base.phrases_rest Token isOperator ts
  have htext := @Base.phrases_text Token isOperator ts
  generalize (operations ts).1 = ops at htext ⊢
  generalize (operations ts).2 = rest at htext hrest
  obtain ⟨hoperands, -, hiff⟩ := @filtered_ops q res ops
  have hend : filterContents q res ts =
      { filtered q res (ops.flatMap Phrase.text) with
        out := (filtered q res (ops.flatMap Phrase.text)).out ++ rest.map (written q)
        operands := [] } := by
    rw [filterContents, ← htext, filtered, List.foldl_append, ← filtered, foldl_operands hrest
      hoperands]
    rfl
  have hwritten : (rest.map (written q)).map content = rest.map content := by
    rw [List.map_map]
    exact List.map_congr_left fun t _ => content_written t
  rw [← hiff, hend, ← htext]
  constructor
  · intro h
    refine ⟨h.dropped, h.refDropped, h.langFixed, ?_⟩
    have hsame := h.same
    rw [List.map_append, List.map_append, hwritten] at hsame
    exact (List.append_inj' hsame rfl).1
  · intro h
    refine ⟨h.dropped, h.refDropped, h.langFixed, ?_⟩
    rw [List.map_append, List.map_append, hwritten, h.same]

/-- The name that has set a font is one of the operands. -/
theorem mem_of_fontUse {ops : List Operation} {t : Token}
    (h : (fontUse res ops).name = some t ∨ some t ∈ (fontUse res ops).saved) :
    ∃ o ∈ ops, t ∈ o.words := by
  induction ops using List.reverseRecOn with
  | nil =>
      obtain h | h := h
      · cases h
      · cases h
  | append_singleton ops o ih =>
      have hbefore : (fontUse res ops).name = some t ∨ some t ∈ (fontUse res ops).saved →
          ∃ o' ∈ ops ++ [o], t ∈ o'.words := by
        intro h
        obtain ⟨o', ho', ht⟩ := ih h
        exact ⟨o', List.mem_append_left _ ho', ht⟩
      have hstep : fontUse res (ops ++ [o]) = (fontUse res ops).step res o := List.foldl_append
      rw [hstep, FontUse.step] at h
      split_ifs at h with hq hQ hTf
      · refine hbefore ?_
        obtain h | h := h
        · exact Or.inl h
        · exact (List.mem_cons.mp h).imp Eq.symm id
      · refine hbefore ?_
        cases hsaved : (fontUse res ops).saved with
        | nil =>
            rw [hsaved] at h
            exact hsaved ▸ h
        | cons name rest =>
            rw [hsaved] at h
            obtain rfl | h := h
            · exact Or.inr List.mem_cons_self
            · exact Or.inr (List.mem_cons_of_mem _ h)
      · obtain h | h := h
        · refine ⟨o, List.mem_append_right _ List.mem_cons_self, ?_⟩
          have hname := (Option.filter_eq_some_iff.mp h).1
          exact List.mem_reverse.mp (List.mem_of_find?_eq_some hname)
        · exact hbefore (Or.inr h)
      · exact hbefore h

theorem raw_infix {ts : List Token} {t : Token} (h : t ∈ ts) : t.raw <:+: rawBytes ts :=
  List.infix_of_mem_flatten (List.mem_map_of_mem h)

theorem mem_of_words {ts : List Token} {o : Operation} (ho : o ∈ (operations ts).1) {t : Token}
    (ht : t ∈ o.words) : t ∈ ts := by
  rw [← @Base.phrases_text Token isOperator ts]
  exact List.mem_append_left _ (List.mem_flatMap.mpr ⟨o, ho, List.mem_append_left _ ht⟩)

/-- Whether a stream needs nothing of what the filter does: every name is one of the resources,
a font is set where text is shown, and names that are written with escapes set no font with bad
codes for the text and give no invalid language. -/
structure Sound (res : Resources) (ops : List Operation) : Prop where
  refs : ∀ o ∈ ops,
    (o.last.value = lit "Tf" →
      lastName o.words = [] ∨ (res.fonts.lookup (lastName o.words)).isSome) ∧
    ∀ names, res.domain o.last.value = some names → lastName o.words = [] ∨ lastName o.words ∈ names
  set : Base.AtEach
    (fun pre o => shows o.last.value = true → (fontUse res pre).name.isSome = true) ops
  langs : ∀ o ∈ ops, marks o.last.value = true → ∀ tag t, LangAt o.words tag t →
    tag.raw ≠ tag.value → langOk t.value = true
  glyphs : Base.AtEach (fun pre o => shows o.last.value = true → ∀ t f,
    (fontUse res pre).name = some t → t.raw ≠ t.value → res.fonts.lookup t.value = some f →
    Clean f o.words) ops

theorem mem_of_lookup {α : Type} {l : List (Bytes × α)} {k : Bytes} {a : α}
    (h : l.lookup k = some a) : (k, a) ∈ l := by
  obtain ⟨l₁, l₂, rfl, -⟩ := List.lookup_eq_some_iff.mp h
  exact List.mem_append_right _ List.mem_cons_self

/-- A stream that is passed over would have been left as it is if it is such a stream. -/
theorem unchanged_iff_sound {ts : List Token} (h : skips res ts = true) :
    Unchanged (filterContents q res ts) ts ↔ Sound res (operations ts).1 := by
  rw [unchanged_iff]
  rw [skips, Bool.and_eq_true, Bool.not_eq_true', mentions, Bool.or_eq_false_iff] at h
  obtain ⟨-, hlang, hfonts⟩ := h
  constructor
  · intro hall
    have hstays : ∀ o ∈ (operations ts).1, ∃ name, Stays res name o := by
      intro o ho
      obtain ⟨pre, post, heq⟩ := List.append_of_mem ho
      exact ⟨_, hall pre o post heq⟩
    refine ⟨?_, ?_, ?_, ?_⟩
    · intro o ho
      obtain ⟨name, hstay⟩ := hstays o ho
      exact ⟨hstay.font, hstay.resource⟩
    · exact hall.mono fun pre o _ hstay => hstay.set
    · intro o ho hmarks tag t hat _
      obtain ⟨name, hstay⟩ := hstays o ho
      exact hstay.langs hmarks tag t hat
    · exact hall.mono fun pre o _ hstay hshows t f hname _ => hstay.glyphs hshows t f hname
  · intro hsound pre o post heq
    have ho : o ∈ (operations ts).1 := by
      rw [heq]
      exact List.mem_append_right _ List.mem_cons_self
    refine ⟨(hsound.refs o ho).1, (hsound.refs o ho).2, hsound.set pre o post heq, ?_, ?_⟩
    · intro hmarks tag t hat
      refine hsound.langs o ho hmarks tag t hat ?_
      -- Without escapes the stream would hold the name.
      intro hraw
      obtain ⟨before, rest, hwords, -, hvalue, -⟩ := hat
      have htag : tag ∈ o.words := by
        rw [hwords]
        exact List.mem_append_right _ List.mem_cons_self
      have hin := raw_infix (mem_of_words ho htag)
      rw [hraw, hvalue] at hin
      exact absurd hin (decide_eq_false_iff_not.mp hlang)
    · intro hshows t f hname hfont
      by_cases hraw : t.raw = t.value
      · have hbad : f.bad = [] := by
          by_contra hne
          obtain ⟨o', ho', ht⟩ := mem_of_fontUse (Or.inl hname)
          have hmem : o' ∈ (operations ts).1 := by
            rw [heq]
            exact List.mem_append_left _ ho'
          have hin := raw_infix (mem_of_words hmem ht)
          rw [hraw] at hin
          have hnone := List.any_eq_false.mp hfonts _ (mem_of_lookup hfont)
          rw [Bool.and_eq_true, Bool.not_eq_true', List.isEmpty_eq_false_iff, decide_eq_true_eq]
            at hnone
          exact hnone ⟨hne, hin⟩
        intro w hw _
        rw [FontGlyphInfo.clean_of_nil hbad]
      · exact hsound.glyphs pre o post heq hshows t f hname hraw hfont

/-- The stream of some operations with many blanks behind them. -/
def padded (ops : List Operation) : List Token :=
  ops.flatMap Phrase.text ++ [.plain .space (List.replicate 65537 0x20)]

theorem operations_padded (ops : List Operation) : (operations (padded ops)).1 = ops := by
  rw [padded, operations, Base.phrases_flatMap_rest]
  intro w hw
  rw [List.mem_singleton.mp hw]
  rfl

/-- A stream is long with the blanks, and holds no letter that its operations do not hold. -/
theorem skips_padded {ops : List Operation} (h : 0x4C ∉ rawBytes (ops.flatMap Phrase.text))
    (hfonts : res.fonts = []) : skips res (padded ops) = true := by
  have hbytes : rawBytes (padded ops) =
      rawBytes (ops.flatMap Phrase.text) ++ List.replicate 65537 0x20 := by
    rw [padded, rawBytes, List.flatMap_append, List.flatMap_singleton]
    rfl
  have hlang : ¬ lit "/Lang" <:+: rawBytes (padded ops) := by
    intro hin
    have hL : (0x4C : UInt8) ∈ rawBytes (padded ops) := hin.subset (by decide)
    rw [hbytes, List.mem_append] at hL
    obtain hL | hL := hL
    · exact h hL
    · exact absurd (List.eq_of_mem_replicate hL) (by decide)
  rw [skips, mentions, hfonts, List.any_nil, Bool.or_false, Bool.and_eq_true, Bool.not_eq_true',
    decide_eq_true_eq, decide_eq_false_iff_not]
  refine ⟨?_, hlang⟩
  rw [hbytes, List.length_append, List.length_replicate]
  omega

/-- `/X9 Do`. -/
def paintX9 : Operation := ⟨[.plain .name (lit "/X9"), .blank], Token.op "Do", by decide, rfl⟩

/-- An image that the resources do not have is left out of a short stream only. -/
theorem paintX9_skipped : skips {} (padded [paintX9]) = true ∧
    ¬ Unchanged (filterContents PlainPdf.library {} (padded [paintX9])) (padded [paintX9]) := by
  refine ⟨skips_padded (by decide) rfl, ?_⟩
  rw [unchanged_iff, operations_padded]
  intro hall
  have hfound := (hall [] paintX9 [] rfl).resource [] rfl
  revert hfound
  decide

/-- An image of the resources stays. -/
theorem paintX9_unchanged :
    Unchanged (filterContents PlainPdf.library { xobjects := [lit "/X9"] } (padded [paintX9]))
      (padded [paintX9]) := by
  refine (unchanged_iff_sound (skips_padded (by decide) rfl)).mpr ?_
  rw [operations_padded]
  have hset : ∀ {P : List Operation → Operation → Prop}, P [] paintX9 → Base.AtEach P [paintX9] :=
    fun h => Base.atEach_append.mpr ⟨.nil, h⟩
  refine ⟨?_, hset fun hshows => absurd hshows (by decide), ?_,
    hset fun hshows => absurd hshows (by decide)⟩
  · intro o ho
    rw [List.mem_singleton.mp ho]
    refine ⟨fun hTf => absurd hTf (by decide), ?_⟩
    rintro _ ⟨⟩
    exact Or.inr List.mem_cons_self
  · intro o ho hmarks
    rw [List.mem_singleton.mp ho] at hmarks
    exact absurd hmarks (by decide)

end Kura.Engine.GlyphClean
