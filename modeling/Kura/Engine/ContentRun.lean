import Kura.Engine.ContentEffect

/-!
# The filter and its two readers

One reader goes through the stream with the filter, another reads the text of
the filter. A token is a part of the content, ends an image or only moves the
first reader; `moved_run` says so for every prefix of a stream.
-/

namespace Kura.Engine

namespace ContentFixFilter

open Base (Delim idle counts tally)
open ContentReader (readAll)

variable {q : Qpdf} {m : FixMode} {s s' : ContentFixFilter} {r r' : ContentReader} {t : Token}

/-- The filter and the reader of its stream stand at the same place. -/
structure At (s : ContentFixFilter) (r : ContentReader) : Prop where
  flags : s.flags = (decide (r.place = .image), decide (r.place = .afterImage))
  held : r.place = .image → s.heldName = none ∧ s.heldTrail = []

/-- What a token does to the filter and to the reader of its stream. -/
inductive Moved (q : Qpdf) (m : FixMode) (s : ContentFixFilter) (t : Token) (s' : ContentFixFilter)
    (r r' : ContentReader) : Prop
  | part (hbi : t.isWord "BI" = false) (heffect : Effect q m s t s')
      (hr : r' = ContentReader.part { r with place := .content } t)
  | image {ts : List Token} (p : ReaderPlace) (hr : r' = { r.operator .image with place := p })
      (htext : s'.text = s.text ++ ts)
      (hread : ∀ c : ContentReader, c.place = .content →
        ts.foldl ContentReader.read c = c.operator .image)
      (hsame : SameCounters s s')
  | skip (p : ReaderPlace) (hr : r' = { r with place := p }) (htext : s'.text = s.text)
      (hsame : SameCounters s s')

/-- A step of both, with what has been written by then. -/
structure Step (q : Qpdf) (m : FixMode) (s : ContentFixFilter) (t : Token) (s' : ContentFixFilter)
    (r r' : ContentReader) : Prop where
  moved : Moved q m s t s' r r'
  at_next : At s' r'
  out : s'.out = s.out ∨ s'.out = s.text ∨ s'.out = s'.text

/-- A token outside of images. -/
theorem step_content (hflags : s.flags = (false, false)) :
    Step q m s t (s.contentToken q m t) r (r.content t) := by
  rw [ContentReader.content]
  by_cases hbi : t.isWord "BI" = true
  · obtain ⟨htext, hname, htrail, hflags', hsame⟩ := contentToken_start (q := q) (m := m) s hbi
    rw [if_pos hbi]
    refine ⟨.skip .image rfl htext hsame, ⟨?_, fun _ => ⟨hname, htrail⟩⟩,
      Or.inr (Or.inr (text_of_empty hname htrail).symm)⟩
    have hswallow : s.swallowEI = false := congrArg Prod.snd hflags
    rw [hflags', hswallow]
    rfl
  · have hbi' : t.isWord "BI" = false := Bool.not_eq_true _ ▸ hbi
    have hframe := frame_contentToken (q := q) (m := m) s hbi'
    rw [if_neg hbi]
    refine ⟨.part hbi' (effect_content s hbi') rfl, ⟨?_, ?_⟩, hframe.out⟩
    · rw [hframe.flags, hflags, ContentReader.place_part]
      rfl
    · rw [ContentReader.place_part]
      intro h
      cases h

/-- A token inside of an image. -/
theorem step_image (hq : q.Lawful) (hs : Sound m s) (h : At s r) (hplace : r.place = .image) :
    Step q m s t (s.imageToken q t) r (r.read t) := by
  obtain ⟨hname, htrail⟩ := h.held hplace
  have htext : s.text = s.out := text_of_empty hname htrail
  have hall : ∀ c : ContentFixFilter, c.heldName = s.heldName → c.heldTrail = s.heldTrail →
      c.out = c.text := fun c hn ht => (text_of_empty (hn.trans hname) (ht.trans htrail)).symm
  have hadd : ∀ (c : ContentFixFilter) (ts : List Token), c.heldName = s.heldName →
      c.heldTrail = s.heldTrail → c.out = s.out ++ ts → c.text = s.text ++ ts := by
    intro c ts hn ht hout
    rw [← hall c hn ht, hout, htext]
  have hflags : s.flags = (true, false) := by
    rw [h.flags, hplace]
    rfl
  have hstay : r = { r with place := .image } := by rw [← hplace]
  rw [ContentReader.read_image hplace, imageToken]
  by_cases hid : t.isWord "ID" = true
  · rw [if_pos hid, if_pos hid]
    exact ⟨.skip .image hstay rfl ⟨rfl, rfl⟩, h, Or.inl rfl⟩
  rw [if_neg hid, if_neg hid]
  by_cases hdata : t.type = .inlineImage
  · obtain ⟨entries, data, hwritten, hplain, -⟩ := processInlineImage_again hq t.raw hs.iiToks
    have hread : ∀ c : ContentReader, c.place = .content →
        (processInlineImage q s.iiToks t.raw).written.foldl ContentReader.read c =
          c.operator .image := by
      intro c hc
      rw [hwritten]
      exact ContentReader.foldl_read_imageTokens hc hplain data
    rw [if_pos hdata, if_pos hdata]
    exact ⟨.image .afterImage rfl (hadd _ _ rfl rfl rfl) hread ⟨rfl, rfl⟩,
      ⟨rfl, fun h => (by cases h)⟩, Or.inr (Or.inr (hall _ rfl rfl))⟩
  rw [if_neg hdata, if_neg hdata]
  by_cases hei : t.isWord "EI" = true
  · have hswallow : s.swallowEI = false := congrArg Prod.snd hflags
    rw [if_pos hei, if_pos hei]
    exact ⟨.image .content rfl (hadd _ _ rfl rfl rfl)
      (fun c hc => ContentReader.foldl_read_cutImageTokens hc hs.iiToks) ⟨rfl, rfl⟩,
      ⟨congrArg (Prod.mk false) hswallow, fun h => (by cases h)⟩,
      Or.inr (Or.inr (hall _ rfl rfl))⟩
  · rw [if_neg hei, if_neg hei]
    exact ⟨.skip .image hstay rfl ⟨rfl, rfl⟩, ⟨h.flags, h.held⟩, Or.inl rfl⟩

/-- One token of the stream. -/
theorem step_handleToken (hq : q.Lawful) (hs : Sound m s) (h : At s r) :
    Step q m s t (handleToken q m s t) r (r.read t) := by
  have hflags : ∀ p, r.place = p → s.flags = (decide (p = .image), decide (p = .afterImage)) := by
    rintro p rfl
    exact h.flags
  rw [handleToken]
  cases hplace : r.place with
  | image =>
      have himage : s.inImageDict = true := congrArg Prod.fst (hflags _ hplace)
      rw [if_pos himage]
      exact step_image hq hs h hplace
  | content =>
      have hf : s.flags = (false, false) := hflags _ hplace
      have hread : r.read t = r.content t := by rw [ContentReader.read, hplace]
      have himage : s.inImageDict = false := congrArg Prod.fst hf
      have hswallow : s.swallowEI = false := congrArg Prod.snd hf
      rw [if_neg (ne_true_of_eq_false himage), if_neg (ne_true_of_eq_false hswallow), hread]
      exact step_content hf
  | afterImage =>
      have hf : s.flags = (false, true) := hflags _ hplace
      have hclear : flags { s with swallowEI := false } = (false, false) :=
        congrArg (fun p : Bool × Bool => (p.1, false)) hf
      have himage : s.inImageDict = false := congrArg Prod.fst hf
      have hswallow : s.swallowEI = true := congrArg Prod.snd hf
      rw [if_neg (ne_true_of_eq_false himage), if_pos hswallow,
        ContentReader.read_afterImage hplace]
      by_cases hspace : t.type = .space
      · have hstay : r = { r with place := .afterImage } := by rw [← hplace]
        rw [if_pos hspace, if_pos hspace]
        exact ⟨.skip .afterImage hstay rfl ⟨rfl, rfl⟩, h, Or.inl rfl⟩
      rw [if_neg hspace, if_neg hspace]
      by_cases hei : t.isWord "EI" = true
      · rw [if_pos hei, if_pos hei]
        exact ⟨.skip .content rfl rfl ⟨rfl, rfl⟩,
          ⟨congrArg (·, false) himage, fun h => (by cases h)⟩, Or.inl rfl⟩
      · rw [if_neg hei, if_neg hei]
        obtain ⟨hmoved, hat, hout⟩ := step_content (q := q) (m := m) (r := r) (t := t) hclear
        refine ⟨?_, hat, hout⟩
        cases hmoved with
        | part hbi heffect hr => exact .part hbi (heffect.congr rfl rfl rfl rfl rfl) hr
        | image p hr htext hread hsame => exact .image p hr htext hread hsame
        | skip p hr htext hsame => exact .skip p hr htext hsame

theorem run_append (toks : List Token) (t : Token) :
    run q m (toks ++ [t]) = handleToken q m (run q m toks) t := List.foldl_concat ..

theorem readAll_concat (toks : List Token) (t : Token) :
    readAll (toks ++ [t]) = (readAll toks).read t := List.foldl_concat ..

theorem sound_run (hq : q.Lawful) (toks : List Token) : Sound m (run q m toks) := by
  obtain ⟨k, hagrees, -⟩ := Transition.foldl_count
    (fun s n t (h : Agrees q m s n) => h.handleToken hq t) agrees_start toks
  exact hagrees.sound

theorem at_run (hq : q.Lawful) (toks : List Token) : At (run q m toks) (readAll toks) := by
  induction toks using List.reverseRecOn with
  | nil => exact ⟨rfl, fun h => (by cases h)⟩
  | append_singleton toks t ih =>
      rw [run_append, readAll_concat]
      exact (step_handleToken hq (sound_run hq toks) ih).at_next

/-- One more token of a stream. -/
theorem moved_run (hq : q.Lawful) (toks : List Token) (t : Token) :
    Step q m (run q m toks) t (run q m (toks ++ [t])) (readAll toks) (readAll (toks ++ [t])) := by
  rw [run_append, readAll_concat]
  exact step_handleToken hq (sound_run hq toks) (at_run hq toks)

theorem isWord_of_role {k : Role} (h : t.role = k)
    (hk : ∀ w, k ≠ .operator (.word w)) (w : String) :
    t.isWord w = false := by
  refine ContentReader.isWord_eq_false ?_ w
  intro htype
  refine hk t.value ?_
  rw [← h]
  simp [Token.role, htype]

theorem text_of_held {n : Token} (hn : s.heldName = some n) :
    s.text = s.out ++ n :: s.heldTrail := by
  simp [text, flushHeld, hn]

/-- The reader of a text that ends with a name held back. -/
theorem readAll_held (hs : Sound m s) (hplace : (readAll s.out).place = .content) {n : Token}
    (hn : n.role = .operand) :
    readAll (s.out ++ n :: s.heldTrail) =
      { readAll s.out with pending := (readAll s.out).pending ++ [n] } := by
  have hbi : n.isWord "BI" = false := isWord_of_role hn (fun w h => by cases h) "BI"
  have hone : (readAll s.out).read n =
      { readAll s.out with pending := (readAll s.out).pending ++ [n] } := by
    rw [ContentReader.read_content hplace hbi, ContentReader.part, hn]
  rw [ContentReader.readAll_append, List.foldl_cons, hone]
  exact ContentReader.foldl_read_blanks hplace hs.heldTrail

/-- The reader of the text stands outside of images after every token. -/
theorem place_text (hq : q.Lawful) (toks : List Token) :
    (readAll (run q m toks).out).place = .content ∧
      (readAll (run q m toks).text).place = .content := by
  induction toks using List.reverseRecOn with
  | nil => exact ⟨rfl, rfl⟩
  | append_singleton toks t ih =>
      obtain ⟨hmoved, -, hout⟩ := moved_run (m := m) hq toks t
      have hadd : ∀ {ts : List Token} {t' : Token}, (readAll ts).place = .content →
          t'.isWord "BI" = false → (readAll (ts ++ [t'])).place = .content := by
        intro ts t' hts ht'
        rw [readAll_concat, ContentReader.read_content hts ht', ContentReader.place_part]
        exact hts
      have htext : (readAll (run q m (toks ++ [t])).text).place = .content := by
        cases hmoved with
        | part hbi heffect hr =>
            cases heffect with
            | blank hrole ht hsame =>
                rw [ht]
                exact hadd ih.2 hbi
            | operand hrole hrole' hclamped ht hsame =>
                rw [ht]
                exact hadd ih.2 (isWord_of_role hrole' (fun w h => by cases h) _)
            | bracket hrole ht hdepth hnest =>
                rw [ht]
                split
                · rw [List.append_nil]
                  exact ih.2
                · exact hadd ih.2 hbi
            | dropped hrole hdrops ht hdepth hnest =>
                rw [ht]
                exact ih.2
            | written hrole hdrops hts ht hdepth hnest =>
                rw [ht]
                refine hadd ?_ hbi
                obtain rfl | ⟨-, n, hn, -, rfl⟩ := hts
                · exact ih.2
                · rw [readAll_held (sound_run hq toks) ih.1 (role_name rfl)]
                  exact ih.1
        | image p hr ht hread hsame =>
            rw [ht, ContentReader.readAll_append, hread _ ih.2]
            exact ih.2
        | skip p hr ht hsame =>
            rw [ht]
            exact ih.2
      refine ⟨?_, htext⟩
      obtain h | h | h := hout
      · rw [h]
        exact ih.1
      · rw [h]
        exact ih.2
      · rw [h]
        exact htext

end ContentFixFilter

end Kura.Engine
