import Kura.Engine.ContentRun
import Kura.Engine.PlainPdf

/-!
# Brackets of a filtered stream

The filter counts arrays and dictionaries apart, drops the closers that close
nothing and closes at the end first all arrays and then all dictionaries. So
its text is nested exactly if the stream has no closer of the wrong kind and
leaves no dictionary open inside of an open array.
-/

namespace Kura.Engine

open Base (Delim Nested counts idle keep scanOpen)

/-- The brackets a token stands for. -/
def Role.brackets : Role → List (Delim Bracket)
  | .bracket d => [d]
  | _ => []

namespace ContentReader

theorem brackets_part (r : ContentReader) (t : Token) :
    (r.part t).brackets = r.brackets ++ t.role.brackets := by
  rw [part]
  cases t.role with
  | bracket d => rfl
  | _ => exact (List.append_nil _).symm

/-- What one more token of the content adds. -/
theorem brackets_readAll_concat {ts : List Token} {t : Token} (h : (readAll ts).place = .content)
    (hbi : t.isWord "BI" = false) :
    (readAll (ts ++ [t])).brackets = (readAll ts).brackets ++ t.role.brackets := by
  rw [readAll_append, List.foldl_cons, List.foldl_nil, read_content h hbi, brackets_part]

/-- The brackets of a stream can be closed at its end, the arrays before the dictionaries. -/
def Orderly (w : List (Delim Bracket)) : Prop :=
  ∃ arrays dicts : Nat,
    scanOpen [] w = some (List.replicate arrays .array ++ List.replicate dicts .dict)

end ContentReader

namespace ContentFixFilter

open ContentReader (readAll)

variable {q : Qpdf} {m : FixMode} {s s' : ContentFixFilter} {t : Token}

/-- The brackets of the text and the counters of the filter, from the brackets of the stream. -/
structure Balance (s : ContentFixFilter) (w : List (Delim Bracket)) : Prop where
  text : (readAll s.text).brackets = keep (fun _ => 0) w
  depth : s.depth = counts (fun _ => 0) w

theorem Balance.same {w : List (Delim Bracket)} (h : Balance s w)
    (htext : (readAll s'.text).brackets = (readAll s.text).brackets) (hdepth : s'.depth = s.depth) :
    Balance s' w := ⟨htext.trans h.text, hdepth.trans h.depth⟩

/-- A bracket is written unless it closes nothing. -/
theorem Balance.bracket {w : List (Delim Bracket)} {d : Delim Bracket} (h : Balance s w)
    (htext : (readAll s'.text).brackets =
      (readAll s.text).brackets ++ if idle s.depth d then [] else [d])
    (hdepth : s'.depth = Base.tally s.depth d) : Balance s' (w ++ [d]) := by
  constructor
  · have hkeep : keep s.depth [d] = if idle s.depth d then [] else [d] := rfl
    rw [htext, Base.keep_append, ← h.depth, h.text, hkeep]
  · rw [hdepth, Base.counts_append, ← h.depth]
    rfl

/-- The effect of a token on the brackets. -/
theorem Balance.effect {w : List (Delim Bracket)} (h : Balance s w) (hs : Sound m s)
    (hout : (readAll s.out).place = .content) (hplace : (readAll s.text).place = .content)
    (hbi : t.isWord "BI" = false) (heffect : Effect q m s t s') :
    Balance s' (w ++ t.role.brackets) := by
  have hadd : ∀ {u : Token}, u.isWord "BI" = false →
      (readAll (s.text ++ [u])).brackets = (readAll s.text).brackets ++ u.role.brackets :=
    fun hu => ContentReader.brackets_readAll_concat hplace hu
  cases heffect with
  | blank hrole htext hsame =>
      have hnone : t.role.brackets = [] := by rw [hrole]; rfl
      rw [hnone, List.append_nil]
      refine h.same ?_ hsame.1
      rw [htext, hadd hbi, hnone, List.append_nil]
  | @operand t' hrole hrole' hclamped htext hsame =>
      have hnone : t.role.brackets = [] := by rw [hrole]; rfl
      have hnone' : t'.role.brackets = [] := by rw [hrole']; rfl
      have hbi' := isWord_of_role hrole' (fun w h => by cases h) "BI"
      rw [hnone, List.append_nil]
      refine h.same ?_ hsame.1
      rw [htext, hadd hbi', hnone', List.append_nil]
  | @bracket d hrole htext hdepth hnest =>
      have hone : t.role.brackets = [d] := by rw [hrole]; rfl
      rw [hone]
      refine h.bracket ?_ hdepth
      rw [htext]
      split
      · rw [List.append_nil, List.append_nil]
      · rw [hadd hbi, hone]
  | dropped hrole hdrops htext hdepth hnest =>
      have hnone : t.role.brackets = [] := by rw [hrole]; rfl
      rw [hnone, List.append_nil]
      exact h.same (by rw [htext]) hdepth
  | @written k ts hrole hdrops hts htext hdepth hnest =>
      have hnone : t.role.brackets = [] := by rw [hrole]; rfl
      rw [hnone, List.append_nil]
      refine h.same ?_ hdepth
      -- An intent that is replaced is a name, before and after.
      have hsame : (readAll ts).place = .content ∧
          (readAll ts).brackets = (readAll s.text).brackets := by
        obtain rfl | ⟨-, n, hn, -, rfl⟩ := hts
        · exact ⟨hplace, rfl⟩
        · have hname := role_name (hs.heldName n hn).1
          rw [text_of_held hn, readAll_held hs hout (role_name rfl), readAll_held hs hout hname]
          exact ⟨hout, rfl⟩
      rw [htext, ContentReader.brackets_readAll_concat hsame.1 hbi, hsame.2, hnone, List.append_nil]

/-- The brackets after every token. -/
theorem balance_run (hq : q.Lawful) (toks : List Token) :
    Balance (run q m toks) (readAll toks).brackets := by
  induction toks using List.reverseRecOn with
  | nil => exact ⟨rfl, by funext b; cases b <;> rfl⟩
  | append_singleton toks t ih =>
      obtain ⟨hout, hplace⟩ := place_text (m := m) hq toks
      obtain ⟨hmoved, -, -⟩ := moved_run (m := m) hq toks t
      cases hmoved with
      | part hbi heffect hr =>
          rw [hr, ContentReader.brackets_part]
          exact ih.effect (sound_run hq toks) hout hplace hbi heffect
      | image p hr htext hread hsame =>
          rw [hr]
          refine ih.same ?_ hsame.1
          rw [htext, ContentReader.readAll_append, hread _ hplace]
          rfl
      | skip p hr htext hsame =>
          rw [hr]
          exact ih.same (by rw [htext]) hsame.1

/-- A row of the same closer is read as that many closers. -/
theorem brackets_foldl_replicate {r : ContentReader} {t : Token} (n : Nat)
    (h : r.place = .content) (hbi : t.isWord "BI" = false) {b : Bracket}
    (hrole : t.role = .bracket (.closer b)) :
    ((List.replicate n t).foldl ContentReader.read r).place = .content ∧
      ((List.replicate n t).foldl ContentReader.read r).brackets =
        r.brackets ++ (List.replicate n b).map .closer := by
  induction n generalizing r with
  | zero => exact ⟨h, (List.append_nil _).symm⟩
  | succ n ih =>
      have hone : (r.part t).brackets = r.brackets ++ [.closer b] := by
        rw [ContentReader.brackets_part, hrole]
        rfl
      obtain ⟨hplace, hrest⟩ := ih (r := r.part t) (ContentReader.place_part.trans h)
      rw [List.replicate_succ, List.foldl_cons, ContentReader.read_content h hbi]
      refine ⟨hplace, ?_⟩
      rw [hrest, hone]
      simp [List.replicate_succ]

/-- The brackets of the whole output. -/
theorem brackets_filterTokens (hq : q.Lawful) (toks : List Token) :
    (readAll (filterTokens q m toks).out).brackets =
      keep (fun _ => 0) (readAll toks).brackets ++
        (List.replicate (run q m toks).arrDepth Bracket.array ++
          List.replicate (run q m toks).dictDepth Bracket.dict).map .closer := by
  have hplace := (place_text (m := m) hq toks).2
  have hout : (filterTokens q m toks).out = ((run q m toks).text ++
      List.replicate (run q m toks).arrDepth (.plain .arrayClose (lit "]"))) ++
        List.replicate (run q m toks).dictDepth (.plain .dictClose (lit ">>")) := rfl
  obtain ⟨hplaceArr, harr⟩ := brackets_foldl_replicate (run q m toks).arrDepth hplace
    (t := .plain .arrayClose (lit "]")) rfl (b := .array) rfl
  obtain ⟨-, hdict⟩ := brackets_foldl_replicate (run q m toks).dictDepth hplaceArr
    (t := .plain .dictClose (lit ">>")) rfl (b := .dict) rfl
  rw [hout, ContentReader.readAll_append, ContentReader.readAll_append, hdict, harr,
    (balance_run hq toks).text, List.map_append, List.append_assoc]

/-- The brackets of the output are nested exactly if every closer of the stream with an open
bracket of its kind closes the innermost bracket, and no dictionary stays open in an array. -/
theorem nested_output_iff (q : Qpdf) (hq : q.Lawful) (m : FixMode) (toks : List Token) :
    Nested (readAll (filterTokens q m toks).out).brackets ↔
      ContentReader.Orderly (readAll toks).brackets := by
  rw [brackets_filterTokens hq, Base.nested_keep_iff, ContentReader.Orderly]
  constructor
  · intro h
    exact ⟨_, _, h⟩
  · rintro ⟨arrays, dicts, h⟩
    have hcounts := Base.counts_of_scanOpen h
    have hdepth := (balance_run (m := m) hq toks).depth
    have harr : (run q m toks).arrDepth = arrays := by
      have hone := congrFun (hdepth.trans hcounts) .array
      simpa [Base.sizes, depth, List.count_replicate] using hone
    have hdict : (run q m toks).dictDepth = dicts := by
      have hone := congrFun (hdepth.trans hcounts) .dict
      simpa [Base.sizes, depth, List.count_replicate] using hone
    rw [harr, hdict, h]

/-- Two brackets that are not closed. -/
def openStream (first second : TokenType) : List Token :=
  [.plain first [], .blank, .plain second [], .blank]

/-- An array left open inside of a dictionary is closed in order. -/
theorem openStream_nested :
    Nested (readAll (filterTokens PlainPdf.library ⟨true, false, false⟩
      (openStream .dictOpen .arrayOpen)).out).brackets :=
  (nested_output_iff PlainPdf.library PlainPdf.library_lawful ⟨true, false, false⟩
    (openStream .dictOpen .arrayOpen)).mpr ⟨1, 1, rfl⟩

/-- A dictionary left open inside of an array is closed after the array. -/
theorem openStream_crossed :
    ¬ Nested (readAll (filterTokens PlainPdf.library ⟨true, false, false⟩
      (openStream .arrayOpen .dictOpen)).out).brackets := by
  rw [Base.nested_iff_scan]
  decide

end ContentFixFilter

end Kura.Engine
