import Kura.Engine.FontWidths

/-!
# What a repair of widths leaves to the check

A font that was repaired passes the check, and widths close to those of the
program stay as they are, exactly if the two slips of the repair do not come
to bear: it keeps the width of a code without a glyph and does not see the
width of codes that are not declared, and for composite fonts it measures
against rounded advances and then writes all of them.
-/

namespace Kura.Engine.FontWidths

open Base (toInt32 lround abs_lround_sub_le)
open Kura.Engine.Jobs

theorem differs_eq_false_iff {limit declared progW : ℚ} :
    differs limit declared progW = false ↔ |declared - progW| ≤ limit := by
  rw [differs, decide_eq_false_iff_not, not_lt]

theorem differs_eq_true_iff {limit declared progW : ℚ} :
    differs limit declared progW = true ↔ limit < |declared - progW| := by
  rw [differs, decide_eq_true_eq]

/-- No difference of widths is reported. -/
def Clean (issues : List Issue) : Prop := ∀ i ∈ issues, i.code ≠ "FONT_WIDTHS_SYNCED"

theorem clean_report_iff {bad : List Nat} {detail : String} :
    Clean (if bad.length = 0 then [] else [widthsSynced detail]) ↔ bad = [] := by
  split
  · rename_i hnone
    exact iff_of_true (fun i hi => by cases hi) (List.length_eq_zero_iff.mp hnone)
  · rename_i hsome
    refine iff_of_false (fun hclean => ?_) fun hnil => hsome (List.length_eq_zero_iff.mpr hnil)
    exact hclean _ List.mem_cons_self rfl

section Simple

variable {face : SimpleFace} {declared : Nat → Option ℚ} {missing : ℚ}

/-- The repair has nothing to do for any code. -/
def Untouched (face : SimpleFace) (declared : Nat → Option ℚ) : Prop :=
  ∀ code < 256, 0 ≤ simpleAdvance face code →
    (∀ w, declared code = some w → (face.gidOf code = 0 ∧ w ≠ 0) ∨
      |w - simpleAdvance face code| ≤ 9 / 10) ∧
    (declared code = none → lround (simpleAdvance face code) = 0)

/-- The repair keeps a width that is near the one of the glyph. -/
theorem isKept_repairCode_iff (code : Nat) :
    (repairCode face declared code).isKept = true ↔
      (0 ≤ simpleAdvance face code →
        (∀ w, declared code = some w → (face.gidOf code = 0 ∧ w ≠ 0) ∨
          |w - simpleAdvance face code| ≤ 9 / 10) ∧
        (declared code = none → lround (simpleAdvance face code) = 0)) := by
  unfold repairCode
  dsimp only
  cases hdecl : declared code with
  | none =>
      dsimp only
      split
      · rename_i hneg
        exact iff_of_true rfl fun hpos => absurd hneg (not_lt.mpr hpos)
      · rename_i hpos
        split
        · rename_i hround
          refine iff_of_false Bool.false_ne_true fun h => ?_
          exact hround ((h (not_lt.mp hpos)).2 rfl)
        · rename_i hround
          refine iff_of_true rfl fun _ => ⟨fun w hw => ?_, fun _ => not_not.mp hround⟩
          cases hw
  | some w =>
      dsimp only
      split
      · rename_i hnotdef
        refine iff_of_true rfl fun _ => ⟨fun w' hw => ?_, fun hnone => by cases hnone⟩
        cases hw
        exact .inl hnotdef
      · rename_i hglyph
        split
        · rename_i hneg
          exact iff_of_true rfl fun hpos => absurd hneg (not_lt.mpr hpos)
        · rename_i hpos
          split
          · rename_i hdiffers
            refine iff_of_false Bool.false_ne_true fun h => ?_
            obtain hnotdef | hclose := (h (not_lt.mp hpos)).1 w rfl
            · exact hglyph hnotdef
            · exact absurd hclose (not_le.mpr (differs_eq_true_iff.mp hdiffers))
          · rename_i hdiffers
            refine iff_of_true rfl fun _ => ⟨fun w' hw => ?_, fun hnone => by cases hnone⟩
            cases hw
            exact .inr (differs_eq_false_iff.mp (by simpa using hdiffers))

theorem all_isKept_iff :
    ((List.range 256).map (repairCode face declared)).all Repair.isKept = true ↔
      Untouched face declared := by
  rw [List.all_map, List.all_eq_true]
  constructor
  · intro h code hcode
    exact (isKept_repairCode_iff code).mp (h code (List.mem_range.mpr hcode))
  · intro h code hcode
    exact (isKept_repairCode_iff code).mpr (h code (List.mem_range.mp hcode))

/-- The width that the repair leaves for a code with an advance: it is close to the advance, unless
the code has no glyph and a width. -/
theorem width_repairCode {code : Nat} (hpos : 0 ≤ simpleAdvance face code) :
    (∀ w, declared code = some w →
      (face.gidOf code = 0 ∧ w ≠ 0 → (repairCode face declared code).width = w) ∧
      (|w - simpleAdvance face code| ≤ 9 / 10 → (repairCode face declared code).width = w) ∧
      (¬ (face.gidOf code = 0 ∧ w ≠ 0) →
        |(repairCode face declared code).width - simpleAdvance face code| ≤ 1)) ∧
    (declared code = none →
      (repairCode face declared code).width = lround (simpleAdvance face code)) := by
  have hneg : ¬ simpleAdvance face code < 0 := not_lt.mpr hpos
  have hround := abs_lround_sub_le (simpleAdvance face code)
  constructor
  · intro w hw
    unfold repairCode
    rw [hw]
    dsimp only
    rw [if_neg hneg]
    refine ⟨fun hnotdef => ?_, fun hclose => ?_, fun hglyph => ?_⟩
    · rw [if_pos hnotdef]
      rfl
    · rw [differs_eq_false_iff.mpr hclose]
      split
      · rfl
      · rfl
    · rw [if_neg hglyph]
      split
      · exact le_trans hround (by norm_num)
      · rename_i hdiffers
        have hclose := differs_eq_false_iff.mp (by simpa using hdiffers)
        exact le_trans hclose (by norm_num)
  · intro hnone
    unfold repairCode
    rw [hnone]
    dsimp only
    rw [if_neg hneg]
    split
    · rfl
    · rename_i hzero
      rw [not_not.mp hzero]
      rfl

theorem badCodes_eq_nil_iff {codes : List Nat} :
    badCodes face declared missing codes = [] ↔
      ∀ code ∈ codes, code ≤ 255 → 0 ≤ simpleAdvance face code →
        |(declared code).getD missing - simpleAdvance face code| ≤ 1 := by
  rw [badCodes, List.filter_eq_nil_iff]
  constructor
  · intro h code hcode hsmall hpos
    have hnot := h code hcode
    by_contra hfar
    apply hnot
    rw [Bool.and_eq_true, Bool.and_eq_true]
    exact ⟨⟨by simpa using hsmall, by simpa using hpos⟩,
      differs_eq_true_iff.mpr (not_le.mp hfar)⟩
  · intro h code hcode hbad
    rw [Bool.and_eq_true, Bool.and_eq_true, decide_eq_true_eq, decide_eq_true_eq] at hbad
    exact absurd (h code hcode hbad.1.1 hbad.1.2) (not_le.mpr (differs_eq_true_iff.mp hbad.2))

/-- The array that the repair writes has a width for every code. -/
theorem declaredWidth_full {code : Nat} (hcode : code < 256) :
    declaredWidth 0 255 (((List.range 256).map (repairCode face declared)).map
      fun r => some r.width) code = some (repairCode face declared code).width := by
  have hfirst : toInt32 0 = 0 := by decide
  have hlast : toInt32 255 = 255 := by decide
  have hlen : (((List.range 256).map (repairCode face declared)).map
      fun r => some r.width).length = 256 := by simp
  rw [declaredWidth, hfirst, hlast, hlen, if_pos ⟨by omega, by omega, by omega⟩]
  simp [hcode]

/-- What is repaired and checked: the program and the widths that are declared. -/
def SimpleFont.ready (font : SimpleFont) : Option (SimpleFace × (Nat → Option ℚ)) :=
  match font.program, font.firstChar, font.lastChar, font.widths with
  | .face face, some first, some last, some widths =>
      some (face, declaredWidth first last widths)
  | _, _, _, _ => none

/-- The width of a code. -/
def SimpleFont.width (font : SimpleFont) (code : Nat) : ℚ :=
  (font.ready.bind fun r => r.2 code).getD (font.missingWidth.getD 0)

/-- Repaired fonts pass the check, and the repair keeps widths close to those of the program. -/
structure SimpleRepaired (font : SimpleFont) (codes : List Nat) : Prop where
  clean : Clean (syncSimpleFontWidths (syncSimpleFontWidths font none).1 (some codes)).2
  kept : ∀ face declared, font.ready = some (face, declared) → ∀ code < 256,
    0 ≤ simpleAdvance face code → |font.width code - simpleAdvance face code| ≤ 9 / 10 →
    (syncSimpleFontWidths font none).1.width code = font.width code

/-- Used codes without a glyph have a width close to that of the program or none; if the repair
has nothing to do, then so do used codes that are not declared; if it has, the width of missing
codes is not close to the advance of such a code without being it. -/
structure SimpleHolds (font : SimpleFont) (codes : List Nat) : Prop where
  notdef : ∀ face declared, font.ready = some (face, declared) → ∀ code ∈ codes, code ≤ 255 →
    0 ≤ simpleAdvance face code → face.gidOf code = 0 → ∀ w, declared code = some w → w ≠ 0 →
    |w - simpleAdvance face code| ≤ 1
  missing : ∀ face declared, font.ready = some (face, declared) → Untouched face declared →
    ∀ code ∈ codes, code ≤ 255 → 0 ≤ simpleAdvance face code → declared code = none →
    |font.missingWidth.getD 0 - simpleAdvance face code| ≤ 1
  undeclared : ∀ face declared, font.ready = some (face, declared) →
    ¬ Untouched face declared → ∀ code < 256, 0 ≤ simpleAdvance face code →
    declared code = none → |font.missingWidth.getD 0 - simpleAdvance face code| ≤ 9 / 10 →
    font.missingWidth.getD 0 = lround (simpleAdvance face code)

theorem sync_of_not_ready {font : SimpleFont} (h : font.ready = none) (use : Option (List Nat)) :
    (syncSimpleFontWidths font use).1 = font ∧ Clean (syncSimpleFontWidths font use).2 := by
  unfold SimpleFont.ready at h
  unfold syncSimpleFontWidths
  split
  · refine ⟨rfl, fun i hi => ?_⟩
    rw [List.mem_singleton.mp hi]
    show "FONT_PROGRAM_UNREADABLE" ≠ "FONT_WIDTHS_SYNCED"
    decide
  · rename_i hprogram hfirst hlast hwidths
    rw [hprogram, hfirst, hlast, hwidths] at h
    cases h
  · exact ⟨rfl, fun i hi => by cases hi⟩

/-- The parts of a font that is repaired and checked. -/
theorem ready_eq_some_iff {font : SimpleFont} {r : SimpleFace × (Nat → Option ℚ)} :
    font.ready = some r ↔ ∃ first last widths, font.program = .face r.1 ∧
      font.firstChar = some first ∧ font.lastChar = some last ∧ font.widths = some widths ∧
      r.2 = declaredWidth first last widths := by
  constructor
  · intro h
    unfold SimpleFont.ready at h
    split at h
    · rename_i face first last widths hprogram hfirst hlast hwidths
      cases h
      exact ⟨first, last, widths, hprogram, hfirst, hlast, hwidths, rfl⟩
    · cases h
  · rintro ⟨first, last, widths, hprogram, hfirst, hlast, hwidths, hdeclared⟩
    rw [SimpleFont.ready, hprogram, hfirst, hlast, hwidths]
    dsimp only
    rw [← hdeclared]

theorem width_of_ready {font : SimpleFont} (h : font.ready = some (face, declared)) (code : Nat) :
    font.width code = (declared code).getD (font.missingWidth.getD 0) := by
  rw [SimpleFont.width, h]
  rfl

theorem check_of_ready {font : SimpleFont} (h : font.ready = some (face, declared))
    (codes : List Nat) : Clean (syncSimpleFontWidths font (some codes)).2 ↔
      ∀ code ∈ codes, code ≤ 255 → 0 ≤ simpleAdvance face code →
        |font.width code - simpleAdvance face code| ≤ 1 := by
  obtain ⟨first, last, widths, hprogram, hfirst, hlast, hwidths, hdeclared⟩ :=
    ready_eq_some_iff.mp h
  dsimp only at hprogram hdeclared
  have hreport : (syncSimpleFontWidths font (some codes)).2 =
      if (badCodes face declared (font.missingWidth.getD 0) codes).length = 0 then []
      else [widthsSynced
        (toString (badCodes face declared (font.missingWidth.getD 0) codes).length ++
        " glyph width(s) of " ++ font.baseFont ++ " differ from the embedded font program")] := by
    rw [syncSimpleFontWidths, hprogram, hfirst, hlast, hwidths, hdeclared]
  rw [hreport, clean_report_iff, badCodes_eq_nil_iff]
  simp only [width_of_ready h]

/-- A simple font with a width for every code. -/
def SimpleFont.rewritten (font : SimpleFont) (face : SimpleFace) (declared : Nat → Option ℚ) :
    SimpleFont :=
  { font with
    firstChar := some 0, lastChar := some 255
    widths := some (((List.range 256).map (repairCode face declared)).map fun r => some r.width) }

theorem rewritten_ready {font : SimpleFont} (hprogram : font.program = .face face) :
    (font.rewritten face declared).ready = some (face, declaredWidth 0 255
      (((List.range 256).map (repairCode face declared)).map fun r => some r.width)) :=
  ready_eq_some_iff.mpr ⟨0, 255, _, hprogram, rfl, rfl, rfl, rfl⟩

theorem rewritten_width {font : SimpleFont} (hprogram : font.program = .face face) {code : Nat}
    (hcode : code < 256) :
    (font.rewritten face declared).width code = (repairCode face declared code).width := by
  rw [width_of_ready (rewritten_ready hprogram), declaredWidth_full hcode]
  rfl

/-- The font after its repair. -/
theorem repair_of_ready {font : SimpleFont} (h : font.ready = some (face, declared)) :
    (Untouched face declared ∧ (syncSimpleFontWidths font none).1 = font) ∨
    (¬ Untouched face declared ∧
      (syncSimpleFontWidths font none).1 = font.rewritten face declared) := by
  obtain ⟨first, last, widths, hprogram, hfirst, hlast, hwidths, hdeclared⟩ :=
    ready_eq_some_iff.mp h
  dsimp only at hprogram hdeclared
  by_cases huntouched : Untouched face declared
  · refine .inl ⟨huntouched, ?_⟩
    have hall := all_isKept_iff.mpr huntouched
    rw [hdeclared] at hall
    simp only [syncSimpleFontWidths, hprogram, hfirst, hlast, hwidths, if_pos hall]
  · refine .inr ⟨huntouched, ?_⟩
    have hall := fun hall => huntouched (all_isKept_iff.mp hall)
    rw [hdeclared] at hall
    simp only [syncSimpleFontWidths, hprogram, hfirst, hlast, hwidths, if_neg hall, hdeclared,
      SimpleFont.rewritten]

/-- A simple font is repaired exactly when the condition holds. -/
theorem simpleRepaired_iff (font : SimpleFont) (codes : List Nat) :
    SimpleRepaired font codes ↔ SimpleHolds font codes := by
  cases hready : font.ready with
  | none =>
      obtain ⟨hsame, -⟩ := sync_of_not_ready hready none
      refine iff_of_true ⟨?_, ?_⟩ ⟨?_, ?_, ?_⟩
      · rw [hsame]
        exact (sync_of_not_ready hready _).2
      all_goals
        intro face declared h
        rw [hready] at h
        cases h
  | some r =>
      obtain ⟨face, declared⟩ := r
      have hwidth := width_of_ready hready
      obtain ⟨first, last, widths, hprogram, -⟩ := ready_eq_some_iff.mp hready
      have hafter : (font.rewritten face declared).ready = some (face, _) :=
        rewritten_ready hprogram
      obtain ⟨huntouched, hsame⟩ | ⟨htouched, hsame⟩ := repair_of_ready hready
      · constructor
        · rintro ⟨hclean, -⟩
          rw [hsame, check_of_ready hready] at hclean
          refine ⟨?_, ?_, ?_⟩
          · intro face' declared' h code hcode hsmall hpos hgid w hw hne
            cases hready.symm.trans h
            have hclose := hclean code hcode hsmall hpos
            rwa [hwidth, hw, Option.getD_some] at hclose
          · intro face' declared' h _ code hcode hsmall hpos hnone
            cases hready.symm.trans h
            have hclose := hclean code hcode hsmall hpos
            rwa [hwidth, hnone, Option.getD_none] at hclose
          · intro face' declared' h htouched
            cases hready.symm.trans h
            exact absurd huntouched htouched
        · intro hholds
          refine ⟨?_, fun _ _ _ _ _ _ _ => by rw [hsame]⟩
          rw [hsame, check_of_ready hready]
          intro code hcode hsmall hpos
          rw [hwidth]
          cases hdecl : declared code with
          | none =>
              exact hholds.missing face declared hready huntouched code hcode hsmall hpos hdecl
          | some w =>
              obtain hnotdef | hclose := (huntouched code (by omega) hpos).1 w hdecl
              · exact hholds.notdef face declared hready code hcode hsmall hpos hnotdef.1 w hdecl
                  hnotdef.2
              · exact le_trans hclose (by norm_num)
      · constructor
        · rintro ⟨hclean, hkept⟩
          rw [hsame, check_of_ready hafter] at hclean
          rw [hsame] at hkept
          refine ⟨?_, ?_, ?_⟩
          · intro face' declared' h code hcode hsmall hpos hgid w hw hne
            cases hready.symm.trans h
            have hclose := hclean code hcode hsmall hpos
            rwa [rewritten_width hprogram (by omega),
              ((width_repairCode hpos).1 w hw).1 ⟨hgid, hne⟩]
              at hclose
          · intro face' declared' h huntouched
            cases hready.symm.trans h
            exact absurd huntouched htouched
          · intro face' declared' h _ code hcode hpos hnone hclose
            cases hready.symm.trans h
            have heq := hkept face declared hready code hcode hpos
              (by rw [hwidth, hnone]; exact hclose)
            rw [rewritten_width hprogram hcode, (width_repairCode hpos).2 hnone,
              hwidth, hnone] at heq
            exact heq.symm
        · intro hholds
          constructor
          · rw [hsame, check_of_ready hafter]
            intro code hcode hsmall hpos
            rw [rewritten_width hprogram (by omega)]
            cases hdecl : declared code with
            | none =>
                rw [(width_repairCode hpos).2 hdecl]
                exact le_trans (abs_lround_sub_le _) (by norm_num)
            | some w =>
                by_cases hnotdef : face.gidOf code = 0 ∧ w ≠ 0
                · rw [((width_repairCode hpos).1 w hdecl).1 hnotdef]
                  exact hholds.notdef face declared hready code hcode hsmall hpos hnotdef.1 w hdecl
                    hnotdef.2
                · exact ((width_repairCode hpos).1 w hdecl).2.2 hnotdef
          · intro face' declared' h code hcode hpos hclose
            cases hready.symm.trans h
            rw [hsame, rewritten_width hprogram hcode, hwidth]
            rw [hwidth] at hclose
            cases hdecl : declared code with
            | none =>
                rw [hdecl] at hclose
                rw [(width_repairCode hpos).2 hdecl]
                exact (hholds.undeclared face declared hready htouched code hcode hpos hdecl
                  hclose).symm
            | some w =>
                rw [hdecl] at hclose
                exact ((width_repairCode hpos).1 w hdecl).2.1 hclose

end Simple

/-- Widths from a CID on, over others. -/
def overlay (i : Nat) (ws : List ℤ) (d : Nat → ℚ) (cid : Nat) : ℚ :=
  if i ≤ cid then ((ws[cid - i]?).map fun w : ℤ => (w : ℚ)).getD (d cid) else d cid

@[simp]
theorem overlay_nil (i : Nat) (d : Nat → ℚ) : overlay i [] d = d := by
  funext cid
  simp [overlay]

theorem overlay_append (i : Nat) (front rest : List ℤ) (d : Nat → ℚ) :
    overlay (i + front.length) rest (overlay i front d) = overlay i (front ++ rest) d := by
  funext cid
  unfold overlay
  by_cases hlow : i ≤ cid
  · by_cases hfront : cid - i < front.length
    · rw [if_neg (by omega), if_pos hlow, if_pos hlow, List.getElem?_append_left hfront]
    · rw [if_pos (by omega), if_pos hlow, if_pos hlow,
        List.getElem?_append_right (by omega), List.getElem?_eq_none (by omega : front.length ≤ _),
        Nat.sub_sub]
      rfl
  · rw [if_neg (by omega), if_neg hlow, if_neg hlow]

theorem overlay_zero {ws : List ℤ} {d : Nat → ℚ} {cid : Nat} {w : ℤ} (h : ws[cid]? = some w) :
    overlay 0 ws d cid = w := by
  rw [overlay, if_pos (Nat.zero_le cid), Nat.sub_zero, h]
  rfl

theorem runLength_pos (x : ℤ) (rest : List ℤ) : 0 < runLength (x :: rest) :=
  Nat.add_pos_left Nat.one_pos _

theorem take_runLength (x : ℤ) (rest : List ℤ) :
    (x :: rest).take (runLength (x :: rest)) = List.replicate (runLength (x :: rest)) x := by
  rw [runLength, Nat.add_comm, List.take_succ_cons, List.replicate_succ]
  congr 1
  rw [List.eq_replicate_iff]
  have hprefix := List.takeWhile_prefix (l := rest) fun y => decide (y = x)
  rw [← List.prefix_iff_eq_take.mp hprefix]
  refine ⟨rfl, fun y hy => ?_⟩
  have hx := List.mem_takeWhile_imp (p := fun y => decide (y = x)) hy
  exact of_decide_eq_true hx

theorem runLength_le (ws : List ℤ) : runLength ws ≤ ws.length := by
  cases ws with
  | nil => exact Nat.le_refl 0
  | cons x rest =>
      have hle := (List.takeWhile_prefix (l := rest) fun y => decide (y = x)).length_le
      rw [runLength, List.length_cons]
      omega

theorem shortRuns_prefix : ∀ (fuel : Nat) (ws : List ℤ), shortRuns fuel ws <+: ws
  | 0, ws => List.nil_prefix
  | fuel + 1, ws => by
      rw [shortRuns]
      split
      · exact List.nil_prefix
      · obtain ⟨rest, hrest⟩ := shortRuns_prefix fuel (ws.drop (runLength ws))
        refine ⟨rest, ?_⟩
        rw [List.append_assoc, hrest, List.take_append_drop]

theorem shortRuns_length_pos {x : ℤ} {rest : List ℤ} (h : ¬ 4 ≤ runLength (x :: rest)) :
    0 < (shortRuns (x :: rest).length (x :: rest)).length := by
  have hle := runLength_le (x :: rest)
  have hpos := runLength_pos x rest
  rw [List.length_cons, shortRuns, if_neg (by simp [h]), List.length_append, List.length_take]
  omega

theorem truncate_natCast (n : Nat) : truncate (n : ℚ) = n := by
  rw [truncate, if_pos (Nat.cast_nonneg n), Int.floor_natCast]

/-- Reading a range of equal widths. -/
theorem readW_range {n i r : Nat} {x : ℤ} {d : Nat → ℚ} (rest : List WItem) (hpos : 0 < r)
    (hn : i + r ≤ n) (hmax : n ≤ 65536) :
    readW n (.num i :: .num (i + r - 1 : Nat) :: .num x :: rest) d =
      readW n rest (overlay i (List.replicate r x) d) := by
  have hlast : ((i + r - 1 : Nat) : ℚ) ≤ 1000000000 := by
    have hnat : i + r - 1 ≤ 1000000000 := by omega
    exact_mod_cast hnat
  rw [readW, min_eq_left hlast, truncate_natCast, truncate_natCast]
  congr 1
  funext cid
  unfold overlay
  by_cases hlow : i ≤ cid
  · rw [if_pos hlow]
    by_cases hhigh : cid - i < r
    · rw [if_pos (by omega), List.getElem?_replicate, if_pos hhigh]
      rfl
    · rw [if_neg (by omega), List.getElem?_replicate, if_neg hhigh]
      rfl
  · rw [if_neg (by omega), if_neg hlow]

/-- Reading a list of widths. -/
theorem readW_list {n i : Nat} {ws : List ℤ} {d : Nat → ℚ} (rest : List WItem)
    (hn : i + ws.length ≤ n) :
    readW n (.num i :: .list (ws.map fun w : ℤ => some (w : ℚ)) :: rest) d =
      readW n rest (overlay i ws d) := by
  rw [readW, truncate_natCast, List.length_map]
  congr 1
  funext cid
  unfold overlay
  by_cases hlow : i ≤ cid
  · rw [if_pos hlow]
    have hsub : ((cid : ℤ) - i).toNat = cid - i := by omega
    by_cases hhigh : cid - i < ws.length
    · rw [if_pos (by omega), hsub, List.getElem?_map, List.getElem?_eq_getElem hhigh]
      rfl
    · rw [if_neg (by omega), List.getElem?_eq_none (by omega)]
      rfl
  · rw [if_neg (by omega), if_neg hlow]

/-- What is read back is what was written. -/
theorem readW_buildW {n : Nat} (hmax : n ≤ 65536) : ∀ (fuel i : Nat) (ws : List ℤ) (d : Nat → ℚ),
    ws.length ≤ fuel → i + ws.length ≤ n → readW n (buildW fuel i ws) d = overlay i ws d
  | 0, i, ws, d, hfuel, _ => by
      rw [List.length_eq_zero_iff.mp (Nat.le_zero.mp hfuel), buildW, overlay_nil, readW]
      all_goals intros; contradiction
  | fuel + 1, i, [], d, _, _ => by
      rw [buildW, overlay_nil, readW]
      all_goals intros; contradiction
  | fuel + 1, i, x :: rest, d, hfuel, hn => by
      have hle := runLength_le (x :: rest)
      have hpos := runLength_pos x rest
      rw [buildW]
      split
      · -- a run is read as one range, and the rest by induction
        rw [readW_range _ hpos (by omega) hmax,
          readW_buildW hmax fuel _ _ _ (by rw [List.length_drop]; omega)
            (by rw [List.length_drop]; omega)]
        have happend := overlay_append i ((x :: rest).take (runLength (x :: rest)))
          ((x :: rest).drop (runLength (x :: rest))) d
        rw [List.length_take, min_eq_left hle, List.take_append_drop, take_runLength] at happend
        exact happend
      · rename_i hshort
        have hlen := shortRuns_length_pos hshort
        obtain ⟨after, hafter⟩ := shortRuns_prefix (x :: rest).length (x :: rest)
        generalize shortRuns (x :: rest).length (x :: rest) = short at hlen hafter ⊢
        dsimp only
        have htotal := congrArg List.length hafter
        rw [List.length_append] at htotal
        rw [readW_list _ (by omega), ← hafter, List.drop_left,
          readW_buildW hmax fuel _ _ _ (by omega) (by omega), overlay_append]

section Composite

variable {font : CidFont} {face : CidFace} {n : Nat}

/-- What is repaired and checked: the program and the number of CIDs. -/
def CidFont.ready (font : CidFont) : Option (CidFace × Nat) :=
  if font.subtype = .other then none
  else
    match font.program with
    | .face face => (numCids font face).map fun n => (face, n)
    | _ => none

/-- A declared width is not close to the rounded advance. -/
def Mismatch (font : CidFont) (face : CidFace) (n : Nat) : Prop :=
  ∃ cid < n, 9 / 10 < |declaredCids font n cid -
    widthOfCid (declaredCids font n) (advanceOf font face) cid|

/-- Repaired fonts pass the check, and the repair keeps widths close to those of the program. -/
structure CidRepaired (font : CidFont) (cids : List Nat) : Prop where
  clean : Clean (syncCidFontWidths (syncCidFontWidths font none).1 (some cids)).2
  kept : ∀ face n, font.ready = some (face, n) → ∀ cid < n, 0 ≤ advanceOf font face cid →
    |declaredCids font n cid - advanceOf font face cid| ≤ 9 / 10 →
    declaredCids (syncCidFontWidths font none).1 n cid = declaredCids font n cid

/-- If no width is far from the rounded advance, then no used one is far from the exact advance;
if one is, then widths close to the exact advance are the rounded one. -/
structure CidHolds (font : CidFont) (cids : List Nat) : Prop where
  rounded : ∀ face n, font.ready = some (face, n) → ¬ Mismatch font face n → ∀ cid ∈ cids,
    cid < n → 0 ≤ advanceOf font face cid →
    |declaredCids font n cid - advanceOf font face cid| ≤ 1
  rebuilt : ∀ face n, font.ready = some (face, n) → Mismatch font face n → ∀ cid < n,
    0 ≤ advanceOf font face cid → |declaredCids font n cid - advanceOf font face cid| ≤ 9 / 10 →
    declaredCids font n cid = lround (advanceOf font face cid)

theorem cidSync_of_not_ready (h : font.ready = none) (use : Option (List Nat)) :
    syncCidFontWidths font use = (font, []) := by
  unfold CidFont.ready at h
  unfold syncCidFontWidths
  by_cases hother : font.subtype = .other
  · rw [if_pos hother]
  · rw [if_neg hother] at h ⊢
    cases hprogram : font.program with
    | absent => rfl
    | unreadable => rfl
    | face face =>
        rw [hprogram] at h
        dsimp only at h ⊢
        rw [Option.map_eq_none_iff.mp h]

/-- The parts of a font that is repaired and checked. -/
theorem cidReady_eq_some_iff :
    font.ready = some (face, n) ↔
      font.subtype ≠ .other ∧ font.program = .face face ∧ numCids font face = some n := by
  unfold CidFont.ready
  by_cases hother : font.subtype = .other
  · rw [if_pos hother]
    exact iff_of_false (fun h => by cases h) fun h => h.1 hother
  · rw [if_neg hother]
    cases hprogram : font.program with
    | absent => exact iff_of_false (fun h => by cases h) fun h => by cases h.2.1
    | unreadable => exact iff_of_false (fun h => by cases h) fun h => by cases h.2.1
    | face own =>
        dsimp only
        rw [Option.map_eq_some_iff]
        constructor
        · rintro ⟨m, hm, hpair⟩
          cases hpair
          exact ⟨hother, rfl, hm⟩
        · rintro ⟨-, hown, hn⟩
          cases hown
          exact ⟨n, hn, rfl⟩

theorem numCids_le (h : numCids font face = some n) : n ≤ 65536 := by
  have hfilter := Option.filter_eq_some_iff.mp h
  have hbound := of_decide_eq_true hfilter.2
  exact hbound.2

/-- The check of a composite font is clean where the widths are near. -/
theorem cidCheck_of_ready (h : font.ready = some (face, n)) (cids : List Nat) :
    Clean (syncCidFontWidths font (some cids)).2 ↔
      ∀ cid ∈ cids, cid < n → 0 ≤ advanceOf font face cid →
        |declaredCids font n cid - advanceOf font face cid| ≤ 1 := by
  obtain ⟨hother, hprogram, hn⟩ := cidReady_eq_some_iff.mp h
  rw [syncCidFontWidths, if_neg hother, hprogram]
  dsimp only
  rw [hn]
  dsimp only
  rw [clean_report_iff, List.filter_eq_nil_iff]
  constructor
  · intro hall cid hcid hlt hpos
    by_contra hfar
    apply hall cid hcid
    rw [Bool.and_eq_true, decide_eq_true_eq, differs_eq_true_iff, exactOfCid,
      if_neg (not_lt.mpr hpos)]
    exact ⟨hlt, not_le.mp hfar⟩
  · intro hall cid hcid hbad
    rw [Bool.and_eq_true, decide_eq_true_eq, differs_eq_true_iff, exactOfCid] at hbad
    obtain ⟨hlt, hfar⟩ := hbad
    by_cases hneg : advanceOf font face cid < 0
    · -- a CID without an advance is compared with itself
      rw [if_pos hneg, sub_self, abs_zero] at hfar
      exact absurd hfar (by norm_num)
    · rw [if_neg hneg] at hfar
      exact absurd (hall cid hcid hlt (not_lt.mp hneg)) (not_le.mpr hfar)

/-- The font with its widths rebuilt. -/
def CidFont.rebuilt (font : CidFont) (face : CidFace) (n : Nat) : CidFont :=
  { font with
    w := some (buildW n 0 ((List.range n).map
      (widthOfCid (declaredCids font n) (advanceOf font face))))
    dw := some (if programAdvance face.metrics 0 < 0 then 1000
      else lround (programAdvance face.metrics 0)) }

theorem any_differs_iff :
    ((List.range n).any fun cid => differs (9 / 10) (declaredCids font n cid)
      (widthOfCid (declaredCids font n) (advanceOf font face) cid)) = true ↔
    Mismatch font face n := by
  rw [List.any_eq_true]
  constructor
  · rintro ⟨cid, hcid, hdiffers⟩
    exact ⟨cid, List.mem_range.mp hcid, differs_eq_true_iff.mp hdiffers⟩
  · rintro ⟨cid, hcid, hfar⟩
    exact ⟨cid, List.mem_range.mpr hcid, differs_eq_true_iff.mpr hfar⟩

theorem cidRepair_of_ready (h : font.ready = some (face, n)) :
    (¬ Mismatch font face n ∧ (syncCidFontWidths font none).1 = font) ∨
    (Mismatch font face n ∧ (syncCidFontWidths font none).1 = font.rebuilt face n) := by
  obtain ⟨hother, hprogram, hn⟩ := cidReady_eq_some_iff.mp h
  by_cases hmismatch : Mismatch font face n
  · refine .inr ⟨hmismatch, ?_⟩
    simp only [syncCidFontWidths, if_neg hother, hprogram, hn,
      if_pos (any_differs_iff.mpr hmismatch), CidFont.rebuilt]
  · refine .inl ⟨hmismatch, ?_⟩
    have hnone := fun hany => hmismatch (any_differs_iff.mp hany)
    simp only [syncCidFontWidths, if_neg hother, hprogram, hn, if_neg hnone]

theorem rebuilt_ready (h : font.ready = some (face, n)) :
    (font.rebuilt face n).ready = some (face, n) :=
  cidReady_eq_some_iff.mpr (cidReady_eq_some_iff.mp h)

/-- The rebuilt widths are the rounded ones. -/
theorem declaredCids_rebuilt (hn : n ≤ 65536) {cid : Nat} (hcid : cid < n) :
    declaredCids (font.rebuilt face n) n cid =
      widthOfCid (declaredCids font n) (advanceOf font face) cid := by
  unfold declaredCids CidFont.rebuilt
  dsimp only
  rw [Option.getD_some, readW_buildW hn n 0 _ _ (by simp) (by simp)]
  apply overlay_zero
  rw [List.getElem?_map, List.getElem?_range hcid]
  rfl

/-- A composite font is repaired exactly when the condition holds. -/
theorem cidRepaired_iff (font : CidFont) (cids : List Nat) :
    CidRepaired font cids ↔ CidHolds font cids := by
  cases hready : font.ready with
  | none =>
      refine iff_of_true ⟨?_, ?_⟩ ⟨?_, ?_⟩
      · rw [cidSync_of_not_ready hready, cidSync_of_not_ready hready]
        exact fun i hi => by cases hi
      all_goals
        intro face n h
        rw [hready] at h
        cases h
  | some r =>
      obtain ⟨face, n⟩ := r
      have hmax := numCids_le (cidReady_eq_some_iff.mp hready).2.2
      obtain ⟨hnone, hsame⟩ | ⟨hmismatch, hrebuilt⟩ := cidRepair_of_ready hready
      · constructor
        · rintro ⟨hclean, -⟩
          rw [hsame, cidCheck_of_ready hready] at hclean
          constructor
          · intro face' n' h _
            cases hready.symm.trans h
            exact hclean
          · intro face' n' h hmismatch
            cases hready.symm.trans h
            exact absurd hmismatch hnone
        · intro hholds
          refine ⟨?_, fun _ _ _ _ _ _ _ => by rw [hsame]⟩
          rw [hsame, cidCheck_of_ready hready]
          exact hholds.rounded face n hready hnone
      · have hwidth : ∀ cid < n, 0 ≤ advanceOf font face cid →
            declaredCids (font.rebuilt face n) n cid = lround (advanceOf font face cid) := by
          intro cid hcid hpos
          rw [declaredCids_rebuilt hmax hcid, widthOfCid, if_neg (not_lt.mpr hpos)]
        constructor
        · rintro ⟨-, hkept⟩
          rw [hrebuilt] at hkept
          constructor
          · intro face' n' h hnone
            cases hready.symm.trans h
            exact absurd hmismatch hnone
          · intro face' n' h _ cid hcid hpos hclose
            cases hready.symm.trans h
            rw [← hkept face n hready cid hcid hpos hclose, hwidth cid hcid hpos]
        · intro hholds
          constructor
          · rw [hrebuilt, cidCheck_of_ready (rebuilt_ready hready)]
            intro cid _ hlt hpos
            -- the advances are those of the program, which is the same
            rw [hwidth cid hlt hpos]
            exact le_trans (abs_lround_sub_le _) (by norm_num)
          · intro face' n' h cid hcid hpos hclose
            cases hready.symm.trans h
            rw [hrebuilt, hwidth cid hcid hpos]
            exact (hholds.rebuilt face n hready hmismatch cid hcid hpos hclose).symm

end Composite

/-- Simple and composite fonts are as promised exactly if the slips do not come to bear. -/
theorem repaired_iff_holds (simple : SimpleFont) (codes : List Nat) (cid : CidFont)
    (cids : List Nat) :
    (SimpleRepaired simple codes ↔ SimpleHolds simple codes) ∧
      (CidRepaired cid cids ↔ CidHolds cid cids) :=
  ⟨simpleRepaired_iff simple codes, cidRepaired_iff cid cids⟩

/-- A font whose program has no glyph for a space, but a width for missing glyphs. -/
def spaceless : SimpleFont where
  baseFont := "Spaceless"
  program := .face ⟨⟨some fun _ => 600, fun _ => 600, none, 1000⟩, fun _ => 0⟩
  firstChar := some 32
  lastChar := some 32
  widths := some [some 250]
  missingWidth := none

/-- A font with an advance in the middle between two integers. -/
def halfway : CidFont where
  baseFont := "Halfway"
  subtype := .cidFontType2
  program := .face ⟨⟨some fun _ => 1001 / 2, fun _ => 1001 / 2, none, 2000⟩, 1, none⟩
  cidToGid := .identity
  dw := some (5019 / 10)
  w := none

/-- A width of a code without a glyph is kept and then reported, and so is a width that is close
to the rounded advance only. -/
theorem repaired_font_reported :
    ¬ SimpleRepaired spaceless [32] ∧ ¬ CidRepaired halfway [0] := by
  have hsimple : (syncSimpleFontWidths (syncSimpleFontWidths spaceless none).1 (some [32])).2 =
      [widthsSynced "1 glyph width(s) of Spaceless differ from the embedded font program"] := by
    decide +kernel
  have hcid : (syncCidFontWidths (syncCidFontWidths halfway none).1 (some [0])).2 =
      [widthsSynced "1 glyph width(s) of Halfway differ from the embedded font program"] := by
    decide +kernel
  constructor
  · rintro ⟨hclean, -⟩
    rw [hsimple] at hclean
    exact hclean _ List.mem_cons_self rfl
  · rintro ⟨hclean, -⟩
    rw [hcid] at hclean
    exact hclean _ List.mem_cons_self rfl

end Kura.Engine.FontWidths
