import Kura.Engine.ExactCalc

/-!
# Tint programs

The PostScript function of a space of several inks. For each process colour it
sums up what the inks contribute to it, at most one, and at its end it drops the
tints below the four sums.

Every ink has its alternate, a tint of each of the four process colours. The
program finds a tint by its depth on the stack, one deeper for each sum that is
already there.
-/

namespace Kura.Engine.Calculator

open Base (toInt32)

/-- What an ink looks like in process colours. -/
abbrev Alternate := Vector ℚ 4

/-- The part of a tint program that adds what one ink contributes; a tint that is next to
nothing is left out. -/
def tintTerm (n j i : Nat) (a : ℚ) : List Char :=
  if |a| < 1 / 100000 then []
  else Nat.toDigits 10 (n + j - i) ++ " index ".toList ++ f4 a ++ " mul add ".toList

/-- The part of a tint program for one process colour. -/
def tintRow (alt : List Alternate) (j : Fin 4) : List Char :=
  "0 ".toList ++ (alt.zipIdx.flatMap fun p => tintTerm alt.length j p.2 (p.1.get j)) ++
    "dup 1 gt \x7b pop 1 \x7d if ".toList

/-- The text of a tint program. -/
def tintProgram (alt : List Alternate) : List Char :=
  "\x7b ".toList ++ (List.finRange 4).flatMap (tintRow alt) ++ Nat.toDigits 10 (alt.length + 4) ++
    " 4 roll".toList ++ (alt.flatMap fun _ => " pop".toList) ++ " \x7d".toList

/-- The bounds of numbers between zero and one. -/
def unitBounds (n : Nat) : List ℚ := (List.replicate n [0, 1]).flatten

/-- What the inks contribute to a process colour. -/
def tintSum (alt : List Alternate) (ts : List ℚ) (j : Fin 4) : ℚ :=
  (List.zipWith (fun t a => t * round4 (a.get j)) ts alt).sum

/-- The terms of a row that are not left out, with the depths of their tints. -/
def rowTerms (alt : List Alternate) (j : Fin 4) : List (Nat × ℚ) :=
  alt.zipIdx.filterMap fun p =>
    if |p.1.get j| < 1 / 100000 then none else some (alt.length + j - p.2, p.1.get j)

def termCode (p : Nat × ℚ) : List (PsInstr ℚ) :=
  [.push p.1, .op .index, .push (round4 p.2), .op .mul, .op .add]

/-- The sum of a row, and the code that keeps it at most one. -/
def rowCode (alt : List Alternate) (j : Fin 4) (pc : Nat) : List (PsInstr ℚ) :=
  .push 0 :: ((rowTerms alt j).flatMap termCode ++ [.op .dup, .push 1, .op .gt,
    .jumpFalse (pc + 7 + 5 * (rowTerms alt j).length), .op .pop, .push 1])

/-- The code of some rows from a position on. -/
def rowsCode (alt : List Alternate) : List (Fin 4) → Nat → List (PsInstr ℚ)
  | [], _ => []
  | j :: js, pc => rowCode alt j pc ++ rowsCode alt js (pc + (rowCode alt j pc).length)

/-- The code at the end of a program. -/
def dropCode (n : Nat) : List (PsInstr ℚ) :=
  [.push (n + 4 : Nat), .push (4 : Nat), .op .roll] ++ List.replicate n (.op .pop)

variable {lib : MathLib} {alt : List Alternate} {s left : List Char} {code code' : List (PsInstr ℚ)}

def termWords (p : Nat × ℚ) : List (List Char) :=
  [Nat.toDigits 10 p.1, "index".toList, f4 p.2, "mul".toList, "add".toList]

/-- The terms of a row are written as words with a space behind each. -/
theorem flatMap_tintTerm (n : Nat) (j : Fin 4) (ps : List (Alternate × Nat)) :
    (ps.flatMap fun p => tintTerm n j p.2 (p.1.get j)) =
      spaced ((ps.filterMap fun p =>
        if |p.1.get j| < 1 / 100000 then none else some (n + j - p.2, p.1.get j)).flatMap
          termWords) := by
  induction ps with
  | nil => rfl
  | cons p ps ih =>
      rw [List.flatMap_cons, ih, tintTerm, List.filterMap_cons]
      split_ifs with hsmall
      · rfl
      · simp [termWords]

/-- Alternates between zero and one. -/
def InUnit (alt : List Alternate) : Prop := ∀ a ∈ alt, ∀ j, 0 ≤ a.get j ∧ a.get j ≤ 1

theorem rowTerms_inUnit (halt : InUnit alt) {j : Fin 4} {p : Nat × ℚ} (hp : p ∈ rowTerms alt j) :
    0 ≤ p.2 ∧ p.2 ≤ 1 := by
  obtain ⟨q, hq, hsome⟩ := List.mem_filterMap.mp hp
  split_ifs at hsome
  cases hsome
  exact halt _ (List.fst_mem_of_mem_zipIdx hq) j

theorem forall₂_termWords {ps : List (Nat × ℚ)} (hps : ∀ p ∈ ps, 0 ≤ p.2 ∧ p.2 ≤ 1) :
    List.Forall₂ (Means (exact lib)) (ps.flatMap termWords) (ps.flatMap termCode) := by
  induction ps with
  | nil => exact .nil
  | cons p ps ih =>
      have hp := hps p List.mem_cons_self
      have hrest := ih fun q hq => hps q (List.mem_cons_of_mem _ hq)
      exact .cons (means_toDigits _) (.cons (means_op (o := ("index", .index)) (by decide))
        (.cons (means_f4 hp.1 hp.2) (.cons (means_op (o := ("mul", .mul)) (by decide))
          (.cons (means_op (o := ("add", .add)) (by decide)) hrest))))

theorem means_one : Means (exact lib) "1".toList (.push 1) := by
  have h := @means_toDigits lib 1
  rwa [Nat.cast_one] at h

/-- A row of the program is read as its code. -/
theorem parsed_tintRow (halt : InUnit alt) (j : Fin 4)
    (h : Parsed (exact lib) 0 s (code ++ rowCode alt j code.length) left code') :
    Parsed (exact lib) 0 (tintRow alt j ++ s) code left code' := by
  have hzero : Means (exact lib) "0".toList (.push 0) := by
    have h := @means_toDigits lib 0
    rwa [Nat.cast_zero] at h
  have hpop : Means (exact lib) "pop".toList (.op .pop) := means_op (o := ("pop", .pop)) (by decide)
  have hwords : List.Forall₂ (Means (exact lib))
      ("0".toList ::
        ((rowTerms alt j).flatMap termWords ++ ["dup".toList, "1".toList, "gt".toList]))
      (.push 0 :: ((rowTerms alt j).flatMap termCode ++ [.op .dup, .push 1, .op .gt])) := by
    refine .cons hzero (List.rel_append (forall₂_termWords fun p hp => rowTerms_inUnit halt hp) ?_)
    exact .cons (means_op (o := ("dup", .dup)) (by decide)) (.cons means_one
      (.cons (means_op (o := ("gt", .gt)) (by decide)) .nil))
  have htext : tintRow alt j ++ s =
      spaced ("0".toList :: ((rowTerms alt j).flatMap termWords ++
        ["dup".toList, "1".toList, "gt".toList])) ++
        ('\x7b' :: ' ' ::
          (spaced ["pop".toList, "1".toList] ++ ('\x7d' :: (" if ".toList ++ s)))) := by
    rw [tintRow, flatMap_tintTerm]
    simp [spaced_append, rowTerms]
  rw [htext]
  refine Parsed.spaced hwords ?_
  set code₁ := code ++ .push 0 ::
    ((rowTerms alt j).flatMap termCode ++ [.op .dup, .push 1, .op .gt]) with hcode₁
  have hblock : Parsed (exact lib) 1
      (' ' :: (spaced ["pop".toList, "1".toList] ++ ('\x7d' :: (" if ".toList ++ s))))
      (code₁ ++ [.jumpFalse 0]) (" if ".toList ++ s)
      (code₁ ++ [.jumpFalse 0] ++ [.op .pop, .push 1]) := by
    refine .blank (by decide) (@Parsed.spaced _ _ _ [.op .pop, .push 1] ?_ _ _ _ _ _ ?_)
    · exact .cons hpop (.cons means_one .nil)
    · exact .close (Nat.le_add_left 1 63)
  have hnext : nextWord (" if ".toList ++ s) = ("if".toList, ' ' :: s) := by
    have hword : ∀ c ∈ "if".toList, isWordChar c = true := by
      simp [isWordChar, CText.isBlank]
    have h := nextWord_append (w := "if".toList) (s := ' ' :: s) (by decide) hword (by
      intro c hc
      cases hc
      decide)
    rw [nextWord] at h ⊢
    exact h
  refine .ifBlock hblock (by rw [hnext]) ?_
  rw [hnext]
  refine .blank (by decide) ?_
  have hset : (code₁ ++ [PsInstr.jumpFalse 0] ++ [PsInstr.op .pop, .push 1]).set code₁.length
      (PsInstr.jumpFalse (code₁ ++ [PsInstr.jumpFalse 0] ++ [PsInstr.op .pop, .push 1]).length) =
        code ++ rowCode alt j code.length := by
    have hlen : (code₁ ++ [PsInstr.jumpFalse 0] ++ [PsInstr.op .pop, .push 1]).length =
        code.length + 7 + 5 * (rowTerms alt j).length := by
      simp [hcode₁, termCode]
      ring
    rw [hlen, List.append_assoc, List.set_append_right _ _ le_rfl, Nat.sub_self, hcode₁, rowCode]
    simp
  rw [hset]
  exact h

/-- The rows of the program are read as their code. -/
theorem parsed_tintRows (halt : InUnit alt) (js : List (Fin 4))
    (h : Parsed (exact lib) 0 s (code ++ rowsCode alt js code.length) left code') :
    Parsed (exact lib) 0 (js.flatMap (tintRow alt) ++ s) code left code' := by
  induction js generalizing code with
  | nil => simpa [rowsCode] using h
  | cons j js ih =>
      rw [List.flatMap_cons, List.append_assoc]
      refine parsed_tintRow halt j (ih ?_)
      rw [List.append_assoc, List.length_append]
      exact h

theorem spaced_closed (ws : List (List Char)) :
    ws.flatMap (fun w => ' ' :: w) ++ " \x7d".toList = ' ' :: (spaced ws ++ ['\x7d']) := by
  induction ws with
  | nil => rfl
  | cons w ws ih =>
      rw [List.flatMap_cons, List.append_assoc, ih, spaced_cons]
      simp

theorem tintProgram_eq (alt : List Alternate) :
    tintProgram alt = '\x7b' :: ' ' :: ((List.finRange 4).flatMap (tintRow alt) ++
      (spaced (Nat.toDigits 10 (alt.length + 4) :: "4".toList :: "roll".toList ::
        List.replicate alt.length "pop".toList) ++ ['\x7d'])) := by
  have hpops : alt.flatMap (fun _ => " pop".toList) =
      (List.replicate alt.length "pop".toList).flatMap fun w => ' ' :: w := by
    induction alt with
    | nil => rfl
    | cons a alt ih =>
        rw [List.flatMap_cons, ih, List.length_cons, List.replicate_succ, List.flatMap_cons]
        simp
  have hend := spaced_closed (List.replicate alt.length "pop".toList)
  rw [tintProgram, hpops]
  simp only [List.append_assoc, hend, spaced_cons]
  simp

@[simp] theorem length_unitBounds (n : Nat) : (unitBounds n).length = n * 2 := by
  simp [unitBounds]

/-- The whole text of a program is read as its code. -/
theorem init_tintProgram (halt : InUnit alt) (hone : 1 ≤ alt.length) (hn : alt.length ≤ 32) :
    CalcFn.init (exact lib) (unitBounds alt.length) (unitBounds 4) (tintProgram alt) =
      some ⟨unitBounds alt.length, unitBounds 4,
        rowsCode alt (List.finRange 4) 0 ++ dropCode alt.length⟩ := by
  set code := rowsCode alt (List.finRange 4) 0 with hcode
  have hwords : List.Forall₂ (Means (exact lib))
      (Nat.toDigits 10 (alt.length + 4) :: "4".toList :: "roll".toList ::
        List.replicate alt.length "pop".toList) (dropCode alt.length) := by
    refine .cons (means_toDigits _)
      (.cons ?_ (.cons (means_op (o := ("roll", .roll)) (by decide)) ?_))
    · exact means_toDigits 4
    · change List.Forall₂ _ _ (List.replicate alt.length (PsInstr.op .pop))
      refine List.forall₂_iff_get.mpr ⟨by simp, fun i h h' => ?_⟩
      simp only [List.get_eq_getElem, List.getElem_replicate]
      exact means_op (o := ("pop", .pop)) (by decide)
  have hclose : Parsed (exact lib) 0 ['\x7d'] (code ++ dropCode alt.length) []
      (code ++ dropCode alt.length) := .close (Nat.zero_le _)
  have hparsed := Parsed.blank (c := ' ') (by decide)
    (@parsed_tintRows _ _ _ _ [] _ halt (List.finRange 4) (Parsed.spaced hwords hclose))
  have hblock := parseBlock_of_parsed hparsed (Nat.lt_succ_self _)
  have hbounds :
      ¬ ((unitBounds alt.length).length / 2 < 1 ∨ 32 < (unitBounds alt.length).length / 2 ∨
      (unitBounds 4).length / 2 < 1 ∨ 32 < (unitBounds 4).length / 2) := by
    simp only [length_unitBounds]
    omega
  rw [CalcFn.init, if_neg hbounds, tintProgram_eq, List.dropWhile_cons_of_neg (by decide)]
  simp only [hblock, Option.map_some]

variable {pc : Nat} {st : List ℚ}

theorem runs_push {v : ℚ} (hi : code[pc]? = some (.push v)) (hroom : st.length < 128) :
    Runs (exact lib) code 1 pc st (pc + 1) (v :: st) := by
  refine Runs.single hi ?_
  rw [step, pushed, if_neg (Nat.not_le.mpr hroom)]
  rfl

theorem runs_op {o : PsOp} {st' : List ℚ} (hi : code[pc]? = some (.op o))
    (happly : apply (exact lib) o st = .ok st') :
    Runs (exact lib) code 1 pc st (pc + 1) st' := by
  refine Runs.single hi ?_
  rw [step, happly]
  rfl

/-- A number on the stack is found by its depth. -/
theorem apply_index {k : Nat} {v : ℚ} (hv : st[k]? = some v) (hroom : st.length < 128) :
    apply (exact lib) .index ((k : ℚ) :: st) = .ok (v :: st) := by
  obtain ⟨hk, -⟩ := List.getElem?_eq_some_iff.mp hv
  have hwrap : toInt32 ((k : Int) + 1) = k + 1 := by
    refine Int.bmod_eq_of_le ?_ ?_ <;> norm_num <;> omega
  have htrunc : (exact lib).toInt (k : ℚ) = k := trunc_natCast k
  have hguard :
      ¬ ((k : Int) < 0 ∨ (st.length : Int) < toInt32 ((k : Int) + 1) ∨ 128 ≤ st.length) := by
    rw [hwrap]
    omega
  simp only [apply, htrunc, if_neg hguard, Int.toNat_natCast, hv]

/-- A term adds a number of the stack times its factor. -/
theorem runs_term {p : Nat × ℚ} {acc v : ℚ} (hcode : CodeAt code pc (termCode p))
    (hv : (acc :: st)[p.1]? = some v) (hroom : st.length + 3 ≤ 128) :
    Runs (exact lib) code 5 pc (acc :: st) (pc + 5) ((acc + v * round4 p.2) :: st) := by
  have hindex := @runs_op lib _ _ _ _ _ hcode.tail.head (apply_index hv (by simp; omega))
  have hmul : apply (exact lib) .mul (round4 p.2 :: v :: acc :: st) =
      .ok (v * round4 p.2 :: acc :: st) := rfl
  have hadd : apply (exact lib) .add (v * round4 p.2 :: acc :: st) =
      .ok ((acc + v * round4 p.2) :: st) := rfl
  have hpush := @runs_push lib _ _ (acc :: st) _ hcode.head (by simp; omega)
  have hfactor := @runs_push lib _ _ (v :: acc :: st) _ hcode.tail.tail.head (by simp; omega)
  exact (((hpush.trans hindex).trans hfactor).trans (runs_op hcode.tail.tail.tail.head hmul)).trans
    (runs_op hcode.tail.tail.tail.tail.head hadd)

/-- The terms of a row add up what they find on the stack. -/
theorem runs_terms {ps : List (Nat × ℚ)} {acc : ℚ} (hcode : CodeAt code pc (ps.flatMap termCode))
    (hps : ∀ p ∈ ps, 0 < p.1 ∧ p.1 ≤ st.length) (hroom : st.length + 3 ≤ 128) :
    Runs (exact lib) code (5 * ps.length) pc (acc :: st) (pc + 5 * ps.length)
      ((acc + (ps.map fun p => st.getD (p.1 - 1) 0 * round4 p.2).sum) :: st) := by
  induction ps generalizing pc acc with
  | nil =>
      rw [List.map_nil, List.sum_nil, add_zero]
      exact Runs.refl
  | cons p ps ih =>
      obtain ⟨hpos, hle⟩ := hps p List.mem_cons_self
      rw [List.flatMap_cons] at hcode
      have hv : (acc :: st)[p.1]? = some (st.getD (p.1 - 1) 0) := by
        obtain ⟨k, hk⟩ := Nat.exists_eq_add_of_lt hpos
        rw [hk, Nat.zero_add, List.getElem?_cons_succ, Nat.add_sub_cancel,
          List.getD_eq_getElem?_getD, List.getElem?_eq_getElem (by omega), Option.getD_some]
      have hrest := @ih _ (acc + st.getD (p.1 - 1) 0 * round4 p.2) hcode.right
        fun q hq => hps q (List.mem_cons_of_mem _ hq)
      have hsteps : 5 * (ps.length + 1) = 5 + 5 * ps.length := by ring
      rw [List.map_cons, List.sum_cons, List.length_cons, hsteps, ← add_assoc, ← add_assoc]
      exact (runs_term hcode.left hv hroom).trans hrest

/-- The end of a row keeps its sum at most one. -/
theorem runs_atMostOne {target : Nat} {acc : ℚ} (hcode : CodeAt code pc
      [.op .dup, .push 1, .op .gt, .jumpFalse target, .op .pop, .push 1])
    (htarget : target = pc + 6) (hroom : st.length + 3 ≤ 128) :
    ∃ k ≤ 6, Runs (exact lib) code k pc (acc :: st) target (min 1 acc :: st) := by
  have hdup : apply (exact lib) .dup (acc :: st) = .ok (acc :: acc :: st) := by
    rw [apply, pushed, if_neg]
    simp
    omega
  have hgt : apply (exact lib) .gt (1 :: acc :: acc :: st) =
      .ok (ofBool (1 < acc) :: acc :: st) := rfl
  have hone := @runs_push lib _ _ (acc :: acc :: st) _ hcode.tail.head (by simp; omega)
  have htest := ((@runs_op lib _ _ _ _ _ hcode.head hdup).trans hone).trans
    (runs_op hcode.tail.tail.head hgt)
  have hjump := hcode.tail.tail.tail.head
  by_cases hacc : 1 < acc
  · have hpass :
        step (exact lib) (.jumpFalse target) (pc + 1 + 1 + 1) (ofBool (1 < acc) :: acc :: st) =
        .ok (pc + 1 + 1 + 1 + 1, acc :: st) := by
      simp [step, exact, ofBool, hacc]
    have hdrop : apply (exact lib) .pop (acc :: st) = .ok st := rfl
    have hpop := @runs_op lib _ _ _ _ _ hcode.tail.tail.tail.tail.head hdrop
    have hpush := @runs_push lib _ _ st _ hcode.tail.tail.tail.tail.tail.head (by omega)
    refine ⟨1 + 1 + 1 + 1 + 1 + 1, le_rfl, ?_⟩
    rw [min_eq_left hacc.le, htarget]
    exact (((htest.trans (Runs.single hjump hpass)).trans hpop).trans hpush)
  · have hskip :
        step (exact lib) (.jumpFalse target) (pc + 1 + 1 + 1) (ofBool (1 < acc) :: acc :: st) =
        .ok (target, acc :: st) := by
      simp [step, exact, ofBool, hacc]
    refine ⟨1 + 1 + 1 + 1, by omega, ?_⟩
    rw [min_eq_right (not_lt.mp hacc)]
    exact htest.trans (Runs.single hjump hskip)

theorem length_rowTerms_le (alt : List Alternate) (j : Fin 4) :
    (rowTerms alt j).length ≤ alt.length := by
  have h := List.length_filterMap_le (fun p : Alternate × Nat =>
    if |p.1.get j| < 1 / 100000 then none else some (alt.length + j - p.2, p.1.get j)) alt.zipIdx
  rwa [List.length_zipIdx] at h

theorem length_rowCode (alt : List Alternate) (j : Fin 4) (pc : Nat) :
    (rowCode alt j pc).length = 7 + 5 * (rowTerms alt j).length := by
  simp [rowCode, termCode]
  ring

theorem round4_small {x : ℚ} (h0 : 0 ≤ x) (h : |x| < 1 / 100000) : round4 x = 0 := by
  rw [abs_of_nonneg h0] at h
  have hfloor : ⌊x * 10000 + 1 / 2⌋₊ = 0 := by
    rw [Nat.floor_eq_zero]
    linarith
  rw [round4, hfloor]
  norm_num

/-- The terms that are left out contribute nothing. -/
theorem sum_rowTerms (halt : InUnit alt) {ts accs : List ℚ} (hlen : ts.length = alt.length)
    {j : Fin 4} (hj : accs.length = j) :
    ((rowTerms alt j).map fun p =>
      (accs ++ ts.reverse).getD (p.1 - 1) 0 * round4 p.2).sum = tintSum alt ts j := by
  have hdrop : ∀ ps : List (Alternate × Nat), (∀ p ∈ ps, p.1 ∈ alt ∧ p.2 < alt.length) →
      ((ps.filterMap fun p => if |p.1.get j| < 1 / 100000 then none
        else some (alt.length + j - p.2, p.1.get j)).map fun p =>
          (accs ++ ts.reverse).getD (p.1 - 1) 0 * round4 p.2).sum =
        (ps.map fun p => ts.getD p.2 0 * round4 (p.1.get j)).sum := by
    intro ps hps
    induction ps with
    | nil => rfl
    | cons p ps ih =>
        obtain ⟨hmem, hlt⟩ := hps p List.mem_cons_self
        have hrest := ih fun q hq => hps q (List.mem_cons_of_mem _ hq)
        rw [List.filterMap_cons, List.map_cons, List.sum_cons]
        split_ifs with hsmall
        · rw [hrest, round4_small (halt _ hmem j).1 hsmall, mul_zero, zero_add]
        · have hfind : (accs ++ ts.reverse).getD (alt.length + j - p.2 - 1) 0 = ts.getD p.2 0 := by
            rw [List.getD_append_right _ _ _ _ (by omega), List.getD_eq_getElem?_getD,
              List.getElem?_reverse (by omega), List.getD_eq_getElem?_getD]
            congr 2
            omega
          simp only [List.map_cons, List.sum_cons, hrest, hfind]
  rw [rowTerms, hdrop alt.zipIdx, tintSum]
  · congr 1
    refine List.ext_getElem (by simp [hlen]) fun i hi hi' => ?_
    simp at hi
    simp [List.getD_eq_getElem?_getD, hlen, hi]
  · intro p hp
    exact ⟨List.fst_mem_of_mem_zipIdx hp, List.snd_lt_of_mem_zipIdx hp⟩

/-- A row leaves the sum of its process colour above the sums that are already there. -/
theorem runs_row (halt : InUnit alt) (hn : alt.length ≤ 8) {ts accs : List ℚ}
    (hlen : ts.length = alt.length) {j : Fin 4} (hj : accs.length = j)
    (hcode : CodeAt code pc (rowCode alt j pc)) :
    ∃ k ≤ 47, Runs (exact lib) code k pc (accs ++ ts.reverse) (pc + (rowCode alt j pc).length)
      (min 1 (tintSum alt ts j) :: (accs ++ ts.reverse)) := by
  have hst : (accs ++ ts.reverse).length = j + alt.length := by
    rw [List.length_append, List.length_reverse, hj, hlen]
  have hdepth : ∀ p ∈ rowTerms alt j, 0 < p.1 ∧ p.1 ≤ (accs ++ ts.reverse).length := by
    intro p hp
    obtain ⟨q, hq, hsome⟩ := List.mem_filterMap.mp hp
    split_ifs at hsome
    cases hsome
    have hlt := List.snd_lt_of_mem_zipIdx hq
    omega
  have hroom : (accs ++ ts.reverse).length + 3 ≤ 128 := by omega
  have hzero := @runs_push lib _ _ (accs ++ ts.reverse) _ hcode.head (by omega)
  have hterms := @runs_terms lib _ _ _ _ 0 hcode.tail.left hdepth hroom
  rw [zero_add, sum_rowTerms halt hlen hj] at hterms
  have hlength : ((rowTerms alt j).flatMap termCode).length = 5 * (rowTerms alt j).length := by
    simp [termCode]
    ring
  have hend := hcode.tail.right
  rw [hlength] at hend
  obtain ⟨k, hk, hclamp⟩ := @runs_atMostOne lib _ _ _ _ (tintSum alt ts j) hend (by ring) hroom
  have hle := length_rowTerms_le alt j
  refine ⟨1 + 5 * (rowTerms alt j).length + k, by omega, ?_⟩
  rw [length_rowCode, ← add_assoc]
  exact (hzero.trans hterms).trans hclamp

/-- The rows of a program push the sums of their tints, cut at one. -/
theorem runs_rows (halt : InUnit alt) (hn : alt.length ≤ 8) {ts : List ℚ}
    (hlen : ts.length = alt.length) {js : List (Fin 4)} {accs : List ℚ}
    (hjs : js.map Fin.val = List.range' accs.length js.length)
    (hcode : CodeAt code pc (rowsCode alt js pc)) :
    ∃ k ≤ 47 * js.length, Runs (exact lib) code k pc (accs ++ ts.reverse)
      (pc + (rowsCode alt js pc).length)
      ((js.map fun j => min 1 (tintSum alt ts j)).reverse ++ accs ++ ts.reverse) := by
  induction js generalizing pc accs with
  | nil => exact ⟨0, le_rfl, Runs.refl⟩
  | cons j js ih =>
      rw [List.map_cons, List.length_cons, List.range'_succ, List.cons.injEq] at hjs
      obtain ⟨k, hk, hrow⟩ := @runs_row lib _ _ _ halt hn _ _ hlen _ hjs.1.symm hcode.left
      obtain ⟨m, hm, hrows⟩ := @ih _ (min 1 (tintSum alt ts j) :: accs) hjs.2 hcode.right
      refine ⟨k + m, by rw [List.length_cons]; omega, ?_⟩
      rw [rowsCode, List.length_append, ← add_assoc, List.map_cons, List.reverse_cons,
        List.append_assoc _ [_], List.singleton_append]
      exact hrow.trans hrows

/-- The code at the end drops the tints below the sums. -/
theorem runs_drop {ts accs : List ℚ} {n : Nat} (hn : n ≤ 8) (hlen : ts.length = n)
    (haccs : accs.length = 4) (hcode : CodeAt code pc (dropCode n)) :
    Runs (exact lib) code (3 + n) pc (accs ++ ts.reverse) (pc + (dropCode n).length) accs := by
  have hst : (accs ++ ts.reverse).length = n + 4 := by
    rw [List.length_append, List.length_reverse, haccs, hlen, Nat.add_comm]
  have hpops : ∀ (m : Nat) (us : List ℚ) (pc : Nat), us.length = m →
      CodeAt code pc (List.replicate m (.op .pop)) →
      Runs (exact lib) code m pc (us ++ accs) (pc + m) accs := by
    intro m us
    induction us generalizing m with
    | nil =>
        intro pc hm _
        subst hm
        exact Runs.refl
    | cons u us ih =>
        intro pc hm hcode
        subst hm
        rw [List.length_cons, List.replicate_succ] at hcode
        have hdrop : apply (exact lib) .pop (u :: (us ++ accs)) = .ok (us ++ accs) := rfl
        rw [List.length_cons, Nat.add_comm us.length, ← Nat.add_assoc]
        exact (runs_op hcode.head hdrop).trans (ih _ _ rfl hcode.tail)
  have hroll :
      apply (exact lib) .roll (((4 : Nat) : ℚ) :: ((n + 4 : Nat) : ℚ) :: (accs ++ ts.reverse)) =
      .ok (ts.reverse ++ accs) := by
    have hfour : (exact lib).toInt ((4 : Nat) : ℚ) = (4 : Nat) := trunc_natCast 4
    have hcount : (exact lib).toInt ((n + 4 : Nat) : ℚ) = (n + 4 : Nat) := trunc_natCast (n + 4)
    have hmod : (((4 : Nat) : Int).tmod (n + 4 : Nat) + (n + 4 : Nat)).tmod (n + 4 : Nat) =
        (4 % (n + 4) : Nat) := by
      rw [← Int.ofNat_tmod, ← Nat.cast_add, ← Int.ofNat_tmod, Nat.add_mod_right, Nat.mod_mod]
    simp only [apply, hfour, hcount, hmod, hst, Int.toNat_natCast]
    rw [if_neg (by omega), if_neg (by omega), List.take_of_length_le (by rw [hst]),
      List.drop_of_length_le (by rw [hst]), List.append_nil, ← hst, List.rotate_mod, ← haccs,
      List.rotate_append_length_eq]
  have hpush := @runs_push lib _ _ (accs ++ ts.reverse) _ hcode.head (by omega)
  have hpush' := @runs_push lib _ _ (((n + 4 : Nat) : ℚ) :: (accs ++ ts.reverse)) _
    hcode.tail.head (by rw [List.length_cons]; omega)
  have hrun := ((hpush.trans hpush').trans (runs_op hcode.tail.tail.head hroll)).trans
    (hpops n ts.reverse _ (by rw [List.length_reverse, hlen]) hcode.tail.tail.tail)
  have hlength : (dropCode n).length = 3 + n := by simp [dropCode]; ring
  rw [hlength, ← add_assoc]
  exact hrun

/-- Numbers between zero and one are not clipped. -/
theorem clipTo_unitBounds {xs : List ℚ} (hxs : ∀ x ∈ xs, 0 ≤ x ∧ x ≤ 1) :
    clipTo (exact lib) xs (unitBounds xs.length) = xs := by
  induction xs with
  | nil => rfl
  | cons x xs ih =>
      obtain ⟨h0, h1⟩ := hxs x List.mem_cons_self
      have hrest := ih fun y hy => hxs y (List.mem_cons_of_mem _ hy)
      have hclip : clip (exact lib) x 0 1 = x := by
        simp [clip, exact, not_lt.mpr h0, not_lt.mpr h1]
      have hbounds : unitBounds (x :: xs).length = 0 :: 1 :: unitBounds xs.length := by
        rw [unitBounds, List.length_cons, List.replicate_succ, List.flatten_cons]
        rfl
      rw [hbounds, clipTo, hclip, hrest]

theorem round4_nonneg (x : ℚ) : 0 ≤ round4 x :=
  div_nonneg (Nat.cast_nonneg _) (by norm_num)

theorem tintSum_nonneg {ts : List ℚ} (hts : ∀ t ∈ ts, 0 ≤ t ∧ t ≤ 1) (j : Fin 4) :
    0 ≤ tintSum alt ts j := by
  refine List.sum_nonneg fun x hx => ?_
  obtain ⟨i, hi, rfl⟩ := List.mem_iff_getElem.mp hx
  rw [List.getElem_zipWith]
  exact mul_nonneg (hts _ (List.getElem_mem _)).1 (round4_nonneg _)

/-- A tint program yields for each process colour the sum of what the inks contribute to it,
at most one. -/
theorem compute_tintProgram (halt : InUnit alt) (hone : 1 ≤ alt.length) (hn : alt.length ≤ 8)
    {ts : List ℚ} (hlen : ts.length = alt.length) (hts : ∀ t ∈ ts, 0 ≤ t ∧ t ≤ 1) :
    ∃ f, CalcFn.init (exact lib) (unitBounds alt.length) (unitBounds 4) (tintProgram alt) = some f ∧
      f.compute (exact lib) ts = .ok ((List.finRange 4).map fun j => min 1 (tintSum alt ts j)) := by
  refine ⟨_, init_tintProgram halt hone (hn.trans (by norm_num)), ?_⟩
  set sums := (List.finRange 4).map fun j => min 1 (tintSum alt ts j) with hsums
  set rows := rowsCode alt (List.finRange 4) 0 with hrows
  have hcode : CodeAt (rows ++ dropCode alt.length) 0 (rows ++ dropCode alt.length) :=
    ⟨[], [], by simp, rfl⟩
  have hlength : sums.length = 4 := rfl
  obtain ⟨k, hk, hrun⟩ := @runs_rows lib _ _ _ halt hn _ hlen (List.finRange 4) []
    rfl hcode.left
  have hdrop := @runs_drop lib _ _ _ sums.reverse _ hn hlen (by simp [hlength]) hcode.right
  have hall := hrun.trans hdrop
  rw [Nat.zero_add, ← List.length_append] at hall
  have hres := @Runs.run_eq _ _ _ _ _ _ _ hall 200000 (by rw [List.length_finRange] at hk; omega)
  have hunit : ∀ x ∈ sums, 0 ≤ x ∧ x ≤ 1 := by
    intro x hx
    obtain ⟨j, -, rfl⟩ := List.mem_map.mp hx
    exact ⟨le_min zero_le_one (tintSum_nonneg hts j), min_le_left _ _⟩
  have hclip := @clipTo_unitBounds lib _ hts
  rw [hlen] at hclip
  have hout : CalcFn.nOut (⟨unitBounds alt.length, unitBounds 4, rows ++ dropCode alt.length⟩ :
      CalcFn ℚ) = 4 := by
    rw [CalcFn.nOut, length_unitBounds]
  simp only [CalcFn.compute, hclip, hout]
  rw [List.nil_append] at hres
  rw [hres]
  simp only [Except.bind, List.length_reverse, hlength, Nat.lt_irrefl, if_false]
  have htake : (sums.reverse.take 4).reverse = sums := by
    rw [List.take_of_length_le (by rw [List.length_reverse, hlength]), List.reverse_reverse]
  have hrange := @clipTo_unitBounds lib _ hunit
  rw [hlength] at hrange
  rw [htake, hrange]

end Kura.Engine.Calculator
