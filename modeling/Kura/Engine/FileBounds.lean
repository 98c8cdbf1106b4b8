import Kura.Engine.FileScan

/-!
# Which bytes the checks of a file read

The checks of the header and of the objects never read outside of the file. The
check of the cross-reference tables compares every line with a word of seven
bytes, so it does if a line that it comes to starts in the last six bytes.
-/

namespace Kura.Engine.FileScan

open Base (beforeAt cand cor loop sameAt scanWhile scanEnd sliceAt occursAt)

variable {d : Bytes}

theorem byteIs_isSome {p : UInt8 → Bool} {i : Nat} (h : i < d.length) : (byteIs d p i).isSome := by
  rw [byteIs, Option.isSome_map]
  exact Base.getElem?_isSome h

theorem beforeIs_isSome {p : UInt8 → Bool} {i : Nat} (h : 0 < i) (hi : i ≤ d.length) :
    (beforeIs d p i).isSome := by
  rw [beforeIs, Option.isSome_map]
  exact Base.beforeAt_isSome h hi

theorem of_decide_eq {P : Prop} [Decidable P] (h : some (decide P) = some true) : P :=
  of_decide_eq_true (Option.some.inj h)

theorem not_of_decide_eq {P : Prop} [Decidable P] (h : some (decide P) = some false) : ¬ P :=
  of_decide_eq_false (Option.some.inj h)

theorem byteAtIs_isSome (p : UInt8 → Bool) (i : Nat) : (byteAtIs d p i).isSome :=
  Base.cand_isSome rfl fun h => byteIs_isSome (of_decide_eq h)

/-- The length of the line ending that a text starts with. -/
def gapOf : Bytes → Nat
  | c :: rest =>
      if c = 0x0D then if rest.head? = some 0x0A then 2 else 1 else if c = 0x0A then 1 else 0
  | [] => 0

/-- The length of the line ending at a place. -/
def eolGap (d : Bytes) (i : Nat) : Nat := gapOf (d.drop i)

theorem byteAtIs_eq (p : UInt8 → Bool) (i : Nat) : byteAtIs d p i = some ((d[i]?).any p) := by
  rw [byteAtIs, byteIs]
  by_cases h : i < d.length
  · rw [decide_eq_true h, Base.cand_true, List.getElem?_eq_getElem h]
    rfl
  · rw [decide_eq_false h, Base.cand_false, List.getElem?_eq_none (not_lt.mp h)]
    rfl

theorem eolLen_eq (i : Nat) : eolLen d i = some (eolGap d i) := by
  have hfirst : d[i]? = (d.drop i).head? := List.head?_drop.symm
  have hsecond : d[i + 1]? = (d.drop i)[1]? := List.getElem?_drop.symm
  rw [eolLen, byteAtIs_eq, byteAtIs_eq, byteAtIs_eq, hfirst, hsecond, eolGap]
  cases d.drop i with
  | nil => rfl
  | cons c rest =>
      rw [gapOf, List.head?_cons, List.getElem?_cons_succ, ← List.head?_eq_getElem?]
      by_cases hr : c = 0x0D
      · cases hrest : rest.head? with
        | none => simp [hr]
        | some c' => by_cases hn : c' = 0x0A <;> simp [hr, hn]
      · by_cases hn : c = 0x0A <;> simp [hr, hn]

theorem eolGap_le {i : Nat} (h : i ≤ d.length) : i + eolGap d i ≤ d.length := by
  have hlen : (d.drop i).length = d.length - i := List.length_drop
  rw [eolGap]
  cases hd : d.drop i with
  | nil => exact h
  | cons c rest =>
      rw [hd, List.length_cons] at hlen
      rw [gapOf]
      split_ifs with hr hn hn
      · have hpos := List.length_pos_of_mem (List.mem_of_head? hn)
        omega
      all_goals omega

/-- The check of the header reads inside of the file. -/
theorem headerProblem_isSome (part : Nat) : (headerProblem d part).isSome := by
  refine Base.branch_isSome ?_ (fun _ => rfl) fun hlong => ?_
  · refine Base.cor_isSome rfl fun hlong => ?_
    have hlen := not_lt.mp (not_of_decide_eq hlong)
    refine Base.cor_isSome ?_ fun _ => Base.cor_isSome ?_ fun _ => Base.cor_isSome ?_ fun _ => ?_
    · rw [Option.isSome_map, Base.sameAt_isSome_iff]
      exact le_trans (by decide) hlen
    · rw [Option.isSome_map]
      exact byteAtIs_isSome _ _
    · exact byteIs_isSome (by omega)
    · rw [Option.isSome_map]
      exact byteAtIs_isSome _ _
  · have hlen := not_lt.mp (not_of_decide_eq (Base.cor_eq_false_iff.mp hlong).1)
    refine Base.branch_isSome ?_ (fun _ => rfl) fun _ => ?_
    · refine Base.cand_isSome rfl fun _ => Base.cor_isSome ?_ fun _ => ?_
      · rw [Option.isSome_map, versionOk]
        split
        · exact byteIs_isSome (by omega)
        · exact Base.cand_isSome (byteIs_isSome (by omega)) fun _ => byteIs_isSome (by omega)
      · rw [eolLen_eq]
        rfl
    · rw [Base.scanWhile_eq]
      refine Base.bind_isSome (a := some _) rfl fun eol _ => ?_
      rw [eolLen_eq]
      refine Base.bind_isSome (a := some _) rfl fun gap _ => ?_
      refine Base.branch_isSome ?_ (fun _ => rfl) fun hroom => ?_
      · refine Base.cor_isSome rfl fun hroom => byteIs_isSome ?_
        have hle := not_lt.mp (not_of_decide_eq hroom)
        omega
      · have hle := not_lt.mp (not_of_decide_eq (Base.cor_eq_false_iff.mp hroom).1)
        refine Base.branch_isSome ?_ (fun _ => rfl) fun _ => rfl
        refine Base.cor_isSome (byteIs_isSome (by omega)) fun _ =>
          Base.cor_isSome (byteIs_isSome (by omega)) fun _ =>
          Base.cor_isSome (byteIs_isSome (by omega)) fun _ =>
          Base.cor_isSome (byteIs_isSome (by omega)) fun _ => rfl

theorem isDigit_of_pdfWs {c : UInt8} (h : pdfWs c = true) : isDigit c = false := by
  simp only [pdfWs, Bool.or_eq_true, beq_iff_eq] at h
  obtain ((((rfl | rfl) | rfl) | rfl) | rfl) | rfl := h
  all_goals rfl

/-- The test for an object's header reads inside of the file. -/
theorem headerAt_isSome (num : Bytes) (k : Nat) : (headerAt d num k).isSome := by
  refine Base.branch_isSome ?_ (fun _ => rfl) fun hroom => ?_
  · refine Base.cor_isSome rfl fun hroom => ?_
    rw [Option.isSome_map, Base.sameAt_isSome_iff]
    exact (not_le.mp (not_of_decide_eq hroom)).le
  · have hlt := not_le.mp (not_of_decide_eq (Base.cor_eq_false_iff.mp hroom).1)
    refine Base.branch_isSome ?_ (fun _ => rfl) fun _ => ?_
    · exact Base.cand_isSome rfl fun hpos => beforeIs_isSome (of_decide_eq hpos) (by omega)
    · refine Base.branch_isSome ?_ (fun _ => rfl) fun _ => ?_
      · exact Base.cor_isSome rfl fun hm => byteIs_isSome (not_le.mp (not_of_decide_eq hm))
      · rw [Base.scanWhile_eq]
        refine Base.bind_isSome (a := some _) rfl fun m₁ _ => ?_
        rw [Base.scanWhile_eq]
        refine Base.bind_isSome (a := some _) rfl fun m₂ _ => ?_
        rw [Base.scanWhile_eq]
        refine Base.bind_isSome (a := some _) rfl fun m₃ _ => ?_
        refine Base.cand_isSome rfl fun hroom => ?_
        rw [Base.sameAt_isSome_iff]
        exact of_decide_eq hroom

/-- The header of an object is a number, white space and something more. -/
theorem headerAt_true {num : Bytes} {k : Nat} (h : headerAt d num k = some true) :
    occursAt num d k = true ∧ (∃ c, d[k + num.length]? = some c ∧ pdfWs c = true) ∧
      k + num.length + 1 < d.length := by
  obtain ⟨-, ⟨⟩⟩ | ⟨hnum, h⟩ := Base.branch_eq_some h
  obtain ⟨-, ⟨⟩⟩ | ⟨-, h⟩ := Base.branch_eq_some h
  obtain ⟨-, ⟨⟩⟩ | ⟨hws, h⟩ := Base.branch_eq_some h
  obtain ⟨hroom, hsame⟩ := Base.cor_eq_false_iff.mp hnum
  have hlt := not_le.mp (not_of_decide_eq hroom)
  have hws := (Base.cor_eq_false_iff.mp hws).2
  rw [Base.sameAt_of_le hlt.le] at hsame
  rw [byteIs, List.getElem?_eq_getElem hlt] at hws
  have hspace : pdfWs d[k + num.length] = true := by simpa using hws
  refine ⟨by simpa using hsame, ⟨_, List.getElem?_eq_getElem hlt, hspace⟩, ?_⟩
  rw [Base.scanWhile_eq, Base.scanEnd_of_pos (List.getElem?_eq_getElem hlt) hspace] at h
  have hfirst := Base.le_scanEnd pdfWs d (k + num.length + 1)
  generalize scanEnd pdfWs d (k + num.length + 1) = m₁ at h hfirst
  rw [Option.bind_eq_bind, Option.bind_some, Base.scanWhile_eq] at h
  have hsecond := Base.le_scanEnd isDigit d m₁
  generalize scanEnd isDigit d m₁ = m₂ at h hsecond
  rw [Option.bind_some, Base.scanWhile_eq] at h
  have hthird := Base.le_scanEnd pdfWs d m₂
  generalize scanEnd pdfWs d m₂ = m₃ at h hthird
  rw [Option.bind_some] at h
  have hobj := of_decide_eq (Base.cand_eq_true_iff.mp h).1
  omega

theorem nearHeader_isSome (num : Bytes) (i : Nat) (deltas : List Nat) :
    (nearHeader d num i deltas).isSome := by
  induction deltas with
  | nil => rfl
  | cons delta deltas ih =>
      refine Base.branch_isSome ?_ (fun _ => rfl) fun _ => ?_
      · exact Base.cand_isSome rfl fun _ => headerAt_isSome num _
      · exact Base.branch_isSome (headerAt_isSome num _) (fun _ => rfl) fun _ => ih

theorem nearHeader_some {num : Bytes} {i k : Nat} {deltas : List Nat}
    (h : nearHeader d num i deltas = some (some k)) : headerAt d num k = some true := by
  induction deltas with
  | nil => cases h
  | cons delta deltas ih =>
      obtain ⟨hbefore, ⟨⟩⟩ | ⟨-, h⟩ := Base.branch_eq_some h
      · exact (Base.cand_eq_true_iff.mp hbefore).2
      · obtain ⟨hbehind, ⟨⟩⟩ | ⟨-, h⟩ := Base.branch_eq_some h
        · exact hbehind
        · exact ih h

theorem findHeader_isSome (num : Bytes) (i : Nat) : (findHeader d num i).isSome :=
  Base.branch_isSome (headerAt_isSome num i) (fun _ => rfl) fun _ => nearHeader_isSome num i _

theorem findHeader_some {num : Bytes} {i k : Nat} (h : findHeader d num i = some (some k)) :
    headerAt d num k = some true := by
  obtain ⟨hhere, ⟨⟩⟩ | ⟨-, h⟩ := Base.branch_eq_some h
  · exact hhere
  · exact nearHeader_some h

/-- Behind a header that was found the object's head is read in bounds. -/
theorem objectHead_isSome {num : Bytes} {i : Nat} (hdigits : ∀ c ∈ num, isDigit c = true)
    (h : headerAt d num i = some true) : (objectHead d i).isSome := by
  obtain ⟨hnum, ⟨c, hc, hws⟩, hlt⟩ := headerAt_true h
  have hend : scanEnd isDigit d i = i + num.length :=
    Base.scanEnd_of_prefix (Base.occursAt_iff.mp hnum) hdigits hc (isDigit_of_pdfWs hws)
  rw [objectHead, Base.scanWhile_eq, hend]
  refine Base.bind_isSome (a := some _) rfl ?_
  rintro p ⟨⟩
  refine Base.bind_isSome ?_ fun startOk _ => ?_
  · refine Base.cand_isSome rfl fun _ => Base.cand_isSome rfl fun _ => ?_
    refine Base.cand_isSome (byteIs_isSome (by omega)) fun _ => ?_
    refine Base.cand_isSome (byteIs_isSome hlt) fun _ => Base.cor_isSome rfl fun hpos => ?_
    have hpos := Nat.pos_of_ne_zero (not_of_decide_eq hpos)
    exact Base.cor_isSome (beforeIs_isSome hpos (by omega)) fun _ =>
      beforeIs_isSome hpos (by omega)
  · rw [Base.scanWhile_eq]
    refine Base.bind_isSome (a := some _) rfl fun q _ => ?_
    refine Base.bind_isSome ?_ fun _ _ => rfl
    refine Base.cand_isSome rfl fun _ => Base.cand_isSome rfl fun _ => ?_
    refine Base.cand_isSome rfl fun hroom => ?_
    have hle := of_decide_eq hroom
    refine Base.cand_isSome (byteIs_isSome (by omega)) fun _ => ?_
    rw [Base.sameAt_isSome_iff]
    have hlen : (lit "obj").length = 3 := by decide
    omega

/-- The scan of a literal string ends in bounds. -/
theorem parens_total {rounds : Nat} (place : Nat) (hrounds : d.length < rounds) :
    ∃ e, loop (parenStep d) rounds (place, 0) = some e ∧ place ≤ e := by
  refine Base.loop_total (P := fun s => place ≤ s.1) (μ := fun s => d.length - s.1) ?_ le_rfl
    (by omega)
  rintro ⟨i, depth⟩ hi
  change place ≤ i at hi
  rw [parenStep]
  by_cases hend : d.length ≤ i
  · rw [if_pos hend]
    exact Base.stepOk_stop hi
  · rw [if_neg hend, List.getElem?_eq_getElem (not_le.mp hend), Option.bind_eq_bind,
      Option.bind_some]
    dsimp only
    split
    · exact Base.stepOk_next ⟨by dsimp only; omega, by dsimp only; omega⟩
    · generalize (if d[i] = 0x28 then depth + 1 else depth) = depth'
      split
      · exact Base.stepOk_stop hi
      · exact Base.stepOk_next ⟨by dsimp only; omega, by dsimp only; omega⟩

theorem hexString_total {rounds : Nat} (place : Nat) (hrounds : d.length < rounds) :
    ∃ h, loop (hexStep d) rounds ⟨place, 0, false⟩ = some h ∧ place ≤ h.place := by
  refine Base.loop_total (P := fun h => place ≤ h.place) (μ := fun h => d.length - h.place) ?_
    le_rfl (by dsimp only; omega)
  intro h hplace
  rw [hexStep]
  refine Base.stepOk_branch (byteAtIs_isSome _ _) (fun hmore => ?_) fun _ =>
    Base.stepOk_stop hplace
  have hlt := of_decide_eq (Base.cand_eq_true_iff.mp hmore).1
  rw [List.getElem?_eq_getElem hlt, Option.bind_eq_bind, Option.bind_some]
  split
  · exact Base.stepOk_next ⟨by dsimp only; omega, by dsimp only; omega⟩
  · exact Base.stepOk_next ⟨by dsimp only; omega, by dsimp only; omega⟩

theorem lengthOk_isSome (len : Option Int) (s : Nat) : (lengthOk d len s).isSome := by
  cases len with
  | none => rfl
  | some l =>
      rw [lengthOk]
      split
      · rw [eolLen_eq]
        refine Base.bind_isSome (a := some _) rfl fun el _ => ?_
        refine Base.cand_isSome rfl fun hroom => ?_
        rw [Base.sameAt_isSome_iff]
        exact of_decide_eq hroom
      · rfl

theorem keywordAt_isSome (w : String) (i : Nat) : (keywordAt d w i).isSome := by
  refine Base.cand_isSome rfl fun hroom => ?_
  rw [Base.sameAt_isSome_iff]
  exact of_decide_eq hroom

theorem keywordAt_le {w : String} {i : Nat} (h : keywordAt d w i = some true) :
    i + (lit w).length ≤ d.length := of_decide_eq (Base.cand_eq_true_iff.mp h).1

/-- A step of the loop over an object reads within the file and moves on. -/
def Advances (b : BodyScan) (x : Option (BodyScan ⊕ BodyScan)) : Prop :=
  Base.StepOk (fun _ => True) (fun b' => b.place < b'.place) x

/-- A step over a stream goes forward. -/
theorem streamStep_advances {len : Option Int} {b : BodyScan} (h : b.place + 6 ≤ d.length) :
    Advances b (streamStep d len b) := by
  have hkw : (cand (some (b.place + 6 < d.length)) (cor (byteIs d (· == 0x0A) (b.place + 6))
      (cand (byteIs d (· == 0x0D) (b.place + 6))
        (byteAtIs d (· == 0x0A) (b.place + 6 + 1))))).isSome := by
    refine Base.cand_isSome rfl fun hlt => ?_
    have hlt := of_decide_eq hlt
    exact Base.cor_isSome (byteIs_isSome hlt) fun _ => Base.cand_isSome (byteIs_isSome hlt)
      fun _ => byteAtIs_isSome _ _
  obtain ⟨kwOk, hkw⟩ := Option.isSome_iff_exists.mp hkw
  obtain ⟨lenOk, hlen⟩ := Option.isSome_iff_exists.mp
    (lengthOk_isSome (d := d) len (b.place + 6 + eolGap d (b.place + 6)))
  have hplace := eolGap_le h
  rw [streamStep]
  simp only [hkw, eolLen_eq, hlen, findBytes, if_pos hplace, Option.bind_eq_bind, Option.bind_some]
  cases hfind : Base.findFrom (lit "endstream") d (b.place + 6 + eolGap d (b.place + 6)) with
  | none => exact Base.stepOk_stop trivial
  | some es =>
      have hes := (Base.findFrom_eq_some_iff.mp hfind).1
      exact Base.stepOk_next (by dsimp only; omega)

/-- A step over an object's body goes forward. -/
theorem bodyStep_advances {rounds : Nat} (hrounds : d.length < rounds) (len : Option Int)
    {b : BodyScan} (hb : 0 < b.place) : Advances b (bodyStep d rounds len b) := by
  rw [bodyStep]
  by_cases hend : d.length ≤ b.place
  · rw [if_pos hend]
    exact Base.stepOk_stop trivial
  have hlt := not_le.mp hend
  rw [if_neg hend, List.getElem?_eq_getElem hlt]
  generalize hc : d[b.place] = c
  have hbyte : d[b.place]? = some c := hc ▸ List.getElem?_eq_getElem hlt
  change Advances b (if c = 0x25 then _ else if c = 0x28 then _ else _)
  split
  · rename_i hcomment
    rw [Base.scanWhile_eq]
    have hmore : isEol c = false := by
      rw [hcomment]
      rfl
    rw [Base.scanEnd_of_pos hbyte (by rw [hmore]; rfl)]
    exact Base.stepOk_next (Nat.lt_of_succ_le (Base.le_scanEnd _ _ _))
  split
  · obtain ⟨e, he, hle⟩ := parens_total b.place hrounds
    rw [he]
    exact Base.stepOk_next (Nat.lt_succ_of_le hle)
  refine Base.stepOk_branch ?_ (fun _ => Base.stepOk_next (Nat.lt_add_of_pos_right Nat.two_pos))
    fun _ => ?_
  · exact Base.cand_isSome rfl fun _ => byteAtIs_isSome _ _
  split
  · obtain ⟨h, hh, hle⟩ := hexString_total (b.place + 1) hrounds
    rw [hh]
    exact Base.stepOk_next (by dsimp only; omega)
  refine Base.stepOk_branch ?_ (fun hstream => ?_) fun _ => ?_
  · refine Base.cand_isSome rfl fun _ => Base.cand_isSome (keywordAt_isSome _ _) fun _ => ?_
    exact Base.cor_isSome rfl fun _ => beforeIs_isSome hb hlt.le
  · have hkey := (Base.cand_eq_true_iff.mp (Base.cand_eq_true_iff.mp hstream).2).1
    exact streamStep_advances (keywordAt_le hkey)
  refine Base.stepOk_branch ?_ (fun _ => Base.stepOk_stop trivial) fun _ => ?_
  · exact Base.cand_isSome rfl fun _ => keywordAt_isSome _ _
  refine Base.stepOk_branch ?_ (fun _ => Base.stepOk_stop trivial) fun _ => ?_
  · exact Base.cand_isSome rfl fun _ => Base.cand_isSome (keywordAt_isSome _ _) fun _ =>
      beforeIs_isSome hb hlt.le
  exact Base.stepOk_next (Nat.lt_succ_self _)

/-- The scan of an object's body ends. -/
theorem body_total {rounds : Nat} (hrounds : d.length < rounds) (len : Option Int) {place : Nat}
    (hplace : 0 < place) : (loop (bodyStep d rounds len) rounds ⟨place, false, 0⟩).isSome := by
  have hstep : ∀ b : BodyScan, 0 < b.place → Base.StepOk (fun _ => True)
      (fun b' => 0 < b'.place ∧ d.length - b'.place < d.length - b.place)
      (bodyStep d rounds len b) := by
    intro b hb
    obtain ⟨x, hx, -, hmove⟩ := bodyStep_advances hrounds len hb
    refine ⟨x, hx, fun _ _ => trivial, ?_⟩
    rintro b' rfl
    have hlt := hmove b' rfl
    refine ⟨hb.trans hlt, ?_⟩
    by_contra hdone
    rw [bodyStep, if_pos (by omega)] at hx
    cases hx
  have hrest : d.length - place < rounds := by omega
  obtain ⟨r, hr, -⟩ := Base.loop_total (μ := fun b : BodyScan => d.length - b.place) hstep
    (s := ⟨place, false, 0⟩) hplace hrest
  rw [hr]
  rfl

theorem endOk_isSome (q i : Nat) : (endOk d q i).isSome := by
  refine Base.branch_isSome (keywordAt_isSome _ _) (fun hend => ?_) fun _ => rfl
  have hle := keywordAt_le hend
  rw [eolLen_eq, eolLen_eq]
  refine Base.bind_isSome ?_ fun before _ => Base.bind_isSome ?_ fun after _ => rfl
  · refine Base.cand_isSome rfl fun hpos => ?_
    have hpos := of_decide_eq hpos
    exact Base.cor_isSome (beforeIs_isSome hpos (by omega)) fun _ =>
      beforeIs_isSome hpos (by omega)
  · exact Base.cor_isSome rfl fun _ => rfl

/-- The check of one entry of the table reads inside of the file. -/
theorem checkEntry_isSome {rounds : Nat} (hrounds : d.length < rounds)
    (length : Nat → Option Int) (f : Faults) (x : XRefEntry) :
    (checkEntry d rounds length f x).isSome := by
  rw [checkEntry]
  split
  · rfl
  · obtain ⟨found, hfound⟩ := Option.isSome_iff_exists.mp
      (findHeader_isSome (d := d) (decimal x.obj) x.offset.toNat)
    rw [hfound, Option.bind_eq_bind, Option.bind_some]
    cases found with
    | none => rfl
    | some i =>
        have hheader := findHeader_some hfound
        have hdigits : ∀ c ∈ decimal x.obj, isDigit c = true := fun c => isDigit_of_mem_decimal
        refine Base.bind_isSome (objectHead_isSome hdigits hheader) fun head _ => ?_
        refine Base.bind_isSome (body_total hrounds _ (Nat.succ_pos _)) fun b _ => ?_
        exact Base.bind_isSome (endOk_isSome _ _) fun _ _ => rfl

theorem objectScan_isSome {rounds : Nat} (hrounds : d.length < rounds)
    (length : Nat → Option Int) (xref : List XRefEntry) :
    (objectScan d rounds length xref).isSome := by
  have hall : ∀ f, (xref.foldlM (checkEntry d rounds length) f).isSome := by
    induction xref with
    | nil => exact fun _ => rfl
    | cons x xref ih =>
        intro f
        exact Base.bind_isSome (checkEntry_isSome hrounds length f x) fun f' _ => ih f'
  exact hall {}

end Kura.Engine.FileScan
