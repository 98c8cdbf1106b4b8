import Kura.Engine.FileBounds

/-!
# Which bytes the check of the tables reads

The lines of a cross-reference table are told by the text alone. The check of the
tables reads within the file exactly if none of the lines that it comes to starts
in the last six bytes.
-/

namespace Kura.Engine.FileScan

open Base (beforeAt cand cor loop sameAt scanWhile scanEnd sliceAt occursAt Reaches Follows)

variable {d : Bytes} {part : Nat}

/-- The line at a place, without its ending. -/
def lineOf (d : Bytes) (j : Nat) : Bytes := (d.drop j).takeWhile fun c => !isEol c

/-- The end of the line at a place. -/
def lineEnd (d : Bytes) (j : Nat) : Nat := j + (lineOf d j).length

/-- The places where the lines of a table start: at its first line, behind an empty line and behind
any other one that ends, is no trailer and keeps its numbers apart. -/
inductive LineStart (d : Bytes) (part s : Nat) : Nat → Prop
  | first : LineStart d part s s
  | empty {j : Nat} (h : LineStart d part s j) (hj : j < d.length) (hline : lineOf d j = []) :
      LineStart d part s (j + 1)
  | next {j : Nat} (h : LineStart d part s j) (hline : lineOf d j ≠ [])
      (htrailer : occursAt (lit "trailer") d j = false)
      (hnumbers : separated part (lineOf d j) = true) (hend : lineEnd d j < d.length) :
      LineStart d part s (lineEnd d j + eolGap d (lineEnd d j))

/-- Whether the keyword of a table is at a place. -/
def isKeyword (d : Bytes) (i : Nat) : Bool :=
  occursAt (lit "xref") d i && (i = 0 || (d[i - 1]?).any isEol) &&
    !(9 ≤ i && occursAt (lit "startxref") d (i - 9))

/-- Whether the keyword at a place is the start of another word. -/
def otherWord (d : Bytes) (i : Nat) : Bool := (d[i + 4]?).any fun c => !isDigit c && !pdfWs c

/-- Whether a line ending and a number follow a keyword. -/
def startsTable (d : Bytes) (i : Nat) : Bool :=
  eolGap d (i + 4) ≠ 0 && (d[i + 4 + eolGap d (i + 4)]?).any isDigit

/-- The first line of a table. -/
structure TableStart (d : Bytes) (i s : Nat) : Prop where
  keyword : isKeyword d i = true
  word : otherWord d i = false
  starts : startsTable d i = true
  first : s = i + 4 + eolGap d (i + 4)

/-- A keyword that no table follows. -/
structure KeywordWrong (d : Bytes) (i : Nat) : Prop where
  keyword : isKeyword d i = true
  word : otherWord d i = false
  starts : startsTable d i = false

/-- A line whose numbers are not kept apart. -/
structure BadLine (d : Bytes) (part j : Nat) : Prop where
  inside : j < d.length
  trailer : occursAt (lit "trailer") d j = false
  numbers : separated part (lineOf d j) = false

/-- Whether a problem is found at a place. -/
def HasProblem (d : Bytes) (part i : Nat) : Prop :=
  KeywordWrong d i ∨ ∃ s j, TableStart d i s ∧ LineStart d part s j ∧ BadLine d part j

/-- No line that the check comes to starts in the last six bytes. -/
def LinesWithin (d : Bytes) (part : Nat) : Prop :=
  ∀ i s j, (∀ i', i' < i → ¬ HasProblem d part i') → TableStart d i s → LineStart d part s j →
    j < d.length → j + 7 ≤ d.length

theorem scanEnd_line (j : Nat) : scanEnd (fun c => !isEol c) d j = lineEnd d j := rfl

theorem lineEnd_le {j : Nat} (h : j ≤ d.length) : lineEnd d j ≤ d.length := Base.scanEnd_le h

theorem sliceAt_line {j : Nat} (h : j ≤ d.length) :
    sliceAt d j (lineEnd d j) = some (lineOf d j) := by
  rw [sliceAt, if_pos (lineEnd_le h), lineEnd, Nat.add_sub_cancel_left]
  exact congrArg some (List.prefix_iff_eq_take.mp (List.takeWhile_prefix _)).symm

theorem tableLine_of_le {j : Nat} (h : d.length ≤ j) : tableLine d part j = some (.inl "") := by
  rw [tableLine, decide_eq_false (not_lt.mpr h)]
  rfl

/-- A line in the last six bytes is compared with bytes behind the file. -/
theorem tableLine_eq_none {j : Nat} (h : j < d.length) (hlast : d.length < j + 7) :
    tableLine d part j = none := by
  have hlen : (lit "trailer").length = 7 := by decide
  have hnone : sameAt d j (lit "trailer") = none := by
    rw [sameAt, hlen]
    exact if_neg (not_le.mpr hlast)
  rw [tableLine, decide_eq_true h, hnone]
  rfl

/-- One line of the table, taken apart. -/
theorem tableLine_eq {j : Nat} (h : j < d.length) (hroom : j + 7 ≤ d.length) :
    tableLine d part j = some (
      if occursAt (lit "trailer") d j then .inl ""
      else if !separated part (lineOf d j) then
        .inl "a cross-reference subsection header does not separate its numbers with a single space"
      else if fields (lineOf d j) = [] ∧ lineEnd d j = j then .inr (j + 1)
      else if lineEnd d j = d.length then .inl ""
      else .inr (lineEnd d j + eolGap d (lineEnd d j))) := by
  have hlen : (lit "trailer").length = 7 := by decide
  have hsame : sameAt d j (lit "trailer") = some (occursAt (lit "trailer") d j) :=
    Base.sameAt_of_le (hlen.symm ▸ hroom)
  rw [tableLine, decide_eq_true h, hsame, Base.cand_true, Base.scanWhile_eq, scanEnd_line]
  cases occursAt (lit "trailer") d j with
  | true => rfl
  | false =>
      simp only [Option.map_some, Bool.not_false, Option.bind_eq_bind, Option.bind_some,
        sliceAt_line h.le, eolLen_eq, if_true, Bool.false_eq_true, if_false]
      split_ifs <;> rfl

theorem room_of_isSome {j : Nat} (h : j < d.length) (hstep : (tableLine d part j).isSome) :
    j + 7 ≤ d.length := by
  by_contra hlast
  rw [tableLine_eq_none h (not_le.mp hlast)] at hstep
  cases hstep

theorem line_head {j : Nat} {c : UInt8} (hc : d[j]? = some c) (h : isEol c = false) :
    lineOf d j ≠ [] := by
  obtain ⟨hj, rfl⟩ := List.getElem?_eq_some_iff.mp hc
  have hplain : (!isEol d[j]) = true := by rw [h]; rfl
  rw [lineOf, List.drop_eq_getElem_cons hj,
    List.takeWhile_cons_of_pos (p := fun c => !isEol c) hplain]
  exact List.cons_ne_nil _ _

/-- Behind an empty line the next byte is looked at. -/
theorem follows_empty {j : Nat} (h : j < d.length) (hroom : j + 7 ≤ d.length)
    (hline : lineOf d j = []) : Follows (tableLine d part) j (j + 1) := by
  have htrailer : occursAt (lit "trailer") d j = false := by
    rw [← Bool.not_eq_true]
    intro hocc
    have hfirst := Base.occursAt_iff_getElem.mp hocc 0 (by decide)
    exact line_head hfirst (by decide) hline
  have hfields : fields [] = [] := by decide
  have hnumbers : separated part [] = true := by
    rw [separated, hfields]
  have hend : lineEnd d j = j := by
    rw [lineEnd, hline]
    rfl
  rw [Follows, tableLine_eq h hroom, htrailer, hline, hnumbers, if_neg Bool.false_ne_true,
    Bool.not_true, if_neg Bool.false_ne_true, if_pos ⟨hfields, hend⟩]

theorem follows_next {j : Nat} (h : j < d.length) (hroom : j + 7 ≤ d.length)
    (hline : lineOf d j ≠ []) (htrailer : occursAt (lit "trailer") d j = false)
    (hnumbers : separated part (lineOf d j) = true) (hend : lineEnd d j < d.length) :
    Follows (tableLine d part) j (lineEnd d j + eolGap d (lineEnd d j)) := by
  have hmoved : lineEnd d j ≠ j := by
    have hpos := List.length_pos_of_ne_nil hline
    rw [lineEnd]
    omega
  rw [Follows, tableLine_eq h hroom, htrailer, hnumbers, if_neg Bool.false_ne_true,
    Bool.not_true, if_neg Bool.false_ne_true, if_neg (fun h => hmoved h.2), if_neg hend.ne]

/-- A line with white space only is empty or ends behind its start. -/
theorem lineStart_of_follows {s j j' : Nat} (h : LineStart d part s j)
    (hstep : Follows (tableLine d part) j j') : LineStart d part s j' ∧ j < j' ∧ j < d.length := by
  have hj : j < d.length := by
    by_contra hle
    rw [Follows, tableLine_of_le (not_lt.mp hle)] at hstep
    cases hstep
  have hsome : (tableLine d part j).isSome := Option.isSome_of_eq_some hstep
  have hroom := room_of_isSome hj hsome
  by_cases hline : lineOf d j = []
  · have hempty : Follows (tableLine d part) j (j + 1) := follows_empty hj hroom hline
    cases hstep.symm.trans hempty
    exact ⟨.empty h hj hline, Nat.lt_succ_self _, hj⟩
  · have hmoved : j < lineEnd d j := Nat.lt_add_of_pos_right (List.length_pos_of_ne_nil hline)
    rw [Follows, tableLine_eq hj hroom] at hstep
    split_ifs at hstep with htrailer hnumbers hempty hend
    · cases hstep
    · cases hstep
    · exact absurd hempty.2 hmoved.ne'
    · cases hstep
    · cases hstep
      have hle := lineEnd_le hj.le
      rw [Bool.not_eq_true] at htrailer
      rw [Bool.not_eq_true, Bool.not_eq_false'] at hnumbers
      exact ⟨.next h hline htrailer hnumbers (lt_of_le_of_ne hle hend), by omega, hj⟩

theorem lineStart_of_reaches {s j : Nat} (h : Reaches (tableLine d part) s j) :
    LineStart d part s j := by
  induction h with
  | refl => exact .first
  | tail _ hlast ih => exact (lineStart_of_follows ih hlast).1

/-- A line is come to if the check does not fail before it. -/
theorem reaches_of_lineStart {s j : Nat} (h : LineStart d part s j)
    (hsome : ∀ j', Reaches (tableLine d part) s j' → (tableLine d part j').isSome) :
    Reaches (tableLine d part) s j := by
  induction h with
  | first => exact .refl
  | empty _ hj hline ih =>
      exact ih.tail (follows_empty hj (room_of_isSome hj (hsome _ ih)) hline)
  | @next j _ hline htrailer hnumbers hend ih =>
      have hj : j < d.length := (Nat.le_add_right _ _).trans_lt hend
      exact ih.tail (follows_next hj (room_of_isSome hj (hsome _ ih)) hline htrailer hnumbers hend)

/-- A line stops the check with a problem exactly if its numbers are not kept apart. -/
theorem tableLine_problem_iff {j : Nat} {r : String} (hstep : tableLine d part j = some (.inl r)) :
    r ≠ "" ↔ BadLine d part j := by
  by_cases hj : j < d.length
  · have hsome : (tableLine d part j).isSome := Option.isSome_of_eq_some hstep
    have hroom : j + 7 ≤ d.length := room_of_isSome hj hsome
    rw [tableLine_eq hj hroom] at hstep
    split_ifs at hstep with htrailer hnumbers hempty hend
    · cases hstep
      exact iff_of_false (fun h => h rfl) (fun h => ne_true_of_eq_false h.trailer htrailer)
    · cases hstep
      refine iff_of_true (by decide) ⟨hj, Bool.not_eq_true _ ▸ htrailer, ?_⟩
      rw [Bool.not_eq_true'] at hnumbers
      exact hnumbers
    · cases hstep
    · cases hstep
      refine iff_of_false (fun h => h rfl) (fun h => ?_)
      rw [h.numbers] at hnumbers
      exact hnumbers rfl
    · cases hstep
  · rw [tableLine_of_le (not_lt.mp hj)] at hstep
    cases hstep
    exact iff_of_false (fun h => h rfl) (fun h => hj h.inside)

/-- The result for a table says whether it has a line with a problem. -/
theorem loop_problem_iff {rounds s : Nat} {r : String}
    (h : loop (tableLine d part) rounds s = some r) :
    r ≠ "" ↔ ∃ j, LineStart d part s j ∧ BadLine d part j := by
  have hsome : ∀ j, Reaches (tableLine d part) s j → (tableLine d part j).isSome :=
    fun j hreach => (Base.step_of_loop h hreach).1
  constructor
  · intro hr
    obtain ⟨j, hreach, hstep⟩ := Base.reaches_of_loop h
    exact ⟨j, lineStart_of_reaches hreach, (tableLine_problem_iff hstep).mp hr⟩
  · rintro ⟨j, hline, hbad⟩
    have hreach := reaches_of_lineStart hline hsome
    have hroom := room_of_isSome hbad.inside (hsome j hreach)
    have hstep : tableLine d part j = some _ := tableLine_eq hbad.inside hroom
    rw [hbad.trailer, hbad.numbers] at hstep
    have heq := (Base.step_of_loop h hreach).2 _ hstep
    rw [← heq]
    decide

/-- A table that was read has no line that starts in the last six bytes. -/
theorem room_of_loop {rounds s : Nat} (h : (loop (tableLine d part) rounds s).isSome) {j : Nat}
    (hline : LineStart d part s j) (hj : j < d.length) : j + 7 ≤ d.length := by
  obtain ⟨r, hr⟩ := Option.isSome_iff_exists.mp h
  have hsome : ∀ j, Reaches (tableLine d part) s j → (tableLine d part j).isSome :=
    fun j hreach => (Base.step_of_loop hr hreach).1
  exact room_of_isSome hj (hsome j (reaches_of_lineStart hline hsome))

theorem loop_isSome {rounds s : Nat} (hrounds : d.length < rounds)
    (h : ∀ j, LineStart d part s j → j < d.length → j + 7 ≤ d.length) :
    (loop (tableLine d part) rounds s).isSome := by
  have hmeasure : d.length - s < rounds := by omega
  refine Base.loop_isSome (μ := fun j => d.length - j) ?_ ?_ hmeasure
  · intro j hreach
    by_cases hj : j < d.length
    · rw [tableLine_eq hj (h j (lineStart_of_reaches hreach) hj)]
      rfl
    · rw [tableLine_of_le (not_lt.mp hj)]
      rfl
  · intro j j' hreach hstep
    obtain ⟨-, hlt, hj⟩ := lineStart_of_follows (lineStart_of_reaches hreach) hstep
    omega

theorem byteIs_of_lt (p : UInt8 → Bool) {i : Nat} (h : i < d.length) :
    byteIs d p i = some (p d[i]) := by
  rw [byteIs, List.getElem?_eq_getElem h]
  rfl

theorem lineStart_test {i : Nat} (h : i ≤ d.length) :
    cand (some (0 < i)) (cand (beforeIs d (· != 0x0A) i) (beforeIs d (· != 0x0D) i)) =
      some !(i = 0 || (d[i - 1]?).any isEol) := by
  by_cases hi : i = 0
  · rw [hi]
    rfl
  · have hlt : i - 1 < d.length := by omega
    rw [decide_eq_true (Nat.pos_of_ne_zero hi), decide_eq_false hi, Base.cand_true, beforeIs,
      beforeIs, beforeAt, if_neg hi, List.getElem?_eq_getElem hlt, Option.map_some,
      Option.map_some, Option.any_some, isEol, Bool.false_or, bne, bne]
    cases d[i - 1] == 0x0A with
    | true => rw [Bool.or_true]; rfl
    | false => rw [Bool.or_false]; rfl

theorem otherWord_test (i : Nat) :
    cand (some (i + 4 < d.length)) (cand (byteIs d (fun c => !isDigit c) (i + 4))
      (byteIs d (fun c => !pdfWs c) (i + 4))) = some (otherWord d i) := by
  rw [otherWord]
  by_cases hi : i + 4 < d.length
  · rw [decide_eq_true hi, Base.cand_true, byteIs_of_lt _ hi, byteIs_of_lt _ hi,
      List.getElem?_eq_getElem hi, Option.any_some]
    cases isDigit d[i + 4] <;> rfl
  · rw [decide_eq_false hi, List.getElem?_eq_none (not_lt.mp hi)]
    rfl

theorem startsTable_test (i : Nat) :
    cor (some (eolGap d (i + 4) = 0)) (cor (some (d.length ≤ i + 4 + eolGap d (i + 4)))
      (byteIs d (fun c => !isDigit c) (i + 4 + eolGap d (i + 4)))) = some !startsTable d i := by
  rw [startsTable]
  generalize eolGap d (i + 4) = e
  by_cases he : e = 0
  · rw [he]
    rfl
  · rw [decide_eq_false he, Base.cor_false, decide_eq_true he, Bool.true_and]
    by_cases hi : i + 4 + e < d.length
    · rw [decide_eq_false (not_le.mpr hi), Base.cor_false, byteIs_of_lt _ hi,
        List.getElem?_eq_getElem hi]
      rfl
    · rw [decide_eq_true (not_lt.mp hi), List.getElem?_eq_none (not_lt.mp hi)]
      rfl

/-- What is found at a place: no keyword, the start of another word, a keyword that no table
follows, or a table. -/
theorem tableProblem_eq (rounds : Nat) {i : Nat} (h : i + 4 ≤ d.length) :
    tableProblem d rounds part i =
      if !isKeyword d i then some ""
      else if otherWord d i then some ""
      else if !startsTable d i then some "the xref keyword is not followed by a single EOL marker"
      else loop (tableLine d part) rounds (i + 4 + eolGap d (i + 4)) := by
  have hlen : (lit "xref").length = 4 := by decide
  have hlong : (lit "startxref").length = 9 := by decide
  have hsame : sameAt d i (lit "xref") = some (occursAt (lit "xref") d i) :=
    Base.sameAt_of_le (hlen.symm ▸ h)
  have hend : cand (some (9 ≤ i)) (sameAt d (i - 9) (lit "startxref")) =
      some (9 ≤ i && occursAt (lit "startxref") d (i - 9)) := by
    by_cases hi : 9 ≤ i
    · rw [decide_eq_true hi, Base.cand_true, Base.sameAt_of_le (by omega), Bool.true_and]
    · rw [decide_eq_false hi]
      rfl
  rw [tableProblem, hsame, lineStart_test (by omega), hend, isKeyword]
  cases occursAt (lit "xref") d i with
  | false => rfl
  | true =>
      cases (decide (i = 0) || (d[i - 1]?).any isEol) with
      | false => rfl
      | true =>
          cases (decide (9 ≤ i) && occursAt (lit "startxref") d (i - 9)) with
          | true => rfl
          | false =>
              simp only [eolLen_eq, otherWord_test, Option.bind_eq_bind, Option.bind_some,
                startsTable_test, Option.map_some, Bool.not_true, Bool.false_eq_true, if_false,
                Bool.not_false, Bool.and_self]

theorem le_of_isKeyword {i : Nat} (h : isKeyword d i = true) : i + 4 ≤ d.length := by
  rw [isKeyword, Bool.and_eq_true, Bool.and_eq_true] at h
  have hlen : (lit "xref").length = 4 := by decide
  have hle := Base.length_le_of_occursAt (by decide) h.1.1
  rw [hlen] at hle
  exact hle

theorem tableProblem_of_start {rounds i s : Nat} (h : TableStart d i s) :
    tableProblem d rounds part i = loop (tableLine d part) rounds s := by
  rw [tableProblem_eq rounds (le_of_isKeyword h.keyword), h.keyword, h.word, h.starts, h.first]
  rfl

/-- A result for a place says whether there is a problem. -/
theorem tableProblem_iff {rounds i : Nat} {r : String} (h : i + 4 ≤ d.length)
    (hr : tableProblem d rounds part i = some r) : r ≠ "" ↔ HasProblem d part i := by
  cases hkey : isKeyword d i with
  | false =>
      rw [tableProblem_eq rounds h, hkey] at hr
      cases hr
      refine iff_of_false (fun h => h rfl) ?_
      rintro (hwrong | ⟨s, j, hstart, -⟩)
      · exact Bool.false_ne_true (hkey.symm.trans hwrong.keyword)
      · exact Bool.false_ne_true (hkey.symm.trans hstart.keyword)
  | true =>
      cases hword : otherWord d i with
      | true =>
          rw [tableProblem_eq rounds h, hkey, hword] at hr
          cases hr
          refine iff_of_false (fun h => h rfl) ?_
          rintro (hwrong | ⟨s, j, hstart, -⟩)
          · exact Bool.false_ne_true (hwrong.word.symm.trans hword)
          · exact Bool.false_ne_true (hstart.word.symm.trans hword)
      | false =>
          cases hstarts : startsTable d i with
          | false =>
              rw [tableProblem_eq rounds h, hkey, hword, hstarts] at hr
              cases hr
              exact iff_of_true (by decide) (Or.inl ⟨hkey, hword, hstarts⟩)
          | true =>
              have hstart : TableStart d i _ := ⟨hkey, hword, hstarts, rfl⟩
              rw [tableProblem_of_start hstart] at hr
              rw [loop_problem_iff hr]
              constructor
              · rintro ⟨j, hline, hbad⟩
                exact Or.inr ⟨_, j, hstart, hline, hbad⟩
              · rintro (hwrong | ⟨s, j, hstart', hline, hbad⟩)
                · exact absurd (hwrong.starts.symm.trans hstarts) Bool.false_ne_true
                · rw [hstart'.first] at hline
                  exact ⟨j, hline, hbad⟩

theorem tableProblem_isSome {rounds i : Nat} (hrounds : d.length < rounds) (h : i + 4 ≤ d.length)
    (hlines : ∀ s j, TableStart d i s → LineStart d part s j → j < d.length → j + 7 ≤ d.length) :
    (tableProblem d rounds part i).isSome := by
  by_cases hstart : ∃ s, TableStart d i s
  · obtain ⟨s, hstart⟩ := hstart
    rw [tableProblem_of_start hstart]
    exact loop_isSome hrounds fun j => hlines s j hstart
  · rw [tableProblem_eq rounds h]
    split_ifs with hkey hword hstarts
    · rfl
    · rfl
    · rfl
    · rw [Bool.not_eq_true, Bool.not_eq_false'] at hkey hstarts
      exact absurd ⟨_, hkey, Bool.not_eq_true _ ▸ hword, hstarts, rfl⟩ hstart

/-- The search is in bounds when each test up to the first problem is. -/
theorem firstProblem_isSome_iff {f : Nat → Option String} {k i : Nat} :
    (firstProblem f (List.range' i k)).isSome ↔
      ∀ j, i ≤ j → j < i + k → (∀ j', i ≤ j' → j' < j → f j' = some "") → (f j).isSome := by
  induction k generalizing i with
  | zero => exact iff_of_true rfl fun j hj hlt _ => by omega
  | succ k ih =>
      rw [List.range'_succ, firstProblem]
      constructor
      · intro h j hj hlt hbefore
        obtain ⟨r, hr⟩ : ∃ r, f i = some r := by
          cases hi : f i with
          | none =>
              rw [hi] at h
              cases h
          | some r => exact ⟨r, rfl⟩
        obtain rfl | hne := Nat.eq_or_lt_of_le hj
        · rw [hr]
          rfl
        · rw [hbefore i le_rfl hne, Option.bind_eq_bind, Option.bind_some, if_pos rfl] at h
          exact ih.mp h j hne (by omega) fun j' hj' => hbefore j' (by omega)
      · intro h
        obtain ⟨r, hr⟩ := Option.isSome_iff_exists.mp
          (h i le_rfl (by omega) fun j' hj' hlt => by omega)
        rw [hr, Option.bind_eq_bind, Option.bind_some]
        split
        · rename_i hnone
          refine ih.mpr fun j hj hlt hbefore => h j (by omega) (by omega) fun j' hj' hlt' => ?_
          obtain rfl | hne := Nat.eq_or_lt_of_le hj'
          · rw [hr, hnone]
          · exact hbefore j' hne hlt'
        · rfl

theorem xrefProblem_isSome {rounds : Nat} (hrounds : d.length < rounds)
    (hlines : LinesWithin d part) : (xrefProblem d rounds part).isSome := by
  rw [xrefProblem, List.range_eq_range', firstProblem_isSome_iff]
  intro i _ hi hbefore
  refine tableProblem_isSome hrounds (by omega) fun s j => hlines i s j fun i' hi' => ?_
  have hnone := hbefore i' (Nat.zero_le _) hi'
  rw [← tableProblem_iff (by omega) hnone]
  exact fun h => h rfl

/-- A check that stays in bounds reads all lines of the table in bounds. -/
theorem linesWithin_of_xrefProblem {rounds : Nat} (h : (xrefProblem d rounds part).isSome) :
    LinesWithin d part := by
  rw [xrefProblem, List.range_eq_range', firstProblem_isSome_iff] at h
  intro i s j hclear hstart hline hj
  have hi := le_of_isKeyword hstart.keyword
  have hbefore : ∀ i', i' < i → tableProblem d rounds part i' = some "" := by
    intro i'
    induction i' using Nat.strong_induction_on with
    | h i' ih =>
        intro hi'
        obtain ⟨r, hr⟩ := Option.isSome_iff_exists.mp
          (h i' (Nat.zero_le _) (by omega) fun k _ hk => ih k hk (by omega))
        have hnone : r = "" := by
          by_contra hne
          exact hclear i' hi' ((tableProblem_iff (by omega) hr).mp hne)
        rw [hr, hnone]
  have hsome := h i (Nat.zero_le _) (by omega) fun i' _ hi' => hbefore i' hi'
  rw [tableProblem_of_start hstart] at hsome
  exact room_of_loop hsome hline hj

/-- The checks of a file end and read nothing outside of it. -/
def ReadsWithin (d : Bytes) (part : Nat) (length : Nat → Option Int) (xref : List XRefEntry) :
    Prop :=
  ∃ rounds, (headerProblem d part).isSome ∧ (xrefProblem d rounds part).isSome ∧
    (objectScan d rounds length xref).isSome

theorem readsWithin_iff (d : Bytes) (part : Nat) (length : Nat → Option Int)
    (xref : List XRefEntry) : ReadsWithin d part length xref ↔ LinesWithin d part := by
  constructor
  · rintro ⟨rounds, -, hxref, -⟩
    exact linesWithin_of_xrefProblem hxref
  · intro hlines
    exact ⟨d.length + 1, headerProblem_isSome part,
      xrefProblem_isSome (Nat.lt_succ_self _) hlines,
      objectScan_isSome (Nat.lt_succ_self _) length xref⟩

/-- A table that the file ends in. -/
def cutTable : Bytes := lit "xref\n0"

theorem cutTable_outside : ¬ ReadsWithin cutTable 2 (fun _ => none) [] := by
  rintro ⟨rounds, -, hxref, -⟩
  have hstart : TableStart cutTable 0 5 := ⟨by decide, by decide, by decide, by decide⟩
  have hroom :=
      linesWithin_of_xrefProblem hxref 0 5 5 (fun i' hi' => absurd hi' (Nat.not_lt_zero _))
    hstart .first (by decide)
  exact absurd hroom (by decide)

end Kura.Engine.FileScan
