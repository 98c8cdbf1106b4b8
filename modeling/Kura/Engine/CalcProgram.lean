import Kura.Engine.StackMachine

/-!
# Programs of the calculator

The text of a function of type 4 is a program: words, and blocks in braces that
are run or left out by `if` and `ifelse`. What the text is compiled to is run as
the program says.
-/

namespace Kura.Engine.Calculator

open Kura.Engine.CText

variable {R : Type*}

/-- A program, with what follows each of its parts. -/
inductive Program (R : Type*) where
  | done
  | push (v : R) (next : Program R)
  | op (o : PsOp) (next : Program R)
  | when (block next : Program R)
  | choose (block other next : Program R)

namespace Program

/-- What a program does to the stack. -/
def eval (A : Arith R) : Program R → List R → Except Stop (List R)
  | done, st => .ok st
  | push v next, st => (pushed v st).bind (eval A next)
  | op o next, st => (apply A o st).bind (eval A next)
  | when _ _, [] => .error .refused
  | when block next, v :: st =>
      (if A.isZero v then .ok st else eval A block st).bind (eval A next)
  | choose _ _ _, [] => .error .refused
  | choose block other next, v :: st =>
      (if A.isZero v then eval A other st else eval A block st).bind (eval A next)

/-- The number of instructions of a program. -/
def size : Program R → Nat
  | done => 0
  | push _ next | op _ next => next.size + 1
  | when block next => block.size + 1 + next.size
  | choose block other next => block.size + 1 + (other.size + 1) + next.size

/-- The instructions of a program that stands at a position. -/
def compile : Nat → Program R → List (PsInstr R)
  | _, done => []
  | pc, push v next => .push v :: compile (pc + 1) next
  | pc, op o next => .op o :: compile (pc + 1) next
  | pc, when block next =>
      let behind := pc + 1 + block.size
      .jumpFalse behind :: (compile (pc + 1) block ++ compile behind next)
  | pc, choose block other next =>
      let second := pc + 1 + block.size + 1
      let behind := second + other.size
      .jumpFalse second ::
        (compile (pc + 1) block ++
          .jump behind :: (compile second other ++ compile behind next))

/-- How deep the blocks of a program are nested. -/
def nesting : Program R → Nat
  | done => 0
  | push _ next | op _ next => next.nesting
  | when block next => max (block.nesting + 1) next.nesting
  | choose block other next => max (max (block.nesting + 1) (other.nesting + 1)) next.nesting

theorem length_compile (p : Program R) (pc : Nat) : (p.compile pc).length = p.size := by
  induction p generalizing pc with
  | done => rfl
  | push v next ih => exact congrArg (· + 1) (ih _)
  | op o next ih => exact congrArg (· + 1) (ih _)
  | when block next ihb ih =>
      simp only [compile, size, List.length_cons, List.length_append, ihb, ih]
      omega
  | choose block other next ihb iho ih =>
      simp only [compile, size, List.length_cons, List.length_append, ihb, iho, ih]
      omega

end Program

/-- Some steps lead to the outcome of a piece of code: to the position behind it, or to the end of
the run. -/
def Follows (A : Arith R) (code : List (PsInstr R)) (k pc : Nat) (st : List R) (pc' : Nat)
    (r : Except Stop (List R)) : Prop :=
  ∀ steps, run A code (steps + k) pc st = r.bind (run A code steps pc')

namespace Follows

variable {A : Arith R} {code : List (PsInstr R)} {i : PsInstr R} {k pc pc' pc'' m : Nat}
  {st : List R} {r : Except Stop (List R)}

theorem refl : Follows A code 0 pc st pc (.ok st) := fun _ => rfl

/-- An instruction that goes on behind itself. -/
theorem single (hi : code[pc]? = some i)
    (hstep : step A i pc st = r.map fun st => (pc', st)) : Follows A code 1 pc st pc' r := by
  intro steps
  rw [run, hi]
  dsimp only
  rw [hstep]
  cases r <;> rfl

/-- One piece of code after another. -/
theorem bind (h : Follows A code k pc st pc' r) {f : List R → Except Stop (List R)}
    (hf : ∀ st', ∃ n ≤ m, Follows A code n pc' st' pc'' (f st')) :
    ∃ n ≤ k + m, Follows A code n pc st pc'' (r.bind f) := by
  cases r with
  | error e => exact ⟨k, Nat.le_add_right k m, h⟩
  | ok st' =>
      obtain ⟨n, hn, hrest⟩ := hf st'
      refine ⟨k + n, Nat.add_le_add_left hn k, fun steps => ?_⟩
      calc run A code (steps + (k + n)) pc st
          = run A code (steps + n + k) pc st := by rw [Nat.add_comm k n, Nat.add_assoc]
        _ = run A code (steps + n) pc' st' := h _
        _ = (f st').bind (run A code steps pc'') := hrest steps

end Follows

/-- The jump over a block. -/
theorem follows_jumpFalse {A : Arith R} {code : List (PsInstr R)} {pc target : Nat}
    (hi : code[pc]? = some (.jumpFalse target)) (v : R) (st : List R) :
    Follows A code 1 pc (v :: st) (if A.isZero v then target else pc + 1) (.ok st) := .single hi rfl

/-- A block without its condition is refused. -/
theorem follows_noCondition {A : Arith R} {code : List (PsInstr R)} {pc target : Nat}
    (hi : code[pc]? = some (.jumpFalse target)) (pc' : Nat) :
    Follows A code 1 pc [] pc' (.error .refused) := .single hi rfl

namespace Program

/-- The code of a program does what the program says, in at most as many steps as it has
instructions. -/
theorem follows (A : Arith R) (p : Program R) {code : List (PsInstr R)} {pc : Nat}
    (hcode : CodeAt code pc (p.compile pc)) (st : List R) :
    ∃ k ≤ p.size, Follows A code k pc st (pc + p.size) (p.eval A st) := by
  induction p generalizing pc st with
  | done => exact ⟨0, le_rfl, .refl⟩
  | push v next ih =>
      have hone : Follows A code 1 pc st (pc + 1) (pushed v st) := .single hcode.head rfl
      obtain ⟨k, hk, h⟩ := hone.bind fun st' => ih hcode.tail st'
      rw [Nat.add_right_comm] at h
      exact ⟨k, by rw [size]; omega, h⟩
  | op o next ih =>
      have hone : Follows A code 1 pc st (pc + 1) (apply A o st) := .single hcode.head rfl
      obtain ⟨k, hk, h⟩ := hone.bind fun st' => ih hcode.tail st'
      rw [Nat.add_right_comm] at h
      exact ⟨k, by rw [size]; omega, h⟩
  | when block next ihb ih =>
      have hblock := hcode.tail.left
      have hnext := hcode.tail.right
      rw [length_compile] at hnext
      have hend : pc + 1 + block.size + next.size = pc + (when block next).size := by
        rw [size]
        omega
      cases st with
      | nil => exact ⟨1, by rw [size]; omega, follows_noCondition hcode.head _⟩
      | cons v st =>
          have hjump := follows_jumpFalse (A := A) hcode.head v st
          cases hv : A.isZero v with
          | true =>
              rw [hv, if_pos rfl] at hjump
              obtain ⟨k, hk, h⟩ := hjump.bind fun st' => ih hnext st'
              rw [hend] at h
              refine ⟨k, by rw [size]; omega, ?_⟩
              rwa [eval, hv, if_pos rfl]
          | false =>
              rw [hv, if_neg Bool.false_ne_true] at hjump
              obtain ⟨k, hk, h⟩ := hjump.bind fun st' => ihb hblock st'
              obtain ⟨k', hk', h'⟩ := h.bind fun st' => ih hnext st'
              rw [hend] at h'
              refine ⟨k', by rw [size]; omega, ?_⟩
              rwa [eval, hv, if_neg Bool.false_ne_true]
  | choose block other next ihb iho ih =>
      have hblock := hcode.tail.left
      have hrest := hcode.tail.right
      rw [length_compile] at hrest
      have hother := hrest.tail.left
      have hnext := hrest.tail.right
      rw [length_compile] at hnext
      have hend : pc + 1 + block.size + 1 + other.size + next.size =
          pc + (choose block other next).size := by
        rw [size]
        omega
      cases st with
      | nil => exact ⟨1, by rw [size]; omega, follows_noCondition hcode.head _⟩
      | cons v st =>
          have hjump := follows_jumpFalse (A := A) hcode.head v st
          cases hv : A.isZero v with
          | true =>
              rw [hv, if_pos rfl] at hjump
              obtain ⟨k, hk, h⟩ := hjump.bind fun st' => iho hother st'
              obtain ⟨k', hk', h'⟩ := h.bind fun st' => ih hnext st'
              rw [hend] at h'
              refine ⟨k', by rw [size]; omega, ?_⟩
              rwa [eval, hv, if_pos rfl]
          | false =>
              rw [hv, if_neg Bool.false_ne_true] at hjump
              obtain ⟨k, hk, h⟩ := hjump.bind fun st' => ihb hblock st'
              -- Behind the first block the second one is left out.
              obtain ⟨k', hk', h'⟩ := h.bind fun st' =>
                (Follows.single (r := .ok st') hrest.head rfl).bind fun st' => ih hnext st'
              rw [hend] at h'
              refine ⟨k', by rw [size]; omega, ?_⟩
              rwa [eval, hv, if_neg Bool.false_ne_true]

/-- A program whose code is not too long is run to its end. -/
theorem run_compile (A : Arith R) (p : Program R) (st : List R) {steps : Nat}
    (hsteps : p.size ≤ steps) : run A (p.compile 0) steps 0 st = p.eval A st := by
  have hcode : CodeAt (p.compile 0) 0 (p.compile 0) := ⟨[], [], by simp, rfl⟩
  obtain ⟨k, hk, h⟩ := p.follows A hcode st
  obtain ⟨rest, rfl⟩ := Nat.exists_eq_add_of_le' (hk.trans hsteps)
  rw [h rest, Nat.zero_add]
  cases p.eval A st with
  | error e => rfl
  | ok st' =>
      have hend : run A (p.compile 0) rest p.size st' = .ok st' := by
        cases rest with
        | zero => rw [run, if_neg (by rw [length_compile]; exact lt_irrefl _)]
        | succ rest => rw [run, List.getElem?_eq_none (length_compile p 0).le]
      exact hend

end Program

/-- The tokens of a program text. -/
inductive Token where
  | word (w : List Char)
  | opener
  | closer

/-- The word that was read, if there is one. -/
def pending (w : List Char) : List Token := if w = [] then [] else [.word w]

/-- The tokens of a text, in a comment or not and behind some characters of a word. -/
def tokensFrom : Bool → List Char → List Char → List Token
  | _, w, [] => pending w
  | true, w, c :: s => tokensFrom (c != '\n' && c != '\r') w s
  | false, w, c :: s =>
      if isWordChar c then tokensFrom false (w ++ [c]) s
      else
        pending w ++
          if c = '\x7b' then .opener :: tokensFrom false [] s
          else if c = '\x7d' then .closer :: tokensFrom false [] s
          else tokensFrom (c = '%') [] s

/-- The tokens of a text; white space and comments only separate them. -/
def tokens (s : List Char) : List Token := tokensFrom false [] s

/-- The program that some tokens spell up to the brace that closes it, and what follows. On the
outside that brace may be missing. -/
inductive Says (A : Arith R) : Nat → List Token → Program R → List Token → Prop
  | eof : Says A 0 [] .done []
  | close {depth ts} : Says A depth (.closer :: ts) .done ts
  | push {depth w v ts next rest} (hw : instrOf A w = some (.push v))
      (h : Says A depth ts next rest) : Says A depth (.word w :: ts) (.push v next) rest
  | op {depth w o ts next rest} (hw : instrOf A w = some (.op o))
      (h : Says A depth ts next rest) : Says A depth (.word w :: ts) (.op o next) rest
  | when {depth ts block ts' next rest}
      (hblock : Says A (depth + 1) ts block (.word "if".toList :: ts'))
      (h : Says A depth ts' next rest) : Says A depth (.opener :: ts) (.when block next) rest
  | choose {depth ts block ts' other ts'' next rest}
      (hblock : Says A (depth + 1) ts block (.opener :: ts'))
      (hother : Says A (depth + 1) ts' other (.word "ifelse".toList :: ts''))
      (h : Says A depth ts'' next rest) :
      Says A depth (.opener :: ts) (.choose block other next) rest

theorem not_isWordChar_of_isBlank {c : Char} (h : isBlank c = true) : isWordChar c = false := by
  rw [isWordChar, h]
  rfl

theorem tokens_blank {c : Char} (h : isBlank c = true) (s : List Char) :
    tokens (c :: s) = tokens s := by
  have hne : c ≠ '\x7b' ∧ c ≠ '\x7d' ∧ c ≠ '%' := by
    refine ⟨?_, ?_, ?_⟩ <;> rintro rfl <;> exact absurd h (by decide)
  rw [tokens, tokensFrom, not_isWordChar_of_isBlank h, if_neg Bool.false_ne_true, if_neg hne.1,
    if_neg hne.2.1, decide_eq_false hne.2.2]
  rfl

theorem tokens_open (s : List Char) : tokens ('\x7b' :: s) = .opener :: tokens s := rfl

theorem tokens_close (s : List Char) : tokens ('\x7d' :: s) = .closer :: tokens s := rfl

/-- A comment goes on to the end of its line. -/
theorem tokens_comment (s : List Char) :
    tokens ('%' :: s) = tokens (s.dropWhile fun c => c != '\n' && c != '\r') := by
  change tokensFrom true [] s = _
  induction s with
  | nil => rfl
  | cons c s ih =>
      rw [tokensFrom]
      cases hc : (c != '\n' && c != '\r') with
      | true => rwa [List.dropWhile_cons, if_pos hc]
      | false =>
          have hblank : isBlank c = true := by
            rw [Bool.and_eq_false_iff] at hc
            rcases hc with hc | hc <;> rw [bne_eq_false_iff_eq] at hc <;> subst hc <;> decide
          rw [List.dropWhile_cons, hc, if_neg Bool.false_ne_true, tokens_blank hblank]
          rfl

/-- The word under way ends with the first character that is no word's. -/
theorem tokensFrom_word {w : List Char} (hw : w ≠ []) (s : List Char) :
    tokensFrom false w s =
      .word (w ++ s.takeWhile isWordChar) :: tokens (s.dropWhile isWordChar) := by
  induction s generalizing w with
  | nil =>
      rw [tokensFrom, pending, if_neg hw, List.takeWhile_nil, List.append_nil]
      rfl
  | cons c s ih =>
      cases hc : isWordChar c with
      | true =>
          rw [tokensFrom, hc, if_pos rfl, ih (by simp), List.takeWhile_cons_of_pos hc,
            List.dropWhile_cons_of_pos hc, List.append_assoc]
          rfl
      | false =>
          have hneg : ¬ isWordChar c = true := by
            rw [hc]
            exact Bool.false_ne_true
          rw [List.takeWhile_cons_of_neg hneg, List.dropWhile_cons_of_neg hneg, List.append_nil,
            tokens, tokensFrom, tokensFrom, hc, pending, if_neg hw]
          rfl

theorem tokens_word {c : Char} (h : isWordChar c = true) (s : List Char) :
    tokens (c :: s) = .word (nextWord (c :: s)).1 :: tokens (nextWord (c :: s)).2 := by
  have hblank : ¬ isBlank c = true := by
    rw [not_isBlank_of_isWordChar h]
    exact Bool.false_ne_true
  rw [nextWord, List.dropWhile_cons_of_neg hblank, List.takeWhile_cons_of_pos h,
    List.dropWhile_cons_of_pos h]
  exact (tokensFrom.eq_3 [] c s).trans (by rw [h, if_pos rfl]; exact tokensFrom_word (by simp) s)

theorem tokens_dropWhile (s : List Char) : tokens (s.dropWhile isBlank) = tokens s := by
  induction s with
  | nil => rfl
  | cons c s ih =>
      cases hc : isBlank c with
      | true => rw [List.dropWhile_cons_of_pos hc, ih, tokens_blank hc]
      | false =>
          rw [List.dropWhile_cons_of_neg]
          rw [hc]
          exact Bool.false_ne_true

/-- A word that is read is the first token. -/
theorem tokens_nextWord {s : List Char} (h : (nextWord s).1 ≠ []) :
    tokens s = .word (nextWord s).1 :: tokens (nextWord s).2 := by
  rw [← tokens_dropWhile]
  cases hs : s.dropWhile isBlank with
  | nil =>
      rw [nextWord, hs] at h
      exact absurd rfl h
  | cons c rest =>
      have hc : isWordChar c = true := by
        by_contra hc
        rw [nextWord, hs, List.takeWhile_cons_of_neg hc] at h
        exact h rfl
      have hnext : nextWord s = nextWord (c :: rest) := by
        have hblank : ¬ isBlank c = true := by
          rw [not_isBlank_of_isWordChar hc]
          exact Bool.false_ne_true
        rw [nextWord, nextWord, hs, List.dropWhile_cons_of_neg hblank]
      rw [hnext]
      exact tokens_word hc rest

theorem set_length {α : Type*} (xs ys : List α) (a b : α) :
    (xs ++ [a] ++ ys).set xs.length b = xs ++ b :: ys := by
  rw [List.append_assoc, List.set_append_right _ _ le_rfl, Nat.sub_self]
  rfl

theorem instrOf_eq_some {A : Arith R} {w : List Char} {i : PsInstr R} (h : instrOf A w = some i) :
    (∃ v, i = .push v) ∨ ∃ o, i = .op o := by
  rw [instrOf] at h
  split at h
  · exact Or.inl ⟨_, (Option.some.inj h).symm⟩
  · obtain ⟨o, -, rfl⟩ := Option.map_eq_some_iff.mp h
    exact Or.inr ⟨_, rfl⟩

/-- The code of a block gets its target once the block is known. -/
theorem compile_when (code : List (PsInstr R)) (block next : Program R) :
    let code₁ := code ++ [.jumpFalse 0] ++ block.compile (code.length + 1)
    let code₂ := code₁.set code.length (.jumpFalse code₁.length)
    code₂ ++ next.compile code₂.length = code ++ (Program.when block next).compile code.length := by
  intro code₁ code₂
  have hlen : code₁.length = code.length + 1 + block.size := by
    simp only [code₁, List.length_append, List.length_singleton, Program.length_compile]
  have hcode : code₂ = code ++ .jumpFalse (code.length + 1 + block.size) ::
      block.compile (code.length + 1) := by
    rw [← hlen]
    exact set_length _ _ _ _
  have hlen₂ : code₂.length = code.length + 1 + block.size := (List.length_set ..).trans hlen
  rw [hlen₂, hcode, List.append_assoc]
  rfl

/-- The code of a conditional with two arms, put together from its parts. -/
theorem compile_choose (code : List (PsInstr R)) (block other next : Program R) :
    let code₁ := code ++ [.jumpFalse 0] ++ block.compile (code.length + 1)
    let code₂ := (code₁ ++ [.jump 0]).set code.length (.jumpFalse (code₁.length + 1))
    let code₃ := code₂ ++ other.compile code₂.length
    let code₄ := code₃.set code₁.length (.jump code₃.length)
    code₄ ++ next.compile code₄.length =
      code ++ (Program.choose block other next).compile code.length := by
  intro code₁ code₂ code₃ code₄
  have hlen : code₁.length = code.length + 1 + block.size := by
    simp only [code₁, List.length_append, List.length_singleton, Program.length_compile]
  have hlen₂ : code₂.length = code.length + 1 + block.size + 1 := by
    rw [List.length_set, List.length_append, hlen, List.length_singleton]
  have hlen₃ : code₃.length = code.length + 1 + block.size + 1 + other.size := by
    rw [List.length_append, hlen₂, Program.length_compile]
  have hlen₄ : code₄.length = code.length + 1 + block.size + 1 + other.size :=
    (List.length_set ..).trans hlen₃
  have hcode₂ : code₂ = (code ++ .jumpFalse (code.length + 1 + block.size + 1) ::
      block.compile (code.length + 1)) ++ [.jump 0] := by
    rw [← hlen, List.append_assoc, List.cons_append]
    simp only [code₂, code₁]
    rw [List.append_assoc (code ++ _)]
    exact set_length _ _ _ _
  have hcode : code₄ = (code ++ .jumpFalse (code.length + 1 + block.size + 1) ::
      block.compile (code.length + 1)) ++ .jump (code.length + 1 + block.size + 1 + other.size) ::
        other.compile (code.length + 1 + block.size + 1) := by
    have hpos : code₁.length = (code ++ .jumpFalse (code.length + 1 + block.size + 1) ::
        block.compile (code.length + 1)).length := by
      rw [hlen, List.length_append, List.length_cons, Program.length_compile]
      omega
    simp only [code₄]
    rw [hlen₃, hpos]
    simp only [code₃]
    rw [hlen₂, hcode₂]
    exact set_length _ _ _ _
  rw [hlen₄, hcode]
  simp only [Program.compile, List.append_assoc, List.cons_append]

/-- The parser reads the program that the tokens spell, and adds its code. -/
theorem Parsed.spells {A : Arith R} {depth : Nat} {s left : List Char}
    {code code' : List (PsInstr R)} (h : Parsed A depth s code left code') :
    ∃ p, Says A depth (tokens s) p (tokens left) ∧ depth + p.nesting ≤ 64 ∧
      code' = code ++ p.compile code.length := by
  induction h with
  | eof => exact ⟨.done, .eof, by simp [Program.nesting], by simp [Program.compile]⟩
  | close hdepth =>
      rw [tokens_close]
      exact ⟨.done, .close, hdepth, by simp [Program.compile]⟩
  | blank hc _ ih =>
      rw [tokens_blank hc]
      exact ih
  | comment _ ih =>
      rw [tokens_comment]
      exact ih
  | @word depth c rest code left code' i hc hi _ ih =>
      obtain ⟨p, hp, hnest, rfl⟩ := ih
      rw [tokens_word hc]
      obtain ⟨v, rfl⟩ | ⟨o, rfl⟩ := instrOf_eq_some hi
      · exact ⟨.push v p, .push hi hp, hnest, by simp [Program.compile]⟩
      · exact ⟨.op o p, .op hi hp, hnest, by simp [Program.compile]⟩
  | @ifBlock depth rest code left code' r₁ code₁ hblock hif _ ihb ih =>
      obtain ⟨block, hb, hnestb, rfl⟩ := ihb
      obtain ⟨next, hn, hnest, rfl⟩ := ih
      have hword : (nextWord r₁).1 ≠ [] := by
        rw [hif]
        decide
      rw [tokens_nextWord hword, hif] at hb
      rw [tokens_open]
      refine ⟨.when block next, .when hb hn, ?_, ?_⟩
      · rw [Program.nesting]
        omega
      · rw [List.length_append, List.length_singleton]
        exact compile_when code block next
  | @ifElse depth rest code left code' r₁ code₁ other r₂ code₂ hblock hif hother _ hifelse _ ihb
      iho ih =>
      obtain ⟨block, hb, hnestb, rfl⟩ := ihb
      obtain ⟨second, ho, hnesto, rfl⟩ := iho
      obtain ⟨next, hn, hnest, rfl⟩ := ih
      have hword : (nextWord r₂).1 ≠ [] := by
        rw [hifelse]
        decide
      rw [← tokens_dropWhile r₁, hother, tokens_open] at hb
      rw [tokens_nextWord hword, hifelse] at ho
      rw [tokens_open]
      refine ⟨.choose block second next, .choose hb ho hn, ?_, ?_⟩
      · rw [Program.nesting]
        omega
      · have hlen : (code ++ [PsInstr.jumpFalse (R := R) 0]).length = code.length + 1 := by simp
        rw [hlen]
        exact compile_choose code block second next

/-- No comment stands right behind a block. -/
def Plain (s : List Char) : Prop :=
  ∀ before behind, s = before ++ '\x7d' :: behind → (behind.dropWhile isBlank).head? ≠ some '%'

theorem Plain.suffix {s s' : List Char} (h : Plain s) (hs : s' <:+ s) : Plain s' := by
  obtain ⟨front, rfl⟩ := hs
  intro before behind heq
  exact h (front ++ before) behind (by rw [heq, List.append_assoc])

/-- White space and comments in front of a text are passed over. -/
def Passes (A : Arith R) (s s' : List Char) : Prop :=
  s' <:+ s ∧ tokens s = tokens s' ∧ ∀ depth code left code', Parsed A depth s' code left code' →
    Parsed A depth s code left code'

/-- The first character of a text that is neither white space nor in a comment. -/
theorem passes_start (A : Arith R) (s : List Char) : Passes A s [] ∨
    ∃ c s', Passes A s (c :: s') ∧ isBlank c = false ∧ c ≠ '%' := by
  induction hn : s.length using Nat.strong_induction_on generalizing s with
  | _ n ih =>
      cases s with
      | nil => exact Or.inl ⟨List.suffix_refl _, rfl, fun _ _ _ _ h => h⟩
      | cons c s =>
          have hstep : ∀ s₁, s₁ <:+ s → tokens (c :: s) = tokens s₁ →
              (∀ depth code left code', Parsed A depth s₁ code left code' →
                Parsed A depth (c :: s) code left code') →
              Passes A (c :: s) [] ∨
                ∃ c' s', Passes A (c :: s) (c' :: s') ∧ isBlank c' = false ∧ c' ≠ '%' := by
            intro s₁ hsuffix htokens hparsed
            have hlt : s₁.length < n := by
              have hle := hsuffix.length_le
              rw [← hn, List.length_cons]
              omega
            have hfront := hsuffix.trans (List.suffix_cons c s)
            rcases ih _ hlt s₁ rfl with ⟨hs, ht, hp⟩ | ⟨c', s', ⟨hs, ht, hp⟩, hc'⟩
            · exact Or.inl ⟨hs.trans hfront, htokens.trans ht, fun _ _ _ _ h =>
                hparsed _ _ _ _ (hp _ _ _ _ h)⟩
            · exact Or.inr ⟨c', s', ⟨hs.trans hfront, htokens.trans ht, fun _ _ _ _ h =>
                hparsed _ _ _ _ (hp _ _ _ _ h)⟩, hc'⟩
          cases hblank : isBlank c with
          | true =>
              exact hstep s (List.suffix_refl s) (tokens_blank hblank s) fun _ _ _ _ h =>
                .blank hblank h
          | false =>
              by_cases hcomment : c = '%'
              · subst hcomment
                exact hstep _ (List.dropWhile_suffix _) (tokens_comment s) fun _ _ _ _ h =>
                  .comment h
              · exact Or.inr ⟨c, s, ⟨List.suffix_refl _, rfl, fun _ _ _ _ h => h⟩, hblank,
                  hcomment⟩

theorem isWordChar_of_ne {c : Char} (hblank : isBlank c = false) (hcomment : c ≠ '%')
    (hopen : c ≠ '\x7b') (hclose : c ≠ '\x7d') : isWordChar c = true := by
  simp [isWordChar, hblank, hcomment, hopen, hclose]

/-- What the first token tells of the text. -/
inductive Start (A : Arith R) (s : List Char) : List Token → Prop
  | empty (h : Passes A s []) : Start A s []
  | opener {s' : List Char} (h : Passes A s ('\x7b' :: s')) : Start A s (.opener :: tokens s')
  | closer {s' : List Char} (h : Passes A s ('\x7d' :: s')) : Start A s (.closer :: tokens s')
  | word {c : Char} {s' : List Char} (h : Passes A s (c :: s')) (hc : isWordChar c = true) :
      Start A s (.word (nextWord (c :: s')).1 :: tokens (nextWord (c :: s')).2)

theorem start_tokens (A : Arith R) (s : List Char) : Start A s (tokens s) := by
  rcases passes_start A s with h | ⟨c, s', h, hblank, hcomment⟩
  · rw [h.2.1]
    exact .empty h
  · rw [h.2.1]
    by_cases hopen : c = '\x7b'
    · subst hopen
      exact .opener h
    · by_cases hclose : c = '\x7d'
      · subst hclose
        exact .closer h
      · have hc := isWordChar_of_ne hblank hcomment hopen hclose
        rw [tokens_word hc]
        exact .word h hc

theorem start_of_tokens (A : Arith R) {s : List Char} {ts : List Token} (hs : tokens s = ts) :
    Start A s ts :=
  hs ▸ start_tokens A s

/-- What stands behind white space that no comment follows. -/
theorem behind_cases {s : List Char} (h : (s.dropWhile isBlank).head? ≠ some '%') :
    s.dropWhile isBlank = [] ∨ (∃ rest, s.dropWhile isBlank = '\x7b' :: rest) ∨
      (∃ rest, s.dropWhile isBlank = '\x7d' :: rest) ∨ (nextWord s).1 ≠ [] := by
  cases hs : s.dropWhile isBlank with
  | nil => exact Or.inl rfl
  | cons c rest =>
      rw [hs] at h
      have hblank : isBlank c = false := by
        have hhead := List.head?_dropWhile_not isBlank s
        rw [hs] at hhead
        exact hhead
      by_cases hopen : c = '\x7b'
      · exact Or.inr (Or.inl ⟨rest, by rw [hopen]⟩)
      · by_cases hclose : c = '\x7d'
        · exact Or.inr (Or.inr (Or.inl ⟨rest, by rw [hclose]⟩))
        · have hc := isWordChar_of_ne hblank (fun hc => h (congrArg some hc)) hopen hclose
          refine Or.inr (Or.inr (Or.inr ?_))
          rw [nextWord, hs, List.takeWhile_cons_of_pos hc]
          exact List.cons_ne_nil _ _

/-- Behind a block of a plain text the parser finds the word that is the next token. -/
theorem nextWord_of_tokens {s : List Char} (h : (s.dropWhile isBlank).head? ≠ some '%')
    {w : List Char} {ts : List Token} (ht : tokens s = .word w :: ts) :
    (nextWord s).1 = w ∧ tokens (nextWord s).2 = ts := by
  have hword : (nextWord s).1 ≠ [] := by
    rw [← tokens_dropWhile] at ht
    rcases behind_cases h with hs | ⟨rest, hs⟩ | ⟨rest, hs⟩ | hword
    · rw [hs] at ht
      cases ht
    · rw [hs] at ht
      cases ht
    · rw [hs] at ht
      cases ht
    · exact hword
  rw [tokens_nextWord hword] at ht
  obtain ⟨hw, hts⟩ := List.cons.inj ht
  exact ⟨Token.word.inj hw, hts⟩

/-- Behind a block of a plain text the parser finds the brace that is the next token. -/
theorem brace_of_tokens {s : List Char} (h : (s.dropWhile isBlank).head? ≠ some '%')
    {ts : List Token} (ht : tokens s = .opener :: ts) :
    (nextWord s).1 ≠ "if".toList ∧ ∃ s', s.dropWhile isBlank = '\x7b' :: s' ∧ tokens s' = ts := by
  rcases behind_cases h with hs | ⟨rest, hs⟩ | ⟨rest, hs⟩ | hword
  · rw [← tokens_dropWhile, hs] at ht
    cases ht
  · rw [← tokens_dropWhile, hs] at ht
    refine ⟨?_, rest, hs, (List.cons.inj ht).2⟩
    rw [nextWord, hs]
    exact (List.cons_ne_nil _ _).symm
  · rw [← tokens_dropWhile, hs] at ht
    cases ht
  · rw [tokens_nextWord hword] at ht
    cases ht

/-- What the parser does with a text whose tokens spell a program. -/
structure Accepts (A : Arith R) (depth : Nat) (s : List Char) (code code' : List (PsInstr R))
    (rest : List Token) (left : List Char) : Prop where
  tokens : tokens left = rest
  suffix : left <:+ s
  closed : depth ≠ 0 → ∃ before, s = before ++ '\x7d' :: left
  parsed : Parsed A depth s code left code'

/-- A text in front of which something is passed over, or read. -/
theorem Accepts.front {A : Arith R} {depth : Nat} {s s' left : List Char}
    {code mid code' : List (PsInstr R)} {rest : List Token}
    (h : Accepts A depth s' mid code' rest left) (hs : s' <:+ s)
    (hparsed : Parsed A depth s code left code') : Accepts A depth s code code' rest left := by
  refine ⟨h.tokens, h.suffix.trans hs, fun hdepth => ?_, hparsed⟩
  obtain ⟨front, rfl⟩ := hs
  obtain ⟨before, rfl⟩ := h.closed hdepth
  exact ⟨front ++ before, (List.append_assoc ..).symm⟩

theorem nextWord_suffix (s : List Char) : (nextWord s).2 <:+ s :=
  (List.dropWhile_suffix _).trans (List.dropWhile_suffix _)

/-- A word is read, and then what follows it. -/
theorem accepts_word {A : Arith R} {depth : Nat} {s w : List Char} {ts rest : List Token}
    {i : PsInstr R} {code code' : List (PsInstr R)} (hs : tokens s = .word w :: ts)
    (hplain : Plain s) (hw : instrOf A w = some i)
    (hnext : ∀ {s' : List Char}, tokens s' = ts → Plain s' →
      ∃ left, Accepts A depth s' (code ++ [i]) code' rest left) :
    ∃ left, Accepts A depth s code code' rest left := by
  cases start_of_tokens A hs with
  | @word c s' h hc =>
      have hsuffix := (nextWord_suffix (c :: s')).trans h.1
      obtain ⟨left, hleft⟩ := hnext rfl (hplain.suffix hsuffix)
      exact ⟨left, hleft.front hsuffix (h.2.2 _ _ _ _ (.word hc hw hleft.parsed))⟩

/-- A plain text is accepted if its tokens spell a program whose blocks are not nested too deep. -/
theorem Says.accepts {A : Arith R} {depth : Nat} {ts rest : List Token} {p : Program R}
    (h : Says A depth ts p rest) {s : List Char} (hs : tokens s = ts) (hplain : Plain s)
    (hnest : depth + p.nesting ≤ 64) (code : List (PsInstr R)) :
    ∃ left, Accepts A depth s code (code ++ p.compile code.length) rest left := by
  induction h generalizing s code with
  | eof =>
      cases start_of_tokens A hs with
      | empty h =>
          rw [Program.compile, List.append_nil]
          exact ⟨[], rfl, h.1, fun hne => absurd rfl hne, h.2.2 _ _ _ _ .eof⟩
  | @close depth ts =>
      cases start_of_tokens A hs with
      | @closer s' h =>
          rw [Program.compile, List.append_nil]
          refine ⟨s', rfl, (List.suffix_cons _ _).trans h.1, fun _ => ?_, h.2.2 _ _ _ _ (.close ?_)⟩
          · obtain ⟨before, hbefore⟩ := h.1
            exact ⟨before, hbefore.symm⟩
          · exact (Nat.le_add_right _ _).trans hnest
  | push hw _ ih =>
      obtain ⟨left, hleft⟩ := accepts_word hs hplain hw fun h hp => ih h hp hnest _
      exact ⟨left, by simpa [Program.compile] using hleft⟩
  | op hw _ ih =>
      obtain ⟨left, hleft⟩ := accepts_word hs hplain hw fun h hp => ih h hp hnest _
      exact ⟨left, by simpa [Program.compile] using hleft⟩
  | @when depth ts block ts' next rest _ _ ihb ih =>
      rw [Program.nesting] at hnest
      cases start_of_tokens A hs with
      | @opener s' h =>
          have hs' := (List.suffix_cons _ _).trans h.1
          obtain ⟨r₁, hr₁⟩ := ihb rfl (hplain.suffix hs') (by omega) (code ++ [.jumpFalse 0])
          obtain ⟨before, hbefore⟩ := hr₁.closed (Nat.succ_ne_zero _)
          obtain ⟨hif, hts⟩ := nextWord_of_tokens
            (hplain.suffix hs' before r₁ hbefore) hr₁.tokens
          have hsuffix := (nextWord_suffix r₁).trans (hr₁.suffix.trans hs')
          obtain ⟨left, hleft⟩ := ih hts (hplain.suffix hsuffix) (by omega) _
          have hparsed := Parsed.ifBlock hr₁.parsed hif hleft.parsed
          rw [List.length_append, List.length_singleton] at hleft hparsed
          rw [compile_when code block next] at hleft hparsed
          exact ⟨left, hleft.front hsuffix (h.2.2 _ _ _ _ hparsed)⟩
  | @choose depth ts block ts' other ts'' next rest _ _ _ ihb iho ih =>
      rw [Program.nesting] at hnest
      cases start_of_tokens A hs with
      | @opener s' h =>
          have hs' := (List.suffix_cons _ _).trans h.1
          obtain ⟨r₁, hr₁⟩ := ihb rfl (hplain.suffix hs') (by omega) (code ++ [.jumpFalse 0])
          obtain ⟨before, hbefore⟩ := hr₁.closed (Nat.succ_ne_zero _)
          obtain ⟨hif, second, hbrace, hts⟩ := brace_of_tokens
            (hplain.suffix hs' before r₁ hbefore) hr₁.tokens
          have hs₂ : second <:+ s := by
            have hdrop := List.dropWhile_suffix isBlank (l := r₁)
            rw [hbrace] at hdrop
            exact (List.suffix_cons _ _).trans (hdrop.trans (hr₁.suffix.trans hs'))
          have hlen : (code ++ [PsInstr.jumpFalse (R := R) 0]).length = code.length + 1 := by simp
          rw [hlen] at hr₁
          let code₁ := code ++ [.jumpFalse 0] ++ block.compile (code.length + 1)
          let code₂ := (code₁ ++ [PsInstr.jump 0]).set code.length (.jumpFalse (code₁.length + 1))
          let code₃ := code₂ ++ other.compile code₂.length
          let code₄ := code₃.set code₁.length (.jump code₃.length)
          obtain ⟨r₂, hr₂⟩ := iho hts (hplain.suffix hs₂) (by omega) code₂
          obtain ⟨before₂, hbefore₂⟩ := hr₂.closed (Nat.succ_ne_zero _)
          obtain ⟨hifelse, hts₂⟩ := nextWord_of_tokens
            (hplain.suffix hs₂ before₂ r₂ hbefore₂) hr₂.tokens
          have hsuffix := (nextWord_suffix r₂).trans (hr₂.suffix.trans hs₂)
          obtain ⟨left, hleft⟩ := ih hts₂ (hplain.suffix hsuffix) (by omega) code₄
          have hcode : code₄ ++ next.compile code₄.length =
              code ++ (Program.choose block other next).compile code.length :=
            compile_choose code block other next
          have hparsed : Parsed A depth ('\x7b' :: s') code left
              (code₄ ++ next.compile code₄.length) :=
            .ifElse hr₁.parsed hif hbrace hr₂.parsed hifelse hleft.parsed
          rw [hcode] at hleft hparsed
          exact ⟨left, hleft.front hsuffix (h.2.2 _ _ _ _ hparsed)⟩

/-- Tokens spell one program. -/
theorem Says.unique {A : Arith R} {depth : Nat} {ts rest rest' : List Token} {p p' : Program R}
    (h : Says A depth ts p rest) (h' : Says A depth ts p' rest') : p = p' ∧ rest = rest' := by
  induction h generalizing p' rest' with
  | eof =>
      cases h'
      exact ⟨rfl, rfl⟩
  | close =>
      cases h'
      exact ⟨rfl, rfl⟩
  | push hw _ ih =>
      cases h' with
      | push hw' h' =>
          obtain ⟨rfl, rfl⟩ := ih h'
          cases hw.symm.trans hw'
          exact ⟨rfl, rfl⟩
      | op hw' => cases hw.symm.trans hw'
  | op hw _ ih =>
      cases h' with
      | push hw' => cases hw.symm.trans hw'
      | op hw' h' =>
          obtain ⟨rfl, rfl⟩ := ih h'
          cases hw.symm.trans hw'
          exact ⟨rfl, rfl⟩
  | when _ _ ihb ih =>
      cases h' with
      | when hblock' h' =>
          obtain ⟨rfl, hrest⟩ := ihb hblock'
          obtain rfl := (List.cons.inj hrest).2
          obtain ⟨rfl, rfl⟩ := ih h'
          exact ⟨rfl, rfl⟩
      | choose hblock' =>
          obtain ⟨-, hrest⟩ := ihb hblock'
          cases hrest
  | choose _ _ _ ihb iho ih =>
      cases h' with
      | when hblock' =>
          obtain ⟨-, hrest⟩ := ihb hblock'
          cases hrest
      | choose hblock' hother' h' =>
          obtain ⟨rfl, hrest⟩ := ihb hblock'
          obtain rfl := (List.cons.inj hrest).2
          obtain ⟨rfl, hrest⟩ := iho hother'
          obtain rfl := (List.cons.inj hrest).2
          obtain ⟨rfl, rfl⟩ := ih h'
          exact ⟨rfl, rfl⟩

/-- The text behind the first brace. -/
def programText (src : List Char) : List Char := (src.dropWhile (· != '\x7b')).tail

/-- The numbers of inputs and outputs that a function may have. -/
def Sized (domain range : List R) : Prop :=
  (1 ≤ domain.length / 2 ∧ domain.length / 2 ≤ 32) ∧ 1 ≤ range.length / 2 ∧ range.length / 2 ≤ 32

instance (domain range : List R) : Decidable (Sized domain range) :=
  inferInstanceAs (Decidable ((_ ∧ _) ∧ _))

namespace CalcFn

variable {A : Arith R} {domain range : List R} {src : List Char}

/-- A calculator function is accepted when the text behind its brace is a program. -/
theorem init_eq (hsized : Sized domain range) : init A domain range src =
    if '\x7b' ∈ src then
      (parseBlock A ((programText src).length + 1) 0 (programText src) []).map fun r =>
        ⟨domain, range, r.2⟩
    else none := by
  obtain ⟨⟨hd, hd'⟩, hr, hr'⟩ := hsized
  rw [init, if_neg (by omega), programText]
  split_ifs with hmem
  · cases hdrop : src.dropWhile (· != '\x7b') with
    | nil =>
        have hall := List.dropWhile_eq_nil_iff.mp hdrop _ hmem
        exact absurd hall (by decide)
    | cons c s => rfl
  · have hdrop : src.dropWhile (· != '\x7b') = [] := by
      refine List.dropWhile_eq_nil_iff.mpr fun c hc => bne_iff_ne.mpr ?_
      rintro rfl
      exact hmem hc
    rw [hdrop]

theorem sized_of_init {f : CalcFn R} (h : init A domain range src = some f) :
    Sized domain range := by
  rw [init] at h
  split_ifs at h
  refine ⟨⟨?_, ?_⟩, ?_, ?_⟩ <;> omega

/-- The code of a function is that of the program in its text. -/
theorem says_of_init {f : CalcFn R} (h : init A domain range src = some f) :
    '\x7b' ∈ src ∧ ∃ p rest, Says A 0 (tokens (programText src)) p rest ∧ p.nesting ≤ 64 ∧
      f = ⟨domain, range, p.compile 0⟩ := by
  rw [init_eq (sized_of_init h)] at h
  split_ifs at h with hmem
  obtain ⟨r, hr, rfl⟩ := Option.map_eq_some_iff.mp h
  obtain ⟨p, hp, hnest, hcode⟩ := (parsed_of_parseBlock hr).spells
  exact ⟨hmem, p, tokens r.1, hp, by omega, congrArg _ hcode⟩

theorem init_of_spells (hsized : Sized domain range) (hmem : '\x7b' ∈ src)
    (hplain : Plain (programText src)) {p : Program R} {rest : List Token}
    (hp : Says A 0 (tokens (programText src)) p rest) (hnest : p.nesting ≤ 64) :
    init A domain range src = some ⟨domain, range, p.compile 0⟩ := by
  obtain ⟨left, hleft⟩ := hp.accepts rfl hplain (by omega) []
  rw [init_eq hsized, if_pos hmem, parseBlock_of_parsed hleft.parsed (Nat.lt_succ_self _)]
  rfl

/-- A plain text is loaded exactly if it is a program whose blocks are not nested too deep, and then
to the code of that program. -/
theorem init_iff (hplain : Plain (programText src)) (f : CalcFn R) :
    init A domain range src = some f ↔
      Sized domain range ∧ '\x7b' ∈ src ∧ ∃ p rest, Says A 0 (tokens (programText src)) p rest ∧
        p.nesting ≤ 64 ∧ f = ⟨domain, range, p.compile 0⟩ := by
  constructor
  · intro h
    exact ⟨sized_of_init h, says_of_init h⟩
  · rintro ⟨hsized, hmem, p, rest, hp, hnest, rfl⟩
    exact init_of_spells hsized hmem hplain hp hnest

theorem plain_of_notMem {s : List Char} (h : '%' ∉ s) : Plain s := by
  intro before behind hs hhead
  have hmem : '%' ∈ behind := (List.dropWhile_suffix _).mem (List.mem_of_mem_head? hhead)
  exact h (by rw [hs]; exact List.mem_append_right _ (List.mem_cons_of_mem _ hmem))

/-- Squares a number that is not zero. -/
def squareText : List Char := "\x7b dup \x7b dup mul \x7d if \x7d".toList

def square : Program ℚ := .op .dup (.when (.op .dup (.op .mul .done)) .done)

theorem says_square : Says (exact noLib) 0 (tokens (programText squareText)) square [] := by
  have hdup : instrOf (exact noLib) "dup".toList = some (.op .dup) :=
    (means_op (o := ("dup", .dup)) (by decide)).2.2
  have hmul : instrOf (exact noLib) "mul".toList = some (.op .mul) :=
    (means_op (o := ("mul", .mul)) (by decide)).2.2
  exact .op hdup (.when (.op hdup (.op hmul .close)) .close)

theorem init_iff_square : init (exact noLib) [0, 1] [0, 1] squareText =
    some ⟨[0, 1], [0, 1], [.op .dup, .jumpFalse 4, .op .dup, .op .mul]⟩ :=
  (init_iff (plain_of_notMem (by decide)) _).mpr
    ⟨by decide, by decide, square, [], says_square, by decide, rfl⟩

end CalcFn

end Kura.Engine.Calculator
