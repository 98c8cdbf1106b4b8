import Kura.Base.Integers
import Kura.Engine.Strtod

/-!
# The calculator of PDF functions

A function of type 4 is a program in a small stack language. Its text is
compiled to instructions with jumps, and the instructions are run on a stack of
at most 128 numbers.

## Implementation notes

The program counter and the stack are passed on explicitly; the top of the
stack is the head of its list. Doubles come in only through an `Arith`, the
arithmetic the calculator is run with. The parser takes fuel, one unit for each
round of its loops; `parseBlock_of_parsed` shows that the length of the text
is enough. The enumerators for `if` and `ifelse`, which no instruction has, are
left out. A text that the parser accepts has a derivation `Parsed`, one
constructor for each branch of the parser.
-/

namespace Kura.Engine.Calculator

open Base (toInt32)
open Kura.Engine.CText

/-- The operators of the language. -/
inductive PsOp where
  | abs | add | atan | ceiling | cos | cvi | cvr | div | exp | floor | idiv | ln | log | mod
  | mul | neg | round | sin | sqrt | sub | truncate | and | bitshift | eq | false | ge | gt
  | le | lt | ne | not | or | true | xor | copy | dup | exch | index | pop | roll
  deriving DecidableEq

/-- The words of the operators. -/
def ops : List (String × PsOp) :=
  [("abs", .abs), ("add", .add), ("atan", .atan), ("ceiling", .ceiling), ("cos", .cos),
    ("cvi", .cvi), ("cvr", .cvr), ("div", .div), ("exp", .exp), ("floor", .floor),
    ("idiv", .idiv), ("ln", .ln), ("log", .log), ("mod", .mod), ("mul", .mul),
    ("neg", .neg), ("round", .round), ("sin", .sin), ("sqrt", .sqrt), ("sub", .sub),
    ("truncate", .truncate), ("and", .and), ("bitshift", .bitshift), ("eq", .eq),
    ("false", .false), ("ge", .ge), ("gt", .gt), ("le", .le), ("lt", .lt), ("ne", .ne),
    ("not", .not), ("or", .or), ("true", .true), ("xor", .xor), ("copy", .copy),
    ("dup", .dup), ("exch", .exch), ("index", .index), ("pop", .pop), ("roll", .roll)]

/-- One instruction. -/
inductive PsInstr (R : Type*) where
  | op (o : PsOp)
  | push (val : R)
  | jump (target : Nat)
  | jumpFalse (target : Nat)
  deriving DecidableEq

/-- The arithmetic of the numbers on the stack. -/
structure Arith (R : Type*) where
  /-- `strtod` of a word, if it takes the whole word. -/
  number : List Char → Option R
  isZero : R → Bool
  ofBool : Bool → R
  /-- The cast to an integer of 32 bits. -/
  toInt : R → Int
  unary : PsOp → R → R
  binary : PsOp → R → R → R
  lt : R → R → Bool

variable {R : Type*}

def isWordChar (c : Char) : Bool := !isBlank c && c != '\x7b' && c != '\x7d' && c != '%'

/-- A word behind white space, and what follows it. -/
def nextWord (s : List Char) : List Char × List Char :=
  ((s.dropWhile isBlank).takeWhile isWordChar, (s.dropWhile isBlank).dropWhile isWordChar)

/-- The instruction of a word: a number, or an operator. -/
def instrOf (A : Arith R) (w : List Char) : Option (PsInstr R) :=
  match A.number w with
  | some v => some (.push v)
  | none => (ops.find? fun o => w = o.1.toList).map fun o => .op o.2

/-- One round of the parser at a character; `again` goes on behind what the round reads, at
the depth it is given. -/
def parseRound (A : Arith R)
    (again : Nat → List Char → List (PsInstr R) → Option (List Char × List (PsInstr R)))
    (depth : Nat) (c : Char) (rest : List Char) (code : List (PsInstr R)) :
    Option (List Char × List (PsInstr R)) :=
  if isBlank c then again depth rest code
  else if c = '%' then again depth (rest.dropWhile fun c => c != '\n' && c != '\r') code
  else if c = '\x7d' then some (rest, code)
  else if c = '\x7b' then
    -- the jump over the block gets its target once the block is known
    (again (depth + 1) rest (code ++ [.jumpFalse 0])).bind fun r =>
      if (nextWord r.1).1 = "if".toList then
        again depth (nextWord r.1).2 (r.2.set code.length (.jumpFalse r.2.length))
      else
        match r.1.dropWhile isBlank with
        | [] => none
        | b :: other =>
            if b = '\x7b' then
              (again (depth + 1) other
                ((r.2 ++ [PsInstr.jump 0]).set code.length (.jumpFalse (r.2.length + 1)))).bind
                fun r' =>
                  if (nextWord r'.1).1 = "ifelse".toList then
                    again depth (nextWord r'.1).2 (r'.2.set r.2.length (.jump r'.2.length))
                  else none
            else none
  else
    (instrOf A (nextWord (c :: rest)).1).bind fun i =>
      again depth (nextWord (c :: rest)).2 (code ++ [i])

/-- Compiles the text up to the brace that closes a block. -/
def parseBlock (A : Arith R) :
    Nat → Nat → List Char → List (PsInstr R) → Option (List Char × List (PsInstr R))
  | 0, _, _, _ => none
  | fuel + 1, depth, s, code =>
      if 64 < depth then none
      else
        match s with
        | [] => if depth = 0 then some ([], code) else none
        | c :: rest => parseRound A (parseBlock A fuel) depth c rest code

/-- A compiled function. -/
structure CalcFn (R : Type*) where
  domain : List R
  range : List R
  code : List (PsInstr R)

namespace CalcFn

def nOut (f : CalcFn R) : Nat := f.range.length / 2

/-- Loads a function: its domain, its range and its text. -/
def init (A : Arith R) (domain range : List R) (src : List Char) : Option (CalcFn R) :=
  if domain.length / 2 < 1 ∨ 32 < domain.length / 2 ∨ range.length / 2 < 1 ∨
      32 < range.length / 2 then none
  else
    match src.dropWhile (· != '\x7b') with
    | [] => none
    | _ :: s => (parseBlock A (s.length + 1) 0 s []).map fun r => ⟨domain, range, r.2⟩

end CalcFn

/-- Why a run has no result: the calculator refuses, or it leaves its stack. -/
inductive Stop where
  | refused
  | outside
  deriving DecidableEq

/-- Puts a number on the stack, if there is room for it. -/
def pushed (v : R) (st : List R) : Except Stop (List R) :=
  if 128 ≤ st.length then .error .refused else .ok (v :: st)

/-- What an operator does to the stack. -/
def apply (A : Arith R) (o : PsOp) (st : List R) : Except Stop (List R) :=
  match o, st with
  | .cvr, st => .ok st
  | .true, st => pushed (A.ofBool Bool.true) st
  | .false, st => pushed (A.ofBool Bool.false) st
  | _, [] => .error .refused
  | .abs, x :: st | .neg, x :: st | .ceiling, x :: st | .floor, x :: st | .round, x :: st
  | .truncate, x :: st | .cvi, x :: st | .sqrt, x :: st | .sin, x :: st | .cos, x :: st
  | .ln, x :: st | .log, x :: st | .not, x :: st => .ok (A.unary o x :: st)
  | .dup, x :: st => pushed x (x :: st)
  | .pop, _ :: st => .ok st
  | .copy, x :: st =>
      let n := A.toInt x
      if n < 0 ∨ (st.length : Int) < n ∨ 128 < (st.length : Int) + n then .error .refused
      else .ok (st.take n.toNat ++ st)
  | .index, x :: st =>
      let n := A.toInt x
      if n < 0 ∨ (st.length : Int) < toInt32 (n + 1) ∨ 128 ≤ st.length then .error .refused
      else
        match st[n.toNat]? with
        | some v => .ok (v :: st)
        | none => .error .outside
  | _, [_] => .error .refused
  | .exch, x :: y :: st => .ok (y :: x :: st)
  | .roll, y :: x :: st =>
      let j := A.toInt y
      let n := A.toInt x
      if n < 0 ∨ (st.length : Int) < n then .error .refused
      else if n = 0 then .ok st
      else
        let j := ((j.tmod n + n).tmod n).toNat
        .ok ((st.take n.toNat).rotate j ++ st.drop n.toNat)
  | o, b :: a :: st => .ok (A.binary o a b :: st)

/-- One instruction: the new program counter and the new stack. -/
def step (A : Arith R) : PsInstr R → Nat → List R → Except Stop (Nat × List R)
  | .push v, pc, st => (pushed v st).map fun st => (pc + 1, st)
  | .jump target, _, st => .ok (target, st)
  | .jumpFalse _, _, [] => .error .refused
  | .jumpFalse target, pc, v :: st => .ok (if A.isZero v then target else pc + 1, st)
  | .op o, pc, st => (apply A o st).map fun st => (pc + 1, st)

/-- Runs the instructions for at most some steps. -/
def run (A : Arith R) (code : List (PsInstr R)) : Nat → Nat → List R → Except Stop (List R)
  | 0, pc, st => if pc < code.length then .error .refused else .ok st
  | steps + 1, pc, st =>
      match code[pc]? with
      | none => .ok st
      | some i => (step A i pc st).bind fun r => run A code steps r.1 r.2

/-- `std::min(std::max(x, lo), hi)`. -/
def clip (A : Arith R) (x lo hi : R) : R :=
  let y := if A.lt x lo then lo else x
  if A.lt hi y then hi else y

/-- The numbers between the bounds that a list of pairs gives them. -/
def clipTo (A : Arith R) : List R → List R → List R
  | x :: xs, lo :: hi :: bounds => clip A x lo hi :: clipTo A xs bounds
  | _, _ => []

/-- `CalcFn::compute`. -/
def CalcFn.compute (A : Arith R) (f : CalcFn R) (xs : List R) : Except Stop (List R) :=
  (run A f.code 200000 0 (clipTo A xs f.domain).reverse).bind fun st =>
    if st.length < f.nOut then .error .refused
    else .ok (clipTo A (st.take f.nOut).reverse f.range)

theorem length_dropWhile_le (p : Char → Bool) (s : List Char) :
    (s.dropWhile p).length ≤ s.length :=
  (List.dropWhile_suffix p).length_le

theorem length_nextWord_le (s : List Char) : (nextWord s).2.length ≤ s.length :=
  (length_dropWhile_le _ _).trans (length_dropWhile_le _ _)

/-- A word at the start of a text is taken off it. -/
theorem length_nextWord_lt {c : Char} {s : List Char} (hblank : isBlank c = false)
    (hword : isWordChar c = true) : (nextWord (c :: s)).2.length ≤ s.length := by
  rw [nextWord, List.dropWhile_cons_of_neg (by rw [hblank]; decide),
    List.dropWhile_cons_of_pos hword]
  exact length_dropWhile_le _ _

/-- How a text is accepted: what is left of it behind the block, and the code with the
block's instructions at its end. -/
inductive Parsed (A : Arith R) :
    Nat → List Char → List (PsInstr R) → List Char → List (PsInstr R) → Prop
  | eof {code} : Parsed A 0 [] code [] code
  | close {depth rest code} (hdepth : depth ≤ 64) : Parsed A depth ('\x7d' :: rest) code rest code
  | blank {depth c rest code left code'} (hc : isBlank c = true)
      (h : Parsed A depth rest code left code') : Parsed A depth (c :: rest) code left code'
  | comment {depth rest code left code'}
      (h : Parsed A depth (rest.dropWhile fun c => c != '\n' && c != '\r') code left code') :
      Parsed A depth ('%' :: rest) code left code'
  | word {depth c rest code left code' i} (hc : isWordChar c = true)
      (hi : instrOf A (nextWord (c :: rest)).1 = some i)
      (h : Parsed A depth (nextWord (c :: rest)).2 (code ++ [i]) left code') :
      Parsed A depth (c :: rest) code left code'
  | ifBlock {depth rest code left code' r₁ code₁}
      (hblock : Parsed A (depth + 1) rest (code ++ [.jumpFalse 0]) r₁ code₁)
      (hif : (nextWord r₁).1 = "if".toList)
      (h : Parsed A depth (nextWord r₁).2 (code₁.set code.length (.jumpFalse code₁.length))
        left code') : Parsed A depth ('\x7b' :: rest) code left code'
  | ifElse {depth rest code left code' r₁ code₁ other r₂ code₂}
      (hblock : Parsed A (depth + 1) rest (code ++ [.jumpFalse 0]) r₁ code₁)
      (hif : (nextWord r₁).1 ≠ "if".toList) (hother : r₁.dropWhile isBlank = '\x7b' :: other)
      (hblock₂ : Parsed A (depth + 1) other
        ((code₁ ++ [PsInstr.jump 0]).set code.length (.jumpFalse (code₁.length + 1))) r₂ code₂)
      (hifelse : (nextWord r₂).1 = "ifelse".toList)
      (h : Parsed A depth (nextWord r₂).2 (code₂.set code₁.length (.jump code₂.length))
        left code') : Parsed A depth ('\x7b' :: rest) code left code'

namespace Parsed

variable {A : Arith R} {depth : Nat} {s left : List Char} {code code' : List (PsInstr R)}

theorem depth_le (h : Parsed A depth s code left code') : depth ≤ 64 := by
  induction h with
  | eof => exact Nat.zero_le _
  | close hdepth => exact hdepth
  | blank _ _ ih => exact ih
  | comment _ ih => exact ih
  | word _ _ _ ih => exact ih
  | ifBlock _ _ _ _ ih => exact ih
  | ifElse _ _ _ _ _ _ _ _ ih => exact ih

/-- What a block leaves of the text is not longer than the text. -/
theorem length_le (h : Parsed A depth s code left code') : left.length ≤ s.length := by
  induction h with
  | eof => exact le_rfl
  | close => exact Nat.le_succ _
  | blank _ _ ih => exact ih.trans (Nat.le_succ _)
  | comment _ ih => exact (ih.trans (length_dropWhile_le _ _)).trans (Nat.le_succ _)
  | word _ _ _ ih => exact ih.trans (length_nextWord_le _)
  | ifBlock _ _ _ ihb ih =>
      exact (ih.trans (length_nextWord_le _)).trans (ihb.trans (Nat.le_succ _))
  | @ifElse _ _ _ _ _ r₁ _ other _ _ _ _ hother _ _ _ ihb ihb₂ ih =>
      have hle : other.length ≤ r₁.length := by
        have hdrop := length_dropWhile_le isBlank r₁
        rw [hother] at hdrop
        exact (Nat.le_succ _).trans hdrop
      exact (ih.trans (length_nextWord_le _)).trans
        ((ihb₂.trans hle).trans (ihb.trans (Nat.le_succ _)))

end Parsed

theorem parseBlock_nil {A : Arith R} {fuel depth : Nat} {code : List (PsInstr R)}
    (hdepth : depth ≤ 64) : parseBlock A (fuel + 1) depth [] code =
      if depth = 0 then some ([], code) else none := by
  rw [parseBlock, if_neg (Nat.not_lt.mpr hdepth)]

theorem parseBlock_cons {A : Arith R} {fuel depth : Nat} {c : Char} {rest : List Char}
    {code : List (PsInstr R)} (hdepth : depth ≤ 64) :
      parseBlock A (fuel + 1) depth (c :: rest) code =
      parseRound A (parseBlock A fuel) depth c rest code := by
  rw [parseBlock, if_neg (Nat.not_lt.mpr hdepth)]

/-- What the block parser reads has the form `Parsed` says. -/
theorem parsed_of_parseBlock {A : Arith R} {fuel depth : Nat} {s : List Char}
    {code : List (PsInstr R)} {r : List Char × List (PsInstr R)}
    (h : parseBlock A fuel depth s code = some r) : Parsed A depth s code r.1 r.2 := by
  induction fuel generalizing depth s code r with
  | zero => cases h
  | succ fuel ih =>
      have hdepth : depth ≤ 64 := by
        by_contra hdepth
        rw [parseBlock.eq_def] at h
        simp only [if_pos (Nat.lt_of_not_le hdepth), reduceCtorEq] at h
      cases s with
      | nil =>
          rw [parseBlock_nil hdepth] at h
          split_ifs at h with hzero
          cases h
          subst hzero
          exact .eof
      | cons c rest =>
          rw [parseBlock_cons hdepth, parseRound] at h
          split_ifs at h with hblank hcomment hclose hopen
          · exact .blank hblank (ih h)
          · subst hcomment
            exact .comment (ih h)
          · cases h
            subst hclose
            exact .close hdepth
          · subst hopen
            obtain ⟨r₁, h₁, h⟩ := Option.bind_eq_some_iff.mp h
            split_ifs at h with hif
            · exact .ifBlock (ih h₁) hif (ih h)
            · split at h
              · cases h
              · rename_i b other hother
                split_ifs at h with hbrace
                subst hbrace
                obtain ⟨r₂, h₂, h⟩ := Option.bind_eq_some_iff.mp h
                split_ifs at h with hifelse
                exact .ifElse (ih h₁) hif hother (ih h₂) hifelse (ih h)
          · obtain ⟨i, hi, h⟩ := Option.bind_eq_some_iff.mp h
            have hword : isWordChar c = true := by
              simp [isWordChar, hblank, hcomment, hclose, hopen]
            exact .word hword hi (ih h)

theorem not_isBlank_of_isWordChar {c : Char} (h : isWordChar c = true) : isBlank c = false := by
  simp only [isWordChar, Bool.and_eq_true, Bool.not_eq_true'] at h
  exact h.1.1.1

theorem ne_of_isWordChar {c : Char} (h : isWordChar c = true) :
    c ≠ '\x7b' ∧ c ≠ '\x7d' ∧ c ≠ '%' := by
  simp only [isWordChar, Bool.and_eq_true, bne_iff_ne] at h
  exact ⟨h.1.1.2, h.1.2, h.2⟩

/-- The length of the text is fuel enough. -/
theorem parseBlock_of_parsed {A : Arith R} {fuel depth : Nat} {s left : List Char}
    {code code' : List (PsInstr R)} (h : Parsed A depth s code left code')
    (hfuel : s.length < fuel) : parseBlock A fuel depth s code = some (left, code') := by
  induction h generalizing fuel with
  | eof =>
      obtain ⟨fuel, rfl⟩ := Nat.exists_eq_add_of_lt hfuel
      rw [parseBlock_nil (Nat.zero_le _), if_pos rfl]
  | close hdepth =>
      obtain ⟨fuel, rfl⟩ := Nat.exists_eq_add_of_lt hfuel
      rw [parseBlock_cons hdepth]
      rfl
  | blank hc h ih =>
      obtain ⟨fuel, rfl⟩ := Nat.exists_eq_add_of_lt hfuel
      rw [parseBlock_cons h.depth_le, parseRound, if_pos hc]
      exact ih (by simp only [List.length_cons]; omega)
  | @comment _ rest _ _ _ h ih =>
      obtain ⟨fuel, rfl⟩ := Nat.exists_eq_add_of_lt hfuel
      have hlen := length_dropWhile_le (fun c => c != '\n' && c != '\r') rest
      rw [parseBlock_cons h.depth_le, parseRound, if_neg (by decide), if_pos rfl]
      exact ih (by simp only [List.length_cons]; omega)
  | @word _ c rest _ _ _ i hc hi h ih =>
      obtain ⟨fuel, rfl⟩ := Nat.exists_eq_add_of_lt hfuel
      have hblank := not_isBlank_of_isWordChar hc
      have hlen := length_nextWord_lt hblank hc (s := rest)
      obtain ⟨hopen, hclose, hcomment⟩ := ne_of_isWordChar hc
      rw [parseBlock_cons h.depth_le, parseRound, if_neg (by rw [hblank]; decide), if_neg hcomment,
        if_neg hclose, if_neg hopen, hi, Option.bind_some]
      exact ih (by simp only [List.length_cons]; omega)
  | @ifBlock _ rest _ _ _ r₁ _ hblock hif h ihb ih =>
      obtain ⟨fuel, rfl⟩ := Nat.exists_eq_add_of_lt hfuel
      have hle := hblock.length_le
      have hword := length_nextWord_le r₁
      rw [parseBlock_cons h.depth_le, parseRound, if_neg (by decide), if_neg (by decide),
        if_neg (by decide), if_pos rfl, ihb (by simp only [List.length_cons]; omega),
        Option.bind_some, if_pos hif]
      exact ih (by simp only [List.length_cons]; omega)
  | @ifElse _ rest _ _ _ r₁ _ other r₂ _ hblock hif hother hblock₂ hifelse h ihb ihb₂ ih =>
      obtain ⟨fuel, rfl⟩ := Nat.exists_eq_add_of_lt hfuel
      have hle := hblock.length_le
      have hle₂ := hblock₂.length_le
      have hdrop := length_dropWhile_le isBlank r₁
      have hword := length_nextWord_le r₂
      rw [hother, List.length_cons] at hdrop
      rw [parseBlock_cons h.depth_le, parseRound, if_neg (by decide), if_neg (by decide),
        if_neg (by decide), if_pos rfl, ihb (by simp only [List.length_cons]; omega),
        Option.bind_some, if_neg hif, hother]
      simp only [if_true]
      rw [ihb₂ (by simp only [List.length_cons]; omega), Option.bind_some, if_pos hifelse]
      exact ih (by simp only [List.length_cons]; omega)

/-- A word in front of another character is read whole. -/
theorem nextWord_append {w s : List Char} (hne : w ≠ []) (hw : ∀ c ∈ w, isWordChar c = true)
    (hs : ∀ c ∈ s.head?, isWordChar c = false) : nextWord (w ++ s) = (w, s) := by
  have hstart : (w ++ s).dropWhile isBlank = w ++ s := by
    cases w with
    | nil => exact absurd rfl hne
    | cons c w =>
        have hblank := not_isBlank_of_isWordChar (hw c List.mem_cons_self)
        rw [List.cons_append, List.dropWhile_cons_of_neg (by rw [hblank]; decide)]
  have hend : s.takeWhile isWordChar = [] ∧ s.dropWhile isWordChar = s := by
    cases s with
    | nil => exact ⟨rfl, rfl⟩
    | cons c s =>
        have hc : ¬ isWordChar c = true := by
          rw [hs c rfl]
          decide
        exact ⟨List.takeWhile_cons_of_neg hc, List.dropWhile_cons_of_neg hc⟩
  rw [nextWord, hstart, List.takeWhile_append_of_pos hw, List.dropWhile_append_of_pos hw, hend.1,
    hend.2, List.append_nil]

/-- A word that stands for an instruction. -/
def Means (A : Arith R) (w : List Char) (i : PsInstr R) : Prop :=
  w ≠ [] ∧ (∀ c ∈ w, isWordChar c = true) ∧ instrOf A w = some i

/-- A word with something else behind it adds its instruction to the code. -/
theorem Parsed.means {A : Arith R} {w : List Char} {i : PsInstr R} (hw : Means A w i)
    {depth : Nat} {s left : List Char} {code code' : List (PsInstr R)}
    (hs : ∀ c ∈ s.head?, isWordChar c = false) (h : Parsed A depth s (code ++ [i]) left code') :
    Parsed A depth (w ++ s) code left code' := by
  obtain ⟨hne, hchars, hi⟩ := hw
  have hnext := nextWord_append hne hchars hs
  cases w with
  | nil => exact absurd rfl hne
  | cons c w =>
      rw [List.cons_append] at hnext ⊢
      refine Parsed.word (hchars c List.mem_cons_self) (i := i) ?_ ?_
      · rw [hnext]
        exact hi
      · rw [hnext]
        exact h

/-- Words with a space behind each. -/
def spaced (ws : List (List Char)) : List Char := ws.flatMap fun w => w ++ [' ']

@[simp] theorem spaced_nil : spaced [] = [] := rfl

@[simp] theorem spaced_cons (w : List Char) (ws : List (List Char)) :
    spaced (w :: ws) = w ++ ' ' :: spaced ws := by
  rw [spaced, List.flatMap_cons, List.append_assoc]
  rfl

theorem spaced_append (ws ws' : List (List Char)) :
    spaced (ws ++ ws') = spaced ws ++ spaced ws' := List.flatMap_append

/-- Words that are read one after the other add their instructions to the code. -/
theorem Parsed.spaced {A : Arith R} {ws : List (List Char)} {is : List (PsInstr R)}
    (hws : List.Forall₂ (Means A) ws is) {depth : Nat} {s left : List Char}
    {code code' : List (PsInstr R)} (h : Parsed A depth s (code ++ is) left code') :
    Parsed A depth (spaced ws ++ s) code left code' := by
  induction hws generalizing code with
  | nil => rwa [List.append_nil] at h
  | @cons w i ws is hw _ ih =>
      rw [← List.singleton_append, ← List.append_assoc] at h
      have hrest := Parsed.blank (c := ' ') (by decide) (ih h)
      rw [spaced_cons, List.append_assoc, List.cons_append]
      refine Parsed.means hw (fun c hc => ?_) hrest
      cases hc
      decide

/-- The instructions stand in the code from a position on. -/
def CodeAt (code : List (PsInstr R)) (pc : Nat) (is : List (PsInstr R)) : Prop :=
  ∃ before after, code = before ++ (is ++ after) ∧ before.length = pc

namespace CodeAt

variable {code is is' : List (PsInstr R)} {pc : Nat} {i : PsInstr R}

theorem head (h : CodeAt code pc (i :: is)) : code[pc]? = some i := by
  obtain ⟨before, after, rfl, rfl⟩ := h
  rw [List.getElem?_append_right le_rfl, Nat.sub_self]
  rfl

theorem tail (h : CodeAt code pc (i :: is)) : CodeAt code (pc + 1) is := by
  obtain ⟨before, after, rfl, rfl⟩ := h
  exact ⟨before ++ [i], after, by simp, by simp⟩

theorem left (h : CodeAt code pc (is ++ is')) : CodeAt code pc is := by
  obtain ⟨before, after, rfl, rfl⟩ := h
  exact ⟨before, is' ++ after, by simp, rfl⟩

theorem right (h : CodeAt code pc (is ++ is')) : CodeAt code (pc + is.length) is' := by
  obtain ⟨before, after, rfl, rfl⟩ := h
  exact ⟨before ++ is, after, by simp, by simp⟩

end CodeAt

/-- Some steps lead from one state to another one, however many steps are left then. -/
def Runs (A : Arith R) (code : List (PsInstr R)) (k pc : Nat) (st : List R) (pc' : Nat)
    (st' : List R) : Prop :=
  ∀ steps, run A code (steps + k) pc st = run A code steps pc' st'

namespace Runs

variable {A : Arith R} {code : List (PsInstr R)} {i : PsInstr R} {k m pc pc' pc'' : Nat}
  {st st' st'' : List R}

theorem refl : Runs A code 0 pc st pc st := fun _ => rfl

theorem single (hi : code[pc]? = some i) (hstep : step A i pc st = .ok (pc', st')) :
    Runs A code 1 pc st pc' st' := by
  intro steps
  rw [run, hi]
  simp only [hstep]
  rfl

theorem trans (h : Runs A code k pc st pc' st') (h' : Runs A code m pc' st' pc'' st'') :
    Runs A code (k + m) pc st pc'' st'' := by
  intro steps
  calc run A code (steps + (k + m)) pc st
      = run A code (steps + m + k) pc st := by rw [Nat.add_comm k m, Nat.add_assoc]
    _ = run A code (steps + m) pc' st' := h _
    _ = run A code steps pc'' st'' := h' steps

/-- A run to the end of the code has its stack for a result. -/
theorem run_eq (h : Runs A code k pc st code.length st') {steps : Nat} (hk : k ≤ steps) :
    run A code steps pc st = .ok st' := by
  obtain ⟨rest, rfl⟩ := Nat.exists_eq_add_of_le' hk
  rw [h rest]
  cases rest with
  | zero => rw [run, if_neg (Nat.lt_irrefl _)]
  | succ rest => rw [run, List.getElem?_eq_none le_rfl]

end Runs

end Kura.Engine.Calculator
