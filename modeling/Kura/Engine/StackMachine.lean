import Kura.Engine.ExactCalc
import Mathlib.Logic.Function.Basic

/-!
# The array under the calculator

The calculator keeps its stack in an array of 128 numbers with a counter. Each
instruction is followed with the cells that it reads and writes, those before
it refuses among them.

## Implementation notes

The memory around the array has some contents too, so an instruction that
leaves the array has an outcome. Integers are those of 32 bits where the code
computes with them; a position in the code is an integer of 32 bits that is used
as one of 64 bits.
-/

namespace Kura.Engine.Calculator

open Base (toInt32 toInt32_of_mem toInt32_bounds)

variable {R : Type*}

/-- A cell that is read or written. -/
inductive Access where
  | read (i : Int)
  | write (i : Int)
  deriving DecidableEq

/-- The memory, the counter of the stack and the position in the code. -/
structure Machine (R : Type*) where
  st : Int → R
  sp : Int
  pc : Nat

/-- A position in the code, kept as an integer of 32 bits. -/
@[irreducible] def asSize (target : Nat) : Nat := (toInt32 target % 2 ^ 64).toNat

/-- What an instruction does: the cells it touches, and the machine behind it unless it refuses. -/
abbrev Outcome (R : Type*) := List Access × Option (Machine R)

namespace Machine

variable (m : Machine R)

/-- The machine with a number in a cell. -/
def set (i : Int) (v : R) : Machine R := { m with st := Function.update m.st i v }

/-- Whether there are so many numbers on the stack. -/
def need (n : Int) : Bool := n ≤ m.sp

def push (v : R) : Outcome R :=
  if 128 ≤ m.sp then ([], none) else ([.write m.sp], some { m.set m.sp v with sp := m.sp + 1 })

def unary (A : Arith R) (o : PsOp) : Outcome R :=
  if !m.need 1 then ([], none)
  else ([.read (m.sp - 1), .write (m.sp - 1)],
    some (m.set (m.sp - 1) (A.unary o (m.st (m.sp - 1)))))

def dup : Outcome R :=
  if !m.need 1 || 128 ≤ m.sp then ([], none)
  else
    ([.read (m.sp - 1), .write m.sp],
      some { m.set m.sp (m.st (m.sp - 1)) with sp := m.sp + 1 })

def pop : Outcome R := if !m.need 1 then ([], none) else ([], some { m with sp := m.sp - 1 })

def exch : Outcome R :=
  if !m.need 2 then ([], none)
  else
    ([.read (m.sp - 1), .read (m.sp - 2), .write (m.sp - 1), .write (m.sp - 2)],
      some ((m.set (m.sp - 1) (m.st (m.sp - 2))).set (m.sp - 2) (m.st (m.sp - 1))))

/-- The loop of `copy`: one more number each round. -/
def copyCells (n : Int) : Nat → Outcome R
  | 0 => ([], some m)
  | k + 1 =>
      let r := copyCells n k
      (r.1 ++ [.read (m.sp - n + k), .write (m.sp + k)],
        r.2.map fun m' => m'.set (m.sp + k) (m'.st (m.sp - n + k)))

def copy (A : Arith R) : Outcome R :=
  if !m.need 1 then ([], none)
  else
    let n := A.toInt (m.st (m.sp - 1))
    let top := Access.read (m.sp - 1)
    let m := { m with sp := m.sp - 1 }
    if n < 0 || !m.need n || 128 < toInt32 (m.sp + n) then ([top], none)
    else
      let r := m.copyCells n n.toNat
      (top :: r.1, r.2.map fun m' => { m' with sp := m.sp + n })

def index (A : Arith R) : Outcome R :=
  if !m.need 1 then ([], none)
  else
    let n := A.toInt (m.st (m.sp - 1))
    let top := Access.read (m.sp - 1)
    let m := { m with sp := m.sp - 1 }
    if n < 0 || !m.need (toInt32 (n + 1)) || 128 ≤ m.sp then ([top], none)
    else
      let i := toInt32 (m.sp - 1 - n)
      ([top, .read i, .write m.sp], some { m.set m.sp (m.st i) with sp := m.sp + 1 })

/-- The cells that `std::rotate` touches. -/
def rotateCells (n : Int) : List Access :=
  (List.range n.toNat).flatMap fun k : Nat => [.read (m.sp - n + k), .write (m.sp - n + k)]

/-- The memory with the last cells rotated to the left. -/
def rotate (n left : Int) : Machine R :=
  { m with
    st := fun i =>
      if m.sp - n ≤ i ∧ i < m.sp then m.st (m.sp - n + (i - (m.sp - n) + left) % n) else m.st i }

def roll (A : Arith R) : Outcome R :=
  if !m.need 2 then ([], none)
  else
    let j := A.toInt (m.st (m.sp - 1))
    let n := A.toInt (m.st (m.sp - 2))
    let tops := [Access.read (m.sp - 1), .read (m.sp - 2)]
    let m := { m with sp := m.sp - 2 }
    if n < 0 || !m.need n then (tops, none)
    else if n = 0 then (tops, some m)
    else
      let j := (toInt32 (j.tmod n + n)).tmod n
      (tops ++ m.rotateCells n, some (m.rotate n (n - j)))

def binary (A : Arith R) (o : PsOp) : Outcome R :=
  if !m.need 2 then ([], none)
  else
    let b := m.st (m.sp - 1)
    let a := m.st (m.sp - 2)
    ([.read (m.sp - 1), .read (m.sp - 2), .write (m.sp - 2)],
      some { m.set (m.sp - 2) (A.binary o a b) with sp := m.sp - 1 })

/-- An operator. -/
def operate (A : Arith R) (o : PsOp) : Outcome R :=
  match o with
  | .cvr => ([], some m)
  | .true => m.push (A.ofBool Bool.true)
  | .false => m.push (A.ofBool Bool.false)
  | .abs | .neg | .ceiling | .floor | .round | .truncate | .cvi | .sqrt | .sin | .cos | .ln | .log
  | .not => m.unary A o
  | .dup => m.dup
  | .pop => m.pop
  | .exch => m.exch
  | .copy => m.copy A
  | .index => m.index A
  | .roll => m.roll A
  | o => m.binary A o

/-- An instruction, the position being behind it already. -/
def exec (A : Arith R) : PsInstr R → Outcome R
  | .push v => m.push v
  | .jump target => ([], some { m with pc := asSize target })
  | .jumpFalse target =>
      if !m.need 1 then ([], none)
      else
        ([.read (m.sp - 1)],
          some { m with
            sp := m.sp - 1
            pc := if A.isZero (m.st (m.sp - 1)) then asSize target else m.pc })
  | .op o => m.operate A o

/-- The instruction at the position. -/
def step (A : Arith R) (i : PsInstr R) : Outcome R := exec { m with pc := m.pc + 1 } A i

/-- The loop that puts the inputs on the stack. -/
def load : List R → Machine R → Outcome R
  | [], m => ([], some m)
  | x :: xs, m =>
      let r := load xs { m.set m.sp x with sp := m.sp + 1 }
      (.write m.sp :: r.1, r.2)

end Machine

/-- The machine that a function starts with, for some contents of the memory. -/
def CalcFn.start (A : Arith R) (f : CalcFn R) (mem : Int → R) (xs : List R) : Outcome R :=
  Machine.load (clipTo A xs f.domain) ⟨mem, 0, 0⟩

/-- The machines that are reached in a number of steps; there are at most 200000. -/
inductive Reaches (A : Arith R) (f : CalcFn R) (mem : Int → R) (xs : List R) :
    Nat → Machine R → Prop
  | start {m} (h : (f.start A mem xs).2 = some m) : Reaches A f mem xs 0 m
  | next {k m i m'} (h : Reaches A f mem xs k m) (hk : k < 200000) (hi : f.code[m.pc]? = some i)
      (hstep : (m.step A i).2 = some m') : Reaches A f mem xs (k + 1) m'

/-- Whether a cell may be touched while the stack has some numbers: it is read below them, and
written in the array. -/
def Access.Within (sp : Int) : Access → Prop
  | .read i => 0 ≤ i ∧ i < sp
  | .write i => 0 ≤ i ∧ i < 128

/-- What is wanted of a machine: its counters are in bounds, and so are the cells that are touched
by the instruction at its position, or by the results when there is none. -/
structure Bounded (A : Arith R) (f : CalcFn R) (k : Nat) (m : Machine R) : Prop where
  nonneg : 0 ≤ m.sp
  top : m.sp ≤ 128
  pc : m.pc ≤ f.code.length
  cells : k < 200000 → ∀ i, f.code[m.pc]? = some i → ∀ a ∈ (m.step A i).1, a.Within m.sp
  results : f.code.length ≤ m.pc → ∀ o, (f.nOut : Int) ≤ m.sp → o < f.nOut →
    (Access.read (m.sp - f.nOut + o)).Within m.sp

/-- Whether a function stays in its array on some inputs. -/
structure Stays (A : Arith R) (f : CalcFn R) (mem : Int → R) (xs : List R) : Prop where
  inputs : ∀ a ∈ (f.start A mem xs).1, ∃ sp, a.Within sp
  run : ∀ k m, Reaches A f mem xs k m → Bounded A f k m

/-- The instructions that lead out of the array or the code: `index` at the largest integer, and a
jump to a position that is negative as an integer of 32 bits. -/
inductive Hazard (A : Arith R) (f : CalcFn R) (m : Machine R) : Prop
  | index (hi : f.code[m.pc]? = some (.op .index)) (hone : 1 ≤ m.sp)
      (htop : A.toInt (m.st (m.sp - 1)) = 2 ^ 31 - 1) : Hazard A f m
  | jump {target} (hi : f.code[m.pc]? = some (.jump target)) (hfar : toInt32 target < 0) :
      Hazard A f m
  | jumpFalse {target} (hi : f.code[m.pc]? = some (.jumpFalse target)) (hone : 1 ≤ m.sp)
      (hzero : A.isZero (m.st (m.sp - 1)) = true) (hfar : toInt32 target < 0) : Hazard A f m

/-- What is known of the cast to an integer. -/
structure CastsToInt (A : Arith R) : Prop where
  lower : ∀ x, -2 ^ 31 ≤ A.toInt x
  upper : ∀ x, A.toInt x < 2 ^ 31

/-- An outcome within the bounds. -/
structure Keeps (m : Machine R) (o : Outcome R) : Prop where
  cells : ∀ a ∈ o.1, a.Within m.sp
  sp : ∀ m', o.2 = some m' → 0 ≤ m'.sp ∧ m'.sp ≤ 128
  pc : ∀ m', o.2 = some m' → m'.pc = m.pc

namespace Machine

variable {A : Arith R} {m : Machine R}

theorem need_iff {n : Int} : (!m.need n) = true ↔ m.sp < n := by
  rw [need, Bool.not_eq_true', decide_eq_false_iff_not, not_le]

theorem keeps_refused {as : List Access} (h : ∀ a ∈ as, a.Within m.sp) : Keeps m (as, none) :=
  ⟨h, fun _ hm => absurd hm (Option.some_ne_none _).symm,
    fun _ hm => absurd hm (Option.some_ne_none _).symm⟩

theorem keeps_done {as : List Access} {m' : Machine R} (h : ∀ a ∈ as, a.Within m.sp)
    (hsp : 0 ≤ m'.sp ∧ m'.sp ≤ 128) (hpc : m'.pc = m.pc) : Keeps m (as, some m') := by
  refine ⟨h, ?_, ?_⟩
  · rintro _ ⟨⟩
    exact hsp
  · rintro _ ⟨⟩
    exact hpc

theorem not_mem_refused : ∀ a ∈ ([] : List Access), a.Within m.sp :=
  fun _ ha => absurd ha List.not_mem_nil

theorem keeps_push (h0 : 0 ≤ m.sp) (v : R) : Keeps m (m.push v) := by
  rw [push]
  split
  · exact keeps_refused not_mem_refused
  · rename_i h
    refine keeps_done (List.forall_mem_singleton.mpr ⟨h0, not_le.mp h⟩) ⟨?_, ?_⟩ rfl
    · exact Int.add_nonneg h0 Int.one_nonneg
    · exact Int.add_one_le_of_lt (not_le.mp h)

theorem keeps_unary (h1 : m.sp ≤ 128) (o : PsOp) : Keeps m (m.unary A o) := by
  rw [unary]
  split
  · exact keeps_refused not_mem_refused
  · rename_i h
    rw [need_iff, not_lt] at h
    refine keeps_done ?_ ⟨by change 0 ≤ m.sp; omega, h1⟩ rfl
    simp only [List.mem_cons, List.not_mem_nil, or_false, forall_eq_or_imp,
      forall_eq, Access.Within]
    omega

theorem keeps_dup : Keeps m m.dup := by
  rw [dup]
  split
  · exact keeps_refused not_mem_refused
  · rename_i h
    rw [Bool.or_eq_true, need_iff, decide_eq_true_eq] at h
    refine keeps_done ?_ ⟨?_, ?_⟩ rfl
    · simp only [List.mem_cons, List.not_mem_nil, or_false, forall_eq_or_imp,
        forall_eq, Access.Within]
      omega
    · change 0 ≤ m.sp + 1
      omega
    · change m.sp + 1 ≤ 128
      omega

theorem keeps_pop (h1 : m.sp ≤ 128) : Keeps m m.pop := by
  rw [pop]
  split
  · exact keeps_refused not_mem_refused
  · rename_i h
    rw [need_iff] at h
    refine keeps_done not_mem_refused ⟨?_, ?_⟩ rfl
    · change 0 ≤ m.sp - 1
      omega
    · change m.sp - 1 ≤ 128
      omega

theorem keeps_exch (h1 : m.sp ≤ 128) : Keeps m m.exch := by
  rw [exch]
  split
  · exact keeps_refused not_mem_refused
  · rename_i h
    rw [need_iff] at h
    refine keeps_done ?_ ⟨?_, h1⟩ rfl
    · simp only [List.mem_cons, List.not_mem_nil, or_false, forall_eq_or_imp,
        forall_eq, Access.Within]
      omega
    · change 0 ≤ m.sp
      omega

theorem keeps_binary (h1 : m.sp ≤ 128) (o : PsOp) : Keeps m (m.binary A o) := by
  rw [binary]
  split
  · exact keeps_refused not_mem_refused
  · rename_i h
    rw [need_iff] at h
    refine keeps_done ?_ ⟨?_, ?_⟩ rfl
    · simp only [List.mem_cons, List.not_mem_nil, or_false, forall_eq_or_imp,
        forall_eq, Access.Within]
      omega
    · change 0 ≤ m.sp - 1
      omega
    · change m.sp - 1 ≤ 128
      omega

/-- The loop of `copy` reads below the stack and writes above it. -/
theorem copyCells_spec (m : Machine R) (n : Int) (k : Nat) :
    ∃ m', (m.copyCells n k).2 = some m' ∧ m'.sp = m.sp ∧ m'.pc = m.pc ∧
      ∀ a ∈ (m.copyCells n k).1, ∃ i < (k : Int), 0 ≤ i ∧
        (a = .read (m.sp - n + i) ∨ a = .write (m.sp + i)) := by
  induction k with
  | zero => exact ⟨m, rfl, rfl, rfl, fun _ ha => absurd ha List.not_mem_nil⟩
  | succ k ih =>
      obtain ⟨m', hm', hsp, hpc, hcells⟩ := ih
      refine ⟨m'.set (m.sp + k) (m'.st (m.sp - n + k)), ?_, hsp, hpc, ?_⟩
      · rw [copyCells, hm']
        rfl
      · rw [copyCells]
        refine List.forall_mem_append.mpr ⟨fun a ha => ?_, ?_⟩
        · obtain ⟨i, hi, h0, ha⟩ := hcells a ha
          exact ⟨i, by omega, h0, ha⟩
        · exact List.forall_mem_cons.mpr ⟨⟨k, by omega, by omega, Or.inl rfl⟩,
            List.forall_mem_singleton.mpr ⟨k, by omega, by omega, Or.inr rfl⟩⟩

/-- To copy keeps what is on the stack in bounds. -/
theorem keeps_copy (h1 : m.sp ≤ 128) : Keeps m (m.copy A) := by
  rw [copy]
  split
  · exact keeps_refused not_mem_refused
  · rename_i hone
    rw [need_iff] at hone
    have htop : (Access.read (m.sp - 1)).Within m.sp := by
      rw [Access.Within]
      omega
    dsimp only
    generalize A.toInt (m.st (m.sp - 1)) = n
    split
    · exact keeps_refused (List.forall_mem_singleton.mpr htop)
    · rename_i h
      rw [Bool.or_eq_true, Bool.or_eq_true, need_iff, decide_eq_true_eq, decide_eq_true_eq] at h
      dsimp only at h
      have hwrap : toInt32 (m.sp - 1 + n) = m.sp - 1 + n := toInt32_of_mem (by omega) (by omega)
      rw [hwrap] at h
      obtain ⟨m', hm', hsp, hpc, hcells⟩ :=
        copyCells_spec { m with sp := m.sp - 1 } n n.toNat
      rw [hm']
      refine keeps_done (List.forall_mem_cons.mpr ⟨htop, fun a ha => ?_⟩) ⟨?_, ?_⟩ hpc
      · obtain ⟨i, hi, h0, rfl | rfl⟩ := hcells a ha
        · rw [Access.Within]
          dsimp only
          omega
        · rw [Access.Within]
          dsimp only
          omega
      · change 0 ≤ m.sp - 1 + n
        omega
      · change m.sp - 1 + n ≤ 128
        omega

/-- `index` stays in the array unless its operand is the largest integer. -/
theorem keeps_index (hA : CastsToInt A) (h1 : m.sp ≤ 128)
    (hn : 1 ≤ m.sp → A.toInt (m.st (m.sp - 1)) ≠ 2 ^ 31 - 1) : Keeps m (m.index A) := by
  rw [index]
  split
  · exact keeps_refused not_mem_refused
  · rename_i hone
    rw [need_iff, not_lt] at hone
    have htop : (Access.read (m.sp - 1)).Within m.sp := by
      rw [Access.Within]
      omega
    have hlt := hA.upper (m.st (m.sp - 1))
    have hne := hn hone
    dsimp only
    generalize A.toInt (m.st (m.sp - 1)) = n at hlt hne
    split
    · exact keeps_refused (List.forall_mem_singleton.mpr htop)
    · rename_i h
      rw [Bool.or_eq_true, Bool.or_eq_true, need_iff, decide_eq_true_eq, decide_eq_true_eq] at h
      dsimp only at h
      have hnonneg : 0 ≤ n := by omega
      rw [toInt32_of_mem (n := n + 1) (by omega) (by omega)] at h
      rw [toInt32_of_mem (n := m.sp - 1 - 1 - n) (by omega) (by omega)]
      refine keeps_done ?_ ⟨?_, ?_⟩ rfl
      · simp only [List.mem_cons, List.not_mem_nil, or_false, forall_eq_or_imp,
          forall_eq, Access.Within]
        omega
      · change 0 ≤ m.sp - 1 + 1
        omega
      · change m.sp - 1 + 1 ≤ 128
        omega

/-- The roll instruction keeps the stack in bounds. -/
theorem keeps_roll (h1 : m.sp ≤ 128) : Keeps m (m.roll A) := by
  rw [roll]
  split
  · exact keeps_refused not_mem_refused
  · rename_i htwo
    rw [need_iff] at htwo
    have htops : ∀ a ∈ [Access.read (m.sp - 1), .read (m.sp - 2)], a.Within m.sp := by
      simp only [List.mem_cons, List.not_mem_nil, or_false, forall_eq_or_imp,
        forall_eq, Access.Within]
      omega
    dsimp only
    generalize A.toInt (m.st (m.sp - 2)) = n
    split
    · exact keeps_refused htops
    · rename_i h
      rw [Bool.or_eq_true, need_iff, decide_eq_true_eq] at h
      dsimp only at h
      have hsp : 0 ≤ m.sp - 2 ∧ m.sp - 2 ≤ 128 := by omega
      split
      · exact keeps_done htops hsp rfl
      · refine keeps_done (List.forall_mem_append.mpr ⟨htops, ?_⟩) hsp rfl
        refine List.forall_mem_flatMap.mpr fun k hk => ?_
        rw [List.mem_range] at hk
        simp only [List.mem_cons, List.not_mem_nil, or_false, forall_eq_or_imp,
          forall_eq, Access.Within]
        omega

theorem keeps_operate (hA : CastsToInt A) (h0 : 0 ≤ m.sp) (h1 : m.sp ≤ 128) (o : PsOp)
    (hn : o = .index → 1 ≤ m.sp → A.toInt (m.st (m.sp - 1)) ≠ 2 ^ 31 - 1) :
    Keeps m (m.operate A o) := by
  cases o with
  | cvr => exact keeps_done not_mem_refused ⟨h0, h1⟩ rfl
  | true => exact keeps_push h0 _
  | false => exact keeps_push h0 _
  | dup => exact keeps_dup
  | pop => exact keeps_pop h1
  | exch => exact keeps_exch h1
  | copy => exact keeps_copy h1
  | index => exact keeps_index hA h1 (hn rfl)
  | roll => exact keeps_roll h1
  | _ => first | exact keeps_unary h1 _ | exact keeps_binary h1 _

/-- The inputs are put below the end of the array. -/
theorem load_spec (xs : List R) (m : Machine R) (h0 : 0 ≤ m.sp) (h1 : m.sp + xs.length ≤ 128) :
    (∀ a ∈ (load xs m).1, a.Within 128) ∧ ∃ m', (load xs m).2 = some m' ∧
      m'.sp = m.sp + xs.length ∧ m'.pc = m.pc := by
  induction xs generalizing m with
  | nil => exact ⟨not_mem_refused (m := { m with sp := 128 }), m, rfl, (Int.add_zero _).symm, rfl⟩
  | cons x xs ih =>
      rw [List.length_cons] at h1 ⊢
      obtain ⟨hcells, m', hm', hsp, hpc⟩ := ih { m.set m.sp x with sp := m.sp + 1 }
        (by change 0 ≤ m.sp + 1; omega) (by change m.sp + 1 + _ ≤ 128; omega)
      refine ⟨List.forall_mem_cons.mpr ⟨?_, hcells⟩, m', hm', ?_, hpc⟩
      · rw [Access.Within]
        omega
      · rw [hsp]
        change m.sp + 1 + _ = _
        omega

end Machine

/-- Whether jumps lead into some code or to its end. -/
def TargetsIn (code : List (PsInstr R)) : Prop :=
  ∀ i ∈ code, ∀ target, i = .jump target ∨ i = .jumpFalse target → target ≤ code.length

theorem TargetsIn.concat {code : List (PsInstr R)} (h : TargetsIn code) {i : PsInstr R}
    (hi : ∀ target, i = .jump target ∨ i = .jumpFalse target → target ≤ code.length + 1) :
    TargetsIn (code ++ [i]) := by
  rw [TargetsIn, List.length_append]
  refine List.forall_mem_append.mpr ⟨fun j hj target htarget =>
    ?_, List.forall_mem_singleton.mpr hi⟩
  exact (h j hj target htarget).trans (Nat.le_add_right _ _)

theorem TargetsIn.set {code : List (PsInstr R)} (h : TargetsIn code) (k : Nat) {i : PsInstr R}
    (hi : ∀ target, i = .jump target ∨ i = .jumpFalse target → target ≤ code.length) :
    TargetsIn (code.set k i) := by
  intro j hj target htarget
  rw [List.length_set]
  obtain hj | rfl := List.mem_or_eq_of_mem_set hj
  · exact h j hj target htarget
  · exact hi target htarget

theorem instrOf_ne_jump (A : Arith R) (w : List Char) (target : Nat) :
    instrOf A w ≠ some (.jump target) ∧ instrOf A w ≠ some (.jumpFalse target) := by
  rw [instrOf]
  split
  · exact ⟨by simp, by simp⟩
  · refine ⟨fun h => ?_, fun h => ?_⟩
    · obtain ⟨o, -, ho⟩ := Option.map_eq_some_iff.mp h
      cases ho
    · obtain ⟨o, -, ho⟩ := Option.map_eq_some_iff.mp h
      cases ho

/-- Compiled jumps lead into the code. -/
theorem Parsed.targetsIn {A : Arith R} {depth : Nat} {s left : List Char}
    {code code' : List (PsInstr R)} (h : Parsed A depth s code left code')
    (hcode : TargetsIn code) : TargetsIn code' := by
  induction h with
  | eof => exact hcode
  | close => exact hcode
  | blank _ _ ih => exact ih hcode
  | comment _ ih => exact ih hcode
  | word _ hi _ ih =>
      refine ih (hcode.concat fun target htarget => ?_)
      obtain rfl | rfl := htarget
      · exact absurd hi (instrOf_ne_jump _ _ _).1
      · exact absurd hi (instrOf_ne_jump _ _ _).2
  | ifBlock _ _ _ ihb ih =>
      have hblock := ihb (hcode.concat (by simp))
      refine ih (hblock.set _ ?_)
      simp
  | ifElse _ _ _ _ _ _ ihb ihb₂ ih =>
      have hblock := ihb (hcode.concat (by simp))
      have hjump := hblock.concat (i := .jump 0) (by simp)
      have hblock₂ := ihb₂ (hjump.set _ (by simp))
      exact ih (hblock₂.set _ (by simp))

theorem targetsIn_init {A : Arith R} {domain range : List R} {src : List Char} {f : CalcFn R}
    (hf : CalcFn.init A domain range src = some f) :
    TargetsIn f.code ∧ f.domain = domain ∧ f.domain.length / 2 ≤ 32 := by
  rw [CalcFn.init] at hf
  split_ifs at hf with hsize
  split at hf
  · cases hf
  · obtain ⟨r, hr, rfl⟩ := Option.map_eq_some_iff.mp hf
    have hparsed := parsed_of_parseBlock hr
    refine ⟨hparsed.targetsIn fun i hi => absurd hi List.not_mem_nil, rfl, ?_⟩
    change domain.length / 2 ≤ 32
    omega

theorem asSize_eq (target : Nat) : (asSize target : Int) = toInt32 target % 2 ^ 64 := by
  unfold asSize
  exact Int.toNat_of_nonneg (Int.emod_nonneg _ (by positivity))

theorem asSize_of_nonneg {target : Nat} (h : 0 ≤ toInt32 target) : asSize target ≤ target := by
  obtain ⟨hlower, hupper, hle⟩ := toInt32_bounds target
  have hpos := hle (Int.natCast_nonneg _)
  have hcast := asSize_eq target
  generalize asSize target = size at hcast ⊢
  omega

theorem asSize_of_neg {target : Nat} (h : toInt32 target < 0) : 2 ^ 63 ≤ asSize target := by
  obtain ⟨hlower, -, -⟩ := toInt32_bounds target
  have hcast := asSize_eq target
  generalize asSize target = size at hcast ⊢
  omega

variable {A : Arith R} {f : CalcFn R} {mem : Int → R} {xs : List R} {m : Machine R}

/-- What holds of the counters. -/
structure InBounds (f : CalcFn R) (m : Machine R) : Prop where
  nonneg : 0 ≤ m.sp
  top : m.sp ≤ 128
  pc : m.pc ≤ f.code.length

theorem Keeps.inBounds {o : Outcome R}
    (hkeeps : Keeps { m with pc := m.pc + 1 } o) (hpc : m.pc < f.code.length) {m' : Machine R}
    (hm : o.2 = some m') : InBounds f m' := by
  obtain ⟨hnonneg, htop⟩ := hkeeps.sp m' hm
  exact ⟨hnonneg, htop, (hkeeps.pc m' hm).trans_le hpc⟩

/-- An instruction that is no hazard stays in bounds. -/
theorem InBounds.step (hA : CastsToInt A) (hcode : TargetsIn f.code) (h : InBounds f m)
    {i : PsInstr R} (hi : f.code[m.pc]? = some i) (hsafe : ¬ Hazard A f m) :
    (∀ a ∈ (m.step A i).1, a.Within m.sp) ∧ ∀ m', (m.step A i).2 = some m' → InBounds f m' := by
  have hpc : m.pc < f.code.length := (List.getElem?_eq_some_iff.mp hi).1
  have hmem : i ∈ f.code := List.mem_of_getElem? hi
  cases i with
  | push v =>
      have hkeeps := Machine.keeps_push (m := { m with pc := m.pc + 1 }) h.nonneg v
      exact ⟨hkeeps.cells, fun m' hm => hkeeps.inBounds hpc hm⟩
  | op o =>
      have hindex : o = .index → 1 ≤ m.sp → A.toInt (m.st (m.sp - 1)) ≠ 2 ^ 31 - 1 := by
        rintro rfl hone hmax
        exact hsafe (.index hi hone hmax)
      have hkeeps := Machine.keeps_operate (m := { m with pc := m.pc + 1 }) hA h.nonneg h.top o
        hindex
      exact ⟨hkeeps.cells, fun m' hm => hkeeps.inBounds hpc hm⟩
  | jump target =>
      have hnear : 0 ≤ toInt32 target := not_lt.mp fun hfar => hsafe (.jump hi hfar)
      refine ⟨Machine.not_mem_refused, ?_⟩
      rintro m' ⟨⟩
      exact ⟨h.nonneg, h.top, (asSize_of_nonneg hnear).trans (hcode _ hmem _ (Or.inl rfl))⟩
  | jumpFalse target =>
      rw [Machine.step, Machine.exec]
      split
      · exact ⟨Machine.not_mem_refused, fun m' hm => absurd hm (Option.some_ne_none _).symm⟩
      · rename_i hneed
        rw [Machine.need_iff, not_lt] at hneed
        dsimp only at hneed
        refine ⟨List.forall_mem_singleton.mpr ?_, ?_⟩
        · rw [Access.Within]
          dsimp only
          omega
        · rintro m' ⟨⟩
          refine ⟨by dsimp only; omega, ?_, ?_⟩
          · have htop := h.top
            dsimp only
            omega
          · dsimp only
            split
            · rename_i hzero
              have hnear : 0 ≤ toInt32 target :=
                not_lt.mp fun hfar => hsafe (.jumpFalse hi hneed hzero hfar)
              exact (asSize_of_nonneg hnear).trans (hcode _ hmem _ (Or.inr rfl))
            · exact hpc

/-- A hazard leads out of bounds. -/
theorem Hazard.leaves (hsize : f.code.length < 2 ^ 63) (h : InBounds f m) (hhazard : Hazard A f m) :
    ∃ i, f.code[m.pc]? = some i ∧ ((∃ a ∈ (m.step A i).1, ¬ a.Within m.sp) ∨
      ∃ m', (m.step A i).2 = some m' ∧ f.code.length < m'.pc) := by
  obtain ⟨hnonneg, htop, -⟩ := h
  cases hhazard with
  | index hi hone hmax =>
      refine ⟨_, hi, Or.inl ⟨.read (m.sp - 1 - 1 - (2 ^ 31 - 1)), ?_, ?_⟩⟩
      · have hneed : (!Machine.need { m with pc := m.pc + 1 } 1) = false := by
          rw [← Bool.not_eq_true, Machine.need_iff, not_lt]
          exact hone
        have hcell : toInt32 (m.sp - 1 - 1 - (2 ^ 31 - 1)) = m.sp - 1 - 1 - (2 ^ 31 - 1) :=
          toInt32_of_mem (by omega) (by omega)
        have hwrap : toInt32 (2 ^ 31 - 1 + 1) = -2 ^ 31 := by decide
        have hguard : (decide ((2 ^ 31 - 1 : Int) < 0) ||
            !Machine.need { m with sp := m.sp - 1, pc := m.pc + 1 } (toInt32 (2 ^ 31 - 1 + 1)) ||
            decide (128 ≤ m.sp - 1)) = false := by
          rw [hwrap, Bool.or_eq_false_iff, Bool.or_eq_false_iff, decide_eq_false_iff_not,
            decide_eq_false_iff_not, ← Bool.not_eq_true, Machine.need_iff]
          dsimp only
          omega
        rw [Machine.step, Machine.exec, Machine.operate, Machine.index, hneed,
          if_neg Bool.false_ne_true]
        dsimp only
        rw [hmax, hguard, if_neg Bool.false_ne_true, hcell]
        exact List.mem_cons_of_mem _ List.mem_cons_self
      · rw [Access.Within]
        omega
  | @jump target hi hfar =>
      have hpc : f.code.length < asSize target := hsize.trans_le (asSize_of_neg hfar)
      exact ⟨_, hi, Or.inr ⟨{ m with pc := asSize target }, rfl, hpc⟩⟩
  | @jumpFalse target hi hone hzero hfar =>
      have hpc : f.code.length < asSize target := hsize.trans_le (asSize_of_neg hfar)
      have hneed : (!Machine.need { m with pc := m.pc + 1 } 1) = false := by
        rw [← Bool.not_eq_true, Machine.need_iff, not_lt]
        exact hone
      refine ⟨_, hi, Or.inr ⟨{ m with sp := m.sp - 1, pc := asSize target }, ?_, hpc⟩⟩
      rw [Machine.step, Machine.exec, hneed, if_neg Bool.false_ne_true]
      dsimp only
      rw [hzero, if_pos rfl]

theorem length_clipTo_le (A : Arith R) (xs bounds : List R) :
    (clipTo A xs bounds).length ≤ bounds.length / 2 := by
  induction xs, bounds using clipTo.induct with
  | case1 x xs lo hi bounds ih =>
      rw [clipTo, List.length_cons, List.length_cons, List.length_cons]
      omega
  | case2 xs bounds h =>
      rw [clipTo.eq_def]
      split
      · rename_i x xs lo hi bounds
        exact absurd rfl (h x xs lo hi bounds rfl)
      · exact Nat.zero_le _

/-- The inputs lie in the array, and the counters behind them are in bounds. -/
theorem start_spec (A : Arith R) (hf : f.domain.length / 2 ≤ 32) (mem : Int → R) (xs : List R) :
    (∀ a ∈ (f.start A mem xs).1, a.Within 128) ∧
      ∀ m, (f.start A mem xs).2 = some m → InBounds f m := by
  have hlen := (length_clipTo_le A xs f.domain).trans hf
  obtain ⟨hcells, m', hm', hsp, hpc⟩ :=
    Machine.load_spec (clipTo A xs f.domain) ⟨mem, 0, 0⟩ le_rfl (by dsimp only; omega)
  refine ⟨hcells, fun m hm => ?_⟩
  rw [CalcFn.start, hm'] at hm
  cases hm
  dsimp only at hsp hpc
  exact ⟨by omega, by omega, hpc.trans_le (Nat.zero_le _)⟩

theorem Reaches.inBounds (hA : CastsToInt A) (hcode : TargetsIn f.code)
    (hdomain : f.domain.length / 2 ≤ 32) {k : Nat} (h : Reaches A f mem xs k m)
    (hsafe : ∀ k m, Reaches A f mem xs k m → k < 200000 → ¬ Hazard A f m) : InBounds f m := by
  induction h with
  | start hm => exact (start_spec A hdomain mem xs).2 _ hm
  | next h hk hi hstep ih => exact (ih.step hA hcode hi (hsafe _ _ h hk)).2 _ hstep

theorem Stays.not_hazard (h : Stays A f mem xs) (hsize : f.code.length < 2 ^ 63) {k : Nat}
    (hm : Reaches A f mem xs k m) (hk : k < 200000) : ¬ Hazard A f m := by
  intro hhazard
  have hbounded := h.run k m hm
  obtain ⟨i, hi, ⟨a, ha, hout⟩ | ⟨m', hm', hpc⟩⟩ :=
    hhazard.leaves hsize ⟨hbounded.nonneg, hbounded.top, hbounded.pc⟩
  · exact hout (hbounded.cells hk i hi a ha)
  · exact absurd (h.run (k + 1) m' (.next hm hk hi hm')).pc (not_le.mpr hpc)

/-- A function stays in its array exactly if no hazard is run into. -/
theorem stays_iff (hA : CastsToInt A) {domain range : List R} {src : List Char}
    (hf : CalcFn.init A domain range src = some f) (hsize : f.code.length < 2 ^ 63)
    (mem : Int → R) (xs : List R) :
    Stays A f mem xs ↔ ∀ k m, Reaches A f mem xs k m → k < 200000 → ¬ Hazard A f m := by
  obtain ⟨hcode, -, hdomain⟩ := targetsIn_init hf
  constructor
  · exact fun h k m hm hk => h.not_hazard hsize hm hk
  · intro hsafe
    obtain ⟨hinputs, -⟩ := start_spec A hdomain mem xs
    refine ⟨fun a ha => ⟨128, hinputs a ha⟩, fun k m hm => ?_⟩
    have hbounds := hm.inBounds hA hcode hdomain hsafe
    refine ⟨hbounds.nonneg, hbounds.top, hbounds.pc, fun hk i hi => ?_, fun _ o ho hlt => ?_⟩
    · exact (hbounds.step hA hcode hi (hsafe k m hm hk)).1
    · rw [Access.Within]
      omega

/-- Arithmetic whose numbers outside of the integers of 32 bits are cast to the least of these. -/
def Arith.casting (A : Arith R) : Arith R :=
  { A with toInt := fun x =>
      if -2 ^ 31 ≤ A.toInt x ∧ A.toInt x < 2 ^ 31 then A.toInt x else -2 ^ 31 }

theorem castsToInt_casting (A : Arith R) : CastsToInt A.casting := by
  refine ⟨fun x => ?_, fun x => ?_⟩
  · rw [Arith.casting]
    dsimp only
    split
    · rename_i h
      exact h.1
    · exact le_rfl
  · rw [Arith.casting]
    dsimp only
    split
    · rename_i h
      exact h.2
    · decide

/-- Every `index` stands right behind a number that is no hazard to it, and every jump leads past
an `index` to a position that is not negative. -/
structure IndexPushed (A : Arith R) (f : CalcFn R) : Prop where
  first : f.code[0]? ≠ some (.op .index)
  pushed : ∀ pc, f.code[pc + 1]? = some (.op .index) →
    ∃ v, f.code[pc]? = some (.push v) ∧ A.toInt v ≠ 2 ^ 31 - 1
  jumps : ∀ i ∈ f.code, ∀ target, i = .jump target ∨ i = .jumpFalse target →
    0 ≤ toInt32 target ∧ f.code[asSize target]? ≠ some (.op .index)

/-- Such a function meets no hazard. -/
theorem IndexPushed.not_hazard (h : IndexPushed A f)
    (htop : f.code[m.pc]? = some (.op .index) → A.toInt (m.st (m.sp - 1)) ≠ 2 ^ 31 - 1) :
    ¬ Hazard A f m := by
  rintro (⟨hi, -, hmax⟩ | ⟨hi, hfar⟩ | ⟨hi, -, -, hfar⟩)
  · exact htop hi hmax
  · exact absurd (h.jumps _ (List.mem_of_getElem? hi) _ (Or.inl rfl)).1 (not_le.mpr hfar)
  · exact absurd (h.jumps _ (List.mem_of_getElem? hi) _ (Or.inr rfl)).1 (not_le.mpr hfar)

/-- Behind any instruction, an `index` finds the number that was pushed for it. -/
theorem IndexPushed.step (hA : CastsToInt A) (h : IndexPushed A f) (hbounds : InBounds f m)
    {i : PsInstr R} {m' : Machine R} (hi : f.code[m.pc]? = some i) (hsafe : ¬ Hazard A f m)
    (hstep : (m.step A i).2 = some m') (hindex : f.code[m'.pc]? = some (.op .index)) :
    A.toInt (m'.st (m'.sp - 1)) ≠ 2 ^ 31 - 1 := by
  have hmem : i ∈ f.code := List.mem_of_getElem? hi
  have hbehind : m'.pc = m.pc + 1 → ∃ v, i = .push v ∧ A.toInt v ≠ 2 ^ 31 - 1 := by
    intro hpc
    rw [hpc] at hindex
    obtain ⟨v, hv, hne⟩ := h.pushed m.pc hindex
    exact ⟨v, Option.some.inj (hi.symm.trans hv), hne⟩
  cases i with
  | push v =>
      have hkeeps := Machine.keeps_push (m := { m with pc := m.pc + 1 }) hbounds.nonneg v
      obtain ⟨v', hv, hne⟩ := hbehind (hkeeps.pc m' hstep)
      obtain rfl := PsInstr.push.inj hv
      rw [Machine.step, Machine.exec, Machine.push] at hstep
      split at hstep
      · cases hstep
      · cases hstep
        simpa [Machine.set] using hne
  | op o =>
      have hkeeps := Machine.keeps_operate (m := { m with pc := m.pc + 1 }) hA hbounds.nonneg
        hbounds.top o (by
          rintro rfl hone hmax
          exact hsafe (.index hi hone hmax))
      obtain ⟨v, hv, -⟩ := hbehind (hkeeps.pc m' hstep)
      cases hv
  | jump target =>
      cases hstep
      exact absurd hindex (h.jumps _ hmem target (Or.inl rfl)).2
  | jumpFalse target =>
      rw [Machine.step, Machine.exec] at hstep
      split at hstep
      · cases hstep
      · cases hstep
        dsimp only at hindex hbehind
        split at hindex
        · exact absurd hindex (h.jumps _ hmem target (Or.inr rfl)).2
        · rename_i hzero
          obtain ⟨v, hv, -⟩ := hbehind (if_neg hzero)
          cases hv

/-- Such a function stays in its array. -/
theorem IndexPushed.not_hazard_of_reaches (hA : CastsToInt A) (h : IndexPushed A f)
    (hcode : TargetsIn f.code) (hdomain : f.domain.length / 2 ≤ 32) {k : Nat}
    (hm : Reaches A f mem xs k m) : ¬ Hazard A f m := by
  suffices hinv : InBounds f m ∧
      (f.code[m.pc]? = some (.op .index) → A.toInt (m.st (m.sp - 1)) ≠ 2 ^ 31 - 1) from
    h.not_hazard hinv.2
  induction hm with
  | @start m hm =>
      refine ⟨(start_spec A hdomain mem xs).2 m hm, fun hindex => ?_⟩
      have hlen := (length_clipTo_le A xs f.domain).trans hdomain
      obtain ⟨-, m', hm', -, hpc⟩ :=
        Machine.load_spec (clipTo A xs f.domain) ⟨mem, 0, 0⟩ le_rfl (by dsimp only; omega)
      rw [CalcFn.start, hm'] at hm
      cases hm
      rw [hpc] at hindex
      exact absurd hindex h.first
  | next _ _ hi hstep ih =>
      have hsafe := h.not_hazard ih.2
      exact ⟨(ih.1.step hA hcode hi hsafe).2 _ hstep, h.step hA ih.1 hi hsafe hstep⟩

/-- A library that is not called. -/
def noLib : MathLib :=
  ⟨fun x => x, fun x => x, fun x => x, fun x => x, fun x => x, fun x _ => x, fun x _ => x⟩

/-- A function of one number with one result. -/
def function (src : String) : Option (CalcFn ℚ) :=
  CalcFn.init (exact noLib).casting [0, 1] [0, 1] src.toList

theorem function_maxIndex :
    (function "{2147483647 index}").map CalcFn.code = some [.push 2147483647, .op .index] := by
  decide +kernel

/-- The memory behind an input of zero. -/
def zeroCell : Int → ℚ := Function.update (fun _ => 0) 0 (clip (exact noLib).casting 0 0 1)

theorem reaches_zero {f : CalcFn ℚ} (hdomain : f.domain = [0, 1]) :
    Reaches (exact noLib).casting f (fun _ => 0) [0] 0 ⟨zeroCell, 1, 0⟩ := by
  refine .start ?_
  rw [CalcFn.start, hdomain]
  rfl

/-- The largest integer as operand of `index` lets it read below the array. -/
theorem maxIndex_leaves : ∃ f, function "{2147483647 index}" = some f ∧
    ¬ Stays (exact noLib).casting f (fun _ => 0) [0] := by
  obtain ⟨f, hf, hcode⟩ := Option.map_eq_some_iff.mp function_maxIndex
  refine ⟨f, hf, fun h => ?_⟩
  have hstart := reaches_zero (targetsIn_init hf).2.1
  have hpush : f.code[0]? = some (.push 2147483647) := by rw [hcode]; rfl
  have hindex : f.code[1]? = some (.op .index) := by rw [hcode]; rfl
  have hpushed := Reaches.next hstart (by decide) hpush
    (show _ = some ⟨Function.update zeroCell 1 2147483647, 2, 1⟩ from rfl)
  have hsize : f.code.length < 2 ^ 63 := by
    rw [hcode]
    decide
  refine h.not_hazard hsize hpushed (by decide) (.index hindex (by decide) ?_)
  decide +kernel

/-- A function with `roll`, `index` and jumps stays in the array. -/
theorem larger_stays : ∃ f,
    function "{dup dup 2 1 roll 1 index gt {pop} {exch pop} ifelse}" = some f ∧
      Stays (exact noLib).casting f (fun _ => 0) [0] := by
  have hcode : (function "{dup dup 2 1 roll 1 index gt {pop} {exch pop} ifelse}").map CalcFn.code =
      some [.op .dup, .op .dup, .push 2, .push 1, .op .roll, .push 1, .op .index, .op .gt,
        .jumpFalse 11, .op .pop, .jump 13, .op .exch, .op .pop] := by
    decide +kernel
  obtain ⟨f, hf, hcode⟩ := Option.map_eq_some_iff.mp hcode
  have hsize : f.code.length < 2 ^ 63 := by
    rw [hcode]
    decide
  have hA := castsToInt_casting (exact noLib)
  have hpushed : IndexPushed (exact noLib).casting f := by
    refine ⟨by rw [hcode]; simp, fun pc hpc => ?_, fun i hi target htarget => ?_⟩
    · have hlt := (List.getElem?_eq_some_iff.mp hpc).1
      rw [hcode] at hpc hlt ⊢
      have hle : pc < 12 := Nat.lt_of_succ_lt_succ hlt
      interval_cases pc <;> simp at hpc
      exact ⟨1, rfl, by decide +kernel⟩
    · rw [hcode] at hi ⊢
      rcases htarget with rfl | rfl
      · simp at hi
        subst hi
        exact ⟨by decide, by decide +kernel⟩
      · simp at hi
        subst hi
        exact ⟨by decide, by decide +kernel⟩
  obtain ⟨htargets, hdomain, hlength⟩ := targetsIn_init hf
  exact ⟨f, hf, (stays_iff hA hf hsize _ _).mpr fun k m hm _ =>
    hpushed.not_hazard_of_reaches hA htargets hlength hm⟩

end Kura.Engine.Calculator
