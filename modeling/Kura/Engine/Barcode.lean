import Kura.Base.Integers
import Kura.Base.WordCode
import Mathlib.Tactic.NormNum
import Mathlib.Tactic.Ring

/-!
# Code 128

Digits in pairs, or characters one by one, become symbols of bars and spaces,
with a start, a check and a stop. What is drawn is read back by the table of
symbols; it is the text as long as the check is that of the weighted sum, which
is added up in 32 bits.
-/

namespace Kura.Engine.Barcode

open Base (toInt32 toInt32_eq)
open Kura.Base.WordCode

structure BarcodeMatrix where
  width : Int := 0
  height : Int := 0
  linear : Bool := false
  dark : List Bool := []
  error : String := ""
  deriving DecidableEq

/-- The widths of the bars and spaces of the symbols. -/
def kCode128 : List (List Nat) :=
  [[2, 1, 2, 2, 2, 2], [2, 2, 2, 1, 2, 2], [2, 2, 2, 2, 2, 1], [1, 2, 1, 2, 2, 3],
    [1, 2, 1, 3, 2, 2], [1, 3, 1, 2, 2, 2], [1, 2, 2, 2, 1, 3], [1, 2, 2, 3, 1, 2],
    [1, 3, 2, 2, 1, 2], [2, 2, 1, 2, 1, 3], [2, 2, 1, 3, 1, 2], [2, 3, 1, 2, 1, 2],
    [1, 1, 2, 2, 3, 2], [1, 2, 2, 1, 3, 2], [1, 2, 2, 2, 3, 1], [1, 1, 3, 2, 2, 2],
    [1, 2, 3, 1, 2, 2], [1, 2, 3, 2, 2, 1], [2, 2, 3, 2, 1, 1], [2, 2, 1, 1, 3, 2],
    [2, 2, 1, 2, 3, 1], [2, 1, 3, 2, 1, 2], [2, 2, 3, 1, 1, 2], [3, 1, 2, 1, 3, 1],
    [3, 1, 1, 2, 2, 2], [3, 2, 1, 1, 2, 2], [3, 2, 1, 2, 2, 1], [3, 1, 2, 2, 1, 2],
    [3, 2, 2, 1, 1, 2], [3, 2, 2, 2, 1, 1], [2, 1, 2, 1, 2, 3], [2, 1, 2, 3, 2, 1],
    [2, 3, 2, 1, 2, 1], [1, 1, 1, 3, 2, 3], [1, 3, 1, 1, 2, 3], [1, 3, 1, 3, 2, 1],
    [1, 1, 2, 3, 1, 3], [1, 3, 2, 1, 1, 3], [1, 3, 2, 3, 1, 1], [2, 1, 1, 3, 1, 3],
    [2, 3, 1, 1, 1, 3], [2, 3, 1, 3, 1, 1], [1, 1, 2, 1, 3, 3], [1, 1, 2, 3, 3, 1],
    [1, 3, 2, 1, 3, 1], [1, 1, 3, 1, 2, 3], [1, 1, 3, 3, 2, 1], [1, 3, 3, 1, 2, 1],
    [3, 1, 3, 1, 2, 1], [2, 1, 1, 3, 3, 1], [2, 3, 1, 1, 3, 1], [2, 1, 3, 1, 1, 3],
    [2, 1, 3, 3, 1, 1], [2, 1, 3, 1, 3, 1], [3, 1, 1, 1, 2, 3], [3, 1, 1, 3, 2, 1],
    [3, 3, 1, 1, 2, 1], [3, 1, 2, 1, 1, 3], [3, 1, 2, 3, 1, 1], [3, 3, 2, 1, 1, 1],
    [3, 1, 4, 1, 1, 1], [2, 2, 1, 4, 1, 1], [4, 3, 1, 1, 1, 1], [1, 1, 1, 2, 2, 4],
    [1, 1, 1, 4, 2, 2], [1, 2, 1, 1, 2, 4], [1, 2, 1, 4, 2, 1], [1, 4, 1, 1, 2, 2],
    [1, 4, 1, 2, 2, 1], [1, 1, 2, 2, 1, 4], [1, 1, 2, 4, 1, 2], [1, 2, 2, 1, 1, 4],
    [1, 2, 2, 4, 1, 1], [1, 4, 2, 1, 1, 2], [1, 4, 2, 2, 1, 1], [2, 4, 1, 2, 1, 1],
    [2, 2, 1, 1, 1, 4], [4, 1, 3, 1, 1, 1], [2, 4, 1, 1, 1, 2], [1, 3, 4, 1, 1, 1],
    [1, 1, 1, 2, 4, 2], [1, 2, 1, 1, 4, 2], [1, 2, 1, 2, 4, 1], [1, 1, 4, 2, 1, 2],
    [1, 2, 4, 1, 1, 2], [1, 2, 4, 2, 1, 1], [4, 1, 1, 2, 1, 2], [4, 2, 1, 1, 1, 2],
    [4, 2, 1, 2, 1, 1], [2, 1, 2, 1, 4, 1], [2, 1, 4, 1, 2, 1], [4, 1, 2, 1, 2, 1],
    [1, 1, 1, 1, 4, 3], [1, 1, 1, 3, 4, 1], [1, 3, 1, 1, 4, 1], [1, 1, 4, 1, 1, 3],
    [1, 1, 4, 3, 1, 1], [4, 1, 1, 1, 1, 3], [4, 1, 1, 3, 1, 1], [1, 1, 3, 1, 4, 1],
    [1, 1, 4, 1, 3, 1], [3, 1, 1, 1, 4, 1], [4, 1, 1, 1, 3, 1], [2, 1, 1, 4, 1, 2],
    [2, 1, 1, 2, 1, 4], [2, 1, 1, 2, 3, 2], [2, 3, 3, 1, 1, 1, 2]]

def isDigit (c : UInt8) : Bool := 48 ≤ c && c ≤ 57

def allDigits (data : List UInt8) : Bool :=
  2 ≤ data.length && data.length % 2 = 0 && data.all isDigit

/-- The values of pairs of digits. -/
def pairValues : List UInt8 → List Int
  | a :: b :: rest => (((a.toNat : Int) - 48) * 10 + ((b.toNat : Int) - 48)) :: pairValues rest
  | _ => []

/-- The values of a text with its start, if it can be encoded. -/
def values (data : List UInt8) : Option (List Int) :=
  if allDigits data then some (105 :: pairValues data)
  else if data.any fun c => c < 32 || c > 127 then none
  else some (104 :: data.map fun c => (c.toNat : Int) - 32)

/-- Adds up values with their places. -/
def addWeighted : Int → Nat → List Int → Int
  | sum, _, [] => sum
  | sum, i, v :: rest => addWeighted (toInt32 (sum + toInt32 (v * toInt32 i))) (i + 1) rest

def weightedSum : List Int → Int
  | [] => 0
  | start :: rest => addWeighted start 1 rest

/-- Draws widths, bars and spaces in turn. -/
def drawRuns : Bool → List Nat → List Bool × Bool
  | bar, [] => ([], bar)
  | bar, k :: rest =>
      let r := drawRuns (!bar) rest
      (List.replicate k bar ++ r.1, r.2)

/-- The entry of the table, if it has one. -/
def entry (v : Int) : Option (List Nat) := if 0 ≤ v then kCode128[v.toNat]? else none

def drawValues : Bool → List Int → Option (List Bool)
  | _, [] => some []
  | bar, v :: rest =>
      (entry v).bind fun runs =>
        let r := drawRuns bar runs
        (drawValues r.2 rest).map fun later => r.1 ++ later

/-- Draws a text; there is no matrix if a symbol outside the table is read. -/
def code128 (data : List UInt8) : Option BarcodeMatrix :=
  match values data with
  | none => some { error := "Code 128 set B cannot encode this text" }
  | some vals =>
      let check := (weightedSum vals).tmod 103
      (drawValues true (vals ++ [check, 106])).map fun dark =>
        { width := toInt32 dark.length, height := 1, linear := true, dark := dark }

/-- The modules of the symbols, each from its first bar on. -/
def patterns : List (List Bool) := kCode128.map fun runs => (drawRuns true runs).1

/-- The symbols of modules. -/
def readSymbols (dark : List Bool) : Option (List Nat) := readWords patterns dark.length dark

/-- The sum of values with their places, from a place on. -/
def exactSum : Nat → List Int → Int
  | _, [] => 0
  | i, v :: rest => v * i + exactSum (i + 1) rest

/-- The exact sum with the start, whose place counts as the first. -/
def exactWeightedSum : List Int → Int
  | [] => 0
  | start :: rest => start + exactSum 1 rest

/-- The characters that a symbol stands for after a start. -/
def charsOf (start : Nat) (v : Nat) : Option (List UInt8) :=
  if start = 105 then
    if v < 100 then some [UInt8.ofNat (48 + v / 10), UInt8.ofNat (48 + v % 10)] else none
  else if start = 104 then if v < 96 then some [UInt8.ofNat (v + 32)] else none
  else none

/-- The text of symbols: a start, the text, the right check, and the stop. -/
def textOf (symbols : List Nat) : Option (List UInt8) :=
  match symbols.reverse with
  | 106 :: check :: body =>
      match body.reverse with
      | start :: text =>
          if (check : Int) =
              exactWeightedSum ((start :: text).map fun v : Nat => (v : Int)) % 103 then
            (text.mapM (charsOf start)).map List.flatten
          else none
      | [] => none
  | _ => none

/-- What a text gives, read and decoded. -/
structure ReadsBack (data : List UInt8) (m : BarcodeMatrix) (vals : List Int) : Prop where
  drawn : code128 data = some m
  accepted : m.error = ""
  values : values data = some vals
  symbols : readSymbols m.dark =
    some (vals.map Int.toNat ++ [(exactWeightedSum vals % 103).toNat, 106])
  text : textOf (vals.map Int.toNat ++ [(exactWeightedSum vals % 103).toNat, 106]) = some data

theorem addWeighted_eq : ∀ (vals : List Int) (sum : Int) (i : Nat),
    addWeighted (toInt32 sum) i vals = toInt32 (sum + exactSum i vals)
  | [], sum, i => by
      rw [addWeighted, exactSum, add_zero]
  | v :: rest, sum, i => by
      have hstep : toInt32 (toInt32 sum + toInt32 (v * toInt32 i)) = toInt32 (sum + v * i) := by
        unfold toInt32
        rw [Int.mul_bmod_bmod, Int.add_bmod_bmod, Int.bmod_add_bmod]
      rw [addWeighted, hstep, addWeighted_eq rest, exactSum, add_assoc]

theorem weightedSum_eq {start : Int} (hstart : start = 104 ∨ start = 105) (vals : List Int) :
    weightedSum (start :: vals) = toInt32 (exactWeightedSum (start :: vals)) := by
  have hsmall : toInt32 start = start := by
    obtain rfl | rfl := hstart <;> decide
  rw [weightedSum, exactWeightedSum, ← addWeighted_eq, hsmall]

/-- The sum comes out of its 32 bits as the right check value. -/
def SumHolds (sum : Int) : Prop :=
  103 ∣ (sum + 2 ^ 31) / 2 ^ 32 ∧ (2 ^ 31 ≤ sum % 2 ^ 32 → 103 ∣ sum)

theorem tmod_toInt32_iff (sum : Int) :
    (toInt32 sum).tmod 103 = sum % 103 ↔ SumHolds sum := by
  have heq := toInt32_eq sum
  unfold SumHolds
  by_cases hneg : 2 ^ 31 ≤ sum % 2 ^ 32
  · have hlow : toInt32 sum < 0 := by omega
    have hmod : (toInt32 sum).tmod 103 = -(-toInt32 sum % 103) := by
      rw [← Int.tmod_eq_emod_of_nonneg (by omega), Int.neg_tmod, neg_neg]
    rw [hmod]
    omega
  · have hmod : (toInt32 sum).tmod 103 = toInt32 sum % 103 :=
      Int.tmod_eq_emod_of_nonneg (by omega)
    rw [hmod]
    omega

theorem patterns_prefixFree : PrefixFree patterns := by
  constructor
  · decide
  · decide +kernel

theorem length_patterns : patterns.length = 107 := by decide

/-- The width of each entry but the last ends with a space. -/
theorem drawRuns_snd : ∀ i < 106, (drawRuns true (kCode128[i]?.getD [])).2 = true := by decide

theorem drawRuns_fst {i : Nat} (hi : i < 107) :
    ∃ runs, kCode128[i]? = some runs ∧ (drawRuns true runs).1 = word patterns i := by
  have hlt : i < kCode128.length := hi
  refine ⟨kCode128[i], List.getElem?_eq_getElem hlt, ?_⟩
  rw [word, patterns, List.getElem?_map, List.getElem?_eq_getElem hlt]
  rfl

theorem entry_natCast (i : Nat) : entry (i : Int) = kCode128[i]? := by
  rw [entry, if_pos (Int.natCast_nonneg i), Int.toNat_natCast]

/-- Values before the stop are drawn as the patterns of their symbols. -/
theorem drawValues_append_stop : ∀ {is : List Nat}, (∀ i ∈ is, i < 106) →
    drawValues true (is.map (fun i : Nat => (i : Int)) ++ [106]) =
      some (writeWords patterns (is ++ [106]))
  | [], _ => by decide
  | i :: is, his => by
      have hi := his i List.mem_cons_self
      obtain ⟨runs, hruns, hword⟩ := drawRuns_fst (Nat.lt_succ_of_lt hi)
      have hbar := drawRuns_snd i hi
      rw [hruns, Option.getD_some] at hbar
      have hrest := drawValues_append_stop fun j hj => his j (List.mem_cons_of_mem _ hj)
      rw [List.map_cons, List.cons_append, drawValues, entry_natCast, hruns, Option.bind_some]
      dsimp only
      rw [hbar, hrest, hword]
      rfl

/-- A value outside the table is not drawn. -/
theorem drawValues_of_entry_none {v : Int} (hv : entry v = none) : ∀ (vals rest : List Int)
    (bar : Bool), drawValues bar (vals ++ v :: rest) = none
  | [], rest, bar => by
      rw [List.nil_append, drawValues, hv, Option.bind_none]
  | u :: vals, rest, bar => by
      rw [List.cons_append, drawValues]
      cases entry u with
      | none => rfl
      | some runs =>
          rw [Option.bind_some]
          dsimp only
          rw [drawValues_of_entry_none hv vals rest, Option.map_none]

theorem readSymbols_writeWords {is : List Nat} (his : ∀ i ∈ is, i < 107) :
    readSymbols (writeWords patterns is) = some is := by
  rw [readSymbols, readWords_eq_some_iff patterns_prefixFree, length_patterns]
  exact ⟨his, rfl⟩

/-- A text and the numbers of its symbols, which give it back. -/
structure Encodes (data : List UInt8) (start : Nat) (vs : List Nat) : Prop where
  values : values data = some ((start :: vs).map fun v : Nat => (v : Int))
  set : start = 104 ∨ start = 105
  lt : ∀ v ∈ vs, v < 100
  text : (vs.mapM (charsOf start)).map List.flatten = some data

theorem mapM_charsOf_cons {start v : Nat} {vs : List Nat} {front rest : List UInt8}
    (hv : charsOf start v = some front)
    (hrest : (vs.mapM (charsOf start)).map List.flatten = some rest) :
    ((v :: vs).mapM (charsOf start)).map List.flatten = some (front ++ rest) := by
  obtain ⟨parts, hparts, hflat⟩ := Option.map_eq_some_iff.mp hrest
  rw [List.mapM_cons, hv, hparts, ← hflat]
  rfl

/-- Digits in pairs are values of code set C that read back. -/
theorem pairs_encode : ∀ {data : List UInt8}, data.all isDigit = true → data.length % 2 = 0 →
    ∃ vs : List Nat, pairValues data = vs.map (fun v : Nat => (v : Int)) ∧ (∀ v ∈ vs, v < 100) ∧
      (vs.mapM (charsOf 105)).map List.flatten = some data
  | [], _, _ => ⟨[], rfl, (fun v hv => by cases hv), rfl⟩
  | [_], _, hlen => by cases hlen
  | a :: b :: rest, hall, hlen => by
      rw [List.all_cons, List.all_cons, Bool.and_eq_true, Bool.and_eq_true] at hall
      obtain ⟨ha, hb, hrest⟩ := hall
      obtain ⟨vs, hvs, hlt, htext⟩ := pairs_encode hrest (by
        rw [List.length_cons, List.length_cons] at hlen
        omega)
      rw [isDigit, Bool.and_eq_true, decide_eq_true_eq, decide_eq_true_eq, UInt8.le_iff_toNat_le,
        UInt8.le_iff_toNat_le] at ha hb
      have ha1 : 48 ≤ a.toNat := ha.1
      have ha2 : a.toNat ≤ 57 := ha.2
      have hb1 : 48 ≤ b.toNat := hb.1
      have hb2 : b.toNat ≤ 57 := hb.2
      refine ⟨((a.toNat - 48) * 10 + (b.toNat - 48)) :: vs, ?_, ?_, ?_⟩
      · rw [pairValues, hvs, List.map_cons]
        congr 1
        omega
      · exact List.forall_mem_cons.mpr ⟨by omega, hlt⟩
      · have hfront : charsOf 105 ((a.toNat - 48) * 10 + (b.toNat - 48)) = some [a, b] := by
          rw [charsOf, if_pos rfl, if_pos (by omega)]
          have hdiv : 48 + ((a.toNat - 48) * 10 + (b.toNat - 48)) / 10 = a.toNat := by omega
          have hmod : 48 + ((a.toNat - 48) * 10 + (b.toNat - 48)) % 10 = b.toNat := by omega
          rw [hdiv, hmod, UInt8.ofNat_toNat, UInt8.ofNat_toNat]
        exact mapM_charsOf_cons hfront htext

/-- Printable characters are values of code set B that read back. -/
theorem chars_encode : ∀ {data : List UInt8}, (∀ c ∈ data, 32 ≤ c ∧ c ≤ 127) →
    ∃ vs : List Nat, data.map (fun c => (c.toNat : Int) - 32) = vs.map (fun v : Nat => (v : Int)) ∧
      (∀ v ∈ vs, v < 100) ∧ (vs.mapM (charsOf 104)).map List.flatten = some data
  | [], _ => ⟨[], rfl, (fun v hv => by cases hv), rfl⟩
  | c :: rest, hall => by
      obtain ⟨hc, hrest⟩ := List.forall_mem_cons.mp hall
      obtain ⟨vs, hvs, hlt, htext⟩ := chars_encode hrest
      rw [UInt8.le_iff_toNat_le, UInt8.le_iff_toNat_le] at hc
      have hlow : 32 ≤ c.toNat := hc.1
      have hhigh : c.toNat ≤ 127 := hc.2
      refine ⟨(c.toNat - 32) :: vs, ?_, ?_, ?_⟩
      · rw [List.map_cons, List.map_cons, hvs]
        congr 1
        omega
      · exact List.forall_mem_cons.mpr ⟨by omega, hlt⟩
      · have hfront : charsOf 104 (c.toNat - 32) = some [c] := by
          rw [charsOf, if_neg (by decide), if_pos rfl, if_pos (by omega), Nat.sub_add_cancel hlow,
            UInt8.ofNat_toNat]
        exact mapM_charsOf_cons hfront htext

/-- Every printable text has an encoding. -/
theorem exists_encodes {data : List UInt8} (hall : ∀ c ∈ data, 32 ≤ c ∧ c ≤ 127) :
    ∃ start vs, Encodes data start vs := by
  by_cases hdigits : allDigits data = true
  · have hparts := hdigits
    rw [allDigits, Bool.and_eq_true, Bool.and_eq_true, decide_eq_true_eq,
      decide_eq_true_eq] at hparts
    obtain ⟨vs, hvs, hlt, htext⟩ := pairs_encode hparts.2 hparts.1.2
    refine ⟨105, vs, ?_, .inr rfl, hlt, htext⟩
    rw [values, if_pos hdigits, hvs]
    rfl
  · obtain ⟨vs, hvs, hlt, htext⟩ := chars_encode hall
    refine ⟨104, vs, ?_, .inl rfl, hlt, htext⟩
    have hnone : (data.any fun c => c < 32 || c > 127) = false := by
      rw [List.any_eq_false]
      intro c hc
      rw [Bool.or_eq_true, decide_eq_true_eq, decide_eq_true_eq, not_or]
      exact ⟨UInt8.not_lt.mpr (hall c hc).1, UInt8.not_lt.mpr (hall c hc).2⟩
    rw [values, if_neg hdigits, hnone, if_neg Bool.false_ne_true, hvs]
    rfl

section Encoded

variable {data : List UInt8} {start : Nat} {vs : List Nat}

/-- The exact sum of a text with its start. -/
def sumOf (data : List UInt8) : Int := exactWeightedSum ((values data).getD [])

theorem Encodes.sumOf_eq (h : Encodes data start vs) :
    sumOf data = exactWeightedSum ((start :: vs).map fun v : Nat => (v : Int)) := by
  rw [sumOf, h.values, Option.getD_some]

theorem Encodes.lt_stop (h : Encodes data start vs) : ∀ v ∈ start :: vs, v < 106 := by
  refine List.forall_mem_cons.mpr ⟨?_, fun v hv => Nat.lt_of_lt_of_le (h.lt v hv) (by decide)⟩
  obtain hstart | hstart := h.set <;> omega

/-- The symbols of a text with a check are drawn as their patterns. -/
theorem Encodes.drawValues_eq (h : Encodes data start vs) {check : Nat} (hcheck : check < 103) :
    drawValues true ((start :: vs).map (fun v : Nat => (v : Int)) ++ [(check : Int), 106]) =
      some (writeWords patterns (start :: vs ++ [check, 106])) := by
  have hsymbols : ∀ v ∈ start :: vs ++ [check], v < 106 := by
    intro v hv
    obtain hv | hv := List.mem_append.mp hv
    · exact h.lt_stop v hv
    · rw [List.mem_singleton.mp hv]
      omega
  have hdraw := drawValues_append_stop hsymbols
  rwa [List.map_append, List.append_assoc, List.append_assoc] at hdraw

/-- The sum of a text in 32 bits. -/
theorem Encodes.weightedSum_eq (h : Encodes data start vs) :
    weightedSum ((start :: vs).map fun v : Nat => (v : Int)) = toInt32 (sumOf data) := by
  have hstart : (start : Int) = 104 ∨ (start : Int) = 105 := by
    obtain hstart | hstart := h.set <;> omega
  rw [h.sumOf_eq, List.map_cons]
  exact Barcode.weightedSum_eq hstart _

/-- The matrix of a text. -/
theorem Encodes.code128_eq (h : Encodes data start vs) :
    code128 data = (drawValues true ((start :: vs).map (fun v : Nat => (v : Int)) ++
      [(toInt32 (sumOf data)).tmod 103, 106])).map fun dark =>
        { width := toInt32 dark.length, height := 1, linear := true, dark := dark } := by
  rw [code128, h.values]
  dsimp only
  rw [h.weightedSum_eq]

theorem reverse_symbols (start : Nat) (vs : List Nat) (check : Nat) :
    (start :: vs ++ [check, 106]).reverse = 106 :: check :: (start :: vs).reverse := by
  rw [List.reverse_append]
  rfl

/-- With the right check the symbols give the text. -/
theorem Encodes.textOf_eq (h : Encodes data start vs) :
    textOf (start :: vs ++ [(sumOf data % 103).toNat, 106]) = some data := by
  have hcast : (((sumOf data % 103).toNat : Nat) : Int) = sumOf data % 103 := by omega
  rw [textOf, reverse_symbols]
  simp only [List.reverse_reverse]
  rw [hcast, h.sumOf_eq, if_pos rfl, h.text]

/-- What is read is what was drawn. -/
theorem Encodes.symbols_of_drawn (h : Encodes data start vs) {m : BarcodeMatrix}
    (hm : code128 data = some m) : ∃ check : Nat,
      (toInt32 (sumOf data)).tmod 103 = check ∧ check < 103 ∧ m.error = "" ∧
        readSymbols m.dark = some (start :: vs ++ [check, 106]) := by
  rw [h.code128_eq] at hm
  obtain ⟨dark, hdark, rfl⟩ := Option.map_eq_some_iff.mp hm
  have hbound : (toInt32 (sumOf data)).tmod 103 < 103 := Int.tmod_lt_of_pos _ (by decide)
  by_cases hneg : 0 ≤ (toInt32 (sumOf data)).tmod 103
  · obtain ⟨check, hcheck⟩ := Int.eq_ofNat_of_zero_le hneg
    rw [hcheck] at hbound hdark
    have hlt : check < 103 := by omega
    rw [h.drawValues_eq hlt] at hdark
    refine ⟨check, hcheck, hlt, rfl, ?_⟩
    dsimp only
    rw [← Option.some.inj hdark, readSymbols_writeWords]
    intro v hv
    obtain hv | hv := List.mem_append.mp hv
    · exact Nat.lt_succ_of_lt (h.lt_stop v hv)
    · obtain rfl | hv := List.mem_cons.mp hv
      · omega
      · rw [List.mem_singleton.mp hv]
        decide
  · -- a negative check is outside the table
    have hnone : entry ((toInt32 (sumOf data)).tmod 103) = none := if_neg hneg
    rw [drawValues_of_entry_none hnone] at hdark
    cases hdark

end Encoded

theorem map_toNat_natCast (is : List Nat) :
    (is.map fun v : Nat => (v : Int)).map Int.toNat = is := by
  rw [List.map_map]
  exact List.map_id' is

/-- A text is read back from its matrix exactly if its sum comes out right. -/
theorem code128_readsBack_iff (data : List UInt8) (hall : ∀ c ∈ data, 32 ≤ c ∧ c ≤ 127) :
    (∃ m vals, ReadsBack data m vals) ↔ SumHolds (sumOf data) := by
  obtain ⟨start, vs, h⟩ := exists_encodes hall
  rw [← tmod_toInt32_iff]
  constructor
  · rintro ⟨m, vals, hback⟩
    obtain ⟨check, hcheck, -, -, hread⟩ := h.symbols_of_drawn hback.drawn
    have hvals := hback.values
    rw [h.values] at hvals
    cases hvals
    have hsymbols := hback.symbols
    rw [hread, map_toNat_natCast, ← h.sumOf_eq] at hsymbols
    have hlast := List.append_cancel_left (Option.some.inj hsymbols)
    rw [hcheck, (List.cons.inj hlast).1]
    omega
  · intro hsum
    have hcheck : (toInt32 (sumOf data)).tmod 103 = ((sumOf data % 103).toNat : Nat) := by omega
    have hlt : (sumOf data % 103).toNat < 103 := by omega
    have hdrawn := h.code128_eq
    rw [hcheck, h.drawValues_eq hlt] at hdrawn
    obtain ⟨check, hcheck', -, herror, hread⟩ := h.symbols_of_drawn hdrawn
    have hsame : check = (sumOf data % 103).toNat := by omega
    rw [hsame] at hread
    refine ⟨_, _, hdrawn, herror, h.values, ?_, ?_⟩
    · rw [map_toNat_natCast, ← h.sumOf_eq]
      exact hread
    · rw [map_toNat_natCast, ← h.sumOf_eq]
      exact h.textOf_eq

/-- `PDF/A-4: Kura 2026`. -/
def nameText : List UInt8 :=
  [0x50, 0x44, 0x46, 0x2F, 0x41, 0x2D, 0x34, 0x3A, 0x20, 0x4B, 0x75, 0x72, 0x61, 0x20, 0x32, 0x30,
  0x32, 0x36]

theorem readsBack_name : ∃ m vals, ReadsBack nameText m vals := by
  refine (code128_readsBack_iff nameText (by simp [nameText])).mpr ?_
  rw [SumHolds]
  decide

theorem exactSum_replicate (v : Int) : ∀ (n i : Nat),
    2 * exactSum i (List.replicate n v) = v * (n * (2 * i + n - 1))
  | 0, i => by
      rw [List.replicate_zero, exactSum, Nat.cast_zero]
      ring
  | n + 1, i => by
      have hrest := exactSum_replicate v n (i + 1)
      rw [List.replicate_succ, exactSum, mul_add, hrest]
      push_cast
      ring

theorem values_tildes (n : Nat) :
    values (List.replicate (n + 1) 126) = some (104 :: List.replicate (n + 1) 94) := by
  have hdigits : allDigits (List.replicate (n + 1) 126) = false := by
    rw [allDigits, List.replicate_succ, List.all_cons]
    exact Bool.and_false _
  have hnone : ((List.replicate (n + 1) (126 : UInt8)).any fun c => c < 32 || c > 127) = false := by
    rw [List.any_replicate, if_neg (Nat.succ_ne_zero n)]
    decide
  rw [values, hdigits, if_neg Bool.false_ne_true, hnone, if_neg Bool.false_ne_true,
    List.map_replicate]
  rfl

/-- So many tildes have no matrix: in 32 bits their sum is below zero. -/
theorem tildes_unread :
    ¬ ∀ data : List UInt8, (∀ c ∈ data, 32 ≤ c ∧ c ≤ 127) → ∃ m vals, ReadsBack data m vals := by
  intro hread
  have hall : ∀ c ∈ List.replicate 6800 (126 : UInt8), 32 ≤ c ∧ c ≤ 127 := by
    intro c hc
    rw [List.eq_of_mem_replicate hc]
    decide
  obtain ⟨m, vals, hback⟩ := hread _ hall
  obtain ⟨start, vs, h⟩ := exists_encodes hall
  obtain ⟨check, hcheck, -⟩ := h.symbols_of_drawn hback.drawn
  have hsum : sumOf (List.replicate 6800 126) = 2173599704 := by
    have hexact := exactSum_replicate 94 6800 1
    rw [sumOf, values_tildes 6799, Option.getD_some, exactWeightedSum]
    norm_num at hexact ⊢
    omega
  have hneg : (toInt32 2173599704).tmod 103 = -89 := by decide
  rw [hsum, hneg] at hcheck
  omega

end Kura.Engine.Barcode
