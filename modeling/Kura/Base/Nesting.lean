import Mathlib.Data.List.Count
import Mathlib.Logic.Function.Basic

/-!
# Nested delimiters

Delimiters of several kinds, and when every opener is closed by the closer of
its own kind. A reader with a stack decides it. A reader with one counter for
each kind leaves out the closers that close nothing; `nested_keep_iff` says
what closers at the end make its text nested.
-/

namespace Kura.Base

variable {κ : Type*}

/-- Delimiters of some kinds. -/
inductive Delim (κ : Type*) where
  | opener (k : κ)
  | closer (k : κ)
  deriving DecidableEq

open Delim

/-- Every opener is closed by a closer of its kind, and no closer is left over. -/
inductive Nested : List (Delim κ) → Prop
  | nil : Nested []
  | wrap {k : κ} {u v : List (Delim κ)} (inner : Nested u) (rest : Nested v) :
      Nested (opener k :: (u ++ closer k :: v))

/-- A text that closes the given delimiters, the first of them first. -/
def Closes : List κ → List (Delim κ) → Prop
  | [], w => Nested w
  | k :: st, w => ∃ u v, w = u ++ closer k :: v ∧ Nested u ∧ Closes st v

theorem Closes.wrap {k : κ} {u v : List (Delim κ)} {st : List κ} (hu : Nested u)
    (hv : Closes st v) : Closes st (opener k :: (u ++ closer k :: v)) := by
  cases st with
  | nil => exact Nested.wrap hu hv
  | cons j st =>
      obtain ⟨u', v', rfl, hu', hv'⟩ := hv
      refine ⟨opener k :: (u ++ closer k :: u'), v', ?_, Nested.wrap hu hu', hv'⟩
      simp

variable [DecidableEq κ]

/-- The delimiters open after a text, the innermost first; none if a closer fails to close the
innermost one. -/
def scan : List κ → List (Delim κ) → Option (List κ)
  | st, [] => some st
  | st, opener k :: w => scan (k :: st) w
  | [], closer _ :: _ => none
  | j :: st, closer k :: w => if j = k then scan st w else none

theorem Nested.scan_append {u : List (Delim κ)} (h : Nested u) (st : List κ) (w : List (Delim κ)) :
    scan st (u ++ w) = scan st w := by
  induction h generalizing st w with
  | nil => rfl
  | @wrap k u v _ _ ihu ihv =>
      calc
        scan st (opener k :: (u ++ closer k :: v) ++ w)
            = scan (k :: st) (u ++ (closer k :: (v ++ w))) := by simp [scan]
        _ = scan (k :: st) (closer k :: (v ++ w)) := ihu _ _
        _ = scan st (v ++ w) := if_pos rfl
        _ = scan st w := ihv _ _

/-- A word the stack accepts closes every bracket it opens. -/
theorem closes_of_scan {st : List κ} {w : List (Delim κ)} (h : scan st w = some []) :
    Closes st w := by
  induction w generalizing st with
  | nil =>
      cases Option.some.inj h
      exact Nested.nil
  | cons d w ih =>
      cases d with
      | opener k =>
          have hinner : Closes (k :: st) w := ih h
          obtain ⟨u, v, rfl, hu, hv⟩ := hinner
          exact hv.wrap hu
      | closer k =>
          cases st with
          | nil => cases h
          | cons j st =>
              by_cases hjk : j = k
              · subst hjk
                rw [scan, if_pos rfl] at h
                exact ⟨[], w, rfl, .nil, ih h⟩
              · rw [scan, if_neg hjk] at h
                cases h

/-- The reader with a stack decides nesting. -/
theorem nested_iff_scan (w : List (Delim κ)) : Nested w ↔ scan [] w = some [] := by
  constructor
  · intro h
    have hend := h.scan_append [] []
    rwa [List.append_nil] at hend
  · exact closes_of_scan

theorem scan_closers (st ks : List κ) : scan st (ks.map closer) = some [] ↔ st = ks := by
  induction ks generalizing st with
  | nil => simp [scan]
  | cons k ks ih =>
      cases st with
      | nil => simp [scan]
      | cons j st =>
          by_cases hjk : j = k
          · simp [scan, hjk, ih]
          · simp [scan, hjk]

theorem scan_append (st : List κ) (u w : List (Delim κ)) :
    scan st (u ++ w) = (scan st u).bind fun st' => scan st' w := by
  induction u generalizing st with
  | nil => rfl
  | cons d u ih =>
      cases d with
      | opener k => exact ih (k :: st)
      | closer k =>
          cases st with
          | nil => rfl
          | cons j st =>
              by_cases hjk : j = k
              · simp [scan, hjk, ih]
              · simp [scan, hjk]

/-- How many delimiters of each kind are open after one more. -/
def tally (c : κ → Nat) : Delim κ → κ → Nat
  | opener k => Function.update c k (c k + 1)
  | closer k => Function.update c k (c k - 1)

/-- How many delimiters of each kind are open after a text. -/
def counts (c : κ → Nat) (w : List (Delim κ)) : κ → Nat := w.foldl tally c

/-- Tests whether a delimiter closes nothing. -/
def idle (c : κ → Nat) : Delim κ → Bool
  | opener _ => false
  | closer k => c k = 0

/-- The text without the closers that close nothing. -/
def keep (c : κ → Nat) : List (Delim κ) → List (Delim κ)
  | [] => []
  | d :: w => if idle c d then keep (tally c d) w else d :: keep (tally c d) w

theorem tally_of_idle {c : κ → Nat} {d : Delim κ} (h : idle c d = true) : tally c d = c := by
  cases d with
  | opener k => cases h
  | closer k =>
      have hzero : c k = 0 := by simpa [idle] using h
      have hsame : c k - 1 = c k := by omega
      rw [tally, hsame, Function.update_eq_self]

theorem counts_append (c : κ → Nat) (u w : List (Delim κ)) :
    counts c (u ++ w) = counts (counts c u) w := List.foldl_append

theorem keep_append (c : κ → Nat) (u w : List (Delim κ)) :
    keep c (u ++ w) = keep c u ++ keep (counts c u) w := by
  induction u generalizing c with
  | nil => rfl
  | cons d u ih =>
      have htail : counts c (d :: u) = counts (tally c d) u := rfl
      rw [List.cons_append, keep, keep, ih, htail]
      by_cases hidle : idle c d = true
      · rw [if_pos hidle, if_pos hidle]
      · rw [if_neg hidle, if_neg hidle, List.cons_append]

/-- Closers that close nothing do not count. -/
theorem counts_keep (c : κ → Nat) (w : List (Delim κ)) : counts c (keep c w) = counts c w := by
  induction w generalizing c with
  | nil => rfl
  | cons d w ih =>
      have htail : counts c (d :: w) = counts (tally c d) w := rfl
      rw [keep, htail]
      by_cases hidle : idle c d = true
      · rw [if_pos hidle, tally_of_idle hidle]
        exact ih c
      · rw [if_neg hidle]
        exact ih (tally c d)

theorem Nested.append {u v : List (Delim κ)} (hu : Nested u) (hv : Nested v) : Nested (u ++ v) := by
  rw [nested_iff_scan, hu.scan_append]
  exact (nested_iff_scan v).mp hv

/-- What is nested leaves the counters as they are. -/
theorem Nested.counts_eq {u : List (Delim κ)} (h : Nested u) (c : κ → Nat) : counts c u = c := by
  induction h generalizing c with
  | nil => rfl
  | @wrap k u v _ _ ihu ihv =>
      have hinner : counts c (opener k :: (u ++ closer k :: v)) =
          counts (tally (counts (tally c (opener k)) u) (closer k)) v := by
        rw [← List.cons_append, counts_append]
        rfl
      have hclose : tally (tally c (opener k)) (closer k) = c := by simp [tally]
      rw [hinner, ihu, hclose, ihv]

/-- How many delimiters are open. -/
def level (w : List (Delim Unit)) : Nat := counts (fun _ => 0) w ()

@[simp]
theorem level_opener (w : List (Delim Unit)) : level (w ++ [opener ()]) = level w + 1 := by
  simp [level, counts, tally]

@[simp]
theorem level_closer (w : List (Delim Unit)) : level (w ++ [closer ()]) = level w - 1 := by
  simp [level, counts, tally]

theorem level_of_nested (pre : List (Delim Unit)) {u : List (Delim Unit)} (h : Nested u) :
    level (pre ++ u) = level pre := by
  rw [level, counts_append, h.counts_eq, level]

/-- Where a delimiter is open, the innermost one has only pairs behind it. -/
theorem exists_innermost (w : List (Delim Unit)) (h : 0 < level w) :
    ∃ pre u, w = pre ++ [opener ()] ++ u ∧ Nested u := by
  induction hn : w.length using Nat.strongRecOn generalizing w with
  | ind n ih =>
      subst hn
      obtain rfl | ⟨w', d, rfl⟩ := List.eq_nil_or_concat w
      · exact absurd h (Nat.lt_irrefl 0)
      rw [List.concat_eq_append] at h ih ⊢
      cases d with
      | opener k => exact ⟨w', [], (List.append_nil _).symm, .nil⟩
      | closer k =>
          have hlen : (w' ++ [closer k]).length = w'.length + 1 := List.length_append
          rw [level_closer] at h
          obtain ⟨pre, u, rfl, hu⟩ := ih w'.length (by omega) w' (by omega) rfl
          rw [level_of_nested _ hu, level_opener] at h
          -- The closer takes the innermost delimiter, so the one before it is open still.
          simp only [List.length_append] at hlen ih
          obtain ⟨pre', u', rfl, hu'⟩ := ih pre.length (by omega) pre (by omega) rfl
          refine ⟨pre', u' ++ opener () :: (u ++ closer () :: []), by simp, ?_⟩
          exact hu'.append (.wrap hu .nil)

/-- The delimiters open after a text, the innermost first, when closers are passed over whose
kind has no open delimiter. -/
def scanOpen : List κ → List (Delim κ) → Option (List κ)
  | st, [] => some st
  | st, opener k :: w => scanOpen (k :: st) w
  | [], closer _ :: w => scanOpen [] w
  | j :: st, closer k :: w =>
      if j = k then scanOpen st w else if k ∈ st then none else scanOpen (j :: st) w

/-- The counters of a stack. -/
def sizes (st : List κ) (k : κ) : Nat := st.count k

theorem sizes_cons (st : List κ) (k : κ) :
    sizes (k :: st) = Function.update (sizes st) k (sizes st k + 1) := by
  funext j
  by_cases hj : j = k
  · subst hj
    simp [sizes]
  · rw [Function.update_of_ne hj]
    exact List.count_cons_of_ne (Ne.symm hj)

theorem tally_closer_cons (st : List κ) (k : κ) :
    tally (sizes (k :: st)) (closer k) = sizes st := by
  rw [tally, sizes_cons]
  simp

theorem idle_closer_iff (st : List κ) (k : κ) : idle (sizes st) (closer k) = true ↔ k ∉ st := by
  simp [idle, sizes, List.count_eq_zero]

/-- The text a reader with counters leaves is read as one that passes over closers. -/
theorem scan_keep (st : List κ) (w : List (Delim κ)) :
    scan st (keep (sizes st) w) = scanOpen st w := by
  induction w generalizing st with
  | nil => cases st <;> rfl
  | cons d w ih =>
      cases d with
      | opener k =>
          have hnext : tally (sizes st) (opener k) = sizes (k :: st) := (sizes_cons st k).symm
          have hkeep : idle (sizes st) (opener k) ≠ true := Bool.false_ne_true
          rw [keep, if_neg hkeep, hnext]
          cases st <;> exact ih (k :: _)
      | closer k =>
          rw [keep]
          by_cases hmem : k ∈ st
          · rw [if_neg (fun h => (idle_closer_iff st k).mp h hmem)]
            cases st with
            | nil => cases hmem
            | cons j st =>
                by_cases hjk : j = k
                · subst hjk
                  rw [scan, if_pos rfl, scanOpen, if_pos rfl, tally_closer_cons]
                  exact ih st
                · have htail : k ∈ st := (List.mem_cons.mp hmem).resolve_left (Ne.symm hjk)
                  rw [scan, if_neg hjk, scanOpen, if_neg hjk, if_pos htail]
          · have hidle := (idle_closer_iff st k).mpr hmem
            rw [if_pos hidle, tally_of_idle hidle, ih]
            cases st with
            | nil => rfl
            | cons j st =>
                obtain ⟨hkj, htail⟩ := not_or.mp fun h => hmem (List.mem_cons.mpr h)
                rw [scanOpen, if_neg (Ne.symm hkj), if_neg htail]

/-- The counters agree with the stack as long as the stack fits. -/
theorem counts_of_scanOpen {st st' : List κ} {w : List (Delim κ)} (h : scanOpen st w = some st') :
    counts (sizes st) w = sizes st' := by
  induction w generalizing st with
  | nil =>
      have hst : st = st' := by cases st <;> exact Option.some.inj h
      exact congrArg sizes hst
  | cons d w ih =>
      have hstep : counts (sizes st) (d :: w) = counts (tally (sizes st) d) w := rfl
      rw [hstep]
      cases d with
      | opener k =>
          have hnext : tally (sizes st) (opener k) = sizes (k :: st) := (sizes_cons st k).symm
          rw [hnext]
          cases st <;> exact ih h
      | closer k =>
          cases st with
          | nil => exact (congrArg (counts · w) (tally_of_idle rfl)).trans (ih h)
          | cons j st =>
              by_cases hjk : j = k
              · subst hjk
                rw [scanOpen, if_pos rfl] at h
                rw [tally_closer_cons]
                exact ih h
              · rw [scanOpen, if_neg hjk] at h
                by_cases hmem : k ∈ st
                · rw [if_pos hmem] at h
                  cases h
                · rw [if_neg hmem] at h
                  have hidle := (idle_closer_iff (j :: st) k).mpr (by simp [Ne.symm hjk, hmem])
                  rw [tally_of_idle hidle]
                  exact ih h

/-- What is left by the counters is closed by a list of closers exactly if the stack holds the
delimiters they close. -/
theorem nested_keep_iff (w : List (Delim κ)) (ks : List κ) :
    Nested (keep (fun _ => 0) w ++ ks.map closer) ↔ scanOpen [] w = some ks := by
  have hzero : (fun _ : κ => 0) = sizes [] := rfl
  rw [nested_iff_scan, scan_append, hzero, scan_keep]
  cases scanOpen [] w with
  | none => simp
  | some st => simpa using scan_closers st ks

end Kura.Base
