import Kura.Engine.CMapEnds

/-!
# Codes of composite fonts in strings

Two loops cut the strings of a composite font into codes by the ranges of its
character map: one of `GlyphCleanFilter`, which removes the codes of missing
glyphs, and one of `collectFontUse`, which collects the codes that are used.
-/

namespace Kura.Engine.CMap

open Base (assign)

/-- The ranges of a character map that is used. -/
structure Codespace where
  spaces : List CodespaceRange
  ne_nil : spaces ≠ []
  sized : ∀ sp ∈ spaces, 1 ≤ sp.bytes ∧ sp.bytes ≤ 4

/-- The code that bytes are read as. -/
def codeValue (w : Bytes) : Code := w.foldl (fun c b => c <<< 8 ||| BitVec.ofNat 32 b.toNat) 0

/-- Tests whether a code of some bytes is in a range, by its number. -/
def CodespaceRange.holds (sp : CodespaceRange) (w : Bytes) : Bool :=
  sp.bytes = w.length && sp.lo ≤ codeValue w && codeValue w ≤ sp.hi

/-- One code: how many bytes it has, and its number. -/
structure Piece where
  len : Nat
  code : Code
  deriving DecidableEq

namespace Codespace

variable (cs : Codespace)

def front : CodespaceRange := cs.spaces.head cs.ne_nil

/-- Whether some bytes are a code of one of the ranges, by its number. -/
def InRange (w : Bytes) : Prop := ∃ sp ∈ cs.spaces, sp.holds w

/-- The bytes of the first code at a place that is in a range. -/
def matchLen (v : Bytes) : Option Nat :=
  [1, 2, 3, 4].find? fun nb => nb ≤ v.length && cs.spaces.any (·.holds (v.take nb))

/-- The code that the filter cuts off at a place. -/
def cleanPiece (v : Bytes) : Piece :=
  match cs.matchLen v with
  | some nb => ⟨nb, codeValue (v.take nb)⟩
  | none => ⟨min cs.front.bytes v.length, codeValue (v.take cs.front.bytes)⟩

theorem front_sized : 1 ≤ cs.front.bytes ∧ cs.front.bytes ≤ 4 :=
  cs.sized _ (List.head_mem cs.ne_nil)

theorem matchLen_bounds {v : Bytes} {nb : Nat} (h : cs.matchLen v = some nb) :
    1 ≤ nb ∧ nb ≤ 4 ∧ nb ≤ v.length := by
  have hmem := List.mem_of_find?_eq_some h
  have hfits := List.find?_some h
  rw [Bool.and_eq_true, decide_eq_true_eq] at hfits
  have hbounds : ∀ n ∈ [1, 2, 3, 4], 1 ≤ n ∧ n ≤ 4 := by decide
  exact ⟨(hbounds nb hmem).1, (hbounds nb hmem).2, hfits.1⟩

theorem cleanPiece_len {v : Bytes} (h : v ≠ []) :
    1 ≤ (cs.cleanPiece v).len ∧ (cs.cleanPiece v).len ≤ v.length := by
  have hlen := List.length_pos_iff.mpr h
  rw [cleanPiece]
  split
  · rename_i nb hnb
    obtain ⟨hpos, -, hle⟩ := cs.matchLen_bounds hnb
    exact ⟨hpos, hle⟩
  · exact ⟨le_min cs.front_sized.1 hlen, min_le_right _ _⟩

/-- The places of a string at which the filter cuts a code off. -/
def cuts (v : Bytes) : List Bytes :=
  if _h : v = [] then [] else v :: cuts (v.drop (cs.cleanPiece v).len)
  termination_by v.length
  decreasing_by
    have hlen := cs.cleanPiece_len _h
    rw [List.length_drop]
    omega

/-- The codes that the filter finds in a string. -/
def cleanPieces (v : Bytes) : List Piece := (cs.cuts v).map cs.cleanPiece

/-- The bytes of the next code. -/
def useLen (v : Bytes) : Nat := (cs.matchLen v).getD cs.front.bytes

theorem useLen_pos (v : Bytes) : 1 ≤ cs.useLen v := by
  rw [useLen]
  cases h : cs.matchLen v with
  | none => exact cs.front_sized.1
  | some nb => exact (cs.matchLen_bounds h).1

/-- The codes that `collectFontUse` finds in a string, and whether the last one is incomplete. -/
def usePieces (v : Bytes) : List Piece × Bool :=
  if _h : v = [] then ([], false)
  else if v.length < cs.useLen v then ([], true)
  else
    let rest := usePieces (v.drop (cs.useLen v))
    (⟨cs.useLen v, codeValue (v.take (cs.useLen v))⟩ :: rest.1, rest.2)
  termination_by v.length
  decreasing_by
    have := List.length_pos_iff.mpr _h
    have hpos := cs.useLen_pos v
    rw [List.length_drop]
    omega

end Codespace

/-- A hex string is a code of one to four bytes. -/
theorem hexAt_nbytes {s : Bytes} {x : Hex} (h : hexAt s = some x) :
    1 ≤ x.nbytes ∧ x.nbytes ≤ 4 := by
  rw [hexAt] at h
  split at h
  · cases h
  · split at h
    · cases h
    · rename_i digits rest hread
      split at h
      · cases h
      · rename_i hdigits
        cases h
        push Not at hdigits
        have hpos := List.length_pos_iff.mpr hdigits.1
        have hle := hdigits.2
        constructor
        · change 1 ≤ (digits.length + 1) / 2
          omega
        · change (digits.length + 1) / 2 ≤ 4
          omega

theorem codespaceRanges_sized (stop : Nat) (s : Bytes) :
    ∀ sp ∈ codespaceRanges stop s, 1 ≤ sp.bytes ∧ sp.bytes ≤ 4 := by
  fun_induction codespaceRanges stop s with
  | case5 s hstop lo hlo hbehindLo hi hhi hbehindHi ih =>
      intro sp hsp
      obtain rfl | hsp := List.mem_cons.mp hsp
      · obtain ⟨hlo₁, hlo₄⟩ := hexAt_nbytes hlo
        obtain ⟨-, hhi₄⟩ := hexAt_nbytes hhi
        exact ⟨le_max_of_le_left hlo₁, max_le hlo₄ hhi₄⟩
      · exact ih sp hsp
  | case1 | case2 | case3 | case4 | case6 => exact fun sp hsp => absurd hsp List.not_mem_nil

theorem spaces_sized {rounds : Nat} {text : Bytes} {body : CmapBody}
    (h : parseCmapBody rounds text = some body) :
    ∀ sp ∈ body.spaces, 1 ≤ sp.bytes ∧ sp.bytes ≤ 4 := by
  rw [parseCmapBody, Option.bind_eq_bind, Option.bind_eq_some_iff] at h
  obtain ⟨code2cid, -, hbody⟩ := h
  cases hbody
  intro sp hsp
  obtain ⟨sec, -, hsec⟩ := List.mem_flatMap.mp hsp
  exact codespaceRanges_sized _ _ sp hsec

theorem spaces_ne_nil {rounds : Nat} {text : Bytes} {body : CmapBody}
    (h : parseCmapBody rounds text = some body) (hok : body.ok) : body.spaces ≠ [] := by
  rw [parseCmapBody, Option.bind_eq_bind, Option.bind_eq_some_iff] at h
  obtain ⟨code2cid, -, hbody⟩ := h
  cases hbody
  intro hnil
  rw [Bool.and_eq_true, Bool.not_eq_true', List.isEmpty_eq_false_iff] at hok
  exact hok.1 hnil

/-- The ranges of a text that was read. -/
def codespaceOf {rounds : Nat} {text : Bytes} {body : CmapBody}
    (h : parseCmapBody rounds text = some body) (hok : body.ok) : Codespace :=
  ⟨body.spaces, spaces_ne_nil h hok, spaces_sized h⟩

end Kura.Engine.CMap
