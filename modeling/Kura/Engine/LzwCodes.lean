import Kura.Base.Bits
import Kura.Engine.Content

/-!
# LZW codes that are written and read

The codes that an encoder may write for some data, and that the decoder gives
the data back for each of them.

An encoder may clear its table at any time and take any entry that starts the
data; the longest one is the usual choice. Its table has the entry of a code as
soon as the code is written, the last code included, while the decoder makes the
entry with the next code. The width of a code is that of the entries the encoder
has, so that it changes one entry before a code needs it.
-/

namespace Kura.Engine

open Kura.Base (toBits ofBits byteBits length_byteBits length_toBits getElem?_byteBits
  ofBits_take_succ ofBits_toBits)

/-- The number of bits of a code, by the number of entries. -/
def codeWidth (entries : Nat) : Nat :=
  if entries < 512 then 9 else if entries < 1024 then 10 else if entries < 2048 then 11 else 12

/-- The table with one more entry, unless it is full. -/
def grown (table : List Bytes) (entry : Bytes) : List Bytes :=
  if table.length < 4096 then table ++ [entry] else table

/-- The bits that may be written for data, with a table: codes that clear the table, codes of
entries that start the data, and the code that ends it. -/
inductive Emits : List Bytes → Bytes → List Bool → Prop
  | clear {table : List Bytes} {data : Bytes} {bits : List Bool} (next : Emits lzwReset data bits) :
      Emits table data (toBits (codeWidth table.length) 256 ++ bits)
  | entry {table : List Bytes} {w rest : Bytes} {bits : List Bool} {code : Nat}
      (hcode : table[code]? = some w) (hne : w ≠ [])
      (next : Emits (grown table (w ++ rest.take 1)) rest bits) :
      Emits table (w ++ rest) (toBits (codeWidth table.length) code ++ bits)
  | done {table : List Bytes} : Emits table [] (toBits (codeWidth table.length) 257)

/-- The next code is read from the bits at its place. -/
theorem lzwNext_eq {input : Bytes} {p w code : Nat} {bits : List Bool} (hw : 0 < w)
    (hcode : code < 2 ^ w) (h : (byteBits input).drop p = toBits w code ++ bits) :
    lzwNext input p w = some code := by
  have hlength : p + w ≤ 8 * input.length := by
    have hdrop := congrArg List.length h
    rw [List.length_drop, length_byteBits, List.length_append, length_toBits] at hdrop
    omega
  have hfold : ∀ m ≤ w, (List.range m).foldl (fun code b =>
      let p := p + b
      2 * code + (input.getD (p / 8) 0).toNat / 2 ^ (7 - p % 8) % 2) 0 =
        ofBits (((byteBits input).drop p).take m) := by
    intro m
    induction m with
    | zero => intro _; rfl
    | succ m ih =>
        intro hm
        have hbyte : (p + m) / 8 < input.length := by omega
        have hget : input[(p + m) / 8]? = some input[(p + m) / 8] := List.getElem?_eq_getElem hbyte
        have hbit : (byteBits input)[p + m]? =
            some (input[(p + m) / 8].toNat.testBit (7 - (p + m) % 8)) := by
          rw [getElem?_byteBits, hget]
          rfl
        rw [List.range_succ, List.foldl_append, ih (Nat.le_of_succ_le hm), ofBits_take_succ hbit,
          List.foldl_cons, List.foldl_nil, Nat.toNat_testBit]
        dsimp only
        rw [List.getD_eq_getElem?_getD, hget, Option.getD_some]
  rw [lzwNext, if_neg (by omega), hfold w le_rfl, h,
    List.take_left' (length_toBits w code), ofBits_toBits, Nat.mod_eq_of_lt hcode]

/-- The decoder while an encoder with some table has some data left: it has the same table behind
a clear code, and later one without the last entry. -/
structure Lagging (table : List Bytes) (rest : Bytes) (s : Lzw) : Prop where
  width : s.width = codeWidth table.length
  initial : lzwReset <+: table
  full : table.length ≤ 4096
  lag : (s.prev = [] ∧ s.table = lzwReset ∧ table = lzwReset) ∨
    (s.prev ≠ [] ∧ s.table ++ [s.prev ++ rest.take 1] = table) ∨
    (s.prev ≠ [] ∧ table.length = 4096 ∧ table <+: s.table)

variable {table : List Bytes} {w rest data : Bytes} {s : Lzw} {code : Nat}

theorem length_lzwReset : lzwReset.length = 258 := by
  rw [lzwReset, List.length_map, List.length_range]

theorem lzwReset_nil {code : Nat} (h : code = 256 ∨ code = 257) : lzwReset[code]? = some [] := by
  rcases h with rfl | rfl <;> rfl

/-- Behind a clear code the tables are the same. -/
theorem lagging_reset (rest : Bytes) (s : Lzw) :
    Lagging lzwReset rest { s with table := lzwReset, width := 9, prev := [] } := by
  refine ⟨?_, List.prefix_rfl, ?_, Or.inl ⟨rfl, rfl, rfl⟩⟩
  · rw [length_lzwReset]
    rfl
  · rw [length_lzwReset]
    omega

theorem lt_two_pow_codeWidth {n code : Nat} (hn : n ≤ 4096) (h : code < n) :
    code < 2 ^ codeWidth n := by
  rw [codeWidth]
  split_ifs <;> omega

theorem nine_le_codeWidth (n : Nat) : 9 ≤ codeWidth n := by
  rw [codeWidth]
  split_ifs <;> omega

namespace Lagging

theorem length_le (h : Lagging table rest s) : 258 ≤ table.length := by
  have hle := h.initial.length_le
  rwa [length_lzwReset] at hle

/-- A code of an entry that is not empty is none of the two special codes. -/
theorem code_ne (h : Lagging table rest s) (hcode : table[code]? = some w) (hne : w ≠ []) :
    code ≠ 256 ∧ code ≠ 257 := by
  have hspecial : ∀ k, k = 256 ∨ k = 257 → code ≠ k := by
    rintro k hk rfl
    obtain ⟨more, rfl⟩ := h.initial
    rw [List.getElem?_append_left (by rw [length_lzwReset]; omega), lzwReset_nil hk] at hcode
    exact hne (Option.some.inj hcode).symm
  exact ⟨hspecial 256 (Or.inl rfl), hspecial 257 (Or.inr rfl)⟩

/-- The decoder finds the entry of a code, also if it is the one that it has not made yet. -/
theorem entry?_eq (h : Lagging table (w ++ rest) s) (hcode : table[code]? = some w) (hne : w ≠ []) :
    s.entry? code = some w := by
  obtain ⟨hclear, hend⟩ := h.code_ne hcode hne
  have hlt : code < table.length := (List.getElem?_eq_some_iff.mp hcode).1
  have hin : ∀ {t : List Bytes}, t = s.table → code < t.length → t[code]? = some w →
      s.entry? code = some w := by
    rintro t rfl hlt hget
    rw [Lzw.entry?, if_pos ⟨hlt, by omega⟩, hget]
  rcases h.lag with ⟨-, htable, hreset⟩ | ⟨hprev, htable⟩ | ⟨-, -, hprefix⟩
  · exact hin (htable.trans hreset.symm).symm hlt hcode
  · rw [← htable, List.length_append, List.length_singleton] at hlt
    rcases Nat.lt_succ_iff_lt_or_eq.mp hlt with hless | hlast
    · refine hin rfl hless ?_
      rwa [← htable, List.getElem?_append_left hless] at hcode
    · -- the entry starts with the code before, and so does the data
      rw [← htable, hlast, List.getElem?_concat_length] at hcode
      have hw : s.prev ++ (w ++ rest).take 1 = w := Option.some.inj hcode
      have hfirst : (w ++ rest).take 1 = s.prev.take 1 := by
        obtain ⟨b, bs, hb⟩ := List.exists_cons_of_ne_nil hprev
        rw [← hw, hb]
        rfl
      rw [Lzw.entry?, if_neg (by omega), if_pos ⟨hlast, hprev⟩, ← hfirst, hw]
  · have hle := hprefix.length_le
    obtain ⟨more, hmore⟩ := hprefix
    refine hin rfl (by omega) ?_
    rw [← hmore, List.getElem?_append_left hlt]
    exact hcode

/-- The width that the decoder goes on with is the one of the grown table. -/
theorem width_grown {n : Nat} (hlow : 258 ≤ n) (hfull : n < 4096) :
    (if 2 ^ codeWidth n - 1 ≤ n ∧ codeWidth n < 12 then codeWidth n + 1 else codeWidth n) =
      codeWidth (n + 1) := by
  rw [codeWidth, codeWidth]
  split_ifs <;> omega

/-- A code takes both sides on. -/
theorem append (h : Lagging table (w ++ rest) s) (hne : w ≠ []) :
    Lagging (grown table (w ++ rest.take 1)) rest (s.append w) := by
  have hlow := h.length_le
  have hinitial : lzwReset <+: grown table (w ++ rest.take 1) := by
    rw [grown]
    split_ifs
    · exact h.initial.trans (List.prefix_append _ _)
    · exact h.initial
  have hfull : (grown table (w ++ rest.take 1)).length ≤ 4096 := by
    rw [grown]
    split_ifs with hroom
    · rw [List.length_append, List.length_singleton]
      omega
    · exact h.full
  have hfirst : (w ++ rest).take 1 = w.take 1 := by
    obtain ⟨b, bs, rfl⟩ := List.exists_cons_of_ne_nil hne
    rfl
  rcases h.lag with ⟨hprev, htable, hreset⟩ | ⟨hprev, htable⟩ | ⟨hprev, htop, hprefix⟩
  · -- the first code behind a clear code makes no entry
    have hdecoder : (s.append w).table = table := by
      rw [Lzw.append]
      simp only [hprev, ne_eq, not_true_eq_false, if_false]
      rw [htable, hreset]
    have hroom : table.length < 4096 := by
      rw [hreset, length_lzwReset]
      omega
    have hgrown : grown table (w ++ rest.take 1) = table ++ [w ++ rest.take 1] := if_pos hroom
    refine ⟨?_, hinitial, hfull, Or.inr (Or.inl ⟨hne, ?_⟩)⟩
    · rw [hgrown, List.length_append, List.length_singleton, ← width_grown hlow hroom, ← h.width]
      show (if 2 ^ s.width - 1 ≤ (s.append w).table.length ∧ s.width < 12 then _ else _) = _
      rw [hdecoder]
    · rw [hdecoder, hgrown]
      rfl
  · have hdecoder : (s.append w).table = table := by
      rw [Lzw.append]
      simp only [ne_eq, hprev, not_false_eq_true, if_true]
      rw [← htable, hfirst]
    have hwidth : (s.append w).width =
        if 2 ^ s.width - 1 ≤ table.length ∧ s.width < 12 then s.width + 1 else s.width := by
      rw [← hdecoder]
      rfl
    rcases Nat.lt_or_ge table.length 4096 with hroom | hnone
    · have hgrown : grown table (w ++ rest.take 1) = table ++ [w ++ rest.take 1] := if_pos hroom
      refine ⟨?_, hinitial, hfull, Or.inr (Or.inl ⟨hne, ?_⟩)⟩
      · rw [hwidth, hgrown, List.length_append, List.length_singleton, ← width_grown hlow hroom,
          ← h.width]
      · rw [hdecoder, hgrown]
        rfl
    · have hgrown : grown table (w ++ rest.take 1) = table := if_neg (not_lt.mpr hnone)
      have htop : table.length = 4096 := le_antisymm h.full hnone
      have hwide : s.width = 12 := by
        rw [h.width, htop]
        rfl
      refine ⟨?_, hinitial, hfull, Or.inr (Or.inr ⟨hne, ?_, ?_⟩)⟩
      · rw [hwidth, hgrown, hwide, htop]
        rfl
      · rw [hgrown, htop]
      · rw [hgrown, hdecoder]
  · have hdecoder : table <+: (s.append w).table := by
      rw [Lzw.append]
      simp only [ne_eq, hprev, not_false_eq_true, if_true]
      exact hprefix.trans (List.prefix_append _ _)
    have hgrown : grown table (w ++ rest.take 1) = table := if_neg (by omega)
    have hwide : s.width = 12 := by
      rw [h.width, htop]
      rfl
    refine ⟨?_, hinitial, hfull, Or.inr (Or.inr ⟨hne, ?_, ?_⟩)⟩
    · rw [hgrown, htop]
      show (if _ ∧ s.width < 12 then _ else s.width) = _
      rw [hwide, if_neg fun hlt => absurd hlt.2 (by omega)]
      rfl
    · rw [hgrown, htop]
    · rw [hgrown]
      exact hdecoder

end Lagging

/-- The decoder gives back what is left of the data, whatever an encoder writes for it. -/
theorem lzwLoop_emits {input : Bytes} {bits pad : List Bool} (h : Emits table data bits) :
    ∀ (n : Nat) (s : Lzw), Lagging table data s →
      (byteBits input).drop s.bitpos = bits ++ pad → bits.length < 9 * n →
      s.out.length + data.length ≤ 100000000 → lzwLoop input n s = (s.out ++ data, true) := by
  have hread : ∀ {table : List Bytes} {data : Bytes} {s : Lzw} {code : Nat} {bits : List Bool},
      Lagging table data s → code < table.length →
      (byteBits input).drop s.bitpos = toBits (codeWidth table.length) code ++ bits →
      lzwNext input s.bitpos s.width = some code ∧
        (byteBits input).drop (s.bitpos + s.width) = bits := by
    intro table data s code bits hlag hcode hbits
    have hnine := nine_le_codeWidth table.length
    rw [hlag.width]
    refine ⟨lzwNext_eq (by omega) (lt_two_pow_codeWidth hlag.full hcode) hbits, ?_⟩
    rw [← List.drop_drop, hbits, List.drop_left' (length_toBits _ _)]
  have hfuel : ∀ {table : List Bytes} {code : Nat} {bits : List Bool} {n : Nat},
      (toBits (codeWidth table.length) code ++ bits).length < 9 * n →
      ∃ k, n = k + 1 ∧ bits.length < 9 * k := by
    intro table code bits n hlength
    have hnine := nine_le_codeWidth table.length
    rw [List.length_append, length_toBits] at hlength
    exact ⟨n - 1, by omega, by omega⟩
  induction h with
  | @clear table data bits next ih =>
      intro n s hlag hbits hlength hsize
      obtain ⟨k, rfl, hk⟩ := hfuel hlength
      rw [List.append_assoc] at hbits
      obtain ⟨hnext, hrest⟩ := hread hlag (by have := hlag.length_le; omega) hbits
      rw [lzwLoop, hnext]
      exact ih k _ (lagging_reset data { s with bitpos := s.bitpos + s.width }) hrest hk hsize
  | @entry table w rest bits code hcode hne next ih =>
      intro n s hlag hbits hlength hsize
      obtain ⟨k, rfl, hk⟩ := hfuel hlength
      rw [List.append_assoc] at hbits
      obtain ⟨hnext, hrest⟩ := hread hlag (List.getElem?_eq_some_iff.mp hcode).1 hbits
      obtain ⟨hclear, hend⟩ := hlag.code_ne hcode hne
      have hentry : Lzw.entry? { s with bitpos := s.bitpos + s.width } code = some w :=
        hlag.entry?_eq hcode hne
      rw [List.length_append] at hsize
      rw [lzwLoop, hnext]
      simp only [if_neg hclear, if_neg hend, hentry]
      rw [if_neg (by omega), ih k _ ?_ hrest hk ?_]
      · exact Prod.ext (List.append_assoc _ _ _) rfl
      · have happend := hlag.append hne
        exact ⟨happend.width, happend.initial, happend.full, happend.lag⟩
      · show (s.out ++ w).length + rest.length ≤ _
        rw [List.length_append]
        omega
  | @done table =>
      intro n s hlag hbits hlength _
      have hlength' : (toBits (codeWidth table.length) 257 ++ []).length < 9 * n := by
        rwa [List.append_nil]
      obtain ⟨k, rfl, -⟩ := hfuel hlength'
      obtain ⟨hnext, -⟩ := hread hlag (by have := hlag.length_le; omega) hbits
      rw [lzwLoop, hnext, List.append_nil]
      rfl

/-- Whatever an encoder may write for data within the limit, in whole bytes and with anything
behind the end, is decoded to the data. -/
theorem lzwDecode_emits {data input : Bytes} {bits pad : List Bool} (h : Emits lzwReset data bits)
    (hinput : byteBits input = bits ++ pad) (hsize : data.length < 100000000) :
    lzwDecode input = (data, true) := by
  have hlength := congrArg List.length hinput
  rw [length_byteBits, List.length_append] at hlength
  refine lzwLoop_emits h _ _ (lagging_reset data { table := lzwReset }) hinput ?_ ?_
  · omega
  · show 0 + data.length ≤ 100000000
    omega

/-- The data `aaa`, with a code for an entry that the decoder has not made yet. -/
theorem lzwDecode_emits_repeat :
    lzwDecode [0x80, 0x18, 0x60, 0x50, 0x10] = ([0x61, 0x61, 0x61], true) := by
  have hgrown : grown lzwReset [0x61, 0x61] = lzwReset ++ [[0x61, 0x61]] :=
    if_pos (by rw [length_lzwReset]; omega)
  have hentry : (grown lzwReset [0x61, 0x61])[258]? = some [0x61, 0x61] := by
    rw [hgrown, ← length_lzwReset]
    exact List.getElem?_concat_length
  have hlast := @Emits.entry _ [0x61, 0x61] [] _ 258 hentry (List.cons_ne_nil _ _) Emits.done
  have hfirst := @Emits.entry lzwReset [0x61] [0x61, 0x61] _ 0x61 rfl (List.cons_ne_nil _ _) hlast
  exact @lzwDecode_emits [0x61, 0x61, 0x61] _ _ (List.replicate 4 false) (Emits.clear hfirst)
    (by decide +kernel) (by decide)

end Kura.Engine
