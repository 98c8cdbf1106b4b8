import Kura.Engine.ImageRepair
import Kura.Engine.TextRepair

/-!
# A plain library

Reading and writing of objects without references, as far as the filter needs
it, and the proof that texts it has written are read back. Strings stand for
themselves and compression does nothing.

Tokens are read from the last to the first. A closing bracket starts a list of
objects, an opening bracket makes an object of the list and puts it in front
of the list outside. What is no part of an object is skipped.
-/

namespace Kura.Engine

namespace PlainPdf

/-- The text of a string. -/
def hexText (v : Bytes) : Bytes := 0x3C :: (v.flatMap hexOf ++ [0x3E])

mutual

/-- The tokens of an object. -/
def unparse : Obj → List Token
  | .null => [.plain .null (lit "null")]
  | .bool b => [.plain .bool (lit (if b then "true" else "false"))]
  | .int n => [.plain .integer (toString10 n)]
  | .real text => [.plain .real text]
  | .string v => [⟨.string, v, hexText v⟩]
  | .name n => [.plain .name n]
  | .array items => .plain .arrayOpen (lit "[") :: itemTokens items
  | .dict entries => .plain .dictOpen (lit "<<") :: memberTokens entries

/-- The tokens of the items of an array, with the bracket that closes it. -/
def itemTokens : List Obj → List Token
  | [] => [.plain .arrayClose (lit "]")]
  | o :: items => unparse o ++ itemTokens items

/-- The tokens of the entries of a dictionary, with the bracket that closes it. -/
def memberTokens : List (Bytes × Obj) → List Token
  | [] => [.plain .dictClose (lit ">>")]
  | (k, v) :: entries => .plain .name k :: (unparse v ++ memberTokens entries)

end

/-- The value of an integer token. -/
def readInt : Bytes → Int
  | 0x2D :: ds => -digitsValue ds
  | ds => digitsValue ds

/-- Names and the objects after them. -/
def pairs : List Obj → List (Bytes × Obj)
  | .name k :: v :: rest => (k, v) :: pairs rest
  | _ => []

/-- Puts an object in front of the innermost list. -/
def push (o : Obj) : List (List Obj) → List (List Obj)
  | [] => []
  | f :: fs => (o :: f) :: fs

/-- Reads a token that stands before what has been read. -/
def readToken (t : Token) (fs : List (List Obj)) : List (List Obj) :=
  match t.type with
  | .null => push .null fs
  | .bool => push (.bool (t.value = lit "true")) fs
  | .integer => push (.int (readInt t.value)) fs
  | .real => push (.real t.value) fs
  | .string => push (.string t.value) fs
  | .name => push (.name t.value) fs
  | .arrayClose | .dictClose => [] :: fs
  | .arrayOpen => push (.array (fs.headD [])) fs.tail
  | .dictOpen => push (.dict (pairs (fs.headD []))) fs.tail
  | _ => fs

/-- Reads the entries of a dictionary. -/
def parse (ts : List Token) : Option Obj :=
  some (.dict (pairs ((ts.foldr readToken [[]]).headD [])))

theorem readInt_of_digits {ds : Bytes} (h : 0x2D ∉ ds) : readInt ds = digitsValue ds := by
  rw [readInt.eq_def]
  split
  · rename_i ds'
    exact absurd List.mem_cons_self h
  · rfl

theorem minus_notMem_decimal (n : Nat) : 0x2D ∉ decimal n := by
  intro hmem
  exact absurd (isDigit_of_mem_decimal hmem) (by decide)

theorem readInt_toString10 (n : Int) : readInt (toString10 n) = n := by
  rw [toString10]
  by_cases h : n < 0
  · rw [if_pos h]
    calc readInt ([0x2D] ++ decimal n.natAbs)
        = -(digitsValue (decimal n.natAbs) : Int) := rfl
      _ = -(n.natAbs : Int) := by rw [digitsValue_decimal]
      _ = n := by omega
  · rw [if_neg h, List.nil_append, readInt_of_digits (minus_notMem_decimal _),
      digitsValue_decimal]
    omega

theorem pairs_flatMap (entries : List (Bytes × Obj)) :
    pairs (entries.flatMap fun e => [.name e.1, e.2]) = entries := by
  induction entries with
  | nil => rfl
  | cons e entries ih =>
      rw [List.flatMap_cons, List.cons_append, List.cons_append, List.nil_append, pairs, ih]

mutual

/-- An object is read in front of what follows it. -/
theorem foldr_unparse (o : Obj) (f : List Obj) (fs : List (List Obj)) :
    (unparse o).foldr readToken (f :: fs) = (o :: f) :: fs := by
  match o with
  | .null => rw [unparse, List.foldr_cons, List.foldr_nil, readToken]; rfl
  | .bool b =>
      rw [unparse, List.foldr_cons, List.foldr_nil, readToken]
      cases b with
      | true => rfl
      | false => rfl
  | .int n =>
      rw [unparse, List.foldr_cons, List.foldr_nil, readToken]
      simp only [Token.plain, readInt_toString10, push]
  | .real text => rw [unparse, List.foldr_cons, List.foldr_nil, readToken]; rfl
  | .string v => rw [unparse, List.foldr_cons, List.foldr_nil, readToken]; rfl
  | .name n => rw [unparse, List.foldr_cons, List.foldr_nil, readToken]; rfl
  | .array items =>
      rw [unparse, List.foldr_cons, foldr_itemTokens items, readToken]
      rfl
  | .dict entries =>
      rw [unparse, List.foldr_cons, foldr_memberTokens entries, readToken]
      simp only [Token.plain, List.headD_cons, List.tail_cons, pairs_flatMap, push]

theorem foldr_itemTokens (items : List Obj) (fs : List (List Obj)) :
    (itemTokens items).foldr readToken fs = items :: fs := by
  match items with
  | [] => rw [itemTokens, List.foldr_cons, List.foldr_nil, readToken]; rfl
  | o :: items => rw [itemTokens, List.foldr_append, foldr_itemTokens items, foldr_unparse o]

theorem foldr_memberTokens (entries : List (Bytes × Obj)) (fs : List (List Obj)) :
    (memberTokens entries).foldr readToken fs =
      (entries.flatMap fun e => [.name e.1, e.2]) :: fs := by
  match entries with
  | [] => rw [memberTokens, List.foldr_cons, List.foldr_nil, readToken]; rfl
  | (k, v) :: entries =>
      rw [memberTokens, List.foldr_cons, List.foldr_append, foldr_memberTokens entries,
        foldr_unparse v, readToken]
      rfl

end

theorem foldr_entries (ks : List Bytes) (value : Bytes → Obj) (f : List Obj) :
    (ks.flatMap fun k => [Token.blank, .plain .name k, .blank] ++ unparse (value k)).foldr readToken
      [f] = [(ks.flatMap fun k => [.name k, value k]) ++ f] := by
  induction ks with
  | nil => rfl
  | cons k ks ih =>
      rw [List.flatMap_cons, List.foldr_append, ih, List.foldr_append, foldr_unparse]
      simp [readToken, Token.blank, Token.plain, push]

theorem getKey_map (ks : List Bytes) (value : Bytes → Obj) (k : Bytes) :
    Dict.getKey (ks.map fun k => (k, value k)) k = if k ∈ ks then value k else .null := by
  induction ks with
  | nil => rfl
  | cons j ks ih =>
      rw [List.map_cons, Dict.getKey_cons, ih]
      by_cases h : k = j
      · simp [h]
      · simp [h]

/-- A key that is not listed has no value. -/
theorem getKey_of_notMem_getKeys {d : Dict} {k : Bytes} (h : k ∉ d.getKeys) :
    d.getKey k = .null := by
  have hout : ∀ {d : Dict}, k ∉ d.map Prod.fst → d.getKey k = .null := by
    intro d hk
    induction d with
    | nil => rfl
    | cons e d ih =>
        rw [List.map_cons, List.mem_cons, not_or] at hk
        rw [Dict.getKey_cons, if_neg hk.1]
        exact ih hk.2
  by_cases hmem : k ∈ d.map Prod.fst
  · have hnull : (d.getKey k).isNull = true := by
      by_contra hvalue
      exact h (List.mem_filter.mpr ⟨hmem, by simpa using hvalue⟩)
    cases hget : d.getKey k with
    | null => rfl
    | _ =>
        rw [hget] at hnull
        cases hnull
  · exact hout hmem

/-- The entries of a dictionary are read back. -/
theorem getKey_parsed (d : Dict) (k : Bytes) :
    Dict.getKey (d.getKeys.map fun k => (k, d.getKey k)) k = d.getKey k := by
  rw [getKey_map]
  by_cases hmem : k ∈ d.getKeys
  · rw [if_pos hmem]
  · rw [if_neg hmem, getKey_of_notMem_getKeys hmem]

/-- The functions of the plain library. -/
def library : Qpdf where
  parse := parse
  unparse := unparse
  unparseString := hexText
  unparseName := id
  getUTF8Value := id
  newUnicodeString := id
  flateCompress := id

theorem parse_entries (d : Dict) :
    parse (entryTokens library d ++ [.blank, .newline]) =
      some (.dict (d.getKeys.map fun k => (k, d.getKey k))) := by
  have hblank : [Token.blank, .newline].foldr readToken [[]] = [[]] := rfl
  have hflat : (d.getKeys.flatMap fun k => [Obj.name k, d.getKey k]) =
      (d.getKeys.map fun k => (k, d.getKey k)).flatMap fun e => [.name e.1, e.2] := by
    rw [List.flatMap_map]
  have hentries : entryTokens library d =
      d.getKeys.flatMap fun k => [Token.blank, .plain .name k, .blank] ++ unparse (d.getKey k) :=
        rfl
  rw [parse, List.foldr_append, hblank, hentries, foldr_entries, hflat, List.append_nil,
    List.headD_cons, pairs_flatMap]

theorem parse_blank (ts : List Token) :
    parse (.blank :: ts ++ [.blank, .newline]) = parse ts := by
  have hblank : ∀ fs, readToken .blank fs = fs ∧ readToken .newline fs = fs := by
    intro fs
    exact ⟨rfl, rfl⟩
  rw [parse, List.cons_append, List.foldr_cons, (hblank _).1, List.foldr_append, List.foldr_cons,
    List.foldr_cons, List.foldr_nil, (hblank _).2, (hblank _).1, parse]

mutual

/-- Objects are written without operators and images. -/
theorem type_of_mem_unparse (o : Obj) :
    ∀ t ∈ unparse o, t.type ≠ .word ∧ t.type ≠ .inlineImage := by
  match o with
  | .null => simp [unparse, Token.plain]
  | .bool b => simp [unparse, Token.plain]
  | .int n => simp [unparse, Token.plain]
  | .real text => simp [unparse, Token.plain]
  | .string v => simp [unparse]
  | .name n => simp [unparse, Token.plain]
  | .array items =>
      rw [unparse, List.forall_mem_cons]
      exact ⟨by simp [Token.plain], type_of_mem_itemTokens items⟩
  | .dict entries =>
      rw [unparse, List.forall_mem_cons]
      exact ⟨by simp [Token.plain], type_of_mem_memberTokens entries⟩

theorem type_of_mem_itemTokens (items : List Obj) :
    ∀ t ∈ itemTokens items, t.type ≠ .word ∧ t.type ≠ .inlineImage := by
  match items with
  | [] => simp [itemTokens, Token.plain]
  | o :: items =>
      rw [itemTokens, List.forall_mem_append]
      exact ⟨type_of_mem_unparse o, type_of_mem_itemTokens items⟩

theorem type_of_mem_memberTokens (entries : List (Bytes × Obj)) :
    ∀ t ∈ memberTokens entries, t.type ≠ .word ∧ t.type ≠ .inlineImage := by
  match entries with
  | [] => simp [memberTokens, Token.plain]
  | (k, v) :: entries =>
      rw [memberTokens, List.forall_mem_cons, List.forall_mem_append]
      exact ⟨by simp [Token.plain], type_of_mem_unparse v, type_of_mem_memberTokens entries⟩

end

/-- A hex text that the writer made has no fault. -/
theorem hexFaults_hexText (v : Bytes) : hexFaults (hexText v) = 0 := by
  have hdigit : ∀ n < 16, isXDigit (hexDigit n) = true := by decide
  apply hexFaults_eq_zero
  · intro c hc
    obtain ⟨b, -, hb⟩ := List.mem_flatMap.mp hc
    have hlt := b.toNat_lt
    simp only [hexOf, List.mem_cons, List.not_mem_nil, or_false] at hb
    obtain rfl | rfl := hb
    · exact hdigit _ (by omega)
    · exact hdigit _ (by omega)
  · have hlen : (v.flatMap hexOf).length = 2 * v.length := by
      induction v with
      | nil => rfl
      | cons b v ih =>
          rw [List.flatMap_cons, List.length_append, ih, List.length_cons, hexOf]
          simp only [List.length_cons, List.length_nil]
          omega
    omega

/-- The plain library keeps what is expected of qpdf. -/
theorem library_lawful : library.Lawful where
  parse_blank := parse_blank
  parse_entries := by
    intro d
    refine ⟨_, parse_entries d, ?_⟩
    intro k
    rw [getKey_parsed]
    exact ⟨rfl, rfl, rfl, rfl⟩
  unparse_plain := by
    intro o t ht
    obtain ⟨hword, himage⟩ := type_of_mem_unparse o t ht
    refine ⟨?_, ?_, himage⟩
    · simp [Token.isWord, hword]
    · simp [Token.isWord, hword]
  hexFaults_unparseString := hexFaults_hexText
  getUTF8Value_newUnicodeString := by
    intro u _
    rfl

end PlainPdf

end Kura.Engine
