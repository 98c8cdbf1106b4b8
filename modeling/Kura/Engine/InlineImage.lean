import Kura.Engine.Content

/-!
# Inline images

The part of the content filter that repairs the dictionary of an inline image
and its data. An image that cannot be repaired is written as it was read.

## Implementation notes

Objects, their texts and compression come from libraries, so the functions
used of them are fields of `Qpdf`. Texts are given as the tokens they consist
of. A dictionary is a list of entries ordered by key, as the map of the
library is.
-/

namespace Kura.Engine

/-- Objects without references. -/
inductive Obj where
  | null
  | bool (b : Bool)
  | int (n : Int)
  | real (text : Bytes)
  | string (value : Bytes)
  | name (n : Bytes)
  | array (items : List Obj)
  | dict (entries : List (Bytes × Obj))

namespace Obj

/-- Tests for the null object. -/
def isNull : Obj → Bool
  | .null => true
  | _ => false

/-- The value of a boolean. -/
def bool? : Obj → Option Bool
  | .bool b => some b
  | _ => none

/-- The text of a name. -/
def name? : Obj → Option Bytes
  | .name n => some n
  | _ => none

/-- The text of a name; empty for everything else. -/
def nameOf (o : Obj) : Bytes := o.name?.getD []

/-- The names a filter entry lists. -/
def filterNames : Obj → List Bytes
  | .name n => [n]
  | .array items => items.map nameOf
  | _ => []

end Obj

/-- Dictionaries. -/
abbrev Dict := List (Bytes × Obj)

namespace Dict

/-- The value of a key; null if there is none. -/
def getKey (d : Dict) (k : Bytes) : Obj := (d.lookup k).getD .null

/-- Removes a key. -/
def removeKey (d : Dict) (k : Bytes) : Dict := d.filter fun e => e.1 ≠ k

/-- Sets the value of a key. -/
def replaceKey (d : Dict) (k : Bytes) (v : Obj) : Dict :=
  (d.removeKey k).takeWhile (fun e => e.1 < k) ++ (k, v) ::
    (d.removeKey k).dropWhile (fun e => e.1 < k)

/-- The keys that have a value. -/
def getKeys (d : Dict) : List Bytes := (d.map Prod.fst).filter fun k => !(d.getKey k).isNull

theorem getKey_cons (e : Bytes × Obj) (d : Dict) (k : Bytes) :
    getKey (e :: d) k = if k = e.1 then e.2 else getKey d k := by
  obtain ⟨j, v⟩ := e
  by_cases h : k = j
  · simp [getKey, h]
  · have hne : (k == j) = false := by simpa using h
    simp [getKey, List.lookup_cons, h, hne]

theorem getKey_append_of_ne (a b : Dict) {k : Bytes} (h : ∀ e ∈ a, e.1 ≠ k) :
    getKey (a ++ b) k = getKey b k := by
  induction a with
  | nil => rfl
  | cons e a ih =>
      rw [List.cons_append, getKey_cons, if_neg (fun hk => h e (by simp) hk.symm)]
      exact ih fun e' he' => h e' (by simp [he'])

theorem getKey_removeKey (d : Dict) (j k : Bytes) :
    (d.removeKey j).getKey k = if k = j then .null else d.getKey k := by
  induction d with
  | nil => simp [removeKey, getKey]
  | cons e d ih =>
      have hcons :
          removeKey (e :: d) j = if e.1 ≠ j then e :: removeKey d j else removeKey d j := by
        by_cases he : e.1 = j <;> simp [removeKey, he]
      rw [hcons, getKey_cons]
      by_cases he : e.1 = j
      · rw [if_neg (by simpa using he), ih, he]
        by_cases hk : k = j <;> simp [hk]
      · rw [if_pos he, getKey_cons, ih]
        by_cases hk : k = e.1
        · rw [if_pos hk, if_pos hk, if_neg (fun h => he (hk ▸ h))]
        · rw [if_neg hk, if_neg hk]

/-- A replaced key has the new value, and every other key its own. -/
theorem getKey_replaceKey (d : Dict) (j k : Bytes) (v : Obj) :
    (d.replaceKey j v).getKey k = if k = j then v else d.getKey k := by
  have hrest := getKey_removeKey d j k
  rw [← List.takeWhile_append_dropWhile (p := fun e : Bytes × Obj => decide (e.1 < j))
    (l := d.removeKey j)] at hrest
  have hne : ∀ e ∈ (d.removeKey j).takeWhile (fun e => decide (e.1 < j)), e.1 ≠ j := by
    intro e he
    have hmem := List.mem_filter.mp (List.takeWhile_sublist _ |>.subset he)
    simpa using hmem.2
  rw [replaceKey]
  by_cases hk : k = j
  · subst hk
    rw [getKey_append_of_ne _ _ hne, getKey_cons, if_pos rfl, if_pos rfl]
  · rw [if_neg hk] at hrest ⊢
    rw [← hrest]
    generalize (d.removeKey j).takeWhile (fun e => decide (e.1 < j)) = a
    induction a with
    | nil => rw [List.nil_append, getKey_cons, if_neg hk, List.nil_append]
    | cons e a ih => rw [List.cons_append, getKey_cons, ih, List.cons_append, getKey_cons]

end Dict

/-- The functions of qpdf and zlib the filter calls. -/
structure Qpdf where
  /-- Reads a dictionary from the tokens between its brackets; none if that fails. -/
  parse : List Token → Option Obj
  /-- The text of an object, as tokens. -/
  unparse : Obj → List Token
  /-- The text of a string. -/
  unparseString : Bytes → Bytes
  /-- The text of a name. -/
  unparseName : Bytes → Bytes
  /-- The value of a string, as UTF-8. -/
  getUTF8Value : Bytes → Bytes
  /-- The value of the string made from UTF-8. -/
  newUnicodeString : Bytes → Bytes
  /-- Compresses; empty if that fails. -/
  flateCompress : Bytes → Bytes

namespace Qpdf

variable (q : Qpdf)

/-- The token of a string made from its value. -/
def stringToken (v : Bytes) : Token := ⟨.string, v, q.unparseString v⟩

/-- The token of a name made from its value. -/
def nameToken (v : Bytes) : Token := ⟨.name, v, q.unparseName v⟩

end Qpdf

/-- A dictionary that may have been changed, with the violations found in it. -/
structure Repair where
  dict : Dict
  violations : Nat := 0

/-- Replaces an intent that is none. -/
def Repair.intent (r : Repair) : Repair :=
  match (r.dict.getKey (lit "/Intent")).name? with
  | some n =>
      if n ∈ kValidRi then r
      else ⟨r.dict.replaceKey (lit "/Intent") (.name (lit "/RelativeColorimetric")),
        r.violations + 1⟩
  | none => r

/-- Turns off a flag. -/
def Repair.flag (k : Bytes) (r : Repair) : Repair :=
  if (r.dict.getKey k).bool? = some true then
    ⟨r.dict.replaceKey k (.bool false), r.violations + 1⟩
  else r

/-- The repairs before the filters are looked at. -/
def repairEntries (d : Dict) : Repair :=
  ((Repair.intent ⟨d, 0⟩).flag (lit "/I")).flag (lit "/Interpolate")

/-- The filters with the short names that stand for them. -/
def kToAbbrev : List (Bytes × Bytes) :=
  [("/AHx", "/AHx"), ("/ASCIIHexDecode", "/AHx"), ("/A85", "/A85"), ("/ASCII85Decode", "/A85"),
    ("/Fl", "/Fl"), ("/FlateDecode", "/Fl"), ("/RL", "/RL"), ("/RunLengthDecode", "/RL"),
    ("/CCF", "/CCF"), ("/CCITTFaxDecode", "/CCF"), ("/DCT", "/DCT"), ("/DCTDecode", "/DCT")].map
    fun e => (lit e.1, lit e.2)

/-- Tests whether the name of a filter speaks of LZW. -/
def isLzwName (n : Bytes) : Bool :=
  lit "lzw" <:+: n.map fun c => if 0x41 ≤ c && c ≤ 0x5A then c + 0x20 else c

/-- The filters of an image. -/
def Dict.filters (d : Dict) : List Bytes :=
  let f := d.getKey (lit "/F")
  (if f.isNull then d.getKey (lit "/Filter") else f).filterNames

/-- What the loop over the filters has found. -/
structure FilterScan where
  outNames : List Bytes := []
  filterChanged : Bool := false
  lzwSeen : Bool := false
  violations : Nat := 0
  /-- A filter that is not known ended the loop. -/
  unknown : Bool := false

/-- A filter is written with its short name. -/
def FilterScan.keep (s : FilterScan) (n short : Bytes) : FilterScan :=
  { s with
    outNames := s.outNames ++ [short]
    filterChanged := s.filterChanged || short ≠ n }

/-- A filter has to be replaced. -/
def FilterScan.sawLzw (s : FilterScan) : FilterScan :=
  { s with
    outNames := s.outNames ++ [lit "/LZW?"]
    filterChanged := true
    lzwSeen := true
    violations := s.violations + 1 }

/-- The loop over the filters. -/
def FilterScan.loop (s : FilterScan) : List Bytes → FilterScan
  | [] => s
  | n :: ns =>
      match kToAbbrev.lookup n with
      | some short => (s.keep n short).loop ns
      | none =>
          if isLzwName n then s.sawLzw.loop ns
          else { s with violations := s.violations + 1, unknown := true }

/-- The predictor of the decode parameters. -/
def Dict.predictor (d : Dict) : Int :=
  let dp := d.getKey (lit "/DP")
  match if dp.isNull then d.getKey (lit "/DecodeParms") else dp with
  | .dict parms =>
      match Dict.getKey parms (lit "/Predictor") with
      | .int n => n
      | _ => 1
  | _ => 1

/-- An image to be written. -/
structure ImageData where
  dict : Dict
  data : Bytes
  outNames : List Bytes

/-- Replaces LZW by Flate or by no filter; none if the image stays as it is. -/
def replaceLzw (q : Qpdf) (d : Dict) (names : List Bytes) (data : Bytes) : Option ImageData :=
  if names.length ≠ 1 then none
  else
    let (raw, ok) := lzwDecode data
    if !ok || raw.isEmpty then none
    else
      let mustStayFiltered := decide (1 < d.predictor)
      let packed := q.flateCompress raw
      let rest :=
        if mustStayFiltered then d else (d.removeKey (lit "/DP")).removeKey (lit "/DecodeParms")
      if !packed.isEmpty && (mustStayFiltered || packed.length < raw.length) then
        some ⟨rest, packed, [lit "/Fl"]⟩
      else if !mustStayFiltered then some ⟨rest, raw, []⟩
      else none

/-- Writes the filters into the dictionary. -/
def Dict.setFilters (d : Dict) : List Bytes → Dict
  | [] => d
  | [n] => d.replaceKey (lit "/F") (.name n)
  | ns => d.replaceKey (lit "/F") (.array (ns.map .name))

/-- The image with its filters in the dictionary and data that does not hold the end mark. -/
def ImageData.close (i : ImageData) : ImageData :=
  let bare := (((i.dict.removeKey (lit "/F")).removeKey (lit "/Filter")).removeKey
    (lit "/L")).removeKey (lit "/Length")
  let d := bare.setFilters i.outNames
  if containsInlineTerminator i.data then
    let names := lit "/AHx" :: i.outNames
    ⟨((d.removeKey (lit "/F")).removeKey (lit "/Filter")).setFilters names,
      i.data.flatMap hexOf ++ lit ">", names⟩
  else ⟨d, i.data, i.outNames⟩

/-- The tokens of an image from those of its entries and its data. -/
def imageTokens (entries : List Token) (data : Bytes) : List Token :=
  Token.op "BI" :: (entries ++
    [.blank, .op "ID", .newline, .plain .inlineImage (data ++ [0x0A]), .op "EI", .newline])

/-- The tokens of an image that ends before its data. -/
def cutImageTokens (entries : List Token) : List Token :=
  Token.op "BI" :: .blank :: (entries ++ [.blank, .op "EI", .newline])

/-- The tokens of the entries of a dictionary. -/
def entryTokens (q : Qpdf) (d : Dict) : List Token :=
  d.getKeys.flatMap fun k => [.blank, .plain .name k, .blank] ++ q.unparse (d.getKey k)

/-- What is made of an image. -/
structure ImageFix where
  violations : Nat := 0
  written : List Token
  fixed : Bool := false

/-- Repairs an image given by the tokens of its dictionary and its data. -/
def processInlineImage (q : Qpdf) (iiToks : List Token) (data : Bytes) : ImageFix :=
  let passthrough := imageTokens (.blank :: iiToks) data
  match q.parse iiToks with
  | some (.dict d) =>
      let r := repairEntries d
      let names := r.dict.filters
      let scan := FilterScan.loop {} names
      let violations := r.violations + scan.violations
      if scan.unknown then ⟨violations, passthrough, false⟩
      else
        let repacked :=
          if scan.lzwSeen then replaceLzw q r.dict names data
          else some ⟨r.dict, data, scan.outNames⟩
        match repacked with
        | none => ⟨violations, passthrough, false⟩
        | some i =>
            -- An entry is changed exactly where a violation is counted.
            if scan.filterChanged || 0 < r.violations || scan.lzwSeen then
              ⟨violations, imageTokens (entryTokens q i.close.dict) i.close.data, true⟩
            else ⟨violations, passthrough, false⟩
  | _ => ⟨0, passthrough, false⟩

end Kura.Engine
