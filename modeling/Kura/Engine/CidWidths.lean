import Kura.Engine.WidthRepair

/-!
# Widths of CIDs, written and read

The runs of `/W` are read by two readers: the one that compares the widths of
a font with its program, and the one that collects them for the drawing of
outlines. From what is written both assign every width once, in order.

A reader is told by the assignments that it makes, in their order; what it
stores is then the result of these assignments. The widths are integers, as
they are written.
-/

namespace Kura.Engine.FontWidths

/-- Assigns one width after the other. -/
def assign {α : Type} (value : ℚ → α) (d : Nat → α) (entries : List (Nat × ℚ)) : Nat → α :=
  entries.foldl (fun d e cid => if cid = e.1 then value e.2 else d cid) d

/-- The numbers of a list, for the CIDs from a start on that are below a bound. -/
def listEntries (bound : Nat) (start : ℤ) (items : List (Option ℚ)) : List (Nat × ℚ) :=
  items.zipIdx.filterMap fun p =>
    if 0 ≤ start + p.2 ∧ start + p.2 < bound then p.1.map fun w => ((start + p.2).toNat, w)
    else none

/-- One width for the CIDs from a first to a last one. -/
def rangeEntries (bound : Nat) (lo hi : ℤ) (w : ℚ) : List (Nat × ℚ) :=
  listEntries bound lo (List.replicate (hi + 1 - lo).toNat (some w))

/-- What the reader of `syncCidFontWidths` assigns. -/
def readEntries (n : Nat) : List WItem → List (Nat × ℚ)
  | .num a :: .list b :: rest => listEntries n (truncate a) b ++ readEntries n rest
  | .num a :: .num b :: .num v :: rest =>
      rangeEntries n (max (truncate a) 0) (min (truncate (min b 1000000000)) (n - 1)) v ++
        readEntries n rest
  | _ => []

/-- What `parseCidWidths` assigns; it steps over what is no entry. -/
def cidEntries : List WItem → List (Nat × ℚ)
  | .num a :: .list b :: rest => listEntries 65536 (truncate a) b ++ cidEntries rest
  | .num a :: .num b :: .num v :: rest =>
      (if truncate a ≤ truncate b ∧ truncate b - truncate a < 65536 then
        rangeEntries 65536 (truncate a) (truncate b) v
      else []) ++ cidEntries rest
  | [.num _] => []
  | _ :: rest => cidEntries rest
  | [] => []

/-- The widths that outlines are drawn with, as far as there are any. -/
def parseCidWidths (items : List WItem) : Nat → Option ℚ :=
  assign some (fun _ => none) (cidEntries items)

section Assign

variable {α : Type} {value : ℚ → α}

theorem assign_append (d : Nat → α) (front rest : List (Nat × ℚ)) :
    assign value d (front ++ rest) = assign value (assign value d front) rest :=
  List.foldl_append

theorem assign_apply_of_not_mem {cid : Nat} : ∀ (entries : List (Nat × ℚ)) (d : Nat → α),
    (∀ e ∈ entries, e.1 ≠ cid) → assign value d entries cid = d cid
  | [], _, _ => rfl
  | e :: rest, d, hnone => by
      have hrest := assign_apply_of_not_mem rest
        (fun cid => if cid = e.1 then value e.2 else d cid)
        fun e' he' => hnone e' (List.mem_cons_of_mem _ he')
      refine hrest.trans ?_
      exact if_neg (Ne.symm (hnone e List.mem_cons_self))

/-- An entry decides its key where all entries of the key agree. -/
theorem assign_apply_of_mem {cid : Nat} {w : ℚ} : ∀ (entries : List (Nat × ℚ)) (d : Nat → α),
    (cid, w) ∈ entries → (∀ e ∈ entries, e.1 = cid → e.2 = w) →
      assign value d entries cid = value w
  | e :: rest, d, hmem, hsame => by
      by_cases hlater : ∃ e' ∈ rest, e'.1 = cid
      · obtain ⟨e', he', hcid⟩ := hlater
        have hw := hsame e' (List.mem_cons_of_mem _ he') hcid
        have heq : e' = (cid, w) := Prod.ext hcid hw
        exact assign_apply_of_mem rest _ (heq ▸ he')
          fun e'' he'' => hsame e'' (List.mem_cons_of_mem _ he'')
      · have hnone : ∀ e' ∈ rest, e'.1 ≠ cid := fun e' he' hcid => hlater ⟨e', he', hcid⟩
        have hhead : e = (cid, w) := by
          obtain h | h := List.mem_cons.mp hmem
          · exact h.symm
          · exact absurd rfl (hnone _ h)
        refine (assign_apply_of_not_mem rest _ hnone).trans ?_
        subst hhead
        exact if_pos rfl

end Assign

/-- The entries of a list of widths are its numbers, in order from the start. -/
theorem mem_listEntries {bound : Nat} {start : ℤ} {items : List (Option ℚ)} {e : Nat × ℚ} :
    e ∈ listEntries bound start items ↔
      e.1 < bound ∧ start ≤ e.1 ∧ items[(e.1 - start).toNat]? = some (some e.2) := by
  unfold listEntries
  rw [List.mem_filterMap]
  constructor
  · rintro ⟨⟨item, k⟩, hitem, h⟩
    rw [List.mem_zipIdx_iff_getElem?] at hitem
    dsimp only at hitem h
    split at h
    · rename_i hbound
      obtain ⟨w, rfl, rfl⟩ := Option.map_eq_some_iff.mp h
      refine ⟨by omega, by omega, ?_⟩
      have hk : (((start + k).toNat : ℤ) - start).toNat = k := by omega
      rw [hk, hitem]
    · cases h
  · rintro ⟨hbound, hstart, hitem⟩
    refine ⟨(some e.2, (e.1 - start).toNat), List.mem_zipIdx_iff_getElem?.mpr hitem, ?_⟩
    dsimp only
    have hback : start + ((e.1 - start).toNat : ℤ) = e.1 := by omega
    rw [hback, if_pos ⟨by omega, by omega⟩]
    rfl

/-- A list gives every CID at most one width. -/
theorem listEntries_unique {bound : Nat} {start : ℤ} {items : List (Option ℚ)} {e e' : Nat × ℚ}
    (he : e ∈ listEntries bound start items) (he' : e' ∈ listEntries bound start items)
    (hcid : e'.1 = e.1) : e'.2 = e.2 := by
  have h := (mem_listEntries.mp he).2.2
  have h' := (mem_listEntries.mp he').2.2
  rw [hcid, h] at h'
  exact (Option.some.inj (Option.some.inj h')).symm

/-- A list of widths sets the keys that it covers, and no others. -/
theorem assign_listEntries {α : Type} {value : ℚ → α} (bound : Nat) (start : ℤ)
    (items : List (Option ℚ)) (d : Nat → α) (cid : Nat) :
    assign value d (listEntries bound start items) cid =
      if start ≤ cid ∧ cid - start < items.length ∧ cid < bound then
        ((items[(cid - start).toNat]?.join).map value).getD (d cid)
      else d cid := by
  by_cases hmem : ∃ w, (cid, w) ∈ listEntries bound start items
  · obtain ⟨w, hw⟩ := hmem
    rw [assign_apply_of_mem _ d hw fun e he hcid => listEntries_unique hw he hcid]
    obtain ⟨hbound, hstart, hitem⟩ := mem_listEntries.mp hw
    dsimp only at hbound hstart hitem
    have hlt := (List.getElem?_eq_some_iff.mp hitem).1
    rw [if_pos ⟨hstart, by omega, hbound⟩, hitem]
    rfl
  · rw [assign_apply_of_not_mem]
    · split
      · rename_i hin
        cases hitem : items[(cid - start).toNat]? with
        | none => rfl
        | some item =>
            cases item with
            | none => rfl
            | some w => exact absurd ⟨w, mem_listEntries.mpr ⟨hin.2.2, hin.1, hitem⟩⟩ hmem
      · rfl
    · rintro ⟨c, w⟩ he hcid
      dsimp only at hcid
      exact hmem ⟨w, hcid ▸ he⟩

theorem assign_rangeEntries {α : Type} {value : ℚ → α} (bound : Nat) {lo : ℤ} (hi : ℤ) (w : ℚ)
    (d : Nat → α) (cid : Nat) :
    assign value d (rangeEntries bound lo hi w) cid =
      if lo ≤ cid ∧ cid ≤ hi ∧ cid < bound then value w else d cid := by
  rw [rangeEntries, assign_listEntries, List.length_replicate, List.getElem?_replicate]
  by_cases hin : lo ≤ cid ∧ cid ≤ hi ∧ cid < bound
  · rw [if_pos hin, if_pos (by omega), if_pos (by omega)]
    rfl
  · rw [if_neg hin, if_neg (by omega)]

/-- The reader stores what it assigns. -/
theorem readW_eq_assign (n : Nat) (items : List WItem) (d : Nat → ℚ) :
    readW n items d = assign id d (readEntries n items) := by
  induction items, d using readW.induct n with
  | case1 a b rest d start ih =>
      rw [readW, readEntries, assign_append, ih]
      congr 1
      funext cid
      rw [assign_listEntries, Option.map_id]
      rfl
  | case2 a b v rest d lo hi ih =>
      rw [readW, readEntries, assign_append, ih]
      congr 1
      funext cid
      rw [assign_rangeEntries]
      dsimp only [lo, hi]
      by_cases hin : max (truncate a) 0 ≤ cid ∧ cid ≤ min (truncate (min b 1000000000)) (n - 1)
      · rw [if_pos hin, if_pos ⟨hin.1, hin.2, by omega⟩]
        rfl
      · rw [if_neg hin, if_neg fun h => hin ⟨h.1, h.2.1⟩]
  | case3 items d hlist hrange =>
      rw [readW, readEntries]
      · rfl
      all_goals assumption

/-- Every width once, from a CID on. -/
def entriesFrom (i : Nat) (ws : List ℤ) : List (Nat × ℚ) :=
  (ws.zipIdx i).map fun p => (p.2, (p.1 : ℚ))

theorem entriesFrom_append (i : Nat) (front rest : List ℤ) :
    entriesFrom i (front ++ rest) = entriesFrom i front ++ entriesFrom (i + front.length) rest := by
  rw [entriesFrom, List.zipIdx_append, List.map_append]
  rfl

theorem mem_entriesFrom {i : Nat} {ws : List ℤ} {e : Nat × ℚ} :
    e ∈ entriesFrom i ws ↔ ∃ w, i ≤ e.1 ∧ ws[e.1 - i]? = some w ∧ e.2 = w := by
  rw [entriesFrom, List.mem_map]
  constructor
  · rintro ⟨⟨w, cid⟩, hmem, rfl⟩
    obtain ⟨hle, hw⟩ := List.mk_mem_zipIdx_iff_le_and_getElem?_sub.mp hmem
    exact ⟨w, hle, hw, rfl⟩
  · rintro ⟨w, hle, hw, h⟩
    exact ⟨(w, e.1), List.mk_mem_zipIdx_iff_le_and_getElem?_sub.mpr ⟨hle, hw⟩, Prod.ext rfl h.symm⟩

/-- The list from a CID on gives its numbers, in order. -/
theorem listEntries_natCast {bound i : Nat} {ws : List ℤ} (hbound : i + ws.length ≤ bound) :
    listEntries bound i (ws.map fun w : ℤ => some (w : ℚ)) = entriesFrom i ws := by
  have hstart : ws.zipIdx i = ws.zipIdx.map fun p => (p.1, i + p.2) := by
    rw [List.zipIdx_eq_map_add]
  rw [listEntries, entriesFrom, hstart, List.zipIdx_map, List.filterMap_map, List.map_map,
    ← List.filterMap_eq_map]
  refine List.filterMap_congr fun p hp => ?_
  have hlt := List.snd_lt_of_mem_zipIdx hp
  dsimp only [Function.comp, Prod.map, id]
  rw [if_pos ⟨by omega, by omega⟩]
  exact congrArg some (Prod.ext (by dsimp only; omega) rfl)

/-- A range of CIDs gives its width to each, in order. -/
theorem rangeEntries_natCast {bound i r : Nat} {x : ℤ} (hpos : 0 < r) (hbound : i + r ≤ bound) :
    rangeEntries bound i (i + r - 1 : Nat) x = entriesFrom i (List.replicate r x) := by
  have hcount : (((i + r - 1 : Nat) : ℤ) + 1 - i).toNat = r := by omega
  have hlist : List.replicate r (some (x : ℚ)) =
      (List.replicate r x).map fun w : ℤ => some (w : ℚ) := by
    rw [List.map_replicate]
  rw [rangeEntries, hcount, hlist, listEntries_natCast (by rwa [List.length_replicate])]

/-- A reader of what is written below a bound: it assigns runs and lists in order. -/
structure Reads (bound : Nat) (read : List WItem → List (Nat × ℚ)) : Prop where
  nil : read [] = []
  range : ∀ {i r : Nat} {x : ℤ} {rest : List WItem}, 0 < r → i + r ≤ bound →
    read (.num i :: .num (i + r - 1 : Nat) :: .num x :: rest) =
      entriesFrom i (List.replicate r x) ++ read rest
  list : ∀ {i : Nat} {ws : List ℤ} {rest : List WItem}, i + ws.length ≤ bound →
    read (.num i :: .list (ws.map fun w : ℤ => some (w : ℚ)) :: rest) =
      entriesFrom i ws ++ read rest

theorem readEntries_reads {n : Nat} (hmax : n ≤ 65536) : Reads n (readEntries n) where
  nil := rfl
  range := fun {i r x rest} hpos hbound => by
    have hlast : ((i + r - 1 : Nat) : ℚ) ≤ 1000000000 := by
      have hnat : i + r - 1 ≤ 1000000000 := by omega
      exact_mod_cast hnat
    have hlo : max (i : ℤ) 0 = i := by omega
    have hhi : min (((i + r - 1 : Nat) : ℤ)) (n - 1) = (i + r - 1 : Nat) := by omega
    rw [readEntries, min_eq_left hlast, truncate_natCast, truncate_natCast, hlo, hhi,
      rangeEntries_natCast hpos hbound]
  list := fun {i ws rest} hbound => by
    rw [readEntries, truncate_natCast, listEntries_natCast hbound]

theorem cidEntries_reads : Reads 65536 cidEntries where
  nil := rfl
  range := fun {i r x rest} hpos hbound => by
    rw [cidEntries, truncate_natCast, truncate_natCast, if_pos ⟨by omega, by omega⟩,
      rangeEntries_natCast hpos hbound]
  list := fun {i ws rest} hbound => by
    rw [cidEntries, truncate_natCast, listEntries_natCast hbound]

/-- What is written is read as every width once, in order. -/
theorem Reads.buildW {bound : Nat} {read : List WItem → List (Nat × ℚ)} (h : Reads bound read) :
    ∀ (fuel i : Nat) (ws : List ℤ), ws.length ≤ fuel → i + ws.length ≤ bound →
      read (buildW fuel i ws) = entriesFrom i ws
  | 0, i, ws, hfuel, _ => by
      rw [List.length_eq_zero_iff.mp (Nat.le_zero.mp hfuel)]
      exact h.nil
  | fuel + 1, i, [], _, _ => h.nil
  | fuel + 1, i, x :: rest, hfuel, hbound => by
      have hle := runLength_le (x :: rest)
      have hpos := runLength_pos x rest
      rw [FontWidths.buildW]
      split
      · -- a run is read as one range, and what follows it by induction
        have hdrop : ((x :: rest).drop (runLength (x :: rest))).length =
            (x :: rest).length - runLength (x :: rest) := List.length_drop
        rw [h.range hpos (by omega), h.buildW fuel _ _ (by omega) (by omega), ← take_runLength]
        have happend := entriesFrom_append i ((x :: rest).take (runLength (x :: rest)))
          ((x :: rest).drop (runLength (x :: rest)))
        rw [List.length_take, min_eq_left hle, List.take_append_drop] at happend
        exact happend.symm
      · -- the widths up to the next run are read as one list
        rename_i hshort
        have hlen := shortRuns_length_pos hshort
        obtain ⟨after, hafter⟩ := shortRuns_prefix (x :: rest).length (x :: rest)
        generalize shortRuns (x :: rest).length (x :: rest) = short at hlen hafter ⊢
        have htotal := congrArg List.length hafter
        rw [List.length_append] at htotal
        dsimp only
        rw [h.list (by omega), ← hafter, List.drop_left,
          h.buildW fuel _ _ (by omega) (by omega), entriesFrom_append]

theorem assign_entriesFrom_zero {α : Type} {value : ℚ → α} {ws : List ℤ} {cid : Nat} {w : ℤ}
    (d : Nat → α) (hw : ws[cid]? = some w) : assign value d (entriesFrom 0 ws) cid = value w := by
  refine assign_apply_of_mem _ d (mem_entriesFrom.mpr ⟨w, Nat.zero_le _, hw, rfl⟩) ?_
  rintro ⟨c, q⟩ he hcid
  obtain ⟨w', -, hw', hq⟩ := mem_entriesFrom.mp he
  dsimp only at hcid hw' hq ⊢
  rw [hcid, Nat.sub_zero, hw] at hw'
  rw [hq, Option.some.inj hw']

/-- Both readers assign every width of the list to its CID, once and in order, and nothing else. -/
theorem widths_read_back (widths : List ℤ) (n : Nat)
    (hn : widths.length ≤ n) (hmax : n ≤ 65536) :
    (readEntries n (buildW widths.length 0 widths) = entriesFrom 0 widths ∧
      cidEntries (buildW widths.length 0 widths) = entriesFrom 0 widths) ∧
    ∀ (cid : Nat) (w : ℤ), widths[cid]? = some w →
      (∀ d, readW n (buildW widths.length 0 widths) d cid = w) ∧
        parseCidWidths (buildW widths.length 0 widths) cid = some (w : ℚ) := by
  have hread : readEntries n (buildW widths.length 0 widths) = entriesFrom 0 widths :=
    (readEntries_reads hmax).buildW _ _ _ (Nat.le_refl _) (by omega)
  have hparse : cidEntries (buildW widths.length 0 widths) = entriesFrom 0 widths :=
    cidEntries_reads.buildW _ _ _ (Nat.le_refl _) (by omega)
  refine ⟨⟨hread, hparse⟩, fun cid w hw => ⟨fun d => ?_, ?_⟩⟩
  · rw [readW_eq_assign, hread]
    exact assign_entriesFrom_zero d hw
  · rw [parseCidWidths, hparse]
    exact assign_entriesFrom_zero _ hw

/-- Four equal widths are a range, the one after them a list. -/
theorem widths_read_back_run :
    (readEntries 5 (buildW 5 0 [500, 500, 500, 500, 250]) =
        entriesFrom 0 [500, 500, 500, 500, 250] ∧
      cidEntries (buildW 5 0 [500, 500, 500, 500, 250]) =
        entriesFrom 0 [500, 500, 500, 500, 250]) ∧
    ∀ (cid : Nat) (w : ℤ), [500, 500, 500, 500, 250][cid]? = some w →
      (∀ d, readW 5 (buildW 5 0 [500, 500, 500, 500, 250]) d cid = w) ∧
        parseCidWidths (buildW 5 0 [500, 500, 500, 500, 250]) cid = some (w : ℚ) :=
  widths_read_back [500, 500, 500, 500, 250] 5 (Nat.le_refl 5) (by decide)

end Kura.Engine.FontWidths
