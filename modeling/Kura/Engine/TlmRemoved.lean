import Kura.Engine.Jpx

/-!
# When the TLM segments are taken out

The walk over the boxes adds lengths in 64 bits, so that it may come back to a box
it has been at, and it does not look at the length of the box around the codestream.
Where neither matters, the segments are taken out and the box is shortened by them.

`BoxAt` are the boxes without bounds on their lengths, and `Header` is a main header
cut into its segments; a segment is given by its place and its length. The bytes
removed before a place are those the place moves by, so that a box ends at the same
place as before if all of them stand before its end.
-/

namespace Kura.Engine.Jpx

open Kura.Base

/-- The places of the boxes before the codestream and of its own box. -/
inductive BoxAt (b : Bytes) : Nat → Prop
  | first : BoxAt b 0
  | next {p} (h : BoxAt b p) (hin : p + 8 ≤ b.length) (hother : isJp2c b p = false)
      (hlen : (boxHeader b p).2 ≤ (boxHeader b p).1)
      (hend : p + (boxHeader b p).1 ≤ b.length) : BoxAt b (p + (boxHeader b p).1)

/-- The segments of a main header from a place on, and where it ends. -/
inductive Header (b : Bytes) : Nat → List (Nat × Nat) → Nat → Prop
  | stop {p} (h : b.length < p + 4 ∨ byteAt b p = 0xFF ∧ endsHeader (byteAt b (p + 1))) :
      Header b p [] p
  | segment {p segs q} (hin : p + 4 ≤ b.length) (hff : byteAt b p = 0xFF)
      (hmarker : ¬ endsHeader (byteAt b (p + 1))) (hlen : 2 ≤ be b (p + 2) 2)
      (hend : p + 2 + be b (p + 2) 2 ≤ b.length) (h : Header b (p + 2 + be b (p + 2) 2) segs q) :
      Header b p ((p, 2 + be b (p + 2) 2) :: segs) q

def isTlm (b : Bytes) (seg : Nat × Nat) : Bool := byteAt b (seg.1 + 1) = 0x55

/-- The TLM segments among some. -/
def tlms (b : Bytes) (segs : List (Nat × Nat)) : List (Nat × Nat) := segs.filter (isTlm b)

/-- What is left of some segments. -/
def kept (b : Bytes) (segs : List (Nat × Nat)) : Bytes :=
  (segs.filter fun seg => !isTlm b seg).flatMap fun seg => slice b seg.1 seg.2

/-- The bytes of the TLM segments that stand before a place. -/
def removedBefore (b : Bytes) (segs : List (Nat × Nat)) (i : Nat) : Nat :=
  ((tlms b segs).map fun seg => min i (seg.1 + seg.2) - min i seg.1).sum

/-- The bytes of the TLM segments. -/
def removed (b : Bytes) (segs : List (Nat × Nat)) : Nat := ((tlms b segs).map Prod.snd).sum

/-- The string without the TLM segments of the main header of the codestream at a place. -/
def cut (b : Bytes) (cs : Nat) (segs : List (Nat × Nat)) (q : Nat) : Bytes :=
  b.take (cs + 2) ++ kept b segs ++ b.drop q

/-- The TLM segments are taken out of the main header, and the box of the codestream is shortened
by them. -/
inductive Stripped (b out : Bytes) : Prop
  /-- The string is a codestream. -/
  | raw {segs q} (hsoc : 2 ≤ b.length ∧ isSoc b 0 = true) (hheader : Header b 2 segs q)
      (hout : out = cut b 0 segs q)
  /-- The codestream is in a box that goes to the end. -/
  | toEnd {p segs q} (hsoc : ¬ (2 ≤ b.length ∧ isSoc b 0 = true)) (hbox : BoxAt b p)
      (hin : p + 8 ≤ b.length) (htype : isJp2c b p = true) (hlen : (boxHeader b p).1 = 0)
      (hheader : Header b ((placeIn b p).cs + 2) segs q)
      (hout : out = cut b (placeIn b p).cs segs q)
  /-- The codestream is in a box with a length: the box ends where it did. -/
  | inBox {p segs q len i k} (hsoc : ¬ (2 ≤ b.length ∧ isSoc b 0 = true)) (hbox : BoxAt b p)
      (hin : p + 8 ≤ b.length) (htype : isJp2c b p = true)
      (hfield : (placeIn b p).boxLenAt = some (i, k))
      (hheader : Header b ((placeIn b p).cs + 2) segs q)
      (hlen : len + removed b segs = (boxHeader b p).1)
      (hplace : p + len + removedBefore b segs (p + (boxHeader b p).1) = p + (boxHeader b p).1)
      (hout : out = setBe (cut b (placeIn b p).cs segs q) i k len)
      (hbehind : out.drop (p + len) = b.drop (p + (boxHeader b p).1))

/-- `withoutTlm` ends, and what it changes are the TLM segments and the length of the box. -/
def RemovesTlm (b : StdString) : Prop :=
  ∃ out, (∃ rounds, withoutTlm rounds b = some out) ∧ (out ≠ b.1 → Stripped b.1 out)

/-- The codestream at a place has a main header with TLM segments. -/
def HasTlm (b : Bytes) (cs : Nat) (segs : List (Nat × Nat)) (q : Nat) : Prop :=
  cs + 4 ≤ b.length ∧ isSoc b cs = true ∧ Header b (cs + 2) segs q ∧ tlms b segs ≠ []

/-- No length that the walk over the boxes adds wraps. -/
def Forward (b : Bytes) : Prop :=
  ∀ p p', Reaches (boxStep b) 0 p → Follows (boxStep b) p p' → p' = p + (boxHeader b p).1

/-- The walk over the boxes comes to no box twice. If it ends at a codestream with TLM segments, no
length on the way has wrapped and the box holds the segments. -/
def Walks (b : Bytes) : Prop :=
  2 ≤ b.length ∧ isSoc b 0 = true ∨
    (∀ p, Reaches (boxStep b) 0 p → ¬ Relation.TransGen (Follows (boxStep b)) p p) ∧
      ∀ p, Reaches (boxStep b) 0 p → p + 8 ≤ b.length → isJp2c b p = true →
        ∀ segs q, HasTlm b (p + (boxHeader b p).2) segs q →
          Forward b ∧
          ((boxHeader b p).1 = 0 ∨ ∀ seg ∈ tlms b segs, seg.1 + seg.2 ≤ p + (boxHeader b p).1)

section Headers

variable {b : Bytes} {p q : Nat} {segs : List (Nat × Nat)}

/-- A main header has its segments and its end once and for all. -/
theorem Header.unique {segs' : List (Nat × Nat)} {q' : Nat} (h : Header b p segs q)
    (h' : Header b p segs' q') : segs = segs' ∧ q = q' := by
  induction h generalizing segs' q' with
  | stop hstop =>
      cases h' with
      | stop => exact ⟨rfl, rfl⟩
      | segment hin hff hmarker =>
          obtain hshort | ⟨-, hends⟩ := hstop
          · omega
          · exact absurd hends hmarker
  | segment hin hff hmarker _ _ _ ih =>
      cases h' with
      | stop hstop =>
          obtain hshort | ⟨-, hends⟩ := hstop
          · omega
          · exact absurd hends hmarker
      | segment _ _ _ _ _ hrest =>
          obtain ⟨rfl, rfl⟩ := ih hrest
          exact ⟨rfl, rfl⟩

theorem tlms_cons_of_pos {seg : Nat × Nat} (h : isTlm b seg = true) :
    tlms b (seg :: segs) = seg :: tlms b segs := List.filter_cons_of_pos h

theorem tlms_cons_of_neg {seg : Nat × Nat} (h : isTlm b seg = false) :
    tlms b (seg :: segs) = tlms b segs := List.filter_cons_of_neg (by simp [h])

theorem kept_cons_of_pos {seg : Nat × Nat} (h : isTlm b seg = true) :
    kept b (seg :: segs) = kept b segs := by
  rw [kept, List.filter_cons_of_neg (by simp [h]), kept]

theorem kept_cons_of_neg {seg : Nat × Nat} (h : isTlm b seg = false) :
    kept b (seg :: segs) = slice b seg.1 seg.2 ++ kept b segs := by
  rw [kept, List.filter_cons_of_pos (by simp [h]), List.flatMap_cons, kept]

/-- The walk finds the segments and leaves out the TLM segments. -/
theorem headerWalk_of_header (h : Header b p segs q) (out : Bytes) (r : Nat) :
    headerWalk b p out r = some (q, out ++ kept b segs, r + removed b segs) := by
  induction h generalizing out r with
  | @stop p hstop =>
      have hend : headerWalk b p out r = some (p, out, r) := by
        rw [headerWalk]
        obtain hshort | ⟨hff, hends⟩ := hstop
        · rw [if_pos hshort]
        · rw [if_neg (not_not.mpr hff), if_pos hends, ite_self]
      rw [hend]
      exact congrArg some (Prod.ext rfl (Prod.ext (List.append_nil out).symm rfl))
  | @segment p segs q hin hff hmarker hlen hend _ ih =>
      have hfits : ¬ (be b (p + 2) 2 < 2 ∨ b.length < p + 2 + be b (p + 2) 2) := by omega
      rw [headerWalk, if_neg (by omega), if_neg (not_not.mpr hff), if_neg hmarker]
      simp only
      rw [if_neg hfits]
      by_cases htlm : byteAt b (p + 1) = 0x55
      · have hpos : isTlm b (p, 2 + be b (p + 2) 2) = true := decide_eq_true htlm
        rw [if_pos htlm, ih, kept_cons_of_pos hpos, removed, removed, tlms_cons_of_pos hpos,
          List.map_cons, List.sum_cons, Nat.add_assoc]
      · have hneg : isTlm b (p, 2 + be b (p + 2) 2) = false := decide_eq_false htlm
        rw [if_neg htlm, ih, kept_cons_of_neg hneg, removed, removed, tlms_cons_of_neg hneg,
          List.append_assoc]

/-- What the walk reads is a main header. -/
theorem exists_header {out : Bytes} {r : Nat} {x : Nat × Bytes × Nat}
    (h : headerWalk b p out r = some x) : ∃ segs q, Header b p segs q := by
  fun_induction headerWalk b p out r with
  | case1 p out r hshort => exact ⟨[], p, .stop (Or.inl hshort)⟩
  | case2 => cases h
  | case3 p out r hin hff hends => exact ⟨[], p, .stop (Or.inr ⟨not_not.mp hff, hends⟩)⟩
  | case4 => cases h
  | case5 p out r hin hff hmarker len hfits htlm ih =>
      obtain ⟨segs, q, hrest⟩ := ih h
      exact ⟨_, q, .segment (by omega) (not_not.mp hff) hmarker (by omega) (by omega) hrest⟩
  | case6 p out r hin hff hmarker len hfits htlm ih =>
      obtain ⟨segs, q, hrest⟩ := ih h
      exact ⟨_, q, .segment (by omega) (not_not.mp hff) hmarker (by omega) (by omega) hrest⟩

/-- The segments stand between the start and the end of the header, and none is empty. -/
theorem Header.bounds (h : Header b p segs q) :
    ∀ seg ∈ segs, p ≤ seg.1 ∧ 0 < seg.2 ∧ seg.1 + seg.2 ≤ b.length := by
  induction h with
  | stop => exact fun seg hseg => absurd hseg List.not_mem_nil
  | segment _ _ _ _ hend hrest ih =>
      intro seg hseg
      obtain rfl | hseg := List.mem_cons.mp hseg
      · exact ⟨le_rfl, by omega, by omega⟩
      · obtain ⟨hlow, hpos, hhigh⟩ := ih seg hseg
        exact ⟨by omega, hpos, hhigh⟩

theorem removed_pos_iff (h : Header b p segs q) : 0 < removed b segs ↔ tlms b segs ≠ [] := by
  cases htlms : tlms b segs with
  | nil => simp [removed, htlms]
  | cons seg rest =>
      have hfirst : seg ∈ tlms b segs := htlms ▸ List.mem_cons_self
      have hmem : seg ∈ segs := List.mem_of_mem_filter hfirst
      have hpos := (h.bounds seg hmem).2.1
      refine iff_of_true ?_ (List.cons_ne_nil _ _)
      rw [removed, htlms, List.map_cons, List.sum_cons]
      omega

/-- All bytes of the TLM segments stand before a place exactly if all the segments do. -/
theorem removedBefore_eq_iff (h : Header b p segs q) (i : Nat) :
    removedBefore b segs i = removed b segs ↔ ∀ seg ∈ tlms b segs, seg.1 + seg.2 ≤ i := by
  have hpos : ∀ seg ∈ tlms b segs, 0 < seg.2 := fun seg hseg =>
    (h.bounds seg (List.mem_of_mem_filter hseg)).2.1
  rw [removedBefore, removed]
  generalize tlms b segs = ts at hpos
  have hle : ∀ ts : List (Nat × Nat),
      (ts.map fun seg => min i (seg.1 + seg.2) - min i seg.1).sum ≤ (ts.map Prod.snd).sum :=
    fun ts => List.sum_le_sum fun seg _ => by omega
  induction ts with
  | nil => simp
  | cons seg ts ih =>
      have hrest := ih fun s hs => hpos s (List.mem_cons_of_mem _ hs)
      have hfirst := hpos seg List.mem_cons_self
      have hleRest := hle ts
      rw [List.map_cons, List.map_cons, List.sum_cons, List.sum_cons, List.forall_mem_cons]
      refine Iff.trans ?_ (and_congr_right' hrest)
      omega

/-- The header and what follows it, without the TLM segments: where they all stand before a place,
what is behind that place stays. -/
theorem Header.drop_kept (h : Header b p segs q) {i : Nat} (hi : p ≤ i)
    (hall : ∀ seg ∈ tlms b segs, seg.1 + seg.2 ≤ i) :
    p + removed b segs ≤ i ∧
      (kept b segs ++ b.drop q).drop (i - p - removed b segs) = b.drop i := by
  induction h generalizing i with
  | @stop p =>
      refine ⟨hi, ?_⟩
      have hsum : p + (i - p - removed b []) = i := by
        rw [removed, tlms, List.filter_nil, List.map_nil, List.sum_nil]
        omega
      rw [kept, List.filter_nil, List.flatMap_nil, List.nil_append, List.drop_drop, hsum]
  | @segment p segs q hin hff hmarker hlen hend hrest ih =>
      set len := 2 + be b (p + 2) 2 with hlenEq
      have hnext : p + 2 + be b (p + 2) 2 = p + len := by omega
      rw [hnext] at hrest ih
      cases htlm : isTlm b (p, len) with
      | true =>
          rw [tlms_cons_of_pos htlm] at hall
          obtain ⟨hfirst, hall⟩ := List.forall_mem_cons.mp hall
          obtain ⟨hle, hdrop⟩ := ih hfirst hall
          have hremoved : removed b ((p, len) :: segs) = len + removed b segs := by
            rw [removed, tlms_cons_of_pos htlm, List.map_cons, List.sum_cons, removed]
          refine ⟨by omega, ?_⟩
          rw [kept_cons_of_pos htlm, hremoved, ← hdrop]
          congr 1
          omega
      | false =>
          rw [tlms_cons_of_neg htlm] at hall
          have hremoved : removed b ((p, len) :: segs) = removed b segs := by
            rw [removed, tlms_cons_of_neg htlm, removed]
          have hslice : (slice b p len).length = len := by
            rw [slice, List.length_take, List.length_drop]
            omega
          rw [kept_cons_of_neg htlm, hremoved, List.append_assoc]
          obtain hlt | hge := Nat.lt_or_ge i (p + len)
          · -- the place is in this segment, so that no TLM segment follows
            have hnone : tlms b segs = [] := by
              by_contra hsome
              obtain ⟨seg, hseg⟩ := List.exists_mem_of_ne_nil _ hsome
              have hlow := (hrest.bounds seg (List.mem_of_mem_filter hseg)).1
              have hhigh := hall seg hseg
              omega
            have hempty : ∀ seg ∈ tlms b segs, seg.1 + seg.2 ≤ p + len := by
              rw [hnone]
              exact fun seg hseg => absurd hseg List.not_mem_nil
            obtain ⟨-, hdrop⟩ := @ih (p + len) le_rfl hempty
            have hzero : removed b segs = 0 := by rw [removed, hnone]; rfl
            rw [hzero, Nat.sub_zero, Nat.sub_self, List.drop_zero] at hdrop
            have hwhole : slice b p len ++ b.drop (p + len) = b.drop p := by
              rw [slice, ← List.drop_drop]
              exact List.take_append_drop len (b.drop p)
            rw [hdrop, hwhole, hzero, Nat.sub_zero, List.drop_drop]
            exact ⟨hi, congrArg b.drop (by omega)⟩
          · obtain ⟨hle, hdrop⟩ := ih hge hall
            refine ⟨by omega, ?_⟩
            have hsplit : i - p - removed b segs = len + (i - (p + len) - removed b segs) := by
              omega
            rw [hsplit, ← hdrop, ← List.drop_drop]
            exact congrArg (List.drop _) (List.drop_left' hslice)

/-- What is kept and what is removed make up the header. -/
theorem Header.length_kept (h : Header b p segs q) :
    p + ((kept b segs).length + removed b segs) = q := by
  induction h with
  | stop => rfl
  | @segment p segs q hin hff hmarker hlen hend _ ih =>
      set len := 2 + be b (p + 2) 2 with hlenEq
      cases htlm : isTlm b (p, len) with
      | true =>
          rw [kept_cons_of_pos htlm, removed, tlms_cons_of_pos htlm, List.map_cons, List.sum_cons,
            ← removed]
          omega
      | false =>
          have hslice : (slice b (p, len).1 (p, len).2).length = len := by
            rw [slice, List.length_take, List.length_drop]
            simp only
            omega
          rw [kept_cons_of_neg htlm, List.length_append, hslice, removed, tlms_cons_of_neg htlm,
            ← removed]
          omega

theorem Header.end_le (h : Header b p segs q) (hp : p ≤ b.length) : q ≤ b.length := by
  induction h with
  | stop => exact hp
  | segment _ _ _ _ hend _ ih => exact ih hend

end Headers

section Fields

variable {b : Bytes} {i k : Nat}

theorem length_toBe (k v : Nat) : (toBe k v).length = k := by
  induction k generalizing v with
  | zero => rfl
  | succ k ih => rw [toBe, List.length_append, ih, List.length_singleton]

theorem fromBe_lt (b : Bytes) : fromBe b < 256 ^ b.length := by
  induction b using List.reverseRecOn with
  | nil => exact Nat.one_pos
  | append_singleton b c ih =>
      have hc := c.toNat_lt
      rw [fromBe, List.foldl_append, ← fromBe, List.length_append, List.length_singleton, pow_succ]
      simp only [List.foldl_cons, List.foldl_nil]
      omega

theorem length_setBe (h : i + k ≤ b.length) (v : Nat) : (setBe b i k v).length = b.length := by
  rw [setBe, List.length_append, List.length_append, length_toBe, List.length_take,
    List.length_drop]
  omega

/-- What stands behind the field stays. -/
theorem drop_setBe (h : i + k ≤ b.length) (v : Nat) {j : Nat} (hj : i + k ≤ j) :
    (setBe b i k v).drop j = b.drop j := by
  have hfront : (b.take i ++ toBe k v).length = i + k := by
    rw [List.length_append, length_toBe, List.length_take]
    omega
  obtain ⟨d, rfl⟩ := Nat.exists_eq_add_of_le hj
  rw [setBe, ← List.drop_drop, List.drop_left' hfront, List.drop_drop]

theorem be_append_of_le {b' : Bytes} (h : i + k ≤ b.length) : be (b ++ b') i k = be b i k := by
  have hslice : slice (b ++ b') i k = slice b i k := by
    rw [slice, slice, List.drop_append_of_le_length (by omega), List.take_append_of_le_length]
    rw [List.length_drop]
    omega
  rw [be, be, hslice]

theorem be_take_of_le {j : Nat} (h : i + k ≤ j) : be (b.take j) i k = be b i k := by
  have hslice : slice (b.take j) i k = slice b i k := by
    rw [slice, slice, List.drop_take, List.take_take, Nat.min_eq_left (by omega)]
  rw [be, be, hslice]

/-- The field with the length of a box stands in its header. -/
theorem field_of_placeIn {p : Nat} (hin : p + 8 ≤ b.length)
    (h : (placeIn b p).boxLenAt = some (i, k)) :
    i + k ≤ (placeIn b p).cs ∧ be b i k = (boxHeader b p).1 ∧ k ≤ 8 ∧
      (boxHeader b p).1 ≠ 0 ∧ (placeIn b p).cs ≤ b.length := by
  rw [placeIn] at h ⊢
  simp only at h ⊢
  by_cases hlong : be b p 4 = 1 ∧ p + 16 ≤ b.length
  · have hheader : boxHeader b p = (be b (p + 8) 8, 16) := by rw [boxHeader, if_pos hlong]
    rw [hheader] at h ⊢
    by_cases hne : be b (p + 8) 8 = 0
    · rw [if_neg (not_not.mpr hne)] at h
      cases h
    · rw [if_pos hne, if_pos rfl] at h
      cases h
      exact ⟨le_rfl, rfl, le_rfl, hne, hlong.2⟩
  · have hheader : boxHeader b p = (be b p 4, 8) := by rw [boxHeader, if_neg hlong]
    rw [hheader] at h ⊢
    by_cases hne : be b p 4 = 0
    · rw [if_neg (not_not.mpr hne)] at h
      cases h
    · have hshort : ¬ (8 : Nat) = 16 := by decide
      rw [if_pos hne, if_neg hshort] at h
      cases h
      exact ⟨by omega, rfl, by omega, hne, hin⟩

theorem boxLenAt_eq_none_iff {p : Nat} :
    (placeIn b p).boxLenAt = none ↔ (boxHeader b p).1 = 0 := by
  rw [placeIn]
  by_cases h : (boxHeader b p).1 = 0
  · exact iff_of_true (if_neg (not_not.mpr h)) h
  · simp only [if_pos h]
    exact iff_of_false (Option.some_ne_none _) h

end Fields

section Codestream

variable {b : Bytes} {cs q : Nat} {segs : List (Nat × Nat)} {place : Place}

theorem stripped_of_header (hin : place.cs + 4 ≤ b.length) (hsoc : isSoc b place.cs = true)
    (h : Header b (place.cs + 2) segs q) (hsome : tlms b segs ≠ []) :
    stripped b place =
      (place.boxLenAt.map fun field =>
        lowered (cut b place.cs segs q) field.1 field.2 (removed b segs)).getD
          (cut b place.cs segs q) := by
  have hpos := (removed_pos_iff h).mpr hsome
  have hguard : ¬ (b.length < place.cs + 4 ∨ ¬ isSoc b place.cs = true) := by
    rw [not_or, not_not]
    exact ⟨by omega, hsoc⟩
  rw [stripped, if_neg hguard, headerWalk_of_header h]
  simp only [Nat.zero_add]
  rw [if_neg (by omega)]
  cases place.boxLenAt <;> rfl

/-- Without TLM segments the string is returned. -/
theorem stripped_of_not_hasTlm (h : ∀ segs q, ¬ HasTlm b place.cs segs q) :
    stripped b place = b := by
  rw [stripped]
  split_ifs with hguard
  · rfl
  · rw [not_or, not_not] at hguard
    cases hwalk : headerWalk b (place.cs + 2) (b.take (place.cs + 2)) 0 with
    | none => rfl
    | some x =>
        obtain ⟨segs, q, hheader⟩ := exists_header hwalk
        have hnone : tlms b segs = [] := by
          by_contra hsome
          exact h segs q ⟨by omega, hguard.2, hheader, hsome⟩
        rw [headerWalk_of_header hheader] at hwalk
        cases hwalk
        simp only [removed, hnone, List.map_nil, List.sum_nil, Nat.add_zero, if_true]

theorem length_cut (hin : cs + 4 ≤ b.length) (h : Header b (cs + 2) segs q) :
    (cut b cs segs q).length + removed b segs = b.length := by
  have hlen := h.length_kept
  have hend := h.end_le (by omega)
  rw [cut, List.length_append, List.length_append, List.length_take, List.length_drop]
  omega

theorem be_cut {i k : Nat} (hin : cs + 4 ≤ b.length) (hfield : i + k ≤ cs + 2) :
    be (cut b cs segs q) i k = be b i k := by
  have hlen : (b.take (cs + 2)).length = cs + 2 := by
    rw [List.length_take]
    omega
  rw [cut, List.append_assoc, be_append_of_le (by omega), be_take_of_le hfield]

/-- Where the TLM segments stand before a place, what is behind that place stays. -/
theorem drop_cut (hin : cs + 4 ≤ b.length) (h : Header b (cs + 2) segs q) {i : Nat}
    (hi : cs + 2 ≤ i) (hall : ∀ seg ∈ tlms b segs, seg.1 + seg.2 ≤ i) :
    cs + 2 + removed b segs ≤ i ∧ (cut b cs segs q).drop (i - removed b segs) = b.drop i := by
  obtain ⟨hle, hdrop⟩ := h.drop_kept hi hall
  refine ⟨hle, ?_⟩
  have hlen : (b.take (cs + 2)).length = cs + 2 := by
    rw [List.length_take]
    omega
  have hsplit : i - removed b segs = cs + 2 + (i - (cs + 2) - removed b segs) := by omega
  rw [cut, List.append_assoc, hsplit, ← List.drop_drop, List.drop_left' hlen, hdrop]

/-- A string with TLM segments is changed. -/
theorem stripped_ne (hin : place.cs + 4 ≤ b.length) (hsoc : isSoc b place.cs = true)
    (h : Header b (place.cs + 2) segs q) (hsome : tlms b segs ≠ [])
    (hfield : ∀ field ∈ place.boxLenAt, field.1 + field.2 ≤ place.cs) : stripped b place ≠ b := by
  intro hsame
  have hpos := (removed_pos_iff h).mpr hsome
  have hlen := length_cut hin h
  have hkept := h.length_kept
  have hend := h.end_le (by omega)
  have hshort : (stripped b place).length = (cut b place.cs segs q).length := by
    rw [stripped_of_header hin hsoc h hsome]
    cases hat : place.boxLenAt with
    | none => rfl
    | some field =>
        have hle := hfield field hat
        refine length_setBe ?_ _
        omega
  rw [hsame] at hshort
  omega

end Codestream

section Walk

variable {b : Bytes} {p p' : Nat}

/-- The walk goes on from a box to the one behind it. -/
theorem follows_iff : Follows (boxStep b) p p' ↔
    p + 8 ≤ b.length ∧ isJp2c b p = false ∧ (boxHeader b p).1 ≠ 0 ∧
      (boxHeader b p).2 ≤ (boxHeader b p).1 ∧ (p + (boxHeader b p).1) % 2 ^ 64 ≤ b.length ∧
      p' = (p + (boxHeader b p).1) % 2 ^ 64 := by
  rw [Follows, boxStep]
  cases htype : isJp2c b p with
  | true =>
      simp only [if_true]
      refine iff_of_false ?_ fun h => by cases h.2.1
      split_ifs <;> exact fun h => by cases h
  | false =>
      simp only [Bool.false_eq_true, if_false]
      split_ifs with hin hstop
      · exact iff_of_false (fun h => by cases h) fun h => by omega
      · exact iff_of_false (fun h => by cases h) fun h => by omega
      · rw [Option.some_inj, Sum.inr.injEq]
        constructor
        · rintro rfl
          exact ⟨by omega, trivial, by omega, by omega, by omega, rfl⟩
        · exact fun h => h.2.2.2.2.2.symm

theorem boxStep_eq_iff : boxStep b p = some (.inl (some p')) ↔
    p + 8 ≤ b.length ∧ isJp2c b p = true ∧ p' = p := by
  rw [boxStep]
  cases htype : isJp2c b p with
  | true =>
      simp only [if_true]
      split_ifs with hin
      · exact iff_of_false (fun h => by cases h) fun h => by omega
      · rw [Option.some_inj, Sum.inl.injEq, Option.some_inj]
        exact ⟨fun h => ⟨by omega, trivial, h.symm⟩, fun h => h.2.2.symm⟩
  | false =>
      simp only [Bool.false_eq_true, if_false]
      refine iff_of_false ?_ fun h => by cases h.2.1
      split_ifs <;> exact fun h => by cases h

theorem boxStep_isSome : (boxStep b p).isSome := by
  rw [boxStep]
  split_ifs
  · rfl
  · rfl
  · simp only
    split_ifs <;> rfl

theorem le_of_reaches (h : Reaches (boxStep b) 0 p) : p ≤ b.length := by
  cases h with
  | refl => exact Nat.zero_le _
  | tail _ hlast =>
      obtain ⟨-, -, -, -, hle, rfl⟩ := follows_iff.mp hlast
      exact hle

/-- A walk that goes forward is at the boxes. -/
theorem Forward.boxAt (hforward : Forward b) (h : Reaches (boxStep b) 0 p) : BoxAt b p := by
  induction h with
  | refl => exact .first
  | @tail p p' hreach hlast ih =>
      have hsum := hforward p p' hreach hlast
      obtain ⟨hin, hother, -, hlen, hle, hp'⟩ := follows_iff.mp hlast
      rw [hsum]
      refine .next ih hin hother hlen ?_
      rw [← hsum, hp']
      exact hle

/-- The boxes are where the walk goes to, step by step. -/
theorem BoxAt.path (hb : b.length < 2 ^ 63) (h : BoxAt b p) :
    Relation.ReflTransGen
      (fun p p' => Follows (boxStep b) p p' ∧ p' = p + (boxHeader b p).1) 0 p := by
  induction h with
  | first => exact .refl
  | @next p _ hin hother hlen hend ih =>
      refine ih.tail ⟨follows_iff.mpr ⟨hin, hother, ?_, hlen, ?_, ?_⟩, rfl⟩
      · have hheader : 8 ≤ (boxHeader b p).2 := by
          rw [boxHeader]
          split_ifs
          · exact (by decide : 8 ≤ 16)
          · exact le_rfl
        omega
      · omega
      · omega

theorem BoxAt.reaches (hb : b.length < 2 ^ 63) (h : BoxAt b p) : Reaches (boxStep b) 0 p :=
  Relation.ReflTransGen.mono (fun _ _ hstep => And.left hstep) _ _ (h.path hb)

/-- On a path that goes forward to the end of the walk, all steps go forward. -/
theorem forward_of_path {s : Nat}
    (hpath : Relation.ReflTransGen
      (fun p p' => Follows (boxStep b) p p' ∧ p' = p + (boxHeader b p).1) s p)
    (hend : ∀ p', ¬ Follows (boxStep b) p p') {p₁ p₂ : Nat} (hreach : Reaches (boxStep b) s p₁)
    (hstep : Follows (boxStep b) p₁ p₂) : p₂ = p₁ + (boxHeader b p₁).1 := by
  induction hpath using Relation.ReflTransGen.head_induction_on with
  | refl =>
      obtain rfl | ⟨p', hfirst, -⟩ := Relation.ReflTransGen.cases_head hreach
      · exact absurd hstep (hend p₂)
      · exact absurd hfirst (hend p')
  | head hfirst _ ih =>
      have hsame := hfirst.1
      rw [Follows] at hsame
      obtain rfl | ⟨p', hother, hrest⟩ := Relation.ReflTransGen.cases_head hreach
      · rw [Follows, hsame] at hstep
        cases hstep
        exact hfirst.2
      · rw [Follows, hsame] at hother
        cases hother
        exact ih hrest

/-- A walk that ends at a box has gone forward. -/
theorem BoxAt.forward (hb : b.length < 2 ^ 63) (h : BoxAt b p) (htype : isJp2c b p = true) :
    Forward b := by
  intro p₁ p₂ hreach hstep
  refine forward_of_path (h.path hb) (fun p' hfollows => ?_) hreach hstep
  rw [(follows_iff.mp hfollows).2.1] at htype
  cases htype

/-- The walk ends at one box. -/
theorem loop_boxStep (h : Reaches (boxStep b) 0 p) (hin : p + 8 ≤ b.length)
    (htype : isJp2c b p = true) {rounds : Nat} {found : Option Nat}
    (hloop : loop (boxStep b) rounds 0 = some found) : found = some p :=
  ((step_of_loop hloop h).2 _ (boxStep_eq_iff.mpr ⟨hin, htype, rfl⟩)).symm

end Walk

section Whole

variable {b : StdString}

theorem withoutTlm_of_soc (hsoc : 2 ≤ b.1.length ∧ isSoc b.1 0 = true) (rounds : Nat) :
    withoutTlm rounds b = some (stripped b.1 ⟨0, none⟩) := by
  rw [withoutTlm, locate, if_pos hsoc]
  rfl

theorem withoutTlm_of_box (hsoc : ¬ (2 ≤ b.1.length ∧ isSoc b.1 0 = true)) (rounds : Nat) :
    withoutTlm rounds b = (loop (boxStep b.1) rounds 0).map fun found =>
      ((found.map (placeIn b.1)).map (stripped b.1)).getD b.1 := by
  rw [withoutTlm, locate, if_neg hsoc, Option.map_map]
  rfl

/-- In a string that is a codestream the TLM segments are taken out. -/
theorem removesTlm_of_soc (hsoc : 2 ≤ b.1.length ∧ isSoc b.1 0 = true) : RemovesTlm b := by
  refine ⟨_, ⟨0, withoutTlm_of_soc hsoc 0⟩, fun hne => ?_⟩
  have hsome : ∃ segs q, HasTlm b.1 0 segs q := by
    by_contra hnone
    refine hne (stripped_of_not_hasTlm fun segs q h => hnone ⟨segs, q, h⟩)
  obtain ⟨segs, q, hin, hstart, hheader, htlms⟩ := hsome
  exact .raw hsoc hheader (stripped_of_header hin hstart hheader htlms)

/-- In the box the TLM segments are taken out, if the walk has gone forward and the box holds
them. -/
theorem stripped_of_box {p q : Nat} {segs : List (Nat × Nat)}
    (hsoc : ¬ (2 ≤ b.1.length ∧ isSoc b.1 0 = true)) (hbox : BoxAt b.1 p)
    (hin : p + 8 ≤ b.1.length) (htype : isJp2c b.1 p = true)
    (htlm : HasTlm b.1 (placeIn b.1 p).cs segs q)
    (hholds : (boxHeader b.1 p).1 = 0 ∨
      ∀ seg ∈ tlms b.1 segs, seg.1 + seg.2 ≤ p + (boxHeader b.1 p).1) :
    Stripped b.1 (stripped b.1 (placeIn b.1 p)) := by
  obtain ⟨hcs, hstart, hheader, htlms⟩ := htlm
  have hout := stripped_of_header hcs hstart hheader htlms
  cases hat : (placeIn b.1 p).boxLenAt with
  | none =>
      rw [hat] at hout
      exact .toEnd hsoc hbox hin htype (boxLenAt_eq_none_iff.mp hat) hheader hout
  | some field =>
      obtain ⟨i, k⟩ := field
      obtain ⟨hfield, hvalue, hk, hne, -⟩ := field_of_placeIn hin hat
      have hall := hholds.resolve_left hne
      have hlow : (placeIn b.1 p).cs + 2 ≤ p + (boxHeader b.1 p).1 := by
        obtain ⟨seg, hseg⟩ := List.exists_mem_of_ne_nil _ htlms
        have hstartSeg := (hheader.bounds seg (List.mem_of_mem_filter hseg)).1
        have hendSeg := hall seg hseg
        omega
      obtain ⟨hle, hdrop⟩ := drop_cut hcs hheader hlow hall
      have hcsEq : p ≤ (placeIn b.1 p).cs := Nat.le_add_right _ _
      have hlt : (boxHeader b.1 p).1 < 2 ^ 64 := by
        have hbytes : (slice b.1 i k).length ≤ 8 := by
          rw [slice, List.length_take]
          omega
        have hbound := fromBe_lt (slice b.1 i k)
        have hpow : 256 ^ (slice b.1 i k).length ≤ 256 ^ 8 :=
          Nat.pow_le_pow_right (by decide) hbytes
        rw [← hvalue, be]
        calc fromBe (slice b.1 i k) < 256 ^ (slice b.1 i k).length := hbound
          _ ≤ 256 ^ 8 := hpow
          _ = 2 ^ 64 := by norm_num
      have hlength := length_cut hcs hheader
      have hkept := hheader.length_kept
      have hend := hheader.end_le (by omega)
      have hlowered : lowered (cut b.1 (placeIn b.1 p).cs segs q) i k (removed b.1 segs) =
          setBe (cut b.1 (placeIn b.1 p).cs segs q) i k
            ((boxHeader b.1 p).1 - removed b.1 segs) := by
        rw [lowered, be_cut hcs (by omega), hvalue]
        congr 1
        omega
      rw [hat, Option.map_some, Option.getD_some, hlowered] at hout
      have hbefore := (removedBefore_eq_iff hheader _).mpr hall
      have hlenEq : (boxHeader b.1 p).1 - removed b.1 segs + removed b.1 segs =
          (boxHeader b.1 p).1 := by omega
      refine .inBox hsoc hbox hin htype hat hheader hlenEq (by omega) hout ?_
      rw [hout, drop_setBe (by omega) _ (by omega), ← hdrop]
      congr 1
      omega

/-- The TLM segments are taken out, and nothing else happens, exactly if the walk over the boxes
comes to no box twice and, where it ends at a codestream with TLM segments, has gone forward to a
box that holds them. -/
theorem removesTlm_iff (b : StdString) : RemovesTlm b ↔ Walks b.1 := by
  by_cases hsoc : 2 ≤ b.1.length ∧ isSoc b.1 0 = true
  · exact iff_of_true (removesTlm_of_soc hsoc) (Or.inl hsoc)
  rw [Walks, or_iff_right hsoc]
  constructor
  · rintro ⟨out, ⟨rounds, hout⟩, hstripped⟩
    rw [withoutTlm_of_box hsoc] at hout
    obtain ⟨found, hloop, hout⟩ := Option.map_eq_some_iff.mp hout
    constructor
    · intro p hreach hback
      rw [loop_eq_none_of_cycle hreach hback] at hloop
      cases hloop
    · rintro p hreach hin htype segs q ⟨hcs, hstart, hheader, htlms⟩
      obtain rfl := loop_boxStep hreach hin htype hloop
      have hne : out ≠ b.1 := by
        rw [← hout]
        refine stripped_ne hcs hstart hheader htlms fun field hfield => ?_
        exact (field_of_placeIn hin hfield).1
      -- the box that is found is the one that the walk without bounds finds
      have hsame : ∀ p', BoxAt b.1 p' → p' + 8 ≤ b.1.length → isJp2c b.1 p' = true → p' = p := by
        intro p' hbox hin' htype'
        have hfound := loop_boxStep (hbox.reaches b.2) hin' htype' hloop
        exact (Option.some_inj.mp hfound).symm
      cases hstripped hne with
      | raw hsoc' => exact absurd hsoc' hsoc
      | toEnd _ hbox hin' htype' hlen =>
          obtain rfl := hsame _ hbox hin' htype'
          exact ⟨hbox.forward b.2 htype', Or.inl hlen⟩
      | inBox _ hbox hin' htype' _ hheader' hlen hplace =>
          obtain rfl := hsame _ hbox hin' htype'
          obtain ⟨rfl, rfl⟩ := hheader.unique hheader'
          refine ⟨hbox.forward b.2 htype', Or.inr ?_⟩
          exact (removedBefore_eq_iff hheader _).mp (by omega)
  · rintro ⟨hback, hwalks⟩
    obtain ⟨rounds, found, hloop⟩ := exists_loop_eq_some (fun _ _ => boxStep_isSome)
      (fun _ hreach => le_of_reaches hreach) hback
    refine ⟨_, ⟨rounds, by rw [withoutTlm_of_box hsoc, hloop, Option.map_some]⟩, fun hne => ?_⟩
    cases found with
    | none => exact absurd rfl hne
    | some p =>
        obtain ⟨p', hreach, hresult⟩ := reaches_of_loop hloop
        obtain ⟨hin, htype, rfl⟩ := boxStep_eq_iff.mp hresult
        have hsome : ∃ segs q, HasTlm b.1 (placeIn b.1 p).cs segs q := by
          by_contra hnone
          exact hne (stripped_of_not_hasTlm fun segs q h => hnone ⟨segs, q, h⟩)
        obtain ⟨segs, q, htlm⟩ := hsome
        obtain ⟨hforward, hholds⟩ := hwalks p hreach hin htype segs q htlm
        exact stripped_of_box hsoc (Forward.boxAt hforward hreach) hin htype htlm hholds

end Whole

/-- Two boxes, the second one with a length that leads back to the first. -/
def roundTrip : StdString :=
  ⟨[0, 0, 0, 8, 0x66, 0x72, 0x65, 0x65, 0, 0, 0, 1, 0x66, 0x72, 0x65, 0x65, 0xFF, 0xFF, 0xFF, 0xFF,
    0xFF, 0xFF, 0xFF, 0xF8], by decide⟩

/-- The walk does not end. -/
theorem roundTrip_endless : ¬ RemovesTlm roundTrip := by
  have hsoc : ¬ (2 ≤ roundTrip.1.length ∧ isSoc roundTrip.1 0 = true) := by decide
  have hfirst : boxStep roundTrip.1 0 = some (.inr 8) := by decide
  have hsecond : boxStep roundTrip.1 8 = some (.inr 0) := by decide
  rintro ⟨out, ⟨rounds, hout⟩, -⟩
  rw [withoutTlm_of_box hsoc,
    loop_eq_none_of_cycle .refl (Relation.TransGen.head hfirst (.single hsecond))] at hout
  cases hout

end Kura.Engine.Jpx
