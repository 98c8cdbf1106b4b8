import Kura.Engine.MeshRecords

/-!
# What new colours do to a mesh shading

Records are padded to whole bytes. The stream that is written is read with the
same records in their new colours if the attempt that is taken cuts the data
where the padding is. For all types but free-form triangles the attempt without
padding comes first, and it is taken whenever the data comes out even.
-/

namespace Kura.Engine.Mesh

open Kura.Base

/-- A map to colours whose components are between 0 and 1. -/
def IsColourMap (conv : List ℚ → Option (Nat → ℚ)) : Prop :=
  ∀ vs out, conv vs = some out → ∀ k, 0 ≤ out k ∧ out k ≤ 1

/-- The bits that pad some bits to whole bytes. -/
def padLen (n : Nat) : Nat := (8 - n % 8) % 8

theorem dvd_add_padLen (n : Nat) : 8 ∣ n + padLen n := by
  unfold padLen
  omega

theorem padLen_lt (n : Nat) : padLen n < 8 := Nat.mod_lt _ (by decide)

theorem padding_eq (n : Nat) : padding n = List.replicate (padLen n) false := rfl

namespace Layout

variable (l : Layout)

/-- The padding rule: each record is padded to whole bytes. -/
inductive Padded (comps : Nat) : List Record → List Bool → Prop
  | nil : Padded comps [] []
  | record {r : Record} {rs : List Record} {pad rest : List Bool} (hfits : l.Fits comps r)
      (hpad : pad.length = padLen (l.size comps r.flag)) (hrest : Padded comps rs rest) :
      Padded comps (r :: rs) (l.recordBits r ++ (pad ++ rest))

/-- The layout of the stream that is written. -/
def renewed : Layout :=
  { l with n := l.dn, decode := l.decode.take 4 ++ (List.replicate l.dn [0, 1]).flatten }

variable (conv : List ℚ → Option (Nat → ℚ))

/-- A colour of the new stream is the image of one of the old, rounded to its width. -/
def ColourKept (c c' : List Nat) : Prop :=
  ∃ out, conv (l.valuesOf c) = some out ∧
    l.renewed.valuesOf c' = (List.range l.dn).map fun k => (l.level (out k) : ℚ) / l.maxComp

/-- A record of the new stream has the flag, the points and the image of the colours of the old. -/
structure RecordKept (r r' : Record) : Prop where
  flag : r'.flag = r.flag
  points : r'.points = r.points
  colours : List.Forall₂ (l.ColourKept conv) r.colours r'.colours

/-- Two records with the same flag, points and values of the colours. -/
structure Alike (u r : Record) : Prop where
  flag : u.flag = r.flag
  points : u.points = r.points
  colours : List.Forall₂ (fun c d => l.valuesOf c = l.valuesOf d) u.colours r.colours

/-- The bits of a record with its new colours. -/
def newSize (r : Record) : Nat := l.size l.dn r.flag

/-- Written one after the other, some records are where the padding rule expects others that are
like them; what is between them is taken for padding. -/
inductive Picks : List Record → List Record → Prop
  | nil : Picks [] []
  | last {u r : Record} {us : List Record} (halike : l.Alike u r)
      (hroom : (us.map l.newSize).sum ≤ padLen (l.newSize r)) : Picks (u :: us) [r]
  | record {u r r' : Record} {skipped us rs : List Record} (halike : l.Alike u r)
      (hskip : (skipped.map l.newSize).sum = padLen (l.newSize r)) (hpicks : Picks us (r' :: rs)) :
      Picks (u :: (skipped ++ us)) (r :: r' :: rs)

end Layout

/-- A shading keeps its geometry: the stream that is written is read, under the padding rule, as
the same records in their new colours; and if none is written, nothing has changed. -/
def Kept (m : Shading) (n dn : Nat) (conv : List ℚ → Option (Nat → ℚ)) (rs : List Record) : Prop :=
  if (m.meshVertices n dn conv).1 then
    ∃ l data rs', m.layout? n dn = some l ∧
      (m.meshVertices n dn conv).2 =
        { m with decode := some l.renewed.decode, data := some data } ∧
      (m.meshVertices n dn conv).2.layout? dn dn = some l.renewed ∧
      l.renewed.Padded dn rs' (byteBits data) ∧ List.Forall₂ (l.RecordKept conv) rs rs'
  else (m.meshVertices n dn conv).2 = m

theorem exists_left {α β : Type*} {R : α → β → Prop} {as : List α} {bs : List β}
    (h : List.Forall₂ R as bs) : ∀ b ∈ bs, ∃ a ∈ as, R a b := by
  induction h with
  | nil => exact fun b hb => absurd hb List.not_mem_nil
  | @cons a b as bs hab _ ih =>
      intro c hc
      rcases List.mem_cons.mp hc with rfl | hc
      · exact ⟨a, List.mem_cons_self, hab⟩
      · obtain ⟨d, hd, hdc⟩ := ih c hc
        exact ⟨d, List.mem_cons_of_mem _ hd, hdc⟩

theorem exists_append {α β : Type*} {R : α → β → Prop} {as as' : List α} {bs : List β}
    (h : List.Forall₂ R (as ++ as') bs) : ∃ bs₁ bs₂, List.Forall₂ R as bs₁ ∧
      List.Forall₂ R as' bs₂ ∧ bs = bs₁ ++ bs₂ := by
  induction as generalizing bs with
  | nil => exact ⟨[], bs, .nil, h, rfl⟩
  | cons a as ih =>
      obtain ⟨b, bs, hab, hrest, rfl⟩ := List.forall₂_cons_left_iff.mp h
      obtain ⟨bs₁, bs₂, h₁, h₂, rfl⟩ := ih hrest
      exact ⟨b :: bs₁, bs₂, .cons hab h₁, h₂, rfl⟩

namespace Layout

variable {l : Layout} {conv : List ℚ → Option (Nat → ℚ)} {comps : Nat} {r r' : Record}
  {rs rs' us us' : List Record}

theorem Padded.dvd {bs : List Bool} (h : l.Padded comps rs bs) : 8 ∣ bs.length := by
  induction h with
  | nil => exact dvd_zero 8
  | @record r rs pad rest hfits hpad _ ih =>
      rw [List.length_append, List.length_append, hfits.length_recordBits, hpad, ← Nat.add_assoc]
      exact dvd_add (dvd_add_padLen _) ih

/-- Padded records are read by the attempt that aligns each record. -/
theorem Padded.cut (hbpc : 0 < l.bpc) {bs : List Bool} (h : l.Padded l.n rs bs) :
    l.Cut true rs bs := by
  induction h with
  | nil => exact .stop (Or.inl (by decide))
  | @record r rs pad rest hfits hpad hrest ih =>
      have hdvd := hrest.dvd
      have hlt := padLen_lt (l.size l.n r.flag)
      have hmod : (pad ++ rest).length % 8 = pad.length := by
        rw [List.length_append, hpad]
        omega
      have halign : alignRest true (pad ++ rest) = rest := by
        rw [alignRest, if_pos rfl, hmod, List.drop_left]
      refine .record hfits ?_ (by rw [halign]; exact ih)
      have hpos := headSize_pos hbpc r.flag
      have hwhole := dvd_add_padLen (l.size l.n r.flag)
      rw [List.length_append, List.length_append, hfits.length_recordBits, hpad]
      rw [size] at hwhole ⊢
      omega

theorem Cut.fits {al : Bool} {bs : List Bool} (h : l.Cut al us bs) : ∀ u ∈ us, l.Fits l.n u := by
  induction h with
  | stop => exact fun u hu => absurd hu List.not_mem_nil
  | record hfits _ _ ih =>
      intro u hu
      rcases List.mem_cons.mp hu with rfl | hu
      · exact hfits
      · exact ih u hu

theorem level_lt {v : ℚ} (h : v ≤ 1) : l.level v < 2 ^ l.bpcomp := by
  refine (Nat.floor_lt' (by positivity)).mpr ?_
  have hmax : (0 : ℚ) ≤ l.maxComp := by
    rw [maxComp, sub_nonneg]
    exact one_le_pow₀ (by norm_num)
  have hle : v * l.maxComp ≤ 1 * l.maxComp := mul_le_mul_of_nonneg_right h hmax
  rw [one_mul] at hle
  rw [maxComp] at hle ⊢
  push_cast
  linarith

/-- With its new colours a record fits the widths. -/
theorem Recoloured.fits (hconv : IsColourMap conv) (h : l.Recoloured conv r r')
    (hfits : l.Fits comps r) : l.Fits l.dn r' := by
  refine ⟨by rw [h.flag]; exact hfits.flag, by rw [h.points, h.flag]; exact hfits.numPoints,
    by rw [h.points]; exact hfits.point, ?_, fun c hc => ?_⟩
  · rw [h.flag, ← hfits.numColours]
    exact h.colours.length_eq.symm
  · obtain ⟨d, -, out, hout, rfl⟩ := exists_left h.colours c hc
    refine ⟨by rw [List.length_map, List.length_range], fun v hv => ?_⟩
    obtain ⟨k, -, rfl⟩ := List.mem_map.mp hv
    exact level_lt (hconv _ _ hout k).2

theorem newSize_eq (hconv : IsColourMap conv) (h : l.Recoloured conv r r')
    (hfits : l.Fits comps r) :
    (l.recordBits r').length = l.newSize r := by
  rw [(h.fits hconv hfits).length_recordBits, newSize, h.flag]

/-- The attempt that aligns writes padded records. -/
theorem padded_written (hconv : IsColourMap conv) (hfits : ∀ u ∈ us, l.Fits l.n u)
    (h : List.Forall₂ (l.Recoloured conv) us us') (out : List Bool) (hout : 8 ∣ out.length) :
    ∃ bs, l.written true out us' = out ++ bs ∧ l.Padded l.dn us' bs := by
  induction h generalizing out with
  | nil => exact ⟨[], (List.append_nil _).symm, .nil⟩
  | @cons u u' us us' hu _ ih =>
      have hfits' := hu.fits hconv (hfits u List.mem_cons_self)
      have hmod : padding (out ++ l.recordBits u').length =
          padding (l.size l.dn u'.flag) := by
        rw [List.length_append, hfits'.length_recordBits, padding_eq, padding_eq, padLen, padLen]
        congr 2
        omega
      obtain ⟨bs, hbs, hpadded⟩ := ih (fun v hv => hfits v (List.mem_cons_of_mem _ hv))
        (out ++ l.recordBits u' ++ padding (out ++ l.recordBits u').length) (by
          rw [List.length_append, padding_eq, List.length_replicate]
          exact dvd_add_padLen _)
      refine ⟨l.recordBits u' ++ (padding (l.size l.dn u'.flag) ++ bs), ?_,
        .record hfits' (by rw [padding_eq, List.length_replicate]) hpadded⟩
      rw [written, if_pos rfl, hbs, hmod, List.append_assoc, List.append_assoc]

theorem written_false (out : List Bool) (rs : List Record) :
    l.written false out rs = out ++ rs.flatMap l.recordBits := by
  induction rs generalizing out with
  | nil => exact (List.append_nil _).symm
  | cons r rs ih =>
      rw [written, if_neg Bool.false_ne_true, ih, List.flatMap_cons, List.append_assoc]

theorem Alike.recoloured {u u' : Record} (h : l.Alike u r) (hu : l.Recoloured conv u u') :
    l.Recoloured conv r u' := by
  have hcolours : ∀ {cs ds cs' : List (List Nat)},
      List.Forall₂ (fun c d => l.valuesOf c = l.valuesOf d) cs ds →
      List.Forall₂ (l.Mapped conv) cs cs' → List.Forall₂ (l.Mapped conv) ds cs' := by
    intro cs ds cs' halike
    induction halike generalizing cs' with
    | nil => exact id
    | @cons c d cs ds hcd _ ih =>
        rintro (_ | ⟨hc, hrest⟩)
        refine .cons ?_ (ih hrest)
        rw [Mapped, ← hcd]
        exact hc
  exact ⟨hu.flag.trans h.flag, hu.points.trans h.points, hcolours h.colours hu.colours⟩

theorem length_flatMap_recoloured (hconv : IsColourMap conv) (hfits : ∀ u ∈ us, l.Fits l.n u)
    (h : List.Forall₂ (l.Recoloured conv) us us') :
    (us'.flatMap l.recordBits).length = (us.map l.newSize).sum := by
  induction h with
  | nil => rfl
  | @cons u u' us us' hu _ ih =>
      rw [List.flatMap_cons, List.length_append, newSize_eq hconv hu (hfits u List.mem_cons_self),
        ih fun v hv => hfits v (List.mem_cons_of_mem _ hv), List.map_cons, List.sum_cons]

/-- If the records are where they are expected, the padding rule finds them. -/
theorem Picks.padded (h : l.Picks us rs) (hconv : IsColourMap conv) (hfits : ∀ u ∈ us, l.Fits l.n u)
    (hall : List.Forall₂ (l.Recoloured conv) us us') {t : Nat} (ht : t < 8)
    (hdvd : 8 ∣ (us.map l.newSize).sum + t) :
    ∃ rs', l.Padded l.dn rs' (us'.flatMap l.recordBits ++ List.replicate t false) ∧
      List.Forall₂ (l.Recoloured conv) rs rs' := by
  induction h generalizing us' with
  | nil =>
      cases hall
      have hzero : t = 0 := by
        rw [List.map_nil, List.sum_nil] at hdvd
        omega
      rw [hzero]
      exact ⟨[], .nil, .nil⟩
  | @last u r us halike hroom =>
      obtain ⟨u', us', hu, hus, rfl⟩ := List.forall₂_cons_left_iff.mp hall
      have hr := halike.recoloured hu
      have hfits' := hu.fits hconv (hfits u List.mem_cons_self)
      have hlen :=
          length_flatMap_recoloured hconv (fun v hv => hfits v (List.mem_cons_of_mem _ hv)) hus
      have hsize : l.newSize u = l.newSize r := by rw [newSize, newSize, halike.flag]
      have hpad : (us'.flatMap l.recordBits ++ List.replicate t false ++ []).length =
          padLen (l.size l.dn u'.flag) := by
        rw [List.map_cons, List.sum_cons, hsize] at hdvd
        rw [List.append_nil, List.length_append, List.length_replicate, hlen, hr.flag]
        rw [← newSize]
        unfold padLen at hroom ⊢
        omega
      rw [List.append_nil] at hpad
      refine ⟨[u'], ?_, .cons hr .nil⟩
      rw [List.flatMap_cons, List.append_assoc, ← List.append_nil (us'.flatMap l.recordBits ++ _)]
      exact .record hfits' hpad .nil
  | @record u r r' skipped us rs halike hskip hpicks ih =>
      obtain ⟨u', ws, hu, hws, rfl⟩ := List.forall₂_cons_left_iff.mp hall
      obtain ⟨skipped', us', hskipped, hus, rfl⟩ := exists_append hws
      have hr := halike.recoloured hu
      have hfits' := hu.fits hconv (hfits u List.mem_cons_self)
      have hskippedFits : ∀ v ∈ skipped, l.Fits l.n v := fun v hv =>
        hfits v (List.mem_cons_of_mem _ (List.mem_append_left _ hv))
      have husFits : ∀ v ∈ us, l.Fits l.n v := fun v hv =>
        hfits v (List.mem_cons_of_mem _ (List.mem_append_right _ hv))
      have hsize : l.newSize u = l.newSize r := by rw [newSize, newSize, halike.flag]
      have hwhole := dvd_add_padLen (l.newSize r)
      have hdvd' : 8 ∣ (us.map l.newSize).sum + t := by
        rw [List.map_cons, List.sum_cons, List.map_append, List.sum_append, hsize, hskip] at hdvd
        omega
      obtain ⟨rs', hpadded, hrs⟩ := ih husFits hus hdvd'
      refine ⟨u' :: rs', ?_, .cons hr hrs⟩
      rw [List.flatMap_cons, List.flatMap_append, List.append_assoc, List.append_assoc]
      refine .record hfits' ?_ hpadded
      rw [length_flatMap_recoloured hconv hskippedFits hskipped, hskip, hr.flag]
      rfl

/-- An attempt without padding that is over has written what is read under the padding rule. -/
theorem padded_of_picks (hconv : IsColourMap conv) (hfits : ∀ u ∈ us, l.Fits l.n u)
    (hall : List.Forall₂ (l.Recoloured conv) us us') (h : l.Picks us rs) :
    ∃ rs', l.Padded l.dn rs' (l.written false [] us' ++ padding (l.written false [] us').length) ∧
      List.Forall₂ (l.Recoloured conv) rs rs' := by
  rw [written_false, List.nil_append, padding_eq]
  refine h.padded hconv hfits hall (padLen_lt _) ?_
  rw [length_flatMap_recoloured hconv hfits hall]
  exact dvd_add_padLen _

/-- A record in the colours of a map that has images for all of them. -/
def image (l : Layout) (g : List ℚ → Nat → ℚ) (r : Record) : Record :=
  { r with colours := r.colours.map fun c => (List.range l.dn).map fun k =>
    l.level (g (l.valuesOf c) k) }

theorem recoloured_image (g : List ℚ → Nat → ℚ) (r : Record) :
    l.Recoloured (fun vs => some (g vs)) r (l.image g r) := by
  refine ⟨rfl, rfl, ?_⟩
  rw [image, List.forall₂_map_right_iff, List.forall₂_same]
  exact fun c _ => ⟨g (l.valuesOf c), rfl, rfl⟩

theorem eq_image {g : List ℚ → Nat → ℚ} (h : l.Recoloured (fun vs => some (g vs)) r r') :
    r' = l.image g r := by
  have hcolours : r'.colours = r.colours.map fun c =>
      (List.range l.dn).map fun k => l.level (g (l.valuesOf c) k) := by
    have hall := h.colours
    generalize r.colours = cs at hall ⊢
    generalize r'.colours = cs' at hall ⊢
    induction hall with
    | nil => rfl
    | cons hc _ ih =>
        obtain ⟨out, hout, rfl⟩ := hc
        rw [Option.some.injEq] at hout
        rw [ih, List.map_cons, hout]
  cases r'
  simp only at hcolours
  rw [image, hcolours, ← h.flag, ← h.points]

/-- The components of a map are between 0 and 1. -/
def IsUnit (g : List ℚ → Nat → ℚ) : Prop := ∀ vs k, 0 ≤ g vs k ∧ g vs k ≤ 1

theorem IsUnit.isColourMap {g : List ℚ → Nat → ℚ} (h : IsUnit g) :
    IsColourMap fun vs => some (g vs) := by
  intro vs out hout k
  rw [Option.some.injEq] at hout
  rw [← hout]
  exact h vs k

theorem fits_image {g : List ℚ → Nat → ℚ} (hg : IsUnit g) (h : l.Fits comps r) :
    l.Fits l.dn (l.image g r) := (recoloured_image g r).fits hg.isColourMap h

/-- The map to the lowest or to the highest colour. -/
def constant (c : Bool) : List ℚ → Nat → ℚ := fun _ _ => if c then 1 else 0

theorem isUnit_constant (c : Bool) : IsUnit (constant c) := by
  intro vs k
  cases c <;> simp [constant]

theorem level_zero : l.level 0 = 0 := by
  rw [level, zero_mul, zero_add]
  norm_num

theorem level_one : l.level 1 = 2 ^ l.bpcomp - 1 := by
  have hcast : l.maxComp = ((2 ^ l.bpcomp - 1 : Nat) : ℚ) := by
    rw [maxComp, Nat.cast_sub Nat.one_le_two_pow]
    push_cast
    rfl
  rw [level, one_mul, hcast]
  exact (Nat.floor_eq_iff (by positivity)).mpr ⟨by linarith, by linarith⟩

theorem flatMap_replicate {α β : Type*} {f : α → List β} {b : β} {n : Nat} {as : List α}
    (h : ∀ a ∈ as, f a = List.replicate n b) : as.flatMap f = List.replicate (as.length * n) b := by
  induction as with
  | nil => simp
  | cons a as ih =>
      rw [List.flatMap_cons, h a List.mem_cons_self, ih fun c hc => h c (List.mem_cons_of_mem _ hc),
        List.length_cons, Nat.succ_mul, Nat.add_comm, List.replicate_add]

/-- The bits of the colours that a record has for a constant map. -/
def colourSize (l : Layout) (flag : Nat) : Nat := l.colours flag * (l.dn * l.bpcomp)

/-- A record of one constant colour, bit by bit. -/
theorem recordBits_constant (c : Bool) (h : l.Fits comps r) :
    l.recordBits (l.image (constant c) r) =
      l.headBits r ++ List.replicate (l.colourSize r.flag) c := by
  have hcomp : ∀ vs k, toBits l.bpcomp (l.level (constant c vs k)) = List.replicate l.bpcomp c := by
    intro vs k
    rw [constant]
    cases c with
    | true => rw [if_pos rfl, level_one, toBits_allOnes]
    | false => rw [if_neg Bool.false_ne_true, level_zero, toBits_zero]
  have hcolour : ∀ vs, l.colourBits ((List.range l.dn).map fun k => l.level (constant c vs k)) =
      List.replicate (l.dn * l.bpcomp) c := by
    intro vs
    rw [colourBits, List.flatMap_map, flatMap_replicate fun _ _ => hcomp vs _, List.length_range]
  have hall : (l.image (constant c) r).colours.flatMap l.colourBits =
      List.replicate (l.colourSize r.flag) c := by
    rw [image, List.flatMap_map, flatMap_replicate fun _ _ => hcolour _, h.numColours]
    rfl
  rw [recordBits, hall]
  rfl

section Misplaced

variable (hbpc : 0 < l.bpc) (hbpcomp : 0 < l.bpcomp) (hdn : 0 < l.dn)

include hbpcomp hdn in
theorem colourSize_pos (flag : Nat) : 0 < l.colourSize flag := by
  have hcolours : 0 < l.colours flag := by
    unfold colours
    split_ifs <;> decide
  exact Nat.mul_pos hcolours (Nat.mul_pos hdn hbpcomp)

theorem newSize_eq_add (r : Record) : l.newSize r = l.headSize r.flag + l.colourSize r.flag := rfl

/-- Head sizes differ by nothing or by a whole byte at least. -/
theorem headSize_far (hbpc : 0 < l.bpc) {f g d : Nat} (hd : 0 < d) (hd' : d < 8) :
    l.headSize f ≠ l.headSize g + d := by
  have hpoints : l.points f ≤ l.points g ∨ l.points g + 4 ≤ l.points f := by
    unfold points
    split_ifs <;> simp
  intro h
  rw [headSize, headSize] at h
  rcases hpoints with hle | hle
  · have hmul := Nat.mul_le_mul_right (2 * l.bpc) hle
    omega
  · have hmul := Nat.mul_le_mul_right (2 * l.bpc) hle
    rw [Nat.add_mul] at hmul
    omega

/-- A bit of the head is the same for both constant maps, a bit of the colours is not. -/
theorem getElem?_constant (h : l.Fits comps r) (c : Bool) (q : Nat) :
    (q < l.headSize r.flag →
      (l.recordBits (l.image (constant c) r))[q]? = (l.headBits r)[q]?) ∧
    (l.headSize r.flag ≤ q → q < l.newSize r →
      (l.recordBits (l.image (constant c) r))[q]? = some c) := by
  rw [recordBits_constant c h]
  constructor
  · intro hq
    exact List.getElem?_append_left (by rwa [h.length_headBits])
  · intro hle hlt
    rw [newSize_eq_add] at hlt
    rw [List.getElem?_append_right (by rwa [h.length_headBits]), h.length_headBits,
      List.getElem?_replicate_of_lt (by omega)]

include hbpc hbpcomp hdn in
/-- A record does not begin behind the first bit of another one, whatever the colours are. -/
theorem not_misplaced {v : Record} (hv : l.Fits comps v) (hr : l.Fits comps r) {d : Nat}
    (hd : 0 < d) (hd' : d < 8) (hdv : d < l.newSize v) (h : ∀ c, ∃ x y,
      (l.recordBits (l.image (constant c) v)).drop d ++ x =
        l.recordBits (l.image (constant c) r) ++ y) : False := by
  have hlen : ∀ c, (l.recordBits (l.image (constant c) v)).length = l.newSize v := fun c =>
    (fits_image (isUnit_constant c) hv).length_recordBits
  have hlen' : ∀ c, (l.recordBits (l.image (constant c) r)).length = l.newSize r := fun c =>
    (fits_image (isUnit_constant c) hr).length_recordBits
  have hbit : ∀ c q, d + q < l.newSize v → q < l.newSize r →
      (l.recordBits (l.image (constant c) v))[d + q]? =
        (l.recordBits (l.image (constant c) r))[q]? := by
    intro c q hq hq'
    obtain ⟨x, y, hxy⟩ := h c
    have hget := congrArg (·[q]?) hxy
    rwa [List.getElem?_append_left (by rw [List.length_drop, hlen]; omega), List.getElem?_drop,
      List.getElem?_append_left (by rwa [hlen'])] at hget
  have hpos := colourSize_pos hbpcomp hdn v.flag
  have hpos' := colourSize_pos hbpcomp hdn r.flag
  have hhead := headSize_pos hbpc r.flag
  have hsize := newSize_eq_add (l := l) v
  have hsize' := newSize_eq_add (l := l) r
  -- One of the two bits at a place depends on the map and the other one does not.
  by_cases hin : l.headSize v.flag ≤ d
  · have hbits : ∀ c, some c = (l.headBits r)[0]? := fun c => by
      rw [← (getElem?_constant hr c 0).1 (by omega), ← hbit c 0 (by omega) (by omega),
        (getElem?_constant hv c _).2 (by omega) (by omega)]
    cases (hbits true).trans (hbits false).symm
  · rcases Nat.lt_trichotomy (l.headSize v.flag) (l.headSize r.flag + d) with hlt | heq | hgt
    · have hbits : ∀ c, some c = (l.headBits r)[l.headSize v.flag - d]? := fun c => by
        rw [← (getElem?_constant hr c _).1 (by omega), ← hbit c _ (by omega) (by omega),
          (getElem?_constant hv c _).2 (by omega) (by omega)]
      cases (hbits true).trans (hbits false).symm
    · exact headSize_far hbpc hd hd' heq
    · have hbits : ∀ c, some c = (l.headBits v)[d + l.headSize r.flag]? := fun c => by
        rw [← (getElem?_constant hv c _).1 (by omega), hbit c _ (by omega) (by omega),
          (getElem?_constant hr c _).2 (by omega) (by omega)]
      cases (hbits true).trans (hbits false).symm

end Misplaced

/-- A place in a sequence of records is between two of them, in one of them, or behind all. -/
theorem exists_split (size : Record → Nat) (us : List Record) (p : Nat) :
    (∃ skipped us', us = skipped ++ us' ∧ (skipped.map size).sum = p) ∨
      (∃ skipped v us' d, us = skipped ++ v :: us' ∧ (skipped.map size).sum + d = p ∧ 0 < d ∧
        d < size v) ∨ (us.map size).sum < p := by
  induction us generalizing p with
  | nil =>
      rcases Nat.eq_zero_or_pos p with rfl | hp
      · exact Or.inl ⟨[], [], rfl, rfl⟩
      · exact Or.inr (Or.inr hp)
  | cons u us ih =>
      by_cases hlt : p < size u
      · rcases Nat.eq_zero_or_pos p with rfl | hp
        · exact Or.inl ⟨[], u :: us, rfl, rfl⟩
        · exact Or.inr (Or.inl ⟨[], u, us, p, rfl, Nat.zero_add p, hp, hlt⟩)
      · rcases ih (p - size u) with ⟨skipped, us', rfl, hsum⟩ | ⟨skipped, v, us', d,
          rfl, hsum, hd⟩ | h
        · exact Or.inl ⟨u :: skipped, us', rfl, by rw [List.map_cons, List.sum_cons, hsum]; omega⟩
        · exact Or.inr (Or.inl ⟨u :: skipped, v, us', d, rfl,
            by rw [List.map_cons, List.sum_cons]; omega, hd⟩)
        · exact Or.inr (Or.inr (by rw [List.map_cons, List.sum_cons]; omega))

/-- Colours that no map tells apart have the same values. -/
theorem values_eq_of_images (hbpcomp : 0 < l.bpcomp) (hdn : 0 < l.dn) {cs ds : List (List Nat)}
    (h : ∀ g, IsUnit g →
      cs.map (fun c => (List.range l.dn).map fun k => l.level (g (l.valuesOf c) k)) =
      ds.map fun c => (List.range l.dn).map fun k => l.level (g (l.valuesOf c) k)) :
    List.Forall₂ (fun c d => l.valuesOf c = l.valuesOf d) cs ds := by
  induction cs generalizing ds with
  | nil =>
      have hnil := h (constant true) (isUnit_constant true)
      rw [List.map_nil, eq_comm, List.map_eq_nil_iff] at hnil
      rw [hnil]
      exact .nil
  | cons c cs ih =>
      cases ds with
      | nil =>
          have hnil := h (constant true) (isUnit_constant true)
          cases hnil
      | cons d ds =>
          refine .cons ?_ (ih fun g hg => (List.cons.inj (h g hg)).2)
          by_contra hne
          set g : List ℚ → Nat → ℚ := fun vs _ => if vs = l.valuesOf c then 1 else 0 with hg
          have hunit : IsUnit g := by
            intro vs k
            simp only [hg]
            split_ifs <;> norm_num
          have hfirst := congrArg (·[0]?) (List.cons.inj (h g hunit)).1
          have hlow : l.level 0 = l.level 1 := by
            simpa [hg, Ne.symm hne, List.getElem?_replicate, hdn] using hfirst.symm
          rw [level_zero, level_one] at hlow
          have hpow : 2 ^ 1 ≤ 2 ^ l.bpcomp := Nat.pow_le_pow_right (by decide) hbpcomp
          omega

section Necessary

variable (hbpc : 0 < l.bpc) (hbpcomp : 0 < l.bpcomp) (hdn : 0 < l.dn)

include hbpcomp hdn in
/-- Zeros alone are no record in the highest colour. -/
theorem not_zeros (hr : l.Fits comps r) (y : List Bool) (t : Nat) :
    List.replicate t false ≠ l.recordBits (l.image (constant true) r) ++ y := by
  intro h
  have htrue : true ∈ List.replicate t false := by
    rw [h, recordBits_constant true hr]
    refine List.mem_append_left _ (List.mem_append_right _ ?_)
    exact List.mem_replicate.mpr ⟨(colourSize_pos hbpcomp hdn _).ne', rfl⟩
  cases (List.mem_replicate.mp htrue).2

theorem Padded.head {bits : List Bool} (h : l.Padded comps (r :: rs) bits) :
    ∃ y, bits = l.recordBits r ++ y := by
  cases h with
  | record => exact ⟨_, rfl⟩

include hbpc hbpcomp hdn in
/-- If the padding rule finds the records whatever their new colours are, they are where they are
expected. -/
theorem picks_of_padded (hus : ∀ u ∈ us, l.Fits l.n u) (hrs : ∀ r ∈ rs, l.Fits l.n r) {t : Nat}
    (h : ∀ g, IsUnit g → l.Padded l.dn (rs.map (l.image g))
      ((us.map (l.image g)).flatMap l.recordBits ++ List.replicate t false)) : l.Picks us rs := by
  induction rs generalizing us with
  | nil =>
      have hnil := h (constant true) (isUnit_constant true)
      rw [List.map_nil] at hnil
      generalize hbits : (us.map (l.image (constant true))).flatMap l.recordBits ++
        List.replicate t false = bits at hnil
      cases hnil
      cases us with
      | nil => exact .nil
      | cons u us =>
          have hlen := congrArg List.length hbits
          rw [List.map_cons, List.flatMap_cons, List.length_append, List.length_append,
            (fits_image (isUnit_constant true) (hus u List.mem_cons_self)).length_recordBits,
            size, List.length_nil] at hlen
          have hpos := headSize_pos hbpc (l.image (constant true) u).flag
          omega
  | cons r rs ih =>
      have hr := hrs r List.mem_cons_self
      -- What is behind the first record.
      have hsplit : ∀ g, IsUnit g → ∃ pad rest, pad.length = padLen (l.newSize r) ∧
          l.Padded l.dn (rs.map (l.image g)) rest ∧
          (us.map (l.image g)).flatMap l.recordBits ++ List.replicate t false =
            l.recordBits (l.image g r) ++ (pad ++ rest) := by
        intro g hg
        have hpadded := h g hg
        generalize (us.map (l.image g)).flatMap l.recordBits ++ List.replicate t false =
          bits at hpadded
        cases hpadded with
        | @record _ _ pad rest hfits hpad hrest => exact ⟨pad, rest, hpad, hrest, rfl⟩
      cases us with
      | nil =>
          obtain ⟨pad, rest, -, -, heq⟩ := hsplit (constant true) (isUnit_constant true)
          exact absurd heq (not_zeros hbpcomp hdn hr _ t)
      | cons u us =>
          have hu := hus u List.mem_cons_self
          have hus' : ∀ v ∈ us, l.Fits l.n v := fun v hv => hus v (List.mem_cons_of_mem _ hv)
          have hfirst : ∀ g, IsUnit g → l.image g u = l.image g r ∧ ∃ pad rest,
              pad.length = padLen (l.newSize r) ∧ l.Padded l.dn (rs.map (l.image g)) rest ∧
              (us.map (l.image g)).flatMap l.recordBits ++ List.replicate t false =
                pad ++ rest := by
            intro g hg
            obtain ⟨pad, rest, hpad, hrest, heq⟩ := hsplit g hg
            rw [List.map_cons, List.flatMap_cons, List.append_assoc] at heq
            obtain ⟨himage, htail⟩ := (fits_image hg hu).unique (fits_image hg hr) heq
            exact ⟨himage, pad, rest, hpad, hrest, htail⟩
          have himage := (hfirst (constant true) (isUnit_constant true)).1
          have hflag : (l.image (constant true) u).flag = (l.image (constant true) r).flag := by
            rw [himage]
          have hpoints :
              (l.image (constant true) u).points = (l.image (constant true) r).points := by
            rw [himage]
          have halike : l.Alike u r := ⟨hflag, hpoints, values_eq_of_images hbpcomp hdn fun g hg =>
            congrArg Record.colours (hfirst g hg).1⟩
          have hlength : ∀ g, IsUnit g → ∀ vs : List Record, (∀ v ∈ vs, l.Fits l.n v) →
              ((vs.map (l.image g)).flatMap l.recordBits).length = (vs.map l.newSize).sum := by
            intro g hg vs hvs
            refine length_flatMap_recoloured hg.isColourMap hvs ?_
            rw [List.forall₂_map_right_iff, List.forall₂_same]
            exact fun v _ => recoloured_image g v
          cases rs with
          | nil =>
              obtain ⟨-, pad, rest, hpad, hrest, heq⟩ :=
                  hfirst (constant true) (isUnit_constant true)
              cases hrest
              have hlen := congrArg List.length heq
              rw [List.length_append, hlength _ (isUnit_constant true) us hus',
                List.length_replicate,
                List.append_nil, hpad] at hlen
              exact .last halike (by omega)
          | cons r' rs =>
              have hr' := hrs r' (List.mem_cons_of_mem _ List.mem_cons_self)
              rcases exists_split l.newSize us (padLen (l.newSize r)) with
                ⟨skipped, us', rfl, hskip⟩ | ⟨skipped, v, us', d, rfl, hsum, hd, hdv⟩ | hshort
              · have hskipped : ∀ v ∈ skipped, l.Fits l.n v := fun v hv =>
                  hus' v (List.mem_append_left _ hv)
                refine .record halike hskip (ih (fun v hv => hus' v (List.mem_append_right _ hv))
                  (fun s hs => hrs s (List.mem_cons_of_mem _ hs)) fun g hg => ?_)
                obtain ⟨-, pad, rest, hpad, hrest, heq⟩ := hfirst g hg
                rw [List.map_append, List.flatMap_append, List.append_assoc] at heq
                have htail := List.append_inj_right heq
                  (by rw [hlength g hg skipped hskipped, hskip, hpad])
                rw [htail]
                exact hrest
              · have hskipped : ∀ w ∈ skipped, l.Fits l.n w := fun w hw =>
                  hus' w (List.mem_append_left _ hw)
                have hv : l.Fits l.n v := hus' v (List.mem_append_right _ List.mem_cons_self)
                have hlt := padLen_lt (l.newSize r)
                refine (not_misplaced hbpc hbpcomp hdn hv hr' hd (by omega) hdv fun c => ?_).elim
                obtain ⟨-, pad, rest, hpad, hrest, heq⟩ := hfirst (constant c) (isUnit_constant c)
                obtain ⟨y, rfl⟩ := hrest.head
                have hvlen : d ≤ (l.recordBits (l.image (constant c) v)).length := by
                  rw [(fits_image (isUnit_constant c) hv).length_recordBits]
                  exact hdv.le
                rw [List.map_append, List.map_cons, List.flatMap_append, List.flatMap_cons,
                  List.append_assoc, List.append_assoc] at heq
                have hdrop := congrArg (List.drop pad.length) heq
                rw [List.drop_left, hpad, ← hsum, ← hlength _ (isUnit_constant c) skipped hskipped,
                  ← List.drop_drop, List.drop_left, List.drop_append_of_le_length hvlen] at hdrop
                exact ⟨_, y, hdrop⟩
              · obtain ⟨-, pad, rest, hpad, hrest, heq⟩ :=
                  hfirst (constant true) (isUnit_constant true)
                obtain ⟨y, rfl⟩ := hrest.head
                have hdrop := congrArg (List.drop pad.length) heq
                have hle : ((us.map (l.image (constant true))).flatMap l.recordBits).length ≤
                    pad.length := by
                  rw [hlength _ (isUnit_constant true) us hus', hpad]
                  exact hshort.le
                rw [List.drop_left, List.drop_append, List.drop_of_length_le hle, List.nil_append,
                  List.drop_replicate] at hdrop
                exact absurd hdrop (not_zeros hbpcomp hdn hr' y _)

end Necessary

theorem maxComp_pos (hbpcomp : 0 < l.bpcomp) : 0 < l.maxComp := by
  have h : (1 : ℚ) < 2 ^ l.bpcomp := one_lt_pow₀ (by norm_num) hbpcomp.ne'
  rw [maxComp]
  linarith

/-- In the new stream components range from 0 to 1. -/
theorem valuesOf_renewed (hdecode : 4 ≤ l.decode.length) {c : List Nat} (hc : c.length = l.dn) :
    l.renewed.valuesOf c = c.map fun v : Nat => (v : ℚ) / l.maxComp := by
  have htake : (l.decode.take 4).length = 4 := by rw [List.length_take, Nat.min_eq_left hdecode]
  have hget : ∀ i < l.dn, ∀ j < 2, l.renewed.decode.getD (4 + (i * 2 + j)) 0 =
      ([0, 1] : List ℚ).getD j 0 := by
    intro i hi j hj
    have hflat := @getElem?_flatten_replicate ℚ [0, 1] l.dn i j hi hj
    rw [renewed, List.getD_eq_getElem?_getD, List.getElem?_append_right (by omega), htake,
      Nat.add_sub_cancel_left, List.getD_eq_getElem?_getD, ← hflat]
    rfl
  refine List.ext_getElem (by simp [valuesOf]) fun i hi hi' => ?_
  rw [List.length_map, hc] at hi'
  have hlow := hget i hi' 0 (by decide)
  have hhigh := hget i hi' 1 (by decide)
  rw [Nat.add_zero, Nat.mul_comm] at hlow
  rw [Nat.mul_comm, Nat.add_comm (2 * i), ← Nat.add_assoc] at hhigh
  simp only [valuesOf, List.getElem_map, List.getElem_zipIdx, Nat.zero_add]
  rw [hlow, show 5 + 2 * i = 4 + 1 + 2 * i from rfl, hhigh]
  simp only [List.getD_cons_zero, List.getD_cons_succ, sub_zero, mul_one, zero_add]
  rfl

theorem RecordKept.of_recoloured (hdecode : 4 ≤ l.decode.length) (h : l.Recoloured conv r r') :
    l.RecordKept conv r r' := by
  refine ⟨h.flag, h.points, h.colours.imp fun c c' hc => ?_⟩
  obtain ⟨out, hout, rfl⟩ := hc
  refine ⟨out, hout, ?_⟩
  rw [valuesOf_renewed hdecode (by simp), List.map_map]
  rfl

/-- A record that is kept and fits is recoloured. -/
theorem RecordKept.recoloured (hdecode : 4 ≤ l.decode.length) (hbpcomp : 0 < l.bpcomp)
    (h : l.RecordKept conv r r') (hfits : l.Fits l.dn r') : l.Recoloured conv r r' := by
  have hinj : Function.Injective fun v : Nat => (v : ℚ) / l.maxComp := by
    intro v v' heq
    have hcast : (v : ℚ) = v' := (div_left_inj' (maxComp_pos hbpcomp).ne').mp heq
    exact_mod_cast hcast
  refine ⟨h.flag, h.points, ?_⟩
  have hlen : ∀ c' ∈ r'.colours, c'.length = l.dn := fun c' hc' => (hfits.colour c' hc').1
  have hall := h.colours
  generalize r.colours = cs at hall ⊢
  generalize r'.colours = cs' at hall hlen ⊢
  induction hall with
  | nil => exact .nil
  | @cons c c' cs cs' hc _ ih =>
      refine .cons ?_ (ih fun d hd => hlen d (List.mem_cons_of_mem _ hd))
      obtain ⟨out, hout, hvalues⟩ := hc
      rw [valuesOf_renewed hdecode (hlen c' List.mem_cons_self)] at hvalues
      refine ⟨out, hout, List.map_injective_iff.mpr hinj ?_⟩
      rw [hvalues, List.map_map]
      rfl

theorem Fits.renewed (h : l.Fits comps r) : l.renewed.Fits comps r :=
  ⟨h.flag, h.numPoints, h.point, h.numColours, h.colour⟩

theorem padded_renewed_iff {bs : List Bool} : l.renewed.Padded comps rs bs ↔
    l.Padded comps rs bs := by
  constructor
  · intro h
    induction h with
    | nil => exact .nil
    | record hfits hpad _ ih =>
        exact .record ⟨hfits.flag, hfits.numPoints, hfits.point, hfits.numColours,
          hfits.colour⟩ hpad ih
  · intro h
    induction h with
    | nil => exact .nil
    | record hfits hpad _ ih => exact .record hfits.renewed hpad ih

theorem Padded.fits {bs : List Bool} (h : l.Padded comps rs bs) : ∀ r ∈ rs, l.Fits comps r := by
  induction h with
  | nil => exact fun r hr => absurd hr List.not_mem_nil
  | record hfits _ _ ih =>
      intro r hr
      rcases List.mem_cons.mp hr with rfl | hr
      · exact hfits
      · exact ih r hr

/-- What is written is read as the records in their new colours. -/
def Good (l : Layout) (conv : List ℚ → Option (Nat → ℚ)) (rs : List Record) (w : BitWriter) :
    Prop :=
  ∃ rs', l.Padded l.dn rs' (w.bits ++ padding w.bits.length) ∧
    List.Forall₂ (l.Recoloured conv) rs rs'

/-- The attempt that aligns each record is right for padded records. -/
theorem good_of_aligned (hbpc : 0 < l.bpc) (hconv : IsColourMap conv) {data : Bytes}
    (hrs : l.Padded l.n rs (byteBits data)) {w : BitWriter} (h : l.attempt conv true data = .ok w) :
    l.Good conv rs w := by
  obtain ⟨us, us', hcut, hall, hbits⟩ := attempt_ok hbpc h
  have hsame : us = rs := hcut.unique (hrs.cut hbpc)
  obtain ⟨bs, hbs, hpadded⟩ := padded_written hconv hcut.fits hall [] (dvd_zero 8)
  rw [List.nil_append] at hbs
  have hnone : padding bs.length = [] := by
    obtain ⟨k, hk⟩ := hpadded.dvd
    rw [padding_eq, padLen, hk, Nat.mul_mod_right]
    rfl
  refine ⟨us', ?_, hsame ▸ hall⟩
  rw [hbits, hbs, hnone, List.append_nil]
  exact hpadded

end Layout

/-- The layout of a shading whose widths are admitted. -/
theorem layout?_eq_some {m : Shading} {n dn : Nat} {l : Layout} (h : m.layout? n dn = some l) :
    l.n = n ∧ l.dn = dn ∧ 0 < l.bpc ∧ 0 < l.bpcomp ∧ 4 ≤ l.decode.length ∧
      ∀ data, ({ m with decode := some l.renewed.decode, data := some data } : Shading).layout? dn
        dn =
        some l.renewed := by
  rw [Shading.layout?] at h
  cases hdecode : m.decode with
  | none => simp [hdecode] at h
  | some decode =>
      simp only [hdecode] at h
      by_cases hbad : m.bitsPerCoordinate < 1 ∨ 32 < m.bitsPerCoordinate ∨ m.bitsPerComponent < 1 ∨
          16 < m.bitsPerComponent ∨ decode.length ≠ 4 + 2 * n
      · rw [if_pos hbad] at h
        cases h
      rw [if_neg hbad] at h
      cases h
      have hfour : 4 ≤ decode.length := by omega
      have hlength : (decode.take 4 ++ (List.replicate dn [0, 1]).flatten).length = 4 + 2 * dn := by
        rw [List.length_append, List.length_take, Nat.min_eq_left hfour, ← List.flatMap_id,
          @length_flatMap_rows _ _ _ 2 _ fun a ha => by rw [List.eq_of_mem_replicate ha]; rfl,
          List.length_replicate, Nat.mul_comm]
      refine ⟨rfl, rfl, ?_, ?_, hfour, fun data => ?_⟩
      · simp only
        omega
      · simp only
        omega
      · simp only [Shading.layout?, Layout.renewed]
        rw [if_neg (by rw [hlength]; omega)]

section Kept

variable {m : Shading} {n dn : Nat} {l : Layout} {data : Bytes} {rs : List Record}
  {conv : List ℚ → Option (Nat → ℚ)}

theorem meshVertices_eq (hl : m.layout? n dn = some l) (hdata : m.data = some data) :
    m.meshVertices n dn conv = m.outcome dn l.decode (l.attempt conv (m.type == 4) data)
      (l.attempt conv (m.type != 4) data) := by
  rw [Shading.meshVertices]
  simp only [hl, hdata]

/-- The mesh is kept exactly when what was written is good for its records. -/
theorem kept_replaced_iff (hl : m.layout? n dn = some l) {w : BitWriter}
    (h : m.meshVertices n dn conv = (true, m.replaced dn l.decode w)) :
    Kept m n dn conv rs ↔ l.Good conv rs w := by
  obtain ⟨-, hdn, -, hbpcomp, hdecode, hlayout⟩ := layout?_eq_some hl
  have hreplaced : m.replaced dn l.decode w =
      { m with decode := some l.renewed.decode, data := some w.align.out } := by
    rw [Shading.replaced, Layout.renewed, hdn]
  rw [Kept, h, if_pos rfl]
  constructor
  · rintro ⟨l', data', rs', hl', hnew, -, hpadded, hkept⟩
    rw [hl, Option.some.injEq] at hl'
    subst hl'
    simp only [hreplaced, Shading.mk.injEq, Option.some.injEq, true_and] at hnew
    rw [Layout.padded_renewed_iff, ← hnew, BitWriter.byteBits_align, ← hdn] at hpadded
    refine ⟨rs', hpadded, ?_⟩
    have hfits := hpadded.fits
    clear hpadded
    induction hkept with
    | nil => exact .nil
    | @cons r r' rs rs' hr _ ih =>
        exact .cons (hr.recoloured hdecode hbpcomp (hfits r' List.mem_cons_self))
          (ih fun v hv => hfits v (List.mem_cons_of_mem _ hv))
  · rintro ⟨rs', hpadded, hrs⟩
    refine ⟨l, w.align.out, rs', hl, hreplaced, ?_, ?_, hrs.imp fun r r' hr =>
      .of_recoloured hdecode hr⟩
    · rw [hreplaced]
      exact hlayout _
    · rw [Layout.padded_renewed_iff, BitWriter.byteBits_align, ← hdn]
      exact hpadded

theorem kept_unchanged (h : m.meshVertices n dn conv = (false, m)) : Kept m n dn conv rs := by
  rw [Kept, h]
  rfl

/-- Without a function, a mesh shading keeps its geometry and gets the new colours for every
colour map exactly if it is one of free-form triangles or, read without padding, the data does
not come out even or its records with new colours are where the padding rule expects them. -/
theorem kept_iff (hl : m.layout? n dn = some l) (hdata : m.data = some data) (hdn : 0 < dn)
    (hrs : l.Padded n rs (byteBits data)) :
    (∀ conv, IsColourMap conv → Kept m n dn conv rs) ↔
      m.type = 4 ∨ ∀ us, l.Cut false us (byteBits data) → l.Picks us rs := by
  obtain ⟨hn, hdn', hbpc, hbpcomp, -, -⟩ := layout?_eq_some hl
  rw [← hn] at hrs
  rw [← hdn'] at hdn
  constructor
  · intro h
    by_cases htype : m.type = 4
    · exact Or.inl htype
    refine Or.inr fun us hus => ?_
    refine Layout.picks_of_padded hbpc hbpcomp hdn hus.fits hrs.fits (t :=
      padLen (us.map l.newSize).sum) fun g hg => ?_
    have hkept := h _ hg.isColourMap
    have hfalse : (m.type == 4) = false := beq_eq_false_iff_ne.mpr htype
    have heq : m.meshVertices n dn (fun vs => some (g vs)) = _ := meshVertices_eq hl hdata
    rw [hfalse] at heq
    cases hattempt : l.attempt (fun vs => some (g vs)) false data with
    | error e =>
        cases e with
        | refused => exact absurd hattempt (Layout.loop_not_refused fun _ => rfl)
        | short => exact absurd hus (Layout.attempt_short hbpc hattempt us)
    | ok w =>
        rw [hattempt] at heq
        obtain ⟨rs', hpadded, hall'⟩ := (kept_replaced_iff hl heq).mp hkept
        obtain ⟨us₂, us', hcut, hall, hbits⟩ := Layout.attempt_ok hbpc hattempt
        obtain rfl := hcut.unique hus
        have himages : ∀ {vs vs' : List Record},
            List.Forall₂ (l.Recoloured fun vs => some (g vs)) vs vs' →
              vs' = vs.map (l.image g) := by
          intro vs vs' hvs
          induction hvs with
          | nil => rfl
          | cons hv _ ih => rw [List.map_cons, Layout.eq_image hv, ih]
        have hlen := Layout.length_flatMap_recoloured hg.isColourMap hcut.fits hall
        rw [Layout.written_false, List.nil_append] at hbits
        rw [hbits, hlen, himages hall, himages hall', padding_eq] at hpadded
        exact hpadded
  · intro h conv hconv
    have haligned : ∀ w, l.attempt conv true data = .ok w → l.Good conv rs w := fun w hw =>
      Layout.good_of_aligned hbpc hconv hrs hw
    have heq : m.meshVertices n dn conv = _ := meshVertices_eq hl hdata
    by_cases htype : m.type = 4
    · have htrue : (m.type == 4) = true := beq_iff_eq.mpr htype
      rw [htrue] at heq
      cases hattempt : l.attempt conv true data with
      | ok w =>
          rw [hattempt] at heq
          exact (kept_replaced_iff hl heq).mpr (haligned w hattempt)
      | error e =>
          rw [hattempt] at heq
          cases e with
          | refused => exact kept_unchanged heq
          | short => exact absurd (hrs.cut hbpc) (Layout.attempt_short hbpc hattempt rs)
    · have hfalse : (m.type == 4) = false := beq_eq_false_iff_ne.mpr htype
      have htrue : (m.type != 4) = true := by rw [bne, hfalse, Bool.not_false]
      rw [hfalse, htrue] at heq
      cases hattempt : l.attempt conv false data with
      | ok w =>
          rw [hattempt] at heq
          obtain ⟨us, us', hcut, hall, hbits⟩ := Layout.attempt_ok hbpc hattempt
          refine (kept_replaced_iff hl heq).mpr ?_
          rw [Layout.Good, hbits]
          exact Layout.padded_of_picks hconv hcut.fits hall (h.resolve_left htype us hcut)
      | error e =>
          rw [hattempt] at heq
          cases e with
          | refused => exact kept_unchanged heq
          | short =>
              cases hsecond : l.attempt conv true data with
              | ok w =>
                  rw [hsecond] at heq
                  exact (kept_replaced_iff hl heq).mpr (haligned w hsecond)
              | error e =>
                  rw [hsecond] at heq
                  exact kept_unchanged heq

end Kept

/-- A triangle mesh with one vertex. -/
def oneVertex : Shading where
  type := 4
  bitsPerCoordinate := 8
  bitsPerComponent := 8
  bitsPerFlag := 8
  decode := some [0, 1, 0, 1, 0, 1]
  data := some [0, 1, 2, 3]

/-- The map from light to dark. -/
def inverted (vs : List ℚ) : Option (Nat → ℚ) := some fun _ => min 1 (max 0 (1 - vs.headD 0))

theorem kept_iff_oneVertex : Kept oneVertex 1 1 inverted [⟨0, [(1, 2)], [[3]]⟩] := by
  have hcut : byteBits [0, 1, 2, 3] = Layout.recordBits
      { type := 4, bpc := 8, bpcomp := 8, bpf := 8, n := 1, dn := 1, decode := [0, 1, 0, 1, 0, 1] }
      ⟨0, [(1, 2)], [[3]]⟩ ++ ([] ++ []) := by decide
  have hinverted : IsColourMap inverted := by
    intro vs out hout k
    cases hout
    exact ⟨le_min zero_le_one (le_max_left _ _), min_le_left _ _⟩
  refine (kept_iff (m := oneVertex) rfl rfl Nat.one_pos ?_).mpr (Or.inl rfl) inverted hinverted
  rw [hcut]
  exact .record ⟨by decide, by decide, by decide, by decide, by decide⟩ (by decide) .nil

/-- A lattice mesh in two inks, four bits each. -/
def lattice : Shading where
  type := 5
  bitsPerCoordinate := 8
  bitsPerComponent := 4
  bitsPerFlag := 8
  decode := some [0, 1, 0, 1, 0, 1, 0, 1]
  data := some (List.replicate 12 0)

/-- One of its vertices, three bytes. -/
def corner : Record := ⟨0, [(0, 0)], [[0, 0]]⟩

/-- How it is read and written. -/
def latticeLayout : Layout :=
  { type := 5, bpc := 8, bpcomp := 4, bpf := 0, n := 2, dn := 3,
    decode := [0, 1, 0, 1, 0, 1, 0, 1] }

/-- In a space of three components the vertices are no longer padded to whole bytes. -/
theorem lattice_lost :
    ¬ ∀ (m : Shading) (n dn : Nat) (l : Layout) (data : Bytes) (rs : List Record)
      (conv : List ℚ → Option (Nat → ℚ)), m.type ∈ [4, 5, 6, 7] → m.layout? n dn = some l →
        m.data = some data → 0 < dn → l.Padded n rs (byteBits data) → IsColourMap conv →
        Kept m n dn conv rs := by
  intro h
  have hlayout : lattice.layout? 2 3 = some latticeLayout := rfl
  have hfits : latticeLayout.Fits 2 corner :=
      ⟨by decide, by decide, by decide, by decide, by decide⟩
  have hbits : byteBits (List.replicate 12 0) = latticeLayout.recordBits corner ++
      ([] ++ (latticeLayout.recordBits corner ++ ([] ++ (latticeLayout.recordBits corner ++
        ([] ++ (latticeLayout.recordBits corner ++ ([] ++ []))))))) := by decide
  have hpadded :
      latticeLayout.Padded 2 (List.replicate 4 corner) (byteBits (List.replicate 12 0)) := by
    rw [hbits]
    exact .record hfits (by decide) (.record hfits (by decide) (.record hfits (by decide)
      (.record hfits (by decide) .nil)))
  have hcut : latticeLayout.Cut false (List.replicate 4 corner)
      (byteBits (List.replicate 12 0)) := by
    rw [hbits]
    exact .record hfits (by decide) (.record hfits (by decide) (.record hfits (by decide)
      (.record hfits (by decide) (.stop (Or.inl (by decide))))))
  have hkept := h lattice 2 3 latticeLayout _ _ _ (by decide) hlayout rfl (by decide) hpadded
    (Layout.isUnit_constant false).isColourMap
  have heq : lattice.meshVertices 2 3 (fun vs => some (Layout.constant false vs)) = _ :=
    meshVertices_eq hlayout rfl
  rw [show (lattice.type == 4) = false from rfl] at heq
  cases hattempt : latticeLayout.attempt (fun vs => some (Layout.constant false vs)) false
      (List.replicate 12 0) with
  | error e =>
      cases e with
      | refused => exact Layout.loop_not_refused (fun _ => rfl) hattempt
      | short => exact Layout.attempt_short (by decide) hattempt _ hcut
  | ok w =>
      rw [hattempt] at heq
      obtain ⟨rs', hrs', hall'⟩ := (kept_replaced_iff hlayout heq).mp hkept
      obtain ⟨us, us', hus, hall, hw⟩ := Layout.attempt_ok (by decide) hattempt
      obtain rfl := hus.unique hcut
      have hlen := Layout.length_flatMap_recoloured (Layout.isUnit_constant false).isColourMap
        hus.fits hall
      rw [Layout.written_false, List.nil_append] at hw
      have hfound : (w.bits ++ padding w.bits.length).length = 112 := by
        rw [List.length_append, padding_eq, List.length_replicate, hw, hlen]
        decide
      -- Four vertices of 28 bits, each padded to 32.
      have hexpected : ∀ (rs : List Record) (bs : List Bool), latticeLayout.Padded 3 rs bs →
          bs.length = rs.length * 32 := by
        intro rs bs hpadded
        induction hpadded with
        | nil => rfl
        | @record r rs pad rest hr hpad _ ih =>
            have hsize : latticeLayout.size 3 r.flag = 28 := rfl
            rw [List.length_append, List.length_append, hr.length_recordBits, hpad, hsize, ih,
              List.length_cons]
            change 28 + (4 + _) = _
            ring
      have hlength := hexpected rs' _ hrs'
      rw [hfound, ← hall'.length_eq] at hlength
      exact absurd hlength (by decide)

end Kura.Engine.Mesh
