import Kura.Engine.SpatialBox
import Mathlib.Logic.Function.Basic

/-!
# The index of painted objects

The events of a scanned document and the index the spatial checks make of them:
every paint, text and image with its extent on the page. The extent is meant to
be what is left of the box of the event in its clip and in the crop box of the
page. `stored_within_iff` says when it is: an empty intersection is taken for a
missing box, so what is clipped away comes back as large as the page.

## Implementation notes

The events have the fields the index is made from. Paths that do not paint are
events too, and are left out. An event is referred to by its kind and its place
in the list, as the index refers to it by its address. Doubles are rationals.
-/

namespace Kura.Engine

/-- A matrix. -/
structure Mat where
  a : Rat := 1
  b : Rat := 0
  c : Rat := 0
  d : Rat := 1
  e : Rat := 0
  f : Rat := 0
  deriving DecidableEq

/-- What is known of a colour space. -/
structure ColorInfo where
  cls : Bytes := lit "gray"
  declaredComps : Int := 1
  deriving DecidableEq

/-- The graphics state of an event. -/
structure GsExtra where
  alphaFill : Rat := 1
  alphaStroke : Rat := 1
  blendMode : Bytes := lit "Normal"
  hasSMask : Bool := false
  ctm : Mat := {}
  /-- The stacking position. -/
  zp : List Int := []
  deriving DecidableEq

/-- A path that is painted. -/
structure PaintEvent where
  width : Rat := 0
  comps : List Rat := []
  page : Int := 0
  stroke : Bool := false
  fillOp : Bool := false
  shade : Bool := false
  noPaint : Bool := false
  color : ColorInfo := {}
  overprint : Bool := false
  x : GsExtra := {}
  bbox : Box := {}
  clip : Box := {}
  clippedFull : Bool := false
  layerHidden : Bool := false
  subpaths : Int := 0
  rects : Int := 0
  deriving DecidableEq

/-- A text that is shown. -/
structure TextEvent where
  renderMode : Int := 0
  comps : List Rat := []
  page : Int := 0
  color : ColorInfo := {}
  x : GsExtra := {}
  bbox : Box := {}
  clip : Box := {}
  clippedFull : Bool := false
  layerHidden : Bool := false
  deriving DecidableEq

/-- An image that is drawn. -/
structure ImageEvent where
  mask : Bool := false
  hasSMask : Bool := false
  x : GsExtra := {}
  overprint : Bool := false
  layerHidden : Bool := false
  page : Int := 0
  bbox : Box := {}
  clip : Box := {}
  clippedFull : Bool := false
  deriving DecidableEq

/-- What is known of a page. -/
structure PageFacts where
  page : Int := 0
  media : Box := {}
  crop : Box := {}

/-- The events of a document. -/
structure Events where
  pages : List PageFacts := []
  paints : List PaintEvent := []
  texts : List TextEvent := []
  images : List ImageEvent := []

/-- The facts of a page. -/
def pageFor (ev : Events) (page : Int) : Option PageFacts := ev.pages.find? fun p => p.page = page

/-- The crop box of a page. -/
def cropOf (p : PageFacts) : Box := if p.crop.valid then p.crop else p.media

/-- Tests whether a matrix keeps the axes. -/
def axisAligned (m : Mat) : Bool :=
  (|m.b| < 1 / 1000000 && |m.c| < 1 / 1000000) || (|m.a| < 1 / 1000000 && |m.d| < 1 / 1000000)

/-- Tests whether a colour is white. -/
def whiteColor (c : List Rat) (ci : ColorInfo) : Bool :=
  if c.isEmpty then false
  else
    let mx := c.foldl max 0
    let mn := c.foldl min 1
    if ci.cls ∈ ["cmyk", "separation", "devicen"].map lit then mx < 1 / 1000
    else if ci.cls ∈ ["gray", "rgb", "cal"].map lit then 999 / 1000 < mn
    else if ci.cls = lit "icc" then
      if ci.declaredComps = 4 then mx < 1 / 1000 else 999 / 1000 < mn
    else false

/-- Tests whether nothing shines through. -/
def normalBlend (x : GsExtra) (alpha : Rat) : Bool :=
  999 / 1000 ≤ alpha && (x.blendMode = lit "Normal" || x.blendMode = lit "Compatible") &&
    !x.hasSMask

/-- An event by its kind. -/
inductive Source where
  | paint (e : PaintEvent)
  | text (e : TextEvent)
  | image (e : ImageEvent)
  deriving DecidableEq

/-- The address of an event. -/
structure Ref where
  kind : Nat
  index : Nat
  deriving DecidableEq

/-- An object before its extent is known. -/
structure Draft where
  page : Int
  raw : Box
  clip : Box
  zp : List Int
  vis : Bool
  rect : Bool
  stroke : Bool
  paint : Bool
  white : Bool
  p : Ref
  source : Source
  hidden : Bool
  opq : Bool

/-- An object of a page; its kind is that of the address. -/
structure SObj where
  raw : Box
  ext : Box
  zp : List Int
  vis : Bool
  rect : Bool
  stroke : Bool
  paint : Bool
  white : Bool
  p : Ref
  source : Source
  page : Int
  hidden : Bool
  opq : Bool

/-- The objects of every page, and where each event is among them. -/
structure SpatialIndex where
  objs : Int → List SObj := fun _ => []
  place : List (Ref × Nat) := []

/-- A box cut to the crop box of a page. -/
def onPage (ev : Events) (page : Int) (ext : Box) : Box :=
  match pageFor ev page with
  | some pf => inter ext (cropOf pf)
  | none => ext

/-- The extent of an object; none if it has neither a box nor a clip. -/
def Draft.ext (ev : Events) (d : Draft) : Option Box :=
  let ext := if d.raw.valid then d.raw else d.clip
  if !ext.valid then none
  else some (onPage ev d.page (if d.raw.valid && d.clip.valid then inter ext d.clip else ext))

/-- The object a draft becomes. -/
def Draft.object (d : Draft) (ext : Box) : SObj where
  raw := d.raw
  ext := ext
  zp := d.zp
  vis := d.vis && ext.valid
  rect := d.rect
  stroke := d.stroke
  paint := d.paint
  white := d.white
  p := d.p
  source := d.source
  page := d.page
  hidden := d.hidden
  opq := d.opq

/-- Adds an object. -/
def SpatialIndex.add (ev : Events) (c : SpatialIndex) (d : Draft) : SpatialIndex :=
  match d.ext ev with
  | none => c
  | some ext =>
      { objs := Function.update c.objs d.page (c.objs d.page ++ [d.object ext])
        place := c.place ++ [(d.p, (c.objs d.page).length)] }

/-- A path as an object; none if it is not painted. -/
def PaintEvent.draft (e : PaintEvent) (i : Nat) : Option Draft :=
  if e.noPaint then none
  else
    let alpha := if e.stroke then e.x.alphaStroke else e.x.alphaFill
    some
      { page := e.page
        raw := if e.stroke && e.bbox.valid then grow e.bbox (e.width / 2) else e.bbox
        clip := e.clip
        zp := e.x.zp
        vis := !e.layerHidden && !e.clippedFull && 1 / 1000 < alpha
        rect := e.fillOp && !e.shade && !e.overprint && 0 < e.rects && e.rects = e.subpaths &&
          axisAligned e.x.ctm && normalBlend e.x e.x.alphaFill
        stroke := e.stroke
        paint := true
        white := whiteColor e.comps e.color
        p := ⟨0, i⟩
        source := .paint e
        hidden := e.layerHidden
        opq := !e.overprint && normalBlend e.x alpha }

/-- A text as an object. -/
def TextEvent.draft (e : TextEvent) (i : Nat) : Draft where
  page := e.page
  raw := e.bbox
  clip := e.clip
  zp := e.x.zp
  vis := !e.layerHidden && !e.clippedFull && e.renderMode ≠ 3 && e.renderMode ≠ 7
  rect := false
  stroke := false
  paint := false
  white := whiteColor e.comps e.color
  p := ⟨1, i⟩
  source := .text e
  hidden := e.layerHidden
  opq := false

/-- An image as an object. -/
def ImageEvent.draft (e : ImageEvent) (i : Nat) : Draft :=
  let solid := !e.mask && !e.hasSMask && !e.overprint
  { page := e.page
    raw := e.bbox
    clip := e.clip
    zp := e.x.zp
    vis := !e.layerHidden && !e.clippedFull
    rect := solid && axisAligned e.x.ctm && normalBlend e.x e.x.alphaFill
    stroke := false
    paint := false
    white := false
    p := ⟨2, i⟩
    source := .image e
    hidden := e.layerHidden
    opq := solid && normalBlend e.x e.x.alphaFill }

/-- The objects of a document in the order they are added. -/
def drafts (ev : Events) : List Draft :=
  ev.paints.zipIdx.filterMap (fun e => e.1.draft e.2) ++
    ev.texts.zipIdx.map (fun e => e.1.draft e.2) ++
    ev.images.zipIdx.map (fun e => e.1.draft e.2)

/-- The index of a document. -/
def buildIndex (ev : Events) : SpatialIndex := (drafts ev).foldl (SpatialIndex.add ev) {}

/-- The object is on the page as a whole once it is added. -/
theorem mem_objs_foldl {ev : Events} {page : Int} {o : SObj} (ds : List Draft) (c : SpatialIndex) :
    o ∈ (ds.foldl (SpatialIndex.add ev) c).objs page ↔
      o ∈ c.objs page ∨ ∃ d ∈ ds, ∃ ext, d.ext ev = some ext ∧ d.page = page ∧
        o = d.object ext := by
  induction ds generalizing c with
  | nil => simp
  | cons d ds ih =>
      have hone : o ∈ (c.add ev d).objs page ↔
          o ∈ c.objs page ∨ ∃ ext, d.ext ev = some ext ∧ d.page = page ∧ o = d.object ext := by
        rw [SpatialIndex.add]
        cases d.ext ev with
        | none => simp
        | some ext =>
            by_cases hpage : d.page = page
            · subst hpage
              simp
            · simp [Function.update_of_ne (Ne.symm hpage), hpage]
      rw [List.foldl_cons, ih, hone, or_assoc]
      simp

namespace Source

/-- The box of an event. -/
def bbox : Source → Box
  | .paint e => e.bbox
  | .text e => e.bbox
  | .image e => e.bbox

/-- The box of an event, grown by half the line width for strokes. -/
def raw : Source → Box
  | .paint e => if e.stroke then grow e.bbox (e.width / 2) else e.bbox
  | .text e => e.bbox
  | .image e => e.bbox

/-- The clip of an event. -/
def clip : Source → Box
  | .paint e => e.clip
  | .text e => e.clip
  | .image e => e.clip

/-- The page of an event. -/
def page : Source → Int
  | .paint e => e.page
  | .text e => e.page
  | .image e => e.page

/-- Tests whether an event can be seen, apart from where it is. -/
def shown : Source → Bool
  | .paint e => !e.layerHidden && !e.clippedFull &&
      1 / 1000 < (if e.stroke then e.x.alphaStroke else e.x.alphaFill)
  | .text e => !e.layerHidden && !e.clippedFull && e.renderMode ≠ 3 && e.renderMode ≠ 7
  | .image e => !e.layerHidden && !e.clippedFull

end Source

/-- The events that are put into the index. -/
def sources (ev : Events) : List Source :=
  (ev.paints.filter fun e => !e.noPaint).map .paint ++ ev.texts.map .text ++ ev.images.map .image

/-- The crop box of a page, none if there is no such page. -/
def cropBox (ev : Events) (page : Int) : Box := ((pageFor ev page).map cropOf).getD {}

/-- The points where an event can be seen. -/
def Source.bounds (ev : Events) (s : Source) : Set (Rat × Rat) :=
  s.raw.points ∩ s.clip.region ∩ (cropBox ev s.page).region

/-- An object lies where its event can be seen, and is not visible if that is nowhere. -/
def SObj.Within (ev : Events) (o : SObj) (s : Source) : Prop :=
  o.ext.extent ⊆ s.bounds ev ∧ (s.bounds ev = ∅ → o.vis = false)

/-- An empty box is followed by one that is not, or is taken for one that is not. -/
def Strays (raw clip crop : Box) (shown : Bool) : Prop :=
  if raw.valid then
    (clip.valid ∧ crop.valid ∧ raw.points ∩ clip.points = ∅ ∧ (crop.points.Nonempty ∨ shown)) ∨
      (¬ clip.valid ∧ ¬ crop.valid ∧ raw.points = ∅ ∧ shown)
  else
    clip.valid ∧
      if crop.valid then (clip.points ∩ crop.points).Nonempty else clip.points.Nonempty ∨ shown

section Extent

variable (ev : Events) (page : Int) {ext : Box}

theorem onPage_of_valid (h : ext.valid = true) :
    (onPage ev page ext).extent = ext.points ∩ (cropBox ev page).region ∧
      ((onPage ev page ext).valid = true ↔
        ((cropBox ev page).valid = true → (ext.points ∩ (cropBox ev page).points).Nonempty)) := by
  rw [onPage, cropBox]
  cases pageFor ev page with
  | none =>
      refine ⟨?_, iff_of_true h fun hcrop => by cases hcrop⟩
      exact (Box.extent_of_valid h).trans (Set.inter_univ _).symm
  | some pf =>
      refine ⟨extent_inter h, ?_⟩
      simp only [Option.map_some, Option.getD_some]
      cases hcrop : (cropOf pf).valid with
      | true => exact (valid_inter h hcrop).trans (by simp)
      | false => simp [inter_of_not_valid_right h hcrop, h]

theorem onPage_of_not_valid (h : ext.valid = false) :
    (onPage ev page ext).extent = (cropBox ev page).extent ∧
      (onPage ev page ext).valid = (cropBox ev page).valid := by
  rw [onPage, cropBox]
  cases pageFor ev page with
  | none => exact ⟨Box.extent_of_not_valid h, h⟩
  | some pf =>
      simp only [inter_of_not_valid_left h, Option.map_some, Option.getD_some, and_self]

end Extent

/-- Where a box is cut to a region, with a flag for whether anything is left. -/
theorem within_of_extent {final : Box} {bounds : Set (Rat × Rat)} {shown : Bool}
    (hext : final.extent = bounds) (hvalid : final.valid = true → bounds.Nonempty ∨ shown = false) :
    final.extent ⊆ bounds ∧ (bounds = ∅ → (shown && final.valid) = false) := by
  refine ⟨hext.subset, fun hempty => ?_⟩
  cases hv : final.valid with
  | false => exact Bool.and_false shown
  | true =>
      obtain hne | hshown := hvalid hv
      · rw [hempty] at hne
        exact absurd hne Set.not_nonempty_empty
      · rw [hshown, Bool.false_and]

/-- Where nothing is left, no point may be and nothing may be visible. -/
theorem within_empty_iff {final : Box} {bounds : Set (Rat × Rat)} {shown : Bool}
    (hbounds : bounds = ∅) :
    (final.extent ⊆ bounds ∧ (bounds = ∅ → (shown && final.valid) = false)) ↔
      ¬ (final.extent.Nonempty ∨ (final.valid = true ∧ shown = true)) := by
  rw [hbounds, Set.subset_empty_iff, ← Set.not_nonempty_iff_eq_empty, not_or]
  refine and_congr_right fun _ => ?_
  cases shown <;> cases final.valid <;> simp

theorem Box.extent_nonempty_or (b : Box) (shown : Bool) :
    (b.extent.Nonempty ∨ (b.valid = true ∧ shown = true)) ↔
      b.valid = true ∧ (b.points.Nonempty ∨ shown = true) := by
  cases hv : b.valid with
  | true => simp [Box.extent_of_valid hv]
  | false => simp [Box.extent_of_not_valid hv]

section Draft

variable {ev : Events} {d : Draft}

/-- The condition on an extent of a draft. -/
def Draft.Fits (ev : Events) (d : Draft) (ext : Box) : Prop :=
  ext.extent ⊆ d.raw.points ∩ d.clip.region ∩ (cropBox ev d.page).region ∧
    (d.raw.points ∩ d.clip.region ∩ (cropBox ev d.page).region = ∅ →
      (d.vis && ext.valid) = false)

/-- Box and clip, with a point in common or not. -/
theorem fits_of_both (hr : d.raw.valid = true) (hc : d.clip.valid = true) :
    d.Fits ev (onPage ev d.page (inter d.raw d.clip)) ↔
      ¬ Strays d.raw d.clip (cropBox ev d.page) d.vis := by
  have hstrays : Strays d.raw d.clip (cropBox ev d.page) d.vis ↔
      d.raw.points ∩ d.clip.points = ∅ ∧ (cropBox ev d.page).valid = true ∧
        ((cropBox ev d.page).points.Nonempty ∨ d.vis = true) := by
    simp only [Strays, hr, hc, if_true, not_true_eq_false, false_and, or_false, true_and]
    exact and_left_comm
  rw [hstrays, Draft.Fits, Box.region_of_valid hc]
  by_cases hne : (d.raw.points ∩ d.clip.points).Nonempty
  · have hbase := (valid_inter hr hc).mpr hne
    obtain ⟨hext, hvalid⟩ := onPage_of_valid ev d.page hbase
    rw [points_inter hr hc] at hext hvalid
    refine iff_of_true (within_of_extent hext fun hv => Or.inl ?_) fun h => ?_
    · cases hcrop : (cropBox ev d.page).valid with
      | true =>
          rw [Box.region_of_valid hcrop]
          exact hvalid.mp hv hcrop
      | false =>
          rw [Box.region_of_not_valid hcrop, Set.inter_univ]
          exact hne
    · rw [h.1] at hne
      exact Set.not_nonempty_empty hne
  · have hempty := Set.not_nonempty_iff_eq_empty.mp hne
    have hbase : (inter d.raw d.clip).valid = false := by
      rw [← Bool.not_eq_true, valid_inter hr hc]
      exact hne
    obtain ⟨hext, hvalid⟩ := onPage_of_not_valid ev d.page hbase
    rw [within_empty_iff (by rw [hempty, Set.empty_inter]), hext, hvalid, Box.extent_nonempty_or,
      and_iff_right hempty]

/-- A box without a clip. -/
theorem fits_of_box (hr : d.raw.valid = true) (hc : d.clip.valid = false) :
    d.Fits ev (onPage ev d.page d.raw) ↔ ¬ Strays d.raw d.clip (cropBox ev d.page) d.vis := by
  obtain ⟨hext, hvalid⟩ := onPage_of_valid ev d.page hr
  have hstrays : Strays d.raw d.clip (cropBox ev d.page) d.vis ↔
      (cropBox ev d.page).valid = false ∧ d.raw.points = ∅ ∧ d.vis = true := by
    simp [Strays, hr, hc]
  rw [hstrays, Draft.Fits, Box.region_of_not_valid hc, Set.inter_univ]
  cases hcrop : (cropBox ev d.page).valid with
  | true =>
      rw [Box.region_of_valid hcrop] at hext ⊢
      refine iff_of_true (within_of_extent hext fun hv => Or.inl (hvalid.mp hv hcrop)) ?_
      simp
  | false =>
      rw [Box.region_of_not_valid hcrop, Set.inter_univ] at hext
      rw [Box.region_of_not_valid hcrop, Set.inter_univ]
      have hv : (onPage ev d.page d.raw).valid = true := hvalid.mpr fun h => by
        rw [hcrop] at h
        cases h
      by_cases hempty : d.raw.points = ∅
      · rw [within_empty_iff hempty, hext, hv, hempty]
        simp
      · refine iff_of_true (within_of_extent hext fun _ => Or.inl ?_) (by simp [hempty])
        exact Set.nonempty_iff_ne_empty.mpr hempty

/-- A stroke of which growing has left nothing, with a clip. -/
theorem fits_of_clip (hr : d.raw.valid = false) (hempty : d.raw.points = ∅)
    (hc : d.clip.valid = true) :
    d.Fits ev (onPage ev d.page d.clip) ↔ ¬ Strays d.raw d.clip (cropBox ev d.page) d.vis := by
  obtain ⟨hext, hvalid⟩ := onPage_of_valid ev d.page hc
  have hbounds : d.raw.points ∩ d.clip.region ∩ (cropBox ev d.page).region = ∅ := by
    rw [hempty, Set.empty_inter, Set.empty_inter]
  rw [Draft.Fits, within_empty_iff hbounds, hext]
  refine not_congr ?_
  cases hcrop : (cropBox ev d.page).valid with
  | true =>
      have hv : (onPage ev d.page d.clip).valid = true ↔
          (d.clip.points ∩ (cropBox ev d.page).points).Nonempty :=
        hvalid.trans (by simp [hcrop])
      rw [hv, Box.region_of_valid hcrop]
      simp only [Strays, hr, hc, hcrop, Bool.false_eq_true, if_false, if_true, true_and]
      exact or_iff_left_of_imp And.left
  | false =>
      have hv : (onPage ev d.page d.clip).valid = true := hvalid.mpr fun h => by
        rw [hcrop] at h
        cases h
      rw [hv, Box.region_of_not_valid hcrop, Set.inter_univ]
      simp [Strays, hr, hc, hcrop]

/-- The extent of a draft, compared with where its event can be seen. -/
theorem ext_fits_iff (hraw : d.raw.valid = false → d.raw.points = ∅) :
    (∀ ext, d.ext ev = some ext → d.Fits ev ext) ↔
      ¬ Strays d.raw d.clip (cropBox ev d.page) d.vis := by
  have hone : ∀ ext, d.ext ev = some ext →
      ((∀ ext, d.ext ev = some ext → d.Fits ev ext) ↔ d.Fits ev ext) := by
    intro ext hext
    rw [hext]
    simp
  cases hr : d.raw.valid with
  | true =>
      cases hc : d.clip.valid with
      | true => rw [hone _ (by simp [Draft.ext, hr, hc]; rfl), fits_of_both hr hc]
      | false => rw [hone _ (by simp [Draft.ext, hr, hc]; rfl), fits_of_box hr hc]
  | false =>
      cases hc : d.clip.valid with
      | true => rw [hone _ (by simp [Draft.ext, hr, hc]; rfl), fits_of_clip hr (hraw hr) hc]
      | false => simp [Draft.ext, Strays, hr, hc]

end Draft

/-- A draft of an event. -/
structure Draft.Of (d : Draft) (s : Source) : Prop where
  source : d.source = s
  raw : d.raw = s.raw
  clip : d.clip = s.clip
  page : d.page = s.page
  vis : d.vis = s.shown

/-- Every draft is one of an event. -/
theorem draft_of {ev : Events} {d : Draft} (h : d ∈ drafts ev) (hbox : d.source.bbox.valid = true) :
    d.Of d.source := by
  simp only [drafts, List.mem_append, List.mem_filterMap, List.mem_map] at h
  obtain (⟨e, -, he⟩ | ⟨e, -, rfl⟩) | ⟨e, -, rfl⟩ := h
  · rw [PaintEvent.draft] at he
    split at he
    · cases he
    · cases he
      have hvalid : e.1.bbox.valid = true := hbox
      refine ⟨rfl, ?_, rfl, rfl, rfl⟩
      simp [Source.raw, hvalid]
  · exact ⟨rfl, rfl, rfl, rfl, rfl⟩
  · exact ⟨rfl, rfl, rfl, rfl, rfl⟩

/-- Every event of the index has a draft. -/
theorem exists_draft {ev : Events} {s : Source} (h : s ∈ sources ev) :
    ∃ d ∈ drafts ev, d.source = s := by
  have hzip : ∀ {α : Type} {l : List α} {e : α}, e ∈ l → ∃ i, (e, i) ∈ l.zipIdx := by
    intro α l e he
    obtain ⟨i, hi, rfl⟩ := List.mem_iff_getElem.mp he
    exact ⟨i, by simp [List.mem_zipIdx_iff_getElem?, hi]⟩
  simp only [sources, List.mem_append, List.mem_map, List.mem_filter] at h
  obtain (⟨e, ⟨he, hpaint⟩, rfl⟩ | ⟨e, he, rfl⟩) | ⟨e, he, rfl⟩ := h
  · obtain ⟨i, hi⟩ := hzip he
    have hdraft : e.noPaint = false := by simpa using hpaint
    obtain ⟨d, hd, hsource⟩ : ∃ d, e.draft i = some d ∧ d.source = .paint e :=
      ⟨_, if_neg (ne_true_of_eq_false hdraft), rfl⟩
    exact ⟨d, List.mem_append_left _ (List.mem_append_left _
      (List.mem_filterMap.mpr ⟨(e, i), hi, hd⟩)), hsource⟩
  · obtain ⟨i, hi⟩ := hzip he
    exact ⟨e.draft i, List.mem_append_left _ (List.mem_append_right _
      (List.mem_map.mpr ⟨(e, i), hi, rfl⟩)), rfl⟩
  · obtain ⟨i, hi⟩ := hzip he
    exact ⟨e.draft i, List.mem_append_right _ (List.mem_map.mpr ⟨(e, i), hi, rfl⟩), rfl⟩

/-- A raw box that is not valid has no points. -/
theorem Source.points_raw {s : Source} (hbox : s.bbox.valid = true) (h : s.raw.valid = false) :
    s.raw.points = ∅ := by
  have hgrow : ∀ (b : Box) (r : Rat), b.valid = true → (grow b r).valid = false →
      (grow b r).points = ∅ := by
    intro b r hb hv
    refine Set.not_nonempty_iff_eq_empty.mp fun hne => ?_
    rw [(valid_grow b r).mpr ⟨hb, hne⟩] at hv
    cases hv
  cases s with
  | paint e =>
      rw [Source.raw] at h ⊢
      split at h
      case isTrue hstroke =>
        rw [if_pos hstroke]
        exact hgrow _ _ hbox h
      case isFalse => exact absurd (hbox.symm.trans h) (by decide)
  | text e => exact absurd (hbox.symm.trans h) (by decide)
  | image e => exact absurd (hbox.symm.trans h) (by decide)

/-- The object of an event with a valid box lies where the event can be seen, and is not visible
if that is nowhere, exactly if no empty box is taken for a missing one. -/
theorem stored_within_iff (ev : Events) (s : Source) (hs : s ∈ sources ev)
    (hbox : s.bbox.valid = true) :
    (∀ page, ∀ o ∈ (buildIndex ev).objs page, o.source = s → o.Within ev s) ↔
      ¬ Strays s.raw s.clip (cropBox ev s.page) s.shown := by
  have hfits : ∀ d : Draft, d.Of s → ∀ ext, (d.object ext).Within ev s ↔ d.Fits ev ext := by
    intro d hd ext
    rw [SObj.Within, Draft.Fits, Source.bounds, hd.raw, hd.clip, hd.page]
    rfl
  have hiff : ∀ d : Draft, d.Of s → ((∀ ext, d.ext ev = some ext → d.Fits ev ext) ↔
      ¬ Strays s.raw s.clip (cropBox ev s.page) s.shown) := by
    intro d hd
    rw [← hd.raw, ← hd.clip, ← hd.page, ← hd.vis]
    refine ext_fits_iff fun hv => ?_
    rw [hd.raw] at hv ⊢
    exact Source.points_raw hbox hv
  obtain ⟨d, hmem, hsource⟩ := exists_draft hs
  have hd : d.Of s := hsource ▸ draft_of hmem (hsource ▸ hbox)
  constructor
  · intro h
    refine (hiff d hd).mp fun ext hext => (hfits d hd ext).mp ?_
    refine h d.page (d.object ext) ?_ hd.source
    exact (mem_objs_foldl _ _).mpr (Or.inr ⟨d, hmem, ext, hext, rfl, rfl⟩)
  · intro h page o ho hso
    obtain hnone | ⟨d', hmem', ext, hext, -, rfl⟩ := (mem_objs_foldl _ _).mp ho
    · cases hnone
    · have hsource' : d'.source = s := hso
      have hd' : d'.Of s := hsource' ▸ draft_of hmem' (hsource' ▸ hbox)
      exact (hfits d' hd' ext).mpr ((hiff d' hd').mpr h ext hext)

/-- A square path with a clip. -/
def squarePath (clip : Box) (clippedFull : Bool) : PaintEvent :=
  { page := 1, fillOp := true, bbox := ⟨0, 0, 10, 10, true⟩, clip := clip
    clippedFull := clippedFull }

/-- A page with one path. -/
def squarePage (e : PaintEvent) : Events :=
  { pages := [{ page := 1, media := ⟨0, 0, 100, 100, true⟩ }], paints := [e] }

/-- A path that is partly clipped is where it can be seen. -/
theorem squarePage_within :
    let e := squarePath ⟨5, 5, 30, 30, true⟩ false
    ∀ page, ∀ o ∈ (buildIndex (squarePage e)).objs page, o.source = .paint e →
      o.Within (squarePage e) (.paint e) := by
  refine (stored_within_iff (squarePage (squarePath ⟨5, 5, 30, 30, true⟩ false))
    (.paint (squarePath ⟨5, 5, 30, 30, true⟩ false)) (List.mem_singleton.mpr rfl) rfl).mpr ?_
  have hmeet : ((⟨0, 0, 10, 10, true⟩ : Box).points ∩
      (⟨5, 5, 30, 30, true⟩ : Box).points).Nonempty :=
    (valid_inter (a := ⟨0, 0, 10, 10, true⟩) (b := ⟨5, 5, 30, 30, true⟩) rfl rfl).mp (by decide)
  rintro (⟨-, -, hempty, -⟩ | ⟨hclip, -⟩)
  · exact hmeet.ne_empty hempty
  · exact hclip rfl

/-- A path that is clipped away is as large as the page. -/
theorem squarePage_strays :
    let e := squarePath ⟨20, 20, 30, 30, true⟩ true
    ¬ ∀ page, ∀ o ∈ (buildIndex (squarePage e)).objs page, o.source = .paint e →
      o.Within (squarePage e) (.paint e) := by
  intro e h
  obtain ⟨o, ho, hsource, hext⟩ : ∃ o ∈ (buildIndex (squarePage e)).objs 1,
      o.source = .paint e ∧ o.ext = ⟨0, 0, 100, 100, true⟩ :=
        ⟨_, List.mem_singleton.mpr rfl, rfl, rfl⟩
  have hpoint : ((0, 0) : Rat × Rat) ∈ o.ext.extent := by
    rw [hext]
    exact ⟨⟨by decide, by decide⟩, ⟨by decide, by decide⟩⟩
  obtain ⟨⟨-, hclip⟩, -⟩ := (h 1 o ho hsource).1 hpoint
  exact absurd hclip.1.1 (by decide)

end Kura.Engine
