import Mathlib

/-!
# Boxes of a page

A page that is printed has a media box, at most one crop box in it, one box that
says where the page is trimmed, and perhaps one for the bleed. The boxes are
repaired one after the other; each is cut to the ones before it.

## Implementation notes

Numbers are exact, and a box is written with them as they are. An attribute that
is inherited is copied to the page when it is read. An item of an array that is
not a number is `none`.
-/

namespace Kura.Engine.PageBoxes

@[ext]
structure Box where
  x1 : ℚ
  y1 : ℚ
  x2 : ℚ
  y2 : ℚ
  ok : Bool
  deriving DecidableEq

/-- The value of a box attribute. -/
inductive Entry where
  | absent
  | array (items : List (Option ℚ))
  | other
  deriving DecidableEq

@[ext]
structure Page where
  mediaBox : Entry
  cropBox : Entry
  trimBox : Entry
  artBox : Entry
  bleedBox : Entry
  /-- What the page inherits. -/
  parentMediaBox : Entry
  parentCropBox : Entry
  deriving DecidableEq

def readBox : Entry → Box
  | .array [some v0, some v1, some v2, some v3] =>
      { x1 := min v0 v2
        y1 := min v1 v3
        x2 := max v0 v2
        y2 := max v1 v3
        ok := min v0 v2 < max v0 v2 && min v1 v3 < max v1 v3 }
  | _ => ⟨0, 0, 0, 0, false⟩

def boxArray (b : Box) : Entry := .array [some b.x1, some b.y1, some b.x2, some b.y2]

def eps : ℚ := 1 / 1000

def sameBox (a b : Box) : Bool :=
  |a.x1 - b.x1| < eps && |a.y1 - b.y1| < eps && |a.x2 - b.x2| < eps && |a.y2 - b.y2| < eps

def clampTo (inner outer : Box) : Box where
  x1 := max inner.x1 outer.x1
  y1 := max inner.y1 outer.y1
  x2 := min inner.x2 outer.x2
  y2 := min inner.y2 outer.y2
  ok := max inner.x1 outer.x1 < min inner.x2 outer.x2 && max inner.y1 outer.y1 <
    min inner.y2 outer.y2

/-- An attribute of a page, with the copy that is made of an inherited one. -/
def getAttribute (own inherited : Entry) : Entry :=
  match own with
  | .absent => inherited
  | e => e

/-- The media box of a page, and its value if it had to be replaced. -/
def fixMedia (e : Entry) : Box × Entry :=
  if (readBox e).ok then (readBox e, e)
  else (⟨0, 0, 612, 792, true⟩, boxArray ⟨0, 0, 612, 792, true⟩)

/-- A box cut to another one, which takes its place if nothing is left. -/
def cutTo (inner outer : Box) : Box :=
  if (clampTo inner outer).ok then clampTo inner outer else outer

/-- A box differs from what it is cut to. -/
def mustCut (b outer : Box) : Bool := !sameBox (cutTo b outer) b

/-- A box that is cut to another one is written if that changes it. -/
def fixInner (outer : Box) (e : Entry) : Box × Entry :=
  if mustCut (readBox e) outer then (cutTo (readBox e) outer, boxArray (cutTo (readBox e) outer))
  else (readBox e, e)

/-- The crop box in effect. -/
def effCrop (media : Box) (e : Entry) : Box :=
  if (readBox e).ok then cutTo (readBox e) media else media

def mustFixCrop (media : Box) (e : Entry) : Bool :=
  (readBox e).ok && !sameBox (effCrop media e) (readBox e)

def fixCrop (media : Box) (e : Entry) : Entry :=
  if mustFixCrop media e then boxArray (effCrop media e) else e

/-- The boxes for trimming: the one in force and both entries. -/
def fixTrimArt (crop : Box) (trimE artE : Entry) : Box × Entry × Entry :=
  if (readBox trimE).ok && (readBox artE).ok then
    ((fixInner crop trimE).1, (fixInner crop trimE).2, .absent)
  else if !(readBox trimE).ok && !(readBox artE).ok then (crop, boxArray crop, artE)
  else if (readBox trimE).ok then ((fixInner crop trimE).1, (fixInner crop trimE).2, artE)
  else ((fixInner crop artE).1, trimE, (fixInner crop artE).2)

/-- A box made large enough for another one. -/
def enlarge (b target : Box) : Box where
  x1 := min b.x1 target.x1
  y1 := min b.y1 target.y1
  x2 := max b.x2 target.x2
  y2 := max b.y2 target.y2
  ok := b.ok

/-- The bleed box cut to the crop box, but not below the box for trimming. -/
def bleedFor (crop target : Box) (e : Entry) : Box := enlarge (cutTo (readBox e) crop) target

def mustFixBleed (crop target : Box) (e : Entry) : Bool :=
  (readBox e).ok && !sameBox (bleedFor crop target e) (readBox e)

def fixBleed (crop target : Box) (e : Entry) : Entry :=
  if mustFixBleed crop target e then boxArray (bleedFor crop target e) else e

/-- The boxes that are worked out for a page. -/
def mediaOf (page : Page) : Box := (fixMedia (getAttribute page.mediaBox page.parentMediaBox)).1

def cropOf (page : Page) : Box :=
  effCrop (mediaOf page) (getAttribute page.cropBox page.parentCropBox)

def targetOf (page : Page) : Box := (fixTrimArt (cropOf page) page.trimBox page.artBox).1

/-- `fixPageBoxes`: the page, whether a box was added, and whether one was changed. -/
def fixPageBoxes (page : Page) : Page × Bool × Bool :=
  let mediaE := getAttribute page.mediaBox page.parentMediaBox
  let cropE := getAttribute page.cropBox page.parentCropBox
  let trim := readBox page.trimBox
  let art := readBox page.artBox
  ({ page with
      mediaBox := (fixMedia mediaE).2
      cropBox := fixCrop (mediaOf page) cropE
      trimBox := (fixTrimArt (cropOf page) page.trimBox page.artBox).2.1
      artBox := (fixTrimArt (cropOf page) page.trimBox page.artBox).2.2
      bleedBox := fixBleed (cropOf page) (targetOf page) page.bleedBox },
    !trim.ok && !art.ok,
    !(readBox mediaE).ok || mustFixCrop (mediaOf page) cropE || trim.ok && art.ok ||
      trim.ok && mustCut trim (cropOf page) || !trim.ok && art.ok && mustCut art (cropOf page) ||
      mustFixBleed (cropOf page) (targetOf page) page.bleedBox)

/-- A box lies in another one, up to the tolerance. -/
def Inside (b outer : Box) : Prop :=
  outer.x1 - eps ≤ b.x1 ∧ outer.y1 - eps ≤ b.y1 ∧ b.x2 ≤ outer.x2 + eps ∧ b.y2 ≤ outer.y2 + eps

/-- One of the boxes for trimming is there, and it is a box in the crop box. -/
def Trimmed (crop : Box) (e rest : Entry) : Prop :=
  e ≠ .absent ∧ rest = .absent ∧ (readBox e).ok = true ∧ Inside (readBox e) crop

/-- The entry of the box for trimming that is in force. -/
def inForce (trimE artE : Entry) : Entry := if trimE = .absent then artE else trimE

/-- The boxes of a page are nested. -/
structure Nested (page : Page) : Prop where
  media : (readBox (getAttribute page.mediaBox page.parentMediaBox)).ok = true
  crop : (cropOf page).ok = true ∧ Inside (cropOf page) (mediaOf page)
  trimmed : Trimmed (cropOf page) page.trimBox page.artBox ∨
    Trimmed (cropOf page) page.artBox page.trimBox
  bleed : page.bleedBox ≠ .absent → (readBox page.bleedBox).ok = true ∧
    Inside (readBox page.bleedBox) (cropOf page) ∧
    Inside (readBox (inForce page.trimBox page.artBox)) (readBox page.bleedBox)

/-- The boxes are nested after the repair, and a second one changes nothing. -/
def Repaired (page : Page) : Prop :=
  Nested (fixPageBoxes page).1 ∧ (fixPageBoxes (fixPageBoxes page).1).1 = (fixPageBoxes page).1

/-- A malformed box for trimming is not left beside the one that is kept. -/
def TrimClear (page : Page) : Prop :=
  page.artBox = .absent ∨ (readBox page.artBox).ok = true ∧
    (page.trimBox = .absent ∨ (readBox page.trimBox).ok = true)

/-- The bleed box is well formed, and it is not let alone where it sticks out of the crop box
by more than the tolerance because the box for trimming sticks out there as well. -/
def BleedClear (page : Page) : Prop :=
  page.bleedBox = .absent ∨ (readBox page.bleedBox).ok = true ∧
    (sameBox (bleedFor (cropOf page) (targetOf page) page.bleedBox) (readBox page.bleedBox) = true →
      Inside (readBox page.bleedBox) (cropOf page))

/-- A box that is not empty. -/
structure Proper (b : Box) : Prop where
  ok : b.ok = true
  x : b.x1 < b.x2
  y : b.y1 < b.y2

theorem proper_readBox {e : Entry} (h : (readBox e).ok = true) : Proper (readBox e) := by
  unfold readBox at h ⊢
  split
  next v0 v1 v2 v3 =>
    simp only [Bool.and_eq_true, decide_eq_true_eq] at h
    exact ⟨by simpa using h, h.1, h.2⟩
  next hne =>
    split at h
    next v0 v1 v2 v3 => exact absurd rfl (hne v0 v1 v2 v3)
    next => cases h

theorem readBox_boxArray {b : Box} (h : Proper b) : readBox (boxArray b) = b := by
  obtain ⟨x1, y1, x2, y2, ok⟩ := b
  obtain rfl : ok = true := h.ok
  have hx : x1 < x2 := h.x
  have hy : y1 < y2 := h.y
  simp only [boxArray, readBox, min_eq_left hx.le, max_eq_right hx.le, min_eq_left hy.le,
    max_eq_right hy.le, hx, hy, decide_true, Bool.and_self]

theorem proper_clampTo {b outer : Box} (h : (clampTo b outer).ok = true) :
    Proper (clampTo b outer) := by
  have hboth := h
  simp only [clampTo, Bool.and_eq_true, decide_eq_true_eq] at hboth
  exact ⟨h, hboth.1, hboth.2⟩

theorem proper_cutTo {b outer : Box} (h : Proper outer) : Proper (cutTo b outer) := by
  rw [cutTo]
  split_ifs with hok
  · exact proper_clampTo hok
  · exact h

theorem eps_pos : 0 < eps := by norm_num [eps]

theorem sameBox_self (b : Box) : sameBox b b = true := by
  have hpos : (0 : ℚ) < eps := eps_pos
  simp only [sameBox, sub_self, abs_zero, hpos, decide_true, Bool.and_self]

/-- Boxes that are the same lie within each other. -/
theorem inside_of_sameBox {a b outer : Box} (h : sameBox a b = true)
    (houter : outer.x1 ≤ a.x1 ∧ outer.y1 ≤ a.y1 ∧ a.x2 ≤ outer.x2 ∧ a.y2 ≤ outer.y2) :
    Inside b outer := by
  simp only [sameBox, Bool.and_eq_true, decide_eq_true_eq, abs_lt] at h
  obtain ⟨⟨⟨hx1, hy1⟩, hx2⟩, hy2⟩ := h
  refine ⟨?_, ?_, ?_, ?_⟩
  · linarith [houter.1]
  · linarith [houter.2.1]
  · linarith [houter.2.2.1]
  · linarith [houter.2.2.2]

theorem inside_of_sameBox_left {a b inner : Box} (h : sameBox a b = true)
    (hinner : a.x1 ≤ inner.x1 ∧ a.y1 ≤ inner.y1 ∧ inner.x2 ≤ a.x2 ∧ inner.y2 ≤ a.y2) :
    Inside inner b := by
  simp only [sameBox, Bool.and_eq_true, decide_eq_true_eq, abs_lt] at h
  obtain ⟨⟨⟨hx1, hy1⟩, hx2⟩, hy2⟩ := h
  refine ⟨?_, ?_, ?_, ?_⟩
  · linarith [hinner.1]
  · linarith [hinner.2.1]
  · linarith [hinner.2.2.1]
  · linarith [hinner.2.2.2]

theorem inside_of_le {b outer : Box}
    (h : outer.x1 ≤ b.x1 ∧ outer.y1 ≤ b.y1 ∧ b.x2 ≤ outer.x2 ∧ b.y2 ≤ outer.y2) : Inside b outer :=
  inside_of_sameBox (sameBox_self b) h

/-- What is left after a cut lies in the outer box. -/
theorem cutTo_le (b outer : Box) : outer.x1 ≤ (cutTo b outer).x1 ∧ outer.y1 ≤ (cutTo b outer).y1 ∧
    (cutTo b outer).x2 ≤ outer.x2 ∧ (cutTo b outer).y2 ≤ outer.y2 := by
  rw [cutTo]
  split_ifs
  · exact ⟨le_max_right _ _, le_max_right _ _, min_le_right _ _, min_le_right _ _⟩
  · exact ⟨le_rfl, le_rfl, le_rfl, le_rfl⟩

/-- A proper box that lies in another one is not changed by a cut. -/
theorem cutTo_of_le {b outer : Box} (hb : Proper b)
    (h : outer.x1 ≤ b.x1 ∧ outer.y1 ≤ b.y1 ∧ b.x2 ≤ outer.x2 ∧ b.y2 ≤ outer.y2) :
    cutTo b outer = b := by
  have hclamp : clampTo b outer = b := by
    obtain ⟨x1, y1, x2, y2, ok⟩ := b
    obtain rfl : ok = true := hb.ok
    have hx : x1 < x2 := hb.x
    have hy : y1 < y2 := hb.y
    simp only [clampTo, max_eq_left h.1, max_eq_left h.2.1, min_eq_left h.2.2.1,
      min_eq_left h.2.2.2, hx, hy, decide_true, Bool.and_self]
  rw [cutTo, hclamp, if_pos hb.ok]

theorem cutTo_cutTo {b outer : Box} (h : Proper outer) :
    cutTo (cutTo b outer) outer = cutTo b outer :=
  cutTo_of_le (proper_cutTo h) (cutTo_le b outer)

/-- The media box is proper, and the entry that is left is read as it. -/
theorem fixMedia_spec (e : Entry) :
    Proper (fixMedia e).1 ∧ readBox (fixMedia e).2 = (fixMedia e).1 ∧
      fixMedia (fixMedia e).2 = fixMedia e := by
  have hdefault : Proper ⟨0, 0, 612, 792, true⟩ := ⟨rfl, by norm_num, by norm_num⟩
  unfold fixMedia
  by_cases hok : (readBox e).ok = true
  · simp only [if_pos hok]
    exact ⟨proper_readBox hok, trivial, trivial⟩
  · simp only [if_neg hok, readBox_boxArray hdefault, if_true]
    exact ⟨hdefault, trivial, trivial⟩

theorem ne_absent_of_ok {e : Entry} (h : (readBox e).ok = true) : e ≠ .absent := by
  rintro rfl
  cases h

theorem getAttribute_of_ne {e inherited : Entry} (h : e ≠ .absent) :
    getAttribute e inherited = e := by
  cases e with
  | absent => exact absurd rfl h
  | array items => rfl
  | other => rfl

theorem proper_effCrop {media : Box} (h : Proper media) (e : Entry) : Proper (effCrop media e) := by
  rw [effCrop]
  split_ifs
  · exact proper_cutTo h
  · exact h

theorem effCrop_le (media : Box) (e : Entry) :
    media.x1 ≤ (effCrop media e).x1 ∧ media.y1 ≤ (effCrop media e).y1 ∧
      (effCrop media e).x2 ≤ media.x2 ∧ (effCrop media e).y2 ≤ media.y2 := by
  rw [effCrop]
  split_ifs
  · exact cutTo_le _ _
  · exact ⟨le_rfl, le_rfl, le_rfl, le_rfl⟩

/-- The crop box that is written is the one in effect, and it is not written again. -/
theorem fixCrop_spec {media : Box} (h : Proper media) (e : Entry) :
    effCrop media (fixCrop media e) = effCrop media e ∧
      fixCrop media (fixCrop media e) = fixCrop media e := by
  by_cases hmust : mustFixCrop media e = true
  · have hproper := proper_effCrop h e
    have hwritten : fixCrop media e = boxArray (effCrop media e) := if_pos hmust
    have hread := readBox_boxArray hproper
    have heff : effCrop media (boxArray (effCrop media e)) = effCrop media e := by
      rw [effCrop, hread, if_pos hproper.ok]
      exact cutTo_of_le hproper (effCrop_le media e)
    rw [hwritten]
    refine ⟨heff, if_neg ?_⟩
    rw [mustFixCrop, heff, hread, sameBox_self, Bool.not_true, Bool.and_false]
    exact Bool.false_ne_true
  · have hkept : fixCrop media e = e := if_neg hmust
    rw [hkept]
    exact ⟨rfl, hkept⟩

/-- A copied crop box stays the attribute of the page. -/
theorem getAttribute_fixCrop (media : Box) (own inherited : Entry) :
    getAttribute (fixCrop media (getAttribute own inherited)) inherited =
      fixCrop media (getAttribute own inherited) := by
  by_cases hmust : mustFixCrop media (getAttribute own inherited) = true
  · rw [fixCrop, if_pos hmust]
    rfl
  · rw [fixCrop, if_neg hmust]
    cases own with
    | absent => cases inherited <;> rfl
    | array items => rfl
    | other => rfl

/-- A box that has been cut lies in the outer one, is read as it is, and is not cut again. -/
theorem fixInner_spec {outer : Box} (h : Proper outer) {e : Entry} (he : (readBox e).ok = true) :
    Proper (fixInner outer e).1 ∧ readBox (fixInner outer e).2 = (fixInner outer e).1 ∧
      Inside (fixInner outer e).1 outer ∧
        fixInner outer (fixInner outer e).2 = fixInner outer e := by
  by_cases hmust : mustCut (readBox e) outer = true
  · have hcut : Proper (cutTo (readBox e) outer) := proper_cutTo h
    have hwritten : fixInner outer e =
        (cutTo (readBox e) outer, boxArray (cutTo (readBox e) outer)) := if_pos hmust
    have hread := readBox_boxArray hcut
    rw [hwritten]
    refine ⟨hcut, hread, inside_of_le (cutTo_le _ _), ?_⟩
    have hagain : mustCut (cutTo (readBox e) outer) outer = false := by
      rw [mustCut, cutTo_cutTo h, sameBox_self]
      rfl
    simp only [fixInner, hread, hagain, Bool.false_eq_true, if_false]
  · have hkept : fixInner outer e = (readBox e, e) := if_neg hmust
    have hsame : sameBox (cutTo (readBox e) outer) (readBox e) = true := by
      simpa only [mustCut, Bool.not_eq_true', Bool.not_eq_false] using hmust
    rw [hkept]
    exact ⟨proper_readBox he, rfl, inside_of_sameBox hsame (cutTo_le _ _), hkept⟩

section

variable (crop : Box) {trimE artE : Entry}

theorem fixTrimArt_of_both (htrim : (readBox trimE).ok = true) (hart : (readBox artE).ok = true) :
    fixTrimArt crop trimE artE = ((fixInner crop trimE).1, (fixInner crop trimE).2, .absent) := by
  simp only [fixTrimArt, htrim, hart, Bool.and_self, if_true]

theorem fixTrimArt_of_trim (htrim : (readBox trimE).ok = true) (hart : (readBox artE).ok = false) :
    fixTrimArt crop trimE artE = ((fixInner crop trimE).1, (fixInner crop trimE).2, artE) := by
  simp only [fixTrimArt, htrim, hart, Bool.and_false, Bool.false_eq_true, if_false, Bool.not_true,
    Bool.false_and, if_true]

theorem fixTrimArt_of_art (htrim : (readBox trimE).ok = false) (hart : (readBox artE).ok = true) :
    fixTrimArt crop trimE artE = ((fixInner crop artE).1, trimE, (fixInner crop artE).2) := by
  simp only [fixTrimArt, htrim, hart, Bool.false_and, Bool.false_eq_true, if_false, Bool.not_true,
    Bool.and_false]

theorem fixTrimArt_of_none (htrim : (readBox trimE).ok = false)
    (hart : (readBox artE).ok = false) :
    fixTrimArt crop trimE artE = (crop, boxArray crop, artE) := by
  simp only [fixTrimArt, htrim, hart, Bool.and_self, Bool.false_eq_true, if_false, Bool.not_false,
    if_true]

end

theorem ok_absent : (readBox .absent).ok = false := rfl

/-- A proper box is not cut to itself. -/
theorem fixInner_boxArray {crop : Box} (h : Proper crop) :
    fixInner crop (boxArray crop) = (crop, boxArray crop) := by
  have hread := readBox_boxArray h
  have hagain : mustCut crop crop = false := by
    rw [mustCut, cutTo_of_le h ⟨le_rfl, le_rfl, le_rfl, le_rfl⟩, sameBox_self]
    rfl
  simp only [fixInner, hread, hagain, Bool.false_eq_true, if_false]

/-- The box for trimming in force is proper and lies in the crop box; a second repair finds the
same boxes. -/
theorem fixTrimArt_spec {crop : Box} (h : Proper crop) (trimE artE : Entry) :
    Proper (fixTrimArt crop trimE artE).1 ∧ Inside (fixTrimArt crop trimE artE).1 crop ∧
      fixTrimArt crop (fixTrimArt crop trimE artE).2.1 (fixTrimArt crop trimE artE).2.2 =
        fixTrimArt crop trimE artE := by
  cases htrim : (readBox trimE).ok with
  | true =>
      obtain ⟨hproper, hread, hinside, hagain⟩ := fixInner_spec h htrim
      have hok : (readBox (fixInner crop trimE).2).ok = true := hread ▸ hproper.ok
      cases hart : (readBox artE).ok with
      | true =>
          rw [fixTrimArt_of_both crop htrim hart]
          refine ⟨hproper, hinside, ?_⟩
          rw [fixTrimArt_of_trim crop hok ok_absent, hagain]
      | false =>
          rw [fixTrimArt_of_trim crop htrim hart]
          refine ⟨hproper, hinside, ?_⟩
          rw [fixTrimArt_of_trim crop hok hart, hagain]
  | false =>
      cases hart : (readBox artE).ok with
      | true =>
          obtain ⟨hproper, hread, hinside, hagain⟩ := fixInner_spec h hart
          have hok : (readBox (fixInner crop artE).2).ok = true := hread ▸ hproper.ok
          rw [fixTrimArt_of_art crop htrim hart]
          refine ⟨hproper, hinside, ?_⟩
          rw [fixTrimArt_of_art crop htrim hok, hagain]
      | false =>
          have hok : (readBox (boxArray crop)).ok = true := (readBox_boxArray h).symm ▸ h.ok
          rw [fixTrimArt_of_none crop htrim hart]
          refine ⟨h, inside_of_le ⟨le_rfl, le_rfl, le_rfl, le_rfl⟩, ?_⟩
          rw [fixTrimArt_of_trim crop hok hart, fixInner_boxArray h]

/-- One box for trimming is left, and it is the one in force, if no malformed one is kept. -/
theorem trimmed_iff {crop : Box} (h : Proper crop) (trimE artE : Entry) :
    (Trimmed crop (fixTrimArt crop trimE artE).2.1 (fixTrimArt crop trimE artE).2.2 ∨
        Trimmed crop (fixTrimArt crop trimE artE).2.2 (fixTrimArt crop trimE artE).2.1) ↔
      artE = .absent ∨ (readBox artE).ok = true ∧
        (trimE = .absent ∨ (readBox trimE).ok = true) := by
  cases htrim : (readBox trimE).ok with
  | true =>
      obtain ⟨hproper, hread, hinside, -⟩ := fixInner_spec h htrim
      have hok : (readBox (fixInner crop trimE).2).ok = true := hread ▸ hproper.ok
      have hinside' : Inside (readBox (fixInner crop trimE).2) crop := hread ▸ hinside
      cases hart : (readBox artE).ok with
      | true =>
          rw [fixTrimArt_of_both crop htrim hart]
          exact ⟨fun _ => Or.inr ⟨rfl, Or.inr rfl⟩,
            fun _ => Or.inl ⟨ne_absent_of_ok hok, rfl, hok, hinside'⟩⟩
      | false =>
          rw [fixTrimArt_of_trim crop htrim hart]
          constructor
          · rintro (⟨-, habsent, -, -⟩ | ⟨-, habsent, -, -⟩)
            · exact Or.inl habsent
            · exact absurd habsent (ne_absent_of_ok hok)
          · rintro (habsent | ⟨hfalse, -⟩)
            · exact Or.inl ⟨ne_absent_of_ok hok, habsent, hok, hinside'⟩
            · cases hfalse
  | false =>
      cases hart : (readBox artE).ok with
      | true =>
          obtain ⟨hproper, hread, hinside, -⟩ := fixInner_spec h hart
          have hok : (readBox (fixInner crop artE).2).ok = true := hread ▸ hproper.ok
          have hinside' : Inside (readBox (fixInner crop artE).2) crop := hread ▸ hinside
          rw [fixTrimArt_of_art crop htrim hart]
          constructor
          · rintro (⟨-, habsent, -, -⟩ | ⟨-, habsent, -, -⟩)
            · exact absurd habsent (ne_absent_of_ok hok)
            · exact Or.inr ⟨rfl, Or.inl habsent⟩
          · rintro (habsent | ⟨-, habsent | hfalse⟩)
            · exact absurd habsent (ne_absent_of_ok hart)
            · exact Or.inr ⟨ne_absent_of_ok hok, habsent, hok, hinside'⟩
            · cases hfalse
      | false =>
          have hread := readBox_boxArray h
          have hok : (readBox (boxArray crop)).ok = true := hread.symm ▸ h.ok
          rw [fixTrimArt_of_none crop htrim hart]
          constructor
          · rintro (⟨-, habsent, -, -⟩ | ⟨-, habsent, -, -⟩)
            · exact Or.inl habsent
            · cases habsent
          · rintro (habsent | ⟨hfalse, -⟩)
            · refine Or.inl ⟨ne_absent_of_ok hok, habsent, hok, ?_⟩
              rw [hread]
              exact inside_of_le ⟨le_rfl, le_rfl, le_rfl, le_rfl⟩
            · cases hfalse

/-- The box for trimming is read from the entry in force. -/
theorem readBox_inForce {crop : Box} (h : Proper crop) {trimE artE : Entry}
    (hclear : artE = .absent ∨ (readBox artE).ok = true ∧
      (trimE = .absent ∨ (readBox trimE).ok = true)) :
    readBox (inForce (fixTrimArt crop trimE artE).2.1 (fixTrimArt crop trimE artE).2.2) =
      (fixTrimArt crop trimE artE).1 := by
  cases htrim : (readBox trimE).ok with
  | true =>
      obtain ⟨hproper, hread, -, -⟩ := fixInner_spec h htrim
      have hne := ne_absent_of_ok (hread ▸ hproper.ok : (readBox (fixInner crop trimE).2).ok = true)
      cases hart : (readBox artE).ok with
      | true =>
          rw [fixTrimArt_of_both crop htrim hart, inForce, if_neg hne]
          exact hread
      | false =>
          rw [fixTrimArt_of_trim crop htrim hart, inForce, if_neg hne]
          exact hread
  | false =>
      cases hart : (readBox artE).ok with
      | true =>
          rcases hclear with rfl | ⟨-, rfl | htrue⟩
          · cases hart
          · rw [fixTrimArt_of_art crop htrim hart, inForce, if_pos rfl]
            exact (fixInner_spec h hart).2.1
          · rw [htrim] at htrue
            cases htrue
      | false =>
          have hread := readBox_boxArray h
          rw [fixTrimArt_of_none crop htrim hart, inForce,
            if_neg (ne_absent_of_ok (hread.symm ▸ h.ok))]
          exact hread

theorem min_max_min {c e t : ℚ} (h : e ≤ c) : min (max (min c t) e) t = min c t := by
  rcases le_total c t with hle | hle
  · rw [min_eq_left hle, max_eq_left h, min_eq_left hle]
  · rw [min_eq_right hle]
    exact min_eq_right (le_max_left t e)

theorem max_min_max {c e t : ℚ} (h : c ≤ e) : max (min (max c t) e) t = max c t := by
  rcases le_total c t with hle | hle
  · rw [max_eq_right hle]
    exact max_eq_right (min_le_left t e)
  · rw [max_eq_left hle, min_eq_left h, max_eq_left hle]

theorem proper_bleedFor {crop : Box} (h : Proper crop) (target : Box) (e : Entry) :
    Proper (bleedFor crop target e) := by
  have hcut : Proper (cutTo (readBox e) crop) := proper_cutTo h
  refine ⟨hcut.ok, ?_, ?_⟩
  · exact (min_le_left _ _).trans_lt (hcut.x.trans_le (le_max_left _ _))
  · exact (min_le_left _ _).trans_lt (hcut.y.trans_le (le_max_left _ _))

/-- The bleed box that is written is not changed by a second repair. -/
theorem bleedFor_bleedFor {crop : Box} (h : Proper crop) (target : Box) (e : Entry) :
    bleedFor crop target (boxArray (bleedFor crop target e)) = bleedFor crop target e := by
  have hcut : Proper (cutTo (readBox e) crop) := proper_cutTo h
  obtain ⟨hx1, hy1, hx2, hy2⟩ := cutTo_le (readBox e) crop
  have hread := readBox_boxArray (proper_bleedFor h target e)
  -- what is left of the large box holds the small one, so the cut is not empty
  have hleft : (clampTo (bleedFor crop target e) crop).ok = true := by
    refine Bool.and_eq_true_iff.mpr ⟨decide_eq_true ?_, decide_eq_true ?_⟩
    · calc max (min (cutTo (readBox e) crop).x1 target.x1) crop.x1
          ≤ (cutTo (readBox e) crop).x1 := max_le (min_le_left _ _) hx1
        _ < (cutTo (readBox e) crop).x2 := hcut.x
        _ ≤ min (max (cutTo (readBox e) crop).x2 target.x2) crop.x2 := le_min (le_max_left _ _) hx2
    · calc max (min (cutTo (readBox e) crop).y1 target.y1) crop.y1
          ≤ (cutTo (readBox e) crop).y1 := max_le (min_le_left _ _) hy1
        _ < (cutTo (readBox e) crop).y2 := hcut.y
        _ ≤ min (max (cutTo (readBox e) crop).y2 target.y2) crop.y2 := le_min (le_max_left _ _) hy2
  have hcutTo : cutTo (bleedFor crop target e) crop = clampTo (bleedFor crop target e) crop :=
    if_pos hleft
  rw [bleedFor, hread, hcutTo]
  exact Box.ext (min_max_min hx1) (min_max_min hy1) (max_min_max hx2) (max_min_max hy2)
    (hleft.trans hcut.ok.symm)

theorem fixBleed_fixBleed {crop : Box} (h : Proper crop) (target : Box) (e : Entry) :
    fixBleed crop target (fixBleed crop target e) = fixBleed crop target e := by
  by_cases hmust : mustFixBleed crop target e = true
  · have hwritten : fixBleed crop target e = boxArray (bleedFor crop target e) := if_pos hmust
    rw [hwritten]
    refine if_neg ?_
    rw [mustFixBleed, bleedFor_bleedFor h, readBox_boxArray (proper_bleedFor h target e),
      sameBox_self, Bool.not_true, Bool.and_false]
    exact Bool.false_ne_true
  · have hkept : fixBleed crop target e = e := if_neg hmust
    rw [hkept, hkept]

section

variable (page : Page)

theorem proper_mediaOf : Proper (mediaOf page) := (fixMedia_spec _).1

theorem proper_cropOf : Proper (cropOf page) := proper_effCrop (proper_mediaOf page) _

theorem getAttribute_mediaBox :
    getAttribute (fixPageBoxes page).1.mediaBox page.parentMediaBox =
      (fixPageBoxes page).1.mediaBox := by
  obtain ⟨hproper, hread, -⟩ := fixMedia_spec (getAttribute page.mediaBox page.parentMediaBox)
  exact getAttribute_of_ne (ne_absent_of_ok (hread ▸ hproper.ok))

theorem mediaOf_fixPageBoxes : mediaOf (fixPageBoxes page).1 = mediaOf page := by
  have hattribute := getAttribute_mediaBox page
  have hagain := (fixMedia_spec (getAttribute page.mediaBox page.parentMediaBox)).2.2
  calc mediaOf (fixPageBoxes page).1 = (fixMedia (fixPageBoxes page).1.mediaBox).1 :=
        congrArg (fun e => (fixMedia e).1) hattribute
    _ = mediaOf page := congrArg Prod.fst hagain

theorem cropOf_fixPageBoxes : cropOf (fixPageBoxes page).1 = cropOf page := by
  have hattribute := getAttribute_fixCrop (mediaOf page) page.cropBox page.parentCropBox
  have heff := (fixCrop_spec (proper_mediaOf page)
    (getAttribute page.cropBox page.parentCropBox)).1
  rw [cropOf, mediaOf_fixPageBoxes]
  exact (congrArg (effCrop (mediaOf page)) hattribute).trans heff

theorem targetOf_fixPageBoxes : targetOf (fixPageBoxes page).1 = targetOf page := by
  have hagain := (fixTrimArt_spec (proper_cropOf page) page.trimBox page.artBox).2.2
  rw [targetOf, cropOf_fixPageBoxes]
  exact congrArg Prod.fst hagain

/-- A second repair changes nothing. -/
theorem fixPageBoxes_stable : (fixPageBoxes (fixPageBoxes page).1).1 = (fixPageBoxes page).1 := by
  have hmedia : (fixMedia (getAttribute (fixPageBoxes page).1.mediaBox page.parentMediaBox)).2 =
      (fixPageBoxes page).1.mediaBox := by
    rw [getAttribute_mediaBox]
    exact congrArg Prod.snd (fixMedia_spec (getAttribute page.mediaBox page.parentMediaBox)).2.2
  have hcrop :
      fixCrop (mediaOf page) (getAttribute (fixPageBoxes page).1.cropBox page.parentCropBox) =
      (fixPageBoxes page).1.cropBox :=
    (congrArg (fixCrop (mediaOf page))
      (getAttribute_fixCrop (mediaOf page) page.cropBox page.parentCropBox)).trans
      (fixCrop_spec (proper_mediaOf page) (getAttribute page.cropBox page.parentCropBox)).2
  have htrim := (fixTrimArt_spec (proper_cropOf page) page.trimBox page.artBox).2.2
  have hbleed := fixBleed_fixBleed (proper_cropOf page) (targetOf page) page.bleedBox
  have hpage : (fixPageBoxes (fixPageBoxes page).1).1 =
      { (fixPageBoxes page).1 with
        mediaBox := (fixMedia (getAttribute (fixPageBoxes page).1.mediaBox page.parentMediaBox)).2
        cropBox := fixCrop (mediaOf page)
          (getAttribute (fixPageBoxes page).1.cropBox page.parentCropBox)
        trimBox := (fixTrimArt (cropOf page) (fixPageBoxes page).1.trimBox
          (fixPageBoxes page).1.artBox).2.1
        artBox := (fixTrimArt (cropOf page) (fixPageBoxes page).1.trimBox
          (fixPageBoxes page).1.artBox).2.2
        bleedBox := fixBleed (cropOf page) (targetOf page) (fixPageBoxes page).1.bleedBox } := by
    rw [← mediaOf_fixPageBoxes page, ← cropOf_fixPageBoxes page, ← targetOf_fixPageBoxes page]
    rfl
  rw [hpage]
  exact Page.ext hmedia hcrop (congrArg (fun r => r.2.1) htrim) (congrArg (fun r => r.2.2) htrim)
    hbleed rfl rfl

/-- What is left of the bleed box lies in the crop box and holds the box for trimming, if it is
well formed and does not stick out with that box. -/
theorem bleed_iff (hclear : TrimClear page) :
    ((fixPageBoxes page).1.bleedBox ≠ .absent →
        (readBox (fixPageBoxes page).1.bleedBox).ok = true ∧
        Inside (readBox (fixPageBoxes page).1.bleedBox) (cropOf page) ∧
        Inside (readBox (inForce (fixPageBoxes page).1.trimBox (fixPageBoxes page).1.artBox))
          (readBox (fixPageBoxes page).1.bleedBox)) ↔ BleedClear page := by
  have hcrop := proper_cropOf page
  have htarget : readBox (inForce (fixPageBoxes page).1.trimBox (fixPageBoxes page).1.artBox) =
      targetOf page := readBox_inForce hcrop hclear
  have hbleed : (fixPageBoxes page).1.bleedBox =
      fixBleed (cropOf page) (targetOf page) page.bleedBox := rfl
  have hproper := proper_bleedFor hcrop (targetOf page) page.bleedBox
  have hholds : (bleedFor (cropOf page) (targetOf page) page.bleedBox).x1 ≤ (targetOf page).x1 ∧
      (bleedFor (cropOf page) (targetOf page) page.bleedBox).y1 ≤ (targetOf page).y1 ∧
      (targetOf page).x2 ≤ (bleedFor (cropOf page) (targetOf page) page.bleedBox).x2 ∧
      (targetOf page).y2 ≤ (bleedFor (cropOf page) (targetOf page) page.bleedBox).y2 :=
    ⟨min_le_right _ _, min_le_right _ _, le_max_right _ _, le_max_right _ _⟩
  rw [htarget, hbleed]
  cases hok : (readBox page.bleedBox).ok with
  | false =>
      have hkept : fixBleed (cropOf page) (targetOf page) page.bleedBox = page.bleedBox := by
        rw [fixBleed, mustFixBleed, hok, Bool.false_and]
        rfl
      rw [hkept, BleedClear, hok]
      constructor
      · intro h
        by_contra hnot
        have habsent : page.bleedBox ≠ .absent := fun habsent => hnot (Or.inl habsent)
        cases (h habsent).1
      · rintro (habsent | ⟨hfalse, -⟩) hne
        · exact absurd habsent hne
        · cases hfalse
  | true =>
      cases hsame : sameBox (bleedFor (cropOf page) (targetOf page) page.bleedBox)
          (readBox page.bleedBox) with
      | true =>
          have hkept : fixBleed (cropOf page) (targetOf page) page.bleedBox = page.bleedBox := by
            rw [fixBleed, mustFixBleed, hsame, Bool.not_true, Bool.and_false]
            rfl
          rw [hkept, BleedClear, hsame, hok]
          constructor
          · intro h
            exact Or.inr ⟨rfl, fun _ => (h (ne_absent_of_ok hok)).2.1⟩
          · rintro (habsent | ⟨-, hinside⟩) hne
            · exact absurd habsent hne
            · exact ⟨rfl, hinside rfl, inside_of_sameBox_left hsame hholds⟩
      | false =>
          have hwritten : fixBleed (cropOf page) (targetOf page) page.bleedBox =
              boxArray (bleedFor (cropOf page) (targetOf page) page.bleedBox) := by
            rw [fixBleed, mustFixBleed, hok, hsame]
            rfl
          have hread := readBox_boxArray hproper
          have hinside : Inside (bleedFor (cropOf page) (targetOf page) page.bleedBox)
              (cropOf page) := by
            obtain ⟨hx1, hy1, hx2, hy2⟩ := cutTo_le (readBox page.bleedBox) (cropOf page)
            obtain ⟨tx1, ty1, tx2, ty2⟩ :=
              (fixTrimArt_spec hcrop page.trimBox page.artBox).2.1
            have hpos := eps_pos
            refine ⟨le_min ?_ tx1, le_min ?_ ty1, max_le ?_ tx2, max_le ?_ ty2⟩
            · linarith
            · linarith
            · linarith
            · linarith
          rw [hwritten, hread, BleedClear, hok, hsame]
          exact ⟨fun _ => Or.inr ⟨rfl, fun hfalse => by cases hfalse⟩,
            fun _ _ => ⟨hproper.ok, hinside, inside_of_le hholds⟩⟩

/-- The boxes of a page are repaired once and for all if and only if no malformed box for
trimming is left over, and the bleed box is well formed and does not stick out. -/
theorem repaired_iff_clear : Repaired page ↔ TrimClear page ∧ BleedClear page := by
  have hcropOf := cropOf_fixPageBoxes page
  have htrimmed := trimmed_iff (proper_cropOf page) page.trimBox page.artBox
  constructor
  · rintro ⟨hnested, -⟩
    have htrim := hnested.trimmed
    have hbleed := hnested.bleed
    rw [hcropOf] at htrim hbleed
    have hclear : TrimClear page := htrimmed.mp htrim
    exact ⟨hclear, (bleed_iff page hclear).mp hbleed⟩
  · rintro ⟨htrim, hbleed⟩
    refine ⟨⟨?_, ?_, ?_, ?_⟩, fixPageBoxes_stable page⟩
    · obtain ⟨hproper, hread, -⟩ := fixMedia_spec (getAttribute page.mediaBox page.parentMediaBox)
      have hattribute := getAttribute_mediaBox page
      exact (congrArg (fun e => (readBox e).ok) hattribute).trans
        ((congrArg Box.ok hread).trans hproper.ok)
    · rw [hcropOf, mediaOf_fixPageBoxes]
      exact ⟨(proper_cropOf page).ok, inside_of_le (effCrop_le _ _)⟩
    · rw [hcropOf]
      exact htrimmed.mpr htrim
    · rw [hcropOf]
      exact (bleed_iff page htrim).mpr hbleed

/-- A page with a trim box and an art box that is no array of numbers. -/
def malformedArtBox : Page where
  mediaBox := .array [some 0, some 0, some 100, some 100]
  cropBox := .absent
  trimBox := .array [some 10, some 10, some 90, some 90]
  artBox := .array []
  bleedBox := .absent
  parentMediaBox := .absent
  parentCropBox := .absent

/-- Both boxes for trimming stay. -/
theorem malformedArtBox_stays : ¬ Repaired malformedArtBox := by
  rintro ⟨hnested, -⟩
  have hart : (fixPageBoxes malformedArtBox).1.artBox = .array [] := by decide +kernel
  have htrim : (fixPageBoxes malformedArtBox).1.trimBox ≠ .absent := by decide +kernel
  rcases hnested.trimmed with ⟨-, habsent, -⟩ | ⟨-, habsent, -⟩
  · rw [hart] at habsent
    cases habsent
  · exact htrim habsent

end

end Kura.Engine.PageBoxes
