import Kura.Base.Integers
import Kura.Engine.Number

/-!
# Changing the resolution of images

An image that is placed too small or too large is decoded, resampled and
packed again. The dictionary is edited by hand on three paths: when samples are
added, when they are averaged, and when the result is a bitmap.

## Implementation notes

Numbers are exact. What reads and packs data of the formats is a parameter, and
so is what `lround` makes of a number that no `long` holds. Of the entries that
are only kept or removed nothing is known, and their values are of any type. The
size at which an image is placed is given in points.
-/

namespace Kura.Engine.ImageResolution

open Base (toInt32 lround)

/-- A colour space, as far as it is looked at; the range of samples where it may be another one. -/
inductive ColorSpace where
  | null
  | name (n : String)
  | iccBased (n : Option Int) (range : List (ℚ × ℚ))
  | indexed (full : Bool)
  | calRGB
  | lab (a b : ℚ × ℚ)
  | calGray
  | deviceN (names : Nat)
  | separation
  | other
  deriving DecidableEq

inductive Filters where
  | none
  | name (n : String)
  | array (ns : List String)
  deriving DecidableEq

/-- An image with the entries that are read or edited. -/
structure Image (μ : Type) where
  data : Bytes
  width : Option Int
  height : Option Int
  bitsPerComponent : Option Int
  colorSpace : ColorSpace
  imageMask : Bool
  /-- The items of the array, if it is one. -/
  decode : Option (List (Option ℚ))
  filter : Filters
  decodeParms : Option μ
  interpolate : Option μ
  sMask : Option μ
  mask : Option μ
  sMaskInData : Option μ

/-- Samples of eight bits. -/
structure RawImage where
  width : Int
  height : Int
  comps : Nat
  samples : Bytes
  deriving DecidableEq

/-- What reads and packs data of the formats; what cannot be packed gives nothing. -/
structure Codecs (μ : Type) where
  jpx : Bytes → Option RawImage
  /-- The samples, and whether they are inverted. -/
  dct : Bytes → Option (RawImage × Bool)
  inflate : Bytes → Option Bytes
  /-- The data of a stream behind its filters. -/
  streamData : Image μ → Option Bytes
  flate : Bytes → Bytes
  /-- Samples of a width, a height, a number of components and a quality. -/
  jpeg : Bytes → Nat → Nat → Nat → Nat → Bytes
  /-- What `lround` gives for a number outside of a `long`. -/
  lroundFar : ℚ → ℤ

variable {μ : Type}

def componentsForName (n : String) : Int :=
  if n ∈ ["DeviceGray", "CalGray", "G"] then 1
  else if n ∈ ["DeviceRGB", "CalRGB", "RGB"] then 3
  else if n ∈ ["DeviceCMYK", "CMYK"] then 4
  else 0

def componentsForSpace : ColorSpace → Int
  | .null => 0
  | .name n => componentsForName n
  | .iccBased n _ => n.getD 0
  | .indexed full => if full then -1 else 0
  | .calRGB => 3
  | .lab _ _ => 3
  | .calGray => 1
  | .deviceN names => names
  | .separation => 1
  | .other => 0

/-- The value of a sample of so many bits as eight of them. -/
def expandSample (bpc : Nat) (row : Bytes) (i : Nat) : UInt8 :=
  let byte := fun k => (row[k]?.getD 0).toNat
  if bpc = 1 then UInt8.ofNat (byte (i / 8) / 2 ^ (7 - i % 8) % 2 * 255)
  else if bpc = 2 then UInt8.ofNat (byte (i / 4) / 2 ^ ((3 - i % 4) * 2) % 4 * 85)
  else if bpc = 4 then UInt8.ofNat (byte (i / 2) / 2 ^ ((1 - i % 2) * 4) % 16 * 17)
  else if bpc = 16 then UInt8.ofNat (byte (i * 2))
  else UInt8.ofNat (byte i)

/-- The samples of rows of bits, as far as there are whole rows. -/
def expandBits (data : Bytes) (width height comps bpc : Nat) : Bytes :=
  let rowBytes := (width * comps * bpc + 7) / 8
  let rows := min height (data.length / max rowBytes 1)
  if bpc = 8 then data.take (rows * rowBytes)
  else
    (List.range rows).flatMap fun y =>
      (List.range (width * comps)).map fun i =>
        expandSample bpc ((data.drop (y * rowBytes)).take rowBytes) i

/-- The range of each component, from an array with enough items. -/
def decodePairs (decode : Option (List (Option ℚ))) (comps : Nat) : Option (List (ℚ × ℚ)) :=
  match decode with
  | none => none
  | some items =>
      if items.length < comps * 2 then none
      else some ((List.range comps).map fun c =>
        (((items[c * 2]?).join).getD 0, ((items[c * 2 + 1]?).join).getD 1))

/-- A rounded number as an `int`. -/
def roundedInt (lib : Codecs μ) (q : ℚ) : ℤ :=
  toInt32 (if -2 ^ 63 ≤ lround q ∧ lround q < 2 ^ 63 then lround q else lib.lroundFar q)

/-- A sample in the range of its component, as one from zero to one. -/
def mapSample (lib : Codecs μ) (pair : ℚ × ℚ) (v : UInt8) : UInt8 :=
  let mapped := pair.1 + (v.toNat : ℚ) / 255 * (pair.2 - pair.1)
  UInt8.ofNat (min (max (roundedInt lib (mapped * 255)) 0) 255).toNat

def applyDecode (lib : Codecs μ) (raw : RawImage) (decode : Option (List (Option ℚ))) :
    RawImage :=
  match decodePairs decode raw.comps with
  | none => raw
  | some pairs =>
      if pairs.all fun p => p = (0, 1) then raw
      else
        { raw with
          samples := raw.samples.mapIdx fun i v =>
            mapSample lib (pairs[i % raw.comps]?.getD (0, 1)) v }

def filterList : Filters → List String
  | .none => []
  | .name n => [n]
  | .array ns => ns

/-- The filter next to the samples. -/
def terminal (img : Image μ) : Option String := (filterList img.filter).getLast?

/-- Undoes the filters before the last one. -/
def specialDecodeBytes (lib : Codecs μ) : List String → Bytes → Option Bytes
  | [], raw => some raw
  | [_], raw => some raw
  | f :: rest, raw =>
      if f = "FlateDecode" ∨ f = "Fl" then (lib.inflate raw).bind (specialDecodeBytes lib rest)
      else none

def kMaxImagePixels : Int := 100000000

def kMaxImageSamples : Int := 400000000

def invert (raw : RawImage) : RawImage :=
  { raw with samples := raw.samples.map fun v => UInt8.ofNat (255 - v.toNat) }

/-- The samples of an image whose data are plain; indexed ones have no number of components. -/
def decodePlain (lib : Codecs μ) (img : Image μ) : Option RawImage :=
  let width := img.width.getD 0
  let height := img.height.getD 0
  let bpc := img.bitsPerComponent.getD 8
  let comps := componentsForSpace img.colorSpace
  if width ≤ 0 ∨ height ≤ 0 ∨ kMaxImagePixels < width * height then none
  else if bpc ∉ [1, 2, 4, 8, 16] then none
  else if img.imageMask then none
  else if comps < 1 ∨ 32 < comps ∨ kMaxImageSamples < width * height * comps then none
  else
    (lib.streamData img).bind fun raw =>
      if raw.length < (width * comps * bpc + 7) / 8 * height then none
      else some (applyDecode lib
        ⟨width, height, comps.toNat,
          expandBits raw width.toNat height.toNat comps.toNat bpc.toNat⟩ img.decode)

def decodeImage (lib : Codecs μ) (img : Image μ) : Option RawImage :=
  if terminal img = some "JPXDecode" then
    (specialDecodeBytes lib (filterList img.filter) img.data).bind lib.jpx
  else if terminal img = some "DCTDecode" ∨ terminal img = some "DCT" then
    ((specialDecodeBytes lib (filterList img.filter) img.data).bind lib.dct).map fun r =>
      applyDecode lib (if r.2 then invert r.1 else r.1) img.decode
  else decodePlain lib img

/-- A sample of an image. -/
def sampleAt (src : RawImage) (x y c : Nat) : Nat :=
  (src.samples[(y * src.width.toNat + x) * src.comps + c]?.getD 0).toNat

/-- The two neighbours of a sample of the larger image, and the weight of the second one. -/
def neighbours (size nsize x : Nat) : Nat × Nat × ℚ :=
  let f : ℚ := max 0 ((x + 1 / 2) * size / nsize - 1 / 2)
  let x0 := min ⌊f⌋.toNat (size - 1)
  (x0, min (x0 + 1) (size - 1), f - x0)

def interpolated (src : RawImage) (nw nh : Nat) : Bytes :=
  (List.range nh).flatMap fun y =>
    (List.range nw).flatMap fun x =>
      (List.range src.comps).map fun c =>
        let (y0, y1, wy) := neighbours src.height.toNat nh y
        let (x0, x1, wx) := neighbours src.width.toNat nw x
        UInt8.ofNat (lround
          ((1 - wy) * ((1 - wx) * sampleAt src x0 y0 c + wx * sampleAt src x1 y0 c) +
            wy * ((1 - wx) * sampleAt src x0 y1 c + wx * sampleAt src x1 y1 c))).toNat

/-- The samples from one place on that are averaged, at least one. -/
def cell (size outSize x : Nat) : Nat × Nat :=
  let x0 := x * size / outSize
  let x1 := (x + 1) * size / outSize
  (x0, min (if x1 ≤ x0 then x0 + 1 else x1) size)

def boxDownsample (src : RawImage) (outW outH : Nat) : Option Bytes :=
  if outW = 0 ∨ outH = 0 ∨ src.comps = 0 then none
  else if (src.samples.length : Int) < src.width * src.height * src.comps then none
  else some <|
    (List.range outH).flatMap fun y =>
      (List.range outW).flatMap fun x =>
        (List.range src.comps).map fun c =>
          let (y0, y1) := cell src.height.toNat outH y
          let (x0, x1) := cell src.width.toNat outW x
          let values := (List.range' y0 (y1 - y0)).flatMap fun yy =>
            (List.range' x0 (x1 - x0)).map fun xx => sampleAt src xx yy c
          UInt8.ofNat (values.sum / values.length)

/-- The bits of samples, those from the middle up being set. -/
def bitmapOf (small : Bytes) (nw nh : Nat) : Bytes :=
  (List.range nh).flatMap fun y =>
    (List.range ((nw + 7) / 8)).map fun k =>
      UInt8.ofNat ((List.range 8).map fun i =>
        if k * 8 + i < nw ∧ 128 ≤ (small[y * nw + k * 8 + i]?.getD 0).toNat then 2 ^ (7 - i)
        else 0).sum

structure Options where
  imageMaxPpi : ℚ := 0
  imageDownsampleAbovePpi : ℚ := 0
  imageDownsampleKind : String := ""
  imageUpsampleBelowPpi : ℚ := 0
  imageUpsampleToPpi : ℚ := 0

/-- What is to be done with an image, and its new size. -/
inductive Route where
  | leave
  | up (nw nh : Nat)
  | down (nw nh : Nat)
  deriving DecidableEq

/-- The device colour space of so many components. -/
def deviceSpace (comps : Nat) : ColorSpace :=
  .name (if comps = 1 then "DeviceGray" else if comps = 3 then "DeviceRGB" else "DeviceCMYK")

def isIndexed : ColorSpace → Bool
  | .indexed _ => true
  | _ => false

/-- The image is one of bits. -/
def isBitmap (img : Image μ) : Bool := img.bitsPerComponent.getD 8 = 1 || img.imageMask

/-- How an image of this size is treated, placed at a width and a height. -/
def route (opt : Options) (wpt hpt : ℚ) (img : Image μ) : Route :=
  let pw := img.width.getD 0
  let phh := img.height.getD 0
  if wpt ≤ 1 / 100 ∨ hpt ≤ 1 / 100 ∨ pw ≤ 0 ∨ phh ≤ 0 then .leave
  else
    let ppiX := pw * 72 / wpt
    let ppiY := phh * 72 / hpt
    let ppi := if ppiX > ppiY then ppiX else ppiY
    if opt.imageUpsampleBelowPpi > 0 ∧ ppi < opt.imageUpsampleBelowPpi then
      let target :=
        if opt.imageUpsampleToPpi > ppi then opt.imageUpsampleToPpi else opt.imageUpsampleBelowPpi
      let up := target / ppi
      let nw := ⌊pw * up + 1 / 2⌋
      let nh := ⌊phh * up + 1 / 2⌋
      if nw ≤ pw ∨ nh ≤ phh ∨ 60000000 < nw * nh then .leave else .up nw.toNat nh.toNat
    else
      let above :=
        if opt.imageDownsampleAbovePpi > 0 then opt.imageDownsampleAbovePpi
        else opt.imageMaxPpi * (105 / 100)
      if opt.imageMaxPpi ≤ 0 ∨ ppi ≤ above then .leave
      else if opt.imageDownsampleKind ≠ "" ∧
          isBitmap img ≠ decide (opt.imageDownsampleKind = "bitmap") then .leave
      else
        let scale := opt.imageMaxPpi / ppi
        let nw := ⌊pw * scale + 1 / 2⌋
        let nh := ⌊phh * scale + 1 / 2⌋
        if nw < 8 ∨ nh < 8 then .leave
        else if nw ≥ pw ∧ nh ≥ phh then .leave
        else .down nw.toNat nh.toNat

/-- The decoded image, if it is of the size that is given and has colours that can be treated. -/
def sourceOf (lib : Codecs μ) (img : Image μ) : Option RawImage :=
  (decodeImage lib img).filter fun src =>
    src.width = img.width.getD 0 && src.height = img.height.getD 0 &&
      (src.comps = 1 || src.comps = 3 || src.comps = 4)

/-- Puts packed samples into an image. -/
def replaceData (img : Image μ) (packed : Bytes) (filter : String) (nw nh bpc : Nat) : Image μ :=
  { img with
    data := packed, filter := .name filter, decodeParms := none
    width := some nw, height := some nh, bitsPerComponent := some bpc, decode := none }

/-- The larger image. -/
def upsample (lib : Codecs μ) (img : Image μ) (nw nh : Nat) : Option (Image μ) :=
  (sourceOf lib img).bind fun src =>
    let big := interpolated src nw nh
    let lossy := img.filter = .name "DCTDecode" ∨ img.filter = .name "JPXDecode"
    let jpg := if lossy ∧ src.comps ≠ 4 then lib.jpeg big nw nh src.comps 90 else []
    let packed := if jpg = [] then lib.flate big else jpg
    if packed = [] then none
    else
      let filter := if jpg = [] then "FlateDecode" else "DCTDecode"
      some { replaceData img packed filter nw nh 8 with
        sMaskInData := none
        colorSpace :=
          if isIndexed img.colorSpace ∨ img.colorSpace = .null then deviceSpace src.comps
          else img.colorSpace }

/-- The smaller image. -/
def downsample (lib : Codecs μ) (opt : Options) (img : Image μ) (nw nh : Nat) :
    Option (Image μ) :=
  (sourceOf lib img).bind fun src =>
    let kind := opt.imageDownsampleKind
    if (kind = "colour" ∧ src.comps = 1) ∨ ((kind = "grey" ∨ kind = "bitmap") ∧ src.comps ≠ 1) then
      none
    else
      (boxDownsample src nw nh).bind fun small =>
        if kind = "bitmap" then
          let packed := lib.flate (bitmapOf small nw nh)
          if packed = [] then none
          else some { replaceData img packed "FlateDecode" nw nh 1 with
            colorSpace := .name "DeviceGray" }
        else
          let before := img.data.length
          let flate := lib.flate small
          let jpg := if src.comps = 1 ∨ src.comps = 3 then lib.jpeg small nw nh src.comps 85 else []
          let useJpg := jpg ≠ [] ∧ (flate = [] ∨ jpg.length < flate.length)
          let packed := if useJpg then jpg else flate
          if packed = [] ∨ (before ≠ 0 ∧ packed.length ≥ before) then none
          else
            some { replaceData img packed (if useJpg then "DCTDecode" else "FlateDecode") nw nh
              8 with
              interpolate := none
              colorSpace := deviceSpace src.comps }

/-- What becomes of an image that is placed at a width and a height; none if it is left alone. -/
def rewriteImage (lib : Codecs μ) (opt : Options) (wpt hpt : ℚ) (img : Image μ) :
    Option (Image μ) :=
  match route opt wpt hpt img with
  | .leave => none
  | .up nw nh => upsample lib img nw nh
  | .down nw nh => downsample lib opt img nw nh

end Kura.Engine.ImageResolution
