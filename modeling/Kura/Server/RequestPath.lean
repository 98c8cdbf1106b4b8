import Mathlib

/-!
# Paths of requests

`normalize` takes the dot segments out of the path of a request before the
server looks at it: it goes over the segments once and keeps a stack of those
that stand.

A path is a list of characters, and its segments are what stands behind its
first slash, cut at the slashes. A segment that goes up may be written with
escapes, in letters of any case.
-/

namespace Kura.Server.RequestPath

/-- The segments of a path; what stands in front of the first slash is none of them. -/
def segments (path : List Char) : List (List Char) := (path.splitOn '/').drop 1

/-- Segments that stay in a directory. -/
def isDot (s : List Char) : Bool :=
  let l := s.map Char.toLower
  l == ".".toList || l == "%2e".toList

/-- Segments that go up to the parent directory. -/
def isDotDot (s : List Char) : Bool :=
  let l := s.map Char.toLower
  l == "..".toList || l == ".%2e".toList || l == "%2e.".toList || l == "%2e%2e".toList

/-- The stack behind a segment; a dot segment at the end of the path leaves a slash there. -/
def push (last : Bool) (out : List (List Char)) (s : List Char) : List (List Char) :=
  if isDot s then if last then out ++ [[]] else out
  else if isDotDot s then if last then out.dropLast ++ [[]] else out.dropLast
  else out ++ [s]

/-- The stack behind all segments. -/
def pushAll : List (List Char) → List (List Char) → List (List Char)
  | out, [] => out
  | out, s :: rest => pushAll (push rest.isEmpty out s) rest

def normalize (path : List Char) : List Char :=
  '/' :: ['/'].intercalate (pushAll [] (segments path))

/-- How deep below a directory the segments lead, if they stay within the root. -/
def descend : Nat → List (List Char) → Option Nat
  | depth, [] => some depth
  | depth, s :: rest =>
      if isDot s then descend depth rest
      else if isDotDot s then if depth = 0 then none else descend (depth - 1) rest
      else descend (depth + 1) rest

/-- Segments that name something. -/
def Named (s : List Char) : Prop := '/' ∉ s ∧ isDot s = false ∧ isDotDot s = false

theorem named_nil : Named [] := ⟨List.not_mem_nil, rfl, rfl⟩

theorem descend_named {segs : List (List Char)} (h : ∀ s ∈ segs, Named s) (depth : Nat) :
    descend depth segs = some (depth + segs.length) := by
  induction segs generalizing depth with
  | nil => rfl
  | cons s rest ih =>
      obtain ⟨-, hdot, hup⟩ := h s List.mem_cons_self
      rw [descend, hdot, hup, if_neg Bool.false_ne_true, if_neg Bool.false_ne_true,
        ih (fun t ht => h t (List.mem_cons_of_mem _ ht)), List.length_cons]
      congr 1
      omega

/-- A segment leaves named segments on a stack of such segments. -/
theorem named_push {last : Bool} {out : List (List Char)} {s : List Char}
    (hout : ∀ t ∈ out, Named t) (hs : '/' ∉ s) : ∀ t ∈ push last out s, Named t := by
  have hslash : ∀ {out : List (List Char)}, (∀ t ∈ out, Named t) → ∀ t ∈ out ++ [[]], Named t := by
    intro out hout t ht
    rcases List.mem_append.mp ht with ht | ht
    · exact hout t ht
    · obtain rfl := List.mem_singleton.mp ht
      exact named_nil
  have hup : ∀ t ∈ out.dropLast, Named t := fun t ht => hout t (List.mem_of_mem_dropLast ht)
  intro t ht
  rw [push] at ht
  split_ifs at ht with hdot hlast hdotdot hlast
  · exact hslash hout t ht
  · exact hout t ht
  · exact hslash hup t ht
  · exact hup t ht
  · rcases List.mem_append.mp ht with ht | ht
    · exact hout t ht
    · obtain rfl := List.mem_singleton.mp ht
      exact ⟨hs, Bool.eq_false_iff.mpr hdot, Bool.eq_false_iff.mpr hdotdot⟩

theorem named_pushAll {segs : List (List Char)} (hsegs : ∀ s ∈ segs, '/' ∉ s)
    {out : List (List Char)} (hout : ∀ t ∈ out, Named t) : ∀ t ∈ pushAll out segs, Named t := by
  induction segs generalizing out with
  | nil => exact hout
  | cons s rest ih =>
      exact ih (fun t ht => hsegs t (List.mem_cons_of_mem _ ht))
        (named_push hout (hsegs s List.mem_cons_self))

/-- Named segments are all pushed. -/
theorem pushAll_named {segs : List (List Char)} (h : ∀ s ∈ segs, Named s)
    (out : List (List Char)) : pushAll out segs = out ++ segs := by
  induction segs generalizing out with
  | nil => exact (List.append_nil out).symm
  | cons s rest ih =>
      obtain ⟨-, hdot, hup⟩ := h s List.mem_cons_self
      rw [pushAll, push, hdot, hup, if_neg Bool.false_ne_true, if_neg Bool.false_ne_true,
        ih (fun t ht => h t (List.mem_cons_of_mem _ ht)), List.append_assoc, List.singleton_append]

/-- A part of a split path has no slash. -/
theorem not_mem_of_mem_splitOn (cs : List Char) : ∀ s ∈ cs.splitOn '/', '/' ∉ s := by
  induction cs with
  | nil =>
      intro s hs
      rw [List.splitOn_nil, List.mem_singleton] at hs
      rw [hs]
      exact List.not_mem_nil
  | cons c cs ih =>
      intro s hs
      rw [List.splitOn_cons_eq_if_modifyHead] at hs
      split_ifs at hs with hc
      · rcases List.mem_cons.mp hs with rfl | hs
        · exact List.not_mem_nil
        · exact ih s hs
      · cases hsplit : cs.splitOn '/' with
        | nil => exact absurd hsplit (List.splitOn_ne_nil _ _)
        | cons first rest =>
            rw [hsplit] at hs ih
            rcases List.mem_cons.mp hs with rfl | hs
            · rw [List.mem_cons, not_or]
              refine ⟨fun heq => hc ?_, ih first List.mem_cons_self⟩
              rw [← heq]
              rfl
            · exact ih s (List.mem_cons_of_mem _ hs)

theorem slash_not_mem_segments (path : List Char) : ∀ s ∈ segments path, '/' ∉ s := fun s hs =>
  not_mem_of_mem_splitOn path s (List.mem_of_mem_drop hs)

/-- A path of segments without slashes has these segments; one of none has an empty one. -/
theorem segments_join {segs : List (List Char)} (h : ∀ s ∈ segs, '/' ∉ s) :
    segments ('/' :: ['/'].intercalate segs) = if segs = [] then [[]] else segs := by
  have hcons : segments ('/' :: ['/'].intercalate segs) = (['/'].intercalate segs).splitOn '/' := by
    rw [segments, List.splitOn_cons_eq_if_modifyHead, if_pos (beq_self_eq_true '/')]
    rfl
  rw [hcons]
  split_ifs with hnil
  · rw [hnil]
    rfl
  · exact List.splitOn_intercalate '/' h hnil

/-- The segments of a normalized path all name something. -/
theorem named_normalize (path : List Char) : ∀ s ∈ segments (normalize path), Named s := by
  have hnamed : ∀ t ∈ pushAll [] (segments path), Named t :=
    named_pushAll (slash_not_mem_segments path) fun _ ht => absurd ht List.not_mem_nil
  intro s hs
  rw [normalize, segments_join fun t ht => (hnamed t ht).1] at hs
  split_ifs at hs
  · obtain rfl := List.mem_singleton.mp hs
    exact named_nil
  · exact hnamed s hs

/-- A path of segments that all name something is its own normal form. -/
theorem normalize_named {segs : List (List Char)} (h : ∀ s ∈ segs, Named s) :
    normalize ('/' :: ['/'].intercalate segs) = '/' :: ['/'].intercalate segs := by
  rw [normalize, segments_join fun s hs => (h s hs).1]
  split_ifs with hnil
  · rw [hnil]
    rfl
  · rw [pushAll_named h, List.nil_append]

/-- A normalized path has no dot segments, stays within the root wherever it is followed to and
is its own normal form. -/
theorem normalize_contained (path : List Char) :
    (∀ s ∈ segments (normalize path), isDot s = false ∧ isDotDot s = false) ∧
    (∀ segs, segs <+: segments (normalize path) → (descend 0 segs).isSome = true) ∧
    normalize (normalize path) = normalize path := by
  have hnamed := named_normalize path
  refine ⟨fun s hs => (hnamed s hs).2, fun segs hsegs => ?_, ?_⟩
  · rw [descend_named fun s hs => hnamed s (hsegs.mem hs)]
    rfl
  · exact normalize_named (named_pushAll (slash_not_mem_segments path)
      fun _ ht => absurd ht List.not_mem_nil)

example : normalize "/docs/%2E%2e/../index.html".toList = "/index.html".toList := by decide

end Kura.Server.RequestPath
