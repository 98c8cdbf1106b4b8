import Kura.Engine.PageResources
import Kura.Engine.TintProgram

/-!
# Merged inks

Two colours with different inks are brought to one space with the inks of both.
A space that is not there yet is made with a tint program for its inks and added
to the page.

## Implementation notes

A space of the document is kept by its key and its inks; reading and converting
its colours is the business of another module and comes in as a parameter. A
colour without the name of a space is one of a device space. What the inks look
like in process colours is learned from the first colour that has them.
-/

namespace Kura.Engine.Inks

open Kura.Engine.Calculator

/-- The dictionary and the text of a function of type 4. -/
structure TintFn where
  domain : List ℚ
  range : List ℚ
  data : List Char
  deriving DecidableEq

/-- The function of a space with some alternates. -/
def tintFn (alts : List Alternate) : TintFn :=
  ⟨unitBounds alts.length, unitBounds 4, tintProgram alts⟩

/-- A colour space: one of the document, or one of several inks that was made here. -/
inductive Space where
  | document (key : String) (names : List String)
  | deviceN (id : Nat) (names : List String) (alternate : String) (fn : TintFn)
  deriving DecidableEq

namespace Space

/-- The inks of a space. -/
def names : Space → List String
  | document _ names | deviceN _ names _ _ => names

def spaceKey : Space → String
  | document key _ => key
  | deviceN id _ _ _ => "o" ++ toString id ++ "_0"

end Space

/-- The key of the space of a colour; a device space has none. -/
def spaceKey : Option Space → String
  | none => ""
  | some s => s.spaceKey

/-- The process inks. -/
def kProc : List String := ["/Cyan", "/Magenta", "/Yellow", "/Black"]

structure Colour where
  kind : Int := 1
  cs : Option String := none
  fam : String := "/DeviceGray"
  space : Option Space := none
  names : List String := []
  v : List ℚ := [0]
  csOp : String := ""
  csName : String := ""
  restore : String := ""
  pattern : String := ""
  deriving DecidableEq

/-- A colour as it is converted. -/
structure ColorValue where
  family : String
  colorants : List String
  values : List ℚ
  space : Option Space

/-- The page, what the inks look like, and how many objects the document has. -/
structure InkEnv extends PageEnv Space where
  alt : List (String × Alternate)
  objects : Nat

def isDevice (fam : String) : Bool :=
  fam = "/DeviceGray" || fam = "/DeviceRGB" || fam = "/DeviceCMYK"

def device (v : List ℚ) : Colour :=
  if v.length = 4 then { kind := -1, fam := "/DeviceCMYK", names := kProc, v := v }
  else if v.length = 3 then { fam := "/DeviceRGB", v := v }
  else { v := v }

def sameSpace (a b : Colour) : Bool :=
  if a.kind ≠ b.kind ∨ a.kind = 0 ∨ 1 < a.kind ∨ a.v.length ≠ b.v.length ∨ a.fam ≠ b.fam then false
  else if a.cs = b.cs then true
  else if isDevice a.fam then a.cs.isNone = b.cs.isNone ∧ a.cs = none
  else spaceKey a.space = spaceKey b.space ∧ spaceKey a.space ≠ ""

/-- The alternate of a process ink. -/
def unitAlternate (i : Nat) : Alternate := Vector.ofFn fun j => if j.val = i then 1 else 0

variable (toProcess : ColorValue → Option Alternate)

/-- Learns what the inks of a colour look like, from one on; false if an ink cannot be
converted. -/
def learnFrom (c : Colour) : Nat → List String → InkEnv → Bool × InkEnv
  | _, [], env => (true, env)
  | k, nm :: rest, env =>
      if (env.alt.lookup nm).isSome then learnFrom c (k + 1) rest env
      else if nm ∈ kProc then
        learnFrom c (k + 1) rest
          { env with alt := (nm, unitAlternate (kProc.idxOf nm)) :: env.alt }
      else
        match toProcess ⟨c.fam, c.names, (List.replicate c.names.length 0).set k 1, c.space⟩ with
        | none => (false, env)
        | some out => learnFrom c (k + 1) rest { env with alt := (nm, out) :: env.alt }

def learnAlt (c : Colour) (env : InkEnv) : Bool × InkEnv := learnFrom toProcess c 0 c.names env

/-- Adds the names that are not there yet. -/
def addNames (u ns : List String) : List String :=
  ns.foldl (fun u nm => if nm ∈ u then u else u ++ [nm]) u

/-- The inks of two colours, the process inks first. -/
def mergedNames (a b : Colour) : List String :=
  addNames (addNames (kProc.filter fun p => p ∈ a.names ∨ p ∈ b.names) a.names) b.names

/-- The key of a space of several inks. -/
def inkKey (u : List String) : String := u.foldl (· ++ ·) "DN"

/-- The space of the merged inks, as a colour. -/
def frameOf (a b : Colour) (env : InkEnv) : Colour × InkEnv :=
  let u := mergedNames a b
  if u = kProc then (device [0, 0, 0, 0], env)
  else if u = a.names then (a, env)
  else if u = b.names then (b, env)
  else
    match env.spaces.lookup (inkKey u) with
    | some n =>
        ({ kind := -1, fam := "/DeviceN", names := u, cs := some n,
           space := env.getKey "/ColorSpace" n }, env)
    | none =>
        let alts := u.map fun nm => (env.alt.lookup nm).getD (Vector.replicate 4 0)
        -- the function, the reference to it and the space are objects of the document
        let arr := Space.deviceN (env.objects + 3) u "/DeviceCMYK" (tintFn alts)
        let r := env.toPageEnv.spaceName arr (inkKey u)
        ({ kind := -1, fam := "/DeviceN", names := u, space := some arr, cs := some r.1 },
          { env with toPageEnv := r.2, objects := env.objects + 3 })

/-- The tints of a colour at the inks of a space. -/
def tintsAt (u : List String) (c : Colour) : List ℚ :=
  (c.names.zip c.v).foldl (fun v p => v.set (u.idxOf p.1) p.2) (List.replicate u.length 0)

/-- A colour in the space of another one. -/
def moveTo (frame : Colour) (u : List String) (c : Colour) : Colour :=
  { frame with v := tintsAt u c, restore := c.restore }

/-- Brings two colours to one space; none if that is not possible. -/
def mergeInks (a b : Colour) (env : InkEnv) : Option (Colour × Colour) × InkEnv :=
  if a.names = b.names ∧ sameSpace a b then (some (a, b), env)
  else if 8 < (mergedNames a b).length then (none, env)
  else
    let ra := learnAlt toProcess a env
    if ra.1 then
      let rb := learnAlt toProcess b ra.2
      if rb.1 then
        let r := frameOf a b rb.2
        (some (moveTo r.1 (mergedNames a b) a, moveTo r.1 (mergedNames a b) b), r.2)
      else (none, rb.2)
    else (none, ra.2)

/-- The inks of the space that a colour is painted in: that of its name, or the device space
of its number of components. -/
def inksOf (env : PageEnv Space) (c : Colour) : Option (List String) :=
  match c.cs with
  | some n => (env.getKey "/ColorSpace" n).map Space.names
  | none => some (if c.v.length = 1 ∨ c.v.length = 3 then [] else kProc)

/-- An ink has a tint in a colour. -/
def HasTint (c : Colour) (x : String) (t : ℚ) : Prop := (x, t) ∈ c.names.zip c.v

/-- A colour of inks: its names are the inks of its space. -/
structure IsInked (env : PageEnv Space) (c : Colour) : Prop where
  painted : inksOf env c = some c.names
  ne_nil : c.names ≠ []

/-- Two colours in the same space. -/
def InSameSpace (a b : Colour) : Prop :=
  a.names = b.names ∧ a.fam = b.fam ∧
    (a.cs = b.cs ∨ spaceKey a.space = spaceKey b.space ∧ spaceKey b.space ≠ "")

/-- The inks of a colour have the tints they had before, and only these; what the colour did
not use has none. -/
structure KeepsInks (c c' : Colour) : Prop where
  names : ∀ x ∈ c.names, x ∈ c'.names
  tint : ∀ x t, HasTint c x t → ∀ t', HasTint c' x t' ↔ t' = t
  rest : ∀ x t, HasTint c' x t → x ∉ c.names → t = 0

/-- Two colours that were brought to one space without a change to their inks. -/
structure InksKept (env' : PageEnv Space) (a b a' b' : Colour) : Prop where
  inkedA : IsInked env' a'
  inkedB : IsInked env' b'
  same : InSameSpace a' b'
  keepsA : KeepsInks a a'
  keepsB : KeepsInks b b'

/-- An ink that a colour names twice has one tint there. -/
def Consistent (c : Colour) : Prop := ∀ x t t', HasTint c x t → HasTint c x t' → t = t'

theorem mem_addNames {u ns : List String} {x : String} : x ∈ addNames u ns ↔ x ∈ u ∨ x ∈ ns := by
  induction ns generalizing u with
  | nil => simp [addNames]
  | cons n ns ih =>
      rw [addNames, List.foldl_cons]
      change x ∈ addNames (if n ∈ u then u else u ++ [n]) ns ↔ _
      rw [ih]
      split_ifs with hn
      · rw [List.mem_cons]
        constructor
        · exact fun h => h.imp_right Or.inr
        · rintro (h | rfl | h)
          · exact Or.inl h
          · exact Or.inl hn
          · exact Or.inr h
      · simp [or_assoc]

theorem nodup_addNames {u ns : List String} (h : u.Nodup) : (addNames u ns).Nodup := by
  induction ns generalizing u with
  | nil => exact h
  | cons n ns ih =>
      rw [addNames, List.foldl_cons]
      refine ih ?_
      split_ifs with hn
      · exact h
      · exact List.nodup_append.mpr ⟨h, List.nodup_singleton n, by
          rintro x hx y hy rfl
          rw [List.mem_singleton] at hy
          exact hn (hy ▸ hx)⟩

theorem nodup_mergedNames (a b : Colour) : (mergedNames a b).Nodup := by
  refine nodup_addNames (nodup_addNames (List.Nodup.filter _ ?_))
  decide

theorem mem_mergedNames {a b : Colour} {x : String} :
    x ∈ mergedNames a b ↔ x ∈ a.names ∨ x ∈ b.names := by
  rw [mergedNames, mem_addNames, mem_addNames, List.mem_filter, decide_eq_true_eq]
  tauto

theorem length_tintsAt (u : List String) (c : Colour) : (tintsAt u c).length = u.length := by
  have hfold : ∀ (ps : List (String × ℚ)) (v : List ℚ),
      (ps.foldl (fun v p => v.set (u.idxOf p.1) p.2) v).length = v.length := by
    intro ps
    induction ps with
    | nil => exact fun _ => rfl
    | cons p ps ih =>
        intro v
        rw [List.foldl_cons, ih, List.length_set]
  rw [tintsAt, hfold, List.length_replicate]

/-- Tints that are set by name: where all tints of a name are the same, that is its tint. -/
theorem getElem?_foldl_set {u : List String} {x : String} (hx : x ∈ u) {t : ℚ}
    {ps : List (String × ℚ)} {v : List ℚ} (hlen : v.length = u.length)
    (hu : ∀ p ∈ ps, p.1 ∈ u) (hall : ∀ p ∈ ps, p.1 = x → p.2 = t)
    (h : (x, t) ∈ ps ∨ v[u.idxOf x]? = some t) :
    (ps.foldl (fun v p => v.set (u.idxOf p.1) p.2) v)[u.idxOf x]? = some t := by
  induction ps generalizing v with
  | nil => exact h.resolve_left List.not_mem_nil
  | cons p ps ih =>
      rw [List.foldl_cons]
      refine ih (by rw [List.length_set, hlen]) (fun q hq => hu q (List.mem_cons_of_mem _ hq))
        (fun q hq => hall q (List.mem_cons_of_mem _ hq)) ?_
      by_cases hp : p.1 = x
      · right
        rw [hp, List.getElem?_set_self (by rw [hlen]; exact List.idxOf_lt_length_of_mem hx),
          hall p List.mem_cons_self hp]
      · have hne : u.idxOf p.1 ≠ u.idxOf x := fun heq =>
          hp ((List.idxOf_inj (hu p List.mem_cons_self)).mp heq)
        rw [List.getElem?_set_ne hne]
        refine h.imp_left fun hmem => ?_
        rcases List.mem_cons.mp hmem with rfl | hmem
        · exact absurd rfl hp
        · exact hmem

theorem mem_zip_iff {u : List String} (hu : u.Nodup) {v : List ℚ} {x : String} {t : ℚ}
    (hx : x ∈ u) : (x, t) ∈ u.zip v ↔ v[u.idxOf x]? = some t := by
  constructor
  · intro h
    obtain ⟨i, hi, heq⟩ := List.mem_iff_getElem.mp h
    rw [List.getElem_zip, Prod.mk.injEq] at heq
    rw [List.length_zip] at hi
    have hidx : u.idxOf x = i := by
      rw [← heq.1]
      exact hu.idxOf_getElem i (by omega)
    rw [hidx, List.getElem?_eq_getElem (by omega), heq.2]
  · intro h
    obtain ⟨hi, heq⟩ := List.getElem?_eq_some_iff.mp h
    have hlt := List.idxOf_lt_length_of_mem hx
    refine List.mem_iff_getElem.mpr ⟨u.idxOf x, by rw [List.length_zip]; omega, ?_⟩
    rw [List.getElem_zip, heq, List.getElem_idxOf]

/-- Moved to a space with its inks, a colour keeps these. -/
theorem keepsInks_moveTo {frame : Colour} {u : List String} {c : Colour} (hnames : frame.names = u)
    (hu : u.Nodup) (hsub : ∀ x ∈ c.names, x ∈ u) (hc : Consistent c) :
    KeepsInks c (moveTo frame u c) := by
  have hpairs : ∀ p ∈ c.names.zip c.v, p.1 ∈ u := fun p hp => hsub _ (List.of_mem_zip hp).1
  have htint {x : String} {t : ℚ} (hx : x ∈ u) :
      HasTint (moveTo frame u c) x t ↔ (tintsAt u c)[u.idxOf x]? = some t := by
    rw [HasTint, moveTo, hnames, mem_zip_iff hu hx]
  refine ⟨fun x hx => ?_, fun x t h t' => ?_, fun x t h hx => ?_⟩
  · rw [moveTo, hnames]
    exact hsub x hx
  · have hx : x ∈ u := hpairs _ h
    have hset : (tintsAt u c)[u.idxOf x]? = some t := by
      refine getElem?_foldl_set hx (by rw [List.length_replicate]) hpairs ?_ (Or.inl h)
      intro p hp hpx
      exact hc x p.2 t (hpx ▸ hp) h
    rw [htint hx, hset, Option.some.injEq]
    exact eq_comm
  · have hxu : x ∈ u := by
      rw [HasTint, moveTo, hnames] at h
      exact (List.of_mem_zip h).1
    have hset : (tintsAt u c)[u.idxOf x]? = some 0 := by
      refine getElem?_foldl_set hxu (by rw [List.length_replicate]) hpairs ?_ (Or.inr ?_)
      · intro p hp hpx
        exact absurd (hpx ▸ (List.of_mem_zip hp).1) hx
      · rw [List.getElem?_replicate, if_pos (List.idxOf_lt_length_of_mem hxu)]
    rw [htint hxu, hset, Option.some.injEq] at h
    exact h.symm

/-- A colour that names each ink once has one tint for it. -/
theorem consistent_of_nodup {c : Colour} (h : c.names.Nodup) : Consistent c := by
  intro x t t' ht ht'
  have hx := (List.of_mem_zip ht).1
  rw [HasTint, mem_zip_iff h hx] at ht ht'
  exact Option.some.inj (ht.symm.trans ht')

/-- A colour without two tints for one ink keeps its inks where it stays. -/
theorem keepsInks_self {c : Colour} (hc : Consistent c) : KeepsInks c c := by
  refine ⟨fun x hx => hx, fun x t h t' => ⟨fun h' => hc x t' t h' h, ?_⟩, fun x t h hx => ?_⟩
  · rintro rfl
    exact h
  · exact absurd (List.of_mem_zip h).1 hx

theorem consistent_of_keepsInks {c c' : Colour} (h : KeepsInks c c') : Consistent c :=
  fun x t t' ht ht' => (h.tint x t' ht' t).mp ((h.tint x t ht t).mpr rfl)

theorem inSameSpace_of_sameSpace {a b : Colour} (hnames : a.names = b.names)
    (h : sameSpace a b = true) : InSameSpace a b := by
  rw [sameSpace] at h
  split_ifs at h with hne hcs hdevice
  · exact ⟨hnames, not_not.mp fun hfam => hne (by tauto), Or.inl hcs⟩
  · have hfam : a.fam = b.fam := not_not.mp fun hfam => hne (by tauto)
    rw [decide_eq_true_eq] at h
    refine ⟨hnames, hfam, Or.inl ?_⟩
    have hb : b.cs = none := by
      rw [← Option.isNone_iff_eq_none, ← h.1, h.2]
      rfl
    rw [h.2, hb]
  · have hfam : a.fam = b.fam := not_not.mp fun hfam => hne (by tauto)
    rw [decide_eq_true_eq] at h
    exact ⟨hnames, hfam, Or.inr ⟨h.1, h.1 ▸ h.2⟩⟩

/-- Learning what inks look like leaves the page as it is. -/
theorem learnFrom_toPageEnv (c : Colour) (k : Nat) (ns : List String) (env : InkEnv) :
    (learnFrom toProcess c k ns env).2.toPageEnv = env.toPageEnv := by
  induction ns generalizing k env with
  | nil => rfl
  | cons nm ns ih =>
      rw [learnFrom]
      split_ifs with hknown hproc
      · exact ih _ _
      · exact ih _ _
      · cases toProcess ⟨c.fam, c.names, (List.replicate c.names.length 0).set k 1, c.space⟩ with
        | none => rfl
        | some out => exact ih _ _

theorem learnAlt_toPageEnv (c : Colour) (env : InkEnv) :
    (learnAlt toProcess c env).2.toPageEnv = env.toPageEnv :=
  learnFrom_toPageEnv toProcess c 0 c.names env

/-- The space that is kept for merged inks, if there is one, is one of these inks. -/
def CachedRight (env : PageEnv Space) (u : List String) : Prop :=
  ∀ n, env.spaces.lookup (inkKey u) = some n →
    (env.getKey "/ColorSpace" n).map Space.names = some u

theorem mergedNames_ne_nil {a b : Colour} (ha : a.names ≠ []) : mergedNames a b ≠ [] := by
  obtain ⟨x, hx⟩ := List.exists_mem_of_ne_nil _ ha
  exact List.ne_nil_of_mem (mem_mergedNames.mpr (Or.inl hx))

/-- A colour of inks that is not in process colours has a named space. -/
theorem inksOf_named {env : PageEnv Space} {c c' : Colour} (hc : IsInked env c)
    (hproc : c.names ≠ kProc)
    (hcs : c'.cs = c.cs) : inksOf env c' = some c.names := by
  cases hname : c.cs with
  | none =>
      have hpainted := hc.painted
      rw [inksOf, hname] at hpainted
      simp only [Option.some.injEq] at hpainted
      split_ifs at hpainted
      · exact absurd hpainted.symm hc.ne_nil
      · exact absurd hpainted.symm hproc
  | some n =>
      have hpainted := hc.painted
      rw [inksOf, hname] at hpainted
      rw [inksOf, hcs, hname]
      exact hpainted

/-- The merged inks find a space with just these inks. -/
def SpaceRight (env : PageEnv Space) (a b : Colour) : Prop :=
  mergedNames a b = kProc ∨ mergedNames a b = a.names ∨ mergedNames a b = b.names ∨
    CachedRight env (mergedNames a b)

theorem names_frameOf (a b : Colour) (env : InkEnv) :
    (frameOf a b env).1.names = mergedNames a b := by
  simp only [frameOf]
  split_ifs with hproc ha hb
  · exact hproc.symm
  · exact ha.symm
  · exact hb.symm
  · cases env.spaces.lookup (inkKey (mergedNames a b)) <;> rfl

/-- The space of the merged inks is one of these inks exactly if none with other inks is kept
for them. -/
theorem isInked_frameOf_iff {a b : Colour} {env : InkEnv} (ha : IsInked env.toPageEnv a)
    (hb : IsInked env.toPageEnv b) (c : Colour) :
    IsInked (frameOf a b env).2.toPageEnv (moveTo (frameOf a b env).1 (mergedNames a b) c) ↔
      SpaceRight env.toPageEnv a b := by
  have hne : (moveTo (frameOf a b env).1 (mergedNames a b) c).names ≠ [] := by
    rw [moveTo, names_frameOf]
    exact mergedNames_ne_nil ha.ne_nil
  have hpainted :
      IsInked (frameOf a b env).2.toPageEnv (moveTo (frameOf a b env).1 (mergedNames a b) c) ↔
      inksOf (frameOf a b env).2.toPageEnv (moveTo (frameOf a b env).1 (mergedNames a b) c) =
        some (mergedNames a b) := by
    have hnames : (moveTo (frameOf a b env).1 (mergedNames a b) c).names = mergedNames a b :=
      names_frameOf a b env
    constructor
    · exact fun h => hnames ▸ h.painted
    · exact fun h => ⟨hnames.symm ▸ h, hne⟩
  rw [hpainted, SpaceRight, frameOf]
  simp only
  split_ifs with hproc hnamesA hnamesB
  · refine iff_of_true ?_ (Or.inl hproc)
    have hlen : (tintsAt (mergedNames a b) c).length = 4 := by
      rw [length_tintsAt, hproc]
      rfl
    rw [hproc] at hlen ⊢
    simp [inksOf, moveTo, device, hlen]
  · refine iff_of_true ?_ (Or.inr (Or.inl hnamesA))
    rw [hnamesA] at hproc ⊢
    exact inksOf_named ha hproc rfl
  · refine iff_of_true ?_ (Or.inr (Or.inr (Or.inl hnamesB)))
    rw [hnamesB] at hproc ⊢
    exact inksOf_named hb hproc rfl
  · simp only [hproc, hnamesA, hnamesB, false_or, CachedRight]
    cases hlookup : env.spaces.lookup (inkKey (mergedNames a b)) with
    | none =>
        refine iff_of_true ?_ (fun n hn => absurd hn (by simp))
        simp only [inksOf, moveTo, PageEnv.spaceName, hlookup]
        have hself := PageEnv.getKey_add_self env.toPageEnv "/ColorSpace" "KuraCS"
          (Space.deviceN (env.objects + 3) (mergedNames a b) "/DeviceCMYK"
            (tintFn ((mergedNames a b).map fun nm =>
              (env.alt.lookup nm).getD (Vector.replicate 4 0))))
        rw [PageEnv.getKey] at hself ⊢
        simp only
        rw [hself]
        rfl
    | some n =>
        simp only [inksOf, moveTo, Option.some.injEq]
        exact ⟨fun h n' hn' => hn' ▸ h, fun h => h n rfl⟩

/-- What the inks of two colours need to be kept, in the state before they are merged. -/
def MergesRight (env : PageEnv Space) (a b : Colour) : Prop :=
  Consistent a ∧ Consistent b ∧
    (a.names = b.names ∧ sameSpace a b = true ∨ SpaceRight env a b)

/-- Merging keeps the inks exactly if the space of the merged inks is right and no ink has
two tints. -/
theorem inksKept_iff {env env' : InkEnv} {a b a' b' : Colour} (ha : IsInked env.toPageEnv a)
    (hb : IsInked env.toPageEnv b) (hmerge : mergeInks toProcess a b env = (some (a', b'), env')) :
    InksKept env'.toPageEnv a b a' b' ↔ MergesRight env.toPageEnv a b := by
  rw [mergeInks] at hmerge
  split_ifs at hmerge with hsame hmany
  · cases hmerge
    constructor
    · exact fun h =>
        ⟨consistent_of_keepsInks h.keepsA, consistent_of_keepsInks h.keepsB, Or.inl hsame⟩
    · rintro ⟨hca, hcb, -⟩
      exact ⟨ha, hb, inSameSpace_of_sameSpace hsame.1 hsame.2, keepsInks_self hca,
        keepsInks_self hcb⟩
  · cases hmerge
  · simp only at hmerge
    split_ifs at hmerge with hlearnA hlearnB
    · rw [Prod.mk.injEq, Option.some.injEq, Prod.mk.injEq] at hmerge
      obtain ⟨⟨rfl, rfl⟩, rfl⟩ := hmerge
      have henv : (learnAlt toProcess b (learnAlt toProcess a env).2).2.toPageEnv =
          env.toPageEnv := by
        rw [learnAlt_toPageEnv, learnAlt_toPageEnv]
      set env₁ := (learnAlt toProcess b (learnAlt toProcess a env).2).2 with henv₁
      have hinked := @isInked_frameOf_iff _ _ env₁ (henv ▸ ha) (henv ▸ hb)
      rw [henv] at hinked
      have hnames := names_frameOf a b env₁
      have hu := nodup_mergedNames a b
      constructor
      · intro h
        exact ⟨consistent_of_keepsInks h.keepsA, consistent_of_keepsInks h.keepsB,
          Or.inr ((hinked a).mp h.inkedA)⟩
      · rintro ⟨hca, hcb, hspace⟩
        have hright := hspace.resolve_left hsame
        refine ⟨(hinked a).mpr hright, (hinked b).mpr hright, ⟨rfl, rfl, Or.inl rfl⟩, ?_, ?_⟩
        · exact keepsInks_moveTo hnames hu (fun x hx => mem_mergedNames.mpr (Or.inl hx)) hca
        · exact keepsInks_moveTo hnames hu (fun x hx => mem_mergedNames.mpr (Or.inr hx)) hcb
    · cases hmerge
    · cases hmerge

/-- A name with a slash at its start only. -/
def PlainName (x : String) : Prop := ∃ cs : List Char, x.toList = '/' :: cs ∧ '/' ∉ cs

theorem toList_inkKey (u : List String) :
    (inkKey u).toList = ['D', 'N'] ++ u.flatMap String.toList := by
  have hfold : ∀ (u : List String) (s : String),
      (u.foldl (· ++ ·) s).toList = s.toList ++ u.flatMap String.toList := by
    intro u
    induction u with
    | nil => intro s; simp
    | cons x u ih =>
        intro s
        rw [List.foldl_cons, ih, String.toList_append, List.flatMap_cons, List.append_assoc]
  rw [inkKey, hfold]
  simp

/-- A plain name ends where the next one starts. -/
theorem takeWhile_plain {cs : List Char} (hslash : '/' ∉ cs) {u : List String}
    (hu : ∀ x ∈ u, PlainName x) :
    (cs ++ u.flatMap String.toList).takeWhile (· != '/') = cs := by
  have hcs : ∀ c ∈ cs, (c != '/') = true := by
    intro c hc
    rw [bne_iff_ne]
    rintro rfl
    exact hslash hc
  rw [List.takeWhile_append_of_pos hcs]
  cases u with
  | nil => exact List.append_nil cs
  | cons x u =>
      obtain ⟨ds, hds, -⟩ := hu x List.mem_cons_self
      rw [List.flatMap_cons, hds, List.cons_append, List.takeWhile_cons_of_neg (by decide),
        List.append_nil]

/-- The key of plain names tells what they are. -/
theorem inkKey_injective {u w : List String} (hu : ∀ x ∈ u, PlainName x) (hw : ∀ x ∈ w, PlainName x)
    (h : inkKey u = inkKey w) : u = w := by
  have hlist : u.flatMap String.toList = w.flatMap String.toList := by
    have h' := congrArg String.toList h
    rwa [toList_inkKey, toList_inkKey, List.append_cancel_left_eq] at h'
  clear h
  induction u generalizing w with
  | nil =>
      cases w with
      | nil => rfl
      | cons y w =>
          obtain ⟨cs, hcs, -⟩ := hw y List.mem_cons_self
          rw [List.flatMap_cons, hcs] at hlist
          cases hlist
  | cons x u ih =>
      obtain ⟨cs, hcs, hslash⟩ := hu x List.mem_cons_self
      cases w with
      | nil =>
          rw [List.flatMap_cons, hcs] at hlist
          cases hlist
      | cons y w =>
          obtain ⟨ds, hds, hslash'⟩ := hw y List.mem_cons_self
          have hurest := fun z hz => hu z (List.mem_cons_of_mem x hz)
          have hwrest := fun z hz => hw z (List.mem_cons_of_mem y hz)
          rw [List.flatMap_cons, List.flatMap_cons, hcs, hds, List.cons_append, List.cons_append,
            List.cons.injEq] at hlist
          have hheads : cs = ds := by
            rw [← takeWhile_plain hslash hurest, hlist.2, takeWhile_plain hslash' hwrest]
          have hxy : x = y := String.toList_injective (by rw [hcs, hds, hheads])
          rw [hheads, List.append_cancel_left_eq] at hlist
          rw [hxy, ih hurest hwrest hlist.2]

/-- Every space that is kept for plain names is the right one. -/
def PlainKept (env : PageEnv Space) : Prop :=
  ∀ u : List String, (∀ x ∈ u, PlainName x) → CachedRight env u

/-- The frame of two colours with plain names keeps the right spaces. -/
theorem plainKept_frameOf {a b : Colour} {env : InkEnv} (henv : PlainKept env.toPageEnv)
    (ha : ∀ x ∈ a.names, PlainName x) (hb : ∀ x ∈ b.names, PlainName x) :
    PlainKept (frameOf a b env).2.toPageEnv := by
  have hmerged : ∀ x ∈ mergedNames a b, PlainName x := by
    intro x hx
    exact (mem_mergedNames.mp hx).elim (ha x) (hb x)
  rw [frameOf]
  simp only
  split_ifs with hproc hnamesA hnamesB
  · exact henv
  · exact henv
  · exact henv
  · cases hlookup : env.spaces.lookup (inkKey (mergedNames a b)) with
    | some n => exact henv
    | none =>
        intro u hu n hn
        simp only [PageEnv.spaceName, hlookup, List.lookup_cons] at hn ⊢
        by_cases hkey : inkKey u = inkKey (mergedNames a b)
        · rw [hkey, beq_self_eq_true] at hn
          cases hn
          have hself := PageEnv.getKey_add_self env.toPageEnv "/ColorSpace" "KuraCS"
            (Space.deviceN (env.objects + 3) (mergedNames a b) "/DeviceCMYK" (tintFn
              ((mergedNames a b).map fun nm => (env.alt.lookup nm).getD (Vector.replicate 4 0))))
          rw [PageEnv.getKey] at hself ⊢
          rw [hself, inkKey_injective hu hmerged hkey]
          rfl
        · rw [beq_eq_false_iff_ne.mpr hkey] at hn
          have hold := henv u hu n hn
          obtain ⟨o, ho, hnames⟩ := Option.map_eq_some_iff.mp hold
          have hkept := PageEnv.getKey_add_of_some env.toPageEnv "/ColorSpace" "KuraCS"
            (Space.deviceN (env.objects + 3) (mergedNames a b) "/DeviceCMYK" (tintFn
              ((mergedNames a b).map fun nm => (env.alt.lookup nm).getD (Vector.replicate 4 0)))) ho
          rw [PageEnv.getKey] at hkept ⊢
          rw [hkept, Option.map_some, hnames]

theorem plainKept_mergeInks {a b : Colour} {env : InkEnv} (henv : PlainKept env.toPageEnv)
    (ha : ∀ x ∈ a.names, PlainName x) (hb : ∀ x ∈ b.names, PlainName x) :
    PlainKept (mergeInks toProcess a b env).2.toPageEnv := by
  rw [mergeInks]
  split_ifs with hsame hmany
  · exact henv
  · exact henv
  · simp only
    split_ifs with hlearnA hlearnB
    · refine plainKept_frameOf ?_ ha hb
      rw [learnAlt_toPageEnv, learnAlt_toPageEnv]
      exact henv
    · rw [learnAlt_toPageEnv, learnAlt_toPageEnv]
      exact henv
    · rw [learnAlt_toPageEnv]
      exact henv

/-- The page after some merges. -/
def mergeAll (pairs : List (Colour × Colour)) (env : InkEnv) : InkEnv :=
  pairs.foldl (fun env p => (mergeInks toProcess p.1 p.2 env).2) env

/-- On a page whose inks have plain names, no merge of a run finds the space of other inks. -/
theorem plainKept_run {pairs : List (Colour × Colour)} {env : InkEnv}
    (henv : PlainKept env.toPageEnv)
    (hplain : ∀ p ∈ pairs, (∀ x ∈ p.1.names, PlainName x) ∧ ∀ x ∈ p.2.names, PlainName x) :
    PlainKept (mergeAll toProcess pairs env).toPageEnv := by
  induction pairs generalizing env with
  | nil => exact henv
  | cons p pairs ih =>
      obtain ⟨ha, hb⟩ := hplain p List.mem_cons_self
      exact ih (plainKept_mergeInks toProcess henv ha hb)
        fun q hq => hplain q (List.mem_cons_of_mem p hq)

/-- Inks with plain names that a colour names once are kept. -/
theorem mergesRight_of_plain {a b : Colour} {env : PageEnv Space} (henv : PlainKept env)
    (ha : ∀ x ∈ a.names, PlainName x) (hb : ∀ x ∈ b.names, PlainName x) (hca : a.names.Nodup)
    (hcb : b.names.Nodup) : MergesRight env a b := by
  refine ⟨consistent_of_nodup hca, consistent_of_nodup hcb, Or.inr (Or.inr (Or.inr (Or.inr ?_)))⟩
  exact henv _ fun x hx => (mem_mergedNames.mp hx).elim (ha x) (hb x)

/-- What is painted in inks stays so on a page that keeps its spaces. -/
theorem IsInked.kept {env env' : PageEnv Space} {c : Colour} (h : IsInked env c)
    (hkept : ∀ n o, env.getKey "/ColorSpace" n = some o → env'.getKey "/ColorSpace" n = some o) :
    IsInked env' c := by
  refine ⟨?_, h.ne_nil⟩
  have hpainted := h.painted
  unfold inksOf at hpainted ⊢
  cases hcs : c.cs with
  | none =>
      rw [hcs] at hpainted
      exact hpainted
  | some n =>
      rw [hcs] at hpainted
      obtain ⟨o, ho, hnames⟩ := Option.map_eq_some_iff.mp hpainted
      exact Option.map_eq_some_iff.mpr ⟨o, hkept n o ho, hnames⟩

/-- A colour space of the page is found in the frame as before. -/
theorem getKey_frameOf {a b : Colour} {env : InkEnv} {n : String} {o : Space}
    (h : env.getKey "/ColorSpace" n = some o) :
    (frameOf a b env).2.getKey "/ColorSpace" n = some o := by
  rw [frameOf]
  simp only
  split_ifs with hproc hnamesA hnamesB
  · exact h
  · exact h
  · exact h
  · cases hlookup : env.spaces.lookup (inkKey (mergedNames a b)) with
    | some n => exact h
    | none =>
        have hkept := PageEnv.getKey_add_of_some env.toPageEnv "/ColorSpace" "KuraCS"
          (Space.deviceN (env.objects + 3) (mergedNames a b) "/DeviceCMYK" (tintFn
            ((mergedNames a b).map fun nm => (env.alt.lookup nm).getD (Vector.replicate 4 0)))) h
        simp only [PageEnv.spaceName, hlookup]
        exact hkept

/-- Merging keeps the spaces of the page. -/
theorem getKey_mergeInks {a b : Colour} {env : InkEnv} {n : String} {o : Space}
    (h : env.getKey "/ColorSpace" n = some o) :
    (mergeInks toProcess a b env).2.getKey "/ColorSpace" n = some o := by
  have hlearned : ∀ c (env' : InkEnv), env'.getKey "/ColorSpace" n = some o →
      (learnAlt toProcess c env').2.getKey "/ColorSpace" n = some o := by
    intro c env' h'
    rw [learnAlt_toPageEnv]
    exact h'
  rw [mergeInks]
  split_ifs with hsame hmany
  · exact h
  · exact h
  · simp only
    split_ifs with hlearnA hlearnB
    · exact getKey_frameOf (hlearned b _ (hlearned a _ h))
    · exact hlearned b _ (hlearned a _ h)
    · exact hlearned a _ h

/-- A colour that is painted in inks stays so through a run of merges. -/
theorem isInked_mergeAll {pairs : List (Colour × Colour)} {env : InkEnv} {c : Colour}
    (h : IsInked env.toPageEnv c) : IsInked (mergeAll toProcess pairs env).toPageEnv c := by
  induction pairs generalizing env with
  | nil => exact h
  | cons p pairs ih => exact ih (h.kept fun _ _ ho => getKey_mergeInks toProcess ho)

/-- A page with inks of plain names on which no space has been made: every merge of a run keeps the
inks of both colours, if no colour names one of them twice. -/
theorem merges_keepInks {pairs pre post : List (Colour × Colour)}
    {p : Colour × Colour} {env : InkEnv}
    (hstart : env.spaces = [])
    (hplain : ∀ p ∈ pairs, (∀ x ∈ p.1.names ++ p.2.names, PlainName x) ∧ p.1.names.Nodup ∧
      p.2.names.Nodup)
    (hinked : ∀ p ∈ pairs, IsInked env.toPageEnv p.1 ∧ IsInked env.toPageEnv p.2)
    (hpairs : pairs = pre ++ p :: post) {a' b' : Colour} {env' : InkEnv}
    (hmerge : mergeInks toProcess p.1 p.2 (mergeAll toProcess pre env) = (some (a', b'), env')) :
    InksKept env'.toPageEnv p.1 p.2 a' b' := by
  have hnames : ∀ q ∈ pairs, (∀ x ∈ q.1.names, PlainName x) ∧ ∀ x ∈ q.2.names, PlainName x :=
    fun q hq => ⟨fun x hx => (hplain q hq).1 x (List.mem_append_left _ hx),
      fun x hx => (hplain q hq).1 x (List.mem_append_right _ hx)⟩
  have hkept : PlainKept env.toPageEnv := by
    intro u _ n hn
    rw [hstart] at hn
    cases hn
  have hp : p ∈ pairs := hpairs ▸ List.mem_append_right _ List.mem_cons_self
  have hrun := plainKept_run toProcess hkept fun q hq =>
    hnames q (hpairs ▸ List.mem_append_left (p :: post) hq)
  have ha : IsInked (mergeAll toProcess pre env).toPageEnv p.1 :=
    isInked_mergeAll toProcess (hinked p hp).1
  have hb : IsInked (mergeAll toProcess pre env).toPageEnv p.2 :=
    isInked_mergeAll toProcess (hinked p hp).2
  exact (inksKept_iff toProcess ha hb hmerge).mpr
    (mergesRight_of_plain hrun (hnames p hp).1 (hnames p hp).2 (hplain p hp).2.1 (hplain p hp).2.2)

/-- The functions of made spaces yield what the inks contribute to each process colour. -/
def TintsRight : Prop :=
  ∀ (lib : MathLib) (alts : List Alternate) (ts : List ℚ), InUnit alts → 1 ≤ alts.length →
    alts.length ≤ 8 → ts.length = alts.length → (∀ t ∈ ts, 0 ≤ t ∧ t ≤ 1) →
    ∃ f, CalcFn.init (exact lib) (tintFn alts).domain (tintFn alts).range (tintFn alts).data =
      some f ∧
      f.compute (exact lib) ts = .ok ((List.finRange 4).map fun j => min 1 (tintSum alts ts j))

theorem tintsRight : TintsRight :=
  fun _ _ _ halt hone hn hlen hts => compute_tintProgram halt hone hn hlen hts

/-- Merging keeps the inks of two colours exactly if no ink has two tints in one of them and
no space of other inks is kept under the key of the merged ones; the tint programs are right. -/
theorem mergedInks_iff {env env' : InkEnv} {a b a' b' : Colour} (ha : IsInked env.toPageEnv a)
    (hb : IsInked env.toPageEnv b) (hmerge : mergeInks toProcess a b env = (some (a', b'), env')) :
    (InksKept env'.toPageEnv a b a' b' ↔ MergesRight env.toPageEnv a b) ∧ TintsRight :=
  ⟨inksKept_iff toProcess ha hb hmerge, tintsRight⟩

/-- Every ink is converted to no ink at all. -/
def blankProcess : ColorValue → Option Alternate := fun _ => some (Vector.replicate 4 0)

/-- A colour of a space of the page. -/
def spotColour (cs : String) (key : String) (names : List String) (v : List ℚ) : Colour :=
  { kind := -1, cs := some cs, fam := "/DeviceN", space := some (.document key names),
    names := names, v := v }

def inkAB : Colour := spotColour "/CS0" "o1_0" ["/A", "/B"] [1 / 4, 1 / 2]
def inkC : Colour := spotColour "/CS1" "o2_0" ["/C"] [3 / 4]
def inkSlash : Colour := spotColour "/CS2" "o3_0" ["/A/B"] [1]

def spotPage : InkEnv where
  res := Function.update (fun _ => []) "/ColorSpace"
    [("/CS0", .document "o1_0" ["/A", "/B"]), ("/CS1", .document "o2_0" ["/C"]),
      ("/CS2", .document "o3_0" ["/A/B"])]
  counter := 0
  spaces := []
  alt := []
  objects := 20

/-- The page once the inks A, B and C have a space. -/
def mergedPage : InkEnv := (mergeInks blankProcess inkAB inkC spotPage).2

theorem isInked_mergedPage :
    IsInked mergedPage.toPageEnv inkSlash ∧ IsInked mergedPage.toPageEnv inkC := by
  refine ⟨⟨?_, List.cons_ne_nil _ _⟩, ⟨?_, List.cons_ne_nil _ _⟩⟩
  · decide +kernel
  · decide +kernel

theorem not_mergesRight_slashed : ¬ MergesRight mergedPage.toPageEnv inkSlash inkC := by
  rintro ⟨-, -, hsame | hproc | hnames | hnames | hcached⟩
  · exact absurd hsame (by decide +kernel)
  · exact absurd hproc (by decide +kernel)
  · exact absurd hnames (by decide +kernel)
  · exact absurd hnames (by decide +kernel)
  · have hkept : mergedPage.spaces.lookup (inkKey (mergedNames inkSlash inkC)) =
        some "/KuraCS1" := by
      decide +kernel
    exact absurd (hcached _ hkept) (by decide +kernel)

/-- An ink whose name is that of two others gets their space. -/
theorem slashed_lost : IsInked mergedPage.toPageEnv inkSlash ∧ IsInked mergedPage.toPageEnv inkC ∧
    ∃ a' b' env', mergeInks blankProcess inkSlash inkC mergedPage = (some (a', b'), env') ∧
      ¬ InksKept env'.toPageEnv inkSlash inkC a' b' := by
  obtain ⟨ha, hb⟩ := isInked_mergedPage
  have hsome : (mergeInks blankProcess inkSlash inkC mergedPage).1.isSome =
      true := by decide +kernel
  obtain ⟨⟨a', b'⟩, hmerge⟩ := Option.isSome_iff_exists.mp hsome
  refine ⟨ha, hb, a', b', _, Prod.ext hmerge rfl, fun hkept => not_mergesRight_slashed ?_⟩
  exact (inksKept_iff blankProcess ha hb (Prod.ext hmerge rfl)).mp hkept

/-- The inks A, B and C are kept when they get their space. -/
theorem mergedInks_iff_spots :
    InksKept mergedPage.toPageEnv inkAB inkC
      ((mergeInks blankProcess inkAB inkC spotPage).1.getD (inkAB, inkC)).1
      ((mergeInks blankProcess inkAB inkC spotPage).1.getD (inkAB, inkC)).2 ∧ TintsRight := by
  have ha : IsInked spotPage.toPageEnv inkAB := ⟨by decide +kernel, List.cons_ne_nil _ _⟩
  have hb : IsInked spotPage.toPageEnv inkC := ⟨by decide +kernel, List.cons_ne_nil _ _⟩
  have hsome : (mergeInks blankProcess inkAB inkC spotPage).1.isSome = true := by decide +kernel
  obtain ⟨⟨a', b'⟩, hmerge⟩ := Option.isSome_iff_exists.mp hsome
  have hiff := mergedInks_iff blankProcess ha hb (Prod.ext hmerge rfl)
  rw [hmerge, Option.getD_some]
  refine ⟨hiff.1.mpr ⟨?_, ?_, Or.inr (Or.inr (Or.inr (Or.inr ?_)))⟩, hiff.2⟩
  · exact consistent_of_nodup (by decide)
  · exact consistent_of_nodup (by decide)
  · intro n hn
    cases hn

/-- The same inks with other tints. -/
def inkAB' : Colour := spotColour "/CS0" "o1_0" ["/A", "/B"] [1, 0]

/-- The second merge of a run finds the space that the first one has made, and keeps its inks. -/
theorem merges_keepInks_spots :
    ∃ a' b' env', mergeInks blankProcess inkAB' inkC mergedPage = (some (a', b'), env') ∧
      a'.cs = some "/KuraCS1" ∧ env'.counter = mergedPage.counter ∧
      InksKept env'.toPageEnv inkAB' inkC a' b' := by
  have hfound : (mergeInks blankProcess inkAB' inkC mergedPage).1.map (fun r => r.1.cs) =
      some (some "/KuraCS1") := by decide +kernel
  have hcounter : (mergeInks blankProcess inkAB' inkC mergedPage).2.counter =
      mergedPage.counter := by decide +kernel
  obtain ⟨⟨a', b'⟩, hmerge, hcs⟩ := Option.map_eq_some_iff.mp hfound
  have hnames : ∀ x ∈ ["/A", "/B", "/C"], PlainName x := by
    intro x hx
    exact ⟨x.toList.tail, by revert x; decide, by revert x; decide⟩
  have hspots : ∀ p ∈ [(inkAB, inkC), (inkAB', inkC)],
      p.1.names = ["/A", "/B"] ∧ p.2.names = ["/C"] := by decide
  refine ⟨a', b', _, Prod.ext hmerge rfl, hcs, hcounter, ?_⟩
  refine @merges_keepInks blankProcess [(inkAB, inkC), (inkAB', inkC)] [(inkAB, inkC)] []
    (inkAB', inkC) spotPage rfl ?_ ?_ rfl _ _ _ (Prod.ext hmerge rfl)
  · intro p hp
    obtain ⟨ha, hb⟩ := hspots p hp
    rw [ha, hb]
    exact ⟨hnames, by decide, by decide⟩
  · intro p hp
    obtain rfl | hp := List.mem_cons.mp hp
    · exact ⟨⟨by decide +kernel, List.cons_ne_nil _ _⟩, by decide +kernel, List.cons_ne_nil _ _⟩
    · rw [List.mem_singleton.mp hp]
      exact ⟨⟨by decide +kernel, List.cons_ne_nil _ _⟩, by decide +kernel, List.cons_ne_nil _ _⟩

end Kura.Engine.Inks
