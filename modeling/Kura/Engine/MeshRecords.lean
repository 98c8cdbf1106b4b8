import Kura.Engine.MeshShading

/-!
# The records of a mesh shading

The data of a mesh are records, a flag, points and colours each. What an attempt
reads are records that follow each other, padded to whole bytes or not, and what
it writes are the same records with their colours mapped.

`Cut` says how an attempt cuts its data into records, up to fewer than eight bits
or bits that are too few for a flag. The bits of a record tell where it ends, so
data is cut in one way only.
-/

namespace Kura.Engine.Mesh

open Kura.Base

/-- A vertex or a patch. -/
structure Record where
  flag : Nat
  points : List (Nat × Nat)
  colours : List (List Nat)
  deriving DecidableEq

namespace Layout

variable (l : Layout)

def pointBits (p : Nat × Nat) : List Bool := toBits l.bpc p.1 ++ toBits l.bpc p.2

def colourBits (c : List Nat) : List Bool := c.flatMap (toBits l.bpcomp)

/-- The bits in front of the colours. -/
def headBits (r : Record) : List Bool := toBits l.bpf r.flag ++ r.points.flatMap l.pointBits

def recordBits (r : Record) : List Bool := l.headBits r ++ r.colours.flatMap l.colourBits

/-- A record with colours of some components fits the widths. -/
structure Fits (comps : Nat) (r : Record) : Prop where
  flag : r.flag < 2 ^ l.bpf
  numPoints : r.points.length = l.points r.flag
  point : ∀ p ∈ r.points, p.1 < 2 ^ l.bpc ∧ p.2 < 2 ^ l.bpc
  numColours : r.colours.length = l.colours r.flag
  colour : ∀ c ∈ r.colours, c.length = comps ∧ ∀ v ∈ c, v < 2 ^ l.bpcomp

def headSize (flag : Nat) : Nat := l.bpf + l.points flag * (2 * l.bpc)

/-- The bits of a record with colours of some components. -/
def size (comps flag : Nat) : Nat := l.headSize flag + l.colours flag * (comps * l.bpcomp)

variable {l} {comps : Nat} {r r' : Record}

theorem length_pointBits (p : Nat × Nat) : (l.pointBits p).length = 2 * l.bpc := by
  rw [pointBits, List.length_append, length_toBits, length_toBits, Nat.two_mul]

theorem length_colourBits (c : List Nat) : (l.colourBits c).length = c.length * l.bpcomp :=
  length_flatMap_rows fun v _ => length_toBits _ v

namespace Fits

theorem length_headBits (h : l.Fits comps r) : (l.headBits r).length = l.headSize r.flag := by
  rw [headBits, List.length_append, length_toBits, length_flatMap_rows fun p _ =>
    length_pointBits p,
    h.numPoints, headSize]

theorem length_recordBits (h : l.Fits comps r) : (l.recordBits r).length = l.size comps r.flag := by
  have hcolour : ∀ c ∈ r.colours, (l.colourBits c).length = comps * l.bpcomp := fun c hc => by
    rw [length_colourBits, (h.colour c hc).1]
  rw [recordBits, List.length_append, h.length_headBits, length_flatMap_rows hcolour, h.numColours,
    size]

/-- The flag of a record tells where it ends. -/
theorem unique {a b : List Bool} (h : l.Fits comps r) (h' : l.Fits comps r')
    (heq : l.recordBits r ++ a = l.recordBits r' ++ b) : r = r' ∧ a = b := by
  have hflag : r.flag = r'.flag := by
    simp only [recordBits, headBits, List.append_assoc] at heq
    exact toBits_inj h.flag h'.flag
      (List.append_inj_left heq (by rw [length_toBits, length_toBits]))
  have hsize : (l.recordBits r).length = (l.recordBits r').length := by
    rw [h.length_recordBits, h'.length_recordBits, hflag]
  obtain ⟨hbits, hrest⟩ := List.append_inj heq hsize
  have hhead : (l.headBits r).length = (l.headBits r').length := by
    rw [h.length_headBits, h'.length_headBits, hflag]
  obtain ⟨hheadBits, hcolourBits⟩ := List.append_inj hbits hhead
  have hpointBits : r.points.flatMap l.pointBits = r'.points.flatMap l.pointBits :=
    List.append_inj_right hheadBits (by rw [length_toBits, length_toBits])
  have hpoints : r.points = r'.points := by
    refine flatMap_rows_inj (fun p _ => length_pointBits p) (fun p _ => length_pointBits p)
      (by rw [h.numPoints, h'.numPoints, hflag]) (fun p hp q hq hpq => ?_) hpointBits
    obtain ⟨hx, hy⟩ := List.append_inj hpq (by rw [length_toBits, length_toBits])
    exact Prod.ext (toBits_inj (h.point p hp).1 (h'.point q hq).1 hx)
      (toBits_inj (h.point p hp).2 (h'.point q hq).2 hy)
  have hcolours : r.colours = r'.colours := by
    refine @flatMap_rows_inj _ _ _ (comps * l.bpcomp) _ _
      (fun c hc => by rw [length_colourBits, (h.colour c hc).1])
      (fun c hc => by rw [length_colourBits, (h'.colour c hc).1])
      (by rw [h.numColours, h'.numColours, hflag]) (fun c hc d hd hcd => ?_) hcolourBits
    exact flatMap_rows_inj (fun v _ => length_toBits _ v) (fun v _ => length_toBits _ v)
      (by rw [(h.colour c hc).1, (h'.colour d hd).1])
      (fun v hv w hw => toBits_inj ((h.colour c hc).2 v hv) ((h'.colour d hd).2 w hw)) hcd
  refine ⟨?_, hrest⟩
  cases r
  cases r'
  simp only at hflag hpoints hcolours
  rw [hflag, hpoints, hcolours]

end Fits

variable (l) (conv : List ℚ → Option (Nat → ℚ))

/-- A colour and the one it is mapped to. -/
def Mapped (c c' : List Nat) : Prop :=
  ∃ out, conv (l.valuesOf c) = some out ∧ c' = (List.range l.dn).map fun k => l.level (out k)

/-- A record and the same one with mapped colours. -/
structure Recoloured (r r' : Record) : Prop where
  flag : r'.flag = r.flag
  points : r'.points = r.points
  colours : List.Forall₂ (l.Mapped conv) r.colours r'.colours

variable {l conv} {s s' : State}

/-- Some bits are read, others are written. -/
structure Step (s : State) (bs bs' : List Bool) (s' : State) : Prop where
  takes : s.1.Takes bs s'.1
  puts : s'.2.bits = s.2.bits ++ bs'

theorem Step.refl (s : State) : Step s [] [] s := ⟨.refl _, (List.append_nil _).symm⟩

theorem Step.trans {s'' : State} {as as' bs bs' : List Bool} (h : Step s as as' s')
    (h' : Step s' bs bs' s'') : Step s (as ++ bs) (as' ++ bs') s'' :=
  ⟨h.takes.trans h'.takes, by rw [h'.puts, h.puts, List.append_assoc]⟩

/-- Points are copied bit for bit. -/
theorem step_copyPoints {p : Nat} (h : l.copyPoints p s = .ok s') : ∃ ps : List (Nat × Nat),
    ps.length = p ∧ (∀ q ∈ ps, q.1 < 2 ^ l.bpc ∧ q.2 < 2 ^ l.bpc) ∧
      Step s (ps.flatMap l.pointBits) (ps.flatMap l.pointBits) s' := by
  induction p generalizing s with
  | zero =>
      cases h
      exact ⟨[], rfl, fun q hq => absurd hq List.not_mem_nil, Step.refl _⟩
  | succ p ih =>
      rw [copyPoints] at h
      cases hx : s.1.read l.bpc with
      | none => simp [hx] at h
      | some x =>
          cases hy : x.2.read l.bpc with
          | none => simp [hx, hy] at h
          | some y =>
              simp only [hx, hy] at h
              obtain ⟨ps, hlen, hlt, hstep⟩ := ih h
              obtain ⟨hxlt, hxtakes⟩ := BitReader.takes_of_read hx
              obtain ⟨hylt, hytakes⟩ := BitReader.takes_of_read hy
              have hfirst : Step s (l.pointBits (x.1, y.1)) (l.pointBits (x.1, y.1))
                  (y.2, (s.2.write l.bpc x.1).write l.bpc y.1) :=
                ⟨hxtakes.trans hytakes, by
                  rw [BitWriter.bits_write, BitWriter.bits_write, List.append_assoc, pointBits]⟩
              refine ⟨(x.1, y.1) :: ps, by rw [List.length_cons, hlen], fun q hq => ?_,
                hfirst.trans hstep⟩
              rcases List.mem_cons.mp hq with rfl | hq
              · exact ⟨hxlt, hylt⟩
              · exact hlt q hq

/-- Points are not copied only if there are too few bits. -/
theorem short_copyPoints {p : Nat} {e : Stop} (h : l.copyPoints p s = .error e) :
    e = .short ∧ s.1.rest.length < p * (2 * l.bpc) := by
  induction p generalizing s with
  | zero => cases h
  | succ p ih =>
      rw [copyPoints] at h
      cases hx : s.1.read l.bpc with
      | none =>
          simp only [hx, Except.error.injEq] at h
          have hlt := BitReader.read_eq_none_iff.mp hx
          exact ⟨h.symm, by rw [Nat.succ_mul]; omega⟩
      | some x =>
          have hxrest := congrArg List.length (BitReader.takes_of_read hx).2.rest
          rw [List.length_append, length_toBits] at hxrest
          cases hy : x.2.read l.bpc with
          | none =>
              simp only [hx, hy, Except.error.injEq] at h
              have hlt := BitReader.read_eq_none_iff.mp hy
              exact ⟨h.symm, by rw [Nat.succ_mul]; omega⟩
          | some y =>
              have hyrest := congrArg List.length (BitReader.takes_of_read hy).2.rest
              rw [List.length_append, length_toBits] at hyrest
              simp only [hx, hy] at h
              obtain ⟨he, hlt⟩ := ih h
              simp only at hlt
              exact ⟨he, by rw [Nat.succ_mul]; omega⟩

/-- The components read are those of a colour in front of the rest. -/
theorem takes_readComps {k : Nat} {b b' : BitReader} {vs : List Nat}
    (h : l.readComps k b = some (vs, b')) :
    vs.length = k ∧ (∀ v ∈ vs, v < 2 ^ l.bpcomp) ∧ b.Takes (l.colourBits vs) b' := by
  induction k generalizing b vs with
  | zero =>
      cases h
      exact ⟨rfl, fun v hv => absurd hv List.not_mem_nil, .refl _⟩
  | succ k ih =>
      rw [readComps, Option.bind_eq_some_iff] at h
      obtain ⟨v, hv, h⟩ := h
      obtain ⟨⟨ws, c⟩, hws, heq⟩ := Option.map_eq_some_iff.mp h
      rw [Prod.mk.injEq] at heq
      obtain ⟨rfl, rfl⟩ := heq
      obtain ⟨hlen, hlt, htakes⟩ := ih hws
      obtain ⟨hvlt, hvtakes⟩ := BitReader.takes_of_read hv
      refine ⟨by rw [List.length_cons, hlen], fun w hw => ?_, hvtakes.trans htakes⟩
      rcases List.mem_cons.mp hw with rfl | hw
      · exact hvlt
      · exact hlt w hw

/-- Components are missing only where the bits run out. -/
theorem short_readComps {k : Nat} {b : BitReader} (h : l.readComps k b = none) :
    b.rest.length < k * l.bpcomp := by
  induction k generalizing b with
  | zero => cases h
  | succ k ih =>
      rw [readComps] at h
      cases hv : b.read l.bpcomp with
      | none =>
          have hlt := BitReader.read_eq_none_iff.mp hv
          rw [Nat.succ_mul]
          omega
      | some v =>
          have hrest := congrArg List.length (BitReader.takes_of_read hv).2.rest
          rw [List.length_append, length_toBits] at hrest
          rw [hv, Option.bind_some, Option.map_eq_none_iff] at h
          have hlt := ih h
          rw [Nat.succ_mul]
          omega

theorem bits_writeComps (out : Nat → ℚ) (w : BitWriter) : (l.writeComps out w).bits =
    w.bits ++ l.colourBits ((List.range l.dn).map fun k => l.level (out k)) := by
  have hfold : ∀ (ks : List Nat) (w : BitWriter),
      (ks.foldl (fun w k => w.write l.bpcomp (l.level (out k))) w).bits =
        w.bits ++ l.colourBits (ks.map fun k => l.level (out k)) := by
    intro ks
    induction ks with
    | nil => exact fun w => (List.append_nil _).symm
    | cons k ks ih =>
        intro w
        rw [List.foldl_cons, ih, BitWriter.bits_write, List.append_assoc]
        rfl
  exact hfold _ w

/-- Colours are replaced by what the conversion gives. -/
theorem step_mapColours {c : Nat} (h : l.mapColours conv c s = .ok s') : ∃ cs cs' : List (List Nat),
    cs.length = c ∧ (∀ d ∈ cs, d.length = l.n ∧ ∀ v ∈ d, v < 2 ^ l.bpcomp) ∧
      List.Forall₂ (l.Mapped conv) cs cs' ∧
      Step s (cs.flatMap l.colourBits) (cs'.flatMap l.colourBits) s' := by
  induction c generalizing s with
  | zero =>
      cases h
      exact ⟨[], [], rfl, fun d hd => absurd hd List.not_mem_nil, .nil, Step.refl _⟩
  | succ c ih =>
      rw [mapColours] at h
      cases hread : l.readComps l.n s.1 with
      | none => simp [hread] at h
      | some vs =>
          cases hconv : conv (l.valuesOf vs.1) with
          | none => simp [hread, hconv] at h
          | some out =>
              simp only [hread, hconv] at h
              obtain ⟨cs, cs', hlen, hfits, hmapped, hstep⟩ := ih h
              obtain ⟨hvlen, hvlt, htakes⟩ := takes_readComps hread
              refine ⟨vs.1 :: cs, (List.range l.dn).map (fun k => l.level (out k)) :: cs',
                by rw [List.length_cons, hlen], fun d hd => ?_, .cons ⟨out, hconv, rfl⟩ hmapped,
                Step.trans ⟨htakes, bits_writeComps out s.2⟩ hstep⟩
              rcases List.mem_cons.mp hd with rfl | hd
              · exact ⟨hvlen, hvlt⟩
              · exact hfits d hd

/-- Colours are not mapped only if one has no image or if there are too few bits. -/
theorem short_mapColours {c : Nat} (h : l.mapColours conv c s = .error .short) :
    s.1.rest.length < c * (l.n * l.bpcomp) := by
  induction c generalizing s with
  | zero => cases h
  | succ c ih =>
      rw [mapColours] at h
      cases hread : l.readComps l.n s.1 with
      | none =>
          have hlt := short_readComps hread
          rw [Nat.succ_mul]
          omega
      | some vs =>
          obtain ⟨hvlen, -, htakes⟩ := takes_readComps hread
          have hrest := congrArg List.length htakes.rest
          rw [List.length_append, length_colourBits, hvlen] at hrest
          cases hconv : conv (l.valuesOf vs.1) with
          | none => simp [hread, hconv] at h
          | some out =>
              simp only [hread, hconv] at h
              have hlt := ih h
              simp only at hlt
              rw [Nat.succ_mul]
              omega

theorem not_refused {c : Nat} (hconv : ∀ vs, (conv vs).isSome) :
    l.mapColours conv c s ≠ .error .refused := by
  induction c generalizing s with
  | zero => exact nofun
  | succ c ih =>
      rw [mapColours]
      cases hread : l.readComps l.n s.1 with
      | none => exact nofun
      | some vs =>
          obtain ⟨out, hout⟩ := Option.isSome_iff_exists.mp (hconv (l.valuesOf vs.1))
          simp only [hout]
          exact ih

theorem step_record {flag : Nat} {b : BitReader} (hread : s.1.read l.bpf = some (flag, b))
    (h : l.record conv flag (b, s.2.write l.bpf flag) = .ok s') : ∃ r r', l.Fits l.n r ∧
      l.Recoloured conv r r' ∧ Step s (l.recordBits r) (l.recordBits r') s' := by
  obtain ⟨hflag, htakes⟩ := BitReader.takes_of_read hread
  have hfirst : Step s (toBits l.bpf flag) (toBits l.bpf flag) (b, s.2.write l.bpf flag) :=
    ⟨htakes, BitWriter.bits_write _ _ _⟩
  rw [record] at h
  cases hpoints : l.copyPoints (l.points flag) (b, s.2.write l.bpf flag) with
  | error e => simp [hpoints, Except.bind] at h
  | ok s₁ =>
      rw [hpoints] at h
      obtain ⟨ps, hplen, hplt, hpstep⟩ := step_copyPoints hpoints
      obtain ⟨cs, cs', hclen, hcfits, hmapped, hcstep⟩ := step_mapColours h
      exact ⟨⟨flag, ps, cs⟩, ⟨flag, ps, cs'⟩, ⟨hflag, hplen, hplt, hclen, hcfits⟩,
        ⟨rfl, rfl, hmapped⟩, (hfirst.trans hpstep).trans hcstep⟩

/-- A record is given up only if none is there. -/
theorem short_record {flag : Nat} {b : BitReader} (hread : s.1.read l.bpf = some (flag, b))
    (h : l.record conv flag (b, s.2.write l.bpf flag) = .error .short) (r : Record)
      (rest : List Bool)
    (hfits : l.Fits l.n r) : s.1.rest ≠ l.recordBits r ++ rest := by
  intro heq
  obtain ⟨hflag, htakes⟩ := BitReader.takes_of_read hread
  have hsame : flag = r.flag := by
    have hrest := htakes.rest.symm.trans heq
    simp only [recordBits, headBits, List.append_assoc] at hrest
    exact toBits_inj hflag hfits.flag
      (List.append_inj_left hrest (by rw [length_toBits, length_toBits]))
  have hlen : b.rest.length + l.bpf = l.size l.n flag + rest.length := by
    have hlength := congrArg List.length (htakes.rest.symm.trans heq)
    rw [List.length_append, List.length_append, length_toBits, hfits.length_recordBits, ← hsame]
      at hlength
    omega
  rw [size, headSize] at hlen
  rw [record] at h
  cases hpoints : l.copyPoints (l.points flag) (b, s.2.write l.bpf flag) with
  | error e =>
      have hshort := (short_copyPoints hpoints).2
      simp only at hshort
      omega
  | ok s₁ =>
      rw [hpoints] at h
      have hshort := short_mapColours h
      obtain ⟨ps, hplen, -, hpstep⟩ := step_copyPoints hpoints
      have hprest := congrArg List.length hpstep.takes.rest
      rw [List.length_append, length_flatMap_rows fun p _ => length_pointBits p, hplen] at hprest
      simp only at hprest
      omega

/-- The data from a record on, at the next byte if records are aligned. -/
def alignRest (al : Bool) (rest : List Bool) : List Bool :=
  if al then rest.drop (rest.length % 8) else rest

/-- The bits that are written for some records behind others. -/
def written (l : Layout) (al : Bool) : List Bool → List Record → List Bool
  | out, [] => out
  | out, r :: rs =>
      written l al (if al then out ++ l.recordBits r ++ padding (out ++ l.recordBits r).length
        else out ++ l.recordBits r) rs

/-- The records that an attempt reads from some bits. -/
inductive Cut (l : Layout) (al : Bool) : List Record → List Bool → Prop
  | stop {bs : List Bool} (h : bs.length < 8 ∨ bs.length < l.bpf) : Cut l al [] bs
  | record {r : Record} {rs : List Record} {rest : List Bool} (hfits : l.Fits l.n r)
      (hmore : 8 ≤ (l.recordBits r ++ rest).length) (hcut : Cut l al rs (alignRest al rest)) :
      Cut l al (r :: rs) (l.recordBits r ++ rest)

variable {al : Bool} {us : List Record}

theorem bpf_le_size (comps flag : Nat) : l.bpf ≤ l.size comps flag := by
  rw [size, headSize]
  omega

/-- Bits are cut into records in one way only. -/
theorem Cut.unique {us' : List Record} {bs : List Bool} (h : l.Cut al us bs)
    (h' : l.Cut al us' bs) :
    us = us' := by
  induction h generalizing us' with
  | @stop bs h =>
      cases h' with
      | stop => rfl
      | @record r rs rest hfits hmore =>
          have hle := bpf_le_size (l := l) l.n r.flag
          rw [← hfits.length_recordBits] at hle
          rw [List.length_append] at h hmore
          omega
  | @record r rs rest hfits hmore hcut ih =>
      generalize hbits : l.recordBits r ++ rest = bits at h' hmore
      cases h' with
      | stop h =>
          have hle := bpf_le_size (l := l) l.n r.flag
          rw [← hfits.length_recordBits] at hle
          rw [← hbits, List.length_append] at h hmore
          omega
      | @record r' rs' rest' hfits' hmore' hcut' =>
          obtain ⟨rfl, rfl⟩ := hfits.unique hfits' hbits
          rw [ih hcut']

theorem alignRest_length_le (al : Bool) (rest : List Bool) :
    (alignRest al rest).length ≤ rest.length := by
  unfold alignRest
  split_ifs
  · rw [List.length_drop]
    omega
  · exact le_rfl

theorem rest_advance (s : State) : (advance al s).1.rest = alignRest al s.1.rest := by
  cases al with
  | true => exact BitReader.rest_align s.1
  | false => rfl

/-- A loop goes on while there are eight bits. -/
theorem room_of_more {first : Bool} (hfirst : first = true → 8 ∣ s.1.rest.length)
    (hmore : ¬ (!s.1.more) = true) (hend : ¬ (s.1.atEnd && !first) = true) :
    8 ≤ s.1.rest.length := by
  by_contra hlt
  have hatEnd : s.1.atEnd = true := (BitReader.atEnd_iff _).mpr (Nat.not_le.mp hlt)
  cases first with
  | false => exact hend (by rw [hatEnd]; rfl)
  | true =>
      obtain ⟨k, hk⟩ := hfirst rfl
      have hnil : s.1.rest = [] := List.length_eq_zero_iff.mp (by omega)
      rw [Bool.not_eq_true', Bool.not_eq_false, BitReader.more_iff] at hmore
      exact hmore hnil

variable (hbpc : 0 < l.bpc)
include hbpc

theorem headSize_pos (flag : Nat) : 2 ≤ l.headSize flag := by
  have hpoints : 1 ≤ l.points flag := by
    unfold points
    split_ifs <;> decide
  have hle : 1 * (2 * 1) ≤ l.points flag * (2 * l.bpc) :=
    Nat.mul_le_mul hpoints (Nat.mul_le_mul_left 2 hbpc)
  rw [headSize]
  omega

/-- What a loop that is over has read and written. -/
theorem loop_ok {fuel : Nat} {first : Bool} {w : BitWriter} (hfuel : s.1.rest.length ≤ fuel)
    (hfirst : first = true → 8 ∣ s.1.rest.length) (h : l.loop conv al fuel first s = .ok w) :
    ∃ us us', l.Cut al us s.1.rest ∧ List.Forall₂ (l.Recoloured conv) us us' ∧
      w.bits = l.written al s.2.bits us' := by
  induction fuel generalizing s first with
  | zero =>
      cases h
      exact ⟨[], [], .stop (Or.inl (by omega)), .nil, rfl⟩
  | succ fuel ih =>
      have hdone : s.1.rest.length < 8 ∨ s.1.rest.length < l.bpf → s.2 = w →
          ∃ us us', l.Cut al us s.1.rest ∧ List.Forall₂ (l.Recoloured conv) us us' ∧
            w.bits = l.written al s.2.bits us' := by
        rintro hstop rfl
        exact ⟨[], [], .stop hstop, .nil, rfl⟩
      rw [loop] at h
      split_ifs at h with hmore hend
      · cases h
        have hnil : s.1.rest = [] := by
          by_contra hne
          rw [(BitReader.more_iff _).mpr hne] at hmore
          cases hmore
        exact hdone (Or.inl (by rw [hnil]; decide)) rfl
      · cases h
        rw [Bool.and_eq_true, BitReader.atEnd_iff] at hend
        exact hdone (Or.inl hend.1) rfl
      · have hroom := room_of_more hfirst hmore hend
        cases hread : s.1.read l.bpf with
        | none =>
            simp only [hread] at h
            cases h
            exact hdone (Or.inr (BitReader.read_eq_none_iff.mp hread)) rfl
        | some f =>
            simp only [hread] at h
            cases hrecord : l.record conv f.1 (f.2, s.2.write l.bpf f.1) with
            | error e => simp [hrecord, Except.bind] at h
            | ok s' =>
                rw [hrecord] at h
                obtain ⟨r, r', hfits, hrecoloured, hstep⟩ := step_record hread hrecord
                have hlength := congrArg List.length hstep.takes.rest
                rw [List.length_append, hfits.length_recordBits, size] at hlength
                have hpos := headSize_pos hbpc r.flag
                have hle := alignRest_length_le al s'.1.rest
                obtain ⟨us, us', hcut, hall, hbits⟩ := ih
                  (by rw [rest_advance]; omega) (fun h => by cases h) h
                rw [rest_advance] at hcut
                refine ⟨r :: us, r' :: us', ?_, .cons hrecoloured hall, ?_⟩
                · rw [hstep.takes.rest] at hroom ⊢
                  exact .record hfits hroom hcut
                · rw [hbits, written]
                  have hadvance : (advance al s').2.bits =
                      if al then s.2.bits ++ l.recordBits r' ++
                        padding (s.2.bits ++ l.recordBits r').length
                      else s.2.bits ++ l.recordBits r' := by
                    rw [← hstep.puts]
                    cases al with
                    | true => exact BitWriter.bits_align s'.2
                    | false => rfl
                  rw [hadvance]

/-- A loop fails only if its data cannot be cut. -/
theorem loop_short {fuel : Nat} {first : Bool} (hfuel : s.1.rest.length ≤ fuel)
    (hfirst : first = true → 8 ∣ s.1.rest.length)
    (h : l.loop conv al fuel first s = .error .short) (us : List Record) :
      ¬ l.Cut al us s.1.rest := by
  induction fuel generalizing s first us with
  | zero => cases h
  | succ fuel ih =>
      rw [loop] at h
      split_ifs at h with hmore hend
      have hroom := room_of_more hfirst hmore hend
      intro hcut
      cases hread : s.1.read l.bpf with
      | none =>
          simp only [hread] at h
          cases h
      | some f =>
          simp only [hread] at h
          have hflag : ¬ s.1.rest.length < l.bpf := by
            rw [← BitReader.read_eq_none_iff, hread]
            exact nofun
          cases hrecord : l.record conv f.1 (f.2, s.2.write l.bpf f.1) with
          | error e =>
              rw [hrecord] at h
              cases h
              generalize hrest : s.1.rest = rest at hcut hroom hflag
              cases hcut with
              | stop hstop => omega
              | @record r rs rest hfits _ _ => exact short_record hread hrecord r rest hfits hrest
          | ok s' =>
              rw [hrecord] at h
              obtain ⟨r, r', hfits, hrecoloured, hstep⟩ := step_record hread hrecord
              have hlength := congrArg List.length hstep.takes.rest
              rw [List.length_append, hfits.length_recordBits, size] at hlength
              have hpos := headSize_pos hbpc r.flag
              have hle := alignRest_length_le al s'.1.rest
              have hnone := ih (s := advance al s') (by rw [rest_advance]; omega)
                (fun h => by cases h) h
              generalize hrest : s.1.rest = rest at hcut hroom hflag
              cases hcut with
              | stop hstop => omega
              | @record r₀ rs rest hfits₀ _ hcut =>
                  obtain ⟨-, htail⟩ := hfits.unique hfits₀ (hstep.takes.rest.symm.trans hrest)
                  rw [← htail, ← rest_advance] at hcut
                  exact hnone rs hcut

omit hbpc in
/-- A conversion that never fails is never refused. -/
theorem loop_not_refused {fuel : Nat} {first : Bool} (hconv : ∀ vs, (conv vs).isSome) :
    l.loop conv al fuel first s ≠ .error .refused := by
  induction fuel generalizing s first with
  | zero => exact nofun
  | succ fuel ih =>
      intro h
      rw [loop] at h
      split_ifs at h
      cases hread : s.1.read l.bpf with
      | none =>
          simp only [hread] at h
          cases h
      | some f =>
          simp only [hread] at h
          cases hrecord : l.record conv f.1 (f.2, s.2.write l.bpf f.1) with
          | ok s' =>
              rw [hrecord] at h
              exact ih h
          | error e =>
              rw [hrecord] at h
              cases h
              rw [record] at hrecord
              cases hpoints : l.copyPoints (l.points f.1) (f.2, s.2.write l.bpf f.1) with
              | error e =>
                  rw [hpoints] at hrecord
                  cases hrecord
                  cases (short_copyPoints hpoints).1
              | ok s₁ =>
                  rw [hpoints] at hrecord
                  exact not_refused hconv hrecord

variable {data : Bytes}

omit hbpc in
theorem rest_start (data : Bytes) : ({ data := data } : BitReader).rest = byteBits data := rfl

/-- What an attempt has read and written. -/
theorem attempt_ok {w : BitWriter} (h : l.attempt conv al data = .ok w) :
    ∃ us us', l.Cut al us (byteBits data) ∧ List.Forall₂ (l.Recoloured conv) us us' ∧
      w.bits = l.written al [] us' := by
  refine loop_ok hbpc (s := ({ data := data }, {})) ?_ (fun _ => ?_) h
  · rw [rest_start, length_byteBits]
  · rw [rest_start, length_byteBits]
    exact Nat.dvd_mul_right 8 _

theorem attempt_short (h : l.attempt conv al data = .error .short) (us : List Record) :
    ¬ l.Cut al us (byteBits data) := by
  refine loop_short hbpc (s := ({ data := data }, {})) ?_ (fun _ => ?_) h us
  · rw [rest_start, length_byteBits]
  · rw [rest_start, length_byteBits]
    exact Nat.dvd_mul_right 8 _

end Layout

end Kura.Engine.Mesh
