import Kura.Engine.Annotations

/-!
# What the repair of annotations leaves

The repair of an annotation has nothing to do a second time. It leaves a well
formed appearance unless the normal appearance is no stream and no dictionary,
the state that a button shows has no stream, or the field type of a button is
too far above it; and a check leaves an empty rectangle without an appearance.
-/

namespace Kura.Engine.Annotations

open Kura.Engine.Jobs

def actionLeft (ctx : Ctx) (annot : Annot) : Option ActionValue :=
  annot.A.bind fun a =>
    if isWidget annot || !actionAllowed ctx a then none
    else if a.hasNext then some a.alone else some a

def opacityLeft (ctx : Ctx) (annot : Annot) : Option ℚ :=
  if ctx.pdf14Target ∧ annot.CA.getD 1 < 1 then some 1 else annot.CA

/-- The appearance and the state that are left of a normal appearance. -/
def statesLeft (isBtn : Bool) (n : Entry) (annot : Annot) : Entry × Option (Option String) :=
  match isBtn, n with
  | true, .stream s =>
      (.dict (wrapStates (buttonStateName annot) s (makeEmptyAppearance annot.Rect)),
        some (some (buttonStateName annot)))
  | true, .dict states =>
      (.dict states,
        if (stateSet annot states).isNone then
          (states.head?.map fun e => some e.1).or annot.AS
        else annot.AS)
  | false, .dict states => (.stream (pickState annot states), none)
  | _, n => (n, annot.AS)

/-- The annotation is repaired as a button. -/
def isButton (annot : Annot) : Bool := isWidget annot && fieldTypeIsBtn annot

def appearanceLeft (ctx : Ctx) (annot : Annot) : Option Appearance × Option (Option String) :=
  match annot.AP with
  | some ap =>
      let left := statesLeft (isButton annot) (reduceAppearance annot ap).1 annot
      (some (only left.1), left.2)
  | none =>
      if needsAppearance ctx annot then
        let left := statesLeft (isButton annot) (.stream (makeEmptyAppearance annot.Rect)) annot
        (some (only left.1), left.2)
      else (none, annot.AS)

theorem fixAction_fst (ctx : Ctx) (annot : Annot) :
    (fixAction ctx annot).1 = { annot with A := actionLeft ctx annot } := by
  unfold fixAction actionLeft
  cases hA : annot.A with
  | none =>
      dsimp only [Option.bind_none]
      rw [← hA]
  | some a =>
      dsimp only [Option.bind_some]
      split
      · rfl
      · split
        · rfl
        · rw [← hA]

theorem fixFlags_fst (ctx : Ctx) (annot : Annot) :
    (fixFlags ctx annot).1 = { annot with F := some (fixedFlags (annot.F.getD 0)) } := by
  unfold fixFlags
  split
  · rfl
  · rename_i hfixed
    rw [not_or, not_not] at hfixed
    obtain ⟨hsame, hsome⟩ := hfixed
    rw [hsame]
    cases hF : annot.F with
    | none => exact absurd hF hsome
    | some f =>
        rw [Option.getD_some, ← hF]

theorem fixOpacity_fst (ctx : Ctx) (annot : Annot) :
    (fixOpacity ctx annot).1 = { annot with CA := opacityLeft ctx annot } := by
  unfold fixOpacity opacityLeft
  split <;> rfl

theorem fixLayer_fst (ctx : Ctx) (annot : Annot) :
    (fixLayer ctx annot).1 = { annot with OC := annot.OC && !ctx.pdf14Target } := by
  have hleft : (annot.OC && !ctx.pdf14Target) =
      if ctx.pdf14Target && annot.OC then false else annot.OC := by
    cases annot.OC <;> cases ctx.pdf14Target <;> rfl
  unfold fixLayer
  rw [hleft]
  split <;> rfl

/-- The states that an appearance is wrapped into have the one that is set. -/
theorem lookup_wrapStates (state : String) (shown off : StreamObj) :
    (wrapStates state shown off).lookup state = some (.stream shown) := by
  unfold wrapStates
  split
  · rw [List.lookup_cons, beq_self_eq_true]
  · split
    · rw [List.lookup_cons, beq_self_eq_true]
    · rename_i hoff _
      rw [List.lookup_cons, beq_eq_false_iff_ne.mpr hoff, List.lookup_cons, beq_self_eq_true]

theorem addState_of_not_dict {annot : Annot} {n : Entry} (hAP : annot.AP = some (only n))
    (hn : ∀ states, n ≠ .dict states) : addState annot = (annot, []) := by
  unfold addState
  rw [hAP]
  cases n with
  | dict states => exact absurd rfl (hn states)
  | _ => rfl

/-- A state that is set stays. -/
theorem addState_of_set {annot : Annot} {states : List (String × StateObj)}
    (hAP : annot.AP = some (only (.dict states)))
    (hset : (stateSet annot states).isSome ∨ states = []) : addState annot = (annot, []) := by
  unfold addState
  rw [hAP]
  dsimp only [only]
  obtain hset | rfl := hset
  · rw [if_neg]
    rw [Option.isNone_iff_eq_none]
    exact fun hnone => by rw [hnone] at hset; cases hset
  · split <;> rfl

/-- A button gets a state for its appearances, if there are any. -/
theorem addState_dict {annot : Annot} {states : List (String × StateObj)}
    (hAP : annot.AP = some (only (.dict states))) :
    (addState annot).1 = { annot with
      AS := if (stateSet annot states).isNone then (states.head?.map fun e => some e.1).or annot.AS
        else annot.AS } := by
  cases hset : stateSet annot states with
  | some s =>
      rw [addState_of_set hAP (.inl (by rw [hset]; rfl))]
      rfl
  | none =>
      cases states with
      | nil =>
          rw [addState_of_set hAP (.inr rfl)]
          rfl
      | cons e rest =>
          unfold addState
          rw [hAP]
          dsimp only [only]
          rw [hset]
          rfl

theorem stateSet_wrapStates (annot : Annot) (state : String) (shown off : StreamObj)
    (hAS : annot.AS = some (some state)) :
    stateSet annot (wrapStates state shown off) = some (.stream shown) := by
  rw [stateSet, hAS]
  exact lookup_wrapStates state shown off

/-- The appearance is left with its normal entry alone. -/
theorem fixStates_fst (isBtn : Bool) (n : Entry) (annot : Annot) :
    ((fixStates isBtn n).andThen addState annot).1 = { annot with
      AP := some (only (statesLeft isBtn n annot).1), AS := (statesLeft isBtn n annot).2 } := by
  unfold Step.andThen
  dsimp only
  cases isBtn with
  | true =>
      cases n with
      | stream s =>
          rw [addState_of_set rfl]
          · rfl
          · left
            rw [stateSet_wrapStates _ _ _ _ rfl]
            rfl
      | dict states => exact addState_dict rfl
      | other =>
          rw [addState_of_not_dict rfl fun _ h => by cases h]
          rfl
  | false =>
      cases n with
      | dict states =>
          rw [addState_of_not_dict rfl fun _ h => by cases h]
          rfl
      | stream s =>
          rw [addState_of_not_dict rfl fun _ h => by cases h]
          rfl
      | other =>
          rw [addState_of_not_dict rfl fun _ h => by cases h]
          rfl

theorem fixAppearance_fst (ctx : Ctx) (annot : Annot) :
    (fixAppearance ctx annot).1 = { annot with
      AP := (appearanceLeft ctx annot).1, AS := (appearanceLeft ctx annot).2 } := by
  unfold fixAppearance appearanceLeft
  cases hAP : annot.AP with
  | some ap => exact fixStates_fst _ _ annot
  | none =>
      dsimp only
      split
      · unfold statesLeft
        rw [isButton]
        cases isWidget annot && fieldTypeIsBtn annot <;> rfl
      · rw [← hAP]

/-- The annotation after the repair. -/
def repaired (ctx : Ctx) (annot : Annot) : Annot :=
  { annot with
    A := actionLeft ctx annot
    AA := (fixAdditionalActions ctx annot).1.AA
    F := some (fixedFlags (annot.F.getD 0))
    CA := opacityLeft ctx annot
    OC := annot.OC && !ctx.pdf14Target
    AP := (appearanceLeft ctx annot).1
    AS := (appearanceLeft ctx annot).2 }

theorem fixAnnotation_fst (ctx : Ctx) (annot : Annot) :
    ( fixAnnotation ctx annot).1 = repaired ctx annot := by
  unfold fixAnnotation Step.andThen
  dsimp only
  rw [fixAppearance_fst, fixLayer_fst, fixOpacity_fst, fixFlags_fst, fixAction_fst]
  rfl

/-- A part of the repair has nothing to do. -/
def Step.Settled (step : Step) (annot : Annot) : Prop := step annot = (annot, [])

theorem Step.Settled.andThen {first second : Step} {annot : Annot} (hfirst : first.Settled annot)
    (hsecond : second.Settled annot) : (first.andThen second).Settled annot := by
  unfold Settled at hfirst hsecond ⊢
  unfold Step.andThen
  rw [hfirst]
  dsimp only
  rw [hsecond]
  rfl

theorem actionAllowed_alone (ctx : Ctx) (a : ActionValue) :
    actionAllowed ctx a.alone = actionAllowed ctx a := by
  cases a <;> rfl

theorem hasNext_alone (a : ActionValue) : a.alone.hasNext = false := by
  cases a <;> rfl

/-- The action of a repaired annotation is left as it is. -/
theorem fixAction_settled (ctx : Ctx) (annot : Annot) :
    (fixAction ctx).Settled (repaired ctx annot) := by
  have hA : (repaired ctx annot).A = actionLeft ctx annot := rfl
  have hwidget : isWidget (repaired ctx annot) = isWidget annot := rfl
  unfold Step.Settled fixAction
  rw [hwidget, hA]
  unfold actionLeft
  cases annot.A with
  | none => rfl
  | some a =>
      dsimp only [Option.bind_some]
      by_cases hremoved : (isWidget annot || !actionAllowed ctx a) = true
      · rw [if_pos hremoved]
      · rw [if_neg hremoved]
        cases hnext : a.hasNext with
        | false =>
            rw [if_neg Bool.false_ne_true]
            dsimp only
            rw [if_neg hremoved, hnext, if_neg Bool.false_ne_true]
        | true =>
            rw [if_pos rfl]
            dsimp only
            rw [actionAllowed_alone, if_neg hremoved, hasNext_alone, if_neg Bool.false_ne_true]

/-- The actions that are kept once are all kept again. -/
theorem keepActions_again (ctx : Ctx) (place : String) : ∀ entries : List (String × ActionValue),
    keepActions ctx place (keepActions ctx place entries).1 =
      ((keepActions ctx place entries).1, [])
  | [] => rfl
  | (k, v) :: rest => by
      have hrest := keepActions_again ctx place rest
      rw [keepActions]
      cases hallowed : actionAllowed ctx v with
      | false => exact hrest
      | true =>
          cases hnext : v.hasNext with
          | true =>
              rw [Bool.not_true, if_neg Bool.false_ne_true, if_pos rfl]
              dsimp only
              rw [keepActions, actionAllowed_alone, hallowed, hasNext_alone, Bool.not_true,
                if_neg Bool.false_ne_true, if_neg Bool.false_ne_true, hrest]
          | false =>
              rw [Bool.not_true, if_neg Bool.false_ne_true, if_neg Bool.false_ne_true]
              dsimp only
              rw [keepActions, hallowed, hnext, Bool.not_true, if_neg Bool.false_ne_true,
                if_neg Bool.false_ne_true, hrest]

/-- Additional actions are sanitized in one round. -/
theorem sanitize_again (ctx : Ctx) (aa : Option AdditionalActions) (place : String)
    (aaAllowed : Bool) :
    sanitizeAdditionalActions ctx (sanitizeAdditionalActions ctx aa place aaAllowed).1 place
        aaAllowed = ((sanitizeAdditionalActions ctx aa place aaAllowed).1, []) := by
  unfold sanitizeAdditionalActions
  cases aa with
  | none => rfl
  | some aa =>
      dsimp only
      by_cases hcheck : (ctx.verifyOnly && ctx.isA && 4 ≤ ctx.part) = true
      · rw [if_pos hcheck]
      · rw [if_neg hcheck]
        cases hkeep : aaAllowed && ctx.isA && decide (4 ≤ ctx.part) with
        | false => rfl
        | true =>
            cases aa with
            | other => rfl
            | dict entries =>
                dsimp only
                by_cases hempty : (keepActions ctx place entries).1 = []
                · rw [if_pos hempty]
                · rw [if_neg hempty]
                  dsimp only
                  rw [if_neg hcheck, keepActions_again]
                  dsimp only
                  rw [if_neg hempty]

theorem fixAdditionalActions_settled (ctx : Ctx) (annot : Annot) :
    (fixAdditionalActions ctx).Settled (repaired ctx annot) := by
  have hagain := sanitize_again ctx annot.AA ("annotation " ++ nameText annot.subtype)
    (isWidget annot)
  have hAA : (repaired ctx annot).AA = (sanitizeAdditionalActions ctx annot.AA
    ("annotation " ++ nameText annot.subtype) (isWidget annot)).1 := rfl
  have hsubtype : (repaired ctx annot).subtype = annot.subtype := rfl
  have hwidget : isWidget (repaired ctx annot) = isWidget annot := rfl
  unfold Step.Settled fixAdditionalActions
  dsimp only
  rw [hsubtype, hwidget, hAA, hagain, ← hAA]
  rfl

theorem fixedFlags_again (f : BitVec 64) : fixedFlags (fixedFlags f) = fixedFlags f := by
  unfold fixedFlags
  ext i hi
  simp only [BitVec.getElem_and, BitVec.getElem_or, BitVec.getElem_not]
  generalize f[i] = before
  generalize (4#64)[i] = printed
  generalize ((1#64)[i] || (2#64)[i] || (32#64)[i] || (256#64)[i]) = cleared
  cases before <;> cases printed <;> cases cleared <;> rfl

theorem fixFlags_settled (ctx : Ctx) (annot : Annot) :
    (fixFlags ctx).Settled (repaired ctx annot) := by
  have hF : (repaired ctx annot).F = some (fixedFlags (annot.F.getD 0)) := rfl
  unfold Step.Settled fixFlags
  rw [if_neg]
  rw [hF, Option.getD_some, fixedFlags_again, not_or, not_not]
  exact ⟨rfl, fun h => by cases h⟩

theorem fixOpacity_settled (ctx : Ctx) (annot : Annot) :
    (fixOpacity ctx).Settled (repaired ctx annot) := by
  have hCA : (repaired ctx annot).CA = opacityLeft ctx annot := rfl
  unfold Step.Settled fixOpacity
  rw [if_neg]
  rw [hCA, opacityLeft]
  rintro ⟨htarget, hlow⟩
  split at hlow
  · exact lt_irrefl 1 hlow
  · rename_i hhigh
    exact hhigh ⟨htarget, hlow⟩

theorem fixLayer_settled (ctx : Ctx) (annot : Annot) :
    (fixLayer ctx).Settled (repaired ctx annot) := by
  have hOC : (repaired ctx annot).OC = (annot.OC && !ctx.pdf14Target) := rfl
  unfold Step.Settled fixLayer
  rw [if_neg]
  rw [hOC]
  cases annot.OC <;> cases ctx.pdf14Target <;> decide

/-- A normal appearance and a state that the repair has nothing to do for. -/
def Settles : Bool → Entry → Annot → Prop
  | true, .stream _, _ => False
  | true, .dict states, annot => (stateSet annot states).isSome ∨ states = []
  | false, .dict _, _ => False
  | _, _, _ => True

/-- Of the annotation only the state counts. -/
theorem Settles.of_state {isBtn : Bool} {n : Entry} {annot annot' : Annot}
    (h : Settles isBtn n annot) (hAS : annot'.AS = annot.AS) : Settles isBtn n annot' := by
  cases isBtn <;> cases n <;> first
    | exact h
    | (rw [Settles, stateSet, hAS]
       exact h)

theorem fixStates_settled {isBtn : Bool} {n : Entry} {annot : Annot}
    (hAP : annot.AP = some (only n)) (h : Settles isBtn n annot) :
    ((fixStates isBtn n).andThen addState).Settled annot := by
  have hsame : { annot with AP := some (only n) } = annot := by
    rw [← hAP]
  apply Step.Settled.andThen
  · unfold Step.Settled fixStates
    cases isBtn <;> cases n <;> first
      | exact absurd h not_false
      | exact Prod.ext hsame rfl
  · cases n with
    | dict states =>
        cases isBtn with
        | false => exact absurd h not_false
        | true => exact addState_of_set hAP h
    | _ => exact addState_of_not_dict hAP fun _ h => by cases h

theorem fixAppearance_of_settles {ctx : Ctx} {n : Entry} {annot : Annot}
    (hAP : annot.AP = some (only n)) (h : Settles (isButton annot) n annot) :
    (fixAppearance ctx).Settled annot := by
  have hreduce : reduceAppearance annot (only n) = (n, []) := rfl
  have hstates := fixStates_settled hAP h
  unfold Step.Settled at hstates ⊢
  unfold fixAppearance
  rw [hAP]
  dsimp only
  rw [hreduce]
  dsimp only
  rw [← isButton, hstates]
  rfl

/-- What is left of a normal appearance needs no more work. -/
theorem statesLeft_settles (isBtn : Bool) (n : Entry) (annot : Annot) :
    Settles isBtn (statesLeft isBtn n annot).1
      { annot with AS := (statesLeft isBtn n annot).2 } := by
  cases isBtn with
  | false => cases n <;> exact trivial
  | true =>
      cases n with
      | other => exact trivial
      | stream s =>
          left
          rw [stateSet_wrapStates _ _ _ _ rfl]
          rfl
      | dict states =>
          cases states with
          | nil => exact .inr rfl
          | cons e rest =>
              left
              cases hset : stateSet annot (e :: rest) with
              | some st =>
                  have hstays : (statesLeft true (.dict (e :: rest)) annot).2 = annot.AS := by
                    rw [statesLeft, hset]
                    rfl
                  rw [hstays]
                  show (stateSet annot (e :: rest)).isSome = true
                  rw [hset]
                  rfl
              | none =>
                  have hfirst : (statesLeft true (.dict (e :: rest)) annot).2 =
                      some (some e.1) := by
                    rw [statesLeft, hset]
                    rfl
                  rw [hfirst]
                  show (List.lookup e.1 (e :: rest)).isSome = true
                  rw [List.lookup_cons, beq_self_eq_true]
                  rfl

/-- The appearance of a repaired annotation is left as it is. -/
theorem fixAppearance_settled (ctx : Ctx) (annot : Annot) :
    (fixAppearance ctx).Settled (repaired ctx annot) := by
  have hAP : (repaired ctx annot).AP = (appearanceLeft ctx annot).1 := rfl
  have hbutton : isButton (repaired ctx annot) = isButton annot := rfl
  have hneeds : needsAppearance ctx (repaired ctx annot) = needsAppearance ctx annot := rfl
  have hdone : ∀ n, appearanceLeft ctx annot =
      (some (only (statesLeft (isButton annot) n annot).1),
        (statesLeft (isButton annot) n annot).2) →
      (fixAppearance ctx).Settled (repaired ctx annot) := by
    intro n hleft
    refine fixAppearance_of_settles (hAP.trans (congrArg Prod.fst hleft)) ?_
    rw [hbutton]
    exact (statesLeft_settles (isButton annot) n annot).of_state (congrArg Prod.snd hleft)
  cases hap : annot.AP with
  | some ap =>
      apply hdone (reduceAppearance annot ap).1
      rw [appearanceLeft, hap]
  | none =>
      by_cases hneed : needsAppearance ctx annot = true
      · apply hdone (.stream (makeEmptyAppearance annot.Rect))
        rw [appearanceLeft, hap]
        dsimp only
        rw [if_pos hneed]
      · have hnone : (repaired ctx annot).AP = none := by
          rw [hAP, appearanceLeft, hap]
          dsimp only
          rw [if_neg hneed]
        unfold Step.Settled fixAppearance
        rw [hnone]
        dsimp only
        rw [hneeds, if_neg hneed]

/-- The repair has nothing to do a second time. -/
theorem fixAnnotation_settled (ctx : Ctx) (annot : Annot) :
    ( fixAnnotation ctx).Settled (repaired ctx annot) :=
  (fixAction_settled ctx annot).andThen <| (fixAdditionalActions_settled ctx annot).andThen <|
    (fixFlags_settled ctx annot).andThen <| (fixOpacity_settled ctx annot).andThen <|
      (fixLayer_settled ctx annot).andThen (fixAppearance_settled ctx annot)

/-- The first type on the way up from an annotation is that of a field so far above. -/
def TypeAt (annot : Annot) (i : Nat) (type : String) : Prop :=
  (∃ node, annot.fields i = some node ∧ node.FT = some type) ∧
    ∀ j < i, ∃ node, annot.fields j = some node ∧ node.FT = none

/-- A widget of a button, however far above its type is. -/
def ButtonWidget (annot : Annot) : Prop :=
  annot.subtype = some "Widget" ∧ ∃ i, TypeAt annot i "Btn"

/-- The name found is that of the first field upwards that has one. -/
theorem firstName_eq_some_iff {get : FieldNode → Option String}
    {fields : Nat → Option FieldNode} {name : String} : ∀ {fuel i : Nat},
    firstName get fields fuel i = some name ↔ ∃ k < fuel,
      (∃ node, fields (i + k) = some node ∧ get node = some name) ∧
        ∀ j < k, ∃ node, fields (i + j) = some node ∧ get node = none
  | 0, i => by
      refine iff_of_false (fun h => ?_) fun ⟨k, hk, _⟩ => absurd hk (Nat.not_lt_zero k)
      rw [firstName] at h
      cases h
  | fuel + 1, i => by
      rw [firstName]
      cases hnode : fields i with
      | none =>
          refine iff_of_false (fun h => by cases h) ?_
          rintro ⟨k, -, ⟨node, hk, -⟩, hbefore⟩
          cases k with
          | zero =>
              rw [Nat.add_zero, hnode] at hk
              cases hk
          | succ k =>
              obtain ⟨node', hzero, -⟩ := hbefore 0 (Nat.succ_pos k)
              rw [Nat.add_zero, hnode] at hzero
              cases hzero
      | some node =>
          dsimp only
          cases hget : get node with
          | some found =>
              constructor
              · intro h
                exact ⟨0, Nat.succ_pos fuel, ⟨node, hnode, hget.trans h⟩,
                  fun j hj => absurd hj (Nat.not_lt_zero j)⟩
              · rintro ⟨k, -, ⟨node', hk, hname⟩, hbefore⟩
                cases k with
                | zero =>
                    rw [Nat.add_zero, hnode] at hk
                    cases hk
                    exact hget.symm.trans hname
                | succ k =>
                    obtain ⟨node', hzero, hnone⟩ := hbefore 0 (Nat.succ_pos k)
                    rw [Nat.add_zero, hnode] at hzero
                    cases hzero
                    rw [hget] at hnone
                    cases hnone
          | none =>
              dsimp only
              rw [firstName_eq_some_iff]
              constructor
              · rintro ⟨k, hk, hfound, hbefore⟩
                refine ⟨k + 1, Nat.succ_lt_succ hk, ?_, ?_⟩
                · rwa [Nat.add_assoc, Nat.add_comm 1] at hfound
                · intro j hj
                  cases j with
                  | zero => exact ⟨node, hnode, hget⟩
                  | succ j =>
                      have hj' := hbefore j (Nat.lt_of_succ_lt_succ hj)
                      rwa [Nat.add_assoc, Nat.add_comm 1] at hj'
              · rintro ⟨k, hk, hfound, hbefore⟩
                cases k with
                | zero =>
                    obtain ⟨node', hzero, hname⟩ := hfound
                    rw [Nat.add_zero, hnode] at hzero
                    cases hzero
                    rw [hget] at hname
                    cases hname
                | succ k =>
                    refine ⟨k, Nat.lt_of_succ_lt_succ hk, ?_, fun j hj => ?_⟩
                    · rwa [Nat.add_assoc, Nat.add_comm 1]
                    · have hj' := hbefore (j + 1) (Nat.succ_lt_succ hj)
                      rwa [Nat.add_assoc, Nat.add_comm 1]

theorem fieldTypeIsBtn_iff (annot : Annot) :
    fieldTypeIsBtn annot = true ↔ ∃ i < 32, TypeAt annot i "Btn" := by
  rw [fieldTypeIsBtn, decide_eq_true_eq, firstName_eq_some_iff]
  simp only [Nat.zero_add, TypeAt]

/-- The flags of an annotation that is shown and printed. -/
def FlagsSet (f : BitVec 64) : Prop :=
  f.getLsbD 2 = true ∧ f.getLsbD 0 = false ∧ f.getLsbD 1 = false ∧ f.getLsbD 5 = false ∧
    f.getLsbD 8 = false

structure WellFormed (annot : Annot) : Prop where
  flags : ∃ f, annot.F = some f ∧ FlagsSet f
  appearance : ∃ n, annot.AP = some (only n) ∧
    (¬ ButtonWidget annot → ∃ s, n = .stream s) ∧
    (ButtonWidget annot → ∃ states name s, n = .dict states ∧ annot.AS = some (some name) ∧
      states.lookup name = some (.stream s))

theorem flagsSet_fixedFlags (f : BitVec 64) : FlagsSet (fixedFlags f) := by
  unfold FlagsSet fixedFlags
  simp only [BitVec.getLsbD_and, BitVec.getLsbD_or, BitVec.getLsbD_not]
  refine ⟨?_, ?_, ?_, ?_, ?_⟩ <;> simp

/-- The state that a button shows: the one that is set, or else the first one. -/
def stateShown (annot : Annot) (states : List (String × StateObj)) : Option StateObj :=
  (stateSet annot states).or (states.head?.map Prod.snd)

/-- What an annotation needs for its repair to leave it well formed. -/
structure Repairable (ctx : Ctx) (annot : Annot) : Prop where
  near : ButtonWidget annot → ∃ i < 32, TypeAt annot i "Btn"
  entry : ∀ ap, annot.AP = some ap → ap.N ≠ some .other
  shown : ButtonWidget annot → ∀ ap states, annot.AP = some ap →
    ap.normal = some (.dict states) → ∃ s, stateShown annot states = some (.stream s)
  sized : annot.AP = none → ¬ (ctx.verifyOnly = true ∧ zeroRect annot.Rect = true)

theorem isButton_iff (annot : Annot) :
    isButton annot = true ↔ annot.subtype = some "Widget" ∧ ∃ i < 32, TypeAt annot i "Btn" := by
  rw [isButton, Bool.and_eq_true, fieldTypeIsBtn_iff, isWidget, decide_eq_true_eq]

theorem buttonWidget_of_isButton {annot : Annot} (h : isButton annot = true) :
    ButtonWidget annot := by
  obtain ⟨hwidget, i, -, htype⟩ := (isButton_iff annot).mp h
  exact ⟨hwidget, i, htype⟩

/-- The appearance and the state that are left of a normal appearance are well formed. -/
def LeavesWell (annot : Annot) (n : Entry) : Prop :=
  (¬ ButtonWidget annot → ∃ s, (statesLeft (isButton annot) n annot).1 = .stream s) ∧
    (ButtonWidget annot → ∃ states name s,
      (statesLeft (isButton annot) n annot).1 = .dict states ∧
        (statesLeft (isButton annot) n annot).2 = some (some name) ∧
          states.lookup name = some (.stream s))

/-- Outside of button widgets any appearance but a stray object is left well. -/
theorem leavesWell_plain {annot : Annot} (hplain : ¬ ButtonWidget annot) (n : Entry) :
    LeavesWell annot n ↔ n ≠ .other := by
  have hfalse : isButton annot = false := by
    rw [← Bool.not_eq_true]
    exact fun h => hplain (buttonWidget_of_isButton h)
  unfold LeavesWell
  rw [hfalse]
  constructor
  · rintro ⟨hstream, -⟩ rfl
    obtain ⟨s, hs⟩ := hstream hplain
    cases hs
  · intro hne
    refine ⟨fun _ => ?_, fun h => absurd h hplain⟩
    cases n with
    | stream s => exact ⟨s, rfl⟩
    | dict states => exact ⟨pickState annot states, rfl⟩
    | other => exact absurd rfl hne

/-- The state that is left for a button is the one it shows. -/
theorem lookup_statesLeft {annot : Annot} {states : List (String × StateObj)} {s : StreamObj} :
    (∃ name, (statesLeft true (.dict states) annot).2 = some (some name) ∧
      states.lookup name = some (.stream s)) ↔ stateShown annot states = some (.stream s) := by
  have hAS : ∀ name, annot.AS = some (some name) → stateSet annot states = states.lookup name := by
    intro name h
    rw [stateSet, h]
    rfl
  rw [statesLeft, stateShown]
  cases hset : stateSet annot states with
  | some st =>
      rw [Option.some_or, Option.isNone_some, if_neg Bool.false_ne_true]
      constructor
      · rintro ⟨name, hname, hlookup⟩
        rw [← hset, hAS name hname, hlookup]
      · intro hst
        rw [stateSet] at hset
        obtain ⟨name, hname, hlookup⟩ := Option.bind_eq_some_iff.mp hset
        exact ⟨name, Option.join_eq_some_iff.mp hname, hlookup.trans hst⟩
  | none =>
      rw [Option.none_or, Option.isNone_none, if_pos rfl]
      cases states with
      | nil =>
          refine iff_of_false ?_ fun h => by cases h
          rintro ⟨name, -, hlookup⟩
          cases hlookup
      | cons e rest =>
          obtain ⟨k, st⟩ := e
          have hfirst : List.lookup k ((k, st) :: rest) = some st := by
            rw [List.lookup_cons, beq_self_eq_true]
          constructor
          · rintro ⟨name, hname, hlookup⟩
            cases hname
            exact hfirst.symm.trans hlookup
          · intro hst
            exact ⟨k, rfl, hfirst.trans hst⟩

/-- A button's appearance is left well when the state that shows is a stream. -/
theorem leavesWell_button {annot : Annot} (hbutton : ButtonWidget annot) (n : Entry) :
    LeavesWell annot n ↔ (∃ i < 32, TypeAt annot i "Btn") ∧ n ≠ .other ∧
      ∀ states, n = .dict states → ∃ s, stateShown annot states = some (.stream s) := by
  unfold LeavesWell
  by_cases hnear : ∃ i < 32, TypeAt annot i "Btn"
  · rw [(isButton_iff annot).mpr ⟨hbutton.1, hnear⟩]
    cases n with
    | other =>
        refine iff_of_false (fun h => ?_) fun h => h.2.1 rfl
        obtain ⟨states, name, s, hdict, -⟩ := h.2 hbutton
        cases hdict
    | stream s =>
        refine iff_of_true ⟨fun h => absurd hbutton h, fun _ => ?_⟩
          ⟨hnear, (fun h => by cases h), (fun states h => by cases h)⟩
        exact ⟨_, buttonStateName annot, s, rfl, rfl, lookup_wrapStates _ _ _⟩
    | dict states =>
        constructor
        · rintro ⟨-, hstates⟩
          refine ⟨hnear, (fun h => by cases h), fun states' h => ?_⟩
          cases h
          obtain ⟨_, name, s, hdict, hname, hlookup⟩ := hstates hbutton
          cases hdict
          exact ⟨s, lookup_statesLeft.mp ⟨name, hname, hlookup⟩⟩
        · rintro ⟨-, -, hshown⟩
          obtain ⟨s, hs⟩ := hshown states rfl
          obtain ⟨name, hname, hlookup⟩ := lookup_statesLeft.mpr hs
          exact ⟨fun h => absurd hbutton h, fun _ => ⟨states, name, s, rfl, hname, hlookup⟩⟩
  · -- a type too far above is not seen, and the button gets a single stream
    refine iff_of_false (fun h => ?_) fun h => hnear h.1
    have hfalse : isButton annot = false := by
      rw [← Bool.not_eq_true, isButton_iff]
      exact fun h => hnear h.2
    obtain ⟨states, name, s, hdict, -⟩ := h.2 hbutton
    rw [hfalse] at hdict
    cases n <;> cases hdict

/-- A normal appearance leaves a well formed annotation. -/
theorem leavesWell_iff (annot : Annot) (n : Entry) :
    LeavesWell annot n ↔ (ButtonWidget annot → ∃ i < 32, TypeAt annot i "Btn") ∧ n ≠ .other ∧
      (ButtonWidget annot → ∀ states, n = .dict states →
        ∃ s, stateShown annot states = some (.stream s)) := by
  by_cases hbutton : ButtonWidget annot
  · rw [leavesWell_button hbutton]
    simp only [hbutton, forall_const]
  · rw [leavesWell_plain hbutton]
    simp only [hbutton, IsEmpty.forall_iff, true_and, and_true]

/-- The repaired annotation is well formed when its appearance is left well. -/
theorem wellFormed_of_left {ctx : Ctx} {annot : Annot} {n : Entry}
    (hleft : appearanceLeft ctx annot = (some (only (statesLeft (isButton annot) n annot).1),
      (statesLeft (isButton annot) n annot).2)) :
    WellFormed (repaired ctx annot) ↔ LeavesWell annot n := by
  have hAP : (repaired ctx annot).AP = some (only (statesLeft (isButton annot) n annot).1) :=
    congrArg Prod.fst hleft
  have hAS : (repaired ctx annot).AS = (statesLeft (isButton annot) n annot).2 :=
    congrArg Prod.snd hleft
  constructor
  · rintro ⟨-, n', hn', hplain, hbutton⟩
    rw [hAP] at hn'
    rw [hAS] at hbutton
    cases hn'
    exact ⟨hplain, hbutton⟩
  · rintro ⟨hplain, hbutton⟩
    refine ⟨⟨_, rfl, flagsSet_fixedFlags _⟩, _, hAP, hplain, ?_⟩
    rw [hAS]
    exact hbutton

/-- The entry that an appearance dictionary is reduced to. -/
theorem reduceAppearance_fst (annot : Annot) (ap : Appearance) :
    (reduceAppearance annot ap).1 = ap.normal.getD (.stream (makeEmptyAppearance annot.Rect)) := by
  unfold reduceAppearance
  cases ap.normal <;> rfl

theorem normal_eq_other_iff (ap : Appearance) : ap.normal = some .other ↔ ap.N = some .other := by
  unfold Appearance.normal
  cases ap.N with
  | some n => exact Iff.rfl
  | none =>
      refine iff_of_false (fun h => ?_) fun h => by cases h
      dsimp only at h
      obtain h | ⟨-, h⟩ := Option.or_eq_some_iff.mp h
      · exact absurd (Option.filter_eq_some_iff.mp h).2 (by decide)
      · exact absurd (Option.filter_eq_some_iff.mp h).2 (by decide)

/-- Kinds of annotations without an appearance of their own. -/
def bare : List String := ["Popup", "Link", "Projection"]

theorem needsAppearance_iff {ctx : Ctx} {annot : Annot}
    (hkind : ∀ s ∈ bare, annot.subtype ≠ some s) :
    needsAppearance ctx annot = true ↔ ¬ (ctx.verifyOnly = true ∧ zeroRect annot.Rect = true) := by
  have hpopup := hkind "Popup" List.mem_cons_self
  have hlink := hkind "Link" (List.mem_cons_of_mem _ List.mem_cons_self)
  have hprojection := hkind "Projection"
    (List.mem_cons_of_mem _ (List.mem_cons_of_mem _ List.mem_cons_self))
  rw [needsAppearance, decide_eq_true hpopup, decide_eq_true hlink, decide_eq_true hprojection,
    Bool.true_and, Bool.true_and, Bool.true_and, Bool.not_eq_true', ← Bool.not_eq_true,
    Bool.and_eq_true]

/-- The repair makes an annotation well formed exactly when it is repairable. -/
theorem wellFormed_iff {ctx : Ctx} {annot : Annot} (hkind : ∀ s ∈ bare, annot.subtype ≠ some s) :
    WellFormed (repaired ctx annot) ↔ Repairable ctx annot := by
  cases hap : annot.AP with
  | some ap =>
      have hleft : appearanceLeft ctx annot =
          (some (only (statesLeft (isButton annot) (reduceAppearance annot ap).1 annot).1),
            (statesLeft (isButton annot) (reduceAppearance annot ap).1 annot).2) := by
        rw [appearanceLeft, hap]
      rw [wellFormed_of_left hleft, leavesWell_iff, reduceAppearance_fst]
      constructor
      · rintro ⟨hnear, hother, hshown⟩
        refine ⟨hnear, fun ap' hap' hN => ?_, fun hbutton ap' states hap' hnormal => ?_,
          fun hnone => ?_⟩
        · cases hap.symm.trans hap'
          rw [(normal_eq_other_iff ap).mpr hN] at hother
          exact hother rfl
        · cases hap.symm.trans hap'
          exact hshown hbutton states (by rw [hnormal]; rfl)
        · rw [hap] at hnone
          cases hnone
      · intro h
        refine ⟨h.near, fun hother => ?_, fun hbutton states hdict => ?_⟩
        · cases hnormal : ap.normal with
          | none =>
              rw [hnormal] at hother
              cases hother
          | some n =>
              rw [hnormal] at hother
              cases hother
              exact h.entry ap hap ((normal_eq_other_iff ap).mp hnormal)
        · cases hnormal : ap.normal with
          | none =>
              rw [hnormal] at hdict
              cases hdict
          | some n =>
              rw [hnormal] at hdict
              cases hdict
              exact h.shown hbutton ap states hap hnormal
  | none =>
      by_cases hneeds : needsAppearance ctx annot = true
      · have hleft : appearanceLeft ctx annot =
            (some (only (statesLeft (isButton annot)
              (.stream (makeEmptyAppearance annot.Rect)) annot).1),
              (statesLeft (isButton annot) (.stream (makeEmptyAppearance annot.Rect))
                annot).2) := by
          rw [appearanceLeft, hap]
          dsimp only
          rw [if_pos hneeds]
        rw [wellFormed_of_left hleft, leavesWell_iff]
        constructor
        · rintro ⟨hnear, -, -⟩
          refine ⟨hnear, fun ap hap' => ?_, fun _ ap _ hap' => ?_, fun _ =>
            (needsAppearance_iff hkind).mp hneeds⟩
          all_goals
            rw [hap] at hap'
            cases hap'
        · intro h
          exact ⟨h.near, (fun h => by cases h), fun _ states h => by cases h⟩
      · refine iff_of_false (fun h => ?_) fun h => ?_
        · obtain ⟨n, hn, -⟩ := h.appearance
          have hnone : (repaired ctx annot).AP = none := by
            show (appearanceLeft ctx annot).1 = none
            rw [appearanceLeft, hap]
            dsimp only
            rw [if_neg hneeds]
          rw [hnone] at hn
          cases hn
        · exact hneeds ((needsAppearance_iff hkind).mpr (h.sized hap))

/-- The repair leaves an annotation that is well formed and stays as it is, exactly if it can. -/
theorem repaired_iff (ctx : Ctx) (annot : Annot) (hkind : ∀ s ∈ bare, annot.subtype ≠ some s) :
    (WellFormed ( fixAnnotation ctx annot).1 ∧
      fixAnnotation ctx ( fixAnnotation ctx annot).1 = (( fixAnnotation ctx annot).1, [])) ↔
      Repairable ctx annot := by
  rw [fixAnnotation_fst, ← wellFormed_iff hkind]
  exact and_iff_left ( fixAnnotation_settled ctx annot)

/-- A check box without a field above it, with appearances for its states. -/
def checkBox (states : List (String × StateObj)) : Annot where
  subtype := some "Widget"
  A := none
  AA := none
  F := some 4
  CA := none
  OC := false
  AP := some (only (.dict states))
  AS := none
  Rect := none
  fields := fun i => if i = 0 then some ⟨some "Btn", none⟩ else none

theorem repaired_check_box :
    (WellFormed ( fixAnnotation ⟨.A2B, false⟩ (checkBox [("Yes", .stream (.given 7))])).1 ∧
      fixAnnotation ⟨.A2B, false⟩ ( fixAnnotation ⟨.A2B, false⟩
        (checkBox [("Yes", .stream (.given 7))])).1 =
        (( fixAnnotation ⟨.A2B, false⟩ (checkBox [("Yes", .stream (.given 7))])).1, [])) ↔
      Repairable ⟨.A2B, false⟩ (checkBox [("Yes", .stream (.given 7))]) :=
  repaired_iff ⟨.A2B, false⟩ (checkBox [("Yes", .stream (.given 7))]) (by decide)

theorem checkBox_button (states : List (String × StateObj)) : ButtonWidget (checkBox states) :=
  ⟨rfl, 0, ⟨⟨some "Btn", none⟩, rfl, rfl⟩, fun j hj => absurd hj (Nat.not_lt_zero j)⟩

/-- A button without appearances of its states is left without them. -/
theorem stateless_button_kept : ¬ ∀ ctx annot, (∀ s ∈ bare, annot.subtype ≠ some s) →
    WellFormed ( fixAnnotation ctx annot).1 ∧
      fixAnnotation ctx ( fixAnnotation ctx annot).1 = (( fixAnnotation ctx annot).1, []) := by
  intro hall
  obtain ⟨hwell, -⟩ := hall ⟨.A2B, false⟩ (checkBox []) (by decide)
  rw [fixAnnotation_fst, wellFormed_iff (by decide)] at hwell
  obtain ⟨s, hs⟩ := hwell.shown (checkBox_button []) _ [] rfl rfl
  cases hs

end Kura.Engine.Annotations
