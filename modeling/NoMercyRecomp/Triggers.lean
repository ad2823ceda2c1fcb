import Mathlib
import NoMercyRecomp.ConditionSets
import NoMercyRecomp.FiringPhases

/-!
# Triggers

A trigger is a condition set and its alternatives. A frame evaluates them one after the
other, with one state. The trigger waits until its logic has been false for a frame, fires
when it is true again, and then rests until it is reset. In every run it fires at the first
frame at which it may, and at no other one; and no condition ever counts beyond its target.
-/

namespace NoMercyRecomp.Triggers

open TypedValues MemRefs Conditions ConditionSets FiringPhases

/-- `RC_TRIGGER_STATE_*`. -/
inductive TriggerState
  | inactive
  | waiting
  | active
  | paused
  | reset
  | triggered
  | primed
  | disabled
deriving DecidableEq

/-- `rc_trigger_t`. One without references of its own uses those of the runtime. -/
structure Trigger where
  requirement : Option Condset
  alternative : List Condset
  measuredValue : UInt32
  measuredTarget : UInt32
  state : TriggerState
  hasHits : Bool
  measuredAsPercent : Bool
  memrefs : Option Memrefs

/-- `RC_MEASURED_UNKNOWN`. -/
def rcMeasuredUnknown : UInt32 := 0xFFFFFFFF

/-- What a frame gives: the memory, and the references of the runtime as they are. -/
structure TriggerFrame where
  peek : RcPeek
  shared : Memrefs

/-- `rc_condset_is_measured_from_hitcount`. -/
def rcCondsetIsMeasuredFromHitcount (condset : Condset) (measuredValue : UInt32) : Bool :=
  (condset.pause ++ condset.reset ++ condset.hittarget ++ condset.measured ++ condset.other ++
    condset.indirect).any
    (fun condition => condition.type = .measured ∧ condition.requiredHits ≠ 0 ∧
      condition.currentHits = measuredValue)

/-- `rc_reset_trigger_hitcounts`. -/
def rcResetTriggerHitcounts (self : Trigger) : Trigger :=
  { self with
    requirement := self.requirement.map rcResetCondset
    alternative := self.alternative.map rcResetCondset }

/-- `rc_reset_trigger`. -/
def rcResetTrigger (self : Trigger) : Trigger :=
  { rcResetTriggerHitcounts self with
    state := .waiting
    measuredValue := if self.measuredTarget ≠ 0 then rcMeasuredUnknown else self.measuredValue
    hasHits := false }

/-- `rc_update_trigger_memrefs`. -/
def rcUpdateTriggerMemrefs (self : Trigger) (frame : TriggerFrame) : Trigger :=
  { self with memrefs := self.memrefs.map (fun memrefs => rcUpdateMemrefValues memrefs frame.peek) }

/-- The references that the conditions read. -/
def Trigger.pools (self : Trigger) (frame : TriggerFrame) : Memrefs :=
  self.memrefs.getD frame.shared

/-- `memset(&eval_state, 0, sizeof(eval_state))`. -/
def zeroState : EvalState where
  chain := ⟨0, false, false, false⟩
  verdict := ⟨false, false, false, false, false, false, false, false⟩
  measure := ⟨⟨.none, 0⟩, false⟩
  canShortCurcuit := false

/-- What the alternatives come to. -/
structure Alternatives where
  sets : List Condset
  state : EvalState
  sub : Bool
  subPaused : Bool
  subPrimed : Bool
  measure : Measure

/-- The measured value after a set: the first that is captured, or a greater one. -/
def captured (measure : Measure) (state : EvalState) : Measure :=
  if state.measure.value.type ≠ .none ∧
      (measure.value.type = .none ∨ rcTypedValueCompare state.measure.value measure.value .gt) then
        state.measure
  else measure

/-- The loop over the alternatives. -/
def testAlternatives (memrefs : Memrefs) : List Condset → EvalState → Measure → Alternatives
  | [], state, measure => ⟨[], state, false, true, false, measure⟩
  | condset :: rest, state, measure =>
    let (condset, state, ret) := rcTestCondset memrefs condset state
    let later := testAlternatives memrefs rest state (captured measure state)
    { later with
      sets := condset :: later.sets
      sub := ret || later.sub
      subPaused := state.verdict.isPaused && later.subPaused
      subPrimed := state.verdict.isPrimed || later.subPrimed }

/-- What the sets of a trigger come to. -/
structure Logic where
  requirement : Option Condset
  alternative : List Condset
  state : EvalState
  ret : Bool
  isPaused : Bool
  isPrimed : Bool
  measure : Measure

/-- The part of `rc_evaluate_trigger` that evaluates the requirement. -/
def testRequirement (memrefs : Memrefs) (requirement : Option Condset) : Logic :=
  match requirement with
  | some condset =>
    let (condset, state, ret) := rcTestCondset memrefs condset zeroState
    ⟨some condset, [], state, ret, state.verdict.isPaused, state.verdict.isPrimed,
      if state.measure.value.type ≠ .none then state.measure else ⟨⟨.none, 0⟩, false⟩⟩
  | none => ⟨none, [], zeroState, true, false, true, ⟨⟨.none, 0⟩, false⟩⟩

/-- The part that evaluates all sets. -/
def testSets (memrefs : Memrefs) (self : Trigger) : Logic :=
  let core := testRequirement memrefs self.requirement
  if self.alternative = [] then core
  else
    let alternatives := testAlternatives memrefs self.alternative core.state core.measure
    { core with
      alternative := alternatives.sets
      state := alternatives.state
      ret := core.ret && alternatives.sub
      isPrimed := core.isPrimed && alternatives.subPrimed
      isPaused := core.isPaused || alternatives.subPaused
      measure := alternatives.measure }

/-- The measured value that the sets leave. -/
def Logic.measuredValue (logic : Logic) (before : UInt32) : UInt32 :=
  if logic.isPaused then before
  else if logic.measure.value.type = .none then before
  else (rcTypedValueConvert logic.measure.value .unsigned).u32

/-- The measured value when a `ResetIf` was true. -/
def Logic.measuredAfterReset (logic : Logic) (measuredValue : UInt32) : UInt32 :=
  if logic.measure.fromHits then 0
  else if logic.isPaused ∧ measuredValue ≠ 0 then
    if (logic.requirement.toList ++ logic.alternative).any
        (fun condset =>
          condset.isPaused && rcCondsetIsMeasuredFromHitcount condset measuredValue) then 0
    else measuredValue
  else measuredValue

/-- The end of `rc_evaluate_trigger`, when the trigger does not fire. -/
def settle (self : Trigger) (logic : Logic) (hasHits isPrimed : Bool) : Trigger × TriggerState :=
  let state := if logic.isPaused then .paused else if isPrimed then .primed else .active
  ({ self with hasHits := hasHits, state := state }, if logic.state.verdict.wasCondReset then .reset
    else state)

/-- `rc_evaluate_trigger`, of a trigger that is processed. -/
def evaluateActive (self : Trigger) (logic : Logic) : Trigger × TriggerState :=
  let self :=
    { self with
      requirement := logic.requirement
      alternative := logic.alternative
      measuredValue := logic.measuredValue self.measuredValue }
  if logic.state.verdict.wasReset then
    let self := rcResetTriggerHitcounts { self with
      measuredValue := logic.measuredAfterReset self.measuredValue }
    if self.hasHits then
      ({ self with
        hasHits := false, state := if self.state = .primed then .active else self.state }, .reset)
    else settle self logic false false
  else if logic.ret then
    if self.state = .waiting then ({ rcResetTrigger self with hasHits := false }, .waiting)
    else ({ self with state := .triggered }, .triggered)
  else settle self logic logic.state.verdict.hasHits logic.isPrimed

/-- `rc_evaluate_trigger`: the trigger, and what is returned. -/
def rcEvaluateTrigger (self : Trigger) (frame : TriggerFrame) : Trigger × TriggerState :=
  match self.state with
  | .triggered | .disabled => (self, .inactive)
  | .inactive => (rcUpdateTriggerMemrefs self frame, .inactive)
  | _ =>
    let self := rcUpdateTriggerMemrefs self frame
    evaluateActive self (testSets (self.pools frame) self)

/-! ## When a trigger fires -/

/-- Whether the logic of a trigger is true on a frame. -/
def ready (self : Trigger) (frame : TriggerFrame) : Bool :=
  let self := rcUpdateTriggerMemrefs self frame
  let logic := testSets (self.pools frame) self
  logic.ret && !logic.state.verdict.wasReset

/-- What is returned, frame after frame. -/
def results : List TriggerFrame → Trigger → List TriggerState
  | [], _ => []
  | frame :: frames, self =>
    (rcEvaluateTrigger self frame).2 :: results frames (rcEvaluateTrigger self frame).1

/-- The verdicts of the logic, frame after frame. -/
def readies : List TriggerFrame → Trigger → List Bool
  | [], _ => []
  | frame :: frames, self => ready self frame :: readies frames (rcEvaluateTrigger self frame).1

/-- The phase that a trigger is in. One that waits has no hits. -/
def InPhase (self : Trigger) : Phase → Prop
  | .waiting => self.state = .waiting ∧ self.hasHits = false
  | .armed => self.state = .active ∨ self.state = .paused ∨ self.state = .primed
  | .fired => self.state = .triggered

/-- A trigger waits when it is reset. -/
theorem rcResetTrigger_waiting (self : Trigger) : InPhase (rcResetTrigger self) .waiting :=
  ⟨rfl, rfl⟩

/-- A trigger that does not fire is armed. -/
theorem settle_armed (self : Trigger) (logic : Logic) (hasHits isPrimed : Bool) :
    InPhase (settle self logic hasHits isPrimed).1 .armed ∧
    (settle self logic hasHits isPrimed).2 ≠ .triggered := by
  unfold settle
  cases logic.isPaused <;> cases isPrimed <;> cases logic.state.verdict.wasCondReset <;>
    simp [InPhase]

/-- A trigger that does not fire, while its logic is false, is armed: it was, or it stops waiting.
A reset clears its hits and lets it be processed from then on. -/
theorem evaluateActive_unready (self : Trigger) (logic : Logic) (phase : Phase)
    (processed : phase ≠ .fired) (inPhase : InPhase self phase)
    (unready : (logic.ret && !logic.state.verdict.wasReset) = false) :
    InPhase (evaluateActive self logic).1 .armed ∧ (evaluateActive self logic).2 ≠ .triggered := by
  dsimp only [evaluateActive]
  split
  next =>
    split
    next hits =>
      refine ⟨?_, nofun⟩
      cases phase with
      | waiting => exact absurd (inPhase.2.symm.trans hits) nofun
      | armed =>
        obtain state | state | state := inPhase <;> simp [InPhase, rcResetTriggerHitcounts, state]
      | fired => exact absurd rfl processed
    next => exact settle_armed _ logic false false
  next unreset =>
    have unmet : logic.ret = false := by simpa [unreset] using unready
    rw [unmet]
    exact settle_armed _ logic _ _

/-- One evaluation, by the verdict: the phase of the trigger steps, and it is reported as
triggered exactly when the phase says that it fires. One case a phase. -/
theorem evaluateActive_step (self : Trigger) (logic : Logic) (phase : Phase)
    (processed : phase ≠ .fired) (inPhase : InPhase self phase) :
    let verdict := logic.ret && !logic.state.verdict.wasReset
    InPhase (evaluateActive self logic).1 (phase.step verdict).1 ∧
      ((evaluateActive self logic).2 = .triggered ↔ (phase.step verdict).2 = true) := by
  intro verdict
  cases held : verdict with
  | false =>
    obtain ⟨armed, silent⟩ := evaluateActive_unready self logic phase processed inPhase held
    cases phase with
    | waiting | armed => exact ⟨armed, ⟨fun fires => absurd fires silent, nofun⟩⟩
    | fired => exact absurd rfl processed
  | true =>
    obtain ⟨ret, unreset⟩ := Bool.and_eq_true_iff.mp held
    have unreset' : logic.state.verdict.wasReset = false := by simpa using unreset
    simp only [evaluateActive, unreset', ret, Bool.false_eq_true, if_false, if_true]
    cases phase with
    | waiting =>
      rw [if_pos inPhase.1]
      exact ⟨⟨rfl, rfl⟩, ⟨nofun, nofun⟩⟩
    | armed =>
      have processing : self.state ≠ .waiting := by
        obtain state | state | state := inPhase <;> (rw [state]; exact nofun)
      rw [if_neg processing]
      exact ⟨rfl, ⟨fun _ => rfl, fun _ => rfl⟩⟩
    | fired => exact absurd rfl processed

/-- One frame: a fired trigger is passed over, and any other is evaluated with its references
updated. Either way its phase steps by the frame's verdict. -/
theorem rcEvaluateTrigger_step (self : Trigger) (frame : TriggerFrame) (phase : Phase)
    (inPhase : InPhase self phase) :
    InPhase (rcEvaluateTrigger self frame).1 (phase.step (ready self frame)).1 ∧
      ((rcEvaluateTrigger self frame).2 = .triggered ↔
        (phase.step (ready self frame)).2 = true) := by
  cases phase with
  | fired =>
    have fired : self.state = .triggered := inPhase
    rw [rcEvaluateTrigger, fired]
    cases ready self frame <;> exact ⟨inPhase, ⟨nofun, nofun⟩⟩
  | waiting =>
    have step := evaluateActive_step (rcUpdateTriggerMemrefs self frame)
      (testSets ((rcUpdateTriggerMemrefs self frame).pools frame)
        (rcUpdateTriggerMemrefs self frame)) .waiting nofun inPhase
    have waiting : self.state = .waiting := inPhase.1
    rw [rcEvaluateTrigger, waiting]
    exact step
  | armed =>
    have step := evaluateActive_step (rcUpdateTriggerMemrefs self frame)
      (testSets ((rcUpdateTriggerMemrefs self frame).pools frame)
        (rcUpdateTriggerMemrefs self frame)) .armed nofun inPhase
    obtain state | state | state := inPhase <;> (rw [rcEvaluateTrigger, state]; exact step)

/-- A run of frames, by the verdicts. -/
theorem results_firings (frames : List TriggerFrame) (self : Trigger) (phase : Phase)
    (inPhase : InPhase self phase) :
    (results frames self).map (fun result => decide (result = .triggered)) =
      phase.firings (readies frames self) := by
  induction frames generalizing self phase with
  | nil => rfl
  | cons frame frames inductionHypothesis =>
    obtain ⟨next, fires⟩ := rcEvaluateTrigger_step self frame phase inPhase
    rw [results, readies, List.map_cons, Phase.firings, inductionHypothesis _ _ next]
    congr 1
    rw [Bool.eq_iff_iff, decide_eq_true_iff, fires]

/-- After a reset a trigger fires at the first frame at which its logic is true after it has been
false, and at no other frame. What its state does in a run is a machine of three phases that looks
at the logic alone: waiting for it to be false, armed, and fired. -/
theorem rcEvaluateTrigger_fires (self : Trigger) (frames : List TriggerFrame) (place : Nat) :
    (results frames (rcResetTrigger self))[place]? = some .triggered ↔
      ∃ start < place, (∀ k < start, (readies frames (rcResetTrigger self))[k]? = some true) ∧
        Rises (readies frames (rcResetTrigger self)) start place := by
  rw [← waiting_firings, ← results_firings frames _ .waiting (rcResetTrigger_waiting self),
    List.getElem?_map]
  cases (results frames (rcResetTrigger self))[place]? <;> simp

/-! ## Hits over a run -/

/-- All conditions of some sets. -/
def AllOf (sets : List Condset) (property : Condition → Prop) : Prop :=
  ∀ condset ∈ sets, ∀ condition ∈ condset.all, property condition

/-- The sets of a trigger. -/
def Trigger.sets (self : Trigger) : List Condset := self.requirement.toList ++ self.alternative

/-- What is done with a trigger. -/
inductive Action
  | frame (frame : TriggerFrame)
  | reset

/-- The trigger after an action. -/
def Trigger.act (self : Trigger) : Action → Trigger
  | .frame frame => (rcEvaluateTrigger self frame).1
  | .reset => rcResetTrigger self

/-- The frames since the last reset. -/
def sinceReset (frames : Nat) (actions : List Action) : Nat :=
  actions.foldl (fun frames action =>
    match action with
    | .frame _ => frames + 1
    | .reset => 0) frames

/-- Counting is carried through an evaluation. -/
theorem counted_carried (frames : Nat) : Carried (Counted frames) (Counted (frames + 1)) where
  evaluated memrefs condition state counted :=
    evaluate_counted frames memrefs condition state counted
  cleared _ _ := counted_zero _ _ rfl
  left _ counted := ⟨Nat.le_succ_of_le counted.1, counted.2⟩

/-- The conditions of a set without hits. -/
theorem rcResetCondset_counted (frames : Nat) (condset : Condset) :
    ∀ condition ∈ (rcResetCondset condset).all, Counted frames condition := by
  intro condition member
  refine counted_zero frames condition ?_
  simp only [Condset.all, rcResetCondset, cleared, List.mem_append, List.mem_map] at member
  obtain ((((⟨_, _, rfl⟩ | ⟨_, _, rfl⟩) | ⟨_, _, rfl⟩) | ⟨_, _, rfl⟩) | ⟨_, _, rfl⟩) |
      ⟨_, _, rfl⟩ := member <;> rfl

/-- After a reset every count is within any bound: it is none. -/
theorem rcResetTriggerHitcounts_counted (frames : Nat) (self : Trigger) :
    AllOf (rcResetTriggerHitcounts self).sets (Counted frames) := by
  intro condset member
  have reset : ∃ old, rcResetCondset old = condset := by
    simp only [Trigger.sets, rcResetTriggerHitcounts, List.mem_append, Option.mem_toList,
      Option.map_eq_some_iff, List.mem_map] at member
    obtain ⟨old, _, same⟩ | ⟨old, _, same⟩ := member <;> exact ⟨old, same⟩
  obtain ⟨old, rfl⟩ := reset
  exact rcResetCondset_counted frames old

/-- Testing the alternatives counts one hit more at most in each condition. By induction on the
sets, each evaluated from the state behind the one before. -/
theorem testAlternatives_counted (frames : Nat) (memrefs : Memrefs) (sets : List Condset)
    (state : EvalState) (measure : Measure) (counted : AllOf sets (Counted frames)) :
    AllOf (testAlternatives memrefs sets state measure).sets (Counted (frames + 1)) := by
  induction sets generalizing state measure with
  | nil => exact fun _ member => nomatch member
  | cons condset rest inductionHypothesis =>
    have here := rcTestCondset_carried (counted_carried frames) memrefs condset state
      (counted condset List.mem_cons_self)
    have later := fun state measure =>
      inductionHypothesis state measure
        (fun other member => counted other (List.mem_cons_of_mem condset member))
    intro other member
    obtain rfl | member := List.mem_cons.mp member
    · exact here
    · exact later _ _ other member

/-- A frame counts one frame more in all sets, the required one and the alternatives, whichever of
them are evaluated in it. -/
theorem testSets_counted (frames : Nat) (memrefs : Memrefs) (self : Trigger)
    (counted : AllOf self.sets (Counted frames)) :
    AllOf ((testSets memrefs self).requirement.toList ++ (testSets memrefs self).alternative)
      (Counted (frames + 1)) := by
  have requirement : AllOf (testRequirement memrefs self.requirement).requirement.toList
      (Counted (frames + 1)) := by
    unfold testRequirement
    cases set : self.requirement with
    | none => exact fun _ member => nomatch member
    | some condset =>
      have inside : condset ∈ self.sets := by simp [Trigger.sets, set]
      have here := rcTestCondset_carried (counted_carried frames) memrefs condset zeroState
        (counted condset inside)
      intro other member
      rw [List.mem_singleton.mp member]
      exact here
  have none : (testRequirement memrefs self.requirement).alternative = [] := by
    unfold testRequirement
    cases self.requirement <;> rfl
  have alternatives :=
    fun state measure => testAlternatives_counted frames memrefs self.alternative state measure
    (fun condset member => counted condset (List.mem_append_right _ member))
  unfold testSets
  dsimp only
  split
  next =>
    rw [none, List.append_nil]
    exact requirement
  next =>
    intro condset member
    obtain core | alternative := List.mem_append.mp member
    · exact requirement condset core
    · exact alternatives _ _ condset alternative

/-- One frame. The sets have been evaluated, or passed over, or reset; in each case no condition
has counted more than one hit more. -/
theorem rcEvaluateTrigger_counted (frames : Nat) (self : Trigger) (frame : TriggerFrame)
    (counted : AllOf self.sets (Counted frames)) :
    AllOf (rcEvaluateTrigger self frame).1.sets (Counted (frames + 1)) := by
  have left : AllOf self.sets (Counted (frames + 1)) := fun condset member condition inside =>
    (counted_carried frames).left condition (counted condset member condition inside)
  have tested := testSets_counted frames ((rcUpdateTriggerMemrefs self frame).pools frame)
    (rcUpdateTriggerMemrefs self frame) counted
  have active : AllOf (evaluateActive (rcUpdateTriggerMemrefs self frame)
      (testSets ((rcUpdateTriggerMemrefs self frame).pools frame)
        (rcUpdateTriggerMemrefs self frame))).1.sets
        (Counted (frames + 1)) := by
    generalize testSets ((rcUpdateTriggerMemrefs self frame).pools frame)
      (rcUpdateTriggerMemrefs self frame) = logic at tested ⊢
    dsimp only [evaluateActive]
    split
    next =>
      split
      next => exact rcResetTriggerHitcounts_counted (frames + 1) _
      next => exact rcResetTriggerHitcounts_counted (frames + 1) _
    next =>
      split
      next =>
        split
        next => exact rcResetTriggerHitcounts_counted (frames + 1) _
        next => exact tested
      next => exact tested
  unfold rcEvaluateTrigger
  split
  next => exact left
  next => exact left
  next => exact left
  next => exact active

/-- However frames and resets follow each other, no condition has more hits than there were frames
since the last reset, nor more than its target. By induction on the actions: a frame adds at most
one hit to a condition, whichever evaluator it has, and a reset clears all. -/
theorem act_counted (self : Trigger) (actions : List Action) :
    AllOf (actions.foldl Trigger.act (rcResetTrigger self)).sets
      (Counted (sinceReset 0 actions)) := by
  have start : AllOf (rcResetTrigger self).sets (Counted 0) :=
    rcResetTriggerHitcounts_counted 0 self
  generalize rcResetTrigger self = trigger at start ⊢
  generalize 0 = frames at start ⊢
  induction actions generalizing trigger frames with
  | nil => exact start
  | cons action actions inductionHypothesis =>
    cases action with
    | frame frame =>
      exact inductionHypothesis _ _ (rcEvaluateTrigger_counted frames trigger frame start)
    | reset => exact inductionHypothesis _ _ (rcResetTriggerHitcounts_counted 0 trigger)

end NoMercyRecomp.Triggers
