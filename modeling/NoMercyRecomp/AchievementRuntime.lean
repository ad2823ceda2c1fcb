import Mathlib
import NoMercyRecomp.KeyedPools
import NoMercyRecomp.Md5
import NoMercyRecomp.Triggers

/-!
# The achievement runtime

The runtime holds the triggers of some achievements, by id. A frame evaluates all of them and
tells its host what has changed, as events. A host that knows nothing but its own calls,
what they return, and the events has at any time the state of every achievement.
-/

namespace NoMercyRecomp.AchievementRuntime

open MemRefs Conditions ConditionSets Triggers KeyedPools Md5

/-- `rc_runtime_trigger_t`. A trigger with an invalid reference has its address. -/
structure RuntimeTrigger where
  id : UInt32
  trigger : Trigger
  md5 : List UInt8
  invalidMemref : Option UInt32

/-- `rc_runtime_t`: its triggers, and the references that they share. -/
structure Runtime where
  triggers : List RuntimeTrigger
  memrefs : Memrefs

/-- `RC_RUNTIME_EVENT_ACHIEVEMENT_*`. -/
inductive EventType
  | activated
  | paused
  | reset
  | triggered
  | primed
  | disabled
  | unprimed
  | progressUpdated
deriving DecidableEq

/-- `rc_runtime_event_t`. -/
structure Event where
  type : EventType
  id : UInt32
  value : Int32
deriving DecidableEq

/-- `rc_parse_trigger_internal`, with the communal references: the trigger, and the references
that it leaves, or an error. -/
abbrev Parse := List UInt8 → Memrefs → Except Int (Trigger × Memrefs)

/-- `rc_runtime_init`. -/
def rcRuntimeInit : Runtime := ⟨[], ⟨[], []⟩⟩

/-- `rc_runtime_checksum`. -/
def rcRuntimeChecksum (memaddr : List UInt8) : List UInt8 :=
  md5Finish (md5Append (md5Init (List.replicate 64 0)) memaddr)

/-- `rc_runtime_deactivate_trigger_by_index`. -/
def rcRuntimeDeactivateTriggerByIndex (self : Runtime) (index : Nat) : Runtime :=
  { self with triggers := swapRemove self.triggers index }

/-- The loop of `rc_runtime_deactivate_achievement`, from an index on. -/
def deactivateFrom (id : UInt32) : Nat → Nat → Runtime → Runtime
  | 0, _, self => self
  | fuel + 1, i, self =>
    match self.triggers[i]? with
    | none => self
    | some trigger =>
      deactivateFrom id fuel (i + 1)
        (if trigger.id = id then rcRuntimeDeactivateTriggerByIndex self i else self)

/-- `rc_runtime_deactivate_achievement`. -/
def rcRuntimeDeactivateAchievement (self : Runtime) (id : UInt32) : Runtime :=
  deactivateFrom id self.triggers.length 0 self

/-- `rc_runtime_get_achievement`. -/
def rcRuntimeGetAchievement (self : Runtime) (id : UInt32) : Option Trigger :=
  (self.triggers.find? (fun trigger => trigger.id = id)).map RuntimeTrigger.trigger

/-- The entry with its trigger reset. -/
def RuntimeTrigger.reset (entry : RuntimeTrigger) : RuntimeTrigger :=
  { entry with trigger := rcResetTrigger entry.trigger }

/-- The trigger at a place is reset. -/
def resetAt (self : Runtime) (index : Nat) : Runtime :=
  { self with triggers := self.triggers.modify index RuntimeTrigger.reset }

/-- The part of `rc_runtime_activate_achievement` behind the check for an active trigger. -/
def activateNew (parse : Parse) (self : Runtime) (id : UInt32) (memaddr md5 : List UInt8) :
    Runtime × Except Int Unit :=
  match self.triggers.findIdx? (fun entry => entry.id = id ∧ entry.md5 = md5) with
  | some index => (resetAt self index, .ok ())
  | none =>
    match parse memaddr self.memrefs with
    | .error error => (self, .error error)
    | .ok (trigger, memrefs) =>
      (⟨self.triggers ++ [⟨id, rcResetTrigger trigger, md5, none⟩], memrefs⟩, .ok ())

/-- The part of `rc_runtime_activate_achievement` behind the check of its text. -/
def activateText (parse : Parse) (self : Runtime) (id : UInt32) (memaddr : List UInt8) :
    Runtime × Except Int Unit :=
  let md5 := rcRuntimeChecksum memaddr
  match self.triggers.findIdx? (fun entry => entry.id = id) with
  | some index =>
    if (self.triggers[index]?.map RuntimeTrigger.md5) = some md5 then (resetAt self index, .ok ())
    else activateNew parse (rcRuntimeDeactivateTriggerByIndex self index) id memaddr md5
  | none => activateNew parse self id memaddr md5

/-- `RC_INVALID_MEMORY_OPERAND`. -/
def rcInvalidMemoryOperand : Int := -2

/-- `rc_runtime_activate_achievement`: the runtime, and `RC_OK` or an error. A text that is not
there is an error, and nothing else happens. -/
def rcRuntimeActivateAchievement (parse : Parse) (self : Runtime) (id : UInt32) :
    Option (List UInt8) → Runtime × Except Int Unit
  | none => (self, .error rcInvalidMemoryOperand)
  | some memaddr => activateText parse self id memaddr

/-- `rc_runtime_reset`. -/
def rcRuntimeReset (self : Runtime) : Runtime :=
  { self with triggers := self.triggers.map RuntimeTrigger.reset }

/-! ## A frame -/

/-- A percentage of a measured value. -/
def percent (value target : UInt32) : Int32 :=
  (value.toUInt64 * 100 / target.toUInt64).toUInt32.toInt32

/-- The event of a measured value that has changed. -/
def progressEvents (id : UInt32) (oldMeasuredValue : UInt32) (trigger : Trigger)
    (newState : TriggerState) : List Event :=
  if trigger.measuredValue ≠ oldMeasuredValue ∧ oldMeasuredValue ≠ rcMeasuredUnknown ∧
      trigger.measuredTarget ≠ 0 ∧
      trigger.measuredValue ≤ trigger.measuredTarget ∧ newState ≠ .triggered ∧
      newState ≠ .inactive ∧ newState ≠ .waiting then
    if trigger.measuredAsPercent then
      let oldPercent := percent oldMeasuredValue trigger.measuredTarget
      let newPercent := percent trigger.measuredValue trigger.measuredTarget
      if oldPercent ≠ newPercent then [⟨.progressUpdated, id, newPercent⟩] else []
    else [⟨.progressUpdated, id, trigger.measuredValue.toInt32⟩]
  else []

/-- The events of a state that has changed. -/
def stateEvents (id : UInt32) (oldState newState : TriggerState) : List Event :=
  if newState = oldState then []
  else
    (if oldState = .primed then [⟨.unprimed, id, 0⟩] else []) ++
      match newState with
      | .triggered => [⟨.triggered, id, 0⟩]
      | .paused => [⟨.paused, id, 0⟩]
      | .primed => [⟨.primed, id, 0⟩]
      | .active => if oldState = .waiting ∨ oldState = .paused then [⟨.activated, id, 0⟩] else []
      | _ => []

/-- One round of the loop of `rc_runtime_do_frame`: the trigger, and its events. -/
def frameOf (memrefs : Memrefs) (peek : RcPeek) (entry : RuntimeTrigger) :
    RuntimeTrigger × List Event :=
  match entry.invalidMemref with
  | some address =>
    ({ entry with trigger.state := .disabled, invalidMemref := none },
      [⟨.disabled, entry.id, address.toInt32⟩])
  | none =>
    let (trigger, returned) := rcEvaluateTrigger entry.trigger ⟨peek, memrefs⟩
    let newState := if returned = .reset then trigger.state else returned
    ({ entry with trigger := trigger },
      (if returned = .reset then [⟨.reset, entry.id, 0⟩] else []) ++
        progressEvents entry.id entry.trigger.measuredValue trigger newState ++
        stateEvents entry.id entry.trigger.state newState)

/-- `rc_runtime_do_frame`, of the triggers: the last one comes first. -/
def rcRuntimeDoFrame (self : Runtime) (peek : RcPeek) : Runtime × List Event :=
  let memrefs := rcUpdateMemrefValues self.memrefs peek
  (⟨self.triggers.map (fun entry => (frameOf memrefs peek entry).1), memrefs⟩,
    self.triggers.reverse.flatMap (fun entry => (frameOf memrefs peek entry).2))

/-! ## Invalid addresses -/

/-- `rc_condset_contains_memref`. -/
def rcCondsetContainsMemref (condset : Condset) (index : Nat) : Bool :=
  let reads := fun (operand : Operand) =>
    match operand.source, operand.recalled with
    | .memref _ (.memref other) _, false => other = index
    | _, _ => false
  condset.all.any (fun condition => reads condition.operand1 || reads condition.operand2)

/-- `rc_trigger_contains_memref`. -/
def rcTriggerContainsMemref (trigger : Trigger) (index : Nat) : Bool :=
  trigger.sets.any (fun condset => rcCondsetContainsMemref condset index)

/-- `rc_runtime_invalidate_memref`, of the triggers. -/
def rcRuntimeInvalidateMemref (address : UInt32) (triggers : List RuntimeTrigger) (index : Nat) :
    List RuntimeTrigger :=
  triggers.map (fun entry =>
    if entry.invalidMemref = none ∧
    rcTriggerContainsMemref entry.trigger index then { entry with invalidMemref := some address }
    else entry)

/-- `rc_runtime_invalidate_address`. -/
def rcRuntimeInvalidateAddress (self : Runtime) (address : UInt32) : Runtime :=
  let places := (List.range self.memrefs.memrefs.length).filter
    (fun index => self.memrefs.memrefs[index]?.map Memref.address = some address)
  { triggers := places.foldl (rcRuntimeInvalidateMemref address) self.triggers
    memrefs :=
      { self.memrefs with
        memrefs := self.memrefs.memrefs.map
          (fun memref => if memref.address = address then { memref with value.type := .none }
          else memref) } }

/-! ## The host -/

/-- What a host knows: the state of each achievement that is active in the runtime. -/
abbrev Host := UInt32 → Option TriggerState

/-- What an event says about a state. -/
def told (type : EventType) (state : TriggerState) : TriggerState :=
  match type with
  | .activated | .unprimed => .active
  | .paused => .paused
  | .triggered => .triggered
  | .primed => .primed
  | .disabled => .disabled
  | .reset | .progressUpdated => state

/-- The host after an event. -/
def Host.note (host : Host) (event : Event) : Host := fun id =>
  if event.id = id then (host id).map (told event.type) else host id

/-- What the host does with the runtime, and what happens to it. -/
inductive Call
  | activate (id : UInt32) (memaddr : Option (List UInt8))
  | deactivate (id : UInt32)
  | frame (peek : RcPeek)
  | reset
  | invalidate (address : UInt32)

/-- What comes back. -/
inductive Reply
  | activated (result : Except Int Unit)
  | events (events : List Event)
  | nothing

/-- The runtime after a call, and the reply. -/
def Runtime.call (parse : Parse) (self : Runtime) : Call → Runtime × Reply
  | .activate id memaddr =>
    let (self, result) := rcRuntimeActivateAchievement parse self id memaddr
    (self, .activated result)
  | .deactivate id => (rcRuntimeDeactivateAchievement self id, .nothing)
  | .frame peek =>
    let (self, events) := rcRuntimeDoFrame self peek
    (self, .events events)
  | .reset => (rcRuntimeReset self, .nothing)
  | .invalidate address => (rcRuntimeInvalidateAddress self address, .nothing)

/-- What the host makes of a call and its reply. A call without a text has done nothing. -/
def Host.called (host : Host) (call : Call) (reply : Reply) : Host :=
  match call, reply with
  | .activate _ none, _ => host
  | .activate id _, .activated (.ok ()) => fun other =>
    if other = id then some .waiting else host other
  | .activate id _, .activated (.error _) => fun other => if other = id then none else host other
  | .deactivate id, _ => fun other => if other = id then none else host other
  | .reset, _ => fun other => (host other).map (fun _ => .waiting)
  | .frame _, .events events => events.foldl Host.note host
  | _, _ => host

/-- The runtime and the host after some calls. -/
def calls (parse : Parse) : List Call → Runtime × Host → Runtime × Host
  | [], both => both
  | call :: rest, (self, host) =>
    let after := self.call parse call
    calls parse rest (after.1, host.called call after.2)

/-! ## One trigger on a frame -/

/-- What an evaluation returns, and the state that it leaves. -/
theorem settle_states (self : Trigger) (logic : Logic) (hasHits isPrimed : Bool) :
    let result := settle self logic hasHits isPrimed
    (result.2 = result.1.state ∨ result.2 = .reset) ∧
      (result.1.state = .active ∨ result.1.state = .paused ∨ result.1.state = .primed) := by
  unfold settle
  cases logic.isPaused <;> cases isPrimed <;> cases logic.state.verdict.wasCondReset <;> simp

/-- The same of a trigger that is processed, by the branches of its evaluation. A trigger that
waits may go on waiting; one that fires is returned and left as triggered. -/
theorem evaluateActive_states (self : Trigger) (logic : Logic)
    (processed : self.state = .waiting ∨ self.state = .active ∨ self.state = .paused ∨
      self.state = .primed) :
    let result := evaluateActive self logic
    (result.2 = result.1.state ∨ result.2 = .reset) ∧
      (result.1.state = .active ∨ result.1.state = .paused ∨ result.1.state = .primed ∨
        result.1.state = .triggered ∨ result.1.state = self.state) := by
  have settled : ∀ self : Trigger, ∀ hasHits isPrimed state,
      let result := settle self logic hasHits isPrimed
      (result.2 = result.1.state ∨ result.2 = .reset) ∧
        (result.1.state = .active ∨ result.1.state = .paused ∨ result.1.state = .primed ∨
          result.1.state = .triggered ∨ result.1.state = state) := by
    intro self hasHits isPrimed state
    obtain ⟨returned, left⟩ := settle_states self logic hasHits isPrimed
    exact ⟨returned, by tauto⟩
  dsimp only [evaluateActive]
  split
  next =>
    split
    next =>
      refine ⟨Or.inr rfl, ?_⟩
      obtain state | state | state | state := processed <;> simp [rcResetTriggerHitcounts, state]
    next => exact settled _ _ _ _
  next =>
    split
    next =>
      split
      next waiting => exact ⟨Or.inl rfl, Or.inr (Or.inr (Or.inr (Or.inr waiting.symm)))⟩
      next => exact ⟨Or.inl rfl, Or.inr (Or.inr (Or.inr (Or.inl rfl)))⟩
    next => exact settled _ _ _ _

/-- What an evaluation of a processed trigger returns and leaves: the state that it leaves, or a
reset. A trigger that waits may go on waiting. -/
theorem rcEvaluateTrigger_states (self : Trigger) (frame : TriggerFrame)
    (processed : self.state = .waiting ∨ self.state = .active ∨ self.state = .paused ∨
      self.state = .primed) :
    let result := rcEvaluateTrigger self frame
    (result.2 = result.1.state ∨ result.2 = .reset) ∧
      (result.1.state = .active ∨ result.1.state = .paused ∨ result.1.state = .primed ∨
        result.1.state = .triggered ∨ result.1.state = self.state) := by
  have states := evaluateActive_states (rcUpdateTriggerMemrefs self frame)
    (testSets ((rcUpdateTriggerMemrefs self frame).pools frame)
      (rcUpdateTriggerMemrefs self frame)) processed
  unfold rcEvaluateTrigger
  split
  next triggered => rw [triggered] at processed; simp at processed
  next disabled => rw [disabled] at processed; simp at processed
  next inactive => rw [inactive] at processed; simp at processed
  next => exact states

/-- What some events say about a state, one after the other. -/
def toldAll (events : List Event) (state : TriggerState) : TriggerState :=
  events.foldl (fun state event => told event.type state) state

/-- The events of a change tell the new state. -/
theorem stateEvents_told (id : UInt32) (old new : TriggerState)
    (processed : old = .waiting ∨ old = .active ∨ old = .paused ∨ old = .primed)
    (left : new = .active ∨ new = .paused ∨ new = .primed ∨ new = .triggered ∨ new = old) :
    toldAll (stateEvents id old new) old = new := by
  obtain rfl | rfl | rfl | rfl := processed <;> obtain rfl | rfl | rfl | rfl | rfl := left <;> rfl

/-- Events of progress tell a host nothing of the state. -/
theorem progressEvents_told (id oldMeasuredValue : UInt32) (trigger : Trigger)
    (new state : TriggerState) :
    toldAll (progressEvents id oldMeasuredValue trigger new) state = state := by
  unfold progressEvents
  split
  next =>
    split
    next => dsimp only; split <;> rfl
    next => rfl
  next => rfl

/-- All events of a trigger are about it, and the entry keeps its id: the events of a change of
state and those of progress are both made with the id of the entry. -/
theorem frameOf_ids (memrefs : Memrefs) (peek : RcPeek) (entry : RuntimeTrigger) :
    (frameOf memrefs peek entry).1.id = entry.id ∧
    ∀ event ∈ (frameOf memrefs peek entry).2, event.id = entry.id := by
  have progress : ∀ oldMeasuredValue trigger newState,
      ∀ event ∈ progressEvents entry.id oldMeasuredValue trigger newState, event.id = entry.id := by
    intro oldMeasuredValue trigger newState event member
    unfold progressEvents at member
    split at member
    next =>
      split at member
      next =>
        dsimp only at member
        split at member
        next => rw [List.mem_singleton.mp member]
        next => cases member
      next => rw [List.mem_singleton.mp member]
    next => cases member
  have changes : ∀ old new, ∀ event ∈ stateEvents entry.id old new, event.id = entry.id := by
    intro old new event member
    have all : (stateEvents entry.id old new).all (fun event => event.id = entry.id) = true := by
      cases old <;> cases new <;> simp [stateEvents]
    simpa using List.all_eq_true.mp all event member
  unfold frameOf
  split
  next => exact ⟨rfl, fun event member => by rw [List.mem_singleton.mp member]⟩
  next =>
    refine ⟨rfl, fun event member => ?_⟩
    obtain (reset | measured) | changed := (List.mem_append.mp member).imp_left List.mem_append.mp
    · split at reset
      next => rw [List.mem_singleton.mp reset]
      next => cases reset
    · exact progress _ _ _ event measured
    · exact changes _ _ event changed

/-- The events of a trigger tell its state. What an evaluation returns is the state that it
leaves, unless it is a reset, which is told apart and leaves another; progress tells nothing of
the state. -/
theorem frameOf_told (memrefs : Memrefs) (peek : RcPeek) (entry : RuntimeTrigger)
    (known : entry.trigger.state ≠ .reset) :
    toldAll (frameOf memrefs peek entry).2 entry.trigger.state =
      (frameOf memrefs peek entry).1.trigger.state ∧
      (frameOf memrefs peek entry).1.trigger.state ≠ .reset := by
  unfold frameOf
  split
  next => exact ⟨rfl, nofun⟩
  next =>
    by_cases processed : entry.trigger.state = .waiting ∨ entry.trigger.state = .active ∨
        entry.trigger.state = .paused ∨ entry.trigger.state = .primed
    · obtain ⟨returned, left⟩ := rcEvaluateTrigger_states entry.trigger ⟨peek, memrefs⟩ processed
      have new : (if (rcEvaluateTrigger entry.trigger ⟨peek, memrefs⟩).2 = .reset then
          (rcEvaluateTrigger entry.trigger ⟨peek, memrefs⟩).1.state
          else (rcEvaluateTrigger entry.trigger ⟨peek, memrefs⟩).2) =
            (rcEvaluateTrigger entry.trigger ⟨peek, memrefs⟩).1.state := by
        split
        next => rfl
        next unreset => exact returned.resolve_right unreset
      have announced :
        ∀ state, toldAll (if (rcEvaluateTrigger entry.trigger ⟨peek, memrefs⟩).2 = .reset then
          [⟨.reset, entry.id, 0⟩] else []) state = state := by
        intro state
        split <;> rfl
      constructor
      · simp only [toldAll, List.foldl_append] at announced ⊢
        rw [announced, new]
        have quiet := progressEvents_told entry.id entry.trigger.measuredValue
          (rcEvaluateTrigger entry.trigger ⟨peek, memrefs⟩).1
            (rcEvaluateTrigger entry.trigger ⟨peek, memrefs⟩).1.state
          entry.trigger.state
        rw [toldAll] at quiet
        rw [quiet]
        exact stateEvents_told entry.id _ _ processed left
      · obtain state | state | state | state | state := left
        all_goals
          intro reset
          rw [state] at reset
        all_goals first | cases reset | exact known reset
    · have resting : (rcEvaluateTrigger entry.trigger ⟨peek, memrefs⟩).2 = .inactive ∧
          (rcEvaluateTrigger entry.trigger ⟨peek, memrefs⟩).1.state = entry.trigger.state := by
        unfold rcEvaluateTrigger
        cases state : entry.trigger.state <;> simp_all [rcUpdateTriggerMemrefs]
      have silent : ∀ trigger,
          progressEvents entry.id entry.trigger.measuredValue trigger .inactive = [] := by
        intro trigger
        simp [progressEvents]
      have still : stateEvents entry.id entry.trigger.state .inactive = [] := by
        cases state : entry.trigger.state <;> simp_all [stateEvents]
      dsimp only
      rw [resting.1, resting.2, if_neg nofun, if_neg nofun, silent, still]
      exact ⟨rfl, known⟩

/-! ## All triggers -/

/-- What a host should know. -/
def observe (self : Runtime) : Host := fun id => (rcRuntimeGetAchievement self id).map Trigger.state

/-- No two triggers have one id, and none is left in a state that is only announced. -/
structure Sound (runtime : Runtime) : Prop where
  unique : Unique RuntimeTrigger.id runtime.triggers
  known : ∀ entry ∈ runtime.triggers, entry.trigger.state ≠ .reset

/-- What a host should know of an id is the state of the entry that a lookup finds. -/
theorem observe_lookup (self : Runtime) (id : UInt32) :
    observe self id = (lookup RuntimeTrigger.id self.triggers id).map
      (fun entry => entry.trigger.state) := by
  rw [observe, rcRuntimeGetAchievement, Option.map_map]
  rfl

/-- The events that a host notes for one id. -/
theorem note_all (events : List Event) (host : Host) (id : UInt32) :
    events.foldl Host.note host id = (host id).map
      (toldAll (events.filter (fun event => event.id = id))) := by
  induction events generalizing host with
  | nil => exact Option.map_id'.symm
  | cons event events inductionHypothesis =>
    rw [List.foldl_cons, inductionHypothesis, Host.note]
    by_cases about : event.id = id
    · rw [if_pos about, Option.map_map, List.filter_cons_of_pos (by simpa using about)]
      rfl
    · rw [if_neg about, List.filter_cons_of_neg (by simpa using about)]

/-- A frame: the events tell every state. The loop runs backwards and its events are mixed, but
those of one id are of one trigger, and they come in its own order. -/
theorem frame_observed (self : Runtime) (sound : Sound self) (peek : RcPeek) :
    Sound (rcRuntimeDoFrame self peek).1 ∧
      observe (rcRuntimeDoFrame self peek).1 = (rcRuntimeDoFrame self peek).2.foldl Host.note
        (observe self) := by
  generalize pools : rcUpdateMemrefValues self.memrefs peek = memrefs
  have triggers : (rcRuntimeDoFrame self peek).1.triggers =
      self.triggers.map (fun entry => (frameOf memrefs peek entry).1) := by
    rw [rcRuntimeDoFrame, pools]
  have events : (rcRuntimeDoFrame self peek).2 =
      self.triggers.reverse.flatMap (fun entry => (frameOf memrefs peek entry).2) := by
    rw [rcRuntimeDoFrame, pools]
  have ids : ∀ entry, (frameOf memrefs peek entry).1.id = entry.id := fun entry =>
    (frameOf_ids memrefs peek entry).1
  constructor
  · refine ⟨?_, fun entry member => ?_⟩
    · rw [triggers]
      exact unique_map RuntimeTrigger.id _ ids _ sound.unique
    · rw [triggers] at member
      obtain ⟨before, old, rfl⟩ := List.mem_map.mp member
      exact (frameOf_told memrefs peek before (sound.known before old)).2
  · funext id
    rw [observe_lookup, triggers, lookup_map RuntimeTrigger.id _ ids, note_all, observe_lookup,
      events]
    cases found : lookup RuntimeTrigger.id self.triggers id with
    | none => rfl
    | some entry =>
      obtain ⟨member, rfl⟩ := (lookup_some RuntimeTrigger.id _ sound.unique entry id).mp found
      have reversed : Unique RuntimeTrigger.id self.triggers.reverse :=
        unique_perm RuntimeTrigger.id _ _ (List.reverse_perm _).symm sound.unique
      have own := reports_filter RuntimeTrigger.id
        (fun entry => (frameOf memrefs peek entry).2) Event.id self.triggers.reverse
        (fun other _ => (frameOf_ids memrefs peek other).2) reversed entry
          (List.mem_reverse.mpr member)
      rw [own, Option.map_some, Option.map_some, Option.map_some, Option.map_some,
        (frameOf_told memrefs peek entry (sound.known entry member)).1]

/-- All triggers are reset. -/
theorem reset_observed (self : Runtime) (sound : Sound self) :
    Sound (rcRuntimeReset self) ∧ observe (rcRuntimeReset self) = fun id =>
      (observe self id).map (fun _ => .waiting) := by
  constructor
  · refine ⟨unique_map RuntimeTrigger.id RuntimeTrigger.reset (fun _ => rfl) _ sound.unique,
      fun entry member => ?_⟩
    obtain ⟨before, _, rfl⟩ := List.mem_map.mp member
    exact nofun
  · funext id
    rw [observe_lookup, observe_lookup, rcRuntimeReset,
      lookup_map RuntimeTrigger.id RuntimeTrigger.reset (fun _ => rfl), Option.map_map,
      Option.map_map]
    rfl

/-- One trigger is reset, and waits again. As ids are apart, resetting the entry at a place is
resetting all entries with its id. -/
theorem resetAt_observed (self : Runtime) (sound : Sound self) (index : Nat)
    (entry : RuntimeTrigger) (here : self.triggers[index]? = some entry) :
    Sound (resetAt self index) ∧
      observe (resetAt self index) = fun other =>
        if other = entry.id then some .waiting else observe self other := by
  have keeps : ∀ other : RuntimeTrigger, RuntimeTrigger.id
      (if other.id = entry.id then other.reset else other) = other.id := by
    intro other
    split <;> rfl
  have mapped : (resetAt self index).triggers = self.triggers.map
      (fun other => if other.id = entry.id then other.reset else other) :=
    modify_eq_map RuntimeTrigger.id _ _ sound.unique index entry here
  constructor
  · refine ⟨?_, fun other member => ?_⟩
    · rw [mapped]
      exact unique_map RuntimeTrigger.id _ keeps _ sound.unique
    · rw [mapped] at member
      obtain ⟨before, old, rfl⟩ := List.mem_map.mp member
      split
      next => exact nofun
      next => exact sound.known before old
  · funext id
    rw [observe_lookup, mapped, lookup_map RuntimeTrigger.id _ keeps, Option.map_map]
    split
    next same =>
      have found := (lookup_some RuntimeTrigger.id _ sound.unique entry id).mpr
        ⟨List.mem_of_getElem? here, same.symm⟩
      rw [found, Option.map_some, Function.comp_apply, if_pos rfl]
      rfl
    next different =>
      rw [observe_lookup]
      cases found : lookup RuntimeTrigger.id self.triggers id with
      | none => rfl
      | some other =>
        obtain ⟨_, same⟩ := (lookup_some RuntimeTrigger.id _ sound.unique other id).mp found
        rw [Option.map_some, Option.map_some, Function.comp_apply,
          if_neg (fun equal => different (same.symm.trans equal))]

/-- One trigger is removed. The last entry takes its place in the pool, which changes what no
other id leads to. -/
theorem removed_observed (self : Runtime) (sound : Sound self) (index : Nat)
    (entry : RuntimeTrigger) (here : self.triggers[index]? = some entry) :
    Sound (rcRuntimeDeactivateTriggerByIndex self index) ∧
      observe (rcRuntimeDeactivateTriggerByIndex self index) =
        fun other => if other = entry.id then none else observe self other := by
  obtain ⟨inside, _⟩ := List.getElem?_eq_some_iff.mp here
  have found := lookup_swapRemove RuntimeTrigger.id self.triggers sound.unique index entry here
  constructor
  · refine ⟨(found entry.id).1, fun other member => sound.known other ?_⟩
    exact List.mem_of_mem_eraseIdx ((swapRemove_perm self.triggers index inside).mem_iff.mp member)
  · funext id
    rw [observe_lookup, rcRuntimeDeactivateTriggerByIndex, (found id).2]
    split
    next => rfl
    next => rw [observe_lookup]

/-- No trigger has an id that is not observed. -/
theorem observe_none (self : Runtime) (id : UInt32) :
    observe self id = none ↔ ∀ entry ∈ self.triggers, entry.id ≠ id := by
  rw [observe_lookup, Option.map_eq_none_iff, lookup, List.find?_eq_none]
  simp

/-- The loop finds nothing more of an id that is not there. -/
theorem deactivateFrom_absent (id : UInt32) (fuel i : Nat) (self : Runtime)
    (absent : observe self id = none) :
    deactivateFrom id fuel i self = self := by
  induction fuel generalizing i with
  | zero => rfl
  | succ fuel inductionHypothesis =>
    rw [deactivateFrom]
    split
    next => rfl
    next entry here =>
      rw [if_neg ((observe_none self id).mp absent entry (List.mem_of_getElem? here))]
      exact inductionHypothesis (i + 1)

/-- When the loop has passed all triggers, none of them has the id. -/
theorem passed_all (id : UInt32) (i : Nat) (self : Runtime) (short : self.triggers.length ≤ i)
    (passed : ∀ k < i, ∀ entry, self.triggers[k]? = some entry → entry.id ≠ id) :
    observe self = fun other => if other = id then none else observe self other := by
  have absent : observe self id = none := by
    rw [observe_none]
    intro entry member
    obtain ⟨k, here⟩ := List.getElem?_of_mem member
    obtain ⟨inside, _⟩ := List.getElem?_eq_some_iff.mp here
    exact passed k (by omega) entry here
  funext other
  split
  next same => rw [same, absent]
  next => rfl

/-- The loop of a deactivation takes the id away and nothing else. An entry behind the removed one
moves to its place; as ids are unique, the loop does not miss one by going on. -/
theorem deactivateFrom_observed (id : UInt32) (fuel i : Nat) (self : Runtime) (sound : Sound self)
    (enough : self.triggers.length ≤ i + fuel)
    (passed : ∀ k < i, ∀ entry, self.triggers[k]? = some entry → entry.id ≠ id) :
    Sound (deactivateFrom id fuel i self) ∧
      observe (deactivateFrom id fuel i self) = fun other =>
        if other = id then none else observe self other := by
  induction fuel generalizing i with
  | zero => exact ⟨sound, passed_all id i self (by omega) passed⟩
  | succ fuel inductionHypothesis =>
    rw [deactivateFrom]
    split
    next beyond =>
      have short := List.getElem?_eq_none_iff.mp beyond
      exact ⟨sound, passed_all id i self short passed⟩
    next entry here =>
      by_cases wanted : entry.id = id
      · obtain ⟨sound', removed⟩ := removed_observed self sound i entry here
        rw [wanted] at removed
        have absent : observe (rcRuntimeDeactivateTriggerByIndex self i) id = none := by
          rw [removed]
          exact if_pos rfl
        rw [if_pos wanted, deactivateFrom_absent id fuel (i + 1) _ absent]
        exact ⟨sound', removed⟩
      · rw [if_neg wanted]
        refine inductionHypothesis (i + 1) (by omega) (fun k before other found => ?_)
        obtain earlier | rfl := Nat.lt_succ_iff_lt_or_eq.mp before
        · exact passed k earlier other found
        · rw [here] at found
          exact Option.some.inj found ▸ wanted

/-- A trigger is deactivated. -/
theorem deactivate_observed (self : Runtime) (sound : Sound self) (id : UInt32) :
    Sound (rcRuntimeDeactivateAchievement self id) ∧
      observe (rcRuntimeDeactivateAchievement self id) = fun other =>
        if other = id then none else observe self other :=
  deactivateFrom_observed id _ 0 self sound (by omega)
    (fun _ before => absurd before (Nat.not_lt_zero _))

/-- What an activation should leave. -/
def activated (host : Host) (id : UInt32) (result : Except Int Unit) : Host := fun other =>
  if other = id then
    match result with
    | .ok () => some .waiting
    | .error _ => none
  else host other

/-- What a host makes of an activation is what the activation should leave. -/
theorem activated_called (host : Host) (id : UInt32) (memaddr : List UInt8)
    (result : Except Int Unit) :
    activated host id result = host.called (.activate id (some memaddr)) (.activated result) := by
  cases result <;> rfl

/-- An id that is not there is activated. Its text is parsed: where that fails the id stays away,
and otherwise a new entry is inserted, which waits. -/
theorem activateNew_observed (parse : Parse) (self : Runtime) (sound : Sound self) (id : UInt32)
    (memaddr md5 : List UInt8) (absent : observe self id = none) :
    let result := activateNew parse self id memaddr md5
    Sound result.1 ∧ observe result.1 = activated (observe self) id result.2 := by
  have apart := (observe_none self id).mp absent
  have none : self.triggers.findIdx? (fun entry => entry.id = id ∧ entry.md5 = md5) = none := by
    rw [List.findIdx?_eq_none_iff]
    intro entry member
    simp [apart entry member]
  cases parsed : parse memaddr self.memrefs with
  | error error =>
    simp only [activateNew, none, parsed]
    refine ⟨sound, ?_⟩
    funext other
    simp only [activated]
    split
    next same => rw [same, absent]
    next => rfl
  | ok parsing =>
    obtain ⟨trigger, memrefs⟩ := parsing
    simp only [activateNew, none, parsed]
    have free : lookup RuntimeTrigger.id self.triggers id = Option.none := by
      rw [lookup, List.find?_eq_none]
      intro entry member
      simpa using apart entry member
    have inserted := lookup_insert RuntimeTrigger.id self.triggers sound.unique
      ⟨id, rcResetTrigger trigger, md5, Option.none⟩ free
    refine ⟨⟨(inserted id).1, fun entry member => ?_⟩, ?_⟩
    · obtain old | new := List.mem_append.mp member
      · exact sound.known entry old
      · rw [List.mem_singleton.mp new]
        exact (show TriggerState.waiting ≠ .reset by decide)
    · funext other
      simp only [observe_lookup, (inserted other).2, activated]
      split
      next => rfl
      next => rfl

/-- An achievement is activated. An entry with the same checksum is reset in its place; one with
another checksum is removed first, so that what is left is a new activation. -/
theorem activateText_observed (parse : Parse) (self : Runtime) (sound : Sound self) (id : UInt32)
    (memaddr : List UInt8) :
    let result := activateText parse self id memaddr
    Sound result.1 ∧ observe result.1 = activated (observe self) id result.2 := by
  unfold activateText
  dsimp only
  split
  next index found =>
    obtain ⟨inside, same, _⟩ := List.findIdx?_eq_some_iff_getElem.mp found
    have here : self.triggers[index]? = some self.triggers[index] := List.getElem?_eq_getElem inside
    have same' : self.triggers[index].id = id := by simpa using same
    split
    next =>
      obtain ⟨sound', reset⟩ := resetAt_observed self sound index _ here
      rw [same'] at reset
      exact ⟨sound', reset⟩
    next =>
      obtain ⟨sound', removed⟩ := removed_observed self sound index _ here
      rw [same'] at removed
      have absent : observe (rcRuntimeDeactivateTriggerByIndex self index) id = none := by
        rw [removed]
        exact if_pos rfl
      obtain ⟨sound'', new⟩ :=
        activateNew_observed parse _ sound' id memaddr (rcRuntimeChecksum memaddr) absent
      refine ⟨sound'', new.trans ?_⟩
      funext other
      simp only [activated, removed]
      split
      next => rfl
      next different => rfl
  next found =>
    refine activateNew_observed parse self sound id memaddr (rcRuntimeChecksum memaddr) ?_
    rw [observe_none]
    intro entry member
    simpa using List.findIdx?_eq_none_iff.mp found entry member

/-- An invalid address marks triggers, and does not change their states: the entries keep their
ids and triggers, so nothing is observed and no event is missing. -/
theorem invalidateMemref_observed (address : UInt32) (index : Nat) (memrefs : Memrefs)
    (triggers : List RuntimeTrigger) (sound : Sound ⟨triggers, memrefs⟩) :
    Sound ⟨rcRuntimeInvalidateMemref address triggers index, memrefs⟩ ∧
      observe ⟨rcRuntimeInvalidateMemref address triggers index, memrefs⟩ =
        observe ⟨triggers, memrefs⟩ := by
  have kept : ∀ entry : RuntimeTrigger,
      let after := if entry.invalidMemref = none ∧ rcTriggerContainsMemref entry.trigger index then
        { entry with invalidMemref := some address } else entry
      after.id = entry.id ∧ after.trigger = entry.trigger := by
    intro entry
    dsimp only
    split <;> exact ⟨rfl, rfl⟩
  constructor
  · refine ⟨unique_map RuntimeTrigger.id _ (fun entry => (kept entry).1) _ sound.unique,
      fun entry member => ?_⟩
    obtain ⟨before, old, rfl⟩ := List.mem_map.mp member
    rw [(kept before).2]
    exact sound.known before old
  · funext id
    rw [observe_lookup, observe_lookup, rcRuntimeInvalidateMemref,
      lookup_map RuntimeTrigger.id _ (fun entry => (kept entry).1), Option.map_map]
    refine Option.map_congr (fun entry _ => ?_)
    rw [Function.comp_apply, (kept entry).2]

/-- An invalid address changes no state that a host should know: the triggers with the reference
are only marked, one reference after the other. -/
theorem invalidate_observed (self : Runtime) (sound : Sound self) (address : UInt32) :
    Sound (rcRuntimeInvalidateAddress self address) ∧
    observe (rcRuntimeInvalidateAddress self address) = observe self := by
  have marked : ∀ (places : List Nat) (triggers : List RuntimeTrigger),
      Sound ⟨triggers, self.memrefs⟩ →
      Sound ⟨places.foldl (rcRuntimeInvalidateMemref address) triggers, self.memrefs⟩ ∧
        observe ⟨places.foldl (rcRuntimeInvalidateMemref address) triggers, self.memrefs⟩ =
          observe ⟨triggers, self.memrefs⟩ := by
    intro places
    induction places with
    | nil => exact fun triggers sound => ⟨sound, rfl⟩
    | cons index places inductionHypothesis =>
      intro triggers sound
      obtain ⟨sound', same⟩ := invalidateMemref_observed address index self.memrefs triggers sound
      obtain ⟨sound'', same'⟩ := inductionHypothesis _ sound'
      exact ⟨sound'', same'.trans same⟩
  obtain ⟨sound', same⟩ := marked _ self.triggers sound
  exact ⟨⟨sound'.unique, sound'.known⟩, same⟩

/-- One call: its events tell what is observed behind it. One case a call, of which only frames
have many events. -/
theorem call_observed (parse : Parse) (self : Runtime) (sound : Sound self) (call : Call) :
    Sound (self.call parse call).1 ∧
      observe (self.call parse call).1 = (observe self).called call (self.call parse call).2 := by
  cases call with
  | activate id memaddr =>
    cases memaddr with
    | none => exact ⟨sound, rfl⟩
    | some memaddr =>
      obtain ⟨sound', new⟩ := activateText_observed parse self sound id memaddr
      exact ⟨sound', new.trans (activated_called _ id memaddr _)⟩
  | deactivate id => exact deactivate_observed self sound id
  | frame peek => exact frame_observed self sound peek
  | reset => exact reset_observed self sound
  | invalidate address => exact invalidate_observed self sound address

/-- Whatever a host calls, in whatever order, the ids in the runtime stay apart, and what the host
makes of the replies and the events is the state of every achievement. Each call keeps the host's
table in step with the lookup in the runtime, as long as ids are apart and no trigger rests in the
state of a reset. -/
theorem calls_observed (parse : Parse) (sequence : List Call) :
    let (self, host) := calls parse sequence (rcRuntimeInit, fun _ => none)
    Unique RuntimeTrigger.id self.triggers ∧
        ∀ id, host id = (rcRuntimeGetAchievement self id).map Trigger.state := by
  have start : Sound rcRuntimeInit := ⟨List.nodup_nil, fun _ member => nomatch member⟩
  have initial : (fun _ => none) = observe rcRuntimeInit := rfl
  rw [initial]
  generalize rcRuntimeInit = self at start
  have run : ∀ (sequence : List Call) (self : Runtime), Sound self →
      Sound (calls parse sequence (self, observe self)).1 ∧
        (calls parse sequence (self, observe self)).2 =
          observe (calls parse sequence (self, observe self)).1 := by
    intro sequence
    induction sequence with
    | nil => exact fun self sound => ⟨sound, rfl⟩
    | cons call rest inductionHypothesis =>
      intro self sound
      obtain ⟨sound', known⟩ := call_observed parse self sound call
      have later := inductionHypothesis _ sound'
      rw [known] at later
      exact later
  obtain ⟨sound, known⟩ := run sequence self start
  exact ⟨sound.unique, fun id => congrFun known id⟩

end NoMercyRecomp.AchievementRuntime
