import Mathlib
import NoMercyRecomp.Conditions
import NoMercyRecomp.GroupedRuns

/-!
# Condition sets

The conditions of a set are written as chains: combining conditions, and the one that they
combine with. When a set is parsed, its chains are sorted into groups, and a frame
evaluates group after group: the pausing ones first, then those that reset, those that
count, and the rest. On a frame that neither pauses nor resets, every condition counts as
it would in the order of the text, and the verdict is that of the text.
-/

namespace NoMercyRecomp.ConditionSets

open TypedValues MemRefs Conditions GroupedRuns

/-! ## Classes -/

/-- `RC_CONDITION_CLASSIFICATION_*`. -/
inductive Classification
  | combining
  | pause
  | reset
  | hittarget
  | measured
  | other
  | indirect
deriving DecidableEq

instance : Fintype Classification where
  elems := {.combining, .pause, .reset, .hittarget, .measured, .other, .indirect}
  complete classification := by cases classification <;> simp

/-- `rc_classify_condition`. -/
def rcClassifyCondition (cond : Condition) : Classification :=
  match cond.type with
  | .pauseIf => .pause
  | .resetIf => .reset
  | .addAddress | .addSource | .subSource => .indirect
  | .addHits | .andNext | .orNext | .remember | .resetNextIf | .subHits => .combining
  | .measured | .measuredIf => .measured
  | .standard | .trigger => if cond.requiredHits ≠ 0 then .hittarget else .other

/-- `rc_find_next_classification`, of the conditions that are still to be parsed. -/
def rcFindNextClassification : List Condition → Classification
  | [] => .other
  | condition :: rest =>
    match rcClassifyCondition condition with
    | .combining | .indirect => rcFindNextClassification rest
    | classification => classification

/-- The loop of `rc_parse_condset`, with `combining_classification`: where each condition is
put. -/
def placed (combiningClassification : Classification) :
    List Condition → List (Classification × Condition)
  | [] => []
  | condition :: rest =>
    let classification := rcClassifyCondition condition
    if classification = .combining then
      let combiningClassification :=
        if combiningClassification = .combining then rcFindNextClassification rest
          else combiningClassification
      (combiningClassification, condition) :: placed combiningClassification rest
    else (classification, condition) :: placed .combining rest

/-- `rc_condset_t`, with the arrays behind it. -/
structure Condset where
  pause : List Condition
  reset : List Condition
  hittarget : List Condition
  measured : List Condition
  other : List Condition
  indirect : List Condition
  isPaused : Bool

/-- The conditions that are put in an array. -/
def arrayOf (classification : Classification) (conditions : List Condition) : List Condition :=
  (placed .combining conditions).filterMap
    (fun entry => if entry.1 = classification then some entry.2 else none)

/-- `rc_parse_condset`, of the conditions as they are parsed. -/
def rcParseCondset (conditions : List Condition) : Condset where
  pause := arrayOf .pause conditions
  reset := arrayOf .reset conditions
  hittarget := arrayOf .hittarget conditions
  measured := arrayOf .measured conditions
  other := arrayOf .other conditions
  indirect := arrayOf .indirect conditions
  isPaused := false

/-! ## Evaluation -/

/-- What a condition leaves to the next one. -/
structure ChainState where
  addHits : Int32
  andNext : Bool
  orNext : Bool
  resetNext : Bool

/-- The verdict on the conditions so far. -/
@[ext]
structure Verdict where
  isTrue : Bool
  isPrimed : Bool
  isPaused : Bool
  canMeasure : Bool
  stopProcessing : Bool
  hasHits : Bool
  wasReset : Bool
  wasCondReset : Bool
deriving DecidableEq

/-- A measured value. -/
structure Measure where
  value : TypedValue
  fromHits : Bool

/-- `rc_eval_state_t`. -/
structure EvalState where
  chain : ChainState
  verdict : Verdict
  measure : Measure
  canShortCurcuit : Bool

/-- A condition after its evaluation. -/
structure Evaluated where
  condition : Condition
  state : EvalState
  condValid : Bool

/-- `rc_condset_evaluate_condition_no_add_hits`, when no `ResetNextIf` is before it. -/
def evaluateHits (condition : Condition) (state : EvalState) (condValid : Bool) : Evaluated :=
  if condValid then
    let state := { state with verdict.hasHits := true }
    if condition.requiredHits = 0 then
      ⟨{ condition with currentHits := condition.currentHits + 1 }, state, true⟩
    else if condition.currentHits < condition.requiredHits then
      ⟨{ condition with currentHits := condition.currentHits + 1 }, state,
        condition.currentHits + 1 = condition.requiredHits⟩
    else ⟨condition, state, true⟩
  else if condition.currentHits > 0 then
    ⟨condition, { state with verdict.hasHits := true },
      condition.currentHits = condition.requiredHits⟩
  else ⟨condition, state, false⟩

/-- `rc_condset_evaluate_condition_no_add_hits`. -/
def rcCondsetEvaluateConditionNoAddHits (memrefs : Memrefs) (condition : Condition)
    (state : EvalState) : Evaluated :=
  let condValid := rcTestCondition memrefs condition
  let condition := { condition with isTrue := if condValid then 1 else 0 }
  let evaluated :=
    if state.chain.resetNext then
      let wasCondReset := state.verdict.wasCondReset || condition.currentHits ≠ 0
      ⟨{ condition with currentHits := 0 }, { state with verdict.wasCondReset := wasCondReset },
        false⟩
    else evaluateHits condition state (condValid && state.chain.andNext || state.chain.orNext)
  { evaluated with state.chain.andNext := true, state.chain.orNext := false }

/-- `rc_condset_evaluate_total_hits`. -/
def rcCondsetEvaluateTotalHits (condition : Condition) (state : EvalState) : UInt32 × EvalState :=
  let totalHits :=
    if condition.requiredHits ≠ 0 then
      let signedHits := condition.currentHits.toInt32 + state.chain.addHits
      if signedHits ≥ 0 then signedHits.toUInt32 else 0
    else condition.currentHits
  (totalHits, { state with chain.addHits := 0 })

/-- `rc_condset_evaluate_condition`. -/
def rcCondsetEvaluateCondition (memrefs : Memrefs) (condition : Condition) (state : EvalState) :
    Evaluated :=
  let evaluated := rcCondsetEvaluateConditionNoAddHits memrefs condition state
  let evaluated :=
    if evaluated.state.chain.addHits ≠ 0 ∧ evaluated.condition.requiredHits ≠ 0 then
      let (totalHits, state) := rcCondsetEvaluateTotalHits evaluated.condition evaluated.state
      ⟨evaluated.condition, state, totalHits ≥ evaluated.condition.requiredHits⟩
    else evaluated
  { evaluated with state.chain.resetNext := false }

/-- `rc_condset_evaluate_standard`. -/
def rcCondsetEvaluateStandard (memrefs : Memrefs) (condition : Condition) (state : EvalState) :
    Condition × EvalState :=
  let evaluated := rcCondsetEvaluateCondition memrefs condition state
  let verdict := evaluated.state.verdict
  (evaluated.condition,
    { evaluated.state with
      verdict.isTrue := verdict.isTrue && evaluated.condValid
      verdict.isPrimed := verdict.isPrimed && evaluated.condValid
      verdict.stopProcessing :=
        verdict.stopProcessing || !evaluated.condValid && evaluated.state.canShortCurcuit })

/-- `rc_condset_evaluate_pause_if`. -/
def rcCondsetEvaluatePauseIf (memrefs : Memrefs) (condition : Condition) (state : EvalState) :
    Condition × EvalState :=
  let evaluated := rcCondsetEvaluateCondition memrefs condition state
  if evaluated.condValid then
    (evaluated.condition,
      { evaluated.state with
        verdict.isPaused := true, verdict.isTrue := false, verdict.isPrimed := false,
        verdict.stopProcessing := true })
  else if evaluated.condition.requiredHits = 0 then
    ({ evaluated.condition with currentHits := 0 }, evaluated.state)
  else (evaluated.condition, evaluated.state)

/-- `rc_condset_evaluate_reset_if`. -/
def rcCondsetEvaluateResetIf (memrefs : Memrefs) (condition : Condition) (state : EvalState) :
    Condition × EvalState :=
  let evaluated := rcCondsetEvaluateCondition memrefs condition state
  if evaluated.condValid then
    ({ evaluated.condition with isTrue := evaluated.condition.isTrue ||| 0x02 },
      { evaluated.state with
        verdict.isTrue := false, verdict.isPrimed := false, verdict.wasReset := true,
        verdict.stopProcessing := true })
  else (evaluated.condition, evaluated.state)

/-- `rc_condset_evaluate_trigger`. -/
def rcCondsetEvaluateTrigger (memrefs : Memrefs) (condition : Condition) (state : EvalState) :
    Condition × EvalState :=
  let evaluated := rcCondsetEvaluateCondition memrefs condition state
  (evaluated.condition,
    { evaluated.state with
      verdict.isTrue := evaluated.state.verdict.isTrue && evaluated.condValid })

/-- `rc_condset_evaluate_measured`. -/
def rcCondsetEvaluateMeasured (memrefs : Memrefs) (condition : Condition) (state : EvalState) :
    Condition × EvalState :=
  if condition.requiredHits = 0 then
    let (condition, state) := rcCondsetEvaluateStandard memrefs condition state
    (condition, { state with measure := ⟨rcEvaluateOperand memrefs condition.operand1, false⟩ })
  else
    let evaluated := rcCondsetEvaluateConditionNoAddHits memrefs condition state
    let (totalHits, state) := rcCondsetEvaluateTotalHits evaluated.condition evaluated.state
    let condValid : Bool := totalHits ≥ evaluated.condition.requiredHits
    (evaluated.condition,
      { state with
        verdict.isTrue := state.verdict.isTrue && condValid
        verdict.isPrimed := state.verdict.isPrimed && condValid
        measure := ⟨⟨.unsigned, totalHits⟩, true⟩
        chain.resetNext := false })

/-- `rc_condset_evaluate_measured_if`. -/
def rcCondsetEvaluateMeasuredIf (memrefs : Memrefs) (condition : Condition) (state : EvalState) :
    Condition × EvalState :=
  let evaluated := rcCondsetEvaluateCondition memrefs condition state
  let verdict := evaluated.state.verdict
  (evaluated.condition,
    { evaluated.state with
      verdict.isTrue := verdict.isTrue && evaluated.condValid
      verdict.isPrimed := verdict.isPrimed && evaluated.condValid
      verdict.canMeasure := verdict.canMeasure && evaluated.condValid })

/-- `rc_condset_evaluate_add_hits` and `rc_condset_evaluate_sub_hits`, which differ in what
they do with the hits. -/
def evaluateAddHits (add : Int32 → Int32 → Int32) (memrefs : Memrefs) (condition : Condition)
    (state : EvalState) :
    Condition × EvalState :=
  let evaluated := rcCondsetEvaluateConditionNoAddHits memrefs condition state
  (evaluated.condition,
    { evaluated.state with
      chain.addHits := add evaluated.state.chain.addHits evaluated.condition.currentHits.toInt32
      chain.resetNext := false })

/-- `rc_condset_evaluate_add_hits`. -/
def rcCondsetEvaluateAddHits (memrefs : Memrefs) (condition : Condition) (state : EvalState) :
    Condition × EvalState :=
  evaluateAddHits (· + ·) memrefs condition state

/-- `rc_condset_evaluate_sub_hits`. -/
def rcCondsetEvaluateSubHits (memrefs : Memrefs) (condition : Condition) (state : EvalState) :
    Condition × EvalState :=
  evaluateAddHits (· - ·) memrefs condition state

/-- `rc_condset_evaluate_reset_next_if`. -/
def rcCondsetEvaluateResetNextIf (memrefs : Memrefs) (condition : Condition) (state : EvalState) :
    Condition × EvalState :=
  let evaluated := rcCondsetEvaluateConditionNoAddHits memrefs condition state
  (evaluated.condition, { evaluated.state with chain.resetNext := evaluated.condValid })

/-- `rc_condset_evaluate_and_next`. -/
def rcCondsetEvaluateAndNext (memrefs : Memrefs) (condition : Condition) (state : EvalState) :
    Condition × EvalState :=
  let evaluated := rcCondsetEvaluateConditionNoAddHits memrefs condition state
  (evaluated.condition, { evaluated.state with chain.andNext := evaluated.condValid })

/-- `rc_condset_evaluate_or_next`. -/
def rcCondsetEvaluateOrNext (memrefs : Memrefs) (condition : Condition) (state : EvalState) :
    Condition × EvalState :=
  let evaluated := rcCondsetEvaluateConditionNoAddHits memrefs condition state
  (evaluated.condition, { evaluated.state with chain.orNext := evaluated.condValid })

/-- The switch of `rc_test_condset_internal`. -/
def evaluate (memrefs : Memrefs) (condition : Condition) (state : EvalState) :
    Condition × EvalState :=
  match condition.type with
  | .standard => rcCondsetEvaluateStandard memrefs condition state
  | .pauseIf => rcCondsetEvaluatePauseIf memrefs condition state
  | .resetIf => rcCondsetEvaluateResetIf memrefs condition state
  | .trigger => rcCondsetEvaluateTrigger memrefs condition state
  | .measured => rcCondsetEvaluateMeasured memrefs condition state
  | .measuredIf => rcCondsetEvaluateMeasuredIf memrefs condition state
  | .addSource | .subSource | .addAddress | .remember => (condition, state)
  | .addHits => rcCondsetEvaluateAddHits memrefs condition state
  | .subHits => rcCondsetEvaluateSubHits memrefs condition state
  | .resetNextIf => rcCondsetEvaluateResetNextIf memrefs condition state
  | .andNext => rcCondsetEvaluateAndNext memrefs condition state
  | .orNext => rcCondsetEvaluateOrNext memrefs condition state

/-- `rc_test_condset_internal`. -/
def rcTestCondsetInternal (memrefs : Memrefs) (canShortCircuit : Bool) :
    List Condition → EvalState → List Condition × EvalState
  | [], state => ([], state)
  | condition :: rest, state =>
    let here := evaluate memrefs condition state
    if here.2.verdict.stopProcessing && canShortCircuit then (here.1 :: rest, here.2)
    else
      let later := rcTestCondsetInternal memrefs canShortCircuit rest here.2
      (here.1 :: later.1, later.2)

/-- The state before a set: its processing state is reset, the result state is kept. -/
def EvalState.begun (state : EvalState) : EvalState where
  chain := ⟨0, true, false, false⟩
  verdict := ⟨true, true, false, true, false, state.verdict.hasHits, state.verdict.wasReset,
    state.verdict.wasCondReset⟩
  measure := ⟨state.measure.value.cleared, false⟩
  canShortCurcuit := state.canShortCurcuit

/-- What becomes of the measured value when it may not be used. -/
def EvalState.measured (state : EvalState) : EvalState :=
  if state.measure.value.type ≠ .none ∧
    (¬ state.verdict.canMeasure ∨ state.measure.fromHits ∧ state.verdict.wasReset) then
    { state with measure.value := ⟨.unsigned, 0⟩ }
  else state

/-- Conditions without hits. -/
def cleared (conditions : List Condition) : List Condition :=
  conditions.map (fun condition => { condition with currentHits := 0 })

/-- The step of `rc_test_condset` for the conditions with a hit target. -/
def testHittarget (memrefs : Memrefs) (conditions : List Condition) (state : EvalState) :
    List Condition × EvalState :=
  if state.verdict.wasReset then (conditions, state)
    else rcTestCondsetInternal memrefs false conditions state

/-- The step for the measuring conditions. -/
def testMeasured (memrefs : Memrefs) (conditions : List Condition) (state : EvalState) :
    List Condition × EvalState :=
  if conditions = [] then ([], state)
  else
    let conditions := if state.verdict.wasReset then cleared conditions else conditions
    let (conditions, state) := rcTestCondsetInternal memrefs false conditions state
    (conditions, state.measured)

/-- The step for the other conditions. -/
def testOther (memrefs : Memrefs) (conditions : List Condition) (state : EvalState) :
    List Condition × EvalState :=
  if state.verdict.isTrue then rcTestCondsetInternal memrefs state.canShortCurcuit conditions state
  else if ¬ state.canShortCurcuit ∧ ¬ state.verdict.wasReset then
    rcTestCondsetInternal memrefs state.canShortCurcuit conditions state
  else (conditions, state)

/-- `rc_test_condset`, behind the pausing conditions. -/
def testUnpaused (memrefs : Memrefs) (self : Condset) (state : EvalState) : Condset × EvalState :=
  let (reset, state) := rcTestCondsetInternal memrefs state.canShortCurcuit self.reset state
  let (hittarget, state) := testHittarget memrefs self.hittarget state
  let (measured, state) := testMeasured memrefs self.measured state
  let (other, state) := testOther memrefs self.other state
  ({ self with reset := reset, hittarget := hittarget, measured := measured, other := other },
    state)

/-- `rc_test_condset`: the set, the state, and the verdict. -/
def rcTestCondset (memrefs : Memrefs) (self : Condset) (state : EvalState) :
    Condset × EvalState × Bool :=
  let state := state.begun
  let (pause, state) := rcTestCondsetInternal memrefs true self.pause state
  let isPaused := if self.pause = [] then self.isPaused else state.verdict.isPaused
  let self := { self with pause := pause, isPaused := isPaused }
  if isPaused ∧ self.pause ≠ [] then (self, state, false)
  else
    let (self, state) := testUnpaused memrefs self state
    (self, state, state.verdict.isTrue)

/-- `rc_reset_condset`. -/
def rcResetCondset (self : Condset) : Condset where
  pause := cleared self.pause
  reset := cleared self.reset
  hittarget := cleared self.hittarget
  measured := cleared self.measured
  other := cleared self.other
  indirect := cleared self.indirect
  isPaused := self.isPaused

/-! ## What one condition adds -/

/-- Two verdicts on different conditions. -/
def Verdict.both (first second : Verdict) : Verdict where
  isTrue := first.isTrue && second.isTrue
  isPrimed := first.isPrimed && second.isPrimed
  isPaused := first.isPaused || second.isPaused
  canMeasure := first.canMeasure && second.canMeasure
  stopProcessing := first.stopProcessing || second.stopProcessing
  hasHits := first.hasHits || second.hasHits
  wasReset := first.wasReset || second.wasReset
  wasCondReset := first.wasCondReset || second.wasCondReset

instance : CommMonoid Verdict where
  one := ⟨true, true, false, true, false, false, false, false⟩
  mul := Verdict.both
  mul_assoc first second third := by
    apply Verdict.ext <;> first | exact Bool.and_assoc .. | exact Bool.or_assoc ..
  mul_comm first second := by
    apply Verdict.ext <;> first | exact Bool.and_comm .. | exact Bool.or_comm ..
  one_mul verdict := rfl
  mul_one verdict := by
    apply Verdict.ext <;> first | exact Bool.and_true _ | exact Bool.or_false _

/-- The product of verdicts is the verdict of one evaluation after the other. -/
theorem Verdict.mul_eq (first second : Verdict) : first * second = first.both second := rfl

/-- The verdict of no evaluation. -/
theorem Verdict.one_eq : (1 : Verdict) = ⟨true, true, false, true, false, false, false, false⟩ :=
  rfl

/-- A state in which nothing has been found yet. -/
def neutral (chain : ChainState) : EvalState := ⟨chain, 1, ⟨⟨.none, 0⟩, false⟩, false⟩

/-- An evaluation, in a state in which something has been found already. -/
def Evaluated.under (evaluated : Evaluated) (state : EvalState) : Evaluated :=
  { evaluated with
    state :=
      { state with
        chain := evaluated.state.chain, verdict := state.verdict * evaluated.state.verdict } }

/-- Hits do not depend on what has been found. -/
theorem evaluateHits_under (condition : Condition) (state : EvalState) (condValid : Bool) :
    evaluateHits condition state condValid =
      (evaluateHits condition (neutral state.chain) condValid).under state := by
  unfold evaluateHits
  repeat' split
  all_goals simp [Evaluated.under, neutral, Verdict.mul_eq, Verdict.both, Verdict.one_eq]

/-- An evaluation without added hits depends on the chain only, not on what was found before
it. -/
theorem rcCondsetEvaluateConditionNoAddHits_under (memrefs : Memrefs) (condition : Condition)
    (state : EvalState) :
    rcCondsetEvaluateConditionNoAddHits memrefs condition state =
      (rcCondsetEvaluateConditionNoAddHits memrefs condition
        (neutral state.chain)).under state := by
  unfold rcCondsetEvaluateConditionNoAddHits
  by_cases resetNext : state.chain.resetNext = true
  · simp [resetNext, Evaluated.under, neutral, Verdict.mul_eq, Verdict.both, Verdict.one_eq]
  · simp only [resetNext, neutral, evaluateHits_under _ state, Bool.false_eq_true, if_false]
    rfl

/-- The same of an evaluation with added hits. -/
theorem rcCondsetEvaluateCondition_under (memrefs : Memrefs) (condition : Condition)
    (state : EvalState) :
    rcCondsetEvaluateCondition memrefs condition state =
      (rcCondsetEvaluateCondition memrefs condition (neutral state.chain)).under state := by
  unfold rcCondsetEvaluateCondition
  rw [rcCondsetEvaluateConditionNoAddHits_under memrefs condition state]
  generalize rcCondsetEvaluateConditionNoAddHits memrefs condition (neutral state.chain) = evaluated
  by_cases counts : evaluated.state.chain.addHits ≠ 0 ∧ evaluated.condition.requiredHits ≠ 0
  · simp only [Evaluated.under, counts, if_true, rcCondsetEvaluateTotalHits, ne_eq,
      not_false_eq_true, and_self]
    rfl
  · simp only [Evaluated.under, counts, if_false]

/-- What a condition does when nothing has been found yet: the condition after it, what it
leaves to the next one, what it finds, and what it measures. -/
def alone (memrefs : Memrefs) (condition : Condition) (chain : ChainState) :
    Condition × ChainState × Verdict × Latest Measure :=
  let (after, state) := evaluate memrefs condition (neutral chain)
  (after, state.chain, state.verdict,
    ⟨if condition.type = .measured then some state.measure else none⟩)

/-- A state, and what comes behind it. -/
def EvalState.joined (state : EvalState) (chain : ChainState) (verdict : Verdict)
    (measure : Latest Measure) : EvalState where
  chain := chain
  verdict := state.verdict * verdict
  measure := measure.value.getD state.measure
  canShortCurcuit := state.canShortCurcuit

/-- A condition finds the same whatever has been found before: its verdict is one factor, and what
it measures is the latest measure. Only the chain in front of it, added hits included, goes into
what it finds. One case an evaluator. -/
theorem evaluate_alone (memrefs : Memrefs) (condition : Condition) (state : EvalState)
    (whole : state.canShortCurcuit = false) :
    let here := alone memrefs condition state.chain
    evaluate memrefs condition state = (here.1, state.joined here.2.1 here.2.2.1 here.2.2.2) := by
  obtain ⟨chain, verdict, measure, canShortCurcuit⟩ := state
  cases whole
  have evaluated :=
    rcCondsetEvaluateCondition_under memrefs condition ⟨chain, verdict, measure, false⟩
  have counted :=
    rcCondsetEvaluateConditionNoAddHits_under memrefs condition ⟨chain, verdict, measure, false⟩
  have still : (rcCondsetEvaluateCondition memrefs condition
      (neutral chain)).state.canShortCurcuit = false :=
    congrArg (fun evaluated => evaluated.state.canShortCurcuit)
      (rcCondsetEvaluateCondition_under memrefs condition (neutral chain))
  simp only [alone]
  unfold evaluate
  generalize fullEq :
    rcCondsetEvaluateCondition memrefs condition (neutral chain) = full at evaluated still
  generalize hitsEq :
    rcCondsetEvaluateConditionNoAddHits memrefs condition (neutral chain) = hits at counted
  cases type : condition.type with
  | standard =>
    simp only [rcCondsetEvaluateStandard, evaluated, fullEq, Evaluated.under, EvalState.joined,
      Verdict.mul_eq, Verdict.both, still]
    congr 2
    simp [Bool.and_assoc]
  | pauseIf =>
    simp only [rcCondsetEvaluatePauseIf, evaluated, fullEq, Evaluated.under]
    split
    next => simp [EvalState.joined, Verdict.mul_eq, Verdict.both]
    next => split <;> rfl
  | resetIf =>
    simp only [rcCondsetEvaluateResetIf, evaluated, fullEq, Evaluated.under]
    split
    next => simp [EvalState.joined, Verdict.mul_eq, Verdict.both]
    next => rfl
  | trigger =>
    simp only [rcCondsetEvaluateTrigger, evaluated, fullEq, Evaluated.under, EvalState.joined,
      Verdict.mul_eq, Verdict.both, Bool.and_assoc]
    rfl
  | measured =>
    by_cases tally : condition.requiredHits = 0
    · simp only [rcCondsetEvaluateMeasured, tally, if_true, rcCondsetEvaluateStandard, evaluated,
        fullEq, Evaluated.under,
        EvalState.joined, Verdict.mul_eq, Verdict.both, still, Bool.and_assoc, Bool.or_assoc]
      rfl
    · simp only [rcCondsetEvaluateMeasured, tally, if_false, rcCondsetEvaluateTotalHits, counted,
        hitsEq, Evaluated.under, EvalState.joined, Verdict.mul_eq, Verdict.both, Bool.and_assoc]
      rfl
  | measuredIf =>
    simp only [rcCondsetEvaluateMeasuredIf, evaluated, fullEq, Evaluated.under, EvalState.joined,
      Verdict.mul_eq, Verdict.both, Bool.and_assoc]
    rfl
  | addHits =>
    simp only [rcCondsetEvaluateAddHits, evaluateAddHits, counted, hitsEq]
    rfl
  | subHits =>
    simp only [rcCondsetEvaluateSubHits, evaluateAddHits, counted, hitsEq]
    rfl
  | resetNextIf =>
    simp only [rcCondsetEvaluateResetNextIf, counted, hitsEq]
    rfl
  | andNext =>
    simp only [rcCondsetEvaluateAndNext, counted, hitsEq]
    rfl
  | orNext =>
    simp only [rcCondsetEvaluateOrNext, counted, hitsEq]
    rfl
  | addSource | subSource | addAddress | remember =>
    show (condition, _) = (condition, _)
    rw [neutral, EvalState.joined, mul_one]
    rfl

/-- An evaluation changes nothing of a condition but its hits and its truth. -/
def Kept (before after : Condition) : Prop :=
  after = { before with currentHits := after.currentHits, isTrue := after.isTrue }

/-- What is kept of a condition holds its target of hits. -/
theorem Kept.requiredHits {before after : Condition} (kept : Kept before after) :
    after.requiredHits = before.requiredHits := by
  rw [Kept] at kept
  rw [kept]

/-- Counting a hit changes the hits of a condition and nothing else. -/
theorem evaluateHits_kept (condition : Condition) (state : EvalState) (condValid : Bool) :
    Kept condition (evaluateHits condition state condValid).condition := by
  unfold evaluateHits
  repeat' split
  all_goals rfl

/-- An evaluation without added hits changes hits and the truth of a condition only. -/
theorem rcCondsetEvaluateConditionNoAddHits_kept (memrefs : Memrefs) (condition : Condition)
    (state : EvalState) :
    Kept condition (rcCondsetEvaluateConditionNoAddHits memrefs condition state).condition := by
  unfold rcCondsetEvaluateConditionNoAddHits
  split
  next => rfl
  next => exact evaluateHits_kept { condition with isTrue := _ } state _

/-- The same of an evaluation with added hits. -/
theorem rcCondsetEvaluateCondition_kept (memrefs : Memrefs) (condition : Condition)
    (state : EvalState) :
    Kept condition (rcCondsetEvaluateCondition memrefs condition state).condition := by
  have kept := rcCondsetEvaluateConditionNoAddHits_kept memrefs condition state
  dsimp only [rcCondsetEvaluateCondition]
  split
  next => exact kept
  next => exact kept

/-- Whatever evaluator a condition has, its text is kept: each of the evaluators changes its hits
and its truth through the two counting functions only. -/
theorem evaluate_kept (memrefs : Memrefs) (condition : Condition) (state : EvalState) :
    Kept condition (evaluate memrefs condition state).1 := by
  have full := rcCondsetEvaluateCondition_kept memrefs condition state
  have hits := rcCondsetEvaluateConditionNoAddHits_kept memrefs condition state
  unfold evaluate
  split
  case h_2 =>
    dsimp only [rcCondsetEvaluatePauseIf]
    split
    next => exact full
    next =>
      split
      next =>
        rw [Kept] at full
        rw [full]
        rfl
      next => exact full
  case h_3 =>
    dsimp only [rcCondsetEvaluateResetIf]
    split
    next =>
      rw [Kept] at full
      rw [full]
      rfl
    next => exact full
  case h_5 =>
    unfold rcCondsetEvaluateMeasured
    split
    next => exact full
    next => exact hits
  all_goals first | exact full | exact hits | rfl

/-- So a condition stays in its class. -/
theorem rcClassifyCondition_kept (before after : Condition) (kept : Kept before after) :
    rcClassifyCondition after = rcClassifyCondition before := by
  rw [Kept] at kept
  rw [kept]
  rfl

/-- What a condition is to its chain. -/
def roleOf (condition : Condition) : Role Classification :=
  match rcClassifyCondition condition with
  | .combining => .leading
  | .indirect => .skipped
  | classification => .closing classification

/-- The conditions of a set, as they are processed on a frame. -/
def chains (memrefs : Memrefs) :
    Process Condition ChainState (Verdict × Latest Measure) Classification where
  role := roleOf
  step := alone memrefs
  start := ⟨0, true, false, false⟩
  fallback := .other
  role_step condition chain := by
    have kept := rcClassifyCondition_kept _ _ (evaluate_kept memrefs condition (neutral chain))
    show roleOf (evaluate memrefs condition (neutral chain)).1 = roleOf condition
    rw [roleOf, kept, roleOf]
  skips condition chain skipped := by
    have indirect : rcClassifyCondition condition = .indirect := by
      rw [roleOf] at skipped
      split at skipped <;> first | assumption | cases skipped
    have type : condition.type = .addAddress ∨ condition.type = .addSource ∨
        condition.type = .subSource := by
      unfold rcClassifyCondition at indirect
      split at indirect
      case h_3 | h_4 | h_5 => simp_all
      all_goals first | cases indirect | (split at indirect <;> cases indirect)
    obtain type | type | type := type <;> simp only [alone, evaluate, type] <;> rfl

/-! ## The arrays are the groups -/

/-- The key of the next closing condition is its class. -/
theorem nextKey_eq (memrefs : Memrefs) (conditions : List Condition) :
    (chains memrefs).nextKey conditions = rcFindNextClassification conditions := by
  induction conditions with
  | nil => rfl
  | cons condition rest inductionHypothesis =>
    have role : (chains memrefs).role condition = roleOf condition := rfl
    rw [Process.nextKey, role, rcFindNextClassification, roleOf]
    cases rcClassifyCondition condition <;> first | rfl | exact inductionHypothesis

/-- A chain is put in the array of the condition that closes it. By induction on the conditions: a
combining one is cached under the class of the next closing condition, which is where its chain
ends. -/
theorem placed_group (memrefs : Memrefs) (classification : Classification)
    (plain : classification ≠ .indirect) (conditions : List Condition) (cache : Classification)
    (cached : cache = .combining ∨ cache = rcFindNextClassification conditions) :
    (placed cache conditions).filterMap
      (fun entry => if entry.1 = classification then some entry.2 else none) =
      (chains memrefs).group classification conditions := by
  induction conditions generalizing cache with
  | nil => rfl
  | cons condition rest inductionHypothesis =>
    have role : (chains memrefs).role condition = roleOf condition := rfl
    have next := nextKey_eq memrefs rest
    have closed := inductionHypothesis .combining (Or.inl rfl)
    have opened := inductionHypothesis (rcFindNextClassification rest) (Or.inr rfl)
    rw [placed, Process.group, role, roleOf]
    cases class_ : rcClassifyCondition condition with
    | combining =>
      have ahead : (if cache = .combining then rcFindNextClassification rest else cache) =
          rcFindNextClassification rest := by
        split
        next => rfl
        next cached' =>
          have same := cached.resolve_left cached'
          rw [same, rcFindNextClassification, class_]
      simp only [ahead, if_true, List.filterMap_cons, next, opened]
      split <;> simp_all
    | indirect =>
      simp only [reduceCtorEq, if_false, List.filterMap_cons, Ne.symm plain, closed]
    | pause | reset | hittarget | measured | other =>
      simp only [reduceCtorEq, if_false, List.filterMap_cons, closed]
      split <;> simp_all

/-- `rc_parse_condset` puts the groups in their arrays. -/
theorem arrayOf_group (memrefs : Memrefs) (classification : Classification)
    (plain : classification ≠ .indirect) (conditions : List Condition) :
    arrayOf classification conditions = (chains memrefs).group classification conditions :=
  placed_group memrefs classification plain conditions .combining (Or.inl rfl)

/-! ## Chains that close -/

/-- Added hits are counted towards a target: a chain with added hits is closed by a condition
with a target. -/
def Targeted : Bool → List Condition → Prop
  | _, [] => True
  | added, condition :: rest =>
    match rcClassifyCondition condition with
    | .combining => Targeted (added || condition.type = .addHits || condition.type = .subHits) rest
    | .indirect => Targeted added rest
    | _ => (added → condition.requiredHits ≠ 0) ∧ Targeted false rest

/-- What an evaluation without added hits leaves of the chain: its hits and its pending reset,
with nothing left of what the conditions before have found. -/
theorem rcCondsetEvaluateConditionNoAddHits_chain (memrefs : Memrefs) (condition : Condition)
    (state : EvalState) :
    (rcCondsetEvaluateConditionNoAddHits memrefs condition state).state.chain =
      ⟨state.chain.addHits, true, false, state.chain.resetNext⟩ := by
  have hits : ∀ condition condValid,
      (evaluateHits condition state condValid).state.chain = state.chain := by
    intro condition condValid
    unfold evaluateHits
    repeat' split
    all_goals rfl
  dsimp only [rcCondsetEvaluateConditionNoAddHits]
  split
  next => rfl
  next => rw [hits]

/-- A full evaluation ends the chain, if it takes the added hits; it takes them when the condition
has a target. -/
theorem rcCondsetEvaluateCondition_chain (memrefs : Memrefs) (condition : Condition)
    (state : EvalState) (taken : state.chain.addHits ≠ 0 → condition.requiredHits ≠ 0) :
    (rcCondsetEvaluateCondition memrefs condition state).state.chain = ⟨0, true, false, false⟩ := by
  have left := rcCondsetEvaluateConditionNoAddHits_chain memrefs condition state
  have kept := rcCondsetEvaluateConditionNoAddHits_kept memrefs condition state
  have required := kept.requiredHits
  dsimp only [rcCondsetEvaluateCondition]
  rw [left, required]
  split
  next => dsimp only [rcCondsetEvaluateTotalHits]; rw [left]
  next untaken =>
    have none : state.chain.addHits = 0 := by
      by_contra some
      exact untaken ⟨some, taken some⟩
    rw [left, none]

/-- A condition that closes a chain ends it: no hits, no truth and no reset are left for the next.
Added hits are taken by a target; without one they would be handed on, which is what is
excluded. -/
theorem evaluate_closes (memrefs : Memrefs) (condition : Condition) (state : EvalState)
    (classification : Classification) (closing : roleOf condition = .closing classification)
    (taken : state.chain.addHits ≠ 0 → condition.requiredHits ≠ 0) :
    (evaluate memrefs condition state).2.chain = ⟨0, true, false, false⟩ := by
  have full := rcCondsetEvaluateCondition_chain memrefs condition state taken
  have left := rcCondsetEvaluateConditionNoAddHits_chain memrefs condition state
  cases type : condition.type with
  | standard => simp only [evaluate, type, rcCondsetEvaluateStandard, full]
  | pauseIf =>
    simp only [evaluate, type, rcCondsetEvaluatePauseIf]
    split
    next => exact full
    next => split <;> exact full
  | resetIf =>
    simp only [evaluate, type, rcCondsetEvaluateResetIf]
    split <;> exact full
  | trigger => simp only [evaluate, type, rcCondsetEvaluateTrigger, full]
  | measured =>
    simp only [evaluate, type]
    unfold rcCondsetEvaluateMeasured
    split
    next => simp only [rcCondsetEvaluateStandard, full]
    next => simp only [rcCondsetEvaluateTotalHits, left]
  | measuredIf => simp only [evaluate, type, rcCondsetEvaluateMeasuredIf, full]
  | _ => simp [roleOf, rcClassifyCondition, type] at closing

/-- What a leading condition adds to the hits: nothing, as all but two kinds of leading conditions
look at the chain's truth only. -/
theorem evaluate_leading (memrefs : Memrefs) (condition : Condition) (state : EvalState)
    (leading : rcClassifyCondition condition = .combining)
    (plain : ¬ (condition.type = .addHits ∨ condition.type = .subHits)) :
    (evaluate memrefs condition state).2.chain.addHits = state.chain.addHits := by
  have left := rcCondsetEvaluateConditionNoAddHits_chain memrefs condition state
  cases type : condition.type with
  | addHits | subHits => simp [type] at plain
  | remember => simp only [evaluate, type]
  | resetNextIf => simp only [evaluate, type, rcCondsetEvaluateResetNextIf, left]
  | andNext => simp only [evaluate, type, rcCondsetEvaluateAndNext, left]
  | orNext => simp only [evaluate, type, rcCondsetEvaluateOrNext, left]
  | standard | trigger =>
    simp only [rcClassifyCondition, type] at leading
    split at leading <;> cases leading
  | _ => simp [rcClassifyCondition, type] at leading

/-- Targeted chains close. The induction carries whether hits have been added in the chain so far,
as they may only be there when some condition behind them has a target. -/
theorem targeted_closes (memrefs : Memrefs) (conditions : List Condition) (added : Bool)
    (chain : ChainState)
    (targeted : Targeted added conditions) (none : added = false → chain.addHits = 0) :
    (chains memrefs).Closes conditions chain := by
  induction conditions generalizing added chain with
  | nil => trivial
  | cons condition rest inductionHypothesis =>
    have role : (chains memrefs).role condition = roleOf condition := rfl
    have left : ((chains memrefs).step condition chain).2.1 =
        (evaluate memrefs condition (neutral chain)).2.chain := rfl
    have closing : ∀ classification, roleOf condition = .closing classification →
        (added → condition.requiredHits ≠ 0) →
        ((chains memrefs).step condition chain).2.1 = (chains memrefs).start := by
      intro classification closes taken
      refine evaluate_closes memrefs condition (neutral chain) classification closes
        (fun some => taken ?_)
      by_contra not
      exact some (none (Bool.eq_false_iff.mpr not))
    rw [Targeted] at targeted
    rw [Process.Closes, role]
    cases class_ : rcClassifyCondition condition with
    | combining =>
      simp only [class_] at targeted
      refine ⟨fun key closes => ?_, inductionHypothesis _ _ targeted (fun still => ?_)⟩
      · simp [roleOf, class_] at closes
      · simp only [Bool.or_eq_false_iff, decide_eq_false_iff_not] at still
        rw [left, evaluate_leading memrefs condition (neutral chain) class_
          (by simpa using ⟨still.1.2, still.2⟩)]
        exact none still.1.1
    | indirect =>
      simp only [class_] at targeted
      have skipped : (chains memrefs).role condition = .skipped := by rw [role, roleOf, class_]
      have same := (chains memrefs).skips condition chain skipped
      refine ⟨fun key closes => ?_, ?_⟩
      · simp [roleOf, class_] at closes
      · rw [same]
        exact inductionHypothesis added chain targeted none
    | pause | reset | hittarget | measured | other =>
      simp only [class_] at targeted
      have here := closing _ (by rw [roleOf, class_]) targeted.1
      refine ⟨fun _ _ => here, inductionHypothesis false _ targeted.2 (fun _ => ?_)⟩
      rw [here]
      rfl

/-! ## Groups on a frame -/

/-- What `rc_test_condset_internal` does with some conditions, when it does not stop: it runs
them, and joins what each of them finds to what has been found before. -/
theorem rcTestCondsetInternal_run (memrefs : Memrefs) (conditions : List Condition)
    (state : EvalState) (whole : state.canShortCurcuit = false) :
    let run := (chains memrefs).run conditions state.chain
    rcTestCondsetInternal memrefs false conditions state =
        (run.1, state.joined run.2.1 run.2.2.1 run.2.2.2) := by
  induction conditions generalizing state with
  | nil =>
    show (([] : List Condition), state) = ([], state.joined state.chain 1 1)
    rw [EvalState.joined, mul_one]
    rfl
  | cons condition rest inductionHypothesis =>
    have here := evaluate_alone memrefs condition state whole
    simp only at here
    have later := inductionHypothesis (state.joined (alone memrefs condition state.chain).2.1
      (alone memrefs condition state.chain).2.2.1 (alone memrefs condition state.chain).2.2.2) whole
    simp only [rcTestCondsetInternal, Bool.and_false, Bool.false_eq_true, if_false, here, later]
    refine congrArg₂ Prod.mk rfl ?_
    simp only [EvalState.joined, Process.run, chains, Prod.snd_mul, Prod.fst_mul, mul_assoc,
      latest_mul]

/-- A verdict in which nothing but the hits is new. -/
def Tallied (before after : Verdict) : Prop :=
  after = { before with hasHits := after.hasHits, wasCondReset := after.wasCondReset }

/-- Counting a hit tells at most that there are hits. -/
theorem evaluateHits_tallied (condition : Condition) (state : EvalState) (condValid : Bool) :
    Tallied state.verdict (evaluateHits condition state condValid).state.verdict := by
  unfold evaluateHits
  repeat' split
  all_goals rfl

/-- An evaluation without added hits tells of hits and of a reset condition only. -/
theorem rcCondsetEvaluateConditionNoAddHits_tallied (memrefs : Memrefs) (condition : Condition)
    (state : EvalState) :
    Tallied state.verdict
      (rcCondsetEvaluateConditionNoAddHits memrefs condition state).state.verdict := by
  dsimp only [rcCondsetEvaluateConditionNoAddHits]
  split
  next => rfl
  next => exact evaluateHits_tallied _ state _

/-- The same of an evaluation with added hits. -/
theorem rcCondsetEvaluateCondition_tallied (memrefs : Memrefs) (condition : Condition)
    (state : EvalState) :
    Tallied state.verdict (rcCondsetEvaluateCondition memrefs condition state).state.verdict := by
  have tallied := rcCondsetEvaluateConditionNoAddHits_tallied memrefs condition state
  dsimp only [rcCondsetEvaluateCondition]
  split
  next => exact tallied
  next => exact tallied

/-- A set is left early for a pause or a reset only, and only the measuring conditions say
whether it can be measured. -/
theorem alone_verdict (memrefs : Memrefs) (condition : Condition) (chain : ChainState) :
    let verdict := (alone memrefs condition chain).2.2.1
    verdict.stopProcessing = (verdict.isPaused || verdict.wasReset) ∧
      (rcClassifyCondition condition ≠ .measured → verdict.canMeasure = true) := by
  have full := rcCondsetEvaluateCondition_tallied memrefs condition (neutral chain)
  have hits := rcCondsetEvaluateConditionNoAddHits_tallied memrefs condition (neutral chain)
  have still : (rcCondsetEvaluateCondition memrefs condition
      (neutral chain)).state.canShortCurcuit = false :=
    congrArg (fun evaluated => evaluated.state.canShortCurcuit)
      (rcCondsetEvaluateCondition_under memrefs condition (neutral chain))
  rw [Tallied] at full hits
  dsimp only [alone, evaluate]
  cases type : condition.type with
  | standard =>
    simp only [rcCondsetEvaluateStandard, still, Bool.and_false, Bool.or_false]
    rw [full]
    exact ⟨rfl, fun _ => rfl⟩
  | pauseIf =>
    simp only [rcCondsetEvaluatePauseIf]
    split
    next => rw [full]; exact ⟨rfl, fun _ => rfl⟩
    next => split <;> (rw [full]; exact ⟨rfl, fun _ => rfl⟩)
  | resetIf =>
    simp only [rcCondsetEvaluateResetIf]
    split <;> (rw [full]; exact ⟨rfl, fun _ => rfl⟩)
  | trigger =>
    simp only [rcCondsetEvaluateTrigger]
    rw [full]
    exact ⟨rfl, fun _ => rfl⟩
  | measured =>
    refine ⟨?_, fun other => absurd (by rw [rcClassifyCondition, type]) other⟩
    simp only [rcCondsetEvaluateMeasured]
    split
    next =>
      simp only [rcCondsetEvaluateStandard, still, Bool.and_false, Bool.or_false]
      rw [full]
      rfl
    next =>
      simp only [rcCondsetEvaluateTotalHits]
      rw [hits]
      rfl
  | measuredIf =>
    refine ⟨?_, fun other => absurd (by rw [rcClassifyCondition, type]) other⟩
    simp only [rcCondsetEvaluateMeasuredIf]
    rw [full]
    rfl
  | addHits =>
    simp only [rcCondsetEvaluateAddHits, evaluateAddHits]
    rw [hits]
    exact ⟨rfl, fun _ => rfl⟩
  | subHits =>
    simp only [rcCondsetEvaluateSubHits, evaluateAddHits]
    rw [hits]
    exact ⟨rfl, fun _ => rfl⟩
  | resetNextIf =>
    simp only [rcCondsetEvaluateResetNextIf]
    rw [hits]
    exact ⟨rfl, fun _ => rfl⟩
  | andNext =>
    simp only [rcCondsetEvaluateAndNext]
    rw [hits]
    exact ⟨rfl, fun _ => rfl⟩
  | orNext =>
    simp only [rcCondsetEvaluateOrNext]
    rw [hits]
    exact ⟨rfl, fun _ => rfl⟩
  | addSource | subSource | addAddress | remember => exact ⟨rfl, fun _ => rfl⟩

/-- A run of conditions stops exactly when it pauses or resets: no other evaluator asks to stop
while conditions are not cut short. -/
theorem run_stops (memrefs : Memrefs) (conditions : List Condition) (chain : ChainState) :
    let verdict := ((chains memrefs).run conditions chain).2.2.1
    verdict.stopProcessing = (verdict.isPaused || verdict.wasReset) := by
  induction conditions generalizing chain with
  | nil => rfl
  | cons condition rest inductionHypothesis =>
    have here := (alone_verdict memrefs condition chain).1
    have later := inductionHypothesis (alone memrefs condition chain).2.1
    simp only [Process.run, Prod.fst_mul, Verdict.mul_eq, Verdict.both]
    simp only [chains] at here later ⊢
    rw [here, later]
    ac_rfl

/-- A group that is not left early is evaluated as a whole: being allowed to leave makes no
difference when no condition asks for it. -/
theorem rcTestCondsetInternal_whole (memrefs : Memrefs) (conditions : List Condition)
    (state : EvalState) (whole : state.canShortCurcuit = false)
    (quiet : (rcTestCondsetInternal memrefs false conditions state).2.verdict.stopProcessing =
      false) :
    rcTestCondsetInternal memrefs true conditions state =
      rcTestCondsetInternal memrefs false conditions state := by
  induction conditions generalizing state with
  | nil => rfl
  | cons condition rest inductionHypothesis =>
    have here := evaluate_alone memrefs condition state whole
    have still : (evaluate memrefs condition state).2.canShortCurcuit = false := by
      rw [here]
      exact whole
    simp only [rcTestCondsetInternal, Bool.and_false, Bool.and_true, Bool.false_eq_true,
      if_false] at quiet ⊢
    have later := rcTestCondsetInternal_run memrefs rest _ still
    have silent : (evaluate memrefs condition state).2.verdict.stopProcessing = false := by
      rw [later] at quiet
      exact (Bool.or_eq_false_iff.mp quiet).1
    rw [silent, inductionHypothesis _ still quiet]
    rfl

/-- What a verdict says about measuring. -/
def measurable : Verdict →* Verdict where
  toFun verdict := { (1 : Verdict) with canMeasure := verdict.canMeasure }
  map_one' := rfl
  map_mul' _ _ := rfl

/-- The plain evaluation of a set: its conditions in the order of the text. -/
def orderedTest (memrefs : Memrefs) (conditions : List Condition) (state : EvalState) :
    List Condition × EvalState :=
  let (conditions, state) := rcTestCondsetInternal memrefs false conditions state.begun
  (conditions, state.measured)

/-- The run of one group, from the start of a chain. -/
def groupRun (memrefs : Memrefs) (conditions : List Condition) (classification : Classification) :
    List Condition × ChainState × Verdict × Latest Measure :=
  (chains memrefs).run (arrayOf classification conditions) (chains memrefs).start

/-- The groups, and the text. -/
structure Regrouped (memrefs : Memrefs) (conditions : List Condition) : Prop where
  items : ∀ classification ≠ .indirect,
    (groupRun memrefs conditions classification).1 =
      arrayOf classification ((chains memrefs).run conditions (chains memrefs).start).1
  ends : ∀ classification ≠ .indirect, classification ≠ .other →
    (groupRun memrefs conditions classification).2.1 = (chains memrefs).start
  verdict : ((chains memrefs).run conditions (chains memrefs).start).2.2.1 =
    (groupRun memrefs conditions .pause).2.2.1 * (groupRun memrefs conditions .reset).2.2.1 *
      (groupRun memrefs conditions .hittarget).2.2.1 *
        (groupRun memrefs conditions .measured).2.2.1 *
      (groupRun memrefs conditions .other).2.2.1
  measure : ((chains memrefs).run conditions (chains memrefs).start).2.2.2 =
    (groupRun memrefs conditions .measured).2.2.2
  silent : ∀ classification ≠ .indirect, classification ≠ .measured →
    (groupRun memrefs conditions classification).2.2.2 = 1 ∧
      (groupRun memrefs conditions classification).2.2.1.canMeasure = true

/-- A condition that is not of the measuring class measures nothing, and says nothing of whether
the set can measure. -/
theorem alone_silent (memrefs : Memrefs) (condition : Condition) (chain : ChainState)
    (plain : roleOf condition ≠ .closing .measured) :
    (alone memrefs condition chain).2.2.2 = 1 ∧
    measurable (alone memrefs condition chain).2.2.1 = 1 := by
  have other : rcClassifyCondition condition ≠ .measured := fun same => plain (by rw [roleOf, same])
  have unmeasured : condition.type ≠ .measured :=
    fun same => other (by rw [rcClassifyCondition, same])
  constructor
  · simp only [alone, unmeasured, if_false]
    rfl
  · show ({ (1 : Verdict) with canMeasure := (alone memrefs condition chain).2.2.1.canMeasure } :
      Verdict) = 1
    rw [(alone_verdict memrefs condition chain).2 other]
    rfl

/-- No chain is closed by a combining or an indirect condition. -/
theorem roleOf_plain (condition : Condition) :
    roleOf condition ≠ .closing .combining ∧ roleOf condition ≠ .closing .indirect := by
  unfold roleOf
  split
  next => exact ⟨nofun, nofun⟩
  next => exact ⟨nofun, nofun⟩
  next classification combining indirect =>
    exact ⟨fun same => combining (Role.closing.inj same),
      fun same => indirect (Role.closing.inj same)⟩

/-- Where added hits feed a target, groups may be evaluated one after the other: no group hands
hits or a chain to another. -/
theorem regrouped (memrefs : Memrefs) (conditions : List Condition)
    (targeted : Targeted false conditions) :
    Regrouped memrefs conditions := by
  have closes :=
    targeted_closes memrefs conditions false (chains memrefs).start targeted (fun _ => rfl)
  have group : ∀ classification ≠ .indirect, groupRun memrefs conditions classification =
      (chains memrefs).run ((chains memrefs).group classification conditions)
        ((chains memrefs).startOf classification conditions (chains memrefs).start) := by
    intro classification plain
    rw [groupRun, arrayOf_group memrefs classification plain, Process.startOf, ite_self]
  have quiet : ∀ condition ∈ conditions, ∀ chain,
      (chains memrefs).role condition ≠ .closing .measured →
      (MonoidHom.snd Verdict (Latest Measure)) ((chains memrefs).step condition chain).2.2 = 1 ∧
        (measurable.comp (MonoidHom.fst Verdict (Latest Measure)))
          ((chains memrefs).step condition chain).2.2 = 1 :=
    fun condition _ chain plain => alone_silent memrefs condition chain plain
  constructor
  · intro classification plain
    rw [group classification plain, run_group_items _ _ _ _ closes,
      arrayOf_group memrefs classification plain]
  · intro classification plain other
    rw [group classification plain]
    exact run_group_end _ _ _ _ closes (Ne.symm other)
  · have product := run_group_product (chains memrefs)
      (MonoidHom.fst Verdict (Latest Measure)) conditions _ closes
    have all : (Finset.univ : Finset Classification) =
        {.combining, .pause, .reset, .hittarget, .measured, .other, .indirect} := rfl
    have combining := group_empty (chains memrefs) .combining conditions
      (show Classification.other ≠ .combining by decide) (fun item => (roleOf_plain item).1)
    have indirect := group_empty (chains memrefs) .indirect conditions
      (show Classification.other ≠ .indirect by decide) (fun item => (roleOf_plain item).2)
    rw [all] at product
    simp only [Finset.mem_insert, Finset.mem_singleton, reduceCtorEq, or_self, not_false_eq_true,
      Finset.prod_insert,
      Finset.prod_singleton, combining, indirect, Process.run, map_one, one_mul, mul_one] at product
    simp only [group, ne_eq, reduceCtorEq, not_false_eq_true, mul_assoc]
    exact product
  · have single := run_group_single (chains memrefs)
      (MonoidHom.snd Verdict (Latest Measure)) .measured conditions _ closes
      (fun condition member chain plain => (quiet condition member chain plain).1)
    rw [group .measured (by decide)]
    exact single
  · intro classification plain other
    rw [group classification plain]
    constructor
    · exact run_group_silent (chains memrefs)
        (MonoidHom.snd Verdict (Latest Measure)) .measured classification other
        conditions _ closes (fun condition member chain plain =>
          (quiet condition member chain plain).1)
    · have silent := run_group_silent (chains memrefs)
        (measurable.comp (MonoidHom.fst Verdict (Latest Measure))) .measured
        classification other conditions _ closes
          (fun condition member chain plain => (quiet condition member chain plain).2)
      exact congrArg Verdict.canMeasure silent

/-- Withholding a measured value changes nothing else. -/
theorem measured_verdict (state : EvalState) :
    state.measured.verdict = state.verdict ∧ state.measured.chain = state.chain ∧
      state.measured.canShortCurcuit = state.canShortCurcuit := by
  unfold EvalState.measured
  split <;> exact ⟨rfl, rfl, rfl⟩

/-- A state between two chains, in which nothing has reset. -/
structure Quiet (memrefs : Memrefs) (state : EvalState) : Prop where
  whole : state.canShortCurcuit = false
  between : state.chain = (chains memrefs).start
  unreset : state.verdict.wasReset = false

/-- The state behind a group. -/
def EvalState.behind (state : EvalState)
    (run : List Condition × ChainState × Verdict × Latest Measure) : EvalState :=
  state.joined run.2.1 run.2.2.1 run.2.2.2

/-- The verdict behind a run is the product of the one before it and its own. -/
theorem behind_verdict (state : EvalState)
    (run : List Condition × ChainState × Verdict × Latest Measure) :
    (state.behind run).verdict = state.verdict * run.2.2.1 := rfl

/-- It is quiet still. -/
theorem behind_quiet (memrefs : Memrefs) (conditions : List Condition)
    (facts : Regrouped memrefs conditions) (classification : Classification)
    (plain : classification ≠ .indirect) (inner : classification ≠ .other) (state : EvalState)
    (quiet : Quiet memrefs state)
    (unreset : (groupRun memrefs conditions classification).2.2.1.wasReset = false) :
    Quiet memrefs (state.behind (groupRun memrefs conditions classification)) where
  whole := quiet.whole
  between := facts.ends classification plain inner
  unreset := Bool.or_eq_false_iff.mpr ⟨quiet.unreset, unreset⟩

/-- One group, in a quiet state. -/
theorem group_state (memrefs : Memrefs) (conditions : List Condition)
    (classification : Classification) (state : EvalState) (quiet : Quiet memrefs state) :
    rcTestCondsetInternal memrefs false (arrayOf classification conditions) state =
      ((groupRun memrefs conditions classification).1,
        state.behind (groupRun memrefs conditions classification)) := by
  have internal :=
    rcTestCondsetInternal_run memrefs (arrayOf classification conditions) state quiet.whole
  rw [quiet.between] at internal
  exact internal

/-- The pausing group, when nothing in it pauses or resets: it may be left early, but is not, so
it is evaluated as a whole. -/
theorem pause_state (memrefs : Memrefs) (conditions : List Condition) (state : EvalState)
    (quiet : Quiet memrefs state) (running : state.verdict.stopProcessing = false)
    (unpaused : (groupRun memrefs conditions .pause).2.2.1.isPaused = false)
    (unreset : (groupRun memrefs conditions .pause).2.2.1.wasReset = false) :
    rcTestCondsetInternal memrefs true (arrayOf .pause conditions) state =
      ((groupRun memrefs conditions .pause).1,
        state.behind (groupRun memrefs conditions .pause)) := by
  have internal := group_state memrefs conditions .pause state quiet
  have stops := run_stops memrefs (arrayOf .pause conditions) (chains memrefs).start
  rw [← internal]
  refine rcTestCondsetInternal_whole memrefs _ state quiet.whole ?_
  rw [internal]
  refine Bool.or_eq_false_iff.mpr ⟨running, ?_⟩
  exact stops.trans (Bool.or_eq_false_iff.mpr ⟨unpaused, unreset⟩)

/-- The conditions with a hit target. -/
theorem testHittarget_state (memrefs : Memrefs) (conditions : List Condition) (state : EvalState)
    (quiet : Quiet memrefs state) :
    testHittarget memrefs (arrayOf .hittarget conditions) state =
      ((groupRun memrefs conditions .hittarget).1,
        state.behind (groupRun memrefs conditions .hittarget)) := by
  rw [testHittarget, quiet.unreset, group_state memrefs conditions .hittarget state quiet]
  rfl

/-- The measuring ones: without them the state is left, and otherwise the group is evaluated and
what it has measured is stored. -/
theorem testMeasured_state (memrefs : Memrefs) (conditions : List Condition) (state : EvalState)
    (quiet : Quiet memrefs state) (unmeasured : state.measure.value.type = .none) :
    testMeasured memrefs (arrayOf .measured conditions) state =
      ((groupRun memrefs conditions .measured).1,
        (state.behind (groupRun memrefs conditions .measured)).measured) := by
  have internal := group_state memrefs conditions .measured state quiet
  unfold testMeasured
  split
  next empty =>
    rw [empty] at internal
    have same := congrArg Prod.snd internal
    have items := congrArg Prod.fst internal
    simp only [rcTestCondsetInternal] at same items
    rw [← same, ← items, EvalState.measured, if_neg (fun measured => measured.1 unmeasured)]
  next =>
    rw [quiet.unreset]
    simp only [Bool.false_eq_true, if_false, internal]

/-- The other ones. -/
theorem testOther_state (memrefs : Memrefs) (conditions : List Condition) (state : EvalState)
    (quiet : Quiet memrefs state) :
    testOther memrefs (arrayOf .other conditions) state =
      ((groupRun memrefs conditions .other).1,
        state.behind (groupRun memrefs conditions .other)) := by
  rw [testOther, quiet.whole, quiet.unreset, group_state memrefs conditions .other state quiet]
  simp only [Bool.false_eq_true, not_false_eq_true, and_self, if_true, ite_self]

/-- No condition is looked for under the class of indirect ones. -/
theorem rcFindNextClassification_plain (conditions : List Condition) :
    rcFindNextClassification conditions ≠ .indirect := by
  induction conditions with
  | nil => exact nofun
  | cons condition rest inductionHypothesis =>
    rw [rcFindNextClassification]
    split
    next => exact inductionHypothesis
    next => exact inductionHypothesis
    next indirect => exact indirect

/-- The indirect conditions are those of the class. They are classified by themselves, so a cached
class does not reach them. -/
theorem placed_indirect (conditions : List Condition) (cache : Classification)
    (cached : cache ≠ .indirect) :
    (placed cache conditions).filterMap
      (fun entry => if entry.1 = .indirect then some entry.2 else none) =
      conditions.filter (fun condition => rcClassifyCondition condition = .indirect) := by
  induction conditions generalizing cache with
  | nil => rfl
  | cons condition rest inductionHypothesis =>
    rw [placed]
    have ahead :
        (if cache = .combining then rcFindNextClassification rest else cache) ≠ .indirect := by
      split
      next => exact rcFindNextClassification_plain rest
      next => exact cached
    by_cases combines : rcClassifyCondition condition = .combining
    · have different : rcClassifyCondition condition ≠ .indirect := by
        rw [combines]
        exact nofun
      simp only [combines, if_true, List.filterMap_cons, ahead, if_false,
        inductionHypothesis _ ahead, reduceCtorEq,
        not_false_eq_true, decide_false, Bool.false_eq_true, List.filter_cons_of_neg]
    · have later := inductionHypothesis .combining nofun
      by_cases indirect : rcClassifyCondition condition = .indirect <;>
        simp [combines, indirect, later]

/-- They are left as they are: a run keeps the classes of conditions, and passes over the indirect
ones. -/
theorem run_indirect (memrefs : Memrefs) (conditions : List Condition) (chain : ChainState) :
    arrayOf .indirect ((chains memrefs).run conditions chain).1 = arrayOf .indirect conditions := by
  rw [arrayOf, arrayOf, placed_indirect _ .combining nofun, placed_indirect _ .combining nofun]
  induction conditions generalizing chain with
  | nil => rfl
  | cons condition rest inductionHypothesis =>
    have later := inductionHypothesis ((chains memrefs).step condition chain).2.1
    have role := (chains memrefs).role_step condition chain
    have class_ : rcClassifyCondition ((chains memrefs).step condition chain).1 =
        rcClassifyCondition condition :=
      rcClassifyCondition_kept _ _ (evaluate_kept memrefs condition (neutral chain))
    rw [Process.run, List.filter_cons, List.filter_cons, class_, later]
    by_cases indirect : rcClassifyCondition condition = .indirect
    · have skipped : (chains memrefs).role condition = .skipped := by
        show roleOf condition = .skipped
        rw [roleOf, indirect]
      rw [(chains memrefs).skips condition chain skipped]
    · simp only [indirect, decide_false, Bool.false_eq_true, if_false]

/-- A group that measures nothing leaves the measured value. -/
theorem behind_measure (state : EvalState)
    (run : List Condition × ChainState × Verdict × Latest Measure) (silent : run.2.2.2 = 1) :
    (state.behind run).measure = state.measure := by
  rw [EvalState.behind, EvalState.joined, silent]
  rfl

/-- What becomes of a measured value depends on little else. -/
theorem measured_measure (first second : EvalState) (measure : first.measure = second.measure)
    (canMeasure : first.verdict.canMeasure = second.verdict.canMeasure)
    (wasReset : first.verdict.wasReset = second.verdict.wasReset) :
    first.measured.measure = second.measured.measure := by
  unfold EvalState.measured
  rw [measure, canMeasure, wasReset]
  split
  next => rfl
  next => exact measure

/-- The state behind the resetting, the counting and the measuring conditions. -/
def EvalState.behindCounts (memrefs : Memrefs) (conditions : List Condition) (state : EvalState) :
    EvalState :=
  ((state.behind (groupRun memrefs conditions .reset)).behind
    (groupRun memrefs conditions .hittarget)).behind
    (groupRun memrefs conditions .measured)

/-- The groups behind the pausing one, when none of them resets: each is evaluated from the
verdict of those before it, and the verdict and measure behind all of them are the products. -/
theorem testUnpaused_quiet (memrefs : Memrefs) (conditions : List Condition)
    (facts : Regrouped memrefs conditions)
    (self : Condset) (arrays : self.reset = arrayOf .reset conditions ∧
      self.hittarget = arrayOf .hittarget conditions ∧
      self.measured = arrayOf .measured conditions ∧ self.other = arrayOf .other conditions)
    (state : EvalState) (quiet : Quiet memrefs state)
    (unmeasured : state.measure.value.type = .none)
    (unreset : ∀ classification ∈ [Classification.reset, .hittarget, .measured],
      (groupRun memrefs conditions classification).2.2.1.wasReset = false) :
    testUnpaused memrefs self state =
      ({ self with
          reset := (groupRun memrefs conditions .reset).1
          hittarget := (groupRun memrefs conditions .hittarget).1
          measured := (groupRun memrefs conditions .measured).1
          other := (groupRun memrefs conditions .other).1 },
        (state.behindCounts memrefs conditions).measured.behind
          (groupRun memrefs conditions .other)) := by
  obtain ⟨resetArray, hittargetArray, measuredArray, otherArray⟩ := arrays
  have reset := group_state memrefs conditions .reset state quiet
  have quiet1 :=
    behind_quiet memrefs conditions facts .reset nofun nofun _ quiet (unreset .reset (by simp))
  have hittarget := testHittarget_state memrefs conditions _ quiet1
  have quiet2 := behind_quiet memrefs conditions facts .hittarget nofun nofun _ quiet1
    (unreset .hittarget (by simp))
  have silence1 := behind_measure state _ (facts.silent .reset nofun nofun).1
  have silence2 := behind_measure (state.behind (groupRun memrefs conditions .reset)) _
    (facts.silent .hittarget nofun nofun).1
  have measured :=
    testMeasured_state memrefs conditions _ quiet2 (by rw [silence2, silence1]; exact unmeasured)
  have quiet3 := behind_quiet memrefs conditions facts .measured nofun nofun _ quiet2
    (unreset .measured (by simp))
  obtain ⟨verdict, chain, whole⟩ := measured_verdict (state.behindCounts memrefs conditions)
  have quiet4 : Quiet memrefs (state.behindCounts memrefs conditions).measured :=
    ⟨whole.trans quiet3.whole, chain.trans quiet3.between,
      (congrArg Verdict.wasReset verdict).trans quiet3.unreset⟩
  have other := testOther_state memrefs conditions _ quiet4
  simp only [testUnpaused, resetArray, hittargetArray, measuredArray, otherArray, quiet.whole,
    reset, hittarget, measured]
  rw [EvalState.behindCounts] at other ⊢
  rw [other]

/-- A frame that neither pauses nor resets: every condition is left as in the order of the
text, and so are the verdict and the measured value. -/
theorem rcTestCondset_quiet (memrefs : Memrefs) (conditions : List Condition)
    (targeted : Targeted false conditions)
    (state : EvalState) (whole : state.canShortCurcuit = false)
    (unpaused : (orderedTest memrefs conditions state).2.verdict.isPaused = false)
    (unreset : (orderedTest memrefs conditions state).2.verdict.wasReset = false) :
    let grouped := rcTestCondset memrefs (rcParseCondset conditions) state
    let ordered := orderedTest memrefs conditions state
    grouped.1 = rcParseCondset ordered.1 ∧ grouped.2.1.verdict = ordered.2.verdict ∧
      grouped.2.1.measure = ordered.2.measure ∧ grouped.2.2 = ordered.2.verdict.isTrue := by
  have facts := regrouped memrefs conditions targeted
  have text : orderedTest memrefs conditions state =
    (((chains memrefs).run conditions (chains memrefs).start).1,
      (state.begun.behind ((chains memrefs).run conditions (chains memrefs).start)).measured) := by
    rw [orderedTest, rcTestCondsetInternal_run memrefs conditions state.begun whole]
    rfl
  rw [text, (measured_verdict _).1] at unpaused unreset
  obtain ⟨fresh, unreset'⟩ := Bool.or_eq_false_iff.mp unreset
  have unpaused' :
      ((chains memrefs).run conditions (chains memrefs).start).2.2.1.isPaused = false := unpaused
  rw [facts.verdict] at unpaused' unreset'
  simp only [Verdict.mul_eq, Verdict.both, Bool.or_eq_false_iff] at unpaused' unreset'
  obtain ⟨⟨⟨⟨pausePaused, _⟩, _⟩, _⟩, _⟩ := unpaused'
  obtain ⟨⟨⟨⟨pauseReset, resetReset⟩, hittargetReset⟩, measuredReset⟩, otherReset⟩ := unreset'
  have quiet : Quiet memrefs state.begun := ⟨whole, rfl, fresh⟩
  have pause := pause_state memrefs conditions state.begun quiet rfl pausePaused pauseReset
  have behind := behind_quiet memrefs conditions facts .pause nofun nofun _ quiet pauseReset
  have silence := behind_measure state.begun _ (facts.silent .pause nofun nofun).1
  have rest := fun self arrays =>
    testUnpaused_quiet memrefs conditions facts self arrays _ behind (by rw [silence]; rfl)
    (by simp [resetReset, hittargetReset, measuredReset])
  have running : (if arrayOf .pause conditions = [] then false
      else (state.begun.behind (groupRun memrefs conditions .pause)).verdict.isPaused) = false := by
    split
    next => rfl
    next => exact Bool.or_eq_false_iff.mpr ⟨rfl, pausePaused⟩
  have grouped : rcTestCondset memrefs (rcParseCondset conditions) state =
      (rcParseCondset ((chains memrefs).run conditions (chains memrefs).start).1,
        ((state.begun.behind
          (groupRun memrefs conditions .pause)).behindCounts memrefs conditions).measured.behind
          (groupRun memrefs conditions .other),
        (((state.begun.behind
          (groupRun memrefs conditions .pause)).behindCounts memrefs conditions).measured.behind
          (groupRun memrefs conditions .other)).verdict.isTrue) := by
    simp only [rcTestCondset, rcParseCondset, pause, running, Bool.false_eq_true, false_and,
      if_false]
    rw [rest _ ⟨rfl, rfl, rfl, rfl⟩, facts.items .pause nofun, facts.items .reset nofun,
      facts.items .hittarget nofun,
      facts.items .measured nofun, facts.items .other nofun, run_indirect]
  have total := facts.verdict
  have measure := facts.measure
  generalize (chains memrefs).run conditions (chains memrefs).start = whole' at *
  have verdict :
    (((state.begun.behind
      (groupRun memrefs conditions .pause)).behindCounts memrefs conditions).measured.behind
      (groupRun memrefs conditions .other)).verdict = (state.begun.behind whole').verdict := by
    simp only [EvalState.behind, EvalState.joined, (measured_verdict _).1, EvalState.behindCounts,
      total, mul_assoc]
  have kept :=
    behind_measure ((state.begun.behind
      (groupRun memrefs conditions .pause)).behindCounts memrefs conditions).measured
    _ (facts.silent .other nofun nofun).1
  rw [text, grouped]
  refine ⟨rfl, ?_, ?_, ?_⟩
  · rw [verdict, (measured_verdict _).1]
  · rw [kept]
    refine measured_measure _ _ ?_ ?_ ?_
    · simp only [EvalState.behindCounts, EvalState.behind, EvalState.joined, measure,
        (facts.silent .pause nofun nofun).1,
        (facts.silent .reset nofun nofun).1, (facts.silent .hittarget nofun nofun).1]
      rfl
    · rw [← verdict, behind_verdict, Verdict.mul_eq, Verdict.both,
        (facts.silent .other nofun nofun).2, (measured_verdict _).1, Bool.and_true]
    · rw [← verdict, behind_verdict, Verdict.mul_eq, Verdict.both, otherReset,
        (measured_verdict _).1, Bool.or_false]
  · rw [verdict, (measured_verdict _).1]

/-! ## Hits -/

/-- What an evaluation does to the hits of a condition: nothing, or it clears them, or it adds
one below the target. -/
def Counts (before after : Condition) : Prop :=
  after.currentHits = before.currentHits ∨ after.currentHits = 0 ∨
    after.currentHits = before.currentHits + 1 ∧
    (before.requiredHits = 0 ∨ before.currentHits < before.requiredHits)

/-- Counting a hit counts at most one. -/
theorem evaluateHits_counts (condition : Condition) (state : EvalState) (condValid : Bool) :
    Counts condition (evaluateHits condition state condValid).condition := by
  unfold evaluateHits
  split
  next =>
    dsimp only
    split
    next untargeted => exact Or.inr (Or.inr ⟨rfl, Or.inl untargeted⟩)
    next =>
      split
      next below => exact Or.inr (Or.inr ⟨rfl, Or.inr below⟩)
      next => exact Or.inl rfl
  next => split <;> exact Or.inl rfl

/-- An evaluation without added hits counts at most one hit, and none beyond the target. -/
theorem rcCondsetEvaluateConditionNoAddHits_counts (memrefs : Memrefs) (condition : Condition)
    (state : EvalState) :
    Counts condition (rcCondsetEvaluateConditionNoAddHits memrefs condition state).condition := by
  dsimp only [rcCondsetEvaluateConditionNoAddHits]
  split
  next => exact Or.inr (Or.inl rfl)
  next => exact evaluateHits_counts { condition with isTrue := _ } state _

/-- The same of an evaluation with added hits: they are compared with the target, and not counted
into the condition. -/
theorem rcCondsetEvaluateCondition_counts (memrefs : Memrefs) (condition : Condition)
    (state : EvalState) :
    Counts condition (rcCondsetEvaluateCondition memrefs condition state).condition := by
  have counts := rcCondsetEvaluateConditionNoAddHits_counts memrefs condition state
  dsimp only [rcCondsetEvaluateCondition]
  split
  next => exact counts
  next => exact counts

/-- Whatever evaluator a condition has, its hits are kept, cleared, or one more, within its target
where it has one. -/
theorem evaluate_counts (memrefs : Memrefs) (condition : Condition) (state : EvalState) :
    Counts condition (evaluate memrefs condition state).1 := by
  have full := rcCondsetEvaluateCondition_counts memrefs condition state
  have hits := rcCondsetEvaluateConditionNoAddHits_counts memrefs condition state
  unfold evaluate
  split
  case h_2 =>
    dsimp only [rcCondsetEvaluatePauseIf]
    split
    next => exact full
    next =>
      split
      next => exact Or.inr (Or.inl rfl)
      next => exact full
  case h_3 =>
    dsimp only [rcCondsetEvaluateResetIf]
    split
    next => exact full
    next => exact full
  case h_5 =>
    unfold rcCondsetEvaluateMeasured
    split
    next => exact full
    next => exact hits
  all_goals first | exact full | exact hits | exact Or.inl rfl

/-- A condition that has counted some frames, and not beyond its target. -/
def Counted (frames : Nat) (condition : Condition) : Prop :=
  condition.currentHits.toNat ≤ frames ∧
    (condition.requiredHits ≠ 0 → condition.currentHits ≤ condition.requiredHits)

/-- A condition without hits has counted nothing. -/
theorem counted_zero (frames : Nat) (condition : Condition) (none : condition.currentHits = 0) :
    Counted frames condition := by
  rw [Counted, none]
  exact ⟨Nat.zero_le frames, fun _ => UInt32.zero_le⟩

/-- An evaluation counts one frame more at most: hits are kept, cleared, or one more, and in the
last case they were below the target. -/
theorem evaluate_counted (frames : Nat) (memrefs : Memrefs) (condition : Condition)
    (state : EvalState) (counted : Counted frames condition) :
    Counted (frames + 1) (evaluate memrefs condition state).1 := by
  obtain ⟨few, bounded⟩ := counted
  have required := (evaluate_kept memrefs condition state).requiredHits
  have more : (condition.currentHits + 1).toNat ≤ condition.currentHits.toNat + 1 := by
    rw [UInt32.toNat_add]
    exact Nat.mod_le _ _
  obtain same | none | ⟨one, below⟩ := evaluate_counts memrefs condition state
  · rw [Counted, same, required]
    exact ⟨Nat.le_succ_of_le few, bounded⟩
  · exact counted_zero _ _ none
  · rw [Counted, one, required]
    refine ⟨by omega, fun targeted => ?_⟩
    have less := UInt32.lt_iff_toNat_lt.mp (below.resolve_left targeted)
    exact UInt32.le_iff_toNat_le.mpr (by omega)

/-! ## What holds of every condition -/

/-- The conditions of a set. -/
def Condset.all (self : Condset) : List Condition :=
  self.pause ++ self.reset ++ self.hittarget ++ self.measured ++ self.other ++ self.indirect

/-- Something that an evaluation makes of a condition, that holds of one without hits if it
holds of one with hits, and that is left when a condition is not evaluated. -/
structure Carried (before after : Condition → Prop) : Prop where
  evaluated : ∀ memrefs condition state, before condition →
    after (evaluate memrefs condition state).1
  cleared : ∀ condition, before condition → before { condition with currentHits := 0 }
  left : ∀ condition, before condition → after condition

variable {before after : Condition → Prop} (carried : Carried before after)

include carried

/-- What every evaluation makes of a condition holds of all conditions of a group. Those behind a
stop are left as they were, which the property allows. -/
theorem rcTestCondsetInternal_carried (memrefs : Memrefs) (canShortCircuit : Bool)
    (conditions : List Condition)
    (state : EvalState) (all : ∀ condition ∈ conditions, before condition) :
    ∀ condition ∈ (rcTestCondsetInternal memrefs canShortCircuit conditions state).1,
    after condition := by
  induction conditions generalizing state with
  | nil => exact fun _ member => nomatch member
  | cons condition rest inductionHypothesis =>
    have here := carried.evaluated memrefs condition state (all condition List.mem_cons_self)
    have later := fun state => inductionHypothesis state
      (fun other member => all other (List.mem_cons_of_mem condition member))
    intro other member
    dsimp only [rcTestCondsetInternal] at member
    split at member
    next =>
      obtain rfl | skipped := List.mem_cons.mp member
      · exact here
      · exact carried.left other (all other (List.mem_cons_of_mem condition skipped))
    next =>
      obtain rfl | passed := List.mem_cons.mp member
      · exact here
      · exact later _ other passed

/-- Clearing hits keeps the property. -/
theorem cleared_carried (conditions : List Condition)
    (all : ∀ condition ∈ conditions, before condition) :
    ∀ condition ∈ cleared conditions, before condition := by
  intro condition member
  obtain ⟨counted, old, rfl⟩ := List.mem_map.mp member
  exact carried.cleared counted (all counted old)

/-- The measured group carries the property: its conditions are evaluated, or left. -/
theorem testMeasured_carried (memrefs : Memrefs) (conditions : List Condition) (state : EvalState)
    (all : ∀ condition ∈ conditions, before condition) :
    ∀ condition ∈ (testMeasured memrefs conditions state).1, after condition := by
  unfold testMeasured
  split
  next => exact fun _ member => nomatch member
  next =>
    refine rcTestCondsetInternal_carried carried memrefs false _ state ?_
    split
    next => exact cleared_carried carried conditions all
    next => exact all

/-- A set that is not paused carries the property from group to group. A group that a reset leaves
out is not evaluated, and keeps it for that reason. -/
theorem testUnpaused_carried (memrefs : Memrefs) (self : Condset) (state : EvalState)
    (all : ∀ condition ∈ self.reset ++ self.hittarget ++ self.measured ++ self.other,
      before condition) :
    ∀ condition ∈ (testUnpaused memrefs self state).1.reset ++
      (testUnpaused memrefs self state).1.hittarget ++
      (testUnpaused memrefs self state).1.measured ++ (testUnpaused memrefs self state).1.other,
      after condition := by
  have internal := fun canShortCircuit conditions state =>
    rcTestCondsetInternal_carried carried memrefs canShortCircuit conditions state
  simp only [List.mem_append] at all ⊢
  intro condition member
  obtain ((member | member) | member) | member := member
  · exact internal _ self.reset _
      (fun old here => all old (Or.inl (Or.inl (Or.inl here)))) condition member
  · simp only [testUnpaused, testHittarget] at member
    split at member
    next => exact carried.left condition (all condition (Or.inl (Or.inl (Or.inr member))))
    next =>
      exact internal _ self.hittarget _
        (fun old here => all old (Or.inl (Or.inl (Or.inr here)))) condition member
  · exact testMeasured_carried carried memrefs self.measured _
      (fun old here => all old (Or.inl (Or.inr here))) condition member
  · simp only [testUnpaused, testOther] at member
    split at member
    next => exact internal _ self.other _ (fun old here => all old (Or.inr here)) condition member
    next =>
      split at member
      next => exact internal _ self.other _ (fun old here => all old (Or.inr here)) condition member
      next => exact carried.left condition (all condition (Or.inr member))

/-- What one evaluation of a set makes of its conditions: all that every evaluation, and every
clearing of hits, makes of one. A paused set evaluates its pausing group only, and a reset one is
cleared. -/
theorem rcTestCondset_carried (memrefs : Memrefs) (self : Condset) (state : EvalState)
    (all : ∀ condition ∈ self.all, before condition) :
    ∀ condition ∈ (rcTestCondset memrefs self state).1.all, after condition := by
  have pause := rcTestCondsetInternal_carried carried memrefs true self.pause state.begun
    (fun condition member => all condition (by simp [Condset.all, member]))
  have rest : ∀ condition ∈ self.reset ++ self.hittarget ++ self.measured ++ self.other,
      before condition := by
    intro condition member
    refine all condition ?_
    simp only [Condset.all, List.mem_append] at member ⊢
    tauto
  have unpaused := fun isPaused => testUnpaused_carried carried memrefs
    { self with
      pause := (rcTestCondsetInternal memrefs true self.pause state.begun).1, isPaused := isPaused }
    (rcTestCondsetInternal memrefs true self.pause state.begun).2 rest
  intro condition member
  dsimp only [rcTestCondset] at member
  generalize (if self.pause = [] then self.isPaused
    else (rcTestCondsetInternal memrefs true self.pause state.begun).2.verdict.isPaused) =
      isPaused at member
  split at member
  next =>
    simp only [Condset.all, List.mem_append] at member
    obtain ((((member | member) | member) | member) | member) | member := member
    · exact pause condition member
    all_goals exact carried.left condition (all condition (by simp [Condset.all, member]))
  next =>
    simp only [Condset.all, List.mem_append] at member
    simp only [List.mem_append] at unpaused
    obtain ((((member | member) | member) | member) | member) | member := member
    · exact pause condition member
    · exact unpaused _ condition (Or.inl (Or.inl (Or.inl member)))
    · exact unpaused _ condition (Or.inl (Or.inl (Or.inr member)))
    · exact unpaused _ condition (Or.inl (Or.inr member))
    · exact unpaused _ condition (Or.inr member)
    · exact carried.left condition
        (all condition (by simp [Condset.all, show condition ∈ self.indirect from member]))

omit carried

/-! ## Runs of frames -/

/-- A frame for a set: the references, and the state that the sets before it leave. -/
structure Frame where
  memrefs : Memrefs
  state : EvalState

/-- What a frame finds in a set. -/
structure Outcome where
  verdict : Verdict
  measure : Measure

/-- Frame after frame, group after group. -/
def groupedRun : List Frame → Condset → Condset × List Outcome
  | [], self => (self, [])
  | frame :: frames, self =>
    let here := rcTestCondset frame.memrefs self frame.state
    let later := groupedRun frames here.1
    (later.1, ⟨here.2.1.verdict, here.2.1.measure⟩ :: later.2)

/-- Frame after frame, in the order of the text. -/
def orderedRun : List Frame → List Condition → List Condition × List Outcome
  | [], conditions => (conditions, [])
  | frame :: frames, conditions =>
    let here := orderedTest frame.memrefs conditions frame.state
    let later := orderedRun frames here.1
    (later.1, ⟨here.2.verdict, here.2.measure⟩ :: later.2)

/-- Neither a pause nor a reset. -/
def Outcome.Quiet (outcome : Outcome) : Prop :=
  outcome.verdict.isPaused = false ∧ outcome.verdict.wasReset = false

instance (outcome : Outcome) : Decidable outcome.Quiet := inferInstanceAs (Decidable (_ ∧ _))

/-- What is kept of a condition holds its type. -/
theorem Kept.type {before after : Condition} (kept : Kept before after) :
    after.type = before.type := by
  rw [Kept] at kept
  rw [kept]

/-- Chains keep their targets, since whether a chain is targeted is a matter of the texts of its
conditions, which a run keeps. -/
theorem targeted_run (memrefs : Memrefs) (conditions : List Condition) (added : Bool)
    (chain : ChainState) (targeted : Targeted added conditions) :
    Targeted added ((chains memrefs).run conditions chain).1 := by
  induction conditions generalizing added chain with
  | nil => trivial
  | cons condition rest inductionHypothesis =>
    have kept : Kept condition ((chains memrefs).step condition chain).1 :=
      evaluate_kept memrefs condition (neutral chain)
    rw [Targeted] at targeted
    rw [Process.run, Targeted, rcClassifyCondition_kept _ _ kept, kept.type, kept.requiredHits]
    split at targeted
    next => exact inductionHypothesis _ _ targeted
    next => exact inductionHypothesis _ _ targeted
    next => exact ⟨targeted.1, inductionHypothesis _ _ targeted.2⟩

/-- As long as no frame pauses or resets a set, the order in which its groups are evaluated does
not show: its conditions, its verdicts and its measured values are those of the text. Evaluations
act on the verdict and the measure by products, which may be regrouped where no chain and no added
hit leaves its group. The proof goes frame by frame, as a frame keeps added hits feeding a
target. -/
theorem groupedRun_ordered (frames : List Frame)
    (whole : ∀ frame ∈ frames, frame.state.canShortCurcuit = false)
    (conditions : List Condition) (targeted : Targeted false conditions)
    (quiet : ∀ outcome ∈ (orderedRun frames conditions).2, outcome.Quiet) :
    groupedRun frames (rcParseCondset conditions) =
      (rcParseCondset (orderedRun frames conditions).1, (orderedRun frames conditions).2) := by
  induction frames generalizing conditions with
  | nil => rfl
  | cons frame frames inductionHypothesis =>
    have whole' := whole frame List.mem_cons_self
    have still : Targeted false (orderedTest frame.memrefs conditions frame.state).1 := by
      rw [orderedTest, rcTestCondsetInternal_run frame.memrefs conditions frame.state.begun whole']
      exact targeted_run frame.memrefs conditions false _ targeted
    rw [orderedRun] at quiet
    have here := quiet _ List.mem_cons_self
    obtain ⟨set, verdict, measure, _⟩ :=
      rcTestCondset_quiet frame.memrefs conditions targeted frame.state whole' here.1 here.2
    have later :=
      inductionHypothesis (fun frame member => whole frame (List.mem_cons_of_mem _ member)) _ still
      (fun outcome member => quiet outcome (List.mem_cons_of_mem _ member))
    rw [groupedRun, orderedRun, set, verdict, measure, later]

/-- A condition on two constants. -/
def plainCondition (type : ConditionType) (holds : Bool) (requiredHits : UInt32) : Condition :=
  ⟨⟨.const 0, false, false⟩, ⟨.const 0, false, false⟩, requiredHits, 0, type, .eq, 0, always holds⟩

/-- A frame that begins with the first set. -/
def firstFrame : Frame := ⟨⟨[], []⟩, neutral ⟨0, true, false, false⟩⟩

/-- A set with added hits that feed a target, on two frames. -/
theorem groupedRun_counted :
    groupedRun [firstFrame, firstFrame] (rcParseCondset
        [plainCondition .standard true 0, plainCondition .addHits true 0,
          plainCondition .standard false 2]) = (rcParseCondset (orderedRun [firstFrame, firstFrame]
          [plainCondition .standard true 0, plainCondition .addHits true 0,
            plainCondition .standard false 2]).1, (orderedRun [firstFrame, firstFrame]
          [plainCondition .standard true 0, plainCondition .addHits true 0,
            plainCondition .standard false 2]).2) :=
  groupedRun_ordered _ (by simp [firstFrame, neutral]) _
    (by simp [Targeted, rcClassifyCondition, plainCondition])
    (by decide +kernel)

/-- Hits that are added to a condition without a target stay for the next chain, which is
another one in the text than in the groups. -/
example :
    let conditions := [plainCondition .addHits true 0, plainCondition .standard true 0,
      plainCondition .standard false 2]
    ((groupedRun [firstFrame, firstFrame] (rcParseCondset conditions)).2.map
      (fun outcome => outcome.verdict.isTrue),
      (orderedRun [firstFrame, firstFrame] conditions).2.map
        (fun outcome => outcome.verdict.isTrue)) = ([false, false], [false, true]) := by
  decide +kernel

end NoMercyRecomp.ConditionSets
