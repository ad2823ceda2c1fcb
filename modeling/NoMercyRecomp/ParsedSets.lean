import Mathlib
import NoMercyRecomp.ConditionSets
import NoMercyRecomp.ParsedConditions

/-!
# Sets as they are parsed

The conditions of a set are parsed one after the other. If the set pauses and remembers, a
last step returns to what was recalled: the pausing conditions are evaluated first, so they
forget what others remember, and what the others recall before they remember anything is
what the pausing ones remember. That step rewrites computed references in place, and is the
only one that lets a reference read one behind it.
-/

namespace NoMercyRecomp.ParsedSets

open TypedValues MemRefs FrameReadings Conditions SharedReferences ParsedConditions

open ConditionSets (Classification rcClassifyCondition rcFindNextClassification placed)

/-! ## What is recalled -/

/-- A computed reference with another operand to start from. -/
def withParent (memrefs : Memrefs) (index : Nat) (parent : Operand) : Memrefs :=
  { memrefs with
    modifiedMemrefs :=
      memrefs.modifiedMemrefs.modify index (fun entry => { entry with parent := parent }) }

/-- A computed reference with another operand to go on with. -/
def withModifier (memrefs : Memrefs) (index : Nat) (modifier : Operand) : Memrefs :=
  { memrefs with
    modifiedMemrefs :=
      memrefs.modifiedMemrefs.modify index (fun entry => { entry with modifier := modifier }) }

/-- `rc_condition_update_recall_operand`, for an operand whose computed references are nested
at most `depth` deep. An operand that recalls nothing recalls what is remembered. -/
def rcConditionUpdateRecallOperand (remember : Operand) (memrefs : Memrefs) (depth : Nat)
    (operand : Operand) : Memrefs × Operand :=
  if operand.recalled then
    match operand.source with
    | .nothing => (memrefs, { remember with recalled := true })
    | _ => (memrefs, operand)
  else
    match depth, operand.source with
    | depth + 1, .memref _ (.modified index) _ =>
      match memrefs.modifiedMemrefs[index]? with
      | none => (memrefs, operand)
      | some entry =>
        let parent := rcConditionUpdateRecallOperand remember memrefs depth entry.parent
        let memrefs := withParent parent.1 index parent.2
        let modifier := rcConditionUpdateRecallOperand remember memrefs depth entry.modifier
        (withModifier modifier.1 index modifier.2, operand)
    | _, _ => (memrefs, operand)

/-- A recalled operand of which the pointer is cleared. -/
def forgotten (operand : Operand) : Operand :=
  match operand.source, operand.recalled with
  | .memref _ _ _, true => { operand with source := .nothing }
  | _, _ => operand

/-- A condition that forgets what it recalls. -/
def forgetful (condition : Condition) : Condition :=
  { condition with
    operand1 := forgotten condition.operand1
    operand2 := forgotten condition.operand2 }

/-- The first loop of `rc_update_condition_pause_remember`: what the pausing conditions
remember last. Before they remember anything they forget what others have remembered. -/
def discard (pauseRemember : Option Operand) :
    List (Classification × Condition) → Option Operand × List (Classification × Condition)
  | [] => (pauseRemember, [])
  | (classification, condition) :: rest =>
    if classification ≠ .pause then
      let later := discard pauseRemember rest
      (later.1, (classification, condition) :: later.2)
    else if condition.type = .remember then
      let later := discard (some condition.operand1) rest
      (later.1, (classification, condition) :: later.2)
    else
      let later := discard pauseRemember rest
      (later.1, (classification, if pauseRemember.isSome then condition else forgetful condition) ::
        later.2)

/-- The second loop: what the other conditions recall before they remember anything. -/
def recallPaused (remember : Operand) (memrefs : Memrefs) :
    List (Classification × Condition) → Memrefs × List (Classification × Condition)
  | [] => (memrefs, [])
  | (classification, condition) :: rest =>
    let depth := memrefs.modifiedMemrefs.length
    let first := rcConditionUpdateRecallOperand remember memrefs depth condition.operand1
    let second := rcConditionUpdateRecallOperand remember first.1 depth condition.operand2
    let updated :=
      if classification = .pause then (memrefs, condition)
      else (second.1, { condition with operand1 := first.2, operand2 := second.2 })
    if condition.type = .remember then (updated.1, (classification, updated.2) :: rest)
    else
      let later := recallPaused remember updated.1 rest
      (later.1, (classification, updated.2) :: later.2)

/-- `rc_update_condition_pause_remember`, on the conditions with the arrays that they are
in. -/
def rcUpdateConditionPauseRemember (memrefs : Memrefs)
    (conditions : List (Classification × Condition)) :
    Memrefs × List (Classification × Condition) :=
  let discarded := discard none conditions
  match discarded.1 with
  | some remember => recallPaused remember memrefs discarded.2
  | none => (memrefs, discarded.2)

/-- `rc_parse_condset`: the pools, and the conditions in the order of the text. The arrays that
they are put in are those of `ConditionSets.rcParseCondset`. -/
def rcParseCondset (pointer : Ref → UInt64) (memrefs : Memrefs) (isValue : Bool)
    (texts : List ConditionText) : Memrefs × List Condition :=
  let parsed := parseConditions pointer (.begun memrefs isValue) texts
  let conditions := placed .combining parsed.2
  let hasPause := conditions.any (fun entry => entry.1 = .pause)
  let updated :=
    if hasPause ∧ parsed.1.remember.isSome then
      rcUpdateConditionPauseRemember parsed.1.memrefs conditions
    else (parsed.1.memrefs, conditions)
  (updated.1, updated.2.map Prod.snd)

/-! ## Sets in which no pausing condition remembers -/

/-- The next type that neither combines nor only computes is a pausing one. -/
def pausesNext : List ConditionType → Bool
  | [] => false
  | type :: types =>
    match type with
    | .pauseIf => true
    | .addAddress | .addSource | .subSource | .addHits | .andNext | .orNext | .remember
    | .resetNextIf | .subHits => pausesNext types
    | _ => false

/-- Some Remember belongs to a chain that ends with a PauseIf. -/
def remembersPaused : List ConditionType → Bool
  | [] => false
  | type :: types => (type = .remember && pausesNext types) || remembersPaused types

/-- A parsed condition keeps the type of its text: what the parse state does with it may change
its operands, and not its type. -/
theorem parseCondition_type (pointer : Ref → UInt64) (parse : ParseState) (text : ConditionText) :
    (parseCondition pointer parse text).2.type = text.type := by
  have parsed : (rcParseConditionInternal parse text).2.type = text.type := by
    rw [rcParseConditionInternal]
    dsimp only
    split
    next => rfl
    next => split <;> rfl
  rw [parseCondition, rcConditionUpdateParseState]
  split
  next => exact parsed
  next => exact parsed
  next => exact parsed
  next =>
    split
    next => exact parsed
    next => exact parsed
  next =>
    dsimp only
    split
    next => exact parsed
    next => exact parsed

/-- Conditions keep the types that are written. -/
theorem parseConditions_types (pointer : Ref → UInt64) (texts : List ConditionText)
    (parse : ParseState) :
    (parseConditions pointer parse texts).2.map Condition.type =
      texts.map ConditionText.type := by
  induction texts generalizing parse with
  | nil => rfl
  | cons text texts inductionHypothesis =>
    simp only [parseConditions, List.map_cons, parseCondition_type, inductionHypothesis]

/-- The class that is looked ahead for is the pausing one where the types say so: the next
condition that closes a chain is a pausing one. By induction on the conditions. -/
theorem rcFindNextClassification_pause (conditions : List Condition) :
    rcFindNextClassification conditions = .pause ↔
      pausesNext (conditions.map Condition.type) = true := by
  induction conditions with
  | nil => exact ⟨nofun, nofun⟩
  | cons condition conditions inductionHypothesis =>
    rw [List.map_cons]
    cases type : condition.type with
    | standard | trigger =>
      by_cases counts : condition.requiredHits = 0 <;>
        simp [rcFindNextClassification, rcClassifyCondition, pausesNext, type, counts]
    | pauseIf | resetIf | measuredIf | measured =>
      simp [rcFindNextClassification, rcClassifyCondition, pausesNext, type]
    | _ =>
      simpa [rcFindNextClassification, rcClassifyCondition, pausesNext, type]
        using inductionHypothesis

/-- A Remember is put among the pausing conditions where its chain ends with a PauseIf. The
class that is kept while a chain goes on is the one that was looked ahead for. -/
theorem placed_remembers (conditions : List Condition) (cache : Classification)
    (cached : cache = .combining ∨ cache = rcFindNextClassification conditions)
    (entry : Classification × Condition) (member : entry ∈ placed cache conditions)
    (pause : entry.1 = .pause) (remember : entry.2.type = .remember) :
    remembersPaused (conditions.map Condition.type) = true := by
  induction conditions generalizing cache with
  | nil => exact absurd member List.not_mem_nil
  | cons condition conditions inductionHypothesis =>
    rw [List.map_cons, remembersPaused, Bool.or_eq_true]
    rw [placed] at member
    dsimp only at member
    split at member
    next combining =>
      have ahead : (if cache = .combining then rcFindNextClassification conditions else cache) =
          rcFindNextClassification conditions := by
        split
        next => rfl
        next other =>
          rw [cached.resolve_left other, rcFindNextClassification, combining]
      rw [ahead] at member
      obtain rfl | later := List.mem_cons.mp member
      · refine Or.inl ?_
        have paused := (rcFindNextClassification_pause conditions).mp pause
        rw [paused, Bool.and_true]
        exact decide_eq_true remember
      · exact Or.inr (inductionHypothesis _ (Or.inr rfl) later)
    next single =>
      obtain rfl | later := List.mem_cons.mp member
      · refine absurd ?_ single
        show rcClassifyCondition condition = .combining
        rw [rcClassifyCondition, show condition.type = .remember from remember]
      · exact Or.inr (inductionHypothesis _ (Or.inl rfl) later)

/-- The conditions with their classes are the conditions. -/
theorem placed_conditions (conditions : List Condition) (cache : Classification) :
    (placed cache conditions).map Prod.snd = conditions := by
  induction conditions generalizing cache with
  | nil => rfl
  | cons condition conditions inductionHypothesis =>
    rw [placed]
    dsimp only
    split
    next => rw [List.map_cons, inductionHypothesis]
    next => rw [List.map_cons, inductionHypothesis]

/-- Where no pausing condition remembers, the first loop finds nothing, and changes no condition
but by forgetting what it recalls. -/
theorem discard_unpaused (conditions : List (Classification × Condition))
    (unpaused : ∀ entry ∈ conditions, entry.1 = .pause → entry.2.type ≠ .remember) :
    (discard none conditions).1 = none ∧
      List.Forall₂ (fun before after => after = before ∨ after = forgetful before)
        (conditions.map Prod.snd) ((discard none conditions).2.map Prod.snd) := by
  induction conditions with
  | nil => exact ⟨rfl, .nil⟩
  | cons entry conditions inductionHypothesis =>
    obtain ⟨nothing, kept⟩ := inductionHypothesis
      (fun later member => unpaused later (List.mem_cons_of_mem entry member))
    obtain ⟨classification, condition⟩ := entry
    have here := unpaused (classification, condition) List.mem_cons_self
    rw [discard]
    split
    next => exact ⟨nothing, .cons (Or.inl rfl) kept⟩
    next pause =>
      rw [if_neg (here (not_not.mp pause))]
      exact ⟨nothing, .cons (Or.inr rfl) kept⟩

/-- A set in which no pausing condition remembers has the pools and the conditions that its
texts are parsed to, but for what pausing conditions forget: the second loop does not
run. -/
theorem rcParseCondset_unpaused (pointer : Ref → UInt64) (memrefs : Memrefs) (isValue : Bool)
    (texts : List ConditionText)
    (unpaused : remembersPaused (texts.map ConditionText.type) = false) :
    let parsed := parseConditions pointer (.begun memrefs isValue) texts
    (rcParseCondset pointer memrefs isValue texts).1 = parsed.1.memrefs ∧
      List.Forall₂ (fun before after => after = before ∨ after = forgetful before) parsed.2
        (rcParseCondset pointer memrefs isValue texts).2 := by
  intro parsed
  have apart : ∀ entry ∈ placed .combining parsed.2, entry.1 = .pause →
      entry.2.type ≠ .remember := by
    intro entry member pause remember
    have paused := placed_remembers parsed.2 .combining (Or.inl rfl) entry member pause remember
    rw [parseConditions_types, unpaused] at paused
    exact absurd paused Bool.false_ne_true
  obtain ⟨nothing, kept⟩ := discard_unpaused (placed .combining parsed.2) apart
  rw [placed_conditions] at kept
  have same :
    List.Forall₂ (fun before after : Condition => after = before ∨ after = forgetful before)
      parsed.2 ((placed .combining parsed.2).map Prod.snd) := by
    rw [placed_conditions]
    exact List.forall₂_same.mpr (fun _ _ => Or.inl rfl)
  rw [rcParseCondset]
  dsimp only
  split
  next =>
    rw [rcUpdateConditionPauseRemember]
    simp only [parsed] at nothing
    simp only [nothing]
    exact ⟨rfl, kept⟩
  next => exact ⟨rfl, same⟩

/-! ## What allocation keeps, parsing keeps -/

/-- What a pool keeps when references are allocated from operands that lead into it. -/
structure Allocates (kept : Memrefs → Prop) : Prop where
  memref : ∀ (memrefs : Memrefs) (address : UInt32) (size : MemSize), kept memrefs →
    kept (rcAllocMemref memrefs address size).1
  modified : ∀ (memrefs : Memrefs) (size : MemSize) (parent : Operand) (modifierType : Operator)
    (modifier : Operand), kept memrefs → Source.Inside memrefs parent.source →
      Source.Inside memrefs modifier.source →
        kept (rcAllocModifiedMemref memrefs size parent modifierType modifier).1

/-- What comes of making an operand, whatever it is made from. -/
structure Leaves (kept : Memrefs → Prop) (memrefs : Memrefs) (made : Memrefs × Operand) :
    Prop where
  adds : Adds memrefs made.1
  kept : kept made.1
  inside : Source.Inside made.1 made.2.source

/-- A state whose operands lead into its pools. -/
structure Inward (kept : Memrefs → Prop) (parse : ParseState) : Prop where
  kept : kept parse.memrefs
  indirect : ∀ parent, parse.indirectParent = some parent →
    Source.Inside parse.memrefs parent.source
  addsource : ∀ parent, parse.addsourceParent = some parent →
    Source.Inside parse.memrefs parent.source
  remember : ∀ operand, parse.remember = some operand →
    Source.Inside parse.memrefs operand.source

section Parsing

variable {kept : Memrefs → Prop} (allocates : Allocates kept)

/-- A state leads into larger pools as well. -/
theorem Inward.more {parse : ParseState} (inward : Inward kept parse) {memrefs : Memrefs}
    (adds : Adds parse.memrefs memrefs) (more : kept memrefs) :
    Inward kept { parse with memrefs := memrefs } where
  kept := more
  indirect parent is := adds.extends.inside _ (inward.indirect parent is)
  addsource parent is := adds.extends.inside _ (inward.addsource parent is)
  remember operand is := adds.extends.inside _ (inward.remember operand is)

include allocates

/-- Allocating a computed reference keeps what allocations keep, and the operand that reads it
leads into the pools. -/
theorem computed_leaves (memrefs : Memrefs) (before : kept memrefs) (size : MemSize)
    (parent : Operand) (modifierType : Operator) (modifier : Operand)
    (parentInside : Source.Inside memrefs parent.source)
    (modifierInside : Source.Inside memrefs modifier.source) (access : Access)
    (operandSize : MemSize) (recalled isCombining : Bool) :
    let allocated := rcAllocModifiedMemref memrefs size parent modifierType modifier
    Leaves kept memrefs
      (allocated.1, ⟨.memref access allocated.2 operandSize, recalled, isCombining⟩) :=
  ⟨rcAllocModifiedMemref_adds memrefs size parent modifierType modifier,
    allocates.modified memrefs size parent modifierType modifier before parentInside modifierInside,
    rcAllocModifiedMemref_inside memrefs size parent modifierType modifier access operandSize⟩

/-- Parsing an operand changes the pools of the state only, and leaves an operand that leads into
them. -/
theorem rcParseOperand_leaves (parse : ParseState) (inward : Inward kept parse)
    (text : OperandText) :
    let parsed := rcParseOperand parse text
    parsed.1 = { parse with memrefs := parsed.1.memrefs } ∧
      Leaves kept parse.memrefs (parsed.1.memrefs, parsed.2) := by
  cases text with
  | memory access size address =>
    refine ⟨rfl, ?_⟩
    cases pointer : parse.indirectParent with
    | none =>
      obtain ⟨adds, index, found, inside⟩ :=
        rcAllocMemref_adds parse.memrefs address (referenceSize access size)
      simp only [rcParseOperand, rcParseOperandMemory, pointer, found]
      exact ⟨adds, allocates.memref parse.memrefs _ _ inward.kept, inside⟩
    | some parent =>
      simp only [rcParseOperand, rcParseOperandMemory, pointer]
      exact computed_leaves allocates parse.memrefs inward.kept _ _ .indirectRead
        (rcOperandSetConst address) (inward.indirect parent pointer) trivial access size false false
  | const num => exact ⟨rfl, .refl _, inward.kept, trivial⟩
  | fp dbl => exact ⟨rfl, .refl _, inward.kept, trivial⟩
  | func => exact ⟨rfl, .refl _, inward.kept, trivial⟩
  | recalled =>
    cases remembered : parse.remember with
    | none =>
      simp only [rcParseOperand, remembered]
      exact ⟨by rw [← remembered], .refl _, inward.kept, trivial⟩
    | some operand =>
      simp only [rcParseOperand, remembered]
      exact ⟨by rw [← remembered], .refl _, inward.kept, inward.remember operand remembered⟩

/-- A condition whose operands lead into the pools. -/
structure Inner (memrefs : Memrefs) (condition : Condition) : Prop where
  operand1 : Source.Inside memrefs condition.operand1.source
  operand2 : Source.Inside memrefs condition.operand2.source

/-- Parsing a condition's operands leaves a condition both of whose operands lead into the
pools. -/
theorem rcParseConditionInternal_leaves (parse : ParseState) (inward : Inward kept parse)
    (text : ConditionText) :
    let parsed := rcParseConditionInternal parse text
    Inward kept parsed.1 ∧ Adds parse.memrefs parsed.1.memrefs ∧
      Inner parsed.1.memrefs parsed.2 := by
  obtain ⟨same1, first⟩ := rcParseOperand_leaves allocates parse inward text.operand1
  have inward1 : Inward kept (rcParseOperand parse text.operand1).1 := by
    rw [same1]
    exact inward.more first.adds first.kept
  obtain ⟨same2, second⟩ := rcParseOperand_leaves allocates _ inward1 text.operand2
  have inward2 : Inward kept
      (rcParseOperand (rcParseOperand parse text.operand1).1 text.operand2).1 := by
    rw [same2]
    exact inward1.more second.adds second.kept
  dsimp only
  rw [rcParseConditionInternal]
  dsimp only
  split
  next => exact ⟨inward1, first.adds, first.inside, trivial⟩
  next =>
    have inside1 := second.adds.extends.inside _ first.inside
    refine ⟨inward2, first.adds.trans second.adds, ?_⟩
    split
    next => exact ⟨inside1, trivial⟩
    next => exact ⟨inside1, second.inside⟩

/-- A condition that is made an operand leads into the pools as its own operands do. -/
theorem rcConditionConvertToOperand_leaves (memrefs : Memrefs) (before : kept memrefs)
    (condition : Condition) (inner : Inner memrefs condition) :
    Leaves kept memrefs (rcConditionConvertToOperand memrefs condition) := by
  rw [rcConditionConvertToOperand]
  split
  next => exact ⟨.refl memrefs, before, inner.operand1⟩
  next =>
    exact computed_leaves allocates memrefs before _ _ _ _ inner.operand1 inner.operand2 .address _
      false _

omit allocates in
/-- Reading the address in place of the delta leads to the same reference. -/
theorem addressed_inside (memrefs : Memrefs) (operand : Operand)
    (inside : Source.Inside memrefs operand.source) :
    Source.Inside memrefs (addressed operand).source := by
  obtain ⟨source, recalled, isCombining⟩ := operand
  cases source with
  | memref access ref size => cases ref <;> exact inside
  | const | fp | func | nothing => trivial

/-- A sum of operands that lead into the pools leads into the larger ones. -/
theorem rcOperandAddsource_leaves (memrefs : Memrefs) (before : kept memrefs) (parent : Operand)
    (oper : Operator) (operand : Operand) (newSize : MemSize)
    (parentInside : Source.Inside memrefs parent.source)
    (operandInside : Source.Inside memrefs operand.source) :
    Leaves kept memrefs (rcOperandAddsource memrefs parent oper operand newSize) := by
  rw [rcOperandAddsource]
  split
  next access _ =>
    exact computed_leaves allocates memrefs before _ _ _ _ (addressed_inside memrefs _ parentInside)
      (addressed_inside memrefs _ operandInside) access _ false _
  next =>
    exact computed_leaves allocates memrefs before _ _ _ _ parentInside operandInside .address _
      false _

/-- What a `SubSource` subtracts from leads into the pools: it is the chain's own operand, or a
reference that has been computed from it. -/
theorem beforeSubtracting_leaves (pointer : Ref → UInt64) (memrefs : Memrefs)
    (before : kept memrefs) (parent : Operand) (oper : Operator)
    (inside : Source.Inside memrefs parent.source) :
    Leaves kept memrefs (beforeSubtracting pointer memrefs parent oper) := by
  obtain ⟨source, recalled, isCombining⟩ := parent
  rw [beforeSubtracting]
  split
  next =>
    exact computed_leaves allocates memrefs before _ _ .addAccumulator (rcOperandSetConst 0) inside
      trivial .address _ false _
  next =>
    split
    next =>
      have zero : ∀ float : Bool, Source.Inside memrefs
          (if float then ⟨.fp 0, false, false⟩ else rcOperandSetConst 0 : Operand).source := by
        intro float
        cases float <;> trivial
      have leaves := fun access => computed_leaves allocates memrefs before
        (if rcOperandIsFloat memrefs ⟨source, recalled, isCombining⟩ then .float else .bits32) _
        .subParent _ inside (zero (rcOperandIsFloat memrefs ⟨source, recalled, isCombining⟩)) access
        (if rcOperandIsFloat memrefs ⟨source, recalled, isCombining⟩ then .float else .bits32)
        recalled isCombining
      cases source with
      | memref access => exact leaves access
      | nothing => exact leaves .address
      | const | fp | func =>
        exact ⟨(leaves .address).adds, (leaves .address).kept, trivial⟩
    next => exact ⟨.refl memrefs, before, inside⟩

/-- An `AddSource` keeps the state leading into its pools: what it leaves as the chain is its
converted operand, or the sum with what was there. -/
theorem addSource_leaves (parse : ParseState) (inward : Inward kept parse) (condition : Condition)
    (inner : Inner parse.memrefs condition) :
    Inward kept (addSource parse condition) ∧
      Adds parse.memrefs (addSource parse condition).memrefs := by
  have converted :=
    rcConditionConvertToOperand_leaves allocates parse.memrefs inward.kept condition inner
  have more := inward.more converted.adds converted.kept
  cases chain : parse.addsourceParent with
  | none =>
    simp only [addSource, chain]
    exact ⟨⟨converted.kept, (fun _ is => by cases is),
      fun parent is => by cases is; exact converted.inside, more.remember⟩, converted.adds⟩
  | some parent =>
    have added := rcOperandAddsource_leaves allocates _ converted.kept parent parse.addsourceOper _
      (if rcOperandIsFloat parse.memrefs parent then .float else .bits32)
      (more.addsource parent chain) converted.inside
    simp only [addSource, chain]
    exact ⟨⟨added.kept, (fun _ is => by cases is),
      fun parent is => by cases is; exact added.inside,
      (more.more added.adds added.kept).remember⟩, converted.adds.trans added.adds⟩

/-- A `SubSource` keeps the state leading into its pools. It converts its operand, and prepares
the chain first if there is one. -/
theorem subSource_leaves (pointer : Ref → UInt64) (parse : ParseState)
    (inward : Inward kept parse) (condition : Condition) (inner : Inner parse.memrefs condition) :
    Inward kept (subSource pointer parse condition) ∧
      Adds parse.memrefs (subSource pointer parse condition).memrefs := by
  cases chain : parse.addsourceParent with
  | none =>
    have converted :=
      rcConditionConvertToOperand_leaves allocates parse.memrefs inward.kept condition inner
    have more := inward.more converted.adds converted.kept
    simp only [subSource, chain]
    exact ⟨⟨converted.kept, (fun _ is => by cases is),
      fun parent is => by cases is; exact converted.inside, more.remember⟩, converted.adds⟩
  | some parent =>
    have before := beforeSubtracting_leaves allocates pointer parse.memrefs inward.kept parent
      parse.addsourceOper (inward.addsource parent chain)
    have moved : ∀ source, Source.Inside parse.memrefs source → Source.Inside _ source :=
      fun source => before.adds.extends.inside source
    have converted := rcConditionConvertToOperand_leaves allocates _ before.kept condition
      ⟨moved _ inner.operand1, moved _ inner.operand2⟩
    have added := rcOperandAddsource_leaves allocates _ converted.kept _
      (if rcOperandIsMemref (beforeSubtracting pointer parse.memrefs parent parse.addsourceOper).2
        then .subAccumulator else .subParent) _
      (if rcOperandIsFloat parse.memrefs parent then .float else .bits32)
      (converted.adds.extends.inside _ before.inside) converted.inside
    have adds := (before.adds.trans converted.adds).trans added.adds
    simp only [subSource, chain]
    exact ⟨⟨added.kept, (fun _ is => by cases is),
      fun parent is => by cases is; exact added.inside,
      (inward.more adds added.kept).remember⟩, adds⟩

/-- A closed chain leads into the pools: its operand is the pending sum and the condition's
own. -/
theorem closed_leaves (parse : ParseState) (inward : Inward kept parse) (memrefs : Memrefs)
    (adds : Adds parse.memrefs memrefs) (before : kept memrefs) (oper : Operator)
    (operand : Operand) (inside : Source.Inside memrefs operand.source) :
    Leaves kept memrefs (closed parse memrefs oper operand) := by
  cases chain : parse.addsourceParent with
  | none =>
    simp only [closed, chain]
    exact ⟨.refl memrefs, before, inside⟩
  | some parent =>
    have added := rcOperandAddsource_leaves allocates memrefs before parent oper operand
      (Conditions.sizeOf operand) ((inward.more adds before).addsource parent chain) inside
    simp only [closed, chain]
    exact ⟨added.adds, added.kept, added.inside⟩

/-- A condition keeps what its allocations keep: whatever its type, each of its operands is made
from operands that lead into the pools. -/
theorem rcConditionUpdateParseState_leaves (pointer : Ref → UInt64) (parse : ParseState)
    (inward : Inward kept parse) (condition : Condition) (inner : Inner parse.memrefs condition) :
    let updated := rcConditionUpdateParseState pointer parse condition
    Inward kept updated.1 ∧ Adds parse.memrefs updated.1.memrefs ∧
      Inner updated.1.memrefs updated.2 := by
  have converted :=
    rcConditionConvertToOperand_leaves allocates parse.memrefs inward.kept condition inner
  have more := inward.more converted.adds converted.kept
  have grown : ∀ memrefs, Adds parse.memrefs memrefs → Inner memrefs condition :=
    fun memrefs adds =>
      ⟨adds.extends.inside _ inner.operand1, adds.extends.inside _ inner.operand2⟩
  dsimp only
  rw [rcConditionUpdateParseState]
  split
  next =>
    exact ⟨⟨converted.kept, fun parent is => by cases is; exact converted.inside, more.addsource,
      more.remember⟩, converted.adds, grown _ converted.adds⟩
  next =>
    obtain ⟨next, adds⟩ := addSource_leaves allocates parse inward condition inner
    exact ⟨next, adds, grown _ adds⟩
  next =>
    obtain ⟨next, adds⟩ := subSource_leaves allocates pointer parse inward condition inner
    exact ⟨next, adds, grown _ adds⟩
  next =>
    split
    next => exact ⟨inward, .refl _, inner⟩
    next =>
      have chain := closed_leaves allocates parse inward _ converted.adds converted.kept
        parse.addsourceOper _ converted.inside
      have adds := converted.adds.trans chain.adds
      exact ⟨⟨chain.kept, (fun _ is => by cases is), (fun _ is => by cases is),
        fun operand is => by cases is; exact chain.inside⟩, adds,
        chain.inside, (grown _ adds).operand2⟩
  next =>
    have start : Leaves kept parse.memrefs
        (if condition.type = .measured ∧ parse.isValue ∧ rcOperatorIsModifying condition.oper then
          rcConditionConvertToOperand parse.memrefs condition
        else (parse.memrefs, condition.operand1)) := by
      split
      next => exact converted
      next => exact ⟨.refl _, inward.kept, inner.operand1⟩
    have chain := closed_leaves allocates parse inward _ start.adds start.kept
      (if parse.addsourceOper = .addAccumulator then .add else parse.addsourceOper) _ start.inside
    have adds := start.adds.trans chain.adds
    have same : ∀ (memrefs : Memrefs) (condition : Condition),
        let kept := if parse.addsourceParent.isSome then chosen memrefs condition else condition
        kept.operand1 = condition.operand1 ∧ kept.operand2 = condition.operand2 := by
      intro memrefs condition
      dsimp only
      split
      next => exact ⟨rfl, rfl⟩
      next => exact ⟨rfl, rfl⟩
    refine ⟨⟨chain.kept, (fun _ is => by cases is), (fun _ is => by cases is),
      (inward.more adds chain.kept).remember⟩, adds, ?_, ?_⟩
    · rw [(same _ _).1]
      exact chain.inside
    · rw [(same _ _).2]
      exact (grown _ adds).operand2

/-- So does any number of conditions. The induction is on their texts, and carries that the
operands that are left for the next condition lead into the pools. -/
theorem parseConditions_leaves (pointer : Ref → UInt64) (texts : List ConditionText)
    (parse : ParseState) (inward : Inward kept parse) :
    let parsed := parseConditions pointer parse texts
    Inward kept parsed.1 ∧ Adds parse.memrefs parsed.1.memrefs ∧
      ∀ condition ∈ parsed.2, Inner parsed.1.memrefs condition := by
  induction texts generalizing parse with
  | nil => exact ⟨inward, .refl _, fun _ member => absurd member List.not_mem_nil⟩
  | cons text texts inductionHypothesis =>
    obtain ⟨start, adds, inner⟩ := rcParseConditionInternal_leaves allocates parse inward text
    obtain ⟨next, adds', inner'⟩ :=
      rcConditionUpdateParseState_leaves allocates pointer _ start _ inner
    obtain ⟨last, adds'', inner''⟩ := inductionHypothesis _ next
    refine ⟨last, (adds.trans adds').trans adds'', fun condition member => ?_⟩
    obtain rfl | later := List.mem_cons.mp member
    · exact ⟨adds''.extends.inside _ inner'.operand1, adds''.extends.inside _ inner'.operand2⟩
    · exact inner'' condition later

end Parsing

/-! ## What is compared -/

/-- A prefix of the plain references is read the same: an operand that leads into it finds the
same reference in the larger pools. -/
theorem plainRead_adds {memrefs more : Memrefs} (adds : Adds memrefs more) (operand : Operand)
    (inside : ∀ access index size, operand.source = .memref access (.memref index) size →
      index < memrefs.memrefs.length) : plainRead more operand = plainRead memrefs operand := by
  obtain ⟨source, recalled, isCombining⟩ := operand
  match source with
  | .memref access (.memref index) size =>
    have within := inside access index size rfl
    have same : more.memrefs[index]? = memrefs.memrefs[index]? := by
      rw [List.getElem?_eq_getElem within,
        List.getElem?_eq_getElem (Nat.lt_of_lt_of_le within adds.memrefs.length_le)]
      exact congrArg some (adds.memrefs.getElem within).symm
    cases access <;> cases recalled <;> simp only [plainRead, same]
  | .memref access (.modified index) size => cases access <;> cases recalled <;> rfl
  | .const _ | .fp _ | .func | .nothing => rfl

/-- More references do not change what a parsed operand leads to. -/
theorem Parsed.more {memrefs more : Memrefs} (adds : Adds memrefs more) {operand : Operand}
    (parsed : Parsed memrefs operand) : Parsed more operand where
  inside access index size source :=
    Nat.lt_of_lt_of_le (parsed.inside access index size source) adds.memrefs.length_le
  shared read plain :=
    parsed.shared read (by rwa [plainRead_adds adds operand parsed.inside] at plain)

/-- An operand that leads to no plain reference. -/
theorem unread_parsed (memrefs : Memrefs) (operand : Operand)
    (apart : ∀ access index size, operand.source ≠ .memref access (.memref index) size) :
    Parsed memrefs operand where
  inside access index size source := absurd source (apart access index size)
  shared read plain := absurd (plainRead_some memrefs operand read plain).1 (apart _ _ _)

/-- The reference of an address and a size has that size. -/
theorem rcAllocMemref_size (memrefs : Memrefs) (address : UInt32) (size : MemSize) :
    ∃ index memref, (rcAllocMemref memrefs address size).2 = .memref index ∧
      (rcAllocMemref memrefs address size).1.memrefs[index]? = some memref ∧
        memref.value.size = size := by
  rw [rcAllocMemref]
  split
  next index found =>
    obtain ⟨inside, same, _⟩ := List.findIdx?_eq_some_iff_getElem.mp found
    exact ⟨index, _, rfl, List.getElem?_eq_getElem inside, (of_decide_eq_true same).2⟩
  next => exact ⟨_, _, rfl, List.getElem?_concat_length, rfl⟩

/-- An operand that is read by its value or its delta has a reference of the shared size. Of the
others nothing is promised: they are no plain reads. -/
theorem rcParseOperand_parsed (parse : ParseState)
    (remember : ∀ operand, parse.remember = some operand →
      Source.Inside parse.memrefs operand.source) (text : OperandText) :
    Parsed (rcParseOperand parse text).1.memrefs (rcParseOperand parse text).2 := by
  cases text with
  | memory access size address =>
    cases pointer : parse.indirectParent with
    | none =>
      obtain ⟨index, memref, place, found, sized⟩ :=
        rcAllocMemref_size parse.memrefs address (referenceSize access size)
      simp only [rcParseOperand, rcParseOperandMemory, pointer, place]
      refine ⟨fun access' index' size' same => ?_, fun read plain => ?_⟩
      · cases same
        exact (List.getElem?_eq_some_iff.mp found).1
      · obtain ⟨source, _, _, memref', found', shared⟩ := plainRead_some _ _ read plain
        obtain ⟨accesses, indices, sizes⟩ : access = read.access ∧ index = read.index ∧
            size = read.size := by simpa using source
        have unprior : read.access ≠ .prior := by
          rw [PlainRead.access]
          split <;> exact Access.noConfusion
        rw [← indices, found] at found'
        obtain rfl := Option.some.inj found'
        rw [← shared, sized, referenceSize,
          if_neg (fun prior => unprior (accesses.symm.trans prior.2.1)), sizes]
    | some parent =>
      obtain ⟨index, place⟩ : ∃ index, (rcAllocModifiedMemref parse.memrefs
          (referenceSize access size) parent .indirectRead (rcOperandSetConst address)).2 =
            .modified index := by
        rw [rcAllocModifiedMemref]
        dsimp only
        split
        next index _ => exact ⟨index, rfl⟩
        next => exact ⟨_, rfl⟩
      simp only [rcParseOperand, rcParseOperandMemory, pointer, place]
      exact unread_parsed _ _ (fun _ _ _ source => by cases source)
  | const num => exact unread_parsed _ _ (fun _ _ _ => Source.noConfusion)
  | fp dbl => exact unread_parsed _ _ (fun _ _ _ => Source.noConfusion)
  | func => exact unread_parsed _ _ (fun _ _ _ => Source.noConfusion)
  | recalled =>
    cases remembered : parse.remember with
    | none =>
      simp only [rcParseOperand, remembered]
      exact unread_parsed _ _ (fun _ _ _ => Source.noConfusion)
    | some operand =>
      simp only [rcParseOperand, remembered]
      refine ⟨fun access index size same => ?_, fun read plain => ?_⟩
      · have inside := remember operand remembered
        rw [show operand.source = .memref access (.memref index) size from same] at inside
        exact inside
      · obtain ⟨_, recalled, _⟩ := plainRead_some _ _ read plain
        cases recalled

/-- Both operands of a condition are parsed ones, so the comparator that is chosen for it decides
as the plain test does. -/
theorem rcParseConditionInternal_parsed (parse : ParseState)
    (inward : Inward (fun _ => True) parse) (text : ConditionText) :
    let parsed := rcParseConditionInternal parse text
    Parsed parsed.1.memrefs parsed.2.operand1 ∧ Parsed parsed.1.memrefs parsed.2.operand2 := by
  have allocates : Allocates (fun _ => True) :=
    ⟨fun _ _ _ _ => trivial, fun _ _ _ _ _ _ _ _ => trivial⟩
  have first := rcParseOperand_parsed parse inward.remember text.operand1
  obtain ⟨same, leaves⟩ := rcParseOperand_leaves allocates parse inward text.operand1
  have between : Inward (fun _ => True) (rcParseOperand parse text.operand1).1 := by
    rw [same]
    exact inward.more leaves.adds trivial
  have second := rcParseOperand_parsed _ between.remember text.operand2
  obtain ⟨_, later⟩ := rcParseOperand_leaves allocates _ between text.operand2
  have const : ∀ memrefs num, Parsed memrefs (rcOperandSetConst num) :=
    fun memrefs num => unread_parsed memrefs _ (fun _ _ _ => Source.noConfusion)
  dsimp only
  rw [rcParseConditionInternal]
  dsimp only
  split
  next => exact ⟨first, const _ 1⟩
  next =>
    split
    next => exact ⟨Parsed.more later.adds first, const _ 0⟩
    next => exact ⟨Parsed.more later.adds first, second⟩

/-! ## Shared references -/

/-- References that are computed in one way, from operands that read the same. -/
structure Twins (first second : ModifiedMemref) : Prop where
  size : first.memref.value.size = second.memref.value.size
  modifierType : first.modifierType = second.modifierType
  parent : Alike first.parent second.parent
  modifier : Alike first.modifier second.modifier

/-- An operand of a reference at a place leads into the pools, to earlier references, unless it
recalls. -/
def Lies (memrefs : Memrefs) (place : Nat) (operand : Operand) : Prop :=
  operand.recalled = false →
    operand.source.Before place ∧ Source.Inside memrefs operand.source

/-- Pools that share what they can. -/
structure Shares (memrefs : Memrefs) : Prop where
  unique : ∀ (i j : Nat) (first second : Memref), memrefs.memrefs[i]? = some first →
    memrefs.memrefs[j]? = some second → first.address = second.address →
      first.value.size = second.value.size → i = j
  lies : ∀ (place : Nat) (entry : ModifiedMemref), memrefs.modifiedMemrefs[place]? = some entry →
    Lies memrefs place entry.parent ∧ Lies memrefs place entry.modifier
  distinct : ∀ (i j : Nat) (first second : ModifiedMemref),
    memrefs.modifiedMemrefs[i]? = some first → memrefs.modifiedMemrefs[j]? = some second →
      Leads memrefs first.parent → Leads memrefs first.modifier → Twins first second → i = j

/-- Empty pools share everything. -/
theorem shares_empty : Shares ⟨[], []⟩ where
  unique i _ _ _ here := by
    rw [List.getElem?_nil] at here
    cases here
  lies place _ found := by
    rw [List.getElem?_nil] at found
    cases found
  distinct i _ _ _ here := by
    rw [List.getElem?_nil] at here
    cases here

/-- In pools that share, every reference reads earlier ones, unless it recalls. -/
theorem Shares.forward {memrefs : Memrefs} (shares : Shares memrefs) : Forward memrefs :=
  fun place entry found =>
    ⟨fun plain => ((shares.lies place entry found).1 plain).1,
      fun plain => ((shares.lies place entry found).2 plain).1⟩

/-- What leads to memory in larger pools does so in the smaller ones that it leads into. The
induction is along what it leads to, none of which recalls anything. -/
theorem Leads.shrink {before : Memrefs} (shares : Shares before) (added : List Memref)
    (computed : List ModifiedMemref) {operand : Operand}
    (leads : Leads ⟨before.memrefs ++ added, before.modifiedMemrefs ++ computed⟩ operand)
    (inside : Source.Inside before operand.source) : Leads before operand := by
  induction leads with
  | const num isCombining => exact .const num isCombining
  | memref access index size isCombining _ => exact .memref access index size isCombining inside
  | modified access index size isCombining entry found parent modifier parentHypothesis
      modifierHypothesis =>
    have old : before.modifiedMemrefs[index]? = some entry := by
      rwa [List.getElem?_append_left inside] at found
    obtain ⟨parentLies, modifierLies⟩ := shares.lies index entry old
    exact .modified access index size isCombining entry old
      (parentHypothesis (parentLies parent.recalled).2)
      (modifierHypothesis (modifierLies modifier.recalled).2)

/-- An operand that lies before a place does so in larger pools. -/
theorem Lies.more {memrefs more : Memrefs} (adds : Adds memrefs more) {place : Nat}
    {operand : Operand} (lies : Lies memrefs place operand) : Lies more place operand :=
  fun plain => ⟨(lies plain).1, adds.extends.inside _ (lies plain).2⟩

/-- A plain reference that is added has an address or a size of its own: it is only added when the
search for both has found none. -/
theorem rcAllocMemref_shares (memrefs : Memrefs) (address : UInt32) (size : MemSize)
    (shares : Shares memrefs) : Shares (rcAllocMemref memrefs address size).1 := by
  have adds := (rcAllocMemref_adds memrefs address size).1
  rw [rcAllocMemref] at adds ⊢
  split at adds
  next => exact shares
  next missing =>
    have apart := List.findIdx?_eq_none_iff.mp missing
    have fresh : ∀ (i : Nat) (memref : Memref), memrefs.memrefs[i]? = some memref →
        memref.address = address → memref.value.size ≠ size := by
      intro i memref found same
      have differ := apart memref (List.mem_of_getElem? found)
      simp only [same, true_and, decide_eq_false_iff_not] at differ
      exact differ
    refine ⟨fun i j first second here there addresses sizes => ?_, fun place entry found => ?_,
      fun i j first second here there parent modifier twins => ?_⟩
    · rw [List.getElem?_append] at here there
      split at here <;> split at there
      next => exact shares.unique i j first second here there addresses sizes
      next =>
        obtain ⟨_, rfl⟩ := List.getElem?_eq_some_iff.mp there
        rw [List.getElem_singleton] at addresses sizes
        exact absurd sizes (fresh i first here addresses)
      next =>
        obtain ⟨_, rfl⟩ := List.getElem?_eq_some_iff.mp here
        rw [List.getElem_singleton] at addresses sizes
        exact absurd sizes.symm (fresh j second there addresses.symm)
      next =>
        obtain ⟨first', _⟩ := List.getElem?_eq_some_iff.mp here
        obtain ⟨second', _⟩ := List.getElem?_eq_some_iff.mp there
        rw [List.length_singleton] at first' second'
        omega
    · obtain ⟨parent, modifier⟩ := shares.lies place entry found
      exact ⟨parent.more adds, modifier.more adds⟩
    · obtain ⟨parentLies, modifierLies⟩ := shares.lies i first here
      rw [← List.append_nil memrefs.modifiedMemrefs] at parent modifier
      exact shares.distinct i j first second here there
        (Leads.shrink shares _ [] parent (parentLies parent.recalled).2)
        (Leads.shrink shares _ [] modifier (modifierLies modifier.recalled).2) twins

/-- References are computed in one way whichever is named first. -/
theorem Twins.symm {first second : ModifiedMemref} (twins : Twins first second) :
    Twins second first :=
  ⟨twins.size.symm, twins.modifierType.symm, twins.parent.symm, twins.modifier.symm⟩

/-- A computed reference that the search does not find has no twin there: operands that read the
same and lead to memory compare equal (`rcOperandsAreEqual_alike`). -/
theorem missing_alone (memrefs : Memrefs) (shares : Shares memrefs) (added : ModifiedMemref)
    (parentInside : Source.Inside memrefs added.parent.source)
    (modifierInside : Source.Inside memrefs added.modifier.source)
    (missing : ∀ entry ∈ memrefs.modifiedMemrefs,
      ¬ (entry.memref.value.size = added.memref.value.size ∧
        entry.modifierType = added.modifierType ∧
        rcOperandsAreEqual memrefs memrefs.modifiedMemrefs.length entry.parent added.parent = true ∧
        rcOperandsAreEqual memrefs memrefs.modifiedMemrefs.length entry.modifier
          added.modifier = true))
    (entry : ModifiedMemref) (member : entry ∈ memrefs.modifiedMemrefs)
    (leadsParent : Leads memrefs entry.parent) (leadsModifier : Leads memrefs entry.modifier) :
    ¬ Twins entry added := by
  intro twins
  have parents := rcOperandsAreEqual_alike memrefs shares.forward memrefs.modifiedMemrefs.length
    entry.parent added.parent (leadsParent.alike twins.parent.symm) twins.parent
    (inside_before memrefs _ parentInside)
  have modifiers := rcOperandsAreEqual_alike memrefs shares.forward memrefs.modifiedMemrefs.length
    entry.modifier added.modifier (leadsModifier.alike twins.modifier.symm) twins.modifier
    (inside_before memrefs _ modifierInside)
  exact missing entry member ⟨twins.size, twins.modifierType, parents, modifiers⟩

/-- Pools with a computed reference more, which leads into them and has no twin there. The operands
that were there lead to memory in the larger pools only if they did so before. -/
theorem Shares.append {memrefs : Memrefs} (shares : Shares memrefs) (added : ModifiedMemref)
    (parentInside : Source.Inside memrefs added.parent.source)
    (modifierInside : Source.Inside memrefs added.modifier.source)
    (alone : ∀ entry ∈ memrefs.modifiedMemrefs, Leads memrefs entry.parent →
      Leads memrefs entry.modifier → ¬ Twins entry added) :
    Shares ⟨memrefs.memrefs, memrefs.modifiedMemrefs ++ [added]⟩ := by
  have adds : Adds memrefs ⟨memrefs.memrefs, memrefs.modifiedMemrefs ++ [added]⟩ :=
    ⟨List.prefix_refl _, List.prefix_append _ _⟩
  have old : ∀ (i : Nat) (entry : ModifiedMemref), memrefs.modifiedMemrefs[i]? = some entry →
      ∀ operand, (operand = entry.parent ∨ operand = entry.modifier) →
        Leads ⟨memrefs.memrefs, memrefs.modifiedMemrefs ++ [added]⟩ operand →
          Leads memrefs operand := by
    intro i entry found operand which leads
    obtain ⟨parentLies, modifierLies⟩ := shares.lies i entry found
    rw [← List.append_nil memrefs.memrefs] at leads
    refine Leads.shrink shares [] [added] leads ?_
    obtain rfl | rfl := which
    · exact (parentLies leads.recalled).2
    · exact (modifierLies leads.recalled).2
  refine ⟨shares.unique, fun place entry found => ?_,
    fun i j first second here there leadsParent leadsModifier twins => ?_⟩
  · rw [List.getElem?_append] at found
    split at found
    next =>
      obtain ⟨parentLies, modifierLies⟩ := shares.lies place entry found
      exact ⟨parentLies.more adds, modifierLies.more adds⟩
    next =>
      obtain ⟨here, rfl⟩ := List.getElem?_eq_some_iff.mp found
      rw [List.length_singleton] at here
      have last : place = memrefs.modifiedMemrefs.length := by omega
      rw [List.getElem_singleton, last]
      exact ⟨fun _ => ⟨inside_before memrefs _ parentInside, adds.extends.inside _ parentInside⟩,
        fun _ => ⟨inside_before memrefs _ modifierInside, adds.extends.inside _ modifierInside⟩⟩
  · rw [List.getElem?_append] at here there
    split at here <;> split at there
    next =>
      exact shares.distinct i j first second here there
        (old i first here _ (Or.inl rfl) leadsParent)
        (old i first here _ (Or.inr rfl) leadsModifier) twins
    next =>
      obtain ⟨_, rfl⟩ := List.getElem?_eq_some_iff.mp there
      rw [List.getElem_singleton] at twins
      exact absurd twins (alone first (List.mem_of_getElem? here)
        (old i first here _ (Or.inl rfl) leadsParent)
        (old i first here _ (Or.inr rfl) leadsModifier))
    next =>
      obtain ⟨_, rfl⟩ := List.getElem?_eq_some_iff.mp here
      rw [List.getElem_singleton] at twins leadsParent leadsModifier
      exact absurd twins.symm (alone second (List.mem_of_getElem? there)
        (old j second there _ (Or.inl rfl) (leadsParent.alike twins.parent.symm))
        (old j second there _ (Or.inr rfl) (leadsModifier.alike twins.modifier.symm)))
    next =>
      obtain ⟨first', _⟩ := List.getElem?_eq_some_iff.mp here
      obtain ⟨second', _⟩ := List.getElem?_eq_some_iff.mp there
      rw [List.length_singleton] at first' second'
      omega

/-- A computed reference that is added has no twin: the search for one would have found it, since
operands that are alike compare equal. -/
theorem rcAllocModifiedMemref_shares (memrefs : Memrefs) (size : MemSize) (parent : Operand)
    (modifierType : Operator) (modifier : Operand) (shares : Shares memrefs)
    (parentInside : Source.Inside memrefs parent.source)
    (modifierInside : Source.Inside memrefs modifier.source) :
    Shares (rcAllocModifiedMemref memrefs size parent modifierType modifier).1 := by
  rw [rcAllocModifiedMemref]
  dsimp only
  split
  next => exact shares
  next missing =>
    have apart := List.findIdx?_eq_none_iff.mp missing
    refine shares.append _ parentInside modifierInside ?_
    refine missing_alone memrefs shares _ parentInside modifierInside ?_
    intro entry member
    simpa using apart entry member

/-- Allocations keep pools sharing: a plain reference is looked up by address and size, and a
computed one by what it computes, before a new one is added. -/
theorem shares_allocates : Allocates Shares :=
  ⟨rcAllocMemref_shares, rcAllocModifiedMemref_shares⟩

/-- Allocation keeps the order of the pools, whatever recalls. -/
theorem ordered_allocates : Allocates Memrefs.Ordered where
  memref memrefs address size ordered :=
    change_ordered memrefs ordered (.memref address size) trivial
  modified memrefs size parent modifierType modifier ordered parentInside modifierInside :=
    change_ordered memrefs ordered (.modified size parent modifierType modifier)
      ⟨inside_before memrefs _ parentInside, inside_before memrefs _ modifierInside⟩

/-! ## Pools that are rewritten -/

/-- An operand that stays, or one that recalls something else. -/
def Recalls (before after : Operand) : Prop :=
  after = before ∨ (before.recalled = true ∧ after.recalled = true)

/-- What recalls a recalled operand recalls the first. -/
theorem Recalls.trans {first second third : Operand} (one : Recalls first second)
    (two : Recalls second third) : Recalls first third := by
  obtain rfl | ⟨recalled, recalled'⟩ := two
  · exact one
  · obtain rfl | ⟨recalled'', _⟩ := one
    · exact Or.inr ⟨recalled, recalled'⟩
    · exact Or.inr ⟨recalled'', recalled'⟩

/-- Recalling operands stand for each other. -/
theorem Recalls.symm {first second : Operand} (recalls : Recalls first second) :
    Recalls second first :=
  recalls.imp Eq.symm And.symm

/-- An operand that recalls nothing is the one that was there. -/
theorem Recalls.plain {before after : Operand} (recalls : Recalls before after)
    (plain : after.recalled = false) : before = after := by
  obtain same | ⟨_, recalled⟩ := recalls
  · exact same.symm
  · rw [plain] at recalled
    cases recalled

/-- What a plain reference is found by. -/
def keyOf (memref : Memref) : UInt32 × MemSize := (memref.address, memref.value.size)

/-- Pools that differ by what their references hold, and by what recalled operands recall. -/
structure Rewritten (before after : Memrefs) : Prop where
  memrefs : ∀ index : Nat, after.memrefs[index]?.map keyOf = before.memrefs[index]?.map keyOf
  modified : ∀ (index : Nat) (entry : ModifiedMemref),
    after.modifiedMemrefs[index]? = some entry →
      ∃ old, before.modifiedMemrefs[index]? = some old ∧
        entry.memref.value.size = old.memref.value.size ∧ entry.modifierType = old.modifierType ∧
          Recalls old.parent entry.parent ∧ Recalls old.modifier entry.modifier

/-- Pools are rewritten to themselves. -/
theorem Rewritten.refl (memrefs : Memrefs) : Rewritten memrefs memrefs :=
  ⟨fun _ => rfl, fun _ entry found => ⟨entry, found, rfl, rfl, Or.inl rfl, Or.inl rfl⟩⟩

/-- Pools that are rewritten twice are rewritten. -/
theorem Rewritten.trans {first second third : Memrefs} (one : Rewritten first second)
    (two : Rewritten second third) : Rewritten first third := by
  refine ⟨fun index => (two.memrefs index).trans (one.memrefs index), fun index entry found => ?_⟩
  obtain ⟨middle, found', size, type, parent, modifier⟩ := two.modified index entry found
  obtain ⟨old, found'', size', type', parent', modifier'⟩ := one.modified index middle found'
  exact ⟨old, found'', size.trans size', type.trans type', parent'.trans parent,
    modifier'.trans modifier⟩

/-- Rewriting adds no plain reference and takes none away. -/
theorem Rewritten.lengths {before after : Memrefs} (rewritten : Rewritten before after) :
    after.memrefs.length = before.memrefs.length := by
  have both : ∀ index : Nat, after.memrefs.length ≤ index ↔ before.memrefs.length ≤ index := by
    intro index
    have same := rewritten.memrefs index
    rw [← List.getElem?_eq_none_iff, ← List.getElem?_eq_none_iff, ← Option.map_eq_none_iff, same,
      Option.map_eq_none_iff]
  exact Nat.le_antisymm ((both _).mpr (Nat.le_refl _)) ((both _).mp (Nat.le_refl _))

/-- An operand that leads to memory leads to the same memory before, for nothing on the way
recalls. -/
theorem Rewritten.leads {before after : Memrefs} (rewritten : Rewritten before after)
    {operand : Operand} (leads : Leads after operand) : Leads before operand := by
  induction leads with
  | const num isCombining => exact .const num isCombining
  | memref access index size isCombining inside =>
    exact .memref access index size isCombining (rewritten.lengths ▸ inside)
  | modified access index size isCombining entry found parent modifier parentHypothesis
      modifierHypothesis =>
    obtain ⟨old, found', _, _, parents, modifiers⟩ := rewritten.modified index entry found
    rw [← parents.plain parent.recalled] at parentHypothesis
    rw [← modifiers.plain modifier.recalled] at modifierHypothesis
    exact .modified access index size isCombining old found' parentHypothesis modifierHypothesis

/-- Rewriting keeps what is shared: it changes none of the operands by which references are
told apart. -/
theorem Rewritten.shares {before after : Memrefs} (rewritten : Rewritten before after)
    (shares : Shares before) : Shares after := by
  have plain : ∀ (i : Nat) (memref : Memref), after.memrefs[i]? = some memref →
      ∃ old, before.memrefs[i]? = some old ∧ old.address = memref.address ∧
        old.value.size = memref.value.size := by
    intro i memref found
    have same := rewritten.memrefs i
    rw [found, Option.map_some] at same
    obtain ⟨old, found', equal⟩ := Option.map_eq_some_iff.mp same.symm
    obtain ⟨address, size⟩ := Prod.mk.inj equal
    exact ⟨old, found', address, size⟩
  have lies : ∀ (place : Nat) (old new : Operand), place < after.modifiedMemrefs.length →
      Recalls old new → Lies before place old → Lies after place new := by
    intro place old new within recalls lies unrecalled
    have same := recalls.plain unrecalled
    subst same
    obtain ⟨earlier, inside⟩ := lies unrecalled
    refine ⟨earlier, ?_⟩
    match source : old.source with
    | .memref _ (.memref index) _ =>
      rw [source] at inside
      show index < after.memrefs.length
      rw [rewritten.lengths]
      exact inside
    | .memref _ (.modified index) _ =>
      rw [source] at earlier
      exact Nat.lt_trans earlier within
    | .const _ | .fp _ | .func | .nothing => trivial
  refine ⟨fun i j first second here there addresses sizes => ?_, fun place entry found => ?_,
    fun i j first second here there parent modifier twins => ?_⟩
  · obtain ⟨old, found, address, size⟩ := plain i first here
    obtain ⟨old', found', address', size'⟩ := plain j second there
    exact shares.unique i j old old' found found' (address.trans (addresses.trans address'.symm))
      (size.trans (sizes.trans size'.symm))
  · obtain ⟨old, found', _, _, parents, modifiers⟩ := rewritten.modified place entry found
    obtain ⟨parentLies, modifierLies⟩ := shares.lies place old found'
    have within := (List.getElem?_eq_some_iff.mp found).1
    exact ⟨lies place _ _ within parents parentLies, lies place _ _ within modifiers modifierLies⟩
  · obtain ⟨old, found, size, type, parents, modifiers⟩ := rewritten.modified i first here
    obtain ⟨old', found', size', type', parents', modifiers'⟩ := rewritten.modified j second there
    have sameParent := parents.plain parent.recalled
    have sameParent' := parents'.plain (twins.parent.recalled.symm.trans parent.recalled)
    have sameModifier := modifiers.plain modifier.recalled
    have sameModifier' := modifiers'.plain (twins.modifier.recalled.symm.trans modifier.recalled)
    refine shares.distinct i j old old' found found' ?_ ?_ ⟨?_, ?_, ?_, ?_⟩
    · exact sameParent ▸ rewritten.leads parent
    · exact sameModifier ▸ rewritten.leads modifier
    · exact size.symm.trans (twins.size.trans size')
    · exact type.symm.trans (twins.modifierType.trans type')
    · rw [sameParent, sameParent']
      exact twins.parent
    · rw [sameModifier, sameModifier']
      exact twins.modifier

/-- A frame rewrites no operand. It updates values one after the other, and every entry keeps its
size, its operator and both of its operands. -/
theorem rcUpdateMemrefValues_rewritten (memrefs : Memrefs) (peek : RcPeek) :
    Rewritten memrefs (rcUpdateMemrefValues memrefs peek) := by
  have step : ∀ (pools : Memrefs) (index : Nat),
      Rewritten pools (updateModified peek pools index) := by
    intro pools index
    obtain ⟨same, others⟩ := updateModified_frame peek pools index
    refine ⟨fun place => by rw [same], fun place entry found => ?_⟩
    by_cases here : place = index
    · subst here
      rw [updateModified_entry] at found
      obtain ⟨old, found', rfl⟩ := Option.map_eq_some_iff.mp found
      exact ⟨old, found', (rcUpdateMemrefValue_kind _ _).1, rfl, Or.inl rfl, Or.inl rfl⟩
    · rw [others place here] at found
      exact ⟨entry, found, rfl, rfl, Or.inl rfl, Or.inl rfl⟩
  have read : Rewritten memrefs
      { memrefs with memrefs := memrefs.memrefs.map (updateMemref peek) } := by
    refine ⟨fun place => ?_,
      fun place entry found => ⟨entry, found, rfl, rfl, Or.inl rfl, Or.inl rfl⟩⟩
    rw [List.getElem?_map, Option.map_map]
    refine congrArg (fun shown => (memrefs.memrefs[place]?).map shown) (funext fun memref => ?_)
    rw [Function.comp_apply, updateMemref, keyOf, keyOf]
    split
    next => rw [(rcUpdateMemrefValue_kind _ _).1]
    next => rfl
  have pass : ∀ (count : Nat) (pools : Memrefs),
      Rewritten pools ((List.range count).foldl (updateModified peek) pools) := by
    intro count pools
    induction count with
    | zero => exact .refl pools
    | succ count inductionHypothesis =>
      rw [List.range_succ, List.foldl_append]
      exact inductionHypothesis.trans (step _ count)
  exact read.trans (pass _ _)

/-- Putting one recalling operand for another as a parent rewrites the pools. -/
theorem withParent_rewritten (memrefs : Memrefs) (index : Nat) (parent : Operand)
    (recalls : ∀ entry, memrefs.modifiedMemrefs[index]? = some entry →
      Recalls entry.parent parent) :
    Rewritten memrefs (withParent memrefs index parent) := by
  refine ⟨fun _ => rfl, fun place entry found => ?_⟩
  rw [withParent, List.getElem?_modify] at found
  obtain ⟨old, found', rfl⟩ := Option.map_eq_some_iff.mp found
  refine ⟨old, found', ?_⟩
  split
  next here => exact ⟨rfl, rfl, recalls old (here ▸ found'), Or.inl rfl⟩
  next => exact ⟨rfl, rfl, Or.inl rfl, Or.inl rfl⟩

/-- Putting one recalling operand for another as a modifier rewrites the pools. -/
theorem withModifier_rewritten (memrefs : Memrefs) (index : Nat) (modifier : Operand)
    (recalls : ∀ entry, memrefs.modifiedMemrefs[index]? = some entry →
      Recalls entry.modifier modifier) :
    Rewritten memrefs (withModifier memrefs index modifier) := by
  refine ⟨fun _ => rfl, fun place entry found => ?_⟩
  rw [withModifier, List.getElem?_modify] at found
  obtain ⟨old, found', rfl⟩ := Option.map_eq_some_iff.mp found
  refine ⟨old, found', ?_⟩
  split
  next here => exact ⟨rfl, rfl, Or.inl rfl, recalls old (here ▸ found')⟩
  next => exact ⟨rfl, rfl, Or.inl rfl, Or.inl rfl⟩

/-- What is recalled for a pause rewrites recalled operands only. The induction is on the depth:
an operand that recalls nothing stays, and so does what it reads, but for what that recalls. -/
theorem rcConditionUpdateRecallOperand_rewritten (remember : Operand) (depth : Nat)
    (memrefs : Memrefs) (operand : Operand) :
    let updated := rcConditionUpdateRecallOperand remember memrefs depth operand
    Rewritten memrefs updated.1 ∧ Recalls operand updated.2 := by
  induction depth generalizing memrefs operand with
  | zero =>
    dsimp only
    rw [rcConditionUpdateRecallOperand.eq_def]
    split
    next recalled =>
      split
      next => exact ⟨.refl memrefs, Or.inr ⟨recalled, rfl⟩⟩
      next => exact ⟨.refl memrefs, Or.inl rfl⟩
    next => exact ⟨.refl memrefs, Or.inl rfl⟩
  | succ depth inductionHypothesis =>
    dsimp only
    rw [rcConditionUpdateRecallOperand.eq_def]
    split
    next recalled =>
      split
      next => exact ⟨.refl memrefs, Or.inr ⟨recalled, rfl⟩⟩
      next => exact ⟨.refl memrefs, Or.inl rfl⟩
    next =>
      split
      next depth' _ index _ deep _ =>
        obtain rfl : depth = depth' := Nat.succ.inj deep
        split
        next => exact ⟨.refl memrefs, Or.inl rfl⟩
        next entry found =>
          obtain ⟨first, parents⟩ := inductionHypothesis memrefs entry.parent
          have parentStep := withParent_rewritten _ index
            (rcConditionUpdateRecallOperand remember memrefs depth entry.parent).2
            (fun entry' found' => by
              obtain ⟨old, there, _, _, kept, _⟩ := first.modified index entry' found'
              rw [found] at there
              obtain rfl := Option.some.inj there
              exact kept.symm.trans parents)
          have before := first.trans parentStep
          obtain ⟨second, modifiers⟩ := inductionHypothesis (withParent _ index
            (rcConditionUpdateRecallOperand remember memrefs depth entry.parent).2) entry.modifier
          have both := before.trans second
          have modifierStep := withModifier_rewritten _ index _ (fun entry' found' => by
            obtain ⟨old, there, _, _, _, kept⟩ := both.modified index entry' found'
            rw [found] at there
            obtain rfl := Option.some.inj there
            exact kept.symm.trans modifiers)
          exact ⟨both.trans modifierStep, Or.inl rfl⟩
      next => exact ⟨.refl memrefs, Or.inl rfl⟩

/-- Handing a pausing `Remember` to the conditions behind it rewrites the pools: each recalled
operand is recalled anew. -/
theorem recallPaused_rewritten (remember : Operand)
    (conditions : List (Classification × Condition)) (memrefs : Memrefs) :
    Rewritten memrefs (recallPaused remember memrefs conditions).1 := by
  induction conditions generalizing memrefs with
  | nil => exact .refl memrefs
  | cons entry conditions inductionHypothesis =>
    obtain ⟨classification, condition⟩ := entry
    have first := (rcConditionUpdateRecallOperand_rewritten remember
      memrefs.modifiedMemrefs.length memrefs condition.operand1).1
    have both := first.trans (rcConditionUpdateRecallOperand_rewritten remember
      memrefs.modifiedMemrefs.length _ condition.operand2).1
    rw [recallPaused]
    dsimp only
    split
    next =>
      split
      next => exact .refl memrefs
      next => exact both
    next =>
      split
      next => exact inductionHypothesis memrefs
      next => exact both.trans (inductionHypothesis _)

/-- The last step of parsing a set only rewrites what is recalled. -/
theorem rcParseCondset_rewritten (pointer : Ref → UInt64) (memrefs : Memrefs) (isValue : Bool)
    (texts : List ConditionText) :
    Rewritten (parseConditions pointer (.begun memrefs isValue) texts).1.memrefs
      (rcParseCondset pointer memrefs isValue texts).1 := by
  rw [rcParseCondset]
  dsimp only
  split
  next =>
    rw [rcUpdateConditionPauseRemember]
    split
    next => exact recallPaused_rewritten _ _ _
    next => exact .refl _
  next => exact .refl _

/-! ## Runs -/

/-- What happens to the pools: a set is parsed, or a frame passes. -/
inductive Event
  | set (isValue : Bool) (texts : List ConditionText)
  | frame (peek : RcPeek)

/-- The pools after an event. -/
def handle (pointer : Ref → UInt64) (memrefs : Memrefs) : Event → Memrefs
  | .set isValue texts => (rcParseCondset pointer memrefs isValue texts).1
  | .frame peek => rcUpdateMemrefValues memrefs peek

/-- The pools after some events. -/
def after (pointer : Ref → UInt64) (memrefs : Memrefs) (events : List Event) : Memrefs :=
  events.foldl (handle pointer) memrefs

/-- In no set that is parsed a pausing condition remembers. -/
def Event.Unpaused : Event → Prop
  | .set _ texts => remembersPaused (texts.map ConditionText.type) = false
  | .frame _ => True

/-- Every set that is parsed is regular, and no pausing condition in it remembers. -/
def Event.Regular : Event → Prop
  | .set _ texts => (∀ text ∈ texts, NoMercyRecomp.ParsedConditions.Regular text) ∧
      remembersPaused (texts.map ConditionText.type) = false
  | .frame _ => True

/-- No frame passes. -/
def Event.Quiet : Event → Prop
  | .set _ _ => True
  | .frame _ => False

/-- The state in which a set is begun leads nowhere: nothing is pending. -/
theorem begun_inward {kept : Memrefs → Prop} (memrefs : Memrefs) (before : kept memrefs)
    (isValue : Bool) : Inward kept (ParseState.begun memrefs isValue) where
  kept := before
  indirect := nofun
  addsource := nofun
  remember := nofun

/-- Whatever happens, the pools share what they can. The induction is on the events: allocation
keeps it, and what a frame or the end of a set does only rewrites the pools. -/
theorem after_keeps (pointer : Ref → UInt64) (events : List Event) (memrefs : Memrefs)
    (shares : Shares memrefs) : Shares (after pointer memrefs events) := by
  induction events generalizing memrefs with
  | nil => exact shares
  | cons event events inductionHypothesis =>
    refine inductionHypothesis (handle pointer memrefs event) ?_
    cases event with
    | set isValue texts =>
      obtain ⟨parsed, _⟩ := parseConditions_leaves shares_allocates pointer texts _
        (begun_inward memrefs shares isValue)
      exact (rcParseCondset_rewritten pointer memrefs isValue texts).shares parsed.kept
    | frame peek => exact (rcUpdateMemrefValues_rewritten memrefs peek).shares shares

/-- Where no pausing condition remembers, every computed reference comes behind all that it
reads. -/
theorem after_ordered (pointer : Ref → UInt64) (events : List Event)
    (unpaused : ∀ event ∈ events, Event.Unpaused event) (memrefs : Memrefs)
    (ordered : memrefs.Ordered) : (after pointer memrefs events).Ordered := by
  induction events generalizing memrefs with
  | nil => exact ordered
  | cons event events inductionHypothesis =>
    refine inductionHypothesis (fun later member =>
      unpaused later (List.mem_cons_of_mem event member))
      (handle pointer memrefs event) ?_
    cases event with
    | set isValue texts =>
      obtain ⟨parsed, _⟩ := parseConditions_leaves ordered_allocates pointer texts _
        (begun_inward memrefs ordered isValue)
      have same := (rcParseCondset_unpaused pointer memrefs isValue texts
        (unpaused _ List.mem_cons_self)).1
      rw [handle, same]
      exact parsed.kept
    | frame peek => exact change_ordered memrefs ordered (.frame peek) trivial

/-- However sets are parsed and frames pass: no two plain references have one address and size.
A computed reference reads only references before it, unless it recalls, and where no pausing
condition remembers also if it recalls. No two computed references are of one size and computed
in one way from operands that read the same and lead, through whatever they are computed from,
to memory and integer constants. Nothing is assumed of the sets. -/
theorem after_shares (pointer : Ref → UInt64) (events : List Event) :
    let memrefs := after pointer ⟨[], []⟩ events
    (∀ (i j : Nat) (first second : Memref), memrefs.memrefs[i]? = some first →
      memrefs.memrefs[j]? = some second → i ≠ j →
        first.address ≠ second.address ∨ first.value.size ≠ second.value.size) ∧
    (∀ (place : Nat) (entry : ModifiedMemref), memrefs.modifiedMemrefs[place]? = some entry →
      Behind place entry.parent ∧ Behind place entry.modifier) ∧
    ((∀ event ∈ events, Event.Unpaused event) → memrefs.Ordered) ∧
    ∀ (i j : Nat) (first second : ModifiedMemref), memrefs.modifiedMemrefs[i]? = some first →
      memrefs.modifiedMemrefs[j]? = some second → i ≠ j → Leads memrefs first.parent →
        Leads memrefs first.modifier →
          ¬ (first.memref.value.size = second.memref.value.size ∧
            first.modifierType = second.modifierType ∧ Alike first.parent second.parent ∧
              Alike first.modifier second.modifier) := by
  intro memrefs
  have shares := after_keeps pointer events ⟨[], []⟩ shares_empty
  have empty : Memrefs.Ordered ⟨[], []⟩ := built_empty.ordered
  refine ⟨fun i j first second here there apart => ?_, shares.forward,
    fun unpaused => after_ordered pointer events unpaused ⟨[], []⟩ empty,
    fun i j first second here there apart parent modifier same => ?_⟩
  · by_contra both
    obtain ⟨addresses, sizes⟩ := not_or.mp both
    exact apart (shares.unique i j first second here there (not_not.mp addresses)
      (not_not.mp sizes))
  · obtain ⟨sizes, types, parents, modifiers⟩ := same
    exact apart (shares.distinct i j first second here there parent modifier
      ⟨sizes, types, parents, modifiers⟩)

/-- `A:0xH0010`, `0xH0020=5`. -/
def pairText : List ConditionText :=
  [⟨.addSource, .memory .address .bits8 0x10, .none, .const 0, 0⟩,
    ⟨.standard, .memory .address .bits8 0x20, .eq, .const 5, 0⟩]

/-- `A:{recall}`, `0xH0010=5`, `K:0xH0020*2`, `P:{recall}=100`: the pause remembers. -/
def pausedText : List ConditionText :=
  [⟨.addSource, .recalled, .none, .const 0, 0⟩,
    ⟨.standard, .memory .address .bits8 0x10, .eq, .const 5, 0⟩,
    ⟨.remember, .memory .address .bits8 0x20, .mult, .const 2, 0⟩,
    ⟨.pauseIf, .recalled, .eq, .const 100, 0⟩]

-- a pair that is parsed twice has one sum
example : (after (fun _ => 0) ⟨[], []⟩ [.set false pairText, .frame (fun _ _ => 3),
    .set false pairText]).modifiedMemrefs.length = 1 := by
  decide +kernel

-- the sum with what was recalled before the pause comes to read the reference behind it
example : (after (fun _ => 0) ⟨[], []⟩ [.set false pausedText]).modifiedMemrefs.map
      (fun entry => (entry.parent.recalled, match entry.parent.source with
        | .memref _ (.modified index) _ => some index
        | _ => none)) = [(true, some 1), (false, none)] := by
  decide +kernel

/-! ## Sets that sum no prior values -/

/-- Parsing a regular set keeps the pools as parsing builds them, and only adds references. -/
theorem rcParseCondset_built (pointer : Ref → UInt64) (memrefs : Memrefs) (built : Built memrefs)
    (isValue : Bool) (texts : List ConditionText) (regular : Event.Regular (.set isValue texts)) :
    Built (rcParseCondset pointer memrefs isValue texts).1 ∧
      Adds memrefs (rcParseCondset pointer memrefs isValue texts).1 := by
  obtain ⟨each, unpaused⟩ := regular
  rw [(rcParseCondset_unpaused pointer memrefs isValue texts unpaused).1]
  obtain ⟨sound, adds⟩ := parseConditions_sound pointer texts each _
    (begun_sound memrefs built isValue)
  exact ⟨sound.built, adds⟩

/-- Whatever happens, the pools are as parsing builds them, and keep their references. By
induction on the events: a set adds to the pools, and a frame changes values. -/
theorem after_built (pointer : Ref → UInt64) (events : List Event)
    (regular : ∀ event ∈ events, Event.Regular event) (memrefs : Memrefs) (built : Built memrefs) :
    Built (after pointer memrefs events) ∧ Extends memrefs (after pointer memrefs events) := by
  induction events generalizing memrefs with
  | nil => exact ⟨built, .refl memrefs⟩
  | cons event events inductionHypothesis =>
    have step : Built (handle pointer memrefs event) ∧
        Extends memrefs (handle pointer memrefs event) := by
      cases event with
      | set isValue texts =>
        obtain ⟨parsed, adds⟩ := rcParseCondset_built pointer memrefs built isValue texts
          (regular _ List.mem_cons_self)
        exact ⟨parsed, adds.extends⟩
      | frame peek =>
        exact ⟨change_built memrefs built (.frame peek) trivial,
          change_extends memrefs built.ordered (.frame peek)⟩
    obtain ⟨built', extends'⟩ := inductionHypothesis
      (fun later member => regular later (List.mem_cons_of_mem event member)) _ step.1
    exact ⟨built', step.2.trans extends'⟩

/-- Without frames, references are only added. By induction on the events, all of which are
sets. -/
theorem after_adds (pointer : Ref → UInt64) (events : List Event)
    (regular : ∀ event ∈ events, Event.Regular event)
    (quiet : ∀ event ∈ events, Event.Quiet event) (memrefs : Memrefs) (built : Built memrefs) :
    Adds memrefs (after pointer memrefs events) := by
  induction events generalizing memrefs with
  | nil => exact .refl memrefs
  | cons event events inductionHypothesis =>
    cases event with
    | set isValue texts =>
      obtain ⟨parsed, adds⟩ := rcParseCondset_built pointer memrefs built isValue texts
        (regular _ List.mem_cons_self)
      exact adds.trans (inductionHypothesis
        (fun later member => regular later (List.mem_cons_of_mem _ member))
        (fun later member => quiet later (List.mem_cons_of_mem _ member)) _ parsed)
    | frame peek => exact absurd (quiet _ List.mem_cons_self) id

end NoMercyRecomp.ParsedSets
