import Mathlib
import NoMercyRecomp.SharedReferences

/-!
# Conditions as they are parsed

Some conditions compare nothing: they add to what a later one compares, or give an address
to read from. Parsing turns them into computed references, and leaves in its state what the
next condition is to use. Whatever conditions are parsed, the pools stay as parsing builds
them: what is computed comes behind what it reads, and nothing is computed twice.
-/

namespace NoMercyRecomp.ParsedConditions

open TypedValues MemRefs FrameReadings Conditions SharedReferences

/-! ## What is written -/

/-- An operand as it is written. -/
inductive OperandText
  | memory (access : Access) (size : MemSize) (address : UInt32)
  | const (num : UInt32)
  | fp (dbl : Float)
  | func
  | recalled

/-- A condition as it is written. Without an operator it has no second operand. -/
structure ConditionText where
  type : ConditionType
  operand1 : OperandText
  oper : Operator
  operand2 : OperandText
  requiredHits : UInt32

/-- `rc_operator_is_modifying`. -/
def rcOperatorIsModifying : Operator → Bool
  | .and | .xor | .div | .mult | .mod | .add | .sub | .none => true
  | _ => false

/-- The operator of a condition. On sources and addresses a comparison means nothing. -/
def ConditionText.modifier (text : ConditionText) : Operator :=
  match text.type with
  | .addSource | .subSource | .addAddress =>
    if rcOperatorIsModifying text.oper then text.oper else .none
  | _ => text.oper

/-! ## The state -/

/-- `rc_parse_state_t`: the pools, and what is left for the next condition. A parent of type
`RC_OPERAND_NONE` is none. -/
structure ParseState where
  memrefs : Memrefs
  indirectParent : Option Operand
  addsourceParent : Option Operand
  addsourceOper : Operator
  remember : Option Operand
  isValue : Bool

/-- The state in which `rc_parse_condset` starts on its conditions. -/
def ParseState.begun (memrefs : Memrefs) (isValue : Bool) : ParseState :=
  ⟨memrefs, none, none, .none, none, isValue⟩

/-- `rc_operand_set_const`. -/
def rcOperandSetConst (num : UInt32) : Operand := ⟨.const num, false, false⟩

/-- `rc_parse_operand_memory`. -/
def rcParseOperandMemory (parse : ParseState) (access : Access) (size : MemSize)
    (address : UInt32) : ParseState × Operand :=
  let allocated :=
    match parse.indirectParent with
    | some parent =>
      rcAllocModifiedMemref parse.memrefs (referenceSize access size) parent .indirectRead
        (rcOperandSetConst address)
    | none => rcAllocMemref parse.memrefs address (referenceSize access size)
  ({ parse with memrefs := allocated.1 }, ⟨.memref access allocated.2 size, false, false⟩)

/-- `rc_parse_operand`, on an operand that is already read from its text. A Remember behind an
AddAddress may remember what is itself recalled; to evaluate that again never ends in C, and
is taken here for what it recalls. -/
def rcParseOperand (parse : ParseState) : OperandText → ParseState × Operand
  | .memory access size address => rcParseOperandMemory parse access size address
  | .const num => (parse, rcOperandSetConst num)
  | .fp dbl => (parse, ⟨.fp dbl, false, false⟩)
  | .func => (parse, ⟨.func, false, false⟩)
  | .recalled =>
    match parse.remember with
    | some remember => (parse, ⟨remember.source, true, false⟩)
    | none => (parse, ⟨.nothing, true, false⟩)

/-- `rc_parse_condition_internal`. The second operand of a comparison that means nothing is
parsed, and dropped. -/
def rcParseConditionInternal (parse : ParseState) (text : ConditionText) : ParseState × Condition :=
  let first := rcParseOperand parse text.operand1
  if text.oper = .none then
    (first.1, ⟨first.2, rcOperandSetConst 1, 0, 0, text.type, .none, 0, .default⟩)
  else
    let second := rcParseOperand first.1 text.operand2
    let condition : Condition :=
      if text.modifier = .none then
        ⟨first.2, rcOperandSetConst 0, 0, 0, text.type, .none, 0, .default⟩
      else ⟨first.2, second.2, text.requiredHits, 0, text.type, text.modifier, 0, .default⟩
    (second.1, chosen second.1.memrefs condition)

/-! ## Computed references -/

/-- `rc_operand_is_memref`. -/
def rcOperandIsMemref (operand : Operand) : Bool :=
  match operand.source, operand.recalled with
  | .memref _ _ _, false => true
  | _, _ => false

/-- `rc_condition_convert_to_operand`. -/
def rcConditionConvertToOperand (memrefs : Memrefs) (condition : Condition) : Memrefs × Operand :=
  if condition.oper = .none then (memrefs, condition.operand1)
  else
    let newSize : MemSize :=
      if rcOperandIsFloat memrefs condition.operand1 ||
        rcOperandIsFloat memrefs condition.operand2 then .float else .bits32
    let allocated :=
      rcAllocModifiedMemref memrefs newSize condition.operand1 condition.oper condition.operand2
    (allocated.1, ⟨.memref .address allocated.2 newSize, false, condition.operand1.isCombining⟩)

/-- The access that two operands share, if it is one that they can be added under. -/
def sharedAccess (parent operand : Operand) : Option Access :=
  match parent.source, parent.recalled, operand.source, operand.recalled with
  | .memref .delta _ _, false, .memref .delta _ _, false => some .delta
  | .memref .prior _ _, false, .memref .prior _ _, false => some .prior
  | _, _, _, _ => none

/-- The operand that reads the current value instead. -/
def addressed (operand : Operand) : Operand :=
  match operand.source with
  | .memref _ ref size => { operand with source := .memref .address ref size }
  | _ => operand

/-- `rc_operand_addsource`. -/
def rcOperandAddsource (memrefs : Memrefs) (parent : Operand) (oper : Operator) (operand : Operand)
    (newSize : MemSize) :
    Memrefs × Operand :=
  match sharedAccess parent operand with
  | some access =>
    let allocated :=
      rcAllocModifiedMemref memrefs newSize (addressed parent) oper (addressed operand)
    (allocated.1, ⟨.memref access allocated.2 .bits32, false, operand.isCombining⟩)
  | none =>
    let allocated := rcAllocModifiedMemref memrefs newSize parent oper operand
    (allocated.1, ⟨.memref .address allocated.2 .bits32, false, operand.isCombining⟩)

/-- An operand of which only the pointer in the union is replaced. A constant becomes bits
of the pointer. -/
def repointed (pointer : Ref → UInt64) (ref : Ref) (size : MemSize) : Source → Source
  | .memref access _ _ => .memref access ref size
  | .const _ => .const (pointer ref).toUInt32
  | .fp _ => .fp (Float.ofBits (pointer ref))
  | .func => .func
  | .nothing => .memref .address ref size

/-- What `RC_CONDITION_SUB_SOURCE` makes of the chain before it subtracts. -/
def beforeSubtracting (pointer : Ref → UInt64) (memrefs : Memrefs) (parent : Operand)
    (oper : Operator) : Memrefs × Operand :=
  if oper = .addAccumulator ∧ ¬ rcOperandIsMemref parent then
    let size := Conditions.sizeOf parent
    let allocated := rcAllocModifiedMemref memrefs size parent .addAccumulator (rcOperandSetConst 0)
    (allocated.1, ⟨.memref .address allocated.2 size, false, parent.isCombining⟩)
  else if oper = .subParent then
    let newSize : MemSize := if rcOperandIsFloat memrefs parent then .float else .bits32
    let zero :=
      if rcOperandIsFloat memrefs parent then ⟨.fp 0, false, false⟩ else rcOperandSetConst 0
    let allocated := rcAllocModifiedMemref memrefs newSize parent .subParent zero
    (allocated.1, { parent with source := repointed pointer allocated.2 newSize parent.source })
  else (memrefs, parent)

/-- `RC_CONDITION_ADD_SOURCE`. -/
def addSource (parse : ParseState) (condition : Condition) : ParseState :=
  let converted := rcConditionConvertToOperand parse.memrefs condition
  let chain :=
    match parse.addsourceParent with
    | none => converted
    | some parent =>
      let newSize : MemSize := if rcOperandIsFloat parse.memrefs parent then .float else .bits32
      rcOperandAddsource converted.1 parent parse.addsourceOper converted.2 newSize
  { parse with
    memrefs := chain.1
    addsourceParent := some chain.2
    addsourceOper := .addAccumulator
    indirectParent := none }

/-- `RC_CONDITION_SUB_SOURCE`. -/
def subSource (pointer : Ref → UInt64) (parse : ParseState) (condition : Condition) : ParseState :=
  match parse.addsourceParent with
  | none =>
    let converted := rcConditionConvertToOperand parse.memrefs condition
    { parse with
      memrefs := converted.1
      addsourceParent := some converted.2
      addsourceOper := .subParent
      indirectParent := none }
  | some parent =>
    let newSize : MemSize := if rcOperandIsFloat parse.memrefs parent then .float else .bits32
    let before := beforeSubtracting pointer parse.memrefs parent parse.addsourceOper
    let oper := if rcOperandIsMemref before.2 then .subAccumulator else .subParent
    let converted := rcConditionConvertToOperand before.1 condition
    let chain := rcOperandAddsource converted.1 before.2 oper converted.2 newSize
    { parse with
      memrefs := chain.1
      addsourceParent := some chain.2
      addsourceOper := .addAccumulator
      indirectParent := none }

/-- The end of a chain: what it has summed is added to the operand that it leads to. -/
def closed (parse : ParseState) (memrefs : Memrefs) (oper : Operator) (operand : Operand) :
    Memrefs × Operand :=
  match parse.addsourceParent with
  | none => (memrefs, operand)
  | some parent =>
    let chain := rcOperandAddsource memrefs parent oper operand (Conditions.sizeOf operand)
    (chain.1, { chain.2 with isCombining := true })

/-- `rc_condition_update_parse_state`. -/
def rcConditionUpdateParseState (pointer : Ref → UInt64) (parse : ParseState)
    (condition : Condition) : ParseState × Condition :=
  match condition.type with
  | .addAddress =>
    let converted := rcConditionConvertToOperand parse.memrefs condition
    ({ parse with memrefs := converted.1, indirectParent := some converted.2 }, condition)
  | .addSource => (addSource parse condition, condition)
  | .subSource => (subSource pointer parse condition, condition)
  | .remember =>
    if condition.operand1.recalled ∧ condition.oper = .none ∧ parse.addsourceParent.isNone ∧
      parse.indirectParent.isNone then
      (parse, condition)
    else
      let converted := rcConditionConvertToOperand parse.memrefs condition
      let chain := closed parse converted.1 parse.addsourceOper converted.2
      ({ parse with
        memrefs :=
        chain.1, remember := some chain.2, addsourceParent := none, indirectParent := none },
        { condition with operand1 := chain.2 })
  | type =>
    let converted :=
      if type = .measured ∧ parse.isValue ∧ rcOperatorIsModifying condition.oper then
        rcConditionConvertToOperand parse.memrefs condition
      else (parse.memrefs, condition.operand1)
    let oper := if parse.addsourceOper = .addAccumulator then .add else parse.addsourceOper
    let chain := closed parse converted.1 oper converted.2
    let condition := { condition with operand1 := chain.2 }
    ({ parse with
        memrefs := chain.1
        addsourceParent := none
        addsourceOper := if parse.addsourceParent.isSome then oper else parse.addsourceOper
        indirectParent := none },
      if parse.addsourceParent.isSome then chosen chain.1 condition else condition)

/-- A turn of the loop of `rc_parse_condset`. -/
def parseCondition (pointer : Ref → UInt64) (parse : ParseState) (text : ConditionText) :
    ParseState × Condition :=
  let parsed := rcParseConditionInternal parse text
  rcConditionUpdateParseState pointer parsed.1 parsed.2

/-- The loop. -/
def parseConditions (pointer : Ref → UInt64) (parse : ParseState) :
    List ConditionText → ParseState × List Condition
  | [] => (parse, [])
  | text :: texts =>
    let parsed := parseCondition pointer parse text
    let rest := parseConditions pointer parsed.1 texts
    (rest.1, parsed.2 :: rest.2)

/-! ## Operands that parsing makes -/

/-- An operator that can be written. -/
def Written : Operator → Bool
  | .subParent | .addAccumulator | .subAccumulator | .indirectRead => false
  | _ => true

/-- An operand that reads a prior value. -/
def ReadsPrior (operand : Operand) : Prop :=
  operand.recalled = false ∧ ∃ ref size, operand.source = .memref .prior ref size

/-- What comes of making an operand: more references, of the kind that parsing builds, and an
operand that parsing makes. -/
structure Yields (memrefs : Memrefs) (made : Memrefs × Operand) : Prop where
  adds : Adds memrefs made.1
  built : Built made.1
  fits : Fits made.1 made.2

/-- A constant is read within any pools. -/
theorem const_fits (memrefs : Memrefs) (num : UInt32) : Fits memrefs (rcOperandSetConst num) :=
  (Plain.const num false).fits

/-- An operand without a reference is read within any pools. -/
theorem unreferring_fits (memrefs : Memrefs) (source : Source) (recalled isCombining : Bool)
    (unreferring : ∀ access ref size, source ≠ .memref access ref size) :
    Fits memrefs ⟨source, recalled, isCombining⟩ := by
  constructor
  · match source with
    | .memref access ref size => exact absurd rfl (unreferring access ref size)
    | .const _ | .fp _ | .func | .nothing => trivial
  · intro _ access index size entry same
    exact absurd same (unreferring access _ size)

/-- A fresh computed reference, and the operand that reads it. Nothing else of the pools is
changed, and what is read fits if the sizes do. -/
theorem allocated_yields (memrefs : Memrefs) (built : Built memrefs) (size : MemSize)
    (parent : Operand) (modifierType : Operator) (modifier : Operand)
    (parentFits : Fits memrefs parent) (modifierFits : Fits memrefs modifier) (access : Access)
    (operandSize : MemSize) (recalled isCombining : Bool)
    (sized : Plain memrefs parent → Plain memrefs modifier →
      Sized memrefs access operandSize size parent modifierType modifier) :
    let allocated := rcAllocModifiedMemref memrefs size parent modifierType modifier
    Yields memrefs (allocated.1, ⟨.memref access allocated.2 operandSize, recalled, isCombining⟩) :=
  ⟨rcAllocModifiedMemref_adds memrefs size parent modifierType modifier,
    rcAllocModifiedMemref_built memrefs built size parent modifierType modifier parentFits
      modifierFits,
    rcAllocModifiedMemref_fits memrefs built size parent modifierType modifier parentFits
      modifierFits access operandSize recalled
      isCombining sized⟩

/-- A condition that is made an operand is computed by a reference with its two operands, or is
its own first operand. -/
theorem rcConditionConvertToOperand_yields (memrefs : Memrefs) (built : Built memrefs)
    (condition : Condition) (fits1 : Fits memrefs condition.operand1)
    (fits2 : Fits memrefs condition.operand2) (written : Written condition.oper = true) :
    Yields memrefs (rcConditionConvertToOperand memrefs condition) := by
  rw [rcConditionConvertToOperand]
  split
  next => exact ⟨.refl memrefs, built, fits1⟩
  next =>
    refine allocated_yields memrefs built _ _ _ _ fits1 fits2 .address _ false _ (fun _ _ => ?_)
    rw [Sized, if_neg (fun same => by rw [same] at written; cases written)]
    refine ⟨?_, id⟩
    cases oper : condition.oper with
    | addAccumulator | subAccumulator | subParent => rw [oper] at written; cases written
    | _ => rfl

/-- An operand that reads the delta of a reference, and the one that reads its value, fit alike:
they are sized by the same rule, which does not look at which of the two is read. -/
theorem addressed_fits (memrefs : Memrefs) (operand : Operand) (fits : Fits memrefs operand)
    (plain : operand.recalled = false)
    (delta : ∃ ref size, operand.source = .memref .delta ref size) :
    Fits memrefs (addressed operand) := by
  obtain ⟨source, recalled, isCombining⟩ := operand
  obtain ⟨ref, size, rfl⟩ := delta
  refine ⟨?_, fun _ access index size' entry source found parent modifier => ?_⟩
  · match ref, fits.inside with
    | .memref _, inside => exact inside
    | .modified _, inside => exact inside
  · cases source
    have sized := fits.sized plain .delta index size entry rfl found parent modifier
    rw [SizedFor, Sized] at sized ⊢
    split at sized
    next =>
      rw [if_pos ‹_›, sized]
      simp [referenceSize]
    next =>
      rw [if_neg ‹_›]
      exact sized

/-- Operands are added under one access only if both read a delta, unless the chain starts
with a prior value. -/
theorem sharedAccess_some (parent operand : Operand) (access : Access)
    (shared : sharedAccess parent operand = some access) (unprior : ¬ ReadsPrior parent) :
    access = .delta ∧ (parent.recalled = false ∧
      ∃ ref size, parent.source = .memref .delta ref size) ∧
      (operand.recalled = false ∧ ∃ ref size, operand.source = .memref .delta ref size) := by
  unfold sharedAccess at shared
  split at shared
  next ref size ref' size' here plain there plain' =>
    exact ⟨(Option.some.inj shared).symm, ⟨plain, ref, size, here⟩, ⟨plain', ref', size', there⟩⟩
  next ref size ref' size' here plain there plain' => exact absurd ⟨plain, ref, size, here⟩ unprior
  next => cases shared

/-- Adding to a chain yields an operand that fits. Where both read deltas they are added as
values, and the delta of the sum is read; otherwise they are added as they are. -/
theorem rcOperandAddsource_yields (memrefs : Memrefs) (built : Built memrefs) (parent : Operand)
    (oper : Operator) (operand : Operand) (newSize : MemSize) (parentFits : Fits memrefs parent)
    (operandFits : Fits memrefs operand) (unprior : ¬ ReadsPrior parent)
    (sums : oper = .addAccumulator ∨ oper = .subAccumulator ∨ oper = .subParent)
    (sized : newSize = if rcOperandIsFloat memrefs parent then .float else .bits32) :
    Yields memrefs (rcOperandAddsource memrefs parent oper operand newSize) := by
  have fitting : ∀ access parent' modifier,
      rcOperandIsFloat memrefs parent' = rcOperandIsFloat memrefs parent →
      Sized memrefs access .bits32 newSize parent' oper modifier := by
    intro access parent' modifier same
    obtain rfl | rfl | rfl := sums <;> exact ⟨by rw [sized, computedSize, same], Bool.noConfusion⟩
  rw [rcOperandAddsource]
  split
  next access shared =>
    obtain ⟨rfl, ⟨plain, delta⟩, ⟨plain', delta'⟩⟩ :=
      sharedAccess_some parent operand access shared unprior
    have same : rcOperandIsFloat memrefs (addressed parent) = rcOperandIsFloat memrefs parent := by
      obtain ⟨ref, size, source⟩ := delta
      simp only [rcOperandIsFloat, addressed, source, plain]
      cases ref <;> rfl
    exact allocated_yields memrefs built _ _ _ _
      (addressed_fits memrefs parent parentFits plain delta)
      (addressed_fits memrefs operand operandFits plain' delta') .delta .bits32 false _
      (fun _ _ => fitting .delta _ _ same)
  next =>
    exact allocated_yields memrefs built _ _ _ _ parentFits operandFits .address .bits32 false _
      (fun _ _ => fitting .address _ _ rfl)

/-- The end of a chain, whose reference may have any size: it is read as it is, so nothing is
asked of how it is sized. -/
theorem rcOperandAddsource_adds (memrefs : Memrefs) (built : Built memrefs) (parent : Operand)
    (oper : Operator) (operand : Operand) (newSize : MemSize) (parentFits : Fits memrefs parent)
    (operandFits : Fits memrefs operand) (unprior : ¬ ReadsPrior parent) :
    let made := rcOperandAddsource memrefs parent oper operand newSize
    Adds memrefs made.1 ∧ Built made.1 ∧ Source.Inside made.1 made.2.source := by
  dsimp only
  rw [rcOperandAddsource]
  split
  next access shared =>
    obtain ⟨rfl, ⟨plain, delta⟩, ⟨plain', delta'⟩⟩ :=
      sharedAccess_some parent operand access shared unprior
    exact ⟨rcAllocModifiedMemref_adds _ _ _ _ _, rcAllocModifiedMemref_built _ built _ _ _ _
      (addressed_fits memrefs parent parentFits plain delta)
        (addressed_fits memrefs operand operandFits plain' delta'),
      rcAllocModifiedMemref_inside _ _ _ _ _ _ _⟩
  next =>
    exact ⟨rcAllocModifiedMemref_adds _ _ _ _ _,
      rcAllocModifiedMemref_built _ built _ _ _ _ parentFits operandFits,
      rcAllocModifiedMemref_inside _ _ _ _ _ _ _⟩

/-- Whether the chain is a float is not changed by what is done before subtracting from it: a
constant becomes a reference, and a subtracted start is negated, each of the type that was
there. -/
theorem beforeSubtracting_yields (pointer : Ref → UInt64) (memrefs : Memrefs)
    (built : Built memrefs) (parent : Operand)
    (oper : Operator) (fits : Fits memrefs parent) (unprior : ¬ ReadsPrior parent) :
    let before := beforeSubtracting pointer memrefs parent oper
    Yields memrefs before ∧ rcOperandIsFloat before.1 before.2 = rcOperandIsFloat memrefs parent ∧
        ¬ ReadsPrior before.2 := by
  obtain ⟨source, recalled, isCombining⟩ := parent
  dsimp only
  rw [beforeSubtracting]
  split
  next constant =>
    refine ⟨allocated_yields memrefs built _ _ _ _ fits (const_fits memrefs 0) .address _ false _
      (fun plain _ => ?_), ?_, ?_⟩
    · cases plain with
      | const => exact ⟨rfl, id⟩
      | memref | modified => exact absurd rfl constant.2
    · rw [rcAllocModifiedMemref_float _ _ _ _ _ Operator.noConfusion]
      cases recalled with
      | true => rfl
      | false =>
        cases source with
        | memref => exact absurd rfl constant.2
        | _ => rfl
    · rintro ⟨_, _, _, same⟩
      cases same
  next =>
    split
    next =>
      have allocates := fun access plain => allocated_yields memrefs built
        (if rcOperandIsFloat memrefs ⟨source, recalled, isCombining⟩ then .float
          else .bits32) _ .subParent
        (if rcOperandIsFloat memrefs ⟨source, recalled, isCombining⟩ then ⟨.fp 0, false, false⟩
          else rcOperandSetConst 0) fits
        (by split; exact unreferring_fits memrefs _ _ _ nofun; exact const_fits memrefs 0) access
        (if rcOperandIsFloat memrefs ⟨source, recalled, isCombining⟩ then .float
          else .bits32) plain isCombining
        (fun _ _ => ⟨rfl, id⟩)
      have float : rcMemsizeIsFloat (if rcOperandIsFloat memrefs
        ⟨source, recalled, isCombining⟩ then .float else .bits32) =
          rcOperandIsFloat memrefs ⟨source, recalled, isCombining⟩ := by
        split <;> simp_all [rcMemsizeIsFloat]
      cases source with
      | memref access ref size =>
        refine ⟨allocates access recalled, ?_, fun prior => unprior ⟨prior.1, ref, size, ?_⟩⟩
        · cases recalled with
          | true => exact float
          | false =>
            exact (rcAllocModifiedMemref_float _ _ _ _ _ Operator.noConfusion _ _ _).trans float
        · obtain ⟨_, _, same⟩ := prior.2
          cases same
          rfl
      | nothing =>
        refine ⟨allocates .address recalled, ?_, fun prior => ?_⟩
        · cases recalled with
          | true => exact float
          | false =>
            exact (rcAllocModifiedMemref_float _ _ _ _ _ Operator.noConfusion _ _ _).trans float
        · obtain ⟨_, _, same⟩ := prior.2
          cases same
      | const | fp | func =>
        have yields := allocates .address recalled
        refine ⟨⟨yields.adds, yields.built, unreferring_fits _ _ _ _ nofun⟩, ?_, fun prior => ?_⟩
        · cases recalled <;> rfl
        · obtain ⟨_, _, same⟩ := prior.2
          cases same
    next => exact ⟨⟨.refl memrefs, built, fits⟩, rfl, unprior⟩

/-! ## Parsing keeps the pools -/

/-- What holds of the state between two conditions. -/
structure Sound (parse : ParseState) : Prop where
  built : Built parse.memrefs
  indirect : ∀ parent, parse.indirectParent = some parent → Fits parse.memrefs parent
  addsource : ∀ parent, parse.addsourceParent = some parent → Fits parse.memrefs parent ∧
    ¬ ReadsPrior parent
  oper : parse.addsourceParent.isSome → parse.addsourceOper = .addAccumulator ∨
    parse.addsourceOper = .subParent
  remember : ∀ operand, parse.remember = some operand → Source.Inside parse.memrefs operand.source

/-- An operand that is added or subtracted as it is. -/
def ConditionText.IsBare (text : ConditionText) : Bool :=
  match text.type with
  | .addSource | .subSource => text.modifier = .none
  | _ => false

/-- A condition that the parser accepts, and that does not sum prior values: its operator is
one that can be written, and modifies what is remembered. -/
structure Regular (text : ConditionText) : Prop where
  written : Written text.oper = true
  remembers : text.type = .remember → rcOperatorIsModifying text.oper = true
  unprior : text.IsBare = true → ∀ size address, text.operand1 ≠ .memory .prior size address

/-- More references change nothing in a state. -/
theorem Sound.more {parse : ParseState} (sound : Sound parse) {memrefs : Memrefs}
    (adds : Adds parse.memrefs memrefs)
    (built : Built memrefs) : Sound { parse with memrefs := memrefs } where
  built := built
  indirect parent is := (sound.indirect parent is).extends adds.extends sound.built
  addsource parent is :=
    ⟨(sound.addsource parent is).1.extends adds.extends sound.built, (sound.addsource parent is).2⟩
  oper := sound.oper
  remember operand is := adds.extends.inside _ (sound.remember operand is)

/-- The state after an operand is the state before it, with more references, and the operand fits
the new pools. By the kinds of operand; one behind a pointer is computed from it. -/
theorem rcParseOperand_sound (parse : ParseState) (sound : Sound parse) (text : OperandText) :
    let parsed := rcParseOperand parse text
    parsed.1 = { parse with memrefs := parsed.1.memrefs } ∧
        Yields parse.memrefs (parsed.1.memrefs, parsed.2) := by
  cases text with
  | memory access size address =>
    refine ⟨rfl, ?_⟩
    cases pointer : parse.indirectParent with
    | none =>
      obtain ⟨adds, index, found, inside⟩ :=
        rcAllocMemref_adds parse.memrefs address (referenceSize access size)
      simp only [rcParseOperand, rcParseOperandMemory, pointer, found]
      refine ⟨adds, rcAllocMemref_built parse.memrefs sound.built _ _, inside,
        fun _ access index size entry same => ?_⟩
      cases same
    | some parent =>
      simp only [rcParseOperand, rcParseOperandMemory, pointer]
      exact allocated_yields parse.memrefs sound.built _ _ .indirectRead _
        (sound.indirect parent pointer)
        (const_fits _ address) access size false false (fun _ _ => rfl)
  | const num => exact ⟨rfl, .refl _, sound.built, const_fits _ num⟩
  | fp dbl => exact ⟨rfl, .refl _, sound.built, unreferring_fits _ _ _ _ nofun⟩
  | func => exact ⟨rfl, .refl _, sound.built, unreferring_fits _ _ _ _ nofun⟩
  | recalled =>
    cases remembered : parse.remember with
    | none =>
      simp only [rcParseOperand, remembered]
      exact ⟨by rw [← remembered], .refl _, sound.built, unreferring_fits _ _ _ _ nofun⟩
    | some operand =>
      simp only [rcParseOperand, remembered]
      exact ⟨by rw [← remembered], .refl _, sound.built, sound.remember operand remembered, nofun⟩

/-- A parsed condition has the operands of its text, the operator that it modifies or compares
with, and the type that is written. -/
structure ParsedAs (memrefs : Memrefs) (text : ConditionText) (condition : Condition) : Prop where
  type : condition.type = text.type
  oper : condition.oper = text.modifier
  fits1 : Fits memrefs condition.operand1
  fits2 : Fits memrefs condition.operand2
  unprior : (∀ size address, text.operand1 ≠ .memory .prior size address) →
    ¬ ReadsPrior condition.operand1

/-- An operand that is not written as a prior one reads no prior value. -/
theorem rcParseOperand_unprior (parse : ParseState) (text : OperandText)
    (unprior : ∀ size address, text ≠ .memory .prior size address) :
    ¬ ReadsPrior (rcParseOperand parse text).2 := by
  rintro ⟨plain, ref, size, source⟩
  cases text with
  | memory access size' address =>
    cases source
    exact unprior _ _ rfl
  | const | fp | func => cases source
  | recalled =>
    cases remembered : parse.remember with
    | none => simp only [rcParseOperand, remembered, Bool.true_eq_false] at plain
    | some operand => simp only [rcParseOperand, remembered, Bool.true_eq_false] at plain

/-- A condition without an operator has no modifier. -/
theorem modifier_none (text : ConditionText) (none : text.oper = .none) :
    text.modifier = .none := by
  rw [ConditionText.modifier, none]
  split <;> rfl

/-- A modifier can be written where its operator can. -/
theorem modifier_written (text : ConditionText) (written : Written text.oper = true) :
    Written text.modifier = true := by
  rw [ConditionText.modifier]
  split
  next => split <;> first | exact written | rfl
  next => split <;> first | exact written | rfl
  next => split <;> first | exact written | rfl
  next => exact written

/-- A parsed condition has the text's type and operator, and operands that fit the pools, to which
references are added only. -/
theorem rcParseConditionInternal_sound (parse : ParseState) (sound : Sound parse)
    (text : ConditionText) :
    let parsed := rcParseConditionInternal parse text
    parsed.1 = { parse with memrefs := parsed.1.memrefs } ∧ Adds parse.memrefs parsed.1.memrefs ∧
      Built parsed.1.memrefs ∧ ParsedAs parsed.1.memrefs text parsed.2 := by
  obtain ⟨same1, yields1⟩ := rcParseOperand_sound parse sound text.operand1
  have sound1 : Sound (rcParseOperand parse text.operand1).1 := by
    rw [same1]
    exact sound.more yields1.adds yields1.built
  obtain ⟨same2, yields2⟩ := rcParseOperand_sound _ sound1 text.operand2
  dsimp only
  rw [rcParseConditionInternal]
  dsimp only
  split
  next none =>
    exact ⟨same1, yields1.adds, yields1.built, rfl, (modifier_none text none).symm, yields1.fits,
      const_fits _ 1, rcParseOperand_unprior parse text.operand1⟩
  next =>
    have fits1 := yields1.fits.extends yields2.adds.extends yields1.built
    refine ⟨?_, yields1.adds.trans yields2.adds, yields2.built, ?_⟩
    · rw [same2, same1]
    · split
      next none =>
        exact ⟨rfl, none.symm, fits1, const_fits _ 0, rcParseOperand_unprior parse text.operand1⟩
      next => exact ⟨rfl, rfl, fits1, yields2.fits, rcParseOperand_unprior parse text.operand1⟩

/-- A condition that is made an operand reads no prior value, unless it is one without an
operator. -/
theorem rcConditionConvertToOperand_unprior (memrefs : Memrefs) (condition : Condition)
    (bare : condition.oper = .none → ¬ ReadsPrior condition.operand1) :
    ¬ ReadsPrior (rcConditionConvertToOperand memrefs condition).2 := by
  rw [rcConditionConvertToOperand]
  split
  next none => exact bare none
  next =>
    rintro ⟨_, _, _, source⟩
    cases source

/-- A sum reads no prior value: it is the current value of a reference, or its delta where both of
its parts are. -/
theorem rcOperandAddsource_unprior (memrefs : Memrefs) (parent : Operand) (oper : Operator)
    (operand : Operand) (newSize : MemSize) (unprior : ¬ ReadsPrior parent) :
    ¬ ReadsPrior (rcOperandAddsource memrefs parent oper operand newSize).2 := by
  rw [rcOperandAddsource]
  split
  next access shared =>
    obtain ⟨rfl, _⟩ := sharedAccess_some parent operand access shared unprior
    rintro ⟨_, _, _, source⟩
    cases source
  next =>
    rintro ⟨_, _, _, source⟩
    cases source

/-- A source that is bare reads no prior value. -/
theorem bare_unprior (text : ConditionText) (regular : Regular text) (memrefs : Memrefs)
    (condition : Condition) (parsed : ParsedAs memrefs text condition)
    (sums : text.type = .addSource ∨ text.type = .subSource)
    (none : condition.oper = .none) : ¬ ReadsPrior condition.operand1 := by
  refine parsed.unprior (regular.unprior ?_)
  rw [parsed.oper] at none
  obtain type | type := sums <;> simp [ConditionText.IsBare, type, none]

/-- An `AddSource` leaves a sound state. The sum that it leaves pending is a reference to the
sources before it and its own operand. -/
theorem addSource_sound (parse : ParseState) (sound : Sound parse) (text : ConditionText)
    (regular : Regular text) (condition : Condition)
    (parsed : ParsedAs parse.memrefs text condition) (sums : text.type = .addSource) :
    Sound (addSource parse condition) ∧ Adds parse.memrefs (addSource parse condition).memrefs := by
  have written : Written condition.oper = true := by
    rw [parsed.oper]
    exact modifier_written text regular.written
  have converted :=
    rcConditionConvertToOperand_yields parse.memrefs sound.built condition parsed.fits1 parsed.fits2
      written
  have unprior := rcConditionConvertToOperand_unprior parse.memrefs condition
    (bare_unprior text regular parse.memrefs condition parsed (Or.inl sums))
  have kept := sound.more converted.adds converted.built
  cases chain : parse.addsourceParent with
  | none =>
    simp only [addSource, chain]
    exact ⟨⟨converted.built, nofun,
      fun parent is => by cases is; exact ⟨converted.fits, unprior⟩, fun _ => Or.inl rfl,
      kept.remember⟩, converted.adds⟩
  | some parent =>
    obtain ⟨fits, parentUnprior⟩ := kept.addsource parent chain
    have same := converted.adds.extends.float parent (sound.addsource parent chain).1.inside
    have oper : parse.addsourceOper = .addAccumulator ∨ parse.addsourceOper = .subAccumulator ∨
        parse.addsourceOper = .subParent :=
      (sound.oper (by rw [chain]; rfl)).imp id Or.inr
    have added := rcOperandAddsource_yields _ converted.built parent parse.addsourceOper _
      (if rcOperandIsFloat parse.memrefs parent then .float
        else .bits32) fits converted.fits parentUnprior oper (by rw [same])
    simp only [addSource, chain]
    refine ⟨⟨added.built, nofun, fun parent is => ?_, fun _ => Or.inl rfl,
      (kept.more added.adds added.built).remember⟩, converted.adds.trans added.adds⟩
    cases is
    exact ⟨added.fits, rcOperandAddsource_unprior _ _ _ _ _ parentUnprior⟩

/-- A `SubSource` leaves a sound state. Where it is the first, zero less its operand is what is
pending. -/
theorem subSource_sound (pointer : Ref → UInt64) (parse : ParseState) (sound : Sound parse)
    (text : ConditionText) (regular : Regular text) (condition : Condition)
    (parsed : ParsedAs parse.memrefs text condition) (sums : text.type = .subSource) :
    Sound (subSource pointer parse condition) ∧
    Adds parse.memrefs (subSource pointer parse condition).memrefs := by
  have written : Written condition.oper = true := by
    rw [parsed.oper]
    exact modifier_written text regular.written
  have bare := bare_unprior text regular parse.memrefs condition parsed (Or.inr sums)
  cases chain : parse.addsourceParent with
  | none =>
    have converted :=
      rcConditionConvertToOperand_yields parse.memrefs sound.built condition parsed.fits1
        parsed.fits2 written
    have unprior := rcConditionConvertToOperand_unprior parse.memrefs condition bare
    have kept := sound.more converted.adds converted.built
    simp only [subSource, chain]
    exact ⟨⟨converted.built, nofun,
      fun parent is => by cases is; exact ⟨converted.fits, unprior⟩, fun _ => Or.inr rfl,
      kept.remember⟩, converted.adds⟩
  | some parent =>
    obtain ⟨fits, parentUnprior⟩ := sound.addsource parent chain
    obtain ⟨before, same, beforeUnprior⟩ :=
      beforeSubtracting_yields pointer parse.memrefs sound.built parent parse.addsourceOper fits
        parentUnprior
    have kept := sound.more before.adds before.built
    have converted := rcConditionConvertToOperand_yields _ before.built condition
      (parsed.fits1.extends before.adds.extends sound.built)
        (parsed.fits2.extends before.adds.extends sound.built) written
    have float := (converted.adds.extends.float _ before.fits.inside).trans same
    have added := rcOperandAddsource_yields _ converted.built _
      (if rcOperandIsMemref (beforeSubtracting pointer parse.memrefs
        parent parse.addsourceOper).2 then .subAccumulator else .subParent)
      _ (if rcOperandIsFloat parse.memrefs parent then .float else .bits32)
      (before.fits.extends converted.adds.extends before.built) converted.fits beforeUnprior
        (by split <;> simp) (by rw [float])
    simp only [subSource, chain]
    refine ⟨⟨added.built, nofun, fun parent is => ?_, fun _ => Or.inl rfl,
      ((kept.more converted.adds converted.built).more added.adds added.built).remember⟩,
      (before.adds.trans converted.adds).trans added.adds⟩
    cases is
    exact ⟨added.fits, rcOperandAddsource_unprior _ _ _ _ _ beforeUnprior⟩

/-- The end of a chain keeps the pools. -/
theorem closed_adds (parse : ParseState) (sound : Sound parse) (memrefs : Memrefs)
    (adds : Adds parse.memrefs memrefs)
    (built : Built memrefs) (oper : Operator) (operand : Operand) (fits : Fits memrefs operand) :
    let chain := closed parse memrefs oper operand
    Adds memrefs chain.1 ∧ Built chain.1 ∧ Source.Inside chain.1 chain.2.source := by
  cases chain : parse.addsourceParent with
  | none =>
    simp only [closed, chain]
    exact ⟨.refl memrefs, built, fits.inside⟩
  | some parent =>
    obtain ⟨parentFits, unprior⟩ := (sound.more adds built).addsource parent chain
    simp only [closed, chain]
    exact rcOperandAddsource_adds memrefs built parent oper operand _ parentFits fits unprior

/-- A condition keeps the pools, and what the state remembers fits them. By the type of the
condition: one that combines opens or continues something, and any other closes it. -/
theorem rcConditionUpdateParseState_sound (pointer : Ref → UInt64) (parse : ParseState)
    (sound : Sound parse) (text : ConditionText) (regular : Regular text) (condition : Condition)
    (parsed : ParsedAs parse.memrefs text condition) :
    let updated := (rcConditionUpdateParseState pointer parse condition).1
    Sound updated ∧ Adds parse.memrefs updated.memrefs := by
  have written : Written condition.oper = true := by
    rw [parsed.oper]
    exact modifier_written text regular.written
  have converted :=
    rcConditionConvertToOperand_yields parse.memrefs sound.built condition parsed.fits1 parsed.fits2
      written
  have kept := sound.more converted.adds converted.built
  dsimp only
  rw [rcConditionUpdateParseState]
  split
  next type =>
    refine ⟨⟨kept.built, fun parent is => ?_, kept.addsource, kept.oper, kept.remember⟩,
      converted.adds⟩
    cases is
    exact converted.fits
  next type =>
    exact addSource_sound parse sound text regular condition parsed (parsed.type.symm.trans type)
  next type =>
    exact subSource_sound pointer parse sound text regular condition parsed
      (parsed.type.symm.trans type)
  next type =>
    split
    next => exact ⟨sound, .refl _⟩
    next =>
      obtain ⟨adds, built, inside⟩ :=
        closed_adds parse sound _ converted.adds converted.built parse.addsourceOper _
          converted.fits
      refine ⟨⟨built, nofun, nofun, nofun, fun operand is => ?_⟩, converted.adds.trans adds⟩
      cases is
      exact inside
  next =>
    have start : Yields parse.memrefs
        (if condition.type = .measured ∧ parse.isValue ∧ rcOperatorIsModifying condition.oper then
          rcConditionConvertToOperand parse.memrefs condition
        else (parse.memrefs, condition.operand1)) := by
      split
      next => exact converted
      next => exact ⟨.refl _, sound.built, parsed.fits1⟩
    obtain ⟨adds, built, _⟩ := closed_adds parse sound _ start.adds start.built
      (if parse.addsourceOper = .addAccumulator then .add else parse.addsourceOper) _ start.fits
    have both := sound.more (start.adds.trans adds) built
    exact ⟨⟨built, nofun, nofun, nofun, both.remember⟩, start.adds.trans adds⟩

/-- So does any number of them. By induction on the conditions, each of which is parsed with what
the ones before have left. -/
theorem parseConditions_sound (pointer : Ref → UInt64) (texts : List ConditionText)
    (regular : ∀ text ∈ texts, Regular text) (parse : ParseState) (sound : Sound parse) :
    let parsed := (parseConditions pointer parse texts).1
    Sound parsed ∧ Adds parse.memrefs parsed.memrefs := by
  induction texts generalizing parse with
  | nil => exact ⟨sound, .refl _⟩
  | cons text texts inductionHypothesis =>
    obtain ⟨same, adds, built, parsed⟩ := rcParseConditionInternal_sound parse sound text
    have start : Sound (rcParseConditionInternal parse text).1 := by
      rw [same]
      exact sound.more adds built
    obtain ⟨next, adds'⟩ := rcConditionUpdateParseState_sound pointer _ start text
      (regular text List.mem_cons_self) _ parsed
    obtain ⟨last, adds''⟩ := inductionHypothesis (fun later member =>
      regular later (List.mem_cons_of_mem text member)) _ next
    exact ⟨last, (adds.trans adds').trans adds''⟩

/-- The state in which a set is begun is sound: nothing is pending. -/
theorem begun_sound (memrefs : Memrefs) (built : Built memrefs) (isValue : Bool) :
    Sound (ParseState.begun memrefs isValue) where
  built := built
  indirect := nofun
  addsource := nofun
  oper := nofun
  remember := nofun

end NoMercyRecomp.ParsedConditions
