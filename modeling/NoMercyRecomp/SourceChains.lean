import Mathlib
import NoMercyRecomp.ParsedSets

/-!
# What a chain of sources comes to

Conditions that add or subtract a source are not evaluated. Their operands become computed
references, each on top of the one before, and the condition behind them compares the last.
Two frames after it is parsed, that condition compares the sum that is written: its own
operand, with the sources added and subtracted modulo 2^32. No set may sum prior values that
are bare, and in no set a pausing condition may remember.
-/

namespace NoMercyRecomp.SourceChains

open TypedValues MemRefs FrameReadings Conditions SharedReferences ParsedConditions ParsedSets

/-! ## Two frames later -/

/-- Pools in which the references of others hold what they are computed from. -/
structure Holds (memrefs now : Memrefs) : Prop where
  extends' : Extends memrefs now
  settled : ∀ (index : Nat) (entry : ModifiedMemref), index < memrefs.modifiedMemrefs.length →
    now.modifiedMemrefs[index]? = some entry →
      ∃ peek : RcPeek, entry.memref.value.value = rcGetModifiedMemrefValue now entry peek

/-- The pools before a frame and behind it, for the references that had been there for a frame
at least. -/
structure Follows (memrefs before now : Memrefs) : Prop where
  earlier : Holds memrefs before
  later : Holds memrefs now
  plain : ∀ (index : Nat) (memref : Memref), index < memrefs.memrefs.length →
    before.memrefs[index]? = some memref →
    ∃ value : MemrefValue, now.memrefs[index]? = some { memref with value := value } ∧
      deltaOf value = memref.value.value ∧ value.type = memref.value.type
  computed : ∀ (index : Nat) (entry : ModifiedMemref), index < memrefs.modifiedMemrefs.length →
    before.modifiedMemrefs[index]? = some entry →
      ∃ value : MemrefValue, now.modifiedMemrefs[index]? = some (entry.withValue value) ∧
        deltaOf value = entry.memref.value.value ∧ value.type = entry.memref.value.type

/-- Larger pools have as many references at least. -/
theorem Extends.lengths {before after : Memrefs} (extends' : Extends before after) :
    before.memrefs.length ≤ after.memrefs.length ∧
    before.modifiedMemrefs.length ≤ after.modifiedMemrefs.length := by
  constructor
  · by_contra shorter
    obtain ⟨_, found, _⟩ := extends'.memrefs _ _ (List.getElem?_eq_getElem (Nat.not_le.mp shorter))
    exact Nat.lt_irrefl _ (List.getElem?_eq_some_iff.mp found).1
  · by_contra shorter
    obtain ⟨_, found, _⟩ := extends'.modified _ _ (List.getElem?_eq_getElem (Nat.not_le.mp shorter))
    exact Nat.lt_irrefl _ (List.getElem?_eq_some_iff.mp found).1

/-- Pools that hold what larger pools compute hold what the smaller ones compute. -/
theorem Holds.fewer {memrefs more now : Memrefs} (extends' : Extends memrefs more)
    (holds : Holds more now) : Holds memrefs now :=
  ⟨extends'.trans holds.extends', fun index entry inside =>
    holds.settled index entry (Nat.lt_of_lt_of_le inside (Extends.lengths extends').2)⟩

/-- Frames that follow each other for larger pools do so for smaller ones. -/
theorem Follows.fewer {memrefs more before now : Memrefs} (extends' : Extends memrefs more)
    (follows : Follows more before now) :
    Follows memrefs before now where
  earlier := follows.earlier.fewer extends'
  later := follows.later.fewer extends'
  plain index memref inside :=
    follows.plain index memref (Nat.lt_of_lt_of_le inside (Extends.lengths extends').1)
  computed index entry inside :=
    follows.computed index entry (Nat.lt_of_lt_of_le inside (Extends.lengths extends').2)

/-- The delta of an operand is what it was before the frame: a frame puts the value that a
reference had into its delta, and both are transformed in the same way. -/
theorem delta_earlier {memrefs before now : Memrefs} (follows : Follows memrefs before now)
    (ref : Ref) (size : MemSize)
    (isCombining isCombining' : Bool) (inside : Source.Inside memrefs (.memref .delta ref size)) :
    rcEvaluateOperand now ⟨.memref .delta ref size, false, isCombining⟩ =
      rcEvaluateOperand before ⟨.memref .address ref size, false, isCombining'⟩ := by
  have read : ∀ first second : MemrefValue, deltaOf second = first.value →
      second.type = first.type →
      readOperand second .delta size false = readOperand first .address size false := by
    intro first second delta type
    have value : rcGetMemrefValue second .delta = rcGetMemrefValue first .address := by
      simp only [rcGetMemrefValue, rcGetMemrefValueValue, type, ← delta, deltaOf]
    simp only [readOperand, value, rcTransformOperandValue]
  cases ref with
  | memref index =>
    obtain ⟨value, found, _⟩ :=
      follows.earlier.extends'.memrefs index _ (List.getElem?_eq_getElem inside)
    obtain ⟨value', found', delta, type⟩ := follows.plain index _ inside found
    simp only [rcEvaluateOperand, Memrefs.deref, found, found', Option.map_some]
    exact read value value' delta type
  | modified index =>
    obtain ⟨value, found, _⟩ :=
      follows.earlier.extends'.modified index _ (List.getElem?_eq_getElem inside)
    obtain ⟨value', found', delta, type⟩ := follows.computed index _ inside found
    simp only [rcEvaluateOperand, Memrefs.deref, found, found', Option.map_some]
    exact read value value' delta type

/-! ## Sums -/

/-- The steps of a sum. -/
def accumulate (oper : Operator) (value modifier : UInt32) : UInt32 :=
  match oper with
  | .subAccumulator => value - modifier
  | .subParent => modifier - value
  | _ => value + modifier

/-- The operators of a sum. -/
def Sums (oper : Operator) : Prop :=
  oper = .addAccumulator ∨ oper = .subAccumulator ∨ oper = .subParent ∨ oper = .add

/-- What a sum of integers is computed to. -/
theorem rcGetModifiedMemrefValue_sums (memrefs : Memrefs) (entry : ModifiedMemref) (peek : RcPeek)
    (sums : Sums entry.modifierType) (type : entry.memref.value.type = .unsigned)
    (value modifier : UInt32) (parent : rcEvaluateOperand memrefs entry.parent = ⟨.unsigned, value⟩)
    (amount : rcEvaluateOperand memrefs entry.modifier = ⟨.unsigned, modifier⟩) :
    rcGetModifiedMemrefValue memrefs entry peek = accumulate entry.modifierType value modifier := by
  simp only [rcGetModifiedMemrefValue, parent, amount, type]
  obtain same | same | same | same := sums
  · simp [same, accumulate, rcTypedValueConvert, rcTypedValueAdd]
  · simp [same, accumulate, rcTypedValueConvert, rcTypedValueAdd, rcTypedValueNegate,
      TypedValue.setI32, TypedValue.i32, UInt32.sub_eq_add_neg]
  · simp [same, accumulate, rcTypedValueConvert, rcTypedValueAdd, rcTypedValueNegate,
      TypedValue.setI32, TypedValue.i32, UInt32.sub_eq_add_neg, UInt32.add_comm]
  · simp [same, accumulate, rcTypedValueConvert, rcTypedValueAdd, rcTypedValueCombine]

/-- An operand that is no float has an integer: the references of integer sizes hold integers, and
no transformation for such a size makes a float. -/
theorem plain_unsigned {memrefs now : Memrefs} (built : Built memrefs)
    (extends' : Extends memrefs now) (operand : Operand)
    (plain : Plain memrefs operand) (integer : rcOperandIsFloat memrefs operand = false) :
    rcEvaluateOperand now operand = ⟨.unsigned, (rcEvaluateOperand now operand).u32⟩ := by
  have read : ∀ (value : MemrefValue) (access : Access) (size : MemSize), value.type = .unsigned →
      rcMemsizeIsFloat size = false →
      readOperand value access size false =
        ⟨.unsigned, (readOperand value access size false).u32⟩ := by
    intro value access size type float
    have decode :
        (rcTransformMemrefValue (rcGetMemrefValue value access) size).type = .unsigned := by
      cases size with
      | float | floatBE | double32 | double32BE | mbf32 | mbf32LE => cases float
      | _ => exact type
    simp only [readOperand, decode, Bool.false_eq_true, not_false_eq_true, and_self, if_true]
  cases plain with
  | const num => rfl
  | memref access index size isCombining inside =>
    obtain ⟨value, found, _, type⟩ := extends'.memrefs index _ (List.getElem?_eq_getElem inside)
    simp only [rcEvaluateOperand, Memrefs.deref, found, Option.map_some]
    exact read value access size (type.trans (built.typed _ (List.getElem_mem inside))) integer
  | modified access index size isCombining entry found _ _ sized =>
    obtain ⟨value, found', _, type⟩ := extends'.modified index entry found
    have kind := (built.computed index entry found).kind
    simp only [rcEvaluateOperand, Memrefs.deref, found', Option.map_some]
    simp only [rcOperandIsFloat, Bool.false_eq_true, if_false, found] at integer
    rw [SizedFor, Sized] at sized
    split at sized
    next indirect =>
      rw [if_neg (not_not.mpr indirect)] at integer
      have shared : rcMemsizeIsFloat (referenceSize access size) = false := by
        rw [referenceSize]
        split
        next => exact integer
        next => cases size <;> rfl
      rw [sized, shared] at kind
      exact read value access size (type.trans kind) integer
    next computed =>
      rw [if_pos computed] at integer
      rw [integer] at kind sized
      exact read value access size (type.trans kind)
        (Bool.eq_false_iff.mpr (fun float => Bool.noConfusion (sized.2 float)))

/-- What an allocated reference of an integer holds later: the value that is computed so, from
operands that have the values of those it was allocated for. -/
theorem allocated_held {memrefs now : Memrefs} (built : Built memrefs) (size : MemSize)
    (integer : rcMemsizeIsFloat size = false) (parent : Operand) (oper : Operator)
    (modifier : Operand)
    (plainParent : Plain memrefs parent) (plainModifier : Plain memrefs modifier)
    (holds : Holds (rcAllocModifiedMemref memrefs size parent oper modifier).1 now) :
    ∃ entry peek, entry.modifierType = oper ∧ entry.memref.value.type = .unsigned ∧
      rcEvaluateOperand now entry.parent = rcEvaluateOperand now parent ∧
      rcEvaluateOperand now entry.modifier = rcEvaluateOperand now modifier ∧
      ∀ isCombining, rcEvaluateOperand now
          ⟨.memref .address (rcAllocModifiedMemref memrefs size parent oper modifier).2 .bits32,
            false, isCombining⟩ = ⟨.unsigned, rcGetModifiedMemrefValue now entry peek⟩ := by
  obtain ⟨index, entry, place, found, sizes, types, parents, modifiers⟩ :=
    rcAllocModifiedMemref_entry memrefs built size parent oper modifier plainParent plainModifier
  have moreBuilt :=
    rcAllocModifiedMemref_built memrefs built size parent oper modifier plainParent.fits
      plainModifier.fits
  have kind := (moreBuilt.computed index entry found).kind
  obtain ⟨held, found', _, type⟩ := holds.extends'.modified index entry found
  obtain ⟨peek, settled⟩ := holds.settled index _ (List.getElem?_eq_some_iff.mp found).1 found'
  have unsigned : held.type = .unsigned := by
    rw [type, kind, sizes, integer]
    rfl
  have alike : ∀ first second : Operand, Alike first second →
      rcEvaluateOperand now first = rcEvaluateOperand now second := by
    intro first second same
    simp only [rcEvaluateOperand, same.source, same.recalled]
  refine ⟨entry.withValue held, peek, types, unsigned, alike _ _ parents, alike _ _ modifiers,
    fun isCombining => ?_⟩
  rw [← settled, place]
  simp only [rcEvaluateOperand, Memrefs.deref, found', Option.map_some, readOperand,
    rcTransformMemrefValue, rcGetMemrefValue,
    rcGetMemrefValueValue, transformed, ModifiedMemref.withValue, unsigned, rcTransformOperandValue,
    Bool.false_eq_true, not_false_eq_true, and_self, if_true]

/-- What an allocated sum holds, when its operands have the values of integers: the two added, or
subtracted in the order of the operator. -/
theorem sum_held {memrefs now : Memrefs} (built : Built memrefs) (size : MemSize)
    (integer : rcMemsizeIsFloat size = false) (parent : Operand) (oper : Operator)
    (modifier : Operand)
    (plainParent : Plain memrefs parent) (plainModifier : Plain memrefs modifier) (sums : Sums oper)
    (holds : Holds (rcAllocModifiedMemref memrefs size parent oper modifier).1 now)
    (value amount : UInt32) (parentValue : rcEvaluateOperand now parent = ⟨.unsigned, value⟩)
    (modifierValue : rcEvaluateOperand now modifier = ⟨.unsigned, amount⟩) (isCombining : Bool) :
    rcEvaluateOperand now
        ⟨.memref .address (rcAllocModifiedMemref memrefs size parent oper modifier).2 .bits32,
          false, isCombining⟩ = ⟨.unsigned, accumulate oper value amount⟩ := by
  obtain ⟨entry, peek, rfl, unsigned, parents, modifiers, held⟩ :=
    allocated_held built size integer parent oper modifier plainParent plainModifier holds
  rw [held isCombining, rcGetModifiedMemrefValue_sums now entry peek sums unsigned value amount
    (parents.trans parentValue)
    (modifiers.trans modifierValue)]

/-- An operand has a value, two frames later. -/
def Denotes (memrefs : Memrefs) (operand : Operand) (value : Memrefs → UInt32) : Prop :=
  ∀ before now, Follows memrefs before now → rcEvaluateOperand now operand = ⟨.unsigned, value now⟩

/-- An operand denotes in larger pools what it denotes. -/
theorem Denotes.more {memrefs more : Memrefs} {operand : Operand} {value : Memrefs → UInt32}
    (denotes : Denotes memrefs operand value) (adds : Adds memrefs more) :
    Denotes more operand value :=
  fun before now follows => denotes before now (follows.fewer adds.extends)

/-- The value of an operand. -/
def valueOf (operand : Operand) (now : Memrefs) : UInt32 := (rcEvaluateOperand now operand).u32

/-- The value of what a condition adds, subtracts or compares: its operand, modified by the
second one. -/
def termValue (condition : Condition) (now : Memrefs) : UInt32 :=
  if condition.oper = .none then valueOf condition.operand1 now
  else
    (rcTypedValueConvert (rcTypedValueCombine (rcEvaluateOperand now condition.operand1)
      (rcEvaluateOperand now condition.operand2) condition.oper) .unsigned).u32

/-- A plain operand of an integer denotes what it is evaluated to in each frame. -/
theorem denotes_value {memrefs : Memrefs} (built : Built memrefs) (operand : Operand)
    (plain : Plain memrefs operand) (integer : rcOperandIsFloat memrefs operand = false) :
    Denotes memrefs operand (valueOf operand) :=
  fun _ _ follows => plain_unsigned built follows.later.extends' operand plain integer

/-- An operand of integers: plain, and no float. -/
structure Whole (memrefs : Memrefs) (operand : Operand) : Prop where
  plain : Plain memrefs operand
  integer : rcOperandIsFloat memrefs operand = false

/-- An operand that is whole is so in larger pools. -/
theorem Whole.more {memrefs more : Memrefs} {operand : Operand} (whole : Whole memrefs operand)
    (adds : Adds memrefs more) :
    Whole more operand :=
  ⟨whole.plain.extends adds.extends,
    (adds.extends.float operand whole.plain.inside).trans whole.integer⟩

/-- The operand of a fresh reference of integers is plain again: the reference is computed from
operands that read as the plain ones do. -/
theorem allocated_plain (memrefs : Memrefs) (built : Built memrefs) (size : MemSize)
    (parent : Operand) (oper : Operator) (modifier : Operand) (plainParent : Plain memrefs parent)
    (plainModifier : Plain memrefs modifier) (access : Access) (operandSize : MemSize)
    (isCombining : Bool) (sized : Sized memrefs access operandSize size parent oper modifier) :
    let allocated := rcAllocModifiedMemref memrefs size parent oper modifier
    Plain allocated.1 ⟨.memref access allocated.2 operandSize, false, isCombining⟩ := by
  have adds := rcAllocModifiedMemref_adds memrefs size parent oper modifier
  have fits :=
    rcAllocModifiedMemref_fits memrefs built size parent oper modifier plainParent.fits
      plainModifier.fits access
    operandSize false isCombining (fun _ _ => sized)
  obtain ⟨index, entry, place, found, _, _, parents, modifiers⟩ :=
    rcAllocModifiedMemref_entry memrefs built size parent oper modifier plainParent plainModifier
  have plain1 := (plainParent.extends adds.extends).alike parents
  have plain2 := (plainModifier.extends adds.extends).alike modifiers
  dsimp only
  rw [place] at fits ⊢
  exact .modified access index operandSize isCombining entry found plain1 plain2
    (fits.sized rfl access index operandSize entry rfl found plain1 plain2)

/-- A condition as an operand leads to what its operands lead to: it is the first one, or computed
from both by an operator that can be written. -/
theorem converted_plain (memrefs : Memrefs) (built : Built memrefs) (condition : Condition)
    (plain1 : Plain memrefs condition.operand1) (plain2 : Plain memrefs condition.operand2)
    (written : Written condition.oper = true) :
    let converted := rcConditionConvertToOperand memrefs condition
    Plain converted.1 converted.2 := by
  dsimp only
  rw [rcConditionConvertToOperand]
  split
  next => exact plain1
  next =>
    refine allocated_plain memrefs built _ _ _ _ plain1 plain2 .address _ _ ?_
    rw [Sized, if_neg (fun same => by rw [same] at written; cases written)]
    refine ⟨?_, id⟩
    cases oper : condition.oper with
    | addAccumulator | subAccumulator | subParent => rw [oper] at written; cases written
    | _ => rfl

/-- A condition as an operand. Without an operator it is the first operand; with one it is a
computed reference, which holds the two combined after every frame. -/
theorem converted_denotes (memrefs : Memrefs) (built : Built memrefs) (condition : Condition)
    (whole1 : Whole memrefs condition.operand1) (whole2 : Whole memrefs condition.operand2)
    (written : Written condition.oper = true) :
    let converted := rcConditionConvertToOperand memrefs condition
    Whole converted.1 converted.2 ∧ Denotes converted.1 converted.2 (termValue condition) := by
  dsimp only
  rw [rcConditionConvertToOperand]
  split
  next none =>
    refine ⟨whole1, ?_⟩
    have value : termValue condition = valueOf condition.operand1 := by
      funext now
      rw [termValue, if_pos none]
    rw [value]
    exact denotes_value built condition.operand1 whole1.plain whole1.integer
  next some =>
    have newSize : (if (rcOperandIsFloat memrefs condition.operand1 ||
      rcOperandIsFloat memrefs condition.operand2) = true
        then MemSize.float else .bits32) = .bits32 := by
      rw [whole1.integer, whole2.integer]
      rfl
    rw [newSize]
    have plain := converted_plain memrefs built condition whole1.plain whole2.plain written
    simp only [rcConditionConvertToOperand, if_neg some, newSize] at plain
    refine ⟨⟨plain, ?_⟩, ?_⟩
    · exact rcAllocModifiedMemref_float memrefs .bits32 _ _ _
        (fun same => by rw [same] at written; cases written) _ _ _
    · intro before now follows
      obtain ⟨entry, peek, oper, unsigned, parents, modifiers, held⟩ :=
        allocated_held built .bits32 rfl condition.operand1
        condition.oper condition.operand2 whole1.plain whole2.plain follows.later
      refine (held _).trans ?_
      rw [termValue, if_neg some, rcGetModifiedMemrefValue, parents, modifiers, unsigned, oper]
      cases same : condition.oper with
      | none => exact absurd same some
      | subParent | addAccumulator | subAccumulator | indirectRead =>
        rw [same] at written; cases written
      | _ => rfl

/-- The delta of an operand of integers, and the operand that reads its value: both lead to the
same reference. -/
theorem addressed_whole {memrefs : Memrefs} (operand : Operand) (whole : Whole memrefs operand)
    (delta : ∃ ref size, operand.source = .memref .delta ref size) :
    Whole memrefs (addressed operand) := by
  obtain ⟨source, recalled, isCombining⟩ := operand
  obtain ⟨ref, size, rfl⟩ := delta
  have fits := addressed_fits memrefs _ whole.plain.fits whole.plain.recalled ⟨ref, size, rfl⟩
  have float : rcOperandIsFloat memrefs
      (addressed ⟨.memref .delta ref size, recalled, isCombining⟩) = false := by
    rw [← whole.integer]
    cases ref <;> rfl
  refine ⟨?_, float⟩
  cases whole.plain with
  | memref access index size _ inside => exact .memref .address index size isCombining inside
  | modified access index size _ entry found parent modifier sized =>
    exact .modified .address index size isCombining entry found parent modifier
      (fits.sized rfl .address index size entry rfl found parent modifier)

/-- It has before the frame what its delta is behind it. -/
theorem addressed_earlier {memrefs before now : Memrefs} (follows : Follows memrefs before now)
    (operand : Operand)
    (plain : Plain memrefs operand) (delta : ∃ ref size, operand.source = .memref .delta ref size) :
    rcEvaluateOperand before (addressed operand) = rcEvaluateOperand now operand := by
  have recalled := plain.recalled
  have inside := plain.inside
  obtain ⟨source, _, isCombining⟩ := operand
  obtain ⟨ref, size, rfl⟩ := delta
  obtain rfl := recalled
  exact (delta_earlier follows ref size isCombining isCombining inside).symm

/-- A source on top of a chain denotes the sum with it. Where the two are read as deltas, the sum
is of the values, and its delta is the sum of the deltas. -/
theorem added_denotes (memrefs : Memrefs) (built : Built memrefs) (parent : Operand)
    (oper : Operator) (operand : Operand) (newSize : MemSize)
    (integer : rcMemsizeIsFloat newSize = false) (wholeParent : Whole memrefs parent)
    (whole : Whole memrefs operand) (unprior : ¬ ReadsPrior parent) (sums : Sums oper)
    (value amount : Memrefs → UInt32) (denotesParent : Denotes memrefs parent value)
    (denotes : Denotes memrefs operand amount) :
    let added := rcOperandAddsource memrefs parent oper operand newSize
    Denotes added.1 added.2 (fun now => accumulate oper (value now) (amount now)) := by
  intro added before now follows
  revert follows
  simp only [added, rcOperandAddsource]
  split
  next access shared =>
    obtain ⟨rfl, ⟨_, delta⟩, ⟨_, delta'⟩⟩ := sharedAccess_some parent operand access shared unprior
    intro follows
    have old :=
      follows.fewer (rcAllocModifiedMemref_adds memrefs newSize (addressed parent) oper
        (addressed operand)).extends
    have inside := rcAllocModifiedMemref_inside memrefs newSize (addressed parent) oper
      (addressed operand) .delta .bits32
    have held := sum_held built newSize integer (addressed parent) oper (addressed operand)
      (addressed_whole parent wholeParent delta).plain
        (addressed_whole operand whole delta').plain sums follows.earlier _ _
      ((addressed_earlier old parent wholeParent.plain delta).trans (denotesParent before now old))
      ((addressed_earlier old operand whole.plain delta').trans
        (denotes before now old)) operand.isCombining
    exact (delta_earlier follows _ .bits32 _ _ inside).trans held
  next =>
    intro follows
    have old :=
      follows.fewer (rcAllocModifiedMemref_adds memrefs newSize parent oper operand).extends
    exact sum_held built newSize integer parent oper operand wholeParent.plain whole.plain sums
      follows.later _ _
      (denotesParent before now old) (denotes before now old) _

/-- It is of integers, if the chain is: the size of a sum comes from the chain's operand, and a
sum of integers is read as one. -/
theorem added_whole (memrefs : Memrefs) (built : Built memrefs) (parent : Operand) (oper : Operator)
    (operand : Operand) (wholeParent : Whole memrefs parent) (whole : Whole memrefs operand)
    (unprior : ¬ ReadsPrior parent)
    (sums : oper = .addAccumulator ∨ oper = .subAccumulator ∨ oper = .subParent) :
    let added := rcOperandAddsource memrefs parent oper operand .bits32
    Whole added.1 added.2 := by
  have computed : oper ≠ .indirectRead := by
    obtain rfl | rfl | rfl := sums <;> exact Operator.noConfusion
  have sized : ∀ (parent' modifier : Operand) (access : Access), Whole memrefs parent' →
      Sized memrefs access .bits32 .bits32 parent' oper modifier := by
    intro parent' modifier access whole'
    obtain rfl | rfl | rfl := sums <;> exact ⟨by rw [computedSize, whole'.integer]; rfl, id⟩
  simp only [rcOperandAddsource]
  split
  next access shared =>
    obtain ⟨rfl, ⟨_, delta⟩, ⟨_, delta'⟩⟩ := sharedAccess_some parent operand access shared unprior
    have whole1 := addressed_whole parent wholeParent delta
    have whole2 := addressed_whole operand whole delta'
    exact ⟨allocated_plain memrefs built .bits32 _ _ _ whole1.plain whole2.plain _ _ _
      (sized _ _ .delta whole1), rcAllocModifiedMemref_float _ _ _ _ _ computed _ _ _⟩
  next =>
    exact ⟨allocated_plain memrefs built .bits32 _ _ _ wholeParent.plain whole.plain _ _ _
      (sized _ _ .address wholeParent), rcAllocModifiedMemref_float _ _ _ _ _ computed _ _ _⟩

/-! ## Chains -/

/-- An operand without floats in it. -/
def OperandText.Integer : OperandText → Prop
  | .memory _ size _ => rcMemsizeIsFloat size = false
  | .const _ => True
  | _ => False

/-- An operand that neither recalls a value nor is a float constant. -/
def OperandText.Steady : OperandText → Prop
  | .memory _ _ _ | .const _ => True
  | _ => False

/-- A condition that adds or subtracts an integer, or gives an address to the next one. -/
structure Links (text : ConditionText) : Prop where
  type : text.type = .addSource ∨ text.type = .subSource ∨ text.type = .addAddress
  steady : OperandText.Steady text.operand1 ∧
    (text.modifier ≠ .none → OperandText.Steady text.operand2)
  integer : text.type ≠ .addAddress →
    OperandText.Integer text.operand1 ∧ (text.modifier ≠ .none → OperandText.Integer text.operand2)

/-- A source that leads to a reference whose current value is read. -/
def ReadsAddress (text : ConditionText) : Bool :=
  match text.modifier, text.operand1 with
  | .none, .memory .address _ _ => true
  | .none, _ => false
  | _, _ => true

/-- What a condition adds to the sum. -/
def contribution (condition : Condition) (now : Memrefs) : UInt32 :=
  match condition.type with
  | .addSource => termValue condition now
  | .subSource => -termValue condition now
  | _ => 0

/-- What holds between the conditions of a chain: what has been summed so far. A chain that
has only subtracted something else than a current value is pending. -/
structure Carried (parse : ParseState) (pending : Bool) (sum : Memrefs → UInt32) : Prop where
  sound : Sound parse
  pointer : ∀ parent, parse.indirectParent = some parent → Plain parse.memrefs parent
  empty : parse.addsourceParent = none → ∀ now, sum now = 0
  whole : ∀ parent, parse.addsourceParent = some parent → Whole parse.memrefs parent
  chain : ∀ parent, parse.addsourceParent = some parent →
    parse.addsourceOper = .addAccumulator ∧ Denotes parse.memrefs parent sum ∨
      parse.addsourceOper = .subParent ∧ Denotes parse.memrefs parent (fun now => -sum now) ∧
        (pending = false → ∃ ref size, parent.source = .memref .address ref size)

/-- A written operand, as it is parsed in a chain: a plain reference, one computed from the
pointer before it, or a constant; it is of integers as its text is. -/
theorem rcParseOperand_plain (parse : ParseState) (sound : Sound parse)
    (pointer : ∀ parent, parse.indirectParent = some parent → Plain parse.memrefs parent)
    (text : OperandText) (steady : OperandText.Steady text) :
    let parsed := rcParseOperand parse text
    Plain parsed.1.memrefs parsed.2 ∧
        (OperandText.Integer text → rcOperandIsFloat parsed.1.memrefs parsed.2 = false) := by
  cases text with
  | memory access size address =>
    cases indirect : parse.indirectParent with
    | none =>
      obtain ⟨_, index, place, inside⟩ :=
        rcAllocMemref_adds parse.memrefs address (referenceSize access size)
      simp only [rcParseOperand, rcParseOperandMemory, indirect, place]
      exact ⟨.memref access index size false inside, id⟩
    | some parent =>
      have plainConst : Plain parse.memrefs (rcOperandSetConst address) := .const address false
      have plain :=
        allocated_plain parse.memrefs sound.built (referenceSize access size) parent .indirectRead
        (rcOperandSetConst address) (pointer parent indirect) plainConst access size false rfl
      obtain ⟨index, entry, place, found, _, types, _⟩ :=
        rcAllocModifiedMemref_entry parse.memrefs sound.built
        (referenceSize access size) parent .indirectRead (rcOperandSetConst address)
          (pointer parent indirect) plainConst
      simp only [rcParseOperand, rcParseOperandMemory, indirect]
      refine ⟨plain, fun integer => ?_⟩
      simp only [rcOperandIsFloat, Bool.false_eq_true, if_false, place, found, types, ne_eq,
        not_true, if_false]
      exact integer
  | const num => exact ⟨.const num false, fun _ => rfl⟩
  | fp | func | recalled => exact absurd steady id

/-- A written condition, as it is parsed in a chain. -/
structure Linked (memrefs : Memrefs) (text : ConditionText) (condition : Condition) : Prop where
  plain1 : Plain memrefs condition.operand1
  plain2 : Plain memrefs condition.operand2
  whole : text.type ≠ .addAddress → Whole memrefs condition.operand1 ∧
    Whole memrefs condition.operand2
  address : text.modifier = .none → ReadsAddress text = true →
    ∃ ref size, condition.operand1.source = .memref .address ref size

/-- An integer constant is whole. -/
theorem const_whole (memrefs : Memrefs) (num : UInt32) : Whole memrefs (rcOperandSetConst num) :=
  ⟨.const num false, rfl⟩

/-- A condition of a chain is parsed to plain operands, of integers unless it is an `AddAddress`.
A current value that it adds without a modifier is read by its address. -/
theorem rcParseConditionInternal_linked (parse : ParseState) (sound : Sound parse)
    (pointer : ∀ parent, parse.indirectParent = some parent → Plain parse.memrefs parent)
    (text : ConditionText) (links : Links text) :
    let parsed := rcParseConditionInternal parse text
    Linked parsed.1.memrefs text parsed.2 := by
  obtain ⟨same1, yields1⟩ := rcParseOperand_sound parse sound text.operand1
  obtain ⟨plain1, integer1⟩ := rcParseOperand_plain parse sound pointer text.operand1 links.steady.1
  have address : text.modifier = .none → ReadsAddress text = true →
      ∃ ref size, (rcParseOperand parse text.operand1).2.source = .memref .address ref size := by
    intro none reads
    cases operand : text.operand1 with
    | memory access size address =>
      cases access with
      | address => exact ⟨_, size, rfl⟩
      | _ => simp [ReadsAddress, none, operand] at reads
    | _ => simp [ReadsAddress, none, operand] at reads
  have sound1 : Sound (rcParseOperand parse text.operand1).1 := by
    rw [same1]
    exact sound.more yields1.adds yields1.built
  have pointer1 : ∀ parent, (rcParseOperand parse text.operand1).1.indirectParent = some parent →
      Plain (rcParseOperand parse text.operand1).1.memrefs parent := by
    rw [same1]
    exact fun parent is => (pointer parent is).extends yields1.adds.extends
  obtain ⟨same2, yields2⟩ := rcParseOperand_sound _ sound1 text.operand2
  dsimp only
  rw [rcParseConditionInternal]
  dsimp only
  split
  next none =>
    exact ⟨plain1, .const 1 false,
      fun source => ⟨⟨plain1, integer1 (links.integer source).1⟩, const_whole _ 1⟩, address⟩
  next =>
    have later : OperandText.Integer text.operand1 →
      Whole (rcParseOperand (rcParseOperand parse text.operand1).1 text.operand2).1.memrefs
        (rcParseOperand parse text.operand1).2 :=
          fun integer => Whole.more ⟨plain1, integer1 integer⟩ yields2.adds
    split
    next none =>
      exact ⟨plain1.extends yields2.adds.extends, .const 0 false,
        fun source => ⟨later (links.integer source).1, const_whole _ 0⟩, address⟩
    next some =>
      obtain ⟨plain2, integer2⟩ :=
        rcParseOperand_plain _ sound1 pointer1 text.operand2 (links.steady.2 some)
      exact ⟨plain1.extends yields2.adds.extends, plain2, fun source =>
        ⟨later (links.integer source).1, plain2, integer2 ((links.integer source).2 some)⟩, address⟩

/-- What is subtracted from has been turned into a reference that is read as it is. A constant has
zero added to it, and a chain that began by subtracting is zero less its start. -/
theorem beforeSubtracting_denotes (pointer : Ref → UInt64) (memrefs : Memrefs)
    (built : Built memrefs) (parent : Operand)
    (whole : Whole memrefs parent) (oper : Operator) (sum : Memrefs → UInt32)
    (chain : oper = .addAccumulator ∧ Denotes memrefs parent sum ∨
      oper = .subParent ∧ Denotes memrefs parent
      (fun now => -sum now) ∧ ∃ ref size, parent.source = .memref .address ref size) :
    let before := beforeSubtracting pointer memrefs parent oper
    Whole before.1 before.2 ∧ Denotes before.1 before.2 sum ∧
        rcOperandIsMemref before.2 = true := by
  have zero : ∀ before now, Follows memrefs before now →
      rcEvaluateOperand now (rcOperandSetConst 0) = ⟨.unsigned, 0⟩ :=
    fun _ _ _ => rfl
  dsimp only
  rw [beforeSubtracting]
  obtain ⟨rfl, denotes⟩ | ⟨rfl, denotes, ref, size, source⟩ := chain
  · split
    next constant =>
      have size : Conditions.sizeOf parent = .bits32 := by
        cases whole.plain with
        | const => rfl
        | memref | modified => exact absurd rfl constant.2
      have sized :
          Sized memrefs .address .bits32 .bits32 parent .addAccumulator (rcOperandSetConst 0) :=
        ⟨by rw [computedSize, whole.integer]; rfl, id⟩
      rw [size]
      refine ⟨⟨allocated_plain memrefs built .bits32 _ _ _ whole.plain (.const 0 false) _ _ _ sized,
        rcAllocModifiedMemref_float _ _ _ _ _ Operator.noConfusion _ _ _⟩, fun before now follows =>
          ?_, rfl⟩
      have old :=
        follows.fewer (rcAllocModifiedMemref_adds memrefs .bits32 parent .addAccumulator
          (rcOperandSetConst 0)).extends
      have held := sum_held built .bits32 rfl parent .addAccumulator
        (rcOperandSetConst 0) whole.plain (.const 0 false) (Or.inl rfl)
        follows.later _ _ (denotes before now old) (zero before now old) parent.isCombining
      have total : accumulate .addAccumulator (sum now) 0 = sum now := UInt32.add_zero _
      rwa [total] at held
    next memref =>
      rw [if_neg (fun same => by cases same)]
      exact ⟨whole, denotes, by simpa using memref⟩
  · rw [if_neg (fun both => by cases both.1), if_pos rfl]
    have recalled := whole.plain.recalled
    have sized : Sized memrefs .address .bits32 .bits32 parent .subParent (rcOperandSetConst 0) :=
      ⟨by rw [computedSize, whole.integer]; rfl, id⟩
    simp only [whole.integer, Bool.false_eq_true, if_false, source, repointed, recalled]
    refine ⟨⟨allocated_plain memrefs built .bits32 _ _ _ whole.plain (.const 0 false) _ _ _ sized,
      rcAllocModifiedMemref_float _ _ _ _ _ Operator.noConfusion _ _ _⟩, fun before now follows =>
        ?_, rfl⟩
    have old :=
      follows.fewer (rcAllocModifiedMemref_adds memrefs .bits32 parent .subParent
        (rcOperandSetConst 0)).extends
    have held := sum_held built .bits32 rfl parent .subParent (rcOperandSetConst 0) whole.plain
      (.const 0 false)
      (Or.inr (Or.inr (Or.inl rfl))) follows.later _ _ (denotes before now old)
        (zero before now old) parent.isCombining
    have total : accumulate .subParent (-sum now) 0 = sum now := by
      rw [accumulate, UInt32.sub_neg, UInt32.zero_add]
    rwa [total] at held

/-- What a chain carries stands in larger pools. -/
theorem Carried.more {parse : ParseState} {pending : Bool} {sum : Memrefs → UInt32}
    (carried : Carried parse pending sum)
    {memrefs : Memrefs} (adds : Adds parse.memrefs memrefs) (built : Built memrefs) :
    Carried { parse with memrefs := memrefs } pending sum where
  sound := carried.sound.more adds built
  pointer parent is := (carried.pointer parent is).extends adds.extends
  empty := carried.empty
  whole parent is := (carried.whole parent is).more adds
  chain parent is := (carried.chain parent is).imp (fun both => ⟨both.1, both.2.more adds⟩)
    (fun both => ⟨both.1, both.2.1.more adds, both.2.2⟩)

/-- The address of the next condition is remembered, and the sum so far is left: the operand that
an `AddAddress` leaves is plain, as those of its text are. -/
theorem addAddress_carried (pointer : Ref → UInt64) (parse : ParseState) (pending : Bool)
    (sum : Memrefs → UInt32) (carried : Carried parse pending sum) (text : ConditionText)
    (regular : Regular text) (condition : Condition)
    (parsed : ParsedAs parse.memrefs text condition) (linked : Linked parse.memrefs text condition)
    (type : text.type = .addAddress) :
    Carried (rcConditionUpdateParseState pointer parse condition).1 pending sum := by
  have written : Written condition.oper = true := by
    rw [parsed.oper]
    exact modifier_written text regular.written
  have sound :=
    (rcConditionUpdateParseState_sound pointer parse carried.sound text regular condition parsed).1
  have converted :=
    rcConditionConvertToOperand_yields parse.memrefs carried.sound.built condition parsed.fits1
      parsed.fits2 written
  have plain :=
    converted_plain parse.memrefs carried.sound.built condition linked.plain1 linked.plain2 written
  have kept := carried.more converted.adds converted.built
  simp only [rcConditionUpdateParseState, parsed.type, type] at sound ⊢
  refine ⟨sound, fun parent is => ?_, kept.empty, kept.whole, kept.chain⟩
  cases is
  exact plain

/-- A source that is added: it begins the chain, whose sum was empty, or comes on top of it by the
operator that the chain is left with. -/
theorem addSource_carried (pointer : Ref → UInt64) (parse : ParseState) (pending : Bool)
    (sum : Memrefs → UInt32) (carried : Carried parse pending sum) (text : ConditionText)
    (regular : Regular text) (condition : Condition)
    (parsed : ParsedAs parse.memrefs text condition) (linked : Linked parse.memrefs text condition)
    (type : text.type = .addSource) :
    Carried (rcConditionUpdateParseState pointer parse condition).1 false
      (fun now => sum now + termValue condition now) := by
  have written : Written condition.oper = true := by
    rw [parsed.oper]
    exact modifier_written text regular.written
  have sound :=
    (rcConditionUpdateParseState_sound pointer parse carried.sound text regular condition parsed).1
  have converted :=
    rcConditionConvertToOperand_yields parse.memrefs carried.sound.built condition parsed.fits1
      parsed.fits2 written
  obtain ⟨whole1, whole2⟩ := linked.whole (by rw [type]; exact ConditionType.noConfusion)
  obtain ⟨whole, denotes⟩ :=
    converted_denotes parse.memrefs carried.sound.built condition whole1 whole2 written
  have kept := carried.more converted.adds converted.built
  cases chain : parse.addsourceParent with
  | none =>
    have total : (fun now => sum now + termValue condition now) = termValue condition := by
      funext now
      rw [carried.empty chain now, UInt32.zero_add]
    rw [total]
    simp only [rcConditionUpdateParseState, parsed.type, type, addSource, chain] at sound ⊢
    exact ⟨sound, fun _ is => (by cases is), fun is => (by cases is),
      fun parent is => by cases is; exact whole,
      fun parent is => by cases is; exact Or.inl ⟨rfl, denotes⟩⟩
  | some parent =>
    have wholeParent := kept.whole parent chain
    have unprior := (carried.sound.addsource parent chain).2
    have size : (if rcOperandIsFloat parse.memrefs parent = true then MemSize.float else .bits32) =
        .bits32 := by
      rw [(carried.whole parent chain).integer]
      rfl
    simp only [rcConditionUpdateParseState, parsed.type, type, addSource, chain, size] at sound ⊢
    have operands : parse.addsourceOper = .addAccumulator ∨ parse.addsourceOper = .subAccumulator ∨
        parse.addsourceOper = .subParent :=
      (carried.sound.oper (by rw [chain]; rfl)).imp id Or.inr
    refine ⟨sound, fun _ is => (by cases is), fun is => (by cases is), fun parent is => ?_,
      fun parent is => Or.inl ⟨rfl, ?_⟩⟩
    · cases is
      exact added_whole _ converted.built _ _ _ wholeParent whole unprior operands
    · cases is
      obtain ⟨oper, value⟩ | ⟨oper, value, _⟩ := kept.chain parent chain
      all_goals
        simp only at oper
        rw [oper]
      · exact added_denotes _ converted.built _ _ _ .bits32 rfl wholeParent whole unprior
          (Or.inl rfl) _ _ value denotes
      · have added := added_denotes _ converted.built _ _ _ .bits32 rfl wholeParent whole unprior
          (Or.inr (Or.inr (Or.inl rfl))) _ _
          value denotes
        have total : (fun now => accumulate .subParent (-sum now) (termValue condition now)) =
            fun now => sum now + termValue condition now := by
          funext now
          rw [accumulate, UInt32.sub_neg, UInt32.add_comm]
        rwa [total] at added

/-- A source that is subtracted. One that begins the chain is kept as it is, with the operator
that will negate it; otherwise the chain is first made fit to be subtracted from. -/
theorem subSource_carried (pointer : Ref → UInt64) (parse : ParseState) (pending : Bool)
    (sum : Memrefs → UInt32) (carried : Carried parse pending sum) (text : ConditionText)
    (regular : Regular text) (condition : Condition)
    (parsed : ParsedAs parse.memrefs text condition) (linked : Linked parse.memrefs text condition)
    (type : text.type = .subSource) (opened : parse.addsourceParent.isSome → pending = false) :
    Carried (rcConditionUpdateParseState pointer parse condition).1
      (parse.addsourceParent.isNone && !ReadsAddress text)
        (fun now => sum now + -termValue condition now) := by
  have written : Written condition.oper = true := by
    rw [parsed.oper]
    exact modifier_written text regular.written
  have sound :=
    (rcConditionUpdateParseState_sound pointer parse carried.sound text regular condition parsed).1
  obtain ⟨whole1, whole2⟩ := linked.whole (by rw [type]; exact ConditionType.noConfusion)
  cases chain : parse.addsourceParent with
  | none =>
    obtain ⟨whole, denotes⟩ :=
      converted_denotes parse.memrefs carried.sound.built condition whole1 whole2 written
    simp only [rcConditionUpdateParseState, parsed.type, type, subSource, chain] at sound ⊢
    refine ⟨sound, fun _ is => (by cases is), fun is => (by cases is),
      fun parent is => by cases is; exact whole, fun parent is => ?_⟩
    cases is
    refine Or.inr ⟨rfl, ?_, fun settled => ?_⟩
    · have total : (fun now => -(sum now + -termValue condition now)) = termValue condition := by
        funext now
        rw [carried.empty chain now, UInt32.zero_add, UInt32.neg_neg]
      rw [total]
      exact denotes
    · have reads : ReadsAddress text = true := by simpa using settled
      rw [rcConditionConvertToOperand]
      split
      next none => exact linked.address (parsed.oper.symm.trans none) reads
      next => exact ⟨_, _, rfl⟩
  | some parent =>
    have addressed : parse.addsourceOper = .addAccumulator ∧ Denotes parse.memrefs parent sum ∨
        parse.addsourceOper = .subParent ∧ Denotes parse.memrefs parent (fun now => -sum now) ∧
          ∃ ref size, parent.source = .memref .address ref size :=
      (carried.chain parent chain).imp id
        (fun both => ⟨both.1, both.2.1, both.2.2 (opened (by rw [chain]; rfl))⟩)
    have unprior := (carried.sound.addsource parent chain).2
    obtain ⟨wholeBefore, denotesBefore, memref⟩ :=
      beforeSubtracting_denotes pointer parse.memrefs carried.sound.built parent
      (carried.whole parent chain) parse.addsourceOper sum addressed
    obtain ⟨before, _, unpriorBefore⟩ :=
      beforeSubtracting_yields pointer parse.memrefs carried.sound.built parent
      parse.addsourceOper (carried.sound.addsource parent chain).1 unprior
    obtain ⟨whole, denotes⟩ := converted_denotes _ before.built condition (whole1.more before.adds)
      (whole2.more before.adds) written
    have converted := rcConditionConvertToOperand_yields _ before.built condition
      (parsed.fits1.extends before.adds.extends carried.sound.built)
        (parsed.fits2.extends before.adds.extends carried.sound.built) written
    have size : (if rcOperandIsFloat parse.memrefs parent = true then MemSize.float else .bits32) =
        .bits32 := by
      rw [(carried.whole parent chain).integer]
      rfl
    simp only [rcConditionUpdateParseState, parsed.type, type, subSource, chain, size, memref,
      if_true] at sound ⊢
    refine ⟨sound, fun _ is => (by cases is), fun is => (by cases is), fun parent is => ?_,
      fun parent is => Or.inl ⟨rfl, ?_⟩⟩
    · cases is
      exact added_whole _ converted.built _ _ _
        (wholeBefore.more converted.adds) whole unpriorBefore (Or.inr (Or.inl rfl))
    · cases is
      have added := added_denotes _ converted.built _ .subAccumulator _ .bits32 rfl
        (wholeBefore.more converted.adds) whole
        unpriorBefore (Or.inr (Or.inl rfl)) _ _ (denotesBefore.more converted.adds) denotes
      have total : (fun now => accumulate .subAccumulator (sum now) (termValue condition now)) =
          fun now => sum now + -termValue condition now := by
        funext now
        rw [accumulate, UInt32.sub_eq_add_neg]
      rwa [total] at added

/-- The conditions that add or subtract. -/
def sources (texts : List ConditionText) : List ConditionText :=
  texts.filter (fun text => text.type = .addSource ∨ text.type = .subSource)

/-- A chain does not start with two sources that are subtracted, unless the first reads a
current value. `fresh` is a chain without sources. -/
def Opens (fresh pending : Bool) (texts : List ConditionText) : Prop :=
  match sources texts with
  | [] => True
  | first :: rest =>
    first.type = .subSource →
      if fresh then ReadsAddress first = false → ∀ second ∈ rest.head?, second.type ≠ .subSource
      else pending = false

/-- The sum of a chain. -/
def total (conditions : List Condition) (now : Memrefs) : UInt32 :=
  (conditions.map (fun condition => contribution condition now)).sum

/-- Behind the first sources, nothing is asked. -/
theorem opens_settled (texts : List ConditionText) : Opens false false texts := by
  rw [Opens]
  split
  next => trivial
  next =>
    intro _
    rw [if_neg Bool.noConfusion]

/-- Behind a first source that is subtracted, a second one may only be subtracted too if the first
is read by its address. -/
theorem opens_second {pending : Bool} (text : ConditionText) (texts : List ConditionText)
    (type : text.type = .subSource)
    (opens : Opens true pending (text :: texts)) : Opens false (!ReadsAddress text) texts := by
  have same : sources (text :: texts) = text :: sources texts := by simp [sources, type]
  rw [Opens, same] at opens
  have second := opens type
  rw [if_pos rfl] at second
  rw [Opens]
  cases behind : sources texts with
  | nil => trivial
  | cons first rest =>
    intro subtracts
    rw [if_neg Bool.noConfusion]
    cases reads : ReadsAddress text with
    | true => rfl
    | false => exact absurd subtracts (second reads first (by rw [behind]; rfl))

/-- A turn of the loop, within a chain: what is carried grows by what the condition contributes.
By its type, as a chain holds sources and addresses only. -/
theorem parseCondition_carried (pointer : Ref → UInt64) (parse : ParseState) (pending : Bool)
    (sum : Memrefs → UInt32) (carried : Carried parse pending sum) (text : ConditionText)
    (regular : Regular text) (links : Links text) (texts : List ConditionText)
    (opens : Opens parse.addsourceParent.isNone pending (text :: texts)) :
    let parsed := parseCondition pointer parse text
    ∃ pending', Carried parsed.1 pending' (fun now => sum now + contribution parsed.2 now) ∧
      Opens parsed.1.addsourceParent.isNone pending' texts := by
  obtain ⟨same, adds, built, parsed⟩ := rcParseConditionInternal_sound parse carried.sound text
  have linked : Linked (rcParseConditionInternal parse text).1.memrefs text
      (rcParseConditionInternal parse text).2 :=
    rcParseConditionInternal_linked parse carried.sound carried.pointer text links
  have start : Carried (rcParseConditionInternal parse text).1 pending sum := by
    rw [same]
    exact carried.more adds built
  have parent : (rcParseConditionInternal parse text).1.addsourceParent = parse.addsourceParent :=
    by rw [same]
  rw [← parent] at opens
  dsimp only [parseCondition]
  generalize (rcParseConditionInternal parse text).1 = before at *
  generalize (rcParseConditionInternal parse text).2 = condition at *
  obtain type | type | type := links.type
  · have next :=
      addSource_carried pointer before pending sum start text regular condition parsed linked type
    refine ⟨false, ?_, ?_⟩
    · simpa only [rcConditionUpdateParseState, contribution, parsed.type, type] using next
    · simp only [rcConditionUpdateParseState, parsed.type, type, addSource, Option.isNone_some]
      exact opens_settled texts
  · have opened : before.addsourceParent.isSome → pending = false := by
      intro some
      have sourcesSame : sources (text :: texts) = text :: sources texts := by simp [sources, type]
      have fresh : before.addsourceParent.isNone = false := by simpa using some
      rw [Opens, sourcesSame, fresh] at opens
      have settled := opens type
      rwa [if_neg Bool.noConfusion] at settled
    have next :=
      subSource_carried pointer before pending sum start text regular condition parsed linked type
        opened
    refine ⟨before.addsourceParent.isNone && !ReadsAddress text, ?_, ?_⟩
    · simpa only [rcConditionUpdateParseState, contribution, parsed.type, type] using next
    · cases chain : before.addsourceParent with
      | none =>
        rw [chain] at opens
        simp only [rcConditionUpdateParseState, parsed.type, type, subSource, chain,
          Option.isNone_some, Option.isNone_none, Bool.true_and]
        exact opens_second text texts type opens
      | some =>
        simp only [rcConditionUpdateParseState, parsed.type, type, subSource, chain,
          Option.isNone_some, Bool.false_and]
        exact opens_settled texts
  · have next :=
      addAddress_carried pointer before pending sum start text regular condition parsed linked type
    have sourcesSame : sources (text :: texts) = sources texts := by simp [sources, type]
    refine ⟨pending, ?_, ?_⟩
    · simpa only [rcConditionUpdateParseState, contribution, parsed.type, type,
        UInt32.add_zero] using next
    · simp only [rcConditionUpdateParseState, parsed.type, type]
      rwa [Opens, sourcesSame] at opens

/-- The conditions of a chain, by induction: the sum that is carried in the end is the one at the
start with the contributions of all of them. -/
theorem parseConditions_carried (pointer : Ref → UInt64) (texts : List ConditionText)
    (regular : ∀ text ∈ texts, Regular text) (links : ∀ text ∈ texts, Links text)
    (parse : ParseState) (pending : Bool) (sum : Memrefs → UInt32)
    (carried : Carried parse pending sum)
    (opens : Opens parse.addsourceParent.isNone pending texts) :
    let parsed := parseConditions pointer parse texts
    ∃ pending', Carried parsed.1 pending' (fun now => sum now + total parsed.2 now) := by
  induction texts generalizing parse pending sum with
  | nil =>
    refine ⟨pending, ?_⟩
    simpa only [parseConditions, total, List.map_nil, List.sum_nil, UInt32.add_zero] using carried
  | cons text texts inductionHypothesis =>
    obtain ⟨pending', next, opens'⟩ := parseCondition_carried pointer parse pending sum carried text
      (regular text List.mem_cons_self)
      (links text List.mem_cons_self) texts opens
    obtain ⟨pending'', last⟩ :=
      inductionHypothesis (fun later member => regular later (List.mem_cons_of_mem text member))
      (fun later member => links later (List.mem_cons_of_mem text member)) _ pending' _ next opens'
    refine ⟨pending'', ?_⟩
    simpa only [parseConditions, total, List.map_cons, List.sum_cons, UInt32.add_assoc] using last

/-- A condition that ends a chain, with an integer, and computes nothing more from it. -/
structure Ends (text : ConditionText) (isValue : Bool) : Prop where
  type : text.type ≠ .addSource ∧ text.type ≠ .subSource ∧ text.type ≠ .addAddress ∧
    text.type ≠ .remember
  compared : text.type = .measured → isValue = true → rcOperatorIsModifying text.oper = false
  integer : OperandText.Integer text.operand1

/-- An operand of an integer needs no float. -/
theorem integer_steady (text : OperandText) (integer : OperandText.Integer text) :
    OperandText.Steady text := by
  cases text with
  | memory | const => trivial
  | _ => exact absurd integer id

/-- The first operand of a condition, as it is parsed, is plain and of integers; parsing the
second operand only adds references. -/
theorem rcParseConditionInternal_whole (parse : ParseState) (sound : Sound parse)
    (pointer : ∀ parent, parse.indirectParent = some parent → Plain parse.memrefs parent)
    (text : ConditionText) (integer : OperandText.Integer text.operand1) :
    let parsed := rcParseConditionInternal parse text
    Whole parsed.1.memrefs parsed.2.operand1 := by
  obtain ⟨same1, yields1⟩ := rcParseOperand_sound parse sound text.operand1
  obtain ⟨plain1, integer1⟩ :=
    rcParseOperand_plain parse sound pointer text.operand1 (integer_steady _ integer)
  have sound1 : Sound (rcParseOperand parse text.operand1).1 := by
    rw [same1]
    exact sound.more yields1.adds yields1.built
  obtain ⟨_, yields2⟩ := rcParseOperand_sound _ sound1 text.operand2
  have whole :
      Whole (rcParseOperand parse text.operand1).1.memrefs (rcParseOperand parse text.operand1).2 :=
    ⟨plain1, integer1 integer⟩
  dsimp only
  rw [rcParseConditionInternal]
  dsimp only
  split
  next => exact whole
  next => split <;> exact whole.more yields2.adds

/-- An operand that is whole has the size of an integer; for a computed one this is since its size
is that of what it is computed from. -/
theorem whole_sized {memrefs : Memrefs} (operand : Operand) (whole : Whole memrefs operand) :
    rcMemsizeIsFloat (Conditions.sizeOf operand) = false := by
  have integer := whole.integer
  cases whole.plain with
  | const => rfl
  | memref => exact integer
  | modified access index size isCombining entry found parent modifier sized =>
    simp only [rcOperandIsFloat, Bool.false_eq_true, if_false, found] at integer
    rw [SizedFor, Sized] at sized
    split at sized
    next indirect => rwa [if_neg (not_not.mpr indirect)] at integer
    next computed =>
      rw [if_pos computed] at integer
      exact Bool.eq_false_iff.mpr (fun float => by rw [sized.2 float] at integer; cases integer)

/-- The condition behind a chain compares the sum: its first operand is added to what the chain
carries, by the chain's operator, and the second one is left alone. -/
theorem closed_denotes (pointer : Ref → UInt64) (parse : ParseState) (pending : Bool)
    (sum : Memrefs → UInt32)
    (carried : Carried parse pending sum) (text : ConditionText) (ends : Ends text parse.isValue) :
    let parsed := rcParseConditionInternal parse text
    let closed := rcConditionUpdateParseState pointer parsed.1 parsed.2
    Denotes closed.1.memrefs closed.2.operand1
        (fun now => sum now + valueOf parsed.2.operand1 now) := by
  obtain ⟨same, adds, built, parsed⟩ := rcParseConditionInternal_sound parse carried.sound text
  have whole : Whole (rcParseConditionInternal parse text).1.memrefs
      (rcParseConditionInternal parse text).2.operand1 :=
    rcParseConditionInternal_whole parse carried.sound carried.pointer text ends.integer
  have start : Carried (rcParseConditionInternal parse text).1 pending sum := by
    rw [same]
    exact carried.more adds built
  have value : (rcParseConditionInternal parse text).1.isValue = parse.isValue := by rw [same]
  dsimp only
  generalize (rcParseConditionInternal parse text).1 = before at *
  generalize (rcParseConditionInternal parse text).2 = condition at *
  have denotes := denotes_value built condition.operand1 whole.plain whole.integer
  have unconverted : ¬ (condition.type = .measured ∧ before.isValue = true ∧
      rcOperatorIsModifying condition.oper = true) := by
    rintro ⟨measured, isValue, modifying⟩
    rw [parsed.type] at measured
    rw [value] at isValue
    have oper : condition.oper = text.oper := by
      rw [parsed.oper, ConditionText.modifier, measured]
    rw [oper, ends.compared measured isValue] at modifying
    cases modifying
  have sized := whole_sized condition.operand1 whole
  obtain ⟨add, sub, address, remember⟩ := ends.type
  rw [rcConditionUpdateParseState]
  rw [← parsed.type] at add sub address remember
  split
  next type => exact absurd type address
  next type => exact absurd type add
  next type => exact absurd type sub
  next type => exact absurd type remember
  next =>
    rw [if_neg unconverted]
    cases chain : before.addsourceParent with
    | none =>
      have empty :
          (fun now => sum now + valueOf condition.operand1 now) = valueOf condition.operand1 := by
        funext now
        rw [start.empty chain now, UInt32.zero_add]
      rw [empty]
      simp only [closed, chain, Option.isSome_none, Bool.false_eq_true, if_false]
      exact denotes
    | some parent =>
      have unprior := (start.sound.addsource parent chain).2
      have ended : ∀ oper value, Sums oper → Denotes before.memrefs parent value →
          Denotes (closed before before.memrefs oper condition.operand1).1
            (closed before before.memrefs oper condition.operand1).2
            (fun now => accumulate oper (value now) (valueOf condition.operand1 now)) := by
        intro oper value sums parentDenotes
        simp only [closed, chain]
        exact added_denotes before.memrefs start.sound.built parent oper condition.operand1 _ sized
          (start.whole parent chain) whole
          unprior sums value _ parentDenotes denotes
      simp only [Option.isSome_some, if_true]
      obtain ⟨oper, parentDenotes⟩ | ⟨oper, parentDenotes, _⟩ := start.chain parent chain
      · rw [oper]
        exact ended .add sum (Or.inr (Or.inr (Or.inr rfl))) parentDenotes
      · rw [oper]
        have value :
          (fun now => accumulate .subParent (-sum now) (valueOf condition.operand1 now)) =
            fun now => sum now + valueOf condition.operand1 now := by
          funext now
          rw [accumulate, UInt32.sub_neg, UInt32.add_comm]
        rw [← value]
        exact ended .subParent _ (Or.inr (Or.inr (Or.inl rfl))) parentDenotes

/-! ## Runs -/

/-- A reference has, as its delta, what it had before an update. -/
theorem rcUpdateMemrefValue_delta (memref : MemrefValue) (newValue : UInt32) :
    deltaOf (rcUpdateMemrefValue memref newValue) = memref.value := by
  rw [rcUpdateMemrefValue]
  split
  next same => simp [deltaOf]
  next => simp [deltaOf]

/-- Two frames with anything between them but a frame: what is parsed between them adds references
and leaves values, so the second finds the values that the first has left. -/
theorem frames_follow (pointer : Ref → UInt64) (memrefs : Memrefs) (built : Built memrefs)
    (events quiet : List Event) (regular : ∀ event ∈ events ++ quiet, Event.Regular event)
    (still : ∀ event ∈ quiet, Event.Quiet event) (first second : RcPeek) :
    let before := after pointer (rcUpdateMemrefValues (after pointer memrefs events) first) quiet
    Follows memrefs before (rcUpdateMemrefValues before second) := by
  obtain ⟨builtThen, extendsThen⟩ :=
    after_built pointer events (fun event member => regular event (List.mem_append_left _ member))
    memrefs built
  have quietRegular : ∀ event ∈ quiet, Event.Regular event := fun event member =>
    regular event (List.mem_append_right _ member)
  dsimp only
  generalize after pointer memrefs events = middle at *
  have builtFirst := change_built middle builtThen (.frame first) trivial
  have extendsFirst := change_extends middle builtThen.ordered (.frame first)
  have settledFirst := ordered_settled middle builtThen.ordered builtThen.live first
  have adds := after_adds pointer quiet quietRegular still _ builtFirst
  obtain ⟨builtBefore, _⟩ := after_built pointer quiet quietRegular _ builtFirst
  simp only [Memrefs.change] at builtFirst extendsFirst adds builtBefore
  generalize after pointer (rcUpdateMemrefValues middle first) quiet = before at *
  have extendsBefore : Extends memrefs before := (extendsThen.trans extendsFirst).trans adds.extends
  have extendsNow := change_extends before builtBefore.ordered (.frame second)
  refine ⟨⟨extendsBefore, fun index entry inside found => ⟨first, ?_⟩⟩,
    ⟨extendsBefore.trans extendsNow, fun index entry _ found => ⟨second, ?_⟩⟩,
    fun index memref inside found => ?_, fun index entry inside found => ?_⟩
  · obtain ⟨value, there, _⟩ :=
      (extendsThen.trans extendsFirst).modified index _ (List.getElem?_eq_getElem inside)
    have within := (List.getElem?_eq_some_iff.mp there).1
    have same : before.modifiedMemrefs[index]? =
        (rcUpdateMemrefValues middle first).modifiedMemrefs[index]? := by
      rw [List.getElem?_eq_getElem within,
        List.getElem?_eq_getElem (Nat.lt_of_lt_of_le within adds.modified.length_le)]
      exact congrArg some (adds.modified.getElem within).symm
    rw [same] at found
    have sound := builtFirst.computed index entry found
    have held := settledFirst.computed entry (List.mem_of_getElem? found)
    rw [held]
    simp only [rcGetModifiedMemrefValue, adds.evaluate _ sound.parentFits.inside,
      adds.evaluate _ sound.modifierFits.inside]
  · exact (ordered_settled before builtBefore.ordered builtBefore.live second).computed entry
      (List.mem_of_getElem? found)
  · refine ⟨rcUpdateMemrefValue memref.value (rcPeekValue memref.address memref.value.size second),
      ?_, rcUpdateMemrefValue_delta _ _, (rcUpdateMemrefValue_kind _ _).2⟩
    have live : memref.value.type ≠ .none := by
      rw [builtBefore.typed memref (List.mem_of_getElem? found)]
      exact ValueType.noConfusion
    rw [rcUpdateMemrefValues_memrefs, List.getElem?_map, found, Option.map_some, updateMemref,
      if_pos live]
  · refine ⟨rcUpdateMemrefValue entry.memref.value
      (rcGetModifiedMemrefValue (rcUpdateMemrefValues before second) entry second), ?_,
      rcUpdateMemrefValue_delta _ _, (rcUpdateMemrefValue_kind _ _).2⟩
    rw [rcUpdateMemrefValues_modified before builtBefore.ordered, found, Option.map_some,
      ModifiedMemref.updatedIn]

/-! ## The verdict -/

/-- A condition that adds to no chain and gives no address. -/
def Unlinked (text : ConditionText) : Prop :=
  text.type ≠ .addSource ∧ text.type ≠ .subSource ∧ text.type ≠ .addAddress

/-- Parsing keeps what kind of expression it is in, and leaves nothing open behind an unlinked
condition. -/
theorem parseCondition_left (pointer : Ref → UInt64) (parse : ParseState) (sound : Sound parse)
    (text : ConditionText) :
    let parsed := (parseCondition pointer parse text).1
    parsed.isValue = parse.isValue ∧
        (Unlinked text → parsed.addsourceParent = none ∧ parsed.indirectParent = none) := by
  obtain ⟨same, _, _, parsed⟩ := rcParseConditionInternal_sound parse sound text
  have value : (rcParseConditionInternal parse text).1.isValue = parse.isValue := by rw [same]
  dsimp only [parseCondition]
  generalize (rcParseConditionInternal parse text).1 = before at *
  generalize (rcParseConditionInternal parse text).2 = condition at *
  rw [← value, Unlinked, ← parsed.type, rcConditionUpdateParseState]
  split
  next type => exact ⟨rfl, fun unlinked => absurd type unlinked.2.2⟩
  next type => exact ⟨rfl, fun unlinked => absurd type unlinked.1⟩
  next type =>
    refine ⟨?_, fun unlinked => absurd type unlinked.2.1⟩
    rw [subSource]
    split <;> rfl
  next =>
    split
    next nothing => exact ⟨rfl, fun _ =>
      ⟨Option.isNone_iff_eq_none.mp nothing.2.2.1, Option.isNone_iff_eq_none.mp nothing.2.2.2⟩⟩
    next => exact ⟨rfl, fun _ => ⟨rfl, rfl⟩⟩
  next => exact ⟨rfl, fun _ => ⟨rfl, rfl⟩⟩

/-- Parsing a condition keeps the state sound, and adds to the pools only. -/
theorem parseCondition_sound (pointer : Ref → UInt64) (parse : ParseState) (sound : Sound parse)
    (text : ConditionText) (regular : Regular text) :
    Sound (parseCondition pointer parse text).1 ∧
    Adds parse.memrefs (parseCondition pointer parse text).1.memrefs :=
  parseConditions_sound pointer [text]
    (fun _ member => by rw [List.mem_singleton.mp member]; exact regular) parse sound

/-- What is open behind some conditions is what the last of them leaves, so nothing is, unless
that one links to the next. -/
theorem parseConditions_left (pointer : Ref → UInt64) (texts : List ConditionText)
    (regular : ∀ text ∈ texts, Regular text)
    (parse : ParseState) (sound : Sound parse) (unlinked : ∀ last ∈ texts.getLast?, Unlinked last)
    (start : texts = [] → parse.addsourceParent = none ∧ parse.indirectParent = none) :
    let parsed := (parseConditions pointer parse texts).1
    parsed.isValue = parse.isValue ∧ parsed.addsourceParent = none ∧
        parsed.indirectParent = none := by
  induction texts generalizing parse with
  | nil => exact ⟨rfl, start rfl⟩
  | cons text texts inductionHypothesis =>
    obtain ⟨value, left⟩ := parseCondition_left pointer parse sound text
    obtain ⟨next, _⟩ :=
      parseCondition_sound pointer parse sound text (regular text List.mem_cons_self)
    have rest := inductionHypothesis (fun later member =>
      regular later (List.mem_cons_of_mem text member)) _ next
      (fun last is => unlinked last (by
        cases texts with
        | nil => cases is
        | cons => rwa [List.getLast?_cons_cons]))
      (fun empty => left (by
        subst empty
        exact unlinked text rfl))
    exact ⟨rest.1.trans value, rest.2⟩

/-- Parsing conditions does not change whether the set is a value. -/
theorem parseConditions_isValue (pointer : Ref → UInt64) (texts : List ConditionText)
    (regular : ∀ text ∈ texts, Regular text) (parse : ParseState) (sound : Sound parse) :
    (parseConditions pointer parse texts).1.isValue = parse.isValue := by
  induction texts generalizing parse with
  | nil => rfl
  | cons text texts inductionHypothesis =>
    obtain ⟨next, _⟩ :=
      parseCondition_sound pointer parse sound text (regular text List.mem_cons_self)
    exact (inductionHypothesis (fun later member =>
      regular later (List.mem_cons_of_mem text member)) _ next).trans
      (parseCondition_left pointer parse sound text).1

/-- Nothing is carried where nothing is open. -/
theorem carried_nothing (parse : ParseState) (sound : Sound parse)
    (unopened : parse.addsourceParent = none)
    (unpointed : parse.indirectParent = none) : Carried parse false (fun _ => 0) where
  sound := sound
  pointer parent is := by rw [unpointed] at is; cases is
  empty _ _ := rfl
  whole parent is := by rw [unopened] at is; cases is
  chain parent is := by rw [unopened] at is; cases is

/-- A sum stays pending behind a condition of a chain, and becomes so behind one that adds to
it. -/
theorem parseCondition_opened (pointer : Ref → UInt64) (parse : ParseState) (sound : Sound parse)
    (text : ConditionText)
    (links : Links text) (opened : parse.addsourceParent.isSome ∨ text.type ≠ .addAddress) :
    (parseCondition pointer parse text).1.addsourceParent.isSome := by
  obtain ⟨same, _, _, parsed⟩ := rcParseConditionInternal_sound parse sound text
  have parent : (rcParseConditionInternal parse text).1.addsourceParent = parse.addsourceParent :=
    by rw [same]
  rw [parseCondition]
  generalize (rcParseConditionInternal parse text).1 = before at *
  generalize (rcParseConditionInternal parse text).2 = condition at *
  obtain type | type | type := links.type
  · simp only [rcConditionUpdateParseState, parsed.type, type, addSource, Option.isSome_some]
  · simp only [rcConditionUpdateParseState, parsed.type, type, subSource]
    split <;> rfl
  · simp only [rcConditionUpdateParseState, parsed.type, type, parent]
    exact opened.resolve_right (fun other => other type)

/-- A chain that has a source is open: the first source opens it, and no condition of a chain
closes it. By induction on the conditions. -/
theorem parseConditions_opened (pointer : Ref → UInt64) (texts : List ConditionText)
    (regular : ∀ text ∈ texts, Regular text)
    (links : ∀ text ∈ texts, Links text) (parse : ParseState) (sound : Sound parse)
    (opened : parse.addsourceParent.isSome ∨ sources texts ≠ []) :
    (parseConditions pointer parse texts).1.addsourceParent.isSome := by
  induction texts generalizing parse with
  | nil => exact opened.resolve_right (fun some => some rfl)
  | cons text texts inductionHypothesis =>
    obtain ⟨next, _⟩ :=
      parseCondition_sound pointer parse sound text (regular text List.mem_cons_self)
    refine inductionHypothesis (fun later member =>
      regular later (List.mem_cons_of_mem text member))
      (fun later member => links later (List.mem_cons_of_mem text member)) _ next ?_
    by_cases address : text.type = .addAddress
    · obtain some | some := opened
      · exact Or.inl (parseCondition_opened pointer parse sound text (links text List.mem_cons_self)
          (Or.inl some))
      · refine Or.inr ?_
        have same : sources (text :: texts) = sources texts := by simp [sources, address]
        rwa [← same]
    · exact Or.inl (parseCondition_opened pointer parse sound text (links text List.mem_cons_self)
        (Or.inr address))

/-- A computed reference is in the pool of the computed ones. -/
theorem rcAllocModifiedMemref_modified (memrefs : Memrefs) (size : MemSize) (parent : Operand)
    (modifierType : Operator)
    (modifier : Operand) : ∃ index,
    (rcAllocModifiedMemref memrefs size parent modifierType modifier).2 = .modified index := by
  rw [rcAllocModifiedMemref]
  dsimp only
  split
  next index _ => exact ⟨index, rfl⟩
  next => exact ⟨_, rfl⟩

/-- The end of a chain changes nothing else of a condition: the sum takes the place of the first
operand, and a comparator is chosen. -/
theorem closed_kept (pointer : Ref → UInt64) (parse : ParseState) (condition : Condition)
    (last : condition.type ≠ .addSource ∧ condition.type ≠ .subSource ∧
      condition.type ≠ .addAddress ∧ condition.type ≠ .remember) :
    let closed := (rcConditionUpdateParseState pointer parse condition).2
    closed.operand2 = condition.operand2 ∧ closed.oper = condition.oper := by
  obtain ⟨add, sub, address, remember⟩ := last
  dsimp only
  rw [rcConditionUpdateParseState]
  split
  next type => exact absurd type address
  next type => exact absurd type add
  next type => exact absurd type sub
  next type => exact absurd type remember
  next =>
    dsimp only
    split <;> exact ⟨rfl, rfl⟩

/-- A condition behind a chain has no comparator of its own, for what it reads first is
computed. -/
theorem closed_comparator (pointer : Ref → UInt64) (parse : ParseState) (condition : Condition)
    (opened : parse.addsourceParent.isSome) (compares : Compares condition.oper = true)
    (last : condition.type ≠ .addSource ∧ condition.type ≠ .subSource ∧
      condition.type ≠ .addAddress ∧ condition.type ≠ .remember) :
    (rcConditionUpdateParseState pointer parse condition).2.optimizedComparator = .default := by
  obtain ⟨parent, chain⟩ := Option.isSome_iff_exists.mp opened
  obtain ⟨add, sub, address, remember⟩ := last
  rw [rcConditionUpdateParseState]
  split
  next type => exact absurd type address
  next type => exact absurd type add
  next type => exact absurd type sub
  next type => exact absurd type remember
  next =>
    have computed : ∀ memrefs oper operand, ∃ access index isCombining,
        (closed parse memrefs oper operand).2 =
          ⟨.memref access (.modified index) .bits32, false, isCombining⟩ := by
      intro memrefs oper operand
      simp only [closed, chain, rcOperandAddsource]
      split
      next access _ =>
        obtain ⟨index, place⟩ := rcAllocModifiedMemref_modified memrefs (Conditions.sizeOf operand)
          (addressed parent) oper (addressed operand)
        exact ⟨access, index, true, by rw [place]⟩
      next =>
        obtain ⟨index, place⟩ := rcAllocModifiedMemref_modified memrefs (Conditions.sizeOf operand)
          parent oper operand
        exact ⟨.address, index, true, by rw [place]⟩
    generalize (if condition.type = .measured ∧ parse.isValue = true ∧
        rcOperatorIsModifying condition.oper = true then
      rcConditionConvertToOperand parse.memrefs condition
        else (parse.memrefs, condition.operand1)) = converted
    obtain ⟨access, index, isCombining, same⟩ := computed converted.1
      (if parse.addsourceOper = .addAccumulator then .add else parse.addsourceOper) converted.2
    have unread : ∀ memrefs,
        plainRead memrefs ⟨.memref access (.modified index) .bits32, false, isCombining⟩ = none :=
      fun memrefs => by cases access <;> rfl
    simp only [opened, if_true, same, chosen, rcConditionDetermineComparator, compares, unread,
      constant, not_true, if_false]

/-- A condition with the default comparator has its operands evaluated. -/
theorem rcTestCondition_default (memrefs : Memrefs) (condition : Condition)
    (default : condition.optimizedComparator = .default) :
    rcTestCondition memrefs condition = plainTest memrefs condition := by
  simp only [rcTestCondition, default]

/-! ## The condition in its set -/

/-- A condition that is made an operand does not recall, unless its first operand does. -/
theorem rcConditionConvertToOperand_recalled (memrefs : Memrefs) (condition : Condition)
    (plain : condition.operand1.recalled = false) :
    (rcConditionConvertToOperand memrefs condition).2.recalled = false := by
  rw [rcConditionConvertToOperand]
  split
  next => exact plain
  next => rfl

/-- A sum does not recall. -/
theorem rcOperandAddsource_recalled (memrefs : Memrefs) (parent : Operand) (oper : Operator)
    (operand : Operand) (newSize : MemSize) :
    (rcOperandAddsource memrefs parent oper operand newSize).2.recalled = false := by
  rw [rcOperandAddsource]
  split
  next => rfl
  next => rfl

/-- A condition that recalls nothing first does not come to do so at the end of a chain, since
what a chain makes of it is read from a reference. -/
theorem closed_recalled (pointer : Ref → UInt64) (parse : ParseState) (condition : Condition)
    (last : condition.type ≠ .addSource ∧ condition.type ≠ .subSource ∧
      condition.type ≠ .addAddress ∧ condition.type ≠ .remember)
    (plain : condition.operand1.recalled = false) :
    (rcConditionUpdateParseState pointer parse condition).2.operand1.recalled = false := by
  obtain ⟨add, sub, address, remember⟩ := last
  have ended : ∀ memrefs oper (operand : Operand), operand.recalled = false →
      (closed parse memrefs oper operand).2.recalled = false := by
    intro memrefs oper operand unrecalled
    rw [closed]
    split
    next => exact unrecalled
    next => exact rcOperandAddsource_recalled _ _ _ _ _
  rw [rcConditionUpdateParseState]
  split
  next type => exact absurd type address
  next type => exact absurd type add
  next type => exact absurd type sub
  next type => exact absurd type remember
  next =>
    have converted := rcConditionConvertToOperand_recalled parse.memrefs condition plain
    have start : (if condition.type = .measured ∧ parse.isValue ∧
        rcOperatorIsModifying condition.oper then
      rcConditionConvertToOperand parse.memrefs condition
        else (parse.memrefs, condition.operand1)).2.recalled = false := by
      split
      next => exact converted
      next => exact plain
    generalize (if condition.type = .measured ∧ parse.isValue = true ∧
        rcOperatorIsModifying condition.oper = true then
      rcConditionConvertToOperand parse.memrefs condition
        else (parse.memrefs, condition.operand1)) = made at start ⊢
    have chain := ended made.1 (if parse.addsourceOper = .addAccumulator then .add
      else parse.addsourceOper) made.2 start
    dsimp only
    split
    next => exact chain
    next => exact chain

/-- What recalls nothing has nothing to forget. -/
theorem forgotten_plain (operand : Operand) (plain : operand.recalled = false) :
    forgotten operand = operand := by
  rw [forgotten, plain]
  split
  next recalled => cases recalled
  next => rfl

/-- Conditions are parsed one part after the other. -/
theorem parseConditions_append (pointer : Ref → UInt64) (front behind : List ConditionText)
    (parse : ParseState) :
    parseConditions pointer parse (front ++ behind) =
      ((parseConditions pointer (parseConditions pointer parse front).1 behind).1,
        (parseConditions pointer parse front).2 ++
          (parseConditions pointer (parseConditions pointer parse front).1 behind).2) := by
  induction front generalizing parse with
  | nil => rfl
  | cons text front inductionHypothesis =>
    simp only [List.cons_append, parseConditions, inductionHypothesis]

/-- Every text becomes one condition. -/
theorem parseConditions_length (pointer : Ref → UInt64) (texts : List ConditionText)
    (parse : ParseState) : (parseConditions pointer parse texts).2.length = texts.length := by
  have same := congrArg List.length (parseConditions_types pointer texts parse)
  rwa [List.length_map, List.length_map] at same

/-- Behind a chain stands the condition that it leads to. -/
theorem parseConditions_last (pointer : Ref → UInt64) (previous chain : List ConditionText)
    (last : ConditionText) (rest : List ConditionText) (parse : ParseState) :
    let summed := parseConditions pointer (parseConditions pointer parse previous).1 chain
    (parseConditions pointer parse (previous ++ (chain ++ (last :: rest)))).2[previous.length +
        chain.length]? = some (parseCondition pointer summed.1 last).2 := by
  intro summed
  rw [parseConditions_append, parseConditions_append]
  dsimp only
  rw [List.getElem?_append_right (by rw [parseConditions_length]; omega), parseConditions_length,
    Nat.add_sub_cancel_left, List.getElem?_append_right (by rw [parseConditions_length]),
    parseConditions_length, Nat.sub_self]
  rfl

/-- Related lists have related entries at each place. -/
theorem forall₂_get {Entry : Type} {related : Entry → Entry → Prop} {before after : List Entry}
    (both : List.Forall₂ related before after) (index : Nat) (entry : Entry)
    (found : before[index]? = some entry) :
    ∃ other, after[index]? = some other ∧ related entry other := by
  obtain ⟨lengths, each⟩ := List.forall₂_iff_get.mp both
  obtain ⟨inside, rfl⟩ := List.getElem?_eq_some_iff.mp found
  exact ⟨_, List.getElem?_eq_getElem (lengths ▸ inside), each index inside (lengths ▸ inside)⟩

/-- Behind a chain the state carries its total, and a chain that has a source is open. What stands
before the chain in its set may be anything that does not lead into it (`parseConditions_left`). -/
theorem chain_carried (pointer : Ref → UInt64) (memrefs : Memrefs) (built : Built memrefs)
    (isValue : Bool) (previous chain : List ConditionText)
    (regularPrevious : ∀ text ∈ previous, Regular text)
    (regularChain : ∀ text ∈ chain, Regular text)
    (unlinked : ∀ text ∈ previous.getLast?, Unlinked text) (links : ∀ text ∈ chain, Links text)
    (opens : Opens true false chain) :
    let start := (parseConditions pointer (.begun memrefs isValue) previous).1
    let summed := parseConditions pointer start chain
    summed.1.isValue = isValue ∧ (∃ pending, Carried summed.1 pending (total summed.2)) ∧
      (sources chain ≠ [] → summed.1.addsourceParent.isSome) := by
  intro start summed
  have begun := begun_sound memrefs built isValue
  have sound : Sound start := (parseConditions_sound pointer previous regularPrevious _ begun).1
  obtain ⟨value, unopened, unpointed⟩ :=
    parseConditions_left pointer previous regularPrevious _ begun unlinked (fun _ => ⟨rfl, rfl⟩)
  have fresh : start.addsourceParent.isNone = true := Option.isNone_iff_eq_none.mpr unopened
  obtain ⟨pending, carried⟩ :=
    parseConditions_carried pointer chain regularChain links start false _
    (carried_nothing start sound unopened unpointed) (by rw [fresh]; exact opens)
  have whole : (fun now => 0 + total summed.2 now) = total summed.2 :=
    funext fun now => UInt32.zero_add _
  refine ⟨(parseConditions_isValue pointer chain regularChain start sound).trans value,
    ⟨pending, whole ▸ carried⟩, fun some => ?_⟩
  exact parseConditions_opened pointer chain regularChain links start sound (Or.inr some)

/-- The condition behind a chain is parsed with its own operator, which only sources and addresses
may be parsed without, and combines with nothing. -/
theorem closing_kept (parse : ParseState) (sound : Sound parse) (last : ConditionText)
    (isValue : Bool) (ends : Ends last isValue) :
    let parsed := rcParseConditionInternal parse last
    parsed.2.oper = last.oper ∧ parsed.2.type ≠ .addSource ∧ parsed.2.type ≠ .subSource ∧
      parsed.2.type ≠ .addAddress ∧ parsed.2.type ≠ .remember := by
  intro parsed
  obtain ⟨_, _, _, parsedAs⟩ := rcParseConditionInternal_sound parse sound last
  have type : parsed.2.type = last.type := parsedAs.type
  refine ⟨?_, by rw [type]; exact ends.type⟩
  rw [parsedAs.oper, ConditionText.modifier]
  split
  next same => exact absurd same ends.type.1
  next same => exact absurd same ends.type.2.1
  next same => exact absurd same ends.type.2.2.1
  next => rfl

/-- In its set a condition may forget what it recalls. An operand that recalls nothing is kept, and
so are the operator and the comparator. -/
theorem forgetful_kept (condition inSet : Condition)
    (forgets : inSet = condition ∨ inSet = forgetful condition)
    (plain : condition.operand1.recalled = false) :
    inSet.operand1 = condition.operand1 ∧
      (condition.operand2.recalled = false → inSet.operand2 = condition.operand2) ∧
      inSet.oper = condition.oper ∧ inSet.optimizedComparator = condition.optimizedComparator := by
  obtain rfl | rfl := forgets
  · exact ⟨rfl, fun _ => rfl, rfl, rfl⟩
  · exact ⟨forgotten_plain _ plain, fun plain' => forgotten_plain _ plain', rfl, rfl⟩

/-- Two frames after a set is parsed, the pools follow those that its texts are parsed to: where no
pausing condition remembers, the set leaves them as they are. -/
theorem set_follows (pointer : Ref → UInt64) (memrefs : Memrefs) (built : Built memrefs)
    (isValue : Bool) (texts : List ConditionText) (regular : Event.Regular (.set isValue texts))
    (events quiet : List Event) (regularEvents : ∀ event ∈ events ++ quiet, Event.Regular event)
    (still : ∀ event ∈ quiet, Event.Quiet event) (first second : RcPeek) :
    let set := rcParseCondset pointer memrefs isValue texts
    let before := after pointer (rcUpdateMemrefValues (after pointer set.1 events) first) quiet
    Follows (parseConditions pointer (.begun memrefs isValue) texts).1.memrefs before
      (rcUpdateMemrefValues before second) := by
  intro set before
  have loaded := (rcParseCondset_unpaused pointer memrefs isValue texts regular.2).1
  have sound := (parseConditions_sound pointer texts regular.1 _
    (begun_sound memrefs built isValue)).1
  have frames := frames_follow pointer _ sound.built events quiet regularEvents still first second
  rw [← loaded] at frames ⊢
  exact frames

/-- Two frames after a set is parsed, among other sets and after others, the condition behind a
chain of sources reads their sum: what it reads itself, and what the chain adds and subtracts,
modulo 2^32. It compares that sum with its second operand, which is the one that is written
unless it recalls something. Each condition of the chain carries the sum so far
(`parseConditions_carried`), the last one reads it, and after two frames the references hold
what they are computed from and their deltas what they held before (`frames_follow`). Assumed
are regular sets: the parser accepts them, they sum no bare prior values, and no pausing
condition in them remembers. -/
theorem chain_compared (pointer : Ref → UInt64) (earlier : List Event) (isValue : Bool)
    (previous chain : List ConditionText) (last : ConditionText) (rest : List ConditionText)
    (events quiet : List Event) (first second : RcPeek)
    (regularEvents : ∀ event ∈ earlier ++ (events ++ quiet), Event.Regular event)
    (regularSet : Event.Regular (.set isValue (previous ++ (chain ++ (last :: rest)))))
    (unlinked : ∀ text ∈ previous.getLast?, Unlinked text) (links : ∀ text ∈ chain, Links text)
    (opens : Opens true false chain) (ends : Ends last isValue)
    (still : ∀ event ∈ quiet, Event.Quiet event) :
    let pools := after pointer ⟨[], []⟩ earlier
    let start := (parseConditions pointer (.begun pools isValue) previous).1
    let summed := parseConditions pointer start chain
    let parsed := rcParseConditionInternal summed.1 last
    let set := rcParseCondset pointer pools isValue (previous ++ (chain ++ (last :: rest)))
    let before := after pointer (rcUpdateMemrefValues (after pointer set.1 events) first) quiet
    let now := rcUpdateMemrefValues before second
    let sum := total summed.2 now + valueOf parsed.2.operand1 now
    ∃ condition, set.2[previous.length + chain.length]? = some condition ∧
      rcEvaluateOperand now condition.operand1 = ⟨.unsigned, sum⟩ ∧
      (parsed.2.operand2.recalled = false → condition.operand2 = parsed.2.operand2) ∧
      (sources chain ≠ [] → Compares last.oper = true →
        rcTestCondition now condition =
          rcTypedValueCompare ⟨.unsigned, sum⟩ (rcEvaluateOperand now condition.operand2)
            last.oper) := by
  intro pools start summed parsed set before now sum
  obtain ⟨regularPrevious, regularBehind⟩ := List.forall_mem_append.mp regularSet.1
  obtain ⟨regularChain, regularEnd⟩ := List.forall_mem_append.mp regularBehind
  obtain ⟨regularLast, regularRest⟩ := List.forall_mem_cons.mp regularEnd
  obtain ⟨regularEarlier, regularLater⟩ := List.forall_mem_append.mp regularEvents
  have built : Built pools := (after_built pointer earlier regularEarlier ⟨[], []⟩ built_empty).1
  obtain ⟨value, ⟨pending, carried⟩, chainOpened⟩ :=
    chain_carried pointer pools built isValue previous chain regularPrevious regularChain unlinked
      links opens
  let closed := rcConditionUpdateParseState pointer parsed.1 parsed.2
  have denotes : Denotes closed.1.memrefs closed.2.operand1
      (fun now => total summed.2 now + valueOf parsed.2.operand1 now) :=
    closed_denotes pointer summed.1 pending _ carried last (by rw [value]; exact ends)
  -- the texts behind the chain only add references to those that it is read from
  have soundClosed : Sound closed.1 :=
    (parseCondition_sound pointer summed.1 carried.sound last regularLast).1
  have addsRest := (parseConditions_sound pointer rest regularRest closed.1 soundClosed).2
  have follows : Follows (parseConditions pointer closed.1 rest).1.memrefs before now := by
    have frames := set_follows pointer pools built isValue _ regularSet events quiet regularLater
      still first second
    rwa [parseConditions_append, parseConditions_append] at frames
  have evaluated := denotes before now (follows.fewer addsRest.extends)
  -- the condition of the set is the one that is parsed, but for what it forgets
  obtain ⟨condition, found, forgets⟩ :=
    forall₂_get (rcParseCondset_unpaused pointer pools isValue _ regularSet.2).2 _ _
      (parseConditions_last pointer previous chain last rest (.begun pools isValue))
  obtain ⟨oper, lastType⟩ := closing_kept summed.1 carried.sound last isValue ends
  have whole : Whole parsed.1.memrefs parsed.2.operand1 :=
    rcParseConditionInternal_whole summed.1 carried.sound carried.pointer last ends.integer
  obtain ⟨operand1, operand2, sameOper, comparator⟩ :=
    forgetful_kept closed.2 condition forgets
      (closed_recalled pointer parsed.1 parsed.2 lastType whole.plain.recalled)
  obtain ⟨written, closedOper⟩ := closed_kept pointer parsed.1 parsed.2 lastType
  refine ⟨condition, found, operand1 ▸ evaluated, fun plain => ?_, fun some compares => ?_⟩
  · exact (operand2 (written ▸ plain)).trans written
  · have opened : parsed.1.addsourceParent.isSome := by
      have same : parsed.1 = _ := (rcParseConditionInternal_sound summed.1 carried.sound last).1
      rw [same]
      exact chainOpened some
    have default :=
      closed_comparator pointer parsed.1 parsed.2 opened (by rw [oper]; exact compares) lastType
    rw [rcTestCondition_default now condition (comparator.trans default), plainTest, operand1,
      evaluated, sameOper.trans (closedOper.trans oper)]

/-- `A:d0xH0010`, `B:d0xH0010` and `0xH0010=5`, for other addresses too. -/
def added (address : UInt32) : ConditionText :=
  ⟨.addSource, .memory .delta .bits8 address, .none, .const 0, 0⟩
def subtracted (address : UInt32) : ConditionText :=
  ⟨.subSource, .memory .delta .bits8 address, .none, .const 0, 0⟩
def compared (address : UInt32) : ConditionText :=
  ⟨.standard, .memory .address .bits8 address, .eq, .const 5, 0⟩

/-- A memory in which an address holds its own low byte, and more. -/
def shifted (amount : UInt32) : RcPeek := fun address _ => (address + amount) &&& 0xff

/-- The deltas of two bytes, of which one is subtracted, and a third byte. -/
theorem chain_deltas :
    let start := (parseConditions (fun _ => 0) (.begun ⟨[], []⟩ false) []).1
    let summed := parseConditions (fun _ => 0) start [added 0x10, subtracted 0x31]
    let parsed := rcParseConditionInternal summed.1 (compared 0x22)
    let set := rcParseCondset (fun _ => 0) ⟨[], []⟩ false
      ([] ++ ([added 0x10, subtracted 0x31] ++ [compared 0x22]))
    let now := rcUpdateMemrefValues (rcUpdateMemrefValues set.1 (shifted 0)) (shifted 4)
    let sum := total summed.2 now + valueOf parsed.2.operand1 now
    ∃ condition, set.2[0 + 2]? = some condition ∧
      rcEvaluateOperand now condition.operand1 = ⟨.unsigned, sum⟩ ∧
      (parsed.2.operand2.recalled = false → condition.operand2 = parsed.2.operand2) ∧
      (sources [added 0x10, subtracted 0x31] ≠ [] → Compares .eq = true →
        rcTestCondition now condition =
          rcTypedValueCompare ⟨.unsigned, sum⟩ (rcEvaluateOperand now condition.operand2) .eq) := by
  have texts : ∀ text ∈ [] ++ ([added 0x10, subtracted 0x31] ++ [compared 0x22]), Regular text := by
    intro text member
    simp only [List.nil_append, List.cons_append, List.mem_cons, List.not_mem_nil,
      or_false] at member
    obtain rfl | rfl | rfl := member
    · exact ⟨rfl, nofun, nofun⟩
    · exact ⟨rfl, nofun, nofun⟩
    · exact ⟨rfl, nofun, nofun⟩
  have links : ∀ text ∈ [added 0x10, subtracted 0x31], Links text := by
    intro text member
    simp only [List.mem_cons, List.not_mem_nil, or_false] at member
    obtain rfl | rfl := member
    · exact ⟨Or.inl rfl, ⟨trivial, fun some => absurd rfl some⟩,
        fun _ => ⟨rfl, fun some => absurd rfl some⟩⟩
    · exact ⟨Or.inr (Or.inl rfl), ⟨trivial, fun some => absurd rfl some⟩,
        fun _ => ⟨rfl, fun some => absurd rfl some⟩⟩
  exact chain_compared (fun _ => 0) [] false [] [added 0x10, subtracted 0x31]
    (compared 0x22) [] [] []
    (shifted 0) (shifted 4) (fun _ member => absurd member List.not_mem_nil) ⟨texts, rfl⟩
    (fun _ member => nomatch member) links nofun ⟨⟨nofun, nofun, nofun, nofun⟩, nofun, rfl⟩
    (fun _ member => absurd member List.not_mem_nil)

/-- It compares 0x10 - 0x31 + 0x26. Two deltas that are subtracted first are another matter: of
the first one it is the value of two frames before. -/
example :
    let values := fun texts =>
      let summed := parseConditions (fun _ => 0) (.begun ⟨[], []⟩ false) texts
      let parsed := rcParseConditionInternal summed.1 (compared 0x22)
      let closed := rcConditionUpdateParseState (fun _ => 0) parsed.1 parsed.2
      let now := [shifted 0, shifted 4, shifted 9].foldl rcUpdateMemrefValues closed.1.memrefs
      (valueOf closed.2.operand1 now, total summed.2 now + valueOf parsed.2.operand1 now)
    values [added 0x10, subtracted 0x31] = (0x14 - 0x35 + 0x2b, 0x14 - 0x35 + 0x2b) ∧
      values [subtracted 0x10, subtracted 0x31] = (0x2b - 0x10 - 0x35, 0x2b - 0x14 - 0x35) := by
  decide +kernel

end NoMercyRecomp.SourceChains
