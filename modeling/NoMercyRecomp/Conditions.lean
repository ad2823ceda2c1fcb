import Mathlib
import NoMercyRecomp.FrameReadings

/-!
# Conditions and their comparators

A condition compares two operands. When it is parsed, a comparator is chosen that reads the
references of common operands directly. Every comparator gives the verdict of the plain
evaluation of the two operands, with one exception: a field compared with the delta of
another field of the same reference.
-/

namespace NoMercyRecomp.Conditions

open ByteMemory RamPeeks TypedValues MemRefs FrameReadings

/-- `RC_CONDITION_*`. -/
inductive ConditionType
  | standard
  | pauseIf
  | resetIf
  | measuredIf
  | trigger
  | measured
  | addSource
  | subSource
  | addAddress
  | remember
  | addHits
  | subHits
  | resetNextIf
  | andNext
  | orNext
deriving DecidableEq

/-- `RC_PROCESSING_COMPARE_*`. -/
inductive Comparator
  | default
  | memrefToConst
  | memrefToDelta
  | memrefToMemref
  | deltaToMemref
  | deltaToConst
  | memrefToConstTransformed
  | memrefToDeltaTransformed
  | memrefToMemrefTransformed
  | deltaToMemrefTransformed
  | deltaToConstTransformed
  | alwaysTrue
  | alwaysFalse
deriving DecidableEq

/-- `rc_condition_t`. -/
structure Condition where
  operand1 : Operand
  operand2 : Operand
  requiredHits : UInt32
  currentHits : UInt32
  type : ConditionType
  oper : Operator
  isTrue : UInt8
  optimizedComparator : Comparator

/-- `rc_test_condition_compare`. -/
def rcTestConditionCompare (value1 value2 : UInt32) (oper : Operator) : Bool :=
  match oper with
  | .eq => value1 = value2
  | .ne => value1 ≠ value2
  | .lt => value1 < value2
  | .le => value1 ≤ value2
  | .gt => value1 > value2
  | .ge => value1 ≥ value2
  | _ => true

/-- The operators that compare. -/
def Compares (oper : Operator) : Bool :=
  match oper with
  | .eq | .ne | .lt | .le | .gt | .ge => true
  | _ => false

/-! ## The choice of a comparator -/

/-- An operand that reads an integer memory reference, as it is or its delta: which, the
reference, the size of the operand, and the size of the reference. -/
structure PlainRead where
  delta : Bool
  index : Nat
  size : MemSize
  shared : MemSize
deriving DecidableEq

/-- What an operand reads, if it is such an operand. -/
def plainRead (memrefs : Memrefs) (operand : Operand) : Option PlainRead :=
  match operand.source, operand.recalled with
  | .memref .address (.memref index) size, false | .memref .delta (.memref index) size, false =>
    if rcMemsizeIsFloat size then none
    else
      let delta := match operand.source with
        | .memref .delta _ _ => true
        | _ => false
      memrefs.memrefs[index]?.map (fun memref => ⟨delta, index, size, memref.value.size⟩)
  | _, _ => none

/-- The constant of an operand. -/
def constant (operand : Operand) : Option UInt32 :=
  match operand.source, operand.recalled with
  | .const num, false => some num
  | _, _ => none

/-- Whether the operand takes its own bits from the reference. -/
def PlainRead.needsTranslate (read : PlainRead) : Bool := read.size ≠ read.shared

/-- The comparator that a verdict on constants is. -/
def always (verdict : Bool) : Comparator := if verdict then .alwaysTrue else .alwaysFalse

/-- `rc_condition_determine_comparator`. -/
def rcConditionDetermineComparator (memrefs : Memrefs) (condition : Condition) : Comparator :=
  if ¬ Compares condition.oper then .alwaysTrue
  else
    match plainRead memrefs condition.operand1 with
    | some left =>
      match constant condition.operand2, plainRead memrefs condition.operand2 with
      | some _, _ =>
        match left.delta, left.needsTranslate with
        | false, true => .memrefToConstTransformed
        | false, false => .memrefToConst
        | true, true => .deltaToConstTransformed
        | true, false => .deltaToConst
      | none, some right =>
        let isSameMemref := left.index = right.index
        let needsTranslate := left.needsTranslate || right.needsTranslate
        match left.delta, right.delta with
        | false, false =>
          if isSameMemref ∧ ¬ needsTranslate then always (rcTestConditionCompare 0 0 condition.oper)
          else if needsTranslate then .memrefToMemrefTransformed
          else .memrefToMemref
        | false, true =>
          if isSameMemref then (if needsTranslate then .memrefToDeltaTransformed
            else .memrefToDelta) else .default
        | true, false =>
          if isSameMemref then (if needsTranslate then .deltaToMemrefTransformed
            else .deltaToMemref) else .default
        | true, true => .default
      | none, none => .default
    | none =>
      match constant condition.operand1, constant condition.operand2 with
      | some num1, some num2 => always (rcTestConditionCompare num1 num2 condition.oper)
      | _, _ => .default

/-! ## The test -/

/-- `operand.value.memref->value`. -/
def memrefOf (memrefs : Memrefs) (operand : Operand) : MemrefValue :=
  match operand.source with
  | .memref _ ref _ => (memrefs.deref ref).getD ⟨0, 0, .bits8, false, .none⟩
  | _ => ⟨0, 0, .bits8, false, .none⟩

/-- `operand.value.num`. -/
def numOf (operand : Operand) : UInt32 :=
  match operand.source with
  | .const num => num
  | _ => 0

/-- `operand.size`. -/
def sizeOf (operand : Operand) : MemSize :=
  match operand.source with
  | .memref _ _ size => size
  | .fp _ => .float
  | _ => .bits32

/-- The delta of a reference. -/
def deltaOf (memref : MemrefValue) : UInt32 := if memref.changed then memref.prior else memref.value

/-- `rc_transform_memref_value`, of an unsigned value. -/
def transform (u32 : UInt32) (size : MemSize) : UInt32 :=
  (rcTransformMemrefValue ⟨.unsigned, u32⟩ size).u32

/-- What an unchanged reference is to its delta. -/
def unchanged (oper : Operator) : Bool :=
  match oper with
  | .eq | .ge | .le => true
  | _ => false

/-- The plain test: both operands are evaluated, and compared by their types. -/
def plainTest (memrefs : Memrefs) (condition : Condition) : Bool :=
  rcTypedValueCompare (rcEvaluateOperand memrefs condition.operand1)
    (rcEvaluateOperand memrefs condition.operand2)
    condition.oper

/-- `rc_test_condition`. -/
def rcTestCondition (memrefs : Memrefs) (condition : Condition) : Bool :=
  let memref1 := memrefOf memrefs condition.operand1
  let memref2 := memrefOf memrefs condition.operand2
  let size1 := sizeOf condition.operand1
  let size2 := sizeOf condition.operand2
  let num2 := numOf condition.operand2
  let oper := condition.oper
  match condition.optimizedComparator with
  | .memrefToConst => rcTestConditionCompare memref1.value num2 oper
  | .memrefToDelta => if memref1.changed then
    rcTestConditionCompare memref1.value memref1.prior oper else unchanged oper
  | .memrefToMemref => rcTestConditionCompare memref1.value memref2.value oper
  | .deltaToConst => rcTestConditionCompare (deltaOf memref1) num2 oper
  | .deltaToMemref => if memref1.changed then
    rcTestConditionCompare memref1.prior memref1.value oper else unchanged oper
  | .memrefToConstTransformed => rcTestConditionCompare (transform memref1.value size1) num2 oper
  | .memrefToDeltaTransformed =>
    if memref1.changed then rcTestConditionCompare (transform memref1.value size1)
      (transform memref1.prior size2) oper
    else unchanged oper
  | .memrefToMemrefTransformed =>
    rcTestConditionCompare (transform memref1.value size1) (transform memref2.value size2) oper
  | .deltaToConstTransformed => rcTestConditionCompare (transform (deltaOf memref1) size1) num2 oper
  | .deltaToMemrefTransformed =>
    if memref1.changed then rcTestConditionCompare (transform memref1.prior size1)
      (transform memref1.value size2) oper
    else unchanged oper
  | .alwaysTrue => true
  | .alwaysFalse => false
  | .default => plainTest memrefs condition

/-! ## Clean references -/

/-- A memory that gives no more bytes than it is asked for. -/
def Bounded (peek : RcPeek) : Prop :=
  ∀ address, peek address 1 &&& 0xff = peek address 1 ∧ peek address 2 &&& 0xffff = peek address 2

/-- Every frame reads such a memory. -/
def ChangeBounded : Change → Prop
  | .frame peek => Bounded peek
  | _ => True

/-- A plain reference holds no other bits than those of its size. -/
structure Masked (memref : MemrefValue) : Prop where
  type : memref.type = .unsigned
  value : memref.value &&& rcMemrefMask memref.size = memref.value
  prior : memref.prior &&& rcMemrefMask memref.size = memref.prior

/-- All plain references do. -/
def Clean (memrefs : Memrefs) : Prop := ∀ memref ∈ memrefs.memrefs, Masked memref.value

/-- The pools after some changes. -/
def grown (memrefs : Memrefs) (changes : List Change) : Memrefs :=
  changes.foldl Memrefs.change memrefs

/-- The runtime peeks such a memory. -/
theorem peekOf_bounded (rdram : Memory) (swap : Bool) : Bounded (peekOf rdram swap) := by
  intro address
  obtain ⟨one, two, _⟩ := peekOf_bytes rdram swap address
  rw [one, two]
  exact ⟨(loadWord_low _ 0 0 0).1, (loadWord_low _ _ 0 0).2.1⟩

/-- What is read has no other bits than those of the size. -/
theorem rcPeekValue_masked (peek : RcPeek) (bounded : Bounded peek) (address : UInt32)
    (size : MemSize) :
    rcPeekValue address size peek &&& rcMemrefMask size = rcPeekValue address size peek := by
  cases size with
  | bits8 => exact (bounded address).1
  | bits16 => exact (bounded address).2
  | bits32 => exact and_all _
  | _ => rw [rcPeekValue, UInt32.and_assoc, UInt32.and_self] <;> exact MemSize.noConfusion

/-- An update keeps a reference masked. -/
theorem rcUpdateMemrefValue_masked (memref : MemrefValue) (masked : Masked memref)
    (newValue : UInt32) (fits : newValue &&& rcMemrefMask memref.size = newValue) :
    Masked (rcUpdateMemrefValue memref newValue) := by
  unfold rcUpdateMemrefValue
  split
  next => exact ⟨masked.type, masked.value, masked.prior⟩
  next => exact ⟨masked.type, fits, masked.value⟩

/-- Changes keep the references clean: values within their sizes, and as integers. An update
stores a peeked value, which is bounded by the width of the peek, and a new reference holds
zero. -/
theorem change_clean (memrefs : Memrefs) (clean : Clean memrefs) (change : Change)
    (bounded : ChangeBounded change) :
    Clean (memrefs.change change) := by
  intro memref member
  cases change with
  | memref address size =>
    rw [Memrefs.change, rcAllocMemref] at member
    split at member
    next => exact clean memref member
    next =>
      obtain old | new := List.mem_append.mp member
      · exact clean memref old
      · rw [List.mem_singleton.mp new]
        exact ⟨rfl, UInt32.zero_and, UInt32.zero_and⟩
  | modified size parent modifierType modifier =>
    obtain same | ⟨added, _, _, grows⟩ :=
      rcAllocModifiedMemref_added memrefs size parent modifierType modifier
    · rw [Memrefs.change, same] at member
      exact clean memref member
    · rw [Memrefs.change, grows] at member
      exact clean memref member
  | frame peek =>
    rw [Memrefs.change, rcUpdateMemrefValues_memrefs] at member
    obtain ⟨before, old, rfl⟩ := List.mem_map.mp member
    have masked := clean before old
    have live : before.value.type ≠ .none := by
      rw [masked.type]
      exact ValueType.noConfusion
    rw [updateMemref, if_pos live]
    exact rcUpdateMemrefValue_masked before.value masked _ (rcPeekValue_masked peek bounded _ _)

/-- A reference keeps its place and its size: allocation appends to the pool, and a frame changes
values alone. -/
theorem change_size (memrefs : Memrefs) (change : Change) (index : Nat)
    (inside : index < memrefs.memrefs.length) :
    (memrefs.change change).memrefs[index]?.map (fun memref => memref.value.size) =
      memrefs.memrefs[index]?.map (fun memref => memref.value.size) := by
  cases change with
  | memref address size =>
    rw [Memrefs.change, rcAllocMemref]
    split
    next => rfl
    next => rw [List.getElem?_append_left inside]
  | modified size parent modifierType modifier =>
    obtain same | ⟨added, _, _, grows⟩ :=
      rcAllocModifiedMemref_added memrefs size parent modifierType modifier
    · rw [Memrefs.change, same]
    · rw [Memrefs.change, grows]
  | frame peek =>
    rw [Memrefs.change, rcUpdateMemrefValues_memrefs, List.getElem?_map, Option.map_map]
    refine Option.map_congr (fun memref _ => ?_)
    rw [Function.comp_apply, updateMemref]
    split
    next => exact (rcUpdateMemrefValue_kind _ _).1
    next => rfl

/-- A place that keeps its size is still there. -/
theorem still_inside (memrefs later : Memrefs) (index : Nat)
    (inside : index < memrefs.memrefs.length)
    (kept : later.memrefs[index]?.map (fun memref => memref.value.size) =
      memrefs.memrefs[index]?.map (fun memref => memref.value.size)) : index <
        later.memrefs.length := by
  rw [List.getElem?_eq_getElem inside] at kept
  by_contra outside
  rw [List.getElem?_eq_none (Nat.not_lt.mp outside)] at kept
  cases kept

/-- Changes, one after the other. -/
theorem grown_clean (changes : List Change) (bounded : ∀ change ∈ changes, ChangeBounded change)
    (memrefs : Memrefs) (clean : Clean memrefs) : Clean (grown memrefs changes) := by
  induction changes generalizing memrefs with
  | nil => exact clean
  | cons change changes inductionHypothesis =>
    exact inductionHypothesis (fun later member =>
      bounded later (List.mem_cons_of_mem change member)) _
      (change_clean memrefs clean change (bounded change List.mem_cons_self))

/-- References keep their size, whatever is allocated and whatever frames run. -/
theorem grown_size (changes : List Change) (memrefs : Memrefs) (index : Nat)
    (inside : index < memrefs.memrefs.length) :
    (grown memrefs changes).memrefs[index]?.map (fun memref => memref.value.size) =
      memrefs.memrefs[index]?.map (fun memref => memref.value.size) := by
  induction changes generalizing memrefs with
  | nil => rfl
  | cons change changes inductionHypothesis =>
    have kept := change_size memrefs change index inside
    exact (inductionHypothesis _ (still_inside memrefs _ index inside kept)).trans kept

/-! ## The verdict -/

/-- What a parsed operand leads to: a reference in the pools, of the shared size if the
operand is plain. -/
structure Parsed (memrefs : Memrefs) (operand : Operand) : Prop where
  inside : ∀ access index size, operand.source = .memref access (.memref index) size →
    index < memrefs.memrefs.length
  shared : ∀ read, plainRead memrefs operand = some read →
    read.shared = rcMemrefSharedSize read.size

/-- How a plain operand reads. -/
def PlainRead.access (read : PlainRead) : Access := if read.delta then .delta else .address

/-- A plain operand, and the reference that it leads to: one that is there, of the shared size,
read by a field of integers without recalling. -/
theorem plainRead_some (memrefs : Memrefs) (operand : Operand) (read : PlainRead)
    (plain : plainRead memrefs operand = some read) :
    operand.source = .memref read.access (.memref read.index) read.size ∧ operand.recalled = false ∧
      rcMemsizeIsFloat read.size = false ∧
        ∃ memref, memrefs.memrefs[read.index]? = some memref ∧ memref.value.size = read.shared := by
  obtain ⟨source, recalled, isCombining⟩ := operand
  unfold plainRead at plain
  split at plain
  case h_3 => cases plain
  all_goals
    rename_i index size here there
    split at plain
    next => cases plain
    next integer =>
      obtain ⟨memref, found, rfl⟩ := Option.map_eq_some_iff.mp plain
      simp only at here there
      subst here there
      exact ⟨rfl, rfl, Bool.eq_false_iff.mpr integer, memref, found, rfl⟩

/-- The comparator of a condition does not depend on what happens after it is parsed, since it
looks at the sizes of references that are there already. -/
theorem plainRead_grown (memrefs : Memrefs) (changes : List Change) (operand : Operand)
    (parsed : Parsed memrefs operand) :
    plainRead (grown memrefs changes) operand = plainRead memrefs operand := by
  obtain ⟨source, recalled, isCombining⟩ := operand
  unfold plainRead
  split
  case h_3 => rfl
  all_goals
    rename_i index size here there
    split
    next => rfl
    next =>
      have kept := grown_size changes memrefs index (parsed.inside _ index size here)
      have mapped : ∀ delta : Bool,
          (grown memrefs changes).memrefs[index]?.map
            (fun memref => (⟨delta, index, size, memref.value.size⟩ : PlainRead)) =
            memrefs.memrefs[index]?.map (fun memref =>
              ⟨delta, index, size, memref.value.size⟩) := by
        intro delta
        have both :=
          congrArg (Option.map (fun shared => (⟨delta, index, size, shared⟩ : PlainRead))) kept
        rwa [Option.map_map, Option.map_map] at both
      exact mapped _

/-- The bits that a plain operand takes. -/
def PlainRead.taken (read : PlainRead) (memref : MemrefValue) : UInt32 :=
  if read.delta then deltaOf memref else memref.value

/-- What a reference gives, without other bits than those of its size. -/
theorem taken_masked (read : PlainRead) (memref : MemrefValue) (masked : Masked memref) :
    read.taken memref &&& rcMemrefMask memref.size = read.taken memref := by
  unfold PlainRead.taken deltaOf
  split
  next =>
    split
    next => exact masked.prior
    next => exact masked.value
  next => exact masked.value

/-- A shared value without other bits is its own decoding. -/
theorem transform_shared (v : UInt32) (size : MemSize) (shared : size = rcMemrefSharedSize size)
    (masked : v &&& rcMemrefMask size = v) : transform v size = v := by
  cases size with
  | bits8 | bits16 => exact masked
  | bits32 => rfl
  | _ => cases shared

/-- The value of a plain operand: the field that it names of the current value or the delta. It is
an integer as its reference is clean, so that no conversion takes part. -/
theorem rcEvaluateOperand_plain (memrefs : Memrefs) (clean : Clean memrefs) (operand : Operand)
    (read : PlainRead) (plain : plainRead memrefs operand = some read) :
    rcEvaluateOperand memrefs operand =
      ⟨.unsigned, transform (read.taken (memrefOf memrefs operand)) read.size⟩ := by
  obtain ⟨source, exact, integer, memref, found, _⟩ := plainRead_some memrefs operand read plain
  have typed := (clean memref (List.mem_of_getElem? found)).type
  have decode : ∀ u32, rcTransformMemrefValue ⟨.unsigned, u32⟩ read.size =
      ⟨.unsigned, transform u32 read.size⟩ := by
    intro u32
    rw [transform]
    cases sized : read.size with
    | float | floatBE | double32 | double32BE | mbf32 | mbf32LE =>
      rw [sized] at integer
      cases integer
    | _ => rfl
  have access :
      rcGetMemrefValue memref.value read.access = ⟨.unsigned, read.taken memref.value⟩ := by
    rw [rcGetMemrefValue, typed, PlainRead.access, PlainRead.taken]
    split <;> rfl
  have plainAccess : ∀ u32, rcTransformOperandValue u32 read.access read.size = u32 := by
    intro u32
    rw [PlainRead.access]
    split <;> rfl
  simp only [rcEvaluateOperand, memrefOf, source, Memrefs.deref, found, Option.map_some,
    Option.getD_some, readOperand, access, decode, plainAccess, exact, ite_self]

/-- Its value, when no bits are taken from the shared ones. -/
theorem transform_taken (memrefs : Memrefs) (clean : Clean memrefs) (operand : Operand)
    (parsed : Parsed memrefs operand) (read : PlainRead)
    (plain : plainRead memrefs operand = some read) (own : read.needsTranslate = false) :
    transform (read.taken (memrefOf memrefs operand)) read.size =
      read.taken (memrefOf memrefs operand) := by
  obtain ⟨source, _, _, memref, found, sized⟩ := plainRead_some memrefs operand read plain
  have same : read.size = read.shared := by simpa [PlainRead.needsTranslate] using own
  have masked := taken_masked read memref.value (clean memref (List.mem_of_getElem? found))
  have here : memrefOf memrefs operand = memref.value := by
    simp only [memrefOf, source, Memrefs.deref, found, Option.map_some, Option.getD_some]
  rw [here]
  refine transform_shared _ _ (same.trans (parsed.shared read plain)) ?_
  rwa [same, ← sized]

/-- Two unsigned values are compared as they are. -/
theorem rcTypedValueCompare_unsigned (value1 value2 : UInt32) (oper : Operator) :
    rcTypedValueCompare ⟨.unsigned, value1⟩ ⟨.unsigned, value2⟩ oper =
      rcTestConditionCompare value1 value2 oper := by
  cases oper <;> rfl

/-- A value compared with itself. -/
theorem rcTestConditionCompare_self (value : UInt32) (oper : Operator)
    (compares : Compares oper = true) :
    rcTestConditionCompare value value oper = unchanged oper := by
  cases oper with
  | eq | ne | lt | le | gt | ge => simp [rcTestConditionCompare, unchanged]
  | _ => cases compares

/-- A constant is no reference, and its value is itself. -/
theorem constant_some (memrefs : Memrefs) (operand : Operand) (num : UInt32)
    (const : constant operand = some num) :
    plainRead memrefs operand = none ∧ numOf operand = num ∧
    rcEvaluateOperand memrefs operand = ⟨.unsigned, num⟩ := by
  obtain ⟨source, recalled, isCombining⟩ := operand
  unfold constant at const
  split at const
  next given here there =>
    simp only at here there
    cases const
    subst here there
    exact ⟨rfl, rfl, rfl⟩
  next => cases const

/-- A field of a reference is compared with the delta of another field of it. -/
def mixed (memrefs : Memrefs) (condition : Condition) : Bool :=
  match plainRead memrefs condition.operand1, plainRead memrefs condition.operand2 with
  | some left, some right =>
    left.index = right.index ∧ left.delta ≠ right.delta ∧ left.size ≠ right.size
  | _, _ => false

/-- The condition with the comparator that is chosen for it in some pools. -/
def chosen (memrefs : Memrefs) (condition : Condition) : Condition :=
  { condition with optimizedComparator := rcConditionDetermineComparator memrefs condition }

/-- A plain operand against a constant, with or without a transformation of the reference's value,
and of the value or its delta. -/
theorem rcTestCondition_constant (memrefs : Memrefs) (clean : Clean memrefs) (condition : Condition)
    (compares : Compares condition.oper = true) (parsed : Parsed memrefs condition.operand1)
    (left : PlainRead) (plain : plainRead memrefs condition.operand1 = some left) (num : UInt32)
    (const : constant condition.operand2 = some num) :
    rcTestCondition memrefs (chosen memrefs condition) = plainTest memrefs condition := by
  obtain ⟨source, _⟩ := plainRead_some memrefs condition.operand1 left plain
  obtain ⟨_, same, value2⟩ := constant_some memrefs condition.operand2 num const
  have sized : sizeOf condition.operand1 = left.size := by rw [sizeOf, source]
  have own := transform_taken memrefs clean condition.operand1 parsed left plain
  rw [plainTest, rcEvaluateOperand_plain memrefs clean condition.operand1 left plain, value2,
    rcTypedValueCompare_unsigned]
  simp only [rcTestCondition, chosen, rcConditionDetermineComparator, compares, plain, const,
    not_true, if_false]
  cases delta : left.delta <;> cases translate : left.needsTranslate <;>
    simp only [same, sized, PlainRead.taken, delta, Bool.false_eq_true, if_false, if_true] at own ⊢
  · rw [own translate]
  · rw [own translate]

/-- The plain test of two plain operands. -/
theorem plainTest_plain (memrefs : Memrefs) (clean : Clean memrefs) (condition : Condition)
    (left right : PlainRead) (plain1 : plainRead memrefs condition.operand1 = some left)
    (plain2 : plainRead memrefs condition.operand2 = some right) :
    plainTest memrefs condition =
      rcTestConditionCompare (transform
        (left.taken (memrefOf memrefs condition.operand1)) left.size)
        (transform (right.taken
          (memrefOf memrefs condition.operand2)) right.size) condition.oper := by
  rw [plainTest, rcEvaluateOperand_plain memrefs clean _ left plain1,
    rcEvaluateOperand_plain memrefs clean _ right plain2, rcTypedValueCompare_unsigned]

/-- Two reads of one reference without bits of their own are of one size: each is of the
reference's shared size. -/
theorem same_size (memrefs : Memrefs) (operand1 operand2 : Operand) (left right : PlainRead)
    (plain1 : plainRead memrefs operand1 = some left)
    (plain2 : plainRead memrefs operand2 = some right) (same : left.index = right.index) :
    memrefOf memrefs operand2 = memrefOf memrefs operand1 ∧
      (left.needsTranslate = false → right.needsTranslate = false → left.size = right.size) := by
  obtain ⟨source1, _, _, memref1, found1, sized1⟩ := plainRead_some memrefs operand1 left plain1
  obtain ⟨source2, _, _, memref2, found2, sized2⟩ := plainRead_some memrefs operand2 right plain2
  have one : memref1 = memref2 := by
    rw [same, found2] at found1
    exact (Option.some.inj found1).symm
  refine ⟨?_, fun own1 own2 => ?_⟩
  · simp only [memrefOf, source1, source2, Memrefs.deref, found1, found2, one]
  · have shared1 : left.size = left.shared := by simpa [PlainRead.needsTranslate] using own1
    have shared2 : right.size = right.shared := by simpa [PlainRead.needsTranslate] using own2
    rw [shared1, shared2, ← sized1, ← sized2, one]

/-- The verdict on two fields, and what the unchanged reference makes of it. When it has not
changed, value and delta are the same, and so are fields of one size. -/
theorem selfTest (memref : MemrefValue) (left right : PlainRead) (oper : Operator)
    (compares : Compares oper = true) (unmixed : left.size = right.size ∨ memref.changed = true) :
    (if memref.changed then
        rcTestConditionCompare (transform (left.taken memref) left.size)
          (transform (right.taken memref) right.size) oper
      else unchanged oper) =
      rcTestConditionCompare (transform (left.taken memref) left.size)
        (transform (right.taken memref) right.size) oper := by
  split
  next => rfl
  next kept =>
    have sizes : left.size = right.size := unmixed.resolve_right kept
    have taken : left.taken memref = right.taken memref := by simp [PlainRead.taken, deltaOf, kept]
    rw [taken, sizes, rcTestConditionCompare_self _ _ compares]

variable (memrefs : Memrefs) (condition : Condition) (left right : PlainRead)
  (plain1 : plainRead memrefs condition.operand1 = some left)
    (plain2 : plainRead memrefs condition.operand2 = some right)

include plain1 plain2

/-- Two references, both as they are. Where a field is the whole of its reference no
transformation is made, which leaves the value as a clean reference holds it. -/
theorem rcTestCondition_addresses (clean : Clean memrefs)
    (compares : Compares condition.oper = true)
    (parsed1 : Parsed memrefs condition.operand1) (parsed2 : Parsed memrefs condition.operand2)
    (address1 : left.delta = false) (address2 : right.delta = false) :
    rcTestCondition memrefs (chosen memrefs condition) = plainTest memrefs condition := by
  obtain ⟨source1, _⟩ := plainRead_some memrefs condition.operand1 left plain1
  obtain ⟨source2, _⟩ := plainRead_some memrefs condition.operand2 right plain2
  have sized1 : sizeOf condition.operand1 = left.size := by rw [sizeOf, source1]
  have sized2 : sizeOf condition.operand2 = right.size := by rw [sizeOf, source2]
  have none : constant condition.operand2 = none := by rw [constant, source2]
  have own1 := transform_taken memrefs clean condition.operand1 parsed1 left plain1
  have own2 := transform_taken memrefs clean condition.operand2 parsed2 right plain2
  rw [plainTest_plain memrefs clean condition left right plain1 plain2]
  simp only [PlainRead.taken, address1, address2, Bool.false_eq_true, if_false] at own1 own2 ⊢
  simp only [rcTestCondition, chosen, rcConditionDetermineComparator, compares, plain1, plain2,
    none, address1, address2, not_true, if_false]
  cases translate1 : left.needsTranslate <;> cases translate2 : right.needsTranslate
  · rw [own1 translate1, own2 translate2]
    by_cases same : left.index = right.index
    · rw [(same_size memrefs _ _ left right plain1 plain2 same).1]
      simp only [same, Bool.or_self, Bool.false_eq_true, not_false_eq_true, and_self, if_true,
        always]
      rw [rcTestConditionCompare_self _ _ compares, rcTestConditionCompare_self _ _ compares]
      cases unchanged condition.oper <;> rfl
    · simp [same]
  all_goals simp [sized1, sized2]

/-- A reference and its delta. The comparator looks only whether the reference has changed; if it
has not, both are one value, and the operator decides between equal ones. -/
theorem rcTestCondition_self (clean : Clean memrefs) (compares : Compares condition.oper = true)
    (parsed1 : Parsed memrefs condition.operand1) (parsed2 : Parsed memrefs condition.operand2)
    (same : left.index = right.index) (other : left.delta ≠ right.delta) :
    rcTestCondition memrefs (chosen memrefs condition) =
      if (memrefOf memrefs condition.operand1).changed then plainTest memrefs condition
        else unchanged condition.oper := by
  obtain ⟨source1, _⟩ := plainRead_some memrefs condition.operand1 left plain1
  obtain ⟨source2, _⟩ := plainRead_some memrefs condition.operand2 right plain2
  have sized1 : sizeOf condition.operand1 = left.size := by rw [sizeOf, source1]
  have sized2 : sizeOf condition.operand2 = right.size := by rw [sizeOf, source2]
  have none : constant condition.operand2 = none := by rw [constant, source2]
  have own1 := transform_taken memrefs clean condition.operand1 parsed1 left plain1
  have own2 := transform_taken memrefs clean condition.operand2 parsed2 right plain2
  obtain ⟨one, _⟩ := same_size memrefs _ _ left right plain1 plain2 same
  rw [plainTest_plain memrefs clean condition left right plain1 plain2]
  simp only [rcTestCondition, chosen, rcConditionDetermineComparator, compares, plain1, plain2,
    none, not_true, if_false, same]
  rw [one] at own2 ⊢
  generalize memrefOf memrefs condition.operand1 = memref at *
  cases delta1 : left.delta <;> cases delta2 : right.delta <;>
    cases translate1 : left.needsTranslate <;> cases translate2 : right.needsTranslate <;>
    cases kept : memref.changed <;>
    simp_all [PlainRead.taken, deltaOf]

/-- Two plain operands: by which of them is a delta, and whether both are of one reference. The
cases in which a transformation is left out are those of a field that is its whole reference. -/
theorem rcTestCondition_plain (clean : Clean memrefs) (compares : Compares condition.oper = true)
    (parsed1 : Parsed memrefs condition.operand1) (parsed2 : Parsed memrefs condition.operand2) :
    rcTestCondition memrefs (chosen memrefs condition) =
      if mixed memrefs condition ∧
      (memrefOf memrefs condition.operand1).changed = false then unchanged condition.oper
      else plainTest memrefs condition := by
  obtain ⟨source2, _⟩ := plainRead_some memrefs condition.operand2 right plain2
  have none : constant condition.operand2 = none := by rw [constant, source2]
  have mixing : mixed memrefs condition =
      decide (left.index = right.index ∧ left.delta ≠ right.delta ∧ left.size ≠ right.size) := by
    rw [mixed, plain1, plain2]
  by_cases crossed : left.index = right.index ∧ left.delta ≠ right.delta
  · obtain ⟨same, other⟩ := crossed
    obtain ⟨one, _⟩ := same_size memrefs _ _ left right plain1 plain2 same
    have verdict :=
      rcTestCondition_self memrefs condition left right plain1 plain2 clean compares parsed1 parsed2
        same other
    rw [verdict, mixing]
    by_cases kept : (memrefOf memrefs condition.operand1).changed = true
    · rw [if_pos kept, if_neg (fun both => by rw [kept] at both; cases both.2)]
    · by_cases sizes : left.size = right.size
      · have test :=
          selfTest (memrefOf memrefs condition.operand1) left right condition.oper compares
            (Or.inl sizes)
        rw [plainTest_plain memrefs clean condition left right plain1 plain2, one, if_neg kept]
        rw [if_neg kept] at test
        rw [test, ite_self]
      · rw [if_neg kept, if_pos ⟨decide_eq_true ⟨same, other, sizes⟩, Bool.eq_false_iff.mpr kept⟩]
  · have apart : ¬ (mixed memrefs condition = true ∧
        (memrefOf memrefs condition.operand1).changed = false) := by
      intro both
      rw [mixing] at both
      obtain ⟨same, other, _⟩ := of_decide_eq_true both.1
      exact crossed ⟨same, other⟩
    rw [if_neg apart]
    cases delta1 : left.delta <;> cases delta2 : right.delta
    · exact rcTestCondition_addresses memrefs condition left right plain1 plain2 clean compares
        parsed1 parsed2 delta1 delta2
    · have different : left.index ≠ right.index :=
        fun same => crossed ⟨same, by rw [delta1, delta2]; exact Bool.noConfusion⟩
      simp [rcTestCondition, chosen, rcConditionDetermineComparator, compares, plain1, plain2, none,
        delta1, delta2, different, plainTest]
    · have different : left.index ≠ right.index :=
        fun same => crossed ⟨same, by rw [delta1, delta2]; exact Bool.noConfusion⟩
      simp [rcTestCondition, chosen, rcConditionDetermineComparator, compares, plain1, plain2, none,
        delta1, delta2, different, plainTest]
    · simp [rcTestCondition, chosen, rcConditionDetermineComparator, compares, plain1, plain2, none,
        delta1, delta2, plainTest]

omit plain1 plain2

/-- Any two operands: by which of them read as they are and which are constant. Where neither
holds the comparator is the plain one, and constants are compared once, when the condition is
parsed. -/
theorem rcTestCondition_chosen (clean : Clean memrefs) (compares : Compares condition.oper = true)
    (parsed1 : Parsed memrefs condition.operand1) (parsed2 : Parsed memrefs condition.operand2) :
    rcTestCondition memrefs (chosen memrefs condition) =
      if mixed memrefs condition ∧
      (memrefOf memrefs condition.operand1).changed = false then unchanged condition.oper
      else plainTest memrefs condition := by
  cases plain1 : plainRead memrefs condition.operand1 with
  | some left =>
    cases const : constant condition.operand2 with
    | some num =>
      have apart : mixed memrefs condition = false := by
        rw [mixed, plain1, (constant_some memrefs _ num const).1]
      rw [apart, if_neg (fun both => Bool.noConfusion both.1)]
      exact rcTestCondition_constant memrefs clean condition compares parsed1 left plain1 num const
    | none =>
      cases plain2 : plainRead memrefs condition.operand2 with
      | some right =>
        exact rcTestCondition_plain memrefs condition left right plain1 plain2 clean
          compares parsed1 parsed2
      | none =>
        have apart : mixed memrefs condition = false := by rw [mixed, plain1, plain2]
        rw [apart, if_neg (fun both => Bool.noConfusion both.1)]
        simp [rcTestCondition, chosen, rcConditionDetermineComparator, compares, plain1, plain2,
          const, plainTest]
  | none =>
    have apart : mixed memrefs condition = false := by rw [mixed, plain1]
    rw [apart, if_neg (fun both => Bool.noConfusion both.1)]
    cases const1 : constant condition.operand1 with
    | none => simp [rcTestCondition, chosen, rcConditionDetermineComparator, compares, plain1,
      const1, plainTest]
    | some num1 =>
      cases const2 : constant condition.operand2 with
      | none => simp [rcTestCondition, chosen, rcConditionDetermineComparator, compares, plain1,
        const1, const2, plainTest]
      | some num2 =>
        obtain ⟨_, _, value1⟩ := constant_some memrefs condition.operand1 num1 const1
        obtain ⟨_, _, value2⟩ := constant_some memrefs condition.operand2 num2 const2
        rw [plainTest, value1, value2, rcTypedValueCompare_unsigned]
        simp only [rcTestCondition, chosen, rcConditionDetermineComparator, compares, plain1,
          const1, const2, not_true, if_false, always]
        cases rcTestConditionCompare num1 num2 condition.oper <;> rfl

/-- A condition that is parsed after some changes gives the plain verdict after any further ones,
whatever comparator is chosen for it. Only a field that is compared with the delta of another
field of its reference is taken for unchanged while the reference is. Changes keep the sizes that
the choice depends on, and the values within their sizes, so the comparators may leave
transformations out. -/
theorem rcTestCondition_optimized (before after : List Change)
    (bounded : ∀ change ∈ before ++ after, ChangeBounded change) (condition : Condition)
    (compares : Compares condition.oper = true)
    (parsed1 : Parsed (grown ⟨[], []⟩ before) condition.operand1)
    (parsed2 : Parsed (grown ⟨[], []⟩ before) condition.operand2) :
    let parsing := grown ⟨[], []⟩ before
    let now := grown parsing after
    rcTestCondition now (chosen parsing condition) =
      if mixed parsing condition ∧
      (memrefOf now condition.operand1).changed = false then unchanged condition.oper
      else plainTest now condition := by
  intro parsing now
  have start : Clean ⟨[], []⟩ := fun memref member => nomatch member
  have clean : Clean now := by
    have all := grown_clean (before ++ after) bounded _ start
    rwa [grown, List.foldl_append] at all
  have read1 := plainRead_grown parsing after condition.operand1 parsed1
  have read2 := plainRead_grown parsing after condition.operand2 parsed2
  have later : ∀ operand, Parsed parsing operand → Parsed now operand := by
    intro operand parsed
    refine ⟨fun access index size source => ?_, fun read plain => ?_⟩
    · have inside := parsed.inside access index size source
      exact still_inside parsing now index inside (grown_size after parsing index inside)
    · rw [plainRead_grown parsing after operand parsed] at plain
      exact parsed.shared read plain
  have same : chosen parsing condition = chosen now condition := by
    rw [chosen, chosen, rcConditionDetermineComparator, rcConditionDetermineComparator, ← read1,
      ← read2]
  have mixing : mixed parsing condition = mixed now condition := by
    rw [mixed, mixed, ← read1, ← read2]
  rw [same, mixing]
  exact rcTestCondition_chosen now condition clean compares (later _ parsed1) (later _ parsed2)

/-- `0xL1000=d0xU1000`: the low half of a byte, and the delta of its high half. -/
def halves : Condition :=
  ⟨⟨.memref .address (.memref 0) .low, false, false⟩,
    ⟨.memref .delta (.memref 0) .high, false, false⟩, 0, 0, .standard, .eq, 0, .default⟩

/-- The two halves of a byte: the lower one against the delta of the upper one, in a byte that has
not changed. -/
theorem rcTestCondition_halves :
    let parsing := grown ⟨[], []⟩ [.memref 0x1000 .bits8]
    let now :=
      grown parsing [.frame (peekOf (fun _ => 0x12) false), .frame (peekOf (fun _ => 0x12) false)]
    rcTestCondition now (chosen parsing halves) =
      if mixed parsing halves ∧ (memrefOf now halves.operand1).changed = false then unchanged .eq
      else plainTest now halves := by
  refine rcTestCondition_optimized [.memref 0x1000 .bits8] _ ?_ halves rfl ?_ ?_
  · intro change member
    simp only [List.singleton_append, List.mem_cons, List.not_mem_nil, or_false] at member
    obtain rfl | rfl | rfl := member
    · trivial
    · exact peekOf_bounded _ _
    · exact peekOf_bounded _ _
  all_goals
    constructor
    · intro access index size source
      cases source
      exact Nat.one_pos
    · intro read plain
      cases plain
      rfl

/-- While the byte is 0x12, its halves are not equal; they are taken to be. -/
example :
    let parsing := grown ⟨[], []⟩ [.memref 0x1000 .bits8]
    let now := grown parsing [.frame (fun _ _ => 0x12), .frame (fun _ _ => 0x12)]
    rcTestCondition now (chosen parsing halves) = true ∧ plainTest now halves = false := by
  decide +kernel

end NoMercyRecomp.Conditions
