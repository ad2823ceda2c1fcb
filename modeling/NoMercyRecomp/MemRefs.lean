import Mathlib
import NoMercyRecomp.TypedValues
import NoMercyRecomp.SampledValues

/-!
# Memory references

An achievement reads the console's memory through references: an address and a size, read
once a frame and kept with its last differing value. All sizes of one byte share one
reference, and so do the orders of the bytes of a word; an operand takes its own bits from
the shared value. References that are computed from others come behind them in a second
pool, so that one pass over it brings all of them up to date.
-/

namespace NoMercyRecomp.MemRefs

open TypedValues SampledValues

/-! ## Sizes -/

/-- `RC_MEMSIZE_*`. -/
inductive MemSize
  | bits8
  | bits16
  | bits24
  | bits32
  | low
  | high
  | bit (index : Fin 8)
  | bitcount
  | bits16BE
  | bits24BE
  | bits32BE
  | float
  | mbf32
  | mbf32LE
  | floatBE
  | double32
  | double32BE
  | var
deriving DecidableEq

/-- `rc_memref_mask`. -/
def rcMemrefMask : MemSize → UInt32
  | .bits8 => 0x000000ff
  | .bits16 => 0x0000ffff
  | .bits24 => 0x00ffffff
  | .bits32 => 0xffffffff
  | .low => 0x0000000f
  | .high => 0x000000f0
  | .bit index => 1 <<< UInt32.ofNat index
  | .bitcount => 0x000000ff
  | .bits16BE => 0x0000ffff
  | .bits24BE => 0x00ffffff
  | .bits32BE | .float | .mbf32 | .mbf32LE | .floatBE | .double32 | .double32BE | .var => 0xffffffff

/-- `rc_memref_shared_size`. -/
def rcMemrefSharedSize : MemSize → MemSize
  | .bits8 | .low | .high | .bit _ | .bitcount => .bits8
  | .bits16 | .bits16BE => .bits16
  | .bits24 | .bits32 | .bits24BE | .bits32BE | .float | .mbf32 | .mbf32LE | .floatBE | .double32
  | .double32BE
  | .var => .bits32

/-- `rc_memsize_is_float`. -/
def rcMemsizeIsFloat : MemSize → Bool
  | .float | .floatBE | .double32 | .double32BE | .mbf32 | .mbf32LE => true
  | _ => false

/-- How the console's memory is read: some bytes from an address, low byte first. -/
abbrev RcPeek := UInt32 → UInt32 → UInt32

/-- `rc_peek_value`. -/
def rcPeekValue (address : UInt32) (size : MemSize) (peek : RcPeek) : UInt32 :=
  match size with
  | .bits8 => peek address 1
  | .bits16 => peek address 2
  | .bits32 => peek address 4
  | size =>
    let value :=
      match rcMemrefSharedSize size with
      | .bits8 => peek address 1
      | .bits16 => peek address 2
      | _ => peek address 4
    value &&& rcMemrefMask size

/-! ## Decoding -/

/-- `rc_build_float`. -/
def rcBuildFloat (mantissaBits : UInt32) (exponent : Int) (sign : Bool) : Float32 :=
  let impliedBit : Float := Float.ofNat (2 ^ 23)
  let dbl :=
    if exponent > 127 then
      if mantissaBits = 0 then 1 / 0 else 0 / 0
    else if exponent = -127 then
      (Float.ofNat mantissaBits.toNat / impliedBit).scaleB (-126)
    else (Float.ofNat (mantissaBits ||| 0x800000).toNat / impliedBit).scaleB exponent
  if sign then (-dbl).toFloat32 else dbl.toFloat32

/-- The value as a float. -/
def decoded (value : TypedValue) (float : Float32) : TypedValue :=
  { value.setF32 float with type := .float }

/-- `rc_transform_memref_float`. -/
def rcTransformMemrefFloat (value : TypedValue) : TypedValue :=
  let mantissa := value.u32 &&& 0x7FFFFF
  let exponent := Int.ofNat ((value.u32 >>> 23) &&& 0xFF).toNat - 127
  decoded value (rcBuildFloat mantissa exponent ((value.u32 &&& 0x80000000) != 0))

/-- `rc_transform_memref_float_be`. -/
def rcTransformMemrefFloatBe (value : TypedValue) : TypedValue :=
  let mantissa := ((value.u32 &&& 0xFF000000) >>> 24) ||| ((value.u32 &&& 0x00FF0000) >>> 8) |||
    ((value.u32 &&& 0x00007F00) <<< 8)
  let exponent :=
    Int.ofNat (((value.u32 &&& 0x0000007F) <<< 1) ||| ((value.u32 &&& 0x00008000) >>> 15)).toNat -
      127
  decoded value (rcBuildFloat mantissa exponent ((value.u32 &&& 0x00000080) != 0))

/-- `rc_transform_memref_double32`. -/
def rcTransformMemrefDouble32 (value : TypedValue) : TypedValue :=
  let mantissa := (value.u32 &&& 0x000FFFFF) <<< 3
  let exponent := Int.ofNat ((value.u32 >>> 20) &&& 0x7FF).toNat - 1023
  decoded value (rcBuildFloat mantissa exponent ((value.u32 &&& 0x80000000) != 0))

/-- `rc_transform_memref_double32_be`. -/
def rcTransformMemrefDouble32Be (value : TypedValue) : TypedValue :=
  let mantissa := (((value.u32 &&& 0xFF000000) >>> 24) ||| ((value.u32 &&& 0x00FF0000) >>> 8) |||
    ((value.u32 &&& 0x00000F00) <<< 8)) <<< 3
  let exponent :=
    Int.ofNat (((value.u32 &&& 0x0000007F) <<< 4) ||| ((value.u32 &&& 0x0000F000) >>> 12)).toNat -
      1023
  decoded value (rcBuildFloat mantissa exponent ((value.u32 &&& 0x00000080) != 0))

/-- `rc_transform_memref_mbf32`. -/
def rcTransformMemrefMbf32 (value : TypedValue) : TypedValue :=
  let mantissa := ((value.u32 &&& 0xFF000000) >>> 24) ||| ((value.u32 &&& 0x00FF0000) >>> 8) |||
    ((value.u32 &&& 0x00007F00) <<< 8)
  let exponent := Int.ofNat (value.u32 &&& 0xFF).toNat - 129
  let sign := (value.u32 &&& 0x00008000) != 0
  decoded value (if mantissa = 0 ∧ exponent = -129 then (if sign then -0 else 0)
    else rcBuildFloat mantissa exponent sign)

/-- `rc_transform_memref_mbf32_le`. -/
def rcTransformMemrefMbf32Le (value : TypedValue) : TypedValue :=
  let mantissa := value.u32 &&& 0x007FFFFF
  let exponent := Int.ofNat (value.u32 >>> 24).toNat - 129
  let sign := (value.u32 &&& 0x00800000) != 0
  decoded value (if mantissa = 0 ∧ exponent = -129 then (if sign then -0 else 0)
    else rcBuildFloat mantissa exponent sign)

/-- `rc_bits_set`. -/
def rcBitsSet : List UInt32 := [0, 1, 1, 2, 1, 2, 2, 3, 1, 2, 2, 3, 2, 3, 3, 4]

/-- The decoding of an integer size. -/
def transformed (u32 : UInt32) : MemSize → UInt32
  | .bits8 => u32 &&& 0x000000ff
  | .bits16 => u32 &&& 0x0000ffff
  | .bits24 => u32 &&& 0x00ffffff
  | .bit index => (u32 >>> UInt32.ofNat index) &&& 1
  | .low => u32 &&& 0x0f
  | .high => (u32 >>> 4) &&& 0x0f
  | .bitcount =>
    rcBitsSet.getD (u32 &&& 0x0F).toNat 0 + rcBitsSet.getD ((u32 >>> 4) &&& 0x0F).toNat 0
  | .bits16BE => ((u32 &&& 0xFF00) >>> 8) ||| ((u32 &&& 0x00FF) <<< 8)
  | .bits24BE =>
    ((u32 &&& 0xFF0000) >>> 16) ||| (u32 &&& (0x00FF00 : UInt32)) ||| ((u32 &&& 0x0000FF) <<< 16)
  | .bits32BE => ((u32 &&& 0xFF000000) >>> 24) ||| ((u32 &&& 0x00FF0000) >>> 8) |||
    ((u32 &&& 0x0000FF00) <<< 8) |||
      ((u32 &&& 0x000000FF) <<< 24)
  | _ => u32

/-- `rc_transform_memref_value`. -/
def rcTransformMemrefValue (value : TypedValue) (size : MemSize) : TypedValue :=
  match size with
  | .float => rcTransformMemrefFloat value
  | .floatBE => rcTransformMemrefFloatBe value
  | .double32 => rcTransformMemrefDouble32 value
  | .double32BE => rcTransformMemrefDouble32Be value
  | .mbf32 => rcTransformMemrefMbf32 value
  | .mbf32LE => rcTransformMemrefMbf32Le value
  | size => { value with u32 := transformed value.u32 size }

/-! ## References -/

/-- `rc_memref_value_t`. -/
structure MemrefValue where
  value : UInt32
  prior : UInt32
  size : MemSize
  changed : Bool
  type : ValueType

/-- `rc_memref_t`. -/
structure Memref where
  value : MemrefValue
  address : UInt32

/-- A `rc_memref_t*`: a place in one of the two pools. -/
inductive Ref
  | memref (index : Nat)
  | modified (index : Nat)
deriving DecidableEq

/-- The `RC_OPERAND_*` that read memory. -/
inductive Access
  | address
  | delta
  | prior
  | bcd
  | inverted
deriving DecidableEq

/-- Where an operand takes its value. -/
inductive Source
  | memref (access : Access) (ref : Ref) (size : MemSize)
  | const (num : UInt32)
  | fp (dbl : Float)
  | func
  | nothing

/-- `rc_operand_t`. One of type `RC_OPERAND_RECALL` holds the source that was remembered, by
its `memref_access_type`, or nothing. -/
structure Operand where
  source : Source
  recalled : Bool
  isCombining : Bool

/-- `rc_modified_memref_t`. -/
structure ModifiedMemref where
  memref : Memref
  parent : Operand
  modifier : Operand
  modifierType : Operator
  depth : UInt16

/-- `rc_memrefs_t`: the two pools, in the order of their entries. -/
structure Memrefs where
  memrefs : List Memref
  modifiedMemrefs : List ModifiedMemref

/-- The value that a pointer leads to. -/
def Memrefs.deref (memrefs : Memrefs) : Ref → Option MemrefValue
  | .memref index => memrefs.memrefs[index]?.map Memref.value
  | .modified index => memrefs.modifiedMemrefs[index]?.map (fun modified => modified.memref.value)

/-- `rc_update_memref_value`. -/
def rcUpdateMemrefValue (memref : MemrefValue) (newValue : UInt32) : MemrefValue :=
  if memref.value = newValue then { memref with changed := false }
  else { memref with prior := memref.value, value := newValue, changed := true }

/-- `rc_get_memref_value_value`. -/
def rcGetMemrefValueValue (memref : MemrefValue) (access : Access) : UInt32 :=
  match access with
  | .address => memref.value
  | .delta => if memref.changed then memref.prior else memref.value
  | .prior => memref.prior
  | _ => memref.value

/-- `rc_get_memref_value`. -/
def rcGetMemrefValue (memref : MemrefValue) (access : Access) : TypedValue :=
  ⟨memref.type, rcGetMemrefValueValue memref access⟩

/-! ## Operands -/

/-- The digits of a binary coded decimal. -/
def bcd (digits : Nat) (value : UInt32) : UInt32 :=
  match digits with
  | 0 => 0
  | digits + 1 => bcd digits (value >>> 4) * 10 + (value &&& 0x0f)

/-- `rc_transform_operand_value`. -/
def rcTransformOperandValue (value : UInt32) (access : Access) (size : MemSize) : UInt32 :=
  match access with
  | .bcd =>
    match size with
    | .bits8 => bcd 2 value
    | .bits16 | .bits16BE => bcd 4 value
    | .bits24 | .bits24BE => bcd 6 value
    | .bits32 | .bits32BE | .var => bcd 8 value
    | _ => value
  | .inverted =>
    match size with
    | .low | .high => value ^^^ 0x0f
    | .bits8 => value ^^^ 0xff
    | .bits16 | .bits16BE => value ^^^ 0xffff
    | .bits24 | .bits24BE => value ^^^ 0xffffff
    | .bits32 | .bits32BE | .var => value ^^^ 0xffffffff
    | _ => value ^^^ 0x01
  | _ => value

/-- `rc_evaluate_operand`, when the pointer leads to a value. -/
def readOperand (memref : MemrefValue) (access : Access) (size : MemSize) (recalled : Bool) :
    TypedValue :=
  let result := rcTransformMemrefValue (rcGetMemrefValue memref access) size
  if result.type = .unsigned ∧
    ¬ recalled then { result with u32 := rcTransformOperandValue result.u32 access size }
  else result

/-- `rc_evaluate_operand`. -/
def rcEvaluateOperand (memrefs : Memrefs) (operand : Operand) : TypedValue :=
  match operand.source with
  | .const num => ⟨.unsigned, num⟩
  | .fp dbl => ⟨.float, dbl.toFloat32.toBits⟩
  | .func | .nothing => ⟨.unsigned, 0⟩
  | .memref access ref size =>
    match memrefs.deref ref with
    | some memref => readOperand memref access size operand.recalled
    | none => ⟨.none, 0⟩

/-- `rc_get_modified_memref_value`. -/
def rcGetModifiedMemrefValue (memrefs : Memrefs) (memref : ModifiedMemref) (peek : RcPeek) :
    UInt32 :=
  let value := rcEvaluateOperand memrefs memref.parent
  let modifier := rcEvaluateOperand memrefs memref.modifier
  match memref.modifierType with
  | .indirectRead =>
    let address := rcTypedValueConvert (rcTypedValueAdd value modifier) .unsigned
    rcPeekValue address.u32 memref.memref.value.size peek
  | .subParent =>
    (rcTypedValueConvert (rcTypedValueAdd
      (rcTypedValueNegate value) modifier) memref.memref.value.type).u32
  | .subAccumulator =>
    let modifier := rcTypedValueConvert (rcTypedValueNegate modifier) value.type
    (rcTypedValueConvert (rcTypedValueAdd value modifier) memref.memref.value.type).u32
  | .addAccumulator =>
    let modifier := rcTypedValueConvert modifier value.type
    (rcTypedValueConvert (rcTypedValueAdd value modifier) memref.memref.value.type).u32
  | oper =>
    (rcTypedValueConvert (rcTypedValueCombine value modifier oper) memref.memref.value.type).u32

/-- The first loop of `rc_update_memref_values`, on one reference. -/
def updateMemref (peek : RcPeek) (memref : Memref) : Memref :=
  if memref.value.type ≠ .none then
    { memref with value := rcUpdateMemrefValue memref.value (rcPeekValue memref.address
      memref.value.size peek) }
  else memref

/-- The second loop, on the reference at an index. -/
def updateModified (peek : RcPeek) (memrefs : Memrefs) (index : Nat) : Memrefs :=
  match memrefs.modifiedMemrefs[index]? with
  | none => memrefs
  | some modified =>
    let value :=
      rcUpdateMemrefValue modified.memref.value (rcGetModifiedMemrefValue memrefs modified peek)
    { memrefs with
      modifiedMemrefs := memrefs.modifiedMemrefs.set index { modified with
        memref := { modified.memref with value := value } } }

/-- `rc_update_memref_values`. -/
def rcUpdateMemrefValues (memrefs : Memrefs) (peek : RcPeek) : Memrefs :=
  let memrefs := { memrefs with memrefs := memrefs.memrefs.map (updateMemref peek) }
  (List.range memrefs.modifiedMemrefs.length).foldl (updateModified peek) memrefs

/-! ## Allocation -/

/-- `rc_alloc_memref`: the pools, and the reference of an address and a size, which is a
new one unless there is one. -/
def rcAllocMemref (memrefs : Memrefs) (address : UInt32) (size : MemSize) : Memrefs × Ref :=
  match memrefs.memrefs.findIdx?
    (fun memref => memref.address = address ∧ memref.value.size = size) with
  | some index => (memrefs, .memref index)
  | none =>
    ({ memrefs with memrefs := memrefs.memrefs ++ [⟨⟨0, 0, size, false, .unsigned⟩, address⟩] },
      .memref memrefs.memrefs.length)

/-- `rc_operands_are_equal`, for operands whose computed references are nested at most
`depth` deep. -/
def rcOperandsAreEqual (memrefs : Memrefs) : Nat → Operand → Operand → Bool
  | depth, left, right =>
    if left.recalled ≠ right.recalled then false
    else
      match left.source, right.source with
      | .const first, .const second => first = second
      | .fp first, .fp second => first == second
      | .nothing, .nothing => true
      | .memref first leftRef leftSize, .memref second rightRef rightSize =>
        if left.recalled then leftRef = rightRef
        else if first ≠ second ∨ leftSize ≠ rightSize then false
        else
          match leftRef, rightRef with
          | .memref i, .memref j =>
            match memrefs.memrefs[i]?, memrefs.memrefs[j]? with
            | some first, some second =>
              first.address = second.address ∧ first.value.size = second.value.size
            | _, _ => false
          | .modified i, .modified j =>
            match depth, memrefs.modifiedMemrefs[i]?, memrefs.modifiedMemrefs[j]? with
            | depth + 1, some first, some second =>
              first.modifierType = second.modifierType ∧ first.depth = second.depth ∧
                rcOperandsAreEqual memrefs depth first.modifier second.modifier ∧
                rcOperandsAreEqual memrefs depth first.parent second.parent
            | _, _, _ => false
          | _, _ => false
      | _, _ => false

/-- The address that a computed reference shows. -/
def shownAddress (memrefs : Memrefs) (modifier : Operand) : UInt32 :=
  match modifier.source, modifier.recalled with
  | .const num, false => num
  | .fp dbl, false => dbl.toBits.toUInt32
  | .memref _ (.memref index) _, false => (memrefs.memrefs[index]?.map Memref.address).getD 0
  | .memref _ (.modified index) _, false =>
    (memrefs.modifiedMemrefs[index]?.map (fun found => found.memref.address)).getD 0
  | _, _ => 0

/-- How many references a computed reference is nested in. -/
def depthOf (memrefs : Memrefs) (parent : Operand) : UInt16 :=
  match parent.source, parent.recalled with
  | .memref _ (.modified index) _, false =>
    (memrefs.modifiedMemrefs[index]?.map (fun found => found.depth + 1)).getD 0
  | _, _ => 0

/-- `rc_alloc_modified_memref`. -/
def rcAllocModifiedMemref (memrefs : Memrefs) (size : MemSize) (parent : Operand)
    (modifierType : Operator) (modifier : Operand) : Memrefs × Ref :=
  let same := rcOperandsAreEqual memrefs memrefs.modifiedMemrefs.length
  match memrefs.modifiedMemrefs.findIdx?
    (fun found => found.memref.value.size = size ∧ found.modifierType = modifierType ∧
      same found.parent parent ∧ same found.modifier modifier) with
  | some index => (memrefs, .modified index)
  | none =>
    let type := if rcMemsizeIsFloat size then .float else .unsigned
    let memref : Memref := ⟨⟨0, 0, size, false, type⟩, shownAddress memrefs modifier⟩
    ({ memrefs with
        modifiedMemrefs := memrefs.modifiedMemrefs ++
      [⟨memref, parent, modifier, modifierType, depthOf memrefs parent⟩] },
      .modified memrefs.modifiedMemrefs.length)

/-! ## One pass -/

/-- A source that leads to no computed reference from a place on. -/
def Source.Before (place : Nat) : Source → Prop
  | .memref _ (.modified index) _ => index < place
  | _ => True

/-- Every computed reference is computed from references before it. -/
def Memrefs.Ordered (memrefs : Memrefs) : Prop :=
  ∀ (place : Nat) (modified : ModifiedMemref), memrefs.modifiedMemrefs[place]? = some modified →
    modified.parent.source.Before place ∧ modified.modifier.source.Before place

/-- The reference with another value. -/
def ModifiedMemref.withValue (modified : ModifiedMemref) (value : MemrefValue) : ModifiedMemref :=
  { modified with memref := { modified.memref with value := value } }

/-- The reference after an update with the value that it has in some pools. -/
def ModifiedMemref.updatedIn (memrefs : Memrefs) (peek : RcPeek) (modified : ModifiedMemref) :
    ModifiedMemref :=
  modified.withValue (rcUpdateMemrefValue modified.memref.value
    (rcGetModifiedMemrefValue memrefs modified peek))

/-- Two pools that are the same before a place. -/
structure AgreeBefore (place : Nat) (first second : Memrefs) : Prop where
  memrefs : first.memrefs = second.memrefs
  modified : ∀ index < place, first.modifiedMemrefs[index]? = second.modifiedMemrefs[index]?

/-- An operand has one value in pools that agree where it leads. -/
theorem rcEvaluateOperand_agree (place : Nat) (first second : Memrefs)
    (agree : AgreeBefore place first second)
    (operand : Operand) (before : operand.source.Before place) :
    rcEvaluateOperand first operand = rcEvaluateOperand second operand := by
  obtain ⟨source, recalled, isCombining⟩ := operand
  cases source with
  | memref access ref size =>
    have same : first.deref ref = second.deref ref := by
      cases ref with
      | memref index => rw [Memrefs.deref, agree.memrefs, Memrefs.deref]
      | modified index => rw [Memrefs.deref, agree.modified index before, Memrefs.deref]
    simp only [rcEvaluateOperand, same]
  | const | fp | func | nothing => rfl

/-- So has a computed reference. -/
theorem rcGetModifiedMemrefValue_agree (place : Nat) (first second : Memrefs)
    (agree : AgreeBefore place first second)
    (modified : ModifiedMemref) (parent : modified.parent.source.Before place)
    (modifier : modified.modifier.source.Before place) (peek : RcPeek) :
    rcGetModifiedMemrefValue first modified peek =
      rcGetModifiedMemrefValue second modified peek := by
  simp only [rcGetModifiedMemrefValue, rcEvaluateOperand_agree place first second agree _ parent,
    rcEvaluateOperand_agree place first second agree _ modifier]

/-- An update of one computed reference leaves the plain ones and the other computed ones. -/
theorem updateModified_frame (peek : RcPeek) (memrefs : Memrefs) (index : Nat) :
    (updateModified peek memrefs index).memrefs = memrefs.memrefs ∧
      ∀ other ≠ index, (updateModified peek memrefs index).modifiedMemrefs[other]? =
        memrefs.modifiedMemrefs[other]? := by
  unfold updateModified
  split
  next => exact ⟨rfl, fun _ _ => rfl⟩
  next modified found =>
    refine ⟨rfl, fun other different => ?_⟩
    exact List.getElem?_set_ne (Ne.symm different)

/-- The one that is updated. -/
theorem updateModified_entry (peek : RcPeek) (memrefs : Memrefs) (index : Nat) :
    (updateModified peek memrefs index).modifiedMemrefs[index]? =
      memrefs.modifiedMemrefs[index]?.map (ModifiedMemref.updatedIn memrefs peek) := by
  unfold updateModified
  cases found : memrefs.modifiedMemrefs[index]? with
  | none => exact found
  | some modified =>
    obtain ⟨inside, _⟩ := List.getElem?_eq_some_iff.mp found
    exact List.getElem?_set_self inside

/-- The pools after the computed references before a place. -/
def updatedBefore (peek : RcPeek) (memrefs : Memrefs) (place : Nat) : Memrefs :=
  (List.range place).foldl (updateModified peek) memrefs

/-- The references before the next place are those before this one, and the one at it is
updated. -/
theorem updatedBefore_succ (peek : RcPeek) (memrefs : Memrefs) (place : Nat) :
    updatedBefore peek memrefs (place + 1) = updateModified peek
      (updatedBefore peek memrefs place) place := by
  rw [updatedBefore, List.range_succ, List.foldl_append]
  rfl

/-- The pass leaves the plain references, and the computed ones that it has not reached. -/
theorem updatedBefore_frame (peek : RcPeek) (memrefs : Memrefs) (place : Nat) :
    (updatedBefore peek memrefs place).memrefs = memrefs.memrefs ∧
      ∀ index, place ≤ index → (updatedBefore peek memrefs place).modifiedMemrefs[index]? =
        memrefs.modifiedMemrefs[index]? := by
  induction place with
  | zero => exact ⟨rfl, fun _ _ => rfl⟩
  | succ place inductionHypothesis =>
    obtain ⟨plain, others⟩ := updateModified_frame peek (updatedBefore peek memrefs place) place
    rw [updatedBefore_succ]
    exact ⟨plain.trans inductionHypothesis.1, fun index later =>
      (others index (by omega)).trans (inductionHypothesis.2 index (by omega))⟩

/-- It does not return to the ones that it has passed. -/
theorem updatedBefore_agree (peek : RcPeek) (memrefs : Memrefs) (place count : Nat) :
    AgreeBefore place (updatedBefore peek memrefs place)
      (updatedBefore peek memrefs (place + count)) := by
  induction count with
  | zero => exact ⟨rfl, fun _ _ => rfl⟩
  | succ count inductionHypothesis =>
    obtain ⟨plain, others⟩ :=
      updateModified_frame peek (updatedBefore peek memrefs (place + count)) (place + count)
    rw [← Nat.add_assoc, updatedBefore_succ]
    exact ⟨inductionHypothesis.memrefs.trans plain.symm, fun index earlier =>
      (inductionHypothesis.modified index earlier).trans (others index (by omega)).symm⟩

/-- An ordered pool is up to date after one pass: each computed reference has the value that
it has in the pools that the pass leaves. -/
theorem rcUpdateMemrefValues_modified (memrefs : Memrefs) (ordered : memrefs.Ordered)
    (peek : RcPeek) (index : Nat) :
    (rcUpdateMemrefValues memrefs peek).modifiedMemrefs[index]? =
      memrefs.modifiedMemrefs[index]?.map
        (ModifiedMemref.updatedIn (rcUpdateMemrefValues memrefs peek) peek) := by
  generalize read :
    ({ memrefs with memrefs := memrefs.memrefs.map (updateMemref peek) } : Memrefs) = start
  have same : start.modifiedMemrefs = memrefs.modifiedMemrefs := by rw [← read]
  have pass : rcUpdateMemrefValues memrefs peek =
      updatedBefore peek start memrefs.modifiedMemrefs.length := by
    rw [← same, ← read]
    rfl
  cases found : memrefs.modifiedMemrefs[index]? with
  | none =>
    have outside : memrefs.modifiedMemrefs.length ≤ index := List.getElem?_eq_none_iff.mp found
    rw [pass, (updatedBefore_frame peek start _).2 index outside, same, found]
    rfl
  | some modified =>
    obtain ⟨inside, _⟩ := List.getElem?_eq_some_iff.mp found
    obtain ⟨parent, modifier⟩ := ordered index modified found
    obtain ⟨rest, length⟩ := Nat.exists_eq_add_of_lt inside
    have after := updatedBefore_agree peek start (index + 1) rest
    have before := updatedBefore_agree peek start index (rest + 1)
    have total : index + 1 + rest = memrefs.modifiedMemrefs.length := by omega
    have total' : index + (rest + 1) = memrefs.modifiedMemrefs.length := by omega
    rw [total, ← pass] at after
    rw [total', ← pass] at before
    have value := rcGetModifiedMemrefValue_agree index _ _ before modified parent modifier peek
    rw [← after.modified index (Nat.lt_succ_self index), updatedBefore_succ, updateModified_entry,
      (updatedBefore_frame peek start index).2 index (Nat.le_refl index), same, found,
      Option.map_some, Option.map_some, ModifiedMemref.updatedIn, value]
    rfl

/-- The plain references after a pass. -/
theorem rcUpdateMemrefValues_memrefs (memrefs : Memrefs) (peek : RcPeek) :
    (rcUpdateMemrefValues memrefs peek).memrefs = memrefs.memrefs.map (updateMemref peek) :=
  (updatedBefore_frame peek _ _).1

/-! ## Pools as they grow -/

/-- What happens to the pools: an allocation, or a frame. -/
inductive Change
  | memref (address : UInt32) (size : MemSize)
  | modified (size : MemSize) (parent : Operand) (modifierType : Operator) (modifier : Operand)
  | frame (peek : RcPeek)

/-- The pools after a change. -/
def Memrefs.change (memrefs : Memrefs) : Change → Memrefs
  | .memref address size => (rcAllocMemref memrefs address size).1
  | .modified size parent modifierType modifier =>
    (rcAllocModifiedMemref memrefs size parent modifierType modifier).1
  | .frame peek => rcUpdateMemrefValues memrefs peek

/-- An allocation is of operands that lead into the pools. -/
def Change.Inside (memrefs : Memrefs) : Change → Prop
  | .modified _ parent _ modifier =>
    parent.source.Before memrefs.modifiedMemrefs.length ∧
      modifier.source.Before memrefs.modifiedMemrefs.length
  | _ => True

/-- The pools that allocations and frames lead to, in any order. -/
inductive Reached : Memrefs → Prop
  | init : Reached ⟨[], []⟩
  | change (memrefs : Memrefs) (reached : Reached memrefs)
    (change : Change) (inside : change.Inside memrefs) :
      Reached (memrefs.change change)

/-- An allocation adds at most one computed reference, behind the others. -/
theorem rcAllocModifiedMemref_added (memrefs : Memrefs) (size : MemSize) (parent : Operand)
    (modifierType : Operator) (modifier : Operand) :
    (rcAllocModifiedMemref memrefs size parent modifierType modifier).1 = memrefs ∨
      ∃ added : ModifiedMemref, added.parent = parent ∧ added.modifier = modifier ∧
        (rcAllocModifiedMemref memrefs size parent modifierType modifier).1 =
          { memrefs with modifiedMemrefs := memrefs.modifiedMemrefs ++ [added] } := by
  unfold rcAllocModifiedMemref
  simp only
  split
  next => exact Or.inl rfl
  next => exact Or.inr ⟨_, rfl, rfl, rfl⟩

/-- Allocating a plain reference leaves the computed ones alone. -/
theorem rcAllocMemref_modified (memrefs : Memrefs) (address : UInt32) (size : MemSize) :
    (rcAllocMemref memrefs address size).1.modifiedMemrefs = memrefs.modifiedMemrefs := by
  unfold rcAllocMemref
  split <;> rfl

/-- Computed references never come to depend on later ones: an allocated one depends on operands
that were there, and a frame changes no operand. -/
theorem change_ordered (memrefs : Memrefs) (ordered : memrefs.Ordered) (change : Change)
    (inside : change.Inside memrefs) :
    (memrefs.change change).Ordered := by
  intro place modified found
  cases change with
  | memref address size =>
    rw [Memrefs.change, rcAllocMemref_modified] at found
    exact ordered place modified found
  | modified size parent modifierType modifier =>
    rw [Memrefs.change] at found
    obtain same | ⟨added, leads, modifies, grown⟩ :=
      rcAllocModifiedMemref_added memrefs size parent modifierType modifier
    · rw [same] at found
      exact ordered place modified found
    · rw [grown, List.getElem?_append] at found
      split at found
      next earlier => exact ordered place modified found
      next later =>
        obtain ⟨here, rfl⟩ := List.getElem?_eq_some_iff.mp found
        have last : place = memrefs.modifiedMemrefs.length := by
          rw [List.length_singleton] at here
          omega
        rw [List.getElem_singleton, leads, modifies, last]
        exact inside
  | frame peek =>
    rw [Memrefs.change, rcUpdateMemrefValues_modified memrefs ordered] at found
    obtain ⟨before, old, rfl⟩ := Option.map_eq_some_iff.mp found
    exact ordered place before old

/-- The pools are ordered whatever happens to them. -/
theorem reached_ordered (memrefs : Memrefs) (reached : Reached memrefs) : memrefs.Ordered := by
  induction reached with
  | init =>
    intro place modified found
    cases found
  | change memrefs _ change inside inductionHypothesis =>
    exact change_ordered memrefs inductionHypothesis change inside

/-- What a frame leaves: every reference holds the value that the memory and the other
references give it in the pools as they are now. -/
structure Settled (peek : RcPeek) (memrefs : Memrefs) : Prop where
  plain : ∀ memref ∈ memrefs.memrefs,
    memref.value.value = rcPeekValue memref.address memref.value.size peek
  computed : ∀ modified ∈ memrefs.modifiedMemrefs,
    modified.memref.value.value = rcGetModifiedMemrefValue memrefs modified peek

/-- An update leaves the new value. -/
theorem rcUpdateMemrefValue_value (memref : MemrefValue) (newValue : UInt32) :
    (rcUpdateMemrefValue memref newValue).value = newValue := by
  unfold rcUpdateMemrefValue
  split
  next same => exact same
  next => rfl

/-- The size and the type of a reference do not change. -/
theorem rcUpdateMemrefValue_kind (memref : MemrefValue) (newValue : UInt32) :
    (rcUpdateMemrefValue memref newValue).size = memref.size ∧
    (rcUpdateMemrefValue memref newValue).type = memref.type := by
  unfold rcUpdateMemrefValue
  split <;> exact ⟨rfl, rfl⟩

/-- What a computed reference is computed from does not include its own value. -/
theorem rcGetModifiedMemrefValue_withValue (memrefs : Memrefs) (modified : ModifiedMemref)
    (value : MemrefValue) (peek : RcPeek) (size : value.size = modified.memref.value.size)
    (type : value.type = modified.memref.value.type) :
    rcGetModifiedMemrefValue memrefs (modified.withValue value) peek =
      rcGetModifiedMemrefValue memrefs modified peek := by
  simp only [rcGetModifiedMemrefValue, ModifiedMemref.withValue, size, type]

/-- No plain reference is without a type, so a frame reads all of them. -/
def Memrefs.Live (memrefs : Memrefs) : Prop :=
  ∀ memref ∈ memrefs.memrefs, memref.value.type ≠ .none

/-- References are allocated with a type, and keep it: a frame updates values, and an update
leaves the type as it is. -/
theorem change_live (memrefs : Memrefs) (live : memrefs.Live) (change : Change) :
    (memrefs.change change).Live := by
  intro memref member
  cases change with
  | memref address size =>
    rw [Memrefs.change, rcAllocMemref] at member
    split at member
    next => exact live memref member
    next =>
      obtain old | new := List.mem_append.mp member
      · exact live memref old
      · rw [List.mem_singleton.mp new]
        exact ValueType.noConfusion
  | modified size parent modifierType modifier =>
    rw [Memrefs.change] at member
    obtain same | ⟨_, _, _, grown⟩ :=
      rcAllocModifiedMemref_added memrefs size parent modifierType modifier
    · rw [same] at member
      exact live memref member
    · rw [grown] at member
      exact live memref member
  | frame peek =>
    rw [Memrefs.change, rcUpdateMemrefValues_memrefs] at member
    obtain ⟨before, old, rfl⟩ := List.mem_map.mp member
    rw [updateMemref]
    split
    next =>
      show (rcUpdateMemrefValue before.value _).type ≠ .none
      rw [(rcUpdateMemrefValue_kind before.value _).2]
      exact live before old
    next => exact live before old

/-- In pools that are reached, no reference is switched off: only an invalid address does that. -/
theorem reached_live (memrefs : Memrefs) (reached : Reached memrefs) : memrefs.Live := by
  induction reached with
  | init => exact fun memref member => absurd member List.not_mem_nil
  | change memrefs _ change _ inductionHypothesis =>
    exact change_live memrefs inductionHypothesis change

/-- A frame settles pools that are ordered. The plain references are read first; a computed one is
then updated after all that it reads, and none of these is updated again. -/
theorem ordered_settled (memrefs : Memrefs) (ordered : memrefs.Ordered) (live : memrefs.Live)
    (peek : RcPeek) : Settled peek (rcUpdateMemrefValues memrefs peek) := by
  constructor
  · intro memref member
    rw [rcUpdateMemrefValues_memrefs] at member
    obtain ⟨before, old, rfl⟩ := List.mem_map.mp member
    rw [updateMemref, if_pos (live before old), rcUpdateMemrefValue_value,
      (rcUpdateMemrefValue_kind _ _).1]
  · intro modified member
    obtain ⟨index, found⟩ := List.mem_iff_getElem?.mp member
    rw [rcUpdateMemrefValues_modified memrefs ordered] at found
    obtain ⟨before, _, rfl⟩ := Option.map_eq_some_iff.mp found
    obtain ⟨size, type⟩ := rcUpdateMemrefValue_kind before.memref.value
      (rcGetModifiedMemrefValue (rcUpdateMemrefValues memrefs peek) before peek)
    rw [ModifiedMemref.updatedIn, rcGetModifiedMemrefValue_withValue _ _ _ _ size type]
    exact rcUpdateMemrefValue_value _ _

/-- A frame settles the pools, in whatever order the references came. In reached pools a computed
reference reads only references before it, so that one pass over the second pool finds each of its
operands settled. -/
theorem frame_settled (memrefs : Memrefs) (reached : Reached memrefs) (peek : RcPeek) :
    Settled peek (rcUpdateMemrefValues memrefs peek) :=
  ordered_settled memrefs (reached_ordered memrefs reached) (reached_live memrefs reached) peek

/-- A pointer, and a byte behind it. -/
def pointed : Memrefs :=
  ((⟨[], []⟩ : Memrefs).change (.memref 0x1000 .bits32)).change
    (.modified .bits8 ⟨.memref .address (.memref 0) .bits32, false, false⟩ .indirectRead
      ⟨.const 4, false, false⟩)

/-- A pointer and what it points to, in a memory of its own addresses. -/
theorem pointed_settled :
    Settled (fun address _ => address) (rcUpdateMemrefValues pointed (fun address _ => address)) :=
  frame_settled pointed
    (Reached.change _ (Reached.change _ Reached.init (.memref 0x1000 .bits32) trivial) _
      ⟨trivial, trivial⟩) _

example : (rcUpdateMemrefValues pointed (fun address _ => address)).modifiedMemrefs.map
    (fun modified => modified.memref.value.value) = [0x1004] := by
  decide +kernel

end NoMercyRecomp.MemRefs
