import Mathlib

/-!
# Values with a type

What an achievement compares is a 32-bit union with a tag: an unsigned integer, a signed one,
a float, or nothing. Operations convert one side to the type of the other; division by zero
leaves nothing.
-/

namespace NoMercyRecomp.TypedValues

/-- `RC_VALUE_TYPE_*`. -/
inductive ValueType
  | none
  | unsigned
  | signed
  | float
deriving DecidableEq

/-- `RC_OPERATOR_*`. -/
inductive Operator
  | eq
  | lt
  | le
  | gt
  | ge
  | ne
  | none
  | mult
  | div
  | and
  | xor
  | mod
  | add
  | sub
  | subParent
  | addAccumulator
  | subAccumulator
  | indirectRead
deriving DecidableEq

/-- `rc_typed_value_t`: the tag, and the bits of the union. -/
structure TypedValue where
  type : ValueType
  u32 : UInt32

/-- `value.i32`. -/
def TypedValue.i32 (value : TypedValue) : Int32 := value.u32.toInt32

/-- `value.f32`. -/
def TypedValue.f32 (value : TypedValue) : Float32 := Float32.ofBits value.u32

/-- The value with an integer written to the union. -/
def TypedValue.setI32 (value : TypedValue) (i32 : Int32) : TypedValue :=
  { value with u32 := i32.toUInt32 }

/-- The value with a float written to the union. -/
def TypedValue.setF32 (value : TypedValue) (f32 : Float32) : TypedValue :=
  { value with u32 := f32.toBits }

/-- The value without a type. -/
def TypedValue.cleared (value : TypedValue) : TypedValue := { value with type := .none }

/-- `rc_typed_value_convert`. A float outside the range of an integer type leaves the result
undefined in C; here it is the nearest bound of the range, and zero for what is no number. -/
def rcTypedValueConvert (value : TypedValue) (newType : ValueType) : TypedValue :=
  let converted :=
    match newType, value.type with
    | .unsigned, .unsigned | .signed, .signed | .float, .float => value
    | .unsigned, .signed => { value with u32 := value.i32.toUInt32 }
    | .unsigned, .float => { value with u32 := value.f32.toUInt32 }
    | .unsigned, .none => { value with u32 := 0 }
    | .signed, .unsigned => value.setI32 value.u32.toInt32
    | .signed, .float => value.setI32 value.f32.toInt32
    | .signed, .none => value.setI32 0
    | .float, .unsigned => value.setF32 value.u32.toFloat32
    | .float, .signed => value.setF32 value.i32.toFloat32
    | .float, .none => value.setF32 0
    | .none, _ => value
  { converted with type := newType }

/-- `rc_typed_value_negate`. -/
def rcTypedValueNegate (value : TypedValue) : TypedValue :=
  match value.type with
  | .unsigned =>
    let signed := rcTypedValueConvert value .signed
    signed.setI32 (-signed.i32)
  | .signed => value.setI32 (-value.i32)
  | .float => value.setF32 (-value.f32)
  | .none => value

/-- `rc_typed_value_add`. -/
def rcTypedValueAdd (value amount : TypedValue) : TypedValue :=
  let differ := amount.type ≠ value.type ∧ value.type ≠ .none
  let promoted := if differ ∧ amount.type = .float then rcTypedValueConvert value .float else value
  let amount :=
    if differ ∧ amount.type ≠ .float then rcTypedValueConvert amount value.type else amount
  match promoted.type with
  | .unsigned => { promoted with u32 := promoted.u32 + amount.u32 }
  | .signed => promoted.setI32 (promoted.i32 + amount.i32)
  | .float => promoted.setF32 (promoted.f32 + amount.f32)
  | .none => amount

/-- `rc_typed_value_multiply`. -/
def rcTypedValueMultiply (value amount : TypedValue) : TypedValue :=
  match value.type, amount.type with
  | .unsigned, .unsigned => { value with u32 := value.u32 * amount.u32 }
  | .unsigned, .signed => { value with u32 := value.u32 * amount.i32.toUInt32 }
  | .signed, .signed => value.setI32 (value.i32 * amount.i32)
  | .signed, .unsigned => value.setI32 (value.i32 * amount.u32.toInt32)
  | .unsigned, .float | .signed, .float =>
    let value := rcTypedValueConvert value .float
    value.setF32 (value.f32 * amount.f32)
  | .unsigned, .none | .signed, .none | .float, .none | .none, _ => value.cleared
  | .float, _ => value.setF32 (value.f32 * (rcTypedValueConvert amount .float).f32)

/-- The quotient by a float, and the division by zero. -/
def divideFloat (operation : Float32 → Float32 → Float32) (value amount : TypedValue) :
    TypedValue :=
  if amount.f32 == 0 then value.cleared
  else
    let value := rcTypedValueConvert value .float
    value.setF32 (operation value.f32 amount.f32)

/-- `rc_typed_value_divide` and `rc_typed_value_modulus`, which differ in the operation of
each type. -/
def divideWith (unsigned : UInt32 → UInt32 → UInt32) (signed : Int32 → Int32 → Int32)
    (float : Float32 → Float32 → Float32) (value amount : TypedValue) : TypedValue :=
  match amount.type with
  | .unsigned | .signed =>
    if amount.u32 = 0 then value.cleared
    else
      match value.type with
      | .unsigned => { value with u32 := unsigned value.u32 amount.u32 }
      | .signed => value.setI32 (signed value.i32 amount.i32)
      | .float => divideFloat float value (rcTypedValueConvert amount .float)
      | .none => value.cleared
  | .float => divideFloat float value amount
  | .none => value.cleared

/-- The mantissa and the exponent of a finite float, in units of the smallest one. -/
def mantissa (bits : UInt32) : Nat × Nat :=
  let exponent := ((bits >>> 23) &&& 255).toNat
  let fraction := (bits &&& 0x7FFFFF).toNat
  if exponent = 0 then (fraction, 0) else (fraction + 2 ^ 23, exponent - 1)

/-- `(float)fmod(x, y)` of two floats, which is a float. -/
def fmod (x y : Float32) : Float32 :=
  if x.isNaN || y.isNaN || x.isInf then 0 / 0
  else if y.isInf then x
  else
    let (m, e) := mantissa x.toBits
    let (n, f) := mantissa y.toBits
    let unit := min e f
    let remainder :=
      (Float32.ofNat (m * 2 ^ (e - unit) % (n * 2 ^ (f - unit)))).scaleB (Int.ofNat unit - 149)
    if x.toBits &&& 0x80000000 = 0 then remainder else -remainder

/-- `rc_typed_value_divide`. -/
def rcTypedValueDivide (value amount : TypedValue) : TypedValue :=
  divideWith (· / ·) (· / ·) (· / ·) value amount

/-- `rc_typed_value_modulus`. -/
def rcTypedValueModulus (value amount : TypedValue) : TypedValue :=
  divideWith (· % ·) (· % ·) fmod value amount

/-- `rc_typed_value_combine`. -/
def rcTypedValueCombine (value amount : TypedValue) (oper : Operator) : TypedValue :=
  match oper with
  | .mult => rcTypedValueMultiply value amount
  | .div => rcTypedValueDivide value amount
  | .and =>
    let value := rcTypedValueConvert value .unsigned
    { value with u32 := value.u32 &&& (rcTypedValueConvert amount .unsigned).u32 }
  | .xor =>
    let value := rcTypedValueConvert value .unsigned
    { value with u32 := value.u32 ^^^ (rcTypedValueConvert amount .unsigned).u32 }
  | .mod => rcTypedValueModulus value amount
  | .add => rcTypedValueAdd value amount
  | .sub => rcTypedValueAdd value (rcTypedValueNegate amount)
  | _ => value

/-- `FLT_EPSILON`. -/
def fltEpsilon : Float32 := Float32.ofBits 0x34000000

/-- `rc_typed_value_compare_floats`. -/
def rcTypedValueCompareFloats (f1 f2 : Float32) (oper : Operator) : Bool :=
  let equal := oper = .eq ∨ oper = .ge ∨ oper = .le
  if f1 == f2 then equal
  else
    let abs1 := if f1 < 0 then -f1 else f1
    let abs2 := if f2 < 0 then -f2 else f2
    let threshold := (if abs1 < abs2 then abs1 else abs2) * fltEpsilon
    let diff := f1 - f2
    let absDiff := if diff < 0 then -diff else diff
    if absDiff ≤ threshold then equal
    else if diff > threshold then oper = .ne ∨ oper = .gt ∨ oper = .ge
    else oper = .ne ∨ oper = .lt ∨ oper = .le

/-- `rc_typed_value_compare`. -/
def rcTypedValueCompare (value1 value2 : TypedValue) (oper : Operator) : Bool :=
  let first := if value2.type ≠ value1.type ∧
    value2.type = .float then rcTypedValueConvert value1 .float else value1
  let second := if value2.type ≠ value1.type ∧
    value2.type ≠ .float then rcTypedValueConvert value2 value1.type else value2
  match first.type with
  | .unsigned =>
    match oper with
    | .eq => first.u32 = second.u32
    | .ne => first.u32 ≠ second.u32
    | .lt => first.u32 < second.u32
    | .le => first.u32 ≤ second.u32
    | .gt => first.u32 > second.u32
    | .ge => first.u32 ≥ second.u32
    | _ => true
  | .signed =>
    match oper with
    | .eq => first.i32 = second.i32
    | .ne => first.i32 ≠ second.i32
    | .lt => first.i32 < second.i32
    | .le => first.i32 ≤ second.i32
    | .gt => first.i32 > second.i32
    | .ge => first.i32 ≥ second.i32
    | _ => true
  | .float => rcTypedValueCompareFloats first.f32 second.f32 oper
  | .none => true

end NoMercyRecomp.TypedValues
