import ManagedCode.Kind

/-!
# Operand types

Arithmetic, comparisons and branches mean different things for operands of different types. The analysis notes for each
such instruction which types its operands have; `OperandTypes` lists the combinations that some instruction accepts.
-/

namespace ManagedCode

/-- The types of the operands of one instruction. Of two types the left one is that of the deeper operand; two operands
of the same type are written as one. -/
inductive OperandTypes where
  | int32
  | int64
  | nativeInt
  | float
  | object
  | pointer
  | int32NativeInt
  | int32Pointer
  | nativeIntInt32
  | nativeIntPointer
  | pointerInt32
  | pointerNativeInt
  | int64Int32
  | int64NativeInt
  deriving DecidableEq, Repr, Inhabited

namespace OperandTypes

/-- One operand, or two of the same type. -/
def single : StackType → OperandTypes
  | .int32 => .int32
  | .int64 => .int64
  | .nativeInt => .nativeInt
  | .float => .float
  | .object => .object
  | .pointer => .pointer

/-- Two operands; combinations that no instruction accepts have no result. -/
def pair? : StackType → StackType → Option OperandTypes
  | .int32, .int32 => some .int32
  | .int32, .nativeInt => some .int32NativeInt
  | .int32, .pointer => some .int32Pointer
  | .int64, .int64 => some .int64
  | .int64, .int32 => some .int64Int32
  | .int64, .nativeInt => some .int64NativeInt
  | .nativeInt, .int32 => some .nativeIntInt32
  | .nativeInt, .nativeInt => some .nativeInt
  | .nativeInt, .pointer => some .nativeIntPointer
  | .float, .float => some .float
  | .pointer, .int32 => some .pointerInt32
  | .pointer, .nativeInt => some .pointerNativeInt
  | .pointer, .pointer => some .pointer
  | .object, .object => some .object
  | _, _ => none

/-- The type of the deeper operand. -/
def left : OperandTypes → StackType
  | .int32 | .int32NativeInt | .int32Pointer => .int32
  | .int64 | .int64Int32 | .int64NativeInt => .int64
  | .nativeInt | .nativeIntInt32 | .nativeIntPointer => .nativeInt
  | .float => .float
  | .object => .object
  | .pointer | .pointerInt32 | .pointerNativeInt => .pointer

/-- The type of the other operand, if it is a different one. -/
def right? : OperandTypes → Option StackType
  | .int32NativeInt | .int64NativeInt | .pointerNativeInt => some .nativeInt
  | .int32Pointer | .nativeIntPointer => some .pointer
  | .nativeIntInt32 | .pointerInt32 | .int64Int32 => some .int32
  | _ => none

/-- Two operands give the annotation that names both of them. -/
theorem left_right_of_pair? {l r : StackType} {t : OperandTypes} (h : pair? l r = some t) :
    t.left = l ∧ t.right?.getD t.left = r := by
  cases l <;> cases r <;> simp_all [pair?] <;> subst h <;> decide

def text (t : OperandTypes) : String :=
  match t.right? with
  | none => t.left.text
  | some r => t.left.text ++ ", " ++ r.text

def name : OperandTypes → String
  | .int32 => "Int32"
  | .int64 => "Int64"
  | .nativeInt => "NativeInt"
  | .float => "NativeFloat"
  | .object => "Object"
  | .pointer => "ManagedPointer"
  | .int32NativeInt => "Int32NativeInt"
  | .int32Pointer => "Int32ManagedPointer"
  | .nativeIntInt32 => "NativeIntInt32"
  | .nativeIntPointer => "NativeIntManagedPointer"
  | .pointerInt32 => "ManagedPointerInt32"
  | .pointerNativeInt => "ManagedPointerNativeInt"
  | .int64Int32 => "Int64Int32"
  | .int64NativeInt => "Int64NativeInt"

/-- Two integers that arithmetic combines. -/
def isIntegerPair : OperandTypes → Bool
  | .int32 | .int32NativeInt | .nativeIntInt32 | .nativeInt | .int64 => true
  | _ => false

/-- A pointer and an integer, in either order. -/
def isPointerOffset : OperandTypes → Bool
  | .int32Pointer | .nativeIntPointer | .pointerInt32 | .pointerNativeInt => true
  | _ => false

/-- The operands of a subtraction from a pointer. -/
def isPointerSubtraction : OperandTypes → Bool
  | .pointerInt32 | .pointerNativeInt | .pointer => true
  | _ => false

/-- The type of the result of arithmetic on such operands. -/
def arithmeticResult : OperandTypes → StackType
  | .int32 => .int32
  | .int64 => .int64
  | .float => .float
  | .int32NativeInt | .nativeIntInt32 | .nativeInt | .pointer => .nativeInt
  | _ => .pointer

end OperandTypes

end ManagedCode
