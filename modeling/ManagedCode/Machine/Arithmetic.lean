import ManagedCode.Machine.Monad
import ManagedCode.Numeric.Conversion
import ManagedCode.Numeric.Integer
import ManagedCode.Numeric.Real

/-!
# Arithmetic, comparisons and conversions

The types that the analysis found decide which operation an instruction is. Mixed operands of 32 bits and of native
size are widened to native size. A pointer into an array moves by whole elements.
-/

namespace ManagedCode.ExecM

/-- An index as the machine computes with it, which wraps at 64 bits. -/
def signedIndex (index : Nat) : Int := (BitVec.ofNat 64 index).toInt

/-- Moves a pointer into an array by a number of bytes, which has to be a whole number of elements. -/
def offsetPointer (q : Pointer) (bytes : Int) : ExecM Pointer := do
  match q with
  | .element array index =>
    let size ← onHeap (Heap.elementSize (← metadata) array)
    if size = 0 ∨ bytes.tmod size ≠ 0 then unsupported (.partialElement bytes size)
    else
      let moved := signedIndex index + bytes.tdiv size
      if 0 ≤ moved ∧ moved < 2 ^ 63 then return .element array moved.toNat
      else unsupported .beforeArray
  | _ => unsupported (.pointerArithmetic q)

/-- The word for a number that the machine computes for itself, which has to be in its range. -/
def checkedWord (n : Int) : ExecM (BitVec 64) :=
  if -2 ^ 63 ≤ n ∧ n < 2 ^ 63 then return BitVec.ofInt 64 n else throw (.abort .crash)

/-- The bytes from one pointer to another one into the same array. Neither the distance in elements nor its product with
their size is guarded against leaving a word. -/
def pointerDifference (q r : Pointer) : ExecM (BitVec 64) := do
  let otherwise : ExecM (BitVec 64) := if q.same r then return 0 else unsupported (.unrelatedPointers q r)
  match q, r with
  | .element array i, .element other j =>
    if array = other then
      let size ← onHeap (Heap.elementSize (← metadata) array)
      let distance ← checkedWord (signedIndex i - signedIndex j)
      checkedWord (distance.toInt * size)
    else otherwise
  | _, _ => otherwise

/-- The bytes by which addition or subtraction moves the pointer on its left. -/
def pointerOffset (op : Opcode) (b : BinaryOp) (types : OperandTypes) (bytes : BitVec 64) : ExecM Int :=
  match b with
  | .add | .addOvfUn => return bytes.toInt
  | .sub | .subOvfUn =>
    if bytes = BitVec.intMin 64 then unsupported (.operands op types) else return -bytes.toInt
  | _ => unsupported (.operands op types)

/-- The result of arithmetic on the two values at the top. -/
def binaryResult (p : Prepared) (pc : Nat) (op : Opcode) (b : BinaryOp) : ExecM Value := do
  let types ← operandTypes p pc
  match types with
  | .int32 => return .int32 (← ofFault (Word.binary b (← int32At p 1) (← int32At p 0)))
  | .int64 => return .int64 (← ofFault (Word.binary b (← int64At p 1) (← int64At p 0)))
  | .nativeInt | .int32NativeInt | .nativeIntInt32 =>
    return .nativeInt (← ofFault (Word.binary b (← nativeAt p 1) (← nativeAt p 0)))
  | .float =>
    match Double.binary? b (← floatAt p 1) (← floatAt p 0) with
    | some x => return .float x
    | none => unsupported (.operands op types)
  | .pointerInt32 | .pointerNativeInt =>
    let bytes ← pointerOffset op b types (← nativeAt p 0)
    return .pointer (← offsetPointer (← pointerAt p 1) bytes)
  | .int32Pointer | .nativeIntPointer =>
    let q ← pointerAt p 0
    return .pointer (← offsetPointer q (← nativeAt p 1).toInt)
  | .pointer =>
    let q ← pointerAt p 1
    let r ← pointerAt p 0
    return .nativeInt (← pointerDifference q r)
  | _ => unsupported (.operands op types)

def binary (p : Prepared) (pc : Nat) (op : Opcode) (b : BinaryOp) : ExecM Next := do
  result p 2 (← binaryResult p pc op b)
  return .advance

/-- Shifts; the result has the type of the shifted value. -/
def shift (p : Prepared) (pc : Nat) (op : Opcode) (s : ShiftOp) : ExecM Next := do
  let types ← operandTypes p pc
  let amount := ((← nativeAt p 0).truncate 32).toNat
  match types.left with
  | .int32 => result p 2 (.int32 (Word.shift s (← int32At p 1) amount))
  | .int64 => result p 2 (.int64 (Word.shift s (← int64At p 1) amount))
  | .nativeInt => result p 2 (.nativeInt (Word.shift s (← nativeAt p 1) amount))
  | _ => unsupported (.operands op types)
  return .advance

def unary (p : Prepared) (pc : Nat) (op : Opcode) (u : UnaryOp) : ExecM Next := do
  let types ← operandTypes p pc
  match types, u with
  | .int32, _ => result p 1 (.int32 (Word.unary u (← int32At p 0)))
  | .int64, _ => result p 1 (.int64 (Word.unary u (← int64At p 0)))
  | .nativeInt, _ => result p 1 (.nativeInt (Word.unary u (← nativeAt p 0)))
  | .float, .neg => result p 1 (.float (← floatAt p 0).neg)
  | _, _ => unsupported (.operands op types)
  return .advance

/-- Faults on infinities and on what is no number. -/
def checkFinite (p : Prepared) : ExecM Next := do
  let x ← floatAt p 0
  if x.isFinite then
    result p 1 (.float x)
    return .advance
  else fault .overflow

def convert (p : Prepared) (c : Conversion) : ExecM Next := do
  match c.apply (← peek p 0) with
  | .ok v =>
    result p 1 v
    return .advance
  | .error t => throw t

/-- The relation of the two values at the top. Addresses and pointers are never equal to one another; two pointers
that were never set are. -/
def compareTop (p : Prepared) (pc : Nat) (op : Opcode) (c : Comparison) : ExecM Bool := do
  let types ← operandTypes p pc
  let answer ← match types with
    | .int32 => do pure (some (Word.compare c (← int32At p 1) (← int32At p 0)))
    | .int64 => do pure (some (Word.compare c (← int64At p 1) (← int64At p 0)))
    | .nativeInt | .int32NativeInt | .nativeIntInt32 => do
      pure (some (Word.compare c (← nativeAt p 1) (← nativeAt p 0)))
    | .float => do pure (some (Double.compare c (← floatAt p 1) (← floatAt p 0)))
    | .object => do pure (c.onIdentity? ((← objectAt p 1) == (← objectAt p 0)))
    | .pointer => do
      let equal := match ← peek p 1, ← peek p 0 with
        | .pointer q, .pointer r => q.same r
        | .object q, .object r => q.isNone && r.isNone
        | _, _ => false
      pure (c.onIdentity? equal)
    | .nativeIntPointer | .pointerNativeInt => pure (c.onIdentity? false)
    | _ => pure none
  match answer with
  | some b => return b
  | none => unsupported (.operands op types)

def compare (p : Prepared) (pc : Nat) (op : Opcode) (c : Comparison) : ExecM Next := do
  let b ← compareTop p pc op c
  result p 2 (.int32 (if b then 1 else 0))
  return .advance

end ManagedCode.ExecM
