import ManagedCode.Fault
import ManagedCode.Opcode.Action

/-!
# Conversions

A conversion reads its source as a mathematical number, checks its range if the instruction asks for that, and writes it
in the width of the target, widened again to a stack type.
-/

namespace ManagedCode

namespace ConversionTarget

def isReal : ConversionTarget → Bool
  | .r4 | .r8 | .real => true
  | _ => false

/-- The numbers that an integer target can hold, from the least to the greatest. -/
def range : ConversionTarget → Int × Int
  | .i1 => (-2 ^ 7, 2 ^ 7 - 1)
  | .u1 => (0, 2 ^ 8 - 1)
  | .i2 => (-2 ^ 15, 2 ^ 15 - 1)
  | .u2 => (0, 2 ^ 16 - 1)
  | .i4 => (-2 ^ 31, 2 ^ 31 - 1)
  | .u4 => (0, 2 ^ 32 - 1)
  | .i8 | .i => (-2 ^ 63, 2 ^ 63 - 1)
  | .u8 | .u => (0, 2 ^ 64 - 1)
  | .r4 | .r8 | .real => (0, 0)

/-- Writes a number in the width of the target and widens it to the stack type. -/
def write (t : ConversionTarget) (n : Int) : Value :=
  match t with
  | .i1 => .int32 ((BitVec.ofInt 8 n).signExtend 32)
  | .u1 => .int32 ((BitVec.ofInt 8 n).zeroExtend 32)
  | .i2 => .int32 ((BitVec.ofInt 16 n).signExtend 32)
  | .u2 => .int32 ((BitVec.ofInt 16 n).zeroExtend 32)
  | .i4 | .u4 => .int32 (BitVec.ofInt 32 n)
  | .i8 | .u8 => .int64 (BitVec.ofInt 64 n)
  | .i | .u => .nativeInt (BitVec.ofInt 64 n)
  | .r4 => .float (Double.ofSingle (BitVec.ofNat 32 (Floating.single.round (decide (n < 0)) n.natAbs 1)))
  | .r8 | .real => .float (Double.ofInt n)

end ConversionTarget

namespace Conversion

def ofNumber (c : Conversion) (n : Int) : Except FaultKind Value :=
  if c.checked && !c.target.isReal && (n < c.target.range.1 || c.target.range.2 < n) then .error .overflow
  else .ok (c.target.write n)

/-- Numbers from here on fit no target; a little below `2 ^ 127`. -/
def ceiling : Double := Double.ofNat (Floating.double.ofDecimal false 17 37)

/-- Clamps a number to 128 bits in two's complement. -/
def clamp (n : Int) : Int := max (-2 ^ 127) (min n (2 ^ 127 - 1))

/-- Converts a floating point number: to another width, or toward zero to a whole number. Without a check, what is no
number becomes zero and what is too large the nearest number of 128 bits, of which the low bits are kept. -/
def ofReal (c : Conversion) (x : Double) : Except FaultKind Value :=
  match c.target with
  | .r4 => .ok (.float x.narrow)
  | .r8 | .real => .ok (.float x)
  | _ =>
    match x.truncate? with
    | some n =>
      if c.checked && ceiling.truncate?.any (fun m => decide (m.natAbs ≤ n.natAbs)) then .error .overflow
      else c.ofNumber (clamp n)
    | none =>
      if c.checked then .error .overflow
      else if x.isNaN then c.ofNumber 0
      else c.ofNumber (clamp (if x.isNegative then -2 ^ 127 else 2 ^ 127))

/-- The number that a word stands for. -/
def read (unsigned : Bool) (a : BitVec w) : Int := if unsigned then a.toNat else a.toInt

/-- Whether a source of 32 bits is read as unsigned: also by the conversions that widen with zeros. -/
def zeroExtends (c : Conversion) : Bool :=
  c.unsignedSource || (!c.checked && (c.target == .u8 || c.target == .u))

def apply (c : Conversion) (v : Value) : Except Trap Value :=
  match v with
  | .int32 n => lift (c.ofNumber (read c.zeroExtends n))
  | .int64 n | .nativeInt n => lift (c.ofNumber (read c.unsignedSource n))
  | .float x => lift (c.ofReal x)
  | .object _ | .pointer _ => .error (.ofError (.notImplemented .conversion))
where
  /-- A fault as a trap. -/
  lift (r : Except FaultKind Value) : Except Trap Value := r.mapError Trap.ofKind

end Conversion

end ManagedCode
