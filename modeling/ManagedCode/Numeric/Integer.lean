import ManagedCode.Fault
import ManagedCode.Opcode.Action

/-!
# Integer arithmetic

The arithmetic, logic, shift and comparison instructions on words of any width. The machine uses them at 32 and at 64
bits.
-/

namespace ManagedCode.Word

/-- The instruction `op` on two words. Division and the checked forms can fault. -/
def binary (op : BinaryOp) (a b : BitVec w) : Except FaultKind (BitVec w) :=
  match op with
  | .add => .ok (a + b)
  | .sub => .ok (a - b)
  | .mul => .ok (a * b)
  | .div => signed fun a b => a.sdiv b
  | .rem => signed fun a b => a.srem b
  | .divUn => if b = 0 then .error .divideByZero else .ok (a / b)
  | .remUn => if b = 0 then .error .divideByZero else .ok (a % b)
  | .and => .ok (a &&& b)
  | .or => .ok (a ||| b)
  | .xor => .ok (a ^^^ b)
  | .addOvf => fitting (a.saddOverflow b) (a + b)
  | .subOvf => fitting (a.ssubOverflow b) (a - b)
  | .mulOvf => fitting (a.smulOverflow b) (a * b)
  | .addOvfUn => fitting (a.uaddOverflow b) (a + b)
  | .subOvfUn => fitting (a.usubOverflow b) (a - b)
  | .mulOvfUn => fitting (a.umulOverflow b) (a * b)
where
  /-- A signed division, which has no result for a zero divisor nor for the least number divided by minus one. -/
  signed (f : BitVec w → BitVec w → BitVec w) : Except FaultKind (BitVec w) :=
    if b = 0 then .error .divideByZero
    else if a = BitVec.intMin w ∧ b = BitVec.allOnes w then .error .overflow
    else .ok (f a b)
  /-- A result, unless it does not fit. -/
  fitting (overflows : Bool) (result : BitVec w) : Except FaultKind (BitVec w) :=
    if overflows then .error .overflow else .ok result

/-- Shifts a word; the amount counts modulo the width. -/
def shift (op : ShiftOp) (a : BitVec w) (amount : Nat) : BitVec w :=
  match op with
  | .shl => a <<< (amount % w)
  | .shr => a.sshiftRight (amount % w)
  | .shrUn => a >>> (amount % w)

def unary (op : UnaryOp) (a : BitVec w) : BitVec w :=
  match op with
  | .neg => -a
  | .not => ~~~a

/-- Compares two words, as signed numbers or, in the `Un` forms, as unsigned ones. -/
def compare (c : Comparison) (a b : BitVec w) : Bool :=
  match c with
  | .eq => a == b
  | .neUn => a != b
  | .gt => b.slt a
  | .gtUn => b.ult a
  | .ge => b.sle a
  | .geUn => b.ule a
  | .lt => a.slt b
  | .ltUn => a.ult b
  | .le => a.sle b
  | .leUn => a.ule b

end ManagedCode.Word
