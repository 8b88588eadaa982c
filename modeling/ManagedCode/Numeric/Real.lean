import ManagedCode.Floating.Double
import ManagedCode.Fault
import ManagedCode.Opcode.Action

/-!
# Floating point instructions

Arithmetic on two numbers, comparisons, and the comparison of things that can only be equal or different.
-/

namespace ManagedCode

/-- The instruction `op` on two numbers; the logic and the checked forms have none. -/
def Double.binary? (op : BinaryOp) (x y : Double) : Option Double :=
  match op with
  | .add => some (x.add y)
  | .sub => some (x.sub y)
  | .mul => some (x.mul y)
  | .div => some (x.div y)
  | .rem => some (x.rem y)
  | _ => none

/-- Compares two numbers. The `Un` forms also hold when the numbers are unordered. -/
def Double.compare (c : Comparison) (x y : Double) : Bool :=
  match c with
  | .eq => x.eq y
  | .neUn => !x.eq y
  | .gt => y.lt x
  | .gtUn => !x.le y
  | .ge => y.le x
  | .geUn => !x.lt y
  | .lt => x.lt y
  | .ltUn => !y.le x
  | .le => x.le y
  | .leUn => !y.lt x

/-- Compares things that have no order, given whether they are equal. -/
def Comparison.onIdentity? (c : Comparison) (equal : Bool) : Option Bool :=
  match c with
  | .eq => some equal
  | .neUn | .gtUn => some !equal
  | _ => none

end ManagedCode
