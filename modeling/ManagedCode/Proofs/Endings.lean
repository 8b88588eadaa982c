import ManagedCode.Machine.Instruction

/-!
# How some instructions end

A few instructions get a value in one of several ways and go on with it in only one. What follows the choice has a name
here, so that a property of it is proved once, whatever the choice.
-/

namespace ManagedCode

/-- What a kind makes of a value that was copied. -/
def HeapTrapM.coerced (slot : Nat) (k : Kind) (v : Value) : HeapTrapM Value :=
  match k.coerce v with
  | some w => return w
  | none => throw (.ofError (.slotType slot (.unstorable v.stackType k)))

theorem HeapTrapM.normalize_eq (slot : Nat) (k : Kind) (v : Value) :
    normalize slot k v = if k = .struct then ofHeap (Heap.copyValue v) >>= coerced slot k else coerced slot k v := rfl

namespace ExecM

/-- A comparison gives the relation that was found, if there is one for the types of its operands. -/
def answered (op : Opcode) (types : OperandTypes) : Option Bool → ExecM Bool
  | some b => return b
  | none => unsupported (.operands op types)

/-- The owner of a field must not be missing. -/
def owned : Option Ref → ExecM Ref
  | some r => return r
  | none => fault .nullReference

/-- The object whose field is used, where the owner is given by `v`. -/
def ownerOf (v : Value) : ExecM Ref := do
  let object ← match v with
    | .object r => pure r
    | .pointer q => do
      match ← deref q .struct with
      | .object r => pure r
      | v => unsupported (.fieldThrough v q)
    | .nativeInt _ => unsupported .fieldUnmanaged
    | v => do fail (.invalidProgram (← activation).pc (.fieldOwner v))
  owned object

theorem fieldOwner_eq (p : Prepared) (n : Nat) : fieldOwner p n = peek p n >>= ownerOf := rfl

/-- The jump through the entry of a table. -/
def jumpInto (p : Prepared) (pc index : Nat) : ExecM Next := do
  let targets ← ofEngine (p.code.switchTargets pc)
  match targets[index]? with
  | some target => return .jump target
  | none => return .advance

end ExecM

end ManagedCode
