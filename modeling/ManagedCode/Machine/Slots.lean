import ManagedCode.Machine.Monad

/-!
# Arguments, locals and constants
-/

namespace ManagedCode.ExecM

/-- The slot of an argument or a local, and its kind. -/
def placeSlot (p : Prepared) (place : Place) (index : Nat) : ExecM Nat := do
  let (count, base) := match place with
    | .argument => (p.layout.arguments, 0)
    | .local => (p.layout.locals, p.layout.localBase)
  if index < count then return base + index
  else fail (.invalidProgram (← activation).pc (.slotOutOfRange place.text index))

def placeKind (p : Prepared) (place : Place) (index : Nat) : Kind :=
  match place with
  | .argument => p.argumentKinds.getD index .object
  | .local => p.localKinds.getD index .object

def placeIndex (p : Prepared) (pc : Nat) (index : SlotIndex) : ExecM Nat :=
  match index with
  | .implied n => return n
  | .encoded => ofEngine (p.code.slotIndex pc)

def load (p : Prepared) (pc : Nat) (place : Place) (index : SlotIndex) : ExecM Next := do
  let source ← placeSlot p place (← placeIndex p pc index)
  let target ← resultSlot p 0
  copySlot source target
  return .advance

def store (p : Prepared) (pc : Nat) (place : Place) (index : SlotIndex) : ExecM Next := do
  let i ← placeIndex p pc index
  let slot ← placeSlot p place i
  let v ← normalize slot (placeKind p place i) (← peek p 0)
  put slot v
  return .advance

def loadAddress (p : Prepared) (pc : Nat) (place : Place) : ExecM Next := do
  let slot ← placeSlot p place (← placeIndex p pc .encoded)
  let pointer := Pointer.slot (← activation).frame.id slot
  put (← resultSlot p 0) (.pointer pointer)
  return .advance

def constant (p : Prepared) (pc : Nat) (c : Constant) : ExecM Value :=
  match c with
  | .implied n => return .int32 (BitVec.ofInt 32 n)
  | .short => return .int32 ((← ofEngine (p.code.word 8 pc)).signExtend 32)
  | .int => return .int32 (← ofEngine (p.code.word 32 pc))
  | .long => return .int64 (← ofEngine (p.code.word 64 pc))
  | .shortReal => return .float (Double.ofSingle (← ofEngine (p.code.word 32 pc)))
  | .real => return .float ⟨← ofEngine (p.code.word 64 pc)⟩

def loadConstant (p : Prepared) (pc : Nat) (c : Constant) : ExecM Next := do
  result p 0 (← constant p pc c)
  return .advance

def dup (p : Prepared) : ExecM Next := do
  let top ← resultSlot p 1
  copySlot top (top + 1)
  return .advance

end ManagedCode.ExecM
