import ManagedCode.Machine.Arithmetic

/-!
# Branches, returns and exception handling
-/

namespace ManagedCode.ExecM

/-- Jumps to the target of the branch at `pc`, if it is taken. -/
def jumpIf (p : Prepared) (pc : Nat) (op : Opcode) (taken : Bool) : ExecM Next := do
  let target ← ofEngine (p.code.branchTarget pc)
  tracing fun t indent => t.branch indent op.mnemonic target taken
  return if taken then .jump target else .advance

/-- Whether the value at the top counts as true: an integer other than zero, a reference or pointer other than null. -/
def truth (p : Prepared) (pc : Nat) (op : Opcode) : ExecM Bool := do
  match ← operandTypes p pc with
  | .int32 => return (← int32At p 0) != 0
  | .int64 => return (← int64At p 0) != 0
  | .nativeInt => return (← nativeAt p 0) != 0
  | .object => return (← objectAt p 0).isSome
  | .pointer =>
    match ← peek p 0 with
    | .object r => return r.isSome
    | _ => return true
  | types => fail (.invalidProgram pc (.condition op types))

def jumpOn (p : Prepared) (pc : Nat) (op : Opcode) (wanted : Bool) : ExecM Next := do
  let b ← truth p pc op
  jumpIf p pc op (b == wanted)

def jumpCompare (p : Prepared) (pc : Nat) (op : Opcode) (c : Comparison) : ExecM Next := do
  let b ← compareTop p pc op c
  jumpIf p pc op b

/-- Jumps through a table; an index outside of it, read as unsigned, goes on with the next instruction. -/
def switch (p : Prepared) (pc : Nat) : ExecM Next := do
  let index ← match ← peek p 0 with
    | .int32 n => pure n.toNat
    | _ => do pure (← nativeAt p 0).toNat
  let targets ← ofEngine (p.code.switchTargets pc)
  match targets[index]? with
  | some target => return .jump target
  | none => return .advance

def ret (p : Prepared) : ExecM Next := do
  let value ← match p.symbol.signature.result with
    | none => pure none
    | some k => do
      let v ← pop p
      let w ← normalize (← activation).top k v
      pure (some w)
  let a ← activation
  if a.top ≠ p.layout.stackBase then fail (.invalidProgram a.pc .returnWithOperands)
  else return .ret value

/-- Starts a handler at `pc`: the stack is emptied and the exception's object, if the handler catches one, is pushed. -/
def enterHandler (p : Prepared) (pc : Nat) (object : Option (Option Ref)) : ExecM Unit := do
  resetStack p
  match object with
  | some r =>
    push (.object r)
    modifyMetrics fun m => { m with faultsCaught := m.faultsCaught + 1 }
  | none =>
    if p.regions.isFinallyEntry pc then modifyMetrics fun m => { m with finallyBlocksRun := m.finallyBlocksRun + 1 }

def leave (p : Prepared) (pc : Nat) : ExecM Next := do
  let target ← ofEngine (p.code.branchTarget pc)
  resetStack p
  let (next, unwinding) := (← activation).unwinding.leave p.regions pc target
  modifyActivation fun a => { a with unwinding }
  if next ≠ target then enterHandler p next none
  return .jump next

def endFinally (p : Prepared) (pc : Nat) : ExecM Next := do
  let (transfer, unwinding) := (← activation).unwinding.endFinally (← metadata) p.regions pc
  modifyActivation fun a => { a with unwinding }
  match ← ofAbort transfer with
  | .resume target object =>
    enterHandler p target object
    return .jump target
  | .propagate e => return .propagate e

/-- Throws the object at the top; its message is the name of its type. -/
def throwTop (p : Prepared) : ExecM Next := do
  let r ← objectAt p 0
  match (← machine).heap.typeOf? r with
  | none => fault .nullReference
  | some type =>
    let t ← ofResolution ((← metadata).typeOf type)
    throw (.thrown ⟨r, none, t.name⟩)

def rethrow (p : Prepared) (pc : Nat) : ExecM Next := do
  let e ← ofEngine ((← activation).unwinding.rethrow p.regions pc)
  throw (.thrown e)

end ManagedCode.ExecM
