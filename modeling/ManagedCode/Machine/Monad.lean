import ManagedCode.Machine.State
import ManagedCode.Opcode.Action

/-!
# Executing one instruction

An instruction works on the machine and the current activation, and may be interrupted by a trap. Instructions with a
fixed effect on the stack only read their operands and write their results in place; afterwards the top of the stack
is moved by the table. Calls, returns and handlers move it themselves.
-/

namespace ManagedCode

/-- What an instruction works on. -/
structure Workspace where
  machine : Machine
  activation : Activation
  deriving Inhabited

/-- The execution of an instruction. What was done before a trap stays done. -/
abbrev ExecM := ExceptT Trap (StateM Workspace)

/-- What happens after an instruction. -/
inductive Next where
  /-- Goes on with the next instruction. -/
  | advance
  | jump (target : Nat)
  | ret (value : Option Value)
  /-- An exception left every handler of this activation. -/
  | propagate (e : GuestException)
  /-- Calls a method. -/
  | invoke (method : MethodSymbol) (arguments : List Value) (continuation : Continuation)
  deriving DecidableEq, Repr, Inhabited

/-- A trap for a failed operation on the heap. -/
def HeapFailure.trap : HeapFailure → Trap
  | .fault k => .ofKind k
  | .endless => .abort .endless

/-- An operation on the heap that fails by a trap. -/
abbrev HeapTrapM := ExceptT Trap (StateM Heap)

namespace HeapTrapM

def ofHeap (x : HeapM α) : HeapTrapM α := ExceptT.mk ((Except.mapError HeapFailure.trap ·) <$> x.run)

/-- Narrows a value to a kind; a structure is copied. `slot` is named in the message of a value that does not fit. -/
def normalize (slot : Nat) (k : Kind) (v : Value) : HeapTrapM Value := do
  let v ← if k = .struct then ofHeap (Heap.copyValue v) else pure v
  match k.coerce v with
  | some w => return w
  | none => throw (.ofError (.slotType slot (.unstorable v.stackType k)))

end HeapTrapM

namespace ExecM

/-! ## Traps -/

def fault (k : FaultKind) : ExecM α := throw (.ofKind k)

def fail (e : EngineError) : ExecM α := throw (.ofError e)

def unsupported (w : Unsupported) : ExecM α := fail (.notImplemented w)

def ofEngine (r : Except EngineError α) : ExecM α :=
  match r with
  | .ok a => return a
  | .error e => fail e

def ofResolution (r : Except ResolutionError α) : ExecM α :=
  match r with
  | .ok a => return a
  | .error e => fail (.resolution e)

def ofAbort (r : Except Abort α) : ExecM α :=
  match r with
  | .ok a => return a
  | .error a => throw (.abort a)

def ofFault (r : Except FaultKind α) : ExecM α :=
  match r with
  | .ok a => return a
  | .error k => fault k

/-! ## Parts of the workspace -/

def machine : ExecM Machine := return (← get).machine

def activation : ExecM Activation := return (← get).activation

def modifyMachine (f : Machine → Machine) : ExecM Unit := modify fun s => { s with machine := f s.machine }

def modifyActivation (f : Activation → Activation) : ExecM Unit :=
  modify fun s => { s with activation := f s.activation }

def metadata : ExecM Metadata := return (← get).machine.metadata

def onHeapTrap (x : HeapTrapM α) : ExecM α :=
  ExceptT.mk (modifyGet fun s =>
    let a := s.activation
    let (r, m) := s.machine.onHeap x.run
    (r, ⟨m, a⟩))

def onHeap (x : HeapM α) : ExecM α := onHeapTrap (.ofHeap x)

def resolveMethod (t : Token) : ExecM MethodSymbol := do
  let result ← modifyGet fun s =>
    let (r, m) := s.machine.resolveMethod t
    (r, { s with machine := m })
  ofResolution result

def modifyMetrics (f : Metrics → Metrics) : ExecM Unit := modifyMachine fun m => { m with metrics := f m.metrics }

/-- Writes to the trace; lines are indented by the depth of the activation. -/
def tracing (f : Trace → Nat → Trace) : ExecM Unit :=
  modify fun s => { s with machine := { s.machine with trace := f s.machine.trace (s.activation.depth - 1) } }

/-! ## Slots -/

def put (slot : Nat) (v : Value) : ExecM Unit := do
  let a ← activation
  let frame ← ofEngine (a.frame.put slot v)
  modifyActivation fun a => { a with frame }

def copySlot (source target : Nat) : ExecM Unit := do
  let a ← activation
  let frame ← ofEngine (a.frame.copy source target)
  modifyActivation fun a => { a with frame }

def normalize (slot : Nat) (k : Kind) (v : Value) : ExecM Value := onHeapTrap (HeapTrapM.normalize slot k v)

/-! ## The evaluation stack -/

/-- The stack has fewer values than the instruction needs. -/
def underflow : ExecM α := do fail (.invalidState (← activation).pc .underflow)

/-- The slot of the value that lies `n` below the top. -/
def stackSlot (p : Prepared) (n : Nat) : ExecM Nat := do
  let top := (← activation).top
  if p.layout.stackBase + n + 1 ≤ top then return top - (n + 1) else underflow

/-- The slot of the first result of an instruction that pops `pops` values. -/
def resultSlot (p : Prepared) (pops : Nat) : ExecM Nat := do
  let top := (← activation).top
  if p.layout.stackBase + pops ≤ top then return top - pops else underflow

/-- The value that lies `n` below the top. -/
def peek (p : Prepared) (n : Nat) : ExecM Value := do
  let slot ← stackSlot p n
  ofEngine ((← activation).frame.get slot)

/-- Writes the result of an instruction that pops `pops` values. -/
def result (p : Prepared) (pops : Nat) (v : Value) : ExecM Unit := do
  put (← resultSlot p pops) v

def push (v : Value) : ExecM Unit := do
  let a ← activation
  if a.frame.size ≤ a.top then fail (.invalidState a.pc .overflow)
  put a.top v
  modifyActivation fun a => { a with top := a.top + 1 }

def pop (p : Prepared) : ExecM Value := do
  let slot ← stackSlot p 0
  let (v, frame) ← ofEngine ((← activation).frame.take slot)
  modifyActivation fun a => { a with frame, top := slot }
  return v

/-- Moves the values of `count` slots from `slot` on out of the frame. -/
def takeSlots (slot : Nat) : (count : Nat) → ExecM (List Value)
  | 0 => return []
  | count + 1 => do
    let (v, frame) ← ofEngine ((← activation).frame.take slot)
    modifyActivation fun a => { a with frame }
    return v :: (← takeSlots (slot + 1) count)

/-- Pops the arguments of a call, the first one first. -/
def popArguments (p : Prepared) (count : Nat) : ExecM (List Value) :=
  match count with
  | 0 => return []
  | n + 1 => do
    let first ← stackSlot p n
    let values ← takeSlots first (n + 1)
    modifyActivation fun a => { a with top := first }
    return values

def resetStack (p : Prepared) : ExecM Unit :=
  modifyActivation fun a =>
    { a with frame := a.frame.clearRange p.layout.stackBase a.top, top := p.layout.stackBase }

/-- The types that the analysis found for the operands of the instruction at `pc`. -/
def operandTypes (p : Prepared) (pc : Nat) : ExecM OperandTypes :=
  match p.analysis.operandTypes? pc with
  | some ts => return ts
  | none => fail (.invalidState pc .untypedInstruction)

/-! ## Typed operands -/

def int32At (p : Prepared) (n : Nat) : ExecM (BitVec 32) := do
  let slot ← stackSlot p n
  ofEngine ((← activation).frame.getInt32 slot)

def int64At (p : Prepared) (n : Nat) : ExecM (BitVec 64) := do
  let slot ← stackSlot p n
  ofEngine ((← activation).frame.getInt64 slot)

/-- An operand of 32 bits or of native size, sign extended. -/
def nativeAt (p : Prepared) (n : Nat) : ExecM (BitVec 64) := do
  let slot ← stackSlot p n
  ofEngine ((← activation).frame.getAs slot "int32 or native int" fun
    | .int32 n => some (n.signExtend 64)
    | .nativeInt n => some n
    | _ => none)

def floatAt (p : Prepared) (n : Nat) : ExecM Double := do
  let slot ← stackSlot p n
  ofEngine ((← activation).frame.getFloat slot)

def objectAt (p : Prepared) (n : Nat) : ExecM (Option Ref) := do
  let slot ← stackSlot p n
  ofEngine ((← activation).frame.getObject slot)

def pointerAt (p : Prepared) (n : Nat) : ExecM Pointer := do
  let slot ← stackSlot p n
  ofEngine ((← activation).frame.getPointer slot)

/-- A reference that is not null. -/
def nonNullAt (p : Prepared) (n : Nat) : ExecM Ref := do
  match ← objectAt p n with
  | some r => return r
  | none => fault .nullReference

/-- The address of an indirection. A pointer that was never set is null. -/
def addressAt (p : Prepared) (n : Nat) : ExecM Pointer := do
  let slot ← stackSlot p n
  match ← ofEngine ((← activation).frame.get slot) with
  | .pointer q => return q
  | .object none => fault .nullReference
  | .nativeInt _ => unsupported .unmanagedPointer
  | v => fail (.slotType slot (.holds "&" v))

def indexAt (p : Prepared) (n : Nat) : ExecM Nat := do
  let i ← nativeAt p n
  if i.toInt < 0 then fault .indexOutOfRange else return i.toNat

def typeOperand (p : Prepared) (pc : Nat) : ExecM TypeSymbol := do
  let token ← ofEngine (p.code.token pc)
  ofResolution ((← metadata).resolveType token)

def fieldOperand (p : Prepared) (pc : Nat) : ExecM FieldSymbol := do
  let token ← ofEngine (p.code.token pc)
  ofResolution ((← metadata).resolveField token)

end ExecM

end ManagedCode
