import ManagedCode.Machine.Enter
import ManagedCode.Machine.Instruction

/-!
# Steps

One step executes one instruction, or hands the end of a call to the activation that waits for it. `Execution.run`
makes steps until nothing waits any more; it takes a bound on their number, and running out of it is told apart from
every answer.
-/

namespace ManagedCode

namespace ExecM

/-- Moves the top of the stack by the fixed effect of an instruction and clears what was popped. `before` is where the
top was before the instruction. -/
def applyEffect (p : Prepared) (op : Opcode) (before : Nat) : ExecM Unit := do
  match op.effect with
  | .varying => return
  | .fixed pops pushes =>
    let a ← activation
    if a.top ≠ before then fail (.invalidState a.pc (.movedTop op))
    else if before < p.layout.stackBase + pops then fail (.invalidState a.pc .underflow)
    else
      let after := before - pops + pushes
      if a.frame.size < after then fail (.invalidState a.pc .overflow)
      else modifyActivation fun a => { a with frame := a.frame.clearRange after before, top := after }

/-- Counts a backward jump and takes note when the count reaches the threshold. -/
def countBackEdge (pc target : Nat) : ExecM Unit := do
  let threshold := (← machine).settings.osrThreshold
  let count := (← activation).backEdges + 1
  let reached := decide (0 < threshold ∧ threshold ≤ count)
  modifyMetrics fun m =>
    { m with osrPolls := m.osrPolls + 1, osrTriggers := m.osrTriggers + if reached then 1 else 0 }
  modifyActivation fun a => { a with backEdges := if reached then 0 else count }
  if reached then
    tracing fun t indent => t.message indent ["OSR threshold reached at ", Text.label pc, " -> ", Text.label target]

/-- The instructions whose backward jumps are counted. -/
def countsJumps (op : Opcode) : Bool :=
  op.operand == .shortBranch || op.operand == .branch || op.operand == .switch

def advance (p : Prepared) (op : Opcode) (before : Nat) : ExecM Unit := do
  applyEffect p op before
  let next ← ofEngine (p.code.nextOffset (← activation).pc)
  modifyActivation fun a => { a with pc := next }

def jumpTo (p : Prepared) (op : Opcode) (before target : Nat) : ExecM Unit := do
  applyEffect p op before
  let pc := (← activation).pc
  if target ≤ pc ∧ countsJumps op then countBackEdge pc target
  modifyActivation fun a => { a with pc := target }

/-- Raises an exception at the current instruction: the answer is the exception if no handler takes it. -/
def dispatch (p : Prepared) (e : GuestException) : ExecM (Option GuestException) := do
  modifyMetrics fun m => { m with faultsRaised := m.faultsRaised + 1 }
  let m ← machine
  let a ← activation
  let text := e.text m.names
  tracing fun t indent => t.exception indent text a.pc
  let (transfer, unwinding) := a.unwinding.dispatch m.metadata p.regions e (m.heap.typeOf? e.object) a.pc 0
  modifyActivation fun a => { a with unwinding }
  match ← ofAbort transfer with
  | .resume target object =>
    enterHandler p target object
    modifyActivation fun a => { a with pc := target }
    return none
  | .propagate e =>
    tracing fun t indent => t.message indent ["no handler for ", text]
    return some e

/-- What an activation does with the end of the call that it waited for. -/
def continueWith (c : Continuation) (value : Option Value) : ExecM Next := do
  match c with
  | .returnResult => return .ret value
  | .pushObject r =>
    push (.object (some r))
    return .advance
  | .pushResult m =>
    match m.signature.result, value with
    | none, _ => return .advance
    | some _, some v =>
      push v
      return .advance
    | some _, none => fail (.invalidState (← activation).pc (.returnedNothing m.name))

end ExecM

namespace Execution

def finish (w : Workspace) (callers : List Caller) (o : Outcome) : Execution :=
  { machine := { w.machine with depth := w.activation.depth - 1 }, control := .ending o, callers }

/-- Goes on with the activation of a workspace, unless what was done last failed. -/
def proceed (x : ExecM Unit) (w : Workspace) (callers : List Caller) : Execution :=
  match x.run w with
  | (.ok (), w) => { machine := w.machine, control := .running w.activation, callers }
  | (.error t, w) =>
    let (f, m) := w.machine.raise t
    finish { w with machine := m } callers (.error f)

def traced (w : Workspace) (f : Trace → Nat → Trace) : Workspace :=
  { w with machine := { w.machine with trace := f w.machine.trace (w.activation.depth - 1) } }

def throwIn (p : Prepared) (e : GuestException) (w : Workspace) (callers : List Caller) : Execution :=
  match (ExecM.dispatch p e).run w with
  | (.ok none, w) => { machine := w.machine, control := .running w.activation, callers }
  | (.ok (some e), w) => finish w callers (.error (.guest e))
  | (.error t, w) =>
    let (f, m) := w.machine.raise t
    finish { w with machine := m } callers (.error f)

/-- Acts on what an instruction, which started with the top at `before`, asks for. -/
def settle (p : Prepared) (op : Opcode) (before : Nat) (callers : List Caller) :
    Except Trap Next × Workspace → Execution
  | (.ok .advance, w) => proceed (ExecM.advance p op before) w callers
  | (.ok (.jump target), w) => proceed (ExecM.jumpTo p op before target) w callers
  | (.ok (.ret value), w) => finish (traced w fun t indent => t.exit indent p.symbol.name) callers (.ok value)
  | (.ok (.propagate e), w) =>
    let text := e.text w.machine.names
    let w := traced w fun t indent => t.message indent ["exception leaves ", p.symbol.name, ": ", text]
    finish w callers (.error (.guest e))
  | (.ok (.invoke method arguments continuation), w) =>
    let (control, m) := w.machine.enter method arguments
    { machine := m, control, callers := ⟨w.activation, continuation⟩ :: callers }
  | (.error (.abort (.error e)), w) =>
    let text := e.message w.machine.names
    let w := traced w fun t indent =>
      t.error indent ["engine error in ", p.symbol.name, " at ", Text.label w.activation.pc, ": ", text]
    finish w callers (.error (.abort (.error e)))
  | (.error (.abort .endless), w) => finish w callers (.error (.abort .endless))
  | (.error (.abort .crash), w) => finish w callers (.error (.abort .crash))
  | (.error (.thrown e), w) => throwIn p e w callers
  | (.error (.fault k message), w) =>
    let (e, m) := w.machine.faultException k message
    throwIn p e { w with machine := m } callers

def current (w : Workspace) : Except EngineError (Prepared × Opcode) :=
  match w.machine.prepared? w.activation.method with
  | none => .error (.invalidState w.activation.pc (.noBody w.activation.method.text))
  | some p =>
    match p.code.opcodeAt w.activation.pc with
    | .ok op => .ok (p, op)
    | .error e => .error e

def stepInstruction (w : Workspace) (callers : List Caller) : Execution :=
  match current w with
  | .error e => finish w callers (.error (.abort (.error e)))
  | .ok (p, op) =>
    let pc := w.activation.pc
    let before := w.activation.top
    let w := if w.machine.settings.traceInstructions then
        traced w fun t indent => t.instruction indent pc op.mnemonic
      else w
    settle p op before callers ((ExecM.instruction p pc op).run w)

/-- Hands the end of a call to the activation that waited for it. An abort is handed on in any case. -/
def stepReturn (w : Workspace) (c : Continuation) (o : Outcome) (callers : List Caller) : Execution :=
  match current w with
  | .error e =>
    match o with
    | .error (.abort a) => finish w callers (.error (.abort a))
    | _ => finish w callers (.error (.abort (.error e)))
  | .ok (p, op) =>
    let before := w.activation.top
    match o with
    | .ok value => settle p op before callers ((ExecM.continueWith c value).run w)
    | .error (.guest e) => settle p op before callers (.error (.thrown e), w)
    | .error (.abort a) => settle p op before callers (.error (.abort a), w)

/-- One step. An execution that has ended stays as it is. -/
def step (x : Execution) : Execution :=
  match x.control, x.callers with
  | .running a, callers => stepInstruction ⟨x.machine, a⟩ callers
  | .ending o, c :: callers => stepReturn ⟨x.machine, c.activation⟩ c.continuation o callers
  | .ending _, [] => x

def outcome? (x : Execution) : Option Outcome :=
  match x.control, x.callers with
  | .ending o, [] => some o
  | _, _ => none

/-- Makes steps until the execution ends. There is no answer when `fuel` steps are not enough. -/
def run : (fuel : Nat) → Execution → Option (Outcome × Machine)
  | 0, _ => none
  | fuel + 1, x =>
    match x.outcome? with
    | some o => some (o, x.machine)
    | none => run fuel x.step

end Execution

namespace Machine

/-- The run of a method on arguments, at its start. -/
def start (m : Machine) (symbol : MethodSymbol) (arguments : List Value) : Execution :=
  let (control, m) := m.enter symbol arguments
  { machine := m, control, callers := [] }

/-- The run of a method that goes on in a frame, at its start. -/
def restart (m : Machine) (symbol : MethodSymbol) (frame : Frame) (offset top : Nat) : Execution :=
  let (control, m) := m.reenter symbol frame offset top
  { machine := m, control, callers := [] }

/-- Runs a method to its end. -/
def execute (fuel : Nat) (m : Machine) (symbol : MethodSymbol) (arguments : List Value) : Option (Outcome × Machine) :=
  (m.start symbol arguments).run fuel

/-- Runs a method from an offset to its end. -/
def resumeAt (fuel : Nat) (m : Machine) (symbol : MethodSymbol) (frame : Frame) (offset top : Nat) :
    Option (Outcome × Machine) :=
  (m.restart symbol frame offset top).run fuel

end Machine

end ManagedCode
