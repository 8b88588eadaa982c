import ManagedCode.Analysis.Transfer

/-!
# Analysis of a method body

One forward pass over the offsets that control can reach. Each offset is visited at most once, with the stack of types
of whichever path came first; a well-formed program has the same stack on every path. The result says which offsets
are instructions, how high the stack is on entry to each reachable one, and which types the operands have.
-/

namespace ManagedCode

/-- What is known of a method body. -/
structure MethodAnalysis where
  /-- Whether an instruction starts at an offset. -/
  starts : Array Bool
  /-- The height of the evaluation stack on entry to an offset; only reachable offsets have one. -/
  depths : Array (Option Nat)
  /-- The types of the operands of the instruction at an offset. -/
  types : Array (Option OperandTypes)
  deriving DecidableEq, Repr, Inhabited

namespace MethodAnalysis

def size (a : MethodAnalysis) : Nat := a.types.size

def operandTypes? (a : MethodAnalysis) (pc : Nat) : Option OperandTypes := (a.types[pc]?).join

def depth? (a : MethodAnalysis) (pc : Nat) : Option Nat := (a.depths[pc]?).join

def isStart (a : MethodAnalysis) (pc : Nat) : Bool := a.starts.getD pc false

def isReachable (a : MethodAnalysis) (pc : Nat) : Bool := (a.depth? pc).isSome

/-- The annotated offsets in ascending order. -/
def annotations (a : MethodAnalysis) : List (Nat × OperandTypes) :=
  a.types.toList.zipIdx.filterMap fun (t, pc) => t.map (pc, ·)

end MethodAnalysis

namespace Analysis

/-- The state of the pass. -/
structure State where
  result : MethodAnalysis
  /-- The offsets that were ever put on the worklist. -/
  queued : Array Bool
  /-- The offsets that are still to be visited with their stacks, the latest first. -/
  worklist : List (Nat × List StackType)
  /-- How many methods were looked up. -/
  lookups : Nat
  deriving Repr, Inhabited

abbrev PassM := ExceptT EngineError (StateM State)

/-- The offsets at which instructions start, from `pc` to the end of the code. -/
def scanFrom (code : Code) : (fuel pc : Nat) → Array Bool → Except EngineError (Array Bool)
  | 0, _, starts => .ok starts
  | fuel + 1, pc, starts =>
    if code.size ≤ pc then .ok starts
    else
      match code.nextOffset pc with
      | .ok next => scanFrom code fuel next (starts.setIfInBounds pc true)
      | .error e => .error (Context.decodeError e)

/-- The offsets at which instructions start. Every instruction has at least one byte, so the code's size bounds their
number. -/
def scan (code : Code) : Except EngineError (Array Bool) :=
  scanFrom code code.size 0 (Array.replicate code.size false)

/-- Puts an offset on the worklist, unless it was on it before. -/
def enqueue (source target : Nat) (stack : List StackType) : PassM Unit := do
  let s ← get
  if !s.result.isStart target then throw (.invalidProgram source (.notInstructionStart target))
  if !s.queued.getD target false then
    set { s with queued := s.queued.setIfInBounds target true, worklist := (target, stack) :: s.worklist }

/-- The offsets that control enters from outside, with their stacks. -/
def entries (regions : List Region) : List (Nat × List StackType) :=
  (0, []) :: regions.flatMap fun r =>
    match r.kind with
    | .catchType _ => [(r.handler.start, [.object])]
    | .finallyBlock | .faultBlock => [(r.handler.start, [])]
    | .filter offset => [(r.handler.start, [.object]), (offset, [.object])]

/-- Checks that an instruction changed the height of the stack as its table row says. -/
def checkEffect (pc : Nat) (op : Opcode) (before after : Nat) : Except EngineError Unit :=
  match op.effect.delta? with
  | some d =>
    if (after : Int) = before + d then .ok () else .error (.invalidState pc (.effectDiffers op after (before + d)))
  | none => .ok ()

/-- Visits one offset: executes its instruction on types and puts its successors on the worklist. -/
def visit (cx : Context) (pc : Nat) (stack : List StackType) : PassM Unit := do
  modify fun s => { s with result := { s.result with depths := s.result.depths.setIfInBounds pc (some stack.length) } }
  let op ← liftExcept (cx.code.opcodeAt pc)
  if op.action.looksUpMethod then modify fun s => { s with lookups := s.lookups + 1 }
  let ((operands, successors), after) ← liftExcept ((cx.transfer pc op).run stack)
  if operands.isSome then
    modify fun s => { s with result := { s.result with types := s.result.types.setIfInBounds pc operands } }
  liftExcept (checkEffect pc op stack.length after.length)
  successors.forM fun next => enqueue pc next.offset (if next.empties then [] else after)
where
  /-- A result of a pure step. -/
  liftExcept {α : Type} (r : Except EngineError α) : PassM α := ExceptT.mk (pure r)

/-- Visits offsets until the worklist is empty. No offset is on the worklist twice, so the code's size bounds the
visits. -/
def visitAll (cx : Context) : (fuel : Nat) → PassM Unit
  | 0 => return
  | fuel + 1 => do
    match (← get).worklist with
    | [] => return
    | (pc, stack) :: rest =>
      modify fun s => { s with worklist := rest }
      visit cx pc stack
      visitAll cx fuel

def pass (cx : Context) : PassM Unit := do
  let starts ← ExceptT.mk (pure (scan cx.code))
  modify fun s => { s with result := { s.result with starts } }
  if cx.code.size = 0 then throw (.invalidProgram 0 .emptyBody)
  (entries cx.regions).forM fun (offset, stack) => enqueue offset offset stack
  visitAll cx cx.code.size

def contextOf (md : Metadata) (m : MethodSymbol) (b : Body) : Context :=
  ⟨md, ⟨b.code⟩, b.regions, b.maxStack, m.signature.arguments.map (·.stackType), b.locals.map (·.stackType),
    m.signature.result.isSome⟩

def start (size : Nat) : State :=
  ⟨⟨Array.replicate size false, Array.replicate size none, Array.replicate size none⟩, Array.replicate size false, [],
    0⟩

end Analysis

/-- Analyzes the body of a method as it was declared. Gives the result and the number of methods looked up on the way. -/
def analyze (md : Metadata) (m : MethodSymbol) : Except EngineError MethodAnalysis × Nat :=
  match m.body with
  | none => (.error (.invalidState 0 (.noBody m.text)), 0)
  | some body =>
    let (result, s) := ((Analysis.pass (Analysis.contextOf md m body)).run).run (Analysis.start body.code.size)
    (result.map fun _ => s.result, s.lookups)

end ManagedCode
