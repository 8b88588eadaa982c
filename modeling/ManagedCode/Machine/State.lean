import ManagedCode.Analysis.Basic
import ManagedCode.Frame
import ManagedCode.Heap
import ManagedCode.Metrics
import ManagedCode.Settings
import ManagedCode.Trace
import ManagedCode.Unwinding

/-!
# The state of the machine

`Machine` is everything that lasts from one run to the next: the tables, the heap, the methods that were made ready
and the counts. An `Activation` is one method being executed. Calls do not nest in the definition of the machine: the
activations that wait for a call are kept as a list of `Caller`s, so a run is a sequence of steps between
`Execution`s.
-/

namespace ManagedCode

/-- Why a call gives no result. -/
inductive Failure where
  /-- An exception that no handler caught. -/
  | guest (e : GuestException)
  | abort (a : Abort)
  deriving DecidableEq, Repr, Inhabited

/-- How a call ends. -/
abbrev Outcome := Except Failure (Option Value)

/-- A function of the host, which stands in for a method without a body. -/
structure Native where
  run : Metadata → List Value → StateM Heap Outcome

/-- The host function that does nothing and gives nothing. -/
def Native.idle : Native := ⟨fun _ _ => pure (.ok none)⟩

/-- A call site that was resolved. -/
inductive CallSite where
  | call (method : MethodSymbol)
  | callvirt (method : MethodSymbol)
  | newobj (constructor : MethodSymbol) (type : TypeSymbol)
  | jmp (method : MethodSymbol)
  deriving DecidableEq, Repr, Inhabited

/-- A method that is ready to run: everything about it that is computed once. Its code changes only where a call site
becomes a cached call. -/
structure Prepared where
  symbol : MethodSymbol
  code : Code
  analysis : MethodAnalysis
  regions : RegionTable
  callSites : Array CallSite
  layout : Layout
  argumentKinds : List Kind
  localKinds : List Kind
  deriving Repr, Inhabited

/-- Everything that lasts from one run to the next. -/
structure Machine where
  metadata : Metadata := .core
  heap : Heap := {}
  natives : List (MethodHandle × Native) := []
  settings : Settings := {}
  prepared : List (MethodHandle × Prepared) := []
  metrics : Metrics := {}
  trace : Trace := {}
  /-- How many activations and native calls are nested. -/
  depth : Nat := 0
  /-- The number of the next frame. -/
  nextFrame : Nat := 1
  /-- How many methods were looked up by token. -/
  lookups : Nat := 0
  deriving Inhabited

/-- One method being executed. -/
structure Activation where
  method : MethodHandle
  frame : Frame
  /-- The first free slot of the evaluation stack. -/
  top : Nat
  pc : Nat
  unwinding : Unwinding := {}
  /-- How deep this activation is nested, counting itself. -/
  depth : Nat
  /-- The backward jumps since the last time that their count reached the threshold. -/
  backEdges : Nat := 0
  deriving Repr, Inhabited

/-- What an activation does with the result of the call that it waits for. -/
inductive Continuation where
  /-- Pushes the result of a method, if its signature has one. -/
  | pushResult (method : MethodSymbol)
  /-- Pushes the object that was constructed. -/
  | pushObject (object : Ref)
  /-- Returns the result as its own. -/
  | returnResult
  deriving DecidableEq, Repr, Inhabited

/-- An activation that waits for a call. -/
structure Caller where
  activation : Activation
  continuation : Continuation
  deriving Repr, Inhabited

/-- What the machine does next. -/
inductive Control where
  /-- Executes the instruction at the activation's offset. -/
  | running (a : Activation)
  /-- Hands the end of a call to the activation that waits for it. -/
  | ending (o : Outcome)
  deriving Inhabited

/-- A run under way: the machine, what it does next, and the activations that wait, the innermost first. -/
structure Execution where
  machine : Machine
  control : Control
  callers : List Caller
  deriving Inhabited

namespace Machine

def prepared? (m : Machine) (h : MethodHandle) : Option Prepared := m.prepared.lookup h

def native? (m : Machine) (h : MethodHandle) : Option Native := m.natives.lookup h

def registerNative (m : Machine) (h : MethodHandle) (n : Native) : Machine := { m with natives := (h, n) :: m.natives }

def onHeap (m : Machine) (x : StateM Heap α) : α × Machine :=
  let h := m.heap
  let rest := { m with heap := {} }
  let (a, h) := x.run h
  (a, { rest with heap := h })

/-- Adds a method that is ready to run, or replaces it. -/
def setPrepared (m : Machine) (h : MethodHandle) (p : Prepared) : Machine :=
  { m with prepared := insertEntry h p m.prepared }

/-- How objects are shown in messages. -/
def names (m : Machine) : Ref → String := m.heap.nameOf

/-- Resolves a method by its token; every attempt counts as a lookup. -/
def resolveMethod (m : Machine) (t : Token) : Except ResolutionError MethodSymbol × Machine :=
  (m.metadata.resolveMethod t, { m with lookups := m.lookups + 1 })

/-- A machine on tables. The constructors of the core do nothing. -/
def make (md : Metadata) (limit : Option Nat) (settings : Settings) (trace : Trace) : Machine :=
  { metadata := md, heap := { limit }, settings, trace
    natives := [(Core.objectConstructor, .idle), (Core.exceptionConstructor, .idle)] }

end Machine

end ManagedCode
