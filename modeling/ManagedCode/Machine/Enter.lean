import ManagedCode.Machine.Monad

/-!
# Entering a method

A method is analyzed when it is first entered; afterwards it is ready. Entering it checks the depth of calls and the
number of arguments, and narrows the arguments to the kinds of their slots.
-/

namespace ManagedCode

def Prepared.make (m : MethodSymbol) (b : Body) (analysis : MethodAnalysis) (regions : RegionTable) :
    Prepared :=
  { symbol := m, code := ⟨b.code⟩, analysis, regions, callSites := #[]
    layout := ⟨m.signature.arity, b.locals.length, b.maxStack⟩
    argumentKinds := m.signature.arguments, localKinds := b.locals }

namespace Machine

/-- Makes a method ready, if it is not. -/
def prepare (m : Machine) (symbol : MethodSymbol) : Except EngineError Prepared × Machine :=
  match m.prepared? symbol.handle with
  | some p => (.ok p, m)
  | none =>
    match symbol.body with
    | none => (.error (.invalidState 0 (.noBody symbol.text)), m)
    | some body =>
      let (analysis, lookups) := analyze m.metadata symbol
      let m := { m with lookups := m.lookups + lookups }
      match analysis with
      | .error e => (.error e, m)
      | .ok analysis =>
        match RegionTable.resolve m.metadata body.regions with
        | .error e => (.error e, m)
        | .ok regions =>
          let p := Prepared.make symbol body analysis regions
          let m := m.setPrepared symbol.handle p
          (.ok p, { m with metrics := { m.metrics with methodsPrepared := m.metrics.methodsPrepared + 1 } })

/-- The exception of a fault, with an object of its own. -/
def faultException (m : Machine) (k : FaultKind) (message : String) : GuestException × Machine :=
  let md := m.metadata
  let (r, m) := m.onHeap (Heap.newException md k message)
  (⟨some r, some k, message⟩, m)

/-- What a trap is outside of every handler. -/
def raise (m : Machine) (t : Trap) : Failure × Machine :=
  match t with
  | .abort a => (.abort a, m)
  | .thrown e => (.guest e, m)
  | .fault k message =>
    let (e, m) := m.faultException k message
    (.guest e, m)

/-- Narrows arguments to the kinds of their slots, which are numbered from `slot`. -/
def normalizeAll (slot : Nat) : List Kind → List Value → HeapTrapM (List Value)
  | k :: ks, v :: vs => do
    let w ← HeapTrapM.normalize slot k v
    return w :: (← normalizeAll (slot + 1) ks vs)
  | _, _ => return []

def newFrame (m : Machine) (p : Prepared) (arguments : List Value) : Except Failure Frame × Machine :=
  if arguments.length ≠ p.layout.arguments then
    (.error (.abort (.error (.argumentCount p.symbol.name p.layout.arguments arguments.length))), m)
  else
    let (result, m) := m.onHeap (normalizeAll 0 p.argumentKinds arguments).run
    match result with
    | .error t =>
      let (f, m) := m.raise t
      (.error f, m)
    | .ok values =>
      (.ok (.make ⟨m.nextFrame⟩ p.layout values p.localKinds), { m with nextFrame := m.nextFrame + 1 })

def callNative (m : Machine) (symbol : MethodSymbol) (arguments : List Value) : Outcome × Machine :=
  match m.native? symbol.handle with
  | none => (.error (.abort (.error (.notImplemented (.nativeMethod symbol.name)))), m)
  | some native => m.onHeap (native.run m.metadata arguments)

/-- The activation that starts at `pc`. -/
def activate (m : Machine) (symbol : MethodSymbol) (p : Prepared) (frame : Frame) (pc top : Nat) : Control × Machine :=
  (.running { method := symbol.handle, frame, top, pc, depth := m.depth },
    { m with trace := m.trace.entry (m.depth - 1) p.symbol.name "" })

/-- Leaves a call that did not become an activation, or is over. -/
def leaveCall (m : Machine) (o : Outcome) : Control × Machine := (.ending o, { m with depth := m.depth - 1 })

/-- Counts a call, unless calls are nested too deep already. -/
def deeper (m : Machine) (enter : Machine → Control × Machine) : Control × Machine :=
  if m.settings.maxCallDepth < m.depth + 1 then
    (.ending (.error (.abort (.error (.stackOverflow m.settings.maxCallDepth)))), m)
  else enter { m with depth := m.depth + 1 }

/-- Calls a method: its body runs from the start, or the host function that stands in for it. -/
def enter (m : Machine) (symbol : MethodSymbol) (arguments : List Value) : Control × Machine :=
  m.deeper fun m =>
    match symbol.body with
    | none =>
      if arguments.length ≠ symbol.signature.arity then
        m.leaveCall
          (.error (.abort (.error (.argumentCount symbol.name symbol.signature.arity arguments.length))))
      else
        let (o, m) := m.callNative symbol arguments
        m.leaveCall o
    | some _ =>
      match m.prepare symbol with
      | (.error e, m) => m.leaveCall (.error (.abort (.error e)))
      | (.ok p, m) =>
        match m.newFrame p arguments with
        | (.error f, m) => m.leaveCall (.error f)
        | (.ok frame, m) => m.activate symbol p frame 0 p.layout.stackBase

/-- Goes on with a method at `offset` in a frame whose evaluation stack ends at `top`. The frame has to have the
layout of the method, and the stack the height that was found for the offset. -/
def reenter (m : Machine) (symbol : MethodSymbol) (frame : Frame) (offset top : Nat) : Control × Machine :=
  m.deeper fun m =>
    match m.prepare symbol with
    | (.error e, m) => m.leaveCall (.error (.abort (.error e)))
    | (.ok p, m) =>
      if frame.layout ≠ p.layout then m.leaveCall (.error (.abort (.error (.invalidState offset .frameLayout))))
      else if !p.analysis.isStart offset then
        m.leaveCall (.error (.abort (.error (.invalidProgram offset .resumeOffset))))
      else if top < p.layout.stackBase ∨ p.analysis.depth? offset ≠ some (top - p.layout.stackBase) then
        m.leaveCall (.error (.abort (.error (.invalidState offset (.savedTop top offset)))))
      else m.activate symbol p frame offset top

end Machine

end ManagedCode
