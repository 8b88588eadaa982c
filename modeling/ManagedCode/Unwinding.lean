import ManagedCode.Metadata

/-!
# Unwinding

Exception handling inside one activation. The regions of a method are kept in the order of their declaration, which is
also the order of the search: nested regions stand before the ones around them.

* A raised exception goes to the first region that protects the offset and acts on it.
* `leave` exits protected code; every finally handler between it and its target runs first, the innermost before the
  others.
* `endfinally` either raises again the exception that entered the handler, or goes on with the next handler of the
  leave.
-/

namespace ManagedCode

/-- A region whose catch type has been looked up. -/
structure ResolvedRegion where
  region : Region
  catchType : Option TypeSymbol
  deriving DecidableEq, Repr, Inhabited

/-- The regions of a method in the order of their declaration. -/
structure RegionTable where
  entries : List ResolvedRegion
  deriving DecidableEq, Repr, Inhabited

namespace RegionTable

/-- Looks up all catch types. -/
def resolve (md : Metadata) (regions : List Region) : Except EngineError RegionTable := do
  let entries ← regions.mapM fun r => do
    match r.kind with
    | .catchType t =>
      match md.resolveType t with
      | .ok type => pure ⟨r, some type⟩
      | .error e => throw (.resolution e)
    | _ => pure ⟨r, none⟩
  return ⟨entries⟩

def region? (t : RegionTable) (i : Nat) : Option Region := (t.entries[i]?).map (·.region)

def inHandler (t : RegionTable) (i pc : Nat) : Bool := (t.region? i).any (·.handler.contains pc)

/-- Whether `pc` is the first instruction of a finally handler. -/
def isFinallyEntry (t : RegionTable) (pc : Nat) : Bool :=
  t.entries.any fun e => e.region.isFinally && e.region.handler.start == pc

/-- The first of the entries, which are numbered from `index`, that acts on an exception raised at `pc` with an object
of type `thrown`. -/
def findFrom (md : Metadata) (pc : Nat) (thrown : Option TypeHandle) :
    (index : Nat) → List ResolvedRegion → Except Abort (Option Nat)
  | _, [] => .ok none
  | index, e :: rest =>
    if !e.region.tryBlock.contains pc then findFrom md pc thrown (index + 1) rest
    else
      match e.region.kind with
      | .finallyBlock => .ok (some index)
      | .catchType _ =>
        match e.catchType, thrown with
        | some caught, some type =>
          match md.isAssignable? type caught.handle with
          | none => .error .endless
          | some true => .ok (some index)
          | some false => findFrom md pc thrown (index + 1) rest
        | _, _ => findFrom md pc thrown (index + 1) rest
      | .faultBlock => .error (.error (.notImplemented .faultHandlers))
      | .filter _ => .error (.error (.notImplemented .filterHandlers))

/-- The first region from number `start` on that acts on an exception raised at `pc`. A catch handler acts on exceptions
whose type is assignable to its own. -/
def findHandler (md : Metadata) (t : RegionTable) (pc start : Nat) (thrown : Option TypeHandle) :
    Except Abort (Option Nat) :=
  findFrom md pc thrown start (t.entries.drop start)

/-- The finally regions that a jump from `pc` to `target` leaves, the innermost first. -/
def finalliesBetween (t : RegionTable) (pc target : Nat) : List Nat :=
  (t.entries.zipIdx.filter fun (e, _) =>
    e.region.isFinally && e.region.tryBlock.contains pc && !e.region.tryBlock.contains target).map (·.2)

end RegionTable

/-- An exception that entered a handler which has not been left yet. -/
structure PendingException where
  exception : GuestException
  /-- The type of the exception's object. -/
  thrown : Option TypeHandle
  raisedAt : Nat
  region : Nat
  deriving DecidableEq, Repr, Inhabited

/-- A `leave` whose finally handlers have not all run yet. -/
structure PendingLeave where
  target : Nat
  /-- The regions whose handlers are still to run. -/
  queued : List Nat
  /-- The region whose handler is running. -/
  running : Nat
  deriving DecidableEq, Repr, Inhabited

/-- The state of exception handling in an activation. In both lists the latest entry stands first. -/
structure Unwinding where
  pending : List PendingException := []
  leaves : List PendingLeave := []
  deriving DecidableEq, Repr, Inhabited

/-- Where control goes when an exception is handled. -/
inductive Transfer where
  /-- Goes on at `pc` with an empty evaluation stack, onto which the exception's object is pushed if one is given. -/
  | resume (pc : Nat) (push : Option (Option Ref))
  /-- No region of this activation handles the exception. -/
  | propagate (e : GuestException)
  deriving DecidableEq, Repr, Inhabited

namespace Unwinding

/-- Whether a handler that an exception entered is still running. -/
def isUnwinding (u : Unwinding) : Bool := !u.pending.isEmpty

/-- The exception that is being handled at `pc`. -/
def current? (u : Unwinding) (t : RegionTable) (pc : Nat) : Option GuestException :=
  (u.pending.find? fun p => t.inHandler p.region pc).map (·.exception)

/-- Raises an exception at `pc` and looks for a handler among the regions from number `start` on. Handlers and leaves
that the exception escapes from are abandoned. -/
def dispatch (md : Metadata) (t : RegionTable) (u : Unwinding) (e : GuestException) (thrown : Option TypeHandle)
    (pc start : Nat) : Except Abort Transfer × Unwinding :=
  match t.findHandler md pc start thrown with
  | .error a => (.error a, u)
  | .ok none => (.ok (.propagate e), {})
  | .ok (some index) =>
    match t.region? index with
    | none => (.error (.error (.invalidState pc .handlerIndex)), u)
    | some r =>
      let handler := r.handler.start
      let pending := u.pending.filter fun p => t.inHandler p.region handler
      let leaves := u.leaves.filter fun l => t.inHandler l.running handler
      (.ok (.resume handler (if r.isCatch then some e.object else none)), ⟨⟨e, thrown, pc, index⟩ :: pending, leaves⟩)

/-- Leaves protected code at `pc` for `target`; gives the offset to go on at. -/
def leave (t : RegionTable) (u : Unwinding) (pc target : Nat) : Nat × Unwinding :=
  let pending := u.pending.dropWhile fun p => !(t.inHandler p.region pc && t.inHandler p.region target)
  match t.finalliesBetween pc target with
  | [] => (target, { u with pending })
  | first :: queued =>
    (((t.region? first).map (·.handler.start)).getD target, ⟨pending, ⟨target, queued, first⟩ :: u.leaves⟩)

/-- Ends a finally handler that a leave entered: the next handler of that leave runs, or control reaches its target. -/
def endLeave (t : RegionTable) (u : Unwinding) (pc : Nat) : Except Abort Transfer × Unwinding :=
  match u.leaves with
  | [] => (.error (.error (.invalidProgram pc .endFinallyOutside)), u)
  | l :: leaves =>
    match l.queued with
    | [] => (.ok (.resume l.target none), { u with leaves })
    | next :: queued =>
      let went : Unwinding := { u with leaves := ⟨l.target, queued, next⟩ :: leaves }
      match t.region? next with
      | none => (.error (.error (.invalidState pc .finallyIndex)), went)
      | some r => (.ok (.resume r.handler.start none), went)

def endFinally (md : Metadata) (t : RegionTable) (u : Unwinding) (pc : Nat) : Except Abort Transfer × Unwinding :=
  match u.pending with
  | [] => u.endLeave t pc
  | p :: pending =>
    if (t.region? p.region).any fun r => r.isFinally && r.handler.contains pc then
      dispatch md t { u with pending } p.exception p.thrown p.raisedAt (p.region + 1)
    else u.endLeave t pc

/-- The exception that a `rethrow` at `pc` raises again: that of the innermost catch handler around it. -/
def rethrow (t : RegionTable) (u : Unwinding) (pc : Nat) : Except EngineError GuestException :=
  match u.pending.find? fun p => (t.region? p.region).any fun r => r.isCatch && r.handler.contains pc with
  | some p => .ok p.exception
  | none => .error (.rethrowOutside pc)

end Unwinding

end ManagedCode
