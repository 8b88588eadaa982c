import ManagedCode.Machine.State

/-!
# Host functions

Simple functions of the host that a program can be given for methods without a body.
-/

namespace ManagedCode.Native

def first : Native := ⟨fun _ arguments => pure (.ok arguments.head?)⟩

def last : Native := ⟨fun _ arguments => pure (.ok arguments.getLast?)⟩

def count : Native := ⟨fun _ arguments => pure (.ok (some (.int32 (BitVec.ofNat 32 arguments.length))))⟩

/-- Fails with an engine error in the given words. -/
def failing (text : String) : Native :=
  ⟨fun _ _ => pure (.error (.abort (.error (.notImplemented (.host text)))))⟩

/-- Raises a fault with an exception object of its own. -/
def throwing (k : FaultKind) : Native :=
  ⟨fun md _ => do
    let r ← Heap.newException md k k.message
    return .error (.guest ⟨some r, some k, k.message⟩)⟩

/-- The host functions that need no parameter, by name. -/
def simple : List (String × Native) :=
  [("noop", idle), ("first", first), ("last", last), ("count", count), ("fail", failing "native failure")]

/-- The host function with a name; `throw:` and the name of a fault is the function that raises it. -/
def named? (name : String) : Option Native :=
  match simple.lookup name with
  | some n => some n
  | none =>
    let kind := Text.dropLead? "throw:".toList name.toList
    (kind.bind fun k => FaultKind.ofName? (String.ofList k)).map throwing

end ManagedCode.Native
