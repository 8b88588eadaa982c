import ManagedCode.Fault

/-!
# Frames

The slots of one activation: arguments, then locals, then the evaluation stack. Every slot holds a tagged value, and
reading a slot as a value of one type checks the tag.
-/

namespace ManagedCode

/-- How many slots of each sort a frame has. -/
structure Layout where
  arguments : Nat
  locals : Nat
  maxStack : Nat
  deriving DecidableEq, Repr, Inhabited

namespace Layout

/-- The slot of the first local. -/
def localBase (l : Layout) : Nat := l.arguments

/-- The slot of the deepest value of the evaluation stack. -/
def stackBase (l : Layout) : Nat := l.arguments + l.locals

def total (l : Layout) : Nat := l.stackBase + l.maxStack

end Layout

/-- The slots of one activation. -/
structure Frame where
  id : FrameId
  layout : Layout
  slots : Array Value
  deriving DecidableEq, Repr, Inhabited

namespace Frame

/-- Cuts a list to `n` values or fills it up with nulls. -/
def resize (vs : List Value) (n : Nat) : List Value := vs.take n ++ List.replicate (n - vs.length) .null

/-- A frame with the given arguments and zeroed locals. -/
def make (id : FrameId) (layout : Layout) (arguments : List Value) (locals : List Kind) : Frame :=
  ⟨id, layout, (resize (resize arguments layout.arguments ++ locals.map Kind.zero) layout.total).toArray⟩

def size (f : Frame) : Nat := f.slots.size

/-- A frame has exactly the slots that its layout asks for. -/
theorem size_make (id : FrameId) (layout : Layout) (arguments : List Value) (locals : List Kind) :
    (make id layout arguments locals).size = layout.total := by
  simp only [make, size, resize, List.size_toArray, List.length_append, List.length_take, List.length_replicate]
  omega

def get (f : Frame) (slot : Nat) : Except EngineError Value :=
  match f.slots[slot]? with
  | some v => .ok v
  | none => .error (.slotType slot (.outside f.size))

def put (f : Frame) (slot : Nat) (v : Value) : Except EngineError Frame :=
  if slot < f.size then .ok { f with slots := f.slots.setIfInBounds slot v }
  else .error (.slotType slot (.outside f.size))

def putAll (f : Frame) : List (Nat × Value) → Except EngineError Frame
  | [] => .ok f
  | (slot, v) :: rest => do putAll (← f.put slot v) rest

def clear (f : Frame) (slot : Nat) : Except EngineError Frame := f.put slot .null

/-- Moves the value out of a slot. -/
def take (f : Frame) (slot : Nat) : Except EngineError (Value × Frame) := do
  let v ← f.get slot
  return (v, ← f.clear slot)

/-- Copies a value with its tag. -/
def copy (f : Frame) (source target : Nat) : Except EngineError Frame := do
  f.put target (← f.get source)

/-- Makes `count` slots from `start` on null. -/
def clearFrom (f : Frame) (start : Nat) : (count : Nat) → Frame
  | 0 => f
  | count + 1 => clearFrom { f with slots := f.slots.setIfInBounds start .null } (start + 1) count

/-- Makes the slots from `start` up to `stop` null. -/
def clearRange (f : Frame) (start stop : Nat) : Frame := f.clearFrom start (min stop f.size - start)

/-- The evaluation stack below `top`, the deepest value first. -/
def stack (f : Frame) (top : Nat) : List Value :=
  (f.slots.extract f.layout.stackBase (min top f.size)).toList

/-- Reads a slot as what `select` accepts; `expected` names that in the message. -/
def getAs (f : Frame) (slot : Nat) (expected : String) (select : Value → Option α) : Except EngineError α := do
  let v ← f.get slot
  match select v with
  | some a => return a
  | none => throw (.slotType slot (.holds expected v))

def getInt32 (f : Frame) (slot : Nat) : Except EngineError (BitVec 32) :=
  f.getAs slot "int32" fun | .int32 n => some n | _ => none

def getInt64 (f : Frame) (slot : Nat) : Except EngineError (BitVec 64) :=
  f.getAs slot "int64" fun | .int64 n => some n | _ => none

def getNativeInt (f : Frame) (slot : Nat) : Except EngineError (BitVec 64) :=
  f.getAs slot "native int" fun | .nativeInt n => some n | _ => none

def getFloat (f : Frame) (slot : Nat) : Except EngineError Double :=
  f.getAs slot "F" fun | .float x => some x | _ => none

def getObject (f : Frame) (slot : Nat) : Except EngineError (Option Ref) :=
  f.getAs slot "O" fun | .object r => some r | _ => none

def getPointer (f : Frame) (slot : Nat) : Except EngineError Pointer :=
  f.getAs slot "&" fun | .pointer p => some p | _ => none

end Frame

end ManagedCode
