import ManagedCode.Machine.Monad

/-!
# Loads and stores through pointers
-/

namespace ManagedCode.ExecM

/-- The kind of the argument or local in a slot of this frame. -/
def slotKind (p : Prepared) (slot : Nat) : ExecM Kind := do
  let kind := if slot < p.layout.arguments then p.argumentKinds[slot]? else p.localKinds[slot - p.layout.localBase]?
  match kind with
  | some k => return k
  | none => fail (.invalidState (← activation).pc (.notVariable slot))

/-- The slot that a pointer into a frame names, which has to be the frame of this activation. -/
def ownSlot (frame : FrameId) (slot : Nat) : ExecM Nat := do
  if frame = (← activation).frame.id then return slot else unsupported (.otherFrame (.slot frame slot))

/-- Reads what a pointer refers to, without copying structures. -/
def deref (q : Pointer) (k : Kind) : ExecM Value := do
  match q with
  | .slot frame slot =>
    let slot ← ownSlot frame slot
    ofEngine ((← activation).frame.get slot)
  | .field object f => onHeap (Heap.loadField (← metadata) object f)
  | .static f => onHeap (Heap.loadStatic (← metadata) f)
  | .element array index => onHeap (Heap.loadElement array index k)
  | .boxed object => onHeap (Heap.loadBoxed object)
  | .method _ => unsupported .loadMethodPointer

/-- Reads what a pointer refers to as a value of a kind. -/
def loadThrough (q : Pointer) (k : Kind) : ExecM Value := do
  let v ← deref q k
  normalize (← activation).top k v

/-- Writes a value to what a pointer refers to, narrowed to the kind of the location or, where the location leaves
that to the instruction, to `k`. -/
def storeThrough (p : Prepared) (q : Pointer) (k : Kind) (v : Value) : ExecM Unit := do
  let top := (← activation).top
  match q with
  | .slot frame slot =>
    let slot ← ownSlot frame slot
    let kind ← slotKind p slot
    put slot (← normalize slot kind v)
  | .field object f =>
    let v ← normalize top f.kind v
    onHeap (Heap.storeField object f v)
  | .static f =>
    let v ← normalize top f.kind v
    onHeap (Heap.storeStatic f v)
  | .element array index =>
    let v ← normalize top k v
    onHeap (Heap.storeElement (← metadata) array index k v)
  | .boxed object =>
    let v ← normalize top k v
    onHeap (Heap.storeBoxed (← metadata) object v)
  | .method _ => unsupported .storeMethodPointer

def loadIndirect (p : Prepared) (k : Kind) : ExecM Next := do
  let q ← addressAt p 0
  result p 1 (← loadThrough q k)
  return .advance

def storeIndirect (p : Prepared) (k : Kind) : ExecM Next := do
  let q ← addressAt p 1
  storeThrough p q k (← peek p 0)
  return .advance

def loadObject (p : Prepared) (pc : Nat) : ExecM Next := do
  let type ← typeOperand p pc
  loadIndirect p type.kind

def storeObject (p : Prepared) (pc : Nat) : ExecM Next := do
  let type ← typeOperand p pc
  storeIndirect p type.kind

def copyObject (p : Prepared) (pc : Nat) : ExecM Next := do
  let type ← typeOperand p pc
  let target ← addressAt p 1
  let source ← addressAt p 0
  let v ← loadThrough source type.kind
  storeThrough p target type.kind v
  return .advance

def initObject (p : Prepared) (pc : Nat) : ExecM Next := do
  let type ← typeOperand p pc
  let q ← addressAt p 0
  let v ← onHeap (Heap.zeroOf (← metadata) type)
  storeThrough p q type.kind v
  return .advance

end ManagedCode.ExecM
