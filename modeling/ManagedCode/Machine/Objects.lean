import ManagedCode.Machine.Memory

/-!
# Objects, arrays and fields
-/

namespace ManagedCode.ExecM

/-- The object whose field an instruction uses. A pointer refers to a structure, which is used in place. -/
def fieldOwner (p : Prepared) (n : Nat) : ExecM Ref := do
  let object ← match ← peek p n with
    | .object r => pure r
    | .pointer q => do
      match ← deref q .struct with
      | .object r => pure r
      | v => unsupported (.fieldThrough v q)
    | .nativeInt _ => unsupported .fieldUnmanaged
    | v => do fail (.invalidProgram (← activation).pc (.fieldOwner v))
  match object with
  | some r => return r
  | none => fault .nullReference

def loadString (p : Prepared) (pc : Nat) : ExecM Next := do
  let token ← ofEngine (p.code.token pc)
  let s ← ofResolution ((← metadata).userString token)
  let r ← onHeap (Heap.newString s)
  result p 0 (.object (some r))
  return .advance

/-- Resolves what `ldtoken` names; a method counts as a lookup. -/
def symbolOperand (p : Prepared) (pc : Nat) : ExecM Symbol := do
  let token ← ofEngine (p.code.token pc)
  if token.table = Token.methodDef then return .method (← resolveMethod token)
  else ofResolution ((← metadata).resolveSymbol token)

def loadToken (p : Prepared) (pc : Nat) : ExecM Next := do
  let symbol ← symbolOperand p pc
  let r ← onHeap (Heap.newHandle symbol)
  result p 0 (.object (some r))
  return .advance

def newArray (p : Prepared) (pc : Nat) : ExecM Next := do
  let element ← typeOperand p pc
  let length ← nativeAt p 0
  if length.toInt < 0 then fault .overflow
  else
    let r ← onHeap (Heap.newArray (← metadata) element length.toNat)
    result p 1 (.object (some r))
    return .advance

def arrayLength (p : Prepared) : ExecM Next := do
  let r ← nonNullAt p 0
  let n ← onHeap (Heap.arrayLength (some r))
  result p 1 (.nativeInt (BitVec.ofNat 64 n))
  return .advance

def elementAddress (p : Prepared) : ExecM Next := do
  let r ← nonNullAt p 1
  let i ← indexAt p 0
  let n ← onHeap (Heap.arrayLength (some r))
  if n ≤ i then fault .indexOutOfRange
  else
    result p 2 (.pointer (.element (some r) i))
    return .advance

/-- The element kind that an instruction names, itself or by its operand. -/
def elementKind (p : Prepared) (pc : Nat) (kind : Option Kind) : ExecM Kind :=
  match kind with
  | some k => return k
  | none => return (← typeOperand p pc).kind

def loadElement (p : Prepared) (pc : Nat) (kind : Option Kind) : ExecM Next := do
  let k ← elementKind p pc kind
  let r ← nonNullAt p 1
  let i ← indexAt p 0
  result p 2 (← onHeap (Heap.loadElement (some r) i k))
  return .advance

def storeElement (p : Prepared) (pc : Nat) (kind : Option Kind) : ExecM Next := do
  let k ← elementKind p pc kind
  let r ← nonNullAt p 2
  let i ← indexAt p 1
  let v ← normalize (← activation).top k (← peek p 0)
  onHeap (Heap.storeElement (← metadata) (some r) i k v)
  return .advance

def loadField (p : Prepared) (pc : Nat) : ExecM Next := do
  let f ← fieldOperand p pc
  let v ← if f.isStatic then onHeap (Heap.loadStatic (← metadata) f)
    else do
      let owner ← fieldOwner p 0
      onHeap (Heap.loadField (← metadata) (some owner) f)
  result p 1 v
  return .advance

def fieldAddress (p : Prepared) (pc : Nat) : ExecM Next := do
  let f ← fieldOperand p pc
  let q ← if f.isStatic then pure (Pointer.static f)
    else do pure (Pointer.field (some (← fieldOwner p 0)) f)
  result p 1 (.pointer q)
  return .advance

def storeField (p : Prepared) (pc : Nat) : ExecM Next := do
  let f ← fieldOperand p pc
  let v ← normalize (← activation).top f.kind (← peek p 0)
  if f.isStatic then onHeap (Heap.storeStatic f v)
  else
    let owner ← fieldOwner p 1
    onHeap (Heap.storeField (some owner) f v)
  return .advance

def loadStatic (p : Prepared) (pc : Nat) : ExecM Next := do
  let f ← fieldOperand p pc
  result p 0 (← onHeap (Heap.loadStatic (← metadata) f))
  return .advance

def staticAddress (p : Prepared) (pc : Nat) : ExecM Next := do
  let f ← fieldOperand p pc
  result p 0 (.pointer (.static f))
  return .advance

def storeStatic (p : Prepared) (pc : Nat) : ExecM Next := do
  let f ← fieldOperand p pc
  let v ← normalize (← activation).top f.kind (← peek p 0)
  onHeap (Heap.storeStatic f v)
  return .advance

def castMessage (source target : TypeSymbol) : String :=
  "Unable to cast object of type '" ++ source.name ++ "' to type '" ++ target.name ++ "'."

/-- Casts the reference at the top; null passes. A reference that does not fit faults, or becomes null. -/
def cast (p : Prepared) (pc : Nat) (faults : Bool) : ExecM Next := do
  let target ← typeOperand p pc
  let r ← objectAt p 0
  match (← machine).heap.typeOf? r with
  | none => return .advance
  | some type =>
    match (← metadata).isAssignable? type target.handle with
    | none => throw (.abort .endless)
    | some true => return .advance
    | some false =>
      if faults then
        let source ← ofResolution ((← metadata).typeOf type)
        throw (.fault .invalidCast (castMessage source target))
      else
        result p 1 .null
        return .advance

def box (p : Prepared) (pc : Nat) : ExecM Next := do
  let type ← typeOperand p pc
  if type.isValueType then
    let v ← normalize (← activation).top type.kind (← peek p 0)
    let r ← onHeap (Heap.box type v)
    result p 1 (.object r)
  return .advance

def unbox (p : Prepared) (pc : Nat) : ExecM Next := do
  let type ← typeOperand p pc
  let r ← nonNullAt p 0
  let q ← onHeap (Heap.unboxPointer (some r) type)
  result p 1 (.pointer q)
  return .advance

def unboxAny (p : Prepared) (pc : Nat) : ExecM Next := do
  let type ← typeOperand p pc
  if type.isValueType then
    let r ← nonNullAt p 0
    result p 1 (← onHeap (Heap.unbox (some r) type))
    return .advance
  else cast p pc true

def sizeOf (p : Prepared) (pc : Nat) : ExecM Next := do
  let type ← typeOperand p pc
  let n ← onHeap (Heap.sizeOf (← metadata) type)
  result p 0 (.int32 (BitVec.ofNat 32 n))
  return .advance

def functionPointer (p : Prepared) (pc : Nat) : ExecM Next := do
  let m ← resolveMethod (← ofEngine (p.code.token pc))
  result p 0 (.pointer (.method m.handle))
  return .advance

/-- A pointer to the implementation of a method for the receiver at the top. -/
def virtualPointer (p : Prepared) (pc : Nat) : ExecM Next := do
  let m ← resolveMethod (← ofEngine (p.code.token pc))
  let receiver ← nonNullAt p 0
  let m ← match m.isVirtual, (← machine).heap.typeOf? (some receiver) with
    | true, some type => ofAbort ((← metadata).resolveVirtual m type)
    | _, _ => pure m
  result p 1 (.pointer (.method m.handle))
  return .advance

end ManagedCode.ExecM
