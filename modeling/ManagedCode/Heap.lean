import ManagedCode.Metadata

/-!
# The heap

The objects of a program and its static fields. Objects are never freed; an optional limit on their number makes running
out of memory something a program can meet. Structures live on the heap too, and `copyValue` gives them the meaning of
values: a location that stores a structure stores a copy.

Every operation says which fault it raises. An operation that fails half way keeps what it did before, so the state is
part of a failed result as well.
-/

namespace ManagedCode

/-- An object. -/
inductive Object where
  | string (value : String)
  | array (element : TypeSymbol) (items : Array Value)
  /-- An instance of a class, or of a structure. -/
  | record (type : TypeHandle) (isValueType : Bool) (fields : List (FieldHandle × Value))
  | boxed (type : TypeHandle) (value : Value)
  /-- An exception that the machine itself raised. -/
  | exception (type : TypeHandle) (kind : FaultKind) (message : String)
  /-- What `ldtoken` makes. -/
  | handle (symbol : Symbol)
  deriving DecidableEq, Repr, Inhabited

namespace Object

def type : Object → TypeHandle
  | .string _ => Core.string
  | .array .. => Core.array
  | .record t .. => t
  | .boxed t _ => t
  | .exception t .. => t
  | .handle _ => Core.runtimeHandle

def text : Object → String
  | .string _ => "<StringObject>"
  | .array .. => "<ArrayObject>"
  | .record .. => "<InstanceObject>"
  | .boxed .. => "<BoxedValue>"
  | .exception .. => "<ExceptionObject>"
  | .handle s => "<" ++ s.handleText ++ ">"

end Object

/-- The objects and static fields of a program. -/
structure Heap where
  objects : Array Object := #[]
  statics : List (FieldHandle × Value) := []
  /-- The objects that count toward the limit. -/
  allocated : Nat := 0
  limit : Option Nat := none
  deriving Repr, Inhabited

/-- Why an operation on the heap does not give a result. -/
inductive HeapFailure where
  | fault (kind : FaultKind)
  /-- The construction has no end, because a type is part of itself. -/
  | endless
  deriving DecidableEq, Repr, Inhabited

abbrev HeapM := ExceptT HeapFailure (StateM Heap)

/-- Changes the entry of a key, or adds one. -/
def insertEntry [BEq κ] (k : κ) (v : ν) : List (κ × ν) → List (κ × ν)
  | [] => [(k, v)]
  | (j, w) :: rest => if j == k then (k, v) :: rest else (j, w) :: insertEntry k v rest

namespace Heap

def get? (h : Heap) (r : Ref) : Option Object := h.objects[r.id]?

def typeOf? (h : Heap) (r : Option Ref) : Option TypeHandle := (r.bind h.get?).map (·.type)

def nameOf (h : Heap) (r : Ref) : String := ((h.get? r).map (·.text)).getD "<>"

def stringOf? (h : Heap) (r : Option Ref) : Option String :=
  match r.bind h.get? with
  | some (.string s) => some s
  | _ => none

def raise (k : FaultKind) : HeapM α := throw (.fault k)

/-- Ends an operation that has no end. -/
def orEndless (o : Option α) : HeapM α :=
  match o with
  | some a => pure a
  | none => throw .endless

/-- Adds an object without counting it. -/
def place (o : Object) : StateM Heap Ref := fun h => (⟨h.objects.size⟩, { h with objects := h.objects.push o })

/-- Adds an object, if the limit leaves room for one. -/
def allocate (o : Object) : HeapM Ref := do
  let h ← get
  if h.limit.any (· ≤ h.allocated) then raise .outOfMemory
  else
    set { h with allocated := h.allocated + 1 }
    place o

def replace (r : Ref) (o : Object) : HeapM Unit :=
  modify fun h => { h with objects := h.objects.setIfInBounds r.id o }

/-- The object behind a reference, as what `select` accepts. -/
def getAs (r : Option Ref) (select : Object → Option α) : HeapM (Ref × α) := do
  match r with
  | none => raise .nullReference
  | some r =>
    match ((← get).get? r).bind select with
    | some a => return (r, a)
    | none => raise .invalidCast

def getArray (r : Option Ref) : HeapM (Ref × TypeSymbol × Array Value) :=
  getAs r fun | .array e items => some (e, items) | _ => none

def getRecord (r : Option Ref) : HeapM (Ref × TypeHandle × Bool × List (FieldHandle × Value)) :=
  getAs r fun | .record t v fields => some (t, v, fields) | _ => none

def getBoxed (r : Option Ref) : HeapM (Ref × TypeHandle × Value) :=
  getAs r fun | .boxed t v => some (t, v) | _ => none

/-- Narrows a value to a kind, or faults. -/
def narrow (k : Kind) (v : Value) : HeapM Value :=
  match k.coerce v with
  | some w => pure w
  | none => raise .invalidCast

/-! ## Construction -/

def newString (s : String) : HeapM Ref := allocate (.string s)

/-- Constructs an instance with every field at its zero, the structures inside it first. The answer is missing when
structures are nested deeper than `fuel`. -/
def newInstanceWithin (md : Metadata) : (fuel : Nat) → TypeSymbol → HeapM Ref
  | 0, _ => throw .endless
  | fuel + 1, type => do
    let fields ← orEndless (md.instanceFields? type.handle)
    let values ← fields.mapM fun f => do
      match md.typeSymbol? f.type with
      | none => return (f.handle, f.kind.zero)
      | some t =>
        match t.kind with
        | .struct => return (f.handle, .object (some (← newInstanceWithin md fuel t)))
        | k => return (f.handle, k.zero)
    allocate (.record type.handle type.isValueType values)

/-- More nested structures than a construction that ends can meet: a path that visits some type twice without
allocating in between never ends, and the limit bounds how often something is allocated. -/
def nestingBound (md : Metadata) (h : Heap) : Nat := md.walkBound * (h.limit.getD 0 - h.allocated + 1)

/-- Constructs an instance with every field at its zero. -/
def newInstance (md : Metadata) (type : TypeSymbol) : HeapM Ref := do
  newInstanceWithin md (nestingBound md (← get)) type

def zeroOf (md : Metadata) (type : TypeSymbol) : HeapM Value :=
  match type.kind with
  | .struct => return .object (some (← newInstance md type))
  | k => return k.zero

def fieldZero (md : Metadata) (f : FieldSymbol) : HeapM Value :=
  match md.typeSymbol? f.type with
  | some t => zeroOf md t
  | none => return f.kind.zero

/-- Constructs the exception of a fault. This never fails and does not count toward the limit. -/
def newException (md : Metadata) (k : FaultKind) (message : String) : StateM Heap Ref :=
  place (.exception (md.faultType k) k message)

/-- Adds `count` zeros of a type behind the items. -/
def fill (md : Metadata) (element : TypeSymbol) : (count : Nat) → Array Value → HeapM (Array Value)
  | 0, items => return items
  | count + 1, items => do
    let v ← zeroOf md element
    fill md element count (items.push v)

def newArray (md : Metadata) (element : TypeSymbol) (length : Nat) : HeapM Ref := do
  let items ← fill md element length #[]
  allocate (.array element items)

/-- The copy that a location of a structure stores. Other values, references to objects of classes among them, are
their own copies. The copy is of one level: a structure inside the structure is shared. -/
def copyValue (v : Value) : HeapM Value := do
  match v with
  | .object (some r) =>
    match (← get).get? r with
    | some (.record type true fields) => return .object (some (← allocate (.record type true fields)))
    | _ => return v
  | _ => return v

/-- Constructs the object that `ldtoken` pushes. -/
def newHandle (s : Symbol) : HeapM Ref := allocate (.handle s)

/-! ## Boxes -/

/-- Boxes a value; a reference type leaves references as they are. -/
def box (type : TypeSymbol) (v : Value) : HeapM (Option Ref) := do
  if type.isValueType then
    let v ← narrow type.kind (← copyValue v)
    return some (← allocate (.boxed type.handle v))
  else
    match v with
    | .object r => return r
    | _ => raise .invalidCast

def unbox (r : Option Ref) (type : TypeSymbol) : HeapM Value := do
  let (_, held, v) ← getBoxed r
  if held = type.handle then copyValue v else raise .invalidCast

def unboxPointer (r : Option Ref) (type : TypeSymbol) : HeapM Pointer := do
  let (_, held, _) ← getBoxed r
  if held = type.handle then return .boxed r else raise .invalidCast

def loadBoxed (r : Option Ref) : HeapM Value := return (← getBoxed r).2.2

def storeBoxed (md : Metadata) (r : Option Ref) (v : Value) : HeapM Unit := do
  let (r, type, _) ← getBoxed r
  let v ← narrow (((md.typeSymbol? type).map (·.kind)).getD .object) v
  replace r (.boxed type v)

/-! ## Arrays -/

def arrayLength (r : Option Ref) : HeapM Nat := return (← getArray r).2.2.size

/-- The bytes of a value of a type. A structure has the sum of its fields, and at least one. -/
def sizeOf (md : Metadata) (type : TypeSymbol) : HeapM Nat :=
  match type.kind with
  | .struct => do
    let fields ← orEndless (md.instanceFields? type.handle)
    return max 1 (fields.map (·.kind.size)).sum
  | k => return k.size

def elementSize (md : Metadata) (r : Option Ref) : HeapM Nat := do
  sizeOf md (← getArray r).2.1

/-- Loads an element as a value of a kind. -/
def loadElement (r : Option Ref) (index : Nat) (k : Kind) : HeapM Value := do
  let (_, element, items) ← getArray r
  if k.stackType ≠ element.kind.stackType then raise .arrayTypeMismatch
  else
    match items[index]? with
    | some v => narrow k v
    | none => raise .indexOutOfRange

/-- Whether an array of a type may hold a value: an object in an array of references has to be of an assignable type. -/
def admits (md : Metadata) (element : TypeSymbol) (v : Value) : HeapM Bool := do
  match v with
  | .object r =>
    match (← get).typeOf? r with
    | some actual =>
      if element.isValueType then return true else orEndless (md.isAssignable? actual element.handle)
    | none => return true
  | _ => return true

/-- Stores an element as a value of a kind. The fit of the value is checked before the index. -/
def storeElement (md : Metadata) (r : Option Ref) (index : Nat) (k : Kind) (v : Value) : HeapM Unit := do
  let (r, element, items) ← getArray r
  if k.stackType ≠ element.kind.stackType then raise .arrayTypeMismatch
  else if !(← admits md element v) then raise .arrayTypeMismatch
  else
    let v ← narrow element.kind v
    if index < items.size then replace r (.array element (items.setIfInBounds index v))
    else raise .indexOutOfRange

/-! ## Fields -/

/-- Loads a field of an instance. A field that the instance does not have reads as its zero. -/
def loadField (md : Metadata) (r : Option Ref) (f : FieldSymbol) : HeapM Value := do
  let (_, _, _, fields) ← getRecord r
  match fields.lookup f.handle with
  | some v => return v
  | none => fieldZero md f

def storeField (r : Option Ref) (f : FieldSymbol) (v : Value) : HeapM Unit := do
  let (r, type, isValueType, fields) ← getRecord r
  let v ← narrow f.kind v
  replace r (.record type isValueType (insertEntry f.handle v fields))

/-- Loads a static field, which is set to its zero on first use. -/
def loadStatic (md : Metadata) (f : FieldSymbol) : HeapM Value := do
  match (← get).statics.lookup f.handle with
  | some v => return v
  | none =>
    let v ← fieldZero md f
    modify fun h => { h with statics := insertEntry f.handle v h.statics }
    return v

def storeStatic (f : FieldSymbol) (v : Value) : HeapM Unit := do
  let v ← narrow f.kind v
  modify fun h => { h with statics := insertEntry f.handle v h.statics }

end Heap

end ManagedCode
