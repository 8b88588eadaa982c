import ManagedCode.Fault

/-!
# Metadata

The tables of a program: types with their bases, methods, fields, strings, signatures and overrides. Rows are only ever
added (a method may also receive a body), so a token keeps its meaning. Every program starts from the same core types.

A base is stored as a row number and may name a row that is not there yet; a walk along bases is therefore bounded by
the number of types, and a walk that exceeds the bound is one that never ends.
-/

namespace ManagedCode

/-- A type with the type it extends. -/
structure TypeRow where
  symbol : TypeSymbol
  base : Option TypeHandle
  deriving DecidableEq, Repr, Inhabited

/-- The tables of a program. -/
structure Metadata where
  types : Array TypeRow
  methods : Array MethodSymbol
  fields : Array FieldSymbol
  strings : Array String
  signatures : Array Signature
  /-- The implementation of a virtual method for a type; the latest entry stands first. -/
  overrides : List ((MethodHandle × TypeHandle) × MethodHandle)
  deriving Repr, Inhabited

/-! ## The core

The rows of the core types and constructors that the machine itself uses. -/

namespace Core

def object : TypeHandle := ⟨1⟩
def valueType : TypeHandle := ⟨2⟩
def string : TypeHandle := ⟨3⟩
def array : TypeHandle := ⟨4⟩
def runtimeHandle : TypeHandle := ⟨5⟩
def exception : TypeHandle := ⟨6⟩
def systemException : TypeHandle := ⟨7⟩
def arithmeticException : TypeHandle := ⟨8⟩
def objectConstructor : MethodHandle := ⟨1⟩
def exceptionConstructor : MethodHandle := ⟨2⟩

/-- The classes of the core with their bases. -/
def classes : List (String × Option TypeHandle) :=
  [("System.Object", none), ("System.ValueType", some object), ("System.String", some object),
   ("System.Array", some object), ("System.RuntimeTypeHandle", some object), ("System.Exception", some object),
   ("System.SystemException", some exception), ("System.ArithmeticException", some systemException)]
  ++ FaultKind.all.map fun k =>
    (k.typeName, some (if k = .overflow ∨ k = .divideByZero then arithmeticException else systemException))

/-- The value types of the core with their kinds. -/
def primitives : List (String × Kind) :=
  [("System.Boolean", .boolean), ("System.Char", .char), ("System.SByte", .i1), ("System.Byte", .u1),
   ("System.Int16", .i2), ("System.UInt16", .u2), ("System.Int32", .i4), ("System.UInt32", .u4), ("System.Int64", .i8),
   ("System.UInt64", .u8), ("System.IntPtr", .i), ("System.UIntPtr", .u), ("System.Single", .r4),
   ("System.Double", .r8)]

/-- A constructor without parameters that the host provides. -/
def constructor (handle : MethodHandle) (declaring : TypeHandle) : MethodSymbol :=
  ⟨handle, ".ctor", declaring, { receiver := some .object }, false, none⟩

end Core

namespace Metadata

/-- Adds a type with the next handle. -/
def addType (md : Metadata) (name : String) (kind : Kind) (isValueType : Bool) (base : Option TypeHandle) : Metadata :=
  { md with types := md.types.push ⟨⟨⟨md.types.size + 1⟩, name, kind, isValueType⟩, base⟩ }

/-- The tables that every program starts with. -/
def core : Metadata :=
  let empty : Metadata := ⟨#[], #[], #[], #[], #[], []⟩
  let classes := Core.classes.foldl (fun md (name, base) => md.addType name .object false base) empty
  let types := Core.primitives.foldl (fun md (name, kind) => md.addType name kind true (some Core.valueType)) classes
  { types with
    methods := #[Core.constructor Core.objectConstructor Core.object,
      Core.constructor Core.exceptionConstructor Core.exception] }

/-! ## Lookups -/

/-- The row of `table` that a token names, if the token points into the table numbered `number`. -/
def rowOf (table : Array α) (t : Token) (number : Nat) (name : String) : Except ResolutionError α :=
  if t.table ≠ number then .error (.wrongTable t name)
  else if t.row = 0 then .error (.notFound t)
  else
    match table[t.row - 1]? with
    | some a => .ok a
    | none => .error (.notFound t)

def typeRow? (md : Metadata) (h : TypeHandle) : Option TypeRow :=
  if h.id = 0 then none else md.types[h.id - 1]?

def typeSymbol? (md : Metadata) (h : TypeHandle) : Option TypeSymbol := (md.typeRow? h).map (·.symbol)

def base? (md : Metadata) (h : TypeHandle) : Option TypeHandle := (md.typeRow? h).bind (·.base)

def methodSymbol? (md : Metadata) (h : MethodHandle) : Option MethodSymbol :=
  if h.id = 0 then none else md.methods[h.id - 1]?

def resolveType (md : Metadata) (t : Token) : Except ResolutionError TypeSymbol :=
  (rowOf md.types t Token.typeDef "type").map (·.symbol)

def resolveMethod (md : Metadata) (t : Token) : Except ResolutionError MethodSymbol :=
  rowOf md.methods t Token.methodDef "method"

def resolveField (md : Metadata) (t : Token) : Except ResolutionError FieldSymbol :=
  rowOf md.fields t Token.field "field"

def resolveSignature (md : Metadata) (t : Token) : Except ResolutionError Signature :=
  rowOf md.signatures t Token.standAloneSig "standalone signature"

/-- What an `ldtoken` operand names. -/
def resolveSymbol (md : Metadata) (t : Token) : Except ResolutionError Symbol :=
  if t.table = Token.typeDef then (md.resolveType t).map .type
  else if t.table = Token.methodDef then (md.resolveMethod t).map .method
  else if t.table = Token.field then (md.resolveField t).map .field
  else .error (.wrongTable t "type, method or field")

/-- A string of the program. Every failure is a missing string. -/
def userString (md : Metadata) (t : Token) : Except ResolutionError String :=
  match rowOf md.strings t Token.userString "string" with
  | .ok s => .ok s
  | .error _ => .error (.missingString t)

def typeOf (md : Metadata) (h : TypeHandle) : Except ResolutionError TypeSymbol :=
  match md.typeSymbol? h with
  | some t => .ok t
  | none => .error (.unknownType h)

/-- The first type with a name. -/
def typeNamed? (md : Metadata) (name : String) : Option TypeSymbol :=
  (md.types.find? (·.symbol.name == name)).map (·.symbol)

/-- The first method with a name among those of the first type with a name. -/
def methodNamed? (md : Metadata) (type name : String) : Option MethodSymbol :=
  (md.typeNamed? type).bind fun t => md.methods.find? fun m => m.declaring == t.handle && m.name == name

/-- The first field with a name among those of the first type with a name. -/
def fieldNamed? (md : Metadata) (type name : String) : Option FieldSymbol :=
  (md.typeNamed? type).bind fun t => md.fields.find? fun f => f.declaring == t.handle && f.name == name

def faultType (md : Metadata) (k : FaultKind) : TypeHandle :=
  ((md.typeNamed? k.typeName).map (·.handle)).getD Core.object

/-! ## Walks along bases -/

/-- Walks from `h` along bases to the first type that `p` accepts. The answer is missing when the walk does not end
within `fuel` types. -/
def firstUp (md : Metadata) (p : TypeHandle → Option β) : (fuel : Nat) → TypeHandle → Option (Option β)
  | 0, _ => none
  | fuel + 1, h =>
    match p h with
    | some b => some (some b)
    | none =>
      match md.base? h with
      | none => some none
      | some base => md.firstUp p fuel base

/-- The types from `h` along bases to the end. -/
def chainFrom (md : Metadata) : (fuel : Nat) → TypeHandle → Option (List TypeHandle)
  | 0, _ => none
  | fuel + 1, h =>
    match md.base? h with
    | none => some [h]
    | some base => (md.chainFrom fuel base).map (h :: ·)

/-- More types than any walk without repetition meets: the defined ones, and one more that is not. -/
def walkBound (md : Metadata) : Nat := md.types.size + 1

/-- A type and its bases, if they come to an end. -/
def chain? (md : Metadata) (h : TypeHandle) : Option (List TypeHandle) := md.chainFrom md.walkBound h

/-- Whether a value of type `source` can stand where `target` is expected, if the search ends. -/
def isAssignable? (md : Metadata) (source target : TypeHandle) : Option Bool :=
  (md.firstUp (fun h => if h = target then some () else none) md.walkBound source).map Option.isSome

/-- The fields of an instance of a type, inherited ones included, in the order of their definition, if the bases come
to an end. -/
def instanceFields? (md : Metadata) (h : TypeHandle) : Option (List FieldSymbol) :=
  (md.chain? h).map fun chain => md.fields.toList.filter fun f => !f.isStatic && chain.contains f.declaring

def methodOf (md : Metadata) (h : MethodHandle) : Except Abort MethodSymbol :=
  match md.methodSymbol? h with
  | some m => .ok m
  | none => .error (.error (.resolution (.notFound h.token)))

/-- The implementation of a virtual method for a receiver of a type: that of the nearest type that overrides it, and
otherwise the method itself. -/
def resolveVirtual (md : Metadata) (m : MethodSymbol) (receiver : TypeHandle) : Except Abort MethodSymbol :=
  if (md.typeSymbol? receiver).isNone then .error (.error (.resolution (.noVirtualTarget m.name receiver)))
  else
    match md.firstUp (fun h => md.overrides.lookup (m.handle, h)) md.walkBound receiver with
    | none => .error .endless
    | some (some implementation) => md.methodOf implementation
    | some none => md.methodOf m.handle

/-! ## Definitions -/

/-- Adds a type. Classes extend the root class and value types the root of value types, unless a base is named. -/
def defineType (md : Metadata) (name : String) (kind : Kind) (base : Option Token) : Token × Metadata :=
  let isValueType := kind != .object
  let base : TypeHandle := match base with
    | some t => ⟨t.row⟩
    | none => if isValueType then Core.valueType else Core.object
  (TypeHandle.token ⟨md.types.size + 1⟩, md.addType name kind isValueType (some base))

def defineField (md : Metadata) (declaring : Token) (name : String) (type : Token) (isStatic : Bool) :
    Except ResolutionError (Token × Metadata) := do
  let owner ← md.resolveType declaring
  let type ← md.resolveType type
  let handle : FieldHandle := ⟨md.fields.size + 1⟩
  let field : FieldSymbol := ⟨handle, name, owner.handle, type.handle, type.kind, isStatic⟩
  return (handle.token, { md with fields := md.fields.push field })

def defineString (md : Metadata) (s : String) : Token × Metadata :=
  (.make Token.userString (md.strings.size + 1), { md with strings := md.strings.push s })

def defineSignature (md : Metadata) (s : Signature) : Token × Metadata :=
  (.make Token.standAloneSig (md.signatures.size + 1), { md with signatures := md.signatures.push s })

/-- Adds a method without a body, so that bodies may call each other. -/
def declareMethod (md : Metadata) (declaring : Token) (name : String) (signature : Signature) (isVirtual : Bool) :
    Token × Metadata :=
  let handle : MethodHandle := ⟨md.methods.size + 1⟩
  (handle.token, { md with methods := md.methods.push ⟨handle, name, ⟨declaring.row⟩, signature, isVirtual, none⟩ })

/-- Gives a method a body. -/
def defineBody (md : Metadata) (method : Token) (body : Body) : Except ResolutionError Metadata := do
  let m ← md.resolveMethod method
  return { md with methods := md.methods.setIfInBounds (method.row - 1) { m with body := some body } }

/-- Adds a method of the root class that has no receiver, with its body. The method stays declared if it cannot have the
body. -/
def defineMethod (md : Metadata) (name : String) (signature : Signature) (body : Body) :
    Except ResolutionError Token × Metadata :=
  let (token, md) := md.declareMethod Core.object.token name signature false
  match md.defineBody token body with
  | .ok md => (.ok token, md)
  | .error e => (.error e, md)

/-- Registers the implementation of a virtual method for a type. -/
def overrideMethod (md : Metadata) (base type implementation : Token) : Except ResolutionError Metadata := do
  let base ← md.resolveMethod base
  let implementation ← md.resolveMethod implementation
  let type ← md.resolveType type
  return { md with overrides := ((base.handle, type.handle), implementation.handle) :: md.overrides }

end Metadata

end ManagedCode
