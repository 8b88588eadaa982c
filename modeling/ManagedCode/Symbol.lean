import ManagedCode.Kind
import ManagedCode.Region

/-!
# Symbols

What the tokens in code resolve to: types, fields, methods and signatures.
-/

namespace ManagedCode

/-- A defined type. -/
structure TypeSymbol where
  handle : TypeHandle
  name : String
  /-- How a location of this type stores its value: `struct` for composite value types, `object` for classes. -/
  kind : Kind
  isValueType : Bool
  deriving DecidableEq, Repr, Inhabited

/-- A defined field. -/
structure FieldSymbol where
  handle : FieldHandle
  name : String
  declaring : TypeHandle
  type : TypeHandle
  kind : Kind
  isStatic : Bool
  deriving DecidableEq, Repr, Inhabited

/-- What a method takes and gives. -/
structure Signature where
  /-- The kind of the implicit receiver; static methods have none. -/
  receiver : Option Kind := none
  parameters : List Kind := []
  result : Option Kind := none
  deriving DecidableEq, Repr, Inhabited

namespace Signature

/-- The kinds of all argument slots, the receiver first. -/
def arguments (s : Signature) : List Kind := s.receiver.toList ++ s.parameters

def arity (s : Signature) : Nat := s.arguments.length

end Signature

/-- A method body: code bytes, the bound of its evaluation stack, its locals and its exception regions. -/
structure Body where
  code : Array UInt8
  maxStack : Nat
  locals : List Kind := []
  regions : List Region := []
  deriving DecidableEq, Repr, Inhabited

/-- A defined method. A method without a body is provided by the host. -/
structure MethodSymbol where
  handle : MethodHandle
  name : String
  declaring : TypeHandle
  signature : Signature
  isVirtual : Bool
  body : Option Body
  deriving DecidableEq, Repr, Inhabited

/-- A method's name with its handle, as messages show it. -/
def MethodSymbol.text (m : MethodSymbol) : String := m.name ++ "(" ++ m.handle.text ++ ")"

/-- What `ldtoken` may name. -/
inductive Symbol where
  | type (t : TypeSymbol)
  | method (m : MethodSymbol)
  | field (f : FieldSymbol)
  deriving DecidableEq, Repr, Inhabited

/-- The name of the runtime handle of a symbol. -/
def Symbol.handleText : Symbol → String
  | .type t => "RuntimeTypeHandle(" ++ t.name ++ ")"
  | .method m => "RuntimeMethodHandle(" ++ m.name ++ ")"
  | .field f => "RuntimeFieldHandle(" ++ f.name ++ ")"

end ManagedCode
