/-!
# Stack types and storage kinds

A value on the evaluation stack has one of six types. A typed location (an argument, a local, a field, an element, the
inside of a box) has one of seventeen kinds: loading widens a kind to its stack type, storing narrows to the kind.
-/

namespace ManagedCode

/-- The types that the evaluation stack tells apart. -/
inductive StackType where
  | int32
  | int64
  | nativeInt
  | float
  | object
  | pointer
  deriving DecidableEq, Repr, Inhabited

/-- The full name of a stack type. -/
def StackType.name : StackType → String
  | .int32 => "Int32"
  | .int64 => "Int64"
  | .nativeInt => "NativeInt"
  | .float => "NativeFloat"
  | .object => "ObjectRef"
  | .pointer => "ManagedPointer"

def StackType.all : List StackType := [.int32, .int64, .nativeInt, .float, .object, .pointer]

/-- The stack type with a full name. -/
def StackType.ofName? (s : String) : Option StackType := all.find? (·.name == s)

/-- The name of a stack type in messages. -/
def StackType.text : StackType → String
  | .int32 => "int32"
  | .int64 => "int64"
  | .nativeInt => "native int"
  | .float => "F"
  | .object => "O"
  | .pointer => "&"

/-- How a typed location stores a value. -/
inductive Kind where
  | boolean
  | char
  | i1
  | u1
  | i2
  | u2
  | i4
  | u4
  | i8
  | u8
  | i
  | u
  | r4
  | r8
  | object
  | byRef
  | struct
  deriving DecidableEq, Repr, Inhabited

namespace Kind

def stackType : Kind → StackType
  | .boolean | .char | .i1 | .u1 | .i2 | .u2 | .i4 | .u4 => .int32
  | .i8 | .u8 => .int64
  | .i | .u => .nativeInt
  | .r4 | .r8 => .float
  | .object | .struct => .object
  | .byRef => .pointer

/-- The bytes that a location of this kind takes. -/
def size : Kind → Nat
  | .boolean | .i1 | .u1 => 1
  | .char | .i2 | .u2 => 2
  | .i4 | .u4 | .r4 => 4
  | .i8 | .u8 | .r8 | .i | .u | .object | .byRef | .struct => 8

/-- Every kind with its short name, as listings and the command line write it. -/
def names : List (String × Kind) :=
  [("bool", .boolean), ("char", .char), ("i1", .i1), ("u1", .u1), ("i2", .i2), ("u2", .u2), ("i4", .i4), ("u4", .u4),
   ("i8", .i8), ("u8", .u8), ("i", .i), ("u", .u), ("r4", .r4), ("r8", .r8), ("object", .object), ("ref", .byRef),
   ("struct", .struct)]

/-- The kind with a short name. -/
def ofName? (name : String) : Option Kind := names.lookup name

/-- The full name of a kind in messages. -/
def text : Kind → String
  | .boolean => "Boolean"
  | .char => "Char"
  | .i1 => "I1"
  | .u1 => "U1"
  | .i2 => "I2"
  | .u2 => "U2"
  | .i4 => "I4"
  | .u4 => "U4"
  | .i8 => "I8"
  | .u8 => "U8"
  | .i => "I"
  | .u => "U"
  | .r4 => "R4"
  | .r8 => "R8"
  | .object => "Object"
  | .byRef => "ByRef"
  | .struct => "Struct"

end Kind

end ManagedCode
