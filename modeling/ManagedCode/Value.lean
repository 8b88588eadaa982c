import ManagedCode.Floating.Decimal
import ManagedCode.Symbol

/-!
# Values

What a slot of a frame holds: integers of three types, a floating point number, a reference to an object or a managed
pointer. Pointers are symbolic: they name the location that they refer to. `Kind.coerce` is the one rule of narrowing
that every typed location of the machine follows.
-/

namespace ManagedCode

/-- Names one object of the heap. Two references are to the same object exactly when their numbers agree. -/
structure Ref where
  id : Nat
  deriving DecidableEq, Repr, Inhabited

/-- Names one frame. Pointers into a frame mean something in its own activation only. -/
structure FrameId where
  id : Nat
  deriving DecidableEq, Repr, Inhabited

/-- A managed pointer. -/
inductive Pointer where
  /-- An argument or a local of a frame. -/
  | slot (frame : FrameId) (index : Nat)
  /-- A field of an object; the object may be missing. -/
  | field (object : Option Ref) (field : FieldSymbol)
  | static (field : FieldSymbol)
  | element (array : Option Ref) (index : Nat)
  /-- The value inside a box. -/
  | boxed (object : Option Ref)
  /-- The entry of a method. -/
  | method (handle : MethodHandle)
  deriving DecidableEq, Repr, Inhabited

namespace Pointer

/-- Whether two pointers name the same location; fields are compared by their handles. -/
def same : Pointer → Pointer → Bool
  | .slot f i, .slot g j => f == g && i == j
  | .field o f, .field p g => o == p && f.handle == g.handle
  | .static f, .static g => f.handle == g.handle
  | .element a i, .element b j => a == b && i == j
  | .boxed o, .boxed p => o == p
  | .method m, .method n => m == n
  | _, _ => false

/-- Orders two pointers into the same storage. Pointers into unrelated storage have no order. -/
def order? (p q : Pointer) : Option Ordering :=
  let otherwise := if p.same q then some .eq else none
  match p, q with
  | .slot f i, .slot g j => if f == g then some (compare i j) else otherwise
  | .element a i, .element b j => if a == b then some (compare i j) else otherwise
  | _, _ => otherwise

end Pointer

/-- A value on the evaluation stack. -/
inductive Value where
  | int32 (n : BitVec 32)
  | int64 (n : BitVec 64)
  | nativeInt (n : BitVec 64)
  | float (x : Double)
  | object (r : Option Ref)
  | pointer (p : Pointer)
  deriving DecidableEq, Repr

namespace Value

/-- The null reference, which a cleared slot holds. -/
def null : Value := .object none

instance : Inhabited Value := ⟨null⟩

def stackType : Value → StackType
  | .int32 _ => .int32
  | .int64 _ => .int64
  | .nativeInt _ => .nativeInt
  | .float _ => .float
  | .object _ => .object
  | .pointer _ => .pointer

/-- The bits of an integer value, sign extended to 64. -/
def bits? : Value → Option (BitVec 64)
  | .int32 n => some (n.signExtend 64)
  | .int64 n | .nativeInt n => some n
  | _ => none

/-- Whether two values are equal: floating point numbers by value, references by identity. -/
def same : Value → Value → Bool
  | .float x, .float y => x.eq y
  | .pointer p, .pointer q => p.same q
  | v, w => v == w

end Value

namespace Kind

/-- Narrows a value to the storage of a kind and widens it back. A value that the kind cannot store at all has no
result. -/
def coerce (k : Kind) (v : Value) : Option Value :=
  match k with
  | .boolean | .u1 => v.bits?.map fun b => .int32 ((b.truncate 8).zeroExtend 32)
  | .i1 => v.bits?.map fun b => .int32 ((b.truncate 8).signExtend 32)
  | .char | .u2 => v.bits?.map fun b => .int32 ((b.truncate 16).zeroExtend 32)
  | .i2 => v.bits?.map fun b => .int32 ((b.truncate 16).signExtend 32)
  | .i4 | .u4 => v.bits?.map fun b => .int32 (b.truncate 32)
  | .i8 | .u8 => v.bits?.map .int64
  | .i | .u => v.bits?.map .nativeInt
  | .r4 =>
    match v with
    | .float x => some (.float x.narrow)
    | _ => none
  | .r8 =>
    match v with
    | .float x => some (.float x)
    | _ => none
  | .object | .struct =>
    match v with
    | .object r => some (.object r)
    | _ => none
  | .byRef =>
    match v with
    | .pointer p => some (.pointer p)
    | .nativeInt n => some (.nativeInt n)
    | _ => none

/-- The zero that a fresh location of a kind holds. -/
def zero (k : Kind) : Value :=
  match k.stackType with
  | .int32 => .int32 0
  | .int64 => .int64 0
  | .nativeInt => .nativeInt 0
  | .float => .float (Double.zero false)
  | .object | .pointer => .null

end Kind

/-- Shows a reference, given how the objects of the heap are shown. -/
def Ref.show (names : Ref → String) : Option Ref → String
  | none => "null"
  | some r => names r

/-- Shows a pointer. The number of a frame is not part of its text. -/
def Pointer.show (names : Ref → String) : Pointer → String
  | .slot _ i => "&frame?[" ++ Text.decimal i ++ "]"
  | .field o f => "&" ++ Ref.show names o ++ "." ++ f.name
  | .static f => "&static " ++ f.name
  | .element a i => "&" ++ Ref.show names a ++ "[" ++ Text.decimal i ++ "]"
  | .boxed o => "&unbox " ++ Ref.show names o
  | .method m => "&fn " ++ m.text

/-- Shows a value with its type, as messages about slots do. -/
def Value.show (names : Ref → String) : Value → String
  | .int32 n => "Int32(" ++ Text.decimalInt n.toInt ++ ")"
  | .int64 n => "Int64(" ++ Text.decimalInt n.toInt ++ ")"
  | .nativeInt n => "NativeInt(" ++ Text.decimalInt n.toInt ++ ")"
  | .float x => "NativeFloat(" ++ x.debugText ++ ")"
  | .object r => "ObjectRef(" ++ Ref.show names r ++ ")"
  | .pointer p => "ManagedPtr(" ++ p.show names ++ ")"

end ManagedCode
