import ManagedCode.Text.Numeral

/-!
# Tokens and handles

Code names types, methods, fields, strings and signatures by tokens of 32 bits: the high byte is the table, the low
three bytes are the row, counted from one. A handle is the identity of a defined type, method or field.
-/

namespace ManagedCode

/-- A metadata token. -/
structure Token where
  raw : BitVec 32
  deriving DecidableEq, Repr, Inhabited

namespace Token

/-- The tables that tokens point into. -/
def typeRef : Nat := 0x01
def typeDef : Nat := 0x02
def field : Nat := 0x04
def methodDef : Nat := 0x06
def memberRef : Nat := 0x0A
def standAloneSig : Nat := 0x11
def typeSpec : Nat := 0x1B
def methodSpec : Nat := 0x2B
def userString : Nat := 0x70

/-- The token of a row; only the low 24 bits of the row are kept. -/
def make (table row : Nat) : Token := ⟨BitVec.ofNat 32 (table % 256 * 2 ^ 24 + row % 2 ^ 24)⟩

def table (t : Token) : Nat := t.raw.toNat / 2 ^ 24

def row (t : Token) : Nat := t.raw.toNat % 2 ^ 24

def isType (t : Token) : Bool := t.table == typeRef || t.table == typeDef || t.table == typeSpec

def isMethod (t : Token) : Bool := t.table == methodDef || t.table == methodSpec || t.table == memberRef

/-- Eight hexadecimal digits. -/
def text (t : Token) : String := "0x" ++ Text.hex 8 t.raw.toNat

@[simp] theorem table_make (tbl row : Nat) (h : tbl < 256) : (make tbl row).table = tbl := by
  simp only [make, table, BitVec.toNat_ofNat]
  omega

@[simp] theorem row_make (tbl row : Nat) (h : row < 2 ^ 24) : (make tbl row).row = row := by
  simp only [make, Token.row, BitVec.toNat_ofNat]
  omega

end Token

/-- The identity of a defined type. -/
structure TypeHandle where
  id : Nat
  deriving DecidableEq, Repr, Inhabited

/-- The identity of a defined method. -/
structure MethodHandle where
  id : Nat
  deriving DecidableEq, Repr, Inhabited

/-- The identity of a defined field. -/
structure FieldHandle where
  id : Nat
  deriving DecidableEq, Repr, Inhabited

def TypeHandle.text (h : TypeHandle) : String := "TypeHandle(" ++ Text.decimal h.id ++ ")"

def MethodHandle.text (h : MethodHandle) : String := "MethodHandle(" ++ Text.decimal h.id ++ ")"

def TypeHandle.token (h : TypeHandle) : Token := .make Token.typeDef h.id

def MethodHandle.token (h : MethodHandle) : Token := .make Token.methodDef h.id

def FieldHandle.token (h : FieldHandle) : Token := .make Token.field h.id

end ManagedCode
