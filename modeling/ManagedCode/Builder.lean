import ManagedCode.Code
import ManagedCode.Opcode.Action
import ManagedCode.Symbol

/-!
# Building method bodies

Instructions are emitted one after the other; branches name labels, which may be marked later and are filled in when the
body is built.

A call that fails has the state as part of its result: an instruction whose operand does not fit its one byte has been
emitted already when that is found out.
-/

namespace ManagedCode

/-- A position in the code that branches and regions can name. -/
structure Label where
  index : Nat
  deriving DecidableEq, Repr, Inhabited

/-- Why a method body cannot be built. -/
inductive BuildError where
  | operandMismatch (op : Opcode) (expected : OperandKind)
  | unmarkedLabel (name : String)
  | duplicateLabel (name : String)
  | shortBranchOutOfRange (offset target : Nat)
  deriving DecidableEq, Repr, Inhabited

/-- The name of the sort of an error, by which reports tell errors apart. -/
def BuildError.name : BuildError → String
  | .operandMismatch .. => "OperandMismatch"
  | .unmarkedLabel _ => "UnmarkedLabel"
  | .duplicateLabel _ => "DuplicateLabel"
  | .shortBranchOutOfRange .. => "ShortBranchOutOfRange"

def BuildError.message : BuildError → String
  | .operandMismatch op k => op.mnemonic ++ " takes a " ++ k.text ++ " operand"
  | .unmarkedLabel n => "label " ++ n ++ " is used but never marked"
  | .duplicateLabel n => "label " ++ n ++ " is marked twice"
  | .shortBranchOutOfRange o t =>
    "branch at 0x" ++ Text.hex 4 o ++ " cannot reach 0x" ++ Text.hex 4 t ++ " with a one-byte offset"

/-- A branch distance that is still to be filled in. -/
structure Fixup where
  label : Label
  /-- Where the distance is written. -/
  offset : Nat
  /-- What the distance is counted from: the end of the instruction. -/
  base : Nat
  short : Bool
  deriving DecidableEq, Repr, Inhabited

/-- A region whose bounds are labels. -/
structure LabelledRegion where
  tryBlock : Label × Label
  handler : Label × Label
  kind : RegionKind
  deriving DecidableEq, Repr, Inhabited

/-- A method body under construction. -/
structure Builder where
  code : Array UInt8 := #[]
  /-- The offsets of the labels that have been marked. -/
  labels : Array (Option Nat) := #[]
  names : Array String := #[]
  fixups : Array Fixup := #[]
  regions : Array LabelledRegion := #[]
  maxStack : Nat := 8
  locals : List Kind := []
  deriving DecidableEq, Repr, Inhabited

abbrev BuilderM := ExceptT BuildError (StateM Builder)

namespace Builder

/-- The offset of the next instruction. -/
def offset (b : Builder) : Nat := b.code.size

def nameOf (b : Builder) (l : Label) : String := b.names.getD l.index ""

def defineNamed (name : String) : BuilderM Label :=
  modifyGet fun b => (⟨b.labels.size⟩, { b with labels := b.labels.push none, names := b.names.push name })

def define : BuilderM Label := do
  defineNamed ("L" ++ Text.decimal (← get).labels.size)

/-- Puts a label at the next instruction. -/
def mark (l : Label) : BuilderM Unit := do
  let b ← get
  match (b.labels[l.index]?).join with
  | some _ => throw (.duplicateLabel (b.nameOf l))
  | none => set { b with labels := b.labels.setIfInBounds l.index (some b.offset) }

def append (bytes : List UInt8) : BuilderM Unit := modify fun b => { b with code := b.code ++ bytes.toArray }

/-- Checks that an instruction takes one of the given operands. -/
def expect (op : Opcode) (kinds : List OperandKind) : BuilderM Unit :=
  if kinds.contains op.operand then return else throw (.operandMismatch op op.operand)

def emit (op : Opcode) : BuilderM Unit := do
  expect op [.none]
  append op.encode

/-- Emits an instruction with an integer operand of one or four bytes. -/
def emitInt (op : Opcode) (value : BitVec 32) : BuilderM Unit := do
  expect op [.shortInt, .int]
  append op.encode
  if op.operand = .shortInt then
    if -128 ≤ value.toInt ∧ value.toInt ≤ 127 then append (littleEndian 1 value.toNat)
    else throw (.operandMismatch op .shortInt)
  else append (littleEndian 4 value.toNat)

/-- The instruction that loads a small constant without an operand. -/
def impliedConstant? (n : Int) : Option Opcode :=
  Opcode.all.find? fun op => op.action == .loadConstant (.implied n)

/-- Emits the shortest instruction that loads a constant. -/
def emitConstant (value : BitVec 32) : BuilderM Unit :=
  match impliedConstant? value.toInt with
  | some op => emit op
  | none => if -128 ≤ value.toInt ∧ value.toInt ≤ 127 then emitInt .ldcI4S value else emitInt .ldcI4 value

/-- Emits an instruction with an integer operand of eight bytes. -/
def emitLong (op : Opcode) (value : BitVec 64) : BuilderM Unit := do
  expect op [.long]
  append (op.encode ++ littleEndian 8 value.toNat)

/-- Emits an instruction with a floating point operand of four or eight bytes. -/
def emitReal (op : Opcode) (value : Double) : BuilderM Unit := do
  expect op [.shortReal, .real]
  append op.encode
  if op.operand = .shortReal then append (littleEndian 4 value.toSingle.toNat)
  else append (littleEndian 8 value.bits.toNat)

/-- Emits an instruction on an argument or a local. -/
def emitSlot (op : Opcode) (index : BitVec 16) : BuilderM Unit := do
  expect op [.shortVariable, .variable]
  append op.encode
  if op.operand = .shortVariable then
    if index.toNat < 256 then append (littleEndian 1 index.toNat)
    else throw (.operandMismatch op .shortVariable)
  else append (littleEndian 2 index.toNat)

def emitToken (op : Opcode) (t : Token) : BuilderM Unit := do
  if op.operand.isToken then append (op.encode ++ littleEndian 4 t.raw.toNat)
  else throw (.operandMismatch op op.operand)

def emitBranch (op : Opcode) (target : Label) : BuilderM Unit := do
  expect op [.shortBranch, .branch]
  append op.encode
  let offset := (← get).offset
  let short := op.operand == .shortBranch
  let width := if short then 1 else 4
  append (List.replicate width 0)
  modify fun b => { b with fixups := b.fixups.push ⟨target, offset, offset + width, short⟩ }

def emitSwitch (targets : List Label) : BuilderM Unit := do
  append (Opcode.switch.encode ++ littleEndian 4 targets.length)
  let first := (← get).offset
  let base := first + targets.length * 4
  append (List.replicate (targets.length * 4) 0)
  let fixups := targets.mapIdx fun i l => (⟨l, first + i * 4, base, false⟩ : Fixup)
  modify fun b => { b with fixups := b.fixups ++ fixups.toArray }

/-- Declares a region. Regions are searched in the order of their declaration. -/
def addRegion (r : LabelledRegion) : BuilderM Unit := modify fun b => { b with regions := b.regions.push r }

def setMaxStack (n : Nat) : BuilderM Unit := modify fun b => { b with maxStack := n }

def setLocals (ks : List Kind) : BuilderM Unit := modify fun b => { b with locals := ks }

/-- The offset of a label. -/
def resolve (b : Builder) (l : Label) : Except BuildError Nat :=
  match (b.labels[l.index]?).join with
  | some offset => .ok offset
  | none => .error (.unmarkedLabel (b.nameOf l))

/-- The bytes of a branch distance. -/
def distance (b : Builder) (f : Fixup) : Except BuildError (List UInt8) := do
  let target ← b.resolve f.label
  let delta : Int := (target : Int) - f.base
  if f.short then
    if -128 ≤ delta ∧ delta ≤ 127 then return littleEndian 1 (BitVec.ofInt 8 delta).toNat
    else throw (.shortBranchOutOfRange (f.offset - 1) target)
  else return littleEndian 4 (BitVec.ofInt 32 delta).toNat

/-- Fills in the branch distances, in the order in which the branches were emitted. -/
def fillIn (b : Builder) : List Fixup → Code → Except BuildError Code
  | [], code => .ok code
  | f :: rest, code => do
    let bytes ← b.distance f
    fillIn b rest (code.write f.offset bytes)

def resolveRegion (b : Builder) (r : LabelledRegion) : Except BuildError Region := do
  let tryStart ← b.resolve r.tryBlock.1
  let tryEnd ← b.resolve r.tryBlock.2
  let handlerStart ← b.resolve r.handler.1
  let handlerEnd ← b.resolve r.handler.2
  return ⟨.between tryStart tryEnd, .between handlerStart handlerEnd, r.kind⟩

def build (b : Builder) : Except BuildError Body := do
  let code ← b.fillIn b.fixups.toList ⟨b.code⟩
  let regions ← b.regions.toList.mapM b.resolveRegion
  return ⟨code.bytes, b.maxStack, b.locals, regions⟩

end Builder

end ManagedCode
