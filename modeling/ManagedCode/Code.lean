import ManagedCode.Fault

/-!
# Code

The bytes of a method body, read as instructions. Reading never goes past the end: what does not fit is an error at
the offset of the instruction. The only change that code ever undergoes is a patch, which overwrites one instruction
in place.
-/

namespace ManagedCode

/-- The bytes of one method body. -/
structure Code where
  bytes : Array UInt8
  deriving DecidableEq, Repr, Inhabited

/-- The bytes of `n`, least significant first. -/
def littleEndian : (count : Nat) → (n : Nat) → List UInt8
  | 0, _ => []
  | count + 1, n => UInt8.ofNat n :: littleEndian count (n / 256)

/-- The number that bytes denote, least significant first. -/
def ofLittleEndian : List UInt8 → Nat
  | [] => 0
  | b :: bs => b.toNat + 256 * ofLittleEndian bs

theorem length_littleEndian (count n : Nat) : (littleEndian count n).length = count := by
  induction count generalizing n with
  | zero => rfl
  | succ c ih => simp [littleEndian, ih]

/-- Writing a number and reading it back keeps as many of its bits as bytes were written. -/
theorem ofLittleEndian_littleEndian (count n : Nat) :
    ofLittleEndian (littleEndian count n) = n % 256 ^ count := by
  induction count generalizing n with
  | zero => simp [littleEndian, ofLittleEndian, Nat.mod_one]
  | succ c ih =>
    have h : 256 ^ (c + 1) = 256 * 256 ^ c := Nat.pow_succ'
    simp only [littleEndian, ofLittleEndian, ih, UInt8.toNat_ofNat', h, Nat.mod_mul]

/-- Bytes in base sixteen, two digits each. -/
def hexBytes (bytes : List UInt8) : String := String.join (bytes.map fun b => Text.hex 2 b.toNat)

def readHexBytes? : List Char → Option (List UInt8)
  | [] => some []
  | [_] => none
  | a :: b :: rest => do return UInt8.ofNat (← Text.readDigits 16 [a, b]) :: (← readHexBytes? rest)

/-- The length of a cached call: the instruction and the index of its call site. -/
def patchLength : Nat := 5

namespace Code

def size (c : Code) : Nat := c.bytes.size

/-- The number in the `count` bytes at `offset`, of an instruction at `pc`. -/
def readAt (c : Code) (count offset pc : Nat) : Except EngineError Nat :=
  if offset + count ≤ c.size then
    .ok (ofLittleEndian (c.bytes.extract offset (offset + count)).toList)
  else .error (.truncated pc)

def opcodeAt (c : Code) (pc : Nat) : Except EngineError Opcode :=
  match c.bytes[pc]? with
  | none => .error (.truncated pc)
  | some first =>
    if first = Opcode.escape then
      match c.bytes[pc + 1]? with
      | none => .error (.truncated (pc + 1))
      | some second => found (0xFE00 + second.toNat)
    else found first.toNat
where
  /-- The instruction with a number, which may not exist. -/
  found (value : Nat) : Except EngineError Opcode :=
    match Opcode.ofValue? value with
    | some op => .ok op
    | none => .error (.unsupportedOpcode value pc)

/-- The offset of the first byte behind the instruction at `pc` itself. -/
def operandAt (c : Code) (pc : Nat) : Except EngineError Nat :=
  return pc + (← c.opcodeAt pc).size

/-- The offset of the instruction after the one at `pc`. -/
def nextOffset (c : Code) (pc : Nat) : Except EngineError Nat := do
  let op ← c.opcodeAt pc
  let operand := pc + op.size
  let next ← match op.operand.size? with
    | some n => pure (operand + n)
    | none => do
      let count ← c.readAt 4 operand pc
      pure (operand + 4 + count * 4)
  if next ≤ c.size then return next else throw (.truncated pc)

/-- The operand of the instruction at `pc`, read as a number of `count` bytes. -/
def operand (c : Code) (count pc : Nat) : Except EngineError Nat := do
  c.readAt count (← c.operandAt pc) pc

def word (c : Code) (width pc : Nat) : Except EngineError (BitVec width) :=
  return BitVec.ofNat width (← c.operand (width / 8) pc)

def token (c : Code) (pc : Nat) : Except EngineError Token := return ⟨← c.word 32 pc⟩

/-- The index operand of an instruction on an argument or a local. -/
def slotIndex (c : Code) (pc : Nat) : Except EngineError Nat := do
  match (← c.opcodeAt pc).operand with
  | .shortVariable => c.operand 1 pc
  | .variable => c.operand 2 pc
  | _ => throw (.invalidState pc .noVariableOperand)

/-- The offset that lies `delta` from `next`, if that is inside the code. -/
def target? (c : Code) (next : Nat) (delta : Int) : Option Nat :=
  let t := (next : Int) + delta
  if 0 ≤ t ∧ t < c.size then some t.toNat else none

/-- The target of the branch at `pc`. -/
def branchTarget (c : Code) (pc : Nat) : Except EngineError Nat := do
  let next ← c.nextOffset pc
  let delta ← match (← c.opcodeAt pc).operand with
    | .shortBranch => do pure (← c.word 8 pc).toInt
    | .branch => do pure (← c.word 32 pc).toInt
    | _ => throw (.invalidState pc .notBranch)
  match c.target? next delta with
  | some t => return t
  | none => throw (.invalidProgram pc .branchOutside)

/-- The targets of `count` entries of the jump table at `pc`, whose distances start at `offset`. -/
def tableTargets (c : Code) (pc next : Nat) : (count offset : Nat) → Except EngineError (List Nat)
  | 0, _ => return []
  | count + 1, offset => do
    let delta := (BitVec.ofNat 32 (← c.readAt 4 offset pc)).toInt
    match c.target? next delta with
    | some t => return t :: (← tableTargets c pc next count (offset + 4))
    | none => throw (.invalidProgram pc .switchOutside)

/-- The targets of the jump table at `pc`, in the order of the table. -/
def switchTargets (c : Code) (pc : Nat) : Except EngineError (List Nat) := do
  let operand ← c.operandAt pc
  let count ← c.readAt 4 operand pc
  let next ← c.nextOffset pc
  c.tableTargets pc next count (operand + 4)

/-- Overwrites the bytes from `pc` on. -/
def write (c : Code) (pc : Nat) : List UInt8 → Code
  | [] => c
  | b :: bs => write ⟨c.bytes.setIfInBounds pc b⟩ (pc + 1) bs

def patch (c : Code) (pc : Nat) (bytes : List UInt8) : Except EngineError Code :=
  if bytes.isEmpty ∨ c.size < pc + bytes.length then .error (.truncated pc)
  else .ok (c.write pc bytes)

/-- The bytes of a cached call to call site `index`, padded to `length` bytes. -/
def cachedCall (index length : Nat) : Except EngineError (List UInt8) :=
  if length < patchLength then .error (.notImplemented (.shortCallSite length))
  else .ok (UInt8.ofNat Opcode.cachedCall.value :: littleEndian 4 index
    ++ List.replicate (length - patchLength) (UInt8.ofNat Opcode.nop.value))

/-- The offsets and instructions from `pc` on, up to the end of the code or the first byte that is no instruction. -/
def walkFrom (c : Code) : (fuel pc : Nat) → List (Nat × Opcode × Nat) × Option EngineError
  | 0, _ => ([], none)
  | fuel + 1, pc =>
    if c.size ≤ pc then ([], none)
    else
      match c.opcodeAt pc, c.nextOffset pc with
      | .ok op, .ok next =>
        let (rest, stop) := c.walkFrom fuel next
        ((pc, op, next) :: rest, stop)
      | .error e, _ | _, .error e => ([], some e)

def walk (c : Code) : List (Nat × Opcode × Nat) × Option EngineError := c.walkFrom (c.size + 1) 0

end Code

end ManagedCode
