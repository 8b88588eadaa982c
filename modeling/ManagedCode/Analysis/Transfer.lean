import ManagedCode.Code
import ManagedCode.Metadata
import ManagedCode.Opcode.Action

/-!
# The effect of an instruction on types

`transfer` executes one instruction on a stack of types. It says what the stack is afterwards, which types the
operands had where that decides what the instruction means, and where control can go next. Combinations of operands
that no rule allows are defects of the program.
-/

namespace ManagedCode.Analysis

/-- What the types of a method body depend on. -/
structure Context where
  metadata : Metadata
  code : Code
  regions : List Region
  maxStack : Nat
  arguments : List StackType
  locals : List StackType
  returnsValue : Bool

/-- A successor of an instruction: its offset, and whether it is entered with an empty stack. -/
structure Successor where
  offset : Nat
  empties : Bool
  deriving DecidableEq, Repr, Inhabited

/-- What an instruction does besides changing the stack. -/
structure Effect where
  operands : Option OperandTypes := none
  jumps : List Successor := []
  deriving DecidableEq, Repr, Inhabited

/-- Computations on the stack of types; the top of the stack stands first. -/
abbrev TypeM := StateT (List StackType) (Except EngineError)

namespace TypeM

def fail (pc : Nat) (d : Defect) : TypeM α := throw (.invalidProgram pc d)

def pop (pc : Nat) : TypeM StackType := do
  match ← get with
  | [] => fail pc .underflow
  | t :: rest =>
    set rest
    return t

def push (max pc : Nat) (t : StackType) : TypeM Unit := do
  let stack ← get
  if max ≤ stack.length then fail pc (.exceedsMaxStack max)
  set (t :: stack)

def popMany (pc : Nat) : (count : Nat) → TypeM Unit
  | 0 => return
  | count + 1 => do
    let _ ← pop pc
    popMany pc count

/-- Pops the right, then the left operand. -/
def popPair (pc : Nat) : TypeM (StackType × StackType) := do
  let right ← pop pc
  let left ← pop pc
  return (left, right)

/-- Pops an operand of one of the given types; `what` names its part in the message. -/
def popOneOf (pc : Nat) (what : String) (allowed : List StackType) : TypeM StackType := do
  let t ← pop pc
  if allowed.contains t then return t else fail pc (.illegalOperand what t)

def popAddress (pc : Nat) : TypeM StackType := popOneOf pc "address" [.pointer, .nativeInt]

def popIndex (pc : Nat) : TypeM StackType := popOneOf pc "index" [.int32, .nativeInt]

def popObject (pc : Nat) : TypeM Unit := do
  let _ ← popOneOf pc "object reference" [.object]

def popFieldOwner (pc : Nat) : TypeM StackType := popOneOf pc "field owner" [.object, .pointer, .nativeInt]

def liftCode (r : Except EngineError α) : TypeM α := StateT.lift r

def liftResolution (r : Except ResolutionError α) : TypeM α :=
  match r with
  | .ok a => return a
  | .error e => throw (.resolution e)

end TypeM

/-- The combinations that a comparison accepts. References and pointers can only be tested for equality; the unsigned
comparison that gives a value counts as such a test, since no reference is less than null. -/
def comparable (isBranch : Bool) (c : Comparison) (ts : OperandTypes) : Bool :=
  ts.isIntegerPair || ts == .float ||
    ((c == .eq || c == .neUn || (c == .gtUn && !isBranch)) &&
      (ts == .object || ts == .pointer || ts == .nativeIntPointer || ts == .pointerNativeInt))

/-- The combinations that arithmetic accepts. -/
def combinable (op : BinaryOp) (ts : OperandTypes) : Bool :=
  match op with
  | .add => ts.isIntegerPair || ts == .float || ts.isPointerOffset
  | .sub => ts.isIntegerPair || ts == .float || ts.isPointerSubtraction
  | .mul | .div | .rem => ts.isIntegerPair || ts == .float
  | .and | .or | .xor | .divUn | .remUn | .addOvf | .subOvf | .mulOvf | .mulOvfUn => ts.isIntegerPair
  | .addOvfUn => ts.isIntegerPair || ts.isPointerOffset
  | .subOvfUn => ts.isIntegerPair || ts.isPointerSubtraction

/-- The combinations that a shift accepts: an integer by an amount. -/
def shiftable (value amount : StackType) : Bool :=
  (value == .int32 || value == .int64 || value == .nativeInt) && (amount == .int32 || amount == .nativeInt)

/-- The annotation of two operands that `allowed` accepts. -/
def pairAs (pc : Nat) (op : Opcode) (left right : StackType) (allowed : OperandTypes → Bool) : TypeM OperandTypes :=
  match OperandTypes.pair? left right with
  | some ts => if allowed ts then return ts else TypeM.fail pc (.illegalPair op left right)
  | none => TypeM.fail pc (.illegalPair op left right)

/-- Whether a conversion also accepts references and pointers: the ones to an integer of full width that check
nothing. -/
def acceptsAddresses (c : Conversion) : Bool :=
  !c.checked && (c.target == .i8 || c.target == .u8 || c.target == .i || c.target == .u)

def conversionResult : ConversionTarget → StackType
  | .i1 | .u1 | .i2 | .u2 | .i4 | .u4 => .int32
  | .i8 | .u8 => .int64
  | .i | .u => .nativeInt
  | .r4 | .r8 | .real => .float

namespace Context

def slotType (cx : Context) (pc : Nat) (place : Place) (index : Nat) : TypeM StackType :=
  let table := match place with
    | .argument => cx.arguments
    | .local => cx.locals
  match table[index]? with
  | some t => return t
  | none => TypeM.fail pc (.slotOutOfRange place.text index)

def slotIndex (cx : Context) (pc : Nat) (index : SlotIndex) : TypeM Nat :=
  match index with
  | .implied n => return n
  | .encoded => TypeM.liftCode (cx.code.slotIndex pc)

/-- The stack type of the type that the operand names. -/
def operandType (cx : Context) (pc : Nat) : TypeM StackType := do
  let token ← TypeM.liftCode (cx.code.token pc)
  return (← TypeM.liftResolution (cx.metadata.resolveType token)).kind.stackType

def operandMethod (cx : Context) (pc : Nat) : TypeM MethodSymbol := do
  let token ← TypeM.liftCode (cx.code.token pc)
  TypeM.liftResolution (cx.metadata.resolveMethod token)

def operandField (cx : Context) (pc : Nat) : TypeM FieldSymbol := do
  let token ← TypeM.liftCode (cx.code.token pc)
  TypeM.liftResolution (cx.metadata.resolveField token)

/-- The effect of what the instruction `op` at `pc` does; `next` is the offset after it. -/
def act (cx : Context) (pc : Nat) (op : Opcode) (next : Nat) : TypeM Effect := do
  let pop := TypeM.pop pc
  let push := TypeM.push cx.maxStack pc
  let annotate (t : StackType) : Effect := { operands := some (.single t) }
  let branch (operands : Option OperandTypes) : TypeM Effect := do
    let target ← TypeM.liftCode (cx.code.branchTarget pc)
    return { operands, jumps := [⟨target, false⟩] }
  match op.action with
  | .skip => return {}
  | .load place index =>
    let i ← cx.slotIndex pc index
    push (← cx.slotType pc place i)
    return {}
  | .store place index =>
    let i ← cx.slotIndex pc index
    let _ ← cx.slotType pc place i
    let _ ← pop
    return {}
  | .address place =>
    let i ← cx.slotIndex pc .encoded
    let _ ← cx.slotType pc place i
    push .pointer
    return {}
  | .loadNull | .loadString | .loadToken =>
    push .object
    return {}
  | .loadConstant c =>
    push c.stackType
    return {}
  | .sizeOf =>
    push .int32
    return {}
  | .argumentList =>
    push .nativeInt
    return {}
  | .dup =>
    let t ← pop
    push t
    push t
    return annotate t
  | .pop =>
    let _ ← pop
    return {}
  | .callSite .jmp =>
    if !(← get).isEmpty then TypeM.fail pc .jumpWithOperands
    return {}
  | .callSite .newobj =>
    let m ← cx.operandMethod pc
    TypeM.popMany pc m.signature.parameters.length
    push .object
    return {}
  | .callSite _ =>
    let m ← cx.operandMethod pc
    call push m.signature
  | .callIndirect =>
    let token ← TypeM.liftCode (cx.code.token pc)
    let s ← TypeM.liftResolution (cx.metadata.resolveSignature token)
    let _ ← pop
    call push s
  | .cachedCall => throw (.unsupportedOpcode op.value pc)
  | .ret =>
    if cx.returnsValue then
      let _ ← pop
    if !(← get).isEmpty then TypeM.fail pc .returnWithOperands
    return {}
  | .jump => branch none
  | .jumpOn _ =>
    let t ← pop
    if t == .float then TypeM.fail pc (.illegalOperand "condition" t)
    branch (some (.single t))
  | .jumpCompare c =>
    let (left, right) ← TypeM.popPair pc
    let ts ← pairAs pc op left right (comparable true c)
    branch (some ts)
  | .switch =>
    let t ← TypeM.popIndex pc
    let targets ← TypeM.liftCode (cx.code.switchTargets pc)
    return { operands := some (.single t), jumps := targets.map (⟨·, false⟩) }
  | .leave =>
    set ([] : List StackType)
    let target ← TypeM.liftCode (cx.code.branchTarget pc)
    return { jumps := [⟨target, true⟩] }
  | .endFinally =>
    set ([] : List StackType)
    return {}
  | .endFilter =>
    let _ ← pop
    return {}
  | .throw =>
    TypeM.popObject pc
    return { jumps := afterThrow }
  | .rethrow => return { jumps := afterThrow }
  | .compare c =>
    let (left, right) ← TypeM.popPair pc
    let ts ← pairAs pc op left right (comparable false c)
    push .int32
    return { operands := some ts }
  | .binary b =>
    let (left, right) ← TypeM.popPair pc
    let ts ← pairAs pc op left right (combinable b)
    push ts.arithmeticResult
    return { operands := some ts }
  | .shift _ =>
    let (value, amount) ← TypeM.popPair pc
    let ts ← pairAs pc op value amount fun _ => shiftable value amount
    push value
    return { operands := some ts }
  | .unary u =>
    let allowed := [StackType.int32, .int64, .nativeInt] ++ if u = .neg then [.float] else []
    let t ← TypeM.popOneOf pc op.mnemonic allowed
    push t
    return annotate t
  | .checkFinite =>
    let t ← TypeM.popOneOf pc "ckfinite" [.float]
    push t
    return annotate t
  | .convert c =>
    let t ← pop
    if (t == .object || t == .pointer) && !acceptsAddresses c then TypeM.fail pc (.illegalOperand op.mnemonic t)
    push (conversionResult c.target)
    return annotate t
  | .loadIndirect kind =>
    let t ← TypeM.popAddress pc
    push kind.stackType
    return annotate t
  | .storeIndirect _ | .storeObject =>
    let _ ← pop
    let t ← TypeM.popAddress pc
    return annotate t
  | .loadObject =>
    let t ← TypeM.popAddress pc
    push (← cx.operandType pc)
    return annotate t
  | .copyObject =>
    let source ← TypeM.popAddress pc
    let target ← TypeM.popAddress pc
    let ts ← pairAs pc op target source fun _ => true
    return { operands := some ts }
  | .initObject =>
    let t ← TypeM.popAddress pc
    return annotate t
  | .copyBlock | .initBlock =>
    TypeM.popMany pc 3
    return {}
  | .localAlloc =>
    let t ← TypeM.popIndex pc
    push .pointer
    return annotate t
  | .loadField =>
    let owner ← TypeM.popFieldOwner pc
    push (← cx.operandField pc).kind.stackType
    return annotate owner
  | .fieldAddress =>
    let owner ← TypeM.popFieldOwner pc
    let _ ← cx.operandField pc
    push (if owner = .nativeInt then .nativeInt else .pointer)
    return annotate owner
  | .storeField =>
    let _ ← pop
    let owner ← TypeM.popFieldOwner pc
    return annotate owner
  | .loadStatic =>
    push (← cx.operandField pc).kind.stackType
    return {}
  | .staticAddress | .functionPointer =>
    push .pointer
    return {}
  | .storeStatic =>
    let _ ← pop
    return {}
  | .castClass | .isInstance =>
    TypeM.popObject pc
    push .object
    return {}
  | .box | .typedType =>
    let _ ← pop
    push .object
    return {}
  | .unbox | .virtualPointer =>
    TypeM.popObject pc
    push .pointer
    return {}
  | .unboxAny =>
    TypeM.popObject pc
    push (← cx.operandType pc)
    return {}
  | .newArray =>
    let t ← TypeM.popIndex pc
    push .object
    return annotate t
  | .arrayLength =>
    TypeM.popObject pc
    push .nativeInt
    return {}
  | .elementAddress =>
    let t ← TypeM.popIndex pc
    TypeM.popObject pc
    push .pointer
    return annotate t
  | .loadElement kind =>
    let t ← TypeM.popIndex pc
    TypeM.popObject pc
    match kind with
    | some k => push k.stackType
    | none => push (← cx.operandType pc)
    return annotate t
  | .storeElement _ =>
    let _ ← pop
    let t ← TypeM.popIndex pc
    TypeM.popObject pc
    return annotate t
  | .makeTyped =>
    let _ ← TypeM.popAddress pc
    push .object
    return {}
  | .typedAddress =>
    let _ ← pop
    push .pointer
    return {}
where
  /-- Pops the arguments of a signature and pushes its result. -/
  call (push : StackType → TypeM Unit) (s : Signature) : TypeM Effect := do
    TypeM.popMany pc s.arity
    match s.result with
    | some k =>
      push k.stackType
      return {}
    | none => return {}
  /-- Analysis goes on behind the handlers around a throw, or else with the next instruction. -/
  afterThrow : List Successor :=
    let resume := (offsetAfterThrow cx.regions pc).getD next
    if resume < cx.code.size then [⟨resume, true⟩] else []

/-- A code error of the analysis: bytes that end too early are a defect of the program. -/
def decodeError : EngineError → EngineError
  | .truncated pc => .invalidProgram pc .truncated
  | e => e

/-- Executes the instruction `op` at `pc` on types. Jump targets come before the instruction that control falls
through to. -/
def transfer (cx : Context) (pc : Nat) (op : Opcode) : TypeM (Option OperandTypes × List Successor) := do
  let next ← TypeM.liftCode ((cx.code.nextOffset pc).mapError decodeError)
  let effect ← cx.act pc op next
  if op.endsBlock then return (effect.operands, effect.jumps)
  else if cx.code.size ≤ next then TypeM.fail pc .fallsOffEnd
  else return (effect.operands, effect.jumps ++ [⟨next, false⟩])

end Context

end ManagedCode.Analysis
