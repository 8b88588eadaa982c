import ManagedCode.Analysis.Operands
import ManagedCode.Opcode.Basic
import ManagedCode.Value

/-!
# Faults and errors

Two families are kept apart. A *fault* is raised by the guest program itself: it becomes an exception object that the
program's own handlers can catch. An *engine error* is a failure of the machine or of the program's form; no handler
sees it. Every error is a cause, and its wording is in one place per family.
-/

namespace ManagedCode

/-- The faults that instructions raise. -/
inductive FaultKind where
  | nullReference
  | divideByZero
  | overflow
  | indexOutOfRange
  | arrayTypeMismatch
  | invalidCast
  | outOfMemory
  | executionEngine
  deriving DecidableEq, Repr, Inhabited

namespace FaultKind

def all : List FaultKind :=
  [.nullReference, .divideByZero, .overflow, .indexOutOfRange, .arrayTypeMismatch, .invalidCast, .outOfMemory,
   .executionEngine]

def name : FaultKind → String
  | .nullReference => "NullReference"
  | .divideByZero => "DivideByZero"
  | .overflow => "Overflow"
  | .indexOutOfRange => "IndexOutOfRange"
  | .arrayTypeMismatch => "ArrayTypeMismatch"
  | .invalidCast => "InvalidCast"
  | .outOfMemory => "OutOfMemory"
  | .executionEngine => "ExecutionEngine"

def ofName? (s : String) : Option FaultKind := all.find? (·.name == s)

def typeName : FaultKind → String
  | .nullReference => "System.NullReferenceException"
  | .divideByZero => "System.DivideByZeroException"
  | .overflow => "System.OverflowException"
  | .indexOutOfRange => "System.IndexOutOfRangeException"
  | .arrayTypeMismatch => "System.ArrayTypeMismatchException"
  | .invalidCast => "System.InvalidCastException"
  | .outOfMemory => "System.OutOfMemoryException"
  | .executionEngine => "System.ExecutionEngineException"

/-- The message of a fault that says no more than its kind. -/
def message : FaultKind → String
  | .nullReference => "Object reference not set to an instance of an object."
  | .divideByZero => "Attempted to divide by zero."
  | .overflow => "Arithmetic operation resulted in an overflow."
  | .indexOutOfRange => "Index was outside the bounds of the array."
  | .arrayTypeMismatch => "Attempted to access an element as a type incompatible with the array."
  | .invalidCast => "Specified cast is not valid."
  | .outOfMemory => "Insufficient memory to continue the execution of the program."
  | .executionEngine => "Internal error in the runtime."

end FaultKind

/-- An exception in flight. -/
structure GuestException where
  object : Option Ref
  /-- The fault that raised it; an object that the program threw has none. -/
  kind : Option FaultKind
  message : String
  deriving DecidableEq, Repr, Inhabited

/-- What is said of an exception, given how objects are shown. -/
def GuestException.text (names : Ref → String) (e : GuestException) : String :=
  match e.kind with
  | some k => k.typeName ++ ": " ++ e.message
  | none => Ref.show names e.object ++ ": " ++ e.message

/-- A name that does not resolve. -/
inductive ResolutionError where
  | notFound (token : Token)
  | wrongTable (token : Token) (expected : String)
  | noVirtualTarget (method : String) (type : TypeHandle)
  | missingString (token : Token)
  | unknownType (type : TypeHandle)
  deriving DecidableEq, Repr, Inhabited

/-- The name of the sort of an error, by which reports tell errors apart. -/
def ResolutionError.name : ResolutionError → String
  | .notFound _ => "NotFound"
  | .wrongTable .. => "WrongTable"
  | .noVirtualTarget .. => "NoVirtualTarget"
  | .missingString _ => "MissingString"
  | .unknownType _ => "UnknownType"

def ResolutionError.message : ResolutionError → String
  | .notFound t => "token " ++ t.text ++ " not found"
  | .wrongTable t expected => "token " ++ t.text ++ " is not a " ++ expected
  | .noVirtualTarget m t => "no implementation of " ++ m ++ " for type " ++ t.text
  | .missingString t => "user string " ++ t.text ++ " not found"
  | .unknownType t => "type " ++ t.text ++ " is not loaded"

/-- Why a method body is no valid program. -/
inductive Defect where
  | truncated
  | underflow
  | exceedsMaxStack (max : Nat)
  | illegalOperand (what : String) (type : StackType)
  | illegalPair (op : Opcode) (left right : StackType)
  | notInstructionStart (target : Nat)
  | emptyBody
  | slotOutOfRange (what : String) (index : Nat)
  | jumpWithOperands
  | returnWithOperands
  | fallsOffEnd
  | branchOutside
  | switchOutside
  | condition (op : Opcode) (types : OperandTypes)
  | fieldOwner (value : Value)
  | endFinallyOutside
  | resumeOffset
  deriving DecidableEq, Repr, Inhabited

def Defect.message (names : Ref → String) : Defect → String
  | .truncated => "truncated instruction"
  | .underflow => "evaluation stack underflow"
  | .exceedsMaxStack max => "evaluation stack exceeds max stack of " ++ Text.decimal max
  | .illegalOperand what t => what ++ " operand cannot be " ++ t.text
  | .illegalPair op l r => op.mnemonic ++ " cannot combine " ++ l.text ++ " and " ++ r.text
  | .notInstructionStart t => "control transfer to " ++ Text.label t ++ ", which is not an instruction start"
  | .emptyBody => "empty method body"
  | .slotOutOfRange what i => what ++ " " ++ Text.decimal i ++ " out of range"
  | .jumpWithOperands => "jmp requires an empty stack"
  | .returnWithOperands => "evaluation stack not empty on return"
  | .fallsOffEnd => "control falls through the end of the method"
  | .branchOutside => "branch target outside of method body"
  | .switchOutside => "switch target outside of method body"
  | .condition op ts => op.mnemonic ++ " on " ++ ts.text
  | .fieldOwner v => "field owner " ++ v.show names
  | .endFinallyOutside => "endfinally outside of a finally block"
  | .resumeOffset => "resume offset is not an instruction start"

/-- How the machine can find itself at odds with what was analyzed. -/
inductive Inconsistency where
  | noBody (method : String)
  | noVariableOperand
  | notBranch
  | effectDiffers (op : Opcode) (left : Nat) (expected : Int)
  | underflow
  | overflow
  | movedTop (op : Opcode)
  | untypedInstruction
  | handlerIndex
  | finallyIndex
  | returnedNothing (method : String)
  | noCallSite (index : Nat)
  | notCallSite (op : Opcode)
  | notVariable (slot : Nat)
  | frameLayout
  | savedTop (top offset : Nat)
  deriving DecidableEq, Repr, Inhabited

def Inconsistency.message : Inconsistency → String
  | .noBody m => m ++ " has no body"
  | .noVariableOperand => "instruction has no variable operand"
  | .notBranch => "instruction is not a branch"
  | .effectDiffers op l e => op.mnemonic ++ " left " ++ Text.decimal l ++ " slots, expected " ++ Text.decimalInt e
  | .underflow => "evaluation stack underflow"
  | .overflow => "evaluation stack overflow"
  | .movedTop op => op.mnemonic ++ " moved the stack top"
  | .untypedInstruction => "instruction has no type annotation"
  | .handlerIndex => "handler index out of range"
  | .finallyIndex => "finally index out of range"
  | .returnedNothing m => m ++ " returned no value"
  | .noCallSite i => "no call-site node " ++ Text.decimal i
  | .notCallSite op => op.mnemonic ++ " is not a call site"
  | .notVariable s => "slot " ++ Text.decimal s ++ " is neither an argument nor a local"
  | .frameLayout => "frame layout does not match the method"
  | .savedTop top offset =>
    "saved top " ++ Text.decimal top ++ " does not match the stack depth at " ++ Text.label offset

/-- What the machine does not do. -/
inductive Unsupported where
  | instruction (op : Opcode)
  | operands (op : Opcode) (types : OperandTypes)
  | conversion
  | pointerArithmetic (p : Pointer)
  | partialElement (bytes : Int) (size : Nat)
  | beforeArray
  | unrelatedPointers (p q : Pointer)
  | otherFrame (p : Pointer)
  | loadMethodPointer
  | storeMethodPointer
  | unmanagedPointer
  | fieldThrough (value : Value) (p : Pointer)
  | fieldUnmanaged
  | faultHandlers
  | filterHandlers
  | shortCallSite (length : Nat)
  | nativeMethod (name : String)
  /-- A failure that a host function reports in its own words. -/
  | host (text : String)
  deriving DecidableEq, Repr, Inhabited

def Unsupported.message (names : Ref → String) : Unsupported → String
  | .instruction op => op.mnemonic
  | .operands op ts => op.mnemonic ++ " on " ++ ts.text
  | .conversion => "conversion of object references and managed pointers"
  | .pointerArithmetic p => "arithmetic on " ++ p.show names ++ ", which does not point into an array"
  | .partialElement b s =>
    "offset of " ++ Text.decimalInt b ++ " bytes into elements of " ++ Text.decimal s ++ " bytes"
  | .beforeArray => "pointer before the start of an array"
  | .unrelatedPointers p q => "difference of unrelated pointers " ++ p.show names ++ " and " ++ q.show names
  | .otherFrame p => "access through " ++ p.show names ++ " from another frame"
  | .loadMethodPointer => "indirection through a method pointer"
  | .storeMethodPointer => "store through a method pointer"
  | .unmanagedPointer => "indirection through unmanaged pointers"
  | .fieldThrough v p => "field access on " ++ v.show names ++ " through " ++ p.show names
  | .fieldUnmanaged => "field access through unmanaged pointers"
  | .faultHandlers => "fault handlers"
  | .filterHandlers => "filter handlers"
  | .shortCallSite n => "call site of " ++ Text.decimal n ++ " bytes cannot hold a cache index"
  | .nativeMethod n => "native method " ++ n
  | .host t => t

/-- What is wrong with a slot that an instruction uses. -/
inductive SlotFault where
  /-- The frame has only `size` slots. -/
  | outside (size : Nat)
  | holds (expected : String) (value : Value)
  | unstorable (type : StackType) (kind : Kind)
  deriving DecidableEq, Repr, Inhabited

def SlotFault.message (names : Ref → String) : SlotFault → String
  | .outside n => "index past frame of " ++ Text.decimal n ++ " slots, expected a frame slot"
  | .holds expected v => v.show names ++ ", expected " ++ expected
  | .unstorable t k => t.text ++ " for " ++ k.text ++ ", expected a value storable in the slot's kind"

/-- A failure that no handler of the program sees. -/
inductive EngineError where
  | invalidProgram (offset : Nat) (defect : Defect)
  | unsupportedOpcode (opcode offset : Nat)
  | truncated (offset : Nat)
  | invalidState (offset : Nat) (cause : Inconsistency)
  | slotType (slot : Nat) (fault : SlotFault)
  | notImplemented (what : Unsupported)
  | resolution (e : ResolutionError)
  | rethrowOutside (offset : Nat)
  | stackOverflow (limit : Nat)
  | argumentCount (method : String) (expected actual : Nat)
  deriving DecidableEq, Repr, Inhabited

/-- The name of the sort of an error, by which reports tell errors apart. -/
def EngineError.name : EngineError → String
  | .invalidProgram .. => "InvalidProgram"
  | .unsupportedOpcode .. => "UnsupportedOpcode"
  | .truncated _ => "Truncated"
  | .invalidState .. => "InvalidAnalyzerState"
  | .slotType .. => "SlotType"
  | .notImplemented _ => "NotImplemented"
  | .resolution _ => "Resolution"
  | .rethrowOutside _ => "RethrowWithoutException"
  | .stackOverflow _ => "StackOverflow"
  | .argumentCount .. => "ArgumentCount"

/-- The text of an error, given how objects are shown. -/
def EngineError.message (names : Ref → String) : EngineError → String
  | .invalidProgram o d => "invalid program at " ++ Text.label o ++ ": " ++ d.message names
  | .unsupportedOpcode op o => "unsupported opcode 0x" ++ Text.hex 1 op ++ " at " ++ Text.label o
  | .truncated o => "truncated instruction at " ++ Text.label o
  | .invalidState o c => "invalid analyzer state at " ++ Text.label o ++ ": " ++ c.message
  | .slotType s f => "slot " ++ Text.decimal s ++ " holds " ++ f.message names
  | .notImplemented w => "not implemented: " ++ w.message names
  | .resolution e => "symbol resolution failed: " ++ e.message
  | .rethrowOutside o => "rethrow at " ++ Text.label o ++ " with no exception being handled"
  | .stackOverflow n => "call depth exceeded " ++ Text.decimal n
  | .argumentCount m e a =>
    m ++ " expects " ++ Text.decimal e ++ " arguments, got " ++ Text.decimal a

/-- What stops the machine for good. -/
inductive Abort where
  | error (e : EngineError)
  /-- A walk along a cyclic definition (a type among its own bases, a structure inside itself), which has no end. -/
  | endless
  /-- A number of the machine's own that no word counts. The process ends with it, and no handler and no report. -/
  | crash
  deriving DecidableEq, Repr, Inhabited

/-- What interrupts an instruction. -/
inductive Trap where
  /-- A fault that has no exception object yet. -/
  | fault (kind : FaultKind) (message : String)
  | thrown (e : GuestException)
  | abort (a : Abort)
  deriving DecidableEq, Repr, Inhabited

namespace Trap

/-- A fault with the message of its kind. -/
def ofKind (k : FaultKind) : Trap := .fault k k.message

def ofError (e : EngineError) : Trap := .abort (.error e)

end Trap

end ManagedCode
