import ManagedCode.Text.Quoted
import ManagedCode.Value

/-!
# Arguments on the command line

An argument is written `kind:value`, for instance `i4:5` or `r8:1.5`. An integer is narrowed to its kind without
complaint; the only object that can be written is `null`.
-/

namespace ManagedCode

/-- Why an argument cannot be read. -/
inductive ArgumentError where
  | noColon (text : String)
  | unknownKind (name : String)
  | invalidValue (kind : Kind) (text : String)
  | unsupportedKind (kind : Kind)
  | cannotHold (kind : Kind) (text : String)
  deriving DecidableEq, Repr, Inhabited

def ArgumentError.message : ArgumentError → String
  | .noColon t => "argument " ++ Text.quoted t.toList ++ " is not of the form kind:value"
  | .unknownKind n => "unknown kind " ++ Text.quoted n.toList
  | .invalidValue k t => "invalid " ++ k.text ++ " value " ++ Text.quoted t.toList
  | .unsupportedKind k => k.text ++ " arguments are not supported"
  | .cannotHold k t => k.text ++ " cannot hold " ++ t

def Kind.read (name : String) : Except ArgumentError Kind :=
  match Kind.ofName? name with
  | some k => .ok k
  | none => .error (.unknownKind name)

namespace Argument

/-- The value that a text denotes on the evaluation stack, before it is narrowed to a kind. -/
def readValue (k : Kind) (cs : List Char) : Except ArgumentError Value :=
  let word : Option (BitVec 64) := (Text.readSigned 10 64 cs).map (BitVec.ofInt 64)
  let valid : Option Value → Except ArgumentError Value
    | some v => .ok v
    | none => .error (.invalidValue k (String.ofList cs))
  match k.stackType with
  | .int32 => valid (word.map fun w => .int32 (w.truncate 32))
  | .int64 => valid (word.map .int64)
  | .nativeInt => valid (word.map .nativeInt)
  | .float => valid ((Double.parse? cs).map .float)
  | .object => if cs = "null".toList then .ok .null else .error (.unsupportedKind k)
  | .pointer => .error (.unsupportedKind k)

def read (text : String) : Except ArgumentError (Kind × Value) := do
  match Text.cutAt ':' text.toList with
  | none => throw (.noColon text)
  | some (name, value) =>
    let k ← Kind.read (String.ofList name)
    let v ← readValue k value
    match k.coerce v with
    | some w => return (k, w)
    | none => throw (.cannotHold k (String.ofList value))

end Argument

end ManagedCode
