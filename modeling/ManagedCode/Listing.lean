import ManagedCode.Builder
import ManagedCode.Metadata
import ManagedCode.Text.Quoted

/-!
# Listings

The textual form of a method body, one statement a line:

    .maxstack 2
    .locals i4
    loop:   ldloc.0
            ldc.i4.s 10
            blt.s loop      // a comment
            ret

A line may begin with a label. Symbols are named by their metadata: `System.Int32` for types, `Type::Name` for methods
and fields, a bare name for methods of the root class. Regions are written
`.try <start> <end> catch <Type> <start> <end>`, or with `finally` or `fault` and no type; their bounds are labels.
-/

namespace ManagedCode

/-- What is wrong with a line. -/
inductive SyntaxError where
  | invalidLabel (text : List Char)
  | unknownType (name : String)
  | unknownMethod (name : String)
  | unknownField (name : String)
  | unknownSymbol (name : String)
  | unknownOpcode (name : String)
  | invalidMaxStack (text : String)
  | unknownLocalKind (name : String)
  | unrecognizedDirective (text : String)
  | takesNoOperand (op : Opcode)
  | needsOperand (op : Opcode)
  | invalidInt32 (text : String)
  | invalidInt64 (text : String)
  | invalidFloat (text : String)
  | invalidIndex (text : String)
  | invalidString (text : String)
  | signatureOperand (op : Opcode)
  | switchParentheses
  | build (e : BuildError)
  deriving DecidableEq, Repr, Inhabited

def SyntaxError.message : SyntaxError → String
  | .invalidLabel t => "invalid label " ++ Text.quoted t
  | .unknownType n => "unknown type " ++ n
  | .unknownMethod n => "unknown method " ++ n
  | .unknownField n => "unknown field " ++ n
  | .unknownSymbol n => "unknown symbol " ++ n
  | .unknownOpcode n => "unknown opcode " ++ n
  | .invalidMaxStack t => "invalid .maxstack " ++ t
  | .unknownLocalKind n => "unknown local kind " ++ n
  | .unrecognizedDirective t => "unrecognized directive " ++ t
  | .takesNoOperand op => op.mnemonic ++ " takes no operand"
  | .needsOperand op => op.mnemonic ++ " needs a " ++ op.operand.text ++ " operand"
  | .invalidInt32 t => "invalid int32 " ++ t
  | .invalidInt64 t => "invalid int64 " ++ t
  | .invalidFloat t => "invalid float " ++ t
  | .invalidIndex t => "invalid index " ++ t
  | .invalidString t => "invalid string " ++ t
  | .signatureOperand op => op.mnemonic ++ ": signature operands are not supported"
  | .switchParentheses => "switch targets must be parenthesized"
  | .build e => e.message

/-- Why a listing does not assemble. -/
inductive AssembleError where
  | syntaxAt (line : Nat) (e : SyntaxError)
  /-- A failure of the finished body, which belongs to no line. -/
  | build (e : BuildError)
  deriving DecidableEq, Repr, Inhabited

/-- The name of the sort of an error, by which reports tell errors apart. -/
def AssembleError.name : AssembleError → String
  | .syntaxAt .. => "Syntax"
  | .build e => e.name

def AssembleError.message : AssembleError → String
  | .syntaxAt line e => "line " ++ Text.decimal line ++ ": " ++ e.message
  | .build e => e.message

namespace Listing

/-! ## Reading parts of a line -/

def isIdentifierStart (c : Char) : Bool := c.isAlpha || c == '_'

def isIdentifierRest (c : Char) : Bool := c.isAlphanum || c == '_' || c == '.'

def isIdentifier : List Char → Bool
  | [] => false
  | c :: cs => isIdentifierStart c && cs.all isIdentifierRest

/-- An integer of 64 bits, decimal or hexadecimal. A number without a sign may also be one of the upper half of the
unsigned range, and then stands for the integer with the same bits. -/
def readInteger? (cs : List Char) : Option Int :=
  let (negative, digits) := match cs with
    | '-' :: rest => (true, rest)
    | _ => (false, cs)
  let magnitude := match digits with
    | '0' :: 'x' :: rest | '0' :: 'X' :: rest => Text.readUnsigned 16 (2 ^ 64) rest
    | _ => Text.readUnsigned 10 (2 ^ 64) digits
  magnitude.bind fun m =>
    if negative then (if m ≤ 2 ^ 63 then some (-(m : Int)) else none)
    else some (BitVec.ofNat 64 m).toInt

/-- Cuts off a comment, which starts at two slashes outside of a string literal. -/
def stripComment (inString escaped : Bool) : List Char → List Char
  | [] => []
  | c :: cs =>
    if escaped then c :: stripComment inString false cs
    else if c == '\\' && inString then c :: stripComment inString true cs
    else if c == '"' then c :: stripComment (!inString) false cs
    else if c == '/' && !inString && cs.head? == some '/' then []
    else c :: stripComment inString false cs

/-- The text before the last `::` and the text after it. -/
def cutMember? (cs : List Char) : Option (List Char × List Char) := go cs.reverse []
where
  /-- Walks the text from its end; `name` is what has been passed. -/
  go : List Char → List Char → Option (List Char × List Char)
    | ':' :: ':' :: rest, name => some (rest.reverse, name)
    | c :: rest, name => go rest (c :: name)
    | [], _ => none

/-- Short names of the primitive types. -/
def typeAliases : List (String × String) :=
  [("object", "System.Object"), ("string", "System.String"), ("bool", "System.Boolean"), ("char", "System.Char"),
   ("int8", "System.SByte"), ("uint8", "System.Byte"), ("int16", "System.Int16"), ("uint16", "System.UInt16"),
   ("int32", "System.Int32"), ("uint32", "System.UInt32"), ("int64", "System.Int64"), ("uint64", "System.UInt64"),
   ("native int", "System.IntPtr"), ("float32", "System.Single"), ("float64", "System.Double")]

/-- The parts of a text between commas, without blanks around them; empty parts do not count. -/
def commaParts (cs : List Char) : List (List Char) :=
  ((Text.splitOn (· == ',') cs).map Text.trim).filter (!·.isEmpty)

/-- The inside of a text in parentheses. -/
def parenthesized? : List Char → Option (List Char)
  | '(' :: rest => if rest.getLast? = some ')' then some rest.dropLast else none
  | _ => none

/-! ## Names -/

def typeNamed (md : Metadata) (cs : List Char) : Except SyntaxError Token :=
  let name := String.ofList cs
  let name := (typeAliases.lookup name).getD name
  match md.typeNamed? name with
  | some t => .ok t.handle.token
  | none => .error (.unknownType name)

/-- The type and the name of a member. -/
def member (cs : List Char) : String × String :=
  match cutMember? cs with
  | some (type, name) => (String.ofList type, String.ofList name)
  | none => ("System.Object", String.ofList cs)

def methodNamed (md : Metadata) (cs : List Char) : Except SyntaxError Token :=
  let (type, name) := member cs
  match md.methodNamed? type name with
  | some m => .ok m.handle.token
  | none => .error (.unknownMethod (String.ofList cs))

def fieldNamed (md : Metadata) (cs : List Char) : Except SyntaxError Token :=
  let (type, name) := member cs
  match md.fieldNamed? type name with
  | some f => .ok f.handle.token
  | none => .error (.unknownField (String.ofList cs))

/-- A type, a method or a field, in that order. -/
def symbolNamed (md : Metadata) (cs : List Char) : Except SyntaxError Token :=
  match typeNamed md cs with
  | .ok t => .ok t
  | .error _ =>
    match methodNamed md cs with
    | .ok t => .ok t
    | .error _ =>
      match fieldNamed md cs with
      | .ok t => .ok t
      | .error _ => .error (.unknownSymbol (String.ofList cs))

/-! ## Statements -/

/-- What assembling a line changes: the body under construction, and the strings of the program. -/
structure State where
  builder : Builder
  metadata : Metadata

abbrev ListingM := ExceptT SyntaxError (StateM State)

/-- A step of the builder. -/
def building (step : BuilderM α) : ListingM α := do
  let s ← get
  let (result, builder) := step.run s.builder
  set { s with builder }
  match result with
  | .ok a => return a
  | .error e => throw (.build e)

/-- A name that resolves to a token. -/
def naming (find : Metadata → List Char → Except SyntaxError Token) (cs : List Char) : ListingM Token := do
  match find (← get).metadata cs with
  | .ok t => return t
  | .error e => throw e

/-- A value that was read, or an error. -/
def reading (value : Option α) (e : SyntaxError) : ListingM α :=
  match value with
  | some a => return a
  | none => throw e

/-- The label with a name, which is added when it is first used. -/
def label (cs : List Char) : ListingM Label := do
  if !isIdentifier cs then throw (.invalidLabel cs)
  let name := String.ofList cs
  match (← get).builder.names.findIdx? (· == name) with
  | some i => return ⟨i⟩
  | none => building (Builder.defineNamed name)

/-- Emits an instruction with the operand that follows it. -/
def instruction (op : Opcode) (operand : List Char) : ListingM Unit := do
  let text := String.ofList operand
  if op.operand = .none then
    if !operand.isEmpty then throw (.takesNoOperand op)
    building (Builder.emit op)
  else if operand.isEmpty then throw (.needsOperand op)
  else
    match op.operand with
    | .none => return
    | .shortBranch | .branch =>
      let target ← label operand
      building (Builder.emitBranch op target)
    | .shortInt | .int =>
      let number := (readInteger? operand).filter fun n => decide (-2 ^ 31 ≤ n ∧ n < 2 ^ 32)
      let value ← reading number (.invalidInt32 text)
      building (Builder.emitInt op (BitVec.ofInt 32 value))
    | .long =>
      let value ← reading (readInteger? operand) (.invalidInt64 text)
      building (Builder.emitLong op (BitVec.ofInt 64 value))
    | .shortReal | .real =>
      let value ← reading (Double.parse? operand) (.invalidFloat text)
      building (Builder.emitReal op value)
    | .shortVariable | .variable =>
      let index ← reading (Text.readUnsigned 10 (2 ^ 16) operand) (.invalidIndex text)
      building (Builder.emitSlot op (BitVec.ofNat 16 index))
    | .string =>
      let value ← reading (Text.readLiteral operand) (.invalidString text)
      let token ← modifyGet fun s =>
        let (token, metadata) := s.metadata.defineString (String.ofList value)
        (token, { s with metadata })
      building (Builder.emitToken op token)
    | .method =>
      let token ← naming methodNamed operand
      building (Builder.emitToken op token)
    | .field =>
      let token ← naming fieldNamed operand
      building (Builder.emitToken op token)
    | .type =>
      let token ← naming typeNamed operand
      building (Builder.emitToken op token)
    | .token =>
      let token ← naming symbolNamed operand
      building (Builder.emitToken op token)
    | .signature => throw (.signatureOperand op)
    | .switch =>
      let inner ← reading (parenthesized? operand) .switchParentheses
      let targets ← (commaParts inner).mapM label
      building (Builder.emitSwitch targets)

/-- Declares the region between four labels. -/
def region (kind : RegionKind) (bounds : List Char × List Char × List Char × List Char) : ListingM Unit := do
  let (tryStart, tryEnd, handlerStart, handlerEnd) := bounds
  let a ← label tryStart
  let b ← label tryEnd
  let c ← label handlerStart
  let d ← label handlerEnd
  building (Builder.addRegion ⟨(a, b), (c, d), kind⟩)

/-- The word of a directive. -/
def word (s : String) : List Char := s.toList

def directive (cs : List Char) : ListingM Unit := do
  match Text.words cs with
  | [w, n] =>
    if w = word ".maxstack" then
      let n ← reading (Text.readUnsigned 10 (2 ^ 16) n) (.invalidMaxStack (String.ofList n))
      building (Builder.setMaxStack n)
    else locals w
  | [w, a, b, k, c, d] =>
    if w = word ".try" ∧ k = word "finally" then region .finallyBlock (a, b, c, d)
    else if w = word ".try" ∧ k = word "fault" then region .faultBlock (a, b, c, d)
    else locals w
  | [w, a, b, k, type, c, d] =>
    if w = word ".try" ∧ k = word "catch" then
      let token ← naming typeNamed type
      region (.catchType token) (a, b, c, d)
    else locals w
  | w :: _ => locals w
  | [] => throw (.unrecognizedDirective (String.ofList cs))
where
  /-- The kinds of the locals; any other directive is none. -/
  locals (w : List Char) : ListingM Unit := do
    if w = word ".locals" then
      let kinds ← (commaParts (cs.drop w.length)).mapM fun k =>
        let name := String.ofList k
        reading (Kind.ofName? name) (.unknownLocalKind name)
      building (Builder.setLocals kinds)
    else throw (.unrecognizedDirective (String.ofList cs))

/-- Marks the label at the front of a statement and gives the rest. A double colon belongs to a member, not to a
label. -/
def leadingLabel (cs : List Char) : ListingM (List Char) := do
  match Text.cutAt ':' cs with
  | some (head, tail) =>
    let name := Text.trim head
    if tail.head? != some ':' && isIdentifier name then
      let l ← label name
      building (Builder.mark l)
      return Text.trim tail
    else return cs
  | none => return cs

def statement (cs : List Char) : ListingM Unit := do
  let rest ← leadingLabel (Text.trim cs)
  match rest with
  | [] => return
  | '.' :: _ => directive rest
  | _ =>
    let mnemonic := rest.takeWhile (!Text.isBlank ·)
    let operand := Text.trim (rest.dropWhile (!Text.isBlank ·))
    match Opcode.ofMnemonic? (String.ofList mnemonic) with
    | some op => instruction op operand
    | none => throw (.unknownOpcode (String.ofList mnemonic))

/-- Assembles lines, the first of which has the given number. -/
def assembleLines (number : Nat) : List (List Char) → ExceptT AssembleError (StateM State) Unit
  | [] => return
  | line :: rest => do
    let s ← get
    let (result, s) := ((statement (stripComment false false line)).run).run s
    set s
    match result with
    | .ok () => assembleLines (number + 1) rest
    | .error e => throw (.syntaxAt number e)

end Listing

/-- Assembles a listing. String literals are added to the program's strings, also by a listing that fails further on. -/
def assemble (md : Metadata) (source : String) : Except AssembleError Body × Metadata :=
  let (result, s) := ((Listing.assembleLines 1 (Text.lines source.toList)).run).run ⟨{}, md⟩
  match result with
  | .error e => (.error e, s.metadata)
  | .ok () => (s.builder.build.mapError .build, s.metadata)

end ManagedCode
