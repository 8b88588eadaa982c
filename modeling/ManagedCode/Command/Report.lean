import ManagedCode.Command.Argument
import ManagedCode.Command.Options
import ManagedCode.Listing
import ManagedCode.Machine.Step

/-!
# Commands

What each command prints and the code it ends with, as a function of its options, the environment and the files it can
read. Everything that is written goes into a `Report` in the order in which it is written; the trace is buffered, so
its lines may come after what is printed later.
-/

namespace ManagedCode

/-- Why a file cannot be read. -/
inductive ReadError where
  | missing
  | isDirectory
  /-- The file is no text. -/
  | notText
  /-- Any other cause, in the words of the system. -/
  | other (text : String)
  deriving DecidableEq, Repr, Inhabited

def ReadError.message : ReadError → String
  | .missing => "No such file or directory (os error 2)"
  | .isDirectory => "Is a directory (os error 21)"
  | .notText => "stream did not contain valid UTF-8"
  | .other t => t

/-- The files that a command can read. -/
abbrev Files := String → Except ReadError ByteArray

/-- Why a command ends before it does its work. -/
inductive CommandError where
  | argument (e : ArgumentError)
  | read (path : String) (e : ReadError)
  | assemble (path : String) (e : AssembleError)
  | resolution (e : ResolutionError)
  | engine (e : EngineError)
  deriving DecidableEq, Repr, Inhabited

/-- The text of an error. There are no objects before a program runs. -/
def CommandError.message : CommandError → String
  | .argument e => e.message
  | .read path e => "cannot read " ++ path ++ ": " ++ e.message
  | .assemble path e => path ++ ": " ++ e.message
  | .resolution e => e.message
  | .engine e => e.message fun _ => ""

/-- What a command did: the code it ended with and what it wrote. -/
structure Report where
  code : Nat := 0
  stdout : String := ""
  stderr : String := ""
  /-- The path and the text of the trace file. -/
  file : Option (String × String) := none
  deriving DecidableEq, Repr, Inhabited

namespace Report

def print (r : Report) (line : String) : Report := { r with stdout := r.stdout ++ line ++ "\n" }

def complain (r : Report) (line : String) : Report := { r with stderr := r.stderr ++ line ++ "\n" }

def exit (r : Report) (code : Nat) : Report := { r with code }

/-- Writes a text to a sink. -/
def deliver (r : Report) (text : String) : Sink → Report
  | .stdout => { r with stdout := r.stdout ++ text }
  | .stderr => { r with stderr := r.stderr ++ text }
  | .file path => { r with file := some (path, ((r.file.map (·.2)).getD "") ++ text) }

/-- The code for an exception that no handler caught. -/
def unhandledCode : Nat := 1

/-- The code for everything that is not the program's fault. -/
def failureCode : Nat := 2

def fail (r : Report) (e : CommandError) : Report := (r.complain ("error: " ++ e.message)).exit failureCode

end Report

namespace Command

/-! ## Programs -/

/-- A program of one method. -/
structure Program where
  metadata : Metadata
  method : MethodSymbol
  deriving Inhabited

def readKinds (names : List String) : Except CommandError (List Kind) :=
  (names.mapM Kind.read).mapError .argument

def readResult (name : Option String) : Except CommandError (Option Kind) :=
  (name.mapM Kind.read).mapError .argument

/-- The kinds in a list of names with blanks around them. An unknown name is told as `shown` gives it. -/
def readTrimmed (shown : String → String) (names : List String) : Except CommandError (List Kind) :=
  names.mapM fun n =>
    match Kind.ofName? (String.ofList (Text.trim n.toList)) with
    | some k => .ok k
    | none => .error (.argument (.unknownKind (shown n)))

def readBytes (files : Files) (path : String) : Except CommandError ByteArray :=
  (files path).mapError (.read path)

def readText (files : Files) (path : String) : Except CommandError String := do
  match String.fromUTF8? (← readBytes files path) with
  | some s => return s
  | none => throw (.read path .notText)

/-- Gives the method with a token its body. -/
def finish (md : Metadata) (token : Token) (body : Body) : Except CommandError Program := do
  let md ← (md.defineBody token body).mapError .resolution
  let method ← (md.resolveMethod token).mapError .resolution
  return ⟨md, method⟩

/-- Assembles a listing as the method `main`, which is declared first so that it can call itself. -/
def load (files : Files) (path : String) (parameters : List Kind) (result : Option Kind) (locals : Option (List Kind)) :
    Except CommandError Program := do
  let text ← readText files path
  let (token, md) := Metadata.core.declareMethod Core.object.token "main" { parameters, result } false
  let (assembled, md) := assemble md text
  let body ← assembled.mapError (.assemble path)
  finish md token { body with locals := locals.getD body.locals }

/-! ## Running -/

/-- The program, the arguments and the settings of a run. -/
def prepareRun (env : Environment) (files : Files) (o : RunOptions) :
    Except CommandError (Program × List Value × Settings) := do
  let arguments ← (o.arguments.mapM Argument.read).mapError .argument
  let result ← readResult o.returns
  let locals ← o.locals.mapM (readTrimmed fun n => String.ofList (Text.trim n.toList))
  let program ← load files o.source (arguments.map (·.1)) result locals
  let settings := Settings.ofEnvironment env
  return (program, arguments.map (·.2),
    { osrThreshold := o.osrThreshold.getD settings.osrThreshold
      maxCallDepth := o.maxCallDepth.getD settings.maxCallDepth, traceInstructions := o.trace })

def valueText (h : Heap) : Value → String
  | .int32 n => Text.decimalInt n.toInt
  | .int64 n | .nativeInt n => Text.decimalInt n.toInt
  | .float x => x.text
  | .object r => (h.stringOf? r).getD (Ref.show h.nameOf r)
  | .pointer p => p.show h.nameOf

/-- Writes how a run ended. A run that is endless, or ends the process, has no report. -/
def reportOutcome (r : Report) (h : Heap) : Outcome → Option Report
  | .ok none => some r
  | .ok (some v) => some (r.print (valueText h v))
  | .error (.guest e) =>
    some ((r.complain ("Unhandled exception. " ++ e.text h.nameOf)).exit Report.unhandledCode)
  | .error (.abort (.error e)) =>
    some ((r.complain ("Internal VM error: " ++ e.message h.nameOf)).exit Report.failureCode)
  | .error (.abort .endless) => none
  | .error (.abort .crash) => none

/-- Ends a trace: its summary is written, and then what was still in the buffer. -/
def endTrace (r : Report) (t : Tracing) (trace : Trace) : Report :=
  match t.sink with
  | none => r
  | some sink =>
    let summed := if t.summarize then trace.summary.foldl Report.complain r else r
    summed.deliver trace.buffer sink

/-- The trace that `--trace` asks for. -/
def instructionTracing : Tracing := ⟨some .stderr, 10000, false⟩

/-- The trace of a run, and what is written before the run: the trace of the environment gives way to the one that
`--trace` asks for, and ends at once. -/
def beginTrace (env : Environment) (instructions : Bool) : Report × Tracing :=
  let t := Tracing.ofEnvironment env
  if instructions then (endTrace {} t {}, instructionTracing)
  else (((t.sink.map (({} : Report).deliver ""))).getD {}, t)

def runProgram (fuel : Nat) (r : Report) (t : Tracing) (program : Program) (arguments : List Value)
    (settings : Settings) : Option Report := do
  let trace : Trace := { enabled := t.sink.isSome, interval := t.interval }
  let m := Machine.make program.metadata none settings trace
  let (outcome, m) ← m.execute fuel program.method arguments
  let r := (t.sink.map (r.deliver m.trace.delivered)).getD r
  let r ← reportOutcome r m.heap outcome
  return endTrace r t m.trace

def reportRun (fuel : Nat) (env : Environment) (files : Files) (o : RunOptions) : Option Report :=
  match prepareRun env files o with
  | .error e => some (({} : Report).fail e)
  | .ok (program, arguments, settings) =>
    let (r, t) := beginTrace env o.trace
    runProgram fuel r t program arguments settings

/-! ## Looking at code -/

/-- What the analysis finds out about a listing. -/
def findings (files : Files) (o : AnalyzeOptions) : Except CommandError (List (Nat × OperandTypes)) := do
  let parameters ← readKinds o.arguments
  let result ← readResult o.returns
  let program ← load files o.source parameters result none
  let analysis ← (ManagedCode.analyze program.metadata program.method).1.mapError .engine
  return analysis.annotations

/-- Prints the operand types of every instruction that has some. -/
def reportAnalysis (files : Files) (o : AnalyzeOptions) : Report :=
  match findings files o with
  | .error e => ({} : Report).fail e
  | .ok found => found.foldl (fun r (pc, types) => r.print (Text.label pc ++ "\t" ++ types.name)) {}

def operandText (c : Code) (pc : Nat) : Except EngineError String := do
  match (← c.opcodeAt pc).operand with
  | .none => return ""
  | .shortBranch | .branch => return Text.label (← c.branchTarget pc)
  | .switch => return "(" ++ ", ".intercalate ((← c.switchTargets pc).map Text.label) ++ ")"
  | .shortInt => return Text.decimalInt (← c.word 8 pc).toInt
  | .int => return Text.decimalInt (← c.word 32 pc).toInt
  | .long => return Text.decimalInt (← c.word 64 pc).toInt
  | .shortReal => return Double.singleText (← c.word 32 pc)
  | .real => return (⟨← c.word 64 pc⟩ : Double).text
  | .shortVariable | .variable => return Text.decimal (← c.slotIndex pc)
  | .method | .field | .type | .token | .string | .signature => return (← c.token pc).text

def instructionLine (c : Code) (a : MethodAnalysis) (pc : Nat) (op : Opcode) : Except EngineError String := do
  let operand ← operandText c pc
  let depth := ((a.depth? pc).map Text.decimal).getD "-"
  let types := ((a.operandTypes? pc).map (·.text)).getD ""
  return Text.label pc ++ ": " ++ Text.padRight 12 op.mnemonic ++ " " ++ Text.padRight 16 operand ++ " depth "
    ++ Text.padRight 3 depth ++ " " ++ types

/-- Prints the lines about instructions, up to the first that cannot be read. -/
def printInstructions (c : Code) (a : MethodAnalysis) (r : Report) : List (Nat × Opcode × Nat) → Report
  | [] => r
  | (pc, op, _) :: rest =>
    match instructionLine c a pc op with
    | .ok line => printInstructions c a (r.print line) rest
    | .error e => r.fail (.engine e)

/-- Raw code with what the analysis finds out about it. -/
def examine (files : Files) (o : DumpOptions) : Except CommandError (Code × MethodAnalysis) := do
  let bytes ← readBytes files o.source
  let result ← readResult o.returns
  let locals ← readTrimmed id o.locals
  let parameters ← readTrimmed id o.arguments
  let (token, md) := Metadata.core.defineMethod "dump" { parameters, result } ⟨bytes.data, o.maxStack, locals, []⟩
  let method ← (token.bind md.resolveMethod).mapError .resolution
  let analysis ← (ManagedCode.analyze md method).1.mapError .engine
  return (⟨bytes.data⟩, analysis)

/-- Prints the instructions of raw code with the heights of the stack and the types of the operands. -/
def reportDump (files : Files) (o : DumpOptions) : Report :=
  match examine files o with
  | .error e => ({} : Report).fail e
  | .ok (code, analysis) =>
    let (instructions, stop) := code.walk
    let r := printInstructions code analysis {} instructions
    match stop with
    | some e => if r.code = 0 then r.fail (.engine e) else r
    | none => r

/-- Carries a command out. A program that takes more than `fuel` steps has no report. -/
def execute (fuel : Nat) (env : Environment) (files : Files) : Command → Option Report
  | .run o => reportRun fuel env files o
  | .analyze o => some (reportAnalysis files o)
  | .dump o => some (reportDump files o)

end Command

end ManagedCode
