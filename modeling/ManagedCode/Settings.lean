import ManagedCode.Text.Numeral

/-!
# Settings

What can be tuned about the machine, and how the environment sets it. A variable that is missing or not well formed
leaves the default.
-/

namespace ManagedCode

/-- The variables of the environment that are set. -/
abbrev Environment := List (String × String)

namespace Environment

/-- Whether a variable is `1` or `true` in any case. -/
def flag (env : Environment) (name : String) : Bool :=
  match env.lookup name with
  | some v => v == "1" || String.ofList (v.toList.map Char.toLower) == "true"
  | none => false

/-- The number that a variable holds, without the blanks around it. -/
def number (env : Environment) (name : String) (read : List Char → Option α) (default : α) : α :=
  ((env.lookup name).bind fun v => read (Text.trim v.toList)).getD default

end Environment

/-- What can be tuned. -/
structure Settings where
  /-- The backward jumps of one activation after which the machine takes note; zero means never. -/
  osrThreshold : Nat := 10000
  /-- How deep calls may nest. -/
  maxCallDepth : Nat := 1024
  /-- Whether every instruction is traced. -/
  traceInstructions : Bool := false
  deriving DecidableEq, Repr, Inhabited

def Settings.ofEnvironment (env : Environment) : Settings :=
  let size := Text.readUnsigned 10 (2 ^ 64)
  { osrThreshold := env.number "CIL_VM_OSR_THRESHOLD" size 10000
    maxCallDepth := env.number "CIL_VM_MAX_CALL_DEPTH" size 1024
    traceInstructions := env.flag "CIL_VM_TRACE_INSTRUCTIONS" }

/-- Where the lines of a trace go. -/
inductive Sink where
  | stdout
  | stderr
  | file (path : String)
  deriving DecidableEq, Repr, Inhabited

/-- What the environment says about the trace. -/
structure Tracing where
  /-- Where it goes; without a sink there is no trace. -/
  sink : Option Sink
  /-- The lines after which the buffer is flushed. -/
  interval : Nat
  /-- Whether its counts are summed up at the end. -/
  summarize : Bool
  deriving DecidableEq, Repr, Inhabited

/-- The sink that a variable names; any text that is no stream is a path. -/
def Sink.named? (s : String) : Option Sink :=
  if s = "" then none
  else if s = "1" ∨ s = "true" ∨ s = "stdout" then some .stdout
  else if s = "stderr" then some .stderr
  else some (.file s)

/-- The trace of an environment. The buffer is flushed after one line at the earliest. -/
def Tracing.ofEnvironment (env : Environment) : Tracing :=
  { sink := (env.lookup "CIL_VM_TRACE").bind Sink.named?
    interval := max 1 (env.number "CIL_VM_TRACE_FLUSH_INTERVAL" (Text.readUnsigned 10 (2 ^ 64)) 10000)
    summarize := env.flag "CIL_VM_TRACE_STATS" }

end ManagedCode
