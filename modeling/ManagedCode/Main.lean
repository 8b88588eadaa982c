import ManagedCode.Command.Report

/-!
# The command line

Reads the environment and the files of a command, carries it out and writes what it reports.
-/

namespace ManagedCode

/-- The variables that commands look at. -/
def variableNames : List String :=
  ["CIL_VM_OSR_THRESHOLD", "CIL_VM_MAX_CALL_DEPTH", "CIL_VM_TRACE_INSTRUCTIONS", "CIL_VM_TRACE",
   "CIL_VM_TRACE_FLUSH_INTERVAL", "CIL_VM_TRACE_STATS"]

def readEnvironment : IO Environment :=
  variableNames.filterMapM fun name => do
    return (← IO.getEnv name).map (name, ·)

def readError : IO.Error → ReadError
  | .noFileOrDirectory .. => .missing
  | .inappropriateType .. => .isDirectory
  | e => .other (toString e)

def readFiles (path : String) : IO Files := do
  let content ← (IO.FS.readBinFile path).toBaseIO
  return fun _ => content.mapError readError

/-- The steps that a run may take: more than can be waited for. -/
def patience : Nat := 2 ^ 62

def Command.source : Command → String
  | .run o => o.source
  | .analyze o => o.source
  | .dump o => o.source

def writeReport (r : Report) : IO UInt32 := do
  IO.print r.stdout
  IO.eprint r.stderr
  match r.file with
  | some (path, text) => IO.FS.writeFile path text
  | none => pure ()
  return UInt32.ofNat r.code

end ManagedCode

def main (words : List String) : IO UInt32 := do
  match ManagedCode.Command.read? words with
  | none =>
    IO.eprintln "usage: run FILE | analyze FILE | dump FILE, with options"
    return 2
  | some command =>
    let env ← ManagedCode.readEnvironment
    let files ← ManagedCode.readFiles command.source
    match command.execute ManagedCode.patience env files with
    | some report => ManagedCode.writeReport report
    | none => return 3
