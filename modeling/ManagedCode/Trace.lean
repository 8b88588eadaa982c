import ManagedCode.Text.Numeral

/-!
# Execution traces

One line for every instruction, call, return, exception, branch and message, indented by the depth of calls. Lines go
through a buffer of 64 KiB: what is written reaches the sink when the buffer has no room, when enough lines have been
written, or when the trace is flushed. A line is written piece by piece, so it may reach the sink in parts.
-/

namespace ManagedCode

/-- The sorts of lines, which are counted separately. -/
inductive TraceEvent where
  | message
  | instruction
  | call
  | returned
  | exception
  | branch
  deriving DecidableEq, Repr, Inhabited

namespace TraceEvent

def all : List TraceEvent := [.message, .instruction, .call, .returned, .exception, .branch]

/-- The name of a sort in the summary. -/
def text : TraceEvent → String
  | .message => "messages"
  | .instruction => "instructions"
  | .call => "calls"
  | .returned => "returns"
  | .exception => "exceptions"
  | .branch => "branches"

end TraceEvent

/-- A trace with its buffer. -/
structure Trace where
  enabled : Bool := false
  /-- What has reached the sink. -/
  delivered : String := ""
  buffer : String := ""
  /-- The lines since the last flush. -/
  pending : Nat := 0
  /-- The lines after which the buffer is flushed. -/
  interval : Nat := 10000
  /-- The lines so far, of each sort. -/
  counts : List (TraceEvent × Nat) := TraceEvent.all.map (·, 0)
  deriving Repr, Inhabited

namespace Trace

/-- The bytes that the buffer holds. -/
def capacity : Nat := 65536

/-- The lines so far of one sort. -/
def count (t : Trace) (e : TraceEvent) : Nat := (t.counts.lookup e).getD 0

def total (t : Trace) : Nat := (t.counts.map (·.2)).sum

def drain (t : Trace) : Trace := { t with delivered := t.delivered ++ t.buffer, buffer := "" }

/-- Writes a piece of text: into the buffer, which is drained before a piece that does not fit, or past it when the
piece is as large as the buffer. -/
def write (t : Trace) (s : String) : Trace :=
  let t := if capacity - t.buffer.utf8ByteSize < s.utf8ByteSize then t.drain else t
  if capacity ≤ s.utf8ByteSize then { t with delivered := t.delivered ++ s } else { t with buffer := t.buffer ++ s }

def flush (t : Trace) : Trace := { t.drain with pending := 0 }

/-- Writes a line of the given pieces. -/
def line (t : Trace) (e : TraceEvent) (indent : Nat) (pieces : List String) : Trace :=
  if t.enabled then
    let written : Trace := (List.replicate (2 * indent) " " ++ pieces ++ ["\n"]).foldl write t
    let counted : Trace := { written with
      counts := written.counts.map fun (f, n) => if f = e then (f, n + 1) else (f, n)
      pending := written.pending + 1 }
    if counted.interval ≤ counted.pending then counted.flush else counted
  else t

def message (t : Trace) (indent : Nat) (pieces : List String) : Trace := t.line .message indent pieces

def error (t : Trace) (indent : Nat) (pieces : List String) : Trace := t.line .message indent ("[ERROR] " :: pieces)

def instruction (t : Trace) (indent pc : Nat) (mnemonic : String) : Trace :=
  t.line .instruction indent [Text.label pc, ": ", mnemonic]

/-- Enters a method; an empty signature is not written. -/
def entry (t : Trace) (indent : Nat) (name signature : String) : Trace :=
  t.line .call indent (if signature = "" then ["-> ", name] else ["-> ", name, " ", signature])

def exit (t : Trace) (indent : Nat) (name : String) : Trace := t.line .returned indent ["<- ", name]

def exception (t : Trace) (indent : Nat) (text : String) (pc : Nat) : Trace :=
  t.line .exception indent ["!! ", text, " at ", Text.label pc]

def branch (t : Trace) (indent : Nat) (mnemonic : String) (target : Nat) (taken : Bool) : Trace :=
  t.line .branch indent [mnemonic, " ", Text.label target, " (", if taken then "taken" else "not taken", ")"]

/-- The summary of the counts. -/
def summary (t : Trace) : List String :=
  "trace summary:" :: TraceEvent.all.map fun e =>
    "  " ++ e.text ++ Text.padLeft 12 ' ' (Text.decimal (t.count e))

end Trace

end ManagedCode
