import ManagedCode.Machine.State

/-!
# Descriptions

One line about a machine, its heap, a method that is ready to run or a piece of code, for a person who looks into a
machine.
-/

namespace ManagedCode

namespace Text

/-- A name with named parts in braces. -/
def record (name : String) (parts : List (String × String)) : String :=
  name ++ " \x7b " ++ ", ".intercalate (parts.map fun (k, v) => k ++ ": " ++ v) ++ " \x7d"

/-- A name with named parts in braces, of which not all are shown. -/
def openRecord (name : String) (parts : List (String × String)) : String :=
  name ++ " \x7b " ++ String.join (parts.map fun (k, v) => k ++ ": " ++ v ++ ", ") ++ ".. \x7d"

/-- A number that may be missing. -/
def optionalNumber : Option Nat → String
  | none => "None"
  | some n => "Some(" ++ decimal n ++ ")"

end Text

def Settings.describe (s : Settings) : String :=
  Text.record "EngineConfig"
    [("osr_threshold", Text.decimal s.osrThreshold), ("max_call_depth", Text.decimal s.maxCallDepth),
     ("trace_instructions", if s.traceInstructions then "true" else "false")]

def Metrics.describe (m : Metrics) : String :=
  Text.record "RuntimeMetrics" (Metrics.names.zip (m.toList.map Text.decimal))

def Layout.describe (l : Layout) : String :=
  Text.record "FrameLayout"
    [("arguments", Text.decimal l.arguments), ("locals", Text.decimal l.locals), ("max_stack", Text.decimal l.maxStack)]

def Heap.describe (h : Heap) : String :=
  Text.record "Heap" [("allocated", Text.decimal h.allocated), ("limit", Text.optionalNumber h.limit)]

def Code.describe (c : Code) : String := "BytecodeBuffer(" ++ Text.decimal c.size ++ " bytes)"

def Prepared.describe (p : Prepared) : String :=
  Text.record "PreparedMethod"
    [("symbol", p.symbol.text), ("layout", p.layout.describe), ("regions", Text.decimal p.regions.entries.length),
     ("call_sites", Text.decimal p.callSites.size)]

def Machine.describe (m : Machine) : String :=
  Text.openRecord "Engine"
    [("config", m.settings.describe), ("prepared", Text.decimal m.prepared.length), ("metrics", m.metrics.describe)]

end ManagedCode
