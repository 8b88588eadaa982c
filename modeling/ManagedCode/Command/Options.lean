import ManagedCode.Text.Numeral

/-!
# Options on the command line

The words of a command are options with a value, `--name value` or `--name=value`, flags, and the other words. `--`
ends the options. An option that takes a list is split at commas, and its repetitions add up.
-/

namespace ManagedCode

/-- The words of a command, sorted. -/
structure Words where
  /-- Options with their values, in order. -/
  options : List (String × String) := []
  flags : List String := []
  /-- The words that belong to no option. -/
  free : List String := []
  deriving DecidableEq, Repr, Inhabited

namespace Words

def addOption (w : Words) (name value : String) : Words := { w with options := (name, value) :: w.options }

/-- The name of an option without the dashes, and the value after an equals sign. -/
def optionOf? (word : String) : Option (String × Option String) :=
  (Text.dropLead? ['-', '-'] word.toList).map fun body =>
    match Text.cutAt '=' body with
    | some (name, value) => (String.ofList name, some (String.ofList value))
    | none => (String.ofList body, none)

/-- Whether a word cannot be the value of an option before it. -/
def looksLikeOption (word : String) : Bool := word.length > 1 && word.toList.head? == some '-'

/-- Sorts words. There is no answer for a word that is no option of the command, or an option without its value. -/
def sort? (valued flags : List String) : List String → Option Words
  | [] => some {}
  | "--" :: rest => some { free := rest }
  | word :: rest =>
    match optionOf? word with
    | some (name, some value) =>
      if valued.contains name then (sort? valued flags rest).map (·.addOption name value) else none
    | some (name, none) =>
      if flags.contains name then (sort? valued flags rest).map fun w => { w with flags := name :: w.flags }
      else if valued.contains name then
        match rest with
        | value :: rest =>
          if looksLikeOption value then none else (sort? valued flags rest).map (·.addOption name value)
        | [] => none
      else none
    | none =>
      if looksLikeOption word then none
      else (sort? valued flags rest).map fun w => { w with free := word :: w.free }

def values (w : Words) (name : String) : List String := (w.options.filter (·.1 == name)).map (·.2)

/-- The value of an option that stands at most once; the outer answer is missing when it is repeated. -/
def value? (w : Words) (name : String) : Option (Option String) :=
  match w.values name with
  | [] => some none
  | [v] => some (some v)
  | _ => none

/-- The number below `bound` of an option that stands at most once. -/
def number? (w : Words) (name : String) (bound : Nat) : Option (Option Nat) := do
  match ← w.value? name with
  | none => return none
  | some v => return some (← Text.readUnsigned 10 bound v.toList)

/-- The parts of an option that takes a list. -/
def parts (w : Words) (name : String) : List String :=
  (w.values name).flatMap fun v => (Text.splitOn (· == ',') v.toList).map String.ofList

def hasFlag (w : Words) (name : String) : Bool := w.flags.contains name

/-- The only word that belongs to no option. -/
def file? (w : Words) : Option String :=
  match w.free with
  | [f] => some f
  | _ => none

end Words

/-- Runs a listing. -/
structure RunOptions where
  source : String
  arguments : List String
  /-- The kinds of the locals, which replace those of the listing. -/
  locals : Option (List String)
  returns : Option String
  osrThreshold : Option Nat
  maxCallDepth : Option Nat
  trace : Bool
  deriving DecidableEq, Repr, Inhabited

/-- Shows what the analysis finds out about a listing. -/
structure AnalyzeOptions where
  source : String
  arguments : List String
  returns : Option String
  deriving DecidableEq, Repr, Inhabited

/-- Shows the instructions of raw code. -/
structure DumpOptions where
  source : String
  arguments : List String
  locals : List String
  returns : Option String
  maxStack : Nat
  deriving DecidableEq, Repr, Inhabited

/-- What a command line asks for. -/
inductive Command where
  | run (o : RunOptions)
  | analyze (o : AnalyzeOptions)
  | dump (o : DumpOptions)
  deriving DecidableEq, Repr, Inhabited

namespace Command

def readRun? (words : List String) : Option Command := do
  let w ← Words.sort? ["arg", "locals", "returns", "osr-threshold", "max-call-depth"] ["trace"] words
  return .run
    { source := ← w.file?, arguments := w.values "arg"
      locals := if (w.values "locals").isEmpty then none else some (w.parts "locals")
      returns := ← w.value? "returns", osrThreshold := ← w.number? "osr-threshold" (2 ^ 64)
      maxCallDepth := ← w.number? "max-call-depth" (2 ^ 64), trace := w.hasFlag "trace" }

def readAnalyze? (words : List String) : Option Command := do
  let w ← Words.sort? ["arg", "returns"] [] words
  return .analyze { source := ← w.file?, arguments := w.values "arg", returns := ← w.value? "returns" }

def readDump? (words : List String) : Option Command := do
  let w ← Words.sort? ["arg", "locals", "returns", "max-stack"] [] words
  return .dump
    { source := ← w.file?, arguments := w.values "arg", locals := w.parts "locals", returns := ← w.value? "returns"
      maxStack := (← w.number? "max-stack" (2 ^ 16)).getD 8 }

def read? : List String → Option Command
  | "run" :: words => readRun? words
  | "analyze" :: words => readAnalyze? words
  | "dump" :: words => readDump? words
  | _ => none

end Command

end ManagedCode
