import ManagedCode.Analysis.Basic
import ManagedCode.Analysis.Operands
import ManagedCode.Analysis.Transfer
import ManagedCode.Builder
import ManagedCode.Code
import ManagedCode.Command.Argument
import ManagedCode.Command.Options
import ManagedCode.Command.Report
import ManagedCode.Fault
import ManagedCode.Floating.Decimal
import ManagedCode.Floating.Double
import ManagedCode.Floating.Format
import ManagedCode.Frame
import ManagedCode.Heap
import ManagedCode.Kind
import ManagedCode.Listing
import ManagedCode.Machine.Arithmetic
import ManagedCode.Machine.Call
import ManagedCode.Machine.Describe
import ManagedCode.Machine.Enter
import ManagedCode.Machine.Flow
import ManagedCode.Machine.Host
import ManagedCode.Machine.Instruction
import ManagedCode.Machine.Memory
import ManagedCode.Machine.Monad
import ManagedCode.Machine.Objects
import ManagedCode.Machine.Slots
import ManagedCode.Machine.State
import ManagedCode.Machine.Step
import ManagedCode.Main
import ManagedCode.Metadata
import ManagedCode.Metrics
import ManagedCode.Numeric.Conversion
import ManagedCode.Numeric.Integer
import ManagedCode.Numeric.Real
import ManagedCode.Opcode.Action
import ManagedCode.Opcode.Basic
import ManagedCode.Region
import ManagedCode.Settings
import ManagedCode.Symbol
import ManagedCode.Text.Blank
import ManagedCode.Text.Numeral
import ManagedCode.Text.Quoted
import ManagedCode.Text.Unprintable
import ManagedCode.Token
import ManagedCode.Trace
import ManagedCode.Unwinding
import ManagedCode.Value
import ManagedCode.Proofs.Meets
import ManagedCode.Proofs.Endings
import ManagedCode.Proofs.Patches
import ManagedCode.Proofs.Flow
import ManagedCode.Proofs.Handlers
import ManagedCode.Proofs.Effects
import ManagedCode.Proofs.Extends
import ManagedCode.Proofs.Quiet
import ManagedCode.Proofs.Sound
import ManagedCode.Proofs.Transfers
import ManagedCode.Proofs.Calls
import ManagedCode.Proofs.Steps
import ManagedCode.Proofs.Entering
import ManagedCode.Proofs.Instructions
import ManagedCode.Proofs.Inside
import ManagedCode.Proofs.Heights
import ManagedCode.Proofs.Storage
import ManagedCode.Proofs.Shapes
import ManagedCode.Proofs.Typing
import ManagedCode.Proofs.Objects
import ManagedCode.Proofs.Stacks
import ManagedCode.Proofs.Passing
import ManagedCode.Proofs.Uniform
import ManagedCode.Proofs.Annotations
import ManagedCode.Proofs.Upkeep
import ManagedCode.Proofs.Pushed
import ManagedCode.Proofs.Unwound
import ManagedCode.Proofs.Lockstep
import ManagedCode.Proofs.Caching
import ManagedCode.Proofs.Afresh
import ManagedCode.Proofs.Narrowed
import ManagedCode.Proofs.Arrivals
import ManagedCode.Proofs.Copies
import ManagedCode.Proofs.Tables
import ManagedCode.Proofs.Coverage
import ManagedCode.Proofs.Completeness
import ManagedCode.Proofs.Encoding
import ManagedCode.Proofs.Building
import ManagedCode.Proofs.Aborts
import ManagedCode.Proofs.Composed
import ManagedCode.Proofs.Observers
import ManagedCode.Proofs.Depths
import ManagedCode.Proofs.Resuming
import ManagedCode.Proofs.Locations
import ManagedCode.Proofs.Histories
import ManagedCode.Proofs.Ancestry
import ManagedCode.Proofs.Definitions
import ManagedCode.Proofs.Tokens
import ManagedCode.Proofs.Hierarchy
import ManagedCode.Proofs.Dispatch
import ManagedCode.Proofs.Nesting
import ManagedCode.Proofs.Integers
import ManagedCode.Proofs.Conversions
import ManagedCode.Proofs.Accounts
import ManagedCode.Proofs.Pointers
import ManagedCode.Proofs.Capacity
import ManagedCode.Proofs.Virtual
import ManagedCode.Proofs.Returns
import ManagedCode.Proofs.Distances
import ManagedCode.Proofs.Refusals
import ManagedCode.Proofs.Literals
import ManagedCode.Proofs.Numerals
import ManagedCode.Proofs.Arguments
import ManagedCode.Proofs.Chains
import ManagedCode.Proofs.Leftovers
import ManagedCode.Proofs.Verdicts
import ManagedCode.Proofs.Rounds
import ManagedCode.Proofs.Truncation
