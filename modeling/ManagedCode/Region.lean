import ManagedCode.Token

/-!
# Protected regions

An entry of a method's exception handling table: the offsets it protects, the offsets of its handler, and what kind of
handler that is.
-/

namespace ManagedCode

/-- A run of code offsets, from `start` for `length` bytes. -/
structure Span where
  start : Nat
  length : Nat
  deriving DecidableEq, Repr, Inhabited

namespace Span

/-- The offsets from `a` up to `b`; empty when `b` is not above `a`. -/
def between (a b : Nat) : Span := ⟨a, b - a⟩

/-- The first offset past the span. -/
def stop (s : Span) : Nat := s.start + s.length

def contains (s : Span) (pc : Nat) : Bool := s.start ≤ pc && pc < s.stop

theorem contains_iff {s : Span} {pc : Nat} : s.contains pc = true ↔ s.start ≤ pc ∧ pc < s.start + s.length := by
  rw [contains, Bool.and_eq_true, decide_eq_true_eq, decide_eq_true_eq, stop]

end Span

/-- What the handler of a region is for. -/
inductive RegionKind where
  /-- Handles exceptions of the named type. -/
  | catchType (type : Token)
  | finallyBlock
  | faultBlock
  | filter (offset : Nat)
  deriving DecidableEq, Repr, Inhabited

/-- One entry of an exception handling table. -/
structure Region where
  tryBlock : Span
  handler : Span
  kind : RegionKind
  deriving DecidableEq, Repr, Inhabited

namespace Region

def isFinally (r : Region) : Bool := r.kind == .finallyBlock

def isCatch (r : Region) : Bool :=
  match r.kind with
  | .catchType _ => true
  | _ => false

end Region

/-- Where code after a `throw` at `pc` goes on: behind the furthest handler of the innermost protected block around it.
There is no such place for unprotected code. -/
def offsetAfterThrow (regions : List Region) (pc : Nat) : Option Nat :=
  match regions.find? (·.tryBlock.contains pc) with
  | none => none
  | some inner => ((regions.filter (·.tryBlock == inner.tryBlock)).map (·.handler.stop)).max?

end ManagedCode
