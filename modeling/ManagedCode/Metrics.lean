/-!
# Metrics

Counts of what a machine has done since it was made.
-/

namespace ManagedCode

structure Metrics where
  /-- Methods that were analyzed and made ready. -/
  methodsPrepared : Nat := 0
  /-- Call sites that were resolved and became cached calls. -/
  callSiteResolutions : Nat := 0
  /-- Calls through a call site. -/
  nodeInvocations : Nat := 0
  /-- Backward jumps that were counted. -/
  osrPolls : Nat := 0
  /-- Times that the count of backward jumps reached the threshold. -/
  osrTriggers : Nat := 0
  /-- Exceptions raised, by faults and by the program. -/
  faultsRaised : Nat := 0
  /-- Exceptions that entered a catch handler. -/
  faultsCaught : Nat := 0
  /-- Finally handlers that were entered. -/
  finallyBlocksRun : Nat := 0
  deriving DecidableEq, Repr, Inhabited

/-- The counts in a fixed order. -/
def Metrics.toList (m : Metrics) : List Nat :=
  [m.methodsPrepared, m.callSiteResolutions, m.nodeInvocations, m.osrPolls, m.osrTriggers, m.faultsRaised,
   m.faultsCaught, m.finallyBlocksRun]

def Metrics.names : List String :=
  ["methods_prepared", "call_site_resolutions", "node_invocations", "osr_polls", "osr_triggers", "faults_raised",
   "faults_caught", "finally_blocks_run"]

end ManagedCode
