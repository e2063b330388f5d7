import RecyclingStack.Text

/-! What a stack has to say besides its results: the one failure that it knows, the refusals of
requests that make no sense in the state they meet, and the lines of its log, as causes. -/
namespace RecyclingStack

/-- No node could be handed out: every slot up to the capacity in force is in use, or a segment
could not be reserved. -/
structure Exhausted where
  capacity : Nat
  deriving DecidableEq

namespace Exhausted

def message (e : Exhausted) : String :=
  "node arena exhausted (capacity " ++ toString e.capacity ++ ")"

def debugText (e : Exhausted) : String :=
  (Record.mk "Exhausted" [("capacity", toString e.capacity)]).inline

/-- What the failure was caused by: it is a first cause, nothing lies behind it. -/
def source (_ : Exhausted) : Option Exhausted := none

end Exhausted

inductive Refusal where
  | badOp
  | badLink
  | badCase
  | noHandle
  | busyHandle
  | noStack
  | noSlot
  | notOwned
  deriving DecidableEq

inductive LogLevel where
  | trace
  | debug
  | warn
  deriving DecidableEq

inductive LogLine where
  | segmentInstalled (segment length : Nat)
  | reservationFailed (segment length : Nat)
  | allocationFailed (failure : Exhausted)
  | epochAdvanced (epoch : Nat)
  | nodesReclaimed (count epoch remaining : Nat)
  | orphansAdopted (count : Nat)
  | handleDeregistered (deferred : Nat)
  | shutdownRequested
  | valuesDropped (count : Nat)
  deriving DecidableEq

namespace LogLine

def level : LogLine → LogLevel
  | segmentInstalled .. | orphansAdopted _ | handleDeregistered _ | shutdownRequested => .debug
  | reservationFailed .. | allocationFailed _ => .warn
  | epochAdvanced _ | nodesReclaimed .. | valuesDropped _ => .trace

def text : LogLine → String
  | segmentInstalled segment length => s!"installed arena segment {segment} ({length} slots)"
  | reservationFailed segment length =>
    s!"failed to reserve arena segment {segment} ({length} slots)"
  | allocationFailed failure => "node allocation failed: " ++ failure.message
  | epochAdvanced epoch => s!"advanced global epoch to {epoch}"
  | nodesReclaimed count epoch remaining =>
    s!"reclaimed {count} nodes at epoch {epoch}, {remaining} still deferred"
  | orphansAdopted count => s!"adopted {count} orphaned nodes"
  | handleDeregistered deferred =>
    s!"handle deregistered with {deferred} deferred nodes, moved to orphan chain"
  | shutdownRequested => "stack shutdown requested"
  | valuesDropped count => s!"dropped {count} values left on the stack"

end LogLine

/-- A change of state together with its answer and the lines it logged, oldest first. -/
structure Effect (State Answer : Type) where
  state : State
  answer : Answer
  log : List LogLine

end RecyclingStack
