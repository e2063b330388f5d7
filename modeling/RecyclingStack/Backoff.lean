import RecyclingStack.Messages

/-! Waiting between failed attempts: each wait is twice as long as the one before, up to a
ceiling. -/
namespace RecyclingStack

/-- The number of doublings so far. -/
structure Backoff where
  step : Nat
  deriving DecidableEq

inductive BackoffRequest where
  | snooze
  | reset
  | refused (reason : Refusal)

namespace Backoff

/-- After this many doublings the wait no longer grows. -/
def ceiling : Nat := 10

def start : Backoff := ⟨0⟩

/-- Waits once, and doubles the next wait unless it is at the ceiling. -/
def snooze (b : Backoff) : Backoff := if b.step < ceiling then ⟨b.step + 1⟩ else b

def isSaturated (b : Backoff) : Bool := ceiling ≤ b.step

def debugText (b : Backoff) : String :=
  (Record.mk "Backoff" [("step", toString b.step)]).inline

def steps (b : Backoff) : List BackoffRequest → List (Except Refusal (Bool × String))
  | [] => []
  | .snooze :: rest =>
    let b := b.snooze
    .ok (b.isSaturated, b.debugText) :: b.steps rest
  | .reset :: rest => .ok (start.isSaturated, start.debugText) :: start.steps rest
  | .refused reason :: rest => .error reason :: b.steps rest

end Backoff

end RecyclingStack
