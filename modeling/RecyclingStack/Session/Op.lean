import RecyclingStack.Messages

/-! The operations of a session as data. Values may carry operations of their own, to be run at the
moment the stack drops them, and a batch may run operations between its items; so operations,
payloads and items are defined together, and so is the work they can cause, which bounds a run. -/
namespace RecyclingStack

inductive StackQuestion where
  | isEmpty
  | epoch
  | capacity
  | isShutdown
  | debugText (multiline : Bool)

inductive HandleQuestion where
  | isEmpty
  | retiredCount
  | snapshot
  | debugText (multiline : Bool)

mutual

/-- One operation. References to the stack and handles are named by number, in the order in which
they came to be. -/
inductive Op (α : Type) where
  | cloneReference (reference : Nat)
  | dropReference (reference : Nat)
  | register (reference : Nat)
  | dropHandle (handle : Nat)
  | push (handle : Nat) (payload : Payload α)
  | pushBatch (handle : Nat) (items : List (Item α))
  | pushEach (handle : Nat) (values : List α)
  | pop (handle : Nat)
  | popUpTo (handle : Nat) (limit : Option Nat)
  | advance (handle : Nat)
  | reclaim (handle : Nat)
  | shutdown (reference : Nat)
  | setEpoch (reference : Nat) (epoch : Nat)
  | setOps (handle : Nat) (ops : Nat)
  | askStack (reference : Nat) (question : StackQuestion)
  | askHandle (handle : Nat) (question : HandleQuestion)
  | refused (reason : Refusal)

/-- A value, and what is to be done when the stack drops it. A value that is popped leaves this
behind. -/
inductive Payload (α : Type) where
  | mk (value : α) (onDrop : List (Op α))

/-- What a batch yields next: a payload, nothing but an operation run in passing, or a panic. -/
inductive Item (α : Type) where
  | payload (payload : Payload α)
  | perform (op : Op α)
  | panic (message : String)

end

namespace Payload

variable {α : Type}

def value : Payload α → α
  | mk value _ => value

def onDrop : Payload α → List (Op α)
  | mk _ onDrop => onDrop

def plain (value : α) : Payload α := mk value []

end Payload

def Item.payloads {α : Type} (items : List (Item α)) : List (Payload α) :=
  items.filterMap fun
    | .payload p => some p
    | .perform _ => none
    | .panic _ => none

inductive Outcome (α : Type) where
  | done
  | number (n : Nat)
  | flag (b : Bool)
  | text (text : String)
  | popped (value : Option α)
  | values (values : List α)
  | exhausted (failure : Exhausted)
  | exhaustedAfter (failure : Exhausted) (pushed : Nat)
  | panicked (message : String)
  | refused (reason : Refusal)
  deriving DecidableEq

mutual

/-- How much work an operation can cause at most, in steps of a session. -/
def Op.weight {α : Type} : Op α → Nat
  | .push _ p => p.weight + 7
  | .pushBatch _ items => itemsWeight items + 6
  | .pushEach _ values => 12 * values.length + 3
  | .cloneReference _ | .dropReference _ | .register _ | .dropHandle _ | .pop _ | .popUpTo _ _
  | .advance _ | .reclaim _ | .shutdown _ | .setEpoch _ _ | .setOps _ _ | .askStack _ _
  | .askHandle _ _ | .refused _ => 4

/-- A payload must be dropped from its slot, and its operations run. -/
def Payload.weight {α : Type} : Payload α → Nat
  | .mk _ onDrop => opsWeight onDrop + 4

def Item.weight {α : Type} : Item α → Nat
  | .payload p => p.weight + 1
  | .perform op => op.weight + 1
  | .panic _ => 1

def opsWeight {α : Type} : List (Op α) → Nat
  | [] => 0
  | op :: rest => op.weight + 1 + opsWeight rest

def itemsWeight {α : Type} : List (Item α) → Nat
  | [] => 0
  | item :: rest => item.weight + itemsWeight rest

end

end RecyclingStack
