import RecyclingStack.Pool.Basic
import RecyclingStack.Retired.Basic
import RecyclingStack.Settings

/-! The state that every reference and every handle of a stack shares. -/
namespace RecyclingStack

/-- Epochs and operation counters are words of 64 bits. -/
def fullWord : Nat := 1 <<< 64

/-- The word after `n`; the last one is followed by zero. -/
def nextWord (n : Nat) : Nat := (n + 1) % fullWord

/-- The shared state: the tops of the stack chain and of the orphan chain, the global epoch, and
the pool that hands out the nodes. -/
structure Store (α : Type) where
  settings : Settings
  pool : Pool α
  head : Link
  orphans : Link
  epoch : Nat
  shutdown : Bool

namespace Store

variable {α : Type}

def ofPlan (p : Plan) : Store α where
  settings := p.settings
  pool := Pool.empty p.capacityLimit
  head := .nil
  orphans := .nil
  epoch := 0
  shutdown := false

def arena (s : Store α) : Arena α := s.pool.arena

def withArena (s : Store α) (arena : Arena α) : Store α :=
  { s with pool := { s.pool with arena } }

/-- The links on the stack, top first. -/
def chain (s : Store α) : List Link := s.arena.chain s.head

def orphanChain (s : Store α) : List Link := s.arena.chain s.orphans

def freeList (s : Store α) : List Link := s.pool.freeList

/-- The values on the stack, top first. -/
def values (s : Store α) : List α := s.chain.filterMap fun l => (s.arena.read l).value

def isEmpty (s : Store α) : Bool := s.head.isNil

def setNext (s : Store α) (l next : Link) : Store α := s.withArena (s.arena.setNext l next)

/-- A node for `value`, owned by the caller. -/
def allocate (s : Store α) (granted : Bool) (value : α) :
    Effect (Store α) (Except Exhausted Link) :=
  let allocated := s.pool.allocate granted value
  ⟨{ s with pool := allocated.state }, allocated.answer, allocated.log⟩

def deallocate (s : Store α) (l : Link) : Store α := { s with pool := s.pool.deallocate l }

/-- Takes the value out of a node, if one is there. -/
def takeValue (s : Store α) (l : Link) : Option (α × Store α) :=
  match (s.arena.read l).value with
  | none => none
  | some value => some (value, s.withArena (s.arena.clearValue l))

/-- Puts the chain from `first` to `last` on top of the stack. -/
def publish (s : Store α) (first last : Link) : Store α :=
  { s.setNext last s.head with head := first }

/-- Unlinks the top node and takes its value. After shutdown the stack looks empty. -/
def unlink (s : Store α) : Option (Link × α × Store α) :=
  if s.head.isNil || s.shutdown then none else
    match s.takeValue s.head with
    | none => none
    | some (value, taken) => some (s.head, value, { taken with head := s.arena.next s.head })

/-- Links the given nodes one after the other, and the last one to `tail`. -/
def thread (s : Store α) (tail : Link) : List Link → Store α
  | [] => s
  | [last] => s.setNext last tail
  | l :: next :: rest => (s.setNext l next).thread tail (next :: rest)

/-- Puts nodes on top of the orphan chain, in the order given. -/
def orphan (s : Store α) (links : List Link) : Store α :=
  match links with
  | [] => s
  | first :: _ => { s.thread s.orphans links with orphans := first }

def debugRecord (s : Store α) : Record :=
  ⟨"TreiberStack",
    [("empty", boolText s.isEmpty), ("epoch", toString s.epoch),
      ("allocated", toString s.arena.fresh), ("shutdown", boolText s.shutdown)]⟩

end Store

/-- What a handle carries for itself: the global epoch it last saw, its count of completed
operations, and the nodes it popped that may not be reused yet. -/
structure Context where
  snapshot : Nat
  ops : Nat
  deferred : RetireList

namespace Context

/-- The context of a handle registered now. -/
def register {α : Type} (s : Store α) : Context := ⟨s.epoch, 0, RetireList.empty⟩

def debugRecord (c : Context) : Record :=
  ⟨"StackHandle",
    [("epoch_snapshot", toString c.snapshot), ("ops", toString c.ops),
      ("retired", toString c.deferred.count)]⟩

/-- Files a node under the epoch of its retirement. -/
def defer (c : Context) (l : Link) (epoch : Nat) : Context :=
  { c with deferred := c.deferred.push l epoch }

def count (c : Context) : Context := { c with ops := nextWord c.ops }

/-- Whether the handle has to advance the epoch now: it has done so many operations, or it holds
back too many nodes. -/
def mustAdvance (c : Context) (settings : Settings) : Bool :=
  (0 < settings.advanceInterval && c.ops % settings.advanceInterval = 0) ||
    (match settings.retireThreshold with
      | none => false
      | some threshold => threshold < c.deferred.count)

end Context

end RecyclingStack
