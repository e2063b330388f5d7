import RecyclingStack.Session.Run

/-! What a session shows of itself after every operation. -/
namespace RecyclingStack

/-- The short form of a handle: epoch last seen, operations counted, nodes deferred. -/
structure HandleView where
  snapshot : Nat
  ops : Nat
  retired : Nat
  deriving DecidableEq

/-- The short form of a stack that is still there. -/
structure StackView where
  head : Link
  orphans : Link
  epoch : Nat
  allocated : Nat
  handles : List (Option HandleView)
  deriving DecidableEq

/-- Everything inside a stack: the chains as links, the bags of every handle, the free list as
indices, and every slot handed out. -/
structure StackDump where
  chain : List Link
  orphans : List Link
  retired : List (Option (List Bag))
  free : List Nat
  slots : List SlotView
  deriving DecidableEq

inductive Command (α : Type) where
  | op (op : Op α)
  | dump

inductive Reply (α : Type) where
  | outcome (outcome : Outcome α)
  | dump (dump : Option StackDump)

/-- What is reported of one command: the reply, the events in order, and the state after it, if
there still is one. -/
structure Report (α : Type) where
  reply : Reply α
  events : List (Event α)
  after : Option StackView

namespace Session

variable {α : Type}

def viewHandle (seat : Seat) : HandleView :=
  ⟨seat.context.snapshot, seat.context.ops, seat.context.deferred.count⟩

def view (s : Session α) : Option StackView :=
  if s.isGone then none else some
    { head := s.store.head
      orphans := s.store.orphans
      epoch := s.store.epoch
      allocated := s.store.arena.fresh
      handles := s.handles.map fun seat => seat.map viewHandle }

def dump (s : Session α) : Option StackDump :=
  if s.isGone then none else some
    { chain := s.store.chain
      orphans := s.store.orphanChain
      retired := s.handles.map fun seat => seat.map fun seat => seat.context.deferred.bags
      free := s.store.freeList.map Link.index
      slots := s.store.arena.views }

def serve (s : Session α) : Command α → Session α × Report α
  | .op op =>
    let s := s.exec op
    (s, ⟨.outcome (s.answer.getD .done), s.events.reverse, s.view⟩)
  | .dump => (s, ⟨.dump s.dump, [], s.view⟩)

def serveAll (s : Session α) : List (Command α) → Session α × List (Report α)
  | [] => (s, [])
  | command :: rest =>
    let (s, report) := s.serve command
    let (s, reports) := s.serveAll rest
    (s, report :: reports)

/-- The operations that let go of everything: the handles in order, then the references. Those
that were dropped before are refused without effect. -/
def lettingGo (s : Session α) : List (Op α) :=
  (List.range s.handles.length).map Op.dropHandle
    ++ (List.range s.references.length).map Op.dropReference

def teardown (s : Session α) : List (Event α) :=
  (s.lettingGo.foldl (fun (s, events) op =>
    let s := s.exec op
    (s, events ++ s.events.reverse)) (s, [])).2

end Session

end RecyclingStack
