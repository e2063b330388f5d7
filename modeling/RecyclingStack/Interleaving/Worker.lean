import RecyclingStack.Store.Basic

/-! A thread at work on a shared stack, cut into single accesses of shared memory. A phase says
which access comes next and holds all that the thread remembers for itself; between two accesses
of one thread any others may do theirs. -/
namespace RecyclingStack

/-- One call of a thread's program. -/
inductive Call (α : Type) where
  | push (value : α)
  | pushBatch (values : List α)
  | pop
  | advance
  | reclaim
  | leave
  | shutdown

inductive CallAnswer (α : Type) where
  | done
  | popped (value : Option α)
  | recycled (nodes : Nat)
  | exhausted (failure : Exhausted)
  deriving DecidableEq

/-- A push or a batch under way: the private chain from `first` to `last`, and the values that have
no node yet. The nodes of a batch are linked as they come, the one node of a push is not. -/
structure Job (α : Type) where
  first : Link
  last : Link
  rest : List α
  linking : Bool

inductive SweepEnd (α : Type) where
  /-- A call of its own, which answers the number of nodes. -/
  | recycled
  /-- The end of an operation that has its answer already. -/
  | complete (answer : CallAnswer α)
  /-- The beginning of deregistration. -/
  | leave

/-- What goes on after a node was given back. -/
inductive Release (α : Type) where
  /-- The rest of a private chain is dropped too. -/
  | discard (next last : Link) (answer : CallAnswer α)
  /-- The rest of the nodes that are due follow. -/
  | sweep (rest : List Link) (total : Nat) (after : SweepEnd α)

/-- Where a thread stands. The name tells the next access; `ready` makes none. -/
inductive Phase (α : Type) where
  | ready
  /- Finding the slot of an index: the place of its segment is read. -/
  | find (index : Nat) (after : Phase α)
  /- Getting a node: from the free list. -/
  | loadFree (job : Job α) (value : α)
  | readFree (job : Job α) (value : α) (top : Link)
  | swingFree (job : Job α) (value : α) (top next : Link)
  /- Getting a node: an index never used. -/
  | loadFresh (job : Job α) (value : α)
  | checkSegment (job : Job α) (value : α) (index : Nat)
  | installSegment (job : Job α) (value : α) (index : Nat)
  | claimFresh (job : Job α) (value : α) (index : Nat)
  /- Starting the node's new incarnation. -/
  | loadGeneration (job : Job α) (value : α) (index : Nat)
  | storeGeneration (job : Job α) (value : α) (index generation : Nat)
  | clearNext (job : Job α) (value : α) (node : Link)
  | clearTag (job : Job α) (value : α) (node : Link)
  | linkNode (job : Job α) (node : Link)
  /- Publishing a private chain. -/
  | loadHead (first last : Link)
  | checkShutdown (first last head : Link)
  | linkLast (first last head : Link)
  | swingHead (first last head : Link)
  /- Dropping a private chain. -/
  | readDoomed (node last : Link) (answer : CallAnswer α)
  /- Popping. -/
  | loadTop
  | checkTop (head : Link)
  | readTop (head : Link)
  | swingTop (head next : Link)
  | loadRetireEpoch (node : Link) (value : α)
  | storeTag (node : Link) (value : α) (epoch : Nat)
  /- Advancing, adopting, sweeping. -/
  | bumpEpoch (after : SweepEnd α)
  | loadOrphans (after : SweepEnd α)
  | takeOrphans (after : SweepEnd α)
  | readOrphan (node : Link) (after : SweepEnd α)
  | readTag (node next : Link) (after : SweepEnd α)
  | loadEpoch (after : SweepEnd α)
  /- Giving a node back. -/
  | loadFreeTop (node : Link) (after : Release α)
  | linkFree (node top : Link) (after : Release α)
  | pushFree (node top : Link) (after : Release α)
  /- Leaving deferred nodes behind: all of them, and those whose forward link is still to be
  written. -/
  | threadOrphans (nodes todo : List Link)
  | loadOrphanTop (nodes : List Link)
  | linkOrphans (nodes : List Link) (top : Link)
  | pushOrphans (nodes : List Link) (top : Link)
  | raiseShutdown

/-- A call that is over: its answer, and the values it dropped in order. -/
structure CallRecord (α : Type) where
  call : Call α
  answer : CallAnswer α
  dropped : List α

/-- A thread with its handle. The first call of the program is the one under way; `dropped` are
the values it has dropped so far and `records` the calls before it, both latest first. -/
structure Worker (α : Type) where
  context : Context
  program : List (Call α)
  phase : Phase α
  dropped : List α
  records : List (CallRecord α)

namespace Worker

variable {α : Type}

/-- A thread that registers now and has a program before it. -/
def register (s : Store α) (program : List (Call α)) : Worker α :=
  ⟨Context.register s, program, .ready, [], []⟩

def isIdle (w : Worker α) : Bool :=
  match w.phase, w.program with
  | .ready, [] => true
  | _, _ => false

def goto (w : Worker α) (phase : Phase α) : Worker α := { w with phase }

/-- Goes to a phase that works on the slot behind a link, which has to be found first. -/
def seek (w : Worker α) (l : Link) (phase : Phase α) : Worker α := w.goto (.find l.index phase)

def drop (w : Worker α) (value : α) : Worker α := { w with dropped := value :: w.dropped }

/-- What is left to do after a call. A thread that has left has no handle to go on with. -/
def remaining : Call α → List (Call α) → List (Call α)
  | .leave, _ => []
  | _, rest => rest

def finish (w : Worker α) (answer : CallAnswer α) : Worker α :=
  match w.program with
  | [] => w.goto .ready
  | call :: rest =>
    { w with
      program := remaining call rest
      phase := .ready
      dropped := []
      records := ⟨call, answer, w.dropped.reverse⟩ :: w.records }

/-- Ends a call that counts as an operation, unless the epoch has to be advanced first. -/
def complete (w : Worker α) (settings : Settings) (answer : CallAnswer α) : Worker α :=
  let w := { w with context := w.context.count }
  if w.context.mustAdvance settings then w.goto (.bumpEpoch (.complete answer))
  else w.finish answer

/-- Goes on with a private chain that has just got a node, or has none yet. -/
def build (w : Worker α) (job : Job α) : Worker α :=
  match job.rest, job.first with
  | value :: rest, _ => w.goto (.loadFree { job with rest } value)
  | [], .nil => w.finish .done
  | [], .node _ _ => w.seek job.last (.loadHead job.first job.last)

/-- Gives a push or a batch up: the value that got no node is dropped, then those after it, then
the private chain. -/
def rollBack (w : Worker α) (job : Job α) (value : α) (failure : Exhausted) : Worker α :=
  let w := job.rest.foldl drop (w.drop value)
  match job.first with
  | .nil => w.finish (.exhausted failure)
  | .node _ _ => w.seek job.first (.readDoomed job.first job.last (.exhausted failure))

/-- Takes a link read from the free list: its node if there is one, else an index never used. -/
def takeFree (w : Worker α) (job : Job α) (value : α) : (top : Link) → Worker α
  | .nil => w.goto (.loadFresh job value)
  | .node index generation =>
    w.seek (.node index generation) (.readFree job value (.node index generation))

/-- Takes a count of indices read from the arena, which is the next index unless all are used. -/
def takeFresh (w : Worker α) (capacity : Nat) (job : Job α) (value : α) (index : Nat) : Worker α :=
  if capacity ≤ index then w.rollBack job value ⟨capacity⟩
  else w.goto (.checkSegment job value index)

/-- Takes a link read from the head of the stack. -/
def takeTop (w : Worker α) : (head : Link) → Worker α
  | .nil => w.finish (.popped none)
  | .node index generation => w.goto (.checkTop (.node index generation))

/-- Goes on along the orphans taken over. -/
def adoptFrom (w : Worker α) (after : SweepEnd α) : (node : Link) → Worker α
  | .nil => w.goto (.loadEpoch after)
  | .node index generation =>
    w.seek (.node index generation) (.readOrphan (.node index generation) after)

/-- The end of a sweep. A thread that leaves takes its deferred list apart. -/
def afterSweep (w : Worker α) (total : Nat) : SweepEnd α → Worker α
  | .recycled => w.finish (.recycled total)
  | .complete answer => w.finish answer
  | .leave =>
    let nodes := w.context.deferred.links
    let w := { w with context := { w.context with deferred := RetireList.empty } }
    match nodes with
    | [] => w.finish .done
    | [node] => w.seek node (.loadOrphanTop [node])
    | node :: nodes => w.seek node (.threadOrphans (node :: nodes) (node :: nodes))

/-- Gives the nodes back that are due, one after the other. -/
def sweepOn (w : Worker α) (total : Nat) (after : SweepEnd α) : (nodes : List Link) → Worker α
  | [] => w.afterSweep total after
  | node :: rest => w.seek node (.loadFreeTop node (.sweep rest total after))

/-- Goes on once a node is back on the free list. -/
def afterRelease (w : Worker α) (node : Link) : Release α → Worker α
  | .discard next last answer =>
    if node = last then w.finish answer else w.seek next (.readDoomed next last answer)
  | .sweep rest total after => w.sweepOn total after rest

/-- Starts the next call of the program. -/
def start (w : Worker α) : Worker α :=
  match w.program with
  | [] => w
  | .push value :: _ => w.build ⟨.nil, .nil, [value], false⟩
  | .pushBatch values :: _ => w.build ⟨.nil, .nil, values, true⟩
  | .pop :: _ => w.goto .loadTop
  | .advance :: _ => w.goto (.bumpEpoch .recycled)
  | .reclaim :: _ => w.goto (.loadOrphans .recycled)
  | .leave :: _ => w.goto (.loadOrphans .leave)
  | .shutdown :: _ => w.goto .raiseShutdown

end Worker

end RecyclingStack
