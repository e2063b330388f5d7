import RecyclingStack.Session.Op
import RecyclingStack.Store.Turn

/-! A session: a stack together with all its references and handles, and the operations that are
under way. An operation that runs another one in its middle waits in a frame, so that between two
steps everything there is to know stands in the session. -/
namespace RecyclingStack

/-- A handle: its context, and whether an operation on it is under way. -/
structure Seat where
  context : Context
  busy : Bool

/-- A handle with no operation under way. -/
def Seat.idle (context : Context) : Seat := ⟨context, false⟩

/-- What happens besides the answers, in the order in which it happens. -/
inductive Event (α : Type) where
  | log (line : LogLine)
  | dropped (value : α)
  | nested (outcome : Outcome α)
  deriving DecidableEq

/-- An operation under way, as what is left of it. -/
inductive Frame (α : Type) where
  /-- An operation about to be performed. -/
  | perform (op : Op α)
  /-- The operations that a dropped value still runs. -/
  | hook (rest : List (Op α))
  /-- A batch being built by a handle: the private chain so far, and the items to come. -/
  | batch (handle : Nat) (first last : Link) (rest : List (Item α))
  /-- A batch given up: the values that never got a node are dropped in order, then the private
  chain from `cursor` to `last` is dropped and given back node by node. -/
  | rollBack (handle : Nat) (unused : List (Payload α)) (cursor last : Link) (outcome : Outcome α)
  /-- A node of such a chain whose value is dropped, to be given back before the rest. -/
  | release (handle : Nat) (node next last : Link) (outcome : Outcome α)
  /-- The end of an operation. -/
  | finish (outcome : Outcome α)
  /-- The end of the stack itself: the values from `cursor` on, to be dropped. -/
  | destroy (cursor : Link) (dropped : Nat)
  /-- Values still to be pushed one by one. -/
  | pushEach (handle : Nat) (rest : List α) (pushed : Nat)
  /-- Pops still to be made, with the values got so far, latest first. -/
  | popUpTo (handle : Nat) (limit : Option Nat) (got : List α)

/-- A stack and everything that refers to it. References and handles are numbered by their
place; `events` has the latest event first, and `answer` is that of the latest operation that was
not nested in another. -/
structure Session (α : Type) where
  store : Store (Payload α)
  references : List Bool
  handles : List (Option Seat)
  frames : List (Frame α)
  events : List (Event α)
  answer : Option (Outcome α)

namespace Session

variable {α : Type}

/-- A new stack with one reference and no handle. -/
def ofPlan (p : Plan) : Session α := ⟨Store.ofPlan p, [true], [], [], [], none⟩

def refers (s : Session α) (reference : Nat) : Bool := s.references[reference]?.getD false

/-- The handle of that number, unless it was dropped. -/
def seat? (s : Session α) (handle : Nat) : Option Seat := s.handles[handle]?.join

def isGone (s : Session α) : Bool :=
  s.references.all (! ·) && s.handles.all Option.isNone

def record (s : Session α) (event : Event α) : Session α :=
  { s with events := event :: s.events }

def recordLog (s : Session α) (lines : List LogLine) : Session α :=
  { s with events := lines.reverse.map Event.log ++ s.events }

def enter (s : Session α) (frame : Frame α) : Session α := { s with frames := frame :: s.frames }

def setSeat (s : Session α) (handle : Nat) (seat : Option Seat) : Session α :=
  { s with handles := s.handles.set handle seat }

def setBusy (s : Session α) (handle : Nat) (busy : Bool) : Session α :=
  { s with
    handles := s.handles.modify handle fun seat => seat.map fun seat => { seat with busy } }

/-- Ends an operation that has its outcome. -/
def conclude (s : Session α) (outcome : Outcome α) : Session α := s.enter (.finish outcome)

/-- Hands an outcome to whatever waits for it: pushes in a row go on or end, an operation with
another one in its middle sees a nested event, and with nothing under way it is the answer. -/
def deliver (s : Session α) (outcome : Outcome α) : Session α :=
  match s.frames with
  | [] => { s with answer := some outcome }
  | .pushEach handle rest pushed :: frames =>
    match outcome with
    | .done => { s with frames := .pushEach handle rest (pushed + 1) :: frames }
    | .exhausted failure => { s with frames := .finish (.exhaustedAfter failure pushed) :: frames }
    | outcome => { s with frames := .finish outcome :: frames }
  | _ => s.record (.nested outcome)

def refuse (s : Session α) (reason : Refusal) : Session α := s.conclude (.refused reason)

/-- Goes on if the reference is there. -/
def withReference (s : Session α) (reference : Nat) (go : Session α) : Session α :=
  if s.refers reference then go else s.refuse .noStack

/-- Goes on with the context of a handle that is there and idle. -/
def withHandle (s : Session α) (handle : Nat) (go : Context → Session α) : Session α :=
  match s.seat? handle with
  | none => s.refuse .noHandle
  | some seat => if seat.busy then s.refuse .busyHandle else go seat.context

/-- Takes over what an idle handle has done to the store and to its context. -/
def settle {β : Type} (s : Session α) (handle : Nat) (turn : Effect (Turn (Payload α)) β) :
    Session α :=
  (({ s with store := turn.state.store }.setSeat handle
    (some (Seat.idle turn.state.context))).recordLog turn.log)

/-- Drops a value: the event, then the operations that go with it. -/
def dropPayload (s : Session α) (payload : Payload α) : Session α :=
  (s.record (.dropped payload.value)).enter (.hook payload.onDrop)

/-- The end of a reference or a handle. With the last one the values on the stack go too. -/
def afterDrop (s : Session α) : Session α :=
  if s.isGone then (s.conclude .done).enter (.destroy s.store.head 0) else s.conclude .done

def openBatch (s : Session α) (handle : Nat) (items : List (Item α)) : Session α :=
  (s.setBusy handle true).enter (.batch handle .nil .nil items)

/-- Ends an operation that kept a handle busy. -/
def close (s : Session α) (handle : Nat) (outcome : Outcome α) : Session α :=
  (s.setBusy handle false).conclude outcome

/-- Puts a finished batch on the stack, unless the stack was shut down meanwhile. An empty batch
counts for nothing. -/
def closeBatch (s : Session α) (handle : Nat) (first last : Link) : Session α :=
  match first with
  | .nil => s.close handle .done
  | .node _ _ =>
    if s.store.shutdown then s.enter (.rollBack handle [] first last .done) else
      match s.seat? handle with
      | none => s
      | some seat =>
        (s.settle handle ((Turn.mk s.store seat.context).publish first last)).conclude .done

def answerStack (s : Session α) : StackQuestion → Outcome α
  | .isEmpty => .flag s.store.isEmpty
  | .epoch => .number s.store.epoch
  | .capacity => .number s.store.arena.capacity
  | .isShutdown => .flag s.store.shutdown
  | .debugText multiline => .text (s.store.debugRecord.layout multiline)

def answerHandle (s : Session α) (context : Context) : HandleQuestion → Outcome α
  | .isEmpty => .flag s.store.isEmpty
  | .retiredCount => .number context.deferred.count
  | .snapshot => .number context.snapshot
  | .debugText multiline => .text (context.debugRecord.layout multiline)

/-- Asks for the stack to be shut down. The first request is logged. -/
def shutDown (s : Session α) : Session α :=
  if s.store.shutdown then s
  else { s with store := { s.store with shutdown := true } }.recordLog [.shutdownRequested]

/-- Starts an operation. Most have their outcome at once; pushes leave a frame behind. -/
def perform (s : Session α) : Op α → Session α
  | .cloneReference reference =>
    s.withReference reference
      ({ s with references := s.references ++ [true] }.conclude (.number s.references.length))
  | .dropReference reference =>
    s.withReference reference { s with references := s.references.set reference false }.afterDrop
  | .register reference =>
    s.withReference reference
      ({ s with handles := s.handles ++ [some (Seat.idle (Context.register s.store))] }.conclude
        (.number s.handles.length))
  | .dropHandle handle =>
    s.withHandle handle fun context =>
      let abandoned := (Turn.mk s.store context).abandon
      (({ s with store := abandoned.state }.setSeat handle none).recordLog abandoned.log).afterDrop
  | .push handle payload =>
    s.withHandle handle fun _ => s.openBatch handle [.payload payload]
  | .pushBatch handle items => s.withHandle handle fun _ => s.openBatch handle items
  | .pushEach handle values =>
    s.withHandle handle fun _ => s.enter (.pushEach handle values 0)
  | .pop handle =>
    s.withHandle handle fun context =>
      let popped := (Turn.mk s.store context).pop
      (s.settle handle popped).conclude (.popped (popped.answer.map Payload.value))
  | .popUpTo handle limit => s.withHandle handle fun _ => s.enter (.popUpTo handle limit [])
  | .advance handle =>
    s.withHandle handle fun context =>
      let advanced := (Turn.mk s.store context).advance
      (s.settle handle advanced).conclude (.number advanced.answer)
  | .reclaim handle =>
    s.withHandle handle fun context =>
      let reclaimed := (Turn.mk s.store context).reclaim
      (s.settle handle reclaimed).conclude (.number reclaimed.answer)
  | .shutdown reference => s.withReference reference (s.shutDown.conclude .done)
  | .setEpoch reference epoch =>
    s.withReference reference ({ s with store := { s.store with epoch } }.conclude .done)
  | .setOps handle ops =>
    s.withHandle handle fun context =>
      (s.setSeat handle (some (Seat.idle { context with ops }))).conclude .done
  | .askStack reference question =>
    s.withReference reference (s.conclude (s.answerStack question))
  | .askHandle handle question =>
    s.withHandle handle fun context => s.conclude (s.answerHandle context question)
  | .refused reason => s.refuse reason

end Session

end RecyclingStack
