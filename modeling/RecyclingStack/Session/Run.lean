import RecyclingStack.Session.Basic

/-! Running a session. A step takes the frame on top and does the next small thing in it, so that
every moment at which an operation nested in another one begins or ends is a state between two
steps. -/
namespace RecyclingStack

/-- The steps left in a frame, not counting those of the values in slots. -/
def Frame.weight {α : Type} : Frame α → Nat
  | .perform op => op.weight
  | .hook rest => opsWeight rest + 1
  | .batch _ _ _ rest => itemsWeight rest + 5
  | .rollBack _ unused _ _ _ => total (unused.map fun p => opsWeight p.onDrop + 2) + 2
  | .release _ _ _ _ _ => 3
  | .finish _ => 1
  | .destroy _ _ => 1
  | .pushEach _ rest _ => 12 * rest.length + 2
  | .popUpTo _ _ _ => 2

/-- The weights of all values in slots. -/
def Arena.weight {α : Type} (a : Arena (Payload α)) : Nat :=
  total (a.directory.map fun
    | none => 0
    | some slots => total (slots.toList.map fun slot => slot.value.elim 0 Payload.weight))

namespace Session

variable {α : Type}

/-- An upper bound of the steps until nothing is under way. -/
def weight (s : Session α) : Nat := s.store.arena.weight + total (s.frames.map Frame.weight)

/-- The context of a handle that is there and idle. -/
def idle? (s : Session α) (handle : Nat) : Option Context :=
  match s.seat? handle with
  | none => none
  | some seat => if seat.busy then none else some seat.context

/-- Goes on with a frame that was just taken off. Should a batch need memory for another segment,
it is there if `granted`. -/
def resume (s : Session α) (granted : Bool) : Frame α → Session α
  | .perform op => s.perform op
  | .hook [] => s
  | .hook (op :: rest) => (s.enter (.hook rest)).enter (.perform op)
  | .batch handle first last [] => s.closeBatch handle first last
  | .batch handle first last (.perform op :: rest) =>
    (s.enter (.batch handle first last rest)).enter (.perform op)
  | .batch handle first last (.panic message :: rest) =>
    s.enter (.rollBack handle (Item.payloads rest) first last (.panicked message))
  | .batch handle first last (.payload payload :: rest) =>
    let allocated := s.store.allocate granted payload
    let s := { s with store := allocated.state }.recordLog allocated.log
    match allocated.answer with
    | .error failure =>
      s.enter (.rollBack handle (payload :: Item.payloads rest) first last (.exhausted failure))
    | .ok link =>
      let s := { s with store := s.store.setNext link first }
      s.enter (.batch handle link (if first.isNil then link else last) rest)
  | .rollBack handle (payload :: unused) cursor last outcome =>
    (s.enter (.rollBack handle unused cursor last outcome)).dropPayload payload
  | .rollBack handle [] cursor last outcome =>
    match s.store.takeValue cursor with
    | none => s.close handle outcome
    | some (payload, store) =>
      let next := s.store.arena.next cursor
      ({ s with store }.enter (.release handle cursor next last outcome)).dropPayload payload
  | .release handle node next last outcome =>
    let s := { s with store := s.store.deallocate node }
    if node = last then s.close handle outcome
    else s.enter (.rollBack handle [] next last outcome)
  | .finish outcome => s.deliver outcome
  | .destroy cursor dropped =>
    match s.store.takeValue cursor with
    | none => if dropped = 0 then s else s.recordLog [.valuesDropped dropped]
    | some (payload, store) =>
      ({ s with store }.enter (.destroy (s.store.arena.next cursor) (dropped + 1))).dropPayload
        payload
  | .pushEach _ [] _ => s.conclude .done
  | .pushEach handle (value :: rest) pushed =>
    (s.enter (.pushEach handle rest pushed)).enter (.perform (.push handle (Payload.plain value)))
  | .popUpTo handle limit got =>
    if limit = some 0 then s.conclude (.values got.reverse) else
      match s.idle? handle with
      | none => s.conclude (.values got.reverse)
      | some context =>
        let popped := (Turn.mk s.store context).pop
        let s := s.settle handle popped
        match popped.answer with
        | none => s.conclude (.values got.reverse)
        | some payload => s.enter (.popUpTo handle (limit.map (· - 1)) (payload.value :: got))

/-- The next small thing; nothing if nothing is under way. -/
def stepWith (granted : Bool) (s : Session α) : Session α :=
  match s.frames with
  | [] => s
  | frame :: frames => { s with frames }.resume granted frame

/-- The next small thing where there is memory enough. -/
def step (s : Session α) : Session α := s.stepWith true

def stepUpTo : Nat → Session α → Session α
  | 0, s => s
  | steps + 1, s => if s.frames.isEmpty then s else stepUpTo steps s.step

def run (s : Session α) : Session α := stepUpTo s.weight s

/-- An operation is about to be performed, with the events afresh. -/
def begin (s : Session α) (op : Op α) : Session α :=
  { s with events := [], answer := none }.enter (.perform op)

def exec (s : Session α) (op : Op α) : Session α := (s.begin op).run

end Session

end RecyclingStack
