import RecyclingStack.Arena.Basic

/-! Requests made directly of an arena, without the stack on top of it. -/
namespace RecyclingStack

inductive SlotRequest where
  | bump (times : Nat)
  | setRetiredEpoch (epoch : Nat)
  | read
  | nextCell (access : CellAccess)

/-- A request names its slot or needs none. One that could not be understood carries the reason,
which counts only once the slot is known to exist. -/
inductive ArenaRequest where
  | alloc (count : Nat)
  | capacity
  | atSlot (slot : Option Nat) (request : Except Refusal SlotRequest)

inductive ArenaReply where
  | claims (outcomes : List (Except Exhausted Nat))
  | capacity (capacity : Nat)
  | generations (generations : List Nat)
  | slot (view : SlotView)
  | cell (answer : CellAnswer)
  | done
  | refused (reason : Refusal)

namespace Arena

variable {α : Type}

/-- Claims up to `count` indices, and stops after the first failure. -/
def claim (granted : Bool) (outcomes : List (Except Exhausted Nat)) (log : List LogLine)
    (a : Arena α) : (count : Nat) → Effect (Arena α) (List (Except Exhausted Nat))
  | 0 => ⟨a, outcomes.reverse, log⟩
  | count + 1 =>
    let claim := a.allocFresh granted
    match claim.answer with
    | .ok index => claim.state.claim granted (.ok index :: outcomes) (log ++ claim.log) count
    | .error failure => ⟨claim.state, (.error failure :: outcomes).reverse, log ++ claim.log⟩

def bumps (index : Nat) (generations : List Nat) (a : Arena α) :
    (times : Nat) → Arena α × List Nat
  | 0 => (a, generations.reverse)
  | times + 1 =>
    let a := a.modify index Slot.bump
    a.bumps index (((a.slot? index).getD {}).generation :: generations) times

def serveSlot (a : Arena α) (index : Nat) : SlotRequest → Arena α × ArenaReply
  | .bump times =>
    let (a, generations) := a.bumps index [] times
    (a, .generations generations)
  | .setRetiredEpoch epoch => (a.modify index fun s => { s with retiredEpoch := epoch }, .done)
  | .read => (a, .slot ((a.slot? index).getD {}).view)
  | .nextCell access =>
    let cell := ((a.slot? index).getD {}).next
    (a.modify index fun s => { s with next := access.write cell }, .cell (access.answer cell))

def serve (a : Arena α) : ArenaRequest → Effect (Arena α) ArenaReply
  | .alloc count =>
    let claims := a.claim true [] [] count
    ⟨claims.state, .claims claims.answer, claims.log⟩
  | .capacity => ⟨a, .capacity a.capacity, []⟩
  | .atSlot none _ => ⟨a, .refused .noSlot, []⟩
  | .atSlot (some index) request =>
    if a.fresh ≤ index then ⟨a, .refused .noSlot, []⟩ else
      match request with
      | .error reason => ⟨a, .refused reason, []⟩
      | .ok request =>
        let (a, reply) := a.serveSlot index request
        ⟨a, reply, []⟩

/-- One served request: the reply, the lines logged, and the number of indices handed out by
then. -/
structure Step (Reply : Type) where
  reply : Reply
  log : List LogLine
  allocated : Nat

def steps (a : Arena α) : List ArenaRequest → List (Step ArenaReply)
  | [] => []
  | request :: rest =>
    let served := a.serve request
    ⟨served.answer, served.log, served.state.fresh⟩ :: served.state.steps rest

/-- Claims made one at a time while no memory is to be had. -/
def starvedClaims (a : Arena α) : (attempts : Nat) → List (Step (Except Exhausted Nat))
  | 0 => []
  | attempts + 1 =>
    let claim := a.allocFresh false
    ⟨claim.answer, claim.log, claim.state.fresh⟩ :: claim.state.starvedClaims attempts

end Arena

end RecyclingStack
