import RecyclingStack.Pool.Basic

/-! A pool and the tenant of its slots, who remembers the link of each slot handed out and whether
the value written into it is still there. -/
namespace RecyclingStack

/-- A slot handed out and not yet given back. -/
structure Lease where
  link : Link
  filled : Bool

inductive LeaseRequest where
  | take
  | dropValue
  | dealloc
  | setRetiredEpoch (epoch : Nat)
  | setNext (next : Except Refusal Link)
  | read

inductive PoolRequest (α : Type) where
  | alloc (value : α)
  | atSlot (slot : Option Nat) (request : LeaseRequest)
  | refused (reason : Refusal)

inductive PoolReply (α : Type) where
  | leased (link : Link)
  | exhausted (failure : Exhausted)
  | taken (value : α)
  | slot (view : SlotView)
  | done
  | refused (reason : Refusal)

inductive PoolEvent (α : Type) where
  | log (line : LogLine)
  | dropped (value : α)

/-- A pool with the leases on its slots, by slot index. -/
structure Tenancy (α : Type) where
  pool : Pool α
  leases : List (Nat × Lease)

namespace Tenancy

variable {α : Type}

/-- One served request: the state after it, the reply, and the events in order. -/
structure Served (α : Type) where
  state : Tenancy α
  reply : PoolReply α
  events : List (PoolEvent α)

def empty (requested : Option Nat) : Tenancy α := ⟨Pool.empty requested, []⟩

def lease? (t : Tenancy α) (index : Nat) : Option Lease := t.leases.lookup index

def without (t : Tenancy α) (index : Nat) : List (Nat × Lease) :=
  t.leases.filter fun entry => entry.1 ≠ index

def withArena (t : Tenancy α) (arena : Arena α) : Tenancy α :=
  { t with pool := { t.pool with arena } }

/-- The tenant's value leaves the slot, which stays leased. -/
def vacate (t : Tenancy α) (index : Nat) (lease : Lease) : Tenancy α :=
  { pool := { t.pool with arena := t.pool.arena.clearValue lease.link }
    leases := (index, { lease with filled := false }) :: t.without index }

def alloc (t : Tenancy α) (value : α) : Served α :=
  let allocated := t.pool.allocate true value
  let events := allocated.log.map PoolEvent.log
  match allocated.answer with
  | .ok link =>
    ⟨{ pool := allocated.state, leases := (link.index, ⟨link, true⟩) :: t.without link.index },
      .leased link, events⟩
  | .error failure =>
    ⟨{ t with pool := allocated.state }, .exhausted failure, events ++ [.dropped value]⟩

/-- Serves a request on a leased slot. Taking and dropping need the value, giving the slot back
needs it gone. -/
def serveLease (t : Tenancy α) (index : Nat) (lease : Lease) : LeaseRequest → Served α
  | .take =>
    match lease.filled, (t.pool.arena.read lease.link).value with
    | true, some value => ⟨t.vacate index lease, .taken value, []⟩
    | _, _ => ⟨t, .refused .notOwned, []⟩
  | .dropValue =>
    match lease.filled, (t.pool.arena.read lease.link).value with
    | true, some value => ⟨t.vacate index lease, .done, [.dropped value]⟩
    | _, _ => ⟨t, .refused .notOwned, []⟩
  | .dealloc =>
    if lease.filled then ⟨t, .refused .notOwned, []⟩ else
      ⟨{ pool := t.pool.deallocate lease.link, leases := t.without index }, .done, []⟩
  | .setRetiredEpoch epoch =>
    ⟨t.withArena (t.pool.arena.setRetiredEpoch lease.link epoch), .done, []⟩
  | .setNext (.ok next) => ⟨t.withArena (t.pool.arena.setNext lease.link next), .done, []⟩
  | .setNext (.error reason) => ⟨t, .refused reason, []⟩
  | .read => ⟨t, .slot (t.pool.arena.read lease.link).view, []⟩

def serve (t : Tenancy α) : PoolRequest α → Served α
  | .alloc value => t.alloc value
  | .atSlot slot request =>
    match slot.bind fun index => (t.lease? index).map fun lease => (index, lease) with
    | some (index, lease) => t.serveLease index lease request
    | none => ⟨t, .refused .notOwned, []⟩
  | .refused reason => ⟨t, .refused reason, []⟩

/-- What is reported of one request: the reply, the events, the number of indices handed out, and
the indices on the free list. -/
structure Step (α : Type) where
  reply : PoolReply α
  events : List (PoolEvent α)
  allocated : Nat
  free : List Nat

def steps (t : Tenancy α) : List (PoolRequest α) → List (Step α)
  | [] => []
  | request :: rest =>
    let served := t.serve request
    let pool := served.state.pool
    ⟨served.reply, served.events, pool.arena.fresh, pool.freeList.map Link.index⟩ ::
      served.state.steps rest

end Tenancy

end RecyclingStack
