import RecyclingStack.Store.Basic

/-! What a handle does to the shared state in one go, while nobody else is at work. -/
namespace RecyclingStack

/-- The shared state and the context of the handle at work. -/
structure Turn (α : Type) where
  store : Store α
  context : Context

namespace Turn

variable {α : Type}

/-- Takes the whole orphan chain over, each node under the tag in its slot. -/
def adopt (t : Turn α) : Effect (Turn α) Nat :=
  let adopted := t.store.orphanChain
  let tag := fun l => (t.store.arena.read l).retiredEpoch
  let context := adopted.foldl (fun c l => c.defer l (tag l)) t.context
  ⟨{ store := { t.store with orphans := .nil }, context }, adopted.length,
    if adopted.isEmpty then [] else [.orphansAdopted adopted.length]⟩

/-- Gives back to the pool every deferred node whose grace period has passed. -/
def sweep (t : Turn α) : Effect (Turn α) Nat :=
  let epoch := t.store.epoch
  let grace := t.store.settings.gracePeriod
  let released := t.context.deferred.released epoch grace
  let deferred := t.context.deferred.retained epoch grace
  ⟨{ store := { t.store with pool := t.store.pool.deallocateAll released }
     context := { t.context with snapshot := epoch, deferred } },
    released.length,
    if released.isEmpty then [] else [.nodesReclaimed released.length epoch deferred.count]⟩

/-- Adopts the orphans, then sweeps. Answers how many nodes went back to the pool. -/
def reclaim (t : Turn α) : Effect (Turn α) Nat :=
  let adopted := t.adopt
  let swept := adopted.state.sweep
  ⟨swept.state, swept.answer, adopted.log ++ swept.log⟩

/-- Advances the global epoch, then reclaims. -/
def advance (t : Turn α) : Effect (Turn α) Nat :=
  let epoch := nextWord t.store.epoch
  let reclaimed := { t with store := { t.store with epoch } }.reclaim
  ⟨reclaimed.state, reclaimed.answer, .epochAdvanced epoch :: reclaimed.log⟩

/-- Counts a completed operation, and advances the epoch if it is time to. -/
def complete (t : Turn α) : Effect (Turn α) Unit :=
  let counted := { t with context := t.context.count }
  if counted.context.mustAdvance t.store.settings then
    let advanced := counted.advance
    ⟨advanced.state, (), advanced.log⟩
  else
    ⟨counted, (), []⟩

/-- Tags a popped node with the epoch, and defers its reuse. -/
def retire (t : Turn α) (l : Link) : Turn α :=
  let epoch := t.store.epoch
  { store := t.store.withArena (t.store.arena.setRetiredEpoch l epoch)
    context := { t.context with snapshot := epoch }.defer l epoch }

/-- Takes the top value off the stack. -/
def pop (t : Turn α) : Effect (Turn α) (Option α) :=
  match t.store.unlink with
  | none => ⟨t, none, []⟩
  | some (link, value, store) =>
    let completed := ({ t with store }.retire link).complete
    ⟨completed.state, some value, completed.log⟩

/-- Puts a private chain on the stack, and counts the operation. -/
def publish (t : Turn α) (first last : Link) : Effect (Turn α) Unit :=
  { t with store := t.store.publish first last }.complete

/-- Deregistration: reclaims once, and leaves the nodes that are still deferred to whoever
reclaims next. -/
def abandon (t : Turn α) : Effect (Store α) Unit :=
  let reclaimed := t.reclaim
  let store := reclaimed.state.store
  let links := reclaimed.state.context.deferred.links
  ⟨store.orphan links, (),
    reclaimed.log ++ if links.isEmpty then [] else [.handleDeregistered links.length]⟩

end Turn

end RecyclingStack
