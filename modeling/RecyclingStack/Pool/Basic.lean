import RecyclingStack.Arena.Basic

/-! A pool hands out slots for values. Slots given back wait on a free list, threaded through their
own forward links; only when that list is empty does the arena grow. -/
namespace RecyclingStack

structure Pool (α : Type) where
  arena : Arena α
  free : Link

namespace Pool

variable {α : Type}

def empty (requested : Option Nat) : Pool α := ⟨Arena.empty requested, .nil⟩

/-- The free list, top first. -/
def freeList (p : Pool α) : List Link := p.arena.chain p.free

/-- Starts a new incarnation of a slot that nobody else owns, and links to it. -/
def incarnate (p : Pool α) (index : Nat) (value : α) : Pool α × Link :=
  let arena := p.arena.modify index fun s => s.incarnate value
  ({ p with arena }, .node index ((arena.slot? index).getD {}).generation)

/-- A slot for `value`: the top of the free list, else one never used. Memory for a further segment
is there if `granted`. -/
def allocate (p : Pool α) (granted : Bool) (value : α) :
    Effect (Pool α) (Except Exhausted Link) :=
  match p.free with
  | .node index _ =>
    let (p, link) := { p with free := p.arena.next p.free }.incarnate index value
    ⟨p, .ok link, []⟩
  | .nil =>
    let claim := p.arena.allocFresh granted
    match claim.answer with
    | .ok index =>
      let (p, link) := { p with arena := claim.state }.incarnate index value
      ⟨p, .ok link, claim.log⟩
    | .error failure =>
      ⟨{ p with arena := claim.state }, .error failure, claim.log ++ [.allocationFailed failure]⟩

/-- Puts a slot without value on top of the free list. -/
def deallocate (p : Pool α) (l : Link) : Pool α :=
  { p with arena := p.arena.setNext l p.free, free := l }

def deallocateAll (p : Pool α) (links : List Link) : Pool α := links.foldl deallocate p

end Pool

end RecyclingStack
