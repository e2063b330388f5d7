import RecyclingStack.Arena.Segment
import RecyclingStack.Link.Cell
import RecyclingStack.Messages

/-! Slots, and storage for them that only grows. A directory holds the segments that are installed;
a segment is installed when the first index that lies in it is claimed, and stays for ever. -/
namespace RecyclingStack

/-- A slot. At any moment one of the stack chain, the free list, the orphan chain, a deferred list
or an unfinished operation owns its `next`; it holds a value while it is on the stack chain or
belongs to an operation that has not published it. -/
structure Slot (α : Type) where
  next : Link := .nil
  generation : Nat := 0
  retiredEpoch : Nat := 0
  value : Option α := none

structure SlotView where
  generation : Nat
  next : Link
  retiredEpoch : Nat
  deriving DecidableEq

namespace Slot

variable {α : Type}

def view (s : Slot α) : SlotView := ⟨s.generation, s.next, s.retiredEpoch⟩

/-- The next incarnation's generation. Generations wrap around at a half word. -/
def nextGeneration (s : Slot α) : Nat := (s.generation + 1) % halfWord

def bump (s : Slot α) : Slot α := { s with generation := s.nextGeneration }

/-- A new incarnation of the slot that holds `value`: no forward link, no retirement tag. -/
def incarnate (s : Slot α) (value : α) : Slot α :=
  { next := .nil, generation := s.nextGeneration, retiredEpoch := 0, value := some value }

end Slot

/-- Storage for slots, with `fresh` the number of indices handed out so far. -/
structure Arena (α : Type) where
  capacity : Nat
  fresh : Nat
  directory : List (Option (Array (Slot α)))

namespace Arena

variable {α : Type}

/-- An arena of no slots. The capacity asked for is cut to what the segments can hold. -/
def empty (requested : Option Nat) : Arena α where
  capacity := match requested with
    | none => maxCapacity
    | some n => min n maxCapacity
  fresh := 0
  directory := List.replicate segmentCount none

def segment? (a : Arena α) (segment : Nat) : Option (Array (Slot α)) :=
  a.directory[segment]?.join

def slot? (a : Arena α) (index : Nat) : Option (Slot α) :=
  (a.segment? (locate index).segment).bind fun slots => slots[(locate index).offset]?

/-- Changes one slot in place; nothing happens where no slot is. -/
def modify (a : Arena α) (index : Nat) (f : Slot α → Slot α) : Arena α :=
  let place := locate index
  { a with
    directory := a.directory.modify place.segment fun entry =>
      entry.map fun slots => slots.modify place.offset f }

/-- The slot behind a link. Where there is none, a slot never used. -/
def read (a : Arena α) (l : Link) : Slot α :=
  match l with
  | .nil => {}
  | .node index _ => (a.slot? index).getD {}

def update (a : Arena α) (l : Link) (f : Slot α → Slot α) : Arena α :=
  match l with
  | .nil => a
  | .node index _ => a.modify index f

def next (a : Arena α) (l : Link) : Link := (a.read l).next

def setNext (a : Arena α) (l next : Link) : Arena α :=
  a.update l fun s => { s with next }

def setRetiredEpoch (a : Arena α) (l : Link) (epoch : Nat) : Arena α :=
  a.update l fun s => { s with retiredEpoch := epoch }

def clearValue (a : Arena α) (l : Link) : Arena α :=
  a.update l fun s => { s with value := none }

/-- The links met when following `next` from `l`, at most `fuel` of them. -/
def follow (a : Arena α) : (fuel : Nat) → (l : Link) → List Link
  | 0, _ => []
  | _, .nil => []
  | fuel + 1, l@(.node _ _) => l :: a.follow fuel (a.next l)

/-- The chain that starts at `l`. A chain meets no slot twice, so that the number of slots handed
out bounds its length. -/
def chain (a : Arena α) (l : Link) : List Link := a.follow a.fresh l

def installed (a : Arena α) (segment : Nat) : Bool := (a.segment? segment).isSome

/-- Puts a segment of unused slots into the directory. -/
def install (a : Arena α) (segment : Nat) : Arena α :=
  { a with
    directory := a.directory.set segment (some (Array.replicate (segmentLength segment) {})) }

/-- Claims the next unused index. The segment it lies in is installed first, if memory for it is
`granted`; a failed claim changes nothing. -/
def allocFresh (a : Arena α) (granted : Bool) : Effect (Arena α) (Except Exhausted Nat) :=
  let segment := (locate a.fresh).segment
  if a.capacity ≤ a.fresh then
    ⟨a, .error ⟨a.capacity⟩, []⟩
  else if a.installed segment then
    ⟨{ a with fresh := a.fresh + 1 }, .ok a.fresh, []⟩
  else if granted then
    ⟨{ a.install segment with fresh := a.fresh + 1 }, .ok a.fresh,
      [.segmentInstalled segment (segmentLength segment)]⟩
  else
    ⟨a, .error ⟨a.capacity⟩, [.reservationFailed segment (segmentLength segment)]⟩

def views (a : Arena α) : List SlotView :=
  (List.range a.fresh).map fun index => ((a.slot? index).getD {}).view

end Arena

end RecyclingStack
