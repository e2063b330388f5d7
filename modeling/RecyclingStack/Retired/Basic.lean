import RecyclingStack.Link.Basic

/-! Nodes that were popped and may not be reused yet. They are kept in bags, one for each epoch of
retirement, oldest bag first, so that what may be reused always lies in front. -/
namespace RecyclingStack

/-- Whether a node retired at epoch `retired` may be reused at epoch `current`: the epoch has
advanced more than `grace` times since. -/
def reclaimable (retired current grace : Nat) : Bool := retired + grace < current

/-- The nodes retired at one epoch, in the order in which they came. -/
structure Bag where
  epoch : Nat
  links : List Link
  deriving DecidableEq

/-- Adds a link under its epoch, behind all links of that epoch, and keeps the bags in ascending
order of their epochs. -/
def Bag.insert (link : Link) (epoch : Nat) : List Bag → List Bag
  | [] => [⟨epoch, [link]⟩]
  | bag :: rest =>
    if bag.epoch < epoch then bag :: Bag.insert link epoch rest
    else if bag.epoch = epoch then { bag with links := bag.links ++ [link] } :: rest
    else ⟨epoch, [link]⟩ :: bag :: rest

/-- A list of retired nodes, with a count of them. -/
structure RetireList where
  bags : List Bag
  count : Nat

namespace RetireList

def empty : RetireList := ⟨[], 0⟩

def isEmpty (r : RetireList) : Bool := r.count = 0

def links (r : RetireList) : List Link := r.bags.flatMap Bag.links

def push (r : RetireList) (link : Link) (epoch : Nat) : RetireList :=
  ⟨Bag.insert link epoch r.bags, r.count + 1⟩

/-- The bags whose grace period has passed. -/
def due (r : RetireList) (current grace : Nat) : List Bag :=
  r.bags.takeWhile fun bag => reclaimable bag.epoch current grace

/-- The links to be released now, in order. -/
def released (r : RetireList) (current grace : Nat) : List Link :=
  (r.due current grace).flatMap Bag.links

/-- What stays deferred once those links are released. -/
def retained (r : RetireList) (current grace : Nat) : RetireList where
  bags := r.bags.dropWhile fun bag => reclaimable bag.epoch current grace
  count := r.count - (r.released current grace).length

end RetireList

end RecyclingStack
