import RecyclingStack.Text

/-! What can be said of a collection of numbers without saying in which order they came. -/
namespace RecyclingStack

/-- Goes on with a run begun, which is kept backwards and lacks some elements. -/
def runsFrom {α : Type} (length lacking : Nat) (begun : List α) : List α → List (List α)
  | [] => [begun.reverse]
  | x :: rest =>
    match lacking with
    | 0 => begun.reverse :: runsFrom length (length - 1) [x] rest
    | lacking + 1 => runsFrom length lacking (x :: begun) rest

/-- Splits a list into runs of a given length; the last one may be shorter. Runs of length 0 are
taken as runs of length 1. -/
def runsOf {α : Type} (length : Nat) : List α → List (List α)
  | [] => []
  | x :: rest => runsFrom length (length - 1) [x] rest

/-- Lists in dictionary order. -/
def dictionaryLe : List Nat → List Nat → Bool
  | [], _ => true
  | _ :: _, [] => false
  | x :: xs, y :: ys => x < y || (x = y && dictionaryLe xs ys)

/-- How many different numbers an ascending list holds. -/
def distinctSorted : List Nat → Nat
  | [] => 0
  | [_] => 1
  | x :: y :: rest => distinctSorted (y :: rest) + if x = y then 0 else 1

/-- The sum and the bounds of a collection; an empty one has no bounds. -/
structure Extent where
  sum : Nat
  min : Option Nat
  max : Option Nat
  deriving DecidableEq

/-- The size of a collection with and without repetitions, and its extent unless that is left
out. -/
structure Summary where
  count : Nat
  distinct : Nat
  extent : Option Extent
  deriving DecidableEq

namespace Summary

def ofList (ids : List Nat) : Summary :=
  let sorted := ids.mergeSort (fun x y => decide (x ≤ y))
  ⟨ids.length, distinctSorted sorted, some ⟨total ids, sorted.head?, sorted.getLast?⟩⟩

/-- The summary without the extent. -/
def brief (s : Summary) : Summary := { s with extent := none }

end Summary

end RecyclingStack
