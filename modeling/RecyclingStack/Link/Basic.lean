import RecyclingStack.Text

/-! Links between slots. A link names a slot by its index and carries the generation the slot had
when the link was formed, so that a link taken before a slot was handed out again differs from
every link to its later incarnations. -/
namespace RecyclingStack

/-- Indices and generations are words of 32 bits. -/
def halfWord : Nat := 1 <<< 32

/-- The index kept back for the nil link; no slot has it. -/
def nilIndex : Nat := halfWord - 1

/-- A reference to one incarnation of a slot, or the end of a chain. -/
inductive Link where
  | nil
  | node (index generation : Nat)
  deriving DecidableEq, Inhabited

namespace Link

/-- The slot index in the low half of the packed word. -/
def index : Link → Nat
  | nil => nilIndex
  | node index _ => index

/-- The generation in the high half of the packed word. -/
def generation : Link → Nat
  | nil => 0
  | node _ generation => generation

def isNil : Link → Bool
  | nil => true
  | node _ _ => false

/-- Both halves in one word, the one that a compare-exchange compares. -/
def word (l : Link) : Nat := l.generation * halfWord + l.index

/-- The written form, `index@generation` or `nil`. -/
def text : Link → String
  | nil => "nil"
  | node index generation => toString index ++ "@" ++ toString generation

def debugText (l : Link) : String := "Link(" ++ l.text ++ ")"

/-- Reads the written form. An index is below `nilIndex`, a generation is any half word. -/
def ofText? (text : String) : Option Link :=
  if text = "nil" then some nil else
    let chars := text.toList
    let (left, right) := (chars.takeWhile (· ≠ '@'), chars.dropWhile (· ≠ '@'))
    match right with
    | [] => none
    | _ :: right => do
      let index ← readNumber? nilIndex left
      let generation ← readNumber? halfWord right
      return node index generation

end Link

end RecyclingStack
