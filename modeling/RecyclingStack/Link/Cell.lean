import RecyclingStack.Link.Basic
import RecyclingStack.Messages

/-! A cell that holds one link and is read and written as a whole. The heads of the chains and the
forward link of every slot are such cells. -/
namespace RecyclingStack

namespace Link

/-- The outcome of one strong compare-exchange on a cell: `ok` with the replaced link if the cell
held the expected one, `error` with the link found otherwise. -/
def compareExchange (cell expected : Link) : Except Link Link :=
  if cell = expected then .ok cell else .error cell

/-- What a compare-exchange leaves in the cell. -/
def afterExchange (cell expected replacement : Link) : Link :=
  if cell = expected then replacement else cell

end Link

inductive CellAccess where
  | load
  | store (link : Link)
  | swap (link : Link)
  | compareExchange (expected replacement : Link)

inductive CellAnswer where
  | done
  | link (found : Link)
  | exchanged (outcome : Except Link Link)

namespace CellAccess

/-- The content of the cell after the access. -/
def write (cell : Link) : CellAccess → Link
  | load => cell
  | store link => link
  | swap link => link
  | compareExchange expected replacement => cell.afterExchange expected replacement

/-- The answer of the access, read off the content before it. -/
def answer (cell : Link) : CellAccess → CellAnswer
  | load => .link cell
  | store _ => .done
  | swap _ => .link cell
  | compareExchange expected _ => .exchanged (cell.compareExchange expected)

end CellAccess

inductive CellRequest where
  | access (access : CellAccess)
  | describe (link : Link)
  | inspect
  | refused (reason : Refusal)

/-- All there is to say about a link, and whether a cell holds it. -/
structure LinkDescription where
  index : Nat
  generation : Nat
  isNil : Bool
  debugText : String
  isCurrent : Bool

inductive CellReply where
  | access (answer : CellAnswer)
  | description (description : LinkDescription)
  | text (text : String)
  | refused (reason : Refusal)

namespace CellRequest

/-- The content of the cell after the request. -/
def write (cell : Link) : CellRequest → Link
  | .access a => a.write cell
  | .describe _ | .inspect | .refused _ => cell

def reply (cell : Link) : CellRequest → CellReply
  | .access a => .access (a.answer cell)
  | .describe link =>
    .description ⟨link.index, link.generation, link.isNil, link.debugText, decide (link = cell)⟩
  | .inspect => .text (Record.mk "AtomicLink" [("data", toString cell.word)]).inline
  | .refused reason => .refused reason

def replies (cell : Link) : List CellRequest → List CellReply
  | [] => []
  | request :: rest => request.reply cell :: replies (request.write cell) rest

end CellRequest

end RecyclingStack
