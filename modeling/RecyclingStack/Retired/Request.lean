import RecyclingStack.Retired.Basic
import RecyclingStack.Messages

/-! Requests made directly of a list of retired nodes. -/
namespace RecyclingStack

inductive RetireRequest where
  | push (link : Link) (epoch : Nat)
  | collect (current grace : Nat)
  | takeAll
  | refused (reason : Refusal)

inductive RetireReply where
  | done
  | released (order : List Link)
  | links (links : List Link)
  | refused (reason : Refusal)

namespace RetireList

def serve (r : RetireList) : RetireRequest → RetireList × RetireReply
  | .push link epoch => (r.push link epoch, .done)
  | .collect current grace => (r.retained current grace, .released (r.released current grace))
  | .takeAll => (empty, .links r.links)
  | .refused reason => (r, .refused reason)

structure Step where
  reply : RetireReply
  after : RetireList

def steps (r : RetireList) : List RetireRequest → List Step
  | [] => []
  | request :: rest =>
    let (r, reply) := r.serve request
    ⟨reply, r⟩ :: r.steps rest

end RetireList

end RecyclingStack
