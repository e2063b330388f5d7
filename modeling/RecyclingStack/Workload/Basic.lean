import RecyclingStack.Interleaving.Machine
import RecyclingStack.Store.Turn
import RecyclingStack.Workload.Summary

/-! Workloads for several threads, and the facts about their runs that no schedule can change. The
runs are made with one schedule, in which the threads take turns access by access, so that they
get in each other's way as often as possible. -/
namespace RecyclingStack

inductive Scenario where
  | push
  | batches
  | produceConsume
  | churn
  | orphans
  | advance
  | shutdown

/-- A workload: the stack, the threads, and how much each of them does. -/
structure Workload where
  scenario : Scenario
  plan : Plan
  threads : Nat
  perThread : Nat
  /-- The length of the batches to push; single pushes if there is none. -/
  batch : Option Nat
  consumers : Nat
  rounds : Nat

inductive Findings where
  | push (failed epoch allocated : Nat) (popped : Summary)
  | batches (runs : List (List Nat))
  | produceConsume (failed : Nat) (popped : Summary)
  | churn (popped : Summary)
  | orphans (popped : Nat) (rounds : List (Nat × Nat))
  | advance (epoch : Nat)
  | shutdown (popped : Summary) (isShutdown : Bool)

/-- The findings; whether the stack was left empty or shut down; and how many values were dropped
by anyone once everything is gone. -/
structure WorkloadReport where
  findings : Findings
  empty : Bool
  drops : Nat

namespace Turn

variable {α : Type}

/-- Pops until nothing comes any more, at most that many times. -/
def drain (t : Turn α) : (fuel : Nat) → Turn α × List α
  | 0 => (t, [])
  | fuel + 1 =>
    let popped := t.pop
    match popped.answer with
    | none => (popped.state, [])
    | some value =>
      let (t, rest) := popped.state.drain fuel
      (t, value :: rest)

/-- Advances the epoch again and again: how many nodes were recycled each time, and how many are
still deferred. -/
def advances (t : Turn α) : (rounds : Nat) → Turn α × List (Nat × Nat)
  | 0 => (t, [])
  | rounds + 1 =>
    let advanced := t.advance
    let (t, rest) := advanced.state.advances rounds
    (t, (advanced.answer, advanced.state.context.deferred.count) :: rest)

end Turn

namespace Worker

variable {α : Type}

def popped (w : Worker α) : List α :=
  w.records.reverse.filterMap fun record =>
    match record.answer with
    | .popped value => value
    | _ => none

def failures (w : Worker α) : Nat :=
  w.records.countP fun record =>
    match record.answer with
    | .exhausted _ => true
    | _ => false

def drops (w : Worker α) : Nat := total (w.records.map fun record => record.dropped.length)

end Worker

namespace Machine

variable {α : Type}

def popped (m : Machine α) : List α := m.workers.flatMap Worker.popped

def failures (m : Machine α) : Nat := total (m.workers.map Worker.failures)

def drops (m : Machine α) : Nat := total (m.workers.map Worker.drops)

/-- More rounds than the threads can need for what is left of their programs. Every access of a
thread can be in vain once for each other thread. -/
def roundLimit (m : Machine α) : Nat :=
  let size := fun (call : Call α) =>
    match call with
    | .pushBatch values => values.length + 1
    | _ => 1
  let work := total (m.workers.map fun w => total (w.program.map size))
  64 * (work + m.store.arena.fresh + 1) * (m.workers.length + 1)

def runAll (m : Machine α) : Machine α := m.runRounds m.roundLimit

/-- A handle registered once the threads are done, which pops everything. -/
def drain (m : Machine α) : Turn α × List α :=
  (Turn.mk m.store (Context.register m.store)).drain (m.store.arena.fresh + 1)

end Machine

namespace Workload

def ids (w : Workload) (thread : Nat) : List Nat :=
  (List.range w.perThread).map fun i => thread * w.perThread + i

def pushes (w : Workload) (thread : Nat) : List (Call Nat) :=
  match w.batch with
  | none => (w.ids thread).map Call.push
  | some length => (runsOf length (w.ids thread)).map Call.pushBatch

/-- A pop after every single push. -/
def churning (w : Workload) (thread : Nat) : List (Call Nat) :=
  (w.ids thread).flatMap fun id => [.push id, .pop]

/-- What each thread does in the first part of the workload. -/
def programs (w : Workload) : List (List (Call Nat)) :=
  let each := fun (program : Nat → List (Call Nat)) => (List.range w.threads).map program
  let pops := fun n => List.replicate n Call.pop
  match w.scenario with
  | .push | .batches => each fun t => w.pushes t ++ [.leave]
  | .produceConsume =>
    each (fun t => w.pushes t ++ [.leave])
      ++ List.replicate w.consumers (pops (w.threads * w.perThread))
  | .churn => each fun t => w.churning t ++ [.leave]
  | .orphans => each fun t => w.pushes t ++ pops w.perThread
  | .advance => each fun _ => List.replicate w.perThread .advance ++ [.leave]
  | .shutdown => each (fun t => w.pushes t ++ [.leave]) ++ [[.shutdown]]

/-- What the threads do once all have done the first part: consumers pop what is left, and those
that have waited leave. -/
def epilogue (w : Workload) : (worker : Nat) → List (Call Nat) :=
  match w.scenario with
  | .produceConsume => fun worker =>
    if worker < w.threads then []
    else List.replicate (w.threads * w.perThread) .pop ++ [.leave]
  | .orphans => fun _ => [.leave]
  | _ => fun _ => []

def finalMachine (w : Workload) : Machine Nat :=
  (((Machine.ofPrograms w.plan w.programs).runAll).assign w.epilogue).runAll

/-- Runs the workload. Popped values are dropped by those who popped them, and what is left on the
stack is dropped with the stack. -/
def report (w : Workload) : WorkloadReport :=
  let m := w.finalMachine
  let conclude := fun (findings : Findings) (store : Store Nat) (drained : List Nat) =>
    { findings
      empty := store.isEmpty || store.shutdown
      drops := m.popped.length + m.drops + drained.length + store.values.length }
  match w.scenario with
  | .push =>
    let (turn, drained) := m.drain
    let summary := Summary.ofList drained
    let summary := if 0 < m.failures then summary.brief else summary
    conclude (.push m.failures m.store.epoch m.store.arena.fresh summary) turn.store drained
  | .batches =>
    let (turn, drained) := m.drain
    let runs := (runsOf (w.batch.getD 1) drained).mergeSort dictionaryLe
    conclude (.batches runs) turn.store drained
  | .produceConsume =>
    conclude (.produceConsume m.failures (Summary.ofList m.popped)) m.store []
  | .churn => conclude (.churn (Summary.ofList m.popped)) m.store []
  | .orphans =>
    let (turn, rounds) := (Turn.mk m.store (Context.register m.store)).advances w.rounds
    conclude (.orphans m.popped.length rounds) turn.store []
  | .advance => conclude (.advance m.store.epoch) m.store []
  | .shutdown =>
    let (turn, drained) := m.drain
    conclude (.shutdown (Summary.ofList drained) turn.store.shutdown) turn.store drained

end Workload

end RecyclingStack
