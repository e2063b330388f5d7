import RecyclingStack.Interleaving.Worker

/-! Threads that share one stack, and the steps of an interleaved run. Memory is sequentially
consistent: an access takes effect at once and for all. A compare-exchange of a loop may fail
although it finds what it expects, and memory for a segment may be refused; the schedule says
when. -/
namespace RecyclingStack

/-- Whether a compare-exchange goes through: it finds what it expects, and does not fail for no
reason. -/
def exchanges {β : Type} [DecidableEq β] (spurious : Bool) (cell expected : β) : Bool :=
  !spurious && decide (cell = expected)

namespace Worker

variable {α : Type}

/-- One access of shared memory by a thread, with the purely local work that follows it. -/
def step (w : Worker α) (s : Store α) (spurious : Bool) : Store α × Worker α :=
  match w.phase with
  | .ready => (s, w.start)
  | .find _ after => (s, w.goto after)
  | .loadFree job value => (s, w.takeFree job value s.pool.free)
  | .readFree job value top => (s, w.goto (.swingFree job value top (s.arena.next top)))
  | .swingFree job value top next =>
    if exchanges spurious s.pool.free top then
      ({ s with pool := { s.pool with free := next } },
        w.seek top (.loadGeneration job value top.index))
    else (s, w.takeFree job value s.pool.free)
  | .loadFresh job value => (s, w.takeFresh s.arena.capacity job value s.arena.fresh)
  | .checkSegment job value index =>
    if s.arena.installed (locate index).segment then (s, w.goto (.claimFresh job value index))
    else (s, w.goto (.installSegment job value index))
  | .installSegment job value index =>
    let segment := (locate index).segment
    if spurious then (s, w.rollBack job value ⟨s.arena.capacity⟩)
    else if s.arena.installed segment then (s, w.goto (.claimFresh job value index))
    else (s.withArena (s.arena.install segment), w.goto (.claimFresh job value index))
  | .claimFresh job value index =>
    if exchanges spurious s.arena.fresh index then
      (s.withArena { s.arena with fresh := index + 1 },
        w.goto (.find index (.loadGeneration job value index)))
    else (s, w.takeFresh s.arena.capacity job value s.arena.fresh)
  | .loadGeneration job value index =>
    let generation := ((s.arena.slot? index).getD {}).nextGeneration
    (s, w.goto (.storeGeneration job value index generation))
  | .storeGeneration job value index generation =>
    (s.withArena (s.arena.modify index fun slot => { slot with generation }),
      w.goto (.clearNext job value (.node index generation)))
  | .clearNext job value node => (s.setNext node .nil, w.goto (.clearTag job value node))
  | .clearTag job value node =>
    let filled := s.arena.update node fun slot =>
      { slot with retiredEpoch := 0, value := some value }
    let job' := { job with first := node, last := if job.first.isNil then node else job.last }
    (s.withArena filled,
      if job.linking then w.seek node (.linkNode job node) else w.build job')
  | .linkNode job node =>
    let last := if job.first.isNil then node else job.last
    (s.setNext node job.first, w.build { job with first := node, last })
  | .loadHead first last => (s, w.goto (.checkShutdown first last s.head))
  | .checkShutdown first last head =>
    if s.shutdown then (s, w.seek first (.readDoomed first last .done))
    else (s, w.goto (.linkLast first last head))
  | .linkLast first last head => (s.setNext last head, w.goto (.swingHead first last head))
  | .swingHead first last head =>
    if exchanges spurious s.head head then ({ s with head := first }, w.complete s.settings .done)
    else (s, w.goto (.checkShutdown first last s.head))
  | .readDoomed node last answer =>
    let next := s.arena.next node
    let after := Release.discard next last answer
    match s.takeValue node with
    | none => (s, w.seek node (.loadFreeTop node after))
    | some (value, s) => (s, (w.drop value).seek node (.loadFreeTop node after))
  | .loadTop => (s, w.takeTop s.head)
  | .checkTop head =>
    if s.shutdown then (s, w.finish (.popped none)) else (s, w.seek head (.readTop head))
  | .readTop head => (s, w.goto (.swingTop head (s.arena.next head)))
  | .swingTop head next =>
    if exchanges spurious s.head head then
      match s.takeValue head with
      | none => ({ s with head := next }, w.finish (.popped none))
      | some (value, s) => ({ s with head := next }, w.goto (.loadRetireEpoch head value))
    else (s, w.takeTop s.head)
  | .loadRetireEpoch node value =>
    (s, { w with context := { w.context with snapshot := s.epoch } }.seek node
      (.storeTag node value s.epoch))
  | .storeTag node value epoch =>
    (s.withArena (s.arena.setRetiredEpoch node epoch),
      { w with context := w.context.defer node epoch }.complete s.settings (.popped (some value)))
  | .bumpEpoch after => ({ s with epoch := nextWord s.epoch }, w.goto (.loadOrphans after))
  | .loadOrphans after =>
    if s.orphans.isNil then (s, w.goto (.loadEpoch after)) else (s, w.goto (.takeOrphans after))
  | .takeOrphans after => ({ s with orphans := .nil }, w.adoptFrom after s.orphans)
  | .readOrphan node after => (s, w.goto (.readTag node (s.arena.next node) after))
  | .readTag node next after =>
    (s, { w with context := w.context.defer node (s.arena.read node).retiredEpoch }.adoptFrom
      after next)
  | .loadEpoch after =>
    let released := w.context.deferred.released s.epoch s.settings.gracePeriod
    let deferred := w.context.deferred.retained s.epoch s.settings.gracePeriod
    (s, { w with context := { w.context with snapshot := s.epoch, deferred } }.sweepOn
      released.length after released)
  | .loadFreeTop node after => (s, w.goto (.linkFree node s.pool.free after))
  | .linkFree node top after => (s.setNext node top, w.goto (.pushFree node top after))
  | .pushFree node top after =>
    if exchanges spurious s.pool.free top then
      ({ s with pool := { s.pool with free := node } }, w.afterRelease node after)
    else (s, w.goto (.linkFree node s.pool.free after))
  | .threadOrphans nodes (node :: next :: rest) =>
    (s.setNext node next,
      w.seek next
        (if rest.isEmpty then .loadOrphanTop nodes else .threadOrphans nodes (next :: rest)))
  | .threadOrphans nodes _ => (s, w.goto (.loadOrphanTop nodes))
  | .loadOrphanTop nodes => (s, w.goto (.linkOrphans nodes s.orphans))
  | .linkOrphans nodes top =>
    (s.setNext (nodes.getLastD .nil) top, w.goto (.pushOrphans nodes top))
  | .pushOrphans nodes top =>
    if exchanges spurious s.orphans top then
      ({ s with orphans := nodes.headD .nil }, w.finish .done)
    else (s, w.goto (.linkOrphans nodes s.orphans))
  | .raiseShutdown => ({ s with shutdown := true }, w.finish .done)

end Worker

/-- A shared stack and the threads that use it. -/
structure Machine (α : Type) where
  store : Store α
  workers : List (Worker α)

namespace Machine

variable {α : Type}

/-- A new stack, and threads with a program each. -/
def ofPrograms (p : Plan) (programs : List (List (Call α))) : Machine α :=
  let store := Store.ofPlan p
  ⟨store, programs.map (Worker.register store)⟩

/-- The next access of one thread. -/
def step (m : Machine α) (worker : Nat) (spurious : Bool) : Machine α :=
  match m.workers[worker]? with
  | none => m
  | some w =>
    let (store, w) := w.step m.store spurious
    ⟨store, m.workers.set worker w⟩

/-- A run along a schedule: whose access comes next, and whether it fails for no reason, or for want
of memory. -/
def run (m : Machine α) (schedule : List (Nat × Bool)) : Machine α :=
  schedule.foldl (fun m turn => m.step turn.1 turn.2) m

def isIdle (m : Machine α) : Bool := m.workers.all Worker.isIdle

def round (m : Machine α) : Machine α :=
  (List.range m.workers.length).foldl (fun m worker => m.step worker false) m

/-- Rounds until every thread has done its program, at most that many. -/
def runRounds : Nat → Machine α → Machine α
  | 0, m => m
  | rounds + 1, m => if m.isIdle then m else runRounds rounds m.round

/-- Gives every thread more to do after what it has. -/
def assign (m : Machine α) (program : Nat → List (Call α)) : Machine α :=
  { m with
    workers := m.workers.mapIdx fun i w => { w with program := w.program ++ program i } }

end Machine

end RecyclingStack
