import RecyclingStack.Interleaving.Machine

/-! What threads do to the stack in an interleaved run, one successful exchange of the head after
the other, and what they tell of it in their answers. -/
namespace RecyclingStack

/-- Nothing is on a list more often than the list is long. -/
theorem count_lt_of_length {out : List Nat} {n : Nat} (hlength : out.length < n) (i : Nat) :
    out.count i < n :=
  Nat.lt_of_le_of_lt List.count_le_length hlength

def Call.values {α : Type} : Call α → List α
  | push value => [value]
  | pushBatch values => values
  | _ => []

/-- What a successful exchange of the head does to the list of values on the stack: a batch goes on
top, last value first, or the top is removed. -/
inductive Deed (α : Type) where
  | put (values : List α)
  | take

def Deed.apply {α : Type} (l : List α) : Deed α → List α
  | put values => values.reverse ++ l
  | take => l.tail

/-- A successful exchange of the head, by which thread, and in which of its calls. -/
structure Swing (α : Type) where
  worker : Nat
  call : Nat
  deed : Deed α

namespace Swing

variable {α : Type}

def replay (l : List α) (swings : List (Swing α)) : List α :=
  swings.foldl (fun l swing => swing.deed.apply l) l

/-- What the list has on top each time that this thread removes it, with the number of the call. -/
def tops (worker : Nat) : List α → List (Swing α) → List (Nat × Option α)
  | _, [] => []
  | l, swing :: swings =>
    (match swing.deed with
      | .put _ => []
      | .take => if swing.worker = worker then [(swing.call, l.head?)] else []) ++
      tops worker (swing.deed.apply l) swings

theorem replay_append (l : List α) (swings more : List (Swing α)) :
    replay l (swings ++ more) = replay (replay l swings) more :=
  List.foldl_append

theorem tops_append (worker : Nat) (l : List α) (swings more : List (Swing α)) :
    tops worker l (swings ++ more) =
      tops worker l swings ++ tops worker (replay l swings) more := by
  induction swings generalizing l with
  | nil => rfl
  | cons swing swings ih =>
    rw [List.cons_append, tops, ih, ← List.append_assoc]
    rfl

end Swing

namespace Worker

variable {α : Type}

def given (w : Worker α) : List α :=
  match w.program with
  | [] => []
  | call :: _ => call.values

/-- The exchange of the head that the next access is, if it goes through. -/
def deed? (w : Worker α) (s : Store α) (spurious : Bool) : Option (Deed α) :=
  match w.phase with
  | .swingHead _ _ head => if exchanges spurious s.head head then some (.put w.given) else none
  | .swingTop head _ => if exchanges spurious s.head head then some .take else none
  | _ => none

/-- The slot that the next access takes hold of, from the free list or as one never used. -/
def handOut? (w : Worker α) (s : Store α) (spurious : Bool) : Option Nat :=
  match w.phase with
  | .swingFree _ _ top _ => if exchanges spurious s.pool.free top then some top.index else none
  | .claimFresh _ _ index => if exchanges spurious s.arena.fresh index then some index else none
  | _ => none

end Worker

namespace Machine

variable {α : Type}

def swing (m : Machine α) (turn : Nat × Bool) : List (Swing α) :=
  match m.workers[turn.1]? with
  | none => []
  | some w => (w.deed? m.store turn.2).toList.map fun deed => ⟨turn.1, w.records.length, deed⟩

/-- The successful exchanges of the head along a schedule. -/
def swings (m : Machine α) : List (Nat × Bool) → List (Swing α)
  | [] => []
  | turn :: schedule => m.swing turn ++ (m.step turn.1 turn.2).swings schedule

def handOut (m : Machine α) (turn : Nat × Bool) : List Nat :=
  match m.workers[turn.1]? with
  | none => []
  | some w => (w.handOut? m.store turn.2).toList

/-- The slots handed out along a schedule, each as often as it is. -/
def handedOut (m : Machine α) : List (Nat × Bool) → List Nat
  | [] => []
  | turn :: schedule => m.handOut turn ++ (m.step turn.1 turn.2).handedOut schedule

theorem run_append (m : Machine α) (schedule more : List (Nat × Bool)) :
    m.run (schedule ++ more) = (m.run schedule).run more :=
  List.foldl_append

theorem swings_append (m : Machine α) (schedule more : List (Nat × Bool)) :
    m.swings (schedule ++ more) = m.swings schedule ++ (m.run schedule).swings more := by
  induction schedule generalizing m with
  | nil => rfl
  | cons turn schedule ih =>
    rw [List.cons_append, swings, ih, ← List.append_assoc]
    rfl

theorem handedOut_append (m : Machine α) (schedule more : List (Nat × Bool)) :
    m.handedOut (schedule ++ more) = m.handedOut schedule ++ (m.run schedule).handedOut more := by
  induction schedule generalizing m with
  | nil => rfl
  | cons turn schedule ih =>
    rw [List.cons_append, handedOut, ih, ← List.append_assoc]
    rfl

end Machine

section

variable {α : Type}

def CallAnswer.taken : CallAnswer α → List α
  | popped (some value) => [value]
  | _ => []

def SweepEnd.answer? : SweepEnd α → Option (CallAnswer α)
  | complete answer => some answer
  | recycled | leave => none

def Release.answer? : Release α → Option (CallAnswer α)
  | discard _ _ answer => some answer
  | sweep _ _ after => after.answer?

def Phase.answer? : Phase α → Option (CallAnswer α)
  | find _ after => after.answer?
  | readDoomed _ _ answer => some answer
  | loadRetireEpoch _ value | storeTag _ value _ => some (.popped (some value))
  | bumpEpoch after | loadOrphans after | takeOrphans after | readOrphan _ after
  | readTag _ _ after | loadEpoch after => after.answer?
  | loadFreeTop _ after | linkFree _ _ after | pushFree _ _ after => after.answer?
  | _ => none

/-- The value that the call under way is going to return. -/
def Phase.promised (phase : Phase α) : List α := phase.answer?.elim [] CallAnswer.taken

def CallRecord.taken : List (CallRecord α) → List (Nat × α)
  | [] => []
  | record :: earlier =>
    taken earlier ++ record.answer.taken.map fun value => (earlier.length, value)

def Worker.taken (w : Worker α) : List (Nat × α) :=
  CallRecord.taken w.records ++ w.phase.promised.map fun value => (w.records.length, value)

end

namespace Worker

variable {α : Type} {w v : Worker α} {missed : Prop}

/-- A call is under way unless the thread is ready, and it is not going to say that the stack was
empty after it has done something else. -/
structure Proper (w : Worker α) : Prop where
  under : w.phase = .ready ∨ w.program ≠ []
  answer : w.phase.answer? ≠ some (.popped none)

/-- What a thread tells more than these records: the values `new`, and that the stack was empty
only if `missed`. -/
structure Tells (w : Worker α) (records : List (CallRecord α)) (new : List α) (missed : Prop) : Prop
    extends w.Proper where
  taken : w.taken = CallRecord.taken records ++ new.map fun value => (records.length, value)
  records : w.records = records ∨
    ∃ record, w.records = record :: records ∧ (record.answer = .popped none → missed)

theorem tells_goto (hw : w.program ≠ []) (phase : Phase α)
    (hphase : phase.answer? ≠ some (.popped none)) :
    (w.goto phase).Tells w.records phase.promised missed where
  under := .inr hw
  answer := hphase
  taken := rfl
  records := .inl rfl

theorem tells_finish (hw : w.program ≠ []) (answer : CallAnswer α)
    (hanswer : answer = .popped none → missed) :
    (w.finish answer).Tells w.records answer.taken missed := by
  unfold finish
  split
  · rename_i hnil
    exact absurd hnil hw
  · exact
      { under := .inl rfl
        answer := fun h => by cases h
        taken := List.append_nil _
        records := .inr ⟨_, rfl, hanswer⟩ }

theorem tells_settled (hw : w.program ≠ []) (answer : CallAnswer α)
    (hanswer : some answer ≠ some (.popped none)) :
    (w.finish answer).Tells w.records answer.taken missed :=
  tells_finish hw answer fun h => absurd (congrArg some h) hanswer

theorem tells_complete (hw : w.program ≠ []) (settings : Settings) (answer : CallAnswer α)
    (hanswer : some answer ≠ some (.popped none)) :
    (w.complete settings answer).Tells w.records answer.taken missed := by
  rw [complete]
  split
  · exact tells_goto (w := { w with context := w.context.count }) hw (.bumpEpoch (.complete answer))
      hanswer
  · exact tells_settled (w := { w with context := w.context.count }) hw answer hanswer

theorem tells_build (hw : w.program ≠ []) (job : Job α) :
    (w.build job).Tells w.records [] missed := by
  rcases job with ⟨first, last, rest, linking⟩
  cases rest with
  | cons value rest => exact tells_goto hw _ fun h => by cases h
  | nil =>
    cases first with
    | nil => exact tells_finish hw .done fun h => by cases h
    | node i g => exact tells_goto hw _ fun h => by cases h

theorem foldl_drop (values : List α) (w : Worker α) :
    values.foldl drop w = { w with dropped := values.reverse ++ w.dropped } := by
  induction values generalizing w with
  | nil => rfl
  | cons value values ih =>
    rw [List.foldl_cons, ih, List.reverse_cons, List.append_assoc]
    rfl

theorem tells_rollBack (hw : w.program ≠ []) (job : Job α) (value : α) (failure : Exhausted) :
    (w.rollBack job value failure).Tells w.records [] missed := by
  rcases job with ⟨first, last, rest, linking⟩
  rw [rollBack, foldl_drop]
  cases first with
  | nil =>
    exact tells_finish (w := { w with dropped := rest.reverse ++ value :: w.dropped }) hw
      (.exhausted failure) fun h => by cases h
  | node i g =>
    exact tells_goto (w := { w with dropped := rest.reverse ++ value :: w.dropped }) hw
      (.find i (.readDoomed (.node i g) last (.exhausted failure))) fun h => by cases h

theorem tells_takeFree (hw : w.program ≠ []) (job : Job α) (value : α) (top : Link) :
    (w.takeFree job value top).Tells w.records [] missed := by
  cases top <;> exact tells_goto hw _ fun h => by cases h

theorem tells_takeFresh (hw : w.program ≠ []) (capacity : Nat) (job : Job α) (value : α)
    (index : Nat) : (w.takeFresh capacity job value index).Tells w.records [] missed := by
  unfold takeFresh
  split
  · exact tells_rollBack hw job value _
  · exact tells_goto hw _ fun h => by cases h

theorem tells_takeTop (hw : w.program ≠ []) (head : Link) (hmissed : head = .nil → missed) :
    (w.takeTop head).Tells w.records [] missed := by
  cases head with
  | nil => exact tells_finish hw (.popped none) fun _ => hmissed rfl
  | node i g => exact tells_goto hw _ fun h => by cases h

theorem tells_adoptFrom (hw : w.program ≠ []) (after : SweepEnd α)
    (hafter : after.answer? ≠ some (.popped none)) (node : Link) :
    (w.adoptFrom after node).Tells w.records (after.answer?.elim [] CallAnswer.taken) missed := by
  cases node <;> exact tells_goto hw _ hafter

theorem tells_afterSweep (hw : w.program ≠ []) (after : SweepEnd α)
    (hafter : after.answer? ≠ some (.popped none)) (total : Nat) :
    (w.afterSweep total after).Tells w.records (after.answer?.elim [] CallAnswer.taken) missed := by
  cases after with
  | recycled => exact tells_finish hw (.recycled total) fun h => by cases h
  | complete answer => exact tells_settled hw answer hafter
  | leave =>
    have hleft : ({ w with context := { w.context with deferred := .empty } } :
        Worker α).program ≠ [] := hw
    simp only [afterSweep]
    split
    · exact tells_finish hleft .done fun h => by cases h
    · exact tells_goto hleft _ fun h => by cases h
    · exact tells_goto hleft _ fun h => by cases h

theorem tells_sweepOn (hw : w.program ≠ []) (after : SweepEnd α)
    (hafter : after.answer? ≠ some (.popped none)) (total : Nat) (nodes : List Link) :
    (w.sweepOn total after nodes).Tells w.records (after.answer?.elim [] CallAnswer.taken)
      missed := by
  cases nodes with
  | nil => exact tells_afterSweep hw after hafter total
  | cons node rest => exact tells_goto hw _ hafter

theorem tells_afterRelease (hw : w.program ≠ []) (after : Release α)
    (hafter : after.answer? ≠ some (.popped none)) (node : Link) :
    (w.afterRelease node after).Tells w.records (after.answer?.elim [] CallAnswer.taken)
      missed := by
  cases after with
  | discard next last answer =>
    rw [afterRelease]
    split
    · exact tells_settled hw answer hafter
    · exact tells_goto hw _ hafter
  | sweep rest total after => exact tells_sweepOn hw after hafter total rest

def takes (w : Worker α) (s : Store α) (spurious : Bool) : List α :=
  match w.phase with
  | .swingTop head _ =>
    if exchanges spurious s.head head then (s.takeValue head).toList.map Prod.fst else []
  | _ => []

/-- When a pop may say that the stack was empty: it is, or it is shut down, or its top has no
value. -/
def Misses (w : Worker α) (s : Store α) : Prop :=
  w.phase ≠ .ready ∧ (s.shutdown = true ∨ s.head = .nil ∨
    ∃ head next, w.phase = .swingTop head next ∧ s.head = head ∧ s.takeValue head = none)

theorem tells_start (hw : w.Proper) (hready : w.phase = .ready) :
    w.start.Tells w.records [] missed := by
  have hsame : w.Tells w.records [] missed := by
    refine ⟨hw, ?_, .inl rfl⟩
    rw [Worker.taken, hready]
    rfl
  cases hprogram : w.program with
  | nil =>
    rw [start, hprogram]
    exact hsame
  | cons call rest =>
    have hne : w.program ≠ [] := hprogram ▸ List.cons_ne_nil _ _
    rw [start, hprogram]
    cases call with
    | push value => exact tells_build hne _
    | pushBatch values => exact tells_build hne _
    | _ => exact tells_goto hne _ fun h => by cases h

theorem takes_eq_nil {s : Store α} {spurious : Bool}
    (haside : ∀ head next, w.phase ≠ .swingTop head next) : w.takes s spurious = [] := by
  unfold takes
  split
  · exact absurd ‹_› (haside _ _)
  · rfl

theorem tells_swingTop {head next : Link} (hw : w.program ≠ [])
    (hphase : w.phase = .swingTop head next) (s : Store α) (spurious : Bool) :
    (w.step s spurious).2.Tells w.records (w.takes s spurious) (w.Misses s) := by
  have hready : w.phase ≠ .ready := fun h => by cases hphase.symm.trans h
  rw [Worker.step, takes, hphase]
  dsimp only
  split
  · rename_i hthrough
    cases htake : s.takeValue head with
    | none =>
      refine tells_finish hw (.popped none) fun _ =>
        ⟨hready, .inr (.inr ⟨head, next, hphase, ?_, htake⟩)⟩
      exact of_decide_eq_true (Bool.and_eq_true_iff.1 hthrough).2
    | some taken => exact tells_goto hw _ fun h => by cases h
  · exact tells_takeTop hw _ fun hnil => ⟨hready, .inr (.inl hnil)⟩

/-- An access that does not take the top of the stack goes on with the answer that is settled, if
any. -/
theorem Proper.tells_aside (hw : w.Proper) (hready : w.phase ≠ .ready)
    (haside : ∀ head next, w.phase ≠ .swingTop head next) (s : Store α) (spurious : Bool) :
    (w.step s spurious).2.Tells w.records w.phase.promised (w.Misses s) := by
  have hanswer := hw.answer
  have hw : w.program ≠ [] := hw.under.resolve_left hready
  unfold Worker.step
  cases hphase : w.phase with
  | ready => exact absurd hphase hready
  | swingTop head next => exact absurd hphase (haside head next)
  | find index after =>
    exact tells_goto hw after (by rwa [hphase] at hanswer)
  | loadFree job value => exact tells_takeFree hw job value _
  | readFree job value top =>
    exact tells_goto hw _ fun h => by cases h
  | swingFree job value top next =>
    dsimp only
    split
    · exact tells_goto hw _ fun h => by cases h
    · exact tells_takeFree hw job value _
  | loadFresh job value =>
    exact tells_takeFresh hw _ job value _
  | checkSegment job value index =>
    dsimp only
    split <;> exact tells_goto hw _ fun h => by cases h
  | installSegment job value index =>
    dsimp only
    split
    · exact tells_rollBack hw job value _
    split <;> exact tells_goto hw _ fun h => by cases h
  | claimFresh job value index =>
    dsimp only
    split
    · exact tells_goto hw _ fun h => by cases h
    · exact tells_takeFresh hw _ job value _
  | clearTag job value node =>
    dsimp only
    split
    · exact tells_goto hw _ fun h => by cases h
    · exact tells_build hw _
  | linkNode job node => exact tells_build hw _
  | checkShutdown first last head =>
    dsimp only
    split <;> exact tells_goto hw _ fun h => by cases h
  | swingHead first last head =>
    dsimp only
    split
    · exact tells_complete hw _ .done fun h => by cases h
    · exact tells_goto hw _ fun h => by cases h
  | readDoomed node last answer =>
    rw [hphase] at hanswer
    dsimp only
    split
    · exact tells_goto hw _ hanswer
    · exact tells_goto (w := w.drop _) hw (.find node.index (.loadFreeTop node _)) hanswer
  | loadTop =>
    exact tells_takeTop hw _ fun hnil => ⟨hready, .inr (.inl hnil)⟩
  | checkTop head =>
    dsimp only
    split
    · rename_i hshut
      exact tells_finish hw (.popped none) fun _ => ⟨hready, .inl hshut⟩
    · exact tells_goto hw _ fun h => by cases h
  | storeTag node value epoch =>
    exact tells_complete (w := { w with context := w.context.defer node epoch }) hw
      _ (.popped (some value)) fun h => by cases h
  | loadOrphans after =>
    rw [hphase] at hanswer
    dsimp only
    split <;> exact tells_goto hw _ hanswer
  | takeOrphans after =>
    rw [hphase] at hanswer
    exact tells_adoptFrom hw after hanswer _
  | readTag node next after =>
    rw [hphase] at hanswer
    exact tells_adoptFrom
      (w := { w with context := w.context.defer node (s.arena.read node).retiredEpoch }) hw after
      hanswer next
  | loadEpoch after =>
    rw [hphase] at hanswer
    exact tells_sweepOn (w := { w with context := { w.context with
      snapshot := s.epoch
      deferred := w.context.deferred.retained s.epoch s.settings.gracePeriod } }) hw after
      hanswer _ _
  | pushFree node top after =>
    rw [hphase] at hanswer
    dsimp only
    split
    · exact tells_afterRelease hw after hanswer node
    · exact tells_goto hw _ hanswer
  | threadOrphans nodes todo =>
    rcases todo with _ | ⟨node, _ | ⟨next, rest⟩⟩
    · exact tells_goto hw _ fun h => by cases h
    · exact tells_goto hw _ fun h => by cases h
    · dsimp only
      split <;> exact tells_goto hw _ fun h => by cases h
  | pushOrphans nodes top =>
    dsimp only
    split
    · exact tells_finish hw .done fun h => by cases h
    · exact tells_goto hw _ fun h => by cases h
  | raiseShutdown =>
    exact tells_finish hw .done fun h => by cases h
  | bumpEpoch after | readOrphan _ after | loadFreeTop _ after | linkFree _ _ after =>
    rw [hphase] at hanswer
    exact tells_goto hw _ hanswer
  | loadRetireEpoch node value =>
    exact tells_goto (w := { w with context := { w.context with snapshot := s.epoch } }) hw
      (.find node.index (.storeTag node value s.epoch)) fun h => by cases h
  | _ =>
    exact tells_goto hw _ fun h => by cases h

/-- What a thread tells after one more access: the value it takes, if any, and that the stack was
empty only if it found it so. -/
theorem Proper.step (hw : w.Proper) (s : Store α) (spurious : Bool) :
    (w.step s spurious).2.Tells w.records (w.phase.promised ++ w.takes s spurious)
      (w.Misses s) := by
  by_cases htop : ∃ head next, w.phase = .swingTop head next
  · obtain ⟨head, next, hphase⟩ := htop
    have hne : w.program ≠ [] := hw.under.resolve_left fun h => by cases hphase.symm.trans h
    have htells := tells_swingTop hne hphase s spurious
    rw [hphase]
    exact htells
  · have haside : ∀ head next, w.phase ≠ .swingTop head next :=
      fun head next hphase => htop ⟨head, next, hphase⟩
    rw [takes_eq_nil haside, List.append_nil]
    by_cases hready : w.phase = .ready
    · rw [Worker.step, hready]
      exact tells_start hw hready
    · exact hw.tells_aside hready haside s spurious

end Worker

end RecyclingStack
