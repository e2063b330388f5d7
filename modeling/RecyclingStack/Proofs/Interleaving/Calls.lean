import RecyclingStack.Proofs.Interleaving.Custody

/-! One call of a thread at a time: what it is at, what it has dropped so far, and how it goes on
with each access. -/
namespace RecyclingStack

/-- What a thread is at. A push or a batch loads its values into nodes and publishes them, or it
discards them; `closing` is what follows once they are published. -/
inductive Role where
  | idle
  | loading
  | discarding
  | closing
  | other
  deriving DecidableEq

/-- Nothing was put on the stack or taken off it yet. -/
def Role.isPrivate : Role → Bool
  | idle | loading | discarding => true
  | closing | other => false

def Call.isPush {α : Type} : Call α → Bool
  | push _ | pushBatch _ => true
  | _ => false

section

variable {α : Type}

def SweepEnd.role : SweepEnd α → Role
  | .complete .done => .closing
  | _ => .other

def Release.role : Release α → Role
  | .discard _ _ _ => .discarding
  | .sweep _ _ after => after.role

def Phase.role : Phase α → Role
  | .ready => .idle
  | .find _ after => after.role
  | .loadFree _ _ | .readFree _ _ _ | .swingFree _ _ _ _ | .loadFresh _ _ | .checkSegment _ _ _
  | .installSegment _ _ _ | .claimFresh _ _ _ | .loadGeneration _ _ _ | .storeGeneration _ _ _ _
  | .clearNext _ _ _ | .clearTag _ _ _ | .linkNode _ _ | .loadHead _ _ | .checkShutdown _ _ _
  | .linkLast _ _ _ | .swingHead _ _ _ => .loading
  | .readDoomed _ _ _ => .discarding
  | .loadFreeTop _ after | .linkFree _ _ after | .pushFree _ _ after => after.role
  | .bumpEpoch after | .loadOrphans after | .takeOrphans after | .readOrphan _ after
  | .readTag _ _ after | .loadEpoch after => after.role
  | _ => .other

theorem SweepEnd.not_isPrivate (after : SweepEnd α) : ¬after.role.isPrivate = true := by
  rcases after with _ | (_ | _ | _ | _) | _ <;> exact nofun

theorem SweepEnd.role_ne {role : Role} (hrole : role.isPrivate = true) (after : SweepEnd α) :
    after.role ≠ role := fun h => after.not_isPrivate (h ▸ hrole)

theorem Release.role_ne_loading (after : Release α) : after.role ≠ .loading := by
  cases after with
  | discard next last answer => exact nofun
  | sweep rest total after => exact after.role_ne rfl

def Phase.isCheck : Phase α → Bool
  | .checkShutdown _ _ _ | .checkTop _ => true
  | _ => false

def Phase.coming : Phase α → List α
  | .find _ after => after.coming
  | .loadFree job value | .readFree job value _ | .swingFree job value _ _ | .loadFresh job value
  | .checkSegment job value _ | .installSegment job value _ | .claimFresh job value _
  | .loadGeneration job value _ | .storeGeneration job value _ _ | .clearNext job value _
  | .clearTag job value _ => value :: job.rest
  | .linkNode job _ => job.rest
  | _ => []

/-- Before it has changed the stack, a call leaves the retired nodes of its thread, and the orphans,
alone. -/
theorem Phase.of_isPrivate {phase : Phase α} (h : phase.role.isPrivate = true) :
    phase.listed = [] ∧ phase.isAdopting = false ∧ phase.turns ≠ some .orphans := by
  induction phase with
  | find index after ih => exact ⟨(ih h).1, (ih h).2.1, nofun⟩
  | loadFreeTop node after | linkFree node top after | pushFree node top after =>
    cases after with
    | discard next last answer => exact ⟨rfl, rfl, nofun⟩
    | sweep rest total after => exact absurd h after.not_isPrivate
  | takeOrphans after | readOrphan node after | readTag node next after =>
    exact absurd h after.not_isPrivate
  | threadOrphans | loadOrphanTop | linkOrphans | pushOrphans => cases h
  | _ => exact ⟨rfl, rfl, nofun⟩

end

namespace Worker

variable {α : Type}

section

variable (w : Worker α) (s : Store α) (spurious : Bool)

/-- The values that an access puts on the stack, in the order given. -/
def published : List (List α) :=
  match w.deed? s spurious with
  | some (.put values) => [values]
  | _ => []

/-- An access that looks whether the stack is shut down, and finds that it is. -/
def warned : List Unit :=
  match w.phase with
  | .checkShutdown _ _ _ | .checkTop _ => if s.shutdown then [()] else []
  | _ => []

theorem warned_of_isCheck (hcheck : w.phase.isCheck = true) (hdown : s.shutdown = true) :
    w.warned s = [()] := by
  unfold warned
  cases hphase : w.phase <;> rw [hphase] at hcheck
  case checkShutdown | checkTop => exact if_pos hdown
  all_goals cases hcheck

def lost : List α :=
  match w.phase with
  | .readDoomed node _ _ => (s.takeValue node).toList.map Prod.fst
  | _ => []

end

/-- A thread that goes on with its call, having dropped `extra`. -/
structure Stays (w v : Worker α) (extra : List α) (role : Role) : Prop where
  program : v.program = w.program
  records : v.records = w.records
  dropped : v.dropped = extra ++ w.dropped
  phase : v.phase.role = role

/-- A thread goes on with its call, having dropped `extra`, or the call is over. -/
inductive Goes (w v : Worker α) (extra : List α) (role : Role) : Prop where
  | on (h : w.Stays v extra role)
  | ended {call : Call α} {rest : List (Call α)} (answer : CallAnswer α)
      (program : w.program = call :: rest)
      (records : v.records = ⟨call, answer, (extra ++ w.dropped).reverse⟩ :: w.records)
      (ready : v.phase = .ready) (dropped : v.dropped = [])

theorem stays_goto (w : Worker α) (phase : Phase α) : w.Stays (w.goto phase) [] phase.role :=
  ⟨rfl, rfl, rfl, rfl⟩

section

variable {w : Worker α} (hw : w.program ≠ [])

theorem goes_goto (w : Worker α) (phase : Phase α) : w.Goes (w.goto phase) [] phase.role :=
  .on (w.stays_goto phase)

theorem stays_takeFree (w : Worker α) (job : Job α) (value : α) (top : Link) :
    w.Stays (w.takeFree job value top) [] .loading := by
  cases top <;> exact w.stays_goto _

theorem goes_adoptFrom (w : Worker α) (after : SweepEnd α) (node : Link) :
    w.Goes (w.adoptFrom after node) [] after.role := by
  cases node <;> exact w.goes_goto _

/-- What a thread goes on with is the same whatever its handle has deferred. -/
theorem Goes.context {context : Context} {v : Worker α} {extra : List α} {role : Role}
    (h : ({ w with context } : Worker α).Goes v extra role) : w.Goes v extra role := by
  obtain ⟨hp, hr, hd, hphase⟩ | ⟨answer, hp, hr, hready, hd⟩ := h
  · exact .on ⟨hp, hr, hd, hphase⟩
  · exact .ended answer hp hr hready hd

include hw

theorem goes_finish (answer : CallAnswer α) (role : Role) : w.Goes (w.finish answer) [] role := by
  unfold finish
  split
  · rename_i hnil
    exact absurd hnil hw
  · rename_i hprogram
    exact .ended answer hprogram rfl rfl rfl

theorem goes_complete (settings : Settings) (answer : CallAnswer α) :
    w.Goes (w.complete settings answer) [] (SweepEnd.complete answer).role := by
  rw [complete]
  split
  · exact .on ⟨rfl, rfl, rfl, rfl⟩
  · exact (goes_finish (w := { w with context := w.context.count }) hw answer _).context

theorem goes_rollBack (job : Job α) (value : α) (failure : Exhausted) :
    w.Goes (w.rollBack job value failure) (job.rest.reverse ++ [value]) .discarding := by
  have hdropped : job.rest.reverse ++ value :: w.dropped =
      job.rest.reverse ++ [value] ++ w.dropped := (List.append_assoc _ [value] _).symm
  rw [rollBack, foldl_drop]
  cases job.first with
  | node i g => exact .on ⟨rfl, rfl, hdropped, rfl⟩
  | nil =>
    obtain ⟨hp, hr, hd, hphase⟩ | ⟨answer, hp, hr, hready, hd⟩ := goes_finish
      (w := { w with dropped := job.rest.reverse ++ value :: w.dropped }) hw
      (.exhausted failure) .discarding
    · exact .on ⟨hp, hr, hd.trans hdropped, hphase⟩
    · rw [List.nil_append] at hr
      exact .ended answer hp (hr.trans (by rw [← hdropped])) hready hd

theorem goes_takeTop (head : Link) : w.Goes (w.takeTop head) [] .other := by
  cases head with
  | nil => exact goes_finish hw _ _
  | node i g => exact w.goes_goto _

theorem goes_afterSweep (total : Nat) (after : SweepEnd α) :
    w.Goes (w.afterSweep total after) [] after.role := by
  cases after with
  | recycled => exact goes_finish hw _ _
  | complete answer => exact goes_finish hw _ _
  | leave =>
    simp only [afterSweep]
    split
    · exact (goes_finish (w := { w with context := { w.context with deferred := .empty } }) hw
        .done .other).context
    · exact .on ⟨rfl, rfl, rfl, rfl⟩
    · exact .on ⟨rfl, rfl, rfl, rfl⟩

theorem goes_sweepOn (total : Nat) (after : SweepEnd α) (nodes : List Link) :
    w.Goes (w.sweepOn total after nodes) [] after.role := by
  cases nodes with
  | nil => exact goes_afterSweep hw total after
  | cons node rest => exact w.goes_goto _

theorem goes_afterRelease (node : Link) (after : Release α) :
    w.Goes (w.afterRelease node after) [] after.role := by
  cases after with
  | discard next last answer =>
    rw [afterRelease]
    split
    · exact goes_finish hw _ _
    · exact w.goes_goto _
  | sweep rest total after => exact goes_sweepOn hw total after rest

/-- A call of another kind than pushes, or one whose outcome is settled, goes on as what it is. -/
theorem goes_step (s : Store α) (spurious : Bool) (hready : w.phase.role ≠ .idle)
    (hloading : w.phase.role ≠ .loading) :
    w.Goes (w.step s spurious).2 (w.lost s) w.phase.role := by
  unfold step lost
  cases hphase : w.phase with
  | ready => exact absurd (by rw [hphase]; rfl) hready
  | loadFree | readFree | swingFree | loadFresh | checkSegment | installSegment | claimFresh
  | loadGeneration | storeGeneration | clearNext | clearTag | linkNode | loadHead | checkShutdown
  | linkLast | swingHead => exact absurd (by rw [hphase]; rfl) hloading
  | find index after => exact w.goes_goto after
  | readDoomed node last answer =>
    dsimp only
    cases s.takeValue node with
    | none => exact w.goes_goto _
    | some taken => exact .on ⟨rfl, rfl, rfl, rfl⟩
  | loadTop => exact goes_takeTop hw _
  | checkTop head =>
    dsimp only
    split
    · exact goes_finish hw _ _
    · exact w.goes_goto _
  | swingTop head next =>
    dsimp only
    split
    · split
      · exact goes_finish hw _ _
      · exact w.goes_goto _
    · exact goes_takeTop hw _
  | loadRetireEpoch node value => exact .on ⟨rfl, rfl, rfl, rfl⟩
  | storeTag node value epoch =>
    exact (goes_complete (w := { w with context := w.context.defer node epoch }) hw _ _).context
  | loadOrphans after =>
    dsimp only
    split <;> exact w.goes_goto _
  | takeOrphans after => exact w.goes_adoptFrom after _
  | readTag node next after => exact (goes_adoptFrom { w with context := _ } after next).context
  | loadEpoch after =>
    exact (goes_sweepOn (w := { w with context := { w.context with
      snapshot := s.epoch
      deferred := w.context.deferred.retained s.epoch s.settings.gracePeriod } }) hw _ after
      _).context
  | pushFree node top after =>
    dsimp only
    split
    · exact goes_afterRelease hw node after
    · exact w.goes_goto _
  | threadOrphans nodes todo =>
    rcases todo with _ | ⟨node, _ | ⟨next, rest⟩⟩
    · exact w.goes_goto _
    · exact w.goes_goto _
    · cases rest <;> exact w.goes_goto _
  | pushOrphans nodes top =>
    dsimp only
    split
    · exact goes_finish hw _ _
    · exact w.goes_goto _
  | raiseShutdown => exact goes_finish hw _ _
  | _ => exact w.goes_goto _

end

/-- A call begins. A batch of no values is over at once. -/
theorem start_cases {w : Worker α} {call : Call α} {rest : List (Call α)}
    (hprogram : w.program = call :: rest) :
    call.isPush = true ∧ (w.Stays w.start [] .loading ∨
        call.values = [] ∧ w.Goes w.start [] .discarding) ∨
      call.isPush = false ∧ call.values = [] ∧ w.Stays w.start [] .other := by
  have hne : w.program ≠ [] := hprogram ▸ List.cons_ne_nil _ _
  rw [start, hprogram]
  cases call with
  | push value => exact .inl ⟨rfl, .inl (w.stays_goto _)⟩
  | pushBatch values =>
    cases values with
    | nil => exact .inl ⟨rfl, .inr ⟨rfl, goes_finish hne _ _⟩⟩
    | cons value values => exact .inl ⟨rfl, .inl (w.stays_goto _)⟩
  | _ => exact .inr ⟨rfl, rfl, w.stays_goto _⟩

/-- How a push or a batch goes on that has its values still to load, or to publish. -/
inductive Loads (w : Worker α) (s : Store α) (next : Store α × Worker α)
    (published : List (List α)) (warned : List Unit) : Prop where
  | load (h : w.Stays next.2 [] .loading) (published : published = []) (warned : warned = [])
      (head : next.1.head = s.head)
  | giveUp {extra : List α} (h : w.Goes next.2 extra .discarding)
      (extra_perm : extra.Perm w.phase.coming) (published : published = [])
      (arena : next.1.arena = s.arena) (head : next.1.head = s.head)
  | publish (h : w.Goes next.2 [] .closing) (published : published = [w.given])
      (warned : warned = [])

section

variable {w : Worker α} {s : Store α}

theorem loads_build (w : Worker α) {t : Store α} (hhead : t.head = s.head) {job : Job α}
    (hfirst : job.first ≠ .nil) : w.Loads s (t, w.build job) [] [] := by
  refine .load ?_ rfl rfl hhead
  unfold build
  split
  · exact w.stays_goto _
  · rename_i hnil
    exact absurd hnil hfirst
  · exact w.stays_goto _

theorem loads_rollBack (hw : w.program ≠ []) {job : Job α} {value : α} (failure : Exhausted)
    (hcoming : w.phase.coming = value :: job.rest) :
    w.Loads s (s, w.rollBack job value failure) [] [] := by
  refine .giveUp (goes_rollBack hw job value failure) ?_ rfl rfl rfl
  rw [hcoming]
  exact List.perm_append_comm.trans (.cons value job.rest.reverse_perm)

theorem loads_takeFresh (hw : w.program ≠ []) (capacity : Nat) {job : Job α} {value : α}
    (index : Nat) (hcoming : w.phase.coming = value :: job.rest) :
    w.Loads s (s, w.takeFresh capacity job value index) [] [] := by
  unfold takeFresh
  split
  · exact loads_rollBack hw _ hcoming
  · exact .load (w.stays_goto _) rfl rfl rfl

theorem loads_step (hw : w.program ≠ []) (hrole : w.phase.role = .loading)
    (hnode : ∀ node, (∃ job value, w.phase = .clearTag job value node) ∨
      (∃ job, w.phase = .linkNode job node) → node ≠ .nil)
    (s : Store α) (spurious : Bool) :
    w.Loads s (w.step s spurious) (w.published s spurious) (w.warned s) := by
  unfold published deed? warned step
  cases hphase : w.phase with
  | find index after =>
    rw [hphase] at hrole
    exact .load ⟨rfl, rfl, rfl, hrole⟩ rfl rfl rfl
  | loadFree job value => exact .load (w.stays_takeFree job value _) rfl rfl rfl
  | swingFree job value top next =>
    dsimp only
    split
    · exact .load (w.stays_goto _) rfl rfl rfl
    · exact .load (w.stays_takeFree job value _) rfl rfl rfl
  | loadFresh job value => exact loads_takeFresh hw _ _ (by rw [hphase]; rfl)
  | checkSegment job value index =>
    dsimp only
    split <;> exact .load (w.stays_goto _) rfl rfl rfl
  | installSegment job value index =>
    dsimp only
    split
    · exact loads_rollBack hw _ (by rw [hphase]; rfl)
    split <;> exact .load (w.stays_goto _) rfl rfl rfl
  | claimFresh job value index =>
    dsimp only
    split
    · exact .load (w.stays_goto _) rfl rfl rfl
    · exact loads_takeFresh hw _ _ (by rw [hphase]; rfl)
  | clearTag job value node =>
    dsimp only
    split
    · exact .load (w.stays_goto _) rfl rfl rfl
    · apply w.loads_build
      · rfl
      · exact hnode node (.inl ⟨job, value, hphase⟩)
  | linkNode job node =>
    apply w.loads_build
    · rfl
    · exact hnode node (.inr ⟨job, hphase⟩)
  | checkShutdown first last head =>
    dsimp only
    split
    · exact .giveUp (w.goes_goto _) (by rw [hphase]; exact .nil) rfl rfl rfl
    · exact .load (w.stays_goto _) rfl rfl rfl
  | swingHead first last head =>
    dsimp only
    split
    · exact .publish (goes_complete hw _ _) rfl rfl
    · exact .load (w.stays_goto _) rfl rfl rfl
  | readFree | loadGeneration | storeGeneration | clearNext | loadHead | linkLast =>
    exact .load (w.stays_goto _) rfl rfl rfl
  | bumpEpoch after | loadOrphans after | takeOrphans after | readOrphan node after
  | readTag node next after | loadEpoch after =>
    rw [hphase] at hrole
    exact absurd hrole (after.role_ne rfl)
  | loadFreeTop node after | linkFree node top after | pushFree node top after =>
    rw [hphase] at hrole
    exact absurd hrole after.role_ne_loading
  | _ =>
    rw [hphase] at hrole
    cases hrole

end

end Worker

end RecyclingStack
