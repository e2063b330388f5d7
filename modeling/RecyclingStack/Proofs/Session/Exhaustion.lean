import RecyclingStack.Proofs.Session.Usage

/-! Running out of nodes. A node is refused exactly when all slots up to the capacity are in use,
and a push that is refused one has changed nothing when it drops its payload. -/
namespace RecyclingStack

namespace Session

variable {α : Type} {s t : Session α} {below : List (Frame α)} {h : Nat} {p : Payload α}

/-- The moment at which a push that began in the first state drops its payload for want of a node.
So far it has changed nothing, and nothing but lines of the log came before. -/
structure Rejects (below : List (Frame α)) (h : Nat) (p : Payload α) (failure : Exhausted)
    (s t : Session α) : Prop where
  within : Within below s t
  frames : t.frames = .hook p.onDrop :: .rollBack h [] .nil .nil (.exhausted failure) :: below
  events : ∃ lines : List LogLine, t.events = .dropped p.value :: (lines.map Event.log ++ s.events)
  rests : s.Rests t

/-- Exhaustion in this state. -/
structure Thrifty (s : Session α) : Prop where
  /-- Every slot handed out is in use or free. -/
  whole : s.inUse + s.store.freeList.length = s.store.arena.fresh
  bounded : s.store.arena.fresh ≤ s.store.arena.capacity
  /-- A push or a batch on an idle handle goes on to its first item, and changes nothing by that. -/
  opened : ∀ {op h items c below} (granted : Bool), s.frames = .perform op :: below →
    op.Pushes h items → s.idle? h = some c →
      (s.stepWith granted).frames = .batch h .nil .nil items :: below ∧
        s.Rests (s.stepWith granted)
  /-- A push or a batch is refused a node just when all slots are in use. -/
  refused : ∀ {h first last p rest below},
    s.frames = .batch h first last (.payload p :: rest) :: below →
    ((s.stepWith true).frames = .rollBack h (p :: Item.payloads rest) first last
        (.exhausted ⟨s.store.arena.capacity⟩) :: below ↔ s.inUse = s.store.arena.capacity)
  /-- Otherwise it gets one. -/
  got : ∀ {h first last p rest below},
    s.frames = .batch h first last (.payload p :: rest) :: below →
    s.inUse < s.store.arena.capacity → ∃ l : Link, (s.stepWith true).frames =
      .batch h l (if first.isNil then l else last) rest :: below
  /-- A refused push or batch says so in the end. -/
  answered : ∀ {h unused cursor last failure below t o},
    s.frames = .rollBack h unused cursor last (.exhausted failure) :: below → Within below s t →
    t.frames = .finish o :: below → o = .exhausted failure
  /-- When a push fails there was a moment on its way at which it dropped its payload, and till then
  it had changed nothing. -/
  atomic : ∀ {h p failure below t}, s.frames = .perform (.push h p) :: below → Within below s t →
    t.frames = .finish (.exhausted failure) :: below →
      ∃ m, Rejects below h p failure s m ∧ Within below m t

theorem free_eq_nil_iff (hs : s.Partitioned) :
    s.store.pool.free = .nil ↔ s.store.freeList = [] := by
  refine ⟨freeList_eq_nil, fun hempty => ?_⟩
  have hthreads := hs.free
  rwa [hempty] at hthreads

theorem Partitioned.refused_iff (hs : s.Partitioned)
    (hbound : s.store.arena.fresh ≤ s.store.arena.capacity) {failure : Exhausted} :
    (s.store.allocate true p).answer = .error failure ↔
      failure = ⟨s.store.arena.capacity⟩ ∧ s.inUse = s.store.arena.capacity := by
  have hwhole := hs.inUse_add_free
  rw [Store.allocate_refused, free_eq_nil_iff hs]
  refine and_congr_right fun _ => ⟨?_, fun hfull => ?_⟩
  · rintro ⟨hempty, hroom⟩
    rw [hs.inUse_of_free hempty]
    exact Nat.le_antisymm hbound hroom
  · exact ⟨List.length_eq_zero_iff.1 (by omega), by omega⟩

section

variable {first last : Link} {rest : List (Item α)}
  (frames : s.frames = .batch h first last (.payload p :: rest) :: below)
include frames

theorem frames_refused {failure : Exhausted} {granted : Bool}
    (hanswer : (s.store.allocate granted p).answer = .error failure) :
    (s.stepWith granted).frames =
      .rollBack h (p :: Item.payloads rest) first last (.exhausted failure) :: below := by
  rw [stepWith_cons granted frames]
  simp only [resume, hanswer]
  rfl

theorem frames_got {l : Link} {granted : Bool}
    (hanswer : (s.store.allocate granted p).answer = .ok l) :
    (s.stepWith granted).frames =
      .batch h l (if first.isNil then l else last) rest :: below := by
  rw [stepWith_cons granted frames]
  simp only [resume, hanswer]
  rfl

end

/-- How far a push of one payload is. Up to the moment when its payload is dropped for want of a
node, nothing has changed. -/
inductive Pushing (below : List (Frame α)) (h : Nat) (p : Payload α) (s t : Session α) : Prop where
  | begun (frames : t.frames = .perform (.push h p) :: below) (rests : s.Rests t)
      (events : t.events = s.events)
  | opened (frames : t.frames = .batch h .nil .nil [.payload p] :: below) (rests : s.Rests t)
      (events : t.events = s.events)
  | refused {failure : Exhausted} (lines : List LogLine)
      (frames : t.frames = .rollBack h [p] .nil .nil (.exhausted failure) :: below)
      (rests : s.Rests t) (events : t.events = lines.map Event.log ++ s.events)
  | rejected {failure : Exhausted} {m : Session α} (top : List (Frame α))
      (frames : t.frames = top ++ .rollBack h [] .nil .nil (.exhausted failure) :: below)
      (moment : Rejects below h p failure s m) (since : Within below m t)
  | failed {failure : Exhausted} {m : Session α}
      (frames : t.frames = .finish (.exhausted failure) :: below)
      (moment : Rejects below h p failure s m) (since : Within below m t)
  | linked {l : Link} (frames : t.frames = .batch h l l [] :: below)
  | discarded (top : List (Frame α)) (base : Frame α) (frames : t.frames = top ++ base :: below)
      (gives : base.givesUp = some .done)
  | ended {o : Outcome α} (frames : t.frames = .finish o :: below)
      (outcome : ∀ failure, o ≠ .exhausted failure)

namespace Pushing

theorem opens (frames : t.frames = .perform (.push h p) :: below) (rests : s.Rests t)
    (events : t.events = s.events) (granted : Bool) : Pushing below h p s (t.stepWith granted) := by
  rw [stepWith_cons granted frames]
  simp only [resume, perform, withHandle]
  cases ({ t with frames := below } : Session α).seat? h with
  | none => exact .ended (o := .refused .noHandle) rfl fun _ h => by cases h
  | some seat =>
    rcases seat with ⟨c, _ | _⟩
    · exact .opened rfl ⟨rests.store, (contexts_setBusy _ h true).trans rests.contexts⟩ events
    · exact .ended (o := .refused .busyHandle) rfl fun _ h => by cases h

theorem asks (frames : t.frames = .batch h .nil .nil [.payload p] :: below) (rests : s.Rests t)
    (events : t.events = s.events) (granted : Bool) : Pushing below h p s (t.stepWith granted) := by
  cases hanswer : (t.store.allocate granted p).answer with
  | ok l => exact .linked (frames_got frames hanswer)
  | error failure =>
    refine .refused (t.store.allocate granted p).log.reverse (frames_refused frames hanswer) ?_ ?_
    all_goals
      rw [stepWith_cons granted frames]
      simp only [resume, hanswer]
    · exact ⟨(Store.allocate_error hanswer).trans rests.store, rests.contexts⟩
    · rw [← events]
      rfl

theorem closes {l : Link} (frames : t.frames = .batch h l l [] :: below) (granted : Bool)
    (above : (t.stepWith granted).Over below) : Pushing below h p s (t.stepWith granted) := by
  rw [stepWith_cons granted frames] at above ⊢
  cases l with
  | nil => exact .ended (o := .done) rfl fun _ h => by cases h
  | node i g =>
    simp only [resume, closeBatch] at above ⊢
    split at above
    · rename_i hshut
      rw [if_pos hshut]
      exact .discarded [] (.rollBack h [] (.node i g) (.node i g) .done) rfl rfl
    · rename_i hrunning
      rw [if_neg hrunning]
      cases hseat : ({ t with frames := below } : Session α).seat? h with
      | some seat => exact .ended (o := .done) rfl fun _ h => by cases h
      | none =>
        rw [hseat] at above
        obtain ⟨f, top, hframes⟩ := above
        have hlength : below.length = top.length + below.length + 1 := by
          simpa using congrArg List.length hframes
        omega

/-- The step that drops the payload for want of a node. -/
theorem drops {failure : Exhausted} {lines : List LogLine} (hw : Within below s t)
    (frames : t.frames = .rollBack h [p] .nil .nil (.exhausted failure) :: below)
    (rests : s.Rests t) (events : t.events = lines.map Event.log ++ s.events) (granted : Bool)
    (above : (t.stepWith granted).Over below) :
    Rejects below h p failure s (t.stepWith granted) := by
  refine ⟨hw.step granted above, ?_, ⟨lines, ?_⟩, ?_⟩ <;> rw [stepWith_cons granted frames]
  · rfl
  · rw [← events]
    rfl
  · exact ⟨rests.store, rests.contexts⟩

theorem step (hpush : Pushing below h p s t) (hw : Within below s t) (granted : Bool)
    (above : (t.stepWith granted).Over below) : Pushing below h p s (t.stepWith granted) := by
  cases hpush with
  | begun frames rests events => exact opens frames rests events granted
  | opened frames rests events => exact asks frames rests events granted
  | refused lines frames rests events =>
    have hmoment := drops hw frames rests events granted above
    exact .rejected [.hook p.onDrop] hmoment.frames hmoment (.start above)
  | rejected top frames moment since =>
    have hsince := since.step granted above
    cases top with
    | cons f top =>
      obtain ⟨top', frames'⟩ := frames_below granted rfl frames
      exact .rejected top' frames' moment hsince
    | nil =>
      refine .failed ?_ moment hsince
      rw [stepWith_cons granted frames]
      rfl
  | linked frames => exact closes frames granted above
  | discarded top base frames gives =>
    rcases undoing_step frames gives granted with ⟨top', base', frames', gives'⟩ | frames'
    · exact .discarded top' base' frames' gives'
    · exact .ended frames' fun _ h => by cases h
  | failed frames | ended frames => exact absurd above (frames_finish granted frames)

end Pushing

theorem Within.pushing (hw : Within below s t) (frames : s.frames = .perform (.push h p) :: below) :
    Pushing below h p s t := by
  induction hw with
  | start => exact .begun frames (.refl s) rfl
  | step granted hw above ih => exact ih.step hw granted above

/-- A push fails in one way only. -/
theorem Within.rejects {failure : Exhausted} (hw : Within below s t)
    (frames : s.frames = .perform (.push h p) :: below)
    (hend : t.frames = .finish (.exhausted failure) :: below) :
    ∃ m, Rejects below h p failure s m ∧ Within below m t := by
  cases hw.pushing frames with
  | failed hframes moment since =>
    obtain ⟨rfl⟩ := Frame.finish.inj (List.cons.inj (hframes.symm.trans hend)).1
    exact ⟨_, moment, since⟩
  | ended hframes outcome =>
    exact absurd (Frame.finish.inj (List.cons.inj (hframes.symm.trans hend)).1) (outcome failure)
  | rejected top hframes => cases top_inj hend hframes
  | discarded top base hframes gives =>
    rw [top_inj hend hframes] at gives
    cases gives
  | begun hframes | opened hframes | refused _ hframes | linked hframes =>
    cases hframes.symm.trans hend

/-- A call that is given up keeps the answer that it is going to give. -/
theorem Within.answered {base : Frame α} {o o' : Outcome α} (hw : Within below s t)
    (frames : s.frames = base :: below) (gives : base.givesUp = some o)
    (hend : t.frames = .finish o' :: below) : o' = o := by
  -- on the way there is a frame that gives up with this answer, until the answer itself is there
  have hgoes : (∃ top base, t.frames = top ++ base :: below ∧ base.givesUp = some o) ∨
      t.frames = .finish o :: below := by
    clear hend
    induction hw with
    | start => exact .inl ⟨[], base, frames, gives⟩
    | step granted _ above ih =>
      rcases ih with ⟨top, base, frames, gives⟩ | hdone
      · rcases undoing_step frames gives granted with ⟨top, base, frames, gives⟩ | hdone
        · exact .inl ⟨top, base, frames, gives⟩
        · exact .inr hdone
      · exact absurd above (frames_finish granted hdone)
  rcases hgoes with ⟨top, base, frames, gives⟩ | hdone
  · rw [top_inj hend frames] at gives
    cases gives
  · exact Frame.finish.inj (List.cons.inj (hend.symm.trans hdone)).1

theorem Partitioned.thrifty (hs : s.Partitioned)
    (hbound : s.store.arena.fresh ≤ s.store.arena.capacity) : s.Thrifty where
  whole := hs.inUse_add_free
  bounded := hbound
  opened := by
    intro op h items c below granted frames pushes idle
    rw [stepWith_pushes frames pushes idle granted]
    exact ⟨rfl, rfl, contexts_setBusy s h true⟩
  refused := by
    intro h first last p rest below frames
    constructor
    · intro hrefused
      cases hanswer : (s.store.allocate true p).answer with
      | error failure => exact ((hs.refused_iff hbound).1 hanswer).2
      | ok l => cases hrefused.symm.trans (frames_got frames hanswer)
    · exact fun hfull => frames_refused frames ((hs.refused_iff hbound).2 ⟨rfl, hfull⟩)
  got := by
    intro h first last p rest below frames hroom
    cases hanswer : (s.store.allocate true p).answer with
    | error failure => exact absurd ((hs.refused_iff hbound).1 hanswer).2 (Nat.ne_of_lt hroom)
    | ok l => exact ⟨l, frames_got frames hanswer⟩
  answered := fun frames hw hend => hw.answered frames rfl hend
  atomic := fun frames hw hend => hw.rejects frames hend

/-- In every state of every run exhaustion is exact and atomic, and the capacity is that of the
plan. -/
theorem exhausted_play (p : Plan) (moves : List (Move α)) :
    ((ofPlan p : Session α).play moves).Thrifty ∧
      ((ofPlan p : Session α).play moves).store.arena.capacity =
        (ofPlan p : Session α).store.arena.capacity := by
  obtain ⟨_, _, _, hs, -⟩ := (sound_ofPlan (α := α) p).play moves
  obtain ⟨L, -, hlaid⟩ := hs.tidy
  exact ⟨hs.partitioned.thrifty hlaid.sound.fresh_le, capacity_play _ moves⟩

end Session

end RecyclingStack
