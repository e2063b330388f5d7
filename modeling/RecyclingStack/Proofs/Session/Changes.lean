import RecyclingStack.Proofs.Session.Ledger

/-! What a step can do, said once. To the shared state and to the contexts of the handles it does
nothing, or one of a few things, each of which a certain frame is there for; it puts frames on those
that wait; and it drops what its notes say. -/
namespace RecyclingStack

def Op.isAside {α : Type} : Op α → Bool
  | .push _ _ | .pushBatch _ _ | .pushEach _ _ | .pop _ | .popUpTo _ _ => false
  | _ => true

def Frame.isAside {α : Type} : Frame α → Bool
  | .perform op => op.isAside
  | _ => false

def Note.shed {β : Type} : Note β → List β
  | dropped p => [p]
  | destroyed p => [p]
  | _ => []

def Event.shed {α : Type} : Event α → List α
  | dropped v => [v]
  | _ => []

namespace Session

variable {α : Type} {s t : Session α} {f : Frame α} {granted : Bool} {h : Nat} {c : Context}

def shed (s : Session α) : List α := s.events.flatMap Event.shed

/-- The slot that is handed out when a frame goes on. -/
def handOutOf (s : Session α) (granted : Bool) : Frame α → List Nat
  | .batch _ _ _ (.payload payload :: _) =>
    match (s.store.allocate granted payload).answer with
    | .ok link => [link.index]
    | .error _ => []
  | _ => []

/-- The contexts of the handles, busy or not, by their numbers. -/
def contexts (s : Session α) : List (Option Context) := s.handles.map (Option.map Seat.context)

/-- From one state to another neither the shared state nor a context changes. -/
structure Rests (s t : Session α) : Prop where
  store : t.store = s.store
  contexts : t.contexts = s.contexts

/-- From one state to another a handle takes its turn: the shared state and its context become
those of the turn. -/
structure Turns (s t : Session α) (handle : Nat) (turn : Turn (Payload α)) : Prop where
  store : t.store = turn.store
  contexts : t.contexts = s.contexts.set handle (some turn.context)

/-- What a step that takes this frame off does to the shared state and to the contexts. -/
inductive Changes (s : Session α) (granted : Bool) : Frame α → Session α → Prop where
  | rests {f : Frame α} {t : Session α} (rests : s.Rests t) (kept : s.handOutOf granted f = []) :
      Changes s granted f t
  | registers {r : Nat} {t : Session α} (refers : s.refers r = true) (store : t.store = s.store)
      (contexts : t.contexts = s.contexts ++ [some (Context.register s.store)]) :
      Changes s granted (.perform (.register r)) t
  | leaves {h : Nat} {c : Context} {t : Session α} (idle : s.idle? h = some c)
      (store : t.store = (Turn.mk s.store c).abandon.state)
      (contexts : t.contexts = s.contexts.set h none) :
      Changes s granted (.perform (.dropHandle h)) t
  | pops {f : Frame α} {h : Nat} {c : Context} {t : Session α} (frame : f = .perform (.pop h) ∨
      ∃ limit got, limit ≠ some 0 ∧ f = .popUpTo h limit got) (idle : s.idle? h = some c)
      (turns : s.Turns t h (Turn.mk s.store c).pop.state) : Changes s granted f t
  | advances {h : Nat} {c : Context} {t : Session α} (idle : s.idle? h = some c)
      (turns : s.Turns t h (Turn.mk s.store c).advance.state) :
      Changes s granted (.perform (.advance h)) t
  | reclaims {h : Nat} {c : Context} {t : Session α} (idle : s.idle? h = some c)
      (turns : s.Turns t h (Turn.mk s.store c).reclaim.state) :
      Changes s granted (.perform (.reclaim h)) t
  | setsOps {h ops : Nat} {c : Context} {t : Session α} (idle : s.idle? h = some c)
      (turns : s.Turns t h ⟨s.store, { c with ops }⟩) :
      Changes s granted (.perform (.setOps h ops)) t
  | setsEpoch {r epoch : Nat} {t : Session α} (refers : s.refers r = true)
      (store : t.store = { s.store with epoch }) (contexts : t.contexts = s.contexts) :
      Changes s granted (.perform (.setEpoch r epoch)) t
  | shuts {r : Nat} {t : Session α} (refers : s.refers r = true)
      (store : t.store = { s.store with shutdown := true }) (contexts : t.contexts = s.contexts) :
      Changes s granted (.perform (.shutdown r)) t
  | publishes {h i g : Nat} {last : Link} {seat : Seat} {t : Session α}
      (running : s.store.shutdown = false) (seated : s.seat? h = some seat)
      (turns : s.Turns t h ((Turn.mk s.store seat.context).publish (.node i g) last).state) :
      Changes s granted (.batch h (.node i g) last []) t
  | allocates {h : Nat} {first last l : Link} {p : Payload α} {rest : List (Item α)} {t : Session α}
      (ok : (s.store.allocate granted p).answer = .ok l)
      (store : t.store = (s.store.allocate granted p).state.setNext l first)
      (contexts : t.contexts = s.contexts) :
      Changes s granted (.batch h first last (.payload p :: rest)) t
  | empties {f : Frame α} {l : Link} {p : Payload α} {store : Store (Payload α)} {t : Session α}
      (frame : (∃ h last o, f = .rollBack h [] l last o) ∨ ∃ dropped, f = .destroy l dropped)
      (take : s.store.takeValue l = some (p, store)) (store : t.store = store)
      (contexts : t.contexts = s.contexts) : Changes s granted f t
  | frees {h : Nat} {node next last : Link} {o : Outcome α} {t : Session α}
      (store : t.store = s.store.deallocate node) (contexts : t.contexts = s.contexts) :
      Changes s granted (.release h node next last o) t

/-- The frames that such a step leaves on those that wait. -/
inductive Puts (s : Session α) : Frame α → Session α → Prop where
  /-- An operation is over. -/
  | finishes {f : Frame α} {t : Session α} {o : Outcome α}
      (frames : t.frames = .finish o :: s.frames) : Puts s f t
  /-- And so is the stack. -/
  | ends {op : Op α} {t : Session α} {l : Link} (gone : t.isGone = true)
      (frames : t.frames = .destroy l 0 :: .finish .done :: s.frames) : Puts s (.perform op) t
  | goesOn {f : Frame α} {t : Session α} (top : List (Frame α)) (busy : f.isAside = false)
      (frames : t.frames = top ++ s.frames) : Puts s f t
  /-- An outcome is for those that wait. -/
  | delivers {o : Outcome α} : Puts s (.finish o) (s.deliver o)

/-- What a step that takes this frame off is like. -/
structure Steps (s : Session α) (granted : Bool) (f : Frame α) (t : Session α) : Prop where
  changes : s.Changes granted f t
  puts : s.Puts f t
  references : t.references = s.references ∨ ∃ r, s.refers r = true
  shed : t.shed = ((s.notesOf f).flatMap Note.shed).map Payload.value ++ s.shed

theorem seat_of_contexts (hc : s.contexts[h]? = some (some c)) :
    ∃ busy, s.seat? h = some ⟨c, busy⟩ := by
  rw [contexts, List.getElem?_map] at hc
  rcases hget : s.handles[h]? with _ | _ | ⟨c', busy⟩
  · rw [hget] at hc
    cases hc
  · rw [hget] at hc
    cases hc
  · rw [hget] at hc
    cases hc
    exact ⟨busy, by rw [seat?, hget]; rfl⟩

theorem contexts_of_seat {seat : Seat} (hseat : s.seat? h = some seat) :
    s.contexts[h]? = some (some seat.context) := by
  rw [contexts, List.getElem?_map, getElem?_of_seat hseat]
  rfl

theorem Rests.refl (s : Session α) : s.Rests s := ⟨rfl, rfl⟩

theorem Rests.enter (hrests : s.Rests t) (g : Frame α) : s.Rests (t.enter g) :=
  ⟨hrests.store, hrests.contexts⟩

theorem Turns.enter {turn : Turn (Payload α)} (hturns : s.Turns t h turn) (g : Frame α) :
    s.Turns (t.enter g) h turn :=
  ⟨hturns.store, hturns.contexts⟩

theorem shed_recordLog (s : Session α) (lines : List LogLine) :
    (s.recordLog lines).shed = s.shed := by
  have hlog : (lines.reverse.map Event.log : List (Event α)).flatMap Event.shed = [] :=
    List.flatMap_eq_nil_iff.2 fun e he => by
      obtain ⟨line, -, rfl⟩ := List.mem_map.1 he
      rfl
  rw [shed, recordLog, List.flatMap_append, hlog]
  rfl

theorem shed_settle {β : Type} (s : Session α) (h : Nat) (e : Effect (Turn (Payload α)) β) :
    (s.settle h e).shed = s.shed :=
  shed_recordLog _ _

theorem shed_of_popped (o : Option (Payload α)) :
    (o.toList.map Note.popped).flatMap Note.shed = [] := by
  cases o <;> rfl

theorem shed_openedBy (s : Session α) (h : Nat) (given : List (Payload α)) :
    (s.openedBy h given).flatMap Note.shed = [] := by
  unfold openedBy
  split <;> rfl

theorem contexts_setSeat (s : Session α) (h : Nat) (seat : Option Seat) :
    (s.setSeat h seat).contexts = s.contexts.set h (seat.map Seat.context) :=
  List.map_set

theorem contexts_setBusy (s : Session α) (h : Nat) (busy : Bool) :
    (s.setBusy h busy).contexts = s.contexts := by
  apply List.ext_getElem?
  intro k
  simp only [contexts, setBusy, List.getElem?_map, List.getElem?_modify]
  rcases s.handles[k]? with _ | _ | seat
  · rfl
  · split <;> rfl
  · split <;> rfl

theorem rests_setBusy (s : Session α) (h : Nat) (busy : Bool) : s.Rests (s.setBusy h busy) :=
  ⟨rfl, contexts_setBusy s h busy⟩

theorem turns_settle {β : Type} (s : Session α) (h : Nat) (e : Effect (Turn (Payload α)) β) :
    s.Turns (s.settle h e) h e.state :=
  ⟨rfl, contexts_setSeat _ _ _⟩

theorem Steps.silent (changes : s.Changes granted f t) (puts : s.Puts f t)
    (references : t.references = s.references ∨ ∃ r, s.refers r = true)
    (hnone : (s.notesOf f).flatMap Note.shed = []) (shed : t.shed = s.shed) :
    s.Steps granted f t := by
  refine ⟨changes, puts, references, ?_⟩
  rw [hnone, shed]
  rfl

/-- An operation that is performed drops nothing itself. -/
theorem Steps.performed {op : Op α} (changes : s.Changes granted (.perform op) t)
    (puts : s.Puts (.perform op) t)
    (references : t.references = s.references ∨ ∃ r, s.refers r = true) (shed : t.shed = s.shed) :
    s.Steps granted (.perform op) t := by
  refine .silent changes puts references ?_ shed
  cases op with
  | push h p => exact shed_openedBy s h _
  | pushBatch h items => exact shed_openedBy s h _
  | pop h => exact shed_of_popped _
  | _ => rfl

theorem steps_conclude (op : Op α) (o : Outcome α) : s.Steps granted (.perform op) (s.conclude o) :=
  .performed (.rests ((Rests.refl s).enter _) rfl) (.finishes rfl) (.inl rfl) rfl

theorem steps_withReference {op : Op α} {go : Session α} {r : Nat}
    (hgo : s.refers r = true → s.Steps granted (.perform op) go) :
    s.Steps granted (.perform op) (s.withReference r go) := by
  unfold withReference
  split
  · exact hgo ‹_›
  · exact steps_conclude op _

theorem steps_withHandle {op : Op α} {go : Context → Session α}
    (hgo : ∀ c, s.idle? h = some c → s.Steps granted (.perform op) (go c)) :
    s.Steps granted (.perform op) (s.withHandle h go) := by
  unfold withHandle
  cases hseat : s.seat? h with
  | none => exact steps_conclude op _
  | some seat =>
    rcases seat with ⟨c, _ | _⟩
    · exact hgo c (idle?_eq_some.2 hseat)
    · exact steps_conclude op _

theorem store_afterDrop (s : Session α) : s.afterDrop.store = s.store := by
  unfold afterDrop
  split <;> rfl

theorem handles_afterDrop (s : Session α) : s.afterDrop.handles = s.handles := by
  unfold afterDrop
  split <;> rfl

theorem references_afterDrop (s : Session α) : s.afterDrop.references = s.references := by
  unfold afterDrop
  split <;> rfl

theorem contexts_afterDrop (s : Session α) : s.afterDrop.contexts = s.contexts :=
  congrArg (List.map _) (handles_afterDrop s)

theorem shed_afterDrop (s : Session α) : s.afterDrop.shed = s.shed := by
  unfold afterDrop
  split <;> rfl

theorem puts_afterDrop {op : Op α} (ht : t.frames = s.frames) :
    s.Puts (.perform op) t.afterDrop := by
  unfold afterDrop
  split
  · exact .ends (l := t.store.head) ‹_› (congrArg (_ :: _ :: ·) ht)
  · exact .finishes (congrArg (_ :: ·) ht)

theorem steps_perform (s : Session α) (op : Op α) :
    s.Steps granted (.perform op) (s.perform op) := by
  cases op with
  | cloneReference r =>
    exact steps_withReference fun hr =>
      .performed (.rests ⟨rfl, rfl⟩ rfl) (.finishes rfl) (.inr ⟨r, hr⟩) rfl
  | dropReference r =>
    exact steps_withReference fun hr =>
      .performed (.rests ⟨store_afterDrop _, contexts_afterDrop _⟩ rfl) (puts_afterDrop rfl)
        (.inr ⟨r, hr⟩) (shed_afterDrop _)
  | register r =>
    exact steps_withReference fun hr =>
      .performed (.registers hr rfl List.map_append) (.finishes rfl) (.inl rfl) rfl
  | dropHandle h =>
    simp only [perform]
    refine steps_withHandle fun c hidle => .performed (.leaves hidle (store_afterDrop _) ?_)
      (puts_afterDrop rfl) (.inl (references_afterDrop _))
      ((shed_afterDrop _).trans (shed_recordLog _ _))
    apply (contexts_afterDrop _).trans
    exact contexts_setSeat { s with store := (Turn.mk s.store c).abandon.state } h none
  | push h _ | pushBatch h _ =>
    exact steps_withHandle fun c _ =>
      .performed (.rests ((rests_setBusy s h true).enter _) rfl) (.goesOn [_] rfl rfl)
        (.inl rfl) rfl
  | pushEach h _ | popUpTo h _ =>
    exact steps_withHandle fun c _ =>
      .performed (.rests ((Rests.refl s).enter _) rfl) (.goesOn [_] rfl rfl) (.inl rfl) rfl
  | pop h =>
    simp only [perform]
    exact steps_withHandle fun c hidle =>
      .performed (.pops (.inl rfl) hidle ((turns_settle s h _).enter _)) (.finishes rfl) (.inl rfl)
        (shed_settle s h _)
  | advance h =>
    simp only [perform]
    exact steps_withHandle fun c hidle =>
      .performed (.advances hidle ((turns_settle s h _).enter _)) (.finishes rfl) (.inl rfl)
        (shed_settle s h _)
  | reclaim h =>
    simp only [perform]
    exact steps_withHandle fun c hidle =>
      .performed (.reclaims hidle ((turns_settle s h _).enter _)) (.finishes rfl) (.inl rfl)
        (shed_settle s h _)
  | setOps h ops =>
    simp only [perform]
    refine steps_withHandle fun c hidle =>
      .performed (.setsOps hidle ⟨rfl, ?_⟩) (.finishes rfl) (.inl rfl) rfl
    exact contexts_setSeat s h (some (Seat.idle { c with ops }))
  | setEpoch r epoch =>
    exact steps_withReference fun hr =>
      .performed (.setsEpoch hr rfl rfl) (.finishes rfl) (.inl rfl) rfl
  | shutdown r =>
    refine steps_withReference fun hr => ?_
    unfold shutDown
    split
    · exact steps_conclude _ _
    · exact .performed (.shuts hr rfl rfl) (.finishes rfl) (.inl rfl)
        (shed_recordLog { s with store := { s.store with shutdown := true } } _)
  | askStack r _ => exact steps_withReference fun _ => steps_conclude _ _
  | askHandle h _ =>
    simp only [perform]
    exact steps_withHandle fun _ _ => steps_conclude _ _
  | refused reason => exact steps_conclude _ _

theorem steps_deliver (s : Session α) (o : Outcome α) :
    s.Steps granted (.finish o) (s.deliver o) := by
  rcases s with ⟨store, references, handles, frames, events, answer⟩
  rcases frames with _ | ⟨_ | _, frames⟩ <;> cases o <;>
    exact ⟨.rests ⟨rfl, rfl⟩ rfl, .delivers, .inl rfl, rfl⟩

theorem steps_closeBatch (s : Session α) (h : Nat) (first last : Link) :
    s.Steps granted (.batch h first last []) (s.closeBatch h first last) := by
  cases first with
  | nil => exact ⟨.rests ((rests_setBusy s h false).enter _) rfl, .finishes rfl, .inl rfl, rfl⟩
  | node i g =>
    have hnone : (s.notesOf (.batch h (.node i g) last [])).flatMap Note.shed = [] := by
      simp only [notesOf, Link.isNil, Bool.false_eq_true, if_false]
      split <;> rfl
    simp only [closeBatch]
    split
    · exact .silent (.rests ⟨rfl, rfl⟩ rfl) (.goesOn [_] rfl rfl) (.inl rfl) hnone rfl
    · rename_i hrunning
      cases hseat : s.seat? h with
      | none => exact .silent (.rests (.refl s) rfl) (.goesOn [] rfl rfl) (.inl rfl) hnone rfl
      | some seat =>
        exact .silent (.publishes (Bool.eq_false_iff.2 hrunning) hseat
          ((turns_settle s h _).enter _)) (.finishes rfl) (.inl rfl) hnone (shed_settle s h _)

theorem steps_resume (s : Session α) (f : Frame α) : s.Steps granted f (s.resume granted f) := by
  cases f with
  | perform op => exact steps_perform s op
  | hook rest =>
    cases rest with
    | nil => exact ⟨.rests (.refl s) rfl, .goesOn [] rfl rfl, .inl rfl, rfl⟩
    | cons op rest => exact ⟨.rests ⟨rfl, rfl⟩ rfl, .goesOn [_, _] rfl rfl, .inl rfl, rfl⟩
  | finish o => exact steps_deliver s o
  | pushEach h values pushed =>
    cases values with
    | nil => exact ⟨.rests ⟨rfl, rfl⟩ rfl, .finishes rfl, .inl rfl, rfl⟩
    | cons v values => exact ⟨.rests ⟨rfl, rfl⟩ rfl, .goesOn [_, _] rfl rfl, .inl rfl, rfl⟩
  | popUpTo h limit got =>
    have hnone : (s.notesOf (.popUpTo h limit got)).flatMap Note.shed = [] := by
      simp only [notesOf]
      split
      · rfl
      · exact shed_of_popped _
    simp only [resume]
    split
    · exact .silent (.rests ⟨rfl, rfl⟩ rfl) (.finishes rfl) (.inl rfl) hnone rfl
    · rename_i hlimit
      cases hidle : s.idle? h with
      | none => exact .silent (.rests ⟨rfl, rfl⟩ rfl) (.finishes rfl) (.inl rfl) hnone rfl
      | some c =>
        have hpops : ∀ g, s.Changes granted (.popUpTo h limit got)
            ((s.settle h (Turn.mk s.store c).pop).enter g) := fun g =>
          .pops (.inr ⟨limit, got, hlimit, rfl⟩) hidle ((turns_settle s h _).enter g)
        dsimp only
        split
        · exact .silent (hpops _) (.finishes rfl) (.inl rfl) hnone (shed_settle s h _)
        · exact .silent (hpops _) (.goesOn [_] rfl rfl) (.inl rfl) hnone (shed_settle s h _)
  | batch h first last items =>
    rcases items with _ | ⟨item | _ | _, rest⟩
    · exact steps_closeBatch s h first last
    · simp only [resume]
      cases hanswer : (s.store.allocate granted item).answer with
      | error failure =>
        have hkept : s.handOutOf granted (.batch h first last (.payload item :: rest)) = [] := by
          simp only [handOutOf, hanswer]
        exact ⟨.rests ⟨Store.allocate_error hanswer, rfl⟩ hkept, .goesOn [_] rfl rfl, .inl rfl,
          shed_recordLog _ _⟩
      | ok l =>
        exact ⟨.allocates hanswer rfl rfl, .goesOn [_] rfl rfl, .inl rfl,
          shed_recordLog { s with store := (s.store.allocate granted item).state } _⟩
    · exact ⟨.rests ⟨rfl, rfl⟩ rfl, .goesOn [_, _] rfl rfl, .inl rfl, rfl⟩
    · exact ⟨.rests ⟨rfl, rfl⟩ rfl, .goesOn [_] rfl rfl, .inl rfl, rfl⟩
  | rollBack h unused cursor last o =>
    cases unused with
    | cons p unused => exact ⟨.rests ⟨rfl, rfl⟩ rfl, .goesOn [_, _] rfl rfl, .inl rfl, rfl⟩
    | nil =>
      cases htake : s.store.takeValue cursor with
      | none =>
        simp only [resume, htake]
        refine ⟨.rests ((rests_setBusy s h false).enter _) rfl, .finishes rfl, .inl rfl, ?_⟩
        simp only [notesOf, htake]
        rfl
      | some taken =>
        simp only [resume, htake]
        refine ⟨.empties (.inl ⟨h, last, o, rfl⟩) htake rfl rfl, .goesOn [_, _] rfl rfl,
          .inl rfl, ?_⟩
        simp only [notesOf, htake]
        rfl
  | release h node next last o =>
    have hnone : (s.notesOf (.release h node next last o)).flatMap Note.shed = [] := by
      simp only [notesOf]
      split <;> rfl
    simp only [resume]
    split
    · exact .silent (.frees rfl (contexts_setBusy { s with store := s.store.deallocate node } h
        false)) (.finishes rfl) (.inl rfl) hnone rfl
    · exact .silent (.frees rfl rfl) (.goesOn [_] rfl rfl) (.inl rfl) hnone rfl
  | destroy cursor dropped =>
    cases htake : s.store.takeValue cursor with
    | none =>
      have hnone : (s.notesOf (.destroy cursor dropped)).flatMap Note.shed = [] := by
        simp only [notesOf, htake]
        rfl
      simp only [resume, htake]
      split
      · exact .silent (.rests ⟨rfl, rfl⟩ rfl) (.goesOn [] rfl rfl) (.inl rfl) hnone rfl
      · exact .silent (.rests ⟨rfl, rfl⟩ rfl) (.goesOn [] rfl rfl) (.inl rfl) hnone
          (shed_recordLog _ _)
    | some taken =>
      simp only [resume, htake]
      refine ⟨.empties (.inr ⟨dropped, rfl⟩) htake rfl rfl, .goesOn [_, _] rfl rfl, .inl rfl, ?_⟩
      simp only [notesOf, htake]
      rfl

theorem stepWith_cons {below : List (Frame α)} (granted : Bool) (frames : s.frames = f :: below) :
    s.stepWith granted = ({ s with frames := below } : Session α).resume granted f := by
  rw [stepWith, frames]

/-- A step takes the frame on top off, and does what this frame is there for. -/
theorem steps_stepWith {below : List (Frame α)} (s : Session α) (granted : Bool)
    (frames : s.frames = f :: below) :
    ({ s with frames := below } : Session α).Steps granted f (s.stepWith granted) := by
  rw [stepWith_cons granted frames]
  exact steps_resume _ f

/-- Frames are put on top only, but for an outcome that is delivered. -/
theorem Puts.suffix (hp : s.Puts f t) (hf : ∀ o, f ≠ .finish o) : s.frames <:+ t.frames := by
  cases hp with
  | finishes frames => exact frames ▸ List.suffix_cons _ _
  | ends _ frames => exact frames ▸ List.suffix_append [_, _] _
  | goesOn top _ frames => exact frames ▸ List.suffix_append top _
  | delivers => exact absurd rfl (hf _)

/-- An operation that neither pushes nor pops is over at once, unless it ends the stack. -/
theorem Puts.concludes (hp : s.Puts f t) (hf : f.isAside = true) (hnot : t.isGone = false) :
    ∃ o, t.frames = .finish o :: s.frames := by
  cases hp with
  | finishes frames => exact ⟨_, frames⟩
  | ends gone => cases gone.symm.trans hnot
  | goesOn _ busy => cases hf.symm.trans busy
  | delivers => cases hf

/-- A shutdown is not taken back. -/
theorem Changes.shutdown (hc : s.Changes granted f t) (hshut : s.store.shutdown = true) :
    t.store.shutdown = true := by
  cases hc with
  | rests rests => rwa [rests.store]
  | registers _ store => rwa [store]
  | leaves _ store => rwa [store, Turn.shutdown_abandon]
  | pops _ _ turns => rwa [turns.store, Turn.shutdown_pop]
  | advances _ turns | reclaims _ turns | setsOps _ turns =>
    rw [turns.store]
    exact hshut
  | shuts _ store => rw [store]
  | publishes _ _ turns => rwa [turns.store, Turn.shutdown_publish]
  | setsEpoch _ store | allocates _ store | frees store =>
    rw [store]
    exact hshut
  | empties _ take store => rwa [store, Turn.shutdown_takeValue take]

theorem shutdown_stepWith (granted : Bool) (hshut : s.store.shutdown = true) :
    (s.stepWith granted).store.shutdown = true := by
  cases frames : s.frames with
  | nil => rwa [stepWith, frames]
  | cons f below => exact (s.steps_stepWith granted frames).changes.shutdown hshut

theorem isGone_eq (s : Session α) :
    s.isGone = (s.references.all (! ·) && s.contexts.all Option.isNone) := by
  rw [isGone, contexts, List.all_map]
  congr
  funext seat
  cases seat <;> rfl

theorem refers_of_gone (hgone : s.isGone = true) (r : Nat) : s.refers r = false := by
  cases hr : s.refers r with
  | false => rfl
  | true => rw [not_gone_of_refers hr] at hgone; cases hgone

theorem idle?_of_gone (hgone : s.isGone = true) (h : Nat) : s.idle? h = none := by
  rw [idle?, seat?_of_gone hgone]

/-- Once nothing is left, nothing comes back. -/
theorem Steps.gone (hsteps : s.Steps granted f t) (hgone : s.isGone = true) : t.isGone = true := by
  have hcontexts : t.contexts = s.contexts := by
    cases hsteps.changes with
    | rests rests => exact rests.contexts
    | registers refers => cases (refers_of_gone hgone _).symm.trans refers
    | leaves idle | pops _ idle | advances idle | reclaims idle | setsOps idle =>
      cases (idle?_of_gone hgone _).symm.trans idle
    | publishes _ seated => cases (seat?_of_gone hgone _).symm.trans seated
    | setsEpoch _ _ contexts | shuts _ _ contexts | allocates _ _ contexts
    | empties _ _ _ contexts | frees _ contexts => exact contexts
  rcases hsteps.references with hreferences | ⟨r, hr⟩
  · rwa [isGone_eq, hreferences, hcontexts, ← isGone_eq]
  · cases (refers_of_gone hgone r).symm.trans hr

theorem gone_stepWith (hgone : s.isGone = true) (granted : Bool) :
    (s.stepWith granted).isGone = true := by
  cases frames : s.frames with
  | nil => rwa [stepWith, frames]
  | cons f below => exact (s.steps_stepWith granted frames).gone hgone

/-- What a step drops is in its notes. -/
theorem shed_stepWith (s : Session α) (granted : Bool) :
    (s.stepWith granted).shed = (s.notes.flatMap Note.shed).map Payload.value ++ s.shed := by
  cases frames : s.frames with
  | nil =>
    rw [stepWith, notes, frames]
    rfl
  | cons f below =>
    rw [(s.steps_stepWith granted frames).shed, notes, frames]
    rfl

/-- The turn that a handle takes in a step that takes this frame off. -/
inductive Takes (s : Session α) : Frame α → Turn (Payload α) → Prop where
  | pops {f : Frame α} {h : Nat} {c : Context} (idle : s.idle? h = some c) :
    Takes s f (Turn.mk s.store c).pop.state
  | advances {h : Nat} {c : Context} (idle : s.idle? h = some c) :
    Takes s (.perform (.advance h)) (Turn.mk s.store c).advance.state
  | reclaims {h : Nat} {c : Context} (idle : s.idle? h = some c) :
    Takes s (.perform (.reclaim h)) (Turn.mk s.store c).reclaim.state
  | setsOps {h ops : Nat} {c : Context} (idle : s.idle? h = some c) :
    Takes s (.perform (.setOps h ops)) ⟨s.store, { c with ops }⟩
  | publishes {h i g : Nat} {last : Link} {seat : Seat} (seated : s.seat? h = some seat) :
    Takes s (.batch h (.node i g) last [])
      ((Turn.mk s.store seat.context).publish (.node i g) last).state

/-- After a turn each handle is as it was, but for the one whose turn it was. -/
theorem Turns.context_cases {turn : Turn (Payload α)} (hturns : s.Turns t h turn) {k : Nat}
    (hk : t.contexts[k]? = some (some c)) :
    k = h ∧ c = turn.context ∨ s.contexts[k]? = some (some c) := by
  rw [hturns.contexts, List.getElem?_set] at hk
  split at hk
  · rename_i heq
    split at hk <;> cases hk
    exact .inl ⟨heq.symm, rfl⟩
  · exact .inr hk

theorem context_cases_append {d : Context} {k : Nat}
    (hcontexts : t.contexts = s.contexts ++ [some d])
    (hk : t.contexts[k]? = some (some c)) : c = d ∨ s.contexts[k]? = some (some c) := by
  rw [hcontexts, List.getElem?_append] at hk
  split at hk
  · exact .inr hk
  · rw [List.getElem?_singleton] at hk
    split at hk <;> cases hk
    exact .inl rfl

theorem context_of_unset (hcontexts : t.contexts = s.contexts.set h none) {k : Nat}
    (hk : t.contexts[k]? = some (some c)) : s.contexts[k]? = some (some c) := by
  rw [hcontexts, List.getElem?_set] at hk
  split at hk
  · split at hk <;> cases hk
  · exact hk

/-- What is so of every handle after a step: of those that were there, if they are left alone, of
one that is registered, and of one that takes its turn. -/
theorem Changes.each {P : Turn (Payload α) → Prop} (hc : s.Changes granted f t)
    (hothers : ∀ (k : Nat) (c : Context), s.contexts[k]? = some (some c) → P ⟨t.store, c⟩)
    (hregister : P ⟨t.store, Context.register s.store⟩)
    (hturn : ∀ turn, s.Takes f turn → P turn) (k : Nat) (c : Context)
    (hk : t.contexts[k]? = some (some c)) : P ⟨t.store, c⟩ := by
  have hturns : ∀ {h : Nat} {turn : Turn (Payload α)}, s.Turns t h turn → s.Takes f turn →
      P ⟨t.store, c⟩ := by
    intro h turn hturns htakes
    rcases hturns.context_cases hk with ⟨-, rfl⟩ | hk
    · rw [hturns.store]
      exact hturn turn htakes
    · exact hothers k c hk
  cases hc with
  | rests rests => exact hothers k c (rests.contexts ▸ hk)
  | setsEpoch _ _ contexts | shuts _ _ contexts | allocates _ _ contexts | empties _ _ _ contexts
  | frees _ contexts => exact hothers k c (contexts ▸ hk)
  | registers _ _ contexts =>
    rcases context_cases_append contexts hk with rfl | hk
    · exact hregister
    · exact hothers k c hk
  | leaves _ _ contexts => exact hothers k c (context_of_unset contexts hk)
  | pops _ idle turns => exact hturns turns (.pops idle)
  | advances idle turns => exact hturns turns (.advances idle)
  | reclaims idle turns => exact hturns turns (.reclaims idle)
  | setsOps idle turns => exact hturns turns (.setsOps idle)
  | publishes _ seated turns => exact hturns turns (.publishes seated)

end Session

end RecyclingStack
