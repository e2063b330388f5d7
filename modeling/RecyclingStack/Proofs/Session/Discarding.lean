import RecyclingStack.Proofs.Session.Courses
import RecyclingStack.Proofs.Session.Frozen

/-! Pushes after a shutdown. The values are dropped and the stack stays as it is; but the nodes are
asked for first, so that a push that would have been refused one is refused it still. -/
namespace RecyclingStack

namespace Session

variable {α : Type} {s t : Session α} {below : List (Frame α)} {base : Frame α} {h : Nat}
  {c : Context} {grants : Nat → Bool} {ps : List (Payload α)} {op : Op α} {o o' : Outcome α}

theorem isGone_close (s : Session α) (h : Nat) (o : Outcome α) :
    (s.close h o).isGone = s.isGone := by
  have hcontexts : (s.close h o).contexts = s.contexts := contexts_setBusy s h false
  rw [isGone_eq, isGone_eq, hcontexts]
  rfl

section

variable {dead : List Link} {live : Load (Payload α)} {held : List (Load (Payload α))}

theorem Sound.isGone_undone (hs : s.Sound dead live held) (frames : s.frames = base :: below)
    (gives : base.givesUp = some o) {granted : Bool}
    (hend : (s.stepWith granted).frames = .finish o' :: below) :
    (s.stepWith granted).isGone = false := by
  obtain ⟨k, hholder⟩ := Option.isSome_iff_exists.1 (holder_of_givesUp gives)
  rw [enter_of_frames frames] at hs
  obtain ⟨c, hseat⟩ := hs.exists_seat hholder
  have halive : ({ s with frames := below } : Session α).isGone = false := not_gone_of_seat hseat
  rw [stepWith_cons granted frames] at hend ⊢
  cases base with
  | rollBack h unused cursor last outcome =>
    cases unused with
    | cons p unused => cases hend
    | nil =>
      simp only [resume] at hend ⊢
      split at hend
      · exact (isGone_close _ h outcome).trans halive
      · cases hend
  | release h node next last outcome =>
    simp only [resume] at hend ⊢
    split at hend
    · rename_i hlast
      rw [if_pos hlast]
      exact (isGone_close _ h outcome).trans halive
    · cases hend
  | _ => cases gives

/-- A call that is given up keeps something to refer to the stack. -/
theorem Within.isGone_undone (hw : Within below s t) (hs : s.Sound dead live held)
    (frames : s.frames = base :: below) (gives : base.givesUp = some o)
    (hend : t.frames = .finish o' :: below) : t.isGone = false := by
  have hgoes : (∃ top base, t.frames = top ++ base :: below ∧ base.givesUp = some o) ∨
      t.isGone = false ∧ t.frames = .finish o :: below := by
    clear hend
    induction hw with
    | start => exact .inl ⟨[], base, frames, gives⟩
    | step granted hw above ih =>
      rcases ih with ⟨top, base, frames, gives⟩ | ⟨-, hdone⟩
      · rcases undoing_step frames gives granted with hgoes | hdone
        · obtain ⟨top, base, frames, gives⟩ := hgoes
          exact .inl ⟨top, base, frames, gives⟩
        · refine .inr ⟨?_, hdone⟩
          obtain ⟨_, _, _, ht⟩ := hw.sound hs
          cases top with
          | nil => exact ht.isGone_undone frames gives hdone
          | cons f top =>
            obtain ⟨top', frames'⟩ := frames_below granted (holder_of_givesUp gives) frames
            rw [top_inj hdone frames'] at gives
            cases gives
      · exact absurd above (frames_finish granted hdone)
  rcases hgoes with ⟨top, base, frames, gives⟩ | ⟨halive, -⟩
  · rw [top_inj hend frames] at gives
    cases gives
  · exact halive

/-- A batch that has its nodes is done, though none of them goes to the stack. -/
theorem Returns.closed {first last : Link}
    (hs : (s.enter (.batch h first last [])).Sound dead live held)
    (shut : s.store.shutdown = true)
    (hreturns : (s.enter (.batch h first last [])).Returns grants s.frames o t) :
    o = .done ∧ t.isGone = false := by
  obtain ⟨c, hseat⟩ := hs.exists_seat rfl
  have halive : s.isGone = false := not_gone_of_seat hseat
  cases first with
  | nil =>
    have hway : Through grants s.frames (s.enter (.batch h .nil last [])) (s.close h .done) :=
      .onward (over_enter s _) (.here (over_enter (s.setBusy h false) _))
    have hend := (hreturns.after hway).through.eq_of_finished (o := .done) rfl
    obtain ⟨rfl, rfl⟩ := conclude_inj (s := s.setBusy h false) hend
    exact ⟨rfl, (isGone_close s h .done).trans halive⟩
  | node i g =>
    have hway : Through grants s.frames (s.enter (.batch h (.node i g) last []))
        (s.enter (.rollBack h [] (.node i g) last .done)) := by
      refine .onward (over_enter s _) ?_
      rw [stepUnder_shut grants h i g last shut]
      exact .here (over_enter s _)
    obtain ⟨_, _, _, hundoing⟩ := hway.within.sound hs
    have hrest := hreturns.after hway
    exact ⟨hrest.within.answered rfl rfl hrest.frames_conclude,
      hrest.within.isGone_undone hundoing rfl rfl hrest.frames_conclude⟩

/-- Such a push is done just where it gets its nodes, and else says that there are none. -/
theorem Returns.discarded (hs : s.Sound dead live held) (idle : s.idle? h = some c)
    (shut : s.store.shutdown = true) (pushes : op.Pushes h (ps.map .payload))
    (hreturns : (s.enter (.perform op)).Returns grants s.frames o t) :
    (o = .done ∧ s.store.Affords grants ps.length ∨
      o = .exhausted ⟨s.store.arena.capacity⟩ ∧ ¬ s.store.Affords grants ps.length) ∧
        t.isGone = false := by
  have hstart : (s.enter (.perform op)).Sound dead live ([] :: held) := hs.enter rfl rfl
  have hroom := Turn.put_isSome grants ps (hs.toKept.tidy_turn (idle?_eq_some.1 idle))
  cases hput : (Turn.mk s.store c).put grants ps with
  | none =>
    rw [hput] at hroom
    obtain ⟨u, base, frames, gives, hway⟩ :=
      through_short idle pushes (Option.map_eq_none_iff.1 hput)
    have hrest := hreturns.after hway
    obtain ⟨_, _, _, hu⟩ := hway.within.sound hstart
    refine ⟨.inr ⟨hrest.within.answered frames gives hrest.frames_conclude, ?_⟩,
      hrest.within.isGone_undone hu frames gives hrest.frames_conclude⟩
    exact fun hafford => by cases hroom.2 hafford
  | some turn =>
    rw [hput] at hroom
    obtain ⟨⟨store, first, last⟩, hbuilt, -⟩ := Option.map_eq_some_iff.1 hput
    obtain ⟨-, hshut⟩ := Store.flags_build hbuilt
    obtain ⟨events, hway⟩ := through_built idle pushes hbuilt
    obtain ⟨_, _, _, hu⟩ := hway.within.sound hstart
    obtain ⟨hdone, halive⟩ := (hreturns.after hway).closed hu (hshut.trans shut)
    exact ⟨.inl ⟨hdone, hroom.1 rfl⟩, halive⟩

end

/-- A push by an idle handle, or a batch that runs nothing in passing, when the stack is shut
down. -/
structure Discards (grants : Nat → Bool) (ps : List (Payload α)) (op : Op α) (s : Session α) :
    Prop where
  /-- It comes to an end. -/
  returns : ∃ o t, (s.enter (.perform op)).Returns grants s.frames o t
  /-- It is done if there is a node for every payload, and fails for want of nodes otherwise. -/
  outcome : ∀ {o t}, (s.enter (.perform op)).Returns grants s.frames o t →
    o = .done ∧ s.store.Affords grants ps.length ∨
      o = .exhausted ⟨s.store.arena.capacity⟩ ∧ ¬ s.store.Affords grants ps.length
  /-- Where memory is not short there are nodes up to the capacity. -/
  room : (∀ segment, grants segment = true) →
    (s.store.Affords grants ps.length ↔ s.inUse + ps.length ≤ s.store.arena.capacity)
  /-- It leaves the stack as it is. -/
  stack : ∀ {o t}, (s.enter (.perform op)).Returns grants s.frames o t →
    t.store.head = s.store.head ∧ t.store.chain = s.store.chain ∧ t.store.values = s.store.values
  /-- It drops every payload once. -/
  sheds : ∀ {o t}, (s.enter (.perform op)).Returns grants s.frames o t →
    (∃ shed, Sheds s.frames (s.enter (.perform op)) (t.conclude o) shed) ∧
      ∀ shed, Sheds s.frames (s.enter (.perform op)) (t.conclude o) shed →
        shed.Perm (ps.map Payload.value)

theorem Sound.discards {dead : List Link} {live : Load (Payload α)}
    {held : List (Load (Payload α))} (hs : s.Sound dead live held) (idle : s.idle? h = some c)
    (shut : s.store.shutdown = true) (pushes : op.Pushes h (ps.map .payload)) :
    s.Discards grants ps op := by
  have hstart : (s.enter (.perform op)).Sound dead live ([] :: held) := hs.enter rfl rfl
  refine ⟨hstart.returns grants rfl pushes.given, fun hreturns => ?_, fun hgranted => ?_,
    fun {o t} hreturns => ?_, fun {o t} hreturns => ⟨hreturns.within.sheds, fun shed hsheds => ?_⟩⟩
  · exact (hreturns.discarded hs idle shut pushes).1
  · obtain rfl : grants = fun _ => true := funext hgranted
    have hwhole := hs.partitioned.inUse_add_free
    obtain ⟨L, -, hlaid⟩ := hs.tidy
    rw [Store.affords_granted hlaid.sound.fresh_le]
    omega
  · obtain ⟨moves, hplay⟩ := hreturns.within.exists_play
    have hchain := hstart.chain_play shut moves
    have halive : (t.conclude o).isGone = false := (hreturns.discarded hs idle shut pushes).2
    rw [hplay] at halive
    have hvalues := hstart.values_play shut halive
    rw [← hplay] at hchain hvalues
    exact ⟨hchain.1, hchain.2, hvalues⟩
  · obtain ⟨moves, hplay⟩ := hreturns.within.exists_play
    have hshut : (t.conclude o).store.shutdown = true := hplay ▸ shutdown_play moves shut
    rw [← Item.payloads_map ps]
    refine hsheds.all_given hstart rfl pushes.given hreturns.frames_conclude (fun reason ho => ?_)
      hshut
    rcases (hreturns.discarded hs idle shut pushes).1 with ⟨rfl, -⟩ | ⟨rfl, -⟩ <;> cases ho

/-- In any state of any run after a shutdown, a push or a batch drops what it was given and leaves
the stack alone, and it is done if there are nodes enough. -/
theorem discards_play (p : Plan) (moves : List (Move α)) (grants : Nat → Bool)
    (here : (ofPlan p).play moves = s.enter (.perform op)) (pushes : op.Pushes h (ps.map .payload))
    (idle : s.idle? h = some c) (shut : s.store.shutdown = true) : s.Discards grants ps op := by
  obtain ⟨_, _, _, hs⟩ := sound_before p moves here
  exact hs.discards idle shut pushes

/-- Two payloads are pushed as a batch after a shutdown, with one slot in use. -/
def discarding : List (Move Nat) :=
  Move.inTurn 4 [.register 0, .push 0 (.plain 1), .shutdown 0] ++
    [.call (.pushBatch 0 [.payload (.plain 2), .payload (.plain 3)])]

theorem discards_roomy : ∃ s : Session Nat, (ofPlan ⟨.default, some 3⟩).play discarding =
      s.enter (.perform (.pushBatch 0 [.payload (.plain 2), .payload (.plain 3)])) ∧
    s.Discards (fun _ => true) [.plain 2, .plain 3]
      (.pushBatch 0 [.payload (.plain 2), .payload (.plain 3)]) ∧
    ∃ t, (s.enter (.perform (.pushBatch 0 [.payload (.plain 2), .payload (.plain 3)]))).Returns
      (fun _ => true) s.frames .done t := by
  let s : Session Nat := { (ofPlan ⟨.default, some 3⟩).play discarding with frames := [] }
  have here : (ofPlan ⟨.default, some 3⟩).play discarding =
      s.enter (.perform (.pushBatch 0 [.payload (.plain 2), .payload (.plain 3)])) :=
    enter_of_frames rfl
  obtain ⟨c, idle⟩ : ∃ c, s.idle? 0 = some c := Option.isSome_iff_exists.1 (by decide +kernel)
  have hdiscards := discards_play _ discarding (fun _ => true) here
    (Op.pushes_batch 0 [.plain 2, .plain 3]) idle (by decide +kernel)
  obtain ⟨o, t, hreturns⟩ := hdiscards.returns
  have hroom := (hdiscards.room fun _ => rfl).2 (by decide +kernel)
  obtain ⟨rfl, -⟩ := (hdiscards.outcome hreturns).resolve_right fun hno => hno.2 hroom
  exact ⟨s, here, hdiscards, t, hreturns⟩

/-- A stack that is shut down with its only slot in use. -/
def shutFull : Session Nat :=
  (ofPlan ⟨.default, some 1⟩).play
    (Move.inTurn 4 [.register 0, .push 0 (.plain 1), .shutdown 0])

/-- A push fails there, shut down or not. -/
theorem push_shut_exhausted : shutFull.frames.isEmpty = true ∧ shutFull.store.shutdown = true ∧
    (shutFull.idle? 0).isSome = true ∧
      (shutFull.exec (.push 0 (.plain 2))).answer = some (.exhausted ⟨1⟩) := by
  decide +kernel

end Session

end RecyclingStack
