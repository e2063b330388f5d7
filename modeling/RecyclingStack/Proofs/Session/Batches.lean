import RecyclingStack.Proofs.Session.Courses

/-! A batch of payloads, and the same payloads pushed one by one. -/
namespace RecyclingStack

namespace Session

variable {α : Type} {s t : Session α} {h : Nat} {c : Context} {grants : Nat → Bool}
  {ps : List (Payload α)}

/-- The payloads are pushed one after the other, and every push returns that it is done. What is
noted of a call in between is of no account. -/
inductive OneByOne (grants : Nat → Bool) (h : Nat) :
    Session α → List (Payload α) → Session α → Prop where
  | none {s : Session α} : OneByOne grants h s [] s
  | push {s m t : Session α} {p : Payload α} {ps : List (Payload α)} (events : List (Event α))
      (answer : Option (Outcome α))
      (first : (s.enter (.perform (.push h p))).Returns grants s.frames .done m)
      (others : OneByOne grants h { m with events, answer } ps t) : OneByOne grants h s (p :: ps) t

theorem Lands.idle {turn : Turn (Payload α)} (hlands : s.Lands h turn t)
    (idle : s.idle? h = some c) : t.idle? h = some turn.context := by
  refine idle?_eq_some.2 ?_
  rw [seat?, hlands.handles]
  exact (seat?_setSeat (lt_of_seat (idle?_eq_some.1 idle)) _ h).trans (if_pos rfl)

theorem Lands.trans {turn turn' : Turn (Payload α)} {u : Session α} (hlands : s.Lands h turn t)
    (hlands' : t.Lands h turn' u) : s.Lands h turn' u :=
  ⟨hlands'.store, by rw [hlands'.handles, hlands.handles, List.set_set],
    hlands'.references.trans hlands.references, hlands'.frames.trans hlands.frames⟩

theorem lands_self (idle : s.idle? h = some c) : s.Lands h ⟨s.store, c⟩ s :=
  ⟨rfl, (set_of_getElem? (getElem?_of_seat (idle?_eq_some.1 idle))).symm, rfl, rfl⟩

theorem OneByOne.lands (hone : OneByOne grants h s ps t) (idle : s.idle? h = some c)
    (running : s.store.shutdown = false) :
    ∃ turn, (Turn.mk s.store c).putEach grants ps = some turn ∧ s.Lands h turn t := by
  induction hone generalizing c with
  | none => exact ⟨_, rfl, lands_self idle⟩
  | push _ _ first others ih =>
    obtain ⟨turn, hput, hlands⟩ := first.lands idle running (Op.pushes_one h _)
    have hrunning : turn.store.shutdown = false := (Turn.flags_put hput).2.trans running
    obtain ⟨turn', heach, hlands'⟩ := ih (c := turn.context) (hlands.idle idle)
      ((congrArg Store.shutdown hlands.store).trans hrunning)
    refine ⟨turn', ?_, hlands.trans ⟨hlands'.store, hlands'.handles, hlands'.references,
      hlands'.frames⟩⟩
    rw [Turn.putEach_cons, hput, Option.bind_some]
    rw [hlands.store] at heach
    exact heach

theorem oneByOne_putEach {turn : Turn (Payload α)} (idle : s.idle? h = some c)
    (running : s.store.shutdown = false)
    (heach : (Turn.mk s.store c).putEach grants ps = some turn) :
    ∃ t, OneByOne grants h s ps t ∧ s.Lands h turn t := by
  induction ps generalizing s c with
  | nil =>
    cases heach
    exact ⟨s, .none, lands_self idle⟩
  | cons p ps ih =>
    rw [Turn.putEach_cons] at heach
    obtain ⟨u, hput, heach⟩ := Option.bind_eq_some_iff.1 heach
    obtain ⟨m, hfirst, hlands⟩ := returns_put idle running (Op.pushes_one h p) hput
    have hrunning : u.store.shutdown = false := (Turn.flags_put hput).2.trans running
    have heach' : (Turn.mk m.store u.context).putEach grants ps = some turn := by
      rw [hlands.store]
      exact heach
    obtain ⟨t, hothers, hlands'⟩ := ih (hlands.idle idle)
      ((congrArg Store.shutdown hlands.store).trans hrunning) heach'
    exact ⟨t, .push m.events m.answer hfirst hothers, hlands.trans hlands'⟩

/-- A batch of payloads by an idle handle, beside pushes of the same payloads one by one, both from
this state on and with memory for the same segments. -/
structure LikeOneByOne (grants : Nat → Bool) (h : Nat) (c : Context) (ps : List (Payload α))
    (s : Session α) : Prop where
  /-- If the batch is done, all the pushes are, and they leave the same payloads on the stack. -/
  values : ∀ {t}, (s.enter (.perform (.pushBatch h (ps.map .payload)))).Returns grants s.frames
      .done t → (∃ t', OneByOne grants h s ps t') ∧
    ∀ t', OneByOne grants h s ps t' → t'.store.values = t.store.values
  /-- Where no operation makes the handle advance the epoch, neither goes without the other. -/
  together : s.store.settings.advanceInterval = 0 → s.store.settings.retireThreshold = none →
    ((∃ t, (s.enter (.perform (.pushBatch h (ps.map .payload)))).Returns grants s.frames .done t) ↔
      ∃ t', OneByOne grants h s ps t')
  /-- And they leave the same state, but for the operations that the handle has counted. -/
  same : s.store.settings.advanceInterval = 0 → s.store.settings.retireThreshold = none →
    ∀ {t t'},
      (s.enter (.perform (.pushBatch h (ps.map .payload)))).Returns grants s.frames .done t →
      OneByOne grants h s ps t' → t'.store = t.store ∧ t'.references = t.references ∧
        t'.frames = t.frames ∧
        t.handles = s.handles.set h (some (Seat.idle (c.counts (min 1 ps.length)))) ∧
          t'.handles = s.handles.set h (some (Seat.idle (c.counts ps.length)))

theorem Sound.likeOneByOne {dead : List Link} {live : Load (Payload α)}
    {held : List (Load (Payload α))} (hs : s.Sound dead live held) (idle : s.idle? h = some c)
    (running : s.store.shutdown = false) : s.LikeOneByOne grants h c ps := by
  have htidy := hs.toKept.tidy_turn (idle?_eq_some.1 idle)
  have hpushes := Op.pushes_batch h ps
  refine ⟨fun hdone => ?_, fun interval threshold => ⟨?_, ?_⟩, fun interval threshold => ?_⟩
  · obtain ⟨turn, hput, hlands⟩ := hdone.lands idle running hpushes
    obtain ⟨turn', heach, hvalues⟩ := htidy.putEach_of_put hput
    obtain ⟨t', hone, -⟩ := oneByOne_putEach idle running heach
    refine ⟨⟨t', hone⟩, fun u hone => ?_⟩
    obtain ⟨w, heach', hlands'⟩ := hone.lands idle running
    obtain rfl := Option.some.inj (heach.symm.trans heach')
    rw [hlands.store, hlands'.store, hvalues]
  · rintro ⟨t, hdone⟩
    obtain ⟨turn, hput, -⟩ := hdone.lands idle running hpushes
    have heach := htidy.putEach_eq_put grants ps interval threshold
    rw [hput] at heach
    obtain ⟨t', hone, -⟩ := oneByOne_putEach idle running heach
    exact ⟨t', hone⟩
  · rintro ⟨t', hone⟩
    obtain ⟨turn, heach, -⟩ := hone.lands idle running
    rw [htidy.putEach_eq_put grants ps interval threshold] at heach
    obtain ⟨turn', hput, -⟩ := Option.map_eq_some_iff.1 heach
    obtain ⟨t, hdone, -⟩ := returns_put idle running hpushes hput
    exact ⟨t, hdone⟩
  · intro t t' hdone hone
    obtain ⟨turn, hput, hlands⟩ := hdone.lands idle running hpushes
    obtain ⟨turn', heach, hlands'⟩ := hone.lands idle running
    rw [htidy.putEach_eq_put grants ps interval threshold, hput] at heach
    obtain rfl := Option.some.inj heach
    rw [htidy.put_quiet grants ps interval threshold] at hput
    obtain ⟨store, -, rfl⟩ := Option.map_eq_some_iff.1 hput
    exact ⟨hlands'.store.trans hlands.store.symm, hlands'.references.trans hlands.references.symm,
      hlands'.frames.trans hlands.frames.symm, hlands.handles, hlands'.handles⟩

/-- A batch of payloads that is about to be performed in a state of a run, by an idle handle and
before a shutdown, is like pushes of its payloads one by one. -/
theorem oneByOne_play (p : Plan) (moves : List (Move α)) (grants : Nat → Bool)
    (ps : List (Payload α))
    (here : (ofPlan p).play moves = s.enter (.perform (.pushBatch h (ps.map .payload))))
    (idle : s.idle? h = some c) (running : s.store.shutdown = false) :
    s.LikeOneByOne grants h c ps := by
  obtain ⟨_, _, _, hs⟩ := sound_before p moves here
  exact hs.likeOneByOne idle running

/-- Two payloads are pushed as a batch when one slot is free. -/
def batching : List (Move Nat) :=
  Move.inTurn 4 [.register 0, .push 0 (.plain 1), .pop 0, .advance 0, .advance 0] ++
    [.call (.pushBatch 0 [.payload (.plain 2), .payload (.plain 3)])]

theorem oneByOne_recycled : ∃ s c,
    (ofPlan ⟨⟨1, 0, none⟩, some 2⟩).play batching =
        s.enter (.perform (.pushBatch 0 [.payload (.plain 2), .payload (.plain 3)])) ∧
      s.store.freeList = [.node 0 1] ∧
      s.LikeOneByOne (fun _ => true) 0 c [.plain 2, .plain 3] ∧
      ∃ t t', (s.enter (.perform (.pushBatch 0 [.payload (.plain 2), .payload (.plain 3)]))).Returns
        (fun _ => true) s.frames .done t ∧
      OneByOne (fun _ => true) 0 s [.plain 2, .plain 3] t' := by
  let s : Session Nat := { (ofPlan ⟨⟨1, 0, none⟩, some 2⟩).play batching with frames := [] }
  have here : (ofPlan ⟨⟨1, 0, none⟩, some 2⟩).play batching =
      s.enter (.perform (.pushBatch 0 [.payload (.plain 2), .payload (.plain 3)])) :=
    enter_of_frames rfl
  obtain ⟨c, idle⟩ : ∃ c, s.idle? 0 = some c := Option.isSome_iff_exists.1 (by decide +kernel)
  have running : s.store.shutdown = false := by decide +kernel
  have hroom : ((s.idle? 0).bind fun c => (Turn.mk s.store c).put (fun _ => true)
      [.plain 2, .plain 3]).isSome = true := by decide +kernel
  rw [idle, Option.bind_some] at hroom
  obtain ⟨turn, hput⟩ := Option.isSome_iff_exists.1 hroom
  have hlike := oneByOne_play _ batching (fun _ => true) [.plain 2, .plain 3] here idle running
  obtain ⟨t, hdone, -⟩ := returns_put idle running (Op.pushes_batch 0 [.plain 2, .plain 3]) hput
  obtain ⟨⟨t', hone⟩, -⟩ := hlike.values hdone
  exact ⟨s, c, here, by decide +kernel, hlike, t, t', hdone, hone⟩

end Session

end RecyclingStack
