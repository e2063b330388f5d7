import RecyclingStack.Proofs.Session.Timely

/-! The tags of retirement and the epochs that handles have seen. A pop writes the tag of a node, to
its slot and to a bag of its handle, and a new incarnation clears it. Between the two the node goes
from list to list, over handles that come and go, and none of them files it under anything else. -/
namespace RecyclingStack

def Arena.Marks {β : Type} (a : Arena β) (l : Link) (E : Nat) : Prop :=
  ∃ slot, a.slot? l.index = some slot ∧ l = .node l.index slot.generation ∧ slot.retiredEpoch = E

theorem Turn.snapshot_complete {β : Type} (t : Turn β) :
    t.complete.state.context.snapshot = t.complete.state.store.epoch ∨
      t.complete.state.context.snapshot = t.context.snapshot ∧
        t.complete.state.context.deferred = t.context.deferred := by
  simp only [complete]
  split
  · exact .inl rfl
  · exact .inr ⟨rfl, rfl⟩

theorem Turn.snapshot_pop {β : Type} (t : Turn β) :
    t.pop.state.context.snapshot = t.pop.state.store.epoch ∨
      t.pop.state.context.snapshot = t.context.snapshot ∧
        t.pop.state.context.deferred = t.context.deferred := by
  rcases t.pop_cases with hpop | ⟨v, hpop⟩ <;> rw [hpop]
  · exact .inr ⟨rfl, rfl⟩
  · refine .inl ?_
    simp only [complete]
    split <;> rfl

namespace Session

variable {α : Type} {s t : Session α} {f : Frame α} {granted : Bool} {k E : Nat} {c d : Context}
  {l : Link} {dead : List Link} {live u : Load (Payload α)} {held : List (Load (Payload α))}

theorem Partitioned.marks (hs : s.Partitioned) (hl : l ∈ s.places) :
    s.store.arena.Marks l (s.store.arena.tag l) := by
  obtain ⟨slot, hslot, hlink⟩ := hs.current l hl
  refine ⟨slot, hslot, hlink, ?_⟩
  rw [hlink, Arena.tag, Arena.read_node, hslot]
  rfl

/-- A step changes no tag but that of a node handed out, which is cleared, or popped. -/
theorem Changes.tag_eq (hs : (s.enter f).Sound dead live (u :: held)) (hc : s.Changes granted f t)
    (l : Link) : t.store.arena.tag l = s.store.arena.tag l ∨ t.store.arena.tag l = 0 ∨
      l.index = s.store.head.index ∧ ∃ payload, .popped payload ∈ s.notesOf f := by
  cases hc with
  | rests rests => exact .inl (by rw [rests.store])
  | registers _ store => exact .inl (by rw [store])
  | setsEpoch _ store | shuts _ store =>
    rw [store]
    exact .inl rfl
  | setsOps _ turns => exact .inl (by rw [turns.store])
  | leaves idle store => exact .inl (by rw [store, Turn.tag_abandon])
  | advances _ turns => exact .inl (by rw [turns.store]; exact Turn.tag_reclaim _ l)
  | reclaims _ turns => exact .inl (by rw [turns.store, Turn.tag_reclaim])
  | publishes _ _ turns =>
    rw [turns.store]
    exact .inl ((Turn.tag_complete _ l).trans ((Arena.Relinks.setNext s.store.arena _ _).tag_eq l))
  | empties _ take store =>
    rw [store, (Store.takeValue_eq_some take).2]
    exact .inl ((Arena.Relinks.clearValue s.store.arena _).tag_eq l)
  | frees store =>
    rw [store]
    exact .inl ((Arena.Relinks.setNext s.store.arena _ _).tag_eq l)
  | @allocates _ _ _ new _ _ _ ok store =>
    obtain ⟨L, -, hlaid⟩ := hs.tidy
    rw [store]
    by_cases hnew : new.index = l.index
    · exact .inr (.inl (hlaid.tag_allocate ok _ hnew))
    · exact .inl (congrArg Slot.retiredEpoch (hlaid.read_allocate ok _ hnew))
  | @pops _ h c _ frame idle turns =>
    rw [turns.store]
    rcases (Turn.mk s.store c).pop_cases with hpop | ⟨payload, hpop⟩
    · exact .inl (by rw [hpop])
    · have hpoppable : s.poppable h = some payload := by
        rw [poppable, idle, Option.bind_some, hpop]
      rw [hpop]
      dsimp only
      rw [Turn.tag_complete]
      by_cases hhead : s.store.head.index = l.index
      · refine .inr (.inr ⟨hhead.symm, payload, ?_⟩)
        rcases frame with rfl | ⟨limit, got, hlimit, rfl⟩
        · rw [notesOf, hpoppable]
          exact List.mem_singleton_self _
        · rw [notesOf, if_neg hlimit, hpoppable]
          exact List.mem_singleton_self _
      · exact .inl (Turn.tag_retired _ hhead)

theorem Sound.tag_cases (hs : s.Sound dead live held) (m : Move α) (l : Link) :
    (s.move m).store.arena.tag l = s.store.arena.tag l ∨ (s.move m).store.arena.tag l = 0 ∨
      l.index = s.store.head.index ∧ ∃ payload, .popped payload ∈ s.moveNotes m := by
  rcases s.changes_move m with hrests | ⟨granted, f, below, rfl, frames, hchanges⟩
  · exact .inl (by rw [hrests.store])
  · obtain ⟨u, rest, rfl, htop⟩ := hs.of_frames frames
    rw [moveNotes, notes, frames]
    exact hchanges.tag_eq htop l

/-- A slot handed out has no tag. -/
theorem Sound.tag_handOut (hs : s.Sound dead live held) (m : Move α)
    (hout : l.index ∈ s.handOut m) : (s.move m).store.arena.tag l = 0 := by
  cases m with
  | call op => cases hout
  | go granted =>
    cases frames : s.frames with
    | nil =>
      rw [handOut, frames] at hout
      cases hout
    | cons f below =>
      simp only [handOut, frames] at hout
      unfold handOutOf at hout
      split at hout
      · obtain ⟨L, -, hlaid⟩ := hs.tidy
        split at hout
        · rename_i new hanswer
          rw [Session.move, stepWith_cons granted frames]
          simp only [resume, hanswer]
          exact hlaid.tag_allocate hanswer _ (List.mem_singleton.1 hout).symm
        · cases hout
      · cases hout

/-- Only a node that awaits its next incarnation has a tag. -/
def Cleared (s : Session α) : Prop :=
  ∀ l, s.store.arena.tag l ≠ 0 → ∃ m, m.index = l.index ∧ s.scene.Idle m

theorem cleared_ofPlan (p : Plan) : (ofPlan p : Session α).Cleared :=
  fun l htag => absurd (Arena.tag_empty p.capacityLimit l) htag

theorem Cleared.move (hcleared : s.Cleared) (hs : s.Sound dead live held) (m : Move α) :
    (s.move m).Cleared := by
  intro l htag
  rcases hs.tag_cases m l with hsame | hzero | ⟨hhead, payload, hpopped⟩
  · obtain ⟨n, hindex, hidle⟩ := hcleared l (hsame ▸ htag)
    -- a node that is idle no more was handed out, and its tag is cleared then
    rcases (hs.drift m).idle n hidle with hout | ⟨hidle, -⟩
    · exact absurd (hs.tag_handOut m (hindex ▸ hout)) htag
    · exact ⟨n, hindex, hidle⟩
  · exact absurd hzero htag
  · cases m with
    | call op => cases hpopped
    | go granted => exact ⟨s.store.head, hhead.symm, (hs.popped_move hpopped).1.idle⟩

theorem Cleared.play (hcleared : s.Cleared) (hs : s.Sound dead live held)
    (moves : List (Move α)) : (s.play moves).Cleared := by
  induction moves generalizing s dead live held with
  | nil => exact hcleared
  | cons m moves ih =>
    obtain ⟨_, _, _, hmoved, -⟩ := hs.move m
    exact ih (hcleared.move hs m) hmoved

/-- What is on the stack has no tag. -/
theorem Cleared.tag_chain (hcleared : s.Cleared) (hs : s.Partitioned) (hl : l ∈ s.store.chain) :
    s.store.arena.tag l = 0 := by
  by_contra htag
  obtain ⟨m, hindex, hidle⟩ := hcleared l htag
  have hlink : m = l := by
    rw [hs.link_eq (Partitioned.mem_places_of_idle hidle), hindex]
    exact (hs.link_eq (Partitioned.mem_places_of_chain hl)).symm
  exact hs.not_idle hl (hlink ▸ hidle)

/-- The snapshot and the list of a handle are those of an earlier state. -/
def Unread (s : Session α) (k : Nat) (d : Context) : Prop :=
  ∃ c, s.contexts[k]? = some (some c) ∧ c.snapshot = d.snapshot ∧ c.deferred = d.deferred

/-- A handle that is there after a step has just read the epoch, or it was there before, with the
same snapshot and the same list. -/
theorem Changes.snapshot (hc : s.Changes granted f t) (hd : t.contexts[k]? = some (some d)) :
    d.snapshot = t.store.epoch ∨ s.Unread k d := by
  have hstays : s.contexts[k]? = some (some d) → d.snapshot = t.store.epoch ∨ s.Unread k d :=
    fun hk => .inr ⟨d, hk, rfl, rfl⟩
  have hturns : ∀ {h : Nat} {seat : Seat} {turn : Turn (Payload α)}, s.seat? h = some seat →
      s.Turns t h turn → (turn.context.snapshot = turn.store.epoch ∨
        turn.context.snapshot = seat.context.snapshot ∧
          turn.context.deferred = seat.context.deferred) →
      d.snapshot = t.store.epoch ∨ s.Unread k d := by
    intro h seat turn hseat hturns hturn
    rcases hturns.context_cases hd with ⟨rfl, rfl⟩ | hk
    · rw [hturns.store]
      refine hturn.imp_right fun ⟨hsnapshot, hdeferred⟩ => ?_
      exact ⟨seat.context, contexts_of_seat hseat, hsnapshot.symm, hdeferred.symm⟩
    · exact hstays hk
  cases hc with
  | rests rests => exact hstays (rests.contexts ▸ hd)
  | setsEpoch _ _ contexts | shuts _ _ contexts | allocates _ _ contexts | empties _ _ _ contexts
  | frees _ contexts => exact hstays (contexts ▸ hd)
  | registers _ store contexts =>
    rcases context_cases_append contexts hd with rfl | hk
    · exact .inl (congrArg Store.epoch store).symm
    · exact hstays hk
  | leaves _ _ contexts => exact hstays (context_of_unset contexts hd)
  | pops _ idle turns => exact hturns (idle?_eq_some.1 idle) turns (Turn.snapshot_pop _)
  | advances idle turns | reclaims idle turns =>
    exact hturns (idle?_eq_some.1 idle) turns (.inl rfl)
  | setsOps idle turns => exact hturns (idle?_eq_some.1 idle) turns (.inr ⟨rfl, rfl⟩)
  | publishes _ seated turns => exact hturns seated turns (Turn.snapshot_complete _)

theorem snapshot_move (m : Move α) (hd : (s.move m).contexts[k]? = some (some d)) :
    d.snapshot = (s.move m).store.epoch ∨ s.Unread k d := by
  rcases s.changes_move m with hrests | ⟨granted, f, below, rfl, frames, hchanges⟩
  · exact .inr ⟨d, hrests.contexts ▸ hd, rfl, rfl⟩
  · exact hchanges.snapshot hd

/-- As long as the epoch does not go back, what a handle has seen in the end was read on the way, or
is what it had seen before. -/
theorem Climbs.snapshot_play {moves : List (Move α)} (hclimbs : s.Climbs moves)
    (hd : (s.play moves).contexts[k]? = some (some d)) : s.store.epoch ≤ d.snapshot ∨
      ∃ c, s.contexts[k]? = some (some c) ∧ c.snapshot = d.snapshot := by
  induction moves generalizing s with
  | nil => exact .inr ⟨d, hd, rfl⟩
  | cons m moves ih =>
    obtain ⟨hepoch, hlater⟩ := hclimbs
    rcases ih hlater hd with hread | ⟨c, hc, hcd⟩
    · exact .inl (hepoch.trans hread)
    · rcases snapshot_move m hc with hread | ⟨b, hb, hbc, -⟩
      · exact .inl (hepoch.trans (Nat.le_of_eq (hread.symm.trans hcd)))
      · exact .inr ⟨b, hb, hbc.trans hcd⟩

/-- No handle has seen more than the epoch of the session, or defers a node under an epoch that it
has not seen. -/
def Seen (s : Session α) : Prop :=
  ∀ (k : Nat) (c : Context), s.contexts[k]? = some (some c) →
    c.snapshot ≤ s.store.epoch ∧ ∀ E ∈ c.deferred.epochs, E ≤ c.snapshot

theorem Seen.move (hseen : s.Seen) (m : Move α) (hepoch : s.store.epoch ≤ (s.move m).store.epoch)
    (htimely : (s.move m).Timely) : (s.move m).Seen := by
  intro k d hd
  rcases snapshot_move m hd with hread | ⟨c, hc, hsnapshot, hdeferred⟩
  · exact ⟨Nat.le_of_eq hread, fun E hE => hread ▸ htimely E (.inr ⟨k, d, hd, hE⟩)⟩
  · obtain ⟨hle, hkeys⟩ := hseen k c hc
    rw [← hsnapshot, ← hdeferred]
    exact ⟨hle.trans hepoch, hkeys⟩

theorem Sound.seen_play (hs : s.Sound dead live held) (htagged : s.Tagged) (htimely : s.Timely)
    (hseen : s.Seen) {moves : List (Move α)} (hclimbs : s.Climbs moves) : (s.play moves).Seen := by
  induction moves generalizing s dead live held with
  | nil => exact hseen
  | cons m moves ih =>
    obtain ⟨_, _, _, hmoved, -⟩ := hs.move m
    have htimely := htimely.move hs htagged m hclimbs.1
    exact ih hmoved (htagged.move hs m) htimely (hseen.move m hclimbs.1 htimely) hclimbs.2

theorem Retired.play (hretired : s.Retired l E) (hs : s.Sound dead live held)
    {moves : List (Move α)} (hout : l.index ∉ s.handedOut moves) :
    (s.play moves).Retired l E := by
  induction moves generalizing s dead live held with
  | nil => exact hretired
  | cons m moves ih =>
    obtain ⟨hfirst, hrest⟩ := not_or.1 (fun hmem => hout (List.mem_append.2 hmem))
    obtain ⟨_, _, _, hmoved, -⟩ := hs.move m
    obtain ⟨hidle, htag⟩ := ((hs.drift m).idle l hretired.idle).resolve_left hfirst
    exact ih ⟨hidle, htag.trans hretired.tag⟩ hmoved hrest

/-- The session knows by one epoch only when the node was retired. -/
structure Recalls (s : Session α) (l : Link) (E : Nat) : Prop where
  /-- It is deferred under this epoch, or on the orphan chain, or free. -/
  place : (∃ k, s.files k E l) ∨ l ∈ s.store.orphanChain ∨ l ∈ s.store.freeList
  marks : s.store.arena.Marks l E
  filed : ∀ k e, s.files k e l → e = E
  /-- Whoever takes the orphans over files it under this epoch. -/
  adopted : l ∈ s.store.orphanChain → ∀ c : Context,
    (Turn.mk s.store c).adopt.state.context.deferred.Files E l

theorem Retired.recalls (hretired : s.Retired l E) (hs : s.Partitioned) (htagged : s.Tagged) :
    s.Recalls l E := by
  have hfiled : ∀ k e, s.files k e l → e = E := by
    rintro k e ⟨seat, hseat, hl⟩
    exact ((htagged k _ (contexts_of_seat hseat)).tag_eq e l hl).symm.trans hretired.tag
  refine ⟨hretired.idle.imp_left ?_, ?_, hfiled, fun horphan c => ?_⟩
  · rintro ⟨k, e, hl⟩
    exact ⟨k, hfiled k e hl ▸ hl⟩
  · exact hretired.tag ▸ hs.marks (Partitioned.mem_places_of_idle hretired.idle)
  · exact (Turn.files_defer_all _ _ _).2 (.inl ⟨horphan, hretired.tag.symm⟩)

/-- The tags in the slots, the epochs of the bags and those that handles have seen agree. -/
structure Coherent (s : Session α) : Prop where
  /-- Each node in a bag has the epoch of the bag in its slot. -/
  filed : ∀ (k : Nat) (c : Context), s.contexts[k]? = some (some c) →
    ∀ bag ∈ c.deferred.bags, ∀ l ∈ bag.links, s.store.arena.Marks l bag.epoch
  /-- No bag is of a later epoch than its handle has seen, and none has seen a later one than that
  of the session. -/
  keys : ∀ (k : Nat) (c : Context), s.contexts[k]? = some (some c) →
    ∀ bag ∈ c.deferred.bags, bag.epoch ≤ c.snapshot
  snapshot : ∀ (k : Nat) (c : Context), s.contexts[k]? = some (some c) →
    c.snapshot ≤ s.store.epoch
  orphans : ∀ l ∈ s.store.orphanChain, ∃ E ≤ s.store.epoch, s.store.arena.Marks l E
  stack : ∀ l ∈ s.store.chain, s.store.arena.Marks l 0

theorem Partitioned.coherent (hs : s.Partitioned) (htagged : s.Tagged) (hcleared : s.Cleared)
    (htimely : s.Timely) (hseen : s.Seen) : s.Coherent where
  filed := by
    intro k c hc bag hbag l hl
    obtain ⟨busy, hseat⟩ := seat_of_contexts hc
    have hfiles : c.deferred.Files bag.epoch l := ⟨bag, hbag, rfl, hl⟩
    have hplace := Partitioned.mem_places_of_idle (.inl ⟨k, bag.epoch, _, hseat, hfiles⟩)
    exact (htagged k c hc).tag_eq _ l hfiles ▸ hs.marks hplace
  keys := by
    intro k c hc bag hbag
    obtain ⟨l, hl⟩ := List.exists_mem_of_ne_nil _ ((htagged k c hc).inOrder.nonempty bag hbag)
    have hfiles : c.deferred.Files bag.epoch l := ⟨bag, hbag, rfl, hl⟩
    exact (hseen k c hc).2 _ (List.mem_map_of_mem (RetireList.mem_entries.2 hfiles))
  snapshot := fun k c hc => (hseen k c hc).1
  orphans := fun l hl => ⟨s.store.arena.tag l, htimely _ (.inl (List.mem_map_of_mem hl)),
    hs.marks (Partitioned.mem_places_of_idle (.inr (.inl hl)))⟩
  stack := fun l hl => hcleared.tag_chain hs hl ▸ hs.marks (Partitioned.mem_places_of_chain hl)

/-- Where the epoch is advanced only, and not past its last value, it does not go back
(`Advancing.climbs`). Then the tags in the slots, the epochs of the bags and those that handles have
seen agree in every state, and no handle comes to have seen less. A node that is popped is known by
the epoch of its pop until its slot is handed out, whichever handles have it in turn. -/
theorem coherent_play (p : Plan) (before after : List (Move α)) {s t : Session α}
    (hs : s = (ofPlan p).play before) (ht : t = s.play after)
    (hclimbs : (ofPlan p).Climbs (before ++ after)) :
    t.Coherent ∧
    (∀ (k : Nat) (c d : Context), s.contexts[k]? = some (some c) → t.contexts[k]? = some (some d) →
      c.snapshot ≤ d.snapshot) ∧
    ∀ (granted : Bool) (payload : Payload α) (moves : List (Move α)),
      after = .go granted :: moves → .popped payload ∈ s.moveNotes (.go granted) →
      s.store.head.index ∉ (s.move (.go granted)).handedOut moves →
        t.Recalls s.store.head s.store.epoch := by
  obtain ⟨hearly, hlate⟩ := hclimbs.of_append
  obtain ⟨_, _, _, hsound, -⟩ := (sound_ofPlan (α := α) p).play before
  have htagged := tagged_ofPlan (α := α) p before
  have hcleared := (cleared_ofPlan (α := α) p).play (sound_ofPlan p) before
  have htimely := (sound_ofPlan p).timely_play (tagged_ofPlan p []) (timely_ofPlan p) hearly
  have hseen := (sound_ofPlan p).seen_play (tagged_ofPlan p []) (timely_ofPlan p)
    (fun k c hc => by cases hc) hearly
  rw [← hs] at hsound htagged hcleared htimely hseen hlate
  subst ht
  obtain ⟨_, _, _, hplayed, -⟩ := hsound.play after
  have htagged' := hsound.tagged_play htagged after
  refine ⟨hplayed.partitioned.coherent htagged' (hcleared.play hsound after)
      (hsound.timely_play htagged htimely hlate) (hsound.seen_play htagged htimely hseen hlate),
    fun k c d hc hd => ?_, fun granted payload moves hafter hpopped hout => ?_⟩
  · rcases hlate.snapshot_play hd with hread | ⟨b, hb, hsnapshot⟩
    · exact (hseen k c hc).1.trans hread
    · cases hc.symm.trans hb
      exact Nat.le_of_eq hsnapshot
  · subst hafter
    obtain ⟨_, _, _, hmoved, -⟩ := hsound.move (.go granted)
    have hretired := (hsound.popped_move hpopped).1.play hmoved hout
    exact hretired.recalls hplayed.partitioned htagged'

/-- Of two handles one has advanced the epoch, and is about to pop. -/
def retiring : List (Move Nat) :=
  Move.inTurn 4 [.register 0, .register 0, .push 0 (.plain 1), .push 0 (.plain 2), .advance 0] ++
    [.call (.pop 0)]

def bequeathing : List (Move Nat) := .go true :: .go true :: Move.inTurn 4 [.dropHandle 0]

def beforeBequest : Session Nat := (ofPlan .default).play retiring

def bequest : Session Nat := beforeBequest.play bequeathing

theorem coherent_bequest : bequest.Coherent ∧ bequest.store.orphanChain = [.node 1 1] ∧
    ∃ c d, beforeBequest.contexts[1]? = some (some c) ∧ bequest.contexts[1]? = some (some d) ∧
      c.snapshot ≤ d.snapshot ∧
      (Turn.mk bequest.store d).adopt.state.context.deferred.Files 1 (.node 1 1) := by
  have hpop : .popped (.plain 2) ∈ beforeBequest.moveNotes (.go true) := List.mem_singleton_self _
  have hhead : beforeBequest.store.head = .node 1 1 := by decide +kernel
  have hepoch : beforeBequest.store.epoch = 1 := by decide +kernel
  have horphan : bequest.store.orphanChain = [.node 1 1] := by decide +kernel
  obtain ⟨c, hc⟩ : ∃ c, beforeBequest.seat? 1 = some c :=
    Option.isSome_iff_exists.1 (by decide +kernel)
  obtain ⟨d, hd⟩ : ∃ d, bequest.seat? 1 = some d :=
    Option.isSome_iff_exists.1 (by decide +kernel)
  obtain ⟨hcoherent, hsnapshot, hretired⟩ := coherent_play .default retiring bequeathing
    (s := beforeBequest) (t := bequest) rfl rfl (Advancing.climbs (by decide +kernel))
  have hrecalls := hretired true (.plain 2) _ rfl hpop (by decide +kernel)
  rw [hhead, hepoch] at hrecalls
  exact ⟨hcoherent, horphan, c.context, d.context, contexts_of_seat hc, contexts_of_seat hd,
    hsnapshot 1 _ _ (contexts_of_seat hc) (contexts_of_seat hd),
    hrecalls.adopted (horphan ▸ List.mem_singleton_self _) _⟩

end Session

end RecyclingStack
