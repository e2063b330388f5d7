import RecyclingStack.Proofs.Memory.Tags
import RecyclingStack.Proofs.Session.Frozen

/-! Reclaiming, from any state of a run. In all of them every deferred list is in the order of the
tags in its slots, so that a reclaim sets free exactly what is due. -/
namespace RecyclingStack

namespace Session

variable {α : Type} {s t : Session α} {f : Frame α} {below : List (Frame α)} {h k : Nat}
  {c : Context} {dead : List Link} {live : Load (Payload α)} {held : List (Load (Payload α))}

/-- The list of every handle is in order, with each node under the tag in its slot. -/
def Tagged (s : Session α) : Prop :=
  ∀ (k : Nat) (c : Context), s.contexts[k]? = some (some c) → (Turn.mk s.store c).Tagged

/-- The tag of a node that is deferred or orphaned stays as it is, since the node is not handed
out. -/
theorem Sound.tag_move (hs : s.Sound dead live held) (m : Move α) {l : Link}
    (hl : l ∈ s.store.orphanChain ∨ ∃ k E, s.files k E l) :
    (s.move m).store.arena.tag l = s.store.arena.tag l := by
  have hdrift := hs.drift m
  have hparts := hs.partitioned
  have hidle : s.scene.Idle l := hl.symm.imp id .inl
  rcases hdrift.idle l hidle with hout | ⟨-, htag⟩
  · rcases hdrift.handed _ hout with hfresh | hfree
    · exact absurd hfresh (Nat.not_le.2 (hparts.index_lt (Partitioned.mem_places_of_idle hidle)))
    · exact absurd hfree (hparts.not_free hl)
  · exact htag

theorem Tagged.move (htagged : s.Tagged) (hs : s.Sound dead live held) (m : Move α) :
    (s.move m).Tagged := by
  have hothers : ∀ (k : Nat) (c : Context), s.contexts[k]? = some (some c) →
      (Turn.mk (s.move m).store c).Tagged := by
    intro k c hc
    obtain ⟨busy, hseat⟩ := seat_of_contexts hc
    refine ⟨(htagged k c hc).inOrder, fun E l hl => ?_⟩
    exact (hs.tag_move m (.inr ⟨k, E, _, hseat, hl⟩)).trans ((htagged k c hc).tag_eq E l hl)
  rcases s.changes_move m with hrests | ⟨granted, f, below, rfl, frames, hchanges⟩
  · exact fun k c hc => hothers k c (hrests.contexts ▸ hc)
  have hturn : ∀ {h : Nat} {seat : Seat}, s.seat? h = some seat →
      (Turn.mk s.store seat.context).Tagged := fun hseat => htagged _ _ (contexts_of_seat hseat)
  refine hchanges.each hothers ?_ fun turn htakes => ?_
  · exact ⟨RetireList.inOrder_empty, fun E l hl => absurd hl.mem_links List.not_mem_nil⟩
  · cases htakes with
    | pops idle =>
      have hseat := idle?_eq_some.1 idle
      obtain ⟨rfl, -⟩ := hs.of_seat (s := s) hseat
      exact (hturn hseat).pop (hs.toKept.tidy_turn (s := s) hseat)
    | advances idle => exact (hturn (idle?_eq_some.1 idle)).advance
    | reclaims idle => exact (hturn (idle?_eq_some.1 idle)).reclaim
    | setsOps idle => exact (hturn (idle?_eq_some.1 idle)).of_tag_eq rfl fun _ => rfl
    | publishes seated => exact (hturn seated).publish _ _

theorem Sound.tagged_play (hs : s.Sound dead live held) (htagged : s.Tagged)
    (moves : List (Move α)) : (s.play moves).Tagged := by
  induction moves generalizing s dead live held with
  | nil => exact htagged
  | cons m moves ih =>
    obtain ⟨_, _, _, hmoved, -⟩ := hs.move m
    exact ih hmoved (htagged.move hs m)

theorem tagged_ofPlan (p : Plan) (moves : List (Move α)) :
    ((ofPlan p : Session α).play moves).Tagged :=
  (sound_ofPlan p).tagged_play (fun k c hc => by cases hc) moves

/-- A reclaim by a handle with context `c`, which is `c'` afterwards. -/
structure Reclaims (s : Session α) (h : Nat) (c c' : Context) (below : List (Frame α))
    (t : Session α) : Prop where
  /-- The answer is the number of the nodes, deferred by this handle or orphaned, that are due. -/
  answer : t.frames = .finish (.number
    ((c.deferred.links ++ s.store.orphanChain).countP (Turn.mk s.store c).isDue)) :: below
  /-- Exactly these go to the free list one after the other, in the order of their tags, and within
  one tag those of the handle in the order of their bag, then the orphans in that of their chain. -/
  freed : t.store.freeList =
    ((byKey s.store.arena.tag (c.deferred.links ++ s.store.orphanChain)).filter
      (Turn.mk s.store c).isDue).reverse ++ s.store.freeList
  /-- The others become the deferred list, in the same order. -/
  deferred : c'.deferred.links =
    (byKey s.store.arena.tag (c.deferred.links ++ s.store.orphanChain)).filter
      fun l => !(Turn.mk s.store c).isDue l
  /-- Its bags ascend, and each node is in the bag of its tag. -/
  inOrder : c'.deferred.InOrder
  tagged : ∀ E l, c'.deferred.Files E l → s.store.arena.tag l = E
  snapshot : c'.snapshot = s.store.epoch
  ops : c'.ops = c.ops
  orphans : t.store.orphans = .nil
  /-- Nothing else changes: what is on the stack, the epoch, generations and tags, the other
  handles; and no value is dropped. -/
  stack : t.store.head = s.store.head ∧ t.store.chain = s.store.chain ∧
    t.store.values = s.store.values
  epoch : t.store.epoch = s.store.epoch
  extent : t.store.arena.fresh = s.store.arena.fresh ∧
    t.store.arena.capacity = s.store.arena.capacity
  generations : ∀ i, t.store.arena.generationAt i = s.store.arena.generationAt i
  tags : ∀ l, t.store.arena.tag l = s.store.arena.tag l
  handles : t.handles = s.handles.set h (some (Seat.idle c'))
  references : t.references = s.references
  shed : t.shed = s.shed
  /-- Another reclaim by the same handle right after answers that there was nothing to do, and
  does nothing. -/
  again : ∀ {u : Session α} {lower : List (Frame α)} (granted : Bool), u.store = t.store →
    u.handles = t.handles → u.frames = .perform (.reclaim h) :: lower →
      u.stepWith granted = { u with frames := .finish (.number 0) :: lower }

theorem stepWith_reclaim (granted : Bool) (frames : s.frames = .perform (.reclaim h) :: below)
    (idle : s.idle? h = some c) : s.stepWith granted =
      (({ s with frames := below } : Session α).settle h (Turn.mk s.store c).reclaim).conclude
        (.number (Turn.mk s.store c).reclaim.answer) := by
  rw [stepWith_cons granted frames, resume, perform]
  exact withHandle_idle (s := { s with frames := below }) idle _

/-- A turn that changes nothing and has nothing to say leaves the session as it is. -/
theorem settle_self {β : Type} (idle : s.idle? h = some c) (answer : β) :
    s.settle h ⟨Turn.mk s.store c, answer, []⟩ = s := by
  have hget := getElem?_of_seat (idle?_eq_some.1 idle)
  rw [settle, setSeat]
  simp only [Seat.idle, set_of_getElem? hget]
  rfl

theorem Sound.reclaims (hs : s.Sound dead live held) (htagged : s.Tagged) (granted : Bool)
    (frames : s.frames = .perform (.reclaim h) :: below) (idle : s.idle? h = some c) :
    s.Reclaims h c (Turn.mk s.store c).reclaim.state.context below (s.stepWith granted) := by
  have hseat := idle?_eq_some.1 idle
  have hturn : (Turn.mk s.store c).Tagged := htagged h c (contexts_of_seat hseat)
  have htidy := hs.toKept.tidy_turn hseat
  have hreclaimed := Turn.reclaim_tidy htidy
  have hlinks := Arena.Relinks.deallocateAll s.store.pool
    ((Turn.mk s.store c).adopt.state.context.deferred.released s.store.epoch
      s.store.settings.gracePeriod)
  have hextent := Arena.inert_extent.reclaim (Turn.mk s.store c)
  rw [stepWith_reclaim granted frames idle]
  refine ⟨?_, ?_, hturn.links_reclaim, hturn.reclaim.inOrder, ?_, rfl, ?_, rfl, ⟨?_, ?_, ?_⟩, rfl,
    ⟨congrArg Prod.fst hextent, congrArg Prod.snd hextent⟩, hlinks.generationAt_eq, hlinks.tag_eq,
    rfl, rfl, ?_, ?_⟩
  · rw [← hturn.answer_reclaim]
    rfl
  · exact hturn.freeList_reclaim htidy
  · exact fun E l hl => (hlinks.tag_eq l).symm.trans (hturn.reclaim.tag_eq E l hl)
  · exact (Turn.mk s.store c).ops_reclaim
  · exact hreclaimed.head_eq.trans htidy.head_eq.symm
  · exact hreclaimed.chain_eq.trans htidy.chain_eq.symm
  · exact hreclaimed.values_eq.trans htidy.values_eq.symm
  · exact shed_settle _ _ _
  · intro u lower granted hstore hhandles hframes
    have hlt : h < s.handles.length := lt_of_seat hseat
    have hidle : u.idle? h = some (Turn.mk s.store c).reclaim.state.context := by
      refine idle?_eq_some.2 ?_
      rw [seat?, hhandles]
      refine (seat?_setSeat (s := s) hlt (some (Seat.idle _)) h).trans ?_
      rw [if_pos rfl]
      rfl
    have hturned : Turn.mk u.store (Turn.mk s.store c).reclaim.state.context =
        (Turn.mk s.store c).reclaim.state := by rw [hstore]; rfl
    have hnone := hturn.reclaim.reclaim_eq_self rfl rfl hturn.none_due
    rw [stepWith_reclaim granted hframes hidle, hturned, hnone, ← hturned,
      settle_self (s := { u with frames := lower }) hidle]
    rfl

/-- In any state of any run, a reclaim by an idle handle does exactly its job. -/
theorem reclaim_play (p : Plan) (moves : List (Move α)) (granted : Bool)
    (frames : ((ofPlan p : Session α).play moves).frames = .perform (.reclaim h) :: below)
    (idle : ((ofPlan p : Session α).play moves).idle? h = some c) :
    ∃ c', ((ofPlan p : Session α).play moves).Reclaims h c c' below
      (((ofPlan p : Session α).play moves).stepWith granted) := by
  obtain ⟨_, _, _, hs, -⟩ := (sound_ofPlan (α := α) p).play moves
  exact ⟨_, hs.reclaims (tagged_ofPlan p moves) granted frames idle⟩

/-- One node is orphaned at epoch 0 and one deferred at epoch 1 when a handle reclaims at
epoch 2. -/
def reclaiming : List (Move Nat) :=
  Move.inTurn 4 [.register 0, .register 0, .push 0 (.plain 1), .push 0 (.plain 2),
      .push 0 (.plain 3), .pop 1, .advance 0, .pop 0, .dropHandle 1, .setEpoch 0 2] ++
    [.call (.reclaim 0)]

theorem reclaim_orphan : ∃ c c', ((ofPlan .default).play reclaiming).Reclaims 0 c c' []
      (((ofPlan .default).play reclaiming).stepWith true) ∧
    c.deferred.links = [.node 1 1] ∧ c'.deferred.links = [.node 1 1] ∧
      (((ofPlan .default).play reclaiming).stepWith true).store.freeList = [.node 2 1] := by
  obtain ⟨c, hidle⟩ : ∃ c, ((ofPlan .default).play reclaiming).idle? 0 = some c :=
    Option.isSome_iff_exists.1 (by decide +kernel)
  have hlinks : (((ofPlan .default).play reclaiming).idle? 0).map (fun c => c.deferred.links) =
      some [.node 1 1] := by decide +kernel
  have hlinks' : ((((ofPlan .default).play reclaiming).stepWith true).idle? 0).map
      (fun c => c.deferred.links) = some [.node 1 1] := by decide +kernel
  obtain ⟨c', hreclaims⟩ := reclaim_play .default reclaiming true rfl hidle
  have hidle' : (((ofPlan .default).play reclaiming).stepWith true).idle? 0 = some c' := by
    refine idle?_eq_some.2 ?_
    rw [seat?, hreclaims.handles, List.getElem?_set_self (lt_of_seat (idle?_eq_some.1 hidle))]
    rfl
  rw [hidle] at hlinks
  rw [hidle'] at hlinks'
  exact ⟨c, c', hreclaims, Option.some.inj hlinks, Option.some.inj hlinks', by decide +kernel⟩

end Session

end RecyclingStack
