import RecyclingStack.Proofs.Memory.Epochs
import RecyclingStack.Proofs.Session.Grace
import RecyclingStack.Proofs.Session.Reclaiming

/-! Handles that go, and the orphan chain they leave. In every state of a run the chain is in the
order of the tags in its slots, and what a handle leaves on it waits there under its tag for the
next one that reclaims. -/
namespace RecyclingStack

namespace Session

variable {α : Type} {s t : Session α} {f : Frame α} {below : List (Frame α)} {granted : Bool}
  {h : Nat} {c : Context} {l : Link} {dead : List Link} {live u : Load (Payload α)}
  {held : List (Load (Payload α))}

/-- A batch that puts its chain on the stack holds one, of which it knows the ends. -/
theorem Sound.chain_held {i g : Nat} {last : Link} {rest : List (Item α)}
    (hs : (s.enter (.batch h (.node i g) last rest)).Sound dead live (u :: held)) :
    u.strand ≠ [] ∧ .node i g = u.strand.first ∧ last = u.strand.last := by
  have howns : .node i g = u.strand.first ∧ last = u.strand.last :=
    (List.forall₂_cons.1 hs.owned).1
  refine ⟨fun hnil => ?_, howns⟩
  rw [hnil] at howns
  cases howns.1

theorem Changes.orphanTags (hs : (s.enter f).Sound dead live (u :: held))
    (hc : s.Changes granted f t) :
    t.store.orphanTags = s.store.orphanTags ∨ t.store.orphanTags = [] ∨
      ∃ h c, s.idle? h = some c ∧ t.store = (Turn.mk s.store c).abandon.state := by
  cases hc with
  | rests rests => exact .inl (congrArg Store.orphanTags rests.store)
  | registers _ store => exact .inl (congrArg Store.orphanTags store)
  | setsOps _ turns => exact .inl (congrArg Store.orphanTags turns.store)
  | setsEpoch _ store | shuts _ store => exact .inl ((congrArg Store.orphanTags store).trans rfl)
  | leaves idle store => exact .inr (.inr ⟨_, _, idle, store⟩)
  | pops _ idle turns =>
    have hseat := idle?_eq_some.1 idle
    obtain ⟨rfl, -⟩ := hs.of_seat (s := s.enter f) hseat
    have htidy : (Turn.mk s.store _).Tidy live.strand _ :=
      hs.toKept.tidy_turn (s := s.enter f) hseat
    rw [turns.store]
    exact (Turn.orphanTags_pop htidy).imp_right .inl
  | advances _ turns | reclaims _ turns =>
    rw [turns.store]
    exact .inr (.inl (Store.orphanTags_of_nil rfl))
  | @publishes h i g last seat _ _ seated turns =>
    obtain ⟨hu, hfirst, hlast⟩ := hs.chain_held
    have htidy : (Turn.mk s.store seat.context).Tidy (Strand.idle dead ++ live.strand) (u.strand ::
        (held.map Load.strand ++ Strand.loose (s.setSeat h none).vacant)) :=
      hs.toKept.tidy_turn (s := s.enter _) seated
    rw [turns.store, ← Turn.orphanTags_publish hu htidy, hfirst, hlast]
    exact (Turn.orphanTags_complete _).imp_right .inl
  | allocates ok store =>
    obtain ⟨L, -, hlaid⟩ := hs.tidy
    rw [store]
    exact .inl (hlaid.orphanTags_allocate ok _)
  | empties _ take store =>
    rw [store, (Store.takeValue_eq_some take).2]
    exact .inl (Store.orphanTags_still (.clearValue s.store.arena _) rfl)
  | @frees h node next last o _ store =>
    have htidy : s.store.Tidy (Strand.idle dead ++ live.strand) (u.strand ::
        (held.map Load.strand ++ Strand.loose ([node] ++ s.vacant))) := hs.tidy
    obtain ⟨L, -, hlaid⟩ := htidy
    replace hlaid : s.store.Laid (L.withStrands ([Cell.spent node] ::
        ((u.strand :: held.map Load.strand) ++ Strand.loose s.vacant))) :=
      hlaid.reorder ((List.Perm.cons _ List.perm_middle).trans (.swap _ _ _))
    rw [store]
    exact .inl hlaid.orphanTags_deallocate

theorem Sound.orphanTags_move (hs : s.Sound dead live held) (m : Move α) :
    (s.move m).store.orphanTags = s.store.orphanTags ∨ (s.move m).store.orphanTags = [] ∨
      ∃ h c, s.idle? h = some c ∧ (s.move m).store = (Turn.mk s.store c).abandon.state := by
  rcases s.changes_move m with hrests | ⟨granted, f, below, rfl, frames, hchanges⟩
  · exact .inl (by rw [hrests.store])
  · obtain ⟨u, rest, rfl, htop⟩ := hs.of_frames frames
    exact Changes.orphanTags (s := { s with frames := below }) htop hchanges

theorem Sound.sorted_move (hs : s.Sound dead live held) (htagged : s.Tagged) (m : Move α)
    (hsorted : s.store.orphanTags.Pairwise (· ≤ ·)) :
    (s.move m).store.orphanTags.Pairwise (· ≤ ·) := by
  rcases hs.orphanTags_move m with hsame | hnone | ⟨h, c, hidle, hleft⟩
  · exact hsame ▸ hsorted
  · exact hnone ▸ .nil
  · have hseat := idle?_eq_some.1 hidle
    have hturn : (Turn.mk s.store c).Tagged := htagged h c (contexts_of_seat hseat)
    rw [hleft, hturn.orphanTags_abandon (hs.toKept.tidy_turn hseat)]
    exact hturn.reclaim.inOrder.sorted_epochs

theorem Sound.sorted_play (hs : s.Sound dead live held) (htagged : s.Tagged)
    (hsorted : s.store.orphanTags.Pairwise (· ≤ ·)) (moves : List (Move α)) :
    (s.play moves).store.orphanTags.Pairwise (· ≤ ·) := by
  induction moves generalizing s dead live held with
  | nil => exact hsorted
  | cons m moves ih =>
    obtain ⟨_, _, _, hmoved, -⟩ := hs.move m
    exact ih hmoved (htagged.move hs m) (hs.sorted_move htagged m hsorted)

/-- The node is on the orphan chain at every moment of the moves. -/
def Lingers (s : Session α) (l : Link) (moves : List (Move α)) : Prop :=
  ∀ done, done <+: moves → l ∈ (s.play done).store.orphanChain

/-- A node on the orphan chain stays there at the next move, or a handle has it then on its list
under its tag, or its grace period is over and it is free. -/
def Leaves (s : Session α) (l : Link) (m : Move α) : Prop :=
  l ∈ (s.move m).store.orphanChain ∨ (∃ k, (s.move m).files k (s.store.arena.tag l) l) ∨
    s.store.arena.tag l + s.store.settings.gracePeriod < (s.move m).store.epoch ∧
      l ∈ (s.move m).store.freeList

theorem Sound.leaves (hs : s.Sound dead live held) (htagged : s.Tagged)
    (hl : l ∈ s.store.orphanChain) (m : Move α) : s.Leaves l m := by
  have hdrift := hs.drift m
  by_cases hdue : s.store.arena.tag l + s.store.settings.gracePeriod < (s.move m).store.epoch
  · obtain ⟨_, _, _, hmoved, -⟩ := hs.move m
    rcases hdrift.idle l (.inr (.inl hl)) with hout | ⟨⟨k, E, hfiled⟩ | hstays | hfree, htag⟩
    · rcases hdrift.handed _ hout with hfresh | hfree
      · have hlt := hs.partitioned.index_lt (Partitioned.mem_places_of_idle (.inr (.inl hl)))
        exact absurd hfresh (Nat.not_le.2 hlt)
      · exact absurd hfree (hs.partitioned.not_free (.inl hl))
    · obtain ⟨seat, hseat, hfiles⟩ := hfiled
      have hE := (htagged.move hs m k seat.context (contexts_of_seat hseat)).tag_eq E l hfiles
      exact .inr (.inl ⟨k, seat, hseat, (htag.symm.trans hE) ▸ hfiles⟩)
    · exact .inl hstays
    · exact .inr (.inr ⟨hdue, hfree⟩)
  · exact (hdrift.orphaned l hl (Nat.le_of_not_lt hdue)).imp_right .inl

theorem Sound.tag_lingers (hs : s.Sound dead live held) {moves : List (Move α)}
    (hlingers : s.Lingers l moves) : (s.play moves).store.arena.tag l = s.store.arena.tag l := by
  induction moves generalizing s dead live held with
  | nil => rfl
  | cons m moves ih =>
    obtain ⟨_, _, _, hmoved, -⟩ := hs.move m
    have hrest : (s.move m).Lingers l moves := fun done hdone =>
      hlingers (m :: done) (List.cons_prefix_cons.2 ⟨rfl, hdone⟩)
    exact (ih hmoved hrest).trans (hs.tag_move m (.inl (hlingers [] (List.nil_prefix))))

/-- A handle that reclaims takes the orphans over, each under its tag, or frees what is due. -/
theorem Sound.reclaims_orphan (hs : s.Sound dead live held) (htagged : s.Tagged)
    (frames : s.frames = .perform (.reclaim h) :: below) (idle : s.idle? h = some c)
    (granted : Bool) (hl : l ∈ s.store.orphanChain) :
    if s.store.arena.tag l + s.store.settings.gracePeriod < s.store.epoch then
      l ∈ (s.stepWith granted).store.freeList
    else (s.stepWith granted).files h (s.store.arena.tag l) l := by
  have hreclaims := hs.reclaims htagged granted frames idle
  have hmem : l ∈ byKey s.store.arena.tag (c.deferred.links ++ s.store.orphanChain) :=
    (perm_byKey _ _).mem_iff.2 (List.mem_append_right _ hl)
  split
  · rename_i hdue
    rw [hreclaims.freed]
    exact List.mem_append_left _
      (List.mem_reverse.2 (List.mem_filter.2 ⟨hmem, decide_eq_true hdue⟩))
  · rename_i hdue
    have hstays : l ∈ (Turn.mk s.store c).reclaim.state.context.deferred.links := by
      rw [hreclaims.deferred]
      exact List.mem_filter.2 ⟨hmem, by simp only [Turn.isDue, reclaimable, hdue]; rfl⟩
    obtain ⟨E, hfiles⟩ := RetireList.mem_links.1 hstays
    refine ⟨Seat.idle (Turn.mk s.store c).reclaim.state.context, ?_, ?_⟩
    · rw [seat?, hreclaims.handles, List.getElem?_set_self (lt_of_seat (idle?_eq_some.1 idle))]
      rfl
    · exact hreclaims.tagged E l hfiles ▸ hfiles

/-- Deregistration of a handle with context `c`. -/
structure Deregisters (s : Session α) (h : Nat) (c : Context) (below : List (Frame α))
    (t : Session α) : Prop where
  /-- Unless the stack itself goes with the handle, there is nothing more to do. -/
  frames : t.isGone = false → t.frames = .finish .done :: below
  /-- The nodes, deferred by this handle or orphaned, that are due go to the free list. -/
  freed : t.store.freeList =
    ((byKey s.store.arena.tag (c.deferred.links ++ s.store.orphanChain)).filter
      (Turn.mk s.store c).isDue).reverse ++ s.store.freeList
  /-- The others make up the orphan chain, in the order of their tags, and within one tag those of
  the handle in the order of their bag, then the old orphans in that of their chain. -/
  left : t.store.orphanChain =
    (byKey s.store.arena.tag (c.deferred.links ++ s.store.orphanChain)).filter
      fun l => !(Turn.mk s.store c).isDue l
  ends : t.store.arena.Threads t.store.orphans t.store.orphanChain
  once : t.store.orphanChain.Nodup
  tags : ∀ l, t.store.arena.tag l = s.store.arena.tag l
  generations : ∀ i, t.store.arena.generationAt i = s.store.arena.generationAt i
  /-- As long as a node is on the orphan chain its tag stays. It leaves the chain by being filed
  under this tag, or free after its grace period; a handle that reclaims does one or the other. -/
  later : ∀ {moves : List (Move α)} {l : Link}, t.Lingers l moves →
    (t.play moves).store.arena.tag l = s.store.arena.tag l ∧
      (∀ m, (t.play moves).Leaves l m) ∧
      ∀ {k : Nat} {d : Context} {lower : List (Frame α)} (granted : Bool),
        (t.play moves).frames = .perform (.reclaim k) :: lower →
        (t.play moves).idle? k = some d →
        if s.store.arena.tag l + s.store.settings.gracePeriod < (t.play moves).store.epoch then
          l ∈ ((t.play moves).stepWith granted).store.freeList
        else ((t.play moves).stepWith granted).files k (s.store.arena.tag l) l
  /-- Nothing else changes, and no value is dropped. -/
  stack : t.store.head = s.store.head ∧ t.store.chain = s.store.chain ∧
    t.store.values = s.store.values
  epoch : t.store.epoch = s.store.epoch
  extent : t.store.arena.fresh = s.store.arena.fresh ∧
    t.store.arena.capacity = s.store.arena.capacity
  handles : t.handles = s.handles.set h none
  references : t.references = s.references
  shed : t.shed = s.shed

theorem stepWith_dropHandle (granted : Bool)
    (frames : s.frames = .perform (.dropHandle h) :: below) (idle : s.idle? h = some c) :
    s.stepWith granted = ((({ s with frames := below, store := (Turn.mk s.store c).abandon.state } :
      Session α).setSeat h none).recordLog (Turn.mk s.store c).abandon.log).afterDrop := by
  rw [stepWith_cons granted frames, resume, perform]
  exact withHandle_idle (s := { s with frames := below }) idle _

theorem Sound.deregisters (hs : s.Sound dead live held) (htagged : s.Tagged) (granted : Bool)
    (frames : s.frames = .perform (.dropHandle h) :: below) (idle : s.idle? h = some c) :
    s.Deregisters h c below (s.stepWith granted) := by
  have hseat := idle?_eq_some.1 idle
  have hturn : (Turn.mk s.store c).Tagged := htagged h c (contexts_of_seat hseat)
  have htidy := hs.toKept.tidy_turn hseat
  have habandoned := Turn.abandon_tidy htidy
  have hextent := Arena.inert_extent.abandon (Turn.mk s.store c)
  have hsettings : (Turn.mk s.store c).abandon.state.settings = s.store.settings :=
    Store.settings_orphan _ _
  obtain ⟨_, _, _, hafter, -⟩ := hs.step granted
  have htagged' : (s.stepWith granted).Tagged := htagged.move hs (.go granted)
  have hparts := hafter.partitioned
  have hstep := stepWith_dropHandle granted frames idle
  have hstore : (s.stepWith granted).store = (Turn.mk s.store c).abandon.state := by
    rw [hstep]
    exact store_afterDrop _
  have htags : ∀ l, (s.stepWith granted).store.arena.tag l = s.store.arena.tag l := fun l => by
    rw [hstore]
    exact (Turn.mk s.store c).tag_abandon l
  refine ⟨fun halive => ?_, ?_, ?_, hparts.orphans, ?_, htags, fun i => ?_, ?_, ?_, ?_, ?_,
    ?_, ?_, ?_⟩
  · rw [hstep] at halive ⊢
    unfold afterDrop at halive ⊢
    split
    · rename_i hgone
      rw [if_pos hgone] at halive
      exact absurd (hgone.symm.trans halive) (by decide)
    · rfl
  · rw [hstore]
    exact hturn.freeList_abandon htidy
  · rw [hstore]
    exact hturn.orphanChain_abandon htidy
  · have hnodup := hparts.nodup
    simp only [places, List.append_assoc, List.map_append] at hnodup
    have horphans := (List.nodup_append.1 (List.nodup_append.1 (List.nodup_append.1
      hnodup).2.1).2.1).1
    exact horphans.of_map _
  · rw [hstore]
    exact (Turn.mk s.store c).generationAt_abandon i
  · intro moves l hlingers
    obtain ⟨_, _, _, hplayed, -⟩ := hafter.play moves
    have hplayedTagged := hafter.tagged_play htagged' moves
    have hl : l ∈ ((s.stepWith granted).play moves).store.orphanChain :=
      hlingers moves List.prefix_rfl
    have htag := (hafter.tag_lingers hlingers).trans (htags l)
    refine ⟨htag, hplayed.leaves hplayedTagged hl, fun granted' frames' idle' => ?_⟩
    have hreclaims := hplayed.reclaims_orphan hplayedTagged frames' idle' granted' hl
    rwa [htag, hafter.settings_play moves, hstore, hsettings] at hreclaims
  · rw [hstore]
    exact ⟨habandoned.head_eq.trans htidy.head_eq.symm, habandoned.chain_eq.trans
      htidy.chain_eq.symm, habandoned.values_eq.trans htidy.values_eq.symm⟩
  · rw [hstore]
    exact Store.epoch_orphan _ _
  · rw [hstore]
    exact ⟨congrArg Prod.fst hextent, congrArg Prod.snd hextent⟩
  · rw [hstep]
    exact handles_afterDrop _
  · rw [hstep]
    exact references_afterDrop _
  · rw [hstep]
    unfold afterDrop
    split <;> exact shed_recordLog _ _

/-- In any state of any run the orphan chain is in the order of its tags, and an idle handle that
is dropped hands every node it has deferred over to the free list or to the orphans. -/
theorem deregister_play (p : Plan) (moves : List (Move α)) :
    ((ofPlan p : Session α).play moves).store.orphanChain.Pairwise (fun l m =>
      ((ofPlan p : Session α).play moves).store.arena.tag l ≤
        ((ofPlan p : Session α).play moves).store.arena.tag m) ∧
    ∀ {h : Nat} {c : Context} {below : List (Frame α)} (granted : Bool),
      ((ofPlan p : Session α).play moves).frames = .perform (.dropHandle h) :: below →
      ((ofPlan p : Session α).play moves).idle? h = some c →
      ((ofPlan p : Session α).play moves).Deregisters h c below
        (((ofPlan p : Session α).play moves).stepWith granted) := by
  obtain ⟨_, _, _, hs, -⟩ := (sound_ofPlan (α := α) p).play moves
  refine ⟨List.pairwise_map.1 ?_, fun granted frames idle =>
    hs.deregisters (tagged_ofPlan p moves) granted frames idle⟩
  exact (sound_ofPlan p).sorted_play (tagged_ofPlan p []) .nil moves

/-- One node is orphaned at epoch 0 and one deferred at epoch 1 when a handle goes at epoch 2. -/
def deregistering : List (Move Nat) :=
  Move.inTurn 4 [.register 0, .register 0, .push 0 (.plain 1), .push 0 (.plain 2),
      .push 0 (.plain 3), .pop 1, .advance 0, .pop 0, .dropHandle 1, .setEpoch 0 2] ++
    [.call (.dropHandle 0)]

theorem deregister_orphan : ∃ c, ((ofPlan .default).play deregistering).Deregisters 0 c []
      (((ofPlan .default).play deregistering).stepWith true) ∧
    ((ofPlan .default).play deregistering).store.orphanChain = [.node 2 1] ∧
    (((ofPlan .default).play deregistering).stepWith true).store.freeList = [.node 2 1] ∧
    (((ofPlan .default).play deregistering).stepWith true).store.orphanChain = [.node 1 1] := by
  obtain ⟨c, hidle⟩ : ∃ c, ((ofPlan .default).play deregistering).idle? 0 = some c :=
    Option.isSome_iff_exists.1 (by decide +kernel)
  exact ⟨c, (deregister_play .default deregistering).2 true rfl hidle, by decide +kernel,
    by decide +kernel, by decide +kernel⟩

end Session

end RecyclingStack
