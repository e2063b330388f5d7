import RecyclingStack.Proofs.Session.Exhaustion
import RecyclingStack.Proofs.Session.Level
import RecyclingStack.Proofs.Session.Returns

/-! A longer grace period only delays reuse. Run with the same operations, two stacks that differ in
the grace period alone hold the same values and do the same at every step; the one with the shorter
period has no more nodes waiting, and so no more nodes at all. -/
namespace RecyclingStack

namespace Session

variable {α : Type} {s t : Session α} {granted granted' : Bool} {grants : Nat → Bool}
  {dead dead' : List Link} {live live' : Load (Payload α)}
  {held held' : List (Load (Payload α))}

theorem length_links (r : RetireList) : r.links.length = r.epochs.length := by
  rw [RetireList.links_eq, RetireList.epochs, List.length_map, List.length_map]

theorem Sound.inUse_eq (hs : s.Sound [] live held) :
    s.inUse = live.values.length + s.store.orphanTags.length + s.deferred.length +
      ((s.frames.flatMap Frame.vacant).length + (held.map Load.values).flatten.length) := by
  obtain ⟨L, -, hlaid⟩ := hs.tidy
  have hchain := hs.tidy.chain_eq
  have hnodes := (nodes_frames s.store.arena s.frames).length_eq
  rw [filled_frames hs.owned fun u hu => between_held (L := L) hlaid hu,
    List.length_append] at hnodes
  have hheld : (held.flatMap Load.links).length = (held.map Load.values).flatten.length := by
    rw [List.flatMap, List.length_flatten, List.length_flatten, List.map_map, List.map_map]
    exact congrArg List.sum (List.map_congr_left fun u _ => by simp [Load.links, Load.values])
  rw [inUse, hchain, hnodes, hheld, Store.orphanTags]
  simp [Load.strand, Load.values, Strand.idle]

namespace Abreast

theorem length_deferred_le (ab : s.Abreast t) : s.deferred.length ≤ t.deferred.length := by
  have hhandles := ab.handles
  rw [deferred, deferred]
  generalize s.handles = seats at hhandles
  generalize t.handles = seats' at hhandles
  induction hhandles with
  | nil => exact Nat.le_refl _
  | cons hseat _ ih =>
    rw [List.flatMap_cons, List.flatMap_cons, List.length_append, List.length_append]
    refine Nat.add_le_add ?_ ih
    cases hseat with
    | none => exact Nat.le_refl _
    | some hsooner =>
      have hle := hsooner.context.epochs.length_le
      rwa [← length_links, ← length_links] at hle

theorem length_vacant_eq {fs gs : List (Frame α)} (hfs : List.Forall₂ Frame.Alike fs gs) :
    (fs.flatMap Frame.vacant).length = (gs.flatMap Frame.vacant).length := by
  induction hfs with
  | nil => rfl
  | cons hf _ ih =>
    rw [List.flatMap_cons, List.flatMap_cons, List.length_append, List.length_append, ih]
    cases hf <;> rfl

/-- The first session has no more slots in use. -/
theorem inUse_le (ab : s.Abreast t) (hlevel : s.Level t) (halive : s.isGone = false) :
    s.inUse ≤ t.inUse := by
  obtain ⟨dead, live, held, dead', live', held', hs, ht, hlive, hheld⟩ := hlevel
  obtain ⟨rfl, -⟩ := hs.alive halive
  obtain ⟨rfl, -⟩ := ht.alive (ab.isGone_eq.symm.trans halive)
  have horphans := ab.store.orphans.length_le
  have hdeferred := ab.length_deferred_le
  rw [hs.inUse_eq, ht.inUse_eq, hlive, hheld, length_vacant_eq ab.frames]
  omega

end Abreast

/-- As long as a push or a batch is under way, something refers to the stack. -/
theorem Sound.alive_of_holder {f : Frame α} {below : List (Frame α)} {k : Nat}
    (hs : s.Sound dead live held) (frames : s.frames = f :: below) (hf : f.holder = some k) :
    s.isGone = false := by
  rw [enter_of_frames frames] at hs
  obtain ⟨c, hseat⟩ := hs.exists_seat hf
  exact not_gone_of_seat (s := { s with frames := below }) hseat

/-- What memory there is for segments does not change as they are installed. -/
theorem Sound.available_stepUnder (hs : s.Sound dead live held) :
    (s.stepUnder grants).store.arena.available grants = s.store.arena.available grants := by
  cases frames : s.frames with
  | nil => rw [stepUnder, Session.stepWith, frames]
  | cons f below =>
    rcases (s.steps_stepWith (s.store.grant grants) frames).changes.inert with
      hinert | ⟨h, first, last, p, rest, l, -, -, hstore⟩
    · exact hinert (Arena.inert_available grants)
    · obtain ⟨L, -, hlaid⟩ := hs.tidy
      rw [stepUnder, hstore]
      refine (Arena.inert_available grants _ l _).trans ?_
      exact Store.available_allocate grants hlaid.sound p

/-- A slot that was handed out is in a segment that memory was there for. -/
theorem Sound.granted_of_lt (hs : s.Sound dead live held)
    (hgranted : s.store.arena.available grants = grants) {i : Nat} (hi : i < s.store.arena.fresh) :
    grants (locate i).segment = true := by
  obtain ⟨L, -, hlaid⟩ := hs.tidy
  obtain ⟨c, hc, rfl⟩ := hlaid.exists_cell hi
  obtain ⟨slot, hslot, -⟩ := hlaid.holds c hc
  rw [← hgranted, Arena.available, Bool.or_eq_true]
  refine .inl ?_
  rw [Arena.installed]
  cases hsegment : s.store.arena.segment? (locate c.index).segment with
  | some slots => rfl
  | none =>
    rw [Arena.slot?, hsegment] at hslot
    cases hslot

/-- The next thing that is done where memory for a segment is there if `grants` says so: an
operation is called, if none is under way, or what is under way goes on by one step. -/
def moveUnder (grants : Nat → Bool) (s : Session α) : Option (Op α) → Session α
  | some op => s.move (.call op)
  | none => s.stepUnder grants

def playUnder (grants : Nat → Bool) (s : Session α) (moves : List (Option (Op α))) : Session α :=
  moves.foldl (moveUnder grants) s

def starves (grants : Nat → Bool) (s : Session α) : Bool := s.lacks (s.store.grant grants)

def Fed (grants : Nat → Bool) (s : Session α) : List (Option (Op α)) → Prop
  | [] => True
  | m :: moves => (m = none → s.starves grants = false) ∧ (s.moveUnder grants m).Fed grants moves

instance decidableFed (grants : Nat → Bool) : (s : Session α) → (moves : List (Option (Op α))) →
    Decidable (s.Fed grants moves)
  | _, [] => .isTrue trivial
  | s, none :: moves =>
    have := decidableFed grants (s.moveUnder grants none) moves
    decidable_of_iff (s.starves grants = false ∧ (s.moveUnder grants none).Fed grants moves)
      (and_congr_left' ⟨fun h _ => h, fun h => h rfl⟩)
  | s, some op :: moves =>
    have := decidableFed grants (s.moveUnder grants (some op)) moves
    decidable_of_iff ((s.moveUnder grants (some op)).Fed grants moves)
      ⟨fun h => ⟨nofun, h⟩, And.right⟩

theorem Fed.of_prefix {before moves : List (Option (Op α))} (h : s.Fed grants moves)
    (hbefore : before <+: moves) : s.Fed grants before := by
  induction before generalizing s moves with
  | nil => trivial
  | cons m before ih =>
    obtain ⟨after, rfl⟩ := hbefore
    exact ⟨h.1, ih h.2 (List.prefix_append before after)⟩

/-- What is kept up by two runs of the same operations. -/
structure Paired (grants : Nat → Bool) (s t : Session α) : Prop where
  abreast : s.Abreast t
  level : s.Level t
  tagged : s.Tagged ∧ t.Tagged
  capacity : s.store.arena.capacity = t.store.arena.capacity
  fresh : s.store.arena.fresh ≤ t.store.arena.fresh
  granted : t.store.arena.available grants = grants

namespace Paired

variable (h : Paired grants s t)
include h

/-- If the second session is not refused a node, the first one is not. -/
theorem fed (hfed : t.starves grants = false) : s.starves grants = false := by
  have hlevel := h.level
  obtain ⟨_, _, held, _, _, _, hs, ht, -⟩ := hlevel
  have hframes := h.abreast.frames
  refine lacks_eq_false fun {k first last p rest below} frames => ?_
  have halive := hs.alive_of_holder frames rfl
  obtain ⟨l, hok⟩ : ∃ l, (t.store.allocate (t.store.grant grants) p).answer = .ok l := by
    rw [frames] at hframes
    cases frames' : t.frames with
    | nil =>
      rw [frames'] at hframes
      cases hframes
    | cons g below' =>
      rw [frames'] at hframes
      obtain ⟨hf, -⟩ := List.forall₂_cons.1 hframes
      cases hf
      exact exists_node hfed frames'
  have hroom := (Store.allocate_ok_iff grants t.store p).1 ⟨l, hok⟩
  refine (Store.allocate_ok_iff grants s.store p).2 ((em' _).imp_right fun hfree => ?_)
  have hfull := hs.partitioned.inUse_of_free (freeList_eq_nil hfree)
  have hwhole := ht.partitioned.inUse_add_free
  have hle := h.abreast.inUse_le h.level halive
  rcases Nat.lt_or_ge s.store.arena.fresh t.store.arena.fresh with hlt | hge
  · obtain ⟨L, -, hlaid⟩ := ht.tidy
    refine ⟨?_, ?_⟩
    · rw [h.capacity]
      exact Nat.lt_of_lt_of_le hlt hlaid.sound.fresh_le
    · rw [Arena.available, ht.granted_of_lt h.granted hlt, Bool.or_true]
  · have hsame : s.store.arena.fresh = t.store.arena.fresh := Nat.le_antisymm h.fresh hge
    have hempty : t.store.freeList = [] := List.length_eq_zero_iff.1 (by omega)
    obtain ⟨hlt, hgranted⟩ := hroom.resolve_left fun hne =>
      hne ((free_eq_nil_iff ht.partitioned).2 hempty)
    rw [h.granted] at hgranted
    rw [hsame, h.capacity, Arena.available, hgranted, Bool.or_true]
    exact ⟨hlt, rfl⟩

/-- The first session claims an index only when all its slots are in use, and then the second one
has as many in use. -/
theorem fresh_stepUnder (hab : (s.stepUnder grants).Abreast (t.stepUnder grants))
    (hlevel : (s.stepUnder grants).Level (t.stepUnder grants)) :
    (s.stepUnder grants).store.arena.fresh ≤ (t.stepUnder grants).store.arena.fresh := by
  rcases (s.claims_move (.go (s.store.grant grants))).2 with hsame | ⟨f, below, frames, hclaims⟩
  · refine Nat.le_trans (Nat.le_of_eq hsame) (Nat.le_trans h.fresh ?_)
    exact fresh_le_play t [.go (t.store.grant grants)]
  · have hlevels := hlevel
    obtain ⟨_, _, _, _, _, _, hs, ht, -⟩ := hlevels
    have halive : (s.stepUnder grants).isGone = false := by
      obtain ⟨_, _, _, _, _, _, hbefore, -⟩ := h.level
      obtain ⟨k, first, last, p, rest, rfl⟩ := hclaims.frame
      refine Eq.trans ?_ (hbefore.alive_of_holder frames rfl)
      rw [stepUnder, stepWith_cons _ frames]
      simp only [resume]
      split <;> rfl
    calc (s.stepUnder grants).store.arena.fresh
        = (s.stepUnder grants).inUse := (hs.partitioned.inUse_of_free hclaims.after).symm
      _ ≤ (t.stepUnder grants).inUse := hab.inUse_le hlevel halive
      _ ≤ (t.stepUnder grants).store.arena.fresh := ht.partitioned.inUse_le

theorem stepUnder (hfed : t.starves grants = false) :
    Paired grants (s.stepUnder grants) (t.stepUnder grants) := by
  have hlevel := h.level
  obtain ⟨_, _, _, _, _, _, hs, ht, hlive, hheld⟩ := hlevel
  obtain ⟨hab, hlevel⟩ := h.abreast.stepWith hs ht hlive hheld h.tagged.1 h.tagged.2
    (h.fed hfed) hfed
  refine ⟨hab, hlevel, ?_, ?_, h.fresh_stepUnder hab hlevel, ?_⟩
  · exact ⟨h.tagged.1.move hs (.go _), h.tagged.2.move ht (.go _)⟩
  · exact (s.claims_move (.go _)).1.trans (h.capacity.trans (t.claims_move (.go _)).1.symm)
  · exact ht.available_stepUnder.trans h.granted

theorem call (op : Op α) : Paired grants (s.move (.call op)) (t.move (.call op)) := by
  have hframes := h.abreast.frames
  simp only [move]
  cases frames : s.frames with
  | cons f below =>
    rw [frames] at hframes
    cases frames' : t.frames with
    | nil =>
      rw [frames'] at hframes
      cases hframes
    | cons g below' => exact h
  | nil =>
    rw [frames, List.forall₂_nil_left_iff] at hframes
    rw [hframes]
    obtain ⟨ab, hlevel, htagged, hcapacity, hfresh, hgranted⟩ := h
    refine ⟨?_, ?_, htagged, hcapacity, hfresh, hgranted⟩
    · exact ⟨ab.store, ab.references, ab.handles, .cons (.perform op) ab.frames, .nil, .none⟩
    · obtain ⟨_, _, _, _, _, _, hs, ht, hlive, hheld⟩ := hlevel
      refine ⟨_, _, _, _, _, _, Sound.of_eq (hs.enter (f := .perform op) rfl rfl) rfl rfl rfl rfl,
        Sound.of_eq (ht.enter (f := .perform op) rfl rfl) rfl rfl rfl rfl, hlive, ?_⟩
      rw [List.map_cons, List.map_cons, hheld]

theorem play {moves : List (Option (Op α))} (hfed : t.Fed grants moves) :
    s.Fed grants moves ∧ Paired grants (s.playUnder grants moves) (t.playUnder grants moves) := by
  induction moves generalizing s t with
  | nil => exact ⟨trivial, h⟩
  | cons m moves ih =>
    cases m with
    | some op =>
      obtain ⟨hrest, hplayed⟩ := ih (h.call op) hfed.2
      exact ⟨⟨nofun, hrest⟩, hplayed⟩
    | none =>
      obtain ⟨hrest, hplayed⟩ := ih (h.stepUnder (hfed.1 rfl)) hfed.2
      exact ⟨⟨fun _ => h.fed (hfed.1 rfl), hrest⟩, hplayed⟩

end Paired

theorem paired_ofPlan {p q : Plan} (hsettings : p.settings.Sooner q.settings)
    (hcapacity : p.capacityLimit = q.capacityLimit) (grants : Nat → Bool) :
    Paired grants (ofPlan p : Session α) (ofPlan q) where
  abreast := by
    refine ⟨⟨hsettings, rfl, rfl, ?_⟩, rfl, .nil, .nil, .nil, .none⟩
    rw [Store.orphanTags_of_nil rfl]
    exact List.nil_subperm
  level := ⟨_, _, _, _, _, _, sound_ofPlan p, sound_ofPlan q, rfl, rfl⟩
  tagged := ⟨tagged_ofPlan p [], tagged_ofPlan q []⟩
  capacity := congrArg (fun limit => (Arena.empty limit : Arena (Payload α)).capacity) hcapacity
  fresh := Nat.le_refl _
  granted := by
    funext segment
    have hnone : ((ofPlan q : Session α).store.arena.directory[segment]?).join = none := by
      change ((List.replicate segmentCount none)[segment]?).join = none
      rw [List.getElem?_replicate]
      split <;> rfl
    rw [Arena.available, Arena.installed, Arena.segment?, hnone]
    rfl

/-- The first session reuses its nodes sooner than the second, which has the longer grace period,
and in all else it is like it. -/
structure Sooner (s t : Session α) : Prop where
  /-- The same is under way. In particular each pop has returned the same. -/
  frames : List.Forall₂ Frame.Alike s.frames t.frames
  answer : Option.Rel Outcome.Alike s.answer t.answer
  events : List.Forall₂ Event.Alike (s.events.filter Event.isTold) (t.events.filter Event.isTold)
  values : s.store.values = t.store.values
  epoch : s.store.epoch = t.store.epoch
  /-- The same handles are there, and none has more nodes deferred. -/
  retired : ∀ k, (s.seat? k = none ∧ t.seat? k = none) ∨ ∃ a b, s.seat? k = some a ∧
    t.seat? k = some b ∧ a.context.deferred.count ≤ b.context.deferred.count
  orphans : s.store.orphanChain.length ≤ t.store.orphanChain.length
  allocated : s.store.arena.fresh ≤ t.store.arena.fresh

theorem Paired.sooner (h : Paired grants s t) : s.Sooner t where
  frames := h.abreast.frames
  answer := h.abreast.answer
  events := h.abreast.events
  values := by
    obtain ⟨_, _, _, _, _, _, hs, ht, hlive, -⟩ := h.level
    rw [hs.values_eq, ht.values_eq, hlive]
  epoch := h.abreast.store.epoch
  retired := by
    intro k
    refine (h.abreast.seat_cases k).imp_right ?_
    rintro ⟨a, b, ha, hb, hseat⟩
    have hle := hseat.context.epochs.length_le
    rw [(h.tagged.1 k _ (contexts_of_seat ha)).inOrder.length_epochs,
      (h.tagged.2 k _ (contexts_of_seat hb)).inOrder.length_epochs] at hle
    exact ⟨a, b, ha, hb, hle⟩
  orphans := by
    have hle := h.abreast.store.orphans.length_le
    rwa [Store.orphanTags, Store.orphanTags, List.length_map, List.length_map] at hle
  allocated := h.fresh

/-- Of two stacks that differ in the grace period alone, and that have no threshold, the one with
the shorter period reuses its nodes sooner at every moment of the same operations, as long as the
one with the longer period does not run out of nodes. Then the other one does not either. -/
theorem sooner_play (p q : Plan) (grants : Nat → Bool) (moves : List (Option (Op α)))
    (hsettings : p.settings.Sooner q.settings) (hcapacity : p.capacityLimit = q.capacityLimit)
    (hfed : (ofPlan q).Fed grants moves) :
    (ofPlan p).Fed grants moves ∧ ∀ before, before <+: moves →
      ((ofPlan p).playUnder grants before).Sooner ((ofPlan q).playUnder grants before) := by
  have hpaired := paired_ofPlan (α := α) hsettings hcapacity grants
  refine ⟨(hpaired.play hfed).1, fun before hbefore => ?_⟩
  exact (hpaired.play (hfed.of_prefix hbefore)).2.sooner

def lasting (grace : Nat) : Plan := ⟨⟨grace, 0, none⟩, some 2⟩

/-- A value is pushed after another one was popped two epochs ago. -/
def reusing : List (Option (Op Nat)) :=
  [Op.register 0, .push 0 (.plain 1), .pop 0, .advance 0, .advance 0, .push 0 (.plain 2)].flatMap
    fun op => some op :: List.replicate 4 none

theorem sooner_reusing :
    ((ofPlan (lasting 1)).playUnder (fun _ => true) reusing).store.arena.fresh = 1 ∧
      ((ofPlan (lasting 2)).playUnder (fun _ => true) reusing).store.arena.fresh = 2 ∧
      ((ofPlan (lasting 1)).playUnder (fun _ => true) reusing).Sooner
        ((ofPlan (lasting 2)).playUnder (fun _ => true) reusing) := by
  refine ⟨by decide +kernel, by decide +kernel, ?_⟩
  exact (sooner_play (lasting 1) (lasting 2) (fun _ => true) reusing ⟨by decide, rfl, rfl, rfl⟩ rfl
    (by decide +kernel)).2 reusing List.prefix_rfl

end Session

end RecyclingStack
