import RecyclingStack.Proofs.Memory.HandOut
import RecyclingStack.Proofs.Session.Runs

/-! One step of a session, seen from the nodes that were on the stack: where they drift, which slot
is handed out, and which handle leaves. -/
namespace RecyclingStack

namespace Session

variable {α : Type} {s t : Session α} {f : Frame α} {dead : List Link}
  {live u : Load (Payload α)} {held : List (Load (Payload α))} {final h : Nat} {c : Context}
  {out : List Nat} {gone : Nat → Prop} {granted : Bool}

/-- A handle has a node on its deferred list, under this epoch. -/
def files (s : Session α) (handle epoch : Nat) (l : Link) : Prop :=
  ∃ seat, s.seat? handle = some seat ∧ seat.context.deferred.Files epoch l

def scene (s : Session α) : Scene (Payload α) := ⟨s.store, s.files⟩

def handOut (s : Session α) : Move α → List Nat
  | .call _ => []
  | .go granted =>
    match s.frames with
    | [] => []
    | frame :: frames => ({ s with frames } : Session α).handOutOf granted frame

/-- The slots handed out along the moves, each as often as it is. -/
def handedOut (s : Session α) : List (Move α) → List Nat
  | [] => []
  | m :: moves => s.handOut m ++ (s.move m).handedOut moves

def leaverOf (s : Session α) : Frame α → Option Nat
  | .perform (.dropHandle handle) => (s.idle? handle).map fun _ => handle
  | _ => none

def leaver? (s : Session α) : Move α → Option Nat
  | .call _ => none
  | .go _ =>
    match s.frames with
    | [] => none
    | frame :: frames => ({ s with frames } : Session α).leaverOf frame

/-- From one state to another, nodes drift, and the epoch is at last that of the latter. -/
def DriftsTo (s t : Session α) (out : List Nat) (gone : Nat → Prop) : Prop :=
  Drift t.store.epoch out gone s.scene t.scene

theorem DriftsTo.settings_eq (hdrift : s.DriftsTo t out gone) :
    t.store.settings = s.store.settings :=
  Drift.settings_eq hdrift

/-- A step that drops no handle may count as one that drops some. -/
theorem DriftsTo.keeping (hdrift : s.DriftsTo t out noneGone) : s.DriftsTo t out gone :=
  hdrift.mono fun _ hk => hk.elim

theorem files_iff {k E : Nat} {l : Link} :
    s.files k E l ↔ ∃ c, s.contexts[k]? = some (some c) ∧ c.deferred.Files E l := by
  constructor
  · rintro ⟨seat, hseat, hl⟩
    exact ⟨seat.context, contexts_of_seat hseat, hl⟩
  · rintro ⟨c, hc, hl⟩
    obtain ⟨busy, hseat⟩ := seat_of_contexts hc
    exact ⟨_, hseat, hl⟩

theorem files_of_contexts (hcontexts : t.contexts = s.contexts) : t.files = s.files := by
  funext k E l
  exact propext (by rw [files_iff, files_iff, hcontexts])

/-- After the turn of a handle its own list is that of the turn, and the others are as they were. -/
theorem Turns.scene {turn : Turn (Payload α)} (hturns : s.Turns t h turn)
    (hlt : h < s.handles.length) : t.scene = turn.scene h (s.setSeat h none).files := by
  rw [Session.scene, Turn.scene, hturns.store]
  congr
  funext k E l
  have hset : h < s.contexts.length := by rwa [Session.contexts, List.length_map]
  rw [eq_iff_iff, files_iff, files_iff, hturns.contexts, contexts_setSeat, Option.map_none,
    List.getElem?_set, List.getElem?_set]
  by_cases hk : h = k
  · simp [hk, hk ▸ hset]
  · simp [hk, Ne.symm hk]

theorem scene_turn {seat : Seat} (hseat : s.seat? h = some seat) :
    s.scene = (Turn.mk s.store seat.context).scene h (s.setSeat h none).files :=
  Turns.scene ⟨rfl, (set_of_getElem? (contexts_of_seat hseat)).symm⟩ (lt_of_seat hseat)

theorem scene_settle {β : Type} (hlt : h < s.handles.length) (e : Effect (Turn (Payload α)) β) :
    (s.settle h e).scene = e.state.scene h (s.setSeat h none).files :=
  (turns_settle s h e).scene hlt

theorem mem_deferred {k E : Nat} {l : Link} (hl : s.files k E l) : l ∈ s.deferred := by
  obtain ⟨seat, hseat, hfiles⟩ := hl
  exact List.mem_flatMap.2 ⟨some seat, List.mem_of_getElem? (getElem?_of_seat hseat),
    hfiles.mem_links⟩

/-- Deferred nodes are among the strands that hang nowhere. -/
theorem loose_of_files (s : Session α) (u : List (Strand (Payload α))) (k E : Nat) (l : Link)
    (hl : s.files k E l) : [Cell.spent l] ∈ u ++ Strand.loose s.vacant :=
  List.mem_append_right _ (List.mem_map_of_mem (List.mem_append_right _ (mem_deferred hl)))

theorem DriftsTo.still (hlinks : Arena.Relinks [] s.store.arena t.store.arena)
    (hroot : ∀ r, t.store.root r = s.store.root r)
    (hsettings : t.store.settings = s.store.settings)
    (hcontexts : t.contexts = s.contexts) : s.DriftsTo t [] gone :=
  Drift.still (x := s.scene) (y := t.scene) hlinks hroot hsettings
    fun k E l hl => show t.files k E l from files_of_contexts hcontexts ▸ hl

theorem Rests.drift (hrests : s.Rests t) : s.DriftsTo t [] gone :=
  .still (hrests.store ▸ .refl _) (fun _ => by rw [hrests.store]) (by rw [hrests.store])
    hrests.contexts

/-- Nodes drift with a handle as they do with its turn. -/
theorem Turns.drift {turn : Turn (Payload α)} {seat : Seat} (hturns : s.Turns t h turn)
    (hk : s.Kept dead live held) (hseat : s.seat? h = some seat)
    (hdrift : ∀ {rest : List (Strand (Payload α))} {others : Nat → Nat → Link → Prop},
      (Turn.mk s.store seat.context).Tidy (Strand.idle dead ++ live.strand) rest →
        (∀ k E l, others k E l → [Cell.spent l] ∈ rest) →
          Drift turn.store.epoch [] noneGone ((Turn.mk s.store seat.context).scene h others)
            (turn.scene h others)) : s.DriftsTo t [] noneGone := by
  rw [DriftsTo, hturns.store, scene_turn hseat, hturns.scene (lt_of_seat hseat)]
  exact hdrift (hk.tidy_turn hseat) (loose_of_files _ _)

/-- A handle that is registered has nothing on its list. -/
theorem drift_register {context : Context} (hstore : t.store = s.store)
    (hcontexts : t.contexts = s.contexts ++ [some context]) : s.DriftsTo t [] gone := by
  have hlinks : Arena.Relinks [] s.store.arena t.store.arena := hstore ▸ .refl _
  refine Drift.still (x := s.scene) (y := t.scene) hlinks
    (fun r => congrArg (Store.root · r) hstore)
    (congrArg Store.settings hstore) fun k E l hl => ?_
  obtain ⟨c, hc, hfiles⟩ := files_iff.1 hl
  refine files_iff.2 ⟨c, ?_, hfiles⟩
  rw [hcontexts, List.getElem?_append_left (List.getElem?_eq_some_iff.1 hc).1, hc]

/-- A handle that goes reclaims once, and leaves its nodes to the orphans. -/
theorem drift_leave (hk : s.Kept dead live held) (hseat : s.seat? h = some ⟨c, false⟩)
    (hstore : t.store = (Turn.mk s.store c).abandon.state)
    (hcontexts : t.contexts = s.contexts.set h none) : s.DriftsTo t [] (· = h) := by
  have htidy := hk.tidy_turn hseat
  have hothers := (s.setSeat h none).loose_of_files (held.map Load.strand)
  have hreclaimed := Turn.reclaim_drift (h := h) htidy hothers
  have hdropped := Turn.orphan_drift (h := h) (Turn.reclaim_tidy htidy) hothers s.store.epoch
  have hepoch : (Turn.mk s.store c).abandon.state.epoch = s.store.epoch :=
    Store.epoch_orphan _ _
  have hfiles : t.files = (s.setSeat h none).files :=
    files_of_contexts (hcontexts.trans (contexts_setSeat s h none).symm)
  rw [DriftsTo, scene_turn hseat, scene, hfiles, hstore, hepoch]
  exact hreclaimed.trans hdropped

theorem drift_publish {i g : Nat} {last : Link} {seat : Seat}
    (hs : (s.enter (.batch h (.node i g) last [])).Sound dead live (u :: held))
    (hseat : s.seat? h = some seat)
    (hturns : s.Turns t h ((Turn.mk s.store seat.context).publish (.node i g) last).state) :
    s.DriftsTo t [] noneGone := by
  obtain ⟨rfl, -⟩ := hs.of_seat (s := s.enter _) hseat
  have howns : .node i g = u.strand.first ∧ last = u.strand.last :=
    (List.forall₂_cons.1 hs.owned).1
  have hu : u ≠ [] := fun hu => Link.noConfusion (hs.first_eq_nil.2 hu)
  have htidy : (Turn.mk s.store seat.context).Tidy live.strand (u.strand ::
      (held.map Load.strand ++ Strand.loose (s.setSeat h none).vacant)) :=
    hs.toKept.tidy_turn (s := s.enter _) hseat
  have hothers := (s.setSeat h none).loose_of_files (held.map Load.strand)
  rw [DriftsTo, hturns.scene (lt_of_seat hseat), hturns.store, scene_turn hseat, howns.1, howns.2]
  exact Turn.publish_drift (Load.strand_ne_nil hu) htidy hothers

theorem drift_deallocate {node next last : Link} {o : Outcome α}
    (hs : (s.enter (.release h node next last o)).Sound dead live (u :: held))
    (hstore : t.store = s.store.deallocate node) (hcontexts : t.contexts = s.contexts) :
    s.DriftsTo t [] gone := by
  obtain ⟨L, -, hlaid⟩ := hs.tidy
  have hnode : s.store.Laid (L.withStrands ([Cell.spent node] ::
      ((u.strand :: held.map Load.strand) ++ Strand.loose s.vacant))) :=
    hlaid.reorder List.perm_middle
  rw [DriftsTo, scene, scene, files_of_contexts hcontexts, hstore]
  exact Store.deallocate_drift s.files hnode (s.loose_of_files _)

/-- Whatever a step changes, nodes drift, with the slot it hands out and the handle that
it drops. -/
theorem Changes.drift (hs : (s.enter f).Sound dead live (u :: held))
    (hc : s.Changes granted f t) :
    s.DriftsTo t (s.handOutOf granted f) fun k => s.leaverOf f = some k := by
  have hturn : ∀ {h : Nat} {c : Context} {turn : Turn (Payload α)}, s.idle? h = some c →
      s.Turns t h turn → (∀ {rest : List (Strand (Payload α))} {others : Nat → Nat → Link → Prop},
        (Turn.mk s.store c).Tidy live.strand rest →
          (∀ k E l, others k E l → [Cell.spent l] ∈ rest) →
            Drift turn.store.epoch [] noneGone ((Turn.mk s.store c).scene h others)
              (turn.scene h others)) → s.DriftsTo t [] noneGone := by
    intro h c turn idle hturns hdrift
    have hseat := idle?_eq_some.1 idle
    obtain ⟨rfl, -⟩ := hs.of_seat (s := s.enter f) hseat
    exact Turns.drift (s := s.enter f) ⟨hturns.store, hturns.contexts⟩ hs.toKept hseat hdrift
  cases hc with
  | rests rests kept => exact kept ▸ rests.drift
  | registers _ store contexts => exact drift_register store contexts
  | @leaves h c _ idle store contexts =>
    have hdrift := drift_leave (s := s.enter _) hs.toKept (idle?_eq_some.1 idle) store contexts
    rw [leaverOf, idle]
    exact hdrift.mono fun k hk => congrArg some hk.symm
  | pops frame idle turns =>
    have hnone : s.handOutOf granted f = [] := by
      rcases frame with rfl | ⟨_, _, -, rfl⟩ <;> rfl
    exact hnone ▸ (hturn idle turns Turn.pop_drift).keeping
  | advances idle turns => exact (hturn idle turns Turn.advance_drift).keeping
  | reclaims idle turns => exact (hturn idle turns Turn.reclaim_drift).keeping
  | setsOps idle turns =>
    exact (hturn idle turns fun _ _ => .still (.refl _) (fun _ => rfl) rfl
      fun _ _ _ hl => hl).keeping
  | setsEpoch _ store contexts | shuts _ store contexts =>
    refine .still ?_ (fun r => ?_) ?_ contexts <;> rw [store]
    · exact .refl _
    · cases r <;> rfl
  | publishes _ seated turns => exact (drift_publish hs seated turns).keeping
  | allocates ok store contexts =>
    obtain ⟨L, -, hlaid⟩ := hs.tidy
    rw [DriftsTo, scene, scene, files_of_contexts contexts, store, handOutOf, ok]
    exact Store.allocate_drift s.files _ hlaid ok (loose_of_files (s.enter _) _)
  | empties frame take store contexts =>
    have hnone : s.handOutOf granted f = [] := by
      rcases frame with ⟨_, _, _, rfl⟩ | ⟨_, rfl⟩ <;> rfl
    rw [hnone]
    refine .still ?_ (fun r => ?_) ?_ contexts <;> rw [store, (Store.takeValue_eq_some take).2]
    · exact .clearValue _ _
    · exact s.store.root_withArena _ r
    · rfl
  | frees store contexts => exact drift_deallocate hs store contexts

/-- A move lets nodes drift, with the slot it hands out and the handle that it drops. -/
theorem Sound.drift (hs : s.Sound dead live held) (m : Move α) :
    s.DriftsTo (s.move m) (s.handOut m) fun k => s.leaver? m = some k := by
  cases m with
  | call op =>
    simp only [Session.move]
    split <;> exact Rests.drift ⟨rfl, rfl⟩
  | go granted =>
    cases frames : s.frames with
    | nil =>
      rw [Session.move, stepWith, handOut, frames]
      exact (Rests.refl s).drift
    | cons f below =>
      obtain ⟨u, rest, rfl, htop⟩ := hs.of_frames frames
      have hdrift := (s.steps_stepWith granted frames).changes.drift htop
      simp only [handOut, leaver?, frames]
      exact hdrift

def setsEpoch (s : Session α) : Move α → Bool
  | .call _ => false
  | .go _ =>
    match s.frames with
    | .perform (.setEpoch reference _) :: _ => s.refers reference
    | _ => false

def Ticks (s t : Session α) : Prop :=
  t.store.epoch = s.store.epoch ∨ t.store.epoch = nextWord s.store.epoch

theorem Ticks.complete (turn : Turn (Payload α)) (h : turn.store.epoch = s.store.epoch)
    (ht : t.store = turn.complete.state.store) : s.Ticks t := by
  rw [Ticks, ht, ← h, Turn.complete]
  split
  · exact .inr rfl
  · exact .inl rfl

/-- The epoch changes by advances, unless it is set. -/
theorem Changes.ticks (hc : s.Changes granted f t)
    (hf : ∀ r epoch, f = .perform (.setEpoch r epoch) → s.refers r = false) : s.Ticks t := by
  have hsame : ∀ {store : Store (Payload α)}, t.store = store → store.epoch = s.store.epoch →
      s.Ticks t := fun hstore hepoch => .inl ((congrArg Store.epoch hstore).trans hepoch)
  cases hc with
  | rests rests => exact hsame rests.store rfl
  | registers _ store | shuts _ store | allocates _ store | frees store => exact hsame store rfl
  | leaves _ store => exact hsame store (Store.epoch_orphan _ _)
  | @pops _ _ c _ _ _ turns =>
    rcases (Turn.mk s.store c).pop_cases with hpop | ⟨v, hpop⟩ <;> rw [hpop] at turns
    · exact hsame turns.store rfl
    · exact .complete ((Turn.mk s.store c).retired s.store.head) rfl turns.store
  | advances _ turns => exact .inr (congrArg Store.epoch turns.store)
  | reclaims _ turns | setsOps _ turns => exact hsame turns.store rfl
  | setsEpoch refers => exact absurd (refers.symm.trans (hf _ _ rfl)) (by decide)
  | publishes _ _ turns => exact .complete (Turn.mk (s.store.publish _ _) _) rfl turns.store
  | empties _ take store => exact hsame (store.trans (Store.takeValue_eq_some take).2) rfl

theorem ticks_move (m : Move α) (hm : s.setsEpoch m = false) : s.Ticks (s.move m) := by
  rcases s.changes_move m with hrests | ⟨granted, f, below, rfl, frames, hchanges⟩
  · exact .inl (congrArg Store.epoch hrests.store)
  · refine hchanges.ticks ?_
    rintro r epoch rfl
    rwa [setsEpoch, frames] at hm

end Session

end RecyclingStack
