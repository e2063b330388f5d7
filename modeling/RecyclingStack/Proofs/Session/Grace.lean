import RecyclingStack.Proofs.Session.Idle

/-! The grace period. The tag of a popped node goes from the deferred list to its slot and from
there to the list of whoever adopts it; on all these ways the node is kept from the free list until
the epoch has advanced far enough. -/
namespace RecyclingStack

namespace Session

variable {α : Type} {s : Session α} {dead : List Link} {live : Load (Payload α)}
  {held : List (Load (Payload α))} {l : Link} {E h : Nat}

/-- Along the moves the epoch changes by advances only, and its last value is not reached. -/
def Advancing (s : Session α) : List (Move α) → Prop
  | [] => s.store.epoch < fullWord - 1
  | m :: moves =>
    s.store.epoch < fullWord - 1 ∧ s.setsEpoch m = false ∧ (s.move m).Advancing moves

/-- Along the moves no handle is dropped while it has the node on its deferred list. -/
def Spares (s : Session α) (l : Link) : List (Move α) → Prop
  | [] => True
  | m :: moves =>
    (∀ h ∈ s.leaver? m, ∀ seat ∈ s.seat? h, l ∉ seat.context.deferred.links) ∧
      (s.move m).Spares l moves

instance decidableAdvancing : (s : Session α) → (moves : List (Move α)) →
    Decidable (s.Advancing moves)
  | _, [] => inferInstanceAs (Decidable (_ < _))
  | s, m :: moves =>
    have := decidableAdvancing (s.move m) moves
    inferInstanceAs (Decidable (_ ∧ _ ∧ _))

instance decidableSpares (l : Link) : (s : Session α) → (moves : List (Move α)) →
    Decidable (s.Spares l moves)
  | _, [] => .isTrue trivial
  | s, m :: moves =>
    have := decidableSpares l (s.move m) moves
    inferInstanceAs (Decidable (_ ∧ _))

/-- A node retired at this epoch waits for its grace period: it is deferred or orphaned, and its
tag is the epoch. -/
structure Waits (s : Session α) (l : Link) (E : Nat) : Prop where
  place : l ∈ s.store.orphanChain ∨ ∃ h, s.files h E l
  tag : s.store.arena.tag l = E

/-- A node retired at this epoch awaits its next incarnation, and its tag is the epoch. -/
structure Retired (s : Session α) (l : Link) (E : Nat) : Prop where
  idle : s.scene.Idle l
  tag : s.store.arena.tag l = E

/-- The slot of the node is not on the free list, still in the generation of the link, and tagged
with the epoch. -/
structure Withheld (s : Session α) (l : Link) (E : Nat) : Prop where
  not_free : l.index ∉ s.store.freeList.map Link.index
  current : ∃ slot, s.store.arena.slot? l.index = some slot ∧ slot.generation = l.generation ∧
    slot.retiredEpoch = E

theorem Advancing.le_move {m : Move α} {moves : List (Move α)} (h : s.Advancing (m :: moves)) :
    s.store.epoch ≤ (s.move m).store.epoch := by
  obtain ⟨hlt, hsets, -⟩ := h
  rcases ticks_move m hsets with hsame | hnext
  · exact Nat.le_of_eq hsame.symm
  · rw [hnext, nextWord, Nat.mod_eq_of_lt (by omega)]
    exact Nat.le_succ _

theorem Advancing.le_play {moves : List (Move α)} (h : s.Advancing moves) :
    s.store.epoch ≤ (s.play moves).store.epoch := by
  induction moves generalizing s with
  | nil => exact Nat.le_refl _
  | cons m moves ih => exact Nat.le_trans h.le_move (ih h.2.2)

namespace Waits

theorem idle (hw : s.Waits l E) : s.scene.Idle l :=
  hw.place.symm.imp (fun ⟨h, hl⟩ => ⟨h, E, hl⟩) .inl

theorem withheld (hw : s.Waits l E) (hs : s.Partitioned) : s.Withheld l E := by
  have hplace : l ∈ s.places := Partitioned.mem_places_of_idle hw.idle
  refine ⟨hs.not_free (hw.place.imp_right fun ⟨h, hl⟩ => ⟨h, E, hl⟩), ?_⟩
  obtain ⟨slot, hslot, hlink⟩ := hs.current l hplace
  refine ⟨slot, hslot, (congrArg Link.generation hlink).symm, ?_⟩
  have htag := hw.tag
  rwa [hlink, Arena.tag, Arena.read_node, hslot] at htag

/-- A waiting node is not handed out, and goes on waiting as long as its grace period lasts. -/
theorem move (hw : s.Waits l E) (hs : s.Sound dead live held) (m : Move α)
    (hepoch : (s.move m).store.epoch ≤ E + s.store.settings.gracePeriod) :
    l.index ∉ s.handOut m ∧ (s.move m).Waits l E := by
  have hdrift := hs.drift m
  -- a slot handed out was never used or comes from the free list; this one is in neither place
  have hout : l.index ∉ s.handOut m := by
    intro hout
    rcases hdrift.handed _ hout with hfresh | hfree
    · exact absurd (hs.partitioned.index_lt (Partitioned.mem_places_of_idle hw.idle))
        (Nat.not_lt.2 hfresh)
    · exact (hw.withheld hs.partitioned).not_free hfree
  have htag := ((hdrift.idle l hw.idle).resolve_left hout).2
  refine ⟨hout, ?_, htag.trans hw.tag⟩
  rcases hw.place with horphan | ⟨h, hfiled⟩
  · have hstill := hdrift.orphaned l horphan (by rwa [← hw.tag] at hepoch)
    rw [show s.scene.store.arena.tag l = E from hw.tag] at hstill
    exact hstill
  · rcases hdrift.filed h E l hfiled hepoch with ⟨hstays, -⟩ | ⟨-, hleft⟩
    · exact .inr ⟨h, hstays⟩
    · exact .inl hleft

theorem play (hw : s.Waits l E) (hs : s.Sound dead live held) {moves : List (Move α)}
    (hadvancing : s.Advancing moves)
    (hepoch : (s.play moves).store.epoch ≤ E + s.store.settings.gracePeriod) :
    l.index ∉ s.handedOut moves ∧ (s.play moves).Waits l E := by
  induction moves generalizing s dead live held with
  | nil => exact ⟨List.not_mem_nil, hw⟩
  | cons m moves ih =>
    have hlast : (s.move m).store.epoch ≤ E + s.store.settings.gracePeriod :=
      Nat.le_trans hadvancing.2.2.le_play hepoch
    obtain ⟨hout, hmoved⟩ := hw.move hs m hlast
    obtain ⟨_, _, _, hsound, -⟩ := hs.move m
    obtain ⟨hrest, hplayed⟩ := ih hmoved hsound hadvancing.2.2
      (by rwa [(hs.drift m).settings_eq])
    exact ⟨fun hmem => (List.mem_append.1 hmem).elim hout hrest, hplayed⟩

end Waits

/-- A deferred node keeps its forward link as long as its handle is not dropped and its grace period
lasts. -/
theorem next_play (hf : s.files h E l) (hs : s.Sound dead live held) {moves : List (Move α)}
    (hadvancing : s.Advancing moves) (hspares : s.Spares l moves)
    (hepoch : (s.play moves).store.epoch ≤ E + s.store.settings.gracePeriod) :
    (s.play moves).store.arena.next l = s.store.arena.next l := by
  induction moves generalizing s dead live held with
  | nil => rfl
  | cons m moves ih =>
    have hlast : (s.move m).store.epoch ≤ E + s.store.settings.gracePeriod :=
      Nat.le_trans hadvancing.2.2.le_play hepoch
    obtain ⟨hstays, hnext⟩ := ((hs.drift m).filed h E l hf hlast).resolve_right fun hgone => by
      obtain ⟨seat, hseat, hl⟩ := hf
      exact hspares.1 h hgone.1 seat hseat hl.mem_links
    obtain ⟨_, _, _, hsound, -⟩ := hs.move m
    exact (ih hstays hsound hadvancing.2.2 hspares.2 (by rwa [(hs.drift m).settings_eq])).trans
      hnext

theorem Sound.settings_play (hs : s.Sound dead live held) (moves : List (Move α)) :
    (s.play moves).store.settings = s.store.settings := by
  induction moves generalizing s dead live held with
  | nil => rfl
  | cons m moves ih =>
    obtain ⟨_, _, _, hsound, -⟩ := hs.move m
    exact (ih hsound).trans (hs.drift m).settings_eq

/-- A pop retires the node, and puts it on the list of its handle. -/
theorem Sound.poppable_retires {payload : Payload α} (hs : s.Sound dead live held)
    (hpop : s.poppable h = some payload) :
    ∃ c, s.idle? h = some c ∧
      (s.settle h (Turn.mk s.store c).pop).Retired s.store.head s.store.epoch ∧
      ((s.settle h (Turn.mk s.store c).pop).store.epoch ≤
          s.store.epoch + s.store.settings.gracePeriod →
        (s.settle h (Turn.mk s.store c).pop).files h s.store.epoch s.store.head ∧
        (s.settle h (Turn.mk s.store c).pop).store.arena.next s.store.head =
          s.store.arena.next s.store.head) := by
  obtain ⟨c, hidle, hanswer⟩ := Option.bind_eq_some_iff.1 hpop
  have hseat := idle?_eq_some.1 hidle
  obtain ⟨rfl, -⟩ := hs.of_seat hseat
  have htidy := hs.toKept.tidy_turn hseat
  have hnone : ∀ {p : Prop}, (live.strand = [] ∨ s.store.shutdown = true) → p := by
    intro p hnone
    rw [Turn.pop_none htidy hnone] at hanswer
    cases hanswer
  have hshut : s.store.shutdown = false := by
    cases hshut : s.store.shutdown with
    | false => rfl
    | true => exact hnone (.inr hshut)
  cases live with
  | nil => exact hnone (.inl rfl)
  | cons n live =>
    have hhead : s.store.head = n.1 := htidy.head_eq
    have hothers := (s.setSeat h none).loose_of_files (held.map Load.strand)
    obtain ⟨hretired, htag, hfiles⟩ := Turn.pop_retires (h := h) htidy hothers hshut
    rw [← scene_settle (lt_of_seat hseat)] at hretired hfiles
    rw [hhead]
    exact ⟨c, hidle, ⟨hretired, htag⟩, hfiles⟩

/-- A frame whose going on is noted as a pop does just what a pop does to store and contexts. -/
theorem resume_of_popped {f : Frame α} {payload : Payload α} (granted : Bool)
    (hnote : .popped payload ∈ s.notesOf f) : f.isLight = true ∧ f.cursor? = none ∧
      ∃ h, s.poppable h = some payload ∧ ∀ c, s.idle? h = some c →
        (s.resume granted f).store = (s.settle h (Turn.mk s.store c).pop).store ∧
        (s.resume granted f).contexts = (s.settle h (Turn.mk s.store c).pop).contexts := by
  have hopened : ∀ {k given}, ¬ (.popped payload ∈ s.openedBy k given) := by
    intro k given hmem
    rw [openedBy] at hmem
    split at hmem <;> simp at hmem
  have hpoppable : ∀ {k}, .popped payload ∈ (s.poppable k).toList.map Note.popped →
      s.poppable k = some payload := by
    intro k hmem
    cases hpop : s.poppable k <;> simp_all
  unfold notesOf at hnote
  split at hnote
  case h_1 => exact absurd hnote hopened
  case h_2 => exact absurd hnote hopened
  case h_3 k =>
    refine ⟨rfl, rfl, k, hpoppable hnote, fun c hidle => ?_⟩
    simp only [resume, perform, withHandle, idle?_eq_some.1 hidle]
    exact ⟨rfl, rfl⟩
  case h_4 k limit got =>
    split at hnote
    · cases hnote
    · rename_i hlimit
      have hpop := hpoppable hnote
      refine ⟨rfl, rfl, k, hpop, fun c hidle => ?_⟩
      rw [poppable, hidle, Option.bind_some] at hpop
      simp only [resume, if_neg hlimit, hidle, hpop]
      exact ⟨rfl, rfl⟩
  -- no other frame takes such a note
  all_goals
    exfalso
    revert hnote
    repeat' split
    all_goals simp

/-- A pop retires the node. It is then on some list, unless its grace period is over at once, and
its forward link is as it was. -/
theorem Sound.popped_move {payload : Payload α} {granted : Bool} (hs : s.Sound dead live held)
    (hnote : .popped payload ∈ s.moveNotes (.go granted)) :
    (s.move (.go granted)).Retired s.store.head s.store.epoch ∧
      ((s.move (.go granted)).store.epoch ≤ s.store.epoch + s.store.settings.gracePeriod →
        (∃ h, (s.move (.go granted)).files h s.store.epoch s.store.head) ∧
        (s.move (.go granted)).store.arena.next s.store.head =
          s.store.arena.next s.store.head) := by
  rcases s with ⟨store, references, handles, frames, events, answer⟩
  cases frames with
  | nil => cases hnote
  | cons f frames =>
    obtain ⟨hlight, hcursor, h, hpop, hsame⟩ := resume_of_popped
      (s := ⟨store, references, handles, frames, events, answer⟩) granted hnote
    obtain ⟨_, -, hbelow⟩ := Sound.leave (s := ⟨store, references, handles, frames, events, answer⟩)
      hlight hcursor hs
    obtain ⟨c, hidle, ⟨hretired, htag⟩, hfiles⟩ := hbelow.poppable_retires hpop
    obtain ⟨hstore, hcontexts⟩ := hsame c hidle
    rw [scene, ← hstore, ← files_of_contexts hcontexts] at hretired
    rw [← hstore] at htag hfiles
    refine ⟨⟨hretired, htag⟩, fun hepoch => ?_⟩
    obtain ⟨hfiled, hnext⟩ := hfiles hepoch
    rw [← files_of_contexts hcontexts] at hfiled
    exact ⟨⟨h, hfiled⟩, hnext⟩

/-- The grace period is never cut short. A pop takes the top node, slot `i` in generation `c`. Then,
whatever follows, as long as the epoch has not advanced more often than the grace period says, the
slot is not free and is not handed out again, and its tag is the epoch of the pop. Its forward link
is as it was if no handle that had it on its list was dropped. -/
theorem grace_play (p : Plan) (before after : List (Move α)) (granted : Bool)
    {s t u : Session α} {payload : Payload α} {i c : Nat}
    (hs : s = (ofPlan p).play before) (ht : t = s.move (.go granted)) (hu : u = t.play after)
    (hpop : .popped payload ∈ s.moveNotes (.go granted)) (hhead : s.store.head = .node i c)
    (hadvancing : s.Advancing (.go granted :: after))
    (hepoch : u.store.epoch ≤ s.store.epoch + p.settings.gracePeriod) :
    u.Withheld (.node i c) s.store.epoch ∧ i ∉ t.handedOut after ∧
      (t.Spares (.node i c) after →
        u.store.arena.next (.node i c) = s.store.arena.next (.node i c)) := by
  obtain ⟨_, _, _, hsound, -⟩ := (sound_ofPlan (α := α) p).play before
  have hsettings := (sound_ofPlan (α := α) p).settings_play before
  rw [← hs] at hsound hsettings
  rw [show p.settings = s.store.settings from hsettings.symm] at hepoch
  subst ht hu
  have hlater := hadvancing.2.2
  obtain ⟨hretired, hfiled⟩ := hsound.popped_move hpop
  obtain ⟨⟨h, hfiles⟩, hnext⟩ := hfiled (Nat.le_trans hlater.le_play hepoch)
  rw [hhead] at hretired hfiles hnext
  have hwaits : (s.move (.go granted)).Waits (.node i c) s.store.epoch :=
    ⟨.inr ⟨h, hfiles⟩, hretired.tag⟩
  have hlast : ((s.move (.go granted)).play after).store.epoch ≤
      s.store.epoch + (s.move (.go granted)).store.settings.gracePeriod := by
    rwa [(hsound.drift _).settings_eq]
  obtain ⟨_, _, _, hmoved, -⟩ := hsound.move (.go granted)
  obtain ⟨_, _, _, hplayed, -⟩ := hmoved.play after
  obtain ⟨hout, hstill⟩ := hwaits.play hmoved hlater hlast
  refine ⟨hstill.withheld hplayed.partitioned, hout, fun hspares => ?_⟩
  exact (next_play hfiles hmoved hlater hspares hlast).trans hnext

/-- What comes before the first of two handles pops one of two nodes. -/
def stacking : List (Move Nat) :=
  Move.inTurn 4 [.register 0, .register 0, .push 0 (.plain 1), .push 0 (.plain 2)] ++
    [.call (.pop 0)]

def popping : Session Nat := (ofPlan .default).play stacking

def popped : Session Nat := popping.move (.go true)

/-- The handle that popped is dropped. The other one takes the node over and advances. -/
def handover : List (Move Nat) := .go true :: Move.inTurn 4 [.dropHandle 0, .advance 1, .reclaim 1]

def keeping : List (Move Nat) := .go true :: Move.inTurn 4 [.dropHandle 1, .advance 0]

theorem grace_handover :
    (popped.play handover).Withheld (.node 1 1) 0 ∧ 1 ∉ popped.handedOut handover ∧
      (popped.play keeping).store.arena.next (.node 1 1) = .node 0 1 := by
  have hpop : .popped (.plain 2) ∈ popping.moveNotes (.go true) := List.mem_singleton_self _
  have hhead : popping.store.head = .node 1 1 := by decide +kernel
  have hepoch : popping.store.epoch = 0 := by decide +kernel
  have hnext : popping.store.arena.next (.node 1 1) = .node 0 1 := by decide +kernel
  obtain ⟨hwithheld, hout, -⟩ := grace_play .default stacking handover true (s := popping)
    (t := popped) rfl rfl rfl hpop hhead (by decide +kernel) (by decide +kernel)
  obtain ⟨-, -, hkept⟩ := grace_play .default stacking keeping true (s := popping) (t := popped)
    rfl rfl rfl hpop hhead (by decide +kernel) (by decide +kernel)
  rw [hepoch] at hwithheld
  exact ⟨hwithheld, hout, (hkept (by decide +kernel)).trans hnext⟩

end Session

end RecyclingStack
