import RecyclingStack.Proofs.Session.Courses

/-! A push or a batch that does not go to the stack. What it had linked is dropped, the latest
first, and the nodes go back one by one, so that the next call is handed out the same slots. -/
namespace RecyclingStack

/-- Nothing is run when the item comes, nor when its payload is dropped. -/
def Item.isQuiet {α : Type} : Item α → Bool
  | .payload p => p.onDrop.isEmpty
  | .perform _ => false
  | .panic _ => true

namespace Item

variable {α : Type} {items : List (Item α)}

theorem isStill_of_isQuiet {item : Item α} (h : item.isQuiet = true) : item.isStill = true := by
  cases item with
  | payload p => rfl
  | perform op => cases h
  | panic message => rfl

theorem onDrop_of_isQuiet (h : ∀ item ∈ items, item.isQuiet = true) :
    ∀ p ∈ payloads items, p.onDrop = [] := by
  induction items with
  | nil => exact fun p hp => by cases hp
  | cons item items ih =>
    have hrest := ih fun item hitem => h item (List.mem_cons_of_mem _ hitem)
    cases item with
    | payload q =>
      intro p hp
      rcases List.mem_cons.1 hp with rfl | hp
      · exact List.isEmpty_iff.1 (h _ List.mem_cons_self)
      · exact hrest p hp
    | perform op => exact hrest
    | panic message => exact hrest

end Item

namespace Session

variable {α : Type} {s t : Session α} {h : Nat} {c : Context} {grants : Nat → Bool}
  {items : List (Item α)} {linked unused : List (Payload α)} {op : Op α} {o : Outcome α}

theorem setBusy_back (idle : s.idle? h = some c) : (s.setBusy h true).setBusy h false = s := by
  have hseat := idle?_eq_some.1 idle
  have hbusy : (s.setSeat h (some ⟨c, true⟩)).seat? h = some ⟨c, true⟩ :=
    (seat?_setSeat (lt_of_seat hseat) _ h).trans (if_pos rfl)
  rw [setBusy_eq hseat, setBusy_eq hbusy]
  simp only [setSeat, List.set_set, set_of_getElem? (getElem?_of_seat hseat)]

def drops (s : Session α) (ps : List (Payload α)) : Session α :=
  { s with events := (ps.map fun p => Event.dropped p.value).reverse ++ s.events }

theorem drops_cons (s : Session α) (p : Payload α) (ps : List (Payload α)) :
    s.drops (p :: ps) = (s.record (.dropped p.value)).drops ps := by
  simp [drops, record]

theorem shed_drops (s : Session α) (ps : List (Payload α)) :
    (s.drops ps).shed = (ps.map Payload.value).reverse ++ s.shed := by
  have hevents : (ps.map fun p => Event.dropped p.value).reverse.flatMap Event.shed =
      (ps.map Payload.value).reverse := by
    rw [← List.map_reverse, ← List.map_reverse, List.flatMap_map]
    exact List.flatMap_pure_eq_map _ _
  rw [shed, drops, List.flatMap_append, hevents]
  rfl

/-- A payload that runs nothing is dropped. -/
theorem through_drop {below : List (Frame α)} {p : Payload α} (quiet : p.onDrop = [])
    (above : s.Over below) :
    Through grants below (s.dropPayload p) (s.record (.dropped p.value)) := by
  obtain ⟨f, top, frames⟩ := above
  have hstep : (s.dropPayload p).stepUnder grants = s.record (.dropped p.value) := by
    rw [dropPayload, quiet]
    rfl
  refine .onward ⟨.hook p.onDrop, f :: top, congrArg _ frames⟩ ?_
  rw [hstep]
  exact .here ⟨f, top, frames⟩

/-- The payloads that never got a node are dropped in their order. -/
theorem through_unused (cursor last : Link) (quiet : ∀ p ∈ unused, p.onDrop = []) :
    Through grants s.frames (s.enter (.rollBack h unused cursor last o))
      ((s.drops unused).enter (.rollBack h [] cursor last o)) := by
  induction unused generalizing s with
  | nil => exact .here (over_enter s _)
  | cons p unused ih =>
    have hrest := ih (s := s.record (.dropped p.value)) fun q hq =>
      quiet q (List.mem_cons_of_mem _ hq)
    rw [drops_cons]
    exact .onward (over_enter s _)
      ((through_drop (quiet p List.mem_cons_self) (over_enter s _)).trans hrest)

section

variable {L : Layout (Payload α)} {rest : List (Strand (Payload α))} {x : Store (Payload α)}
  {taken : List Nat} {w : Load (Payload α)}

/-- The value on top of a private chain is dropped, and then its node is given back. -/
theorem through_release (grants : Nat → Bool) (h : Nat) (o : Outcome α) {l : Link}
    {p : Payload α} {store : Store (Payload α)} (last : Link)
    (htake : s.store.takeValue l = some (p, store)) (quiet : p.onDrop = []) :
    Through grants s.frames (s.enter (.rollBack h [] l last o))
      (if l = last then
        (({ s with store := store.deallocate l } : Session α).drops [p]).close h o
      else (({ s with store := store.deallocate l } : Session α).drops [p]).enter
        (.rollBack h [] (s.store.arena.next l) last o)) := by
  have hfirst : (s.enter (.rollBack h [] l last o)).stepUnder grants =
      (({ s with store } : Session α).enter
        (.release h l (s.store.arena.next l) last o)).dropPayload p := by
    rcases s with ⟨store', references, handles, frames, events, answer⟩
    simp only [stepUnder, stepWith, enter, resume, htake]
  have hsecond : ((({ s with store } : Session α).enter
      (.release h l (s.store.arena.next l) last o)).record (.dropped p.value)).stepUnder grants =
      if l = last then
        (({ s with store := store.deallocate l } : Session α).drops [p]).close h o
      else (({ s with store := store.deallocate l } : Session α).drops [p]).enter
        (.rollBack h [] (s.store.arena.next l) last o) := rfl
  refine .onward (over_enter s _) ?_
  rw [hfirst]
  refine (through_drop quiet (over_enter { s with store } _)).trans (.onward ?_ ?_)
  · exact over_enter { s with store } _
  · rw [hsecond]
    refine .here ?_
    split
    · exact over_enter (((({ s with store := store.deallocate l } : Session α).drops [p])).setBusy
        h false) _
    · exact over_enter s _

/-- The private chain is dropped from its top, and every node is given back. -/
theorem through_undo (grants : Nat → Bool) (h : Nat) (o : Outcome α)
    (hborrows : x.Borrows L rest taken w s.store)
    (quiet : ∀ p ∈ w.values, p.onDrop = []) :
    ∃ store, x.Borrows L rest taken [] store ∧
      Through grants s.frames (s.enter (.rollBack h [] w.strand.first w.strand.last o))
        ((({ s with store } : Session α).drops w.values).close h o) := by
  induction w generalizing s with
  | nil =>
    refine ⟨s.store, hborrows, .onward (over_enter s _) (.here ?_)⟩
    exact over_enter (s.setBusy h false) _
  | cons n u ih =>
    obtain ⟨l, p⟩ := n
    obtain ⟨htake, hnext, hback⟩ := hborrows.giveBack
    have hrelease := through_release grants h o
      (Load.strand ((l, p) :: u)).last htake (quiet p List.mem_cons_self)
    cases u with
    | nil =>
      have hlast : l = (Load.strand [(l, p)]).last := rfl
      rw [if_pos hlast] at hrelease
      exact ⟨_, hback, hrelease⟩
    | cons m u =>
      obtain ⟨hnext, hne⟩ := hnext (List.cons_ne_nil m u)
      have hlast : (Load.strand ((l, p) :: m :: u)).last = (Load.strand (m :: u)).last :=
        Strand.last_cons (⟨l, .full p⟩ : Cell (Payload α))
          (Load.strand_ne_nil (List.cons_ne_nil m u))
      obtain ⟨store, hdone, hrest⟩ := ih (s := (({ s with
        store := (s.store.withArena (s.store.arena.clearValue l)).deallocate l } :
          Session α).drops [p])) hback fun q hq => quiet q (List.mem_cons_of_mem _ hq)
      refine ⟨store, hdone, ?_⟩
      rw [hlast, if_neg hne, hnext] at hrelease
      rw [hlast, Load.values, List.map_cons, drops_cons]
      exact hrelease.trans hrest

/-- What was not linked is dropped first, and then the private chain. -/
theorem through_rollBack (grants : Nat → Bool) (h : Nat) (o : Outcome α)
    (hborrows : x.Borrows L rest taken w s.store)
    (unusedQuiet : ∀ p ∈ unused, p.onDrop = []) (quiet : ∀ p ∈ w.values, p.onDrop = []) :
    ∃ store, x.Borrows L rest taken [] store ∧
      Through grants s.frames (s.enter (.rollBack h unused w.strand.first w.strand.last o))
        ((({ s with store } : Session α).drops (unused ++ w.values)).close h o) := by
  obtain ⟨store, hback, hundo⟩ := through_undo grants h o
    (s := s.drops unused) hborrows quiet
  refine ⟨store, hback, (through_unused _ _ unusedQuiet).trans ?_⟩
  have hdrops : ({ s with store } : Session α).drops (unused ++ w.values) =
      ({ s.drops unused with store } : Session α).drops w.values := by
    simp [drops]
  rw [hdrops]
  exact hundo

end

/-- A push or a batch has come to nothing, with these payloads linked to its private chain and those
not. -/
structure RolledBack (s : Session α) (linked unused : List (Payload α)) (t : Session α) :
    Prop where
  /-- Outside of the pool the store is the same: head, orphans, epoch and all. -/
  kept : t.store = { s.store with pool := t.store.pool }
  /-- The stack and the orphans have the same nodes in the same order. -/
  chains : t.store.chain = s.store.chain ∧ t.store.values = s.store.values ∧
    t.store.orphanChain = s.store.orphanChain
  handles : t.handles = s.handles
  references : t.references = s.references
  /-- The slots that were free are handed out again in the same order, and after them the ones used
  for the first time. -/
  free : t.store.freeIndices = s.store.freeIndices ++
    List.range' s.store.arena.fresh (t.store.arena.fresh - s.store.arena.fresh)
  fresh : t.store.arena.fresh =
    s.store.arena.fresh + (linked.length - s.store.freeIndices.length)
  /-- One slot for each linked payload was taken, and is of the next generation, with no tag. -/
  renewed : ∀ i ∈ t.store.freeIndices.take linked.length,
    (t.store.arena.slotAt i).generation = (s.store.arena.slotAt i).nextGeneration ∧
      (t.store.arena.slotAt i).retiredEpoch = 0
  others : ∀ i, i ∉ t.store.freeIndices.take linked.length →
    t.store.arena.slotAt i = s.store.arena.slotAt i
  /-- The payloads not linked were dropped in their order, then the others, the latest first. -/
  shed : t.shed = ((unused ++ linked.reverse).map Payload.value).reverse ++ s.shed

section

variable {dead : List Link} {live : Load (Payload α)} {held : List (Load (Payload α))}

/-- The payloads that come are linked or not. -/
theorem GivesUp.payloads_eq {capacity : Nat} (hgives : GivesUp capacity items linked unused o) :
    Item.payloads items = linked ++ unused := by
  cases hgives with
  | exhausted _ p rest => exact Item.payloads_map_append linked (.payload p :: rest)
  | panicked _ message rest => exact Item.payloads_map_append linked (.panic message :: rest)
  | discarded => exact (Item.payloads_map linked).trans (List.append_nil _).symm

/-- Whatever was built is undone. -/
theorem Sound.undone (hs : s.Sound dead live held) (idle : s.idle? h = some c)
    (grants : Nat → Bool) (o : Outcome α) {store : Store (Payload α)} {first last : Link}
    (lines : List LogLine)
    (hbuilt : s.store.build grants .nil .nil linked = some (store, first, last))
    (linkedQuiet : ∀ p ∈ linked, p.onDrop = []) (unusedQuiet : ∀ p ∈ unused, p.onDrop = []) :
    ∃ t, t.frames = s.frames ∧ s.RolledBack linked unused t ∧
      Through grants s.frames
        (({ s.setBusy h true with store, events := lines.map Event.log ++ s.events } :
          Session α).enter (.rollBack h unused first last o)) (t.conclude o) := by
  obtain ⟨L, -, hlaid⟩ := hs.tidy.addNil
  obtain ⟨w, hw, rfl, rfl, hvalues⟩ := (Store.Borrows.refl hlaid).build (u := []) hbuilt
  replace hvalues : w.values = linked.reverse := hvalues.trans (List.append_nil _)
  obtain ⟨store', hback, hundo⟩ := through_rollBack grants h o
    (s := { s.setBusy h true with store, events := lines.map Event.log ++ s.events }) hw
    unusedQuiet fun p hp => linkedQuiet p (List.mem_reverse.1 (hvalues ▸ hp))
  have hlength : (w.links.reverse.map Link.index).length = linked.length := by
    have hcount := congrArg List.length hvalues
    simpa [Load.values, Load.links] using hcount
  have htaken := hback.taken_eq
  rw [hlength] at htaken
  have hhandles : ((s.setBusy h true).setBusy h false).handles = s.handles :=
    congrArg Session.handles (setBusy_back idle)
  have hshed : ({ s.setBusy h true with
      store := store', events := lines.map Event.log ++ s.events } : Session α).shed = s.shed := by
    have hlog := shed_recordLog s lines.reverse
    rw [recordLog, List.reverse_reverse] at hlog
    exact hlog
  refine ⟨(({ s.setBusy h true with store := store', events := lines.map Event.log ++ s.events } :
    Session α).drops (unused ++ w.values)).setBusy h false, rfl, ?_, hundo⟩
  exact
    { kept := hback.kept
      chains := hback.chains_eq hlaid
      handles := hhandles
      references := rfl
      free := hback.free
      fresh := hlength ▸ hback.fresh
      renewed := htaken ▸ hback.renewed
      others := htaken ▸ hback.others
      shed := by
        rw [← hvalues, ← hshed]
        exact shed_drops _ _ }

/-- A batch that has its nodes when the stack is shut down is given up like any other. -/
theorem Through.shut {first last : Link} (shut : s.store.shutdown = true)
    (hway : Through grants s.frames (s.enter (.rollBack h [] first last .done))
      (t.conclude .done)) :
    Through grants s.frames (s.enter (.batch h first last [])) (t.conclude .done) := by
  cases first with
  | nil =>
    generalize hstart : s.enter (.rollBack h [] .nil last .done) = u at hway
    cases hway with
    | here => cases (List.cons.inj (congrArg frames hstart)).1
    | onward _ hrest =>
      subst hstart
      exact .onward (over_enter s _) hrest
  | node i g =>
    refine .onward (over_enter s _) ?_
    rw [stepUnder_shut grants h i g last shut]
    exact hway

/-- A push or a batch that does not go to the stack leaves no trace but in the slots it took. -/
theorem Sound.rolledBack (hs : s.Sound dead live held) (idle : s.idle? h = some c)
    (pushes : op.Pushes h items) (quiet : ∀ item ∈ items, item.isQuiet = true)
    (hreturns : (s.enter (.perform op)).Returns grants s.frames o t)
    (stays : o = .done → s.store.shutdown = true) :
    ∃ linked unused, GivesUp s.store.arena.capacity items linked unused o ∧
      s.RolledBack linked unused t := by
  have hfirst := stepUnder_pushes grants idle pushes
  obtain ⟨linked, store, first, last, lines, hbuilt, ⟨rfl, hway⟩ | ⟨unused, o', hgives, -, hway⟩⟩ :=
    through_stop (s := s.setBusy h true) grants h .nil .nil fun item hitem =>
      Item.isStill_of_isQuiet (quiet item hitem)
  · have hall : ∀ p ∈ linked, p.onDrop = [] := by
      rw [← Item.payloads_map linked]
      exact Item.onDrop_of_isQuiet quiet
    by_cases hshut : s.store.shutdown = true
    · obtain ⟨u, hframes, hrolled, hundo⟩ := hs.undone idle grants .done lines
        hbuilt hall fun p hp => absurd hp List.not_mem_nil
      have hclose := Through.shut (s := { s.setBusy h true with
        store, events := lines.map Event.log ++ s.events })
        ((Store.flags_build hbuilt).2.trans hshut) hundo
      obtain ⟨rfl, rfl⟩ := hreturns.unique
        ⟨.onward (over_enter s _) (hfirst ▸ hway.trans hclose), hframes⟩
      exact ⟨linked, [], .discarded linked, hrolled⟩
    · obtain ⟨u, hput, -⟩ := returns_put idle (Bool.eq_false_iff.2 hshut) pushes
        (Option.map_eq_some_iff.2 ⟨_, hbuilt, rfl⟩)
      exact absurd (stays (hreturns.unique hput).1) hshut
  · have hall := Item.onDrop_of_isQuiet quiet
    rw [hgives.payloads_eq] at hall
    obtain ⟨u, hframes, hrolled, hundo⟩ := hs.undone idle grants o' lines hbuilt
      (fun p hp => hall p (List.mem_append_left _ hp))
      (fun p hp => hall p (List.mem_append_right _ hp))
    obtain ⟨rfl, rfl⟩ := hreturns.unique
      ⟨.onward (over_enter s _) (hfirst ▸ hway.trans hundo), hframes⟩
    exact ⟨linked, unused, hgives, hrolled⟩

end

/-- In any state of any run, a push or a batch that runs nothing in passing comes to an end; and
where it ends in failure, or the stack is shut down, everything is given back in its place. -/
theorem rolledBack_play (p : Plan) (moves : List (Move α)) (grants : Nat → Bool)
    (here : (ofPlan p).play moves = s.enter (.perform op)) (pushes : op.Pushes h items)
    (quiet : ∀ item ∈ items, item.isQuiet = true) (idle : s.idle? h = some c) :
    (∃ o t, (s.enter (.perform op)).Returns grants s.frames o t) ∧
      ∀ {o t}, (s.enter (.perform op)).Returns grants s.frames o t →
        (o = .done → s.store.shutdown = true) → ∃ linked unused,
          GivesUp s.store.arena.capacity items linked unused o ∧ s.RolledBack linked unused t := by
  obtain ⟨_, _, _, hs⟩ := sound_before p moves here
  have hstart := hs.enter (f := .perform op) rfl rfl
  exact ⟨hstart.returns grants rfl pushes.given, fun hreturns stays =>
    hs.rolledBack idle pushes quiet hreturns stays⟩

def overflowing : List (Move Nat) :=
  Move.inTurn 4 [.register 0, .push 0 (.plain 1), .pop 0, .advance 0, .advance 0] ++
    [.call (.pushBatch 0 ([.plain 2, .plain 3, .plain 4, .plain 5, .plain 6].map .payload))]

theorem rolledBack_overflowing : ∃ s : Session Nat,
    (ofPlan ⟨⟨1, 0, none⟩, some 3⟩).play overflowing = s.enter (.perform (.pushBatch 0
        ([.plain 2, .plain 3, .plain 4, .plain 5, .plain 6].map .payload))) ∧
      s.store.freeIndices = [0] ∧ ∃ linked unused t,
        (s.enter (.perform (.pushBatch 0
          ([.plain 2, .plain 3, .plain 4, .plain 5, .plain 6].map .payload)))).Returns
            (fun _ => true) s.frames (.exhausted ⟨3⟩) t ∧
        GivesUp 3 ([.plain 2, .plain 3, .plain 4, .plain 5, .plain 6].map .payload) linked unused
          (.exhausted ⟨3⟩) ∧ s.RolledBack linked unused t := by
  let s : Session Nat := { (ofPlan ⟨⟨1, 0, none⟩, some 3⟩).play overflowing with frames := [] }
  have here : (ofPlan ⟨⟨1, 0, none⟩, some 3⟩).play overflowing = s.enter (.perform (.pushBatch 0
      ([.plain 2, .plain 3, .plain 4, .plain 5, .plain 6].map .payload))) := enter_of_frames rfl
  have hcapacity : s.store.arena.capacity = 3 := by decide +kernel
  obtain ⟨c, idle⟩ : ∃ c, s.idle? 0 = some c := Option.isSome_iff_exists.1 (by decide +kernel)
  have hshort : ((s.idle? 0).bind fun c => (Turn.mk s.store c).put (fun _ => true)
      [.plain 2, .plain 3, .plain 4, .plain 5, .plain 6]).isNone = true := by decide +kernel
  rw [idle, Option.bind_some, Option.isNone_iff_eq_none] at hshort
  have hpushes := Op.pushes_batch 0
    [Payload.plain 2, .plain 3, .plain 4, .plain 5, .plain (6 : Nat)]
  obtain ⟨⟨o, t, hreturns⟩, hrolled⟩ := rolledBack_play _ overflowing (fun _ => true) here hpushes
    (by decide) idle
  obtain rfl := Returns.exhausted idle hpushes hshort hreturns
  rw [hcapacity] at hreturns hrolled
  obtain ⟨linked, unused, hgives, hback⟩ := hrolled hreturns nofun
  exact ⟨s, here, by decide +kernel, linked, unused, t, hreturns, hgives, hback⟩

end Session

end RecyclingStack
