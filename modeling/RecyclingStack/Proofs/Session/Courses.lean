import RecyclingStack.Proofs.Memory.OneByOne
import RecyclingStack.Proofs.Session.Conservation
import RecyclingStack.Proofs.Session.Exhaustion
import RecyclingStack.Proofs.Session.Returns

/-! The course of a push or of a batch that runs nothing in passing: payload after payload goes to
a private chain, until a node is refused, the iterator panics, or all have come. -/
namespace RecyclingStack

def Item.isStill {α : Type} : Item α → Bool
  | .perform _ => false
  | _ => true

theorem Item.payloads_map_append {α : Type} (ps : List (Payload α)) (items : List (Item α)) :
    Item.payloads (ps.map .payload ++ items) = ps ++ Item.payloads items := by
  induction ps with
  | nil => rfl
  | cons p ps ih => exact congrArg (p :: ·) ih

theorem Item.payloads_map {α : Type} (ps : List (Payload α)) :
    Item.payloads (ps.map .payload) = ps := by
  calc Item.payloads (ps.map .payload) = Item.payloads (ps.map .payload ++ []) := by
        rw [List.append_nil]
    _ = ps ++ [] := Item.payloads_map_append ps []
    _ = ps := List.append_nil ps

namespace Session

variable {α : Type} {s t : Session α} {h : Nat} {c : Context} {grants : Nat → Bool}
  {ps : List (Payload α)} {items : List (Item α)} {op : Op α} {o : Outcome α}

/-- What a push or a batch has linked, and what it has not, when it does not put it on the stack;
and what it answers in the end. -/
inductive GivesUp (capacity : Nat) :
    List (Item α) → List (Payload α) → List (Payload α) → Outcome α → Prop where
  /-- A node is refused. -/
  | exhausted (linked : List (Payload α)) (p : Payload α) (rest : List (Item α)) :
    GivesUp capacity (linked.map .payload ++ .payload p :: rest) linked
      (p :: Item.payloads rest) (.exhausted ⟨capacity⟩)
  /-- The iterator panics. -/
  | panicked (linked : List (Payload α)) (message : String) (rest : List (Item α)) :
    GivesUp capacity (linked.map .payload ++ .panic message :: rest) linked
      (Item.payloads rest) (.panicked message)
  /-- All have come, and the stack is shut down. -/
  | discarded (linked : List (Payload α)) :
    GivesUp capacity (linked.map .payload) linked [] .done

theorem GivesUp.cons {capacity : Nat} {linked unused : List (Payload α)} (p : Payload α)
    (h : GivesUp capacity items linked unused o) :
    GivesUp capacity (.payload p :: items) (p :: linked) unused o := by
  cases h with
  | exhausted _ q rest => exact .exhausted (p :: linked) q rest
  | panicked _ message rest => exact .panicked (p :: linked) message rest
  | discarded => exact .discarded (p :: linked)

/-- The state in which an operation is about to be performed. -/
theorem sound_before (p : Plan) (moves : List (Move α))
    (here : (ofPlan p).play moves = s.enter (.perform op)) :
    ∃ dead live held, s.Sound dead live held := by
  obtain ⟨dead, live, _, hs, -⟩ := (sound_ofPlan (α := α) p).play moves
  rw [here] at hs
  obtain ⟨held, -, hs⟩ := hs.leave rfl rfl
  exact ⟨dead, live, held, hs⟩

theorem stepUnder_pushes (grants : Nat → Bool) (idle : s.idle? h = some c)
    (pushes : op.Pushes h items) : (s.enter (.perform op)).stepUnder grants =
      (s.setBusy h true).enter (.batch h .nil .nil items) :=
  stepWith_pushes (s := s.enter _) rfl pushes idle _

theorem over_enter (s : Session α) (f : Frame α) : (s.enter f).Over s.frames := ⟨f, [], rfl⟩

section

variable {p : Payload α} (h : Nat) (first last : Link) (items : List (Item α))

theorem stepUnder_got {l : Link}
    (hanswer : (s.store.allocate (s.store.grant grants) p).answer = .ok l) :
    ∃ lines : List LogLine, (s.enter (.batch h first last (.payload p :: items))).stepUnder grants =
      ({ s with
          store := (s.store.allocate (s.store.grant grants) p).state.setNext l first
          events := lines.map Event.log ++ s.events } : Session α).enter
        (.batch h l (if first.isNil then l else last) items) := by
  refine ⟨(s.store.allocate (s.store.grant grants) p).log.reverse, ?_⟩
  rcases s with ⟨store, references, handles, frames, events, answer⟩
  simp only [stepUnder, stepWith, enter, resume, hanswer]
  rfl

theorem stepUnder_refused {failure : Exhausted}
    (hanswer : (s.store.allocate (s.store.grant grants) p).answer = .error failure) :
    ∃ lines : List LogLine, (s.enter (.batch h first last (.payload p :: items))).stepUnder grants =
      ({ s with events := lines.map Event.log ++ s.events } : Session α).enter
        (.rollBack h (p :: Item.payloads items) first last (.exhausted failure)) := by
  refine ⟨(s.store.allocate (s.store.grant grants) p).log.reverse, ?_⟩
  have hstate := Store.allocate_error hanswer
  rcases s with ⟨store, references, handles, frames, events, answer⟩
  simp only [stepUnder, stepWith, enter, resume, hanswer, hstate]
  rfl

end

/-- A batch that has its nodes is given up all the same when the stack is shut down. -/
theorem stepUnder_shut (grants : Nat → Bool) (h i g : Nat) (last : Link)
    (shut : s.store.shutdown = true) :
    (s.enter (.batch h (.node i g) last [])).stepUnder grants =
      s.enter (.rollBack h [] (.node i g) last .done) := by
  rcases s with ⟨store, references, handles, frames, events, answer⟩
  have hshut : store.shutdown = true := shut
  simp only [stepUnder, stepWith, enter, resume, closeBatch, hshut, if_true]

/-- As long as there are nodes, the payloads go to the private chain one after the other. -/
theorem through_build {first last first' last' : Link} {store : Store (Payload α)}
    (hbuilt : s.store.build grants first last ps = some (store, first', last')) :
    ∃ events, Through grants s.frames (s.enter (.batch h first last (ps.map .payload)))
      (({ s with store, events } : Session α).enter (.batch h first' last' [])) := by
  induction ps generalizing s first last with
  | nil =>
    cases hbuilt
    exact ⟨s.events, .here (over_enter s _)⟩
  | cons p ps ih =>
    cases hanswer : (s.store.allocate (s.store.grant grants) p).answer with
    | error failure =>
      simp only [Store.build, hanswer] at hbuilt
      cases hbuilt
    | ok l =>
      simp only [Store.build, hanswer] at hbuilt
      obtain ⟨lines, hstep⟩ := stepUnder_got h first last (ps.map .payload) hanswer
      obtain ⟨events, hrest⟩ := ih (s := { s with
        store := (s.store.allocate (s.store.grant grants) p).state.setNext l first
        events := lines.map Event.log ++ s.events }) hbuilt
      refine ⟨events, .onward (over_enter s _) ?_⟩
      rw [List.map_cons, hstep]
      exact hrest

/-- How far it comes: all payloads are linked, or it is going to be given up. Nothing but lines of
the log is noted on the way. -/
theorem through_stop (grants : Nat → Bool) (h : Nat) (first last : Link)
    (still : ∀ item ∈ items, item.isStill = true) :
    ∃ linked store first' last', ∃ lines : List LogLine,
      s.store.build grants first last linked = some (store, first', last') ∧
        (items = linked.map .payload ∧
            Through grants s.frames (s.enter (.batch h first last items))
              (({ s with store, events := lines.map Event.log ++ s.events } : Session α).enter
                (.batch h first' last' [])) ∨
          ∃ unused o, GivesUp s.store.arena.capacity items linked unused o ∧ o ≠ .done ∧
            Through grants s.frames (s.enter (.batch h first last items))
              (({ s with store, events := lines.map Event.log ++ s.events } : Session α).enter
                (.rollBack h unused first' last' o))) := by
  induction items generalizing s first last with
  | nil => exact ⟨[], s.store, first, last, [], rfl, .inl ⟨rfl, .here (over_enter s _)⟩⟩
  | cons item items ih =>
    cases item with
    | perform op => cases still _ List.mem_cons_self
    | panic message =>
      refine ⟨[], s.store, first, last, [], rfl, .inr ⟨Item.payloads items, .panicked message,
        .panicked [] message items, nofun, ?_⟩⟩
      exact .onward (over_enter s _) (.here (over_enter s _))
    | payload p =>
      cases hanswer : (s.store.allocate (s.store.grant grants) p).answer with
      | error failure =>
        obtain rfl := Store.allocate_error_capacity hanswer
        obtain ⟨lines, hstep⟩ := stepUnder_refused h first last items hanswer
        refine ⟨[], s.store, first, last, lines, rfl, .inr ⟨p :: Item.payloads items, _,
          .exhausted [] p items, nofun, .onward (over_enter s _) ?_⟩⟩
        rw [hstep]
        exact .here (over_enter _ _)
      | ok l =>
        obtain ⟨lines, hstep⟩ := stepUnder_got h first last items hanswer
        have hcapacity : ((s.store.allocate (s.store.grant grants) p).state.setNext l
            first).arena.capacity = s.store.arena.capacity :=
          congrArg Prod.snd (Store.extent_linked hanswer first)
        obtain ⟨linked, store, first', last', more, hbuilt, hends⟩ := ih (s := { s with
          store := (s.store.allocate (s.store.grant grants) p).state.setNext l first
          events := lines.map Event.log ++ s.events }) l (if first.isNil then l else last)
          fun item hitem => still item (List.mem_cons_of_mem _ hitem)
        refine ⟨p :: linked, store, first', last', more ++ lines, ?_, ?_⟩
        · simp only [Store.build, hanswer]
          exact hbuilt
        · rw [hcapacity] at hends
          rw [List.map_append, List.append_assoc]
          rcases hends with ⟨rfl, hway⟩ | ⟨unused, o, hgives, hne, hway⟩
          · refine .inl ⟨rfl, .onward (over_enter s _) ?_⟩
            rw [hstep]
            exact hway
          · refine .inr ⟨unused, o, hgives.cons p, hne, .onward (over_enter s _) ?_⟩
            rw [hstep]
            exact hway

/-- If a node is refused to a payload of a batch, the batch is going to say so. -/
theorem through_refused (h : Nat) (hnone : s.store.build grants .nil .nil ps = none) :
    ∃ t base, t.frames = base :: s.frames ∧
      base.givesUp = some (.exhausted ⟨s.store.arena.capacity⟩) ∧
        Through grants s.frames (s.enter (.batch h .nil .nil (ps.map .payload))) t := by
  have still : ∀ item ∈ ps.map (Item.payload : Payload α → Item α), item.isStill = true := by
    intro item hitem
    obtain ⟨p, -, rfl⟩ := List.mem_map.1 hitem
    rfl
  obtain ⟨linked, store, first, last, lines, hbuilt, ⟨hall, -⟩ | ⟨unused, o, hgives, hne, hway⟩⟩ :=
    through_stop grants h .nil .nil still
  · have hsame := congrArg Item.payloads hall
    rw [Item.payloads_map, Item.payloads_map] at hsame
    rw [hsame, hbuilt] at hnone
    cases hnone
  · refine ⟨_, .rollBack h unused first last o, rfl, congrArg some ?_, hway⟩
    generalize hitems : ps.map (Item.payload : Payload α → Item α) = items at hgives
    cases hgives with
    | exhausted => rfl
    | panicked _ message rest =>
      have hmem : Item.panic message ∈ ps.map Item.payload := by simp [hitems]
      obtain ⟨p, -, hp⟩ := List.mem_map.1 hmem
      cases hp
    | discarded => exact absurd rfl hne

/-- A handle has taken its turn, from the first state to the second. -/
structure Lands (s : Session α) (h : Nat) (turn : Turn (Payload α)) (t : Session α) : Prop where
  store : t.store = turn.store
  handles : t.handles = s.handles.set h (some (Seat.idle turn.context))
  references : t.references = s.references
  frames : t.frames = s.frames

/-- The end of a batch that has its nodes. -/
theorem stepUnder_close (grants : Nat → Bool) (first last : Link)
    (busy : s.seat? h = some ⟨c, true⟩)
    (running : s.store.shutdown = false) :
    ∃ t, (s.enter (.batch h first last [])).stepUnder grants = t.conclude .done ∧
      s.Lands h ((Turn.mk s.store c).place first last) t := by
  rcases s with ⟨store, references, handles, frames, events, answer⟩
  cases first with
  | nil =>
    refine ⟨(⟨store, references, handles, frames, events, answer⟩ : Session α).setBusy h false,
      rfl, rfl, ?_, rfl, rfl⟩
    rw [setBusy_eq busy]
    rfl
  | node i g =>
    refine ⟨(⟨store, references, handles, frames, events, answer⟩ : Session α).settle h
      ((Turn.mk store c).publish (.node i g) last), ?_, rfl, rfl, rfl, rfl⟩
    have hrunning : store.shutdown = false := running
    have hseat : Session.seat? ⟨store, references, handles, frames, events, answer⟩ h =
      some ⟨c, true⟩ := busy
    simp only [stepUnder, stepWith, enter, resume, closeBatch, hrunning, hseat,
      Bool.false_eq_true, if_false]

/-- A push or a batch that gets its nodes comes to have them all in its private chain. -/
theorem through_built (idle : s.idle? h = some c) (pushes : op.Pushes h (ps.map .payload))
    {store : Store (Payload α)} {first last : Link}
    (hbuilt : s.store.build grants .nil .nil ps = some (store, first, last)) :
    ∃ events, Through grants s.frames (s.enter (.perform op))
      (({ s.setBusy h true with store, events } : Session α).enter (.batch h first last [])) := by
  obtain ⟨events, hbuild⟩ := through_build (s := s.setBusy h true) (h := h) hbuilt
  refine ⟨events, .onward (over_enter s _) ?_⟩
  rw [stepUnder_pushes grants idle pushes]
  exact hbuild

/-- One that is refused a node comes to be given up for that. -/
theorem through_short (idle : s.idle? h = some c) (pushes : op.Pushes h (ps.map .payload))
    (hnone : s.store.build grants .nil .nil ps = none) :
    ∃ u base, u.frames = base :: s.frames ∧
      base.givesUp = some (.exhausted ⟨s.store.arena.capacity⟩) ∧
        Through grants s.frames (s.enter (.perform op)) u := by
  obtain ⟨u, base, frames, gives, hrefused⟩ := through_refused (s := s.setBusy h true) h hnone
  refine ⟨u, base, frames, gives, .onward (over_enter s _) ?_⟩
  rw [stepUnder_pushes grants idle pushes]
  exact hrefused

/-- A batch that gets its nodes returns, and has put them on the stack. -/
theorem returns_put {turn : Turn (Payload α)} (idle : s.idle? h = some c)
    (running : s.store.shutdown = false) (pushes : op.Pushes h (ps.map .payload))
    (hput : (Turn.mk s.store c).put grants ps = some turn) :
    ∃ t, (s.enter (.perform op)).Returns grants s.frames .done t ∧ s.Lands h turn t := by
  obtain ⟨⟨store, first, last⟩, hbuilt, rfl⟩ := Option.map_eq_some_iff.1 hput
  obtain ⟨-, hshut⟩ := Store.flags_build hbuilt
  have hseat := idle?_eq_some.1 idle
  obtain ⟨events, hway⟩ := through_built idle pushes hbuilt
  rw [setBusy_eq hseat] at hway
  have hbusy : ({ s.setSeat h (some ⟨c, true⟩) with store, events } : Session α).seat? h =
      some ⟨c, true⟩ :=
    (seat?_setSeat (lt_of_seat hseat) _ h).trans (if_pos rfl)
  obtain ⟨t, hclose, hlands⟩ := stepUnder_close grants first last hbusy (hshut.trans running)
  have hframes : t.frames = s.frames := hlands.frames
  refine ⟨t, ⟨hway.trans (.onward (over_enter _ _) ?_), hframes⟩, hlands.store,
    hlands.handles.trans (List.set_set _), hlands.references, hframes⟩
  rw [hclose]
  exact .here ⟨_, [], congrArg (Frame.finish .done :: ·) hframes⟩

/-- A batch that is refused a node says so in the end. -/
theorem Returns.exhausted (idle : s.idle? h = some c)
    (pushes : op.Pushes h (ps.map .payload)) (hput : (Turn.mk s.store c).put grants ps = none)
    (hreturns : (s.enter (.perform op)).Returns grants s.frames o t) :
    o = .exhausted ⟨s.store.arena.capacity⟩ := by
  obtain ⟨u, base, frames, gives, hway⟩ :=
    through_short idle pushes (Option.map_eq_none_iff.1 hput)
  have hrest := hreturns.after hway
  exact hrest.within.answered frames gives hrest.frames_conclude

/-- A batch returns as one that is done just where it gets its nodes. -/
theorem Returns.lands (idle : s.idle? h = some c) (running : s.store.shutdown = false)
    (pushes : op.Pushes h (ps.map .payload))
    (hreturns : (s.enter (.perform op)).Returns grants s.frames .done t) :
    ∃ turn, (Turn.mk s.store c).put grants ps = some turn ∧ s.Lands h turn t := by
  cases hput : (Turn.mk s.store c).put grants ps with
  | none => cases Returns.exhausted idle pushes hput hreturns
  | some turn =>
    obtain ⟨u, hreturns', hlands⟩ := returns_put idle running pushes hput
    obtain ⟨-, rfl⟩ := hreturns.unique hreturns'
    exact ⟨turn, rfl, hlands⟩

end Session

end RecyclingStack
