import RecyclingStack.Proofs.Memory.Extent
import RecyclingStack.Proofs.Session.Idle
import RecyclingStack.Proofs.Session.Shedding

/-! The stack after a shutdown. Nothing is put on it or taken off any more, and what is on it goes
with the stack itself. -/
namespace RecyclingStack

/-- What the end of the stack drops was on the stack, as long as nothing is published or popped. -/
theorem Ledger.Runs.ended_append {β : Type} {l m : Ledger β} {notes : List (Note β)}
    (h : Runs l notes m)
    (hnotes : ∀ note ∈ notes, note.isAside = true ∨ ∃ p, note = .destroyed p) :
    notes.flatMap Note.ended ++ m.stack = l.stack := by
  induction h with
  | nil => rfl
  | cons step rest ih =>
    have hrest := ih fun note hn => hnotes note (List.mem_cons_of_mem _ hn)
    rw [List.flatMap_cons, List.append_assoc, hrest]
    cases step with
    | published | popped =>
      rcases hnotes _ List.mem_cons_self with haside | ⟨p, hdestroyed⟩
      · cases haside
      · cases hdestroyed
    | opened | dropped | closed | destroyed => rfl

theorem Turn.pop_shut {β : Type} (t : Turn β) (hshut : t.store.shutdown = true) :
    t.pop = ⟨t, none, []⟩ := by
  simp only [pop, Store.unlink, hshut, Bool.or_true, if_true]

namespace Session

variable {α : Type} {s t : Session α} {f : Frame α} {below : List (Frame α)} {granted : Bool}

/-- A stack that is shut down, and the moves that may follow. -/
structure Frozen (s : Session α) : Prop where
  /-- The head and the chain stay, and so do the payloads until nothing refers to the stack. -/
  still : ∀ after, (s.play after).store.head = s.store.head ∧
    (s.play after).store.chain = s.store.chain ∧
      ((s.play after).isGone = false → (s.play after).store.values = s.store.values)
  /-- What the end of the stack drops are the payloads that are on it now, top first. -/
  ended : ∀ after, (s.trace after).flatMap Note.ended ++ (s.play after).store.values =
    s.store.values ∧ ((s.play after).frames = [] → (s.play after).isGone = true →
      (s.trace after).flatMap Note.ended = s.store.values)
  /-- The values dropped by a step are those of the payloads in its notes. -/
  dropped : ∀ after granted, ((s.play after).stepWith granted).shed =
    ((s.play after).notes.flatMap Note.shed).map Payload.value ++ (s.play after).shed
  /-- A pop by any idle handle gets nothing. -/
  pop : ∀ after {h c below} (granted : Bool), (s.play after).frames = .perform (.pop h) :: below →
    (s.play after).idle? h = some c →
      ((s.play after).stepWith granted).frames = .finish (.popped none) :: below
  /-- Several pops in a row get nothing more. -/
  pops : ∀ after {h limit got below} (granted : Bool),
    (s.play after).frames = .popUpTo h limit got :: below →
      ((s.play after).stepWith granted).frames = .finish (.values got.reverse) :: below
  /-- Pushes and pops change neither the epoch nor what any handle carries. -/
  counters : ∀ after {f below} (granted : Bool), (s.play after).frames = f :: below →
    f.isAside = false → ((s.play after).stepWith granted).store.epoch = (s.play after).store.epoch ∧
      ((s.play after).stepWith granted).contexts = (s.play after).contexts

theorem contexts_set {h : Nat} {c : Context} (hidle : s.idle? h = some c) :
    s.contexts.set h (some c) = s.contexts :=
  set_of_getElem? (contexts_of_seat (idle?_eq_some.1 hidle))

theorem Changes.head_eq (hc : s.Changes granted f t) (hshut : s.store.shutdown = true) :
    t.store.head = s.store.head := by
  cases hc with
  | rests rests => rw [rests.store]
  | leaves _ store => rw [store]; exact Store.head_orphan _ _
  | pops _ _ turns => rw [turns.store, Turn.pop_shut _ hshut]
  | advances _ turns | reclaims _ turns | setsOps _ turns =>
    exact (congrArg Store.head turns.store).trans rfl
  | registers _ store | setsEpoch _ store | shuts _ store | allocates _ store | frees store =>
    exact (congrArg Store.head store).trans rfl
  | publishes running => cases running.symm.trans hshut
  | empties _ take store =>
    exact (congrArg Store.head (store.trans (Store.takeValue_eq_some take).2)).trans rfl

/-- A step of a push or a pop changes no counter. -/
theorem Changes.counters_eq (hc : s.Changes granted f t) (hshut : s.store.shutdown = true)
    (hf : f.isAside = false) : t.store.epoch = s.store.epoch ∧ t.contexts = s.contexts := by
  cases hc with
  | rests rests => exact ⟨by rw [rests.store], rests.contexts⟩
  | pops _ idle turns =>
    obtain ⟨hstore, hcontexts⟩ := turns
    rw [Turn.pop_shut _ hshut] at hstore hcontexts
    exact ⟨by rw [hstore], hcontexts.trans (contexts_set idle)⟩
  | publishes running => cases running.symm.trans hshut
  | allocates _ store contexts | frees store contexts =>
    exact ⟨(congrArg Store.epoch store).trans rfl, contexts⟩
  | empties _ take store contexts =>
    exact ⟨(congrArg Store.epoch (store.trans (Store.takeValue_eq_some take).2)).trans rfl,
      contexts⟩
  | registers | leaves | advances | reclaims | setsOps | setsEpoch | shuts => cases hf

theorem shutdown_move (m : Move α) (hshut : s.store.shutdown = true) :
    (s.move m).store.shutdown = true := by
  cases m with
  | call op =>
    simp only [Session.move]
    split <;> exact hshut
  | go granted => exact shutdown_stepWith granted hshut

theorem head_move (m : Move α) (hshut : s.store.shutdown = true) :
    (s.move m).store.head = s.store.head := by
  rcases s.changes_move m with hrests | ⟨granted, f, below, rfl, frames, hchanges⟩
  · rw [hrests.store]
  · exact hchanges.head_eq hshut

theorem shutdown_play (moves : List (Move α)) (hshut : s.store.shutdown = true) :
    (s.play moves).store.shutdown = true := by
  induction moves generalizing s with
  | nil => exact hshut
  | cons m moves ih => exact ih (shutdown_move m hshut)

/-- A pop after shutdown takes nothing, so that no note tells of it. -/
theorem poppable_shut (hshut : s.store.shutdown = true) (h : Nat) : s.poppable h = none := by
  rw [poppable]
  cases s.idle? h with
  | none => rfl
  | some c => exact congrArg Effect.answer (Turn.pop_shut ⟨s.store, c⟩ hshut)

section

variable {dead : List Link} {live : Load (Payload α)} {held : List (Load (Payload α))}

/-- A chain is what it was as long as its first link is. -/
theorem Sound.chain_move (hs : s.Sound dead live held) (m : Move α)
    (hhead : (s.move m).store.head = s.store.head) : (s.move m).store.chain = s.store.chain := by
  obtain ⟨_, _, _, hmoved, -⟩ := hs.move m
  have hbefore := hs.partitioned
  have hafter := hmoved.partitioned
  have hnode : ∀ {t : Session α}, t.Partitioned → ∀ l ∈ t.store.chain, l ≠ .nil := by
    rintro t ht l hl rfl
    cases ht.link_eq (Partitioned.mem_places_of_chain hl)
  have hstack := hbefore.stack
  have hstack' := hafter.stack
  rw [hhead] at hstack'
  cases hchain : s.store.chain with
  | nil =>
    rw [hchain] at hstack
    rw [show s.store.head = .nil from hstack] at hstack'
    cases hchain' : (s.move m).store.chain with
    | nil => rfl
    | cons l below =>
      rw [hchain'] at hstack'
      exact absurd hstack'.1.symm (hnode hafter l (hchain' ▸ List.mem_cons_self))
  | cons l below =>
    rw [hchain] at hstack
    rw [hstack.1] at hstack'
    cases hchain' : (s.move m).store.chain with
    | nil =>
      rw [hchain'] at hstack'
      exact absurd hstack' (hnode hbefore l (hchain ▸ List.mem_cons_self))
    | cons l' below' =>
      rw [hchain'] at hstack'
      obtain rfl := hstack'.1
      have hmem : l ∈ (s.move m).store.chain := hchain' ▸ List.mem_cons_self
      have hsuffix := ((hs.drift m).stack l below (hchain ▸ List.suffix_rfl)).resolve_right
        (hafter.not_idle hmem)
      rw [show (s.move m).scene.store.chain = l :: below' from hchain'] at hsuffix
      refine ((List.suffix_cons_iff.1 hsuffix).resolve_right fun hlow => ?_).symm
      have hnodup := hafter.nodup
      simp only [places, List.append_assoc, List.map_append] at hnodup
      have hnodup := (List.nodup_append.1 hnodup).1
      rw [hchain', List.map_cons] at hnodup
      exact (List.nodup_cons.1 hnodup).1
        (List.mem_map_of_mem (hlow.subset List.mem_cons_self))

theorem Sound.chain_play (hs : s.Sound dead live held) (hshut : s.store.shutdown = true)
    (moves : List (Move α)) : (s.play moves).store.head = s.store.head ∧
      (s.play moves).store.chain = s.store.chain := by
  induction moves generalizing s dead live held with
  | nil => exact ⟨rfl, rfl⟩
  | cons m moves ih =>
    obtain ⟨_, _, _, hmoved, -⟩ := hs.move m
    obtain ⟨hhead, hchain⟩ := ih hmoved (shutdown_move m hshut)
    have hfirst := head_move m hshut
    exact ⟨hhead.trans hfirst, hchain.trans (hs.chain_move m hfirst)⟩

end

/-- A step after shutdown adds nothing to the payloads on the stack, and only the end of the stack
takes some. -/
theorem notesOf_shut (hshut : s.store.shutdown = true) (f : Frame α) :
    ∀ note ∈ s.notesOf f, note.isAside = true ∨ f.cursor?.isSome ∧ ∃ p, note = .destroyed p := by
  cases hf : f.mayAlter with
  | false => exact fun note hnote => .inl (notesOf_aside hf note hnote)
  | true =>
    intro note hnote
    cases f with
    | perform op =>
      cases op with
      | pop h =>
        rw [notesOf, poppable_shut hshut] at hnote
        cases hnote
      | _ => cases hf
    | popUpTo h limit got =>
      rw [notesOf, poppable_shut hshut] at hnote
      split at hnote <;> cases hnote
    | batch h first last items =>
      cases items with
      | cons item rest => cases hf
      | nil =>
        simp only [notesOf, hshut, if_true] at hnote
        split at hnote
        · rw [List.mem_singleton.1 hnote]
          exact .inl rfl
        · cases hnote
    | destroy cursor dropped =>
      simp only [notesOf] at hnote
      split at hnote
      · cases hnote
      · exact .inr ⟨rfl, _, List.mem_singleton.1 hnote⟩
    | _ => cases hf

theorem notes_shut (hshut : s.store.shutdown = true) (m : Move α) : ∀ note ∈ s.moveNotes m,
    note.isAside = true ∨ s.cursors ≠ [] ∧ ∃ p, note = .destroyed p := by
  intro note hnote
  cases m with
  | call op => cases hnote
  | go granted =>
    rw [moveNotes, notes] at hnote
    split at hnote
    · cases hnote
    · rename_i f below frames
      refine (notesOf_shut (s := { s with frames := below }) hshut f note hnote).imp_right ?_
      rintro ⟨hcursor, hdestroyed⟩
      refine ⟨fun hnone => ?_, hdestroyed⟩
      obtain ⟨cursor, hcursor⟩ := Option.isSome_iff_exists.1 hcursor
      rw [cursors, frames, List.filterMap_cons_some hcursor] at hnone
      cases hnone

theorem notes_trace (hshut : s.store.shutdown = true) (moves : List (Move α)) :
    ∀ note ∈ s.trace moves, note.isAside = true ∨ ∃ p, note = .destroyed p := by
  induction moves generalizing s with
  | nil => exact fun _ h => by cases h
  | cons m moves ih =>
    intro note hnote
    rcases List.mem_append.1 hnote with hfirst | hrest
    · exact (notes_shut hshut m note hfirst).imp_right And.right
    · exact ih (shutdown_move m hshut) note hrest

theorem gone_play (hgone : s.isGone = true) (moves : List (Move α)) :
    (s.play moves).isGone = true := by
  induction moves generalizing s with
  | nil => exact hgone
  | cons m moves ih =>
    apply ih
    cases m with
    | call op =>
      simp only [Session.move]
      split <;> exact hgone
    | go granted => exact gone_stepWith hgone granted

section

variable {dead : List Link} {live : Load (Payload α)} {held : List (Load (Payload α))}

/-- As long as anything refers to the stack its end is not under way. -/
theorem Sound.trace_aside (hs : s.Sound dead live held) (hshut : s.store.shutdown = true)
    {moves : List (Move α)} (halive : (s.play moves).isGone = false) :
    ∀ note ∈ s.trace moves, note.isAside = true := by
  induction moves generalizing s dead live held with
  | nil => exact fun _ h => by cases h
  | cons m moves ih =>
    have hhere : s.isGone = false := by
      cases hgone : s.isGone with
      | false => rfl
      | true => exact (gone_play hgone (m :: moves)).symm.trans halive
    intro note hnote
    rcases List.mem_append.1 hnote with hfirst | hrest
    · refine (notes_shut hshut m note hfirst).resolve_right fun hdestroyed => ?_
      exact hdestroyed.1 (hs.alive hhere).2
    · obtain ⟨_, _, _, hmoved, -⟩ := hs.move m
      exact ih hmoved (shutdown_move m hshut) halive note hrest

theorem Sound.values_play (hs : s.Sound dead live held) (hshut : s.store.shutdown = true)
    {moves : List (Move α)} (halive : (s.play moves).isGone = false) :
    (s.play moves).store.values = s.store.values := by
  obtain ⟨_, _, _, hplayed, hruns⟩ := hs.play moves
  rw [hplayed.values_eq, hs.values_eq]
  exact hruns.stack_eq (hs.trace_aside hshut halive)

theorem Sound.ended_play (hs : s.Sound dead live held) (hshut : s.store.shutdown = true)
    (moves : List (Move α)) :
    (s.trace moves).flatMap Note.ended ++ (s.play moves).store.values = s.store.values := by
  obtain ⟨_, _, _, hplayed, hruns⟩ := hs.play moves
  rw [hplayed.values_eq, hs.values_eq]
  exact hruns.ended_append (notes_trace hshut moves)

theorem Sound.frozen (hs : s.Sound dead live held) (hshut : s.store.shutdown = true) :
    s.Frozen where
  still := fun after => ⟨(hs.chain_play hshut after).1, (hs.chain_play hshut after).2,
    fun halive => hs.values_play hshut halive⟩
  ended := by
    intro after
    have hended := hs.ended_play hshut after
    refine ⟨hended, fun hframes hgone => ?_⟩
    obtain ⟨_, _, _, hplayed, -⟩ := hs.play after
    rwa [(hplayed.ledger_idle hframes).2 hgone, List.append_nil] at hended
  dropped := fun after granted => (s.play after).shed_stepWith granted
  pop := by
    intro after h c below granted frames hidle
    have hpop := Turn.pop_shut ⟨(s.play after).store, c⟩ (shutdown_play after hshut)
    rw [stepWith_cons granted frames]
    simp only [resume, perform, withHandle]
    rw [show ({ s.play after with frames := below } : Session α).seat? h = some ⟨c, false⟩ from
      idle?_eq_some.1 hidle]
    dsimp only
    rw [hpop]
    rfl
  pops := by
    intro after h limit got below granted frames
    rw [stepWith_cons granted frames]
    simp only [resume]
    split
    · rfl
    · cases ({ s.play after with frames := below } : Session α).idle? h with
      | none => rfl
      | some c =>
        have hpop := Turn.pop_shut ⟨(s.play after).store, c⟩ (shutdown_play after hshut)
        dsimp only
        rw [hpop]
        rfl
  counters := fun after _ _ granted frames hf =>
    ((s.play after).steps_stepWith granted frames).changes.counters_eq
      (shutdown_play after hshut) hf

end

/-- Once the stack is shut down, in any state of any run, it is frozen; and a push or a batch that
is over then, whenever it began, has itself dropped everything it was given. -/
theorem frozen_play (p : Plan) (moves : List (Move α)) :
    (((ofPlan p : Session α).play moves).store.shutdown = true →
        ((ofPlan p : Session α).play moves).Frozen) ∧
      ∀ {op : Op α} {items : List (Item α)} {below : List (Frame α)} {t : Session α}
        {o : Outcome α}, ((ofPlan p : Session α).play moves).frames = .perform op :: below →
        op.items = some items → Within below ((ofPlan p : Session α).play moves) t →
        t.frames = .finish o :: below → (∀ reason, o ≠ .refused reason) →
        t.store.shutdown = true →
          (∃ shed, Sheds below ((ofPlan p : Session α).play moves) t shed) ∧
            ∀ shed, Sheds below ((ofPlan p : Session α).play moves) t shed →
              shed.Perm ((Item.payloads items).map Payload.value) := by
  obtain ⟨_, _, _, hs, -⟩ := (sound_ofPlan (α := α) p).play moves
  refine ⟨hs.frozen, fun frames given hw hend accepted hshut => ⟨hw.sheds, fun shed hsheds => ?_⟩⟩
  exact hsheds.all_given hs frames given hend accepted hshut

/-- Steps with something under way all the time and nothing below it. -/
theorem within_play (s : Session α) {n : Nat}
    (h : ∀ k ≤ n, (s.play (List.replicate k (.go true))).frames.isEmpty = false) :
    Within [] s (s.play (List.replicate n (.go true))) := by
  have hover : ∀ {t : Session α}, t.frames.isEmpty = false → t.Over [] := by
    intro t ht
    cases hframes : t.frames with
    | nil =>
      rw [hframes] at ht
      cases ht
    | cons f top => exact ⟨f, top, hframes.trans (by rw [List.append_nil])⟩
  induction n with
  | zero => exact .start (hover (h 0 (Nat.le_refl 0)))
  | succ n ih =>
    have hlast := hover (h (n + 1) (Nat.le_refl _))
    rw [List.replicate_succ', play_append] at hlast ⊢
    exact .step true (ih fun k hk => h k (Nat.le_succ_of_le hk)) hlast

/-- A batch has the stack shut down before its second payload. -/
def closing : List (Move Nat) :=
  Move.inTurn 4 [.register 0, .push 0 (.plain 1)] ++
    [.call (.pushBatch 0 [.payload (.plain 2), .perform (.shutdown 0), .payload (.plain 3)])]

def closed : Session Nat :=
  ((ofPlan .default).play closing).play (List.replicate 13 (.go true))

theorem frozen_closed : closed.store.shutdown = true ∧ closed.Frozen ∧
    ∃ shed, Sheds [] ((ofPlan .default).play closing) closed shed ∧ shed.Perm [2, 3] := by
  have hshut : closed.store.shutdown = true := by decide +kernel
  have hplay : closed = (ofPlan .default).play (closing ++ List.replicate 13 (.go true)) :=
    (play_append _ _ _).symm
  have hwithin : Within [] ((ofPlan .default).play closing) closed :=
    within_play _ (by decide +kernel)
  have hfrozen := (frozen_play (α := Nat) .default (closing ++ List.replicate 13 (.go true))).1
  obtain ⟨⟨shed, hsheds⟩, hperm⟩ := (frozen_play .default closing).2 (t := closed) rfl rfl hwithin
    (o := .done) rfl (fun _ h => by cases h) hshut
  rw [← hplay] at hfrozen
  exact ⟨hshut, hfrozen hshut, shed, hsheds, hperm shed hsheds⟩

end Session

end RecyclingStack
