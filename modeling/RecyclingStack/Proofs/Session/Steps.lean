import RecyclingStack.Proofs.Session.Changes

/-! One step of a session, frame by frame: the nodes stay where they belong, the ledger follows the
notes, and what lies below the frame that goes on is left alone. -/
namespace RecyclingStack

namespace Session

variable {α : Type} {s t : Session α} {f : Frame α} {dead : List Link}
  {live u : Load (Payload α)} {held : List (Load (Payload α))} {l : Ledger (Payload α)}
  {notes : List (Note (Payload α))}

/-- The state after a step that found the ledger `l` and the loads `held` below the frame on top. -/
def Follows (t : Session α) (l : Ledger (Payload α)) (notes : List (Note (Payload α)))
    (held : List (Load (Payload α))) : Prop :=
  ∃ dead live held', t.Sound dead live held' ∧ Ledger.Runs l notes (t.ledger live held') ∧
    held <:+ held'

theorem ledger_enter (s : Session α) (f : Frame α) (live u : Load (Payload α))
    (held : List (Load (Payload α))) :
    (s.enter f).ledger live (u :: held) =
      ⟨(f.content u).toList ++ calls s.frames held, live.values⟩ :=
  congrArg (fun c => Ledger.mk c live.values) (calls_cons f s.frames u held)

theorem ledger_enter_light (hf : f.isLight = true) :
    (s.enter f).ledger live ([] :: held) = s.ledger live held := by
  rw [ledger_enter, Frame.content_light hf]
  rfl

theorem Follows.of_sound (h : t.Sound dead live held) :
    t.Follows (t.ledger live held) [] held :=
  ⟨dead, live, held, h, .nil _, List.suffix_rfl⟩

theorem Follows.enter (hf : f.isLight = true) (hc : f.cursor? = none) (h : t.Follows l notes held) :
    (t.enter f).Follows l notes held := by
  obtain ⟨dead, live, held', h, hruns, hsuffix⟩ := h
  refine ⟨dead, live, [] :: held', h.enter hf hc, ?_, hsuffix.trans (List.suffix_cons _ _)⟩
  rwa [ledger_enter_light hf]

theorem Follows.of_eq (h : s.Follows l notes held) (hstore : t.store = s.store)
    (hreferences : t.references = s.references) (hhandles : t.handles = s.handles)
    (hframes : t.frames = s.frames) : t.Follows l notes held := by
  obtain ⟨dead, live, held', h, hruns, hsuffix⟩ := h
  refine ⟨dead, live, held', h.of_eq hstore hreferences hhandles hframes, ?_, hsuffix⟩
  rwa [ledger, hframes]

theorem Follows.conclude (o : Outcome α) (h : t.Follows l notes held) :
    (t.conclude o).Follows l notes held :=
  h.enter rfl rfl

theorem follows_withReference {go : Session α} {r : Nat} (h : s.Sound dead live held)
    (hgo : s.refers r = true → go.Follows (s.ledger live held) [] held) :
    (s.withReference r go).Follows (s.ledger live held) [] held := by
  unfold withReference
  split
  · rename_i hr
    exact hgo hr
  · exact (Follows.of_sound h).conclude _

theorem follows_withHandle {go : Context → Session α} {h : Nat} (hs : s.Sound dead live held)
    (hnotes : s.idle? h = none → notes = [])
    (hgo : ∀ c, s.seat? h = some ⟨c, false⟩ → (go c).Follows (s.ledger live held) notes held) :
    (s.withHandle h go).Follows (s.ledger live held) notes held := by
  unfold withHandle
  cases hseat : s.seat? h with
  | none =>
    obtain rfl := hnotes (by rw [idle?, hseat])
    exact (Follows.of_sound hs).conclude _
  | some seat =>
    rcases seat with ⟨c, _ | _⟩
    · exact hgo c hseat
    · obtain rfl := hnotes (by rw [idle?, hseat]; rfl)
      exact (Follows.of_sound hs).conclude _

theorem Sound.settle {β : Type} {c : Context} {h : Nat} {live' : Load (Payload α)}
    {e : Effect (Turn (Payload α)) β} (hs : s.Sound [] live held)
    (hseat : s.seat? h = some ⟨c, false⟩)
    (htidy : e.state.Tidy live'.strand
      (held.map Load.strand ++ Strand.loose (s.setSeat h none).vacant)) :
    (s.settle h e).Sound [] live' held := by
  have hlt := lt_of_seat hseat
  have hkept : ({ s with store := e.state.store }.setSeat h
      (some (Seat.idle e.state.context))).Kept [] live' held := hs.toKept.turn hseat htidy
  have hsound := Sound.of_alive hkept (not_gone_of_seat (h := h)
    (by rw [seat?_setSeat (s := { s with store := e.state.store }) hlt, if_pos rfl]))
    (hs.of_seat hseat).2
  exact hsound.of_eq rfl rfl rfl rfl

theorem follows_settle {β : Type} {c : Context} {h : Nat} {e : Effect (Turn (Payload α)) β}
    (hs : s.Sound dead live held) (hseat : s.seat? h = some ⟨c, false⟩)
    (htidy : ∀ {stack : Strand (Payload α)} {rest : List (Strand (Payload α))},
      (Turn.mk s.store c).Tidy stack rest → e.state.Tidy stack rest) :
    (s.settle h e).Follows (s.ledger live held) [] held := by
  obtain ⟨rfl, -⟩ := hs.of_seat hseat
  exact ⟨[], live, held, hs.settle hseat (htidy (hs.toKept.tidy_turn hseat)), .nil _,
    List.suffix_rfl⟩

theorem Sound.pop {c : Context} {h : Nat} (hs : s.Sound dead live held)
    (hseat : s.seat? h = some ⟨c, false⟩) (hshut : s.store.shutdown = false) :
    (Turn.mk s.store c).pop.answer = live.values.head? ∧
      (s.settle h (Turn.mk s.store c).pop).Sound dead live.tail held := by
  obtain ⟨rfl, -⟩ := hs.of_seat hseat
  have htidy := hs.toKept.tidy_turn hseat
  cases live with
  | nil =>
    rw [Turn.pop_none htidy (.inl rfl)]
    exact ⟨rfl, hs.settle hseat htidy⟩
  | cons n live =>
    obtain ⟨hanswer, htidy⟩ := Turn.pop_tidy (c := ⟨n.1, .full n.2⟩) htidy rfl hshut
    exact ⟨hanswer, hs.settle hseat htidy⟩

theorem follows_pop {c : Context} {h : Nat} (hs : s.Sound dead live held)
    (hseat : s.seat? h = some ⟨c, false⟩) :
    (s.settle h (Turn.mk s.store c).pop).Follows (s.ledger live held)
      ((Turn.mk s.store c).pop.answer.toList.map Note.popped) held := by
  cases hshut : s.store.shutdown with
  | true =>
    have hnone := Turn.pop_none (hs.toKept.tidy_turn hseat) (.inr hshut)
    rw [hnone]
    exact follows_settle (e := ⟨Turn.mk s.store c, none, []⟩) hs hseat fun h => h
  | false =>
    obtain ⟨hanswer, hsound⟩ := hs.pop hseat hshut
    refine ⟨dead, live.tail, held, hsound, ?_, List.suffix_rfl⟩
    rw [hanswer]
    cases live with
    | nil => exact .nil _
    | cons n live => exact .single (.popped n.2 _ _)

/-- When the last reference or handle goes, the end of the stack begins. -/
theorem follows_afterDrop (hk : t.Kept [] live held) (hc : t.cursors = []) :
    t.afterDrop.Follows (t.ledger live held) [] held := by
  unfold afterDrop
  split
  · rename_i hgone
    refine ⟨[], live, [] :: [] :: held, ⟨(hk.enter rfl).enter rfl, ?_, ?_⟩, ?_, ?_⟩
    · exact fun hnot => absurd (hnot.symm.trans hgone) Bool.false_ne_true
    · refine fun _ => .inl ?_
      have hhead : (t.conclude .done).store.head = live.strand.first := hk.tidy.head_eq
      rw [cursors_enter, Session.conclude, cursors_enter, hc]
      exact congrArg (fun l => [l]) hhead
    · rw [ledger_enter_light rfl, Session.conclude, ledger_enter_light rfl]
      exact .nil _
    · exact (List.suffix_cons _ _).trans (List.suffix_cons _ _)
  · rename_i hnot
    exact (Follows.of_sound (.of_alive hk (Bool.eq_false_iff.2 hnot) hc)).conclude _

/-- A handle goes, and leaves its deferred nodes to the orphans. -/
theorem follows_dropHandle {c : Context} {h : Nat} {log : List LogLine}
    (hs : s.Sound dead live held) (hseat : s.seat? h = some ⟨c, false⟩) :
    ((({ s with store := (Turn.mk s.store c).abandon.state }.setSeat h none).recordLog
      log).afterDrop).Follows (s.ledger live held) [] held := by
  obtain ⟨rfl, hc⟩ := hs.of_seat hseat
  have hlt := lt_of_seat hseat
  suffices hk : (({ s with store := (Turn.mk s.store c).abandon.state }.setSeat h none).recordLog
      log).Kept [] live held from follows_afterDrop hk hc
  refine ⟨?_, hs.owned, hs.single, fun k => ?_⟩
  · exact Turn.abandon_tidy (hs.toKept.tidy_turn hseat)
  · apply (hs.busy k).trans
    have hset := seat?_setSeat (s := { s with store := (Turn.mk s.store c).abandon.state }) hlt
      none k
    refine Iff.trans ?_ (Iff.of_eq (congrArg (fun x => ∃ context, x = some (Seat.mk context true))
      hset.symm))
    split
    · rename_i heq
      subst heq
      rw [hseat]
      constructor <;> (rintro ⟨c, hc⟩; cases hc)
    · exact Iff.rfl

theorem follows_openBatch {c : Context} {h : Nat} {items : List (Item α)}
    (hs : s.Sound dead live held) (hseat : s.seat? h = some ⟨c, false⟩) :
    (s.openBatch h items).Follows (s.ledger live held) [.opened (Item.payloads items)] held := by
  obtain ⟨rfl, hc⟩ := hs.of_seat hseat
  have hkept : (s.openBatch h items).Kept [] live ([] :: held) :=
    hs.toKept.occupy hseat rfl rfl ⟨rfl, rfl⟩
  refine ⟨[], live, [] :: held, .of_alive hkept ?_ hc, .single ?_, List.suffix_cons _ _⟩
  · have hset := seat?_setSeat (lt_of_seat hseat) (some ⟨c, true⟩) h
    rw [if_pos rfl, ← setBusy_eq hseat true] at hset
    exact not_gone_of_seat (s := s.openBatch h items) hset
  · exact .opened _ _ _

theorem Sound.withStore {store : Store (Payload α)} (hs : s.Sound dead live held)
    (harena : store.arena = s.store.arena) (hroot : ∀ r, store.root r = s.store.root r) :
    ({ s with store } : Session α).Sound dead live held :=
  ⟨⟨hs.tidy.of_eq harena hroot, hs.owned, hs.single, hs.busy⟩, hs.alive, hs.gone⟩

theorem Sound.cloneReference (hs : s.Sound dead live held) {r : Nat} (hr : s.refers r = true) :
    ({ s with references := s.references ++ [true] } : Session α).Sound dead live held := by
  obtain ⟨rfl, hc⟩ := hs.alive (not_gone_of_refers hr)
  refine .of_alive ⟨hs.tidy, hs.owned, hs.single, hs.busy⟩ ?_ hc
  exact not_gone_of_refers (r := s.references.length) (by simp [refers])

theorem Sound.register (hs : s.Sound dead live held) {r : Nat} (hr : s.refers r = true) :
    ({ s with handles := s.handles ++ [some (Seat.idle (Context.register s.store))] } :
      Session α).Sound dead live held := by
  obtain ⟨rfl, hc⟩ := hs.alive (not_gone_of_refers hr)
  have hseat : ∀ k, ({ s with handles := s.handles ++
      [some (Seat.idle (Context.register s.store))] } : Session α).seat? k =
        if k = s.handles.length then some (Seat.idle (Context.register s.store))
        else s.seat? k := by
    intro k
    simp only [seat?, List.getElem?_append]
    split
    · rw [if_neg (by omega)]
    split
    · subst k
      simp
    · rw [List.getElem?_eq_none (by simp; omega), List.getElem?_eq_none (by omega)]
  refine .of_alive ⟨?_, hs.owned, hs.single, fun k => (hs.busy k).trans ?_⟩ ?_ hc
  · have hvacant :
        ({ s with handles := s.handles ++ [some (Seat.idle (Context.register s.store))] } :
          Session α).vacant = s.vacant := by
      simp [vacant, deferred, Seat.idle, Context.register, RetireList.empty, RetireList.links]
    rw [hvacant]
    exact hs.tidy
  · rw [hseat]
    split
    · subst k
      rw [seat?, List.getElem?_eq_none (Nat.le_refl _)]
      constructor <;> (rintro ⟨c, hc⟩; cases hc)
    · exact Iff.rfl
  · exact not_gone_of_seat ((hseat s.handles.length).trans (if_pos rfl))

theorem openedBy_idle {h : Nat} {c : Context} (hseat : s.seat? h = some ⟨c, false⟩)
    (given : List (Payload α)) : s.openedBy h given = [.opened given] := by
  rw [openedBy, idle?_eq_some.2 hseat]
  rfl

theorem openedBy_none {h : Nat} (hidle : s.idle? h = none) (given : List (Payload α)) :
    s.openedBy h given = [] := by
  rw [openedBy, hidle]
  rfl

/-- An operation that is performed opens a call if it is a push or a batch, takes the top of the
stack if it is a pop, and moves no payload otherwise. -/
theorem follows_perform (hs : s.Sound dead live held) (op : Op α) :
    (s.perform op).Follows (s.ledger live held) (s.notesOf (.perform op)) held := by
  have hquiet := Follows.of_sound hs
  cases op with
  | cloneReference r =>
    exact follows_withReference hs fun hr => (Follows.of_sound (hs.cloneReference hr)).conclude _
  | dropReference r =>
    apply follows_withReference hs
    intro hr
    obtain ⟨rfl, hc⟩ := hs.alive (not_gone_of_refers hr)
    exact follows_afterDrop ⟨hs.tidy, hs.owned, hs.single, hs.busy⟩ hc
  | register r =>
    exact follows_withReference hs fun hr => (Follows.of_sound (hs.register hr)).conclude _
  | dropHandle h =>
    simp only [perform, notesOf]
    exact follows_withHandle hs (fun _ => rfl) fun c hseat => follows_dropHandle hs hseat
  | push h p =>
    simp only [perform, notesOf]
    apply follows_withHandle hs (fun hidle => openedBy_none hidle _)
    intro c hseat
    rw [openedBy_idle hseat]
    exact follows_openBatch hs hseat
  | pushBatch h items =>
    simp only [perform, notesOf]
    apply follows_withHandle hs (fun hidle => openedBy_none hidle _)
    intro c hseat
    rw [openedBy_idle hseat]
    exact follows_openBatch hs hseat
  | pushEach h values =>
    simp only [perform, notesOf]
    exact follows_withHandle hs (fun _ => rfl) fun c hseat => hquiet.enter rfl rfl
  | pop h =>
    simp only [perform, notesOf]
    refine follows_withHandle hs (fun hidle => ?_) fun c hseat => ?_
    · rw [poppable, hidle]
      rfl
    · rw [poppable, idle?_eq_some.2 hseat]
      exact (follows_pop hs hseat).conclude _
  | popUpTo h limit =>
    simp only [perform, notesOf]
    exact follows_withHandle hs (fun _ => rfl) fun c hseat => hquiet.enter rfl rfl
  | advance h =>
    simp only [perform, notesOf]
    exact follows_withHandle hs (fun _ => rfl) fun c hseat =>
      (follows_settle hs hseat Turn.advance_tidy).conclude _
  | reclaim h =>
    simp only [perform, notesOf]
    exact follows_withHandle hs (fun _ => rfl) fun c hseat =>
      (follows_settle hs hseat Turn.reclaim_tidy).conclude _
  | shutdown r =>
    refine follows_withReference hs fun _ => .conclude _ ?_
    unfold shutDown
    split
    · exact hquiet
    · have hdown : ({ s with store := { s.store with shutdown := true } } : Session α).Sound
          dead live held := hs.withStore rfl fun r => by cases r <;> rfl
      exact (Follows.of_sound hdown).of_eq rfl rfl rfl rfl
  | setEpoch r epoch =>
    exact follows_withReference hs fun _ => .conclude _
      (.of_sound (hs.withStore rfl fun r => by cases r <;> rfl))
  | setOps h ops =>
    simp only [perform, notesOf]
    refine follows_withHandle hs (fun _ => rfl) fun c hseat => .conclude _ ?_
    exact follows_settle (e := ⟨⟨s.store, { c with ops }⟩, (), []⟩) hs hseat fun h => h
  | askStack r question => exact follows_withReference hs fun _ => hquiet.conclude _
  | askHandle h question =>
    simp only [perform, notesOf]
    exact follows_withHandle hs (fun _ => rfl) fun c hseat => hquiet.conclude _
  | refused reason => exact hquiet.conclude _

theorem follows_deliver (hs : s.Sound dead live held) (o : Outcome α) :
    (s.deliver o).Follows (s.ledger live held) [] held := by
  have hquiet := Follows.of_sound hs
  rcases s with ⟨store, references, handles, frames, events, answer⟩
  cases frames with
  | nil => exact hquiet.of_eq rfl rfl rfl rfl
  | cons f frames =>
    cases f with
    | pushEach h rest pushed =>
      obtain ⟨held, rfl, hbelow⟩ := Sound.leave (f := .pushEach h rest pushed)
        (s := ⟨store, references, handles, frames, events, answer⟩) rfl rfl hs
      have hswap : ∀ f : Frame α, f.isLight = true → f.cursor? = none →
          (⟨store, references, handles, f :: frames, events, answer⟩ : Session α).Follows
            ((⟨store, references, handles, frames, events, answer⟩ : Session α).ledger live held) []
            ([] :: held) := fun f hf hc =>
        ⟨dead, live, [] :: held, hbelow.enter hf hc, ledger_enter_light hf ▸ .nil _,
          List.suffix_rfl⟩
      cases o <;> exact hswap _ rfl rfl
    | _ => exact hquiet.of_eq rfl rfl rfl rfl

theorem follows_hook (hs : s.Sound dead live held) (granted : Bool) (ops : List (Op α)) :
    (s.resume granted (.hook ops)).Follows (s.ledger live held) [] held := by
  cases ops with
  | nil => exact .of_sound hs
  | cons op rest => exact ((Follows.of_sound hs).enter rfl rfl).enter rfl rfl

theorem follows_pushEach (hs : s.Sound dead live held) (granted : Bool) (h : Nat) (values : List α)
    (pushed : Nat) :
    (s.resume granted (.pushEach h values pushed)).Follows (s.ledger live held) [] held := by
  cases values with
  | nil => exact (Follows.of_sound hs).conclude _
  | cons v rest => exact ((Follows.of_sound hs).enter rfl rfl).enter rfl rfl

theorem follows_popUpTo (hs : s.Sound dead live held) (granted : Bool) (h : Nat)
    (limit : Option Nat) (got : List α) :
    (s.resume granted (.popUpTo h limit got)).Follows (s.ledger live held)
      (s.notesOf (.popUpTo h limit got)) held := by
  simp only [resume, notesOf]
  split
  · exact (Follows.of_sound hs).conclude _
  · cases hidle : s.idle? h with
    | none =>
      rw [poppable, hidle]
      exact (Follows.of_sound hs).conclude _
    | some c =>
      have hpop := follows_pop hs (idle?_eq_some.1 hidle)
      rw [poppable, hidle, Option.bind_some]
      dsimp only
      split
      · exact hpop.conclude _
      · exact hpop.enter rfl rfl

/-- While such a frame is there its handle is, and the stack holds values only. -/
theorem Sound.holding {h : Nat} (hs : (s.enter f).Sound dead live held) (hf : f.holder = some h)
    (hc : f.cursor? = none) :
    ∃ c, s.seat? h = some ⟨c, true⟩ ∧ dead = [] ∧ s.cursors = [] := by
  obtain ⟨c, hseat⟩ := hs.toKept.exists_seat hf
  obtain ⟨hdead, hcursors⟩ := hs.of_seat (s := s.enter f) hseat
  rw [cursors_enter, hc] at hcursors
  exact ⟨c, hseat, hdead, hcursors⟩

theorem Sound.replace {store : Store (Payload α)} {g : Frame α} {w : Load (Payload α)} {h : Nat}
    (hs : (s.enter f).Sound dead live (u :: held)) (hf : f.holder = some h)
    (hc : f.cursor? = none) (hg : g.holder = some h) (hd : g.cursor? = none) (howns : g.Owns w)
    (htidy : store.Tidy live.strand
      (w.strand :: (held.map Load.strand ++ Strand.loose (g.vacant ++ s.vacant)))) :
    ({ s with store }.enter g).Sound [] live (w :: held) := by
  obtain ⟨c, hseat, rfl, hcursors⟩ := hs.holding hf hc
  refine .of_alive (hs.toKept.replace (hg.trans hf.symm) howns htidy) ?_ ?_
  · exact not_gone_of_seat (s := { s with store }.enter g) hseat
  · rw [cursors_enter, hd]
    exact hcursors

theorem Sound.close {c : Context} {store : Store (Payload α)} {live' : Load (Payload α)} {h : Nat}
    (hs : (s.enter f).Sound dead live (u :: held)) (hf : f.holder = some h) (hc : f.cursor? = none)
    (htidy : (Turn.mk store c).Tidy live'.strand
      (held.map Load.strand ++ Strand.loose (s.setSeat h none).vacant)) :
    ({ s with store }.setSeat h (some (Seat.idle c))).Sound [] live' held := by
  obtain ⟨old, hseat, rfl, hcursors⟩ := hs.holding hf hc
  refine .of_alive (hs.toKept.settle hf htidy) ?_ hcursors
  exact not_gone_of_seat (h := h) (by
    rw [seat?_setSeat (s := { s with store }) (lt_of_seat hseat), if_pos rfl])

theorem Sound.first_eq_nil {h : Nat} {first last : Link} {rest : List (Item α)}
    (hs : (s.enter (.batch h first last rest)).Sound dead live (u :: held)) :
    first = .nil ↔ u = [] := by
  have htidy : s.store.Tidy _ (u.strand :: (held.map Load.strand ++ Strand.loose s.vacant)) :=
    hs.tidy
  obtain ⟨hfirst, -⟩ : first = u.strand.first ∧ last = u.strand.last :=
    (List.forall₂_cons.1 hs.owned).1
  rw [hfirst]
  constructor
  · exact fun hnil => by_contra fun hu => htidy.first_ne_nil (Load.strand_ne_nil hu) hnil
  · rintro rfl
    rfl

/-- The frame of a handle goes, and the handle is idle again. -/
theorem Sound.shut {c : Context} {store : Store (Payload α)} {h : Nat}
    (hs : (s.enter f).Sound dead live (u :: held)) (hf : f.holder = some h) (hc : f.cursor? = none)
    (hseat : s.seat? h = some ⟨c, true⟩)
    (htidy : store.Tidy live.strand (held.map Load.strand ++ Strand.loose s.vacant)) :
    (({ s with store } : Session α).setBusy h false).Sound [] live held := by
  rw [setBusy_eq (s := { s with store }) hseat]
  refine hs.close hf hc (htidy.perm ?_)
  refine .trans (.append_left _ (Strand.loose_perm (vacant_perm hseat))) ?_
  rw [Strand.loose_append]
  exact List.perm_append_comm_assoc _ _ _

theorem Sound.publish {c : Context} {h : Nat} {first last : Link}
    (hs : (s.enter (.batch h first last [])).Sound dead live (u :: held))
    (hseat : s.seat? h = some ⟨c, true⟩) (hu : u ≠ []) :
    (s.settle h ((Turn.mk s.store c).publish first last)).Sound dead (u ++ live) held := by
  obtain ⟨-, -, rfl, -⟩ := hs.holding rfl rfl
  obtain ⟨rfl, rfl⟩ : first = u.strand.first ∧ last = u.strand.last :=
    (List.forall₂_cons.1 hs.owned).1
  have hturn : (Turn.mk s.store c).Tidy live.strand
      (u.strand :: (held.map Load.strand ++ Strand.loose (s.setSeat h none).vacant)) :=
    hs.toKept.tidy_turn (s := s.enter _) hseat
  have hpublished := Turn.publish_tidy (Load.strand_ne_nil hu) hturn
  rw [← Load.strand_append] at hpublished
  exact (hs.close rfl rfl hpublished).of_eq rfl rfl rfl rfl

/-- A batch whose items have all come is over if it is empty, is given up if the stack was shut
down, and goes on the stack otherwise. -/
theorem follows_closeBatch {h : Nat} {first last : Link}
    (hs : (s.enter (.batch h first last [])).Sound dead live (u :: held)) :
    (s.closeBatch h first last).Follows ((s.enter (.batch h first last [])).ledger live (u :: held))
      (s.notesOf (.batch h first last [])) held := by
  obtain ⟨c, hseat, rfl, -⟩ := hs.holding rfl rfl
  have htidy : s.store.Tidy live.strand
      (u.strand :: (held.map Load.strand ++ Strand.loose s.vacant)) := hs.tidy
  have howns : first = u.strand.first ∧ last = u.strand.last := (List.forall₂_cons.1 hs.owned).1
  have hnil := hs.first_eq_nil
  rw [ledger_enter]
  cases first with
  | nil =>
    obtain rfl := hnil.1 rfl
    refine Follows.conclude _ ⟨[], live, held, ?_, .single (.closed _ _), List.suffix_rfl⟩
    exact hs.shut rfl rfl hseat htidy.dropNil
  | node i g =>
    have hu : u ≠ [] := fun hu => Link.noConfusion (hnil.2 hu)
    simp only [closeBatch, notesOf, Link.isNil, Bool.false_eq_true, if_false]
    split
    · refine ⟨[], live, u :: held, hs.replace rfl rfl rfl rfl howns htidy, ?_,
        List.suffix_cons _ _⟩
      rw [ledger_enter]
      exact .nil _
    · rw [hseat]
      refine Follows.conclude _ ⟨[], u ++ live, held, hs.publish hseat hu, .single ?_,
        List.suffix_rfl⟩
      have hvalues : (u ++ live).values = u.values.reverse.reverse ++ live.values := by
        simp [Load.values]
      have hgiven : u.values.reverse ++ Item.payloads ([] : List (Item α)) = u.values.reverse :=
        List.append_nil _
      rw [ledger, hvalues, Frame.content, hgiven]
      exact .published _ _ _

theorem Sound.build {h : Nat} {first last l : Link} {granted : Bool} {p : Payload α}
    {rest : List (Item α)}
    (hs : (s.enter (.batch h first last (.payload p :: rest))).Sound dead live (u :: held))
    (hok : (s.store.allocate granted p).answer = .ok l) :
    (({ s with store := (s.store.allocate granted p).state.setNext l first } : Session α).enter
      (.batch h l (if first.isNil then l else last) rest)).Sound dead live
        (((l, p) :: u) :: held) := by
  obtain ⟨c, hseat, rfl, -⟩ := hs.holding rfl rfl
  have hnil := hs.first_eq_nil
  obtain ⟨hfirst, hlast⟩ : first = u.strand.first ∧ last = u.strand.last :=
    (List.forall₂_cons.1 hs.owned).1
  have htidy : s.store.Tidy live.strand
      (u.strand :: (held.map Load.strand ++ Strand.loose s.vacant)) := hs.tidy
  have hlinked := (htidy.allocate hok).link
  rw [← hfirst] at hlinked
  refine hs.replace rfl rfl rfl rfl ⟨rfl, ?_⟩ hlinked
  cases first with
  | nil =>
    obtain rfl := hnil.1 rfl
    rfl
  | node i g =>
    have hu : u ≠ [] := fun hu => Link.noConfusion (hnil.2 hu)
    rw [Load.strand_cons, Strand.last_cons _ (Load.strand_ne_nil hu)]
    exact hlast

theorem follows_batch {h : Nat} {first last : Link} (granted : Bool) (items : List (Item α))
    (hs : (s.enter (.batch h first last items)).Sound dead live (u :: held)) :
    (s.resume granted (.batch h first last items)).Follows
      ((s.enter (.batch h first last items)).ledger live (u :: held))
      (s.notesOf (.batch h first last items)) held := by
  cases items with
  | nil => exact follows_closeBatch hs
  | cons item rest =>
    obtain ⟨c, hseat, rfl, -⟩ := hs.holding rfl rfl
    have htidy : s.store.Tidy live.strand
        (u.strand :: (held.map Load.strand ++ Strand.loose s.vacant)) := hs.tidy
    have howns : first = u.strand.first ∧ last = u.strand.last := (List.forall₂_cons.1 hs.owned).1
    rw [ledger_enter]
    cases item with
    | perform op =>
      refine Follows.enter rfl rfl ⟨[], live, u :: held,
        hs.replace rfl rfl rfl rfl howns htidy, ?_, List.suffix_cons _ _⟩
      rw [ledger_enter]
      exact .nil _
    | panic message =>
      refine ⟨[], live, u :: held, hs.replace rfl rfl rfl rfl howns htidy, ?_,
        List.suffix_cons _ _⟩
      rw [resume, ledger_enter]
      exact .nil _
    | payload p =>
      simp only [resume, notesOf]
      cases hanswer : (s.store.allocate granted p).answer with
      | error failure =>
        have hsame := Store.allocate_error hanswer
        refine ⟨[], live, u :: held, ?_, ?_, List.suffix_cons _ _⟩
        · have hrolled : (s.enter (.rollBack h (p :: Item.payloads rest) first last
              (.exhausted failure))).Sound [] live (u :: held) :=
            hs.replace rfl rfl rfl rfl howns htidy
          exact hrolled.of_eq hsame rfl rfl rfl
        · rw [ledger_enter]
          exact .nil _
      | ok l =>
        refine ⟨[], live, ((l, p) :: u) :: held, ?_, ?_, List.suffix_cons _ _⟩
        · exact (hs.build hanswer).of_eq rfl rfl rfl rfl
        · rw [ledger_enter]
          have hcontent : (Load.values ((l, p) :: u)).reverse ++ Item.payloads rest =
              u.values.reverse ++ Item.payloads (.payload p :: rest) := by
            simp [Load.values, Item.payloads]
          rw [Frame.content, Frame.content, hcontent]
          exact .nil _

/-- The value in front of a private chain is taken out, to be dropped. -/
theorem Sound.spill {h : Nat} {l cursor last : Link} {p : Payload α} {o : Outcome α}
    (hs : (s.enter (.rollBack h [] cursor last o)).Sound dead live (((l, p) :: u) :: held)) :
    cursor = l ∧
    s.store.takeValue l = some (p, s.store.withArena (s.store.arena.clearValue l)) ∧
      (({ s with store := s.store.withArena (s.store.arena.clearValue l) } : Session α).enter
        (.release h l (s.store.arena.next l) last o)).Sound dead live (u :: held) := by
  obtain ⟨c, hseat, rfl, -⟩ := hs.holding rfl rfl
  have htidy : s.store.Tidy live.strand
      ((⟨l, .full p⟩ :: u.strand) :: (held.map Load.strand ++ Strand.loose s.vacant)) := hs.tidy
  obtain ⟨hcursor, hlast⟩ : cursor = l ∧ last = Strand.last (Load.strand ((l, p) :: u)) :=
    (List.forall₂_cons.1 hs.owned).1
  obtain ⟨htake, htaken⟩ := htidy.takeValue rfl
  refine ⟨hcursor, htake, hs.replace rfl rfl rfl rfl ?_ (htaken.perm ?_)⟩
  · rcases u with _ | ⟨m, u⟩
    · exact .inl ⟨rfl, hlast.symm⟩
    · have hu : Load.strand (m :: u) ≠ [] := Load.strand_ne_nil (by simp)
      rw [Load.strand_cons, Strand.last_cons _ hu] at hlast
      refine .inr ⟨by simp, ?_, htidy.next_eq hu, hlast⟩
      obtain ⟨d, hd, hdl⟩ := Strand.exists_last hu
      rw [hlast, ← hdl]
      exact (htidy.link_ne hd).symm
  · exact (List.Perm.swap _ _ _).trans (.cons _ List.perm_middle.symm)

theorem takeValue_nil (s : Store (Payload α)) : s.takeValue .nil = none := rfl

/-- A batch that is given up drops what it holds, one payload at a time. -/
theorem follows_rollBack {h : Nat} {cursor last : Link} (granted : Bool)
    (unused : List (Payload α)) {o : Outcome α}
    (hs : (s.enter (.rollBack h unused cursor last o)).Sound dead live (u :: held)) :
    (s.resume granted (.rollBack h unused cursor last o)).Follows
      ((s.enter (.rollBack h unused cursor last o)).ledger live (u :: held))
      (s.notesOf (.rollBack h unused cursor last o)) held := by
  obtain ⟨c, hseat, rfl, -⟩ := hs.holding rfl rfl
  have htidy : s.store.Tidy live.strand
      (u.strand :: (held.map Load.strand ++ Strand.loose s.vacant)) := hs.tidy
  have howns : cursor = u.strand.first ∧ last = u.strand.last := (List.forall₂_cons.1 hs.owned).1
  rw [ledger_enter]
  cases unused with
  | cons p unused =>
    have hnext : ((s.enter (.rollBack h unused cursor last o)).enter (.hook p.onDrop)).Follows
        ⟨(u.values.reverse ++ p :: unused) :: calls s.frames held, live.values⟩ [.dropped p]
        held := by
      refine Follows.enter rfl rfl ⟨[], live, u :: held,
        hs.replace rfl rfl rfl rfl howns htidy, .single ?_, List.suffix_cons _ _⟩
      rw [ledger_enter]
      exact .dropped _ _ _ _ _
    exact hnext.of_eq rfl rfl rfl rfl
  | nil =>
    cases u with
    | nil =>
      obtain ⟨rfl, rfl⟩ := howns
      refine Follows.conclude o ⟨[], live, held, ?_, .single (.closed _ _), List.suffix_rfl⟩
      exact hs.shut rfl rfl hseat htidy.dropNil
    | cons n u =>
      obtain ⟨l, p⟩ := n
      obtain ⟨rfl, htake, hspilled⟩ := hs.spill
      have hnext : (({ s with store := s.store.withArena (s.store.arena.clearValue cursor) }.enter
          (.release h cursor (s.store.arena.next cursor) last o)).enter (.hook p.onDrop)).Follows
          ⟨((Load.values u).reverse ++ p :: []) :: calls s.frames held, live.values⟩
          [.dropped p] held := by
        refine Follows.enter rfl rfl ⟨[], live, u :: held, hspilled, .single ?_,
          List.suffix_cons _ _⟩
        have hdropped := Ledger.Step.dropped (Load.values u).reverse [] p (calls s.frames held)
          live.values
        rw [List.append_nil] at hdropped
        rw [ledger_enter]
        exact hdropped
      have hcontent : (Load.values ((cursor, p) :: u)).reverse ++ [] =
          (Load.values u).reverse ++ p :: [] := by
        simp [Load.values]
      simp only [resume, notesOf, htake]
      rw [Frame.content, hcontent]
      exact hnext.of_eq rfl rfl rfl rfl

/-- A node whose value was dropped goes back to the free list, and the rest of the chain follows. -/
theorem follows_release {h : Nat} {node next last : Link} (granted : Bool) {o : Outcome α}
    (hs : (s.enter (.release h node next last o)).Sound dead live (u :: held)) :
    (s.resume granted (.release h node next last o)).Follows
      ((s.enter (.release h node next last o)).ledger live (u :: held))
      (s.notesOf (.release h node next last o)) held := by
  obtain ⟨c, hseat, rfl, -⟩ := hs.holding rfl rfl
  have htidy : s.store.Tidy live.strand (u.strand :: (held.map Load.strand ++
      Strand.loose ([node] ++ s.vacant))) := hs.tidy
  have hfreed : (s.store.deallocate node).Tidy live.strand
      (u.strand :: (held.map Load.strand ++ Strand.loose s.vacant)) := by
    refine (htidy.perm ?_).deallocate
    exact (List.Perm.cons _ List.perm_middle).trans (.swap _ _ _)
  rw [ledger_enter]
  simp only [resume, notesOf]
  rcases (List.forall₂_cons.1 hs.owned).1 with ⟨rfl, rfl⟩ | ⟨hu, hne, hnext, hlast⟩
  · rw [if_pos rfl, if_pos rfl]
    refine Follows.conclude o ⟨[], live, held, ?_, .single (.closed _ _), List.suffix_rfl⟩
    exact hs.shut rfl rfl hseat hfreed.dropNil
  · rw [if_neg hne, if_neg hne]
    refine ⟨[], live, u :: held, hs.replace rfl rfl rfl rfl ⟨hnext, hlast⟩ hfreed, ?_,
      List.suffix_cons _ _⟩
    rw [ledger_enter, Frame.content, Frame.content, List.append_nil]
    exact .nil _

theorem Kept.calls_of_gone (hs : s.Kept dead live held) (hgone : s.isGone = true) :
    calls s.frames held = [] := by
  refine calls_of_no_holder (List.eq_nil_iff_forall_not_mem.2 fun h hmem => ?_) held
  obtain ⟨c, hseat⟩ := (hs.busy h).1 hmem
  rw [seat?_of_gone hgone] at hseat
  cases hseat

/-- The end of the stack is under way only when nothing is left, and stands at the first node
that still has its value. -/
theorem Sound.destroying {cursor : Link} {dropped : Nat}
    (hs : (s.enter (.destroy cursor dropped)).Sound dead live held) :
    s.isGone = true ∧ cursor = live.strand.first ∧ s.cursors = [] := by
  have halive := hs.alive
  have hgone := hs.gone
  rw [cursors_enter] at halive hgone
  cases h : s.isGone with
  | false => cases (halive h).2
  | true =>
    rcases hgone h with hc | ⟨hc, -⟩
    · exact ⟨rfl, (List.cons.inj hc).1, (List.cons.inj hc).2⟩
    · cases hc

/-- The end of the stack drops the values that are left on it, top first. -/
theorem follows_destroy {cursor : Link} (granted : Bool) (dropped : Nat)
    (hs : (s.enter (.destroy cursor dropped)).Sound dead live ([] :: held)) :
    (s.resume granted (.destroy cursor dropped)).Follows
      ((s.enter (.destroy cursor dropped)).ledger live ([] :: held))
      (s.notesOf (.destroy cursor dropped)) held := by
  obtain ⟨hgone, rfl, hcursors⟩ := hs.destroying
  obtain ⟨_, heq, hkept⟩ := hs.toKept.leave rfl
  obtain rfl := (List.cons.inj heq).2
  have hcalls := hkept.calls_of_gone hgone
  have hnot : ∀ {p : Prop}, s.isGone = false → p := fun h =>
    absurd (h.symm.trans hgone) Bool.false_ne_true
  cases live with
  | nil =>
    have hsound : s.Sound dead [] held := ⟨hkept, hnot, fun _ => .inr ⟨hcursors, rfl⟩⟩
    rw [ledger_enter_light rfl]
    simp only [resume, notesOf, Load.strand, List.map_nil, Strand.first_nil, takeValue_nil]
    split
    · exact .of_sound hsound
    · exact (Follows.of_sound hsound).of_eq rfl rfl rfl rfl
  | cons n live =>
    obtain ⟨l, p⟩ := n
    obtain ⟨htake, hspent, hnext⟩ := Store.Tidy.spend (c := ⟨l, .full p⟩) hkept.tidy rfl
    have hdead : Strand.idle dead ++ Cell.spent l :: Load.strand live =
        Strand.idle (dead ++ [l]) ++ Load.strand live := by simp [Strand.idle]
    have htidy : (s.store.withArena (s.store.arena.clearValue l)).Tidy
        (Strand.idle (dead ++ [l]) ++ Load.strand live)
        (held.map Load.strand ++ Strand.loose s.vacant) := hdead ▸ hspent
    have hstep : (({ s with store := s.store.withArena (s.store.arena.clearValue l) }.enter
        (.destroy (s.store.arena.next l) (dropped + 1))).enter (.hook p.onDrop)).Follows
          ⟨[], p :: Load.values live⟩ [.destroyed p] held := by
      refine Follows.enter rfl rfl ⟨dead ++ [l], live, [] :: held,
        ⟨Kept.enter rfl ⟨htidy, hkept.owned, hkept.single, hkept.busy⟩, hnot, fun _ => .inl ?_⟩,
        .single ?_, List.suffix_cons _ _⟩
      · rw [cursors_enter, hnext]
        exact congrArg ((Load.strand live).first :: ·) hcursors
      · rw [ledger_enter_light rfl, ledger, hcalls]
        exact .destroyed _ _
    rw [ledger_enter_light rfl, ledger, hcalls]
    simp only [resume, notesOf, Load.strand_cons, Strand.first_cons]
    rw [htake]
    exact hstep.of_eq rfl rfl rfl rfl

theorem follows_resume (granted : Bool) (hs : (s.enter f).Sound dead live (u :: held)) :
    (s.resume granted f).Follows ((s.enter f).ledger live (u :: held)) (s.notesOf f) held := by
  have hlight : f.isLight = true → f.cursor? = none →
      (s.Sound dead live held → (s.resume granted f).Follows (s.ledger live held) (s.notesOf f)
        held) → (s.resume granted f).Follows ((s.enter f).ledger live (u :: held)) (s.notesOf f)
          held := by
    intro hf hc hgo
    obtain ⟨_, heq, hbelow⟩ := hs.leave hf hc
    obtain ⟨rfl, rfl⟩ := List.cons.inj heq
    rw [ledger_enter_light hf]
    exact hgo hbelow
  cases f with
  | perform op => exact hlight rfl rfl fun h => follows_perform h op
  | hook rest => exact hlight rfl rfl fun h => follows_hook h granted rest
  | finish o => exact hlight rfl rfl fun h => follows_deliver h o
  | pushEach h values pushed =>
    exact hlight rfl rfl fun hb => follows_pushEach hb granted h values pushed
  | popUpTo h limit got => exact hlight rfl rfl fun hb => follows_popUpTo hb granted h limit got
  | batch h first last items => exact follows_batch granted items hs
  | rollBack h unused cursor last o => exact follows_rollBack granted unused hs
  | release h node next last o => exact follows_release granted hs
  | destroy cursor dropped =>
    obtain ⟨_, heq, -⟩ := hs.toKept.leave rfl
    obtain ⟨rfl, rfl⟩ := List.cons.inj heq
    exact follows_destroy granted dropped hs

/-- A step keeps the nodes where they belong, and its notes lead from the ledger before it to the
one after it. What the frames below the top hold stays with them. -/
theorem Sound.step (hs : s.Sound dead live held) (granted : Bool) :
    (s.stepWith granted).Follows (s.ledger live held) s.notes held.tail := by
  rcases s with ⟨store, references, handles, frames, events, answer⟩
  cases frames with
  | nil =>
    cases held with
    | nil => exact .of_sound hs
    | cons u held => cases hs.owned
  | cons f frames =>
    cases held with
    | nil => cases hs.owned
    | cons u held =>
      exact follows_resume (s := ⟨store, references, handles, frames, events, answer⟩) granted hs

end Session

end RecyclingStack
