import RecyclingStack.Proofs.Session.Deregistering

/-! The epochs of retirement on record in a session, with the handles and with the orphans. Each
was once the epoch of the session, so that none is ahead of it as long as it does not go back. -/
namespace RecyclingStack

namespace Turn

variable {β : Type} {t : Turn β} {stack : Strand β} {rest : List (Strand β)} {E : Nat}

/-- An epoch of retirement is on record, with the handle at work or with the orphans. -/
def Records (t : Turn β) (E : Nat) : Prop :=
  E ∈ t.context.deferred.epochs ∨ E ∈ t.store.orphanTags

section

variable (h : t.context.deferred.InOrder)
include h

theorem records_reclaim (hE : t.reclaim.state.Records E) : t.Records E := by
  rcases hE with hE | hE
  · rw [epochs_reclaim h] at hE
    exact List.mem_append.1 ((perm_byKey _ _).mem_iff.1 (List.mem_filter.1 hE).1)
  · rw [orphanTags_reclaim] at hE
    cases hE

theorem records_advance (hE : t.advance.state.Records E) : t.Records E :=
  records_reclaim (t := t.ticked) h hE

theorem records_complete (hE : t.complete.state.Records E) : t.Records E := by
  simp only [complete] at hE
  split at hE
  · exact records_reclaim
      (t := ⟨{ t.store with epoch := nextWord t.store.epoch }, t.context.count⟩) h hE
  · exact hE

theorem records_retired {c : Cell β} (htidy : t.Tidy (c :: stack) rest)
    (hE : (t.retired c.link).Records E) : t.Records E ∨ E = t.store.epoch := by
  rcases hE with hE | hE
  · rw [show (t.retired c.link).context.deferred.epochs = _ from h.epochs_push _ _] at hE
    rcases List.mem_append.1 ((perm_byKey _ _).mem_iff.1 hE) with hE | hE
    · exact .inl (.inl hE)
    · exact .inr (List.mem_singleton.1 hE)
  · rw [orphanTags_retired htidy] at hE
    exact .inl (.inr hE)

theorem records_pop {live : Load β} (htidy : t.Tidy live.strand rest)
    (hE : t.pop.state.Records E) : t.Records E ∨ E = t.store.epoch := by
  have hnone : live.strand = [] ∨ t.store.shutdown = true → t.Records E ∨ E = t.store.epoch := by
    intro hnone
    rw [pop_none htidy hnone] at hE
    exact .inl hE
  cases hshut : t.store.shutdown with
  | true => exact hnone (.inr hshut)
  | false =>
    cases live with
    | nil => exact hnone (.inl rfl)
    | cons n live =>
      rw [(retired_tidy (c := ⟨n.1, .full n.2⟩) htidy rfl hshut).1] at hE
      exact records_retired h htidy (records_complete (h.push n.1 t.store.epoch) hE)

theorem records_publish {u : Strand β} (hne : u ≠ []) (htidy : t.Tidy stack (u :: rest))
    (hE : (t.publish u.first u.last).state.Records E) : t.Records E := by
  have hE := records_complete (t := { t with store := t.store.publish u.first u.last }) h hE
  rwa [Records, orphanTags_publish hne htidy] at hE

end

theorem Tagged.records_abandon (h : t.Tagged) (htidy : t.Tidy stack rest)
    (hE : E ∈ t.abandon.state.orphanTags) : t.Records E := by
  rw [h.orphanTags_abandon htidy] at hE
  exact records_reclaim h.inOrder (.inl hE)

end Turn

namespace Session

variable {α : Type} {s t : Session α} {f : Frame α} {granted : Bool} {h E : Nat} {c : Context}
  {dead : List Link} {live u : Load (Payload α)} {held : List (Load (Payload α))}

/-- An epoch of retirement is on record, with some handle or with the orphans. -/
def Records (s : Session α) (E : Nat) : Prop :=
  E ∈ s.store.orphanTags ∨
    ∃ (k : Nat) (c : Context), s.contexts[k]? = some (some c) ∧ E ∈ c.deferred.epochs

theorem records_of_turn {seat : Seat} (hseat : s.seat? h = some seat)
    (hE : (Turn.mk s.store seat.context).Records E) : s.Records E :=
  hE.symm.imp_right fun hE => ⟨h, seat.context, contexts_of_seat hseat, hE⟩

/-- What is on record after a step was so before, or is the epoch of that moment. -/
theorem Changes.records (hs : (s.enter f).Sound dead live (u :: held)) (htagged : s.Tagged)
    (hc : s.Changes granted f t) (hE : t.Records E) : s.Records E ∨ E = s.store.epoch := by
  have hturn : ∀ {h : Nat} {seat : Seat}, s.seat? h = some seat →
      (Turn.mk s.store seat.context).Tagged := fun hseat => htagged _ _ (contexts_of_seat hseat)
  rcases hE with hE | ⟨k, c, hk, hE⟩
  · rcases hc.orphanTags hs with hsame | hnone | ⟨h, c, hidle, hleft⟩
    · exact .inl (.inl (hsame ▸ hE))
    · rw [hnone] at hE
      cases hE
    · have hseat := idle?_eq_some.1 hidle
      rw [hleft] at hE
      exact .inl (records_of_turn hseat ((hturn hseat).records_abandon
        (hs.toKept.tidy_turn (s := s.enter f) hseat) hE))
  suffices hall : ∀ (k : Nat) (c : Context), t.contexts[k]? = some (some c) →
      E ∈ c.deferred.epochs → s.Records E ∨ E = s.store.epoch from hall k c hk hE
  refine hc.each (P := fun turn => E ∈ turn.context.deferred.epochs → _)
    (fun k c hk hE => .inl (.inr ⟨k, c, hk, hE⟩)) (fun hE => by cases hE) fun turn htakes hE => ?_
  cases htakes with
  | pops idle =>
    have hseat := idle?_eq_some.1 idle
    obtain ⟨rfl, -⟩ := hs.of_seat (s := s.enter f) hseat
    exact (Turn.records_pop (hturn hseat).inOrder (hs.toKept.tidy_turn (s := s.enter f) hseat)
      (.inl hE)).imp_left (records_of_turn hseat)
  | advances idle =>
    have hseat := idle?_eq_some.1 idle
    exact .inl (records_of_turn hseat (Turn.records_advance (hturn hseat).inOrder (.inl hE)))
  | reclaims idle =>
    have hseat := idle?_eq_some.1 idle
    exact .inl (records_of_turn hseat (Turn.records_reclaim (hturn hseat).inOrder (.inl hE)))
  | setsOps idle => exact .inl (records_of_turn (idle?_eq_some.1 idle) (.inl hE))
  | publishes seated =>
    obtain ⟨hu, hfirst, hlast⟩ := hs.chain_held
    rw [hfirst, hlast] at hE
    exact .inl (records_of_turn seated (Turn.records_publish (hturn seated).inOrder hu
      (hs.toKept.tidy_turn (s := s.enter _) seated) (.inl hE)))

def Timely (s : Session α) : Prop := ∀ E, s.Records E → E ≤ s.store.epoch

theorem timely_ofPlan (p : Plan) : (ofPlan p : Session α).Timely := by
  rintro E (hE | ⟨k, c, hc, -⟩)
  · cases hE
  · cases hc

theorem Timely.move (htimely : s.Timely) (hs : s.Sound dead live held) (htagged : s.Tagged)
    (m : Move α) (hepoch : s.store.epoch ≤ (s.move m).store.epoch) : (s.move m).Timely := by
  intro E hE
  suffices hbefore : s.Records E ∨ E = s.store.epoch by
    refine Nat.le_trans ?_ hepoch
    exact hbefore.elim (htimely E) Nat.le_of_eq
  rcases s.changes_move m with hrests | ⟨granted, f, below, rfl, frames, hchanges⟩
  · rw [Records, hrests.store, hrests.contexts] at hE
    exact .inl hE
  · obtain ⟨u, rest, rfl, htop⟩ := hs.of_frames frames
    exact Changes.records (s := { s with frames := below }) htop htagged hchanges hE

/-- Along the moves the epoch does not go back. -/
def Climbs (s : Session α) : List (Move α) → Prop
  | [] => True
  | m :: moves => s.store.epoch ≤ (s.move m).store.epoch ∧ (s.move m).Climbs moves

instance decidableClimbs : (s : Session α) → (moves : List (Move α)) → Decidable (s.Climbs moves)
  | _, [] => .isTrue trivial
  | s, m :: moves =>
    have := decidableClimbs (s.move m) moves
    inferInstanceAs (Decidable (_ ∧ _))

/-- Advances, if not too many, let the epoch climb. -/
theorem Advancing.climbs {moves : List (Move α)} (h : s.Advancing moves) : s.Climbs moves := by
  induction moves generalizing s with
  | nil => trivial
  | cons m moves ih => exact ⟨h.le_move, ih h.2.2⟩

theorem Climbs.of_append {moves more : List (Move α)} (h : s.Climbs (moves ++ more)) :
    s.Climbs moves ∧ (s.play moves).Climbs more := by
  induction moves generalizing s with
  | nil => exact ⟨trivial, h⟩
  | cons m moves ih =>
    obtain ⟨hfirst, hlater⟩ := ih h.2
    exact ⟨⟨h.1, hfirst⟩, hlater⟩

theorem Sound.timely_play (hs : s.Sound dead live held) (htagged : s.Tagged)
    (htimely : s.Timely) {moves : List (Move α)} (hclimbs : s.Climbs moves) :
    (s.play moves).Timely := by
  induction moves generalizing s dead live held with
  | nil => exact htimely
  | cons m moves ih =>
    obtain ⟨_, _, _, hmoved, -⟩ := hs.move m
    exact ih hmoved (htagged.move hs m) (htimely.move hs htagged m hclimbs.1) hclimbs.2

end Session

end RecyclingStack
