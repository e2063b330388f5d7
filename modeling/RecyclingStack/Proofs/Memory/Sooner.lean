import Mathlib.Data.List.Perm.Subperm
import RecyclingStack.Proofs.Memory.Epochs

/-! Two stacks that differ in the grace period alone. A node that one of them retires the other one
retires at the same epoch, though in another slot, so that the two are compared by the epochs of
retirement on record: with the shorter grace period there are never more of them, on the list of a
handle or on the orphan chain. -/
namespace RecyclingStack

/-- The first grace period is at most the second, and nothing but the count of operations makes a
handle advance the epoch by itself. -/
structure Settings.Sooner (a b : Settings) : Prop where
  grace : a.gracePeriod ≤ b.gracePeriod
  interval : a.advanceInterval = b.advanceInterval
  unlimited : a.retireThreshold = none ∧ b.retireThreshold = none

/-- The first store is at the epoch of the second, and has no more orphans of any epoch. -/
structure Store.Sooner {β : Type} (s t : Store β) : Prop where
  settings : s.settings.Sooner t.settings
  epoch : s.epoch = t.epoch
  shutdown : s.shutdown = t.shutdown
  orphans : s.orphanTags.Subperm t.orphanTags

/-- The first handle has no more nodes deferred of any epoch. -/
structure Context.Sooner (c d : Context) : Prop where
  snapshot : c.snapshot = d.snapshot
  ops : c.ops = d.ops
  epochs : c.deferred.epochs.Subperm d.deferred.epochs

/-- What is due with the longer grace period is due with the shorter one. -/
theorem Settings.Sooner.spared {a b : Settings} (h : a.Sooner b) (E epoch : Nat)
    (hspared : reclaimable E epoch a.gracePeriod = false) :
    reclaimable E epoch b.gracePeriod = false := by
  have hgrace := h.grace
  simp only [reclaimable, decide_eq_false_iff_not] at hspared ⊢
  omega

theorem Context.Sooner.mustAdvance_eq {a b : Settings} {c d : Context} (h : c.Sooner d)
    (hs : a.Sooner b) : c.mustAdvance a = d.mustAdvance b := by
  simp only [mustAdvance, hs.unlimited.1, hs.unlimited.2, hs.interval, h.ops]

/-- Sorting a list that is part of another one gives part of what sorting that one gives. -/
theorem byKey_subperm {γ : Type} (key : γ → Nat) {l m : List γ} (h : l.Subperm m) :
    (byKey key l).Subperm (byKey key m) :=
  (perm_byKey key l).subperm.trans (h.trans (perm_byKey key m).symm.subperm)

/-- A node more for each handle, under the same epoch. -/
theorem Context.Sooner.defer {c d : Context} (h : c.Sooner d) (hc : c.deferred.InOrder)
    (hd : d.deferred.InOrder) (l m : Link) {epoch epoch' : Nat} (hepoch : epoch = epoch') :
    (c.defer l epoch).Sooner (d.defer m epoch') where
  snapshot := h.snapshot
  ops := h.ops
  epochs := by
    rw [Context.defer, Context.defer, hc.epochs_push, hd.epochs_push, hepoch]
    exact byKey_subperm id (h.epochs.append (.refl _))

theorem Context.Sooner.count {c d : Context} (h : c.Sooner d) : c.count.Sooner d.count :=
  ⟨h.snapshot, congrArg nextWord h.ops, h.epochs⟩

namespace Store.Sooner

variable {β : Type} {s t : Store β}

/-- Values are taken out of nodes that are not retired. -/
theorem clear (h : s.Sooner t) (l m : Link) :
    (s.withArena (s.arena.clearValue l)).Sooner (t.withArena (t.arena.clearValue m)) := by
  refine ⟨h.settings, h.epoch, h.shutdown, ?_⟩
  have hstill : ∀ (r : Store β) (k : Link),
      (r.withArena (r.arena.clearValue k)).orphanTags = r.orphanTags := fun r k =>
    orphanTags_still (.clearValue r.arena k) rfl
  rw [hstill s l, hstill t m]
  exact h.orphans

/-- A node is got for a private chain. -/
theorem allocate {stack stack' : Strand β} {rest rest' : List (Strand β)} {granted granted' : Bool}
    {v w : β} {l m : Link} (h : s.Sooner t) (hs : s.Tidy stack rest) (ht : t.Tidy stack' rest')
    (hok : (s.allocate granted v).answer = .ok l) (hok' : (t.allocate granted' w).answer = .ok m)
    (next next' : Link) :
    ((s.allocate granted v).state.setNext l next).Sooner
      ((t.allocate granted' w).state.setNext m next') := by
  obtain ⟨L, -, hlaid⟩ := hs
  obtain ⟨M, -, hlaid'⟩ := ht
  refine ⟨h.settings, h.epoch, h.shutdown, ?_⟩
  rw [hlaid.orphanTags_allocate hok, hlaid'.orphanTags_allocate hok']
  exact h.orphans

theorem deallocate {stack stack' : Strand β} {rest rest' : List (Strand β)} {l m : Link}
    (h : s.Sooner t) (hs : s.Tidy stack ([Cell.spent l] :: rest))
    (ht : t.Tidy stack' ([Cell.spent m] :: rest')) : (s.deallocate l).Sooner (t.deallocate m) := by
  obtain ⟨L, -, hlaid⟩ := hs
  obtain ⟨M, -, hlaid'⟩ := ht
  refine ⟨h.settings, h.epoch, h.shutdown, ?_⟩
  rw [hlaid.orphanTags_deallocate, hlaid'.orphanTags_deallocate]
  exact h.orphans

end Store.Sooner

namespace Turn

variable {β : Type} {t u : Turn β} {stack : Strand β} {rest rest' : List (Strand β)}
  {live live' : Load β}

/-- The same turn, taken with the shorter grace period and with the longer one. -/
structure Sooner (t u : Turn β) : Prop where
  store : t.store.Sooner u.store
  context : t.context.Sooner u.context

namespace Sooner

/-- A reclaim keeps back no more with the shorter grace period, of what was no more before. -/
theorem reclaim (h : t.Sooner u) (ht : t.context.deferred.InOrder)
    (hu : u.context.deferred.InOrder) : t.reclaim.state.Sooner u.reclaim.state where
  store := by
    refine ⟨h.store.settings, h.store.epoch, h.store.shutdown, ?_⟩
    rw [orphanTags_reclaim, orphanTags_reclaim]
  context := by
    refine ⟨h.store.epoch, ?_, ?_⟩
    · rw [ops_reclaim, ops_reclaim]
      exact h.context.ops
    · rw [epochs_reclaim ht, epochs_reclaim hu]
      refine ((byKey_subperm id (h.context.epochs.append h.store.orphans)).filter _).trans ?_
      refine List.Sublist.subperm ?_
      refine List.monotone_filter_right _ fun E hE => ?_
      rw [Bool.not_eq_true'] at hE ⊢
      rw [h.store.epoch] at hE
      exact h.store.settings.spared _ _ hE

theorem ticked (h : t.Sooner u) : t.ticked.Sooner u.ticked :=
  ⟨⟨h.store.settings, congrArg nextWord h.store.epoch, h.store.shutdown, h.store.orphans⟩,
    h.context⟩

theorem advance (h : t.Sooner u) (ht : t.context.deferred.InOrder)
    (hu : u.context.deferred.InOrder) : t.advance.state.Sooner u.advance.state :=
  h.ticked.reclaim ht hu

/-- Both turns advance the epoch, or neither does. -/
theorem complete (h : t.Sooner u) (ht : t.context.deferred.InOrder)
    (hu : u.context.deferred.InOrder) : t.complete.state.Sooner u.complete.state := by
  have hcounted : Sooner ⟨t.store, t.context.count⟩ ⟨u.store, u.context.count⟩ :=
    ⟨h.store, h.context.count⟩
  have hsame := h.context.count.mustAdvance_eq h.store.settings
  simp only [Turn.complete, hsame]
  split
  · exact hcounted.advance ht hu
  · exact hcounted

/-- Both turns retire a node at the same epoch. -/
theorem retired {c d : Cell β} {stack' : Strand β} (h : t.Sooner u)
    (ht : t.context.deferred.InOrder) (hu : u.context.deferred.InOrder)
    (htidy : t.Tidy (c :: stack) rest) (hutidy : u.Tidy (d :: stack') rest') :
    (t.retired c.link).Sooner (u.retired d.link) where
  store := by
    refine ⟨h.store.settings, h.store.epoch, h.store.shutdown, ?_⟩
    rw [orphanTags_retired htidy, orphanTags_retired hutidy]
    exact h.store.orphans
  context := by
    have hseen : Context.Sooner { t.context with snapshot := t.store.epoch }
        { u.context with snapshot := u.store.epoch } :=
      ⟨h.store.epoch, h.context.ops, h.context.epochs⟩
    exact hseen.defer ht hu c.link d.link h.store.epoch

/-- A pop gets the same value with either grace period. -/
theorem pop (h : t.Sooner u) (ht : t.context.deferred.InOrder) (hu : u.context.deferred.InOrder)
    (htidy : t.Tidy live.strand rest) (hutidy : u.Tidy live'.strand rest')
    (hvalues : live.values = live'.values) :
    t.pop.state.Sooner u.pop.state ∧ t.pop.answer = u.pop.answer := by
  cases hshut : u.store.shutdown with
  | true =>
    rw [pop_none htidy (.inr (h.store.shutdown.trans hshut)), pop_none hutidy (.inr hshut)]
    exact ⟨h, rfl⟩
  | false =>
    cases live with
    | nil =>
      obtain rfl : live' = [] := List.map_eq_nil_iff.1 hvalues.symm
      rw [pop_none htidy (.inl rfl), pop_none hutidy (.inl rfl)]
      exact ⟨h, rfl⟩
    | cons n live =>
      cases live' with
      | nil => cases hvalues
      | cons m live' =>
        have hvalue : n.2 = m.2 := (List.cons.inj hvalues).1
        rw [(retired_tidy (c := ⟨n.1, .full n.2⟩) htidy rfl (h.store.shutdown.trans hshut)).1,
          (retired_tidy (c := ⟨m.1, .full m.2⟩) hutidy rfl hshut).1]
        refine ⟨?_, congrArg some hvalue⟩
        exact (h.retired ht hu htidy hutidy).complete (ht.push _ _) (hu.push _ _)

theorem publish {w w' : Strand β} {stack' : Strand β} (h : t.Sooner u)
    (ht : t.context.deferred.InOrder) (hu : u.context.deferred.InOrder) (hw : w ≠ [])
    (hw' : w' ≠ []) (htidy : t.Tidy stack (w :: rest)) (hutidy : u.Tidy stack' (w' :: rest')) :
    (t.publish w.first w.last).state.Sooner (u.publish w'.first w'.last).state := by
  refine complete (t := ⟨t.store.publish w.first w.last, t.context⟩)
    (u := ⟨u.store.publish w'.first w'.last, u.context⟩)
    ⟨⟨h.store.settings, h.store.epoch, h.store.shutdown, ?_⟩, h.context⟩ ht hu
  rw [orphanTags_publish hw htidy, orphanTags_publish hw' hutidy]
  exact h.store.orphans

/-- A handle that goes leaves no more orphans with the shorter grace period. -/
theorem abandon {stack' : Strand β} (h : t.Sooner u) (ht : t.Tagged) (hu : u.Tagged)
    (htidy : t.Tidy stack rest) (hutidy : u.Tidy stack' rest') :
    t.abandon.state.Sooner u.abandon.state where
  settings := by
    rw [show t.abandon.state.settings = t.store.settings from Store.settings_orphan _ _,
      show u.abandon.state.settings = u.store.settings from Store.settings_orphan _ _]
    exact h.store.settings
  epoch := by
    rw [show t.abandon.state.epoch = t.store.epoch from Store.epoch_orphan _ _,
      show u.abandon.state.epoch = u.store.epoch from Store.epoch_orphan _ _]
    exact h.store.epoch
  shutdown := by
    rw [shutdown_abandon, shutdown_abandon]
    exact h.store.shutdown
  orphans := by
    rw [ht.orphanTags_abandon htidy, hu.orphanTags_abandon hutidy]
    exact (h.reclaim ht.inOrder hu.inOrder).context.epochs

end Sooner

end Turn

end RecyclingStack
