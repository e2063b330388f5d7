import RecyclingStack.Proofs.Memory.HandOut
import RecyclingStack.Proofs.Memory.Tags

/-! The epochs of retirement that are on record: those of a deferred list, under which its nodes are
filed, and those of the orphan chain, which stand in the slots. What happens to these numbers does
not depend on which slots the nodes are in. -/
namespace RecyclingStack

namespace RetireList

variable {r : RetireList} {l : Link} {epoch : Nat}

def epochs (r : RetireList) : List Nat := r.entries.map Prod.fst

theorem InOrder.sorted_epochs (h : r.InOrder) : r.epochs.Pairwise (· ≤ ·) :=
  List.pairwise_map.2 h.sorted

theorem InOrder.length_epochs (h : r.InOrder) : r.epochs.length = r.count := by
  rw [h.count_eq, links_eq, epochs, List.length_map, List.length_map]

theorem InOrder.epochs_push (h : r.InOrder) (l : Link) (epoch : Nat) :
    (r.push l epoch).epochs = byKey id (r.epochs ++ [epoch]) := by
  rw [epochs, h.entries_push]
  exact (map_byKey id Prod.fst _).trans (congrArg (byKey id) List.map_append)

theorem InOrder.epochs_retained (h : r.InOrder) (current grace : Nat) :
    (r.retained current grace).epochs =
      r.epochs.filter fun E => !reclaimable E current grace := by
  rw [epochs, h.entries_retained, epochs, List.filter_map]
  rfl

end RetireList

namespace Store

variable {β : Type} {s t : Store β} {L M : Layout β} {rest : List (Strand β)}

/-- The tags of the nodes on the orphan chain, in the order of the chain. -/
def orphanTags (s : Store β) : List Nat := s.orphanChain.map s.arena.tag

theorem orphanTags_of_nil (h : s.orphans = .nil) : s.orphanTags = [] := by
  rw [orphanTags, orphanChain, h, Arena.chain_nil]
  rfl

theorem orphanTags_still (hlinks : Arena.Relinks [] s.arena t.arena)
    (hroot : t.orphans = s.orphans) : t.orphanTags = s.orphanTags := by
  have hchain : t.orphanChain = s.orphanChain := by
    rw [orphanChain, orphanChain, hroot,
      Arena.chain_congr (fun l => hlinks.next_eq l nofun) hlinks.fresh_eq]
  rw [orphanTags, orphanTags, hchain]
  exact List.map_congr_left fun l _ => hlinks.tag_eq l

/-- With the same nodes on the orphan chain and their tags as they were. -/
theorem Laid.orphanTags_eq (h : s.Laid (L.withStrands rest)) {rest' : List (Strand β)}
    (h' : t.Laid (M.withStrands rest')) (horphans : M.orphans = L.orphans)
    (htag : ∀ l ∈ s.orphanChain, t.arena.tag l = s.arena.tag l) :
    t.orphanTags = s.orphanTags := by
  have hchain : t.orphanChain = s.orphanChain := by
    rw [h.chains_eq.2.2, h'.chains_eq.2.2, horphans]
  rw [orphanTags, orphanTags, hchain]
  exact List.map_congr_left htag

theorem Laid.orphanTags_deallocate {l : Link}
    (h : s.Laid (L.withStrands ([Cell.spent l] :: rest))) :
    (s.deallocate l).orphanTags = s.orphanTags :=
  h.orphanTags_eq h.deallocate rfl fun m _ =>
    (Arena.Relinks.setNext s.arena l s.pool.free).tag_eq m

theorem Laid.orphanTags_publish {u : Strand β} (hne : u ≠ [])
    (h : s.Laid (L.withStrands (u :: rest))) :
    (s.publish u.first u.last).orphanTags = s.orphanTags :=
  h.orphanTags_eq (h.publish hne) rfl fun m _ =>
    (Arena.Relinks.setNext s.arena u.last s.head).tag_eq m

/-- A node that is got was not on the orphan chain. -/
theorem Laid.orphanTags_allocate {granted : Bool} {v : β} {l : Link}
    (h : s.Laid (L.withStrands rest)) (hok : (s.allocate granted v).answer = .ok l)
    (next : Link) : ((s.allocate granted v).state.setNext l next).orphanTags = s.orphanTags := by
  have hchain : ((s.allocate granted v).state.setNext l next).orphanChain = s.orphanChain :=
    h.chain_allocate_still hok next (r := .orphans) (by decide) rfl
  rw [orphanTags, orphanTags, hchain]
  refine List.map_congr_left fun m hm => congrArg Slot.retiredEpoch (h.read_allocate hok next ?_)
  obtain ⟨free, hlaid⟩ := h.allocate hok
  rw [h.chains_eq.2.2] at hm
  obtain ⟨c, hc, rfl⟩ := List.mem_map.1 hm
  exact (hlaid.index_ne (u := [⟨l, .full v⟩]) List.mem_cons_self
    (Layout.mem_cells.2 (.inl ⟨.orphans, hc⟩))).symm

end Store

namespace Turn

variable {β : Type} {t : Turn β} {stack : Strand β} {rest : List (Strand β)}

theorem Tagged.epochs_eq (h : t.Tagged) :
    t.context.deferred.epochs = t.context.deferred.links.map t.store.arena.tag := by
  rw [RetireList.epochs, h.entries_eq, List.map_map]
  rfl

section

variable (h : t.context.deferred.InOrder)
include h

/-- Adopted nodes are sorted in among those that the handle has. -/
theorem epochs_adopt : t.adopt.state.context.deferred.epochs =
    byKey id (t.context.deferred.epochs ++ t.store.orphanTags) := by
  refine (congrArg (List.map Prod.fst)
    (entries_defer_all t.store.arena.tag t.store.orphanChain h)).trans ?_
  rw [RetireList.epochs, Store.orphanTags]
  refine (map_byKey id Prod.fst _).trans (congrArg (byKey id) ?_)
  rw [List.map_append, List.map_map]
  rfl

theorem epochs_reclaim : t.reclaim.state.context.deferred.epochs =
    (byKey id (t.context.deferred.epochs ++ t.store.orphanTags)).filter
      fun E => !reclaimable E t.store.epoch t.store.settings.gracePeriod := by
  rw [← epochs_adopt h]
  exact (inOrder_defer_all _ _ h).epochs_retained _ _

end

def ticked (t : Turn β) : Turn β :=
  { t with store := { t.store with epoch := nextWord t.store.epoch } }

theorem Tagged.ticked (h : t.Tagged) : t.ticked.Tagged := h.of_tag_eq rfl fun _ => rfl

theorem ticked_tidy (h : t.Tidy stack rest) : t.ticked.Tidy stack rest :=
  Store.Tidy.of_eq (s := t.store) rfl (fun r => by cases r <;> rfl) h

theorem orphanTags_reclaim (t : Turn β) : t.reclaim.state.store.orphanTags = [] :=
  Store.orphanTags_of_nil rfl

theorem orphanTags_retired {c : Cell β} (h : t.Tidy (c :: stack) rest) :
    (t.retired c.link).store.orphanTags = t.store.orphanTags := by
  have hchain : (t.retired c.link).store.orphanChain = t.store.orphanChain := t.chain_retired _ _
  rw [Store.orphanTags, Store.orphanTags, hchain]
  refine List.map_congr_left fun l hl => t.tag_retired ?_
  have hidle : (t.scene 0 fun _ _ _ => False).Idle l := .inr (.inl hl)
  exact index_ne_idle h (fun _ _ _ hno => hno.elim) hidle

theorem orphanTags_complete (t : Turn β) : t.complete.state.store.orphanTags = t.store.orphanTags ∨
    t.complete.state.store.orphanTags = [] := by
  simp only [complete]
  split
  · exact .inr (Store.orphanTags_of_nil rfl)
  · exact .inl rfl

theorem orphanTags_pop {live : Load β} (h : t.Tidy live.strand rest) :
    t.pop.state.store.orphanTags = t.store.orphanTags ∨ t.pop.state.store.orphanTags = [] := by
  have hnone : live.strand = [] ∨ t.store.shutdown = true →
      t.pop.state.store.orphanTags = t.store.orphanTags := fun hnone => by rw [pop_none h hnone]
  cases hshut : t.store.shutdown with
  | true => exact .inl (hnone (.inr hshut))
  | false =>
    cases live with
    | nil => exact .inl (hnone (.inl rfl))
    | cons n live =>
      rw [(retired_tidy (c := ⟨n.1, .full n.2⟩) h rfl hshut).1, ← orphanTags_retired h]
      exact orphanTags_complete _

theorem orphanTags_publish {u : Strand β} (hne : u ≠ []) (h : t.Tidy stack (u :: rest)) :
    (t.store.publish u.first u.last).orphanTags = t.store.orphanTags := by
  obtain ⟨L, -, hlaid⟩ := h
  exact (hlaid.reorder List.perm_middle).orphanTags_publish hne

/-- A handle that goes leaves what is not due to the orphans, in the order of its list. -/
theorem Tagged.orphanChain_abandon (h : t.Tagged) (htidy : t.Tidy stack rest) :
    t.abandon.state.orphanChain = t.withheld.filter fun l => !t.isDue l := by
  obtain ⟨L, -, hlaid⟩ := reclaim_tidy htidy
  have hnone : t.reclaim.state.store.orphanChain = [] := Arena.chain_nil _
  rw [abandon, hlaid.orphanChain_orphan, hnone, List.append_nil, h.links_reclaim]

theorem tag_abandon (t : Turn β) (l : Link) :
    t.abandon.state.arena.tag l = t.store.arena.tag l :=
  ((Arena.Relinks.orphan t.reclaim.state.store _).tag_eq l).trans (t.tag_reclaim l)

theorem generationAt_abandon (t : Turn β) (i : Nat) :
    t.abandon.state.arena.generationAt i = t.store.arena.generationAt i :=
  ((Arena.Relinks.orphan t.reclaim.state.store _).generationAt_eq i).trans
    ((Arena.Relinks.deallocateAll t.adopt.state.store.pool _).generationAt_eq i)

theorem Tagged.freeList_abandon (h : t.Tagged) (htidy : t.Tidy stack rest) :
    t.abandon.state.freeList = (t.withheld.filter t.isDue).reverse ++ t.store.freeList := by
  obtain ⟨L, -, hlaid⟩ := reclaim_tidy htidy
  rw [← h.freeList_reclaim htidy, hlaid.chains_eq.2.1]
  exact hlaid.orphan.chains_eq.2.1

theorem Tagged.orphanTags_abandon (h : t.Tagged) (htidy : t.Tidy stack rest) :
    t.abandon.state.orphanTags = t.reclaim.state.context.deferred.epochs := by
  rw [h.reclaim.epochs_eq, h.links_reclaim, Store.orphanTags, h.orphanChain_abandon htidy]
  exact List.map_congr_left fun l _ => (t.tag_abandon l).trans (t.tag_reclaim l).symm

end Turn

end RecyclingStack
