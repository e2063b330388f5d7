import RecyclingStack.Proofs.Memory.Tidy
import RecyclingStack.Store.Turn

/-! What a handle does in one go, seen from the stack: the chain on the head and the strands of
others stay as they are, and every node that changes its place goes between the free list, the
orphans and the handle's deferred list. -/
namespace RecyclingStack

namespace RetireList

theorem links_insert (l : Link) (epoch : Nat) (bags : List Bag) :
    ((Bag.insert l epoch bags).flatMap Bag.links).Perm (l :: bags.flatMap Bag.links) := by
  induction bags with
  | nil => exact .refl _
  | cons bag bags ih =>
    simp only [Bag.insert]
    split
    · simp only [List.flatMap_cons]
      exact (ih.append_left _).trans List.perm_middle
    split
    · simp only [List.flatMap_cons, List.append_assoc]
      exact List.perm_middle
    · exact .refl _

theorem links_push (r : RetireList) (l : Link) (epoch : Nat) :
    (r.push l epoch).links.Perm (l :: r.links) :=
  links_insert l epoch r.bags

/-- What is released and what stays deferred are together what was deferred. -/
theorem released_append_retained (r : RetireList) (current grace : Nat) :
    r.released current grace ++ (r.retained current grace).links = r.links := by
  rw [released, links, retained, due, ← List.flatMap_append, List.takeWhile_append_dropWhile]
  rfl

end RetireList

theorem Strand.loose_push {β : Type} (r : RetireList) (l : Link) (epoch : Nat) :
    (loose (r.push l epoch).links : List (Strand β)).Perm ([Cell.spent l] :: loose r.links) :=
  loose_perm (r.links_push l epoch)

namespace Turn

variable {β : Type} {t : Turn β} {stack : Strand β} {rest : List (Strand β)}

def Tidy (t : Turn β) (stack : Strand β) (rest : List (Strand β)) : Prop :=
  t.store.Tidy stack (Strand.loose t.context.deferred.links ++ rest)

theorem links_defer_all (tag : Link → Nat) (ls : List Link) (c : Context) :
    (ls.foldl (fun c l => c.defer l (tag l)) c).deferred.links.Perm (ls ++ c.deferred.links) := by
  induction ls generalizing c with
  | nil => exact .refl _
  | cons l ls ih =>
    apply (ih (c.defer l (tag l))).trans
    exact ((c.deferred.links_push l (tag l)).append_left ls).trans List.perm_middle

theorem adopt_tidy (h : t.Tidy stack rest) : t.adopt.state.Tidy stack rest := by
  obtain ⟨L, hL, h⟩ := h
  have hchain : t.store.orphanChain = L.orphans.map Cell.link := h.chain_root .orphans
  have hidle : (L.orphans.map fun c => [c]) = Strand.loose (L.orphans.map Cell.link) := by
    rw [Strand.loose, List.map_map]
    apply List.map_congr_left
    intro c hc
    have hc : c.stage = .spent := h.idle .orphans (by decide) c hc
    cases c with
    | mk l stage => exact congrArg (fun s => [Cell.mk l s]) hc
  have htaken := (h.take .orphans).scatter
  refine ⟨L.hang [] .orphans, hL, ?_⟩
  rw [Layout.on_withStrands, show L.on .orphans = L.orphans from rfl, hidle, ← hchain] at htaken
  apply htaken.reorder
  rw [Layout.strands_withStrands, Layout.strands_withStrands, ← List.append_assoc,
    ← Strand.loose_append]
  exact (Strand.loose_perm (links_defer_all _ _ _).symm).append_right rest

theorem sweep_tidy (h : t.Tidy stack rest) : t.sweep.state.Tidy stack rest := by
  obtain ⟨L, hL, h⟩ := h
  have hlinks := t.context.deferred.released_append_retained t.store.epoch
    t.store.settings.gracePeriod
  rw [← hlinks, Strand.loose_append, List.append_assoc] at h
  exact ⟨L.hang (Strand.idle (t.context.deferred.released t.store.epoch
    t.store.settings.gracePeriod).reverse ++ L.free) .free, hL, h.deallocateAll⟩

theorem reclaim_tidy (h : t.Tidy stack rest) : t.reclaim.state.Tidy stack rest :=
  sweep_tidy (adopt_tidy h)

theorem advance_tidy (h : t.Tidy stack rest) : t.advance.state.Tidy stack rest :=
  reclaim_tidy (Store.Tidy.of_eq (s := t.store) rfl (fun r => by cases r <;> rfl) h)

theorem complete_tidy (h : t.Tidy stack rest) : t.complete.state.Tidy stack rest := by
  simp only [complete]
  split
  · exact advance_tidy h
  · exact h

theorem retire_tidy {l : Link} (h : t.Tidy stack ([Cell.spent l] :: rest)) :
    (t.retire l).Tidy stack rest := by
  obtain ⟨L, hL, h⟩ := h
  replace h : t.store.Laid (L.withStrands ([Cell.spent l] ::
      (Strand.loose t.context.deferred.links ++ rest))) := h.reorder List.perm_middle
  have hcell : Cell.spent l ∈ (L.withStrands ([Cell.spent l] ::
      (Strand.loose t.context.deferred.links ++ rest))).cells :=
    (L.cells_cons _ _).mem_iff.2 List.mem_cons_self
  have htagged := Store.Laid.modify (u := []) (k := Cell.spent l) h
    (f := fun s => { s with retiredEpoch := t.store.epoch }) rfl (.inl rfl)
    fun slot _ hl hv => ⟨hl, hv⟩
  refine ⟨L, hL, ?_⟩
  rw [← (h.holds _ hcell).update_eq] at htagged
  apply htagged.reorder
  exact ((Strand.loose_push t.context.deferred l t.store.epoch).append_right rest).symm

theorem pop_tidy {c : Cell β} {v : β} (h : t.Tidy (c :: stack) rest) (hc : c.stage = .full v)
    (hshut : t.store.shutdown = false) :
    t.pop.answer = some v ∧ t.pop.state.Tidy stack rest := by
  obtain ⟨L, hL, h⟩ := h
  obtain ⟨hunlink, hlaid⟩ := h.unlink hL hc hshut
  rw [pop, hunlink]
  refine ⟨rfl, complete_tidy (retire_tidy ⟨L.hang stack .stack, rfl, ?_⟩)⟩
  exact hlaid.reorder List.perm_middle.symm

/-- A pop finds nothing where the stack is empty, and after shutdown. -/
theorem pop_none (h : t.Tidy stack rest) (hnone : stack = [] ∨ t.store.shutdown = true) :
    t.pop = ⟨t, none, []⟩ := by
  obtain ⟨L, rfl, h⟩ := h
  simp only [pop, h.unlink_none hnone]

theorem publish_tidy {u : Strand β} (hne : u ≠ []) (h : t.Tidy stack (u :: rest)) :
    (t.publish u.first u.last).state.Tidy (u ++ stack) rest := by
  obtain ⟨L, rfl, h⟩ := h
  have hpublished := (h.reorder List.perm_middle).publish hne
  exact complete_tidy ⟨L.hang (u ++ L.stack) .stack, rfl, hpublished⟩

/-- The deferred nodes of a handle that goes are left to the orphans. -/
theorem abandon_tidy (h : t.Tidy stack rest) : t.abandon.state.Tidy stack rest := by
  obtain ⟨L, hL, h⟩ := reclaim_tidy h
  exact ⟨L.hang (Strand.idle t.reclaim.state.context.deferred.links ++ L.orphans) .orphans, hL,
    h.orphan⟩

theorem shutdown_complete (t : Turn β) : t.complete.state.store.shutdown = t.store.shutdown := by
  simp only [complete]
  split <;> rfl

theorem shutdown_takeValue {s store : Store β} {l : Link} {v : β}
    (h : s.takeValue l = some (v, store)) : store.shutdown = s.shutdown :=
  (congrArg Store.shutdown (Store.takeValue_eq_some h).2).trans rfl

theorem shutdown_pop (t : Turn β) : t.pop.state.store.shutdown = t.store.shutdown := by
  simp only [pop]
  split
  · rfl
  · rename_i hunlink
    apply (shutdown_complete _).trans
    rw [Store.unlink] at hunlink
    split at hunlink
    · cases hunlink
    · split at hunlink
      · cases hunlink
      · rename_i htake
        have hshut := shutdown_takeValue htake
        cases hunlink
        exact hshut

theorem shutdown_abandon (t : Turn β) : t.abandon.state.shutdown = t.store.shutdown := by
  have horphan : ∀ (s : Store β) (links : List Link), (s.orphan links).shutdown = s.shutdown := by
    intro s links
    cases links with
    | nil => rfl
    | cons l links =>
      rw [Store.orphan, Store.thread_eq]
      rfl
  exact horphan _ _

theorem shutdown_publish (t : Turn β) (first last : Link) :
    (t.publish first last).state.store.shutdown = t.store.shutdown :=
  shutdown_complete _

end Turn

end RecyclingStack
