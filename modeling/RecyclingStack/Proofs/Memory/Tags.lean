import RecyclingStack.Proofs.Memory.Bags

/-! The tag of a retired node stands twice: in its slot, and as the epoch of the bag it is in. As
long as both agree, the deferred list of a handle is its nodes in the order of their tags, and it
stays so when orphans are taken over by the tags in their slots. -/
namespace RecyclingStack

namespace Turn

variable {β : Type} {t : Turn β} {stack : Strand β} {rest : List (Strand β)}

/-- The list of the handle at work is in order, and each node on it is under the tag in its slot. -/
structure Tagged (t : Turn β) : Prop where
  inOrder : t.context.deferred.InOrder
  tag_eq : ∀ E l, t.context.deferred.Files E l → t.store.arena.tag l = E

def isDue (t : Turn β) (l : Link) : Bool :=
  reclaimable (t.store.arena.tag l) t.store.epoch t.store.settings.gracePeriod

/-- The nodes a sweep has to do with, after the orphans are taken over: in the order of their tags,
those of one tag in the order of the list first, then in that of the orphan chain. -/
def withheld (t : Turn β) : List Link :=
  byKey t.store.arena.tag (t.context.deferred.links ++ t.store.orphanChain)

theorem Tagged.entries_eq (h : t.Tagged) : t.context.deferred.entries =
    t.context.deferred.links.map fun l => (t.store.arena.tag l, l) := by
  rw [RetireList.links_eq, List.map_map]
  refine (List.map_id _).symm.trans (List.map_congr_left fun x hx => ?_)
  exact Prod.ext (h.tag_eq x.1 x.2 (RetireList.mem_entries.1 hx)).symm rfl

/-- Tags that stay as they are keep a list tagged. -/
theorem Tagged.of_tag_eq {u : Turn β} (h : t.Tagged) (hdeferred : u.context.deferred =
    t.context.deferred) (htag : ∀ l, u.store.arena.tag l = t.store.arena.tag l) : u.Tagged where
  inOrder := hdeferred ▸ h.inOrder
  tag_eq := fun E l hl => (htag l).trans (h.tag_eq E l (hdeferred ▸ hl))

theorem inOrder_defer_all (tag : Link → Nat) (ls : List Link) {c : Context}
    (h : c.deferred.InOrder) :
    (ls.foldl (fun c l => c.defer l (tag l)) c).deferred.InOrder := by
  induction ls generalizing c with
  | nil => exact h
  | cons l ls ih => exact ih (h.push l (tag l))

theorem entries_defer_all (tag : Link → Nat) (ls : List Link) {c : Context}
    (h : c.deferred.InOrder) :
    (ls.foldl (fun c l => c.defer l (tag l)) c).deferred.entries =
      byKey Prod.fst (c.deferred.entries ++ ls.map fun l => (tag l, l)) := by
  induction ls generalizing c with
  | nil => rw [List.map_nil, List.append_nil, byKey_of_sorted h.sorted, List.foldl_nil]
  | cons l ls ih =>
    have hpush : (c.defer l (tag l)).deferred.entries =
        byKey Prod.fst (c.deferred.entries ++ [(tag l, l)]) := h.entries_push l (tag l)
    rw [List.foldl_cons, ih (h.push l (tag l)), hpush, byKey_append, List.append_assoc]
    rfl

theorem Tagged.adopt (h : t.Tagged) : t.adopt.state.Tagged where
  inOrder := inOrder_defer_all _ _ h.inOrder
  tag_eq := by
    intro E l hl
    rcases (files_defer_all _ _ _).1 hl with ⟨-, rfl⟩ | hl
    · rfl
    · exact h.tag_eq E l hl

theorem Tagged.links_adopt (h : t.Tagged) :
    t.adopt.state.context.deferred.links = t.withheld := by
  have hentries : t.adopt.state.context.deferred.entries = byKey Prod.fst
      (t.context.deferred.entries ++ t.store.orphanChain.map fun l => (t.store.arena.tag l, l)) :=
    entries_defer_all _ _ h.inOrder
  rw [RetireList.links_eq, hentries, h.entries_eq, ← List.map_append,
    ← map_byKey Prod.fst (fun l => (t.store.arena.tag l, l)), List.map_map]
  exact List.map_id _

/-- In a list in the order of its tags, a test on the epochs of its entries is one on the tags. -/
theorem Tagged.filter_entries (h : t.Tagged) (p : Nat → Bool) :
    (t.context.deferred.entries.filter fun x => p x.1).map Prod.snd =
      t.context.deferred.links.filter fun l => p (t.store.arena.tag l) := by
  rw [h.entries_eq, List.filter_map, List.map_map]
  exact List.map_id _

theorem Tagged.released_eq (h : t.Tagged) : t.context.deferred.released t.store.epoch
    t.store.settings.gracePeriod = t.context.deferred.links.filter t.isDue :=
  (h.inOrder.released_eq _ _).trans
    (h.filter_entries (reclaimable · t.store.epoch t.store.settings.gracePeriod))

theorem Tagged.links_sweep (h : t.Tagged) : t.sweep.state.context.deferred.links =
    t.context.deferred.links.filter fun l => !t.isDue l := by
  have hentries := h.inOrder.entries_retained t.store.epoch t.store.settings.gracePeriod
  refine (RetireList.links_eq _).trans ((congrArg (List.map Prod.snd) hentries).trans ?_)
  exact h.filter_entries (!reclaimable · t.store.epoch t.store.settings.gracePeriod)

theorem tag_sweep (t : Turn β) (l : Link) :
    t.sweep.state.store.arena.tag l = t.store.arena.tag l :=
  (Arena.Relinks.deallocateAll t.store.pool _).tag_eq l

theorem tag_reclaim (t : Turn β) (l : Link) :
    t.reclaim.state.store.arena.tag l = t.store.arena.tag l :=
  t.adopt.state.tag_sweep l

/-- An operation that is over has written no tag. -/
theorem tag_complete (t : Turn β) (l : Link) :
    t.complete.state.store.arena.tag l = t.store.arena.tag l := by
  simp only [complete]
  split
  · exact tag_reclaim _ l
  · rfl

theorem Tagged.sweep (h : t.Tagged) : t.sweep.state.Tagged where
  inOrder := h.inOrder.retained _ _
  tag_eq := by
    rintro E l ⟨bag, hbag, hE, hl⟩
    exact (t.tag_sweep l).trans (h.tag_eq E l
      ⟨bag, (List.dropWhile_sublist _).subset hbag, hE, hl⟩)

theorem Tagged.reclaim (h : t.Tagged) : t.reclaim.state.Tagged := h.adopt.sweep

/-- A reclaim releases the nodes that are due, in the order of their tags. -/
theorem Tagged.released_reclaim (h : t.Tagged) : t.adopt.state.context.deferred.released
    t.store.epoch t.store.settings.gracePeriod = t.withheld.filter t.isDue := by
  rw [← h.links_adopt]
  exact h.adopt.released_eq

theorem Tagged.links_reclaim (h : t.Tagged) : t.reclaim.state.context.deferred.links =
    t.withheld.filter fun l => !t.isDue l := by
  rw [← h.links_adopt]
  exact h.adopt.links_sweep

theorem Tagged.answer_reclaim (h : t.Tagged) : t.reclaim.answer =
    (t.context.deferred.links ++ t.store.orphanChain).countP t.isDue := by
  have hreleased : t.reclaim.answer = (t.withheld.filter t.isDue).length :=
    congrArg List.length h.released_reclaim
  rw [hreleased, ← List.countP_eq_length_filter]
  exact (perm_byKey _ _).countP_eq _

theorem freeList_sweep (h : t.Tidy stack rest) : t.sweep.state.store.freeList =
    (t.context.deferred.released t.store.epoch t.store.settings.gracePeriod).reverse ++
      t.store.freeList := by
  obtain ⟨L, -, hlaid⟩ := h
  have hlinks := t.context.deferred.released_append_retained t.store.epoch
    t.store.settings.gracePeriod
  rw [← hlinks, Strand.loose_append, List.append_assoc] at hlaid
  obtain ⟨-, hfree, -⟩ := hlaid.chains_eq
  obtain ⟨-, hfreed, -⟩ := hlaid.deallocateAll.chains_eq
  rw [hfree]
  exact (hfreed.trans List.map_append).trans (congrArg (· ++ _) (Strand.map_link_idle _))

theorem Tagged.freeList_reclaim (h : t.Tagged) (htidy : t.Tidy stack rest) :
    t.reclaim.state.store.freeList =
      (t.withheld.filter t.isDue).reverse ++ t.store.freeList := by
  rw [← h.released_reclaim]
  exact freeList_sweep (adopt_tidy htidy)

/-- Nothing that stays deferred is due. -/
theorem Tagged.none_due (h : t.Tagged) :
    ∀ l ∈ t.reclaim.state.context.deferred.links, t.reclaim.state.isDue l = false := by
  intro l hl
  rw [h.links_reclaim] at hl
  have hnot := (List.mem_filter.1 hl).2
  rw [Bool.not_eq_true'] at hnot
  rw [isDue, t.tag_reclaim]
  exact hnot

theorem ops_reclaim (t : Turn β) : t.reclaim.state.context.ops = t.context.ops := by
  have hdefer : ∀ (tag : Link → Nat) (ls : List Link) (c : Context),
      (ls.foldl (fun c l => c.defer l (tag l)) c).ops = c.ops := by
    intro tag ls
    induction ls with
    | nil => exact fun c => rfl
    | cons l ls ih => exact fun c => ih (c.defer l (tag l))
  exact hdefer _ _ _

/-- With no orphans and nothing due there is nothing to reclaim. -/
theorem Tagged.reclaim_eq_self (h : t.Tagged) (horphans : t.store.orphans = .nil)
    (hsnapshot : t.context.snapshot = t.store.epoch)
    (hnone : ∀ l ∈ t.context.deferred.links, t.isDue l = false) : t.reclaim = ⟨t, 0, []⟩ := by
  have hadopted : t.adopt = ⟨t, 0, []⟩ := by
    rcases t with ⟨⟨settings, pool, head, orphans, epoch, shutdown⟩, c⟩
    obtain rfl : orphans = .nil := horphans
    have hchain : (Store.mk settings pool head .nil epoch shutdown).orphanChain = [] :=
      Arena.chain_nil _
    simp only [Turn.adopt, hchain]
    rfl
  have hreleased : t.context.deferred.released t.store.epoch t.store.settings.gracePeriod = [] := by
    rw [h.released_eq]
    exact List.filter_eq_nil_iff.2 fun l hl => by simp [hnone l hl]
  have hretained : t.context.deferred.retained t.store.epoch t.store.settings.gracePeriod =
      t.context.deferred := by
    have hbags := (h.inOrder.due_eq t.store.epoch t.store.settings.gracePeriod).2
    rw [List.filter_eq_self.2] at hbags
    · rw [RetireList.retained, hreleased] at hbags ⊢
      exact congrArg (RetireList.mk · _) hbags
    · intro bag hbag
      obtain ⟨l, hl⟩ := List.exists_mem_of_ne_nil _ (h.inOrder.nonempty bag hbag)
      have hfiles : t.context.deferred.Files bag.epoch l := ⟨bag, hbag, rfl, hl⟩
      have hdue := hnone l hfiles.mem_links
      rw [isDue, h.tag_eq _ _ hfiles] at hdue
      rw [hdue]
      rfl
  have hswept : t.sweep = ⟨t, 0, []⟩ := by
    rcases t with ⟨store, ⟨snapshot, ops, deferred⟩⟩
    obtain rfl : snapshot = store.epoch := hsnapshot
    simp only [Turn.sweep, hreleased, hretained]
    rfl
  simp only [Turn.reclaim, hadopted, hswept]
  rfl

theorem Tagged.complete (h : t.Tagged) : t.complete.state.Tagged := by
  have hcounted : ({ t with context := t.context.count } : Turn β).Tagged :=
    h.of_tag_eq rfl fun _ => rfl
  simp only [Turn.complete]
  split
  · exact Tagged.reclaim (hcounted.of_tag_eq rfl fun _ => rfl)
  · exact hcounted

theorem Tagged.advance (h : t.Tagged) : t.advance.state.Tagged :=
  Tagged.reclaim (h.of_tag_eq rfl fun _ => rfl)

theorem Tagged.publish (h : t.Tagged) (first last : Link) :
    (t.publish first last).state.Tagged :=
  Tagged.complete (h.of_tag_eq (u := { t with store := t.store.publish first last }) rfl
    (Arena.Relinks.setNext t.store.arena last t.store.head).tag_eq)

/-- The tag is written to the slot of the node only, which is on no list yet. -/
theorem Tagged.retired {c : Cell β} (h : t.Tagged) (htidy : t.Tidy (c :: stack) rest) :
    (t.retired c.link).Tagged where
  inOrder := h.inOrder.push _ _
  tag_eq := by
    intro E l hl
    rcases RetireList.files_push.1 hl with ⟨rfl, rfl⟩ | hl
    · obtain ⟨L, hL, hlaid⟩ := htidy
      have hspent := hlaid.spend (u := []) hL
      exact (hspent.holds (Cell.spent c.link) (Layout.mem_cells.2
        (.inl ⟨.stack, List.mem_cons_self⟩))).tag_setRetiredEpoch t.store.epoch
    · have hidle : (t.scene 0 fun _ _ _ => False).Idle l := .inl ⟨0, E, .inl ⟨rfl, hl⟩⟩
      have hne := index_ne_idle htidy (fun _ _ _ hno => hno.elim) hidle
      exact (t.tag_retired hne).trans (h.tag_eq E l hl)

theorem Tagged.pop {live : Load β} (h : t.Tagged) (htidy : t.Tidy live.strand rest) :
    t.pop.state.Tagged := by
  have hnone : live.strand = [] ∨ t.store.shutdown = true → t.pop.state.Tagged := by
    intro hnone
    rw [pop_none htidy hnone]
    exact h
  cases hshut : t.store.shutdown with
  | true => exact hnone (.inr hshut)
  | false =>
    cases live with
    | nil => exact hnone (.inl rfl)
    | cons n live =>
      rw [(retired_tidy (c := ⟨n.1, .full n.2⟩) htidy rfl hshut).1]
      exact (h.retired htidy).complete

end Turn

end RecyclingStack
