import RecyclingStack.Proofs.Memory.Epochs

/-! Advances by one handle, one right after the other. Each recycles what has just become due, so
that after some of them the nodes withheld at first are split by their tags: the older ones are
free, in the order of their tags, and the younger ones deferred. -/
namespace RecyclingStack

/-- A list sorted by a key, those that pass a test which the smaller keys pass sooner, and those of
the others that pass a weaker one. -/
theorem filter_eq_append {γ : Type} {key : γ → Nat} {xs : List γ} {p q : γ → Bool}
    (hxs : xs.Pairwise fun x y => key x ≤ key y)
    (hp : ∀ x y, key x ≤ key y → p y = true → p x = true) (hpq : ∀ x, p x = true → q x = true) :
    xs.filter q = xs.filter p ++ (xs.filter fun x => !p x).filter q := by
  obtain ⟨htake, hdrop⟩ := takeWhile_eq_filter hxs hp
  have hsplit : xs.filter p ++ (xs.filter fun x => !p x) = xs := by
    rw [← htake, ← hdrop, List.takeWhile_append_dropWhile]
  have hfirst : (xs.filter p).filter q = xs.filter p :=
    List.filter_eq_self.2 fun x hx => hpq x (List.mem_filter.1 hx).2
  calc xs.filter q = (xs.filter p ++ (xs.filter fun x => !p x)).filter q := by rw [hsplit]
    _ = xs.filter p ++ (xs.filter fun x => !p x).filter q := by rw [List.filter_append, hfirst]

namespace Turn

variable {β : Type} {t u : Turn β} {stack : Strand β} {rest : List (Strand β)} {n count : Nat}

def dueIn (t : Turn β) (n : Nat) (l : Link) : Bool :=
  reclaimable (t.store.arena.tag l) (t.store.epoch + n) t.store.settings.gracePeriod

theorem dueIn_mono {k : Nat} {l m : Link} (hnk : n ≤ k)
    (hlm : t.store.arena.tag l ≤ t.store.arena.tag m) (hm : t.dueIn n m = true) :
    t.dueIn k l = true := by
  simp only [dueIn, reclaimable, decide_eq_true_eq] at hm ⊢
  omega

/-- After `n` advances, at least one, by which `count` nodes were recycled. -/
structure Flushed (t : Turn β) (n count : Nat) (u : Turn β) : Prop where
  epoch : u.store.epoch = t.store.epoch + n
  settings : u.store.settings = t.store.settings
  tags : ∀ l, u.store.arena.tag l = t.store.arena.tag l
  orphans : u.store.orphans = .nil
  links : u.context.deferred.links = t.withheld.filter fun l => !t.dueIn n l
  free : u.store.freeList = (t.withheld.filter (t.dueIn n)).reverse ++ t.store.freeList
  count_eq : count = t.withheld.countP (t.dueIn n)

theorem Tagged.flushed_advance (h : t.Tagged) (htidy : t.Tidy stack rest)
    (hroom : t.store.epoch + 1 < fullWord) : t.Flushed 1 t.advance.answer t.advance.state := by
  have hnext : nextWord t.store.epoch = t.store.epoch + 1 := Nat.mod_eq_of_lt hroom
  have hdue : t.ticked.isDue = t.dueIn 1 := by
    funext l
    rw [dueIn, ← hnext]
    rfl
  have hlinks := h.ticked.links_reclaim
  have hfree := h.ticked.freeList_reclaim (ticked_tidy htidy)
  have hanswer := h.ticked.answer_reclaim
  rw [hdue] at hlinks hfree hanswer
  refine ⟨hnext, rfl, t.ticked.tag_reclaim, rfl, hlinks, hfree, ?_⟩
  exact hanswer.trans ((perm_byKey _ _).countP_eq _).symm

/-- After an advance there are no orphans, and the list is sorted. -/
theorem Flushed.withheld_eq (h : t.Flushed n count u) :
    u.withheld = t.withheld.filter fun l => !t.dueIn n l := by
  have htag : u.store.arena.tag = t.store.arena.tag := funext h.tags
  have hnone : u.store.orphanChain = [] := by
    rw [Store.orphanChain, h.orphans]
    exact Arena.chain_nil _
  rw [withheld, hnone, List.append_nil, htag, h.links]
  exact byKey_of_sorted ((sorted_byKey _ _).filter _)

theorem Flushed.advance (h : t.Flushed n count u) (hu : u.Tagged) (htidy : u.Tidy stack rest)
    (hroom : t.store.epoch + n + 1 < fullWord) :
    t.Flushed (n + 1) (count + u.advance.answer) u.advance.state := by
  have hstep : u.Flushed 1 u.advance.answer u.advance.state :=
    hu.flushed_advance htidy (by rwa [h.epoch])
  have hdue : u.dueIn 1 = t.dueIn (n + 1) := by
    funext l
    simp only [dueIn, h.tags, h.epoch, h.settings, Nat.add_assoc]
  have hlinks := hstep.links
  have hfree := hstep.free
  have hcount := hstep.count_eq
  rw [hdue, h.withheld_eq] at hlinks hfree hcount
  -- what is due after `n` advances comes first, and is due after one more
  have hsplit : t.withheld.filter (t.dueIn (n + 1)) = t.withheld.filter (t.dueIn n) ++
      (t.withheld.filter fun l => !t.dueIn n l).filter (t.dueIn (n + 1)) :=
    filter_eq_append (sorted_byKey _ _) (fun l m hlm => dueIn_mono (Nat.le_refl n) hlm)
      fun l => dueIn_mono (Nat.le_succ n) (Nat.le_refl _)
  refine ⟨?_, hstep.settings.trans h.settings, fun l => (hstep.tags l).trans (h.tags l),
    hstep.orphans, ?_, ?_, ?_⟩
  · rw [hstep.epoch, h.epoch, Nat.add_assoc]
  · rw [hlinks, List.filter_filter]
    refine List.filter_congr fun l _ => ?_
    cases hn : t.dueIn n l with
    | false => simp
    | true => simp [dueIn_mono (Nat.le_succ n) (Nat.le_refl _) hn]
  · rw [hfree, h.free, hsplit, List.reverse_append, List.append_assoc]
  · rw [hcount, h.count_eq, List.countP_eq_length_filter, List.countP_eq_length_filter,
      List.countP_eq_length_filter, hsplit, List.length_append]

/-- Once the grace period of the latest tag has passed, nothing is withheld any more. -/
theorem Flushed.all (h : t.Flushed n count u) (hall : ∀ l ∈ t.withheld, t.dueIn n l = true) :
    u.context.deferred.links = [] ∧
      u.store.freeList = t.withheld.reverse ++ t.store.freeList ∧ count = t.withheld.length := by
  have hfree := h.free
  rw [List.filter_eq_self.2 hall] at hfree
  refine ⟨?_, hfree, ?_⟩
  · rw [h.links, List.filter_eq_nil_iff]
    intro l hl
    simp [hall l hl]
  · rw [h.count_eq]
    exact List.countP_eq_length.2 hall

theorem length_withheld (t : Turn β) :
    t.withheld.length = t.context.deferred.links.length + t.store.orphanChain.length := by
  rw [withheld, (perm_byKey _ _).length_eq, List.length_append]

theorem mem_withheld {l : Link} :
    l ∈ t.withheld ↔ l ∈ t.context.deferred.links ++ t.store.orphanChain :=
  (perm_byKey _ _).mem_iff

/-- No node is on the free list twice. -/
theorem freeList_nodup (h : t.Tidy stack rest) : t.store.freeList.Nodup := by
  obtain ⟨L, -, hlaid⟩ := h
  rw [hlaid.chains_eq.2.1]
  have hnodup := hlaid.nodup.sublist ((Layout.sublist_on _ .free).map Cell.index)
  refine List.Nodup.of_map Link.index ?_
  rwa [List.map_map]

end Turn

end RecyclingStack
