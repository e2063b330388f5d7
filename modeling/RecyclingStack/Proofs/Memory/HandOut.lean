import RecyclingStack.Proofs.Memory.Drift

/-! What handing a slot out and taking it back changes: one slot, and the free list. -/
namespace RecyclingStack

section

variable {β : Type} {s : Store β} {L : Layout β} {rest : List (Strand β)}
  (files : Nat → Nat → Link → Prop) {final : Nat} {gone : Nat → Prop}

theorem Store.deallocate_drift {l : Link} (h : s.Laid (L.withStrands ([Cell.spent l] :: rest)))
    (hfiles : ∀ k E m, files k E m → [Cell.spent m] ∈ rest) :
    Drift final [] gone ⟨s, files⟩ ⟨s.deallocate l, files⟩ := by
  obtain ⟨hstack, hfree, horphans⟩ := h.chains_eq
  obtain ⟨hstack', hfree', horphans'⟩ := h.deallocate.chains_eq
  have hgrown : (s.deallocate l).freeList = l :: s.freeList := by
    rw [hfree]
    exact hfree'
  refine .relinked (.setNext s.arena l s.pool.free) rfl ⟨[], hstack.trans hstack'.symm⟩
    (hgrown ▸ List.suffix_cons _ _) ⟨[], horphans.trans horphans'.symm⟩ ?_
  refine fun k E m hm => .inl ⟨hm, fun n hn => ?_⟩
  rw [List.mem_singleton.1 hn]
  exact h.index_ne_strand (c := Cell.spent l) List.mem_cons_self (hfiles k E m hm)

/-- Slots of a segment that is not there look as they do once it is. -/
theorem Arena.read_install {a : Arena β} {segment : Nat} (hlt : segment < a.directory.length)
    (hinst : a.installed segment = false) (m : Link) :
    (a.install segment).read m = a.read m := by
  cases m with
  | nil => rfl
  | node i g =>
    rw [read_node, read_node, slot?_install a hlt]
    split
    · rename_i hseg
      rw [slot?, ← hseg, segment?_none hinst]
      rfl
    · rfl

/-- A claim leaves all slots as they look, and there is one behind the index claimed. -/
theorem Arena.Sound.allocFresh {a : Arena β} (h : a.Sound) {granted : Bool} {i : Nat}
    (hok : (a.allocFresh granted).answer = .ok i) :
    i = a.fresh ∧ (∀ m, (a.allocFresh granted).state.read m = a.read m) ∧
      ((a.allocFresh granted).state.slot? i).isSome = true := by
  have hread : ∀ (b : Arena β) (fresh : Nat) (m : Link),
      ({ b with fresh } : Arena β).read m = b.read m := fun b fresh m => by cases m <;> rfl
  have hclaims := a.claims_allocFresh granted
  generalize a.allocFresh granted = claim at hok hclaims ⊢
  cases hclaims with
  | full | starves => cases hok
  | fills room there =>
    cases hok
    exact ⟨rfl, hread a _, h.isSome_slot? there⟩
  | opens room missing =>
    cases hok
    refine ⟨rfl, fun m => ?_, (h.install room).isSome_slot? (h.installed_install room)⟩
    exact (hread _ _ m).trans (read_install (h.segment_lt room) missing m)

/-- A node is got in two ways: off the free list, or by a claim of the next index. Nothing but its
own slot looks different then. -/
theorem Store.Laid.allocated {granted : Bool} {v : β} {l : Link} (h : s.Laid L)
    (hok : (s.allocate granted v).answer = .ok l) :
    ∃ a : Arena β, (∀ m, a.read m = s.arena.read m) ∧ (a.slot? l.index).isSome = true ∧
      (s.allocate granted v).state.arena = a.modify l.index (fun slot => slot.incarnate v) ∧
      ((∃ c below, L.free = c :: below ∧ c.index = l.index ∧
          (s.allocate granted v).state.pool.free = s.arena.next c.link) ∨
        L.free = [] ∧ (s.allocate granted v).state.pool.free = .nil ∧ l.index = s.arena.fresh) := by
  have hroot : s.pool.free = (L.on .free).first := h.root_eq .free
  have hcell : ∀ c ∈ L.on .free, c ∈ L.cells := fun c hc => Layout.mem_cells.2 (.inl ⟨_, hc⟩)
  rcases s with ⟨settings, ⟨arena, top⟩, head, orphans, epoch, shutdown⟩
  cases hcells : L.on .free with
  | nil =>
    rw [hcells] at hroot
    obtain rfl : top = .nil := hroot
    have hsound : arena.Sound := h.sound
    simp only [Store.allocate, Pool.allocate] at hok ⊢
    cases hclaim : (arena.allocFresh granted).answer with
    | error failure =>
      rw [hclaim] at hok
      cases hok
    | ok i =>
      rw [hclaim] at hok
      obtain ⟨rfl, hread, hslot⟩ := hsound.allocFresh hclaim
      cases hok
      exact ⟨(arena.allocFresh granted).state, hread, hslot, rfl, .inr ⟨hcells, rfl, rfl⟩⟩
  | cons c below =>
    rw [hcells] at hroot hcell
    obtain ⟨slot, hslot, hlink, -⟩ := h.holds c (hcell c List.mem_cons_self)
    obtain rfl : top = .node c.index slot.generation := hroot.trans hlink
    cases hok
    refine ⟨arena, fun _ => rfl, Option.isSome_iff_exists.2 ⟨slot, hslot⟩, rfl,
      .inl ⟨c, below, hcells, rfl, ?_⟩⟩
    exact congrArg arena.next hlink.symm

section

variable {granted : Bool} {v : β} {l : Link} (h : s.Laid (L.withStrands rest))
  (hok : (s.allocate granted v).answer = .ok l) (next : Link)
include h hok

theorem Store.Laid.read_allocate {m : Link} (hm : l.index ≠ m.index) :
    ((s.allocate granted v).state.setNext l next).arena.read m = s.arena.read m := by
  obtain ⟨a, hread, -, harena, -⟩ := h.allocated hok
  refine (Arena.read_update_of_ne _ _ hm).trans ?_
  rw [harena, ← Arena.update_node a l.index 0, a.read_update_of_ne _ (l := .node l.index 0) hm,
    hread]

/-- A new incarnation begins without a tag. -/
theorem Store.Laid.tag_allocate {m : Link} (hm : l.index = m.index) :
    ((s.allocate granted v).state.setNext l next).arena.tag m = 0 := by
  obtain ⟨a, -, hslot, harena, -⟩ := h.allocated hok
  obtain ⟨slot, hslot⟩ := Option.isSome_iff_exists.1 hslot
  refine ((Arena.Relinks.setNext (s.allocate granted v).state.arena l next).tag_eq m).trans ?_
  cases m with
  | nil => rfl
  | node i g =>
    obtain rfl : l.index = i := hm
    rw [harena, Arena.tag, Arena.read_node, Arena.slot?_modify, if_pos rfl, hslot]
    rfl

theorem Store.Laid.generationAt_allocate (i : Nat) :
    ((s.allocate granted v).state.setNext l next).arena.generationAt i =
      if i = l.index then (s.arena.generationAt i + 1) % halfWord
      else s.arena.generationAt i := by
  obtain ⟨a, hread, hslot, harena, -⟩ := h.allocated hok
  obtain ⟨slot, hslot⟩ := Option.isSome_iff_exists.1 hslot
  have hsame : a.generationAt i = s.arena.generationAt i :=
    congrArg Slot.generation (hread (.node i 0))
  rw [← hsame]
  refine ((Arena.Relinks.setNext (s.allocate granted v).state.arena l next).generationAt_eq
    i).trans ?_
  rw [harena, Arena.generationAt_modify]
  by_cases hi : i = l.index
  · rw [if_pos hi.symm, if_pos hi, hi, Arena.generationAt, hslot]
    rfl
  · rw [if_neg (Ne.symm hi), if_neg hi]

/-- A chain is read as before if it does not go through the new node. -/
theorem Store.Laid.chain_allocate {r : Root} {u : Strand β}
    (hlead : s.arena.Leads (((s.allocate granted v).state.setNext l next).root r) u .nil)
    (hu : ∀ c ∈ u, c.link ≠ .nil ∧ l.index ≠ c.link.index) :
    ((s.allocate granted v).state.setNext l next).arena.chain
      (((s.allocate granted v).state.setNext l next).root r) = u.map Cell.link := by
  obtain ⟨free, hlaid⟩ := h.allocate hok
  have hlaid := (Store.Laid.aim (u := []) next hlaid).1
  refine (hlaid.chain_root r).trans (hlaid.links_on (hlead.congr fun c hc => ?_) fun c hc => ?_)
  · exact congrArg Slot.next (h.read_allocate hok next (hu c hc).2)
  · exact (hu c hc).1

/-- The chains that cannot have had the new node are read as before. -/
theorem Store.Laid.chain_allocate_still {r : Root} (hr : r ≠ .free)
    (hroot : ((s.allocate granted v).state.setNext l next).root r = s.root r) :
    ((s.allocate granted v).state.setNext l next).arena.chain
      (((s.allocate granted v).state.setNext l next).root r) = s.arena.chain (s.root r) := by
  obtain ⟨free, hlaid⟩ := h.allocate hok
  have hon := h.chain_root r
  have hlead := h.rooted r
  rw [Layout.on_withStrands] at hon hlead
  rw [hon]
  refine h.chain_allocate hok next (hroot ▸ hlead) fun c hc =>
    ⟨h.ne_nil (Layout.mem_cells_of_on hc), ?_⟩
  refine (hlaid.index_ne (u := [⟨l, .full v⟩]) List.mem_cons_self (d := c) ?_).symm
  refine Layout.mem_cells_of_on (r := r) ?_
  rwa [Layout.on_hang, if_neg (Ne.symm hr)]

theorem Store.Laid.freeList_allocate : s.freeList = [] ∧ s.arena.fresh ≤ l.index ∨
    ∃ top below, s.freeList = top :: below ∧ top.index = l.index ∧
      ((s.allocate granted v).state.setNext l next).freeList = below := by
  obtain ⟨-, hfree, -⟩ := h.chains_eq
  obtain ⟨-, -, -, -, ⟨c, below, hL, hindex, hroot⟩ | ⟨hL, -, hindex⟩⟩ := h.allocated hok
  · refine .inr ⟨c.link, below.map Cell.link,
      hfree.trans (congrArg (List.map Cell.link) hL), hindex, ?_⟩
    have hlead := h.rooted .free
    have hsub := (L.withStrands rest).sublist_on .free
    rw [show (L.withStrands rest).on .free = c :: below from hL] at hlead hsub
    have hbelow : s.arena.Leads (s.arena.next c.link) below .nil := hlead.2
    rw [← hroot] at hbelow
    refine h.chain_allocate hok next (r := .free) hbelow fun d hd =>
      ⟨h.ne_nil (hsub.subset (List.mem_cons_of_mem _ hd)), ?_⟩
    have hnodup := h.nodup.sublist (hsub.map Cell.index)
    rintro heq
    refine (List.nodup_cons.1 hnodup).1 (List.mem_map.2 ⟨d, hd, ?_⟩)
    exact heq.symm.trans hindex.symm
  · exact .inl ⟨hfree.trans (congrArg (List.map Cell.link) hL), Nat.le_of_eq hindex.symm⟩

end

/-- A slot that is handed out leaves the free list, or was not in use, and begins its next
incarnation. -/
theorem Store.allocate_drift {granted : Bool} {v : β} {l : Link} (next : Link)
    (h : s.Laid (L.withStrands rest)) (hok : (s.allocate granted v).answer = .ok l)
    (hfiles : ∀ k E m, files k E m → [Cell.spent m] ∈ rest) :
    Drift final [l.index] gone ⟨s, files⟩
      ⟨(s.allocate granted v).state.setNext l next, files⟩ := by
  have hstack : ((s.allocate granted v).state.setNext l next).chain = s.chain :=
    h.chain_allocate_still hok next (r := .stack) (by decide) rfl
  have horphans : ((s.allocate granted v).state.setNext l next).orphanChain = s.orphanChain :=
    h.chain_allocate_still hok next (r := .orphans) (by decide) rfl
  have hread : ∀ {m : Link}, l.index ≠ m.index → ((s.allocate granted v).state.setNext l
      next).arena.read m = s.arena.read m := h.read_allocate hok next
  have hfiled : ∀ {k E m}, files k E m → l.index ≠ m.index := by
    intro k E m hm
    obtain ⟨free, hlaid⟩ := h.allocate hok
    exact hlaid.index_ne_strand (c := ⟨l, .full v⟩) List.mem_cons_self (hfiles k E m hm)
  have hfree := h.freeList_allocate hok next
  refine ⟨rfl, fun m below hm => .inl (hstack ▸ hm), fun m below hm => ?_, fun m hm => ?_,
    fun i hi => ?_, fun i => ?_, fun k E m hm _ => .inl ⟨hm, ?_⟩, fun m hm _ => .inl ?_⟩
  · rcases hfree with ⟨hempty, -⟩ | ⟨top, under, heq, hindex, hrest⟩
    · rw [hempty] at hm
      cases List.suffix_nil.1 hm
    · rw [heq] at hm
      rcases List.suffix_cons_iff.1 hm with htop | hm
      · refine .inr (List.mem_singleton.2 ?_)
        rw [(List.cons.inj htop).1, hindex]
      · exact .inl (hrest ▸ hm)
  · by_cases hindex : l.index = m.index
    · exact .inl (List.mem_singleton.2 hindex.symm)
    refine .inr ⟨?_, congrArg Slot.retiredEpoch (hread hindex)⟩
    rcases hm with hm | hm | hm
    · exact .inl hm
    · exact .inr (.inl (horphans ▸ hm))
    · rcases hfree with ⟨hempty, -⟩ | ⟨top, under, heq, htop, hrest⟩
      · rw [hempty] at hm
        cases hm
      · rw [heq] at hm
        rcases List.mem_cons.1 hm with rfl | hm
        · exact absurd htop.symm hindex
        · exact .inr (.inr (hrest ▸ hm))
  · rw [List.mem_singleton.1 hi]
    rcases hfree with ⟨-, hfresh⟩ | ⟨top, under, heq, hindex, -⟩
    · exact .inl hfresh
    · rw [heq, ← hindex]
      exact .inr List.mem_cons_self
  · rw [h.generationAt_allocate hok next i]
    simp only [List.mem_singleton]
  · exact congrArg Slot.next (hread (hfiled hm))
  · exact horphans ▸ hm

end

end RecyclingStack
