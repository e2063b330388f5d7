import RecyclingStack.Proofs.Memory.Building

/-! Nodes taken for a private chain, and given back one after the other from its top. What comes
back on the free list is what was there before, and after it the slots that were never used. -/
namespace RecyclingStack

section

variable {β : Type}

/-- The slot of that index; where there is none, one never used. -/
def Arena.slotAt (a : Arena β) (i : Nat) : Slot β := (a.slot? i).getD {}

theorem Arena.slotAt_update_of_ne (a : Arena β) {l : Link} {i : Nat} (h : i ≠ l.index)
    (f : Slot β → Slot β) : (a.update l f).slotAt i = a.slotAt i := by
  have hread : (a.update l f).read (.node i 0) = a.read (.node i 0) :=
    a.read_update_of_ne f (Ne.symm h)
  exact hread

namespace Store

def freeIndices (s : Store β) : List Nat := s.freeList.map Link.index

variable {s x y : Store β} {L : Layout β} {rest : List (Strand β)} {granted : Bool} {v : β}
  {l : Link} {taken : List Nat} {u : Load β}

/-- The chain with a node more on top. -/
theorem Laid.linked (h : s.Laid (L.withStrands (u.strand :: rest)))
    (hok : (s.allocate granted v).answer = .ok l) :
    ∃ free, ((s.allocate granted v).state.setNext l u.strand.first).Laid
      ((L.hang free .free).withStrands (Load.strand ((l, v) :: u) :: rest)) := by
  obtain ⟨free, hgot⟩ := h.allocate hok
  obtain ⟨haimed, hlead⟩ := Laid.aim (u := []) (c := ⟨l, .full v⟩) u.strand.first hgot
  exact ⟨free, haimed.merge (u := [⟨l, .full v⟩]) hlead⟩

/-- Of all slots only the new one changes. -/
theorem Laid.slotAt_allocate (h : s.Laid (L.withStrands rest))
    (hok : (s.allocate granted v).answer = .ok l) (next : Link) (i : Nat) :
    ((s.allocate granted v).state.setNext l next).arena.slotAt i =
      if i = l.index then { (s.arena.slotAt i).incarnate v with next } else s.arena.slotAt i := by
  obtain ⟨a, hread, hslot, harena, -⟩ := h.allocated hok
  obtain ⟨free, hgot⟩ := h.allocate hok
  obtain ⟨slot, hslot⟩ := Option.isSome_iff_exists.1 hslot
  have hsame : ∀ j, a.slotAt j = s.arena.slotAt j := fun j => hread (.node j 0)
  have hnode := (hgot.holds ⟨l, .full v⟩ Layout.mem_cells_first).update_eq
    (fun slot => { slot with next })
  have hset : ((s.allocate granted v).state.setNext l next).arena =
      (a.modify l.index fun slot => slot.incarnate v).modify l.index fun slot =>
        { slot with next } := by
    rw [← harena]
    exact hnode
  rw [hset, Arena.modify_modify, ← hsame]
  by_cases hi : i = l.index
  · rw [if_pos hi, hi, Arena.slotAt, Arena.slot?_modify, if_pos rfl, Arena.slotAt, hslot]
    rfl
  · rw [if_neg hi, Arena.slotAt, Arena.slot?_modify, if_neg (Ne.symm hi), Arena.slotAt]

/-- The new node is the top of the free list or else the first slot never used. -/
theorem Laid.freeIndices_allocate (h : s.Laid (L.withStrands rest))
    (hok : (s.allocate granted v).answer = .ok l) (next : Link) :
    s.freeIndices = [] ∧ ((s.allocate granted v).state.setNext l next).freeIndices = [] ∧
        l.index = s.arena.fresh ∧
          ((s.allocate granted v).state.setNext l next).arena.fresh = s.arena.fresh + 1 ∨
      s.freeIndices = l.index :: ((s.allocate granted v).state.setNext l next).freeIndices ∧
        ((s.allocate granted v).state.setNext l next).arena.fresh = s.arena.fresh := by
  have hfresh : ((s.allocate granted v).state.setNext l next).arena.fresh =
      if s.pool.free = .nil then s.arena.fresh + 1 else s.arena.fresh :=
    congrArg Prod.fst (extent_linked hok next)
  rcases h.freeList_allocate hok next with ⟨hempty, hle⟩ | ⟨top, below, htop, hindex, hbelow⟩
  · have hnil := h.free_eq_nil_iff.2 hempty
    have hstill : ((s.allocate granted v).state.setNext l next).freeList = [] :=
      (congrArg (Arena.chain _) (free_allocate hnil)).trans (Arena.chain_nil _)
    obtain ⟨free, hgot⟩ := h.allocate hok
    have hlt : l.index < (s.allocate granted v).state.arena.fresh :=
      hgot.index_lt (c := ⟨l, .full v⟩) Layout.mem_cells_first
    rw [if_pos hnil] at hfresh
    have hsame : ((s.allocate granted v).state.setNext l next).arena.fresh =
        (s.allocate granted v).state.arena.fresh := (Arena.Relinks.setNext _ l next).fresh_eq
    refine .inl ⟨congrArg _ hempty, congrArg _ hstill, ?_, hfresh⟩
    omega
  · have hne : s.pool.free ≠ .nil := fun hnil => by
      rw [h.free_eq_nil_iff.1 hnil] at htop
      cases htop
    rw [if_neg hne] at hfresh
    refine .inr ⟨?_, hfresh⟩
    rw [freeIndices, freeIndices, hbelow, htop, List.map_cons, hindex]

/-- From the first store to the second, the slots `taken` were handed out, and the nodes of `u` are
still out, the latest on top. Nothing else has changed, and the free list is what it would be with
them on top. -/
structure Borrows (L : Layout β) (rest : List (Strand β)) (x : Store β) (taken : List Nat)
    (u : Load β) (y : Store β) : Prop where
  laid : ∃ free, y.Laid ((L.hang free .free).withStrands (u.strand :: rest))
  free : u.links.reverse.map Link.index ++ y.freeIndices =
    x.freeIndices ++ List.range' x.arena.fresh (y.arena.fresh - x.arena.fresh)
  order : taken <+: x.freeIndices ++ List.range' x.arena.fresh (y.arena.fresh - x.arena.fresh)
  fresh : y.arena.fresh = x.arena.fresh + (taken.length - x.freeIndices.length)
  capacity : y.arena.capacity = x.arena.capacity
  out : ∀ n ∈ u, n.1.index ∈ taken
  renewed : ∀ i ∈ taken, (y.arena.slotAt i).generation = (x.arena.slotAt i).nextGeneration ∧
    (y.arena.slotAt i).retiredEpoch = 0
  others : ∀ i, i ∉ taken → y.arena.slotAt i = x.arena.slotAt i
  kept : y = { x with pool := y.pool }

namespace Borrows

theorem refl (h : x.Laid (L.withStrands ([] :: rest))) : x.Borrows L rest [] [] x where
  laid := ⟨L.free, h⟩
  free := by rw [Nat.sub_self, List.range'_zero, List.append_nil]; rfl
  order := List.nil_prefix
  fresh := by rw [List.length_nil, Nat.zero_sub, Nat.add_zero]
  capacity := rfl
  out := fun _ hn => by cases hn
  renewed := fun _ hi => by cases hi
  others := fun _ _ => rfl
  kept := rfl

theorem indices_cons (l : Link) (v : β) (u : Load β) :
    (Load.links ((l, v) :: u)).reverse.map Link.index =
      u.links.reverse.map Link.index ++ [l.index] := by
  simp [Load.links]

/-- The free list with all nodes back in their place, when one more of them is out. -/
theorem account (h : x.Borrows L rest (u.links.reverse.map Link.index) u y)
    (hok : (y.allocate granted v).answer = .ok l) :
    (Load.links ((l, v) :: u)).reverse.map Link.index ++
        ((y.allocate granted v).state.setNext l u.strand.first).freeIndices = x.freeIndices ++
          List.range' x.arena.fresh (((y.allocate granted v).state.setNext l
            u.strand.first).arena.fresh - x.arena.fresh) ∧
      ((y.allocate granted v).state.setNext l u.strand.first).arena.fresh = x.arena.fresh +
        (((Load.links ((l, v) :: u)).reverse.map Link.index).length - x.freeIndices.length) := by
  obtain ⟨free, hlaid⟩ := h.laid
  have hbefore := h.free
  have hcount := congrArg List.length hbefore
  have hused := h.fresh
  rw [List.length_append, List.length_append, List.length_range'] at hcount
  rw [indices_cons, List.append_assoc, List.length_append, List.length_singleton]
  rcases hlaid.freeIndices_allocate hok u.strand.first with ⟨hempty, hstill, hindex, hfresh⟩ |
    ⟨htop, hfresh⟩
  · -- the free list is used up, so the slots never used before come after it
    have hle : x.arena.fresh ≤ y.arena.fresh := by omega
    rw [hempty, List.append_nil] at hbefore
    rw [hempty, List.length_nil] at hcount
    refine ⟨?_, by omega⟩
    rw [hfresh, hstill, hbefore, hindex, List.append_nil, List.append_assoc, Nat.succ_sub hle,
      List.range'_1_concat, Nat.add_sub_cancel' hle]
  · rw [htop] at hbefore
    rw [htop, List.length_cons] at hcount
    refine ⟨?_, by omega⟩
    rw [hfresh, ← hbefore]
    rfl

/-- A slot more is taken, the next one on the free list or else the first never used. -/
theorem allocate (h : x.Borrows L rest (u.links.reverse.map Link.index) u y)
    (hok : (y.allocate granted v).answer = .ok l) :
    x.Borrows L rest ((Load.links ((l, v) :: u)).reverse.map Link.index) ((l, v) :: u)
      ((y.allocate granted v).state.setNext l u.strand.first) := by
  obtain ⟨free, hlaid⟩ := h.laid
  obtain ⟨free', hlinked⟩ := hlaid.linked hok
  obtain ⟨_, hgot⟩ := hlaid.allocate hok
  have hslot := hlaid.slotAt_allocate hok u.strand.first
  have hnew : l.index ∉ u.links.reverse.map Link.index := by
    intro hmem
    obtain ⟨m, hm, hindex⟩ := List.mem_map.1 hmem
    obtain ⟨n, hn, rfl⟩ := List.mem_map.1 (List.mem_reverse.1 hm)
    refine hgot.index_ne (u := [⟨l, .full v⟩]) List.mem_cons_self (d := ⟨n.1, .full n.2⟩) ?_ hindex
    exact Layout.mem_cells.2 (.inr ⟨u.strand, List.mem_cons_self, List.mem_map.2 ⟨n, hn, rfl⟩⟩)
  obtain ⟨hfree, hfresh⟩ := h.account hok
  refine ⟨⟨free', hlinked⟩, hfree, ⟨_, hfree⟩, hfresh,
    (congrArg Prod.snd (extent_linked hok _)).trans h.capacity, ?_, ?_, ?_, ?_⟩
  · intro n hn
    rw [indices_cons]
    rcases List.mem_cons.1 hn with rfl | hn
    · simp
    · exact List.mem_append_left _ (h.out n hn)
  · intro i hi
    rw [hslot]
    rw [indices_cons] at hi
    by_cases hil : i = l.index
    · rw [if_pos hil, h.others i (hil ▸ hnew)]
      exact ⟨rfl, rfl⟩
    · rw [if_neg hil]
      exact h.renewed i ((List.mem_append.1 hi).resolve_right fun hlast =>
        hil (List.mem_singleton.1 hlast))
  · intro i hi
    rw [indices_cons, List.mem_append, List.mem_singleton, not_or] at hi
    rw [hslot, if_neg hi.2]
    exact h.others i hi.1
  · rw [h.kept]
    rfl

/-- The node on top of the chain is given back, after its value was taken out. -/
theorem giveBack (h : x.Borrows L rest taken ((l, v) :: u) y) :
    y.takeValue l = some (v, y.withArena (y.arena.clearValue l)) ∧
      (u ≠ [] → y.arena.next l = u.strand.first ∧ l ≠ u.strand.last) ∧
      x.Borrows L rest taken u ((y.withArena (y.arena.clearValue l)).deallocate l) := by
  obtain ⟨free, hlaid⟩ := h.laid
  have htidy : y.Tidy L.stack (Load.strand ((l, v) :: u) :: rest) :=
    ⟨L.hang free .free, rfl, hlaid⟩
  obtain ⟨store, htake, rfl, htaken⟩ := Laid.takeValue (c := ⟨l, .full v⟩) (u := u.strand) hlaid rfl
  have hgiven := htaken.deallocate
  have hrelinks : Arena.Relinks ([] ++ [l]) y.arena
      ((y.withArena (y.arena.clearValue l)).deallocate l).arena :=
    (Arena.Relinks.clearValue y.arena l).trans (.setNext _ l _)
  have hslot : ∀ i, i ≠ l.index →
      ((y.withArena (y.arena.clearValue l)).deallocate l).arena.slotAt i = y.arena.slotAt i :=
    fun i hi => (Arena.slotAt_update_of_ne _ hi _).trans (Arena.slotAt_update_of_ne _ hi _)
  have hfreed : ((y.withArena (y.arena.clearValue l)).deallocate l).freeIndices =
      l.index :: y.freeIndices := by
    obtain ⟨-, hbefore, -⟩ := hlaid.chains_eq
    obtain ⟨-, hafter, -⟩ := hgiven.chains_eq
    rw [freeIndices, freeIndices, hbefore, hafter]
    rfl
  have hmem : l.index ∈ taken := h.out _ List.mem_cons_self
  refine ⟨htake, fun hu => ⟨?_, ?_⟩, ⟨_, hgiven⟩, ?_, ?_, ?_, ?_, ?_, ?_, ?_, ?_⟩
  · exact htidy.next_eq (Load.strand_ne_nil hu)
  · obtain ⟨c, hc, hlast⟩ := Strand.exists_last (Load.strand_ne_nil hu)
    rw [← hlast]
    exact (htidy.link_ne hc).symm
  · have hbefore := h.free
    rw [indices_cons, List.append_assoc] at hbefore
    rw [hfreed, hrelinks.fresh_eq]
    exact hbefore
  · rw [hrelinks.fresh_eq]
    exact h.order
  · rw [hrelinks.fresh_eq]
    exact h.fresh
  · exact (congrArg Prod.snd ((Arena.extent_update _ l _).trans
      (Arena.extent_update y.arena l _))).trans h.capacity
  · exact fun n hn => h.out n (List.mem_cons_of_mem _ hn)
  · intro i hi
    obtain ⟨hgeneration, htag⟩ := h.renewed i hi
    exact ⟨(hrelinks.generationAt_eq i).trans hgeneration,
      (hrelinks.tag_eq (.node i 0)).trans htag⟩
  · intro i hi
    rw [hslot i fun heq => hi (heq ▸ hmem)]
    exact h.others i hi
  · rw [h.kept]
    rfl

/-- A private chain of any length. -/
theorem build {grants : Nat → Bool} {vs : List β} {z : Store β} {first last : Link}
    (h : x.Borrows L rest (u.links.reverse.map Link.index) u y)
    (hbuilt : y.build grants u.strand.first u.strand.last vs = some (z, first, last)) :
    ∃ w : Load β, x.Borrows L rest (w.links.reverse.map Link.index) w z ∧
      first = w.strand.first ∧ last = w.strand.last ∧ w.values = vs.reverse ++ u.values := by
  induction vs generalizing y u with
  | nil =>
    cases hbuilt
    exact ⟨u, h, rfl, rfl, rfl⟩
  | cons v vs ih =>
    cases hanswer : (y.allocate (y.grant grants) v).answer with
    | error failure =>
      simp only [Store.build, hanswer] at hbuilt
      cases hbuilt
    | ok l =>
      obtain ⟨free, hlaid⟩ := h.laid
      have htidy : y.Tidy L.stack (u.strand :: rest) := ⟨L.hang free .free, rfl, hlaid⟩
      obtain ⟨-, hlast⟩ := htidy.linked hanswer
      simp only [Store.build, hanswer, hlast] at hbuilt
      obtain ⟨w, hw, hfirst, hlast, hvalues⟩ := ih (h.allocate hanswer) hbuilt
      refine ⟨w, hw, hfirst, hlast, hvalues.trans ?_⟩
      simp [Load.values]

/-- When every node is back, the stack and the orphans are as they were. -/
theorem chains_eq (h : x.Borrows L rest taken [] y) (hx : x.Laid (L.withStrands ([] :: rest))) :
    y.chain = x.chain ∧ y.values = x.values ∧ y.orphanChain = x.orphanChain := by
  obtain ⟨free, hlaid⟩ := h.laid
  have htidy : x.Tidy L.stack ([] :: rest) := ⟨L, rfl, hx⟩
  have htidy' : y.Tidy L.stack ([] :: rest) := ⟨L.hang free .free, rfl, hlaid⟩
  obtain ⟨hstack, -, horphans⟩ := hx.chains_eq
  obtain ⟨hstack', -, horphans'⟩ := hlaid.chains_eq
  exact ⟨hstack'.trans hstack.symm, htidy'.values_eq.trans htidy.values_eq.symm,
    horphans'.trans horphans.symm⟩

/-- When every node is back, the slots that were taken are on top of the free list. -/
theorem taken_eq (h : x.Borrows L rest taken [] y) :
    taken = y.freeIndices.take taken.length := by
  have horder := h.order
  rw [← h.free] at horder
  exact List.prefix_iff_eq_take.1 horder

end Borrows

/-- The chain that is built, for those who work with the stack. -/
theorem Tidy.build {grants : Nat → Bool} {vs : List β} {stack : Strand β} {z : Store β}
    {first last : Link} (h : s.Tidy stack rest)
    (hbuilt : s.build grants .nil .nil vs = some (z, first, last)) :
    ∃ w : Load β, z.Tidy stack (w.strand :: rest) ∧ first = w.strand.first ∧
      last = w.strand.last ∧ w.values = vs.reverse := by
  obtain ⟨L, hL, hlaid⟩ := h.addNil
  obtain ⟨w, hw, hfirst, hlast, hvalues⟩ := (Borrows.refl hlaid).build (u := []) hbuilt
  obtain ⟨free, hz⟩ := hw.laid
  exact ⟨w, ⟨L.hang free .free, hL, hz⟩, hfirst, hlast, hvalues.trans (List.append_nil _)⟩

end Store

end

end RecyclingStack
