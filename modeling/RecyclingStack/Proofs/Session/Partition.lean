import RecyclingStack.Proofs.Session.Runs

/-! Every slot handed out is in one place. The places are read from memory: the three chains from
their roots, the deferred lists of the handles, and the private chains from the two ends that the
operations under way remember. -/
namespace RecyclingStack

namespace Frame

variable {α : Type}

/-- The nodes of a private chain: those that have a value still, and the one to be given back. -/
def filled (a : Arena (Payload α)) : Frame α → List Link
  | .batch _ first last _ => a.between a.fresh first last
  | .rollBack _ _ cursor last _ => a.between a.fresh cursor last
  | .release _ node next last _ => if node = last then [] else a.between a.fresh next last
  | _ => []

def nodes (a : Arena (Payload α)) (f : Frame α) : List Link := f.vacant ++ f.filled a

end Frame

namespace Session

variable {α : Type} {s : Session α} {dead : List Link} {live : Load (Payload α)}
  {held : List (Load (Payload α))}

/-- All links at the places where a slot can be: the stack chain, the free list, the orphan chain,
the deferred lists, and the nodes of operations under way. -/
def places (s : Session α) : List Link :=
  s.store.chain ++ s.store.freeList ++ s.store.orphanChain ++ s.deferred ++
    s.frames.flatMap (Frame.nodes s.store.arena)

/-- The links at the places of values: the stack chain and the private chains. Once nothing refers
to the stack, it is the part of the stack chain that its end has not come to. -/
def filled (s : Session α) : List Link :=
  (if s.isGone then s.cursors.flatMap s.store.arena.chain else s.store.chain) ++
    s.frames.flatMap (Frame.filled s.store.arena)

/-- Each slot handed out is in exactly one place, and there once; every link there is of the slot's
generation now; and exactly the slots at the places of values have one. -/
structure Partitioned (s : Session α) : Prop where
  stack : s.store.arena.Threads s.store.head s.store.chain
  free : s.store.arena.Threads s.store.pool.free s.store.freeList
  orphans : s.store.arena.Threads s.store.orphans s.store.orphanChain
  exactly : (s.places.map Link.index).Perm (List.range s.store.arena.fresh)
  current : ∀ l ∈ s.places, ∃ slot, s.store.arena.slot? l.index = some slot ∧
    l = .node l.index slot.generation
  filled : ∀ i, ((s.store.arena.slot? i).bind Slot.value).isSome ↔ i ∈ s.filled.map Link.index

theorem filled_of_owns {a : Arena (Payload α)} {f : Frame α} {u : Load (Payload α)}
    (h : f.Owns u) (hbetween : a.between a.fresh u.strand.first u.strand.last = u.links) :
    f.filled a = u.links := by
  cases f with
  | batch handle first last rest =>
    obtain ⟨rfl, rfl⟩ := h
    exact hbetween
  | rollBack handle unused cursor last o =>
    obtain ⟨rfl, rfl⟩ := h
    exact hbetween
  | release handle node next last o =>
    rcases h with ⟨rfl, rfl⟩ | ⟨-, hne, rfl, rfl⟩
    · exact if_pos rfl
    · exact (if_neg hne).trans hbetween
  | _ =>
    obtain rfl : u = [] := h
    rfl

theorem filled_frames {a : Arena (Payload α)} {frames : List (Frame α)}
    (h : List.Forall₂ Frame.Owns frames held)
    (hbetween : ∀ u ∈ held, a.between a.fresh u.strand.first u.strand.last = u.links) :
    frames.flatMap (Frame.filled a) = held.flatMap Load.links := by
  induction h with
  | nil => rfl
  | cons howns _ ih =>
    rw [List.flatMap_cons, List.flatMap_cons,
      filled_of_owns howns (hbetween _ List.mem_cons_self),
      ih fun u hu => hbetween u (List.mem_cons_of_mem _ hu)]

theorem nodes_frames (a : Arena (Payload α)) (frames : List (Frame α)) :
    (frames.flatMap (Frame.nodes a)).Perm
      (frames.flatMap Frame.vacant ++ frames.flatMap (Frame.filled a)) := by
  induction frames with
  | nil => exact .refl _
  | cons f frames ih =>
    simp only [List.flatMap_cons, Frame.nodes, List.append_assoc]
    refine .append_left _ ((ih.append_left _).trans ?_)
    exact List.perm_append_comm_assoc _ _ _

abbrev layout (s : Session α) (L : Layout (Payload α)) (held : List (Load (Payload α))) :
    Layout (Payload α) :=
  L.withStrands (held.map Load.strand ++ Strand.loose s.vacant)

theorem map_link_layout (s : Session α) (L : Layout (Payload α)) (held : List (Load (Payload α))) :
    (s.layout L held).cells.map Cell.link = L.stack.map Cell.link ++ L.free.map Cell.link ++
      L.orphans.map Cell.link ++ (held.flatMap Load.links ++ s.vacant) := by
  have hheld : (held.map Load.strand).flatten.map Cell.link = held.flatMap Load.links := by
    rw [List.map_flatten, List.map_map, List.flatMap]
    exact congrArg List.flatten (List.map_congr_left fun u _ => Load.links_strand u)
  simp only [Layout.cells, Layout.withStrands, List.map_append, List.flatten_append, hheld,
    Strand.flatten_loose, Strand.map_link_idle]

section

variable {L : Layout (Payload α)} (h : s.store.Laid (s.layout L held))
  (howned : List.Forall₂ Frame.Owns s.frames held)
include h

theorem between_held {u : Load (Payload α)} (hu : u ∈ held) :
    s.store.arena.between s.store.arena.fresh u.strand.first u.strand.last = u.links := by
  have hmem : u.strand ∈ (s.layout L held).strands :=
    List.mem_append_left _ (List.mem_map_of_mem hu)
  rw [h.between_strand hmem, Load.links_strand]

include howned

theorem places_perm : s.places.Perm ((s.layout L held).cells.map Cell.link) := by
  have hstack : s.store.chain = L.stack.map Cell.link := h.chain_root .stack
  have hfree : s.store.freeList = L.free.map Cell.link := h.chain_root .free
  have horphans : s.store.orphanChain = L.orphans.map Cell.link := h.chain_root .orphans
  rw [places, hstack, hfree, horphans, map_link_layout, List.append_assoc _ s.deferred]
  refine .append_left _ ?_
  apply (List.Perm.append_left _ (nodes_frames _ _)).trans
  rw [filled_frames howned fun u hu => between_held h hu, vacant]
  apply (List.perm_append_comm_assoc _ _ _).trans
  rw [← List.append_assoc]
  exact (List.perm_append_comm).trans (.append_left _ (.refl _))

omit howned in
theorem chain_live (hstack : L.stack = Strand.idle dead ++ live.strand) :
    s.store.arena.chain live.strand.first = live.links := by
  have hroot := h.rooted .stack
  rw [Layout.on_withStrands, Layout.on, hstack] at hroot
  obtain ⟨m, -, hlead⟩ := Arena.leads_append.1 hroot
  have hm : m = live.strand.first := by
    cases hl : live.strand with
    | nil => rw [hl] at hlead; exact hlead
    | cons c u => rw [hl] at hlead; exact hlead.1
  have hsub : live.strand.Sublist (s.layout L held).cells := by
    simp only [Layout.cells, Layout.withStrands, hstack, List.append_assoc]
    exact (List.sublist_append_left _ _).trans (List.sublist_append_right _ _)
  rw [← Load.links_strand]
  exact h.chain_of_leads hsub (hm ▸ hlead)

omit howned in
/-- A node of the layout has no value, or it is one of `live` or of `held`. -/
theorem spent_or_full (hstack : L.stack = Strand.idle dead ++ live.strand) {c : Cell (Payload α)}
    (hc : c ∈ (s.layout L held).cells) :
    c.stage = .spent ∨ ∃ n ∈ live ++ held.flatten, c = ⟨n.1, .full n.2⟩ := by
  rcases Layout.mem_cells.1 hc with ⟨r, hr⟩ | ⟨u, hu, hcu⟩
  · by_cases hne : r = .stack
    · subst hne
      rw [Layout.on_withStrands, Layout.on, hstack] at hr
      rcases List.mem_append.1 hr with hidle | hlive
      · exact .inl (Strand.spent_of_mem_idle hidle)
      · obtain ⟨n, hn, rfl⟩ := List.mem_map.1 hlive
        exact .inr ⟨n, List.mem_append_left _ hn, rfl⟩
    · exact .inl (h.idle r hne c hr)
  · rcases List.mem_append.1 hu with hu | hu
    · obtain ⟨u, hmem, rfl⟩ := List.mem_map.1 hu
      obtain ⟨n, hn, rfl⟩ := List.mem_map.1 hcu
      exact .inr ⟨n, List.mem_append_right _ (List.mem_flatten.2 ⟨u, hmem, hn⟩), rfl⟩
    · obtain ⟨l, -, rfl⟩ := List.mem_map.1 hu
      rw [List.mem_singleton.1 hcu]
      exact .inl rfl

omit h howned in
theorem mem_layout (hstack : L.stack = Strand.idle dead ++ live.strand) {n : Link × Payload α}
    (hn : n ∈ live ++ held.flatten) : ⟨n.1, .full n.2⟩ ∈ (s.layout L held).cells := by
  rcases List.mem_append.1 hn with hlive | hheld
  · refine Layout.mem_cells_of_on (r := .stack) ?_
    rw [Layout.on, hstack]
    exact List.mem_append_right _ (List.mem_map_of_mem hlive)
  · obtain ⟨u, hu, hnu⟩ := List.mem_flatten.1 hheld
    refine Layout.mem_cells.2 (.inr ?_)
    exact ⟨Load.strand u, List.mem_append_left _ (List.mem_map_of_mem hu),
      List.mem_map_of_mem hnu⟩

omit howned in
theorem values_held (hstack : L.stack = Strand.idle dead ++ live.strand) {u : Load (Payload α)}
    (hu : u ∈ held) :
    (u.links.filterMap fun l => (s.store.arena.read l).value) = u.values := by
  have hvalue : ∀ n ∈ u, (s.store.arena.read n.1).value = some n.2 := fun n hn =>
    (h.holds _ (mem_layout hstack
      (List.mem_append_right _ (List.mem_flatten.2 ⟨u, hu, hn⟩)))).value_eq
  rw [Load.links, List.filterMap_map, Load.values]
  exact (List.filterMap_congr hvalue).trans (congrFun List.filterMap_eq_map u)

omit howned in
theorem not_mem_chain {u : Load (Payload α)} (hu : u ∈ held) {l : Link} (hl : l ∈ u.links) :
    l ∉ s.store.chain := by
  have hchain : s.store.chain = L.stack.map Cell.link := h.chain_root .stack
  rw [hchain]
  intro hmem
  obtain ⟨c, hc, hcl⟩ := List.mem_map.1 hmem
  obtain ⟨n, hn, hnl⟩ := List.mem_map.1 hl
  have hnodup := h.nodup
  rw [Layout.cells, List.append_assoc, List.append_assoc, List.map_append] at hnodup
  refine (List.nodup_append.1 hnodup).2.2 _ (List.mem_map_of_mem hc) n.1.index ?_ ?_
  · refine List.mem_map.2 ⟨⟨n.1, .full n.2⟩, ?_, rfl⟩
    refine List.mem_append_right _ (List.mem_append_right _ (List.mem_flatten.2 ⟨u.strand, ?_, ?_⟩))
    · exact List.mem_append_left _ (List.mem_map_of_mem hu)
    · exact List.mem_map_of_mem hn
  · rw [Cell.index, hcl, hnl]

end

theorem Sound.filled_eq (hs : s.Sound dead live held) :
    s.filled = (live ++ held.flatten).map Prod.fst := by
  rw [List.map_append, List.map_flatten]
  obtain ⟨L, hstack, h⟩ := hs.tidy
  rw [Session.filled, filled_frames hs.owned fun u hu => between_held (L := L) h hu]
  congr 1
  split
  · rename_i hgone
    rcases hs.gone hgone with hc | ⟨hc, rfl⟩
    · rw [hc, List.flatMap_singleton]
      exact chain_live h hstack
    · rw [hc]
      rfl
  · rename_i hnot
    obtain ⟨rfl, -⟩ := hs.alive (Bool.eq_false_iff.2 hnot)
    have hchain : s.store.chain = L.stack.map Cell.link := h.chain_root .stack
    rw [hchain, hstack]
    exact Load.links_strand live

/-- A slot never handed out has no value. The others have a cell, which tells. -/
theorem Sound.slot_filled (hs : s.Sound dead live held) (i : Nat) :
    ((s.store.arena.slot? i).bind Slot.value).isSome ↔ i ∈ s.filled.map Link.index := by
  rw [hs.filled_eq, List.map_map]
  obtain ⟨L, hstack, h⟩ := hs.tidy
  by_cases hi : i < s.store.arena.fresh
  · obtain ⟨c, hc, rfl⟩ := h.exists_cell hi
    obtain ⟨slot, hslot, -, hvalue⟩ := h.holds c hc
    rw [hslot, Option.bind_some, hvalue]
    constructor
    · intro hsome
      rcases spent_or_full h hstack hc with hspent | ⟨n, hn, rfl⟩
      · rw [hspent] at hsome
        cases hsome
      · exact List.mem_map_of_mem hn
    · intro hmem
      obtain ⟨n, hn, hindex⟩ := List.mem_map.1 hmem
      rw [h.eq_of_index_eq hc (mem_layout hstack hn) hindex.symm]
      rfl
  · have hempty : (s.store.arena.slot? i).bind Slot.value = none := by
      cases hslot : s.store.arena.slot? i with
      | none => rfl
      | some slot =>
        rw [h.sound.unused (Nat.le_of_not_lt hi) hslot]
        rfl
    rw [hempty]
    refine ⟨fun hsome => (by cases hsome), fun hmem => absurd ?_ hi⟩
    obtain ⟨n, hn, rfl⟩ := List.mem_map.1 hmem
    exact h.index_lt (mem_layout hstack hn)

theorem Sound.partitioned (hs : s.Sound dead live held) : s.Partitioned := by
  obtain ⟨L, hstack, h⟩ := hs.tidy
  have hplaces := places_perm h hs.owned
  have hthreads : ∀ r,
      s.store.arena.Threads (s.store.root r) (s.store.arena.chain (s.store.root r)) := by
    intro r
    rw [h.chain_root r]
    exact (h.rooted r).threads
  refine ⟨hthreads .stack, hthreads .free, hthreads .orphans, ?_, fun l hl => ?_, hs.slot_filled⟩
  · apply (hplaces.map _).trans
    rw [List.map_map]
    exact h.exactly
  · obtain ⟨c, hc, rfl⟩ := List.mem_map.1 (hplaces.mem_iff.1 hl)
    obtain ⟨slot, hslot, hlink, -⟩ := h.holds c hc
    exact ⟨slot, hslot, hlink⟩

/-- In every state of every run, each slot handed out is in exactly one place. -/
theorem partitioned_play (p : Plan) (moves : List (Move α)) :
    ((ofPlan p : Session α).play moves).Partitioned := by
  obtain ⟨_, _, _, hs, -⟩ := (sound_ofPlan p).play moves
  exact hs.partitioned

end Session

end RecyclingStack
