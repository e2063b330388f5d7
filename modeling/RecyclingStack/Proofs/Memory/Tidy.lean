import RecyclingStack.Proofs.Memory.Nodes

/-! A store as those see it who work with its stack: the chain on the head and the private strands.
Which of the other nodes are free and which are orphaned is left open. -/
namespace RecyclingStack

namespace Strand

variable {β : Type}

theorem loose_append (ls ms : List Link) :
    (loose (ls ++ ms) : List (Strand β)) = loose ls ++ loose ms :=
  List.map_append

theorem loose_perm {ls ms : List Link} (h : ls.Perm ms) :
    (loose ls : List (Strand β)).Perm (loose ms) :=
  h.map _

end Strand

namespace Arena

variable {β : Type}

theorem next_modify (a : Arena β) {i : Nat} {f : Slot β → Slot β}
    (hf : ∀ slot, (f slot).next = slot.next) (l : Link) : (a.modify i f).next l = a.next l := by
  cases l with
  | nil => rfl
  | node j g =>
    simp only [next, read_node, slot?_modify]
    split
    · cases a.slot? j with
      | none => rfl
      | some slot => exact hf slot
    · rfl

theorem next_update (a : Arena β) (l : Link) {f : Slot β → Slot β}
    (hf : ∀ slot, (f slot).next = slot.next) (m : Link) : (a.update l f).next m = a.next m := by
  cases l with
  | nil => rfl
  | node i g => exact next_modify a hf m

/-- What a strand says of forward links depends on its links only. -/
theorem Leads.of_links {a : Arena β} {u w : Strand β} {l e : Link}
    (huw : u.map Cell.link = w.map Cell.link) (h : a.Leads l u e) : a.Leads l w e := by
  induction u generalizing w l with
  | nil =>
    rw [List.map_eq_nil_iff.1 huw.symm]
    exact h
  | cons c u ih =>
    cases w with
    | nil => cases huw
    | cons d w =>
      have hcd : c.link = d.link := (List.cons.inj huw).1
      exact ⟨h.1.trans hcd, ih (List.cons.inj huw).2 (hcd ▸ h.2)⟩

end Arena

namespace Store

variable {β : Type} {s t : Store β} {L : Layout β} {u w : Strand β} {rest : List (Strand β)}

/-- The value is taken out of a node that stays on the stack. -/
theorem Laid.spend {c : Cell β} (h : s.Laid L) (hstack : L.stack = u ++ c :: w) :
    (s.withArena (s.arena.clearValue c.link)).Laid
      (L.hang (u ++ Cell.spent c.link :: w) .stack) := by
  have hcell : c ∈ L.cells :=
    Layout.mem_cells.2 (.inl ⟨.stack, by rw [Layout.on, hstack]; simp⟩)
  have hcells : L.cells.Perm (c :: (L.hang (u ++ w) .stack).cells) := by
    simp only [Layout.cells, Layout.hang, hstack, List.append_assoc, List.cons_append]
    exact List.perm_middle
  have hcells' : (L.hang (u ++ Cell.spent c.link :: w) .stack).cells.Perm
      (Cell.spent c.link :: (L.hang (u ++ w) .stack).cells) := by
    simp only [Layout.cells, Layout.hang, List.append_assoc, List.cons_append]
    exact List.perm_middle
  have hother : ∀ d ∈ (L.hang (u ++ w) .stack).cells, d.index ≠ c.index := by
    have hnodup := ((hcells.map Cell.index).nodup_iff).1 h.nodup
    rw [List.map_cons] at hnodup
    exact fun d hd heq => (List.nodup_cons.1 hnodup).1 (heq ▸ List.mem_map_of_mem hd)
  have hclear : s.arena.clearValue c.link =
      s.arena.modify c.index fun slot => { slot with value := none } := by
    rw [Arena.clearValue, (h.holds c hcell).update_eq]
  have hnext : ∀ l, (s.arena.clearValue c.link).next l = s.arena.next l := by
    intro l
    rw [hclear, Arena.next_modify]
    exact fun _ => rfl
  have hlead : ∀ r, (s.arena.clearValue c.link).Leads (s.root r) (L.on r) .nil := fun r =>
    (h.rooted r).congr fun d _ => hnext d.link
  refine ⟨?_, ?_, ?_, ?_, ?_, ?_⟩
  · rw [arena_withArena, hclear]
    exact h.sound.modify (h.index_lt hcell) _
  · intro r
    rw [arena_withArena, root_withArena, Layout.on_hang]
    split
    · rename_i hr
      apply (hlead r).of_links
      rw [← hr, Layout.on, hstack]
      simp [Cell.spent]
    · exact hlead r
  · exact fun v hv => (h.strung v hv).congr fun d _ => hnext d.link
  · have hfresh : (s.arena.clearValue c.link).fresh = s.arena.fresh := by rw [hclear]; rfl
    rw [arena_withArena, hfresh]
    exact (hcells'.map _).trans ((hcells.map _).symm.trans h.exactly)
  · intro d hd
    rw [arena_withArena, hclear]
    rcases List.mem_cons.1 (hcells'.mem_iff.1 hd) with rfl | hd
    · obtain ⟨slot, hslot, hl, -⟩ := h.holds c hcell
      refine ⟨{ slot with value := none }, ?_, hl, rfl⟩
      rw [show (Cell.spent c.link : Cell β).index = c.index from rfl, Arena.slot?_modify,
        if_pos rfl, hslot]
      rfl
    · apply (h.holds d (hcells.mem_iff.2 (List.mem_cons_of_mem c hd))).congr
      rw [Arena.slot?_modify, if_neg (hother d hd).symm]
  · intro r hr d hd
    rw [Layout.on_hang, if_neg (Ne.symm hr)] at hd
    exact h.idle r hr d hd

theorem Laid.length_le (h : s.Laid L) (hu : u.Sublist L.cells) : u.length ≤ s.arena.fresh := by
  have hlength := (hu.map Cell.index).length_le
  rwa [h.exactly.length_eq, List.length_range, List.length_map] at hlength

theorem Laid.chain_of_leads (h : s.Laid L) (hu : u.Sublist L.cells) {l : Link}
    (hlead : s.arena.Leads l u .nil) : s.arena.chain l = u.map Cell.link :=
  Arena.follow_of_leads hlead (fun _ hc => h.ne_nil (hu.subset hc)) (h.length_le hu)

theorem Laid.chain_cons {c : Cell β} (h : s.Laid L) (hu : (c :: u).Sublist L.cells) {l : Link}
    (hlead : s.arena.Leads l (c :: u) .nil) :
    s.arena.chain l = c.link :: s.arena.chain (s.arena.next c.link) := by
  rw [h.chain_of_leads hu hlead, h.chain_of_leads ((List.sublist_cons_self c u).trans hu) hlead.2]
  rfl

theorem Laid.between_of_strung (h : s.Laid L) (hu : u.Sublist L.cells)
    (hstrung : s.arena.Strung u) :
    s.arena.between s.arena.fresh u.first u.last = u.map Cell.link := by
  refine Arena.between_of_strung hstrung ?_ (fun _ hc => h.ne_nil (hu.subset hc)) (h.length_le hu)
  apply List.Nodup.of_map Link.index
  rw [List.map_map]
  exact h.nodup.sublist (hu.map Cell.index)

theorem Laid.chain_root (h : s.Laid L) (r : Root) :
    s.arena.chain (s.root r) = (L.on r).map Cell.link :=
  h.chain_of_leads (L.sublist_on r) (h.rooted r)

/-- What hangs on a root is what it leads to. -/
theorem Laid.links_on (h : s.Laid L) {r : Root} (hlead : s.arena.Leads (s.root r) u .nil)
    (hnil : ∀ c ∈ u, c.link ≠ .nil) : (L.on r).map Cell.link = u.map Cell.link :=
  (h.rooted r).links_eq hlead (fun _ hc => h.ne_nil ((L.sublist_on r).subset hc)) hnil

theorem Laid.between_strand (h : s.Laid L) (hu : u ∈ L.strands) :
    s.arena.between s.arena.fresh u.first u.last = u.map Cell.link :=
  h.between_of_strung (Layout.sublist_strand hu) (h.strung u hu)

def Tidy (s : Store β) (stack : Strand β) (strands : List (Strand β)) : Prop :=
  ∃ L : Layout β, L.stack = stack ∧ s.Laid (L.withStrands strands)

namespace Tidy

theorem perm {strands : List (Strand β)} (h : s.Tidy u rest) (hp : rest.Perm strands) :
    s.Tidy u strands := by
  obtain ⟨L, hL, h⟩ := h
  exact ⟨L, hL, h.reorder hp⟩

theorem of_eq (ha : t.arena = s.arena) (hr : ∀ r, t.root r = s.root r) (h : s.Tidy u rest) :
    t.Tidy u rest := by
  obtain ⟨L, hL, h⟩ := h
  exact ⟨L, hL, h.of_eq ha hr⟩

theorem dropNil (h : s.Tidy u ([] :: rest)) : s.Tidy u rest := by
  obtain ⟨L, hL, h⟩ := h
  exact ⟨L, hL, h.dropNil⟩

theorem addNil (h : s.Tidy u rest) : s.Tidy u ([] :: rest) := by
  obtain ⟨L, hL, h⟩ := h
  exact ⟨L, hL, h.addNil⟩

theorem head_eq (h : s.Tidy u rest) : s.head = u.first := by
  obtain ⟨L, rfl, h⟩ := h
  exact h.root_eq .stack

theorem chain_eq (h : s.Tidy u rest) : s.chain = u.map Cell.link := by
  obtain ⟨L, rfl, h⟩ := h
  exact h.chain_root .stack

theorem values_eq (h : s.Tidy u rest) : s.values = u.filterMap fun c => c.stage.value := by
  rw [values, h.chain_eq, List.filterMap_map]
  apply List.filterMap_congr
  intro c hc
  obtain ⟨L, rfl, h⟩ := h
  exact (h.holds c (Layout.mem_cells.2 (.inl ⟨.stack, hc⟩))).value_eq

theorem next_eq {c : Cell β} (h : s.Tidy u ((c :: w) :: rest)) (hw : w ≠ []) :
    s.arena.next c.link = w.first := by
  obtain ⟨L, -, h⟩ := h
  cases w with
  | nil => exact absurd rfl hw
  | cons d w => exact (h.strung _ List.mem_cons_self).next_eq

theorem first_ne_nil (h : s.Tidy u (w :: rest)) (hw : w ≠ []) : w.first ≠ .nil := by
  obtain ⟨L, -, h⟩ := h
  cases w with
  | nil => exact absurd rfl hw
  | cons c w => exact h.ne_nil ((L.cells_cons _ rest).mem_iff.2 List.mem_cons_self)

theorem link_ne {c d : Cell β} (h : s.Tidy u ((c :: w) :: rest)) (hd : d ∈ w) :
    d.link ≠ c.link := by
  obtain ⟨L, -, h⟩ := h
  have hnodup := (((L.cells_cons (c :: w) rest).map Cell.index).nodup_iff).1 h.nodup
  intro heq
  have hindex : d.index = c.index := congrArg Link.index heq
  refine (List.nodup_cons.1 hnodup).1 (hindex ▸ List.mem_map_of_mem ?_)
  exact List.mem_append_left _ hd

theorem allocate {granted : Bool} {v : β} {l : Link} (h : s.Tidy u rest)
    (hok : (s.allocate granted v).answer = .ok l) :
    (s.allocate granted v).state.Tidy u ([⟨l, .full v⟩] :: rest) := by
  obtain ⟨L, rfl, h⟩ := h
  obtain ⟨free, h⟩ := h.allocate hok
  exact ⟨L.hang free .free, rfl, h⟩

theorem link {c : Cell β} (h : s.Tidy u ([c] :: w :: rest)) :
    (s.setNext c.link w.first).Tidy u ((c :: w) :: rest) := by
  obtain ⟨L, rfl, h⟩ := h
  obtain ⟨h, hlead⟩ := Laid.aim (u := []) w.first h
  exact ⟨L, rfl, h.merge (u := [c]) hlead⟩

theorem takeValue {c : Cell β} {v : β} (h : s.Tidy u ((c :: w) :: rest)) (hc : c.stage = .full v) :
    s.takeValue c.link = some (v, s.withArena (s.arena.clearValue c.link)) ∧
      (s.withArena (s.arena.clearValue c.link)).Tidy u ([Cell.spent c.link] :: w :: rest) := by
  obtain ⟨L, rfl, h⟩ := h
  obtain ⟨t, htake, rfl, h⟩ := h.takeValue hc
  exact ⟨htake, L, rfl, h⟩

theorem deallocate {l : Link} (h : s.Tidy u ([Cell.spent l] :: rest)) :
    (s.deallocate l).Tidy u rest := by
  obtain ⟨L, rfl, h⟩ := h
  exact ⟨L.hang (Cell.spent l :: L.free) .free, rfl, h.deallocate⟩

theorem spend {c : Cell β} {v : β} (h : s.Tidy (u ++ c :: w) rest) (hc : c.stage = .full v) :
    s.takeValue c.link = some (v, s.withArena (s.arena.clearValue c.link)) ∧
      (s.withArena (s.arena.clearValue c.link)).Tidy (u ++ Cell.spent c.link :: w) rest ∧
      s.arena.next c.link = w.first := by
  obtain ⟨L, hL, h⟩ := h
  have hcell : c ∈ (L.withStrands rest).cells :=
    Layout.mem_cells_of_on (r := .stack) (by rw [Layout.on, hL]; simp)
  have hvalue := (h.holds c hcell).value_eq
  rw [hc] at hvalue
  refine ⟨?_, ⟨L.hang (u ++ Cell.spent c.link :: w) .stack, rfl, h.spend hL⟩, ?_⟩
  · simp only [Store.takeValue, hvalue]
    rfl
  · have hlead := h.rooted .stack
    rw [Layout.on_withStrands, Layout.on, hL] at hlead
    obtain ⟨m, -, hlead⟩ := Arena.leads_append.1 hlead
    have hnext := hlead.2
    cases w with
    | nil => exact hnext
    | cons d w => exact hnext.1

end Tidy

end Store

end RecyclingStack
