import RecyclingStack.Proofs.Memory.Layout

/-! The small changes that all operations on a store are made of, and how each moves cells from one
place of the layout to another: a write to a private slot, a strand hung on a root, the top of a
chain or a whole chain taken off, and a slot handed out for the first time. -/
namespace RecyclingStack

namespace Arena

variable {β : Type}

theorem next_congr {a b : Arena β} {l : Link} (h : b.slot? l.index = a.slot? l.index) :
    b.next l = a.next l := by
  cases l with
  | nil => rfl
  | node i g =>
    have hi : b.slot? i = a.slot? i := h
    simp only [next, read_node, hi]

/-- A slot is there once its segment is. -/
theorem Sound.isSome_slot? {a : Arena β} (h : a.Sound) {i : Nat}
    (hinst : a.installed (locate i).segment = true) : (a.slot? i).isSome = true := by
  obtain ⟨slots, hslots⟩ := Option.isSome_iff_exists.1 hinst
  have hoff : (locate i).offset < slots.size := by
    rw [h.size hslots]
    exact offset_locate_lt i
  simp [slot?, hslots, hoff]

/-- The one that is the next to be handed out was never used. -/
theorem Sound.slot?_fresh {a : Arena β} (h : a.Sound)
    (hinst : a.installed (locate a.fresh).segment = true) : a.slot? a.fresh = some {} := by
  obtain ⟨slot, hslot⟩ := Option.isSome_iff_exists.1 (h.isSome_slot? hinst)
  rw [hslot, h.unused (Nat.le_refl _) hslot]

theorem segment_locate_lt {i : Nat} (h : i < maxCapacity) : (locate i).segment < segmentCount := by
  apply Nat.lt_of_not_le
  intro hle
  have hstart := start_add_offset_locate i
  have hpow : 2 ^ segmentCount ≤ 2 ^ (locate i).segment := Nat.pow_le_pow_right (by decide) hle
  simp only [maxCapacity, segmentStart, firstSegmentLength, Nat.shiftLeft_eq] at *
  omega

theorem Sound.segment_lt {a : Arena β} (h : a.Sound) (hroom : a.fresh < a.capacity) :
    (locate a.fresh).segment < a.directory.length :=
  h.length ▸ segment_locate_lt (Nat.lt_of_lt_of_le hroom h.capacity_le)

theorem Sound.claim {a : Arena β} (h : a.Sound) (hroom : a.fresh < a.capacity) :
    ({ a with fresh := a.fresh + 1 } : Arena β).Sound where
  capacity_le := h.capacity_le
  fresh_le := hroom
  length := h.length
  size := h.size
  unused := fun hi hslot => h.unused (Nat.le_of_succ_le hi) hslot

theorem segment?_none {a : Arena β} {segment : Nat} (h : a.installed segment = false) :
    a.segment? segment = none := by
  simpa [installed] using h

theorem Sound.install {a : Arena β} (h : a.Sound) (hroom : a.fresh < a.capacity) :
    (a.install (locate a.fresh).segment).Sound where
  capacity_le := h.capacity_le
  fresh_le := h.fresh_le
  length := (length_directory_install a _).trans h.length
  size := by
    intro segment slots hs
    rw [segment?_install a (h.segment_lt hroom)] at hs
    split at hs
    · rename_i heq
      rw [← Option.some.inj hs, Array.size_replicate, heq]
    · exact h.size hs
  unused := by
    intro i slot hi hs
    rw [slot?_install a (h.segment_lt hroom)] at hs
    split at hs
    · exact (Option.some.inj hs).symm
    · exact h.unused hi hs

theorem Sound.installed_install {a : Arena β} (h : a.Sound) (hroom : a.fresh < a.capacity) :
    (a.install (locate a.fresh).segment).installed (locate a.fresh).segment = true := by
  rw [installed, segment?_install a (h.segment_lt hroom), if_pos rfl]
  rfl

end Arena

namespace Store

variable {β : Type}

namespace Laid

variable {s t : Store β} {L : Layout β}

theorem of_eq (ha : t.arena = s.arena) (hr : ∀ r, t.root r = s.root r) (h : s.Laid L) :
    t.Laid L where
  sound := ha ▸ h.sound
  rooted := fun r => by rw [ha, hr r]; exact h.rooted r
  strung := ha ▸ h.strung
  exactly := ha ▸ h.exactly
  holds := ha ▸ h.holds
  idle := h.idle

theorem congr {b : Arena β} (hsound : b.Sound) (hfresh : b.fresh = s.arena.fresh)
    (hslot : ∀ c ∈ L.cells, b.slot? c.index = s.arena.slot? c.index) (h : s.Laid L) :
    (s.withArena b).Laid L where
  sound := hsound
  rooted := by
    intro r
    rw [root_withArena]
    exact (h.rooted r).congr fun c hc =>
      Arena.next_congr (hslot c (Layout.mem_cells.2 (.inl ⟨r, hc⟩)))
  strung := fun u hu => (h.strung u hu).congr fun c hc =>
    Arena.next_congr (hslot c (Layout.mem_cells.2 (.inr ⟨u, hu, hc⟩)))
  exactly := by rw [arena_withArena, hfresh]; exact h.exactly
  holds := fun c hc => (h.holds c hc).congr (hslot c hc)
  idle := h.idle

theorem index_ne {u : Strand β} {rest : List (Strand β)}
    (h : s.Laid (L.withStrands (u :: rest))) {c d : Cell β} (hc : c ∈ u)
    (hd : d ∈ (L.withStrands rest).cells) : d.index ≠ c.index := by
  have hnodup := (((L.cells_cons u rest).map Cell.index).nodup_iff).1 h.nodup
  rw [List.map_append] at hnodup
  intro heq
  exact (List.nodup_append.1 hnodup).2.2 _ (List.mem_map_of_mem hc) _ (List.mem_map_of_mem hd)
    heq.symm

/-- The last slot of a private strand can be written at will, as long as its link stays right for
the cell before it. -/
theorem modify {u : Strand β} {c k : Cell β} {rest : List (Strand β)} {f : Slot β → Slot β}
    (h : s.Laid (L.withStrands ((u ++ [c]) :: rest))) (hi : k.index = c.index)
    (hlink : u = [] ∨ k.link = c.link)
    (hf : ∀ slot, s.arena.slot? c.index = some slot → c.link = .node c.index slot.generation →
      slot.value = c.stage.value →
      k.link = .node c.index (f slot).generation ∧ (f slot).value = k.stage.value) :
    (s.withArena (s.arena.modify c.index f)).Laid (L.withStrands ((u ++ [k]) :: rest)) := by
  have hcell : c ∈ (L.withStrands ((u ++ [c]) :: rest)).cells :=
    (L.cells_cons _ rest).mem_iff.2 (by simp)
  have hlt := h.index_lt hcell
  have hother : ∀ d ∈ (L.withStrands rest).cells, d.index ≠ c.index :=
    fun d hd => h.index_ne (by simp) hd
  have hbefore : ∀ d ∈ u, d.index ≠ c.index := by
    have hnodup := (((L.cells_cons (u ++ [c]) rest).map Cell.index).nodup_iff).1 h.nodup
    simp only [List.map_append, List.map_cons, List.map_nil] at hnodup
    have hparts := List.nodup_append.1 (List.nodup_append.1 hnodup).1
    exact fun d hd => hparts.2.2 _ (List.mem_map_of_mem hd) _ (by simp)
  have hslot : ∀ d : Cell β, d.index ≠ c.index →
      (s.arena.modify c.index f).slot? d.index = s.arena.slot? d.index := by
    intro d hd
    rw [Arena.slot?_modify, if_neg (Ne.symm hd)]
  have hcellsOf : ∀ x : Cell β, (L.withStrands ((u ++ [x]) :: rest)).cells.Perm
      (x :: (u ++ (L.withStrands rest).cells)) := by
    intro x
    apply (L.cells_cons _ rest).trans
    rw [List.append_assoc]
    exact List.perm_middle
  refine ⟨h.sound.modify hlt f, ?_, ?_, ?_, ?_, ?_⟩
  · intro r
    rw [root_withArena]
    have hr := h.rooted r
    simp only [Layout.on_withStrands] at hr ⊢
    exact hr.congr fun d hd => Arena.next_congr (hslot d (hother d (Layout.mem_cells.2 (.inl ⟨r, by
      simpa using hd⟩))))
  · intro w hw
    rcases List.mem_cons.1 hw with rfl | hw
    · have hstrung := h.strung _ List.mem_cons_self
      rcases u.eq_nil_or_concat with rfl | ⟨init, d, rfl⟩
      · exact Arena.strung_singleton _ k
      · obtain ⟨e, hlead⟩ := hstrung
        obtain ⟨m, hu, hm⟩ := Arena.leads_append.1 hlead
        have hcl : k.link = c.link := hlink.resolve_left (by simp)
        rw [hm.first_eq, ← hcl] at hu
        refine Arena.Leads.strung_append (l := _) (hu.congr fun d hd => ?_)
          (Arena.strung_singleton _ k)
        exact Arena.next_congr (hslot d (hbefore d hd))
    · exact (h.strung w (List.mem_cons_of_mem _ hw)).congr fun d hd =>
        Arena.next_congr (hslot d (hother d (Layout.mem_cells.2 (.inr ⟨w, hw, hd⟩))))
  · have hold := ((hcellsOf c).map Cell.index).symm.trans h.exactly
    apply ((hcellsOf k).map Cell.index).trans
    rw [List.map_cons, hi]
    exact hold
  · intro d hd
    rcases List.mem_cons.1 ((hcellsOf k).mem_iff.1 hd) with rfl | hd
    · obtain ⟨slot, hs, hl, hv⟩ := h.holds c hcell
      obtain ⟨hl', hv'⟩ := hf slot hs hl hv
      refine ⟨f slot, ?_, by rw [hi]; exact hl', hv'⟩
      rw [hi, arena_withArena, Arena.slot?_modify, if_pos rfl, hs]
      rfl
    · have hne : d.index ≠ c.index := (List.mem_append.1 hd).elim (hbefore d) (hother d)
      refine (h.holds d ((hcellsOf c).mem_iff.2 (List.mem_cons_of_mem c hd))).congr (hslot d hne)
  · intro r hr
    simpa using h.idle r hr

/-- The last node of a private strand is made to lead to `l`. -/
theorem aim {u : Strand β} {c : Cell β} {rest : List (Strand β)} (l : Link)
    (h : s.Laid (L.withStrands ((u ++ [c]) :: rest))) :
    (s.setNext c.link l).Laid (L.withStrands ((u ++ [c]) :: rest)) ∧
      (s.setNext c.link l).arena.Leads (Strand.first (u ++ [c])) (u ++ [c]) l := by
  have hcell : c ∈ (L.withStrands ((u ++ [c]) :: rest)).cells :=
    (L.cells_cons _ rest).mem_iff.2 (by simp)
  have hholds := h.holds c hcell
  have hset : s.setNext c.link l =
      s.withArena (s.arena.modify c.index fun slot => { slot with next := l }) := by
    rw [setNext, Arena.setNext, hholds.update_eq]
  have hlaid := h.modify (k := c) (f := fun slot => { slot with next := l }) rfl (.inr rfl)
    fun slot _ hl hv => ⟨hl, hv⟩
  rw [hset]
  refine ⟨hlaid, ?_⟩
  obtain ⟨e, hlead⟩ := hlaid.strung _ List.mem_cons_self
  obtain ⟨m, hu, hm⟩ := Arena.leads_append.1 hlead
  refine Arena.leads_append.2 ⟨m, hu, hm.1, ?_⟩
  obtain ⟨slot, hs, hl, -⟩ := hholds
  rw [hl, arena_withArena, Arena.next_node (x := { slot with next := l })]
  · exact rfl
  · rw [Arena.slot?_modify, if_pos rfl, hs]
    rfl

/-- A strand that leads to the top of a chain becomes the top of that chain. -/
theorem push {u : Strand β} {rest : List (Strand β)} {r : Root}
    (h : s.Laid (L.withStrands (u :: rest))) (hlead : s.arena.Leads u.first u (s.root r))
    (hidle : r ≠ .stack → ∀ c ∈ u, c.stage = .spent) :
    (s.setRoot u.first r).Laid ((L.hang (u ++ L.on r) r).withStrands rest) where
  sound := by rw [arena_setRoot]; exact h.sound
  rooted := by
    intro q
    rw [arena_setRoot, root_setRoot, Layout.on_withStrands, Layout.on_hang]
    split
    · rename_i hrq
      have hr := h.rooted r
      rw [Layout.on_withStrands] at hr
      exact Arena.leads_append.2 ⟨_, hlead, hr⟩
    · have hq := h.rooted q
      rwa [Layout.on_withStrands] at hq
  strung := by
    rw [arena_setRoot]
    exact fun w hw => h.strung w (List.mem_cons_of_mem _ hw)
  exactly := by
    rw [arena_setRoot]
    exact ((L.cells_hang_append u rest r).map _).trans h.exactly
  holds := by
    rw [arena_setRoot]
    exact fun c hc => h.holds c ((L.cells_hang_append u rest r).mem_iff.1 hc)
  idle := by
    intro q hq c hc
    rw [Layout.on_withStrands, Layout.on_hang] at hc
    have hold : ∀ d ∈ L.on q, d.stage = .spent := by simpa using h.idle q hq
    split at hc
    · rename_i hrq
      subst hrq
      exact (List.mem_append.1 hc).elim (hidle hq c) (hold c)
    · exact hold c hc

theorem root_eq (h : s.Laid L) (r : Root) : s.root r = (L.on r).first := by
  have hr := h.rooted r
  cases hL : L.on r with
  | nil => rw [hL] at hr; exact hr
  | cons c u => rw [hL] at hr; exact hr.1

/-- The first cells of a chain are taken off, when the root is made to point behind them. -/
theorem drop {u w : Strand β} {r : Root} {l : Link} (h : s.Laid L) (hr : L.on r = u ++ w)
    (hl : s.arena.Leads l w .nil) :
    (s.setRoot l r).Laid ((L.hang w r).withStrands (u :: L.strands)) := by
  have hcells : L.cells.Perm ((L.hang w r).withStrands (u :: L.strands)).cells := by
    classical
    apply List.perm_iff_count.2
    intro c
    cases r <;> simp_all [Layout.cells, Layout.on, Layout.hang, Layout.withStrands] <;> omega
  refine ⟨?_, ?_, ?_, ?_, ?_, ?_⟩
  · rw [arena_setRoot]
    exact h.sound
  · intro q
    rw [arena_setRoot, root_setRoot, Layout.on_withStrands, Layout.on_hang]
    split
    · exact hl
    · exact h.rooted q
  · intro es hes
    rw [arena_setRoot]
    rcases List.mem_cons.1 hes with rfl | hes
    · obtain ⟨m, hlead, -⟩ := Arena.leads_append.1 (hr ▸ h.rooted r)
      exact hlead.strung
    · exact h.strung es hes
  · rw [arena_setRoot]
    exact (hcells.symm.map _).trans h.exactly
  · intro c hc
    rw [arena_setRoot]
    exact h.holds c (hcells.mem_iff.2 hc)
  · intro q hq c hc
    rw [Layout.on_withStrands, Layout.on_hang] at hc
    split at hc
    · rename_i hrq
      exact h.idle q hq c (by rw [← hrq, hr]; exact List.mem_append_right _ hc)
    · exact h.idle q hq c hc

theorem pop {c : Cell β} {u : Strand β} {r : Root} (h : s.Laid L) (hr : L.on r = c :: u) :
    (s.setRoot (s.arena.next c.link) r).Laid ((L.hang u r).withStrands ([c] :: L.strands)) := by
  have hlead := h.rooted r
  rw [hr] at hlead
  exact h.drop (u := [c]) hr hlead.2

theorem take (h : s.Laid L) (r : Root) :
    (s.setRoot .nil r).Laid ((L.hang [] r).withStrands (L.on r :: L.strands)) :=
  h.drop (List.append_nil _).symm rfl

/-- Memory for the next segment changes nothing that is in use. -/
theorem slot?_install (h : s.Laid L) (hroom : s.arena.fresh < s.arena.capacity)
    (hinst : s.arena.installed (locate s.arena.fresh).segment = false) {c : Cell β}
    (hc : c ∈ L.cells) : (s.arena.install (locate s.arena.fresh).segment).slot? c.index =
      s.arena.slot? c.index := by
  rw [Arena.slot?_install _ (h.sound.segment_lt hroom), if_neg]
  intro hseg
  obtain ⟨slot, hs, -⟩ := h.holds c hc
  rw [Arena.slot?, ← hseg, Arena.segment?_none hinst] at hs
  cases hs

theorem install (h : s.Laid L) (hroom : s.arena.fresh < s.arena.capacity)
    (hinst : s.arena.installed (locate s.arena.fresh).segment = false) :
    (s.withArena (s.arena.install (locate s.arena.fresh).segment)).Laid L :=
  h.congr (h.sound.install hroom) rfl fun _ hc => h.slot?_install hroom hinst hc

theorem claim (h : s.Laid L) (hroom : s.arena.fresh < s.arena.capacity)
    (hinst : s.arena.installed (locate s.arena.fresh).segment = true) :
    (s.withArena { s.arena with fresh := s.arena.fresh + 1 }).Laid
      (L.withStrands ([⟨.node s.arena.fresh 0, .taken⟩] :: L.strands)) where
  sound := h.sound.claim hroom
  rooted := by
    intro r
    rw [root_withArena, Layout.on_withStrands]
    exact (h.rooted r).congr (a := s.arena) fun c _ => rfl
  strung := by
    intro u hu
    rcases List.mem_cons.1 hu with rfl | hu
    · exact Arena.strung_singleton _ _
    · exact (h.strung u hu).congr (a := s.arena) fun c _ => rfl
  exactly := by
    apply ((L.cells_cons _ _).map _).trans
    rw [arena_withArena, List.range_succ]
    exact (h.exactly.cons s.arena.fresh).trans (List.perm_append_singleton _ _).symm
  holds := by
    intro c hc
    rcases List.mem_cons.1 ((L.cells_cons _ _).mem_iff.1 hc) with rfl | hc
    · exact ⟨{}, h.sound.slot?_fresh hinst, rfl, rfl⟩
    · exact h.holds c hc
  idle := fun r hr => by simpa using h.idle r hr

end Laid

end Store

end RecyclingStack
