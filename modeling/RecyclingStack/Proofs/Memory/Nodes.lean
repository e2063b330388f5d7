import RecyclingStack.Proofs.Memory.Moves

/-! What getting a node, giving one back, publishing a private chain, popping and leaving nodes
behind do to the layout of a store. -/
namespace RecyclingStack

/-- Nodes without value, each by itself. -/
def Strand.loose {β : Type} (links : List Link) : List (Strand β) :=
  links.map fun l => [Cell.spent l]

/-- Nodes without value, one after the other. -/
def Strand.idle {β : Type} (links : List Link) : Strand β := links.map Cell.spent

theorem Strand.flatten_loose {β : Type} (links : List Link) :
    (loose links : List (Strand β)).flatten = idle links := by
  induction links with
  | nil => rfl
  | cons l links ih => exact congrArg (Cell.spent l :: ·) ih

theorem Strand.spent_of_mem_idle {β : Type} {links : List Link} {c : Cell β}
    (h : c ∈ (idle links : Strand β)) : c.stage = .spent := by
  obtain ⟨l, -, rfl⟩ := List.mem_map.1 h
  rfl

theorem Strand.map_link_idle {β : Type} (links : List Link) :
    (idle links : Strand β).map Cell.link = links := by
  simp [idle, Cell.spent, Function.comp_def]

theorem Strand.eq_idle {β : Type} {u : Strand β} (h : ∀ c ∈ u, c.stage = .spent) :
    u = idle (u.map Cell.link) := by
  rw [idle, List.map_map]
  refine (List.map_id u).symm.trans (List.map_congr_left fun c hc => ?_)
  cases c with
  | mk l stage => exact congrArg (Cell.mk l) (h _ hc)

abbrev Load (β : Type) := List (Link × β)

namespace Load

variable {β : Type}

def strand (u : Load β) : Strand β := u.map fun n => ⟨n.1, .full n.2⟩

def links (u : Load β) : List Link := u.map Prod.fst

def values (u : Load β) : List β := u.map Prod.snd

theorem strand_cons (n : Link × β) (u : Load β) :
    strand (n :: u) = ⟨n.1, .full n.2⟩ :: strand u := rfl

theorem strand_append (u w : Load β) : strand (u ++ w) = strand u ++ strand w := List.map_append

theorem strand_ne_nil {u : Load β} (h : u ≠ []) : strand u ≠ [] := fun hu =>
  h (List.map_eq_nil_iff.1 hu)

theorem values_strand (u : Load β) : (strand u).filterMap (fun c => c.stage.value) = values u := by
  rw [strand, List.filterMap_map]
  exact congrFun List.filterMap_eq_map u

theorem links_strand (u : Load β) : (strand u).map Cell.link = links u := by
  simp [strand, links]

end Load

namespace Store

variable {β : Type} {s : Store β} {L : Layout β}

theorem deallocate_eq (s : Store β) (l : Link) :
    s.deallocate l = (s.setNext l s.pool.free).setRoot l .free := rfl

theorem publish_eq (s : Store β) (first last : Link) :
    s.publish first last = (s.setNext last s.head).setRoot first .stack := rfl

theorem thread_eq (s : Store β) (tail : Link) (links : List Link) :
    s.thread tail links = s.withArena (s.thread tail links).arena := by
  induction links generalizing s with
  | nil => rfl
  | cons l links ih =>
    cases links with
    | nil => rfl
    | cons next links => exact ih (s.setNext l next)

theorem takeValue_eq_some {store : Store β} {l : Link} {v : β}
    (h : s.takeValue l = some (v, store)) :
    (s.arena.read l).value = some v ∧ store = s.withArena (s.arena.clearValue l) := by
  rw [takeValue] at h
  split at h
  · cases h
  · rename_i hvalue
    cases h
    exact ⟨hvalue, rfl⟩

theorem allocate_error {granted : Bool} {value : β} {failure : Exhausted}
    (h : (s.allocate granted value).answer = .error failure) :
    (s.allocate granted value).state = s := by
  rcases s with ⟨settings, ⟨arena, free⟩, head, orphans, epoch, shutdown⟩
  cases free with
  | node i g => cases h
  | nil =>
    have hclaims := arena.claims_allocFresh granted
    simp only [allocate, Pool.allocate] at h ⊢
    generalize arena.allocFresh granted = claim at h hclaims ⊢
    cases hclaims with
    | full | starves => rfl
    | fills | opens => cases h

namespace Laid

/-- A slot that belongs to nobody else starts its next incarnation. -/
theorem incarnate {c : Cell β} {rest : List (Strand β)} {v : β}
    (h : s.Laid (L.withStrands ([c] :: rest))) :
    ({ s with pool := (s.pool.incarnate c.index v).1 } : Store β).Laid
      (L.withStrands ([⟨(s.pool.incarnate c.index v).2, .full v⟩] :: rest)) := by
  have hcell : c ∈ (L.withStrands ([c] :: rest)).cells :=
    (L.cells_cons _ rest).mem_iff.2 List.mem_cons_self
  obtain ⟨slot, hslot, -, -⟩ := h.holds c hcell
  have hnew : ((s.arena.modify c.index fun s => s.incarnate v).slot? c.index) =
      some (slot.incarnate v) := by
    rw [Arena.slot?_modify, if_pos rfl, hslot]
    rfl
  have hlink : (s.pool.incarnate c.index v).2 =
      .node c.index (slot.incarnate v).generation :=
    congrArg (fun o : Option (Slot β) => Link.node c.index (o.getD {}).generation) hnew
  refine h.modify (u := []) (f := fun s => s.incarnate v) ?_ (.inl rfl) ?_
  · rw [Cell.index, hlink]
    rfl
  · intro other hother _ _
    rw [hslot] at hother
    cases hother
    exact ⟨hlink, rfl⟩

/-- A node comes off the free list, or is one never used before. Nothing else is touched. -/
theorem allocate {granted : Bool} {value : β} {l : Link} (h : s.Laid L)
    (hok : (s.allocate granted value).answer = .ok l) :
    ∃ free, (s.allocate granted value).state.Laid
      ((L.hang free .free).withStrands ([⟨l, .full value⟩] :: L.strands)) := by
  rcases s with ⟨settings, ⟨arena, top⟩, head, orphans, epoch, shutdown⟩
  have hroot := h.root_eq .free
  cases top with
  | node i g =>
    cases hcells : L.on .free with
    | nil =>
      rw [hcells] at hroot
      exact Link.noConfusion hroot
    | cons c u =>
      rw [hcells] at hroot
      replace hroot : Link.node i g = c.link := hroot
      have hindex : i = c.index := congrArg Link.index hroot
      have hpopped := (h.pop hcells).incarnate (v := value)
      rw [← hroot, ← hindex] at hpopped
      cases hok
      exact ⟨u, hpopped⟩
  | nil =>
    refine ⟨L.free, ?_⟩
    have hsame : L.hang L.free .free = L := rfl
    rw [hsame]
    have hclaims := arena.claims_allocFresh granted
    simp only [Store.allocate, Pool.allocate] at hok ⊢
    generalize arena.allocFresh granted = claim at hok hclaims ⊢
    cases hclaims with
    | full | starves => cases hok
    | fills room there =>
      cases hok
      exact (h.claim room there).incarnate
    | opens room missing =>
      cases hok
      exact ((h.install room missing).claim room (h.sound.installed_install room)).incarnate

theorem deallocate {l : Link} {rest : List (Strand β)}
    (h : s.Laid (L.withStrands ([Cell.spent l] :: rest))) :
    (s.deallocate l).Laid ((L.hang (Cell.spent l :: L.free) .free).withStrands rest) := by
  obtain ⟨haimed, hlead⟩ := h.aim (u := []) s.pool.free
  rw [deallocate_eq]
  apply haimed.push (u := [Cell.spent l]) (r := .free) hlead
  intro _ c hc
  rw [List.mem_singleton.1 hc]
  rfl

theorem deallocateAll {links : List Link} {rest : List (Strand β)}
    (h : s.Laid (L.withStrands (Strand.loose links ++ rest))) :
    ({ s with pool := s.pool.deallocateAll links } : Store β).Laid
      ((L.hang (Strand.idle links.reverse ++ L.free) .free).withStrands rest) := by
  induction links generalizing s L with
  | nil => exact h
  | cons l links ih =>
    have hrest := ih (s := s.deallocate l) (L := L.hang (Cell.spent l :: L.free) .free)
      h.deallocate
    have hfree : Strand.idle (l :: links).reverse ++ L.free =
        Strand.idle links.reverse ++ Cell.spent l :: L.free := by simp [Strand.idle]
    rw [hfree]
    exact hrest

theorem publish {u : Strand β} {rest : List (Strand β)} (hne : u ≠ [])
    (h : s.Laid (L.withStrands (u :: rest))) :
    (s.publish u.first u.last).Laid ((L.hang (u ++ L.stack) .stack).withStrands rest) := by
  rcases u.eq_nil_or_concat' with rfl | ⟨init, c, rfl⟩
  · exact absurd rfl hne
  · obtain ⟨haimed, hlead⟩ := h.aim s.head
    rw [publish_eq, Strand.last_concat]
    exact haimed.push (r := .stack) hlead fun hr => absurd rfl hr

/-- The value is taken out of the first node of a private strand, which is then by itself. -/
theorem takeValue {c : Cell β} {u : Strand β} {rest : List (Strand β)} {value : β}
    (h : s.Laid (L.withStrands ((c :: u) :: rest))) (hc : c.stage = .full value) :
    ∃ t, s.takeValue c.link = some (value, t) ∧ t = s.withArena (s.arena.clearValue c.link) ∧
      t.Laid (L.withStrands ([Cell.spent c.link] :: u :: rest)) := by
  have hcell : c ∈ (L.withStrands ((c :: u) :: rest)).cells :=
    (L.cells_cons _ rest).mem_iff.2 List.mem_cons_self
  have hholds := h.holds c hcell
  have hvalue := hholds.value_eq
  rw [hc] at hvalue
  refine ⟨_, ?_, rfl, ?_⟩
  · simp only [Store.takeValue, hvalue]
    rfl
  · rw [Arena.clearValue, hholds.update_eq]
    refine (Laid.split (u := [c]) h).modify (u := []) (k := Cell.spent c.link)
      (f := fun s => { s with value := none }) rfl (.inl rfl) fun slot _ hl _ => ?_
    exact ⟨hl, rfl⟩

theorem takeTop {c : Cell β} {u : Strand β} {value : β} (h : s.Laid L)
    (hstack : L.stack = c :: u) (hc : c.stage = .full value) :
    s.head = c.link ∧
      s.takeValue s.head = some (value, s.withArena (s.arena.clearValue s.head)) ∧
      ({ s.withArena (s.arena.clearValue s.head) with head := s.arena.next s.head } : Store β).Laid
        ((L.hang u .stack).withStrands ([Cell.spent c.link] :: L.strands)) := by
  have hroot : s.head = c.link := by
    have hroot := h.root_eq .stack
    rwa [show L.on .stack = c :: u from hstack] at hroot
  have hcell : c ∈ L.cells := Layout.mem_cells.2 (.inl ⟨.stack, by rw [Layout.on, hstack]; simp⟩)
  have hvalue := (h.holds c hcell).value_eq
  rw [hc] at hvalue
  obtain ⟨t, -, rfl, hlaid⟩ := (h.pop (r := .stack) hstack).takeValue hc
  refine ⟨hroot, ?_, ?_⟩
  · rw [Store.takeValue, hroot, hvalue]
    rfl
  · rw [hroot]
    exact (hlaid.reorder (.swap _ _ _)).dropNil

theorem unlink {c : Cell β} {u : Strand β} {value : β} (h : s.Laid L)
    (hstack : L.stack = c :: u) (hc : c.stage = .full value) (hshut : s.shutdown = false) :
    s.unlink = some (c.link, value, { s.withArena (s.arena.clearValue c.link) with
        head := s.arena.next c.link }) ∧
      ({ s.withArena (s.arena.clearValue c.link) with head := s.arena.next c.link } : Store β).Laid
        ((L.hang u .stack).withStrands ([Cell.spent c.link] :: L.strands)) := by
  obtain ⟨hroot, htake, hlaid⟩ := h.takeTop hstack hc
  have hcell : c ∈ L.cells := Layout.mem_cells.2 (.inl ⟨.stack, by rw [Layout.on, hstack]; simp⟩)
  have hnil : s.head.isNil = false := by
    cases hl : s.head with
    | nil => exact absurd (hroot.symm.trans hl) (h.ne_nil hcell)
    | node i g => rfl
  rw [hroot] at hlaid
  refine ⟨?_, hlaid⟩
  simp only [Store.unlink, hnil, hshut, htake, Bool.or_false, Bool.false_eq_true, if_false]
  rw [hroot]

/-- The stack looks empty when it is, and after shutdown. -/
theorem unlink_none (h : s.Laid L) (hstack : L.stack = [] ∨ s.shutdown = true) :
    s.unlink = none := by
  rcases hstack with hstack | hshut
  · have hroot := h.root_eq .stack
    rw [show L.on .stack = [] from hstack] at hroot
    have hnil : s.head.isNil = true := by rw [show s.head = .nil from hroot]; rfl
    simp [Store.unlink, hnil]
  · simp [Store.unlink, hshut]

/-- Nodes are linked one after the other, behind those linked already. -/
theorem thread {e l : Link} {links : List Link} {u : Strand β} {rest : List (Strand β)}
    (h : s.Laid (L.withStrands ((u ++ [Cell.spent l]) :: (Strand.loose links ++ rest)))) :
    (s.thread e (l :: links)).Laid
        (L.withStrands ((u ++ Strand.idle (l :: links)) :: rest)) ∧
      (s.thread e (l :: links)).arena.Leads (Strand.first (u ++ Strand.idle (l :: links)))
        (u ++ Strand.idle (l :: links)) e := by
  induction links generalizing s l u with
  | nil => exact h.aim e
  | cons next links ih =>
    obtain ⟨haimed, hlead⟩ := h.aim next
    have hmerged := haimed.merge (u := u ++ [Cell.spent l]) (w := [Cell.spent next]) hlead
    have hcells : u ++ [Cell.spent l] ++ Strand.idle (next :: links) =
        u ++ Strand.idle (l :: next :: links) := by simp [Strand.idle]
    have hrest := ih hmerged
    rw [hcells] at hrest
    exact hrest

/-- Nodes without value go on top of the orphan chain, in the order given. -/
theorem orphan {links : List Link} {rest : List (Strand β)}
    (h : s.Laid (L.withStrands (Strand.loose links ++ rest))) :
    (s.orphan links).Laid
      ((L.hang (Strand.idle links ++ L.orphans) .orphans).withStrands rest) := by
  cases links with
  | nil => exact h
  | cons l links =>
    obtain ⟨hlaid, hlead⟩ := Laid.thread (u := []) (e := s.orphans) h
    have hroot : (s.thread s.orphans (l :: links)).root .orphans = s.orphans := by
      rw [thread_eq, root_withArena]
      rfl
    have hlead' : (s.thread s.orphans (l :: links)).arena.Leads
        (Strand.first (Strand.idle (l :: links) : Strand β)) (Strand.idle (l :: links))
        ((s.thread s.orphans (l :: links)).root .orphans) := by
      rw [hroot]
      exact hlead
    exact hlaid.push (r := .orphans) hlead' fun _ c hc => Strand.spent_of_mem_idle hc

end Laid

end Store

end RecyclingStack
