import RecyclingStack.Pool.Lease
import RecyclingStack.Proofs.Memory.Borrowing

/-! A pool as its tenant sees it: a stock of indices, from which the one given back last is handed
out next. The links tell how often an index was handed out, and what the tenant writes into the
slots it holds does not matter. -/
namespace RecyclingStack

/-- A pool without slots. -/
structure Stock where
  capacity : Nat
  /-- The count of indices handed out for a first time. -/
  fresh : Nat
  /-- The indices given back, the latest first. -/
  free : List Nat
  /-- The indices that are out, each with whether the value is still in its slot. -/
  held : List (Nat × Bool)

namespace Stock

variable {α : Type}

def empty (requested : Option Nat) : Stock :=
  ⟨min (requested.getD maxCapacity) maxCapacity, 0, [], []⟩

def without (s : Stock) (index : Nat) : List (Nat × Bool) :=
  s.held.filter fun entry => entry.1 ≠ index

def handOut (s : Stock) : Stock × Option Nat :=
  match s.free with
  | index :: free => ({ s with free, held := (index, true) :: s.held }, some index)
  | [] =>
    if s.fresh < s.capacity then
      ({ s with fresh := s.fresh + 1, held := (s.fresh, true) :: s.held }, some s.fresh)
    else (s, none)

theorem handOut_fresh {capacity fresh : Nat} {held : List (Nat × Bool)} (h : fresh < capacity) :
    handOut ⟨capacity, fresh, [], held⟩ =
      (⟨capacity, fresh + 1, [], (fresh, true) :: held⟩, some fresh) := if_pos h

theorem handOut_none {s : Stock} (hfree : s.free = []) (h : s.capacity ≤ s.fresh) :
    s.handOut = (s, none) := by
  rw [handOut, hfree]
  exact if_neg (Nat.not_lt.2 h)

/-- An index is given back once its value is gone. -/
def serveLease (s : Stock) (index : Nat) : Bool → LeaseRequest → Stock
  | true, .take | true, .dropValue => { s with held := (index, false) :: s.without index }
  | false, .dealloc => { s with free := index :: s.free, held := s.without index }
  | _, _ => s

def serve (s : Stock) : PoolRequest α → Stock × Option Nat
  | .alloc _ => s.handOut
  | .atSlot slot request =>
    match slot.bind fun index => (s.held.lookup index).map fun filled => (index, filled) with
    | some (index, filled) => (s.serveLease index filled request, none)
    | none => (s, none)
  | .refused _ => (s, none)

def after (s : Stock) (requests : List (PoolRequest α)) : Stock :=
  requests.foldl (fun s request => (s.serve request).1) s

def handedOut (s : Stock) : List (PoolRequest α) → List Nat
  | [] => []
  | request :: rest => (s.serve request).2.toList ++ (s.serve request).1.handedOut rest

end Stock

/-- The link to an index that was handed out before as often as it is in the list. -/
def stamp (before : List Nat) (index : Nat) : Link :=
  .node index ((before.count index + 1) % halfWord)

/-- The links to indices handed out one after the other. -/
def stamps (before : List Nat) : List Nat → List Link
  | [] => []
  | index :: rest => stamp before index :: stamps (index :: before) rest

theorem index_stamps (before indices : List Nat) :
    (stamps before indices).map Link.index = indices := by
  induction indices generalizing before with
  | nil => rfl
  | cons index rest ih => exact congrArg (index :: ·) (ih _)

/-- As long as the counter has not come round, an index is stamped with a number that it has not
had. -/
theorem stamp_ne {before indices : List Nat} {index : Nat} {k : Nat} (hk : 0 < k)
    (hle : k ≤ before.count index) (hcount : ∀ i, (before ++ indices).count i ≤ halfWord) :
    Link.node index (k % halfWord) ∉ stamps before indices := by
  induction indices generalizing before with
  | nil => exact List.not_mem_nil
  | cons i rest ih =>
    have hround : ∀ j, (i :: before ++ rest).count j ≤ halfWord :=
      fun j => List.perm_middle.count_eq j ▸ hcount j
    rintro hmem
    rcases List.mem_cons.1 hmem with heq | hmem
    · obtain ⟨rfl, heq⟩ := Link.node.inj heq
      have hi := hround index
      rw [List.cons_append, List.count_cons_self, List.count_append] at hi
      have hword : halfWord = 4294967296 := rfl
      rw [hword] at heq hi
      omega
    · exact ih (hle.trans (List.count_le_count_cons ..)) hround hmem

theorem nodup_stamps {before indices : List Nat}
    (hcount : ∀ i, (before ++ indices).count i ≤ halfWord) : (stamps before indices).Nodup := by
  induction indices generalizing before with
  | nil => exact List.nodup_nil
  | cons i rest ih =>
    have hround : ∀ j, (i :: before ++ rest).count j ≤ halfWord :=
      fun j => List.perm_middle.count_eq j ▸ hcount j
    refine List.nodup_cons.2 ⟨stamp_ne (Nat.succ_pos _) ?_ hround, ih hround⟩
    rw [List.count_cons_self]

/-- The request without what it would write into the slot. -/
def PoolRequest.blind {α : Type} : PoolRequest α → PoolRequest α
  | .atSlot slot (.setNext (.ok _)) => .atSlot slot (.setNext (.ok .nil))
  | .atSlot slot (.setRetiredEpoch _) => .atSlot slot (.setRetiredEpoch 0)
  | request => request

def PoolReply.link? {α : Type} : PoolReply α → Option Link
  | .leased link => some link
  | _ => none

namespace Stock

variable {α : Type}

theorem serveLease_blind (s : Stock) (index : Nat) (filled : Bool) (next : Except Refusal Link)
    (epoch : Nat) : s.serveLease index filled (.setNext next) = s ∧
      s.serveLease index filled (.setRetiredEpoch epoch) = s := by
  cases filled <;> exact ⟨rfl, rfl⟩

theorem serve_blind (s : Stock) (request : PoolRequest α) :
    s.serve request.blind = s.serve request := by
  rcases request with _ | ⟨slot, _ | _ | _ | epoch | (_ | next) | _⟩ | _
  all_goals try rfl
  all_goals
    simp only [PoolRequest.blind, serve]
    split
    · simp only [(s.serveLease_blind _ _ _ 0).1, (s.serveLease_blind _ _ (.ok .nil) _).2]
    · rfl

theorem handedOut_blind (s : Stock) {requests others : List (PoolRequest α)}
    (h : others.map PoolRequest.blind = requests.map PoolRequest.blind) :
    s.handedOut others = s.handedOut requests := by
  have hblind : ∀ (s : Stock) (requests : List (PoolRequest α)),
      s.handedOut (requests.map PoolRequest.blind) = s.handedOut requests := by
    intro s requests
    induction requests generalizing s with
    | nil => rfl
    | cons request rest ih => rw [List.map_cons, handedOut, handedOut, serve_blind, ih]
  rw [← hblind s others, h, hblind]

end Stock

theorem lookup_map_snd {γ δ : Type} (f : γ → δ) (entries : List (Nat × γ)) (i : Nat) :
    (entries.map fun e => (e.1, f e.2)).lookup i = (entries.lookup i).map f := by
  induction entries with
  | nil => rfl
  | cons e entries ih =>
    rw [List.map_cons, List.lookup_cons, List.lookup_cons, ih]
    cases i == e.1 <;> rfl

namespace Store

variable {β : Type} {s : Store β} {L : Layout β} {rest : List (Strand β)}

theorem Laid.freeIndices_eq (h : s.Laid L) : s.freeIndices = L.free.map Cell.index := by
  rw [freeIndices, h.chains_eq.2.1, List.map_map]
  rfl

/-- The forward link of a slot just handed out is nil already. -/
theorem Laid.setNext_allocate {granted : Bool} {v : β} {l : Link}
    (h : s.Laid (L.withStrands rest)) (hok : (s.allocate granted v).answer = .ok l) :
    (s.allocate granted v).state.setNext l .nil = (s.allocate granted v).state := by
  obtain ⟨a, -, -, harena, -⟩ := h.allocated hok
  obtain ⟨free, hgot⟩ := h.allocate hok
  have hholds := hgot.holds ⟨l, .full v⟩ Layout.mem_cells_first
  have hset : (s.allocate granted v).state.arena.setNext l .nil =
      (s.allocate granted v).state.arena := by
    refine (hholds.update_eq fun slot => { slot with next := .nil }).trans ?_
    rw [harena]
    exact a.modify_modify l.index _ _
  exact congrArg (s.allocate granted v).state.withArena hset

end Store

def Cell.filled {β : Type} (c : Cell β) : Bool := c.stage.value.isSome

def Cell.lease {β : Type} (c : Cell β) : Nat × Lease := (c.index, ⟨c.link, c.filled⟩)

/-- Cells of which each is a strand by itself. -/
def Strand.apart {β : Type} (u : Strand β) : List (Strand β) := u.map fun c => [c]

namespace Tenancy

variable {α : Type} {t : Tenancy α} {free held front back : Strand α} {c : Cell α}

def store (t : Tenancy α) : Store α := ⟨Settings.default, t.pool, .nil, .nil, 0, false⟩

/-- Every index is free or held; the slots held hang nowhere. -/
structure Houses (t : Tenancy α) (free held : Strand α) : Prop where
  laid : t.store.Laid ⟨[], free, [], held.apart⟩
  leases : t.leases = held.map Cell.lease
  stage : ∀ c ∈ held, c.stage = .spent ∨ ∃ v, c.stage = .full v

def stock (t : Tenancy α) : Stock :=
  ⟨t.pool.arena.capacity, t.pool.arena.fresh, t.pool.freeList.map Link.index,
    t.leases.map fun entry => (entry.1, entry.2.filled)⟩

theorem houses_empty (requested : Option Nat) : (empty requested : Tenancy α).Houses [] [] where
  laid := Store.Laid.of_eq rfl (fun r => by cases r <;> rfl)
    (Store.laid_ofPlan ⟨Settings.default, requested⟩)
  leases := rfl
  stage := fun _ h => by cases h

theorem generationAt_empty (requested : Option Nat) (i : Nat) :
    (empty requested : Tenancy α).pool.arena.generationAt i = 0 :=
  Arena.generationAt_empty requested i

theorem stock_empty (requested : Option Nat) :
    (empty requested : Tenancy α).stock = Stock.empty requested := by
  cases requested <;> rfl

namespace Houses

theorem strands (h : t.Houses free held) :
    t.store.Laid (Layout.withStrands ⟨[], free, [], []⟩ held.apart) := h.laid

/-- The slot of a lease is one of those held. -/
theorem exists_cell (h : t.Houses free held) {index : Nat} {lease : Lease}
    (hlease : t.lease? index = some lease) : ∃ front c back, held = front ++ c :: back ∧
      c.index = index ∧ lease = ⟨c.link, c.filled⟩ ∧
      t.without index = (front ++ back).map Cell.lease := by
  rw [lease?, h.leases] at hlease
  obtain ⟨front, back, hsplit, -⟩ := List.lookup_eq_some_iff.1 hlease
  obtain ⟨front, rest, rfl, rfl, hrest⟩ := List.map_eq_append_iff.1 hsplit
  obtain ⟨c, back, rfl, hc, rfl⟩ := List.map_eq_cons_iff.1 hrest
  obtain ⟨rfl, rfl⟩ := Prod.mk.inj hc
  refine ⟨front, c, back, rfl, rfl, rfl, ?_⟩
  have hnodup : ((front ++ c :: back).map Cell.index).Nodup := by
    have hsub : (front ++ c :: back).Sublist
        (Layout.cells ⟨[], free, [], Strand.apart (front ++ c :: back)⟩) := by
      simp [Layout.cells, Strand.apart, ← List.flatMap_def]
    exact h.laid.nodup.sublist (hsub.map _)
  have hne : ∀ d ∈ front ++ back, d.index ≠ c.index := by
    rw [List.map_append, List.map_cons, List.nodup_middle, List.nodup_cons, ← List.map_append]
      at hnodup
    exact fun d hd heq => hnodup.1 (heq ▸ List.mem_map_of_mem hd)
  rw [without, h.leases, List.map_append, List.map_cons, List.filter_append,
    List.filter_cons_of_neg,
    ← List.filter_append, ← List.map_append, List.filter_eq_self]
  · intro e he
    obtain ⟨d, hd, rfl⟩ := List.mem_map.1 he
    exact decide_eq_true (hne d hd)
  · simp [Cell.lease]

theorem strands_perm (front : Strand α) (c : Cell α) (back : Strand α) :
    (front ++ c :: back).apart.Perm ([c] :: (front ++ back).apart) := by
  simp only [Strand.apart, List.map_append, List.map_cons]
  exact List.perm_middle

/-- One of the slots held, before the others. -/
theorem pick (h : t.Houses free (front ++ c :: back)) :
    t.store.Laid (Layout.withStrands ⟨[], free, [], []⟩ ([c] :: (front ++ back).apart)) :=
  h.laid.reorder (strands_perm front c back)

theorem stock_eq (h : t.Houses free held) : t.stock = ⟨t.pool.arena.capacity, t.pool.arena.fresh,
    free.map Cell.index, held.map fun c => (c.index, c.filled)⟩ := by
  have hfree : t.pool.freeList.map Link.index = free.map Cell.index := h.laid.freeIndices_eq
  rw [stock, hfree, h.leases, List.map_map]
  rfl

end Houses

/-- A request that was served as the stock serves it. -/
structure Follows (t t' : Tenancy α) (given : Option Nat) (s : Stock) : Prop where
  houses : ∃ free held, t'.Houses free held
  stock : t'.stock = s
  generation : ∀ i, t'.pool.arena.generationAt i =
    if given = some i then (t.pool.arena.generationAt i + 1) % halfWord
    else t.pool.arena.generationAt i

namespace Houses

theorem follows_refl (h : t.Houses free held) : t.Follows t none t.stock :=
  ⟨⟨free, held, h⟩, rfl, fun _ => rfl⟩

/-- A write that spares generations and values. -/
theorem write (h : t.Houses free (front ++ c :: back)) {f : Slot α → Slot α}
    (hvalue : ∀ slot, (f slot).value = slot.value)
    (hgeneration : ∀ slot, (f slot).generation = slot.generation) :
    t.Follows (t.withArena (t.pool.arena.update c.link f)) none t.stock := by
  have hpick := h.pick
  have hholds := hpick.holds c Layout.mem_cells_first
  have hwritten := hpick.modify (u := []) (k := c) (f := f) rfl (.inl rfl) fun slot _ hl hv =>
    ⟨hl.trans (by rw [hgeneration]), (hvalue slot).trans hv⟩
  rw [← hholds.update_eq] at hwritten
  have hnew : (t.withArena (t.pool.arena.update c.link f)).Houses free (front ++ c :: back) :=
    ⟨hwritten.reorder (strands_perm front c back).symm, h.leases, h.stage⟩
  refine ⟨⟨_, _, hnew⟩, ?_, t.pool.arena.generationAt_update c.link hgeneration⟩
  have hextent := t.pool.arena.extent_update c.link f
  rw [hnew.stock_eq, h.stock_eq]
  exact congrArg (fun e : Nat × Nat => Stock.mk e.2 e.1 _ _) hextent

/-- The value is taken out of a slot held. -/
theorem vacate (h : t.Houses free (front ++ c :: back)) {v : α} (hc : c.stage = .full v)
    (hwithout : t.without c.index = (front ++ back).map Cell.lease) :
    t.Follows (t.vacate c.index ⟨c.link, true⟩) none
      { t.stock with held := (c.index, false) :: (front ++ back).map fun d =>
        (d.index, d.filled) } := by
  obtain ⟨_, -, rfl, htaken⟩ := h.pick.takeValue (u := []) hc
  have hnew :
      (t.vacate c.index ⟨c.link, true⟩).Houses free (Cell.spent c.link :: (front ++ back)) := by
    refine ⟨(htaken.reorder (.swap _ _ _)).dropNil, ?_, fun d hd => ?_⟩
    · rw [Tenancy.vacate, hwithout]
      rfl
    · rcases List.mem_cons.1 hd with rfl | hd
      · exact .inl rfl
      · exact h.stage d (List.mem_append.2 ((List.mem_append.1 hd).imp_right
          (List.mem_cons_of_mem c)))
  refine ⟨⟨_, _, hnew⟩, ?_, t.pool.arena.generationAt_update c.link fun _ => rfl⟩
  have hextent := t.pool.arena.extent_update c.link fun slot => { slot with value := none }
  rw [hnew.stock_eq, h.stock_eq]
  exact congrArg (fun e : Nat × Nat => Stock.mk e.2 e.1 _ _) hextent

/-- A slot held comes back on the free list. -/
theorem deallocate (h : t.Houses free (front ++ c :: back)) (hc : c.stage = .spent)
    (hwithout : t.without c.index = (front ++ back).map Cell.lease) :
    t.Follows { pool := t.pool.deallocate c.link, leases := t.without c.index } none
      { t.stock with
        free := c.index :: t.stock.free
        held := (front ++ back).map fun d => (d.index, d.filled) } := by
  have hpick := h.pick
  obtain ⟨l, stage⟩ := c
  obtain rfl : stage = .spent := hc
  have hnew : ({ pool := t.pool.deallocate l, leases := t.without l.index } : Tenancy α).Houses
      (Cell.spent l :: free) (front ++ back) :=
    ⟨hpick.deallocate, hwithout, fun d hd => h.stage d (List.mem_append.2
      ((List.mem_append.1 hd).imp_right (List.mem_cons_of_mem _)))⟩
  refine ⟨⟨_, _, hnew⟩, ?_, t.pool.arena.generationAt_update l fun _ => rfl⟩
  have hextent := t.pool.arena.extent_update l fun slot => { slot with next := t.pool.free }
  have hstock := hnew.stock_eq
  rw [h.stock_eq]
  exact hstock.trans (congrArg (fun e : Nat × Nat => Stock.mk e.2 e.1 _ _) hextent)

section

variable {granted : Bool} {v : α} {l : Link} (h : t.Houses free held)
  (hok : (t.pool.allocate granted v).answer = .ok l)
include h hok

/-- A slot that is handed out is not held already. -/
theorem index_notMem : l.index ∉ t.leases.map Prod.fst ∧
    l.index ∉ (t.pool.allocate granted v).state.freeList.map Link.index ∧
      t.without l.index = t.leases := by
  have hstore : (t.store.allocate granted v).answer = .ok l := hok
  obtain ⟨free', hgot⟩ := h.laid.allocate hstore
  have hother := fun d => hgot.index_ne (u := [⟨l, .full v⟩]) List.mem_cons_self (d := d)
  have hheld : l.index ∉ t.leases.map Prod.fst := by
    rw [h.leases, List.map_map]
    intro hmem
    obtain ⟨d, hd, heq⟩ := List.mem_map.1 hmem
    refine hother d (Layout.mem_cells.2 (.inr ⟨[d], List.mem_map.2 ⟨d, hd, rfl⟩, ?_⟩)) heq
    exact List.mem_singleton_self d
  refine ⟨hheld, ?_, List.filter_eq_self.2 fun e he => decide_eq_true fun heq =>
    hheld (heq ▸ List.mem_map_of_mem he)⟩
  have hfree : (t.pool.allocate granted v).state.freeList.map Link.index = free'.map Cell.index :=
    hgot.freeIndices_eq
  rw [hfree]
  intro hmem
  obtain ⟨d, hd, heq⟩ := List.mem_map.1 hmem
  exact hother d (Layout.mem_cells.2 (.inl ⟨.free, hd⟩)) heq

/-- The link is to the next incarnation, whose slot is clean. -/
theorem link_eq : l = .node l.index ((t.pool.arena.generationAt l.index + 1) % halfWord) ∧
    (t.pool.allocate granted v).state.arena.read l =
      ⟨.nil, (t.pool.arena.generationAt l.index + 1) % halfWord, 0, some v⟩ := by
  have hlaid := h.strands
  have hstore : (t.store.allocate granted v).answer = .ok l := hok
  obtain ⟨free', hgot⟩ := hlaid.allocate hstore
  obtain ⟨slot, hslot, hlink, -⟩ := hgot.holds ⟨l, .full v⟩ Layout.mem_cells_first
  have hnew := hlaid.slotAt_allocate hstore .nil l.index
  rw [hlaid.setNext_allocate hstore, if_pos rfl] at hnew
  have hgiven : (t.pool.allocate granted v).state.arena.slot? l.index = some slot := hslot
  have hread : slot = ⟨.nil, (t.pool.arena.generationAt l.index + 1) % halfWord, 0, some v⟩ :=
    (congrArg (fun o : Option (Slot α) => o.getD {}) hslot).symm.trans hnew
  have hlink : l = .node l.index slot.generation := hlink
  rw [hlink, Arena.read_node]
  have hindex : (Link.node l.index slot.generation).index = l.index := rfl
  rw [hindex, hgiven]
  exact ⟨congrArg (Link.node _) (congrArg Slot.generation hread), hread⟩

/-- An index is handed out as the stock does it. -/
theorem allocate :
    t.Follows ⟨(t.pool.allocate granted v).state, (l.index, ⟨l, true⟩) :: t.leases⟩
      (some l.index) t.stock.handOut.1 ∧ t.stock.handOut.2 = some l.index := by
  have hlaid := h.strands
  have hstore : (t.store.allocate granted v).answer = .ok l := hok
  obtain ⟨free', hgot⟩ := hlaid.allocate hstore
  have hnew : Houses ⟨(t.pool.allocate granted v).state, (l.index, ⟨l, true⟩) :: t.leases⟩
      free' (⟨l, .full v⟩ :: held) := by
    refine ⟨hgot, ?_, fun d hd => ?_⟩
    · rw [h.leases]
      rfl
    · rcases List.mem_cons.1 hd with rfl | hd
      · exact .inr ⟨v, rfl⟩
      · exact h.stage d hd
  have hstock := hnew.stock_eq
  have hcapacity : (t.pool.allocate granted v).state.arena.capacity = t.pool.arena.capacity :=
    congrArg Prod.snd (Store.extent_allocate hstore)
  have hroom : (t.pool.allocate granted v).state.arena.fresh ≤ t.pool.arena.capacity :=
    hcapacity ▸ hnew.laid.sound.fresh_le
  have hgeneration := hlaid.generationAt_allocate hstore .nil
  have hfree := hlaid.freeIndices_allocate hstore .nil
  rw [hlaid.setNext_allocate hstore] at hgeneration hfree
  rw [h.laid.freeIndices_eq, hgot.freeIndices_eq] at hfree
  have hout : t.stock.handOut =
      (Tenancy.stock ⟨(t.pool.allocate granted v).state, (l.index, ⟨l, true⟩) :: t.leases⟩,
        some l.index) := by
    rw [hstock, h.stock_eq, hcapacity]
    rcases hfree with ⟨hempty, hstill, hindex, hfresh⟩ | ⟨htop, hfresh⟩
    · replace hstill : free'.map Cell.index = [] := hstill
      replace hindex : l.index = t.pool.arena.fresh := hindex
      replace hfresh : (t.pool.allocate granted v).state.arena.fresh = t.pool.arena.fresh + 1 :=
        hfresh
      rw [hfresh] at hroom
      rw [hempty, hstill, hfresh, Stock.handOut_fresh hroom, ← hindex]
      rfl
    · replace hfresh : (t.pool.allocate granted v).state.arena.fresh = t.pool.arena.fresh := hfresh
      rw [htop, hfresh]
      rfl
  rw [hout]
  refine ⟨⟨⟨_, _, hnew⟩, rfl, fun i => (hgeneration i).trans ?_⟩, rfl⟩
  simp only [Option.some.injEq, eq_comm (a := i)]
  rfl

end

/-- No index is handed out when none is free and none is left, or memory is short. -/
theorem allocate_error (h : t.Houses free held) {granted : Bool} {v : α} {failure : Exhausted}
    (herror : (t.pool.allocate granted v).answer = .error failure) :
    (t.pool.allocate granted v).state = t.pool ∧ failure = ⟨t.stock.capacity⟩ ∧
      t.stock.free = [] ∧ (granted = true → t.stock.capacity ≤ t.stock.fresh) := by
  have hstore : (t.store.allocate granted v).answer = .error failure := herror
  have hnil : t.pool.free = .nil := by
    rcases t with ⟨⟨arena, _ | _⟩, leases⟩
    · rfl
    · cases herror
  have hlaid := h.strands
  refine ⟨congrArg Store.pool (Store.allocate_error hstore), Store.allocate_error_capacity hstore,
    congrArg (List.map Link.index) (hlaid.free_eq_nil_iff.1 hnil), fun hgranted => ?_⟩
  rw [hgranted] at hstore
  exact ((Store.allocate_refused t.store v).1 hstore).2.2

theorem serveLease (h : t.Houses free held) {index : Nat} {lease : Lease}
    (hlease : t.lease? index = some lease) (request : LeaseRequest) :
    t.Follows (t.serveLease index lease request).state none
        (t.stock.serveLease index lease.filled request) ∧
      (t.serveLease index lease request).reply.link? = none := by
  obtain ⟨front, c, back, rfl, rfl, rfl, hwithout⟩ := h.exists_cell hlease
  have hheld : t.stock.without c.index = (front ++ back).map fun d => (d.index, d.filled) := by
    have hmap : t.stock.without c.index =
        (t.without c.index).map fun entry => (entry.1, entry.2.filled) := List.filter_map
    rw [hmap, hwithout, List.map_map]
    rfl
  have hread : (t.pool.arena.read c.link).value = c.stage.value :=
    (h.pick.holds c Layout.mem_cells_first).value_eq
  -- what is asked for depends on whether the value is there, unless it is a write or a read
  have hstage : c.filled = false ∧ c.stage = .spent ∨ c.filled = true ∧ ∃ v, c.stage = .full v := by
    rw [Cell.filled]
    rcases h.stage c (by simp) with hc | ⟨v, hc⟩ <;> rw [hc]
    · exact .inl ⟨rfl, rfl⟩
    · exact .inr ⟨rfl, v, rfl⟩
  cases request with
  | setRetiredEpoch epoch =>
    rw [(t.stock.serveLease_blind _ _ (.ok .nil) epoch).2]
    exact ⟨h.write (fun _ => rfl) fun _ => rfl, rfl⟩
  | setNext next =>
    rw [(t.stock.serveLease_blind _ _ next 0).1]
    cases next with
    | ok next => exact ⟨h.write (fun _ => rfl) fun _ => rfl, rfl⟩
    | error reason => exact ⟨h.follows_refl, rfl⟩
  | read =>
    rcases hstage with ⟨hempty, -⟩ | ⟨hfull, -⟩
    · rw [hempty]
      exact ⟨h.follows_refl, rfl⟩
    · rw [hfull]
      exact ⟨h.follows_refl, rfl⟩
  | dealloc =>
    rcases hstage with ⟨hempty, hc⟩ | ⟨hfull, -⟩
    · have hgiven := h.deallocate hc hwithout
      rw [← hheld] at hgiven
      rw [hempty]
      exact ⟨hgiven, rfl⟩
    · rw [hfull]
      exact ⟨h.follows_refl, rfl⟩
  | take | dropValue =>
    rcases hstage with ⟨hempty, -⟩ | ⟨hfull, v, hc⟩
    · rw [hempty]
      exact ⟨h.follows_refl, rfl⟩
    · have hvacated := h.vacate hc hwithout
      rw [← hheld] at hvacated
      rw [hc] at hread
      rw [hfull]
      simp only [Tenancy.serveLease, hread]
      exact ⟨hvacated, rfl⟩

/-- Each request does to the stock what it does to the pool. -/
theorem serve (h : t.Houses free held) (request : PoolRequest α) :
    t.Follows (t.serve request).state (t.stock.serve request).2 (t.stock.serve request).1 ∧
      (t.serve request).reply.link? = (t.stock.serve request).2.map fun i =>
        .node i ((t.pool.arena.generationAt i + 1) % halfWord) := by
  cases request with
  | alloc value =>
    rw [Tenancy.serve, Stock.serve, Tenancy.alloc]
    cases hanswer : (t.pool.allocate true value).answer with
    | ok l =>
      obtain ⟨hfollows, hout⟩ := h.allocate hanswer
      obtain ⟨-, -, hwithout⟩ := h.index_notMem hanswer
      dsimp only
      rw [hwithout, hout]
      exact ⟨hfollows, congrArg some (h.link_eq hanswer).1⟩
    | error failure =>
      obtain ⟨hstate, -, hfree, hroom⟩ := h.allocate_error hanswer
      dsimp only
      rw [hstate, Stock.handOut_none hfree (hroom rfl)]
      exact ⟨h.follows_refl, rfl⟩
  | atSlot slot request =>
    cases slot with
    | none => exact ⟨h.follows_refl, rfl⟩
    | some index =>
      have hlookup : t.stock.held.lookup index = (t.lease? index).map Lease.filled :=
        lookup_map_snd Lease.filled t.leases index
      simp only [Tenancy.serve, Stock.serve, Option.bind_some, hlookup]
      cases hlease : t.lease? index with
      | none => exact ⟨h.follows_refl, rfl⟩
      | some lease => exact h.serveLease hlease request
  | refused reason => exact ⟨h.follows_refl, rfl⟩

end Houses

def after (t : Tenancy α) (requests : List (PoolRequest α)) : Tenancy α :=
  requests.foldl (fun t request => (t.serve request).state) t

def leased (t : Tenancy α) (requests : List (PoolRequest α)) : List Link :=
  (t.steps requests).filterMap fun step => step.reply.link?

/-- The generation of each slot is the number of times that it was handed out. -/
theorem Houses.run (h : t.Houses free held) (before : List Nat)
    (hcount : ∀ i, t.pool.arena.generationAt i = before.count i % halfWord)
    (requests : List (PoolRequest α)) :
    (∃ free held, (t.after requests).Houses free held) ∧
      (t.after requests).stock = t.stock.after requests ∧
      t.leased requests = stamps before (t.stock.handedOut requests) ∧
      ∀ i, (t.after requests).pool.arena.generationAt i =
        (before ++ t.stock.handedOut requests).count i % halfWord := by
  induction requests generalizing t free held before with
  | nil =>
    refine ⟨⟨free, held, h⟩, rfl, rfl, fun i => (hcount i).trans ?_⟩
    rw [Stock.handedOut, List.append_nil]
  | cons request rest ih =>
    obtain ⟨⟨⟨free', held', hhouses⟩, hstock, hgeneration⟩, hlink⟩ := h.serve request
    have hstep : t.leased (request :: rest) = (t.serve request).reply.link?.toList ++
        (t.serve request).state.leased rest := by
      simp only [leased, steps, List.filterMap_cons]
      cases (t.serve request).reply.link? <;> rfl
    have hnow : t.stock.handedOut (request :: rest) =
        (t.stock.serve request).2.toList ++ (t.serve request).state.stock.handedOut rest := by
      rw [hstock]
      rfl
    have hafter : t.stock.after (request :: rest) = (t.serve request).state.stock.after rest := by
      rw [hstock]
      rfl
    rw [hstep, hnow, hafter, hlink]
    cases hgiven : (t.stock.serve request).2 with
    | none =>
      rw [hgiven] at hgeneration
      exact ih hhouses before fun i => (hgeneration i).trans (hcount i)
    | some index =>
      rw [hgiven] at hgeneration
      obtain ⟨hhouses, hstock, hleased, hcounts⟩ := ih hhouses (index :: before)
        fun i => by
          rw [hgeneration, hcount, List.count_cons]
          by_cases hi : index = i
          · simp [hi]
          · simp [hi]
      refine ⟨hhouses, hstock, ?_, fun i => (hcounts i).trans ?_⟩
      · rw [hleased]
        simp only [Option.map_some, Option.toList_some, List.singleton_append, stamps, stamp,
          hcount, Nat.mod_add_mod]
      · simp only [Option.toList_some, List.count_append, List.count_cons,
          List.singleton_append]
        congr 1
        omega

namespace Houses

section

variable {handed : List Nat} (h : t.Houses free held)
  (hcount : ∀ i, t.pool.arena.generationAt i = handed.count i % halfWord)
include h hcount

theorem answer_eq {granted : Bool} {v : α} {l : Link}
    (hok : (t.pool.allocate granted v).answer = .ok l) :
    t.stock.handOut.2 = some l.index ∧ l = stamp handed l.index := by
  refine ⟨(h.allocate hok).2, (h.link_eq hok).1.trans ?_⟩
  rw [hcount, Nat.mod_add_mod]
  rfl

theorem recycles {index : Nat} {below : List Nat} (hfree : t.stock.free = index :: below)
    (granted : Bool) (v : α) : (t.pool.allocate granted v).answer = .ok (stamp handed index) := by
  cases hanswer : (t.pool.allocate granted v).answer with
  | ok link =>
    obtain ⟨hout, hstamp⟩ := h.answer_eq hcount hanswer
    rw [Stock.handOut, hfree] at hout
    rw [hstamp, ← Option.some.inj hout]
  | error failure =>
    obtain ⟨-, -, hnone, -⟩ := h.allocate_error hanswer
    rw [hfree] at hnone
    cases hnone

theorem grows (hfree : t.stock.free = []) (hroom : t.stock.fresh < t.stock.capacity) (v : α) :
    (t.pool.allocate true v).answer = .ok (stamp handed t.stock.fresh) := by
  cases hanswer : (t.pool.allocate true v).answer with
  | ok link =>
    obtain ⟨hout, hstamp⟩ := h.answer_eq hcount hanswer
    rw [Stock.handOut, hfree] at hout
    simp only [hroom, if_true, Option.some.injEq] at hout
    rw [hstamp, ← hout]
  | error failure =>
    obtain ⟨-, -, -, hfull⟩ := h.allocate_error hanswer
    exact absurd hroom (Nat.not_lt.2 (hfull rfl))

end

theorem exhausts (h : t.Houses free held) (hfree : t.stock.free = [])
    (hfull : t.stock.capacity ≤ t.stock.fresh) (granted : Bool) (v : α) :
    (t.pool.allocate granted v).answer = .error ⟨t.stock.capacity⟩ := by
  cases hanswer : (t.pool.allocate granted v).answer with
  | ok link =>
    have hout := (h.allocate hanswer).2
    rw [Stock.handOut_none hfree hfull] at hout
    cases hout
  | error failure => rw [(h.allocate_error hanswer).2.1]

theorem cleans (h : t.Houses free held) {granted : Bool} {v : α} {l : Link}
    (hok : (t.pool.allocate granted v).answer = .ok l) :
    (t.pool.allocate granted v).state.arena.read l =
        { next := .nil, generation := l.generation, retiredEpoch := 0, value := some v } ∧
      l.index ∉ t.stock.held.map Prod.fst ∧
      l.index ∉ (t.pool.allocate granted v).state.freeList.map Link.index := by
  obtain ⟨hlink, hread⟩ := h.link_eq hok
  obtain ⟨hheld, hfree, -⟩ := h.index_notMem hok
  refine ⟨hread.trans ?_, ?_, hfree⟩
  · rw [congrArg Link.generation hlink]
    rfl
  · rw [stock, List.map_map]
    exact hheld

end Houses

/-- The pool after some requests is the stock after them, and hands out its indices. -/
structure Lends (requested : Option Nat) (requests : List (PoolRequest α)) (t : Tenancy α)
    (s : Stock) (handed : List Nat) : Prop where
  stock : t.stock = s
  /-- The generation in a link says how often its index was handed out. -/
  leased : (empty requested).leased requests = stamps [] handed
  /-- The free index that was given back last comes next. -/
  recycles : ∀ index below, s.free = index :: below → ∀ granted value,
    (t.pool.allocate granted value).answer = .ok (stamp handed index)
  /-- If none is free, it is the one behind those that were handed out so far. -/
  grows : s.free = [] → s.fresh < s.capacity → ∀ value,
    (t.pool.allocate true value).answer = .ok (stamp handed s.fresh)
  exhausts : s.free = [] → s.capacity ≤ s.fresh → ∀ granted value,
    (t.pool.allocate granted value).answer = .error ⟨s.capacity⟩
  /-- Also where memory is short, a pool that refuses stays as it was. -/
  refuses : ∀ granted value failure, (t.pool.allocate granted value).answer = .error failure →
    failure = ⟨s.capacity⟩ ∧ s.free = [] ∧ (t.pool.allocate granted value).state = t.pool
  /-- The slot handed out is nobody's, and bears no trace of its former life. -/
  cleans : ∀ granted value link, (t.pool.allocate granted value).answer = .ok link →
    (t.pool.allocate granted value).state.arena.read link =
        { next := .nil, generation := link.generation, retiredEpoch := 0, value := some value } ∧
      link.index ∉ s.held.map Prod.fst ∧
      link.index ∉ (t.pool.allocate granted value).state.freeList.map Link.index
  /-- As long as no generation has come round, no link is handed out twice. -/
  distinct :
    (∀ index, (((empty requested).leased requests).map Link.index).count index ≤ halfWord) →
      ((empty requested).leased requests).Nodup
  /-- What is written into slots that are held has no influence. -/
  blind : ∀ others : List (PoolRequest α),
    others.map PoolRequest.blind = requests.map PoolRequest.blind →
      (empty requested).leased others = (empty requested).leased requests

/-- Whatever is asked of a pool, it refines the stock of its indices. -/
theorem lends_after (requested : Option Nat) (requests : List (PoolRequest α)) :
    Lends requested requests ((empty requested).after requests)
      ((Stock.empty requested).after requests) ((Stock.empty requested).handedOut requests) := by
  have hrun := fun requests : List (PoolRequest α) =>
    (houses_empty requested).run [] (generationAt_empty requested) requests
  simp only [stock_empty, List.nil_append] at hrun
  obtain ⟨⟨free, held, h⟩, hstock, hleased, hcount⟩ := hrun requests
  rw [← hstock]
  refine ⟨rfl, hleased, fun _ _ hfree => h.recycles hcount hfree, h.grows hcount, h.exhausts,
    fun granted value failure herror => ?_, fun _ _ _ hok => h.cleans hok, fun hround => ?_,
    fun others hothers => ?_⟩
  · obtain ⟨hstate, hfailure, hfree, -⟩ := h.allocate_error herror
    exact ⟨hfailure, hfree, hstate⟩
  · rw [hleased, index_stamps] at hround
    rw [hleased]
    exact nodup_stamps hround
  · rw [hleased, (hrun others).2.2.1, Stock.handedOut_blind _ hothers]

example : (empty (some 2)).leased [.alloc 5, .alloc 6, .atSlot (some 0) .take,
    .atSlot (some 0) (.setNext (.ok (.node 1 1))), .atSlot (some 0) .dealloc, .alloc 7, .alloc 8] =
      [.node 0 1, .node 1 1, .node 0 2] := by
  decide

end Tenancy

end RecyclingStack
