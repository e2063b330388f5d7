import RecyclingStack.Proofs.Memory.Extent
import RecyclingStack.Proofs.Memory.HandOut

/-! Building a private chain, and pushing the same values one by one. The two get the same nodes
and write the same links, in another order; and a chain of any length can be built if there are
slots enough, free ones first, then fresh ones. -/
namespace RecyclingStack

namespace Arena

variable {β : Type}

/-- An arena is told by its directory, apart from the two counts. -/
theorem eq_of_directory {a b : Arena β} (hcapacity : a.capacity = b.capacity)
    (hfresh : a.fresh = b.fresh)
    (hdirectory : ∀ k : Nat, a.directory[k]? = b.directory[k]?) : a = b := by
  rcases a with ⟨capacity, fresh, directory⟩
  obtain rfl : capacity = b.capacity := hcapacity
  obtain rfl : fresh = b.fresh := hfresh
  exact congrArg (Arena.mk b.capacity b.fresh) (List.ext_getElem? hdirectory)

/-- Changes of two slots may come in either order. -/
theorem modify_comm (a : Arena β) {i j : Nat} (hij : i ≠ j) (f g : Slot β → Slot β) :
    (a.modify i f).modify j g = (a.modify j g).modify i f := by
  refine eq_of_directory rfl rfl fun k => ?_
  simp only [modify, List.getElem?_modify]
  by_cases hi : (locate i).segment = k
  · by_cases hj : (locate j).segment = k
    · have hoff : (locate i).offset ≠ (locate j).offset := fun h =>
        hij (locate_injective (by cases hli : locate i; cases hlj : locate j; simp_all))
      rcases a.directory[k]? with _ | _ | slots
      · simp [hi, hj]
      · simp [hi, hj]
      · simp only [hi, hj, if_true, Option.map_some, Option.map_eq_map, Option.some.injEq]
        apply Array.ext_getElem?
        intro o
        simp only [Array.getElem?_modify]
        by_cases ho : (locate i).offset = o
        · simp [ho, ho ▸ hoff.symm]
        · simp [ho]
    · simp [hi, hj]
  · simp [hi]

theorem modify_modify (a : Arena β) (i : Nat) (f g : Slot β → Slot β) :
    (a.modify i f).modify i g = a.modify i fun slot => g (f slot) := by
  refine eq_of_directory rfl rfl fun k => ?_
  simp only [modify, List.getElem?_modify]
  by_cases hi : (locate i).segment = k
  · rcases a.directory[k]? with _ | _ | slots
    · simp [hi]
    · simp [hi]
    · simp only [hi, if_true, Option.map_some, Option.map_eq_map, Option.some.injEq]
      apply Array.ext_getElem?
      intro o
      simp only [Array.getElem?_modify]
      by_cases ho : (locate i).offset = o
      · simp [ho, Function.comp_def]
      · simp [ho]
  · simp [hi]

theorem setNext_comm (a : Arena β) {l m : Link} (hlm : l.index ≠ m.index) (x y : Link) :
    (a.setNext l x).setNext m y = (a.setNext m y).setNext l x := by
  cases l with
  | nil => rfl
  | node i g =>
    cases m with
    | nil => rfl
    | node j k => exact a.modify_comm hlm _ _

theorem setNext_setNext (a : Arena β) (l x y : Link) :
    (a.setNext l x).setNext l y = a.setNext l y := by
  cases l with
  | nil => rfl
  | node i g => exact a.modify_modify i _ _

/-- A segment is installed beside a change of a slot in another one. -/
theorem install_modify (a : Arena β) {segment i : Nat} (h : (locate i).segment ≠ segment)
    (f : Slot β → Slot β) :
    (a.modify i f).install segment = (a.install segment).modify i f := by
  refine eq_of_directory rfl rfl fun k => ?_
  simp only [modify, install, List.getElem?_modify, List.getElem?_set, List.length_modify]
  by_cases hk : segment = k
  · simp [← hk, h]
  · simp [hk]

/-- The next index is claimed beside a change of a slot in use. -/
theorem allocFresh_modify (a : Arena β) {i : Nat} (granted : Bool) (hslot : (a.slot? i).isSome)
    (f : Slot β → Slot β) : (a.modify i f).allocFresh granted =
      ⟨(a.allocFresh granted).state.modify i f, (a.allocFresh granted).answer,
        (a.allocFresh granted).log⟩ := by
  simp only [allocFresh, installed_modify, fresh_modify, capacity_modify]
  by_cases hroom : a.capacity ≤ a.fresh
  · simp only [if_pos hroom]
  by_cases hinst : a.installed (locate a.fresh).segment = true
  · simp only [if_neg hroom, if_pos hinst]
    rfl
  · simp only [if_neg hroom, if_neg hinst]
    cases granted with
    | false => rfl
    | true =>
      have hseg : (locate i).segment ≠ (locate a.fresh).segment := by
        intro hseg
        rw [slot?, hseg, segment?_none (Bool.eq_false_iff.2 hinst)] at hslot
        cases hslot
      simp only [if_true, install_modify a hseg]
      rfl

/-- Whether slots of a segment can be claimed, when memory is there for what `grants` says. -/
def available (grants : Nat → Bool) (a : Arena β) (segment : Nat) : Bool :=
  a.installed segment || grants segment

theorem available_update (grants : Nat → Bool) (a : Arena β) (l : Link) (f : Slot β → Slot β) :
    (a.update l f).available grants = a.available grants := by
  cases l with
  | nil => rfl
  | node i g => exact funext fun segment => congrArg (· || _) (a.installed_modify i segment f)

theorem inert_available (grants : Nat → Bool) :
    Inert (available grants : Arena β → Nat → Bool) :=
  available_update grants

section

variable (grants : Nat → Bool) (a : Arena β)

theorem allocFresh_ok_iff :
    (∃ i, (a.allocFresh (grants (locate a.fresh).segment)).answer = .ok i) ↔
      a.fresh < a.capacity ∧ a.available grants (locate a.fresh).segment = true := by
  have hclaims := a.claims_allocFresh (grants (locate a.fresh).segment)
  rw [available]
  generalize a.allocFresh (grants (locate a.fresh).segment) = claim at hclaims ⊢
  generalize grants (locate a.fresh).segment = granted at hclaims ⊢
  cases hclaims with
  | full full => simp [Nat.not_lt.2 full]
  | fills room there => simp [room, there]
  | opens room => simp [room]
  | starves _ missing => simp [missing]

/-- A segment that is installed could be claimed before. -/
theorem Sound.available_allocFresh (h : a.Sound) :
    (a.allocFresh (grants (locate a.fresh).segment)).state.available grants =
      a.available grants := by
  have hclaims := a.claims_allocFresh (grants (locate a.fresh).segment)
  generalize a.allocFresh (grants (locate a.fresh).segment) = claim at hclaims ⊢
  generalize hgrant : grants (locate a.fresh).segment = granted at hclaims
  cases hclaims with
  | full | fills | starves => rfl
  | opens room =>
    funext segment
    change (a.install (locate a.fresh).segment).available grants segment = _
    simp only [available, installed, segment?_install a (h.segment_lt room)]
    by_cases hseg : (locate a.fresh).segment = segment
    · simp [← hseg, hgrant]
    · simp [hseg]

end

end Arena

namespace Pool

variable {β : Type} (p : Pool β) (granted : Bool) (v : β) {i : Nat}

/-- A slot is handed out beside a change of a slot in use. -/
theorem allocate_modify (hslot : (p.arena.slot? i).isSome)
    (hfree : ∀ k g, p.free = .node k g → k ≠ i) (hfresh : p.arena.fresh ≠ i) (f : Slot β → Slot β) :
    ({ p with arena := p.arena.modify i f } : Pool β).allocate granted v =
      ⟨{ (p.allocate granted v).state with
          arena := (p.allocate granted v).state.arena.modify i f },
        (p.allocate granted v).answer, (p.allocate granted v).log⟩ := by
  have hincarnate : ∀ (a : Arena β) (k : Nat) (top : Link), i ≠ k →
      (Pool.mk (a.modify i f) top).incarnate k v =
        ({ ((Pool.mk a top).incarnate k v).1 with
            arena := ((Pool.mk a top).incarnate k v).1.arena.modify i f },
          ((Pool.mk a top).incarnate k v).2) := by
    intro a k top hik
    simp only [incarnate, a.modify_comm hik, Arena.slot?_modify _ i k, if_neg hik]
  obtain ⟨a, top⟩ := p
  cases top with
  | node k g =>
    have hik : i ≠ k := (hfree k g rfl).symm
    have hnext : (a.modify i f).next (.node k g) = a.next (.node k g) :=
      Arena.next_congr
        (by rw [Arena.slot?_modify, if_neg (show i ≠ Link.index (.node k g) from hik)])
    simp only [allocate, hnext, hincarnate _ _ _ hik]
  | nil =>
    simp only [allocate, a.allocFresh_modify granted hslot]
    cases hclaim : (a.allocFresh granted).answer with
    | error failure => rfl
    | ok k =>
      have hik : i ≠ k := by
        rw [((a.claims_allocFresh granted).fresh_eq hclaim).1]
        exact fun h => hfresh h.symm
      simp only [hincarnate _ _ _ hik]

end Pool

namespace Store

variable {β : Type} {s : Store β} {granted : Bool} {v : β} {m : Link}

/-- A node is got, or refused, whether a slot in use is made to lead elsewhere before or after. -/
theorem allocate_setNext (hslot : (s.arena.slot? m.index).isSome)
    (hfree : ∀ k g, s.pool.free = .node k g → k ≠ m.index) (hfresh : s.arena.fresh ≠ m.index)
    (next : Link) :
    (s.setNext m next).allocate granted v =
      ⟨(s.allocate granted v).state.setNext m next, (s.allocate granted v).answer,
        (s.allocate granted v).log⟩ := by
  cases m with
  | nil => rfl
  | node i g =>
    have hpool := s.pool.allocate_modify granted v hslot hfree hfresh
      fun slot => { slot with next }
    exact congrArg (fun e => Effect.mk { s with pool := e.state } e.answer e.log) hpool

/-- Whether memory is there for the segment that the next index lies in. -/
def grant (grants : Nat → Bool) (s : Store β) : Bool := grants (locate s.arena.fresh).segment

/-- The store with a private chain put on top of its stack, if there are nodes in it. -/
def topped (s : Store β) (first last : Link) : Store β :=
  match first with
  | .nil => s
  | .node _ _ => s.publish first last

/-- A node for each of the values in turn, linked to the one before; and the two ends of the chain.
Nothing if a node is refused. -/
def build (grants : Nat → Bool) (s : Store β) (first last : Link) :
    List β → Option (Store β × Link × Link)
  | [] => some (s, first, last)
  | v :: vs =>
    match (s.allocate (s.grant grants) v).answer with
    | .error _ => none
    | .ok l => ((s.allocate (s.grant grants) v).state.setNext l first).build grants l
        (if first.isNil then l else last) vs

def pushed (grants : Nat → Bool) (s : Store β) (v : β) : Option (Store β) :=
  (s.build grants .nil .nil [v]).map fun built => built.1.topped built.2.1 built.2.2

def pushedAll (grants : Nat → Bool) (s : Store β) (vs : List β) : Option (Store β) :=
  vs.foldlM (pushed grants) s

/-- What is written to a node of a private chain has no part in handing out another node. -/
theorem Laid.allocate_setNext {L : Layout β} {u : Strand β} {rest : List (Strand β)} {c : Cell β}
    (h : s.Laid (L.withStrands (u :: rest))) (granted : Bool) (v : β) (hc : c ∈ u) (next : Link) :
    (s.setNext c.link next).allocate granted v =
      ⟨(s.allocate granted v).state.setNext c.link next, (s.allocate granted v).answer,
        (s.allocate granted v).log⟩ := by
  have hcell : c ∈ (L.withStrands (u :: rest)).cells :=
    Layout.mem_cells.2 (.inr ⟨u, List.mem_cons_self, hc⟩)
  obtain ⟨slot, hslot, -⟩ := h.holds c hcell
  refine Store.allocate_setNext (Option.isSome_iff_exists.2 ⟨slot, hslot⟩) (fun k g hroot heq => ?_)
    (Nat.ne_of_lt (h.index_lt hcell)).symm next
  have hfirst : s.pool.free = (L.on .free).first := by
    rw [← L.on_withStrands (u :: rest)]
    exact h.root_eq .free
  cases hL : L.on .free with
  | nil =>
    rw [hfirst, hL] at hroot
    cases hroot
  | cons d below =>
    rw [hfirst, hL] at hroot
    have hd : d ∈ L.on .free := hL ▸ List.mem_cons_self
    exact h.index_ne hc (Layout.mem_cells_of_on hd) ((congrArg Link.index hroot).trans heq)

theorem pushed_eq (s : Store β) (grants : Nat → Bool) (v : β) : s.pushed grants v =
    match (s.allocate (s.grant grants) v).answer with
    | .error _ => none
    | .ok l => some (((s.allocate (s.grant grants) v).state.setNext l .nil).topped l l) := by
  simp only [pushed, build]
  cases (s.allocate (s.grant grants) v).answer <;> rfl

section

variable {stack : Strand β} {u : Load β} {rest : List (Strand β)}
  (h : s.Tidy stack (u.strand :: rest))
include h

/-- The chain with a node more on top. -/
theorem Tidy.linked {l : Link} (hok : (s.allocate granted v).answer = .ok l) :
    ((s.allocate granted v).state.setNext l u.strand.first).Tidy stack
        (Load.strand ((l, v) :: u) :: rest) ∧
      (if u.strand.first.isNil then l else u.strand.last) = (Load.strand ((l, v) :: u)).last := by
  refine ⟨(h.allocate hok).link (c := ⟨l, .full v⟩), ?_⟩
  cases u with
  | nil => rfl
  | cons n u =>
    have hne := h.first_ne_nil (Load.strand_ne_nil (List.cons_ne_nil n u))
    have hlast := Strand.last_cons (⟨l, .full v⟩ : Cell β)
      (Load.strand_ne_nil (List.cons_ne_nil n u))
    refine Eq.trans ?_ hlast.symm
    cases hfirst : (Load.strand (n :: u)).first with
    | nil => exact absurd hfirst hne
    | node i g => rfl

/-- The next value gets the same node, whether the chain is on the stack already or private. -/
theorem Tidy.pushed_topped (grants : Nat → Bool) (v : β) :
    (s.topped u.strand.first u.strand.last).pushed grants v =
      match (s.allocate (s.grant grants) v).answer with
      | .error _ => none
      | .ok l => some (((s.allocate (s.grant grants) v).state.setNext l u.strand.first).topped l
          (if u.strand.first.isNil then l else u.strand.last)) := by
  cases u with
  | nil => exact s.pushed_eq grants v
  | cons n u =>
    obtain ⟨c, hc, hlast⟩ := Strand.exists_last (Load.strand_ne_nil (List.cons_ne_nil n u))
    have hne := h.first_ne_nil (Load.strand_ne_nil (List.cons_ne_nil n u))
    obtain ⟨L, -, hlaid⟩ := h
    have hgot := hlaid.allocate_setNext (s.grant grants) v hc s.head
    rw [pushed_eq, ← hlast]
    cases hfirst : (Load.strand (n :: u)).first with
    | nil => exact absurd hfirst hne
    | node i g =>
      have hgrant : (s.publish (.node i g) c.link).grant grants = s.grant grants :=
        congrArg (fun fresh => grants (locate fresh).segment)
          (Arena.Relinks.setNext s.arena c.link s.head).fresh_eq
      have hpublished : (s.publish (.node i g) c.link).allocate (s.grant grants) v =
          ⟨{ (s.allocate (s.grant grants) v).state.setNext c.link s.head with head := .node i g },
            (s.allocate (s.grant grants) v).answer, (s.allocate (s.grant grants) v).log⟩ :=
        congrArg (fun e => Effect.mk { e.state with head := .node i g } e.answer e.log) hgot
      simp only [topped, hgrant, hpublished]
      cases hanswer : (s.allocate (s.grant grants) v).answer with
      | error failure => rfl
      | ok l =>
        obtain ⟨free, hnew⟩ := hlaid.allocate hanswer
        have happly : c.link.index ≠ l.index :=
          hnew.index_ne (u := [⟨l, .full v⟩]) List.mem_cons_self (d := c)
            (Layout.mem_cells.2 (.inr ⟨_, List.mem_cons_self, hc⟩))
        cases l with
        | nil => exact absurd rfl (hnew.ne_nil (c := ⟨.nil, .full v⟩)
            (Layout.mem_cells.2 (.inr ⟨_, List.mem_cons_self, List.mem_cons_self⟩)))
        | node k e =>
          have hhead : (s.allocate (s.grant grants) v).state.head = s.head := rfl
          simp only [publish, setNext, withArena, arena, Link.isNil, Bool.false_eq_true, if_false,
            hhead, Arena.setNext_setNext]
          rw [Arena.setNext_comm _ happly]

/-- A batch and the pushes of its values one by one fail alike, and else lead to the same store. -/
theorem Tidy.pushedAll_topped (grants : Nat → Bool) (vs : List β) :
    (s.topped u.strand.first u.strand.last).pushedAll grants vs =
      (s.build grants u.strand.first u.strand.last vs).map fun built =>
        built.1.topped built.2.1 built.2.2 := by
  induction vs generalizing s u with
  | nil => rfl
  | cons v vs ih =>
    rw [pushedAll, List.foldlM_cons, h.pushed_topped, build]
    cases hanswer : (s.allocate (s.grant grants) v).answer with
    | error failure => rfl
    | ok l =>
      obtain ⟨hlinked, hlast⟩ := h.linked hanswer
      have hrest := ih hlinked
      rw [← hlast] at hrest
      exact hrest

end

/-- The free slots, and after them fresh ones, suffice for so many nodes. -/
def Affords (grants : Nat → Bool) (s : Store β) (n : Nat) : Prop :=
  ∀ j, s.freeList.length + j < n → s.arena.fresh + j < s.arena.capacity ∧
    s.arena.available grants (locate (s.arena.fresh + j)).segment = true

theorem allocate_ok_iff (grants : Nat → Bool) (s : Store β) (v : β) :
    (∃ l, (s.allocate (s.grant grants) v).answer = .ok l) ↔ s.pool.free ≠ .nil ∨
      s.arena.fresh < s.arena.capacity ∧
        s.arena.available grants (locate s.arena.fresh).segment = true := by
  rcases s with ⟨settings, ⟨a, top⟩, head, orphans, epoch, shutdown⟩
  cases top with
  | node i g => exact ⟨fun _ => .inl (by nofun), fun _ => ⟨_, rfl⟩⟩
  | nil =>
    refine Iff.trans ?_ ((a.allocFresh_ok_iff grants).trans (or_iff_right (by simp)).symm)
    simp only [allocate, Pool.allocate, grant, arena]
    cases (a.allocFresh (grants (locate a.fresh).segment)).answer with
    | ok i => simp
    | error failure => simp

theorem available_allocate (grants : Nat → Bool) (hs : s.arena.Sound) (v : β) :
    (s.allocate (s.grant grants) v).state.arena.available grants = s.arena.available grants := by
  rcases s with ⟨settings, ⟨a, top⟩, head, orphans, epoch, shutdown⟩
  cases top with
  | node i g => exact Arena.available_update grants a (.node i 0) _
  | nil =>
    refine Eq.trans ?_ (hs.available_allocFresh grants a)
    simp only [allocate, Pool.allocate, grant, arena]
    cases (a.allocFresh (grants (locate a.fresh).segment)).answer with
    | ok i => exact Arena.available_update grants _ (.node i 0) _
    | error failure => rfl

/-- What a node more on top of a private chain does to the extent of the arena. -/
theorem extent_linked {l : Link} (hok : (s.allocate granted v).answer = .ok l) (next : Link) :
    ((s.allocate granted v).state.setNext l next).arena.extent =
      (if s.pool.free = .nil then s.arena.fresh + 1 else s.arena.fresh, s.arena.capacity) :=
  (Arena.extent_update _ l _).trans (extent_allocate hok)

section

variable {L : Layout β} {rest : List (Strand β)} {grants : Nat → Bool} {l : Link}
  (h : s.Laid (L.withStrands rest))
include h

theorem Laid.free_eq_nil_iff : s.pool.free = .nil ↔ s.freeList = [] := by
  obtain ⟨-, hfree, -⟩ := h.chains_eq
  have hroot : s.pool.free = L.free.first := h.root_eq .free
  rw [hfree, hroot, List.map_eq_nil_iff]
  cases hL : L.free with
  | nil => simp
  | cons c below =>
    have hc : c ∈ L.on .free := by
      rw [Layout.on, hL]
      exact List.mem_cons_self
    simp [h.ne_nil (Layout.mem_cells_of_on hc)]

/-- Whether there are slots for one node more is asked of the next node, and then of the store
that has handed it out. -/
theorem Laid.affords_succ (hok : (s.allocate (s.grant grants) v).answer = .ok l) (next : Link)
    (n : Nat) : s.Affords grants (n + 1) ↔
      ((s.allocate (s.grant grants) v).state.setNext l next).Affords grants n := by
  have hextent := extent_linked hok next
  have havailable : ((s.allocate (s.grant grants) v).state.setNext l next).arena.available grants =
      s.arena.available grants :=
    (Arena.available_update grants _ l _).trans (available_allocate grants h.sound v)
  have hcapacity := congrArg Prod.snd hextent
  have hfresh := congrArg Prod.fst hextent
  simp only [Arena.extent] at hcapacity hfresh
  rw [Affords, Affords, havailable, hcapacity, hfresh]
  rcases h.freeList_allocate hok next with ⟨hempty, -⟩ | ⟨top, below, hfree, -, hbelow⟩
  · have hnil := h.free_eq_nil_iff.2 hempty
    have hstill : ((s.allocate (s.grant grants) v).state.setNext l next).freeList = [] := by
      rw [freeList, Pool.freeList]
      refine (congrArg (Arena.chain _) ?_).trans (Arena.chain_nil _)
      exact free_allocate hnil
    have hfirst := ((allocate_ok_iff grants s v).1 ⟨l, hok⟩).resolve_left fun hne => hne hnil
    rw [if_pos hnil, hempty, hstill]
    constructor
    · intro hall j hj
      have hnext := hall (j + 1) (by simp only [List.length_nil] at hj ⊢; omega)
      rwa [show s.arena.fresh + (j + 1) = s.arena.fresh + 1 + j from by omega] at hnext
    · intro hall j hj
      cases j with
      | zero => exact hfirst
      | succ j =>
        have hnext := hall j (by simp only [List.length_nil] at hj ⊢; omega)
        rwa [show s.arena.fresh + 1 + j = s.arena.fresh + (j + 1) from by omega] at hnext
  · have hne : s.pool.free ≠ .nil := fun hnil => by
      rw [h.free_eq_nil_iff.1 hnil] at hfree
      cases hfree
    rw [if_neg hne, hfree, hbelow]
    refine forall_congr' fun j => imp_congr_left ?_
    rw [List.length_cons]
    omega

end

/-- There is a node for each value just if there are slots enough. -/
theorem Tidy.build_isSome {stack : Strand β} {u : Load β} {rest : List (Strand β)}
    {grants : Nat → Bool} {vs : List β} (h : s.Tidy stack (u.strand :: rest)) :
    (s.build grants u.strand.first u.strand.last vs).isSome = true ↔
      s.Affords grants vs.length := by
  induction vs generalizing s u with
  | nil => exact ⟨fun _ j hj => absurd hj (Nat.not_lt_zero _), fun _ => rfl⟩
  | cons v vs ih =>
    have hlaid := h
    obtain ⟨L, -, hlaid⟩ := hlaid
    cases hanswer : (s.allocate (s.grant grants) v).answer with
    | error failure =>
      have hnone : ¬ ∃ l, (s.allocate (s.grant grants) v).answer = .ok l := by
        rintro ⟨l, hl⟩
        cases hanswer.symm.trans hl
      simp only [Store.build, hanswer]
      refine ⟨fun hsome => (by cases hsome), fun hall => absurd ?_ hnone⟩
      rw [allocate_ok_iff, Classical.or_iff_not_imp_left, not_not, hlaid.free_eq_nil_iff]
      intro hempty
      exact hall 0 (by rw [hempty, List.length_nil, List.length_cons]; omega)
    | ok l =>
      obtain ⟨hlinked, hlast⟩ := h.linked hanswer
      simp only [Store.build, hanswer, hlast, List.length_cons]
      rw [hlaid.affords_succ hanswer u.strand.first]
      exact ih hlinked

section

variable {grants : Nat → Bool}

/-- With memory enough, the slots up to the capacity suffice. -/
theorem affords_granted (hbound : s.arena.fresh ≤ s.arena.capacity) (n : Nat) :
    s.Affords (fun _ => true) n ↔ s.arena.fresh + n ≤ s.freeList.length + s.arena.capacity := by
  simp only [Affords, Arena.available, Bool.or_true, and_true]
  constructor
  · intro hall
    by_contra hnot
    have hlast := hall (s.arena.capacity - s.arena.fresh) (by omega)
    omega
  · intro hsum j hj
    omega

theorem Affords.mono {t : Store β} {n : Nat} (h : s.Affords grants n)
    (hfresh : t.arena.fresh = s.arena.fresh) (hcapacity : t.arena.capacity = s.arena.capacity)
    (havailable : t.arena.available grants = s.arena.available grants)
    (hfree : s.freeList.length ≤ t.freeList.length) : t.Affords grants n := by
  intro j hj
  rw [hfresh, hcapacity, havailable]
  exact h j (by omega)

section

variable {stack : Strand β} {u : Load β} {rest : List (Strand β)}

theorem Tidy.topped (h : s.Tidy stack (u.strand :: rest)) :
    (s.topped u.strand.first u.strand.last).Tidy (u.strand ++ stack) rest ∧
      (s.topped u.strand.first u.strand.last).freeList = s.freeList := by
  cases u with
  | nil => exact ⟨h.dropNil, rfl⟩
  | cons n u =>
    have hne := h.first_ne_nil (Load.strand_ne_nil (List.cons_ne_nil n u))
    have htopped : s.topped (Load.strand (n :: u)).first (Load.strand (n :: u)).last =
        s.publish (Load.strand (n :: u)).first (Load.strand (n :: u)).last := by
      cases hfirst : (Load.strand (n :: u)).first with
      | nil => exact absurd hfirst hne
      | node i g => rfl
    obtain ⟨L, rfl, hlaid⟩ := h
    have hpublished := hlaid.publish (Load.strand_ne_nil (List.cons_ne_nil n u))
    obtain ⟨-, hfree, -⟩ := hlaid.chains_eq
    obtain ⟨-, hfree', -⟩ := hpublished.chains_eq
    rw [htopped]
    exact ⟨⟨L.hang _ .stack, rfl, hpublished⟩, hfree'.trans hfree.symm⟩

end

theorem extent_topped (s : Store β) (first last : Link) :
    (s.topped first last).arena.extent = s.arena.extent := by
  cases first with
  | nil => rfl
  | node i g => exact Arena.extent_update s.arena last _

theorem available_topped (grants : Nat → Bool) (s : Store β) (first last : Link) :
    (s.topped first last).arena.available grants = s.arena.available grants := by
  cases first with
  | nil => rfl
  | node i g => exact Arena.available_update grants s.arena last _

theorem flags_topped (s : Store β) (first last : Link) :
    (s.topped first last).settings = s.settings ∧ (s.topped first last).shutdown = s.shutdown := by
  cases first <;> exact ⟨rfl, rfl⟩

theorem flags_build {vs : List β} {t : Store β} {first last first' last' : Link}
    (hbuilt : s.build grants first last vs = some (t, first', last')) :
    t.settings = s.settings ∧ t.shutdown = s.shutdown := by
  induction vs generalizing s first last with
  | nil =>
    cases hbuilt
    exact ⟨rfl, rfl⟩
  | cons v vs ih =>
    cases hanswer : (s.allocate (s.grant grants) v).answer with
    | error failure =>
      simp only [build, hanswer] at hbuilt
      cases hbuilt
    | ok l =>
      simp only [build, hanswer] at hbuilt
      have hrest := ih hbuilt
      exact hrest

end

end Store

end RecyclingStack
