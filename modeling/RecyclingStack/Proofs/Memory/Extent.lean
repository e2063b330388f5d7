import RecyclingStack.Proofs.Memory.Drift

/-! How many slots were ever handed out, and how many can be. Only a node that is got while no slot
is free adds to the former, and nothing changes the latter. -/
namespace RecyclingStack

section

variable {β : Type}

def Arena.extent (a : Arena β) : Nat × Nat := (a.fresh, a.capacity)

theorem Arena.extent_update (a : Arena β) (l : Link) (f : Slot β → Slot β) :
    (a.update l f).extent = a.extent := by
  cases l <;> rfl

/-- What can be asked of an arena without a look at what its slots hold. -/
def Arena.Inert {γ : Type} (q : Arena β → γ) : Prop :=
  ∀ (a : Arena β) (l : Link) (f : Slot β → Slot β), q (a.update l f) = q a

theorem Arena.inert_extent : Inert (extent : Arena β → Nat × Nat) := extent_update

namespace Store

variable {s : Store β} {granted : Bool} {v : β} {l : Link}

/-- A node is got off the free list, or for want of a free slot by a claim of the next index. -/
theorem extent_allocate (hok : (s.allocate granted v).answer = .ok l) :
    (s.allocate granted v).state.arena.extent =
      (if s.pool.free = .nil then s.arena.fresh + 1 else s.arena.fresh, s.arena.capacity) := by
  rcases s with ⟨settings, ⟨arena, free⟩, head, orphans, epoch, shutdown⟩
  cases free with
  | node i g => rfl
  | nil =>
    have hclaims := arena.claims_allocFresh granted
    simp only [allocate, Pool.allocate] at hok ⊢
    generalize arena.allocFresh granted = claim at hok hclaims ⊢
    cases hclaims with
    | full | starves => cases hok
    | fills | opens => rfl

theorem free_allocate (hfree : s.pool.free = .nil) :
    (s.allocate granted v).state.pool.free = .nil := by
  rcases s with ⟨settings, ⟨arena, free⟩, head, orphans, epoch, shutdown⟩
  obtain rfl : free = .nil := hfree
  simp only [allocate, Pool.allocate]
  cases (arena.allocFresh granted).answer <;> rfl

theorem allocate_error_capacity {failure : Exhausted}
    (h : (s.allocate granted v).answer = .error failure) :
    failure = ⟨s.arena.capacity⟩ := by
  rcases s with ⟨settings, ⟨arena, free⟩, head, orphans, epoch, shutdown⟩
  cases free with
  | node i g => cases h
  | nil =>
    have hclaims := arena.claims_allocFresh granted
    simp only [allocate, Pool.allocate] at h
    generalize arena.allocFresh granted = claim at h hclaims
    cases hclaims with
    | full | starves => exact (Except.error.inj h).symm
    | fills | opens => cases h

/-- If there is memory enough, a node is refused only when no slot is free and none is left. -/
theorem allocate_refused (s : Store β) (v : β) {failure : Exhausted} :
    (s.allocate true v).answer = .error failure ↔
      failure = ⟨s.arena.capacity⟩ ∧ s.pool.free = .nil ∧ s.arena.capacity ≤ s.arena.fresh := by
  rcases s with ⟨settings, ⟨arena, free⟩, head, orphans, epoch, shutdown⟩
  cases free with
  | node i g =>
    constructor
    · exact fun h => by cases h
    · exact fun h => by cases h.2.1
  | nil =>
    have hclaims := arena.claims_allocFresh true
    simp only [allocate, Pool.allocate, Store.arena]
    generalize arena.allocFresh true = claim at hclaims ⊢
    cases hclaims with
    | full full => simp [full, eq_comm]
    | fills room | opens room => simp [Nat.not_le.2 room]

end Store

namespace Arena.Inert

variable {γ : Type} {q : Arena β → γ} (hq : Inert q)
include hq

theorem deallocateAll (p : Pool β) (links : List Link) :
    q (p.deallocateAll links).arena = q p.arena := by
  induction links generalizing p with
  | nil => rfl
  | cons l links ih => exact (ih (p.deallocate l)).trans (hq _ _ _)

theorem thread (s : Store β) (tail : Link) (links : List Link) :
    q (s.thread tail links).arena = q s.arena := by
  induction links generalizing s with
  | nil => rfl
  | cons l links ih =>
    cases links with
    | nil => exact hq _ _ _
    | cons next links => exact (ih (s.setNext l next)).trans (hq _ _ _)

theorem orphan (s : Store β) (links : List Link) : q (s.orphan links).arena = q s.arena := by
  cases links with
  | nil => rfl
  | cons l links => exact hq.thread s s.orphans (l :: links)

variable (t : Turn β)

theorem reclaim : q t.reclaim.state.store.arena = q t.store.arena :=
  hq.deallocateAll t.store.pool _

theorem advance : q t.advance.state.store.arena = q t.store.arena :=
  hq.deallocateAll t.store.pool _

theorem complete : q t.complete.state.store.arena = q t.store.arena := by
  simp only [Turn.complete]
  split
  · exact hq.deallocateAll t.store.pool _
  · rfl

theorem pop : q t.pop.state.store.arena = q t.store.arena := by
  rcases t.pop_cases with hpop | ⟨v, hpop⟩ <;> rw [hpop]
  exact (hq.complete (t.retired t.store.head)).trans ((hq _ _ _).trans (hq _ _ _))

theorem publish (first last : Link) :
    q (t.publish first last).state.store.arena = q t.store.arena :=
  (hq.complete _).trans (hq t.store.arena last _)

theorem abandon : q t.abandon.state.arena = q t.store.arena :=
  (hq.orphan _ _).trans (hq.reclaim t)

end Arena.Inert

end

end RecyclingStack
