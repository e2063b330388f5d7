import Mathlib.Data.List.Induction
import Mathlib.Order.Bounds.Basic
import RecyclingStack.Proofs.Memory.Extent
import RecyclingStack.Proofs.Session.Calls
import RecyclingStack.Proofs.Session.Idle

/-! How many slots are in use. A slot that was handed out is in use or free, and the next index is
claimed only when none is free, so that the count of indices claimed is the peak of the use. -/
namespace RecyclingStack

namespace Session

variable {α : Type} {s t : Session α} {f : Frame α} {granted : Bool}

/-- The number of slots on the stack, left to the orphans, deferred by a handle, or in the hands of
a push or a batch under way. -/
def inUse (s : Session α) : Nat :=
  s.store.chain.length + s.store.orphanChain.length + s.deferred.length +
    (s.frames.flatMap (Frame.nodes s.store.arena)).length

/-- No slot that was handed out is lost. -/
theorem Partitioned.inUse_add_free (h : s.Partitioned) :
    s.inUse + s.store.freeList.length = s.store.arena.fresh := by
  have hlength := h.exactly.length_eq
  simp only [places, List.length_map, List.length_append, List.length_range] at hlength
  simp only [inUse]
  omega

theorem Partitioned.inUse_le (h : s.Partitioned) : s.inUse ≤ s.store.arena.fresh :=
  Nat.le_of_add_right_le (Nat.le_of_eq h.inUse_add_free)

theorem freeList_eq_nil {store : Store (Payload α)} (h : store.pool.free = .nil) :
    store.freeList = [] := by
  rw [Store.freeList, Pool.freeList, h, Arena.chain]
  cases store.pool.arena.fresh <;> rfl

/-- From one state to another an index is claimed, for a payload of a push or a batch. No slot is
free before or after. -/
structure Claims (s : Session α) (f : Frame α) (t : Session α) : Prop where
  frame : ∃ h first last p rest, f = .batch h first last (.payload p :: rest)
  fresh : t.store.arena.fresh = s.store.arena.fresh + 1
  before : s.store.freeList = []
  after : t.store.freeList = []

/-- Unless it gets a node for a batch, a step does nothing to the arena but change slots. -/
theorem Changes.inert (hc : s.Changes granted f t) :
    (∀ {γ : Type} {q : Arena (Payload α) → γ}, Arena.Inert q →
        q t.store.arena = q s.store.arena) ∨
      ∃ h first last p rest l, f = .batch h first last (.payload p :: rest) ∧
        (s.store.allocate granted p).answer = .ok l ∧
        t.store = (s.store.allocate granted p).state.setNext l first := by
  cases hc with
  | @allocates h first last l p rest t ok store =>
    exact .inr ⟨h, first, last, p, rest, l, rfl, ok, store⟩
  | rests rests => exact .inl fun hq => by rw [rests.store]
  | registers _ store => exact .inl fun hq => by rw [store]
  | leaves _ store => exact .inl fun hq => by rw [store, hq.abandon]
  | pops _ _ turns => exact .inl fun hq => by rw [turns.store, hq.pop]
  | advances _ turns => exact .inl fun hq => by rw [turns.store, hq.advance]
  | reclaims _ turns => exact .inl fun hq => by rw [turns.store, hq.reclaim]
  | setsOps _ turns => exact .inl fun hq => by rw [turns.store]
  | setsEpoch _ store | shuts _ store => exact .inl fun hq => by rw [store]; rfl
  | publishes _ _ turns => exact .inl fun hq => by rw [turns.store, hq.publish]
  | empties _ take store =>
    refine .inl fun hq => ?_
    rw [store, (Store.takeValue_eq_some take).2]
    exact hq _ _ _
  | frees store =>
    refine .inl fun hq => ?_
    rw [store]
    exact hq _ _ _

theorem Changes.claims (hc : s.Changes granted f t) :
    t.store.arena.capacity = s.store.arena.capacity ∧
      (t.store.arena.fresh = s.store.arena.fresh ∨ s.Claims f t) := by
  rcases hc.inert with hinert | ⟨h, first, last, p, rest, l, rfl, ok, store⟩
  · have hextent := hinert Arena.inert_extent
    exact ⟨congrArg Prod.snd hextent, .inl (congrArg Prod.fst hextent)⟩
  · have hextent : t.store.arena.extent =
        (if s.store.pool.free = .nil then s.store.arena.fresh + 1 else s.store.arena.fresh,
          s.store.arena.capacity) := by
      rw [store, ← Store.extent_allocate ok]
      exact Arena.extent_update _ _ _
    have hfresh := congrArg Prod.fst hextent
    refine ⟨congrArg Prod.snd hextent, ?_⟩
    by_cases hnil : s.store.pool.free = .nil
    · have hstill : t.store.pool.free = .nil := by
        rw [store]
        exact Store.free_allocate hnil
      exact .inr ⟨⟨h, first, last, p, rest, rfl⟩, hfresh.trans (if_pos hnil),
        freeList_eq_nil hnil, freeList_eq_nil hstill⟩
    · exact .inl (hfresh.trans (if_neg hnil))

/-- A move claims no index, or the next one because every slot is in use. -/
theorem claims_move (s : Session α) (m : Move α) :
    (s.move m).store.arena.capacity = s.store.arena.capacity ∧
      ((s.move m).store.arena.fresh = s.store.arena.fresh ∨
        ∃ f below, s.frames = f :: below ∧
          ({ s with frames := below } : Session α).Claims f (s.move m)) := by
  rcases s.changes_move m with hrests | ⟨granted, f, below, rfl, frames, hchanges⟩
  · rw [hrests.store]
    exact ⟨rfl, .inl rfl⟩
  · obtain ⟨hcapacity, hfresh⟩ := hchanges.claims
    exact ⟨hcapacity, hfresh.imp_right fun hclaims => ⟨f, below, frames, hclaims⟩⟩

theorem capacity_play (s : Session α) (moves : List (Move α)) :
    (s.play moves).store.arena.capacity = s.store.arena.capacity := by
  induction moves generalizing s with
  | nil => rfl
  | cons m moves ih => exact (ih (s.move m)).trans (s.claims_move m).1

theorem fresh_le_play (s : Session α) (moves : List (Move α)) :
    s.store.arena.fresh ≤ (s.play moves).store.arena.fresh := by
  induction moves generalizing s with
  | nil => exact Nat.le_refl _
  | cons m moves ih =>
    refine Nat.le_trans ?_ (ih (s.move m))
    rcases (s.claims_move m).2 with hsame | ⟨f, below, -, hclaims⟩
    · exact Nat.le_of_eq hsame.symm
    · rw [hclaims.fresh]
      exact Nat.le_succ _

/-- With the next index claimed, all slots are in use. -/
theorem Partitioned.inUse_of_free (h : s.Partitioned) (hfree : s.store.freeList = []) :
    s.inUse = s.store.arena.fresh := by
  have hwhole := h.inUse_add_free
  rwa [hfree] at hwhole

/-- At some moment as many slots were in use as there are indices claimed. -/
theorem exists_peak (p : Plan) (moves : List (Move α)) :
    ∃ before, before <+: moves ∧
      ((ofPlan p : Session α).play before).inUse =
        ((ofPlan p : Session α).play moves).store.arena.fresh := by
  induction moves using List.reverseRecOn with
  | nil => exact ⟨[], List.prefix_rfl, rfl⟩
  | append_singleton moves m ih =>
    have hlast : (ofPlan p : Session α).play (moves ++ [m]) =
        ((ofPlan p : Session α).play moves).move m := play_append _ _ _
    rcases (((ofPlan p : Session α).play moves).claims_move m).2 with
      hsame | ⟨f, below, -, hclaims⟩
    · obtain ⟨before, hprefix, hpeak⟩ := ih
      exact ⟨before, hprefix.trans (List.prefix_append _ _), by rw [hpeak, hlast, hsame]⟩
    · obtain ⟨_, _, _, hs, -⟩ := (sound_ofPlan (α := α) p).play (moves ++ [m])
      refine ⟨moves ++ [m], List.prefix_rfl, hs.partitioned.inUse_of_free ?_⟩
      rw [hlast]
      exact hclaims.after

/-- The count of indices ever claimed is the peak of the slots in use up to this moment. It grows
only with a payload of a push or a batch, when every slot there is is in use. -/
theorem peak_play (p : Plan) (moves : List (Move α)) :
    IsGreatest {n | ∃ before, before <+: moves ∧ ((ofPlan p : Session α).play before).inUse = n}
        ((ofPlan p : Session α).play moves).store.arena.fresh ∧
      ∀ m, ((ofPlan p : Session α).play moves).store.arena.fresh ≠
          ((ofPlan p : Session α).play (moves ++ [m])).store.arena.fresh →
        ((ofPlan p : Session α).play moves).inUse =
            ((ofPlan p : Session α).play moves).store.arena.fresh ∧
          ∃ h first last payload rest below, ((ofPlan p : Session α).play moves).frames =
            .batch h first last (.payload payload :: rest) :: below := by
  refine ⟨⟨exists_peak p moves, ?_⟩, fun m hgrown => ?_⟩
  · rintro n ⟨before, ⟨after, rfl⟩, rfl⟩
    obtain ⟨_, _, _, hs, -⟩ := (sound_ofPlan (α := α) p).play before
    refine Nat.le_trans hs.partitioned.inUse_le ?_
    rw [play_append]
    exact fresh_le_play _ after
  · rw [play_append] at hgrown
    rcases (((ofPlan p : Session α).play moves).claims_move m).2 with
      hsame | ⟨f, below, frames, hclaims⟩
    · exact absurd hsame.symm hgrown
    · obtain ⟨_, _, _, hs, -⟩ := (sound_ofPlan (α := α) p).play moves
      obtain ⟨h, first, last, payload, rest, rfl⟩ := hclaims.frame
      exact ⟨hs.partitioned.inUse_of_free hclaims.before,
        h, first, last, payload, rest, below, frames⟩

end Session

end RecyclingStack
