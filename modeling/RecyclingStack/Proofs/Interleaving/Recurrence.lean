import RecyclingStack.Proofs.Interleaving.Traffic
import RecyclingStack.Proofs.Session.Recurrence

/-! Chains over a stretch of an interleaved run. What somebody could have seen of a chain at its
beginning still holds at its end, although no thread remembers it; so an exchange of a root goes
through only where it is right, be it in a session or between threads. -/
namespace RecyclingStack

/-- From one moment of a run to a later one, what was seen of a chain goes on to hold, and slots
only grow older. -/
structure Passes {α : Type} (s : Store α) (L : Layout α) (t : Store α) (M : Layout α) : Prop where
  holds : ∀ x : Sight, x.Holds s L → x.Holds t M
  ages : ∀ c ∈ L.cells, ∃ d ∈ M.cells, d.index = c.index ∧ c.age ≤ d.age

theorem Passes.refl {α : Type} (s : Store α) (L : Layout α) : Passes s L s L :=
  ⟨fun _ h => h, fun c hc => ⟨c, hc, rfl, Nat.le_refl _⟩⟩

theorem Passes.trans {α : Type} {s t u : Store α} {L M N : Layout α} (h : Passes s L t M)
    (h' : Passes t M u N) : Passes s L u N where
  holds := fun x hx => h'.holds x (h.holds x hx)
  ages := by
    intro c hc
    obtain ⟨d, hd, hindex, hage⟩ := h.ages c hc
    obtain ⟨e, he, hindex', hage'⟩ := h'.ages d hd
    exact ⟨e, he, hindex'.trans hindex, Nat.le_trans hage hage'⟩

namespace Machine

variable {α : Type} {m : Machine α} {L : Layout α} {crew : Crew α} {live : Load α}
  {outs : Nat → Nat} {r : Root}

/-- What a stretch of a run leads to, and what it keeps. -/
theorem Crewed.run (h : m.Crewed L crew live outs) (schedule : List (Nat × Bool))
    (hbound : ∀ i, outs i + (m.handedOut schedule).count i < halfWord) :
    ∃ M crew' live', (m.run schedule).Crewed M crew' live'
        (fun i => outs i + (m.handedOut schedule).count i) ∧
      Passes m.store (L.withStrands crew.strands) (m.run schedule).store
        (M.withStrands crew'.strands) := by
  induction schedule generalizing m L crew live outs with
  | nil => exact ⟨L, crew, live, h, .refl _ _⟩
  | cons turn schedule ih =>
    obtain ⟨worker, spurious⟩ := turn
    simp only [handedOut, handOut] at hbound ⊢
    change ∃ M crew' live', ((m.step worker spurious).run schedule).Crewed M crew' live' _ ∧
      Passes _ _ ((m.step worker spurious).run schedule).store _
    cases hw : m.workers[worker]? with
    | none =>
      simp only [hw, step_none hw, List.nil_append] at hbound ⊢
      exact ih h hbound
    | some w =>
      obtain ⟨before, own, after, rfl, rfl⟩ := Crew.exists_split (h.workers ▸ hw)
      simp only [hw, List.count_append, ← Nat.add_assoc] at hbound ⊢
      have hlt : ∀ i, outs i < halfWord := fun i =>
        Nat.lt_of_le_of_lt (Nat.le_add_right_of_le (Nat.le_add_right _ _)) (hbound i)
      obtain ⟨own', N, live', haccess⟩ := h.access hlt spurious
      obtain ⟨M, crew', live'', hlast, hpasses⟩ := ih haccess.next hbound
      exact ⟨M, crew', live'', hlast,
        .trans ⟨fun x hx => haccess.holds hx, fun c hc => haccess.ages hc⟩ hpasses⟩

/-- A link on a chain could be seen there, with the one that it leads to. -/
theorem Crewed.sight (h : m.Crewed L crew live outs) (hr : r ≠ .orphans) {l : Link}
    (hl : l ∈ m.store.hanging r) : (⟨r, l, some (m.store.arena.next l)⟩ : Sight).Holds m.store
      (L.withStrands crew.strands) := by
  obtain ⟨c, hc, rfl⟩ := h.laid.mem_hanging.1 hl
  refine ⟨hr, h.laid.ne_nil (Layout.mem_cells.2 (.inl ⟨r, hc⟩)), .inl ⟨c, hc, rfl⟩, ?_⟩
  intro n hn _
  exact Option.some.inj hn

theorem Crewed.steady (h : m.Crewed L crew live outs) (hr : r ≠ .orphans)
    {between after : List (Nat × Bool)}
    (hbound : ∀ i, outs i + (m.handedOut (between ++ after)).count i < halfWord) :
    Store.Steady r m.store (m.run between).store (m.run (between ++ after)).store := by
  simp only [handedOut_append, List.count_append, ← Nat.add_assoc] at hbound
  obtain ⟨M, crew', live', hmiddle, hfirst⟩ := h.run between fun i =>
    Nat.lt_of_le_of_lt (Nat.le_add_right _ _) (hbound i)
  obtain ⟨N, crew'', live'', hlast, hsecond⟩ := hmiddle.run after hbound
  rw [run_append]
  refine .of_stays h.laid hlast.laid fun l hl hback => ?_
  have hon := hlast.laid.mem_hanging.1 hback
  have hseen := hfirst.holds _ (h.sight hr hl)
  have hsame := (hsecond.holds _ hseen).next _ rfl hon
  rcases hseen.seen with hthere | hold
  · exact ⟨hmiddle.laid.mem_hanging.2 hthere, hseen.next _ rfl hthere, hsame⟩
  -- what has aged in between has aged at the end, and then the link is not back
  · have haged : (N.withStrands crew''.strands).Aged r l := Layout.Aged.mono hold hsecond.ages
    exact absurd hon (haged.not_on hlast.laid (hlast.ranked.withStrands _))

end Machine

/-- The stack and the free list are free of the confusion of a node with a later one in its slot.
In the states of a session, those in the midst of operations included, and between any two accesses
of threads side by side, a link that is on top once more has been on the chain all the time and has
the successor it had, and an exchange prepared then and made now takes just the top off; a link that
has left the chain is never on it again. -/
theorem steady_runs {α : Type} (p : Plan) {r : Root} (hr : r ≠ .orphans) :
    (∀ before between after : List (Move α),
      (∀ i, ((Session.ofPlan p).handedOut (before ++ between ++ after)).count i < 2 ^ 32) →
        Store.Steady r ((Session.ofPlan p).play before).store
          ((Session.ofPlan p).play (before ++ between)).store
          ((Session.ofPlan p).play (before ++ between ++ after)).store) ∧
      ∀ (programs : List (List (Call α))) (before between after : List (Nat × Bool)),
        (∀ i, ((Machine.ofPrograms p programs).handedOut
          (before ++ between ++ after)).count i < 2 ^ 32) →
          Store.Steady r ((Machine.ofPrograms p programs).run before).store
            ((Machine.ofPrograms p programs).run (before ++ between)).store
            ((Machine.ofPrograms p programs).run (before ++ between ++ after)).store := by
  constructor
  · intro before between after hbound
    rw [List.append_assoc] at hbound ⊢
    have hbounded := (Session.bounded_ofPlan p hbound).right (Session.sound_ofPlan p)
    obtain ⟨_, _, _, hs, -⟩ := (Session.sound_ofPlan p).play before
    rw [Session.play_append, Session.play_append]
    exact hs.steady hr hbounded
  · intro programs before between after hbound
    rw [List.append_assoc] at hbound ⊢
    have hfrom : ∀ i, 0 + ((Machine.ofPrograms p programs).handedOut before).count i +
        (((Machine.ofPrograms p programs).run before).handedOut (between ++ after)).count i <
          halfWord := by
      intro i
      rw [Nat.zero_add, ← List.count_append, ← Machine.handedOut_append]
      exact hbound i
    obtain ⟨L, crew, live, hcrewed, -⟩ := (Machine.crewed_ofPrograms p programs).run before
      fun i => Nat.lt_of_le_of_lt (Nat.le_add_right _ _) (hfrom i)
    rw [Machine.run_append, Machine.run_append]
    exact hcrewed.steady hr hfrom

def topped : List (Move Nat) := Move.inTurn 4 [.register 0, .push 0 (.plain 1)]

def covered : List (Move Nat) := Move.inTurn 4 [.push 0 (.plain 2)]

def uncovered : List (Move Nat) := Move.inTurn 4 [.pop 0]

/-- A thread has read the top and its forward link, before its slot is recycled and pushed again. -/
def sighted : List (Nat × Bool) := List.replicate 16 (0, false) ++ List.replicate 5 (1, false)

theorem steady_revisited :
    .node 0 1 ∈ ((Session.ofPlan .default).play (topped ++ covered)).store.chain ∧
      .node 0 1 ∉ ((Machine.ofPrograms .default Machine.recycling).run
        (sighted ++ List.replicate 60 (0, false) ++ List.replicate 20 (1, false))).store.chain := by
  obtain ⟨hsession, hmachine⟩ := steady_runs (α := Nat) .default (r := .stack) (by decide)
  have hback := hsession topped covered uncovered (count_lt_of_length (by decide +kernel))
  have hgone := hmachine Machine.recycling sighted (List.replicate 60 (0, false))
    (List.replicate 20 (1, false)) (count_lt_of_length (by decide +kernel))
  exact ⟨(hback.top (.node 0 1) (by decide) (by decide +kernel) (by decide +kernel)).1,
    hgone.left (.node 0 1) (by decide +kernel) (by decide +kernel)⟩

end RecyclingStack
