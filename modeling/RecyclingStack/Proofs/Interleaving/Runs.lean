import Mathlib.Data.List.Induction
import RecyclingStack.Proofs.Interleaving.Crew

/-! Runs of a machine, access by access: what is logged along a schedule, and how a property of the
moments of a run is kept by every access. -/
namespace RecyclingStack

namespace Machine

variable {α β : Type}

/-- What is logged of the accesses along a schedule, by the number of the thread, the thread, the
store that it finds, and whether the access fails for no reason. -/
def logged (event : Nat → Worker α → Store α → Bool → List β) (m : Machine α) :
    List (Nat × Bool) → List β
  | [] => []
  | turn :: schedule =>
    (m.workers[turn.1]?.elim [] fun w => event turn.1 w m.store turn.2) ++
      (m.step turn.1 turn.2).logged event schedule

section

variable {event : Nat → Worker α → Store α → Bool → List β} {m : Machine α}
  {schedule : List (Nat × Bool)} {worker : Nat}

theorem logged_append (event : Nat → Worker α → Store α → Bool → List β) (m : Machine α)
    (schedule more : List (Nat × Bool)) :
    m.logged event (schedule ++ more) =
      m.logged event schedule ++ (m.run schedule).logged event more := by
  induction schedule generalizing m with
  | nil => rfl
  | cons turn schedule ih =>
    rw [List.cons_append, logged, ih, ← List.append_assoc]
    rfl

theorem logged_turn (event : Nat → Worker α → Store α → Bool → List β) {w : Worker α}
    (hw : (m.run schedule).workers[worker]? = some w) (spurious : Bool) :
    m.logged event (schedule ++ [(worker, spurious)]) =
      m.logged event schedule ++ event worker w (m.run schedule).store spurious := by
  rw [logged_append, logged, logged, hw, List.append_nil]
  rfl

theorem logged_skip (event : Nat → Worker α → Store α → Bool → List β)
    (hnone : (m.run schedule).workers[worker]? = none) (spurious : Bool) :
    m.logged event (schedule ++ [(worker, spurious)]) = m.logged event schedule := by
  rw [logged_append, logged, logged, hnone]
  exact List.append_nil _

theorem run_turn (m : Machine α) (schedule : List (Nat × Bool)) (worker : Nat) (spurious : Bool) :
    m.run (schedule ++ [(worker, spurious)]) = (m.run schedule).step worker spurious :=
  m.run_append schedule [(worker, spurious)]

theorem step_none (hnone : m.workers[worker]? = none) (spurious : Bool) :
    m.step worker spurious = m := by
  rw [step, hnone]

theorem handedOut_eq_logged (m : Machine α) (schedule : List (Nat × Bool)) :
    m.handedOut schedule =
      m.logged (fun _ w s spurious => (w.handOut? s spurious).toList) schedule := by
  induction schedule generalizing m with
  | nil => rfl
  | cons turn schedule ih =>
    rw [handedOut, logged, ih, handOut]
    cases m.workers[turn.1]? <;> rfl

end

def newCrew (p : Plan) (programs : List (List (Call α))) : Crew α :=
  programs.map fun program => (Worker.register (Store.ofPlan p) program, [])

theorem strands_newCrew (p : Plan) (programs : List (List (Call α))) :
    (newCrew p programs).strands = [] := by
  apply List.flatMap_eq_nil_iff.2
  intro x hx
  obtain ⟨program, -, rfl⟩ := List.mem_map.1 hx
  rfl

theorem crewed_ofPrograms (p : Plan) (programs : List (List (Call α))) :
    (ofPrograms p programs).Crewed ⟨[], [], [], []⟩ (newCrew p programs) [] fun _ => 0 where
  workers := by
    rw [newCrew, List.map_map]
    rfl
  stack := rfl
  laid := by
    rw [strands_newCrew]
    exact Store.laid_ofPlan p
  uses := by
    rw [strands_newCrew]
    exact fun _ => rfl
  fits := by
    intro x hx
    obtain ⟨program, -, rfl⟩ := List.mem_map.1 hx
    exact Worker.fits_ready rfl

/-- A property of the moments of a run that holds at first and is kept by every access. The crew
and the layout of the moment are at hand. -/
theorem crewed_run (p : Plan) (programs : List (List (Call α)))
    {I : List (Nat × Bool) → Layout α → Crew α → Prop}
    (hnil : I [] ⟨[], [], [], []⟩ (newCrew p programs))
    (hskip : ∀ {schedule L crew worker} (spurious : Bool),
      ((ofPrograms p programs).run schedule).workers[worker]? = none → I schedule L crew →
        I (schedule ++ [(worker, spurious)]) L crew)
    (haccess : ∀ {schedule before after w own spurious L live outs own' M live'},
      (∀ i, ((ofPrograms p programs).handedOut schedule).count i < halfWord) →
      ((ofPrograms p programs).run schedule).Access before after w own spurious L live outs own' M
        live' → I schedule L (before ++ (w, own) :: after) →
      I (schedule ++ [(before.length, spurious)]) M
        (before ++ ((w.step ((ofPrograms p programs).run schedule).store spurious).2, own') ::
          after))
    (schedule : List (Nat × Bool))
    (hbound : ∀ i, ((ofPrograms p programs).handedOut schedule).count i < halfWord) :
    ∃ L crew live, ((ofPrograms p programs).run schedule).Crewed L crew live
      (fun i => ((ofPrograms p programs).handedOut schedule).count i) ∧ I schedule L crew := by
  induction schedule using List.reverseRecOn with
  | nil => exact ⟨_, _, _, crewed_ofPrograms p programs, hnil⟩
  | append_singleton schedule turn ih =>
    obtain ⟨worker, spurious⟩ := turn
    have hbefore : ∀ i, ((ofPrograms p programs).handedOut schedule).count i < halfWord := by
      intro i
      refine Nat.lt_of_le_of_lt ?_ (hbound i)
      rw [handedOut_append, List.count_append]
      exact Nat.le_add_right _ _
    obtain ⟨L, crew, live, hcrewed, hI⟩ := ih hbefore
    rw [run_turn, handedOut_eq_logged]
    rw [handedOut_eq_logged] at hcrewed
    cases hw : ((ofPrograms p programs).run schedule).workers[worker]? with
    | none =>
      rw [step_none hw, logged_skip _ hw]
      exact ⟨L, crew, live, hcrewed, hskip spurious hw hI⟩
    | some w =>
      obtain ⟨before, own, after, rfl, rfl⟩ := Crew.exists_split (hcrewed.workers ▸ hw)
      have hlt := fun i => (handedOut_eq_logged _ schedule ▸ hbefore i)
      obtain ⟨own', M, live', haccessed⟩ := hcrewed.access hlt spurious
      rw [logged_turn _ hw]
      refine ⟨M, _, live', ?_, haccess hbefore haccessed hI⟩
      simpa only [List.count_append] using haccessed.next

end Machine

end RecyclingStack
