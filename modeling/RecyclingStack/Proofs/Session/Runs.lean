import RecyclingStack.Proofs.Session.Steps

/-! Runs of a session from a new stack on. A run is driven from outside by operations, and, step by
step, by whether memory for a segment is to be had. -/
namespace RecyclingStack

inductive Move (α : Type) where
  /-- An operation is called, if none is under way. -/
  | call (op : Op α)
  /-- What is under way goes on by one step, with memory if `granted`. -/
  | go (granted : Bool)

/-- Operations one after the other, with so many steps for each. -/
def Move.inTurn {α : Type} (steps : Nat) (ops : List (Op α)) : List (Move α) :=
  ops.flatMap fun op => .call op :: List.replicate steps (.go true)

namespace Session

variable {α : Type} {s : Session α}

def move (s : Session α) : Move α → Session α
  | .call op => if s.frames.isEmpty then s.begin op else s
  | .go granted => s.stepWith granted

def play (s : Session α) (moves : List (Move α)) : Session α := moves.foldl move s

/-- The notes taken of one move: what is called is noted only when it is performed. -/
def moveNotes (s : Session α) : Move α → List (Note (Payload α))
  | .call _ => []
  | .go _ => s.notes

def trace (s : Session α) : List (Move α) → List (Note (Payload α))
  | [] => []
  | m :: moves => s.moveNotes m ++ (s.move m).trace moves

theorem play_append (s : Session α) (moves more : List (Move α)) :
    s.play (moves ++ more) = (s.play moves).play more :=
  List.foldl_append

/-- A move changes neither the shared state nor a context, or it is a step that takes the frame on
top off. -/
theorem changes_move (s : Session α) (m : Move α) : s.Rests (s.move m) ∨
    ∃ granted f below, m = .go granted ∧ s.frames = f :: below ∧
      ({ s with frames := below } : Session α).Changes granted f (s.move m) := by
  cases m with
  | call op =>
    simp only [Session.move]
    split <;> exact .inl ⟨rfl, rfl⟩
  | go granted =>
    cases frames : s.frames with
    | nil =>
      rw [Session.move, stepWith, frames]
      exact .inl (.refl s)
    | cons f below =>
      exact .inr ⟨granted, f, below, rfl, rfl, (s.steps_stepWith granted frames).changes⟩

theorem sound_ofPlan (p : Plan) : (ofPlan p : Session α).Sound [] [] [] where
  tidy := ⟨⟨[], [], [], []⟩, rfl, Store.laid_ofPlan p⟩
  owned := .nil
  single := .nil
  busy := by
    intro h
    constructor
    · exact fun hmem => absurd hmem List.not_mem_nil
    · rintro ⟨c, hc⟩
      cases hc
  alive := fun _ => ⟨rfl, rfl⟩
  gone := fun h => by cases h

theorem Sound.move {dead : List Link} {live : Load (Payload α)} {held : List (Load (Payload α))}
    (hs : s.Sound dead live held) (m : Move α) :
    ∃ dead' live' held', (s.move m).Sound dead' live' held' ∧
      Ledger.Runs (s.ledger live held) (s.moveNotes m) ((s.move m).ledger live' held') := by
  cases m with
  | go granted =>
    obtain ⟨dead', live', held', hsound, hruns, -⟩ := hs.step granted
    exact ⟨dead', live', held', hsound, hruns⟩
  | call op =>
    simp only [Session.move, moveNotes]
    split
    · refine ⟨dead, live, [] :: held, ?_, ?_⟩
      · exact Sound.of_eq (hs.enter (f := .perform op) rfl rfl) rfl rfl rfl rfl
      · rw [begin, ledger_enter_light rfl]
        exact .nil _
    · exact ⟨dead, live, held, hs, .nil _⟩

/-- Every state of a run is sound, and the notes of the run lead to its ledger. -/
theorem Sound.play {dead : List Link} {live : Load (Payload α)} {held : List (Load (Payload α))}
    (hs : s.Sound dead live held) (moves : List (Move α)) :
    ∃ dead' live' held', (s.play moves).Sound dead' live' held' ∧
      Ledger.Runs (s.ledger live held) (s.trace moves) ((s.play moves).ledger live' held') := by
  induction moves generalizing s dead live held with
  | nil => exact ⟨dead, live, held, hs, .nil _⟩
  | cons m moves ih =>
    obtain ⟨_, _, _, hmoved, hfirst⟩ := hs.move m
    obtain ⟨dead', live', held', hplayed, hrest⟩ := ih hmoved
    exact ⟨dead', live', held', hplayed, hfirst.trans hrest⟩

end Session

end RecyclingStack
