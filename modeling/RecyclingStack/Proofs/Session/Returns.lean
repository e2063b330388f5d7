import RecyclingStack.Proofs.Memory.Building
import RecyclingStack.Proofs.Session.Lifo
import RecyclingStack.Proofs.Session.Termination

/-! Calls that return. Where memory for a segment is to be had or not once and for all, a call can
return in one way only, and a push or a batch does return. -/
namespace RecyclingStack

namespace Session

variable {α : Type} {s t u : Session α} {below : List (Frame α)} {grants : Nat → Bool}
  {o o' : Outcome α}

/-- The next small thing, where memory for a segment is there if `grants` says so. -/
def stepUnder (grants : Nat → Bool) (s : Session α) : Session α :=
  s.stepWith (s.store.grant grants)

/-- From the first state to the second by such steps, with something under way above these frames
all the time. -/
inductive Through (grants : Nat → Bool) (below : List (Frame α)) :
    Session α → Session α → Prop where
  | here {s : Session α} (above : s.Over below) : Through grants below s s
  | onward {s t : Session α} (above : s.Over below)
      (through : Through grants below (s.stepUnder grants) t) : Through grants below s t

/-- What is under way above these frames in the first state comes to its end, with this outcome, and
leaves the second state. -/
structure Returns (grants : Nat → Bool) (below : List (Frame α)) (s : Session α) (o : Outcome α)
    (t : Session α) : Prop where
  through : Through grants below s (t.conclude o)
  frames : t.frames = below

theorem Within.cons (granted : Bool) (above : s.Over below)
    (hw : Within below (s.stepWith granted) t) : Within below s t := by
  induction hw with
  | start hover => exact .step granted (.start above) hover
  | step granted' _ hover ih => exact ih.step granted' hover

/-- The steps of a call are moves of a run. -/
theorem Within.exists_play (hw : Within below s t) : ∃ moves, t = s.play moves := by
  induction hw with
  | start => exact ⟨[], rfl⟩
  | step granted _ _ ih =>
    obtain ⟨moves, rfl⟩ := ih
    refine ⟨moves ++ [.go granted], ?_⟩
    rw [play_append]
    rfl

theorem Within.sound {dead : List Link} {live : Load (Payload α)}
    {held : List (Load (Payload α))} (hw : Within below s t) (hs : s.Sound dead live held) :
    ∃ dead' live' held', t.Sound dead' live' held' := by
  obtain ⟨moves, rfl⟩ := hw.exists_play
  obtain ⟨dead', live', held', ht, -⟩ := hs.play moves
  exact ⟨dead', live', held', ht⟩

namespace Through

theorem above_left (h : Through grants below s t) : s.Over below := by
  cases h <;> assumption

theorem within (h : Through grants below s t) : Within below s t := by
  induction h with
  | here above => exact .start above
  | onward above _ ih => exact ih.cons _ above

theorem trans (h : Through grants below s t) (h' : Through grants below t u) :
    Through grants below s u := by
  induction h with
  | here => exact h'
  | onward above _ ih => exact .onward above (ih h')

/-- Where it is over, nothing follows. -/
theorem eq_of_finished (h : Through grants below s t) (hend : s.frames = .finish o :: below) :
    s = t := by
  cases h with
  | here => rfl
  | onward above h => exact absurd h.above_left (frames_finish _ hend)

/-- Whatever is met on the way leads to the end. -/
theorem meets (hu : Through grants below s u) (ht : Through grants below s t)
    (hend : t.frames = .finish o :: below) : Through grants below u t := by
  induction hu with
  | here => exact ht
  | onward above hu ih =>
    cases ht with
    | here => exact absurd hu.above_left (frames_finish _ hend)
    | onward _ ht => exact ih ht

end Through

theorem conclude_inj (h : s.conclude o = t.conclude o') : o = o' ∧ s = t := by
  rcases s with ⟨store, references, handles, frames, events, answer⟩
  rcases t with ⟨store', references', handles', frames', events', answer'⟩
  cases h
  exact ⟨rfl, rfl⟩

namespace Returns

theorem frames_conclude (h : Returns grants below s o t) :
    (t.conclude o).frames = .finish o :: below :=
  congrArg (Frame.finish o :: ·) h.frames

theorem within (h : Returns grants below s o t) : Within below s (t.conclude o) :=
  h.through.within

theorem after (hu : Through grants below s u) (h : Returns grants below s o t) :
    Returns grants below u o t :=
  ⟨hu.meets h.through h.frames_conclude, h.frames⟩

/-- A call returns in one way only. -/
theorem unique (h : Returns grants below s o t) (h' : Returns grants below s o' u) :
    o = o' ∧ t = u := by
  have hsame := (h.after h'.through).through.eq_of_finished h'.frames_conclude
  exact conclude_inj hsame.symm

/-- With nothing below and memory enough, this is what performing an operation to its end comes
to. -/
theorem exec {op : Op α}
    (h : Returns (fun _ => true) [] (s.begin op) o t) :
    s.exec op = { t with answer := some o } := by
  have hrun : ∀ {u v : Session α}, Through (fun _ => true) [] u v → u.run = v.run := by
    intro u v huv
    induction huv with
    | here => rfl
    | onward above _ ih =>
      obtain ⟨f, top, frames⟩ := above
      rw [run_step (frames ▸ List.cons_ne_nil f _)]
      exact ih
  have hlast : (t.conclude o).step = { t with answer := some o } := by
    have hempty := h.frames
    rcases t with ⟨store, references, handles, frames, events, answer⟩
    cases hempty
    rfl
  calc s.exec op = (t.conclude o).run := hrun h.through
    _ = (t.conclude o).step.run := run_step (h.frames_conclude ▸ List.cons_ne_nil _ _)
    _ = { t with answer := some o } := by
      rw [hlast]
      exact run_nil (s := { t with answer := some o }) h.frames

end Returns

/-- A push or a batch that is under way returns, since every step takes some weight away. -/
theorem Underway.returns {items : List (Item α)} {start : List (Payload α)} {dead : List Link}
    {live : Load (Payload α)} {held : List (Load (Payload α))} (grants : Nat → Bool)
    (hs : t.Sound dead live held) (hunder : Underway items below start t live held) :
    ∃ o u, Returns grants below t o u := by
  induction hn : t.weight using Nat.strong_induction_on generalizing t dead live held with
  | _ n ih =>
    by_cases hend : ∃ o, t.frames = .finish o :: below
    · obtain ⟨o, hend⟩ := hend
      have hfinished : ({ t with frames := below } : Session α).conclude o = t :=
        (enter_of_frames hend).symm
      exact ⟨o, { t with frames := below }, hfinished.symm ▸ .here hunder.over, rfl⟩
    · obtain ⟨_, _, _, hs', hunder'⟩ :=
        hunder.goes_on hs (t.store.grant grants) fun o ho => hend ⟨o, ho⟩
      have hne : t.frames ≠ [] := by
        obtain ⟨f, top, frames⟩ := hunder.over
        rw [frames]
        exact List.cons_ne_nil f _
      obtain ⟨o, u, hreturns⟩ := ih _ (hn ▸ weight_stepWith_lt _ hne) hs' hunder' rfl
      exact ⟨o, u, .onward hunder.over hreturns.through, hreturns.frames⟩

/-- A push or a batch that is about to be performed returns. -/
theorem Sound.returns {items : List (Item α)} {op : Op α} {dead : List Link}
    {live : Load (Payload α)} {held : List (Load (Payload α))} (grants : Nat → Bool)
    (hs : s.Sound dead live held) (frames : s.frames = .perform op :: below)
    (given : op.items = some items) : ∃ o t, Returns grants below s o t :=
  Underway.returns grants hs (.begun frames given rfl)

end Session

end RecyclingStack
