import RecyclingStack.Proofs.Session.Frozen

/-! The end of a stack, when all that refers to it is let go of. The order has an influence on what
becomes of the nodes that were popped, but none on what is dropped. -/
namespace RecyclingStack

inductive Hold where
  | handle (number : Nat)
  | reference (number : Nat)
  deriving DecidableEq

def Hold.drop {α : Type} : Hold → Op α
  | handle number => .dropHandle number
  | reference number => .dropReference number

/-- What may stand in a frame when nothing but handles and references was let go of. Anything else
is run by a value that is dropped, which means that the stack is gone. -/
def Frame.leaves {α : Type} (gone : Bool) : Frame α → Bool
  | .finish _ | .perform (.dropHandle _) | .perform (.dropReference _) => true
  | .perform _ | .hook _ | .destroy _ _ => gone
  | _ => false

theorem Frame.leaves_mono {α : Type} {f : Frame α} (hf : f.leaves false = true) (gone : Bool) :
    f.leaves gone = true := by
  cases gone with
  | false => exact hf
  | true =>
    cases f with
    | perform op => cases op <;> rfl
    | finish o => rfl
    | _ => cases hf

def Move.letsGo {α : Type} : Move α → Bool
  | .go _ | .call (.dropHandle _) | .call (.dropReference _) => true
  | _ => false

namespace Session

variable {α : Type} {s t : Session α} {f : Frame α} {dead : List Link} {live : Load (Payload α)}
  {held : List (Load (Payload α))} {x y : Hold} {order : List Hold}

def keeps (s : Session α) : Hold → Bool
  | .handle number => (s.seat? number).isSome
  | .reference number => s.refers number

theorem keeps_of_gone (hgone : s.isGone = true) (x : Hold) : s.keeps x = false := by
  cases x with
  | handle number => rw [keeps, seat?_of_gone hgone]; rfl
  | reference number => exact refers_of_gone hgone number

theorem gone_of_keeps (h : ∀ x, s.keeps x = false) : s.isGone = true := by
  rw [isGone, Bool.and_eq_true, List.all_eq_true, List.all_eq_true]
  constructor
  · intro b hb
    obtain ⟨r, hr⟩ := List.mem_iff_getElem?.1 hb
    have hnone := h (.reference r)
    rw [keeps, refers, hr] at hnone
    rw [show b = false from hnone]
    rfl
  · intro seat hseat
    obtain ⟨k, hk⟩ := List.mem_iff_getElem?.1 hseat
    have hnone := h (.handle k)
    rw [keeps, seat?, hk] at hnone
    exact Option.isNone_iff_eq_none.2 (Option.not_isSome_iff_eq_none.1 (Bool.eq_false_iff.1 hnone))

/-- Every frame is part of letting go. -/
def Leaving (s : Session α) : Prop := ∀ f ∈ s.frames, f.leaves s.isGone = true

theorem perform_gone (hgone : s.isGone = true) (op : Op α) :
    ∃ reason, s.perform op = s.refuse reason := by
  have hreference : ∀ r (go : Session α), ∃ reason, s.withReference r go = s.refuse reason := by
    intro r go
    rw [withReference, refers_of_gone hgone]
    exact ⟨_, rfl⟩
  have hhandle : ∀ h (go : Context → Session α), ∃ reason,
      s.withHandle h go = s.refuse reason := by
    intro h go
    rw [withHandle, seat?_of_gone hgone]
    exact ⟨_, rfl⟩
  cases op <;> simp only [perform] <;>
    first | exact hreference _ _ | exact hhandle _ _ | exact ⟨_, rfl⟩

theorem Leaving.enter (hl : s.Leaving) (hf : f.leaves s.isGone = true) : (s.enter f).Leaving :=
  fun g hg => (List.mem_cons.1 hg).elim (fun heq => heq ▸ hf) (hl g)

theorem leaving_afterDrop (hl : ∀ f ∈ s.frames, f.leaves false = true) : s.afterDrop.Leaving := by
  have hconclude : (s.conclude .done).Leaving :=
    Leaving.enter (fun f hf => Frame.leaves_mono (hl f hf) _) rfl
  unfold afterDrop
  split
  · exact hconclude.enter ‹_›
  · exact hconclude

/-- Whatever is performed once the stack is gone is refused, and before that nothing is but a
drop. -/
theorem Leaving.perform {op : Op α} (hl : s.Leaving)
    (hop : (Frame.perform op).leaves s.isGone = true) : (s.perform op).Leaving := by
  cases hgone : s.isGone with
  | true =>
    obtain ⟨reason, hrefused⟩ := perform_gone hgone op
    rw [hrefused]
    exact hl.enter rfl
  | false =>
    rw [Leaving, hgone] at hl
    have hrefused : ∀ reason, (s.refuse reason).Leaving := fun reason =>
      Leaving.enter (fun f hf => Frame.leaves_mono (hl f hf) _) rfl
    rw [hgone] at hop
    cases op with
    | dropReference r =>
      simp only [Session.perform, withReference]
      split
      · exact leaving_afterDrop hl
      · exact hrefused _
    | dropHandle h =>
      simp only [Session.perform, withHandle]
      split
      · exact hrefused _
      · split
        · exact hrefused _
        · exact leaving_afterDrop hl
    | _ => cases hop

theorem deliver_leaving (hl : s.Leaving) (o : Outcome α) : (s.deliver o).frames = s.frames ∧
    (s.deliver o).isGone = s.isGone := by
  rcases s with ⟨store, references, handles, frames, events, answer⟩
  cases frames with
  | nil => exact ⟨rfl, rfl⟩
  | cons f frames =>
    have hf := hl f List.mem_cons_self
    cases f with
    | pushEach => cases hf
    | _ => exact ⟨rfl, rfl⟩

theorem Leaving.resume (hl : s.Leaving) (hf : f.leaves s.isGone = true) (granted : Bool) :
    (s.resume granted f).Leaving := by
  cases f with
  | perform op => exact hl.perform hf
  | finish o =>
    obtain ⟨hframes, hgone⟩ := deliver_leaving hl o
    rw [Leaving, Session.resume, hframes, hgone]
    exact hl
  | hook rest =>
    have hgone : s.isGone = true := hf
    cases rest with
    | nil => exact hl
    | cons op rest =>
      refine (hl.enter (f := .hook rest) hgone).enter ?_
      show (Frame.perform op).leaves s.isGone = true
      rw [hgone]
      cases op <;> rfl
  | destroy cursor dropped =>
    have hgone : s.isGone = true := hf
    simp only [Session.resume]
    split
    · split
      · exact hl
      · exact hl
    · exact (hl.enter (f := .destroy _ (dropped + 1)) hgone).enter (f := .hook _) hgone
  | _ => cases hf

/-- Only the end of the stack drops anything. -/
theorem notesOf_leaves (hf : f.leaves s.isGone = true) :
    s.notesOf f = [] ∨ s.isGone = true ∧ ∃ p, s.notesOf f = [.destroyed p] := by
  cases f with
  | perform op =>
    refine .inl ?_
    have hidle : s.isGone = true → ∀ h, s.idle? h = none := fun hgone h => by
      rw [idle?, seat?_of_gone hgone]
    cases op with
    | push h p =>
      rw [notesOf, openedBy, hidle hf]
      rfl
    | pushBatch h items =>
      rw [notesOf, openedBy, hidle hf]
      rfl
    | pop h =>
      rw [notesOf, poppable, hidle hf]
      rfl
    | _ => rfl
  | destroy cursor dropped =>
    rw [notesOf]
    split
    · exact .inl rfl
    · exact .inr ⟨hf, _, rfl⟩
  | finish o => exact .inl rfl
  | hook rest => exact .inl rfl
  | _ => cases hf

theorem Leaving.move (hl : s.Leaving) {m : Move α} (hm : m.letsGo = true) : (s.move m).Leaving := by
  cases m with
  | call op =>
    rw [Session.move]
    split
    · refine Leaving.enter (s := { s with events := [], answer := none }) hl ?_
      cases op <;> first | rfl | cases hm
    · exact hl
  | go granted =>
    rw [Session.move, stepWith]
    split
    · exact hl
    · rename_i f below frames
      have hall : ∀ g ∈ f :: below, g.leaves s.isGone = true := frames ▸ hl
      exact Leaving.resume (s := { s with frames := below })
        (fun g hg => hall g (List.mem_cons_of_mem f hg)) (hall f List.mem_cons_self) granted

theorem Leaving.notes (hl : s.Leaving) (m : Move α) :
    s.moveNotes m = [] ∨ s.isGone = true ∧ ∃ p, s.moveNotes m = [.destroyed p] := by
  cases m with
  | call op => exact .inl rfl
  | go granted =>
    rw [moveNotes, Session.notes]
    split
    · exact .inl rfl
    · rename_i f below frames
      exact notesOf_leaves (s := { s with frames := below })
        (hl f (frames ▸ List.mem_cons_self))

theorem Leaving.trace (hl : s.Leaving) {moves : List (Move α)}
    (hmoves : ∀ m ∈ moves, m.letsGo = true) : (∀ note ∈ s.trace moves, ∃ p, note = .destroyed p) ∧
      ((s.play moves).isGone = false → s.trace moves = []) := by
  induction moves generalizing s with
  | nil => exact ⟨fun _ h => (List.not_mem_nil h).elim, fun _ => rfl⟩
  | cons m moves ih =>
    obtain ⟨hm, hmoves⟩ := List.forall_mem_cons.1 hmoves
    obtain ⟨hdestroyed, hnone⟩ := ih (hl.move hm) hmoves
    rcases hl.notes m with hfirst | ⟨hgone, p, hfirst⟩
    · rw [Session.trace, hfirst]
      exact ⟨hdestroyed, hnone⟩
    · rw [Session.trace, hfirst]
      refine ⟨List.forall_mem_cons.2 ⟨⟨p, rfl⟩, hdestroyed⟩, fun halive => ?_⟩
      exact Bool.noConfusion ((gone_play hgone (m :: moves)).symm.trans halive)

/-- What is dropped in such a run comes off the stack. -/
theorem Sound.shed_trace (hs : s.Sound dead live held) (hl : s.Leaving) {moves : List (Move α)}
    (hmoves : ∀ m ∈ moves, m.letsGo = true) :
    (s.trace moves).flatMap Note.shed ++ (s.play moves).store.values = s.store.values := by
  obtain ⟨_, _, _, hplayed, hruns⟩ := hs.play moves
  have hdestroyed := (hl.trace hmoves).1
  have hshed : (s.trace moves).flatMap Note.shed = (s.trace moves).flatMap Note.ended :=
    List.flatMap_congr fun note hnote => by
      obtain ⟨p, rfl⟩ := hdestroyed note hnote
      rfl
  rw [hshed, hplayed.values_eq, hs.values_eq]
  exact hruns.ended_append fun note hnote => .inr (hdestroyed note hnote)

theorem stepUpTo_eq_play (n : Nat) (s : Session α) :
    s.stepUpTo n = s.play (List.replicate n (.go true)) := by
  induction n generalizing s with
  | zero => rfl
  | succ n ih =>
    have hplay : s.play (List.replicate (n + 1) (.go true)) =
        s.step.play (List.replicate n (.go true)) := rfl
    rw [hplay, ← ih, stepUpTo]
    split
    · rename_i hidle
      have hidle := List.isEmpty_iff.1 hidle
      rw [step, stepWith, hidle, stepUpTo_nil _ hidle]
    · rfl

def course (s : Session α) (op : Op α) : List (Move α) :=
  .call op :: List.replicate (s.begin op).weight (.go true)

theorem exec_eq_play (h : s.frames = []) (op : Op α) : s.exec op = s.play (s.course op) := by
  have hbegin : s.move (.call op) = s.begin op := by
    rw [Session.move, h]
    rfl
  rw [course, play, List.foldl_cons, hbegin]
  exact stepUpTo_eq_play _ _

theorem letsGo_course (s : Session α) (x : Hold) : ∀ m ∈ s.course x.drop, m.letsGo = true := by
  intro m hm
  rcases List.mem_cons.1 hm with rfl | hm
  · cases x <;> rfl
  · rw [(List.mem_replicate.1 hm).2]
    rfl

/-- What was dropped along the steps, in their order. -/
theorem Leaving.shed_play (hl : s.Leaving) (n : Nat) :
    (s.play (List.replicate n (.go true))).shed.reverse = s.shed.reverse ++
      ((s.trace (List.replicate n (.go true))).flatMap Note.shed).map Payload.value := by
  induction n generalizing s with
  | zero => exact (List.append_nil _).symm
  | succ n ih =>
    have hstep := s.shed_stepWith true
    have hfirst : (s.step).shed.reverse =
        s.shed.reverse ++ ((s.moveNotes (.go true)).flatMap Note.shed).map Payload.value := by
      refine (congrArg List.reverse hstep).trans ?_
      rw [List.reverse_append]
      refine congrArg (s.shed.reverse ++ ·) ?_
      rcases hl.notes (.go true) with hnotes | ⟨-, p, hnotes⟩ <;>
        rw [show s.notes = _ from hnotes, hnotes] <;> rfl
    have hrest := ih (hl.move (m := .go true) rfl)
    rw [List.replicate_succ, Session.trace, List.flatMap_append, List.map_append,
      ← List.append_assoc]
    exact hrest.trans (congrArg (· ++ _) hfirst)

theorem shed_exec (h : s.frames = []) (x : Hold) : (s.exec x.drop).shed.reverse =
    ((s.trace (s.course x.drop)).flatMap Note.shed).map Payload.value := by
  have hbegin : s.move (.call x.drop) = s.begin x.drop := by
    rw [Session.move, h]
    rfl
  have hl : (s.begin x.drop).Leaving := hbegin ▸
    Leaving.move (fun f hf => by rw [h] at hf; cases hf) (by cases x <;> rfl)
  rw [exec, run, stepUpTo_eq_play, hl.shed_play, course, Session.trace, hbegin]
  rfl

theorem keeps_run_afterDrop (h : s.frames = []) (y : Hold) :
    s.afterDrop.run.keeps y = s.keeps y := by
  unfold afterDrop
  split
  · rename_i hgone
    have hend : ((s.conclude .done).enter (.destroy s.store.head 0)).run.isGone = true :=
      run_induction (motive := fun s => s.isGone = true) (fun _ h => gone_stepWith h true) hgone
    rw [keeps_of_gone hend, keeps_of_gone hgone]
  · rw [run_conclude h]
    cases y <;> rfl

theorem keeps_setReference (s : Session α) (r : Nat) (y : Hold) :
    ({ s with references := s.references.set r false } : Session α).keeps y = true ↔
      s.keeps y = true ∧ y ≠ .reference r := by
  cases y with
  | handle k => simp [keeps, seat?]
  | reference k =>
    simp only [keeps, refers, List.getElem?_set, ne_eq, Hold.reference.injEq]
    by_cases hk : r = k
    · by_cases hlt : k < s.references.length <;> simp [hk, hlt]
    · simp [hk, Ne.symm hk]

theorem keeps_setSeat {h : Nat} (hlt : h < s.handles.length) (y : Hold) :
    (s.setSeat h none).keeps y = true ↔ s.keeps y = true ∧ y ≠ .handle h := by
  cases y with
  | reference r => simp [keeps, refers, setSeat]
  | handle k =>
    simp only [keeps, seat?_setSeat hlt, ne_eq, Hold.handle.injEq]
    by_cases hk : h = k
    · simp [hk]
    · simp [hk, Ne.symm hk]

/-- A drop that is refused leaves everything there. -/
theorem keeps_run_refuse (h : s.frames = []) (reason : Refusal) (hx : s.keeps x = false)
    (y : Hold) : (s.refuse reason).run.keeps y = true ↔ s.keeps y = true ∧ y ≠ x := by
  have hsame : (s.refuse reason).run.keeps y = s.keeps y := by
    rw [refuse, run_conclude h]
    cases y <;> rfl
  rw [hsame]
  refine ⟨fun hy => ⟨hy, fun heq => ?_⟩, And.left⟩
  rw [heq, hx] at hy
  cases hy

/-- A drop takes away what is dropped, if it is still there, and nothing else. -/
theorem Sound.keeps_exec (hs : s.Sound dead live held) (h : s.frames = []) (x y : Hold) :
    (s.exec x.drop).keeps y = true ↔ s.keeps y = true ∧ y ≠ x := by
  rw [exec_perform h]
  have hfresh : ({ s with events := [], answer := none } : Session α).keeps y = s.keeps y := by
    cases y <;> rfl
  rw [← hfresh]
  cases x with
  | reference r =>
    simp only [Hold.drop, perform, withReference]
    split
    · rw [keeps_run_afterDrop]
      · exact keeps_setReference { s with events := [], answer := none } r y
      · exact h
    · rename_i hnone
      exact keeps_run_refuse (s := { s with events := [], answer := none }) (x := .reference r) h _
        (Bool.eq_false_iff.2 hnone) y
  | handle k =>
    simp only [Hold.drop, perform, withHandle]
    cases hseat : ({ s with events := [], answer := none } : Session α).seat? k with
    | none =>
      exact keeps_run_refuse (s := { s with events := [], answer := none }) (x := .handle k) h _
        (congrArg Option.isSome hseat) y
    | some seat =>
      rcases seat with ⟨c, _ | _⟩
      · simp only [Bool.false_eq_true, if_false]
        rw [keeps_run_afterDrop]
        · exact keeps_setSeat
            (s := { s with
              store := (Turn.mk s.store c).abandon.state, events := [], answer := none })
            (lt_of_seat (s := s) hseat) y
        · exact h
      · have hmem : k ∈ s.holders := (hs.busy k).2 ⟨c, hseat⟩
        rw [holders, h] at hmem
        cases hmem

/-- The values dropped while one after the other is let go of, in their order. -/
def droppedBy (s : Session α) : List Hold → List α
  | [] => []
  | x :: order => (s.exec x.drop).shed.reverse ++ (s.exec x.drop).droppedBy order

def afterAll (s : Session α) (order : List Hold) : Session α :=
  order.foldl (fun s x => s.exec x.drop) s

theorem Sound.exec_drop (hs : s.Sound dead live held) (h : s.frames = []) (x : Hold) :
    (∃ dead live held, (s.exec x.drop).Sound dead live held) ∧
      (s.exec x.drop).shed.reverse ++ (s.exec x.drop).store.values.map Payload.value =
          s.store.values.map Payload.value ∧
        ((s.exec x.drop).isGone = false → (s.exec x.drop).shed = []) := by
  have hl : s.Leaving := fun f hf => by rw [h] at hf; cases hf
  have hcourse := s.letsGo_course x
  obtain ⟨dead', live', held', hplayed, -⟩ := hs.play (s.course x.drop)
  have htrace := hs.shed_trace hl hcourse
  rw [← exec_eq_play h] at hplayed htrace
  refine ⟨⟨dead', live', held', hplayed⟩, ?_, fun halive => ?_⟩
  · rw [shed_exec h, ← List.map_append, htrace]
  · rw [exec_eq_play h] at halive
    have hnone := shed_exec h x
    rw [(hl.trace hcourse).2 halive] at hnone
    exact List.reverse_eq_nil_iff.1 hnone

theorem Sound.afterAll (hs : s.Sound dead live held) (h : s.frames = []) (order : List Hold) :
    (s.afterAll order).frames = [] ∧
      (∃ dead live held, (s.afterAll order).Sound dead live held) ∧
      (∀ y, (s.afterAll order).keeps y = true ↔ s.keeps y = true ∧ y ∉ order) ∧
      s.droppedBy order ++ (s.afterAll order).store.values.map Payload.value =
        s.store.values.map Payload.value ∧
      ((s.afterAll order).isGone = false → s.droppedBy order = []) := by
  induction order generalizing s dead live held with
  | nil => exact ⟨h, ⟨dead, live, held, hs⟩, fun y => by simp [Session.afterAll], rfl, fun _ => rfl⟩
  | cons x order ih =>
    obtain ⟨⟨_, _, _, hnext⟩, hvalues, hquiet⟩ := hs.exec_drop h x
    obtain ⟨hframes, hsound, hkeeps, hrest, hlater⟩ := ih hnext (frames_run _)
    refine ⟨hframes, hsound, fun y => ?_, ?_, fun halive => ?_⟩
    · rw [List.mem_cons, not_or, ← and_assoc, ← hs.keeps_exec h]
      exact hkeeps y
    · rw [droppedBy, List.append_assoc, ← hvalues]
      exact congrArg _ hrest
    · have hbetween : (s.exec x.drop).isGone = false := by
        cases hgone : (s.exec x.drop).isGone with
        | false => rfl
        | true =>
          refine (gone_of_keeps fun y => Bool.eq_false_iff.2 fun hy => ?_).symm.trans halive
          have hkept := ((hkeeps y).1 hy).1
          rw [keeps_of_gone hgone] at hkept
          cases hkept
      rw [droppedBy, hquiet hbetween, hlater halive]
      rfl

/-- Letting go of the handles in turn, then of the references. -/
def inOrder (s : Session α) : List Hold :=
  (List.range s.handles.length).map Hold.handle ++
    (List.range s.references.length).map Hold.reference

theorem mem_inOrder (hx : s.keeps x = true) : x ∈ s.inOrder := by
  rw [inOrder, List.mem_append, List.mem_map, List.mem_map]
  cases x with
  | handle h =>
    obtain ⟨seat, hseat⟩ := Option.isSome_iff_exists.1 hx
    exact .inl ⟨h, List.mem_range.2 (lt_of_seat hseat), rfl⟩
  | reference r =>
    refine .inr ⟨r, List.mem_range.2 (Nat.lt_of_not_le fun hle => ?_), rfl⟩
    rw [keeps, refers, List.getElem?_eq_none hle] at hx
    cases hx

theorem flatMap_shed_reverse (events : List (Event α)) :
    events.reverse.flatMap Event.shed = (events.flatMap Event.shed).reverse := by
  rw [List.reverse_flatMap]
  refine List.flatMap_congr fun e _ => ?_
  cases e <;> rfl

/-- The events of drops one after the other, collected on the way. -/
theorem shed_collect {collect : Session α × List (Event α) → Op α → Session α × List (Event α)}
    (hcollect : ∀ s events op,
      collect (s, events) op = (s.exec op, events ++ (s.exec op).events.reverse))
    (order : List Hold) (s : Session α) (events : List (Event α)) :
    ((order.map Hold.drop).foldl collect (s, events)).2.flatMap Event.shed =
      events.flatMap Event.shed ++ s.droppedBy order := by
  induction order generalizing s events with
  | nil => exact (List.append_nil _).symm
  | cons x order ih =>
    rw [List.map_cons, List.foldl_cons, hcollect, ih, List.flatMap_append, List.append_assoc,
      flatMap_shed_reverse]
    rfl

theorem shed_teardown (s : Session α) :
    s.teardown.flatMap Event.shed = s.droppedBy s.inOrder := by
  have hops : s.lettingGo = s.inOrder.map Hold.drop := by
    rw [lettingGo, inOrder, List.map_append, List.map_map, List.map_map]
    rfl
  rw [teardown, hops]
  exact shed_collect (fun _ _ _ => rfl) s.inOrder s []

/-- What is dropped when all that refers to the stack is let go of. -/
structure TearsDown (s : Session α) : Prop where
  /-- As long as nothing but drops is called, what is dropped is the upper part of the stack, and
  nothing is dropped while something still refers to it. -/
  steps : ∀ moves, (∀ m ∈ moves, m.letsGo = true) →
    (s.trace moves).flatMap Note.shed ++ (s.play moves).store.values = s.store.values ∧
      ((s.play moves).isGone = false → (s.trace moves).flatMap Note.shed = [])
  /-- An order that leaves something out drops nothing. -/
  waits : ∀ order x, s.keeps x = true → x ∉ order → s.droppedBy order = []
  /-- Any other one drops what is on the stack, top first. -/
  ends : ∀ order, (∀ x, s.keeps x = true → x ∈ order) → (s.afterAll order).isGone = true ∧
    s.droppedBy order = s.store.values.map Payload.value
  /-- So it does not matter in which of two orders all is let go of. -/
  agrees : ∀ order other, (∀ x, s.keeps x = true → x ∈ order) →
    (∀ x, s.keeps x = true → x ∈ other) → s.droppedBy order = s.droppedBy other
  /-- The handles first and then the references is one such order. -/
  teardown : s.teardown.flatMap Event.shed = s.store.values.map Payload.value

/-- In every state of every run with nothing under way, whatever is deferred or orphaned and
whatever the values on the stack do when they are dropped. -/
theorem tearsDown_play (p : Plan) (moves : List (Move α))
    (hidle : ((ofPlan p).play moves).frames = []) : ((ofPlan p).play moves).TearsDown := by
  obtain ⟨_, _, _, hs, -⟩ := (sound_ofPlan (α := α) p).play moves
  have hends : ∀ order, (∀ x, ((ofPlan p).play moves).keeps x = true → x ∈ order) →
      (((ofPlan p).play moves).afterAll order).isGone = true ∧
        ((ofPlan p).play moves).droppedBy order =
          ((ofPlan p).play moves).store.values.map Payload.value := by
    intro order hall
    obtain ⟨hframes, ⟨_, _, _, hend⟩, hkeeps, hvalues, -⟩ := hs.afterAll hidle order
    have hgone := gone_of_keeps fun y => Bool.eq_false_iff.2 fun hy =>
      ((hkeeps y).1 hy).2 (hall y ((hkeeps y).1 hy).1)
    rw [(hend.ledger_idle hframes).2 hgone, List.map_nil, List.append_nil] at hvalues
    exact ⟨hgone, hvalues⟩
  refine ⟨fun after hafter => ?_, fun order x hx hnot => ?_, hends, fun order other hall hother =>
    (hends order hall).2.trans (hends other hother).2.symm,
    (shed_teardown _).trans (hends _ fun x => mem_inOrder).2⟩
  · have hl : ((ofPlan p).play moves).Leaving := fun f hf => by rw [hidle] at hf; cases hf
    refine ⟨hs.shed_trace hl hafter, fun halive => ?_⟩
    rw [(hl.trace hafter).2 halive]
    rfl
  · obtain ⟨-, -, hkeeps, -, hquiet⟩ := hs.afterAll hidle order
    refine hquiet (Bool.eq_false_iff.2 fun hgone => ?_)
    have hkept := (hkeeps x).2 ⟨hx, hnot⟩
    rw [keeps_of_gone hgone] at hkept
    cases hkept

/-- One handle has popped a node, and another one has left one behind. One of the values on the
stack runs a pop and a clone when it is dropped. -/
def unwinding : List (Move Nat) :=
  Move.inTurn 6 [.register 0, .register 0, .register 0, .push 0 (.plain 1),
    .push 0 (.mk 2 [.pop 0, .cloneReference 0]), .push 1 (.plain 3), .push 1 (.plain 4), .pop 1,
    .pop 2, .dropHandle 2]

theorem tearsDown_unwinding : ((ofPlan .default).play unwinding).TearsDown ∧
    ((ofPlan .default).play unwinding).droppedBy [.handle 1, .reference 0, .handle 0] = [2, 1] ∧
    ((ofPlan .default).play unwinding).droppedBy [.handle 0, .handle 1, .reference 0] = [2, 1] := by
  have hidle : ((ofPlan .default).play unwinding).frames = [] :=
    List.isEmpty_iff.1 (by decide +kernel)
  exact ⟨tearsDown_play .default unwinding hidle, by decide +kernel, by decide +kernel⟩

end Session

end RecyclingStack
