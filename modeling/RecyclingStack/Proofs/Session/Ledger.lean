import RecyclingStack.Proofs.Session.Holding

/-! Where every payload is. A ledger has one entry for each push or batch under way, with the
payloads given to it that it still holds, in the order given, and one for the stack; the notes
taken of a step say what moves. -/
namespace RecyclingStack

/-- What a step does to payloads. -/
inductive Note (β : Type) where
  /-- A call begins, with the payloads given to it. -/
  | opened (given : List β)
  /-- The call puts all it was given on the stack, and is over. -/
  | published
  /-- The call drops a payload. -/
  | dropped (payload : β)
  /-- The call is over, and holds nothing any more. -/
  | closed
  /-- A pop takes a payload. -/
  | popped (payload : β)
  /-- The end of the stack drops a payload. -/
  | destroyed (payload : β)

def Note.isAside {β : Type} : Note β → Bool
  | .opened _ | .dropped _ | .closed => true
  | _ => false

/-- The payloads that the calls under way still hold, latest call first, and those on the stack,
top first. -/
structure Ledger (β : Type) where
  calls : List (List β)
  stack : List β

namespace Ledger

variable {β : Type}

/-- How the ledger follows a note. A payload that a call drops is one of its own. -/
inductive Step : Ledger β → Note β → Ledger β → Prop where
  | opened (given : List β) (calls : List (List β)) (stack : List β) :
      Step ⟨calls, stack⟩ (.opened given) ⟨given :: calls, stack⟩
  | published (given : List β) (calls : List (List β)) (stack : List β) :
      Step ⟨given :: calls, stack⟩ .published ⟨calls, given.reverse ++ stack⟩
  | dropped (before after : List β) (p : β) (calls : List (List β)) (stack : List β) :
      Step ⟨(before ++ p :: after) :: calls, stack⟩ (.dropped p) ⟨(before ++ after) :: calls, stack⟩
  | closed (calls : List (List β)) (stack : List β) :
      Step ⟨[] :: calls, stack⟩ .closed ⟨calls, stack⟩
  | popped (p : β) (calls : List (List β)) (stack : List β) :
      Step ⟨calls, p :: stack⟩ (.popped p) ⟨calls, stack⟩
  | destroyed (p : β) (stack : List β) :
      Step ⟨[], p :: stack⟩ (.destroyed p) ⟨[], stack⟩

inductive Runs : Ledger β → List (Note β) → Ledger β → Prop where
  | nil (l : Ledger β) : Runs l [] l
  | cons {l m k : Ledger β} {note : Note β} {notes : List (Note β)} (step : Step l note m)
      (rest : Runs m notes k) : Runs l (note :: notes) k

theorem Runs.single {l m : Ledger β} {note : Note β} (h : Step l note m) : Runs l [note] m :=
  .cons h (.nil m)

theorem Runs.trans {l m k : Ledger β} {notes more : List (Note β)} (h : Runs l notes m)
    (hmore : Runs m more k) : Runs l (notes ++ more) k := by
  induction h with
  | nil => exact hmore
  | cons step _ ih => exact .cons step (ih hmore)

theorem Runs.stack_eq {l m : Ledger β} {notes : List (Note β)} (h : Runs l notes m)
    (hnotes : ∀ note ∈ notes, note.isAside = true) : m.stack = l.stack := by
  induction h with
  | nil => rfl
  | cons step rest ih =>
    refine (ih fun note hn => hnotes note (List.mem_cons_of_mem _ hn)).trans ?_
    have haside := hnotes _ List.mem_cons_self
    cases step <;> first | rfl | cases haside

theorem Runs.eq_of_nil {l m : Ledger β} (h : Runs l [] m) : m = l := by
  cases h
  rfl

theorem Step.eq_of_opened {l m : Ledger β} {given : List β} (h : Step l (.opened given) m) :
    m = ⟨given :: l.calls, l.stack⟩ := by
  cases h
  rfl

theorem Step.calls_of_dropped {l m : Ledger β} {p : β} (h : Step l (.dropped p) m) :
    ∃ before after rest, l.calls = (before ++ p :: after) :: rest ∧
      m.calls = (before ++ after) :: rest := by
  cases h
  exact ⟨_, _, _, rfl, rfl⟩

theorem Step.calls_of_closed {l m : Ledger β} (h : Step l .closed m) :
    l.calls = [] :: m.calls := by
  cases h
  rfl

theorem Runs.step_of_single {l m : Ledger β} {note : Note β} (h : Runs l [note] m) :
    Step l note m := by
  cases h with
  | cons step rest => exact rest.eq_of_nil ▸ step

end Ledger

namespace Frame

variable {α : Type}

/-- The payloads that a push or a batch still holds, in the order given. -/
def content : Frame α → Load (Payload α) → Option (List (Payload α))
  | .batch _ _ _ rest, u => some (u.values.reverse ++ Item.payloads rest)
  | .rollBack _ unused _ _ _, u => some (u.values.reverse ++ unused)
  | .release _ _ _ _ _, u => some u.values.reverse
  | _, _ => none

theorem content_light {f : Frame α} (h : f.isLight = true) (u : Load (Payload α)) :
    f.content u = none := by
  cases f <;> first | rfl | cases h

theorem content_of_no_holder {f : Frame α} (h : f.holder = none) (u : Load (Payload α)) :
    f.content u = none := by
  cases f <;> first | rfl | cases h

end Frame

namespace Session

variable {α : Type}

def calls (frames : List (Frame α)) (held : List (Load (Payload α))) : List (List (Payload α)) :=
  (List.zipWith Frame.content frames held).filterMap id

def ledger (s : Session α) (live : Load (Payload α)) (held : List (Load (Payload α))) :
    Ledger (Payload α) :=
  ⟨calls s.frames held, live.values⟩

theorem calls_cons (f : Frame α) (frames : List (Frame α)) (u : Load (Payload α))
    (held : List (Load (Payload α))) :
    calls (f :: frames) (u :: held) = (f.content u).toList ++ calls frames held := by
  rw [calls, List.zipWith_cons_cons]
  cases h : f.content u with
  | none => exact List.filterMap_cons_none rfl
  | some given => exact List.filterMap_cons_some rfl

theorem calls_append_light {top frames : List (Frame α)} {above held : List (Load (Payload α))}
    (h : ∀ f ∈ top, f.isLight = true) (hlength : above.length = top.length) :
    calls (top ++ frames) (above ++ held) = calls frames held := by
  induction top generalizing above with
  | nil =>
    obtain rfl := List.length_eq_zero_iff.1 hlength
    rfl
  | cons f top ih =>
    cases above with
    | nil => cases hlength
    | cons u above =>
      rw [List.cons_append, List.cons_append, calls_cons,
        Frame.content_light (h f List.mem_cons_self)]
      exact ih (fun g hg => h g (List.mem_cons_of_mem f hg)) (Nat.succ.inj hlength)

theorem calls_of_no_holder {frames : List (Frame α)} (h : frames.filterMap Frame.holder = [])
    (held : List (Load (Payload α))) : calls frames held = [] := by
  induction frames generalizing held with
  | nil => rfl
  | cons f frames ih =>
    cases held with
    | nil => rfl
    | cons u held =>
      rw [List.filterMap_cons] at h
      cases hf : f.holder with
      | some k => rw [hf] at h; cases h
      | none =>
        rw [hf] at h
        rw [calls_cons, Frame.content_of_no_holder hf]
        exact ih h held

/-- The payload that a pop on this handle gets now. -/
def poppable (s : Session α) (handle : Nat) : Option (Payload α) :=
  (s.idle? handle).bind fun context => (Turn.mk s.store context).pop.answer

def openedBy (s : Session α) (handle : Nat) (given : List (Payload α)) : List (Note (Payload α)) :=
  if (s.idle? handle).isSome then [.opened given] else []

/-- The notes taken of a frame that goes on. -/
def notesOf (s : Session α) : Frame α → List (Note (Payload α))
  | .perform (.push handle payload) => s.openedBy handle [payload]
  | .perform (.pushBatch handle items) => s.openedBy handle (Item.payloads items)
  | .perform (.pop handle) => (s.poppable handle).toList.map .popped
  | .popUpTo handle limit _ =>
    if limit = some 0 then [] else (s.poppable handle).toList.map .popped
  | .batch _ first _ [] =>
    if first.isNil then [.closed] else if s.store.shutdown then [] else [.published]
  | .rollBack _ (payload :: _) _ _ _ => [.dropped payload]
  | .rollBack _ [] cursor _ _ =>
    match s.store.takeValue cursor with
    | none => [.closed]
    | some (payload, _) => [.dropped payload]
  | .release _ node _ last _ => if node = last then [.closed] else []
  | .destroy cursor _ =>
    match s.store.takeValue cursor with
    | none => []
    | some (payload, _) => [.destroyed payload]
  | _ => []

def notes (s : Session α) : List (Note (Payload α)) :=
  match s.frames with
  | [] => []
  | frame :: frames => ({ s with frames } : Session α).notesOf frame

end Session

end RecyclingStack
