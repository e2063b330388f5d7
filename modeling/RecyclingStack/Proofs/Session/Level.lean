import RecyclingStack.Proofs.Session.Lockstep

/-! The payloads of two sessions that do the same things with different grace periods. They are the
same on both stacks and with everything under way, because the same notes are taken of every step;
only where a call drops a payload do the notes not say which one of several equal ones. -/
namespace RecyclingStack

namespace Ledger

variable {β : Type} {l m k : Ledger β} {notes : List (Note β)}

/-- A note says where the ledger goes, unless it tells of a payload that a call drops. -/
theorem Step.unique {note : Note β} (h : Step l note m) (h' : Step l note k)
    (hkept : ∀ p, note ≠ .dropped p) : m = k := by
  generalize hl : l = l' at h'
  cases h <;> cases h' <;> first
    | exact absurd rfl (hkept _)
    | (cases hl; rfl)

theorem Runs.unique (h : Runs l notes m) (h' : Runs l notes k)
    (hkept : ∀ p, .dropped p ∉ notes) : m = k := by
  induction h with
  | nil => exact h'.eq_of_nil.symm
  | cons step _ ih =>
    cases h' with
    | cons step' rest' =>
      obtain rfl := step.unique step' fun p hp => hkept p (hp ▸ List.mem_cons_self)
      exact ih rest' fun p hp => hkept p (List.mem_cons_of_mem _ hp)

end Ledger

namespace Session

variable {α : Type} {s t : Session α} {f g : Frame α} {h : Nat} {granted granted' : Bool}
  {dead dead' : List Link} {live live' u u' : Load (Payload α)}
  {held held' : List (Load (Payload α))}

theorem calls_eq {fs gs : List (Frame α)} (hfs : List.Forall₂ Frame.Alike fs gs)
    (hheld : held.map Load.values = held'.map Load.values) : calls fs held = calls gs held' := by
  induction hfs generalizing held held' with
  | nil => rfl
  | cons hf hfs ih =>
    cases held with
    | nil =>
      obtain rfl : held' = [] := List.map_eq_nil_iff.1 hheld.symm
      rfl
    | cons u held =>
      cases held' with
      | nil => cases hheld
      | cons u' held' =>
        obtain ⟨hu, hrest⟩ := List.cons.inj hheld
        rw [calls_cons, calls_cons, ih hrest]
        congr 2
        cases hf <;> simp only [Frame.content, hu]

/-- What the calls still hold tells what is in their private chains. -/
theorem loads_eq {fs gs : List (Frame α)} (hfs : List.Forall₂ Frame.Alike fs gs)
    (howned : List.Forall₂ Frame.Owns fs held) (howned' : List.Forall₂ Frame.Owns gs held')
    (hcalls : calls fs held = calls gs held') :
    held.map Load.values = held'.map Load.values := by
  induction hfs generalizing held held' with
  | nil =>
    cases howned
    cases howned'
    rfl
  | cons hf hfs ih =>
    cases howned with
    | cons hu howned =>
      cases howned' with
      | cons hu' howned' =>
        rw [calls_cons, calls_cons] at hcalls
        cases hf with
        | batch | rollBack | release =>
          obtain ⟨hhead, htail⟩ := List.cons.inj hcalls
          simp only [List.append_cancel_right_eq, List.reverse_inj] at hhead
          rw [List.map_cons, List.map_cons, hhead, ih howned howned' htail]
        | _ =>
          cases hu
          cases hu'
          rw [List.map_cons, List.map_cons, ih howned howned' hcalls]

/-- The same payloads are on both stacks and with each thing under way, in the same order. -/
def Level (s t : Session α) : Prop :=
  ∃ dead live held dead' live' held', s.Sound dead live held ∧ t.Sound dead' live' held' ∧
    live.values = live'.values ∧ held.map Load.values = held'.map Load.values

/-- They are, after a step of which the same notes are taken. -/
theorem Level.of_notes (hs : s.Sound dead live held) (ht : t.Sound dead' live' held')
    (hlive : live.values = live'.values) (hheld : held.map Load.values = held'.map Load.values)
    (hframes : List.Forall₂ Frame.Alike s.frames t.frames)
    (hstepped : List.Forall₂ Frame.Alike (s.stepWith granted).frames (t.stepWith granted').frames)
    (hnotes : s.notes = t.notes) (hkept : ∀ p, .dropped p ∉ s.notes) :
    (s.stepWith granted).Level (t.stepWith granted') := by
  obtain ⟨dead₁, live₁, held₁, hs₁, hruns, -⟩ := hs.step granted
  obtain ⟨dead₂, live₂, held₂, ht₂, hruns', -⟩ := ht.step granted'
  have hledger : s.ledger live held = t.ledger live' held' := by
    rw [ledger, ledger, hlive, calls_eq hframes hheld]
  rw [← hledger, ← hnotes] at hruns'
  have hsame := hruns.unique hruns' hkept
  refine ⟨dead₁, live₁, held₁, dead₂, live₂, held₂, hs₁, ht₂, congrArg Ledger.stack hsame, ?_⟩
  exact loads_eq hstepped hs₁.owned ht₂.owned (congrArg Ledger.calls hsame)

theorem Abreast.poppable_eq (ab : s.Abreast t) (hs : s.Sound dead live held)
    (ht : t.Sound dead' live' held') (hlive : live.values = live'.values) (htagged : s.Tagged)
    (htagged' : t.Tagged) (h : Nat) : s.poppable h = t.poppable h := by
  rw [poppable, poppable]
  rcases ab.idle_cases h with ⟨hidle, hidle'⟩ | ⟨c, d, hidle, hidle', hcontext⟩
  · rw [hidle, hidle']
    rfl
  · rw [hidle, hidle']
    exact (ab.pop hs ht hlive htagged htagged' hidle hidle' hcontext).2

theorem Abreast.openedBy_eq (ab : s.Abreast t) (h : Nat) (given : List (Payload α)) :
    s.openedBy h given = t.openedBy h given := by
  rw [openedBy, openedBy]
  rcases ab.idle_cases h with ⟨hidle, hidle'⟩ | ⟨c, d, hidle, hidle', -⟩
  · rw [hidle, hidle']
  · rw [hidle, hidle']
    rfl

theorem Abreast.notes_perform (ab : s.Abreast t) (hs : s.Sound dead live held)
    (ht : t.Sound dead' live' held') (hlive : live.values = live'.values) (htagged : s.Tagged)
    (htagged' : t.Tagged) (op : Op α) :
    s.notesOf (.perform op) = t.notesOf (.perform op) := by
  cases op with
  | push h p => exact ab.openedBy_eq h [p]
  | pushBatch h items => exact ab.openedBy_eq h _
  | pop h =>
    rw [notesOf, notesOf, ab.poppable_eq hs ht hlive htagged htagged' h]
  | _ => rfl

/-- Only a batch that is given up drops payloads that it holds. -/
theorem dropped_notesOf {p : Payload α} (hp : .dropped p ∈ s.notesOf f) :
    ∃ h unused cursor last o, f = .rollBack h unused cursor last o := by
  cases f with
  | rollBack h unused cursor last o => exact ⟨h, unused, cursor, last, o, rfl⟩
  | perform op => cases op <;> simp [notesOf, openedBy] at hp
  | batch h first last items =>
    cases items <;> simp only [notesOf] at hp <;> (repeat' split at hp) <;> simp at hp
  | _ =>
    simp only [notesOf] at hp
    (repeat' split at hp) <;> simp at hp

def lacks (granted : Bool) (s : Session α) : Bool :=
  match s.frames with
  | .batch _ _ _ (.payload p :: _) :: _ => !(s.store.allocate granted p).answer.isOk
  | _ => false

theorem exists_node {first last : Link} {p : Payload α} {rest : List (Item α)}
    {below : List (Frame α)} (hfed : s.lacks granted = false)
    (frames : s.frames = .batch h first last (.payload p :: rest) :: below) :
    ∃ l, (s.store.allocate granted p).answer = .ok l := by
  rw [lacks, frames] at hfed
  cases hanswer : (s.store.allocate granted p).answer with
  | ok l => exact ⟨l, rfl⟩
  | error failure =>
    simp only [hanswer] at hfed
    cases hfed

theorem lacks_eq_false (hok : ∀ {h first last p rest below},
    s.frames = .batch h first last (.payload p :: rest) :: below →
    ∃ l, (s.store.allocate granted p).answer = .ok l) : s.lacks granted = false := by
  rw [lacks]
  split
  · rename_i frames
    obtain ⟨l, hanswer⟩ := hok frames
    rw [hanswer]
    rfl
  · rfl

/-- A batch that is given up drops a payload that never got a node. -/
theorem Sound.dropUnused {unused : List (Payload α)} {cursor last : Link} {o : Outcome α}
    {p : Payload α}
    (hs : (s.enter (.rollBack h (p :: unused) cursor last o)).Sound dead live (u :: held)) :
    (s.resume granted (.rollBack h (p :: unused) cursor last o)).Sound [] live
      ([] :: u :: held) := by
  obtain ⟨c, -, rfl, -⟩ := hs.holding rfl rfl
  have hnext : (s.enter (.rollBack h unused cursor last o)).Sound [] live (u :: held) :=
    hs.replace rfl rfl rfl rfl (List.forall₂_cons.1 hs.owned).1 hs.tidy
  exact (hnext.enter (f := .hook p.onDrop) rfl rfl).of_eq rfl rfl rfl rfl

/-- Then it drops the values of its private chain, the first one first. -/
theorem Sound.dropFirst {cursor last : Link} {o : Outcome α} {n : Link × Payload α}
    (hs : (s.enter (.rollBack h [] cursor last o)).Sound dead live ((n :: u) :: held)) :
    (s.resume granted (.rollBack h [] cursor last o)).Sound dead live ([] :: u :: held) := by
  obtain ⟨rfl, htake, hspilled⟩ := hs.spill
  simp only [resume, htake]
  exact (hspilled.enter (f := .hook n.2.onDrop) rfl rfl).of_eq rfl rfl rfl rfl

/-- What a frame that goes on does it does in both sessions, and takes the same notes of it; or it
drops the same payload. -/
theorem Abreast.resume (ab : s.Abreast t) (hf : f.Alike g)
    (hs : (s.enter f).Sound dead live (u :: held))
    (ht : (t.enter g).Sound dead' live' (u' :: held')) (hlive : live.values = live'.values)
    (hu : u.values = u'.values) (hheld : held.map Load.values = held'.map Load.values)
    (htagged : s.Tagged) (htagged' : t.Tagged)
    (hfed : (s.enter f).lacks granted = false) (hfed' : (t.enter g).lacks granted' = false) :
    (s.resume granted f).Abreast (t.resume granted' g) ∧
      (s.notesOf f = t.notesOf g ∧ (∀ p, .dropped p ∉ s.notesOf f) ∨
        (s.resume granted f).Level (t.resume granted' g)) := by
  have hnotes : (∀ h unused cursor last o, f ≠ .rollBack h unused cursor last o) →
      s.notesOf f = t.notesOf g →
      s.notesOf f = t.notesOf g ∧ (∀ p, .dropped p ∉ s.notesOf f) ∨
        (s.resume granted f).Level (t.resume granted' g) := by
    refine fun hf hsame => .inl ⟨hsame, fun p hp => ?_⟩
    obtain ⟨h, unused, cursor, last, o, rfl⟩ := dropped_notesOf hp
    exact hf _ _ _ _ _ rfl
  cases hf with
  | perform op =>
    obtain ⟨_, heq, hs⟩ := hs.leave rfl rfl
    obtain ⟨_, heq', ht⟩ := ht.leave rfl rfl
    exact ⟨ab.perform hs ht hlive htagged htagged' op, hnotes (by simp)
      (ab.notes_perform hs ht hlive htagged htagged' op)⟩
  | hook rest => exact ⟨ab.hook granted granted' rest, hnotes (by simp) rfl⟩
  | finish outcome => exact ⟨ab.deliver outcome, hnotes (by simp) rfl⟩
  | pushEach h rest pushed =>
    exact ⟨ab.pushEach granted granted' h rest pushed, hnotes (by simp) rfl⟩
  | popUpTo h limit got =>
    obtain ⟨_, heq, hs⟩ := hs.leave rfl rfl
    obtain ⟨_, heq', ht⟩ := ht.leave rfl rfl
    refine ⟨ab.popUpTo hs ht hlive htagged htagged' granted granted' h limit got,
      hnotes (by simp) ?_⟩
    rw [notesOf, notesOf, ab.poppable_eq hs ht hlive htagged htagged' h]
  | destroy cursor cursor' dropped =>
    obtain ⟨_, heq, -⟩ := hs.toKept.leave rfl
    obtain ⟨_, heq', -⟩ := ht.toKept.leave rfl
    obtain ⟨rfl, rfl⟩ := List.cons.inj heq
    obtain ⟨rfl, rfl⟩ := List.cons.inj heq'
    obtain ⟨hab, hsame⟩ := ab.destroy granted granted' dropped hlive hs ht
    exact ⟨hab, hnotes (by simp) hsame⟩
  | release h node next last node' next' last' o =>
    obtain ⟨hab, hsame⟩ := ab.release hu granted granted' hs ht
    exact ⟨hab, hnotes (by simp) hsame⟩
  | batch h first last first' last' items =>
    cases items with
    | nil =>
      obtain ⟨hab, hsame⟩ := ab.closeBatch hu hs ht htagged htagged'
      exact ⟨hab, hnotes (by simp) hsame⟩
    | cons item rest =>
      cases item with
      | perform op =>
        exact ⟨(ab.enter (.batch h _ _ _ _ rest)).enter (.perform op), hnotes (by simp) rfl⟩
      | panic message => exact ⟨ab.enter (.rollBack h _ _ _ _ _ _), hnotes (by simp) rfl⟩
      | payload p =>
        obtain ⟨l, hok⟩ := exists_node hfed rfl
        obtain ⟨l', hok'⟩ := exists_node hfed' rfl
        exact ⟨ab.allocate hs ht hok hok', hnotes (by simp) rfl⟩
  | rollBack h unused cursor last cursor' last' o =>
    cases unused with
    | cons p unused =>
      refine ⟨ab.dropUnused granted granted' h p unused cursor last cursor' last' o, .inr ?_⟩
      refine ⟨_, _, _, _, _, _, hs.dropUnused, ht.dropUnused, hlive, ?_⟩
      rw [List.map_cons, List.map_cons, List.map_cons, List.map_cons, hu, hheld]
    | nil =>
      refine ⟨ab.spill hu granted granted' hs ht, ?_⟩
      cases u with
      | nil =>
        obtain rfl : u' = [] := List.map_eq_nil_iff.1 hu.symm
        simp only [notesOf, hs.takeValue_rollBack, ht.takeValue_rollBack]
        exact .inl ⟨rfl, fun p hp => by simp at hp⟩
      | cons n u =>
        cases u' with
        | nil => cases hu
        | cons m u' =>
          refine .inr ⟨_, _, _, _, _, _, hs.dropFirst, ht.dropFirst, hlive, ?_⟩
          rw [List.map_cons, List.map_cons, List.map_cons, List.map_cons, hheld]
          exact congrArg (fun w => _ :: w :: _) (List.cons.inj hu).2

theorem Abreast.stepWith (ab : s.Abreast t) (hs : s.Sound dead live held)
    (ht : t.Sound dead' live' held') (hlive : live.values = live'.values)
    (hheld : held.map Load.values = held'.map Load.values) (htagged : s.Tagged)
    (htagged' : t.Tagged) (hfed : s.lacks granted = false) (hfed' : t.lacks granted' = false) :
    (s.stepWith granted).Abreast (t.stepWith granted') ∧
      (s.stepWith granted).Level (t.stepWith granted') := by
  have hframes := ab.frames
  cases frames : s.frames with
  | nil =>
    rw [frames, List.forall₂_nil_left_iff] at hframes
    rw [Session.stepWith, Session.stepWith, frames, hframes]
    exact ⟨ab, dead, live, held, dead', live', held', hs, ht, hlive, hheld⟩
  | cons f below =>
    cases frames' : t.frames with
    | nil =>
      rw [frames, frames'] at hframes
      cases hframes
    | cons g below' =>
      rw [frames, frames'] at hframes
      obtain ⟨hf, hbelow⟩ := List.forall₂_cons.1 hframes
      have hs' := hs
      have ht' := ht
      rw [enter_of_frames frames] at hs' hfed
      rw [enter_of_frames frames'] at ht' hfed'
      have ab' : ({ s with frames := below } : Session α).Abreast { t with frames := below' } :=
        ⟨ab.store, ab.references, ab.handles, hbelow, ab.events, ab.answer⟩
      cases held with
      | nil => cases hs'.owned
      | cons u held =>
        cases held' with
        | nil => cases ht'.owned
        | cons u' held' =>
          obtain ⟨hu, hrest⟩ := List.cons.inj hheld
          obtain ⟨hnext, hlevel⟩ := ab'.resume hf hs' ht' hlive hu hrest htagged htagged' hfed hfed'
          rw [← stepWith_cons granted frames, ← stepWith_cons granted' frames'] at hnext hlevel
          refine ⟨hnext, hlevel.elim (fun hnotes => ?_) id⟩
          refine .of_notes hs ht hlive hheld ab.frames hnext.frames ?_ ?_
          · rw [notes, notes, frames, frames']
            exact hnotes.1
          · rw [notes, frames]
            exact hnotes.2

end Session

end RecyclingStack
