import RecyclingStack.Proofs.Session.Lifo
import RecyclingStack.Proofs.Session.Termination
import RecyclingStack.Session.Report

/-! What becomes of every payload. The ledger says where each is while the stack lives; when all
handles and references are gone each was popped, or dropped by the call it was given to, or dropped
by the end of the stack, and by one of these only. -/
namespace RecyclingStack

namespace Note

variable {β : Type}

def given : Note β → List β
  | opened given => given
  | _ => []

def taken : Note β → List β
  | popped p => [p]
  | _ => []

/-- The payload that a call drops. -/
def lost : Note β → List β
  | dropped p => [p]
  | _ => []

def ended : Note β → List β
  | destroyed p => [p]
  | _ => []

end Note

namespace Frame

variable {α : Type}

/-- Frames whose next step may take a payload off the stack, to be returned. -/
def mayTake : Frame α → Bool
  | .perform (.pop _) => true
  | .popUpTo _ _ _ => true
  | _ => false

/-- What pops have got so far, latest first. -/
def got : Frame α → List α
  | .popUpTo _ _ got => got
  | .finish (.popped v) => v.toList
  | .finish (.values values) => values.reverse
  | _ => []

end Frame

namespace Ledger

variable {β : Type} {l m : Ledger β} {notes : List (Note β)}

def held (l : Ledger β) : List β := l.calls.flatten ++ l.stack

theorem Step.perm {note : Note β} (h : Step l note m) :
    (l.held ++ note.given).Perm (m.held ++ (note.taken ++ (note.lost ++ note.ended))) := by
  classical
  apply List.perm_iff_count.2
  intro p
  cases h <;> simp [held, Note.given, Note.taken, Note.lost, Note.ended, List.count_cons] <;> omega

/-- Nothing that was given is lost or doubled on the way. -/
theorem Runs.perm (h : Runs l notes m) :
    (l.held ++ notes.flatMap Note.given).Perm
      (m.held ++ (notes.flatMap Note.taken ++ (notes.flatMap Note.lost ++
        notes.flatMap Note.ended))) := by
  induction h with
  | nil => exact .refl _
  | cons step rest ih =>
    classical
    apply List.perm_iff_count.2
    intro p
    have hstep := List.perm_iff_count.1 step.perm p
    have hrest := List.perm_iff_count.1 ih p
    simp only [List.flatMap_cons, List.count_append] at hstep hrest ⊢
    omega

end Ledger

namespace Session

variable {α : Type} {s t : Session α}

theorem gone_exec (h : s.isGone = true) (op : Op α) : (s.exec op).isGone = true :=
  run_induction (motive := fun s => s.isGone = true) (fun _ h => gone_stepWith h true) h

/-- What is under way comes to its end, then all handles and references are let go of. -/
def letGo (s : Session α) : Session α := s.run.lettingGo.foldl exec s.run

theorem play_stepUpTo (n : Nat) (s : Session α) : ∃ moves, s.play moves = s.stepUpTo n := by
  induction n generalizing s with
  | zero => exact ⟨[], rfl⟩
  | succ n ih =>
    unfold stepUpTo
    split
    · exact ⟨[], rfl⟩
    · obtain ⟨moves, hmoves⟩ := ih s.step
      exact ⟨.go true :: moves, hmoves⟩

theorem play_run (s : Session α) : ∃ moves, s.play moves = s.run := play_stepUpTo s.weight s

theorem play_exec (h : s.frames = []) (op : Op α) : ∃ moves, s.play moves = s.exec op := by
  obtain ⟨moves, hmoves⟩ := play_run (s.begin op)
  refine ⟨.call op :: moves, ?_⟩
  rw [exec, ← hmoves, play, List.foldl_cons, move, h]
  rfl

theorem play_execAll (ops : List (Op α)) (h : s.frames = []) :
    (ops.foldl exec s).frames = [] ∧ ∃ moves, s.play moves = ops.foldl exec s := by
  induction ops generalizing s with
  | nil => exact ⟨h, [], rfl⟩
  | cons op ops ih =>
    obtain ⟨first, hfirst⟩ := play_exec h op
    obtain ⟨hframes, more, hmore⟩ := ih (frames_run (s.begin op))
    exact ⟨hframes, first ++ more, by rw [play_append, hfirst]; exact hmore⟩

theorem play_letGo (s : Session α) : s.letGo.frames = [] ∧ ∃ moves, s.play moves = s.letGo := by
  obtain ⟨first, hfirst⟩ := play_run s
  obtain ⟨hframes, more, hmore⟩ := play_execAll s.run.lettingGo s.frames_run
  exact ⟨hframes, first ++ more, by rw [play_append, hfirst]; exact hmore⟩

theorem run_conclude (h : s.frames = []) (o : Outcome α) :
    (s.conclude o).run = { s with answer := some o } := by
  rcases s with ⟨store, references, handles, frames, events, answer⟩
  obtain rfl : frames = [] := h
  rw [run_step (List.cons_ne_nil _ _)]
  exact run_nil rfl

theorem exec_perform (h : s.frames = []) (op : Op α) :
    s.exec op = (({ s with events := [], answer := none } : Session α).perform op).run := by
  rcases s with ⟨store, references, handles, frames, events, answer⟩
  obtain rfl : frames = [] := h
  exact run_step (List.cons_ne_nil _ _)

/-- With nothing else under way, a handle or a reference that is dropped is gone, and so may be
everything. -/
theorem run_afterDrop (h : s.frames = []) :
    s.afterDrop.run.isGone = true ∨
      s.afterDrop.run.references = s.references ∧ s.afterDrop.run.handles = s.handles := by
  unfold afterDrop
  split
  · rename_i hgone
    exact .inl (run_induction (motive := fun s => s.isGone = true)
      (fun _ h => gone_stepWith h true) hgone)
  · rw [run_conclude h]
    exact .inr ⟨rfl, rfl⟩

theorem exec_dropReference (h : s.frames = []) (r : Nat) :
    (s.exec (.dropReference r)).isGone = true ∨
      (s.exec (.dropReference r)).references = s.references.set r false ∧
        (s.exec (.dropReference r)).handles = s.handles := by
  rw [exec_perform h]
  simp only [perform, withReference]
  split
  · exact run_afterDrop (s := { s with events := [], answer := none
                                       references := s.references.set r false }) h
  · rename_i hr
    rw [refuse, run_conclude (s := { s with events := [], answer := none }) h]
    refine .inr ⟨?_, rfl⟩
    cases hget : s.references[r]? with
    | none => exact (List.set_eq_of_length_le (List.getElem?_eq_none_iff.1 hget)).symm
    | some b =>
      obtain rfl : b = false := by
        rw [refers] at hr
        rw [show ({ s with events := [], answer := none } : Session α).references[r]? = some b from
          hget] at hr
        exact Bool.eq_false_iff.2 hr
      exact (set_of_getElem? hget).symm

theorem exec_dropHandle {dead : List Link} {live : Load (Payload α)}
    {held : List (Load (Payload α))} (hs : s.Sound dead live held) (h : s.frames = []) (k : Nat) :
    (s.exec (.dropHandle k)).isGone = true ∨
      (s.exec (.dropHandle k)).references = s.references ∧
        (s.exec (.dropHandle k)).handles = s.handles.set k none := by
  rw [exec_perform h]
  simp only [perform, withHandle]
  cases hseat : ({ s with events := [], answer := none } : Session α).seat? k with
  | none =>
    dsimp only
    rw [refuse, run_conclude (s := { s with events := [], answer := none }) h]
    refine .inr ⟨rfl, ?_⟩
    cases hget : s.handles[k]? with
    | none => exact (List.set_eq_of_length_le (List.getElem?_eq_none_iff.1 hget)).symm
    | some seat =>
      obtain rfl : seat = none := by
        rw [seat?, show ({ s with events := [], answer := none } : Session α).handles[k]? =
          some seat from hget] at hseat
        exact hseat
      exact (set_of_getElem? hget).symm
  | some seat =>
    rcases seat with ⟨c, _ | _⟩
    · exact run_afterDrop (s := _) h
    · have hmem : k ∈ s.holders := (hs.busy k).2 ⟨c, hseat⟩
      rw [holders, h] at hmem
      cases hmem

theorem Sound.execAll {dead : List Link} {live : Load (Payload α)}
    {held : List (Load (Payload α))} (hs : s.Sound dead live held) (h : s.frames = [])
    (ops : List (Op α)) :
    (ops.foldl exec s).frames = [] ∧
      ∃ dead live held, (ops.foldl exec s).Sound dead live held := by
  obtain ⟨hframes, moves, hmoves⟩ := play_execAll ops h
  obtain ⟨dead', live', held', hplayed, -⟩ := hs.play moves
  exact ⟨hframes, dead', live', held', hmoves ▸ hplayed⟩

theorem gone_execAll (h : s.isGone = true) (ops : List (Op α)) :
    (ops.foldl exec s).isGone = true := by
  induction ops generalizing s with
  | nil => exact h
  | cons op ops ih => exact ih (gone_exec h op)

theorem Sound.dropHandles {dead : List Link} {live : Load (Payload α)}
    {held : List (Load (Payload α))} (hs : s.Sound dead live held) (h : s.frames = [])
    (handles : List Nat) :
    ((handles.map Op.dropHandle).foldl exec s).isGone = true ∨
      ((handles.map Op.dropHandle).foldl exec s).references = s.references ∧
        ((handles.map Op.dropHandle).foldl exec s).handles =
          handles.foldl (fun seats k => seats.set k none) s.handles := by
  induction handles generalizing s dead live held with
  | nil => exact .inr ⟨rfl, rfl⟩
  | cons k handles ih =>
    rcases exec_dropHandle hs h k with hgone | ⟨hreferences, hhandles⟩
    · exact .inl (gone_execAll hgone _)
    · obtain ⟨hframes, _, _, _, hnext⟩ := hs.execAll h [.dropHandle k]
      rw [List.map_cons, List.foldl_cons, List.foldl_cons, ← hreferences, ← hhandles]
      exact ih hnext hframes

theorem dropReferences (h : s.frames = []) (references : List Nat) :
    ((references.map Op.dropReference).foldl exec s).isGone = true ∨
      ((references.map Op.dropReference).foldl exec s).references =
          references.foldl (fun flags r => flags.set r false) s.references ∧
        ((references.map Op.dropReference).foldl exec s).handles = s.handles := by
  induction references generalizing s with
  | nil => exact .inr ⟨rfl, rfl⟩
  | cons r references ih =>
    rcases exec_dropReference h r with hgone | ⟨hreferences, hhandles⟩
    · exact .inl (gone_execAll hgone _)
    · rw [List.map_cons, List.foldl_cons, List.foldl_cons, ← hreferences, ← hhandles]
      exact ih (frames_run (s.begin (.dropReference r)))

theorem getElem?_setAll {γ : Type} (x : γ) (places : List Nat) (l : List γ) (i : Nat) :
    (places.foldl (fun l k => l.set k x) l)[i]? =
      if i ∈ places then l[i]?.map fun _ => x else l[i]? := by
  induction places generalizing l with
  | nil => rfl
  | cons k places ih =>
    rw [List.foldl_cons, ih, List.getElem?_set]
    by_cases hk : k = i
    · subst hk
      by_cases hlt : k < l.length <;> simp [hlt]
    · have hmem : i ∈ k :: places ↔ i ∈ places := by
        rw [List.mem_cons, or_iff_right (Ne.symm hk)]
      simp only [hk, if_false, hmem]

theorem eq_of_mem_setAll {γ : Type} {x y : γ} {l : List γ}
    (h : y ∈ (List.range l.length).foldl (fun l k => l.set k x) l) : y = x := by
  obtain ⟨i, hi⟩ := List.mem_iff_getElem?.1 h
  rw [getElem?_setAll] at hi
  split at hi
  · obtain ⟨_, -, hy⟩ := Option.map_eq_some_iff.1 hi
    exact hy.symm
  · rename_i hnot
    rw [List.mem_range, Nat.not_lt] at hnot
    rw [List.getElem?_eq_none hnot] at hi
    cases hi

theorem Sound.gone_letGo {dead : List Link} {live : Load (Payload α)}
    {held : List (Load (Payload α))} (hs : s.Sound dead live held) : s.letGo.isGone = true := by
  obtain ⟨moves, hmoves⟩ := play_run s
  obtain ⟨_, _, _, hrun, -⟩ := hs.play moves
  rw [hmoves] at hrun
  rw [letGo, lettingGo, List.foldl_append]
  rcases hrun.dropHandles s.frames_run (List.range s.run.handles.length) with
    hgone | ⟨hreferences, hhandles⟩
  · exact gone_execAll hgone _
  · obtain ⟨hframes, -⟩ := hrun.execAll s.frames_run
      ((List.range s.run.handles.length).map Op.dropHandle)
    rcases dropReferences hframes (List.range s.run.references.length) with
      hgone | ⟨hreferences', hhandles'⟩
    · exact hgone
    · rw [hreferences] at hreferences'
      rw [hhandles] at hhandles'
      rw [isGone, hreferences', hhandles', Bool.and_eq_true]
      refine ⟨List.all_eq_true.2 fun b hb => ?_, List.all_eq_true.2 fun seat hseat => ?_⟩
      · rw [eq_of_mem_setAll hb]
        rfl
      · rw [eq_of_mem_setAll hseat]
        rfl

theorem taken_of_popped (o : Option (Payload α)) :
    ((o.toList.map Note.popped).flatMap Note.taken).map Payload.value =
      (o.map Payload.value).toList := by
  cases o <;> rfl

theorem got_stepWith {f : Frame α} {below : List (Frame α)} (granted : Bool)
    (frames : s.frames = f :: below) (hf : f.mayTake = true) :
    ∃ g, (s.stepWith granted).frames = g :: below ∧
      g.got = (s.notes.flatMap Note.taken).map Payload.value ++ f.got := by
  rw [stepWith_cons granted frames, notes, frames]
  dsimp only
  cases f with
  | perform op =>
    cases op with
    | pop h =>
      simp only [resume, perform, notesOf, withHandle, poppable, idle?]
      cases hseat : ({ s with frames := below } : Session α).seat? h with
      | none => exact ⟨_, rfl, rfl⟩
      | some seat =>
        rcases seat with ⟨c, _ | _⟩
        · refine ⟨_, rfl, ?_⟩
          simp only [Bool.false_eq_true, if_false, Option.bind_some]
          rw [taken_of_popped]
          exact (List.append_nil _).symm
        · exact ⟨_, rfl, rfl⟩
    | _ => cases hf
  | popUpTo h limit got =>
    simp only [resume, notesOf]
    split
    · exact ⟨_, rfl, List.reverse_reverse got⟩
    · rw [taken_of_popped, poppable]
      cases ({ s with frames := below } : Session α).idle? h with
      | none => exact ⟨_, rfl, List.reverse_reverse got⟩
      | some c =>
        simp only [Option.bind_some]
        split
        · rename_i hnone
          refine ⟨_, rfl, ?_⟩
          rw [hnone]
          exact List.reverse_reverse got
        · rename_i p hsome
          refine ⟨_, rfl, ?_⟩
          rw [hsome]
          rfl
  | _ => cases hf

theorem taken_stepWith {f : Frame α} {below : List (Frame α)}
    (frames : s.frames = f :: below) (hf : f.mayTake = false) :
    s.notes.flatMap Note.taken = [] := by
  have hopened : ∀ h given,
      (({ s with frames := below } : Session α).openedBy h given).flatMap Note.taken = [] := by
    intro h given
    unfold openedBy
    split <;> rfl
  rw [notes, frames]
  dsimp only
  cases f with
  | perform op =>
    cases op with
    | push h p => exact hopened h _
    | pushBatch h items => exact hopened h _
    | pop h => cases hf
    | _ => rfl
  | batch k first last items =>
    cases items with
    | nil =>
      simp only [notesOf]
      split
      · rfl
      · split <;> rfl
    | cons item rest => cases item <;> rfl
  | rollBack k unused cursor last o =>
    cases unused with
    | cons p unused => rfl
    | nil =>
      simp only [notesOf]
      split <;> rfl
  | release k node next last o =>
    simp only [notesOf]
    split <;> rfl
  | destroy cursor dropped =>
    simp only [notesOf]
    split <;> rfl
  | popUpTo h limit got => cases hf
  | _ => rfl

/-- The notes of a run account for every payload given to a push or a batch up to this state, and
go with what is dropped and returned. -/
structure Conserved (s : Session α) (notes : List (Note (Payload α))) : Prop where
  /-- Every payload is in the hands of the call it was given to, on the stack, or has met its fate,
  and only one of these. -/
  accounted : ∃ calls, Ledger.Runs ⟨[], []⟩ notes ⟨calls, s.store.values⟩ ∧
    (notes.flatMap Note.given).Perm (calls.flatten ++ s.store.values ++
      (notes.flatMap Note.taken ++ (notes.flatMap Note.lost ++ notes.flatMap Note.ended))) ∧
    (s.frames = [] → calls = [])
  /-- The values dropped by a step are those of the payloads in its notes. -/
  dropped : ∀ granted, (s.stepWith granted).shed =
    (s.notes.flatMap Note.shed).map Payload.value ++ s.shed
  /-- What a pop takes off the stack is returned. -/
  returned : ∀ {f below} (granted : Bool), s.frames = f :: below → f.mayTake = true →
    ∃ g, (s.stepWith granted).frames = g :: below ∧
      g.got = (s.notes.flatMap Note.taken).map Payload.value ++ f.got
  /-- And nothing else takes anything. -/
  untaken : ∀ {f below}, s.frames = f :: below → f.mayTake = false →
    s.notes.flatMap Note.taken = []
  /-- There is nothing to drop in slots that are free, orphaned or deferred. -/
  unfilled : ∀ l ∈ s.store.freeList ++ s.store.orphanChain ++ s.deferred,
    (s.store.arena.read l).value = none
  /-- When everything is gone each payload has met its fate. -/
  gone : s.frames = [] → s.isGone = true → (notes.flatMap Note.given).Perm
    (notes.flatMap Note.taken ++ (notes.flatMap Note.lost ++ notes.flatMap Note.ended))
  /-- And everything goes when all handles and references are dropped. -/
  ends : s.letGo.frames = [] ∧ s.letGo.isGone = true ∧ ∃ rest, s.play rest = s.letGo ∧
    ((notes ++ s.trace rest).flatMap Note.given).Perm
      ((notes ++ s.trace rest).flatMap Note.taken ++
        ((notes ++ s.trace rest).flatMap Note.lost ++ (notes ++ s.trace rest).flatMap Note.ended))

section

variable {dead : List Link} {live : Load (Payload α)} {held : List (Load (Payload α))}
  {notes : List (Note (Payload α))}

theorem Sound.unfilled (hs : s.Sound dead live held) {l : Link}
    (hl : l ∈ s.store.freeList ++ s.store.orphanChain ++ s.deferred) :
    (s.store.arena.read l).value = none := by
  obtain ⟨L, -, h⟩ := hs.tidy
  have hspent : ∀ c ∈ (s.layout L held).cells, c.stage = .spent →
      (s.store.arena.read c.link).value = none := by
    intro c hc hstage
    rw [(h.holds c hc).value_eq, hstage]
    rfl
  have hidle : ∀ r, r ≠ .stack → l ∈ s.store.arena.chain (s.store.root r) →
      (s.store.arena.read l).value = none := by
    intro r hr hmem
    rw [h.chain_root r] at hmem
    obtain ⟨c, hc, rfl⟩ := List.mem_map.1 hmem
    exact hspent c (Layout.mem_cells.2 (.inl ⟨r, hc⟩)) (h.idle r hr c hc)
  rcases List.mem_append.1 hl with hl | hl
  · rcases List.mem_append.1 hl with hl | hl
    · exact hidle .free (by decide) hl
    · exact hidle .orphans (by decide) hl
  · refine hspent ⟨l, .spent⟩ (Layout.mem_cells.2 (.inr ⟨[⟨l, .spent⟩], ?_, ?_⟩)) rfl
    · apply List.mem_append_right _
      exact List.mem_map.2 ⟨l, List.mem_append_right _ hl, rfl⟩
    · exact List.mem_singleton.2 rfl

/-- When nothing is under way no call holds anything, and when nothing is left either the stack has
no payload. -/
theorem Sound.ledger_idle (hs : s.Sound dead live held) (h : s.frames = []) :
    (s.ledger live held).calls = [] ∧ (s.isGone = true → s.store.values = []) := by
  have hcursors : s.cursors = [] := by
    rw [cursors, h]
    rfl
  constructor
  · rw [ledger, h]
    rfl
  · intro hgone
    rcases hs.gone hgone with hc | ⟨-, rfl⟩
    · cases hcursors.symm.trans hc
    · exact hs.values_eq

theorem Sound.given_perm (hs : s.Sound dead live held)
    (hruns : Ledger.Runs ⟨[], []⟩ notes (s.ledger live held)) (h : s.frames = [])
    (hgone : s.isGone = true) : (notes.flatMap Note.given).Perm
      (notes.flatMap Note.taken ++ (notes.flatMap Note.lost ++ notes.flatMap Note.ended)) := by
  obtain ⟨hcalls, hvalues⟩ := hs.ledger_idle h
  have hperm := hruns.perm
  have hstack : (s.ledger live held).stack = [] := hs.values_eq.symm.trans (hvalues hgone)
  rw [Ledger.held, Ledger.held, hcalls, hstack] at hperm
  exact hperm

theorem Sound.conserved (hs : s.Sound dead live held)
    (hruns : Ledger.Runs ⟨[], []⟩ notes (s.ledger live held)) : s.Conserved notes where
  accounted := by
    refine ⟨(s.ledger live held).calls, ?_, ?_, fun h => (hs.ledger_idle h).1⟩
    · rw [hs.values_eq]
      exact hruns
    · rw [hs.values_eq]
      exact hruns.perm
  dropped := s.shed_stepWith
  returned := fun granted frames hf => got_stepWith granted frames hf
  untaken := fun frames hf => taken_stepWith frames hf
  unfilled := fun _ hl => hs.unfilled hl
  gone := fun h hgone => hs.given_perm hruns h hgone
  ends := by
    obtain ⟨hframes, rest, hrest⟩ := play_letGo s
    obtain ⟨_, _, _, hend, hmore⟩ := hs.play rest
    rw [hrest] at hend hmore
    exact ⟨hframes, hs.gone_letGo, rest, hrest,
      hend.given_perm (hruns.trans hmore) hframes hs.gone_letGo⟩

end

/-- In every state of every run every payload is accounted for. -/
theorem conserved_play (p : Plan) (moves : List (Move α)) :
    ((ofPlan p : Session α).play moves).Conserved ((ofPlan p : Session α).trace moves) := by
  obtain ⟨_, _, _, hs, hruns⟩ := (sound_ofPlan p).play moves
  exact hs.conserved hruns

end Session

end RecyclingStack
