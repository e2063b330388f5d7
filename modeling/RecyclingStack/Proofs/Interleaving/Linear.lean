import RecyclingStack.Proofs.Interleaving.Runs
import RecyclingStack.Proofs.Memory.Values

/-! Interleaved runs. As long as no slot is handed out so often that its generations come round
again, the chain on the head is what the successful exchanges of the head make of it, one after the
other, and all answers of pops agree with it. -/
namespace RecyclingStack

namespace Swung

variable {α : Type} {live live' : Load α} {deed : Option (Deed α)} {new : List α}

theorem replay_eq (h : Swung live live' deed new) (worker call : Nat) :
    Swing.replay live.values (deed.toList.map fun deed => ⟨worker, call, deed⟩) = live'.values := by
  cases h with
  | still => rfl
  | put values h => exact h.symm
  | take n live => rfl

theorem tops_eq (h : Swung live live' deed new) (worker call k : Nat) :
    Swing.tops k live.values (deed.toList.map fun deed => ⟨worker, call, deed⟩) =
      if worker = k then new.map fun value => (call, some value) else [] := by
  cases h with
  | still => exact (ite_self _).symm
  | put values h => exact (ite_self _).symm
  | take n live => exact List.append_nil _

end Swung

/-- The chain on the head comes to an end, and these are its values, top first. -/
structure Store.Holds {α : Type} (s : Store α) (values : List α) : Prop where
  ends : s.arena.Threads s.head s.chain
  values : (s.chain.map fun l => (s.arena.read l).value) = values.map some

theorem Store.Holds.values_eq {α : Type} {s : Store α} {values : List α} (h : s.Holds values) :
    s.values = values := by
  have hmap : s.values =
      (s.chain.map fun l => (s.arena.read l).value).filterMap id := by
    rw [List.filterMap_map]
    rfl
  rw [hmap, h.values, List.filterMap_map]
  exact List.filterMap_some

namespace Machine

variable {α : Type} {m : Machine α} {schedule : List (Nat × Bool)} {L : Layout α} {crew : Crew α}
  {live : Load α} {outs : Nat → Nat}

/-- At some moment of this call of a thread the list on the stack was empty, or the stack was shut
down. -/
def SawEmpty (m : Machine α) (schedule : List (Nat × Bool)) (worker call : Nat) : Prop :=
  ∃ before after v, schedule = before ++ after ∧ (m.run before).workers[worker]? = some v ∧
    v.phase ≠ .ready ∧ v.records.length = call ∧
      ((m.run before).store.shutdown = true ∨ Swing.replay [] (m.swings before) = [])

theorem SawEmpty.append {worker call : Nat}
    (h : m.SawEmpty schedule worker call) (more : List (Nat × Bool)) :
    m.SawEmpty (schedule ++ more) worker call := by
  obtain ⟨before, after, v, rfl, hv⟩ := h
  exact ⟨before, after ++ more, v, List.append_assoc _ _ _, hv⟩

/-- A run so far. What is on the stack, what the threads have on record and what they are going to
say goes with the exchanges of the head, and whoever said that the stack was empty had seen
it so. -/
structure Follows (m : Machine α) (schedule : List (Nat × Bool)) (L : Layout α) : Prop where
  values : L.stack.values = Swing.replay [] (m.swings schedule)
  proper : ∀ {k : Nat} {w : Worker α}, (m.run schedule).workers[k]? = some w → w.Proper
  taken : ∀ {k : Nat} {w : Worker α}, (m.run schedule).workers[k]? = some w →
    Swing.tops k [] (m.swings schedule) = w.taken.map fun x => (x.1, some x.2)
  missed : ∀ {k : Nat} {w : Worker α} {record : CallRecord α} {later earlier : List (CallRecord α)},
    (m.run schedule).workers[k]? = some w → w.records = later ++ record :: earlier →
      record.answer = .popped none → m.SawEmpty schedule k earlier.length

theorem follows_nil (p : Plan) (programs : List (List (Call α))) :
    (ofPrograms p programs).Follows [] ⟨[], [], [], []⟩ := by
  have hworker : ∀ {k : Nat} {w : Worker α},
      ((ofPrograms p programs).run []).workers[k]? = some w →
        ∃ program, w = Worker.register (.ofPlan p) program := by
    intro k w h
    obtain ⟨program, -, rfl⟩ := Option.map_eq_some_iff.1 ((List.getElem?_map).symm.trans h)
    exact ⟨program, rfl⟩
  refine ⟨rfl, fun h => ?_, fun h => ?_, fun h hrecords => ?_⟩
  · obtain ⟨program, rfl⟩ := hworker h
    exact ⟨.inl rfl, fun h => by cases h⟩
  · obtain ⟨program, rfl⟩ := hworker h
    rfl
  · obtain ⟨program, rfl⟩ := hworker h
    cases List.append_eq_nil_iff.1 hrecords.symm |>.2

theorem Crewed.mem_stack (h : m.Crewed L crew live outs) {n : Link × α} (hn : n ∈ live) :
    ⟨n.1, .full n.2⟩ ∈ (L.withStrands crew.strands).cells := by
  refine Layout.mem_cells_of_on (r := .stack) ?_
  rw [Layout.on, h.stack]
  exact List.mem_map_of_mem hn

/-- An empty head, and a top without value, mean that the list is empty. -/
theorem Crewed.values_of_misses {w : Worker α} (h : m.Crewed L crew live outs)
    (hmisses : w.Misses m.store) : m.store.shutdown = true ∨ live.values = [] := by
  cases live with
  | nil => exact .inr rfl
  | cons n live =>
    obtain ⟨hhead, htake, -⟩ := h.laid.takeTop (c := ⟨n.1, .full n.2⟩) h.stack rfl
    rcases hmisses.2 with hshut | hnil | ⟨head, next, -, rfl, hnone⟩
    · exact .inl hshut
    · exact absurd (hhead.symm.trans hnil) (h.laid.ne_nil (h.mem_stack List.mem_cons_self))
    · rw [htake] at hnone
      cases hnone

theorem Crewed.holds (h : m.Crewed L crew live outs) : m.store.Holds live.values := by
  have hchain : m.store.chain = L.stack.map Cell.link := h.laid.chain_root .stack
  have hthreads := (h.laid.rooted .stack).threads
  rw [← h.laid.chain_root .stack] at hthreads
  refine ⟨hthreads, ?_⟩
  rw [hchain, h.stack, Load.strand, Load.values, List.map_map, List.map_map, List.map_map]
  apply List.map_congr_left
  intro n hn
  exact (h.laid.holds ⟨n.1, .full n.2⟩ (h.mem_stack hn)).value_eq

/-- A turn of a thread that is not there. -/
theorem Follows.skip (h : m.Follows schedule L) {worker : Nat} (spurious : Bool)
    (hnone : (m.run schedule).workers[worker]? = none) :
    m.Follows (schedule ++ [(worker, spurious)]) L := by
  have hrun : m.run (schedule ++ [(worker, spurious)]) = m.run schedule := by
    rw [run_turn, step_none hnone]
  have hswings : m.swings (schedule ++ [(worker, spurious)]) = m.swings schedule := by
    simp only [swings_append, swings, swing, hnone, List.append_nil]
  constructor
  · rw [hswings]
    exact h.values
  · rw [hrun]
    exact h.proper
  · rw [hrun, hswings]
    exact h.taken
  · rw [hrun]
    intro k w record later earlier hk hrecords hanswer
    exact (h.missed hk hrecords hanswer).append _

theorem Follows.access {before after : Crew α} {w : Worker α} {own own' : List (Strand α)}
    {spurious : Bool} {M : Layout α} {live' : Load α} (h : m.Follows schedule L)
    (haccess : (m.run schedule).Access before after w own spurious L live outs own' M live') :
    m.Follows (schedule ++ [(before.length, spurious)]) M := by
  have hw := haccess.fore.worker
  have hvalues : live.values = Swing.replay [] (m.swings schedule) := by
    rw [← h.values, haccess.fore.stack, Strand.values, Load.values_strand]
  have htells := (h.proper hw).step (m.run schedule).store spurious
  have hrun := m.run_turn schedule before.length spurious
  have hswings := m.swings_append schedule [(before.length, spurious)]
  simp only [swings, swing, List.append_nil, hw] at hswings
  refine ⟨?_, ?_, ?_, ?_⟩
  · rw [haccess.next.stack, Strand.values, Load.values_strand, hswings, Swing.replay_append,
      ← hvalues]
    exact (haccess.swung.replay_eq before.length w.records.length).symm
  · intro k v hk
    rw [hrun] at hk
    rcases workers_step hw hk with ⟨rfl, rfl⟩ | ⟨-, hk⟩
    · exact htells.toProper
    · exact h.proper hk
  · intro k v hk
    rw [hrun] at hk
    rw [hswings, Swing.tops_append, ← hvalues]
    apply (congrArg _ (haccess.swung.tops_eq before.length w.records.length k)).trans
    rcases workers_step hw hk with ⟨rfl, rfl⟩ | ⟨hne, hk⟩
    · rw [h.taken hw, htells.taken, if_pos rfl, Worker.taken]
      simp [Function.comp_def]
    · rw [if_neg hne, List.append_nil, h.taken hk]
  · intro k v record later earlier hk hrecords hanswer
    rw [hrun] at hk
    rcases workers_step hw hk with ⟨rfl, rfl⟩ | ⟨-, hk⟩
    · rcases htells.records with hsame | ⟨last, hlast, hmissed⟩
      · exact (h.missed hw (hsame.symm.trans hrecords) hanswer).append _
      · cases later with
        | nil =>
          obtain ⟨rfl, rfl⟩ := List.cons.inj (hlast.symm.trans hrecords)
          refine ⟨schedule, _, w, rfl, hw, (hmissed hanswer).1, rfl, ?_⟩
          rw [← hvalues]
          exact haccess.fore.values_of_misses (hmissed hanswer)
        | cons first later =>
          have hlater := (List.cons.inj (hlast.symm.trans hrecords)).2
          exact (h.missed hw hlater hanswer).append _
    · exact (h.missed hk hrecords hanswer).append _

theorem follows_run (p : Plan) (programs : List (List (Call α))) (schedule : List (Nat × Bool))
    (hbound : ∀ i, ((ofPrograms p programs).handedOut schedule).count i < halfWord) :
    ∃ L crew live, ((ofPrograms p programs).run schedule).Crewed L crew live
      (fun i => ((ofPrograms p programs).handedOut schedule).count i) ∧
        (ofPrograms p programs).Follows schedule L :=
  crewed_run p programs (I := fun schedule L _ => (ofPrograms p programs).Follows schedule L)
    (follows_nil p programs) (fun spurious hnone h => h.skip spurious hnone)
    (fun _ haccess h => h.access haccess) schedule hbound

/-- Two threads. One pops what it pushed, has the slot recycled and pushes on it again. -/
def recycling : List (List (Call Nat)) := [[.push 1, .pop, .advance, .advance, .push 2], [.pop]]

end Machine

end RecyclingStack
