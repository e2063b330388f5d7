import Mathlib.Algebra.Order.BigOperators.Group.List
import Mathlib.Algebra.Order.Ring.Nat
import RecyclingStack.Proofs.Interleaving.Feeding

/-! Threads that fill a new stack together. Whatever the schedule, the indices they claim, the calls
that fail, the epoch and what is on the stack come out the same in the end, up to the order of the
threads. -/
namespace RecyclingStack

section

variable {β γ : Type}

theorem exists_set {l : List β} {k : Nat} {x : β} (hk : l[k]? = some x) (y : β) :
    ∃ before after, l = before ++ x :: after ∧ l.set k y = before ++ y :: after := by
  obtain ⟨hlt, rfl⟩ := List.getElem?_eq_some_iff.1 hk
  obtain ⟨before, after, hl, -, hset⟩ := List.exists_of_set hlt
  exact ⟨before, after, hl, hset⟩

theorem total_map_set (f : β → Nat) {l : List β} {k : Nat} {x : β} (hk : l[k]? = some x) (y : β) :
    total ((l.set k y).map f) + f x = total (l.map f) + f y := by
  obtain ⟨before, after, hl, hset⟩ := exists_set hk y
  rw [hset, hl, total_eq_sum, total_eq_sum]
  simp only [List.map_append, List.map_cons, List.sum_append, List.sum_cons]
  omega

theorem flatMap_set_append_perm {f : β → List γ} {l : List β} {k : Nat} {x y : β} {more : List γ}
    (hk : l[k]? = some x) (hy : f y = f x ++ more) :
    ((l.set k y).flatMap f).Perm (l.flatMap f ++ more) := by
  obtain ⟨before, after, hl, hset⟩ := exists_set hk y
  rw [hset, hl]
  simp only [List.flatMap_append, List.flatMap_cons, hy, List.append_assoc]
  exact (List.perm_append_comm.append_left _).append_left _

theorem map_set_eq {f : β → γ} {l : List β} {k : Nat} {x y : β} (hk : l[k]? = some x)
    (hy : f y = f x) : (l.set k y).map f = l.map f := by
  obtain ⟨before, after, hl, hset⟩ := exists_set hk y
  rw [hset, hl, List.map_append, List.map_append, List.map_cons, List.map_cons, hy]

theorem total_map_const {f : β → Nat} {l : List β} {n : Nat} (h : ∀ x ∈ l, f x = n) :
    total (l.map f) = l.length * n := by
  have hall := List.sum_eq_card_nsmul (l.map f) n (List.forall_mem_map.2 h)
  rwa [List.length_map] at hall

theorem total_map_eq_zero {f : β → Nat} {l : List β} (h : ∀ x ∈ l, f x = 0) :
    total (l.map f) = 0 := List.sum_eq_zero (List.forall_mem_map.2 h)

theorem le_total_map (f : β → Nat) {l : List β} {x : β} (hx : x ∈ l) : f x ≤ total (l.map f) :=
  List.le_sum_of_mem (List.mem_map_of_mem hx)

end

section

variable {α : Type}

theorem flatten_runsFrom (length lacking : Nat) (begun rest : List α) :
    (runsFrom length lacking begun rest).flatten = begun.reverse ++ rest := by
  induction rest generalizing lacking begun with
  | nil => exact (List.append_nil _).trans (List.append_nil _).symm
  | cons x rest ih =>
    cases lacking with
    | zero =>
      rw [runsFrom, List.flatten_cons, ih]
      rfl
    | succ lacking =>
      rw [runsFrom, ih, List.reverse_cons, List.append_assoc]
      rfl

theorem ne_nil_of_mem_runsFrom {length lacking : Nat} {begun rest run : List α}
    (hbegun : begun ≠ []) (h : run ∈ runsFrom length lacking begun rest) : run ≠ [] := by
  induction rest generalizing lacking begun with
  | nil =>
    rw [List.mem_singleton.1 h]
    exact mt List.reverse_eq_nil_iff.1 hbegun
  | cons x rest ih =>
    cases lacking with
    | zero =>
      rcases List.mem_cons.1 h with rfl | h
      · exact mt List.reverse_eq_nil_iff.1 hbegun
      · exact ih (List.cons_ne_nil x []) h
    | succ lacking => exact ih (List.cons_ne_nil x begun) h

/-- Each run begun takes what it lacks, and each later one its full length. -/
theorem length_runsFrom {length lacking : Nat} (hlacking : lacking < length)
    (begun rest : List α) : (runsFrom length lacking begun rest).length =
      1 + (rest.length + (length - 1 - lacking)) / length := by
  induction rest generalizing lacking begun with
  | nil =>
    rw [List.length_nil, Nat.zero_add, Nat.div_eq_of_lt (by omega)]
    rfl
  | cons x rest ih =>
    cases lacking with
    | zero =>
      have hsum : (x :: rest).length + (length - 1 - 0) = rest.length + length := by
        rw [List.length_cons]
        omega
      rw [runsFrom, List.length_cons, ih (by omega), hsum, Nat.sub_self, Nat.add_zero rest.length,
        Nat.add_div_right _ hlacking]
      omega
    | succ lacking =>
      have hsum : (x :: rest).length + (length - 1 - (lacking + 1)) =
          rest.length + (length - 1 - lacking) := by
        rw [List.length_cons]
        omega
      rw [runsFrom, ih (by omega), hsum]

/-- What a thread publishes at a time: each value by itself, or so many at once. -/
def pieces (batch : Option Nat) (values : List α) : List (List α) :=
  match batch with
  | none => values.map fun value => [value]
  | some length => runsOf length values

def pieceCount (batch : Option Nat) (n : Nat) : Nat :=
  match batch with
  | none => n
  | some length => (n + length - 1) / length

def pushes (batch : Option Nat) (values : List α) : List (Call α) :=
  match batch with
  | none => values.map Call.push
  | some length => (runsOf length values).map Call.pushBatch

theorem flatten_pieces (batch : Option Nat) (values : List α) :
    (pieces batch values).flatten = values := by
  cases batch with
  | none =>
    induction values with
    | nil => rfl
    | cons value values ih => exact congrArg (value :: ·) ih
  | some length =>
    cases values with
    | nil => rfl
    | cons x rest => exact flatten_runsFrom length (length - 1) [x] rest

theorem length_pieces {batch : Option Nat} (hbatch : batch ≠ some 0) (values : List α) :
    (pieces batch values).length = pieceCount batch values.length := by
  cases batch with
  | none => exact List.length_map _
  | some length =>
    have hpos : 0 < length := Nat.pos_of_ne_zero fun hzero => hbatch (congrArg some hzero)
    cases values with
    | nil =>
      rw [pieces, pieceCount, List.length_nil, Nat.div_eq_of_lt (by omega)]
      rfl
    | cons x rest =>
      have hsum : rest.length + 1 + length - 1 = rest.length + length := by omega
      rw [pieces, runsOf, length_runsFrom (by omega), pieceCount, List.length_cons, hsum,
        Nat.add_div_right _ hpos, Nat.sub_self, Nat.add_zero, Nat.add_comm]

theorem ne_nil_of_mem_pieces {batch : Option Nat} {values piece : List α}
    (h : piece ∈ pieces batch values) : piece ≠ [] := by
  cases batch with
  | none =>
    obtain ⟨value, -, rfl⟩ := List.mem_map.1 h
    exact List.cons_ne_nil value []
  | some length =>
    cases values with
    | nil => cases h
    | cons x rest => exact ne_nil_of_mem_runsFrom (List.cons_ne_nil x []) h

/-- The calls push the pieces, one each. -/
theorem mem_pushes {batch : Option Nat} {values : List α} {call : Call α}
    (h : call ∈ pushes batch values) : call.isPush = true ∧ call.values ∈ pieces batch values := by
  cases batch with
  | none =>
    obtain ⟨value, hvalue, rfl⟩ := List.mem_map.1 h
    exact ⟨rfl, List.mem_map_of_mem hvalue⟩
  | some length =>
    obtain ⟨run, hrun, rfl⟩ := List.mem_map.1 h
    exact ⟨rfl, hrun⟩

theorem map_values_pushes (batch : Option Nat) (values : List α) :
    (pushes batch values).map Call.values = pieces batch values := by
  cases batch with
  | none => exact List.map_map
  | some length => exact List.map_map.trans (List.map_id _)

theorem lists_pushes (batch : Option Nat) (values : List α) :
    Call.lists (pushes batch values) = pieces batch values := by
  rw [Call.lists, List.filter_eq_self.2 fun call hcall => (mem_pushes hcall).1, map_values_pushes]

theorem feeding_append {program ending : List (Call α)}
    (h : ∀ call ∈ program, call.isPush = true ∧ call.values ≠ []) (hending : Feeding ending) :
    Feeding (program ++ ending) := by
  induction program with
  | nil => exact hending
  | cons call program ih =>
    obtain ⟨hcall, hrest⟩ := List.forall_mem_cons.1 h
    exact .push hcall.1 hcall.2 (ih hrest)

theorem Feeding.size_eq {program : List (Call α)} (h : Feeding program) :
    Call.size program = (Call.lists program).flatten.length := by
  induction h with
  | nil | leave => rfl
  | @push call rest push values more ih =>
    have hsize : Call.size (call :: rest) = call.values.length + Call.size rest := rfl
    rw [hsize, ih, Call.lists_cons, if_pos push, List.flatten_append, List.flatten_singleton,
      List.length_append]

def Fills (batch : Option Nat) (values : List α) (program : List (Call α)) : Prop :=
  program = pushes batch values ∨ program = pushes batch values ++ [.leave]

section

variable {batch : Option Nat} {values : List (List α)} {programs : List (List (Call α))}

theorem exists_fills (h : List.Forall₂ (Fills batch) values programs) {program : List (Call α)}
    (hprogram : program ∈ programs) : ∃ own ∈ values, Fills batch own program := by
  induction h with
  | nil => cases hprogram
  | @cons own first values programs hfirst hrest ih =>
    rcases List.mem_cons.1 hprogram with rfl | hprogram
    · exact ⟨own, List.mem_cons_self, hfirst⟩
    · obtain ⟨own, hown, hfills⟩ := ih hprogram
      exact ⟨own, List.mem_cons_of_mem _ hown, hfills⟩

end

namespace Fills

variable {batch : Option Nat} {values : List α} {program : List (Call α)}

theorem feeding (h : Fills batch values program) : Feeding program := by
  have hpush : ∀ call ∈ pushes batch values, call.isPush = true ∧ call.values ≠ [] :=
    fun call hcall => ⟨(mem_pushes hcall).1, ne_nil_of_mem_pieces (mem_pushes hcall).2⟩
  rcases h with rfl | rfl
  · exact List.append_nil (pushes batch values) ▸ feeding_append hpush .nil
  · exact feeding_append hpush .leave

theorem lists_eq (h : Fills batch values program) : Call.lists program = pieces batch values := by
  rcases h with rfl | rfl
  · exact lists_pushes batch values
  · rw [Call.lists_append, lists_pushes]
    exact List.append_nil _

theorem size_eq (h : Fills batch values program) : Call.size program = values.length := by
  rw [h.feeding.size_eq, h.lists_eq, flatten_pieces]

theorem length_le_one (h : Fills none values program) {call : Call α} (hcall : call ∈ program) :
    call.values.length ≤ 1 := by
  have hpush : ∀ call ∈ pushes none values, call.values.length ≤ 1 := by
    intro call hcall
    obtain ⟨value, -, hpiece⟩ := List.mem_map.1 (mem_pushes hcall).2
    rw [← hpiece]
    exact Nat.le_refl 1
  rcases h with rfl | rfl
  · exact hpush call hcall
  · rcases List.mem_append.1 hcall with hcall | hcall
    · exact hpush call hcall
    · rw [List.mem_singleton.1 hcall]
      exact Nat.zero_le 1

end Fills

section

variable {batch : Option Nat} {n : Nat} {values : List (List α)} {programs : List (List (Call α))}
  (h : List.Forall₂ (Fills batch) values programs)

include h

theorem map_lists_fills : programs.map Call.lists = values.map (pieces batch) := by
  induction h with
  | nil => rfl
  | cons hfirst hrest ih => rw [List.map_cons, List.map_cons, hfirst.lists_eq, ih]

theorem total_size_fills (hlength : ∀ own ∈ values, own.length = n) :
    total (programs.map Call.size) = values.length * n := by
  rw [h.length_eq]
  refine total_map_const fun program hprogram => ?_
  obtain ⟨own, hown, hfills⟩ := exists_fills h hprogram
  rw [hfills.size_eq, hlength own hown]

end

end

theorem Phase.repeat_due {α : Type} (phase : Phase α) {epoch : Nat}
    (hepoch : epoch + 1 < fullWord) :
    phase.due.repeat nextWord epoch = epoch + phase.due := by
  cases phase with
  | bumpEpoch after => exact Nat.mod_eq_of_lt hepoch
  | _ => rfl

namespace Machine

variable {α : Type} {m : Machine α} {p : Plan} {programs : List (List (Call α))}
  {schedule : List (Nat × Bool)} {worker : Nat}

def denied (m : Machine α) (schedule : List (Nat × Bool)) : List Nat :=
  m.logged (fun k w _ spurious => if w.reserves && spurious then [k] else []) schedule

/-- All programs feed the stack, and either there is room for all their values, or no call has more
than one. -/
structure Fitting (p : Plan) (programs : List (List (Call α))) : Prop where
  feeding : ∀ program ∈ programs, Feeding program
  room : total (programs.map Call.size) ≤ (Store.ofPlan p : Store α).arena.capacity ∨
    ∀ program ∈ programs, ∀ call ∈ program, call.values.length ≤ 1

/-- A run so far: every index claimed is for a value, every value has one, or lacks it, or was
refused; what was published is what the threads say; and the epoch is what their counts say. -/
structure Filling (m : Machine α) (p : Plan) (programs : List (List (Call α)))
    (schedule : List (Nat × Bool)) : Prop where
  growing : (m.run schedule).store.Growing p
  feeders : ∀ w ∈ (m.run schedule).workers, w.Feeder
  calls : (m.run schedule).workers.map Worker.calls = programs
  balance : (m.run schedule).store.arena.fresh +
    total ((m.run schedule).workers.map fun w => w.lacking + w.refused) =
      total (programs.map Call.size)
  refused : total ((m.run schedule).workers.map Worker.refused) ≠ 0 →
    (m.run schedule).store.arena.capacity ≤ (m.run schedule).store.arena.fresh
  entered : (m.published schedule).Perm ((m.run schedule).workers.flatMap Worker.entered)
  ordered : ∀ w ∈ (m.run schedule).workers, w.entered.Sublist (m.published schedule)
  replay : Swing.replay [] (m.swings schedule) = (m.published schedule).flatten.reverse
  handed : m.handedOut schedule = List.range (m.run schedule).store.arena.fresh
  epoch : total (programs.map Call.size) + 1 < fullWord →
    (m.run schedule).store.epoch + total ((m.run schedule).workers.map fun w => w.phase.due) =
      total ((m.run schedule).workers.map fun w =>
        w.entered.length / p.settings.advanceInterval)

theorem filling_nil (h : ∀ program ∈ programs, Feeding program) :
    (ofPrograms p programs).Filling p programs [] := by
  have hworker : ∀ w ∈ ((ofPrograms p programs).run []).workers,
      ∃ program ∈ programs, Worker.register (Store.ofPlan p) program = w :=
    fun w hw => List.mem_map.1 hw
  have hnew : ∀ w ∈ ((ofPrograms p programs).run []).workers,
      w.entered = [] ∧ w.refused = 0 ∧ w.phase.due = 0 := by
    intro w hw
    obtain ⟨program, -, rfl⟩ := hworker w hw
    exact ⟨rfl, rfl, rfl⟩
  have hzero : ∀ f : Worker α → Nat, (∀ w ∈ ((ofPrograms p programs).run []).workers, f w = 0) →
      total (((ofPrograms p programs).run []).workers.map f) = 0 := fun f => total_map_eq_zero
  refine ⟨⟨rfl, rfl, rfl, rfl, rfl⟩, fun w hw => ?_, ?_, ?_, fun hne => ?_, ?_, fun w hw => ?_,
    rfl, rfl, fun _ => ?_⟩
  · obtain ⟨program, hprogram, rfl⟩ := hworker w hw
    exact ⟨(fun _ h => by cases h), rfl, rfl, .resting rfl (h program hprogram)⟩
  · exact (List.map_map).trans (List.map_id _)
  · refine (Nat.zero_add _).trans (congrArg total ?_)
    exact List.map_map.trans (List.map_congr_left fun program _ =>
      Worker.lacking_ready (Context.register (Store.ofPlan p)) program [] [])
  · exact absurd (hzero _ fun w hw => (hnew w hw).2.1) hne
  · rw [List.flatMap_eq_nil_iff.2 fun w hw => (hnew w hw).1]
    exact .nil
  · rw [(hnew w hw).1]
    exact .slnil
  · rw [hzero _ fun w hw => (hnew w hw).2.2, hzero _ fun w hw => ?_]
    · rfl
    · rw [(hnew w hw).1]
      exact Nat.zero_div _

/-- A thread that still lacks a node for a value either finds room, or has no other value up. -/
theorem Filling.room (h : m.Filling p programs schedule) (hfits : Fitting p programs)
    {w : Worker α} (hw : w ∈ (m.run schedule).workers) :
    (m.run schedule).store.arena.fresh < (m.run schedule).store.arena.capacity ∨
      w.phase.lacking w.given.length = 0 ∨ w.given.length ≤ 1 := by
  rcases hfits.room with hroom | hsingle
  · by_cases hlacking : w.phase.lacking w.given.length = 0
    · exact .inr (.inl hlacking)
    · have hown := le_total_map (fun w => w.lacking + w.refused) hw
      have hbalance := h.balance
      have hle : w.phase.lacking w.given.length ≤ w.lacking := Nat.le_add_right _ _
      rw [h.growing.capacity]
      exact .inl (by omega)
  · right
    right
    have hprogram : w.calls ∈ programs := h.calls ▸ List.mem_map_of_mem hw
    cases hcalls : w.program with
    | nil =>
      rw [Worker.given, hcalls]
      exact Nat.zero_le 1
    | cons call rest =>
      rw [Worker.given_of_program hcalls]
      apply hsingle _ hprogram
      rw [Worker.calls, hcalls]
      exact List.mem_append_right _ List.mem_cons_self

/-- A thread has published no more lists than there are values. -/
theorem Filling.length_entered_le (h : m.Filling p programs schedule)
    (hfits : Fitting p programs) {w : Worker α} (hw : w ∈ (m.run schedule).workers) :
    w.entered.length ≤ Call.size w.calls := by
  have hprogram : w.calls ∈ programs := h.calls ▸ List.mem_map_of_mem hw
  exact Nat.le_trans (h.feeders w hw).stage.entered_sublist.length_le
    (hfits.feeding _ hprogram).length_lists_le

theorem Filling.total_calls (h : m.Filling p programs schedule) :
    total ((m.run schedule).workers.map fun w => Call.size w.calls) =
      total (programs.map Call.size) := by
  rw [← h.calls, List.map_map]
  rfl

theorem Filling.skip (h : m.Filling p programs schedule)
    (hnone : (m.run schedule).workers[worker]? = none) (spurious : Bool) :
    m.Filling p programs (schedule ++ [(worker, spurious)]) := by
  have hswings : m.swings (schedule ++ [(worker, spurious)]) = m.swings schedule := by
    simp only [swings_append, swings, swing, hnone, List.append_nil]
  obtain ⟨hgrowing, hfeeders, hcalls, hbalance, hrefused, hentered, hordered, hreplay, hhanded,
    hepoch⟩ := h
  rw [handedOut_eq_logged] at hhanded
  constructor <;> simpa only [hswings, handedOut_eq_logged, published, logged_skip _ hnone,
    run_turn, step_none hnone]

theorem fresh_step (w : Worker α) (s : Store α) (spurious : Bool) :
    (w.step s spurious).1.arena.fresh = s.arena.fresh + (w.claimed s spurious).length := by
  have hrange := congrArg List.length (w.range_fresh s spurious)
  rwa [List.length_range, List.length_append, List.length_range] at hrange

theorem Filling.turn (h : m.Filling p programs schedule) (hfits : Fitting p programs)
    {w : Worker α} (hw : (m.run schedule).workers[worker]? = some w) {spurious : Bool}
    (hgranted : w.reserves = true → spurious = false) :
    m.Filling p programs (schedule ++ [(worker, spurious)]) := by
  have hmem := List.mem_of_getElem? hw
  have hfeeder := h.feeders w hmem
  have hacc := hfeeder.step h.growing hgranted (h.room hfits hmem)
  have hpublished : m.published (schedule ++ [(worker, spurious)]) =
      m.published schedule ++ w.published (m.run schedule).store spurious := logged_turn _ hw _
  have hrun : m.run (schedule ++ [(worker, spurious)]) =
      ⟨(w.step (m.run schedule).store spurious).1, (m.run schedule).workers.set worker
        (w.step (m.run schedule).store spurious).2⟩ := by
    rw [run_turn, step, hw]
  have hfresh := fresh_step w (m.run schedule).store spurious
  have hgrowing := hfeeder.stage.growing_step h.growing spurious
  obtain ⟨hturns, -, hreused, hdeed⟩ := hfeeder.stage.aside (m.run schedule).store spurious
  rw [h.growing.settings] at hacc
  generalize (w.step (m.run schedule).store spurious).2 = v at hacc hrun
  have hsum := fun f => total_map_set f hw v
  constructor
  · rw [hrun]
    exact hgrowing
  · rw [hrun]
    intro x hx
    rcases List.mem_or_eq_of_mem_set hx with hx | rfl
    · exact h.feeders x hx
    · exact hacc.feeder
  · rw [hrun]
    exact (map_set_eq hw hacc.calls).trans h.calls
  · rw [hrun]
    have hsum := hsum fun w => w.lacking + w.refused
    have hlacking := hacc.lacking
    have hbalance := h.balance
    dsimp only at hsum ⊢
    omega
  · rw [hrun]
    intro hne
    have hfull : (m.run schedule).store.arena.capacity ≤ (m.run schedule).store.arena.fresh := by
      by_cases hv : v.refused = w.refused
      · have hsum := hsum Worker.refused
        dsimp only at hne
        exact h.refused (by omega)
      · exact hacc.refused hv
    rw [h.growing.capacity] at hfull
    rw [hgrowing.capacity, hfresh]
    exact Nat.le_trans hfull (Nat.le_add_right _ _)
  · rw [hrun, hpublished]
    exact (h.entered.append_right _).trans (flatMap_set_append_perm hw hacc.entered).symm
  · rw [hrun, hpublished]
    intro x hx
    rcases List.mem_or_eq_of_mem_set hx with hx | rfl
    · exact (h.ordered x hx).trans (List.sublist_append_left _ _)
    · rw [hacc.entered]
      exact (h.ordered w hmem).append (List.Sublist.refl _)
  · rw [hpublished, List.flatten_append, List.reverse_append, ← h.replay, swings_append,
      Swing.replay_append]
    simp only [swings, swing, hw, List.append_nil, Worker.published]
    cases hd : w.deed? (m.run schedule).store spurious with
    | none => rfl
    | some deed =>
      cases deed with
      | put given => exact congrArg (·.reverse ++ _) (List.append_nil given).symm
      | take => exact absurd hd hdeed
  · rw [handedOut_eq_logged, logged_turn _ hw, ← handedOut_eq_logged, h.handed, hrun,
      w.range_fresh, Worker.toList_handOut?, hreused]
    rfl
  · intro hlt
    have hepoch := h.epoch hlt
    have hentered := h.length_entered_le hfits hmem
    have hcalls := le_total_map (fun w => Call.size w.calls) hmem
    have htotal := h.total_calls
    have hdue := hacc.due (by omega)
    have hdivs : total ((m.run schedule).workers.map fun w =>
        w.entered.length / p.settings.advanceInterval) ≤
          total ((m.run schedule).workers.map fun w => Call.size w.calls) :=
      List.sum_le_sum fun w hw => Nat.le_trans (Nat.div_le_self _ _) (h.length_entered_le hfits hw)
    obtain ⟨-, -, hstep, -⟩ := w.plan_step (m.run schedule).store spurious
    rw [w.phase.repeat_due (by omega)] at hstep
    have hsumdue := hsum fun w => w.phase.due
    have hsumdiv := hsum fun w => w.entered.length / p.settings.advanceInterval
    rw [hrun, hstep]
    dsimp only at hsumdue hsumdiv ⊢
    omega

theorem filling_run (hfits : Fitting p programs) (schedule : List (Nat × Bool))
    (hgranted : (ofPrograms p programs).denied schedule = []) :
    (ofPrograms p programs).Filling p programs schedule := by
  induction schedule using List.reverseRecOn with
  | nil => exact filling_nil hfits.feeding
  | append_singleton schedule turn ih =>
    obtain ⟨worker, spurious⟩ := turn
    cases hw : ((ofPrograms p programs).run schedule).workers[worker]? with
    | none =>
      rw [denied, logged_skip _ hw] at hgranted
      exact (ih hgranted).skip hw spurious
    | some w =>
      rw [denied, logged_turn _ hw] at hgranted
      obtain ⟨hbefore, hnow⟩ := List.append_eq_nil_iff.1 hgranted
      refine (ih hbefore).turn hfits hw fun hreserves => ?_
      rw [hreserves] at hnow
      cases spurious with
      | false => rfl
      | true => cases hnow

/-- A thread that is done has no call under way and none to come. -/
theorem rests_of_isIdle {w : Worker α} (hidle : m.isIdle = true) (hw : w ∈ m.workers) :
    w.lacking = 0 ∧ w.phase.due = 0 ∧ w.calls = w.records.reverse.map CallRecord.call ∧
      w.entered = w.records.reverse.flatMap CallRecord.entered := by
  have hdone : w.isIdle = true := List.all_eq_true.1 hidle w hw
  have hready := w.phase_of_isIdle hdone
  have hprogram : w.program = [] := by
    unfold Worker.isIdle at hdone
    split at hdone
    · assumption
    · cases hdone
  refine ⟨?_, ?_, ?_, ?_⟩
  · rw [Worker.lacking, Worker.given, hready, hprogram]
    rfl
  · rw [hready]
    rfl
  · rw [Worker.calls, hprogram]
    exact List.append_nil _
  · apply Worker.entered_of_role
    rw [hready]
    exact fun h => by cases h

section

variable (h : m.Filling p programs schedule) (hidle : (m.run schedule).isIdle = true)

include h hidle

theorem Filling.fresh_add_refused :
    (m.run schedule).store.arena.fresh + total ((m.run schedule).workers.map Worker.refused) =
      total (programs.map Call.size) := by
  have hmap : (m.run schedule).workers.map (fun w => w.lacking + w.refused) =
      (m.run schedule).workers.map Worker.refused :=
    List.map_congr_left fun w hw => by rw [(rests_of_isIdle hidle hw).1, Nat.zero_add]
  rw [← h.balance, hmap]

/-- As long as nothing was refused, everything was published. -/
theorem Filling.map_entered (hrefused : total ((m.run schedule).workers.map Worker.refused) = 0) :
    (m.run schedule).workers.map Worker.entered = programs.map Call.lists := by
  rw [← h.calls, List.map_map]
  refine List.map_congr_left fun w hw => ?_
  obtain ⟨-, -, hcalls, hentered⟩ := rests_of_isIdle hidle hw
  have hnone := eq_zero_of_total hrefused (List.mem_map_of_mem hw)
  rw [Function.comp_apply, hcalls, hentered, (h.feeders w hw).lists_records hnone]

/-- Every value was published or refused. -/
theorem Filling.entered_add_refused :
    ((m.run schedule).workers.flatMap Worker.entered).flatten.length +
      total ((m.run schedule).workers.map Worker.refused) = total (programs.map Call.size) := by
  rw [List.flatMap_def, List.flatten_flatten, List.length_flatten, List.map_map, List.map_map,
    total_eq_sum, ← List.sum_map_add, ← h.total_calls]
  refine congrArg List.sum (List.map_congr_left fun w hw => ?_)
  obtain ⟨-, -, hcalls, hentered⟩ := rests_of_isIdle hidle hw
  rw [Function.comp_apply, Function.comp_apply, hcalls, hentered, (h.feeders w hw).size_records]

theorem Filling.epoch_eq (hlt : total (programs.map Call.size) + 1 < fullWord) :
    (m.run schedule).store.epoch = total ((m.run schedule).workers.map fun w =>
      w.entered.length / p.settings.advanceInterval) := by
  have hdue : total ((m.run schedule).workers.map fun w => w.phase.due) = 0 :=
    total_map_eq_zero fun w hw => (rests_of_isIdle hidle hw).2.1
  rw [← h.epoch hlt, hdue, Nat.add_zero]

end

theorem Filling.failures_le (h : m.Filling p programs schedule) :
    (m.run schedule).failures ≤ total ((m.run schedule).workers.map Worker.refused) :=
  List.sum_le_sum fun w hw => (h.feeders w hw).failures_le

/-- With room for everything nothing is refused, also while threads are still at work. -/
theorem Filling.refused_eq_zero (h : m.Filling p programs schedule)
    (hroom : total (programs.map Call.size) ≤ (Store.ofPlan p : Store α).arena.capacity) :
    total ((m.run schedule).workers.map Worker.refused) = 0 := by
  have hle : total ((m.run schedule).workers.map Worker.refused) ≤
      total ((m.run schedule).workers.map fun w => w.lacking + w.refused) :=
    List.sum_le_sum fun w _ => Nat.le_add_left _ _
  have hbalance := h.balance
  by_contra hsome
  have hfull := h.refused hsome
  rw [h.growing.capacity] at hfull
  omega

theorem Filling.refused_le (h : m.Filling p programs schedule)
    (hsingle : ∀ program ∈ programs, ∀ call ∈ program, call.values.length ≤ 1) :
    total ((m.run schedule).workers.map Worker.refused) ≤ (m.run schedule).failures := by
  refine List.sum_le_sum fun w hw => w.refused_le fun record hrecord => ?_
  refine hsingle w.calls (h.calls ▸ List.mem_map_of_mem hw) record.call ?_
  exact List.mem_append_left _ (List.mem_map_of_mem (List.mem_reverse.2 hrecord))

/-- What is on the stack. No index was claimed twice, so that no slot was handed out too often for
its generations. -/
theorem Filling.holds (h : (ofPrograms p programs).Filling p programs schedule) :
    ((ofPrograms p programs).run schedule).store.Holds
        ((ofPrograms p programs).published schedule).flatten.reverse ∧
      ((ofPrograms p programs).run schedule).store.arena.Sound := by
  obtain ⟨L, crew, live, hcrewed, hfollows⟩ := follows_run p programs schedule fun i => by
    rw [h.handed]
    exact Nat.lt_of_le_of_lt (List.nodup_iff_count_le_one.1 List.nodup_range i) (by decide)
  rw [← h.replay, ← hfollows.values, hcrewed.stack, Strand.values, Load.values_strand]
  exact ⟨hcrewed.holds, hcrewed.laid.sound⟩

/-- All values are on the stack: each index claimed has one, and the epoch was advanced by each
thread as often as its pieces make up an interval. A thread's values lie in the reverse of the order
in which it pushed them, and those of one piece together. -/
structure Filled (m : Machine α) (interval : Nat) (batch : Option Nat) (n : Nat)
    (values : List (List α)) : Prop where
  failures : m.failures = 0
  allocated : m.store.arena.fresh = values.length * n
  epoch : m.store.epoch = values.length * (pieceCount batch n / interval)
  holds : m.store.Holds m.store.values
  exactly : m.store.values.Perm values.flatten
  ordered : ∀ own ∈ values, own.reverse.Sublist m.store.values
  whole : ∀ own ∈ values, ∀ piece ∈ pieces batch own, piece.reverse <:+: m.store.values

/-- More values than the arena has slots: the rest is refused, and what was not is on the stack. -/
structure Overfilled (m : Machine α) (capacity n : Nat) (values : List (List α)) : Prop where
  failures : m.failures = values.length * n - capacity
  allocated : m.store.arena.fresh = capacity
  holds : m.store.Holds m.store.values
  count : m.store.values.length = capacity
  exactly : m.store.values.Perm
    (m.workers.flatMap fun w => w.records.reverse.flatMap CallRecord.entered).flatten

section

variable {batch : Option Nat} {n : Nat} {values : List (List α)}

theorem Filling.filled (h : (ofPrograms p programs).Filling p programs schedule)
    (hidle : ((ofPrograms p programs).run schedule).isIdle = true) (hbatch : batch ≠ some 0)
    (hlength : ∀ own ∈ values, own.length = n)
    (hprograms : List.Forall₂ (Fills batch) values programs)
    (hroom : values.length * n ≤ (Store.ofPlan p : Store α).arena.capacity) :
    ((ofPrograms p programs).run schedule).Filled p.settings.advanceInterval batch n values := by
  obtain ⟨hholds, hsound⟩ := h.holds
  have htotal := total_size_fills hprograms hlength
  have hbalance := h.fresh_add_refused hidle
  have hcapacity := h.growing.capacity
  have hnone := h.refused_eq_zero (htotal ▸ hroom)
  have hentered := h.map_entered hidle hnone
  rw [map_lists_fills hprograms] at hentered
  have hmem : ∀ own ∈ values, (pieces batch own).Sublist
      ((ofPrograms p programs).published schedule) := by
    intro own hown
    obtain ⟨w, hw, hpieces⟩ := List.mem_map.1 (hentered ▸ List.mem_map_of_mem hown)
    exact hpieces ▸ h.ordered w hw
  have hvalues := hholds.values_eq
  refine ⟨Nat.le_zero.1 (hnone ▸ h.failures_le), by omega, ?_, hvalues.symm ▸ hholds, ?_,
    fun own hown => ?_, fun own hown piece hpiece => ?_⟩
  · have hlt : maxCapacity + 1 < fullWord := by decide
    have hle := hsound.capacity_le
    have hmap := congrArg (List.map fun lists => lists.length / p.settings.advanceInterval) hentered
    rw [List.map_map, List.map_map] at hmap
    refine (h.epoch_eq hidle (by omega)).trans ((congrArg total hmap).trans ?_)
    refine total_map_const fun own hown => ?_
    rw [Function.comp_apply, length_pieces hbatch, hlength own hown]
  · rw [hvalues]
    refine (List.reverse_perm _).trans (h.entered.flatten.trans (.of_eq ?_))
    rw [List.flatMap_def, hentered, List.flatten_flatten, List.map_map]
    exact congrArg List.flatten ((List.map_congr_left fun own _ => flatten_pieces batch own).trans
      (List.map_id values))
  · rw [hvalues, ← flatten_pieces batch own]
    exact (hmem own hown).flatten.reverse
  · rw [hvalues]
    exact List.reverse_infix.2 (List.infix_of_mem_flatten ((hmem own hown).subset hpiece))

theorem Filling.overfilled (h : (ofPrograms p programs).Filling p programs schedule)
    (hidle : ((ofPrograms p programs).run schedule).isIdle = true)
    (hlength : ∀ own ∈ values, own.length = n)
    (hprograms : List.Forall₂ (Fills none) values programs)
    (hfull : (Store.ofPlan p : Store α).arena.capacity < values.length * n) :
    ((ofPrograms p programs).run schedule).Overfilled (Store.ofPlan p : Store α).arena.capacity n
      values := by
  obtain ⟨hholds, hsound⟩ := h.holds
  have htotal := total_size_fills hprograms hlength
  have hbalance := h.fresh_add_refused hidle
  have hcapacity := h.growing.capacity
  have hle := hsound.fresh_le
  have hfresh := h.refused (by omega)
  have hfailures := h.failures_le
  have hrefused := h.refused_le fun program hprogram call hcall => by
    obtain ⟨own, -, hfills⟩ := exists_fills hprograms hprogram
    exact hfills.length_le_one hcall
  have hvalues := hholds.values_eq
  have hexactly : ((ofPrograms p programs).run schedule).store.values.Perm
      (((ofPrograms p programs).run schedule).workers.flatMap Worker.entered).flatten := by
    rw [hvalues]
    exact (List.reverse_perm _).trans h.entered.flatten
  have hcount := hexactly.length_eq
  have hentered := h.entered_add_refused hidle
  refine ⟨by omega, by omega, hvalues.symm ▸ hholds, by omega, hexactly.trans (.of_eq ?_)⟩
  exact congrArg _ (List.flatMap_congr fun w hw => (rests_of_isIdle hidle hw).2.2.2)

end

/-- However the threads interleave, as long as memory is to be had: if there is room, no call fails
at any time, and when all are done everything is on the stack; of single pushes too many, as many
fail in the end as there are values too many. -/
theorem filled_run (p : Plan) {batch : Option Nat} (hbatch : batch ≠ some 0) {n : Nat}
    {values : List (List α)} (hlength : ∀ own ∈ values, own.length = n)
    {programs : List (List (Call α))} (hprograms : List.Forall₂ (Fills batch) values programs)
    {schedule : List (Nat × Bool)} (hgranted : (ofPrograms p programs).denied schedule = []) :
    (values.length * n ≤ (Store.ofPlan p : Store α).arena.capacity →
      ((ofPrograms p programs).run schedule).failures = 0 ∧
        (((ofPrograms p programs).run schedule).isIdle = true →
          ((ofPrograms p programs).run schedule).Filled p.settings.advanceInterval batch n
            values)) ∧
    ((Store.ofPlan p : Store α).arena.capacity < values.length * n → batch = none →
      ((ofPrograms p programs).run schedule).isIdle = true →
        ((ofPrograms p programs).run schedule).Overfilled
          (Store.ofPlan p : Store α).arena.capacity n values) := by
  have hfeeding : ∀ program ∈ programs, Feeding program := by
    intro program hprogram
    obtain ⟨own, -, hfills⟩ := exists_fills hprograms hprogram
    exact hfills.feeding
  have htotal := total_size_fills hprograms hlength
  constructor
  · intro hroom
    have hfilling := filling_run ⟨hfeeding, .inl (htotal ▸ hroom)⟩ schedule hgranted
    refine ⟨?_, fun hidle => hfilling.filled hidle hbatch hlength hprograms hroom⟩
    exact Nat.le_zero.1 (hfilling.refused_eq_zero (htotal ▸ hroom) ▸ hfilling.failures_le)
  · rintro hfull rfl hidle
    have hfits : Fitting p programs := ⟨hfeeding, .inr fun program hprogram call hcall => by
      obtain ⟨own, -, hfills⟩ := exists_fills hprograms hprogram
      exact hfills.length_le_one hcall⟩
    exact (filling_run hfits schedule hgranted).overfilled hidle hlength hprograms hfull

def cramped (slots : Nat) : Plan := ⟨⟨1, 1, some 0⟩, some slots⟩

def batched : List (List (Call Nat)) :=
  [[.pushBatch [1, 2], .pushBatch [3]], [.pushBatch [4, 5], .pushBatch [6], .leave]]

def single : List (List (Call Nat)) := [[.push 1, .push 2], [.push 3, .push 4, .leave]]

/-- Two threads that get in each other's way, one of which fails now and then for no reason. -/
def entwined : List (Nat × Bool) :=
  (List.replicate 30 [(0, false), (1, false), (1, false), (0, false), (1, true)]).flatten

theorem filled_entwined :
    ((ofPrograms (cramped 6) batched).denied entwined = [] ∧
      ((ofPrograms (cramped 6) batched).run entwined).isIdle = true ∧
      ((ofPrograms (cramped 6) batched).run entwined).Filled 1 (some 2) 3
        [[1, 2, 3], [4, 5, 6]]) ∧
    ((ofPrograms (cramped 3) single).denied entwined = [] ∧
      ((ofPrograms (cramped 3) single).run entwined).isIdle = true ∧
      ((ofPrograms (cramped 3) single).run entwined).Overfilled 3 2 [[1, 2], [3, 4]]) := by
  have hgranted : (ofPrograms (cramped 6) batched).denied entwined = [] := by decide +kernel
  have hidle : ((ofPrograms (cramped 6) batched).run entwined).isIdle = true := by decide +kernel
  have hgranted' : (ofPrograms (cramped 3) single).denied entwined = [] := by decide +kernel
  have hidle' : ((ofPrograms (cramped 3) single).run entwined).isIdle = true := by decide +kernel
  have hbatched : List.Forall₂ (Fills (some 2)) [[1, 2, 3], [4, 5, 6]] batched :=
    .cons (.inl rfl) (.cons (.inr rfl) .nil)
  have hsingle : List.Forall₂ (Fills none) [[1, 2], [3, 4]] single :=
    .cons (.inl rfl) (.cons (.inr rfl) .nil)
  exact ⟨⟨hgranted, hidle, ((filled_run (cramped 6) (by decide) (n := 3) (by decide) hbatched
      hgranted).1 (by decide)).2 hidle⟩,
    ⟨hgranted', hidle', (filled_run (cramped 3) (by decide) (n := 2) (by decide) hsingle
      hgranted').2 (by decide) rfl hidle'⟩⟩

end Machine

end RecyclingStack
