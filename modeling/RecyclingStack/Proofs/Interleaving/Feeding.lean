import Mathlib.Algebra.Order.BigOperators.Group.List
import Mathlib.Algebra.Order.Ring.Nat
import RecyclingStack.Proofs.Interleaving.Shutdown

/-! Threads that only put values on the stack. Every value needs an index never used. At each moment
a thread itself tells which values have none yet, which were refused, what it has published, and
whether it is about to advance the epoch. -/
namespace RecyclingStack

theorem total_eq_sum (numbers : List Nat) : total numbers = numbers.sum := rfl

theorem eq_zero_of_total {numbers : List Nat} (h : total numbers = 0) {n : Nat}
    (hn : n ∈ numbers) : n = 0 := List.sum_eq_zero_iff.1 h n hn

section

variable {α : Type}

/-- A program that only puts values on the stack, and may leave in the end. -/
inductive Feeding : List (Call α) → Prop
  | nil : Feeding []
  | leave : Feeding [.leave]
  | push {call : Call α} {rest : List (Call α)} (push : call.isPush = true)
      (values : call.values ≠ []) (more : Feeding rest) : Feeding (call :: rest)

def Call.size (program : List (Call α)) : Nat :=
  total (program.map fun call => call.values.length)

def Call.lists (program : List (Call α)) : List (List α) :=
  (program.filter Call.isPush).map Call.values

theorem Call.lists_append (program more : List (Call α)) :
    Call.lists (program ++ more) = Call.lists program ++ Call.lists more := by
  rw [lists, List.filter_append, List.map_append]
  rfl

theorem Call.lists_cons (call : Call α) (rest : List (Call α)) :
    Call.lists (call :: rest) = (if call.isPush then [call.values] else []) ++ Call.lists rest := by
  rw [lists, List.filter_cons]
  split <;> rfl

/-- Every push or batch of a feeding program has a value at least. -/
theorem Feeding.length_lists_le {program : List (Call α)} (h : Feeding program) :
    (Call.lists program).length ≤ Call.size program := by
  induction h with
  | nil | leave => exact Nat.le_refl 0
  | @push call rest push values more ih =>
    have hpos := List.length_pos_of_ne_nil values
    have hsize : Call.size (call :: rest) = call.values.length + Call.size rest := rfl
    rw [Call.lists_cons, if_pos push, List.length_append, List.length_singleton, hsize]
    omega

/-- The values of a call that still lack an index, with one of them up now. They are all the values
given if the private chain has no node yet. -/
structure Job.Lacks (job : Job α) (given : Nat) : Prop where
  whole : job.first = .nil → job.rest.length + 1 = given
  begun : job.first ≠ .nil → job.rest.length + 1 < given

theorem Job.Lacks.lt {job : Job α} {given : Nat} (h : job.Lacks given) :
    job.rest.length < given := by
  by_cases hfirst : job.first = .nil
  · exact Nat.lt_of_succ_le (Nat.le_of_eq (h.whole hfirst))
  · exact Nat.lt_of_succ_lt (h.begun hfirst)

/-- The phases that a push or a batch of so many values goes through while no slot is free, memory
is to be had, and the stack is not shut down. -/
def Phase.Feeds (given : Nat) : Phase α → Prop
  | .find _ after => after.Feeds given ∧ after.role = .loading
  | .loadFree job _ | .loadFresh job _ | .checkSegment job _ _ | .installSegment job _ _
  | .claimFresh job _ _ => job.Lacks given
  | .loadGeneration job _ _ | .storeGeneration job _ _ _ => job.rest.length < given
  | .clearNext job _ node | .clearTag job _ node | .linkNode job node =>
    node ≠ .nil ∧ job.rest.length < given
  | .loadHead _ _ | .checkShutdown _ _ _ | .linkLast _ _ _ | .swingHead _ _ _ => True
  | .bumpEpoch after | .loadOrphans after | .loadEpoch after => after = .complete .done
  | _ => False

/-- How many values of the call under way have no index yet. -/
def Phase.lacking (given : Nat) : Phase α → Nat
  | .ready => given
  | .find _ after => after.lacking given
  | .loadFree job _ | .loadFresh job _ | .checkSegment job _ _ | .installSegment job _ _
  | .claimFresh job _ _ => job.rest.length + 1
  | .loadGeneration job _ _ | .storeGeneration job _ _ _ | .clearNext job _ _ | .clearTag job _ _
  | .linkNode job _ => job.rest.length
  | _ => 0

theorem Phase.due_of_role {phase : Phase α} (h : phase.role = .loading) : phase.due = 0 := by
  cases phase with
  | bumpEpoch after => exact absurd h (after.role_ne rfl)
  | _ => rfl

namespace CallRecord

def entered (record : CallRecord α) : List (List α) :=
  match record.answer with
  | .done => if record.call.isPush then [record.call.values] else []
  | _ => []

def refused (record : CallRecord α) : Nat :=
  match record.answer with
  | .exhausted _ => record.call.values.length
  | _ => 0

/-- How a call of a feeding program can end. -/
inductive Over (record : CallRecord α) : Prop where
  | entered (push : record.call.isPush = true) (answer : record.answer = .done)
  | refused (values : record.call.values ≠ []) (failure : Exhausted)
      (answer : record.answer = .exhausted failure)
  | left (call : record.call = .leave) (answer : record.answer = .done)

end CallRecord

namespace Worker

def calls (w : Worker α) : List (Call α) := w.records.reverse.map CallRecord.call ++ w.program

def lacking (w : Worker α) : Nat := w.phase.lacking w.given.length + Call.size w.program.tail

def refused (w : Worker α) : Nat := total (w.records.map CallRecord.refused)

theorem refused_cons (record : CallRecord α) (records : List (CallRecord α)) :
    total ((record :: records).map CallRecord.refused) =
      record.refused + total (records.map CallRecord.refused) := rfl

def entered (w : Worker α) : List (List α) :=
  w.records.reverse.flatMap CallRecord.entered ++
    if w.phase.role = .closing then [w.given] else []

def reserves (w : Worker α) : Bool :=
  match w.phase with
  | .installSegment _ _ _ => true
  | _ => false

/-- The call under way puts values on the stack, and those after it form a feeding program. -/
structure Pushes (w : Worker α) (call : Call α) (rest : List (Call α)) : Prop where
  program : w.program = call :: rest
  push : call.isPush = true
  values : call.values ≠ []
  more : Feeding rest

/-- Where a thread with a feeding program stands. -/
inductive Feeds (w : Worker α) : Prop where
  | resting (ready : w.phase = .ready) (program : Feeding w.program)
  | pushing {call : Call α} {rest : List (Call α)} (pushes : w.Pushes call rest)
      (phase : w.phase.Feeds call.values.length)
  | leaving (program : w.program = [.leave])
      (phase : w.phase = .loadOrphans .leave ∨ w.phase = .loadEpoch .leave)

/-- A thread with a feeding program that has nothing deferred and counts what it publishes. -/
structure Feeder (w : Worker α) : Prop where
  ended : ∀ record ∈ w.records, record.Over
  deferred : w.context.deferred = RetireList.empty
  ops : w.context.ops = w.entered.length % fullWord
  stage : w.Feeds

/-- What an access does to the account of a feeding thread: it publishes the lists `put`, takes so
many indices never used, and refuses values only if the arena is full. -/
structure Accounts (w v : Worker α) (interval : Nat) (put : List (List α)) (claims : Nat)
    (full : Prop) : Prop where
  feeder : v.Feeder
  calls : v.calls = w.calls
  entered : v.entered = w.entered ++ put
  lacking : v.lacking + v.refused + claims = w.lacking + w.refused
  refused : v.refused ≠ w.refused → full
  due : w.entered.length + 1 < fullWord →
    v.entered.length / interval = w.entered.length / interval + v.phase.due

end Worker

end

namespace Store

variable {α : Type}

/-- A stack with this plan from which nothing was ever taken. -/
structure Growing (s : Store α) (p : Plan) : Prop where
  free : s.pool.free = .nil
  orphans : s.orphans = .nil
  up : s.shutdown = false
  settings : s.settings = p.settings
  capacity : s.arena.capacity = (ofPlan p : Store α).arena.capacity

end Store

namespace Worker

variable {α : Type} {w v : Worker α} {s : Store α} {call : Call α} {rest : List (Call α)}
  {spurious : Bool} {interval claims : Nat} {full : Prop}

theorem given_of_program (h : w.program = call :: rest) : w.given = call.values := by
  rw [given, h]

theorem remaining_of_push (h : call.isPush = true) : remaining call rest = rest := by
  cases call with
  | push | pushBatch => rfl
  | _ => cases h

/-- The thread goes on with its call, and neither publishes nor is about to advance the epoch. -/
theorem Feeder.goes (h : w.Feeder) {phase : Phase α} (hstage : (w.goto phase).Feeds)
    (hrole : phase.role = .closing ↔ w.phase.role = .closing) (hdue : phase.due = 0)
    (hlacking : phase.lacking w.given.length + claims = w.phase.lacking w.given.length) :
    w.Accounts (w.goto phase) interval [] claims full := by
  have hentered : (w.goto phase).entered = w.entered := by
    rw [entered, entered, ← if_congr hrole rfl rfl]
    rfl
  refine ⟨⟨h.ended, h.deferred, hentered ▸ h.ops, hstage⟩, rfl,
    hentered.trans (List.append_nil _).symm, ?_, fun hne => absurd rfl hne, fun _ => ?_⟩
  · have hgoto : (w.goto phase).lacking =
        phase.lacking w.given.length + Call.size w.program.tail := rfl
    have hrefused : (w.goto phase).refused = w.refused := rfl
    rw [hgoto, hrefused, lacking, ← hlacking]
    omega
  · rw [hentered]
    exact (Nat.add_zero _).symm.trans (congrArg _ hdue.symm)

theorem Feeder.on (h : w.Feeder) (hw : w.Pushes call rest) {phase : Phase α}
    (hphase : phase.Feeds call.values.length)
    (hrole : phase.role = .closing ↔ w.phase.role = .closing) (hdue : phase.due = 0)
    (hlacking : phase.lacking call.values.length + claims =
      w.phase.lacking call.values.length) :
    w.Accounts (w.goto phase) interval [] claims full := by
  have hpushes : (w.goto phase).Pushes call rest := ⟨hw.program, hw.push, hw.values, hw.more⟩
  rw [← given_of_program hw.program] at hlacking
  exact h.goes (.pushing hpushes hphase) hrole hdue hlacking

theorem finish_eq (hprogram : w.program = call :: rest) (hrest : remaining call rest = rest)
    (context : Context) (dropped : List α) (answer : CallAnswer α) :
    { w with context, dropped }.finish answer =
      ⟨context, rest, .ready, [], ⟨call, answer, dropped.reverse⟩ :: w.records⟩ := by
  simp only [finish, hprogram, hrest]

theorem lacking_ready (context : Context) (program : List (Call α)) (dropped : List α)
    (records : List (CallRecord α)) :
    lacking ⟨context, program, .ready, dropped, records⟩ = Call.size program := by
  cases program <;> rfl

/-- The call under way is over. -/
theorem Feeder.ends {record : CallRecord α} {context : Context} {put : List (List α)}
    (h : w.Feeder) (hprogram : w.program = record.call :: rest) (hover : record.Over)
    (hmore : Feeding rest) (hdeferred : context.deferred = RetireList.empty)
    (hops : context.ops = (w.entered ++ put).length % fullWord)
    (hentered : w.records.reverse.flatMap CallRecord.entered ++ record.entered = w.entered ++ put)
    (hlacking : record.refused = w.phase.lacking record.call.values.length)
    (hfull : record.refused ≠ 0 → full)
    (hdue : w.entered.length + 1 < fullWord →
      (w.entered ++ put).length / interval = w.entered.length / interval) :
    w.Accounts ⟨context, rest, .ready, [], record :: w.records⟩ interval put 0 full := by
  generalize hv : (⟨context, rest, .ready, [], record :: w.records⟩ : Worker α) = v
  have hput : v.entered = w.entered ++ put := by
    rw [← hentered, ← hv, entered, List.reverse_cons, List.flatMap_append, List.flatMap_singleton]
    exact List.append_nil _
  have hrefused : v.refused = record.refused + w.refused := by
    rw [← hv]
    rfl
  refine ⟨⟨?_, ?_, ?_, ?_⟩, ?_, hput, ?_, fun hne => ?_, fun hlt => ?_⟩
  · rw [← hv]
    exact List.forall_mem_cons.2 ⟨hover, h.ended⟩
  · rw [← hv]
    exact hdeferred
  · rw [hput, ← hops, ← hv]
  · rw [← hv]
    exact .resting rfl hmore
  · rw [← hv, calls, calls, hprogram, List.reverse_cons, List.map_append, List.append_assoc]
    rfl
  · rw [hrefused, ← hv, lacking_ready, lacking, hprogram, given_of_program hprogram, ← hlacking,
      List.tail_cons]
    omega
  · apply hfull
    intro hzero
    rw [hrefused, hzero, Nat.zero_add] at hne
    exact hne rfl
  · rw [hput, ← hv]
    exact hdue hlt

theorem Feeder.accounts_start (h : w.Feeder) (hready : w.phase = .ready)
    (hprogram : Feeding w.program) : w.Accounts w.start interval [] 0 full := by
  have hgiven : ∀ {n}, Phase.lacking n w.phase = n := by
    intro n
    rw [hready]
    rfl
  have hrole : w.phase.role ≠ .closing := by
    rw [hready]
    exact fun h => by cases h
  generalize hcalls : w.program = program at hprogram
  rw [start, hcalls]
  cases hprogram with
  | nil =>
    refine ⟨h, rfl, (List.append_nil _).symm, rfl, fun hne => absurd rfl hne, fun _ => ?_⟩
    rw [hready]
    rfl
  | leave =>
    refine h.goes (.leaving hcalls (.inl rfl)) (iff_of_false (fun h => by cases h) hrole) rfl ?_
    rw [hgiven, given_of_program hcalls]
    rfl
  | @push call rest push values more =>
    have hpushes : w.Pushes call rest := ⟨hcalls, push, values, more⟩
    have hload : ∀ (value : α) (later : List α) (linking : Bool), call.values = value :: later →
        w.Accounts (w.goto (.loadFree ⟨.nil, .nil, later, linking⟩ value)) interval [] 0 full := by
      intro value later linking hvalues
      have hlength : later.length + 1 = call.values.length := by
        rw [hvalues]
        rfl
      exact h.on hpushes ⟨fun _ => hlength, fun hne => absurd rfl hne⟩
        (iff_of_false (fun h => by cases h) hrole) rfl (hlength.trans hgiven.symm)
    cases call with
    | push value => exact hload value [] false rfl
    | pushBatch batch =>
      cases batch with
      | nil => exact absurd rfl values
      | cons value later => exact hload value later true rfl
    | _ => cases push

theorem Feeder.accounts_build (h : w.Feeder) (hw : w.Pushes call rest) {job : Job α}
    (hfirst : job.first ≠ .nil) (hrest : job.rest.length < call.values.length)
    (hrole : w.phase.role = .loading)
    (hlacking : job.rest.length = w.phase.lacking call.values.length) :
    w.Accounts (w.build job) interval [] 0 full := by
  have hloading : ∀ {phase : Phase α}, phase.role = .loading →
      (phase.role = .closing ↔ w.phase.role = .closing) := by
    intro phase hphase
    rw [hphase, hrole]
  unfold build
  split
  · rename_i value later hvalues
    rw [hvalues] at hrest hlacking
    exact h.on hw ⟨fun hnil => absurd hnil hfirst, fun _ => hrest⟩ (hloading rfl) rfl hlacking
  · rename_i hnil
    exact absurd hnil hfirst
  · rename_i hvalues _
    rw [hvalues] at hlacking
    exact h.on hw ⟨trivial, rfl⟩ (hloading rfl) rfl hlacking

theorem entered_of_role (h : w.phase.role ≠ .closing) :
    w.entered = w.records.reverse.flatMap CallRecord.entered := by
  rw [entered, if_neg h]
  exact List.append_nil _

theorem Feeder.accounts_takeFresh (h : w.Feeder) (hw : w.Pushes call rest) (capacity : Nat)
    {job : Job α} (value : α) (index : Nat) (hjob : job.Lacks call.values.length)
    (hroom : index < capacity ∨ call.values.length ≤ 1) (hrole : w.phase.role = .loading)
    (hlacking : w.phase.lacking call.values.length = job.rest.length + 1) :
    w.Accounts (w.takeFresh capacity job value index) interval [] 0 (capacity ≤ index) := by
  have hclosing : w.phase.role ≠ .closing := by
    rw [hrole]
    exact fun h => by cases h
  unfold takeFresh
  split
  · rename_i hfull
    have hfirst : job.first = .nil := by
      by_contra hbegun
      have := hjob.begun hbegun
      omega
    have hentered := w.entered_of_role hclosing
    rw [rollBack, foldl_drop, hfirst]
    dsimp only [drop]
    rw [finish_eq hw.program (remaining_of_push hw.push)]
    refine h.ends hw.program (.refused hw.values _ rfl) hw.more h.deferred ?_ ?_ ?_
      (fun _ => hfull) fun _ => ?_
    · rw [List.append_nil]
      exact h.ops
    · rw [hentered]
      rfl
    · exact (hlacking.trans (hjob.whole hfirst)).symm
    · rw [List.append_nil]
  · refine h.on hw hjob (iff_of_false (fun h => by cases h) hclosing) rfl hlacking.symm

theorem mustAdvance_iff (context : Context) (hdeferred : context.deferred = RetireList.empty)
    {settings : Settings} {ops : Nat} (hops : context.ops = ops + 1) :
    context.mustAdvance settings = true ↔ settings.advanceInterval ∣ ops + 1 := by
  have hpos : settings.advanceInterval ∣ ops + 1 → 0 < settings.advanceInterval :=
    fun hdvd => Nat.pos_of_dvd_of_pos hdvd (Nat.succ_pos ops)
  unfold Context.mustAdvance
  rw [hdeferred, hops]
  cases settings.retireThreshold <;>
    simpa [RetireList.empty, ← Nat.dvd_iff_mod_eq_zero] using hpos

theorem Feeder.accounts_complete (h : w.Feeder) (hw : w.Pushes call rest) (settings : Settings)
    (hrole : w.phase.role = .loading) (hlacking : w.phase.lacking call.values.length = 0) :
    w.Accounts (w.complete settings .done) settings.advanceInterval [call.values] 0 full := by
  have hentered : w.entered = w.records.reverse.flatMap CallRecord.entered :=
    entered_of_role (by rw [hrole]; exact fun h => by cases h)
  have hcount : w.context.count.ops = (w.entered ++ [call.values]).length % fullWord := by
    rw [Context.count, nextWord, h.ops, Nat.mod_add_mod, List.length_append]
    rfl
  have hmust : w.entered.length + 1 < fullWord → (w.context.count.mustAdvance settings = true ↔
      settings.advanceInterval ∣ w.entered.length + 1) := by
    intro hlt
    refine mustAdvance_iff w.context.count h.deferred (hcount.trans ?_)
    rw [List.length_append]
    exact Nat.mod_eq_of_lt hlt
  rw [complete]
  split
  · rename_i hadvance
    have hput : ({ w with context := w.context.count }.goto
        (.bumpEpoch (.complete .done))).entered = w.entered ++ [call.values] := by
      rw [hentered, ← given_of_program hw.program]
      rfl
    have hstage : ({ w with context := w.context.count }.goto
        (.bumpEpoch (.complete .done))).Feeds :=
      .pushing ⟨hw.program, hw.push, hw.values, hw.more⟩ rfl
    refine ⟨⟨h.ended, h.deferred, hput ▸ hcount, hstage⟩, rfl, hput, ?_,
      fun hne => absurd rfl hne, fun hlt => ?_⟩
    · rw [lacking, lacking, given_of_program hw.program, hlacking]
      rfl
    · rw [hput, List.length_append]
      exact Nat.succ_div_of_dvd ((hmust hlt).1 hadvance)
  · rename_i hadvance
    have hfinish := finish_eq hw.program (remaining_of_push hw.push) w.context.count w.dropped .done
    refine hfinish ▸ h.ends hw.program (.entered hw.push rfl) hw.more h.deferred hcount ?_
      hlacking.symm (fun hne => absurd rfl hne) fun hlt => ?_
    · rw [hentered, CallRecord.entered, if_pos hw.push]
    · rw [List.length_append]
      exact Nat.succ_div_of_not_dvd (mt (hmust hlt).2 hadvance)

/-- The end of a call that has published its values. -/
theorem Feeder.accounts_sweepOn (h : w.Feeder) (hw : w.Pushes call rest)
    (hphase : w.phase = .loadEpoch (.complete .done)) {context : Context}
    (hdeferred : context.deferred = RetireList.empty) (hops : context.ops = w.context.ops) :
    w.Accounts ({ w with context }.sweepOn 0 (.complete .done) []) interval [] 0 full := by
  have hentered : w.entered = w.records.reverse.flatMap CallRecord.entered ++ [call.values] := by
    rw [entered, hphase, given_of_program hw.program]
    rfl
  rw [sweepOn, afterSweep, finish_eq hw.program (remaining_of_push hw.push)]
  refine h.ends hw.program (.entered hw.push rfl) hw.more hdeferred ?_ ?_ ?_
    (fun hne => absurd rfl hne) fun _ => ?_
  · rw [List.append_nil, hops]
    exact h.ops
  · rw [List.append_nil, hentered, CallRecord.entered, if_pos hw.push]
  · rw [hphase]
    rfl
  · rw [List.append_nil]

/-- The last access of a thread that leaves. -/
theorem Feeder.accounts_leave (h : w.Feeder) (hw : w.program = [.leave])
    (hphase : w.phase = .loadEpoch .leave) {context : Context}
    (hdeferred : context.deferred = RetireList.empty) (hops : context.ops = w.context.ops) :
    w.Accounts ({ w with context }.sweepOn 0 .leave []) interval [] 0 full := by
  have hsweep : { w with context }.sweepOn 0 .leave [] =
      { w with context := { context with deferred := RetireList.empty } }.finish .done := by
    rw [sweepOn, afterSweep, hdeferred]
    rfl
  have hentered : w.entered = w.records.reverse.flatMap CallRecord.entered :=
    entered_of_role (by rw [hphase]; exact fun h => by cases h)
  rw [hsweep]
  refine finish_eq hw rfl _ w.dropped .done ▸ h.ends hw (.left rfl rfl) .nil rfl ?_ ?_ ?_
    (fun hne => absurd rfl hne) fun _ => ?_
  · rw [List.append_nil]
    exact hops.trans h.ops
  · rw [hentered]
    rfl
  · rw [hphase]
    rfl
  · rw [List.append_nil]

/-- Every access of a feeding thread keeps its account, as long as memory is to be had and no batch
runs into the end of the arena halfway. -/
theorem Feeder.step {p : Plan} (h : w.Feeder) (hs : s.Growing p)
    (hgranted : w.reserves = true → spurious = false)
    (hroom : s.arena.fresh < s.arena.capacity ∨ w.phase.lacking w.given.length = 0 ∨
      w.given.length ≤ 1) :
    w.Accounts (w.step s spurious).2 s.settings.advanceInterval (w.published s spurious)
      (w.claimed s spurious).length (s.arena.capacity ≤ s.arena.fresh) := by
  unfold Worker.step published deed? claimed
  cases h.stage with
  | resting ready program =>
    rw [ready]
    exact h.accounts_start ready program
  | leaving program phase =>
    rcases phase with hphase | hphase <;> rw [hphase]
    · rw [hs.orphans]
      refine h.goes (.leaving program (.inr rfl)) ?_ rfl ?_ <;> rw [hphase]
      · exact iff_of_false (fun h => by cases h) (fun h => by cases h)
      · rfl
    · have hreleased : w.context.deferred.released s.epoch s.settings.gracePeriod = [] := by
        rw [h.deferred]
        rfl
      dsimp only
      rw [hreleased]
      refine h.accounts_leave program hphase ?_ rfl
      rw [h.deferred]
      rfl
  | @pushing call rest hw hfeeds =>
    rw [given_of_program hw.program] at hroom ⊢
    have hon : ∀ {phase : Phase α} {claims : Nat}, phase.Feeds call.values.length →
        phase.role = .loading → w.phase.role = .loading →
        phase.lacking call.values.length + claims = w.phase.lacking call.values.length →
        w.Accounts (w.goto phase) s.settings.advanceInterval [] claims
          (s.arena.capacity ≤ s.arena.fresh) := by
      intro phase claims hphase hrole hloading hlacking
      refine h.on hw hphase ?_ (Phase.due_of_role hrole) hlacking
      rw [hrole, hloading]
    have hclosing : ∀ {phase : Phase α}, phase.Feeds call.values.length → phase.role = .closing →
        w.phase.role = .closing → phase.due = 0 → phase.lacking call.values.length =
          w.phase.lacking call.values.length →
        w.Accounts (w.goto phase) s.settings.advanceInterval [] 0
          (s.arena.capacity ≤ s.arena.fresh) := by
      intro phase hphase hrole hclosing hdue hlacking
      refine h.on hw hphase ?_ hdue hlacking
      rw [hrole, hclosing]
    cases hphase : w.phase <;> rw [hphase] at hfeeds hroom hon hclosing
    case find index after => exact hon hfeeds.1 hfeeds.2 hfeeds.2 rfl
    case loadFree job value =>
      rw [hs.free]
      exact hon hfeeds rfl rfl rfl
    case loadFresh job value =>
      refine h.accounts_takeFresh hw _ value _ hfeeds ?_ (by rw [hphase]; rfl) (by rw [hphase]; rfl)
      exact hroom.imp_right fun hone => hone.resolve_left (Nat.succ_ne_zero _)
    case checkSegment job value index =>
      dsimp only
      split <;> exact hon hfeeds rfl rfl rfl
    case installSegment job value index =>
      obtain rfl := hgranted (by rw [reserves, hphase])
      dsimp only
      rw [if_neg Bool.false_ne_true]
      split <;> exact hon hfeeds rfl rfl rfl
    case claimFresh job value index =>
      dsimp only
      split
      · exact hon ⟨hfeeds.lt, rfl⟩ rfl rfl rfl
      · refine h.accounts_takeFresh hw _ value _ hfeeds ?_ (by rw [hphase]; rfl)
          (by rw [hphase]; rfl)
        exact hroom.imp_right fun hone => hone.resolve_left (Nat.succ_ne_zero _)
    case loadGeneration job value index => exact hon hfeeds rfl rfl rfl
    case storeGeneration job value index generation =>
      exact hon ⟨(fun h => by cases h), hfeeds⟩ rfl rfl rfl
    case clearNext job value node => exact hon hfeeds rfl rfl rfl
    case clearTag job value node =>
      dsimp only
      split
      · exact hon ⟨hfeeds, rfl⟩ rfl rfl rfl
      · exact h.accounts_build hw hfeeds.1 hfeeds.2 (by rw [hphase]; rfl) (by rw [hphase]; rfl)
    case linkNode job node =>
      exact h.accounts_build hw hfeeds.1 hfeeds.2 (by rw [hphase]; rfl) (by rw [hphase]; rfl)
    case loadHead first last => exact hon trivial rfl rfl rfl
    case checkShutdown first last head =>
      rw [hs.up]
      exact hon trivial rfl rfl rfl
    case linkLast first last head => exact hon trivial rfl rfl rfl
    case swingHead first last head =>
      dsimp only
      split
      · exact h.accounts_complete hw s.settings (by rw [hphase]; rfl) (by rw [hphase]; rfl)
      · exact hon trivial rfl rfl rfl
    case bumpEpoch after =>
      obtain rfl := hfeeds
      exact hclosing rfl rfl rfl rfl rfl
    case loadOrphans after =>
      obtain rfl := hfeeds
      rw [hs.orphans]
      exact hclosing rfl rfl rfl rfl rfl
    case loadEpoch after =>
      obtain rfl := hfeeds
      have hreleased : w.context.deferred.released s.epoch s.settings.gracePeriod = [] := by
        rw [h.deferred]
        rfl
      dsimp only
      rw [hreleased]
      refine h.accounts_sweepOn hw hphase ?_ rfl
      rw [h.deferred]
      rfl
    all_goals cases hfeeds

theorem Feeds.aside (h : w.Feeds) (s : Store α) (spurious : Bool) :
    (∀ r, w.phase.turns = some r → r = .stack) ∧ w.raises = false ∧ w.reused s spurious = [] ∧
      w.deed? s spurious ≠ some .take := by
  have hroot : ∀ r : Root, none = some r → r = .stack := fun _ h => by cases h
  have hdeed : (none : Option (Deed α)) ≠ some .take := fun h => by cases h
  unfold raises reused deed?
  cases h with
  | resting ready program =>
    rw [ready]
    exact ⟨hroot, rfl, rfl, hdeed⟩
  | leaving program phase =>
    rcases phase with hphase | hphase <;> rw [hphase] <;> exact ⟨hroot, rfl, rfl, hdeed⟩
  | pushing pushes hfeeds =>
    cases hphase : w.phase <;> rw [hphase] at hfeeds
    case swingHead first last head =>
      refine ⟨fun r hr => (Option.some.inj hr).symm, rfl, rfl, ?_⟩
      dsimp only
      split <;> exact fun h => by cases h
    case find | loadFree | loadFresh | checkSegment | installSegment | claimFresh | loadGeneration
      | storeGeneration | clearNext | clearTag | linkNode | loadHead | checkShutdown | linkLast
      | bumpEpoch | loadOrphans | loadEpoch => exact ⟨hroot, rfl, rfl, hdeed⟩
    all_goals cases hfeeds

theorem Feeds.growing_step {p : Plan} (h : w.Feeds) (hs : s.Growing p) (spurious : Bool) :
    (w.step s spurious).1.Growing p := by
  obtain ⟨hturns, hraises, -⟩ := h.aside s spurious
  have hroot : ∀ {r : Root}, r ≠ .stack → (w.step s spurious).1.root r = s.root r :=
    fun hr => w.root_step s spurious fun hturn => hr (hturns _ hturn)
  have hfree : Root.free ≠ .stack := fun h => by cases h
  have horphans : Root.orphans ≠ .stack := fun h => by cases h
  obtain ⟨hsettings, hcapacity, -, hshut⟩ := w.plan_step s spurious
  refine ⟨(hroot (r := .free) hfree).trans hs.free,
    (hroot (r := .orphans) horphans).trans hs.orphans, ?_, hsettings.trans hs.settings,
    hcapacity.trans hs.capacity⟩
  rw [hshut, hraises, hs.up]
  rfl

/-- A thread publishes the values of its calls in order, and of each call at most once. -/
theorem Feeds.entered_sublist (h : w.Feeds) : w.entered.Sublist (Call.lists w.calls) := by
  have hrecords : ∀ records : List (CallRecord α), (records.flatMap CallRecord.entered).Sublist
      (Call.lists (records.map CallRecord.call)) := by
    intro records
    induction records with
    | nil => exact .slnil
    | cons record records ih =>
      rw [List.flatMap_cons, List.map_cons, Call.lists_cons]
      refine List.Sublist.append ?_ ih
      unfold CallRecord.entered
      split
      · exact List.Sublist.refl _
      · exact List.nil_sublist _
  rw [calls, Call.lists_append, entered]
  refine (hrecords _).append ?_
  split
  · rename_i hrole
    cases h with
    | resting ready program =>
      rw [ready] at hrole
      cases hrole
    | leaving program phase =>
      rcases phase with hphase | hphase <;> rw [hphase] at hrole <;> cases hrole
    | pushing pushes hfeeds =>
      rw [pushes.program, Call.lists_cons, if_pos pushes.push, given_of_program pushes.program]
      exact List.sublist_append_left _ _
  · exact List.nil_sublist _

/-- If no value was refused, everything on record was published. -/
theorem Feeder.lists_records (h : w.Feeder) (hrefused : w.refused = 0) :
    w.records.reverse.flatMap CallRecord.entered =
      Call.lists (w.records.reverse.map CallRecord.call) := by
  have hover : ∀ record ∈ w.records.reverse, record.Over ∧ record.refused = 0 := by
    intro record hrecord
    have hmem := List.mem_reverse.1 hrecord
    exact ⟨h.ended record hmem, eq_zero_of_total hrefused (List.mem_map_of_mem hmem)⟩
  generalize w.records.reverse = records at hover
  induction records with
  | nil => rfl
  | cons record records ih =>
    obtain ⟨⟨hover, hzero⟩, hrest⟩ := List.forall_mem_cons.1 hover
    rw [List.flatMap_cons, List.map_cons, Call.lists_cons, ih hrest, CallRecord.entered]
    cases hover with
    | entered push answer => rw [answer]
    | left call answer => rw [answer]
    | refused values failure answer =>
      rw [CallRecord.refused, answer] at hzero
      exact absurd (List.eq_nil_of_length_eq_zero hzero) values

/-- The values of the calls on record were published or refused. -/
theorem Feeder.size_records (h : w.Feeder) :
    Call.size (w.records.reverse.map CallRecord.call) =
      (w.records.reverse.flatMap CallRecord.entered).flatten.length + w.refused := by
  have hrefused : w.refused = total (w.records.reverse.map CallRecord.refused) := by
    rw [List.map_reverse]
    exact (List.sum_reverse _).symm
  have hover : ∀ record ∈ w.records.reverse, record.Over :=
    fun record hrecord => h.ended record (List.mem_reverse.1 hrecord)
  rw [hrefused]
  generalize w.records.reverse = records at hover
  induction records with
  | nil => rfl
  | cons record records ih =>
    obtain ⟨hrecord, hrest⟩ := List.forall_mem_cons.1 hover
    have hsize : Call.size ((record :: records).map CallRecord.call) =
        record.call.values.length + Call.size (records.map CallRecord.call) := rfl
    have hown : record.call.values.length = record.entered.flatten.length + record.refused := by
      rw [CallRecord.entered, CallRecord.refused]
      cases hrecord with
      | entered push answer => rw [answer, if_pos push, List.flatten_singleton]; rfl
      | refused values failure answer => rw [answer]; exact (Nat.zero_add _).symm
      | left call answer => rw [answer, call]; rfl
    rw [hsize, refused_cons, ih hrest, List.flatMap_cons, List.flatten_append, List.length_append,
      hown]
    omega

/-- Every failed call had a value at least, and perhaps no more. -/
theorem Feeder.failures_le (h : w.Feeder) : w.failures ≤ w.refused := by
  have hover := h.ended
  unfold failures refused
  generalize w.records = records at hover
  induction records with
  | nil => exact Nat.le_refl 0
  | cons record records ih =>
    obtain ⟨hrecord, hrest⟩ := List.forall_mem_cons.1 hover
    have hrest := ih hrest
    rw [refused_cons, List.countP_cons, CallRecord.refused]
    cases hrecord with
    | entered push answer => simpa [answer] using hrest
    | left call answer => simpa [answer] using hrest
    | refused values failure answer =>
      have hpos := List.length_pos_of_ne_nil values
      simp only [answer, if_true]
      omega

theorem refused_le (w : Worker α) (h : ∀ record ∈ w.records, record.call.values.length ≤ 1) :
    w.refused ≤ w.failures := by
  unfold failures refused
  generalize w.records = records at h
  induction records with
  | nil => exact Nat.le_refl 0
  | cons record records ih =>
    obtain ⟨hrecord, hrest⟩ := List.forall_mem_cons.1 h
    have hrest := ih hrest
    rw [refused_cons, List.countP_cons, CallRecord.refused]
    cases answer : record.answer with
    | exhausted failure =>
      simp only [if_true]
      omega
    | _ => simpa using hrest

end Worker

end RecyclingStack
