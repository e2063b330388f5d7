import RecyclingStack.Proofs.Interleaving.Standing
import RecyclingStack.Workload.Basic

/-! Pushes that race with a shutdown. A push or a batch is published as a whole or dropped as a
whole, and every value given to a stack is returned by one pop or dropped once. -/
namespace RecyclingStack

section

variable {α : Type}

theorem CallRecord.map_taken (records : List (CallRecord α)) :
    (CallRecord.taken records).map Prod.snd =
      records.reverse.flatMap fun record => record.answer.taken := by
  induction records with
  | nil => rfl
  | cons record earlier ih =>
    rw [CallRecord.taken, List.map_append, ih, List.reverse_cons, List.flatMap_append,
      List.flatMap_singleton, List.map_map]
    exact congrArg _ (List.map_id _)

/-- A fair record accounts for each value of its call. -/
theorem CallRecord.Fair.values_perm {record : CallRecord α} {x : Tally α} (h : record.Fair x) :
    record.call.values.Perm (x.published.flatten ++ record.dropped) := by
  cases h with
  | published put dropped warned =>
    rw [put, dropped, List.flatten_singleton, List.append_nil]
  | discarded put dropped nodes =>
    rw [put]
    exact dropped.symm
  | other pushing put dropped =>
    rw [put, dropped]
    cases hcall : record.call with
    | push | pushBatch =>
      rw [hcall] at pushing
      cases pushing
    | _ => exact .nil

/-- What an exchange of the head puts on the stack, and what it takes off it. -/
theorem Swung.values_perm {w : Worker α} {s : Store α} {spurious : Bool} {live live' : Load α}
    {new : List α} (h : Swung live live' (w.deed? s spurious) new) :
    ((w.published s spurious).flatten ++ live.values).Perm (new ++ live'.values) := by
  unfold Worker.published
  generalize w.deed? s spurious = deed at h
  cases h with
  | still => exact .refl _
  | put values hput =>
    rw [List.flatten_singleton, hput]
    exact values.reverse_perm.symm.append_right _
  | take n live => exact .refl _

def Phase.due : Phase α → Nat
  | .bumpEpoch _ => 1
  | _ => 0

end

namespace Worker

variable {α : Type} {w v : Worker α} {own own' : List (Strand α)} {x : Tally α}

def placed (w : Worker α) : List α := if w.phase.role = .closing then w.given else []

/-- The values of the calls on record, and those published already by the one under way. -/
def pledged (w : Worker α) : List α :=
  w.records.flatMap (fun record => record.call.values) ++ w.placed

def discarded (w : Worker α) : List α := w.records.flatMap CallRecord.dropped

theorem Stands.flatten_published (h : w.Stands own x) : x.published.flatten = w.placed := by
  unfold placed
  cases h with
  | idle ready dropped tally => rw [ready, tally]; rfl
  | loading role pushing dropped published warned nodes => rw [role, published]; rfl
  | discarding role pushing dropped published nodes => rw [role, published]; rfl
  | closing role pushing dropped published warned =>
    rw [role, published, if_pos rfl, List.flatten_singleton]
  | other role busy pushing dropped published => rw [role, published]; rfl

/-- An access publishes values, ends a call, or keeps the account of its thread. -/
theorem Proceeds.pledged_perm {s : Store α} {spurious : Bool} (hx : w.Stands own x)
    (h : w.Proceeds v own' (x.add (w.tally s spurious))) :
    (v.pledged ++ w.discarded).Perm
      ((w.published s spurious).flatten ++ (w.pledged ++ v.discarded)) := by
  have hplaced := hx.flatten_published
  have hadd : (x.add (w.tally s spurious)).published.flatten =
      w.placed ++ (w.published s spurious).flatten := by
    rw [← hplaced, ← List.flatten_append]
    rfl
  cases h with
  | on records given stands =>
    rw [pledged, pledged, discarded, discarded, records, ← stands.flatten_published, hadd]
    classical
    apply List.perm_iff_count.2
    intro value
    simp only [List.count_append]
    omega
  | ended record records values fair stands =>
    have hrecord := fair.values_perm
    rw [hadd] at hrecord
    rw [pledged, pledged, discarded, discarded, records, ← stands.flatten_published,
      List.flatMap_cons, List.flatMap_cons]
    classical
    apply List.perm_iff_count.2
    intro value
    have hrecord := hrecord.count_eq value
    simp only [List.count_append, Tally.empty, List.flatten_nil, List.count_nil] at *
    omega

theorem phase_of_isIdle (h : w.isIdle = true) : w.phase = .ready := by
  unfold isIdle at h
  split at h
  · assumption
  · cases h

theorem pledged_of_isIdle (w : Worker α) (h : w.isIdle = true) :
    w.pledged = w.records.flatMap fun record => record.call.values := by
  rw [pledged, placed, phase_of_isIdle h]
  exact List.append_nil _

/-- What a thread has taken off the stack is what its pops have returned, once all are over. -/
theorem taken_of_isIdle (w : Worker α) (h : w.isIdle = true) :
    w.taken.map Prod.snd = w.popped := by
  rw [taken, phase_of_isIdle h, List.map_append, CallRecord.map_taken, popped,
    List.filterMap_eq_flatMap_toList]
  refine (List.append_nil _).trans (List.flatMap_congr fun record _ => ?_)
  rcases record.answer with _ | (_ | value) | _ | _ <;> rfl

def raises (w : Worker α) : Bool :=
  match w.phase with
  | .raiseShutdown => true
  | _ => false

/-- An access leaves the settings and the capacity as they are, advances the epoch where this is due,
and raises the flag where this is what it does. -/
theorem plan_step (w : Worker α) (s : Store α) (spurious : Bool) :
    (w.step s spurious).1.settings = s.settings ∧
      (w.step s spurious).1.arena.capacity = s.arena.capacity ∧
      (w.step s spurious).1.epoch = w.phase.due.repeat nextWord s.epoch ∧
      (w.step s spurious).1.shutdown = (w.raises || s.shutdown) := by
  have hupdate : ∀ (l : Link) (f : Slot α → Slot α),
      (s.arena.update l f).capacity = s.arena.capacity := by
    intro l f
    cases l <;> rfl
  have htake : ∀ {l x}, s.takeValue l = some x → x.2.settings = s.settings ∧
      x.2.arena.capacity = s.arena.capacity ∧ x.2.epoch = s.epoch ∧ x.2.shutdown = s.shutdown := by
    intro l x hx
    rw [(Store.takeValue_eq_some hx).2]
    exact ⟨rfl, hupdate l _, rfl, rfl⟩
  unfold step raises
  cases hphase : w.phase with
  | swingTop head next =>
    dsimp only
    split
    · cases htop : s.takeValue head with
      | none => exact ⟨rfl, rfl, rfl, rfl⟩
      | some x => exact htake htop
    · exact ⟨rfl, rfl, rfl, rfl⟩
  | readDoomed node last answer =>
    dsimp only
    split
    · exact ⟨rfl, rfl, rfl, rfl⟩
    · rename_i htop
      exact htake htop
  | swingFree | pushFree | swingHead | pushOrphans | claimFresh | installSegment | loadOrphans
  | checkSegment | checkShutdown | checkTop =>
    dsimp only
    repeat' split
    all_goals exact ⟨rfl, rfl, rfl, rfl⟩
  | clearNext job value node | clearTag job value node | linkNode job node
  | linkLast first node head | storeTag node value epoch | linkFree node top after =>
    exact ⟨rfl, hupdate node _, rfl, rfl⟩
  | linkOrphans nodes top => exact ⟨rfl, hupdate _ _, rfl, rfl⟩
  | threadOrphans nodes todo =>
    rcases todo with _ | ⟨node, _ | ⟨next, rest⟩⟩
    · exact ⟨rfl, rfl, rfl, rfl⟩
    · exact ⟨rfl, rfl, rfl, rfl⟩
    · exact ⟨rfl, hupdate node _, rfl, rfl⟩
  | _ => exact ⟨rfl, rfl, rfl, rfl⟩

end Worker

namespace Machine

variable {α β : Type} {m : Machine α} {schedule : List (Nat × Bool)} {worker : Nat}

/-- What is logged of the accesses that belong to one call of a thread. -/
def during (event : Worker α → Store α → Bool → List β) (m : Machine α)
    (schedule : List (Nat × Bool)) (worker call : Nat) : List β :=
  m.logged (fun k w s spurious =>
    if k = worker ∧ w.records.length = call then event w s spurious else []) schedule

def tally (m : Machine α) (schedule : List (Nat × Bool)) (worker call : Nat) : Tally α where
  published := m.during (fun w s spurious => (w.tally s spurious).published) schedule worker call
  warned := m.during (fun w s spurious => (w.tally s spurious).warned) schedule worker call
  taken := m.during (fun w s spurious => (w.tally s spurious).taken) schedule worker call
  returned := m.during (fun w s spurious => (w.tally s spurious).returned) schedule worker call

theorem tally_skip (hnone : (m.run schedule).workers[worker]? = none) (spurious : Bool)
    (k n : Nat) : m.tally (schedule ++ [(worker, spurious)]) k n = m.tally schedule k n := by
  simp only [tally, during, logged_skip _ hnone]

theorem tally_turn {w : Worker α} (hw : (m.run schedule).workers[worker]? = some w)
    (spurious : Bool) (n : Nat) :
    m.tally (schedule ++ [(worker, spurious)]) worker n =
      if w.records.length = n then
        (m.tally schedule worker n).add (w.tally (m.run schedule).store spurious)
      else m.tally schedule worker n := by
  simp only [tally, during, logged_turn _ hw, true_and]
  split
  · rfl
  · simp only [List.append_nil]

theorem tally_aside {w : Worker α} (hw : (m.run schedule).workers[worker]? = some w)
    (spurious : Bool) {k : Nat} (hk : k ≠ worker) (n : Nat) :
    m.tally (schedule ++ [(worker, spurious)]) k n = m.tally schedule k n := by
  simp only [tally, during, logged_turn _ hw, if_neg fun h : worker = k ∧ _ => hk h.1.symm,
    List.append_nil]

/-- What the run so far says of the calls: where each call under way stands, that the calls to come
have done nothing yet, and that those on record are fair. -/
structure Tallied (m : Machine α) (schedule : List (Nat × Bool)) (crew : Crew α) : Prop where
  proper : ∀ x ∈ crew, x.1.Proper
  stands : ∀ {k : Nat} {x : Worker α × List (Strand α)}, crew[k]? = some x →
    x.1.Stands x.2 (m.tally schedule k x.1.records.length)
  coming : ∀ {k n : Nat} {x : Worker α × List (Strand α)}, crew[k]? = some x →
    x.1.records.length < n → m.tally schedule k n = .empty
  fair : ∀ {k : Nat} {x : Worker α × List (Strand α)} {record : CallRecord α}
    {later earlier : List (CallRecord α)}, crew[k]? = some x →
      x.1.records = later ++ record :: earlier → record.Fair (m.tally schedule k earlier.length)

theorem tallied_nil (p : Plan) (programs : List (List (Call α))) :
    (ofPrograms p programs).Tallied [] (newCrew p programs) := by
  have hnew : ∀ x ∈ newCrew p programs, ∃ program,
      (Worker.register (Store.ofPlan p) program, []) = x := by
    intro x hx
    obtain ⟨program, -, hx⟩ := List.mem_map.1 hx
    exact ⟨program, hx⟩
  constructor
  · intro x hx
    obtain ⟨program, rfl⟩ := hnew x hx
    exact ⟨.inl rfl, nofun⟩
  · intro k x hk
    obtain ⟨program, rfl⟩ := hnew x (List.mem_of_getElem? hk)
    exact .idle rfl rfl rfl
  · intro k n x hk hn
    rfl
  · intro k x record later earlier hk hrecords
    obtain ⟨program, rfl⟩ := hnew x (List.mem_of_getElem? hk)
    cases later <;> cases hrecords

section

variable {L M : Layout α} {before after crew : Crew α} {w : Worker α} {spurious : Bool}
  {own own' : List (Strand α)} {live live' : Load α} {outs : Nat → Nat}

theorem Tallied.skip (hm : m.Tallied schedule crew)
    (hnone : (m.run schedule).workers[worker]? = none) (spurious : Bool) :
    m.Tallied (schedule ++ [(worker, spurious)]) crew := by
  obtain ⟨hproper, hstands, hcoming, hfair⟩ := hm
  constructor <;> simpa only [tally_skip hnone]

theorem Tallied.proceeds (hm : m.Tallied schedule (before ++ (w, own) :: after))
    (h : (m.run schedule).Access before after w own spurious L live outs own' M live') :
    w.Proceeds (w.step (m.run schedule).store spurious).2 own'
      ((m.tally schedule before.length w.records.length).add
        (w.tally (m.run schedule).store spurious)) :=
  h.proceeds (hm.stands (Crew.getElem?_length _))

theorem Tallied.access (hm : m.Tallied schedule (before ++ (w, own) :: after))
    (h : (m.run schedule).Access before after w own spurious L live outs own' M live') :
    m.Tallied (schedule ++ [(before.length, spurious)])
      (before ++ ((w.step (m.run schedule).store spurious).2, own') :: after) := by
  have hproceeds := hm.proceeds h
  have hw := h.fore.worker
  have hmid : (before ++ (w, own) :: after)[before.length]? = some (w, own) :=
    Crew.getElem?_length _
  generalize hv : (w.step (m.run schedule).store spurious).2 = v at hproceeds
  have hturn := fun n => tally_turn (n := n) hw spurious
  constructor
  · intro x hx
    obtain ⟨k, hk⟩ := List.mem_iff_getElem?.1 hx
    rcases Crew.getElem?_middle (x := (w, own)) hk with ⟨-, rfl⟩ | ⟨-, hk⟩
    · rw [← hv]
      exact ((hm.proper _ (List.mem_of_getElem? hmid)).step _ spurious).toProper
    · exact hm.proper x (List.mem_of_getElem? hk)
  · intro k x hk
    rcases Crew.getElem?_middle (x := (w, own)) hk with ⟨rfl, rfl⟩ | ⟨hne, hk⟩
    · rw [hturn]
      cases hproceeds with
      | on records given stands =>
        rw [if_pos (congrArg List.length records.symm), records]
        exact stands
      | ended record records values fair stands =>
        have hlater : w.records.length ≠ v.records.length := by
          rw [records, List.length_cons]
          exact Nat.ne_of_lt (Nat.lt_succ_self _)
        rw [if_neg hlater, hm.coming hmid (by rw [records]; exact Nat.lt_succ_self _)]
        exact stands
    · rw [tally_aside hw spurious hne]
      exact hm.stands hk
  · intro k n x hk hn
    rcases Crew.getElem?_middle (x := (w, own)) hk with ⟨rfl, rfl⟩ | ⟨hne, hk⟩
    · have hle : w.records.length < n := by
        cases hproceeds with
        | on records => exact records ▸ hn
        | ended record records =>
          rw [records] at hn
          exact Nat.lt_of_succ_lt hn
      rw [hturn, if_neg (Nat.ne_of_lt hle)]
      exact hm.coming hmid hle
    · rw [tally_aside hw spurious hne]
      exact hm.coming hk hn
  · intro k x record later earlier hk hrecords
    rcases Crew.getElem?_middle (x := (w, own)) hk with ⟨rfl, rfl⟩ | ⟨hne, hk⟩
    · have hearlier : ∀ {later}, w.records = later ++ record :: earlier →
          w.records.length ≠ earlier.length := by
        intro later hsplit
        rw [hsplit, List.length_append, List.length_cons]
        omega
      rw [hturn]
      cases hproceeds with
      | on records given stands =>
        have hsplit := records.symm.trans hrecords
        rw [if_neg (hearlier hsplit)]
        exact hm.fair hmid hsplit
      | ended last records values fair stands =>
        cases later with
        | nil =>
          obtain ⟨rfl, rfl⟩ := List.cons.inj (records.symm.trans hrecords)
          rw [if_pos rfl]
          exact fair
        | cons first later =>
          have hsplit := (List.cons.inj (records.symm.trans hrecords)).2
          rw [if_neg (hearlier hsplit)]
          exact hm.fair hmid hsplit
    · rw [tally_aside hw spurious hne]
      exact hm.fair hk hrecords

end

def published (m : Machine α) (schedule : List (Nat × Bool)) : List (List α) :=
  m.logged (fun _ w s spurious => w.published s spurious) schedule

/-- What the run so far says of the values: those published are on the stack or were taken off it,
and those of the calls on record were published or dropped. -/
structure Conserved (m : Machine α) (schedule : List (Nat × Bool)) (L : Layout α) : Prop where
  swept : (m.published schedule).flatten.Perm
    ((m.run schedule).workers.flatMap (fun w => w.taken.map Prod.snd) ++ L.stack.values)
  pledged : ((m.run schedule).workers.flatMap Worker.pledged).Perm
    ((m.published schedule).flatten ++ (m.run schedule).workers.flatMap Worker.discarded)

theorem conserved_nil (p : Plan) (programs : List (List (Call α))) :
    (ofPrograms p programs).Conserved [] ⟨[], [], [], []⟩ := by
  have hnone : ∀ f : Worker α → List α, (∀ program, f (.register (.ofPlan p) program) = []) →
      (ofPrograms p programs).workers.flatMap f = [] := by
    intro f hf
    apply List.flatMap_eq_nil_iff.2
    intro w hw
    obtain ⟨program, -, rfl⟩ := List.mem_map.1 hw
    exact hf program
  constructor
  · rw [run, List.foldl_nil, hnone _ fun _ => rfl]
    exact .nil
  · rw [run, List.foldl_nil, hnone _ fun _ => rfl, hnone _ fun _ => rfl]
    exact .nil

section

variable {L M : Layout α} {before after crew : Crew α} {w : Worker α} {spurious : Bool}
  {own own' : List (Strand α)} {live live' : Load α} {outs : Nat → Nat}

theorem Conserved.skip (hm : m.Conserved schedule L)
    (hnone : (m.run schedule).workers[worker]? = none) (spurious : Bool) :
    m.Conserved (schedule ++ [(worker, spurious)]) L := by
  obtain ⟨hswept, hpledged⟩ := hm
  constructor <;> simpa only [Machine.published, logged_skip _ hnone, run_turn, step_none hnone]

theorem Conserved.access (hm : m.Conserved schedule L)
    (ht : m.Tallied schedule (before ++ (w, own) :: after))
    (h : (m.run schedule).Access before after w own spurious L live outs own' M live') :
    m.Conserved (schedule ++ [(before.length, spurious)]) M := by
  have hw := h.fore.worker
  have hmid : (before ++ (w, own) :: after)[before.length]? = some (w, own) :=
    Crew.getElem?_length _
  have hpublished : m.published (schedule ++ [(before.length, spurious)]) =
      m.published schedule ++ w.published (m.run schedule).store spurious := logged_turn _ hw _
  constructor
  · have htells := (ht.proper _ (List.mem_of_getElem? hmid)).step (m.run schedule).store spurious
    have htaken : (w.step (m.run schedule).store spurious).2.taken.map Prod.snd =
        w.taken.map Prod.snd ++ w.takes (m.run schedule).store spurious := by
      rw [htells.taken, Worker.taken]
      simp [Function.comp_def]
    have hstack := h.swung.values_perm
    obtain ⟨rest, hfore, hnext⟩ := h.workers_perm (f := fun v => v.taken.map Prod.snd)
      (g := fun v => v.taken.map Prod.snd) fun _ _ => rfl
    have hswept := hm.swept
    rw [htaken] at hnext
    rw [h.fore.stack, Strand.values, Load.values_strand] at hswept
    rw [hpublished, run_turn, h.next.stack, Strand.values, Load.values_strand, List.flatten_append]
    classical
    apply List.perm_iff_count.2
    intro value
    have hfore := hfore.count_eq value
    have hnext := hnext.count_eq value
    have hswept := hswept.count_eq value
    have hstack := hstack.count_eq value
    simp only [List.count_append] at *
    omega
  · have hown := (ht.proceeds h).pledged_perm (ht.stands hmid)
    obtain ⟨rest, hfore, hnext⟩ := h.workers_perm (f := Worker.pledged) (g := Worker.pledged)
      fun _ _ => rfl
    obtain ⟨rest', hfore', hnext'⟩ := h.workers_perm (f := Worker.discarded)
      (g := Worker.discarded) fun _ _ => rfl
    have hpledged := hm.pledged
    rw [hpublished, run_turn, List.flatten_append]
    classical
    apply List.perm_iff_count.2
    intro value
    have hown := hown.count_eq value
    have hfore := hfore.count_eq value
    have hnext := hnext.count_eq value
    have hfore' := hfore'.count_eq value
    have hnext' := hnext'.count_eq value
    have hpledged := hpledged.count_eq value
    simp only [List.count_append] at *
    omega

end

def given (m : Machine α) : List α :=
  m.workers.flatMap fun w => w.records.flatMap fun record => record.call.values

def discarded (m : Machine α) : List α := m.workers.flatMap Worker.discarded

def raised (m : Machine α) (schedule : List (Nat × Bool)) : List Nat :=
  m.logged (fun k w _ _ => if w.raises then [k] else []) schedule

theorem shutdown_run (m : Machine α) (schedule : List (Nat × Bool)) :
    (m.run schedule).store.shutdown = (m.store.shutdown || !(m.raised schedule).isEmpty) := by
  induction schedule generalizing m with
  | nil => exact (Bool.or_false _).symm
  | cons turn schedule ih =>
    rw [run, List.foldl_cons]
    refine (ih _).trans ?_
    rw [raised, raised, logged, step]
    cases m.workers[turn.1]? with
    | none => rfl
    | some w =>
      dsimp only [Option.elim]
      rw [(w.plan_step m.store turn.2).2.2.2]
      cases w.raises <;> simp

theorem length_run (m : Machine α) (schedule : List (Nat × Bool)) :
    (m.run schedule).workers.length = m.workers.length := by
  induction schedule generalizing m with
  | nil => rfl
  | cons turn schedule ih =>
    rw [run, List.foldl_cons]
    refine (ih _).trans ?_
    rw [step]
    cases m.workers[turn.1]? with
    | none => rfl
    | some w => exact List.length_set

/-- A look at the flag when it is up is on the tally of its call. -/
theorem warned_ne_nil {before after : List (Nat × Bool)} {k : Nat} {spurious : Bool} {w : Worker α}
    (hsplit : schedule = before ++ (k, spurious) :: after)
    (hk : (m.run before).workers[k]? = some w)
    (hcheck : w.phase.isCheck = true) (hdown : (m.run before).store.shutdown = true) :
    (m.tally schedule k w.records.length).warned ≠ [] := by
  rw [hsplit, tally]
  dsimp only
  rw [during, logged_append, logged, hk]
  dsimp only [Option.elim]
  rw [if_pos ⟨rfl, rfl⟩, Worker.tally, Worker.warned_of_isCheck w _ hcheck hdown]
  intro hnil
  cases (List.append_eq_nil_iff.1 (List.append_eq_nil_iff.1 hnil).2).1

/-- A call that found the stack shut down does not publish, whether it is over or not. -/
theorem Tallied.not_published {crew : Crew α} (hm : m.Tallied schedule crew) {k n : Nat}
    {x : Worker α × List (Strand α)} (hk : crew[k]? = some x)
    (hwarned : (m.tally schedule k n).warned ≠ []) : (m.tally schedule k n).published = [] := by
  rcases Nat.lt_trichotomy n x.1.records.length with hlt | rfl | hlt
  · obtain ⟨later, record, earlier, hsplit, rfl⟩ : ∃ later record earlier,
        x.1.records = later ++ record :: earlier ∧ earlier.length = n := by
      have hat : x.1.records.length - 1 - n < x.1.records.length := by omega
      refine ⟨x.1.records.take (x.1.records.length - 1 - n),
        x.1.records[x.1.records.length - 1 - n],
        x.1.records.drop (x.1.records.length - 1 - n + 1), ?_, ?_⟩
      · rw [List.getElem_cons_drop, List.take_append_drop]
      · rw [List.length_drop]
        omega
    cases hm.fair hk hsplit with
    | published put dropped warned => exact absurd warned hwarned
    | discarded put dropped nodes => exact put
    | other pushing put dropped => exact put
  · cases hm.stands hk with
    | idle ready dropped tally => rw [tally]; rfl
    | loading role pushing dropped published warned nodes => exact published
    | discarding role pushing dropped published nodes => exact published
    | closing role pushing dropped published warned => exact absurd warned hwarned
    | other role busy pushing dropped published => exact published
  · rw [hm.coming hk hlt]
    rfl

/-- When nobody has anything left to do, only what is on the stack is still to be accounted for. -/
theorem Conserved.settles {L : Layout α} {crew : Crew α} {live : Load α} {outs : Nat → Nat}
    (hc : m.Conserved schedule L) (h : (m.run schedule).Crewed L crew live outs)
    (hidle : (m.run schedule).isIdle = true) : (m.run schedule).given.Perm
      ((m.run schedule).popped ++ ((m.run schedule).discarded ++
        (m.run schedule).store.destroy.1)) := by
  have hidle : ∀ w ∈ (m.run schedule).workers, w.isIdle = true := List.all_eq_true.1 hidle
  have hpledged : (m.run schedule).workers.flatMap Worker.pledged = (m.run schedule).given :=
    List.flatMap_congr fun w hw => w.pledged_of_isIdle (hidle w hw)
  have htaken : (m.run schedule).workers.flatMap (fun w => w.taken.map Prod.snd) =
      (m.run schedule).popped :=
    List.flatMap_congr fun w hw => w.taken_of_isIdle (hidle w hw)
  have hswept := hc.swept
  rw [htaken, h.stack, Strand.values, Load.values_strand] at hswept
  rw [← hpledged, h.laid.destroy_eq h.stack]
  refine hc.pledged.trans ((hswept.append_right _).trans ?_)
  rw [List.append_assoc]
  exact List.perm_append_comm.append_left _

/-- Pushes that race with a shutdown lose nothing and duplicate nothing. -/
structure Settled (m : Machine α) (schedule : List (Nat × Bool)) : Prop where
  /-- The flag is up once a thread has raised it. -/
  flag : (m.run schedule).store.shutdown = true ↔ m.raised schedule ≠ []
  /-- A push or a batch that is over has published its values by one exchange of the head and
  dropped none, or published none, dropped each and given back every node that it took. -/
  returned : ∀ {k : Nat} {w : Worker α} {record : CallRecord α}
    {later earlier : List (CallRecord α)},
    (m.run schedule).workers[k]? = some w → w.records = later ++ record :: earlier →
      record.call.isPush = true →
        (m.tally schedule k earlier.length).published = [record.call.values] ∧
            record.dropped = [] ∨
          (m.tally schedule k earlier.length).published = [] ∧
            record.dropped.Perm record.call.values ∧
            (m.tally schedule k earlier.length).taken.Perm
              (m.tally schedule k earlier.length).returned
  /-- A call that looks at the flag after it was raised does not publish. -/
  checked : ∀ {before after : List (Nat × Bool)} {k : Nat} {spurious : Bool} {w : Worker α},
    schedule = before ++ (k, spurious) :: after → (m.run before).workers[k]? = some w →
      w.phase.isCheck = true → m.raised before ≠ [] →
        (m.tally schedule k w.records.length).published = []
  /-- When everybody is done and the stack is destroyed, each value given to a call was returned by
  one pop, or dropped once. -/
  conserved : (m.run schedule).isIdle = true → (m.run schedule).given.Perm
    ((m.run schedule).popped ++ ((m.run schedule).discarded ++ (m.run schedule).store.destroy.1))

/-- Every interleaved run keeps pushes whole, whenever the flag is raised. -/
theorem settled_run (p : Plan) (programs : List (List (Call α))) (schedule : List (Nat × Bool))
    (hbound : ∀ i, ((ofPrograms p programs).handedOut schedule).count i < 2 ^ 32) :
    (ofPrograms p programs).Settled schedule := by
  obtain ⟨L, crew, live, h, hm, hc⟩ := crewed_run p programs
    (I := fun schedule L crew => (ofPrograms p programs).Tallied schedule crew ∧
      (ofPrograms p programs).Conserved schedule L)
    ⟨tallied_nil p programs, conserved_nil p programs⟩
    (fun spurious hnone hI => ⟨hI.1.skip hnone spurious, hI.2.skip hnone spurious⟩)
    (fun _ haccess hI => ⟨hI.1.access haccess, hI.2.access hI.1 haccess⟩) schedule hbound
  have hcrew :
      ∀ {k : Nat} {w : Worker α}, ((ofPrograms p programs).run schedule).workers[k]? = some w →
      ∃ own, crew[k]? = some (w, own) := by
    intro k w hk
    rw [h.workers, List.getElem?_map] at hk
    obtain ⟨⟨v, own⟩, hx, rfl⟩ := Option.map_eq_some_iff.1 hk
    exact ⟨own, hx⟩
  refine ⟨?_, fun hk hsplit hpush => ?_, fun {before after k _ w} hsplit hk hcheck hraised => ?_,
    fun hidle => hc.settles h hidle⟩
  · rw [shutdown_run]
    cases (ofPrograms p programs).raised schedule <;> simp [ofPrograms, Store.ofPlan]
  · obtain ⟨own, hx⟩ := hcrew hk
    cases hm.fair hx hsplit with
    | published put dropped warned => exact .inl ⟨put, dropped⟩
    | discarded put dropped nodes => exact .inr ⟨put, dropped, nodes⟩
    | other pushing put dropped =>
      rw [pushing] at hpush
      cases hpush
  · have hdown : ((ofPrograms p programs).run before).store.shutdown = true := by
      rw [shutdown_run, List.isEmpty_eq_false_iff.2 hraised]
      exact Bool.or_true _
    obtain ⟨v, hv⟩ : ∃ v, ((ofPrograms p programs).run schedule).workers[k]? = some v := by
      obtain ⟨hlt, -⟩ := List.getElem?_eq_some_iff.1 hk
      rw [length_run, ← length_run _ schedule] at hlt
      exact ⟨_, List.getElem?_eq_getElem hlt⟩
    obtain ⟨own, hx⟩ := hcrew hv
    exact hm.not_published hx (warned_ne_nil hsplit hk hcheck hdown)

/-- Three threads: one pushes a value and then a batch, one pops, and one shuts the stack down. -/
def racing : List (List (Call Nat)) := [[.push 1, .pushBatch [2, 3]], [.pop], [.shutdown]]

/-- The batch has its last node linked to the head when the head is popped and the flag goes up. -/
def headLost : List (Nat × Bool) :=
  List.replicate 43 (0, false) ++ List.replicate 9 (1, false) ++ List.replicate 2 (2, false) ++
    List.replicate 20 (0, false)

theorem settled_racing :
    (∀ i, ((ofPrograms Plan.default racing).handedOut headLost).count i < 2 ^ 32) ∧
      (ofPrograms Plan.default racing).Settled headLost := by
  have hbound : ∀ i, ((ofPrograms Plan.default racing).handedOut headLost).count i < 2 ^ 32 :=
    count_lt_of_length (by decide +kernel)
  exact ⟨hbound, settled_run Plan.default racing headLost hbound⟩

end Machine

end RecyclingStack
