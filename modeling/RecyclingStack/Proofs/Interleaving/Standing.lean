import RecyclingStack.Proofs.Interleaving.Calls
import RecyclingStack.Proofs.Memory.Values

/-! Where a push or a batch stands. Its values are in its own nodes or still to come until they are
published, all at once, or dropped, one by one; and its nodes are in its hand until they are given
back. -/
namespace RecyclingStack

/-- What the accesses of one call do: the lists of values put on the stack, the shutdown checks
that found the stack shut down, the slots taken hold of, and those given back. -/
structure Tally (α : Type) where
  published : List (List α)
  warned : List Unit
  taken : List Nat
  returned : List Nat

namespace Tally

variable {α : Type}

def empty : Tally α := ⟨[], [], [], []⟩

def add (x y : Tally α) : Tally α :=
  ⟨x.published ++ y.published, x.warned ++ y.warned, x.taken ++ y.taken, x.returned ++ y.returned⟩

end Tally

namespace Worker

variable {α : Type}

def tally (w : Worker α) (s : Store α) (spurious : Bool) : Tally α where
  published := w.published s spurious
  warned := w.warned s
  taken := (w.handOut? s spurious).toList
  returned := (w.freed s spurious).map Link.index

def isPushing (w : Worker α) : Bool := w.program.head?.any Call.isPush

theorem program_ne_nil {w : Worker α} (h : w.isPushing = true) : w.program ≠ [] := by
  intro hnil
  rw [isPushing, hnil] at h
  cases h

/-- Where a thread stands with its call, given what the call has done so far. -/
inductive Stands (w : Worker α) (own : List (Strand α)) (x : Tally α) : Prop where
  | idle (ready : w.phase = .ready) (dropped : w.dropped = []) (tally : x = .empty)
  | loading (role : w.phase.role = .loading) (pushing : w.isPushing = true)
      (dropped : w.dropped = []) (published : x.published = []) (warned : x.warned = [])
      (nodes : x.taken.Perm (x.returned ++ own.flatten.map Cell.index))
  | discarding (role : w.phase.role = .discarding) (pushing : w.isPushing = true)
      (dropped : (w.dropped ++ Strand.values own.flatten).Perm w.given)
      (published : x.published = [])
      (nodes : x.taken.Perm (x.returned ++ own.flatten.map Cell.index))
  | closing (role : w.phase.role = .closing) (pushing : w.isPushing = true)
      (dropped : w.dropped = []) (published : x.published = [w.given]) (warned : x.warned = [])
  | other (role : w.phase.role = .other) (busy : w.program ≠ []) (pushing : w.isPushing = false)
      (dropped : w.dropped = []) (published : x.published = [])

end Worker

/-- A call that is over has published its values all at once, or dropped each of them and given all
its nodes back. -/
inductive CallRecord.Fair {α : Type} (record : CallRecord α) (x : Tally α) : Prop where
  | published (put : x.published = [record.call.values]) (dropped : record.dropped = [])
      (warned : x.warned = [])
  | discarded (put : x.published = []) (dropped : record.dropped.Perm record.call.values)
      (nodes : x.taken.Perm x.returned)
  | other (pushing : record.call.isPush = false) (put : x.published = [])
      (dropped : record.dropped = [])

namespace Worker

variable {α : Type} {w : Worker α} {own : List (Strand α)}

theorem values_hand (w : Worker α) (own : List (Strand α)) :
    Strand.values (w.hand own).flatten = Strand.values own.flatten := by
  rw [hand, List.flatten_append, Strand.values_append, Strand.flatten_loose, Strand.values_idle,
    List.append_nil]

theorem map_index_hand (w : Worker α) (own : List (Strand α)) :
    (w.hand own).flatten.map Cell.index =
      own.flatten.map Cell.index ++ w.context.deferred.links.map Link.index := by
  rw [hand, List.flatten_append, List.map_append, Strand.flatten_loose, map_index (Strand.idle _),
    Strand.map_link_idle]

/-- The values given to a push or a batch are in its nodes, or still to come. -/
theorem values_perm {phase : Phase α} {given : List α} (howns : phase.Owns given own)
    (hrole : phase.role = .loading) :
    (Strand.values own.flatten ++ phase.coming).Perm given := by
  have hbuilds : ∀ {job : Job α} {coming : List α} {u : Load α}, job.Builds given coming u →
      (Strand.values u.strand ++ coming).Perm given := by
    intro job coming u h
    rw [Strand.values, Load.values_strand, ← h.values]
    exact u.values.reverse_perm.symm.append_right coming
  have hflat : ∀ {c : Cell α} {u : Strand α}, [[c], u].flatten = c :: u := by
    intro c u
    rw [List.flatten_cons, List.flatten_singleton]
    rfl
  have hbare : ∀ {c : Cell α} {u : Strand α}, c.stage.value = none →
      Strand.values [[c], u].flatten = Strand.values u := by
    intro c u hc
    rw [hflat]
    exact List.filterMap_cons_none hc
  induction phase with
  | find index after ih => exact ih howns hrole
  | loadFree job value | readFree job value top | swingFree job value top next
  | loadFresh job value | checkSegment job value index | installSegment job value index
  | claimFresh job value index =>
    obtain ⟨u, h, rfl⟩ := howns
    rw [List.flatten_singleton]
    exact hbuilds h
  | loadGeneration job value index =>
    obtain ⟨u, g, h, rfl⟩ := howns
    rw [hbare rfl]
    exact hbuilds h
  | storeGeneration job value index generation =>
    obtain ⟨u, old, h, -, rfl⟩ := howns
    rw [hbare rfl]
    exact hbuilds h
  | clearNext job value node | clearTag job value node =>
    obtain ⟨u, h, rfl⟩ := howns
    rw [hbare rfl]
    exact hbuilds h
  | linkNode job node =>
    obtain ⟨u, value, h, rfl⟩ := howns
    rw [hflat]
    exact List.perm_middle.symm.trans (hbuilds h)
  | loadHead first last | checkShutdown first last head | linkLast first last head
  | swingHead first last head =>
    obtain ⟨u, -, -, -, hgiven, rfl⟩ := howns
    rw [List.flatten_singleton, Strand.values, Load.values_strand, ← hgiven]
    exact .trans (.of_eq (List.append_nil _)) u.values.reverse_perm.symm
  | bumpEpoch after | loadOrphans after | takeOrphans after | readOrphan node after
  | readTag node next after | loadEpoch after => exact absurd hrole (after.role_ne rfl)
  | loadFreeTop node after | linkFree node top after | pushFree node top after =>
    exact absurd hrole after.role_ne_loading
  | _ => cases hrole

/-- Before it has changed the stack, a call retires nothing and gives nothing retired back. -/
theorem keeps_of_isPrivate (h : w.phase.role.isPrivate = true) (s : Store α) (spurious : Bool) :
    w.retired = [] ∧ w.reclaimed s spurious = [] ∧ w.spliced s spurious = [] := by
  unfold retired reclaimed spliced
  cases hphase : w.phase <;> rw [hphase] at h
  case pushFree node top release =>
    cases release with
    | discard next last answer => exact ⟨rfl, rfl, rfl⟩
    | sweep rest total after => exact absurd h after.not_isPrivate
  case storeTag | pushOrphans => cases h
  all_goals exact ⟨rfl, rfl, rfl⟩

/-- The nodes deferred by a handle are none of the business of such a call. -/
theorem deferred_perm {s : Store α} {spurious : Bool} (hw : w.phase.role.isPrivate = true)
    (hv : (w.step s spurious).2.phase.role.isPrivate = true) :
    w.context.deferred.links.Perm (w.step s spurious).2.context.deferred.links := by
  obtain ⟨hlisted, hstill, hturns⟩ := Phase.of_isPrivate hw
  obtain ⟨hlisted', -, -⟩ := Phase.of_isPrivate hv
  obtain ⟨hretired, hreclaimed, hspliced⟩ := keeps_of_isPrivate hw s spurious
  obtain ⟨links, hrests, hperm⟩ := w.step_rests s spurious hstill fun after hphase => by
    rw [hphase] at hturns
    exact hturns rfl
  rw [hretired, hreclaimed, hspliced, ← hrests.listed, listed, listed, hlisted, hlisted'] at hperm
  exact hperm

theorem deed?_eq_none {s : Store α} {spurious : Bool} (hrole : w.phase.role.isPrivate = true)
    (hpublished : w.published s spurious = []) : w.deed? s spurious = none := by
  unfold published at hpublished
  cases hdeed : w.deed? s spurious with
  | none => rfl
  | some deed =>
    unfold deed? at hdeed hpublished
    cases hphase : w.phase <;> rw [hphase] at hdeed hpublished hrole <;> try cases hdeed
    case swingHead first last head =>
      dsimp only at hdeed hpublished
      split at hdeed
      · rename_i hthrough
        rw [if_pos hthrough] at hpublished
        cases hpublished
      · cases hdeed
    case swingTop head next => cases hrole

theorem published_eq_nil (h : w.phase.role ≠ .loading) (s : Store α) (spurious : Bool) :
    w.published s spurious = [] := by
  unfold published deed?
  cases hphase : w.phase with
  | swingHead first last head =>
    rw [hphase] at h
    exact absurd rfl h
  | swingTop head next =>
    dsimp only
    split <;> rename_i hdeed
    · split at hdeed <;> cases hdeed
    · rfl
  | _ => rfl

theorem lost_eq_nil (h : w.phase.role ≠ .discarding) (s : Store α) : w.lost s = [] := by
  unfold lost
  cases hphase : w.phase with
  | readDoomed node last answer =>
    rw [hphase] at h
    exact absurd rfl h
  | _ => rfl

/-- Only a call that loads its values, or pops, looks at the flag and swings the head. -/
theorem aside_of_role (hloading : w.phase.role ≠ .loading) (hother : w.phase.role ≠ .other)
    (s : Store α) (spurious : Bool) :
    w.warned s = [] ∧ (w.step s spurious).1.head = s.head := by
  have hroot := w.root_step s spurious (r := .stack)
  unfold warned
  cases hphase : w.phase <;> rw [hphase] at hloading hother hroot
  case checkShutdown | swingHead => exact absurd rfl hloading
  case checkTop | swingTop => exact absurd rfl hother
  all_goals exact ⟨rfl, hroot nofun⟩

/-- Whoever discards a chain takes the values out of it, one by one. -/
theorem values_step {s : Store α} (hsound : s.arena.Sound) (hrole : w.phase.role = .discarding)
    (spurious : Bool) :
    s.arena.values.Perm (w.lost s ++ (w.step s spurious).1.arena.values) := by
  unfold step lost
  cases hphase : w.phase <;> rw [hphase] at hrole
  case find index after => exact .refl _
  case readDoomed node last answer =>
    dsimp only
    unfold Store.takeValue
    cases hvalue : (s.arena.read node).value with
    | none => exact .refl _
    | some value => exact hsound.values_clearValue hvalue
  case loadFreeTop node after => exact .refl _
  case linkFree node top after => exact .of_eq (s.arena.values_setNext node top).symm
  case pushFree node top after =>
    dsimp only
    split <;> exact .refl _
  case bumpEpoch after | loadOrphans after | takeOrphans after | readOrphan node after
    | readTag node next after | loadEpoch after => exact absurd hrole (after.role_ne rfl)
  all_goals cases hrole

end Worker

namespace Worker

variable {α : Type} {w v : Worker α} {own own' : List (Strand α)} {x : Tally α} {extra : List α}
  {role : Role}

/-- The call under way stands as it does, or it is over and leaves a fair record. -/
inductive Proceeds (w v : Worker α) (own' : List (Strand α)) (x : Tally α) : Prop where
  | on (records : v.records = w.records) (given : v.given = w.given) (stands : v.Stands own' x)
  | ended (record : CallRecord α) (records : v.records = record :: w.records)
      (values : record.call.values = w.given) (fair : record.Fair x)
      (stands : v.Stands own' .empty)

theorem Stays.given_eq (h : w.Stays v extra role) : v.given = w.given := by
  rw [given, given, h.program]

theorem Stays.isPushing_eq (h : w.Stays v extra role) : v.isPushing = w.isPushing := by
  rw [isPushing, isPushing, h.program]

theorem Stays.proceeds (h : w.Stays v extra role) (hon : v.Stands own' x) :
    w.Proceeds v own' x :=
  .on h.records h.given_eq hon

theorem Goes.proceeds (h : w.Goes v extra role) (hon : w.Stays v extra role → v.Stands own' x)
    (hover : v.phase = .ready → ∀ record : CallRecord α, record.call.isPush = w.isPushing →
      record.call.values = w.given → record.dropped.Perm (extra ++ w.dropped) → record.Fair x) :
    w.Proceeds v own' x := by
  cases h with
  | on h => exact h.proceeds (hon h)
  | ended answer program records ready dropped =>
    refine .ended _ records ?_ (hover ready _ ?_ ?_ (List.reverse_perm _)) (.idle ready dropped rfl)
    · rw [given, program]
    · rw [isPushing, program]
      rfl
    · rw [given, program]

/-- All values are published; what is left to do drops none. -/
theorem Goes.proceeds_closing (h : w.Goes v [] .closing) (hpushing : w.isPushing = true)
    (hdropped : w.dropped = []) (hpublished : x.published = [w.given]) (hwarned : x.warned = []) :
    w.Proceeds v own' x := by
  refine h.proceeds (fun hstays => ?_) fun _ record _ hgiven hrest => ?_
  · refine .closing hstays.phase (hstays.isPushing_eq.trans hpushing) ?_ ?_ hwarned
    · rw [hstays.dropped, hdropped]
      rfl
    · rw [hstays.given_eq, hpublished]
  · rw [hdropped] at hrest
    exact .published (hpublished.trans (by rw [hgiven])) hrest.eq_nil hwarned

theorem tally_ready (hready : w.phase = .ready) (s : Store α) (spurious : Bool) :
    w.tally s spurious = .empty := by
  rw [tally, published, deed?, warned, handOut?, freed, hready]
  rfl

theorem Stays.isPrivate (h : w.Stays v extra role) (hrole : role.isPrivate = true) :
    v.phase.role.isPrivate = true := by
  rw [h.phase]
  exact hrole

end Worker

theorem Swung.eq_of_none {α : Type} {live live' : Load α} {new : List α}
    (h : Swung live live' none new) : live' = live := by
  cases h
  rfl

namespace Machine.Access

variable {α : Type} {m : Machine α} {before after : Crew α} {w : Worker α} {spurious : Bool}
  {own own' : List (Strand α)} {L M : Layout α} {live live' : Load α} {outs : Nat → Nat}
  (h : m.Access before after w own spurious L live outs own' M live')
include h

/-- The values in hand are what they were, less those taken out of their nodes. -/
theorem values_own (extra : List α) (hdeed : w.deed? m.store spurious = none)
    (harena : m.store.arena.values.Perm (extra ++ (w.step m.store spurious).1.arena.values)) :
    (Strand.values own.flatten).Perm (extra ++ Strand.values own'.flatten) := by
  have hlive : live' = live := (hdeed ▸ h.swung).eq_of_none
  have hfore := h.fore.front.values_strands
  have hnext := h.laid.values_strands
  simp only [Layout.withStrands, List.flatten_append, Strand.values_append, Worker.values_hand,
    h.fore.stack, h.next.stack, hlive] at hfore hnext
  classical
  apply List.perm_iff_count.2
  intro value
  have hfore := hfore.count_eq value
  have hnext := hnext.count_eq value
  have harena := harena.count_eq value
  simp only [List.count_append] at *
  omega

/-- A node in hand was taken hold of, and is given back. -/
theorem nodes_perm (hw : w.phase.role.isPrivate = true)
    (hv : (w.step m.store spurious).2.phase.role.isPrivate = true)
    (hhead : (w.step m.store spurious).1.head = m.store.head) {taken returned : List Nat}
    (hnodes : taken.Perm (returned ++ own.flatten.map Cell.index)) :
    (taken ++ (w.handOut? m.store spurious).toList).Perm
      (returned ++ (w.freed m.store spurious).map Link.index ++ own'.flatten.map Cell.index) := by
  have horphans := w.root_step m.store spurious (Phase.of_isPrivate hw).2.2
  have hhand := h.hand_perm hhead horphans
  rw [Worker.map_index_hand, Worker.map_index_hand] at hhand
  have hdeferred := (Worker.deferred_perm hw hv).map Link.index
  apply List.perm_iff_count.2
  intro i
  have hhand := hhand.count_eq i
  have hdeferred := hdeferred.count_eq i
  have hnodes := hnodes.count_eq i
  simp only [List.count_append] at *
  omega

theorem own_eq_nil (hready : (w.step m.store spurious).2.phase = .ready) : own' = [] := by
  have howns := h.next.fits_front.owns
  rw [hready] at howns
  exact howns

/-- A push or a batch drops values, and they are among those that it was given. -/
theorem proceeds_discarding {x : Tally α} {extra : List α}
    (hgoes : w.Goes (w.step m.store spurious).2 extra .discarding)
    (hw : w.phase.role.isPrivate = true) (hpushing : w.isPushing = true)
    (hhead : (w.step m.store spurious).1.head = m.store.head)
    (hvalues : (extra ++ w.dropped ++ Strand.values own'.flatten).Perm w.given)
    (hput : x.published = []) (hpublished : w.published m.store spurious = [])
    (hnodes : x.taken.Perm (x.returned ++ own.flatten.map Cell.index)) :
    w.Proceeds (w.step m.store spurious).2 own' (x.add (w.tally m.store spurious)) := by
  have hnone : (x.add (w.tally m.store spurious)).published = [] := by
    rw [Tally.add, hput]
    exact hpublished
  refine hgoes.proceeds (fun hstays => ?_) fun hready record hpush hgiven hrest => ?_
  · refine .discarding hstays.phase (hstays.isPushing_eq.trans hpushing) ?_ hnone
      (h.nodes_perm hw (hstays.isPrivate rfl) hhead hnodes)
    rw [hstays.dropped, hstays.given_eq]
    exact hvalues
  · have hown := h.own_eq_nil hready
    have hback := h.nodes_perm hw (by rw [hready]; rfl) hhead hnodes
    rw [hown] at hvalues hback
    refine .discarded hnone ?_ ?_
    · rw [hgiven]
      exact hrest.trans (.trans (.of_eq (List.append_nil _).symm) hvalues)
    · exact hback.trans (.of_eq (List.append_nil _))

theorem proceeds_idle (hready : w.phase = .ready) (hdropped : w.dropped = []) :
    w.Proceeds (w.step m.store spurious).2 own'
      (Tally.empty.add (w.tally m.store spurious)) := by
  have hstep : w.step m.store spurious = (m.store, w.start) := by rw [Worker.step, hready]
  have hprivate : w.phase.role.isPrivate = true := by rw [hready]; rfl
  have hhead : (w.step m.store spurious).1.head = m.store.head := by rw [hstep]
  have hpublished : w.published m.store spurious = [] := by
    rw [Worker.published, Worker.deed?, hready]
  have hown : own = [] := by
    have howns := h.fore.fits_front.owns
    rw [hready] at howns
    exact howns
  have hnodes : ([] : List Nat).Perm ([] ++ own.flatten.map Cell.index) := by
    rw [hown]
    exact .nil
  cases hprogram : w.program with
  | nil =>
    have hstart : w.start = w := by rw [Worker.start, hprogram]
    rw [Worker.tally_ready hready, hstep]
    dsimp only
    rw [hstart]
    exact .on rfl rfl (.idle hready hdropped rfl)
  | cons call rest =>
    have hpushing : w.isPushing = call.isPush := by
      rw [Worker.isPushing, hprogram]
      rfl
    have hgiven : w.given = call.values := by rw [Worker.given, hprogram]
    have hcases := Worker.start_cases hprogram
    rw [show w.start = (w.step m.store spurious).2 by rw [hstep]] at hcases
    rcases hcases with ⟨hpush, hstays | ⟨hempty, hgoes⟩⟩ | ⟨hpush, -, hstays⟩
    · refine hstays.proceeds (.loading hstays.phase ?_ ?_ hpublished ?_ ?_)
      · rw [hstays.isPushing_eq, hpushing, hpush]
      · rw [hstays.dropped, hdropped]
        rfl
      · rw [Worker.tally, Worker.warned, hready]
        rfl
      · exact h.nodes_perm hprivate (hstays.isPrivate rfl) hhead hnodes
    · have hvalues := h.values_own [] (Worker.deed?_eq_none hprivate hpublished)
        (by rw [hstep]; exact .refl _)
      rw [hown] at hvalues
      refine h.proceeds_discarding hgoes hprivate (hpushing.trans hpush) hhead ?_ rfl hpublished
        hnodes
      rw [hdropped, hgiven, hempty]
      exact hvalues.symm
    · refine hstays.proceeds (.other hstays.phase ?_ ?_ ?_ hpublished)
      · rw [hstays.program, hprogram]
        exact List.cons_ne_nil _ _
      · rw [hstays.isPushing_eq, hpushing, hpush]
      · rw [hstays.dropped, hdropped]
        rfl

theorem node_ne_nil {node : Link} (hnode : (∃ job value, w.phase = .clearTag job value node) ∨
    ∃ job, w.phase = .linkNode job node) : node ≠ .nil := by
  have hfits := h.fore.fits_front
  have hcell : ∃ c ∈ own.flatten, c.link = node := by
    have howns := hfits.owns
    rcases hnode with ⟨job, value, hphase⟩ | ⟨job, hphase⟩
    · rw [hphase] at howns
      obtain ⟨u, -, rfl⟩ := howns
      exact ⟨_, List.mem_cons_self, rfl⟩
    · rw [hphase] at howns
      obtain ⟨u, value, -, rfl⟩ := howns
      exact ⟨_, List.mem_cons_self, rfl⟩
  obtain ⟨c, hc, rfl⟩ := hcell
  obtain ⟨u, hu, hcu⟩ := List.mem_flatten.1 hc
  exact h.fore.front.ne_nil (Layout.mem_cells.2
    (.inr ⟨u, List.mem_append_left _ (List.mem_append_left _ hu), hcu⟩))

theorem proceeds_loading {x : Tally α} (hrole : w.phase.role = .loading)
    (hpushing : w.isPushing = true) (hdropped : w.dropped = []) (hput : x.published = [])
    (hwarned : x.warned = []) (hnodes : x.taken.Perm (x.returned ++ own.flatten.map Cell.index)) :
    w.Proceeds (w.step m.store spurious).2 own' (x.add (w.tally m.store spurious)) := by
  have hprivate : w.phase.role.isPrivate = true := by rw [hrole]; rfl
  have hloads := Worker.loads_step (Worker.program_ne_nil hpushing) hrole
    (fun node => h.node_ne_nil) m.store spurious
  cases hloads with
  | load hstays hpublished hnew hhead =>
    refine hstays.proceeds (.loading hstays.phase (hstays.isPushing_eq.trans hpushing) ?_ ?_ ?_
      (h.nodes_perm hprivate (hstays.isPrivate rfl) hhead hnodes))
    · rw [hstays.dropped, hdropped]
      rfl
    · rw [Tally.add, hput]
      exact hpublished
    · rw [Tally.add, hwarned]
      exact hnew
  | giveUp hgoes hextra hpublished harena hhead =>
    refine h.proceeds_discarding hgoes hprivate hpushing hhead ?_ hput hpublished hnodes
    have hvalues := h.values_own [] (Worker.deed?_eq_none hprivate hpublished)
      (by rw [harena]; exact .refl _)
    have hgiven := Worker.values_perm h.fore.fits_front.owns hrole
    rw [hdropped, List.append_nil]
    exact (List.perm_append_comm.trans ((hvalues.symm.append_right _).trans
      (hextra.append_left _))).trans hgiven
  | publish hgoes hpublished hnew =>
    refine hgoes.proceeds_closing hpushing hdropped ?_ ?_
    · rw [Tally.add, hput]
      exact hpublished
    · rw [Tally.add, hwarned]
      exact hnew

/-- The access that ends a call leaves a fair record; any other keeps to where the call stands. -/
theorem proceeds {x : Tally α} (hx : w.Stands own x) :
    w.Proceeds (w.step m.store spurious).2 own' (x.add (w.tally m.store spurious)) := by
  cases hx with
  | idle ready dropped tally =>
    rw [tally]
    exact h.proceeds_idle ready dropped
  | loading role pushing dropped published warned nodes =>
    exact h.proceeds_loading role pushing dropped published warned nodes
  | discarding role pushing dropped published nodes =>
    have hprivate : w.phase.role.isPrivate = true := by rw [role]; rfl
    have hgoes := Worker.goes_step (Worker.program_ne_nil pushing) m.store spurious
      (by rw [role]; exact nofun) (by rw [role]; exact nofun)
    rw [role] at hgoes
    have hpublished := w.published_eq_nil (by rw [role]; exact nofun) m.store spurious
    have hhead := (Worker.aside_of_role (by rw [role]; exact nofun) (by rw [role]; exact nofun)
      m.store spurious).2
    have hvalues := h.values_own _ (Worker.deed?_eq_none hprivate hpublished)
      (Worker.values_step h.fore.laid.sound role spurious)
    refine h.proceeds_discarding hgoes hprivate pushing hhead ?_ published hpublished nodes
    refine .trans ?_ dropped
    rw [List.append_assoc]
    exact List.perm_append_comm_assoc _ _ _ |>.trans (hvalues.symm.append_left _)
  | closing role pushing dropped published warned =>
    have hgoes := Worker.goes_step (Worker.program_ne_nil pushing) m.store spurious
      (by rw [role]; exact nofun) (by rw [role]; exact nofun)
    rw [role, Worker.lost_eq_nil (by rw [role]; exact nofun)] at hgoes
    refine hgoes.proceeds_closing pushing dropped ?_ ?_
    · rw [Tally.add, published, Worker.tally,
        Worker.published_eq_nil (by rw [role]; exact nofun)]
      rfl
    · rw [Tally.add, warned]
      exact (Worker.aside_of_role (by rw [role]; exact nofun) (by rw [role]; exact nofun)
        m.store spurious).1
  | other role busy pushing dropped published =>
    have hgoes := Worker.goes_step busy m.store spurious
      (by rw [role]; exact nofun) (by rw [role]; exact nofun)
    rw [role, Worker.lost_eq_nil (by rw [role]; exact nofun)] at hgoes
    have hpublished : (x.add (w.tally m.store spurious)).published = [] := by
      rw [Tally.add, published]
      exact Worker.published_eq_nil (by rw [role]; exact nofun) m.store spurious
    refine hgoes.proceeds (fun hstays => ?_) fun _ record hpush _ hrest => ?_
    · refine .other hstays.phase (hstays.program ▸ busy) (hstays.isPushing_eq.trans pushing) ?_
        hpublished
      rw [hstays.dropped, dropped]
      rfl
    · rw [dropped] at hrest
      exact .other (hpush.trans pushing) hpublished hrest.eq_nil

end Machine.Access

end RecyclingStack
