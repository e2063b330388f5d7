import Mathlib.Data.List.Flatten
import RecyclingStack.Proofs.Interleaving.Traffic

/-! Custody of nodes while threads work side by side. A node is with one thread or on one chain at
a time. What was popped goes through deferred lists and the orphan chain, from one thread to the
next, and every change of hands is accounted for. -/
namespace RecyclingStack

section

variable {α : Type}

def Release.due (node : Link) : Release α → List Link
  | .discard _ _ _ => []
  | .sweep rest _ _ => node :: rest

/-- Retired nodes that a call under way keeps a list of: those due, and those to be left behind. -/
def Phase.listed : Phase α → List Link
  | .find _ after => after.listed
  | .loadFreeTop node after | .linkFree node _ after | .pushFree node _ after => after.due node
  | .threadOrphans nodes _ | .loadOrphanTop nodes | .linkOrphans nodes _ | .pushOrphans nodes _ =>
    nodes
  | _ => []

end

namespace Worker

variable {α : Type}

def listed (w : Worker α) : List Link := w.phase.listed ++ w.context.deferred.links

def waiting (a : Arena α) (w : Worker α) : List Link := w.phase.stray a ++ w.listed

section

variable (w : Worker α) (s : Store α) (spurious : Bool)

/-- The node whose allocation an access completes. -/
def allotted : List Link :=
  match w.phase with
  | .clearTag _ _ node => [node]
  | _ => []

def retired : List Link :=
  match w.phase with
  | .storeTag node _ _ => [node]
  | _ => []

def adopted : List Link :=
  match w.phase with
  | .readTag node _ _ => [node]
  | _ => []

/-- The nodes that an access leaves to the orphans. -/
def spliced : List Link :=
  match w.phase with
  | .pushOrphans nodes top => if exchanges spurious s.orphans top then nodes else []
  | _ => []

def reclaimed : List Link :=
  match w.phase with
  | .pushFree node top (.sweep _ _ _) =>
    if exchanges spurious s.pool.free top then [node] else []
  | _ => []

end

/-- A thread has these retired nodes on its lists, and goes along no orphans. -/
structure Rests (v : Worker α) (links : List Link) : Prop where
  listed : v.listed = links
  still : v.phase.isAdopting = false

section

variable (w : Worker α)

theorem rests_goto {phase : Phase α} (hlisted : phase.listed = [])
    (hstill : phase.isAdopting = false) : (w.goto phase).Rests w.context.deferred.links :=
  ⟨by rw [Worker.listed, goto, hlisted]; rfl, hstill⟩

theorem rests_finish (answer : CallAnswer α) :
    (w.finish answer).Rests w.context.deferred.links := by
  unfold finish
  split
  · exact w.rests_goto rfl rfl
  · exact ⟨rfl, rfl⟩

theorem rests_complete (settings : Settings) (answer : CallAnswer α) :
    (w.complete settings answer).Rests w.context.deferred.links := by
  rw [complete]
  split
  · exact rests_goto { w with context := w.context.count } rfl rfl
  · exact rests_finish { w with context := w.context.count } answer

theorem rests_build (job : Job α) : (w.build job).Rests w.context.deferred.links := by
  unfold build
  split
  · exact w.rests_goto rfl rfl
  · exact w.rests_finish _
  · exact w.rests_goto rfl rfl

theorem rests_rollBack (job : Job α) (value : α) (failure : Exhausted) :
    (w.rollBack job value failure).Rests w.context.deferred.links := by
  rw [rollBack, foldl_drop]
  cases job.first with
  | nil => exact rests_finish { w with dropped := job.rest.reverse ++ value :: w.dropped } _
  | node i g =>
    exact rests_goto { w with dropped := job.rest.reverse ++ value :: w.dropped } rfl rfl

theorem rests_takeFree (job : Job α) (value : α) (top : Link) :
    (w.takeFree job value top).Rests w.context.deferred.links := by
  cases top <;> exact w.rests_goto rfl rfl

theorem rests_takeFresh (capacity : Nat) (job : Job α) (value : α) (index : Nat) :
    (w.takeFresh capacity job value index).Rests w.context.deferred.links := by
  unfold takeFresh
  split
  · exact w.rests_rollBack job value _
  · exact w.rests_goto rfl rfl

theorem rests_takeTop (head : Link) : (w.takeTop head).Rests w.context.deferred.links := by
  cases head with
  | nil => exact w.rests_finish _
  | node i g => exact w.rests_goto rfl rfl

theorem rests_afterSweep (total : Nat) (after : SweepEnd α) :
    (w.afterSweep total after).Rests w.context.deferred.links := by
  cases after with
  | recycled => exact w.rests_finish _
  | complete answer => exact w.rests_finish _
  | leave =>
    -- the deferred list becomes the list of those to be left behind
    simp only [afterSweep]
    split
    · rename_i hlinks
      rw [hlinks]
      exact rests_finish { w with context := { w.context with deferred := .empty } } _
    · rename_i node hlinks
      rw [hlinks]
      exact ⟨rfl, rfl⟩
    · rename_i node nodes _ hlinks
      rw [hlinks]
      exact ⟨List.append_nil _, rfl⟩

theorem rests_sweepOn (total : Nat) (after : SweepEnd α) (nodes : List Link) :
    (w.sweepOn total after nodes).Rests (nodes ++ w.context.deferred.links) := by
  cases nodes with
  | nil => exact w.rests_afterSweep total after
  | cons node rest => exact ⟨rfl, rfl⟩

theorem rests_afterRelease (node : Link) (after : Release α) :
    (w.afterRelease node after).Rests ((after.due node).tail ++ w.context.deferred.links) := by
  cases after with
  | discard next last answer =>
    rw [afterRelease]
    split
    · exact w.rests_finish answer
    · exact w.rests_goto rfl rfl
  | sweep rest total after => exact w.rests_sweepOn total after rest

theorem rests_start (hready : w.phase = .ready) : w.start.Rests w.context.deferred.links := by
  cases hprogram : w.program with
  | nil =>
    rw [start, hprogram]
    exact ⟨by rw [Worker.listed, hready]; rfl, by rw [hready]; rfl⟩
  | cons call rest =>
    rw [start, hprogram]
    cases call with
    | push value => exact w.rests_build _
    | pushBatch values => exact w.rests_build _
    | _ => exact w.rests_goto rfl rfl

end

theorem listed_adoptFrom (w : Worker α) (after : SweepEnd α) (node : Link) :
    (w.adoptFrom after node).listed = w.context.deferred.links := by
  cases node <;> rfl

theorem stray_adoptFrom (a : Arena α) (w : Worker α) (after : SweepEnd α) (node : Link) :
    (w.adoptFrom after node).phase.stray a = a.chain node := by
  cases node with
  | nil => exact a.chain_nil.symm
  | node i g => rfl

/-- What an access retires, and what was listed before, is given back, left to the orphans, or
listed after it. -/
theorem step_rests (w : Worker α) (s : Store α) (spurious : Bool)
    (hstill : w.phase.isAdopting = false) (htake : ∀ after, w.phase ≠ .takeOrphans after) :
    ∃ links, (w.step s spurious).2.Rests links ∧
      (w.retired ++ w.listed).Perm (w.reclaimed s spurious ++ w.spliced s spurious ++ links) := by
  have hplain : ∀ {phase : Phase α} {v : Worker α}, w.phase = phase →
      v.Rests (phase.listed ++ w.context.deferred.links) →
      ∃ links, v.Rests links ∧ w.listed.Perm links := by
    rintro phase v rfl hv
    exact ⟨_, hv, .refl _⟩
  unfold step retired reclaimed spliced
  cases hphase : w.phase with
  | ready => exact hplain hphase (w.rests_start hphase)
  | find index after =>
    rw [hphase] at hstill
    exact hplain hphase ⟨rfl, hstill⟩
  | loadFree job value => exact hplain hphase (w.rests_takeFree job value _)
  | swingFree job value top next =>
    dsimp only
    split
    · exact hplain hphase (w.rests_goto rfl rfl)
    · exact hplain hphase (w.rests_takeFree job value _)
  | loadFresh job value => exact hplain hphase (w.rests_takeFresh _ job value _)
  | checkSegment job value index =>
    dsimp only
    split <;> exact hplain hphase (w.rests_goto rfl rfl)
  | installSegment job value index =>
    dsimp only
    split
    · exact hplain hphase (w.rests_rollBack job value _)
    split <;> exact hplain hphase (w.rests_goto rfl rfl)
  | claimFresh job value index =>
    dsimp only
    split
    · exact hplain hphase (w.rests_goto rfl rfl)
    · exact hplain hphase (w.rests_takeFresh _ job value _)
  | clearTag job value node =>
    dsimp only
    split
    · exact hplain hphase (w.rests_goto rfl rfl)
    · exact hplain hphase (w.rests_build _)
  | linkNode job node => exact hplain hphase (w.rests_build _)
  | checkShutdown first last head =>
    dsimp only
    split <;> exact hplain hphase (w.rests_goto rfl rfl)
  | swingHead first last head =>
    dsimp only
    split
    · exact hplain hphase (w.rests_complete _ _)
    · exact hplain hphase (w.rests_goto rfl rfl)
  | readDoomed node last answer =>
    dsimp only
    split
    · exact hplain hphase (w.rests_goto rfl rfl)
    · exact hplain hphase (rests_goto (w.drop _) rfl rfl)
  | loadTop => exact hplain hphase (w.rests_takeTop _)
  | checkTop head =>
    dsimp only
    split
    · exact hplain hphase (w.rests_finish _)
    · exact hplain hphase (w.rests_goto rfl rfl)
  | swingTop head next =>
    dsimp only
    split
    · split
      · exact hplain hphase (w.rests_finish _)
      · exact hplain hphase (w.rests_goto rfl rfl)
    · exact hplain hphase (w.rests_takeTop _)
  | loadRetireEpoch node value =>
    exact hplain hphase (rests_goto { w with context := { w.context with snapshot := s.epoch } }
      rfl rfl)
  | storeTag node value epoch =>
    refine ⟨_, rests_complete { w with context := w.context.defer node epoch } _ _, ?_⟩
    rw [listed, hphase]
    exact (w.context.deferred.links_push node epoch).symm
  | loadOrphans after =>
    dsimp only
    split <;> exact hplain hphase (w.rests_goto rfl rfl)
  | takeOrphans after => exact absurd hphase (htake after)
  | readOrphan node after | readTag node next after =>
    rw [hphase] at hstill
    cases hstill
  | loadEpoch after =>
    refine ⟨_, rests_sweepOn { w with context := { w.context with
      snapshot := s.epoch
      deferred := w.context.deferred.retained s.epoch s.settings.gracePeriod } } _ after _, ?_⟩
    rw [listed, hphase, w.context.deferred.released_append_retained s.epoch]
    exact .refl _
  | pushFree node top after =>
    have hlisted : w.listed = after.due node ++ w.context.deferred.links := by
      rw [listed, hphase]
      rfl
    dsimp only
    split
    · rename_i hthrough
      refine ⟨_, w.rests_afterRelease node after, ?_⟩
      rw [hlisted]
      cases after with
      | discard next last answer => exact .refl _
      | sweep rest total after =>
        dsimp only
        rw [if_pos hthrough]
        exact .refl _
    · rename_i hfails
      refine ⟨w.listed, ⟨hlisted.symm, rfl⟩, ?_⟩
      cases after with
      | discard next last answer => exact .refl _
      | sweep rest total after =>
        dsimp only
        rw [if_neg hfails]
        exact .refl _
  | threadOrphans nodes todo =>
    rcases todo with _ | ⟨node, _ | ⟨next, rest⟩⟩
    · exact hplain hphase ⟨rfl, rfl⟩
    · exact hplain hphase ⟨rfl, rfl⟩
    · cases rest <;> exact hplain hphase ⟨rfl, rfl⟩
  | pushOrphans nodes top =>
    dsimp only
    split
    · refine ⟨_, w.rests_finish _, ?_⟩
      rw [listed, hphase]
      exact .refl _
    · exact hplain hphase ⟨rfl, rfl⟩
  | raiseShutdown => exact hplain hphase (w.rests_finish _)
  | _ => exact hplain hphase ⟨rfl, rfl⟩

theorem stray_of_still {phase : Phase α} (h : phase.isAdopting = false) (a : Arena α) :
    phase.stray a = [] := by
  induction phase with
  | find index after ih => exact ih h
  | readOrphan node after | readTag node next after => cases h
  | _ => rfl

theorem waiting_sublist {s : Store α} {L : Layout α} {own : List (Strand α)} {given : List α}
    {phase : Phase α} (h : s.Laid L) (hown : ∀ u ∈ own, u ∈ L.strands)
    (howns : phase.Owns given own)
    (haims : ∀ l ∈ phase.aim?, ∃ u ∈ own.head?, s.arena.Leads u.first u l) :
    ((phase.stray s.arena ++ phase.listed).map Cell.spent).Sublist own.flatten := by
  have hidle : ∀ links : List Link, ((links ++ []).map (Cell.spent (β := α))).Sublist
      [Strand.idle links].flatten := by
    intro links
    rw [List.append_nil, List.flatten_singleton]
    exact .refl _
  induction phase with
  | find index after ih => exact ih howns haims
  | readOrphan node after =>
    have hstray := stray_eq h hown howns haims
    obtain ⟨links, rfl⟩ := howns
    rw [Phase.isAdopting, if_pos rfl, List.flatten_singleton, Strand.map_link_idle] at hstray
    rw [hstray]
    exact hidle (node :: links)
  | readTag node next after =>
    have hstray := stray_eq h hown howns haims
    obtain ⟨links, -, rfl⟩ := howns
    rw [Phase.isAdopting, if_pos rfl, List.flatten_singleton, Strand.map_link_idle] at hstray
    rw [hstray]
    exact hidle (node :: links)
  | loadFreeTop node after | linkFree node top after | pushFree node top after =>
    obtain ⟨rest, rfl, hafter⟩ := howns
    cases after with
    | discard next last answer => exact List.nil_sublist _
    | sweep nodes total after =>
      obtain rfl : rest = Strand.loose nodes := hafter
      rw [List.flatten_cons, Strand.flatten_loose]
      exact .refl _
  | threadOrphans nodes todo =>
    obtain ⟨before, node, rest, rfl, rfl, rfl⟩ := howns
    rw [List.flatten_cons, Strand.flatten_loose, Strand.idle, Strand.idle, ← List.map_append,
      List.append_assoc]
    exact .refl _
  | loadOrphanTop nodes | linkOrphans nodes top | pushOrphans nodes top =>
    obtain ⟨-, rfl⟩ := howns
    rw [List.flatten_singleton]
    exact .refl _
  | _ => exact List.nil_sublist _

/-- An access that goes along orphans, or takes them over, hands nothing on to anybody else. -/
theorem listed_perm (w : Worker α) (s : Store α) (spurious : Bool) :
    (w.retired ++ w.adopted ++ w.listed).Perm
      (w.reclaimed s spurious ++ w.spliced s spurious ++ (w.step s spurious).2.listed) := by
  have hrests := w.step_rests s spurious
  have hsame : ∀ {phase : Phase α} {v : Worker α}, w.phase = phase →
      v.listed = phase.listed ++ w.context.deferred.links → w.listed.Perm v.listed := by
    rintro phase v rfl hv
    rw [hv]
    exact .refl _
  unfold step retired adopted reclaimed spliced at *
  cases hphase : w.phase with
  | takeOrphans after => exact hsame hphase (w.listed_adoptFrom after _)
  | readOrphan node after => exact hsame hphase rfl
  | readTag node next after =>
    dsimp only
    rw [listed_adoptFrom, listed, hphase]
    exact (w.context.deferred.links_push node _).symm
  | find index after => exact hsame hphase rfl
  | _ =>
    rw [hphase] at hrests
    obtain ⟨links, hv, hperm⟩ := hrests rfl fun _ h => by cases h
    rw [← hv.listed] at hperm
    simpa using hperm

end Worker

namespace Machine.Access

variable {α : Type} {m : Machine α} {before after : Crew α} {w : Worker α} {spurious : Bool}
  {own own' : List (Strand α)} {L M : Layout α} {live live' : Load α} {outs : Nat → Nat}
  (h : m.Access before after w own spurious L live outs own' M live')
include h

theorem orphans_still
    (hroot : (w.step m.store spurious).1.root .orphans = m.store.root .orphans) :
    (w.step m.store spurious).1.orphanChain = m.store.orphanChain := by
  have hfore := h.fore.front.chain_root .orphans
  have hnext := h.laid.chain_root .orphans
  rw [Layout.on_withStrands] at hfore hnext
  exact hnext.trans ((h.links_still hroot).trans hfore.symm)

/-- Orphans that are left behind are on the orphan chain until a thread takes them over, and then
with that thread until it has filed them. -/
theorem stray_perm :
    (w.spliced m.store spurious ++ (m.store.orphanChain ++ w.phase.stray m.store.arena)).Perm
      (w.adopted ++ ((w.step m.store spurious).1.orphanChain ++
        (w.step m.store spurious).2.phase.stray (w.step m.store spurious).1.arena)) := by
  have hfits := h.fore.fits_front
  have hlaid := h.fore.front
  have hmem : ∀ u ∈ own, u ∈ (L.withStrands (w.hand own ++ Crew.aside before after)).strands :=
    fun u hu => List.mem_append_left _ (List.mem_append_left _ hu)
  have hrests := w.step_rests m.store spurious
  have hroot := w.root_step m.store spurious (r := .orphans)
  have howns := hfits.owns
  have haims := hfits.aims
  cases hphase : w.phase with
  | takeOrphans after =>
    have hstep : w.step m.store spurious =
        ({ m.store with orphans := .nil }, w.adoptFrom after m.store.orphans) := by
      rw [Worker.step, hphase]
    have hempty : ({ m.store with orphans := .nil } : Store α).orphanChain = [] :=
      Arena.chain_nil _
    rw [hstep, Worker.stray_adoptFrom, hempty, Worker.spliced, Worker.adopted, hphase]
    exact .of_eq (List.append_nil m.store.orphanChain)
  | readOrphan node after =>
    rw [hphase] at howns haims
    obtain ⟨links, rfl⟩ := howns
    obtain ⟨u, hu, hlead⟩ := haims _ rfl
    cases hu
    have hchain := hlaid.chain_cons (Layout.sublist_strand (hmem _ List.mem_cons_self)) hlead
    have hstep : w.step m.store spurious =
        (m.store, w.goto (.readTag node (m.store.arena.next node) after)) := by
      rw [Worker.step, hphase]
    rw [hstep, Worker.spliced, Worker.adopted, hphase]
    exact List.Perm.append_left m.store.orphanChain (.of_eq hchain)
  | readTag node next after =>
    rw [Worker.step, Worker.spliced, Worker.adopted, hphase]
    dsimp only
    rw [Worker.stray_adoptFrom]
    exact List.perm_middle
  | find index after =>
    rw [Worker.step, Worker.spliced, Worker.adopted, hphase]
    exact .refl _
  | pushOrphans nodes top =>
    rw [hphase] at howns haims
    obtain ⟨-, rfl⟩ := howns
    obtain ⟨u, hu, hlead⟩ := haims _ rfl
    cases hu
    rw [Worker.spliced, Worker.adopted, hphase]
    dsimp only
    split
    · rename_i hthrough
      have hstep : w.step m.store spurious =
          ({ m.store with orphans := nodes.headD .nil }, w.finish .done) := by
        rw [Worker.step, hphase]
        dsimp only
        rw [if_pos hthrough]
      rw [← eq_of_exchanges hthrough] at hlead
      have hfirst : nodes.headD .nil = (Strand.idle nodes : Strand α).first := by
        cases nodes <;> rfl
      have hpushed := h.links_push (r := .orphans) (List.mem_append_left _ List.mem_cons_self)
        (by rw [hstep]; rfl) hlead (by rw [hstep]; exact hfirst)
      have hfore := hlaid.chain_root .orphans
      have hnext := h.laid.chain_root .orphans
      rw [Layout.on_withStrands] at hfore hnext
      rw [hpushed, List.map_append, Strand.map_link_idle, ← hfore] at hnext
      rw [show (w.step m.store spurious).1.orphanChain = nodes ++ m.store.orphanChain from hnext,
        hstep, Worker.stray_of_still (w.rests_finish _).still]
      simp [Phase.stray]
    · rename_i hfails
      have hstep : w.step m.store spurious =
          (m.store, w.goto (.linkOrphans nodes m.store.orphans)) := by
        rw [Worker.step, hphase]
        dsimp only
        rw [if_neg hfails]
      rw [hstep]
      exact .refl _
  | _ =>
    rw [hphase] at hrests hroot
    obtain ⟨links, hv, -⟩ := hrests rfl fun _ h => by cases h
    rw [h.orphans_still (hroot fun h => by cases h), Worker.stray_of_still hv.still, Worker.spliced,
      Worker.adopted, hphase]
    exact .refl _

end Machine.Access

/-- A node without value that is not on the free list was never seen there. -/
theorem Store.Laid.not_seen {α : Type} {s : Store α} {L : Layout α} (h : s.Laid L) {l : Link}
    (hl : Cell.spent l ∈ L.orphans ++ L.strands.flatten) :
    ¬(Sight.mk .free l none).Holds s L := by
  have hcell : Cell.spent l ∈ L.cells := by
    rw [Layout.cells, List.append_assoc]
    exact List.mem_append_right _ hl
  intro hsight
  rcases hsight.seen with ⟨c, hc, hlink⟩ | ⟨d, hd, hindex, hage⟩
  · have hnodup := h.nodup
    rw [Layout.cells, List.append_assoc, List.append_assoc, List.map_append, List.map_append]
      at hnodup
    refine (List.nodup_append.1 (List.nodup_append.1 hnodup).2.1).2.2 _ (List.mem_map_of_mem hc)
      _ (List.mem_map_of_mem hl) ?_
    exact congrArg Link.index hlink
  · rw [h.eq_of_index_eq hd hcell hindex] at hage
    exact Nat.lt_irrefl _ hage

namespace Machine

variable {α : Type} {m : Machine α} {L : Layout α} {crew : Crew α} {live : Load α}
  {outs : Nat → Nat} {schedule : List (Nat × Bool)}

/-- The slots at all places: on the three chains, and with the threads. -/
def places (m : Machine α) : List Nat :=
  (m.store.chain ++ m.store.freeList ++ m.store.orphanChain).map Link.index ++
    m.workers.flatMap (Worker.slots m.store.arena)

/-- The orphans, on their chain or taken over and not filed yet. -/
def stray (m : Machine α) : List Link :=
  m.store.orphanChain ++ m.workers.flatMap fun w => w.phase.stray m.store.arena

def waiting (m : Machine α) : List Link :=
  m.store.orphanChain ++ m.workers.flatMap (Worker.waiting m.store.arena)

section

variable (m : Machine α) (schedule : List (Nat × Bool))

def allotted : List Link := m.logged (fun _ w _ _ => w.allotted) schedule

def retired : List Link := m.logged (fun _ w _ _ => w.retired) schedule

def adopted : List Link := m.logged (fun _ w _ _ => w.adopted) schedule

def spliced : List Link := m.logged (fun _ w s spurious => w.spliced s spurious) schedule

def freed : List Link := m.logged (fun _ w s spurious => w.freed s spurious) schedule

def reclaimed : List Link := m.logged (fun _ w s spurious => w.reclaimed s spurious) schedule

end

namespace Crewed

variable (h : m.Crewed L crew live outs)
include h

theorem chain_on (r : Root) :
    m.store.arena.chain (m.store.root r) = (L.on r).map Cell.link := by
  rw [h.laid.chain_root r, Layout.on_withStrands]

theorem slots_eq {x : Worker α × List (Strand α)} (hx : x ∈ crew) :
    x.1.slots m.store.arena = (x.1.hand x.2).flatten.map Cell.index := by
  have hfits := h.fits x hx
  have hslots := Worker.slots_eq h.laid (fun u hu => Crew.mem_strands hx hu) hfits.owns hfits.aims
  rw [Worker.slots, hslots, Worker.hand, List.flatten_append, List.map_append,
    Strand.flatten_loose, Worker.map_index (Strand.idle _), Strand.map_link_idle]

/-- Each slot handed out is at one place. -/
theorem places_perm : m.places.Perm (List.range m.store.arena.fresh) := by
  have hworkers : m.workers.flatMap (Worker.slots m.store.arena) =
      crew.strands.flatten.map Cell.index := by
    rw [h.workers, List.flatMap_map, Crew.flatten_strands, List.map_flatMap]
    exact List.flatMap_congr fun x hx => h.slots_eq hx
  have hchains : m.store.chain ++ m.store.freeList ++ m.store.orphanChain =
      (L.stack ++ L.free ++ L.orphans).map Cell.link := by
    rw [List.map_append, List.map_append]
    exact congrArg₂ (· ++ ·) (congrArg₂ (· ++ ·) (h.chain_on .stack) (h.chain_on .free))
      (h.chain_on .orphans)
  rw [places, hworkers, hchains, ← Worker.map_index, ← List.map_append]
  exact h.laid.exactly

/-- Retired nodes have no value any more, and are on the orphan chain or with a thread. -/
theorem waiting_sublist :
    (m.waiting.map Cell.spent).Sublist (L.orphans ++ crew.strands.flatten) := by
  have horphans : m.store.orphanChain.map Cell.spent = L.orphans := by
    have hidle : L.orphans = Strand.idle (L.orphans.map Cell.link) :=
      Strand.eq_idle fun c hc => h.laid.idle .orphans (by decide) c hc
    rw [hidle]
    exact congrArg (List.map Cell.spent) (h.chain_on .orphans)
  rw [waiting, List.map_append, horphans, h.workers, List.flatMap_map, Crew.flatten_strands,
    List.map_flatMap]
  refine .append_left (List.Sublist.flatMap_right crew fun x hx => ?_) L.orphans
  have hfits := h.fits x hx
  have hwaiting := Worker.waiting_sublist h.laid (fun u hu => Crew.mem_strands hx hu) hfits.owns
    hfits.aims
  rw [Worker.waiting, Worker.listed, ← List.append_assoc, List.map_append, Worker.hand,
    List.flatten_append, Strand.flatten_loose]
  exact hwaiting.append_right _

end Crewed

section

variable {before after : Crew α} {w : Worker α} {spurious : Bool} {own own' : List (Strand α)}
  {M : Layout α} {live' : Load α}
  (h : m.Access before after w own spurious L live outs own' M live')
include h

theorem Access.stray_aside {x : Worker α × List (Strand α)} (hx : x ∈ before ++ after) :
    x.1.phase.stray (m.step before.length spurious).store.arena =
      x.1.phase.stray m.store.arena := by
  have hin : ∀ v own, x ∈ before ++ (v, own) :: after := by
    intro v own
    simp only [List.mem_append, List.mem_cons] at hx ⊢
    exact hx.imp_right .inr
  have hfore := h.fore.fits x (hin _ _)
  have hnext := h.next.fits x (hin _ _)
  rw [Worker.stray_eq h.fore.laid (fun u hu => Crew.mem_strands (hin _ _) hu) hfore.owns hfore.aims,
    Worker.stray_eq h.next.laid (fun u hu => Crew.mem_strands (hin _ _) hu) hnext.owns hnext.aims]

/-- An access leaves orphans behind, files some, or keeps them where they are. -/
theorem Access.stray_step : (w.spliced m.store spurious ++ m.stray).Perm
    (w.adopted ++ (m.step before.length spurious).stray) := by
  obtain ⟨rest, hfore, hnext⟩ := h.workers_perm
    (f := fun v => v.phase.stray m.store.arena)
    (g := fun v => v.phase.stray (m.step before.length spurious).store.arena) fun x hx =>
      h.stray_aside hx
  have hown := h.stray_perm
  rw [← h.store_eq] at hown
  apply List.perm_iff_count.2
  intro l
  have hfore := hfore.count_eq l
  have hnext := hnext.count_eq l
  have hown := hown.count_eq l
  simp only [stray, List.count_append] at *
  omega

/-- A retired node is given back, or goes on waiting. -/
theorem Access.waiting_step : (w.retired ++ m.waiting).Perm
    (w.reclaimed m.store spurious ++ (m.step before.length spurious).waiting) := by
  obtain ⟨rest, hfore, hnext⟩ := h.workers_perm
    (f := Worker.waiting m.store.arena)
    (g := Worker.waiting (m.step before.length spurious).store.arena) fun x hx =>
      congrArg (· ++ x.1.listed) (h.stray_aside hx)
  have hown := h.stray_perm
  rw [← h.store_eq] at hown
  have hlisted := w.listed_perm m.store spurious
  apply List.perm_iff_count.2
  intro l
  have hfore := hfore.count_eq l
  have hnext := hnext.count_eq l
  have hown := hown.count_eq l
  have hlisted := hlisted.count_eq l
  simp only [waiting, Worker.waiting, List.count_append] at *
  omega

end

/-- The incarnation of a link has got its value by now, if it is not over already. -/
def Past (L : Layout α) (crew : Crew α) (l : Link) : Prop :=
  ∃ d ∈ (L.withStrands crew.strands).cells, d.index = l.index ∧ 4 * l.generation + 1 ≤ d.age

section

variable {before after : Crew α} {w : Worker α} {spurious : Bool} {own own' : List (Strand α)}
  {M : Layout α} {live' : Load α}
  (h : m.Access before after w own spurious L live outs own' M live')
include h

theorem Access.past {l : Link} (hl : Past L (before ++ (w, own) :: after) l) :
    Past M (before ++ ((w.step m.store spurious).2, own') :: after) l := by
  obtain ⟨c, hc, hindex, hage⟩ := hl
  obtain ⟨d, hd, hdi, hda⟩ := h.ages hc
  exact ⟨d, hd, hdi.trans hindex, Nat.le_trans hage hda⟩

/-- Whoever completes an allocation is the first to do so for that incarnation of the slot. -/
theorem Access.allotted_new {l : Link} (hl : l ∈ w.allotted) :
    ¬Past L (before ++ (w, own) :: after) l ∧
      Past M (before ++ ((w.step m.store spurious).2, own') :: after) l := by
  have howns := h.fore.fits_front.owns
  unfold Worker.allotted at hl
  cases hphase : w.phase with
  | clearTag job value node =>
    rw [hphase] at hl howns
    obtain rfl := List.mem_singleton.1 hl
    obtain ⟨u, -, rfl⟩ := howns
    have hcell : ⟨l, .blank⟩ ∈
        (L.withStrands (Crew.strands (before ++ (w, [[⟨l, .blank⟩], u.strand]) :: after))).cells :=
      (Crew.cells_split L before after w _).mem_iff.2
        ((L.cells_cons _ _).mem_iff.2 (List.mem_append_left _ List.mem_cons_self))
    obtain ⟨slot, hslot, hlink, -⟩ := h.fore.laid.holds _ hcell
    constructor
    · rintro ⟨d, hd, hindex, hage⟩
      rw [h.fore.laid.eq_of_index_eq hd hcell hindex] at hage
      exact Nat.lt_irrefl _ hage
    · obtain ⟨d, hd, hindex, -⟩ := h.ages hcell
      refine ⟨d, hd, hindex, ?_⟩
      obtain ⟨slot', hslot', hlink', hvalue'⟩ := h.next.laid.holds d hd
      rw [hindex, h.store_eq, Worker.step, hphase] at hslot'
      cases l with
      | nil => cases hlink
      | node i g =>
        -- the slot has its value now, and so has the cell
        have hg : g = slot.generation := (Link.node.inj hlink).2
        have hslot : m.store.arena.slot? i = some slot := hslot
        have hstored : slot' = { slot with retiredEpoch := 0, value := some value } := by
          apply Option.some.inj
          rw [← hslot']
          dsimp only
          rw [Store.arena_withArena, Arena.update_node]
          refine (Arena.slot?_modify _ _ _ _).trans ?_
          rw [show Cell.index ⟨.node i g, .blank⟩ = i from rfl, if_pos rfl, hslot]
          rfl
        subst hstored
        rw [Cell.age, hlink']
        cases hstage : d.stage with
        | full value => exact Nat.le_of_eq (by rw [hg]; rfl)
        | blank | spent | taken =>
          rw [hstage] at hvalue'
          cases hvalue'
  | _ =>
    rw [hphase] at hl
    cases hl

/-- Whoever gives a node back is the first to do so for that incarnation of the slot. -/
theorem Access.freed_new {l : Link} (hl : l ∈ w.freed m.store spurious) :
    ¬(Sight.mk .free l none).Holds m.store
        (L.withStrands (Crew.strands (before ++ (w, own) :: after))) ∧
      (Sight.mk .free l none).Holds (m.step before.length spurious).store
        (M.withStrands
          (Crew.strands (before ++ ((w.step m.store spurious).2, own') :: after))) := by
  have howns := h.fore.fits_front.owns
  unfold Worker.freed at hl
  cases hphase : w.phase with
  | pushFree node top release =>
    rw [hphase] at hl howns
    dsimp only at hl
    split at hl
    · rename_i hthrough
      obtain rfl := List.mem_singleton.1 hl
      obtain ⟨rest, rfl, -⟩ := howns
      have hspent : Cell.spent l ∈
          (Crew.strands (before ++ (w, [Cell.spent l] :: rest) :: after)).flatten :=
        (Crew.strands_split before after w _).flatten.mem_iff.2 List.mem_cons_self
      refine ⟨h.fore.laid.not_seen (List.mem_append_right _ hspent), ?_⟩
      apply Worker.holds_top h.next.laid (by decide)
      · exact h.fore.laid.ne_nil (c := Cell.spent l) (List.mem_append_right _ hspent)
      · rw [h.store_eq, Worker.step, hphase]
        dsimp only
        rw [if_pos hthrough]
        rfl
    · cases hl
  | _ =>
    rw [hphase] at hl
    cases hl

end

/-- What came in is what went out and what is still there. -/
theorem perm_account {β : Type} {ins outs rest rest' more less : List β}
    (h : ins.Perm (outs ++ rest)) (hstep : (more ++ rest).Perm (less ++ rest')) :
    (ins ++ more).Perm (outs ++ less ++ rest') := by
  apply (h.append_right more).trans
  rw [List.append_assoc, List.append_assoc]
  exact (List.perm_append_comm.trans hstep).append_left outs

/-- What the run so far says of the nodes, given where everything is now. -/
structure Accounted (m : Machine α) (schedule : List (Nat × Bool)) (L : Layout α)
    (crew : Crew α) : Prop where
  adopted : (m.spliced schedule).Perm (m.adopted schedule ++ (m.run schedule).stray)
  retired : (m.retired schedule).Perm (m.reclaimed schedule ++ (m.run schedule).waiting)
  allotted : (m.allotted schedule).Nodup
  past : ∀ l ∈ m.allotted schedule, Past L crew l
  freed : (m.freed schedule).Nodup
  gone : ∀ l ∈ m.freed schedule,
    (Sight.mk .free l none).Holds (m.run schedule).store (L.withStrands crew.strands)

theorem accounted_nil (p : Plan) (programs : List (List (Call α))) :
    (ofPrograms p programs).Accounted [] ⟨[], [], [], []⟩ (newCrew p programs) := by
  have hchain : (ofPrograms p programs).store.orphanChain = [] := Arena.chain_nil _
  have hnone : ∀ f : Worker α → List Link, (∀ program, f (.register (.ofPlan p) program) = []) →
      (ofPrograms p programs).workers.flatMap f = [] := by
    intro f hf
    apply List.flatMap_eq_nil_iff.2
    intro w hw
    obtain ⟨program, -, rfl⟩ := List.mem_map.1 hw
    exact hf program
  constructor
  · rw [run, List.foldl_nil, stray, hchain, hnone _ fun _ => rfl]
    exact .refl _
  · rw [run, List.foldl_nil, waiting, hchain, hnone _ fun _ => rfl]
    exact .refl _
  · exact .nil
  · exact fun _ hl => by cases hl
  · exact .nil
  · exact fun _ hl => by cases hl

theorem Accounted.skip (hm : m.Accounted schedule L crew) {worker : Nat} (spurious : Bool)
    (hnone : (m.run schedule).workers[worker]? = none) :
    m.Accounted (schedule ++ [(worker, spurious)]) L crew := by
  obtain ⟨hadopted, hretired, hallotted, hpast, hfreed, hgone⟩ := hm
  constructor <;>
    simpa only [Machine.spliced, Machine.adopted, Machine.retired, Machine.reclaimed,
      Machine.allotted, Machine.freed, logged_skip _ hnone, run_turn, step_none hnone]

section

variable {before after : Crew α} {w : Worker α} {spurious : Bool} {own own' : List (Strand α)}
  {M : Layout α} {live' : Load α}

theorem Accounted.access (hm : m.Accounted schedule L (before ++ (w, own) :: after))
    (h : (m.run schedule).Access before after w own spurious L live outs own' M live') :
    m.Accounted (schedule ++ [(before.length, spurious)]) M
      (before ++ ((w.step (m.run schedule).store spurious).2, own') :: after) := by
  have hw := h.fore.worker
  constructor
  · rw [Machine.spliced, Machine.adopted, logged_turn _ hw, logged_turn _ hw, run_turn]
    exact perm_account hm.adopted h.stray_step
  · rw [Machine.retired, Machine.reclaimed, logged_turn _ hw, logged_turn _ hw, run_turn]
    exact perm_account hm.retired h.waiting_step
  · rw [Machine.allotted, logged_turn _ hw]
    refine List.nodup_append.2 ⟨hm.allotted, ?_, ?_⟩
    · unfold Worker.allotted
      split
      · exact List.nodup_singleton _
      · exact .nil
    · rintro l hl _ hnew rfl
      exact (h.allotted_new hnew).1 (hm.past l hl)
  · intro l hl
    rw [Machine.allotted, logged_turn _ hw] at hl
    rcases List.mem_append.1 hl with hl | hl
    · exact h.past (hm.past l hl)
    · exact (h.allotted_new hl).2
  · rw [Machine.freed, logged_turn _ hw]
    refine List.nodup_append.2 ⟨hm.freed, ?_, ?_⟩
    · unfold Worker.freed
      split
      · split
        · exact List.nodup_singleton _
        · exact .nil
      · exact .nil
    · rintro l hl _ hnew rfl
      exact (h.freed_new hnew).1 (hm.gone l hl)
  · intro l hl
    rw [Machine.freed, logged_turn _ hw] at hl
    rw [run_turn]
    rcases List.mem_append.1 hl with hl | hl
    · exact h.holds (hm.gone l hl)
    · exact (h.freed_new hl).2

end

/-- No two threads, and no thread and a chain, ever have the same slot; an incarnation of a slot is
handed out once, retired at most once and given back at most once; and whatever is left behind, or
retired, is with one thread or on the orphan chain until it is filed, or given back. -/
structure Exclusive (m : Machine α) (schedule : List (Nat × Bool)) : Prop where
  /-- The chains come to an end. -/
  threads : ∀ r, (m.run schedule).store.arena.Threads ((m.run schedule).store.root r)
    ((m.run schedule).store.arena.chain ((m.run schedule).store.root r))
  /-- Each slot handed out is at one place, and there once. -/
  exactly : ((m.run schedule).places).Perm (List.range (m.run schedule).store.arena.fresh)
  /-- No allocation returns a link that another one has returned. -/
  allotted : (m.allotted schedule).Nodup
  /-- Each time that a node is left to the orphans it is filed with at most one handle. -/
  adopted : (m.spliced schedule).Perm (m.adopted schedule ++ (m.run schedule).stray)
  /-- Each retired node is given back at most once. -/
  reclaimed : (m.retired schedule).Perm (m.reclaimed schedule ++ (m.run schedule).waiting)
  retired : (m.retired schedule).Nodup
  freed : (m.freed schedule).Nodup

theorem reclaimed_sublist (m : Machine α) (schedule : List (Nat × Bool)) :
    (m.reclaimed schedule).Sublist (m.freed schedule) := by
  have hone : ∀ (w : Worker α) (s : Store α) (spurious : Bool),
      (w.reclaimed s spurious).Sublist (w.freed s spurious) := by
    intro w s spurious
    unfold Worker.reclaimed Worker.freed
    cases w.phase with
    | pushFree node top release =>
      cases release with
      | discard next last answer => exact List.nil_sublist _
      | sweep rest total after => exact .refl _
    | _ => exact List.nil_sublist _
  unfold reclaimed freed
  induction schedule generalizing m with
  | nil => exact .refl _
  | cons turn schedule ih =>
    rw [logged, logged]
    refine List.Sublist.append ?_ (ih _)
    cases m.workers[turn.1]? with
    | none => exact .refl _
    | some w => exact hone w _ _

/-- In every state of an interleaved run the slots are shared out, if none is handed out as often
as there are generations. -/
theorem exclusive_run (p : Plan) (programs : List (List (Call α))) (schedule : List (Nat × Bool))
    (hbound : ∀ i, ((ofPrograms p programs).handedOut schedule).count i < 2 ^ 32) :
    (ofPrograms p programs).Exclusive schedule := by
  obtain ⟨L, crew, live, h, hm⟩ := crewed_run p programs (I := (ofPrograms p programs).Accounted)
    (accounted_nil p programs) (fun spurious hnone hI => hI.skip spurious hnone)
    (fun _ haccess hI => hI.access haccess) schedule hbound
  have hspent := h.waiting_sublist
  have hwaiting : ((ofPrograms p programs).run schedule).waiting.Nodup := by
    have hnodup := h.laid.nodup
    rw [Layout.cells, List.append_assoc, List.map_append] at hnodup
    exact ((List.nodup_append.1 hnodup).2.1.sublist (hspent.map Cell.index)).of_map _ |>.of_map _
  refine ⟨fun r => ?_, h.places_perm, hm.allotted, hm.adopted, hm.retired, ?_, hm.freed⟩
  · rw [h.chain_on r]
    have hlead := h.laid.rooted r
    rw [Layout.on_withStrands] at hlead
    exact hlead.threads
  · refine hm.retired.nodup_iff.2 (List.nodup_append.2 ⟨?_, hwaiting, ?_⟩)
    · exact hm.freed.sublist (reclaimed_sublist _ _)
    · rintro l hl _ hnew rfl
      refine h.laid.not_seen (hspent.subset (List.mem_map_of_mem hnew)) (hm.gone l ?_)
      exact (reclaimed_sublist _ _).subset hl

/-- Two threads. One leaves behind the node that it popped; the other takes it over, gives it back
and pushes on it again. -/
def handover : List (List (Call Nat)) :=
  [[.push 1, .pop, .leave], [.advance, .advance, .advance, .push 2]]

def oneByOne : List (Nat × Bool) := List.replicate 40 (0, false) ++ List.replicate 60 (1, false)

theorem exclusive_handover :
    (∀ i, ((ofPrograms Plan.default handover).handedOut oneByOne).count i < 2 ^ 32) ∧
      (ofPrograms Plan.default handover).Exclusive oneByOne := by
  have hbound : ∀ i, ((ofPrograms Plan.default handover).handedOut oneByOne).count i < 2 ^ 32 :=
    count_lt_of_length (by decide +kernel)
  exact ⟨hbound, exclusive_run Plan.default handover oneByOne hbound⟩

end Machine

end RecyclingStack
