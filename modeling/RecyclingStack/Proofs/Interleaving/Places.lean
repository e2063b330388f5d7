import RecyclingStack.Proofs.Interleaving.Linear

/-! The places of slots while threads work side by side: the stack, the free list and the orphan
chain, the deferred lists, and the calls under way. All of them are read from memory, from the roots
and from what the threads remember. -/
namespace RecyclingStack

section

variable {α : Type}

def Job.chain (a : Arena α) (job : Job α) : List Link := a.between a.fresh job.first job.last

def Release.nodes (a : Arena α) (node : Link) : Release α → List Link
  | .discard next last _ => if node = last then [] else a.between a.fresh next last
  | .sweep rest _ _ => rest

def Phase.slots (a : Arena α) : Phase α → List Nat
  | .find _ after => after.slots a
  | .loadFree job _ | .readFree job _ _ | .swingFree job _ _ _ | .loadFresh job _
  | .checkSegment job _ _ | .installSegment job _ _ | .claimFresh job _ _ =>
    (job.chain a).map Link.index
  | .loadGeneration job _ index | .storeGeneration job _ index _ =>
    index :: (job.chain a).map Link.index
  | .clearNext job _ node | .clearTag job _ node | .linkNode job node =>
    node.index :: (job.chain a).map Link.index
  | .loadHead first last | .checkShutdown first last _ | .linkLast first last _
  | .swingHead first last _ | .readDoomed first last _ =>
    (a.between a.fresh first last).map Link.index
  | .loadRetireEpoch node _ | .storeTag node _ _ => [node.index]
  | .readOrphan node _ => (a.chain node).map Link.index
  | .readTag node next _ => (node :: a.chain next).map Link.index
  | .loadFreeTop node after | .linkFree node _ after | .pushFree node _ after =>
    (node :: after.nodes a node).map Link.index
  | .threadOrphans nodes _ | .loadOrphanTop nodes | .linkOrphans nodes _ | .pushOrphans nodes _ =>
    nodes.map Link.index
  | _ => []

/-- Orphans that a thread has taken over and not filed yet. -/
def Phase.stray (a : Arena α) : Phase α → List Link
  | .find _ after => after.stray a
  | .readOrphan node _ => a.chain node
  | .readTag node next _ => node :: a.chain next
  | _ => []

def Phase.isAdopting : Phase α → Bool
  | .find _ after => after.isAdopting
  | .readOrphan _ _ | .readTag _ _ _ => true
  | _ => false

end

namespace Worker

variable {α : Type} {s : Store α} {L : Layout α} {w : Worker α} {own others : List (Strand α)}

def slots (a : Arena α) (w : Worker α) : List Nat :=
  w.phase.slots a ++ w.context.deferred.links.map Link.index

theorem map_index (u : Strand α) : u.map Cell.index = (u.map Cell.link).map Link.index := by
  rw [List.map_map]
  rfl

section

variable {given : List α} {phase : Phase α} (h : s.Laid L) (hown : ∀ u ∈ own, u ∈ L.strands)
include h hown

theorem nodes_eq {after : Release α} {node : Link} {rest : List (Strand α)}
    (hrest : ∀ u ∈ rest, u ∈ own) (hafter : after.Owns node rest) :
    after.nodes s.arena node = rest.flatten.map Cell.link := by
  cases after with
  | discard next last answer =>
    obtain ⟨u, rfl, ⟨rfl, rfl⟩ | ⟨-, hne, rfl, rfl⟩⟩ := hafter
    · exact if_pos rfl
    · rw [Release.nodes, if_neg hne, h.between_strand (hown _ (hrest _ List.mem_cons_self)),
        List.flatten_singleton]
  | sweep nodes total after =>
    obtain rfl : rest = Strand.loose nodes := hafter
    rw [Strand.flatten_loose, Strand.map_link_idle]
    rfl

theorem stray_eq (howns : phase.Owns given own)
    (haims : ∀ l ∈ phase.aim?, ∃ u ∈ own.head?, s.arena.Leads u.first u l) :
    phase.stray s.arena = if phase.isAdopting then own.flatten.map Cell.link else [] := by
  induction phase with
  | find index after ih => exact ih howns haims
  | readOrphan node after =>
    obtain ⟨links, rfl⟩ := howns
    obtain ⟨u, hu, hlead⟩ := haims _ rfl
    cases hu
    have hsub := Layout.sublist_strand (hown _ List.mem_cons_self)
    rw [Phase.isAdopting, if_pos rfl, List.flatten_singleton, ← h.chain_of_leads hsub hlead]
    rfl
  | readTag node next after =>
    obtain ⟨links, rfl, rfl⟩ := howns
    obtain ⟨u, hu, hlead⟩ := haims _ rfl
    cases hu
    have hsub := Layout.sublist_strand (hown _ List.mem_cons_self)
    have hrest : s.arena.Leads (Strand.idle links : Strand α).first (Strand.idle links) .nil := by
      have hrest := hlead.2
      cases links with
      | nil => rfl
      | cons l links => exact ⟨rfl, hrest.2⟩
    rw [Phase.isAdopting, if_pos rfl, List.flatten_singleton, Phase.stray,
      h.chain_of_leads ((List.sublist_cons_self _ _).trans hsub) hrest]
    rfl
  | _ => rfl

theorem slots_eq (howns : phase.Owns given own)
    (haims : ∀ l ∈ phase.aim?, ∃ u ∈ own.head?, s.arena.Leads u.first u l) :
    phase.slots s.arena = own.flatten.map Cell.index := by
  have hjob : ∀ {job : Job α} {given coming : List α} {u : Load α}, u.strand ∈ own →
      job.Builds given coming u →
        (job.chain s.arena).map Link.index = u.strand.map Cell.index := by
    intro job given coming u hu hbuilds
    rw [Job.chain, hbuilds.first, hbuilds.last, h.between_strand (hown _ hu), ← map_index]
  induction phase with
  | find index after ih => exact ih howns haims
  | loadFree job value | readFree job value top | swingFree job value top next
  | loadFresh job value | checkSegment job value index | installSegment job value index
  | claimFresh job value index =>
    obtain ⟨u, hbuilds, rfl⟩ := howns
    rw [Phase.slots, hjob List.mem_cons_self hbuilds, List.flatten_singleton]
  | loadGeneration job value index =>
    obtain ⟨u, g, hbuilds, rfl⟩ := howns
    rw [Phase.slots, hjob (List.mem_cons_of_mem _ List.mem_cons_self) hbuilds]
    simp [Cell.index, Link.index]
  | storeGeneration job value index generation =>
    obtain ⟨u, old, hbuilds, -, rfl⟩ := howns
    rw [Phase.slots, hjob (List.mem_cons_of_mem _ List.mem_cons_self) hbuilds]
    simp [Cell.index, Link.index]
  | clearNext job value node | clearTag job value node =>
    obtain ⟨u, hbuilds, rfl⟩ := howns
    rw [Phase.slots, hjob (List.mem_cons_of_mem _ List.mem_cons_self) hbuilds]
    simp [Cell.index]
  | linkNode job node =>
    obtain ⟨u, value, hbuilds, rfl⟩ := howns
    rw [Phase.slots, hjob (List.mem_cons_of_mem _ List.mem_cons_self) hbuilds]
    simp [Cell.index]
  | loadHead first last | checkShutdown first last head | linkLast first last head
  | swingHead first last head =>
    obtain ⟨u, -, rfl, rfl, -, rfl⟩ := howns
    rw [Phase.slots, h.between_strand (hown _ List.mem_cons_self), List.flatten_singleton,
      map_index]
  | readDoomed node last answer =>
    obtain ⟨u, -, rfl, rfl, rfl⟩ := howns
    rw [Phase.slots, h.between_strand (hown _ List.mem_cons_self), List.flatten_singleton,
      map_index]
  | loadRetireEpoch node value | storeTag node value epoch =>
    obtain rfl : own = [[Cell.spent node]] := howns
    rfl
  | readOrphan node after | readTag node next after =>
    have hstray := stray_eq h hown howns haims
    rw [Phase.isAdopting, if_pos rfl] at hstray
    rw [map_index, ← hstray]
    rfl
  | loadFreeTop node after | linkFree node top after | pushFree node top after =>
    obtain ⟨rest, rfl, hafter⟩ := howns
    rw [Phase.slots, nodes_eq h hown (fun u hu => List.mem_cons_of_mem _ hu) hafter, map_index]
    rfl
  | threadOrphans nodes todo =>
    obtain ⟨before, node, rest, rfl, rfl, rfl⟩ := howns
    simp [Phase.slots, Strand.flatten_loose, map_index, Strand.map_link_idle]
  | loadOrphanTop nodes | linkOrphans nodes top | pushOrphans nodes top =>
    obtain ⟨-, rfl⟩ := howns
    rw [Phase.slots, List.flatten_singleton, map_index, Strand.map_link_idle]
  | _ =>
    obtain rfl : own = [] := howns
    rfl

end

end Worker

end RecyclingStack
