import RecyclingStack.Proofs.Session.Drift
import RecyclingStack.Proofs.Session.Partition

/-! Nodes that await their next incarnation, in the states of a run. Each is in one place only, and
its slot is in the generation of its link until it is handed out. -/
namespace RecyclingStack

namespace Session

variable {α : Type} {s : Session α} {l : Link}

namespace Partitioned

variable (h : s.Partitioned)
include h

theorem nodup : (s.places.map Link.index).Nodup := h.exactly.nodup_iff.2 List.nodup_range

theorem index_lt (hl : l ∈ s.places) : l.index < s.store.arena.fresh :=
  List.mem_range.1 (h.exactly.mem_iff.1 (List.mem_map_of_mem hl))

theorem link_eq (hl : l ∈ s.places) : l = .node l.index (s.store.arena.generationAt l.index) := by
  obtain ⟨slot, hslot, hlink⟩ := h.current l hl
  rw [Arena.generationAt, hslot]
  exact hlink

theorem generation_eq (hl : l ∈ s.places) : s.store.arena.generationAt l.index = l.generation :=
  (congrArg Link.generation (h.link_eq hl)).symm

omit h in
theorem mem_places_of_idle (hl : s.scene.Idle l) : l ∈ s.places := by
  simp only [places, List.mem_append]
  rcases hl with ⟨k, E, hl⟩ | hl | hl
  · exact .inl (.inr (mem_deferred hl))
  · exact .inl (.inl (.inr hl))
  · exact .inl (.inl (.inl (.inr hl)))

omit h in
theorem mem_places_of_chain (hl : l ∈ s.store.chain) : l ∈ s.places := by
  simp only [places, List.mem_append]
  exact .inl (.inl (.inl (.inl hl)))

/-- A node on the stack does not await its next incarnation. -/
theorem not_idle (hl : l ∈ s.store.chain) : ¬ s.scene.Idle l := by
  have hnodup := h.nodup
  simp only [places, List.append_assoc, List.map_append] at hnodup
  have hapart := (List.nodup_append.1 hnodup).2.2 _ (List.mem_map_of_mem hl) l.index
  intro hidle
  refine hapart ?_ rfl
  simp only [List.mem_append]
  rcases hidle with ⟨k, E, hidle⟩ | hidle | hidle
  · exact .inr (.inr (.inl (List.mem_map_of_mem (mem_deferred hidle))))
  · exact .inr (.inl (List.mem_map_of_mem hidle))
  · exact .inl (List.mem_map_of_mem hidle)

/-- A node that is deferred or orphaned is not on the free list. -/
theorem not_free (hl : l ∈ s.store.orphanChain ∨ ∃ k E, s.files k E l) :
    l.index ∉ s.store.freeList.map Link.index := by
  have hnodup := h.nodup
  simp only [places, List.append_assoc, List.map_append] at hnodup
  have hapart := (List.nodup_append.1 (List.nodup_append.1 hnodup).2.1).2.2
  intro hfree
  refine hapart _ hfree l.index ?_ rfl
  simp only [List.mem_append]
  rcases hl with hl | ⟨k, E, hl⟩
  · exact .inl (List.mem_map_of_mem hl)
  · exact .inr (.inl (List.mem_map_of_mem (mem_deferred hl)))

end Partitioned

end Session

end RecyclingStack
