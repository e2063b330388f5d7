import RecyclingStack.Proofs.Interleaving.Accesses

/-! The crew of a machine: its threads, each with what it has in hand. An access changes the chains
and what one thread has in hand; everybody else keeps theirs, and can rely on the rest. -/
namespace RecyclingStack

section

variable {α : Type} {s : Store α} {L : Layout α} {mine mine' : List (Strand α)}

theorem Sight.Holds.reorder {x : Sight} (h : x.Holds s (L.withStrands mine))
    (hperm : mine.Perm mine') : x.Holds s (L.withStrands mine') := by
  refine ⟨h.chain, h.node, ?_, ?_⟩
  · refine h.seen.imp (fun hon => ?_) fun ⟨d, hd, hage⟩ => ⟨d, ?_, hage⟩
    · rwa [Layout.on_withStrands] at hon ⊢
    · exact ((hperm.flatten).append_left _).mem_iff.1 hd
  · have hnext := h.next
    rwa [Layout.on_withStrands] at hnext ⊢

theorem Worker.Fits.reorder {w : Worker α} {own : List (Strand α)}
    (h : w.Fits s (L.withStrands mine) own) (hperm : mine.Perm mine') :
    w.Fits s (L.withStrands mine') own where
  owns := h.owns
  aims := h.aims
  sees := fun x hx => (h.sees x hx).reorder hperm
  offers := h.offers

end

/-- Threads with the strands that each has in hand besides its deferred nodes. -/
abbrev Crew (α : Type) := List (Worker α × List (Strand α))

namespace Crew

variable {α : Type} {before after : Crew α}

def strands (crew : Crew α) : List (Strand α) := crew.flatMap fun x => x.1.hand x.2

theorem mem_strands {crew : Crew α} {x : Worker α × List (Strand α)} (hx : x ∈ crew)
    {u : Strand α} (hu : u ∈ x.2) : u ∈ crew.strands :=
  List.mem_flatMap.2 ⟨x, hx, List.mem_append_left _ hu⟩

theorem flatten_strands (crew : Crew α) :
    crew.strands.flatten = crew.flatMap fun x => (x.1.hand x.2).flatten := by
  induction crew with
  | nil => rfl
  | cons x crew ih =>
    rw [strands, List.flatMap_cons, List.flatten_append, List.flatMap_cons, ← ih]
    rfl

def aside (before after : Crew α) : List (Strand α) := before.strands ++ after.strands

theorem strands_split (before after : Crew α) (w : Worker α) (own : List (Strand α)) :
    strands (before ++ (w, own) :: after) |>.Perm (w.hand own ++ aside before after) := by
  rw [strands, List.flatMap_append, List.flatMap_cons]
  exact List.perm_append_comm_assoc _ _ _

theorem cells_split (L : Layout α) (before after : Crew α) (w : Worker α)
    (own : List (Strand α)) :
    (L.withStrands (strands (before ++ (w, own) :: after))).cells.Perm
      (L.withStrands (w.hand own ++ aside before after)).cells :=
  (strands_split before after w own).flatten.append_left _

theorem mem_aside {x : Worker α × List (Strand α)} (hx : x ∈ before ++ after) {u : Strand α}
    (hu : u ∈ x.1.hand x.2) : u ∈ aside before after := by
  rcases List.mem_append.1 hx with hx | hx
  · exact List.mem_append_left _ (List.mem_flatMap.2 ⟨x, hx, hu⟩)
  · exact List.mem_append_right _ (List.mem_flatMap.2 ⟨x, hx, hu⟩)

/-- The thread of a number, with those before and after it. -/
theorem exists_split {crew : Crew α} {k : Nat} {w : Worker α}
    (h : (crew.map Prod.fst)[k]? = some w) :
    ∃ before own after, crew = before ++ (w, own) :: after ∧ before.length = k := by
  rw [List.getElem?_map] at h
  obtain ⟨⟨v, own⟩, hx, rfl⟩ := Option.map_eq_some_iff.1 h
  obtain ⟨hlt, hget⟩ := List.getElem?_eq_some_iff.1 hx
  refine ⟨crew.take k, own, crew.drop (k + 1), ?_, List.length_take_of_le (Nat.le_of_lt hlt)⟩
  rw [← hget, List.getElem_cons_drop, List.take_append_drop]

theorem getElem?_length (x : Worker α × List (Strand α)) :
    (before ++ x :: after)[before.length]? = some x := by
  rw [List.getElem?_append_right (Nat.le_refl _), Nat.sub_self]
  rfl

/-- Everybody but the one at work is as before. -/
theorem getElem?_middle {x y z : Worker α × List (Strand α)} {k : Nat}
    (h : (before ++ y :: after)[k]? = some z) :
    k = before.length ∧ z = y ∨ k ≠ before.length ∧ (before ++ x :: after)[k]? = some z := by
  have hset : before ++ y :: after = (before ++ x :: after).set before.length y := by simp
  rw [hset, List.getElem?_set] at h
  split at h
  · rename_i hk
    split at h
    · exact .inl ⟨hk.symm, (Option.some.inj h).symm⟩
    · cases h
  · rename_i hk
    exact .inr ⟨Ne.symm hk, h⟩

end Crew

namespace Machine

variable {α : Type} {m : Machine α} {L : Layout α} {before after crew : Crew α} {live : Load α}
  {outs : Nat → Nat} {w : Worker α} {own : List (Strand α)}

/-- Everything is where it belongs: `live` on the stack, the other nodes on the free list, on the
orphan chain, or in the hand of one of the crew; and `outs` counts how often slots were handed
out. -/
structure Crewed (m : Machine α) (L : Layout α) (crew : Crew α) (live : Load α)
    (outs : Nat → Nat) : Prop where
  workers : m.workers = crew.map Prod.fst
  stack : L.stack = live.strand
  laid : m.store.Laid (L.withStrands crew.strands)
  uses : ∀ i, (L.withStrands crew.strands).cells.usesAt i = outs i
  fits : ∀ x ∈ crew, x.1.Fits m.store (L.withStrands crew.strands) x.2

theorem workers_step {worker k : Nat} {spurious : Bool} {w v : Worker α}
    (hw : m.workers[worker]? = some w) (hk : (m.step worker spurious).workers[k]? = some v) :
    k = worker ∧ v = (w.step m.store spurious).2 ∨ worker ≠ k ∧ m.workers[k]? = some v := by
  have hworkers : (m.step worker spurious).workers =
      m.workers.set worker (w.step m.store spurious).2 := by
    rw [Machine.step, hw]
  rw [hworkers, List.getElem?_set] at hk
  by_cases hkw : worker = k
  · rw [if_pos hkw] at hk
    split at hk
    · exact .inl ⟨hkw.symm, (Option.some.inj hk).symm⟩
    · cases hk
  · rw [if_neg hkw] at hk
    exact .inr ⟨hkw, hk⟩

namespace Crewed

theorem ranked (h : m.Crewed L crew live outs) : L.Ranked :=
  Layout.ranked ⟨live, h.stack⟩ h.laid.idle

theorem worker (h : m.Crewed L (before ++ (w, own) :: after) live outs) :
    m.workers[before.length]? = some w := by
  rw [h.workers, List.map_append, List.map_cons, List.getElem?_append_right (by simp)]
  simp

theorem step_eq (h : m.Crewed L (before ++ (w, own) :: after) live outs) (spurious : Bool) :
    m.step before.length spurious = ⟨(w.step m.store spurious).1,
      m.workers.set before.length (w.step m.store spurious).2⟩ := by
  rw [Machine.step, h.worker]

/-- The layout with the strands of one thread in front. -/
theorem front (h : m.Crewed L (before ++ (w, own) :: after) live outs) :
    m.store.Laid (L.withStrands (w.hand own ++ Crew.aside before after)) :=
  h.laid.reorder (Crew.strands_split before after w own)

theorem fits_front (h : m.Crewed L (before ++ (w, own) :: after) live outs) :
    w.Fits m.store (L.withStrands (w.hand own ++ Crew.aside before after)) own :=
  (h.fits (w, own) (by simp)).reorder (Crew.strands_split before after w own)

theorem uses_lt (h : m.Crewed L crew live outs) (hbound : ∀ i, outs i < halfWord) {c : Cell α}
    (hc : c ∈ (L.withStrands crew.strands).cells) : c.uses < halfWord := by
  apply Nat.lt_of_le_of_lt (Strand.uses_le hc)
  rw [h.uses]
  exact hbound c.index

end Crewed

/-- An access of one thread: where everything is before it and after it. -/
structure Access (m : Machine α) (before after : Crew α) (w : Worker α) (own : List (Strand α))
    (spurious : Bool) (L : Layout α) (live : Load α) (outs : Nat → Nat) (own' : List (Strand α))
    (M : Layout α) (live' : Load α) : Prop where
  fore : m.Crewed L (before ++ (w, own) :: after) live outs
  next : (m.step before.length spurious).Crewed M
    (before ++ ((w.step m.store spurious).2, own') :: after) live'
    fun i => outs i + (w.handOut? m.store spurious).toList.count i
  swung : Swung live live' (w.deed? m.store spurious) (w.takes m.store spurious)
  shift : Shift m.store L (w.hand own) (Crew.aside before after) (w.step m.store spurious).1 M
    ((w.step m.store spurious).2.hand own') (w.handOut? m.store spurious)

theorem Crewed.access (h : m.Crewed L (before ++ (w, own) :: after) live outs)
    (hbound : ∀ i, outs i < halfWord) (spurious : Bool) :
    ∃ own' M live', m.Access before after w own spurious L live outs own' M live' := by
  have hcells := fun N v => Crew.cells_split N before after v
  have hdoes := h.fits_front.does h.stack h.front
    (fun c hc => h.uses_lt hbound ((hcells L w own).mem_iff.2 hc)) spurious
  obtain ⟨M, mine', live', hstack', hswung, hshift, own', hperm, hlaid', hfits'⟩ := hdoes
  have hshift := hshift.restring hperm
  have hback := Crew.strands_split before after (w.step m.store spurious).2 own'
  refine ⟨own', M, live', h, h.step_eq spurious ▸ ⟨?_, hstack', hlaid'.reorder hback.symm,
    fun i => ?_, fun x hx => ?_⟩, hswung, hshift⟩
  · simp [h.workers]
  · rw [Strand.usesAt_perm (hcells M _ own'), hshift.uses i, ← Strand.usesAt_perm (hcells L w own),
      h.uses]
  · by_cases hsame : x = ((w.step m.store spurious).2, own')
    · rw [hsame]
      exact hfits'.reorder hback.symm
    · have hx : x ∈ before ++ after := by
        simp only [List.mem_append, List.mem_cons] at hx ⊢
        exact hx.imp_right fun h => h.resolve_left hsame
      have hfitsx := (h.fits x (by
        simp only [List.mem_append, List.mem_cons] at hx ⊢
        exact hx.imp_right .inr)).reorder (Crew.strands_split before after w own)
      exact (hfitsx.shift hshift (fun u hu => Crew.mem_aside hx (List.mem_append_left _ hu))
        h.ranked (Layout.ranked ⟨live', hstack'⟩ hlaid'.idle) hlaid').reorder hback.symm

end Machine

end RecyclingStack
