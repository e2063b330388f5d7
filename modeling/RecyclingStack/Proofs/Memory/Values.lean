import RecyclingStack.Proofs.Memory.Tidy

/-! The values in slots. Nobody sees them all at once, but as every slot is at one place they are
the values of the places taken together; and the last to leave drops those on the stack. -/
namespace RecyclingStack

namespace Strand

variable {β : Type}

def values (u : Strand β) : List β := u.filterMap fun c => c.stage.value

theorem values_append (u w : Strand β) : values (u ++ w) = values u ++ values w :=
  List.filterMap_append

theorem values_spent {u : Strand β} (h : ∀ c ∈ u, c.stage = .spent) : values u = [] := by
  apply List.filterMap_eq_nil_iff.2
  intro c hc
  rw [h c hc]
  rfl

theorem values_idle (links : List Link) : values (idle links : Strand β) = [] :=
  values_spent fun _ hc => spent_of_mem_idle hc

end Strand

namespace Arena

variable {β : Type}

def valueAt (a : Arena β) (i : Nat) : Option β := (a.slot? i).bind Slot.value

def values (a : Arena β) : List β := (List.range a.fresh).filterMap a.valueAt

theorem valueAt_modify (a : Arena β) (i j : Nat) (f : Slot β → Slot β) :
    (a.modify i f).valueAt j =
      if i = j then (a.slot? j).bind fun slot => (f slot).value else a.valueAt j := by
  rw [valueAt, slot?_modify]
  split
  · cases a.slot? j <;> rfl
  · rfl

theorem values_setNext (a : Arena β) (l next : Link) : (a.setNext l next).values = a.values := by
  cases l with
  | nil => rfl
  | node i g =>
    refine List.filterMap_congr fun j _ => ?_
    refine (a.valueAt_modify i j fun slot => { slot with next }).trans ?_
    split <;> rfl

/-- Taking a value out of its slot takes it away from the values, once. -/
theorem Sound.values_clearValue {a : Arena β} (h : a.Sound) {l : Link} {value : β}
    (hvalue : (a.read l).value = some value) :
    a.values.Perm (value :: (a.clearValue l).values) := by
  cases l with
  | nil => cases hvalue
  | node i g =>
    have hat : a.valueAt i = some value := by
      rw [read_node] at hvalue
      rw [valueAt]
      cases hslot : a.slot? i with
      | none =>
        rw [hslot] at hvalue
        cases hvalue
      | some slot =>
        rw [hslot] at hvalue
        exact hvalue
    have hi : i ∈ List.range a.fresh := by
      apply List.mem_range.2
      apply Nat.lt_of_not_le
      intro hle
      obtain ⟨slot, hslot, hslotvalue⟩ := Option.bind_eq_some_iff.1 hat
      rw [h.unused hle hslot] at hslotvalue
      cases hslotvalue
    have hsplit := List.perm_cons_erase hi
    have hcleared : ∀ j, (a.clearValue (.node i g)).valueAt j =
        if i = j then none else a.valueAt j := by
      intro j
      refine (a.valueAt_modify i j fun slot => { slot with value := none }).trans ?_
      split
      · cases a.slot? j <;> rfl
      · rfl
    have hrest : ((List.range a.fresh).erase i).filterMap (a.clearValue (.node i g)).valueAt =
        ((List.range a.fresh).erase i).filterMap a.valueAt := by
      apply List.filterMap_congr
      intro j hj
      rw [hcleared, if_neg]
      rintro rfl
      exact List.nodup_range.not_mem_erase hj
    have hwith := hsplit.filterMap a.valueAt
    have hwithout := hsplit.filterMap (a.clearValue (.node i g)).valueAt
    rw [List.filterMap_cons_some hat] at hwith
    rw [List.filterMap_cons_none ((hcleared i).trans (if_pos rfl)), hrest] at hwithout
    exact hwith.trans (.cons value hwithout.symm)

end Arena

namespace Store

variable {β : Type}

/-- Each value is in the slot of a cell, and each cell has its own slot. -/
theorem Laid.values_perm {s : Store β} {L : Layout β} (h : s.Laid L) :
    L.cells.values.Perm s.arena.values := by
  have hcells : L.cells.values = (L.cells.map Cell.index).filterMap s.arena.valueAt := by
    rw [Strand.values, List.filterMap_map]
    apply List.filterMap_congr
    intro c hc
    obtain ⟨slot, hslot, -, hvalue⟩ := h.holds c hc
    rw [Function.comp_apply, Arena.valueAt, hslot]
    exact hvalue.symm
  rw [hcells]
  exact h.exactly.filterMap _

theorem Laid.values_strands {s : Store β} {L : Layout β} (h : s.Laid L) :
    (L.stack.values ++ Strand.values L.strands.flatten).Perm s.arena.values := by
  have hidle : ∀ r, r ≠ .stack → (L.on r).values = [] := fun r hr =>
    Strand.values_spent (h.idle r hr)
  have hcells : L.cells.values = L.stack.values ++ Strand.values L.strands.flatten := by
    rw [Layout.cells, Strand.values_append, Strand.values_append, Strand.values_append,
      show L.free.values = [] from hidle .free (by decide),
      show L.orphans.values = [] from hidle .orphans (by decide), List.append_nil, List.append_nil]
  exact hcells ▸ h.values_perm

/-- Drops the values from the cursor on, at most that many: the values, and what is left then. -/
def destroyFrom : (fuel : Nat) → (cursor : Link) → Store β → List β × Store β
  | 0, _, s => ([], s)
  | fuel + 1, cursor, s =>
    match s.takeValue cursor with
    | none => ([], s)
    | some (value, t) =>
      let rest := destroyFrom fuel (t.arena.next cursor) t
      (value :: rest.1, rest.2)

def destroy (s : Store β) : List β × Store β := s.destroyFrom s.arena.fresh s.head

theorem destroyFrom_eq {s : Store β} {u : Strand β} {live : Load β} {rest : List (Strand β)}
    {fuel : Nat} (h : s.Tidy (u ++ live.strand) rest) (hfuel : live.length ≤ fuel) :
    (s.destroyFrom fuel live.strand.first).1 = live.values ∧
      (s.destroyFrom fuel live.strand.first).2.Tidy (u ++ Strand.idle live.links) rest := by
  induction live generalizing s u fuel with
  | nil => cases fuel <;> exact ⟨rfl, h⟩
  | cons n live ih =>
    obtain ⟨fuel, rfl⟩ : ∃ k, fuel = k + 1 :=
      ⟨fuel - 1, by simp only [List.length_cons] at hfuel; omega⟩
    have hspend : s.takeValue n.1 = some (n.2, s.withArena (s.arena.clearValue n.1)) ∧
        (s.withArena (s.arena.clearValue n.1)).Tidy (u ++ Cell.spent n.1 :: Load.strand live) rest ∧
        s.arena.next n.1 = (Load.strand live).first := h.spend (c := ⟨n.1, .full n.2⟩) rfl
    obtain ⟨htake, hspent, hnext⟩ := hspend
    have hkept : (s.withArena (s.arena.clearValue n.1)).arena.next n.1 = s.arena.next n.1 :=
      s.arena.next_update n.1 (f := fun slot => { slot with value := none }) (fun _ => rfl) n.1
    rw [List.append_cons] at hspent
    obtain ⟨hvalues, hrest⟩ := ih hspent (Nat.le_of_succ_le_succ hfuel)
    rw [Load.strand_cons, Strand.first_cons, destroyFrom, htake]
    dsimp only
    rw [hkept, hnext]
    rw [List.append_assoc] at hrest
    exact ⟨congrArg (n.2 :: ·) hvalues, hrest⟩

/-- All values on the stack are dropped, in their order. -/
theorem Laid.destroy_eq {s : Store β} {L : Layout β} {live : Load β} (h : s.Laid L)
    (hstack : L.stack = live.strand) : s.destroy.1 = live.values := by
  have htidy : s.Tidy ([] ++ live.strand) L.strands := ⟨L, hstack, h⟩
  have hfuel := h.length_le (L.sublist_on .stack)
  rw [show L.on .stack = live.strand from hstack, Load.strand, List.length_map] at hfuel
  have hhead : s.head = live.strand.first := htidy.head_eq
  rw [destroy, hhead]
  exact (destroyFrom_eq htidy hfuel).1

end Store

end RecyclingStack
