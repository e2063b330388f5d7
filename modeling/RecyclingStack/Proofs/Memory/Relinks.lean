import RecyclingStack.Proofs.Memory.Turns

/-! What stands in a slot besides its value: the forward link, the generation and the tag. Most
operations write forward links only, and only those of the nodes that they move. -/
namespace RecyclingStack

namespace Arena

variable {β : Type}

def generationAt (a : Arena β) (i : Nat) : Nat := ((a.slot? i).getD {}).generation

/-- The epoch of retirement that stands in the slot behind a link. -/
def tag (a : Arena β) (l : Link) : Nat := (a.read l).retiredEpoch

theorem generationAt_empty (requested : Option Nat) (i : Nat) :
    (empty requested : Arena β).generationAt i = 0 := by
  rw [generationAt, slot?_empty]
  rfl

theorem tag_empty (requested : Option Nat) (l : Link) : (empty requested : Arena β).tag l = 0 := by
  cases l with
  | nil => rfl
  | node i g =>
    rw [tag, read_node, slot?_empty]
    rfl

theorem generationAt_modify (a : Arena β) (i j : Nat) (f : Slot β → Slot β) :
    (a.modify i f).generationAt j =
      if i = j then (((a.slot? j).map f).getD {}).generation else a.generationAt j := by
  rw [generationAt, slot?_modify]
  split <;> rfl

theorem generationAt_update (a : Arena β) (l : Link) {f : Slot β → Slot β}
    (hf : ∀ slot, (f slot).generation = slot.generation) (i : Nat) :
    (a.update l f).generationAt i = a.generationAt i := by
  cases l with
  | nil => rfl
  | node j g =>
    rw [update_node, generationAt_modify]
    split
    · rw [generationAt]
      cases a.slot? i with
      | none => rfl
      | some slot => exact hf slot
    · rfl

theorem tag_update (a : Arena β) (l : Link) {f : Slot β → Slot β}
    (hf : ∀ slot, (f slot).retiredEpoch = slot.retiredEpoch) (m : Link) :
    (a.update l f).tag m = a.tag m := by
  cases l with
  | nil => rfl
  | node i g =>
    cases m with
    | nil => rfl
    | node j k =>
      rw [update_node, tag, tag, read_node, read_node, slot?_modify]
      split
      · cases a.slot? j with
        | none => rfl
        | some slot => exact hf slot
      · rfl

theorem Holds.tag_setRetiredEpoch {a : Arena β} {c : Cell β} (h : a.Holds c) (epoch : Nat) :
    (a.setRetiredEpoch c.link epoch).tag c.link = epoch := by
  obtain ⟨slot, hslot, hlink, -⟩ := h
  rw [tag, setRetiredEpoch, hlink, read_update_of_eq a _ (Option.isSome_iff_exists.2 ⟨slot, hslot⟩)]

theorem next_setRetiredEpoch (a : Arena β) (l : Link) (epoch : Nat) (m : Link) :
    (a.setRetiredEpoch l epoch).next m = a.next m :=
  a.next_update l (f := fun slot => { slot with retiredEpoch := epoch }) (fun _ => rfl) m

theorem generationAt_setRetiredEpoch (a : Arena β) (l : Link) (epoch i : Nat) :
    (a.setRetiredEpoch l epoch).generationAt i = a.generationAt i :=
  a.generationAt_update l (f := fun slot => { slot with retiredEpoch := epoch }) (fun _ => rfl) i

/-- `b` is `a` but for the forward links of these nodes. -/
structure Relinks (links : List Link) (a b : Arena β) : Prop where
  next_eq : ∀ l, (∀ m ∈ links, m.index ≠ l.index) → b.next l = a.next l
  tag_eq : ∀ l, b.tag l = a.tag l
  generationAt_eq : ∀ i, b.generationAt i = a.generationAt i
  fresh_eq : b.fresh = a.fresh

namespace Relinks

variable {a b c : Arena β} {links more : List Link}

theorem refl (a : Arena β) : Relinks [] a a :=
  ⟨fun _ _ => rfl, fun _ => rfl, fun _ => rfl, rfl⟩

theorem trans (h : Relinks links a b) (h' : Relinks more b c) : Relinks (links ++ more) a c where
  next_eq := by
    intro l hl
    rw [h'.next_eq l fun m hm => hl m (List.mem_append_right _ hm),
      h.next_eq l fun m hm => hl m (List.mem_append_left _ hm)]
  tag_eq := fun l => (h'.tag_eq l).trans (h.tag_eq l)
  generationAt_eq := fun i => (h'.generationAt_eq i).trans (h.generationAt_eq i)
  fresh_eq := h'.fresh_eq.trans h.fresh_eq

theorem setNext (a : Arena β) (l next : Link) : Relinks [l] a (a.setNext l next) where
  next_eq := fun m hm => congrArg Slot.next (a.read_update_of_ne _ (hm l List.mem_cons_self))
  tag_eq := a.tag_update l fun _ => rfl
  generationAt_eq := a.generationAt_update l fun _ => rfl
  fresh_eq := by cases l <;> rfl

theorem clearValue (a : Arena β) (l : Link) : Relinks [] a (a.clearValue l) where
  next_eq := fun m _ =>
    a.next_update l (f := fun slot => { slot with value := none }) (fun _ => rfl) m
  tag_eq := a.tag_update l fun _ => rfl
  generationAt_eq := a.generationAt_update l fun _ => rfl
  fresh_eq := by cases l <;> rfl

theorem deallocateAll (p : Pool β) (links : List Link) :
    Relinks links p.arena (p.deallocateAll links).arena := by
  induction links generalizing p with
  | nil => exact .refl _
  | cons l links ih => exact (setNext p.arena l p.free).trans (ih (p.deallocate l))

theorem thread (s : Store β) (tail : Link) (links : List Link) :
    Relinks links s.arena (s.thread tail links).arena := by
  induction links generalizing s with
  | nil => exact .refl _
  | cons l links ih =>
    cases links with
    | nil => exact setNext s.arena l tail
    | cons next links => exact (setNext s.arena l next).trans (ih (s.setNext l next))

theorem orphan (s : Store β) (links : List Link) :
    Relinks links s.arena (s.orphan links).arena := by
  cases links with
  | nil => exact .refl _
  | cons l links => exact thread s s.orphans (l :: links)

end Relinks

theorem chain_congr {a b : Arena β} (hnext : ∀ l, b.next l = a.next l) (hfresh : b.fresh = a.fresh)
    (l : Link) : b.chain l = a.chain l := by
  have hfollow : ∀ fuel l, b.follow fuel l = a.follow fuel l := by
    intro fuel
    induction fuel with
    | zero => exact fun _ => rfl
    | succ fuel ih =>
      intro l
      cases l with
      | nil => rfl
      | node i g => rw [follow, follow, hnext, ih]
  rw [chain, chain, hfresh, hfollow]

/-- From each node on a chain, `next` leads to the one after it. -/
theorem Threads.next_eq {a : Arena β} {links suffix : List Link} {l m : Link}
    (h : a.Threads l links) (hsuffix : m :: suffix <:+ links) : a.next m = suffix.headD .nil := by
  induction links generalizing l with
  | nil => cases List.suffix_nil.1 hsuffix
  | cons k links ih =>
    rcases List.suffix_cons_iff.1 hsuffix with heq | hsuffix
    · obtain ⟨rfl, rfl⟩ := List.cons.inj heq
      cases suffix with
      | nil => exact h.2
      | cons n suffix => exact h.2.1
    · exact ih h.2 hsuffix

end Arena

section

variable {β : Type} (s : Store β) (links : List Link)

theorem Store.settings_orphan : (s.orphan links).settings = s.settings := by
  cases links with
  | nil => rfl
  | cons l links =>
    rw [Store.orphan, Store.thread_eq]
    rfl

theorem Store.epoch_orphan : (s.orphan links).epoch = s.epoch := by
  cases links with
  | nil => rfl
  | cons l links =>
    rw [Store.orphan, Store.thread_eq]
    rfl

theorem Store.head_orphan : (s.orphan links).head = s.head := by
  cases links with
  | nil => rfl
  | cons l links =>
    rw [Store.orphan, Store.thread_eq]
    rfl

end

end RecyclingStack
