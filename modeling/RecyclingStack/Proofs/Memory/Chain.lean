import RecyclingStack.Arena.Lemmas

/-! Chains in an arena. A cell is a node together with the stage of its life; a strand is a list of
cells whose nodes follow each other. What a strand says of the arena concerns its own slots only,
so that a write elsewhere leaves it alone. -/
namespace RecyclingStack

/-- The life of one incarnation of a slot: it has its generation and no value yet, then a value,
then none any more, and at last it is off the free list and awaits its next generation. -/
inductive Stage (β : Type) where
  | blank
  | full (value : β)
  | spent
  | taken

def Stage.value {β : Type} : Stage β → Option β
  | full value => some value
  | blank | spent | taken => none

/-- A node, as the link to its incarnation, and the stage of its life. -/
structure Cell (β : Type) where
  link : Link
  stage : Stage β

def Cell.index {β : Type} (c : Cell β) : Nat := c.link.index

def Cell.spent {β : Type} (l : Link) : Cell β := ⟨l, .spent⟩

abbrev Strand (β : Type) := List (Cell β)

namespace Strand

variable {β : Type}

def first : Strand β → Link
  | [] => .nil
  | c :: _ => c.link

def last (u : Strand β) : Link := (u.getLast?.map Cell.link).getD .nil

@[simp] theorem first_nil : first ([] : Strand β) = .nil := rfl
@[simp] theorem first_cons (c : Cell β) (u : Strand β) : first (c :: u) = c.link := rfl

@[simp] theorem last_concat (u : Strand β) (c : Cell β) : last (u ++ [c]) = c.link := by
  simp [last]

theorem last_cons (c : Cell β) {u : Strand β} (h : u ≠ []) : last (c :: u) = last u := by
  simp [last, List.getLast?_cons, List.getLast?_eq_some_getLast h]

theorem exists_last {u : Strand β} (h : u ≠ []) : ∃ c ∈ u, c.link = last u := by
  refine ⟨u.getLast h, List.getLast_mem h, ?_⟩
  rw [last, List.getLast?_eq_some_getLast h]
  rfl

end Strand

namespace Arena

variable {β : Type}

/-- The capacity is one that the segments can hold, every segment has its length, and slots not
handed out yet are as they were made. -/
structure Sound (a : Arena β) : Prop where
  capacity_le : a.capacity ≤ maxCapacity
  fresh_le : a.fresh ≤ a.capacity
  length : a.directory.length = segmentCount
  size : ∀ {segment slots}, a.segment? segment = some slots → slots.size = segmentLength segment
  unused : ∀ {i slot}, a.fresh ≤ i → a.slot? i = some slot → slot = {}

theorem sound_empty (requested : Option Nat) : (empty requested : Arena β).Sound where
  capacity_le := capacity_empty_le _
  fresh_le := Nat.zero_le _
  length := List.length_replicate
  size := fun h => by
    rw [segment?_empty] at h
    cases h
  unused := fun _ h => by
    rw [slot?_empty] at h
    cases h

/-- The slot of a cell is there, in the generation of its link and with the value of its stage. -/
def Holds (a : Arena β) (c : Cell β) : Prop :=
  ∃ slot, a.slot? c.index = some slot ∧ c.link = .node c.index slot.generation ∧
    slot.value = c.stage.value

/-- From `l`, the nodes of the cells follow each other up to `e`. -/
def Leads (a : Arena β) : Link → Strand β → Link → Prop
  | l, [], e => l = e
  | l, c :: u, e => l = c.link ∧ a.Leads (a.next c.link) u e

/-- The nodes of the cells follow each other; what comes after the last one is left open. -/
def Strung (a : Arena β) (u : Strand β) : Prop := ∃ e, a.Leads (Strand.first u) u e

theorem Leads.first_eq {a : Arena β} {l e : Link} {c : Cell β} {u : Strand β}
    (h : a.Leads l (c :: u) e) : l = c.link := h.1

theorem leads_append {a : Arena β} {u w : Strand β} {l e : Link} :
    a.Leads l (u ++ w) e ↔ ∃ m, a.Leads l u m ∧ a.Leads m w e := by
  induction u generalizing l with
  | nil => simp [Leads]
  | cons c u ih => simp only [List.cons_append, Leads, ih, and_assoc, exists_and_left]

theorem Leads.strung {a : Arena β} {l e : Link} {u : Strand β} (h : a.Leads l u e) :
    a.Strung u := by
  cases u with
  | nil => exact ⟨.nil, rfl⟩
  | cons c u => exact ⟨e, rfl, h.2⟩

/-- A strand is seen alike in every arena with the same forward links at its nodes. -/
theorem Leads.congr {a b : Arena β} {u : Strand β} {l e : Link}
    (hnext : ∀ c ∈ u, b.next c.link = a.next c.link) (h : a.Leads l u e) : b.Leads l u e := by
  induction u generalizing l with
  | nil => exact h
  | cons c u ih =>
    refine ⟨h.1, ?_⟩
    rw [hnext c List.mem_cons_self]
    exact ih (fun d hd => hnext d (List.mem_cons_of_mem c hd)) h.2

theorem Strung.congr {a b : Arena β} {u : Strand β}
    (hnext : ∀ c ∈ u, b.next c.link = a.next c.link) (h : a.Strung u) : b.Strung u :=
  ⟨h.choose, h.choose_spec.congr hnext⟩

theorem strung_nil (a : Arena β) : a.Strung [] := ⟨.nil, rfl⟩

theorem strung_singleton (a : Arena β) (c : Cell β) : a.Strung [c] := ⟨_, rfl, rfl⟩

theorem Strung.of_append {a : Arena β} {u w : Strand β} (h : a.Strung (u ++ w)) :
    a.Strung u ∧ a.Strung w := by
  obtain ⟨e, h⟩ := h
  obtain ⟨m, hc, hd⟩ := leads_append.1 h
  exact ⟨hc.strung, hd.strung⟩

theorem Leads.strung_append {a : Arena β} {u w : Strand β} {l : Link}
    (hc : a.Leads l u (Strand.first w)) (hd : a.Strung w) : a.Strung (u ++ w) :=
  (leads_append.2 ⟨_, hc, hd.choose_spec⟩).strung

theorem Strung.next_eq {a : Arena β} {c d : Cell β} {u : Strand β} (h : a.Strung (c :: d :: u)) :
    a.next c.link = d.link := h.choose_spec.2.1

theorem follow_of_leads {a : Arena β} {u : Strand β} {l : Link} {fuel : Nat}
    (h : a.Leads l u .nil) (hnil : ∀ c ∈ u, c.link ≠ .nil) (hfuel : u.length ≤ fuel) :
    a.follow fuel l = u.map Cell.link := by
  induction u generalizing l fuel with
  | nil =>
    rw [show l = .nil from h]
    cases fuel <;> rfl
  | cons c u ih =>
    obtain ⟨fuel, rfl⟩ : ∃ n, fuel = n + 1 :=
      ⟨fuel - 1, by simp only [List.length_cons] at hfuel; omega⟩
    obtain ⟨rfl, h⟩ := h
    have ih := ih h (fun d hd => hnil d (List.mem_cons_of_mem c hd))
      (by simpa using hfuel)
    cases hc : c.link with
    | nil => exact absurd hc (hnil c List.mem_cons_self)
    | node i g =>
      rw [hc] at ih
      simp only [follow, List.map_cons, hc, ih]

theorem chain_nil (a : Arena β) : a.chain .nil = [] := by
  unfold chain
  cases a.fresh <;> rfl

/-- From `l` on, `next` leads through these links and then to nil. -/
def Threads (a : Arena β) : Link → List Link → Prop
  | l, [] => l = .nil
  | l, m :: links => l = m ∧ a.Threads (a.next m) links

theorem Leads.threads {a : Arena β} {u : Strand β} {l : Link} (h : a.Leads l u .nil) :
    a.Threads l (u.map Cell.link) := by
  induction u generalizing l with
  | nil => exact h
  | cons c u ih => exact ⟨h.1, ih h.2⟩

/-- Only one list of nodes lies between a link and nil. -/
theorem Leads.links_eq {a : Arena β} {u w : Strand β} {l : Link} (hu : a.Leads l u .nil)
    (hw : a.Leads l w .nil) (hunil : ∀ c ∈ u, c.link ≠ .nil) (hwnil : ∀ c ∈ w, c.link ≠ .nil) :
    u.map Cell.link = w.map Cell.link := by
  induction u generalizing w l with
  | nil =>
    cases w with
    | nil => rfl
    | cons d w => exact absurd (hw.1.symm.trans hu) (hwnil d List.mem_cons_self)
  | cons c u ih =>
    cases w with
    | nil => exact absurd (hu.1.symm.trans hw) (hunil c List.mem_cons_self)
    | cons d w =>
      have hcd : c.link = d.link := hu.1.symm.trans hw.1
      have hrest := ih hu.2 (hcd ▸ hw.2) (fun e he => hunil e (List.mem_cons_of_mem c he))
        fun e he => hwnil e (List.mem_cons_of_mem d he)
      rw [List.map_cons, List.map_cons, hcd, hrest]

/-- The private chain from `first` to `last`, of at most `fuel` nodes. -/
def between (a : Arena β) : (fuel : Nat) → (first last : Link) → List Link
  | 0, _, _ => []
  | _, .nil, _ => []
  | fuel + 1, first@(.node _ _), last =>
    first :: if first = last then [] else a.between fuel (a.next first) last

theorem between_of_strung {a : Arena β} {u : Strand β} {fuel : Nat} (h : a.Strung u)
    (hnodup : (u.map Cell.link).Nodup) (hnil : ∀ c ∈ u, c.link ≠ .nil) (hfuel : u.length ≤ fuel) :
    a.between fuel u.first u.last = u.map Cell.link := by
  induction u generalizing fuel with
  | nil => cases fuel <;> rfl
  | cons c u ih =>
    obtain ⟨fuel, rfl⟩ : ∃ n, fuel = n + 1 :=
      ⟨fuel - 1, by simp only [List.length_cons] at hfuel; omega⟩
    obtain ⟨hc, hnodup⟩ := List.nodup_cons.1 hnodup
    have ih := ih (Strung.of_append (u := [c]) h).2 hnodup
      (fun d hd => hnil d (List.mem_cons_of_mem c hd)) (by simpa using hfuel)
    cases hl : c.link with
    | nil => exact absurd hl (hnil c List.mem_cons_self)
    | node i g =>
      rw [Strand.first_cons, hl, between, ← hl, List.map_cons]
      congr 1
      cases u with
      | nil => exact if_pos rfl
      | cons d u =>
        have hlast := Strand.last_cons c (List.cons_ne_nil d u)
        obtain ⟨e, he, hel⟩ := Strand.exists_last (List.cons_ne_nil d u)
        have hne : c.link ≠ Strand.last (d :: u) := fun heq =>
          hc (heq.trans hel.symm ▸ List.mem_map_of_mem he)
        rw [hlast, if_neg hne, h.next_eq]
        exact ih

theorem next_node (a : Arena β) {i : Nat} {x : Slot β} (h : a.slot? i = some x) (g : Nat) :
    a.next (.node i g) = x.next := by
  simp [next, read_node, h]

theorem update_node (a : Arena β) (i g : Nat) (f : Slot β → Slot β) :
    a.update (.node i g) f = a.modify i f := rfl

theorem Holds.congr {a b : Arena β} {c : Cell β} (hslot : b.slot? c.index = a.slot? c.index)
    (h : a.Holds c) : b.Holds c := by
  unfold Holds at *
  rw [hslot]
  exact h

theorem Holds.ne_nil {a : Arena β} {c : Cell β} (h : a.Holds c) : c.link ≠ .nil := by
  obtain ⟨slot, -, hl, -⟩ := h
  rw [hl]
  exact Link.noConfusion

theorem Holds.update_eq {a : Arena β} {c : Cell β} (h : a.Holds c) (f : Slot β → Slot β) :
    a.update c.link f = a.modify c.index f := by
  obtain ⟨slot, -, hl, -⟩ := h
  rw [hl, update_node]

theorem Holds.value_eq {a : Arena β} {c : Cell β} (h : a.Holds c) :
    (a.read c.link).value = c.stage.value := by
  obtain ⟨slot, hs, hl, hv⟩ := h
  rw [hl, read_node, hs]
  exact hv

theorem Sound.modify {a : Arena β} (h : a.Sound) {i : Nat} (hi : i < a.fresh)
    (f : Slot β → Slot β) : (a.modify i f).Sound where
  capacity_le := h.capacity_le
  fresh_le := h.fresh_le
  length := (length_directory_modify a i f).trans h.length
  size := by
    intro segment slots hs
    rw [segment?_modify] at hs
    split at hs
    · obtain ⟨old, hold, rfl⟩ := Option.map_eq_some_iff.1 hs
      rw [Array.size_modify]
      exact h.size hold
    · exact h.size hs
  unused := by
    intro j slot hj hs
    have hij : i ≠ j := fun hij => absurd (hij ▸ hj) (Nat.not_le.2 hi)
    rw [slot?_modify, if_neg hij] at hs
    exact h.unused hj hs

end Arena

end RecyclingStack
