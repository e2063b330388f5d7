import Mathlib.Algebra.GroupWithZero.Nat
import Mathlib.Data.List.Nodup
import RecyclingStack.Proofs.Memory.Chain
import RecyclingStack.Store.Basic

/-! What a store looks like: three chains that hang on its roots, and the private strands of those
who work on it. Every slot handed out lies in exactly one of these places. -/
namespace RecyclingStack

inductive Root where
  | stack
  | free
  | orphans
  deriving DecidableEq

namespace Store

variable {β : Type}

def root (s : Store β) : Root → Link
  | .stack => s.head
  | .free => s.pool.free
  | .orphans => s.orphans

def setRoot (s : Store β) (l : Link) : Root → Store β
  | .stack => { s with head := l }
  | .free => { s with pool := { s.pool with free := l } }
  | .orphans => { s with orphans := l }

theorem arena_setRoot (s : Store β) (l : Link) (r : Root) : (s.setRoot l r).arena = s.arena := by
  cases r <;> rfl

theorem root_setRoot (s : Store β) (l : Link) (r q : Root) :
    (s.setRoot l r).root q = if r = q then l else s.root q := by
  cases r <;> cases q <;> rfl

theorem arena_withArena (s : Store β) (a : Arena β) : (s.withArena a).arena = a := rfl

theorem root_withArena (s : Store β) (a : Arena β) (r : Root) :
    (s.withArena a).root r = s.root r := by
  cases r <;> rfl

end Store

/-- The chains of the roots, and the strands that hang nowhere. -/
structure Layout (β : Type) where
  stack : Strand β
  free : Strand β
  orphans : Strand β
  strands : List (Strand β)

namespace Layout

variable {β : Type}

def on (L : Layout β) : Root → Strand β
  | .stack => L.stack
  | .free => L.free
  | .orphans => L.orphans

def hang (L : Layout β) (u : Strand β) : Root → Layout β
  | .stack => { L with stack := u }
  | .free => { L with free := u }
  | .orphans => { L with orphans := u }

def withStrands (L : Layout β) (strands : List (Strand β)) : Layout β := { L with strands }

def cells (L : Layout β) : Strand β := L.stack ++ L.free ++ L.orphans ++ L.strands.flatten

theorem on_hang (L : Layout β) (u : Strand β) (r q : Root) :
    (L.hang u r).on q = if r = q then u else L.on q := by
  cases r <;> cases q <;> rfl

@[simp] theorem on_withStrands (L : Layout β) (strands : List (Strand β)) (r : Root) :
    (L.withStrands strands).on r = L.on r := by
  cases r <;> rfl

@[simp] theorem strands_withStrands (L : Layout β) (strands : List (Strand β)) :
    (L.withStrands strands).strands = strands := rfl

theorem mem_cells {L : Layout β} {c : Cell β} :
    c ∈ L.cells ↔ (∃ r, c ∈ L.on r) ∨ ∃ u ∈ L.strands, c ∈ u := by
  simp only [cells, List.mem_append, List.mem_flatten]
  constructor
  · rintro (((h | h) | h) | h)
    · exact .inl ⟨.stack, h⟩
    · exact .inl ⟨.free, h⟩
    · exact .inl ⟨.orphans, h⟩
    · exact .inr h
  · rintro (⟨r, h⟩ | h)
    · cases r
      · exact .inl (.inl (.inl h))
      · exact .inl (.inl (.inr h))
      · exact .inl (.inr h)
    · exact .inr h

theorem mem_cells_of_on {L : Layout β} {c : Cell β} {r : Root} {strands : List (Strand β)}
    (hc : c ∈ L.on r) : c ∈ (L.withStrands strands).cells :=
  mem_cells.2 (.inl ⟨r, by rwa [on_withStrands]⟩)

theorem cells_withStrands (L : Layout β) {strands : List (Strand β)}
    (h : L.strands.Perm strands) : L.cells.Perm (L.withStrands strands).cells :=
  h.flatten.append_left _

theorem cells_perm_on (L : Layout β) (r : Root) :
    L.cells.Perm (L.on r ++ (L.hang [] r).cells) := by
  classical
  apply List.perm_iff_count.2
  intro c
  cases r <;> simp [cells, on, hang, List.count_append] <;> omega

theorem cells_hang_append (L : Layout β) (u : Strand β) (rest : List (Strand β)) (r : Root) :
    ((L.hang (u ++ L.on r) r).withStrands rest).cells.Perm
      (L.withStrands (u :: rest)).cells := by
  classical
  apply List.perm_iff_count.2
  intro c
  cases r <;> simp [cells, on, hang, withStrands, List.count_append] <;> omega

theorem cells_cons (L : Layout β) (u : Strand β) (rest : List (Strand β)) :
    (L.withStrands (u :: rest)).cells.Perm (u ++ (L.withStrands rest).cells) := by
  classical
  apply List.perm_iff_count.2
  intro c
  simp [cells, withStrands, List.count_append]
  omega

theorem mem_cells_first {L : Layout β} {c : Cell β} {u : Strand β} {rest : List (Strand β)} :
    c ∈ (L.withStrands ((c :: u) :: rest)).cells :=
  (L.cells_cons _ rest).mem_iff.2 List.mem_cons_self

theorem sublist_on (L : Layout β) (r : Root) : (L.on r).Sublist L.cells := by
  cases r with
  | stack =>
    simp only [cells, List.append_assoc]
    exact List.sublist_append_left _ _
  | free =>
    simp only [cells, List.append_assoc]
    exact (List.sublist_append_left _ _).trans (List.sublist_append_right _ _)
  | orphans =>
    simp only [cells, List.append_assoc]
    exact ((List.sublist_append_left _ _).trans (List.sublist_append_right _ _)).trans
      (List.sublist_append_right _ _)

theorem sublist_strand {L : Layout β} {u : Strand β} (hu : u ∈ L.strands) : u.Sublist L.cells :=
  (List.sublist_flatten_of_mem hu).trans (List.sublist_append_right _ _)

end Layout

namespace Store

variable {β : Type}

/-- The store looks as the layout says. -/
structure Laid (s : Store β) (L : Layout β) : Prop where
  sound : s.arena.Sound
  rooted : ∀ r, s.arena.Leads (s.root r) (L.on r) .nil
  strung : ∀ u ∈ L.strands, s.arena.Strung u
  exactly : (L.cells.map Cell.index).Perm (List.range s.arena.fresh)
  holds : ∀ c ∈ L.cells, s.arena.Holds c
  idle : ∀ r, r ≠ .stack → ∀ c ∈ L.on r, c.stage = .spent

namespace Laid

variable {s : Store β} {L : Layout β}

theorem index_lt (h : s.Laid L) {c : Cell β} (hc : c ∈ L.cells) : c.index < s.arena.fresh :=
  List.mem_range.1 (h.exactly.mem_iff.1 (List.mem_map_of_mem hc))

theorem nodup (h : s.Laid L) : (L.cells.map Cell.index).Nodup :=
  h.exactly.nodup_iff.2 List.nodup_range

theorem eq_of_index_eq (h : s.Laid L) {c d : Cell β} (hc : c ∈ L.cells) (hd : d ∈ L.cells)
    (hi : c.index = d.index) : c = d :=
  List.inj_on_of_nodup_map h.nodup hc hd hi

theorem exists_cell (h : s.Laid L) {i : Nat} (hi : i < s.arena.fresh) :
    ∃ c ∈ L.cells, c.index = i :=
  List.mem_map.1 (h.exactly.mem_iff.2 (List.mem_range.2 hi))

theorem ne_nil (h : s.Laid L) {c : Cell β} (hc : c ∈ L.cells) : c.link ≠ .nil :=
  (h.holds c hc).ne_nil

theorem reorder (h : s.Laid L) {strands : List (Strand β)} (hL : L.strands.Perm strands) :
    s.Laid (L.withStrands strands) where
  sound := h.sound
  rooted := fun r => by simpa using h.rooted r
  strung := fun u hu => h.strung u (hL.mem_iff.2 hu)
  exactly := ((L.cells_withStrands hL).symm.map _).trans h.exactly
  holds := fun c hc => h.holds c ((L.cells_withStrands hL).mem_iff.2 hc)
  idle := fun r hr => by simpa using h.idle r hr

theorem restring (h : s.Laid L) {strands : List (Strand β)}
    (hcells : L.strands.flatten.Perm strands.flatten) (hstrung : ∀ u ∈ strands, s.arena.Strung u) :
    s.Laid (L.withStrands strands) where
  sound := h.sound
  rooted := fun r => by simpa using h.rooted r
  strung := hstrung
  exactly := ((hcells.append_left _).symm.map _).trans h.exactly
  holds := fun c hc => h.holds c ((hcells.append_left _).mem_iff.2 hc)
  idle := fun r hr => by simpa using h.idle r hr

theorem split {u w : Strand β} {rest : List (Strand β)}
    (h : s.Laid (L.withStrands ((u ++ w) :: rest))) :
    s.Laid (L.withStrands (u :: w :: rest)) := by
  have hparts := (h.strung _ List.mem_cons_self).of_append
  apply h.restring (by simp)
  intro es hes
  rcases List.mem_cons.1 hes with rfl | hes
  · exact hparts.1
  rcases List.mem_cons.1 hes with rfl | hes
  · exact hparts.2
  · exact h.strung es (List.mem_cons_of_mem _ hes)

theorem merge {u w : Strand β} {rest : List (Strand β)}
    (h : s.Laid (L.withStrands (u :: w :: rest)))
    (hlead : s.arena.Leads u.first u w.first) : s.Laid (L.withStrands ((u ++ w) :: rest)) := by
  have hw := h.strung w (by simp)
  apply h.restring (by simp)
  intro es hes
  rcases List.mem_cons.1 hes with rfl | hes
  · exact hlead.strung_append hw
  · exact h.strung es (by simp [hes])

theorem dropNil {rest : List (Strand β)} (h : s.Laid (L.withStrands ([] :: rest))) :
    s.Laid (L.withStrands rest) :=
  h.restring (by simp) fun u hu => h.strung u (List.mem_cons_of_mem _ hu)

theorem addNil {rest : List (Strand β)} (h : s.Laid (L.withStrands rest)) :
    s.Laid (L.withStrands ([] :: rest)) := by
  apply h.restring (by simp)
  intro u hu
  rcases List.mem_cons.1 hu with rfl | hu
  · exact s.arena.strung_nil
  · exact h.strung u hu

/-- A node by itself may pass to another stage without its slot being touched. -/
theorem restage {c k : Cell β} {rest : List (Strand β)} (h : s.Laid (L.withStrands ([c] :: rest)))
    (hlink : k.link = c.link) (hvalue : k.stage.value = c.stage.value) :
    s.Laid (L.withStrands ([k] :: rest)) where
  sound := h.sound
  rooted := fun r => by simpa using h.rooted r
  strung := by
    intro u hu
    rcases List.mem_cons.1 hu with rfl | hu
    · exact s.arena.strung_singleton k
    · exact h.strung u (List.mem_cons_of_mem _ hu)
  exactly := by
    have hc := ((L.cells_cons [c] rest).map Cell.index).symm.trans h.exactly
    apply ((L.cells_cons [k] rest).map Cell.index).trans
    have hindex : k.index = c.index := congrArg Link.index hlink
    simpa only [List.singleton_append, List.map_cons, hindex] using hc
  holds := by
    intro d hd
    rcases List.mem_cons.1 ((L.cells_cons [k] rest).mem_iff.1 hd) with rfl | hd
    · obtain ⟨slot, hslot, hl, hv⟩ := h.holds c Layout.mem_cells_first
      have hindex : d.index = c.index := congrArg Link.index hlink
      exact ⟨slot, hindex ▸ hslot, hindex ▸ hlink ▸ hl, hv.trans hvalue.symm⟩
    · exact h.holds d ((L.cells_cons [c] rest).mem_iff.2 (List.mem_cons_of_mem _ hd))
  idle := fun r hr => by simpa using h.idle r hr

theorem scatter {u : Strand β} {rest : List (Strand β)}
    (h : s.Laid (L.withStrands (u :: rest))) :
    s.Laid (L.withStrands (u.map (fun c => [c]) ++ rest)) := by
  have hcells : (u.map fun c => [c]).flatten = u := by
    rw [← List.flatMap_def, List.flatMap_singleton']
  apply h.restring (by simp [hcells])
  intro es hes
  rcases List.mem_append.1 hes with hes | hes
  · obtain ⟨c, -, rfl⟩ := List.mem_map.1 hes
    exact s.arena.strung_singleton c
  · exact h.strung es (List.mem_cons_of_mem _ hes)

end Laid

theorem laid_ofPlan (p : Plan) : (Store.ofPlan p : Store β).Laid ⟨[], [], [], []⟩ where
  sound := Arena.sound_empty p.capacityLimit
  rooted := fun r => by cases r <;> rfl
  strung := fun _ h => absurd h List.not_mem_nil
  exactly := .refl _
  holds := fun _ h => absurd h List.not_mem_nil
  idle := fun r _ c h => by cases r <;> exact absurd h List.not_mem_nil

end Store

end RecyclingStack
