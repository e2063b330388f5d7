import Mathlib.Data.List.TakeWhile
import RecyclingStack.Proofs.Memory.Relinks

/-! How nodes drift between the places of a store: from the stack to a deferred list, from there
to the orphans or to the free list, and back by being handed out, when a new incarnation begins. A
node whose grace period may still run does not come to the free list. -/
namespace RecyclingStack

namespace RetireList

def Files (r : RetireList) (epoch : Nat) (l : Link) : Prop :=
  ∃ bag ∈ r.bags, bag.epoch = epoch ∧ l ∈ bag.links

theorem files_push {r : RetireList} {l m : Link} {epoch E : Nat} :
    (r.push l epoch).Files E m ↔ E = epoch ∧ m = l ∨ r.Files E m := by
  have hinsert : ∀ bags : List Bag, (∃ bag ∈ Bag.insert l epoch bags, bag.epoch = E ∧
      m ∈ bag.links) ↔ E = epoch ∧ m = l ∨ ∃ bag ∈ bags, bag.epoch = E ∧ m ∈ bag.links := by
    intro bags
    induction bags with
    | nil => simp [Bag.insert, eq_comm]
    | cons bag bags ih =>
      simp only [Bag.insert]
      split
      · simp only [List.mem_cons, exists_eq_or_imp, ih]
        exact or_left_comm
      split
      · rename_i heq
        simp only [List.mem_cons, exists_eq_or_imp, List.mem_append, List.not_mem_nil, or_false,
          ← heq, eq_comm (a := E)]
        tauto
      · simp only [List.mem_cons, exists_eq_or_imp, List.not_mem_nil, or_false,
          eq_comm (a := epoch)]
  exact hinsert r.bags

theorem mem_links {r : RetireList} {l : Link} : l ∈ r.links ↔ ∃ E, r.Files E l := by
  rw [links, List.mem_flatMap]
  constructor
  · rintro ⟨bag, hbag, hl⟩
    exact ⟨bag.epoch, bag, hbag, rfl, hl⟩
  · rintro ⟨-, bag, hbag, -, hl⟩
    exact ⟨bag, hbag, hl⟩

theorem Files.mem_links {r : RetireList} {E : Nat} {l : Link} (h : r.Files E l) : l ∈ r.links :=
  RetireList.mem_links.2 ⟨E, h⟩

/-- A link that does not stay on the list is released, and its grace period has passed. -/
theorem Files.due_or_retained {r : RetireList} {E : Nat} {l : Link} (h : r.Files E l)
    (current grace : Nat) :
    reclaimable E current grace = true ∧ l ∈ r.released current grace ∨
      (r.retained current grace).Files E l := by
  obtain ⟨bag, hbag, rfl, hl⟩ := h
  have hsplit : bag ∈ r.due current grace ++ (r.retained current grace).bags := by
    rwa [due, retained, List.takeWhile_append_dropWhile]
  rcases List.mem_append.1 hsplit with hdue | hstays
  · exact .inl ⟨List.mem_takeWhile_imp (p := fun b : Bag => reclaimable b.epoch current grace) hdue,
      List.mem_flatMap.2 ⟨bag, hdue, hl⟩⟩
  · exact .inr ⟨bag, hstays, rfl, hl⟩

end RetireList

/-- A store, and under which handle and epoch each deferred node is on a list. -/
structure Scene (β : Type) where
  store : Store β
  files : Nat → Nat → Link → Prop

/-- A node that was on the stack and awaits its next incarnation. -/
def Scene.Idle {β : Type} (x : Scene β) (l : Link) : Prop :=
  (∃ h E, x.files h E l) ∨ l ∈ x.store.orphanChain ∨ l ∈ x.store.freeList

/-- What may happen to nodes from one moment to a later one: `out` are the slots handed out, `gone`
are the handles dropped, and `final` is an epoch at least as late as those by which deferred nodes
are released. -/
structure Drift {β : Type} (final : Nat) (out : List Nat) (gone : Nat → Prop) (x y : Scene β) :
    Prop where
  settings_eq : y.store.settings = x.store.settings
  stack : ∀ l below, l :: below <:+ x.store.chain → l :: below <:+ y.store.chain ∨ y.Idle l
  free : ∀ l below, l :: below <:+ x.store.freeList →
    l :: below <:+ y.store.freeList ∨ l.index ∈ out
  idle : ∀ l, x.Idle l → l.index ∈ out ∨
    y.Idle l ∧ y.store.arena.tag l = x.store.arena.tag l
  handed : ∀ i ∈ out, x.store.arena.fresh ≤ i ∨ i ∈ x.store.freeList.map Link.index
  generation : ∀ i, y.store.arena.generationAt i =
    if i ∈ out then (x.store.arena.generationAt i + 1) % halfWord
    else x.store.arena.generationAt i
  filed : ∀ h E l, x.files h E l → final ≤ E + x.store.settings.gracePeriod →
    y.files h E l ∧ y.store.arena.next l = x.store.arena.next l ∨
      gone h ∧ l ∈ y.store.orphanChain
  orphaned : ∀ l ∈ x.store.orphanChain,
    final ≤ x.store.arena.tag l + x.store.settings.gracePeriod →
      l ∈ y.store.orphanChain ∨ ∃ h, y.files h (x.store.arena.tag l) l

section

variable {β : Type} {x y z : Scene β} {final : Nat} {gone : Nat → Prop}

abbrev noneGone : Nat → Prop := fun _ => False

theorem Drift.trans (h : Drift final [] noneGone x y) (h' : Drift final [] gone y z) :
    Drift final [] gone x z where
  settings_eq := h'.settings_eq.trans h.settings_eq
  stack := by
    intro l below hl
    rcases h.stack l below hl with hstays | hidle
    · exact h'.stack l below hstays
    · exact .inr ((h'.idle l hidle).resolve_left List.not_mem_nil).1
  free := by
    intro l below hl
    rcases h.free l below hl with hstays | hout
    · exact h'.free l below hstays
    · exact .inr hout
  idle := by
    intro l hl
    obtain ⟨hidle, htag⟩ := (h.idle l hl).resolve_left List.not_mem_nil
    obtain ⟨hidle', htag'⟩ := (h'.idle l hidle).resolve_left List.not_mem_nil
    exact .inr ⟨hidle', htag'.trans htag⟩
  handed := fun i hi => absurd hi List.not_mem_nil
  generation := fun i => (h'.generation i).trans (h.generation i)
  filed := by
    intro k E l hl hfinal
    rcases h.filed k E l hl hfinal with ⟨hfiled, hnext⟩ | ⟨hgone, -⟩
    · rcases h'.filed k E l hfiled (h.settings_eq ▸ hfinal) with ⟨hfiled', hnext'⟩ | hleft
      · exact .inl ⟨hfiled', hnext'.trans hnext⟩
      · exact .inr hleft
    · exact hgone.elim
  orphaned := by
    intro l hl hfinal
    have htag := ((h.idle l (.inr (.inl hl))).resolve_left List.not_mem_nil).2
    rcases h.orphaned l hl hfinal with horphan | ⟨k, hfiled⟩
    · have hstill := h'.orphaned l horphan (by rwa [htag, h.settings_eq])
      rwa [htag] at hstill
    · rcases h'.filed k _ l hfiled (h.settings_eq ▸ hfinal) with ⟨hfiled', -⟩ | ⟨-, hleft⟩
      · exact .inr ⟨k, hfiled'⟩
      · exact .inl hleft

theorem Drift.mono {gone' : Nat → Prop} {out : List Nat} (h : Drift final out gone x y)
    (hgone : ∀ k, gone k → gone' k) : Drift final out gone' x y :=
  { h with
    filed := fun k E l hl hfinal => (h.filed k E l hl hfinal).imp_right fun ⟨hk, hleft⟩ =>
      ⟨hgone k hk, hleft⟩ }

/-- Forward links are written, so that all chains grow on top, if at all. What is on a list stays
there and keeps its forward link, or is due and goes to the free list, or is left to the orphans. -/
theorem Drift.relinked {links : List Link}
    (hlinks : Arena.Relinks links x.store.arena y.store.arena)
    (hsettings : y.store.settings = x.store.settings)
    (hstack : x.store.chain <:+ y.store.chain) (hfree : x.store.freeList <:+ y.store.freeList)
    (horphans : x.store.orphanChain <:+ y.store.orphanChain)
    (hfiles : ∀ h E l, x.files h E l → (y.files h E l ∧ ∀ m ∈ links, m.index ≠ l.index) ∨
      E + x.store.settings.gracePeriod < final ∧ l ∈ y.store.freeList ∨
        gone h ∧ l ∈ y.store.orphanChain) : Drift final [] gone x y where
  settings_eq := hsettings
  stack := fun l below hl => .inl (hl.trans hstack)
  free := fun l below hl => .inl (hl.trans hfree)
  idle := by
    refine fun l hl => .inr ⟨?_, hlinks.tag_eq l⟩
    rcases hl with ⟨h, E, hl⟩ | hl | hl
    · rcases hfiles h E l hl with ⟨hstays, -⟩ | ⟨-, hdue⟩ | ⟨-, hleft⟩
      · exact .inl ⟨h, E, hstays⟩
      · exact .inr (.inr hdue)
      · exact .inr (.inl hleft)
    · exact .inr (.inl (horphans.subset hl))
    · exact .inr (.inr (hfree.subset hl))
  handed := fun i hi => absurd hi List.not_mem_nil
  generation := hlinks.generationAt_eq
  filed := by
    intro h E l hl hfinal
    rcases hfiles h E l hl with ⟨hstays, hne⟩ | ⟨hdue, -⟩ | hleft
    · exact .inl ⟨hstays, hlinks.next_eq l hne⟩
    · exact absurd hfinal (Nat.not_le.2 hdue)
    · exact .inr hleft
  orphaned := fun l hl _ => .inl (horphans.subset hl)

/-- Nothing but values and names changes, and what is on a list stays there. -/
theorem Drift.still (hlinks : Arena.Relinks [] x.store.arena y.store.arena)
    (hroot : ∀ r, y.store.root r = x.store.root r)
    (hsettings : y.store.settings = x.store.settings)
    (hfiles : ∀ h E l, x.files h E l → y.files h E l) : Drift final [] gone x y := by
  have hchain : ∀ r, x.store.arena.chain (x.store.root r) =
      y.store.arena.chain (y.store.root r) := by
    intro r
    rw [hroot, Arena.chain_congr (fun l => hlinks.next_eq l nofun) hlinks.fresh_eq]
  exact .relinked hlinks hsettings ⟨[], hchain .stack⟩ ⟨[], hchain .free⟩
    ⟨[], hchain .orphans⟩ fun h E l hl => .inl ⟨hfiles h E l hl, nofun⟩

end

namespace Store.Laid

variable {β : Type} {s : Store β} {L : Layout β} {rest : List (Strand β)} {links : List Link}

theorem chains_eq (h : s.Laid (L.withStrands rest)) :
    s.chain = L.stack.map Cell.link ∧ s.freeList = L.free.map Cell.link ∧
      s.orphanChain = L.orphans.map Cell.link :=
  ⟨h.chain_root .stack, h.chain_root .free, h.chain_root .orphans⟩

/-- Nodes that are left behind stand in front of the orphans there are. -/
theorem orphanChain_orphan (h : s.Laid (L.withStrands (Strand.loose links ++ rest))) :
    (s.orphan links).orphanChain = links ++ s.orphanChain := by
  rw [h.chains_eq.2.2]
  exact (h.orphan.chains_eq.2.2.trans List.map_append).trans
    (congrArg (· ++ _) (Strand.map_link_idle _))

theorem index_ne_strand {u : Strand β} {m : Link} {c : Cell β}
    (h : s.Laid (L.withStrands (u :: rest))) (hc : c ∈ u) (hm : [Cell.spent m] ∈ rest) :
    c.link.index ≠ m.index :=
  (h.index_ne hc (d := Cell.spent m)
    (Layout.mem_cells.2 (.inr ⟨_, hm, List.mem_singleton_self _⟩))).symm

theorem index_ne_loose {l m : Link} (h : s.Laid (L.withStrands (Strand.loose links ++ rest)))
    (hl : l ∈ links) (hm : [Cell.spent m] ∈ rest) : l.index ≠ m.index := by
  obtain ⟨before, after, rfl⟩ := List.append_of_mem hl
  have hfront : (Strand.loose (before ++ l :: after) ++ rest : List (Strand β)).Perm
      ([Cell.spent l] :: (Strand.loose (before ++ after) ++ rest)) := by
    rw [Strand.loose_append, Strand.loose_append, List.append_assoc, List.append_assoc]
    exact List.perm_middle
  exact (h.reorder hfront).index_ne_strand List.mem_cons_self (List.mem_append_right _ hm)

theorem index_ne_stack {c d : Cell β} (h : s.Laid L) (hc : c ∈ L.stack)
    (hd : d ∈ L.free ++ L.orphans ++ L.strands.flatten) : c.link.index ≠ d.link.index := by
  have hnodup := h.nodup
  rw [Layout.cells, List.append_assoc, List.append_assoc, ← List.append_assoc L.free,
    List.map_append] at hnodup
  exact (List.nodup_append.1 hnodup).2.2 _ (List.mem_map_of_mem hc) _ (List.mem_map_of_mem hd)

end Store.Laid

namespace Turn

variable {β : Type} {t : Turn β} {L : Layout β} {rest : List (Strand β)} {final h : Nat}
  {others : Nat → Nat → Link → Prop}

/-- The scene while a handle is at work: its own list, and those of the others. -/
def scene (t : Turn β) (h : Nat) (others : Nat → Nat → Link → Prop) : Scene β :=
  ⟨t.store, fun k E l => k = h ∧ t.context.deferred.Files E l ∨ others k E l⟩

theorem files_defer_all (tag : Link → Nat) (ls : List Link) (c : Context) {E : Nat} {l : Link} :
    (ls.foldl (fun c l => c.defer l (tag l)) c).deferred.Files E l ↔
      (l ∈ ls ∧ E = tag l) ∨ c.deferred.Files E l := by
  induction ls generalizing c with
  | nil => simp
  | cons m ls ih =>
    rw [List.foldl_cons, ih, Context.defer, RetireList.files_push, List.mem_cons]
    constructor
    · rintro (⟨hl, rfl⟩ | ⟨rfl, rfl⟩ | hl)
      · exact .inl ⟨.inr hl, rfl⟩
      · exact .inl ⟨.inl rfl, rfl⟩
      · exact .inr hl
    · rintro (⟨rfl | hl, rfl⟩ | hl)
      · exact .inr (.inl ⟨rfl, rfl⟩)
      · exact .inl ⟨hl, rfl⟩
      · exact .inr (.inr hl)

/-- Adopted nodes keep the epoch of their retirement. -/
theorem adopt_drift (t : Turn β) :
    Drift final [] noneGone (t.scene h others) (t.adopt.state.scene h others) := by
  have hown : ∀ {k E l}, (t.scene h others).files k E l →
      (t.adopt.state.scene h others).files k E l := by
    rintro k E l (⟨rfl, hl⟩ | hl)
    · exact .inl ⟨rfl, (files_defer_all _ _ _).2 (.inr hl)⟩
    · exact .inr hl
  have hadopted : ∀ l ∈ t.store.orphanChain,
      (t.adopt.state.scene h others).files h (t.store.arena.tag l) l := fun l hl =>
    .inl ⟨rfl, (files_defer_all _ _ _).2 (.inl ⟨hl, rfl⟩)⟩
  refine ⟨rfl, fun l below hl => .inl hl, fun l below hl => .inl hl, ?_, ?_, fun i => rfl, ?_, ?_⟩
  · rintro l (⟨k, E, hl⟩ | hl | hl)
    · exact .inr ⟨.inl ⟨k, E, hown hl⟩, rfl⟩
    · exact .inr ⟨.inl ⟨h, _, hadopted l hl⟩, rfl⟩
    · exact .inr ⟨.inr (.inr hl), rfl⟩
  · exact fun i hi => absurd hi List.not_mem_nil
  · exact fun k E l hl _ => .inl ⟨hown hl, rfl⟩
  · exact fun l hl _ => .inr ⟨h, hadopted l hl⟩

section

variable {stack : Strand β} (htidy : t.Tidy stack rest)
  (hothers : ∀ k E l, others k E l → [Cell.spent l] ∈ rest)
include htidy hothers

/-- A sweep releases only nodes whose grace period has passed. -/
theorem sweep_drift :
    Drift t.store.epoch [] noneGone (t.scene h others) (t.sweep.state.scene h others) := by
  obtain ⟨L, -, hlaid⟩ := htidy
  have hlinks := t.context.deferred.released_append_retained t.store.epoch
    t.store.settings.gracePeriod
  rw [← hlinks, Strand.loose_append, List.append_assoc] at hlaid
  obtain ⟨hstack, hfree, horphans⟩ := hlaid.chains_eq
  obtain ⟨hstack', hfree', horphans'⟩ := hlaid.deallocateAll.chains_eq
  have hfreed : t.sweep.state.store.freeList = (t.context.deferred.released t.store.epoch
      t.store.settings.gracePeriod).reverse ++ t.store.freeList := by
    rw [hfree]
    exact (hfree'.trans List.map_append).trans (congrArg (· ++ _) (Strand.map_link_idle _))
  refine .relinked (.deallocateAll t.store.pool _) rfl ⟨[], hstack.trans hstack'.symm⟩
    (hfreed ▸ List.suffix_append _ _) ⟨[], horphans.trans horphans'.symm⟩ ?_
  rintro k E l (⟨rfl, hl⟩ | hl)
  · rcases hl.due_or_retained t.store.epoch t.store.settings.gracePeriod with ⟨hdue, hl⟩ | hl
    · refine .inr (.inl ⟨of_decide_eq_true hdue, ?_⟩)
      rw [scene, hfreed]
      exact List.mem_append_left _ (List.mem_reverse.2 hl)
    · refine .inl ⟨.inl ⟨rfl, hl⟩, fun m hm => hlaid.index_ne_loose hm ?_⟩
      exact List.mem_append_left _ (List.mem_map_of_mem hl.mem_links)
  · refine .inl ⟨.inr hl, fun m hm => hlaid.index_ne_loose hm ?_⟩
    exact List.mem_append_right _ (hothers k E l hl)

theorem reclaim_drift :
    Drift t.store.epoch [] noneGone (t.scene h others) (t.reclaim.state.scene h others) :=
  (adopt_drift t).trans (sweep_drift (adopt_tidy htidy) hothers)

theorem advance_drift :
    Drift (nextWord t.store.epoch) [] noneGone (t.scene h others)
      (t.advance.state.scene h others) := by
  have hticked : ({ t with store := { t.store with epoch := nextWord t.store.epoch } } :
      Turn β).Tidy stack rest :=
    Store.Tidy.of_eq (s := t.store) rfl (fun r => by cases r <;> rfl) htidy
  refine .trans ?_ (reclaim_drift hticked hothers)
  exact .still (.refl _) (fun r => by cases r <;> rfl) rfl fun k E l hl => hl

theorem complete_drift :
    Drift t.complete.state.store.epoch [] noneGone (t.scene h others)
      (t.complete.state.scene h others) := by
  have hcounted : ∀ final, Drift final [] noneGone (t.scene h others)
      (({ t with context := t.context.count } : Turn β).scene h others) := fun _ =>
    .still (.refl _) (fun _ => rfl) rfl fun k E l hl => hl
  simp only [complete]
  split
  · exact (hcounted _).trans
      (advance_drift (t := { t with context := t.context.count }) htidy hothers)
  · exact hcounted _

/-- The nodes of a handle that goes are left to the orphans, with their tags. -/
theorem orphan_drift (final : Nat) :
    Drift final [] (· = h) (t.scene h others)
      ⟨t.store.orphan t.context.deferred.links, others⟩ := by
  obtain ⟨L, -, hlaid⟩ := htidy
  obtain ⟨hstack, hfree, -⟩ := hlaid.chains_eq
  obtain ⟨hstack', hfree', -⟩ := hlaid.orphan.chains_eq
  have hleft : (t.store.orphan t.context.deferred.links).orphanChain =
      t.context.deferred.links ++ t.store.orphanChain := hlaid.orphanChain_orphan
  refine .relinked (.orphan t.store _) (t.store.settings_orphan _)
    ⟨[], hstack.trans hstack'.symm⟩ ⟨[], hfree.trans hfree'.symm⟩
    (hleft ▸ List.suffix_append _ _) ?_
  rintro k E l (⟨rfl, hl⟩ | hl)
  · refine .inr (.inr ⟨rfl, ?_⟩)
    rw [hleft]
    exact List.mem_append_left _ hl.mem_links
  · exact .inl ⟨hl, fun m hm => hlaid.index_ne_loose hm (hothers k E l hl)⟩

end

/-- The top node is off the stack and tagged, and its value is taken. -/
def retired (t : Turn β) (l : Link) : Turn β :=
  ({ t with store := { t.store.withArena (t.store.arena.clearValue l) with
    head := t.store.arena.next l } }).retire l

/-- A pop leaves everything as it is, or retires the top. -/
theorem pop_cases (t : Turn β) : t.pop = ⟨t, none, []⟩ ∨ ∃ v,
    t.pop = ⟨(t.retired t.store.head).complete.state, some v,
      (t.retired t.store.head).complete.log⟩ := by
  simp only [pop, Store.unlink]
  by_cases hnone : (t.store.head.isNil || t.store.shutdown) = true
  · rw [if_pos hnone]
    exact .inl rfl
  · rw [if_neg hnone, Store.takeValue]
    cases (t.store.arena.read t.store.head).value with
    | none => exact .inl rfl
    | some v => exact .inr ⟨v, rfl⟩

theorem next_retired (t : Turn β) (l m : Link) :
    (t.retired l).store.arena.next m = t.store.arena.next m :=
  (Arena.next_setRetiredEpoch _ l _ m).trans
    ((Arena.Relinks.clearValue t.store.arena l).next_eq m fun _ hk => absurd hk List.not_mem_nil)

theorem generationAt_retired (t : Turn β) (l : Link) (i : Nat) :
    (t.retired l).store.arena.generationAt i = t.store.arena.generationAt i :=
  (Arena.generationAt_setRetiredEpoch _ l _ i).trans
    ((Arena.Relinks.clearValue t.store.arena l).generationAt_eq i)

theorem tag_retired (t : Turn β) {l m : Link} (h : l.index ≠ m.index) :
    (t.retired l).store.arena.tag m = t.store.arena.tag m :=
  (congrArg Slot.retiredEpoch (Arena.read_update_of_ne _ _ h)).trans
    ((Arena.Relinks.clearValue t.store.arena l).tag_eq m)

theorem chain_retired (t : Turn β) (l m : Link) :
    (t.retired l).store.arena.chain m = t.store.arena.chain m :=
  Arena.chain_congr (t.next_retired l) (by cases l <;> rfl) m

theorem files_retired (t : Turn β) (l : Link) :
    ((t.retired l).scene h others).files h t.store.epoch l :=
  .inl ⟨rfl, RetireList.files_push.2 (.inl ⟨rfl, rfl⟩)⟩

theorem files_of_retired {t : Turn β} {l m : Link} {k E : Nat}
    (hm : (t.scene h others).files k E m) : ((t.retired l).scene h others).files k E m :=
  hm.imp_left fun ⟨hk, hl⟩ => ⟨hk, RetireList.files_push.2 (.inr hl)⟩

section

variable {stack : Strand β} {c : Cell β} (htidy : t.Tidy (c :: stack) rest)
include htidy

theorem retired_tidy {v : β} (hc : c.stage = .full v) (hshut : t.store.shutdown = false) :
    t.pop = ⟨(t.retired c.link).complete.state, some v, (t.retired c.link).complete.log⟩ ∧
      (t.retired c.link).Tidy stack rest := by
  obtain ⟨L, hL, hlaid⟩ := htidy
  obtain ⟨hunlink, hlaid'⟩ := hlaid.unlink hL hc hshut
  refine ⟨?_, retire_tidy ⟨L.hang stack .stack, rfl, hlaid'.reorder List.perm_middle.symm⟩⟩
  rw [pop, hunlink]
  rfl

theorem chain_eq_retired : t.store.chain = c.link :: (t.retired c.link).store.chain := by
  obtain ⟨L, hL, hlaid⟩ := htidy
  have hlead := hlaid.rooted .stack
  have hsub := (L.withStrands (Strand.loose t.context.deferred.links ++ rest)).sublist_on .stack
  rw [Layout.on_withStrands, Layout.on, hL] at hlead hsub
  exact (hlaid.chain_cons hsub hlead).trans
    (congrArg (c.link :: ·) (t.chain_retired c.link _).symm)

theorem index_ne_idle (hothers : ∀ k E l, others k E l → [Cell.spent l] ∈ rest) {l : Link}
    (hl : (t.scene h others).Idle l) : c.link.index ≠ l.index := by
  obtain ⟨L, hL, hlaid⟩ := htidy
  obtain ⟨-, hfree, horphans⟩ := hlaid.chains_eq
  have hloose : ∀ u ∈ Strand.loose t.context.deferred.links ++ rest, ∀ d ∈ u,
      c.link.index ≠ d.link.index := fun u hu d hd =>
    hlaid.index_ne_stack (hL ▸ List.mem_cons_self)
      (List.mem_append_right _ (List.mem_flatten.2 ⟨u, hu, hd⟩))
  rcases hl with ⟨k, E, ⟨rfl, hl⟩ | hl⟩ | hl | hl
  · exact hloose [Cell.spent l] (List.mem_append_left _ (List.mem_map_of_mem hl.mem_links)) _
      List.mem_cons_self
  · exact hloose [Cell.spent l] (List.mem_append_right _ (hothers k E l hl)) _ List.mem_cons_self
  · rw [scene, horphans] at hl
    obtain ⟨d, hd, rfl⟩ := List.mem_map.1 hl
    exact hlaid.index_ne_stack (hL ▸ List.mem_cons_self)
      (List.mem_append_left _ (List.mem_append_right _ hd))
  · rw [scene, hfree] at hl
    obtain ⟨d, hd, rfl⟩ := List.mem_map.1 hl
    exact hlaid.index_ne_stack (hL ▸ List.mem_cons_self)
      (List.mem_append_left _ (List.mem_append_left _ hd))

theorem retired_drift (hothers : ∀ k E l, others k E l → [Cell.spent l] ∈ rest) :
    Drift final [] noneGone (t.scene h others) ((t.retired c.link).scene h others) := by
  have hfree : (t.retired c.link).store.freeList = t.store.freeList := t.chain_retired _ _
  have horphans : (t.retired c.link).store.orphanChain = t.store.orphanChain :=
    t.chain_retired _ _
  refine ⟨rfl, ?_, fun l below hl => .inl ?_, fun l hl => .inr ⟨?_, ?_⟩, ?_,
    t.generationAt_retired c.link, ?_, ?_⟩
  · intro l below hl
    rw [scene, chain_eq_retired htidy] at hl
    rcases List.suffix_cons_iff.1 hl with heq | hl
    · obtain ⟨rfl, -⟩ := List.cons.inj heq
      exact .inr (.inl ⟨h, t.store.epoch, t.files_retired c.link⟩)
    · exact .inl hl
  · rwa [scene, hfree]
  · rcases hl with ⟨k, E, hl⟩ | hl
    · exact .inl ⟨k, E, files_of_retired hl⟩
    · refine .inr ?_
      rwa [scene, horphans, hfree]
  · exact t.tag_retired (index_ne_idle htidy hothers hl)
  · exact fun i hi => absurd hi List.not_mem_nil
  · exact fun k E l hl _ => .inl ⟨files_of_retired hl, t.next_retired c.link l⟩
  · refine fun l hl _ => .inl ?_
    rwa [scene, horphans]

end

theorem pop_drift {live : Load β} (htidy : t.Tidy live.strand rest)
    (hothers : ∀ k E l, others k E l → [Cell.spent l] ∈ rest) :
    Drift t.pop.state.store.epoch [] noneGone (t.scene h others) (t.pop.state.scene h others) := by
  have hnone : live.strand = [] ∨ t.store.shutdown = true → Drift t.pop.state.store.epoch []
      noneGone (t.scene h others) (t.pop.state.scene h others) := by
    intro hnone
    rw [pop_none htidy hnone]
    exact .still (.refl _) (fun _ => rfl) rfl fun k E l hl => hl
  cases hshut : t.store.shutdown with
  | true => exact hnone (.inr hshut)
  | false =>
    cases live with
    | nil => exact hnone (.inl rfl)
    | cons n live =>
      obtain ⟨hpop, hretired⟩ := retired_tidy (c := ⟨n.1, .full n.2⟩) htidy rfl hshut
      rw [hpop]
      exact (retired_drift htidy hothers).trans (complete_drift hretired hothers)

/-- A popped node awaits its next incarnation, tagged with the epoch at which it was popped. It is
on the list of the handle under this epoch, unless its grace period is over at once. -/
theorem pop_retires {n : Link × β} {live : Load β} (htidy : t.Tidy (Load.strand (n :: live)) rest)
    (hothers : ∀ k E l, others k E l → [Cell.spent l] ∈ rest) (hshut : t.store.shutdown = false) :
    (t.pop.state.scene h others).Idle n.1 ∧ t.pop.state.store.arena.tag n.1 = t.store.epoch ∧
      (t.pop.state.store.epoch ≤ t.store.epoch + t.store.settings.gracePeriod →
        (t.pop.state.scene h others).files h t.store.epoch n.1 ∧
          t.pop.state.store.arena.next n.1 = t.store.arena.next n.1) := by
  obtain ⟨hpop, hretired⟩ := retired_tidy (c := ⟨n.1, .full n.2⟩) htidy rfl hshut
  rw [hpop]
  have hdrift := complete_drift (h := h) hretired hothers
  have hfiled : ((t.retired n.1).scene h others).files h t.store.epoch n.1 := t.files_retired n.1
  obtain ⟨hidle, htag⟩ := (hdrift.idle n.1 (.inl ⟨h, _, hfiled⟩)).resolve_left List.not_mem_nil
  refine ⟨hidle, htag.trans ?_, fun hfinal => ?_⟩
  · obtain ⟨L, hL, hlaid⟩ := htidy
    obtain ⟨-, hunlinked⟩ := hlaid.unlink (c := ⟨n.1, .full n.2⟩) hL rfl hshut
    exact (hunlinked.holds (Cell.spent n.1) Layout.mem_cells_first).tag_setRetiredEpoch
      t.store.epoch
  · obtain ⟨hstays, hnext⟩ := (hdrift.filed h _ _ hfiled hfinal).resolve_right fun hgone => hgone.1
    exact ⟨hstays, hnext.trans (t.next_retired n.1 n.1)⟩

theorem publish_drift {stack u : Strand β} (hne : u ≠ []) (htidy : t.Tidy stack (u :: rest))
    (hothers : ∀ k E l, others k E l → [Cell.spent l] ∈ rest) :
    Drift (t.publish u.first u.last).state.store.epoch [] noneGone (t.scene h others)
      ((t.publish u.first u.last).state.scene h others) := by
  obtain ⟨L, -, hlaid⟩ := htidy
  replace hlaid : t.store.Laid (L.withStrands
      (u :: (Strand.loose t.context.deferred.links ++ rest))) := hlaid.reorder List.perm_middle
  obtain ⟨hstack, hfree, horphans⟩ := hlaid.chains_eq
  obtain ⟨hstack', hfree', horphans'⟩ := (hlaid.publish hne).chains_eq
  have hgrown : (t.store.publish u.first u.last).chain = u.map Cell.link ++ t.store.chain := by
    rw [hstack]
    exact hstack'.trans List.map_append
  refine .trans ?_ (complete_drift (t := { t with store := t.store.publish u.first u.last })
    ⟨_, rfl, hlaid.publish hne⟩ hothers)
  obtain ⟨c, hc, hlast⟩ := Strand.exists_last hne
  have haside : ∀ l, [Cell.spent l] ∈ Strand.loose t.context.deferred.links ++ rest →
      ∀ m ∈ [u.last], m.index ≠ l.index := by
    intro l hl m hm
    rw [List.mem_singleton.1 hm, ← hlast]
    exact hlaid.index_ne_strand hc hl
  refine .relinked (.setNext t.store.arena u.last t.store.head) rfl
    (hgrown ▸ List.suffix_append _ _) ⟨[], hfree.trans hfree'.symm⟩
    ⟨[], horphans.trans horphans'.symm⟩ ?_
  rintro k E l (⟨rfl, hl⟩ | hl)
  · exact .inl ⟨.inl ⟨rfl, hl⟩, haside l
      (List.mem_append_left _ (List.mem_map_of_mem hl.mem_links))⟩
  · exact .inl ⟨.inr hl, haside l (List.mem_append_right _ (hothers k E l hl))⟩

end Turn

end RecyclingStack
