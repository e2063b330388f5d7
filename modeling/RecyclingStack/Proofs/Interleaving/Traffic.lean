import Mathlib.Data.List.Basic
import RecyclingStack.Proofs.Interleaving.Places

/-! What an access moves between the chains and the hand of its thread. -/
namespace RecyclingStack

section

variable {α : Type}

/-- The root that an access swings. -/
def Phase.turns : Phase α → Option Root
  | .swingFree _ _ _ _ | .pushFree _ _ _ => some .free
  | .swingHead _ _ _ | .swingTop _ _ => some .stack
  | .takeOrphans _ | .pushOrphans _ _ => some .orphans
  | _ => none

end

theorem Arena.fresh_update {α : Type} (a : Arena α) (l : Link) (f : Slot α → Slot α) :
    (a.update l f).fresh = a.fresh := by
  cases l <;> rfl

namespace Worker

variable {α : Type} (w : Worker α) (s : Store α) (spurious : Bool)

def reused : List Nat :=
  match w.phase with
  | .swingFree _ _ top _ => if exchanges spurious s.pool.free top then [top.index] else []
  | _ => []

def claimed : List Nat :=
  match w.phase with
  | .claimFresh _ _ index => if exchanges spurious s.arena.fresh index then [index] else []
  | _ => []

def freed : List Link :=
  match w.phase with
  | .pushFree node top _ => if exchanges spurious s.pool.free top then [node] else []
  | _ => []

theorem toList_handOut? : (w.handOut? s spurious).toList = w.reused s spurious ++
    w.claimed s spurious := by
  rw [handOut?, reused, claimed]
  cases w.phase <;> try rfl
  all_goals
    dsimp only
    split <;> rfl

theorem root_step {r : Root} (h : w.phase.turns ≠ some r) :
    (w.step s spurious).1.root r = s.root r := by
  have htake : ∀ {l x}, s.takeValue l = some x → x.2.root r = s.root r := by
    intro l x hx
    rw [Store.takeValue] at hx
    split at hx <;> cases hx
    exact Store.root_withArena s _ r
  unfold step
  cases hphase : w.phase with
  | swingFree | pushFree | swingHead | takeOrphans | pushOrphans =>
    rw [hphase] at h
    cases r <;> first | exact absurd rfl h | (dsimp only; split <;> rfl) | rfl
  | swingTop head next =>
    rw [hphase] at h
    cases r with
    | stack => exact absurd rfl h
    | free | orphans =>
      dsimp only
      split
      · cases htop : s.takeValue head with
        | none => rfl
        | some x => exact htake htop
      · rfl
  | readDoomed node last answer =>
    dsimp only
    split
    · rfl
    · rename_i htop
      exact htake htop
  | installSegment | claimFresh | loadOrphans | checkSegment | checkShutdown | checkTop =>
    dsimp only
    repeat' split
    all_goals rfl
  | threadOrphans nodes todo => rcases todo with _ | ⟨node, _ | ⟨next, rest⟩⟩ <;> rfl
  | _ => rfl

theorem range_fresh : List.range (w.step s spurious).1.arena.fresh =
    List.range s.arena.fresh ++ w.claimed s spurious := by
  have hsame : ∀ {t : Store α}, t.arena.fresh = s.arena.fresh →
      List.range t.arena.fresh = List.range s.arena.fresh ++ [] := by
    intro t ht
    rw [ht, List.append_nil]
  have htake : ∀ {l x}, s.takeValue l = some x → x.2.arena.fresh = s.arena.fresh := by
    intro l x hx
    rw [Store.takeValue] at hx
    split at hx <;> cases hx
    exact s.arena.fresh_update l _
  unfold step claimed
  cases hphase : w.phase with
  | claimFresh job value index =>
    dsimp only
    split
    · rename_i hthrough
      rw [← eq_of_exchanges hthrough]
      exact List.range_succ
    · exact hsame rfl
  | swingTop head next =>
    dsimp only
    split
    · cases htop : s.takeValue head with
      | none => exact hsame rfl
      | some x => exact hsame (htake htop)
    · exact hsame rfl
  | readDoomed node last answer =>
    dsimp only
    split
    · exact hsame rfl
    · rename_i htop
      exact hsame (htake htop)
  | swingFree | pushFree | swingHead | pushOrphans | installSegment | loadOrphans | checkSegment
  | checkShutdown | checkTop =>
    dsimp only
    repeat' split
    all_goals exact hsame rfl
  | threadOrphans nodes todo =>
    rcases todo with _ | ⟨node, _ | ⟨next, rest⟩⟩
    · exact hsame rfl
    · exact hsame rfl
    · exact hsame (s.arena.fresh_update node _)
  | clearNext | clearTag | linkNode | linkLast | storeTag | linkFree | linkOrphans =>
    exact hsame (s.arena.fresh_update _ _)
  | _ => exact hsame rfl

end Worker

namespace Machine.Access

variable {α : Type} {m : Machine α} {before after : Crew α} {w : Worker α} {spurious : Bool}
  {own own' : List (Strand α)} {L M : Layout α} {live live' : Load α} {outs : Nat → Nat}
  (h : m.Access before after w own spurious L live outs own' M live')
include h

theorem store_eq : (m.step before.length spurious).store = (w.step m.store spurious).1 := by
  rw [h.fore.step_eq]

/-- The chains after the access are those of the layout. -/
theorem laid : (w.step m.store spurious).1.Laid (M.withStrands
    ((w.step m.store spurious).2.hand own' ++ Crew.aside before after)) :=
  h.store_eq ▸ h.next.front

/-- What was seen of a chain still holds. -/
theorem holds {x : Sight}
    (hx : x.Holds m.store (L.withStrands (Crew.strands (before ++ (w, own) :: after)))) :
    x.Holds (m.step before.length spurious).store
      (M.withStrands (Crew.strands (before ++ ((w.step m.store spurious).2, own') :: after))) := by
  have hback := Crew.strands_split before after (w.step m.store spurious).2 own'
  rw [h.store_eq]
  have hfront := hx.reorder (Crew.strands_split before after w own)
  exact (hfront.shift h.shift h.fore.ranked h.next.ranked h.laid).reorder hback.symm

/-- Slots only grow older. -/
theorem ages {c : Cell α}
    (hc : c ∈ (L.withStrands (Crew.strands (before ++ (w, own) :: after))).cells) :
    ∃ d ∈ (M.withStrands (Crew.strands (before ++ ((w.step m.store spurious).2, own') ::
      after))).cells, d.index = c.index ∧ c.age ≤ d.age := by
  obtain ⟨d, hd, hage⟩ := h.shift.ages c ((Crew.cells_split L before after w own).mem_iff.1 hc)
  exact ⟨d, (Crew.cells_split M before after _ own').mem_iff.2 hd, hage⟩

/-- What all threads have, with that of the one at work in front. -/
theorem workers_perm {β : Type} {f g : Worker α → List β}
    (hsame : ∀ x ∈ before ++ after, g x.1 = f x.1) :
    ∃ rest, (m.workers.flatMap f).Perm (f w ++ rest) ∧
      ((m.step before.length spurious).workers.flatMap g).Perm
        (g (w.step m.store spurious).2 ++ rest) := by
  have hbefore : before.flatMap (fun x => g x.1) = before.flatMap fun x => f x.1 :=
    List.flatMap_congr fun x hx => hsame x (List.mem_append_left _ hx)
  have hafter : after.flatMap (fun x => g x.1) = after.flatMap fun x => f x.1 :=
    List.flatMap_congr fun x hx => hsame x (List.mem_append_right _ hx)
  refine ⟨before.flatMap (fun x => f x.1) ++ after.flatMap fun x => f x.1, ?_, ?_⟩
  · rw [h.fore.workers, List.flatMap_map, List.flatMap_append, List.flatMap_cons]
    exact List.perm_append_comm_assoc _ _ _
  · rw [h.next.workers, List.flatMap_map, List.flatMap_append, List.flatMap_cons, hbefore, hafter]
    exact List.perm_append_comm_assoc _ _ _

theorem next_on {r : Root} {c : Cell α} (hc : c ∈ L.on r) :
    (w.step m.store spurious).1.arena.next c.link = m.store.arena.next c.link :=
  h.shift.next_eq c (Layout.mem_cells.2 (.inl ⟨r, by simpa using hc⟩))

theorem leads_on (r : Root) :
    (w.step m.store spurious).1.arena.Leads (m.store.root r) (L.on r) .nil := by
  have hlead := h.fore.laid.rooted r
  rw [Layout.on_withStrands] at hlead
  exact hlead.congr fun c hc => h.next_on hc

theorem ne_nil {r : Root} {c : Cell α} (hc : c ∈ L.on r) : c.link ≠ .nil :=
  h.fore.laid.ne_nil (Layout.mem_cells.2 (.inl ⟨r, by simpa using hc⟩))

theorem links_on {r : Root} {u : Strand α}
    (hlead : (w.step m.store spurious).1.arena.Leads ((w.step m.store spurious).1.root r) u .nil)
    (hnil : ∀ c ∈ u, c.link ≠ .nil) : (M.on r).map Cell.link = u.map Cell.link := by
  have hon := h.laid.links_on hlead hnil
  rwa [Layout.on_withStrands] at hon

/-- A chain stays as it is when its root does. -/
theorem links_still {r : Root}
    (hroot : (w.step m.store spurious).1.root r = m.store.root r) :
    (M.on r).map Cell.link = (L.on r).map Cell.link :=
  h.links_on (hroot ▸ h.leads_on r) fun _ hc => h.ne_nil hc

/-- The first strand in hand goes on top of a chain that it leads to. -/
theorem links_push {r : Root} {u : Strand α} {l : Link} (hu : u ∈ w.hand own)
    (harena : (w.step m.store spurious).1.arena = m.store.arena)
    (hlead : m.store.arena.Leads l u (m.store.root r))
    (hroot : (w.step m.store spurious).1.root r = l) :
    (M.on r).map Cell.link = (u ++ L.on r).map Cell.link := by
  refine h.links_on ?_ fun c hc => ?_
  · rw [hroot, harena]
    exact Arena.leads_append.2 ⟨_, hlead, harena ▸ h.leads_on r⟩
  · rcases List.mem_append.1 hc with hc | hc
    · exact h.fore.front.ne_nil (Layout.mem_cells.2 (.inr ⟨u, List.mem_append_left _ hu, hc⟩))
    · exact h.ne_nil hc

theorem free_perm : (M.free.map Cell.index ++ w.reused m.store spurious).Perm
    ((w.freed m.store spurious).map Link.index ++ L.free.map Cell.index) := by
  have hstill : (w.step m.store spurious).1.pool.free = m.store.pool.free →
      M.free.map Cell.index = L.free.map Cell.index := by
    intro hroot
    have hlinks := h.links_still (r := .free) hroot
    rw [Worker.map_index, Worker.map_index]
    exact congrArg (List.map Link.index) hlinks
  have hfits := h.fore.fits_front
  cases hphase : w.phase with
  | swingFree job value top next =>
    rw [Worker.reused, Worker.freed, hphase]
    dsimp only
    split
    · rename_i hthrough
      have hsees := hfits.sees
      rw [hphase] at hsees
      obtain ⟨c, rest, hon, hlink, hnext⟩ := (hsees _ rfl).top h.fore.front
        (eq_of_exchanges hthrough)
      have hon : L.on .free = c :: rest := hon
      have hlink : c.link = top := hlink
      have hroot : (w.step m.store spurious).1.root .free = m.store.arena.next c.link := by
        rw [Worker.step, hphase, hnext next rfl]
        dsimp only
        rw [if_pos hthrough]
        rfl
      have hlead := h.leads_on .free
      rw [hon] at hlead
      have hrest := h.links_on (r := .free) (u := rest)
        (by rw [hroot, ← h.next_on (r := .free) (hon ▸ List.mem_cons_self)]; exact hlead.2)
        fun d hd => h.ne_nil (hon ▸ List.mem_cons_of_mem c hd)
      have hfree : M.free.map Cell.index = rest.map Cell.index := by
        rw [Worker.map_index, Worker.map_index]
        exact congrArg (List.map Link.index) hrest
      rw [hfree, show L.free = c :: rest from hon, ← hlink]
      exact List.perm_append_singleton _ _
    · rename_i hfails
      rw [hstill (by rw [Worker.step, hphase]; dsimp only; rw [if_neg hfails]), List.append_nil]
      exact .refl _
  | pushFree node top after =>
    rw [Worker.reused, Worker.freed, hphase]
    dsimp only
    split
    · rename_i hthrough
      have howns := hfits.owns
      have haims := hfits.aims
      rw [hphase] at howns haims
      obtain ⟨rest, rfl, -⟩ := howns
      obtain ⟨u, hu, hlead⟩ := haims _ rfl
      cases hu
      have hstep : (w.step m.store spurious).1 =
          { m.store with pool := { m.store.pool with free := node } } := by
        rw [Worker.step, hphase]
        dsimp only
        rw [if_pos hthrough]
      rw [← eq_of_exchanges hthrough] at hlead
      have hpushed := h.links_push (r := .free) List.mem_cons_self (by rw [hstep]; rfl) hlead
        (by rw [hstep]; rfl)
      have hfree : M.free.map Cell.index = ([Cell.spent node] ++ L.free).map Cell.index := by
        rw [Worker.map_index, Worker.map_index]
        exact congrArg (List.map Link.index) hpushed
      rw [hfree, List.append_nil]
      exact .refl _
    · rename_i hfails
      rw [hstill (by rw [Worker.step, hphase]; dsimp only; rw [if_neg hfails]), List.append_nil]
      exact .refl _
  | _ =>
    have hturns : w.phase.turns ≠ some .free := by
      rw [hphase]
      intro hturns
      cases hturns
    rw [hstill (w.root_step m.store spurious hturns), Worker.reused, Worker.freed, hphase,
      List.append_nil]
    exact .refl _

/-- What a thread has in hand after an access that leaves the stack and the orphans alone. -/
theorem hand_perm (hstack : (w.step m.store spurious).1.head = m.store.head)
    (horphans : (w.step m.store spurious).1.orphans = m.store.orphans) :
    (((w.step m.store spurious).2.hand own').flatten.map Cell.index ++
        (w.freed m.store spurious).map Link.index).Perm
      ((w.hand own).flatten.map Cell.index ++ (w.handOut? m.store spurious).toList) := by
  have hindex : ∀ {r}, (w.step m.store spurious).1.root r = m.store.root r →
      (M.on r).map Cell.index = (L.on r).map Cell.index := by
    intro r hroot
    rw [Worker.map_index, Worker.map_index, h.links_still hroot]
  have hfore := h.fore.front.exactly
  have hnext := h.laid.exactly
  rw [w.range_fresh] at hnext
  rw [w.toList_handOut?]
  apply List.perm_iff_count.2
  intro i
  have hfree := h.free_perm.count_eq i
  have hfore := hfore.count_eq i
  have hnext := hnext.count_eq i
  simp only [Layout.cells, Layout.withStrands, List.map_append, List.flatten_append,
    List.count_append, show M.stack.map Cell.index = L.stack.map Cell.index from
      hindex (r := .stack) hstack, show M.orphans.map Cell.index = L.orphans.map Cell.index from
      hindex (r := .orphans) horphans] at *
  omega

end Machine.Access

end RecyclingStack
