import RecyclingStack.Proofs.Interleaving.History
import RecyclingStack.Proofs.Memory.Nodes

/-! What each thread of an interleaved run has in hand, and what it remembers. Nodes in hand are
its own: nobody else writes to them. What it remembers of a node on a chain may be out of date, but
then the node has aged, and never again hangs on that chain under the same link. -/
namespace RecyclingStack

def Stage.rank {β : Type} : Stage β → Nat
  | blank => 0
  | full _ => 1
  | spent => 2
  | taken => 3

def Root.rank : Root → Nat
  | stack => 1
  | free | orphans => 2

namespace Cell

variable {β : Type}

/-- A slot grows older with each stage of an incarnation, and with each incarnation. -/
def age (c : Cell β) : Nat := 4 * c.link.generation + c.stage.rank

/-- How often the slot has been handed out, if generations do not wrap around. -/
def uses (c : Cell β) : Nat :=
  c.link.generation + match c.stage with
    | .taken => 1
    | _ => 0

end Cell

def Strand.usesAt {β : Type} (u : Strand β) (i : Nat) : Nat :=
  (u.map fun c => if c.index = i then c.uses else 0).sum

section

variable {α : Type}

/-- The private chain `u` of a job, which will have got all values given once those coming are
there. Only the nodes of a batch are linked as they come. -/
structure Job.Builds (job : Job α) (given coming : List α) (u : Load α) : Prop where
  first : job.first = u.strand.first
  last : job.last = u.strand.last
  values : u.values.reverse ++ coming = given
  single : job.linking = true ∨ given.length ≤ 1

/-- The strands in hand besides that of a node to be given back. -/
def Release.Owns (node : Link) : Release α → List (Strand α) → Prop
  | .discard next last _, own => ∃ u : Load α, own = [u.strand] ∧
    (u = [] ∧ node = last ∨
      u ≠ [] ∧ node ≠ last ∧ next = u.strand.first ∧ last = u.strand.last)
  | .sweep rest _ _, own => own = Strand.loose rest

/-- The strands that a thread has in hand in a call that puts these values on the stack, besides
its deferred nodes. -/
def Phase.Owns (given : List α) : Phase α → List (Strand α) → Prop
  | .find _ after, own => after.Owns given own
  | .loadFree job value, own | .readFree job value _, own | .swingFree job value _ _, own
  | .loadFresh job value, own | .checkSegment job value _, own | .installSegment job value _, own
  | .claimFresh job value _, own =>
    ∃ u, job.Builds given (value :: job.rest) u ∧ own = [u.strand]
  | .loadGeneration job value index, own => ∃ u generation,
    job.Builds given (value :: job.rest) u ∧ own = [[⟨.node index generation, .taken⟩], u.strand]
  | .storeGeneration job value index generation, own => ∃ u old,
    job.Builds given (value :: job.rest) u ∧ generation = (old + 1) % halfWord ∧
      own = [[⟨.node index old, .taken⟩], u.strand]
  | .clearNext job value node, own | .clearTag job value node, own => ∃ u,
    job.Builds given (value :: job.rest) u ∧ own = [[⟨node, .blank⟩], u.strand]
  | .linkNode job node, own => ∃ u value,
    job.Builds given (value :: job.rest) u ∧ own = [[⟨node, .full value⟩], u.strand]
  | .loadHead first last, own | .checkShutdown first last _, own | .linkLast first last _, own
  | .swingHead first last _, own => ∃ u : Load α, u ≠ [] ∧ first = u.strand.first ∧
    last = u.strand.last ∧ u.values.reverse = given ∧ own = [u.strand]
  | .readDoomed node last _, own => ∃ u : Load α, u ≠ [] ∧ node = u.strand.first ∧
    last = u.strand.last ∧ own = [u.strand]
  | .loadRetireEpoch node _, own | .storeTag node _ _, own => own = [[Cell.spent node]]
  | .readOrphan node _, own => ∃ links, own = [Strand.idle (node :: links)]
  | .readTag node next _, own => ∃ links, next = (Strand.idle links : Strand α).first ∧
    own = [Strand.idle (node :: links)]
  | .loadFreeTop node after, own | .linkFree node _ after, own | .pushFree node _ after, own =>
    ∃ rest, own = [Cell.spent node] :: rest ∧ after.Owns node rest
  | .threadOrphans nodes todo, own => ∃ before node rest, nodes = before ++ node :: rest ∧
    todo = node :: rest ∧ own = Strand.idle (before ++ [node]) :: Strand.loose rest
  | .loadOrphanTop nodes, own | .linkOrphans nodes _, own | .pushOrphans nodes _, own =>
    nodes ≠ [] ∧ own = [Strand.idle nodes]
  | _, own => own = []

def Phase.aim? : Phase α → Option Link
  | .find _ after => after.aim?
  | .swingHead _ _ head => some head
  | .pushFree _ top _ => some top
  | .pushOrphans _ top => some top
  | .readOrphan _ _ => some .nil
  | .readTag _ _ _ => some .nil
  | _ => none

/-- A node seen on top of a chain, and the node that was read to come after it. -/
structure Sight where
  root : Root
  link : Link
  next? : Option Link

def Phase.sight? : Phase α → Option Sight
  | .find _ after => after.sight?
  | .readFree _ _ top => some ⟨.free, top, none⟩
  | .swingFree _ _ top next => some ⟨.free, top, some next⟩
  | .checkTop head => some ⟨.stack, head, none⟩
  | .readTop head => some ⟨.stack, head, none⟩
  | .swingTop head next => some ⟨.stack, head, some next⟩
  | _ => none

/-- The node seen is on its chain still, or has aged; and if it is there, what was read is true. -/
structure Sight.Holds (x : Sight) (s : Store α) (L : Layout α) : Prop where
  chain : x.root ≠ .orphans
  node : x.link ≠ .nil
  seen : (∃ c ∈ L.on x.root, c.link = x.link) ∨
    ∃ d ∈ L.cells, d.index = x.link.index ∧ 4 * x.link.generation + x.root.rank < d.age
  next : ∀ n ∈ x.next?, (∃ c ∈ L.on x.root, c.link = x.link) → s.arena.next x.link = n

/-- An index that a thread tries to claim, and whether its segment is known to be there. -/
def Phase.candidate? : Phase α → Option (Nat × Bool)
  | .find _ after => after.candidate?
  | .checkSegment _ _ index => some (index, false)
  | .installSegment _ _ index => some (index, false)
  | .claimFresh _ _ index => some (index, true)
  | _ => none

/-- An index that may be the next to be handed out. -/
def Arena.Offers (a : Arena α) (index : Nat) (backed : Bool) : Prop :=
  index ≤ a.fresh ∧ index < a.capacity ∧
    (backed = true → a.installed (locate index).segment = true)

/-- What a thread has in hand and what it remembers fit the store. -/
structure Worker.Fits (s : Store α) (L : Layout α) (w : Worker α) (own : List (Strand α)) :
    Prop where
  owns : w.phase.Owns w.given own
  aims : ∀ l ∈ w.phase.aim?, ∃ u ∈ own.head?, s.arena.Leads u.first u l
  sees : ∀ x ∈ w.phase.sight?, x.Holds s L
  offers : ∀ x ∈ w.phase.candidate?, s.arena.Offers x.1 x.2

def Worker.hand (w : Worker α) (own : List (Strand α)) : List (Strand α) :=
  own ++ Strand.loose w.context.deferred.links

structure Arena.Extends (a b : Arena α) : Prop where
  fresh_le : a.fresh ≤ b.fresh
  capacity_eq : b.capacity = a.capacity
  installed : ∀ segment, a.installed segment = true → b.installed segment = true

/-- What everybody else can rely on when one thread makes a step: `mine` is what it had in hand and
`mine'` what it has in hand then, and `out` is the slot that it got hold of. -/
structure Shift (s : Store α) (L : Layout α) (mine others : List (Strand α)) (t : Store α)
    (M : Layout α) (mine' : List (Strand α)) (out : Option Nat) : Prop where
  next_eq : ∀ c ∈ (L.withStrands others).cells, t.arena.next c.link = s.arena.next c.link
  leaves : ∀ r, r ≠ .orphans → ∀ c ∈ L.on r, c ∈ M.on r ∨
    ∃ d ∈ (M.withStrands (mine' ++ others)).cells, d.index = c.index ∧ c.age < d.age
  ages : ∀ c ∈ (L.withStrands (mine ++ others)).cells,
    ∃ d ∈ (M.withStrands (mine' ++ others)).cells, d.index = c.index ∧ c.age ≤ d.age
  uses : ∀ i, (M.withStrands (mine' ++ others)).cells.usesAt i =
    (L.withStrands (mine ++ others)).cells.usesAt i + out.toList.count i
  grows : s.arena.Extends t.arena

/-- Nodes on the stack have their values, those on the other chains do not. -/
def Layout.Ranked (L : Layout α) : Prop := ∀ r, ∀ c ∈ L.on r, c.stage.rank = r.rank

end

namespace Layout

variable {α : Type} {L : Layout α}

theorem ranked (hstack : ∃ live : Load α, L.stack = live.strand)
    (hidle : ∀ r, r ≠ .stack → ∀ c ∈ L.on r, c.stage = .spent) : L.Ranked := by
  intro r c hc
  cases r with
  | stack =>
    obtain ⟨live, hlive⟩ := hstack
    rw [Layout.on, hlive] at hc
    obtain ⟨n, -, rfl⟩ := List.mem_map.1 hc
    rfl
  | free => rw [hidle .free (by decide) c hc]; rfl
  | orphans => rw [hidle .orphans (by decide) c hc]; rfl

theorem Ranked.age_eq (h : L.Ranked) {r : Root} {c : Cell α} (hc : c ∈ L.on r) :
    c.age = 4 * c.link.generation + r.rank := by
  rw [Cell.age, h r c hc]

/-- The slot is older than the node was on the chain of the root under this link. -/
def Aged (L : Layout α) (r : Root) (l : Link) : Prop :=
  ∃ d ∈ L.cells, d.index = l.index ∧ 4 * l.generation + r.rank < d.age

theorem Aged.mono {M : Layout α} {r : Root} {l : Link} (h : L.Aged r l)
    (hages : ∀ c ∈ L.cells, ∃ d ∈ M.cells, d.index = c.index ∧ c.age ≤ d.age) : M.Aged r l := by
  obtain ⟨c, hc, hindex, hage⟩ := h
  obtain ⟨d, hd, hsame, hle⟩ := hages c hc
  exact ⟨d, hd, hsame.trans hindex, Nat.lt_of_lt_of_le hage hle⟩

/-- A node that has aged is not back under the same link. -/
theorem Aged.not_on {s : Store α} {r : Root} {l : Link} (h : L.Aged r l) (hlaid : s.Laid L)
    (hL : L.Ranked) : ¬ ∃ c ∈ L.on r, c.link = l := by
  rintro ⟨c, hc, rfl⟩
  obtain ⟨d, hd, hindex, hage⟩ := h
  have heq := hlaid.eq_of_index_eq (Layout.mem_cells.2 (.inl ⟨r, hc⟩)) hd hindex.symm
  rw [← heq, hL.age_eq hc] at hage
  exact Nat.lt_irrefl _ hage

theorem Ranked.withStrands (h : L.Ranked) (strands : List (Strand α)) :
    (L.withStrands strands).Ranked := by
  intro r c hc
  rw [on_withStrands] at hc
  exact h r c hc

end Layout

section

variable {α : Type} {s t : Store α} {L M : Layout α} {mine mine' others : List (Strand α)}
  {out : Option Nat}

theorem Sight.Holds.shift {x : Sight} (h : x.Holds s (L.withStrands (mine ++ others)))
    (hshift : Shift s L mine others t M mine' out) (hL : L.Ranked) (hM : M.Ranked)
    (hlaid : t.Laid (M.withStrands (mine' ++ others))) :
    x.Holds t (M.withStrands (mine' ++ others)) := by
  have hpast : (L.withStrands (mine ++ others)).Aged x.root x.link →
      (M.withStrands (mine' ++ others)).Aged x.root x.link := fun hold => hold.mono hshift.ages
  refine ⟨h.chain, h.node, ?_, ?_⟩
  · rcases h.seen with ⟨c, hc, hlink⟩ | hold
    · rw [Layout.on_withStrands] at hc ⊢
      rcases hshift.leaves x.root h.chain c hc with hstays | ⟨d, hd, hindex, hage⟩
      · exact .inl ⟨c, hstays, hlink⟩
      · rw [hL.age_eq hc, hlink] at hage
        exact .inr ⟨d, hd, hindex.trans (congrArg Link.index hlink), hage⟩
    · exact .inr (hpast hold)
  · rintro n hn ⟨d, hd, hlink⟩
    rcases h.seen with hon | hold
    · obtain ⟨c, hc, hcl⟩ := hon
      rw [← h.next n hn ⟨c, hc, hcl⟩, ← hcl]
      exact hshift.next_eq c (Layout.mem_cells.2 (.inl ⟨x.root, by simpa using hc⟩))
    · exact absurd ⟨d, hd, hlink⟩ ((hpast hold).not_on hlaid (hM.withStrands _))

theorem Worker.Fits.shift {w : Worker α} {own : List (Strand α)}
    (h : w.Fits s (L.withStrands (mine ++ others)) own)
    (hshift : Shift s L mine others t M mine' out) (hown : ∀ u ∈ own, u ∈ others)
    (hL : L.Ranked) (hM : M.Ranked) (hlaid : t.Laid (M.withStrands (mine' ++ others))) :
    w.Fits t (M.withStrands (mine' ++ others)) own where
  owns := h.owns
  aims := by
    intro l hl
    obtain ⟨u, hu, hlead⟩ := h.aims l hl
    refine ⟨u, hu, hlead.congr fun c hc => hshift.next_eq c ?_⟩
    exact Layout.mem_cells.2 (.inr ⟨u, hown u (List.mem_of_mem_head? hu), hc⟩)
  sees := fun x hx => (h.sees x hx).shift hshift hL hM hlaid
  offers := by
    intro x hx
    obtain ⟨hfresh, hcapacity, hinstalled⟩ := h.offers x hx
    refine ⟨Nat.le_trans hfresh hshift.grows.fresh_le, ?_, fun hb =>
      hshift.grows.installed _ (hinstalled hb)⟩
    rwa [hshift.grows.capacity_eq]

end

namespace Strand

variable {α : Type}

theorem usesAt_perm {u w : Strand α} (h : u.Perm w) (i : Nat) : u.usesAt i = w.usesAt i :=
  (h.map _).sum_nat

theorem usesAt_cons (c : Cell α) (u : Strand α) (i : Nat) :
    usesAt (c :: u) i = (if c.index = i then c.uses else 0) + u.usesAt i := by
  rw [usesAt, List.map_cons, List.sum_cons]
  rfl

theorem uses_le {u : Strand α} {c : Cell α} (hc : c ∈ u) : c.uses ≤ u.usesAt c.index := by
  induction u with
  | nil => cases hc
  | cons d u ih =>
    rw [usesAt_cons]
    rcases List.mem_cons.1 hc with rfl | hc
    · rw [if_pos rfl]
      exact Nat.le_add_right _ _
    · exact Nat.le_trans (ih hc) (Nat.le_add_left _ _)

end Strand

namespace Arena

variable {α : Type}

theorem Extends.refl (a : Arena α) : a.Extends a := ⟨Nat.le_refl _, rfl, fun _ h => h⟩

theorem extends_update (a : Arena α) (l : Link) (f : Slot α → Slot α) :
    a.Extends (a.update l f) := by
  cases l with
  | nil => exact .refl a
  | node i g =>
    refine ⟨Nat.le_refl _, rfl, fun segment h => ?_⟩
    rw [update_node, installed_modify]
    exact h

end Arena

namespace Layout

variable {α : Type}

theorem cells_append (L : Layout α) (mine others : List (Strand α)) :
    (L.withStrands (mine ++ others)).cells.Perm
      (mine.flatten ++ (L.withStrands others).cells) := by
  classical
  apply List.perm_iff_count.2
  intro c
  simp [cells, withStrands, List.count_append]
  omega

end Layout

namespace Shift

variable {α : Type} {s t : Store α} {L M : Layout α} {mine mine' others : List (Strand α)}
  {out : Option Nat} {c k : Cell α} {rest : Strand α}

/-- No slot in use is written to, and no node leaves the stack or the free list. -/
theorem still (hnext : ∀ c ∈ (L.withStrands others).cells,
      t.arena.next c.link = s.arena.next c.link)
    (hon : ∀ r, r ≠ .orphans → ∀ c ∈ L.on r, c ∈ M.on r)
    (hcells : (L.withStrands (mine ++ others)).cells.Perm
      (M.withStrands (mine' ++ others)).cells)
    (hgrows : s.arena.Extends t.arena) : Shift s L mine others t M mine' none where
  next_eq := hnext
  leaves := fun r hr c hc => .inl (hon r hr c hc)
  ages := fun c hc => ⟨c, hcells.mem_iff.1 hc, rfl, Nat.le_refl _⟩
  uses := fun i => (Strand.usesAt_perm hcells i).symm
  grows := hgrows

theorem restring {strands : List (Strand α)} (h : Shift s L mine others t M mine' out)
    (hstrands : strands.flatten.Perm mine'.flatten) : Shift s L mine others t M strands out := by
  have hcells : (M.withStrands (mine' ++ others)).cells.Perm
      (M.withStrands (strands ++ others)).cells :=
    (M.cells_append mine' others).trans
      ((hstrands.symm.append_right _).trans (M.cells_append strands others).symm)
  refine ⟨h.next_eq, fun r hr c hc => ?_, fun c hc => ?_, fun i => ?_, h.grows⟩
  · rcases h.leaves r hr c hc with hstays | ⟨d, hd, hage⟩
    · exact .inl hstays
    · exact .inr ⟨d, hcells.mem_iff.1 hd, hage⟩
  · obtain ⟨d, hd, hage⟩ := h.ages c hc
    exact ⟨d, hcells.mem_iff.1 hd, hage⟩
  · rw [← Strand.usesAt_perm hcells i]
    exact h.uses i

/-- One slot changes, or none; all others are where they were. -/
theorem of_cell (hnext : ∀ d ∈ (L.withStrands others).cells,
      t.arena.next d.link = s.arena.next d.link)
    (hon : ∀ r, r ≠ .orphans → ∀ d ∈ L.on r, d ∈ M.on r ∨ d = c ∧ c.age < k.age)
    (hc : (L.withStrands (mine ++ others)).cells.Perm (c :: rest))
    (hk : (M.withStrands (mine' ++ others)).cells.Perm (k :: rest)) (hindex : k.index = c.index)
    (hage : c.age ≤ k.age)
    (huses : ∀ i, (if c.index = i then k.uses else 0) =
      (if c.index = i then c.uses else 0) + out.toList.count i)
    (hgrows : s.arena.Extends t.arena) : Shift s L mine others t M mine' out where
  next_eq := hnext
  leaves := by
    intro r hr d hd
    rcases hon r hr d hd with hstays | ⟨rfl, hlt⟩
    · exact .inl hstays
    · exact .inr ⟨k, hk.mem_iff.2 List.mem_cons_self, hindex, hlt⟩
  ages := by
    intro d hd
    rcases List.mem_cons.1 (hc.mem_iff.1 hd) with rfl | hd
    · exact ⟨k, hk.mem_iff.2 List.mem_cons_self, hindex, hage⟩
    · exact ⟨d, hk.mem_iff.2 (List.mem_cons_of_mem _ hd), rfl, Nat.le_refl _⟩
  uses := by
    intro i
    rw [Strand.usesAt_perm hc, Strand.usesAt_perm hk, Strand.usesAt_cons, Strand.usesAt_cons,
      hindex, huses i]
    omega
  grows := hgrows

theorem write (h : s.Laid (L.withStrands (mine ++ others))) (f : Slot α → Slot α)
    (hmine : mine.flatten.Perm (c :: rest)) (hmine' : mine'.flatten.Perm (k :: rest))
    (hindex : k.index = c.index) (hage : c.age ≤ k.age) (huses : k.uses = c.uses) :
    Shift s L mine others (s.withArena (s.arena.update c.link f)) L mine' none := by
  have hcells := (L.cells_append mine others).trans (hmine.append_right _)
  refine of_cell (c := c) (k := k) (fun d hd => ?_) (fun r _ d hd => .inl hd) hcells
    ((L.cells_append mine' others).trans (hmine'.append_right _)) hindex hage (fun i => ?_)
    (s.arena.extends_update c.link f)
  · have hnodup := ((hcells.map Cell.index).nodup_iff).1 h.nodup
    have hne : c.link.index ≠ d.link.index := fun heq =>
      (List.nodup_cons.1 hnodup).1 (by
        rw [show c.index = d.index from heq]
        exact List.mem_map_of_mem (List.mem_append_right _ hd))
    exact congrArg Slot.next (s.arena.read_update_of_ne f hne)
  · rw [huses]
    rfl

theorem pop {r : Root} {u : Strand α} (hr : L.on r = c :: u) (hM : M = L.hang u r)
    (hmine' : mine'.flatten.Perm (k :: mine.flatten)) (hnext : ∀ l, t.arena.next l = s.arena.next l)
    (hindex : k.index = c.index) (hage : c.age < k.age)
    (huses : k.uses = c.uses + out.toList.count c.index) (hout : ∀ i ∈ out, i = c.index)
    (hgrows : s.arena.Extends t.arena) : Shift s L mine others t M mine' out := by
  subst hM
  have hbefore : (L.withStrands (mine ++ others)).cells.Perm
      (c :: (mine.flatten ++ ((L.hang u r).withStrands others).cells)) := by
    apply (L.cells_append mine others).trans
    refine .trans (.append_left _ ?_) List.perm_middle
    apply (Layout.cells_perm_on _ r).trans
    refine .trans ?_ (.cons c (Layout.cells_perm_on _ r).symm)
    rw [Layout.on_withStrands, Layout.on_withStrands, Layout.on_hang, if_pos rfl, hr]
    cases r <;> exact .refl _
  have hafter : ((L.hang u r).withStrands (mine' ++ others)).cells.Perm
      (k :: (mine.flatten ++ ((L.hang u r).withStrands others).cells)) :=
    ((L.hang u r).cells_append mine' others).trans (hmine'.append_right _)
  refine of_cell (c := c) (k := k) (fun d _ => hnext d.link) (fun q _ d hd => ?_) hbefore hafter
    hindex (Nat.le_of_lt hage) (fun i => ?_) hgrows
  · rw [Layout.on_hang]
    split
    · rename_i hrq
      rw [← hrq, hr] at hd
      rcases List.mem_cons.1 hd with rfl | hd
      · exact .inr ⟨rfl, hage⟩
      · exact .inl hd
    · exact .inl hd
  · split
    · rename_i hci
      rw [huses, hci]
    · rename_i hne
      rw [List.count_eq_zero.2 fun hmem => hne (hout i (by simpa using hmem)).symm]

theorem claim (hnext : ∀ l, t.arena.next l = s.arena.next l) {index : Nat}
    (hmine' : mine'.flatten.Perm (⟨.node index 0, .taken⟩ :: mine.flatten))
    (hgrows : s.arena.Extends t.arena) : Shift s L mine others t L mine' (some index) := by
  have hcells : (L.withStrands (mine' ++ others)).cells.Perm
      (⟨.node index 0, .taken⟩ :: (L.withStrands (mine ++ others)).cells) :=
    (L.cells_append mine' others).trans
      ((hmine'.append_right _).trans (.cons _ (L.cells_append mine others).symm))
  refine ⟨fun c _ => hnext c.link, fun r _ c hc => .inl hc, fun c hc => ?_, fun i => ?_, hgrows⟩
  · exact ⟨c, hcells.mem_iff.2 (List.mem_cons_of_mem _ hc), rfl, Nat.le_refl _⟩
  · rw [Strand.usesAt_perm hcells, Strand.usesAt_cons, Nat.add_comm]
    simp [Cell.index, Link.index, Cell.uses, Link.generation, List.count_cons]

end Shift

end RecyclingStack
