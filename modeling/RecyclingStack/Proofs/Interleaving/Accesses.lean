import RecyclingStack.Proofs.Interleaving.Phases

/-! One access of shared memory, phase by phase: nodes move between the hand of the thread and the
chains as the access says, others can rely on the rest, and the list of values on the stack changes
with a successful exchange of the head only. -/
namespace RecyclingStack

theorem eq_of_exchanges {β : Type} [DecidableEq β] {spurious : Bool} {cell expected : β}
    (h : exchanges spurious cell expected = true) : cell = expected :=
  of_decide_eq_true (Bool.and_eq_true_iff.1 h).2

/-- What is seen on top of a chain, when it is still there. -/
theorem Sight.Holds.top {α : Type} {s : Store α} {L : Layout α} {x : Sight}
    {strands : List (Strand α)}
    (hx : x.Holds s (L.withStrands strands)) (h : s.Laid (L.withStrands strands))
    (hroot : s.root x.root = x.link) :
    ∃ c rest, L.on x.root = c :: rest ∧ c.link = x.link ∧
      ∀ n ∈ x.next?, s.arena.next c.link = n := by
  have hfirst := h.root_eq x.root
  have hnext := hx.next
  rw [hroot, Layout.on_withStrands] at hfirst
  rw [Layout.on_withStrands] at hnext
  cases hon : L.on x.root with
  | nil =>
    rw [hon] at hfirst
    exact absurd hfirst hx.node
  | cons c rest =>
    rw [hon] at hfirst hnext
    have hlink : c.link = x.link := hfirst.symm
    refine ⟨c, rest, rfl, hlink, fun n hn => ?_⟩
    rw [hlink]
    exact hnext n hn ⟨c, List.mem_cons_self, hlink⟩

/-- How the values on the stack change with an exchange of the head, and what is taken off it. -/
inductive Swung {α : Type} : Load α → Load α → Option (Deed α) → List α → Prop where
  | still (live : Load α) : Swung live live none []
  | put {live live' : Load α} (values : List α)
      (h : live'.values = values.reverse ++ live.values) : Swung live live' (some (.put values)) []
  | take (n : Link × α) (live : Load α) : Swung (n :: live) live (some .take) [n.2]

/-- What a thread does to the store, and where it goes from there. -/
def Worker.Does {α : Type} (w : Worker α) (s : Store α) (L : Layout α)
    (own others : List (Strand α)) (live : Load α) (next : Store α × Worker α)
    (deed : Option (Deed α)) (out : Option Nat) (new : List α) : Prop :=
  ∃ M mine' live', M.stack = Load.strand live' ∧ Swung live live' deed new ∧
    Shift s L (w.hand own) others next.1 M mine' out ∧ next.2.Settles next.1 M mine' others

namespace Worker

variable {α : Type} {w v : Worker α} {s t : Store α} {L : Layout α}
  {own others mine : List (Strand α)} {live u : Load α}

theorem Settles.perm {mine' : List (Strand α)} (h : v.Settles s L mine others)
    (hperm : mine.flatten.Perm mine'.flatten) : v.Settles s L mine' others := by
  obtain ⟨own, hown, hlaid, hfits⟩ := h
  exact ⟨own, hown.trans hperm, hlaid, hfits⟩

theorem does_still (hstack : L.stack = live.strand) (harena : t.arena = s.arena)
    (hv : v.Settles t L (w.hand own) others) : w.Does s L own others live (t, v) none none [] :=
  ⟨L, w.hand own, live, hstack, .still live,
    .still (fun _ _ => by rw [harena]) (fun _ _ _ hc => hc) (.refl _) (harena ▸ .refl _), hv⟩

theorem does_write {c k : Cell α} {rest : Strand α} {f : Slot α → Slot α}
    (hstack : L.stack = live.strand) (h : s.Laid (L.withStrands (w.hand own ++ others)))
    (hown : (w.hand own).flatten.Perm (c :: rest)) (hmine : mine.flatten.Perm (k :: rest))
    (hindex : k.index = c.index) (hage : c.age ≤ k.age) (huses : k.uses = c.uses)
    (hv : v.Settles (s.withArena (s.arena.update c.link f)) L mine others) :
    w.Does s L own others live (s.withArena (s.arena.update c.link f), v) none none [] :=
  ⟨L, mine, live, hstack, .still live, .write h f hown hmine hindex hage huses, hv⟩

/-- The last node of the first strand in hand is made to lead to `l`. -/
theorem does_aim {x : Strand α} {c : Cell α} (hstack : L.stack = live.strand)
    (h : s.Laid (L.withStrands (w.hand ((x ++ [c]) :: own) ++ others))) (l : Link)
    (hv : (s.setNext c.link l).Laid (L.withStrands (w.hand ((x ++ [c]) :: own) ++ others)) →
      (s.setNext c.link l).arena.Leads (Strand.first (x ++ [c])) (x ++ [c]) l →
      v.Settles (s.setNext c.link l) L (w.hand ((x ++ [c]) :: own)) others) :
    w.Does s L ((x ++ [c]) :: own) others live (s.setNext c.link l, v) none none [] := by
  have haimed : (s.setNext c.link l).Laid (L.withStrands ((x ++ [c]) :: (w.hand own ++ others))) ∧
      (s.setNext c.link l).arena.Leads (Strand.first (x ++ [c])) (x ++ [c]) l := h.aim l
  have hcells : (w.hand ((x ++ [c]) :: own)).flatten.Perm (c :: (x ++ (w.hand own).flatten)) := by
    rw [hand, List.cons_append, List.flatten_cons, List.append_assoc]
    exact List.perm_middle
  exact does_write (k := c) (f := fun slot => { slot with next := l }) hstack h hcells hcells rfl
    (Nat.le_refl _) rfl (hv haimed.1 haimed.2)

/-- A private chain goes on top of the stack, or nodes without value on another chain. -/
theorem does_push {x : Strand α} {r : Root} {l : Link} {m : Load α} {deed : Option (Deed α)}
    (h : s.Laid (L.withStrands (w.hand (x :: own) ++ others)))
    (hlead : s.arena.Leads x.first x (s.root r)) (hl : x.first = l)
    (hidle : r ≠ .stack → ∀ c ∈ x, c.stage = .spent)
    (hstack : (L.hang (x ++ L.on r) r).stack = m.strand) (hswung : Swung live m deed [])
    (hv : (s.setRoot l r).Laid ((L.hang (x ++ L.on r) r).withStrands (w.hand own ++ others)) →
      v.Settles (s.setRoot l r) (L.hang (x ++ L.on r) r) (w.hand own) others) :
    w.Does s L (x :: own) others live (s.setRoot l r, v) deed none [] := by
  subst hl
  refine ⟨_, w.hand own, m, hstack, hswung, ?_, hv (h.push hlead hidle)⟩
  refine .still (fun _ _ => by rw [Store.arena_setRoot]) (fun q _ c hc => ?_) ?_ ?_
  · rw [Layout.on_hang]
    split
    · rename_i hrq
      exact List.mem_append_right _ (hrq ▸ hc)
    · exact hc
  · exact (L.cells_hang_append x (w.hand own ++ others) r).symm
  · rw [Store.arena_setRoot]
    exact .refl _

section

variable {job : Job α} {value : α} (hstack : L.stack = live.strand)
  (h : s.Laid (L.withStrands (w.hand own ++ others)))
include hstack h

theorem does_swingFree {top next : Link} (spurious : Bool)
    (howns : (Phase.swingFree job value top next).Owns w.given own)
    (hsees : (Sight.mk .free top (some next)).Holds s (L.withStrands (w.hand own ++ others))) :
    w.Does s L own others live
      (if exchanges spurious s.pool.free top then
        ({ s with pool := { s.pool with free := next } },
          w.seek top (.loadGeneration job value top.index))
      else (s, w.takeFree job value s.pool.free)) none
      (if exchanges spurious s.pool.free top then some top.index else none) [] := by
  obtain ⟨u, hjob, rfl⟩ := howns
  split
  · rename_i hthrough
    obtain ⟨c, rest, hon, hlink, hnext⟩ := hsees.top h (eq_of_exchanges hthrough)
    have hspent : c.stage = .spent := by
      apply h.idle .free (by decide) c
      rw [Layout.on_withStrands, hon]
      exact List.mem_cons_self
    have hpopped := (h.pop (r := .free) (hon : L.free = c :: rest)).restage
      (k := ⟨c.link, .taken⟩) rfl (by rw [hspent]; rfl)
    rw [hnext next rfl] at hpopped
    cases top with
    | nil => exact absurd rfl hsees.node
    | node i g =>
      refine ⟨L.hang rest .free, w.hand [[⟨c.link, .taken⟩], u.strand], live, hstack, .still live,
        .pop (k := ⟨c.link, .taken⟩) hon rfl (.refl _) (fun _ => rfl) rfl ?_ ?_ ?_ (.refl _),
        settles_plain (w := w) hpopped ⟨u, g, hjob, by rw [hlink]; rfl⟩ rfl rfl rfl⟩
      · rw [Cell.age, Cell.age, hspent]
        exact Nat.lt_succ_self _
      · rw [Cell.uses, Cell.uses, hspent, Cell.index, hlink]
        simp [Link.index]
      · intro j hj
        cases hj
        exact congrArg Link.index hlink.symm
  · exact does_still hstack rfl (settles_takeFree h hjob)

theorem does_checkSegment {index : Nat}
    (howns : (Phase.checkSegment job value index).Owns w.given own)
    (hoffers : s.arena.Offers index false) :
    w.Does s L own others live
      (if s.arena.installed (locate index).segment then (s, w.goto (.claimFresh job value index))
      else (s, w.goto (.installSegment job value index))) none none [] := by
  obtain ⟨u, hjob, rfl⟩ := howns
  split
  · rename_i hinst
    refine does_still hstack rfl (settles_goto h ⟨u, hjob, rfl⟩ (fun _ h => by cases h)
      (fun _ h => by cases h) fun x hx => ?_)
    cases hx
    exact ⟨hoffers.1, hoffers.2.1, fun _ => hinst⟩
  · refine does_still hstack rfl (settles_goto h ⟨u, hjob, rfl⟩ (fun _ h => by cases h)
      (fun _ h => by cases h) fun x hx => ?_)
    cases hx
    exact hoffers

/-- A segment that is missing is that of the next index never used. -/
theorem does_installSegment {index : Nat} (spurious : Bool)
    (howns : (Phase.installSegment job value index).Owns w.given own)
    (hoffers : s.arena.Offers index false) :
    w.Does s L own others live
      (if spurious then (s, w.rollBack job value ⟨s.arena.capacity⟩)
      else if s.arena.installed (locate index).segment then
        (s, w.goto (.claimFresh job value index))
      else (s.withArena (s.arena.install (locate index).segment),
        w.goto (.claimFresh job value index))) none none [] := by
  obtain ⟨u, hjob, rfl⟩ := howns
  obtain ⟨hle, hroom, -⟩ := hoffers
  split
  · exact does_still hstack rfl (settles_rollBack h hjob)
  split
  · rename_i hinst
    refine does_still hstack rfl (settles_goto h ⟨u, hjob, rfl⟩ (fun _ h => by cases h)
      (fun _ h => by cases h) fun x hx => ?_)
    cases hx
    exact ⟨hle, hroom, fun _ => hinst⟩
  · rename_i hmissing
    have hmissing := Bool.eq_false_iff.2 hmissing
    obtain rfl : index = s.arena.fresh := by
      apply (Nat.lt_or_eq_of_le hle).resolve_left
      intro hlt
      obtain ⟨c, hc, hindex⟩ := h.exists_cell hlt
      obtain ⟨slot, hslot, -⟩ := h.holds c hc
      rw [hindex, Arena.slot?, Arena.segment?_none hmissing] at hslot
      cases hslot
    have hinstalled := h.install hroom hmissing
    have hgrows : s.arena.Extends (s.arena.install (locate s.arena.fresh).segment) := by
      refine ⟨Nat.le_refl _, rfl, fun segment hsegment => ?_⟩
      rw [Arena.installed, Arena.segment?_install _ (h.sound.segment_lt hroom)]
      split
      · rfl
      · exact hsegment
    refine ⟨L, w.hand [u.strand], live, hstack, .still live,
      .still (fun c hc => Arena.next_congr ?_) (fun _ _ _ hc => hc) (.refl _) hgrows,
      settles_goto hinstalled ⟨u, hjob, rfl⟩ (fun _ h => by cases h) (fun _ h => by cases h)
        fun x hx => ?_⟩
    · exact h.slot?_install hroom hmissing
        ((L.cells_append _ others).mem_iff.2 (List.mem_append_right _ hc))
    · cases hx
      exact ⟨Nat.le_refl _, hroom, fun _ => h.sound.installed_install hroom⟩

theorem does_claimFresh {index : Nat} (spurious : Bool)
    (howns : (Phase.claimFresh job value index).Owns w.given own)
    (hoffers : s.arena.Offers index true) :
    w.Does s L own others live
      (if exchanges spurious s.arena.fresh index then
        (s.withArena { s.arena with fresh := index + 1 },
          w.goto (.find index (.loadGeneration job value index)))
      else (s, w.takeFresh s.arena.capacity job value s.arena.fresh)) none
      (if exchanges spurious s.arena.fresh index then some index else none) [] := by
  obtain ⟨u, hjob, rfl⟩ := howns
  split
  · rename_i hthrough
    obtain rfl := eq_of_exchanges hthrough
    obtain ⟨-, hroom, hinst⟩ := hoffers
    have hclaimed := h.claim hroom (hinst rfl)
    refine ⟨L, w.hand [[⟨.node s.arena.fresh 0, .taken⟩], u.strand], live, hstack, .still live, ?_,
      settles_plain hclaimed ⟨u, 0, hjob, rfl⟩ rfl rfl rfl⟩
    refine .claim (fun l => ?_) (.refl _) ⟨Nat.le_succ _, rfl, fun _ h => h⟩
    exact Arena.next_congr (a := s.arena) rfl
  · exact does_still hstack rfl (settles_takeFresh h hjob)

theorem does_loadGeneration {index : Nat}
    (howns : (Phase.loadGeneration job value index).Owns w.given own) :
    w.Does s L own others live (s, w.goto (.storeGeneration job value index
      ((s.arena.slot? index).getD {}).nextGeneration)) none none [] := by
  obtain ⟨u, g, hjob, rfl⟩ := howns
  obtain ⟨slot, hslot, hlink, -⟩ := h.holds ⟨.node index g, .taken⟩
    ((L.cells_cons _ _).mem_iff.2 (List.mem_append_left _ List.mem_cons_self))
  have hgeneration : g = slot.generation := (Link.node.inj hlink).2
  have hslot : s.arena.slot? index = some slot := hslot
  refine does_still hstack rfl (settles_plain h ⟨u, g, hjob, ?_, rfl⟩ rfl rfl rfl)
  rw [hslot, hgeneration]
  rfl

/-- The slot in hand is of its next generation, which is one that it never had before. -/
theorem does_storeGeneration {index generation : Nat}
    (howns : (Phase.storeGeneration job value index generation).Owns w.given own)
    (hbound : ∀ c ∈ (L.withStrands (w.hand own ++ others)).cells, c.uses < halfWord) :
    w.Does s L own others live
      (s.withArena (s.arena.modify index fun slot => { slot with generation }),
        w.goto (.clearNext job value (.node index generation))) none none [] := by
  obtain ⟨u, old, hjob, hgeneration, rfl⟩ := howns
  have hold : old + 1 < halfWord := hbound ⟨.node index old, .taken⟩
    ((L.cells_cons _ _).mem_iff.2 (List.mem_append_left _ List.mem_cons_self))
  rw [Nat.mod_eq_of_lt hold] at hgeneration
  subst hgeneration
  have hnew := h.modify (u := []) (c := ⟨.node index old, .taken⟩)
    (k := ⟨.node index (old + 1), .blank⟩) (f := fun slot => { slot with generation := old + 1 })
    rfl (.inl rfl) fun _ _ _ hvalue => ⟨rfl, hvalue⟩
  have hsettles : (w.goto (.clearNext job value (.node index (old + 1)))).Settles _ L
      (w.hand [[⟨.node index (old + 1), .blank⟩], u.strand]) others :=
    settles_plain hnew ⟨u, hjob, rfl⟩ rfl rfl rfl
  refine does_write (c := ⟨.node index old, .taken⟩) (k := ⟨.node index (old + 1), .blank⟩)
    hstack h (.refl _) (.refl _) rfl ?_ rfl hsettles
  simp only [Cell.age, Link.generation, Stage.rank]
  omega

theorem does_clearNext {node : Link}
    (howns : (Phase.clearNext job value node).Owns w.given own) :
    w.Does s L own others live (s.setNext node .nil, w.goto (.clearTag job value node)) none none
      [] := by
  obtain ⟨u, hjob, rfl⟩ := howns
  exact does_aim (x := []) (c := ⟨node, .blank⟩) hstack h .nil fun haimed _ =>
    settles_plain haimed ⟨u, hjob, rfl⟩ rfl rfl rfl

/-- The value is in its slot. A push has its chain, and a batch goes on to link the node. -/
theorem does_clearTag {node : Link}
    (howns : (Phase.clearTag job value node).Owns w.given own) :
    w.Does s L own others live
      (s.withArena (s.arena.update node fun slot =>
          { slot with retiredEpoch := 0, value := some value }),
        if job.linking then w.seek node (.linkNode job node)
        else w.build { job with
          first := node, last := if job.first.isNil then node else job.last }) none none [] := by
  obtain ⟨u, hjob, rfl⟩ := howns
  have hcell : ⟨node, .blank⟩ ∈
      (L.withStrands (w.hand [[⟨node, .blank⟩], u.strand] ++ others)).cells :=
    (L.cells_cons _ _).mem_iff.2 (List.mem_append_left _ List.mem_cons_self)
  have hfilled := h.modify (u := []) (c := ⟨node, .blank⟩) (k := ⟨node, .full value⟩)
    (f := fun slot => { slot with retiredEpoch := 0, value := some value }) rfl (.inl rfl)
    fun _ _ hlink _ => ⟨hlink, rfl⟩
  rw [← (h.holds _ hcell).update_eq] at hfilled
  have hmine : (w.hand [[⟨node, .full value⟩], u.strand]).flatten.Perm
      (⟨node, .full value⟩ :: (w.hand [u.strand]).flatten) := .refl _
  apply does_write (c := ⟨node, .blank⟩) hstack h (.refl _) hmine rfl (Nat.le_succ _) rfl
  split
  · exact settles_plain hfilled ⟨u, value, hjob, rfl⟩ rfl rfl rfl
  · rename_i hlinking
    have hvalues := hjob.values
    have hsingle := hjob.single.resolve_left hlinking
    rw [← hvalues, List.length_append, List.length_reverse, List.length_cons] at hsingle
    obtain rfl : u = [] := by
      apply List.length_eq_zero_iff.1
      rw [Load.values, List.length_map] at hsingle
      omega
    have hsettles := settles_build (w := w) (u := [(node, value)])
      (hfilled.reorder (.swap _ _ _)).dropNil (builds_cons hjob fun _ => rfl)
    exact hsettles.perm (.refl _)

theorem does_linkNode {node : Link} (howns : (Phase.linkNode job node).Owns w.given own) :
    w.Does s L own others live
      (s.setNext node job.first, w.build { job with
        first := node, last := if job.first.isNil then node else job.last }) none none [] := by
  obtain ⟨u, value, hjob, rfl⟩ := howns
  refine does_aim (x := []) (c := ⟨node, .full value⟩) hstack h job.first fun haimed hlead => ?_
  rw [hjob.first] at haimed hlead ⊢
  have hmerged := haimed.merge (u := [⟨node, .full value⟩]) hlead
  have hsettles := settles_build (w := w) (u := (node, value) :: u) hmerged
    (builds_cons hjob (eq_nil_of_first h (List.mem_cons_of_mem _ List.mem_cons_self)))
  rw [hjob.first] at hsettles
  exact hsettles.perm (.refl _)

theorem does_checkShutdown {first last head : Link}
    (howns : (Phase.checkShutdown first last head).Owns w.given own) :
    w.Does s L own others live
      (if s.shutdown then (s, w.seek first (.readDoomed first last .done))
      else (s, w.goto (.linkLast first last head))) none none [] := by
  obtain ⟨u, hu, hfirst, hlast, hgiven, rfl⟩ := howns
  split
  · exact does_still hstack rfl (settles_plain h ⟨u, hu, hfirst, hlast, rfl⟩ rfl rfl rfl)
  · exact does_still hstack rfl (settles_plain h ⟨u, hu, hfirst, hlast, hgiven, rfl⟩ rfl rfl rfl)

theorem does_linkLast {first last head : Link}
    (howns : (Phase.linkLast first last head).Owns w.given own) :
    w.Does s L own others live (s.setNext last head, w.goto (.swingHead first last head)) none none
      [] := by
  obtain ⟨u, hu, hfirst, rfl, hgiven, rfl⟩ := howns
  obtain ⟨init, c, hconcat⟩ := u.strand.eq_nil_or_concat'.resolve_left (Load.strand_ne_nil hu)
  have hlast : u.strand.last = c.link := by rw [hconcat, Strand.last_concat]
  rw [hlast, show [u.strand] = [init ++ [c]] by rw [hconcat]]
  rw [show [u.strand] = [init ++ [c]] by rw [hconcat]] at h
  apply does_aim hstack h head
  intro haimed hlead
  refine settles_goto haimed ⟨u, hu, hfirst, hlast.symm, hgiven, by rw [hconcat]⟩ (fun l hl => ?_)
    (fun _ h => by cases h) (fun _ h => by cases h)
  cases hl
  exact ⟨_, rfl, hlead⟩

/-- The values of the call go on the stack, all at once. -/
theorem does_swingHead {first last head : Link} (spurious : Bool)
    (howns : (Phase.swingHead first last head).Owns w.given own)
    (haims : ∃ x ∈ own.head?, s.arena.Leads x.first x head) :
    w.Does s L own others live
      (if exchanges spurious s.head head then
        ({ s with head := first }, w.complete s.settings .done)
      else (s, w.goto (.checkShutdown first last s.head)))
      (if exchanges spurious s.head head then some (.put w.given) else none) none [] := by
  obtain ⟨u, hu, rfl, hlast, hgiven, rfl⟩ := howns
  obtain ⟨x, hx, hlead⟩ := haims
  cases hx
  split
  · rename_i hthrough
    rw [← eq_of_exchanges hthrough] at hlead
    refine does_push (r := .stack) (m := u ++ live) h hlead rfl (fun hr => absurd rfl hr) ?_
      (.put _ ?_) fun hpushed => settles_complete hpushed _ _
    · rw [Load.strand_append, ← hstack]
      rfl
    · rw [← hgiven, List.reverse_reverse]
      exact List.map_append
  · exact does_still hstack rfl (settles_plain h ⟨u, hu, rfl, hlast, hgiven, rfl⟩ rfl rfl rfl)

theorem does_readDoomed {node last : Link} {answer : CallAnswer α}
    (howns : (Phase.readDoomed node last answer).Owns w.given own) :
    w.Does s L own others live
      (match s.takeValue node with
      | none => (s, w.seek node (.loadFreeTop node (.discard (s.arena.next node) last answer)))
      | some (value, t) => (t, (w.drop value).seek node
          (.loadFreeTop node (.discard (s.arena.next node) last answer)))) none none [] := by
  obtain ⟨u, hu, rfl, rfl, rfl⟩ := howns
  cases u with
  | nil => exact absurd rfl hu
  | cons n u =>
    obtain ⟨l, value⟩ := n
    obtain ⟨t, htake, rfl, htaken⟩ := h.takeValue (c := ⟨l, .full value⟩)
      (u := Load.strand u) rfl
    have htidy : s.Tidy L.stack (w.hand [Load.strand ((l, value) :: u)] ++ others) := ⟨L, rfl, h⟩
    rw [Load.strand_cons, Strand.first_cons, htake]
    have hmine : (w.hand [[Cell.spent l], Load.strand u]).flatten.Perm
        (Cell.spent l :: (w.hand [Load.strand u]).flatten) := .refl _
    apply does_write (c := ⟨l, .full value⟩) hstack h (.refl _) hmine rfl (Nat.le_succ _) rfl
    refine settles_plain (w := w.drop value) htaken ⟨_, rfl, u, rfl, ?_⟩ rfl rfl rfl
    by_cases hu : u = []
    · subst hu
      exact .inl ⟨rfl, rfl⟩
    · have hne := Load.strand_ne_nil hu
      rw [Strand.last_cons _ hne]
      refine .inr ⟨hu, ?_, htidy.next_eq hne, rfl⟩
      obtain ⟨d, hd, hdl⟩ := Strand.exists_last hne
      rw [← hdl]
      exact (htidy.link_ne hd).symm

theorem does_readTop {head : Link} (howns : (Phase.readTop head).Owns w.given own)
    (hsees : (Sight.mk .stack head none).Holds s (L.withStrands (w.hand own ++ others))) :
    w.Does s L own others live (s, w.goto (.swingTop head (s.arena.next head))) none none [] := by
  obtain rfl := howns
  refine does_still hstack rfl (settles_goto h rfl (fun _ h => by cases h) (fun x hx => ?_)
    (fun _ h => by cases h))
  cases hx
  exact ⟨hsees.chain, hsees.node, hsees.seen, fun n hn _ => by cases hn; rfl⟩

/-- The top of the stack is taken off with its value, the one that the list has on top. -/
theorem does_swingTop {head next : Link} (spurious : Bool)
    (howns : (Phase.swingTop head next).Owns w.given own)
    (hsees : (Sight.mk .stack head (some next)).Holds s (L.withStrands (w.hand own ++ others))) :
    w.Does s L own others live
      (if exchanges spurious s.head head then
        match s.takeValue head with
        | none => ({ s with head := next }, w.finish (.popped none))
        | some (value, t) => ({ t with head := next }, w.goto (.loadRetireEpoch head value))
      else (s, w.takeTop s.head))
      (if exchanges spurious s.head head then some .take else none) none
      (if exchanges spurious s.head head then (s.takeValue head).toList.map Prod.fst else []) := by
  obtain rfl := howns
  split
  · rename_i hthrough
    obtain ⟨c, rest, hon, hlink, hnext⟩ := hsees.top h (eq_of_exchanges hthrough)
    have hon : L.stack = c :: rest := hon
    cases live with
    | nil => cases hstack.symm.trans hon
    | cons n live =>
      obtain ⟨rfl, rfl⟩ := List.cons.inj (hon.symm.trans hstack)
      obtain ⟨hhead, htake, htaken⟩ := h.takeTop hon rfl
      have hlink : n.1 = head := hlink
      rw [hhead, hnext next rfl] at htaken
      rw [hhead] at htake
      subst hlink
      rw [htake]
      refine ⟨L.hang (Load.strand live) .stack, w.hand [[Cell.spent n.1]], live, rfl, .take n live,
        .pop (k := Cell.spent n.1) hon rfl (.refl _) (s.arena.next_update n.1 fun _ => rfl) rfl
          (Nat.lt_succ_self _) rfl (fun _ h => by cases h) (s.arena.extends_update _ _),
        settles_plain (w := w) htaken rfl rfl rfl rfl⟩
  · exact does_still hstack rfl (settles_takeTop h)

theorem does_storeTag {node : Link} {value : α} {epoch : Nat}
    (howns : (Phase.storeTag node value epoch).Owns w.given own) :
    w.Does s L own others live
      (s.withArena (s.arena.setRetiredEpoch node epoch),
        { w with context := w.context.defer node epoch }.complete s.settings
          (.popped (some value))) none none [] := by
  obtain rfl := howns
  have hcell : Cell.spent node ∈ (L.withStrands (w.hand [[Cell.spent node]] ++ others)).cells :=
    (L.cells_cons _ _).mem_iff.2 (List.mem_append_left _ List.mem_cons_self)
  have htagged := h.modify (u := []) (c := Cell.spent node) (k := Cell.spent node)
    (f := fun slot => { slot with retiredEpoch := epoch }) rfl (.inl rfl)
    fun _ _ hlink hvalue => ⟨hlink, hvalue⟩
  rw [← (h.holds _ hcell).update_eq] at htagged
  have hpush := Strand.loose_push (β := α) w.context.deferred node epoch
  have hsettles := settles_complete (w := { w with context := w.context.defer node epoch })
    (htagged.reorder (hpush.symm.append_right others)) s.settings (.popped (some value))
  exact does_write (c := Cell.spent node) (k := Cell.spent node) hstack h (.refl _) (.refl _) rfl
    (Nat.le_refl _) rfl (hsettles.perm hpush.flatten)

theorem does_takeOrphans {after : SweepEnd α}
    (howns : (Phase.takeOrphans after).Owns w.given own) :
    w.Does s L own others live ({ s with orphans := .nil }, w.adoptFrom after s.orphans) none none
      [] := by
  obtain rfl := howns
  have hidle : L.orphans = Strand.idle (L.orphans.map Cell.link) :=
    Strand.eq_idle fun c hc => h.idle .orphans (by decide) c hc
  have hlead : s.arena.Leads s.orphans (Strand.idle (L.orphans.map Cell.link)) .nil := by
    rw [← hidle]
    exact h.rooted .orphans
  have hroot : s.orphans = (Strand.idle (L.orphans.map Cell.link) : Strand α).first := by
    rw [← hidle]
    exact h.root_eq .orphans
  have htaken := h.take .orphans
  rw [Layout.on_withStrands, show L.on .orphans = L.orphans from rfl, hidle] at htaken
  have hsettles : (w.adoptFrom after s.orphans).Settles { s with orphans := .nil }
      (L.hang [] .orphans) (w.hand [Strand.idle (L.orphans.map Cell.link)]) others := by
    rw [hroot]
    exact settles_adoptFrom htaken (hroot ▸ hlead) after
  refine ⟨L.hang [] .orphans, w.hand [Strand.idle (L.orphans.map Cell.link)], live, hstack,
    .still live, .still (fun _ _ => rfl) (fun r hr c hc => ?_) ?_ (.refl _), hsettles⟩
  · rw [Layout.on_hang, if_neg (Ne.symm hr)]
    exact hc
  · rw [← hidle]
    classical
    apply List.perm_iff_count.2
    intro c
    simp [Layout.cells, Layout.withStrands, Layout.hang, hand, List.count_append]

theorem does_readOrphan {node : Link} {after : SweepEnd α}
    (howns : (Phase.readOrphan node after).Owns w.given own)
    (haims : ∃ x ∈ own.head?, s.arena.Leads x.first x .nil) :
    w.Does s L own others live (s, w.goto (.readTag node (s.arena.next node) after)) none none
      [] := by
  obtain ⟨links, rfl⟩ := howns
  obtain ⟨x, hx, hlead⟩ := haims
  cases hx
  have hnext : s.arena.next node = (Strand.idle links : Strand α).first := by
    have hrest := hlead.2
    cases links with
    | nil => exact hrest
    | cons l links => exact hrest.1
  refine does_still hstack rfl (settles_goto h ⟨links, hnext, rfl⟩ (fun l hl => ?_)
    (fun _ h => by cases h) (fun _ h => by cases h))
  cases hl
  exact ⟨_, rfl, hlead⟩

theorem does_readTag {node next : Link} {after : SweepEnd α} (epoch : Nat)
    (howns : (Phase.readTag node next after).Owns w.given own)
    (haims : ∃ x ∈ own.head?, s.arena.Leads x.first x .nil) :
    w.Does s L own others live
      (s, { w with context := w.context.defer node epoch }.adoptFrom after next) none none [] := by
  obtain ⟨links, rfl, rfl⟩ := howns
  obtain ⟨x, hx, hlead⟩ := haims
  cases hx
  have hrest : s.arena.Leads (Strand.idle links : Strand α).first (Strand.idle links) .nil := by
    have hrest := hlead.2
    cases links with
    | nil => rfl
    | cons l links => exact ⟨rfl, hrest.2⟩
  have hpush := Strand.loose_push (β := α) w.context.deferred node epoch
  have hsplit := h.split (u := [Cell.spent node]) (w := Strand.idle links)
  have hmine :
      ([Cell.spent node] :: Strand.idle links :: Strand.loose w.context.deferred.links).Perm
      ({ w with context := w.context.defer node epoch }.hand [Strand.idle links]) :=
    (List.Perm.swap _ _ _).trans (.cons _ hpush.symm)
  have hsettles := settles_adoptFrom (w := { w with context := w.context.defer node epoch })
    (hsplit.reorder (hmine.append_right others)) hrest after
  exact does_still hstack rfl (hsettles.perm hmine.symm.flatten)

theorem does_loadEpoch {after : SweepEnd α} (current grace : Nat)
    (howns : (Phase.loadEpoch after).Owns w.given own) :
    w.Does s L own others live
      (s, { w with context := { w.context with
              snapshot := current
              deferred := w.context.deferred.retained current grace } }.sweepOn
            (w.context.deferred.released current grace).length after
            (w.context.deferred.released current grace)) none none [] := by
  obtain rfl := howns
  have hhand : w.hand [] = { w with context := { w.context with
      snapshot := current
      deferred := w.context.deferred.retained current grace } }.hand
        (Strand.loose (w.context.deferred.released current grace)) := by
    rw [hand, hand, List.nil_append, ← Strand.loose_append,
      w.context.deferred.released_append_retained current grace]
  have hsettles := settles_sweepOn (hhand ▸ h) (w.context.deferred.released current grace).length
    after
  rw [← hhand] at hsettles
  exact does_still hstack rfl hsettles

theorem does_linkFree {node top : Link} {after : Release α}
    (howns : (Phase.linkFree node top after).Owns w.given own) :
    w.Does s L own others live (s.setNext node top, w.goto (.pushFree node top after)) none none
      [] := by
  obtain ⟨rest, rfl, hafter⟩ := howns
  apply does_aim (x := []) (c := Cell.spent node) hstack h top
  intro haimed hlead
  refine settles_goto haimed ⟨rest, rfl, hafter⟩ (fun l hl => ?_) (fun _ h => by cases h)
    (fun _ h => by cases h)
  cases hl
  exact ⟨_, rfl, hlead⟩

theorem does_pushFree {node top : Link} {after : Release α} (spurious : Bool)
    (howns : (Phase.pushFree node top after).Owns w.given own)
    (haims : ∃ x ∈ own.head?, s.arena.Leads x.first x top) :
    w.Does s L own others live
      (if exchanges spurious s.pool.free top then
        ({ s with pool := { s.pool with free := node } }, w.afterRelease node after)
      else (s, w.goto (.linkFree node s.pool.free after))) none none [] := by
  obtain ⟨rest, rfl, hafter⟩ := howns
  obtain ⟨x, hx, hlead⟩ := haims
  cases hx
  split
  · rename_i hthrough
    rw [← eq_of_exchanges hthrough] at hlead
    refine does_push (r := .free) (m := live) h hlead rfl (fun _ c hc => ?_) hstack (.still live)
      fun hpushed => settles_afterRelease hpushed hafter
    rw [List.mem_singleton.1 hc]
    rfl
  · exact does_still hstack rfl (settles_plain h ⟨rest, rfl, hafter⟩ rfl rfl rfl)

theorem does_threadOrphans {nodes rest : List Link} {node next : Link}
    (howns : (Phase.threadOrphans nodes (node :: next :: rest)).Owns w.given own) :
    w.Does s L own others live
      (s.setNext node next, w.seek next
        (if rest.isEmpty then .loadOrphanTop nodes else .threadOrphans nodes (next :: rest))) none
      none [] := by
  obtain ⟨before, _, _, rfl, heq, rfl⟩ := howns
  obtain ⟨rfl, rfl⟩ := List.cons.inj heq
  have hidle : Strand.idle (before ++ [node]) = Strand.idle before ++ [Cell.spent (β := α) node] :=
    List.map_append
  rw [hidle] at h ⊢
  apply does_aim hstack h next
  intro haimed hlead
  have hmerged := haimed.merge (w := [Cell.spent next]) hlead
  have hlonger : Strand.idle before ++ [Cell.spent node] ++ [Cell.spent next] =
      (Strand.idle (before ++ [node] ++ [next]) : Strand α) := by simp [Strand.idle]
  rw [hlonger] at hmerged
  have hsettles : (w.seek next (if rest.isEmpty then .loadOrphanTop (before ++ node :: next :: rest)
      else .threadOrphans (before ++ node :: next :: rest) (next :: rest))).Settles
        (s.setNext node next) L
        (w.hand (Strand.idle (before ++ [node] ++ [next]) :: Strand.loose rest)) others := by
    cases rest with
    | nil =>
      exact settles_plain hmerged ⟨by simp, by simp [Strand.loose]⟩ rfl rfl rfl
    | cons l rest =>
      exact settles_plain hmerged ⟨before ++ [node], next, l :: rest, by simp, rfl, rfl⟩ rfl rfl rfl
  apply hsettles.perm
  rw [← hlonger]
  simp [hand, Strand.loose, Strand.idle, List.append_assoc]

theorem does_linkOrphans {nodes : List Link} {top : Link}
    (howns : (Phase.linkOrphans nodes top).Owns w.given own) :
    w.Does s L own others live
      (s.setNext (nodes.getLastD .nil) top, w.goto (.pushOrphans nodes top)) none none [] := by
  obtain ⟨hne, rfl⟩ := howns
  obtain ⟨init, l, rfl⟩ := nodes.eq_nil_or_concat'.resolve_left hne
  have hidle : Strand.idle (init ++ [l]) = Strand.idle init ++ [Cell.spent (β := α) l] :=
    List.map_append
  rw [List.getLastD_concat, hidle]
  rw [hidle] at h
  apply does_aim hstack h top
  intro haimed hlead
  refine settles_goto haimed ⟨hne, by rw [hidle]⟩ (fun l hl => ?_) (fun _ h => by cases h)
    (fun _ h => by cases h)
  cases hl
  exact ⟨_, rfl, hlead⟩

theorem does_pushOrphans {nodes : List Link} {top : Link} (spurious : Bool)
    (howns : (Phase.pushOrphans nodes top).Owns w.given own)
    (haims : ∃ x ∈ own.head?, s.arena.Leads x.first x top) :
    w.Does s L own others live
      (if exchanges spurious s.orphans top then
        ({ s with orphans := nodes.headD .nil }, w.finish .done)
      else (s, w.goto (.linkOrphans nodes s.orphans))) none none [] := by
  obtain ⟨hne, rfl⟩ := howns
  obtain ⟨x, hx, hlead⟩ := haims
  cases hx
  split
  · rename_i hthrough
    rw [← eq_of_exchanges hthrough] at hlead
    have hfirst : (Strand.idle nodes : Strand α).first = nodes.headD .nil := by
      cases nodes <;> rfl
    exact does_push (r := .orphans) (m := live) h hlead hfirst
      (fun _ c hc => Strand.spent_of_mem_idle hc) hstack (.still live)
      fun hpushed => settles_finish hpushed _
  · exact does_still hstack rfl (settles_plain h ⟨hne, rfl⟩ rfl rfl rfl)

end

theorem Fits.does (hw : w.Fits s (L.withStrands (w.hand own ++ others)) own)
    (hstack : L.stack = live.strand) (h : s.Laid (L.withStrands (w.hand own ++ others)))
    (hbound : ∀ c ∈ (L.withStrands (w.hand own ++ others)).cells, c.uses < halfWord)
    (spurious : Bool) :
    w.Does s L own others live (w.step s spurious) (w.deed? s spurious) (w.handOut? s spurious)
      (w.takes s spurious) := by
  obtain ⟨howns, haims, hsees, hoffers⟩ := hw
  rw [step, deed?, handOut?, takes]
  cases hphase : w.phase <;> rw [hphase] at howns haims hsees hoffers
  case ready =>
    obtain rfl : own = [] := howns
    exact does_still hstack rfl (settles_start h hphase)
  case find index after =>
    exact does_still hstack rfl (settles_goto h howns haims hsees hoffers)
  case loadFree job value =>
    obtain ⟨u, hjob, rfl⟩ := howns
    exact does_still hstack rfl (settles_takeFree h hjob)
  case readFree job value top =>
    obtain ⟨u, hjob, rfl⟩ := howns
    have hsees := hsees _ rfl
    refine does_still hstack rfl (settles_goto h ⟨u, hjob, rfl⟩ (fun _ h => by cases h)
      (fun x hx => ?_) (fun _ h => by cases h))
    cases hx
    exact ⟨hsees.chain, hsees.node, hsees.seen, fun n hn _ => by cases hn; rfl⟩
  case swingFree job value top next => exact does_swingFree hstack h spurious howns (hsees _ rfl)
  case loadFresh job value =>
    obtain ⟨u, hjob, rfl⟩ := howns
    exact does_still hstack rfl (settles_takeFresh h hjob)
  case checkSegment job value index => exact does_checkSegment hstack h howns (hoffers _ rfl)
  case installSegment job value index =>
    exact does_installSegment hstack h spurious howns (hoffers _ rfl)
  case claimFresh job value index => exact does_claimFresh hstack h spurious howns (hoffers _ rfl)
  case loadGeneration job value index => exact does_loadGeneration hstack h howns
  case storeGeneration job value index generation =>
    exact does_storeGeneration hstack h howns hbound
  case clearNext job value node => exact does_clearNext hstack h howns
  case clearTag job value node => exact does_clearTag hstack h howns
  case linkNode job node => exact does_linkNode hstack h howns
  case loadHead first last => exact does_still hstack rfl (settles_plain h howns rfl rfl rfl)
  case checkShutdown first last head => exact does_checkShutdown hstack h howns
  case linkLast first last head => exact does_linkLast hstack h howns
  case swingHead first last head => exact does_swingHead hstack h spurious howns (haims _ rfl)
  case readDoomed node last answer => exact does_readDoomed hstack h howns
  case loadTop =>
    obtain rfl : own = [] := howns
    exact does_still hstack rfl (settles_takeTop h)
  case checkTop head =>
    obtain rfl : own = [] := howns
    dsimp only
    split
    · exact does_still hstack rfl (settles_finish h _)
    · exact does_still hstack rfl (settles_goto h rfl (fun _ h => by cases h) hsees
        (fun _ h => by cases h))
  case readTop head => exact does_readTop hstack h howns (hsees _ rfl)
  case swingTop head next => exact does_swingTop hstack h spurious howns (hsees _ rfl)
  case loadRetireEpoch node value =>
    exact does_still hstack rfl (settles_plain
      (w := { w with context := { w.context with snapshot := s.epoch } }) h howns rfl rfl rfl)
  case storeTag node value epoch => exact does_storeTag hstack h howns
  case bumpEpoch after =>
    have hbumped := h.of_eq (s := s) (t := { s with epoch := nextWord s.epoch }) rfl fun r => by
      cases r <;> rfl
    exact does_still hstack rfl (settles_plain hbumped howns rfl rfl rfl)
  case loadOrphans after =>
    obtain rfl : own = [] := howns
    dsimp only
    split <;> exact does_still hstack rfl (settles_plain h rfl rfl rfl rfl)
  case takeOrphans after => exact does_takeOrphans hstack h howns
  case readOrphan node after => exact does_readOrphan hstack h howns (haims _ rfl)
  case readTag node next after => exact does_readTag hstack h _ howns (haims _ rfl)
  case loadEpoch after => exact does_loadEpoch hstack h _ _ howns
  case loadFreeTop node after => exact does_still hstack rfl (settles_plain h howns rfl rfl rfl)
  case linkFree node top after => exact does_linkFree hstack h howns
  case pushFree node top after => exact does_pushFree hstack h spurious howns (haims _ rfl)
  case threadOrphans nodes todo =>
    obtain ⟨before, node, rest, rfl, rfl, rfl⟩ := howns
    cases rest with
    | nil =>
      exact does_still hstack rfl (settles_plain h ⟨by simp, rfl⟩ rfl rfl rfl)
    | cons next rest =>
      exact does_threadOrphans hstack h ⟨before, node, next :: rest, rfl, rfl, rfl⟩
  case loadOrphanTop nodes => exact does_still hstack rfl (settles_plain h howns rfl rfl rfl)
  case linkOrphans nodes top => exact does_linkOrphans hstack h howns
  case pushOrphans nodes top => exact does_pushOrphans hstack h spurious howns (haims _ rfl)
  case raiseShutdown =>
    obtain rfl : own = [] := howns
    have hdown := h.of_eq (s := s) (t := { s with shutdown := true }) rfl fun r => by
      cases r <;> rfl
    exact does_still hstack rfl (settles_finish hdown _)

end Worker

end RecyclingStack
