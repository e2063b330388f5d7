import RecyclingStack.Proofs.Interleaving.Hands
import RecyclingStack.Proofs.Memory.Turns

/-! The local work after an access. Whatever a thread goes on with, it has in hand what the next
phase needs. -/
namespace RecyclingStack

/-- A thread that has these strands in hand, in some order, fits the store. -/
def Worker.Settles {α : Type} (w : Worker α) (s : Store α) (L : Layout α)
    (mine others : List (Strand α)) : Prop :=
  ∃ own, (w.hand own).flatten.Perm mine.flatten ∧
    s.Laid (L.withStrands (w.hand own ++ others)) ∧
    w.Fits s (L.withStrands (w.hand own ++ others)) own

namespace Worker

variable {α : Type} {w v : Worker α} {s : Store α} {L : Layout α} {others own : List (Strand α)}
  {u : Load α}

theorem settles_goto {phase : Phase α} (h : s.Laid (L.withStrands (w.hand own ++ others)))
    (howns : phase.Owns w.given own)
    (haims : ∀ l ∈ phase.aim?, ∃ u ∈ own.head?, s.arena.Leads u.first u l)
    (hsees : ∀ x ∈ phase.sight?, x.Holds s (L.withStrands (w.hand own ++ others)))
    (hoffers : ∀ x ∈ phase.candidate?, s.arena.Offers x.1 x.2) :
    (w.goto phase).Settles s L (w.hand own) others :=
  ⟨own, .refl _, h, howns, haims, hsees, hoffers⟩

theorem settles_plain {phase : Phase α} (h : s.Laid (L.withStrands (w.hand own ++ others)))
    (howns : phase.Owns w.given own) (haim : phase.aim? = none) (hsight : phase.sight? = none)
    (hcandidate : phase.candidate? = none) :
    (w.goto phase).Settles s L (w.hand own) others :=
  settles_goto h howns (fun _ h => by rw [haim] at h; cases h)
    (fun _ h => by rw [hsight] at h; cases h) (fun _ h => by rw [hcandidate] at h; cases h)

theorem fits_ready (hready : w.phase = .ready) : w.Fits s L [] := by
  constructor <;> rw [hready]
  · rfl
  · exact fun _ h => by cases h
  · exact fun _ h => by cases h
  · exact fun _ h => by cases h

theorem settles_ready (h : s.Laid (L.withStrands (w.hand [] ++ others)))
    (hready : w.phase = .ready) :
    w.Settles s L (w.hand []) others :=
  ⟨[], .refl _, h, fits_ready hready⟩

theorem settles_finish (h : s.Laid (L.withStrands (w.hand [] ++ others))) (answer : CallAnswer α) :
    (w.finish answer).Settles s L (w.hand []) others := by
  unfold finish
  split
  · exact settles_plain h rfl rfl rfl rfl
  · exact settles_ready h rfl

theorem settles_complete (h : s.Laid (L.withStrands (w.hand [] ++ others))) (settings : Settings)
    (answer : CallAnswer α) : (w.complete settings answer).Settles s L (w.hand []) others := by
  rw [complete]
  split
  · exact settles_plain (w := { w with context := w.context.count }) h rfl rfl rfl rfl
  · exact settles_finish (w := { w with context := w.context.count }) h answer

theorem settles_of_nil (h : s.Laid (L.withStrands (w.hand [[]] ++ others)))
    (hfinish : s.Laid (L.withStrands (w.hand [] ++ others)) → v.Settles s L (w.hand []) others) :
    v.Settles s L (w.hand [[]]) others := by
  obtain ⟨own, hperm, hlaid, hfits⟩ := hfinish (Store.Laid.dropNil h)
  exact ⟨own, hperm, hlaid, hfits⟩

theorem eq_nil_of_first {strands : List (Strand α)} (h : s.Laid (L.withStrands strands))
    (hu : u.strand ∈ strands) (hfirst : u.strand.first = .nil) : u = [] := by
  cases u with
  | nil => rfl
  | cons n u =>
    exact absurd hfirst (h.ne_nil (c := ⟨n.1, .full n.2⟩)
      (Layout.mem_cells.2 (.inr ⟨_, hu, List.mem_cons_self⟩)))

/-- The chain of a job grows by a node in front. -/
theorem builds_cons {job : Job α} {given : List α} {value : α} {node : Link}
    (hjob : job.Builds given (value :: job.rest) u) (hu : u.strand.first = .nil → u = []) :
    ({ job with first := node, last := if job.first.isNil then node else job.last } :
      Job α).Builds given job.rest ((node, value) :: u) where
  first := rfl
  last := by
    dsimp only
    rw [hjob.first, hjob.last]
    cases hfirst : u.strand.first with
    | nil =>
      rw [hu hfirst]
      rfl
    | node i g =>
      refine (Strand.last_cons _ (Load.strand_ne_nil fun hnil => ?_)).symm
      rw [hnil] at hfirst
      cases hfirst
  values := by
    have hvalues := hjob.values
    simpa [Load.values] using hvalues
  single := hjob.single

theorem settles_build {job : Job α} (h : s.Laid (L.withStrands (w.hand [u.strand] ++ others)))
    (hjob : job.Builds w.given job.rest u) :
    (w.build job).Settles s L (w.hand [u.strand]) others := by
  have hfirst := hjob.first
  rcases job with ⟨first, last, rest, linking⟩
  cases rest with
  | cons value rest =>
    exact settles_plain h ⟨u, ⟨hjob.first, hjob.last, hjob.values, hjob.single⟩, rfl⟩ rfl rfl rfl
  | nil =>
    cases first with
    | nil =>
      obtain rfl := eq_nil_of_first h List.mem_cons_self hfirst.symm
      exact settles_of_nil h fun h => settles_finish h .done
    | node i g =>
      refine settles_plain h ⟨u, fun hu => ?_, hjob.first, hjob.last, ?_, rfl⟩ rfl rfl rfl
      · subst hu
        cases hfirst
      · exact (List.append_nil _).symm.trans hjob.values

theorem settles_rollBack {job : Job α} {given coming : List α} {value : α} {failure : Exhausted}
    (h : s.Laid (L.withStrands (w.hand [u.strand] ++ others)))
    (hjob : job.Builds given coming u) :
    (w.rollBack job value failure).Settles s L (w.hand [u.strand]) others := by
  have hfirst := hjob.first
  rcases job with ⟨first, last, rest, linking⟩
  rw [rollBack, foldl_drop]
  cases first with
  | nil =>
    obtain rfl := eq_nil_of_first h List.mem_cons_self hfirst.symm
    exact settles_of_nil h fun h =>
      settles_finish (w := { w with dropped := rest.reverse ++ value :: w.dropped }) h _
  | node i g =>
    refine settles_plain (w := { w with dropped := rest.reverse ++ value :: w.dropped }) h
      ⟨u, fun hu => ?_, hjob.first, hjob.last, rfl⟩ rfl rfl rfl
    subst hu
    cases hfirst

theorem holds_top {strands : List (Strand α)} (h : s.Laid (L.withStrands strands)) {r : Root}
    (hr : r ≠ .orphans) {l : Link} (hl : l ≠ .nil) (hroot : s.root r = l) :
    (Sight.mk r l none).Holds s (L.withStrands strands) where
  chain := hr
  node := hl
  seen := by
    have hfirst := h.root_eq r
    rw [hroot] at hfirst
    refine .inl ?_
    cases hon : (L.withStrands strands).on r with
    | nil =>
      rw [hon] at hfirst
      exact absurd hfirst hl
    | cons c u =>
      rw [hon] at hfirst
      exact ⟨c, List.mem_cons_self, hfirst.symm⟩
  next := fun _ hn => by cases hn

theorem settles_takeFree {job : Job α} {value : α}
    (h : s.Laid (L.withStrands (w.hand [u.strand] ++ others)))
    (hjob : job.Builds w.given (value :: job.rest) u) :
    (w.takeFree job value s.pool.free).Settles s L (w.hand [u.strand]) others := by
  cases hfree : s.pool.free with
  | nil => exact settles_plain h ⟨u, hjob, rfl⟩ rfl rfl rfl
  | node i g =>
    refine settles_goto h ⟨u, hjob, rfl⟩ (fun _ h => by cases h) (fun x hx => ?_)
      (fun _ h => by cases h)
    cases hx
    exact holds_top h (by decide) Link.noConfusion hfree

theorem settles_takeFresh {job : Job α} {value : α}
    (h : s.Laid (L.withStrands (w.hand [u.strand] ++ others)))
    (hjob : job.Builds w.given (value :: job.rest) u) :
    (w.takeFresh s.arena.capacity job value s.arena.fresh).Settles s L (w.hand [u.strand])
      others := by
  unfold takeFresh
  split
  · exact settles_rollBack h hjob
  · rename_i hroom
    refine settles_goto h ⟨u, hjob, rfl⟩ (fun _ h => by cases h) (fun _ h => by cases h)
      (fun x hx => ?_)
    cases hx
    exact ⟨Nat.le_refl _, Nat.lt_of_not_le hroom, fun h => by cases h⟩

theorem settles_takeTop (h : s.Laid (L.withStrands (w.hand [] ++ others))) :
    (w.takeTop s.head).Settles s L (w.hand []) others := by
  cases hhead : s.head with
  | nil => exact settles_finish h _
  | node i g =>
    refine settles_goto h rfl (fun _ h => by cases h) (fun x hx => ?_) (fun _ h => by cases h)
    cases hx
    exact holds_top h (by decide) Link.noConfusion hhead

theorem settles_adoptFrom {links : List Link}
    (h : s.Laid (L.withStrands (w.hand [Strand.idle links] ++ others)))
    (hlead : s.arena.Leads (Strand.idle links : Strand α).first (Strand.idle links) .nil)
    (after : SweepEnd α) :
    (w.adoptFrom after (Strand.idle links : Strand α).first).Settles s L
      (w.hand [Strand.idle links]) others := by
  cases links with
  | nil => exact settles_of_nil h fun h => settles_plain h rfl rfl rfl rfl
  | cons l links =>
    have hne : l ≠ .nil := h.ne_nil (c := Cell.spent l)
      ((L.cells_cons _ _).mem_iff.2 (List.mem_append_left _ List.mem_cons_self))
    cases l with
    | nil => exact absurd rfl hne
    | node i g =>
      refine settles_goto h ⟨links, rfl⟩ (fun l hl => ?_) (fun _ h => by cases h)
        (fun _ h => by cases h)
      cases hl
      exact ⟨_, rfl, hlead⟩

theorem settles_afterSweep (h : s.Laid (L.withStrands (w.hand [] ++ others))) (total : Nat)
    (after : SweepEnd α) : (w.afterSweep total after).Settles s L (w.hand []) others := by
  cases after with
  | recycled => exact settles_finish h _
  | complete answer => exact settles_finish h _
  | leave =>
    have hall : w.hand [] = Strand.loose w.context.deferred.links := rfl
    simp only [afterSweep]
    split
    · rename_i hlinks
      rw [hall, hlinks] at h ⊢
      exact settles_finish (w := { w with context := { w.context with deferred := .empty } }) h _
    · rename_i node hlinks
      rw [hall, hlinks] at h ⊢
      have hown : ({ w with context := { w.context with deferred := .empty } } : Worker α).hand
          [Strand.idle [node]] = Strand.loose [node] := rfl
      rw [← hown] at h ⊢
      exact settles_plain h ⟨List.cons_ne_nil _ _, rfl⟩ rfl rfl rfl
    · rename_i node nodes _ hlinks
      rw [hall, hlinks] at h ⊢
      have hown : ({ w with context := { w.context with deferred := .empty } } : Worker α).hand
          (Strand.loose (node :: nodes)) = Strand.loose (node :: nodes) := List.append_nil _
      rw [← hown] at h ⊢
      exact settles_plain h ⟨[], node, nodes, rfl, rfl, rfl⟩ rfl rfl rfl

theorem settles_sweepOn {nodes : List Link}
    (h : s.Laid (L.withStrands (w.hand (Strand.loose nodes) ++ others))) (total : Nat)
    (after : SweepEnd α) :
    (w.sweepOn total after nodes).Settles s L (w.hand (Strand.loose nodes)) others := by
  cases nodes with
  | nil => exact settles_afterSweep h total after
  | cons node rest => exact settles_plain h ⟨Strand.loose rest, rfl, rfl⟩ rfl rfl rfl

theorem settles_afterRelease {node : Link} {after : Release α}
    (h : s.Laid (L.withStrands (w.hand own ++ others))) (howns : after.Owns node own) :
    (w.afterRelease node after).Settles s L (w.hand own) others := by
  cases after with
  | discard next last answer =>
    obtain ⟨u, rfl, ⟨rfl, rfl⟩ | ⟨hu, hne, hnext, hlast⟩⟩ := howns
    · rw [afterRelease, if_pos rfl]
      exact settles_of_nil h fun h => settles_finish h _
    · rw [afterRelease, if_neg hne]
      exact settles_plain h ⟨u, hu, hnext, hlast, rfl⟩ rfl rfl rfl
  | sweep rest total after =>
    obtain rfl : own = Strand.loose rest := howns
    exact settles_sweepOn h total after

theorem settles_start (h : s.Laid (L.withStrands (w.hand [] ++ others)))
    (hready : w.phase = .ready) :
    w.start.Settles s L (w.hand []) others := by
  have hstill : ∀ phase : Phase α, phase.Owns w.given [] → phase.aim? = none →
      phase.sight? = none → phase.candidate? = none →
      (w.goto phase).Settles s L (w.hand []) others := fun _ howns => settles_plain h howns
  have hbuild : ∀ job : Job α, job.first = .nil → job.last = .nil → job.rest = w.given →
      (job.linking = true ∨ w.given.length ≤ 1) →
      (w.build job).Settles s L (w.hand []) others := by
    intro job hfirst hlast hrest hsingle
    obtain ⟨own, hperm, hlaid, hfits⟩ := settles_build (u := []) h.addNil
      ⟨hfirst, hlast, hrest, hsingle⟩
    exact ⟨own, hperm, hlaid, hfits⟩
  cases hprogram : w.program with
  | nil =>
    rw [start, hprogram]
    exact settles_ready h hready
  | cons call rest =>
    have hgiven : w.given = call.values := by rw [given, hprogram]
    rw [start, hprogram]
    cases call with
    | push value => exact hbuild _ rfl rfl hgiven.symm (.inr (by rw [hgiven]; exact Nat.le_refl 1))
    | pushBatch values => exact hbuild _ rfl rfl hgiven.symm (.inl rfl)
    | _ => exact hstill _ rfl rfl rfl rfl

end Worker

end RecyclingStack
