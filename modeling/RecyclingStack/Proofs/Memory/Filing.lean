import RecyclingStack.Proofs.Memory.Bags
import RecyclingStack.Retired.Request

/-! A list of retired nodes as those see it who make requests of it: the entries that were pushed
and not given out since, sorted by their epochs. The order of pushing decides among entries of one
epoch only. -/
namespace RecyclingStack

namespace Bag

variable {link : Link} {epoch : Nat} {bag : Bag} {bags older newer : List Bag}

/-- Adds a link at a position: to the bag there if that is of the epoch, else in a bag of its own
before it. -/
def place (link : Link) (epoch : Nat) (bags : List Bag) (position : Nat) : List Bag :=
  match bags[position]? with
  | some bag =>
    if bag.epoch = epoch then bags.set position { bag with links := bag.links ++ [link] }
    else bags.take position ++ ⟨epoch, [link]⟩ :: bags.drop position
  | none => bags.take position ++ ⟨epoch, [link]⟩ :: bags.drop position

/-- Adds a link with a look at the newest bag first. Only a link that is older than this one is
placed by a search for the first bag that is not older than the link. -/
def file (link : Link) (epoch : Nat) (bags : List Bag) : List Bag :=
  match bags.getLast? with
  | none => [⟨epoch, [link]⟩]
  | some newest =>
    if epoch < newest.epoch then place link epoch bags (bags.findIdx fun bag => epoch ≤ bag.epoch)
    else if newest.epoch = epoch then
      bags.dropLast ++ [{ newest with links := newest.links ++ [link] }]
    else bags ++ [⟨epoch, [link]⟩]

theorem insert_append (holder : ∀ bag ∈ older, bag.epoch < epoch) :
    insert link epoch (older ++ newer) = older ++ insert link epoch newer := by
  induction older with
  | nil => rfl
  | cons bag older ih =>
    obtain ⟨hbag, holder⟩ := List.forall_mem_cons.1 holder
    rw [List.cons_append, insert, if_pos hbag, ih holder]
    rfl

theorem place_append (link : Link) (epoch : Nat) (older : List Bag) (bag : Bag)
    (newer : List Bag) : place link epoch (older ++ bag :: newer) older.length =
      older ++ if bag.epoch = epoch then { bag with links := bag.links ++ [link] } :: newer
        else ⟨epoch, [link]⟩ :: bag :: newer := by
  rw [place, List.getElem?_append_right (Nat.le_refl _), Nat.sub_self, List.getElem?_cons_zero]
  dsimp only
  split
  · rw [List.set_append_right _ _ (Nat.le_refl _), Nat.sub_self, List.set_cons_zero]
  · rw [List.take_left, List.drop_left]

/-- Both ways of filing a link come to the same in a queue that is in order. -/
theorem insert_eq_file (h : bags.Pairwise fun x y => x.epoch < y.epoch) :
    insert link epoch bags = file link epoch bags := by
  -- the bags split where the search ends: older ones before, the first that is not older behind
  obtain ⟨older, newer, rfl, holder, hnewer⟩ : ∃ older newer, bags = older ++ newer ∧
      (∀ bag ∈ older, bag.epoch < epoch) ∧ ∀ bag ∈ newer.head?, epoch ≤ bag.epoch := by
    refine ⟨_, _, (List.takeWhile_append_dropWhile (p := fun bag => bag.epoch < epoch)).symm,
      fun bag hbag => ?_, fun bag hbag => ?_⟩
    · have hbefore := List.mem_takeWhile_imp (p := fun bag : Bag => decide (bag.epoch < epoch)) hbag
      exact of_decide_eq_true hbefore
    · have hnot := List.head?_dropWhile_not (fun bag : Bag => decide (bag.epoch < epoch)) bags
      rw [hbag] at hnot
      simpa using hnot
  rw [insert_append holder]
  cases newer with
  | nil =>
    rw [List.append_nil, file]
    cases hlast : older.getLast? with
    | none =>
      rw [List.getLast?_eq_none_iff.1 hlast]
      rfl
    | some newest =>
      have hnewest := holder newest (List.mem_of_getLast? hlast)
      dsimp only
      rw [if_neg (by omega), if_neg (by omega)]
      rfl
  | cons bag newer =>
    have hbag : epoch ≤ bag.epoch := hnewer bag rfl
    have hlater : ∀ later ∈ newer, bag.epoch < later.epoch :=
      (List.pairwise_cons.1 (List.pairwise_append.1 h).2.1).1
    have hsearch : (older ++ bag :: newer).findIdx (fun bag => decide (epoch ≤ bag.epoch)) =
        older.length := by
      rw [List.findIdx_append, List.findIdx_eq_length_of_false, if_neg (Nat.lt_irrefl _),
        List.findIdx_cons]
      · simp [hbag]
      · intro bag hbag
        have := holder bag hbag
        simp only [decide_eq_false_iff_not]
        omega
    have hinsert : insert link epoch (bag :: newer) = if bag.epoch = epoch then
        { bag with links := bag.links ++ [link] } :: newer
        else ⟨epoch, [link]⟩ :: bag :: newer := by
      rw [insert, if_neg (by omega)]
    rw [hinsert, file, hsearch, place_append]
    rcases newer.eq_nil_or_concat' with rfl | ⟨between, newest, rfl⟩
    · have hlast : (older ++ [bag]).getLast? = some bag := List.getLast?_concat
      rw [hlast]
      dsimp only
      split
      · rw [if_neg (by omega), List.dropLast_concat]
      · rw [if_pos (by omega)]
    · have hlast : (older ++ bag :: (between ++ [newest])).getLast? = some newest := by
        rw [← List.cons_append, ← List.append_assoc]
        exact List.getLast?_concat
      have hnewest : epoch < newest.epoch := Nat.lt_of_le_of_lt hbag (hlater newest (by simp))
      rw [hlast]
      dsimp only
      rw [if_pos hnewest]

end Bag

theorem byKey_nil {γ : Type} (key : γ → Nat) : byKey key [] = [] := List.mergeSort_nil

theorem byKey_filter {γ : Type} (key : γ → Nat) (p : γ → Bool) (xs : List γ) :
    (byKey key xs).filter p = byKey key (xs.filter p) := by
  refine eq_byKey ((sorted_byKey key xs).sublist List.filter_sublist) fun k => ?_
  rw [List.filter_comm, filter_byKey, List.filter_comm]

/-- The test may take the grace period off the epoch, if there is enough to take it off. -/
theorem reclaimable_eq_sub (retired current grace : Nat) :
    reclaimable retired current grace = (grace ≤ current && retired < current - grace) := by
  rw [reclaimable, ← Bool.decide_and]
  exact decide_eq_decide.2 (by omega)

/-- What one request leaves of the entries, which are in the order in which they were pushed. -/
def RetireRequest.leave : RetireRequest → List (Nat × Link) → List (Nat × Link)
  | .push link epoch, kept => kept ++ [(epoch, link)]
  | .collect current grace, kept => kept.filter fun x => !decide (x.1 + grace < current)
  | .takeAll, _ => []
  | .refused _, kept => kept

namespace RetireList

variable {r : RetireList} {kept : List (Nat × Link)}

def after (requests : List RetireRequest) : RetireList :=
  requests.foldl (fun r request => (r.serve request).1) empty

/-- The entries that some requests leave, in the order in which they were pushed. -/
def keptAfter (requests : List RetireRequest) : List (Nat × Link) :=
  requests.foldl (fun kept request => request.leave kept) []

/-- The list has just these entries, and goes by their epochs. -/
structure Keeps (r : RetireList) (kept : List (Nat × Link)) : Prop where
  /-- From front to back the epochs of the bags ascend. -/
  ascending : r.bags.Pairwise fun x y => x.epoch < y.epoch
  nonempty : ∀ bag ∈ r.bags, bag.links ≠ []
  /-- The bags one after the other are the entries, sorted by epoch; within an epoch the order of
  pushing is kept. -/
  entries : r.entries = byKey Prod.fst kept
  count : r.count = kept.length
  isEmpty : r.isEmpty = kept.isEmpty
  /-- A link is filed with a look at the newest bag first. -/
  files : ∀ link epoch, (r.push link epoch).bags = Bag.file link epoch r.bags
  /-- A sweep goes on from the front as long as the bag is older than what the epoch is without the
  grace period. -/
  sweeps : ∀ current grace, r.due current grace =
    r.bags.takeWhile fun bag => grace ≤ current && bag.epoch < current - grace
  /-- So it gives out those entries whose grace period is over, in the order of the list, and keeps
  the others. It counts what it gives out by bags. -/
  collects : ∀ current grace,
    (r.serve (.collect current grace)).2 = .released
        (((byKey Prod.fst kept).filter fun x => x.1 + grace < current).map Prod.snd) ∧
      (r.serve (.collect current grace)).1.entries =
        ((byKey Prod.fst kept).filter fun x => !decide (x.1 + grace < current)) ∧
      ((r.due current grace).map fun bag => bag.links.length).sum =
        (kept.filter fun x => x.1 + grace < current).length
  /-- The count never falls short of what is taken off it. -/
  covered : ∀ current grace, (r.released current grace).length ≤ r.count ∧
    (r.serve (.collect current grace)).1.count + (r.released current grace).length = r.count
  /-- All links come out in that order, and nothing stays. -/
  takes : r.serve .takeAll = (empty, .links ((byKey Prod.fst kept).map Prod.snd))

theorem InOrder.serve (h : r.InOrder) (request : RetireRequest) : (r.serve request).1.InOrder := by
  cases request with
  | push link epoch => exact h.push link epoch
  | collect current grace => exact h.retained current grace
  | takeAll => exact inOrder_empty
  | refused reason => exact h

theorem entries_serve (h : r.InOrder) (hkept : r.entries = byKey Prod.fst kept)
    (request : RetireRequest) :
    (r.serve request).1.entries = byKey Prod.fst (request.leave kept) := by
  cases request with
  | push link epoch =>
    refine (h.entries_push link epoch).trans ?_
    rw [hkept]
    exact byKey_append Prod.fst kept [(epoch, link)]
  | collect current grace =>
    refine (h.entries_retained current grace).trans ?_
    rw [hkept]
    exact byKey_filter Prod.fst _ kept
  | takeAll => exact (byKey_nil _).symm
  | refused reason => exact hkept

theorem after_induction {motive : RetireList → List (Nat × Link) → Prop} (hempty : motive empty [])
    (hserve : ∀ r kept request, motive r kept → motive (r.serve request).1 (request.leave kept))
    (requests : List RetireRequest) : motive (after requests) (keptAfter requests) := by
  suffices hall : ∀ r kept, motive r kept →
      motive (requests.foldl (fun r request => (r.serve request).1) r)
        (requests.foldl (fun kept request => request.leave kept) kept) from hall _ _ hempty
  induction requests with
  | nil => exact fun _ _ h => h
  | cons request requests ih => exact fun r kept h => ih _ _ (hserve r kept request h)

theorem InOrder.count_eq_length (h : r.InOrder) (hkept : r.entries = byKey Prod.fst kept) :
    r.count = kept.length := by
  rw [h.count_eq, links_eq, List.length_map, hkept]
  exact (perm_byKey _ _).length_eq

theorem InOrder.keeps (h : r.InOrder) (hkept : r.entries = byKey Prod.fst kept) : r.Keeps kept where
  ascending := h.ascending
  nonempty := h.nonempty
  entries := hkept
  count := h.count_eq_length hkept
  isEmpty := by
    have hcount := h.count_eq_length hkept
    cases kept <;> simp [isEmpty, hcount]
  files := fun link epoch => Bag.insert_eq_file h.ascending
  sweeps := fun current grace => congrArg r.bags.takeWhile (funext fun bag => reclaimable_eq_sub ..)
  collects := by
    intro current grace
    have hreleased := h.released_eq current grace
    rw [hkept] at hreleased
    refine ⟨congrArg RetireReply.released hreleased, ?_, ?_⟩
    · exact (h.entries_retained current grace).trans (by rw [hkept]; rfl)
    · rw [← List.length_flatMap]
      refine (congrArg List.length hreleased).trans ?_
      rw [List.length_map]
      exact ((perm_byKey _ _).filter _).length_eq
  covered := by
    intro current grace
    have hlength := congrArg List.length (r.released_append_retained current grace)
    rw [List.length_append, ← h.count_eq, ← (h.retained current grace).count_eq] at hlength
    refine ⟨by omega, ?_⟩
    rw [Nat.add_comm]
    exact hlength
  takes := by
    rw [RetireList.serve, links_eq, hkept]

/-- After any requests, pushes of later and earlier epochs in any order among them, the list has
the entries that were pushed and not given out since, in a stable sort by their epochs. -/
theorem keeps_after (requests : List RetireRequest) :
    (after requests).Keeps (keptAfter requests) := by
  obtain ⟨horder, hkept⟩ : (after requests).InOrder ∧
      (after requests).entries = byKey Prod.fst (keptAfter requests) := by
    refine after_induction (motive := fun r kept => r.InOrder ∧ r.entries = byKey Prod.fst kept)
      ⟨inOrder_empty, (byKey_nil _).symm⟩ (fun r kept request h => ?_) requests
    exact ⟨h.1.serve request, entries_serve h.1 h.2 request⟩
  exact horder.keeps hkept

example : (after [.push (.node 0 1) 5, .push (.node 1 1) 3, .push (.node 2 1) 5,
    .push (.node 3 1) 4, .collect 5 1]).bags =
      [⟨4, [.node 3 1]⟩, ⟨5, [.node 0 1, .node 2 1]⟩] := by
  decide

end RetireList

end RecyclingStack
