import Mathlib.Data.List.Sort
import RecyclingStack.Proofs.Memory.Drift

/-! A list of retired nodes as one sequence of entries: each link with the epoch it is filed under,
oldest first. Filing a link sorts it in behind all that are as old, so that the sequence is what a
stable sort by epoch makes of the order of filing; and a sweep, which looks at the bags in front
only, finds every entry that is due. -/
namespace RecyclingStack

section

variable {γ δ : Type} {key : γ → Nat} {xs ys : List γ}

/-- Sorted by a key. Of two with the same key the one that stood first comes first. -/
def byKey (key : γ → Nat) (xs : List γ) : List γ := xs.mergeSort fun x y => key x ≤ key y

theorem perm_byKey (key : γ → Nat) (xs : List γ) : (byKey key xs).Perm xs :=
  List.mergeSort_perm _ _

theorem sorted_byKey (key : γ → Nat) (xs : List γ) :
    (byKey key xs).Pairwise fun x y => key x ≤ key y := by
  have hsorted : (byKey key xs).Pairwise fun x y => decide (key x ≤ key y) = true :=
    List.pairwise_mergeSort
      (fun x y z hxy hyz => by simp only [decide_eq_true_eq] at *; omega)
      (fun x y => by simp only [Bool.or_eq_true, decide_eq_true_eq]; omega) xs
  exact hsorted.imp of_decide_eq_true

/-- Those with the same key keep their order. -/
theorem filter_byKey (key : γ → Nat) (xs : List γ) (k : Nat) :
    (byKey key xs).filter (key · = k) = xs.filter (key · = k) := by
  have hsame : (xs.filter (key · = k)).Pairwise fun x y => decide (key x ≤ key y) = true := by
    refine List.pairwise_of_forall_mem_list fun x hx y hy => ?_
    simp only [List.mem_filter, decide_eq_true_eq] at hx hy ⊢
    omega
  have hsub : (xs.filter (key · = k)).Sublist (byKey key xs) :=
    List.sublist_mergeSort (fun x y z hxy hyz => by simp only [decide_eq_true_eq] at *; omega)
      (fun x y => by simp only [Bool.or_eq_true, decide_eq_true_eq]; omega) hsame
      List.filter_sublist
  have hfiltered := hsub.filter (key · = k)
  rw [List.filter_filter] at hfiltered
  simp only [Bool.and_self] at hfiltered
  exact (hfiltered.eq_of_length ((perm_byKey key xs).filter _).length_eq.symm).symm

/-- A sorted list is told by those of each key. -/
theorem eq_of_filter_eq (hxs : xs.Pairwise fun x y => key x ≤ key y)
    (hys : ys.Pairwise fun x y => key x ≤ key y)
    (hsame : ∀ k, xs.filter (key · = k) = ys.filter (key · = k)) : xs = ys := by
  induction xs generalizing ys with
  | nil =>
    cases ys with
    | nil => rfl
    | cons y ys => simpa using hsame (key y)
  | cons x xs ih =>
    cases ys with
    | nil => simpa using hsame (key x)
    | cons y ys =>
      obtain ⟨hx, hxs⟩ := List.pairwise_cons.1 hxs
      obtain ⟨hy, hrest⟩ := List.pairwise_cons.1 hys
      have hmem : ∀ z, z ∈ x :: xs ↔ z ∈ y :: ys := by
        intro z
        have hz := congrArg (z ∈ ·) (hsame (key z))
        simpa only [List.mem_filter, decide_true, and_true, eq_iff_iff] using hz
      have hkey : key x = key y := by
        apply Nat.le_antisymm
        · rcases List.mem_cons.1 ((hmem y).2 List.mem_cons_self) with rfl | hmem
          · exact Nat.le_refl _
          · exact hx y hmem
        · rcases List.mem_cons.1 ((hmem x).1 List.mem_cons_self) with rfl | hmem
          · exact Nat.le_refl _
          · exact hy x hmem
      have hhead := hsame (key x)
      simp only [List.filter_cons, hkey, decide_true, if_true] at hhead
      obtain ⟨rfl, -⟩ := List.cons.inj hhead
      refine congrArg (x :: ·) (ih hxs hrest fun k => ?_)
      have hk := hsame k
      simp only [List.filter_cons] at hk
      split at hk
      · exact (List.cons.inj hk).2
      · exact hk

theorem eq_byKey (hsorted : ys.Pairwise fun x y => key x ≤ key y)
    (hsame : ∀ k, ys.filter (key · = k) = xs.filter (key · = k)) : ys = byKey key xs :=
  eq_of_filter_eq hsorted (sorted_byKey key xs) fun k =>
    (hsame k).trans (filter_byKey key xs k).symm

theorem byKey_append (key : γ → Nat) (xs ys : List γ) :
    byKey key (byKey key xs ++ ys) = byKey key (xs ++ ys) := by
  apply eq_byKey (sorted_byKey _ _)
  intro k
  rw [filter_byKey, List.filter_append, filter_byKey, List.filter_append]

theorem byKey_of_sorted (hsorted : xs.Pairwise fun x y => key x ≤ key y) : byKey key xs = xs :=
  (eq_byKey hsorted fun _ => rfl).symm

theorem map_byKey (key : δ → Nat) (f : γ → δ) (xs : List γ) :
    (byKey (fun x => key (f x)) xs).map f = byKey key (xs.map f) :=
  List.map_mergeSort fun _ _ _ _ => rfl

/-- What a test lets pass comes first, if with anything it lets all before it pass. -/
theorem takeWhile_eq_filter {R : γ → γ → Prop} {p : γ → Bool} (hxs : xs.Pairwise R)
    (hp : ∀ x y, R x y → p y = true → p x = true) :
    xs.takeWhile p = xs.filter p ∧ xs.dropWhile p = xs.filter fun x => !p x := by
  induction xs with
  | nil => exact ⟨rfl, rfl⟩
  | cons x xs ih =>
    obtain ⟨hx, hxs⟩ := List.pairwise_cons.1 hxs
    obtain ⟨htake, hdrop⟩ := ih hxs
    cases hpx : p x with
    | true => simp [hpx, htake, hdrop]
    | false =>
      have hnone : ∀ y ∈ xs, p y = false := fun y hy =>
        Bool.eq_false_iff.2 fun hpy => by cases hpx.symm.trans (hp x y (hx y hy) hpy)
      simp only [List.takeWhile_cons, List.dropWhile_cons, List.filter_cons, hpx, Bool.not_false,
        if_true, Bool.false_eq_true, if_false]
      refine ⟨(List.filter_eq_nil_iff.2 fun y hy => by simp [hnone y hy]).symm, ?_⟩
      exact congrArg (x :: ·) (List.filter_eq_self.2 fun y hy => by simp [hnone y hy]).symm

end

def Bag.entries (bag : Bag) : List (Nat × Link) := bag.links.map (bag.epoch, ·)

namespace RetireList

variable {r : RetireList} {l : Link} {epoch : Nat}

/-- All links with the epochs under which they are filed, oldest first. -/
def entries (r : RetireList) : List (Nat × Link) := r.bags.flatMap Bag.entries

theorem links_eq (r : RetireList) : r.links = r.entries.map Prod.snd := by
  rw [entries, links, List.map_flatMap]
  exact congrArg (r.bags.flatMap ·) (funext fun bag => by simp [Bag.entries, Function.comp_def])

theorem mem_entries {r : RetireList} {E : Nat} : (E, l) ∈ r.entries ↔ r.Files E l := by
  simp only [entries, Bag.entries, Files, List.mem_flatMap, List.mem_map, Prod.mk.injEq]
  constructor
  · rintro ⟨bag, hbag, m, hm, hE, rfl⟩
    exact ⟨bag, hbag, hE, hm⟩
  · rintro ⟨bag, hbag, hE, hl⟩
    exact ⟨bag, hbag, l, hl, hE, rfl⟩

/-- The epochs of the bags ascend, no bag is empty, and the count is that of the links. -/
structure InOrder (r : RetireList) : Prop where
  ascending : r.bags.Pairwise fun x y => x.epoch < y.epoch
  nonempty : ∀ bag ∈ r.bags, bag.links ≠ []
  count_eq : r.count = r.links.length

theorem inOrder_empty : empty.InOrder := ⟨.nil, nofun, rfl⟩

theorem epoch_of_mem_insert {bags : List Bag} {bag : Bag} (h : bag ∈ Bag.insert l epoch bags) :
    bag.epoch = epoch ∨ ∃ old ∈ bags, old.epoch = bag.epoch := by
  induction bags with
  | nil =>
    rw [List.mem_singleton.1 h]
    exact .inl rfl
  | cons first bags ih =>
    simp only [Bag.insert] at h
    split at h
    · rcases List.mem_cons.1 h with rfl | h
      · exact .inr ⟨_, List.mem_cons_self, rfl⟩
      · rcases ih h with heq | ⟨old, hold, heq⟩
        · exact .inl heq
        · exact .inr ⟨old, List.mem_cons_of_mem _ hold, heq⟩
    split at h
    · rcases List.mem_cons.1 h with rfl | h
      · exact .inr ⟨first, List.mem_cons_self, rfl⟩
      · exact .inr ⟨bag, List.mem_cons_of_mem _ h, rfl⟩
    · rcases List.mem_cons.1 h with rfl | h
      · exact .inl rfl
      · exact .inr ⟨bag, h, rfl⟩

theorem ascending_insert {bags : List Bag} (h : bags.Pairwise fun x y => x.epoch < y.epoch) :
    (Bag.insert l epoch bags).Pairwise fun x y => x.epoch < y.epoch := by
  induction bags with
  | nil => exact List.pairwise_singleton _ _
  | cons bag bags ih =>
    obtain ⟨hbag, hbags⟩ := List.pairwise_cons.1 h
    simp only [Bag.insert]
    split
    · rename_i hlt
      refine List.pairwise_cons.2 ⟨fun x hx => ?_, ih hbags⟩
      rcases epoch_of_mem_insert hx with heq | ⟨old, hold, heq⟩
      · exact heq ▸ hlt
      · exact heq ▸ hbag old hold
    split
    · exact List.pairwise_cons.2 ⟨hbag, hbags⟩
    · rename_i hnot hne
      have hlt : epoch < bag.epoch := by omega
      refine List.pairwise_cons.2 ⟨fun x hx => ?_, h⟩
      rcases List.mem_cons.1 hx with rfl | hx
      · exact hlt
      · exact Nat.lt_trans hlt (hbag x hx)

theorem nonempty_insert {bags : List Bag} (h : ∀ bag ∈ bags, bag.links ≠ []) :
    ∀ bag ∈ Bag.insert l epoch bags, bag.links ≠ [] := by
  induction bags with
  | nil =>
    intro bag hbag
    rw [List.mem_singleton.1 hbag]
    exact List.cons_ne_nil _ _
  | cons first bags ih =>
    have hrest : ∀ bag ∈ bags, bag.links ≠ [] := fun bag hbag => h bag (List.mem_cons_of_mem _ hbag)
    simp only [Bag.insert]
    split
    · exact List.forall_mem_cons.2 ⟨h first List.mem_cons_self, ih hrest⟩
    split
    · exact List.forall_mem_cons.2
        ⟨List.append_ne_nil_of_right_ne_nil _ (List.cons_ne_nil _ _), hrest⟩
    · exact List.forall_mem_cons.2 ⟨List.cons_ne_nil _ _, h⟩

theorem InOrder.push (h : r.InOrder) (l : Link) (epoch : Nat) : (r.push l epoch).InOrder where
  ascending := ascending_insert h.ascending
  nonempty := nonempty_insert h.nonempty
  count_eq := by
    rw [(r.links_push l epoch).length_eq, List.length_cons, ← h.count_eq]
    rfl

theorem InOrder.sorted (h : r.InOrder) : r.entries.Pairwise fun x y => x.1 ≤ y.1 := by
  rw [entries, List.flatMap, List.pairwise_flatten]
  constructor
  · intro entries hentries
    obtain ⟨bag, -, rfl⟩ := List.mem_map.1 hentries
    exact List.pairwise_map.2 (List.pairwise_of_forall fun _ _ => Nat.le_refl _)
  · refine List.pairwise_map.2 (h.ascending.imp fun hlt x hx y hy => ?_)
    obtain ⟨_, -, rfl⟩ := List.mem_map.1 hx
    obtain ⟨_, -, rfl⟩ := List.mem_map.1 hy
    exact Nat.le_of_lt hlt

/-- The entries of a bag are all of one epoch. -/
theorem filter_entries_bag (bag : Bag) (p : Nat → Bool) :
    bag.entries.filter (fun x => p x.1) = if p bag.epoch then bag.entries else [] := by
  split
  · rename_i hp
    refine List.filter_eq_self.2 fun x hx => ?_
    obtain ⟨_, -, rfl⟩ := List.mem_map.1 hx
    exact hp
  · rename_i hp
    refine List.filter_eq_nil_iff.2 fun x hx => ?_
    obtain ⟨_, -, rfl⟩ := List.mem_map.1 hx
    exact hp

theorem filter_entries (bags : List Bag) (p : Nat → Bool) :
    (bags.flatMap Bag.entries).filter (fun x => p x.1) =
      (bags.filter fun bag => p bag.epoch).flatMap Bag.entries := by
  induction bags with
  | nil => rfl
  | cons bag bags ih =>
    rw [List.flatMap_cons, List.filter_append, ih, filter_entries_bag, List.filter_cons]
    split
    · rfl
    · rfl

/-- A link is filed behind all others of its epoch. -/
theorem InOrder.filter_push (h : r.InOrder) (l : Link) (epoch k : Nat) :
    (r.push l epoch).entries.filter (·.1 = k) = (r.entries ++ [(epoch, l)]).filter (·.1 = k) := by
  obtain ⟨bags, count⟩ := r
  have hascending : bags.Pairwise fun x y => x.epoch < y.epoch := h.ascending
  clear h
  have hlate : ∀ later : List Bag, (∀ bag ∈ later, epoch < bag.epoch) →
      (later.flatMap Bag.entries).filter (·.1 = k) ++ [(epoch, l)].filter (·.1 = k) =
        [(epoch, l)].filter (·.1 = k) ++ (later.flatMap Bag.entries).filter (·.1 = k) := by
    intro later hlater
    by_cases hk : epoch = k
    · have hnone : (later.flatMap Bag.entries).filter (·.1 = k) = [] := by
        rw [filter_entries later (· = k), List.filter_eq_nil_iff.2]
        · rfl
        · intro bag hbag
          have hlt := hlater bag hbag
          simp only [decide_eq_true_eq]
          omega
      rw [hnone, List.append_nil, List.nil_append]
    · simp [hk]
  simp only [entries, RetireList.push, List.filter_append]
  induction bags with
  | nil => rfl
  | cons bag bags ih =>
    obtain ⟨hbag, hbags⟩ := List.pairwise_cons.1 hascending
    simp only [Bag.insert]
    split
    · rw [List.flatMap_cons, List.filter_append, ih hbags, List.flatMap_cons, List.filter_append,
        List.append_assoc]
    split
    · rename_i heq
      subst heq
      simp only [List.flatMap_cons, List.filter_append, List.append_assoc, hlate bags hbag]
      simp [Bag.entries]
    · rename_i hnot hne
      have hlater : ∀ x ∈ bag :: bags, epoch < x.epoch := by
        refine List.forall_mem_cons.2 ⟨by omega, fun x hx => ?_⟩
        have hlt := hbag x hx
        omega
      rw [hlate _ hlater, List.flatMap_cons, List.filter_append]
      rfl

/-- Filing a link sorts it in, behind all that are as old. -/
theorem InOrder.entries_push (h : r.InOrder) (l : Link) (epoch : Nat) :
    (r.push l epoch).entries = byKey Prod.fst (r.entries ++ [(epoch, l)]) :=
  eq_byKey (h.push l epoch).sorted (h.filter_push l epoch)

section

variable (h : r.InOrder) (current grace : Nat)
include h

theorem InOrder.due_eq :
    r.due current grace = r.bags.filter (fun bag => reclaimable bag.epoch current grace) ∧
      (r.retained current grace).bags =
        r.bags.filter fun bag => !reclaimable bag.epoch current grace := by
  refine takeWhile_eq_filter h.ascending fun x y hxy hy => ?_
  simp only [reclaimable, decide_eq_true_eq] at hy ⊢
  omega

/-- A sweep releases every entry that is due. -/
theorem InOrder.released_eq : r.released current grace =
    (r.entries.filter fun x => reclaimable x.1 current grace).map Prod.snd := by
  rw [entries, filter_entries r.bags (reclaimable · current grace), ← (h.due_eq current grace).1]
  exact links_eq ⟨r.due current grace, 0⟩

theorem InOrder.entries_retained : (r.retained current grace).entries =
    r.entries.filter fun x => !reclaimable x.1 current grace := by
  rw [entries, entries, filter_entries r.bags (!reclaimable · current grace),
    (h.due_eq current grace).2]

theorem InOrder.retained : (r.retained current grace).InOrder where
  ascending := h.ascending.sublist (List.dropWhile_sublist _)
  nonempty := fun bag hbag => h.nonempty bag ((List.dropWhile_sublist _).subset hbag)
  count_eq := by
    have hlength := congrArg List.length (r.released_append_retained current grace)
    rw [List.length_append, ← h.count_eq] at hlength
    simp only [RetireList.retained] at hlength ⊢
    omega

end

end RetireList

end RecyclingStack
