import Mathlib.Data.List.Perm.Subperm
import RecyclingStack.Proofs.Memory.Epochs

/-! How long a deferred list grows. A handle that holds back more nodes than its threshold says
advances the epoch with every pop, so that the nodes beyond the threshold have different tags; and
a sweep leaves tags of no more epochs than the grace period has. -/
namespace RecyclingStack

/-- Ascending numbers in a window are at most as many as the window is wide. -/
theorem length_le_of_ascending {xs : List Nat} {first width : Nat} (hxs : xs.Pairwise (· < ·))
    (hwindow : ∀ x ∈ xs, first ≤ x ∧ x < first + width) : xs.length ≤ width := by
  have hnodup : xs.Nodup := hxs.imp Nat.ne_of_lt
  have hsub : xs ⊆ List.range' first width := by
    intro x hx
    rw [List.mem_range'_1]
    exact hwindow x hx
  simpa using (hnodup.subperm hsub).length_le

theorem suffix_drop {γ : Type} {xs ys : List γ} (h : xs <:+ ys) (n : Nat) :
    xs.drop n <:+ ys.drop n := by
  obtain ⟨before, rfl⟩ := h
  have hdrop : xs.drop n = ((before ++ xs).drop n).drop before.length := by
    rw [List.drop_drop, Nat.add_comm, ← List.drop_drop, List.drop_left]
  rw [hdrop]
  exact List.drop_suffix _ _

/-- The tags of a deferred list, in its order, at some epoch: none is later, and those beyond the
threshold are past, all different, and no more than the grace period. -/
structure Backlog (threshold grace epoch : Nat) (tags : List Nat) : Prop where
  current : ∀ E ∈ tags, E ≤ epoch
  past : ∀ E ∈ tags.drop threshold, E < epoch
  spread : (tags.drop threshold).Pairwise (· < ·)
  short : (tags.drop threshold).length ≤ grace

namespace Backlog

variable {threshold grace epoch later : Nat} {tags rest : List Nat}

theorem nil : Backlog threshold grace epoch [] where
  current := nofun
  past := by simp
  spread := by simp
  short := by simp

theorem length_le (h : Backlog threshold grace epoch tags) : tags.length ≤ threshold + grace := by
  have hshort := h.short
  rw [List.length_drop] at hshort
  omega

theorem mono (h : Backlog threshold grace epoch tags) (hle : epoch ≤ later) :
    Backlog threshold grace later tags where
  current := fun E hE => Nat.le_trans (h.current E hE) hle
  past := fun E hE => Nat.lt_of_lt_of_le (h.past E hE) hle
  spread := h.spread
  short := h.short

theorem suffix (h : Backlog threshold grace epoch tags) (hrest : rest <:+ tags) :
    Backlog threshold grace epoch rest := by
  have hbeyond := suffix_drop hrest threshold
  constructor
  · exact fun E hE => h.current E (hrest.subset hE)
  · exact fun E hE => h.past E (hbeyond.subset hE)
  · exact h.spread.sublist hbeyond.sublist
  · exact Nat.le_trans hbeyond.length_le h.short

theorem current_push (h : Backlog threshold grace epoch tags) :
    ∀ E ∈ tags ++ [epoch], E ≤ epoch := by
  intro E hE
  rcases List.mem_append.1 hE with hE | hE
  · exact h.current E hE
  · exact Nat.le_of_eq (List.mem_singleton.1 hE)

/-- One more node, within the threshold. -/
theorem push (h : Backlog threshold grace epoch tags) (hroom : tags.length < threshold) :
    Backlog threshold grace epoch (tags ++ [epoch]) := by
  have hnone : (tags ++ [epoch]).drop threshold = [] := by
    rw [List.drop_eq_nil_iff, List.length_append, List.length_singleton]
    exact hroom
  refine ⟨h.current_push, ?_, ?_, ?_⟩ <;> rw [hnone] <;> simp

/-- One more node, beyond the threshold: the epoch advances, and a sweep leaves only what the grace
period covers. -/
theorem push_sweep (h : Backlog threshold grace epoch tags) (hfull : threshold ≤ tags.length)
    (hrest : rest <:+ tags ++ [epoch]) (hcovered : ∀ E ∈ rest, epoch + 1 ≤ E + grace) :
    Backlog threshold grace (epoch + 1) rest := by
  have hbeyond : rest.drop threshold <:+ tags.drop threshold ++ [epoch] := by
    rw [← List.drop_append_of_le_length hfull]
    exact suffix_drop hrest threshold
  have hspread : (tags.drop threshold ++ [epoch]).Pairwise (· < ·) := by
    refine List.pairwise_append.2 ⟨h.spread, List.pairwise_singleton _ _, ?_⟩
    intro E hE last hlast
    rw [List.mem_singleton.1 hlast]
    exact h.past E hE
  have hcurrent : ∀ E ∈ rest, E < epoch + 1 := fun E hE =>
    Nat.lt_succ_of_le (h.current_push E (hrest.subset hE))
  have hmem : ∀ {E}, E ∈ rest.drop threshold → E ∈ rest := fun hE => List.mem_of_mem_drop hE
  refine ⟨fun E hE => Nat.le_of_lt (hcurrent E hE), fun E hE => hcurrent E (hmem hE),
    hspread.sublist hbeyond.sublist, ?_⟩
  have hwindow :
      ∀ E ∈ rest.drop threshold, epoch + 1 - grace ≤ E ∧ E < epoch + 1 - grace + grace := by
    intro E hE
    have hle := hcovered E (hmem hE)
    have hlt := hcurrent E (hmem hE)
    omega
  exact length_le_of_ascending (hspread.sublist hbeyond.sublist) hwindow

end Backlog

namespace Turn

variable {β : Type} {t : Turn β} {threshold : Nat}

/-- With no orphans a sweep takes the front of the list. -/
theorem epochs_reclaim_of_nil (h : t.context.deferred.InOrder) (hnil : t.store.orphans = .nil) :
    t.reclaim.state.context.deferred.epochs <:+ t.context.deferred.epochs ∧
      ∀ E ∈ t.reclaim.state.context.deferred.epochs,
        t.store.epoch ≤ E + t.store.settings.gracePeriod := by
  have hsorted := h.sorted_epochs
  have hsame : byKey id t.context.deferred.epochs = t.context.deferred.epochs :=
    byKey_of_sorted hsorted
  rw [epochs_reclaim h, Store.orphanTags_of_nil hnil, List.append_nil, hsame]
  constructor
  · rw [← (takeWhile_eq_filter hsorted ?_).2]
    · exact List.dropWhile_suffix _
    · intro E F hle hF
      simp only [reclaimable, decide_eq_true_eq] at hF ⊢
      omega
  · intro E hE
    have hnot := (List.mem_filter.1 hE).2
    simp only [reclaimable, Bool.not_eq_true', decide_eq_false_iff_not] at hnot
    omega

theorem epochs_retired (h : t.context.deferred.InOrder)
    (hcurrent : ∀ E ∈ t.context.deferred.epochs, E ≤ t.store.epoch) (l : Link) :
    (t.retired l).context.deferred.epochs = t.context.deferred.epochs ++ [t.store.epoch] := by
  refine (h.epochs_push l t.store.epoch).trans (byKey_of_sorted ?_)
  refine List.pairwise_append.2 ⟨h.sorted_epochs, List.pairwise_singleton _ _, ?_⟩
  intro E hE last hlast
  rw [List.mem_singleton.1 hlast]
  exact hcurrent E hE

def Slim (t : Turn β) (threshold : Nat) : Prop :=
  Backlog threshold t.store.settings.gracePeriod t.store.epoch t.context.deferred.epochs

theorem Slim.reclaim (hslim : t.Slim threshold) (h : t.context.deferred.InOrder)
    (hnil : t.store.orphans = .nil) : t.reclaim.state.Slim threshold :=
  Backlog.suffix hslim (epochs_reclaim_of_nil h hnil).1

section

variable (hroom : t.store.epoch + 1 < fullWord)
include hroom

theorem epoch_ticked : t.ticked.store.epoch = t.store.epoch + 1 := Nat.mod_eq_of_lt hroom

theorem Slim.advance (hslim : t.Slim threshold) (h : t.context.deferred.InOrder)
    (hnil : t.store.orphans = .nil) : t.advance.state.Slim threshold := by
  have hticked : t.ticked.Slim threshold := by
    rw [Slim, epoch_ticked hroom]
    exact hslim.mono (Nat.le_succ _)
  exact hticked.reclaim h hnil

theorem Slim.complete (hslim : t.Slim threshold) (h : t.context.deferred.InOrder)
    (hnil : t.store.orphans = .nil) : t.complete.state.Slim threshold := by
  simp only [Turn.complete]
  split
  · exact Slim.advance (t := { t with context := t.context.count }) hroom hslim h hnil
  · exact hslim

/-- A pop within the threshold makes the list longer by one; one beyond it advances the epoch. -/
theorem Slim.pop (hslim : t.Slim threshold) (h : t.context.deferred.InOrder)
    (hnil : t.store.orphans = .nil)
    (hthreshold : t.store.settings.retireThreshold = some threshold) :
    t.pop.state.Slim threshold := by
  rcases t.pop_cases with hpop | ⟨v, hpop⟩ <;> rw [hpop]
  · exact hslim
  have hretired := epochs_retired h hslim.current t.store.head
  have horder : (t.retired t.store.head).context.deferred.InOrder := h.push _ _
  rcases Nat.lt_or_ge t.context.deferred.epochs.length threshold with hlt | hfull
  · have hpushed : (t.retired t.store.head).Slim threshold := by
      rw [Slim, hretired]
      exact Backlog.push hslim hlt
    exact hpushed.complete hroom horder hnil
  · have hmust : (t.retired t.store.head).context.count.mustAdvance
        (t.retired t.store.head).store.settings = true := by
      have hcount : threshold < (t.retired t.store.head).context.deferred.count := by
        rw [← horder.length_epochs, hretired, List.length_append, List.length_singleton]
        omega
      have hsame : (t.retired t.store.head).store.settings = t.store.settings := rfl
      simp only [Context.mustAdvance, hsame, hthreshold, Bool.or_eq_true, decide_eq_true_eq]
      exact .inr hcount
    simp only [Turn.complete, hmust, if_true]
    obtain ⟨hrest, hcovered⟩ := epochs_reclaim_of_nil
      (t := ticked
        { t.retired t.store.head with context := (t.retired t.store.head).context.count })
      horder hnil
    have hnext : (ticked { t.retired t.store.head with
        context := (t.retired t.store.head).context.count }).store.epoch = t.store.epoch + 1 :=
      epoch_ticked (t := { t.retired t.store.head with
        context := (t.retired t.store.head).context.count }) hroom
    rw [hnext] at hcovered
    have hswept := Backlog.push_sweep hslim hfull (hretired ▸ hrest) hcovered
    rwa [← hnext] at hswept

end

end Turn

end RecyclingStack
