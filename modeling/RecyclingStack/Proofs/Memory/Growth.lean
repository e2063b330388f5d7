import Mathlib.Order.Monotone.Basic
import RecyclingStack.Proofs.Memory.Moves

/-! An arena that grows. Claims, at each of which there is memory for a segment or not, hand the
indices out in order, and a segment is there from the claim of its first index on. So the arena
knows by the count of indices alone which segments it has, and `locate` never leads past them. -/
namespace RecyclingStack

theorem segmentStart_eq (segment : Nat) : segmentStart segment = 32 * (2 ^ segment - 1) := by
  rw [segmentStart, Nat.one_shiftLeft]
  rfl

theorem segmentLength_eq (segment : Nat) : segmentLength segment = 32 * 2 ^ segment := by
  rw [segmentLength, Nat.shiftLeft_eq]
  rfl

theorem segmentStart_strictMono : StrictMono segmentStart :=
  strictMono_nat_of_lt_succ fun segment => by
    rw [← segmentStart_add_length]
    exact Nat.lt_add_of_pos_right (segmentLength_pos segment)

theorem segmentStart_locate_le (index : Nat) : segmentStart (locate index).segment ≤ index :=
  (start_add_offset_locate index).le.trans' (Nat.le_add_right _ _)

theorem lt_segmentStart_locate (index : Nat) :
    index < segmentStart ((locate index).segment + 1) := by
  have hplace := start_add_offset_locate index
  have hoffset := offset_locate_lt index
  rw [← segmentStart_add_length]
  omega

/-- The first index of a segment lies in it. -/
theorem segment_locate_start (segment : Nat) :
    (locate (segmentStart segment)).segment = segment := by
  apply Nat.le_antisymm
  · exact segmentStart_strictMono.le_iff_le.1 (segmentStart_locate_le _)
  · exact Nat.le_of_lt_succ (segmentStart_strictMono.lt_iff_lt.1 (lt_segmentStart_locate _))

/-- The place of an index of 32 bits as it is computed with words of 64 bits. The leading zeros of a
word tell its logarithm. -/
def locateWord (index : BitVec 32) : Place :=
  let shifted := index.setWidth 64 + 32#64
  let segment := 63#64 - shifted.clz - 5#64
  ⟨segment.toNat, (shifted - 32#64 <<< segment).toNat⟩

theorem clz_add_log2 {x : BitVec 64} (hx : x ≠ 0) : x.clz.toNat + x.toNat.log2 = 63 := by
  have hpos : x.toNat ≠ 0 := fun h => hx (BitVec.eq_of_toNat_eq h)
  have hlt : x.clz.toNat < 64 := BitVec.clz_lt_iff_ne_zero.2 hx
  have hlow := BitVec.two_pow_sub_clz_le_toNat_of_ne_zero (by decide) hx
  have hhigh := BitVec.toNat_lt_two_pow_sub_clz (x := x)
  have hlog : x.toNat.log2 = 63 - x.clz.toNat := by
    rw [Nat.log2_eq_iff hpos, show 63 - x.clz.toNat + 1 = 64 - x.clz.toNat by omega]
    exact ⟨hlow, hhigh⟩
  omega

/-- Words are wide enough for the computation. -/
theorem locateWord_ofNat {index : Nat} (h : index < halfWord) :
    locateWord (BitVec.ofNat 32 index) = locate index := by
  have hhalf : halfWord = 2 ^ 32 := rfl
  obtain ⟨x, hx⟩ : ∃ x, x = (BitVec.ofNat 32 index).setWidth 64 + 32#64 := ⟨_, rfl⟩
  have hshifted : x.toNat = index + 32 := by
    simp only [hx, BitVec.toNat_add, BitVec.toNat_setWidth, BitVec.toNat_ofNat]
    omega
  have hne : x ≠ 0 := by
    rintro rfl
    cases hshifted
  have hlog := clz_add_log2 hne
  rw [hshifted, show (index + 32).log2 = (locate index).segment + 5 from locate_log index] at hlog
  have hsegment : (63#64 - x.clz - 5#64).toNat = (locate index).segment := by
    simp only [BitVec.toNat_sub, BitVec.toNat_ofNat]
    omega
  have hplace := start_add_offset_locate index
  have hfits : segmentLength (locate index).segment ≤ index + 32 := by
    rw [segmentStart_eq] at hplace
    rw [segmentLength_eq]
    omega
  have hlength : (32#64 <<< (63#64 - x.clz - 5#64)).toNat =
      segmentLength (locate index).segment := by
    rw [BitVec.shiftLeft_eq', BitVec.toNat_shiftLeft, hsegment]
    exact Nat.mod_eq_of_lt (Nat.lt_of_le_of_lt hfits (by omega))
  simp only [locateWord, ← hx, hsegment, BitVec.toNat_sub, hlength, hshifted]
  refine congrArg (Place.mk _) ?_
  change _ = index + 32 - segmentLength (locate index).segment
  omega

namespace Arena

variable {α : Type} {a : Arena α} {granted : Bool} {segment : Nat}

/-- Claims made one after the other, each with memory for a segment or without: what the arena is
then, their outcomes, and the lines logged. -/
def claimEach (a : Arena α) : List Bool → Effect (Arena α) (List (Except Exhausted Nat))
  | [] => ⟨a, [], []⟩
  | granted :: grants =>
    let claim := a.allocFresh granted
    let rest := claim.state.claimEach grants
    ⟨rest.state, claim.answer :: rest.answer, claim.log ++ rest.log⟩

theorem claimEach_append (a : Arena α) (grants more : List Bool) :
    a.claimEach (grants ++ more) =
      ⟨((a.claimEach grants).state.claimEach more).state,
        (a.claimEach grants).answer ++ ((a.claimEach grants).state.claimEach more).answer,
        (a.claimEach grants).log ++ ((a.claimEach grants).state.claimEach more).log⟩ := by
  induction grants generalizing a with
  | nil => rfl
  | cons granted grants ih =>
    simp only [List.cons_append, claimEach, ih, List.append_assoc]

/-- What holds of an arena after claims with these outcomes and these lines logged. A segment is
there just if its first index was claimed. -/
structure Grown (a : Arena α) (outcomes : List (Except Exhausted Nat)) (log : List LogLine) :
    Prop where
  sound : a.Sound
  reached : ∀ segment, a.installed segment = true ↔ segmentStart segment < a.fresh
  inOrder : outcomes.filterMap Except.toOption = List.range a.fresh
  once : ∀ segment, log.count (.segmentInstalled segment (segmentLength segment)) =
    if a.installed segment then 1 else 0

theorem grown_empty (requested : Option Nat) : (empty requested : Arena α).Grown [] [] where
  sound := sound_empty requested
  reached := fun segment => by
    rw [installed, segment?_empty]
    exact ⟨fun h => (by cases h), fun h => absurd h (Nat.not_lt_zero _)⟩
  inOrder := rfl
  once := fun segment => by
    rw [installed, segment?_empty]
    rfl

namespace Grown

section

variable {outcomes : List (Except Exhausted Nat)} {log : List LogLine} (h : a.Grown outcomes log)
include h

/-- The segment of the next index is missing just if this index is its first. -/
theorem installed_iff : a.installed (locate a.fresh).segment = false ↔
    a.fresh = segmentStart (locate a.fresh).segment := by
  have hle := segmentStart_locate_le a.fresh
  rw [← Bool.not_eq_true, h.reached, Nat.not_lt]
  exact ⟨fun hge => Nat.le_antisymm hge hle, Nat.le_of_eq⟩

/-- A claim that fails leaves nothing behind but a line that speaks of no segment installed. -/
theorem refuse {lines : List LogLine} {failure : Exhausted}
    (hlines : ∀ segment length, .segmentInstalled segment length ∉ lines) :
    a.Grown (outcomes ++ [.error failure]) (log ++ lines) where
  sound := h.sound
  reached := h.reached
  inOrder := by
    rw [List.filterMap_append, h.inOrder]
    exact List.append_nil _
  once := fun segment => by
    rw [List.count_append, h.once, List.count_eq_zero_of_not_mem (hlines _ _), Nat.add_zero]

theorem inOrder_succ : (outcomes ++ [Except.ok a.fresh]).filterMap Except.toOption =
    List.range (a.fresh + 1) := by
  rw [List.filterMap_append, h.inOrder, List.range_succ]
  rfl

theorem claim {c : Effect (Arena α) (Except Exhausted Nat)} (hclaims : a.Claims granted c) :
    c.state.Grown (outcomes ++ [c.answer]) (log ++ c.log) := by
  have hfirst : ∀ segment, segmentStart segment = a.fresh → (locate a.fresh).segment = segment :=
    fun segment hstart => hstart ▸ segment_locate_start segment
  cases hclaims with
  | full => exact h.refuse fun _ _ => List.not_mem_nil
  | starves => exact h.refuse fun _ _ hmem => by cases List.mem_singleton.1 hmem
  | fills room there =>
    have hlt := (h.reached _).1 there
    refine ⟨h.sound.claim room, fun segment => (h.reached segment).trans ?_, h.inOrder_succ, ?_⟩
    · -- the next index is no first one, for its segment is there
      have hne : segmentStart segment ≠ a.fresh := fun hstart => by
        rw [hfirst segment hstart] at hlt
        exact absurd hstart (Nat.ne_of_lt hlt)
      change _ ↔ _ < a.fresh + 1
      omega
    · rw [List.append_nil]
      exact h.once
  | opens room missing =>
    have hstart := h.installed_iff.1 missing
    have hsame : ∀ segment, (locate a.fresh).segment ≠ segment →
        (a.install (locate a.fresh).segment).installed segment = a.installed segment := by
      intro segment hne
      rw [installed, segment?_install a (h.sound.segment_lt room), if_neg hne, installed]
    have hthere := h.sound.installed_install room
    refine ⟨(h.sound.install room).claim room, fun segment => ?_, h.inOrder_succ,
      fun segment => ?_⟩
    · change (a.install (locate a.fresh).segment).installed segment = true ↔ _ < a.fresh + 1
      by_cases hsegment : (locate a.fresh).segment = segment
      · subst hsegment
        exact iff_of_true hthere (Nat.lt_succ_of_le (Nat.le_of_eq hstart.symm))
      · rw [hsame segment hsegment, h.reached]
        have hne : segmentStart segment ≠ a.fresh := fun heq => hsegment (hfirst segment heq)
        omega
    · change _ = if (a.install (locate a.fresh).segment).installed segment = true then 1 else 0
      rw [List.count_append, h.once]
      by_cases hsegment : (locate a.fresh).segment = segment
      · subst hsegment
        rw [hthere, missing, List.count_singleton_self]
        rfl
      · have hline : LogLine.segmentInstalled segment (segmentLength segment) ∉
            [LogLine.segmentInstalled (locate a.fresh).segment
              (segmentLength (locate a.fresh).segment)] := fun hmem =>
          hsegment (LogLine.segmentInstalled.inj (List.mem_singleton.1 hmem)).1.symm
        rw [hsame segment hsegment, List.count_eq_zero_of_not_mem hline, Nat.add_zero]

theorem claimEach (grants : List Bool) :
    (a.claimEach grants).state.Grown (outcomes ++ (a.claimEach grants).answer)
      (log ++ (a.claimEach grants).log) := by
  induction grants generalizing a outcomes log with
  | nil =>
    simp only [Arena.claimEach, List.append_nil]
    exact h
  | cons granted grants ih =>
    have hrest := ih (h.claim (claims_allocFresh a granted))
    rwa [List.append_assoc, List.append_assoc] at hrest

end

end Grown

theorem grown_claimEach (requested : Option Nat) (grants : List Bool) :
    ((empty requested : Arena α).claimEach grants).state.Grown
      ((empty requested : Arena α).claimEach grants).answer
      ((empty requested : Arena α).claimEach grants).log :=
  (grown_empty requested).claimEach grants

/-- The index has its slot: the place that `locate` computes is within its segment, and this is
there. -/
structure Backs (a : Arena α) (index : Nat) : Prop where
  segment_lt : (locate index).segment < 26
  offset_lt : (locate index).offset < 32 * 2 ^ (locate index).segment
  start_add_offset : 32 * (2 ^ (locate index).segment - 1) + (locate index).offset = index
  installed : a.installed (locate index).segment = true
  slot : (a.slot? index).isSome = true
  lt_nil : index < nilIndex

/-- The claim finds the first index of the segment next, room for it, and memory. -/
def Opens (a : Arena α) (granted : Bool) (segment : Nat) : Prop :=
  a.fresh = 32 * (2 ^ segment - 1) ∧ a.fresh < a.capacity ∧ granted = true

section

variable {c : Effect (Arena α) (Except Exhausted Nat)} (hclaims : a.Claims granted c)
include hclaims

theorem Claims.fresh_of_opens (hopens : a.Opens granted segment) :
    c.state.fresh = a.fresh + 1 := by
  obtain ⟨-, hroom, rfl⟩ := hopens
  cases hclaims with
  | full full => exact absurd hroom (Nat.not_lt.2 full)
  | fills | opens => rfl

/-- A segment that is there stays, and all that is in its slots. -/
theorem Claims.segment?_eq (hs : a.Sound) {slots : Array (Slot α)}
    (hslots : a.segment? segment = some slots) : c.state.segment? segment = some slots := by
  cases hclaims with
  | full | starves | fills => exact hslots
  | opens room missing =>
    have hne : (locate a.fresh).segment ≠ segment := by
      rintro rfl
      rw [segment?_none missing] at hslots
      cases hslots
    exact (segment?_install a (hs.segment_lt room) segment).trans ((if_neg hne).trans hslots)

end

theorem fresh_le_claimEach (a : Arena α) (grants : List Bool) :
    a.fresh ≤ (a.claimEach grants).state.fresh := by
  induction grants generalizing a with
  | nil => exact Nat.le_refl _
  | cons granted grants ih => exact (claims_allocFresh a granted).fresh_le.trans (ih _)

theorem capacity_claimEach (a : Arena α) (grants : List Bool) :
    (a.claimEach grants).state.capacity = a.capacity := by
  induction grants generalizing a with
  | nil => rfl
  | cons granted grants ih => exact (ih _).trans (claims_allocFresh a granted).capacity_eq

/-- Once a claim has opened a segment, its first index is behind. -/
theorem lt_fresh_of_opened {before : List Bool} (later : List Bool) {earlier : Bool}
    (hopens : (a.claimEach before).state.Opens earlier segment) :
    segmentStart segment < (a.claimEach (before ++ earlier :: later)).state.fresh := by
  rw [claimEach_append]
  refine Nat.lt_of_lt_of_le ?_ (fresh_le_claimEach _ later)
  rw [(claims_allocFresh _ earlier).fresh_of_opens hopens, hopens.1, segmentStart_eq]
  exact Nat.lt_succ_self _

namespace Grown

section

variable {outcomes : List (Except Exhausted Nat)} {log : List LogLine} (h : a.Grown outcomes log)
include h

/-- A claim installs a segment just if it opens it. -/
theorem installs_iff {c : Effect (Arena α) (Except Exhausted Nat)} (hclaims : a.Claims granted c) :
    a.installed segment = false ∧ c.state.installed segment = true ↔ a.Opens granted segment := by
  have hafter := (h.claim hclaims).reached segment
  constructor
  · rintro ⟨hmissing, hinstalled⟩
    cases hclaims with
    | full | starves | fills => exact absurd (hmissing.symm.trans hinstalled) (by decide)
    | opens room missing =>
      have hlt : segmentStart segment < a.fresh + 1 := hafter.1 hinstalled
      rw [← Bool.not_eq_true, h.reached] at hmissing
      have hstart := segmentStart_eq segment
      exact ⟨by omega, room, rfl⟩
  · intro hopens
    rw [hafter, hclaims.fresh_of_opens hopens, ← Bool.not_eq_true, h.reached, hopens.1,
      segmentStart_eq]
    exact ⟨Nat.lt_irrefl _, Nat.lt_succ_self _⟩

theorem mem_outcomes {i : Nat} : .ok i ∈ outcomes ↔ i < a.fresh := by
  rw [← List.mem_range, ← h.inOrder, List.mem_filterMap]
  constructor
  · exact fun hi => ⟨.ok i, hi, rfl⟩
  · rintro ⟨outcome, houtcome, hi⟩
    cases outcome with
    | error failure => cases hi
    | ok j => exact Option.some.inj hi ▸ houtcome

theorem backs {i : Nat} (hi : i < a.fresh) : a.Backs i := by
  have hcapacity : i < maxCapacity :=
    Nat.lt_of_lt_of_le hi (h.sound.fresh_le.trans h.sound.capacity_le)
  have hinstalled : a.installed (locate i).segment = true :=
    (h.reached _).2 (Nat.lt_of_le_of_lt (segmentStart_locate_le i) hi)
  exact {
    segment_lt := segment_locate_lt hcapacity
    offset_lt := segmentLength_eq _ ▸ offset_locate_lt i
    start_add_offset := by
      rw [← segmentStart_eq]
      exact start_add_offset_locate i
    installed := hinstalled
    slot := h.sound.isSome_slot? hinstalled
    lt_nil := Nat.lt_trans hcapacity (by decide) }

end

end Grown

/-- An arena after some claims, with what they answered and logged, and what one claim more does. -/
structure Grows (requested : Option Nat) (grants : List Bool) (a : Arena α)
    (outcomes : List (Except Exhausted Nat)) (log : List LogLine) : Prop where
  /-- The capacity is the one asked for, cut to what the segments can hold. -/
  capacity : a.capacity = min (requested.getD maxCapacity) maxCapacity
  /-- The claims that succeeded got 0, 1, 2 and so on, as many as are counted. -/
  inOrder : outcomes.filterMap Except.toOption = List.range a.fresh
  next : ∀ granted i, (a.allocFresh granted).answer = .ok i →
    i = a.fresh ∧ (a.allocFresh granted).state.fresh = a.fresh + 1
  /-- A claim fails at the capacity, or for want of memory for the segment it needs. -/
  fails : ∀ granted, (∃ failure, (a.allocFresh granted).answer = .error failure) ↔
    a.capacity ≤ a.fresh ∨ a.installed (locate a.fresh).segment = false ∧ granted = false
  /-- It then changes nothing. -/
  refuses : ∀ granted failure, (a.allocFresh granted).answer = .error failure →
    failure = ⟨a.capacity⟩ ∧ (a.allocFresh granted).state = a
  /-- A segment is installed by the first claim that finds its first index next, room, and
  memory. -/
  installs : ∀ granted segment, a.installed segment = false ∧
      (a.allocFresh granted).state.installed segment = true ↔
    a.Opens granted segment ∧ ∀ before earlier later, grants = before ++ earlier :: later →
      ¬ ((empty requested : Arena α).claimEach before).state.Opens earlier segment
  once : ∀ segment, log.count (.segmentInstalled segment (segmentLength segment)) =
    if a.installed segment then 1 else 0
  stays : ∀ granted segment slots, a.segment? segment = some slots →
    (a.allocFresh granted).state.segment? segment = some slots
  /-- Below the capacity the computation in words comes to the same place. -/
  words : ∀ i, i < a.capacity → locateWord (BitVec.ofNat 32 i) = locate i
  /-- Every index handed out so far has its slot. -/
  backs : ∀ i, .ok i ∈ outcomes → a.Backs i
  /-- No two indices share a slot. -/
  apart : ∀ i j, .ok i ∈ outcomes → .ok j ∈ outcomes → i ≠ j →
    locate i ≠ locate j ∧ ∀ f, (a.modify i f).slot? j = a.slot? j

/-- Whatever capacity is asked for, and whenever memory is short, the arena grows without gaps, and
every index it hands out is backed by a slot of its own. -/
theorem grows_claimEach (requested : Option Nat) (grants : List Bool) :
    Grows requested grants ((empty requested : Arena α).claimEach grants).state
      ((empty requested : Arena α).claimEach grants).answer
      ((empty requested : Arena α).claimEach grants).log := by
  have h := grown_claimEach (α := α) requested grants
  have hclaims := claims_allocFresh ((empty requested : Arena α).claimEach grants).state
  exact {
    capacity := by
      rw [capacity_claimEach]
      cases requested with
      | none => exact (Nat.min_self _).symm
      | some n => rfl
    inOrder := h.inOrder
    next := fun granted i => (hclaims granted).fresh_eq
    fails := fun granted => (hclaims granted).error_iff
    refuses := fun granted failure => (hclaims granted).eq_of_error
    installs := fun granted segment => by
      rw [h.installs_iff (hclaims granted)]
      refine ⟨fun hopens => ⟨hopens, ?_⟩, And.left⟩
      -- a claim that opened the segment before would have counted past its first index
      rintro before earlier later rfl hearlier
      have hlt := lt_fresh_of_opened later hearlier
      rw [segmentStart_eq, hopens.1] at hlt
      exact Nat.lt_irrefl _ hlt
    once := h.once
    stays := fun granted segment slots => (hclaims granted).segment?_eq h.sound
    words := fun i hi => locateWord_ofNat
      (Nat.lt_trans (Nat.lt_of_lt_of_le hi h.sound.capacity_le) (by decide))
    backs := fun i hi => h.backs (h.mem_outcomes.1 hi)
    apart := fun i j _ _ hne =>
      ⟨fun heq => hne (locate_injective heq), fun f => by rw [slot?_modify, if_neg hne]⟩ }

example :
    ((empty none : Arena Unit).claimEach (.replicate 32 true ++ [false, true])).answer.drop 31 =
      [.ok 31, .error ⟨maxCapacity⟩, .ok 32] := by
  decide +kernel

end Arena

end RecyclingStack
