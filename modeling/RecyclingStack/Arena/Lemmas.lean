import RecyclingStack.Arena.Basic

/-! The arena seen through `slot?`: what every operation does to the slots, the capacity and the
count of indices handed out. -/
namespace RecyclingStack.Arena

variable {α : Type}

theorem segment?_modify (a : Arena α) (i segment : Nat) (f : Slot α → Slot α) :
    (a.modify i f).segment? segment =
      if (locate i).segment = segment then
        (a.segment? segment).map fun slots => slots.modify (locate i).offset f
      else a.segment? segment := by
  simp only [segment?, modify, List.getElem?_modify]
  by_cases h : (locate i).segment = segment
  · simp only [h, if_true]
    rcases a.directory[segment]? with _ | _ | slots <;> rfl
  · simp [h]

/-- A change of one slot is seen at its index and nowhere else. -/
theorem slot?_modify (a : Arena α) (i j : Nat) (f : Slot α → Slot α) :
    (a.modify i f).slot? j = if i = j then (a.slot? j).map f else a.slot? j := by
  simp only [slot?, segment?_modify]
  by_cases hij : i = j
  · subst hij
    rcases a.segment? (locate i).segment with _ | slots <;> simp [Array.getElem?_modify]
  · by_cases hseg : (locate i).segment = (locate j).segment
    · have hoff : (locate i).offset ≠ (locate j).offset := fun h =>
        hij (locate_injective (by cases hi : locate i; cases hj : locate j; simp_all))
      rcases a.segment? (locate j).segment with _ | slots <;>
        simp [hseg, hij, Array.getElem?_modify, hoff]
    · simp [hseg, hij]

theorem fresh_modify (a : Arena α) (i : Nat) (f : Slot α → Slot α) :
    (a.modify i f).fresh = a.fresh := rfl

theorem capacity_modify (a : Arena α) (i : Nat) (f : Slot α → Slot α) :
    (a.modify i f).capacity = a.capacity := rfl

theorem installed_modify (a : Arena α) (i segment : Nat) (f : Slot α → Slot α) :
    (a.modify i f).installed segment = a.installed segment := by
  simp only [installed, segment?_modify]
  split <;> simp

theorem segment?_install (a : Arena α) {segment : Nat} (h : segment < a.directory.length)
    (other : Nat) :
    (a.install segment).segment? other =
      if segment = other then some (Array.replicate (segmentLength segment) {})
      else a.segment? other := by
  simp only [segment?, install, List.getElem?_set]
  by_cases hs : segment = other
  · simp [hs, hs ▸ h]
  · simp [hs]

/-- A segment just installed holds slots never used; all others are as before. -/
theorem slot?_install (a : Arena α) {segment : Nat} (h : segment < a.directory.length) (j : Nat) :
    (a.install segment).slot? j =
      if segment = (locate j).segment then some {} else a.slot? j := by
  have hoff := offset_locate_lt j
  simp only [slot?, segment?_install a h]
  split
  · simp_all
  · rfl

theorem length_directory_install (a : Arena α) (segment : Nat) :
    (a.install segment).directory.length = a.directory.length := by
  simp [install]

theorem length_directory_modify (a : Arena α) (i : Nat) (f : Slot α → Slot α) :
    (a.modify i f).directory.length = a.directory.length := by
  simp [modify]

theorem capacity_empty_le (requested : Option Nat) :
    (empty requested : Arena α).capacity ≤ maxCapacity := by
  cases requested
  · exact Nat.le_refl _
  · exact Nat.min_le_right _ _

theorem segment?_empty (requested : Option Nat) (segment : Nat) :
    (empty requested : Arena α).segment? segment = none := by
  simp only [segment?, empty, List.getElem?_replicate]
  split <;> rfl

theorem slot?_empty (requested : Option Nat) (j : Nat) :
    (empty requested : Arena α).slot? j = none := by
  rw [slot?, segment?_empty]
  rfl

/-- What a claim comes to, and when. -/
inductive Claims (a : Arena α) : Bool → Effect (Arena α) (Except Exhausted Nat) → Prop where
  | full {granted : Bool} (full : a.capacity ≤ a.fresh) :
      Claims a granted ⟨a, .error ⟨a.capacity⟩, []⟩
  | fills {granted : Bool} (room : a.fresh < a.capacity)
      (there : a.installed (locate a.fresh).segment = true) :
      Claims a granted ⟨{ a with fresh := a.fresh + 1 }, .ok a.fresh, []⟩
  | opens (room : a.fresh < a.capacity) (missing : a.installed (locate a.fresh).segment = false) :
      Claims a true ⟨{ a.install (locate a.fresh).segment with fresh := a.fresh + 1 }, .ok a.fresh,
        [.segmentInstalled (locate a.fresh).segment (segmentLength (locate a.fresh).segment)]⟩
  | starves (room : a.fresh < a.capacity) (missing : a.installed (locate a.fresh).segment = false) :
      Claims a false ⟨a, .error ⟨a.capacity⟩,
        [.reservationFailed (locate a.fresh).segment (segmentLength (locate a.fresh).segment)]⟩

theorem claims_allocFresh (a : Arena α) (granted : Bool) :
    a.Claims granted (a.allocFresh granted) := by
  unfold allocFresh
  by_cases hroom : a.capacity ≤ a.fresh
  · simp only [if_pos hroom]
    exact .full hroom
  by_cases hthere : a.installed (locate a.fresh).segment = true
  · simp only [if_neg hroom, if_pos hthere]
    exact .fills (Nat.lt_of_not_le hroom) hthere
  · simp only [if_neg hroom, if_neg hthere]
    have hmissing := Bool.eq_false_iff.2 hthere
    cases granted with
    | true => exact .opens (Nat.lt_of_not_le hroom) hmissing
    | false => exact .starves (Nat.lt_of_not_le hroom) hmissing

namespace Claims

variable {a : Arena α} {granted : Bool} {c : Effect (Arena α) (Except Exhausted Nat)}
  (h : a.Claims granted c)
include h

theorem capacity_eq : c.state.capacity = a.capacity := by
  cases h <;> rfl

theorem fresh_le : a.fresh ≤ c.state.fresh := by
  cases h with
  | full | starves => exact Nat.le_refl _
  | fills | opens => exact Nat.le_succ _

theorem fresh_eq {i : Nat} (hok : c.answer = .ok i) :
    i = a.fresh ∧ c.state.fresh = a.fresh + 1 := by
  cases h with
  | full | starves => cases hok
  | fills | opens => exact ⟨(Except.ok.inj hok).symm, rfl⟩

/-- A claim that fails changes nothing. -/
theorem eq_of_error {failure : Exhausted} (herror : c.answer = .error failure) :
    failure = ⟨a.capacity⟩ ∧ c.state = a := by
  cases h with
  | full | starves => exact ⟨(Except.error.inj herror).symm, rfl⟩
  | fills | opens => cases herror

theorem error_iff : (∃ failure, c.answer = .error failure) ↔
    a.capacity ≤ a.fresh ∨ a.installed (locate a.fresh).segment = false ∧ granted = false := by
  cases h with
  | full full => exact iff_of_true ⟨_, rfl⟩ (.inl full)
  | starves _ missing => exact iff_of_true ⟨_, rfl⟩ (.inr ⟨missing, rfl⟩)
  | fills room there => simp [Nat.not_le.2 room, there]
  | opens room missing => simp [Nat.not_le.2 room]

end Claims

theorem read_node (a : Arena α) (index generation : Nat) :
    a.read (.node index generation) = (a.slot? index).getD {} := rfl

/-- A change behind one link leaves the slots of other indices alone. -/
theorem read_update_of_ne (a : Arena α) (f : Slot α → Slot α) {l other : Link}
    (h : l.index ≠ other.index) : (a.update l f).read other = a.read other := by
  cases l with
  | nil => rfl
  | node i g =>
    cases other with
    | nil => rfl
    | node j k =>
      have hij : i ≠ j := h
      simp [update, read, slot?_modify, hij]

/-- A change behind a link is seen through every link to that index, if the index is backed. -/
theorem read_update_of_eq (a : Arena α) (f : Slot α → Slot α) {index g k : Nat}
    (h : (a.slot? index).isSome) :
    (a.update (.node index g) f).read (.node index k) = f (a.read (.node index k)) := by
  obtain ⟨s, hs⟩ := Option.isSome_iff_exists.1 h
  simp [update, read, slot?_modify, hs]

end RecyclingStack.Arena
