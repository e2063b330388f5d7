import RecyclingStack.Proofs.Memory.Recurrence
import RecyclingStack.Proofs.Session.Idle

/-! A link that has left the stack or the free list is past. Its node awaits its next incarnation,
or has begun it under another generation; and as long as generations do not wrap around, the link is
on that chain never again. -/
namespace RecyclingStack

namespace Session

variable {α : Type} {s : Session α} {dead : List Link} {live : Load (Payload α)}
  {held : List (Load (Payload α))} {r : Root} {l : Link} {below : List Link}

/-- The link will not be on the chain of the root again: the incarnation that it names is over, or
it has come down from the stack. -/
def Past (s : Session α) (r : Root) (l : Link) : Prop :=
  l.generation < s.store.arena.generationAt l.index ∨ r = .stack ∧ s.scene.Idle l

/-- Along the moves no slot is handed out so often that its generations come round again. -/
def Bounded (s : Session α) (moves : List (Move α)) : Prop :=
  ∀ i, s.store.arena.generationAt i + (s.handedOut moves).count i < halfWord

theorem handedOut_append (s : Session α) (moves more : List (Move α)) :
    s.handedOut (moves ++ more) = s.handedOut moves ++ (s.play moves).handedOut more := by
  induction moves generalizing s with
  | nil => rfl
  | cons m moves ih =>
    rw [List.cons_append, handedOut, ih, ← List.append_assoc]
    rfl

theorem length_handOut_le (s : Session α) (m : Move α) : (s.handOut m).length ≤ 1 := by
  have hof : ∀ (t : Session α) (granted : Bool) (f : Frame α),
      (t.handOutOf granted f).length ≤ 1 := by
    intro t granted f
    unfold handOutOf
    repeat' split
    all_goals simp
  cases m with
  | call op => exact Nat.zero_le _
  | go granted =>
    simp only [handOut]
    split
    · exact Nat.zero_le _
    · exact hof _ _ _

theorem Bounded.left {moves more : List (Move α)} (h : s.Bounded (moves ++ more)) :
    s.Bounded moves := by
  intro i
  have hi := h i
  rw [handedOut_append, List.count_append] at hi
  omega

theorem Bounded.head {m : Move α} {moves : List (Move α)} (h : s.Bounded (m :: moves)) :
    s.Bounded [m] := by
  rw [← List.singleton_append] at h
  exact h.left

/-- The generation of a slot grows by one each time that it is handed out. -/
theorem Sound.generationAt_move (hs : s.Sound dead live held) {m : Move α}
    (hbound : s.Bounded [m]) (i : Nat) : (s.move m).store.arena.generationAt i =
      s.store.arena.generationAt i + (s.handOut m).count i := by
  have hi := hbound i
  have hlength := s.length_handOut_le m
  rw [handedOut, handedOut, List.append_nil] at hi
  refine ((hs.drift m).generation i).trans ?_
  split
  · rename_i hmem
    have hone : (s.handOut m).count i = 1 := Nat.le_antisymm
      (Nat.le_trans List.count_le_length hlength) (List.count_pos_iff.2 hmem)
    rw [hone] at hi ⊢
    exact Nat.mod_eq_of_lt hi
  · rename_i hmem
    rw [List.count_eq_zero.2 hmem]
    rfl

theorem Bounded.tail {m : Move α} {moves : List (Move α)} (h : s.Bounded (m :: moves))
    (hs : s.Sound dead live held) : (s.move m).Bounded moves := by
  intro i
  have hi := h i
  rw [handedOut, List.count_append] at hi
  rw [hs.generationAt_move h.head]
  omega

theorem Bounded.right {moves more : List (Move α)} (h : s.Bounded (moves ++ more))
    (hs : s.Sound dead live held) : (s.play moves).Bounded more := by
  induction moves generalizing s dead live held with
  | nil => exact h
  | cons m moves ih =>
    obtain ⟨_, _, _, hmoved, -⟩ := hs.move m
    exact ih (h.tail hs) hmoved

theorem bounded_ofPlan (p : Plan) {moves : List (Move α)}
    (h : ∀ i, ((ofPlan p).handedOut moves).count i < halfWord) : (ofPlan p).Bounded moves := by
  intro i
  have hzero : (ofPlan p : Session α).store.arena.generationAt i = 0 :=
    Arena.generationAt_empty p.capacityLimit i
  rw [hzero]
  exact (Nat.zero_add _).trans_lt (h i)

theorem mem_places_of_hanging (hl : l ∈ s.store.hanging r) : l ∈ s.places := by
  cases r with
  | stack => exact Partitioned.mem_places_of_chain hl
  | free => exact Partitioned.mem_places_of_idle (.inr (.inr hl))
  | orphans => exact Partitioned.mem_places_of_idle (.inr (.inl hl))

/-- The link of a place is past once its slot is handed out. -/
theorem Sound.past_of_handOut (hs : s.Sound dead live held) {m : Move α}
    (hbound : s.Bounded [m]) (hplace : l ∈ s.places) (hout : l.index ∈ s.handOut m) :
    (s.move m).Past r l := by
  refine .inl ?_
  have hcount := List.count_pos_iff.2 hout
  rw [hs.generationAt_move hbound, hs.partitioned.generation_eq hplace]
  omega

namespace Past

theorem move (h : s.Past r l) (hs : s.Sound dead live held) {m : Move α}
    (hbound : s.Bounded [m]) : (s.move m).Past r l := by
  rcases h with hover | ⟨hr, hidle⟩
  · refine .inl (Nat.lt_of_lt_of_le hover ?_)
    rw [hs.generationAt_move hbound]
    exact Nat.le_add_right _ _
  · rcases (hs.drift m).idle l hidle with hout | ⟨hstill, -⟩
    · exact hs.past_of_handOut hbound (Partitioned.mem_places_of_idle hidle) hout
    · exact .inr ⟨hr, hstill⟩

theorem play (h : s.Past r l) (hs : s.Sound dead live held) {moves : List (Move α)}
    (hbound : s.Bounded moves) : (s.play moves).Past r l := by
  induction moves generalizing s dead live held with
  | nil => exact h
  | cons m moves ih =>
    obtain ⟨_, _, _, hmoved, -⟩ := hs.move m
    exact ih (h.move hs hbound.head) hmoved (hbound.tail hs)

theorem not_hanging (h : s.Past r l) (hs : s.Partitioned) : l ∉ s.store.hanging r := by
  intro hl
  rcases h with hover | ⟨rfl, hidle⟩
  · rw [hs.generation_eq (mem_places_of_hanging hl)] at hover
    exact Nat.lt_irrefl _ hover
  · exact hs.not_idle hl hidle

end Past

/-- A node on the stack or on the free list keeps all that is below it, or is past. -/
theorem Sound.below_move (hs : s.Sound dead live held) (hr : r ≠ .orphans) {m : Move α}
    (hbound : s.Bounded [m]) (hl : l :: below <:+ s.store.hanging r) :
    l :: below <:+ (s.move m).store.hanging r ∨ (s.move m).Past r l := by
  cases r with
  | stack => exact ((hs.drift m).stack l below hl).imp_right fun hidle => .inr ⟨rfl, hidle⟩
  | free =>
    have hplace := mem_places_of_hanging (hl.subset List.mem_cons_self)
    exact ((hs.drift m).free l below hl).imp_right (hs.past_of_handOut hbound hplace)
  | orphans => exact absurd rfl hr

theorem Sound.below_play (hs : s.Sound dead live held) (hr : r ≠ .orphans)
    {moves : List (Move α)} (hbound : s.Bounded moves) (hl : l :: below <:+ s.store.hanging r) :
    l :: below <:+ (s.play moves).store.hanging r ∨ (s.play moves).Past r l := by
  induction moves generalizing s dead live held with
  | nil => exact .inl hl
  | cons m moves ih =>
    obtain ⟨_, _, _, hmoved, -⟩ := hs.move m
    rcases hs.below_move hr hbound.head hl with hstays | hpast
    · exact ih hmoved (hbound.tail hs) hstays
    · exact .inr (hpast.play hmoved (hbound.tail hs))

theorem Sound.next_below (hs : s.Sound dead live held) (hl : l :: below <:+ s.store.hanging r) :
    s.store.arena.next l = below.headD .nil := by
  obtain ⟨L, -, hlaid⟩ := hs.tidy
  have hthreads := (hlaid.rooted r).threads
  rw [← hlaid.hanging_eq] at hthreads
  exact hthreads.next_eq hl

theorem Sound.steady (hs : s.Sound dead live held) (hr : r ≠ .orphans)
    {between after : List (Move α)} (hbound : s.Bounded (between ++ after)) :
    Store.Steady r s.store (s.play between).store (s.play (between ++ after)).store := by
  obtain ⟨_, _, _, hmiddle, -⟩ := hs.play between
  obtain ⟨_, _, _, hlast, -⟩ := hs.play (between ++ after)
  obtain ⟨_, -, hlaid⟩ := hs.tidy
  obtain ⟨_, -, hlaid'⟩ := hlast.tidy
  refine .of_stays hlaid hlaid' fun l hl hback => ?_
  obtain ⟨above, below, hsplit⟩ := List.append_of_mem hl
  have hsuffix : l :: below <:+ s.store.hanging r := ⟨above, hsplit.symm⟩
  -- what is past in between is past at the end, so a link that is back was never past
  have hpresent : ¬ (s.play (between ++ after)).Past r l := fun hpast =>
    hpast.not_hanging hlast.partitioned hback
  have hfinal := (hs.below_play hr hbound hsuffix).resolve_right hpresent
  have hstays := (hs.below_play hr hbound.left hsuffix).resolve_right fun hpast => by
    rw [play_append] at hpresent
    exact hpresent (hpast.play hmiddle (hbound.right hs))
  rw [hs.next_below hsuffix, hmiddle.next_below hstays, hlast.next_below hfinal]
  exact ⟨hstays.subset List.mem_cons_self, rfl, rfl⟩

end Session

end RecyclingStack
