import Mathlib.Logic.Function.Iterate
import RecyclingStack.Proofs.Memory.Borrowing
import RecyclingStack.Proofs.Memory.Tags

/-! A batch in one go, beside the same values put on the stack one by one. If the batch succeeds so
do they, since the nodes that a reclaim gives back in between only add to the free slots; and as
long as nothing is reclaimed, the two differ in the count of operations alone. -/
namespace RecyclingStack

/-- So many more operations counted, in a word that wraps round. -/
def Context.counts (c : Context) (n : Nat) : Context :=
  { c with ops := if n = 0 then c.ops else (c.ops + n) % fullWord }

theorem Context.iterate_count (c : Context) (n : Nat) : Context.count^[n] c = c.counts n := by
  induction n with
  | zero => rfl
  | succ n ih =>
    rw [Function.iterate_succ_apply', ih]
    by_cases hn : n = 0
    · simp [counts, count, nextWord, hn]
    · simp [counts, count, nextWord, hn, Nat.add_assoc]

namespace Turn

variable {β : Type} {t u : Turn β} {stack : Strand β} {rest : List (Strand β)}
  {grants : Nat → Bool}

/-- Puts a private chain on the stack, and counts the operation, if there is a node in the chain. -/
def place (t : Turn β) (first last : Link) : Turn β :=
  match first with
  | .nil => t
  | .node _ _ => (t.publish first last).state

def put (grants : Nat → Bool) (t : Turn β) (vs : List β) : Option (Turn β) :=
  (t.store.build grants .nil .nil vs).map fun built =>
    ({ t with store := built.1 } : Turn β).place built.2.1 built.2.2

def putEach (grants : Nat → Bool) (t : Turn β) (vs : List β) : Option (Turn β) :=
  vs.foldlM (fun t v => t.put grants [v]) t

theorem putEach_cons (grants : Nat → Bool) (t : Turn β) (v : β) (vs : List β) :
    t.putEach grants (v :: vs) = (t.put grants [v]).bind fun u => u.putEach grants vs :=
  List.foldlM_cons

theorem place_eq_complete (t : Turn β) {first : Link} (last : Link) (hne : first ≠ .nil) :
    t.place first last =
      ({ t with store := t.store.topped first last } : Turn β).complete.state := by
  cases first with
  | nil => exact absurd rfl hne
  | node i g => rfl

theorem settings_complete (t : Turn β) : t.complete.state.store.settings = t.store.settings := by
  simp only [complete]
  split <;> rfl

/-- The free slots can only become more. -/
theorem freeList_complete_le (h : t.Tidy stack rest) :
    t.store.freeList.length ≤ t.complete.state.store.freeList.length := by
  simp only [complete]
  split
  · have hadvanced : Turn.Tidy ⟨{ t.store with epoch := nextWord t.store.epoch },
        t.context.count⟩ stack rest :=
      Store.Tidy.of_eq (s := t.store) rfl (fun r => by cases r <;> rfl) h
    refine Nat.le_trans ?_ (Nat.le_of_eq (congrArg List.length (freeList_sweep
      (adopt_tidy hadvanced))).symm)
    rw [List.length_append]
    exact Nat.le_add_left _ _
  · exact Nat.le_refl _

theorem affords_complete {n : Nat} (h : t.Tidy stack rest) (hroom : t.store.Affords grants n) :
    t.complete.state.store.Affords grants n :=
  have hextent := Arena.inert_extent.complete t
  hroom.mono (congrArg Prod.fst hextent) (congrArg Prod.snd hextent)
    ((Arena.inert_available grants).complete t) (freeList_complete_le h)

section

variable {v : β} {vs : List β}

theorem flags_put (hput : t.put grants vs = some u) :
    u.store.settings = t.store.settings ∧ u.store.shutdown = t.store.shutdown := by
  obtain ⟨⟨store, first, last⟩, hbuilt, rfl⟩ := Option.map_eq_some_iff.1 hput
  obtain ⟨hsettings, hshut⟩ := Store.flags_build hbuilt
  cases first with
  | nil => exact ⟨hsettings, hshut⟩
  | node i g => exact ⟨(settings_complete _).trans hsettings, (shutdown_complete _).trans hshut⟩

theorem put_isSome (grants : Nat → Bool) (vs : List β) (h : t.Tidy stack rest) :
    (t.put grants vs).isSome = true ↔ t.store.Affords grants vs.length := by
  rw [put, Option.isSome_map]
  exact Store.Tidy.build_isSome (u := []) (Store.Tidy.addNil h)

theorem Tidy.put (h : t.Tidy stack rest) (hput : t.put grants vs = some u) :
    ∃ w : Load β, u.Tidy (w.strand ++ stack) rest ∧ w.values = vs.reverse := by
  obtain ⟨⟨store, first, last⟩, hbuilt, rfl⟩ := Option.map_eq_some_iff.1 hput
  obtain ⟨w, hw, rfl, rfl, hvalues⟩ := Store.Tidy.build h hbuilt
  cases w with
  | nil => exact ⟨[], hw.dropNil, hvalues⟩
  | cons n w =>
    obtain ⟨htopped, -⟩ := hw.topped
    refine ⟨n :: w, ?_, hvalues⟩
    rw [place_eq_complete _ _ (hw.first_ne_nil (Load.strand_ne_nil (List.cons_ne_nil n w)))]
    exact complete_tidy (t := ⟨_, t.context⟩) htopped

/-- A batch of one value. -/
theorem Tidy.put_single (grants : Nat → Bool) (v : β) (h : t.Tidy stack rest) :
    t.put grants [v] = (t.store.pushed grants v).map fun store =>
      ({ t with store } : Turn β).complete.state := by
  rw [Turn.put, Store.pushed, Option.map_map]
  refine Option.map_congr fun built hbuilt => ?_
  obtain ⟨store, first, last⟩ := built
  obtain ⟨w, hw, rfl, rfl, hvalues⟩ := Store.Tidy.build h hbuilt
  cases w with
  | nil => cases hvalues
  | cons n w =>
    exact place_eq_complete _ _ (hw.first_ne_nil (Load.strand_ne_nil (List.cons_ne_nil n w)))

/-- There is room for the values to come. -/
theorem Tidy.affords_put {n : Nat} (h : t.Tidy stack rest) (hput : t.put grants [v] = some u)
    (hroom : t.store.Affords grants (n + 1)) : u.store.Affords grants n := by
  rw [h.put_single, Store.pushed_eq] at hput
  cases hanswer : (t.store.allocate (t.store.grant grants) v).answer with
  | error failure =>
    rw [hanswer] at hput
    cases hput
  | ok l =>
    rw [hanswer] at hput
    cases hput
    obtain ⟨hlinked, -⟩ := (Store.Tidy.addNil h).linked (u := []) hanswer
    obtain ⟨htopped, hfree⟩ := hlinked.topped
    obtain ⟨L, -, hlaid⟩ := h
    have hextent := Store.extent_topped
      ((t.store.allocate (t.store.grant grants) v).state.setNext l .nil) l l
    refine affords_complete (t := ⟨_, t.context⟩) htopped ?_
    exact ((hlaid.affords_succ hanswer .nil n).1 hroom).mono (congrArg Prod.fst hextent)
      (congrArg Prod.snd hextent) (Store.available_topped grants _ l l)
      (Nat.le_of_eq (congrArg List.length hfree).symm)

theorem Tidy.putEach (h : t.Tidy stack rest) (heach : t.putEach grants vs = some u) :
    ∃ w : Load β, u.Tidy (w.strand ++ stack) rest ∧ w.values = vs.reverse := by
  induction vs generalizing t stack with
  | nil =>
    cases heach
    exact ⟨[], h, rfl⟩
  | cons v vs ih =>
    rw [putEach_cons] at heach
    obtain ⟨m, hput, heach⟩ := Option.bind_eq_some_iff.1 heach
    obtain ⟨w, hm, hw⟩ := h.put hput
    obtain ⟨w', hu, hw'⟩ := ih hm heach
    refine ⟨w' ++ w, ?_, ?_⟩
    · rwa [Load.strand_append, List.append_assoc]
    · rw [List.reverse_cons, ← hw', show [v] = w.values from hw.symm]
      exact List.map_append

/-- Where the slots suffice for a batch, they suffice for its values one after the other. -/
theorem Tidy.exists_putEach (h : t.Tidy stack rest) (hroom : t.store.Affords grants vs.length) :
    ∃ u, t.putEach grants vs = some u := by
  induction vs generalizing t stack with
  | nil => exact ⟨t, rfl⟩
  | cons v vs ih =>
    have hone : t.store.Affords grants [v].length := fun j hj =>
      hroom j (Nat.lt_of_lt_of_le hj (Nat.succ_le_succ (Nat.zero_le _)))
    obtain ⟨m, hput⟩ := Option.isSome_iff_exists.1 ((put_isSome grants [v] h).2 hone)
    obtain ⟨w, hm, -⟩ := h.put hput
    obtain ⟨u, heach⟩ := ih hm (h.affords_put hput hroom)
    exact ⟨u, by rw [putEach_cons, hput, Option.bind_some, heach]⟩

theorem values_append_strand {s : Store β} {w : Load β} {strands : List (Strand β)}
    (h : s.Tidy (w.strand ++ stack) strands) :
    s.values = w.values ++ stack.filterMap fun c => c.stage.value := by
  rw [h.values_eq, List.filterMap_append, Load.values_strand]

/-- A batch that succeeds leaves the values that its pushes one by one would leave, and these do
succeed. -/
theorem Tidy.putEach_of_put (h : t.Tidy stack rest) (hput : t.put grants vs = some u) :
    ∃ w, t.putEach grants vs = some w ∧ w.store.values = u.store.values := by
  have hroom := (put_isSome grants vs h).1 (Option.isSome_iff_exists.2 ⟨u, hput⟩)
  obtain ⟨w, heach⟩ := h.exists_putEach hroom
  obtain ⟨x, hx, hvalues⟩ := h.put hput
  obtain ⟨y, hy, hvalues'⟩ := h.putEach heach
  refine ⟨w, heach, ?_⟩
  rw [values_append_strand hx, values_append_strand hy, hvalues, hvalues']

end

theorem complete_quiet (interval : t.store.settings.advanceInterval = 0)
    (threshold : t.store.settings.retireThreshold = none) :
    t.complete.state = ⟨t.store, t.context.count⟩ := by
  simp [complete, Context.mustAdvance, interval, threshold]

section

variable (grants : Nat → Bool) (vs : List β) (h : t.Tidy stack rest)
  (interval : t.store.settings.advanceInterval = 0)
  (threshold : t.store.settings.retireThreshold = none)
include h interval threshold

theorem Tidy.putEach_quiet : t.putEach grants vs = (t.store.pushedAll grants vs).map fun store =>
    ⟨store, t.context.counts vs.length⟩ := by
  simp only [← Context.iterate_count]
  induction vs generalizing t stack with
  | nil => rfl
  | cons v vs ih =>
    have hsingle := h.put_single grants v
    rw [putEach_cons, Store.pushedAll, List.foldlM_cons, Option.bind_eq_bind]
    cases hpushed : t.store.pushed grants v with
    | none =>
      rw [hsingle, hpushed]
      rfl
    | some store =>
      have hsettings : store.settings = t.store.settings := by
        obtain ⟨built, hbuilt, rfl⟩ := Option.map_eq_some_iff.1 hpushed
        exact (Store.flags_topped _ _ _).1.trans (Store.flags_build hbuilt).1
      rw [hpushed, Option.map_some, complete_quiet (hsettings ▸ interval) (hsettings ▸ threshold)]
        at hsingle
      obtain ⟨w, hw, -⟩ := h.put hsingle
      rw [hsingle, Option.bind_some, Option.bind_some]
      exact ih hw (hsettings ▸ interval) (hsettings ▸ threshold)

theorem Tidy.put_quiet : t.put grants vs = (t.store.pushedAll grants vs).map fun store =>
    ⟨store, t.context.counts (min 1 vs.length)⟩ := by
  have hall : t.store.pushedAll grants vs = (t.store.build grants .nil .nil vs).map fun built =>
      built.1.topped built.2.1 built.2.2 :=
    (Store.Tidy.addNil h).pushedAll_topped (u := []) grants vs
  rw [hall, Turn.put, Option.map_map]
  refine Option.map_congr fun built hbuilt => ?_
  obtain ⟨store, first, last⟩ := built
  obtain ⟨hsettings, -⟩ := Store.flags_build hbuilt
  obtain ⟨w, hw, rfl, rfl, hvalues⟩ := Store.Tidy.build h hbuilt
  cases w with
  | nil =>
    cases vs with
    | nil => rfl
    | cons v vs => simp [Load.values] at hvalues
  | cons n w =>
    cases vs with
    | nil => cases hvalues
    | cons v vs =>
      rw [place_eq_complete _ _ (hw.first_ne_nil (Load.strand_ne_nil (List.cons_ne_nil n w)))]
      obtain ⟨htopped, -⟩ := store.flags_topped (Load.strand (n :: w)).first
        (Load.strand (n :: w)).last
      refine (complete_quiet ((htopped.trans hsettings) ▸ interval)
        ((htopped.trans hsettings) ▸ threshold)).trans ?_
      rw [List.length_cons, Nat.min_eq_left (Nat.succ_le_succ (Nat.zero_le _)),
        ← Context.iterate_count]
      rfl

/-- The batch and the pushes one by one succeed together, and leave the same store. -/
theorem Tidy.putEach_eq_put : t.putEach grants vs = (t.put grants vs).map fun u =>
    ⟨u.store, t.context.counts vs.length⟩ := by
  rw [h.putEach_quiet grants vs interval threshold, h.put_quiet grants vs interval threshold,
    Option.map_map]
  rfl

end

end Turn

end RecyclingStack
