import Mathlib.Algebra.BigOperators.Intervals
import RecyclingStack.Proofs.Session.Backlog

/-! The rhythm of the epoch where no threshold hurries it. It is the number of advances that were
asked for, and for each handle of as many as the interval goes into its completed operations. -/
namespace RecyclingStack

namespace Turn

variable {β : Type} {t : Turn β}

/-- The epoch makes up for what the count of operations gains in whole intervals. -/
theorem complete_paced (hthreshold : t.store.settings.retireThreshold = none)
    (hops : t.context.ops + 1 < fullWord) (hepoch : t.store.epoch + 1 < fullWord) :
    t.complete.state.context.ops = t.context.ops + 1 ∧
      t.complete.state.store.settings = t.store.settings ∧
      t.complete.state.store.epoch = t.store.epoch +
        if t.store.settings.advanceInterval ∣ t.context.ops + 1 then 1 else 0 := by
  have hcount : t.context.count.ops = t.context.ops + 1 := Nat.mod_eq_of_lt hops
  have hmust : t.context.count.mustAdvance t.store.settings = true ↔
      t.store.settings.advanceInterval ∣ t.context.ops + 1 := by
    rw [Context.mustAdvance, hthreshold, hcount]
    rcases Nat.eq_zero_or_pos t.store.settings.advanceInterval with hzero | hpos
    · simp [hzero]
    · simp [hpos, Nat.dvd_iff_mod_eq_zero]
  simp only [complete, hmust]
  split
  · exact ⟨(ops_reclaim _).trans hcount, rfl, Nat.mod_eq_of_lt hepoch⟩
  · exact ⟨hcount, rfl, rfl⟩

theorem pop_paced {v : β} (hpop : t.pop.answer = some v)
    (hthreshold : t.store.settings.retireThreshold = none)
    (hops : t.context.ops + 1 < fullWord) (hepoch : t.store.epoch + 1 < fullWord) :
    t.pop.state.context.ops = t.context.ops + 1 ∧
      t.pop.state.store.settings = t.store.settings ∧
      t.pop.state.store.epoch = t.store.epoch +
        if t.store.settings.advanceInterval ∣ t.context.ops + 1 then 1 else 0 := by
  rcases t.pop_cases with hnone | ⟨w, hsome⟩
  · rw [hnone] at hpop
    cases hpop
  · rw [hsome]
    exact complete_paced (t := t.retired t.store.head) hthreshold hops hepoch

theorem pop_eq_self (hpop : t.pop.answer = none) : t.pop.state = t := by
  rcases t.pop_cases with hnone | ⟨w, hsome⟩
  · rw [hnone]
  · rw [hsome] at hpop
    cases hpop

end Turn

/-- An operation is completed: a value is popped, or all that was pushed in one call published. -/
def Note.completes {β : Type} : Note β → Bool
  | .published | .popped _ => true
  | _ => false

/-- The handle whose operation the frame belongs to, if it can complete one. -/
def Frame.worker? {α : Type} : Frame α → Option Nat
  | .perform (.pop handle) | .popUpTo handle _ _ | .batch handle _ _ _ => some handle
  | _ => none

namespace Session

variable {α : Type} {s t : Session α} {f : Frame α} {granted : Bool} {h : Nat} {c : Context}
  {turn : Turn (Payload α)} {dead : List Link} {live u : Load (Payload α)}
  {held : List (Load (Payload α))} {asked : Nat} {tally : Nat → Nat}

/-- The handle that completes an operation by going on with this frame. -/
def completer? (s : Session α) (f : Frame α) : Option Nat :=
  if (s.notesOf f).any Note.completes then f.worker? else none

/-- The frame is an advance asked for, by a handle that can. -/
def advances (s : Session α) : Frame α → Bool
  | .perform (.advance handle) => (s.idle? handle).isSome
  | _ => false

/-- The frame gives the epoch, or the count of operations of a handle, a value of choice. -/
def sets (s : Session α) : Frame α → Bool
  | .perform (.setEpoch reference _) => s.refers reference
  | .perform (.setOps handle _) => (s.idle? handle).isSome
  | _ => false

def frame? (s : Session α) : Move α → Option (Frame α)
  | .call _ => none
  | .go _ => s.frames.head?

/-- The number of operations that a handle completes along the moves. -/
def completed (s : Session α) (handle : Nat) : List (Move α) → Nat
  | [] => 0
  | m :: moves => (if (s.frame? m).bind s.completer? = some handle then 1 else 0) +
      (s.move m).completed handle moves

/-- The number of advances that are asked for along the moves. -/
def advanced (s : Session α) : List (Move α) → Nat
  | [] => 0
  | m :: moves => (if (s.frame? m).any s.advances then 1 else 0) + (s.move m).advanced moves

def Roomy (s : Session α) : Prop :=
  s.store.epoch < fullWord - 1 ∧ ∀ o ∈ s.contexts, ∀ c ∈ o, c.ops < fullWord - 1

/-- Along the moves no counter is set, and none reaches its last value. -/
def Counting (s : Session α) : List (Move α) → Prop
  | [] => s.Roomy
  | m :: moves => s.Roomy ∧ (s.frame? m).any s.sets = false ∧ (s.move m).Counting moves

instance (s : Session α) : Decidable s.Roomy := inferInstanceAs (Decidable (_ ∧ _))

instance decidableCounting : (s : Session α) → (moves : List (Move α)) →
    Decidable (s.Counting moves)
  | s, [] => inferInstanceAs (Decidable s.Roomy)
  | s, m :: moves =>
    have := decidableCounting (s.move m) moves
    inferInstanceAs (Decidable (_ ∧ _ ∧ _))

/-- The epoch is what the advances asked for and the operations of each handle amount to. -/
structure Paced (s : Session α) (asked : Nat) (tally : Nat → Nat) : Prop where
  ops : ∀ (k : Nat) (c : Context), s.contexts[k]? = some (some c) → c.ops = tally k
  unborn : ∀ k, s.contexts.length ≤ k → tally k = 0
  epoch : s.store.epoch = asked +
    ∑ k ∈ Finset.range s.contexts.length, tally k / s.store.settings.advanceInterval

theorem Roomy.ops_lt (hroom : s.Roomy) (hc : s.contexts[h]? = some (some c)) :
    c.ops + 1 < fullWord := by
  have hlt := hroom.2 _ (List.mem_of_getElem? hc) c rfl
  omega

theorem Roomy.epoch_lt (hroom : s.Roomy) : s.store.epoch + 1 < fullWord := by
  have hlt := hroom.1
  omega

namespace Paced

theorem same (hp : s.Paced asked tally) (hepoch : t.store.epoch = s.store.epoch)
    (hsettings : t.store.settings = s.store.settings)
    (hlength : t.contexts.length = s.contexts.length)
    (hops : ∀ (k : Nat) (c : Context), t.contexts[k]? = some (some c) → c.ops = tally k) :
    t.Paced asked tally where
  ops := hops
  unborn := hlength ▸ hp.unborn
  epoch := by rw [hepoch, hsettings, hlength, hp.epoch]

theorem rests (hp : s.Paced asked tally) (hepoch : t.store.epoch = s.store.epoch)
    (hsettings : t.store.settings = s.store.settings) (hcontexts : t.contexts = s.contexts) :
    t.Paced asked tally :=
  hp.same hepoch hsettings (congrArg List.length hcontexts) (hcontexts ▸ hp.ops)

/-- A handle whose count of operations becomes `n`. -/
theorem ops_turn (hp : s.Paced asked tally) {n : Nat}
    (hcontexts : t.contexts = s.contexts.set h (some turn.context)) (hn : turn.context.ops = n)
    (k : Nat) (c : Context) (hk : t.contexts[k]? = some (some c)) :
    c.ops = if h = k then n else tally k := by
  rw [hcontexts, List.getElem?_set] at hk
  split at hk
  · split at hk <;> cases hk
    rw [hn, if_pos ‹_›]
  · rw [if_neg ‹_›]
    exact hp.ops k c hk

/-- A turn that completes no operation, and advances the epoch by `n`. -/
theorem turns (hp : s.Paced asked tally) {n : Nat} (hturns : s.Turns t h turn)
    (hc : s.contexts[h]? = some (some c)) (hops : turn.context.ops = c.ops)
    (hsettings : turn.store.settings = s.store.settings)
    (hepoch : turn.store.epoch = s.store.epoch + n) : t.Paced (asked + n) tally := by
  have hlength : t.contexts.length = s.contexts.length := by
    rw [hturns.contexts, List.length_set]
  refine ⟨fun k d hk => ?_, hlength ▸ hp.unborn, ?_⟩
  · rw [hp.ops_turn hturns.contexts (hops.trans (hp.ops h c hc)) k d hk]
    split
    · rename_i heq
      rw [heq]
    · rfl
  · rw [hturns.store, hepoch, hsettings, hlength, hp.epoch]
    omega

/-- A turn that completes an operation. -/
theorem completes (hp : s.Paced asked tally) (hturns : s.Turns t h turn)
    (hc : s.contexts[h]? = some (some c)) (hops : turn.context.ops = c.ops + 1)
    (hsettings : turn.store.settings = s.store.settings)
    (hepoch : turn.store.epoch = s.store.epoch +
      if s.store.settings.advanceInterval ∣ c.ops + 1 then 1 else 0) :
    t.Paced asked fun k => tally k + if h = k then 1 else 0 := by
  have hlength : t.contexts.length = s.contexts.length := by
    rw [hturns.contexts, List.length_set]
  have hlt : h < s.contexts.length := (List.getElem?_eq_some_iff.1 hc).1
  rw [hp.ops h c hc] at hops hepoch
  refine ⟨fun k d hk => ?_, fun k hk => ?_, ?_⟩
  · rw [hp.ops_turn hturns.contexts hops k d hk]
    split
    · rename_i heq
      rw [heq]
    · rfl
  · rw [hlength] at hk
    rw [hp.unborn k hk, if_neg (by omega)]
  · -- only the term of this handle grows, by what the epoch is advanced
    have hterm : ∀ k, (tally k + if h = k then 1 else 0) / s.store.settings.advanceInterval =
        tally k / s.store.settings.advanceInterval +
          if h = k then (if s.store.settings.advanceInterval ∣ tally h + 1 then 1 else 0)
          else 0 := by
      intro k
      split
      · rename_i heq
        rw [heq, Nat.succ_div]
      · rfl
    rw [hturns.store, hepoch, hsettings, hlength, hp.epoch]
    simp only [hterm]
    rw [Finset.sum_add_distrib, Finset.sum_ite_eq, if_pos (Finset.mem_range.2 hlt), Nat.add_assoc]

/-- A handle more, which has done nothing. -/
theorem registers (hp : s.Paced asked tally) (hstore : t.store = s.store)
    (hcontexts : t.contexts = s.contexts ++ [some (Context.register s.store)]) :
    t.Paced asked tally := by
  have hlength : t.contexts.length = s.contexts.length + 1 := by
    rw [hcontexts, List.length_append, List.length_singleton]
  have hnew := hp.unborn s.contexts.length (Nat.le_refl _)
  refine ⟨fun k c hk => ?_, fun k hk => hp.unborn k (by omega), ?_⟩
  · rw [hcontexts, List.getElem?_append] at hk
    split at hk
    · exact hp.ops k c hk
    · rw [List.getElem?_singleton] at hk
      split at hk
      · cases hk
        rw [show k = s.contexts.length by omega, hnew]
        rfl
      · cases hk
  · rw [hstore, hlength, Finset.sum_range_succ, hnew, Nat.zero_div, Nat.add_zero]
    exact hp.epoch

end Paced

/-- The two kinds of frames that complete an operation. -/
theorem completer?_eq_some (hf : s.completer? f = some h) :
    ((f = .perform (.pop h) ∨ ∃ limit got, limit ≠ some 0 ∧ f = .popUpTo h limit got) ∧
        ∃ p, s.poppable h = some p) ∨
      ∃ i g last, f = .batch h (.node i g) last [] ∧ s.store.shutdown = false := by
  rw [completer?] at hf
  split at hf
  case isFalse => cases hf
  case isTrue hany =>
    have hpoppable : ((s.poppable h).toList.map Note.popped).any Note.completes = true →
        ∃ p, s.poppable h = some p := by
      cases s.poppable h with
      | none => exact fun hany => by cases hany
      | some p => exact fun _ => ⟨p, rfl⟩
    unfold Frame.worker? at hf
    split at hf
    · cases hf
      exact .inl ⟨.inl rfl, hpoppable hany⟩
    · rename_i limit got
      cases hf
      by_cases hlimit : limit = some 0
      · rw [notesOf, if_pos hlimit] at hany
        cases hany
      · rw [notesOf, if_neg hlimit] at hany
        exact .inl ⟨.inr ⟨limit, got, hlimit, rfl⟩, hpoppable hany⟩
    · rename_i first last items
      cases hf
      rcases items with _ | ⟨item | _ | _, items⟩
      · cases first with
        | nil => cases hany
        | node i g =>
          refine .inr ⟨i, g, last, rfl, Bool.eq_false_iff.2 fun hshut => ?_⟩
          rw [notesOf, hshut] at hany
          cases hany
      all_goals cases hany
    · cases hf

/-- A pop that is not noted has got nothing. -/
theorem answer_of_not_completer (hf : s.completer? f = none)
    (frame : f = .perform (.pop h) ∨ ∃ limit got, limit ≠ some 0 ∧ f = .popUpTo h limit got)
    (hidle : s.idle? h = some c) : (Turn.mk s.store c).pop.answer = none := by
  have hpoppable : s.poppable h = (Turn.mk s.store c).pop.answer := by
    rw [poppable, hidle]
    rfl
  rw [← hpoppable]
  cases hpop : s.poppable h with
  | none => rfl
  | some p =>
    rcases frame with rfl | ⟨limit, got, hlimit, rfl⟩
    · rw [completer?, notesOf, hpop] at hf
      cases hf
    · rw [completer?, notesOf, if_neg hlimit, hpop] at hf
      cases hf

theorem turns_pop
    (frame : f = .perform (.pop h) ∨ ∃ limit got, limit ≠ some 0 ∧ f = .popUpTo h limit got)
    (hidle : s.idle? h = some c) :
    s.Turns (s.resume granted f) h (Turn.mk s.store c).pop.state := by
  rcases frame with rfl | ⟨limit, got, hlimit, rfl⟩
  · simp only [resume, perform, withHandle_idle hidle]
    exact (turns_settle s h _).enter _
  · simp only [resume, if_neg hlimit, hidle]
    split <;> exact (turns_settle s h _).enter _

theorem turns_publish {i g : Nat} {last : Link} {seat : Seat} (hshut : s.store.shutdown = false)
    (hseat : s.seat? h = some seat) :
    s.Turns (s.resume granted (.batch h (.node i g) last [])) h
      ((Turn.mk s.store seat.context).publish (.node i g) last).state := by
  simp only [resume, closeBatch, hshut, hseat, Bool.false_eq_true, if_false]
  exact (turns_settle s h _).enter (.finish .done)

/-- An advance asked for. -/
theorem Paced.advances (hp : s.Paced asked tally) (hroom : s.Roomy) (hf : s.advances f = true)
    (granted : Bool) : (s.resume granted f).Paced (asked + 1) tally := by
  unfold Session.advances at hf
  split at hf
  · obtain ⟨c, hidle⟩ := Option.isSome_iff_exists.1 hf
    simp only [Session.resume, perform, withHandle_idle hidle]
    exact hp.turns ((turns_settle s _ _).enter _) (contexts_of_seat (idle?_eq_some.1 hidle))
      (Turn.ops_reclaim _) rfl (Nat.mod_eq_of_lt hroom.epoch_lt)
  · cases hf

/-- A frame that neither completes an operation nor is an advance asked for. -/
theorem Paced.idles (hp : s.Paced asked tally) (hsets : s.sets f = false)
    (hf : s.completer? f = none) (hadvances : s.advances f = false) (granted : Bool) :
    (s.resume granted f).Paced asked tally := by
  have hchanges : s.Changes granted f (s.resume granted f) := (s.steps_resume f).changes
  cases hchanges with
  | rests rests =>
    exact hp.rests (congrArg Store.epoch rests.store) (congrArg Store.settings rests.store)
      rests.contexts
  | registers _ store contexts => exact hp.registers store contexts
  | leaves idle store contexts =>
    refine hp.same ?_ ?_ (by rw [contexts, List.length_set]) fun k c hk => ?_
    · rw [store]
      exact Store.epoch_orphan _ _
    · rw [store]
      exact Store.settings_orphan _ _
    · rw [contexts, List.getElem?_set] at hk
      split at hk
      · split at hk <;> cases hk
      · exact hp.ops k c hk
  | pops frame idle turns =>
    rw [Turn.pop_eq_self (answer_of_not_completer hf frame idle)] at turns
    exact hp.turns (n := 0) turns (contexts_of_seat (idle?_eq_some.1 idle)) rfl rfl rfl
  | advances idle =>
    rw [Session.advances, idle] at hadvances
    cases hadvances
  | reclaims idle turns =>
    exact hp.turns (n := 0) turns (contexts_of_seat (idle?_eq_some.1 idle)) (Turn.ops_reclaim _)
      rfl rfl
  | setsOps idle =>
    rw [sets, idle] at hsets
    cases hsets
  | setsEpoch refers =>
    rw [sets, refers] at hsets
    cases hsets
  | shuts _ store contexts => exact hp.rests (by rw [store]) (by rw [store]) contexts
  | publishes running =>
    rw [completer?, notesOf, running] at hf
    cases hf
  | allocates _ store contexts | frees store contexts =>
    exact hp.rests (by rw [store]; rfl) (by rw [store]; rfl) contexts
  | empties _ take store contexts =>
    obtain ⟨-, rfl⟩ := Store.takeValue_eq_some take
    exact hp.rests (by rw [store]; rfl) (by rw [store]; rfl) contexts

/-- What goes on with a frame keeps the pace. -/
theorem Paced.resume (hp : s.Paced asked tally) (hs : (s.enter f).Sound dead live (u :: held))
    (hthreshold : s.store.settings.retireThreshold = none) (hroom : s.Roomy)
    (hsets : s.sets f = false) (granted : Bool) :
    (s.resume granted f).Paced (asked + if s.advances f then 1 else 0)
      fun k => tally k + if s.completer? f = some k then 1 else 0 := by
  cases hf : s.completer? f with
  | some h =>
    have hadvances : s.advances f = false := by
      rcases completer?_eq_some hf with ⟨rfl | ⟨_, _, _, rfl⟩, -⟩ | ⟨_, _, _, rfl, -⟩ <;> rfl
    simp only [hadvances, Bool.false_eq_true, if_false, Nat.add_zero, Option.some.injEq]
    rcases completer?_eq_some hf with ⟨frame, p, hpop⟩ | ⟨i, g, last, rfl, hshut⟩
    · obtain ⟨c, hidle, hanswer⟩ := Option.bind_eq_some_iff.1 hpop
      have hc := contexts_of_seat (idle?_eq_some.1 hidle)
      obtain ⟨hops, hsettings, hepoch⟩ := Turn.pop_paced hanswer hthreshold (hroom.ops_lt hc)
        hroom.epoch_lt
      exact hp.completes (turns_pop frame hidle) hc hops hsettings hepoch
    · obtain ⟨c, hseat⟩ := hs.toKept.exists_seat rfl
      have hc := contexts_of_seat hseat
      obtain ⟨hops, hsettings, hepoch⟩ := Turn.complete_paced
        (t := ⟨s.store.publish (.node i g) last, c⟩) hthreshold (hroom.ops_lt hc) hroom.epoch_lt
      exact hp.completes (turns_publish hshut hseat) hc hops hsettings hepoch
  | none =>
    simp only [reduceCtorEq, if_false, Nat.add_zero]
    cases hadvances : s.advances f with
    | true => exact hp.advances hroom hadvances granted
    | false => exact hp.idles hsets hf hadvances granted

theorem Paced.move {m : Move α} (hp : s.Paced asked tally) (hs : s.Sound dead live held)
    (hthreshold : s.store.settings.retireThreshold = none) (hroom : s.Roomy)
    (hsets : (s.frame? m).any s.sets = false) :
    (s.move m).Paced (asked + if (s.frame? m).any s.advances then 1 else 0)
      fun k => tally k + if (s.frame? m).bind s.completer? = some k then 1 else 0 := by
  cases m with
  | call op =>
    simp only [Session.move]
    split
    · exact ⟨hp.ops, hp.unborn, hp.epoch⟩
    · exact hp
  | go granted =>
    rcases s with ⟨store, references, handles, frames, events, answer⟩
    cases frames with
    | nil => exact hp
    | cons f below =>
      cases held with
      | nil => cases hs.owned
      | cons u held =>
        exact Paced.resume (s := ⟨store, references, handles, below, events, answer⟩)
          ⟨hp.ops, hp.unborn, hp.epoch⟩ hs hthreshold hroom hsets granted

/-- The pace is kept all along. -/
theorem Paced.play (hp : s.Paced asked tally) (hs : s.Sound dead live held)
    (hthreshold : s.store.settings.retireThreshold = none) {moves : List (Move α)}
    (hcounting : s.Counting moves) :
    (s.play moves).Paced (asked + s.advanced moves) fun k => tally k + s.completed k moves := by
  induction moves generalizing s asked tally dead live held with
  | nil => exact hp
  | cons m moves ih =>
    obtain ⟨hroom, hsets, hrest⟩ := hcounting
    obtain ⟨_, _, _, hmoved, -⟩ := hs.move m
    have hplay := ih (hp.move hs hthreshold hroom hsets) hmoved
      (by rwa [(hs.drift m).settings_eq]) hrest
    simp only [Nat.add_assoc] at hplay
    exact hplay

theorem paced_ofPlan (p : Plan) : (ofPlan p : Session α).Paced 0 fun _ => 0 where
  ops := fun k c hk => by cases hk
  unborn := fun _ _ => rfl
  epoch := rfl

theorem length_contexts (s : Session α) : s.contexts.length = s.handles.length := List.length_map _

/-- Without a threshold, the epoch is the number of advances that were asked for and, for every
handle that was ever registered, the number of intervals in its completed operations. -/
theorem epoch_play (p : Plan) (moves : List (Move α))
    (hthreshold : p.settings.retireThreshold = none) (hcounting : (ofPlan p).Counting moves) :
    ((ofPlan p).play moves).store.epoch = (ofPlan p).advanced moves +
      if p.settings.advanceInterval = 0 then 0
      else ∑ h ∈ Finset.range ((ofPlan p).play moves).handles.length,
        (ofPlan p).completed h moves / p.settings.advanceInterval := by
  have hs := sound_ofPlan (α := α) p
  have hepoch := ((paced_ofPlan p).play hs hthreshold hcounting).epoch
  rw [hs.settings_play, length_contexts] at hepoch
  simp only [Nat.zero_add] at hepoch
  refine hepoch.trans (congrArg _ ?_)
  split
  · rename_i hzero
    refine Finset.sum_eq_zero fun h _ => ?_
    have hinterval : (ofPlan p : Session α).store.settings.advanceInterval = 0 := hzero
    rw [hinterval, Nat.div_zero]
  · rfl

def rhythmic : Plan := ⟨⟨1, 2, none⟩, none⟩

/-- Five operations of one handle and one of another, which is a batch. An advance, a pop from an
empty stack, an empty batch and the drop of a handle do not count. -/
def drumming : List (Move Nat) :=
  Move.inTurn 7 [.register 0, .register 0, .pop 0, .push 0 (.plain 1), .push 0 (.plain 2),
    .pushBatch 1 [.payload (.plain 3), .payload (.plain 4)], .advance 1, .pushBatch 0 [], .pop 0,
    .pop 0, .dropHandle 1, .pop 0]

theorem epoch_drumming :
    ((ofPlan rhythmic).play drumming).store.epoch = 1 + (5 / 2 + 1 / 2) := by
  rw [epoch_play rhythmic drumming rfl (by decide +kernel)]
  decide +kernel

end Session

end RecyclingStack
