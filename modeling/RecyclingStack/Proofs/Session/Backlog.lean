import RecyclingStack.Proofs.Memory.Backlog
import RecyclingStack.Proofs.Session.Grace
import RecyclingStack.Proofs.Session.Reclaiming

/-! The deferred lists of a session with a threshold, as long as there are no orphans. Whatever the
handles do, none holds back more nodes than the threshold and the grace period together. -/
namespace RecyclingStack

namespace Session

variable {α : Type} {s t : Session α} {h k threshold : Nat} {c : Context} {dead : List Link}
  {live : Load (Payload α)} {held : List (Load (Payload α))}

def Slim (s : Session α) (threshold : Nat) : Prop :=
  ∀ (k : Nat) (c : Context), s.contexts[k]? = some (some c) → (Turn.mk s.store c).Slim threshold

def Orphanless (s : Session α) : List (Move α) → Prop
  | [] => s.store.orphans = .nil
  | m :: moves => s.store.orphans = .nil ∧ (s.move m).Orphanless moves

instance decidableOrphanless : (s : Session α) → (moves : List (Move α)) →
    Decidable (s.Orphanless moves)
  | _, [] => inferInstanceAs (Decidable (_ = _))
  | s, m :: moves =>
    have := decidableOrphanless (s.move m) moves
    inferInstanceAs (Decidable (_ ∧ _))

theorem Orphanless.now {moves : List (Move α)} (h : s.Orphanless moves) :
    s.store.orphans = .nil := by
  cases moves with
  | nil => exact h
  | cons m moves => exact h.1

theorem Slim.move (hslim : s.Slim threshold) (hs : s.Sound dead live held) (htagged : s.Tagged)
    (hnil : s.store.orphans = .nil)
    (hthreshold : s.store.settings.retireThreshold = some threshold)
    (hroom : s.store.epoch + 1 < fullWord) (m : Move α)
    (hepoch : s.store.epoch ≤ (s.move m).store.epoch) : (s.move m).Slim threshold := by
  have hothers : ∀ (k : Nat) (c : Context), s.contexts[k]? = some (some c) →
      (Turn.mk (s.move m).store c).Slim threshold := by
    intro k c hc
    rw [Turn.Slim, (hs.drift m).settings_eq]
    exact (hslim k c hc).mono hepoch
  rcases s.changes_move m with hrests | ⟨granted, f, below, rfl, frames, hchanges⟩
  · exact fun k c hc => hothers k c (hrests.contexts ▸ hc)
  have hturn : ∀ {h : Nat} {seat : Seat}, s.seat? h = some seat →
      (Turn.mk s.store seat.context).Slim threshold ∧ seat.context.deferred.InOrder :=
    fun hseat => ⟨hslim _ _ (contexts_of_seat hseat),
      (htagged _ _ (contexts_of_seat hseat)).inOrder⟩
  refine hchanges.each (P := fun turn => turn.Slim threshold) hothers Backlog.nil
    fun turn htakes => ?_
  cases htakes with
  | pops idle =>
    obtain ⟨hslim, horder⟩ := hturn (idle?_eq_some.1 idle)
    exact hslim.pop hroom horder hnil hthreshold
  | advances idle =>
    obtain ⟨hslim, horder⟩ := hturn (idle?_eq_some.1 idle)
    exact hslim.advance hroom horder hnil
  | reclaims idle =>
    obtain ⟨hslim, horder⟩ := hturn (idle?_eq_some.1 idle)
    exact hslim.reclaim horder hnil
  | setsOps idle => exact (hturn (idle?_eq_some.1 idle)).1
  | @publishes _ i g last _ seated =>
    obtain ⟨hslim, horder⟩ := hturn seated
    exact Turn.Slim.complete (t := ⟨s.store.publish (.node i g) last, _⟩) hroom hslim horder hnil

theorem Slim.play (hslim : s.Slim threshold) (hs : s.Sound dead live held) (htagged : s.Tagged)
    (hthreshold : s.store.settings.retireThreshold = some threshold) {moves : List (Move α)}
    (hadvancing : s.Advancing moves) (hnil : s.Orphanless moves) :
    (s.play moves).Slim threshold := by
  induction moves generalizing s dead live held with
  | nil => exact hslim
  | cons m moves ih =>
    obtain ⟨_, _, _, hmoved, -⟩ := hs.move m
    have hroom : s.store.epoch + 1 < fullWord := by
      have hlt := hadvancing.1
      omega
    refine ih ?_ hmoved (htagged.move hs m) ?_ hadvancing.2.2 hnil.2
    · exact hslim.move hs htagged hnil.now hthreshold hroom m hadvancing.le_move
    · rw [(hs.drift m).settings_eq, hthreshold]

/-- With a threshold, in every state of a run whose epoch only advances and which never has an
orphan, no handle holds back more nodes than the threshold and the grace period together. -/
theorem backlog_play (p : Plan) (moves : List (Move α)) {seat : Seat}
    (hthreshold : p.settings.retireThreshold = some threshold)
    (hadvancing : (ofPlan p).Advancing moves) (hnil : (ofPlan p).Orphanless moves)
    (hseat : ((ofPlan p).play moves).seat? k = some seat) :
    seat.context.deferred.count ≤ threshold + p.settings.gracePeriod := by
  have hs := sound_ofPlan (α := α) p
  have hslim : ((ofPlan p).play moves).Slim threshold :=
    Slim.play (fun k c hc => by cases hc) hs (tagged_ofPlan p []) hthreshold hadvancing hnil
  have hbacklog := hslim k seat.context (contexts_of_seat hseat)
  rw [← (tagged_ofPlan p moves k seat.context (contexts_of_seat hseat)).inOrder.length_epochs]
  have hgrace : ((ofPlan p).play moves).store.settings.gracePeriod = p.settings.gracePeriod :=
    congrArg Settings.gracePeriod (hs.settings_play moves)
  rw [← hgrace]
  exact hbacklog.length_le

def strict : Plan := ⟨⟨2, 0, some 1⟩, none⟩

/-- Three pops by one handle, and one by another. -/
def unstacking : List (Move Nat) :=
  Move.inTurn 4 [.register 0, .register 0, .push 0 (.plain 1), .push 0 (.plain 2),
    .push 1 (.plain 3), .push 1 (.plain 4), .pop 0, .pop 1, .pop 0, .pop 0]

theorem backlog_unstacking : ∃ seat, ((ofPlan strict).play unstacking).seat? 0 = some seat ∧
    seat.context.deferred.count = 3 ∧ seat.context.deferred.count ≤ 1 + 2 := by
  obtain ⟨seat, hseat⟩ : ∃ seat, ((ofPlan strict).play unstacking).seat? 0 = some seat :=
    Option.isSome_iff_exists.1 (by decide +kernel)
  have hcount : (((ofPlan strict).play unstacking).seat? 0).map
      (fun seat => seat.context.deferred.count) = some 3 := by decide +kernel
  rw [hseat] at hcount
  exact ⟨seat, hseat, Option.some.inj hcount,
    backlog_play strict unstacking rfl (by decide +kernel) (by decide +kernel) hseat⟩

end Session

end RecyclingStack
