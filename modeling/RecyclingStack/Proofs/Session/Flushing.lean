import RecyclingStack.Proofs.Memory.Flushing
import RecyclingStack.Proofs.Session.Timely

/-! Advancing one handle over and over. One call more than the grace period says recycles whatever
the handle had deferred and whatever was orphaned. -/
namespace RecyclingStack

namespace Session

variable {α : Type} {s t u : Session α} {h n : Nat} {c : Context} {counts : List Nat} {l : Link}
  {below : List (Frame α)} {dead : List Link} {live : Load (Payload α)}
  {held : List (Load (Payload α))}

/-- Calls of an advance on one handle, one right after the other, and what they answer. In between
nothing happens to the shared state or to a handle. -/
inductive Advances (h : Nat) (s : Session α) : List Nat → Session α → Prop where
  | none : Advances h s [] s
  | again {counts : List Nat} {t u : Session α} {n : Nat} {below : List (Frame α)} (granted : Bool)
      (before : Advances h s counts t) (store : u.store = t.store) (handles : u.handles = t.handles)
      (frames : u.frames = .perform (.advance h) :: below)
      (answer : (u.stepWith granted).frames = .finish (.number n) :: below) :
      Advances h s (counts ++ [n]) (u.stepWith granted)

theorem stepWith_advance (granted : Bool) (frames : s.frames = .perform (.advance h) :: below)
    (idle : s.idle? h = some c) : s.stepWith granted =
      (({ s with frames := below } : Session α).settle h (Turn.mk s.store c).advance).conclude
        (.number (Turn.mk s.store c).advance.answer) := by
  rw [stepWith_cons granted frames, resume, perform]
  exact withHandle_idle (s := { s with frames := below }) idle _

theorem idle?_settle {β : Type} {seat : Seat} (hseat : s.seat? h = some seat)
    (e : Effect (Turn (Payload α)) β) : (s.settle h e).idle? h = some e.state.context := by
  refine idle?_eq_some.2 ?_
  exact (seat?_setSeat (s := { s with store := e.state.store }) (lt_of_seat hseat) _ h).trans
    (if_pos rfl)

/-- A call takes the turn of the handle, and answers what this answers. -/
theorem advance_stepWith (granted : Bool) (handles : u.handles = t.handles)
    (frames : u.frames = .perform (.advance h) :: below) (idle : t.idle? h = some c) :
    (u.stepWith granted).frames = .finish (.number (Turn.mk u.store c).advance.answer) :: below ∧
      (u.stepWith granted).store = (Turn.mk u.store c).advance.state.store ∧
      (u.stepWith granted).idle? h = some (Turn.mk u.store c).advance.state.context := by
  have hseat : u.seat? h = some ⟨c, false⟩ := by
    rw [seat?, handles]
    exact idle?_eq_some.1 idle
  rw [stepWith_advance granted frames (idle?_eq_some.2 hseat)]
  exact ⟨rfl, rfl, idle?_settle (s := { u with frames := below }) hseat _⟩

/-- The handle stays idle from call to call. -/
theorem Advances.idle (ha : Advances h s counts t) (idle : s.idle? h = some c) :
    ∃ c', t.idle? h = some c' := by
  induction ha with
  | none => exact ⟨c, idle⟩
  | again granted _ _ handles frames _ ih =>
    obtain ⟨c', idle'⟩ := ih
    exact ⟨_, (advance_stepWith granted handles frames idle').2.2⟩

/-- There can always be another call. -/
theorem exists_advances (idle : s.idle? h = some c) (n : Nat) :
    ∃ counts t, Advances h s counts t ∧ counts.length = n := by
  induction n with
  | zero => exact ⟨[], s, .none, rfl⟩
  | succ n ih =>
    obtain ⟨counts, t, ha, hlength⟩ := ih
    obtain ⟨c', idle'⟩ := ha.idle idle
    have hcall := advance_stepWith (u := { t with frames := [.perform (.advance h)] }) true rfl rfl
      idle'
    refine ⟨_, _, .again (u := { t with frames := [.perform (.advance h)] }) true ha rfl rfl rfl
      hcall.1, ?_⟩
    rw [List.length_append, hlength, List.length_singleton]

/-- How far some calls have come, as turns of the handle. -/
theorem Advances.flushed {rest : List (Strand (Payload α))}
    (ha : Advances h s counts t) (idle : s.idle? h = some c) (htagged : (Turn.mk s.store c).Tagged)
    (htidy : (Turn.mk s.store c).Tidy live.strand rest)
    (hroom : s.store.epoch + counts.length < fullWord) :
    ∃ c', t.idle? h = some c' ∧ (Turn.mk t.store c').Tagged ∧
      (Turn.mk t.store c').Tidy live.strand rest ∧
      (counts = [] ∧ t = s ∨
        (Turn.mk s.store c).Flushed counts.length counts.sum ⟨t.store, c'⟩) := by
  induction ha with
  | none => exact ⟨c, idle, htagged, htidy, .inl ⟨rfl, rfl⟩⟩
  | @again counts t u n below granted before store handles frames answer ih =>
    rw [List.length_append, List.length_singleton] at hroom
    obtain ⟨c', idle', htagged', htidy', hbefore⟩ := ih (by omega)
    obtain ⟨hframes, hstore, hidle⟩ := advance_stepWith granted handles frames idle'
    rw [store] at hframes hstore hidle
    obtain rfl : n = (Turn.mk t.store c').advance.answer := by
      rw [answer] at hframes
      injection hframes with hfinish
      injection hfinish with houtcome
      injection houtcome
    have hturn : Turn.mk (u.stepWith granted).store (Turn.mk t.store c').advance.state.context =
        (Turn.mk t.store c').advance.state := by rw [hstore]
    refine ⟨_, hidle, hturn ▸ htagged'.advance, hturn ▸ Turn.advance_tidy htidy', .inr ?_⟩
    rw [hturn, List.length_append, List.length_singleton, List.sum_append, List.sum_singleton]
    rcases hbefore with ⟨rfl, rfl⟩ | hflushed
    · obtain rfl := Option.some.inj (idle'.symm.trans idle)
      rw [List.length_nil, List.sum_nil, Nat.zero_add, Nat.zero_add]
      exact htagged.flushed_advance htidy hroom
    · exact hflushed.advance htagged' htidy' hroom

/-- One call more than the grace period says flushes a handle with context `c`. -/
structure Flushes (s : Session α) (h : Nat) (c : Context) : Prop where
  /-- There are runs of any number of calls, and in each a further call answers with a number. -/
  runs : ∀ n, ∃ counts t, Advances h s counts t ∧ counts.length = n
  answers : ∀ {counts : List Nat} {t u : Session α} {below : List (Frame α)} (granted : Bool),
    Advances h s counts t → u.store = t.store → u.handles = t.handles →
      u.frames = .perform (.advance h) :: below →
      ∃ n, (u.stepWith granted).frames = .finish (.number n) :: below
  /-- All that was deferred or orphaned is recycled: counted in one of the answers, and on the free
  list. -/
  flushed : ∀ {counts : List Nat} {t : Session α}, Advances h s counts t →
    counts.length = s.store.settings.gracePeriod + 1 →
      counts.sum = c.deferred.count + s.store.orphanChain.length ∧
      (∃ c', t.idle? h = some c' ∧ c'.deferred.count = 0 ∧ c'.deferred.links = []) ∧
      t.store.orphans = .nil ∧
      t.store.freeList = (byKey s.store.arena.tag
        (c.deferred.links ++ s.store.orphanChain)).reverse ++ s.store.freeList ∧
      ∀ l ∈ c.deferred.links ++ s.store.orphanChain, t.store.freeList.count l = 1
  /-- A node retired at the epoch of the first call is recycled by the last call, and not before. -/
  last : ∀ {counts : List Nat} {t : Session α} {l : Link}, Advances h s counts t →
    counts.length ≤ s.store.settings.gracePeriod + 1 →
      l ∈ c.deferred.links ++ s.store.orphanChain → s.store.arena.tag l = s.store.epoch →
        (l ∈ t.store.freeList ↔ counts.length = s.store.settings.gracePeriod + 1)

theorem Sound.flushes (hs : s.Sound dead live held) (htagged : s.Tagged) (htimely : s.Timely)
    (idle : s.idle? h = some c)
    (hroom : s.store.epoch + s.store.settings.gracePeriod + 1 < fullWord) : s.Flushes h c := by
  have hseat := idle?_eq_some.1 idle
  obtain ⟨rfl, -⟩ := hs.of_seat hseat
  have hturn : (Turn.mk s.store c).Tagged := htagged h c (contexts_of_seat hseat)
  have htidy : (Turn.mk s.store c).Tidy live.strand _ := hs.toKept.tidy_turn hseat
  have hplace : ∀ l ∈ c.deferred.links ++ s.store.orphanChain,
      l ∈ s.store.orphanChain ∨ ∃ k E, s.files k E l := by
    intro l hl
    refine (List.mem_append.1 hl).symm.imp_right fun hl => ?_
    obtain ⟨E, hfiles⟩ := RetireList.mem_links.1 hl
    exact ⟨h, E, _, hseat, hfiles⟩
  have hold : ∀ l ∈ c.deferred.links ++ s.store.orphanChain,
      s.store.arena.tag l ≤ s.store.epoch := by
    intro l hl
    refine htimely _ ?_
    rcases List.mem_append.1 hl with hl | hl
    · refine .inr ⟨h, c, contexts_of_seat hseat, ?_⟩
      rw [hturn.epochs_eq]
      exact List.mem_map_of_mem hl
    · exact .inl (List.mem_map_of_mem hl)
  refine ⟨exists_advances idle, ?_, ?_, ?_⟩
  · intro counts t u below granted ha store handles frames
    obtain ⟨c', idle'⟩ := ha.idle idle
    exact ⟨_, (advance_stepWith granted handles frames idle').1⟩
  · intro counts t ha hlength
    obtain ⟨c', idle', htagged', htidy', hflushed⟩ := ha.flushed idle hturn htidy (by omega)
    have hflushed := hflushed.resolve_left fun hnone => by
      rw [hnone.1] at hlength
      cases hlength
    obtain ⟨hlinks, hfree, hcount⟩ := hflushed.all fun l hl => by
      have hle := hold l (Turn.mem_withheld.1 hl)
      simp only [Turn.dueIn, reclaimable, hlength, decide_eq_true_eq]
      omega
    refine ⟨?_, ⟨c', idle', ?_, hlinks⟩, hflushed.orphans, hfree, fun l hl => ?_⟩
    · rw [hcount, Turn.length_withheld, hturn.inOrder.count_eq]
    · rw [htagged'.inOrder.count_eq, show c'.deferred.links = [] from hlinks]
      rfl
    · refine List.count_eq_one_of_mem (Turn.freeList_nodup htidy') ?_
      rw [hfree]
      exact List.mem_append_left _ (List.mem_reverse.2 (Turn.mem_withheld.2 hl))
  · intro counts t l ha hlength hl htag
    have hnot : l ∉ s.store.freeList := fun hfree =>
      hs.partitioned.not_free (hplace l hl) (List.mem_map_of_mem hfree)
    obtain ⟨c', -, -, -, hflushed⟩ := ha.flushed idle hturn htidy (by omega)
    rcases hflushed with ⟨rfl, rfl⟩ | hflushed
    · exact ⟨fun hfree => absurd hfree hnot, fun hzero => by cases hzero⟩
    · have hdue : (Turn.mk s.store c).dueIn counts.length l = true ↔
          counts.length = s.store.settings.gracePeriod + 1 := by
        simp only [Turn.dueIn, reclaimable, htag, decide_eq_true_eq]
        omega
      rw [show t.store.freeList = _ from hflushed.free, List.mem_append, List.mem_reverse,
        List.mem_filter, hdue]
      constructor
      · exact fun hmem => (hmem.resolve_right hnot).2
      · exact fun hlast => .inl ⟨Turn.mem_withheld.2 hl, hlast⟩

/-- In any state of a run along which the epoch has not gone back, an idle handle is flushed by one
advance more than the grace period says, if the epoch has room for them. -/
theorem flushes_play (p : Plan) (moves : List (Move α)) (hclimbs : (ofPlan p).Climbs moves)
    (idle : ((ofPlan p).play moves).idle? h = some c)
    (hroom : ((ofPlan p).play moves).store.epoch + p.settings.gracePeriod + 1 < fullWord) :
    ((ofPlan p).play moves).Flushes h c := by
  obtain ⟨_, _, _, hs, -⟩ := (sound_ofPlan (α := α) p).play moves
  have hsettings := (sound_ofPlan (α := α) p).settings_play moves
  rw [show p.settings = ((ofPlan p).play moves).store.settings from hsettings.symm] at hroom
  exact hs.flushes (tagged_ofPlan p moves)
    ((sound_ofPlan p).timely_play (tagged_ofPlan p []) (timely_ofPlan p) hclimbs) idle hroom

/-- A handle goes with one node of epoch 0, and another one has deferred a node of epoch 0 and one
of epoch 1. -/
def flushing : List (Move Nat) :=
  Move.inTurn 4 [.register 0, .register 0, .push 0 (.plain 1), .push 0 (.plain 2),
    .push 0 (.plain 3), .pop 0, .pop 1, .advance 0, .pop 0, .dropHandle 1]

theorem flushes_orphan : ∃ c, ((ofPlan .default).play flushing).Flushes 0 c ∧
    ∀ {counts : List Nat} {t : Session Nat}, Advances 0 ((ofPlan .default).play flushing) counts t →
      counts.length = 2 → counts.sum = 3 := by
  obtain ⟨c, hidle⟩ : ∃ c, ((ofPlan .default).play flushing).idle? 0 = some c :=
    Option.isSome_iff_exists.1 (by decide +kernel)
  have hcount : (((ofPlan .default).play flushing).idle? 0).map (fun c => c.deferred.count) =
      some 2 := by decide +kernel
  have horphans : ((ofPlan .default).play flushing).store.orphanChain.length = 1 := by
    decide +kernel
  have hflushes := flushes_play .default flushing (by decide +kernel) hidle (by decide +kernel)
  rw [hidle] at hcount
  refine ⟨c, hflushes, fun ha hlength => ?_⟩
  obtain ⟨hsum, -⟩ := hflushes.flushed ha (hlength.trans (by decide +kernel))
  rw [hsum, horphans, show c.deferred.count = 2 from Option.some.inj hcount]

end Session

end RecyclingStack
