import RecyclingStack.Proofs.Memory.Sooner
import RecyclingStack.Proofs.Session.Conservation
import RecyclingStack.Proofs.Session.Reclaiming

/-! Two sessions that do the same things with different grace periods. Step by step the same is
under way in both; only the nodes differ, and what is told about their number. -/
namespace RecyclingStack

section

variable {α : Type}

/-- The same outcome, up to a number or a text. The values that a pop or a row of pops returns are
the same. -/
inductive Outcome.Alike : Outcome α → Outcome α → Prop where
  | same (o : Outcome α) : Alike o o
  | number (m n : Nat) : Alike (.number m) (.number n)
  | text (a b : String) : Alike (.text a) (.text b)

inductive Event.Alike : Event α → Event α → Prop where
  | dropped (v : α) : Alike (.dropped v) (.dropped v)
  | nested {o o' : Outcome α} (outcome : o.Alike o') : Alike (.nested o) (.nested o')

def Event.isTold : Event α → Bool
  | .log _ => false
  | _ => true

/-- The same thing under way, up to the nodes it has to do with. -/
inductive Frame.Alike : Frame α → Frame α → Prop where
  | perform (op : Op α) : Alike (.perform op) (.perform op)
  | hook (rest : List (Op α)) : Alike (.hook rest) (.hook rest)
  | batch (h : Nat) (first last first' last' : Link) (rest : List (Item α)) :
    Alike (.batch h first last rest) (.batch h first' last' rest)
  | rollBack (h : Nat) (unused : List (Payload α)) (cursor last cursor' last' : Link)
    (o : Outcome α) : Alike (.rollBack h unused cursor last o) (.rollBack h unused cursor' last' o)
  | release (h : Nat) (node next last node' next' last' : Link) (o : Outcome α) :
    Alike (.release h node next last o) (.release h node' next' last' o)
  | finish {o o' : Outcome α} (outcome : o.Alike o') : Alike (.finish o) (.finish o')
  | destroy (cursor cursor' : Link) (dropped : Nat) :
    Alike (.destroy cursor dropped) (.destroy cursor' dropped)
  | pushEach (h : Nat) (rest : List α) (pushed : Nat) :
    Alike (.pushEach h rest pushed) (.pushEach h rest pushed)
  | popUpTo (h : Nat) (limit : Option Nat) (got : List α) :
    Alike (.popUpTo h limit got) (.popUpTo h limit got)

structure Seat.Sooner (a b : Seat) : Prop where
  context : a.context.Sooner b.context
  busy : a.busy = b.busy

theorem forall₂_set {γ δ : Type} {R : γ → δ → Prop} {l : List γ} {m : List δ} {x : γ} {y : δ}
    (h : List.Forall₂ R l m) (hxy : R x y) (i : Nat) : List.Forall₂ R (l.set i x) (m.set i y) := by
  induction h generalizing i with
  | nil => exact .nil
  | cons hab h ih =>
    cases i with
    | zero => exact .cons hxy h
    | succ i => exact .cons hab (ih i)

theorem forall₂_getElem? {γ δ : Type} {R : γ → δ → Prop} {l : List γ} {m : List δ}
    (h : List.Forall₂ R l m) (i : Nat) : Option.Rel R l[i]? m[i]? := by
  induction h generalizing i with
  | nil => exact .none
  | cons hab h ih =>
    cases i with
    | zero => exact .some hab
    | succ i => exact ih i

theorem filter_told_log (lines : List LogLine) (events : List (Event α)) :
    (lines.map Event.log ++ events).filter Event.isTold = events.filter Event.isTold := by
  induction lines with
  | nil => rfl
  | cons line lines ih => exact ih

end

namespace Session

variable {α : Type} {s t : Session α} {h : Nat}

section

variable {dead : List Link} {live u : Load (Payload α)} {held : List (Load (Payload α))}
  {cursor last : Link} {o : Outcome α}

/-- The value that a batch given up drops next is the first one of its private chain. -/
theorem Sound.takeValue_rollBack
    (hs : (s.enter (.rollBack h [] cursor last o)).Sound dead live (u :: held)) :
    s.store.takeValue cursor =
      u.head?.map fun n => (n.2, s.store.withArena (s.store.arena.clearValue cursor)) := by
  cases u with
  | nil =>
    obtain ⟨rfl, -⟩ : cursor = Strand.first [] ∧ last = Strand.last [] :=
      (List.forall₂_cons.1 hs.owned).1
    rfl
  | cons n u =>
    obtain ⟨rfl, htake, -⟩ := hs.spill
    exact htake

/-- The node that such a batch gives back is private to it. -/
theorem Sound.tidy_release {node next : Link}
    (hs : (s.enter (.release h node next last o)).Sound dead live (u :: held)) :
    s.store.Tidy (Strand.idle dead ++ live.strand)
      ([Cell.spent node] :: u.strand :: (held.map Load.strand ++ Strand.loose s.vacant)) := by
  have htidy : s.store.Tidy (Strand.idle dead ++ live.strand) (u.strand ::
      (held.map Load.strand ++ Strand.loose ([node] ++ s.vacant))) := hs.tidy
  exact htidy.perm ((List.Perm.cons _ List.perm_middle).trans (.swap _ _ _))

/-- The value that the end of the stack drops next is the top of what is left. -/
theorem Sound.takeValue_destroy {dropped : Nat}
    (hs : (s.enter (.destroy cursor dropped)).Sound dead live ([] :: held)) :
    s.store.takeValue cursor =
      live.head?.map fun n => (n.2, s.store.withArena (s.store.arena.clearValue cursor)) := by
  obtain ⟨-, rfl, -⟩ := hs.destroying
  obtain ⟨_, heq, hkept⟩ := hs.toKept.leave rfl
  obtain rfl := (List.cons.inj heq).2
  cases live with
  | nil => rfl
  | cons n live => exact (Store.Tidy.spend (c := ⟨n.1, .full n.2⟩) hkept.tidy rfl).1

end

/-- Both sessions are at the same point, and the first has no more nodes waiting for their grace
periods to pass: with each handle and with the orphans, of every epoch. -/
structure Abreast (s t : Session α) : Prop where
  store : s.store.Sooner t.store
  references : s.references = t.references
  handles : List.Forall₂ (Option.Rel Seat.Sooner) s.handles t.handles
  frames : List.Forall₂ Frame.Alike s.frames t.frames
  events : List.Forall₂ Event.Alike (s.events.filter Event.isTold) (t.events.filter Event.isTold)
  answer : Option.Rel Outcome.Alike s.answer t.answer

namespace Abreast

theorem enter {f g : Frame α} (ab : s.Abreast t) (hf : f.Alike g) :
    (s.enter f).Abreast (t.enter g) :=
  ⟨ab.store, ab.references, ab.handles, .cons hf ab.frames, ab.events, ab.answer⟩

theorem conclude {o o' : Outcome α} (ab : s.Abreast t) (ho : o.Alike o') :
    (s.conclude o).Abreast (t.conclude o') :=
  ab.enter (.finish ho)

theorem record {e e' : Event α} (ab : s.Abreast t) (he : e.Alike e') :
    (s.record e).Abreast (t.record e') := by
  refine ⟨ab.store, ab.references, ab.handles, ab.frames, ?_, ab.answer⟩
  cases he with
  | dropped v => exact .cons (.dropped v) ab.events
  | nested ho => exact .cons (.nested ho) ab.events

theorem recordLog (ab : s.Abreast t) (lines lines' : List LogLine) :
    (s.recordLog lines).Abreast (t.recordLog lines') := by
  refine ⟨ab.store, ab.references, ab.handles, ab.frames, ?_, ab.answer⟩
  rw [Session.recordLog, Session.recordLog, filter_told_log, filter_told_log]
  exact ab.events

theorem withStore {a b : Store (Payload α)} (ab : s.Abreast t) (hstore : a.Sooner b) :
    ({ s with store := a } : Session α).Abreast { t with store := b } :=
  ⟨hstore, ab.references, ab.handles, ab.frames, ab.events, ab.answer⟩

theorem setSeat {a b : Option Seat} (ab : s.Abreast t) (hseat : Option.Rel Seat.Sooner a b)
    (h : Nat) : (s.setSeat h a).Abreast (t.setSeat h b) :=
  ⟨ab.store, ab.references, forall₂_set ab.handles hseat h, ab.frames, ab.events, ab.answer⟩

/-- A handle is there in both sessions, or in neither. -/
theorem seat_cases (ab : s.Abreast t) (h : Nat) : (s.seat? h = none ∧ t.seat? h = none) ∨
    ∃ a b, s.seat? h = some a ∧ t.seat? h = some b ∧ a.Sooner b := by
  have hentry := forall₂_getElem? ab.handles h
  rw [seat?, seat?]
  generalize s.handles[h]? = x at hentry
  generalize t.handles[h]? = y at hentry
  cases hentry with
  | none => exact .inl ⟨rfl, rfl⟩
  | some hseat =>
    cases hseat with
    | none => exact .inl ⟨rfl, rfl⟩
    | some hsooner => exact .inr ⟨_, _, rfl, rfl, hsooner⟩

/-- It is idle in both, or in neither. -/
theorem idle_cases (ab : s.Abreast t) (h : Nat) : (s.idle? h = none ∧ t.idle? h = none) ∨
    ∃ c d, s.idle? h = some c ∧ t.idle? h = some d ∧ c.Sooner d := by
  rw [idle?, idle?]
  rcases ab.seat_cases h with ⟨hs, ht⟩ | ⟨⟨c, busy⟩, ⟨d, _⟩, hs, ht, hcontext, rfl⟩
  · rw [hs, ht]
    exact .inl ⟨rfl, rfl⟩
  · rw [hs, ht]
    cases busy with
    | true => exact .inl ⟨rfl, rfl⟩
    | false => exact .inr ⟨c, d, rfl, rfl, hcontext⟩

theorem setBusy (ab : s.Abreast t) (h : Nat) (busy : Bool) :
    (s.setBusy h busy).Abreast (t.setBusy h busy) := by
  rcases ab.seat_cases h with ⟨hs, ht⟩ | ⟨a, b, hs, ht, hseat⟩
  · rwa [setBusy_of_none hs, setBusy_of_none ht]
  · rw [setBusy_eq hs, setBusy_eq ht]
    have hmarked : Option.Rel Seat.Sooner (some { a with busy }) (some { b with busy }) :=
      .some ⟨hseat.context, rfl⟩
    exact ab.setSeat hmarked h

theorem close {o o' : Outcome α} (ab : s.Abreast t) (ho : o.Alike o') (h : Nat) :
    (s.close h o).Abreast (t.close h o') :=
  (ab.setBusy h false).conclude ho

theorem settle {γ : Type} {e e' : Effect (Turn (Payload α)) γ} (ab : s.Abreast t)
    (hturn : e.state.Sooner e'.state) (h : Nat) : (s.settle h e).Abreast (t.settle h e') := by
  have hseat : Option.Rel Seat.Sooner (some (Seat.idle e.state.context))
      (some (Seat.idle e'.state.context)) := .some ⟨hturn.context, rfl⟩
  exact ((ab.withStore hturn.store).setSeat hseat h).recordLog _ _

theorem dropPayload (ab : s.Abreast t) (p : Payload α) :
    (s.dropPayload p).Abreast (t.dropPayload p) :=
  (ab.record (.dropped p.value)).enter (.hook p.onDrop)

theorem isGone_eq (ab : s.Abreast t) : s.isGone = t.isGone := by
  have hall : ∀ {l m : List (Option Seat)}, List.Forall₂ (Option.Rel Seat.Sooner) l m →
      l.all Option.isNone = m.all Option.isNone := by
    intro l m hlm
    induction hlm with
    | nil => rfl
    | cons hseat _ ih =>
      rw [List.all_cons, List.all_cons, ih]
      cases hseat <;> rfl
  rw [isGone, isGone, ab.references, hall ab.handles]

theorem afterDrop (ab : s.Abreast t) : s.afterDrop.Abreast t.afterDrop := by
  unfold Session.afterDrop
  rw [ab.isGone_eq]
  split
  · exact (ab.conclude (.same _)).enter (.destroy _ _ 0)
  · exact ab.conclude (.same _)

theorem withReference {r : Nat} {go go' : Session α} (ab : s.Abreast t)
    (hgo : s.refers r = true → t.refers r = true → go.Abreast go') :
    (s.withReference r go).Abreast (t.withReference r go') := by
  have hsame : s.refers r = t.refers r := by rw [refers, refers, ab.references]
  unfold Session.withReference
  rw [hsame]
  split
  · rename_i hr
    exact hgo (hsame.trans hr) hr
  · exact ab.conclude (.same _)

theorem withHandle {go go' : Context → Session α} (ab : s.Abreast t)
    (hgo : ∀ c d, s.idle? h = some c → t.idle? h = some d → c.Sooner d → (go c).Abreast (go' d)) :
    (s.withHandle h go).Abreast (t.withHandle h go') := by
  unfold Session.withHandle
  rcases ab.seat_cases h with ⟨hs, ht⟩ | ⟨⟨c, busy⟩, ⟨d, _⟩, hs, ht, hcontext, rfl⟩
  · rw [hs, ht]
    exact ab.conclude (.same _)
  · rw [hs, ht]
    cases busy with
    | true => exact ab.conclude (.same _)
    | false => exact hgo c d (idle?_eq_some.2 hs) (idle?_eq_some.2 ht) hcontext

theorem deliver {o o' : Outcome α} (ab : s.Abreast t) (ho : o.Alike o') :
    (s.deliver o).Abreast (t.deliver o') := by
  have hrecorded := ab.record (.nested ho)
  rcases s with ⟨store, references, handles, frames, events, answer⟩
  rcases t with ⟨store', references', handles', frames', events', answer'⟩
  obtain ⟨hstore, hreferences, hhandles, hframes, hevents, hanswer⟩ := ab
  have hwith : ∀ {fs gs : List (Frame α)}, List.Forall₂ Frame.Alike fs gs →
      Abreast ⟨store, references, handles, fs, events, answer⟩
        ⟨store', references', handles', gs, events', answer'⟩ := fun hfs =>
    ⟨hstore, hreferences, hhandles, hfs, hevents, hanswer⟩
  cases hframes with
  | nil => exact ⟨hstore, hreferences, hhandles, .nil, hevents, .some ho⟩
  | cons hf hrest =>
    cases hf with
    | pushEach h values pushed =>
      cases ho with
      | number m n => exact hwith (.cons (.finish (.number m n)) hrest)
      | text a b => exact hwith (.cons (.finish (.text a b)) hrest)
      | same o =>
        cases o with
        | done => exact hwith (.cons (.pushEach h values (pushed + 1)) hrest)
        | _ => exact hwith (.cons (.finish (.same _)) hrest)
    | _ => exact hrecorded

theorem hook (ab : s.Abreast t) (granted granted' : Bool) (ops : List (Op α)) :
    (s.resume granted (.hook ops)).Abreast (t.resume granted' (.hook ops)) := by
  cases ops with
  | nil => exact ab
  | cons op rest => exact (ab.enter (.hook rest)).enter (.perform op)

theorem pushEach (ab : s.Abreast t) (granted granted' : Bool) (h : Nat) (values : List α)
    (pushed : Nat) : (s.resume granted (.pushEach h values pushed)).Abreast
      (t.resume granted' (.pushEach h values pushed)) := by
  cases values with
  | nil => exact ab.conclude (.same _)
  | cons v rest => exact (ab.enter (.pushEach h rest pushed)).enter (.perform _)

section

variable {dead dead' : List Link} {live live' : Load (Payload α)}
  {held held' : List (Load (Payload α))} {c d : Context}
  (ab : s.Abreast t) (hs : s.Sound dead live held) (ht : t.Sound dead' live' held')
  (hlive : live.values = live'.values) (htagged : s.Tagged) (htagged' : t.Tagged)
include ab hs ht

include hlive in
/-- The stack is empty in both sessions, or in neither. -/
theorem isEmpty_eq (hgone : s.isGone = false) : s.store.isEmpty = t.store.isEmpty := by
  rw [hs.isEmpty_eq hgone, ht.isEmpty_eq (ab.isGone_eq.symm.trans hgone), hs.values_eq,
    ht.values_eq, hlive]

include htagged htagged'

omit hs ht in
theorem turns (idle : s.idle? h = some c) (idle' : t.idle? h = some d) (hcontext : c.Sooner d) :
    (Turn.mk s.store c).Sooner ⟨t.store, d⟩ ∧ (Turn.mk s.store c).Tagged ∧
      (Turn.mk t.store d).Tagged :=
  ⟨⟨ab.store, hcontext⟩, htagged h c (contexts_of_seat (idle?_eq_some.1 idle)),
    htagged' h d (contexts_of_seat (idle?_eq_some.1 idle'))⟩

include hlive in
theorem pop (idle : s.idle? h = some c) (idle' : t.idle? h = some d) (hcontext : c.Sooner d) :
    (Turn.mk s.store c).pop.state.Sooner (Turn.mk t.store d).pop.state ∧
      (Turn.mk s.store c).pop.answer = (Turn.mk t.store d).pop.answer := by
  have hseat := idle?_eq_some.1 idle
  have hseat' := idle?_eq_some.1 idle'
  obtain ⟨rfl, -⟩ := hs.of_seat hseat
  obtain ⟨rfl, -⟩ := ht.of_seat hseat'
  obtain ⟨hturn, hc, hd⟩ := ab.turns htagged htagged' idle idle' hcontext
  exact hturn.pop hc.inOrder hd.inOrder (hs.toKept.tidy_turn hseat) (ht.toKept.tidy_turn hseat')
    hlive

theorem dropHandle (idle : s.idle? h = some c) (idle' : t.idle? h = some d)
    (hcontext : c.Sooner d) :
    (Turn.mk s.store c).abandon.state.Sooner (Turn.mk t.store d).abandon.state := by
  obtain ⟨hturn, hc, hd⟩ := ab.turns htagged htagged' idle idle' hcontext
  exact hturn.abandon hc hd (hs.toKept.tidy_turn (idle?_eq_some.1 idle))
    (ht.toKept.tidy_turn (idle?_eq_some.1 idle'))

include hlive

theorem perform (op : Op α) : (s.perform op).Abreast (t.perform op) := by
  cases op with
  | cloneReference r =>
    refine ab.withReference fun _ _ => conclude ?_ (.number _ _)
    exact ⟨ab.store, congrArg (· ++ [true]) ab.references, ab.handles, ab.frames, ab.events,
      ab.answer⟩
  | dropReference r =>
    refine ab.withReference fun _ _ => afterDrop ?_
    exact ⟨ab.store, congrArg (·.set r false) ab.references, ab.handles, ab.frames, ab.events,
      ab.answer⟩
  | register r =>
    refine ab.withReference fun _ _ => conclude ?_ (.number _ _)
    refine ⟨ab.store, ab.references, ?_, ab.frames, ab.events, ab.answer⟩
    exact List.rel_append ab.handles (.cons (.some ⟨⟨ab.store.epoch, rfl, .refl _⟩, rfl⟩) .nil)
  | dropHandle h =>
    simp only [Session.perform]
    refine ab.withHandle fun c d idle idle' hcontext => afterDrop ?_
    have hstore := ab.dropHandle hs ht htagged htagged' idle idle' hcontext
    exact ((ab.withStore hstore).setSeat .none h).recordLog _ _
  | push h p => exact ab.withHandle fun _ _ _ _ _ => (ab.setBusy h true).enter (.batch _ _ _ _ _ _)
  | pushBatch h items =>
    exact ab.withHandle fun _ _ _ _ _ => (ab.setBusy h true).enter (.batch _ _ _ _ _ _)
  | pushEach h values => exact ab.withHandle fun _ _ _ _ _ => ab.enter (.pushEach h values 0)
  | pop h =>
    simp only [Session.perform]
    refine ab.withHandle fun c d idle idle' hcontext => ?_
    obtain ⟨hturn, hanswer⟩ := ab.pop hs ht hlive htagged htagged' idle idle' hcontext
    rw [hanswer]
    exact (ab.settle hturn h).conclude (.same _)
  | popUpTo h limit => exact ab.withHandle fun _ _ _ _ _ => ab.enter (.popUpTo h limit [])
  | advance h =>
    simp only [Session.perform]
    refine ab.withHandle fun c d idle idle' hcontext => ?_
    obtain ⟨hturn, hc, hd⟩ := ab.turns htagged htagged' idle idle' hcontext
    exact (ab.settle (hturn.advance hc.inOrder hd.inOrder) h).conclude (.number _ _)
  | reclaim h =>
    simp only [Session.perform]
    refine ab.withHandle fun c d idle idle' hcontext => ?_
    obtain ⟨hturn, hc, hd⟩ := ab.turns htagged htagged' idle idle' hcontext
    exact (ab.settle (hturn.reclaim hc.inOrder hd.inOrder) h).conclude (.number _ _)
  | shutdown r =>
    refine ab.withReference fun _ _ => conclude ?_ (.same _)
    unfold shutDown
    rw [ab.store.shutdown]
    split
    · exact ab
    · have hstore : Store.Sooner { s.store with shutdown := true }
          { t.store with shutdown := true } :=
        ⟨ab.store.settings, ab.store.epoch, rfl, ab.store.orphans⟩
      exact (ab.withStore hstore).recordLog _ _
  | setEpoch r epoch =>
    refine ab.withReference fun _ _ => conclude (ab.withStore ?_) (.same _)
    exact ⟨ab.store.settings, rfl, ab.store.shutdown, ab.store.orphans⟩
  | setOps h ops =>
    simp only [Session.perform]
    refine ab.withHandle fun c d idle idle' hcontext => conclude ?_ (.same _)
    have hset : Option.Rel Seat.Sooner (some (Seat.idle { c with ops }))
        (some (Seat.idle { d with ops })) :=
      .some ⟨⟨hcontext.snapshot, rfl, hcontext.epochs⟩, rfl⟩
    exact ab.setSeat hset h
  | askStack r question =>
    refine ab.withReference fun hr _ => ab.conclude ?_
    cases question with
    | isEmpty =>
      simp only [answerStack, ab.isEmpty_eq hs ht hlive (not_gone_of_refers hr)]
      exact .same _
    | epoch => exact .number _ _
    | capacity => exact .number _ _
    | isShutdown =>
      simp only [answerStack, ab.store.shutdown]
      exact .same _
    | debugText multiline => exact .text _ _
  | askHandle h question =>
    simp only [Session.perform]
    refine ab.withHandle fun c d idle idle' hcontext => ab.conclude ?_
    cases question with
    | isEmpty =>
      simp only [answerHandle, ab.isEmpty_eq hs ht hlive
        (not_gone_of_seat (idle?_eq_some.1 idle))]
      exact .same _
    | retiredCount => exact .number _ _
    | snapshot => exact .number _ _
    | debugText multiline => exact .text _ _
  | refused reason => exact ab.conclude (.same _)

theorem popUpTo (granted granted' : Bool) (h : Nat) (limit : Option Nat) (got : List α) :
    (s.resume granted (.popUpTo h limit got)).Abreast
      (t.resume granted' (.popUpTo h limit got)) := by
  simp only [resume]
  split
  · exact ab.conclude (.same _)
  · rcases ab.idle_cases h with ⟨hidle, hidle'⟩ | ⟨c, d, hidle, hidle', hcontext⟩
    · rw [hidle, hidle']
      exact ab.conclude (.same _)
    · obtain ⟨hturn, hanswer⟩ := ab.pop hs ht hlive htagged htagged' hidle hidle' hcontext
      rw [hidle, hidle']
      dsimp only
      rw [hanswer]
      split
      · exact (ab.settle hturn h).conclude (.same _)
      · exact (ab.settle hturn h).enter (.popUpTo _ _ _)

end

section

variable {dead dead' : List Link} {live live' u u' : Load (Payload α)}
  {held held' : List (Load (Payload α))} {first last first' last' : Link}
  (ab : s.Abreast t)
include ab

section

variable (hu : u.values = u'.values)
include hu

/-- A batch whose items have all come. -/
theorem closeBatch (hs : (s.enter (.batch h first last [])).Sound dead live (u :: held))
    (ht : (t.enter (.batch h first' last' [])).Sound dead' live' (u' :: held'))
    (htagged : s.Tagged) (htagged' : t.Tagged) :
    (s.closeBatch h first last).Abreast (t.closeBatch h first' last') ∧
      s.notesOf (.batch h first last []) = t.notesOf (.batch h first' last' []) := by
  have hnil := hs.first_eq_nil
  have hnil' := ht.first_eq_nil
  have hempty : u = [] ↔ u' = [] := by
    rw [← List.map_eq_nil_iff (f := Prod.snd), ← List.map_eq_nil_iff (f := Prod.snd) (l := u')]
    exact iff_of_eq (congrArg (· = []) hu)
  cases first with
  | nil =>
    obtain rfl : first' = .nil := hnil'.2 (hempty.1 (hnil.1 rfl))
    exact ⟨ab.close (.same _) h, rfl⟩
  | node i g =>
    have hne : u ≠ [] := fun hu => Link.noConfusion (hnil.2 hu)
    cases first' with
    | nil => exact absurd (hempty.2 (hnil'.1 rfl)) hne
    | node i' g' =>
      have hne' : u' ≠ [] := fun hu => hne (hempty.2 hu)
      obtain ⟨c, hseat, rfl, -⟩ := hs.holding rfl rfl
      obtain ⟨d, hseat', rfl, -⟩ := ht.holding rfl rfl
      simp only [Session.closeBatch, notesOf, Link.isNil, ab.store.shutdown]
      refine ⟨?_, rfl⟩
      split
      · exact ab.enter (.rollBack _ _ _ _ _ _ _)
      · rcases ab.seat_cases h with ⟨hnone, -⟩ | ⟨a, b, ha, hb, hsooner⟩
        · rw [hseat] at hnone
          cases hnone
        · rw [ha, hb]
          obtain ⟨hfirst, hlast⟩ : Link.node i g = u.strand.first ∧ last = u.strand.last :=
            (List.forall₂_cons.1 hs.owned).1
          obtain ⟨hfirst', hlast'⟩ : Link.node i' g' = u'.strand.first ∧ last' = u'.strand.last :=
            (List.forall₂_cons.1 ht.owned).1
          have hturn : (Turn.mk s.store a.context).Sooner ⟨t.store, b.context⟩ :=
            ⟨ab.store, hsooner.context⟩
          have hpublished := hturn.publish (htagged h _ (contexts_of_seat ha)).inOrder
            (htagged' h _ (contexts_of_seat hb)).inOrder (Load.strand_ne_nil hne)
            (Load.strand_ne_nil hne') (hs.toKept.tidy_turn (s := s.enter _) ha)
            (ht.toKept.tidy_turn (s := t.enter _) hb)
          rw [← hfirst, ← hlast, ← hfirst', ← hlast'] at hpublished
          exact (ab.settle hpublished h).conclude (.same _)

omit hu in
/-- A node for a payload of a batch. -/
theorem allocate {granted granted' : Bool} {l l' : Link} {p : Payload α} {rest : List (Item α)}
    (hs : (s.enter (.batch h first last (.payload p :: rest))).Sound dead live (u :: held))
    (ht : (t.enter (.batch h first' last' (.payload p :: rest))).Sound dead' live' (u' :: held'))
    (hok : (s.store.allocate granted p).answer = .ok l)
    (hok' : (t.store.allocate granted' p).answer = .ok l') :
    (s.resume granted (.batch h first last (.payload p :: rest))).Abreast
      (t.resume granted' (.batch h first' last' (.payload p :: rest))) := by
  simp only [resume, hok, hok']
  have hstore := ab.store.allocate hs.tidy ht.tidy hok hok' first first'
  exact ((ab.withStore hstore).recordLog _ _).enter (.batch _ _ _ _ _ _)

omit hu in
theorem dropUnused (granted granted' : Bool) (h : Nat) (p : Payload α)
    (unused : List (Payload α)) (cursor last cursor' last' : Link) (o : Outcome α) :
    (s.resume granted (.rollBack h (p :: unused) cursor last o)).Abreast
      (t.resume granted' (.rollBack h (p :: unused) cursor' last' o)) :=
  (ab.enter (.rollBack h unused _ _ _ _ o)).dropPayload p

/-- A batch that is given up drops the first value of its chain, or it is over. -/
theorem spill {cursor cursor' : Link} {o : Outcome α} (granted granted' : Bool)
    (hs : (s.enter (.rollBack h [] cursor last o)).Sound dead live (u :: held))
    (ht : (t.enter (.rollBack h [] cursor' last' o)).Sound dead' live' (u' :: held')) :
    (s.resume granted (.rollBack h [] cursor last o)).Abreast
      (t.resume granted' (.rollBack h [] cursor' last' o)) := by
  simp only [resume, hs.takeValue_rollBack, ht.takeValue_rollBack]
  cases u with
  | nil =>
    obtain rfl : u' = [] := List.map_eq_nil_iff.1 hu.symm
    exact ab.close (.same o) h
  | cons n u =>
    cases u' with
    | nil => cases hu
    | cons m u' =>
      have hvalue : n.2 = m.2 := (List.cons.inj hu).1
      simp only [List.head?_cons, Option.map_some, hvalue]
      exact ((ab.withStore (ab.store.clear cursor cursor')).enter
        (.release h _ _ _ _ _ _ o)).dropPayload m.2

/-- A node whose value was dropped goes back to the free list. -/
theorem release {node next node' next' : Link} {o : Outcome α} (granted granted' : Bool)
    (hs : (s.enter (.release h node next last o)).Sound dead live (u :: held))
    (ht : (t.enter (.release h node' next' last' o)).Sound dead' live' (u' :: held')) :
    (s.resume granted (.release h node next last o)).Abreast
        (t.resume granted' (.release h node' next' last' o)) ∧
      s.notesOf (.release h node next last o) = t.notesOf (.release h node' next' last' o) := by
  have hstored := ab.withStore (ab.store.deallocate hs.tidy_release ht.tidy_release)
  rcases (List.forall₂_cons.1 hs.owned).1 with ⟨rfl, rfl⟩ | ⟨hne, hnode, -⟩
  · obtain rfl : u' = [] := List.map_eq_nil_iff.1 hu.symm
    rcases (List.forall₂_cons.1 ht.owned).1 with ⟨-, rfl⟩ | ⟨hne, -⟩
    · simp only [resume, notesOf, ↓reduceIte, and_true]
      exact hstored.close (.same o) h
    · exact absurd rfl hne
  · rcases (List.forall₂_cons.1 ht.owned).1 with ⟨rfl, -⟩ | ⟨-, hnode', -⟩
    · exact absurd (List.map_eq_nil_iff.1 hu) hne
    · simp only [resume, notesOf, hnode, hnode', ↓reduceIte, and_true]
      exact hstored.enter (.rollBack h [] _ _ _ _ o)

end

/-- The end of the stack drops the next value, or it is over. -/
theorem destroy {cursor cursor' : Link} (granted granted' : Bool) (dropped : Nat)
    (hlive : live.values = live'.values)
    (hs : (s.enter (.destroy cursor dropped)).Sound dead live ([] :: held))
    (ht : (t.enter (.destroy cursor' dropped)).Sound dead' live' ([] :: held')) :
    (s.resume granted (.destroy cursor dropped)).Abreast
        (t.resume granted' (.destroy cursor' dropped)) ∧
      s.notesOf (.destroy cursor dropped) = t.notesOf (.destroy cursor' dropped) := by
  simp only [resume, notesOf, hs.takeValue_destroy, ht.takeValue_destroy]
  cases live with
  | nil =>
    obtain rfl : live' = [] := List.map_eq_nil_iff.1 hlive.symm
    simp only [List.head?_nil, Option.map_none, and_true]
    split
    · exact ab
    · exact ab.recordLog _ _
  | cons n live =>
    cases live' with
    | nil => cases hlive
    | cons m live' =>
      have hvalue : n.2 = m.2 := (List.cons.inj hlive).1
      simp only [List.head?_cons, Option.map_some, hvalue, and_true]
      exact ((ab.withStore (ab.store.clear cursor cursor')).enter
        (.destroy _ _ (dropped + 1))).dropPayload m.2

end

end Abreast

end Session

end RecyclingStack
