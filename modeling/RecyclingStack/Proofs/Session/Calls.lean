import RecyclingStack.Proofs.Session.Partition

/-! An operation under way among others. What goes on above its frame leaves the frame and all
below it as they are, and a push or a batch keeps all it was given until it is published. -/
namespace RecyclingStack

def Op.items {α : Type} : Op α → Option (List (Item α))
  | .push _ p => some [.payload p]
  | .pushBatch _ items => some items
  | _ => none

inductive Op.Pushes {α : Type} (h : Nat) : List (Item α) → Op α → Prop where
  | one (p : Payload α) : Pushes h [.payload p] (.push h p)
  | batch (items : List (Item α)) : Pushes h items (.pushBatch h items)

theorem Op.Pushes.given {α : Type} {h : Nat} {items : List (Item α)} {op : Op α}
    (hpushes : op.Pushes h items) : op.items = some items := by
  cases hpushes <;> rfl

/-- A push is a batch of one payload. -/
theorem Op.pushes_one {α : Type} (h : Nat) (p : Payload α) :
    (Op.push h p).Pushes h ([p].map .payload) :=
  .one p

theorem Op.pushes_batch {α : Type} (h : Nat) (ps : List (Payload α)) :
    (Op.pushBatch h (ps.map .payload)).Pushes h (ps.map .payload) :=
  .batch _

/-- Not an operation run in passing, and not a panic. -/
def Item.isPayload {α : Type} : Item α → Bool
  | .payload _ => true
  | _ => false

/-- What a batch that is given up is going to answer. -/
def Frame.givesUp {α : Type} : Frame α → Option (Outcome α)
  | .rollBack _ _ _ _ outcome => some outcome
  | .release _ _ _ _ outcome => some outcome
  | _ => none

namespace Session

variable {α : Type} {s t : Session α} {f : Frame α}

theorem frames_deliver (s : Session α) (o : Outcome α) :
    (s.deliver o).frames = s.frames ∨ ∃ h rest pushed frames g,
      s.frames = .pushEach h rest pushed :: frames ∧ (s.deliver o).frames = g :: frames := by
  rcases s with ⟨store, references, handles, frames, events, answer⟩
  cases frames with
  | nil => exact .inl rfl
  | cons f frames =>
    cases f with
    | pushEach h rest pushed =>
      refine .inr ⟨h, rest, pushed, frames, ?_⟩
      cases o <;> exact ⟨_, rfl, rfl⟩
    | _ => exact .inl rfl

/-- A push or a batch on an idle handle occupies it and goes on to its first item. -/
theorem stepWith_pushes {op : Op α} {h : Nat} {items : List (Item α)} {c : Context}
    {below : List (Frame α)} (frames : s.frames = .perform op :: below)
    (pushes : op.Pushes h items) (idle : s.idle? h = some c) (granted : Bool) :
    s.stepWith granted = (({ s with frames := below } : Session α).setBusy h true).enter
      (.batch h .nil .nil items) := by
  rw [stepWith_cons granted frames]
  cases pushes <;>
    exact withHandle_idle (s := { s with frames := below }) idle fun _ => openBatch _ h _

/-- The frame of a push or a batch, and those below it, stay as long as others are above. -/
theorem frames_below {top below : List (Frame α)} {base : Frame α} (granted : Bool)
    (hbase : base.holder.isSome) (h : s.frames = f :: (top ++ base :: below)) :
    ∃ top', (s.stepWith granted).frames = top' ++ base :: below := by
  rw [stepWith_cons granted h]
  by_cases hf : ∃ o, f = .finish o
  · obtain ⟨o, rfl⟩ := hf
    rcases frames_deliver ({ s with frames := top ++ base :: below } : Session α) o with
      hsame | ⟨h, rest, pushed, frames, g, hpush, hnew⟩
    · exact ⟨top, hsame⟩
    · cases top with
      | nil =>
        rw [(List.cons.inj hpush).1] at hbase
        cases hbase
      | cons f top =>
        refine ⟨g :: top, hnew.trans ?_⟩
        rw [← (List.cons.inj hpush).2]
        rfl
  · obtain ⟨more, hmore⟩ := (steps_resume { s with frames := top ++ base :: below } f).puts.suffix
      fun o ho => hf ⟨o, ho⟩
    exact ⟨more ++ top, by rw [← hmore, List.append_assoc]⟩

/-- Something is under way above these frames. -/
def Over (below : List (Frame α)) (s : Session α) : Prop :=
  ∃ f top, s.frames = f :: (top ++ below)

/-- From the first state to the second, something is under way above these frames all the time. -/
inductive Within (below : List (Frame α)) : Session α → Session α → Prop where
  | start {s : Session α} (above : s.Over below) : Within below s s
  | step {s t : Session α} (granted : Bool) (within : Within below s t)
      (above : (t.stepWith granted).Over below) : Within below s (t.stepWith granted)

theorem above_base {below top : List (Frame α)} {base : Frame α}
    (h : s.frames = top ++ base :: below) : s.Over below := by
  cases top with
  | nil => exact ⟨base, [], h⟩
  | cons f top => exact ⟨f, top ++ [base], h.trans (by simp)⟩

/-- How far a push or a batch is that has these frames below it: about to be performed, building
its private chain with everything it was given in hand, giving it up, or over. As long as its items
run nothing in passing, the stack is what it was at the start. -/
inductive Underway (items : List (Item α)) (below : List (Frame α)) (start : List (Payload α))
    (t : Session α) (live : Load (Payload α)) (held : List (Load (Payload α))) : Prop where
  | begun {op : Op α} (frames : t.frames = .perform op :: below) (given : op.items = some items)
      (same : live.values = start)
  | building {top : List (Frame α)} {h : Nat} {first last : Link} {rest : List (Item α)}
      {above under : List (Load (Payload α))} {u : Load (Payload α)}
      (frames : t.frames = top ++ .batch h first last rest :: below)
      (loads : held = above ++ u :: under) (length : under.length = below.length)
      (content : u.values.reverse ++ Item.payloads rest = Item.payloads items)
      (suffix : rest <:+ items)
      (quiet : (∀ item ∈ items, item.isPayload = true) → top = [] ∧ live.values = start)
  | undoing (top : List (Frame α)) (base : Frame α) {o : Outcome α}
      (frames : t.frames = top ++ base :: below) (gives : base.givesUp = some o)
      (shut : o = .done → t.store.shutdown = true)
  | finished {o : Outcome α} (frames : t.frames = .finish o :: below)

theorem holder_of_givesUp {o : Outcome α} (h : f.givesUp = some o) : f.holder.isSome := by
  cases f <;> first | rfl | cases h

theorem frames_finish {below : List (Frame α)} {o : Outcome α} (granted : Bool)
    (h : s.frames = .finish o :: below) : ¬ (s.stepWith granted).Over below := by
  rintro ⟨f, top, hover⟩
  rw [stepWith_cons granted h] at hover
  have hlength := congrArg List.length hover
  simp only [List.length_cons, List.length_append] at hlength
  rcases frames_deliver ({ s with frames := below } : Session α) o with
    hsame | ⟨k, rest, pushed, frames, g, hpush, hnew⟩
  · have heq := congrArg List.length (show (({ s with frames := below } : Session α).resume granted
      (.finish o)).frames = below from hsame)
    omega
  · have heq := congrArg List.length (show (({ s with frames := below } : Session α).resume granted
      (.finish o)).frames = g :: frames from hnew)
    have hbelow := congrArg List.length (show below = .pushEach k rest pushed :: frames from hpush)
    simp only [List.length_cons] at heq hbelow
    omega

/-- A batch that is given up goes on being given up, or is over with the answer it had. -/
theorem undoing_step {below top : List (Frame α)} {base : Frame α} {o : Outcome α}
    (frames : t.frames = top ++ base :: below) (gives : base.givesUp = some o) (granted : Bool) :
    (∃ top' base', (t.stepWith granted).frames = top' ++ base' :: below ∧
        base'.givesUp = some o) ∨
      (t.stepWith granted).frames = .finish o :: below := by
  cases top with
  | cons f top =>
    obtain ⟨top', hframes⟩ := frames_below granted (holder_of_givesUp gives) frames
    exact .inl ⟨top', base, hframes, gives⟩
  | nil =>
    rw [stepWith_cons granted frames]
    cases base with
    | rollBack h unused cursor last outcome =>
      cases gives
      cases unused with
      | cons p unused => exact .inl ⟨[.hook p.onDrop], .rollBack h unused cursor last o, rfl, rfl⟩
      | nil =>
        cases htake : t.store.takeValue cursor with
        | none =>
          refine .inr ?_
          simp only [resume, htake]
          rfl
        | some taken =>
          refine .inl ⟨[.hook taken.1.onDrop],
            .release h cursor (t.store.arena.next cursor) last o, ?_, rfl⟩
          simp only [resume, htake]
          rfl
    | release h node next last outcome =>
      cases gives
      by_cases hlast : node = last
      · refine .inr ?_
        simp only [resume, if_pos hlast]
        rfl
      · refine .inl ⟨[], .rollBack h [] next last o, ?_, rfl⟩
        simp only [resume, if_neg hlast]
        rfl
    | _ => cases gives

theorem Sound.length_held {dead : List Link} {live : Load (Payload α)}
    {held : List (Load (Payload α))} (hs : s.Sound dead live held) :
    s.frames.length = held.length :=
  hs.owned.length_eq

section

variable {items rest : List (Item α)} {start : List (Payload α)} {dead : List Link}
  {live u : Load (Payload α)} {held under : List (Load (Payload α))} {h : Nat} {first last : Link}

/-- A batch whose items have all come is over, or is given up because of a shutdown. -/
theorem Underway.closing {live' : Load (Payload α)}
    (hs : (s.enter (.batch h first last [])).Sound dead live (u :: under)) :
    Underway items s.frames start (s.closeBatch h first last) live' held := by
  cases first with
  | nil => exact .finished (o := .done) rfl
  | node i g =>
    cases hshut : s.store.shutdown with
    | true =>
      refine .undoing [] (.rollBack h [] (.node i g) last .done) (o := .done) ?_ rfl fun _ => ?_ <;>
        simp only [closeBatch, hshut, if_true]
      · rfl
      · exact hshut
    | false =>
      obtain ⟨c, hseat⟩ := hs.toKept.exists_seat rfl
      refine .finished (o := .done) ?_
      simp only [closeBatch, hshut, Bool.false_eq_true, if_false]
      rw [show s.seat? h = some ⟨c, true⟩ from hseat]
      rfl

/-- A batch that has a node more, or an operation in passing above it, still has all it was given
in hand. -/
theorem Underway.next {t : Session α} {item : Item α} (top : List (Frame α)) {l m : Link}
    (hs : (s.enter (.batch h first last (item :: rest))).Sound dead live (u :: under))
    (content : u.values.reverse ++ Item.payloads (item :: rest) = Item.payloads items)
    (suffix : item :: rest <:+ items)
    (quiet : (∀ item ∈ items, item.isPayload = true) → top = [] ∧ live.values = start)
    (ht : t.Follows ((s.enter (.batch h first last (item :: rest))).ledger live (u :: under)) []
      under) (htop : ∀ f ∈ top, f.isLight = true)
    (frames : t.frames = top ++ .batch h l m rest :: s.frames) :
    ∃ dead' live' held', t.Sound dead' live' held' ∧
      Underway items s.frames start t live' held' := by
  obtain ⟨dead', live', held', hs', hruns, above, rfl⟩ := ht
  have hsame := hruns.eq_of_nil
  have hlength : s.frames.length = under.length := Nat.succ.inj hs.length_held
  have hlength' := hs'.length_held
  rw [frames, List.length_append, List.length_append, List.length_cons, hlength] at hlength'
  obtain ⟨above, v, rfl⟩ := (List.eq_nil_or_concat' above).resolve_left fun hnil => by
    rw [hnil, List.length_nil] at hlength'
    omega
  rw [List.length_append, List.length_singleton] at hlength'
  rw [List.append_assoc, List.singleton_append] at hs' hsame
  have hcalls := congrArg Ledger.calls hsame
  have hstack := congrArg Ledger.stack hsame
  rw [ledger_enter] at hcalls hstack
  simp only [ledger] at hcalls hstack
  rw [frames, calls_append_light htop (by omega), calls_cons, Frame.content, Frame.content,
    content] at hcalls
  refine ⟨dead', live', above ++ v :: under, hs', .building frames rfl hlength.symm
    (List.cons.inj hcalls).1 ?_ fun hall => ?_⟩
  · exact (List.suffix_cons item rest).trans suffix
  · exact ⟨(quiet hall).1, hstack.trans (quiet hall).2⟩

theorem Underway.onward (hs : (s.enter (.batch h first last rest)).Sound dead live (u :: under))
    (content : u.values.reverse ++ Item.payloads rest = Item.payloads items)
    (suffix : rest <:+ items)
    (quiet : (∀ item ∈ items, item.isPayload = true) → live.values = start) (granted : Bool) :
    ∃ dead' live' held', (s.resume granted (.batch h first last rest)).Sound dead' live' held' ∧
      Underway items s.frames start (s.resume granted (.batch h first last rest)) live' held' := by
  have hfollows := follows_batch granted rest hs
  cases rest with
  | nil =>
    obtain ⟨dead', live', held', hs', -, -⟩ := hfollows
    exact ⟨dead', live', held', hs', .closing hs⟩
  | cons item rest =>
    cases item with
    | perform op =>
      refine Underway.next [.perform op] hs content suffix (fun hall => ?_) hfollows
        (fun f hf => List.mem_singleton.1 hf ▸ rfl) rfl
      exact absurd (hall _ (suffix.subset List.mem_cons_self)) Bool.false_ne_true
    | panic message =>
      obtain ⟨dead', live', held', hs', -, -⟩ := hfollows
      exact ⟨dead', live', held', hs', .undoing []
        (.rollBack h (Item.payloads rest) first last (.panicked message)) rfl rfl
        fun ho => by cases ho⟩
    | payload p =>
      simp only [resume] at hfollows ⊢
      cases hanswer : (s.store.allocate granted p).answer with
      | error failure =>
        rw [hanswer] at hfollows
        obtain ⟨dead', live', held', hs', -, -⟩ := hfollows
        exact ⟨dead', live', held', hs', .undoing []
          (.rollBack h (p :: Item.payloads rest) first last (.exhausted failure)) rfl rfl
          fun ho => by cases ho⟩
      | ok l =>
        rw [hanswer] at hfollows
        exact Underway.next [] hs content suffix (fun hall => ⟨rfl, quiet hall⟩) hfollows
          (fun f hf => absurd hf List.not_mem_nil) rfl

theorem frames_perform_items {op : Op α} (s : Session α) (given : op.items = some items) :
    (∃ reason, (s.perform op).frames = .finish (.refused reason) :: s.frames) ∨
      ∃ h, (s.perform op).frames = .batch h .nil .nil items :: s.frames := by
  have hopen : ∀ h, (∃ reason, (s.withHandle h fun _ => s.openBatch h items).frames =
      .finish (.refused reason) :: s.frames) ∨
        ∃ h', (s.withHandle h fun _ => s.openBatch h items).frames =
          .batch h' .nil .nil items :: s.frames := by
    intro h
    unfold withHandle
    split
    · exact .inl ⟨_, rfl⟩
    · split
      · exact .inl ⟨_, rfl⟩
      · exact .inr ⟨h, rfl⟩
  cases op with
  | push h p =>
    cases given
    exact hopen h
  | pushBatch h batch =>
    cases given
    exact hopen h
  | _ => cases given

/-- The item of a batch leaves a frame of it, or the batch is given up. -/
theorem frames_item (s : Session α) (granted : Bool) (h : Nat) (first last : Link) (item : Item α)
    (rest : List (Item α)) :
    ∃ top base, (s.resume granted (.batch h first last (item :: rest))).frames =
      top ++ base :: s.frames ∧ base.holder.isSome := by
  cases item with
  | perform op => exact ⟨[.perform op], .batch h first last rest, rfl, rfl⟩
  | panic message =>
    exact ⟨[], .rollBack h (Item.payloads rest) first last (.panicked message), rfl, rfl⟩
  | payload p =>
    simp only [resume]
    split
    · exact ⟨[], .rollBack h (p :: Item.payloads rest) first last (.exhausted _), rfl, rfl⟩
    · exact ⟨[], .batch h _ _ rest, rfl, rfl⟩

theorem Underway.begin {op : Op α} (hs : s.Sound dead live held) (given : op.items = some items)
    (same : live.values = start) :
    ∃ dead' live' held', (s.perform op).Sound dead' live' held' ∧
      Underway items s.frames start (s.perform op) live' held' := by
  have hopen : ∀ h, (s.withHandle h fun _ => s.openBatch h items).Follows (s.ledger live held)
      (s.openedBy h (Item.payloads items)) held → ∃ dead' live' held',
        (s.withHandle h fun _ => s.openBatch h items).Sound dead' live' held' ∧
          Underway items s.frames start (s.withHandle h fun _ => s.openBatch h items) live'
            held' := by
    intro h hfollows
    rw [withHandle] at hfollows ⊢
    cases hseat : s.seat? h with
    | none =>
      rw [hseat] at hfollows
      obtain ⟨dead', live', held', hs', -, -⟩ := hfollows
      exact ⟨dead', live', held', hs', .finished (o := .refused .noHandle) rfl⟩
    | some seat =>
      rcases seat with ⟨c, _ | _⟩ <;> rw [hseat] at hfollows
      · simp only [Bool.false_eq_true, if_false] at hfollows ⊢
        rw [openedBy_idle hseat] at hfollows
        obtain ⟨dead', live', held', hs', hruns, above, rfl⟩ := hfollows
        have hlength' : s.frames.length + 1 = (above ++ held).length := hs'.length_held
        rw [List.length_append, hs.length_held] at hlength'
        obtain ⟨v, rfl⟩ := List.length_eq_one_iff.1 (by omega : above.length = 1)
        have hopened := hruns.step_of_single.eq_of_opened
        have hframes : (s.openBatch h items).frames = .batch h .nil .nil items :: s.frames := rfl
        rw [ledger, ledger, hframes, List.singleton_append, calls_cons] at hopened
        obtain ⟨hcalls, hstack⟩ := Ledger.mk.inj hopened
        exact ⟨dead', live', [] ++ v :: held, hs', .building hframes rfl
          hs.length_held.symm (List.cons.inj hcalls).1 List.suffix_rfl
          fun _ => ⟨rfl, hstack.trans same⟩⟩
      · obtain ⟨dead', live', held', hs', -, -⟩ := hfollows
        exact ⟨dead', live', held', hs', .finished (o := .refused .busyHandle) rfl⟩
  have hfollows := follows_perform hs op
  cases op with
  | push h p =>
    cases given
    exact hopen h hfollows
  | pushBatch h batch =>
    cases given
    exact hopen h hfollows
  | _ => cases given

/-- A step of a push or a batch that is not over yet, or of something above it. -/
theorem Underway.goes_on {below : List (Frame α)} (hs : t.Sound dead live held)
    (hu : Underway items below start t live held) (granted : Bool)
    (going : ∀ o, t.frames ≠ .finish o :: below) :
    ∃ dead' live' held', (t.stepWith granted).Sound dead' live' held' ∧
      Underway items below start (t.stepWith granted) live' held' := by
  have hany := hs.step granted
  rcases t with ⟨store, references, handles, frames, events, answer⟩
  cases hu with
  | begun frames given same =>
    cases frames
    obtain ⟨_, rfl, hbelow⟩ := Sound.leave (f := .perform _)
      (s := ⟨store, references, handles, below, events, answer⟩) rfl rfl hs
    exact Underway.begin hbelow given same
  | @building top h first last rest above under u frames loads length content suffix quiet =>
    have hlength := hs.length_held
    subst loads
    cases top with
    | nil =>
      cases frames
      have hlength : below.length + 1 = (above ++ u :: under).length := hlength
      rw [List.length_append, List.length_cons, length] at hlength
      obtain rfl := List.length_eq_zero_iff.1 (by omega : above.length = 0)
      exact Underway.onward (s := ⟨store, references, handles, below, events, answer⟩) hs content
        suffix (fun hall => (quiet hall).2) granted
    | cons f top =>
      obtain ⟨top', hframes⟩ := frames_below granted rfl frames
      obtain ⟨dead', live', held', hs', -, hsuffix⟩ := hany
      cases above with
      | nil =>
        rw [frames] at hlength
        simp only [List.length_append, List.length_cons, List.length_nil] at hlength
        omega
      | cons v above =>
        obtain ⟨more, rfl⟩ := hsuffix
        have hloads : more ++ (v :: above ++ u :: under).tail = (more ++ above) ++ u :: under :=
          (List.append_assoc more above (u :: under)).symm
        exact ⟨dead', live', _, hs', .building hframes hloads length content suffix
          fun hall => absurd (quiet hall).1 (List.cons_ne_nil f top)⟩
  | undoing top base frames gives shut =>
    obtain ⟨dead', live', held', hs', -, -⟩ := hany
    rcases undoing_step frames gives granted with ⟨top', base', frames', gives'⟩ | frames'
    · exact ⟨dead', live', held', hs', .undoing top' base' frames' gives' fun ho =>
        shutdown_stepWith granted (shut ho)⟩
    · exact ⟨dead', live', held', hs', .finished frames'⟩
  | finished frames => exact absurd frames (going _)

/-- A step of a push or a batch, or of something above it, that does not end it. -/
theorem Underway.step {below : List (Frame α)} (hs : t.Sound dead live held)
    (hu : Underway items below start t live held) (granted : Bool)
    (hover : (t.stepWith granted).Over below) :
    ∃ dead' live' held', (t.stepWith granted).Sound dead' live' held' ∧
      Underway items below start (t.stepWith granted) live' held' :=
  hu.goes_on hs granted fun _ frames => frames_finish granted frames hover

theorem Underway.over {below : List (Frame α)} (hu : Underway items below start t live held) :
    t.Over below := by
  cases hu with
  | begun frames | finished frames => exact ⟨_, [], frames⟩
  | building frames => exact above_base frames
  | undoing top base frames => exact above_base frames

end

theorem Within.underway {items : List (Item α)} {below : List (Frame α)} {op : Op α}
    (hw : Within below s t) {dead : List Link} {live : Load (Payload α)}
    {held : List (Load (Payload α))} (hs : s.Sound dead live held)
    (frames : s.frames = .perform op :: below) (given : op.items = some items) :
    ∃ dead' live' held', t.Sound dead' live' held' ∧
      Underway items below live.values t live' held' := by
  induction hw with
  | start => exact ⟨dead, live, held, hs, .begun frames given rfl⟩
  | step granted _ above ih =>
    obtain ⟨_, _, _, hs', hu⟩ := ih
    exact hu.step hs' granted above

/-- There is one frame right above given ones. -/
theorem frames_inj {below top top' : List (Frame α)} {base : Frame α}
    (h : t.frames = top ++ f :: below) (h' : t.frames = top' ++ base :: below) :
    top = top' ∧ f = base := by
  have hboth := List.append_inj' (h.symm.trans h') rfl
  exact ⟨hboth.1, (List.cons.inj hboth.2).1⟩

theorem top_inj {below top : List (Frame α)} {base : Frame α} (h : t.frames = f :: below)
    (h' : t.frames = top ++ base :: below) : base = f :=
  (frames_inj (show t.frames = [] ++ _ from h) h').2.symm

theorem Underway.batch_inv {items rest : List (Item α)} {below top : List (Frame α)}
    {start : List (Payload α)} {live : Load (Payload α)} {held : List (Load (Payload α))} {h : Nat}
    {first last : Link} (hu : Underway items below start t live held)
    (frames : t.frames = top ++ .batch h first last rest :: below) :
    ∃ above u under, held = above ++ u :: under ∧ under.length = below.length ∧
      u.values.reverse ++ Item.payloads rest = Item.payloads items ∧
        ((∀ item ∈ items, item.isPayload = true) → top = [] ∧ live.values = start) := by
  cases hu with
  | begun hframes => cases top_inj hframes frames
  | building hframes loads length content suffix quiet =>
    obtain ⟨rfl, hbase⟩ := frames_inj frames hframes
    cases hbase
    exact ⟨_, _, _, loads, length, content, quiet⟩
  | undoing top' base hframes gives =>
    rw [← (frames_inj frames hframes).2] at gives
    cases gives
  | finished hframes => cases top_inj hframes frames

end Session

end RecyclingStack
