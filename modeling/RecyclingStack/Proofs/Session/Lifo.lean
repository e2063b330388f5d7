import RecyclingStack.Proofs.Session.Calls

/-! The stack as a list of payloads. Read along the chain from the head, it changes only when a
batch is published, a pop takes its top, or the end of the stack drops it; and this is all that
operations can tell of it, whatever handles and epochs do to the nodes. -/
namespace RecyclingStack

/-- Frames whose next step may change the list of payloads on the stack. -/
def Frame.mayAlter {α : Type} : Frame α → Bool
  | .batch _ _ _ [] => true
  | .perform (.pop _) => true
  | .popUpTo _ _ _ => true
  | .destroy _ _ => true
  | _ => false

namespace Session

variable {α : Type} {s t : Session α} {f : Frame α} {below : List (Frame α)}

/-- From the first state to the second, whatever happened to the list of payloads on the stack was
done by operations nested in the one above these frames, not by itself. -/
inductive Aside (below : List (Frame α)) : Session α → Session α → Prop where
  | start {s : Session α} (above : s.Over below) : Aside below s s
  | own {s t : Session α} {f : Frame α} (granted : Bool) (aside : Aside below s t)
      (frames : t.frames = f :: below)
      (same : (t.stepWith granted).store.values = t.store.values) :
      Aside below s (t.stepWith granted)
  | nested {s t : Session α} {f g : Frame α} {top : List (Frame α)} (granted : Bool)
      (aside : Aside below s t) (frames : t.frames = f :: g :: (top ++ below)) :
      Aside below s (t.stepWith granted)

/-- The stack is last in, first out, in this state and in all calls that begin here. -/
structure Lifo (s : Session α) : Prop where
  /-- A pop by any idle handle takes the first payload, and leaves the others. -/
  pop : ∀ {h c below} (granted : Bool), s.frames = .perform (.pop h) :: below →
    s.idle? h = some c → s.store.shutdown = false →
      (s.stepWith granted).frames =
          .finish (.popped (s.store.values.head?.map Payload.value)) :: below ∧
        (s.stepWith granted).store.values = s.store.values.tail
  /-- Of several pops in a row, each takes the payload that is the first then. -/
  pops : ∀ {h limit got c below} (granted : Bool), s.frames = .popUpTo h limit got :: below →
    limit ≠ some 0 → s.idle? h = some c → s.store.shutdown = false →
      (s.stepWith granted).frames =
          (match s.store.values with
            | [] => .finish (.values got.reverse)
            | p :: _ => .popUpTo h (limit.map (· - 1)) (p.value :: got)) :: below ∧
        (s.stepWith granted).store.values = s.store.values.tail
  /-- A stack is empty for a reference if it has no payload. -/
  empty_stack : ∀ {r below} (granted : Bool), s.frames = .perform (.askStack r .isEmpty) :: below →
    s.refers r = true →
      (s.stepWith granted).frames = .finish (.flag s.store.values.isEmpty) :: below
  /-- And so it is for a handle. -/
  empty_handle : ∀ {h c below} (granted : Bool),
    s.frames = .perform (.askHandle h .isEmpty) :: below → s.idle? h = some c →
      (s.stepWith granted).frames = .finish (.flag s.store.values.isEmpty) :: below
  /-- No other step changes the payloads. -/
  still : ∀ {f below} (granted : Bool), s.frames = f :: below → f.mayAlter = false →
    (s.stepWith granted).store.values = s.store.values
  /-- An operation that neither pushes nor pops is over with such a step, as long as anything refers
  to the stack. -/
  at_once : ∀ {op below} (granted : Bool), s.frames = .perform op :: below → op.isAside = true →
    (s.stepWith granted).isGone = false →
      (s.stepWith granted).store.values = s.store.values ∧
        ∃ o, (s.stepWith granted).frames = .finish o :: below
  /-- A push or a batch that has come to its end without a shutdown puts all its payloads, last
  first, on those that are there at that moment. -/
  published : ∀ {op items below t h first last} (granted : Bool),
    s.frames = .perform op :: below → op.items = some items → Within below s t →
    t.frames = .batch h first last [] :: below → t.store.shutdown = false →
      (t.stepWith granted).frames = .finish .done :: below ∧
        (t.stepWith granted).store.values = (Item.payloads items).reverse ++ t.store.values
  /-- It is done without a shutdown only in that way. -/
  returned : ∀ {op items below t}, s.frames = .perform op :: below → op.items = some items →
    Within below s t → t.frames = .finish .done :: below → t.store.shutdown = false →
      ∃ m h first last granted, Within below s m ∧ m.frames = .batch h first last [] :: below ∧
        m.store.shutdown = false ∧ t = m.stepWith granted
  /-- A push puts its payload on those that are there when it begins. -/
  pushed : ∀ {h p below t}, s.frames = .perform (.push h p) :: below → Within below s t →
    t.frames = .finish .done :: below → t.store.shutdown = false →
      t.store.values = p :: s.store.values
  /-- Until then its payloads are in its private chain, away from the stack, or still to come. -/
  private_chain : ∀ {op items below t top h first last rest}, s.frames = .perform op :: below →
    op.items = some items → Within below s t →
    t.frames = top ++ .batch h first last rest :: below →
      let links := t.store.arena.between t.store.arena.fresh first last
      (links.filterMap fun l => (t.store.arena.read l).value).reverse ++ Item.payloads rest =
          Item.payloads items ∧
        ∀ l ∈ links, l ∉ t.store.chain
  /-- A push or a batch that fails changes nothing by itself. -/
  failed : ∀ {op items below t o}, s.frames = .perform op :: below → op.items = some items →
    Within below s t → t.frames = .finish o :: below → o ≠ .done → Aside below s t

section

variable {dead : List Link} {live u : Load (Payload α)} {held : List (Load (Payload α))}

theorem Sound.values_eq (hs : s.Sound dead live held) : s.store.values = live.values := by
  have hdead : (Strand.idle dead : Strand (Payload α)).filterMap (fun c => c.stage.value) = [] :=
    List.filterMap_eq_nil_iff.2 fun c hc => by
      rw [Strand.spent_of_mem_idle hc]
      rfl
  rw [hs.tidy.values_eq, List.filterMap_append, Load.values_strand, hdead, List.nil_append]

theorem notesOf_aside (hf : f.mayAlter = false) : ∀ note ∈ s.notesOf f, note.isAside = true := by
  have hopened : ∀ h given, ∀ note ∈ s.openedBy h given, note.isAside = true := by
    intro h given note hnote
    rw [openedBy] at hnote
    split at hnote
    · rw [List.mem_singleton.1 hnote]
      rfl
    · cases hnote
  intro note hnote
  cases f with
  | perform op =>
    cases op with
    | push h p => exact hopened h _ note hnote
    | pushBatch h items => exact hopened h _ note hnote
    | pop h => cases hf
    | _ => cases hnote
  | batch h first last items =>
    cases items with
    | nil => cases hf
    | cons item items => cases hnote
  | rollBack h unused cursor last o =>
    cases unused with
    | cons p unused =>
      rw [List.mem_singleton.1 hnote]
      rfl
    | nil =>
      simp only [notesOf] at hnote
      split at hnote <;> (rw [List.mem_singleton.1 hnote]; rfl)
  | release h node next last o =>
    simp only [notesOf] at hnote
    split at hnote
    · rw [List.mem_singleton.1 hnote]
      rfl
    · cases hnote
  | destroy cursor dropped => cases hf
  | popUpTo h limit got => cases hf
  | hook rest => cases hnote
  | finish o => cases hnote
  | pushEach h values pushed => cases hnote

theorem Sound.values_still (hs : s.Sound dead live held) (granted : Bool)
    (frames : s.frames = f :: below) (hf : f.mayAlter = false) :
    (s.stepWith granted).store.values = s.store.values := by
  obtain ⟨dead', live', held', hs', hruns, -⟩ := hs.step granted
  rw [hs'.values_eq, hs.values_eq]
  apply hruns.stack_eq
  rw [notes, frames]
  exact notesOf_aside hf

theorem Sound.values_pop {h : Nat} {c : Context} (hs : s.Sound dead live held) (granted : Bool)
    (frames : s.frames = .perform (.pop h) :: below) (hidle : s.idle? h = some c)
    (hshut : s.store.shutdown = false) :
    (s.stepWith granted).frames =
        .finish (.popped (s.store.values.head?.map Payload.value)) :: below ∧
      (s.stepWith granted).store.values = s.store.values.tail := by
  have hseat := idle?_eq_some.1 hidle
  rw [stepWith_cons granted frames, hs.values_eq]
  rw [enter_of_frames frames] at hs
  obtain ⟨rest, -, hbelow⟩ := hs.leave rfl rfl
  obtain ⟨hanswer, hpopped⟩ := hbelow.pop hseat hshut
  have hperform : ({ s with frames := below } : Session α).resume granted (.perform (.pop h)) =
      (({ s with frames := below } : Session α).settle h (Turn.mk s.store c).pop).conclude
        (.popped ((Turn.mk s.store c).pop.answer.map Payload.value)) := by
    simp only [resume, perform, withHandle]
    rw [show ({ s with frames := below } : Session α).seat? h = some ⟨c, false⟩ from hseat]
    rfl
  rw [hperform, hanswer]
  refine ⟨rfl, hpopped.values_eq.trans ?_⟩
  exact List.map_tail

theorem Sound.values_popUpTo {h : Nat} {limit : Option Nat} {got : List α} {c : Context}
    (hs : s.Sound dead live held) (granted : Bool)
    (frames : s.frames = .popUpTo h limit got :: below) (hlimit : limit ≠ some 0)
    (hidle : s.idle? h = some c) (hshut : s.store.shutdown = false) :
    (s.stepWith granted).frames =
        (match s.store.values with
          | [] => .finish (.values got.reverse)
          | p :: _ => .popUpTo h (limit.map (· - 1)) (p.value :: got)) :: below ∧
      (s.stepWith granted).store.values = s.store.values.tail := by
  rw [stepWith_cons granted frames, hs.values_eq]
  rw [enter_of_frames frames] at hs
  obtain ⟨rest, -, hbelow⟩ := hs.leave rfl rfl
  obtain ⟨hanswer, hpopped⟩ := hbelow.pop (idle?_eq_some.1 hidle) hshut
  simp only [resume]
  rw [if_neg hlimit, show ({ s with frames := below } : Session α).idle? h = some c from hidle]
  dsimp only
  rw [hanswer]
  cases live with
  | nil => exact ⟨rfl, hpopped.values_eq⟩
  | cons n live => exact ⟨rfl, hpopped.values_eq⟩

theorem Sound.isEmpty_eq (hs : s.Sound dead live held) (hgone : s.isGone = false) :
    s.store.isEmpty = s.store.values.isEmpty := by
  obtain ⟨rfl, -⟩ := hs.alive hgone
  rw [hs.values_eq, Store.isEmpty, hs.tidy.head_eq]
  cases live with
  | nil => rfl
  | cons n live =>
    obtain ⟨L, hstack, h⟩ := hs.tidy
    have hne : n.1 ≠ .nil := h.ne_nil (mem_layout (s := s) (L := L) hstack
      (List.mem_append_left _ List.mem_cons_self))
    cases hn : n.1 with
    | nil => exact absurd hn hne
    | node i g =>
      change n.1.isNil = false
      rw [hn]
      rfl

theorem Sound.flag_stack {r : Nat} (hs : s.Sound dead live held) (granted : Bool)
    (frames : s.frames = .perform (.askStack r .isEmpty) :: below) (hr : s.refers r = true) :
    (s.stepWith granted).frames = .finish (.flag s.store.values.isEmpty) :: below := by
  rw [stepWith_cons granted frames, ← hs.isEmpty_eq (not_gone_of_refers hr)]
  simp only [resume, perform, withReference]
  rw [if_pos (show ({ s with frames := below } : Session α).refers r = true from hr)]
  rfl

theorem Sound.flag_handle {h : Nat} {c : Context} (hs : s.Sound dead live held) (granted : Bool)
    (frames : s.frames = .perform (.askHandle h .isEmpty) :: below) (hidle : s.idle? h = some c) :
    (s.stepWith granted).frames = .finish (.flag s.store.values.isEmpty) :: below := by
  have hseat := idle?_eq_some.1 hidle
  rw [stepWith_cons granted frames, ← hs.isEmpty_eq (not_gone_of_seat hseat)]
  simp only [resume, perform, withHandle]
  rw [show ({ s with frames := below } : Session α).seat? h = some ⟨c, false⟩ from hseat]
  rfl

variable {items rest : List (Item α)} {start : List (Payload α)} {h : Nat} {first last : Link}

theorem Underway.publish (hs : t.Sound dead live held)
    (hu : Underway items below start t live held)
    (frames : t.frames = .batch h first last [] :: below) (hshut : t.store.shutdown = false)
    (granted : Bool) :
    (t.stepWith granted).frames = .finish .done :: below ∧
      (t.stepWith granted).store.values = (Item.payloads items).reverse ++ t.store.values := by
  obtain ⟨above, u, under, rfl, hlength, hcontent, -⟩ :=
    hu.batch_inv (show t.frames = [] ++ _ from frames)
  have hgiven : Item.payloads items = u.values.reverse := hcontent.symm.trans (List.append_nil _)
  have habove := hs.length_held
  rw [frames, List.length_append, List.length_cons, List.length_cons, hlength] at habove
  obtain rfl := List.length_eq_zero_iff.1 (by omega : above.length = 0)
  rw [stepWith_cons granted frames, hs.values_eq, hgiven, List.reverse_reverse]
  rw [enter_of_frames frames] at hs
  obtain ⟨c, hseat, rfl, -⟩ := hs.holding rfl rfl
  have hnil := hs.first_eq_nil
  cases first with
  | nil =>
    obtain rfl := hnil.1 rfl
    refine ⟨rfl, ?_⟩
    exact hs.values_eq
  | node i g =>
    have hu : u ≠ [] := fun hu => Link.noConfusion (hnil.2 hu)
    have hpublished := hs.publish hseat hu
    have hclose : ({ t with frames := below } : Session α).resume granted
        (.batch h (.node i g) last []) =
          (({ t with frames := below } : Session α).settle h
            ((Turn.mk t.store c).publish (.node i g) last)).conclude .done := by
      simp only [resume, closeBatch, hshut, Bool.false_eq_true, if_false]
      rw [hseat]
    rw [hclose]
    exact ⟨rfl, hpublished.values_eq.trans List.map_append⟩

/-- What a batch has taken from its items so far can be read along its private chain. -/
theorem Underway.in_hand {top : List (Frame α)} (hs : t.Sound dead live held)
    (hu : Underway items below start t live held)
    (frames : t.frames = top ++ .batch h first last rest :: below) :
    let links := t.store.arena.between t.store.arena.fresh first last
    (links.filterMap fun l => (t.store.arena.read l).value).reverse ++ Item.payloads rest =
        Item.payloads items ∧
      ∀ l ∈ links, l ∉ t.store.chain := by
  obtain ⟨above, u, under, rfl, hlength, hcontent, -⟩ := hu.batch_inv frames
  have habove := hs.length_held
  have howned := hs.owned
  rw [frames] at habove howned
  simp only [List.length_append, List.length_cons, hlength] at habove
  have hrest := List.forall₂_drop_append _ _ _ howned
  rw [List.drop_left' (by omega)] at hrest
  obtain ⟨rfl, rfl⟩ : first = u.strand.first ∧ last = u.strand.last :=
    (List.forall₂_cons.1 hrest).1
  obtain ⟨L, hstack, h⟩ := hs.tidy
  have hmem : u ∈ above ++ u :: under := List.mem_append_right _ List.mem_cons_self
  intro links
  rw [show links = u.links from between_held (L := L) h hmem, values_held (L := L) h hstack hmem]
  exact ⟨hcontent, fun l hl => not_mem_chain (L := L) h hmem hl⟩

theorem Underway.answer {o : Outcome α}
    (hu : Underway items below start t live held) (granted : Bool)
    (frames : (t.stepWith granted).frames = .finish o :: below) (ho : o = .done)
    (hshut : (t.stepWith granted).store.shutdown = false) :
    t.store.shutdown = false ∧ ∃ h first last, t.frames = .batch h first last [] :: below := by
  subst ho
  have hopen : t.store.shutdown = false := by
    cases hbefore : t.store.shutdown with
    | false => rfl
    | true => exact (shutdown_stepWith granted hbefore).symm.trans hshut
  refine ⟨hopen, ?_⟩
  cases hu with
  | begun hframes given =>
    exfalso
    rw [stepWith_cons granted hframes] at frames
    rcases frames_perform_items { t with frames := below } given with
      ⟨reason, hrefused⟩ | ⟨h, hopened⟩
    · cases (hrefused.symm.trans frames)
    · cases (hopened.symm.trans frames)
  | @building top h first last rest above under u hframes loads length content suffix quiet =>
    cases top with
    | nil =>
      cases rest with
      | nil => exact ⟨h, first, last, hframes⟩
      | cons item rest =>
        obtain ⟨top, base, hnext, hbase⟩ := frames_item { t with frames := below } granted h first
          last item rest
        rw [top_inj frames ((congrArg _ (stepWith_cons granted hframes)).trans hnext)] at hbase
        cases hbase
    | cons f top =>
      obtain ⟨top', hnext⟩ := frames_below granted rfl hframes
      cases top_inj frames hnext
  | undoing top base hframes gives shut =>
    exfalso
    rcases undoing_step hframes gives granted with ⟨top', base', frames', gives'⟩ | frames'
    · rw [top_inj frames frames'] at gives'
      cases gives'
    · obtain rfl := Frame.finish.inj
        (top_inj frames (show (t.stepWith granted).frames = [] ++ _ from frames'))
      rw [shut rfl] at hopen
      cases hopen
  | finished hframes => exact absurd ⟨_, [], frames⟩ (frames_finish granted hframes)

/-- The one step by which a push or a batch changes the stack is the one that ends it. -/
theorem Underway.alters (hs : t.Sound dead live held) (hu : Underway items below start t live held)
    (granted : Bool) (frames : t.frames = f :: below) :
    (t.stepWith granted).store.values = t.store.values ∨
      (t.stepWith granted).frames = .finish .done :: below := by
  cases hf : f.mayAlter with
  | false => exact .inl (hs.values_still granted frames hf)
  | true =>
    cases hu with
    | @begun op hframes given =>
      rw [← top_inj frames (show t.frames = [] ++ _ from hframes)] at hf
      cases op <;> first | (cases given; done) | cases hf
    | @building top h first last rest above under u hframes loads length content suffix quiet =>
      obtain rfl := top_inj frames hframes
      cases rest with
      | cons item rest => cases hf
      | nil =>
        rw [stepWith_cons granted frames]
        cases first with
        | nil => exact .inr rfl
        | node i g =>
          simp only [resume, closeBatch]
          split
          · exact .inl rfl
          · split
            · exact .inl rfl
            · exact .inr rfl
    | undoing top base hframes gives =>
      rw [top_inj frames hframes] at gives
      cases f <;> first | (cases gives; done) | cases hf
    | finished hframes =>
      rw [← top_inj frames (show t.frames = [] ++ _ from hframes)] at hf
      cases hf

end

theorem Within.above_right (hw : Within below s t) : t.Over below := by
  cases hw with
  | start above => exact above
  | step granted within above => exact above

/-- As long as a push or a batch is not done, it has changed nothing by itself. -/
theorem Within.aside {dead : List Link} {live : Load (Payload α)} {held : List (Load (Payload α))}
    {op : Op α} {items : List (Item α)} (hw : Within below s t) (hs : s.Sound dead live held)
    (frames : s.frames = .perform op :: below) (given : op.items = some items) :
    Aside below s t ∨ t.frames = .finish .done :: below := by
  induction hw with
  | start above => exact .inl (.start above)
  | step granted hw above ih =>
    rcases ih with haside | hdone
    · obtain ⟨f, top, hframes⟩ := hw.above_right
      cases top with
      | cons g top => exact .inl (.nested granted haside hframes)
      | nil =>
        obtain ⟨_, _, _, hs', hu⟩ := hw.underway hs frames given
        rcases hu.alters hs' granted hframes with hsame | hdone
        · exact .inl (.own granted haside hframes hsame)
        · exact .inr hdone
    · exact absurd above (frames_finish granted hdone)

theorem Within.returned {dead : List Link} {live : Load (Payload α)}
    {held : List (Load (Payload α))} {op : Op α} {items : List (Item α)} (hw : Within below s t)
    (hs : s.Sound dead live held) (frames : s.frames = .perform op :: below)
    (given : op.items = some items) (hend : t.frames = .finish .done :: below)
    (hshut : t.store.shutdown = false) :
    ∃ m h first last granted, Within below s m ∧ m.frames = .batch h first last [] :: below ∧
      m.store.shutdown = false ∧ t = m.stepWith granted := by
  cases hw with
  | start => cases frames.symm.trans hend
  | @step m granted hm above =>
    obtain ⟨_, _, _, -, hu⟩ := hm.underway hs frames given
    obtain ⟨hopen, h, first, last, hmframes⟩ := hu.answer granted hend rfl hshut
    exact ⟨m, h, first, last, granted, hm, hmframes, hopen, rfl⟩

theorem Sound.lifo {dead : List Link} {live : Load (Payload α)} {held : List (Load (Payload α))}
    (hs : s.Sound dead live held) : s.Lifo where
  pop := fun granted frames hidle hshut => hs.values_pop granted frames hidle hshut
  pops := fun granted frames hlimit hidle hshut =>
    hs.values_popUpTo granted frames hlimit hidle hshut
  empty_stack := fun granted frames hr => hs.flag_stack granted frames hr
  empty_handle := fun granted frames hidle => hs.flag_handle granted frames hidle
  still := fun granted frames hf => hs.values_still granted frames hf
  at_once := by
    intro op below granted frames hop hgone
    refine ⟨hs.values_still granted frames ?_, ?_⟩
    · cases op <;> first | rfl | cases hop
    · exact (s.steps_stepWith granted frames).puts.concludes hop hgone
  published := by
    intro op items below t h first last granted frames given hw hend hshut
    obtain ⟨_, _, _, ht, hu⟩ := hw.underway hs frames given
    exact hu.publish ht hend hshut granted
  returned := fun frames given hw hend hshut => hw.returned hs frames given hend hshut
  pushed := by
    intro h p below t frames hw hend hshut
    obtain ⟨m, h', first, last, granted, hm, hmframes, hmshut, rfl⟩ :=
      hw.returned hs frames rfl hend hshut
    obtain ⟨_, _, _, hsound, hu⟩ := hm.underway hs frames rfl
    obtain ⟨_, _, _, -, -, -, hquiet⟩ := hu.batch_inv (show m.frames = [] ++ _ from hmframes)
    have hstart := (hquiet fun item hitem => List.mem_singleton.1 hitem ▸ rfl).2
    have hvalues := (hu.publish hsound hmframes hmshut granted).2
    rw [hvalues, hsound.values_eq, hstart, ← hs.values_eq]
    rfl
  private_chain := by
    intro op items below t top h first last rest frames given hw hframes
    obtain ⟨_, _, _, ht, hu⟩ := hw.underway hs frames given
    exact hu.in_hand ht hframes
  failed := by
    intro op items below t o frames given hw hend ho
    rcases hw.aside hs frames given with haside | hdone
    · exact haside
    · exact absurd (Frame.finish.inj (List.cons.inj (hend.symm.trans hdone)).1) ho

/-- In every state of every run the stack is last in, first out. -/
theorem lifo_play (p : Plan) (moves : List (Move α)) :
    ((ofPlan p : Session α).play moves).Lifo := by
  obtain ⟨_, _, _, hs, -⟩ := (sound_ofPlan p).play moves
  exact hs.lifo

end Session

end RecyclingStack
