import RecyclingStack.Proofs.Session.Conservation

/-! What a push or a batch drops itself. One that ends while the stack is shut down has dropped
everything that it was given, and nothing else. -/
namespace RecyclingStack

namespace Session

variable {α : Type} {s t : Session α} {f : Frame α} {below : List (Frame α)}
  {items : List (Item α)} {shed : List α}

/-- From the first state to the second, the operation right above these frames drops these values
itself, latest first. Those that operations nested in it drop do not count. -/
inductive Sheds (below : List (Frame α)) : Session α → Session α → List α → Prop where
  | start {s : Session α} (above : s.Over below) : Sheds below s s []
  | own {s t : Session α} {f : Frame α} {shed dropped : List α} (granted : Bool)
      (sheds : Sheds below s t shed) (frames : t.frames = f :: below)
      (drops : (t.stepWith granted).shed = dropped ++ t.shed)
      (above : (t.stepWith granted).Over below) :
      Sheds below s (t.stepWith granted) (dropped ++ shed)
  | nested {s t : Session α} {f g : Frame α} {top : List (Frame α)} {shed : List α}
      (granted : Bool) (sheds : Sheds below s t shed) (frames : t.frames = f :: g :: (top ++ below))
      (above : (t.stepWith granted).Over below) : Sheds below s (t.stepWith granted) shed

/-- Along any course of the operation there is something to say of what it drops. -/
theorem Within.sheds (hw : Within below s t) : ∃ shed, Sheds below s t shed := by
  induction hw with
  | start above => exact ⟨[], .start above⟩
  | @step t granted hw above ih =>
    obtain ⟨shed, hsheds⟩ := ih
    obtain ⟨f, top, frames⟩ := hw.above_right
    cases top with
    | nil => exact ⟨_, .own granted hsheds frames (t.shed_stepWith granted) above⟩
    | cons g top => exact ⟨shed, .nested granted hsheds frames above⟩

theorem content_of_holder (hf : f.holder.isSome) (u : Load (Payload α)) :
    ∃ left, f.content u = some left := by
  cases f <;> first | exact ⟨_, rfl⟩ | cases hf

theorem holder_of_content {u : Load (Payload α)} {left : List (Payload α)}
    (h : f.content u = some left) : f.holder.isSome := by
  cases f <;> first | rfl | cases h

/-- How a frame that holds payloads goes on: it stays or makes room for another one, and drops at
most one of them; or it is over, empty or with everything on the stack. -/
inductive GoesOn (s : Session α) (f : Frame α) (t : Session α) : Prop where
  | holding (top : List (Frame α)) (base : Frame α) (frames : t.frames = top ++ base :: s.frames)
      (light : ∀ g ∈ top, g.isLight = true) (holder : base.holder.isSome)
      (notes : s.notesOf f = [] ∨ ∃ p, s.notesOf f = [.dropped p])
  | closed {o : Outcome α} (frames : t.frames = .finish o :: s.frames)
      (notes : s.notesOf f = [.closed])
  | published (frames : t.frames = .finish .done :: s.frames)
      (running : t.store.shutdown = false)

theorem goesOn_closeBatch {dead : List Link} {live u : Load (Payload α)}
    {held : List (Load (Payload α))} {h : Nat} {first last : Link}
    (hs : (s.enter (.batch h first last [])).Sound dead live (u :: held)) :
    s.GoesOn (.batch h first last []) (s.closeBatch h first last) := by
  obtain ⟨c, hseat, -⟩ := hs.holding rfl rfl
  cases first with
  | nil => exact .closed (o := .done) rfl rfl
  | node i g =>
    simp only [closeBatch]
    split
    · rename_i hshut
      refine .holding [] (.rollBack h [] (.node i g) last .done) rfl (fun _ h => by cases h) rfl
        (.inl ?_)
      simp only [notesOf, Link.isNil, Bool.false_eq_true, if_false, hshut, if_true]
    · rename_i hrunning
      rw [hseat]
      refine .published rfl ?_
      exact (Turn.shutdown_publish _ _ _).trans (Bool.eq_false_iff.2 hrunning)

theorem goesOn_resume {dead : List Link} {live u : Load (Payload α)}
    {held : List (Load (Payload α))} (granted : Bool)
    (hs : (s.enter f).Sound dead live (u :: held)) (hf : f.holder.isSome) :
    s.GoesOn f (s.resume granted f) := by
  cases f with
  | batch h first last items =>
    cases items with
    | nil => exact goesOn_closeBatch hs
    | cons item rest =>
      cases item with
      | perform op =>
        exact .holding [.perform op] (.batch h first last rest) rfl
          (fun g hg => List.mem_singleton.1 hg ▸ rfl) rfl (.inl rfl)
      | panic message =>
        exact .holding [] (.rollBack h (Item.payloads rest) first last (.panicked message)) rfl
          (fun _ h => by cases h) rfl (.inl rfl)
      | payload p =>
        simp only [resume]
        split
        · exact .holding [] (.rollBack h (p :: Item.payloads rest) first last (.exhausted _)) rfl
            (fun _ h => by cases h) rfl (.inl rfl)
        · exact .holding [] (.batch h _ _ rest) rfl (fun _ h => by cases h) rfl (.inl rfl)
  | rollBack h unused cursor last o =>
    cases unused with
    | cons p unused =>
      exact .holding [.hook p.onDrop] (.rollBack h unused cursor last o) rfl
        (fun g hg => List.mem_singleton.1 hg ▸ rfl) rfl (.inr ⟨p, rfl⟩)
    | nil =>
      cases htake : s.store.takeValue cursor with
      | none =>
        refine .closed (o := o) ?_ ?_ <;> simp only [resume, notesOf, htake]
        rfl
      | some taken =>
        refine .holding [.hook taken.1.onDrop]
          (.release h cursor (s.store.arena.next cursor) last o) ?_
          (fun g hg => List.mem_singleton.1 hg ▸ rfl) rfl (.inr ⟨taken.1, ?_⟩) <;>
          simp only [resume, notesOf, htake]
        rfl
  | release h node next last o =>
    by_cases hlast : node = last
    · refine .closed (o := o) ?_ ?_ <;> simp only [resume, notesOf, if_pos hlast]
      rfl
    · refine .holding [] (.rollBack h [] next last o) ?_ (fun _ h => by cases h) rfl (.inl ?_) <;>
        simp only [resume, notesOf, if_neg hlast]
      rfl
  | _ => cases hf

/-- How far a push or a batch is, by what it has dropped and what it holds: together this is what it
was given, until it is over. -/
inductive Shedding (items : List (Item α)) (below : List (Frame α)) (t : Session α)
    (held : List (Load (Payload α))) (shed : List α) : Prop where
  | begun {op : Op α} (frames : t.frames = .perform op :: below) (given : op.items = some items)
      (none : shed = [])
  | holding {top : List (Frame α)} {base : Frame α} {above under : List (Load (Payload α))}
      {u : Load (Payload α)} {left : List (Payload α)} (frames : t.frames = top ++ base :: below)
      (loads : held = above ++ u :: under) (length : under.length = below.length)
      (content : base.content u = some left)
      (whole : (shed ++ left.map Payload.value).Perm ((Item.payloads items).map Payload.value))
  | emptied {o : Outcome α} (frames : t.frames = .finish o :: below)
      (whole : shed.Perm ((Item.payloads items).map Payload.value))
  | published (frames : t.frames = .finish .done :: below) (running : t.store.shutdown = false)
  | refused {reason : Refusal} (frames : t.frames = .finish (.refused reason) :: below)

section

variable {dead : List Link} {live u : Load (Payload α)} {held under : List (Load (Payload α))}

theorem Shedding.begin {op : Op α} (hs : s.Sound dead live held) (given : op.items = some items) :
    ∃ dead' live' held', (s.perform op).Sound dead' live' held' ∧
      Shedding items s.frames (s.perform op) held' [] := by
  obtain ⟨dead', live', held', hs', hunder⟩ := Underway.begin hs given rfl
  refine ⟨dead', live', held', hs', ?_⟩
  rcases frames_perform_items s given with ⟨reason, frames⟩ | ⟨h, frames⟩
  · exact .refused frames
  · have hframes : (s.perform op).frames = [] ++ .batch h .nil .nil items :: s.frames := frames
    obtain ⟨above, u, under, loads, length, content, -⟩ := hunder.batch_inv hframes
    exact .holding hframes loads length (congrArg some content) (.refl _)

/-- The calls of the ledger tell what the frame that goes on holds afterwards. -/
theorem calls_holding {top : List (Frame α)} {base : Frame α} {held' : List (Load (Payload α))}
    {frames : List (Frame α)} (light : ∀ g ∈ top, g.isLight = true)
    (hlength : (top ++ base :: frames).length = held'.length)
    (hunder : under.length = frames.length) (hsuffix : under <:+ held') :
    ∃ above v, held' = above ++ v :: under ∧
      calls (top ++ base :: frames) held' = (base.content v).toList ++ calls frames under := by
  obtain ⟨more, rfl⟩ := hsuffix
  simp only [List.length_append, List.length_cons, hunder] at hlength
  obtain ⟨above, v, rfl⟩ := (List.eq_nil_or_concat' more).resolve_left fun hnil => by
    rw [hnil, List.length_nil] at hlength
    omega
  rw [List.length_append, List.length_singleton] at hlength
  refine ⟨above, v, by simp, ?_⟩
  rw [List.append_assoc, List.singleton_append, calls_append_light light (by omega), calls_cons]

theorem Shedding.onward {left : List (Payload α)} (granted : Bool)
    (hs : (s.enter f).Sound dead live (u :: under)) (content : f.content u = some left)
    (whole : (shed ++ left.map Payload.value).Perm ((Item.payloads items).map Payload.value)) :
    ∃ dead' live' held', (s.resume granted f).Sound dead' live' held' ∧
      Shedding items s.frames (s.resume granted f) held'
        (((s.notesOf f).flatMap Note.shed).map Payload.value ++ shed) := by
  obtain ⟨dead', live', held', hs', hruns, hsuffix⟩ := follows_resume granted hs
  refine ⟨dead', live', held', hs', ?_⟩
  have hunder : under.length = s.frames.length := (Nat.succ.inj hs.length_held).symm
  rw [ledger_enter, content] at hruns
  cases goesOn_resume granted hs (holder_of_content content) with
  | published frames running => exact .published frames running
  | closed frames notes =>
    rw [notes] at hruns ⊢
    refine .emptied frames ?_
    obtain ⟨rfl, -⟩ := List.cons.inj hruns.step_of_single.calls_of_closed
    rwa [List.map_nil, List.append_nil] at whole
  | holding top base frames light holder notes =>
    obtain ⟨above, v, rfl, hcalls⟩ :=
      calls_holding light (frames ▸ hs'.length_held) hunder hsuffix
    obtain ⟨left', hleft'⟩ := content_of_holder holder v
    rw [hleft'] at hcalls
    rw [ledger, frames, hcalls] at hruns
    refine .holding frames rfl hunder hleft' (List.Perm.trans ?_ whole)
    rcases notes with hnone | ⟨p, hdropped⟩
    · rw [hnone] at hruns ⊢
      obtain ⟨rfl⟩ := (List.cons.inj (congrArg Ledger.calls hruns.eq_of_nil)).1
      exact .refl _
    · rw [hdropped] at hruns ⊢
      obtain ⟨before, after, rest, hleft, hmore⟩ := hruns.step_of_single.calls_of_dropped
      obtain ⟨rfl, -⟩ := List.cons.inj hleft
      obtain ⟨rfl, -⟩ := List.cons.inj hmore
      rw [List.map_append, List.map_append, List.map_cons, ← List.append_assoc shed]
      refine .trans ?_ List.perm_middle.symm
      rw [List.append_assoc shed]
      exact .refl _

/-- A step of the operation itself. -/
theorem Shedding.own {dropped : List α} (hs : t.Sound dead live held)
    (hshed : Shedding items below t held shed) (granted : Bool) (frames : t.frames = f :: below)
    (drops : (t.stepWith granted).shed = dropped ++ t.shed)
    (above : (t.stepWith granted).Over below) :
    ∃ dead' live' held', (t.stepWith granted).Sound dead' live' held' ∧
      Shedding items below (t.stepWith granted) held' (dropped ++ shed) := by
  obtain rfl : dropped = (t.notes.flatMap Note.shed).map Payload.value :=
    List.append_cancel_right (drops.symm.trans (t.shed_stepWith granted))
  have hnotes : t.notes = ({ t with frames := below } : Session α).notesOf f := by
    rw [notes, frames]
  rw [hnotes, stepWith_cons granted frames]
  cases hshed with
  | @begun op hframes given none =>
    obtain rfl := (List.cons.inj (frames.symm.trans hframes)).1
    subst none
    rw [enter_of_frames frames] at hs
    obtain ⟨_, -, hbelow⟩ := hs.leave rfl rfl
    have hquiet : (({ t with frames := below } : Session α).notesOf (.perform op)).flatMap
        Note.shed = [] := by
      cases op with
      | push h p => exact shed_openedBy _ h _
      | pushBatch h batch => exact shed_openedBy _ h _
      | _ => cases given
    rw [hquiet]
    exact Shedding.begin hbelow given
  | @holding top base upper under u left hframes loads length content whole =>
    obtain ⟨rfl, rfl⟩ := frames_inj (show t.frames = [] ++ _ from frames) hframes
    have hlength := hs.length_held
    rw [frames, loads, List.length_append, List.length_cons, List.length_cons, length] at hlength
    obtain rfl := List.length_eq_zero_iff.1 (by omega : upper.length = 0)
    rw [enter_of_frames frames, loads] at hs
    exact Shedding.onward granted hs content whole
  | emptied hframes | published hframes | refused hframes =>
    exact absurd above (frames_finish granted hframes)

/-- A step of an operation nested in it. -/
theorem Shedding.nested {g : Frame α} {top : List (Frame α)} (hs : t.Sound dead live held)
    (hshed : Shedding items below t held shed) (granted : Bool)
    (frames : t.frames = f :: g :: (top ++ below)) :
    ∃ dead' live' held', (t.stepWith granted).Sound dead' live' held' ∧
      Shedding items below (t.stepWith granted) held' shed := by
  have hnot : ∀ {k : Frame α}, t.frames ≠ k :: below := by
    intro k hk
    have hlength := congrArg List.length (frames.symm.trans hk)
    simp only [List.length_cons, List.length_append] at hlength
    omega
  obtain ⟨dead', live', held', hs', -, more, rfl⟩ := hs.step granted
  refine ⟨dead', live', _, hs', ?_⟩
  cases hshed with
  | @holding under' base upper under u left hframes loads length content whole =>
    cases under' with
    | nil => exact absurd hframes hnot
    | cons k under' =>
      obtain ⟨top', frames'⟩ := frames_below granted (holder_of_content content) hframes
      have hlength := hs.length_held
      rw [hframes, loads] at hlength
      cases upper with
      | nil =>
        simp only [List.length_append, List.length_cons, List.length_nil, length] at hlength
        omega
      | cons v upper =>
        subst loads
        exact .holding frames' (List.append_assoc more upper (u :: under)).symm length content whole
  | begun hframes | emptied hframes | published hframes | refused hframes =>
    exact absurd hframes hnot

end

theorem Sheds.shedding {dead : List Link} {live : Load (Payload α)}
    {held : List (Load (Payload α))} {op : Op α} (hsheds : Sheds below s t shed)
    (hs : s.Sound dead live held) (frames : s.frames = .perform op :: below)
    (given : op.items = some items) :
    ∃ dead' live' held', t.Sound dead' live' held' ∧ Shedding items below t held' shed := by
  induction hsheds with
  | start => exact ⟨dead, live, held, hs, .begun frames given rfl⟩
  | own granted _ hframes drops above ih =>
    obtain ⟨_, _, _, hs', hshed⟩ := ih
    exact hshed.own hs' granted hframes drops above
  | nested granted _ hframes above ih =>
    obtain ⟨_, _, _, hs', hshed⟩ := ih
    exact hshed.nested hs' granted hframes

/-- A push or a batch that is over while the stack is shut down, and was not turned down at once,
has dropped everything it was given. -/
theorem Sheds.all_given {dead : List Link} {live : Load (Payload α)}
    {held : List (Load (Payload α))} {op : Op α} {o : Outcome α} (hsheds : Sheds below s t shed)
    (hs : s.Sound dead live held) (frames : s.frames = .perform op :: below)
    (given : op.items = some items) (hend : t.frames = .finish o :: below)
    (accepted : ∀ reason, o ≠ .refused reason) (hshut : t.store.shutdown = true) :
    shed.Perm ((Item.payloads items).map Payload.value) := by
  obtain ⟨_, _, _, -, hshed⟩ := hsheds.shedding hs frames given
  cases hshed with
  | begun hframes => cases hframes.symm.trans hend
  | holding hframes _ _ content =>
    rw [top_inj hend hframes] at content
    cases content
  | emptied _ whole => exact whole
  | published _ running => rw [running] at hshut; cases hshut
  | @refused reason hframes =>
    exact absurd (Frame.finish.inj (List.cons.inj (hend.symm.trans hframes)).1) (accepted reason)

end Session

end RecyclingStack
