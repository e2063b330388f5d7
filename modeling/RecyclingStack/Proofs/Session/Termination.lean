import RecyclingStack.Proofs.Session.Calls

/-! Every operation comes to an end. The weight of a session, which counts the values in slots with
what their drops can cause, goes down with every step. -/
namespace RecyclingStack

theorem total_nil : total [] = 0 := rfl

theorem total_cons (n : Nat) (numbers : List Nat) : total (n :: numbers) = n + total numbers := rfl

theorem total_replicate_zero (n : Nat) : total (List.replicate n 0) = 0 := by
  induction n with
  | zero => rfl
  | succ n ih => rw [List.replicate_succ, total_cons, ih]

theorem total_map_modify {γ : Type} (w : γ → Nat) (f : γ → γ) (l : List γ) (i : Nat) :
    total ((l.modify i f).map w) + (l[i]?.elim 0 w) =
      total (l.map w) + (l[i]?.elim 0 fun x => w (f x)) := by
  induction l generalizing i with
  | nil => cases i <;> rfl
  | cons x l ih =>
    cases i with
    | zero =>
      simp only [List.modify_zero_cons, List.map_cons, total_cons, List.getElem?_cons_zero,
        Option.elim]
      omega
    | succ i =>
      have ih := ih i
      simp only [List.modify_succ_cons, List.map_cons, total_cons, List.getElem?_cons_succ]
      omega

def Slot.weight {α : Type} (slot : Slot (Payload α)) : Nat := slot.value.elim 0 Payload.weight

namespace Arena

variable {α : Type}

def segmentWeight (entry : Option (Array (Slot (Payload α)))) : Nat :=
  entry.elim 0 fun slots => total (slots.toList.map Slot.weight)

theorem weight_eq (a : Arena (Payload α)) :
    a.weight = total (a.directory.map segmentWeight) := by
  refine congrArg total (List.map_congr_left fun entry _ => ?_)
  cases entry <;> rfl

theorem weight_modify (a : Arena (Payload α)) (i : Nat) (f : Slot (Payload α) → Slot (Payload α)) :
    (a.modify i f).weight + ((a.slot? i).elim 0 Slot.weight) =
      a.weight + ((a.slot? i).elim 0 fun slot => (f slot).weight) := by
  have hdirectory := total_map_modify segmentWeight
    (fun entry : Option (Array (Slot (Payload α))) =>
      entry.map fun slots => slots.modify (locate i).offset f) a.directory (locate i).segment
  rw [weight_eq, weight_eq]
  rw [slot?, segment?]
  rcases hentry : a.directory[(locate i).segment]? with _ | _ | slots <;>
    rw [hentry] at hdirectory
  · exact hdirectory
  · exact hdirectory
  · have hslots := total_map_modify Slot.weight f slots.toList (locate i).offset
    simp only [Option.elim, segmentWeight, Option.map_some, Array.toList_modify] at hdirectory
    simp only [Option.join_some, Option.bind_some, ← Array.getElem?_toList]
    change total (List.map segmentWeight (a.directory.modify _ _)) + _ = _
    omega

theorem weight_update (a : Arena (Payload α)) (l : Link)
    {f : Slot (Payload α) → Slot (Payload α)} (hf : ∀ slot, (f slot).value = slot.value) :
    (a.update l f).weight = a.weight := by
  cases l with
  | nil => rfl
  | node i g =>
    have hmodify := a.weight_modify i f
    have hsame : (fun slot => (f slot).weight) = Slot.weight := funext fun slot => by
      rw [Slot.weight, hf slot, Slot.weight]
    rw [hsame] at hmodify
    exact Nat.add_right_cancel hmodify

theorem weight_install_le (a : Arena (Payload α)) (segment : Nat) :
    (a.install segment).weight ≤ a.weight := by
  have hset := total_map_modify segmentWeight
    (fun _ => some (Array.replicate (segmentLength segment) {})) a.directory segment
  have hempty : segmentWeight (some (Array.replicate (segmentLength segment)
      ({} : Slot (Payload α)))) = 0 := by
    simpa [segmentWeight, Slot.weight] using total_replicate_zero _
  rw [List.modify_eq_set_getElem?] at hset
  rw [weight_eq, weight_eq, install]
  cases hget : a.directory[segment]? with
  | none =>
    apply Nat.le_of_eq
    rw [List.set_eq_of_length_le (List.getElem?_eq_none_iff.1 hget)]
  | some entry =>
    rw [hget] at hset
    simp only [Option.elim, hempty] at hset
    exact Nat.le.intro hset

theorem weight_allocFresh_le (a : Arena (Payload α)) (granted : Bool) :
    (a.allocFresh granted).state.weight ≤ a.weight := by
  have hclaims := a.claims_allocFresh granted
  generalize a.allocFresh granted = claim at hclaims ⊢
  cases hclaims with
  | full | fills | starves => exact Nat.le_refl _
  | opens => exact a.weight_install_le _

end Arena

namespace Pool

variable {α : Type}

theorem weight_incarnate_le (p : Pool (Payload α)) (i : Nat) (v : Payload α) :
    (p.incarnate i v).1.arena.weight ≤ p.arena.weight + v.weight := by
  have hmodify := p.arena.weight_modify i fun slot => slot.incarnate v
  have hnew : ((p.arena.slot? i).elim 0 fun slot => (slot.incarnate v).weight) ≤ v.weight := by
    cases p.arena.slot? i with
    | none => exact Nat.zero_le _
    | some slot => exact Nat.le_refl _
  change (p.arena.modify i fun slot => slot.incarnate v).weight ≤ _
  omega

theorem weight_allocate_le (p : Pool (Payload α)) (granted : Bool) (v : Payload α) :
    (p.allocate granted v).state.arena.weight ≤ p.arena.weight + v.weight := by
  unfold allocate
  cases hfree : p.free with
  | node i g => exact weight_incarnate_le _ i v
  | nil =>
    have hclaim := p.arena.weight_allocFresh_le granted
    dsimp only
    split
    · apply Nat.le_trans (weight_incarnate_le _ _ v)
      exact Nat.add_le_add_right hclaim _
    · exact Nat.le_trans hclaim (Nat.le_add_right _ _)

theorem weight_deallocate (p : Pool (Payload α)) (l : Link) :
    (p.deallocate l).arena.weight = p.arena.weight :=
  p.arena.weight_update l fun _ => rfl

theorem weight_deallocateAll (p : Pool (Payload α)) (links : List Link) :
    (p.deallocateAll links).arena.weight = p.arena.weight := by
  induction links generalizing p with
  | nil => rfl
  | cons l links ih => exact (ih (p.deallocate l)).trans (p.weight_deallocate l)

end Pool

namespace Store

variable {α : Type}

theorem weight_takeValue {s t : Store (Payload α)} {l : Link} {v : Payload α}
    (h : s.takeValue l = some (v, t)) : t.arena.weight + v.weight = s.arena.weight := by
  rw [takeValue] at h
  split at h
  · cases h
  · rename_i value hvalue
    cases h
    cases l with
    | nil => cases hvalue
    | node i g =>
      have hmodify := s.arena.weight_modify i fun slot => { slot with value := none }
      cases hslot : s.arena.slot? i with
      | none =>
        rw [Arena.read_node, hslot] at hvalue
        cases hvalue
      | some slot =>
        rw [Arena.read_node, hslot] at hvalue
        rw [hslot] at hmodify
        have hslotWeight : slot.weight = v.weight := by
          rw [Slot.weight, show slot.value = some v from hvalue]
          rfl
        have hclear : Slot.weight { slot with value := (none : Option (Payload α)) } = 0 := rfl
        simp only [Option.elim, hslotWeight, hclear] at hmodify
        exact hmodify

theorem weight_thread (s : Store (Payload α)) (e : Link) (links : List Link) :
    (s.thread e links).arena.weight = s.arena.weight := by
  induction links generalizing s with
  | nil => rfl
  | cons l links ih =>
    cases links with
    | nil => exact s.arena.weight_update l fun _ => rfl
    | cons next links => exact (ih (s.setNext l next)).trans (s.arena.weight_update l fun _ => rfl)

theorem weight_orphan (s : Store (Payload α)) (links : List Link) :
    (s.orphan links).arena.weight = s.arena.weight := by
  cases links with
  | nil => rfl
  | cons l links => exact s.weight_thread s.orphans (l :: links)

end Store

namespace Turn

variable {α : Type}

theorem weight_reclaim (t : Turn (Payload α)) :
    t.reclaim.state.store.arena.weight = t.store.arena.weight :=
  Pool.weight_deallocateAll _ _

theorem weight_complete (t : Turn (Payload α)) :
    t.complete.state.store.arena.weight = t.store.arena.weight := by
  simp only [complete]
  split
  · exact weight_reclaim _
  · rfl

theorem weight_publish (t : Turn (Payload α)) (first last : Link) :
    (t.publish first last).state.store.arena.weight = t.store.arena.weight :=
  (weight_complete _).trans (t.store.arena.weight_update last fun _ => rfl)

theorem weight_abandon (t : Turn (Payload α)) :
    t.abandon.state.arena.weight = t.store.arena.weight :=
  (Store.weight_orphan _ _).trans t.weight_reclaim

theorem weight_pop (t : Turn (Payload α)) :
    t.pop.state.store.arena.weight + t.pop.answer.elim 0 Payload.weight =
      t.store.arena.weight := by
  unfold pop
  cases hunlink : t.store.unlink with
  | none => rfl
  | some unlinked =>
    obtain ⟨link, value, store⟩ := unlinked
    rw [Store.unlink] at hunlink
    split at hunlink
    · cases hunlink
    · split at hunlink
      · cases hunlink
      · rename_i htake
        have htaken := Store.weight_takeValue htake
        cases hunlink
        refine Eq.trans (congrArg (· + _) ?_) htaken
        exact (weight_complete _).trans (Arena.weight_update _ _ fun _ => rfl)

end Turn

theorem Payload.weight_eq {α : Type} (p : Payload α) : p.weight = opsWeight p.onDrop + 4 := by
  cases p with
  | mk v ops => rw [Payload.weight, Payload.onDrop]

/-- To drop the payloads of a batch takes no more than to build it. -/
theorem weight_payloads_le {α : Type} (items : List (Item α)) :
    total ((Item.payloads items).map fun p => opsWeight p.onDrop + 2) ≤ itemsWeight items := by
  induction items with
  | nil => exact Nat.zero_le _
  | cons item items ih =>
    unfold itemsWeight
    cases item with
    | payload p =>
      have hcons : Item.payloads (.payload p :: items) = p :: Item.payloads items := rfl
      rw [hcons, List.map_cons, total_cons, Item.weight, p.weight_eq]
      omega
    | perform op => exact Nat.le_trans ih (Nat.le_add_left _ _)
    | panic message => exact Nat.le_trans ih (Nat.le_add_left _ _)

namespace Session

variable {α : Type} {s t : Session α}

theorem weight_enter (s : Session α) (f : Frame α) : (s.enter f).weight = s.weight + f.weight := by
  simp only [weight, enter, List.map_cons, total_cons]
  omega

theorem weight_conclude (s : Session α) (o : Outcome α) : (s.conclude o).weight = s.weight + 1 :=
  s.weight_enter _

theorem weight_dropPayload (s : Session α) (p : Payload α) :
    (s.dropPayload p).weight = s.weight + (opsWeight p.onDrop + 1) :=
  weight_enter (s.record _) _

theorem weight_withStore (s : Session α) (store : Store (Payload α)) :
    ({ s with store } : Session α).weight + s.store.arena.weight =
      s.weight + store.arena.weight := by
  simp only [weight]
  omega

theorem weight_settle {β : Type} (s : Session α) (h : Nat) (e : Effect (Turn (Payload α)) β) :
    (s.settle h e).weight + s.store.arena.weight = s.weight + e.state.store.arena.weight :=
  s.weight_withStore e.state.store

theorem weight_afterDrop_le (s : Session α) : s.afterDrop.weight ≤ s.weight + 2 := by
  unfold afterDrop
  split
  · rw [weight_enter, weight_conclude]
    exact Nat.le_refl _
  · rw [weight_conclude]
    omega

/-- Going on with a reference or refusing to: either way some weight is left over. -/
theorem weight_withReference_lt {go : Session α} {r bound : Nat} (hbound : s.weight + 1 < bound)
    (hgo : go.weight < bound) : (s.withReference r go).weight < bound := by
  unfold withReference
  split
  · exact hgo
  · exact lt_of_eq_of_lt (s.weight_conclude _) hbound

theorem weight_withHandle_lt {go : Context → Session α} {h bound : Nat}
    (hbound : s.weight + 1 < bound) (hgo : ∀ c, (go c).weight < bound) :
    (s.withHandle h go).weight < bound := by
  unfold withHandle
  split
  · exact lt_of_eq_of_lt (s.weight_conclude _) hbound
  · split
    · exact lt_of_eq_of_lt (s.weight_conclude _) hbound
    · exact hgo _

theorem weight_setBusy (s : Session α) (h : Nat) (busy : Bool) :
    (s.setBusy h busy).weight = s.weight := rfl

theorem weight_openBatch (s : Session α) (h : Nat) (items : List (Item α)) :
    (s.openBatch h items).weight = s.weight + (itemsWeight items + 5) :=
  weight_enter (s.setBusy h true) _

theorem one_lt_weight (op : Op α) : 1 < op.weight := by
  cases op <;> simp only [Op.weight] <;> omega

theorem weight_perform_lt (s : Session α) (op : Op α) :
    (s.perform op).weight < s.weight + op.weight := by
  have hone := one_lt_weight op
  have hreference : ∀ {r : Nat} {go : Session α}, go.weight < s.weight + op.weight →
      (s.withReference r go).weight < s.weight + op.weight := fun hgo =>
    weight_withReference_lt (by omega) hgo
  have hhandle : ∀ {h : Nat} {go : Context → Session α},
      (∀ c, (go c).weight < s.weight + op.weight) →
        (s.withHandle h go).weight < s.weight + op.weight := fun hgo =>
    weight_withHandle_lt (by omega) hgo
  cases op <;> simp only [perform]
  case cloneReference | register | setEpoch =>
    refine hreference (lt_of_eq_of_lt (weight_conclude _ _) ?_)
    exact Nat.add_lt_add_left hone _
  case dropReference r =>
    refine hreference (Nat.lt_of_le_of_lt (weight_afterDrop_le _) ?_)
    exact Nat.add_lt_add_left (by simp only [Op.weight]; omega) _
  case dropHandle h =>
    refine hhandle fun c => Nat.lt_of_le_of_lt (weight_afterDrop_le _) ?_
    have hstore := s.weight_withStore (Turn.mk s.store c).abandon.state
    rw [Turn.weight_abandon] at hstore
    have hsame := Nat.add_right_cancel hstore
    apply lt_of_eq_of_lt (congrArg (· + 2) hsame)
    exact Nat.add_lt_add_left (by simp only [Op.weight]; omega) _
  case push h p =>
    refine hhandle fun c => lt_of_eq_of_lt (weight_openBatch _ _ _) ?_
    simp only [itemsWeight, Item.weight, Op.weight]
    omega
  case pushBatch h items =>
    refine hhandle fun c => lt_of_eq_of_lt (weight_openBatch _ _ _) ?_
    simp only [Op.weight]
    omega
  case pushEach h values =>
    refine hhandle fun c => lt_of_eq_of_lt (weight_enter _ _) ?_
    simp only [Frame.weight, Op.weight]
    omega
  case popUpTo h limit =>
    refine hhandle fun c => lt_of_eq_of_lt (weight_enter _ _) ?_
    simp only [Frame.weight, Op.weight]
    omega
  case pop h =>
    refine hhandle fun c => lt_of_eq_of_lt (weight_conclude _ _) ?_
    have hsettle := s.weight_settle h (Turn.mk s.store c).pop
    have hpop := (Turn.mk s.store c).weight_pop
    dsimp only at hpop
    omega
  case advance h =>
    refine hhandle fun c => lt_of_eq_of_lt (weight_conclude _ _) ?_
    have hsettle := s.weight_settle h (Turn.mk s.store c).advance
    have hsame : (Turn.mk s.store c).advance.state.store.arena.weight = s.store.arena.weight :=
      Turn.weight_reclaim _
    omega
  case reclaim h =>
    refine hhandle fun c => lt_of_eq_of_lt (weight_conclude _ _) ?_
    have hsettle := s.weight_settle h (Turn.mk s.store c).reclaim
    have hsame := (Turn.mk s.store c).weight_reclaim
    dsimp only at hsame
    omega
  case shutdown r =>
    refine hreference (lt_of_eq_of_lt (weight_conclude _ _) ?_)
    have hsame : s.shutDown.weight = s.weight := by
      unfold shutDown
      split <;> rfl
    omega
  case setOps h ops =>
    refine hhandle fun c => lt_of_eq_of_lt (weight_conclude _ _) ?_
    exact Nat.add_lt_add_left hone _
  case askStack =>
    exact hreference (lt_of_eq_of_lt (weight_conclude _ _) (Nat.add_lt_add_left hone _))
  case askHandle =>
    exact hhandle fun c =>
      lt_of_eq_of_lt (weight_conclude _ _) (Nat.add_lt_add_left hone _)
  case refused =>
    exact lt_of_eq_of_lt (weight_conclude _ _) (Nat.add_lt_add_left hone _)

theorem weight_deliver_le (s : Session α) (o : Outcome α) : (s.deliver o).weight ≤ s.weight := by
  rcases s with ⟨store, references, handles, frames, events, answer⟩
  cases frames with
  | nil => exact Nat.le_refl _
  | cons f frames =>
    have hswap : ∀ g : Frame α, g.weight ≤ f.weight →
        (⟨store, references, handles, g :: frames, events, answer⟩ : Session α).weight ≤
          (⟨store, references, handles, f :: frames, events, answer⟩ : Session α).weight := by
      intro g hg
      simp only [weight, List.map_cons, total_cons]
      omega
    cases f with
    | pushEach h rest pushed => cases o <;> exact hswap _ (by simp only [Frame.weight]; omega)
    | _ => exact Nat.le_refl _

theorem weight_closeBatch_le (s : Session α) (h : Nat) (first last : Link) :
    (s.closeBatch h first last).weight ≤ s.weight + 2 := by
  cases first with
  | nil => exact Nat.le_trans (Nat.le_of_eq (weight_conclude _ _)) (Nat.le_succ _)
  | node i g =>
    simp only [closeBatch]
    split
    · exact Nat.le_of_eq (weight_enter _ _)
    · split
      · exact Nat.le_add_right _ _
      · rename_i seat _
        rw [weight_conclude]
        have hsettle := s.weight_settle h ((Turn.mk s.store seat.context).publish (.node i g) last)
        rw [Turn.weight_publish] at hsettle
        dsimp only at hsettle
        omega

theorem weight_batch_lt (s : Session α) (granted : Bool) (h : Nat) (first last : Link)
    (items : List (Item α)) :
    (s.resume granted (.batch h first last items)).weight < s.weight + (itemsWeight items + 5) := by
  cases items with
  | nil =>
    apply Nat.lt_of_le_of_lt (s.weight_closeBatch_le h first last)
    exact Nat.add_lt_add_left (by simp only [itemsWeight]; omega) _
  | cons item rest =>
    have hrest := weight_payloads_le rest
    cases item with
    | perform op =>
      simp only [resume, weight_enter, Frame.weight, itemsWeight, Item.weight]
      omega
    | panic message =>
      simp only [resume, weight_enter, Frame.weight, itemsWeight, Item.weight]
      omega
    | payload p =>
      have halloc : (s.store.allocate granted p).state.arena.weight ≤
          s.store.arena.weight + p.weight := s.store.pool.weight_allocate_le granted p
      simp only [resume]
      cases hanswer : (s.store.allocate granted p).answer with
      | error failure =>
        have hsame : (s.store.allocate granted p).state = s.store := Store.allocate_error hanswer
        rw [hsame]
        apply lt_of_eq_of_lt (weight_enter _ _)
        change s.weight + _ < _
        simp only [Frame.weight, itemsWeight, Item.weight, List.map_cons, total_cons, p.weight_eq]
        omega
      | ok l =>
        have hlinked : ((s.store.allocate granted p).state.setNext l first).arena.weight =
            (s.store.allocate granted p).state.arena.weight :=
          Arena.weight_update _ _ fun _ => rfl
        have hstore := s.weight_withStore ((s.store.allocate granted p).state.setNext l first)
        apply lt_of_eq_of_lt (weight_enter _ _)
        change ({ s with store := (s.store.allocate granted p).state.setNext l first } :
          Session α).weight + _ < _
        simp only [Frame.weight, itemsWeight, Item.weight]
        omega

/-- A payload in a slot weighs three more than its drop, which leaves room for another frame. -/
theorem weight_dropped_lt {store : Store (Payload α)} {l : Link} {p : Payload α} {f : Frame α}
    {bound : Nat} (htake : s.store.takeValue l = some (p, store)) (hf : f.weight < bound + 3) :
    (({ s with store }.enter f).dropPayload p).weight < s.weight + bound := by
  have htaken := Store.weight_takeValue htake
  have hstore := s.weight_withStore store
  rw [p.weight_eq] at htaken
  simp only [weight_dropPayload, weight_enter]
  omega

theorem weight_rollBack_lt (s : Session α) (granted : Bool) (h : Nat)
    (unused : List (Payload α)) (cursor last : Link) (o : Outcome α) :
    (s.resume granted (.rollBack h unused cursor last o)).weight <
      s.weight + (Frame.rollBack h unused cursor last o).weight := by
  cases unused with
  | cons p unused =>
    simp only [resume, weight_dropPayload, weight_enter, Frame.weight, List.map_cons, total_cons]
    omega
  | nil =>
    simp only [resume]
    split
    · apply lt_of_eq_of_lt (weight_conclude _ _)
      exact Nat.add_lt_add_left (by simp only [Frame.weight]; omega) _
    · rename_i p store htake
      exact weight_dropped_lt htake (by simp only [Frame.weight]; omega)

theorem weight_release_lt (s : Session α) (granted : Bool) (h : Nat) (node next last : Link)
    (o : Outcome α) :
    (s.resume granted (.release h node next last o)).weight < s.weight + 3 := by
  have hstore := s.weight_withStore (s.store.deallocate node)
  have hsame : (s.store.deallocate node).arena.weight = s.store.arena.weight :=
    s.store.pool.weight_deallocate node
  simp only [resume]
  split
  · apply lt_of_eq_of_lt (weight_conclude _ _)
    rw [weight_setBusy]
    omega
  · apply lt_of_eq_of_lt (weight_enter _ _)
    simp only [Frame.weight, List.map_nil, total_nil]
    omega

theorem weight_popUpTo_lt (s : Session α) (granted : Bool) (h : Nat) (limit : Option Nat)
    (got : List α) : (s.resume granted (.popUpTo h limit got)).weight < s.weight + 2 := by
  have hconclude : ∀ o, (s.conclude o).weight < s.weight + 2 := fun o =>
    lt_of_eq_of_lt (weight_conclude _ _) (Nat.lt_succ_self _)
  simp only [resume]
  split
  · exact hconclude _
  split
  · exact hconclude _
  rename_i c _
  have hsettle := s.weight_settle h (Turn.mk s.store c).pop
  have hpop := (Turn.mk s.store c).weight_pop
  dsimp only at hpop
  split
  · apply lt_of_eq_of_lt (weight_conclude _ _)
    omega
  · rename_i p hp
    rw [hp, Option.elim_some, p.weight_eq] at hpop
    apply lt_of_eq_of_lt (weight_enter _ _)
    simp only [Frame.weight]
    omega

/-- Every step takes some weight away. -/
theorem weight_resume_lt (s : Session α) (granted : Bool) (f : Frame α) :
    (s.resume granted f).weight < s.weight + f.weight := by
  cases f with
  | perform op => exact s.weight_perform_lt op
  | hook rest =>
    cases rest with
    | nil => exact Nat.lt_add_of_pos_right (Nat.succ_pos _)
    | cons op rest =>
      simp only [resume, weight_enter, Frame.weight, opsWeight]
      omega
  | batch h first last items => exact s.weight_batch_lt granted h first last items
  | rollBack h unused cursor last o => exact s.weight_rollBack_lt granted h unused cursor last o
  | release h node next last o => exact s.weight_release_lt granted h node next last o
  | finish o =>
    exact Nat.lt_of_le_of_lt (s.weight_deliver_le o) (Nat.lt_add_of_pos_right (Nat.succ_pos _))
  | destroy cursor dropped =>
    simp only [resume]
    split
    · split <;> exact Nat.lt_add_of_pos_right (Nat.succ_pos _)
    · rename_i p store htake
      exact weight_dropped_lt htake (by simp only [Frame.weight]; omega)
  | pushEach h values pushed =>
    cases values with
    | nil => exact lt_of_eq_of_lt (weight_conclude _ _) (Nat.lt_succ_self _)
    | cons v rest =>
      simp only [resume, weight_enter, Frame.weight, Op.weight, Payload.plain, Payload.weight,
        opsWeight, List.length_cons]
      omega
  | popUpTo h limit got => exact s.weight_popUpTo_lt granted h limit got

theorem weight_stepWith_lt (granted : Bool) (h : s.frames ≠ []) :
    (s.stepWith granted).weight < s.weight := by
  rcases s with ⟨store, references, handles, frames, events, answer⟩
  cases frames with
  | nil => exact absurd rfl h
  | cons f frames =>
    have hstep := weight_resume_lt ⟨store, references, handles, frames, events, answer⟩ granted f
    rwa [← weight_enter] at hstep

theorem stepUpTo_nil (n : Nat) (h : s.frames = []) : s.stepUpTo n = s := by
  cases n with
  | zero => rfl
  | succ n => rw [stepUpTo, h]; rfl

theorem stepUpTo_cons (n : Nat) (h : s.frames ≠ []) :
    s.stepUpTo (n + 1) = s.step.stepUpTo n := by
  rw [stepUpTo, if_neg]
  exact fun hempty => h (List.isEmpty_iff.1 hempty)

theorem frames_stepUpTo {n : Nat} (h : s.weight ≤ n) : (s.stepUpTo n).frames = [] := by
  induction n generalizing s with
  | zero =>
    by_contra hne
    have hlt := weight_stepWith_lt (s := s) true hne
    omega
  | succ n ih =>
    by_cases hnil : s.frames = []
    · rw [stepUpTo_nil _ hnil, hnil]
    · rw [stepUpTo_cons _ hnil]
      have hlt := weight_stepWith_lt true hnil
      exact ih (by rw [step]; omega)

theorem stepUpTo_enough {n m : Nat} (hn : s.weight ≤ n) (hm : s.weight ≤ m) :
    s.stepUpTo n = s.stepUpTo m := by
  induction n generalizing s m with
  | zero =>
    by_cases hnil : s.frames = []
    · rw [stepUpTo_nil _ hnil, stepUpTo_nil _ hnil]
    · have hlt := weight_stepWith_lt true hnil
      omega
  | succ n ih =>
    by_cases hnil : s.frames = []
    · rw [stepUpTo_nil _ hnil, stepUpTo_nil _ hnil]
    · have hlt := weight_stepWith_lt true hnil
      obtain ⟨m, rfl⟩ : ∃ k, m = k + 1 := ⟨m - 1, by omega⟩
      rw [stepUpTo_cons _ hnil, stepUpTo_cons _ hnil]
      exact ih (by rw [step]; omega) (by rw [step]; omega)

theorem run_nil (h : s.frames = []) : s.run = s := stepUpTo_nil _ h

theorem run_step (h : s.frames ≠ []) : s.run = s.step.run := by
  have hlt : s.step.weight < s.weight := weight_stepWith_lt true h
  obtain ⟨n, hn⟩ : ∃ n, s.weight = n + 1 := ⟨s.weight - 1, by omega⟩
  rw [run, hn, stepUpTo_cons _ h, run]
  exact stepUpTo_enough (by omega) (Nat.le_refl _)

theorem frames_run (s : Session α) : s.run.frames = [] := frames_stepUpTo (Nat.le_refl _)

/-- What every step keeps is there at the end. -/
theorem run_induction {motive : Session α → Prop} (hstep : ∀ s, motive s → motive s.step)
    (h : motive s) : motive s.run := by
  have hany : ∀ n (s : Session α), motive s → motive (s.stepUpTo n) := by
    intro n
    induction n with
    | zero => exact fun s h => h
    | succ n ih =>
      intro s h
      unfold stepUpTo
      split
      · exact h
      · exact ih _ (hstep s h)
  exact hany _ s h

end Session

end RecyclingStack
