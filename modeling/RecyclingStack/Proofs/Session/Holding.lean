import RecyclingStack.Proofs.Memory.Turns
import RecyclingStack.Session.Run

/-! Who holds which node in a session. An operation under way holds a private chain of nodes with
values, or a node it is about to give back; a handle holds its deferred nodes; and the handle of a
push or a batch is busy as long as the operation has a frame. -/
namespace RecyclingStack

namespace Frame

variable {α : Type}

def holder : Frame α → Option Nat
  | .batch handle _ _ _ => some handle
  | .rollBack handle _ _ _ _ => some handle
  | .release handle _ _ _ _ => some handle
  | _ => none

/-- The node without value that is about to be given back. -/
def vacant : Frame α → List Link
  | .release _ node _ _ _ => [node]
  | _ => []

def cursor? : Frame α → Option Link
  | .destroy cursor _ => some cursor
  | _ => none

/-- The private chain that a frame remembers by its ends. -/
def Owns : Frame α → Load (Payload α) → Prop
  | .batch _ first last _, u => first = u.strand.first ∧ last = u.strand.last
  | .rollBack _ _ cursor last _, u => cursor = u.strand.first ∧ last = u.strand.last
  | .release _ node next last _, u =>
    (u = [] ∧ node = last) ∨
      (u ≠ [] ∧ node ≠ last ∧ next = u.strand.first ∧ last = u.strand.last)
  | _, u => u = []

/-- Frames that hold no node of their own. -/
def isLight : Frame α → Bool
  | .batch _ _ _ _ | .rollBack _ _ _ _ _ | .release _ _ _ _ _ => false
  | _ => true

theorem holder_light {f : Frame α} (h : f.isLight = true) : f.holder = none := by
  cases f <;> first | rfl | cases h

theorem vacant_light {f : Frame α} (h : f.isLight = true) : f.vacant = [] := by
  cases f <;> first | rfl | cases h

theorem owns_light {f : Frame α} (h : f.isLight = true) (u : Load (Payload α)) :
    f.Owns u ↔ u = [] := by
  cases f <;> first | exact Iff.rfl | cases h

end Frame

namespace Session

variable {α : Type} {s t : Session α} {f g : Frame α} {dead : List Link}
  {live live' u w : Load (Payload α)} {held rest : List (Load (Payload α))}

def holders (s : Session α) : List Nat := s.frames.filterMap Frame.holder

def deferred (s : Session α) : List Link :=
  s.handles.flatMap fun seat => seat.elim [] fun seat => seat.context.deferred.links

/-- The nodes without value that a frame or a handle holds. -/
def vacant (s : Session α) : List Link := s.frames.flatMap Frame.vacant ++ s.deferred

def cursors (s : Session α) : List Link := s.frames.filterMap Frame.cursor?

/-- The nodes are where they belong: `dead` and `live` on the stack, `held` with the frames, one
load for each. -/
structure Kept (s : Session α) (dead : List Link) (live : Load (Payload α))
    (held : List (Load (Payload α))) : Prop where
  tidy : s.store.Tidy (Strand.idle dead ++ live.strand)
    (held.map Load.strand ++ Strand.loose s.vacant)
  owned : List.Forall₂ Frame.Owns s.frames held
  single : s.holders.Nodup
  busy : ∀ h, h ∈ s.holders ↔ ∃ context, s.seat? h = some ⟨context, true⟩

/-- And only the end of the stack takes values out of nodes that stay on it. -/
structure Sound (s : Session α) (dead : List Link) (live : Load (Payload α))
    (held : List (Load (Payload α))) : Prop extends s.Kept dead live held where
  alive : s.isGone = false → dead = [] ∧ s.cursors = []
  gone : s.isGone = true → s.cursors = [live.strand.first] ∨ s.cursors = [] ∧ live = []

theorem lt_of_seat {h : Nat} {seat : Seat} (hs : s.seat? h = some seat) :
    h < s.handles.length := by
  apply Nat.lt_of_not_le
  intro hle
  rw [seat?, List.getElem?_eq_none hle] at hs
  cases hs

theorem getElem?_of_seat {h : Nat} {seat : Seat} (hs : s.seat? h = some seat) :
    s.handles[h]? = some (some seat) := by
  rw [seat?] at hs
  cases hh : s.handles[h]? with
  | none => rw [hh] at hs; cases hs
  | some entry => rw [hh] at hs; exact congrArg some hs

theorem seat?_setSeat {h : Nat} (hlt : h < s.handles.length) (seat : Option Seat) (k : Nat) :
    (s.setSeat h seat).seat? k = if h = k then seat else s.seat? k := by
  simp only [seat?, setSeat, List.getElem?_set, hlt, if_true]
  split
  · rfl
  · rfl

theorem set_of_getElem? {γ : Type} {l : List γ} {i : Nat} {x : γ} (h : l[i]? = some x) :
    l.set i x = l := by
  obtain ⟨hlt, rfl⟩ := List.getElem?_eq_some_iff.1 h
  exact List.set_getElem_self hlt

theorem setBusy_eq {h : Nat} {seat : Seat} (hs : s.seat? h = some seat) (busy : Bool) :
    s.setBusy h busy = s.setSeat h (some { seat with busy }) := by
  have hget := getElem?_of_seat hs
  simp only [setBusy, setSeat, List.modify_eq_set_getElem?, hget]
  rfl

theorem setBusy_of_none {h : Nat} (hseat : s.seat? h = none) (busy : Bool) :
    s.setBusy h busy = s := by
  have hsame : s.handles.modify h (fun seat => seat.map fun seat => { seat with busy }) =
      s.handles := by
    rw [List.modify_eq_set_getElem?]
    cases hget : s.handles[h]? with
    | none => rfl
    | some seat =>
      rw [seat?, hget] at hseat
      obtain rfl : seat = none := hseat
      exact set_of_getElem? hget
  rw [setBusy, hsame]

theorem idle?_eq_some {h : Nat} {c : Context} :
    s.idle? h = some c ↔ s.seat? h = some ⟨c, false⟩ := by
  unfold idle?
  cases s.seat? h with
  | none => simp
  | some seat =>
    rcases seat with ⟨context, _ | _⟩ <;> simp

theorem withHandle_idle {h : Nat} {c : Context} (idle : s.idle? h = some c)
    (go : Context → Session α) : s.withHandle h go = go c := by
  rw [withHandle, idle?_eq_some.1 idle]
  rfl

theorem not_gone_of_seat {h : Nat} {seat : Seat} (hs : s.seat? h = some seat) :
    s.isGone = false := by
  have hmem := List.mem_of_getElem? (getElem?_of_seat hs)
  apply Bool.eq_false_iff.2
  intro hgone
  rw [isGone, Bool.and_eq_true] at hgone
  exact absurd (List.all_eq_true.1 hgone.2 _ hmem) Bool.false_ne_true

theorem not_gone_of_refers {r : Nat} (hr : s.refers r = true) : s.isGone = false := by
  rw [refers] at hr
  cases hget : s.references[r]? with
  | none => rw [hget] at hr; cases hr
  | some b =>
    rw [hget] at hr
    have hb : b = true := hr
    have hmem := List.mem_of_getElem? hget
    apply Bool.eq_false_iff.2
    intro hgone
    rw [isGone, Bool.and_eq_true] at hgone
    have hfalse := List.all_eq_true.1 hgone.1 _ hmem
    rw [hb] at hfalse
    cases hfalse

theorem seat?_of_gone (hgone : s.isGone = true) (h : Nat) : s.seat? h = none := by
  cases hs : s.seat? h with
  | none => rfl
  | some seat => rw [not_gone_of_seat hs] at hgone; cases hgone

theorem flatMap_set_perm {γ δ : Type} (f : γ → List δ) {l : List γ} {i : Nat} {x : γ} (y : γ)
    (hx : l[i]? = some x) : (f x ++ (l.set i y).flatMap f).Perm (f y ++ l.flatMap f) := by
  induction l generalizing i with
  | nil => cases hx
  | cons z l ih =>
    cases i with
    | zero =>
      cases hx
      simp only [List.set_cons_zero, List.flatMap_cons, ← List.append_assoc]
      exact List.perm_append_comm.append_right _
    | succ i =>
      simp only [List.set_cons_succ, List.flatMap_cons]
      apply (List.perm_append_comm_assoc _ _ _).trans
      exact ((ih hx).append_left (f z)).trans (List.perm_append_comm_assoc _ _ _)

theorem deferred_perm {h : Nat} {seat : Seat} (hs : s.seat? h = some seat) :
    s.deferred.Perm (seat.context.deferred.links ++ (s.setSeat h none).deferred) :=
  (flatMap_set_perm (fun seat => seat.elim [] fun seat => seat.context.deferred.links) none
    (getElem?_of_seat hs)).symm

theorem deferred_setSeat {h : Nat} (seat : Seat) (hlt : h < s.handles.length) :
    (s.setSeat h (some seat)).deferred.Perm
      (seat.context.deferred.links ++ (s.setSeat h none).deferred) := by
  have hs : (s.setSeat h (some seat)).seat? h = some seat := by
    rw [seat?_setSeat hlt, if_pos rfl]
  have hset : (s.setSeat h (some seat)).setSeat h none = s.setSeat h none := by
    simp [setSeat]
  exact hset ▸ deferred_perm hs

theorem vacant_perm {h : Nat} {seat : Seat} (hs : s.seat? h = some seat) :
    s.vacant.Perm (seat.context.deferred.links ++ (s.setSeat h none).vacant) :=
  ((deferred_perm hs).append_left _).trans (List.perm_append_comm_assoc _ _ _)

theorem vacant_setSeat {h : Nat} (seat : Seat) (hlt : h < s.handles.length) :
    (s.setSeat h (some seat)).vacant.Perm
      (seat.context.deferred.links ++ (s.setSeat h none).vacant) :=
  ((deferred_setSeat seat hlt).append_left _).trans (List.perm_append_comm_assoc _ _ _)

theorem tidy_seat {store : Store (Payload α)} {stack : Strand (Payload α)}
    {strands : List (Strand (Payload α))} {seat : Seat} {h : Nat} (hlt : h < s.handles.length)
    (htidy : store.Tidy stack (Strand.loose seat.context.deferred.links ++
      (strands ++ Strand.loose (s.setSeat h none).vacant))) :
    store.Tidy stack (strands ++ Strand.loose (s.setSeat h (some seat)).vacant) := by
  refine htidy.perm ((List.perm_append_comm_assoc _ _ _).trans (.append_left _ ?_))
  rw [← Strand.loose_append]
  exact Strand.loose_perm (vacant_setSeat seat hlt).symm

theorem vacant_enter (s : Session α) (f : Frame α) : (s.enter f).vacant = f.vacant ++ s.vacant :=
  List.append_assoc _ _ _

theorem holders_enter (s : Session α) (f : Frame α) :
    (s.enter f).holders = f.holder.toList ++ s.holders := by
  cases h : f.holder with
  | none => exact List.filterMap_cons_none h
  | some k => exact List.filterMap_cons_some h

theorem cursors_enter (s : Session α) (f : Frame α) :
    (s.enter f).cursors = f.cursor?.toList ++ s.cursors := by
  cases h : f.cursor? with
  | none => exact List.filterMap_cons_none h
  | some k => exact List.filterMap_cons_some h

theorem enter_of_frames {below : List (Frame α)} (h : s.frames = f :: below) :
    s = ({ s with frames := below } : Session α).enter f := by
  rcases s with ⟨store, references, handles, frames, events, answer⟩
  cases h
  rfl

namespace Kept

theorem enter (hf : f.isLight = true) (h : s.Kept dead live held) :
    (s.enter f).Kept dead live ([] :: held) where
  tidy := by
    rw [vacant_enter, Frame.vacant_light hf]
    exact h.tidy.addNil
  owned := .cons ((Frame.owns_light hf _).2 rfl) h.owned
  single := by
    rw [holders_enter, Frame.holder_light hf]
    exact h.single
  busy := by
    rw [holders_enter, Frame.holder_light hf]
    exact h.busy

theorem leave (hf : f.isLight = true) (h : (s.enter f).Kept dead live held) :
    ∃ rest, held = [] :: rest ∧ s.Kept dead live rest := by
  cases held with
  | nil => cases h.owned
  | cons u rest =>
    obtain ⟨hu, howned⟩ := List.forall₂_cons.1 h.owned
    obtain rfl := (Frame.owns_light hf u).1 hu
    refine ⟨rest, rfl, ?_, howned, ?_, ?_⟩
    · have htidy := h.tidy
      rw [vacant_enter, Frame.vacant_light hf] at htidy
      exact htidy.dropNil
    · have hsingle := h.single
      rwa [holders_enter, Frame.holder_light hf] at hsingle
    · have hbusy := h.busy
      rwa [holders_enter, Frame.holder_light hf] at hbusy

/-- A frame makes room for one of the same handle, with the store changed to match. -/
theorem replace {store : Store (Payload α)} (h : (s.enter f).Kept dead live (u :: rest))
    (hholder : g.holder = f.holder) (howns : g.Owns w)
    (htidy : store.Tidy (Strand.idle dead ++ live'.strand)
      (w.strand :: (rest.map Load.strand ++ Strand.loose (g.vacant ++ s.vacant)))) :
    ({ s with store }.enter g).Kept dead live' (w :: rest) where
  tidy := by rw [vacant_enter]; exact htidy
  owned := .cons howns (List.forall₂_cons.1 h.owned).2
  single := by
    have hsingle := h.single
    rw [holders_enter] at hsingle ⊢
    rwa [hholder]
  busy := by
    have hbusy := h.busy
    rw [holders_enter] at hbusy ⊢
    rwa [hholder]

theorem exists_seat {h : Nat} (hk : (s.enter f).Kept dead live held) (hf : f.holder = some h) :
    ∃ context, s.seat? h = some ⟨context, true⟩ := by
  apply (hk.busy h).1
  rw [holders_enter, hf]
  exact List.mem_cons_self

theorem settle {store : Store (Payload α)} {context : Context} {h : Nat}
    (hk : (s.enter f).Kept dead live (u :: rest)) (hf : f.holder = some h)
    (htidy : store.Tidy (Strand.idle dead ++ live'.strand)
      (Strand.loose context.deferred.links ++
        (rest.map Load.strand ++ Strand.loose (s.setSeat h none).vacant))) :
    ({ s with store }.setSeat h (some (Seat.idle context))).Kept dead live' rest := by
  obtain ⟨old, hseat⟩ := hk.exists_seat hf
  have hlt := lt_of_seat hseat
  have hsingle : (h :: s.holders).Nodup := by
    have hsingle := hk.single
    rwa [holders_enter, hf] at hsingle
  refine ⟨?_, (List.forall₂_cons.1 hk.owned).2, (List.nodup_cons.1 hsingle).2, fun k => ?_⟩
  · exact tidy_seat hlt htidy
  · rw [seat?_setSeat (s := { s with store }) hlt]
    have hbusy := hk.busy k
    rw [holders_enter, hf, Option.toList_some, List.singleton_append, List.mem_cons] at hbusy
    split
    · rename_i heq
      subst heq
      constructor
      · exact fun hmem => absurd hmem (List.nodup_cons.1 hsingle).1
      · rintro ⟨c, hc⟩
        cases hc
    · rename_i hne
      refine ⟨fun hmem => hbusy.1 (.inr hmem), fun hc => ?_⟩
      exact (hbusy.2 hc).resolve_left fun heq => hne heq.symm

/-- A busy handle has a frame, so that an idle one is free for the next operation. -/
theorem turn {store : Store (Payload α)} {context c : Context} {h : Nat}
    (hk : s.Kept dead live held) (hseat : s.seat? h = some ⟨c, false⟩)
    (htidy : store.Tidy (Strand.idle dead ++ live'.strand)
      (Strand.loose context.deferred.links ++
        (held.map Load.strand ++ Strand.loose (s.setSeat h none).vacant))) :
    ({ s with store }.setSeat h (some (Seat.idle context))).Kept dead live' held := by
  have hlt := lt_of_seat hseat
  refine ⟨?_, hk.owned, hk.single, fun k => (hk.busy k).trans ?_⟩
  · exact tidy_seat hlt htidy
  · rw [seat?_setSeat (s := { s with store }) hlt]
    split
    · rename_i heq
      subst heq
      rw [hseat]
      constructor <;> (rintro ⟨c, hc⟩; cases hc)
    · exact Iff.rfl

theorem tidy_turn {seat : Seat} {h : Nat} (hk : s.Kept dead live held)
    (hseat : s.seat? h = some seat) :
    (Turn.mk s.store seat.context).Tidy (Strand.idle dead ++ live.strand)
      (held.map Load.strand ++ Strand.loose (s.setSeat h none).vacant) := by
  apply hk.tidy.perm
  refine .trans (.append_left _ (Strand.loose_perm (vacant_perm hseat))) ?_
  rw [Strand.loose_append]
  exact List.perm_append_comm_assoc _ _ _

theorem occupy {c : Context} {h : Nat} (hk : s.Kept dead live held)
    (hseat : s.seat? h = some ⟨c, false⟩) (hf : f.holder = some h) (hvacant : f.vacant = [])
    (howns : f.Owns []) : ((s.setBusy h true).enter f).Kept dead live ([] :: held) := by
  have hlt := lt_of_seat hseat
  rw [setBusy_eq hseat]
  have hholders : ((s.setSeat h (some ⟨c, true⟩)).enter f).holders = h :: s.holders := by
    rw [holders_enter, hf]
    rfl
  have hfree : h ∉ s.holders := by
    intro hmem
    obtain ⟨context, hbusy⟩ := (hk.busy h).1 hmem
    rw [hseat] at hbusy
    cases hbusy
  refine ⟨?_, .cons howns hk.owned, ?_, fun k => ?_⟩
  · rw [vacant_enter, hvacant]
    refine (hk.tidy.perm ?_).addNil
    refine .append_left _ (Strand.loose_perm ?_)
    exact (vacant_perm hseat).trans (vacant_setSeat ⟨c, true⟩ hlt).symm
  · rw [hholders]
    exact List.nodup_cons.2 ⟨hfree, hk.single⟩
  · rw [hholders, List.mem_cons]
    refine Iff.trans ?_ (Iff.of_eq (congrArg (fun x => ∃ context, x = some (Seat.mk context true))
      (seat?_setSeat hlt (some ⟨c, true⟩) k).symm))
    split
    · rename_i heq
      exact ⟨fun _ => ⟨c, rfl⟩, fun _ => .inl heq.symm⟩
    · rename_i hne
      rw [← hk.busy k]
      exact ⟨fun hor => hor.resolve_left fun heq => hne heq.symm, .inr⟩

end Kept

namespace Sound

theorem of_eq (h : s.Sound dead live held) (hstore : t.store = s.store)
    (hreferences : t.references = s.references) (hhandles : t.handles = s.handles)
    (hframes : t.frames = s.frames) : t.Sound dead live held := by
  cases s
  cases t
  cases hstore
  cases hreferences
  cases hhandles
  cases hframes
  exact ⟨⟨h.tidy, h.owned, h.single, h.busy⟩, h.alive, h.gone⟩

theorem of_alive (hk : s.Kept [] live held) (hgone : s.isGone = false) (hc : s.cursors = []) :
    s.Sound [] live held :=
  ⟨hk, fun _ => ⟨rfl, hc⟩, fun h => absurd (hgone.symm.trans h) Bool.false_ne_true⟩

theorem enter (hf : f.isLight = true) (hc : f.cursor? = none) (h : s.Sound dead live held) :
    (s.enter f).Sound dead live ([] :: held) := by
  refine ⟨h.toKept.enter hf, ?_, ?_⟩ <;> rw [cursors_enter, hc]
  · exact h.alive
  · exact h.gone

theorem leave (hf : f.isLight = true) (hc : f.cursor? = none)
    (h : (s.enter f).Sound dead live held) :
    ∃ rest, held = [] :: rest ∧ s.Sound dead live rest := by
  obtain ⟨rest, rfl, hk⟩ := h.toKept.leave hf
  have halive := h.alive
  have hgone := h.gone
  rw [cursors_enter, hc] at halive hgone
  exact ⟨rest, rfl, hk, halive, hgone⟩

/-- The frame on top owns a load. -/
theorem of_frames {below : List (Frame α)} (hs : s.Sound dead live held)
    (h : s.frames = f :: below) :
    ∃ u rest, held = u :: rest ∧
      (({ s with frames := below } : Session α).enter f).Sound dead live (u :: rest) := by
  rw [enter_of_frames h] at hs
  cases held with
  | nil => cases hs.owned
  | cons u rest => exact ⟨u, rest, rfl, hs⟩

/-- As long as there is a handle, the stack holds values only, and no end is under way. -/
theorem of_seat {h : Nat} {seat : Seat} (hs : s.seat? h = some seat)
    (hsound : s.Sound dead live held) :
    dead = [] ∧ s.cursors = [] :=
  hsound.alive (not_gone_of_seat hs)

end Sound

end Session

end RecyclingStack
