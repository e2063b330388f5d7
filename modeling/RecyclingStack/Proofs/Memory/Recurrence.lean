import RecyclingStack.Proofs.Memory.Tidy

/-! What it takes for an exchange of a root to be safe: whoever finds on top what was on top before
finds its successor as it was, too. -/
namespace RecyclingStack

namespace Store

variable {β : Type} {s t u : Store β} {L M : Layout β} {r : Root}

def hanging (s : Store β) (r : Root) : List Link := s.arena.chain (s.root r)

/-- Three moments of a run in order, seen from one root. -/
structure Steady (r : Root) (s t u : Store β) : Prop where
  /-- A link that is on top at the first and the last was on the chain in between, and leads to the
  same node all the time. -/
  top : ∀ l, l ≠ .nil → s.root r = l → u.root r = l →
    l ∈ t.hanging r ∧ t.arena.next l = s.arena.next l ∧ u.arena.next l = s.arena.next l
  /-- A link that has left the chain is not on it again. -/
  left : ∀ l ∈ s.hanging r, l ∉ t.hanging r → l ∉ u.hanging r
  /-- An exchange prepared at the first moment and made at the last takes just the top off. -/
  exchange : ∀ l, l ≠ .nil → s.root r = l → u.root r = l →
    (u.setRoot (s.arena.next l) r).hanging r = (u.hanging r).tail

theorem Laid.hanging_eq (h : s.Laid L) (r : Root) : s.hanging r = (L.on r).map Cell.link :=
  h.chain_root r

theorem Laid.mem_hanging (h : s.Laid L) {l : Link} :
    l ∈ s.hanging r ↔ ∃ c ∈ L.on r, c.link = l := by
  rw [h.hanging_eq, List.mem_map]

theorem Laid.hanging_cons (h : s.Laid L) (hroot : s.root r ≠ .nil) :
    s.hanging r = s.root r :: s.arena.chain (s.arena.next (s.root r)) := by
  have hlead := h.rooted r
  have hsub := L.sublist_on r
  have hfirst := h.root_eq r
  cases hon : L.on r with
  | nil =>
    rw [hon] at hfirst
    exact absurd hfirst hroot
  | cons c rest =>
    rw [hon] at hlead hsub hfirst
    have hcons := h.chain_cons hsub hlead
    rwa [← show s.root r = c.link from hfirst] at hcons

/-- It is enough that a link on the chain at the first and the last moment was there in between,
and leads to the same node all the time. -/
theorem Steady.of_stays (hs : s.Laid L) (hu : u.Laid M)
    (hstays : ∀ l ∈ s.hanging r, l ∈ u.hanging r →
      l ∈ t.hanging r ∧ t.arena.next l = s.arena.next l ∧ u.arena.next l = s.arena.next l) :
    Steady r s t u := by
  have htop : ∀ l, l ≠ .nil → s.root r = l → u.root r = l →
      l ∈ t.hanging r ∧ t.arena.next l = s.arena.next l ∧ u.arena.next l = s.arena.next l := by
    rintro l hl rfl hroot
    refine hstays _ ?_ ?_
    · rw [hs.hanging_cons hl]
      exact List.mem_cons_self
    · rw [hu.hanging_cons (hroot ▸ hl), hroot]
      exact List.mem_cons_self
  refine ⟨htop, fun l hl ht hback => ht (hstays l hl hback).1, fun l hl hfirst hlast => ?_⟩
  obtain ⟨-, -, hnext⟩ := htop l hl hfirst hlast
  rw [hu.hanging_cons (hlast ▸ hl), hlast, hnext, hanging, arena_setRoot, root_setRoot, if_pos rfl]
  rfl

end Store

end RecyclingStack
