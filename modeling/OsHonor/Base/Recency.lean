import Mathlib.Data.List.Nodup
import Mathlib.Order.Lattice

/-! # Recency in a history of accesses

A history is the list of the keys that were accessed, the last one first. `Older hist a b` says that the last
access to `a` is older than that to `b`, and `InOrder hist l` that the keys of `l` come by age, the oldest one
first: the order a least-recently-used list keeps.

An access to a key that is not in `l` keeps the order when the key is put at the end. A ring that is only turned
behind the accessed key keeps it exactly if the key was its first or its last one (`inOrder_turn_iff`). -/

namespace OsHonor.Base.Recency

open List

variable {α : Type*} [DecidableEq α] {hist l r : List α} {a b : α}

/-- The last access to `a` is older than the last access to `b`. -/
def Older (hist : List α) (a b : α) : Prop := hist.idxOf b < hist.idxOf a

def InOrder (hist l : List α) : Prop := l.Pairwise (Older hist)

theorem not_older_self : ¬ Older hist a a := lt_irrefl _

theorem Older.asymm (h : Older hist a b) : ¬ Older hist b a := fun h' => lt_asymm h h'

theorem older_cons_self (h : a ≠ b) : Older (b :: hist) a b := by
  unfold Older
  rw [idxOf_cons_self, idxOf_cons_ne _ h.symm]
  exact Nat.succ_pos _

theorem older_cons_iff {c : α} (ha : a ≠ c) (hb : b ≠ c) : Older (c :: hist) a b ↔ Older hist a b := by
  unfold Older
  rw [idxOf_cons_ne _ ha.symm, idxOf_cons_ne _ hb.symm, Nat.succ_lt_succ_iff]

theorem InOrder.nodup (h : InOrder hist l) : l.Nodup := by
  refine List.Pairwise.imp ?_ h
  rintro x _ hxy rfl
  exact not_older_self hxy

theorem InOrder.sublist (h : InOrder hist l) (hr : r.Sublist l) : InOrder hist r := List.Pairwise.sublist hr h

theorem inOrder_cons_iff (ha : a ∉ l) : InOrder (a :: hist) l ↔ InOrder hist l := by
  refine List.Pairwise.iff_of_mem fun hx hy => older_cons_iff ?_ ?_
  · exact fun he => ha (he ▸ hx)
  · exact fun he => ha (he ▸ hy)

/-- **The accessed key is put at the end.** -/
theorem inOrder_concat (ha : a ∉ l) : InOrder (a :: hist) (l ++ [a]) ↔ InOrder hist l := by
  unfold InOrder
  rw [pairwise_append]
  constructor
  · rintro ⟨h, -, -⟩
    exact (inOrder_cons_iff ha).mp h
  · intro h
    refine ⟨(inOrder_cons_iff ha).mpr h, pairwise_singleton _ _, fun x hx y hy => ?_⟩
    rw [mem_singleton.mp hy]
    exact older_cons_self fun he => ha (he ▸ hx)

/-- **The ring is turned behind the accessed key.** -/
theorem inOrder_turn_iff (h : InOrder hist (l ++ a :: r)) :
    InOrder (a :: hist) (r ++ (l ++ [a])) ↔ l = [] ∨ r = [] := by
  have hnd := h.nodup
  rw [nodup_middle, nodup_cons, mem_append, not_or] at hnd
  obtain ⟨⟨hl, hr⟩, -⟩ := hnd
  have hlr : InOrder hist (l ++ r) := h.sublist ((List.Sublist.refl l).append (sublist_cons_self a r))
  rw [← append_assoc, inOrder_concat (by simp [hl, hr])]
  unfold InOrder at hlr ⊢
  rw [pairwise_append] at hlr ⊢
  constructor
  · rintro ⟨-, -, hrl⟩
    -- a key on each side would be older than the other
    rcases l with _ | ⟨x, l⟩
    · exact Or.inl rfl
    rcases r with _ | ⟨y, r⟩
    · exact Or.inr rfl
    have h1 := hlr.2.2 x (by simp) y (by simp)
    exact absurd (hrl y (by simp) x (by simp)) h1.asymm
  · rintro (rfl | rfl)
    · exact ⟨hlr.2.1, hlr.1, by simp⟩
    · exact ⟨hlr.2.1, hlr.1, by simp⟩

end OsHonor.Base.Recency
