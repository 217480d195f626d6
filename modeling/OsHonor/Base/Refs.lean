import Mathlib.Data.Fintype.Prod

/-! # References into an allocated set

A family of slots `r : σ → β` holds references, `0` for none, to things that an allocator has given out
(`used`). `Owned used r`: no two slots hold the same reference, and every reference is to something in
use. `Exact used r`: what is in use is referenced. `Grows` says that some empty slots have been filled
with things that were not in use and are now; it composes, keeps `Owned` and `Exact`, and every filled
slot costs one (`Grows.card`). The slots of a family of owners are the slots `κ × σ`, and growth of one
owner is growth of the family (`Grows.lift`). `Fills` says which slots have been filled; what this costs
are the slots among them that were empty (`Grows.card_of_fills`). -/

namespace OsHonor.Base.Refs

open Finset Function

variable {κ σ β : Type*} [Zero β] {used used' used'' : Finset β} {r r' r'' : σ → β}

/-- No reference is shared, and all are to something in use. -/
structure Owned (used : Finset β) (r : σ → β) : Prop where
  inj : ∀ {x y}, r x ≠ 0 → r x = r y → x = y
  mem : ∀ {x}, r x ≠ 0 → r x ∈ used

def Exact (used : Finset β) (r : σ → β) : Prop := ∀ n ∈ used, n ≠ 0 ∧ ∃ x, r x = n

/-- **Growth**: empty slots are filled with fresh references. -/
structure Grows (used used' : Finset β) (r r' : σ → β) : Prop where
  keep : ∀ {x}, r x ≠ 0 → r' x = r x
  fresh : ∀ {x}, r x = 0 → r' x ≠ 0 → r' x ∉ used
  inj : ∀ {x y}, r x = 0 → r y = 0 → r' x ≠ 0 → r' x = r' y → x = y
  mem : ∀ {n}, n ∈ used' ↔ n ∈ used ∨ n ≠ 0 ∧ ∃ x, r x = 0 ∧ r' x = n

variable {x : σ} {X : Finset σ}

namespace Grows

theorem refl (used : Finset β) (r : σ → β) : Grows used used r r where
  keep _ := rfl
  fresh h h' := absurd h h'
  inj h _ h' _ := absurd h h'
  mem := by
    intro n
    refine ⟨Or.inl, ?_⟩
    rintro (h | ⟨hn, x, h0, hx⟩)
    · exact h
    · exact absurd (hx.symm.trans h0) hn

theorem assign [DecidableEq σ] [DecidableEq β] {n : β} (hx : r x = 0) (hn : n ≠ 0) (hnew : n ∉ used) :
    Grows used (insert n used) r (update r x n) where
  keep {y} hy := update_of_ne (by rintro rfl; exact hy hx) ..
  fresh {y} hy hy' := by
    by_cases h : y = x
    · subst h
      rw [update_self]
      exact hnew
    · rw [update_of_ne h] at hy'
      exact absurd hy hy'
  inj {y z} hy hz hy' he := by
    by_cases h : y = x <;> by_cases h' : z = x
    · rw [h, h']
    · rw [h, update_self, update_of_ne h', hz] at he
      exact absurd he hn
    · rw [update_of_ne h] at hy'
      exact absurd hy hy'
    · rw [update_of_ne h] at hy'
      exact absurd hy hy'
  mem {m} := by
    rw [mem_insert]
    constructor
    · rintro (rfl | h)
      · exact Or.inr ⟨hn, x, hx, update_self ..⟩
      · exact Or.inl h
    · rintro (h | ⟨hm, y, hy, he⟩)
      · exact Or.inr h
      · by_cases h : y = x
        · rw [h, update_self] at he
          exact Or.inl he.symm
        · rw [update_of_ne h, hy] at he
          exact absurd he.symm hm

theorem subset (h : Grows used used' r r') : used ⊆ used' := fun _ hn => h.mem.mpr (Or.inl hn)

theorem eq_zero (h : Grows used used' r r') (hx : r' x = 0) : r x = 0 := by
  by_contra h0
  exact h0 ((h.keep h0).symm.trans hx)

theorem trans (h : Grows used used' r r') (h' : Grows used' used'' r' r'') : Grows used used'' r r'' where
  keep {x} hx := by
    have h1 := h.keep hx
    rw [h'.keep (by rw [h1]; exact hx), h1]
  fresh {x} hx hx' := by
    by_cases h1 : r' x = 0
    · exact fun hm => h'.fresh h1 hx' (h.subset hm)
    · rw [h'.keep h1]
      exact h.fresh hx h1
  inj {x y} hx hy hx' he := by
    have new : ∀ {z}, r z = 0 → r' z ≠ 0 → r'' z ∈ used' := by
      intro z hz hz'
      rw [h'.keep hz']
      exact h.mem.mpr (Or.inr ⟨hz', z, hz, rfl⟩)
    by_cases h1 : r' x = 0 <;> by_cases h2 : r' y = 0
    · exact h'.inj h1 h2 hx' he
    · exact absurd (he ▸ new hy h2) (h'.fresh h1 hx')
    · exact absurd (he ▸ new hx h1) (h'.fresh h2 (he ▸ hx'))
    · rw [h'.keep h1, h'.keep h2] at he
      exact h.inj hx hy h1 he
  mem {n} := by
    rw [h'.mem, h.mem]
    constructor
    · rintro ((hn | ⟨hn, x, hx, rfl⟩) | ⟨hn, x, hx, rfl⟩)
      · exact Or.inl hn
      · exact Or.inr ⟨hn, x, hx, h'.keep hn⟩
      · exact Or.inr ⟨hn, x, h.eq_zero hx, rfl⟩
    · rintro (hn | ⟨hn, x, hx, rfl⟩)
      · exact Or.inl (Or.inl hn)
      · by_cases h1 : r' x = 0
        · exact Or.inr ⟨hn, x, h1, rfl⟩
        · exact Or.inl (Or.inr ⟨hn, x, hx, (h'.keep h1).symm⟩)

theorem cases (h : Grows used used' r r') (hx : r' x ≠ 0) :
    r x ≠ 0 ∧ r' x = r x ∨ r x = 0 ∧ r' x ∉ used := by
  by_cases h0 : r x = 0
  · exact Or.inr ⟨h0, h.fresh h0 hx⟩
  · exact Or.inl ⟨h0, h.keep h0⟩

/-- **Growth of one owner is growth of the family.** -/
theorem lift [DecidableEq κ] {q : κ → σ → β} {k : κ} (h : Grows used used' (q k) r') :
    Grows used used' (uncurry q) (uncurry (update q k r')) where
  keep {p} hp := by
    by_cases hk : p.1 = k
    · subst hk
      simp only [uncurry_def, update_self]
      exact h.keep hp
    · simp [uncurry_def, update_of_ne hk]
  fresh {p} hp hp' := by
    by_cases hk : p.1 = k
    · subst hk
      simp only [uncurry_def, update_self] at hp' ⊢
      exact h.fresh hp hp'
    · simp only [uncurry_def, update_of_ne hk] at hp'
      exact absurd hp hp'
  inj {p p'} hp hp₂ hne he := by
    by_cases hk : p.1 = k <;> by_cases hk' : p'.1 = k
    · subst hk
      simp only [uncurry_def, hk', update_self] at hp₂ hne he
      exact Prod.ext hk'.symm (h.inj hp hp₂ hne he)
    · simp only [uncurry_def, update_of_ne hk'] at hp₂ he
      exact absurd (he.trans hp₂) hne
    · simp only [uncurry_def, update_of_ne hk] at hne
      exact absurd hp hne
    · simp only [uncurry_def, update_of_ne hk] at hne
      exact absurd hp hne
  mem {n} := by
    rw [h.mem]
    constructor
    · rintro (hn | ⟨hn, x, hx, hx'⟩)
      · exact Or.inl hn
      · exact Or.inr ⟨hn, (k, x), hx, by simpa [uncurry_def] using hx'⟩
    · rintro (hn | ⟨hn, p, hp, hp'⟩)
      · exact Or.inl hn
      · by_cases hk : p.1 = k
        · subst hk
          simp only [uncurry_def, update_self] at hp'
          exact Or.inr ⟨hn, p.2, hp, hp'⟩
        · simp only [uncurry_def, update_of_ne hk] at hp'
          exact absurd (hp'.symm.trans hp) hn

end Grows

theorem Owned.grow (ho : Owned used r) (h : Grows used used' r r') : Owned used' r' where
  inj {x y} hx he := by
    rcases h.cases hx with ⟨hx0, hx1⟩ | ⟨hx0, hx1⟩ <;>
      rcases h.cases (he ▸ hx) with ⟨hy0, hy1⟩ | ⟨hy0, hy1⟩
    · exact ho.inj hx0 (by rw [← hx1, ← hy1, he])
    · exact absurd (by rw [← he, hx1]; exact ho.mem hx0) hy1
    · exact absurd (by rw [he, hy1]; exact ho.mem hy0) hx1
    · exact h.inj hx0 hy0 hx he
  mem {x} hx := by
    rcases h.cases hx with ⟨hx0, hx1⟩ | ⟨hx0, -⟩
    · rw [hx1]
      exact h.subset (ho.mem hx0)
    · exact h.mem.mpr (Or.inr ⟨hx, x, hx0, rfl⟩)

theorem Exact.grow (he : Exact used r) (h : Grows used used' r r') : Exact used' r' := by
  intro n hn
  rcases h.mem.mp hn with hn | ⟨hn, x, -, hx⟩
  · obtain ⟨h0, x, hx⟩ := he n hn
    exact ⟨h0, x, (h.keep (hx ▸ h0)).trans hx⟩
  · exact ⟨hn, x, hx⟩

/-! ### Giving up all references of an owner -/

section release

variable [DecidableEq κ] {q : κ → σ → β} {k : κ}

theorem Owned.release (ho : Owned used (uncurry q))
    (hu : ∀ n, n ∈ used' ↔ n ∈ used ∧ ∀ x, q k x ≠ n) :
    Owned used' (uncurry (update q k fun _ => 0)) := by
  have hkey : ∀ {p : κ × σ}, uncurry (update q k fun _ => 0) p ≠ 0 →
      p.1 ≠ k ∧ uncurry (update q k fun _ => 0) p = uncurry q p := by
    intro p hp
    have hne : p.1 ≠ k := by
      intro he
      simp [uncurry_def, he] at hp
    exact ⟨hne, by simp [uncurry_def, update_of_ne hne]⟩
  constructor
  · intro p p' hp he
    obtain ⟨-, h1⟩ := hkey hp
    obtain ⟨-, h2⟩ := hkey (he ▸ hp)
    exact ho.inj (h1 ▸ hp) (by rw [← h1, ← h2, he])
  · intro p hp
    obtain ⟨hne, h1⟩ := hkey hp
    rw [h1] at hp ⊢
    refine (hu _).mpr ⟨ho.mem hp, fun x hx => ?_⟩
    have := ho.inj (x := p) (y := (k, x)) hp hx.symm
    exact hne (congrArg Prod.fst this)

theorem Exact.release (he : Exact used (uncurry q))
    (hu : ∀ n, n ∈ used' ↔ n ∈ used ∧ ∀ x, q k x ≠ n) :
    Exact used' (uncurry (update q k fun _ => 0)) := by
  intro n hn
  obtain ⟨hn, hnot⟩ := (hu n).mp hn
  obtain ⟨h0, p, hp⟩ := he n hn
  have hne : p.1 ≠ k := by
    intro hk
    refine hnot p.2 ?_
    rw [← hk]
    exact hp
  refine ⟨h0, p, ?_⟩
  rw [← hp]
  simp [uncurry_def, update_of_ne hne]

end release

/-! ### Counting -/

section count

variable [Fintype σ] [DecidableEq β]

def spare (r : σ → β) : ℕ := (Finset.univ.filter fun x => r x = 0).card

theorem spare_le (r : σ → β) : spare r ≤ Fintype.card σ := card_filter_le _ _

theorem spare_le_uncurry [Fintype κ] (q : κ → σ → β) (k : κ) :
    spare (q k) ≤ spare (uncurry q) := by
  refine card_le_card_of_injOn (fun x => (k, x)) ?_ ?_
  · intro x hx
    have hx' : q k x = 0 := by simpa using hx
    exact mem_coe.mpr (mem_filter.mpr ⟨mem_univ _, hx'⟩)
  · intro x _ y _ he
    exact (Prod.mk.inj he).2

/-- **Every filled slot costs one.** -/
theorem Grows.card [DecidableEq σ] (h : Grows used used' r r') :
    used'.card + spare r' = used.card + spare r := by
  set new : Finset σ := Finset.univ.filter fun x => r x = 0 ∧ r' x ≠ 0 with hnew
  have hused : used' = used ∪ new.image r' := by
    ext n
    rw [h.mem, mem_union, mem_image]
    constructor
    · rintro (hn | ⟨hn, x, hx, rfl⟩)
      · exact Or.inl hn
      · exact Or.inr ⟨x, by simp [hnew, hx, hn], rfl⟩
    · rintro (hn | ⟨x, hx, rfl⟩)
      · exact Or.inl hn
      · have hx' : r x = 0 ∧ r' x ≠ 0 := by simpa [hnew] using hx
        exact Or.inr ⟨hx'.2, x, hx'.1, rfl⟩
  have hdisj : Disjoint used (new.image r') := by
    rw [disjoint_right]
    intro n hn
    obtain ⟨x, hx, rfl⟩ := mem_image.mp hn
    have hx' : r x = 0 ∧ r' x ≠ 0 := by simpa [hnew] using hx
    exact h.fresh hx'.1 hx'.2
  have hinj : Set.InjOn r' new := by
    intro x hx y hy he
    have hx' : r x = 0 ∧ r' x ≠ 0 := by simpa [hnew] using hx
    have hy' : r y = 0 ∧ r' y ≠ 0 := by simpa [hnew] using hy
    exact h.inj hx'.1 hy'.1 hx'.2 he
  have hspare : spare r = spare r' + new.card := by
    unfold spare
    rw [← card_union_of_disjoint]
    · congr 1
      ext x
      have h0 : r' x = 0 → r x = 0 := h.eq_zero
      simp only [hnew, mem_filter, mem_univ, true_and, mem_union]
      by_cases hx : r' x = 0
      · simp [hx, h0 hx]
      · simp [hx]
    · rw [disjoint_left]
      intro x hx hx'
      simp only [hnew, mem_filter, mem_univ, true_and] at hx hx'
      exact hx'.2 hx
  rw [hused, card_union_of_disjoint hdisj, card_image_of_injOn hinj, hspare]
  omega

/-! ### Filling given slots -/

/-- Exactly the slots in `X` are filled, if they are empty. -/
def Fills (r r' : σ → β) (X : Finset σ) : Prop := ∀ x, r' x ≠ 0 ↔ r x ≠ 0 ∨ x ∈ X

section

omit [Fintype σ] [DecidableEq β]

theorem Fills.refl (h : ∀ x ∈ X, r x ≠ 0) : Fills r r X := fun x =>
  ⟨Or.inl, fun hx => hx.elim id (h x)⟩

theorem fills_update [DecidableEq σ] {n : β} (hn : n ≠ 0) : Fills r (update r x n) {x} := by
  intro y
  by_cases h : y = x
  · subst h
    simp [hn]
  · simp [h]

theorem Fills.trans [DecidableEq σ] {Y : Finset σ} (h : Fills r r' X) (h' : Fills r' r'' Y) :
    Fills r r'' (X ∪ Y) := by
  intro x
  rw [h' x, h x, mem_union, or_assoc]

end

/-- The empty ones among the slots `X`. -/
def missing (r : σ → β) (X : Finset σ) : ℕ := (X.filter fun x => r x = 0).card

theorem missing_le_spare (r : σ → β) (X : Finset σ) : missing r X ≤ spare r :=
  card_le_card (filter_subset_filter _ (subset_univ X))

omit [Fintype σ] in
theorem missing_pos (hx : r x = 0) (hX : x ∈ X) : 0 < missing r X :=
  card_pos.mpr ⟨x, mem_filter.mpr ⟨hX, hx⟩⟩

omit [Fintype σ] in
theorem Fills.missing_union [DecidableEq σ] (h : Fills r r' X) (Y : Finset σ) :
    missing r (X ∪ Y) = missing r X + missing r' Y := by
  have hY : (Y.filter fun x => r' x = 0) = (Y.filter fun x => r x = 0) \ X := by
    ext x
    have := not_congr (h x)
    simp only [not_not, not_or] at this
    simp only [mem_filter, mem_sdiff, this, and_assoc]
  have hXY : ((X ∪ Y).filter fun x => r x = 0) =
      (X.filter fun x => r x = 0) ∪ ((Y.filter fun x => r x = 0) \ X) := by
    ext x
    simp only [mem_filter, mem_union, mem_sdiff]
    tauto
  unfold missing
  rw [hXY, hY, card_union_of_disjoint]
  rw [disjoint_left]
  intro x hx hx'
  exact (mem_sdiff.mp hx').2 (mem_filter.mp hx).1

/-- **The cost of filling** given slots. -/
theorem Grows.card_of_fills [DecidableEq σ] (h : Grows used used' r r') (hf : Fills r r' X) :
    used'.card = used.card + missing r X := by
  have hall := hf.missing_union Finset.univ
  rw [union_eq_right.mpr (subset_univ X)] at hall
  have hcard := h.card
  have hr : missing r Finset.univ = spare r := rfl
  have hr' : missing r' Finset.univ = spare r' := rfl
  omega

end count

end OsHonor.Base.Refs
