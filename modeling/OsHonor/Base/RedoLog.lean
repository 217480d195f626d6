import Mathlib.Data.Set.Basic

/-! # Redo logs

A store is a function `f : κ → α`, and a group of updates a partial function `p : κ → Option α`; the
store after the group is `overlay p f`. A redo log keeps the updates of a group as a list of entries,
entry `j` for the cell `key j`, and copies them home one after the other. While it does so, every cell
holds its old or its new contents (`Mixed`), and copying starts afresh from any such store without harm:
after `m` entries that cover the group the store is `overlay p f` (`Replayed.eq_overlay`), wherever
earlier attempts have stopped. -/

namespace OsHonor.Base.RedoLog

open Function

variable {κ α : Type*}

/-- The store `f` after the updates `p`. -/
def overlay (p : κ → Option α) (f : κ → α) (n : κ) : α := (p n).getD (f n)

@[simp] theorem overlay_none (f : κ → α) : overlay (fun _ => none) f = f := rfl

theorem overlay_of_some {p : κ → Option α} {f : κ → α} {n : κ} {v : α} (h : p n = some v) :
    overlay p f n = v := by
  simp [overlay, h]

theorem overlay_of_none {p : κ → Option α} {f : κ → α} {n : κ} (h : p n = none) :
    overlay p f n = f n := by
  simp [overlay, h]

/-- Every cell of `S` holds its old contents or its new ones. -/
def Mixed (S : Set κ) (p : κ → Option α) (f g : κ → α) : Prop := ∀ n ∈ S, g n = f n ∨ p n = some (g n)

theorem mixed_of_eq {S : Set κ} {p : κ → Option α} {f g : κ → α} (h : ∀ n ∈ S, g n = f n) :
    Mixed S p f g := fun n hn => Or.inl (h n hn)

theorem Mixed.eq_of_none {S : Set κ} {f g : κ → α} (h : Mixed S (fun _ => none) f g) :
    ∀ n ∈ S, g n = f n := fun n hn => (h n hn).resolve_right (by simp)

/-- The first `i` entries of the log have been copied home. -/
structure Replayed (S : Set κ) (p : κ → Option α) (key : ℕ → κ) (i : ℕ) (f g : κ → α) : Prop where
  mixed : Mixed S p f g
  copied : ∀ j < i, p (key j) = some (g (key j))

namespace Replayed

variable {S : Set κ} {p : κ → Option α} {key : ℕ → κ} {i m : ℕ} {f g : κ → α}

theorem zero (h : Mixed S p f g) : Replayed S p key 0 f g :=
  ⟨h, fun _ hj => absurd hj (Nat.not_lt_zero _)⟩

theorem step [DecidableEq κ] (h : Replayed S p key i f g) {v : α} (hv : p (key i) = some v) :
    Replayed S p key (i + 1) f (update g (key i) v) := by
  refine ⟨fun n hn => ?_, fun j hj => ?_⟩
  · by_cases hni : n = key i
    · subst hni
      exact Or.inr (by rw [update_self, hv])
    · rw [update_of_ne hni]
      exact h.mixed n hn
  · by_cases hji : key j = key i
    · rw [hji, update_self, hv]
    · rw [update_of_ne hji]
      refine h.copied j (lt_of_le_of_ne (Nat.lt_succ_iff.mp hj) ?_)
      rintro rfl
      exact hji rfl

/-- **All entries have been copied**: the store is the one after the group. -/
theorem eq_overlay (h : Replayed S p key m f g)
    (hdom : ∀ n ∈ S, (p n).isSome → ∃ j < m, key j = n) : ∀ n ∈ S, g n = overlay p f n := by
  intro n hn
  rcases hp : p n with _ | v
  · rcases h.mixed n hn with he | he
    · rw [overlay_of_none hp, he]
    · simp [hp] at he
  · obtain ⟨j, hj, rfl⟩ := hdom n hn (by rw [hp]; rfl)
    have := h.copied j hj
    rw [hp, Option.some.injEq] at this
    rw [overlay_of_some hp, this]

end Replayed

end OsHonor.Base.RedoLog
