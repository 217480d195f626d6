import Mathlib.Tactic.Common

/-! # Walks through tables in memory

A store of numbered tables, each with an entry at every index of `ι`; an entry may lead to another table
(`child`). `walk child m n is` is the table that the indices `is` lead to from the table `n`. A store that
has the same entries on the way gives the same walk (`walk_congr`). -/

namespace OsHonor.Base.Radix

open Option Function

variable {ι E : Type*} [DecidableEq ι]

def setEntry (m : ℕ → ι → E) (n : ℕ) (i : ι) (e : E) : ℕ → ι → E :=
  update m n (update (m n) i e)

theorem setEntry_self (m : ℕ → ι → E) (n : ℕ) (i : ι) (e : E) : setEntry m n i e n i = e := by
  unfold setEntry
  rw [update_self, update_self]

theorem setEntry_of_ne {m : ℕ → ι → E} {n n' : ℕ} {i i' : ι} {e : E} (h : ¬ (n' = n ∧ i' = i)) :
    setEntry m n i e n' i' = m n' i' := by
  unfold setEntry
  by_cases hn : n' = n
  · subst hn
    rw [update_self, update_of_ne fun hi => h ⟨rfl, hi⟩]
  · rw [update_of_ne hn]

theorem setEntry_page {m : ℕ → ι → E} {n n' : ℕ} {i : ι} {e : E} (h : n' ≠ n) : setEntry m n i e n' = m n' :=
  update_of_ne h _ _

variable (child : E → Option ℕ)

/-- **A walk** along the indices. -/
def walk (m : ℕ → ι → E) : ℕ → List ι → Option ℕ
  | n, [] => some n
  | n, i :: is => (child (m n i)).bind fun n' => walk m n' is

variable {child}

section

omit [DecidableEq ι]

theorem walk_append (m : ℕ → ι → E) : ∀ (is js : List ι) (n : ℕ),
    walk child m n (is ++ js) = (walk child m n is).bind fun n' => walk child m n' js
  | [], js, n => rfl
  | i :: is, js, n => by
    rw [List.cons_append, walk, walk]
    cases child (m n i) with
    | none => rfl
    | some n' =>
      rw [bind_some, bind_some]
      exact walk_append m is js n'

theorem walk_concat (m : ℕ → ι → E) (is : List ι) (i : ι) (n : ℕ) :
    walk child m n (is ++ [i]) = (walk child m n is).bind fun n' => child (m n' i) := by
  rw [walk_append]
  congr 1
  funext n'
  rw [walk]
  cases child (m n' i) <;> rfl

/-- **Agreement on the way** is enough. -/
theorem walk_congr {m m' : ℕ → ι → E} : ∀ (is : List ι) (n : ℕ),
    (∀ js i ks n', is = js ++ i :: ks → walk child m n js = some n' → m' n' i = m n' i) →
      walk child m' n is = walk child m n is
  | [], n, _ => rfl
  | i :: is, n, h => by
    rw [walk, walk, h [] i is n rfl rfl]
    cases hc : child (m n i) with
    | none => rfl
    | some n' =>
      rw [bind_some, bind_some]
      refine walk_congr is n' fun js j ks n'' he hw => ?_
      refine h (i :: js) j ks n'' (by rw [he, List.cons_append]) ?_
      rw [walk, hc, bind_some]
      exact hw

end

end OsHonor.Base.Radix
