import Mathlib.Tactic.Common

/-! # Runs of a partial step function

A machine is a step function `step : σ → ι → Option σ`: the label says who moves and how, `none` that
the move is not possible (or that the machine has stopped for good). `Run step C s ls s'` is a run
from `s` to `s'` by the labels `ls` in which every step meets the condition `C`, a condition on the
label and on the state *before* the step.

The rule the developments use is `Run.inv`: a property kept by every step holds in every state
reached. -/

namespace OsHonor.Base.Runs

open Function

variable {σ ι : Type*}

/-- **A run** by the labels `ls`, every step of which meets `C`. -/
inductive Run (step : σ → ι → Option σ) (C : σ → ι → Prop) : σ → List ι → σ → Prop
  | nil (s : σ) : Run step C s [] s
  | cons {s s₁ s₂ : σ} {l : ι} {ls : List ι} :
      C s l → step s l = some s₁ → Run step C s₁ ls s₂ → Run step C s (l :: ls) s₂

variable {step : σ → ι → Option σ} {C D : σ → ι → Prop}

namespace Run

/-- **The invariant rule.** -/
theorem inv {I : σ → Prop} (hstep : ∀ s l s', I s → C s l → step s l = some s' → I s')
    {s s' : σ} {ls : List ι} (h : Run step C s ls s') (hs : I s) : I s' := by
  induction h with
  | nil s => exact hs
  | cons hc hl _ ih => exact ih (hstep _ _ _ hs hc hl)

theorem mono (hCD : ∀ s l, C s l → D s l) {s s' : σ} {ls : List ι} (h : Run step C s ls s') :
    Run step D s ls s' := by
  induction h with
  | nil s => exact .nil s
  | cons hc hl _ ih => exact .cons (hCD _ _ hc) hl ih

theorem append {s s₁ s₂ : σ} {ls ls' : List ι} (h : Run step C s ls s₁)
    (h' : Run step C s₁ ls' s₂) : Run step C s (ls ++ ls') s₂ := by
  induction h with
  | nil s => exact h'
  | cons hc hl _ ih => exact .cons hc hl (ih h')

theorem snoc {s s₁ s₂ : σ} {ls : List ι} {l : ι} (h : Run step C s ls s₁) (hc : C s₁ l)
    (hl : step s₁ l = some s₂) : Run step C s (ls ++ [l]) s₂ :=
  h.append (.cons hc hl (.nil _))

end Run

/-- The state a list of labels leads to, if every step passes the test `ok`. -/
def exec (step : σ → ι → Option σ) (ok : σ → ι → Bool) : σ → List ι → Option σ
  | s, [] => some s
  | s, l :: ls => if ok s l then (step s l).bind fun s' => exec step ok s' ls else none

theorem run_of_exec {ok : σ → ι → Bool} (hC : ∀ s l, ok s l = true → C s l) :
    ∀ {ls : List ι} {s s' : σ}, exec step ok s ls = some s' → Run step C s ls s'
  | [], s, s', h => by
    simp only [exec, Option.some.injEq] at h
    subst h; exact .nil s
  | l :: ls, s, s', h => by
    simp only [exec] at h
    split_ifs at h with hok
    obtain ⟨s₁, h1, h2⟩ := Option.bind_eq_some_iff.mp h
    exact .cons (hC s l hok) h1 (run_of_exec hC h2)

/-- A view of the entries that a step of one of them keeps. -/
theorem view_update {α β γ : Type*} [DecidableEq α] (g : β → γ) {f : α → β} {a : α} {b : β}
    (h : g b = g (f a)) (x : α) : g (update f a b x) = g (f x) := by
  by_cases hx : x = a
  · rw [hx, update_self, h]
  · rw [update_of_ne hx]

end OsHonor.Base.Runs
