import Mathlib.Tactic.Common

/-! # Programs over an interface

A program `Prog C R α` makes calls `c : C`, gets answers in `R c` and returns an `α`, or fails. A
*handler* says what the calls do to a state; with it the program becomes a partial function on states
(`Prog.run`). The same program can so be run over an implementation of its interface and over a
specification of it, and what one handler can do another one can do too if every single call says so
(`Prog.run_sim`, and `Prog.fails_sim` where it gives up). What a program returns over any handler at all is
said by `Prog.Yields`. -/

namespace OsHonor.Base.Programs

open Option

/-- **A program** that calls an interface `C` with answers `R`. -/
inductive Prog (C : Type) (R : C → Type) (α : Type) : Type
  | pure (a : α) : Prog C R α
  | call (c : C) (k : R c → Prog C R α) : Prog C R α
  | fail : Prog C R α

/-- What the calls do to a state `σ`. -/
abbrev Handler (σ C : Type) (R : C → Type) := σ → (c : C) → Option (R c × σ)

namespace Prog

variable {C D : Type} {R : C → Type} {S : D → Type} {α β σ τ : Type}

def bind : Prog C R α → (α → Prog C R β) → Prog C R β
  | .pure a, f => f a
  | .call c k, f => .call c fun r => (k r).bind f
  | .fail, _ => .fail

instance : Monad (Prog C R) where
  pure := .pure
  bind := .bind

def perform (c : C) : Prog C R (R c) := .call c .pure

/-- Fail unless `p` holds. -/
def check (p : Prop) [Decidable p] : Prog C R Unit := if p then .pure () else .fail

/-- **The program as a function on states.** -/
def run (h : Handler σ C R) : Prog C R α → σ → Option (α × σ)
  | .pure a, s => some (a, s)
  | .call c k, s => (h s c).bind fun x => (k x.1).run h x.2
  | .fail, _ => none

variable {h : Handler σ C R}

@[simp] theorem run_pure (a : α) (s : σ) : (Pure.pure a : Prog C R α).run h s = some (a, s) := rfl

@[simp] theorem run_perform (c : C) (s : σ) : (perform c : Prog C R (R c)).run h s = h s c := by
  cases hc : h s c <;> simp [perform, run, hc]

@[simp] theorem run_fail (s : σ) : (.fail : Prog C R α).run h s = none := rfl

@[simp] theorem run_bind (p : Prog C R α) (f : α → Prog C R β) (s : σ) :
    (p >>= f).run h s = (p.run h s).bind fun x => (f x.1).run h x.2 := by
  show (p.bind f).run h s = _
  induction p generalizing s with
  | pure a => rfl
  | call c k ih => simp only [bind, run, ih, bind_assoc]
  | fail => rfl

@[simp] theorem run_check (p : Prop) [Decidable p] (s : σ) :
    (check p : Prog C R Unit).run h s = if p then some ((), s) else none := by
  unfold check
  split_ifs <;> rfl

/-- The run ends with `Q`, or it fails and `F` holds. With `F = False` this is total correctness, with
`F = True` partial correctness. -/
@[irreducible]
def Meets (h : Handler σ C R) (F : Prop) (p : Prog C R α) (s : σ) (Q : α → σ → Prop) : Prop :=
  match p.run h s with
  | none => F
  | some (a, s') => Q a s'

section meets

variable {F : Prop} {p : Prog C R α} {s : σ} {Q : α → σ → Prop}

theorem meets_of_run {a : α} {s' : σ} (hr : p.run h s = some (a, s')) (hq : Q a s') : Meets h F p s Q := by
  unfold Meets
  rw [hr]
  exact hq

theorem meets_of_none (hr : p.run h s = none) (hF : F) : Meets h F p s Q := by
  unfold Meets
  rw [hr]
  exact hF

theorem Meets.mono {Q' : α → σ → Prop} (hm : Meets h F p s Q) (hq : ∀ a s', Q a s' → Q' a s') :
    Meets h F p s Q' := by
  unfold Meets at hm ⊢
  split
  · next hr => rw [hr] at hm; exact hm
  · next hr => rw [hr] at hm; exact hq _ _ hm

theorem Meets.and {Q' : α → σ → Prop} (hm : Meets h F p s Q) (hm' : Meets h F p s Q') :
    Meets h F p s fun a s' => Q a s' ∧ Q' a s' := by
  unfold Meets at hm hm' ⊢
  split
  · next hr => rw [hr] at hm; exact hm
  · next hr => rw [hr] at hm hm'; exact ⟨hm, hm'⟩

theorem meets_bind {f : α → Prog C R β} {Q' : β → σ → Prop}
    (hm : Meets h F p s fun a s' => Meets h F (f a) s' Q') : Meets h F (p >>= f) s Q' := by
  unfold Meets at hm ⊢
  rw [run_bind]
  rcases hr : p.run h s with _ | ⟨a, s'⟩
  · rw [hr] at hm; exact hm
  · rw [hr] at hm; exact hm

theorem meets_pure {a : α} (hq : Q a s) : Meets h F (pure a) s Q := meets_of_run (run_pure a s) hq

theorem meets_check {c : Prop} [Decidable c] {Q : Unit → σ → Prop} (hq : c → Q () s) (hF : ¬ c → F) :
    Meets h F (check c) s Q := by
  by_cases hc : c
  · exact meets_of_run (by rw [run_check, if_pos hc]) (hq hc)
  · exact meets_of_none (by rw [run_check, if_neg hc]) (hF hc)

theorem Meets.exists_run (hm : Meets h False p s Q) : ∃ a s', p.run h s = some (a, s') ∧ Q a s' := by
  unfold Meets at hm
  split at hm
  · exact hm.elim
  · next a s' hr => exact ⟨a, s', hr, hm⟩

theorem Meets.of_run {a : α} {s' : σ} (hm : Meets h F p s Q) (hr : p.run h s = some (a, s')) : Q a s' := by
  unfold Meets at hm
  rw [hr] at hm
  exact hm

end meets

/-- Every value that the program can return, whatever the answers to its calls are, satisfies `Q`. -/
def Yields : Prog C R α → (α → Prop) → Prop
  | .pure a, Q => Q a
  | .call _ k, Q => ∀ r, (k r).Yields Q
  | .fail, _ => True

section yields

variable {p : Prog C R α} {Q : α → Prop}

theorem yields_pure {a : α} (hq : Q a) : Yields (Pure.pure a : Prog C R α) Q := hq

theorem yields_perform {c : C} {Q : R c → Prop} (hq : ∀ r, Q r) : Yields (perform c : Prog C R (R c)) Q := hq

theorem yields_bind {f : α → Prog C R β} {Q : β → Prop} (hp : p.Yields fun a => (f a).Yields Q) :
    (p >>= f).Yields Q := by
  show (p.bind f).Yields Q
  induction p with
  | pure a => exact hp
  | call c k ih => exact fun r => ih r (hp r)
  | fail => trivial

theorem Yields.mono {Q' : α → Prop} (hp : p.Yields Q) (hq : ∀ a, Q a → Q' a) : p.Yields Q' := by
  induction p with
  | pure a => exact hq a hp
  | call c k ih => exact fun r => ih r (hp r)
  | fail => trivial

theorem yields_of_forall (hq : ∀ a, Q a) : p.Yields Q := by
  induction p with
  | pure a => exact hq a
  | call c k ih => exact fun r => ih r
  | fail => trivial

theorem Yields.of_run (hp : p.Yields Q) {s s' : σ} {a : α} (hr : p.run h s = some (a, s')) : Q a := by
  induction p generalizing s with
  | pure b =>
    obtain ⟨rfl, -⟩ := Prod.mk.inj (some.inj hr)
    exact hp
  | call c k ih =>
    obtain ⟨⟨r, s₁⟩, -, hk⟩ := bind_eq_some_iff.mp hr
    exact ih r (hp r) hk
  | fail => simp [run] at hr

end yields

-- the rules above are enough, and programs are not run to see what they return
attribute [irreducible] Yields

/-- **The simulation rule**: if every call that the second handler answers is answered by the first one
in the same way, up to a relation of the states, then so is every program. -/
theorem run_sim {h' : Handler τ C R} {Rel : σ → τ → Prop}
    (hcall : ∀ s t c r t', Rel s t → h' t c = some (r, t') → ∃ s', h s c = some (r, s') ∧ Rel s' t')
    {p : Prog C R α} {s : σ} {t t' : τ} {a : α} (hrel : Rel s t) (hrun : p.run h' t = some (a, t')) :
    ∃ s', p.run h s = some (a, s') ∧ Rel s' t' := by
  induction p generalizing s t with
  | pure b =>
    simp only [run, some.injEq, Prod.mk.injEq] at hrun ⊢
    obtain ⟨rfl, rfl⟩ := hrun
    exact ⟨s, ⟨rfl, rfl⟩, hrel⟩
  | call c k ih =>
    simp only [run, bind_eq_some_iff] at hrun ⊢
    obtain ⟨⟨r, t₁⟩, hc, hk⟩ := hrun
    obtain ⟨s₁, hs₁, hrel₁⟩ := hcall s t c r t₁ hrel hc
    obtain ⟨s', hs', hrel'⟩ := ih r hrel₁ hk
    exact ⟨s', ⟨(r, s₁), hs₁, hs'⟩, hrel'⟩
  | fail => simp [run] at hrun

/-- **The program returns `a`**, whatever the answers to its calls are. -/
def Returns : Prog C R α → α → Prop
  | .pure b, a => b = a
  | .call _ k, a => ∀ r, (k r).Returns a
  | .fail, _ => False

/-- **The program fails**: every call on its way is answered, and then it gives up. -/
def Fails (h : Handler σ C R) : Prog C R α → σ → Prop
  | .pure _, _ => False
  | .call c k, s => ∃ r s', h s c = some (r, s') ∧ (k r).Fails h s'
  | .fail, _ => True

section fails

variable {p : Prog C R α} {s : σ}

theorem fails_bind_of_run {f : α → Prog C R β} {a : α} {s' : σ} (hp : p.run h s = some (a, s'))
    (hf : (f a).Fails h s') : (p >>= f).Fails h s := by
  show (p.bind f).Fails h s
  induction p generalizing s with
  | pure b =>
    obtain ⟨rfl, rfl⟩ := Prod.mk.inj (some.inj hp)
    exact hf
  | call c k ih =>
    obtain ⟨⟨r, s₁⟩, hc, hk⟩ := bind_eq_some_iff.mp hp
    exact ⟨r, s₁, hc, ih r hk⟩
  | fail => simp [run] at hp

theorem Fails.bind {f : α → Prog C R β} (hp : p.Fails h s) : (p >>= f).Fails h s := by
  show (p.bind f).Fails h s
  induction p generalizing s with
  | pure b => exact hp.elim
  | call c k ih =>
    obtain ⟨r, s₁, hc, hk⟩ := hp
    exact ⟨r, s₁, hc, ih r hk⟩
  | fail => trivial

theorem Fails.run_eq_none (hp : p.Fails h s) : p.run h s = none := by
  induction p generalizing s with
  | pure b => exact hp.elim
  | call c k ih =>
    obtain ⟨r, s₁, hc, hk⟩ := hp
    rw [run, hc, bind_some]
    exact ih r hk
  | fail => rfl

theorem fails_sim {h' : Handler τ C R} {Rel : σ → τ → Prop}
    (hcall : ∀ s t c r t', Rel s t → h' t c = some (r, t') → ∃ s', h s c = some (r, s') ∧ Rel s' t')
    {t : τ} (hrel : Rel s t) (hf : p.Fails h' t) : p.Fails h s := by
  induction p generalizing s t with
  | pure b => exact hf.elim
  | call c k ih =>
    obtain ⟨r, t₁, hc, hk⟩ := hf
    obtain ⟨s₁, hs₁, hrel₁⟩ := hcall s t c r t₁ hrel hc
    exact ⟨r, s₁, hs₁, ih r hrel₁ hk⟩
  | fail => trivial

end fails

end Prog

end OsHonor.Base.Programs
