import Mathlib.Algebra.Order.Ring.Int

/-! # Semaphores and condition variables (`lib/sem.c`, `lib/cond.c`)

A semaphore is its counter `val` and the processes asleep on it, the oldest first: `_wait_sem` links
a new waiter behind the head of the circular `sleeplist` and `_post_sem` takes the one before the
head. The functions here are the sections under the semaphore's own spinlock; a process that goes to
sleep is left in `sleeplist`, and what it does after it is woken is the caller's business.

`cond_wait` on a condition variable is a semaphore wait that is skipped when the counter is positive,
with the caller's spinlock dropped while the process sleeps. -/

namespace OsHonor.Lib.Semaphore

open Option

/-- `struct semaphore`. -/
structure Sem (T : Type) where
  val : ℤ
  sleeplist : List T
  deriving DecidableEq

namespace Sem

variable {T : Type}

/-- `init_sem`. -/
def init (val : ℤ) : Sem T := ⟨val, []⟩

/-- `_get_sem`: take one unit if there is one. -/
def get (s : Sem T) : Option (Sem T) :=
  if 0 < s.val then some { s with val := s.val - 1 } else none

/-- `_wait_sem`, up to the point where `t` has the unit (`true`) or is asleep (`false`). -/
def wait (s : Sem T) (t : T) : Bool × Sem T :=
  if 0 ≤ s.val - 1 then (true, { s with val := s.val - 1 })
  else (false, ⟨s.val - 1, s.sleeplist ++ [t]⟩)

/-- `_post_sem`: the process it wakes, if any. The `ASSERT` fails (`none`) when the counter says that
somebody sleeps and nobody does. -/
def post (s : Sem T) : Option (Option T × Sem T) :=
  if 0 < s.val + 1 then some (none, { s with val := s.val + 1 })
  else
    match s.sleeplist with
    | [] => none
    | t :: l => some (some t, ⟨s.val + 1, l⟩)

/-- The loop of `post_all_sem`: post, and again until a unit can be taken back. -/
def postAllLoop : ℕ → Sem T → Option (List T × Sem T)
  | 0, _ => none
  | n + 1, s => do
    let (w, s) ← s.post
    match s.get with
    | some s => some (w.toList, s)
    | none =>
      let (ws, s) ← postAllLoop n s
      some (w.toList ++ ws, s)

/-- `post_all_sem`: the processes it wakes, in order. -/
def postAll (s : Sem T) : Option (List T × Sem T) := postAllLoop ((-s.val).toNat + 1) s

/-- The same loop with the counter `ret` that is returned. -/
def postAllRet : ℕ → Sem T → ℤ → Option (ℤ × List T × Sem T)
  | 0, _, _ => none
  | n + 1, s, ret => do
    let (w, s) ← s.post
    match s.get with
    | some s => some (ret + 1, w.toList, s)
    | none =>
      let (ret, ws, s) ← postAllRet n s (ret + 1)
      some (ret, w.toList ++ ws, s)

/-- `get_all_sem`: the units taken. -/
def getAll (s : Sem T) : ℕ × Sem T := if 0 < s.val then (s.val.toNat, { s with val := 0 }) else (0, s)

/-- The end of `_wait_sem` for a process that has not been granted the semaphore: it leaves the
`sleeplist`. The `ASSERT` fails (`none`) when the counter says that nobody sleeps. -/
def cancel [DecidableEq T] (s : Sem T) (t : T) : Option (Sem T) :=
  if s.val + 1 ≤ 0 then some ⟨s.val + 1, s.sleeplist.erase t⟩ else none

/-- `cond_wait`, up to the point where `t` may go on with the spinlock still held (`true`) or is
asleep (`false`). -/
def condWait (s : Sem T) (t : T) : Bool × Sem T :=
  match s.get with
  | some s => (true, s)
  | none => s.wait t

theorem condWait_of_pos {s : Sem T} (t : T) (h : 0 < s.val) :
    s.condWait t = (true, { s with val := s.val - 1 }) := by
  unfold condWait get
  rw [if_pos h]

theorem condWait_of_nonpos {s : Sem T} (t : T) (h : s.val ≤ 0) :
    s.condWait t = (false, ⟨s.val - 1, s.sleeplist ++ [t]⟩) := by
  unfold condWait get wait
  rw [if_neg (by omega), if_neg (by omega)]

/-- **The representation invariant** of a semaphore used as a lock: one unit and no sleeper, or no
unit and one negative count for every sleeper. -/
def Binary (s : Sem T) : Prop :=
  (s.val = 1 ∧ s.sleeplist = []) ∨ s.val = -(s.sleeplist.length : ℤ)

theorem post_of_binary {s : Sem T} (hb : s.Binary) (h : s.val ≤ 0) :
    (s.sleeplist = [] ∧ s.post = some (none, ⟨1, []⟩)) ∨
    ∃ t l, s.sleeplist = t :: l ∧ s.post = some (some t, ⟨-(l.length : ℤ), l⟩) := by
  obtain ⟨v, sl⟩ := s
  rcases hb with ⟨h1, -⟩ | h1
  · simp only at h1 h; omega
  · simp only at h1
    subst h1
    rcases sl with _ | ⟨t, l⟩
    · exact Or.inl ⟨rfl, by simp [post]⟩
    · refine Or.inr ⟨t, l, rfl, ?_⟩
      have hneg : ¬ 0 < -(((t :: l).length : ℕ) : ℤ) + 1 := by simp
      simp only [post, if_neg hneg]
      simp

theorem postAllRet_sleepers (l : List T) (ret : ℤ) :
    postAllRet (l.length + 1) (⟨-(l.length : ℤ), l⟩ : Sem T) ret = some (ret + 1 + l.length, l, ⟨0, []⟩) := by
  induction l generalizing ret with
  | nil => simp [postAllRet, post, get]
  | cons t l ih =>
    have hpost : post (⟨-((t :: l).length : ℤ), t :: l⟩ : Sem T) =
        some (some t, ⟨-(l.length : ℤ), l⟩) := by simp [post]
    have hget : (⟨-(l.length : ℤ), l⟩ : Sem T).get = none := by simp [get]
    rw [postAllRet, hpost]
    simp only [bind_eq_bind, bind_some, hget, List.length_cons, ih]
    simp only [toList_some, List.singleton_append, Nat.cast_add, Nat.cast_one, some.injEq,
      Prod.mk.injEq, and_true]
    omega

theorem postAllRet_loop : ∀ (n : ℕ) (s : Sem T) (ret : ℤ), postAllLoop n s = (postAllRet n s ret).map Prod.snd
  | 0, _, _ => rfl
  | n + 1, s, ret => by
    rw [postAllLoop, postAllRet]
    rcases s.post with _ | ⟨w, s₁⟩
    · rfl
    · simp only [bind_eq_bind, bind_some, postAllRet_loop n s₁ (ret + 1)]
      rcases s₁.get with _ | s₂
      · rcases postAllRet n s₁ (ret + 1) with _ | r <;> rfl
      · rfl

/-- **`post_all_sem` on a condition variable** wakes everybody and stores no unit. -/
theorem postAll_sleepers (l : List T) :
    postAll (⟨-(l.length : ℤ), l⟩ : Sem T) = some (l, ⟨0, []⟩) := by
  rw [postAll, postAllRet_loop _ _ (-1), show (-(-(l.length : ℤ))).toNat = l.length by simp, postAllRet_sleepers]
  rfl

end Sem

end OsHonor.Lib.Semaphore
