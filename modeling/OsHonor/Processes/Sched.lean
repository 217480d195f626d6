import Mathlib.Data.Prod.Lex
import Mathlib.Algebra.Order.Ring.Int
import OsHonor.Base.Sorted

/-! # The scheduler (`proc/sched.c`)

Every CPU has a run queue, a red-black tree ordered by `(runtime, pid)`, a process it runs, an idle
process and a timer. The functions here are the source's; a run queue is the ascending list of its
processes, the view of the tree that its operations keep. `none` is a failed assertion. -/

namespace OsHonor.Processes.Sched

open Option Function Base.Sorted

def nCpu : ℕ := 4

abbrev Cpu := Fin nCpu

/-- CPU `n`. -/
def cpuNo (n : ℕ) : Cpu := ⟨n % nCpu, Nat.mod_lt _ (by decide)⟩

def sliceLen : ℕ := 1

/-- `enum procstate`. -/
inductive ProcState where
  | unused
  | runnable
  | running
  | sleeping
  | deepsleeping
  | zombie
  deriving DecidableEq

/-- The fields of `struct proc` that the scheduler changes. -/
structure Proc where
  state : ProcState
  killed : Bool
  runtime : ℕ
  deriving DecidableEq

/-- The fields it does not change, and `cpus[].sched.idle`: one idle process a CPU, and distinct pids
for the others. -/
structure Procs (T : Type) where
  pid : T → ℕ
  idle : T → Bool
  idleOf : Cpu → T
  idle_idleOf : ∀ c, idle (idleOf c) = true
  idleOf_injective : Function.Injective idleOf
  eq_idleOf : ∀ p, idle p = true → ∃ c, p = idleOf c
  pid_injective : ∀ p q, idle p = false → idle q = false → pid p = pid q → p = q

/-- The timer of the scheduler: whether it is in the CPU's tree of timers, `triggered`, and `data`. -/
structure Timer where
  queued : Bool
  triggered : Bool
  data : Bool
  deriving DecidableEq

/-- `set_cpu_timer`. -/
def Timer.set (t : Timer) : Option Timer :=
  if t.queued then none else some { t with queued := true, triggered := false }

/-- `cancel_cpu_timer`. -/
def Timer.cancel (t : Timer) : Option Timer :=
  if t.triggered then none else some { t with queued := false }

/-- The part of `update_this_proc` that cancels the timer of the slice and sets a new one. -/
def Timer.restart (t : Timer) : Option Timer := do
  let t ← if t.data then t.cancel.map fun t => { t with data := false } else some t
  let t ← t.set
  some { t with data := true }

/-- The state of the scheduler. -/
structure Sys (T : Type) where
  proc : T → Proc
  rq : Cpu → List T
  running : Cpu → T
  timer : Cpu → Timer

variable {T : Type}

/-- `p->pid % NCPU`. -/
def Procs.home (P : Procs T) (p : T) : Cpu := cpuNo (P.pid p)

def cmpRuntime (P : Procs T) (s : Sys T) (p q : T) : Bool :=
  if (s.proc p).runtime = (s.proc q).runtime then P.pid p < P.pid q
  else (s.proc p).runtime < (s.proc q).runtime

variable [DecidableEq T]

def Sys.modify (s : Sys T) (p : T) (f : Proc → Proc) : Sys T :=
  { s with proc := update s.proc p (f (s.proc p)) }

def Sys.setState (s : Sys T) (p : T) (st : ProcState) : Sys T := s.modify p fun q => { q with state := st }

/-- `rbtree_insert(&rq[c], ..)`, whose result nobody looks at. -/
def Sys.enqueue (P : Procs T) (s : Sys T) (c : Cpu) (p : T) : Sys T :=
  { s with rq := update s.rq c ((insertBy (cmpRuntime P s) p (s.rq c)).getD (s.rq c)) }

/-- `rbtree_erase(&rq[c], ..)`. -/
def Sys.dequeue (s : Sys T) (c : Cpu) (p : T) : Sys T :=
  { s with rq := update s.rq c ((s.rq c).erase p) }

def Sys.setTimer (s : Sys T) (c : Cpu) (t : Timer) : Sys T :=
  { s with timer := update s.timer c t }

def numbered : Procs (Cpu ⊕ ℕ) where
  pid := Sum.elim (fun _ => 0) id
  idle := Sum.isLeft
  idleOf := Sum.inl
  idle_idleOf _ := rfl
  idleOf_injective := Sum.inl_injective
  eq_idleOf p hp := by
    rcases p with c | n
    · exact ⟨c, rfl⟩
    · simp at hp
  pid_injective p q hp hq he := by
    rcases p with c | n
    · simp at hp
    rcases q with c | m
    · simp at hq
    · exact congrArg Sum.inr he

variable (P : Procs T)

def activateProc (s : Sys T) (p : T) (onalert : Bool) : Bool × Sys T :=
  match (s.proc p).state with
  | .running | .runnable | .zombie => (false, s)
  | .deepsleeping =>
    if onalert then (false, s) else (true, wake)
  | .sleeping | .unused => (true, wake)
where
  wake : Sys T :=
    let s := s.setState p .runnable
    if P.idle p then s else s.enqueue P (P.home p) p

def updateThisState (s : Sys T) (c : Cpu) (new : ProcState) : Option (Sys T) :=
  if new = .running then none
  else
    let this := s.running c
    let s := if new = .runnable ∧ P.idle this = false then s.enqueue P c this else s
    let s := if (new = .sleeping ∨ new = .zombie) ∧ (s.proc this).state = .runnable then
      s.dequeue c this else s
    some (s.setState this new)

def pickNext (s : Sys T) (c : Cpu) : T := (s.rq c).head?.getD (P.idleOf c)

/-- The part of `update_this_proc` that takes `p` from the queue and marks it. -/
def Sys.dispatch (s : Sys T) (c : Cpu) (p : T) : Sys T :=
  let s := { s.setState p .running with running := update s.running c p }
  if P.idle p then s else s.dequeue c p

def updateThisProc (s : Sys T) (c : Cpu) (p : T) : Option (Sys T) := do
  let t ← (s.timer c).restart
  some ((s.setTimer c t).dispatch P c p)

def schedule (s : Sys T) (c : Cpu) (new : ProcState) : Option (Sys T) :=
  let this := s.proc (s.running c)
  if this.state ≠ .running then none
  else if this.killed ∧ new ≠ .zombie then some s
  else do
    let s ← updateThisState P s c new
    let next := pickNext P s c
    if (s.proc next).state ≠ .runnable then none
    else updateThisProc P s c next

/-- `timer_clock_handler` when the timer of the scheduler has come first, with `__sched_handler`. -/
def schedHandler (s : Sys T) (c : Cpu) : Option (Sys T) := do
  let t ← (s.timer c).cancel
  let s := s.setTimer c { t with triggered := true, data := false }
  let s := s.modify (s.running c) fun p => { p with runtime := (p.runtime + sliceLen) % 2 ^ 64 }
  schedule P s c .runnable

/-! ### The machine -/

inductive Label (T : Type) where
  | activate (p : T)
  | alert (p : T)
  | kill (p : T)
  | schedule (c : Cpu) (new : ProcState)
  | tick (c : Cpu)

/-- What the process running on `c` may call: an idle process only yields. -/
def Calls (s : Sys T) (c : Cpu) (new : ProcState) : Prop :=
  new ≠ .running ∧ new ≠ .unused ∧ (P.idle (s.running c) = true → new = .runnable)

instance (s : Sys T) (c : Cpu) (new : ProcState) : Decidable (Calls P s c new) :=
  inferInstanceAs (Decidable (_ ∧ _ ∧ _))

/-- **The steps.** -/
def step (s : Sys T) : Label T → Option (Sys T)
  | .activate p => some (activateProc P s p false).2
  | .alert p => some (activateProc P s p true).2
  | .kill p => if P.idle p then none else some (s.modify p fun q => { q with killed := true })
  | .schedule c new => if Calls P s c new then schedule P s c new else none
  | .tick c => if (s.timer c).queued then schedHandler P s c else none

/-- After `define_init(idles)`: every CPU runs its idle process. -/
def boot : Sys T where
  proc p := ⟨if P.idle p then .running else .unused, false, 0⟩
  rq _ := []
  running := P.idleOf
  timer _ := ⟨false, false, false⟩

/-! ### What the parts of the state are after an update -/

/-- A timer that is in the tree exactly when `data` says so, and then not triggered. -/
def Timer.Sound (t : Timer) : Prop := t.queued = t.data ∧ (t.queued = true → t.triggered = false)

theorem Timer.Sound.restart {t : Timer} (h : t.Sound) : ∃ t', t.restart = some t' ∧ t'.Sound := by
  obtain ⟨queued, triggered, data⟩ := t
  obtain ⟨hdata, htrig⟩ := h
  simp only at hdata htrig
  subst hdata
  cases queued
  · exact ⟨_, rfl, rfl, fun _ => rfl⟩
  · cases htrig rfl
    exact ⟨_, rfl, rfl, fun _ => rfl⟩

namespace Sys

variable {P} {s : Sys T} {c c' : Cpu} {p q : T}

@[simp] theorem modify_rq (f : Proc → Proc) : (s.modify p f).rq = s.rq := rfl
@[simp] theorem modify_running (f : Proc → Proc) : (s.modify p f).running = s.running := rfl
@[simp] theorem modify_timer (f : Proc → Proc) : (s.modify p f).timer = s.timer := rfl
@[simp] theorem setState_rq (st : ProcState) : (s.setState p st).rq = s.rq := rfl
@[simp] theorem setState_running (st : ProcState) : (s.setState p st).running = s.running := rfl
@[simp] theorem setState_timer (st : ProcState) : (s.setState p st).timer = s.timer := rfl
omit [DecidableEq T] in
@[simp] theorem enqueue_proc : (s.enqueue P c p).proc = s.proc := rfl
omit [DecidableEq T] in
@[simp] theorem enqueue_running : (s.enqueue P c p).running = s.running := rfl
omit [DecidableEq T] in
@[simp] theorem enqueue_timer : (s.enqueue P c p).timer = s.timer := rfl
@[simp] theorem dequeue_proc : (s.dequeue c p).proc = s.proc := rfl
@[simp] theorem dequeue_running : (s.dequeue c p).running = s.running := rfl
@[simp] theorem dequeue_timer : (s.dequeue c p).timer = s.timer := rfl

@[simp] theorem dispatch_running : (s.dispatch P c p).running = update s.running c p := by
  unfold dispatch; split_ifs <;> rfl

@[simp] theorem dispatch_proc : (s.dispatch P c p).proc = (s.setState p .running).proc := by
  unfold dispatch; split_ifs <;> rfl

@[simp] theorem dispatch_timer : (s.dispatch P c p).timer = s.timer := by
  unfold dispatch; split_ifs <;> rfl

theorem modify_proc (f : Proc → Proc) :
    (s.modify p f).proc q = if q = p then f (s.proc p) else s.proc q := by
  simp [modify, update_apply]

@[simp] theorem state_setState (st : ProcState) :
    ((s.setState p st).proc q).state = if q = p then st else (s.proc q).state := by
  simp only [setState, modify_proc]
  split_ifs <;> rfl

@[simp] theorem runtime_setState (st : ProcState) :
    ((s.setState p st).proc q).runtime = (s.proc q).runtime := by
  simp only [setState, modify_proc]
  split_ifs with h
  · rw [h]
  · rfl

theorem setState_setState (st st' : ProcState) : (s.setState p st).setState p st' = s.setState p st' := by
  simp [setState, modify]

theorem setState_enqueue (st : ProcState) :
    (s.enqueue P c p).setState q st = (s.setState q st).enqueue P c p := by
  have hcmp : cmpRuntime P (s.setState q st) = cmpRuntime P s := by
    funext x y
    simp [cmpRuntime]
  simp only [enqueue, hcmp]
  rfl

end Sys

/-! ### What the functions do to the states of the processes -/

variable {P}

theorem state_activateProc {s : Sys T} {p : T} (onalert : Bool) (q : T) :
    ((activateProc P s p onalert).2.proc q).state = (s.proc q).state ∨
      (q = p ∧ ((activateProc P s p onalert).2.proc q).state = .runnable) := by
  have hwake : ((activateProc.wake P s p).proc q).state = (s.proc q).state ∨
      (q = p ∧ ((activateProc.wake P s p).proc q).state = .runnable) := by
    unfold activateProc.wake
    by_cases hq : q = p
    · refine Or.inr ⟨hq, ?_⟩
      split_ifs <;> simp [hq]
    · refine Or.inl ?_
      split_ifs <;> simp [hq]
  unfold activateProc
  split
  · exact Or.inl rfl
  · exact Or.inl rfl
  · exact Or.inl rfl
  · split_ifs
    · exact Or.inl rfl
    · exact hwake
  · exact hwake
  · exact hwake

theorem state_activate_self (s : Sys T) (p : T) :
    ((activateProc P s p false).2.proc p).state ≠ .sleeping ∧
      ((activateProc P s p false).2.proc p).state ≠ .deepsleeping := by
  have hwake : ((activateProc.wake P s p).proc p).state = .runnable := by
    unfold activateProc.wake
    split_ifs <;> simp
  unfold activateProc
  split <;> simp [*]

variable {s' : Sys T} {new : ProcState}

theorem proc_updateThisState {s : Sys T} {c : Cpu}
    (h : updateThisState P s c new = some s') : s'.proc = (s.setState (s.running c) new).proc := by
  simp only [updateThisState] at h
  split_ifs at h
  all_goals
    cases h
    rfl

theorem state_of_switch {s : Sys T} {c : Cpu} (h : schedule P s c new = some s')
    (hk : ¬ ((s.proc (s.running c)).killed = true ∧ new ≠ .zombie)) :
    ∃ p, (p ≠ s.running c → (s.proc p).state = .runnable) ∧ (p = s.running c → new = .runnable) ∧
      ∀ q, (s'.proc q).state =
        if q = p then .running else if q = s.running c then new else (s.proc q).state := by
  simp only [schedule] at h
  split_ifs at h with hrun
  obtain ⟨s₁, hs₁, h⟩ := bind_eq_some_iff.mp h
  have h₁ : ∀ q, (s₁.proc q).state = if q = s.running c then new else (s.proc q).state := by
    intro q
    rw [proc_updateThisState hs₁, Sys.state_setState]
  split_ifs at h with hnext
  obtain ⟨t, -, h⟩ := bind_eq_some_iff.mp h
  rw [not_not, h₁] at hnext
  refine ⟨pickNext P s₁ c, fun hp => ?_, fun hp => ?_, fun q => ?_⟩
  · rwa [if_neg hp] at hnext
  · rwa [if_pos hp] at hnext
  · rw [← some.inj h, Sys.dispatch_proc, Sys.state_setState]
    split_ifs with hq hc
    · rfl
    · exact (h₁ q).trans (if_pos hc)
    · exact (h₁ q).trans (if_neg hc)

theorem state_schedule {s : Sys T} {c : Cpu} (h : schedule P s c new = some s')
    (q : T) : (s'.proc q).state = (s.proc q).state ∨
      ((s'.proc q).state = .running ∧ ((s.proc q).state = .runnable ∨ q = s.running c)) ∨
      (q = s.running c ∧ (s'.proc q).state = new) := by
  by_cases hk : (s.proc (s.running c)).killed = true ∧ new ≠ .zombie
  · simp only [schedule, if_pos hk] at h
    split_ifs at h
    exact Or.inl (by rw [some.inj h])
  · obtain ⟨p, hother, -, hall⟩ := state_of_switch h hk
    rw [hall q]
    split_ifs with hq hc
    · refine Or.inr (Or.inl ⟨rfl, ?_⟩)
      by_cases hc : q = s.running c
      · exact Or.inr hc
      · exact Or.inl (hq ▸ hother (hq ▸ hc))
    · exact Or.inr (Or.inr ⟨hc, rfl⟩)
    · exact Or.inl rfl

theorem state_schedule_zombie {s : Sys T} {c : Cpu} (h : schedule P s c .zombie = some s') :
    (s'.proc (s.running c)).state = .zombie := by
  obtain ⟨p, -, hself, hall⟩ := state_of_switch h (by simp)
  have hne : s.running c ≠ p := fun he => absurd (hself he.symm) (by simp)
  rw [hall, if_neg hne, if_pos rfl]

theorem state_schedHandler {s : Sys T} {c : Cpu} (h : schedHandler P s c = some s') (q : T) :
    (s'.proc q).state = (s.proc q).state ∨ (s'.proc q).state = .running ∨
      (s'.proc q).state = .runnable := by
  obtain ⟨t, -, h⟩ := bind_eq_some_iff.mp h
  rcases state_schedule h q with hq | hq | ⟨-, hq⟩
  · refine Or.inl (hq.trans ?_)
    rw [Sys.modify_proc]
    split_ifs with hr
    · rw [hr]; rfl
    · rfl
  · exact Or.inr (Or.inl hq.1)
  · exact Or.inr (Or.inr hq)

theorem zombie_step {s : Sys T} {l : Label T} (h : step P s l = some s') {p : T}
    (hp : (s.proc p).state = .zombie) : (s'.proc p).state = .zombie := by
  have hactivate : ∀ q b, ((activateProc P s q b).2.proc p).state = .zombie := by
    intro q b
    by_cases hq : p = q
    · subst hq
      simp [activateProc, hp]
    · rcases state_activateProc (P := P) (s := s) (p := q) b p with he | ⟨he, -⟩
      · exact he.trans hp
      · exact absurd he hq
  have hschedule : ∀ {s s' : Sys T} {c new}, schedule P s c new = some s' →
      (s.proc p).state = .zombie → (s'.proc p).state = .zombie := by
    intro s s' c new h hp
    have hrun : (s.proc (s.running c)).state = .running := by
      by_contra hne
      simp only [schedule, if_pos hne] at h
      cases h
    have hne : p ≠ s.running c := by
      rintro rfl
      rw [hrun] at hp
      exact absurd hp (by simp)
    rcases state_schedule h p with he | ⟨-, he | he⟩ | ⟨he, -⟩
    · exact he.trans hp
    · rw [hp] at he
      exact absurd he (by simp)
    · exact absurd he hne
    · exact absurd he hne
  cases l with
  | activate q =>
    cases h
    exact hactivate q false
  | alert q =>
    cases h
    exact hactivate q true
  | kill q =>
    simp only [step] at h
    split_ifs at h
    cases h
    rw [Sys.modify_proc]
    split_ifs with hq
    · rw [← hq]; exact hp
    · exact hp
  | schedule c new =>
    simp only [step] at h
    split_ifs at h
    exact hschedule h hp
  | tick c =>
    simp only [step] at h
    split_ifs at h
    obtain ⟨t, -, h⟩ := bind_eq_some_iff.mp h
    refine hschedule h ?_
    rw [Sys.modify_proc]
    split_ifs with hq
    · rw [← hq]; exact hp
    · exact hp

end OsHonor.Processes.Sched
