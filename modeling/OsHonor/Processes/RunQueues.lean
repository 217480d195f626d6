import OsHonor.Base.Runs
import OsHonor.Processes.Sched

/-! # The run queues of the scheduler

The invariant that ties the run queues, the states of the processes and the CPUs together. `schedule`
breaks it between putting a process aside and picking the next one, so it speaks of the CPUs that have a
process; each part of the source's functions then keeps it or moves a CPU in or out. `scheduling` states
what it gives in every reachable state. -/

namespace OsHonor.Processes.RunQueues

open Function Base.Runs Base.Sorted Sched

variable {T : Type} [DecidableEq T] {P : Procs T}

def key (P : Procs T) (s : Sys T) (p : T) : ℕ ×ₗ ℕ := toLex ((s.proc p).runtime, P.pid p)

omit [DecidableEq T] in
theorem explains_key (s : Sys T) : Explains (key P s) (cmpRuntime P s) := by
  intro p q
  simp only [key, Prod.Lex.toLex_lt_toLex, cmpRuntime]
  split_ifs with h <;> simp [h]

/-- **The invariant**, where the CPUs in `D` have a process: a CPU that has put its process aside and has
not picked the next one is not in `D`. -/
structure Inv (P : Procs T) (D : Cpu → Prop) (s : Sys T) : Prop where
  queued : ∀ p c, p ∈ s.rq c ↔ P.idle p = false ∧ (s.proc p).state = .runnable ∧ P.home p = c
  sorted : ∀ c, Ascending (key P s) (s.rq c)
  running : ∀ c, D c → (s.proc (s.running c)).state = .running
  home : ∀ c, s.running c = P.idleOf c ∨ P.idle (s.running c) = false ∧ P.home (s.running c) = c
  only : ∀ p, (s.proc p).state = .running → ∃ c, D c ∧ s.running c = p
  idles : ∀ c, (s.proc (P.idleOf c)).state = .running ∨ (s.proc (P.idleOf c)).state = .runnable
  timer : ∀ c, (s.timer c).Sound

omit [DecidableEq T] in
theorem inv_boot : Inv P (fun _ => True) (boot P) where
  queued p c := by
    simp only [boot, List.not_mem_nil, false_iff]
    rintro ⟨hidle, hstate, -⟩
    simp [hidle] at hstate
  sorted c := List.Pairwise.nil
  running c _ := by simp [boot, P.idle_idleOf]
  home c := Or.inl rfl
  only p hp := by
    by_cases hidle : P.idle p = true
    · obtain ⟨c, rfl⟩ := P.eq_idleOf p hidle
      exact ⟨c, trivial, rfl⟩
    · simp [boot, hidle] at hp
  idles c := Or.inl (by simp [boot, P.idle_idleOf])
  timer c := ⟨rfl, fun h => rfl⟩

omit [DecidableEq T] in
theorem mem_enqueue {s : Sys T} {c : Cpu} {p : T} (hs : Ascending (key P s) (s.rq c))
    (hp : P.idle p = false) (hothers : ∀ q ∈ s.rq c, P.idle q = false) (hnot : p ∉ s.rq c) :
    (∀ c', Ascending (key P s) (s.rq c') → Ascending (key P s) ((s.enqueue P c p).rq c')) ∧
    ∀ q c', q ∈ (s.enqueue P c p).rq c' ↔ (q = p ∧ c' = c) ∨ q ∈ s.rq c' := by
  rcases insertBy_spec (explains_key s) p hs with ⟨-, q, hq, hkey⟩ | ⟨l, hl, hasc, -, hmem⟩
  · have hpid : P.pid q = P.pid p := congrArg (fun k => (ofLex k).2) hkey
    exact absurd (P.pid_injective q p (hothers q hq) hp hpid ▸ hq) hnot
  · have hrq : (s.enqueue P c p).rq = update s.rq c l := by simp [Sys.enqueue, hl]
    rw [hrq]
    refine ⟨fun c' hc' => ?_, fun q c' => ?_⟩
    · by_cases hc : c' = c
      · subst hc; rw [update_self]; exact hasc
      · rw [update_of_ne hc]; exact hc'
    · by_cases hc : c' = c
      · subst hc; rw [update_self, hmem]; simp
      · rw [update_of_ne hc]; simp [hc]

namespace Inv

variable {D : Cpu → Prop} {s : Sys T} {c : Cpu} {p : T}

omit [DecidableEq T] in
theorem not_idle (h : Inv P D s) (hrun : (s.proc p).state ≠ .running)
    (hable : (s.proc p).state ≠ .runnable) : P.idle p = false := by
  by_contra hidle
  obtain ⟨c, rfl⟩ := P.eq_idleOf p (by simpa using hidle)
  rcases h.idles c with h | h
  · exact hrun h
  · exact hable h

omit [DecidableEq T] in
theorem not_queued (h : Inv P D s) (hable : (s.proc p).state ≠ .runnable) : p ∉ s.rq c :=
  fun hp => hable ((h.queued p c).mp hp).2.1

theorem modify (h : Inv P D s) {f : Proc → Proc} (hstate : ∀ q, (f q).state = q.state)
    (hruntime : (∀ q, (f q).runtime = q.runtime) ∨ (s.proc p).state ≠ .runnable) :
    Inv P D (s.modify p f) := by
  have hst : ∀ q, ((s.modify p f).proc q).state = (s.proc q).state := by
    intro q
    rw [Sys.modify_proc]
    split_ifs with hq
    · rw [hstate, hq]
    · rfl
  refine ⟨?_, ?_, ?_, h.home, ?_, ?_, h.timer⟩
  · intro q c
    rw [hst]; exact h.queued q c
  · intro c
    refine (h.sorted c).congr fun q hq => ?_
    simp only [key, Sys.modify_proc]
    split_ifs with hqp
    · rcases hruntime with hr | hr
      · rw [hr, hqp]
      · exact absurd (hqp ▸ hq) (h.not_queued hr)
    · rfl
  · intro c hc
    rw [hst]; exact h.running c hc
  · intro q hq
    rw [hst] at hq; exact h.only q hq
  · intro c
    rw [hst]; exact h.idles c

omit [DecidableEq T] in
theorem setTimer (h : Inv P D s) {t : Timer} (ht : t.Sound) : Inv P D (s.setTimer c t) := by
  refine ⟨h.queued, h.sorted, h.running, h.home, h.only, h.idles, ?_⟩
  intro c'
  simp only [Sys.setTimer, update_apply]
  split_ifs
  · exact ht
  · exact h.timer c'

theorem makeRunnable (h : Inv P D s) (hidle : P.idle p = false) (hable : (s.proc p).state ≠ .runnable)
    (hD : ∀ c, D c → s.running c ≠ p) :
    Inv P D ((s.setState p .runnable).enqueue P (P.home p) p) := by
  have hkey : ∀ q, key P (s.setState p .runnable) q = key P s q := by
    intro q
    simp [key]
  obtain ⟨hasc, hmem⟩ := mem_enqueue (P := P) (s := s.setState p .runnable) (c := P.home p) (p := p)
    ((h.sorted _).congr fun q _ => hkey q) hidle (fun q hq => ((h.queued q _).mp hq).1)
    (h.not_queued hable)
  refine ⟨?_, ?_, ?_, h.home, ?_, ?_, h.timer⟩
  · intro q c
    rw [hmem]
    simp only [Sys.setState_rq, Sys.enqueue_proc, Sys.state_setState, h.queued]
    by_cases hq : q = p
    · subst hq
      simp [hidle, hable, eq_comm]
    · simp [hq]
  · exact fun c => hasc c ((h.sorted c).congr fun q _ => hkey q)
  · intro c hc
    simp only [Sys.enqueue_proc, Sys.enqueue_running, Sys.setState_running, Sys.state_setState]
    rw [if_neg (hD c hc)]
    exact h.running c hc
  · intro q hq
    simp only [Sys.enqueue_proc, Sys.state_setState] at hq
    split_ifs at hq
    exact h.only q hq
  · intro c
    simp only [Sys.enqueue_proc, Sys.state_setState]
    rw [if_neg fun he => by rw [← he, P.idle_idleOf] at hidle; exact absurd hidle (by simp)]
    exact h.idles c

theorem activateProc (h : Inv P D s) (onalert : Bool) : Inv P D (activateProc P s p onalert).2 := by
  have hwake : (s.proc p).state ≠ .running → (s.proc p).state ≠ .runnable →
      Inv P D (activateProc.wake P s p) := by
    intro hrun hable
    have hidle := h.not_idle hrun hable
    simp only [activateProc.wake, hidle, Bool.false_eq_true, if_false]
    exact h.makeRunnable hidle hable fun c hc he => hrun (he ▸ h.running c hc)
  unfold Sched.activateProc
  split
  · exact h
  · exact h
  · exact h
  · split_ifs
    · exact h
    · exact hwake (by simp [*]) (by simp [*])
  · exact hwake (by simp [*]) (by simp [*])
  · exact hwake (by simp [*]) (by simp [*])

omit [DecidableEq T] in
theorem running_injective (h : Inv P D s) : Function.Injective s.running := by
  intro c c' he
  rcases h.home c with hc | ⟨hc, hc1⟩
  · rcases h.home c' with hc' | ⟨hc', -⟩
    · exact P.idleOf_injective (hc.symm.trans (he.trans hc'))
    · rw [← he, hc, P.idle_idleOf] at hc'
      exact absurd hc' (by simp)
  · rcases h.home c' with hc' | ⟨-, hc'⟩
    · rw [he, hc', P.idle_idleOf] at hc
      exact absurd hc (by simp)
    · exact hc1.symm.trans (he ▸ hc')

theorem park (h : Inv P (fun _ => True) s) {st : ProcState} (hst : st ≠ .running)
    (hidle : P.idle (s.running c) = true ↔ st = .runnable) :
    Inv P (· ≠ c) (s.setState (s.running c) st) := by
  have hrun := h.running c trivial
  refine ⟨?_, ?_, ?_, h.home, ?_, ?_, h.timer⟩
  · intro q c'
    simp only [Sys.setState_rq, Sys.state_setState, h.queued]
    by_cases hq : q = s.running c
    · subst hq
      have hno : P.idle (s.running c) = false → ¬ st = .runnable := fun hf => by simp [← hidle, hf]
      simp only [hrun, if_true, reduceCtorEq, false_and, and_false, false_iff]
      exact fun hq => hno hq.1 hq.2.1
    · simp [hq]
  · exact fun c' => (h.sorted c').congr fun q _ => by simp [key]
  · intro c' hc'
    have hne : s.running c' ≠ s.running c := fun he => hc' (h.running_injective he)
    simp only [Sys.setState_running, Sys.state_setState, if_neg hne]
    exact h.running c' trivial
  · intro q hq
    simp only [Sys.state_setState] at hq
    split_ifs at hq with hqc
    · exact absurd hq hst
    · obtain ⟨c', -, rfl⟩ := h.only q hq
      exact ⟨c', fun he => hqc (by rw [he]), rfl⟩
  · intro c'
    simp only [Sys.state_setState]
    split_ifs with hc'
    · exact Or.inr (hidle.mp (by rw [← hc', P.idle_idleOf]))
    · exact h.idles c'

theorem updateThisState (h : Inv P (fun _ => True) s) {new : ProcState} (hc : Calls P s c new) :
    ∃ s', updateThisState P s c new = some s' ∧ Inv P (· ≠ c) s' ∧ s'.running = s.running ∧
      ∀ q, (s'.proc q).runtime = (s.proc q).runtime := by
  obtain ⟨hrunning, hunused, hidle⟩ := hc
  have hrun := h.running c trivial
  simp only [Sched.updateThisState, if_neg hrunning]
  refine ⟨_, rfl, ?_⟩
  by_cases hq : new = .runnable ∧ P.idle (s.running c) = false
  · obtain ⟨rfl, hni⟩ := hq
    have hhome : P.home (s.running c) = c := by
      rcases h.home c with hc | ⟨-, hc⟩
      · rw [hc, P.idle_idleOf] at hni
        exact absurd hni (by simp)
      · exact hc
    -- aside without a place first, then into the queue
    have hpark : Inv P (· ≠ c) (s.setState (s.running c) .unused) :=
      h.park (by simp) (by simp [hni])
    have hqueue := hpark.makeRunnable (p := s.running c) hni (by simp)
      (fun c' hc' he => hc' (h.running_injective he))
    rw [Sys.setState_setState, hhome] at hqueue
    simp only [hni, and_self, if_true, reduceCtorEq, or_self, false_and, if_false, Sys.setState_enqueue]
    exact ⟨hqueue, rfl, fun q => by simp⟩
  · have hst : (if new = .runnable ∧ P.idle (s.running c) = false then s.enqueue P c (s.running c)
        else s) = s := if_neg hq
    simp only [hst, hrun, reduceCtorEq, and_false, if_false]
    refine ⟨h.park hrunning ⟨hidle, fun hnew => ?_⟩, rfl, fun q => by simp⟩
    by_contra hni
    exact hq ⟨hnew, by simpa using hni⟩

omit [DecidableEq T] in
/-- **What `pick_next` returns**: the least process of the queue, or the idle process. -/
theorem pickNext (h : Inv P (· ≠ c) s) : (s.proc (pickNext P s c)).state = .runnable ∧
    ((s.rq c = [] ∧ pickNext P s c = P.idleOf c) ∨
      pickNext P s c ∈ s.rq c ∧
        ∀ q ∈ s.rq c, q ≠ pickNext P s c → key P s (pickNext P s c) < key P s q) := by
  unfold Sched.pickNext
  rcases hrq : s.rq c with _ | ⟨p, l⟩
  · refine ⟨?_, Or.inl ⟨rfl, rfl⟩⟩
    rcases h.idles c with hrun | hable
    · obtain ⟨c', hne, hc'⟩ := h.only _ hrun
      rcases h.home c' with hidle | ⟨hidle, -⟩
      · exact absurd (P.idleOf_injective (hidle.symm.trans hc')) hne
      · rw [hc', P.idle_idleOf] at hidle
        exact absurd hidle (by simp)
    · exact hable
  · have hp : p ∈ s.rq c := by rw [hrq]; exact List.mem_cons_self
    refine ⟨((h.queued p c).mp hp).2.1, Or.inr ⟨List.mem_cons_self, ?_⟩⟩
    rw [← hrq]
    exact (h.sorted c).head_lt (by rw [hrq]; rfl)

theorem dispatch (h : Inv P (· ≠ c) s) (hp : p = Sched.pickNext P s c) :
    Inv P (fun _ => True) (s.dispatch P c p) := by
  obtain ⟨hable, hpick⟩ := h.pickNext
  rw [← hp] at hable hpick
  have hidle : P.idle p = true → p = P.idleOf c := by
    intro hi
    rcases hpick with ⟨-, hp⟩ | ⟨hp, -⟩
    · exact hp
    · rw [((h.queued p c).mp hp).1] at hi
      exact absurd hi (by simp)
  have hhome : P.idle p = false → P.home p = c := by
    intro hi
    rcases hpick with ⟨-, hp⟩ | ⟨hp, -⟩
    · rw [hp, P.idle_idleOf] at hi
      exact absurd hi (by simp)
    · exact ((h.queued p c).mp hp).2.2
  obtain ⟨hmem, hsub⟩ : (∀ q c', q ∈ (s.dispatch P c p).rq c' ↔ q ≠ p ∧ q ∈ s.rq c') ∧
      ∀ c', ((s.dispatch P c p).rq c').Sublist (s.rq c') := by
    rcases hi : P.idle p with _ | _
    · have hrq : (s.dispatch P c p).rq = update s.rq c ((s.rq c).erase p) := by
        simp [Sys.dispatch, hi, Sys.dequeue]
      rw [hrq]
      refine ⟨fun q c' => ?_, fun c' => ?_⟩
      · by_cases hc : c' = c
        · subst hc
          rw [update_self, (h.sorted c').nodup.mem_erase_iff]
        · rw [update_of_ne hc]
          refine ⟨fun hq => ⟨?_, hq⟩, And.right⟩
          rintro rfl
          exact hc (((h.queued q c').mp hq).2.2.symm.trans (hhome hi))
      · by_cases hc : c' = c
        · subst hc
          rw [update_self]; exact List.erase_sublist
        · rw [update_of_ne hc]
    · have hrq : (s.dispatch P c p).rq = s.rq := by simp [Sys.dispatch, hi]
      rw [hrq]
      refine ⟨fun q c' => ⟨fun hq => ⟨?_, hq⟩, And.right⟩, fun c' => List.Sublist.refl _⟩
      rintro rfl
      rw [((h.queued q c').mp hq).1] at hi
      exact absurd hi (by simp)
  refine ⟨?_, ?_, ?_, ?_, ?_, ?_, ?_⟩
  · intro q c'
    rw [hmem, Sys.dispatch_proc, Sys.state_setState, h.queued]
    by_cases hq : q = p
    · simp [hq]
    · simp [hq]
  · intro c'
    refine Ascending.congr ((h.sorted c').sublist (hsub c')) fun q _ => ?_
    simp only [key, Sys.dispatch_proc, Sys.runtime_setState]
  · intro c' _
    rw [Sys.dispatch_running, Sys.dispatch_proc, Sys.state_setState, update_apply]
    by_cases hc : c' = c
    · simp [hc]
    · rw [if_neg hc]
      split_ifs
      · rfl
      · exact h.running c' hc
  · intro c'
    rw [Sys.dispatch_running, update_apply]
    by_cases hc : c' = c
    · rw [if_pos hc, hc]
      rcases hi : P.idle p with _ | _
      · exact Or.inr ⟨rfl, hhome hi⟩
      · exact Or.inl (hidle hi)
    · rw [if_neg hc]
      exact h.home c'
  · intro q hq
    rw [Sys.dispatch_proc, Sys.state_setState] at hq
    rw [Sys.dispatch_running]
    by_cases hqp : q = p
    · exact ⟨c, trivial, by rw [update_self, hqp]⟩
    · rw [if_neg hqp] at hq
      obtain ⟨c', hc', rfl⟩ := h.only q hq
      exact ⟨c', trivial, update_of_ne hc' _ _⟩
  · intro c'
    rw [Sys.dispatch_proc, Sys.state_setState]
    split_ifs
    · exact Or.inl rfl
    · exact h.idles c'
  · rw [Sys.dispatch_timer]; exact h.timer

theorem updateThisProc (h : Inv P (· ≠ c) s) :
    ∃ s', updateThisProc P s c (Sched.pickNext P s c) = some s' ∧ Inv P (fun _ => True) s' ∧
      s'.running c = Sched.pickNext P s c ∧ ∀ q, (s'.proc q).runtime = (s.proc q).runtime := by
  obtain ⟨t, ht, hsound⟩ := (h.timer c).restart
  refine ⟨_, by rw [Sched.updateThisProc, ht]; rfl, (h.setTimer hsound).dispatch rfl, ?_, fun q => ?_⟩
  · rw [Sys.dispatch_running, update_self]; rfl
  · rw [Sys.dispatch_proc, Sys.runtime_setState]; rfl

/-- **`schedule`.** No assertion fails, the runtimes stay, and if the process gives up the CPU the next
one is the least of the queue, or the idle process. -/
theorem schedule (h : Inv P (fun _ => True) s) {new : ProcState} (hc : Calls P s c new) :
    ∃ s', schedule P s c new = some s' ∧ Inv P (fun _ => True) s' ∧
      (∀ q, (s'.proc q).runtime = (s.proc q).runtime) ∧
      (¬ ((s.proc (s.running c)).killed = true ∧ new ≠ .zombie) →
        ∃ s₁, Sched.updateThisState P s c new = some s₁ ∧ s'.running c = Sched.pickNext P s₁ c ∧
          Inv P (· ≠ c) s₁) := by
  simp only [Sched.schedule, h.running c trivial, ne_eq, not_true_eq_false, if_false]
  by_cases hk : (s.proc (s.running c)).killed = true ∧ new ≠ .zombie
  · rw [if_pos hk]
    exact ⟨s, rfl, h, fun _ => rfl, fun hn => absurd hk hn⟩
  · obtain ⟨s₁, hs₁, h₁, -, hrt₁⟩ := h.updateThisState hc
    obtain ⟨s₂, hs₂, h₂, hnext, hrt₂⟩ := h₁.updateThisProc
    rw [if_neg hk, hs₁]
    simp only [Option.bind_eq_bind, Option.bind_some, h₁.pickNext.1, not_true_eq_false, if_false]
    exact ⟨s₂, hs₂, h₂, fun q => (hrt₂ q).trans (hrt₁ q), fun _ => ⟨s₁, rfl, hnext, h₁⟩⟩

/-- **A timer tick.** Only the process on the CPU gets older, and it is in no queue. -/
theorem schedHandler (h : Inv P (fun _ => True) s) (hq : (s.timer c).queued = true) :
    ∃ s', schedHandler P s c = some s' ∧ Inv P (fun _ => True) s' ∧
      ∀ q, q ≠ s.running c → (s'.proc q).runtime = (s.proc q).runtime := by
  have hcancel : (s.timer c).cancel = some { s.timer c with queued := false } :=
    if_neg (by rw [(h.timer c).2 hq]; simp)
  have ht : Timer.Sound { s.timer c with queued := false, triggered := true, data := false } :=
    ⟨rfl, fun hf => absurd hf (by simp)⟩
  have h₁ := (h.setTimer (c := c) ht).modify (p := s.running c)
    (f := fun p => { p with runtime := (p.runtime + sliceLen) % 2 ^ 64 }) (fun _ => rfl)
    (Or.inr (by rw [show (s.setTimer c _).proc = s.proc from rfl, h.running c trivial]; simp))
  have hcalls : ∀ s, Calls P s c .runnable := fun s => ⟨by simp, by simp, fun _ => rfl⟩
  obtain ⟨s', hs', h', hrt, -⟩ := h₁.schedule (hcalls _)
  refine ⟨s', ?_, h', fun q hne => ?_⟩
  · rw [Sched.schedHandler, hcancel]
    exact hs'
  · rw [hrt, Sys.modify_proc, if_neg hne]
    rfl

end Inv

theorem inv_step {s s' : Sys T} {l : Label T} (h : Inv P (fun _ => True) s) (hs : step P s l = some s') :
    Inv P (fun _ => True) s' ∧ ∀ p c, p ∈ s.rq c → (s'.proc p).runtime = (s.proc p).runtime := by
  have hactivate : ∀ p b q, ((activateProc P s p b).2.proc q).runtime = (s.proc q).runtime := by
    intro p b q
    unfold activateProc activateProc.wake
    split <;> (try split_ifs) <;> simp
  cases l with
  | activate p =>
    simp only [step, Option.some.injEq] at hs
    subst hs
    exact ⟨h.activateProc false, fun q c _ => hactivate p false q⟩
  | alert p =>
    simp only [step, Option.some.injEq] at hs
    subst hs
    exact ⟨h.activateProc true, fun q c _ => hactivate p true q⟩
  | kill p =>
    simp only [step] at hs
    split_ifs at hs
    simp only [Option.some.injEq] at hs
    subst hs
    refine ⟨h.modify (fun _ => rfl) (Or.inl fun _ => rfl), fun q c _ => ?_⟩
    rw [Sys.modify_proc]
    split_ifs with hq
    · rw [hq]
    · rfl
  | schedule c new =>
    simp only [step] at hs
    split_ifs at hs with hc
    obtain ⟨s₁, hs₁, h₁, hrt, -⟩ := h.schedule hc
    obtain rfl : s₁ = s' := Option.some.inj (hs₁.symm.trans hs)
    exact ⟨h₁, fun q c _ => hrt q⟩
  | tick c =>
    simp only [step] at hs
    split_ifs at hs with hq
    obtain ⟨s₁, hs₁, h₁, hrt⟩ := h.schedHandler hq
    obtain rfl : s₁ = s' := Option.some.inj (hs₁.symm.trans hs)
    refine ⟨h₁, fun q c' hqc => hrt q ?_⟩
    rintro rfl
    exact h.not_queued (by rw [h.running c trivial]; simp) hqc

/-- **The run queues.** In every reachable state: a process that is not idle is in the run queue of its
CPU exactly when it is runnable, and in no other; every CPU runs one process, which is marked as
running and is its idle process or belongs there, and nobody else is so marked; no step changes the
runtime of a queued process; a process that gives up its CPU is followed by the least process of the
queue, or by the idle process if there is none; and the assertions hold. -/
theorem scheduling {ls : List (Label T)} {s : Sys T}
    (hrun : Run (step P) (fun _ _ => True) (boot P) ls s) : (∀ p c, P.idle p = false →
      (p ∈ s.rq c ↔ (s.proc p).state = .runnable ∧ c.val = P.pid p % nCpu)) ∧
    (∀ c, (s.proc (s.running c)).state = .running ∧
      (s.running c = P.idleOf c ∨ P.pid (s.running c) % nCpu = c)) ∧
    (∀ p, (s.proc p).state = .running → ∃ c, ∀ c', s.running c' = p ↔ c' = c) ∧
    (∀ l s' p c, step P s l = some s' → p ∈ s.rq c → (s'.proc p).runtime = (s.proc p).runtime) ∧
    (∀ c new, Calls P s c new → ¬ ((s.proc (s.running c)).killed = true ∧ new ≠ .zombie) →
      ∃ s₁ s', updateThisState P s c new = some s₁ ∧ schedule P s c new = some s' ∧
        ((s₁.rq c = [] ∧ s'.running c = P.idleOf c) ∨
          s'.running c ∈ s₁.rq c ∧
            ∀ q ∈ s₁.rq c, q ≠ s'.running c → key P s₁ (s'.running c) < key P s₁ q)) ∧
    (∀ c new, Calls P s c new → schedule P s c new ≠ none) ∧
    (∀ c, (s.timer c).queued = true → schedHandler P s c ≠ none) := by
  have h : Inv P (fun _ => True) s := hrun.inv (fun _ _ _ h _ hs => (inv_step h hs).1) inv_boot
  refine ⟨fun p c hp => ?_, fun c => ⟨h.running c trivial, ?_⟩, fun p hp => ?_,
    fun l s' p c hs => (inv_step h hs).2 p c, fun c new hc hk => ?_, fun c new hc => ?_, fun c hq => ?_⟩
  · rw [h.queued]
    simp only [hp, true_and, Procs.home, cpuNo, Fin.ext_iff, eq_comm]
  · rcases h.home c with hc | ⟨-, hc⟩
    · exact Or.inl hc
    · exact Or.inr (congrArg Fin.val hc)
  · obtain ⟨c, -, rfl⟩ := h.only p hp
    exact ⟨c, fun c' => h.running_injective.eq_iff⟩
  · obtain ⟨s', hs', -, -, hpick⟩ := h.schedule hc
    obtain ⟨s₁, hs₁, hnext, h₁⟩ := hpick hk
    exact ⟨s₁, s', hs₁, hs', hnext ▸ h₁.pickNext.2⟩
  · obtain ⟨s', hs', -⟩ := h.schedule hc
    rw [hs']; simp
  · obtain ⟨s', hs', -⟩ := h.schedHandler hq
    rw [hs']; simp

/-- Two processes share the second CPU and one is on the third. -/
def numberedRun : List (Label (Cpu ⊕ ℕ)) :=
  [.activate (.inr 1), .activate (.inr 5), .activate (.inr 2), .schedule (cpuNo 1) .runnable,
    .tick (cpuNo 1), .tick (cpuNo 1), .schedule (cpuNo 1) .sleeping, .kill (.inr 5), .alert (.inr 5)]

theorem scheduling_numbered :
    ∃ s, Run (step numbered) (fun _ _ => True) (boot numbered) numberedRun s ∧
      ∀ c new, Calls numbered s c new → schedule numbered s c new ≠ none := by
  obtain ⟨s, hs⟩ := Option.isSome_iff_exists.mp (by decide +kernel :
    (exec (step numbered) (fun _ _ => true) (boot numbered) numberedRun).isSome = true)
  have hrun := run_of_exec (C := fun _ _ => True) (fun _ _ _ => trivial) hs
  exact ⟨s, hrun, (scheduling hrun).2.2.2.2.2.1⟩

end OsHonor.Processes.RunQueues
