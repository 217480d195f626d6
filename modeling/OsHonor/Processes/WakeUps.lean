import OsHonor.Base.Runs
import OsHonor.Lib.Semaphore
import OsHonor.Processes.Sched

/-! # Sleeping and waking on several CPUs (`lib/sem.c` over `proc/sched.c`)

The processes on the CPUs call `_wait_sem` and `_post_sem` of any number of semaphores. A process that
has to wait links itself into the list, yields with the lock of the semaphore still held, releases the
lock and only then calls `schedule(SLEEPING)`; each of these is a step of its own, so a post on another
CPU can come in between. `activate_proc` then finds a process that still runs and does nothing.

`lost_wakeup` is such a run. `no_lost_wakeup` says that this is the only way: if no post takes a process
that has released the lock and has not gone to sleep yet, no granted process ever sleeps. -/

namespace OsHonor.Processes.WakeUps

open Option List Function Base.Runs Lib.Semaphore Sched

/-- Where a process is in `_wait_sem` of the semaphore `m`. -/
inductive Pc (M : Type) where
  | outside
  /-- In the list and with the lock, at or after the `schedule(RUNNABLE)`. -/
  | linked (m : M) (alertable : Bool)
  /-- The lock is released. -/
  | unlocked (m : M) (alertable : Bool)
  /-- `schedule(SLEEPING)` or `schedule(DEEPSLEEPING)` has been called. -/
  | slept (m : M)
  deriving DecidableEq

def Pc.sem {M : Type} : Pc M → Option M
  | .outside => none
  | .linked m _ => some m
  | .unlocked m _ => some m
  | .slept m => some m

/-- The scheduler, the semaphores with their spinlocks, and the processes with their `WaitData`. -/
structure State (T M : Type) where
  sched : Sys T
  sem : M → Sem T
  lock : M → Option T
  pc : T → Pc M
  up : T → Bool

/-- The next action of the process on CPU `c`, and what happens to a process `t`. -/
inductive Label (T M : Type) where
  | wait (c : Cpu) (m : M) (alertable : Bool)
  | unlock (c : Cpu)
  | sleep (c : Cpu)
  | finish (c : Cpu)
  | post (c : Cpu) (m : M)
  | schedule (c : Cpu) (new : ProcState)
  | tick (c : Cpu)
  | activate (t : T)
  | alert (t : T)
  | kill (t : T)

variable {T M : Type} [DecidableEq T] [DecidableEq M] (P : Procs T)

/-- `_post_sem`: the process taken from the list is granted the semaphore and activated. -/
def State.post (s : State T M) (m : M) : Option (State T M) := do
  let (t, sem) ← (s.sem m).post
  let s := { s with sem := update s.sem m sem }
  match t with
  | none => some s
  | some t => some { s with
      up := update s.up t true
      sched := (activateProc P s.sched t false).2 }

/-- **The steps.** -/
def step (s : State T M) : Label T M → Option (State T M)
  | .wait c m alertable => do
    let p := s.sched.running c
    if s.pc p ≠ .outside ∨ s.lock m ≠ none ∨ P.idle p = true then none
    else
      match (s.sem m).wait p with
      | (true, sem) => some { s with sem := update s.sem m sem }
      | (false, sem) => do
        let sched ← schedule P s.sched c .runnable
        some {
          sched
          sem := update s.sem m sem
          lock := update s.lock m (some p)
          pc := update s.pc p (.linked m alertable)
          up := update s.up p false }
  | .unlock c =>
    let p := s.sched.running c
    match s.pc p with
    | .linked m alertable => some { s with
        lock := update s.lock m none
        pc := update s.pc p (.unlocked m alertable) }
    | _ => none
  | .sleep c =>
    let p := s.sched.running c
    match s.pc p with
    | .unlocked m alertable => do
      let sched ← schedule P s.sched c (if alertable then .sleeping else .deepsleeping)
      some { s with sched, pc := update s.pc p (.slept m) }
    | _ => none
  | .finish c =>
    let p := s.sched.running c
    match s.pc p with
    | .slept m =>
      if s.lock m ≠ none then none
      else if s.up p then some { s with pc := update s.pc p .outside }
      else do
        let sem ← (s.sem m).cancel p
        some { s with sem := update s.sem m sem, pc := update s.pc p .outside }
    | _ => none
  | .post c m =>
    if s.pc (s.sched.running c) ≠ .outside ∨ s.lock m ≠ none then none else s.post P m
  | .schedule c new =>
    if s.pc (s.sched.running c) = .outside ∧ Calls P s.sched c new then do
      let sched ← schedule P s.sched c new
      some { s with sched }
    else none
  | .tick c =>
    if (s.sched.timer c).queued then do
      let sched ← schedHandler P s.sched c
      some { s with sched }
    else none
  | .activate t =>
    if s.pc t = .outside then some { s with sched := (activateProc P s.sched t false).2 } else none
  | .alert t => some { s with sched := (activateProc P s.sched t true).2 }
  | .kill t =>
    if P.idle t then none
    else some { s with sched := s.sched.modify t fun q => { q with killed := true } }

/-- The CPUs run their idle processes and the semaphores have the values `v`. -/
def boot (v : M → ℤ) : State T M := ⟨Sched.boot P, fun m => Sem.init (v m), fun _ => none, fun _ => .outside,
  fun _ => false⟩

def Asleep (st : ProcState) : Prop := st = .sleeping ∨ st = .deepsleeping

/-- `t` sleeps in `_wait_sem` and has been granted the semaphore: nothing will wake it. -/
def Lost (s : State T M) (t : T) : Prop :=
  (s.pc t ≠ .outside ∧ s.up t = true) ∧ Asleep (s.sched.proc t).state

variable {P}

/-- The CPU whose process goes on in `_wait_sem`. -/
def Label.mover : Label T M → Option Cpu
  | .wait c _ _ | .unlock c | .sleep c | .finish c => some c
  | _ => none

variable {l : Label T M} {t q p : T} {sem sem' : Sem T}

theorem pc_step {s s' : State T M} (h : step P s l = some s')
    (ht : ∀ c, l.mover = some c → t ≠ s.sched.running c) : s'.pc t = s.pc t := by
  cases l with
  | wait c m b =>
    have hne := ht c rfl
    simp only [step] at h
    split_ifs at h
    split at h
    · cases h
      rfl
    · obtain ⟨sched, -, h⟩ := bind_eq_some_iff.mp h
      cases h
      exact update_of_ne hne _ _
  | unlock c =>
    have hne := ht c rfl
    simp only [step] at h
    split at h
    · cases h
      exact update_of_ne hne _ _
    · cases h
  | sleep c =>
    have hne := ht c rfl
    simp only [step] at h
    split at h
    · obtain ⟨sched, -, h⟩ := bind_eq_some_iff.mp h
      cases h
      exact update_of_ne hne _ _
    · cases h
  | finish c =>
    have hne := ht c rfl
    simp only [step] at h
    split at h
    · split_ifs at h
      · cases h
        exact update_of_ne hne _ _
      · obtain ⟨sem, -, h⟩ := bind_eq_some_iff.mp h
        cases h
        exact update_of_ne hne _ _
    · cases h
  | post c m =>
    simp only [step] at h
    split_ifs at h
    obtain ⟨⟨t, sem⟩, -, h⟩ := bind_eq_some_iff.mp h
    rcases t with _ | t <;> cases h <;> rfl
  | schedule c new =>
    simp only [step] at h
    split_ifs at h
    obtain ⟨sched, -, h⟩ := bind_eq_some_iff.mp h
    cases h
    rfl
  | tick c =>
    simp only [step] at h
    split_ifs at h
    obtain ⟨sched, -, h⟩ := bind_eq_some_iff.mp h
    cases h
    rfl
  | activate t =>
    simp only [step] at h
    split_ifs at h
    cases h
    rfl
  | alert t =>
    cases h
    rfl
  | kill t =>
    simp only [step] at h
    split_ifs at h
    cases h
    rfl

theorem pc_step_of_none {s s' : State T M} (hl : l.mover = none)
    (h : step P s l = some s') : s'.pc = s.pc := by
  funext t
  refine pc_step h fun c hc => ?_
  rw [hl] at hc
  exact absurd hc (by simp)

theorem pc_finish {s s' : State T M} {c : Cpu} (h : step P s (.finish c) = some s') :
    s'.pc (s.sched.running c) = .outside := by
  simp only [step] at h
  split at h
  · split_ifs at h
    · cases h
      exact update_self _ _ _
    · obtain ⟨sem, -, h⟩ := bind_eq_some_iff.mp h
      cases h
      exact update_self _ _ _
  · cases h

theorem sched_step {s s' : State T M} (hidle : ∀ t, P.idle t = true → s.pc t = .outside)
    (h : step P s l = some s') :
    s'.sched = s.sched ∨ ∃ l', Sched.step P s.sched l' = some s'.sched := by
  cases l with
  | wait c m b =>
    simp only [step] at h
    split_ifs at h
    split at h
    · cases h
      exact Or.inl rfl
    · obtain ⟨sched, hsched, h⟩ := bind_eq_some_iff.mp h
      cases h
      exact Or.inr ⟨.schedule c .runnable, (if_pos ⟨by simp, by simp, fun _ => rfl⟩).trans hsched⟩
  | unlock c =>
    simp only [step] at h
    split at h
    · cases h
      exact Or.inl rfl
    · cases h
  | sleep c =>
    simp only [step] at h
    split at h
    · rename_i m b hpc
      obtain ⟨sched, hsched, h⟩ := bind_eq_some_iff.mp h
      cases h
      refine Or.inr ⟨.schedule c _, (if_pos ⟨?_, ?_, fun hi => ?_⟩).trans hsched⟩
      · split_ifs <;> simp
      · split_ifs <;> simp
      · exact absurd ((hidle _ hi).symm.trans hpc) (by simp)
    · cases h
  | finish c =>
    simp only [step] at h
    split at h
    · split_ifs at h
      · cases h
        exact Or.inl rfl
      · obtain ⟨sem, -, h⟩ := bind_eq_some_iff.mp h
        cases h
        exact Or.inl rfl
    · cases h
  | post c m =>
    simp only [step] at h
    split_ifs at h
    obtain ⟨⟨t, sem⟩, -, h⟩ := bind_eq_some_iff.mp h
    rcases t with _ | t
    · cases h
      exact Or.inl rfl
    · cases h
      exact Or.inr ⟨.activate t, rfl⟩
  | schedule c new =>
    simp only [step] at h
    split_ifs at h with hc
    obtain ⟨sched, hsched, h⟩ := bind_eq_some_iff.mp h
    cases h
    exact Or.inr ⟨.schedule c new, (if_pos hc.2).trans hsched⟩
  | tick c =>
    simp only [step] at h
    split_ifs at h with hq
    obtain ⟨sched, hsched, h⟩ := bind_eq_some_iff.mp h
    cases h
    exact Or.inr ⟨.tick c, (if_pos hq).trans hsched⟩
  | activate t =>
    simp only [step] at h
    split_ifs at h
    cases h
    exact Or.inr ⟨.activate t, rfl⟩
  | alert t =>
    cases h
    exact Or.inr ⟨.alert t, rfl⟩
  | kill t =>
    simp only [step] at h
    split_ifs at h with hi
    cases h
    exact Or.inr ⟨.kill t, if_neg hi⟩

/-! ### The invariant -/

/-- **The invariant**: the lists hold the waiters that were not granted, a waiter that has not gone to
sleep was not granted, and one that was granted later does not sleep. -/
structure Inv (s : State T M) : Prop where
  nodup : ∀ m, (s.sem m).sleeplist.Nodup
  listed : ∀ m, ∀ t ∈ (s.sem m).sleeplist, s.up t = false ∧ (s.pc t).sem = some m
  linked : ∀ t m b, s.pc t = .linked m b → s.lock m = some t ∧ s.up t = false
  unlocked : ∀ t m b, s.pc t = .unlocked m b → s.up t = false
  slept : ∀ t m, s.pc t = .slept m → s.up t = true → ¬ Asleep (s.sched.proc t).state

namespace Inv

omit [DecidableEq T] [DecidableEq M]

variable {s : State T M}

theorem boot (v : M → ℤ) : Inv (WakeUps.boot P v) where
  nodup _ := nodup_nil
  listed _ t ht := by simp [WakeUps.boot, Sem.init] at ht
  linked _ _ _ h := by simp [WakeUps.boot] at h
  unlocked _ _ _ h := by simp [WakeUps.boot] at h
  slept _ _ h := by simp [WakeUps.boot] at h

theorem not_lost (h : Inv s) (t : T) : ¬ Lost s t := by
  rintro ⟨⟨hpc, hup⟩, hasleep⟩
  rcases hp : s.pc t with _ | ⟨m, b⟩ | ⟨m, b⟩ | m
  · exact hpc hp
  · rw [(h.linked t m b hp).2] at hup
    exact absurd hup (by simp)
  · rw [h.unlocked t m b hp] at hup
    exact absurd hup (by simp)
  · exact h.slept t m hp hup hasleep

theorem sched (h : Inv s) {sched : Sys T}
    (hs : ∀ q, Asleep (sched.proc q).state → Asleep (s.sched.proc q).state) :
    Inv { s with sched := sched } :=
  ⟨h.nodup, h.listed, h.linked, h.unlocked, fun t m hp hup hasleep => h.slept t m hp hup (hs t hasleep)⟩

end Inv

theorem asleep_of_schedule {s s' : Sys T} {c : Cpu} {new : ProcState}
    (h : schedule P s c new = some s') (hq : q ≠ s.running c ∨ ¬ Asleep new)
    (hasleep : Asleep (s'.proc q).state) : Asleep (s.proc q).state := by
  rcases state_schedule h q with he | ⟨he, -⟩ | ⟨hc, he⟩
  · rwa [he] at hasleep
  · rw [he] at hasleep
    simp [Asleep] at hasleep
  · rw [he] at hasleep
    rcases hq with hq | hq
    · exact absurd hc hq
    · exact absurd hasleep hq

theorem asleep_of_activate {s : Sys T} {onalert : Bool}
    (hasleep : Asleep ((activateProc P s p onalert).2.proc q).state) : Asleep (s.proc q).state := by
  rcases state_activateProc (P := P) (s := s) (p := p) onalert q with he | ⟨-, he⟩
  · rwa [he] at hasleep
  · rw [he] at hasleep
    simp [Asleep] at hasleep

/-- The condition of the steps: a post takes no waiter that has released the lock of the semaphore and
not called `schedule(SLEEPING)` or `schedule(DEEPSLEEPING)` yet. -/
def Settled (s : State T M) : Label T M → Prop
  | .post _ m => ∀ t sem, (s.sem m).post = some (some t, sem) → ∀ m' b, s.pc t ≠ .unlocked m' b
  | _ => True

omit [DecidableEq T] in
theorem sleeplist_of_post {t : Option T} (h : sem.post = some (t, sem')) :
    (t = none ∧ sem'.sleeplist = sem.sleeplist) ∨
      ∃ p, t = some p ∧ sem.sleeplist = p :: sem'.sleeplist := by
  simp only [Sem.post] at h
  split_ifs at h
  · cases h
    exact Or.inl ⟨rfl, rfl⟩
  · split at h
    · cases h
    · rename_i p l hl
      cases h
      exact Or.inr ⟨p, rfl, hl⟩

omit [DecidableEq T] in
theorem sleeplist_update {sem : M → Sem T} {m : M}
    (h : sem'.sleeplist = (sem m).sleeplist) (m' : M) :
    (update sem m sem' m').sleeplist = (sem m').sleeplist := by
  by_cases hm : m' = m
  · rw [hm, update_self, h]
  · rw [update_of_ne hm]

namespace Inv

variable {s s' : State T M} {c : Cpu} {m : M} {b : Bool}

omit [DecidableEq T] in
theorem counter (h : Inv s) (hsem : sem.sleeplist = (s.sem m).sleeplist) :
    Inv { s with sem := update s.sem m sem } :=
  ⟨fun m' => by rw [sleeplist_update hsem]; exact h.nodup m',
    fun m' => by rw [sleeplist_update hsem]; exact h.listed m', h.linked, h.unlocked, h.slept⟩

omit [DecidableEq T] [DecidableEq M] in
theorem ne_of_outside (h : Inv s) (hp : s.pc p = .outside) (ht : t ∈ (s.sem m).sleeplist) :
    t ≠ p := by
  rintro rfl
  have hsem := (h.listed m t ht).2
  rw [hp] at hsem
  exact absurd hsem (by simp [Pc.sem])

omit [DecidableEq T] [DecidableEq M] in
/-- A step of `p` alone: the other processes are where they were, and keep their locks. -/
theorem change (h : Inv s) (hnd : ∀ m, (s'.sem m).sleeplist.Nodup)
    (hne : ∀ t, t ≠ p → s'.pc t = s.pc t ∧ s'.up t = s.up t ∧
      (Asleep (s'.sched.proc t).state → Asleep (s.sched.proc t).state))
    (hsem : ∀ m t, t ≠ p → t ∈ (s'.sem m).sleeplist → t ∈ (s.sem m).sleeplist)
    (hlock : ∀ m t, t ≠ p → s.lock m = some t → s'.lock m = some t)
    (hlisted : ∀ m, p ∈ (s'.sem m).sleeplist → s'.up p = false ∧ (s'.pc p).sem = some m)
    (hlinked : ∀ m b, s'.pc p = .linked m b → s'.lock m = some p ∧ s'.up p = false)
    (hunlocked : ∀ m b, s'.pc p = .unlocked m b → s'.up p = false)
    (hslept : ∀ m, s'.pc p = .slept m → s'.up p = true → ¬ Asleep (s'.sched.proc p).state) :
    Inv s' := by
  refine ⟨hnd, fun m t ht => ?_, fun t m b hp => ?_, fun t m b hp => ?_, fun t m hp hup => ?_⟩ <;>
    rcases eq_or_ne t p with rfl | htp
  · exact hlisted m ht
  · rw [(hne t htp).1, (hne t htp).2.1]
    exact h.listed m t (hsem m t htp ht)
  · exact hlinked m b hp
  · rw [(hne t htp).1] at hp
    rw [(hne t htp).2.1]
    exact (h.linked t m b hp).imp_left (hlock m t htp)
  · exact hunlocked m b hp
  · rw [(hne t htp).1] at hp
    rw [(hne t htp).2.1]
    exact h.unlocked t m b hp
  · exact hslept m hp hup
  · obtain ⟨hpc, htup, hst⟩ := hne t htp
    rw [hpc] at hp
    rw [htup] at hup
    exact mt hst (h.slept t m hp hup)

theorem wait (h : Inv s) (hs : step P s (.wait c m b) = some s') : Inv s' := by
  simp only [step] at hs
  split_ifs at hs with hguard
  simp only [not_or, not_not] at hguard
  obtain ⟨hpc, hlock, -⟩ := hguard
  simp only [Sem.wait] at hs
  split_ifs at hs with hval
  · cases hs
    exact h.counter rfl
  · obtain ⟨sched, hsched, hs⟩ := bind_eq_some_iff.mp hs
    cases hs
    generalize s.sched.running c = p at *
    have hlist : ∀ m', ∀ t ∈ (update s.sem m
        ⟨(s.sem m).val - 1, (s.sem m).sleeplist ++ [p]⟩ m').sleeplist,
        (t = p ∧ m' = m) ∨ t ∈ (s.sem m').sleeplist := by
      intro m' t ht
      by_cases hm : m' = m
      · subst hm
        rw [update_self] at ht
        rcases mem_append.mp ht with ht | ht
        · exact Or.inr ht
        · exact Or.inl ⟨mem_singleton.mp ht, rfl⟩
      · rw [update_of_ne hm] at ht
        exact Or.inr ht
    refine h.change (p := p) ?_ (fun t ht => ⟨update_of_ne ht _ _,
      update_of_ne ht _ _, asleep_of_schedule hsched (Or.inr (by simp [Asleep]))⟩) ?_ ?_ ?_ ?_ ?_ ?_
    · intro m'
      by_cases hm : m' = m
      · subst hm
        simp only [update_self]
        refine nodup_append.mpr ⟨h.nodup m', nodup_singleton p, ?_⟩
        intro t ht q hq
        rw [mem_singleton.mp hq]
        exact h.ne_of_outside hpc ht
      · simp only [update_of_ne hm]
        exact h.nodup m'
    · intro m' t hne ht
      exact (hlist m' t ht).resolve_left fun he => hne he.1
    · intro m' t _ hl
      have hm : m' ≠ m := by
        rintro rfl
        rw [hlock] at hl
        exact absurd hl (by simp)
      exact (update_of_ne hm _ _).trans hl
    · intro m' ht
      rcases hlist m' p ht with ⟨-, rfl⟩ | ht
      · simp [Pc.sem]
      · exact absurd rfl (h.ne_of_outside hpc ht)
    · intro m' b' hp
      simp only [update_self] at hp ⊢
      cases hp
      simp
    · simp
    · simp

theorem unlock (h : Inv s) (hs : step P s (.unlock c) = some s') : Inv s' := by
  simp only [step] at hs
  split at hs
  · rename_i m b hpc
    cases hs
    generalize s.sched.running c = p at *
    obtain ⟨hlock, hup⟩ := h.linked p m b hpc
    refine h.change (p := p) h.nodup (fun t ht => ⟨update_of_ne ht _ _, rfl, id⟩)
      (fun _ _ _ => id) (fun m' t ht hl => ?_) (fun m' ht => ?_) (by simp) (fun _ _ _ => hup) (by simp)
    · have hm : m' ≠ m := by
        rintro rfl
        exact ht (some.inj (hl.symm.trans hlock))
      exact (update_of_ne hm _ _).trans hl
    · have hsem := (h.listed m' p ht).2
      rw [hpc] at hsem
      simpa [hup, Pc.sem] using hsem
  · cases hs

theorem sleep (h : Inv s) (hs : step P s (.sleep c) = some s') : Inv s' := by
  simp only [step] at hs
  split at hs
  · rename_i m b hpc
    obtain ⟨sched, hsched, hs⟩ := bind_eq_some_iff.mp hs
    cases hs
    have hup := h.unlocked _ m b hpc
    refine h.change (p := s.sched.running c) h.nodup
      (fun t ht => ⟨update_of_ne ht _ _, rfl, asleep_of_schedule hsched (Or.inl ht)⟩)
      (fun _ _ _ => id) (fun _ _ _ => id) (fun m' ht => ?_) (by simp) (by simp) (by simp [hup])
    have hsem := (h.listed m' _ ht).2
    rw [hpc] at hsem
    simpa [hup, Pc.sem] using hsem
  · cases hs

omit [DecidableEq M] in
theorem returns (h : Inv s) (hlist : ∀ m, p ∉ (s.sem m).sleeplist) :
    Inv { s with pc := update s.pc p .outside } :=
  h.change (p := p) h.nodup (fun t ht => ⟨update_of_ne ht _ _, rfl, id⟩) (fun _ _ _ => id)
    (fun _ _ _ => id) (fun m hm => absurd hm (hlist m)) (by simp) (by simp) (by simp)

theorem finish (h : Inv s) (hs : step P s (.finish c) = some s') : Inv s' := by
  simp only [step] at hs
  split at hs
  · rename_i m hpc
    split_ifs at hs with hlock hup
    · cases hs
      refine h.returns fun m' hm' => ?_
      rw [(h.listed m' _ hm').1] at hup
      exact absurd hup (by simp)
    · obtain ⟨sem, hsem, hs⟩ := bind_eq_some_iff.mp hs
      cases hs
      have hlist : sem.sleeplist = (s.sem m).sleeplist.erase (s.sched.running c) := by
        simp only [Sem.cancel] at hsem
        split_ifs at hsem
        cases hsem
        rfl
      generalize s.sched.running c = p at *
      have hsub : ∀ m', (update s.sem m sem m').sleeplist.Sublist (s.sem m').sleeplist := by
        intro m'
        by_cases hm : m' = m
        · subst hm
          rw [update_self, hlist]; exact erase_sublist
        · rw [update_of_ne hm]
      have h₁ : Inv { s with sem := update s.sem m sem } :=
        ⟨fun m' => (h.nodup m').sublist (hsub m'), fun m' t ht => h.listed m' t ((hsub m').subset ht),
          h.linked, h.unlocked, h.slept⟩
      refine h₁.returns fun m' hm' => ?_
      have hm : m' = m := by
        have hsem := (h₁.listed m' p hm').2
        simp only [hpc] at hsem
        exact (some.inj hsem).symm
      subst hm
      simp only [update_self, hlist] at hm'
      exact (h.nodup m').not_mem_erase hm'
  · cases hs

theorem post (h : Inv s) (hset : Settled s (.post c m)) (hs : step P s (.post c m) = some s') :
    Inv s' := by
  simp only [step] at hs
  split_ifs at hs with hguard
  simp only [not_or, not_not] at hguard
  obtain ⟨⟨t, sem⟩, hpost, hs⟩ := bind_eq_some_iff.mp hs
  rcases sleeplist_of_post hpost with ⟨rfl, hlist⟩ | ⟨p, rfl, hlist⟩
  · cases hs
    exact h.counter hlist
  · cases hs
    obtain ⟨hpup, hpsem⟩ := h.listed m p (by rw [hlist]; exact mem_cons_self)
    -- the lock is free and the waiter is settled: it has called `schedule`
    have hslept : s.pc p = .slept m := by
      rcases hpc : s.pc p with _ | ⟨m', b⟩ | ⟨m', b⟩ | m'
      · rw [hpc] at hpsem
        exact absurd hpsem (by simp [Pc.sem])
      · rw [hpc] at hpsem
        have hl := (h.linked p m' b hpc).1
        rw [some.inj hpsem, hguard.2] at hl
        exact absurd hl (by simp)
      · exact absurd hpc (hset p sem hpost m' b)
      · rw [hpc] at hpsem
        rw [some.inj hpsem]
    have hnd := h.nodup m
    rw [hlist, nodup_cons] at hnd
    have hmem : ∀ m', ∀ t ∈ (update s.sem m sem m').sleeplist,
        t ≠ p ∧ t ∈ (s.sem m').sleeplist := by
      intro m' t ht
      by_cases hm : m' = m
      · subst hm
        rw [update_self] at ht
        refine ⟨?_, by rw [hlist]; exact mem_cons_of_mem p ht⟩
        rintro rfl
        exact hnd.1 ht
      · rw [update_of_ne hm] at ht
        refine ⟨?_, ht⟩
        rintro rfl
        exact hm (some.inj ((h.listed m' t ht).2.symm.trans hpsem))
    refine h.change (p := p) ?_ (fun t ht => ⟨rfl, update_of_ne ht _ _, asleep_of_activate⟩)
      (fun m' t _ ht => (hmem m' t ht).2) (fun _ _ _ => id) (fun m' ht => absurd rfl (hmem m' p ht).1)
      (by simp [hslept]) (by simp [hslept]) ?_
    · intro m'
      by_cases hm : m' = m
      · subst hm
        simp only [update_self]
        exact hnd.2
      · simp only [update_of_ne hm]
        exact h.nodup m'
    · rintro m' - - (hasleep | hasleep)
      · exact (state_activate_self s.sched p).1 hasleep
      · exact (state_activate_self s.sched p).2 hasleep

end Inv

theorem inv_step {s s' : State T M} (h : Inv s) (hset : Settled s l)
    (hs : step P s l = some s') : Inv s' := by
  cases l with
  | wait c m b => exact h.wait hs
  | unlock c => exact h.unlock hs
  | sleep c => exact h.sleep hs
  | finish c => exact h.finish hs
  | post c m => exact h.post hset hs
  | schedule c new =>
    simp only [step] at hs
    split_ifs at hs with hc
    obtain ⟨sched, hsched, hs⟩ := bind_eq_some_iff.mp hs
    cases hs
    refine ⟨h.nodup, h.listed, h.linked, h.unlocked, fun t m hp hup hasleep => ?_⟩
    refine h.slept t m hp hup (asleep_of_schedule hsched (Or.inl ?_) hasleep)
    rintro rfl
    exact absurd (hc.1.symm.trans hp) (by simp)
  | tick c =>
    simp only [step] at hs
    split_ifs at hs
    obtain ⟨sched, hsched, hs⟩ := bind_eq_some_iff.mp hs
    cases hs
    refine h.sched fun q hasleep => ?_
    rcases state_schedHandler hsched q with he | he | he
    · rwa [he] at hasleep
    · rw [he] at hasleep
      simp [Asleep] at hasleep
    · rw [he] at hasleep
      simp [Asleep] at hasleep
  | activate t =>
    simp only [step] at hs
    split_ifs at hs
    cases hs
    exact h.sched fun q => asleep_of_activate
  | alert t =>
    cases hs
    exact h.sched fun q => asleep_of_activate
  | kill t =>
    simp only [step] at hs
    split_ifs at hs
    cases hs
    refine h.sched fun q hasleep => ?_
    rw [Sys.modify_proc] at hasleep
    split_ifs at hasleep with hq
    · rw [hq]; exact hasleep
    · exact hasleep

/-- **No lost wake-up**, in the runs in which every post that takes a waiter finds it settled. -/
theorem no_lost_wakeup (v : M → ℤ) {ls : List (Label T M)} {s : State T M}
    (hrun : Run (step P) Settled (boot P v) ls s) (t : T) : ¬ Lost s t :=
  (hrun.inv (fun _ _ _ h hset hs => inv_step h hset hs) (Inv.boot v)).not_lost t

/-- A test for `Settled`. -/
def settledTest (s : State T M) : Label T M → Bool
  | .post _ m =>
    match (s.sem m).post with
    | some (some t, _) =>
      match s.pc t with
      | .unlocked _ _ => false
      | _ => true
    | _ => true
  | _ => true

omit [DecidableEq T] [DecidableEq M] in
theorem settled_of_test (s : State T M) (l : Label T M) (h : settledTest s l = true) : Settled s l := by
  cases l with
  | post c m =>
    intro t sem hpost m' b hpc
    simp [settledTest, hpost, hpc] at h
  | _ => trivial

def started (ls : List (Label (Cpu ⊕ ℕ) Unit)) : List (Label (Cpu ⊕ ℕ) Unit) :=
  .activate (.inr 1) :: .activate (.inr 2) :: .schedule (cpuNo 1) .runnable ::
    .schedule (cpuNo 2) .runnable :: ls

def apartRun : List (Label (Cpu ⊕ ℕ) Unit) :=
  started [.wait (cpuNo 1) () true, .unlock (cpuNo 1), .sleep (cpuNo 1), .post (cpuNo 2) (),
    .schedule (cpuNo 1) .runnable]

theorem no_lost_wakeup_apartRun :
    ∃ s, Run (step numbered) Settled (boot numbered fun _ => 0) apartRun s ∧ ¬ Lost s (.inr 1) := by
  obtain ⟨s, hs⟩ := isSome_iff_exists.mp (by decide +kernel :
    (exec (step numbered) settledTest (boot numbered fun _ => 0) apartRun).isSome = true)
  have hrun := run_of_exec settled_of_test hs
  exact ⟨s, hrun, no_lost_wakeup _ hrun _⟩

/-- Process 2 posts when process 1 has released the lock and not gone to sleep. -/
def betweenRun : List (Label (Cpu ⊕ ℕ) Unit) :=
  started [.wait (cpuNo 1) () true, .unlock (cpuNo 1), .post (cpuNo 2) (), .sleep (cpuNo 1)]

/-- **A lost wake-up.** -/
theorem lost_wakeup :
    ∃ s, Run (step numbered) (fun _ _ => True) (boot numbered fun _ => 0) betweenRun s ∧
      Lost s (.inr 1) ∧ (.inr 1) ∉ (s.sem ()).sleeplist := by
  have h : (exec (step numbered) (fun _ _ => true) (boot numbered fun _ => 0) betweenRun).map
      (fun s => (s.pc (.inr 1), s.up (.inr 1), (s.sched.proc (.inr 1)).state, (s.sem ()).sleeplist)) =
      some (.slept (), true, .sleeping, []) := by decide +kernel
  obtain ⟨s, hs, he⟩ := map_eq_some_iff.mp h
  simp only [Prod.mk.injEq] at he
  obtain ⟨hpc, hup, hstate, hlist⟩ := he
  refine ⟨s, run_of_exec (fun _ _ _ => trivial) hs, ⟨⟨?_, hup⟩, Or.inl hstate⟩, ?_⟩
  · rw [hpc]; simp
  · rw [hlist]; simp

end OsHonor.Processes.WakeUps
