import OsHonor.Processes.Waits

/-! # Killing a process that waits (`kill`, `proc/proc.c`)

A killed process goes on whether or not its record was taken off the list: `cond_wait` and `wait` assert
that it was, `sys_msgsnd` leaves the record where it is, and `sys_msgrcv` reads a result that nobody has
written. `kill_safe_iff`: killing is safe exactly for a process that has been served already. -/

namespace OsHonor.Processes.Kills

open Base.Runs Ipc.Code Waits

variable {T M β : Type} [DecidableEq T] [DecidableEq M]

/-- **The process leaves its wait safely**: no assertion fails, no unwritten result is read, and its record is on
no list. -/
def Leaves (s : State T M β) (p : T) : Prop := ∃ s', s.resume p = .ok s' ∧ ¬ Listed s' p

/-- **Killing is safe**: from then on the process does not sleep, and whenever it goes on, it leaves safely. -/
def KillSafe (s : State T M β) (p : T) : Prop :=
  ∀ ls s', Run step (fun _ l => l ≠ .resume p) (s.kill p) ls s' →
    s'.phase p ≠ .asleep ∧ (s'.phase p = .awake → Leaves s' p)

/-- A waker has taken the record, and has given a receiver its result. -/
structure Served (s : State T M β) (p : T) : Prop where
  off : ¬ Listed s p
  result : ∀ id, s.pc p = .receiving id → s.written p = true

variable {s s' : State T M β} {p : T}

omit [DecidableEq T] [DecidableEq M] in
theorem Served.calm (hs : Served s p) (h : Calm s s' p) : Served s' p :=
  ⟨fun hl => hs.off (h.listed hl), fun id hid => h.written (hs.result id (h.pc ▸ hid))⟩

omit [DecidableEq M] in
theorem Served.leaves (hserved : Served s p) (h : Placed s p) : Leaves s p := by
  have hgoto : ∀ pc, ¬ Listed (s.goto p pc) p := fun _ => hserved.off
  cases hpc : s.pc p with
  | outside => exact ⟨s, by simp [State.resume, hpc], hserved.off⟩
  | waiting m =>
    have hup := (h.granted m hpc).resolve_left fun hm => hserved.off (Or.inl ⟨m, hm⟩)
    exact ⟨_, by simp [State.resume, hpc, hup], hgoto .outside⟩
  | sending id msgid msg msgflg => exact ⟨_, by simp only [State.resume, hpc], hgoto (.retry msgid msg msgflg)⟩
  | retry msgid msg msgflg => exact ⟨s, by simp [State.resume, hpc], hserved.off⟩
  | receiving id => exact ⟨_, by simp [State.resume, hpc, hserved.result id hpc], hgoto .outside⟩

omit [DecidableEq M] in
theorem served_of_leaves (h : Leaves s p) : Served s p := by
  obtain ⟨s', hs, hoff⟩ := h
  cases hpc : s.pc p with
  | outside | retry _ _ _ =>
    rw [State.resume, hpc] at hs
    cases hs
    exact ⟨hoff, fun id hid => by simp [hpc] at hid⟩
  | waiting m =>
    simp only [State.resume, hpc] at hs
    split_ifs at hs
    cases hs
    exact ⟨hoff, fun id hid => by simp [hpc] at hid⟩
  | sending _ _ _ _ =>
    simp only [State.resume, hpc] at hs
    cases hs
    exact ⟨hoff, fun id hid => by simp [hpc] at hid⟩
  | receiving id =>
    simp only [State.resume, hpc] at hs
    split_ifs at hs with hw
    cases hs
    exact ⟨hoff, fun _ _ => hw⟩

/-! ### Killing -/

/-- What is kept from the kill of a process until it goes on. -/
structure Marked (s₀ s : State T M β) (p : T) : Prop where
  killed : s.killed p = true
  blocked : s.blocked p = true
  phase : s.phase p ≠ .asleep
  served : Served s₀ p → Served s p

theorem Marked.step {s₀ : State T M β} {l : Label T M β} (h : Marked s₀ s p) (hl : l ≠ .resume p)
    (hs : step s l = some s') : Marked s₀ s' p := by
  have hcalm : Calm s s' p := by
    by_cases hm : l.mover = some p
    · obtain rfl := (mover_of_blocked hs h.blocked hm).resolve_right hl
      obtain ⟨-, hs⟩ := Option.ite_none_right_eq_some.mp hs
      cases hs
      -- a killed process does not sleep
      exact ⟨rfl, id, by simp [h.killed], id, id, fun _ => id, fun _ => Or.inl, fun _ q hq hp => ⟨q, hq, hp⟩,
        fun _ q hq hp => ⟨q, hq, hp⟩, Or.inl⟩
    · exact step_calm hs hm
  exact ⟨hcalm.killed h.killed, hcalm.blocked h.blocked, hcalm.phase h.phase, fun h0 => (h.served h0).calm hcalm⟩

omit [DecidableEq M] in
theorem marked_kill (hb : s.blocked p = true) : Marked s (s.kill p) p := by
  have hcalm := Calm.kill s p p
  refine ⟨?_, hcalm.blocked hb, ?_, fun h => h.calm hcalm⟩
  · simp [State.kill, State.activate]
  · simp only [State.kill, State.activate]
    split_ifs with ha
    · exact Phase.noConfusion
    · exact fun he => ha ⟨List.mem_singleton_self p, he⟩

theorem served_of_killSafe (hb : s.blocked p = true) (hsafe : KillSafe s p) : Served s p := by
  have hmarked := marked_kill hb
  cases hphase : (s.kill p).phase p with
  | asleep => exact absurd hphase hmarked.phase
  | awake =>
    have hserved := served_of_leaves ((hsafe [] _ (.nil _)).2 hphase)
    exact ⟨hserved.off, hserved.result⟩
  | entered =>
    -- a killed process comes back from `schedule` as soon as it calls it
    have hstep : step (s.kill p) (.sleep p) =
        some { s.kill p with phase := Function.update (s.kill p).phase p .awake } := by
      simp only [step]
      rw [if_pos ⟨hmarked.blocked, hphase⟩, if_pos hmarked.killed]
    have hrun := Run.cons (C := fun _ l => l ≠ .resume p) (by simp) hstep (.nil _)
    have hserved := served_of_leaves ((hsafe _ _ hrun).2 (by simp))
    exact ⟨hserved.off, hserved.result⟩

/-- **Killing a process that waits is safe if and only if it has been served already.** -/
theorem kill_safe_iff {v : M → ℤ} {receiver : T → Receiver β} {ls : List (Label T M β)}
    (hrun : Run step (fun _ _ => True) (start v receiver) ls s) (hb : s.blocked p = true) :
    KillSafe s p ↔ Served s p := by
  refine ⟨served_of_killSafe hb, fun hserved ls' s' hrun' => ?_⟩
  have hkill : ∀ x, Placed (s.kill p) x := fun x => (placed hrun x).calm (Calm.kill s p x)
  have hmarked : Marked s s' p := hrun'.inv (I := fun x => Marked s x p)
    (fun _ _ _ h hl hs => h.step hl hs) (marked_kill hb)
  have hplaced := hrun'.inv (I := fun s => ∀ p, Placed s p) (fun _ _ _ h _ hs => Placed.step h hs) hkill
  exact ⟨hmarked.phase, fun _ => (hmarked.served hserved).leaves (hplaced p)⟩

/-! ### Short runs -/

/-- `Served` as a test. -/
def servedTest (s : State T M β) (p : T) : Bool :=
  !s.queued p && match s.pc p with
    | .receiving _ => s.written p
    | _ => true

omit [DecidableEq M] in
theorem served_iff_test (h : Placed s p) : Served s p ↔ servedTest s p = true := by
  rw [servedTest, Bool.and_eq_true, Bool.not_eq_true']
  constructor
  · rintro ⟨hoff, hresult⟩
    refine ⟨Bool.eq_false_iff.mpr fun hq => hoff (listed_of_queued hq), ?_⟩
    split
    · exact hresult _ ‹_›
    · rfl
  · rintro ⟨hq, hw⟩
    refine ⟨fun hl => by simp [h.queued hl] at hq, fun id hid => ?_⟩
    simpa only [hid] using hw

def fresh : State Bool Unit Unit := start (fun _ => 1) fun _ => ⟨0, 0, none⟩

/-- The unit of the condition variable is taken, and another process waits. -/
def waitingRun : List (Label Bool Unit Unit) := [.condWait true (), .condWait false (), .sleep false]

def sendingRun : List (Label Bool Unit Unit) :=
  .msgget 0 ⟨false, false⟩ true :: List.replicate 256 (.msgsnd true 0 ⟨1, 0, ()⟩ ⟨false, false⟩) ++
    [.msgsnd false 0 ⟨1, 0, ()⟩ ⟨false, false⟩, .sleep false]

def receivingRun : List (Label Bool Unit Unit) :=
  [.msgget 0 ⟨false, false⟩ true, .msgrcv false 0 8 0 ⟨false, false⟩, .sleep false]

theorem kill_safe_signalled : ∃ s, Run step (fun _ _ => True) fresh (waitingRun ++ [.post ()]) s ∧
    s.blocked false = true ∧ KillSafe s false := by
  have htest : (exec step (fun _ _ => true) fresh (waitingRun ++ [.post ()])).any
      (fun s => s.blocked false && servedTest s false) = true := by decide +kernel
  obtain ⟨s, hs, hp⟩ := (Option.any_eq_true _ _).mp htest
  rw [Bool.and_eq_true] at hp
  have hrun : Run step (fun _ _ => True) fresh (waitingRun ++ [.post ()]) s := run_of_exec (fun _ _ _ => trivial) hs
  exact ⟨s, hrun, hp.1, (kill_safe_iff hrun hp.1).mpr ((served_iff_test (placed hrun false)).mpr hp.2)⟩

theorem unsafe_of_exec {ls : List (Label Bool Unit Unit)}
    (htest : (exec step (fun _ _ => true) fresh ls).any (fun s => s.blocked false && !servedTest s false) = true) :
    ∃ s, Run step (fun _ _ => True) fresh ls s ∧ s.blocked false = true ∧ ¬ KillSafe s false := by
  obtain ⟨s, hs, hp⟩ := (Option.any_eq_true _ _).mp htest
  rw [Bool.and_eq_true, Bool.not_eq_true'] at hp
  have hrun : Run step (fun _ _ => True) fresh ls s := run_of_exec (fun _ _ _ => trivial) hs
  refine ⟨s, hrun, hp.1, fun hsafe => ?_⟩
  have := (served_iff_test (placed hrun false)).mp (served_of_killSafe hp.1 hsafe)
  simp [hp.2] at this

theorem kill_unsafe :
    (∃ s, Run step (fun _ _ => True) fresh waitingRun s ∧ s.blocked false = true ∧ ¬ KillSafe s false) ∧
    (∃ s, Run step (fun _ _ => True) fresh sendingRun s ∧ s.blocked false = true ∧ ¬ KillSafe s false) ∧
    ∃ s, Run step (fun _ _ => True) fresh receivingRun s ∧ s.blocked false = true ∧ ¬ KillSafe s false :=
  ⟨unsafe_of_exec (by decide +kernel), unsafe_of_exec (by decide +kernel), unsafe_of_exec (by decide +kernel)⟩

end OsHonor.Processes.Kills
