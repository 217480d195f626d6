import OsHonor.Processes.Families
import OsHonor.Processes.RunQueues

/-! # What `wait` frees

`wait` frees the first zombie on the list once its semaphore wait has succeeded. The post need not be
that of this zombie, and even the zombie that has posted has yet to call `schedule(ZOMBIE)`:
`reaped_running` is a run in which the process on CPU 2 is freed while it is in `exit`. If every `wait`
finds that the first zombie of the list has ended, what is freed is a zombie that no CPU runs
(`reaped_ended`). -/

namespace OsHonor.Processes.Reaping

open Option Function List Base.Runs Lifecycle Families
open Sched (Cpu Procs cpuNo)

variable {T : Type} [DecidableEq T] {F : Family T}

/-- The idle processes are not in `_wait_sem`, the run queues are sound, and the processes of `Z` are
zombies. -/
structure Below (P : Procs T) (Z : T → Prop) (b : WakeUps.State T T) : Prop where
  idle : ∀ t, P.idle t = true → b.pc t = .outside
  queues : RunQueues.Inv P (fun _ => True) b.sched
  zombies : ∀ p, Z p → (b.sched.proc p).state = .zombie

variable {P : Procs T} {b b' : WakeUps.State T T} {l : WakeUps.Label T T} {c : Cpu} {s s' : State T}

theorem idle_step
    (h : WakeUps.step P b l = some b') {t : T} (ht : P.idle t = true) (hpc : b.pc t = .outside) :
    b'.pc t = .outside := by
  by_cases hmove : ∃ c, l.mover = some c ∧ t = b.sched.running c
  · obtain ⟨c, hc, rfl⟩ := hmove
    cases l with
    | wait c' m a =>
      cases hc
      simp [WakeUps.step, ht] at h
    | unlock c' =>
      cases hc
      simp [WakeUps.step, hpc] at h
    | sleep c' =>
      cases hc
      simp [WakeUps.step, hpc] at h
    | finish c' =>
      cases hc
      simp [WakeUps.step, hpc] at h
    | _ => cases hc
  · rw [WakeUps.pc_step h fun c hc he => hmove ⟨c, hc, he⟩]
    exact hpc

theorem below_step {Z : T → Prop}
    (hb : Below P Z b) (h : WakeUps.step P b l = some b') : Below P Z b' := by
  refine ⟨fun t ht => idle_step h ht (hb.idle t ht), ?_, ?_⟩
  · rcases WakeUps.sched_step hb.idle h with he | ⟨l', hl'⟩
    · rw [he]; exact hb.queues
    · exact (RunQueues.inv_step hb.queues hl').1
  · rcases WakeUps.sched_step hb.idle h with he | ⟨l', hl'⟩
    · rw [he]; exact hb.zombies
    · exact fun p hp => Sched.zombie_step hl' (hb.zombies p hp)

/-! ### What a step does -/

theorem run_posts {m : T} : ∀ {l : List T} {b b' : WakeUps.State T T},
    l.foldlM (fun b _ => WakeUps.step P b (.post c m)) b = some b' →
      ∃ ls, Run (WakeUps.step P) (fun _ _ => True) b ls b'
  | [], b, b', h => by
    cases h
    exact ⟨[], .nil b⟩
  | _ :: l, b, b', h => by
    rw [foldlM_cons] at h
    obtain ⟨b₁, h₁, h⟩ := bind_eq_some_iff.mp h
    obtain ⟨ls, hls⟩ := run_posts h
    exact ⟨_, .cons trivial h₁ hls⟩

/-- To the layer below a step is a run; at most one process moves, not one that has ended, and only
`schedule(ZOMBIE)` ends one; only `wait` frees, the first zombie of the list. -/
structure Effect (F : Family T) (s : State T) (l : Label T) (s' : State T) : Prop where
  base : ∃ ls, Run (WakeUps.step F.toProcs) (fun _ _ => True) s.base ls s'.base
  pc : s'.pc = s.pc ∨ ∃ p b, s'.pc = update s.pc p b ∧ s.pc p ≠ .ended ∧
    (b = .ended → ∃ c, l = .zombie c ∧ p = s.this c)
  reaped : s'.reaped = s.reaped ∨ ∃ c z rest, l = .reap c ∧ s.zombies (s.this c) = z :: rest ∧
    s'.reaped = s.reaped ++ [(z, s.exitcode z)]

theorem effect_step {l : Label T} (ht : Tree F s) (hs : step F s l = some s') :
    Effect F s l s' := by
  have one : ∀ {b b' : WakeUps.State T T} {l}, WakeUps.step F.toProcs b l = some b' →
      ∃ ls, Run (WakeUps.step F.toProcs) (fun _ _ => True) b ls b' :=
    fun {_ b' l} h => ⟨[l], .cons trivial h (.nil b')⟩
  cases l with
  | fork c q =>
    simp only [step] at hs
    split_ifs at hs with hc
    cases hs
    exact ⟨⟨[], .nil _⟩, Or.inr ⟨q, .created, rfl, by rw [hc.2.1]; simp, by simp⟩, Or.inl rfl⟩
  | start q =>
    obtain ⟨hc, base, hbase, rfl⟩ := lower_some hs
    exact ⟨one hbase, Or.inr ⟨q, .user, rfl, by rw [hc]; simp, by simp⟩, Or.inl rfl⟩
  | wait c =>
    simp only [step] at hs
    split_ifs at hs with hc
    cases hs
    exact ⟨⟨[], .nil _⟩, Or.inr ⟨_, .waiting, rfl, by rw [hc.1]; simp, by simp⟩, Or.inl rfl⟩
  | waitSem c =>
    obtain ⟨hc, base, hbase, rfl⟩ := lower_some hs
    split_ifs
    · exact ⟨one hbase, Or.inr ⟨_, .reaping, rfl, by rw [hc]; simp, by simp⟩, Or.inl rfl⟩
    · exact ⟨one hbase, Or.inl rfl, Or.inl rfl⟩
  | unlock c =>
    obtain ⟨hc, base, hbase, rfl⟩ := lower_of_guard hs
    exact ⟨one hbase, Or.inl rfl, Or.inl rfl⟩
  | sleep c =>
    obtain ⟨hc, base, hbase, rfl⟩ := lower_of_guard hs
    exact ⟨one hbase, Or.inl rfl, Or.inl rfl⟩
  | finish c =>
    obtain ⟨hc, base, hbase, rfl⟩ := lower_some hs
    exact ⟨one hbase, Or.inr ⟨_, .reaping, rfl, by rw [hc.1]; simp, by simp⟩, Or.inl rfl⟩
  | reap c =>
    simp only [step] at hs
    split_ifs at hs with hc
    split at hs
    · cases hs
    · rename_i z rest hz
      cases hs
      exact ⟨⟨[], .nil _⟩, Or.inr ⟨_, .user, rfl, by rw [hc]; simp, by simp⟩,
        Or.inr ⟨c, z, rest, rfl, hz, rfl⟩⟩
  | exit c code =>
    obtain ⟨r, base, hp, -, -, -, -, hbase, rfl⟩ := ht.exit_cases hs
    exact ⟨run_posts hbase, Or.inr ⟨_, .exiting, rfl, by rw [hp]; simp, by simp⟩, Or.inl rfl⟩
  | notify c =>
    obtain ⟨hc, hs⟩ := ite_none_right_eq_some.mp hs
    obtain ⟨r, -, hs⟩ := bind_eq_some_iff.mp hs
    obtain ⟨base, hbase, rfl⟩ := lower_bind hs
    exact ⟨one hbase, Or.inr ⟨_, .posted, rfl, by rw [hc]; simp, by simp⟩, Or.inl rfl⟩
  | zombie c =>
    obtain ⟨hc, base, hbase, rfl⟩ := lower_some hs
    exact ⟨one hbase, Or.inr ⟨_, .ended, rfl, by rw [hc]; simp, fun _ => ⟨c, rfl, rfl⟩⟩, Or.inl rfl⟩
  | other l =>
    obtain ⟨hc, base, hbase, rfl⟩ := lower_of_guard hs
    exact ⟨one hbase, Or.inl rfl, Or.inl rfl⟩

theorem state_zombie (hs : step F s (.zombie c) = some s') :
    (s'.base.sched.proc (s.this c)).state = .zombie := by
  obtain ⟨-, base, hbase, rfl⟩ := lower_some hs
  simp only [WakeUps.step] at hbase
  split_ifs at hbase
  obtain ⟨sched, hsched, hbase⟩ := bind_eq_some_iff.mp hbase
  cases hbase
  exact Sched.state_schedule_zombie hsched

/-! ### The invariant -/

/-- **The invariant**: the processes that have ended are zombies, and only they have been freed. -/
structure Inv (F : Family T) (s : State T) : Prop where
  tree : Tree F s
  below : Below F.toProcs (fun p => s.pc p = .ended) s.base
  reaped : ∀ z ∈ s.reaped.map Prod.fst, s.pc z = .ended

/-- A `wait` finds that the first zombie of its list has ended. -/
def Finished (s : State T) : Label T → Prop
  | .reap c => ∀ z rest, s.zombies (s.this c) = z :: rest → s.pc z = .ended
  | _ => True

theorem inv_boot : Inv F (boot F) where
  tree := tree_boot
  below := ⟨fun _ _ => rfl, RunQueues.inv_boot, fun p hp => by
    simp only [boot] at hp
    split_ifs at hp⟩
  reaped z hz := by simp [boot] at hz

theorem inv_step {l : Label T} (h : Inv F s) (hfin : Finished s l)
    (hs : step F s l = some s') : Inv F s' := by
  obtain ⟨⟨ls, hbase⟩, hpc, hreaped⟩ := effect_step h.tree hs
  have hbelow := hbase.inv (fun b l b' hb _ hl => below_step hb hl) h.below
  have hkeep : ∀ p, s.pc p = .ended → s'.pc p = .ended := by
    intro p hp
    rcases hpc with hpc | ⟨q, b, hpc, hq, -⟩
    · rw [hpc]; exact hp
    · rw [hpc, update_of_ne (by rintro rfl; exact hq hp)]
      exact hp
  refine ⟨tree_step h.tree hs, ⟨hbelow.idle, hbelow.queues, fun p hp => ?_⟩, fun z hz => ?_⟩
  · rcases hpc with hpc | ⟨q, b, hpc, -, hend⟩
    · exact hbelow.zombies p (hpc ▸ hp)
    · by_cases hpq : p = q
      · subst hpq
        rw [hpc, update_self] at hp
        obtain ⟨c, rfl, rfl⟩ := hend hp
        exact state_zombie hs
      · rw [hpc, update_of_ne hpq] at hp
        exact hbelow.zombies p hp
  · rcases hreaped with hreaped | ⟨c, z', rest, rfl, hlist, hreaped⟩
    · exact hkeep z (h.reaped z (hreaped ▸ hz))
    · rw [hreaped, map_append, mem_append] at hz
      rcases hz with hz | hz
      · exact hkeep z (h.reaped z hz)
      · rw [map_cons, map_nil, mem_singleton] at hz
        rw [hz]
        exact hkeep z' (hfin z' rest hlist)

end OsHonor.Processes.Reaping
