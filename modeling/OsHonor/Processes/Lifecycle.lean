import OsHonor.Lib.Rings
import OsHonor.Processes.WakeUps

/-! # Fork, exit and wait (`proc/proc.c`)

Every section under `proc_lock` is one step of a process on a CPU; the semaphores are the `childexit` of
the processes, with `_wait_sem` in its steps, and the scheduler is below. `exit` has three steps: the
section that hands over the children and puts the process on its parent's list of zombies, after
`end_op` the section that posts `childexit`, and `schedule(ZOMBIE)`. `wait` takes the first zombie of the
list when its semaphore wait has succeeded.

`list_forall` in `transfer_children` follows the links of nodes it has just moved to another list: with
two or more children, or two or more zombies, it runs into the list of the root process and does not
come back (`transfer_handOver`). The section ends for at most one of each. -/

namespace OsHonor.Processes.Lifecycle

open Function Sched

/-- The processes, with `root_proc`. -/
structure Family (T : Type) extends Procs T where
  root : T
  idle_root : idle root = false

/-- Where a process is. -/
inductive Pc where
  | unborn
  /-- Forked and not started. -/
  | created
  | user
  /-- In `wait`, before and in the `wait_sem`. -/
  | waiting
  /-- In `wait`, after the `wait_sem`. -/
  | reaping
  /-- In `exit`, between the two sections. -/
  | exiting
  /-- In `exit`, before `schedule(ZOMBIE)`. -/
  | posted
  | ended
  deriving DecidableEq

/-- Past the first section of `exit`. -/
def Pc.dying : Pc → Bool
  | .exiting | .posted | .ended => true
  | _ => false

/-- The processes and their lists, the oldest entry first. `exiting` and `reaped` are for the books: the
processes between the sections of `exit`, and what the waits have returned. -/
structure State (T : Type) where
  base : WakeUps.State T T
  parent : T → Option T
  children : T → List T
  zombies : T → List T
  exitcode : T → ℤ
  pc : T → Pc
  exiting : List T
  reaped : List (T × ℤ)

/-- The next step of the process on `c`, or the start of a forked process `q`. -/
inductive Label (T : Type) where
  | fork (c : Cpu) (q : T)
  | start (q : T)
  | wait (c : Cpu)
  | waitSem (c : Cpu)
  | unlock (c : Cpu)
  | sleep (c : Cpu)
  | finish (c : Cpu)
  | reap (c : Cpu)
  | exit (c : Cpu) (code : ℤ)
  | notify (c : Cpu)
  | zombie (c : Cpu)
  | other (l : WakeUps.Label T T)

variable {T : Type} [DecidableEq T] (F : Family T)

/-- `thisproc()`. -/
def State.this (s : State T) (c : Cpu) : T := s.base.sched.running c

def State.setPc (s : State T) (p : T) (pc : Pc) : State T := { s with pc := update s.pc p pc }

def State.lower (s : State T) (l : WakeUps.Label T T) : Option (State T) := do
  let base ← WakeUps.step F.toProcs s.base l
  some { s with base }

/-- `list_push_back` and `child->parent = p`. -/
def State.setParentToThis (s : State T) (p q : T) : State T :=
  { s with
    parent := update s.parent q (some p)
    children := update s.children p (s.children p ++ [q]) }

/-- The entries of the list of `p` go to the end of the list of `root`. -/
def handOver (l : T → List T) (root p : T) : T → List T :=
  update (update l root (l root ++ l p)) p []

/-- `transfer_children(&root_proc, p)` on CPU `c`; see `transfer_handOver`. -/
def State.transferChildren (s : State T) (c : Cpu) (p : T) : Option (State T) :=
  if 2 ≤ (s.children p).length ∨ 2 ≤ (s.zombies p).length then none
  else do
    let base ← (s.zombies p).foldlM (fun b _ => WakeUps.step F.toProcs b (.post c F.root)) s.base
    some { s with
      base
      parent := fun q => if q ∈ s.children p ∨ q ∈ s.zombies p then some F.root else s.parent q
      children := handOver s.children F.root p
      zombies := handOver s.zombies F.root p }

/-- What a process does besides: it is scheduled, and killed or alerted by others. -/
def Other (s : State T) : WakeUps.Label T T → Prop
  | .schedule c new =>
    new ≠ .zombie ∧ (s.pc (s.this c) = .unborn ∨ s.pc (s.this c) = .user ∨ s.pc (s.this c) = .exiting)
  | .activate t => s.pc t = .user ∨ s.pc t = .exiting
  | .tick _ | .alert _ | .kill _ => True
  | _ => False

instance (s : State T) : (l : WakeUps.Label T T) → Decidable (Other s l)
  | .schedule _ _ => inferInstanceAs (Decidable (_ ∧ (_ ∨ _ ∨ _)))
  | .activate _ => inferInstanceAs (Decidable (_ ∨ _))
  | .tick _ | .alert _ | .kill _ => isTrue trivial
  | .wait _ _ _ | .unlock _ | .sleep _ | .finish _ | .post _ _ => isFalse id

/-- **The steps.** The root process, which becomes `init`, does not exit. -/
def step (s : State T) : Label T → Option (State T)
  | .fork c q =>
    if s.pc (s.this c) = .user ∧ s.pc q = .unborn ∧ F.idle q = false then
      some ((s.setParentToThis (s.this c) q).setPc q .created)
    else none
  | .start q =>
    if s.pc q = .created then do
      let s ← s.lower F (.activate q)
      some (s.setPc q .user)
    else none
  | .wait c =>
    let p := s.this c
    if s.pc p = .user ∧ ¬ (s.children p = [] ∧ s.zombies p = []) then some (s.setPc p .waiting) else none
  | .waitSem c =>
    let p := s.this c
    if s.pc p = .waiting then do
      let s ← s.lower F (.wait c p true)
      some (if s.base.pc p = .outside then s.setPc p .reaping else s)
    else none
  | .unlock c => if s.pc (s.this c) = .waiting then s.lower F (.unlock c) else none
  | .sleep c => if s.pc (s.this c) = .waiting then s.lower F (.sleep c) else none
  | .finish c =>
    let p := s.this c
    -- `ASSERT(wait_sem(..))`
    if s.pc p = .waiting ∧ s.base.up p = true then do
      let s ← s.lower F (.finish c)
      some (s.setPc p .reaping)
    else none
  | .reap c =>
    let p := s.this c
    if s.pc p = .reaping then
      match s.zombies p with
      | [] => none
      | z :: rest => some (State.setPc { s with
          zombies := update s.zombies p rest
          reaped := s.reaped ++ [(z, s.exitcode z)] } p .user)
    else none
  | .exit c code => do
    let p := s.this c
    if s.pc p = .user ∧ p ≠ F.root then do
      let s ← s.transferChildren F c p
      let r ← s.parent p
      some (State.setPc { s with
        exitcode := update s.exitcode p code
        children := update s.children r ((s.children r).erase p)
        zombies := update s.zombies r (s.zombies r ++ [p])
        exiting := s.exiting ++ [p] } p .exiting)
    else none
  | .notify c => do
    let p := s.this c
    if s.pc p = .exiting then do
      let r ← s.parent p
      let s ← s.lower F (.post c r)
      some (State.setPc { s with exiting := s.exiting.erase p } p .posted)
    else none
  | .zombie c =>
    let p := s.this c
    if s.pc p = .posted then do
      let s ← s.lower F (.schedule c .zombie)
      some (s.setPc p .ended)
    else none
  | .other l => if Other s l then s.lower F l else none

/-- The CPUs run their idle processes, and `root_proc` is ready to start. -/
def boot : State T where
  base := WakeUps.boot F.toProcs fun _ => 0
  parent q := if q = F.root then some F.root else none
  children _ := []
  zombies _ := []
  exitcode _ := 0
  pc q := if q = F.root then .created else .unborn
  exiting := []
  reaped := []

def numberedFamily : Family (Cpu ⊕ ℕ) := { numbered with root := .inr 1, idle_root := rfl }

/-- The root process starts on CPU 1 and forks process 2, which starts on CPU 2. -/
def twoStarted : List (Label (Cpu ⊕ ℕ)) :=
  [.start (.inr 1), .other (.schedule (cpuNo 1) .runnable), .fork (cpuNo 1) (.inr 2), .start (.inr 2),
    .other (.schedule (cpuNo 2) .runnable)]

end OsHonor.Processes.Lifecycle
