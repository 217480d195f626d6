import OsHonor.Base.Runs
import OsHonor.Lib.Semaphore
import OsHonor.Ipc.Code

/-! # Processes that wait, and are killed (`lib/sem.c`, `lib/ipc.c`, `proc/proc.c`)

A process waits in `cond_wait` or `wait`, with a `WaitData` on the list of a semaphore, or in `sys_msgsnd`
or `sys_msgrcv`, with a record on a list of a message queue. It has released the lock of the list
(`entered`) and then calls `schedule(SLEEPING)`; a waker takes the record off the list and activates the
process. `kill` marks a process and alerts it, and `schedule` returns at once for a killed process. Every
section under a lock is one step.

* `step_calm`: a step can only take the records of the other processes off their lists;
* `Placed.step`: a process is on the list it waits on, if on any. -/

namespace OsHonor.Processes.Waits

open Option List Function Base.Runs Lib.Semaphore Ipc.Code

/-- Where a process is. -/
inductive Pc (M β : Type) where
  | outside
  /-- In `_wait_sem` of the semaphore `m`. -/
  | waiting (m : M)
  /-- In `sys_msgsnd`, on the list of the queue in slot `id`. -/
  | sending (id : ℕ) (msgid : ℤ) (msg : Msg β) (msgflg : Flags)
  /-- At `retry` of `sys_msgsnd`. -/
  | retry (msgid : ℤ) (msg : Msg β) (msgflg : Flags)
  /-- In `sys_msgrcv`, on the list of the queue in slot `id`. -/
  | receiving (id : ℕ)

/-- A process with a record: before and in `schedule(SLEEPING)`, and after it. -/
inductive Phase where
  | entered
  | asleep
  | awake
  deriving DecidableEq

/-- The semaphores, the message queues and the processes. `up` is the field of the `WaitData` of a process,
`written` says whether the `r_msg` of its `msg_receiver` has been assigned, and `stranded` are the senders on
the lists of queues that have been freed. -/
structure State (T M β : Type) where
  sem : M → Sem T
  ids : Ids T β
  receiver : T → Receiver β
  stranded : List T
  pc : T → Pc M β
  phase : T → Phase
  killed : T → Bool
  up : T → Bool
  written : T → Bool

inductive Label (T M β : Type) where
  | condWait (p : T) (m : M)
  | waitSem (p : T) (m : M)
  | post (m : M)
  | postAll (m : M)
  | msgget (key : ℤ) (msgflg : Flags) (alloc : Bool)
  | msgsnd (p : T) (msgid : ℤ) (msg : Msg β) (msgflg : Flags)
  | retry (p : T)
  | msgrcv (p : T) (msgid msgsz mtype : ℤ) (msgflg : Flags)
  | msgctl (msgid cmd : ℤ)
  /-- `schedule(SLEEPING)`. -/
  | sleep (p : T)
  | kill (p : T)
  /-- The process goes on after `schedule(SLEEPING)`. -/
  | resume (p : T)

/-- What can go wrong when a process goes on: a failed `ASSERT`, a result that was never written. -/
inductive Fault where
  | assertion
  | uninitialised
  deriving DecidableEq

variable {T M β : Type} [DecidableEq T] [DecidableEq M]

namespace State

/-- `activate_proc` of some processes. -/
def activate (s : State T M β) (ps : List T) : State T M β :=
  { s with phase := fun p => if p ∈ ps ∧ s.phase p = .asleep then .awake else s.phase p }

/-- `wait->up = true` and `activate_proc`. -/
def grant (s : State T M β) (ps : List T) : State T M β :=
  { s with up := fun p => if p ∈ ps then true else s.up p }.activate ps

def goto (s : State T M β) (p : T) (pc : Pc M β) : State T M β := { s with pc := update s.pc p pc }

/-- A process has put its record on a list and released the lock. -/
def block (s : State T M β) (p : T) (pc : Pc M β) : State T M β :=
  { s with phase := update s.phase p .entered }.goto p pc

/-- `_wait_sem` of a process that does not get the semaphore, or of one that does. -/
def waits (s : State T M β) (p : T) (m : M) (r : Bool × Sem T) : State T M β :=
  let s := { s with sem := update s.sem m r.2 }
  if r.1 then s else { s with up := update s.up p false }.block p (.waiting m)

def setQueue (s : State T M β) (id : ℕ) (q : Queue T β) (receiver : T → Receiver β) : State T M β :=
  { s with ids := { s.ids with entries := update s.ids.entries id (some q) }, receiver }

/-- A `sys_msgsnd` from `retry` on. A process that is handed the message has its `r_msg` written. -/
def send (s : State T M β) (p : T) (msgid : ℤ) (msg : Msg β) (msgflg : Flags) : Option (State T M β) := do
  match ← getMsgq s.ids msgid with
  | none => some (s.goto p .outside)
  | some id =>
    let q ← s.ids.entries id
    let (q, receiver, sent, woken) ← msgsndSection q s.receiver p msg msgflg
    let s := s.setQueue id q receiver
    match sent with
    | .sleeps => some (s.block p (.sending id msgid msg msgflg))
    | .returns _ =>
      some ({ s with written := fun r => if r ∈ woken then true else s.written r }.activate woken |>.goto p .outside)

/-- The section of a `sys_msgrcv`. -/
def receive (s : State T M β) (p : T) (msgid msgsz mtype : ℤ) (msgflg : Flags) : Option (State T M β) := do
  match ← getMsgq s.ids msgid with
  | none => some s
  | some id =>
    let q ← s.ids.entries id
    let (q, receiver, received, woken) := msgrcvSection q s.receiver p msgsz mtype msgflg
    let s := s.setQueue id q receiver
    match received with
    | .sleeps => some ({ s with written := update s.written p false }.block p (.receiving id))
    | _ => some (s.activate woken)

/-- `kill` of a process, whoever calls it. -/
def kill (s : State T M β) (p : T) : State T M β :=
  { s with killed := update s.killed p true }.activate [p]

/-- A process goes on after `schedule(SLEEPING)`. `_wait_sem` returns `up`, and its callers assert it. -/
def resume (s : State T M β) (p : T) : Except Fault (State T M β) :=
  match s.pc p with
  | .waiting _ => if s.up p then .ok (s.goto p .outside) else .error .assertion
  | .sending _ msgid msg msgflg => .ok (s.goto p (.retry msgid msg msgflg))
  | .receiving _ => if s.written p then .ok (s.goto p .outside) else .error .uninitialised
  | _ => .ok s

def queued (s : State T M β) (p : T) : Bool :=
  match s.pc p with
  | .waiting m => p ∈ (s.sem m).sleeplist
  | .sending id _ _ _ => p ∈ s.stranded ∨ (s.ids.entries id).any fun q => p ∈ q.qSender
  | .receiving id => (s.ids.entries id).any fun q => p ∈ q.qReceiver
  | _ => false

/-- The process has a record on a list, or had one that a waker took. -/
def blocked (s : State T M β) (p : T) : Bool :=
  match s.pc p with
  | .waiting _ | .sending _ _ _ _ | .receiving _ => true
  | _ => false

end State

/-- **The steps.** After a failed assertion there is none, and what follows a process that leaves its record on
a list is not modelled. -/
def step (s : State T M β) : Label T M β → Option (State T M β)
  | .condWait p m =>
    match s.pc p with
    | .outside => some (s.waits p m ((s.sem m).condWait p))
    | _ => none
  | .waitSem p m =>
    match s.pc p with
    | .outside => some (s.waits p m ((s.sem m).wait p))
    | _ => none
  | .post m => do
    let (t, sem) ← (s.sem m).post
    some ({ s with sem := update s.sem m sem }.grant t.toList)
  | .postAll m => do
    let (ts, sem) ← (s.sem m).postAll
    some ({ s with sem := update s.sem m sem }.grant ts)
  | .msgget key msgflg alloc => some { s with ids := (sysMsgget s.ids key msgflg alloc).2 }
  | .msgsnd p msgid msg msgflg =>
    match s.pc p with
    | .outside => s.send p msgid msg msgflg
    | _ => none
  | .retry p =>
    match s.pc p with
    | .retry msgid msg msgflg => s.send p msgid msg msgflg
    | _ => none
  | .msgrcv p msgid msgsz mtype msgflg =>
    match s.pc p with
    | .outside => s.receive p msgid msgsz mtype msgflg
    | _ => none
  | .msgctl msgid cmd => do
    let (_, r) ← sysMsgctl s.ids s.receiver msgid cmd
    some ({ s with
      ids := r.ids
      receiver := r.receiver
      stranded := s.stranded ++ (r.queue.map Queue.qSender).getD [] }.activate r.woken)
  | .sleep p =>
    if s.blocked p ∧ s.phase p = .entered then
      some { s with phase := update s.phase p (if s.killed p then .awake else .asleep) }
    else none
  | .kill p => some (s.kill p)
  | .resume p =>
    if s.blocked p ∧ s.phase p = .awake ∧ s.queued p = false then (s.resume p).toOption else none

def start (v : M → ℤ) (receiver : T → Receiver β) : State T M β where
  sem m := Sem.init (v m)
  ids := initIpc
  receiver
  stranded := []
  pc _ := .outside
  phase _ := .awake
  killed _ := false
  up _ := false
  written _ := false

def Listed (s : State T M β) (p : T) : Prop :=
  (∃ m, p ∈ (s.sem m).sleeplist) ∨
  (∃ id q, s.ids.entries id = some q ∧ (p ∈ q.qSender ∨ p ∈ q.qReceiver)) ∨ p ∈ s.stranded

/-! ### The lists of a queue -/

section Queues

variable {q q' : Queue T β} {receiver receiver' : T → Receiver β} {woken : List T} {p x : T}

theorem mem_of_msgsnd {msg : Msg β} {msgflg : Flags} {sent : Sent}
    (h : msgsndSection q receiver p msg msgflg = some (q', receiver', sent, woken)) :
    (x ∈ q'.qSender → x ∈ q.qSender ∨ x = p ∧ sent = .sleeps) ∧ (x ∈ q'.qReceiver → x ∈ q.qReceiver) := by
  unfold msgsndSection at h
  split_ifs at h
  · cases h
    exact ⟨Or.inl, id⟩
  · cases h
    refine ⟨fun hx => ?_, id⟩
    rcases mem_append.mp hx with hx | hx
    · exact Or.inl hx
    · exact Or.inr ⟨mem_singleton.mp hx, rfl⟩
  · obtain ⟨r, -, hr⟩ := map_eq_some_iff.mp h
    rcases r with _ | r
    · cases hr
      exact ⟨Or.inl, id⟩
    · cases hr
      exact ⟨Or.inl, mem_of_mem_erase⟩

theorem mem_of_msgrcv {msgsz mtype : ℤ} {msgflg : Flags} {received : Received β}
    (h : msgrcvSection q receiver p msgsz mtype msgflg = (q', receiver', received, woken)) :
    (x ∈ q'.qSender → x ∈ q.qSender) ∧ (x ∈ q'.qReceiver → x ∈ q.qReceiver ∨ x = p ∧ received = .sleeps) := by
  unfold msgrcvSection at h
  split at h
  · split_ifs at h
    · cases h
      exact ⟨id, Or.inl⟩
    · cases h
      exact ⟨fun hx => absurd hx not_mem_nil, Or.inl⟩
  · split_ifs at h
    · cases h
      exact ⟨id, Or.inl⟩
    · cases h
      refine ⟨id, fun hx => ?_⟩
      rcases mem_append.mp hx with hx | hx
      · exact Or.inl hx
      · exact Or.inr ⟨mem_singleton.mp hx, rfl⟩

omit [DecidableEq T] in
theorem mem_of_msgget {ids : Ids T β} {key : ℤ} {msgflg : Flags} {alloc : Bool} {id : ℕ}
    (h : (sysMsgget ids key msgflg alloc).2.entries id = some q) :
    ids.entries id = some q ∨ q.qSender = [] ∧ q.qReceiver = [] := by
  have hnew : ∀ {ids' : Ids T β} {slot : ℕ},
      ipcAddid ids ⟨key, 0, maxMsgnum, 0, [], [], []⟩ = some (slot, ids') → ids'.entries id = some q →
      ids.entries id = some q ∨ q.qSender = [] ∧ q.qReceiver = [] := by
    intro ids' slot ha hq
    obtain ⟨i, -, hi⟩ := map_eq_some_iff.mp ha
    cases hi
    dsimp only at hq
    by_cases he : id = slot
    · subst he
      rw [update_self] at hq
      cases hq
      exact Or.inr ⟨rfl, rfl⟩
    · rw [update_of_ne he] at hq
      exact Or.inl hq
  have hque : (newque ids key alloc).2.entries id = some q →
      ids.entries id = some q ∨ q.qSender = [] ∧ q.qReceiver = [] := by
    intro hq
    unfold newque at hq
    split_ifs at hq
    · split at hq
      · exact Or.inl hq
      · exact hnew ‹_› hq
    · exact Or.inl hq
  unfold sysMsgget at h
  split at h
  · exact hque h
  · split at h
    · split at h
      · exact hque h
      · exact Or.inl h
    · split at h <;> exact Or.inl h

theorem mem_of_msgctl {ids : Ids T β} {msgid cmd ret : ℤ} {r : Removed T β}
    (h : sysMsgctl ids receiver msgid cmd = some (ret, r)) :
    (∀ id q, r.ids.entries id = some q → ids.entries id = some q) ∧
    (x ∈ (r.queue.map Queue.qSender).getD [] → ∃ id q, ids.entries id = some q ∧ x ∈ q.qSender) := by
  unfold sysMsgctl at h
  split_ifs at h
  · obtain ⟨r', hr', he⟩ := map_eq_some_iff.mp h
    cases he
    obtain ⟨slot, -, hs⟩ := map_eq_some_iff.mp hr'
    rcases slot with _ | slot
    · cases hs
      exact ⟨fun _ _ => id, fun hx => absurd hx not_mem_nil⟩
    · dsimp only at hs
      split at hs
      · cases hs
        exact ⟨fun _ _ => id, fun hx => absurd hx not_mem_nil⟩
      · rename_i q hq
        cases hs
        refine ⟨fun id q' hq' => ?_, fun hx => ⟨slot, q, hq, hx⟩⟩
        dsimp only at hq'
        by_cases he : id = slot
        · subst he
          simp at hq'
        · rwa [update_of_ne he] at hq'
  · cases h
    exact ⟨fun _ _ => id, fun hx => absurd hx not_mem_nil⟩

end Queues

/-! ### Semaphores -/

section Sems

omit [DecidableEq T]

variable {sem sem' : Sem T} {x y : T}

theorem condWait_eq_wait (sem : Sem T) (x : T) : sem.condWait x = sem.wait x := by
  by_cases h : 0 < sem.val
  · rw [Sem.condWait_of_pos x h, Sem.wait, if_pos (by omega)]
  · rw [Sem.condWait_of_nonpos x (by omega), Sem.wait, if_neg (by omega)]

theorem mem_wait (h : y ∈ (sem.wait x).2.sleeplist) :
    y ∈ sem.sleeplist ∨ y = x ∧ (sem.wait x).1 = false := by
  unfold Sem.wait at h ⊢
  split_ifs at h ⊢ with hval
  · exact Or.inl h
  · rcases mem_append.mp h with h | h
    · exact Or.inl h
    · exact Or.inr ⟨mem_singleton.mp h, rfl⟩

theorem mem_wait_of_mem (x : T) (h : y ∈ sem.sleeplist) : y ∈ (sem.wait x).2.sleeplist := by
  unfold Sem.wait
  split_ifs
  · exact h
  · exact mem_append_left _ h

theorem self_mem_wait (h : (sem.wait x).1 = false) : x ∈ (sem.wait x).2.sleeplist := by
  unfold Sem.wait at h ⊢
  split_ifs at h ⊢
  exact mem_append_right _ (mem_singleton_self x)

theorem mem_post {t : Option T} (h : sem.post = some (t, sem')) :
    (y ∈ sem'.sleeplist → y ∈ sem.sleeplist) ∧ (y ∈ sem.sleeplist → y ∈ sem'.sleeplist ∨ y ∈ t.toList) := by
  unfold Sem.post at h
  split_ifs at h
  · cases h
    exact ⟨id, Or.inl⟩
  · split at h
    · cases h
    · rename_i x l hl
      cases h
      rw [hl]
      refine ⟨mem_cons_of_mem _, fun hy => ?_⟩
      rcases mem_cons.mp hy with rfl | hy
      · exact Or.inr (by simp)
      · exact Or.inl hy

theorem mem_postAllLoop : ∀ {n : ℕ} {sem sem' : Sem T} {ts : List T}, Sem.postAllLoop n sem = some (ts, sem') →
    (y ∈ sem'.sleeplist → y ∈ sem.sleeplist) ∧ (y ∈ sem.sleeplist → y ∈ sem'.sleeplist ∨ y ∈ ts)
  | 0, _, _, _, h => by cases h
  | n + 1, sem, sem', ts, h => by
    rw [Sem.postAllLoop] at h
    obtain ⟨⟨t, sem₁⟩, hpost, h⟩ := bind_eq_some_iff.mp h
    have h1 := mem_post (y := y) hpost
    dsimp only at h
    split at h
    · rename_i sem₂ hget
      cases h
      have hlist : sem'.sleeplist = sem₁.sleeplist := by
        unfold Sem.get at hget
        split_ifs at hget
        cases hget
        rfl
      rw [hlist]
      exact h1
    · obtain ⟨⟨ws, sem₂⟩, hloop, h⟩ := bind_eq_some_iff.mp h
      cases h
      have h2 := mem_postAllLoop hloop
      refine ⟨fun hy => h1.1 (h2.1 hy), fun hy => ?_⟩
      rcases h1.2 hy with hy | hy
      · rcases h2.2 hy with hy | hy
        · exact Or.inl hy
        · exact Or.inr (mem_append_right _ hy)
      · exact Or.inr (mem_append_left _ hy)

end Sems

/-! ### A step and a process that waits -/

/-- What a step of somebody else does to `p`: its record can be taken off a list, and the process activated. -/
structure Calm (s s' : State T M β) (p : T) : Prop where
  pc : s'.pc p = s.pc p
  killed : s.killed p = true → s'.killed p = true
  phase : s.phase p ≠ .asleep → s'.phase p ≠ .asleep
  written : s.written p = true → s'.written p = true
  up : s.up p = true → s'.up p = true
  sem : ∀ m, p ∈ (s'.sem m).sleeplist → p ∈ (s.sem m).sleeplist
  granted : ∀ m, p ∈ (s.sem m).sleeplist → p ∈ (s'.sem m).sleeplist ∨ s'.up p = true
  sender : ∀ id q', s'.ids.entries id = some q' → p ∈ q'.qSender →
    ∃ q, s.ids.entries id = some q ∧ p ∈ q.qSender
  receiver : ∀ id q', s'.ids.entries id = some q' → p ∈ q'.qReceiver →
    ∃ q, s.ids.entries id = some q ∧ p ∈ q.qReceiver
  stranded : p ∈ s'.stranded → p ∈ s.stranded ∨ ∃ id q, s.ids.entries id = some q ∧ p ∈ q.qSender

variable {s s' : State T M β} {p : T}

omit [DecidableEq T] [DecidableEq M] in
theorem Calm.listed (h : Calm s s' p) (hl : Listed s' p) : Listed s p := by
  rcases hl with ⟨m, hm⟩ | ⟨id, q, hq, hsnd | hrcv⟩ | hst
  · exact Or.inl ⟨m, h.sem m hm⟩
  · obtain ⟨q, hq, hp⟩ := h.sender id q hq hsnd
    exact Or.inr (Or.inl ⟨id, q, hq, Or.inl hp⟩)
  · obtain ⟨q, hq, hp⟩ := h.receiver id q hq hrcv
    exact Or.inr (Or.inl ⟨id, q, hq, Or.inr hp⟩)
  · rcases h.stranded hst with hst | ⟨id, q, hq, hp⟩
    · exact Or.inr (Or.inr hst)
    · exact Or.inr (Or.inl ⟨id, q, hq, Or.inl hp⟩)

omit [DecidableEq T] [DecidableEq M] in
theorem entries_setQueue {id i : ℕ} {q' q₁ : Queue T β} (receiver : T → Receiver β)
    (hi : (s.setQueue id q' receiver).ids.entries i = some q₁) :
    (i = id ∧ q₁ = q') ∨ s.ids.entries i = some q₁ := by
  simp only [State.setQueue] at hi
  by_cases he : i = id
  · rw [he, update_self] at hi
    exact Or.inl ⟨he, (some.inj hi).symm⟩
  · rw [update_of_ne he] at hi
    exact Or.inr hi

namespace Calm

omit [DecidableEq M]

omit [DecidableEq T] in
theorem refl (s : State T M β) (p : T) : Calm s s p :=
  ⟨rfl, id, id, id, id, fun _ => id, fun _ => Or.inl, fun _ q hq hp => ⟨q, hq, hp⟩, fun _ q hq hp => ⟨q, hq, hp⟩,
    Or.inl⟩

theorem activate (h : Calm s s' p) (ps : List T) : Calm s (s'.activate ps) p := by
  refine ⟨h.pc, h.killed, fun hp => ?_, h.written, h.up, h.sem, h.granted, h.sender, h.receiver, h.stranded⟩
  simp only [State.activate]
  split_ifs
  · exact Phase.noConfusion
  · exact h.phase hp

theorem goto {x : T} (h : Calm s s' p) (hx : p ≠ x) (pc : Pc M β) : Calm s (s'.goto x pc) p :=
  ⟨(update_of_ne hx _ _).trans h.pc, h.killed, h.phase, h.written, h.up, h.sem, h.granted, h.sender,
    h.receiver, h.stranded⟩

theorem block {x : T} (h : Calm s s' p) (hx : p ≠ x) (pc : Pc M β) : Calm s (s'.block x pc) p := by
  have hphase : Calm s { s' with phase := update s'.phase x .entered } p := by
    refine ⟨h.pc, h.killed, fun hp => ?_, h.written, h.up, h.sem, h.granted, h.sender, h.receiver, h.stranded⟩
    simp only [update_of_ne hx]
    exact h.phase hp
  exact hphase.goto hx pc

theorem setSem [DecidableEq M] {m : M} {sem : Sem T} {ps : List T} (hsub : p ∈ sem.sleeplist → p ∈ (s.sem m).sleeplist)
    (hgone : p ∈ (s.sem m).sleeplist → p ∈ sem.sleeplist ∨ p ∈ ps) :
    Calm s ({ s with sem := update s.sem m sem }.grant ps) p := by
  have hup : Calm s { s with
      sem := update s.sem m sem
      up := fun x => if x ∈ ps then true else s.up x } p := by
    refine ⟨rfl, id, id, id, fun hu => by simp [hu], fun m' => ?_, fun m' hp => ?_, fun _ q hq hp => ⟨q, hq, hp⟩,
      fun _ q hq hp => ⟨q, hq, hp⟩, Or.inl⟩
    · by_cases hm : m' = m
      · subst hm
        simpa using hsub
      · simp [hm]
    · by_cases hm : m' = m
      · subst hm
        rcases hgone hp with hp | hp
        · exact Or.inl (by simpa using hp)
        · exact Or.inr (by simp [hp])
      · exact Or.inl (by simpa [hm] using hp)
  exact hup.activate ps

omit [DecidableEq T] in
theorem setQueue {id : ℕ} {q q' : Queue T β} (receiver : T → Receiver β) (hq : s.ids.entries id = some q)
    (hsnd : p ∈ q'.qSender → p ∈ q.qSender) (hrcv : p ∈ q'.qReceiver → p ∈ q.qReceiver) :
    Calm s (s.setQueue id q' receiver) p := by
  refine ⟨rfl, fun hk => hk, fun hp => hp, fun hw => hw, fun hu => hu, fun _ hp => hp, fun _ => Or.inl,
    fun i q₁ hi hp => ?_, fun i q₁ hi hp => ?_, Or.inl⟩
  · rcases entries_setQueue receiver hi with ⟨rfl, rfl⟩ | hi
    · exact ⟨q, hq, hsnd hp⟩
    · exact ⟨q₁, hi, hp⟩
  · rcases entries_setQueue receiver hi with ⟨rfl, rfl⟩ | hi
    · exact ⟨q, hq, hrcv hp⟩
    · exact ⟨q₁, hi, hp⟩

end Calm

def Label.mover : Label T M β → Option T
  | .condWait p _ | .waitSem p _ | .msgsnd p _ _ _ | .retry p | .msgrcv p _ _ _ _ | .sleep p | .resume p => some p
  | _ => none

theorem Calm.waits {x : T} (hx : p ≠ x) (m : M) : Calm s (s.waits x m ((s.sem m).wait x)) p := by
  have hsem : Calm s { s with sem := update s.sem m ((s.sem m).wait x).2 } p := by
    refine ⟨rfl, id, id, id, id, fun m' => ?_, fun m' hp => ?_, fun _ q hq hp => ⟨q, hq, hp⟩,
      fun _ q hq hp => ⟨q, hq, hp⟩, Or.inl⟩
    · by_cases hm : m' = m
      · subst hm
        intro hp
        simp only [update_self] at hp
        exact (mem_wait hp).resolve_right fun h => hx h.1
      · simp [hm]
    · by_cases hm : m' = m
      · subst hm
        exact Or.inl (by simpa using mem_wait_of_mem x hp)
      · exact Or.inl (by simpa [hm] using hp)
  unfold State.waits
  dsimp only
  split_ifs
  · exact hsem
  · have hup : Calm s { s with
        sem := update s.sem m ((s.sem m).wait x).2
        up := update s.up x false } p := by
      refine ⟨rfl, id, id, id, ?_, hsem.sem, fun m' hp => ?_, hsem.sender, hsem.receiver, hsem.stranded⟩
      · simp [update_of_ne hx]
      · simpa [update_of_ne hx] using hsem.granted m' hp
    exact hup.block hx _

section

omit [DecidableEq M]

theorem Calm.send {x : T} (hx : p ≠ x) {msgid : ℤ} {msg : Msg β} {msgflg : Flags}
    (hs : s.send x msgid msg msgflg = some s') : Calm s s' p := by
  obtain ⟨slot, -, hs⟩ := bind_eq_some_iff.mp hs
  rcases slot with _ | id
  · cases hs
    exact (Calm.refl s p).goto hx _
  · obtain ⟨q, hq, hs⟩ := bind_eq_some_iff.mp hs
    obtain ⟨⟨q', receiver, sent, woken⟩, hsec, hs⟩ := bind_eq_some_iff.mp hs
    have hmem := mem_of_msgsnd (x := p) hsec
    have hqueue : Calm s (s.setQueue id q' receiver) p :=
      Calm.setQueue receiver hq (fun hp => (hmem.1 hp).resolve_right fun h => hx h.1) hmem.2
    rcases sent with err | _
    · cases hs
      refine (Calm.activate ?_ woken).goto hx _
      exact ⟨hqueue.pc, hqueue.killed, hqueue.phase, fun hw => by simp [State.setQueue, hw], hqueue.up, hqueue.sem,
        hqueue.granted, hqueue.sender, hqueue.receiver, hqueue.stranded⟩
    · cases hs
      exact hqueue.block hx _

theorem Calm.receive {x : T} (hx : p ≠ x) {msgid msgsz mtype : ℤ} {msgflg : Flags}
    (hs : s.receive x msgid msgsz mtype msgflg = some s') : Calm s s' p := by
  obtain ⟨slot, -, hs⟩ := bind_eq_some_iff.mp hs
  rcases slot with _ | id
  · cases hs
    exact Calm.refl s p
  · obtain ⟨q, hq, hs⟩ := bind_eq_some_iff.mp hs
    rcases hsec : msgrcvSection q s.receiver x msgsz mtype msgflg with ⟨q', receiver, received, woken⟩
    rw [hsec] at hs
    have hmem := mem_of_msgrcv (x := p) hsec
    have hqueue : Calm s (s.setQueue id q' receiver) p :=
      Calm.setQueue receiver hq hmem.1 fun hp => (hmem.2 hp).resolve_right fun h => hx h.1
    rcases received with err | msg | _
    · cases hs
      exact hqueue.activate woken
    · cases hs
      exact hqueue.activate woken
    · cases hs
      refine Calm.block ?_ hx _
      exact ⟨hqueue.pc, hqueue.killed, hqueue.phase, fun hw => by simp [State.setQueue, update_of_ne hx, hw],
        hqueue.up, hqueue.sem, hqueue.granted, hqueue.sender, hqueue.receiver, hqueue.stranded⟩

theorem Calm.kill (s : State T M β) (x p : T) : Calm s (s.kill x) p := by
  refine Calm.activate ?_ [x]
  refine ⟨rfl, fun hk => ?_, id, id, id, fun _ => id, fun _ => Or.inl, fun _ q hq hp => ⟨q, hq, hp⟩,
    fun _ q hq hp => ⟨q, hq, hp⟩, Or.inl⟩
  by_cases hp : p = x
  · simp [hp]
  · simpa [hp] using hk

theorem resume_eq {x : T} (hb : s.blocked x = true) (hs : (s.resume x).toOption = some s') :
    ∃ pc : Pc M β, (pc = .outside ∨ ∃ msgid msg msgflg, pc = .retry msgid msg msgflg) ∧ s' = s.goto x pc := by
  unfold State.resume at hs
  unfold State.blocked at hb
  split at hs
  · split_ifs at hs
    · cases hs
      exact ⟨_, Or.inl rfl, rfl⟩
    · cases hs
  · cases hs
    exact ⟨_, Or.inr ⟨_, _, _, rfl⟩, rfl⟩
  · split_ifs at hs
    · cases hs
      exact ⟨_, Or.inl rfl, rfl⟩
    · cases hs
  · split at hb
    · rename_i h1 h2 h3 _ m hpc
      exact absurd hpc (h1 m)
    · rename_i h1 h2 h3 _ a b c d hpc
      exact absurd hpc (h2 a b c d)
    · rename_i h1 h2 h3 _ id hpc
      exact absurd hpc (h3 id)
    · cases hb

end

/-- **A step does not disturb the processes that do not make it.** -/
theorem step_calm {l : Label T M β} (hs : step s l = some s') (hl : l.mover ≠ some p) : Calm s s' p := by
  have hne : ∀ {x : T}, l.mover = some x → p ≠ x := fun hx he => hl (he ▸ hx)
  cases l with
  | condWait x m =>
    simp only [step] at hs
    split at hs
    · cases hs
      rw [condWait_eq_wait]
      exact Calm.waits (hne rfl) m
    · cases hs
  | waitSem x m =>
    simp only [step] at hs
    split at hs
    · cases hs
      exact Calm.waits (hne rfl) m
    · cases hs
  | post m =>
    obtain ⟨⟨t, sem⟩, hpost, hs⟩ := bind_eq_some_iff.mp hs
    cases hs
    exact Calm.setSem (mem_post hpost).1 (mem_post hpost).2
  | postAll m =>
    obtain ⟨⟨ts, sem⟩, hpost, hs⟩ := bind_eq_some_iff.mp hs
    cases hs
    exact Calm.setSem (mem_postAllLoop hpost).1 (mem_postAllLoop hpost).2
  | msgget key msgflg alloc =>
    cases hs
    refine ⟨rfl, id, id, id, id, fun _ => id, fun _ => Or.inl, fun id q hq hp => ?_, fun id q hq hp => ?_, Or.inl⟩
    · rcases mem_of_msgget hq with hq | ⟨hnil, -⟩
      · exact ⟨q, hq, hp⟩
      · exact absurd hp (hnil ▸ not_mem_nil)
    · rcases mem_of_msgget hq with hq | ⟨-, hnil⟩
      · exact ⟨q, hq, hp⟩
      · exact absurd hp (hnil ▸ not_mem_nil)
  | msgsnd x msgid msg msgflg =>
    simp only [step] at hs
    split at hs
    · exact Calm.send (hne rfl) hs
    · cases hs
  | retry x =>
    simp only [step] at hs
    split at hs
    · exact Calm.send (hne rfl) hs
    · cases hs
  | msgrcv x msgid msgsz mtype msgflg =>
    simp only [step] at hs
    split at hs
    · exact Calm.receive (hne rfl) hs
    · cases hs
  | msgctl msgid cmd =>
    obtain ⟨⟨ret, r⟩, hctl, hs⟩ := bind_eq_some_iff.mp hs
    cases hs
    have hmem := mem_of_msgctl (x := p) hctl
    refine Calm.activate ?_ _
    refine ⟨rfl, id, id, id, id, fun _ => id, fun _ => Or.inl, fun id q hq hp => ⟨q, hmem.1 id q hq, hp⟩,
      fun id q hq hp => ⟨q, hmem.1 id q hq, hp⟩, fun hp => ?_⟩
    exact (mem_append.mp hp).imp_right hmem.2
  | sleep x =>
    obtain ⟨-, hs⟩ := ite_none_right_eq_some.mp hs
    cases hs
    have hx : p ≠ x := hne rfl
    exact ⟨rfl, id, by simp [update_of_ne hx], id, id, fun _ => id, fun _ => Or.inl,
      fun _ q hq hp => ⟨q, hq, hp⟩, fun _ q hq hp => ⟨q, hq, hp⟩, Or.inl⟩
  | kill x =>
    cases hs
    exact Calm.kill s x p
  | resume x =>
    obtain ⟨⟨hb, -⟩, hs⟩ := ite_none_right_eq_some.mp hs
    obtain ⟨pc, -, rfl⟩ := resume_eq hb hs
    exact (Calm.refl s p).goto (hne rfl) pc

/-! ### The records -/

/-- A process is on the list it waits on and on no other; one that is not on the list of its semaphore has been
granted it. -/
structure Placed (s : State T M β) (p : T) : Prop where
  sem : ∀ m, p ∈ (s.sem m).sleeplist → s.pc p = .waiting m
  sender : ∀ id q, s.ids.entries id = some q → p ∈ q.qSender → ∃ msgid msg msgflg, s.pc p = .sending id msgid msg msgflg
  receiver : ∀ id q, s.ids.entries id = some q → p ∈ q.qReceiver → s.pc p = .receiving id
  stranded : p ∈ s.stranded → ∃ id msgid msg msgflg, s.pc p = .sending id msgid msg msgflg
  granted : ∀ m, s.pc p = .waiting m → p ∈ (s.sem m).sleeplist ∨ s.up p = true

omit [DecidableEq M] in
theorem listed_of_queued (h : s.queued p = true) : Listed s p := by
  unfold State.queued at h
  split at h
  · exact Or.inl ⟨_, of_decide_eq_true h⟩
  · rcases of_decide_eq_true h with hst | hq
    · exact Or.inr (Or.inr hst)
    · obtain ⟨q, hq, hp⟩ := (Option.any_eq_true _ _).mp hq
      exact Or.inr (Or.inl ⟨_, q, hq, Or.inl (of_decide_eq_true hp)⟩)
  · obtain ⟨q, hq, hp⟩ := (Option.any_eq_true _ _).mp h
    exact Or.inr (Or.inl ⟨_, q, hq, Or.inr (of_decide_eq_true hp)⟩)
  · cases h

namespace Placed

omit [DecidableEq M]

omit [DecidableEq T] in
theorem calm (h : Placed s p) (hc : Calm s s' p) : Placed s' p := by
  refine ⟨fun m hm => ?_, fun id q hq hp => ?_, fun id q hq hp => ?_, fun hst => ?_, fun m hm => ?_⟩
  · rw [hc.pc]
    exact h.sem m (hc.sem m hm)
  · obtain ⟨q, hq, hp⟩ := hc.sender id q hq hp
    rw [hc.pc]
    exact h.sender id q hq hp
  · obtain ⟨q, hq, hp⟩ := hc.receiver id q hq hp
    rw [hc.pc]
    exact h.receiver id q hq hp
  · rw [hc.pc]
    rcases hc.stranded hst with hst | ⟨id, q, hq, hp⟩
    · exact h.stranded hst
    · exact ⟨id, h.sender id q hq hp⟩
  · rw [hc.pc] at hm
    rcases h.granted m hm with hp | hu
    · exact hc.granted m hp
    · exact Or.inr (hc.up hu)

omit [DecidableEq T] in
theorem not_listed (h : Placed s p) (hb : s.blocked p = false) : ¬ Listed s p := by
  unfold State.blocked at hb
  rintro (⟨m, hm⟩ | ⟨id, q, hq, hp | hp⟩ | hst)
  · simp [h.sem m hm] at hb
  · obtain ⟨_, _, _, hpc⟩ := h.sender id q hq hp
    simp [hpc] at hb
  · simp [h.receiver id q hq hp] at hb
  · obtain ⟨_, _, _, _, hpc⟩ := h.stranded hst
    simp [hpc] at hb

theorem queued (h : Placed s p) (hl : Listed s p) : s.queued p = true := by
  rcases hl with ⟨m, hm⟩ | ⟨id, q, hq, hp | hp⟩ | hst
  · simp [State.queued, h.sem m hm, hm]
  · obtain ⟨_, _, _, hpc⟩ := h.sender id q hq hp
    simp [State.queued, hpc, hq, hp]
  · simp [State.queued, h.receiver id q hq hp, hq, hp]
  · obtain ⟨_, _, _, _, hpc⟩ := h.stranded hst
    simp [State.queued, hpc, hst]

omit [DecidableEq T] in
theorem of_not_listed (h : ¬ Listed s p) (hpc : ∀ m, s.pc p ≠ .waiting m) : Placed s p := by
  refine ⟨fun m hm => ?_, fun id q hq hp => ?_, fun id q hq hp => ?_, fun hst => ?_, fun m hm => absurd hm (hpc m)⟩
  · exact absurd (Or.inl ⟨m, hm⟩) h
  · exact absurd (Or.inr (Or.inl ⟨id, q, hq, Or.inl hp⟩)) h
  · exact absurd (Or.inr (Or.inl ⟨id, q, hq, Or.inr hp⟩)) h
  · exact absurd (Or.inr (Or.inr hst)) h

theorem waits [DecidableEq M] (h : ¬ Listed s p) (hpc : s.pc p = .outside) (m : M) :
    Placed (s.waits p m ((s.sem m).wait p)) p := by
  have hmem : ∀ m', p ∈ (update s.sem m ((s.sem m).wait p).2 m').sleeplist →
      m' = m ∧ ((s.sem m).wait p).1 = false := by
    intro m' hm'
    by_cases he : m' = m
    · subst he
      rw [update_self] at hm'
      exact ⟨rfl, ((mem_wait hm').resolve_left fun hp => h (Or.inl ⟨_, hp⟩)).2⟩
    · rw [update_of_ne he] at hm'
      exact absurd (Or.inl ⟨m', hm'⟩) h
  unfold State.waits
  dsimp only
  split_ifs with hr
  · refine of_not_listed ?_ fun m' => by simp [hpc]
    rintro (⟨m', hm'⟩ | hl)
    · have := (hmem m' hm').2
      simp [hr] at this
    · exact h (Or.inr hl)
  · refine ⟨fun m' hm' => ?_, fun id q hq hp => ?_, fun id q hq hp => ?_, fun hst => ?_, fun m' hm' => ?_⟩
    · rw [(hmem m' hm').1]
      exact update_self ..
    · exact absurd (Or.inr (Or.inl ⟨id, q, hq, Or.inl hp⟩)) h
    · exact absurd (Or.inr (Or.inl ⟨id, q, hq, Or.inr hp⟩)) h
    · exact absurd (Or.inr (Or.inr hst)) h
    · simp only [State.block, State.goto, update_self, Pc.waiting.injEq] at hm'
      subst hm'
      refine Or.inl ?_
      simp only [State.block, State.goto, update_self]
      exact self_mem_wait (by simpa using hr)

theorem blockOn (h : ¬ Listed s p) {id : ℕ} {q' : Queue T β} {pc : Pc M β} (receiver : T → Receiver β)
    (hsnd : p ∈ q'.qSender → ∃ msgid msg msgflg, pc = .sending id msgid msg msgflg)
    (hrcv : p ∈ q'.qReceiver → pc = .receiving id) (hpc : ∀ m, pc ≠ .waiting m) :
    Placed ((s.setQueue id q' receiver).block p pc) p := by
  have hat : ((s.setQueue id q' receiver).block p pc).pc p = pc := update_self ..
  refine ⟨fun m hm => absurd (Or.inl ⟨m, hm⟩) h, fun i q₁ hi hp => ?_, fun i q₁ hi hp => ?_,
    fun hst => absurd (Or.inr (Or.inr hst)) h, fun m hm => absurd (hat ▸ hm) (hpc m)⟩
  · rw [hat]
    rcases entries_setQueue receiver hi with ⟨rfl, rfl⟩ | hi
    · exact hsnd hp
    · exact absurd (Or.inr (Or.inl ⟨i, q₁, hi, Or.inl hp⟩)) h
  · rw [hat]
    rcases entries_setQueue receiver hi with ⟨rfl, rfl⟩ | hi
    · exact hrcv hp
    · exact absurd (Or.inr (Or.inl ⟨i, q₁, hi, Or.inr hp⟩)) h

theorem send {msgid : ℤ} {msg : Msg β} {msgflg : Flags} (h : ¬ Listed s p)
    (hs : s.send p msgid msg msgflg = some s') : Placed s' p := by
  obtain ⟨slot, -, hs⟩ := bind_eq_some_iff.mp hs
  rcases slot with _ | id
  · cases hs
    exact of_not_listed h fun m => by simp [State.goto]
  · obtain ⟨q, hq, hs⟩ := bind_eq_some_iff.mp hs
    obtain ⟨⟨q', receiver, sent, woken⟩, hsec, hs⟩ := bind_eq_some_iff.mp hs
    have hmem := mem_of_msgsnd (x := p) hsec
    rcases sent with err | _
    · cases hs
      have hqueue : Calm s (s.setQueue id q' receiver) p :=
        Calm.setQueue receiver hq (fun hp => (hmem.1 hp).resolve_right fun h => Sent.noConfusion h.2) hmem.2
      exact of_not_listed (fun hl => h (hqueue.listed hl)) fun m => by simp [State.goto]
    · cases hs
      refine blockOn h receiver (fun _ => ⟨_, _, _, rfl⟩) (fun hp => ?_) fun m => by simp
      exact absurd (Or.inr (Or.inl ⟨id, q, hq, Or.inr (hmem.2 hp)⟩)) h

theorem receive {msgid msgsz mtype : ℤ} {msgflg : Flags} (h : ¬ Listed s p) (hpc : s.pc p = .outside)
    (hs : s.receive p msgid msgsz mtype msgflg = some s') : Placed s' p := by
  obtain ⟨slot, -, hs⟩ := bind_eq_some_iff.mp hs
  rcases slot with _ | id
  · cases hs
    exact of_not_listed h fun m => by simp [hpc]
  · obtain ⟨q, hq, hs⟩ := bind_eq_some_iff.mp hs
    rcases hsec : msgrcvSection q s.receiver p msgsz mtype msgflg with ⟨q', receiver, received, woken⟩
    rw [hsec] at hs
    have hmem := mem_of_msgrcv (x := p) hsec
    -- a call that does not sleep has not put the process on a list
    have hcalm : received ≠ .sleeps → Calm s (s.setQueue id q' receiver) p := fun hr =>
      Calm.setQueue receiver hq hmem.1 fun hp => (hmem.2 hp).resolve_right fun h => hr h.2
    rcases received with err | msg | _
    · cases hs
      exact of_not_listed (fun hl => h ((hcalm (by simp)).listed hl)) fun m => by
        simp [State.activate, State.setQueue, hpc]
    · cases hs
      exact of_not_listed (fun hl => h ((hcalm (by simp)).listed hl)) fun m => by
        simp [State.activate, State.setQueue, hpc]
    · cases hs
      have hs' : ¬ Listed { s with written := update s.written p false } p := h
      refine blockOn hs' receiver (fun hp => ?_) (fun _ => rfl) fun m => by simp
      exact absurd (Or.inr (Or.inl ⟨id, q, hq, Or.inl (hmem.1 hp)⟩)) h

/-- **A step of the process itself.** -/
theorem step_self [DecidableEq M] {l : Label T M β} (h : Placed s p) (hs : step s l = some s') (hl : l.mover = some p) :
    Placed s' p := by
  cases l with
  | condWait x m =>
    cases hl
    simp only [step] at hs
    split at hs
    · rename_i hpc
      cases hs
      rw [condWait_eq_wait]
      exact waits (h.not_listed (by simp [State.blocked, hpc])) hpc m
    · cases hs
  | waitSem x m =>
    cases hl
    simp only [step] at hs
    split at hs
    · rename_i hpc
      cases hs
      exact waits (h.not_listed (by simp [State.blocked, hpc])) hpc m
    · cases hs
  | msgsnd x msgid msg msgflg =>
    cases hl
    simp only [step] at hs
    split at hs
    · rename_i hpc
      exact send (h.not_listed (by simp [State.blocked, hpc])) hs
    · cases hs
  | retry x =>
    cases hl
    simp only [step] at hs
    split at hs
    · rename_i hpc
      exact send (h.not_listed (by simp [State.blocked, hpc])) hs
    · cases hs
  | msgrcv x msgid msgsz mtype msgflg =>
    cases hl
    simp only [step] at hs
    split at hs
    · rename_i hpc
      exact receive (h.not_listed (by simp [State.blocked, hpc])) hpc hs
    · cases hs
  | sleep x =>
    obtain ⟨-, hs⟩ := ite_none_right_eq_some.mp hs
    cases hs
    exact ⟨h.sem, h.sender, h.receiver, h.stranded, h.granted⟩
  | resume x =>
    cases hl
    obtain ⟨⟨hb, -, hq⟩, hs⟩ := ite_none_right_eq_some.mp hs
    obtain ⟨pc, hpc, rfl⟩ := resume_eq hb hs
    have hoff : ¬ Listed s p := fun hl => by simp [h.queued hl] at hq
    refine of_not_listed hoff fun m => ?_
    rcases hpc with rfl | ⟨_, _, _, rfl⟩ <;> simp [State.goto]
  | _ => cases hl

theorem step [DecidableEq M] {l : Label T M β} (h : ∀ p, Placed s p) (hs : step s l = some s') (p : T) : Placed s' p := by
  by_cases hl : l.mover = some p
  · exact (h p).step_self hs hl
  · exact (h p).calm (step_calm hs hl)

end Placed

omit [DecidableEq T] [DecidableEq M] in
theorem placed_start (v : M → ℤ) (receiver : T → Receiver β) (p : T) : Placed (start v receiver) p := by
  constructor <;> simp [start, initIpc, Sem.init]

/-- **A process is on the list it waits on, if on any, in every state of a run.** -/
theorem placed {v : M → ℤ} {receiver : T → Receiver β} {ls : List (Label T M β)}
    (hrun : Run step (fun _ _ => True) (start v receiver) ls s) (p : T) : Placed s p :=
  hrun.inv (I := fun s => ∀ p, Placed s p) (fun _ _ _ h _ hs => Placed.step h hs) (placed_start v receiver) p

omit [DecidableEq T] [DecidableEq M] in
theorem Calm.blocked (h : Calm s s' p) (hb : s.blocked p = true) : s'.blocked p = true := by
  unfold State.blocked at hb ⊢
  rwa [h.pc]

theorem mover_of_blocked {l : Label T M β} (hs : step s l = some s') (hb : s.blocked p = true)
    (hm : l.mover = some p) : l = .sleep p ∨ l = .resume p := by
  have hfree : s.pc p = .outside ∨ (∃ msgid msg msgflg, s.pc p = .retry msgid msg msgflg) → False := by
    rintro (hpc | ⟨_, _, _, hpc⟩) <;> simp [State.blocked, hpc] at hb
  cases l with
  | sleep x => exact Or.inl (congrArg Label.sleep (some.inj hm))
  | resume x => exact Or.inr (congrArg Label.resume (some.inj hm))
  | condWait x m | waitSem x m | msgsnd x _ _ _ | msgrcv x _ _ _ _ =>
    cases hm
    simp only [step] at hs
    split at hs
    · exact (hfree (Or.inl ‹_›)).elim
    · cases hs
  | retry x =>
    cases hm
    simp only [step] at hs
    split at hs
    · exact (hfree (Or.inr ⟨_, _, _, ‹_›⟩)).elim
    · cases hs
  | _ => cases hm

end OsHonor.Processes.Waits
