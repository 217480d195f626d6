import OsHonor.Fs.Cache.Blocks

/-! # The block cache as a machine (`fs/cache.c`)

Any number of threads call the block cache. A step is what one of them does in one section under a
spinlock, or in one device read or write; between two steps any other thread may run. The program
counter `Pc` says where a thread stands inside a call, and `Label` who moves and with what arguments.

* `cache_acquire` looks the block up under `lock` (`Pc.acquire`). On a hit it takes the block or sleeps
  on its semaphore (`Pc.wait`); `cache_release` posts, which makes the sleeper `Pc.woken`, and the
  sleeper looks at `acquired` again in a later step. On a miss it may evict, pushes a new block, drops
  the lock and reads the device (`Pc.load`), and takes the lock again (`Pc.loaded`).
* `cache_end_op` of the last contributor runs `write_log` (`Pc.logNext`, `Pc.logWrite`,
  `Pc.logRelease`), `write_header`, `spawn_ckpt` (`Pc.ckpt`) and `cond_broadcast` without `log.lock`.
  `write_log` gets its blocks by `cache_acquire` too; `Cont` says to whom an acquire returns.

A failed `ASSERT` and a `PANIC` stop the machine: the step is `none`. -/

namespace OsHonor.Fs.Cache.Machine

open BlockDevice Lib.Semaphore Blocks

/-! ### States -/

/-- Who called `cache_acquire`: a client, or `write_log` for `header.block_no[i]`. -/
inductive Cont where
  | client
  | writeLog (i : ℕ)
  deriving DecidableEq

/-- Where a thread is inside `spawn_ckpt`. -/
inductive CkptPc where
  | readHeader
  | read (i : ℕ)
  | write (i : ℕ) (d : BlockData)
  | empty
  | writeHeader
  | done

/-- Where a thread is. -/
inductive Pc where
  | ready
  | acquire (k : Cont) (n : ℕ)
  | load (k : Cont) (a : ℕ)
  | loaded (k : Cont) (a : ℕ)
  | wait (k : Cont) (a : ℕ)
  | woken (k : Cont) (a : ℕ)
  | logNext (i : ℕ)
  | logWrite (i a : ℕ)
  | logRelease (i a : ℕ)
  | writeHeader
  | ckpt (p : CkptPc)
  | endWait
  | endWoken

/-- A thread: `ctx->rm` of its open operation, the addresses of the blocks it has acquired, and its
program counter. -/
structure Thread where
  ctx : Option ℕ
  held : List ℕ
  pc : Pc

/-- The shared variables of `cache.c`, the disk and the threads. The number of open operations is
bounded by the number of processes, so the `u32` counter does not wrap. -/
structure State (T : Type) where
  blocks : List (Block T)
  header : LogHeader
  contributorsCnt : ℕ
  workDone : Sem T
  disk : Disk
  thread : T → Thread

/-- The calls of the clients, and `run`: the next step of a thread inside a call. `modify` is a client's
write through a pointer to a cached block, which it need not hold; `syncNull` is
`cache_sync(NULL, block)`, which writes through. The address in `run` is what `kalloc` would return. -/
inductive Label (T : Type) where
  | beginOp (t : T)
  | acquire (t : T) (n : ℕ)
  | modify (t : T) (a : ℕ) (f : BlockData → BlockData)
  | sync (t : T) (a : ℕ)
  | syncNull (t : T) (a : ℕ)
  | release (t : T) (a : ℕ)
  | endOp (t : T)
  | run (t : T) (a : ℕ)

def Label.actor {T : Type} : Label T → T
  | .beginOp t | .acquire t _ | .modify t _ _ | .sync t _ | .syncNull t _ | .release t _ | .endOp t
  | .run t _ => t

/-- Where a thread goes on when `cache_acquire` returns the block at `a`. -/
def Cont.ret (a : ℕ) : Cont → Pc
  | .client => .ready
  | .writeLog i => .logWrite i a

def Pc.isReady : Pc → Bool
  | .ready => true
  | _ => false

variable {T : Type} [DecidableEq T]

/-- The state in which `t` stands at `pc`. -/
def State.goto (s : State T) (t : T) (pc : Pc) : State T :=
  { s with thread := Function.update s.thread t { s.thread t with pc := pc } }

/-! ### `cache_acquire` and `cache_release` -/

/-- `do cond_wait(&b->lock, &lock); while (b->acquired);` until the block is `t`'s (`true`) or `t` is
asleep. The bound is the number of units that can be taken without sleeping. -/
def waitLoop (acquired : Bool) (t : T) : ℕ → Sem T → Bool × Sem T
  | 0, l => l.condWait t
  | n + 1, l =>
    match l.condWait t with
    | (false, l) => (false, l)
    | (true, l) => if acquired then waitLoop acquired t n l else (true, l)

/-- The rest of the section once the loop is left: `b->acquired = true; boost_frequency(b)`. -/
def take (s : State T) (t : T) (k : Cont) (a : ℕ) (l : Sem T) : State T :=
  { s with
    blocks := boostFrequency a (update a (fun b => { b with lock := l, acquired := true }) s.blocks)
    thread := Function.update s.thread t
      { s.thread t with held := a :: (s.thread t).held, pc := k.ret a } }

def waitOn (s : State T) (t : T) (k : Cont) (b : Block T) : State T :=
  match waitLoop b.acquired t b.lock.val.toNat b.lock with
  | (true, l) => take s t k b.addr l
  | (false, l) =>
    { s.goto t (.wait k b.addr) with
      blocks := update b.addr (fun b => { b with lock := l }) s.blocks }

/-- `cache_acquire`, the section under `lock`: `a` is the address of a new block. -/
def cacheAcquire (s : State T) (t : T) (k : Cont) (n a : ℕ) : Option (State T) :=
  match fetchCached n s.blocks with
  | some b => some (waitOn s t k b)
  | none =>
    if a ∈ (evictFull s.blocks).map Block.addr then none
    else some { s with
      blocks := evictFull s.blocks ++ [newBlock a n]
      thread := Function.update s.thread t
        { s.thread t with held := a :: (s.thread t).held, pc := .load k a } }

def wake (s : State T) (t : T) : State T :=
  match (s.thread t).pc with
  | .wait k a => s.goto t (.woken k a)
  | _ => s

/-- `cache_release`: `pc` is where the caller goes on. -/
def cacheRelease (s : State T) (t : T) (a : ℕ) (pc : Pc) : Option (State T) := do
  let b ← find a s.blocks
  if b.acquired then
    let (w, l) ← b.lock.post
    let s : State T := { s with
      blocks := update a (fun b => { b with acquired := false, lock := l }) s.blocks
      thread := Function.update s.thread t
        { s.thread t with held := (s.thread t).held.erase a, pc := pc } }
    match w with
    | none => some s
    | some u => some (wake s u)
  else none

/-! ### The log -/

def cacheBeginOp (s : State T) (t : T) : State T :=
  { s with
    contributorsCnt := s.contributorsCnt + 1
    thread := Function.update s.thread t { s.thread t with ctx := some opMaxNumBlocks } }

/-- `cache_sync(ctx, block)` for the block at `a`, with `rm = ctx->rm`. -/
def cacheSync (s : State T) (t : T) (rm a : ℕ) : Option (State T) := do
  let b ← find a s.blocks
  if b.blockNo ∈ s.header.logged then some s
  else if rm = 0 then none
  else some { s with
    header :=
      { numBlocks := s.header.numBlocks + 1
        blockNo := Function.update s.header.blockNo s.header.numBlocks b.blockNo }
    blocks := update a (fun b => { b with pinned := true }) s.blocks
    thread := Function.update s.thread t { s.thread t with ctx := some (rm - 1) } }

/-- `cache_end_op`, the section under `log.lock`. -/
def cacheEndOp (s : State T) (t : T) : State T :=
  if 0 < s.contributorsCnt - 1 then
    match s.workDone.condWait t with
    | (true, l) =>
      { s with
        contributorsCnt := s.contributorsCnt - 1
        workDone := l
        thread := Function.update s.thread t { s.thread t with ctx := none } }
    | (false, l) =>
      { s.goto t .endWait with contributorsCnt := s.contributorsCnt - 1, workDone := l }
  else { s.goto t (.logNext 0) with contributorsCnt := s.contributorsCnt - 1 }

/-- One step of `spawn_ckpt`: a device access, or the store `header.num_blocks = 0`. -/
def spawnCkpt (sb : SuperBlock) (h : LogHeader) (d : Disk) : CkptPc → CkptPc × LogHeader × Disk
  | .readHeader => (.read 0, h.read (d sb.logStart), d)
  | .read i =>
    if i < h.numBlocks then (.write i (d (sb.logStart + 1 + i)), h, d) else (.empty, h, d)
  | .write i b => (.read (i + 1), h, Function.update d (h.blockNo i) b)
  | .empty => (.writeHeader, { h with numBlocks := 0 }, d)
  | .writeHeader => (.done, h, Function.update d sb.logStart h.encode)
  | .done => (.done, h, d)

/-- `cond_broadcast(&log.work_done)`, and the committer returns. -/
def condBroadcast (s : State T) (t : T) : Option (State T) := do
  let (ws, l) ← s.workDone.postAll
  some { s with
    workDone := l
    thread := fun u =>
      if u = t then { s.thread u with ctx := none, pc := .ready }
      else if u ∈ ws then { s.thread u with ctx := none, pc := .endWoken }
      else s.thread u }

/-! ### Steps -/

/-- The next step of thread `t` inside a call. -/
def resume (sb : SuperBlock) (s : State T) (t : T) (a : ℕ) : Pc → Option (State T)
  | .ready | .wait _ _ | .endWait => none
  | .acquire k n => cacheAcquire s t k n a
  | .load k a => do
    let b ← find a s.blocks
    some { s.goto t (.loaded k a) with
      blocks := update a (fun x => { x with data := s.disk b.blockNo }) s.blocks }
  | .loaded k a =>
    some { s.goto t (k.ret a) with
      blocks := boostFrequency a (update a (fun x => { x with valid := true }) s.blocks) }
  | .woken k a => do
    let b ← find a s.blocks
    some (if b.acquired then waitOn s t k b else take s t k a b.lock)
  | .logNext i =>
    some (s.goto t (if i < s.header.numBlocks then .acquire (.writeLog i) (s.header.blockNo i)
      else .writeHeader))
  | .logWrite i a => do
    let b ← find a s.blocks
    some { s.goto t (.logRelease i a) with
      disk := Function.update s.disk (sb.logStart + i + 1) b.data }
  | .logRelease i a =>
    cacheRelease { s with blocks := update a (fun b => { b with pinned := false }) s.blocks } t a
      (.logNext (i + 1))
  | .writeHeader =>
    some { s.goto t (.ckpt .readHeader) with
      disk := Function.update s.disk sb.logStart s.header.encode }
  | .ckpt .done => condBroadcast s t
  | .ckpt p =>
    let (p, h, d) := spawnCkpt sb s.header s.disk p
    some { s.goto t (.ckpt p) with header := h, disk := d }
  | .endWoken => some (s.goto t .ready)

/-- **One step** of the block cache: a section under a spinlock, or a device access. -/
def step (sb : SuperBlock) (s : State T) : Label T → Option (State T)
  | .beginOp t =>
    if (s.thread t).pc.isReady ∧ (s.thread t).ctx = none then some (cacheBeginOp s t) else none
  | .acquire t n =>
    if (s.thread t).pc.isReady ∧ n < 2 ^ 64 then some (s.goto t (.acquire .client n)) else none
  | .modify t a f =>
    if (s.thread t).pc.isReady then do
      let _ ← find a s.blocks
      some { s with blocks := update a (fun b => { b with data := f b.data }) s.blocks }
    else none
  | .sync t a =>
    if (s.thread t).pc.isReady ∧ a ∈ (s.thread t).held then do
      let rm ← (s.thread t).ctx
      cacheSync s t rm a
    else none
  | .syncNull t a =>
    if (s.thread t).pc.isReady ∧ a ∈ (s.thread t).held then do
      let b ← find a s.blocks
      some { s with disk := Function.update s.disk b.blockNo b.data }
    else none
  | .release t a =>
    if (s.thread t).pc.isReady ∧ a ∈ (s.thread t).held then cacheRelease s t a .ready else none
  | .endOp t =>
    if (s.thread t).pc.isReady ∧ (s.thread t).ctx.isSome then some (cacheEndOp s t) else none
  | .run t a => resume sb s t a (s.thread t).pc

/-! ### The state after `init_bcache` -/

/-- What `init_bcache` leaves behind: an empty cache and an empty log, in memory and on the disk. -/
structure Booted (sb : SuperBlock) (s : State T) : Prop where
  blocks : s.blocks = []
  header : s.header.numBlocks = 0
  disk : LogHeader.numOf (s.disk sb.logStart) = 0
  contributorsCnt : s.contributorsCnt = 0
  workDone : s.workDone = Sem.init 0
  thread : ∀ t, s.thread t = ⟨none, [], .ready⟩

/-- A state after `init_bcache`, on the disk `d`. -/
def boot (d : Disk) : State T where
  blocks := []
  header := ⟨0, fun _ => 0⟩
  contributorsCnt := 0
  workDone := Sem.init 0
  disk := d
  thread _ := ⟨none, [], .ready⟩

omit [DecidableEq T] in
theorem booted_boot {sb : SuperBlock} {d : Disk} (hd : LogHeader.numOf (d sb.logStart) = 0) :
    Booted sb (boot d : State T) :=
  ⟨rfl, rfl, hd, rfl, rfl, fun _ => rfl⟩

/-- A client reads block `n` into a new cached block at the address `n` and logs it. -/
def logBlock (t : T) (n : ℕ) : List (Label T) :=
  [.acquire t n, .run t n, .run t n, .run t n, .sync t n, .release t n]

end OsHonor.Fs.Cache.Machine
