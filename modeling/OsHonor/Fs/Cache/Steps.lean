import OsHonor.Base.Runs
import OsHonor.Fs.Cache.Machine

/-! # What a step of the block cache can do

`Held` says how the blocks and their holders belong together: the list has one block per address and
one per number, a block is `acquired` exactly when a thread holds it, never two, and a held block is in
the list. In a state with `Held` a step is one of the cases of `Step`, each with its guards and its
result written out (`step_cases`). Every invariant of the cache is proved by these cases, `Held` itself
first (`held_step`): it holds in every state of every run. -/

namespace OsHonor.Fs.Cache.Steps

open Option Base.Keyed BlockDevice Lib.Semaphore
open Blocks Machine

variable {T : Type}

/-! ### Holders -/

def workingOn : Pc → Option ℕ
  | .load _ a | .loaded _ a | .logWrite _ a | .logRelease _ a => some a
  | _ => none

/-- The thread sleeps in `cache_end_op`. -/
def inEndWait : Pc → Bool
  | .endWait => true
  | _ => false

/-- **The invariant of the holders.** -/
structure Held (s : State T) : Prop where
  addrs : (s.blocks.map Block.addr).Nodup
  nums : (s.blocks.map Block.blockNo).Nodup
  nodup : ∀ t, (s.thread t).held.Nodup
  live : ∀ t, ∀ a ∈ (s.thread t).held, ∃ b ∈ s.blocks, b.addr = a
  excl : ∀ t u a, a ∈ (s.thread t).held → a ∈ (s.thread u).held → t = u
  acquired : ∀ b ∈ s.blocks, b.acquired = true ↔ ∃ t, b.addr ∈ (s.thread t).held
  working : ∀ t a, workingOn (s.thread t).pc = some a → a ∈ (s.thread t).held
  doneVal : s.workDone.val = -(s.workDone.sleeplist.length : ℤ)
  done : ∀ t, t ∈ s.workDone.sleeplist ↔ inEndWait (s.thread t).pc = true

variable {a : ℕ} {b : Block T} {pc : Pc} {t : T} {l : Label T}

namespace Held

variable {s : State T}

theorem find_iff (h : Held s) :
    find a s.blocks = some b ↔ b ∈ s.blocks ∧ b.addr = a := lookup_eq_some h.addrs

theorem eq_of_addr (h : Held s) {b' : Block T} (hb : b ∈ s.blocks) (hb' : b' ∈ s.blocks)
    (ha : b'.addr = b.addr) : b' = b := List.inj_on_of_nodup_map h.addrs hb' hb ha

theorem eq_of_blockNo (h : Held s) {b' : Block T} (hb : b ∈ s.blocks) (hb' : b' ∈ s.blocks)
    (hn : b'.blockNo = b.blockNo) : b' = b := List.inj_on_of_nodup_map h.nums hb' hb hn

theorem not_held (h : Held s) (hb : b ∈ s.blocks) (ha : b.acquired = false) (t : T) :
    b.addr ∉ (s.thread t).held := by
  intro ht
  have := (h.acquired b hb).mpr ⟨t, ht⟩
  simp [ha] at this

theorem postAll_workDone (h : Held s) :
    s.workDone.postAll = some (s.workDone.sleeplist, ⟨0, []⟩) := by
  have hv : s.workDone = ⟨-(s.workDone.sleeplist.length : ℤ), s.workDone.sleeplist⟩ := by
    rw [← h.doneVal]
  rw [hv]
  exact Sem.postAll_sleepers _

end Held

variable [DecidableEq T]

/-! ### The states after a step -/

/-- `t` goes to sleep on the lock of the block at `a`, which becomes `l`. -/
def sleepOn (s : State T) (t : T) (k : Cont) (a : ℕ) (l : Sem T) : State T :=
  { s.goto t (.wait k a) with blocks := update a (fun b => { b with lock := l }) s.blocks }

/-- `t` has put a new block for `n` at `a` into the cache. -/
def push (s : State T) (t : T) (k : Cont) (n a : ℕ) : State T :=
  { s with
    blocks := evictFull s.blocks ++ [newBlock a n]
    thread := Function.update s.thread t
      { s.thread t with held := a :: (s.thread t).held, pc := .load k a } }

/-- What becomes of a block that is released: `write_log` unpins it first (`keep = false`). -/
def released (keep : Bool) (l : Sem T) (b : Block T) : Block T :=
  { b with pinned := keep && b.pinned, acquired := false, lock := l }

/-- `t` has given the block at `a` back and stands at `pc`; its lock is now `l`. -/
def drop (s : State T) (t : T) (a : ℕ) (keep : Bool) (pc : Pc) (l : Sem T) : State T :=
  { s with
    blocks := update a (released keep l) s.blocks
    thread := Function.update s.thread t
      { s.thread t with held := (s.thread t).held.erase a, pc := pc } }

/-- The sleeper that `post` has taken from the list, if any, is woken. -/
def wakeFirst (s : State T) : Option T → State T
  | none => s
  | some u => wake s u

/-- `t` has opened a log entry for the block `b`. -/
def openEntry (s : State T) (t : T) (rm : ℕ) (b : Block T) : State T :=
  { s with
    header :=
      { numBlocks := s.header.numBlocks + 1
        blockNo := Function.update s.header.blockNo s.header.numBlocks b.blockNo }
    blocks := update b.addr (fun x => { x with pinned := true }) s.blocks
    thread := Function.update s.thread t { s.thread t with ctx := some (rm - 1) } }

/-- The commit is over: the committer returns and the waiting contributors are woken. -/
def committed (s : State T) (t : T) : State T :=
  { s with
    workDone := ⟨0, []⟩
    thread := fun u =>
      if u = t then { s.thread u with ctx := none, pc := .ready }
      else if u ∈ s.workDone.sleeplist then { s.thread u with ctx := none, pc := .endWoken }
      else s.thread u }

/-- How a thread comes to look at the lock of `b`: it has found it in the cache, or it has been woken;
a woken thread goes on with the lock as it is if the block is free. -/
inductive Looks (s : State T) (t : T) (b : Block T) : Cont → Bool × Sem T → Prop
  | hit {k : Cont} : (s.thread t).pc = .acquire k b.blockNo →
      Looks s t b k (waitLoop b.acquired t b.lock.val.toNat b.lock)
  | free {k : Cont} : (s.thread t).pc = .woken k b.addr → b.acquired = false →
      Looks s t b k (true, b.lock)
  | again {k : Cont} : (s.thread t).pc = .woken k b.addr → b.acquired = true →
      Looks s t b k (waitLoop true t b.lock.val.toNat b.lock)

/-- Who may call `cache_release` on the block at `a`: a client, or `write_log`, which unpins the
block first. -/
inductive Releases (s : State T) (t : T) (a : ℕ) : Label T → Bool → Pc → Prop
  | client : (s.thread t).pc = .ready → Releases s t a (.release t a) true .ready
  | writeLog {i a' : ℕ} : (s.thread t).pc = .logRelease i a →
      Releases s t a (.run t a') false (.logNext (i + 1))

/-- **The steps**, from a state with `Held`. -/
inductive Step (sb : SuperBlock) (s : State T) : Label T → State T → Prop
  | beginOp {t : T} : (s.thread t).pc = .ready → (s.thread t).ctx = none →
      Step sb s (.beginOp t) (cacheBeginOp s t)
  | acquire {t : T} {n : ℕ} : (s.thread t).pc = .ready → n < 2 ^ 64 →
      Step sb s (.acquire t n) (s.goto t (.acquire .client n))
  | modify {t : T} {b : Block T} {f : BlockData → BlockData} : (s.thread t).pc = .ready →
      b ∈ s.blocks →
      Step sb s (.modify t b.addr f)
        { s with blocks := update b.addr (fun x => { x with data := f x.data }) s.blocks }
  | syncOld {t : T} {b : Block T} : (s.thread t).pc = .ready → (s.thread t).ctx.isSome →
      b ∈ s.blocks → b.addr ∈ (s.thread t).held → b.blockNo ∈ s.header.logged →
      Step sb s (.sync t b.addr) s
  | syncNew {t : T} {b : Block T} {rm : ℕ} : (s.thread t).pc = .ready →
      (s.thread t).ctx = some rm → b ∈ s.blocks → b.addr ∈ (s.thread t).held →
      b.blockNo ∉ s.header.logged → 0 < rm → Step sb s (.sync t b.addr) (openEntry s t rm b)
  | syncNull {t : T} {b : Block T} : (s.thread t).pc = .ready → b ∈ s.blocks →
      b.addr ∈ (s.thread t).held →
      Step sb s (.syncNull t b.addr) { s with disk := Function.update s.disk b.blockNo b.data }
  | endWait {t : T} : (s.thread t).pc = .ready → (s.thread t).ctx.isSome →
      1 < s.contributorsCnt →
      Step sb s (.endOp t)
        { s.goto t .endWait with
          contributorsCnt := s.contributorsCnt - 1
          workDone := ⟨s.workDone.val - 1, s.workDone.sleeplist ++ [t]⟩ }
  | endCommit {t : T} : (s.thread t).pc = .ready → (s.thread t).ctx.isSome →
      s.contributorsCnt ≤ 1 →
      Step sb s (.endOp t)
        { s.goto t (.logNext 0) with contributorsCnt := s.contributorsCnt - 1 }
  | take {t : T} {k : Cont} {a : ℕ} {b : Block T} {l : Sem T} : b ∈ s.blocks →
      Looks s t b k (true, l) → b.acquired = false → Step sb s (.run t a) (take s t k b.addr l)
  | sleep {t : T} {k : Cont} {a : ℕ} {b : Block T} {l : Sem T} : b ∈ s.blocks →
      Looks s t b k (false, l) → Step sb s (.run t a) (sleepOn s t k b.addr l)
  | miss {t : T} {k : Cont} {n a : ℕ} : (s.thread t).pc = .acquire k n →
      (∀ b ∈ s.blocks, b.blockNo ≠ n) → (∀ b ∈ evictFull s.blocks, b.addr ≠ a) →
      Step sb s (.run t a) (push s t k n a)
  | load {t : T} {k : Cont} {a : ℕ} {b : Block T} : (s.thread t).pc = .load k b.addr →
      b ∈ s.blocks →
      Step sb s (.run t a)
        { s.goto t (.loaded k b.addr) with
          blocks := update b.addr (fun x => { x with data := s.disk b.blockNo }) s.blocks }
  | loaded {t : T} {k : Cont} {a : ℕ} {b : Block T} : (s.thread t).pc = .loaded k b.addr →
      b ∈ s.blocks →
      Step sb s (.run t a)
        { s.goto t (k.ret b.addr) with
          blocks := boostFrequency b.addr (update b.addr (fun x => { x with valid := true }) s.blocks) }
  | logNext {t : T} {i a : ℕ} : (s.thread t).pc = .logNext i → i < s.header.numBlocks →
      Step sb s (.run t a) (s.goto t (.acquire (.writeLog i) (s.header.blockNo i)))
  | logDone {t : T} {i a : ℕ} : (s.thread t).pc = .logNext i → s.header.numBlocks ≤ i →
      Step sb s (.run t a) (s.goto t .writeHeader)
  | logWrite {t : T} {i a : ℕ} {b : Block T} : (s.thread t).pc = .logWrite i b.addr →
      b ∈ s.blocks →
      Step sb s (.run t a)
        { s.goto t (.logRelease i b.addr) with
          disk := Function.update s.disk (sb.logStart + i + 1) b.data }
  | release {t : T} {l : Label T} {b : Block T} {keep : Bool} {pc : Pc} {w : Option T} {lk : Sem T} :
      Releases s t b.addr l keep pc → b ∈ s.blocks → b.addr ∈ (s.thread t).held →
      b.lock.post = some (w, lk) → Step sb s l (wakeFirst (drop s t b.addr keep pc lk) w)
  | writeHeader {t : T} {a : ℕ} : (s.thread t).pc = .writeHeader →
      Step sb s (.run t a)
        { s.goto t (.ckpt .readHeader) with
          disk := Function.update s.disk sb.logStart s.header.encode }
  | ckpt {t : T} {a : ℕ} {p p' : CkptPc} {h : LogHeader} {d : Disk} :
      (s.thread t).pc = .ckpt p → p ≠ .done → spawnCkpt sb s.header s.disk p = (p', h, d) →
      Step sb s (.run t a) { s.goto t (.ckpt p') with header := h, disk := d }
  | broadcast {t : T} {a : ℕ} : (s.thread t).pc = .ckpt .done →
      Step sb s (.run t a) (committed s t)
  | endWoken {t : T} {a : ℕ} : (s.thread t).pc = .endWoken →
      Step sb s (.run t a) (s.goto t .ready)

variable {sb : SuperBlock} {s s' : State T}

theorem wakeFirst_thread (s : State T) (w : Option T) (u : T) :
    (wakeFirst s w).thread u = s.thread u ∨ ∃ k a, (s.thread u).pc = .wait k a ∧
      (wakeFirst s w).thread u = { s.thread u with pc := .woken k a } := by
  rcases w with _ | v
  · exact Or.inl rfl
  · simp only [wakeFirst, wake]
    split
    · next k a hpc =>
      by_cases huv : u = v
      · subst huv
        exact Or.inr ⟨k, a, hpc, by simp [State.goto]⟩
      · exact Or.inl (by simp [State.goto, huv])
    · exact Or.inl rfl

theorem wakeFirst_eq (s : State T) (w : Option T) :
    wakeFirst s w = { s with thread := (wakeFirst s w).thread } := by
  rcases w with _ | v
  · rfl
  · simp only [wakeFirst, wake]
    split <;> rfl

@[simp] theorem wakeFirst_blocks (w : Option T) : (wakeFirst s w).blocks = s.blocks := by
  rw [wakeFirst_eq]

@[simp] theorem wakeFirst_header (w : Option T) : (wakeFirst s w).header = s.header := by
  rw [wakeFirst_eq]

@[simp] theorem wakeFirst_disk (w : Option T) : (wakeFirst s w).disk = s.disk := by
  rw [wakeFirst_eq]

@[simp] theorem wakeFirst_contributorsCnt (w : Option T) :
    (wakeFirst s w).contributorsCnt = s.contributorsCnt := by
  rw [wakeFirst_eq]

@[simp] theorem wakeFirst_workDone (w : Option T) : (wakeFirst s w).workDone = s.workDone := by
  rw [wakeFirst_eq]

/-! ### Every step is one of the cases -/

theorem eq_ready (h : pc.isReady = true) : pc = .ready := by
  cases pc <;> simp_all [Pc.isReady]

omit [DecidableEq T] in
theorem waitLoop_acquired {n : ℕ} : ∀ {l l' : Sem T}, l.val.toNat = n →
    waitLoop true t n l = (true, l') → False := by
  induction n with
  | zero =>
    intro l l' hn hw
    rw [waitLoop, Sem.condWait_of_nonpos t (by omega)] at hw
    simp at hw
  | succ n ih =>
    intro l l' hn hw
    rw [waitLoop, Sem.condWait_of_pos t (by omega)] at hw
    exact ih (by simp; omega) hw

/-- The state in which the block at `a` is no longer pinned, unless `keep` is set. -/
def unpin (s : State T) (a : ℕ) (keep : Bool) : State T :=
  { s with blocks := update a (fun x => { x with pinned := keep && x.pinned }) s.blocks }

theorem release_cases (h : Held s) {keep : Bool}
    (hr : Releases s t b.addr l keep pc) (hb : b ∈ s.blocks) (ht : b.addr ∈ (s.thread t).held)
    (hs : cacheRelease (unpin s b.addr keep) t b.addr pc = some s') : Step sb s l s' := by
  have hfind : find b.addr (update b.addr (fun x => { x with pinned := keep && x.pinned }) s.blocks) =
      some { b with pinned := keep && b.pinned } := by
    refine (lookup_eq_some ?_).mpr ⟨mem_modifyAt_self hb rfl, rfl⟩
    rw [map_update Block.addr]
    · exact h.addrs
    · exact fun x _ => rfl
  have hacq : b.acquired = true := (h.acquired b hb).mpr ⟨t, ht⟩
  have hupd : ∀ lk : Sem T, update b.addr (fun x => { x with acquired := false, lock := lk })
      (update b.addr (fun x => { x with pinned := keep && x.pinned }) s.blocks) =
        update b.addr (released keep lk) s.blocks := by
    intro lk
    simp only [update, modifyAt, List.map_map]
    refine List.map_congr_left fun x _ => ?_
    by_cases hx : x.addr = b.addr
    · simp [hx, released]
    · simp [hx]
  unfold cacheRelease unpin at hs
  simp only [hfind, bind_eq_bind, bind_some, hacq, if_true, hupd] at hs
  obtain ⟨⟨w, lk⟩, hp, hs⟩ := bind_eq_some_iff.mp hs
  have hs' : s' = wakeFirst (drop s t b.addr keep pc lk) w := by
    cases w <;> exact (some.inj hs).symm
  rw [hs']
  exact .release hr hb ht hp

theorem waitOn_cases {k : Cont} (hb : b ∈ s.blocks)
    (hl : Looks s t b k (waitLoop b.acquired t b.lock.val.toNat b.lock)) :
    Step sb s (.run t a) (waitOn s t k b) := by
  rcases hw : waitLoop b.acquired t b.lock.val.toNat b.lock with ⟨r, l⟩
  rw [hw] at hl
  simp only [waitOn, hw]
  rcases r with _ | _
  · exact .sleep hb hl
  · refine .take hb hl ?_
    by_contra hacq
    rw [Bool.not_eq_false] at hacq
    rw [hacq] at hw
    exact waitLoop_acquired rfl hw

theorem resume_cases (h : Held s) (hpc : (s.thread t).pc = pc)
    (hs : resume sb s t a pc = some s') : Step sb s (.run t a) s' := by
  cases pc with
  | ready => simp [resume] at hs
  | wait k a => simp [resume] at hs
  | endWait => simp [resume] at hs
  | acquire k n =>
    simp only [resume, cacheAcquire] at hs
    split at hs
    · next b hf =>
      obtain ⟨hb, rfl⟩ := fetchCached_some hf
      rw [← some.inj hs]
      exact waitOn_cases hb (.hit hpc)
    · next hf =>
      split_ifs at hs with ha
      rw [← some.inj hs]
      refine .miss hpc (fetchCached_none.mp hf) fun b hb hab => ha ?_
      exact List.mem_map.mpr ⟨b, hb, hab⟩
  | load k a =>
    simp only [resume, bind_eq_bind, bind_eq_some_iff, h.find_iff] at hs
    obtain ⟨b, ⟨hb, rfl⟩, hs⟩ := hs
    rw [← some.inj hs]
    exact .load hpc hb
  | loaded k a =>
    obtain ⟨b, hb, rfl⟩ := h.live t a (h.working t a (by rw [hpc]; rfl))
    rw [← some.inj hs]
    exact .loaded hpc hb
  | woken k a =>
    simp only [resume, bind_eq_bind, bind_eq_some_iff, h.find_iff] at hs
    obtain ⟨b, ⟨hb, rfl⟩, hs⟩ := hs
    rw [← some.inj hs]
    split_ifs with hacq
    · exact waitOn_cases hb (by rw [hacq]; exact .again hpc hacq)
    · rw [Bool.not_eq_true] at hacq
      exact .take hb (.free hpc hacq) hacq
  | logNext i =>
    rw [← some.inj hs]
    split_ifs with hi
    · exact .logNext hpc hi
    · exact .logDone hpc (by omega)
  | logWrite i a =>
    simp only [resume, bind_eq_bind, bind_eq_some_iff, h.find_iff] at hs
    obtain ⟨b, ⟨hb, rfl⟩, hs⟩ := hs
    rw [← some.inj hs]
    exact .logWrite hpc hb
  | logRelease i a =>
    have ht := h.working t a (by rw [hpc]; rfl)
    obtain ⟨b, hb, rfl⟩ := h.live t a ht
    refine release_cases h (Releases.writeLog hpc) hb ht ?_
    simpa [resume, unpin] using hs
  | writeHeader =>
    rw [← some.inj hs]
    exact .writeHeader hpc
  | ckpt p =>
    by_cases hp : p = .done
    · subst hp
      simp only [resume, condBroadcast, h.postAll_workDone, bind_eq_bind, bind_some] at hs
      rw [← some.inj hs]
      exact .broadcast hpc
    · obtain ⟨p', h', d', hc⟩ : ∃ p' h' d', spawnCkpt sb s.header s.disk p = (p', h', d') :=
        ⟨_, _, _, rfl⟩
      have hs' : resume sb s t a (.ckpt p) =
          some { s.goto t (.ckpt p') with header := h', disk := d' } := by
        cases p <;> simp_all [resume]
      rw [hs'] at hs
      rw [← some.inj hs]
      exact .ckpt hpc hp hc
  | endWoken =>
    rw [← some.inj hs]
    exact .endWoken hpc

/-- **The inversion of a step.** -/
theorem step_cases (h : Held s) (hs : step sb s l = some s') : Step sb s l s' := by
  cases l with
  | beginOp t =>
    simp only [step] at hs
    split_ifs at hs with hg
    rw [← some.inj hs]
    exact .beginOp (eq_ready hg.1) hg.2
  | acquire t n =>
    simp only [step] at hs
    split_ifs at hs with hg
    rw [← some.inj hs]
    exact .acquire (eq_ready hg.1) hg.2
  | modify t a f =>
    simp only [step] at hs
    split_ifs at hs with hg
    simp only [bind_eq_bind, bind_eq_some_iff, h.find_iff] at hs
    obtain ⟨b, ⟨hb, rfl⟩, hs⟩ := hs
    rw [← some.inj hs]
    exact .modify (eq_ready hg) hb
  | sync t a =>
    simp only [step] at hs
    split_ifs at hs with hg
    simp only [bind_eq_bind, bind_eq_some_iff, cacheSync, h.find_iff] at hs
    obtain ⟨rm, hrm, b, ⟨hb, rfl⟩, hs⟩ := hs
    split_ifs at hs with h1 h2
    · rw [← some.inj hs]
      exact .syncOld (eq_ready hg.1) (by rw [hrm]; rfl) hb hg.2 h1
    · rw [← some.inj hs]
      exact .syncNew (eq_ready hg.1) hrm hb hg.2 h1 (by omega)
  | syncNull t a =>
    simp only [step] at hs
    split_ifs at hs with hg
    simp only [bind_eq_bind, bind_eq_some_iff, h.find_iff] at hs
    obtain ⟨b, ⟨hb, rfl⟩, hs⟩ := hs
    rw [← some.inj hs]
    exact .syncNull (eq_ready hg.1) hb hg.2
  | release t a =>
    simp only [step] at hs
    split_ifs at hs with hg
    obtain ⟨b, hb, rfl⟩ := h.live t a hg.2
    refine release_cases h (Releases.client (eq_ready hg.1)) hb hg.2 ?_
    have hid : unpin s b.addr true = s := by simp [unpin, update, modifyAt]
    rw [hid]
    exact hs
  | endOp t =>
    simp only [step] at hs
    split_ifs at hs with hg
    rw [← some.inj hs, cacheEndOp]
    have hv : s.workDone.val ≤ 0 := by rw [h.doneVal]; omega
    split_ifs with hc
    · rw [Sem.condWait_of_nonpos t hv]
      exact .endWait (eq_ready hg.1) hg.2 (by omega)
    · exact .endCommit (eq_ready hg.1) hg.2 (by omega)
  | run t a => exact resume_cases h rfl hs

/-- **What a step does to the other threads**: nothing, except that a release may wake one that sleeps
on a lock and a commit wakes those that sleep in `cache_end_op`. -/
theorem step_frame (h : Step sb s l s') {u : T} (hu : u ≠ l.actor) : s'.thread u = s.thread u ∨
    (∃ k a, (s.thread u).pc = .wait k a ∧ s'.thread u = { s.thread u with pc := .woken k a }) ∨
    ((s.thread l.actor).pc = .ckpt .done ∧ u ∈ s.workDone.sleeplist ∧
      s'.thread u = { s.thread u with ctx := none, pc := .endWoken }) := by
  cases h with
  | modify | syncOld | syncNull => exact Or.inl rfl
  | beginOp | acquire | syncNew | endWait | endCommit | take | sleep | miss | load | loaded | logNext
  | logDone | logWrite | writeHeader | ckpt | endWoken => exact Or.inl (Function.update_of_ne hu ..)
  | @release t l b keep pc w lk hr =>
    have hut : u ≠ t := by
      rcases hr with _ | _ <;> exact hu
    have hth : (drop s t b.addr keep pc lk).thread u = s.thread u := Function.update_of_ne hut ..
    rcases wakeFirst_thread (drop s t b.addr keep pc lk) w u with he | ⟨k, a, hpc, he⟩
    · exact Or.inl (he.trans hth)
    · rw [hth] at hpc he
      exact Or.inr (Or.inl ⟨k, a, hpc, he⟩)
  | @broadcast t a hp =>
    have hut : u ≠ t := hu
    by_cases hd : u ∈ s.workDone.sleeplist
    · exact Or.inr (Or.inr ⟨hp, hd, by simp [committed, hut, hd]⟩)
    · exact Or.inl (by simp [committed, hut, hd])

theorem release_self {keep : Bool} (hr : Releases s t a l keep pc) (lk : Sem T) (w : Option T) :
    (wakeFirst (drop s t a keep pc lk) w).thread t =
      { s.thread t with held := (s.thread t).held.erase a, pc := pc } := by
  have hth : (drop s t a keep pc lk).thread t =
      { s.thread t with held := (s.thread t).held.erase a, pc := pc } := Function.update_self ..
  rcases wakeFirst_thread (drop s t a keep pc lk) w t with he | ⟨k, c, hpc, -⟩
  · rw [he, hth]
  · rw [hth] at hpc
    rcases hr with _ | _ <;> simp at hpc

end OsHonor.Fs.Cache.Steps
