import OsHonor.Fs.Cache.Exhaustion

/-! # Concurrent allocation

Any number of clients call `cache_alloc` and `cache_free`. A client that has acquired a block holds it until it
releases it, and nobody else can acquire it meanwhile; the calls of different clients are interleaved in any
way. A client may also store into a block that has been given out.

A client that has found a clear bit holds the bitmap block, so the bit stays clear until the client sets it
(`Good`, which says for each place in the code what the client has in hand). So no block is given out twice
(`no_double_allocation`). -/

namespace OsHonor.Fs.Cache.Allocation

open Finset Option Function Base.Programs Base.Runs BlockDevice Client
open Bitmap

variable {T : Type} [DecidableEq T]

/-! ### The machine -/

/-- What a client is doing: the rest of its call. -/
inductive Task
  | idle
  | alloc (p : CacheProg ℕ)
  | free (n : ℕ) (p : CacheProg Unit)

/-- The contents of the blocks, who holds a block, what the clients do, and the blocks that have been returned by
`cache_alloc` and not been freed since. -/
structure State (T : Type) where
  cur : Disk
  holder : ℕ → Option T
  task : T → Task
  live : Finset ℕ

/-- The calls of the cache, made by client `t`. A client waits for a block that is held. The quota of a
transaction is left out: a call of `cache_sync` that does not panic returns. -/
def call (s : State T) (t : T) : (c : Call) → Option (c.Resp × State T)
  | .acquire n =>
    if s.holder n = none then some (s.cur n, { s with holder := update s.holder n (some t) }) else none
  | .modify n f =>
    if s.holder n = some t then some ((), { s with cur := update s.cur n (f (s.cur n)) }) else none
  | .sync n => if s.holder n = some t then some ((), s) else none
  | .release n =>
    if s.holder n = some t then some ((), { s with holder := update s.holder n none }) else none
  | .beginOp | .endOp => none

inductive Label (T : Type)
  | alloc (t : T) (rm : ℕ)
  | free (t : T) (n : ℕ)
  | run (t : T)
  | store (n : ℕ) (d : BlockData)

/-- **One step**: a client begins a call, it goes on with it, or a block that has been given out is stored into.
A block is freed only if it has been returned and not been freed since; a call that panics does not go on. -/
def step (sb : SuperBlock) (s : State T) : Label T → Option (State T)
  | .alloc t rm =>
    match s.task t with
    | .idle => some { s with task := update s.task t (.alloc (cacheAlloc sb rm)) }
    | _ => none
  | .free t n =>
    match s.task t with
    | .idle =>
      if n ∈ s.live then
        some { s with live := s.live.erase n, task := update s.task t (.free n (cacheFree sb n)) }
      else none
    | _ => none
  | .run t =>
    match s.task t with
    | .idle => none
    | .alloc (.pure n) => some { s with live := insert n s.live, task := update s.task t .idle }
    | .alloc (.call c k) =>
      (call s t c).map fun r => { r.2 with task := update r.2.task t (.alloc (k r.1)) }
    | .alloc .fail => none
    | .free _ (.pure _) => some { s with task := update s.task t .idle }
    | .free n (.call c k) =>
      (call s t c).map fun r => { r.2 with task := update r.2.task t (.free n (k r.1)) }
    | .free _ .fail => none
  | .store n d =>
    if n ∈ s.live ∧ s.holder n = none then some { s with cur := update s.cur n d } else none

/-- **An image** whose bitmap marks the metadata blocks `M`, and clients that have not begun. -/
structure Start (sb : SuperBlock) (M : Set ℕ) (s : State T) : Prop where
  marks : ∀ n < sb.numBlocks, marked sb s.cur n = true ↔ n ∈ M
  holder : ∀ n, s.holder n = none
  task : ∀ t, s.task t = .idle
  live : s.live = ∅

/-- A call for block `n` is in progress: it will be returned, or it is being freed. -/
def InFlight (s : State T) (n : ℕ) : Prop :=
  (∃ t p, s.task t = .alloc p ∧ p.Returns n) ∨ ∃ t p, s.task t = .free n p

/-! ### Places in the code -/

/-- The places in `claim`, named by what has been done. -/
inductive Phase
  | found
  | acquired
  | zeroed
  | logged
  | marked
  | markLogged
  | released
  | done

/-- The places in `cache_free`. -/
inductive FreePhase
  | begun
  | acquired
  | cleared
  | logged
  | done

inductive Pc
  | idle
  | scan (fuel i : ℕ)
  | skip (fuel i : ℕ)
  | giveUp (i : ℕ)
  | panic
  | claim (ph : Phase) (i j : ℕ)
  | free (ph : FreePhase) (n : ℕ)

section Code

variable (sb : SuperBlock)

/-- The rest of `claim`. -/
def claimCode (i j : ℕ) : Phase → CacheProg ℕ
  | .found => claim sb i j
  | .acquired => do
    modify (i * bitPerBlock + j) fun _ _ => 0
    sync (i * bitPerBlock + j)
    modify (sb.bitmapStart + i) fun bm => bitmapSet bm j
    sync (sb.bitmapStart + i)
    release (i * bitPerBlock + j)
    release (sb.bitmapStart + i)
    pure (i * bitPerBlock + j)
  | .zeroed => do
    sync (i * bitPerBlock + j)
    modify (sb.bitmapStart + i) fun bm => bitmapSet bm j
    sync (sb.bitmapStart + i)
    release (i * bitPerBlock + j)
    release (sb.bitmapStart + i)
    pure (i * bitPerBlock + j)
  | .logged => do
    modify (sb.bitmapStart + i) fun bm => bitmapSet bm j
    sync (sb.bitmapStart + i)
    release (i * bitPerBlock + j)
    release (sb.bitmapStart + i)
    pure (i * bitPerBlock + j)
  | .marked => do
    sync (sb.bitmapStart + i)
    release (i * bitPerBlock + j)
    release (sb.bitmapStart + i)
    pure (i * bitPerBlock + j)
  | .markLogged => do
    release (i * bitPerBlock + j)
    release (sb.bitmapStart + i)
    pure (i * bitPerBlock + j)
  | .released => do
    release (sb.bitmapStart + i)
    pure (i * bitPerBlock + j)
  | .done => pure (i * bitPerBlock + j)

/-- The rest of `cache_free`. -/
def freeCode (n : ℕ) : FreePhase → CacheProg Unit
  | .begun => cacheFree sb n
  | .acquired => do
    modify (n / bitPerBlock + sb.bitmapStart) fun bm => bitmapClear bm (n % bitPerBlock)
    sync (n / bitPerBlock + sb.bitmapStart)
    release (n / bitPerBlock + sb.bitmapStart)
  | .cleared => do
    sync (n / bitPerBlock + sb.bitmapStart)
    release (n / bitPerBlock + sb.bitmapStart)
  | .logged => release (n / bitPerBlock + sb.bitmapStart)
  | .done => pure ()

def code : Pc → Task
  | .idle => .idle
  | .scan fuel i => .alloc (cacheAllocLoop sb fuel i)
  | .skip fuel i => .alloc (do release (sb.bitmapStart + i); cacheAllocLoop sb fuel (i + 1))
  | .giveUp i => .alloc (do release (sb.bitmapStart + i); .fail)
  | .panic => .alloc .fail
  | .claim ph i j => .alloc (claimCode sb i j ph)
  | .free ph n => .free n (freeCode sb n ph)

end Code

def Pc.block : Pc → Option ℕ
  | .claim _ i j => some (i * bitPerBlock + j)
  | .free .begun n | .free .acquired n => some n
  | _ => none

def Pc.isSet : Pc → Bool
  | .claim .marked _ _ | .claim .markLogged _ _ | .claim .released _ _ | .claim .done _ _ => true
  | .free .begun _ | .free .acquired _ => true
  | _ => false

/-- It has been found and its bit has not been set yet: the client holds the bitmap block. -/
def Pc.searching : Pc → Bool
  | .claim .found _ _ | .claim .acquired _ _ | .claim .zeroed _ _ | .claim .logged _ _ => true
  | _ => false

def Pc.isZero : Pc → Bool
  | .claim .found _ _ | .claim .acquired _ _ => false
  | .claim _ _ _ => true
  | _ => false

/-- **The invariant**, for the places `pc` of the clients. -/
structure Good (sb : SuperBlock) (M : Set ℕ) (s : State T) (pc : T → Pc) : Prop where
  task : ∀ t, s.task t = code sb (pc t)
  marks : ∀ n < sb.numBlocks, marked sb s.cur n = true ↔
    n ∈ M ∨ n ∈ s.live ∨ ∃ t, (pc t).block = some n ∧ (pc t).isSet = true
  live : ∀ n ∈ s.live, n < sb.numBlocks ∧ n ∉ M
  block : ∀ t n, (pc t).block = some n → n < sb.numBlocks ∧ n ∉ M ∧ n ∉ s.live
  distinct : ∀ t u n, (pc t).block = some n → (pc u).block = some n → t = u
  bit : ∀ t ph i j, pc t = .claim ph i j → j < bitPerBlock
  holds : ∀ t n, (pc t).block = some n → (pc t).searching = true → s.holder (bitmapBlock sb n) = some t
  zero : ∀ t n, (pc t).block = some n → (pc t).isZero = true → s.cur n = fun _ => 0

/-! ### Steps -/

variable {b : ℕ} {r : Unit × State T}

section Steps

variable {sb : SuperBlock} {M : Set ℕ} {s s' : State T} {pc : T → Pc} {t : T} {i j n : ℕ}

theorem Pc.isSet_or_searching {p : Pc} (h : p.block = some n) : p.isSet = true ∨ p.searching = true := by
  cases p with
  | idle | scan _ _ | skip _ _ | giveUp _ | panic => cases h
  | claim ph i j => cases ph <;> simp [isSet, searching]
  | free ph m =>
    cases ph with
    | begun | acquired => exact Or.inl rfl
    | cleared | logged | done => cases h

/-- **A step of client `t`**, after which it stands at `p`: what is to be shown. -/
theorem Good.change (h : Good sb M s pc) (t : T) (p : Pc)
    (htask : s'.task = update s.task t (code sb p))
    (hmarks : ∀ n < sb.numBlocks, marked sb s'.cur n = true ↔ n ∈ M ∨ n ∈ s'.live ∨
      (∃ u, u ≠ t ∧ (pc u).block = some n ∧ (pc u).isSet = true) ∨ (p.block = some n ∧ p.isSet = true))
    (hlive : ∀ n ∈ s'.live, n < sb.numBlocks ∧ n ∉ M)
    (hself : ∀ n, p.block = some n → n < sb.numBlocks ∧ n ∉ M ∧ n ∉ s'.live)
    (hother : ∀ u n, u ≠ t → (pc u).block = some n → n ∉ s'.live ∧ p.block ≠ some n)
    (hbit : ∀ ph i j, p = .claim ph i j → j < bitPerBlock)
    (hsearch : ∀ n, p.block = some n → p.searching = true → s'.holder (bitmapBlock sb n) = some t)
    (hholder : ∀ b u, u ≠ t → s.holder b = some u → s'.holder b = some u)
    (hzero : ∀ n, p.block = some n → p.isZero = true → s'.cur n = fun _ => 0)
    (hkeep : ∀ u n, u ≠ t → (pc u).block = some n → (s.cur n = fun _ => 0) → s'.cur n = fun _ => 0) :
    Good sb M s' (update pc t p) := by
  have hat : ∀ {u}, u ≠ t → update pc t p u = pc u := fun hu => update_of_ne hu _ _
  refine ⟨fun u => ?_, fun n hn => ?_, hlive, fun u n hb => ?_, fun u v n hu hv => ?_, fun u ph i j hu => ?_,
    fun u n hb hs => ?_, fun u n hb hz => ?_⟩
  · rw [htask]
    by_cases hu : u = t
    · rw [hu, update_self, update_self]
    · rw [hat hu, update_of_ne hu, h.task]
  · rw [hmarks n hn]
    refine or_congr_right (or_congr_right ⟨?_, ?_⟩)
    · rintro (⟨u, hu, hb⟩ | hb)
      · exact ⟨u, by rwa [hat hu]⟩
      · exact ⟨t, by rwa [update_self]⟩
    · rintro ⟨u, hb⟩
      by_cases hu : u = t
      · rw [hu, update_self] at hb
        exact Or.inr hb
      · rw [hat hu] at hb
        exact Or.inl ⟨u, hu, hb⟩
  · by_cases hu : u = t
    · rw [hu, update_self] at hb
      exact hself n hb
    · rw [hat hu] at hb
      obtain ⟨hlt, hM, -⟩ := h.block u n hb
      exact ⟨hlt, hM, (hother u n hu hb).1⟩
  · by_cases hut : u = t <;> by_cases hvt : v = t
    · rw [hut, hvt]
    · rw [hut, update_self] at hu
      rw [hat hvt] at hv
      exact absurd hu (hother v n hvt hv).2
    · rw [hvt, update_self] at hv
      rw [hat hut] at hu
      exact absurd hv (hother u n hut hu).2
    · rw [hat hut] at hu
      rw [hat hvt] at hv
      exact h.distinct u v n hu hv
  · by_cases hut : u = t
    · rw [hut, update_self] at hu
      exact hbit ph i j hu
    · rw [hat hut] at hu
      exact h.bit u ph i j hu
  · by_cases hut : u = t
    · rw [hut, update_self] at hb hs
      rw [hut]
      exact hsearch n hb hs
    · rw [hat hut] at hb hs
      exact hholder _ u hut (h.holds u n hb hs)
  · by_cases hut : u = t
    · rw [hut, update_self] at hb hz
      exact hzero n hb hz
    · rw [hat hut] at hb hz
      exact hkeep u n hut hb (h.zero u n hb hz)

theorem Good.marks_split (h : Good sb M s pc) (t : T) (hn : n < sb.numBlocks) : marked sb s.cur n = true ↔
    n ∈ M ∨ n ∈ s.live ∨ (∃ u, u ≠ t ∧ (pc u).block = some n ∧ (pc u).isSet = true) ∨
      ((pc t).block = some n ∧ (pc t).isSet = true) := by
  rw [h.marks n hn]
  refine or_congr_right (or_congr_right ⟨?_, ?_⟩)
  · rintro ⟨u, hb⟩
    by_cases hu : u = t
    · rw [hu] at hb
      exact Or.inr hb
    · exact Or.inl ⟨u, hu, hb⟩
  · rintro (⟨u, -, hb⟩ | hb)
    · exact ⟨u, hb⟩
    · exact ⟨t, hb⟩

theorem Good.move (h : Good sb M s pc) (t : T) (p : Pc) (htask : s'.task = update s.task t (code sb p))
    (hcur : s'.cur = s.cur) (hlive : s'.live = s.live) (hblock : p.block = (pc t).block)
    (hset : p.isSet = (pc t).isSet) (hzero : p.isZero = true → (pc t).isZero = true)
    (hbit : ∀ ph i j, p = .claim ph i j → j < bitPerBlock)
    (hsearch : ∀ n, p.block = some n → p.searching = true → s'.holder (bitmapBlock sb n) = some t)
    (hholder : ∀ b u, u ≠ t → s.holder b = some u → s'.holder b = some u) :
    Good sb M s' (update pc t p) := by
  refine h.change t p htask (fun n hn => ?_) ?_ ?_ ?_ hbit hsearch hholder ?_ ?_
  · rw [hcur, hlive, hblock, hset]
    exact h.marks_split t hn
  · rw [hlive]
    exact h.live
  · rw [hlive, hblock]
    exact h.block t
  · intro u n hu hb
    rw [hlive, hblock]
    exact ⟨(h.block u n hb).2.2, fun ht => hu (h.distinct u t n hb ht)⟩
  · rw [hcur, hblock]
    exact fun n hb hz => h.zero t n hb (hzero hz)
  · rw [hcur]
    exact fun _ _ _ _ hz => hz

/-! ### The calls -/

theorem call_acquire {r : BlockData × State T} (h : call s t (.acquire b) = some r) :
    s.holder b = none ∧ r = (s.cur b, { s with holder := update s.holder b (some t) }) := by
  simp only [call] at h
  split_ifs at h with hb
  exact ⟨hb, (some.inj h).symm⟩

theorem call_modify {f : BlockData → BlockData} (h : call s t (.modify b f) = some r) :
    s.holder b = some t ∧ r.2 = { s with cur := update s.cur b (f (s.cur b)) } := by
  simp only [call] at h
  split_ifs at h with hb
  exact ⟨hb, by rw [← some.inj h]⟩

theorem call_sync (h : call s t (.sync b) = some r) : r.2 = s := by
  simp only [call] at h
  split_ifs at h with hb
  rw [← some.inj h]

omit [DecidableEq T] in
theorem holder_update {b' : ℕ} {o : Option T} {u : T} (hu : u ≠ t) (hb : s.holder b = none ∨ s.holder b = some t)
    (h : s.holder b' = some u) : update s.holder b o b' = some u := by
  have hne : b' ≠ b := by
    rintro rfl
    rcases hb with hb | hb
    · rw [hb] at h
      cases h
    · rw [hb] at h
      exact hu (some.inj h).symm
  rw [update_of_ne hne, h]

theorem call_quiet {c : Call} {r : c.Resp × State T} (hc : ∀ b f, c ≠ .modify b f) (h : call s t c = some r) :
    r.2.cur = s.cur ∧ r.2.live = s.live ∧ r.2.task = s.task ∧
      ∀ b u, u ≠ t → s.holder b = some u → r.2.holder b = some u := by
  cases c with
  | acquire n =>
    obtain ⟨hfree, rfl⟩ := call_acquire h
    exact ⟨rfl, rfl, rfl, fun b u hu hb => holder_update hu (Or.inl hfree) hb⟩
  | modify n f => exact absurd rfl (hc n f)
  | sync n =>
    rw [call_sync h]
    exact ⟨rfl, rfl, rfl, fun _ _ _ hb => hb⟩
  | release n =>
    simp only [call] at h
    split_ifs at h with hheld
    cases h
    exact ⟨rfl, rfl, rfl, fun b u hu hb => holder_update hu (Or.inr hheld) hb⟩
  | beginOp | endOp => cases h

/-- The code at `q` is the call `c`, and then the code at `p`. -/
def Calls (sb : SuperBlock) (q : Pc) (c : Call) (p : c.Resp → Pc) : Prop :=
  (∃ k, code sb q = .alloc (.call c k) ∧ ∀ r, code sb (p r) = .alloc (k r)) ∨
    ∃ n k, code sb q = .free n (.call c k) ∧ ∀ r, code sb (p r) = .free n (k r)

section Run

variable {q : Pc} {c : Call} (h : Good sb M s pc) (hp : pc t = q) (hs : step sb s (.run t) = some s')
include h hp hs

theorem Good.run {p : c.Resp → Pc} (hc : Calls sb q c p) : ∃ r, call s t c = some r ∧
    s' = { r.2 with task := update r.2.task t (code sb (p r.1)) } := by
  have ht := h.task t
  rw [hp] at ht
  rcases hc with ⟨k, hk, hnext⟩ | ⟨n, k, hk, hnext⟩
  all_goals
    simp only [step, ht.trans hk] at hs
    obtain ⟨r, hr, he⟩ := map_eq_some_iff.mp hs
    exact ⟨r, hr, by rw [← he, hnext]⟩

/-- **A call that stores nothing.** -/
theorem Good.quiet {p : Pc} (hc : Calls sb q c fun _ => p) (hquiet : ∀ b f, c ≠ .modify b f)
    (hblock : p.block = q.block) (hset : p.isSet = q.isSet) (hzero : p.isZero = true → q.isZero = true)
    (hbit : ∀ ph i j, p = .claim ph i j → j < bitPerBlock)
    (hsearch : ∀ n r, p.block = some n → p.searching = true → call s t c = some r →
      r.2.holder (bitmapBlock sb n) = some t) : Good sb M s' (update pc t p) := by
  obtain ⟨r, hr, rfl⟩ := h.run hp hs hc
  obtain ⟨hcur, hlive, htask, hholder⟩ := call_quiet hquiet hr
  rw [← hp] at hblock hset hzero
  exact h.move t p (by rw [htask]) hcur hlive hblock hset hzero hbit
    (fun n hn hsr => hsearch n r hn hsr hr) hholder

end Run

/-! ### `cache_alloc` -/

/-- Where the client stands when it has looked at a bitmap block. -/
def afterScan (fuel i : ℕ) : Scan → Pc
  | .beyond => .giveUp i
  | .free j => .claim .found i j
  | .full => .skip fuel i

def scanCode (sb : SuperBlock) (fuel i : ℕ) : Scan → CacheProg ℕ
  | .beyond => do release (sb.bitmapStart + i); .fail
  | .free j => claim sb i j
  | .full => do release (sb.bitmapStart + i); cacheAllocLoop sb fuel (i + 1)

theorem cacheAllocLoop_succ (sb : SuperBlock) (fuel i : ℕ) : cacheAllocLoop sb (fuel + 1) i =
    .call (.acquire (sb.bitmapStart + i)) fun bm => scanCode sb fuel i (scan sb i bm bitPerBlock 0) := by
  refine congrArg (Prog.call (Call.acquire (sb.bitmapStart + i))) (funext fun bm => ?_)
  dsimp only [Prog.bind]
  generalize scan sb i bm bitPerBlock 0 = r
  cases r <;> rfl

theorem code_afterScan (sb : SuperBlock) (fuel i : ℕ) (r : Scan) :
    code sb (afterScan fuel i r) = .alloc (scanCode sb fuel i r) := by
  cases r <;> rfl

theorem good_scan {fuel : ℕ} (h : Good sb M s pc) (hp : pc t = .scan fuel i) (hs : step sb s (.run t) = some s') :
    ∃ p, Good sb M s' (update pc t p) := by
  cases fuel with
  | zero =>
    have hfail : s.task t = .alloc .fail := by rw [h.task, hp]; rfl
    simp [step, hfail] at hs
  | succ fuel =>
    obtain ⟨r, hr, rfl⟩ := h.run (c := .acquire (sb.bitmapStart + i)) hp hs
      (p := fun bm => afterScan fuel i (scan sb i bm bitPerBlock 0))
      (Or.inl ⟨_, congrArg Task.alloc (cacheAllocLoop_succ sb fuel i), fun _ => code_afterScan sb fuel i _⟩)
    obtain ⟨hfree, rfl⟩ := call_acquire hr
    refine ⟨afterScan fuel i (scan sb i (s.cur (sb.bitmapStart + i)) bitPerBlock 0), ?_⟩
    have hspec := @scan_spec sb i (s.cur (sb.bitmapStart + i)) bitPerBlock 0
    dsimp only
    generalize scan sb i (s.cur (sb.bitmapStart + i)) bitPerBlock 0 = r at hspec ⊢
    have hother : ∀ b u, u ≠ t → s.holder b = some u →
        update s.holder (sb.bitmapStart + i) (some t) b = some u :=
      fun b u hu hb => holder_update hu (Or.inl hfree) hb
    cases r with
    | beyond =>
      exact h.move t (.giveUp i) (by rfl) (by rfl) (by rfl) (by rw [hp]; rfl) (by rw [hp]; rfl) (by simp [Pc.isZero])
        (by simp) (by simp [Pc.searching]) hother
    | full =>
      exact h.move t (.skip fuel i) (by rfl) (by rfl) (by rfl) (by rw [hp]; rfl) (by rw [hp]; rfl)
        (by simp [Pc.isZero]) (by simp) (by simp [Pc.searching]) hother
    | free j =>
      -- the bit is clear, so that nobody has the block; and nobody else is about to set the bit
      obtain ⟨-, hlt, hclear, hdev, -⟩ := hspec
      have hj : j < bitPerBlock := by omega
      have hb : bitmapBlock sb (i * bitPerBlock + j) = sb.bitmapStart + i := by
        unfold bitmapBlock
        rw [(div_mod_bit hj).1]
      have hmark : ¬ marked sb s.cur (i * bitPerBlock + j) = true := by
        rw [marked_of_bit _ hj, hclear]
        simp
      rw [h.marks _ hdev] at hmark
      push Not at hmark
      obtain ⟨hM, hlive, hset⟩ := hmark
      have hnone : ∀ u, (pc u).block ≠ some (i * bitPerBlock + j) := by
        intro u hu
        rcases Pc.isSet_or_searching hu with hisSet | hsearch
        · exact hset u hu hisSet
        · have hheld := h.holds u _ hu hsearch
          rw [hb, hfree] at hheld
          cases hheld
      refine h.change t (.claim .found i j) (by rfl) (fun n hn => ?_) h.live ?_ ?_ ?_ ?_ hother ?_ ?_
      · refine (h.marks_split t hn).trans (or_congr_right (or_congr_right (or_congr_right ?_)))
        rw [hp]
        simp [Pc.block, Pc.isSet]
      · intro n hn
        cases hn
        exact ⟨hdev, hM, hlive⟩
      · intro u n _ hu
        refine ⟨(h.block u n hu).2.2, fun hn => ?_⟩
        cases hn
        exact hnone u hu
      · intro ph i' j' he
        cases he
        exact hj
      · intro n hn _
        cases hn
        rw [hb]
        exact update_self ..
      · simp [Pc.isZero]
      · exact fun _ _ _ _ hz => hz

theorem good_skip {fuel : ℕ} (h : Good sb M s pc) (hp : pc t = .skip fuel i) (hs : step sb s (.run t) = some s') :
    Good sb M s' (update pc t (.scan fuel (i + 1))) :=
  h.quiet hp hs (Or.inl ⟨_, rfl, fun _ => rfl⟩) (by simp) rfl rfl (by simp [Pc.isZero]) (by simp) (by simp [Pc.searching])

theorem good_giveUp (h : Good sb M s pc) (hp : pc t = .giveUp i) (hs : step sb s (.run t) = some s') :
    Good sb M s' (update pc t .panic) :=
  h.quiet hp hs (Or.inl ⟨_, rfl, fun _ => rfl⟩) (by simp) rfl rfl (by simp [Pc.isZero]) (by simp) (by simp [Pc.searching])

section Claim

variable (hM : ∀ n < sb.numBlocks, bitmapBlock sb n ∈ M)
include hM

omit [DecidableEq T] in
theorem Good.not_bitmap (h : Good sb M s pc) {u : T} {m : ℕ} (hb : (pc u).block = some n) (hm : m < sb.numBlocks) :
    bitmapBlock sb m ≠ n := by
  intro he
  exact (h.block u n hb).2.1 (he ▸ hM m hm)

theorem good_zero (h : Good sb M s pc) (hp : pc t = .claim .acquired i j) (hs : step sb s (.run t) = some s') :
    Good sb M s' (update pc t (.claim .zeroed i j)) := by
  have hblock : (pc t).block = some (i * bitPerBlock + j) := by rw [hp]; rfl
  obtain ⟨r, hr, rfl⟩ := h.run hp hs (p := fun _ => .claim .zeroed i j) (Or.inl ⟨_, rfl, fun _ => rfl⟩)
  obtain ⟨-, hr⟩ := call_modify hr
  rw [hr]
  refine h.change t (.claim .zeroed i j) (by rfl) (fun n hn => ?_) h.live ?_ ?_ ?_ ?_ (fun _ _ _ hb => hb) ?_ ?_
  · have hsame : marked sb (update s.cur (i * bitPerBlock + j) fun _ => 0) n = marked sb s.cur n := by
      unfold marked
      rw [update_of_ne (h.not_bitmap hM hblock hn)]
    dsimp only
    rw [hsame, h.marks_split t hn, hp]
    rfl
  · intro n hn
    cases hn
    exact h.block t _ hblock
  · intro u n hu hb
    refine ⟨(h.block u n hb).2.2, fun hn => hu (h.distinct u t n hb ?_)⟩
    rw [hblock]
    exact hn
  · intro ph i' j' he
    cases he
    exact h.bit t _ _ _ hp
  · intro n hn _
    cases hn
    exact h.holds t _ hblock (by rw [hp]; rfl)
  · intro n hn _
    cases hn
    exact update_self ..
  · intro u n _ _ hz
    dsimp only
    by_cases hn : n = i * bitPerBlock + j
    · rw [hn, update_self]
    · rw [update_of_ne hn, hz]

theorem good_mark (h : Good sb M s pc) (hp : pc t = .claim .logged i j) (hs : step sb s (.run t) = some s') :
    Good sb M s' (update pc t (.claim .marked i j)) := by
  have hblock : (pc t).block = some (i * bitPerBlock + j) := by rw [hp]; rfl
  have hj : j < bitPerBlock := h.bit t _ _ _ hp
  have hzero := h.zero t _ hblock (by rw [hp]; rfl)
  obtain ⟨r, hr, rfl⟩ := h.run hp hs (p := fun _ => .claim .marked i j) (Or.inl ⟨_, rfl, fun _ => rfl⟩)
  obtain ⟨-, hr⟩ := call_modify hr
  rw [hr]
  -- the block is zero already, so that this is what taking it does
  have htake : update s.cur (sb.bitmapStart + i) (bitmapSet (s.cur (sb.bitmapStart + i)) j) =
      takeBlock sb s.cur (i * bitPerBlock + j) := by
    unfold takeBlock bitmapBlock
    rw [← hzero, update_eq_self, (div_mod_bit hj).1, (div_mod_bit hj).2]
  have hkeep : ∀ {u n}, (pc u).block = some n → takeBlock sb s.cur (i * bitPerBlock + j) n = s.cur n := by
    intro u n hb
    have hne := h.not_bitmap hM hb (h.block t _ hblock).1
    unfold takeBlock
    rw [← hzero, update_eq_self, update_of_ne hne.symm]
  dsimp only
  rw [htake]
  refine h.change t (.claim .marked i j) (by rfl) (fun n hn => ?_) h.live ?_ ?_ ?_ ?_ (fun _ _ _ hb => hb) ?_ ?_
  · dsimp only
    rw [marked_takeBlock (h.not_bitmap hM hblock hn), Bool.or_eq_true, decide_eq_true_eq, h.marks_split t hn, hp]
    simp only [Pc.block, Pc.isSet, some.injEq, Bool.false_eq_true, and_false, and_true, or_false]
    constructor
    · rintro (rfl | hold | hold | hold)
      · exact Or.inr (Or.inr (Or.inr rfl))
      · exact Or.inl hold
      · exact Or.inr (Or.inl hold)
      · exact Or.inr (Or.inr (Or.inl hold))
    · rintro (hold | hold | hold | rfl)
      · exact Or.inr (Or.inl hold)
      · exact Or.inr (Or.inr (Or.inl hold))
      · exact Or.inr (Or.inr (Or.inr hold))
      · exact Or.inl rfl
  · intro n hn
    cases hn
    exact h.block t _ hblock
  · intro u n hu hb
    refine ⟨(h.block u n hb).2.2, fun hn => hu (h.distinct u t n hb ?_)⟩
    rw [hblock]
    exact hn
  · intro ph i' j' he
    cases he
    exact hj
  · simp [Pc.searching]
  · intro n hn _
    cases hn
    exact (hkeep hblock).trans hzero
  · intro u n _ hb hz
    exact (hkeep hb).trans hz

theorem good_claim {ph : Phase} (h : Good sb M s pc) (hp : pc t = .claim ph i j)
    (hs : step sb s (.run t) = some s') : ∃ p, Good sb M s' (update pc t p) := by
  have hj : j < bitPerBlock := h.bit t _ _ _ hp
  have hblock : (pc t).block = some (i * bitPerBlock + j) := by rw [hp]; rfl
  have hbit : ∀ ph' ph'' i' j', Pc.claim ph' i j = .claim ph'' i' j' → j' < bitPerBlock := by
    intro ph' ph'' i' j' he
    cases he
    exact hj
  cases ph with
  | found =>
    refine ⟨.claim .acquired i j, h.quiet hp hs (Or.inl ⟨_, rfl, fun _ => rfl⟩) (by simp) rfl rfl
      (by simp [Pc.isZero]) (hbit _) fun n r hn _ hr => ?_⟩
    obtain ⟨hfree, rfl⟩ := call_acquire hr
    cases hn
    have hheld := h.holds t _ hblock (by rw [hp]; rfl)
    have hne : bitmapBlock sb (i * bitPerBlock + j) ≠ i * bitPerBlock + j := by
      intro he
      rw [he, hfree] at hheld
      cases hheld
    dsimp only
    rw [update_of_ne hne, hheld]
  | acquired => exact ⟨_, good_zero hM h hp hs⟩
  | zeroed =>
    refine ⟨.claim .logged i j, h.quiet hp hs (Or.inl ⟨_, rfl, fun _ => rfl⟩) (by simp) rfl rfl (fun _ => rfl)
      (hbit _) fun n r hn _ hr => ?_⟩
    rw [call_sync hr]
    cases hn
    exact h.holds t _ hblock (by rw [hp]; rfl)
  | logged => exact ⟨_, good_mark hM h hp hs⟩
  | marked =>
    exact ⟨.claim .markLogged i j, h.quiet hp hs (Or.inl ⟨_, rfl, fun _ => rfl⟩) (by simp) rfl rfl (fun _ => rfl)
      (hbit _) (by simp [Pc.searching])⟩
  | markLogged =>
    exact ⟨.claim .released i j, h.quiet hp hs (Or.inl ⟨_, rfl, fun _ => rfl⟩) (by simp) rfl rfl (fun _ => rfl)
      (hbit _) (by simp [Pc.searching])⟩
  | released =>
    exact ⟨.claim .done i j, h.quiet hp hs (Or.inl ⟨_, rfl, fun _ => rfl⟩) (by simp) rfl rfl (fun _ => rfl)
      (hbit _) (by simp [Pc.searching])⟩
  | done =>
    -- the block is returned
    have hpure : s.task t = .alloc (.pure (i * bitPerBlock + j)) := by rw [h.task, hp]; rfl
    simp only [step, hpure, some.injEq] at hs
    subst hs
    obtain ⟨hlt, hnM, hnew⟩ := h.block t _ hblock
    refine ⟨_, h.change t .idle (by rfl) (fun n hn => ?_) ?_ ?_ ?_ (by simp) (by simp [Pc.searching])
      (fun _ _ _ hb => hb) (by simp [Pc.isZero]) fun _ _ _ _ hz => hz⟩
    · dsimp only
      rw [h.marks_split t hn, hp, mem_insert]
      simp only [Pc.block, Pc.isSet, some.injEq, and_true, reduceCtorEq, false_and, or_false]
      constructor
      · rintro (hold | hold | hold | rfl)
        · exact Or.inl hold
        · exact Or.inr (Or.inl (Or.inr hold))
        · exact Or.inr (Or.inr hold)
        · exact Or.inr (Or.inl (Or.inl rfl))
      · rintro (hold | (rfl | hold) | hold)
        · exact Or.inl hold
        · exact Or.inr (Or.inr (Or.inr rfl))
        · exact Or.inr (Or.inl hold)
        · exact Or.inr (Or.inr (Or.inl hold))
    · intro n hn
      rcases mem_insert.mp hn with rfl | hn
      · exact ⟨hlt, hnM⟩
      · exact h.live n hn
    · simp [Pc.block]
    · intro u n hu hb
      refine ⟨fun hn => ?_, by simp [Pc.block]⟩
      rcases mem_insert.mp hn with rfl | hn
      · exact hu (h.distinct u t _ hb hblock)
      · exact (h.block u n hb).2.2 hn

/-! ### `cache_free` -/

theorem good_clear (h : Good sb M s pc) (hp : pc t = .free .acquired n) (hs : step sb s (.run t) = some s') :
    Good sb M s' (update pc t (.free .cleared n)) := by
  have hblock : (pc t).block = some n := by rw [hp]; rfl
  obtain ⟨hlt, hnM, hnot⟩ := h.block t n hblock
  obtain ⟨r, hr, rfl⟩ := h.run hp hs (p := fun _ => .free .cleared n) (Or.inr ⟨_, _, rfl, fun _ => rfl⟩)
  obtain ⟨-, hr⟩ := call_modify hr
  rw [hr]
  have hcur : update s.cur (n / bitPerBlock + sb.bitmapStart)
      (bitmapClear (s.cur (n / bitPerBlock + sb.bitmapStart)) (n % bitPerBlock)) = freeBlock sb s.cur n := by
    unfold freeBlock bitmapBlock
    rw [Nat.add_comm]
  dsimp only
  rw [hcur]
  refine h.change t (.free .cleared n) (by rfl) (fun m hm => ?_) h.live (by simp [Pc.block]) ?_ (by simp)
    (by simp [Pc.searching]) (fun _ _ _ hb => hb) (by simp [Pc.isZero]) ?_
  · have hself : ¬ ((Pc.free .cleared n).block = some m ∧ (Pc.free .cleared n).isSet = true) := by
      rintro ⟨-, hset⟩
      cases hset
    dsimp only
    simp only [hself, or_false]
    by_cases hmn : m = n
    · rw [hmn, marked_freeBlock_self]
      simp only [Bool.false_eq_true, false_iff, not_or]
      refine ⟨hnM, hnot, ?_⟩
      rintro ⟨u, hu, hb, -⟩
      exact hu (h.distinct u t n hb hblock)
    · rw [marked_freeBlock hmn, h.marks_split t hm, hblock]
      have hother : ¬ (some n = some m ∧ (pc t).isSet = true) := fun he => hmn (some.inj he.1).symm
      simp only [hother, or_false]
  · intro u m hu hb
    exact ⟨(h.block u m hb).2.2, by simp [Pc.block]⟩
  · intro u m hu hb hz
    have hne := h.not_bitmap hM hb hlt
    dsimp only
    unfold freeBlock
    rw [update_of_ne hne.symm, hz]

theorem good_free {ph : FreePhase} (h : Good sb M s pc) (hp : pc t = .free ph n)
    (hs : step sb s (.run t) = some s') : ∃ p, Good sb M s' (update pc t p) := by
  cases ph with
  | begun =>
    exact ⟨.free .acquired n, h.quiet hp hs (Or.inr ⟨_, _, rfl, fun _ => rfl⟩) (by simp) rfl rfl (by simp [Pc.isZero])
      (by simp) (by simp [Pc.searching])⟩
  | acquired => exact ⟨_, good_clear hM h hp hs⟩
  | cleared =>
    exact ⟨.free .logged n, h.quiet hp hs (Or.inr ⟨_, _, rfl, fun _ => rfl⟩) (by simp) rfl rfl (by simp [Pc.isZero])
      (by simp) (by simp [Pc.searching])⟩
  | logged =>
    exact ⟨.free .done n, h.quiet hp hs (Or.inr ⟨_, _, rfl, fun _ => rfl⟩) (by simp) rfl rfl (by simp [Pc.isZero])
      (by simp) (by simp [Pc.searching])⟩
  | done =>
    have hpure : s.task t = .free n (.pure ()) := by rw [h.task, hp]; rfl
    simp only [step, hpure, some.injEq] at hs
    subst hs
    exact ⟨_, h.move t .idle (by rfl) (by rfl) (by rfl) (by rw [hp]; rfl) (by rw [hp]; rfl)
      (by simp [Pc.isZero]) (by simp) (by simp [Pc.searching]) fun _ _ _ hb => hb⟩

/-! ### Every step -/

omit [DecidableEq T] hM in
theorem Good.idle (h : Good sb M s pc) (hidle : s.task t = .idle) : pc t = .idle := by
  have ht := (h.task t).symm.trans hidle
  cases hp : pc t with
  | idle => rfl
  | scan _ _ | skip _ _ | giveUp _ | panic | claim _ _ _ | free _ _ =>
    rw [hp] at ht
    cases ht

omit hM in
theorem good_alloc {rm : ℕ} (h : Good sb M s pc) (hs : step sb s (.alloc t rm) = some s') :
    ∃ p, Good sb M s' (update pc t p) := by
  simp only [step] at hs
  split at hs
  · next hidle =>
    have hp := h.idle hidle
    have hmove : ∀ p, code sb p = .alloc (cacheAlloc sb rm) → p.block = none → p.isSet = false →
        p.isZero = false → p.searching = false → (∀ ph i j, p ≠ .claim ph i j) →
        Good sb M s' (update pc t p) := by
      intro p hcode hblock hset hzero hsearch hclaim
      cases hs
      exact h.move t p (by rw [hcode]) (by rfl) (by rfl) (by rw [hblock, hp]; rfl) (by rw [hset, hp]; rfl)
        (by simp [hzero]) (fun ph i j he => absurd he (hclaim ph i j)) (by simp [hsearch]) fun _ _ _ hb => hb
    by_cases hrm : 0 < rm
    · refine ⟨_, hmove (.scan (numBitmapBlocks sb) 0) ?_ rfl rfl rfl rfl (by simp)⟩
      unfold cacheAlloc Prog.check
      rw [if_pos hrm]
      rfl
    · refine ⟨_, hmove .panic ?_ rfl rfl rfl rfl (by simp)⟩
      unfold cacheAlloc Prog.check
      rw [if_neg hrm]
      rfl
  · cases hs

omit hM in
theorem good_beginFree (h : Good sb M s pc) (hs : step sb s (.free t n) = some s') :
    Good sb M s' (update pc t (.free .begun n)) := by
  simp only [step] at hs
  split at hs
  · next hidle =>
    have hp := h.idle hidle
    split_ifs at hs with hn
    simp only [some.injEq] at hs
    subst hs
    obtain ⟨hlt, hnM⟩ := h.live n hn
    refine h.change t (.free .begun n) (by rfl) (fun m hm => ?_) ?_ ?_ ?_ (by simp) (by simp [Pc.searching])
      (fun _ _ _ hb => hb) (by simp [Pc.isZero]) fun _ _ _ _ hz => hz
    · have hself : ((Pc.free .begun n).block = some m ∧ (Pc.free .begun n).isSet = true) ↔ m = n := by
        simp [Pc.block, Pc.isSet, eq_comm]
      have hold : ¬ ((pc t).block = some m ∧ (pc t).isSet = true) := by
        rw [hp]
        rintro ⟨-, hset⟩
        cases hset
      dsimp only
      rw [h.marks_split t hm, mem_erase]
      simp only [hself, hold, or_false]
      constructor
      · rintro (hin | hin | hin)
        · exact Or.inl hin
        · by_cases hmn : m = n
          · exact Or.inr (Or.inr (Or.inr hmn))
          · exact Or.inr (Or.inl ⟨hmn, hin⟩)
        · exact Or.inr (Or.inr (Or.inl hin))
      · rintro (hin | ⟨-, hin⟩ | hin | rfl)
        · exact Or.inl hin
        · exact Or.inr (Or.inl hin)
        · exact Or.inr (Or.inr hin)
        · exact Or.inr (Or.inl hn)
    · exact fun m hm => h.live m (mem_of_mem_erase hm)
    · intro m hm
      cases hm
      exact ⟨hlt, hnM, notMem_erase _ _⟩
    · intro u m hu hb
      have hnot := (h.block u m hb).2.2
      refine ⟨fun hm => hnot (mem_of_mem_erase hm), fun hm => ?_⟩
      cases hm
      exact hnot hn
  · cases hs

theorem good_store {d : BlockData} (h : Good sb M s pc) (hs : step sb s (.store n d) = some s') : Good sb M s' pc := by
  simp only [step] at hs
  split_ifs at hs with hn
  simp only [some.injEq] at hs
  subst hs
  refine { h with marks := fun m hm => ?_, zero := fun t m hb hz => ?_ }
  · have hne : bitmapBlock sb m ≠ n := fun he => (h.live n hn.1).2 (he ▸ hM m hm)
    dsimp only
    rw [← h.marks m hm]
    unfold marked
    rw [update_of_ne hne]
  · have hne : m ≠ n := fun he => (h.block t m hb).2.2 (he ▸ hn.1)
    dsimp only
    rw [update_of_ne hne]
    exact h.zero t m hb hz

/-- **Every step keeps the invariant.** -/
theorem good_step {l : Label T} (h : ∃ pc, Good sb M s pc) (hs : step sb s l = some s') :
    ∃ pc, Good sb M s' pc := by
  obtain ⟨pc, h⟩ := h
  cases l with
  | alloc t rm =>
    obtain ⟨p, h'⟩ := good_alloc h hs
    exact ⟨_, h'⟩
  | free t n => exact ⟨_, good_beginFree h hs⟩
  | store n d => exact ⟨pc, good_store hM h hs⟩
  | run t =>
    cases hp : pc t with
    | idle =>
      have hidle : s.task t = .idle := by rw [h.task, hp]; rfl
      simp [step, hidle] at hs
    | panic =>
      have hfail : s.task t = .alloc .fail := by rw [h.task, hp]; rfl
      simp [step, hfail] at hs
    | scan fuel i =>
      obtain ⟨p, h'⟩ := good_scan h hp hs
      exact ⟨_, h'⟩
    | skip fuel i => exact ⟨_, good_skip h hp hs⟩
    | giveUp i => exact ⟨_, good_giveUp h hp hs⟩
    | claim ph i j =>
      obtain ⟨p, h'⟩ := good_claim hM h hp hs
      exact ⟨_, h'⟩
    | free ph n =>
      obtain ⟨p, h'⟩ := good_free hM h hp hs
      exact ⟨_, h'⟩

end Claim

section

omit [DecidableEq T]

theorem good_start (h : Start sb M s) : Good sb M s fun _ => .idle where
  task t := h.task t
  marks n hn := by
    rw [h.marks n hn, h.live]
    simp [Pc.isSet]
  live := by simp [h.live]
  block := by simp [Pc.block]
  distinct := by simp [Pc.block]
  bit := by simp
  holds := by simp [Pc.block]
  zero := by simp [Pc.block]

theorem Good.done (h : Good sb M s pc) (ht : s.task t = .alloc (.pure n)) :
    ∃ i j, pc t = .claim .done i j ∧ i * bitPerBlock + j = n := by
  have hcode := (h.task t).symm.trans ht
  cases hp : pc t with
  | idle | skip _ _ | giveUp _ | panic | free _ _ =>
    rw [hp] at hcode
    cases hcode
  | scan fuel i =>
    rw [hp] at hcode
    cases fuel <;> cases hcode
  | claim ph i j =>
    rw [hp] at hcode
    cases ph with
    | found | acquired | zeroed | logged | marked | markLogged | released => cases hcode
    | done =>
      cases hcode
      exact ⟨i, j, rfl, rfl⟩

theorem Good.inFlight (h : Good sb M s pc) (hb : (pc t).block = some n) (hset : (pc t).isSet = true) : InFlight s n := by
  have ht := h.task t
  cases hp : pc t with
  | idle | scan _ _ | skip _ _ | giveUp _ | panic =>
    rw [hp] at hb
    cases hb
  | claim ph i j =>
    rw [hp] at hb hset ht
    cases hb
    refine Or.inl ⟨t, _, ht, ?_⟩
    cases ph with
    | found | acquired | zeroed | logged => cases hset
    | marked => exact fun _ _ _ => rfl
    | markLogged => exact fun _ _ => rfl
    | released => exact fun _ => rfl
    | done => rfl
  | free ph m =>
    rw [hp] at hb ht
    cases ph with
    | begun | acquired =>
      cases hb
      exact Or.inr ⟨t, _, ht⟩
    | cleared | logged | done => cases hb

theorem not_inFlight (h : ∀ t, s.task t = .idle) : ¬ InFlight s n := by
  rintro (⟨t, p, ht, -⟩ | ⟨t, p, ht⟩) <;>
  · rw [h t] at ht
    cases ht

end

end Steps

/-- **No block is allocated twice.** In every state of every run, a block that is about to be returned is below
`num_blocks`, is no metadata block, has not been given out, reads as zeros, and is returned to one client only.
The marks are those of the metadata, of the blocks that have been given out, and of blocks for which a call is in
progress; when there is none, they are exactly those of the metadata and of the blocks given out. -/
theorem no_double_allocation {sb : SuperBlock} {M : Set ℕ} {s₀ s : State T} {ls : List (Label T)}
    (hM : ∀ n < sb.numBlocks, bitmapBlock sb n ∈ M) (h₀ : Start sb M s₀)
    (hr : Run (step sb) (fun _ _ => True) s₀ ls s) :
    (∀ t n, s.task t = .alloc (.pure n) → n < sb.numBlocks ∧ n ∉ M ∧ n ∉ s.live ∧ (s.cur n = fun _ => 0) ∧
      ∀ u, s.task u = .alloc (.pure n) → u = t) ∧
    (∀ n < sb.numBlocks, n ∈ M ∨ n ∈ s.live → marked sb s.cur n = true) ∧
    (∀ n < sb.numBlocks, marked sb s.cur n = true → n ∈ M ∨ n ∈ s.live ∨ InFlight s n) ∧
    ((∀ t, s.task t = .idle) → ∀ n < sb.numBlocks, marked sb s.cur n = true ↔ n ∈ M ∨ n ∈ s.live) := by
  obtain ⟨pc, h⟩ : ∃ pc, Good sb M s pc :=
    hr.inv (fun _ _ _ hi _ hs => good_step hM hi hs) ⟨_, good_start h₀⟩
  have hmarked : ∀ n < sb.numBlocks, n ∈ M ∨ n ∈ s.live → marked sb s.cur n = true := by
    rintro n hn (hin | hin)
    · exact (h.marks n hn).mpr (Or.inl hin)
    · exact (h.marks n hn).mpr (Or.inr (Or.inl hin))
  have hflight : ∀ n < sb.numBlocks, marked sb s.cur n = true → n ∈ M ∨ n ∈ s.live ∨ InFlight s n := by
    intro n hn hm
    rcases (h.marks n hn).mp hm with hin | hin | ⟨t, hb, hset⟩
    · exact Or.inl hin
    · exact Or.inr (Or.inl hin)
    · exact Or.inr (Or.inr (h.inFlight hb hset))
  refine ⟨fun t n ht => ?_, hmarked, hflight, fun hidle n hn => ⟨fun hm => ?_, hmarked n hn⟩⟩
  · obtain ⟨i, j, hp, rfl⟩ := h.done ht
    have hb : (pc t).block = some (i * bitPerBlock + j) := by rw [hp]; rfl
    obtain ⟨hlt, hnM, hnew⟩ := h.block t _ hb
    refine ⟨hlt, hnM, hnew, h.zero t _ hb (by rw [hp]; rfl), fun u hu => ?_⟩
    obtain ⟨i', j', hp', he⟩ := h.done hu
    exact h.distinct u t _ (by rw [hp', Pc.block, he]) hb
  · rcases hflight n hn hm with hin | hin | hin
    · exact Or.inl hin
    · exact Or.inr hin
    · exact absurd hin (not_inFlight hidle)

/-- The image that `user/mkfs` makes, with its 92 blocks of metadata, and two clients. -/
def fresh : State Bool := ⟨Exhaustion.metaDisk 91 92, fun _ => none, fun _ => .idle, ∅⟩

/-- Both clients allocate, and the second one waits for the bitmap block. -/
def bothAllocate : List (Label Bool) :=
  [.alloc false 40, .alloc true 40] ++ List.replicate 9 (.run false) ++ List.replicate 9 (.run true)

/-- Two allocations: the metadata and what has been given out is marked. -/
theorem no_double_allocation_twice : ∃ s : State Bool, Run (step mkfsLayout) (fun _ _ => True) fresh bothAllocate s ∧
    ∀ n < 1000, n < 92 ∨ n ∈ s.live → marked mkfsLayout s.cur n = true := by
  have hrun : (exec (step mkfsLayout) (fun _ _ => true) fresh bothAllocate).isSome = true := by decide +kernel
  obtain ⟨s, hs⟩ := isSome_iff_exists.mp hrun
  have hr : Run (step mkfsLayout) (fun _ _ => True) fresh bothAllocate s := run_of_exec (fun _ _ _ => trivial) hs
  have hM : ∀ n < mkfsLayout.numBlocks, bitmapBlock mkfsLayout n ∈ {m | m < 92} := by
    intro n hn
    have hn' : n < 1000 := hn
    show 91 + n / 4096 < 92
    omega
  have h₀ : Start mkfsLayout {m | m < 92} fresh := by
    refine ⟨fun n hn => ?_, fun _ => rfl, fun _ => rfl, rfl⟩
    have hmarks : marked mkfsLayout (Exhaustion.metaDisk 91 92) n = decide (n < 92) :=
      @Exhaustion.usedBelow_metaDisk mkfsLayout 92 (by decide) n hn
    show marked mkfsLayout (Exhaustion.metaDisk 91 92) n = true ↔ n < 92
    rw [hmarks, decide_eq_true_eq]
  exact ⟨s, hr, (no_double_allocation hM h₀ hr).2.1⟩

end OsHonor.Fs.Cache.Allocation
