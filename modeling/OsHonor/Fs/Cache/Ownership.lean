import OsHonor.Fs.Cache.Holders

/-! # The locks of the cached blocks

`Own` adds the locks to `Held`: a block is claimed by the thread that holds it or by the woken sleeper
that is about to take it, never by two; its lock has a unit exactly when nobody claims it; and the
sleepers are where the locks say they are.

Every step keeps `Own`, with one exception: between the `cache_release` that posts the lock of a block
and the moment the woken sleeper sets `acquired` again, the block looks free, and an acquire of another
block that finds the cache full may evict it. `Steals` is that step; a run without it keeps `Own`
(`own_run`). -/

namespace OsHonor.Fs.Cache.Ownership

open Function Base.Keyed Base.Runs BlockDevice Lib.Semaphore
open Blocks Machine Steps
open Holders

variable {T : Type} {sb : SuperBlock} {s s' : State T}

/-! ### Claims and locks -/

def waitingOn : Pc → Option ℕ
  | .wait _ a => some a
  | _ => none

def wokenOn : Pc → Option ℕ
  | .woken _ a => some a
  | _ => none

/-- Thread `t` holds the block at `a`, or is about to take it after being woken. -/
def Claims (s : State T) (t : T) (a : ℕ) : Prop :=
  a ∈ (s.thread t).held ∨ wokenOn (s.thread t).pc = some a

/-- The lock of a block agrees with the threads: it has a unit if nobody claims the block, and its
sleepers are the threads that wait for it. -/
structure LockOk (s : State T) (b : Block T) : Prop where
  unit : 0 < b.lock.val ↔ ∀ t, ¬ Claims s t b.addr
  binary : b.lock.Binary
  sleepers : ∀ t, t ∈ b.lock.sleeplist ↔ waitingOn (s.thread t).pc = some b.addr
  nodup : b.lock.sleeplist.Nodup

/-- **The ownership invariant.** -/
structure Own (s : State T) : Prop extends Held s where
  wokenLive : ∀ t a, wokenOn (s.thread t).pc = some a → ∃ b ∈ s.blocks, b.addr = a
  wokenFree : ∀ t u a, wokenOn (s.thread t).pc = some a → a ∉ (s.thread u).held
  wokenOne : ∀ t u a, wokenOn (s.thread t).pc = some a → wokenOn (s.thread u).pc = some a → t = u
  lock : ∀ b ∈ s.blocks, LockOk s b
  sleepLive : ∀ t a, waitingOn (s.thread t).pc = some a → ∃ b ∈ s.blocks, b.addr = a

variable {b : Block T} {t : T} {a : ℕ} {l : Label T} {pc : Pc} {k : Cont} {keep : Bool}

namespace Own

theorem lock_of_unit (h : Own s) (hb : b ∈ s.blocks) (hv : 0 < b.lock.val) : b.lock = ⟨1, []⟩ := by
  have hl : ∀ l : Sem T, l.val = 1 → l.sleeplist = [] → l = ⟨1, []⟩ := by
    rintro ⟨v, sl⟩ rfl rfl; rfl
  rcases (h.lock b hb).binary with ⟨h1, h2⟩ | h1
  · exact hl _ h1 h2
  · omega

theorem val_of_claims (h : Own s) (hb : b ∈ s.blocks)
    (ht : Claims s t b.addr) : b.lock.val ≤ 0 := by
  by_contra hn
  exact (h.lock b hb).unit.mp (by omega) t ht

theorem acquired_of_woken (h : Own s) (hb : b ∈ s.blocks)
    (ht : wokenOn (s.thread t).pc = some b.addr) : b.acquired = false := by
  by_contra hn
  obtain ⟨u, hu⟩ := (h.acquired b hb).mp (by simpa using hn)
  exact h.wokenFree t u _ ht hu

theorem claims_unique (h : Own s) {u : T} (ht : Claims s t a) (hu : Claims s u a) : t = u := by
  rcases ht with ht | ht <;> rcases hu with hu | hu
  · exact h.excl t u a ht hu
  · exact absurd ht (h.wokenFree u t a hu)
  · exact absurd hu (h.wokenFree t u a ht)
  · exact h.wokenOne t u a ht hu

end Own

theorem waitLoop_free (t : T) (n : ℕ) : waitLoop false t n (⟨1, []⟩ : Sem T) = (true, ⟨0, []⟩) := by
  rcases n with _ | n
  · simp [waitLoop, Sem.condWait, Sem.get]
  · simp [waitLoop, Sem.condWait, Sem.get]

theorem waitLoop_busy (acquired : Bool) (t : T) (l : Sem T) (h : l.val ≤ 0) :
    waitLoop acquired t l.val.toNat l = (false, ⟨l.val - 1, l.sleeplist ++ [t]⟩) := by
  rw [Int.toNat_of_nonpos h, waitLoop, Sem.condWait_of_nonpos t h]

/-! ### Evictions -/

/-- The block an `acquire` that misses frees. -/
def evicted (s : State T) : Label T → Option (Block T)
  | .run t _ =>
    match (s.thread t).pc with
    | .acquire _ n =>
      if fetchCached n s.blocks = none ∧ evictionThreshold ≤ s.blocks.length then victim s.blocks
      else none
    | _ => none
  | _ => none

/-- The step frees a block that a woken sleeper is about to take. -/
def Steals (s : State T) (l : Label T) : Prop :=
  ∃ b, evicted s l = some b ∧ ∃ t, wokenOn (s.thread t).pc = some b.addr

theorem mem_evictFull (h : Own s) (hb : b ∈ s.blocks)
    (hv : ∀ v, evictionThreshold ≤ s.blocks.length → victim s.blocks = some v →
      ∀ u, wokenOn (s.thread u).pc ≠ some v.addr)
    (hu : ∃ u, Claims s u b.addr ∨ waitingOn (s.thread u).pc = some b.addr) :
    b ∈ evictFull s.blocks := by
  rcases mem_evictFull_or hb with hm | ⟨hfull, v, hvv, hbv⟩
  · exact hm
  · exfalso
    obtain ⟨hvm, -, hacq⟩ := victim_some hvv
    have hbe := h.eq_of_addr hvm hb hbv
    subst hbe
    have hno : ∀ u, ¬ Claims s u b.addr := by
      rintro u (hu | hu)
      · exact h.not_held hb hacq u hu
      · exact hv b hfull hvv u hu
    obtain ⟨u, hu | hu⟩ := hu
    · exact hno u hu
    · have hl := h.lock_of_unit hb ((h.lock b hb).unit.mpr hno)
      have := ((h.lock b hb).sleepers u).mpr hu
      simp [hl] at this

/-! ### Steps that do not touch the locks -/

def ownPart (b : Block T) : ℕ × Sem T := (b.addr, b.lock)

def Plain (pc : Pc) : Prop := waitingOn pc = none ∧ wokenOn pc = none

theorem lockOk_congr {b' : Block T} (h : LockOk s b) (hb : ownPart b' = ownPart b)
    (hheld : ∀ t, b.addr ∈ (s'.thread t).held ↔ b.addr ∈ (s.thread t).held)
    (hwait : ∀ t, waitingOn (s'.thread t).pc = some b.addr ↔ waitingOn (s.thread t).pc = some b.addr)
    (hwoken : ∀ t, wokenOn (s'.thread t).pc = some b.addr ↔ wokenOn (s.thread t).pc = some b.addr) :
    LockOk s' b' := by
  obtain ⟨h1, h2⟩ := Prod.mk.inj hb
  refine ⟨?_, ?_, ?_, ?_⟩
  · rw [h2, h1, h.unit]; simp only [Claims, hheld, hwoken]
  · rw [h2]; exact h.binary
  · intro t; rw [h2, h1, hwait]; exact h.sleepers t
  · rw [h2]; exact h.nodup

theorem own_congr (h : Own s) (h' : Held s')
    (hb : (s'.blocks.map ownPart).Perm (s.blocks.map ownPart))
    (hheld : ∀ t, (s'.thread t).held = (s.thread t).held)
    (hwait : ∀ t, waitingOn (s'.thread t).pc = waitingOn (s.thread t).pc)
    (hwoken : ∀ t, wokenOn (s'.thread t).pc = wokenOn (s.thread t).pc) : Own s' := by
  -- every block has a counterpart with the same address and lock
  have hto : ∀ b' ∈ s'.blocks, ∃ b ∈ s.blocks, ownPart b = ownPart b' := fun b' hb' => by
    simpa using hb.subset (List.mem_map_of_mem hb')
  have hlive : ∀ a, (∃ b ∈ s.blocks, b.addr = a) → ∃ b ∈ s'.blocks, b.addr = a := by
    rintro a ⟨b, hb', rfl⟩
    obtain ⟨b', hb'', he⟩ : ∃ b' ∈ s'.blocks, ownPart b' = ownPart b := by
      simpa using hb.symm.subset (List.mem_map_of_mem hb')
    exact ⟨b', hb'', congrArg Prod.fst he⟩
  refine ⟨h', ?_, ?_, ?_, ?_, ?_⟩
  · intro t a ht
    rw [hwoken] at ht
    exact hlive a (h.wokenLive t a ht)
  · intro t u a ht
    rw [hwoken] at ht
    rw [hheld]
    exact h.wokenFree t u a ht
  · intro t u a ht hu
    rw [hwoken] at ht hu
    exact h.wokenOne t u a ht hu
  · intro b' hb'
    obtain ⟨b, hbm, he⟩ := hto b' hb'
    exact lockOk_congr (h.lock b hbm) he.symm (fun t => by rw [hheld]) (fun t => by rw [hwait])
      fun t => by rw [hwoken]
  · intro t a ht
    rw [hwait] at ht
    exact hlive a (h.sleepLive t a ht)

theorem ownPart_update {f : Block T → Block T} (l : List (Block T))
    (hf : ∀ b, ownPart (f b) = ownPart b) : ((update a f l).map ownPart).Perm (l.map ownPart) := by
  rw [map_update ownPart fun b _ => hf b]

/-- **One lock changes hands.** Only the block `b` and the claims and waits on it change; it is enough
to look at `b`. -/
theorem own_at (h : Own s) (h' : Held s') {f : Block T → Block T} (hb : b ∈ s.blocks)
    (hf : ∀ x, (f x).addr = x.addr) (hblocks : s'.blocks.Perm (update b.addr f s.blocks))
    (hheld : ∀ u c, c ≠ b.addr → (c ∈ (s'.thread u).held ↔ c ∈ (s.thread u).held))
    (hwait : ∀ u c, c ≠ b.addr →
      (waitingOn (s'.thread u).pc = some c ↔ waitingOn (s.thread u).pc = some c))
    (hwoken : ∀ u c, c ≠ b.addr →
      (wokenOn (s'.thread u).pc = some c ↔ wokenOn (s.thread u).pc = some c))
    (hfree : ∀ u v, wokenOn (s'.thread u).pc = some b.addr → b.addr ∉ (s'.thread v).held)
    (hone : ∀ u v, wokenOn (s'.thread u).pc = some b.addr →
      wokenOn (s'.thread v).pc = some b.addr → u = v) (hok : LockOk s' (f b)) : Own s' := by
  have hmem : ∀ x, x ∈ s'.blocks ↔ ∃ y ∈ s.blocks, x = if y.addr = b.addr then f y else y :=
    fun x => (hblocks.mem_iff).trans mem_update
  have hlive : ∀ y ∈ s.blocks, ∃ x ∈ s'.blocks, x.addr = y.addr := by
    intro y hy
    refine ⟨_, (hmem _).mpr ⟨y, hy, rfl⟩, ?_⟩
    split_ifs
    · exact hf y
    · rfl
  refine ⟨h', ?_, ?_, ?_, ?_, ?_⟩
  · intro u c hu
    by_cases hc : c = b.addr
    · rw [hc]; exact hlive b hb
    · obtain ⟨y, hy, rfl⟩ := h.wokenLive u c ((hwoken u c hc).mp hu)
      exact hlive y hy
  · intro u v c hu
    by_cases hc : c = b.addr
    · subst hc; exact hfree u v hu
    · exact fun hv => h.wokenFree u v c ((hwoken u c hc).mp hu) ((hheld v c hc).mp hv)
  · intro u v c hu hv
    by_cases hc : c = b.addr
    · subst hc; exact hone u v hu hv
    · exact h.wokenOne u v c ((hwoken u c hc).mp hu) ((hwoken v c hc).mp hv)
  · intro x hx
    obtain ⟨y, hy, rfl⟩ := (hmem x).mp hx
    split_ifs with hyb
    · rw [h.eq_of_addr hb hy hyb]; exact hok
    · exact lockOk_congr (h.lock y hy) rfl (fun u => hheld u _ hyb) (fun u => hwait u _ hyb)
        fun u => hwoken u _ hyb
  · intro u c hu
    by_cases hc : c = b.addr
    · rw [hc]; exact hlive b hb
    · obtain ⟨y, hy, rfl⟩ := h.sleepLive u c ((hwait u c hc).mp hu)
      exact hlive y hy

variable [DecidableEq T]

theorem own_move (h : Own s) (h' : Held s') {c : Option ℕ}
    (hth : s'.thread = Function.update s.thread t { s.thread t with ctx := c, pc := pc })
    (hb : (s'.blocks.map ownPart).Perm (s.blocks.map ownPart))
    (hp : Plain (s.thread t).pc) (hp' : Plain pc) : Own s' := by
  obtain ⟨h1, h2⟩ := hp
  obtain ⟨h1', h2'⟩ := hp'
  refine own_congr h h' hb ?_ ?_ ?_ <;> rw [hth]
  · exact view_update Thread.held rfl
  · exact view_update (waitingOn ∘ Thread.pc) (h1'.trans h1.symm)
  · exact view_update (wokenOn ∘ Thread.pc) (h2'.trans h2.symm)

/-! ### Steps that do -/

theorem own_take (h : Own s) {l : Sem T} (hb : b ∈ s.blocks)
    (h' : Held (take s t k b.addr l)) (hcl : ∀ u, Claims s u b.addr → u = t)
    (hwk : ∀ c, wokenOn (s.thread t).pc = some c → c = b.addr)
    (hwt : waitingOn (s.thread t).pc = none) (hl : l.val ≤ 0) (hbin : l.Binary)
    (hsl : l.sleeplist = b.lock.sleeplist) : Own (take s t k b.addr l) := by
  have hth : ∀ u, (take s t k b.addr l).thread u =
      if u = t then { s.thread t with held := b.addr :: (s.thread t).held, pc := k.ret b.addr }
      else s.thread u := fun u => update_apply ..
  obtain ⟨hr1, hr2⟩ : waitingOn (k.ret b.addr) = none ∧ wokenOn (k.ret b.addr) = none := by
    cases k <;> exact ⟨rfl, rfl⟩
  have hw : ∀ u, waitingOn ((take s t k b.addr l).thread u).pc = waitingOn (s.thread u).pc :=
    view_update (waitingOn ∘ Thread.pc) (hr1.trans hwt.symm)
  have hno : ∀ u, wokenOn ((take s t k b.addr l).thread u).pc ≠ some b.addr := by
    intro u
    rw [hth]
    split_ifs with hut
    · simp [hr2]
    · exact fun hu => hut (hcl u (Or.inr hu))
  have hc : Claims (take s t k b.addr l) t b.addr := Or.inl (by rw [hth]; simp)
  refine own_at h h' hb (f := fun x => { x with lock := l, acquired := true }) (fun _ => rfl)
    (rotateAfter_perm _ _) ?_ (fun u c _ => by rw [hw]) ?_ (fun u _ hu => absurd hu (hno u))
    (fun u _ hu => absurd hu (hno u)) ⟨?_, hbin, ?_, ?_⟩
  · intro u c hcb
    rw [hth]
    split_ifs with hut
    · subst hut; simp [hcb]
    · rfl
  · intro u c hcb
    rw [hth]
    split_ifs with hut
    · subst hut
      simp only [hr2, reduceCtorEq, false_iff]
      exact fun hwc => hcb (hwk c hwc)
    · rfl
  · constructor
    · intro hv; simp only at hv; omega
    · intro hn; exact absurd hc (hn t)
  · intro u
    rw [hw]
    simp only [hsl]
    exact (h.lock b hb).sleepers u
  · simp only [hsl]
    exact (h.lock b hb).nodup

theorem own_sleep (h : Own s) (hb : b ∈ s.blocks)
    (h' : Held (sleepOn s t k b.addr ⟨b.lock.val - 1, b.lock.sleeplist ++ [t]⟩))
    (hp : Plain (s.thread t).pc) (hv : b.lock.val ≤ 0) :
    Own (sleepOn s t k b.addr ⟨b.lock.val - 1, b.lock.sleeplist ++ [t]⟩) := by
  obtain ⟨hp1, hp2⟩ := hp
  set s₁ := sleepOn s t k b.addr ⟨b.lock.val - 1, b.lock.sleeplist ++ [t]⟩ with hs₁
  have hth : ∀ u, s₁.thread u = if u = t then { s.thread t with pc := .wait k b.addr }
      else s.thread u := fun u => update_apply ..
  have hheld : ∀ u, (s₁.thread u).held = (s.thread u).held := view_update Thread.held rfl
  have hwoken : ∀ u, wokenOn (s₁.thread u).pc = wokenOn (s.thread u).pc :=
    view_update (wokenOn ∘ Thread.pc) hp2.symm
  have hbok := h.lock b hb
  have hnt : t ∉ b.lock.sleeplist := by
    rw [hbok.sleepers, hp1]; simp
  refine own_at h h' hb (f := fun x => { x with lock := ⟨b.lock.val - 1, b.lock.sleeplist ++ [t]⟩ })
    (fun _ => rfl) (List.Perm.refl _) (fun u c _ => by rw [hheld]) ?_
    (fun u c _ => by rw [hwoken]) ?_ ?_ ⟨?_, ?_, ?_, ?_⟩
  · intro u c hcb
    rw [hth]
    split_ifs with hut
    · subst hut
      rw [hp1]
      simp [waitingOn, Ne.symm hcb]
    · rfl
  · intro u v hu
    rw [hwoken] at hu
    rw [hheld]
    exact h.wokenFree u v _ hu
  · intro u v hu hv
    rw [hwoken] at hu hv
    exact h.wokenOne u v _ hu hv
  · simp only [Claims, hheld, hwoken]
    have := hbok.unit
    simp only [Claims] at this
    rw [← this]
    omega
  · rcases hbok.binary with ⟨h1, -⟩ | h1
    · omega
    · right; simp; omega
  · intro u
    rw [hth, List.mem_append, hbok.sleepers u]
    split_ifs with hut
    · subst hut; simp [waitingOn]
    · simp [hut]
  · rw [← List.concat_eq_append]
    exact hbok.nodup.concat hnt

theorem own_push (h : Own s) {n : ℕ} (h' : Held (push s t k n a))
    (hp : Plain (s.thread t).pc) (ha : ∀ b ∈ evictFull s.blocks, b.addr ≠ a)
    (hv : ∀ v, evictionThreshold ≤ s.blocks.length → victim s.blocks = some v →
      ∀ u, wokenOn (s.thread u).pc ≠ some v.addr) : Own (push s t k n a) := by
  obtain ⟨hp1, hp2⟩ := hp
  have hkeep : ∀ u c, Claims s u c ∨ waitingOn (s.thread u).pc = some c →
      ∃ b ∈ evictFull s.blocks, b.addr = c := by
    intro u c hu
    obtain ⟨b, hb, rfl⟩ : ∃ b ∈ s.blocks, b.addr = c := by
      rcases hu with (hu | hu) | hu
      · exact h.live u c hu
      · exact h.wokenLive u c hu
      · exact h.sleepLive u c hu
    exact ⟨b, mem_evictFull h hb hv ⟨u, hu⟩, rfl⟩
  -- the address is new, so nobody refers to it
  have hnew : ∀ u, ¬ (Claims s u a ∨ waitingOn (s.thread u).pc = some a) := by
    intro u hu
    obtain ⟨b, hb, hba⟩ := hkeep u a hu
    exact ha b hb hba
  have hth : ∀ u, (push s t k n a).thread u =
      if u = t then { s.thread t with held := a :: (s.thread t).held, pc := .load k a }
      else s.thread u := fun u => update_apply ..
  have hheld : ∀ u c, c ≠ a → (c ∈ ((push s t k n a).thread u).held ↔ c ∈ (s.thread u).held) := by
    intro u c hc
    rw [hth]
    split_ifs with hut
    · subst hut; simp [hc]
    · rfl
  have hwait : ∀ u, waitingOn ((push s t k n a).thread u).pc = waitingOn (s.thread u).pc :=
    view_update (waitingOn ∘ Thread.pc) hp1.symm
  have hwoken : ∀ u, wokenOn ((push s t k n a).thread u).pc = wokenOn (s.thread u).pc :=
    view_update (wokenOn ∘ Thread.pc) hp2.symm
  have hmem : ∀ x, x ∈ (push s t k n a).blocks ↔ x ∈ evictFull s.blocks ∨ x = newBlock a n := by
    intro x; simp [push]
  refine ⟨h', ?_, ?_, ?_, ?_, ?_⟩
  · intro u c hu
    rw [hwoken] at hu
    obtain ⟨b, hb, hbc⟩ := hkeep u c (Or.inl (Or.inr hu))
    exact ⟨b, (hmem b).mpr (Or.inl hb), hbc⟩
  · intro u v c hu hv
    rw [hwoken] at hu
    by_cases hc : c = a
    · subst hc; exact hnew u (Or.inl (Or.inr hu))
    · exact h.wokenFree u v c hu ((hheld v c hc).mp hv)
  · intro u v c hu hv
    rw [hwoken] at hu hv
    exact h.wokenOne u v c hu hv
  · intro x hx
    rcases (hmem x).mp hx with hx | rfl
    · exact lockOk_congr (h.lock x ((evictFull_sublist s.blocks).subset hx)) rfl
        (fun u => hheld u _ (ha x hx)) (fun u => by rw [hwait]) fun u => by rw [hwoken]
    · refine ⟨?_, Or.inr rfl, ?_, List.nodup_nil⟩
      · constructor
        · intro hv'; simp [newBlock] at hv'
        · intro hno; exact absurd (Or.inl (by rw [hth]; simp [newBlock])) (hno t)
      · intro u
        rw [hwait]
        simp only [newBlock, List.not_mem_nil, false_iff]
        exact fun hu => hnew u (Or.inr hu)
  · intro u c hu
    rw [hwait] at hu
    obtain ⟨b, hb, hbc⟩ := hkeep u c (Or.inr hu)
    exact ⟨b, (hmem b).mpr (Or.inl hb), hbc⟩

theorem own_free (h : Own s) (hb : b ∈ s.blocks)
    (h' : Held (drop s t b.addr keep pc ⟨1, []⟩)) (ht : b.addr ∈ (s.thread t).held)
    (hsl : b.lock.sleeplist = []) (hp : Plain (s.thread t).pc) (hp' : Plain pc) :
    Own (drop s t b.addr keep pc ⟨1, []⟩) := by
  obtain ⟨hp1, hp2⟩ := hp
  obtain ⟨hp1', hp2'⟩ := hp'
  set s₁ := drop s t b.addr keep pc ⟨1, []⟩ with hs₁
  have hth : ∀ u, s₁.thread u =
      if u = t then { s.thread t with held := (s.thread t).held.erase b.addr, pc := pc }
      else s.thread u := fun u => update_apply ..
  have hw : ∀ u, waitingOn (s₁.thread u).pc = waitingOn (s.thread u).pc :=
    view_update (waitingOn ∘ Thread.pc) (hp1'.trans hp1.symm)
  have hwoken : ∀ u, wokenOn (s₁.thread u).pc = wokenOn (s.thread u).pc :=
    view_update (wokenOn ∘ Thread.pc) (hp2'.trans hp2.symm)
  have hno : ∀ u, wokenOn (s₁.thread u).pc ≠ some b.addr := fun u hu =>
    h.wokenFree u t _ (hwoken u ▸ hu) ht
  have hcl : ∀ u, ¬ Claims s₁ u b.addr := by
    rintro u (hu | hu)
    · rw [hth] at hu
      split_ifs at hu with hut
      · exact (h.toHeld.nodup t).not_mem_erase hu
      · exact hut (h.excl u t _ hu ht)
    · exact hno u hu
  refine own_at h h' hb (f := released keep ⟨1, []⟩) (fun _ => rfl) (List.Perm.refl _) ?_
    (fun u c _ => by rw [hw]) (fun u c _ => by rw [hwoken]) (fun u _ hu => absurd hu (hno u))
    (fun u _ hu => absurd hu (hno u)) ⟨?_, Or.inl ⟨rfl, rfl⟩, ?_, List.nodup_nil⟩
  · intro u c hcb
    rw [hth]
    split_ifs with hut
    · subst hut; exact List.mem_erase_of_ne hcb
    · rfl
  · simp only [released, Int.zero_lt_one, true_iff]
    exact hcl
  · intro u
    rw [hw]
    show u ∈ [] ↔ _
    rw [← hsl]
    exact (h.lock b hb).sleepers u

theorem own_handOver (h : Own s) {u : T} {us : List T} (hb : b ∈ s.blocks)
    (h' : Held ((drop s t b.addr keep pc ⟨-(us.length : ℤ), us⟩).goto u (.woken k b.addr)))
    (ht : b.addr ∈ (s.thread t).held) (hsl : b.lock.sleeplist = u :: us)
    (hu : (s.thread u).pc = .wait k b.addr) (hp : Plain (s.thread t).pc) (hp' : Plain pc) :
    Own ((drop s t b.addr keep pc ⟨-(us.length : ℤ), us⟩).goto u (.woken k b.addr)) := by
  obtain ⟨hp1, hp2⟩ := hp
  obtain ⟨hp1', hp2'⟩ := hp'
  have hut : u ≠ t := by
    rintro rfl
    simp [hu, waitingOn] at hp1
  set s₁ := (drop s t b.addr keep pc ⟨-(us.length : ℤ), us⟩).goto u (.woken k b.addr) with hs₁
  have hth : ∀ v, s₁.thread v =
      if v = u then { s.thread u with pc := .woken k b.addr }
      else if v = t then { s.thread t with held := (s.thread t).held.erase b.addr, pc := pc }
      else s.thread v := by
    intro v
    simp [hs₁, drop, State.goto, update_apply, hut]
  have hnd : u ∉ us ∧ us.Nodup := by
    rw [← List.nodup_cons, ← hsl]; exact (h.lock b hb).nodup
  have hnh : ∀ v, b.addr ∉ (s₁.thread v).held := by
    intro v
    rw [hth]
    split_ifs with h1 h2
    · exact fun hh => hut (h.excl u t _ hh ht)
    · exact (h.toHeld.nodup t).not_mem_erase
    · exact fun hh => h2 (h.excl v t _ hh ht)
  have hw : ∀ v, wokenOn (s₁.thread v).pc = some b.addr ↔ v = u := by
    intro v
    rw [hth]
    split_ifs with h1 h2
    · simp [h1, wokenOn]
    · simp [hp2', h1]
    · simp only [h1, iff_false]
      exact fun hw => h.wokenFree v t _ hw ht
  refine own_at h h' hb (f := released keep ⟨-(us.length : ℤ), us⟩) (fun _ => rfl)
    (List.Perm.refl _) ?_ ?_ ?_ (fun v w _ => hnh w) ?_ ⟨?_, Or.inr rfl, ?_, hnd.2⟩
  · intro v c hcb
    rw [hth]
    split_ifs with h1 h2
    · rw [h1]
    · rw [h2]; exact List.mem_erase_of_ne hcb
    · rfl
  · intro v c hcb
    rw [hth]
    split_ifs with h1 h2
    · rw [h1, hu]; simp [waitingOn, Ne.symm hcb]
    · rw [h2, hp1, hp1']
    · rfl
  · intro v c hcb
    rw [hth]
    split_ifs with h1 h2
    · rw [h1, hu]; simp [wokenOn, Ne.symm hcb]
    · rw [h2, hp2, hp2']
    · rfl
  · intro v w hv hw'
    rw [(hw v).mp hv, (hw w).mp hw']
  · constructor
    · intro hv; simp only [released] at hv; omega
    · intro hno; exact absurd (Or.inr ((hw u).mpr rfl)) (hno u)
  · intro v
    have hv := (h.lock b hb).sleepers v
    rw [hsl, List.mem_cons] at hv
    show v ∈ us ↔ _
    rw [hth]
    split_ifs with h1 h2
    · subst h1
      simp [waitingOn, hnd.1]
    · subst h2
      rw [hp1, or_iff_right h1] at hv
      simpa [hp1'] using hv
    · rw [or_iff_right h1] at hv
      exact hv

/-! ### Every step -/

omit [DecidableEq T] in
theorem looks_cases (h : Own s) {r : Bool × Sem T} (hb : b ∈ s.blocks) (hl : Looks s t b k r) :
    (∃ n, (s.thread t).pc = .acquire k n ∧ b.lock = ⟨1, []⟩ ∧ r = (true, ⟨0, []⟩)) ∨
    (∃ n, (s.thread t).pc = .acquire k n ∧ b.lock.val ≤ 0 ∧
      r = (false, ⟨b.lock.val - 1, b.lock.sleeplist ++ [t]⟩)) ∨
    ((s.thread t).pc = .woken k b.addr ∧ r = (true, b.lock)) := by
  rcases hl with hpc | ⟨hpc, -⟩ | ⟨hpc, hacq⟩
  · by_cases hv : 0 < b.lock.val
    · have hlk := h.lock_of_unit hb hv
      have hacq : b.acquired = false := by
        by_contra hn
        obtain ⟨u, hu⟩ := (h.acquired b hb).mp (by simpa using hn)
        exact (h.lock b hb).unit.mp hv u (Or.inl hu)
      exact Or.inl ⟨_, hpc, hlk, by rw [hacq, hlk, waitLoop_free]⟩
    · exact Or.inr (Or.inl ⟨_, hpc, by omega, waitLoop_busy _ _ _ (by omega)⟩)
  · exact Or.inr (Or.inr ⟨hpc, rfl⟩)
  · rw [h.acquired_of_woken hb (by rw [hpc]; rfl)] at hacq
    exact absurd hacq (by simp)

omit [DecidableEq T] in
theorem plain_of_releases (hr : Releases s t a l keep pc) : Plain (s.thread t).pc ∧ Plain pc := by
  rcases hr with hpc | hpc <;> simp [hpc, Plain, waitingOn, wokenOn]

/-- **A release frees the block, or hands it to the first sleeper.** -/
theorem own_release (h : Own s)
    {w : Option T} {lk : Sem T} (hr : Releases s t b.addr l keep pc) (hb : b ∈ s.blocks)
    (ht : b.addr ∈ (s.thread t).held) (hpost : b.lock.post = some (w, lk))
    (h' : Held (wakeFirst (drop s t b.addr keep pc lk) w)) :
    Own (wakeFirst (drop s t b.addr keep pc lk) w) := by
  obtain ⟨hp, hp'⟩ := plain_of_releases hr
  rcases Sem.post_of_binary (h.lock b hb).binary (h.val_of_claims hb (Or.inl ht)) with
    ⟨hsl, he⟩ | ⟨u, us, hsl, he⟩
  · rw [he, Option.some.injEq, Prod.mk.injEq] at hpost
    obtain ⟨rfl, rfl⟩ := hpost
    exact own_free h hb h' ht hsl hp hp'
  · rw [he, Option.some.injEq, Prod.mk.injEq] at hpost
    obtain ⟨rfl, rfl⟩ := hpost
    have hu : waitingOn (s.thread u).pc = some b.addr := by
      rw [← (h.lock b hb).sleepers u, hsl]; simp
    obtain ⟨k, hk⟩ : ∃ k, (s.thread u).pc = .wait k b.addr := by
      cases hpc : (s.thread u).pc <;> simp_all [waitingOn]
    have hut : u ≠ t := by
      rintro rfl
      simp [hk, Plain, waitingOn] at hp
    have hwake : wakeFirst (drop s t b.addr keep pc ⟨-(us.length : ℤ), us⟩) (some u) =
        (drop s t b.addr keep pc ⟨-(us.length : ℤ), us⟩).goto u (.woken k b.addr) := by
      have hth : (drop s t b.addr keep pc ⟨-(us.length : ℤ), us⟩).thread u = s.thread u :=
        update_of_ne hut ..
      simp only [wakeFirst, wake]
      rw [hth, hk]
    rw [hwake] at h' ⊢
    exact own_handOver h hb h' ht hsl hk hp hp'

/-- **A step that steals no block keeps the ownership.** -/
theorem own_step (h : Own s) (hc : ¬ Steals s l) (hs : step sb s l = some s') : Own s' := by
  have h' := held_step h.toHeld hs
  cases step_cases h.toHeld hs with
  | beginOp hp => exact own_move h h' rfl (.refl _) (hp ▸ ⟨rfl, rfl⟩) (hp ▸ ⟨rfl, rfl⟩)
  | acquire hp => exact own_move h h' rfl (.refl _) (hp ▸ ⟨rfl, rfl⟩) ⟨rfl, rfl⟩
  | modify =>
    exact own_congr h h' (ownPart_update _ fun _ => rfl) (fun _ => rfl) (fun _ => rfl) (fun _ => rfl)
  | syncOld => exact h
  | syncNew hp =>
    exact own_move h h' rfl (ownPart_update _ fun _ => rfl) (hp ▸ ⟨rfl, rfl⟩) (hp ▸ ⟨rfl, rfl⟩)
  | syncNull => exact own_congr h h' (.refl _) (fun _ => rfl) (fun _ => rfl) (fun _ => rfl)
  | endWait hp => exact own_move h h' rfl (.refl _) (hp ▸ ⟨rfl, rfl⟩) ⟨rfl, rfl⟩
  | endCommit hp => exact own_move h h' rfl (.refl _) (hp ▸ ⟨rfl, rfl⟩) ⟨rfl, rfl⟩
  | @take t k a b l hb hl hacq =>
    rcases looks_cases h hb hl with ⟨n, hpc, hlk, he⟩ | ⟨n, -, -, he⟩ | ⟨hpc, he⟩
    · obtain ⟨-, rfl⟩ := Prod.mk.inj he
      have hv : 0 < b.lock.val := by rw [hlk]; exact Int.zero_lt_one
      exact own_take h hb h' (fun u hu => absurd hu ((h.lock b hb).unit.mp hv u))
        (by simp [hpc, wokenOn]) (hpc ▸ rfl) le_rfl (Or.inr rfl) (by rw [hlk])
    · exact absurd (Prod.mk.inj he).1 (by simp)
    · obtain ⟨-, rfl⟩ := Prod.mk.inj he
      have hw : wokenOn (s.thread t).pc = some b.addr := hpc ▸ rfl
      exact own_take h hb h' (fun u hu => h.claims_unique hu (Or.inr hw)) (by simp [hw, eq_comm])
        (hpc ▸ rfl) (h.val_of_claims hb (Or.inr hw)) (h.lock b hb).binary rfl
  | sleep hb hl =>
    rcases looks_cases h hb hl with ⟨n, -, -, he⟩ | ⟨n, hpc, hv, he⟩ | ⟨-, he⟩
    · exact absurd (Prod.mk.inj he).1 (by simp)
    · obtain ⟨-, rfl⟩ := Prod.mk.inj he
      exact own_sleep h hb h' (hpc ▸ ⟨rfl, rfl⟩) hv
    · exact absurd (Prod.mk.inj he).1 (by simp)
  | miss hp hn ha =>
    refine own_push h h' (hp ▸ ⟨rfl, rfl⟩) ha fun v hfull hv u hu => hc ⟨v, ?_, u, hu⟩
    simp only [evicted, hp]
    rw [if_pos ⟨fetchCached_none.mpr hn, hfull⟩, hv]
  | load hp => exact own_move h h' rfl (ownPart_update _ fun _ => rfl) (hp ▸ ⟨rfl, rfl⟩) ⟨rfl, rfl⟩
  | @loaded t k a b hp =>
    exact own_move h h' rfl
      (((rotateAfter_perm _ _).map ownPart).trans (ownPart_update _ fun _ => rfl))
      (hp ▸ ⟨rfl, rfl⟩) (by cases k <;> exact ⟨rfl, rfl⟩)
  | logNext hp => exact own_move h h' rfl (.refl _) (hp ▸ ⟨rfl, rfl⟩) ⟨rfl, rfl⟩
  | logDone hp => exact own_move h h' rfl (.refl _) (hp ▸ ⟨rfl, rfl⟩) ⟨rfl, rfl⟩
  | logWrite hp => exact own_move h h' rfl (.refl _) (hp ▸ ⟨rfl, rfl⟩) ⟨rfl, rfl⟩
  | release hr hb ht hpost => exact own_release h hr hb ht hpost h'
  | writeHeader hp => exact own_move h h' rfl (.refl _) (hp ▸ ⟨rfl, rfl⟩) ⟨rfl, rfl⟩
  | ckpt hp => exact own_move h h' rfl (.refl _) (hp ▸ ⟨rfl, rfl⟩) ⟨rfl, rfl⟩
  | @broadcast t a hp =>
    have hpc : ∀ u, u ∈ s.workDone.sleeplist → (s.thread u).pc = .endWait := by
      intro u hu
      have := (h.done u).mp hu
      cases hpc : (s.thread u).pc <;> simp_all [inEndWait]
    refine own_congr h h' (.refl _) ?_ ?_ ?_ <;> intro u <;> simp only [committed] <;>
      split_ifs with h1 h2
    all_goals first | rfl | (rw [h1, hp]; rfl) | (rw [hpc u h2]; rfl)
  | endWoken hp => exact own_move h h' rfl (.refl _) (hp ▸ ⟨rfl, rfl⟩) ⟨rfl, rfl⟩

omit [DecidableEq T] in
theorem own_of_booted (h : Booted sb s) : Own s :=
  ⟨held_of_booted h, fun t a ht => by simp [h.thread t, wokenOn] at ht,
    fun t _ a ht => by simp [h.thread t, wokenOn] at ht,
    fun t _ a ht => by simp [h.thread t, wokenOn] at ht, by simp [h.blocks],
    fun t a ht => by simp [h.thread t, waitingOn] at ht⟩

end OsHonor.Fs.Cache.Ownership
