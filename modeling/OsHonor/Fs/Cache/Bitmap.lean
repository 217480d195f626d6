import OsHonor.Fs.Cache.Volume

/-! # The free block bitmap (`lib/bitmap.h`, `cache_alloc` and `cache_free` of `fs/cache.c`)

Bit `n` of the bitmap says that block `n` is in use. The bitmap starts at block `bitmap_start` and is
read in cells of 64 bits; on the little-endian machine bit `j` of a block is bit `j % 8` of its byte
`j / 8` (`bitmapGet_eq`).

`cache_alloc` and `cache_free` are programs over the other calls of the block cache. What `cache_alloc`
does on a volume: it takes the first block whose bit is clear, zeroes it and sets the bit
(`cacheAlloc_cur`); and it does so, and logs both blocks, whenever there is such a block and the quota
is enough (`run_cacheAlloc`). -/

namespace OsHonor.Fs.Cache.Bitmap

open Option Function Base.Bytes Base.Programs BlockDevice Blocks
open Client Volume

/-! ### Bits -/

def bitPerBlock : ℕ := blockSize * 8

def bitmapGet (d : BlockData) (j : ℕ) : Bool := (d.getLe 8 (8 * (j / 64))).testBit (j % 64)

def bitmapSet (d : BlockData) (j : ℕ) : BlockData :=
  d.setLe 8 (8 * (j / 64)) (d.getLe 8 (8 * (j / 64)) ||| 2 ^ (j % 64))

def bitmapClear (d : BlockData) (j : ℕ) : BlockData :=
  d.setLe 8 (8 * (j / 64)) (d.getLe 8 (8 * (j / 64)) &&& (2 ^ 64 - (2 ^ (j % 64) + 1)))

variable {d : BlockData} {j k : ℕ}

theorem bitmapGet_eq (d : BlockData) (j : ℕ) :
    bitmapGet d j = (d.byte (j / 8)).toNat.testBit (j % 8) := by
  unfold bitmapGet Buf.getLe
  rw [testBit_leVal 8 _ _ (by omega), show 8 * (j / 64) + j % 64 / 8 = j / 8 by omega,
    show j % 64 % 8 = j % 8 by omega]

theorem bitmapGet_setLe {v : ℕ} (hj : j < bitPerBlock) (hv : v < 2 ^ 64) :
    bitmapGet (d.setLe 8 (8 * (j / 64)) v) k =
      if k / 64 = j / 64 then v.testBit (k % 64) else bitmapGet d k := by
  have hj' : j < 4096 := hj
  have hle : 8 * (j / 64) + 8 ≤ blockSize := by unfold blockSize; omega
  unfold bitmapGet
  split_ifs with h
  · rw [h, Buf.getLe_setLe_self hle (by simpa using hv)]
  · rw [Buf.getLe_setLe_of_disjoint hle (by omega)]

theorem getLe_lt (d : BlockData) (off : ℕ) : d.getLe 8 off < 2 ^ 64 := leVal_lt 8 _

theorem bitmapGet_bitmapSet (hj : j < bitPerBlock) :
    bitmapGet (bitmapSet d j) k = (decide (k = j) || bitmapGet d k) := by
  have hpow : 2 ^ (j % 64) < 2 ^ 64 := Nat.pow_lt_pow_right (by omega) (by omega)
  unfold bitmapSet
  rw [bitmapGet_setLe hj (Nat.or_lt_two_pow (getLe_lt _ _) hpow)]
  split_ifs with h
  · rw [Nat.testBit_or, Nat.testBit_two_pow, ← h, Bool.or_comm]
    congr 1
    exact decide_eq_decide.mpr (by omega)
  · rw [show decide (k = j) = false by simp; rintro rfl; exact h rfl, Bool.false_or]

theorem bitmapGet_bitmapClear (hj : j < bitPerBlock) :
    bitmapGet (bitmapClear d j) k = (decide (k ≠ j) && bitmapGet d k) := by
  have hpow : 2 ^ (j % 64) < 2 ^ 64 := Nat.pow_lt_pow_right (by omega) (by omega)
  unfold bitmapClear
  rw [bitmapGet_setLe hj (Nat.and_lt_two_pow _ (Nat.sub_lt (by omega) (Nat.succ_pos _)))]
  split_ifs with h
  · rw [Nat.testBit_and, Nat.testBit_two_pow_sub_succ hpow, Nat.testBit_two_pow, ← h, Bool.and_comm]
    congr 1
    rw [show decide (k % 64 < 64) = true from decide_eq_true (by omega), Bool.true_and, ← decide_not]
    exact decide_eq_decide.mpr (by omega)
  · rw [show decide (k ≠ j) = true by simp; rintro rfl; exact h rfl, Bool.true_and]

/-! ### `cache_alloc` and `cache_free` -/

abbrev CacheProg := Prog Call Call.Resp

def acquire (n : ℕ) : CacheProg BlockData := Prog.perform (R := Call.Resp) (.acquire n)
def modify (n : ℕ) (f : BlockData → BlockData) : CacheProg Unit :=
  Prog.perform (R := Call.Resp) (.modify n f)
def sync (n : ℕ) : CacheProg Unit := Prog.perform (R := Call.Resp) (.sync n)
def release (n : ℕ) : CacheProg Unit := Prog.perform (R := Call.Resp) (.release n)

section

variable {σ : Type} (h : Handler σ Call Call.Resp) (s : σ) (n : ℕ)

theorem acquire_run : (acquire n).run h s = h s (.acquire n) := Prog.run_perform _ _
theorem modify_run (f : BlockData → BlockData) : (modify n f).run h s = h s (.modify n f) := Prog.run_perform _ _
theorem sync_run : (sync n).run h s = h s (.sync n) := Prog.run_perform _ _
theorem release_run : (release n).run h s = h s (.release n) := Prog.run_perform _ _

end

/-- How the inner loop of `cache_alloc` ends: at the end of the device, at a clear bit, or at the end of
the bitmap block. -/
inductive Scan where
  | beyond
  | free (j : ℕ)
  | full
  deriving DecidableEq

/-- The inner loop of `cache_alloc` over the bits of bitmap block `i`. -/
def scan (sb : SuperBlock) (i : ℕ) (bm : BlockData) : ℕ → ℕ → Scan
  | 0, _ => .full
  | fuel + 1, j =>
    if sb.numBlocks ≤ i * bitPerBlock + j then .beyond
    else if !bitmapGet bm j then .free j
    else scan sb i bm fuel (j + 1)

/-- The bitmap blocks that `cache_alloc` looks at. The numerator is a `u32`. -/
def numBitmapBlocks (sb : SuperBlock) : ℕ := (sb.numDataBlocks + bitPerBlock - 1) % 2 ^ 32 / bitPerBlock

/-- The branch of `cache_alloc` for a clear bit. -/
def claim (sb : SuperBlock) (i j : ℕ) : CacheProg ℕ := do
  let _ ← acquire (i * bitPerBlock + j)
  modify (i * bitPerBlock + j) fun _ _ => 0
  sync (i * bitPerBlock + j)
  modify (sb.bitmapStart + i) fun bm => bitmapSet bm j
  sync (sb.bitmapStart + i)
  release (i * bitPerBlock + j)
  release (sb.bitmapStart + i)
  pure (i * bitPerBlock + j)

/-- The outer loop of `cache_alloc`. -/
def cacheAllocLoop (sb : SuperBlock) : ℕ → ℕ → CacheProg ℕ
  | 0, _ => .fail
  | fuel + 1, i => do
    let bm ← acquire (sb.bitmapStart + i)
    match scan sb i bm bitPerBlock 0 with
    | .beyond => do
      release (sb.bitmapStart + i)
      .fail
    | .free j => claim sb i j
    | .full => do
      release (sb.bitmapStart + i)
      cacheAllocLoop sb fuel (i + 1)

/-- `cache_alloc`, when `rm` is left of the quota. -/
def cacheAlloc (sb : SuperBlock) (rm : ℕ) : CacheProg ℕ := do
  Prog.check (0 < rm)
  cacheAllocLoop sb (numBitmapBlocks sb) 0

def cacheFree (sb : SuperBlock) (n : ℕ) : CacheProg Unit := do
  let _ ← acquire (n / bitPerBlock + sb.bitmapStart)
  modify (n / bitPerBlock + sb.bitmapStart) fun bm => bitmapClear bm (n % bitPerBlock)
  sync (n / bitPerBlock + sb.bitmapStart)
  release (n / bitPerBlock + sb.bitmapStart)

/-! ### Scanning -/

variable {sb : SuperBlock} {x x' : Vol} {i n : ℕ} {bm : BlockData}

theorem scan_spec : ∀ (fuel j : ℕ), match scan sb i bm fuel j with
    | .beyond => True
    | .free k => j ≤ k ∧ k < j + fuel ∧ bitmapGet bm k = false ∧ i * bitPerBlock + k < sb.numBlocks ∧
        ∀ m, j ≤ m → m < k → bitmapGet bm m = true
    | .full => ∀ m, j ≤ m → m < j + fuel → bitmapGet bm m = true
  | 0, j => fun m h1 h2 => by omega
  | fuel + 1, j => by
    have ih := scan_spec fuel (j + 1)
    unfold scan
    split_ifs with hend hbit
    · trivial
    · simp only [Bool.not_eq_eq_eq_not, Bool.not_true] at hbit
      exact ⟨le_rfl, by omega, hbit, by omega, fun m h1 h2 => by omega⟩
    · have hset : bitmapGet bm j = true := by simpa using hbit
      have hmore : ∀ m, j ≤ m → m ≠ j → j + 1 ≤ m := fun m h1 h2 => by omega
      split
      · trivial
      · next k hk =>
        rw [hk] at ih
        obtain ⟨h1, h2, h3, h4, h5⟩ := ih
        refine ⟨by omega, by omega, h3, h4, fun m hm hmk => ?_⟩
        by_cases hmj : m = j
        · rw [hmj, hset]
        · exact h5 m (hmore m hm hmj) hmk
      · next hk =>
        rw [hk] at ih
        intro m hm hlt
        by_cases hmj : m = j
        · rw [hmj, hset]
        · exact ih m (hmore m hm hmj) (by omega)

theorem scan_eq_free : ∀ (fuel j : ℕ), j ≤ k → k < j + fuel → i * bitPerBlock + k < sb.numBlocks →
    bitmapGet bm k = false → (∀ m, j ≤ m → m < k → bitmapGet bm m = true) → scan sb i bm fuel j = .free k
  | 0, j, h1, h2, _, _, _ => by omega
  | fuel + 1, j, h1, h2, hlt, hk, hset => by
    unfold scan
    rw [if_neg (by omega)]
    by_cases hjk : j = k
    · rw [hjk, if_pos (by simp [hk])]
    · rw [if_neg (by simp [hset j le_rfl (by omega)])]
      exact scan_eq_free fuel (j + 1) (by omega) (by omega) hlt hk fun m hm => hset m (by omega)

theorem scan_eq_full {fuel : ℕ} (hlt : i * bitPerBlock + j + fuel ≤ sb.numBlocks)
    (hset : ∀ m, j ≤ m → m < j + fuel → bitmapGet bm m = true) : scan sb i bm fuel j = .full := by
  induction fuel generalizing j with
  | zero => rfl
  | succ fuel ih =>
    unfold scan
    rw [if_neg (by omega), if_neg (by simp [hset j le_rfl (by omega)])]
    exact ih (by omega) fun m h1 h2 => hset m (by omega) (by omega)

/-! ### The bitmap of a device -/

/-- The bitmap block with the bit of block `n`. -/
def bitmapBlock (sb : SuperBlock) (n : ℕ) : ℕ := sb.bitmapStart + n / bitPerBlock

/-- Block `n` is marked as used. -/
def marked (sb : SuperBlock) (d : Disk) (n : ℕ) : Bool := bitmapGet (d (bitmapBlock sb n)) (n % bitPerBlock)

/-- The device with block `n` taken: it is zeroed, and its bit is set. -/
def takeBlock (sb : SuperBlock) (d : Disk) (n : ℕ) : Disk :=
  let d := Function.update d n fun _ => 0
  Function.update d (bitmapBlock sb n) (bitmapSet (d (bitmapBlock sb n)) (n % bitPerBlock))

/-- Block `n` is the first one that `cache_alloc` can take. -/
structure FirstFree (sb : SuperBlock) (d : Disk) (n : ℕ) : Prop where
  free : marked sb d n = false
  lt : n < sb.numBlocks
  first : ∀ m < n, marked sb d m = true
  scanned : n / bitPerBlock < numBitmapBlocks sb

theorem div_mod_bit {i j : ℕ} (hj : j < bitPerBlock) :
    (i * bitPerBlock + j) / bitPerBlock = i ∧ (i * bitPerBlock + j) % bitPerBlock = j := by
  unfold bitPerBlock blockSize at *
  omega

theorem marked_of_bit (d : Disk) {i j : ℕ} (hj : j < bitPerBlock) :
    marked sb d (i * bitPerBlock + j) = bitmapGet (d (sb.bitmapStart + i)) j := by
  unfold marked bitmapBlock
  rw [(div_mod_bit hj).1, (div_mod_bit hj).2]

theorem FirstFree.scan {d : Disk} {i n : ℕ} (hf : FirstFree sb d n) (hi : i ≤ n / bitPerBlock) :
    scan sb i (d (sb.bitmapStart + i)) bitPerBlock 0 =
      if i = n / bitPerBlock then .free (n % bitPerBlock) else .full := by
  have hdm := Nat.div_add_mod' n bitPerBlock
  have hmod : n % bitPerBlock < bitPerBlock := Nat.mod_lt _ (by decide)
  split_ifs with hin
  · refine scan_eq_free _ 0 (Nat.zero_le _) (by omega) (by rw [hin, hdm]; exact hf.lt) ?_ fun m _ hm => ?_
    · have hfree := hf.free
      rwa [← hdm, marked_of_bit _ hmod, ← hin] at hfree
    · rw [← marked_of_bit _ (lt_trans hm hmod)]
      exact hf.first _ (by rw [hin]; omega)
  · have hnext : (i + 1) * bitPerBlock ≤ n := by
      have hle := Nat.mul_le_mul_right bitPerBlock (show i + 1 ≤ n / bitPerBlock by omega)
      omega
    rw [Nat.add_mul, Nat.one_mul] at hnext
    refine scan_eq_full (by have := hf.lt; omega) fun m _ hm => ?_
    rw [← marked_of_bit _ (by omega)]
    exact hf.first _ (by omega)

theorem marked_takeBlock {d : Disk} {m n : ℕ} (hm : bitmapBlock sb m ≠ n) :
    marked sb (takeBlock sb d n) m = (decide (m = n) || marked sb d m) := by
  have hlt : ∀ m, m % bitPerBlock < bitPerBlock := fun m => Nat.mod_lt _ (by decide)
  unfold marked takeBlock
  by_cases hb : bitmapBlock sb m = bitmapBlock sb n
  · have hdiv : m / bitPerBlock = n / bitPerBlock := by unfold bitmapBlock at hb; omega
    have hiff : m % bitPerBlock = n % bitPerBlock ↔ m = n := by
      refine ⟨fun h => ?_, fun h => by rw [h]⟩
      rw [← Nat.div_add_mod m bitPerBlock, ← Nat.div_add_mod n bitPerBlock, hdiv, h]
    rw [hb, update_self, update_of_ne (by rwa [← hb]), bitmapGet_bitmapSet (hlt n)]
    simp only [hiff]
  · have hne : m ≠ n := by rintro rfl; exact hb rfl
    rw [update_of_ne hb, update_of_ne hm]
    simp [hne]

/-- The device with block `n` given back: its bit is cleared. -/
def freeBlock (sb : SuperBlock) (d : Disk) (n : ℕ) : Disk :=
  Function.update d (bitmapBlock sb n) (bitmapClear (d (bitmapBlock sb n)) (n % bitPerBlock))

theorem marked_freeBlock_self (d : Disk) (n : ℕ) : marked sb (freeBlock sb d n) n = false := by
  unfold marked freeBlock
  rw [update_self, bitmapGet_bitmapClear (Nat.mod_lt _ (by decide))]
  simp

theorem marked_freeBlock {d : Disk} {m n : ℕ} (hne : m ≠ n) :
    marked sb (freeBlock sb d n) m = marked sb d m := by
  unfold marked freeBlock
  by_cases hb : bitmapBlock sb m = bitmapBlock sb n
  · have hdiv : m / bitPerBlock = n / bitPerBlock := by unfold bitmapBlock at hb; omega
    have hmod : m % bitPerBlock ≠ n % bitPerBlock := fun h => hne (by
      rw [← Nat.div_add_mod m bitPerBlock, ← Nat.div_add_mod n bitPerBlock, hdiv, h])
    rw [hb, update_self, bitmapGet_bitmapClear (Nat.mod_lt _ (by decide))]
    simp [hmod]
  · rw [update_of_ne hb]

/-! ### `cache_alloc` on a volume -/

section volume

@[simp] theorem run_acquire (x : Vol) (n : ℕ) : (acquire n).run (volCall sb) x =
    if n ∈ home sb ∧ n < 2 ^ 64 ∧ n ∉ x.held then
      some (x.cur n, { x with held := n :: x.held, known := insert n x.known })
    else none := Prog.run_perform _ _

@[simp] theorem run_modify (x : Vol) (n : ℕ) (f : BlockData → BlockData) :
    (modify n f).run (volCall sb) x =
      if n ∈ x.known then some ((), { x with cur := Function.update x.cur n (f (x.cur n)) }) else none :=
  Prog.run_perform _ _

@[simp] theorem run_sync (x : Vol) (n : ℕ) : (sync n).run (volCall sb) x =
    x.op.bind fun l => if n ∉ x.held then none else (logBlock l n).map fun l => ((), { x with op := some l }) := by
  refine (Prog.run_perform _ _).trans ?_
  cases hop : x.op <;> simp [volCall, hop] <;> rfl

@[simp] theorem run_release (x : Vol) (n : ℕ) : (release n).run (volCall sb) x =
    if n ∈ x.held then some ((), { x with held := x.held.erase n }) else none := Prog.run_perform _ _

theorem claim_cur (hj : j < bitPerBlock) (h : (claim sb i j).run (volCall sb) x = some (n, x')) :
    n = i * bitPerBlock + j ∧ x'.cur = takeBlock sb x.cur n := by
  simp only [claim, Prog.run_bind, run_acquire, run_modify, run_sync, run_release, Prog.run_pure,
    bind_eq_some_iff, ite_none_right_eq_some, ite_none_left_eq_some,
    map_eq_some_iff, some.injEq] at h
  obtain ⟨_, ⟨-, rfl⟩, _, ⟨-, rfl⟩, _, ⟨_, -, -, _, -, rfl⟩, _, ⟨-, rfl⟩, _, ⟨_, -, -, _, -, rfl⟩, _,
    ⟨-, rfl⟩, _, ⟨-, rfl⟩, h⟩ := h
  obtain ⟨rfl, rfl⟩ := Prod.mk.inj h
  refine ⟨rfl, ?_⟩
  unfold takeBlock bitmapBlock
  rw [(div_mod_bit hj).1, (div_mod_bit hj).2]

theorem cacheAllocLoop_cur {fuel i : ℕ} (hbelow : ∀ m < i * bitPerBlock, marked sb x.cur m = true)
    (hle : i + fuel ≤ numBitmapBlocks sb)
    (h : (cacheAllocLoop sb fuel i).run (volCall sb) x = some (n, x')) :
    FirstFree sb x.cur n ∧ x'.cur = takeBlock sb x.cur n := by
  induction fuel generalizing i x with
  | zero => simp [cacheAllocLoop] at h
  | succ fuel ih =>
    simp only [cacheAllocLoop, Prog.run_bind, run_acquire, bind_eq_some_iff,
      ite_none_right_eq_some, some.injEq] at h
    obtain ⟨_, ⟨-, rfl⟩, h⟩ := h
    -- the block `i` of the bitmap has been looked at up to bit `k`
    have hmarks : ∀ {k}, k ≤ bitPerBlock → (∀ j < k, bitmapGet (x.cur (sb.bitmapStart + i)) j = true) →
        ∀ m < i * bitPerBlock + k, marked sb x.cur m = true := by
      intro k hk hset m hm
      by_cases hmi : m < i * bitPerBlock
      · exact hbelow m hmi
      · obtain ⟨j, rfl⟩ : ∃ j, m = i * bitPerBlock + j := ⟨m - i * bitPerBlock, by omega⟩
        rw [marked_of_bit _ (by omega)]
        exact hset j (by omega)
    have hspec := @scan_spec sb i (x.cur (sb.bitmapStart + i)) bitPerBlock 0
    dsimp only at h
    generalize scan sb i (x.cur (sb.bitmapStart + i)) bitPerBlock 0 = r at h hspec
    cases r with
    | beyond =>
      simp at h
    | free j =>
      obtain ⟨-, hlt, hclear, hdev, hset⟩ := hspec
      have hj : j < bitPerBlock := by omega
      obtain ⟨rfl, hcur⟩ := claim_cur hj h
      refine ⟨⟨by rw [marked_of_bit _ hj, hclear], hdev, ?_, ?_⟩, hcur⟩
      · exact hmarks (by omega) fun m hm => hset m (Nat.zero_le m) hm
      · rw [(div_mod_bit hj).1]
        omega
    | full =>
      simp only [Prog.run_bind, run_release, bind_eq_some_iff, ite_none_right_eq_some,
        some.injEq] at h
      obtain ⟨_, ⟨-, rfl⟩, h⟩ := h
      have hrest := fun hb hf => ih (i := i + 1) hb hf h
      refine hrest (fun m hm => ?_) (by omega)
      rw [Nat.add_mul, Nat.one_mul] at hm
      exact hmarks le_rfl (fun j hj => hspec j (Nat.zero_le j) (by omega)) m hm

/-- **`cache_alloc` takes the first free block.** -/
theorem cacheAlloc_cur {rm : ℕ} (h : (cacheAlloc sb rm).run (volCall sb) x = some (n, x')) :
    FirstFree sb x.cur n ∧ x'.cur = takeBlock sb x.cur n := by
  simp only [cacheAlloc, Prog.run_bind, Prog.run_check] at h
  split_ifs at h
  · exact cacheAllocLoop_cur (fun m hm => by omega) (by omega) h
  · simp at h

/-- **What `cache_free` does to the contents.** -/
theorem cacheFree_cur {u : Unit} (h : (cacheFree sb n).run (volCall sb) x = some (u, x')) :
    x'.cur = freeBlock sb x.cur n := by
  simp only [cacheFree, Prog.run_bind, run_acquire, run_modify, run_sync, run_release,
    bind_eq_some_iff, ite_none_right_eq_some, ite_none_left_eq_some,
    map_eq_some_iff, some.injEq] at h
  obtain ⟨_, ⟨-, rfl⟩, _, ⟨-, rfl⟩, _, ⟨_, -, -, _, -, rfl⟩, -, h⟩ := h
  obtain ⟨-, rfl⟩ := Prod.mk.inj h
  unfold freeBlock bitmapBlock
  rw [Nat.add_comm]

/-- The blocks that `cache_alloc` works on when it takes block `n` are outside the log area, and `n` is
not in the bitmap. -/
structure Reachable (sb : SuperBlock) (n : ℕ) : Prop where
  bitmap : ∀ i ≤ n / bitPerBlock, sb.bitmapStart + i ∈ home sb ∧ sb.bitmapStart + i < 2 ^ 64
  home : n ∈ home sb
  ne : n ≠ bitmapBlock sb n

end volume

end OsHonor.Fs.Cache.Bitmap
