import OsHonor.Base.Keyed
import OsHonor.Fs.BlockDevice
import OsHonor.Lib.Semaphore

/-! # Cached blocks and the list of them (`fs/cache.h`, the list half of `fs/cache.c`)

`blocks` is a circular list with a head; it is read here from the head on, so that `list_push_back`
appends and `list_forall`, which starts *behind* the head and visits the head last, runs over
`l.rotate 1`. `boost_frequency` only moves the head to the block after `b`.

A block is told apart by its address `addr`: `kalloc` returns one that is not in use, and a thread that
holds a block holds its address, whatever has become of the block since. -/

namespace OsHonor.Fs.Cache.Blocks

open List Base.Keyed BlockDevice Lib.Semaphore

/-- `OP_MAX_NUM_BLOCKS`: the distinct blocks one atomic operation may log. -/
def opMaxNumBlocks : ℕ := 40

def evictionThreshold : ℕ := 1024

/-- `struct block`, allocated at `addr`. -/
structure Block (T : Type) where
  addr : ℕ
  blockNo : ℕ
  acquired : Bool
  pinned : Bool
  lock : Sem T
  valid : Bool
  data : BlockData

variable {T : Type}

/-- The block `cache_acquire` makes on a miss, as it is when it is put into the list: `init_block`
with the lock taken at once. -/
def newBlock (a n : ℕ) : Block T where
  addr := a
  blockNo := n
  acquired := true
  pinned := false
  lock := ⟨0, []⟩
  valid := false
  data := fun _ => 0

def fetchCached (n : ℕ) (l : List (Block T)) : Option (Block T) :=
  (l.rotate 1).find? fun b => b.blockNo = n

/-- The block `_evict` frees: the first one that is neither pinned nor acquired. -/
def victim (l : List (Block T)) : Option (Block T) :=
  (l.rotate 1).find? fun b => !b.pinned && !b.acquired

def evict (l : List (Block T)) : List (Block T) :=
  match victim l with
  | none => l
  | some b => l.eraseP fun x => x.addr = b.addr

/-- The list on which `cache_acquire` puts the new block: evict when the cache is full. -/
def evictFull (l : List (Block T)) : List (Block T) :=
  if evictionThreshold ≤ l.length then evict l else l

/-- `boost_frequency`: the head becomes the block after the one at `a`. -/
def boostFrequency (a : ℕ) (l : List (Block T)) : List (Block T) := rotateAfter Block.addr a l

/-- The blocks with the one at address `a` changed by `f`. -/
def update (a : ℕ) (f : Block T → Block T) (l : List (Block T)) : List (Block T) :=
  modifyAt Block.addr a f l

/-- The block at address `a`. -/
def find (a : ℕ) (l : List (Block T)) : Option (Block T) := lookup Block.addr a l

/-! ### Changing a block in place -/

variable {a : ℕ} {l : List (Block T)} {b : Block T}

theorem mem_update {f : Block T → Block T} {x : Block T} :
    x ∈ update a f l ↔ ∃ b ∈ l, x = if b.addr = a then f b else b := mem_modifyAt

theorem map_update {β : Type} (g : Block T → β) {f : Block T → Block T} (hf : ∀ b, b.addr = a → g (f b) = g b) : (update a f l).map g = l.map g :=
  map_modifyAt g hf l

@[simp] theorem mem_boostFrequency : b ∈ boostFrequency a l ↔ b ∈ l := mem_rotateAfter

/-! ### What the scans find -/

theorem fetchCached_some {n : ℕ} (h : fetchCached n l = some b) : b ∈ l ∧ b.blockNo = n :=
  ⟨mem_rotate.mp (mem_of_find?_eq_some h), by simpa using find?_some h⟩

theorem fetchCached_none {n : ℕ} : fetchCached n l = none ↔ ∀ b ∈ l, b.blockNo ≠ n := by
  simp [fetchCached]

/-- **The victim is neither pinned nor acquired.** -/
theorem victim_some (h : victim l = some b) : b ∈ l ∧ b.pinned = false ∧ b.acquired = false := by
  have h1 := find?_some h
  simp only [Bool.and_eq_true, Bool.not_eq_eq_eq_not, Bool.not_true] at h1
  exact ⟨mem_rotate.mp (mem_of_find?_eq_some h), h1⟩

theorem evict_sublist (l : List (Block T)) : (evict l).Sublist l := by
  unfold evict
  split
  · exact .refl _
  · exact eraseP_sublist

theorem evictFull_sublist (l : List (Block T)) : (evictFull l).Sublist l := by
  unfold evictFull
  split_ifs
  · exact evict_sublist l
  · exact .refl _

theorem mem_evictFull_or (hb : b ∈ l) : b ∈ evictFull l ∨
      evictionThreshold ≤ l.length ∧ ∃ v, victim l = some v ∧ b.addr = v.addr := by
  unfold evictFull
  split_ifs with hfull
  · unfold evict
    split
    · exact Or.inl hb
    · next v hv =>
      by_cases h : b.addr = v.addr
      · exact Or.inr ⟨hfull, v, hv, h⟩
      · exact Or.inl ((mem_eraseP_of_neg (by simpa using h)).mpr hb)
  · exact Or.inl hb

end OsHonor.Fs.Cache.Blocks
