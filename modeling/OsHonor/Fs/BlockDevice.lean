import OsHonor.Base.Bytes

/-! # The block device and its log header (`fs/block_device.h`)

A disk is a function from block numbers to blocks of `blockSize` bytes; `device->read` and
`device->write` transfer one whole block, and a block write is atomic.

The log header is one block: `num_blocks` and `logMaxSize` block numbers, each a `usize` of eight
bytes. In memory `blockNo` is the array seen as memory: the entries from `logMaxSize` on lie behind
the structure, so a device read of the header leaves them alone. -/

namespace OsHonor.Fs.BlockDevice

open List Base.Bytes

def blockSize : ℕ := 512

/-- `LOG_MAX_SIZE`: the block numbers that fit into the header block beside `num_blocks`. -/
def logMaxSize : ℕ := (blockSize - 8) / 8

abbrev BlockData := Buf blockSize

abbrev Disk := ℕ → BlockData

/-- `struct super_block`, as far as the block cache reads it. The fields are `u32`; `numLogBlocks`
counts the log header, and the log area lies inside the device. -/
structure SuperBlock where
  numBlocks : ℕ
  numDataBlocks : ℕ
  numInodes : ℕ
  numLogBlocks : ℕ
  logStart : ℕ
  inodeStart : ℕ
  bitmapStart : ℕ
  numBlocks_lt : numBlocks < 2 ^ 32
  numLogBlocks_pos : 0 < numLogBlocks
  log_le : logStart + numLogBlocks ≤ numBlocks

/-- The log entries that fit into the header and into the log area. -/
def capacity (sb : SuperBlock) : ℕ := min logMaxSize (sb.numLogBlocks - 1)

def home (sb : SuperBlock) : Set ℕ := {n | ¬ (sb.logStart ≤ n ∧ n < sb.logStart + sb.numLogBlocks)}

instance (sb : SuperBlock) (n : ℕ) : Decidable (n ∈ home sb) :=
  inferInstanceAs (Decidable (¬ (sb.logStart ≤ n ∧ n < sb.logStart + sb.numLogBlocks)))

/-- The layout `user/mkfs` writes. -/
def mkfsLayout : SuperBlock where
  numBlocks := 1000
  numDataBlocks := 908
  numInodes := 200
  numLogBlocks := 63
  logStart := 2
  inodeStart := 65
  bitmapStart := 91
  numBlocks_lt := by decide
  numLogBlocks_pos := by decide
  log_le := by decide

/-- A device with 4096 data blocks after 96 blocks of metadata. -/
def fullLayout : SuperBlock where
  numBlocks := 4192
  numDataBlocks := 4096
  numInodes := 200
  numLogBlocks := 63
  logStart := 2
  inodeStart := 65
  bitmapStart := 91
  numBlocks_lt := by decide
  numLogBlocks_pos := by decide
  log_le := by decide

def zeroDisk : Disk := fun _ _ => 0

/-- `struct log_header`. -/
structure LogHeader where
  numBlocks : ℕ
  blockNo : ℕ → ℕ

variable {h : LogHeader} {i : ℕ}

namespace LogHeader

/-- The logged block numbers `block_no[0..num_blocks)`. -/
def logged (h : LogHeader) : List ℕ := (List.range h.numBlocks).map h.blockNo

theorem logged_drop (hi : i < h.numBlocks) :
    h.logged.drop i = h.blockNo i :: h.logged.drop (i + 1) := by
  rw [drop_eq_getElem_cons (by simpa [logged] using hi)]
  simp [logged]

theorem logged_drop_eq_nil (hi : h.numBlocks ≤ i) : h.logged.drop i = [] := by
  simp [logged, hi]

theorem mem_logged {n : ℕ} : n ∈ h.logged ↔ ∃ i < h.numBlocks, h.blockNo i = n := by
  simp [logged]

theorem logged_concat (h : LogHeader) (n : ℕ) :
    logged ⟨h.numBlocks + 1, Function.update h.blockNo h.numBlocks n⟩ = h.logged ++ [n] := by
  unfold logged
  rw [range_succ, map_append]
  congr 1
  · refine map_congr_left fun i hi => ?_
    exact Function.update_of_ne (by have := mem_range.mp hi; omega) ..
  · simp

def encode (h : LogHeader) : BlockData := fun i =>
  if i.val < 8 then leByte h.numBlocks i.val else leByte (h.blockNo (i.val / 8 - 1)) (i.val % 8)

/-- `header.num_blocks` of an on-disk header. -/
def numOf (d : BlockData) : ℕ := d.getLe 8 0

/-- `header.block_no[i]` of an on-disk header. -/
def entryOf (d : BlockData) (i : ℕ) : ℕ := d.getLe 8 (8 + 8 * i)

def read (h : LogHeader) (d : BlockData) : LogHeader where
  numBlocks := numOf d
  blockNo i := if i < logMaxSize then entryOf d i else h.blockNo i

theorem numOf_zeroDisk (n : ℕ) : numOf (zeroDisk n) = 0 := by
  show numOf (zeroDisk 0) = 0
  decide

theorem numOf_encode (hn : h.numBlocks < 2 ^ 64) : numOf h.encode = h.numBlocks := by
  rw [← leVal_leByte_of_lt (w := 8) (v := h.numBlocks) (by omega)]
  refine leVal_congr 8 fun k hk => ?_
  have h1 : k < blockSize := by unfold blockSize; omega
  unfold Buf.byte
  rw [dif_pos h1]
  simp [encode, hk]

theorem entryOf_encode (hi : i < logMaxSize) (hb : h.blockNo i < 2 ^ 64) :
    entryOf h.encode i = h.blockNo i := by
  have hi' : i < 63 := hi
  unfold entryOf Buf.getLe
  rw [← leVal_leByte_of_lt (w := 8) (v := h.blockNo i) (by omega)]
  refine leVal_congr 8 fun k hk => ?_
  have h1 : 8 + 8 * i + k < blockSize := by unfold blockSize; omega
  unfold Buf.byte
  rw [dif_pos h1]
  have h2 : ¬ 8 + 8 * i + k < 8 := by omega
  simp only [encode, if_neg h2]
  rw [show (8 + 8 * i + k) / 8 - 1 = i by omega, show (8 + 8 * i + k) % 8 = k by omega]

end LogHeader

end OsHonor.Fs.BlockDevice
