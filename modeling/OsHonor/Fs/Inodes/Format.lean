import OsHonor.Fs.BlockDevice

/-! # The on-disk formats of the inode layer (`fs/inode.h`)

An inode block holds eight entries of 64 bytes (`struct dinode`), an indirect block 128 block numbers
of four bytes, and a directory a sequence of entries of 16 bytes (`struct dirent`); all numbers are
little-endian. Reading an entry back after it was written gives the entry, and the other entries of the
block are untouched. -/

namespace OsHonor.Fs.Inodes.Format

open Base.Bytes BlockDevice

/-! ### Constants -/

/-- `INODE_NUM_DIRECT`. -/
def numDirect : ℕ := 12

/-- `INODE_NUM_INDIRECT`. -/
def numIndirect : ℕ := blockSize / 4

/-- `INODE_PER_BLOCK`: the size of an entry is 64. -/
def inodePerBlock : ℕ := blockSize / 64

def inodeMaxBlocks : ℕ := numDirect + numIndirect

def inodeMaxBytes : ℕ := inodeMaxBlocks * blockSize

/-- `INODE_INVALID`: the type of a free inode. -/
def inodeInvalid : UInt16 := 0

def inodeDirectory : UInt16 := 1

def inodeRegular : UInt16 := 2

def inodeDevice : UInt16 := 3

def rootInodeNo : ℕ := 1

/-! ### Inode entries -/

/-- `struct dinode`. -/
@[ext]
structure Dinode where
  type : UInt16
  major : UInt16
  minor : UInt16
  numLinks : UInt16
  numBytes : UInt32
  addrs : Fin numDirect → UInt32
  indirect : UInt32
  deriving DecidableEq

/-- The entry that `memset` leaves. -/
def Dinode.zero : Dinode := ⟨0, 0, 0, 0, 0, fun _ => 0, 0⟩

/-- Byte `j` of an entry. -/
def Dinode.byte (e : Dinode) (j : ℕ) : UInt8 :=
  if j < 2 then leByte e.type.toNat j
  else if j < 4 then leByte e.major.toNat (j - 2)
  else if j < 6 then leByte e.minor.toNat (j - 4)
  else if j < 8 then leByte e.numLinks.toNat (j - 6)
  else if j < 12 then leByte e.numBytes.toNat (j - 8)
  else if h : (j - 12) / 4 < numDirect then leByte (e.addrs ⟨(j - 12) / 4, h⟩).toNat ((j - 12) % 4)
  else leByte e.indirect.toNat (j - 60)

/-- Entry `k` of an inode block. -/
def getEntry (d : BlockData) (k : ℕ) : Dinode where
  type := UInt16.ofNat (d.getLe 2 (64 * k))
  major := UInt16.ofNat (d.getLe 2 (64 * k + 2))
  minor := UInt16.ofNat (d.getLe 2 (64 * k + 4))
  numLinks := UInt16.ofNat (d.getLe 2 (64 * k + 6))
  numBytes := UInt32.ofNat (d.getLe 4 (64 * k + 8))
  addrs i := UInt32.ofNat (d.getLe 4 (64 * k + 12 + 4 * i))
  indirect := UInt32.ofNat (d.getLe 4 (64 * k + 60))

/-- The block with entry `k` overwritten. -/
def setEntry (d : BlockData) (k : ℕ) (e : Dinode) : BlockData := fun i =>
  if 64 * k ≤ i.val ∧ i.val < 64 * k + 64 then e.byte (i.val - 64 * k) else d i

variable {d : BlockData} {k : ℕ} {e : Dinode}

theorem byte_setEntry (hk : k < inodePerBlock) (j : ℕ) :
    (setEntry d k e).byte j = if 64 * k ≤ j ∧ j < 64 * k + 64 then e.byte (j - 64 * k) else d.byte j := by
  have hk' : k < 8 := hk
  unfold Buf.byte
  by_cases hj : j < blockSize
  · simp only [hj, dif_pos, setEntry]
  · have : 512 ≤ j := by unfold blockSize at hj; omega
    rw [dif_neg hj, dif_neg hj, if_neg (by omega)]

theorem getLe_setEntry (hk : k < inodePerBlock) {w off v : ℕ}
    (hw : off + w ≤ 64) (hbytes : ∀ j < w, e.byte (off + j) = leByte v j) (hv : v < 256 ^ w) :
    (setEntry d k e).getLe w (64 * k + off) = v := by
  refine Buf.getLe_of_bytes (fun j hj => ?_) hv
  rw [byte_setEntry hk, if_pos (by omega), ← hbytes j hj]
  congr 1
  omega

/-- **Reading back an entry.** -/
theorem getEntry_setEntry (hk : k < inodePerBlock) : getEntry (setEntry d k e) k = e := by
  have h16 : ∀ {o : ℕ} {v : UInt16}, o + 2 ≤ 64 → (∀ j < 2, e.byte (o + j) = leByte v.toNat j) →
      UInt16.ofNat ((setEntry d k e).getLe 2 (64 * k + o)) = v := by
    intro o v hw hb
    rw [getLe_setEntry hk hw hb v.toNat_lt, UInt16.ofNat_toNat]
  have h32 : ∀ {o : ℕ} {v : UInt32}, o + 4 ≤ 64 → (∀ j < 4, e.byte (o + j) = leByte v.toNat j) →
      UInt32.ofNat ((setEntry d k e).getLe 4 (64 * k + o)) = v := by
    intro o v hw hb
    rw [getLe_setEntry hk hw hb v.toNat_lt, UInt32.ofNat_toNat]
  ext i
  · refine congrArg _ (h16 (o := 0) (by omega) fun j hj => ?_)
    unfold Dinode.byte
    rw [if_pos (by omega), Nat.zero_add]
  · refine congrArg _ (h16 (by omega) fun j hj => ?_)
    unfold Dinode.byte
    rw [if_neg (by omega), if_pos (by omega), Nat.add_sub_cancel_left]
  · refine congrArg _ (h16 (by omega) fun j hj => ?_)
    unfold Dinode.byte
    rw [if_neg (by omega), if_neg (by omega), if_pos (by omega), Nat.add_sub_cancel_left]
  · refine congrArg _ (h16 (by omega) fun j hj => ?_)
    unfold Dinode.byte
    rw [if_neg (by omega), if_neg (by omega), if_neg (by omega), if_pos (by omega),
      Nat.add_sub_cancel_left]
  · refine congrArg _ (h32 (by omega) fun j hj => ?_)
    unfold Dinode.byte
    rw [if_neg (by omega), if_neg (by omega), if_neg (by omega), if_neg (by omega), if_pos (by omega),
      Nat.add_sub_cancel_left]
  · have hi : i.val < 12 := i.isLt
    show (UInt32.ofNat ((setEntry d k e).getLe 4 (64 * k + 12 + 4 * i))).toNat = _
    rw [Nat.add_assoc]
    refine congrArg _ (h32 (by omega) fun j hj => ?_)
    unfold Dinode.byte
    have hq : (12 + 4 * i.val + j - 12) / 4 = i.val := by omega
    have hr : (12 + 4 * i.val + j - 12) % 4 = j := by omega
    rw [if_neg (by omega), if_neg (by omega), if_neg (by omega), if_neg (by omega), if_neg (by omega)]
    simp only [hq, hr, i.isLt, dif_pos]
  · refine congrArg _ (h32 (by omega) fun j hj => ?_)
    unfold Dinode.byte
    have hq : ¬ (60 + j - 12) / 4 < numDirect := by unfold numDirect; omega
    rw [if_neg (by omega), if_neg (by omega), if_neg (by omega), if_neg (by omega), if_neg (by omega),
      dif_neg hq, Nat.add_sub_cancel_left]

/-- **The other entries stay.** -/
theorem getEntry_setEntry_of_ne {k' : ℕ} (hk : k < inodePerBlock)
    (hne : k' ≠ k) : getEntry (setEntry d k e) k' = getEntry d k' := by
  have hle : ∀ {w o : ℕ}, o + w ≤ 64 →
      (setEntry d k e).getLe w (64 * k' + o) = d.getLe w (64 * k' + o) := by
    intro w o hw
    refine Buf.getLe_congr fun j hj => ?_
    rw [byte_setEntry hk, if_neg (by omega)]
  have haddrs : ∀ i : Fin numDirect, (setEntry d k e).getLe 4 (64 * k' + 12 + 4 * i) =
      d.getLe 4 (64 * k' + 12 + 4 * i) := by
    intro i
    have hi : i.val < 12 := i.isLt
    rw [Nat.add_assoc]
    exact hle (by omega)
  have hfirst : (setEntry d k e).getLe 2 (64 * k') = d.getLe 2 (64 * k') := hle (o := 0) (by omega)
  unfold getEntry
  simp only [hfirst, hle (o := 2) (w := 2) (by omega),
    hle (o := 4) (w := 2) (by omega), hle (o := 6) (w := 2) (by omega),
    hle (o := 8) (w := 4) (by omega), hle (o := 60) (w := 4) (by omega), haddrs]

/-! ### Indirect blocks -/

/-- `get_addrs(block)[i]`. -/
def getAddr (d : BlockData) (i : ℕ) : UInt32 := UInt32.ofNat (d.getLe 4 (4 * i))

/-- The indirect block with entry `i` overwritten. -/
def setAddr (d : BlockData) (i : ℕ) (v : UInt32) : BlockData := d.setLe 4 (4 * i) v.toNat

theorem getAddr_setAddr {i : ℕ} {v : UInt32} (hi : i < numIndirect) :
    getAddr (setAddr d i v) i = v := by
  have hi' : i < 128 := hi
  unfold getAddr setAddr
  rw [Buf.getLe_setLe_self (by unfold blockSize; omega) v.toNat_lt, UInt32.ofNat_toNat]

theorem getAddr_setAddr_of_ne {i j : ℕ} {v : UInt32} (hi : i < numIndirect)
    (hne : j ≠ i) : getAddr (setAddr d i v) j = getAddr d j := by
  have hi' : i < 128 := hi
  unfold getAddr setAddr
  rw [Buf.getLe_setLe_of_disjoint (by unfold blockSize; omega) (by omega)]

/-! ### Directory entries -/

def fileNameMaxLength : ℕ := 14

/-- `sizeof(struct dirent)`. -/
def direntSize : ℕ := 2 + fileNameMaxLength

/-- The memory of a `struct dirent`. -/
abbrev Dirent := Buf direntSize

abbrev Name := Buf fileNameMaxLength

/-- `inode_no`: `0` says that the entry is free. -/
def Dirent.inodeNo (d : Dirent) : UInt16 := UInt16.ofNat (d.getLe 2 0)

def Dirent.name (d : Dirent) : Name := fun i => d.byte (2 + i.val)

/-- The entry with the number `n` and the name `s`. -/
def Dirent.mk (n : UInt16) (s : Name) : Dirent := fun i =>
  if i.val < 2 then leByte n.toNat i.val else s.byte (i.val - 2)

def bytes {n : ℕ} (b : Buf n) : List UInt8 := List.ofFn b

@[simp] theorem length_bytes {n : ℕ} (b : Buf n) : (bytes b).length = n := List.length_ofFn

/-- `strncmp(s, t, n) == 0`. -/
def strncmpEq : ℕ → (ℕ → UInt8) → (ℕ → UInt8) → Bool
  | 0, _, _ => true
  | n + 1, s, t =>
    if s 0 ≠ t 0 then false
    else if s 0 = 0 then true
    else strncmpEq n (fun i => s (i + 1)) fun i => t (i + 1)

/-- Two names are equal for `strncmp(.., .., FILE_NAME_MAX_LENGTH)`. -/
def Name.same (s t : Name) : Bool := strncmpEq fileNameMaxLength s.byte t.byte

end OsHonor.Fs.Inodes.Format
