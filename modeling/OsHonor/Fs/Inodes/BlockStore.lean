import Mathlib.Data.Fintype.Sum
import Mathlib.Tactic.DeriveFintype
import OsHonor.Base.Refs
import OsHonor.Fs.Inodes.Code

/-! # The inode layer over an array of blocks

The block cache that the inode layer expects: an array of blocks with an allocator that gives out fresh,
zeroed blocks (`storeCall`). `fs/test/mock/cache.hpp` is such a cache; that `fs/cache.c` is one is the
business of the modules on the cache.

The second half looks at a file from the outside: the block numbers its entry refers to, each in its
`Slot`, and the bytes they hold. -/

namespace OsHonor.Fs.Inodes.BlockStore

open Base.Programs BlockDevice Prog
open Format Code

/-! ### The array -/

/-- The array: the blocks, the numbers in use, the numbers freed (the latest first), and what the
console is going to return. -/
structure Store where
  blocks : Disk
  used : Finset ℕ
  frees : List ℕ
  input : List (List UInt8)

/-- A number that can be given to a file: it fits into the `u32` of an address, `0` stands for no block,
and the inode table is elsewhere. -/
structure IsData (sb : SuperBlock) (n : ℕ) : Prop where
  ne_zero : n ≠ 0
  lt : n < 2 ^ 32
  ne_table : ∀ i < sb.numInodes, toBlockNo sb i ≠ n

/-- The choice of the allocator. -/
structure Allocator (sb : SuperBlock) where
  pick : Finset ℕ → Option ℕ
  fresh : ∀ {u n}, pick u = some n → n ∉ u
  data : ∀ {u n}, pick u = some n → IsData sb n

/-- A store into block `n`. -/
def Store.modify (s : Store) (n : ℕ) (f : BlockData → BlockData) : Store :=
  { s with blocks := Function.update s.blocks n (f (s.blocks n)) }

/-- Block `n` is given out, zeroed. -/
def Store.take (s : Store) (n : ℕ) : Store :=
  { s with blocks := Function.update s.blocks n fun _ => 0, used := insert n s.used }

/-- Block `n` is given back. -/
def Store.drop (s : Store) (n : ℕ) : Store :=
  { s with used := s.used.erase n, frees := n :: s.frees }

variable {sb : SuperBlock}

/-- **The calls on the array.** -/
def storeCall (al : Allocator sb) : Handler Store Op Op.Resp := fun s c =>
  match c with
  | .beginOp | .endOp | .sync _ | .release _ => some ((), s)
  | .acquire n => some (s.blocks n, s)
  | .modify n f => some ((), s.modify n f)
  | .alloc => (al.pick s.used).map fun n => (n, s.take n)
  | .free n => some ((), s.drop n)
  | .consoleRead _ => s.input.head?.map fun l => (l, { s with input := s.input.tail })
  | .consoleWrite l => some (l.length, s)

section run

variable {al : Allocator sb} {s : Store}

@[simp] theorem run_acquire (n : ℕ) : (acquire n).run (storeCall al) s = some (s.blocks n, s) :=
  run_perform _ _

@[simp] theorem run_modify (n : ℕ) (f : BlockData → BlockData) :
    (modify n f).run (storeCall al) s = some ((), s.modify n f) := run_perform _ _

@[simp] theorem run_sync (n : ℕ) : (sync n).run (storeCall al) s = some ((), s) := run_perform _ _

@[simp] theorem run_release (n : ℕ) : (release n).run (storeCall al) s = some ((), s) :=
  run_perform _ _

@[simp] theorem run_free (n : ℕ) : (free n).run (storeCall al) s = some ((), s.drop n) :=
  run_perform _ _

@[simp] theorem run_consoleWrite (l : List UInt8) :
    (consoleWrite l).run (storeCall al) s = some (l.length, s) := run_perform _ _

@[simp] theorem run_alloc :
    alloc.run (storeCall al) s = (al.pick s.used).map fun n => (n, s.take n) := run_perform _ _

theorem meets_alloc {F : Prop} {Q : ℕ → Store → Prop} (hF : al.pick s.used = none → F)
    (hq : ∀ n, al.pick s.used = some n → Q n (s.take n)) : Prog.Meets (storeCall al) F alloc s Q := by
  rcases hp : al.pick s.used with _ | n
  · exact meets_of_none (by simp [hp]) (hF hp)
  · exact meets_of_run (by simp [hp]) (hq n hp)

end run

/-! ### Files -/

/-- The places of an inode that refer to a block. -/
inductive Slot where
  | direct (i : Fin numDirect)
  | indirect
  | entry (j : Fin numIndirect)
  deriving DecidableEq, Fintype

/-- **The block numbers of an inode**, `0` where there is none. -/
def refs (b : Disk) (e : Dinode) : Slot → ℕ
  | .direct i => (e.addrs i).toNat
  | .indirect => e.indirect.toNat
  | .entry j => if e.indirect = 0 then 0 else (getAddr (b e.indirect.toNat) j).toNat

/-- The slot for the block with index `i` of a file. -/
def dataSlot (i : ℕ) : Slot :=
  if h : i < numDirect then .direct ⟨i, h⟩
  else if h : i - numDirect < numIndirect then .entry ⟨i - numDirect, h⟩
  else .indirect

/-- The number of the block that holds byte `p` of a file. -/
def blockOf (b : Disk) (e : Dinode) (p : ℕ) : ℕ := refs b e (dataSlot (p / blockSize))

/-- Byte `p` of a file. -/
def byteAt (b : Disk) (e : Dinode) (p : ℕ) : UInt8 := (b (blockOf b e p)).byte (p % blockSize)

/-- **The contents of a file.** -/
def contents (b : Disk) (e : Dinode) : List UInt8 := (List.range e.numBytes.toNat).map (byteAt b e)

theorem dataSlot_of_lt {i : ℕ} (h : i < numDirect) : dataSlot i = .direct ⟨i, h⟩ := dif_pos h

theorem dataSlot_of_ge {i : ℕ} (h : ¬ i < numDirect) (hi : i - numDirect < numIndirect) :
    dataSlot i = .entry ⟨i - numDirect, hi⟩ := by
  unfold dataSlot
  rw [dif_neg h, dif_pos hi]

theorem dataSlot_ne_indirect {i : ℕ} (h : i < inodeMaxBlocks) : dataSlot i ≠ .indirect := by
  unfold inodeMaxBlocks at h
  unfold dataSlot
  split_ifs
  · simp
  · simp
  · omega

theorem dataSlot_inj {i j : ℕ} (hj : j < inodeMaxBlocks) (h : dataSlot i = dataSlot j) : i = j := by
  unfold inodeMaxBlocks at hj
  unfold dataSlot at h
  split_ifs at h
  all_goals first | omega | (simp only [Slot.direct.injEq, Slot.entry.injEq, Fin.mk.injEq] at h; omega)

theorem refs_congr {b b' : Disk} {e : Dinode}
    (h : e.indirect ≠ 0 → b' e.indirect.toNat = b e.indirect.toNat) : refs b' e = refs b e := by
  funext x
  cases x with
  | direct i => rfl
  | indirect => rfl
  | entry j =>
    simp only [refs]
    split_ifs with h0
    · rfl
    · rw [h h0]

theorem toNat_ne_zero {v : UInt32} : v.toNat ≠ 0 ↔ v ≠ 0 := by
  rw [not_iff_not, ← UInt32.toNat_inj]
  rfl

end OsHonor.Fs.Inodes.BlockStore
