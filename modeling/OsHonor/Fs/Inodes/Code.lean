import OsHonor.Base.Keyed
import OsHonor.Base.Programs
import OsHonor.Fs.Inodes.Format

/-! # The inode layer (`fs/inode.c`)

The functions of `fs/inode.c` as programs over the block cache they are given (`struct block_cache`).
An inode in memory is passed by value and returned; the pointers into the list of cached inodes come in
with `inode_get`, `inode_share` and `inode_put`. The sleep locks of the inodes are left out: their
functions do nothing else, and a single process does not wait for itself.

`ctx == NULL` is `ctx = false`; only `inode_get` and `inode_read` work without a context, and neither
syncs. `PANIC` and a failed `ASSERT` are `Prog.fail`. The loops run with as much fuel as they can have
iterations. -/

namespace OsHonor.Fs.Inodes.Code

open Base.Keyed Base.Programs BlockDevice
open Format

/-! ### The interface of the block cache -/

/-- The calls of the inode layer: `struct block_cache`, and the console for device inodes. A block is
named by its number; `modify` is a store through the pointer to the block. -/
inductive Op where
  | beginOp
  | endOp
  | acquire (n : ℕ)
  | modify (n : ℕ) (f : BlockData → BlockData)
  | sync (n : ℕ)
  | release (n : ℕ)
  | alloc
  | free (n : ℕ)
  | consoleRead (count : ℕ)
  | consoleWrite (l : List UInt8)

def Op.Resp : Op → Type
  | .acquire _ => BlockData
  | .alloc | .consoleWrite _ => ℕ
  | .consoleRead _ => List UInt8
  | .beginOp | .endOp | .modify _ _ | .sync _ | .release _ | .free _ => Unit

abbrev FsProg := Prog Op Op.Resp

def beginOp : FsProg Unit := Prog.perform (R := Op.Resp) .beginOp
def endOp : FsProg Unit := Prog.perform (R := Op.Resp) .endOp
def acquire (n : ℕ) : FsProg BlockData := Prog.perform (R := Op.Resp) (.acquire n)
def modify (n : ℕ) (f : BlockData → BlockData) : FsProg Unit :=
  Prog.perform (R := Op.Resp) (.modify n f)
def sync (n : ℕ) : FsProg Unit := Prog.perform (R := Op.Resp) (.sync n)
def release (n : ℕ) : FsProg Unit := Prog.perform (R := Op.Resp) (.release n)
def alloc : FsProg ℕ := Prog.perform (R := Op.Resp) .alloc
def free (n : ℕ) : FsProg Unit := Prog.perform (R := Op.Resp) (.free n)
def consoleRead (count : ℕ) : FsProg (List UInt8) := Prog.perform (R := Op.Resp) (.consoleRead count)
def consoleWrite (l : List UInt8) : FsProg ℕ := Prog.perform (R := Op.Resp) (.consoleWrite l)

/-! ### Inodes -/

/-- `struct inode`, allocated at `addr`. -/
structure Inode where
  addr : ℕ
  rc : ℤ
  inodeNo : ℕ
  valid : Bool
  entry : Dinode

def toBlockNo (sb : SuperBlock) (inodeNo : ℕ) : ℕ := sb.inodeStart + inodeNo / inodePerBlock

/-- The index of the entry in its block, as `get_entry` computes it. -/
def entryIndex (inodeNo : ℕ) : ℕ := inodeNo % inodePerBlock

section

variable (sb : SuperBlock)

/-- The loop of `inode_alloc`. -/
def inodeAllocLoop (type : UInt16) : ℕ → ℕ → FsProg ℕ
  | 0, _ => .fail
  | fuel + 1, inodeNo => do
    let b ← acquire (toBlockNo sb inodeNo)
    if (getEntry b (entryIndex inodeNo)).type = inodeInvalid then do
      modify (toBlockNo sb inodeNo) fun b => setEntry b (entryIndex inodeNo) { Dinode.zero with type }
      sync (toBlockNo sb inodeNo)
      release (toBlockNo sb inodeNo)
      pure inodeNo
    else do
      release (toBlockNo sb inodeNo)
      inodeAllocLoop type fuel (inodeNo + 1)

def inodeAlloc (type : UInt16) : FsProg ℕ := do
  Prog.check (type ≠ inodeInvalid)
  inodeAllocLoop sb type (sb.numInodes - 1) 1

def inodeSync (inode : Inode) (doWrite : Bool) : FsProg Inode := do
  let blockNo := toBlockNo sb inode.inodeNo
  let b ← acquire blockNo
  if doWrite && inode.valid then do
    modify blockNo fun b => setEntry b (entryIndex inode.inodeNo) inode.entry
    sync blockNo
    release blockNo
    pure inode
  else do
    release blockNo
    pure (if inode.valid then inode
      else { inode with entry := getEntry b (entryIndex inode.inodeNo), valid := true })

/-! ### `inode_clear` -/

def clearDirect : List (Fin numDirect) → Dinode → FsProg Dinode
  | [], e => pure e
  | i :: is, e => do
    if e.addrs i ≠ 0 then do
      free (e.addrs i).toNat
      clearDirect is { e with addrs := Function.update e.addrs i 0 }
    else clearDirect is e

/-- Free the blocks of the indirect block `n`, whose contents are `b`. -/
def clearIndirect (n : ℕ) (b : BlockData) : List ℕ → FsProg Unit
  | [] => pure ()
  | i :: is => do
    if getAddr b i ≠ 0 then do
      free (getAddr b i).toNat
      modify n fun b => setAddr b i 0
      clearIndirect n b is
    else clearIndirect n b is

def inodeClear (inode : Inode) : FsProg Inode := do
  let e ← clearDirect (List.finRange numDirect) inode.entry
  if e.indirect ≠ 0 then do
    let b ← acquire e.indirect.toNat
    clearIndirect e.indirect.toNat b (List.range numIndirect)
    release e.indirect.toNat
    free e.indirect.toNat
    inodeSync sb { inode with entry := { e with indirect := 0, numBytes := 0 } } true
  else inodeSync sb { inode with entry := { e with numBytes := 0 } } true

/-! ### `inode_map` -/

/-- `inode_map`: the block number, the changed entry, and `*modified`. The store into an indirect block
comes after its `release`. -/
def inodeMap (ctx : Bool) (e : Dinode) (offset : ℕ) : FsProg (ℕ × Dinode × Bool) := do
  Prog.check (offset < inodeMaxBlocks)
  if h : offset < numDirect then
    if e.addrs ⟨offset, h⟩ = 0 ∧ ctx then do
      let n ← alloc
      pure (n, { e with addrs := Function.update e.addrs ⟨offset, h⟩ (UInt32.ofNat n) }, true)
    else pure ((e.addrs ⟨offset, h⟩).toNat, e, false)
  else if e.indirect = 0 ∧ !ctx then pure (0, e, false)
  else do
    let (e, modified) ← (if e.indirect = 0 then do
        let n ← alloc
        pure ({ e with indirect := UInt32.ofNat n }, true)
      else pure (e, false) : FsProg (Dinode × Bool))
    let indirect := e.indirect.toNat
    let b ← acquire indirect
    release indirect
    if getAddr b (offset - numDirect) = 0 ∧ ctx then do
      let n ← alloc
      modify indirect fun b => setAddr b (offset - numDirect) (UInt32.ofNat n)
      pure (n, e, true)
    else pure ((getAddr b (offset - numDirect)).toNat, e, modified)

/-! ### `inode_read` and `inode_write` -/

/-- Where an iteration of the copy loops works: the offset in the block and the number of bytes. -/
def chunk (count i offset : ℕ) : ℕ × ℕ :=
  if i = 0 then (offset % blockSize, min (blockSize - offset % blockSize) count)
  else (0, min blockSize (count - i))

/-- The loop of `inode_read`. -/
def readLoop (e : Dinode) (count : ℕ) : ℕ → ℕ → ℕ → FsProg (List UInt8)
  | 0, _, _ => pure []
  | fuel + 1, i, offset =>
    if i < count then do
      let (blockNo, _, _) ← inodeMap false e (offset / blockSize)
      let b ← acquire blockNo
      let (start, cnt) := chunk count i offset
      release blockNo
      let rest ← readLoop e count fuel (i + cnt) (offset + cnt)
      pure (b.slice start cnt ++ rest)
    else pure []

/-- `inode_read`: the returned number and the bytes in `dest`. -/
def inodeRead (inode : Inode) (offset count : ℕ) : FsProg (ℕ × List UInt8) := do
  let e := inode.entry
  let size := e.numBytes.toNat
  if e.type = inodeDevice then do
    Prog.check (e.major = 1)
    let l ← consoleRead count
    pure (l.length, l)
  else
    let count := if size < (count + offset) % 2 ^ 64 then (2 ^ 64 + size - offset) % 2 ^ 64 else count
    let stop := (offset + count) % 2 ^ 64
    if size < offset then pure (0, [])
    else do
      Prog.check (stop ≤ size)
      Prog.check (offset ≤ stop)
      let l ← readLoop e count count 0 offset
      pure (count, l)

/-- The loop of `inode_write`. -/
def writeLoop (count : ℕ) : ℕ → ℕ → ℕ → List UInt8 → Dinode → FsProg Dinode
  | 0, _, _, _, e => pure e
  | fuel + 1, i, offset, src, e =>
    if i < count then do
      let (blockNo, e, _) ← inodeMap true e (offset / blockSize)
      let _ ← acquire blockNo
      let (start, cnt) := chunk count i offset
      modify blockNo fun b => b.splice start (src.take cnt)
      sync blockNo
      release blockNo
      writeLoop count fuel (i + cnt) (offset + cnt) (src.drop cnt) e
    else pure e

/-- `inode_write` of the bytes `src`: the returned number and the inode. -/
def inodeWrite (inode : Inode) (src : List UInt8) (offset : ℕ) : FsProg (ℕ × Inode) := do
  let e := inode.entry
  let count := src.length
  if e.type = inodeDevice then do
    Prog.check (e.major = 1)
    let n ← consoleWrite src
    pure (n, inode)
  else do
    let stop := (offset + count) % 2 ^ 64
    Prog.check (offset ≤ e.numBytes.toNat)
    Prog.check (stop ≤ inodeMaxBytes)
    Prog.check (offset ≤ stop)
    let e ← writeLoop count count 0 offset src e
    if e.numBytes.toNat < stop then do
      let inode ← inodeSync sb { inode with entry := { e with numBytes := UInt32.ofNat stop } } true
      pure (count, inode)
    else pure (count, { inode with entry := e })

/-! ### Directories -/

/-- A `struct dirent` whose memory was `junk`, after `l` has been read into it. -/
def direntOf (junk : Dirent) (l : List UInt8) : Dirent := junk.splice 0 l

/-- The loop of `inode_lookup`. -/
def lookupLoop (inode : Inode) (name : Name) (junk : Dirent) : ℕ → ℕ → FsProg (Option (UInt16 × ℕ))
  | 0, _ => pure none
  | fuel + 1, i =>
    if i < inode.entry.numBytes.toNat then do
      let (_, l) ← inodeRead inode i direntSize
      let de := direntOf junk l
      if de.inodeNo ≠ 0 ∧ de.name.same name then pure (some (de.inodeNo, i))
      else lookupLoop inode name junk fuel (i + direntSize)
    else pure none

/-- `inode_lookup`: the inode number and `*index`, `none` for the result `0`. -/
def inodeLookup (inode : Inode) (name : Name) (junk : Dirent) : FsProg (Option (UInt16 × ℕ)) := do
  Prog.check (inode.entry.type = inodeDirectory)
  lookupLoop inode name junk inode.entry.numBytes.toNat 0

/-- The loop of `inode_insert`: the index of the first free entry. -/
def insertLoop (inode : Inode) (junk : Dirent) : ℕ → ℕ → FsProg ℕ
  | 0, i => pure i
  | fuel + 1, i =>
    if i < inode.entry.numBytes.toNat then do
      let (_, l) ← inodeRead inode i direntSize
      if (direntOf junk l).inodeNo = 0 then pure i
      else insertLoop inode junk fuel (i + direntSize)
    else pure i

/-- `inode_insert`: whether the name was new (`0` is returned, not `-1`), and the inode. The number is
cut to the sixteen bits of the entry. -/
def inodeInsert (inode : Inode) (name : Name) (inodeNo : ℕ) (junk : Dirent) : FsProg (Bool × Inode) := do
  Prog.check (inode.entry.type = inodeDirectory)
  let found ← inodeLookup inode name junk
  if found.isSome then pure (false, inode)
  else do
    let index ← insertLoop inode junk inode.entry.numBytes.toNat 0
    let (_, inode) ← inodeWrite sb inode (bytes (Dirent.mk (UInt16.ofNat inodeNo) name)) index
    pure (true, inode)

def inodeRemove (inode : Inode) (index : ℕ) : FsProg Inode := do
  if index < inode.entry.numBytes.toNat then do
    let (_, inode) ← inodeWrite sb inode (List.replicate direntSize 0) index
    pure inode
  else pure inode

/-! ### The cached inodes

`cached_inodes` is a ring like the list of the cached blocks: it is read from the head on, and
`list_forall` visits the head last. A pointer to an inode is its address. -/

/-- `init_inode`, after `inode_get` has set the number and taken a reference. The entry is not read
before `inode_sync` has loaded it. -/
def initInode (a inodeNo : ℕ) : Inode := ⟨a, 1, inodeNo, false, Dinode.zero⟩

/-- The inode at the address `a`. -/
def findInode (a : ℕ) (l : List Inode) : Option Inode := lookup Inode.addr a l

def storeInode (inode : Inode) (l : List Inode) : List Inode :=
  modifyAt Inode.addr inode.addr (fun _ => inode) l

/-- The cached inode that `inode_get` finds. -/
def fetchInode (inodeNo : ℕ) (l : List Inode) : Option Inode :=
  (l.rotate 1).find? fun i => i.inodeNo = inodeNo ∧ 0 < i.rc ∧ i.valid

/-- `inode_get`, where `kalloc` would return `a`. -/
def inodeGet (l : List Inode) (a inodeNo : ℕ) : FsProg (ℕ × List Inode) := do
  Prog.check (0 < inodeNo)
  Prog.check (inodeNo < sb.numInodes)
  match fetchInode inodeNo l with
  | some i => pure (i.addr, storeInode { i with rc := i.rc + 1 } l)
  | none => do
    let i ← inodeSync sb (initInode a inodeNo) false
    pure (a, l ++ [i])

def inodeShare (l : List Inode) (inode : Inode) : List Inode :=
  storeInode { inode with rc := inode.rc + 1 } l

def inodePut (l : List Inode) (inode : Inode) : FsProg (List Inode) := do
  if inode.rc = 1 ∧ inode.entry.numLinks = 0 ∧ inode.valid then do
    let inode ← inodeClear sb { inode with valid := false }
    let _ ← inodeSync sb { inode with entry := { inode.entry with type := inodeInvalid } } true
    pure (l.eraseP fun i => i.addr = inode.addr)
  else pure (storeInode { inode with rc := inode.rc - 1 } l)

end

end OsHonor.Fs.Inodes.Code
