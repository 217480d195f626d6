import OsHonor.Fs.Inodes.Format

/-! # The image builder (`user/mkfs/main.c`)

`mkfs` writes an image of `FSSIZE` blocks: the super block, an empty log, the inode table with a root
directory and one regular file for every input file, the bitmap, and the blocks of the files. Blocks and
inodes are given out in order (`freeblock`, `freeinode`).

A failed `assert` and the `exit(1)` after a failed transfer are `none`. A sector behind the end of the
image cannot be read; every block is read before it is written, so none is written there either. The
conversions `xshort` and `xint` do nothing on a little-endian machine. -/

namespace OsHonor.User.Mkfs.Code

open Function Base.Bytes Fs.BlockDevice Fs.Inodes.Format

/-! ### The layout -/

def fssize : ℕ := 1000

def ninodes : ℕ := 200

def numLogBlocks : ℕ := logMaxSize

def ninodeblocks : ℕ := ninodes / inodePerBlock + 1

def nbitmap : ℕ := fssize / (blockSize * 8) + 1

def nmeta : ℕ := 2 + numLogBlocks + ninodeblocks + nbitmap

/-- `sb.inode_start`. -/
def inodeStart : ℕ := 2 + numLogBlocks

/-- `sb.bitmap_start`. -/
def bitmapStart : ℕ := 2 + numLogBlocks + ninodeblocks

/-- The fields of `sb` in their order. -/
def superFields : List ℕ :=
  [fssize, fssize - nmeta, ninodes, numLogBlocks, 2, inodeStart, bitmapStart]

/-- The block with `sb`. -/
def superBlock : BlockData := fun i => leByte (superFields.getD (i.val / 4) 0) (i.val % 4)

/-! ### Sectors and inodes -/

/-- The image, and the next inode and block to be given out. -/
structure Image where
  disk : Disk
  freeinode : ℕ
  freeblock : ℕ

def rsect (m : Image) (sec : ℕ) : Option BlockData := if sec < fssize then some (m.disk sec) else none

def wsect (m : Image) (sec : ℕ) (buf : BlockData) : Image :=
  { m with disk := update m.disk sec buf }

def iblock (inum : ℕ) : ℕ := inum / inodePerBlock + inodeStart

def rinode (m : Image) (inum : ℕ) : Option Dinode :=
  (rsect m (iblock inum)).map fun buf => getEntry buf (inum % inodePerBlock)

def winode (m : Image) (inum : ℕ) (din : Dinode) : Option Image :=
  (rsect m (iblock inum)).map fun buf => wsect m (iblock inum) (setEntry buf (inum % inodePerBlock) din)

def ialloc (m : Image) (type : UInt16) : Option (ℕ × Image) :=
  (winode { m with freeinode := m.freeinode + 1 } m.freeinode
    { Dinode.zero with type := type, numLinks := 1 }).map fun m' => (m.freeinode, m')

/-! ### `iappend` -/

/-- The block at entry `j` of the indirect block, which is allocated if there is none. -/
def entryFor (m : Image) (din : Dinode) (j : ℕ) : Option (ℕ × Dinode × Image) := do
  let indirect ← rsect m din.indirect.toNat
  if getAddr indirect j = 0 then
    some (m.freeblock, din, wsect { m with freeblock := m.freeblock + 1 } din.indirect.toNat
      (setAddr indirect j (UInt32.ofNat m.freeblock)))
  else some ((getAddr indirect j).toNat, din, m)

/-- The block with index `fbn` of the file at `din`, which is allocated if there is none. -/
def blockFor (m : Image) (din : Dinode) (fbn : ℕ) : Option (ℕ × Dinode × Image) :=
  if h : fbn < numDirect then
    if din.addrs ⟨fbn, h⟩ = 0 then
      some (m.freeblock,
        { din with addrs := update din.addrs ⟨fbn, h⟩ (UInt32.ofNat m.freeblock) },
        { m with freeblock := m.freeblock + 1 })
    else some ((din.addrs ⟨fbn, h⟩).toNat, din, m)
  else if din.indirect = 0 then
    entryFor { m with freeblock := m.freeblock + 1 } { din with indirect := UInt32.ofNat m.freeblock }
      (fbn - numDirect)
  else entryFor m din (fbn - numDirect)

/-- The loop of `iappend`: the bytes `p` go to the offset `off`. -/
def iappendLoop : ℕ → Image → Dinode → ℕ → List UInt8 → Option (Image × Dinode × ℕ)
  | 0, m, din, off, _ => some (m, din, off)
  | fuel + 1, m, din, off, p =>
    if p = [] then some (m, din, off)
    else do
      let fbn := off / blockSize
      if fbn < inodeMaxBlocks then
        let (x, din, m) ← blockFor m din fbn
        let n1 := min p.length ((fbn + 1) * blockSize - off)
        let buf ← rsect m x
        iappendLoop fuel (wsect m x (buf.splice (off - fbn * blockSize) (p.take n1))) din (off + n1)
          (p.drop n1)
      else none

def iappend (m : Image) (inum : ℕ) (p : List UInt8) : Option Image := do
  let din ← rinode m inum
  let (m, din, off) ← iappendLoop p.length m din din.numBytes.toNat p
  winode m inum { din with numBytes := UInt32.ofNat off }

/-! ### `main` -/

/-- `'/'`. -/
def slash : UInt8 := 47

/-- `'_'`. -/
def underscore : UInt8 := 95

/-- The loop that counts the characters behind the last slash, started with `j`. -/
def tailLength : List UInt8 → ℕ → ℕ
  | [], j => j
  | c :: s, j => tailLength s (if c = slash then 0 else j + 1)

def baseName (path : List UInt8) : List UInt8 := path.drop (path.length - tailLength path 0)

def stripUnderscore : List UInt8 → List UInt8
  | [] => []
  | c :: s => if c = underscore then s else c :: s

/-- `strncpy` into the name of a directory entry that has been zeroed. -/
def strncpy (s : List UInt8) : Name := fun i => s.getD i.val 0

/-- An input file: its path, a C string, and what the calls of `read` return until one returns `0`. -/
structure InputFile where
  path : List UInt8
  reads : List (List UInt8)
  path_ne_nul : 0 ∉ path
  reads_ne_nil : ∀ r ∈ reads, r ≠ []
  reads_le : ∀ r ∈ reads, r.length ≤ blockSize

def InputFile.name (f : InputFile) : List UInt8 := stripUnderscore (baseName f.path)

def InputFile.bytes (f : InputFile) : List UInt8 := f.reads.flatten

def appendAll (m : Image) (inum : ℕ) : List (List UInt8) → Option Image
  | [] => some m
  | r :: rs => (iappend m inum r).bind fun m => appendAll m inum rs

def addFile (m : Image) (f : InputFile) : Option Image := do
  if slash ∈ baseName f.path then none
  else
    let (inum, m) ← ialloc m inodeRegular
    let m ← iappend m rootInodeNo (bytes (Dirent.mk (UInt16.ofNat inum) (strncpy f.name)))
    appendAll m inum f.reads

def addFiles (m : Image) : List InputFile → Option Image
  | [] => some m
  | f :: fs => (addFile m f).bind fun m => addFiles m fs

def format : Image := ⟨update zeroDisk 0 superBlock, 1, nmeta⟩

/-- The name `"."`. -/
def dot : List UInt8 := [46]

/-- The name `".."`. -/
def dotDot : List UInt8 := [46, 46]

def makeRoot (m : Image) : Option Image := do
  let (rootino, m) ← ialloc m inodeDirectory
  if rootino = rootInodeNo then
    let m ← iappend m rootino (bytes (Dirent.mk (UInt16.ofNat rootino) (strncpy dot)))
    iappend m rootino (bytes (Dirent.mk (UInt16.ofNat rootino) (strncpy dotDot)))
  else none

/-- The size of the root directory is set to the next multiple of the block size behind its end. -/
def fixRoot (m : Image) : Option Image := do
  let din ← rinode m rootInodeNo
  let off := din.numBytes.toNat
  winode m rootInodeNo { din with numBytes := UInt32.ofNat ((off / blockSize + 1) * blockSize) }

/-- The block with bit `i` set. -/
def orBit (buf : BlockData) (i : ℕ) : BlockData := fun k =>
  if k.val = i / 8 then UInt8.ofNat ((buf k).toNat ||| 2 ^ (i % 8)) else buf k

def balloc (m : Image) (used : ℕ) : Option Image :=
  if used < blockSize * 8 then
    some (wsect m bitmapStart ((List.range used).foldl orBit fun _ => 0))
  else none

/-- **`main`**: the image for the input files. -/
def mkfs (files : List InputFile) : Option Image := do
  let m ← makeRoot format
  let m ← addFiles m files
  let m ← fixRoot m
  balloc m m.freeblock

end OsHonor.User.Mkfs.Code
