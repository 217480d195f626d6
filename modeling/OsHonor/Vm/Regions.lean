import Mathlib.Algebra.Order.Ring.Int
import Mathlib.Data.List.Nodup

/-! # Regions of an address space (`vm/vmregion.c`, `vm/mmap.c`)

Addresses are 64-bit words, and sums of them wrap as in the source. The regions are kept in the order of
their list, from its head on; `list_forall` starts at the successor of the head and comes to the head
last. What the functions do to the page table is left out: `sbrk` and `munmap` return the range they
unmap. -/

namespace OsHonor.Vm.Regions

/-- `u64`. -/
abbrev Word := BitVec 64

/-- `struct mmap_info`; `fp` is the file, if there is one. -/
structure MmapInfo where
  fp : Option ℕ
  offset : Word
  prot : ℕ
  flags : ℕ
  deriving DecidableEq

def initMmapInfo : MmapInfo := ⟨none, 0#64, 0, 0⟩

/-- `struct vmregion`. -/
structure Region where
  flags : Word
  first : Word
  last : Word
  mmapInfo : MmapInfo
  deriving DecidableEq

def pageSize : Word := 4096#64
def vmrRo : Word := 4#64
def vmrHeap : Word := 8#64
def vmrStack : Word := 16#64
def vmrMm : Word := 32#64

def Region.has (v : Region) (flag : Word) : Bool := v.flags &&& flag ≠ 0#64

/-- The positions of a list of this length in the order of `list_forall`. -/
def order : ℕ → List ℕ
  | 0 => []
  | n + 1 => (List.range n).map (· + 1) ++ [0]

/-- The first region in the order of `list_forall` with this property, and its position. -/
def findRegion (p : Region → Bool) (l : List Region) : Option (ℕ × Region) :=
  (order l.length).findSome? fun i => (l[i]?).bind fun v => if p v then some (i, v) else none

def roundUp (a b : Word) : Word := let a := a + b - 1#64; a - a % b

def checkVmregionIntersection (l : List Region) (first last : Word) : Bool :=
  l.any fun vmr => (vmr.first ≤ first ∧ first < vmr.last) ∨ (vmr.first ≤ last ∧ last < vmr.last)

/-- `create_vmregion`: the regions, and whether there is a new one. -/
def createVmregion (l : List Region) (flags first len : Word) : List Region × Bool :=
  if checkVmregionIntersection l first (first + len) then (l, false)
  else (l ++ [⟨flags, first, first + len, initMmapInfo⟩], true)

/-- What a system call does: the regions, the return value, and the range that is unmapped. -/
structure Result where
  regions : List Region
  ret : Word
  unmapped : Option (Word × Word)

/-- `sbrk`; `none` is the failed assertion. The end of the heap is moved before anything is checked, and
it is not moved back. -/
def sbrk (l : List Region) (size : Word) : Option Result :=
  if size % pageSize ≠ 0#64 then none
  else
    match findRegion (·.has vmrHeap) l with
    | none => some ⟨l, -1#64, none⟩
    | some (i, v) =>
      let newEnd := v.last + size
      let l := l.set i { v with last := newEnd }
      if newEnd < v.last ∧ newEnd < v.first then some ⟨l, -1#64, none⟩
      else
        let unmapped := if newEnd < v.last then some (newEnd, v.last) else none
        if l.any fun v => v.first < newEnd ∧ newEnd < v.last then some ⟨l, -1#64, unmapped⟩
        else some ⟨l, v.last, unmapped⟩

def mmapGetAddr (addr length : Word) (l : List Region) : Word :=
  if addr = 0#64 then
    roundUp (l.foldl (fun start vmr => if ¬ vmr.has vmrStack ∧ start < vmr.last then vmr.last else start) 0#64)
      pageSize
  else
    let rounded := roundUp addr pageSize
    if checkVmregionIntersection l rounded (rounded + length) then 0#64 else rounded

/-- What `mmap` reads of a file. -/
structure File where
  readable : Bool
  writable : Bool

/-- `mmap` of the file `fp`. `PROT_READ` and `PROT_WRITE` are the bits 0 and 1 of `prot`, `MAP_SHARED` and
`MAP_PRIVATE` those of `flags`. -/
def mmap (l : List Region) (addr length : Word) (prot flags fp : ℕ) (f : File) (offset : Word) : Result :=
  if (prot.testBit 1 ∧ ¬ f.writable ∧ ¬ flags.testBit 1) ∨ (prot.testBit 0 ∧ ¬ f.readable) then
    ⟨l, -1#64, none⟩
  else
    let first := mmapGetAddr addr length l
    if first = 0#64 then ⟨l, -1#64, none⟩
    else ⟨l ++ [⟨vmrMm, first, first + length, ⟨some fp, offset, prot, flags⟩⟩], first, none⟩

/-- `munmap`, and whether a region is given to `kfree` that is still in the list; `none` is a null file
given to `file_close`. -/
def munmap (l : List Region) (addr length : Word) : Option (Result × Bool) :=
  match findRegion (fun v => v.first ≤ addr ∧ addr < v.last) l with
  | none => some (⟨l, -1#64, none⟩, false)
  | some (i, v) =>
    let unmapped := if v.mmapInfo.flags.testBit 0 then none else some (addr, addr + length)
    if length < v.last - v.first then
      let closed := length = v.last - (addr + length)
      if closed ∧ v.mmapInfo.fp = none then none
      else some (⟨l.set i { v with first := addr + length }, 0#64, unmapped⟩, closed)
    else if length = v.last - v.first then
      if v.mmapInfo.fp = none then none else some (⟨l.eraseIdx i, 0#64, unmapped⟩, false)
    else some (⟨l, -1#64, none⟩, false)

/-! ### User pointers -/

def userReadable (l : List Region) (start size : Word) : Bool :=
  l.any fun v => v.first ≤ start ∧ start + size ≤ v.last

def userWriteable (l : List Region) (start size : Word) : Bool :=
  l.any fun v => ¬ v.has vmrRo ∧ v.first ≤ start ∧ start + size ≤ v.last

end OsHonor.Vm.Regions
