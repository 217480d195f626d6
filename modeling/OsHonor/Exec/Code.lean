import OsHonor.Base.Bytes
import OsHonor.Vm.Accounts
import OsHonor.Vm.UserMemory

/-! # Running a program (`kernel/exec.c`)

`execve` over the model of the page tables. What it needs of the file system is the file that the path names,
with its bytes, and of the inode the number of references and the value of its lock. A local variable that has
not been initialised holds what the stack happens to contain.

`none` is a call that does not return: an assertion fails, a null pointer is followed, or an array on the stack
is written beyond its end. -/

namespace OsHonor.Exec.Code

open Base.Bytes Vm Vm.Regions Vm.PageTables.Code Vm.UserMemory Vm.Accounts

/-! ### Constants (`kernel/param.h`, `vm/vmregion.h`) -/

def stackSize : Word := 32768#64
def heapSize : Word := 32768#64
def stackBase : Word := 0x0000ffff00000000#64
def stackPagesInit : ℕ := 80
def maxArg : ℕ := 32
def maxEnv : ℕ := 128

/-- The length of `ustack_envp` and of `ustack_argv`. -/
def ustackLength : ℕ := 32

def vmrFile : Word := 1#64

/-! ### The file (`elf.h`) -/

/-- The number in the `w` bytes from `off` on. -/
def leAt (w : ℕ) (l : List UInt8) (off : ℕ) : ℕ := leVal w fun k => l.getD (off + k) 0

/-- `inode_read` of a file with these bytes. -/
def readFile (file : List UInt8) (off count : ℕ) : List UInt8 := (file.drop off).take count

/-- The fields of an `Elf64_Ehdr` that are used. -/
structure Ehdr where
  ident : List UInt8
  entry : Word
  phoff : ℕ
  phnum : ℕ

/-- `sizeof(Elf64_Ehdr)`. -/
def sizeofEhdr : ℕ := 64

def parseEhdr (l : List UInt8) : Ehdr :=
  ⟨l.take 16, BitVec.ofNat 64 (leAt 8 l 24), leAt 8 l 32, leAt 2 l 56⟩

def elfMag : List UInt8 := [0x7f, 0x45, 0x4c, 0x46]

/-- The fields of an `Elf64_Phdr` that are used. -/
structure Phdr where
  type : ℕ
  flags : ℕ
  offset : Word
  vaddr : Word
  filesz : Word
  memsz : Word

/-- `sizeof(Elf64_Phdr)`. -/
def sizeofPhdr : ℕ := 56

def parsePhdr (l : List UInt8) : Phdr :=
  ⟨leAt 4 l 0, leAt 4 l 4, BitVec.ofNat 64 (leAt 8 l 8), BitVec.ofNat 64 (leAt 8 l 16), BitVec.ofNat 64 (leAt 8 l 32),
    BitVec.ofNat 64 (leAt 8 l 40)⟩

def ptLoad : ℕ := 1

/-! ### Loading -/

/-- The address space that is built: the memory, the space, and the addresses of its regions. -/
structure Image where
  mem : State
  vms : Vmspace
  regionObjects : List ℕ

def Image.onMach (im : Image) (m : Machine) : Image := { im with mem := im.mem.onMach m }

/-- `create_vmregion`, and whether there is a new region. -/
def Image.createVmregion (im : Image) (flags first len : Word) : Option (Bool × Image) :=
  match Regions.createVmregion im.vms.vmregions flags first len with
  | (_, false) => some (false, im)
  | (vmregions, true) => do
    let (a, mem) ← im.mem.kalloc
    some (true, ⟨mem, { im.vms with vmregions := vmregions }, im.regionObjects ++ [a]⟩)

/-- `map_in_pgtbl` in the new table. -/
def Image.map (base : ℕ) (im : Image) (va : Word) (ka : ℕ) (flags : Word) : Option Image := do
  let m ← mapInPgtbl base im.mem.mach im.vms.pgtbl va ka flags
  some (im.onMach m)

def mapZero (base zeroPage : ℕ) : List Word → Image → Option Image
  | [], im => some im
  | va :: l, im => (im.map base va zeroPage (pteUserData ||| pteRo)).bind fun im => mapZero base zeroPage l im

/-- The loop of `execve_load_section` over the bytes of the file: whether it succeeds, and `begin` in the end. The
region is missing if `create_vmregion` found a conflict; it is looked at after the first page has been read. -/
def loadPages (base : ℕ) (file : List UInt8) (ph : Phdr) (vmr : Option Word) :
    ℕ → Word → Image → Option (Bool × Word × Image)
  | 0, _, _ => none
  | fuel + 1, first, im =>
    let last := ph.vaddr + ph.filesz
    if first < last then
      match kallocPage im.mem.mach with
      | none => some (false, first, im)
      | some (q, m) =>
        let len := min (last - first).toNat (4096 - vaOffset first)
        let bytes := readFile file (ph.offset + (first - ph.vaddr)).toNat len
        let im := im.onMach (memcpy (memsetZero m q) q (vaOffset first) bytes)
        if bytes.length < len then some (false, first, im)
        else
          match vmr with
          | none => none
          | some flags =>
            let pteFlags := if flags &&& vmrRo = 0#64 then pteUserData else pteUserData ||| pteRo
            (im.map base (pageBase first) q pteFlags).bind fun im =>
              loadPages base file ph vmr fuel (first + BitVec.ofNat 64 len) im
    else some (true, first, im)

/-- `execve_load_section`: whether it succeeds. Every turn of the first loop but the last one reads a byte of the
file at least. -/
def loadSection (base zeroPage : ℕ) (file : List UInt8) (im : Image) (ph : Phdr) : Option (Bool × Image) :=
  let load (flags : Word) : Option (Bool × Image) := do
    let (created, im) ← im.createVmregion flags ph.vaddr ph.memsz
    let (ok, first, im) ← loadPages base file ph (if created then some flags else none) (file.length + 2) ph.vaddr im
    if ok then
      let first := if vaOffset first ≠ 0 then pageBase first + pageSize else first
      let vas ← pagesFrom (ph.vaddr + ph.memsz) (2 ^ 52 + 1) first
      let im ← mapZero base zeroPage vas im
      some (true, im)
    else some (false, im)
  if ph.flags = 5 then load (vmrFile ||| vmrRo)
  else if ph.flags = 6 then load vmrFile
  else some (true, im)

/-- The loop over the program headers: whether it succeeds. `off` has 16 bits, and it only goes on after a segment
that is loaded. -/
def loadSegments (base zeroPage : ℕ) (file : List UInt8) : ℕ → ℕ → Image → Option (Bool × Image)
  | 0, _, im => some (true, im)
  | n + 1, off, im =>
    let bytes := readFile file off sizeofPhdr
    if bytes.length < sizeofPhdr then some (false, im)
    else
      let ph := parsePhdr bytes
      if ph.type ≠ ptLoad then loadSegments base zeroPage file n off im
      else if ph.memsz < ph.filesz then none
      else
        (loadSection base zeroPage file im ph).bind fun
          | (false, im) => some (false, im)
          | (true, im) => loadSegments base zeroPage file n ((off + sizeofPhdr) % 2 ^ 16) im

/-- `execve_alloc_heap`. -/
def allocHeap (base zeroPage : ℕ) (im : Image) : Option (Bool × Image) := do
  let heapBase := im.vms.vmregions.foldl (fun b v => if b < v.last then v.last else b) 0#64
  let heapBase := pageBase heapBase + 2#64 * pageSize
  let (created, im) ← im.createVmregion vmrHeap heapBase heapSize
  if created then
    let vas ← pagesFrom heapSize (2 ^ 52 + 1) heapBase
    let im ← mapZero base zeroPage vas im
    some (true, im)
  else some (false, im)

/-- The loop of `execve_alloc_stack`. -/
def mapStack (base zeroPage : ℕ) : List Word → Image → Option Image
  | [], im => some im
  | i :: l, im =>
    if stackBase - BitVec.ofNat 64 stackPagesInit * pageSize ≤ i then
      match kallocPage im.mem.mach with
      | none => none
      | some (ka, m) =>
        ((im.onMach (memsetZero m ka)).map base i ka pteUserData).bind fun im => mapStack base zeroPage l im
    else (im.map base i zeroPage (pteUserData ||| pteRo)).bind fun im => mapStack base zeroPage l im

/-- `execve_alloc_stack`. -/
def allocStack (base zeroPage : ℕ) (im : Image) : Option (Bool × Image) := do
  let (created, im) ← im.createVmregion vmrStack (stackBase - stackSize) stackSize
  if created then
    let vas ← pagesFrom stackBase (2 ^ 52 + 1) (stackBase - stackSize)
    let im ← mapStack base zeroPage vas im
    some (true, im)
  else some (false, im)

/-! ### The arguments -/

/-- `copy_to_user` to the new address space. -/
def Image.copyToUser (im : Image) (va : Word) (bytes : List UInt8) : Option (Bool × Image) := do
  let (ok, m) ← UserMemory.copyToUser im.mem.mach im.vms.pgtbl va bytes
  some (ok, im.onMach m)

/-- The loop over the strings of `envp` or `argv`, from the one with the number `c` on: whether it succeeds, `sp`,
and the pointers. The array of the pointers ends after `ustackLength` of them. -/
def pushStrings (limit : ℕ) : List (List UInt8) → ℕ → Word → List Word → Image →
    Option (Bool × Word × List Word × Image)
  | [], c, sp, ustack, im => if c < ustackLength then some (true, sp, ustack, im) else none
  | str :: l, c, sp, ustack, im =>
    if limit < c then some (false, sp, ustack, im)
    else
      let sp := sp - BitVec.ofNat 64 (str.length + 1)
      let sp := sp - sp % 16#64
      if sp < stackBase - stackSize then some (false, sp, ustack, im)
      else
        (im.copyToUser sp (str ++ [0])).bind fun
          | (false, im) => some (false, sp, ustack, im)
          | (true, im) =>
            if c < ustackLength then pushStrings limit l (c + 1) sp (ustack ++ [sp]) im else none

def pushArray (limit : ℕ) (strings : Option (List (List UInt8))) (sp : Word) (im : Image) :
    Option (Bool × Word × List Word × Image) :=
  match strings with
  | none => some (true, sp, [], im)
  | some l => pushStrings limit l 0 sp [] im

def pointerBytes (ustack : List Word) : List UInt8 :=
  (ustack ++ [0#64]).flatMap fun w => (List.range 8).map (leByte w.toNat)

/-- The strings, the pointers and `argc` on the stack: whether this succeeds, and `sp` and `argc`. -/
def pushArguments (argv envp : Option (List (List UInt8))) (im : Image) : Option (Bool × Word × ℕ × Image) := do
  let (ok, sp, ustackEnvp, im) ← pushArray maxEnv envp stackBase im
  if !ok then some (false, sp, 0, im)
  else
    let (ok, sp, ustackArgv, im) ← pushArray maxArg argv (sp - 16#64) im
    let argc := ustackArgv.length
    if !ok then some (false, sp, argc, im)
    else
      let sp := sp - sp % 16#64
      let sp := sp - BitVec.ofNat 64 ((ustackEnvp.length + 1) * 8)
      let (ok, im) ← im.copyToUser sp (pointerBytes ustackEnvp)
      if !ok then some (false, sp, argc, im)
      else
        let sp := sp - BitVec.ofNat 64 ((argc + 1) * 8)
        let (ok, im) ← im.copyToUser sp (pointerBytes ustackArgv)
        if !ok then some (false, sp, argc, im)
        else
          let sp := sp - 8#64
          let (ok, im) ← im.copyToUser sp ((List.range 4).map (leByte argc))
          some (ok, sp, argc, im)

/-! ### The system call -/

/-- What `execve` changes: the memory, the address space of the caller with the addresses of its regions, the saved
`sp` and `elr`, the references and the lock of the inode that the path names, and `log.contributors_cnt`. -/
structure Sys where
  mem : State
  space : Vmspace
  regionObjects : List ℕ
  sp : Word
  elr : Word
  rc : ℤ
  lock : ℤ
  contributors : ℤ

namespace Sys

/-- `bcache.begin_op`. -/
def beginOp (s : Sys) : Sys := { s with contributors := s.contributors + 1 }

/-- `bcache.end_op`. -/
def endOp (s : Sys) : Sys := { s with contributors := s.contributors - 1 }

/-- `namei` returns the inode with a new reference, and `inodes.lock` takes its lock. -/
def openInode (s : Sys) : Sys := { s with rc := s.rc + 1, lock := s.lock - 1 }

/-- `inodes.unlock`, `inodes.put` and `bcache.end_op`. -/
def closeInode (s : Sys) : Sys := { s with rc := s.rc - 1, lock := s.lock + 1 }.endOp

end Sys

/-- What the call is given: the first page that the kernel manages, the zero page, the file that the path names, the
arguments, the address of the local variable `vms`, and what is in it before it is initialised. -/
structure Call where
  base : ℕ
  zeroPage : ℕ
  file : Option (List UInt8)
  argv : Option (List (List UInt8))
  envp : Option (List (List UInt8))
  vmsAddr : ℕ
  junk : Vmspace
  junkObjects : List ℕ

/-- The code at `bad`. -/
def bad (c : Call) (s : Sys) (im : Image) : Option (ℤ × Sys) := do
  let mem ← destroyVmspace c.base im.mem c.vmsAddr im.vms im.regionObjects
  some (-1, { s with mem := mem }.closeInode)

def replaceSpace (c : Call) (s : Sys) (im : Image) (sp : Word) (entry : Word) : Option Sys := do
  let m ← freeVmregions c.base s.space.pgtbl s.space.vmregions im.mem.mach
  let mem := s.regionObjects.foldl State.kfree (im.mem.onMach m)
  let vmregions := copyVmregions im.vms.vmregions
  let (objects, mem) ← mem.kallocs vmregions.length
  let mem := mem.onMach (freePageTable c.base mem.mach s.space.pgtbl)
  some { s with mem, space := ⟨im.vms.pgtbl, vmregions⟩, regionObjects := objects, sp, elr := entry }

/-- The heap, the stack and the arguments, after the inode has been given back. -/
def finish (c : Call) (s : Sys) (im : Image) (entry : Word) : Option (ℤ × Sys) := do
  let (ok, im) ← allocHeap c.base c.zeroPage im
  if !ok then bad c s im
  else
    let (ok, im) ← allocStack c.base c.zeroPage im
    if !ok then bad c s im
    else
      let (ok, sp, argc, im) ← pushArguments c.argv c.envp im
      if !ok then bad c s im
      else
        let s ← replaceSpace c s im sp entry
        some (argc, s)

/-- `execve`: the return value and the state. -/
def execve (c : Call) (s : Sys) : Option (ℤ × Sys) :=
  let s := s.beginOp
  match c.file with
  | none => some (-1, s.endOp)
  | some file =>
    let s := s.openInode
    let header := readFile file 0 sizeofEhdr
    let elf := parseEhdr header
    if header.length < sizeofEhdr ∨ elf.ident.take 4 ≠ elfMag then bad c s ⟨s.mem, c.junk, c.junkObjects⟩
    else do
      let (pgtbl, m) ← initVmspace s.mem.mach
      let im : Image := ⟨s.mem.onMach m, ⟨pgtbl, []⟩, []⟩
      let (ok, im) ← loadSegments c.base c.zeroPage file elf.phnum (elf.phoff % 2 ^ 16) im
      if !ok then bad c s im else finish c s.closeInode im elf.entry

end OsHonor.Exec.Code
