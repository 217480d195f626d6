import OsHonor.Base.Radix
import OsHonor.Vm.Regions

/-! # Page tables (`aarch64/mmu.h`, `vm/pgtbl.c`, `vm/vmregion.c`, `vm/pgfault_handler.c`)

Physical memory is a store of pages of 512 words. The kernel sees page `n` at `P2K(4096 * n)`, so a pointer to
a page is its number, and a pointer to an entry is the number of its page and an index. Page tables and the
pages they map are in the same memory.

`kalloc_page` takes the next page of a supply, with what it happens to contain; `none` stands for the end of
the supply, where the source follows a null pointer. `kfree_page` is recorded; the links of the free list,
which it writes into the page, are left out, since the supply says what a page contains when it comes back. -/

namespace OsHonor.Vm.PageTables.Code

open Function Base.Radix Regions

/-! ### Addresses and entries -/

/-- An index into a table: there are `N_PTE_PER_TABLE` entries. -/
abbrev Idx := Fin 512

def pteValid : Word := 1#64

def pteTable : Word := 3#64

def pteRo : Word := 128#64

def pteUserData : Word := 0x647#64

def flagMask : Word := 0xFFFF000000000FFF#64

def pteAddress (pte : Word) : Word := pte &&& ~~~flagMask

def pteFlags (pte : Word) : Word := pte &&& flagMask

def pageBase (va : Word) : Word := va &&& ~~~4095#64

def vaOffset (va : Word) : ℕ := (va &&& 4095#64).toNat

def vaPart0 (va : Word) : Idx := Fin.ofNat 512 ((va &&& 0xFF8000000000#64) >>> 39).toNat

def vaPart1 (va : Word) : Idx := Fin.ofNat 512 ((va &&& 0x7FC0000000#64) >>> 30).toNat

def vaPart2 (va : Word) : Idx := Fin.ofNat 512 ((va &&& 0x3FE00000#64) >>> 21).toNat

def vaPart3 (va : Word) : Idx := Fin.ofNat 512 ((va &&& 0x1FF000#64) >>> 12).toNat

def wordOf (va : Word) : Idx := Fin.ofNat 512 (vaOffset va / 8)

def kspaceMask : Word := 0xFFFF000000000000#64

/-- The page at `P2K(PTE_ADDRESS(pte))`. -/
def pageOf (pte : Word) : ℕ := (pteAddress pte >>> 12).toNat

/-- The physical address of a page: `K2P` of the pointer to it. -/
def physical (n : ℕ) : Word := BitVec.ofNat 64 n <<< 12

def entryAddress (n : ℕ) (i : Idx) : Word := physical n + kspaceMask + BitVec.ofNat 64 (8 * i.val)

/-! ### The machine -/

/-- Physical memory, the counts of the pages, the pages that `kalloc_page` is going to return, and those that
have been given to `kfree_page`. -/
structure Machine where
  mem : ℕ → Idx → Word
  rc : ℕ → ℤ
  supply : List (ℕ × (Idx → Word))
  freed : List ℕ

def kallocPage (s : Machine) : Option (ℕ × Machine) :=
  match s.supply with
  | [] => none
  | (n, contents) :: supply => some (n, { s with mem := update s.mem n contents, supply := supply })

def kfreePage (s : Machine) (n : ℕ) : Machine := { s with freed := s.freed ++ [n] }

def memsetZero (s : Machine) (n : ℕ) : Machine := { s with mem := update s.mem n fun _ => 0#64 }

/-- `*pte = e`. -/
def store (s : Machine) (n : ℕ) (i : Idx) (e : Word) : Machine := { s with mem := setEntry s.mem n i e }

/-- `get_page_info_by_kaddr` knows the page: `base` is the first page that the kernel manages. -/
def managed (base n : ℕ) : Bool := base ≤ n ∧ n < base + 1048576

/-! ### `vm/pgtbl.c` -/

/-- The loop of `get_pte`. -/
def descend (alloc : Bool) : List Idx → ℕ → Machine → Option (Option ℕ × Machine)
  | [], n, s => some (some n, s)
  | i :: is, n, s =>
    if s.mem n i &&& pteValid = 0#64 then
      if alloc then
        match kallocPage s with
        | none => none
        | some (q, s) =>
          let s := store s n i (physical q ||| pteTable)
          let s := memsetZero s (pageOf (s.mem n i))
          descend alloc is (pageOf (s.mem n i)) s
      else some (none, s)
    else descend alloc is (pageOf (s.mem n i)) s

def path (va : Word) : List Idx := [vaPart0 va, vaPart1 va, vaPart2 va]

/-- `get_pte`, in the table whose root is the page `pt`: the pointer to the entry, or `NULL`. -/
def getPte (s : Machine) (pt : ℕ) (va : Word) (alloc : Bool) : Option (Option (ℕ × Idx) × Machine) :=
  (descend alloc (path va) pt s).map fun r => (r.1.map fun n => (n, vaPart3 va), r.2)

def detachMappedPage (base : ℕ) (s : Machine) (n : ℕ) (i : Idx) : Machine :=
  let page := pageOf (s.mem n i)
  if managed base page then
    let s := { s with rc := update s.rc page (s.rc page - 1) }
    if s.rc page = 0 then kfreePage s page else s
  else s

/-- `unmap_in_pgtbl`. The test is of the pointer, not of the entry it points to. -/
def unmapInPgtbl (base : ℕ) (s : Machine) (pt : ℕ) (va : Word) : Option Machine :=
  match getPte s pt va false with
  | none => none
  | some (none, s) => some s
  | some (some (n, i), s) =>
    if entryAddress n i &&& pteValid = 0#64 then some s
    else some (store (detachMappedPage base s n i) n i 0#64)

/-- `map_in_pgtbl`, of the page `ka`. -/
def mapInPgtbl (base : ℕ) (s : Machine) (pt : ℕ) (va : Word) (ka : ℕ) (flags : Word) : Option Machine :=
  match getPte s pt va true with
  | none => none
  | some (none, _) => none
  | some (some (n, i), s) =>
    match (if s.mem n i &&& pteValid = 0#64 then some s else unmapInPgtbl base s pt va) with
    | none => none
    | some s =>
      let s := store s n i (physical ka ||| flags ||| pteValid)
      some (if managed base ka then { s with rc := update s.rc ka (s.rc ka + 1) } else s)

/-- The values of `i` in a loop `for (; i < end; i += PAGE_SIZE)`; `none` if there are more than the fuel. -/
def pagesFrom (last : Word) : ℕ → Word → Option (List Word)
  | 0, _ => none
  | fuel + 1, i => if i < last then (pagesFrom last fuel (i + pageSize)).map (i :: ·) else some []

/-- The pages that a loop from `PAGE_BASE(begin)` to `end` visits. There are `2 ^ 52` pages, so a loop that
visits more than that does not end. -/
def pagesOf (first last : Word) : Option (List Word) := pagesFrom last (2 ^ 52 + 1) (pageBase first)

/-- The loop of `unmap_range_in_pgtbl`. -/
def unmapPages (base pt : ℕ) : List Word → Machine → Option Machine
  | [], s => some s
  | i :: is, s => (unmapInPgtbl base s pt i).bind fun s => unmapPages base pt is s

def unmapRangeInPgtbl (base : ℕ) (s : Machine) (pt : ℕ) (first last : Word) : Option Machine :=
  (pagesOf first last).bind fun is => unmapPages base pt is s

/-- `__free_page_table_level`, of a page `k` levels above the last. -/
def freePageTableLevel (base : ℕ) : ℕ → ℕ → Machine → Machine
  | 0, n, s =>
    kfreePage ((List.finRange 512).foldl
      (fun s i => if s.mem n i &&& pteValid = 0#64 then s else detachMappedPage base s n i) s) n
  | k + 1, n, s =>
    kfreePage ((List.finRange 512).foldl
      (fun s i => if s.mem n i &&& pteValid = 0#64 then s else freePageTableLevel base k (pageOf (s.mem n i)) s) s) n

/-- `free_page_table`: the page of the root is freed a second time. -/
def freePageTable (base : ℕ) (s : Machine) (pt : ℕ) : Machine := kfreePage (freePageTableLevel base 3 pt s) pt

/-! ### `vm/vmregion.c` -/

/-- The regions in the order of `list_forall`. -/
def inOrder (l : List Region) : List Region := (order l.length).filterMap fun i => l[i]?

/-- `free_vmregions`: what it does to the table `pt` of the regions. -/
def freeVmregions (base pt : ℕ) : List Region → Machine → Option Machine
  | [], s => some s
  | v :: l, s => (unmapRangeInPgtbl base s pt v.first v.last).bind fun s => freeVmregions base pt l s

/-- `copy_vmregions`, after `free_vmregions`. -/
def copyVmregions (l : List Region) : List Region :=
  (inOrder l).foldl (fun dest v => (createVmregion dest v.flags v.first (v.last - v.first)).1) []

/-- What `copy_vmspace` does for the page at `i`. -/
def copyPage (base : ℕ) (share : Bool) (src dst : ℕ) (s : Machine) (i : Word) : Option Machine :=
  match getPte s src i false with
  | none => none
  | some (none, s) => some s
  | some (some (n, j), s) =>
    if s.mem n j &&& pteValid = 0#64 then some s
    else if share then
      (mapInPgtbl base s dst i (pageOf (s.mem n j)) (pteFlags (s.mem n j) ||| pteRo)).bind fun s =>
        mapInPgtbl base s src i (pageOf (s.mem n j)) (pteFlags (s.mem n j) ||| pteRo)
    else
      match kallocPage s with
      | none => none
      | some (q, s) =>
        let s := { s with mem := update s.mem q (s.mem (pageOf (s.mem n j))) }
        mapInPgtbl base s dst i q (pteFlags (s.mem n j))

def copyPages (base : ℕ) (share : Bool) (src dst : ℕ) : List Word → Machine → Option Machine
  | [], s => some s
  | i :: is, s => (copyPage base share src dst s i).bind fun s => copyPages base share src dst is s

def copyRegions (base : ℕ) (share : Bool) (src dst : ℕ) : List Region → Machine → Option Machine
  | [], s => some s
  | v :: l, s =>
    (pagesOf v.first v.last).bind fun is => (copyPages base share src dst is s).bind fun s => copyRegions base share src dst l s

/-- `init_vmspace`: the page of the root, and the machine. -/
def initVmspace (s : Machine) : Option (ℕ × Machine) := (kallocPage s).map fun r => (r.1, memsetZero r.2 r.1)

/-- An address space after `copy_vmspace`: the machine, the page of the root, and the regions. -/
structure Copied where
  mach : Machine
  root : ℕ
  regions : List Region

/-- `copy_vmspace`, from the table `src` with the regions `l` to an address space with the table `dst` and the
regions `old`. The new root is not filled with zeros. -/
def copyVmspace (base : ℕ) (share : Bool) (s : Machine) (src : ℕ) (l : List Region) (dst : ℕ) (old : List Region) :
    Option Copied :=
  (freeVmregions base dst old s).bind fun s =>
    (kallocPage (freePageTable base s dst)).bind fun r =>
      (copyRegions base share src r.1 (inOrder l) r.2).map fun s => ⟨s, r.1, copyVmregions l⟩

/-! ### `vm/pgfault_handler.c` -/

/-- `handle_copy_on_write`, for the entry `i` of the page `n`. -/
def handleCopyOnWrite (base : ℕ) (s : Machine) (n : ℕ) (i : Idx) (pt : ℕ) (addr : Word) : Option Machine :=
  let target := pageOf (s.mem n i)
  match kallocPage s with
  | none => none
  | some (q, s) =>
    let s := { s with mem := update s.mem q (s.mem target) }
    mapInPgtbl base s pt addr q (pteFlags (s.mem n i) &&& ~~~pteRo)

/-- What a page fault is. -/
inductive Fault
  | copyOnWrite
  | memoryMap (v : Region)
  | unknown

/-- The loop of `pgfault_handler` over the regions, in the order of `list_forall`, for an entry `pte`. -/
def faultKind (regions : List Region) (addr pte : Word) : Fault :=
  let hit (v : Region) : Bool := v.first ≤ addr ∧ addr < v.last
  let cow (v : Region) : Bool := ¬ v.has vmrRo ∧ pteFlags pte &&& pteRo ≠ 0#64
  match findRegion (fun v => hit v && (cow v || v.has vmrMm)) regions with
  | none => .unknown
  | some (_, v) => if cow v then .copyOnWrite else .memoryMap v

/-- `pgfault_handler`, where it handles copy-on-write; `none` for the other faults. -/
def pgfaultHandler (base : ℕ) (s : Machine) (pt : ℕ) (regions : List Region) (addr : Word) : Option Machine :=
  match getPte s pt addr false with
  | none => none
  | some (none, _) => none
  | some (some (n, i), s) =>
    match faultKind regions addr (s.mem n i) with
    | .copyOnWrite => handleCopyOnWrite base s n i pt addr
    | _ => none

end OsHonor.Vm.PageTables.Code
