import OsHonor.Lib.Rings
import Mathlib.Algebra.Order.Ring.Int

/-! # Pages and partitions (`kernel/mem.c`)

The memory is a function from the addresses of words to words. It holds the pages that are handed out,
and in the pages that are not the allocator's own lists: the links of `pages_free` in the first two words
of a free page, the list of the free partitions in their first words. The links of the slabs stand in
`page_info`, so they are links between page numbers.

`first` is the address of the first page, `PAGE_BASE(&end) + PAGE_SIZE`. Locks are left out: a function
runs as one step. `none` is a failed assertion or the use of a page that does not exist. -/

namespace OsHonor.Memory.Allocator

open Function Lib.Rings

def pageSize : ℕ := 4096

def maxPages : ℕ := 1048576

/-- `struct page`. The `page` of its `partitioned_node` is the page itself. -/
structure Page where
  addr : ℕ
  baseSize : ℕ
  freeHead : ℕ
  allocPartitionsCnt : ℕ
  bucketIndex : ℕ

structure State where
  mem : ℕ → ℕ
  allocPageCnt : ℤ
  pagesFree : Lst ℕ
  pageInfo : ℕ → Page
  /-- The `pp_node`s, by the number of their page. -/
  ppNodes : Links ℕ
  slabs : ℕ → Lst ℕ

def va2id (first vaddr : ℕ) : ℕ := (vaddr - first) / pageSize

/-- The first two words of a page as a `ListNode`. -/
def pageLinks (mem : ℕ → ℕ) : Links ℕ := ⟨fun p => mem p, fun p => mem (p + 8)⟩

def setLinks (mem : ℕ → ℕ) (h : Links ℕ) (a : ℕ) : ℕ :=
  if a % pageSize = 0 then h.prev a else if a % pageSize = 8 then h.next (a - 8) else mem a

/-! ### Pages -/

def kallocPage (s : State) : Option (ℕ × State) :=
  s.pagesFree.head.bind fun pageToAllocate =>
    (listPopHead (pageLinks s.mem) s.pagesFree).map fun (h, l) =>
      (pageToAllocate,
        { s with mem := setLinks s.mem h, pagesFree := l, allocPageCnt := s.allocPageCnt + 1 })

def kfreePage (s : State) (p : ℕ) : State :=
  let (h, l) := listPushBack (pageLinks s.mem) s.pagesFree p
  { s with mem := setLinks s.mem h, pagesFree := l, allocPageCnt := s.allocPageCnt - 1 }

/-- The loop of `define_early_init(pages)`, after `inited` pages; `none` is the panic. -/
def initPages (first : ℕ) (mem : ℕ → ℕ) : ℕ → Option State
  | 0 => some ⟨mem, 0, ⟨none, 0⟩, fun _ => ⟨0, 0, 0, 0, 0⟩, ⟨fun _ => 0, fun _ => 0⟩, fun _ => ⟨none, 0⟩⟩
  | inited + 1 =>
    (initPages first mem inited).bind fun s =>
      let p := first + inited * pageSize
      let (h, l) := listPushBack (pageLinks s.mem) s.pagesFree p
      if maxPages ≤ inited then none
      else
        some { s with
          mem := setLinks s.mem h
          pagesFree := l
          pageInfo := update s.pageInfo inited ⟨p, 0, p, 0, 0⟩ }

/-! ### Partitions -/

/-- The loop of `__round_up`, with its 16-bit `result`. -/
def roundUpLoop (s : ℕ) : ℕ → ℕ → ℕ → Option (ℕ × ℕ)
  | 0, _, _ => none
  | fuel + 1, result, index =>
    if result < s then roundUpLoop s fuel (result * 2 % 2 ^ 16) (index + 1) else some (result, index)

/-- `__round_up`: the rounded size and the index of its bucket. -/
def roundUp (s : ℕ) : Option (ℕ × ℕ) :=
  (roundUpLoop s 17 1 0).map fun (result, index) =>
    (if 8 ≤ result then result else 8, if 3 ≤ index then index else 3)

/-- The loop of `__partition_page` that threads the list of the partitions. -/
def partitionLoop (roundedSize last : ℕ) : ℕ → (ℕ → ℕ) → ℕ → Option (ℕ → ℕ)
  | 0, _, _ => none
  | fuel + 1, mem, p =>
    if p < last then
      partitionLoop roundedSize last fuel (update mem p (p + roundedSize)) (p + roundedSize)
    else some (update mem p 0)

/-- `__partition_page`: the number of the page. -/
def partitionPage (first : ℕ) (s : State) (roundedSize bucketIndex : ℕ) : Option (ℕ × State) :=
  (kallocPage s).bind fun (page, s) =>
    (partitionLoop roundedSize (page + pageSize - roundedSize) pageSize s.mem page).map fun mem =>
      let id := va2id first page
      (id, { s with
        mem := mem
        pageInfo := update s.pageInfo id
          ⟨page, roundedSize, page, (s.pageInfo id).allocPartitionsCnt, bucketIndex⟩
        ppNodes := initListNode s.ppNodes id })

def allocPartition (s : State) (id : ℕ) : ℕ × State :=
  let p := s.pageInfo id
  (p.freeHead, { s with
    pageInfo := update s.pageInfo id
      { p with freeHead := s.mem p.freeHead, allocPartitionsCnt := p.allocPartitionsCnt + 1 } })

/-- The loop of `kalloc` over the pages of a bucket. -/
def findPage (s : State) : ℕ → ℕ → Option ℕ
  | 0, _ => none
  | left + 1, id =>
    if (s.pageInfo id).allocPartitionsCnt + 1 < pageSize / (s.pageInfo id).baseSize then some id
    else findPage s left (s.ppNodes.next id)

def kalloc (first : ℕ) (st : State) (s : ℕ) : Option (ℕ × State) :=
  if s = 0 ∨ pageSize < s then none
  else if 2048 < s then kallocPage st
  else
    (roundUp s).bind fun (roundedSize, bucketIndex) =>
      match (st.slabs bucketIndex).head.bind (findPage st (st.slabs bucketIndex).size) with
      | some id => some (allocPartition st id)
      | none =>
        (partitionPage first st roundedSize bucketIndex).map fun (id, st) =>
          let (h, l) := listPushBack st.ppNodes (st.slabs bucketIndex) id
          allocPartition { st with ppNodes := h, slabs := update st.slabs bucketIndex l } id

def kfree (first : ℕ) (s : State) (p : ℕ) : Option State :=
  let id := (p - first) / pageSize
  let info := s.pageInfo id
  let cnt := if 0 < info.allocPartitionsCnt then info.allocPartitionsCnt - 1 else info.allocPartitionsCnt
  let tmp := s.mem info.freeHead
  let mem := update (update s.mem info.freeHead p) p tmp
  let s := { s with
    mem := mem
    pageInfo := update s.pageInfo id { info with allocPartitionsCnt := cnt } }
  if cnt = 0 then
    (listRemove s.ppNodes (s.slabs info.bucketIndex) id).map fun (h, l) =>
      kfreePage { s with ppNodes := h, slabs := update s.slabs info.bucketIndex l } info.addr
  else some s

end OsHonor.Memory.Allocator
