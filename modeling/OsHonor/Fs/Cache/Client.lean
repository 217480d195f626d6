import OsHonor.Base.Programs
import OsHonor.Fs.Cache.Durability

/-! # One client of the block cache

A single client calls the block cache and waits for each call to return: `cacheCall` runs the steps of
the call one after the other. What the calls mean for the client is said by an array of blocks without
any cache, disk or log (`arrCall`): `cache_acquire` returns what was last stored into the block.

The array also keeps the books that say which clients it is for. A client acquires blocks outside the
log area that it does not hold, logs at most `opMaxNumBlocks` blocks in an operation, syncs the blocks
it has modified before it releases them, and holds none when it calls `cache_end_op`. To other calls the
array gives no answer. -/

namespace OsHonor.Fs.Cache.Client

open Base.Programs BlockDevice Blocks
open Machine

/-- The calls of a client. It names a block by its number. -/
inductive Call where
  | beginOp
  | acquire (n : ℕ)
  | modify (n : ℕ) (f : BlockData → BlockData)
  | sync (n : ℕ)
  | release (n : ℕ)
  | endOp

/-- What a call returns: `cache_acquire` gives access to the contents of the block. -/
def Call.Resp : Call → Type
  | .acquire _ => BlockData
  | _ => Unit

/-! ### The calls on the cache -/

/-- `kalloc`: an address that is not in use. -/
structure Alloc where
  kalloc : List ℕ → ℕ
  fresh : ∀ l, kalloc l ∉ l

/-- The steps in which the longest call returns: seven, and six for every entry of the log header. -/
def maxSteps : ℕ := 6 * logMaxSize + 7

section

variable (sb : SuperBlock) (al : Alloc)

def finish : ℕ → State Unit → Option (State Unit)
  | 0, s => if (s.thread ()).pc.isReady then some s else none
  | n + 1, s =>
    if (s.thread ()).pc.isReady then some s
    else (step sb s (.run () (al.kalloc ((evictFull s.blocks).map Block.addr)))).bind (finish n)

def perform (s : State Unit) (l : Label Unit) : Option (State Unit) :=
  (step sb s l).bind (finish sb al maxSteps)

/-- The client's pointer to block `n`. -/
def ptr (s : State Unit) (n : ℕ) : Option ℕ := (fetchCached n s.blocks).map Block.addr

/-- **The calls on the cache.** -/
def cacheCall : Handler (State Unit) Call Call.Resp := fun s c =>
  match c with
  | .beginOp => (perform sb al s (.beginOp ())).map fun s => ((), s)
  | .acquire n => do
    let s ← perform sb al s (.acquire () n)
    let a ← (s.thread ()).held.head?
    let b ← find a s.blocks
    some (b.data, s)
  | .modify n f => do
    let a ← ptr s n
    (perform sb al s (.modify () a f)).map fun s => ((), s)
  | .sync n => do
    let a ← ptr s n
    (perform sb al s (.sync () a)).map fun s => ((), s)
  | .release n => do
    let a ← ptr s n
    (perform sb al s (.release () a)).map fun s => ((), s)
  | .endOp => (perform sb al s (.endOp ())).map fun s => ((), s)

end

/-! ### The calls on an array -/

/-- An array of blocks, the blocks the client holds, those it has modified and not yet synced, and the
blocks that its operation has logged, if one is open. -/
structure Arr where
  cur : Disk
  held : List ℕ
  dirty : List ℕ
  op : Option (List ℕ)

def Arr.logged (x : Arr) : List ℕ := x.op.getD []

/-- **The calls on an array.** A block the operation has logged already may be modified at any time. -/
def arrCall (sb : SuperBlock) : Handler Arr Call Call.Resp := fun x c =>
  match c with
  | .beginOp => if x.op = none then some ((), { x with op := some [] }) else none
  | .acquire n =>
    if n ∈ home sb ∧ n < 2 ^ 64 ∧ n ∉ x.held then some (x.cur n, { x with held := n :: x.held }) else none
  | .modify n f =>
    if n ∈ x.held ∨ n ∈ x.logged then
      some ((), { x with
        cur := Function.update x.cur n (f (x.cur n))
        dirty := if n ∈ x.logged then x.dirty else n :: x.dirty })
    else none
  | .sync n =>
    match x.op with
    | none => none
    | some l =>
      if n ∉ x.held then none
      else if n ∈ l then some ((), { x with dirty := x.dirty.filter (· ≠ n) })
      else if l.length < opMaxNumBlocks then
        some ((), { x with dirty := x.dirty.filter (· ≠ n), op := some (n :: l) })
      else none
  | .release n =>
    if n ∈ x.held ∧ n ∉ x.dirty then some ((), { x with held := x.held.erase n }) else none
  | .endOp => if x.op ≠ none ∧ x.held = [] then some ((), { x with op := none }) else none

/-- What the calls do that the array answers. -/
inductive ArrStep (sb : SuperBlock) (x : Arr) : (c : Call) → c.Resp → Arr → Prop
  | beginOp : x.op = none → ArrStep sb x .beginOp () { x with op := some [] }
  | acquire {n : ℕ} : n ∈ home sb ∧ n < 2 ^ 64 ∧ n ∉ x.held →
      ArrStep sb x (.acquire n) (x.cur n) { x with held := n :: x.held }
  | modify {n : ℕ} {f : BlockData → BlockData} : n ∈ x.held ∨ n ∈ x.logged →
      ArrStep sb x (.modify n f) () { x with
        cur := Function.update x.cur n (f (x.cur n))
        dirty := if n ∈ x.logged then x.dirty else n :: x.dirty }
  | syncOld {n : ℕ} {l : List ℕ} : x.op = some l → n ∈ x.held → n ∈ l →
      ArrStep sb x (.sync n) () { x with dirty := x.dirty.filter (· ≠ n) }
  | syncNew {n : ℕ} {l : List ℕ} : x.op = some l → n ∈ x.held → n ∉ l → l.length < opMaxNumBlocks →
      ArrStep sb x (.sync n) () { x with dirty := x.dirty.filter (· ≠ n), op := some (n :: l) }
  | release {n : ℕ} : n ∈ x.held ∧ n ∉ x.dirty →
      ArrStep sb x (.release n) () { x with held := x.held.erase n }
  | endOp : x.op ≠ none ∧ x.held = [] → ArrStep sb x .endOp () { x with op := none }

theorem arr_cases {sb : SuperBlock} {x x' : Arr} {c : Call} {r : c.Resp}
    (h : arrCall sb x c = some (r, x')) : ArrStep sb x c r x' := by
  cases c with
  | modify n f =>
    by_cases hn : n ∈ x.held ∨ n ∈ x.logged
    · rw [arrCall, if_pos hn] at h
      obtain ⟨⟩ := h
      exact .modify hn
    · simp [arrCall, hn] at h
  | sync n =>
    rcases hop : x.op with _ | l
    · simp [arrCall, hop] at h
    · simp only [arrCall, hop] at h
      split_ifs at h with hn hl hlen
      · obtain ⟨⟩ := h
        rw [← hop]
        exact .syncOld hop hn hl
      · obtain ⟨⟩ := h
        exact .syncNew hop hn hl hlen
  | beginOp | acquire n | release n | endOp =>
    simp only [arrCall] at h
    split_ifs at h with hn
    obtain ⟨⟩ := h
    constructor
    exact hn

def Arr.init (d : Disk) : Arr := ⟨d, [], [], none⟩

end OsHonor.Fs.Cache.Client
