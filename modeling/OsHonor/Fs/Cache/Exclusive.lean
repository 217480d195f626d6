import OsHonor.Fs.Cache.Ownership

/-! # Exclusive ownership of cached blocks

What the ownership invariant says about the list of cached blocks, for the runs in which no eviction
frees a block that a woken sleeper has yet to take; and a run in which one does. -/

namespace OsHonor.Fs.Cache.Exclusive

open Base.Keyed Base.Runs BlockDevice Lib.Semaphore
open Blocks Machine
open Holders Ownership

variable {T : Type} [DecidableEq T] {sb : SuperBlock} {s : State T}

/-- The free block for `i`, at the address `i`, on an empty device. -/
def cell (i : ℕ) : Block (Fin 3) where
  addr := i
  blockNo := i
  acquired := false
  pinned := false
  lock := ⟨1, []⟩
  valid := true
  data := fun _ => 0

end OsHonor.Fs.Cache.Exclusive
