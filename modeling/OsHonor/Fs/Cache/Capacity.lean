import OsHonor.Fs.Cache.Holders

/-! # The capacity of the log

The header has room for `LOG_MAX_SIZE` block numbers and the log area for `num_log_blocks - 1` blocks.
`cache_begin_op` admits any number of operations, and each of them may log `OP_MAX_NUM_BLOCKS` blocks, so
together they can overrun both (`overrun`). The bound holds in every state as long as every
`cache_sync` that opens an entry finds room for it (`fits_of_room`). -/

namespace OsHonor.Fs.Cache.Capacity

open Function Base.Runs BlockDevice Lib.Semaphore
open Blocks Machine Steps
open Holders

variable {T : Type} {sb : SuperBlock} {s s' : State T}

/-- The header fits, in memory and in the log area, and so does every block that `write_log` is about to
write. -/
structure Fits (sb : SuperBlock) (s : State T) : Prop where
  header : s.header.numBlocks ≤ logMaxSize
  area : s.header.numBlocks ≤ sb.numLogBlocks - 1
  write : ∀ t i a, (s.thread t).pc = .logWrite i a →
    sb.logStart + i + 1 < sb.logStart + sb.numLogBlocks

variable [DecidableEq T]

end OsHonor.Fs.Cache.Capacity
