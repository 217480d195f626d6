import OsHonor.Fs.Cache.Bitmap
import OsHonor.Fs.Cache.Refines

/-! # How many blocks `cache_alloc` gives out

`cache_alloc` looks at as many bitmap blocks as it takes to hold one bit for every *data* block, but the bits are
numbered by the blocks of the device, and those of the metadata come first. So it gives out the blocks below
`limit` and panics when these are in use, even if there are free blocks left.

One client allocates in transactions of its own, on the cache of `fs/cache.c`. The runs are found on the array
of `Client`, with a log that is as large as the log area (`roomCall`), and carried over to the cache. -/

namespace OsHonor.Fs.Cache.Exhaustion

open Option List Base.Programs BlockDevice Blocks Machine
open Client Bitmap
open Refines (Sim sim_call_of_room sim_of_booted nextFit)

variable {sb : SuperBlock} {d : Disk} {i j k m n nmeta : ℕ}

/-! ### The programs -/

def beginOp : CacheProg Unit := Prog.perform (R := Call.Resp) .beginOp
def endOp : CacheProg Unit := Prog.perform (R := Call.Resp) .endOp

/-- An allocation in a transaction of its own. `cache_begin_op` sets `ctx->rm` to `OP_MAX_NUM_BLOCKS`. -/
def allocOp (sb : SuperBlock) : CacheProg ℕ := do
  beginOp
  let n ← cacheAlloc sb opMaxNumBlocks
  endOp
  pure n

def allocEach (sb : SuperBlock) : ℕ → CacheProg (List ℕ)
  | 0 => pure []
  | k + 1 => do
    let n ← allocOp sb
    let ns ← allocEach sb k
    pure (n :: ns)

/-! ### On the array -/

def isSync : Call → Bool
  | .sync _ => true
  | _ => false

/-- The calls on an array whose log is as large as the log area. -/
def roomCall (sb : SuperBlock) : Handler Arr Call Call.Resp := fun x c =>
  if isSync c ∧ capacity sb ≤ x.logged.length then none else arrCall sb x c

/-- **The cache answers as such an array does.** -/
theorem sim_roomCall (al : Alloc) (s : State Unit) (x : Arr) (c : Call) (r : c.Resp) (x' : Arr) (h : Sim sb s x)
    (hc : roomCall sb x c = some (r, x')) : ∃ s', cacheCall sb al s c = some (r, s') ∧ Sim sb s' x' := by
  unfold roomCall at hc
  split_ifs at hc with hfull
  refine sim_call_of_room h hc ?_
  rintro n rfl -
  exact not_le.mp fun hle => hfull ⟨rfl, hle⟩

section Calls

variable {x : Arr}

theorem roomCall_of_not_sync {c : Call} (h : isSync c = false) : roomCall sb x c = arrCall sb x c :=
  if_neg (by simp [h])

theorem run_acquire (hn : n ∈ home sb ∧ n < 2 ^ 64) (hnot : n ∉ x.held) :
    (acquire n).run (roomCall sb) x = some (x.cur n, { x with held := n :: x.held }) := by
  rw [acquire_run, roomCall_of_not_sync rfl]
  exact if_pos ⟨hn.1, hn.2, hnot⟩

theorem run_modify {f : BlockData → BlockData} (hn : n ∈ x.held) (hlog : n ∉ x.logged) :
    (Bitmap.modify n f).run (roomCall sb) x =
      some ((), { x with cur := Function.update x.cur n (f (x.cur n)), dirty := n :: x.dirty }) := by
  rw [modify_run, roomCall_of_not_sync rfl]
  simp [arrCall, hn, hlog]
  rfl

theorem run_sync {l : List ℕ} (hop : x.op = some l) (hn : n ∈ x.held) (hlog : n ∉ l) (hlen : l.length < 2)
    (hcap : 2 ≤ capacity sb) : (sync n).run (roomCall sb) x =
      some ((), { x with dirty := x.dirty.filter (· ≠ n), op := some (n :: l) }) := by
  have hroom : ¬ (isSync (.sync n) ∧ capacity sb ≤ x.logged.length) := by
    rintro ⟨-, hle⟩
    simp only [Arr.logged, hop, getD_some] at hle
    omega
  have hquota : l.length < opMaxNumBlocks := lt_trans hlen (by decide)
  rw [sync_run]
  refine (if_neg hroom).trans ?_
  simp [arrCall, hop, hn, hlog, hquota]
  rfl

theorem run_release (hn : n ∈ x.held) (hnot : n ∉ x.dirty) :
    (release n).run (roomCall sb) x = some ((), { x with held := x.held.erase n }) := by
  rw [release_run, roomCall_of_not_sync rfl]
  exact if_pos ⟨hn, hnot⟩

theorem run_beginOp (d : Disk) : beginOp.run (roomCall sb) (.init d) = some ((), ⟨d, [], [], some []⟩) := by
  refine (Prog.run_perform _ _).trans ((roomCall_of_not_sync rfl).trans ?_)
  simp [arrCall, Arr.init]
  rfl

theorem run_endOp (d : Disk) (l : List ℕ) :
    endOp.run (roomCall sb) ⟨d, [], [], some l⟩ = some ((), .init d) := by
  refine (Prog.run_perform _ _).trans ((roomCall_of_not_sync rfl).trans ?_)
  simp [arrCall, Arr.init]
  rfl

end Calls

def opened (d : Disk) : Arr := ⟨d, [], [], some []⟩

/-- The array after block `n` has been taken. -/
def took (sb : SuperBlock) (d : Disk) (n : ℕ) : Arr := ⟨takeBlock sb d n, [], [], some [bitmapBlock sb n, n]⟩

theorem run_claim (hcap : 2 ≤ capacity sb) (hj : j < bitPerBlock) (hn : i * bitPerBlock + j ∈ home sb)
    (hlt : i * bitPerBlock + j < 2 ^ 64) (hne : i * bitPerBlock + j ≠ sb.bitmapStart + i) :
    (claim sb i j).run (roomCall sb) ⟨d, [sb.bitmapStart + i], [], some []⟩ =
      some (i * bitPerBlock + j, took sb d (i * bitPerBlock + j)) := by
  have hb : bitmapBlock sb (i * bitPerBlock + j) = sb.bitmapStart + i := by
    unfold bitmapBlock
    rw [(div_mod_bit hj).1]
  have hmod : (i * bitPerBlock + j) % bitPerBlock = j := (div_mod_bit hj).2
  unfold claim took takeBlock
  rw [hb, hmod]
  generalize i * bitPerBlock + j = n at *
  rw [Prog.run_bind, run_acquire ⟨hn, hlt⟩ (by simpa using hne), bind_some,
    Prog.run_bind, run_modify (by simp) (by simp [Arr.logged]), bind_some,
    Prog.run_bind, run_sync rfl (by simp) (by simp) (by simp) hcap, bind_some,
    Prog.run_bind, run_modify (by simp) (by simpa [Arr.logged] using hne.symm), bind_some,
    Prog.run_bind, run_sync rfl (by simp) (by simpa using hne.symm) (by simp) hcap, bind_some,
    Prog.run_bind, run_release (by simp) (by simp), bind_some,
    Prog.run_bind, run_release (by simp) (by simp), bind_some, Prog.run_pure]
  simp

theorem run_cacheAllocLoop {fuel : ℕ} (hcap : 2 ≤ capacity sb) (hf : FirstFree sb d n) (hr : Reachable sb n)
    (hi : i ≤ n / bitPerBlock) (hfuel : n / bitPerBlock < i + fuel) :
    (cacheAllocLoop sb fuel i).run (roomCall sb) (opened d) = some (n, took sb d n) := by
  have hlt : n < 2 ^ 64 := lt_trans (lt_trans hf.lt sb.numBlocks_lt) (by norm_num)
  have hdm := Nat.div_add_mod' n bitPerBlock
  have hmod : n % bitPerBlock < bitPerBlock := Nat.mod_lt _ (by decide)
  induction fuel generalizing i with
  | zero => omega
  | succ fuel ih =>
    have hacq : (acquire (sb.bitmapStart + i)).run (roomCall sb) (opened d) =
        some (d (sb.bitmapStart + i), ⟨d, [sb.bitmapStart + i], [], some []⟩) := by
      exact run_acquire (hr.bitmap i hi) not_mem_nil
    rw [cacheAllocLoop, Prog.run_bind, hacq, bind_some]
    dsimp only
    rw [hf.scan hi]
    by_cases hin : i = n / bitPerBlock
    · rw [if_pos hin]
      have hne := hr.ne
      have hrun := @run_claim sb d (n / bitPerBlock) (n % bitPerBlock) hcap hmod
      rw [hdm] at hrun
      rw [hin]
      exact hrun hr.home hlt hne
    · have hrel : (release (sb.bitmapStart + i)).run (roomCall sb) ⟨d, [sb.bitmapStart + i], [], some []⟩ =
          some ((), opened d) := by
        rw [run_release mem_cons_self not_mem_nil, erase_cons_head]
        rfl
      rw [if_neg hin]
      dsimp only
      rw [Prog.run_bind, hrel, bind_some]
      exact ih (by omega) (by omega)

theorem cacheAllocLoop_fails {fuel : ℕ} (hall : ∀ n < sb.numBlocks, n / bitPerBlock < i + fuel → marked sb d n = true)
    (hbm : ∀ k < i + fuel, sb.bitmapStart + k ∈ home sb ∧ sb.bitmapStart + k < 2 ^ 64) :
    (cacheAllocLoop sb fuel i).Fails (roomCall sb) (opened d) := by
  induction fuel generalizing i with
  | zero => trivial
  | succ fuel ih =>
    have hacq : (acquire (sb.bitmapStart + i)).run (roomCall sb) (opened d) =
        some (d (sb.bitmapStart + i), ⟨d, [sb.bitmapStart + i], [], some []⟩) := by
      exact run_acquire (hbm i (by omega)) not_mem_nil
    have hrel : (release (sb.bitmapStart + i)).run (roomCall sb) ⟨d, [sb.bitmapStart + i], [], some []⟩ =
        some ((), opened d) := by
      rw [run_release mem_cons_self not_mem_nil, erase_cons_head]
      rfl
    have hspec := @scan_spec sb i (d (sb.bitmapStart + i)) bitPerBlock 0
    rw [cacheAllocLoop]
    refine Prog.fails_bind_of_run hacq ?_
    generalize scan sb i (d (sb.bitmapStart + i)) bitPerBlock 0 = r at hspec ⊢
    cases r with
    | beyond => exact Prog.fails_bind_of_run hrel trivial
    | free j =>
      obtain ⟨-, hlt, hclear, hdev, -⟩ := hspec
      have hj : j < bitPerBlock := by omega
      have hset := hall _ hdev (by rw [(div_mod_bit hj).1]; omega)
      rw [marked_of_bit _ hj, hclear] at hset
      cases hset
    | full =>
      refine Prog.fails_bind_of_run hrel (ih (fun n hn hlt => hall n hn (by omega)) fun k hk => hbm k (by omega))

/-! ### Layouts -/

/-- **The metadata come first**: the blocks below `nmeta` are metadata, with the log and the bitmap among them,
and the data blocks are the others. The log has room for the two blocks that an allocation logs. -/
structure Layout (sb : SuperBlock) (nmeta : ℕ) : Prop where
  blocks : nmeta + sb.numDataBlocks = sb.numBlocks
  log : sb.logStart + sb.numLogBlocks ≤ nmeta
  room : 2 < sb.numLogBlocks
  bitmap : ∀ n < sb.numBlocks, bitmapBlock sb n ∈ home sb ∧ bitmapBlock sb n < nmeta

/-- The blocks that are in use are those below `m`. -/
def UsedBelow (sb : SuperBlock) (d : Disk) (m : ℕ) : Prop := ∀ n < sb.numBlocks, marked sb d n = decide (n < m)

/-- The blocks that `cache_alloc` can find are those below. -/
def limit (sb : SuperBlock) : ℕ := min sb.numBlocks (numBitmapBlocks sb * bitPerBlock)

section Layout

variable (hl : Layout sb nmeta)
include hl

theorem Layout.capacity : 2 ≤ capacity sb := by
  have h := hl.room
  unfold BlockDevice.capacity logMaxSize blockSize
  omega

theorem Layout.scanned (hk : k < numBitmapBlocks sb) :
    sb.bitmapStart + k ∈ home sb ∧ sb.bitmapStart + k < 2 ^ 64 := by
  have hnum : k * bitPerBlock < sb.numBlocks := by
    have hblocks := hl.blocks
    unfold numBitmapBlocks at hk
    unfold bitPerBlock blockSize at *
    omega
  have hb : bitmapBlock sb (k * bitPerBlock) = sb.bitmapStart + k := by
    unfold bitmapBlock
    rw [Nat.mul_div_cancel _ (by decide)]
  obtain ⟨hhome, hlt⟩ := hl.bitmap _ hnum
  rw [hb] at hhome hlt
  refine ⟨hhome, lt_trans hlt ?_⟩
  have hle := hl.blocks
  have hdev := sb.numBlocks_lt
  omega

theorem Layout.reachable (hm : nmeta ≤ m) (hlt : m < sb.numBlocks) : Reachable sb m where
  bitmap i hi := by
    have hi' : i * bitPerBlock < sb.numBlocks :=
      lt_of_le_of_lt ((Nat.mul_le_mul_right _ hi).trans (Nat.div_mul_le_self _ _)) hlt
    have hb : bitmapBlock sb (i * bitPerBlock) = sb.bitmapStart + i := by
      unfold bitmapBlock
      rw [Nat.mul_div_cancel _ (by decide)]
    obtain ⟨hhome, hmeta⟩ := hl.bitmap _ hi'
    rw [hb] at hhome hmeta
    have hdev := sb.numBlocks_lt
    exact ⟨hhome, by omega⟩
  home := by
    have hlog := hl.log
    show ¬ (sb.logStart ≤ m ∧ m < sb.logStart + sb.numLogBlocks)
    omega
  ne := by
    have hmeta := (hl.bitmap m hlt).2
    omega

omit hl in
theorem UsedBelow.firstFree (h : UsedBelow sb d m) (hlt : m < limit sb) : FirstFree sb d m := by
  obtain ⟨hdev, hscan⟩ := lt_min_iff.mp hlt
  refine ⟨by rw [h m hdev]; simp, hdev, fun n hn => by rw [h n (lt_trans hn hdev)]; simpa using hn, ?_⟩
  exact Nat.div_lt_of_lt_mul (by rwa [Nat.mul_comm])

theorem UsedBelow.take (h : UsedBelow sb d m) (hm : nmeta ≤ m) : UsedBelow sb (takeBlock sb d m) (m + 1) := by
  intro n hn
  have hne : bitmapBlock sb n ≠ m := by
    have hmeta := (hl.bitmap n hn).2
    omega
  rw [marked_takeBlock hne, h n hn, ← Bool.decide_or]
  exact decide_eq_decide.mpr (by omega)

/-! ### Allocations on the array -/

/-- **An allocation** takes the first block that is not in use. -/
theorem run_allocOp (h : UsedBelow sb d m) (hm : nmeta ≤ m) (hlt : m < limit sb) :
    (allocOp sb).run (roomCall sb) (.init d) = some (m, .init (takeBlock sb d m)) := by
  have hdev := (lt_min_iff.mp hlt).1
  have hloop := @run_cacheAllocLoop sb d 0 m (numBitmapBlocks sb) hl.capacity (h.firstFree hlt)
    (hl.reachable hm hdev) (Nat.zero_le _) (by rw [Nat.zero_add]; exact (h.firstFree hlt).scanned)
  have halloc : (cacheAlloc sb opMaxNumBlocks).run (roomCall sb) (opened d) = some (m, took sb d m) := by
    rw [cacheAlloc, Prog.run_bind, Prog.run_check, if_pos (by decide), bind_some]
    exact hloop
  rw [allocOp, Prog.run_bind, run_beginOp, bind_some, Prog.run_bind]
  dsimp only
  rw [show (⟨d, [], [], some []⟩ : Arr) = opened d from rfl, halloc, bind_some, Prog.run_bind]
  dsimp only [took]
  rw [run_endOp, bind_some, Prog.run_pure]

/-- **An allocation panics** when all blocks it can find are in use. -/
theorem allocOp_fails (h : UsedBelow sb d m) (hle : limit sb ≤ m) :
    (allocOp sb).Fails (roomCall sb) (.init d) := by
  refine Prog.fails_bind_of_run (run_beginOp d) (Prog.Fails.bind ?_)
  refine Prog.fails_bind_of_run (a := ()) (by rw [Prog.run_check, if_pos (by decide)]) ?_
  refine cacheAllocLoop_fails (fun n hn hscan => ?_) fun k hk => hl.scanned (by omega)
  rw [h n hn]
  rw [Nat.zero_add] at hscan
  refine decide_eq_true (lt_of_lt_of_le (lt_min_iff.mpr ⟨hn, ?_⟩) hle)
  exact (Nat.div_lt_iff_lt_mul (by decide)).mp hscan

theorem run_allocEach (h : UsedBelow sb d m) (hm : nmeta ≤ m) (hk : m + k ≤ limit sb ∨ k = 0) :
    ∃ d', (allocEach sb k).run (roomCall sb) (.init d) = some (List.range' m k, .init d') ∧
      UsedBelow sb d' (m + k) := by
  induction k generalizing d m with
  | zero => exact ⟨d, rfl, h⟩
  | succ k ih =>
    obtain ⟨d', hrun, hd'⟩ := ih (h.take hl hm) (by omega) (Or.inl (by omega))
    refine ⟨d', ?_, by rwa [Nat.add_right_comm] at hd'⟩
    rw [allocEach, Prog.run_bind, run_allocOp hl h hm (by omega), bind_some, Prog.run_bind, hrun,
      bind_some]
    rfl

theorem allocEach_fails (h : UsedBelow sb d m) (hm : nmeta ≤ m) (hk : limit sb < m + k) (hpos : 0 < k) :
    (allocEach sb k).Fails (roomCall sb) (.init d) := by
  induction k generalizing d m with
  | zero => omega
  | succ k ih =>
    rw [allocEach]
    by_cases hlt : m < limit sb
    · refine Prog.fails_bind_of_run (run_allocOp hl h hm hlt) (Prog.Fails.bind ?_)
      exact ih (h.take hl hm) (by omega) (by omega) (by omega)
    · exact Prog.Fails.bind (allocOp_fails hl h (by omega))

end Layout

/-! ### On the cache -/

/-- **All data blocks are usable**: as many allocations succeed as there are data blocks, each data block is given
out once, and the next allocation panics. -/
def AllUsable (sb : SuperBlock) (al : Alloc) (nmeta : ℕ) (s : State Unit) : Prop :=
  ∃ ns s', (allocEach sb sb.numDataBlocks).run (cacheCall sb al) s = some (ns, s') ∧ ns.Nodup ∧
    (∀ n, n ∈ ns ↔ nmeta ≤ n ∧ n < sb.numBlocks) ∧ (allocOp sb).Fails (cacheCall sb al) s'

/-- The bitmap blocks for the data blocks hold the bits of all blocks, and their number is found without overflow. -/
def AllScanned (sb : SuperBlock) : Prop :=
  sb.numDataBlocks = 0 ∨
    sb.numDataBlocks + 4095 < 2 ^ 32 ∧ sb.numBlocks ≤ (sb.numDataBlocks + 4095) / 4096 * 4096

section Cache

variable {al : Alloc} {s : State Unit} (hl : Layout sb nmeta) (hb : Booted sb s) (hm : UsedBelow sb s.disk nmeta)
include hl

theorem Layout.allScanned_iff : AllScanned sb ↔ nmeta + sb.numDataBlocks ≤ limit sb ∨ sb.numDataBlocks = 0 := by
  have hblocks := hl.blocks
  have hdev := sb.numBlocks_lt
  have hlog := hl.log
  have hroom := hl.room
  unfold AllScanned limit numBitmapBlocks bitPerBlock blockSize
  omega

include hb hm

theorem allUsable_of_allScanned (h : AllScanned sb) : AllUsable sb al nmeta s := by
  have hlim := hl.allScanned_iff.mp h
  obtain ⟨d', hrun, hd'⟩ := run_allocEach hl hm le_rfl hlim
  have hfull : limit sb ≤ nmeta + sb.numDataBlocks := by
    rw [hl.blocks]
    exact min_le_left _ _
  obtain ⟨s', hs', hsim⟩ := Prog.run_sim (sim_roomCall al) (sim_of_booted hb) hrun
  refine ⟨_, s', hs', nodup_range' , fun n => ?_, ?_⟩
  · rw [mem_range'_1, hl.blocks]
  · exact Prog.fails_sim (sim_roomCall al) hsim (allocOp_fails hl hd' hfull)

theorem not_allUsable (h : ¬ AllScanned sb) : ¬ AllUsable sb al nmeta s := by
  rintro ⟨ns, s', hrun, -⟩
  rw [hl.allScanned_iff, not_or] at h
  have hfail := allocEach_fails hl hm le_rfl (not_le.mp h.1) (Nat.pos_of_ne_zero h.2)
  have hnone := (Prog.fails_sim (sim_roomCall al) (sim_of_booted hb) hfail).run_eq_none
  rw [hnone] at hrun
  cases hrun

/-- **All data blocks are usable exactly if the bits of all blocks are looked at.** -/
theorem allUsable_iff : AllUsable sb al nmeta s ↔ AllScanned sb := by
  constructor
  · intro h
    by_contra hnot
    exact not_allUsable hl hb hm hnot h
  · exact allUsable_of_allScanned hl hb hm

end Cache

/-! ### Two devices -/

/-- A device whose bitmap is at block `b` and marks the blocks below `nmeta`. -/
def metaDisk (b nmeta : ℕ) : Disk := fun n i => if n = b then UInt8.ofNat (2 ^ min 8 (nmeta - 8 * i.val) - 1) else 0

theorem usedBelow_metaDisk (h : nmeta ≤ bitPerBlock) : UsedBelow sb (metaDisk sb.bitmapStart nmeta) nmeta := by
  intro n _
  have hle : nmeta ≤ 4096 := h
  have hlt : n % bitPerBlock / 8 < blockSize := by unfold bitPerBlock blockSize; omega
  unfold marked bitmapBlock
  rw [bitmapGet_eq]
  unfold metaDisk Base.Bytes.Buf.byte
  rw [dif_pos hlt]
  dsimp only
  by_cases hn : n / bitPerBlock = 0
  · -- the bits of the first bitmap block
    have hmod : n % bitPerBlock = n := by unfold bitPerBlock blockSize at *; omega
    have hpow : 2 ^ min 8 (nmeta - 8 * (n / 8)) ≤ 2 ^ 8 := Nat.pow_le_pow_right (by omega) (min_le_left _ _)
    rw [if_pos (by omega), hmod, UInt8.toNat_ofNat_of_lt' (by
      show 2 ^ min 8 (nmeta - 8 * (n / 8)) - 1 < 2 ^ 8
      omega), Nat.testBit_two_pow_sub_one]
    exact decide_eq_decide.mpr (by omega)
  · rw [if_neg (by omega)]
    have hge : ¬ n < nmeta := by unfold bitPerBlock blockSize at hn; omega
    simp [hge]

theorem booted_metaDisk (h : sb.logStart ≠ sb.bitmapStart) :
    Booted sb (boot (metaDisk sb.bitmapStart nmeta) : State Unit) := by
  refine booted_boot ?_
  have hzero : metaDisk sb.bitmapStart nmeta sb.logStart = fun _ => 0 := funext fun i => if_neg h
  rw [hzero]
  decide

/-- All data blocks of the device that `user/mkfs` makes are usable. -/
theorem allUsable_iff_mkfs : ∃ s, AllUsable mkfsLayout nextFit 92 s := by
  have hl : Layout mkfsLayout 92 := by
    refine ⟨rfl, by decide, by decide, fun n hn => ?_⟩
    have hn' : n < 1000 := hn
    have hb : bitmapBlock mkfsLayout n = 91 := by
      show 91 + n / 4096 = 91
      omega
    rw [hb]
    decide
  exact ⟨_, (allUsable_iff hl (booted_metaDisk (by decide)) (usedBelow_metaDisk (by decide))).mpr
    (Or.inr ⟨by decide, by decide⟩)⟩

/-- Only the first of its two bitmap blocks is looked at: the last 96 blocks are never given out. -/
theorem fullLayout_not_usable : ∃ s, Layout fullLayout 96 ∧ Booted fullLayout s ∧ UsedBelow fullLayout s.disk 96 ∧
    ¬ AllUsable fullLayout nextFit 96 s := by
  have hl : Layout fullLayout 96 := by
    refine ⟨rfl, by decide, by decide, fun n hn => ?_⟩
    have hn' : n < 4192 := hn
    have hb : bitmapBlock fullLayout n = 91 + n / 4096 := rfl
    have hdiv : n / 4096 < 2 := by omega
    rw [hb]
    show ¬ (2 ≤ 91 + n / 4096 ∧ 91 + n / 4096 < 2 + 63) ∧ 91 + n / 4096 < 96
    omega
  have hb : Booted fullLayout (boot (metaDisk 91 96) : State Unit) := booted_metaDisk (by decide)
  have hm : UsedBelow fullLayout (metaDisk 91 96) 96 := usedBelow_metaDisk (by decide)
  exact ⟨_, hl, hb, hm, not_allUsable hl hb hm (by unfold AllScanned; decide)⟩

end OsHonor.Fs.Cache.Exhaustion
