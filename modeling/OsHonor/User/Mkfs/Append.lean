import OsHonor.Fs.Inodes.Accounting
import OsHonor.User.Mkfs.Code

/-! # `iappend` is `inode_write` at the end of the file

The image builder and the kernel have been written independently of each other. On an image whose unused
blocks are zero, `iappend` does to the blocks what `inode_write` does that gets its blocks from an
allocator that gives them out in order (`iappend_of_write`); what is known about `inode_write` so holds
of the image builder. -/

namespace OsHonor.User.Mkfs.Append

open Option Function List Base.Bytes Base.Programs Base.Refs Fs.BlockDevice
open Fs.Inodes.Format Fs.Inodes.Code Fs.Inodes.BlockStore
open Fs.Inodes.Files Fs.Inodes.Contents Fs.Inodes.Accounting Code

/-- The image as an array with an allocator: the blocks from `nmeta` on that have been given out are in
use. -/
def storeOf (m : Image) : Store := ⟨m.disk, Finset.Ico nmeta m.freeblock, [], []⟩

/-- The blocks that have not been given out are zero, and they start inside the image. -/
structure Fresh (m : Image) : Prop where
  zero : ∀ n, m.freeblock ≤ n → m.disk n = fun _ => 0
  ge : nmeta ≤ m.freeblock
  le : m.freeblock ≤ fssize

variable {m m' : Image} {e e' : Dinode}

theorem mem_used {n : ℕ} : n ∈ (storeOf m).used ↔ nmeta ≤ n ∧ n < m.freeblock := Finset.mem_Ico

theorem Fresh.lt_fssize (h : Fresh m) {n : ℕ} (hn : n ∈ (storeOf m).used) : n < fssize :=
  lt_of_lt_of_le (mem_used.mp hn).2 h.le

theorem Fresh.wsect (h : Fresh m) {n : ℕ} (hn : n < m.freeblock) (buf : BlockData) :
    Fresh (wsect m n buf) where
  zero k hk := by
    have hk' : m.freeblock ≤ k := hk
    show update m.disk n buf k = _
    rw [update_of_ne (by omega)]
    exact h.zero k hk'
  ge := h.ge
  le := h.le

theorem Fresh.next (h : Fresh m) (hlt : m.freeblock < fssize) :
    Fresh { m with freeblock := m.freeblock + 1 } where
  zero k hk := h.zero k (by have : m.freeblock + 1 ≤ k := hk; omega)
  ge := le_trans h.ge (Nat.le_succ _)
  le := hlt

theorem pick_used (h : Fresh m) :
    firstFit.pick (storeOf m).used = if m.freeblock < fssize then some m.freeblock else none := by
  have hge : 92 ≤ m.freeblock := h.ge
  have hle : m.freeblock ≤ 1000 := h.le
  split_ifs with hlt
  · have hlt' : m.freeblock < 1000 := hlt
    have hsplit : List.range' 92 908 = List.range' 92 (m.freeblock - 92) ++
        m.freeblock :: List.range' (m.freeblock + 1) (1000 - (m.freeblock + 1)) := by
      rw [← range'_succ, show 908 = (m.freeblock - 92) + (1000 - (m.freeblock + 1) + 1) by omega,
        ← range'_append_1]
      congr 2
      omega
    unfold firstFit
    dsimp only
    rw [hsplit, find?_append, find?_eq_none.mpr, none_or, find?_cons_of_pos]
    · simp [mem_used]
    · intro n hn
      have := mem_range'_1.mp hn
      have hmem : n ∈ (storeOf m).used := mem_used.mpr ⟨this.1, by omega⟩
      simp [hmem]
  · have hge' : 1000 ≤ m.freeblock := not_lt.mp hlt
    unfold firstFit
    dsimp only
    rw [find?_eq_none]
    intro n hn
    have := mem_range'_1.mp hn
    have hmem : n ∈ (storeOf m).used := mem_used.mpr ⟨this.1, by omega⟩
    simp [hmem]

theorem take_storeOf (h : Fresh m) :
    (storeOf m).take m.freeblock = storeOf { m with freeblock := m.freeblock + 1 } := by
  have hge := h.ge
  unfold storeOf Store.take
  congr 1
  · funext n
    by_cases hn : n = m.freeblock
    · subst hn
      rw [update_self, h.zero _ le_rfl]
    · rw [update_of_ne hn]
  · ext n
    simp only [Finset.mem_insert, Finset.mem_Ico]
    omega

theorem meets_alloc_fresh {Q : ℕ → Store → Prop} (h : Fresh m)
    (hq : m.freeblock < fssize → Q m.freeblock (storeOf { m with freeblock := m.freeblock + 1 })) :
    Prog.Meets (storeCall firstFit) True alloc (storeOf m) Q := by
  refine meets_alloc (fun _ => trivial) fun n hp => ?_
  rw [pick_used h] at hp
  split_ifs at hp with hlt
  obtain rfl := some.inj hp
  rw [take_storeOf h]
  exact hq hlt

theorem toNat_freeblock (h : Fresh m) : (UInt32.ofNat m.freeblock).toNat = m.freeblock :=
  toNat_ofNat (lt_of_le_of_lt h.le (by decide))

theorem entryFor_of_map {j : ℕ} {b : Bool} (h : Fresh m) (hused : e.indirect.toNat ∈ (storeOf m).used) :
    Prog.Meets (storeCall firstFit) True (do
      let d ← acquire e.indirect.toNat
      release e.indirect.toNat
      if getAddr d j = 0 ∧ (true : Bool) then do
        let n ← alloc
        modify e.indirect.toNat fun d => setAddr d j (UInt32.ofNat n)
        pure (n, e, true)
      else pure ((getAddr d j).toNat, e, b)) (storeOf m) fun r s' =>
      ∃ m', entryFor m e j = some (r.1, r.2.1, m') ∧ s' = storeOf m' ∧ Fresh m' ∧
        m'.freeinode = m.freeinode := by
  have hlt := (mem_used.mp hused).2
  have hread : rsect m e.indirect.toNat = some (m.disk e.indirect.toNat) := if_pos (h.lt_fssize hused)
  unfold entryFor
  rw [hread]
  refine Prog.meets_bind (Prog.meets_of_run (run_acquire _) ?_)
  refine Prog.meets_bind (Prog.meets_of_run (run_release _) ?_)
  show Prog.Meets _ _ _ _ fun r s' => ∃ m', (if getAddr (m.disk e.indirect.toNat) j = 0 then _ else _) = _ ∧ _
  by_cases hz : getAddr (m.disk e.indirect.toNat) j = 0
  · rw [if_pos ⟨hz, rfl⟩, if_pos hz]
    refine Prog.meets_bind (meets_alloc_fresh h fun hfree => ?_)
    refine Prog.meets_bind (Prog.meets_of_run (run_modify ..) (Prog.meets_pure ?_))
    exact ⟨_, rfl, rfl, (h.next hfree).wsect (lt_trans hlt (Nat.lt_succ_self _)) _, rfl⟩
  · rw [if_neg fun hc => hz hc.1, if_neg hz]
    exact Prog.meets_pure ⟨m, rfl, rfl, h, rfl⟩

/-- **The block for an index**: the builder and the kernel find or allocate the same one. -/
theorem blockFor_of_map {i : ℕ} (h : Fresh m) (ho : Owned (storeOf m).used (refs m.disk e)) :
    Prog.Meets (storeCall firstFit) True (inodeMap true e i) (storeOf m) fun r s' =>
      ∃ m', blockFor m e i = some (r.1, r.2.1, m') ∧ s' = storeOf m' ∧ Fresh m' ∧
        m'.freeinode = m.freeinode := by
  unfold inodeMap blockFor
  refine Prog.meets_bind (Prog.meets_check (fun _ => ?_) fun _ => trivial)
  by_cases hd : i < numDirect
  · rw [dif_pos hd, dif_pos hd]
    by_cases hz : e.addrs ⟨i, hd⟩ = 0
    · rw [if_pos ⟨hz, rfl⟩, if_pos hz]
      refine Prog.meets_bind (meets_alloc_fresh h fun hlt => Prog.meets_pure ?_)
      exact ⟨_, rfl, rfl, h.next hlt, rfl⟩
    · rw [if_neg (by simp [hz]), if_neg hz]
      exact Prog.meets_pure ⟨m, rfl, rfl, h, rfl⟩
  · rw [dif_neg hd, dif_neg hd, if_neg (by simp)]
    by_cases h0 : e.indirect = 0
    · rw [if_pos h0, if_pos h0]
      refine Prog.meets_bind (Prog.meets_bind (meets_alloc_fresh h fun hlt => Prog.meets_pure ?_))
      refine entryFor_of_map (h.next hlt) (mem_used.mpr ?_)
      rw [toNat_freeblock h]
      exact ⟨h.ge, Nat.lt_succ_self _⟩
    · rw [if_neg h0, if_neg h0]
      exact Prog.meets_bind (Prog.meets_pure (entryFor_of_map h
        (ho.mem (x := .indirect) (toNat_ne_zero.mpr h0))))

/-- **The copy loop**: the builder writes what the kernel writes. -/
theorem iappendLoop_of_write {count : ℕ} : ∀ (fuel i off : ℕ) (src : List UInt8) {m : Image} {e : Dinode},
    count - i ≤ fuel → src.length = count - i → (i = 0 ∨ off % blockSize = 0 ∨ count ≤ i) →
    off + (count - i) ≤ inodeMaxBytes → Fresh m → Owned (storeOf m).used (refs m.disk e) →
    Prog.Meets (storeCall firstFit) True (writeLoop count fuel i off src e) (storeOf m) fun e' s' =>
      ∃ m', iappendLoop fuel m e off src = some (m', e', off + src.length) ∧ s' = storeOf m' ∧ Fresh m' ∧
        m'.freeinode = m.freeinode
  | 0, i, off, src, m, e, hf, hsrc, _, _, h, _ => by
    have h0 : src = [] := length_eq_zero_iff.mp (by omega)
    subst h0
    exact Prog.meets_pure ⟨m, rfl, rfl, h, rfl⟩
  | fuel + 1, i, off, src, m, e, hf, hsrc, hal, hmax, h, ho => by
    unfold writeLoop iappendLoop
    by_cases hi : i < count
    · have hne : src ≠ [] := ne_nil_of_length_pos (by omega)
      have hlt := Nat.mod_lt off (show 0 < blockSize by decide)
      have hdm := Nat.div_add_mod' off blockSize
      have hidx : off / blockSize < inodeMaxBlocks := div_lt_maxBlocks (by omega)
      set cnt := min (blockSize - off % blockSize) (count - i) with hcnt
      have htake : (src.take cnt).length = cnt := by rw [length_take]; omega
      have hn1 : min src.length ((off / blockSize + 1) * blockSize - off) = cnt := by
        rw [Nat.add_mul, Nat.one_mul]
        omega
      have hstart : off - off / blockSize * blockSize = off % blockSize := by omega
      rw [if_pos hi, chunk_eq (by omega), ← hcnt, if_neg hne]
      simp only [if_pos hidx, hn1, hstart]
      refine Prog.meets_bind (((inodeMap_fills hidx ho (room_true _)).and (blockFor_of_map h ho)).mono ?_)
      rintro ⟨n, e₁, b⟩ s₁ ⟨⟨hmap, -⟩, m₁, hblock, rfl, h₁, hino⟩
      have ho₁ := ho.grow hmap.grows
      have hused : n ∈ (storeOf m₁).used := by
        have := ho₁.mem (x := dataSlot (off / blockSize))
        rw [hmap.target] at this
        exact this hmap.ne_zero
      have hread : rsect m₁ n = some (m₁.disk n) := if_pos (h₁.lt_fssize hused)
      have hw : Wrote mkfsLayout (storeOf m) e
          ((storeOf m₁).modify n (Buf.splice (off % blockSize) (src.take cnt))) e₁ off (src.take cnt) :=
        hmap.wrote ho (ne_nil_of_length_pos (by omega)) (by omega) (by omega)
      refine Prog.meets_bind (Prog.meets_of_run (run_acquire _) ?_)
      refine Prog.meets_bind (Prog.meets_of_run (run_modify _ _) ?_)
      refine Prog.meets_bind (Prog.meets_of_run (run_sync _) ?_)
      refine Prog.meets_bind (Prog.meets_of_run (run_release _) ?_)
      have ih := iappendLoop_of_write fuel (i + cnt) (off + cnt) (src.drop cnt)
        (m := wsect m₁ n ((m₁.disk n).splice (off % blockSize) (src.take cnt))) (e := e₁) (by omega)
        (by rw [length_drop]; omega) (Or.inr (chunk_next count i off)) (by omega)
        (h₁.wsect (mem_used.mp hused).2 _) (ho.grow hw.grows)
      refine ih.mono ?_
      rintro e' s' ⟨m', hloop, hs', h', hino'⟩
      refine ⟨m', ?_, hs', h', hino'.trans hino⟩
      simp only [hblock, hread, bind_eq_bind, bind_some, hloop]
      rw [length_drop]
      congr 3
      omega
    · have h0 : src = [] := length_eq_zero_iff.mp (by omega)
      subst h0
      rw [if_neg hi, if_pos rfl]
      exact Prog.meets_pure ⟨m, rfl, rfl, h, rfl⟩

/-! ### The inode table -/

/-- The image with the entry of inode `k` overwritten. -/
def putInode (m : Image) (k : ℕ) (e : Dinode) : Image :=
  wsect m (iblock k) (setEntry (m.disk (iblock k)) (k % inodePerBlock) e)

variable {k : ℕ}

theorem iblock_eq (k : ℕ) : iblock k = toBlockNo mkfsLayout k := Nat.add_comm ..

theorem iblock_lt (hk : k < ninodes) : iblock k < nmeta := by
  have hk' : k < 200 := hk
  show k / 8 + 65 < 92
  omega

theorem rsect_iblock (m : Image) (hk : k < ninodes) : rsect m (iblock k) = some (m.disk (iblock k)) :=
  if_pos (lt_trans (iblock_lt hk) (by decide))

theorem rinode_eq (m : Image) (hk : k < ninodes) :
    rinode m k = some (tableEntry mkfsLayout m.disk k) := by
  unfold rinode tableEntry
  rw [rsect_iblock m hk, ← iblock_eq]
  rfl

theorem winode_eq (m : Image) (hk : k < ninodes) (e : Dinode) : winode m k e = some (putInode m k e) := by
  unfold winode
  rw [rsect_iblock m hk]
  rfl

theorem storeOf_putInode (m : Image) (k : ℕ) (e : Dinode) :
    storeOf (putInode m k e) = putEntry mkfsLayout (storeOf m) k e := by
  unfold putInode putEntry
  rw [iblock_eq]
  rfl

theorem Fresh.putInode (h : Fresh m) (hk : k < ninodes) (e : Dinode) : Fresh (putInode m k e) :=
  h.wsect (lt_of_lt_of_le (iblock_lt hk) h.ge) _

/-! ### `iappend` -/

theorem room_of_le {N : ℕ} (h : N ≤ 908) : Room firstFit False N :=
  fun _ hu hnone => firstFit_ne_none (by omega) hnone

theorem card_used (m : Image) : (storeOf m).used.card = m.freeblock - nmeta := Nat.card_Ico ..

/-- **`iappend`** succeeds when there is room for the new blocks, and does what `inode_write` does at the
end of the file. -/
theorem iappend_of_write {p : List UInt8} (h : Fresh m) (hk : k < ninodes)
    (he : tableEntry mkfsLayout m.disk k = e) (ho : Owned (storeOf m).used (refs m.disk e))
    (hmax : e.numBytes.toNat + p.length ≤ inodeMaxBytes)
    (hroom : m.freeblock + missing (refs m.disk e) (slotsIn e.numBytes.toNat p.length) ≤ fssize) :
    ∃ m' s₁ e₁, iappend m k p = some m' ∧ Fresh m' ∧ m'.freeinode = m.freeinode ∧
      Wrote mkfsLayout (storeOf m) e s₁ e₁ e.numBytes.toNat p ∧
      Fills (refs m.disk e) (refs s₁.blocks e₁) (slotsIn e.numBytes.toNat p.length) ∧
      storeOf m' = putEntry mkfsLayout s₁ k
        { e₁ with numBytes := UInt32.ofNat (e.numBytes.toNat + p.length) } := by
  have hge := h.ge
  have hN : (storeOf m).used.card + missing (refs m.disk e) (slotsIn e.numBytes.toNat p.length) ≤ 908 := by
    have hf : fssize = nmeta + 908 := by decide
    rw [card_used]
    omega
  have hlen : p.length = p.length - 0 := rfl
  obtain ⟨e₁, s₁, hrun, hw, hfill⟩ := (writeLoop_fills p.length 0 e.numBytes.toNat p hlen.ge hlen
    (Or.inl rfl) (by omega) ho (room_of_le hN)).exists_run
  obtain ⟨m₁, hloop, rfl, h₁, hino⟩ := (iappendLoop_of_write p.length 0 e.numBytes.toNat p (by omega)
    (by omega) (Or.inl rfl) (by omega) h ho).of_run hrun
  refine ⟨putInode m₁ k { e₁ with numBytes := UInt32.ofNat (e.numBytes.toNat + p.length) }, storeOf m₁, e₁,
    ?_, h₁.putInode hk _, hino, hw, hfill, storeOf_putInode ..⟩
  simp only [iappend, rinode_eq m hk, he, bind_eq_bind, bind_some, hloop, winode_eq m₁ hk]

end OsHonor.User.Mkfs.Append
