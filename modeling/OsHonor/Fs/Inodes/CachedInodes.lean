import Mathlib.Algebra.Order.BigOperators.Group.List
import OsHonor.Fs.Inodes.Accounting

/-! # The reference counts of the cached inodes

The list of cached inodes can hold several inodes of one number, but at most one of them has a reference
(`Cached`). `refCount` is the number of references to an inode number. `inode_get` and `inode_share` add one,
`inode_put` takes one away, and as long as it is not the last reference to an inode without links nothing else
happens: every inode stays where it is (`Extends`), and the blocks stay as they are. -/

namespace OsHonor.Fs.Inodes.CachedInodes

open List Base.Keyed Base.Programs BlockDevice Prog
open Code BlockStore
open Files Accounting

variable {sb : SuperBlock} {al : Allocator sb} {s : Store} {b : Disk} {l l' l'' p q : List Inode} {i : Inode}
  {a m n : ℕ} {z : ℤ}

/-! ### Counting -/

/-- **The references to inode `n`.** -/
def refCount (l : List Inode) (n : ℕ) : ℤ := ((l.filter fun i => i.inodeNo = n).map Inode.rc).sum

@[simp] theorem refCount_nil : refCount [] n = 0 := rfl

@[simp] theorem refCount_append : refCount (p ++ q) n = refCount p n + refCount q n := by
  simp [refCount]

@[simp] theorem refCount_cons : refCount (i :: q) n = (if n = i.inodeNo then i.rc else 0) + refCount q n := by
  unfold refCount
  by_cases h : i.inodeNo = n
  · rw [filter_cons_of_pos (by simpa using h), map_cons, sum_cons, if_pos h.symm]
  · rw [filter_cons_of_neg (by simpa using h), if_neg fun he => h he.symm, zero_add]

theorem refCount_eq_zero (h : ∀ i ∈ l, i.inodeNo = n → i.rc = 0) : refCount l n = 0 := by
  refine sum_eq_zero fun x hx => ?_
  obtain ⟨i, hi, rfl⟩ := mem_map.mp hx
  rw [mem_filter, decide_eq_true_eq] at hi
  exact h i hi.1 hi.2

/-! ### The list -/

variable (sb) in
/-- The cached inodes between two calls: the counts are not negative. -/
structure CacheOk (b : Disk) (l : List Inode) : Prop extends Cached sb b l where
  nonneg : ∀ i ∈ l, 0 ≤ i.rc

def Extends (l l' : List Inode) : Prop := ∀ i ∈ l, ∃ z, { i with rc := z } ∈ l'

theorem Extends.trans (h : Extends l l') (h' : Extends l' l'') : Extends l l'' := fun i hi => by
  obtain ⟨z, hz⟩ := h i hi
  obtain ⟨w, hw⟩ := h' _ hz
  exact ⟨w, hw⟩

def Grows (l l' : List Inode) : Prop := ∀ i ∈ l, ∃ z, i.rc ≤ z ∧ { i with rc := z } ∈ l'

theorem Grows.extends (h : Grows l l') : Extends l l' := fun i hi => by
  obtain ⟨z, -, hz⟩ := h i hi
  exact ⟨z, hz⟩

/-- The count of `i` becomes `z`, and nothing else changes. -/
structure SetsRc (l : List Inode) (i : Inode) (z : ℤ) (l' : List Inode) : Prop where
  there : { i with rc := z } ∈ l'
  others : ∀ j ∈ l, j ≠ i → j ∈ l'
  counts : ∀ m, refCount l' m = refCount l m + if m = i.inodeNo then z - i.rc else 0

theorem SetsRc.extends (h : SetsRc l i z l') : Extends l l' := fun j hj => by
  by_cases he : j = i
  · exact ⟨z, he ▸ h.there⟩
  · exact ⟨j.rc, h.others j hj he⟩

theorem SetsRc.grows (h : SetsRc l i z l') (hz : i.rc ≤ z) : Grows l l' := fun j hj => by
  by_cases he : j = i
  · exact ⟨z, he ▸ hz, he ▸ h.there⟩
  · exact ⟨j.rc, le_rfl, h.others j hj he⟩

namespace CacheOk

theorem find (h : CacheOk sb b l) : findInode a l = some i ↔ i ∈ l ∧ i.addr = a := lookup_eq_some h.addrs

theorem split (h : CacheOk sb b l) (hi : i ∈ l) : ∃ p q, l = p ++ i :: q ∧ (∀ j ∈ p, j.addr ≠ i.addr) ∧
    ∀ j ∈ q, j.addr ≠ i.addr := by
  obtain ⟨p, q, rfl⟩ := append_of_mem hi
  have hnd := h.addrs
  rw [map_append, map_cons, nodup_middle, nodup_cons, mem_append, not_or] at hnd
  exact ⟨p, q, rfl, fun j hj he => hnd.1.1 (he ▸ mem_map_of_mem hj),
    fun j hj he => hnd.1.2 (he ▸ mem_map_of_mem hj)⟩

theorem rc_eq (h : CacheOk sb b l) (hi : i ∈ l) (hpos : 0 < i.rc) : refCount l i.inodeNo = i.rc := by
  obtain ⟨p, q, rfl, hp, hq⟩ := h.split hi
  have hzero : ∀ j ∈ p ++ i :: q, j.addr ≠ i.addr → j.inodeNo = i.inodeNo → j.rc = 0 := by
    intro j hj hne hn
    refine le_antisymm (not_lt.mp fun hlt => hne ?_) (h.nonneg j hj)
    rw [h.unique j hj i hi hlt hpos hn]
  have hp0 : refCount p i.inodeNo = 0 :=
    refCount_eq_zero fun j hj => hzero j (mem_append_left _ hj) (hp j hj)
  have hq0 : refCount q i.inodeNo = 0 :=
    refCount_eq_zero fun j hj => hzero j (mem_append_right _ (mem_cons_of_mem _ hj)) (hq j hj)
  rw [refCount_append, refCount_cons, hp0, hq0, if_pos rfl]
  ring

/-- **The count of an inode changes.** -/
theorem setRc (h : CacheOk sb b l) (hi : i ∈ l) (hpos : 0 < i.rc) (hz : 0 ≤ z) :
    CacheOk sb b (storeInode { i with rc := z } l) ∧ SetsRc l i z (storeInode { i with rc := z } l) := by
  have hcopy := h.copy i hi hpos
  obtain ⟨p, q, rfl, hp, hq⟩ := h.split hi
  have hstore : storeInode { i with rc := z } (p ++ i :: q) = p ++ { i with rc := z } :: q :=
    modifyAt_split hp hq rfl
  refine ⟨⟨h.toCached.store hi hpos rfl rfl (fun _ => ⟨hcopy.valid, hcopy.entry, hcopy.live⟩) fun _ _ _ => rfl,
    ?_⟩, ?_, ?_, fun m => ?_⟩
  · intro j hj
    obtain ⟨k, hk, rfl⟩ := mem_storeInode.mp hj
    split_ifs
    · exact hz
    · exact h.nonneg k hk
  · rw [hstore]
    exact mem_append_right _ mem_cons_self
  · intro j hj hne
    rw [hstore]
    rcases mem_append.mp hj with hj | hj
    · exact mem_append_left _ hj
    · rcases mem_cons.mp hj with rfl | hj
      · exact absurd rfl hne
      · exact mem_append_right _ (mem_cons_of_mem _ hj)
  · rw [hstore]
    simp only [refCount_append, refCount_cons]
    split_ifs <;> ring

end CacheOk

/-! ### The calls -/

/-- **`inode_share`.** -/
theorem CacheOk.share (h : CacheOk sb b l) (hi : i ∈ l) (hpos : 0 < i.rc) :
    CacheOk sb b (inodeShare l i) ∧ SetsRc l i (i.rc + 1) (inodeShare l i) :=
  h.setRc hi hpos (Int.le_of_lt (Int.lt_add_one_of_le hpos.le))

variable (al) in
/-- **`inode_put`** of an inode that has links or another reference. -/
theorem CacheOk.put (h : CacheOk sb s.blocks l) (hi : i ∈ l) (hpos : 0 < i.rc)
    (hmore : (tableEntry sb s.blocks i.inodeNo).numLinks ≠ 0 ∨ 1 < refCount l i.inodeNo) :
    ∃ l', (inodePut sb l i).run (storeCall al) s = some (l', s) ∧ CacheOk sb s.blocks l' ∧
      SetsRc l i (i.rc - 1) l' := by
  have hnot : ¬ (i.rc = 1 ∧ i.entry.numLinks = 0 ∧ i.valid = true) := by
    rintro ⟨hone, hlinks, -⟩
    rcases hmore with hl | hr
    · rw [(h.copy i hi hpos).entry] at hlinks
      exact hl hlinks
    · rw [h.rc_eq hi hpos, hone] at hr
      exact lt_irrefl _ hr
  obtain ⟨h1, h2⟩ := h.setRc hi hpos (z := i.rc - 1) (by omega)
  refine ⟨_, ?_, h1, h2⟩
  unfold inodePut
  rw [if_neg hnot]
  rfl

variable (al) in
/-- **`inode_get`** of an inode in use. -/
theorem CacheOk.get (h : CacheOk sb s.blocks l) (ha : ∀ i ∈ l, i.addr ≠ a) (hn : 0 < n) (hlive : Live sb s.blocks n) :
    ∃ c l' i, (inodeGet sb l a n).run (storeCall al) s = some ((c, l'), s) ∧ CacheOk sb s.blocks l' ∧
      Grows l l' ∧ i ∈ l' ∧ i.addr = c ∧ i.inodeNo = n ∧ 0 < i.rc ∧
      ∀ m, refCount l' m = refCount l m + if m = n then 1 else 0 := by
  unfold inodeGet
  rw [run_bind, run_check, if_pos hn, Option.bind_some, run_bind, run_check, if_pos hlive.1,
    Option.bind_some]
  cases hf : fetchInode n l with
  | some i =>
    have hi : i ∈ l := mem_rotate.mp (mem_of_find?_eq_some hf)
    have hprop := find?_some hf
    simp only [decide_eq_true_eq] at hprop
    obtain ⟨rfl, hpos, -⟩ := hprop
    obtain ⟨h1, h2⟩ := h.share hi hpos
    refine ⟨i.addr, inodeShare l i, _, rfl, h1, h2.grows (by omega), h2.there, rfl, rfl,
      Int.lt_add_one_of_le hpos.le, fun m => ?_⟩
    rw [h2.counts m, add_sub_cancel_left]
  | none =>
    -- no cached inode with a reference has the number
    have hnone : ∀ i ∈ l, 0 < i.rc → i.inodeNo ≠ n := by
      intro i hi hpos he
      have := find?_eq_none.mp hf i (mem_rotate.mpr hi)
      simp [he, hpos, (h.copy i hi hpos).valid] at this
    set j : Inode := ⟨a, 1, n, true, tableEntry sb s.blocks n⟩ with hj
    refine ⟨a, l ++ [j], j, ?_, ⟨⟨?_, ?_, ?_⟩, ?_⟩, fun i hi => ⟨i.rc, le_rfl, mem_append_left _ hi⟩, by simp,
      rfl, rfl, one_pos, fun m => by simp [hj]⟩
    · rw [run_bind, run_inodeSync_load rfl]
      rfl
    · rw [map_append, map_singleton, ← concat_eq_append]
      refine h.addrs.concat fun hm => ?_
      obtain ⟨i, hi, he⟩ := mem_map.mp hm
      exact ha i hi he
    · intro i hi hpos
      rcases mem_append.mp hi with hi | hi
      · exact h.copy i hi hpos
      · obtain rfl := mem_singleton.mp hi
        exact ⟨rfl, rfl, hlive⟩
    · intro i hi k hk hri hrk he
      rcases mem_append.mp hi with hi | hi <;> rcases mem_append.mp hk with hk | hk
      · exact h.unique i hi k hk hri hrk he
      · obtain rfl := mem_singleton.mp hk
        exact absurd he (hnone i hi hri)
      · obtain rfl := mem_singleton.mp hi
        exact absurd he.symm (hnone k hk hrk)
      · rw [mem_singleton.mp hi, mem_singleton.mp hk]
    · intro i hi
      rcases mem_append.mp hi with hi | hi
      · exact h.nonneg i hi
      · rw [mem_singleton.mp hi]
        exact zero_le_one

end OsHonor.Fs.Inodes.CachedInodes
