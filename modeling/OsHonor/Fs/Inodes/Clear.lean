import OsHonor.Fs.Inodes.Contents

/-! # `inode_clear` and `inode_put`

`inode_clear` gives back the blocks of an inode: the direct ones, those in the indirect block, and the
indirect block itself, each of them once (`freed`). If the inode is valid, its emptied entry goes to the
inode table. In `inode_put` it is not: the entry is loaded again from the table, and what the second
`inode_sync` stores is the old entry marked as free. -/

namespace OsHonor.Fs.Inodes.Clear

open Function List Base.Programs Base.Refs BlockDevice Prog
open Format Code BlockStore
open Files

variable {sb : SuperBlock} {al : Allocator sb} {s s' : Store} {e e' : Dinode}

/-! ### Giving blocks back -/

/-- The blocks `ns` are given back, the first one first. -/
def dropAll (s : Store) (ns : List ℕ) : Store := ns.foldl Store.drop s

theorem dropAll_append (s : Store) (ns ms : List ℕ) : dropAll s (ns ++ ms) = dropAll (dropAll s ns) ms :=
  foldl_append

theorem dropAll_eq (s : Store) (ns : List ℕ) :
    dropAll s ns = { s with used := s.used \ ns.toFinset, frees := ns.reverse ++ s.frees } := by
  induction ns generalizing s with
  | nil => simp [dropAll]
  | cons n ns ih =>
    have : dropAll s (n :: ns) = dropAll (s.drop n) ns := rfl
    rw [this, ih]
    simp [Store.drop, Finset.sdiff_insert, Finset.erase_sdiff_comm]

@[simp] theorem dropAll_blocks (s : Store) (ns : List ℕ) : (dropAll s ns).blocks = s.blocks := by
  rw [dropAll_eq]

/-- The numbers other than `0`. -/
def nonzero (ns : List ℕ) : List ℕ := ns.filter (· ≠ 0)

theorem run_clearDirect : ∀ {is : List (Fin numDirect)} {s : Store} {e : Dinode}, is.Nodup →
    (clearDirect is e).run (storeCall al) s =
      some ({ e with addrs := fun i => if i ∈ is then 0 else e.addrs i },
        dropAll s (nonzero (is.map fun i => (e.addrs i).toNat)))
  | [], s, e, _ => by simp [clearDirect, dropAll, nonzero]
  | i :: is, s, e, hn => by
    obtain ⟨hi, hn⟩ := nodup_cons.mp hn
    unfold clearDirect
    by_cases h0 : e.addrs i = 0
    · have haddrs : (fun j => if j ∈ is then 0 else e.addrs j) =
          fun j => if j ∈ i :: is then 0 else e.addrs j := by
        funext j
        by_cases hj : j = i
        · subst hj
          simp [hi, h0]
        · simp [hj]
      rw [if_neg (by simpa using h0), run_clearDirect hn, haddrs]
      simp [nonzero, h0]
    · have haddrs : (fun j => if j ∈ is then 0 else update e.addrs i 0 j) =
          fun j => if j ∈ i :: is then 0 else e.addrs j := by
        funext j
        by_cases hj : j = i
        · subst hj
          simp
        · simp [hj]
      have hmap : is.map (fun j => (update e.addrs i 0 j).toNat) =
          is.map fun j => (e.addrs j).toNat := by
        refine map_congr_left fun j hj => ?_
        rw [update_of_ne]
        rintro rfl
        exact hi hj
      have h0' : (e.addrs i).toNat ≠ 0 := toNat_ne_zero.mpr h0
      rw [if_pos h0]
      simp only [run_bind, run_free, Option.bind_some, run_clearDirect hn, haddrs, hmap]
      simp only [nonzero, map_cons, filter_cons, decide_eq_true h0', if_true, ne_eq]
      rfl

variable {F : Prop} {n : ℕ} {b : Disk} {i : Inode}

theorem clearIndirect_meets {b : BlockData} : ∀ {is : List ℕ} {s : Store},
    Prog.Meets (storeCall al) F (clearIndirect n b is) s fun _ s' =>
      (∀ m ≠ n, s'.blocks m = s.blocks m) ∧
      { s' with blocks := s.blocks } = dropAll s (nonzero (is.map fun i => (getAddr b i).toNat))
  | [], s => meets_pure ⟨fun _ _ => rfl, rfl⟩
  | i :: is, s => by
    unfold clearIndirect
    by_cases h0 : getAddr b i = 0
    · rw [if_neg (by simpa using h0)]
      refine clearIndirect_meets.mono ?_
      rintro _ s' ⟨h1, h2⟩
      refine ⟨h1, ?_⟩
      rw [h2]
      simp [nonzero, h0]
    · have h0' : (getAddr b i).toNat ≠ 0 := toNat_ne_zero.mpr h0
      rw [if_pos h0]
      refine meets_bind (meets_of_run (run_free _) ?_)
      refine meets_bind (meets_of_run (run_modify _ _) ?_)
      refine clearIndirect_meets.mono ?_
      rintro _ s' ⟨h1, h2⟩
      refine ⟨fun m hm => ?_, ?_⟩
      · rw [h1 m hm]
        exact update_of_ne hm ..
      · have hu := congrArg Store.used h2
        have hf := congrArg Store.frees h2
        have hi := congrArg Store.input h2
        simp only [dropAll_eq, Store.modify, Store.drop] at hu hf hi
        simp only [nonzero, map_cons, filter_cons, decide_eq_true h0', if_true, ne_eq] at hu hf ⊢
        rw [dropAll_eq, hu, hf, hi]
        simp [Finset.sdiff_insert, Finset.erase_sdiff_comm]

/-! ### `inode_clear` -/

/-- The slots in the order in which `inode_clear` goes through them. -/
def slots : List Slot :=
  (List.finRange numDirect).map .direct ++ (List.finRange numIndirect).map .entry ++ [.indirect]

/-- **The blocks that `inode_clear` gives back.** -/
def freed (b : Disk) (e : Dinode) : List ℕ := nonzero (slots.map (refs b e))

theorem mem_slots (x : Slot) : x ∈ slots := by
  cases x <;> simp [slots]

theorem nodup_slots : slots.Nodup := by decide +kernel

theorem mem_freed : n ∈ freed b e ↔ n ≠ 0 ∧ ∃ x, refs b e x = n := by
  simp only [freed, nonzero, mem_filter, mem_map, decide_eq_true_eq]
  constructor
  · rintro ⟨⟨x, -, hx⟩, hn⟩
    exact ⟨hn, x, hx⟩
  · rintro ⟨hn, x, hx⟩
    exact ⟨⟨x, mem_slots x, hx⟩, hn⟩

/-- **Each block is given back once.** -/
theorem nodup_freed (ho : Owned s.used (refs s.blocks e)) : (freed s.blocks e).Nodup := by
  have hfilter : freed s.blocks e = (slots.filter fun x => refs s.blocks e x ≠ 0).map (refs s.blocks e) := by
    unfold freed nonzero
    rw [filter_map]
    rfl
  rw [hfilter]
  refine List.Nodup.map_on (fun x hx y _ he => ?_) (nodup_slots.filter _)
  have hx' : refs s.blocks e x ≠ 0 := by simpa using (mem_filter.mp hx).2
  exact ho.inj hx' he

/-- The entry that `inode_clear` leaves. -/
def cleared (e : Dinode) : Dinode := { e with addrs := fun _ => 0, indirect := 0, numBytes := 0 }

theorem refs_cleared (b : Disk) (e : Dinode) (x : Slot) : refs b (cleared e) x = 0 := by
  cases x <;> rfl

theorem nonzero_append (ns ms : List ℕ) : nonzero (ns ++ ms) = nonzero ns ++ nonzero ms :=
  filter_append ..

theorem freed_of_direct (h0 : e.indirect = 0) :
    freed b e = nonzero ((List.finRange numDirect).map fun i => (e.addrs i).toNat) := by
  have hz : nonzero (((List.finRange numIndirect).map Slot.entry).map (refs b e)) = [] := by
    simp [nonzero, refs, h0]
  have hi : nonzero ([Slot.indirect].map (refs b e)) = [] := by
    simp [nonzero, refs, h0]
  unfold freed slots
  rw [map_append, map_append, nonzero_append, nonzero_append, hz, hi, append_nil,
    append_nil, map_map]
  rfl

theorem freed_of_indirect (h0 : e.indirect ≠ 0) :
    freed b e = nonzero ((List.finRange numDirect).map fun i => (e.addrs i).toNat) ++
      nonzero ((List.range numIndirect).map fun j => (getAddr (b e.indirect.toNat) j).toNat) ++
      [e.indirect.toNat] := by
  have he : ((List.finRange numIndirect).map Slot.entry).map (refs b e) =
      (List.range numIndirect).map fun j => (getAddr (b e.indirect.toNat) j).toNat := by
    rw [← map_coe_finRange_eq_range, map_map, map_map]
    refine map_congr_left fun j _ => ?_
    simp [refs, h0]
  have hi : nonzero ([Slot.indirect].map (refs b e)) = [e.indirect.toNat] := by
    have := toNat_ne_zero.mpr h0
    simp [nonzero, refs, this]
  unfold freed slots
  rw [map_append, map_append, nonzero_append, nonzero_append, he, hi, map_map]
  rfl

variable (sb) in
/-- What `inode_clear` does to the array `s` and the inode `i`. The array `s₁` is the one before the
call of `inode_sync`. -/
structure Cleared (s : Store) (i : Inode) (s₁ s' : Store) (i' : Inode) : Prop where
  frame : ∀ m, (i.entry.indirect ≠ 0 → m ≠ i.entry.indirect.toNat) → s₁.blocks m = s.blocks m
  books : { s₁ with blocks := s.blocks } = dropAll s (freed s.blocks i.entry)
  stored : i.valid = true →
    i' = { i with entry := cleared i.entry } ∧ s' = putEntry sb s₁ i.inodeNo (cleared i.entry)
  loaded : i.valid = false →
    i' = { i with entry := tableEntry sb s₁.blocks i.inodeNo, valid := true } ∧ s' = s₁

theorem sync_cleared {s₁ : Store}
    (hframe : ∀ m, (i.entry.indirect ≠ 0 → m ≠ i.entry.indirect.toNat) → s₁.blocks m = s.blocks m)
    (hbooks : { s₁ with blocks := s.blocks } = dropAll s (freed s.blocks i.entry)) :
    Prog.Meets (storeCall al) F (inodeSync sb { i with entry := cleared i.entry } true) s₁ fun i' s' =>
      Cleared sb s i s₁ s' i' := by
  by_cases hv : i.valid = true
  · refine meets_of_run (run_inodeSync_store (by exact hv)) ⟨hframe, hbooks, fun _ => ⟨rfl, rfl⟩, ?_⟩
    intro h
    rw [h] at hv
    exact absurd hv (by decide)
  · have hv' : i.valid = false := by simpa using hv
    exact meets_of_run (run_inodeSync_load (by exact hv'))
      ⟨hframe, hbooks, fun h => absurd h hv, fun _ => ⟨rfl, rfl⟩⟩

/-- **`inode_clear`.** -/
theorem inodeClear_meets :
    Prog.Meets (storeCall al) F (inodeClear sb i) s fun i' s' => ∃ s₁, Cleared sb s i s₁ s' i' := by
  have haddrs : (fun j => if j ∈ List.finRange numDirect then 0 else i.entry.addrs j) = fun _ => 0 := by
    funext j
    simp
  set s₁ := dropAll s (nonzero ((List.finRange numDirect).map fun j => (i.entry.addrs j).toNat)) with hs₁
  have hb₁ : s₁.blocks = s.blocks := dropAll_blocks ..
  have hdirect : (clearDirect (List.finRange numDirect) i.entry).run (storeCall al) s =
      some ({ i.entry with addrs := fun _ => 0 }, s₁) := by
    rw [run_clearDirect (nodup_finRange numDirect), haddrs]
  unfold inodeClear
  refine meets_bind (meets_of_run hdirect ?_)
  by_cases h0 : i.entry.indirect = 0
  · rw [if_neg (by simpa using h0)]
    have hcl : ({ i.entry with addrs := fun _ => 0, numBytes := 0 } : Dinode) = cleared i.entry := by
      simp [cleared, h0]
    refine Prog.Meets.mono (Q := fun i' s' => Cleared sb s i s₁ s' i') ?_ fun _ _ h => ⟨_, h⟩
    simp only [hcl]
    refine sync_cleared (fun m _ => by rw [hb₁]) ?_
    rw [freed_of_direct h0, ← hs₁, ← hb₁]
  · rw [if_pos h0]
    refine meets_bind (meets_of_run (run_acquire _) ?_)
    refine meets_bind (clearIndirect_meets.mono ?_)
    rintro _ s₂ ⟨hframe, hbooks⟩
    refine meets_bind (meets_of_run (run_release _) ?_)
    refine meets_bind (meets_of_run (run_free _) ?_)
    have hcl : ({ i.entry with addrs := fun _ => 0, indirect := 0, numBytes := 0 } : Dinode) =
        cleared i.entry := rfl
    refine Prog.Meets.mono (Q := fun i' s' => Cleared sb s i (s₂.drop i.entry.indirect.toNat) s' i') ?_
      fun _ _ h => ⟨_, h⟩
    simp only [hcl]
    refine sync_cleared (fun m hm => ?_) ?_
    · show s₂.blocks m = _
      rw [hframe m (hm h0), hb₁]
    · rw [freed_of_indirect h0, dropAll_append, dropAll_append, ← hs₁]
      rw [hb₁] at hbooks
      have hstep : ({ s₂ with blocks := s.blocks } : Store).drop i.entry.indirect.toNat =
          dropAll (dropAll s₁ (nonzero ((List.range numIndirect).map fun j =>
            (getAddr (s.blocks i.entry.indirect.toNat) j).toNat))) [i.entry.indirect.toNat] := by
        rw [hbooks]
        rfl
      exact hstep

end OsHonor.Fs.Inodes.Clear
