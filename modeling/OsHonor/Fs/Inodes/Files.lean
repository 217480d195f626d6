import Mathlib.Data.List.GetD
import Mathlib.Order.Interval.Finset.Nat
import OsHonor.Fs.Inodes.Reading

/-! # `inode_map`, `inode_read` and `inode_write` on a file

What the functions do to the file they are called for, over the array of blocks. A write only gives
fresh blocks to empty slots and only stores into blocks of its own file (`Grown`), and it stores its
bytes where it should (`Wrote`); both relations compose, which is how the loop of `inode_write` is dealt
with. A run can fail by an allocation only: `Room` says when. -/

namespace OsHonor.Fs.Inodes.Files

open List Function Base.Bytes Base.Programs Base.Refs BlockDevice
open Format Code BlockStore
open Reading

variable {sb : SuperBlock} {al : Allocator sb} {s s' s'' : Store} {e e' e'' : Dinode} {F : Prop}

/-- While fewer than `N` blocks are in use, allocations fail only if `F`. -/
def Room (al : Allocator sb) (F : Prop) (N : ℕ) : Prop :=
  ∀ u : Finset ℕ, u.card < N → al.pick u = none → F

theorem Room.mono {M N : ℕ} (h : Room al F N) (hle : M ≤ N) : Room al F M :=
  fun u hu => h u (lt_of_lt_of_le hu hle)

def bound (s : Store) (e : Dinode) : ℕ := s.used.card + spare (refs s.blocks e)

/-! ### What happens to a file -/

variable (sb) in
/-- The file at `e` gets blocks, and nothing else happens to what is not referenced by it. -/
structure Grown (s : Store) (e : Dinode) (s' : Store) (e' : Dinode) : Prop where
  grows : Grows s.used s'.used (refs s.blocks e) (refs s'.blocks e')
  isData : ∀ n ∈ s'.used, n ∈ s.used ∨ IsData sb n
  fields : e' = { e with addrs := e'.addrs, indirect := e'.indirect }
  frame : ∀ n, (∀ x, refs s'.blocks e' x ≠ 0 → refs s'.blocks e' x ≠ n) → s'.blocks n = s.blocks n
  frees : s'.frees = s.frees

variable (sb) in
/-- **The bytes `l` are written at `off`.** A file that had all the blocks it needs keeps its entry. -/
structure Wrote (s : Store) (e : Dinode) (s' : Store) (e' : Dinode) (off : ℕ) (l : List UInt8) : Prop
    extends Grown sb s e s' e' where
  bytes : ∀ p < inodeMaxBytes, (blockOf s.blocks e p ≠ 0 ∨ off ≤ p ∧ p < off + l.length) →
    byteAt s'.blocks e' p =
      if off ≤ p ∧ p < off + l.length then l.getD (p - off) 0 else byteAt s.blocks e p
  mapped : ∀ p, off ≤ p → p < off + l.length → blockOf s'.blocks e' p ≠ 0
  still : (∀ p, off ≤ p → p < off + l.length → blockOf s.blocks e p ≠ 0) → e' = e

theorem Grown.refl (s : Store) (e : Dinode) : Grown sb s e s e :=
  ⟨.refl _ _, fun _ h => Or.inl h, rfl, fun _ _ => rfl, rfl⟩

theorem Grown.trans (h : Grown sb s e s' e') (h' : Grown sb s' e' s'' e'') : Grown sb s e s'' e'' where
  grows := h.grows.trans h'.grows
  isData n hn := by
    rcases h'.isData n hn with hn | hn
    · exact h.isData n hn
    · exact Or.inr hn
  fields := by
    rw [h'.fields, h.fields]
  frame n hn := by
    rw [h'.frame n hn]
    refine h.frame n fun x hx => ?_
    rw [← h'.grows.keep hx]
    exact hn x (by rw [h'.grows.keep hx]; exact hx)
  frees := h'.frees.trans h.frees

variable {p off n i count : ℕ} {l l' : List UInt8} {S : Set ℕ} {b : Disk} {inode : Inode}

theorem Grown.blockOf_eq (h : Grown sb s e s' e') (hp : blockOf s.blocks e p ≠ 0) :
    blockOf s'.blocks e' p = blockOf s.blocks e p := h.grows.keep hp

theorem Wrote.refl (s : Store) (e : Dinode) (off : ℕ) : Wrote sb s e s e off [] where
  toGrown := .refl s e
  bytes p _ _ := by simp
  mapped p h h' := absurd h' (by simpa using h)
  still _ := rfl

/-- **One write after the other.** -/
theorem Wrote.trans (h : Wrote sb s e s' e' off l)
    (h' : Wrote sb s' e' s'' e'' (off + l.length) l') : Wrote sb s e s'' e'' off (l ++ l') where
  toGrown := h.toGrown.trans h'.toGrown
  bytes p hp hm := by
    have hlen : (l ++ l').length = l.length + l'.length := length_append
    by_cases h2 : off + l.length ≤ p ∧ p < off + l.length + l'.length
    · rw [h'.bytes p hp (Or.inr h2), if_pos h2, if_pos (by omega),
        getD_append_right _ _ _ _ (by omega)]
      congr 1
      omega
    · have hm1 : blockOf s.blocks e p ≠ 0 ∨ off ≤ p ∧ p < off + l.length := by
        rcases hm with hm | hm
        · exact Or.inl hm
        · exact Or.inr (by omega)
      have hm2 : blockOf s'.blocks e' p ≠ 0 := by
        rcases hm1 with hm1 | hm1
        · rw [h.blockOf_eq hm1]
          exact hm1
        · exact h.mapped p hm1.1 hm1.2
      rw [h'.bytes p hp (Or.inl hm2), if_neg h2, h.bytes p hp hm1]
      by_cases h1 : off ≤ p ∧ p < off + l.length
      · rw [if_pos h1, if_pos (by omega), getD_append _ _ _ _ (by omega)]
      · rw [if_neg h1, if_neg (by omega)]
  mapped p h1 h2 := by
    rw [length_append] at h2
    by_cases hp : p < off + l.length
    · have := h.mapped p h1 hp
      rw [h'.blockOf_eq this]
      exact this
    · exact h'.mapped p (by omega) (by omega)
  still hm := by
    have he : e' = e := h.still fun p h1 h2 => hm p h1 (by rw [length_append]; omega)
    rw [← he]
    refine h'.still fun p h1 h2 => ?_
    have := hm p (by omega) (by rw [length_append]; omega)
    rw [h.blockOf_eq this]
    exact this

/-! ### Filling a slot -/

variable {x : Slot} {j k : ℕ} {src : List UInt8}

theorem grown_of_fill (hx : refs s.blocks e x = 0) (hn : n ∉ s.used)
    (hd : IsData sb n) (hr : refs s'.blocks e' = update (refs s.blocks e) x n)
    (hu : s'.used = insert n s.used) (hfr : s'.frees = s.frees)
    (hf : e' = { e with addrs := e'.addrs, indirect := e'.indirect })
    (hb : ∀ m ≠ n, (e.indirect ≠ 0 → m ≠ e.indirect.toNat) → s'.blocks m = s.blocks m) :
    Grown sb s e s' e' where
  grows := by
    rw [hr, hu]
    exact .assign hx hd.ne_zero hn
  isData m hm := by
    rw [hu, Finset.mem_insert] at hm
    rcases hm with rfl | hm
    · exact Or.inr hd
    · exact Or.inl hm
  fields := hf
  frame m hm := by
    rw [hr] at hm
    refine hb m (fun he => ?_) fun h0 he => ?_
    · have := hm x
      rw [update_self] at this
      exact this hd.ne_zero he.symm
    · have hne : Slot.indirect ≠ x := by
        rintro rfl
        exact toNat_ne_zero.mpr h0 hx
      have := hm .indirect
      rw [update_of_ne hne] at this
      exact this (toNat_ne_zero.mpr h0) he.symm
  frees := hfr

theorem byteAt_of_fill (ho : Owned s.used (refs s.blocks e))
    (hx : refs s.blocks e x = 0) (hn : n ∉ s.used)
    (hr : refs s'.blocks e' = update (refs s.blocks e) x n)
    (hb : ∀ m ≠ n, (e.indirect ≠ 0 → m ≠ e.indirect.toNat) → s'.blocks m = s.blocks m)
    (hp : p < inodeMaxBytes) (hm : blockOf s.blocks e p ≠ 0) :
    byteAt s'.blocks e' p = byteAt s.blocks e p := by
  have hidx : p / blockSize < inodeMaxBlocks := Nat.div_lt_of_lt_mul (by rwa [Nat.mul_comm])
  have hne : dataSlot (p / blockSize) ≠ x := by
    rintro rfl
    exact hm hx
  have hblk : blockOf s'.blocks e' p = blockOf s.blocks e p := by
    unfold blockOf
    rw [hr, update_of_ne hne]
  unfold byteAt
  rw [hblk, hb _ ?_ ?_]
  · rintro rfl
    exact hn (ho.mem hm)
  · intro _ he
    exact dataSlot_ne_indirect hidx (ho.inj hm he)

/-! ### `inode_map` -/

theorem inodeMap_peeks (hi : i < inodeMaxBlocks) (hS : e.indirect ≠ 0 → e.indirect.toNat ∈ S) :
    Peeks S b (inodeMap false e i) (refs b e (dataSlot i), e, false) := by
  unfold inodeMap
  refine peeks_bind (peeks_check hi) ?_
  by_cases hd : i < numDirect
  · simp only [hd, dataSlot_of_lt hd, refs, Bool.false_eq_true, and_false, if_false, dif_pos]
    exact peeks_pure _
  · have hj : i - numDirect < numIndirect := by unfold inodeMaxBlocks at hi; omega
    rw [dataSlot_of_ge hd hj]
    by_cases h0 : e.indirect = 0
    · simp only [hd, refs, h0, dif_neg, not_false_eq_true, Bool.not_false, and_self, if_true]
      exact peeks_pure _
    · simp only [hd, refs, h0, dif_neg, not_false_eq_true, false_and, if_false, Bool.false_eq_true, and_false]
      exact peeks_bind (peeks_pure (e, false)) (peeks_block (hS h0) (peeks_pure _))

theorem run_inodeMap_false (hi : i < inodeMaxBlocks) :
    (inodeMap false e i).run (storeCall al) s = some ((refs s.blocks e (dataSlot i), e, false), s) :=
  (inodeMap_peeks (S := Set.univ) hi fun _ => trivial).run_store

variable (sb) in
/-- What `inode_map` with a context does for the index `i`, and the block number it returns. -/
structure MapsTo (s : Store) (e : Dinode) (i n : ℕ) (s' : Store) (e' : Dinode) : Prop
    extends Grown sb s e s' e' where
  target : refs s'.blocks e' (dataSlot i) = n
  ne_zero : n ≠ 0
  bytes : ∀ p < inodeMaxBytes, blockOf s.blocks e p ≠ 0 → byteAt s'.blocks e' p = byteAt s.blocks e p
  still : refs s.blocks e (dataSlot i) ≠ 0 → e' = e

theorem toNat_ofNat (h : n < 2 ^ 32) : (UInt32.ofNat n).toNat = n :=
  UInt32.toNat_ofNat_of_lt' h

theorem refs_direct {i : Fin numDirect} (ho : Owned s.used (refs s.blocks e)) (hn : n ∉ s.used)
    (hd : IsData sb n) :
    refs (s.take n).blocks { e with addrs := update e.addrs i (UInt32.ofNat n) } =
      update (refs s.blocks e) (.direct i) n := by
  funext x
  cases x with
  | direct j =>
    by_cases hj : j = i
    · subst hj
      simp [refs, toNat_ofNat hd.lt]
    · simp [refs, update_of_ne hj, update_of_ne (show Slot.direct j ≠ .direct i by simpa)]
  | indirect => rfl
  | entry j =>
    rw [update_of_ne (by simp)]
    simp only [refs]
    split_ifs with h0
    · rfl
    · have hne : e.indirect.toNat ≠ n := by
        rintro rfl
        exact hn (ho.mem (x := .indirect) (toNat_ne_zero.mpr h0))
      simp [Store.take, update_of_ne hne]

theorem refs_indirect (h0 : e.indirect = 0) (hd : IsData sb n) :
    refs (s.take n).blocks { e with indirect := UInt32.ofNat n } =
      update (refs s.blocks e) .indirect n := by
  funext x
  cases x with
  | direct j => rfl
  | indirect => simp [refs, toNat_ofNat hd.lt]
  | entry j =>
    have hz : getAddr (fun _ => 0 : BlockData) j = 0 := by
      unfold getAddr
      rw [Buf.getLe_of_bytes (v := 0) (fun k hk => ?_) (by decide)]
      · rfl
      · simp [Buf.byte, leByte]
    rw [update_of_ne (by simp)]
    simp [refs, h0, toNat_ofNat hd.lt, Store.take, hz]

theorem refs_entry (hj : j < numIndirect) (h0 : e.indirect ≠ 0)
    (ho : Owned s.used (refs s.blocks e)) (hn : n ∉ s.used) (hd : IsData sb n) :
    refs ((s.take n).modify e.indirect.toNat fun b => setAddr b j (UInt32.ofNat n)).blocks e =
      update (refs s.blocks e) (.entry ⟨j, hj⟩) n := by
  have hne : e.indirect.toNat ≠ n := by
    rintro rfl
    exact hn (ho.mem (x := .indirect) (toNat_ne_zero.mpr h0))
  funext x
  cases x with
  | direct i => rfl
  | indirect => rfl
  | entry k =>
    by_cases hk : k = ⟨j, hj⟩
    · subst hk
      simp [refs, h0, Store.take, Store.modify, getAddr_setAddr hj, toNat_ofNat hd.lt]
    · rw [update_of_ne (by simpa using hk)]
      have hk' : k.val ≠ j := fun h => hk (Fin.ext h)
      simp [refs, h0, Store.take, Store.modify, getAddr_setAddr_of_ne hj hk', update_of_ne hne]

theorem MapsTo.refl (h : refs s.blocks e (dataSlot i) ≠ 0) :
    MapsTo sb s e i (refs s.blocks e (dataSlot i)) s e :=
  ⟨.refl s e, rfl, h, fun _ _ _ => rfl, fun _ => rfl⟩

theorem mapsTo_of_fill (ho : Owned s.used (refs s.blocks e))
    (hx : refs s.blocks e (dataSlot i) = 0) (hp : al.pick s.used = some n)
    (hr : refs s'.blocks e' = update (refs s.blocks e) (dataSlot i) n)
    (hu : s'.used = insert n s.used) (hfr : s'.frees = s.frees)
    (hf : e' = { e with addrs := e'.addrs, indirect := e'.indirect })
    (hb : ∀ m ≠ n, (e.indirect ≠ 0 → m ≠ e.indirect.toNat) → s'.blocks m = s.blocks m) :
    MapsTo sb s e i n s' e' where
  toGrown := grown_of_fill hx (al.fresh hp) (al.data hp) hr hu hfr hf hb
  target := by rw [hr, update_self]
  ne_zero := (al.data hp).ne_zero
  bytes _ hlt hm := byteAt_of_fill ho hx (al.fresh hp) hr hb hlt hm
  still h := absurd hx h

/-- The slots that `inode_map` fills for the index `i`. -/
def slotsFor (i : ℕ) : Finset Slot := if i < numDirect then {dataSlot i} else {.indirect, dataSlot i}

theorem mem_slotsFor (i : ℕ) : dataSlot i ∈ slotsFor i := by
  unfold slotsFor
  split_ifs <;> simp

theorem mapEntry_fills {m : Bool} (hj : j < numIndirect) (h0 : e.indirect ≠ 0)
    (ho : Owned s.used (refs s.blocks e))
    (hroom : Room al F (s.used.card + missing (refs s.blocks e) {dataSlot (numDirect + j)})) :
    Prog.Meets (storeCall al) F (do
      let b ← acquire e.indirect.toNat
      release e.indirect.toNat
      if getAddr b j = 0 ∧ (true : Bool) then do
        let n ← alloc
        modify e.indirect.toNat fun b => setAddr b j (UInt32.ofNat n)
        pure (n, e, true)
      else pure ((getAddr b j).toNat, e, m)) s
      fun r s' => MapsTo sb s e (numDirect + j) r.1 s' r.2.1 ∧
        Fills (refs s.blocks e) (refs s'.blocks r.2.1) {dataSlot (numDirect + j)} := by
  have hslot : dataSlot (numDirect + j) = .entry ⟨j, hj⟩ := by
    rw [dataSlot_of_ge (by omega) (by omega)]
    congr 2
    omega
  have href : refs s.blocks e (dataSlot (numDirect + j)) = (getAddr (s.blocks e.indirect.toNat) j).toNat := by
    rw [hslot]
    simp [refs, h0]
  refine Prog.meets_bind (Prog.meets_of_run (run_acquire _) ?_)
  refine Prog.meets_bind (Prog.meets_of_run (run_release _) ?_)
  by_cases hz : getAddr (s.blocks e.indirect.toNat) j = 0
  · rw [if_pos ⟨hz, rfl⟩]
    have hx : refs s.blocks e (dataSlot (numDirect + j)) = 0 := by rw [href, hz]; rfl
    have hlt := missing_pos hx (Finset.mem_singleton_self _)
    refine Prog.meets_bind (meets_alloc (hroom _ (by omega)) fun n hp => ?_)
    refine Prog.meets_bind (Prog.meets_of_run (run_modify ..) (Prog.meets_pure ?_))
    have hr := refs_entry hj h0 ho (al.fresh hp) (al.data hp)
    rw [← hslot] at hr
    refine ⟨mapsTo_of_fill ho hx hp hr rfl rfl rfl fun k hk hk' => ?_, ?_⟩
    · simp [Store.take, Store.modify, update_of_ne hk, update_of_ne (hk' h0)]
    · rw [hr]
      exact fills_update (al.data hp).ne_zero
  · rw [if_neg (by simp [hz])]
    have hx : refs s.blocks e (dataSlot (numDirect + j)) ≠ 0 := by rw [href]; exact toNat_ne_zero.mpr hz
    refine Prog.meets_pure ⟨?_, .refl fun x hxe => ?_⟩
    · rw [← href]
      exact MapsTo.refl hx
    · rw [Finset.mem_singleton.mp hxe]
      exact hx

/-- **`inode_map` with a context.** -/
theorem inodeMap_fills (hi : i < inodeMaxBlocks) (ho : Owned s.used (refs s.blocks e))
    (hroom : Room al F (s.used.card + missing (refs s.blocks e) (slotsFor i))) :
    Prog.Meets (storeCall al) F (inodeMap true e i) s fun r s' => MapsTo sb s e i r.1 s' r.2.1 ∧
      Fills (refs s.blocks e) (refs s'.blocks r.2.1) (slotsFor i) := by
  unfold inodeMap
  refine Prog.meets_bind (Prog.meets_check (fun _ => ?_) fun h => absurd hi h)
  by_cases hd : i < numDirect
  · have hslots : slotsFor i = {dataSlot i} := if_pos hd
    rw [hslots] at hroom ⊢
    rw [dif_pos hd]
    by_cases hz : e.addrs ⟨i, hd⟩ = 0
    · rw [if_pos ⟨hz, rfl⟩]
      have hx : refs s.blocks e (dataSlot i) = 0 := by
        rw [dataSlot_of_lt hd]
        simp [refs, hz]
      have hlt := missing_pos hx (Finset.mem_singleton_self _)
      refine Prog.meets_bind (meets_alloc (hroom _ (by omega)) fun n hp => Prog.meets_pure ?_)
      have hr := refs_direct (i := ⟨i, hd⟩) ho (al.fresh hp) (al.data hp)
      rw [← dataSlot_of_lt hd] at hr
      refine ⟨mapsTo_of_fill ho hx hp hr rfl rfl rfl fun k hk _ => ?_, ?_⟩
      · simp [Store.take, update_of_ne hk]
      · rw [hr]
        exact fills_update (al.data hp).ne_zero
    · rw [if_neg (by simp [hz])]
      have href : refs s.blocks e (dataSlot i) = (e.addrs ⟨i, hd⟩).toNat := by
        rw [dataSlot_of_lt hd]
        rfl
      have hx : refs s.blocks e (dataSlot i) ≠ 0 := by rw [href]; exact toNat_ne_zero.mpr hz
      refine Prog.meets_pure ⟨?_, .refl fun x hxe => ?_⟩
      · rw [← href]
        exact MapsTo.refl hx
      · rw [Finset.mem_singleton.mp hxe]
        exact hx
  · have hj : i - numDirect < numIndirect := by unfold inodeMaxBlocks at hi; omega
    have hij : numDirect + (i - numDirect) = i := by omega
    have hslots : slotsFor i = {.indirect} ∪ {dataSlot i} := if_neg hd
    rw [hslots] at hroom ⊢
    rw [dif_neg hd, if_neg (by simp)]
    by_cases h0 : e.indirect = 0
    · -- the indirect block comes first; it fills a slot of its own
      rw [if_pos h0]
      have hx : refs s.blocks e .indirect = 0 := by simp [refs, h0]
      have hx' : refs s.blocks e (dataSlot i) = 0 := by
        rw [dataSlot_of_ge hd hj]
        simp [refs, h0]
      have hlt := missing_pos hx (Finset.mem_union_left {dataSlot i} (Finset.mem_singleton_self Slot.indirect))
      refine Prog.meets_bind (Prog.meets_bind (meets_alloc (hroom _ (by omega)) fun n hp => Prog.meets_pure ?_))
      have hn := al.fresh hp
      have hdat := al.data hp
      have hr := refs_indirect (s := s) h0 hdat
      have hb : ∀ m ≠ n, (e.indirect ≠ 0 → m ≠ e.indirect.toNat) →
          (s.take n).blocks m = s.blocks m := fun m hm _ => by
        simp [Store.take, update_of_ne hm]
      have hg : Grown sb s e (s.take n) { e with indirect := UInt32.ofNat n } :=
        grown_of_fill hx hn hdat hr rfl rfl rfl hb
      have hf : Fills (refs s.blocks e) (refs (s.take n).blocks { e with indirect := UInt32.ofNat n })
          {.indirect} := by
        rw [hr]
        exact fills_update hdat.ne_zero
      have hne : ({ e with indirect := UInt32.ofNat n } : Dinode).indirect ≠ 0 := by
        rw [← toNat_ne_zero]
        simpa [toNat_ofNat hdat.lt] using hdat.ne_zero
      have hm := mapEntry_fills (m := true) hj hne (ho.grow hg.grows) (by
        rwa [hg.grows.card_of_fills hf, Nat.add_assoc, ← hf.missing_union, hij])
      refine hm.mono fun r s' h => ?_
      rw [hij] at h
      refine ⟨⟨hg.trans h.1.toGrown, h.1.target, h.1.ne_zero, fun p hp hm => ?_, fun h => absurd hx' h⟩,
        hf.trans h.2⟩
      have := hg.blockOf_eq hm
      rw [h.1.bytes p hp (by rw [this]; exact hm), byteAt_of_fill ho hx hn hr hb hp hm]
    · have hx : refs s.blocks e .indirect ≠ 0 := toNat_ne_zero.mpr h0
      have hf : Fills (refs s.blocks e) (refs s.blocks e) {.indirect} :=
        .refl fun x hxe => by rw [Finset.mem_singleton.mp hxe]; exact hx
      rw [if_neg h0]
      refine Prog.meets_bind (Prog.meets_pure ?_)
      have hm := mapEntry_fills (m := false) hj h0 ho (hroom.mono (by rw [hf.missing_union, hij]; omega))
      refine hm.mono fun r s' h => ?_
      rw [hij] at h
      exact ⟨h.1, hf.trans h.2⟩

/-! ### The copy loops -/

theorem chunk_eq (h : i = 0 ∨ off % blockSize = 0) :
    chunk count i off = (off % blockSize, min (blockSize - off % blockSize) (count - i)) := by
  unfold chunk
  rcases h with rfl | h
  · rw [if_pos rfl, Nat.sub_zero]
  · split_ifs with hi
    · rw [hi, Nat.sub_zero]
    · rw [h, Nat.sub_zero]

theorem chunk_next (count i off : ℕ) :
    (off + min (blockSize - off % blockSize) (count - i)) % blockSize = 0 ∨
      count ≤ i + min (blockSize - off % blockSize) (count - i) := by
  by_cases hend : count - i ≤ blockSize - off % blockSize
  · exact Or.inr (by omega)
  · have hdm := Nat.div_add_mod off blockSize
    have hlt := Nat.mod_lt off (show 0 < blockSize by decide)
    have hnext : off + min (blockSize - off % blockSize) (count - i) = blockSize * (off / blockSize + 1) := by
      rw [Nat.mul_add]
      omega
    rw [hnext, Nat.mul_mod_right]
    exact Or.inl rfl

/-- The bytes of a file from `off` on. -/
def bytesFrom (b : Disk) (e : Dinode) (off count : ℕ) : List UInt8 :=
  (List.range count).map fun k => byteAt b e (off + k)

theorem bytesFrom_append (b : Disk) (e : Dinode) (off m n : ℕ) :
    bytesFrom b e off m ++ bytesFrom b e (off + m) n = bytesFrom b e off (m + n) := by
  unfold bytesFrom
  rw [range_add, map_append, map_map]
  congr 1
  refine map_congr_left fun k _ => ?_
  simp [Nat.add_assoc]

theorem slice_eq_bytesFrom {cnt : ℕ} (h : cnt ≤ blockSize - off % blockSize) :
    (b (blockOf b e off)).slice (off % blockSize) cnt = bytesFrom b e off cnt := by
  unfold Buf.slice bytesFrom
  refine map_congr_left fun k hk => ?_
  have hk' := mem_range.mp hk
  have hlt := Nat.mod_lt off (show 0 < blockSize by decide)
  have hdm := Nat.div_add_mod off blockSize
  have hdiv : (off + k) / blockSize = off / blockSize :=
    Nat.div_eq_of_lt_le (by rw [Nat.mul_comm]; omega) (by rw [Nat.add_mul, Nat.mul_comm]; omega)
  have hmod : (off + k) % blockSize = off % blockSize + k := by
    have := Nat.div_add_mod (off + k) blockSize
    rw [hdiv] at this
    omega
  simp only [byteAt, blockOf, hdiv, hmod]

/-- **The loop of `inode_read`.** -/
theorem readLoop_peeks (hS : ∀ x, refs b e x ∈ S) :
    ∀ (fuel i off : ℕ), count - i ≤ fuel → (i = 0 ∨ off % blockSize = 0 ∨ count ≤ i) →
    off + (count - i) ≤ inodeMaxBytes →
    Peeks S b (readLoop e count fuel i off) (bytesFrom b e off (count - i))
  | 0, i, off, hf, _, _ => by
    have h0 : count - i = 0 := by omega
    rw [h0]
    exact peeks_pure _
  | fuel + 1, i, off, hf, hal, hmax => by
    unfold readLoop
    by_cases hi : i < count
    · have hal' : i = 0 ∨ off % blockSize = 0 := by omega
      have hlt := Nat.mod_lt off (show 0 < blockSize by decide)
      have hidx : off / blockSize < inodeMaxBlocks := by
        unfold inodeMaxBytes at hmax
        exact Nat.div_lt_of_lt_mul (by rw [Nat.mul_comm]; omega)
      rw [if_pos hi, chunk_eq hal']
      refine peeks_bind (inodeMap_peeks hidx fun _ => hS .indirect) (peeks_block (hS _) ?_)
      set cnt := min (blockSize - off % blockSize) (count - i) with hcnt
      have hslice : (b (blockOf b e off)).slice (off % blockSize) cnt = bytesFrom b e off cnt :=
        slice_eq_bytesFrom (by omega)
      have ih := readLoop_peeks hS fuel (i + cnt) (off + cnt) (by omega) (Or.inr (chunk_next count i off))
        (by omega)
      have hall : bytesFrom b e off (count - i) =
          (b (blockOf b e off)).slice (off % blockSize) cnt ++ bytesFrom b e (off + cnt) (count - (i + cnt)) := by
        rw [hslice, bytesFrom_append]
        congr 1
        omega
      rw [hall]
      exact peeks_bind ih (peeks_pure _)
    · have h0 : count - i = 0 := by omega
      rw [if_neg hi, h0]
      exact peeks_pure _

theorem div_lt_maxBlocks (h : p < inodeMaxBytes) : p / blockSize < inodeMaxBlocks :=
  Nat.div_lt_of_lt_mul (by rwa [Nat.mul_comm])

theorem refs_modify {f : BlockData → BlockData} (ho : Owned s.used (refs s.blocks e))
    (hi : i < inodeMaxBlocks) (ht : refs s.blocks e (dataSlot i) = n) (h0 : n ≠ 0) :
    refs (s.modify n f).blocks e = refs s.blocks e := by
  refine refs_congr fun _ => update_of_ne (fun he => ?_) ..
  exact dataSlot_ne_indirect hi (ho.inj (by rw [ht]; exact h0) (ht.trans he.symm))

/-- **One iteration of the loop of `inode_write`**: the block is looked up or allocated, and the bytes
go where they belong. -/
theorem MapsTo.wrote (h : MapsTo sb s e (off / blockSize) n s' e')
    (ho : Owned s.used (refs s.blocks e)) (hl : l ≠ []) (hblk : off % blockSize + l.length ≤ blockSize)
    (hmax : off + l.length ≤ inodeMaxBytes) :
    Wrote sb s e (s'.modify n (Buf.splice (off % blockSize) l)) e' off l := by
  have hlen : 0 < l.length := length_pos_of_ne_nil hl
  have hdm := Nat.div_add_mod off blockSize
  have hidx : off / blockSize < inodeMaxBlocks := div_lt_maxBlocks (by omega)
  have ho' := ho.grow h.grows
  have hrefs := refs_modify (f := Buf.splice (off % blockSize) l) ho' hidx h.target h.ne_zero
  have hblkOf : ∀ p, blockOf (s'.modify n (Buf.splice (off % blockSize) l)).blocks e' p =
      blockOf s'.blocks e' p := fun p => by unfold blockOf; rw [hrefs]
  have hrange : ∀ p, off ≤ p ∧ p < off + l.length ↔ p / blockSize = off / blockSize ∧
      off % blockSize ≤ p % blockSize ∧ p % blockSize < off % blockSize + l.length := by
    intro p
    have hp := Nat.div_add_mod p blockSize
    have hpl := Nat.mod_lt p (show 0 < blockSize by decide)
    constructor
    · intro hr
      have hdiv : p / blockSize = off / blockSize :=
        Nat.div_eq_of_lt_le (by rw [Nat.mul_comm]; omega) (by rw [Nat.add_mul, Nat.mul_comm]; omega)
      rw [hdiv] at hp
      omega
    · rintro ⟨hdiv, h1, h2⟩
      rw [hdiv] at hp
      omega
  refine ⟨h.toGrown.trans ⟨?_, fun _ hn => Or.inl hn, rfl, fun m hm => ?_, rfl⟩, fun p hp hm => ?_,
    fun p h1 h2 => ?_, fun hm => ?_⟩
  · rw [hrefs]
    exact .refl _ _
  · refine update_of_ne (fun he => ?_) ..
    have := hm (dataSlot (off / blockSize))
    rw [hrefs, h.target] at this
    exact this h.ne_zero he.symm
  · unfold byteAt
    rw [hblkOf]
    by_cases hsame : p / blockSize = off / blockSize
    · have hn : blockOf s'.blocks e' p = n := by
        unfold blockOf
        rw [hsame, h.target]
      rw [hn]
      have hupd : (s'.modify n (Buf.splice (off % blockSize) l)).blocks n =
          Buf.splice (off % blockSize) l (s'.blocks n) := update_self ..
      have hold : ¬ (off ≤ p ∧ p < off + l.length) → (s'.blocks n).byte (p % blockSize) =
          (s.blocks (blockOf s.blocks e p)).byte (p % blockSize) := by
        intro hr
        have := h.bytes p hp (hm.resolve_right hr)
        unfold byteAt at this
        rwa [hn] at this
      rw [hupd, Buf.byte_splice hblk]
      by_cases hr : off ≤ p ∧ p < off + l.length
      · rw [if_pos hr, if_pos ((hrange p).mp hr).2]
        congr 1
        have := Nat.div_add_mod p blockSize
        rw [hsame] at this
        omega
      · rw [if_neg hr, if_neg fun hc => hr ((hrange p).mpr ⟨hsame, hc⟩), hold hr]
    · have hr : ¬ (off ≤ p ∧ p < off + l.length) := fun hr => hsame ((hrange p).mp hr).1
      have hm' := hm.resolve_right hr
      have hne : blockOf s'.blocks e' p ≠ n := by
        intro he
        rw [← h.target] at he
        refine hsame (dataSlot_inj hidx (ho'.inj ?_ he))
        rw [show refs s'.blocks e' (dataSlot (p / blockSize)) = blockOf s'.blocks e' p from rfl,
          h.blockOf_eq hm']
        exact hm'
      have hupd : (s'.modify n (Buf.splice (off % blockSize) l)).blocks (blockOf s'.blocks e' p) =
          s'.blocks (blockOf s'.blocks e' p) := update_of_ne hne ..
      rw [hupd, if_neg hr]
      exact h.bytes p hp hm'
  · rw [hblkOf]
    unfold blockOf
    rw [((hrange p).mp ⟨h1, h2⟩).1, h.target]
    exact h.ne_zero
  · exact h.still (hm off le_rfl (by omega))

/-- The slots of the blocks with the bytes from `off` on. -/
def slotsIn (off n : ℕ) : Finset Slot := (Finset.Ico off (off + n)).biUnion fun p => slotsFor (p / blockSize)

theorem slotsIn_add (off m n : ℕ) : slotsIn off (m + n) = slotsIn off m ∪ slotsIn (off + m) n := by
  unfold slotsIn
  rw [← Finset.union_biUnion, Finset.Ico_union_Ico_eq_Ico (by omega) (by omega), Nat.add_assoc]

theorem slotsIn_of_le (hn : 0 < n) (hle : n ≤ blockSize - off % blockSize) :
    slotsIn off n = slotsFor (off / blockSize) := by
  have hlt := Nat.mod_lt off (show 0 < blockSize by decide)
  have hdm := Nat.div_add_mod off blockSize
  have hdiv : ∀ p ∈ Finset.Ico off (off + n), p / blockSize = off / blockSize := by
    intro p hp
    have hp' := Finset.mem_Ico.mp hp
    exact Nat.div_eq_of_lt_le (by rw [Nat.mul_comm]; omega) (by rw [Nat.add_mul, Nat.mul_comm]; omega)
  unfold slotsIn
  ext x
  rw [Finset.mem_biUnion]
  constructor
  · rintro ⟨p, hp, hx⟩
    rwa [hdiv p hp] at hx
  · exact fun hx => ⟨off, Finset.mem_Ico.mpr (by omega), hx⟩

@[simp] theorem slotsIn_zero (off : ℕ) : slotsIn off 0 = ∅ := by simp [slotsIn]

/-- **The loop of `inode_write`.** -/
theorem writeLoop_fills : ∀ (fuel i off : ℕ) (src : List UInt8) {s : Store} {e : Dinode},
    count - i ≤ fuel → src.length = count - i → (i = 0 ∨ off % blockSize = 0 ∨ count ≤ i) →
    off + (count - i) ≤ inodeMaxBytes → Owned s.used (refs s.blocks e) →
    Room al F (s.used.card + missing (refs s.blocks e) (slotsIn off src.length)) →
    Prog.Meets (storeCall al) F (writeLoop count fuel i off src e) s
      fun e' s' => Wrote sb s e s' e' off src ∧
        Fills (refs s.blocks e) (refs s'.blocks e') (slotsIn off src.length)
  | 0, i, off, src, s, e, hf, hsrc, _, _, _, _ => by
    have h0 : src = [] := length_eq_zero_iff.mp (by omega)
    rw [h0]
    exact Prog.meets_pure ⟨.refl s e off, .refl (by simp)⟩
  | fuel + 1, i, off, src, s, e, hf, hsrc, hal, hmax, ho, hroom => by
    unfold writeLoop
    by_cases hi : i < count
    · have hlt := Nat.mod_lt off (show 0 < blockSize by decide)
      have hidx : off / blockSize < inodeMaxBlocks := div_lt_maxBlocks (by omega)
      set cnt := min (blockSize - off % blockSize) (count - i) with hcnt
      have htake : (src.take cnt).length = cnt := by rw [length_take]; omega
      have hdrop : (src.drop cnt).length = src.length - cnt := length_drop
      have hslots : slotsIn off src.length = slotsFor (off / blockSize) ∪ slotsIn (off + cnt) (src.drop cnt).length := by
        rw [← slotsIn_of_le (n := cnt) (by omega) (by omega), ← slotsIn_add]
        congr 1
        omega
      rw [hslots] at hroom ⊢
      rw [if_pos hi, chunk_eq (by omega), ← hcnt]
      have hroom₁ : Room al F (s.used.card + missing (refs s.blocks e) (slotsFor (off / blockSize))) :=
        hroom.mono (Nat.add_le_add_left (Finset.card_le_card
          (Finset.filter_subset_filter _ Finset.subset_union_left)) _)
      refine Prog.meets_bind ((inodeMap_fills hidx ho hroom₁).mono fun r s₁ hmap => ?_)
      obtain ⟨n, e₁, m⟩ := r
      obtain ⟨hmap, hfill⟩ := hmap
      refine Prog.meets_bind (Prog.meets_of_run (run_acquire _) ?_)
      have hw : Wrote sb s e (s₁.modify n (Buf.splice (off % blockSize) (src.take cnt))) e₁ off
          (src.take cnt) :=
        hmap.wrote ho (ne_nil_of_length_pos (by omega)) (by omega) (by omega)
      have hrefs : refs (s₁.modify n (Buf.splice (off % blockSize) (src.take cnt))).blocks e₁ =
          refs s₁.blocks e₁ := refs_modify (ho.grow hmap.grows) hidx hmap.target hmap.ne_zero
      refine Prog.meets_bind (Prog.meets_of_run (run_modify _ _) ?_)
      refine Prog.meets_bind (Prog.meets_of_run (run_sync _) ?_)
      refine Prog.meets_bind (Prog.meets_of_run (run_release _) ?_)
      have hcard : (s₁.modify n (Buf.splice (off % blockSize) (src.take cnt))).used.card =
          s.used.card + missing (refs s.blocks e) (slotsFor (off / blockSize)) :=
        hmap.grows.card_of_fills hfill
      have ih := writeLoop_fills fuel (i + cnt) (off + cnt) (src.drop cnt) (by omega)
        (by omega) (Or.inr (chunk_next count i off)) (by omega) (ho.grow hw.grows)
        (by rwa [hcard, hrefs, Nat.add_assoc, ← hfill.missing_union])
      refine ih.mono fun e' s' hrest => ?_
      rw [hrefs] at hrest
      refine ⟨?_, hfill.trans hrest.2⟩
      rw [← take_append_drop cnt src]
      exact hw.trans (by rw [htake]; exact hrest.1)
    · have h0 : src = [] := length_eq_zero_iff.mp (by omega)
      rw [if_neg hi, h0]
      exact Prog.meets_pure ⟨.refl s e off, .refl (by simp)⟩

/-! ### The inode table -/

variable (sb) in
/-- The entry of inode `i` in the inode table. -/
def tableEntry (b : Disk) (i : ℕ) : Dinode := getEntry (b (toBlockNo sb i)) (entryIndex i)

variable (sb) in
/-- The store with the entry of inode `i` overwritten. -/
def putEntry (s : Store) (i : ℕ) (e : Dinode) : Store :=
  s.modify (toBlockNo sb i) fun b => setEntry b (entryIndex i) e

theorem run_inodeSync_store (hv : inode.valid = true) :
    (inodeSync sb inode true).run (storeCall al) s =
      some (inode, putEntry sb s inode.inodeNo inode.entry) := by
  simp [inodeSync, hv, putEntry]

theorem run_inodeSync_load {w : Bool} (hv : inode.valid = false) :
    (inodeSync sb inode w).run (storeCall al) s =
      some ({ inode with entry := tableEntry sb s.blocks inode.inodeNo, valid := true }, s) := by
  simp [inodeSync, hv, tableEntry]

theorem entryIndex_lt (i : ℕ) : entryIndex i < inodePerBlock := Nat.mod_lt _ (by decide)

theorem putEntry_of_isData {e : Dinode} (hi : i < sb.numInodes) (hn : IsData sb n) :
    (putEntry sb s i e).blocks n = s.blocks n :=
  update_of_ne (fun he => hn.ne_table i hi he.symm) ..

/-! ### `inode_read` -/

theorem take_drop_contents (b : Disk) (e : Dinode) (off count : ℕ) :
    ((contents b e).drop off).take count = bytesFrom b e off (min count (e.numBytes.toNat - off)) := by
  refine ext_getElem (by simp [contents, bytesFrom]) fun k _ _ => ?_
  simp [contents, bytesFrom]

theorem inodeRead_eq (ht : inode.entry.type ≠ inodeDevice)
    (hoff : off ≤ inode.entry.numBytes.toNat) (hno : off + count < 2 ^ 64) :
    inodeRead inode off count = (do
      let l ← readLoop inode.entry (min count (inode.entry.numBytes.toNat - off))
        (min count (inode.entry.numBytes.toNat - off)) 0 off
      pure (min count (inode.entry.numBytes.toNat - off), l)) := by
  have hlt := inode.entry.numBytes.toNat_lt
  set size := inode.entry.numBytes.toNat with hsz
  have hsum : (count + off) % 2 ^ 64 = count + off := Nat.mod_eq_of_lt (by omega)
  -- the number of bytes after the cut
  have hcut : (if size < (count + off) % 2 ^ 64 then (2 ^ 64 + size - off) % 2 ^ 64 else count) =
      min count (size - off) := by
    rw [hsum]
    split_ifs with h
    · rw [show 2 ^ 64 + size - off = 2 ^ 64 + (size - off) by omega, Nat.add_mod_left,
        Nat.mod_eq_of_lt (by omega)]
      omega
    · omega
  have hstop : (off + min count (size - off)) % 2 ^ 64 = off + min count (size - off) :=
    Nat.mod_eq_of_lt (by omega)
  unfold inodeRead Prog.check
  simp only [ht, ↓reduceIte, ← hsz, hcut, hstop, show ¬ size < off by omega,
    show off + min count (size - off) ≤ size by omega, show off ≤ off + min count (size - off) by omega]
  rfl

/-- **`inode_read`** of a regular file or a directory. -/
theorem inodeRead_peeks (hS : ∀ x, refs b inode.entry x ∈ S) (ht : inode.entry.type ≠ inodeDevice)
    (hsize : inode.entry.numBytes.toNat ≤ inodeMaxBytes) (hoff : off ≤ inode.entry.numBytes.toNat)
    (hno : off + count < 2 ^ 64) :
    Peeks S b (inodeRead inode off count) (min count (inode.entry.numBytes.toNat - off),
      ((contents b inode.entry).drop off).take count) := by
  have hloop := readLoop_peeks hS (min count (inode.entry.numBytes.toNat - off)) 0 off (Nat.sub_zero _).le
    (Or.inl rfl) (by omega)
  rw [Nat.sub_zero] at hloop
  rw [inodeRead_eq ht hoff hno, take_drop_contents]
  exact peeks_bind hloop (peeks_pure _)

/-- `l` overwritten by `l'` from `off` on. -/
def spliceAt (off : ℕ) (l' l : List UInt8) : List UInt8 := l.take off ++ l' ++ l.drop (off + l'.length)

theorem length_spliceAt (h : off ≤ l.length) :
    (spliceAt off l' l).length = max l.length (off + l'.length) := by
  simp only [spliceAt, length_append, length_take, length_drop]
  omega

theorem getD_spliceAt (h : off ≤ l.length) : (spliceAt off l' l).getD k 0 =
      if off ≤ k ∧ k < off + l'.length then l'.getD (k - off) 0 else l.getD k 0 := by
  unfold spliceAt
  have htake : (l.take off).length = off := by rw [length_take]; omega
  by_cases h1 : k < off
  · rw [if_neg (by omega), append_assoc, getD_append _ _ _ _ (by omega)]
    simp [getD_eq_getElem?_getD, h1]
  · rw [append_assoc, getD_append_right _ _ _ _ (by omega), htake]
    by_cases h2 : k < off + l'.length
    · rw [if_pos (by omega), getD_append _ _ _ _ (by omega)]
    · rw [if_neg (by omega), getD_append_right _ _ _ _ (by omega)]
      simp only [getD_eq_getElem?_getD, getElem?_drop]
      congr 2
      omega

theorem length_contents (b : Disk) (e : Dinode) : (contents b e).length = e.numBytes.toNat := by
  simp [contents]

theorem getD_contents {e : Dinode} (h : k < e.numBytes.toNat) :
    (contents b e).getD k 0 = byteAt b e k := by
  simp [contents, getD_eq_getElem?_getD, h]

theorem eq_of_getD (hlen : l.length = l'.length)
    (h : ∀ k < l.length, l.getD k 0 = l'.getD k 0) : l = l' := by
  refine ext_getElem hlen fun k h1 h2 => ?_
  have := h k h1
  rwa [getD_eq_getElem _ _ h1, getD_eq_getElem _ _ h2] at this

def Mapped (b : Disk) (e : Dinode) : Prop := ∀ p < e.numBytes.toNat, blockOf b e p ≠ 0

/-- The entry of a file after a write up to `stop`. -/
def resize (e : Dinode) (stop : ℕ) : Dinode :=
  if e.numBytes.toNat < stop then { e with numBytes := UInt32.ofNat stop } else e

theorem numBytes_resize {stop : ℕ} (h : stop ≤ inodeMaxBytes) :
    (resize e stop).numBytes.toNat = max e.numBytes.toNat stop := by
  have hbig : inodeMaxBytes < 2 ^ 32 := by decide
  unfold resize
  split_ifs with h1
  · rw [toNat_ofNat (by omega)]
    omega
  · omega

@[simp] theorem refs_resize (b : Disk) (e : Dinode) (stop : ℕ) : refs b (resize e stop) = refs b e := by
  funext x
  unfold resize
  split_ifs <;> cases x <;> rfl

@[simp] theorem blockOf_resize (b : Disk) (e : Dinode) (stop p : ℕ) :
    blockOf b (resize e stop) p = blockOf b e p := by
  unfold blockOf
  rw [refs_resize]

@[simp] theorem byteAt_resize (b : Disk) (e : Dinode) (stop p : ℕ) :
    byteAt b (resize e stop) p = byteAt b e p := by
  unfold byteAt
  rw [blockOf_resize]

/-- **The contents after a write.** -/
theorem Wrote.contents_eq (h : Wrote sb s e s' e' off l) (hm : Mapped s.blocks e)
    (hoff : off ≤ e.numBytes.toNat) (hmax : off + l.length ≤ inodeMaxBytes)
    (hsize : e.numBytes.toNat ≤ inodeMaxBytes) :
    contents s'.blocks (resize e' (off + l.length)) = spliceAt off l (contents s.blocks e) := by
  have hnum : e'.numBytes = e.numBytes := by rw [h.fields]
  refine eq_of_getD ?_ fun k hk => ?_
  · rw [length_contents, length_spliceAt (by rwa [length_contents]), length_contents,
      numBytes_resize hmax, hnum]
  · rw [length_contents, numBytes_resize hmax, hnum] at hk
    rw [getD_contents (by rw [numBytes_resize hmax, hnum]; exact hk), byteAt_resize,
      getD_spliceAt (by rwa [length_contents])]
    have hcase : blockOf s.blocks e k ≠ 0 ∨ off ≤ k ∧ k < off + l.length := by
      by_cases hlt : k < e.numBytes.toNat
      · exact Or.inl (hm k hlt)
      · exact Or.inr (by omega)
    rw [h.bytes k (by omega) hcase]
    split_ifs with hr
    · rfl
    · rw [getD_contents (by omega)]

theorem Wrote.mapped_resize (h : Wrote sb s e s' e' off l)
    (hm : Mapped s.blocks e) (hoff : off ≤ e.numBytes.toNat) (hmax : off + l.length ≤ inodeMaxBytes) :
    Mapped s'.blocks (resize e' (off + l.length)) := by
  have hnum : e'.numBytes = e.numBytes := by rw [h.fields]
  intro p hp
  rw [numBytes_resize hmax, hnum] at hp
  rw [blockOf_resize]
  by_cases hlt : p < e.numBytes.toNat
  · rw [h.blockOf_eq (hm p hlt)]
    exact hm p hlt
  · exact h.mapped p (by omega) (by omega)

/-- **`inode_write`** to a regular file or a directory: the bytes are written, the slots of their blocks
are filled, the size is adjusted, and the entry goes to the inode table if the file has grown. -/
theorem inodeWrite_fills
    (ht : inode.entry.type ≠ inodeDevice) (hv : inode.valid = true)
    (hoff : off ≤ inode.entry.numBytes.toNat) (hmax : off + src.length ≤ inodeMaxBytes)
    (ho : Owned s.used (refs s.blocks inode.entry))
    (hroom : Room al F (s.used.card + missing (refs s.blocks inode.entry) (slotsIn off src.length))) :
    Prog.Meets (storeCall al) F (inodeWrite sb inode src off) s fun r s' =>
      ∃ s₁ e₁, Wrote sb s inode.entry s₁ e₁ off src ∧
        Fills (refs s.blocks inode.entry) (refs s₁.blocks e₁) (slotsIn off src.length) ∧
        r = (src.length, { inode with entry := resize e₁ (off + src.length) }) ∧
        s' = if inode.entry.numBytes.toNat < off + src.length then
          putEntry sb s₁ inode.inodeNo (resize e₁ (off + src.length)) else s₁ := by
  have hbig : inodeMaxBytes < 2 ^ 64 := by decide
  have hstop : (off + src.length) % 2 ^ 64 = off + src.length := Nat.mod_eq_of_lt (by omega)
  unfold inodeWrite
  simp only [ht, ↓reduceIte, hstop]
  refine Prog.meets_bind (Prog.meets_check (fun _ => ?_) fun h => absurd hoff h)
  refine Prog.meets_bind (Prog.meets_check (fun _ => ?_) fun h => absurd hmax h)
  refine Prog.meets_bind (Prog.meets_check (fun _ => ?_) fun h => absurd (Nat.le_add_right ..) h)
  refine Prog.meets_bind ((writeLoop_fills _ 0 off src (by omega) (by omega) (Or.inl rfl) (by omega)
    ho hroom).mono fun e₁ s₁ h => ?_)
  obtain ⟨hw, hf⟩ := h
  have hnum : e₁.numBytes = inode.entry.numBytes := by rw [hw.fields]
  rw [hnum]
  by_cases hgrow : inode.entry.numBytes.toNat < off + src.length
  · rw [if_pos hgrow]
    have hre : resize e₁ (off + src.length) = { e₁ with numBytes := UInt32.ofNat (off + src.length) } := by
      unfold resize
      rw [hnum, if_pos hgrow]
    refine Prog.meets_bind (Prog.meets_of_run (run_inodeSync_store (by exact hv)) (Prog.meets_pure ?_))
    exact ⟨s₁, e₁, hw, hf, by rw [hre], by rw [if_pos hgrow, hre]⟩
  · rw [if_neg hgrow]
    have hre : resize e₁ (off + src.length) = e₁ := by
      unfold resize
      rw [hnum, if_neg hgrow]
    exact Prog.meets_pure ⟨s₁, e₁, hw, hf, by rw [hre], by rw [if_neg hgrow]⟩

theorem inodeWrite_meets
    (ht : inode.entry.type ≠ inodeDevice) (hv : inode.valid = true)
    (hoff : off ≤ inode.entry.numBytes.toNat) (hmax : off + src.length ≤ inodeMaxBytes)
    (ho : Owned s.used (refs s.blocks inode.entry)) (hroom : Room al F (bound s inode.entry)) :
    Prog.Meets (storeCall al) F (inodeWrite sb inode src off) s fun r s' =>
      ∃ s₁ e₁, Wrote sb s inode.entry s₁ e₁ off src ∧
        r = (src.length, { inode with entry := resize e₁ (off + src.length) }) ∧
        s' = if inode.entry.numBytes.toNat < off + src.length then
          putEntry sb s₁ inode.inodeNo (resize e₁ (off + src.length)) else s₁ := by
  have hle := missing_le_spare (refs s.blocks inode.entry) (slotsIn off src.length)
  refine (inodeWrite_fills ht hv hoff hmax ho (hroom.mono (Nat.add_le_add_left hle _))).mono ?_
  rintro r s' ⟨s₁, e₁, hw, -, hr, hs⟩
  exact ⟨s₁, e₁, hw, hr, hs⟩

end OsHonor.Fs.Inodes.Files
