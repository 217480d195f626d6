import OsHonor.Base.Runs
import OsHonor.Fs.Inodes.Clear

/-! # Block accounting of the inode layer

A client works on inodes through pointers to the cached ones. Whatever it does, the inodes in use do not
share blocks, their blocks are marked used, and every used block belongs to one of them
(`Consistent`); the cached inodes with a reference are copies of the entries in the inode table
(`Cached`). -/

namespace OsHonor.Fs.Inodes.Accounting

open List Base.Bytes Base.Keyed Base.Programs Base.Refs Base.Runs
open BlockDevice
open Format Code BlockStore
open Reading Files Contents Clear

variable {sb : SuperBlock} {al : Allocator sb} {s s' : Store} {e e' : Dinode} {i i' : Inode}

/-! ### Writing to a file, whatever comes of it -/

variable (sb) in
/-- The file of `i` is left alone, or it is written to. -/
def Written (s : Store) (i : Inode) (s' : Store) (i' : Inode) : Prop :=
  s' = s ∧ i' = i ∨
  ∃ off l s₁ e₁, off ≤ i.entry.numBytes.toNat ∧ off + l.length ≤ inodeMaxBytes ∧
    Wrote sb s i.entry s₁ e₁ off l ∧ i' = { i with entry := resize e₁ (off + l.length) } ∧
    s' = if i.entry.numBytes.toNat < off + l.length then
      putEntry sb s₁ i.inodeNo (resize e₁ (off + l.length)) else s₁

theorem room_true (N : ℕ) : Room al True N := fun _ _ _ => trivial

variable {off count : ℕ} {name : Name} {c : Act}

theorem inodeWrite_written {src : List UInt8} (hv : i.valid = true)
    (ho : Owned s.used (refs s.blocks i.entry)) (hlen : src.length < 2 ^ 64) :
    Prog.Meets (storeCall al) True (inodeWrite sb i src off) s fun r s' => Written sb s i s' r.2 := by
  by_cases ht : i.entry.type = inodeDevice
  · unfold inodeWrite
    rw [if_pos ht]
    refine Prog.meets_bind (Prog.meets_check (fun _ => ?_) fun _ => trivial)
    exact Prog.meets_bind (Prog.meets_of_run (run_consoleWrite _) (Prog.meets_pure (Or.inl ⟨rfl, rfl⟩)))
  · by_cases hpre : off ≤ i.entry.numBytes.toNat ∧ off + src.length ≤ inodeMaxBytes
    · refine (inodeWrite_meets ht hv hpre.1 hpre.2 ho (room_true _)).mono ?_
      rintro r s' ⟨s₁, e₁, hw, rfl, hs'⟩
      exact Or.inr ⟨off, src, s₁, e₁, hpre.1, hpre.2, hw, rfl, hs'⟩
    · refine Prog.meets_of_none ?_ trivial
      have hbig := i.entry.numBytes.toNat_lt
      have hmax : inodeMaxBytes < 2 ^ 32 := by decide
      by_cases h1 : off ≤ i.entry.numBytes.toNat
      · by_cases h2 : (off + src.length) % 2 ^ 64 ≤ inodeMaxBytes
        · have h3 : ¬ off ≤ (off + src.length) % 2 ^ 64 := by omega
          simp only [inodeWrite, ht, ↓reduceIte, Prog.run_bind, Prog.run_check, h1, h2, h3,
            Option.bind_some, Option.bind_none]
        · simp only [inodeWrite, ht, ↓reduceIte, Prog.run_bind, Prog.run_check, h1, h2,
            Option.bind_some, Option.bind_none]
      · simp only [inodeWrite, ht, ↓reduceIte, Prog.run_bind, Prog.run_check, h1, Option.bind_none]

theorem readLoop_same : ∀ (fuel k off : ℕ),
    Prog.Meets (storeCall al) True (readLoop e count fuel k off) s fun _ s' => s' = s
  | 0, _, _ => Prog.meets_pure rfl
  | fuel + 1, k, off => by
    unfold readLoop
    by_cases hk : k < count
    · rw [if_pos hk]
      by_cases hidx : off / blockSize < inodeMaxBlocks
      · refine Prog.meets_bind (Prog.meets_of_run (run_inodeMap_false hidx) ?_)
        refine Prog.meets_bind (Prog.meets_of_run (run_acquire _) ?_)
        refine Prog.meets_bind (Prog.meets_of_run (run_release _) ?_)
        refine Prog.meets_bind ((readLoop_same fuel _ _).mono ?_)
        rintro l s' rfl
        exact Prog.meets_pure rfl
      · refine Prog.meets_of_none ?_ trivial
        simp [inodeMap, hidx]
    · rw [if_neg hk]
      exact Prog.meets_pure rfl

theorem inodeRead_same (ht : i.entry.type ≠ inodeDevice) :
    Prog.Meets (storeCall al) True (inodeRead i off count) s fun _ s' => s' = s := by
  unfold inodeRead
  simp only [ht, ↓reduceIte]
  by_cases hoff : i.entry.numBytes.toNat < off
  · rw [if_pos hoff]
    exact Prog.meets_pure rfl
  · rw [if_neg hoff]
    refine Prog.meets_bind (Prog.meets_check (fun _ => ?_) fun _ => trivial)
    refine Prog.meets_bind (Prog.meets_check (fun _ => ?_) fun _ => trivial)
    refine Prog.meets_bind ((readLoop_same _ _ _).mono ?_)
    rintro l s' rfl
    exact Prog.meets_pure rfl

variable {junk : Dirent} {j a : ℕ} {s₁ : Store} {d : Dinode}

theorem scans_same {α : Type} {stop : Dirent → Prop} [DecidablePred stop] {hit : Dirent → ℕ → α} {miss : ℕ → α}
    {loop : ℕ → ℕ → FsProg α} (hl : Scans i junk stop hit miss loop) (ht : i.entry.type ≠ inodeDevice) :
    ∀ (fuel k : ℕ), Prog.Meets (storeCall al) True (loop fuel k) s fun _ s' => s' = s
  | 0, k => by
    rw [hl.zero]
    exact Prog.meets_pure rfl
  | fuel + 1, k => by
    rw [hl.succ]
    split_ifs
    · refine Prog.meets_bind ((inodeRead_same ht).mono ?_)
      intro r s' hs
      subst s'
      split_ifs
      · exact Prog.meets_pure rfl
      · exact scans_same hl ht fuel _
    · exact Prog.meets_pure rfl

theorem inodeInsert_written {no : ℕ} (hv : i.valid = true)
    (ho : Owned s.used (refs s.blocks i.entry)) :
    Prog.Meets (storeCall al) True (inodeInsert sb i name no junk) s fun r s' => Written sb s i s' r.2 := by
  unfold inodeInsert
  refine Prog.meets_bind (Prog.meets_check (fun htype => ?_) fun _ => trivial)
  have ht : i.entry.type ≠ inodeDevice := by
    rw [htype]
    decide
  have hlookup : Prog.Meets (storeCall al) True (inodeLookup i name junk) s fun _ s' => s' = s := by
    unfold inodeLookup
    exact Prog.meets_bind (Prog.meets_check (fun _ => scans_same (scans_lookup i name junk) ht _ _) fun _ => trivial)
  refine Prog.meets_bind (hlookup.mono ?_)
  rintro found s' rfl
  by_cases hf : found.isSome
  · rw [if_pos hf]
    exact Prog.meets_pure (Or.inl ⟨rfl, rfl⟩)
  · rw [if_neg hf]
    refine Prog.meets_bind ((scans_same (scans_insert i junk) ht _ _).mono ?_)
    rintro index s' rfl
    refine Prog.meets_bind ((inodeWrite_written hv ho (by rw [length_bytes]; decide)).mono ?_)
    intro r s' hw
    exact Prog.meets_pure hw

theorem inodeRemove_written {index : ℕ} (hv : i.valid = true)
    (ho : Owned s.used (refs s.blocks i.entry)) :
    Prog.Meets (storeCall al) True (inodeRemove sb i index) s fun i' s' => Written sb s i s' i' := by
  unfold inodeRemove
  split_ifs
  · refine Prog.meets_bind ((inodeWrite_written hv ho (by rw [length_replicate]; decide)).mono ?_)
    intro r s' hw
    exact Prog.meets_pure hw
  · exact Prog.meets_pure (Or.inl ⟨rfl, rfl⟩)

/-! ### Consistent arrays -/

variable (sb) in
/-- Inode `k` is in use. -/
def Live (b : Disk) (k : ℕ) : Prop := k < sb.numInodes ∧ (tableEntry sb b k).type ≠ inodeInvalid

variable (sb) in
instance (b : Disk) (k : ℕ) : Decidable (Live sb b k) :=
  inferInstanceAs (Decidable (k < sb.numInodes ∧ (tableEntry sb b k).type ≠ inodeInvalid))

variable (sb) in
def liveRefs (b : Disk) (k : ℕ) : Slot → ℕ :=
  if Live sb b k then refs b (tableEntry sb b k) else fun _ => 0

variable (sb) in
/-- **A consistent array**: blocks are not shared, those of inodes in use are marked used and there are
no others, and the files have all the blocks they need. -/
structure Consistent (s : Store) : Prop where
  owned : Owned s.used (Function.uncurry (liveRefs sb s.blocks))
  exact : Exact s.used (Function.uncurry (liveRefs sb s.blocks))
  isData : ∀ n ∈ s.used, IsData sb n
  size : ∀ k, Live sb s.blocks k → (tableEntry sb s.blocks k).numBytes.toNat ≤ inodeMaxBytes
  mapped : ∀ k, Live sb s.blocks k → Mapped s.blocks (tableEntry sb s.blocks k)

variable {k : ℕ}

theorem liveRefs_of_live (h : Live sb s.blocks k) :
    liveRefs sb s.blocks k = refs s.blocks (tableEntry sb s.blocks k) := if_pos h

theorem Consistent.file (h : Consistent sb s) (hk : Live sb s.blocks k) :
    Owned s.used (refs s.blocks (tableEntry sb s.blocks k)) := by
  rw [← liveRefs_of_live hk]
  exact ⟨fun {x y} hx he => (Prod.mk.inj (h.owned.inj (x := (k, x)) (y := (k, y)) hx he)).2,
    fun {x} hx => h.owned.mem (x := (k, x)) hx⟩

theorem Consistent.separate (h : Consistent sb s) (hk : Live sb s.blocks k)
    (hj : Live sb s.blocks j) (hne : j ≠ k) (x y : Slot)
    (hx : refs s.blocks (tableEntry sb s.blocks j) x ≠ 0) :
    refs s.blocks (tableEntry sb s.blocks j) x ≠ refs s.blocks (tableEntry sb s.blocks k) y := by
  intro he
  refine hne (Prod.mk.inj (h.owned.inj (x := (j, x)) (y := (k, y)) ?_ ?_)).1
  · show liveRefs sb s.blocks j x ≠ 0
    rw [liveRefs_of_live hj]
    exact hx
  · show liveRefs sb s.blocks j x = liveRefs sb s.blocks k y
    rw [liveRefs_of_live hj, liveRefs_of_live hk]
    exact he

/-- **Changing one inode.** The inode table changes at `k` only, and the other inodes keep their
blocks. -/
structure ChangesOnly (sb : SuperBlock) (k : ℕ) (s s' : Store) : Prop where
  table : ∀ j ≠ k, j < sb.numInodes → tableEntry sb s'.blocks j = tableEntry sb s.blocks j
  agree : ∀ j ≠ k, Live sb s.blocks j → Agree s.blocks s'.blocks (tableEntry sb s.blocks j)

namespace ChangesOnly

theorem live_iff (h : ChangesOnly sb k s s') (hj : j ≠ k) :
    Live sb s'.blocks j ↔ Live sb s.blocks j := by
  unfold Live
  constructor
  · rintro ⟨h1, h2⟩
    rw [h.table j hj h1] at h2
    exact ⟨h1, h2⟩
  · rintro ⟨h1, h2⟩
    rw [← h.table j hj h1] at h2
    exact ⟨h1, h2⟩

theorem liveRefs_eq (h : ChangesOnly sb k s s') :
    liveRefs sb s'.blocks = Function.update (liveRefs sb s.blocks) k (liveRefs sb s'.blocks k) := by
  funext j
  by_cases hj : j = k
  · subst hj
    rw [Function.update_self]
  · rw [Function.update_of_ne hj]
    unfold liveRefs
    by_cases hl : Live sb s.blocks j
    · rw [if_pos hl, if_pos ((h.live_iff hj).mpr hl), h.table j hj hl.1, (h.agree j hj hl).refs_eq]
    · rw [if_neg hl, if_neg (mt (h.live_iff hj).mp hl)]

theorem files (h : ChangesOnly sb k s s') (hc : Consistent sb s)
    (hf : Live sb s'.blocks k → (tableEntry sb s'.blocks k).numBytes.toNat ≤ inodeMaxBytes ∧
      Mapped s'.blocks (tableEntry sb s'.blocks k)) (hl : Live sb s'.blocks j) :
    (tableEntry sb s'.blocks j).numBytes.toNat ≤ inodeMaxBytes ∧ Mapped s'.blocks (tableEntry sb s'.blocks j) := by
  by_cases hj : j = k
  · subst hj
    exact hf hl
  · have hl' := (h.live_iff hj).mp hl
    rw [h.table j hj hl'.1]
    exact ⟨hc.size j hl', (h.agree j hj hl').mapped (hc.mapped j hl')⟩

end ChangesOnly

section

variable (h : Consistent sb s) (hch : ChangesOnly sb k s s')
  (hf : Live sb s'.blocks k → (tableEntry sb s'.blocks k).numBytes.toNat ≤ inodeMaxBytes ∧
    Mapped s'.blocks (tableEntry sb s'.blocks k))
include h hch hf

theorem Consistent.grow (hg : Grows s.used s'.used (liveRefs sb s.blocks k) (liveRefs sb s'.blocks k))
    (hd : ∀ n ∈ s'.used, n ∈ s.used ∨ IsData sb n) : Consistent sb s' := by
  have hlift := hg.lift
  rw [← hch.liveRefs_eq] at hlift
  exact ⟨h.owned.grow hlift, h.exact.grow hlift, fun n hn => (hd n hn).elim (h.isData n) id,
    fun j hj => (hch.files h hf hj).1, fun j hj => (hch.files h hf hj).2⟩

theorem Consistent.release (hu : ∀ n, n ∈ s'.used ↔ n ∈ s.used ∧ ∀ x, liveRefs sb s.blocks k x ≠ n)
    (h0 : liveRefs sb s'.blocks k = fun _ => 0) : Consistent sb s' := by
  have heq := hch.liveRefs_eq
  rw [h0] at heq
  refine ⟨?_, ?_, fun n hn => h.isData n ((hu n).mp hn).1, fun j hj => (hch.files h hf hj).1,
    fun j hj => (hch.files h hf hj).2⟩
  · rw [heq]
    exact h.owned.release hu
  · rw [heq]
    exact h.exact.release hu

end

/-! ### What the functions do to a consistent array -/

theorem changesOnly_putEntry (h : Consistent sb s) (hk : Live sb s.blocks k)
    (hb : ∀ m, (IsData sb m → m ∈ s.used ∧ ∀ x, refs s.blocks (tableEntry sb s.blocks k) x ≠ m) →
      s₁.blocks m = s.blocks m) (d : Dinode) : ChangesOnly sb k s (putEntry sb s₁ k d) where
  table j hj hlt := by
    rw [tableEntry_putEntry, if_neg hj]
    unfold tableEntry
    rw [hb _ fun hd => absurd rfl (hd.ne_table j hlt)]
  agree j hj hl x hx := by
    have hm := (h.file hl).mem hx
    rw [putEntry_of_isData hk.1 (h.isData _ hm)]
    exact hb _ fun _ => ⟨hm, fun y he => h.separate hk hl hj x y hx he.symm⟩

theorem changesOnly_putEntry_self (h : Consistent sb s) (hk : k < sb.numInodes) (d : Dinode) :
    ChangesOnly sb k s (putEntry sb s k d) where
  table j hj _ := by rw [tableEntry_putEntry, if_neg hj]
  agree _ _ hl := agree_putEntry hk (h.file hl) h.isData

theorem liveRefs_putEntry (h : d.type = inodeInvalid ∨ ∀ b x, refs b d x = 0) :
    liveRefs sb (putEntry sb s₁ k d).blocks k = fun _ => 0 := by
  have he : tableEntry sb (putEntry sb s₁ k d).blocks k = d := by rw [tableEntry_putEntry, if_pos rfl]
  by_cases hl : Live sb (putEntry sb s₁ k d).blocks k
  · rw [liveRefs_of_live hl, he]
    funext x
    exact h.resolve_left (by rw [← he]; exact hl.2) _ x
  · exact if_neg hl

theorem Consistent.putEmpty (h : Consistent sb s) (hk : k < sb.numInodes)
    (hfree : ¬ Live sb s.blocks k) (hzero : ∀ b x, refs b d x = 0) (hsize : d.numBytes = 0) :
    Consistent sb (putEntry sb s k d) := by
  have hold : liveRefs sb s.blocks k = fun _ => 0 := if_neg hfree
  refine h.grow (changesOnly_putEntry_self h hk _) (fun _ => ?_) ?_ fun _ hn => Or.inl hn
  · rw [tableEntry_putEntry, if_pos rfl, hsize]
    exact ⟨Nat.zero_le _, fun p hp => absurd hp (by rw [hsize]; exact Nat.not_lt_zero p)⟩
  · rw [hold, liveRefs_putEntry (Or.inr hzero)]
    exact .refl _ _

/-- **`inode_alloc`** takes an inode without blocks. -/
theorem Consistent.alloc (h : Consistent sb s) (hk : k < sb.numInodes)
    (hfree : (tableEntry sb s.blocks k).type = inodeInvalid) (type : UInt16) :
    Consistent sb (putEntry sb s k { Dinode.zero with type }) :=
  h.putEmpty hk (fun hl => hl.2 hfree) (fun b x => by cases x <;> rfl) rfl

variable (sb) in
/-- The cached inode `i` is a copy of its entry, which is in use. -/
structure Copy (b : Disk) (i : Inode) : Prop where
  valid : i.valid = true
  entry : i.entry = tableEntry sb b i.inodeNo
  live : Live sb b i.inodeNo

/-- **A write** keeps the array consistent and the copy a copy. -/
theorem Consistent.written (h : Consistent sb s) (hi : Copy sb s.blocks i) (hw : Written sb s i s' i') :
    Consistent sb s' ∧ ChangesOnly sb i.inodeNo s s' ∧ Copy sb s'.blocks i' ∧
      i' = { i with entry := i'.entry } := by
  rcases hw with ⟨rfl, rfl⟩ | ⟨off, l, s₁, e₁, hoff, hmax, hw, rfl, rfl⟩
  · exact ⟨h, ⟨fun _ _ _ => rfl, fun _ _ _ _ _ => rfl⟩, hi, rfl⟩
  set k := i.inodeNo with hk
  have he : i.entry = tableEntry sb s.blocks k := hi.entry
  have hlive := hi.live
  have hown := h.file hlive
  rw [← he] at hown
  have hown₁ := hown.grow hw.grows
  have hdata₁ : ∀ n ∈ s₁.used, IsData sb n := fun n hn => (hw.isData n hn).elim (h.isData n) id
  have hmapped : Mapped s.blocks i.entry := by
    rw [he]
    exact h.mapped k hlive
  have hsize : i.entry.numBytes.toNat ≤ inodeMaxBytes := by
    rw [he]
    exact h.size k hlive
  have hnum : e₁.numBytes = i.entry.numBytes := by rw [hw.fields]
  have htype : (resize e₁ (off + l.length)).type = i.entry.type := by
    have : (resize e₁ (off + l.length)).type = e₁.type := by unfold resize; split_ifs <;> rfl
    rw [this, hw.fields]
  -- outside the blocks of the file nothing has changed
  have hb : ∀ m, (IsData sb m → m ∈ s.used ∧ ∀ x, refs s.blocks (tableEntry sb s.blocks k) x ≠ m) →
      s₁.blocks m = s.blocks m := by
    intro m hm
    by_cases hd : IsData sb m
    · obtain ⟨hmem, hne⟩ := hm hd
      exact blocks_of_grown hw.toGrown hmem (by rw [he]; exact hne)
    · refine hw.frame m fun x hx hxm => hd ?_
      rw [← hxm]
      exact hdata₁ _ (hown₁.mem hx)
  have hput : ChangesOnly sb k s (putEntry sb s₁ k (resize e₁ (off + l.length))) :=
    changesOnly_putEntry h hlive hb _
  -- in both cases the table holds the entry of the inode
  have hfinal : ∃ s₂ : Store, s₂.used = s₁.used ∧ ChangesOnly sb k s s₂ ∧
      tableEntry sb s₂.blocks k = resize e₁ (off + l.length) ∧
      (∀ n, IsData sb n → s₂.blocks n = s₁.blocks n) ∧
      s₂ = if i.entry.numBytes.toNat < off + l.length then
        putEntry sb s₁ k (resize e₁ (off + l.length)) else s₁ := by
    by_cases hgrow : i.entry.numBytes.toNat < off + l.length
    · refine ⟨putEntry sb s₁ k (resize e₁ (off + l.length)), rfl, hput, ?_,
        fun n hn => putEntry_of_isData hlive.1 hn, by rw [if_pos hgrow]⟩
      rw [tableEntry_putEntry, if_pos rfl]
    · -- the file has all its blocks already, so its entry is the one in the table
      have hstill : e₁ = i.entry := hw.still fun p h1 h2 => hmapped p (by omega)
      have htab : ∀ j < sb.numInodes, tableEntry sb s₁.blocks j = tableEntry sb s.blocks j := by
        intro j hj
        unfold tableEntry
        rw [hb _ fun hd => absurd rfl (hd.ne_table j hj)]
      refine ⟨s₁, rfl, ⟨fun j _ hlt => htab j hlt, fun j hj hl x hx => ?_⟩, ?_, fun _ _ => rfl,
        by rw [if_neg hgrow]⟩
      · exact hb _ fun _ => ⟨(h.file hl).mem hx, fun y hxy => h.separate hlive hl hj x y hx hxy.symm⟩
      · have hre : resize e₁ (off + l.length) = e₁ := by
          unfold resize
          rw [hnum, if_neg hgrow]
        rw [hre, htab k hlive.1, hstill, he]
  obtain ⟨s₂, hused, hch, htab, hdat, hs₂⟩ := hfinal
  rw [← hs₂]
  have hagree : Agree s₁.blocks s₂.blocks (resize e₁ (off + l.length)) := by
    intro x hx
    rw [refs_resize] at hx ⊢
    exact hdat _ (hdata₁ _ (hown₁.mem hx))
  have hlive₂ : Live sb s₂.blocks k := by
    refine ⟨hlive.1, ?_⟩
    rw [htab, htype, he]
    exact hlive.2
  have hrefs₂ : liveRefs sb s₂.blocks k = refs s₁.blocks e₁ := by
    rw [liveRefs_of_live hlive₂, htab, hagree.refs_eq, refs_resize]
  refine ⟨h.grow hch (fun _ => ?_) ?_ (by rw [hused]; exact hw.isData), hch, ⟨hi.valid, htab.symm, hlive₂⟩, rfl⟩
  · rw [htab]
    refine ⟨?_, hagree.mapped (hw.mapped_resize hmapped hoff hmax)⟩
    rw [numBytes_resize hmax, hnum]
    omega
  · rw [hrefs₂, hused, liveRefs_of_live hlive, ← he]
    exact hw.grows

/-- **The blocks of an inode are given back**, and an entry without blocks is stored. -/
theorem Consistent.cleared (h : Consistent sb s) (hl : Live sb s.blocks i.inodeNo)
    (he : i.entry = tableEntry sb s.blocks i.inodeNo) (hc : Cleared sb s i s₁ s' i')
    (hd : d.type = inodeInvalid ∨ d.numBytes = 0 ∧ ∀ b x, refs b d x = 0) :
    Consistent sb (putEntry sb s₁ i.inodeNo d) ∧
      ChangesOnly sb i.inodeNo s (putEntry sb s₁ i.inodeNo d) ∧
      ∀ j < sb.numInodes, tableEntry sb s₁.blocks j = tableEntry sb s.blocks j := by
  have hown := h.file hl
  rw [← he] at hown
  have hb : ∀ m, (IsData sb m → m ∈ s.used ∧
      ∀ x, refs s.blocks (tableEntry sb s.blocks i.inodeNo) x ≠ m) → s₁.blocks m = s.blocks m := by
    intro m hm
    refine hc.frame m fun h0 hmi => ?_
    have hmem := hown.mem (x := .indirect) (toNat_ne_zero.mpr h0)
    refine (hm ?_).2 .indirect ?_
    · rw [hmi]
      exact h.isData _ hmem
    · rw [← he, hmi]
      rfl
  have hch := changesOnly_putEntry h hl hb d
  have hused : s₁.used = s.used \ (freed s.blocks i.entry).toFinset := by
    have := congrArg Store.used hc.books
    rwa [dropAll_eq] at this
  refine ⟨h.release hch (fun hl' => ?_) (fun n => ?_) (liveRefs_putEntry (hd.imp_right And.right)), hch,
    fun j hj => ?_⟩
  · have htype := hl'.2
    rw [tableEntry_putEntry, if_pos rfl] at htype ⊢
    have h0 := (hd.resolve_left htype).1
    rw [h0]
    exact ⟨Nat.zero_le _, fun p hp => by
      rw [h0] at hp
      exact absurd hp (Nat.not_lt_zero p)⟩
  · show n ∈ s₁.used ↔ _
    rw [hused, liveRefs_of_live hl, ← he, Finset.mem_sdiff, mem_toFinset, mem_freed]
    constructor
    · rintro ⟨hn, hnot⟩
      exact ⟨hn, fun x hx => hnot ⟨(h.isData n hn).ne_zero, x, hx⟩⟩
    · rintro ⟨hn, hnot⟩
      exact ⟨hn, fun ⟨_, x, hx⟩ => hnot x hx⟩
  · unfold tableEntry
    rw [hb _ fun hdat => absurd rfl (hdat.ne_table j hj)]

/-! ### A client of the inode layer -/

/-- The array of blocks and the cached inodes. -/
structure System where
  store : Store
  inodes : List Inode

/-- What a client can do. It names an inode by a pointer. -/
inductive Act where
  | alloc (type : UInt16)
  | get (inodeNo a : ℕ)
  | share (a : ℕ)
  | put (a : ℕ)
  | write (a : ℕ) (src : List UInt8) (offset : ℕ)
  | clear (a : ℕ)
  | insert (a : ℕ) (name : Name) (inodeNo : ℕ) (junk : Dirent)
  | remove (a : ℕ) (index : ℕ)

/-- The function `p` is called on the inode at `a`, which it may change. -/
def onInode (al : Allocator sb) (m : System) (a : ℕ) (p : Inode → FsProg Inode) : Option System := do
  let i ← findInode a m.inodes
  let (i, s) ← (p i).run (storeCall al) m.store
  some ⟨s, storeInode i m.inodes⟩

/-- **The calls of a client.** -/
def step (al : Allocator sb) (m : System) : Act → Option System
  | .alloc type => ((inodeAlloc sb type).run (storeCall al) m.store).map fun r => ⟨r.2, m.inodes⟩
  | .get inodeNo a =>
    ((inodeGet sb m.inodes a inodeNo).run (storeCall al) m.store).map fun r => ⟨r.2, r.1.2⟩
  | .share a => (findInode a m.inodes).map fun i => ⟨m.store, inodeShare m.inodes i⟩
  | .put a => do
    let i ← findInode a m.inodes
    let (l, s) ← (inodePut sb m.inodes i).run (storeCall al) m.store
    some ⟨s, l⟩
  | .write a src offset => onInode al m a fun i => do
    let (_, i) ← inodeWrite sb i src offset
    pure i
  | .clear a => onInode al m a (inodeClear sb)
  | .insert a name inodeNo junk => onInode al m a fun i => do
    let (_, i) ← inodeInsert sb i name inodeNo junk
    pure i
  | .remove a index => onInode al m a fun i => inodeRemove sb i index

/-- The client has a reference to the inode at `a`. -/
def Referenced (m : System) (a : ℕ) : Prop := ∃ i, findInode a m.inodes = some i ∧ 0 < i.rc

variable (sb) in
/-- The rules for the client: it gets inodes that are in use, and uses pointers for which it has a
reference. `kalloc` gives an address that is not in use, and a length is a `usize`. -/
def Client (m : System) : Act → Prop
  | .alloc _ => True
  | .get inodeNo a =>
    (tableEntry sb m.store.blocks inodeNo).type ≠ inodeInvalid ∧ ∀ i ∈ m.inodes, i.addr ≠ a
  | .write a src _ => Referenced m a ∧ src.length < 2 ^ 64
  | .share a | .put a | .clear a | .insert a _ _ _ | .remove a _ => Referenced m a

variable (sb) in
/-- The cached inodes: those with a reference are copies, and there is one of them for an inode. -/
structure Cached (b : Disk) (l : List Inode) : Prop where
  addrs : (l.map Inode.addr).Nodup
  copy : ∀ i ∈ l, 0 < i.rc → Copy sb b i
  unique : ∀ i ∈ l, ∀ j ∈ l, 0 < i.rc → 0 < j.rc → i.inodeNo = j.inodeNo → i = j

variable {l : List Inode} {b b' : Disk}

theorem findInode_some (h : findInode a l = some i) : i ∈ l ∧ i.addr = a := mem_of_lookup h

theorem mem_storeInode {x : Inode} : x ∈ storeInode i' l ↔ ∃ j ∈ l, x = if j.addr = i'.addr then i' else j :=
  mem_modifyAt

theorem Copy.of_table (h : Copy sb b i) (ht : tableEntry sb b' i.inodeNo = tableEntry sb b i.inodeNo) :
    Copy sb b' i :=
  ⟨h.valid, by rw [ht]; exact h.entry, h.live.1, by rw [ht]; exact h.live.2⟩

/-- **A cached inode changes**, and so may its entry. -/
theorem Cached.store (h : Cached sb b l) (hi : i ∈ l) (hpos : 0 < i.rc) (ha : i'.addr = i.addr)
    (hn : i'.inodeNo = i.inodeNo) (hcopy : 0 < i'.rc → Copy sb b' i')
    (ht : ∀ j ≠ i.inodeNo, j < sb.numInodes → tableEntry sb b' j = tableEntry sb b j) :
    Cached sb b' (storeInode i' l) := by
  have hother : ∀ j ∈ l, j.addr ≠ i'.addr → 0 < j.rc → j.inodeNo ≠ i.inodeNo := by
    intro j hj hja hjr he
    rw [h.unique j hj i hi hjr hpos he] at hja
    exact hja ha.symm
  refine ⟨?_, fun x hx hr => ?_, fun x hx y hy hrx hry hxy => ?_⟩
  · have : (storeInode i' l).map Inode.addr = l.map Inode.addr := map_modifyAt _ (fun j hj => hj.symm) l
    rw [this]
    exact h.addrs
  · obtain ⟨j, hj, rfl⟩ := mem_storeInode.mp hx
    by_cases hja : j.addr = i'.addr
    · rw [if_pos hja] at hr ⊢
      exact hcopy hr
    · rw [if_neg hja] at hr ⊢
      have hc := h.copy j hj hr
      exact hc.of_table (ht _ (hother j hj hja hr) hc.live.1)
  · obtain ⟨j, hj, rfl⟩ := mem_storeInode.mp hx
    obtain ⟨k, hk, rfl⟩ := mem_storeInode.mp hy
    by_cases hja : j.addr = i'.addr <;> by_cases hka : k.addr = i'.addr
    · rw [if_pos hja, if_pos hka]
    · rw [if_pos hja, if_neg hka] at hxy
      rw [if_neg hka] at hry
      exact absurd (hxy.symm.trans hn) (hother k hk hka hry)
    · rw [if_neg hja, if_pos hka] at hxy
      rw [if_neg hja] at hrx
      exact absurd (hxy.trans hn) (hother j hj hja hrx)
    · rw [if_neg hja] at hrx hxy ⊢
      rw [if_neg hka] at hry hxy ⊢
      exact h.unique j hj k hk hrx hry hxy

variable (sb) in
/-- **The invariant.** -/
structure Inv (m : System) : Prop where
  consistent : Consistent sb m.store
  cached : Cached sb m.store.blocks m.inodes

variable {m m' : System}

theorem inv_of_written {p : Inode → FsProg Inode} (h : Inv sb m) (hr : Referenced m a)
    (hp : ∀ i, Copy sb m.store.blocks i → Prog.Meets (storeCall al) True (p i) m.store fun i' s' =>
      Written sb m.store i s' i') (hs : onInode al m a p = some m') : Inv sb m' := by
  obtain ⟨i, hf, hpos⟩ := hr
  obtain ⟨hi, -⟩ := findInode_some hf
  have hcopy := h.cached.copy i hi hpos
  simp only [onInode, hf, Option.bind_eq_bind, Option.bind_some, Option.bind_eq_some_iff,
    Option.some.injEq] at hs
  obtain ⟨⟨i', s'⟩, hrun, rfl⟩ := hs
  obtain ⟨hc, hch, hcopy', hi'⟩ := h.consistent.written hcopy ((hp i hcopy).of_run hrun)
  refine ⟨hc, h.cached.store hi hpos ?_ ?_ (fun _ => hcopy') hch.table⟩
  · rw [hi']
  · rw [hi']

theorem inv_clear (h : Inv sb m) (hr : Referenced m a) (hs : step al m (.clear a) = some m') :
    Inv sb m' := by
  obtain ⟨i, hf, hpos⟩ := hr
  obtain ⟨hi, -⟩ := findInode_some hf
  have hcopy := h.cached.copy i hi hpos
  simp only [step, onInode, hf, Option.bind_eq_bind, Option.bind_some, Option.bind_eq_some_iff,
    Option.some.injEq] at hs
  obtain ⟨⟨i', s'⟩, hrun, rfl⟩ := hs
  obtain ⟨s₁, hcl⟩ := (inodeClear_meets (F := True)).of_run hrun
  obtain ⟨rfl, rfl⟩ := hcl.stored hcopy.valid
  obtain ⟨hc, hch, -⟩ := h.consistent.cleared hcopy.live hcopy.entry hcl
    (Or.inr ⟨rfl, fun b x => refs_cleared b i.entry x⟩)
  refine ⟨hc, h.cached.store hi hpos rfl rfl (fun _ => ?_) hch.table⟩
  have he : tableEntry sb (putEntry sb s₁ i.inodeNo (cleared i.entry)).blocks i.inodeNo = cleared i.entry := by
    rw [tableEntry_putEntry, if_pos rfl]
  refine ⟨hcopy.valid, he.symm, hcopy.live.1, ?_⟩
  show (tableEntry sb (putEntry sb s₁ i.inodeNo (cleared i.entry)).blocks i.inodeNo).type ≠ _
  rw [he]
  show i.entry.type ≠ _
  rw [hcopy.entry]
  exact hcopy.live.2

theorem inv_alloc {type : UInt16} (h : Inv sb m) (hs : step al m (.alloc type) = some m') : Inv sb m' := by
  simp only [step, Option.map_eq_some_iff] at hs
  obtain ⟨⟨k, s'⟩, hrun, rfl⟩ := hs
  obtain ⟨-, hlt, htype, hfree, rfl⟩ := inodeAlloc_meets.of_run hrun
  refine ⟨h.consistent.alloc hlt hfree type, h.cached.addrs, fun i hi hpos => ?_, h.cached.unique⟩
  have hcopy := h.cached.copy i hi hpos
  refine hcopy.of_table ?_
  rw [tableEntry_putEntry, if_neg]
  rintro rfl
  exact hcopy.live.2 hfree

theorem inv_share (h : Inv sb m) (hr : Referenced m a) (hs : step al m (.share a) = some m') :
    Inv sb m' := by
  obtain ⟨i, hf, hpos⟩ := hr
  obtain ⟨hi, -⟩ := findInode_some hf
  have hcopy := h.cached.copy i hi hpos
  simp only [step, hf, Option.map_some, Option.some.injEq] at hs
  subst hs
  exact ⟨h.consistent, h.cached.store hi hpos rfl rfl
    (fun _ => ⟨hcopy.valid, hcopy.entry, hcopy.live⟩) fun _ _ _ => rfl⟩

/-- **`inode_get`**: the cached inode, or a new copy of the entry. -/
theorem inodeGet_meets :
    Prog.Meets (storeCall al) True (inodeGet sb l a k) s fun r s' => k < sb.numInodes ∧ s' = s ∧
      ((∃ i, fetchInode k l = some i ∧ r.2 = storeInode { i with rc := i.rc + 1 } l) ∨
        fetchInode k l = none ∧ r.2 = l ++ [⟨a, 1, k, true, tableEntry sb s.blocks k⟩]) := by
  unfold inodeGet
  refine Prog.meets_bind (Prog.meets_check (fun _ => ?_) fun _ => trivial)
  refine Prog.meets_bind (Prog.meets_check (fun hlt => ?_) fun _ => trivial)
  rcases hf : fetchInode k l with _ | i
  · exact Prog.meets_bind (Prog.meets_of_run (run_inodeSync_load rfl)
      (Prog.meets_pure ⟨hlt, rfl, Or.inr ⟨rfl, rfl⟩⟩))
  · exact Prog.meets_pure ⟨hlt, rfl, Or.inl ⟨i, rfl, rfl⟩⟩

theorem inv_get (h : Inv sb m) (hc : Client sb m (.get k a))
    (hs : step al m (.get k a) = some m') : Inv sb m' := by
  obtain ⟨htype, hfresh⟩ := hc
  simp only [step, Option.map_eq_some_iff] at hs
  obtain ⟨⟨⟨a', l⟩, s'⟩, hrun, rfl⟩ := hs
  obtain ⟨hlt, rfl, ⟨i, hf, rfl⟩ | ⟨hf, rfl⟩⟩ := inodeGet_meets.of_run hrun
  · have hi := mem_rotate.mp (mem_of_find?_eq_some hf)
    have hprop := find?_some hf
    simp only [decide_eq_true_eq] at hprop
    have hcopy := h.cached.copy i hi hprop.2.1
    exact ⟨h.consistent, h.cached.store hi hprop.2.1 rfl rfl
      (fun _ => ⟨hcopy.valid, hcopy.entry, hcopy.live⟩) fun _ _ _ => rfl⟩
  · -- no cached inode with a reference has the number
    have hnone : ∀ i ∈ m.inodes, 0 < i.rc → i.inodeNo ≠ k := by
      intro i hi hpos he
      have := find?_eq_none.mp hf i (mem_rotate.mpr hi)
      simp [he, hpos, (h.cached.copy i hi hpos).valid] at this
    refine ⟨h.consistent, ?_, fun i hi hpos => ?_, fun i hi j hj hri hrj he => ?_⟩
    · rw [map_append, nodup_append]
      refine ⟨h.cached.addrs, by simp, fun x hx y hy => ?_⟩
      obtain ⟨i, hi, rfl⟩ := mem_map.mp hx
      obtain rfl : y = a := by simpa using hy
      exact hfresh i hi
    · rcases mem_append.mp hi with hi | hi
      · exact h.cached.copy i hi hpos
      · obtain rfl := mem_singleton.mp hi
        exact ⟨rfl, rfl, hlt, htype⟩
    · rcases mem_append.mp hi with hi | hi <;> rcases mem_append.mp hj with hj | hj
      · exact h.cached.unique i hi j hj hri hrj he
      · obtain rfl := mem_singleton.mp hj
        exact absurd he (hnone i hi hri)
      · obtain rfl := mem_singleton.mp hi
        exact absurd he.symm (hnone j hj hrj)
      · rw [mem_singleton.mp hi, mem_singleton.mp hj]

def LastPut (i : Inode) : Prop := i.rc = 1 ∧ i.entry.numLinks = 0 ∧ i.valid = true

/-- **`inode_put`.** -/
theorem inodePut_meets : Prog.Meets (storeCall al) True (inodePut sb l i) s fun l' s' =>
      (LastPut i ∧ ∃ s₁ s₂ i₂, Cleared sb s { i with valid := false } s₁ s₂ i₂ ∧
        s' = putEntry sb s₁ i.inodeNo { tableEntry sb s₁.blocks i.inodeNo with type := inodeInvalid } ∧
        l' = l.eraseP fun j => j.addr = i.addr) ∨
      (¬ LastPut i ∧ s' = s ∧ l' = storeInode { i with rc := i.rc - 1 } l) := by
  unfold inodePut
  by_cases hlast : i.rc = 1 ∧ i.entry.numLinks = 0 ∧ i.valid = true
  · rw [if_pos hlast]
    refine Prog.meets_bind (inodeClear_meets.mono ?_)
    rintro i₂ s₂ ⟨s₁, hcl⟩
    obtain ⟨rfl, rfl⟩ := hcl.loaded rfl
    refine Prog.meets_bind (Prog.meets_of_run (run_inodeSync_store rfl) (Prog.meets_pure ?_))
    exact Or.inl ⟨hlast, _, _, _, hcl, rfl, rfl⟩
  · rw [if_neg hlast]
    exact Prog.meets_pure (Or.inr ⟨hlast, rfl, rfl⟩)

/-- The inode and its blocks are free again. -/
structure FreedBy (sb : SuperBlock) (i : Inode) (s s' : Store) : Prop where
  frees : s'.frees = (freed s.blocks i.entry).reverse ++ s.frees
  once : (freed s.blocks i.entry).Nodup
  table : (tableEntry sb s'.blocks i.inodeNo).type = inodeInvalid

theorem inv_put (h : Inv sb m) (hr : Referenced m a) (hs : step al m (.put a) = some m') :
    Inv sb m' ∧ ∀ i, findInode a m.inodes = some i → LastPut i → FreedBy sb i m.store m'.store := by
  obtain ⟨i, hf, hpos⟩ := hr
  obtain ⟨hi, rfl⟩ := findInode_some hf
  have hcopy := h.cached.copy i hi hpos
  simp only [step, hf, Option.bind_eq_bind, Option.bind_some, Option.bind_eq_some_iff,
    Option.some.injEq] at hs
  obtain ⟨⟨l, s'⟩, hrun, rfl⟩ := hs
  rcases inodePut_meets.of_run hrun with ⟨hlast, s₁, s₂, i₂, hcl, rfl, rfl⟩ | ⟨hnot, rfl, rfl⟩
  · obtain ⟨hc, hch, -⟩ := h.consistent.cleared (i := { i with valid := false })
      (d := { tableEntry sb s₁.blocks i.inodeNo with type := inodeInvalid }) hcopy.live hcopy.entry hcl
      (Or.inl rfl)
    refine ⟨⟨hc, ?_, fun j hj hrj => ?_, fun j hj k hk => ?_⟩, fun j hj _ => ?_⟩
    · exact h.cached.addrs.sublist (eraseP_sublist.map _)
    · -- the inodes that stay have other numbers
      have hjl := mem_of_mem_eraseP hj
      have hcj := h.cached.copy j hjl hrj
      refine hcj.of_table (hch.table _ (fun he => ?_) hcj.live.1)
      obtain rfl := h.cached.unique j hjl i hi hrj hpos he
      exact ne_of_mem_eraseP h.cached.addrs hj rfl
    · exact h.cached.unique j (mem_of_mem_eraseP hj) k (mem_of_mem_eraseP hk)
    · obtain rfl : i = j := by
        rw [hf] at hj
        exact Option.some.inj hj
      refine ⟨?_, nodup_freed (s := m.store) ?_, ?_⟩
      · have := congrArg Store.frees hcl.books
        rwa [dropAll_eq] at this
      · have := h.consistent.file hcopy.live
        rwa [← hcopy.entry] at this
      · show (tableEntry sb (putEntry sb s₁ i.inodeNo _).blocks i.inodeNo).type = _
        rw [tableEntry_putEntry, if_pos rfl]
  · refine ⟨⟨h.consistent, h.cached.store hi hpos rfl rfl
      (fun _ => ⟨hcopy.valid, hcopy.entry, hcopy.live⟩) fun _ _ _ => rfl⟩, fun j hj hlast => ?_⟩
    rw [hf] at hj
    obtain rfl := Option.some.inj hj
    exact absurd hlast hnot

/-- **Every call keeps the invariant.** -/
theorem inv_step (h : Inv sb m) (hc : Client sb m c) (hs : step al m c = some m') : Inv sb m' := by
  have hown : ∀ i, Copy sb m.store.blocks i → Owned m.store.used (refs m.store.blocks i.entry) := by
    intro i hi
    rw [hi.entry]
    exact h.consistent.file hi.live
  cases c with
  | alloc type => exact inv_alloc h hs
  | get k a => exact inv_get h hc hs
  | share a => exact inv_share h hc hs
  | put a => exact (inv_put h hc hs).1
  | write a src off =>
    refine inv_of_written h hc.1 (fun i hi => ?_) hs
    refine Prog.meets_bind ((inodeWrite_written hi.valid (hown i hi) hc.2).mono fun r s' hw => ?_)
    exact Prog.meets_pure hw
  | clear a => exact inv_clear h hc hs
  | insert a name no junk =>
    refine inv_of_written h hc (fun i hi => ?_) hs
    refine Prog.meets_bind ((inodeInsert_written hi.valid (hown i hi)).mono fun r s' hw => ?_)
    exact Prog.meets_pure hw
  | remove a index =>
    exact inv_of_written h hc (fun i hi => inodeRemove_written hi.valid (hown i hi)) hs

/-- **Block accounting.** From a consistent image with no inode in memory, after every sequence of
calls of a client: no block is referenced twice by the inodes in use, what they reference is marked
used, and every block marked used is referenced by one of them; an inode in memory to which there is a
reference is a copy of its entry; and a call that gives up the last reference to an inode without links
gives each of its blocks back once and marks the inode as free. -/
theorem accounting {s₀ : Store} {cs : List Act} (h₀ : Consistent sb s₀)
    (hr : Run (step al) (Client sb) ⟨s₀, []⟩ cs m) :
    (∀ j k x y, Live sb m.store.blocks j → Live sb m.store.blocks k →
      refs m.store.blocks (tableEntry sb m.store.blocks j) x ≠ 0 →
      refs m.store.blocks (tableEntry sb m.store.blocks j) x =
        refs m.store.blocks (tableEntry sb m.store.blocks k) y → j = k ∧ x = y) ∧
    (∀ n, n ∈ m.store.used ↔ n ≠ 0 ∧ ∃ k x, Live sb m.store.blocks k ∧
      refs m.store.blocks (tableEntry sb m.store.blocks k) x = n) ∧
    (∀ i ∈ m.inodes, 0 < i.rc → i.entry = tableEntry sb m.store.blocks i.inodeNo) ∧
    ∀ a m' i, Client sb m (.put a) → step al m (.put a) = some m' → findInode a m.inodes = some i →
      i.rc = 1 → i.entry.numLinks = 0 → ∃ ns : List ℕ, m'.store.frees = ns ++ m.store.frees ∧ ns.Nodup ∧
        (∀ n, n ∈ ns ↔ n ≠ 0 ∧ ∃ x, refs m.store.blocks i.entry x = n) ∧
        ¬ Live sb m'.store.blocks i.inodeNo := by
  have hinit : Inv sb ⟨s₀, []⟩ := ⟨h₀, nodup_nil, by simp, by simp⟩
  have h : Inv sb m := hr.inv (fun _ _ _ hi hc hs => inv_step hi hc hs) hinit
  refine ⟨fun j k x y hj hk hx he => ?_, fun n => ⟨fun hn => ?_, ?_⟩, fun i hi hpos => ?_, ?_⟩
  · by_cases hjk : j = k
    · subst hjk
      exact ⟨rfl, (h.consistent.file hj).inj hx he⟩
    · exact absurd he (h.consistent.separate hk hj hjk x y hx)
  · obtain ⟨h0, ⟨k, x⟩, hx⟩ := h.consistent.exact n hn
    have hx' : liveRefs sb m.store.blocks k x = n := hx
    by_cases hk : Live sb m.store.blocks k
    · rw [liveRefs_of_live hk] at hx'
      exact ⟨h0, k, x, hk, hx'⟩
    · rw [liveRefs, if_neg hk] at hx'
      exact absurd hx'.symm h0
  · rintro ⟨hn, k, x, hk, rfl⟩
    exact (h.consistent.file hk).mem hn
  · exact (h.cached.copy i hi hpos).entry
  · intro a m' i hc hs hf h1 hl
    have hcopy := h.cached.copy i (findInode_some hf).1 (by omega)
    obtain ⟨hfr, honce, htab⟩ := (inv_put h hc hs).2 i hf ⟨h1, hl, hcopy.valid⟩
    refine ⟨_, hfr, nodup_reverse.mpr honce, fun n => ?_, fun hlive => hlive.2 htab⟩
    rw [mem_reverse, mem_freed]

/-! ### A short run on the layout of `user/mkfs` -/

theorem not_live_of_zero {b : Disk} (h : ∀ i, b (toBlockNo sb k) i = 0) : ¬ Live sb b k := by
  rintro ⟨-, hk⟩
  refine hk ?_
  show UInt16.ofNat (leVal 2 _) = _
  rw [leVal_congr 2 (g := leByte 0) fun j _ => ?_]
  · rfl
  · simp [Buf.byte, h, leByte]

theorem consistent_of_not_live (hu : s.used = ∅) (hdead : ∀ k, ¬ Live sb s.blocks k) : Consistent sb s := by
  have h0 : ∀ p, Function.uncurry (liveRefs sb s.blocks) p = 0 := fun p => by
    show liveRefs sb s.blocks p.1 p.2 = 0
    rw [liveRefs, if_neg (hdead p.1)]
  exact ⟨⟨fun hx => absurd (h0 _) hx, fun hx => absurd (h0 _) hx⟩, by simp [Exact, hu],
    by simp [hu], fun k hk => absurd hk (hdead k), fun k hk => absurd hk (hdead k)⟩

theorem consistent_blank : Consistent mkfsLayout blank :=
  consistent_of_not_live rfl fun _ => not_live_of_zero fun _ => rfl

def clientTest (m : System) : Act → Bool
  | .alloc _ => true
  | .get inodeNo a => decide ((tableEntry mkfsLayout m.store.blocks inodeNo).type ≠ inodeInvalid) &&
    m.inodes.all fun i => i.addr ≠ a
  | .write a src _ => ((findInode a m.inodes).any fun i => 0 < i.rc) && decide (src.length < 2 ^ 64)
  | .share a | .put a | .clear a | .insert a _ _ _ | .remove a _ =>
    (findInode a m.inodes).any fun i => 0 < i.rc

theorem referenced_of_any (h : ((findInode a m.inodes).any fun i => decide (0 < i.rc)) = true) :
    Referenced m a := by
  obtain ⟨i, hi, hpos⟩ := (Option.any_eq_true _ _).mp h
  exact ⟨i, hi, by simpa using hpos⟩

theorem client_of_test (h : clientTest m c = true) : Client mkfsLayout m c := by
  cases c with
  | alloc type => trivial
  | get k a =>
    simp only [clientTest, Bool.and_eq_true, decide_eq_true_eq, all_eq_true] at h
    exact h
  | write a src off =>
    simp only [clientTest, Bool.and_eq_true, decide_eq_true_eq] at h
    exact ⟨referenced_of_any h.1, h.2⟩
  | share a | put a | clear a | insert a _ _ _ | remove a _ => exact referenced_of_any h

def shortRun : List Act :=
  [.alloc inodeRegular, .get 1 7, .write 7 [1, 2, 3] 0, .share 7, .write 7 [4] 3, .put 7]

theorem accounting_shortRun : ∃ m m' : System, Consistent mkfsLayout blank ∧
      Run (step firstFit) (Client mkfsLayout) ⟨blank, []⟩ shortRun m ∧
      step firstFit m (.put 7) = some m' ∧ m.store.used = {92} ∧ m'.store.frees = [92] ∧
      (∃ k x, Live mkfsLayout m.store.blocks k ∧
        refs m.store.blocks (tableEntry mkfsLayout m.store.blocks k) x = 92) ∧
      ¬ Live mkfsLayout m'.store.blocks 1 := by
  have hex : (exec (step firstFit) clientTest ⟨blank, []⟩ shortRun).any (fun m =>
      m.store.used = {92} ∧ clientTest m (.put 7) ∧
      ((findInode 7 m.inodes).any fun i => i.rc = 1 ∧ i.entry.numLinks = 0 ∧ i.inodeNo = 1) ∧
      (step firstFit m (.put 7)).any fun m' => m'.store.frees = [92]) = true := by decide +kernel
  obtain ⟨m, hm, hp⟩ := (Option.any_eq_true _ _).mp hex
  simp only [decide_eq_true_eq] at hp
  obtain ⟨hused, hput, hi, hm'⟩ := hp
  obtain ⟨i, hf, hi⟩ := (Option.any_eq_true _ _).mp hi
  obtain ⟨m', hs, hfr⟩ := (Option.any_eq_true _ _).mp hm'
  simp only [decide_eq_true_eq] at hi hfr
  have hr : Run (step firstFit) (Client mkfsLayout) ⟨blank, []⟩ shortRun m :=
    run_of_exec (fun _ _ h => client_of_test h) hm
  obtain ⟨-, hiff, -, hlast⟩ := accounting consistent_blank hr
  obtain ⟨ns, -, -, -, hdead⟩ := hlast 7 m' i (client_of_test hput) hs hf hi.1 hi.2.1
  rw [hi.2.2] at hdead
  exact ⟨m, m', consistent_blank, hr, hs, hused, hfr, ((hiff 92).mp (by simp [hused])).2, hdead⟩

end OsHonor.Fs.Inodes.Accounting
