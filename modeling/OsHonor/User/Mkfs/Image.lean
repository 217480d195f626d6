import OsHonor.Fs.Cache.Bitmap
import OsHonor.User.Mkfs.Append

/-! # What `mkfs` leaves on the image

`Built m c`: the image is consistent, the inodes given out are in use, inode `k` holds the bytes `c k`,
and it has just the blocks that these need. Every step of `mkfs` keeps this (`ialloc_built`,
`iappend_built`), and the cursor `freeblock` moves by the blocks that a file gets: a file of `size` bytes
has `blocksFor size` of them. -/

namespace OsHonor.User.Mkfs.Image

open List Function Base.Bytes Base.Refs Fs.BlockDevice
open Fs.Inodes.Format Fs.Inodes.Code Fs.Inodes.BlockStore
open Fs.Inodes.Files Fs.Inodes.Contents Fs.Inodes.Accounting
open Code Mkfs.Append
open Fs.Cache.Bitmap (bitPerBlock bitmapGet bitmapGet_eq)

/-! ### Counting blocks -/

/-- The blocks of a file of `size` bytes: the data blocks, and the indirect block. -/
def blocksFor (size : ℕ) : ℕ :=
  (size + blockSize - 1) / blockSize + if numDirect * blockSize < size then 1 else 0

theorem blocksFor_mono {a b : ℕ} (h : a ≤ b) : blocksFor a ≤ blocksFor b := by
  have hdiv : (a + blockSize - 1) / blockSize ≤ (b + blockSize - 1) / blockSize :=
    Nat.div_le_div_right (by omega)
  unfold blocksFor
  split_ifs <;> omega

theorem slotsIn_zero_eq (size : ℕ) : slotsIn 0 size =
    (Finset.range ((size + blockSize - 1) / blockSize)).image dataSlot ∪
      if numDirect * blockSize < size then {.indirect} else ∅ := by
  ext x
  simp only [slotsIn, Finset.mem_biUnion, Finset.mem_union, Finset.mem_image, Finset.mem_range,
    Finset.mem_Ico, Nat.zero_add, Nat.zero_le, true_and]
  unfold numDirect blockSize
  constructor
  · rintro ⟨p, hp, hx⟩
    unfold slotsFor numDirect at hx
    split_ifs at hx with hd
    · exact Or.inl ⟨p / 512, by omega, (Finset.mem_singleton.mp hx).symm⟩
    · rcases Finset.mem_insert.mp hx with rfl | hx
      · exact Or.inr (by rw [if_pos (by omega)]; simp)
      · exact Or.inl ⟨p / 512, by omega, (Finset.mem_singleton.mp hx).symm⟩
  · rintro (⟨i, hi, rfl⟩ | hx)
    · refine ⟨i * 512, by omega, ?_⟩
      rw [Nat.mul_div_cancel _ (by omega)]
      exact mem_slotsFor i
    · split_ifs at hx with h
      · rw [Finset.mem_singleton.mp hx]
        exact ⟨12 * 512, h, by decide⟩
      · simp at hx

theorem card_slotsIn {size : ℕ} (h : size ≤ inodeMaxBytes) : (slotsIn 0 size).card = blocksFor size := by
  have hk : (size + blockSize - 1) / blockSize ≤ inodeMaxBlocks := by
    have h' : size ≤ 71680 := h
    show (size + 512 - 1) / 512 ≤ 140
    omega
  have hcard : ((Finset.range ((size + blockSize - 1) / blockSize)).image dataSlot).card =
      (size + blockSize - 1) / blockSize := by
    rw [Finset.card_image_of_injOn, Finset.card_range]
    intro i _ j hj he
    have hj' : j < (size + blockSize - 1) / blockSize := by simpa using hj
    exact dataSlot_inj (by omega) he
  rw [slotsIn_zero_eq, blocksFor, Finset.card_union_of_disjoint, hcard]
  · split_ifs <;> rfl
  · split_ifs
    · rw [Finset.disjoint_singleton_right, Finset.mem_image]
      rintro ⟨i, hi, he⟩
      exact dataSlot_ne_indirect (lt_of_lt_of_le (Finset.mem_range.mp hi) hk) he
    · exact Finset.disjoint_empty_right _

def Tight (b : Disk) (e : Dinode) : Prop := ∀ x, refs b e x ≠ 0 ↔ x ∈ slotsIn 0 e.numBytes.toNat

variable {e : Dinode} {n : ℕ} {p : List UInt8} {files : List InputFile}

theorem Tight.cost {b : Disk} (h : Tight b e)
    (hmax : e.numBytes.toNat + n ≤ inodeMaxBytes) :
    missing (refs b e) (slotsIn e.numBytes.toNat n) + blocksFor e.numBytes.toNat =
      blocksFor (e.numBytes.toNat + n) := by
  have hsize : e.numBytes.toNat ≤ inodeMaxBytes := by omega
  have hnew : ((slotsIn e.numBytes.toNat n).filter fun x => refs b e x = 0) =
      slotsIn e.numBytes.toNat n \ slotsIn 0 e.numBytes.toNat := by
    ext x
    have := not_congr (h x)
    simp only [not_not] at this
    rw [Finset.mem_filter, Finset.mem_sdiff, this]
  unfold missing
  rw [← card_slotsIn hmax, ← card_slotsIn hsize, slotsIn_add, Nat.zero_add, hnew,
    ← Finset.union_sdiff_self_eq_union, Finset.card_union_of_disjoint Finset.disjoint_sdiff, Nat.add_comm]

/-! ### Images under construction -/

/-- Inode `k` is in use and holds the bytes `l`, in just the blocks that these need. -/
structure Holds (b : Disk) (k : ℕ) (l : List UInt8) : Prop where
  live : Live mkfsLayout b k
  type : (tableEntry mkfsLayout b k).type = if k = rootInodeNo then inodeDirectory else inodeRegular
  contents : contents b (tableEntry mkfsLayout b k) = l
  tight : Tight b (tableEntry mkfsLayout b k)

variable {b b' : Disk} {m m' : Image} {c : ℕ → List UInt8} {k : ℕ} {l : List UInt8}

theorem Holds.size (h : Holds b k l) : (tableEntry mkfsLayout b k).numBytes.toNat = l.length := by
  rw [← h.contents, length_contents]

theorem Holds.of_agree (h : Holds b k l) (hm : Mapped b (tableEntry mkfsLayout b k))
    (ht : tableEntry mkfsLayout b' k = tableEntry mkfsLayout b k)
    (ha : Agree b b' (tableEntry mkfsLayout b k)) : Holds b' k l where
  live := ⟨h.live.1, by rw [ht]; exact h.live.2⟩
  type := by rw [ht]; exact h.type
  contents := by rw [ht, ha.contents_eq hm]; exact h.contents
  tight x := by rw [ht, ha.refs_eq]; exact h.tight x

/-- **The image under construction**: inode `k` holds the bytes `c k`. -/
structure Built (m : Image) (c : ℕ → List UInt8) : Prop where
  fresh : Fresh m
  consistent : Consistent mkfsLayout (storeOf m)
  pos : 1 ≤ m.freeinode
  le : m.freeinode ≤ ninodes
  live : ∀ k < ninodes, Live mkfsLayout m.disk k ↔ 1 ≤ k ∧ k < m.freeinode
  holds : ∀ k, Live mkfsLayout m.disk k → Holds m.disk k (c k)
  low : ∀ n < inodeStart, m.disk n = format.disk n

theorem Built.file (h : Built m c) (h1 : 1 ≤ k) (hk : k < m.freeinode) : Holds m.disk k (c k) :=
  h.holds k ((h.live k (lt_of_lt_of_le hk h.le)).mpr ⟨h1, hk⟩)

theorem Built.change (h : Built m c) (hch : ChangesOnly mkfsLayout k (storeOf m) (storeOf m'))
    (hfresh : Fresh m') (hcons : Consistent mkfsLayout (storeOf m')) (h1 : 1 ≤ k) (hk : k < m'.freeinode)
    (hle : m'.freeinode ≤ ninodes) (hnext : ∀ j, j ≠ k → (j < m'.freeinode ↔ j < m.freeinode))
    (hl : Holds m'.disk k l) (hlow : ∀ n < inodeStart, m'.disk n = m.disk n) :
    Built m' (update c k l) := by
  refine ⟨hfresh, hcons, by omega, hle, fun j hj => ?_, fun j hlive => ?_,
    fun n hn => (hlow n hn).trans (h.low n hn)⟩
  · by_cases hjk : j = k
    · subst hjk
      exact iff_of_true hl.live ⟨h1, hk⟩
    · rw [hnext j hjk, ← h.live j hj]
      exact hch.live_iff hjk
  · by_cases hjk : j = k
    · subst hjk
      rw [update_self]
      exact hl
    · have hlive' := (hch.live_iff hjk).mp hlive
      rw [update_of_ne hjk]
      exact (h.holds j hlive').of_agree (h.consistent.mapped j hlive') (hch.table j hjk hlive.1)
        (hch.agree j hjk hlive')

/-! ### `ialloc` -/

/-- **`ialloc`** gives out the next inode, which holds nothing. -/
theorem ialloc_built {type : UInt16} (h : Built m c) (hk : m.freeinode < ninodes)
    (ht : type = if m.freeinode = rootInodeNo then inodeDirectory else inodeRegular) :
    ∃ m', ialloc m type = some (m.freeinode, m') ∧ Built m' (update c m.freeinode []) ∧
      m'.freeinode = m.freeinode + 1 ∧ m'.freeblock = m.freeblock := by
  set d : Dinode := { Dinode.zero with type := type, numLinks := 1 } with hd
  set m₁ : Image := { m with freeinode := m.freeinode + 1 } with hm₁
  have hzero : ∀ b x, refs b d x = 0 := fun b x => by cases x <;> rfl
  have hfree : ¬ Live mkfsLayout m.disk m.freeinode := fun hl =>
    absurd ((h.live _ hk).mp hl).2 (Nat.lt_irrefl _)
  have hs : storeOf (putInode m₁ m.freeinode d) = putEntry mkfsLayout (storeOf m) m.freeinode d :=
    storeOf_putInode m₁ _ d
  have hdisk : (putInode m₁ m.freeinode d).disk = (putEntry mkfsLayout (storeOf m) m.freeinode d).blocks := by
    rw [← hs]
    rfl
  have hentry : tableEntry mkfsLayout (putInode m₁ m.freeinode d).disk m.freeinode = d := by
    rw [hdisk, tableEntry_putEntry, if_pos rfl]
  have hne : type ≠ inodeInvalid := by
    rw [ht]
    split_ifs <;> decide
  have hl : Holds (putInode m₁ m.freeinode d).disk m.freeinode [] := by
    refine ⟨⟨hk, by rw [hentry]; exact hne⟩, by rw [hentry]; exact ht, ?_, fun x => ?_⟩
    · rw [hentry]
      exact eq_nil_of_length_eq_zero (length_contents _ _)
    · rw [hentry, hzero]
      exact iff_of_false (fun hx => hx rfl) (show x ∉ slotsIn 0 0 by rw [slotsIn_zero]; exact Finset.notMem_empty x)
  have hfresh : Fresh m₁ := ⟨h.fresh.zero, h.fresh.ge, h.fresh.le⟩
  refine ⟨putInode m₁ m.freeinode d, ?_, ?_, rfl, rfl⟩
  · unfold ialloc
    rw [← hm₁, ← hd, winode_eq m₁ hk]
    rfl
  · refine h.change (k := m.freeinode) ?_ (hfresh.putInode hk d) ?_ h.pos (Nat.lt_succ_self _) hk (fun j hj => ?_) hl
      fun n hn => update_of_ne (ne_of_lt (lt_of_lt_of_le hn (Nat.le_add_left _ _))) _ _
    · rw [hs]
      exact changesOnly_putEntry_self h.consistent hk d
    · rw [hs]
      exact h.consistent.putEmpty hk hfree hzero rfl
    · show j < m.freeinode + 1 ↔ j < m.freeinode
      omega

/-! ### `iappend` -/

theorem spliceAt_length (l p : List UInt8) : spliceAt l.length p l = l ++ p := by
  simp [spliceAt]

theorem holds_of_wrote {s₁ : Store} {e₁ : Dinode} (h : Built m c)
    (hl : Holds m.disk k l) (hp : p ≠ []) (hmax : l.length + p.length ≤ inodeMaxBytes)
    (hw : Wrote mkfsLayout (storeOf m) (tableEntry mkfsLayout m.disk k) s₁ e₁ l.length p)
    (hfill : Fills (refs m.disk (tableEntry mkfsLayout m.disk k)) (refs s₁.blocks e₁)
      (slotsIn l.length p.length))
    (hlive : Live mkfsLayout b k) (htab : tableEntry mkfsLayout b k = resize e₁ (l.length + p.length))
    (hag : Agree s₁.blocks b (resize e₁ (l.length + p.length))) : Holds b k (l ++ p) := by
  have hpos : 0 < p.length := length_pos_of_ne_nil hp
  have hmap := h.consistent.mapped k hl.live
  have hnum : e₁.numBytes = (tableEntry mkfsLayout m.disk k).numBytes := by rw [hw.fields]
  refine ⟨hlive, ?_, ?_, fun x => ?_⟩
  · rw [htab, ← hl.type]
    unfold resize
    split_ifs <;> rw [hw.fields]
  · rw [htab, hag.contents_eq (hw.mapped_resize hmap hl.size.ge hmax),
      hw.contents_eq hmap hl.size.ge hmax (by rw [hl.size]; omega)]
    show spliceAt l.length p (contents m.disk _) = _
    rw [hl.contents, spliceAt_length]
  · have ht := hl.tight x
    rw [hl.size] at ht
    rw [htab, hag.refs_eq, refs_resize, numBytes_resize hmax, hnum, hl.size, hfill x, ht,
      ← Finset.mem_union, max_eq_right (Nat.le_add_right _ _), slotsIn_add, Nat.zero_add]

/-- **`iappend`** appends to a file when the blocks that it then needs are there. -/
theorem iappend_built (h : Built m c) (h1 : 1 ≤ k) (hk : k < m.freeinode) (hp : p ≠ [])
    (hmax : (c k).length + p.length ≤ inodeMaxBytes)
    (hroom : m.freeblock + blocksFor ((c k).length + p.length) ≤ fssize + blocksFor (c k).length) :
    ∃ m', iappend m k p = some m' ∧ Built m' (update c k (c k ++ p)) ∧
      m'.freeinode = m.freeinode ∧
      m'.freeblock + blocksFor (c k).length = m.freeblock + blocksFor ((c k).length + p.length) := by
  have hl := h.file h1 hk
  have hlt : k < ninodes := hl.live.1
  have hpos : 0 < p.length := length_pos_of_ne_nil hp
  have ho : Owned (storeOf m).used (refs m.disk (tableEntry mkfsLayout m.disk k)) := h.consistent.file hl.live
  have hcost := hl.tight.cost (n := p.length) (by rw [hl.size]; exact hmax)
  rw [hl.size] at hcost
  obtain ⟨m', s₁, e₁, happ, hfresh, hino, hw, hfill, hs'⟩ := iappend_of_write h.fresh hlt rfl ho
    (by rw [hl.size]; exact hmax) (by rw [hl.size]; omega)
  rw [hl.size] at hw hfill hs'
  have hlonger : e₁.numBytes.toNat < (c k).length + p.length := by
    rw [hw.fields, hl.size]
    omega
  have hs : storeOf m' = putEntry mkfsLayout s₁ k (resize e₁ ((c k).length + p.length)) := by
    rw [hs', resize, if_pos hlonger]
  -- the step is one of the steps of the inode layer, for a copy of the entry
  have hcopy : Copy mkfsLayout (storeOf m).blocks ⟨0, 1, k, true, tableEntry mkfsLayout m.disk k⟩ :=
    ⟨rfl, rfl, hl.live⟩
  have hwritten : Written mkfsLayout (storeOf m) ⟨0, 1, k, true, tableEntry mkfsLayout m.disk k⟩
      (storeOf m') ⟨0, 1, k, true, resize e₁ ((c k).length + p.length)⟩ := by
    refine Or.inr ⟨(c k).length, p, s₁, e₁, hl.size.ge, hmax, hw, rfl, ?_⟩
    rw [hs, if_pos]
    rw [hl.size]
    omega
  obtain ⟨hcons, hch, hcopy', -⟩ := h.consistent.written hcopy hwritten
  have hag : Agree s₁.blocks m'.disk (resize e₁ ((c k).length + p.length)) := by
    have hown : Owned s₁.used (refs s₁.blocks (resize e₁ ((c k).length + p.length))) := by
      rw [refs_resize]
      exact ho.grow hw.grows
    show Agree s₁.blocks (storeOf m').blocks _
    rw [hs]
    exact agree_putEntry hlt hown fun n hn => (hw.isData n hn).elim (h.consistent.isData n) id
  have hnew := holds_of_wrote h hl hp hmax hw hfill hcopy'.live hcopy'.entry.symm hag
  have hused : (storeOf m').used = s₁.used := by
    rw [hs]
    rfl
  refine ⟨m', happ, h.change hch hfresh hcons h1 (by rw [hino]; exact hk) (by rw [hino]; exact h.le)
    (fun j _ => by rw [hino]) hnew fun n hn => ?_, hino, ?_⟩
  · have hblock : toBlockNo mkfsLayout k ≠ n := ne_of_gt (lt_of_lt_of_le hn (Nat.le_add_right _ _))
    have hkeep : s₁.blocks n = m.disk n := by
      refine hw.frame n fun x hx he => ?_
      have hmem := (ho.grow hw.grows).mem hx
      rw [← hused, mem_used, he] at hmem
      have hlt : n < 65 := hn
      have hge : 92 ≤ n := hmem.1
      omega
    show (storeOf m').blocks n = _
    rw [hs, ← hkeep]
    exact update_of_ne (Ne.symm hblock) _ _
  have hcard := hw.grows.card_of_fills hfill
  rw [← hused, card_used, card_used] at hcard
  have hge := hfresh.ge
  have hge' := h.fresh.ge
  change _ = _ + missing (refs m.disk (tableEntry mkfsLayout m.disk k)) _ at hcard
  omega

theorem Built.congr {c' : ℕ → List UInt8} (h : Built m c) (hc : ∀ k, 1 ≤ k → k < m.freeinode → c k = c' k) :
    Built m c' :=
  ⟨h.fresh, h.consistent, h.pos, h.le, h.live, fun k hk => by
    obtain ⟨h1, hlt⟩ := (h.live k hk.1).mp hk
    rw [← hc k h1 hlt]
    exact h.holds k hk, h.low⟩

theorem appendAll_built : ∀ (rs : List (List UInt8)) {m : Image} {c : ℕ → List UInt8}, Built m c → 1 ≤ k →
    k < m.freeinode → (∀ r ∈ rs, r ≠ []) → (c k).length + rs.flatten.length ≤ inodeMaxBytes →
    m.freeblock + blocksFor ((c k).length + rs.flatten.length) ≤ fssize + blocksFor (c k).length →
    ∃ m', appendAll m k rs = some m' ∧ Built m' (update c k (c k ++ rs.flatten)) ∧
      m'.freeinode = m.freeinode ∧
      m'.freeblock + blocksFor (c k).length = m.freeblock + blocksFor ((c k).length + rs.flatten.length)
  | [], m, c, h, _, _, _, _, _ => ⟨m, rfl, by simpa using h, rfl, rfl⟩
  | r :: rs, m, c, h, h1, hk, hne, hmax, hroom => by
    rw [flatten_cons, length_append] at hmax hroom
    have hmono : blocksFor ((c k).length + r.length) ≤
        blocksFor ((c k).length + (r.length + rs.flatten.length)) := blocksFor_mono (by omega)
    obtain ⟨m₁, happ, hb, hino, hblk⟩ := iappend_built (p := r) h h1 hk (hne r mem_cons_self)
      (by omega) (by omega)
    obtain ⟨m', hall, hb', hino', hblk'⟩ := appendAll_built rs hb h1 (by rw [hino]; exact hk)
      (fun x hx => hne x (mem_cons_of_mem _ hx))
      (by rw [update_self, length_append]; omega)
      (by rw [update_self, length_append, Nat.add_assoc]; omega)
    rw [update_self, update_idem, append_assoc] at hb'
    rw [update_self, length_append, Nat.add_assoc] at hblk'
    refine ⟨m', ?_, by rwa [flatten_cons], by rw [hino', hino], ?_⟩
    · unfold appendAll
      rw [happ]
      exact hall
    · rw [flatten_cons, length_append]
      omega

/-! ### The loop over the input files -/

theorem tailLength_le : ∀ (s : List UInt8) (j : ℕ), tailLength s j ≤ s.length + j
  | [], j => by simp [tailLength]
  | c :: s, j => by
    unfold tailLength
    refine (tailLength_le s _).trans ?_
    split_ifs <;> simp only [length_cons] <;> omega

theorem slash_notMem_drop : ∀ (s : List UInt8) (j : ℕ), slash ∉ s.drop (s.length - tailLength s j)
  | [], j => by simp
  | c :: s, j => by
    by_cases hc : c = slash
    · have hle := tailLength_le s 0
      have ih := slash_notMem_drop s 0
      have htail : tailLength (c :: s) j = tailLength s 0 := by rw [tailLength, if_pos hc]
      rw [htail, length_cons, Nat.sub_add_comm (by omega), drop_succ_cons]
      exact ih
    · have ih := slash_notMem_drop s (j + 1)
      have htail : tailLength (c :: s) j = tailLength s (j + 1) := by rw [tailLength, if_neg hc]
      rw [htail, length_cons]
      by_cases hle : tailLength s (j + 1) ≤ s.length
      · rw [Nat.sub_add_comm hle, drop_succ_cons]
        exact ih
      · rw [Nat.sub_eq_zero_of_le (by omega), drop_zero] at ih ⊢
        exact fun hm => (mem_cons.mp hm).elim (fun he => hc he.symm) ih

theorem slash_notMem_baseName (path : List UInt8) : slash ∉ baseName path := slash_notMem_drop path 0

/-- The directory entry of inode `n`. -/
def entryBytes (n : ℕ) (name : List UInt8) : List UInt8 := bytes (Dirent.mk (UInt16.ofNat n) (strncpy name))

theorem length_entryBytes (n : ℕ) (name : List UInt8) : (entryBytes n name).length = direntSize :=
  length_bytes _

/-- The directory entries of the files, which get the inodes from `n` on. -/
def entriesFrom : ℕ → List InputFile → List UInt8
  | _, [] => []
  | n, f :: fs => entryBytes n f.name ++ entriesFrom (n + 1) fs

theorem length_entriesFrom : ∀ (n : ℕ) (fs : List InputFile),
    (entriesFrom n fs).length = direntSize * fs.length
  | _, [] => rfl
  | n, f :: fs => by
    rw [entriesFrom, length_append, length_entryBytes, length_entriesFrom (n + 1) fs, length_cons]
    ring

def blocksOf (fs : List InputFile) : ℕ := (fs.map fun f => blocksFor f.bytes.length).sum

theorem addFile_built {f : InputFile} (h : Built m c) (h2 : 2 ≤ m.freeinode) (hk : m.freeinode < ninodes)
    (hmax : (c rootInodeNo).length + direntSize ≤ inodeMaxBytes) (hsize : f.bytes.length ≤ inodeMaxBytes)
    (hroom : m.freeblock + blocksFor ((c rootInodeNo).length + direntSize) + blocksFor f.bytes.length ≤
      fssize + blocksFor (c rootInodeNo).length) : ∃ m', addFile m f = some m' ∧
      Built m' (update (update c rootInodeNo
        (c rootInodeNo ++ entryBytes m.freeinode f.name)) m.freeinode f.bytes) ∧
      m'.freeinode = m.freeinode + 1 ∧
      m'.freeblock + blocksFor (c rootInodeNo).length =
        m.freeblock + blocksFor ((c rootInodeNo).length + direntSize) + blocksFor f.bytes.length := by
  have hne : m.freeinode ≠ rootInodeNo := by
    unfold rootInodeNo
    omega
  obtain ⟨m₁, hal, hb₁, hino₁, hblk₁⟩ := ialloc_built h hk (if_neg hne).symm
  set c₁ := update c m.freeinode [] with hc₁
  have hroot : c₁ rootInodeNo = c rootInodeNo := update_of_ne (Ne.symm hne) _ _
  obtain ⟨m₂, happ, hb₂, hino₂, hblk₂⟩ := iappend_built (p := entryBytes m.freeinode f.name)
    (k := rootInodeNo) hb₁ le_rfl (by rw [hino₁]; unfold rootInodeNo; omega)
    (ne_nil_of_length_pos (by rw [length_entryBytes]; decide))
    (by rw [hroot, length_entryBytes]; exact hmax)
    (by rw [hroot, length_entryBytes, hblk₁]; omega)
  rw [hroot, length_entryBytes] at hblk₂
  rw [hroot] at hb₂
  set c₂ := update c₁ rootInodeNo (c rootInodeNo ++ entryBytes m.freeinode f.name) with hc₂
  have hnew : c₂ m.freeinode = [] := by
    rw [hc₂, update_of_ne hne, hc₁, update_self]
  have hzero : blocksFor 0 = 0 := rfl
  obtain ⟨m₃, hall, hb₃, hino₃, hblk₃⟩ := appendAll_built f.reads (k := m.freeinode) hb₂ h.pos
    (by rw [hino₂, hino₁]; exact Nat.lt_succ_self _) f.reads_ne_nil
    (by rw [hnew, length_nil, Nat.zero_add]; exact hsize)
    (by
      rw [hnew, length_nil, Nat.zero_add, hzero]
      change _ + blocksFor f.bytes.length ≤ _
      omega)
  rw [hnew, length_nil, Nat.zero_add, hzero] at hblk₃
  rw [hnew, nil_append] at hb₃
  change _ = _ + blocksFor f.bytes.length at hblk₃
  refine ⟨m₃, ?_, hb₃.congr fun k _ _ => ?_, by rw [hino₃, hino₂, hino₁], by omega⟩
  · unfold addFile
    rw [if_neg (slash_notMem_baseName f.path), hal]
    show (iappend m₁ rootInodeNo (entryBytes m.freeinode f.name)).bind _ = _
    rw [happ]
    exact hall
  · by_cases hkn : k = m.freeinode
    · subst hkn
      rw [update_self, update_self]
      rfl
    · rw [update_of_ne hkn, update_of_ne hkn, hc₂, hc₁]
      by_cases hkr : k = rootInodeNo
      · subst hkr
        rw [update_self, update_self]
      · rw [update_of_ne hkr, update_of_ne hkr, update_of_ne hkn]

def withFiles (c : ℕ → List UInt8) (n : ℕ) (fs : List InputFile) (k : ℕ) : List UInt8 :=
  if k = rootInodeNo then c rootInodeNo ++ entriesFrom n fs
  else if k < n then c k
  else (fs.map InputFile.bytes).getD (k - n) []

/-- **The loop over the input files.** -/
theorem addFiles_built : ∀ (fs : List InputFile) {m : Image} {c : ℕ → List UInt8}, Built m c →
    2 ≤ m.freeinode → m.freeinode + fs.length ≤ ninodes →
    (c rootInodeNo).length + direntSize * fs.length ≤ inodeMaxBytes →
    (∀ f ∈ fs, f.bytes.length ≤ inodeMaxBytes) →
    m.freeblock + blocksFor ((c rootInodeNo).length + direntSize * fs.length) + blocksOf fs ≤
      fssize + blocksFor (c rootInodeNo).length →
    ∃ m', addFiles m fs = some m' ∧ Built m' (withFiles c m.freeinode fs) ∧
      m'.freeinode = m.freeinode + fs.length ∧
      m'.freeblock + blocksFor (c rootInodeNo).length =
        m.freeblock + blocksFor ((c rootInodeNo).length + direntSize * fs.length) + blocksOf fs
  | [], m, c, h, _, _, _, _, _ => by
    refine ⟨m, rfl, h.congr fun k _ hk => ?_, rfl, rfl⟩
    unfold withFiles
    split_ifs with h1
    · rw [h1, entriesFrom, append_nil]
    · rfl
  | f :: fs, m, c, h, h2, hle, hmax, hsize, hroom => by
    have hne : m.freeinode ≠ rootInodeNo := by
      unfold rootInodeNo
      omega
    rw [length_cons] at hle hmax hroom
    have hblocks : blocksOf (f :: fs) = blocksFor f.bytes.length + blocksOf fs := sum_cons
    have hmul : direntSize * (fs.length + 1) = direntSize + direntSize * fs.length := by ring
    rw [hmul] at hmax hroom
    have hmono : blocksFor ((c rootInodeNo).length + direntSize) ≤
        blocksFor ((c rootInodeNo).length + (direntSize + direntSize * fs.length)) :=
      blocksFor_mono (by omega)
    obtain ⟨m₁, hadd, hb₁, hino₁, hblk₁⟩ := addFile_built h h2 (by omega) (by omega)
      (hsize f mem_cons_self) (by omega)
    set c₁ := update (update c rootInodeNo
      (c rootInodeNo ++ entryBytes m.freeinode f.name)) m.freeinode f.bytes with hc₁
    have hroot : c₁ rootInodeNo = c rootInodeNo ++ entryBytes m.freeinode f.name := by
      rw [hc₁, update_of_ne (Ne.symm hne), update_self]
    have hlen : (c₁ rootInodeNo).length = (c rootInodeNo).length + direntSize := by
      rw [hroot, length_append, length_entryBytes]
    obtain ⟨m', hall, hb', hino', hblk'⟩ := addFiles_built fs hb₁ (by omega) (by omega)
      (by rw [hlen]; omega) (fun x hx => hsize x (mem_cons_of_mem _ hx))
      (by rw [hlen, Nat.add_assoc (c rootInodeNo).length]; omega)
    rw [hlen, Nat.add_assoc (c rootInodeNo).length] at hblk'
    refine ⟨m', ?_, hb'.congr fun k hk1 hk => ?_, by rw [hino', hino₁, length_cons]; omega, ?_⟩
    · unfold addFiles
      rw [hadd]
      exact hall
    · unfold withFiles
      by_cases hkr : k = rootInodeNo
      · rw [if_pos hkr, if_pos hkr, hroot, hino₁, entriesFrom, append_assoc]
      · rw [if_neg hkr, if_neg hkr, hino₁]
        rcases lt_trichotomy k m.freeinode with hlt | rfl | hgt
        · rw [if_pos (by omega), if_pos hlt, hc₁, update_of_ne (by omega), update_of_ne hkr]
        · rw [if_pos (by omega), if_neg (Nat.lt_irrefl _), hc₁, update_self, Nat.sub_self]
          rfl
        · rw [if_neg (by omega), if_neg (by omega), map_cons,
            show k - m.freeinode = k - (m.freeinode + 1) + 1 by omega, getD_cons_succ]
    · rw [length_cons, hmul]
      omega

/-! ### The root directory -/

theorem not_live_format (k : ℕ) : ¬ Live mkfsLayout format.disk k := by
  refine not_live_of_zero fun i => ?_
  have hne : 65 + k / inodePerBlock ≠ 0 := (Nat.add_pos_left (by decide) _).ne'
  show update zeroDisk 0 superBlock (65 + k / inodePerBlock) i = 0
  rw [update_of_ne hne]
  rfl

theorem format_built : Built format fun _ => [] where
  fresh := ⟨fun n hn => update_of_ne (by change 92 ≤ n at hn; omega) _ _, le_rfl, by decide⟩
  consistent := consistent_of_not_live (Finset.Ico_self _) not_live_format
  pos := le_rfl
  le := by decide
  live k _ := iff_of_false (not_live_format k) fun h => by
    have hlt : k < 1 := h.2
    omega
  holds k hk := absurd hk (not_live_format k)
  low _ _ := rfl

def rootStart : List UInt8 := entryBytes rootInodeNo dot ++ entryBytes rootInodeNo dotDot

theorem makeRoot_built : ∃ m, makeRoot format = some m ∧ Built m (update (fun _ => []) rootInodeNo rootStart) ∧
    m.freeinode = 2 ∧ m.freeblock = nmeta + 1 := by
  obtain ⟨m₁, hal, hb₁, hino₁, hblk₁⟩ := ialloc_built format_built (by decide) (if_pos rfl).symm
  have hzero : update (fun _ => []) rootInodeNo [] = fun _ : ℕ => ([] : List UInt8) := by
    exact update_eq_self rootInodeNo fun _ : ℕ => ([] : List UInt8)
  change Built m₁ (update (fun _ => []) rootInodeNo []) at hb₁
  rw [hzero] at hb₁
  obtain ⟨m₂, happ₂, hb₂, hino₂, hblk₂⟩ := iappend_built (p := entryBytes rootInodeNo dot) (k := rootInodeNo)
    hb₁ le_rfl (by rw [hino₁]; decide) (ne_nil_of_length_pos (by rw [length_entryBytes]; decide))
    (by rw [length_entryBytes]; decide) (by rw [length_entryBytes, hblk₁]; decide)
  rw [length_entryBytes, hblk₁] at hblk₂
  rw [nil_append] at hb₂
  obtain ⟨m₃, happ₃, hb₃, hino₃, hblk₃⟩ := iappend_built (p := entryBytes rootInodeNo dotDot)
    (k := rootInodeNo) hb₂ le_rfl (by rw [hino₂, hino₁]; decide)
    (ne_nil_of_length_pos (by rw [length_entryBytes]; decide))
    (by rw [update_self, length_entryBytes, length_entryBytes]; decide)
    (by
      rw [update_self, length_entryBytes, length_entryBytes]
      change m₂.freeblock + 0 = 92 + 1 at hblk₂
      change m₂.freeblock + 1 ≤ 1000 + 1
      omega)
  rw [update_self, length_entryBytes, length_entryBytes] at hblk₃
  rw [update_self, update_idem] at hb₃
  refine ⟨m₃, ?_, hb₃, by rw [hino₃, hino₂, hino₁]; rfl, ?_⟩
  · unfold makeRoot
    rw [hal]
    show (iappend m₁ rootInodeNo (entryBytes rootInodeNo dot)).bind _ = _
    rw [happ₂]
    exact happ₃
  · change m₂.freeblock + 0 = 92 + 1 at hblk₂
    change m₃.freeblock + 1 = m₂.freeblock + 1 at hblk₃
    change m₃.freeblock = 92 + 1
    omega

/-! ### The image before the last two steps -/

/-- **The input files fit the image**: there are enough inodes and blocks, and no file is too large. -/
structure Fits (files : List InputFile) : Prop where
  inodes : files.length + 2 ≤ ninodes
  sizes : ∀ f ∈ files, f.bytes.length ≤ inodeMaxBytes
  blocks : nmeta + blocksFor (direntSize * (files.length + 2)) + blocksOf files ≤ fssize

def rootBytes (files : List InputFile) : List UInt8 := rootStart ++ entriesFrom 2 files

def holdings (files : List InputFile) (k : ℕ) : List UInt8 :=
  if k = rootInodeNo then rootBytes files else (files.map InputFile.bytes).getD (k - 2) []

theorem length_rootBytes (files : List InputFile) :
    (rootBytes files).length = direntSize * (files.length + 2) := by
  rw [rootBytes, rootStart, length_append, length_append, length_entryBytes, length_entryBytes,
    length_entriesFrom]
  ring

theorem files_built (hf : Fits files) : ∃ m,
    (makeRoot format).bind (addFiles · files) = some m ∧ Built m (holdings files) ∧
      m.freeinode = files.length + 2 ∧
      m.freeblock = nmeta + blocksFor (direntSize * (files.length + 2)) + blocksOf files := by
  obtain ⟨m, hroot, hb, hino, hblk⟩ := makeRoot_built
  have hlen : (update (fun _ => []) rootInodeNo rootStart rootInodeNo).length = direntSize * 2 := by
    rw [update_self, rootStart, length_append, length_entryBytes, length_entryBytes]
    rfl
  have hone : blocksFor (direntSize * 2) = 1 := rfl
  have hn := hf.inodes
  have hblocks := hf.blocks
  have hmul : direntSize * 2 + direntSize * files.length = direntSize * (files.length + 2) := by ring
  have hmax : direntSize * (files.length + 2) ≤ inodeMaxBytes := by
    change files.length + 2 ≤ 200 at hn
    show 16 * (files.length + 2) ≤ 71680
    omega
  obtain ⟨m', hall, hb', hino', hblk'⟩ := addFiles_built files hb hino.ge (by omega)
    (by rw [hlen, hmul]; exact hmax) hf.sizes (by rw [hlen, hmul, hone, hblk]; omega)
  rw [hlen, hmul, hone, hblk] at hblk'
  refine ⟨m', ?_, hb'.congr fun k h1 _ => ?_, by omega, by omega⟩
  · rw [hroot]
    exact hall
  · unfold withFiles holdings
    by_cases hk : k = rootInodeNo
    · rw [if_pos hk, if_pos hk, update_self, hino]
      rfl
    · rw [if_neg hk, if_neg hk, hino, if_neg (show ¬ k < 2 by unfold rootInodeNo at hk; omega)]

/-! ### The last two steps -/

theorem bitmapGet_orBit {d : BlockData} {i j : ℕ} (hi : i < bitPerBlock) :
    bitmapGet (orBit d i) j = (decide (j = i) || bitmapGet d j) := by
  rw [bitmapGet_eq, bitmapGet_eq]
  have hi' : i < 4096 := hi
  by_cases hj : j / 8 < blockSize
  · unfold orBit Buf.byte
    rw [dif_pos hj, dif_pos hj]
    dsimp only
    by_cases hb : j / 8 = i / 8
    · rw [if_pos hb, UInt8.toNat_ofNat', Nat.mod_eq_of_lt, Nat.testBit_or, Nat.testBit_two_pow, Bool.or_comm]
      · congr 1
        rw [decide_eq_decide]
        omega
      · exact Nat.or_lt_two_pow (UInt8.toNat_lt _) (Nat.pow_lt_pow_right (by omega) (by omega))
    · rw [if_neg hb, decide_eq_false (fun he => hb (by rw [he])), Bool.false_or]
  · have hne : j ≠ i := by
      unfold blockSize at hj
      omega
    unfold Buf.byte
    rw [dif_neg hj, dif_neg hj, decide_eq_false hne, Bool.false_or]

theorem bitmapGet_zero (j : ℕ) : bitmapGet (fun _ => 0) j = false := by
  rw [bitmapGet_eq]
  unfold Buf.byte
  split_ifs <;> simp

theorem bitmapGet_balloc {used : ℕ} (h : used ≤ bitPerBlock) (j : ℕ) :
    bitmapGet ((List.range used).foldl orBit fun _ => 0) j = decide (j < used) := by
  induction used with
  | zero => rw [range_zero, foldl_nil, bitmapGet_zero, decide_eq_false (Nat.not_lt_zero j)]
  | succ used ih =>
    rw [range_succ, foldl_append, foldl_cons, foldl_nil, bitmapGet_orBit (by omega),
      ih (by omega), ← Bool.decide_or, decide_eq_decide]
    omega

/-- **The finished image.** -/
structure Finished (files : List InputFile) (m : Image) : Prop where
  low : ∀ n < inodeStart, m.disk n = format.disk n
  free : m.freeblock = nmeta + blocksFor (direntSize * (files.length + 2)) + blocksOf files
  file : ∀ k, 2 ≤ k → k < files.length + 2 → Holds m.disk k (holdings files k)
  root : Live mkfsLayout m.disk rootInodeNo ∧
    (tableEntry mkfsLayout m.disk rootInodeNo).type = inodeDirectory ∧
    (rootBytes files).length ≤ (tableEntry mkfsLayout m.disk rootInodeNo).numBytes.toNat ∧
    (tableEntry mkfsLayout m.disk rootInodeNo).numBytes.toNat ≤ inodeMaxBytes ∧
    (contents m.disk (tableEntry mkfsLayout m.disk rootInodeNo)).take (rootBytes files).length =
      rootBytes files
  blocks : ∀ n, nmeta ≤ n ∧ n < m.freeblock ↔
    n ≠ 0 ∧ ∃ k x, Live mkfsLayout m.disk k ∧ refs m.disk (tableEntry mkfsLayout m.disk k) x = n
  bits : ∀ j, bitmapGet (m.disk bitmapStart) j = decide (j < m.freeblock)

theorem Built.agree (h : Built m c) (hb : ∀ n, nmeta ≤ n → b' n = m.disk n) (hk : Live mkfsLayout m.disk k) :
    Agree m.disk b' (tableEntry mkfsLayout m.disk k) := fun _ hx =>
  hb _ (mem_used.mp ((h.consistent.file hk).mem hx)).1

theorem Built.mem_blocks (h : Built m c) (n : ℕ) : nmeta ≤ n ∧ n < m.freeblock ↔
    n ≠ 0 ∧ ∃ k x, Live mkfsLayout m.disk k ∧ refs m.disk (tableEntry mkfsLayout m.disk k) x = n := by
  rw [← mem_used]
  constructor
  · intro hn
    obtain ⟨h0, ⟨k, x⟩, hx⟩ := h.consistent.exact n hn
    have hlive : Live mkfsLayout m.disk k := by
      by_contra hdead
      change liveRefs mkfsLayout m.disk k x = n at hx
      rw [liveRefs, if_neg hdead] at hx
      exact h0 hx.symm
    refine ⟨h0, k, x, hlive, ?_⟩
    rw [← hx]
    exact (congrFun (liveRefs_of_live (s := storeOf m) hlive) x).symm
  · rintro ⟨h0, k, x, hk, rfl⟩
    exact (h.consistent.file hk).mem h0

theorem take_contents {size : UInt32} (h : e.numBytes ≤ size) :
    (contents b { e with numBytes := size }).take e.numBytes.toNat = contents b e := by
  unfold contents
  rw [← map_take, take_range, min_eq_left (UInt32.le_iff_toNat_le.mp h)]
  rfl

/-- The image with a new size for the root directory and with the bitmap. -/
def close (m : Image) (size : ℕ) : Image :=
  wsect (putInode m rootInodeNo { tableEntry mkfsLayout m.disk rootInodeNo with numBytes := UInt32.ofNat size })
    bitmapStart ((List.range m.freeblock).foldl orBit fun _ => 0)

theorem close_bitmap (m : Image) (size : ℕ) :
    (close m size).disk bitmapStart = (List.range m.freeblock).foldl orBit fun _ => 0 := by
  unfold close wsect
  dsimp only
  rw [update_self]

theorem close_of_ne (size : ℕ) (h : n ≠ bitmapStart) (hr : n ≠ iblock rootInodeNo) :
    (close m size).disk n = m.disk n := by
  unfold close wsect
  dsimp only
  rw [update_of_ne h]
  exact update_of_ne hr _ _

theorem tableEntry_close (size : ℕ) (hk : k < ninodes) : tableEntry mkfsLayout (close m size).disk k =
    if k = rootInodeNo then
      { tableEntry mkfsLayout m.disk rootInodeNo with numBytes := UInt32.ofNat size }
    else tableEntry mkfsLayout m.disk k := by
  have hne : toBlockNo mkfsLayout k ≠ bitmapStart := by
    have hk' : k < 200 := hk
    show 65 + k / 8 ≠ 91
    omega
  rw [show tableEntry mkfsLayout m.disk k = tableEntry mkfsLayout (storeOf m).blocks k from rfl,
    ← tableEntry_putEntry, ← storeOf_putInode]
  show getEntry ((close m size).disk (toBlockNo mkfsLayout k)) _ = getEntry _ _
  unfold close wsect
  dsimp only
  rw [update_of_ne hne]
  rfl

theorem Built.live_close (h : Built m c) (size : ℕ) :
    (Live mkfsLayout (close m size).disk k ↔ Live mkfsLayout m.disk k) ∧
      (Live mkfsLayout m.disk k → refs (close m size).disk (tableEntry mkfsLayout (close m size).disk k) =
        refs m.disk (tableEntry mkfsLayout m.disk k)) := by
  have hdata : ∀ n, nmeta ≤ n → (close m size).disk n = m.disk n := fun n hn => by
    have hn' : 92 ≤ n := hn
    exact close_of_ne size (show n ≠ 91 by omega) (show n ≠ 65 by omega)
  refine ⟨?_, fun hk => ?_⟩
  · unfold Live
    refine and_congr_right fun hk => ?_
    rw [tableEntry_close size hk]
    split_ifs with hr
    · rw [hr]
    · rfl
  · rw [← (h.agree hdata hk).refs_eq, tableEntry_close size hk.1]
    split_ifs with hr
    · rw [hr]
      funext x
      cases x <;> rfl
    · rfl

/-- The size of the root directory: `mkfs` rounds it up, to a block more where there is nothing to round. -/
def rootSize (files : List InputFile) : ℕ := (direntSize * (files.length + 2) / blockSize + 1) * blockSize

theorem le_rootSize (files : List InputFile) : direntSize * (files.length + 2) ≤ rootSize files := by
  unfold rootSize blockSize
  omega

theorem Fits.rootSize_le (hf : Fits files) : rootSize files ≤ 3584 := by
  have hn : files.length + 2 ≤ 200 := hf.inodes
  show (16 * (files.length + 2) / 512 + 1) * 512 ≤ 3584
  omega

theorem Fits.toNat_rootSize (hf : Fits files) : (UInt32.ofNat (rootSize files)).toNat = rootSize files := by
  have hmax := hf.rootSize_le
  rw [UInt32.toNat_ofNat', Nat.mod_eq_of_lt (by omega)]

theorem mkfs_close (hf : Fits files) : ∃ m, mkfs files = some (close m (rootSize files)) ∧
    Built m (holdings files) ∧ m.freeinode = files.length + 2 ∧
    m.freeblock = nmeta + blocksFor (direntSize * (files.length + 2)) + blocksOf files ∧
    Holds m.disk rootInodeNo (rootBytes files) := by
  obtain ⟨m, hm, hb, hino, hblk⟩ := files_built hf
  have hle : m.freeblock ≤ 1000 := hb.fresh.le
  have hroot : Holds m.disk rootInodeNo (rootBytes files) :=
    hb.file le_rfl (by rw [hino]; unfold rootInodeNo; omega)
  refine ⟨m, ?_, hb, hino, hblk, hroot⟩
  unfold mkfs
  show (makeRoot format).bind (fun m => (addFiles m files).bind _) = _
  rw [← Option.bind_assoc, hm, Option.bind_some]
  unfold fixRoot
  rw [rinode_eq m (by decide), rootSize, ← length_rootBytes, ← hroot.size]
  show (winode m rootInodeNo { tableEntry mkfsLayout m.disk rootInodeNo with numBytes := _ }).bind _ = _
  rw [winode_eq m (by decide)]
  exact if_pos (show m.freeblock < 4096 by omega)

/-- **`mkfs`** succeeds when the files fit, and its image is finished. -/
theorem mkfs_finished (hf : Fits files) :
    ∃ m, mkfs files = some m ∧ Finished files m := by
  obtain ⟨m, hm, hb, hino, hblk, hroot⟩ := mkfs_close hf
  have hle : m.freeblock ≤ 1000 := hb.fresh.le
  have hmax := hf.rootSize_le
  have hto := hf.toNat_rootSize
  set size := rootSize files with hs
  set e := tableEntry mkfsLayout m.disk rootInodeNo with he
  have hsize : e.numBytes.toNat = (rootBytes files).length := hroot.size
  have hge : e.numBytes.toNat ≤ size := by
    rw [hsize, length_rootBytes]
    exact le_rootSize files
  have hentry : tableEntry mkfsLayout (close m size).disk rootInodeNo =
      { e with numBytes := UInt32.ofNat size } := by
    rw [tableEntry_close size (by decide), if_pos rfl]
  have hdata : ∀ n, nmeta ≤ n → (close m size).disk n = m.disk n := fun n hn => by
    have hn' : 92 ≤ n := hn
    exact close_of_ne size (show n ≠ 91 by omega) (show n ≠ 65 by omega)
  refine ⟨close m size, hm, fun n hn => ?_, hblk, fun k h2 hk => ?_, ⟨?_, ?_, ?_, ?_, ?_⟩, fun n => ?_,
    fun j => ?_⟩
  · have hn' : n < 65 := hn
    rw [← hb.low n hn]
    exact close_of_ne size (show n ≠ 91 by omega) (show n ≠ 65 by omega)
  · have hold := hb.file (show 1 ≤ k by omega) (show k < m.freeinode by omega)
    have hne : k ≠ rootInodeNo := by
      unfold rootInodeNo
      omega
    refine hold.of_agree (hb.consistent.mapped k hold.live) ?_ (hb.agree hdata hold.live)
    rw [tableEntry_close size hold.live.1, if_neg hne]
  · exact (hb.live_close size).1.mpr hroot.live
  · rw [hentry]
    exact hroot.type
  · rw [hentry, ← hsize]
    show _ ≤ (UInt32.ofNat size).toNat
    rw [hto]
    exact hge
  · rw [hentry]
    show (UInt32.ofNat size).toNat ≤ 71680
    omega
  · rw [hentry, ← hsize, take_contents (UInt32.le_iff_toNat_le.mpr (by rw [hto]; exact hge)),
      (hb.agree hdata hroot.live).contents_eq (hb.consistent.mapped _ hroot.live)]
    exact hroot.contents
  · refine (hb.mem_blocks n).trans (and_congr_right fun _ => exists_congr fun k => exists_congr fun x => ?_)
    rw [(hb.live_close size).1]
    refine and_congr_right fun hk => ?_
    rw [(hb.live_close size).2 hk]
  · rw [close_bitmap, bitmapGet_balloc (show m.freeblock ≤ 4096 by omega)]
    rfl

/-! ### Blocks below the size -/

/-- **No holes**: every inode in use has a block for each block index below its size. -/
def NoHoles (b : Disk) : Prop := ∀ k, Live mkfsLayout b k →
  ∀ i < ((tableEntry mkfsLayout b k).numBytes.toNat + blockSize - 1) / blockSize,
    refs b (tableEntry mkfsLayout b k) (dataSlot i) ≠ 0

theorem Tight.mapped_iff {i : ℕ} (h : Tight b e) (hi : i < inodeMaxBlocks) :
    refs b e (dataSlot i) ≠ 0 ↔ i < (e.numBytes.toNat + blockSize - 1) / blockSize := by
  rw [h, slotsIn_zero_eq, Finset.mem_union, Finset.mem_image]
  constructor
  · rintro (⟨j, hj, he⟩ | hx)
    · rw [← dataSlot_inj hi he]
      exact Finset.mem_range.mp hj
    · split_ifs at hx
      · exact absurd (Finset.mem_singleton.mp hx) (dataSlot_ne_indirect hi)
      · simp at hx
  · exact fun hlt => Or.inl ⟨i, Finset.mem_range.mpr hlt, rfl⟩

/-- The root directory is the only inode with a hole, if its entries fill their blocks. -/
theorem noHoles_close_iff (hf : Fits files) (hb : Built m c)
    (hroot : Holds m.disk rootInodeNo (rootBytes files)) :
    NoHoles (close m (rootSize files)).disk ↔ ¬ 32 ∣ files.length + 2 := by
  have hn : files.length + 2 ≤ 200 := hf.inodes
  have hsize : (tableEntry mkfsLayout m.disk rootInodeNo).numBytes.toNat = 16 * (files.length + 2) :=
    hroot.size.trans (length_rootBytes files)
  have hclosed : (tableEntry mkfsLayout (close m (rootSize files)).disk rootInodeNo).numBytes.toNat =
      (16 * (files.length + 2) / 512 + 1) * 512 := by
    rw [tableEntry_close _ (by decide), if_pos rfl]
    exact hf.toNat_rootSize
  constructor
  · intro hno hdvd
    have hlast := hno _ ((hb.live_close _).1.mpr hroot.live) (16 * (files.length + 2) / 512)
      (by rw [hclosed]; unfold blockSize; omega)
    rw [(hb.live_close _).2 hroot.live,
      hroot.tight.mapped_iff (show _ < 140 by omega), hsize] at hlast
    unfold blockSize at hlast
    omega
  · intro hdvd k hk i hi
    have hlive := (hb.live_close _).1.mp hk
    have htight := (hb.holds k hlive).tight
    rw [(hb.live_close _).2 hlive]
    by_cases hr : k = rootInodeNo
    · subst hr
      rw [hclosed] at hi
      unfold blockSize at hi
      rw [htight.mapped_iff (show _ < 140 by omega), hsize]
      unfold blockSize
      omega
    · rw [tableEntry_close _ hlive.1, if_neg hr] at hi
      have hmax : (tableEntry mkfsLayout m.disk k).numBytes.toNat ≤ 71680 := hb.consistent.size k hlive
      exact (htight.mapped_iff (by unfold blockSize at hi; show i < 140; omega)).mpr hi

end OsHonor.User.Mkfs.Image
