import OsHonor.Fs.Inodes.Directories
import OsHonor.Fs.Inodes.OverCache
import OsHonor.User.Mkfs.Image

/-! # The kernel on an image of `mkfs`

`mkfs` and the kernel have their own code for the format of the disk. This module puts them together: the
kernel is started on the image (`Mounts`), finds every file under its name in the root directory and
reads its bytes, and `cache_alloc` gives out no block of the image (`image_read_back`).

The name of a file is the one under which `mkfs` records it: the path without its directories, and
without one leading underscore. Names are compared in their first `FILE_NAME_MAX_LENGTH` characters; the
directory has entries `.` and `..` of its own, which come first (`dot_is_root`). -/

namespace OsHonor.User.Mkfs.Mounted

open Fs.BlockDevice Fs.Inodes.Format
open Base.Keyed (lookup)
open Fs.Inodes.Code Fs.Inodes.BlockStore Fs.Inodes.Reading Fs.Inodes.Files
open Fs.Inodes.Accounting Fs.Inodes.Directories Fs.Inodes.OverCache
open Fs.Cache.Blocks Fs.Cache.Machine Fs.Cache.Client Fs.Cache.Recovery
open Fs.Cache.Volume Fs.Cache.Refines
open Fs.Cache.Bitmap (bitPerBlock bitmapBlock marked)
open Code Image

/-! ### Starting the kernel -/

/-- `get_super_block`: the fields of the block read by `init_block_device`. -/
structure HasSuperBlock (d : BlockData) (sb : SuperBlock) : Prop where
  numBlocks : d.getLe 4 0 = sb.numBlocks
  numDataBlocks : d.getLe 4 4 = sb.numDataBlocks
  numInodes : d.getLe 4 8 = sb.numInodes
  numLogBlocks : d.getLe 4 12 = sb.numLogBlocks
  logStart : d.getLe 4 16 = sb.logStart
  inodeStart : d.getLe 4 20 = sb.inodeStart
  bitmapStart : d.getLe 4 24 = sb.bitmapStart

/-- **The kernel has been started** on a device with the contents `d`: `init_block_device` has read the
super block, and `init_bcache` has run to its end, with anything in its memory before. -/
def Mounts (sb : SuperBlock) (d : Disk) (s : State Unit) : Prop :=
  HasSuperBlock (d 0) sb ∧ ∃ h h' n d', initBcache sb h d n = (.done, h', d') ∧
    s = { boot d' with header := h' }

variable {sb : SuperBlock} {d : Disk} {s : State Unit}

theorem Mounts.sim (hm : Mounts sb d s) (h0 : LogHeader.numOf (d sb.logStart) = 0) :
    Sim sb s (.init s.disk) ∧ ∀ n ∈ home sb, s.disk n = d n := by
  obtain ⟨-, h, h', n, d', hrun, rfl⟩ := hm
  have hredo : Redo sb d (fun _ => none) d := redo_empty h0 fun _ _ => rfl
  exact ⟨sim_of_booted (booted_of_initBcache hredo hrun), fun n hn => (Recovers.complete hrun).redo hredo n hn⟩

theorem exists_mounts (hsb : HasSuperBlock (d 0) sb) : ∃ s, Mounts sb d s := by
  let h : LogHeader := ⟨0, fun _ => 0⟩
  obtain ⟨m, hm⟩ := exists_done sb _ 0 (h.read (d sb.logStart)) d le_rfl
  have hdone : (initBcache sb h d (m + 1)).1 = .done := by
    rw [initBcache, Function.iterate_add_apply]
    simpa [ckptStep, spawnCkpt] using hm
  exact ⟨_, hsb, h, _, m + 1, _, Prod.ext hdone rfl, rfl⟩

/-! ### Reading a file -/

/-- The cached inode at the address `p`. -/
def inodeAt (p : ℕ) (l : List Inode) : FsProg Inode :=
  match findInode p l with
  | some i => pure i
  | none => .fail

/-- A name is looked up in the root directory: `inode_get` of the root inode (`init_inodes`) and
`inode_lookup`. The cached inodes are returned, too. -/
def lookupRoot (sb : SuperBlock) (name : Name) (a : ℕ) (junk : Dirent) :
    FsProg (List Inode × Option (UInt16 × ℕ)) := do
  let (p, l) ← inodeGet sb [] a rootInodeNo
  let root ← inodeAt p l
  let found ← inodeLookup root name junk
  pure (l, found)

/-- A file in the root directory is looked up, and `count` bytes of it are read: `inode_get` of the
number found, and `inode_read`. The result is the number, the type and size of the inode, and what
`inode_read` returns. -/
def readFile (sb : SuperBlock) (name : Name) (a a' : ℕ) (junk : Dirent) (count : ℕ) :
    FsProg (Option (UInt16 × UInt16 × ℕ × ℕ × List UInt8)) := do
  let (l, found) ← lookupRoot sb name a junk
  match found with
  | none => pure none
  | some (no, _) => do
    let (p, l) ← inodeGet sb l a' no.toNat
    let inode ← inodeAt p l
    let (n, bytes) ← inodeRead inode 0 count
    pure (some (no, inode.entry.type, inode.entry.numBytes.toNat, n, bytes))

variable {S : Set ℕ} {b : Disk} {l : List Inode} {a k n : ℕ}

theorem inodeGet_peeks (hpos : 0 < k) (hk : k < sb.numInodes)
    (hfetch : fetchInode k l = none) (hS : toBlockNo sb k ∈ S) :
    Peeks S b (inodeGet sb l a k) (a, l ++ [⟨a, 1, k, true, tableEntry sb b k⟩]) := by
  unfold inodeGet
  rw [hfetch]
  refine peeks_bind (peeks_check hpos) (peeks_bind (peeks_check hk) (peeks_bind ?_ (peeks_pure _)))
  exact peeks_block hS (peeks_pure _)

theorem inodeAt_peeks {i : Inode} {p : ℕ} (h : findInode p l = some i) :
    Peeks S b (inodeAt p l) i := by
  unfold inodeAt
  rw [h]
  exact peeks_pure i

/-! ### The root directory -/

/-- The directory entries of the files, which get the inodes from `n` on. -/
def direntsFrom : ℕ → List InputFile → List Dirent
  | _, [] => []
  | n, f :: fs => Dirent.mk (UInt16.ofNat n) (nameOf f.name) :: direntsFrom (n + 1) fs

theorem entriesFrom_eq : ∀ (n : ℕ) (fs : List InputFile), entriesFrom n fs = (direntsFrom n fs).flatMap bytes
  | _, [] => rfl
  | n, f :: fs => by
    rw [entriesFrom, direntsFrom, List.flatMap_cons, entriesFrom_eq (n + 1) fs]
    rfl

theorem direntsFrom_append : ∀ (n : ℕ) (fs gs : List InputFile),
    direntsFrom n (fs ++ gs) = direntsFrom n fs ++ direntsFrom (n + fs.length) gs
  | _, [], _ => rfl
  | n, f :: fs, gs => by
    rw [List.cons_append, direntsFrom, direntsFrom, direntsFrom_append (n + 1) fs gs, List.length_cons,
      Nat.add_right_comm, Nat.add_assoc]
    rfl

theorem name_of_mem_direntsFrom : ∀ {n : ℕ} {fs : List InputFile} {d : Dirent}, d ∈ direntsFrom n fs →
    ∃ f ∈ fs, d.name = nameOf f.name
  | n, f :: fs, d, hd => by
    rcases List.mem_cons.mp hd with rfl | hd
    · exact ⟨f, List.mem_cons_self, name_mk _ _⟩
    · obtain ⟨g, hg, he⟩ := name_of_mem_direntsFrom hd
      exact ⟨g, List.mem_cons_of_mem _ hg, he⟩

def dots : List Dirent := [Dirent.mk 1 (nameOf dot), Dirent.mk 1 (nameOf dotDot)]

theorem rootBytes_split {files fs gs : List InputFile} {f : InputFile} (h : files = fs ++ f :: gs) :
    ∃ rest, rootBytes files = ((dots ++ direntsFrom 2 fs) ++
      [Dirent.mk (UInt16.ofNat (fs.length + 2)) (nameOf f.name)]).flatMap bytes ++ rest := by
  refine ⟨entriesFrom (2 + fs.length + 1) gs, ?_⟩
  rw [rootBytes, h, entriesFrom_eq, direntsFrom_append, direntsFrom, Nat.add_comm fs.length 2,
    entriesFrom_eq]
  simp only [List.flatMap_append, List.flatMap_cons, List.flatMap_nil, List.append_nil, List.append_assoc]
  rfl

/-! ### Names -/

/-- **The names of the files**, as they are recorded, are distinct in their first characters and are not
taken by the directory itself. -/
structure Named (files : List InputFile) : Prop where
  nodup : (files.map fun f => f.name.take fileNameMaxLength).Nodup
  ne_dot : ∀ f ∈ files, f.name ≠ dot ∧ f.name ≠ dotDot

theorem nul_notMem_name (f : InputFile) : 0 ∉ f.name := by
  have hbase : 0 ∉ baseName f.path := fun h => f.path_ne_nul (List.mem_of_mem_drop h)
  unfold InputFile.name
  rcases hb : baseName f.path with _ | ⟨c, s⟩
  · simp [stripUnderscore]
  · rw [hb] at hbase
    show 0 ∉ if c = underscore then s else c :: s
    split_ifs
    · exact fun h => hbase (List.mem_cons_of_mem _ h)
    · exact hbase

theorem eq_of_take {s t : List UInt8} (h : s.take n = t.take n) (ht : t.length < n) : s = t := by
  have hlen := congrArg List.length h
  rw [List.length_take, List.length_take] at hlen
  rwa [List.take_of_length_le (by omega), List.take_of_length_le (by omega)] at h

theorem Named.not_hit {files fs gs : List InputFile} {f : InputFile} (hn : Named files)
    (h : files = fs ++ f :: gs) : ∀ d ∈ dots ++ direntsFrom 2 fs, ¬ Hit (nameOf f.name) d := by
  have hf : f ∈ files := by simp [h]
  have hnul := nul_notMem_name f
  rintro d hd ⟨-, hsame⟩
  rcases List.mem_append.mp hd with hd | hd
  · rcases List.mem_cons.mp hd with rfl | hd
    · rw [name_mk, same_nameOf (by decide) hnul] at hsame
      exact (hn.ne_dot f hf).1 (eq_of_take hsame.symm (by decide))
    · rw [List.mem_singleton.mp hd, name_mk, same_nameOf (by decide) hnul] at hsame
      exact (hn.ne_dot f hf).2 (eq_of_take hsame.symm (by decide))
  · obtain ⟨g, hg, he⟩ := name_of_mem_direntsFrom hd
    rw [he, same_nameOf (nul_notMem_name g) hnul] at hsame
    have hnd := hn.nodup
    rw [h, List.map_append, List.map_cons, List.nodup_append] at hnd
    exact hnd.2.2 _ (List.mem_map_of_mem hg) _ List.mem_cons_self hsame

/-! ### Reading back -/

def readable : Set ℕ := {n | n ∈ home mkfsLayout ∧ n < 2 ^ 64}

theorem mem_readable (h : n = 0 ∨ 65 ≤ n) (hlt : n < 2 ^ 64) : n ∈ readable := by
  refine ⟨?_, hlt⟩
  show ¬ (2 ≤ n ∧ n < 2 + 63)
  omega

theorem table_mem_readable (hk : k < ninodes) : toBlockNo mkfsLayout k ∈ readable := by
  have hk' : k < 200 := hk
  exact mem_readable (Or.inr (Nat.le_add_right 65 _)) (show 65 + k / 8 < 2 ^ 64 by omega)

variable {files fs gs : List InputFile} {f : InputFile} {m : Image}

theorem freeblock_le (h : Finished files m) (hf : Fits files) : m.freeblock ≤ 1000 := by
  rw [h.free]
  exact hf.blocks

theorem refs_mem_readable (h : Finished files m) (hf : Fits files) (hk : Live mkfsLayout m.disk k)
    (x : Slot) : refs m.disk (tableEntry mkfsLayout m.disk k) x ∈ readable := by
  by_cases h0 : refs m.disk (tableEntry mkfsLayout m.disk k) x = 0
  · rw [h0]
    exact mem_readable (Or.inl rfl) (by norm_num)
  · have hle := freeblock_le h hf
    obtain ⟨hge, hlt⟩ := (h.blocks _).mpr ⟨h0, k, x, hk, rfl⟩
    change 92 ≤ _ at hge
    exact mem_readable (Or.inr (by omega)) (by omega)

theorem holds_of_split (h : Finished files m) (hsplit : files = fs ++ f :: gs) :
    Holds m.disk (fs.length + 2) f.bytes := by
  have hlength : files.length = fs.length + (gs.length + 1) := by
    rw [hsplit, List.length_append, List.length_cons]
  have hbytes : holdings files (fs.length + 2) = f.bytes := by
    unfold holdings
    rw [if_neg (by unfold rootInodeNo; omega), Nat.add_sub_cancel, hsplit, List.map_append,
      List.getD_append_right _ _ _ _ (by rw [List.length_map]), List.length_map, Nat.sub_self,
      List.map_cons, List.getD_cons_zero]
  rw [← hbytes]
  exact h.file (fs.length + 2) (by omega) (by omega)

/-- The cached copy of inode `k`, at the address `a`. -/
def copyOf (b : Disk) (a k : ℕ) : Inode := ⟨a, 1, k, true, tableEntry mkfsLayout b k⟩

theorem findInode_copyOf (b : Disk) (a k : ℕ) : findInode a [copyOf b a k] = some (copyOf b a k) := by
  simp [findInode, lookup, copyOf]

theorem lookupRoot_peeks (h : Finished files m) (hf : Fits files) {name : Name} {ds : List Dirent} {d : Dirent}
    {rest : List UInt8} (hsplit : rootBytes files = (ds ++ [d]).flatMap bytes ++ rest)
    (hds : ∀ d ∈ ds, ¬ Hit name d) (hd : Hit name d) (a : ℕ) (junk : Dirent) :
    Peeks readable m.disk (lookupRoot mkfsLayout name a junk)
      ([copyOf m.disk a rootInodeNo], some (d.inodeNo, direntSize * ds.length)) := by
  obtain ⟨hlive, htype, -, hmax, hroot⟩ := h.root
  have hcont : contents m.disk (copyOf m.disk a rootInodeNo).entry = (ds ++ [d]).flatMap bytes ++
      (rest ++ (contents m.disk (copyOf m.disk a rootInodeNo).entry).drop (rootBytes files).length) := by
    rw [← List.append_assoc, ← hsplit]
    conv_lhs => rw [← List.take_append_drop (rootBytes files).length (contents _ _)]
    exact congrArg (· ++ _) hroot
  have hlookup := @inodeLookup_peeks readable m.disk (copyOf m.disk a rootInodeNo) name _ _ _
    (refs_mem_readable h hf hlive) htype hmax junk hds hd hcont
  unfold lookupRoot
  refine peeks_bind (inodeGet_peeks (by decide) (by decide) rfl (table_mem_readable (by decide))) ?_
  exact peeks_bind (inodeAt_peeks (findInode_copyOf m.disk a rootInodeNo)) (peeks_bind hlookup (peeks_pure _))

theorem lookup_of_split (h : Finished files m) (hf : Fits files) (hn : Named files)
    (hsplit : files = fs ++ f :: gs) (hno : UInt16.ofNat (fs.length + 2) ≠ 0) (a : ℕ) (junk : Dirent) :
    Peeks readable m.disk (lookupRoot mkfsLayout (nameOf f.name) a junk)
      ([copyOf m.disk a rootInodeNo],
        some (UInt16.ofNat (fs.length + 2), direntSize * (dots ++ direntsFrom 2 fs).length)) := by
  obtain ⟨rest, hrest⟩ := rootBytes_split hsplit
  have hhit : Hit (nameOf f.name) (Dirent.mk (UInt16.ofNat (fs.length + 2)) (nameOf f.name)) := by
    refine ⟨by rw [inodeNo_mk]; exact hno, ?_⟩
    rw [name_mk, same_nameOf (nul_notMem_name f) (nul_notMem_name f)]
  have hlookup := lookupRoot_peeks h hf hrest (hn.not_hit hsplit) hhit a junk
  rwa [inodeNo_mk] at hlookup

/-- **A file is read back** by a program that only reads. -/
theorem readFile_peeks (h : Finished files m) (hf : Fits files) (hn : Named files)
    (hsplit : files = fs ++ f :: gs) {a' : ℕ} (ha : a ≠ a') (junk : Dirent) {count : ℕ}
    (hcount : count < 2 ^ 64) :
    Peeks readable m.disk (readFile mkfsLayout (nameOf f.name) a a' junk count)
      (some (UInt16.ofNat (fs.length + 2), inodeRegular, f.bytes.length, min count f.bytes.length,
        f.bytes.take count)) := by
  have hnum := hf.inodes
  have hlength : files.length = fs.length + (gs.length + 1) := by
    rw [hsplit, List.length_append, List.length_cons]
  change files.length + 2 ≤ 200 at hnum
  have hno : (UInt16.ofNat (fs.length + 2)).toNat = fs.length + 2 := by
    rw [UInt16.toNat_ofNat', Nat.mod_eq_of_lt (by omega)]
  have hlt : fs.length + 2 < ninodes := show fs.length + 2 < 200 by omega
  have hholds := holds_of_split h hsplit
  have htype : (tableEntry mkfsLayout m.disk (fs.length + 2)).type = inodeRegular := by
    rw [hholds.type, if_neg (by unfold rootInodeNo; omega)]
  have hsize : f.bytes.length ≤ inodeMaxBytes := hf.sizes f (by simp [hsplit])
  have hfetch : fetchInode (fs.length + 2) [copyOf m.disk a rootInodeNo] = none := by
    simp [fetchInode, rootInodeNo, copyOf]
  have hfind' : findInode a' [copyOf m.disk a rootInodeNo, copyOf m.disk a' (fs.length + 2)] =
      some (copyOf m.disk a' (fs.length + 2)) := by
    simp [findInode, lookup, copyOf, ha]
  have hread := @inodeRead_peeks 0 count readable m.disk (copyOf m.disk a' (fs.length + 2))
    (refs_mem_readable h hf hholds.live) (by show Dinode.type (tableEntry _ _ _) ≠ _; rw [htype]; decide)
    (hholds.size.trans_le hsize) (Nat.zero_le _) (by rw [Nat.zero_add]; exact hcount)
  have hnumBytes : (copyOf m.disk a' (fs.length + 2)).entry.numBytes.toNat = f.bytes.length := hholds.size
  have hcontents : contents m.disk (copyOf m.disk a' (fs.length + 2)).entry = f.bytes := hholds.contents
  rw [hnumBytes, Nat.sub_zero, List.drop_zero, hcontents] at hread
  unfold readFile
  refine peeks_bind (lookup_of_split h hf hn hsplit (fun he => by rw [he] at hno; simp at hno) a junk) ?_
  dsimp only
  rw [hno]
  refine peeks_bind (inodeGet_peeks (by omega) hlt hfetch (table_mem_readable hlt)) ?_
  refine peeks_bind (inodeAt_peeks hfind') ?_
  refine peeks_bind hread ?_
  rw [hnumBytes, show (copyOf m.disk a' (fs.length + 2)).entry.type = inodeRegular from htype]
  exact peeks_pure _

/-! ### The blocks of the image -/

/-- Block `n` is used by the image: it lies before the data blocks, or it belongs to an inode. -/
def InImage (m : Image) (n : ℕ) : Prop :=
  n < nmeta ∨ ∃ k x, Live mkfsLayout m.disk k ∧ refs m.disk (tableEntry mkfsLayout m.disk k) x = n

/-- The call frees no block of the image, and stores into the bitmap only by `cache_alloc` and
`cache_free`. -/
def KeepsImage (m : Image) : Op → Prop
  | .modify n _ => n ≠ mkfsLayout.bitmapStart
  | .free n => ¬ InImage m n
  | _ => True

theorem inImage_iff (h : Finished files m) (n : ℕ) : InImage m n ↔ n < m.freeblock := by
  have hge : nmeta ≤ m.freeblock := by
    rw [h.free, Nat.add_assoc]
    exact Nat.le_add_right _ _
  have hb := h.blocks n
  constructor
  · rintro (hn | hn)
    · exact lt_of_lt_of_le hn hge
    · by_cases h0 : n = 0
      · rw [h0]
        exact lt_of_lt_of_le (by decide) hge
      · exact (hb.mpr ⟨h0, hn⟩).2
  · intro hn
    by_cases hlt : n < nmeta
    · exact Or.inl hlt
    · exact Or.inr (hb.mp ⟨not_lt.mp hlt, hn⟩).2

theorem bitmapBlock_of_lt (hk : k < 1000) : bitmapBlock mkfsLayout k = 91 := by
  show 91 + k / 4096 = 91
  omega

theorem spares_of_keeps (h : Finished files m) (hf : Fits files) {c : Op} (hc : KeepsImage m c) :
    Spares mkfsLayout m.freeblock c := by
  have hle := freeblock_le h hf
  cases c with
  | modify n f =>
    intro k hk
    rw [bitmapBlock_of_lt (by omega)]
    exact Ne.symm hc
  | free n => exact not_lt.mp (mt (inImage_iff h n).mpr hc)
  | beginOp | endOp | acquire _ | sync _ | release _ | alloc | consoleRead _ | consoleWrite _ => trivial

theorem reserved_image (h : Finished files m) (hf : Fits files) {d : Disk}
    (hd : ∀ n ∈ home mkfsLayout, d n = m.disk n) : Reserved mkfsLayout m.freeblock d := by
  have hle := freeblock_le h hf
  intro n hn
  have hmod : n % bitPerBlock = n := Nat.mod_eq_of_lt (show n < 4096 by omega)
  unfold marked
  rw [bitmapBlock_of_lt (by omega), hd 91 (by decide), hmod]
  exact (h.bits n).trans (decide_eq_true hn)

/-- **`cache_alloc`** gives out no block of the image. -/
theorem allocations_notMem (h : Finished files m) (hf : Fits files) {d : Disk} {cs : List Op} {ns : List ℕ}
    {x : Arr} (hd : ∀ n ∈ home mkfsLayout, d n = m.disk n) (hcs : ∀ c ∈ cs, KeepsImage m c)
    (hrun : (allocations cs).run (onArray mkfsLayout) (.init d) = some (ns, x)) :
    ∀ n ∈ ns, ¬ InImage m n := by
  have hle := freeblock_le h hf
  obtain ⟨x', hvol, -⟩ := onVolume_of_onArray (shows_mount d) hrun
  have hge : nmeta ≤ m.freeblock := by
    rw [h.free, Nat.add_assoc]
    exact Nat.le_add_right _ _
  change 92 ≤ m.freeblock at hge
  have hall := allocations_ge (fun k hk => by rw [bitmapBlock_of_lt (by omega)]; omega)
    (reserved_image h hf hd) (fun c hc => spares_of_keeps h hf (hcs c hc)) hvol
  intro n hn
  rw [inImage_iff h, not_lt]
  exact hall n hn

/-! ### The two together -/

theorem hasSuperBlock (h : Finished files m) : HasSuperBlock (m.disk 0) mkfsLayout := by
  rw [h.low 0 (by decide)]
  constructor <;> decide +kernel

theorem numOf_log (h : Finished files m) : LogHeader.numOf (m.disk mkfsLayout.logStart) = 0 := by
  rw [h.low mkfsLayout.logStart (by decide)]
  decide +kernel

/-- **Images of `mkfs` are read back by the kernel.** If the files fit and their recorded names are
distinct, `mkfs` builds an image, the kernel starts on it, and then:

* every file is found in the root directory by its name, and has the size and the bytes it had;
* the calls that a client makes to the cache, as long as it frees no block of the image, give out no
  block of the image. -/
theorem image_read_back (hf : Fits files) (hn : Named files) :
    ∃ m, mkfs files = some m ∧ (∃ s, Mounts mkfsLayout m.disk s) ∧
      ∀ s, Mounts mkfsLayout m.disk s → ∀ al : Alloc,
        (∀ i (hi : i < files.length) a a' junk count, a ≠ a' → count < 2 ^ 64 → ∃ s',
          (readFile mkfsLayout (nameOf files[i].name) a a' junk count).run (onCache mkfsLayout al) s =
            some (some (UInt16.ofNat (i + 2), inodeRegular, files[i].bytes.length,
              min count files[i].bytes.length, files[i].bytes.take count), s')) ∧
        (∀ cs ns x, (∀ c ∈ cs, KeepsImage m c) →
          (allocations cs).run (onArray mkfsLayout) (.init s.disk) = some (ns, x) →
          (∃ s', (allocations cs).run (onCache mkfsLayout al) s = some (ns, s')) ∧
            ∀ n ∈ ns, ¬ InImage m n) := by
  obtain ⟨m, hm, h⟩ := mkfs_finished hf
  refine ⟨m, hm, exists_mounts (hasSuperBlock h), fun s hs al => ?_⟩
  have hcap : opMaxNumBlocks < mkfsLayout.numLogBlocks := by decide
  obtain ⟨hsim, hdisk⟩ := hs.sim (numOf_log h)
  refine ⟨fun i hi a a' junk count ha hcount => ?_, fun cs ns x hcs hrun => ?_⟩
  · have hsplit : files = files.take i ++ files[i] :: files.drop (i + 1) := by
      rw [List.getElem_cons_drop, List.take_append_drop]
    have hpeek := readFile_peeks h hf hn hsplit ha junk hcount
    rw [List.length_take, min_eq_left (by omega)] at hpeek
    have hrun := run_onArray_of_peeks (x := .init s.disk) hpeek (fun n hn => ⟨hn.1, hn.2, hdisk n hn.1⟩) rfl rfl
    obtain ⟨s', hcache, -⟩ := onCache_of_onArray al hcap hsim hrun
    exact ⟨s', hcache⟩
  · obtain ⟨s', hcache, -⟩ := onCache_of_onArray al hcap hsim hrun
    exact ⟨⟨s', hcache⟩, allocations_notMem h hf hdisk hcs hrun⟩

/-- Two files: `user/_cat`, which is recorded as `cat`, and an empty file `readme`. -/
def twoFiles : List InputFile :=
  [⟨[117, 115, 101, 114, 47, 95, 99, 97, 116], [[1, 2], [3]], by decide, by decide, by decide⟩,
    ⟨[114, 101, 97, 100, 109, 101], [], by decide, by decide, by decide⟩]

theorem fits_twoFiles : Fits twoFiles := ⟨by decide, by decide, by decide⟩

theorem named_twoFiles : Named twoFiles := ⟨by decide, by decide⟩

/-- `init_bcache` on a device with an empty log: it reads the header, reads no block, empties the header
and writes it. -/
@[irreducible]
def initEmpty (d : Disk) : CkptPc × LogHeader × Disk := initBcache mkfsLayout ⟨0, fun _ => 0⟩ d 4

theorem mounts_initEmpty {d : Disk} (hsb : HasSuperBlock (d 0) mkfsLayout)
    (h0 : LogHeader.numOf (d mkfsLayout.logStart) = 0) :
    Mounts mkfsLayout d { boot (initEmpty d).2.2 with header := (initEmpty d).2.1 } := by
  have hdone : (initEmpty d).1 = .done := by
    unfold initEmpty
    simp [initBcache, ckptStep, spawnCkpt, LogHeader.read, h0]
  have hrun : initEmpty d = (.done, (initEmpty d).2.1, (initEmpty d).2.2) := by
    rw [← hdone]
  refine ⟨hsb, ⟨0, fun _ => 0⟩, _, 4, _, ?_, rfl⟩
  rw [← hrun, initEmpty]

theorem image_read_back_twoFiles : ∃ m s s' x, Fits twoFiles ∧ Named twoFiles ∧ mkfs twoFiles = some m ∧
    Mounts mkfsLayout m.disk s ∧
    (readFile mkfsLayout (nameOf [99, 97, 116]) 7 8 (fun _ => 0) 512).run (onCache mkfsLayout nextFit) s =
      some (some (2, inodeRegular, 3, 3, [1, 2, 3]), s') ∧
    (allocations [.beginOp, .alloc, .endOp]).run (onArray mkfsLayout) (.init s.disk) = some ([94], x) ∧
    ¬ InImage m 94 := by
  have hex : ((mkfs twoFiles).any fun m =>
      ((allocations [.beginOp, .alloc, .endOp]).run (onArray mkfsLayout) (.init (initEmpty m.disk).2.2)).any
        fun y => y.1 = [94]) = true := by decide +kernel
  obtain ⟨m, hm, hany⟩ := (Option.any_eq_true _ _).mp hex
  obtain ⟨⟨ns, x⟩, halloc, hns⟩ := (Option.any_eq_true _ _).mp hany
  obtain rfl : ns = [94] := by simpa using hns
  obtain ⟨m', hm', hfin⟩ := mkfs_finished fits_twoFiles
  obtain rfl : m = m' := Option.some.inj (hm.symm.trans hm')
  have hs := mounts_initEmpty (hasSuperBlock hfin) (numOf_log hfin)
  obtain ⟨m', hm', -, hall⟩ := image_read_back fits_twoFiles named_twoFiles
  obtain rfl : m = m' := Option.some.inj (hm.symm.trans hm')
  obtain ⟨hread, hfree⟩ := hall _ hs nextFit
  obtain ⟨s', hcat⟩ := hread 0 (by decide) 7 8 (fun _ => 0) 512 (by decide) (by norm_num)
  have hkeep : ∀ c ∈ [Op.beginOp, .alloc, .endOp], KeepsImage m c := by simp [KeepsImage]
  exact ⟨m, _, s', x, fits_twoFiles, named_twoFiles, hm, hs, hcat, halloc,
    (hfree _ _ x hkeep halloc).2 94 List.mem_cons_self⟩

/-! ### Holes -/

/-- **`mkfs` leaves no hole** just where the entries of the root directory do not fill their blocks. -/
theorem mkfs_noHoles_iff (hf : Fits files) :
    ∃ m, mkfs files = some m ∧ (NoHoles m.disk ↔ ¬ 32 ∣ files.length + 2) := by
  obtain ⟨m, hm, hb, -, -, hroot⟩ := mkfs_close hf
  exact ⟨_, hm, noHoles_close_iff hf hb hroot⟩

theorem mkfs_noHoles_twoFiles : Fits twoFiles ∧ ∃ m, mkfs twoFiles = some m ∧ NoHoles m.disk := by
  obtain ⟨m, hm, hiff⟩ := mkfs_noHoles_iff fits_twoFiles
  exact ⟨fits_twoFiles, m, hm, hiff.mpr (by decide)⟩

/-- Thirty empty files. -/
def thirtyFiles : List InputFile := (List.finRange 30).map fun i : Fin 30 =>
  ⟨[UInt8.ofNat (97 + i.val)], [], by revert i; decide, by decide, by decide⟩

theorem mkfs_hole_thirtyFiles : Fits thirtyFiles ∧ ∃ m, mkfs thirtyFiles = some m ∧ ¬ NoHoles m.disk := by
  have hf : Fits thirtyFiles := ⟨by decide, by decide, by decide⟩
  obtain ⟨m, hm, hb, -, -, hroot⟩ := mkfs_close hf
  exact ⟨hf, _, hm, fun hno => (noHoles_close_iff hf hb hroot).mp hno (by decide)⟩

/-! ### A file that is not found -/

theorem dot_is_root (h : Finished files m) (hf : Fits files) (a : ℕ) (junk : Dirent) :
    Peeks readable m.disk (lookupRoot mkfsLayout (nameOf dot) a junk)
      ([copyOf m.disk a rootInodeNo], some (1, 0)) := by
  have hsplit : rootBytes files = ([] ++ [Dirent.mk 1 (nameOf dot)]).flatMap bytes ++
      (entryBytes rootInodeNo dotDot ++ entriesFrom 2 files) := by
    rw [rootBytes, rootStart, List.append_assoc, List.nil_append, List.flatMap_cons, List.flatMap_nil,
      List.append_nil]
    rfl
  have hhit : Hit (nameOf dot) (Dirent.mk 1 (nameOf dot)) := by
    refine ⟨by rw [inodeNo_mk]; decide, ?_⟩
    rw [name_mk, same_nameOf (by decide) (by decide)]
  have hlookup := lookupRoot_peeks h hf hsplit (fun d hd => absurd hd List.not_mem_nil) hhit a junk
  rwa [inodeNo_mk] at hlookup

/-- The file `_.`, which is recorded as `.`. -/
def underscoreDot : InputFile := ⟨[95, 46], [[65]], by decide, by decide, by decide⟩

/-- The file `_.` alone fits the image, but its name leads to the root directory. -/
theorem underscoreDot_not_found : Fits [underscoreDot] ∧
    ([underscoreDot].map fun f => f.name.take fileNameMaxLength).Nodup ∧
    ∃ m s l s', mkfs [underscoreDot] = some m ∧ Mounts mkfsLayout m.disk s ∧
      (lookupRoot mkfsLayout (nameOf underscoreDot.name) 7 (fun _ => 0)).run (onCache mkfsLayout nextFit) s =
        some ((l, some (1, 0)), s') ∧
      (tableEntry mkfsLayout m.disk 1).type = inodeDirectory ∧ Holds m.disk 2 underscoreDot.bytes := by
  have hf : Fits [underscoreDot] := ⟨by decide, by decide, by decide⟩
  obtain ⟨m, hm, h⟩ := mkfs_finished hf
  obtain ⟨s, hs⟩ := exists_mounts (hasSuperBlock h)
  obtain ⟨hsim, hdisk⟩ := hs.sim (numOf_log h)
  have hrun := run_onArray_of_peeks (x := .init s.disk) (dot_is_root h hf 7 fun _ => 0)
    (fun n hn => ⟨hn.1, hn.2, hdisk n hn.1⟩) rfl rfl
  obtain ⟨s', hcache, -⟩ := onCache_of_onArray nextFit (by decide) hsim hrun
  exact ⟨hf, by decide, m, s, _, s', hm, hs, hcache, h.root.2.1, holds_of_split h (List.nil_append [underscoreDot]).symm⟩

end OsHonor.User.Mkfs.Mounted
