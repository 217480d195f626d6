import OsHonor.Fs.Inodes.CachedInodes
import OsHonor.Fs.Inodes.Paths

/-! # Path resolution

What a path means is said by the directories on the disk: `child` is the inode number of a name in a directory,
and `walk` looks up one component after the other. `namex` finds the inode that is reached, or the directory
before the last component, and hands out one reference to it; all other references it takes on its way it gives
back (`namex_resolves`). -/

namespace OsHonor.Fs.Inodes.Resolution

open Option List Base.Programs Base.Slots BlockDevice
open Format Code BlockStore Files
open Accounting Directories CachedInodes
open Paths Contents Base.Bytes

variable {sb : SuperBlock} {al : Allocator sb} {s : Store} {b : Disk} {l l₀ l' : List Inode} {i : Inode}
  {ip m n : ℕ}

/-! ### The tree -/

/-- The inode that has the name `c` in a directory. -/
def child (b : Disk) (e : Dinode) (c : List UInt8) : Option ℕ :=
  (slotOf used key c (dirents (contents b e))).map numberOf

variable (sb) in
/-- Inode `n` is a directory. -/
def IsDir (b : Disk) (n : ℕ) : Prop := (tableEntry sb b n).type = inodeDirectory

instance : DecidablePred (IsDir sb b) := fun n => inferInstanceAs (Decidable ((tableEntry sb b n).type = _))

variable (sb) in
/-- **The inode reached** by looking up the names one after the other. -/
def walk (b : Disk) : ℕ → List (List UInt8) → Option ℕ
  | n, [] => some n
  | n, c :: cs => if IsDir sb b n then (child b (tableEntry sb b n) c).bind fun k => walk b k cs else none

variable (sb) in
/-- **What `namex` should find**: the inode reached, or the directory in which the last name would be. -/
def resolve (b : Disk) (parent : Bool) (n : ℕ) (cs : List (List UInt8)) : Option ℕ :=
  if parent then
    if cs = [] then none else (walk sb b n cs.dropLast).filter fun k => IsDir sb b k
  else walk sb b n cs

variable (sb) in
/-- The directories consist of whole entries, and these are to inodes in use that have links or references. -/
structure TreeOk (b : Disk) (l : List Inode) : Prop where
  whole : ∀ n < sb.numInodes, IsDir sb b n → (tableEntry sb b n).numBytes.toNat % direntSize = 0
  size : ∀ n < sb.numInodes, IsDir sb b n → (tableEntry sb b n).numBytes.toNat ≤ inodeMaxBytes
  target : ∀ n < sb.numInodes, IsDir sb b n → ∀ d ∈ dirents (contents b (tableEntry sb b n)), used d = true →
    Live sb b (numberOf d) ∧ ((tableEntry sb b (numberOf d)).numLinks ≠ 0 ∨ 0 < refCount l (numberOf d))

/-! ### Resolving -/

variable {c : List UInt8}

theorem resolve_of_not_dir {parent : Bool} {cs : List (List UInt8)} (h : ¬ IsDir sb b n) :
    resolve sb b parent n (c :: cs) = none := by
  unfold resolve
  cases parent with
  | false => exact if_neg h
  | true =>
    rw [if_pos rfl, if_neg (cons_ne_nil c cs)]
    cases cs with
    | nil => simp [walk, h]
    | cons c' cs =>
      rw [dropLast_cons_cons, walk, if_neg h]
      rfl

theorem resolve_child {parent : Bool} {cs : List (List UInt8)} (h : IsDir sb b n)
    (hp : parent = true → cs ≠ []) : resolve sb b parent n (c :: cs) =
      (child b (tableEntry sb b n) c).bind fun k => resolve sb b parent k cs := by
  unfold resolve
  cases parent with
  | false => exact if_pos h
  | true =>
    obtain ⟨c', cs, rfl⟩ := exists_cons_of_ne_nil (hp rfl)
    rw [if_pos rfl, if_neg (cons_ne_nil c _), dropLast_cons_cons, walk, if_pos h]
    cases child b (tableEntry sb b n) c with
    | none => rfl
    | some k => rfl

theorem resolve_last (h : IsDir sb b n) : resolve sb b true n [c] = some n := by
  simp [resolve, walk, h]

/-! ### The loop -/

variable (sb) in
/-- The loop stands at inode `n`, to which it has the reference `ip`; the other references are those of `l₀`. -/
structure Standing (b : Disk) (l₀ l : List Inode) (ip n : ℕ) : Prop where
  cache : CacheOk sb b l
  keeps : Extends l₀ l
  here : ∃ i ∈ l, i.addr = ip ∧ i.inodeNo = n ∧ 0 < i.rc
  counts : ∀ m, refCount l m = refCount l₀ m + if m = n then 1 else 0
  safe : (tableEntry sb b n).numLinks ≠ 0 ∨ 0 < refCount l₀ n

variable (sb) in
/-- **What `namex` returns**, where `expected` is what it should find. -/
structure Outcome (b : Disk) (l₀ : List Inode) (parent : Bool) (cs : List (List UInt8)) (expected : Option ℕ)
    (r : Option ℕ × Name × List Inode) : Prop where
  cache : CacheOk sb b r.2.2
  keeps : Extends l₀ r.2.2
  null : expected = none → r.1 = none
  found : ∀ n, expected = some n → ∃ i ∈ r.2.2, r.1 = some i.addr ∧ i.inodeNo = n ∧ 0 < i.rc
  counts : ∀ m, refCount r.2.2 m = refCount l₀ m + if expected = some m then 1 else 0
  name : parent = true → expected.isSome = true → cs.getLast? = some (Name.key r.2.1)

theorem run_deref (h : CacheOk sb b l) (hi : i ∈ l) (ha : i.addr = ip) : (deref l ip).run (storeCall al) s = some (i, s) := by
  unfold deref
  rw [h.find.mpr ⟨hi, ha⟩]
  rfl

theorem run_inodeLock (h : CacheOk sb b l) (hi : i ∈ l) (ha : i.addr = ip) (hpos : 0 < i.rc) :
    (inodeLock l ip).run (storeCall al) s = some (i, s) := by
  unfold inodeLock
  simp [run_deref h hi ha, hpos]

theorem run_inodeUnlock (h : CacheOk sb b l) (hi : i ∈ l) (ha : i.addr = ip) (hpos : 0 < i.rc) :
    (inodeUnlock l ip).run (storeCall al) s = some ((), s) := by
  unfold inodeUnlock
  simp [run_deref h hi ha, hpos]

theorem run_inodePutAt (h : CacheOk sb b l) (hi : i ∈ l) (ha : i.addr = ip) :
    (inodePutAt sb l ip).run (storeCall al) s = (inodePut sb l i).run (storeCall al) s := by
  unfold inodePutAt
  rw [Prog.run_bind, run_deref h hi ha]
  rfl

namespace Standing

variable (al) in
theorem put (h : Standing sb s.blocks l₀ l ip n) :
    ∃ l', (inodePutAt sb l ip).run (storeCall al) s = some (l', s) ∧ CacheOk sb s.blocks l' ∧ Extends l₀ l' ∧
      ∀ m, refCount l' m = refCount l₀ m := by
  obtain ⟨i, hi, ha, rfl, hpos⟩ := h.here
  have hmore : (tableEntry sb s.blocks i.inodeNo).numLinks ≠ 0 ∨ 1 < refCount l i.inodeNo := by
    refine h.safe.imp_right fun hr => ?_
    rw [h.counts, if_pos rfl]
    omega
  obtain ⟨l', hrun, hc, hset⟩ := h.cache.put al hi hpos hmore
  refine ⟨l', (run_inodePutAt h.cache hi ha).trans hrun, hc, h.keeps.trans hset.extends, fun m => ?_⟩
  rw [hset.counts m, h.counts m]
  split_ifs <;> ring

variable (al) in
/-- **The reference is exchanged** for one to another inode. -/
theorem next {k a : ℕ} (h : Standing sb s.blocks l₀ l ip n) (ha : ∀ i ∈ l, i.addr ≠ a) (hk : 0 < k)
    (hlive : Live sb s.blocks k) (hsafe : (tableEntry sb s.blocks k).numLinks ≠ 0 ∨ 0 < refCount l₀ k) :
    ∃ c l₁ l', (inodeGet sb l a k).run (storeCall al) s = some ((c, l₁), s) ∧
      (inodeUnlock l₁ ip).run (storeCall al) s = some ((), s) ∧
      (inodePutAt sb l₁ ip).run (storeCall al) s = some (l', s) ∧ Standing sb s.blocks l₀ l' c k := by
  obtain ⟨i, hi, hia, rfl, hpos⟩ := h.here
  obtain ⟨c, l₁, j, hget, hc₁, hgrow, hj, hja, rfl, hjpos, hcnt⟩ := h.cache.get al ha hk hlive
  obtain ⟨z, hz, hi₁⟩ := hgrow i hi
  have hzpos : 0 < z := lt_of_lt_of_le hpos hz
  have hmore : (tableEntry sb s.blocks i.inodeNo).numLinks ≠ 0 ∨ 1 < refCount l₁ i.inodeNo := by
    refine h.safe.imp_right fun hr => ?_
    rw [hcnt, h.counts, if_pos rfl]
    split_ifs <;> omega
  obtain ⟨l', hput, hc', hset⟩ := hc₁.put al hi₁ hzpos hmore
  have hcount : ∀ m, refCount l' m = refCount l₀ m + if m = j.inodeNo then 1 else 0 := by
    intro m
    rw [hset.counts m, hcnt m, h.counts m]
    split_ifs <;> ring
  refine ⟨c, l₁, l', hget, run_inodeUnlock hc₁ hi₁ hia hzpos, (run_inodePutAt hc₁ hi₁ hia).trans hput, hc',
    h.keeps.trans (hgrow.extends.trans hset.extends), ?_, hcount, hsafe⟩
  by_cases he : j = { i with rc := z }
  · -- the inode is looked up in itself: it has two references more than at the start
    have hnum : j.inodeNo = i.inodeNo := by rw [he]
    have hrc := hc₁.rc_eq hj hjpos
    have hl := h.cache.rc_eq hi hpos
    rw [h.counts, if_pos rfl] at hl
    rw [hcnt, h.counts, if_pos rfl, if_pos hnum, hnum] at hrc
    have hjz : j.rc = z := by rw [he]
    refine ⟨_, hset.there, ?_, hnum.symm, show 0 < z - 1 by omega⟩
    rw [← hja, he]
  · exact ⟨j, hset.others j hj he, hja, rfl, hjpos⟩

end Standing

/-! ### One component -/

/-- **`inode_lookup`** on a copy finds what `child` says. -/
theorem lookup_child {name : Name} (ht : TreeOk sb s.blocks l₀) (hi : Copy sb s.blocks i)
    (hd : IsDir sb s.blocks i.inodeNo) (junk : Dirent) :
    (child s.blocks (tableEntry sb s.blocks i.inodeNo) (Name.key name) = none ∧
      (inodeLookup i name junk).run (storeCall al) s = some (none, s)) ∨
    ∃ (d : Dirent) (index : ℕ), child s.blocks (tableEntry sb s.blocks i.inodeNo) (Name.key name) = some (numberOf d) ∧
      (inodeLookup i name junk).run (storeCall al) s = some (some (d.inodeNo, index), s) ∧ 0 < numberOf d ∧
      Live sb s.blocks (numberOf d) ∧
      ((tableEntry sb s.blocks (numberOf d)).numLinks ≠ 0 ∨ 0 < refCount l₀ (numberOf d)) := by
  have hdir : i.entry.type = inodeDirectory := by
    rw [hi.entry]
    exact hd
  have hsize : i.entry.numBytes.toNat ≤ inodeMaxBytes := by
    rw [hi.entry]
    exact ht.size _ hi.live.1 hd
  have hcont : contents s.blocks i.entry = (dirents (contents s.blocks i.entry)).flatMap bytes := by
    refine (flatMap_dirents ?_).symm
    rw [length_contents, hi.entry]
    exact ht.whole _ hi.live.1 hd
  unfold child
  rw [← hi.entry]
  cases hslot : slotOf used key (Name.key name) (dirents (contents s.blocks i.entry)) with
  | none => exact Or.inl ⟨rfl, run_inodeLookup_none hdir hsize hcont hslot junk⟩
  | some d =>
    obtain ⟨hmem, hu, -⟩ := slotOf_some hslot
    obtain ⟨p, q, -, hrun⟩ := run_inodeLookup_some al hdir hsize hcont hslot junk
    have hpos : 0 < numberOf d := Nat.pos_of_ne_zero fun h0 => by
      unfold used at hu
      rw [decide_eq_true_eq] at hu
      exact hu (UInt16.toNat_inj.mp h0)
    rw [hi.entry] at hmem
    obtain ⟨hlive, hsafe⟩ := ht.target _ hi.live.1 hd d hmem hu
    exact Or.inr ⟨d, _, rfl, hrun, hpos, hlive, hsafe⟩

/-! ### The outcome -/

section

variable {parent : Bool} {cs : List (List UInt8)} {expected : Option ℕ} {name : Name}

theorem Standing.outcome (h : Standing sb b l₀ l ip n) (hexp : expected = some n)
    (hname : parent = true → cs.getLast? = some (Name.key name)) :
    Outcome sb b l₀ parent cs expected (some ip, name, l) := by
  subst hexp
  refine ⟨h.cache, h.keeps, fun h0 => absurd h0 (some_ne_none n), fun m hm => ?_, fun m => ?_,
    fun hp _ => hname hp⟩
  · obtain ⟨i, hi, ha, hn, hpos⟩ := h.here
    exact ⟨i, hi, congrArg some ha.symm, hn.trans (some.inj hm), hpos⟩
  · rw [h.counts m]
    simp only [some.injEq, eq_comm]

theorem outcome_null (hc : CacheOk sb b l) (hk : Extends l₀ l) (hcnt : ∀ m, refCount l m = refCount l₀ m)
    (hexp : expected = none) : Outcome sb b l₀ parent cs expected (none, name, l) := by
  subst hexp
  exact ⟨hc, hk, fun _ => rfl, fun n hn => absurd hn.symm (some_ne_none n), fun m => by simp [hcnt m],
    fun _ h => absurd h Bool.false_ne_true⟩

theorem Standing.giveUp (h : Standing sb s.blocks l₀ l ip n) (hexp : expected = none) : ∃ r, (do
      inodeUnlock l ip let l ← inodePutAt sb l ip
      pure (none, name, l) : FsProg (Option ℕ × Name × List Inode)).run (storeCall al) s = some (r, s) ∧
      Outcome sb s.blocks l₀ parent cs expected r := by
  obtain ⟨i, hi, ha, -, hpos⟩ := h.here
  obtain ⟨l', hput, hc, hkeep, hcnt⟩ := h.put al
  refine ⟨(none, name, l'), ?_, outcome_null hc hkeep hcnt hexp⟩
  rw [Prog.run_bind, run_inodeUnlock h.cache hi ha hpos, bind_some, Prog.run_bind, hput]
  rfl

theorem Outcome.cons {r : Option ℕ × Name × List Inode}
    (h : Outcome sb b l₀ parent cs expected r) (hp : parent = true → cs ≠ []) :
    Outcome sb b l₀ parent (c :: cs) expected r := by
  refine ⟨h.cache, h.keeps, h.null, h.found, h.counts, fun hpar hsome => ?_⟩
  rw [getLast?_cons_of_ne_nil (hp hpar)]
  exact h.name hpar hsome

end

/-! ### `namex` -/

section

variable {kalloc : List ℕ → ℕ} {parent : Bool}

/-- **The loop.** The rest of the path gets shorter with every turn, so the fuel is enough. -/
theorem namexLoop_resolves (hk : ∀ l, kalloc l ∉ l) (ht : TreeOk sb s.blocks l₀) (junk : Dirent) :
    ∀ {fuel : ℕ} {l : List Inode} {ip n : ℕ} {path : List UInt8} {name : Name}, path.length < fuel → 0 ∉ path →
    Standing sb s.blocks l₀ l ip n →
    ∃ r, (namexLoop sb kalloc junk parent fuel l ip path name).run (storeCall al) s = some (r, s) ∧
      Outcome sb s.blocks l₀ parent (components path) (resolve sb s.blocks parent n (components path)) r := by
  intro fuel
  induction fuel with
  | zero => exact fun h => absurd h (Nat.not_lt_zero _)
  | succ fuel ih =>
    intro l ip n path name hfuel hnul h
    unfold namexLoop
    cases hskip : skipelem path name with
    | none =>
      have hcs : components path = [] := by rw [components, skipelem_none hskip, map_nil]
      rw [hcs]
      cases parent with
      | true =>
        obtain ⟨l', hput, hc, hkeep, hcnt⟩ := h.put al
        refine ⟨(none, name, l'), ?_, outcome_null hc hkeep hcnt rfl⟩
        dsimp only
        rw [if_pos rfl, Prog.run_bind, hput]
        rfl
      | false => exact ⟨(some ip, name, l), rfl, h.outcome rfl fun hp => absurd hp Bool.false_ne_true⟩
    | some q =>
      obtain ⟨path', name'⟩ := q
      obtain ⟨e, hel, rfl, hsub, hsub', hlen, hend⟩ := skipelem_some hskip
      have hkey : Name.key (setName name e) = e.take fileNameMaxLength := key_setName fun h0 => hnul (hsub h0)
      have hcs : components path = e.take fileNameMaxLength :: components path' := by
        rw [components, hel, map_cons, ← components]
      have hempty : path'.isEmpty = true ↔ components path' = [] := by
        rw [List.isEmpty_iff, hend, components, map_eq_nil_iff]
      obtain ⟨i, hi, ha, rfl, hpos⟩ := h.here
      have hcopy := h.cache.copy i hi hpos
      have htype : i.entry.type = inodeDirectory ↔ IsDir sb s.blocks i.inodeNo := by
        rw [hcopy.entry]
        exact Iff.rfl
      rw [hcs]
      dsimp only
      rw [Prog.run_bind, run_inodeLock h.cache hi ha hpos, bind_some]
      dsimp only
      by_cases hdir : IsDir sb s.blocks i.inodeNo
      · rw [if_neg (not_not.mpr (htype.mpr hdir))]
        by_cases hlast : (parent && path'.isEmpty) = true
        · -- the directory of the last component
          obtain ⟨rfl, hnil⟩ := (Bool.and_eq_true _ _).mp hlast
          rw [if_pos hlast, hempty.mp hnil]
          refine ⟨(some ip, setName name e, l), ?_, h.outcome (resolve_last hdir) fun _ => ?_⟩
          · rw [Prog.run_bind, run_inodeUnlock h.cache hi ha hpos]
            rfl
          · rw [hkey]
            rfl
        · have hmore : parent = true → components path' ≠ [] := fun hp hnil =>
            hlast ((Bool.and_eq_true _ _).mpr ⟨hp, hempty.mpr hnil⟩)
          rw [if_neg hlast, Prog.run_bind, resolve_child hdir hmore, ← hkey]
          rcases lookup_child ht hcopy hdir junk with ⟨hchild, hrun⟩ | ⟨d, index, hchild, hrun, hdpos, hlive, hsafe⟩
          · rw [hrun, hchild]
            exact h.giveUp rfl
          · -- on to the inode that the entry names
            have hfresh : ∀ j ∈ l, j.addr ≠ kalloc (l.map Inode.addr) := fun j hj he =>
              hk _ (mem_map.mpr ⟨j, hj, he⟩)
            obtain ⟨c, l₁, l', hget, hunlock, hput, h'⟩ := h.next al hfresh hdpos hlive hsafe
            obtain ⟨r, hr, hout⟩ := ih (Nat.lt_of_lt_of_le hlen (Nat.le_of_lt_succ hfuel))
              (fun h0 => hnul (hsub' h0)) h'
            refine ⟨r, ?_, ?_⟩
            · rw [hrun, bind_some]
              dsimp only
              rw [Prog.run_bind, show (inodeGet sb l (kalloc (l.map Inode.addr)) d.inodeNo.toNat).run (storeCall al) s =
                some ((c, l₁), s) from hget, bind_some]
              dsimp only
              rw [Prog.run_bind, hunlock, bind_some, Prog.run_bind, hput]
              exact hr
            · rw [hchild]
              exact hout.cons hmore
      · rw [if_pos (mt htype.mp hdir)]
        exact h.giveUp (resolve_of_not_dir hdir)

def startInode (root cwd : Inode) (path : List UInt8) : Inode := if path.head? = some slash then root else cwd

theorem addr_startInode (root cwd : Inode) (path : List UInt8) :
    (startInode root cwd path).addr = startOf root.addr cwd.addr path := by
  unfold startInode startOf
  split_ifs <;> rfl

variable (al) in
/-- **Path resolution follows the components.** `namex` returns, with the disk as it was; what it returns and the
references it leaves are told by `Outcome`. -/
theorem namex_resolves (hk : ∀ l, kalloc l ∉ l) (h : CacheOk sb s.blocks l) (ht : TreeOk sb s.blocks l)
    {root cwd : Inode} (hroot : root ∈ l ∧ 0 < root.rc) (hcwd : cwd ∈ l ∧ 0 < cwd.rc) (path : List UInt8)
    (hnul : 0 ∉ path) (parent : Bool) (name : Name) (junk : Dirent) :
    ∃ r, (namex sb kalloc junk l root.addr cwd.addr path parent name).run (storeCall al) s = some (r, s) ∧
      Outcome sb s.blocks l parent (components path)
        (resolve sb s.blocks parent (startInode root cwd path).inodeNo (components path)) r := by
  have hstart : startInode root cwd path ∈ l ∧ 0 < (startInode root cwd path).rc := by
    unfold startInode
    split_ifs
    · exact hroot
    · exact hcwd
  obtain ⟨hi, hpos⟩ := hstart
  obtain ⟨hc, hset⟩ := h.share hi hpos
  have hstand : Standing sb s.blocks l (inodeShare l (startInode root cwd path)) (startInode root cwd path).addr
      (startInode root cwd path).inodeNo := by
    refine ⟨hc, hset.extends, ⟨_, hset.there, rfl, rfl, Int.lt_add_one_of_le hpos.le⟩, fun m => ?_, Or.inr ?_⟩
    · rw [hset.counts m, add_sub_cancel_left]
    · rw [h.rc_eq hi hpos]
      exact hpos
  obtain ⟨r, hr, hout⟩ := namexLoop_resolves hk ht junk (Nat.lt_succ_self path.length) hnul hstand
  refine ⟨r, ?_, hout⟩
  unfold namex
  rw [Prog.run_bind, ← addr_startInode, run_deref h hi rfl]
  exact hr

end

/-! ### A small tree -/

/-- The directory `/` with the directory `a` in it, and the file `b` in that one. -/
def sampleTree : Store :=
  let dir (n : UInt32) : Dinode := ⟨inodeDirectory, 0, 0, 1, 16, fun i => if i.val = 0 then n else 0, 0⟩
  let s : Store := ⟨fun n => if n = 92 then Buf.splice 0 (bytes (Dirent.mk 2 (nameOf [97]))) fun _ => 0
    else if n = 93 then Buf.splice 0 (bytes (Dirent.mk 3 (nameOf [98]))) fun _ => 0 else fun _ => 0, ∅, [], []⟩
  putEntry mkfsLayout (putEntry mkfsLayout (putEntry mkfsLayout s 1 (dir 92)) 2 (dir 93)) 3
    { Dinode.zero with type := inodeRegular, numLinks := 1 }

def sampleRoot : Inode := ⟨0, 1, 1, true, tableEntry mkfsLayout sampleTree.blocks 1⟩

theorem cacheOk_sampleRoot : CacheOk mkfsLayout sampleTree.blocks [sampleRoot] where
  addrs := nodup_singleton _
  copy i hi _ := by
    obtain rfl := mem_singleton.mp hi
    exact ⟨rfl, rfl, by decide +kernel⟩
  unique i hi j hj _ _ _ := by rw [mem_singleton.mp hi, mem_singleton.mp hj]
  nonneg i hi := by
    rw [mem_singleton.mp hi]
    exact zero_le_one

theorem isDir_sampleTree : ∀ n < mkfsLayout.numInodes, IsDir mkfsLayout sampleTree.blocks n → n = 1 ∨ n = 2 := by
  decide +kernel

theorem treeOk_sampleTree : TreeOk mkfsLayout sampleTree.blocks [sampleRoot] where
  whole n hn hd := by
    rcases isDir_sampleTree n hn hd with rfl | rfl <;> decide +kernel
  size n hn hd := by
    rcases isDir_sampleTree n hn hd with rfl | rfl <;> decide +kernel
  target n hn hd d hmem _ := by
    rcases isDir_sampleTree n hn hd with rfl | rfl
    · have hroot : dirents (contents sampleTree.blocks (tableEntry mkfsLayout sampleTree.blocks 1)) =
          [Dirent.mk 2 (nameOf [97])] := by decide +kernel
      rw [hroot, mem_singleton] at hmem
      subst hmem
      exact ⟨by decide +kernel, Or.inl (by decide +kernel)⟩
    · have ha : dirents (contents sampleTree.blocks (tableEntry mkfsLayout sampleTree.blocks 2)) =
          [Dirent.mk 3 (nameOf [98])] := by decide +kernel
      rw [ha, mem_singleton] at hmem
      subst hmem
      exact ⟨by decide +kernel, Or.inl (by decide +kernel)⟩

/-- `//a/b/` is inode 3. -/
theorem namex_resolves_sample : ∃ (a : ℕ) (name : Name) (l : List Inode),
    (namex mkfsLayout (fun l => l.sum + 1) freeDirent [sampleRoot] 0 0 [slash, slash, 97, slash, 98, slash] false
      (nameOf [])).run (storeCall firstFit) sampleTree = some ((some a, name, l), sampleTree) ∧
    (∃ i ∈ l, i.addr = a ∧ i.inodeNo = 3) ∧ refCount l 1 = 1 ∧ refCount l 2 = 0 ∧ refCount l 3 = 1 := by
  have hfresh : ∀ l : List ℕ, l.sum + 1 ∉ l := fun l hl => absurd (le_sum_of_mem hl) (Nat.not_succ_le_self _)
  have hroot : sampleRoot ∈ [sampleRoot] ∧ 0 < sampleRoot.rc := ⟨mem_singleton_self _, one_pos⟩
  have hexp : resolve mkfsLayout sampleTree.blocks false 1 (components [slash, slash, 97, slash, 98, slash]) =
      some 3 := by decide +kernel
  obtain ⟨⟨r, name, l⟩, hrun, hout⟩ := namex_resolves firstFit hfresh cacheOk_sampleRoot treeOk_sampleTree hroot
    hroot [slash, slash, 97, slash, 98, slash] (by decide) false (nameOf []) freeDirent
  have hstart : (startInode sampleRoot sampleRoot [slash, slash, 97, slash, 98, slash]).inodeNo = 1 := rfl
  rw [hstart, hexp] at hout
  obtain ⟨i, hi, rfl, hn, -⟩ := hout.found 3 rfl
  have hc := hout.counts
  exact ⟨i.addr, name, l, hrun, ⟨i, hi, rfl, hn⟩, hc 1, hc 2, hc 3⟩

end OsHonor.Fs.Inodes.Resolution
