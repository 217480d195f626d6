import OsHonor.Fs.Inodes.Contents
import OsHonor.Fs.Inodes.Directories

/-! # A directory is a finite map

The entries of a directory are a table of slots: `inode_insert` fills the first free entry or adds one at the
end, `inode_remove` writes zeros over an entry. So `inode_insert`, `inode_remove` and `inode_lookup` work on a
directory as on a finite map from names to inode numbers (`directory_is_map`). A name stands for its bytes up to
the first NUL (`Name.key`); the bytes behind it are stored with it and never looked at. -/

namespace OsHonor.Fs.Inodes.DirectoryMap

open Option List Base.Programs Base.Refs Base.Slots BlockDevice
open Format Code BlockStore Reading
open Files Contents Directories

variable {sb : SuperBlock} {al : Allocator sb} {s s' : Store} {inode : Inode} {F : Prop}

/-! ### The calls -/

/-- `inode_insert(name, inodeNo)`, and `inode_remove` of the entry that `inode_lookup(name)` finds. `junk` is
what the memory of the entry holds that is read into. -/
inductive DirOp where
  | insert (name : Name) (inodeNo : ℕ) (junk : Dirent)
  | remove (name : Name) (junk : Dirent)

variable (sb) in
def DirOp.call (inode : Inode) : DirOp → FsProg (Bool × Inode)
  | .insert name inodeNo junk => inodeInsert sb inode name inodeNo junk
  | .remove name junk => do
    match ← inodeLookup inode name junk with
    | some (_, index) => do
      let inode ← inodeRemove sb inode index
      pure (true, inode)
    | none => pure (false, inode)

variable (sb) in
def calls : Inode → List DirOp → FsProg (List Bool × Inode)
  | inode, [] => pure ([], inode)
  | inode, c :: cs => do
    let (r, inode) ← c.call sb inode
    let (rs, inode) ← calls inode cs
    pure (r :: rs, inode)

/-! ### What they should do -/

abbrev DirMap := Finmap fun _ : List UInt8 => ℕ

def maxDirents : ℕ := inodeMaxBytes / direntSize

/-- A call on the map. A number that is not one of an inode, or of more than sixteen bits, is not inserted, and
nothing into a directory that is full. -/
def DirOp.spec (m : DirMap) : DirOp → Option (Bool × DirMap)
  | .insert name inodeNo _ =>
    if 0 < inodeNo ∧ inodeNo < 2 ^ 16 then
      if Name.key name ∈ m then some (false, m)
      else if m.keys.card < maxDirents then some (true, m.insert (Name.key name) inodeNo)
      else none
    else none
  | .remove name _ => some (decide (Name.key name ∈ m), m.erase (Name.key name))

def specs : DirMap → List DirOp → Option (List Bool × DirMap)
  | m, [] => some ([], m)
  | m, c :: cs => do
    let (r, m) ← c.spec m
    let (rs, m) ← specs m cs
    some (r :: rs, m)

/-! ### The directory and the map -/

variable (sb) in
/-- **The directory holds the map**, in the entries `l`. -/
structure Holds (s : Store) (inode : Inode) (l : List Dirent) (m : DirMap) : Prop where
  family : Family sb s fun _ : Unit => inode
  type : inode.entry.type = inodeDirectory
  contents : contents s.blocks inode.entry = l.flatMap bytes
  map : Represents used key numberOf l m

variable {l : List Dirent} {m m' : DirMap}

variable {name : Name} {n : ℕ} {p o q : List Dirent}

namespace Holds

theorem size_eq (h : Holds sb s inode l m) : inode.entry.numBytes.toNat = direntSize * l.length := by
  rw [← length_contents s.blocks, h.contents, length_flatMap_bytes]

theorem size_le (h : Holds sb s inode l m) : inode.entry.numBytes.toNat ≤ inodeMaxBytes := (h.family.files ()).size

theorem not_device (h : Holds sb s inode l m) : inode.entry.type ≠ inodeDevice := by
  rw [h.type]
  decide

/-- **`inode_lookup`** of a name that is not in the map. -/
theorem lookup_none (h : Holds sb s inode l m) (hm : m.lookup (Name.key name) = none) (junk : Dirent) :
    (inodeLookup inode name junk).run (storeCall al) s = some (none, s) := by
  rw [h.map.lookup, map_eq_none_iff] at hm
  exact run_inodeLookup_none h.type h.size_le h.contents hm junk

variable (al) in
/-- **`inode_lookup`** of a name in the map. -/
theorem lookup_some (h : Holds sb s inode l m) (hm : m.lookup (Name.key name) = some n)
    (junk : Dirent) : ∃ p d q, l = p ++ d :: q ∧ used d = true ∧ key d = Name.key name ∧ numberOf d = n ∧
      (inodeLookup inode name junk).run (storeCall al) s = some (some (d.inodeNo, direntSize * p.length), s) := by
  rw [h.map.lookup, map_eq_some_iff] at hm
  obtain ⟨d, hd, hn⟩ := hm
  obtain ⟨-, hu, hk⟩ := slotOf_some hd
  obtain ⟨p, q, hl, hrun⟩ := run_inodeLookup_some al h.type h.size_le h.contents hd junk
  exact ⟨p, d, q, hl, hu, hk, hn, hrun⟩

end Holds

theorem spliceAt_entry (x : Dirent) (ho : o = [] ∧ q = [] ∨ ∃ d, o = [d]) :
    spliceAt (direntSize * p.length) (bytes x) ((p ++ (o ++ q)).flatMap bytes) = (p ++ x :: q).flatMap bytes := by
  have hp : (p.flatMap bytes).length = direntSize * p.length := length_flatMap_bytes p
  unfold spliceAt
  rw [flatMap_append, flatMap_append, ← hp, take_left, length_bytes, ← drop_drop, drop_left,
    flatMap_append, flatMap_cons, append_assoc]
  congr 2
  rcases ho with ⟨rfl, rfl⟩ | ⟨d, rfl⟩
  · simp
  · rw [flatMap_singleton, drop_left' (length_bytes d)]

/-- The blocks the directory may still get, on top of those in use. -/
def limit (s : Store) (inode : Inode) : ℕ := s.used.card + spare (allRefs s.blocks fun _ : Unit => inode)

/-- **An entry is written.** -/
theorem write_entry {x : Dirent} (h : Holds sb s inode (p ++ (o ++ q)) m)
    (ho : o = [] ∧ q = [] ∨ ∃ d, o = [d]) (hmax : p.length < maxDirents)
    (hmap : Represents used key numberOf (p ++ x :: q) m') (hroom : Room al F (limit s inode)) :
    Prog.Meets (storeCall al) F (inodeWrite sb inode (bytes x) (direntSize * p.length)) s fun r s' =>
      Holds sb s' r.2 (p ++ x :: q) m' ∧ limit s' r.2 = limit s inode := by
  have hoff : direntSize * p.length ≤ inode.entry.numBytes.toNat := by
    rw [h.size_eq, length_append]
    exact Nat.mul_le_mul_left _ (Nat.le_add_right _ _)
  have hfit : direntSize * p.length + (bytes x).length ≤ inodeMaxBytes := by
    rw [length_bytes, ← Nat.mul_succ]
    exact (Nat.mul_le_mul_left _ hmax).trans (Nat.mul_div_le _ _)
  have hle : bound s inode.entry ≤ limit s inode :=
    Nat.add_le_add_left (spare_le_uncurry (fun _ : Unit => refs s.blocks inode.entry) ()) _
  refine (h.family.write (k := ()) h.not_device hoff hfit (hroom.mono hle)).mono ?_
  rintro ⟨n, i⟩ s' ⟨-, hfam, ht, hg, hc, -⟩
  have hconst : Function.update (fun _ : Unit => inode) () i = fun _ => i := by
    funext u
    exact Function.update_self ..
  rw [hconst] at hfam hg
  refine ⟨⟨hfam, ht.trans h.type, ?_, hmap⟩, hg.card⟩
  rw [show contents s'.blocks i.entry = _ from hc, h.contents]
  exact spliceAt_entry x ho

/-! ### The calls do what they should -/

theorem split_free (l : List Dirent) : ∃ p o q, l = p ++ (o ++ q) ∧ (∀ d ∈ p, used d = true) ∧
    (o = [] ∧ q = [] ∨ ∃ d, o = [d] ∧ used d = false) := by
  induction l with
  | nil => exact ⟨[], [], [], rfl, by simp, Or.inl ⟨rfl, rfl⟩⟩
  | cons d l ih =>
    by_cases hd : used d = true
    · obtain ⟨p, o, q, rfl, hp, ho⟩ := ih
      exact ⟨d :: p, o, q, rfl, by simpa [hd] using hp, ho⟩
    · exact ⟨[], [d], l, rfl, by simp, Or.inr ⟨d, rfl, by simpa using hd⟩⟩

/-- **`inode_insert`** of a name that is there changes nothing. -/
theorem insert_present (h : Holds sb s inode l m) (hm : Name.key name ∈ m) (inodeNo : ℕ)
    (junk : Dirent) : (inodeInsert sb inode name inodeNo junk).run (storeCall al) s = some ((false, inode), s) := by
  obtain ⟨n, hn⟩ := Finmap.mem_iff.mp hm
  obtain ⟨p, d, q, -, -, -, -, hrun⟩ := h.lookup_some al hn junk
  unfold inodeInsert
  rw [Prog.run_bind, Prog.run_check, if_pos h.type, bind_some, Prog.run_bind, hrun]
  rfl

theorem used_mk (hn : 0 < n ∧ n < 2 ^ 16) (name : Name) :
    used (Dirent.mk (UInt16.ofNat n) name) = true ∧ numberOf (Dirent.mk (UInt16.ofNat n) name) = n := by
  have hto : (UInt16.ofNat n).toNat = n := UInt16.toNat_ofNat_of_lt' hn.2
  unfold used numberOf
  rw [inodeNo_mk, hto]
  refine ⟨?_, rfl⟩
  rw [decide_eq_true_eq]
  intro h0
  rw [h0] at hto
  exact absurd hto (ne_of_lt hn.1)

/-- **`inode_insert`** of a new name. -/
theorem insert_new (h : Holds sb s inode l m) (hn : 0 < n ∧ n < 2 ^ 16)
    (hm : Name.key name ∉ m) (hmax : m.keys.card < maxDirents) (hroom : Room al F (limit s inode)) (junk : Dirent) :
    Prog.Meets (storeCall al) F (inodeInsert sb inode name n junk) s fun r s' =>
      r.1 = true ∧ (∃ l', Holds sb s' r.2 l' (m.insert (Name.key name) n)) ∧ limit s' r.2 = limit s inode := by
  obtain ⟨p, o, q, rfl, hp, ho⟩ := split_free l
  set x := Dirent.mk (UInt16.ofNat n) name with hx
  obtain ⟨hxu, hxn⟩ := used_mk hn name
  have hxk : key x = Name.key name := congrArg Name.key (name_mk _ _)
  have hfree : ∀ d ∈ o, used d = false := by
    rcases ho with ⟨rfl, -⟩ | ⟨d, rfl, hd⟩
    · simp
    · simpa using hd
  have hmap := h.map.fill hfree hxu (by rw [hxk]; exact hm)
  rw [hxk, hxn] at hmap
  -- if there is no free entry, the entries are as many as the names
  have hlen : p.length < maxDirents := by
    rcases ho with ⟨rfl, rfl⟩ | ⟨d, rfl, -⟩
    · rw [append_nil, append_nil] at h
      rw [h.map.length_eq hp]
      exact hmax
    · have hsz := h.size_le
      rw [h.size_eq, length_append, singleton_append, length_cons] at hsz
      have := (Nat.le_div_iff_mul_le (by decide : 0 < direntSize)).mpr ((Nat.mul_comm _ _).le.trans hsz)
      unfold maxDirents
      omega
  have hloop : (insertLoop inode junk inode.entry.numBytes.toNat 0).run (storeCall al) s =
      some (direntSize * p.length, s) := by
    have hused : ∀ d ∈ p, ¬ d.inodeNo = 0 := fun d hd => by simpa [used] using hp d hd
    have hfuel : (p ++ (o ++ q)).length ≤ inode.entry.numBytes.toNat := by
      rw [h.size_eq]
      exact Nat.le_mul_of_pos_left _ (by decide)
    have hscan := scans_insert inode junk
    have huniv : ∀ x, refs s.blocks inode.entry x ∈ Set.univ := fun _ => Set.mem_univ _
    rcases ho with ⟨rfl, rfl⟩ | ⟨d, rfl, hd⟩
    · exact (Scans.ends hscan huniv h.not_device h.size_le hused (by simpa using hfuel)
        (by simpa using h.contents)).run_store
    · rw [length_append, length_append, length_singleton] at hfuel
      exact (Scans.stops hscan huniv h.not_device h.size_le hused (by simpa [used] using hd) (by omega)
        (by simpa using h.contents)).run_store
  unfold inodeInsert
  refine Prog.meets_bind (Prog.meets_check (fun _ => ?_) fun ht => absurd h.type ht)
  refine Prog.meets_bind (Prog.meets_of_run (h.lookup_none (Finmap.lookup_eq_none.mpr hm) junk) ?_)
  refine Prog.meets_bind (Prog.meets_of_run hloop ?_)
  refine Prog.meets_bind ((write_entry h (ho.imp_right fun ⟨d, hd, _⟩ => ⟨d, hd⟩) hlen hmap hroom).mono ?_)
  rintro ⟨c, i⟩ s' ⟨h', hlim⟩
  exact Prog.meets_pure ⟨rfl, ⟨_, h'⟩, hlim⟩

theorem erase_of_notMem {k : List UInt8} (hk : k ∉ m) : m.erase k = m := by
  refine Finmap.ext_lookup fun k' => ?_
  by_cases he : k' = k
  · rw [he, Finmap.lookup_erase, Finmap.lookup_eq_none.mpr hk]
  · rw [Finmap.lookup_erase_ne he]

/-- **`inode_lookup` and `inode_remove`.** -/
theorem remove_meets (h : Holds sb s inode l m) (name : Name) (junk : Dirent) (hroom : Room al F (limit s inode)) :
    Prog.Meets (storeCall al) F (DirOp.call sb inode (.remove name junk)) s fun r s' =>
      r.1 = decide (Name.key name ∈ m) ∧ (∃ l', Holds sb s' r.2 l' (m.erase (Name.key name))) ∧
        limit s' r.2 = limit s inode := by
  unfold DirOp.call
  cases hm : m.lookup (Name.key name) with
  | none =>
    have hnot : Name.key name ∉ m := Finmap.lookup_eq_none.mp hm
    refine Prog.meets_bind (Prog.meets_of_run (h.lookup_none hm junk) (Prog.meets_pure ⟨?_, ⟨l, ?_⟩, rfl⟩))
    · simp [hnot]
    · rw [erase_of_notMem hnot]
      exact h
  | some n =>
    have hmem : Name.key name ∈ m := Finmap.mem_iff.mpr ⟨n, hm⟩
    obtain ⟨p, d, q, rfl, hu, hk, -, hrun⟩ := h.lookup_some al hm junk
    have hmap := h.map.free hu used_freeDirent
    rw [hk] at hmap
    have hlen : p.length < maxDirents := by
      have hsz := h.size_le
      rw [h.size_eq, length_append, length_cons] at hsz
      have := (Nat.le_div_iff_mul_le (by decide : 0 < direntSize)).mpr ((Nat.mul_comm _ _).le.trans hsz)
      unfold maxDirents
      omega
    have hin : direntSize * p.length < inode.entry.numBytes.toNat := by
      rw [h.size_eq, length_append, length_cons]
      exact Nat.mul_lt_mul_of_pos_left (by omega) (by decide)
    refine Prog.meets_bind (Prog.meets_of_run hrun ?_)
    unfold inodeRemove
    dsimp only
    rw [if_pos hin, ← bytes_freeDirent]
    refine Prog.meets_bind (Prog.meets_bind ((write_entry (o := [d]) h (Or.inr ⟨d, rfl⟩) hlen hmap hroom).mono ?_))
    rintro ⟨c, i⟩ s' ⟨h', hlim⟩
    refine Prog.meets_pure (Prog.meets_pure ⟨?_, ⟨_, h'⟩, hlim⟩)
    simp [hmem]

/-- **A call.** -/
theorem call_meets (h : Holds sb s inode l m) {c : DirOp} {r : Bool} (hc : c.spec m = some (r, m'))
    (hroom : Room al F (limit s inode)) :
    Prog.Meets (storeCall al) F (c.call sb inode) s fun x s' =>
      x.1 = r ∧ (∃ l', Holds sb s' x.2 l' m') ∧ limit s' x.2 = limit s inode := by
  cases c with
  | insert name n junk =>
    simp only [DirOp.spec] at hc
    split_ifs at hc with hn hmem hmax
    · obtain ⟨rfl, rfl⟩ := Prod.mk.inj (some.inj hc)
      exact Prog.meets_of_run (insert_present h hmem n junk) ⟨rfl, ⟨l, h⟩, rfl⟩
    · obtain ⟨rfl, rfl⟩ := Prod.mk.inj (some.inj hc)
      exact insert_new h hn hmem hmax hroom junk
  | remove name junk =>
    obtain ⟨rfl, rfl⟩ := Prod.mk.inj (some.inj hc)
    exact remove_meets h name junk hroom

/-- **All calls.** -/
theorem calls_meet {cs : List DirOp} : ∀ {s : Store} {inode : Inode} {l : List Dirent} {m m' : DirMap} {rs : List Bool},
    Holds sb s inode l m → specs m cs = some (rs, m') → Room al F (limit s inode) →
    Prog.Meets (storeCall al) F (calls sb inode cs) s fun x s' => x.1 = rs ∧ ∃ l', Holds sb s' x.2 l' m' := by
  induction cs with
  | nil =>
    intro s inode l m m' rs h hs _
    obtain ⟨rfl, rfl⟩ := Prod.mk.inj (some.inj hs)
    exact Prog.meets_pure ⟨rfl, l, h⟩
  | cons c cs ih =>
    intro s inode l m m' rs h hs hroom
    obtain ⟨⟨r, m₁⟩, hc, hs⟩ := bind_eq_some_iff.mp hs
    obtain ⟨⟨rs', m₂⟩, hcs, hs⟩ := bind_eq_some_iff.mp hs
    obtain ⟨rfl, rfl⟩ := Prod.mk.inj (some.inj hs)
    refine Prog.meets_bind ((call_meets h hc hroom).mono ?_)
    rintro ⟨r', i₁⟩ s₁ ⟨rfl, ⟨l₁, h₁⟩, hlim⟩
    refine Prog.meets_bind ((ih h₁ hcs (by rw [hlim]; exact hroom)).mono ?_)
    rintro ⟨rs'', i₂⟩ s₂ ⟨rfl, l₂, h₂⟩
    exact Prog.meets_pure ⟨rfl, l₂, h₂⟩

theorem holds_empty (hf : Family sb s fun _ : Unit => inode) (ht : inode.entry.type = inodeDirectory)
    (h0 : inode.entry.numBytes = 0) : Holds sb s inode [] ∅ where
  family := hf
  type := ht
  contents := by
    unfold BlockStore.contents
    rw [h0]
    rfl
  map := represents_nil

/-- **A directory is a finite map.** After any calls on a directory that was empty, the calls have returned what
they should and the names in the directory are those of the map. `inode_lookup` returns the number of a name in
the map, with the offset of its entry, and nothing for another name; `inode_insert` of a name in the map fails and
changes nothing; and no two entries in use have the same name. The allocator has a block as long as less than
what the directory can need is in use. -/
theorem directory_is_map (hf : Family sb s fun _ : Unit => inode) (ht : inode.entry.type = inodeDirectory)
    (h0 : inode.entry.numBytes = 0)
    (hroom : ∀ u : Finset ℕ, u.card < s.used.card + Fintype.card Slot → al.pick u ≠ none)
    {cs : List DirOp} {rs : List Bool} (hcs : specs ∅ cs = some (rs, m)) :
    ∃ (inode' : Inode) (s' : Store) (l : List Dirent), (calls sb inode cs).run (storeCall al) s = some ((rs, inode'), s') ∧
      contents s'.blocks inode'.entry = l.flatMap bytes ∧
      (∀ name junk, m.lookup (Name.key name) = none →
        (inodeLookup inode' name junk).run (storeCall al) s' = some (none, s')) ∧
      (∀ name junk n, m.lookup (Name.key name) = some n →
        ∃ index d, (inodeLookup inode' name junk).run (storeCall al) s' =
            some (some (d.inodeNo, direntSize * index), s') ∧
          l[index]? = some d ∧ d.inodeNo.toNat = n ∧ key d = Name.key name) ∧
      (∀ name n junk, Name.key name ∈ m →
        (inodeInsert sb inode' name n junk).run (storeCall al) s' = some ((false, inode'), s')) ∧
      ∀ (i j : ℕ) (d d' : Dirent), l[i]? = some d → l[j]? = some d' → used d = true → used d' = true → key d = key d' → i = j := by
  have hr : Room al False (limit s inode) := by
    intro u hu
    refine hroom u (lt_of_lt_of_le hu (Nat.add_le_add_left ?_ _))
    refine (spare_le _).trans ?_
    rw [Fintype.card_prod, Fintype.card_unit, Nat.one_mul]
  obtain ⟨⟨rs', inode'⟩, s', hrun, rfl, l, h⟩ := (calls_meet (holds_empty hf ht h0) hcs hr).exists_run
  refine ⟨inode', s', l, hrun, h.contents, fun name junk => (h.lookup_none · junk), fun name junk n hn => ?_,
    fun name n junk hm => insert_present h hm n junk, fun i j d d' hi hj hd hd' hk => ?_⟩
  · obtain ⟨p, d, q, rfl, -, hk, hnum, hrun'⟩ := h.lookup_some al hn junk
    exact ⟨p.length, d, hrun', by simp, hnum, hk⟩
  · exact h.map.eq_of_key hi hj hd hd' hk

def newDirectory : Inode := ⟨0, 1, 1, true, { Dinode.zero with type := inodeDirectory }⟩

theorem family_newDirectory : Family mkfsLayout blank fun _ : Unit => newDirectory where
  owned := by
    have h0 : ∀ x : Unit × Slot, allRefs blank.blocks (fun _ => newDirectory) x = 0 := by
      rintro ⟨-, x⟩
      cases x <;> rfl
    exact ⟨fun hx => absurd (h0 _) hx, fun hx => absurd (h0 _) hx⟩
  isData := by simp [blank]
  files _ := ⟨rfl, by decide, Nat.zero_le _, fun p hp => absurd hp (Nat.not_lt_zero p)⟩

/-- The names `a`, `b` and `c`; the last one gets the entry of the first one. -/
def sampleCalls : List DirOp :=
  [.insert (nameOf [97]) 5 freeDirent, .insert (nameOf [98]) 6 freeDirent, .remove (nameOf [97]) freeDirent,
    .insert (nameOf [99]) 7 freeDirent, .insert (nameOf [98]) 9 freeDirent]

theorem directory_is_map_sample : ∃ (inode' : Inode) (s' : Store) (index : ℕ) (d : Dirent),
    (calls mkfsLayout newDirectory sampleCalls).run (storeCall firstFit) blank =
      some (([true, true, true, true, false], inode'), s') ∧
    (inodeLookup inode' (nameOf [98]) freeDirent).run (storeCall firstFit) s' =
      some (some (d.inodeNo, direntSize * index), s') ∧ d.inodeNo.toNat = 6 := by
  have hroom : ∀ u : Finset ℕ, u.card < blank.used.card + Fintype.card Slot → firstFit.pick u ≠ none :=
    fun u hu => firstFit_ne_none (by
      rw [card_slot] at hu
      exact hu.trans (by decide))
  have hspec : (specs ∅ sampleCalls).any (fun r => r.1 = [true, true, true, true, false] ∧
      r.2.lookup (Name.key (nameOf [98])) = some 6) = true := by decide +kernel
  obtain ⟨⟨rs, m⟩, hcs, hr⟩ := (Option.any_eq_true _ _).mp hspec
  simp only [decide_eq_true_eq] at hr
  obtain ⟨rfl, hlook⟩ := hr
  obtain ⟨inode', s', l, hrun, -, -, hfind, -⟩ := directory_is_map family_newDirectory rfl rfl hroom hcs
  obtain ⟨index, d, hd, -, hn, -⟩ := hfind (nameOf [98]) freeDirent 6 hlook
  exact ⟨inode', s', index, d, hrun, hd, hn⟩

end OsHonor.Fs.Inodes.DirectoryMap
