import OsHonor.Fs.Inodes.References

/-! # Threads that get and put inodes (`fs/inode.c`)

Any number of threads in `inode_get`, `inode_share` and `inode_put`. A section under the lock of the list
of cached inodes is one step, and so is what is done outside of it: `inode_get` puts a new inode on the
list before it has loaded the entry (`load`); `inode_put` marks an inode without links as not valid,
clears it outside of the lock, which loads its entry and makes it valid again (`clear`), and takes it off
the list in a second section (`erase`).

`inode_get` looks for valid inodes only. In the time between, a second thread does not find the inode of
its number and makes another one (`two_inodes`), or finds one that is about to be freed. If no thread
asks for the number of an inode that is being loaded or freed, there is one inode for every number
(`one_inode`). -/

namespace OsHonor.Fs.Inodes.Interleaving

open List Base.Keyed Base.Runs BlockDevice
open Format Code Accounting

/-- Where a thread is with a reference: it has returned from `inode_get`, or is still loading the entry,
or is in `inode_put`, before and after `inode_clear`. -/
inductive Phase where
  | loading
  | owned
  | freeing
  | cleared
  deriving DecidableEq

/-- A reference of a thread, to the inode with the number `no` at `addr`. -/
structure Ref (P : Type) where
  thread : P
  no : ℕ
  addr : ℕ
  phase : Phase
  deriving DecidableEq

/-- The list of cached inodes and the references of the threads. -/
structure State (P : Type) where
  inodes : List Inode
  refs : List (Ref P)

/-- The next step of a thread. What `inode_sync` reads from the block cache can be any entry. -/
inductive Label (P : Type) where
  /-- The section of `inode_get`, for which `kalloc` would return `a`. -/
  | get (p : P) (n a : ℕ)
  | load (p : P) (n a : ℕ) (e : Dinode)
  | share (p : P) (n a : ℕ)
  /-- The owner of a reference changes the entry, for example the number of links. -/
  | edit (p : P) (n a : ℕ) (e : Dinode)
  /-- The first section of `inode_put`. -/
  | put (p : P) (n a : ℕ)
  | clear (p : P) (n a : ℕ) (e : Dinode)
  | erase (p : P) (n a : ℕ)

variable {P : Type} [DecidableEq P]

def Idle (s : State P) (p : P) : Prop := ∀ r ∈ s.refs, r.thread = p → r.phase = .owned

instance (s : State P) (p : P) : Decidable (Idle s p) := inferInstanceAs (Decidable (∀ _ ∈ _, _))

def State.move (s : State P) (r : Ref P) (phase : Phase) : List (Ref P) :=
  { r with phase } :: s.refs.erase r

instance (i : Inode) : Decidable (LastPut i) := inferInstanceAs (Decidable (_ ∧ _ ∧ _))

variable (sb : SuperBlock)

/-- **The steps.** -/
def step (s : State P) : Label P → Option (State P)
  | .get p n a =>
    if Idle s p ∧ 0 < n ∧ n < sb.numInodes then
      match fetchInode n s.inodes with
      | some i => some ⟨storeInode { i with rc := i.rc + 1 } s.inodes, ⟨p, n, i.addr, .owned⟩ :: s.refs⟩
      | none =>
        if ∀ i ∈ s.inodes, i.addr ≠ a then
          some ⟨s.inodes ++ [initInode a n], ⟨p, n, a, .loading⟩ :: s.refs⟩
        else none
    else none
  | .load p n a e =>
    if ⟨p, n, a, .loading⟩ ∈ s.refs then do
      let i ← findInode a s.inodes
      some ⟨storeInode { i with entry := if i.valid then i.entry else e, valid := true } s.inodes,
        s.move ⟨p, n, a, .loading⟩ .owned⟩
    else none
  | .share p n a =>
    if Idle s p ∧ ⟨p, n, a, .owned⟩ ∈ s.refs then do
      let i ← findInode a s.inodes
      some ⟨inodeShare s.inodes i, ⟨p, n, a, .owned⟩ :: s.refs⟩
    else none
  | .edit p n a e =>
    if Idle s p ∧ ⟨p, n, a, .owned⟩ ∈ s.refs then do
      let i ← findInode a s.inodes
      some ⟨storeInode { i with entry := e } s.inodes, s.refs⟩
    else none
  | .put p n a =>
    if Idle s p ∧ ⟨p, n, a, .owned⟩ ∈ s.refs then do
      let i ← findInode a s.inodes
      if LastPut i then
        some ⟨storeInode { i with valid := false } s.inodes, s.move ⟨p, n, a, .owned⟩ .freeing⟩
      else some ⟨storeInode { i with rc := i.rc - 1 } s.inodes, s.refs.erase ⟨p, n, a, .owned⟩⟩
    else none
  | .clear p n a e =>
    if ⟨p, n, a, .freeing⟩ ∈ s.refs then do
      let i ← findInode a s.inodes
      some ⟨storeInode { i with entry := e, valid := true } s.inodes, s.move ⟨p, n, a, .freeing⟩ .cleared⟩
    else none
  | .erase p n a =>
    if ⟨p, n, a, .cleared⟩ ∈ s.refs then
      some ⟨s.inodes.eraseP fun i => i.addr = a, s.refs.erase ⟨p, n, a, .cleared⟩⟩
    else none

/-- No thread is loading or freeing an inode of the number that is asked for. -/
def Settled (s : State P) : Label P → Prop
  | .get _ n _ => ∀ r ∈ s.refs, r.no = n → r.phase = .owned
  | _ => True

/-- **One inode for every number**: for the threads, and on the list. -/
structure OneInode (s : State P) : Prop where
  held : ∀ r ∈ s.refs, ∀ r' ∈ s.refs, r.no = r'.no → r.addr = r'.addr
  listed : ∀ i ∈ s.inodes, ∀ j ∈ s.inodes, 0 < i.rc → 0 < j.rc → i.inodeNo = j.inodeNo → i = j

/-! ### What the steps keep -/

/-- The number of references to the inode at `a`. -/
def count (refs : List (Ref P)) (a : ℕ) : ℕ := refs.countP fun r => r.addr = a

/-- The references are counted, and an inode that is being loaded or freed has one. -/
structure Sound (s : State P) : Prop where
  addrs : (s.inodes.map Inode.addr).Nodup
  unique : ∀ i ∈ s.inodes, ∀ j ∈ s.inodes, 0 < i.rc → 0 < j.rc → i.inodeNo = j.inodeNo → i = j
  rc : ∀ i ∈ s.inodes, i.rc = count s.refs i.addr
  named : ∀ r ∈ s.refs, ∃ i ∈ s.inodes, i.addr = r.addr ∧ i.inodeNo = r.no
  alone : ∀ r ∈ s.refs, r.phase ≠ .owned → count s.refs r.addr = 1
  valid : ∀ i ∈ s.inodes, i.valid = false → ∃ r ∈ s.refs, r.addr = i.addr ∧ r.phase ≠ .owned

variable {sb} {s s' : State P} {i i' : Inode} {r r' : Ref P} {refs : List (Ref P)}

omit [DecidableEq P] in
theorem count_cons (r : Ref P) (refs : List (Ref P)) (a : ℕ) :
    count (r :: refs) a = count refs a + if r.addr = a then 1 else 0 := by
  simp [count, countP_cons]

theorem count_erase (hr : r ∈ refs) (a : ℕ) :
    count (refs.erase r) a + (if r.addr = a then 1 else 0) = count refs a := by
  rw [← count_cons]
  exact ((perm_cons_erase hr).countP_eq _).symm

omit [DecidableEq P] in
theorem count_pos (hr : r ∈ refs) : 0 < count refs r.addr := countP_pos_iff.mpr ⟨r, hr, by simp⟩

theorem count_move (hr : r ∈ s.refs) (phase : Phase) (a : ℕ) : count (s.move r phase) a = count s.refs a := by
  rw [State.move, count_cons]
  exact count_erase hr a

theorem two_le_count (hr : r ∈ refs) (hr' : r' ∈ refs) (hne : r' ≠ r) (ha : r'.addr = r.addr) :
    2 ≤ count refs r.addr := by
  have h1 := count_erase hr r.addr
  have h2 := count_pos ((mem_erase_of_ne hne).mpr hr')
  rw [ha] at h2
  rw [if_pos rfl] at h1
  omega

namespace Sound

omit [DecidableEq P] in
theorem find (h : Sound s) (hr : r ∈ s.refs) :
    ∃ i, findInode r.addr s.inodes = some i ∧ i ∈ s.inodes ∧ i.addr = r.addr ∧ i.inodeNo = r.no ∧
      0 < i.rc := by
  obtain ⟨i, hi, ha, hn⟩ := h.named r hr
  refine ⟨i, (lookup_eq_some h.addrs).mpr ⟨hi, ha⟩, hi, ha, hn, ?_⟩
  have := count_pos hr
  rw [h.rc i hi, ha]
  omega

omit [DecidableEq P] in
theorem oneInode (h : Sound s) : OneInode s := by
  refine ⟨fun r hr r' hr' hn => ?_, h.unique⟩
  obtain ⟨i, -, hi, ha, hin, hpos⟩ := h.find hr
  obtain ⟨j, -, hj, ha', hjn, hpos'⟩ := h.find hr'
  rw [← ha, ← ha', h.unique i hi j hj hpos hpos' (by rw [hin, hjn, hn])]

theorem owned (h : Sound s) (hr : r ∈ s.refs) (ho : r.phase = .owned) (hr' : r' ∈ s.refs)
    (ha : r'.addr = r.addr) : r'.phase = .owned := by
  by_contra hn
  have h1 := h.alone r' hr' hn
  have h2 := two_le_count hr hr' (fun he => hn (he ▸ ho)) ha
  rw [ha] at h1
  omega

omit [DecidableEq P] in
/-- **One inode and its references change.** -/
theorem store (h : Sound s) (hi : i ∈ s.inodes) (hpos : 0 < i.rc) (ha : i'.addr = i.addr)
    (hn : i'.inodeNo = i.inodeNo) (hrc : i'.rc = count refs i.addr)
    (hcount : ∀ a, a ≠ i.addr → count refs a = count s.refs a)
    (hnew : ∀ r ∈ refs, r ∈ s.refs ∨ r.addr = i.addr ∧ r.no = i.inodeNo)
    (hkeep : ∀ r ∈ s.refs, r.addr ≠ i.addr → r ∈ refs)
    (halone : ∀ r ∈ refs, r.addr = i.addr → r.phase ≠ .owned → count refs i.addr = 1)
    (hvalid : i'.valid = false → ∃ r ∈ refs, r.addr = i.addr ∧ r.phase ≠ .owned) :
    Sound ⟨storeInode i' s.inodes, refs⟩ := by
  have haddr : ∀ j ∈ s.inodes, j.addr = i.addr → j = i :=
    fun j hj he => inj_on_of_nodup_map h.addrs hj hi he
  -- an inode of the new list is the changed one, or an old one elsewhere
  have hmem : ∀ {x}, x ∈ storeInode i' s.inodes → x = i' ∨ x ∈ s.inodes ∧ x.addr ≠ i.addr := by
    intro x hx
    obtain ⟨j, hj, rfl⟩ := mem_storeInode.mp hx
    by_cases he : j.addr = i'.addr
    · exact Or.inl (if_pos he)
    · rw [if_neg he]
      exact Or.inr ⟨hj, ha ▸ he⟩
  have hself : i' ∈ storeInode i' s.inodes := mem_storeInode.mpr ⟨i, hi, (if_pos ha.symm).symm⟩
  have hothers : ∀ j ∈ s.inodes, j.addr ≠ i.addr → j ∈ storeInode i' s.inodes :=
    fun j hj he => mem_storeInode.mpr ⟨j, hj, (if_neg (ha ▸ he)).symm⟩
  refine ⟨?_, fun x hx y hy hxp hyp hxy => ?_, fun x hx => ?_, fun r hr => ?_, fun r hr ho => ?_,
    fun x hx hv => ?_⟩
  · rw [storeInode, map_modifyAt Inode.addr fun x hx => hx.symm]
    exact h.addrs
  · -- an old live inode with the number of the changed one would have been that inode
    have hold : ∀ j ∈ s.inodes, 0 < j.rc → j.inodeNo = i'.inodeNo → j.addr = i.addr :=
      fun j hj hjp hjn => by rw [h.unique j hj i hi hjp hpos (hjn.trans hn)]
    obtain hx' | ⟨hx', hxa⟩ := hmem hx <;> obtain hy' | ⟨hy', hya⟩ := hmem hy
    · rw [hx', hy']
    · exact absurd (hold y hy' hyp (hx' ▸ hxy.symm)) hya
    · exact absurd (hold x hx' hxp (hy' ▸ hxy)) hxa
    · exact h.unique x hx' y hy' hxp hyp hxy
  · rcases hmem hx with rfl | ⟨hx, hxa⟩
    · rw [hrc, ha]
    · rw [h.rc x hx, hcount _ hxa]
  · by_cases hra : r.addr = i.addr
    · refine ⟨i', hself, ha.trans hra.symm, ?_⟩
      rcases hnew r hr with hr | ⟨-, hrn⟩
      · obtain ⟨j, hj, hja, hjn⟩ := h.named r hr
        rw [hn, ← hjn, haddr j hj (hja.trans hra)]
      · rw [hn, hrn]
    · obtain ⟨j, hj, hja, hjn⟩ := h.named r ((hnew r hr).resolve_right fun hx => hra hx.1)
      exact ⟨j, hothers j hj (hja ▸ hra), hja, hjn⟩
  · by_cases hra : r.addr = i.addr
    · rw [hra]
      exact halone r hr hra ho
    · have hr' := (hnew r hr).resolve_right fun hx => hra hx.1
      rw [hcount _ hra]
      exact h.alone r hr' ho
  · rcases hmem hx with rfl | ⟨hx, hxa⟩
    · rw [ha]
      exact hvalid hv
    · obtain ⟨r, hr, hra, hro⟩ := h.valid x hx hv
      exact ⟨r, hkeep r hr (hra ▸ hxa), hra, hro⟩

theorem moved (h : Sound s) (hr : r ∈ s.refs) (hone : count s.refs r.addr = 1) (phase : Phase)
    (hi : i ∈ s.inodes) (hia : i.addr = r.addr) (ha : i'.addr = i.addr) (hn : i'.inodeNo = i.inodeNo)
    (hrc : i'.rc = i.rc)
    (hvalid : i'.valid = false → phase ≠ .owned) : Sound ⟨storeInode i' s.inodes, s.move r phase⟩ := by
  have hcount := count_move (s := s) hr phase
  have hname : r.no = i.inodeNo := by
    obtain ⟨j, hj, hja, hjn⟩ := h.named r hr
    rw [← hjn, inj_on_of_nodup_map h.addrs hj hi (hja.trans hia.symm)]
  have hpos : 0 < i.rc := by
    rw [h.rc i hi, hia, hone]
    decide
  refine h.store hi hpos ha hn ?_ (fun a _ => hcount a) (fun r' hr' => ?_) (fun r' hr' hne => ?_)
    (fun r' _ _ _ => ?_) fun hv => ?_
  · rw [hrc, h.rc i hi, hcount]
  · rcases mem_cons.mp hr' with rfl | hr'
    · exact Or.inr ⟨hia.symm, hname⟩
    · exact Or.inl (mem_of_mem_erase hr')
  · exact mem_cons_of_mem _ ((mem_erase_of_ne fun he => hne (by rw [he, hia])).mpr hr')
  · rw [hcount, hia, hone]
  · exact ⟨_, mem_cons_self, hia.symm, hvalid hv⟩

omit [DecidableEq P] in
theorem increment (h : Sound s) (hi : i ∈ s.inodes) (hpos : 0 < i.rc) (p : P)
    (howned : ∀ r ∈ s.refs, r.addr = i.addr → r.phase = .owned) :
    Sound ⟨storeInode { i with rc := i.rc + 1 } s.inodes, ⟨p, i.inodeNo, i.addr, .owned⟩ :: s.refs⟩ := by
  refine h.store hi hpos rfl rfl ?_ (fun a ha => ?_) (fun r hr => ?_) (fun r hr _ => mem_cons_of_mem _ hr)
    (fun r hr hra ho => ?_) fun hv => ?_
  · rw [count_cons, if_pos rfl, h.rc i hi]
    push_cast
    rfl
  · rw [count_cons, if_neg (Ne.symm ha), Nat.add_zero]
  · rcases mem_cons.mp hr with rfl | hr
    · exact Or.inr ⟨rfl, rfl⟩
    · exact Or.inl hr
  · rcases mem_cons.mp hr with rfl | hr
    · exact absurd rfl ho
    · exact absurd (howned r hr hra) ho
  · obtain ⟨r, hr, hra, hro⟩ := h.valid i hi hv
    exact absurd (howned r hr hra) hro

theorem decrement (h : Sound s) (hi : i ∈ s.inodes) (hr : r ∈ s.refs) (hia : i.addr = r.addr)
    (ho : r.phase = .owned) :
    Sound ⟨storeInode { i with rc := i.rc - 1 } s.inodes, s.refs.erase r⟩ := by
  have hcount := count_erase hr
  have hpos := count_pos hr
  have hrc := h.rc i hi
  rw [hia] at hrc
  have howned : ∀ r' ∈ s.refs, r'.addr = i.addr → r'.phase = .owned :=
    fun r' hr' ha => h.owned hr ho hr' (ha.trans hia)
  refine h.store hi (by omega) rfl rfl ?_ (fun a ha => ?_) (fun r' hr' => Or.inl (mem_of_mem_erase hr'))
    (fun r' hr' hne => ?_) (fun r' hr' hra hro => ?_) fun hv => ?_
  · have := hcount r.addr
    rw [if_pos rfl] at this
    rw [hia]
    simp only
    omega
  · have := hcount a
    rwa [if_neg (fun he => ha (by rw [hia, he])), Nat.add_zero] at this
  · exact (mem_erase_of_ne fun he => hne (by rw [he, hia])).mpr hr'
  · exact absurd (howned r' (mem_of_mem_erase hr') hra) hro
  · obtain ⟨r', hr', hra, hro⟩ := h.valid i hi hv
    exact absurd (howned r' hr' hra) hro

omit [DecidableEq P] in
theorem publish (h : Sound s) (p : P) {n a : ℕ} (hfresh : ∀ i ∈ s.inodes, i.addr ≠ a)
    (hnone : ∀ i ∈ s.inodes, 0 < i.rc → i.inodeNo ≠ n) :
    Sound ⟨s.inodes ++ [initInode a n], ⟨p, n, a, .loading⟩ :: s.refs⟩ := by
  have hrefs : ∀ r ∈ s.refs, r.addr ≠ a := by
    intro r hr
    obtain ⟨i, hi, hia, -⟩ := h.named r hr
    exact hia ▸ hfresh i hi
  have hzero : count s.refs a = 0 := countP_eq_zero.mpr fun r hr => by simpa using hrefs r hr
  have hothers : ∀ b, a ≠ b → count (⟨p, n, a, .loading⟩ :: s.refs) b = count s.refs b := by
    intro b hb
    rw [count_cons, if_neg hb, Nat.add_zero]
  have hself : count (⟨p, n, a, .loading⟩ :: s.refs) a = 1 := by rw [count_cons, if_pos rfl, hzero]
  refine ⟨?_, fun i hi j hj hip hjp hij => ?_, fun i hi => ?_, fun r hr => ?_, fun r hr ho => ?_,
    fun i hi hv => ?_⟩
  · rw [map_append, nodup_append]
    refine ⟨h.addrs, nodup_singleton _, fun x hx y hy => ?_⟩
    obtain ⟨i, hi, rfl⟩ := mem_map.mp hx
    rw [mem_singleton.mp hy]
    exact hfresh i hi
  · rcases mem_append.mp hi with hi | hi <;> rcases mem_append.mp hj with hj | hj
    · exact h.unique i hi j hj hip hjp hij
    · rw [mem_singleton.mp hj] at hij
      exact absurd hij (hnone i hi hip)
    · rw [mem_singleton.mp hi] at hij
      exact absurd hij.symm (hnone j hj hjp)
    · rw [mem_singleton.mp hi, mem_singleton.mp hj]
  · rcases mem_append.mp hi with hi | hi
    · rw [h.rc i hi, hothers _ (hfresh i hi).symm]
    · rw [mem_singleton.mp hi]
      exact (congrArg Nat.cast hself).symm
  · rcases mem_cons.mp hr with rfl | hr
    · exact ⟨_, mem_append_right _ (mem_singleton_self _), rfl, rfl⟩
    · obtain ⟨i, hi, hia, hin⟩ := h.named r hr
      exact ⟨i, mem_append_left _ hi, hia, hin⟩
  · rcases mem_cons.mp hr with rfl | hr
    · exact hself
    · rw [hothers _ (hrefs r hr).symm]
      exact h.alone r hr ho
  · rcases mem_append.mp hi with hi | hi
    · obtain ⟨r, hr, hra, hro⟩ := h.valid i hi hv
      exact ⟨r, mem_cons_of_mem _ hr, hra, hro⟩
    · rw [mem_singleton.mp hi]
      exact ⟨_, mem_cons_self, rfl, Phase.noConfusion⟩

theorem freed (h : Sound s) (hr : r ∈ s.refs) (hone : count s.refs r.addr = 1) :
    Sound ⟨s.inodes.eraseP fun i => i.addr = r.addr, s.refs.erase r⟩ := by
  have hcount := count_erase hr
  have hmem : ∀ {i}, i ∈ s.inodes.eraseP (fun i => i.addr = r.addr) ↔ i ∈ s.inodes ∧ i.addr ≠ r.addr :=
    ⟨fun hi => ⟨mem_of_mem_eraseP hi, ne_of_mem_eraseP h.addrs hi⟩,
      fun hi => (mem_eraseP_of_neg (by simpa using hi.2)).mpr hi.1⟩
  have hothers : ∀ a, a ≠ r.addr → count (s.refs.erase r) a = count s.refs a := by
    intro a ha
    have := hcount a
    rwa [if_neg ha.symm, Nat.add_zero] at this
  have hgone : ∀ r' ∈ s.refs.erase r, r'.addr ≠ r.addr := by
    intro r' hr' he
    have h1 := count_pos hr'
    have h2 := hcount r.addr
    rw [he] at h1
    rw [if_pos rfl] at h2
    omega
  have hold : ∀ {r'}, r' ∈ s.refs.erase r → r' ∈ s.refs := fun hr' => mem_of_mem_erase hr'
  refine ⟨?_, fun i hi j hj => ?_, fun i hi => ?_, fun r' hr' => ?_, fun r' hr' ho => ?_, fun i hi hv => ?_⟩
  · exact h.addrs.sublist (eraseP_sublist.map _)
  · exact h.unique i (hmem.mp hi).1 j (hmem.mp hj).1
  · rw [h.rc i (hmem.mp hi).1, hothers _ (hmem.mp hi).2]
  · obtain ⟨i, hi, hia, hin⟩ := h.named r' (hold hr')
    exact ⟨i, hmem.mpr ⟨hi, hia ▸ hgone r' hr'⟩, hia, hin⟩
  · rw [hothers _ (hgone r' hr')]
    exact h.alone r' (hold hr') ho
  · obtain ⟨r', hr', hra, hro⟩ := h.valid i (hmem.mp hi).1 hv
    refine ⟨r', (mem_erase_of_ne ?_).mpr hr', hra, hro⟩
    rintro rfl
    exact (hmem.mp hi).2 hra.symm

/-! ### The steps and the runs -/

theorem get (h : Sound s) {p : P} {n a : ℕ} (hc : Settled s (.get p n a))
    (hs : step sb s (.get p n a) = some s') : Sound s' := by
  obtain ⟨-, hs⟩ := Option.ite_none_right_eq_some.mp hs
  -- nobody loads or frees an inode with this number
  have howned : ∀ i ∈ s.inodes, i.inodeNo = n → ∀ r ∈ s.refs, r.addr = i.addr → r.phase = .owned := by
    intro i hi hn r hr ha
    obtain ⟨j, hj, hja, hjn⟩ := h.named r hr
    refine hc r hr ?_
    rw [← hjn, inj_on_of_nodup_map h.addrs hj hi (hja.trans ha), hn]
  cases hf : fetchInode n s.inodes with
  | some i =>
    rw [hf] at hs
    cases hs
    have hi := mem_rotate.mp (mem_of_find?_eq_some hf)
    obtain ⟨rfl, hpos, -⟩ : i.inodeNo = n ∧ 0 < i.rc ∧ i.valid := by simpa using find?_some hf
    exact h.increment hi hpos p (howned i hi rfl)
  | none =>
    rw [hf] at hs
    obtain ⟨hfresh, hs⟩ := Option.ite_none_right_eq_some.mp hs
    cases hs
    refine h.publish p hfresh fun i hi hpos hn => ?_
    -- a live inode with the number is not valid, so that somebody loads or frees it
    have hv : i.valid = false := by
      have := find?_eq_none.mp hf i (mem_rotate.mpr hi)
      simpa [hn, hpos] using this
    obtain ⟨r, hr, hra, hro⟩ := h.valid i hi hv
    exact hro (howned i hi hn r hr hra)

/-- **A step with the condition.** -/
theorem step {l : Label P} (h : Sound s) (hc : Settled s l) (hs : step sb s l = some s') : Sound s' := by
  cases l with
  | get p n a => exact h.get hc hs
  | load p n a e =>
    obtain ⟨hr, hs⟩ := Option.ite_none_right_eq_some.mp hs
    obtain ⟨i, hf, hi, hia, -⟩ := h.find hr
    rw [hf] at hs
    cases hs
    exact h.moved hr (h.alone _ hr Phase.noConfusion) .owned hi hia rfl rfl rfl Bool.noConfusion
  | share p n a =>
    obtain ⟨⟨-, hr⟩, hs⟩ := Option.ite_none_right_eq_some.mp hs
    obtain ⟨i, hf, hi, rfl, rfl, hpos⟩ := h.find hr
    rw [hf] at hs
    cases hs
    exact h.increment hi hpos p fun r hr' ha => h.owned hr rfl hr' ha
  | edit p n a e =>
    obtain ⟨⟨-, hr⟩, hs⟩ := Option.ite_none_right_eq_some.mp hs
    obtain ⟨i, hf, hi, hia, -, hpos⟩ := h.find hr
    rw [hf] at hs
    cases hs
    exact h.store hi hpos rfl rfl (h.rc i hi) (fun _ _ => rfl) (fun _ => Or.inl) (fun _ hr _ => hr)
      (fun r hr ha ho => ha ▸ h.alone r hr ho) (h.valid i hi)
  | put p n a =>
    obtain ⟨⟨-, hr⟩, hs⟩ := Option.ite_none_right_eq_some.mp hs
    obtain ⟨i, hf, hi, hia, -⟩ := h.find hr
    rw [hf, Option.bind_eq_bind, Option.bind_some] at hs
    by_cases hlast : LastPut i
    · rw [if_pos hlast] at hs
      cases hs
      have hone : count s.refs a = 1 := by
        have hrc := h.rc i hi
        have := hlast.1
        rw [hia] at hrc
        simp only at hrc
        omega
      exact h.moved hr hone .freeing hi hia rfl rfl rfl fun _ => Phase.noConfusion
    · rw [if_neg hlast] at hs
      cases hs
      exact h.decrement hi hr hia rfl
  | clear p n a e =>
    obtain ⟨hr, hs⟩ := Option.ite_none_right_eq_some.mp hs
    obtain ⟨i, hf, hi, hia, -⟩ := h.find hr
    rw [hf] at hs
    cases hs
    exact h.moved hr (h.alone _ hr Phase.noConfusion) .cleared hi hia rfl rfl rfl Bool.noConfusion
  | erase p n a =>
    obtain ⟨hr, hs⟩ := Option.ite_none_right_eq_some.mp hs
    cases hs
    exact h.freed hr (h.alone _ hr Phase.noConfusion)

end Sound

def start : State P := ⟨[], []⟩

omit [DecidableEq P] in
theorem sound_start : Sound (start : State P) := by constructor <;> simp [start]

/-- **If nobody asks for an inode that is being loaded or freed, there is one inode for every number in
every state of the run.** -/
theorem one_inode {ls : List (Label P)} (hrun : Run (step sb) Settled start ls s) : OneInode s :=
  (hrun.inv (fun _ _ _ h hc hs => h.step hc hs) sound_start).oneInode

def settledTest (s : State P) : Label P → Bool
  | .get _ n _ => s.refs.all fun r => r.no ≠ n || r.phase = .owned
  | _ => true

omit [DecidableEq P] in
theorem settled_of_test {l : Label P} (ht : settledTest s l = true) : Settled s l := by
  cases l with
  | get p n a =>
    intro r hr hn
    have := all_eq_true.mp ht r hr
    simpa [hn] using this
  | _ => trivial

/-- Two threads share inode `1`: the first one has loaded its entry when the second one asks. -/
def sharedRun : List (Label Bool) :=
  [.get true 1 0, .load true 1 0 Dinode.zero, .get false 1 8, .put true 1 0]

theorem one_inode_sharedRun :
    ∃ s, Run (step mkfsLayout) Settled start sharedRun s ∧ s.refs ≠ [] ∧ OneInode s := by
  have htest : (exec (step mkfsLayout) settledTest start sharedRun).any (fun s => s.refs ≠ []) = true := by
    decide +kernel
  obtain ⟨s, hs, hp⟩ := (Option.any_eq_true _ _).mp htest
  have hrun := run_of_exec (C := Settled) (fun _ _ => settled_of_test) hs
  exact ⟨s, hrun, of_decide_eq_true hp, one_inode hrun⟩

/-- The second thread asks before the first one has loaded the entry. -/
def racingRun : List (Label Bool) := [.get true 1 0, .get false 1 8]

theorem two_inodes : ∃ s, Run (step mkfsLayout) (fun _ _ => True) start racingRun s ∧
    (∃ r ∈ s.refs, ∃ r' ∈ s.refs, r.no = r'.no ∧ r.addr ≠ r'.addr) ∧
    ∃ i ∈ s.inodes, ∃ j ∈ s.inodes, 0 < i.rc ∧ 0 < j.rc ∧ i.inodeNo = j.inodeNo ∧ i.addr ≠ j.addr := by
  have htest : (exec (step mkfsLayout) (fun _ _ => true) start racingRun).any (fun s =>
      (s.refs.any fun r => s.refs.any fun r' => r.no = r'.no ∧ r.addr ≠ r'.addr) &&
      s.inodes.any fun i => s.inodes.any fun j =>
        0 < i.rc ∧ 0 < j.rc ∧ i.inodeNo = j.inodeNo ∧ i.addr ≠ j.addr) = true := by decide +kernel
  obtain ⟨s, hs, hp⟩ := (Option.any_eq_true _ _).mp htest
  refine ⟨s, run_of_exec (fun _ _ _ => trivial) hs, ?_⟩
  simpa only [Bool.and_eq_true, any_eq_true, decide_eq_true_eq] using hp

end OsHonor.Fs.Inodes.Interleaving
