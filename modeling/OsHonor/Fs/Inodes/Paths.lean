import OsHonor.Fs.Inodes.Directories

/-! # Paths (`skipelem` and `namex` in `fs/inode.c`)

A path is the list of its bytes before the NUL. `skipelem` reads one element of it into the buffer `name`; it lies
in memory, so that its length fits into an `int`. The elements of a path are its runs of bytes other than `'/'`,
cut to `FILE_NAME_MAX_LENGTH` (`components`), and `skipelem` finds them one after the other (`skipelem_none`,
`skipelem_some`).

`namex` works on the list of cached inodes; `root` and `cwd` are the pointers `inodes.root` and
`thisproc()->cwd`. Of `inode_lock` and `inode_unlock` only the assertions are left. -/

namespace OsHonor.Fs.Inodes.Paths

open List Base.Bytes Base.Programs BlockDevice
open Format Code Directories

/-! ### `skipelem` -/

def slash : UInt8 := 47

/-- The buffer `name` after the element `s` has been moved into it. -/
def setName (name : Name) (s : List UInt8) : Name := fun i =>
  if fileNameMaxLength ≤ s.length then s.getD i.val 0
  else if i.val < s.length then s.getD i.val 0
  else if i.val = s.length then 0
  else name i

/-- `skipelem`: the rest of the path and the buffer, `none` for `NULL`. -/
def skipelem (path : List UInt8) (name : Name) : Option (List UInt8 × Name) :=
  match path.dropWhile (· == slash) with
  | [] => none
  | c :: s =>
    some (((c :: s).dropWhile (· != slash)).dropWhile (· == slash),
      setName name ((c :: s).takeWhile (· != slash)))

/-! ### `namex` -/

def deref (l : List Inode) (a : ℕ) : FsProg Inode :=
  match findInode a l with
  | some i => pure i
  | none => .fail

/-- `inode_lock` and `inode_unlock`, without the semaphore. -/
def inodeLock (l : List Inode) (a : ℕ) : FsProg Inode := do
  let i ← deref l a
  Prog.check (0 < i.rc)
  pure i

def inodeUnlock (l : List Inode) (a : ℕ) : FsProg Unit := do
  let i ← deref l a
  Prog.check (0 < i.rc)

section

variable (sb : SuperBlock) (kalloc : List ℕ → ℕ) (junk : Dirent)

/-- `inode_put` of the inode at `a`. -/
def inodePutAt (l : List Inode) (a : ℕ) : FsProg (List Inode) := do
  let i ← deref l a
  inodePut sb l i

/-- The loop of `namex`: the pointer, the buffer `name` and the list. `junk` is what the memory holds into which
`inode_lookup` reads. -/
def namexLoop (parent : Bool) :
    ℕ → List Inode → ℕ → List UInt8 → Name → FsProg (Option ℕ × Name × List Inode)
  | 0, _, _, _, _ => .fail
  | fuel + 1, l, ip, path, name =>
    match skipelem path name with
    | none =>
      if parent then do
        let l ← inodePutAt sb l ip
        pure (none, name, l)
      else pure (some ip, name, l)
    | some (path, name) => do
      let i ← inodeLock l ip
      if i.entry.type ≠ inodeDirectory then do
        inodeUnlock l ip
        let l ← inodePutAt sb l ip
        pure (none, name, l)
      else if parent && path.isEmpty then do
        inodeUnlock l ip
        pure (some ip, name, l)
      else do
        let found ← inodeLookup i name junk
        match found with
        | none => do
          inodeUnlock l ip
          let l ← inodePutAt sb l ip
          pure (none, name, l)
        | some (inodeNo, _) => do
          let (next, l) ← inodeGet sb l (kalloc (l.map Inode.addr)) inodeNo.toNat
          inodeUnlock l ip
          let l ← inodePutAt sb l ip
          namexLoop parent fuel l next path name

def startOf (root cwd : ℕ) (path : List UInt8) : ℕ := if path.head? = some slash then root else cwd

def namex (l : List Inode) (root cwd : ℕ) (path : List UInt8) (parent : Bool) (name : Name) :
    FsProg (Option ℕ × Name × List Inode) := do
  let i ← deref l (startOf root cwd path)
  namexLoop sb kalloc junk parent (path.length + 1) (inodeShare l i) (startOf root cwd path) path name

end

/-! ### The elements of a path -/

/-- The maximal runs of bytes other than `'/'`. -/
def elements (path : List UInt8) : List (List UInt8) := (path.splitOnP (· == slash)).filter (· ≠ [])

/-- **The elements of a path**, cut to the length of a name. -/
def components (path : List UInt8) : List (List UInt8) := (elements path).map (List.take fileNameMaxLength)

theorem elements_slash (path : List UInt8) : elements (slash :: path) = elements path := by
  unfold elements
  rw [splitOnP_cons_eq_if_modifyHead, if_pos (by simp), filter_cons_of_neg (by simp)]

theorem elements_dropWhile (path : List UInt8) : elements (path.dropWhile (· == slash)) = elements path := by
  induction path with
  | nil => rfl
  | cons c path ih =>
    by_cases hc : c = slash
    · rw [dropWhile_cons_of_pos (by simpa using hc), ih, hc, elements_slash]
    · rw [dropWhile_cons_of_neg (by simpa using hc)]

variable {s path : List UInt8} {name : Name}

theorem elements_run {rest : List UInt8} (hs : s ≠ []) (hrun : ∀ c ∈ s, c ≠ slash)
    (hrest : rest = [] ∨ rest.head? = some slash) : elements (s ++ rest) = s :: elements rest := by
  have hno : ∀ c ∈ s, (c == slash) = false := by simpa using hrun
  unfold elements
  rcases hrest with rfl | hrest
  · rw [append_nil, splitOnP_eq_singleton hno]
    simp [hs]
  · obtain ⟨rest, rfl⟩ : ∃ r, rest = slash :: r := by
      cases rest with
      | nil => simp at hrest
      | cons c r => exact ⟨r, by rw [head?_cons, Option.some.injEq] at hrest; rw [hrest]⟩
    rw [splitOnP_append_cons_of_forall_mem hno slash (by simp), splitOnP_cons_eq_if_modifyHead,
      if_pos (by simp), filter_cons_of_pos (by simpa using hs), filter_cons_of_neg (by simp)]

theorem head?_dropWhile_run (s : List UInt8) :
    s.dropWhile (· != slash) = [] ∨ (s.dropWhile (· != slash)).head? = some slash := by
  induction s with
  | nil => exact Or.inl rfl
  | cons c s ih =>
    by_cases hc : c = slash
    · rw [dropWhile_cons_of_neg (by simp [hc]), hc]
      exact Or.inr rfl
    · rw [dropWhile_cons_of_pos (by simpa using hc)]
      exact ih

theorem elements_cons {c : UInt8} (hc : c ≠ slash) : elements (c :: s) =
    (c :: s).takeWhile (· != slash) :: elements ((c :: s).dropWhile (· != slash)) := by
  have hne : (c :: s).takeWhile (· != slash) ≠ [] := by
    rw [takeWhile_cons_of_pos (by simpa using hc)]
    exact cons_ne_nil _ _
  have hrun : ∀ x ∈ (c :: s).takeWhile (· != slash), x ≠ slash := by
    intro x hx
    have hall : ((c :: s).takeWhile (· != slash)).all (· != slash) = true := all_takeWhile
    simpa using all_eq_true.mp hall x hx
  rw [← elements_run hne hrun (head?_dropWhile_run _), takeWhile_append_dropWhile]

theorem dropWhile_slash (path : List UInt8) :
    path.dropWhile (· == slash) = [] ∨ ∃ c s, path.dropWhile (· == slash) = c :: s ∧ c ≠ slash := by
  induction path with
  | nil => exact Or.inl rfl
  | cons c path ih =>
    by_cases hc : c = slash
    · rw [dropWhile_cons_of_pos (by simpa using hc)]
      exact ih
    · rw [dropWhile_cons_of_neg (by simpa using hc)]
      exact Or.inr ⟨c, path, rfl, hc⟩

/-- **`skipelem`** at the end of a path. -/
theorem skipelem_none (h : skipelem path name = none) : elements path = [] := by
  unfold skipelem at h
  split at h
  · next hd =>
    rw [← elements_dropWhile, hd]
    rfl
  · cases h

/-- **`skipelem`** finds the next element. -/
theorem skipelem_some {path' : List UInt8} {name' : Name} (h : skipelem path name = some (path', name')) :
    ∃ s, elements path = s :: elements path' ∧ name' = setName name s ∧ s ⊆ path ∧ path' ⊆ path ∧
      path'.length < path.length ∧ (path' = [] ↔ elements path' = []) := by
  unfold skipelem at h
  split at h
  · cases h
  next c s hd =>
  obtain ⟨rfl, rfl⟩ := Prod.mk.inj (Option.some.inj h)
  have hc : c ≠ slash := by
    rcases dropWhile_slash path with h0 | ⟨c', s', h1, hc'⟩
    · rw [h0] at hd
      cases hd
    · rw [h1] at hd
      obtain ⟨rfl, -⟩ := List.cons.inj hd
      exact hc'
  have hsub : c :: s ⊆ path := hd ▸ (dropWhile_suffix _).subset
  have hlen : (c :: s).length ≤ path.length := hd ▸ (dropWhile_suffix _).length_le
  have hrest := (dropWhile_suffix (l := (c :: s).dropWhile (· != slash)) (· == slash))
  refine ⟨(c :: s).takeWhile (· != slash), ?_, rfl, ?_, ?_, ?_, ?_⟩
  · rw [← elements_dropWhile path, hd, elements_cons hc, elements_dropWhile]
  · exact fun x hx => hsub (( takeWhile_prefix _).subset hx)
  · exact fun x hx => hsub ((dropWhile_suffix _).subset (hrest.subset hx))
  · refine lt_of_le_of_lt hrest.length_le (lt_of_lt_of_le ?_ hlen)
    rw [dropWhile_cons_of_pos (by simpa using hc), length_cons]
    exact Nat.lt_succ_of_le (dropWhile_suffix _).length_le
  · rcases dropWhile_slash ((c :: s).dropWhile (· != slash)) with h0 | ⟨c', s', h1, hc'⟩
    · rw [h0]
      exact iff_of_true rfl rfl
    · rw [h1, elements_cons hc']
      simp

theorem cstr_eq_take : ∀ (n : ℕ) {s : List UInt8} {f : ℕ → UInt8}, 0 ∉ s →
    (∀ i < n, i ≤ s.length → f i = s.getD i 0) → cstr n f = s.take n
  | 0, s, f, _, _ => by rw [take_zero]; rfl
  | n + 1, [], f, _, hf => by
    have h0 : f 0 = 0 := hf 0 (Nat.succ_pos n) le_rfl
    unfold cstr
    rw [if_pos h0, take_nil]
  | n + 1, c :: s, f, h0, hf => by
    have hc : f 0 = c := hf 0 (Nat.succ_pos n) (Nat.zero_le _)
    have hne : c ≠ 0 := fun h => h0 (by simp [h])
    have ih := @cstr_eq_take n s (fun i => f (i + 1)) (fun h => h0 (mem_cons_of_mem c h))
      fun i hi hle => hf (i + 1) (by omega) (by simpa using hle)
    unfold cstr
    rw [hc, if_neg hne, ih, take_succ_cons]

/-- **What `skipelem` puts into the buffer** stands for the element. -/
theorem key_setName (h0 : 0 ∉ s) :
    Name.key (setName name s) = s.take fileNameMaxLength := by
  refine cstr_eq_take _ h0 fun i hi hle => ?_
  rw [Buf.byte, dif_pos hi]
  unfold setName
  dsimp only
  split_ifs with h1 h2 h3
  · rfl
  · rfl
  · rw [getD_eq_default _ _ h3.ge]
  · omega

end OsHonor.Fs.Inodes.Paths
