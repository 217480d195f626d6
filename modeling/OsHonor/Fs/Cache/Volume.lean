import OsHonor.Fs.Cache.Client

/-! # A volume: the block cache for clients that store without syncing

The array of `Client` gives no answer to a store into a block that is neither held nor logged, and
`fs/inode.c` has such a store. A volume answers it: the store goes to the cached copy of the block, so
it is seen by the calls that follow, and it reaches the disk only if the operation logs the block. So a
volume has two arrays, what the cache shows (`cur`) and what the device holds (`disk`).

A volume keeps the numbers of the blocks that the client has seen (`known`): only into these can it
store. It answers every call that the array answers, in the same way (`volume_of_array`). -/

namespace OsHonor.Fs.Cache.Volume

open Base.Programs BlockDevice Blocks Client

/-- A volume: what the cache shows, what the device holds, the blocks that the client holds and those it
has seen, and the blocks that its operation has logged, if one is open. -/
structure Vol where
  cur : Disk
  disk : Disk
  held : List ℕ
  known : Finset ℕ
  op : Option (List ℕ)

namespace Vol

/-- `ctx->rm`: what is left of the quota of the operation. -/
def rm (x : Vol) : ℕ := (x.op.map fun l => opMaxNumBlocks - l.length).getD 0

def mount (d : Disk) : Vol := ⟨d, d, [], ∅, none⟩

end Vol

/-- `cache_sync`: the log with an entry for block `n`, `none` if the quota is used up. -/
def logBlock (l : List ℕ) (n : ℕ) : Option (List ℕ) :=
  if n ∈ l then some l else if l.length < opMaxNumBlocks then some (n :: l) else none

/-- The device after the blocks `l` have been written home. -/
def writeBack (cur disk : Disk) (l : List ℕ) : Disk := fun n => if n ∈ l then cur n else disk n

/-- **The calls on a volume.** -/
def volCall (sb : SuperBlock) : Handler Vol Call Call.Resp := fun x c =>
  match c with
  | .beginOp => if x.op = none then some ((), { x with op := some [] }) else none
  | .acquire n =>
    if n ∈ home sb ∧ n < 2 ^ 64 ∧ n ∉ x.held then
      some (x.cur n, { x with held := n :: x.held, known := insert n x.known })
    else none
  | .modify n f =>
    if n ∈ x.known then some ((), { x with cur := Function.update x.cur n (f (x.cur n)) }) else none
  | .sync n =>
    match x.op with
    | none => none
    | some l =>
      if n ∉ x.held then none else (logBlock l n).map fun l => ((), { x with op := some l })
  | .release n => if n ∈ x.held then some ((), { x with held := x.held.erase n }) else none
  | .endOp =>
    match x.op with
    | none => none
    | some l =>
      if x.held = [] then some ((), { x with disk := writeBack x.cur x.disk l, op := none }) else none

/-! ### The array as a volume -/

/-- The volume shows the contents of the array, and its client has seen the blocks that the client of
the array may store into. -/
structure Shows (x : Vol) (y : Arr) : Prop where
  cur : x.cur = y.cur
  held : x.held = y.held
  op : x.op = y.op
  known : ∀ n, n ∈ y.held ∨ n ∈ y.logged → n ∈ x.known

theorem shows_mount (d : Disk) : Shows (.mount d) (.init d) :=
  ⟨rfl, rfl, rfl, by simp [Arr.init, Arr.logged]⟩

/-- **Every call the array answers, the volume answers in the same way.** -/
theorem volume_of_array {sb : SuperBlock} {x : Vol} {y y' : Arr} {c : Call} {r : c.Resp} (h : Shows x y)
    (hc : arrCall sb y c = some (r, y')) : ∃ x', volCall sb x c = some (r, x') ∧ Shows x' y' := by
  have hlogged : ∀ {l}, y.op = some l → y.logged = l := fun he => by simp [Arr.logged, he]
  cases arr_cases hc with
  | beginOp hop =>
    refine ⟨{ x with op := some [] }, by simp [volCall, h.op, hop], h.cur, h.held, rfl, fun n hn => ?_⟩
    rcases hn with hn | hn
    · exact h.known n (Or.inl hn)
    · simp [Arr.logged] at hn
  | @acquire n hn =>
    refine ⟨{ x with held := n :: x.held, known := insert n x.known }, ?_, h.cur, by rw [h.held], h.op,
      fun m hm => ?_⟩
    · rw [← h.held] at hn
      simp only [volCall, if_pos hn, h.cur]
    rw [Finset.mem_insert]
    rcases hm with hm | hm
    · rcases List.mem_cons.mp hm with rfl | hm
      · exact Or.inl rfl
      · exact Or.inr (h.known m (Or.inl hm))
    · exact Or.inr (h.known m (Or.inr hm))
  | @modify n f hn =>
    exact ⟨{ x with cur := Function.update x.cur n (f (x.cur n)) },
      by simp only [volCall, if_pos (h.known n hn)], by simp only [h.cur], h.held, h.op, h.known⟩
  | @syncOld n l hop hn hl =>
    refine ⟨{ x with op := some l }, ?_, h.cur, h.held, hop.symm, h.known⟩
    simp [volCall, h.op, hop, h.held, hn, logBlock, hl]
  | @syncNew n l hop hn hl hlen =>
    refine ⟨{ x with op := some (n :: l) }, ?_, h.cur, h.held, rfl, fun m hm => ?_⟩
    · simp [volCall, h.op, hop, h.held, hn, logBlock, hl, hlen]
    · rcases hm with hm | hm
      · exact h.known m (Or.inl hm)
      · rcases List.mem_cons.mp (show m ∈ n :: l from hm) with rfl | hm
        · exact h.known m (Or.inl hn)
        · exact h.known m (Or.inr (by rw [hlogged hop]; exact hm))
  | @release n hn =>
    refine ⟨{ x with held := x.held.erase n }, by simp [volCall, h.held, hn.1], h.cur, by rw [h.held],
      h.op, fun m hm => h.known m (hm.imp_left List.mem_of_mem_erase)⟩
  | endOp hn =>
    obtain ⟨l, hop⟩ := Option.ne_none_iff_exists'.mp hn.1
    refine ⟨{ x with disk := writeBack x.cur x.disk l, op := none }, ?_, h.cur, h.held, rfl, fun m hm => ?_⟩
    · simp [volCall, h.op, hop, h.held, hn.2]
    · rcases hm with hm | hm
      · exact h.known m (Or.inl hm)
      · simp [Arr.logged] at hm

end OsHonor.Fs.Cache.Volume
