import OsHonor.Fs.Inodes.Accounting

/-! # The cached inodes are those in use

A single client gets, shares and puts inodes over any block cache; `held` are the references it has, each
with its number and its pointer. What `inode_get` and `inode_put` do to the list of cached inodes does not
depend on the block cache (`run_inodeGet_cases`, `run_inodePut_cases`).

`inode_put` takes an inode off the list only together with its blocks, when it has no links. The last
reference to an inode that has links leaves the inode on the list with a count of zero, and the next
`inode_get` of the number does not use it but makes another one. So the list is that of the inodes in use
exactly as long as every last reference is to an inode without links (`inUse_iff`). -/

namespace OsHonor.Fs.Inodes.References

open List Base.Keyed Base.Programs Base.Runs BlockDevice Prog
open Format Code BlockStore
open Files Contents Accounting

variable {sb : SuperBlock} {σ : Type} {h : Handler σ Op Op.Resp} {d d' : σ} {l l' : List Inode} {i i' : Inode}

/-! ### What the calls do to the list, whatever the block cache does -/

theorem inodeSync_yields (i : Inode) (w : Bool) :
    (inodeSync sb i w).Yields fun j => ∃ e, j = { i with entry := e, valid := true } := by
  unfold inodeSync
  refine yields_bind (yields_perform fun b => ?_)
  by_cases hw : (w && i.valid) = true
  · have hv : i.valid = true := by
      simp only [Bool.and_eq_true] at hw
      exact hw.2
    rw [if_pos hw]
    refine yields_bind (yields_perform fun _ => ?_)
    refine yields_bind (yields_perform fun _ => ?_)
    exact yields_bind (yields_perform fun _ => yields_pure ⟨i.entry, by rw [← hv]⟩)
  · rw [if_neg hw]
    refine yields_bind (yields_perform fun _ => yields_pure ?_)
    by_cases hv : i.valid = true
    · rw [if_pos hv]
      exact ⟨i.entry, by rw [← hv]⟩
    · rw [if_neg hv]
      exact ⟨_, rfl⟩

theorem inodeClear_yields (i : Inode) :
    (inodeClear sb i).Yields fun j => ∃ e, j = { i with entry := e, valid := true } := by
  unfold inodeClear
  refine yields_bind (yields_of_forall fun e => ?_)
  split_ifs with h0
  · refine yields_bind (yields_perform fun b => ?_)
    refine yields_bind (yields_of_forall fun _ => ?_)
    refine yields_bind (yields_perform fun _ => ?_)
    refine yields_bind (yields_perform fun _ => ?_)
    exact inodeSync_yields { i with entry := _ } true
  · exact inodeSync_yields { i with entry := _ } true

variable {a n : ℕ} {held : List (ℕ × ℕ)} {c : Act}

/-- **`inode_get`**: the reference to a cached inode, or a new one. -/
theorem inodeGet_cases {r : ℕ × List Inode} (hr : (inodeGet sb l a n).run h d = some (r, d')) :
    (∃ i, fetchInode n l = some i ∧ r = (i.addr, storeInode { i with rc := i.rc + 1 } l)) ∨
    fetchInode n l = none ∧ ∃ e, r = (a, l ++ [⟨a, 1, n, true, e⟩]) := by
  refine Prog.Yields.of_run (Q := fun r => (∃ i, fetchInode n l = some i ∧
    r = (i.addr, storeInode { i with rc := i.rc + 1 } l)) ∨
    fetchInode n l = none ∧ ∃ e, r = (a, l ++ [⟨a, 1, n, true, e⟩])) ?_ hr
  unfold inodeGet
  refine yields_bind (yields_of_forall fun _ => ?_)
  refine yields_bind (yields_of_forall fun _ => ?_)
  rcases hf : fetchInode n l with _ | i
  · refine yields_bind ((inodeSync_yields (initInode a n) false).mono ?_)
    rintro j ⟨e, rfl⟩
    exact yields_pure (Or.inr ⟨rfl, e, rfl⟩)
  · exact yields_pure (Or.inl ⟨i, rfl, rfl⟩)

/-- **`inode_put`**: the inode leaves the list, or its count goes down. -/
theorem inodePut_cases (hr : (inodePut sb l i).run h d = some (l', d')) :
    LastPut i ∧ (l' = l.eraseP fun j => j.addr = i.addr) ∨
    ¬ LastPut i ∧ l' = storeInode { i with rc := i.rc - 1 } l := by
  refine Prog.Yields.of_run (Q := fun l' => LastPut i ∧ (l' = l.eraseP fun j => j.addr = i.addr) ∨
    ¬ LastPut i ∧ l' = storeInode { i with rc := i.rc - 1 } l) ?_ hr
  unfold inodePut
  by_cases hlast : i.rc = 1 ∧ i.entry.numLinks = 0 ∧ i.valid = true
  · rw [if_pos hlast]
    refine yields_bind ((inodeClear_yields { i with valid := false }).mono ?_)
    rintro j ⟨e, rfl⟩
    exact yields_bind (yields_of_forall fun _ => yields_pure (Or.inl ⟨hlast, rfl⟩))
  · rw [if_neg hlast]
    exact yields_pure (Or.inr ⟨hlast, rfl⟩)

/-! ### A client with its references -/

/-- The block cache, the cached inodes, and the references of the client: the number of an inode and the
pointer. -/
structure Client (σ : Type) where
  dev : σ
  inodes : List Inode
  held : List (ℕ × ℕ)

/-- `inode_get(n)`, for which `kalloc` would return `a`, and `inode_share` and `inode_put` of the
reference `(n, a)`. -/
inductive Act where
  | get (n a : ℕ)
  | share (n a : ℕ)
  | put (n a : ℕ)

variable (sb h) in
/-- **The calls.** -/
def step (m : Client σ) : Act → Option (Client σ)
  | .get n a => do
    let ((b, l), d) ← (inodeGet sb m.inodes a n).run h m.dev
    some ⟨d, l, (n, b) :: m.held⟩
  | .share n a => do
    let i ← findInode a m.inodes
    some ⟨m.dev, inodeShare m.inodes i, (n, a) :: m.held⟩
  | .put n a => do
    let i ← findInode a m.inodes
    let (l, d) ← (inodePut sb m.inodes i).run h m.dev
    some ⟨d, l, m.held.erase (n, a)⟩

/-- A reference is used only by who has it, and `kalloc` gives an address that is not in use. -/
def Legal (m : Client σ) : Act → Prop
  | .get _ a => ∀ i ∈ m.inodes, i.addr ≠ a
  | .share n a | .put n a => (n, a) ∈ m.held

/-- The number of references to inode `n`. -/
def outstanding (held : List (ℕ × ℕ)) (n : ℕ) : ℕ := held.countP fun r => r.1 = n

/-- **The list of cached inodes is that of the inodes in use.** -/
structure InUse (m : Client σ) : Prop where
  one : (m.inodes.map Inode.inodeNo).Nodup
  exact : ∀ n, n ∈ m.inodes.map Inode.inodeNo ↔ 0 < outstanding m.held n
  rc : ∀ i ∈ m.inodes, i.rc = outstanding m.held i.inodeNo

/-- The last reference to an inode is given up only if the inode has no links. -/
def LastUnlinked (m : Client σ) : Act → Prop
  | .put n a => outstanding m.held n = 1 → ∀ i, findInode a m.inodes = some i → i.entry.numLinks = 0
  | _ => True

/-- What is kept besides: pointers are distinct, every inode is loaded, and a reference is to an inode of
its number. -/
structure Inv (m : Client σ) : Prop extends InUse m where
  addrs : (m.inodes.map Inode.addr).Nodup
  valid : ∀ i ∈ m.inodes, i.valid = true
  named : ∀ r ∈ m.held, ∃ i ∈ m.inodes, i.addr = r.2 ∧ i.inodeNo = r.1

variable {m m' : Client σ}

theorem outstanding_cons (r : ℕ × ℕ) (held : List (ℕ × ℕ)) (n : ℕ) :
    outstanding (r :: held) n = outstanding held n + if r.1 = n then 1 else 0 := by
  simp [outstanding, countP_cons]

theorem outstanding_erase {r : ℕ × ℕ} (hr : r ∈ held) (n : ℕ) :
    outstanding (held.erase r) n + (if r.1 = n then 1 else 0) = outstanding held n := by
  have hperm := perm_cons_erase hr
  rw [← outstanding_cons]
  exact (hperm.countP_eq _).symm

theorem outstanding_pos {r : ℕ × ℕ} (hr : r ∈ held) : 0 < outstanding held r.1 :=
  countP_pos_iff.mpr ⟨r, hr, by simp⟩

namespace Inv

theorem unique (hm : Inv m) {j : Inode} (hi : i ∈ m.inodes) (hj : j ∈ m.inodes) (hn : i.inodeNo = j.inodeNo) :
    i = j :=
  inj_on_of_nodup_map hm.one hi hj hn

theorem find (hm : Inv m) (hr : (n, a) ∈ m.held) :
    ∃ i, findInode a m.inodes = some i ∧ i ∈ m.inodes ∧ i.addr = a ∧ i.inodeNo = n := by
  obtain ⟨i, hi, ha, hn⟩ := hm.named _ hr
  exact ⟨i, (lookup_eq_some hm.addrs).mpr ⟨hi, ha⟩, hi, ha, hn⟩

/-- **One inode gets another count**, that of its references. -/
theorem store (hm : Inv m) (hi : i ∈ m.inodes) {z : ℤ} (d : σ)
    (hz : z = outstanding held i.inodeNo) (hpos : 0 < outstanding held i.inodeNo)
    (hother : ∀ n, n ≠ i.inodeNo → outstanding held n = outstanding m.held n)
    (hnamed : ∀ r ∈ held, r ∈ m.held ∨ r = (i.inodeNo, i.addr)) :
    Inv ⟨d, storeInode { i with rc := z } m.inodes, held⟩ := by
  have haddr : ∀ j ∈ m.inodes, j.addr = i.addr → j = i := fun j hj he => inj_on_of_nodup_map hm.addrs hj hi he
  have hmem : ∀ {x}, x ∈ storeInode { i with rc := z } m.inodes ↔
      ∃ j ∈ m.inodes, x = if j.addr = i.addr then { i with rc := z } else j := mem_storeInode
  have hnum : (storeInode { i with rc := z } m.inodes).map Inode.inodeNo = m.inodes.map Inode.inodeNo := by
    rw [storeInode, modifyAt, map_map]
    refine map_congr_left fun j hj => ?_
    by_cases he : j.addr = i.addr
    · simp [haddr j hj he]
    · simp [he]
  refine ⟨⟨?_, fun n => ?_, fun j hj => ?_⟩, ?_, fun j hj => ?_, fun r hr => ?_⟩
  · rw [hnum]
    exact hm.one
  · rw [hnum, hm.exact n]
    by_cases hn : n = i.inodeNo
    · subst hn
      exact ⟨fun _ => hpos, fun _ => (hm.exact _).mp (mem_map_of_mem hi)⟩
    · rw [hother n hn]
  · obtain ⟨k, hk, rfl⟩ := hmem.mp hj
    by_cases he : k.addr = i.addr
    · rw [if_pos he]
      exact hz
    · have hne : k.inodeNo ≠ i.inodeNo := fun hn => he (by rw [hm.unique hk hi hn])
      rw [if_neg he]
      exact (hm.rc k hk).trans (by rw [hother _ hne])
  · rw [storeInode, map_modifyAt Inode.addr fun x hx => hx.symm]
    exact hm.addrs
  · obtain ⟨k, hk, rfl⟩ := hmem.mp hj
    by_cases he : k.addr = i.addr
    · rw [if_pos he]
      exact hm.valid i hi
    · rw [if_neg he]
      exact hm.valid k hk
  · obtain ⟨k, hk, hka, hkn⟩ : ∃ k ∈ m.inodes, k.addr = r.2 ∧ k.inodeNo = r.1 := by
      rcases hnamed r hr with hr | rfl
      · exact hm.named r hr
      · exact ⟨i, hi, rfl, rfl⟩
    refine ⟨_, hmem.mpr ⟨k, hk, rfl⟩, ?_⟩
    by_cases he : k.addr = i.addr
    · rw [if_pos he]
      obtain rfl := haddr k hk he
      exact ⟨hka, hkn⟩
    · rw [if_neg he]
      exact ⟨hka, hkn⟩

theorem increment (hm : Inv m) (hi : i ∈ m.inodes) (d : σ) :
    Inv ⟨d, storeInode { i with rc := i.rc + 1 } m.inodes, (i.inodeNo, i.addr) :: m.held⟩ := by
  refine hm.store hi d ?_ ?_ (fun n hn => ?_) fun r hr => ?_
  · rw [outstanding_cons, if_pos rfl, hm.rc i hi]
    push_cast
    rfl
  · rw [outstanding_cons, if_pos rfl]
    omega
  · rw [outstanding_cons, if_neg (Ne.symm hn), Nat.add_zero]
  · rcases mem_cons.mp hr with rfl | hr
    · exact Or.inr rfl
    · exact Or.inl hr

theorem get (hm : Inv m) (hfresh : ∀ i ∈ m.inodes, i.addr ≠ a)
    (hs : step sb h m (.get n a) = some m') : Inv m' := by
  obtain ⟨⟨⟨b, l⟩, d⟩, hrun, hs⟩ := Option.bind_eq_some_iff.mp hs
  obtain rfl := Option.some.inj hs
  rcases inodeGet_cases hrun with ⟨i, hf, hr⟩ | ⟨hf, e, hr⟩
  · obtain ⟨rfl, rfl⟩ := Prod.mk.inj hr
    have hi := mem_rotate.mp (mem_of_find?_eq_some hf)
    have hprop := find?_some hf
    simp only [decide_eq_true_eq] at hprop
    obtain ⟨rfl, -, -⟩ := hprop
    exact hm.increment hi d
  · obtain ⟨rfl, rfl⟩ := Prod.mk.inj hr
    -- the inodes of the list are loaded and have references
    have hnone : ∀ i ∈ m.inodes, i.inodeNo ≠ n := by
      rintro i hi rfl
      have hpos := (hm.exact i.inodeNo).mp (mem_map_of_mem hi)
      have := find?_eq_none.mp hf i (mem_rotate.mpr hi)
      rw [hm.rc i hi, hm.valid i hi] at this
      simp at this
      omega
    have hzero : outstanding m.held n = 0 := by
      by_contra h0
      obtain ⟨i, hi, hn⟩ := mem_map.mp ((hm.exact n).mpr (by omega))
      exact hnone i hi hn
    refine ⟨⟨?_, fun k => ?_, fun i hi => ?_⟩, ?_, fun i hi => ?_, fun r hr => ?_⟩
    · rw [map_append, nodup_append]
      refine ⟨hm.one, by simp, fun x hx y hy => ?_⟩
      obtain ⟨i, hi, rfl⟩ := mem_map.mp hx
      obtain rfl : y = n := by simpa using hy
      exact hnone i hi
    · rw [map_append, mem_append, hm.exact k, outstanding_cons]
      by_cases hk : n = k
      · simp [hk]
      · simp [hk, Ne.symm hk]
    · rw [outstanding_cons]
      rcases mem_append.mp hi with hi | hi
      · rw [if_neg (hnone i hi).symm, Nat.add_zero]
        exact hm.rc i hi
      · obtain rfl := mem_singleton.mp hi
        simp [hzero]
    · rw [map_append, nodup_append]
      refine ⟨hm.addrs, by simp, fun x hx y hy he => ?_⟩
      obtain ⟨i, hi, rfl⟩ := mem_map.mp hx
      rw [map_singleton, mem_singleton] at hy
      exact hfresh i hi (he.trans hy)
    · rcases mem_append.mp hi with hi | hi
      · exact hm.valid i hi
      · obtain rfl := mem_singleton.mp hi
        rfl
    · rcases mem_cons.mp hr with rfl | hr
      · exact ⟨_, mem_append_right _ (mem_singleton_self _), rfl, rfl⟩
      · obtain ⟨i, hi, hia⟩ := hm.named r hr
        exact ⟨i, mem_append_left _ hi, hia⟩

theorem share (hm : Inv m) (hr : (n, a) ∈ m.held)
    (hs : step sb h m (.share n a) = some m') : Inv m' := by
  obtain ⟨i, hf, hi, rfl, rfl⟩ := hm.find hr
  obtain ⟨j, hj, hs⟩ := Option.bind_eq_some_iff.mp hs
  obtain rfl := Option.some.inj (hf.symm.trans hj)
  obtain rfl := Option.some.inj hs
  exact hm.increment hi m.dev

theorem drop (hm : Inv m) (hi : i ∈ m.inodes) (hr : (i.inodeNo, i.addr) ∈ m.held)
    (hlast : outstanding m.held i.inodeNo = 1) (d : σ) :
    Inv ⟨d, m.inodes.eraseP fun j => j.addr = i.addr, m.held.erase (i.inodeNo, i.addr)⟩ := by
  have hne : ∀ j ∈ m.inodes.eraseP fun j => j.addr = i.addr, j.inodeNo ≠ i.inodeNo := by
    intro j hj hn
    obtain rfl := hm.unique (mem_of_mem_eraseP hj) hi hn
    exact ne_of_mem_eraseP hm.addrs hj rfl
  have hout := outstanding_erase hr
  refine ⟨⟨?_, fun n => ?_, fun j hj => ?_⟩, ?_, fun j hj => ?_, fun r hr' => ?_⟩
  · exact hm.one.sublist (eraseP_sublist.map _)
  · by_cases hn : i.inodeNo = n
    · subst hn
      have h0 := hout i.inodeNo
      rw [if_pos rfl] at h0
      constructor
      · intro hmem
        obtain ⟨j, hj, he⟩ := mem_map.mp hmem
        exact absurd he (hne j hj)
      · intro hpos
        simp only at hpos
        omega
    · have h0 := hout n
      rw [if_neg hn, Nat.add_zero] at h0
      simp only [h0, ← hm.exact n, mem_map]
      constructor
      · rintro ⟨j, hj, he⟩
        exact ⟨j, mem_of_mem_eraseP hj, he⟩
      · rintro ⟨j, hj, rfl⟩
        refine ⟨j, (mem_eraseP_of_neg ?_).mpr hj, rfl⟩
        simpa using fun he => hn (by rw [inj_on_of_nodup_map hm.addrs hj hi he])
  · have h0 := hout j.inodeNo
    rw [if_neg (hne j hj).symm, Nat.add_zero] at h0
    rw [hm.rc j (mem_of_mem_eraseP hj), h0]
  · exact hm.addrs.sublist (eraseP_sublist.map _)
  · exact hm.valid j (mem_of_mem_eraseP hj)
  · obtain ⟨j, hj, hja, hjn⟩ := hm.named r (mem_of_mem_erase hr')
    have hrn : r.1 ≠ i.inodeNo := by
      intro he
      have h0 := hout i.inodeNo
      rw [if_pos rfl] at h0
      have hpos := outstanding_pos hr'
      rw [he] at hpos
      simp only at hpos h0
      omega
    refine ⟨j, (mem_eraseP_of_neg ?_).mpr hj, hja, hjn⟩
    simpa using fun he => hrn (by rw [← hjn, inj_on_of_nodup_map hm.addrs hj hi he])

/-- **`inode_put` keeps the list exact if and only if the last reference is to an inode without links.** -/
theorem put (hm : Inv m) (hr : (n, a) ∈ m.held) (hs : step sb h m (.put n a) = some m') :
    (LastUnlinked m (.put n a) → Inv m') ∧ (¬ LastUnlinked m (.put n a) → ¬ InUse m') := by
  obtain ⟨i, hf, hi, rfl, rfl⟩ := hm.find hr
  obtain ⟨j, hj, hs⟩ := Option.bind_eq_some_iff.mp hs
  obtain rfl := Option.some.inj (hf.symm.trans hj)
  obtain ⟨⟨l, d⟩, hrun, hs⟩ := Option.bind_eq_some_iff.mp hs
  obtain rfl := Option.some.inj hs
  have hrc := hm.rc i hi
  have hout := outstanding_erase hr
  have hself := hout i.inodeNo
  rw [if_pos rfl] at hself
  have hunlinked : LastUnlinked m (.put i.inodeNo i.addr) ↔
      (outstanding m.held i.inodeNo = 1 → i.entry.numLinks = 0) := by
    refine ⟨fun hl h1 => hl h1 i hf, fun hl h1 k hk => ?_⟩
    obtain rfl := Option.some.inj (hf.symm.trans hk)
    exact hl h1
  rw [hunlinked]
  rcases inodePut_cases hrun with ⟨⟨h1, h2, -⟩, rfl⟩ | ⟨hnot, rfl⟩
  · have hone : outstanding m.held i.inodeNo = 1 := by omega
    exact ⟨fun _ => hm.drop hi hr hone d, fun hne => absurd (fun _ => h2) hne⟩
  · constructor
    · intro hl
      have hmore : outstanding m.held i.inodeNo ≠ 1 := fun h1 =>
        hnot ⟨by omega, hl h1, hm.valid i hi⟩
      refine hm.store hi d (by omega) (by omega) (fun k hk => ?_) fun r hr' =>
        Or.inl (mem_of_mem_erase hr')
      have := hout k
      rwa [if_neg (Ne.symm hk), Nat.add_zero] at this
    · intro hl hin
      simp only [Classical.not_imp] at hl
      -- the inode is still on the list
      have hmem : i.inodeNo ∈ (storeInode { i with rc := i.rc - 1 } m.inodes).map Inode.inodeNo := by
        refine mem_map.mpr ⟨{ i with rc := i.rc - 1 }, mem_storeInode.mpr ⟨i, hi, ?_⟩, rfl⟩
        simp
      have := (hin.exact i.inodeNo).mp hmem
      simp only at this hself
      omega

/-- **A call keeps the list exact if and only if it meets the condition.** -/
theorem step (hm : Inv m) (hc : Legal m c) (hs : step sb h m c = some m') :
    (LastUnlinked m c → Inv m') ∧ (¬ LastUnlinked m c → ¬ InUse m') := by
  cases c with
  | get n a => exact ⟨fun _ => hm.get hc hs, fun hn => absurd trivial hn⟩
  | share n a => exact ⟨fun _ => hm.share hc hs, fun hn => absurd trivial hn⟩
  | put n a => exact hm.put hc hs

end Inv

/-! ### Whole runs -/

def start (d : σ) : Client σ := ⟨d, [], []⟩

theorem inv_start (d : σ) : Inv (start d) := by
  refine ⟨⟨by simp [start], fun n => ?_, by simp [start]⟩, by simp [start], by simp [start], by simp [start]⟩
  simp [start, outstanding]

def AlwaysInUse (sb : SuperBlock) (h : Handler σ Op Op.Resp) (m : Client σ) (cs : List Act) : Prop :=
  ∀ cs₁ cs₂ m₁, cs = cs₁ ++ cs₂ → Run (step sb h) Legal m cs₁ m₁ → InUse m₁

theorem inUse_iff_of_inv {m₀ : Client σ} {cs : List Act} (hrun : Run (step sb h) Legal m₀ cs m) :
    Inv m₀ → (AlwaysInUse sb h m₀ cs ↔ Run (step sb h) (fun m c => Legal m c ∧ LastUnlinked m c) m₀ cs m) := by
  induction hrun with
  | nil s =>
    intro hinv
    refine ⟨fun _ => .nil s, fun _ cs₁ cs₂ m₁ hcs hr => ?_⟩
    obtain ⟨rfl, -⟩ := append_eq_nil_iff.mp hcs.symm
    cases hr
    exact hinv.toInUse
  | @cons s s₁ s₂ c cs hc hs _ ih =>
    intro hinv
    obtain ⟨hgood, hbad⟩ := hinv.step hc hs
    constructor
    · intro hall
      have hin : InUse s₁ := hall [c] cs s₁ rfl (.cons hc hs (.nil _))
      have hlast : LastUnlinked s c := by
        by_contra hn
        exact hbad hn hin
      refine .cons ⟨hc, hlast⟩ hs ((ih (hgood hlast)).mp fun cs₁ cs₂ m₁ hcs hr => ?_)
      exact hall (c :: cs₁) cs₂ m₁ (by rw [hcs]; rfl) (.cons hc hs hr)
    · intro hr cs₁ cs₂ m₁ hcs hr₁
      cases hr with
      | cons hc' hs' hrest =>
        obtain rfl := Option.some.inj (hs.symm.trans hs')
        cases hr₁ with
        | nil => exact hinv.toInUse
        | cons _ hs₁ hr₁ =>
          rw [cons_append, List.cons.injEq] at hcs
          obtain ⟨rfl, hcs⟩ := hcs
          obtain rfl := Option.some.inj (hs.symm.trans hs₁)
          exact (ih (hgood hc'.2)).mpr hrest _ cs₂ m₁ hcs hr₁

/-- **The cached inodes are those in use, after every call, exactly in the runs in which every last
reference is to an inode without links.** -/
theorem inUse_iff {d : σ} {cs : List Act} (hrun : Run (step sb h) Legal (start d) cs m) :
    AlwaysInUse sb h (start d) cs ↔
      Run (step sb h) (fun m c => Legal m c ∧ LastUnlinked m c) (start d) cs m :=
  inUse_iff_of_inv hrun (inv_start d)

/-! ### Two short runs -/

def legalTest (m : Client σ) : Act → Bool
  | .get _ a => m.inodes.all fun i => i.addr ≠ a
  | .share n a | .put n a => (n, a) ∈ m.held

def unlinkedTest (m : Client σ) : Act → Bool
  | .put n a => outstanding m.held n ≠ 1 || (findInode a m.inodes).all fun i => i.entry.numLinks = 0
  | _ => true

theorem legal_of_test (ht : legalTest m c = true) : Legal m c := by
  cases c with
  | get n a => simpa [legalTest, Legal] using ht
  | share n a | put n a => simpa [legalTest, Legal] using ht

theorem unlinked_of_test (ht : unlinkedTest m c = true) : LastUnlinked m c := by
  cases c with
  | get n a | share n a => trivial
  | put n a =>
    intro hone i hi
    simpa [unlinkedTest, hone, hi] using ht

def balancedRun : List Act := [.get 1 0, .share 1 0, .put 1 0, .put 1 0]

theorem inUse_balancedRun : ∃ m, Run (step mkfsLayout (storeCall firstFit)) Legal (start blank) balancedRun m ∧
    AlwaysInUse mkfsLayout (storeCall firstFit) (start blank) balancedRun := by
  obtain ⟨m, hm⟩ : ∃ m, exec (step mkfsLayout (storeCall firstFit)) (fun m c => legalTest m c && unlinkedTest m c)
      (start blank) balancedRun = some m := Option.isSome_iff_exists.mp (by decide +kernel)
  have hrun : Run (step mkfsLayout (storeCall firstFit)) (fun m c => Legal m c ∧ LastUnlinked m c)
      (start blank) balancedRun m := by
    refine run_of_exec (fun m c ht => ?_) hm
    rw [Bool.and_eq_true] at ht
    exact ⟨legal_of_test ht.1, unlinked_of_test ht.2⟩
  have hlegal := hrun.mono fun _ _ hc => hc.1
  exact ⟨m, hlegal, (inUse_iff hlegal).mpr hrun⟩

/-- Inode `1` has a link. -/
def linked : Store := putEntry mkfsLayout blank 1 { Dinode.zero with numLinks := 1 }

theorem linked_stays : ∃ m, Run (step mkfsLayout (storeCall firstFit)) Legal (start linked) [.get 1 0, .put 1 0] m ∧
    ¬ InUse m := by
  have htest : (exec (step mkfsLayout (storeCall firstFit)) legalTest (start linked) [.get 1 0, .put 1 0]).any
      (fun m => m.inodes.map Inode.inodeNo = [1] ∧ m.held = []) = true := by decide +kernel
  obtain ⟨m, hm, hp⟩ := (Option.any_eq_true _ _).mp htest
  simp only [decide_eq_true_eq] at hp
  refine ⟨m, run_of_exec (fun _ _ => legal_of_test) hm, fun hin => ?_⟩
  have := (hin.exact 1).mp (by rw [hp.1]; simp)
  rw [hp.2] at this
  simp [outstanding] at this

end OsHonor.Fs.Inodes.References
