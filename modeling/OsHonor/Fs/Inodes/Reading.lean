import OsHonor.Fs.Inodes.BlockStore

/-! # Programs that only read

A program that only reads acquires one block at a time and releases it at once. `Peeks S b p a` says that
`p` is such a program, that it looks at blocks in `S` only, and that it returns `a` when the blocks hold
what they hold in `b`. On every handler whose blocks hold this the program then returns `a`
(`Peeks.run`). -/

namespace OsHonor.Fs.Inodes.Reading

open Base.Programs BlockDevice Format Code BlockStore

variable {S : Set ℕ} {b : Disk} {α β σ : Type}

/-- **Reading**: the program looks at blocks in `S`, which hold what they hold in `b`, and returns
`a`. -/
inductive Peeks (S : Set ℕ) (b : Disk) : FsProg α → α → Prop
  | pure (a : α) : Peeks S b (.pure a) a
  | peek {n : ℕ} {k : BlockData → FsProg α} {a : α} (hn : n ∈ S) (hk : Peeks S b (k (b n)) a) :
    Peeks S b (.call (.acquire n) fun d => .call (.release n) fun _ => k d) a

theorem peeks_pure (a : α) : Peeks S b (Pure.pure a) a := .pure a

variable {a : α} {p : FsProg α}

theorem peeks_block {n : ℕ} {k : BlockData → FsProg α} (hn : n ∈ S) (hk : Peeks S b (k (b n)) a) :
    Peeks S b (acquire n >>= fun d => release n >>= fun _ => k d) a := .peek hn hk

theorem peeks_check {c : Prop} [Decidable c] (hc : c) : Peeks S b (Prog.check c) () := by
  unfold Prog.check
  rw [if_pos hc]
  exact .pure ()

theorem peeks_bind {f : α → FsProg β} {c : β} (hp : Peeks S b p a)
    (hf : Peeks S b (f a) c) : Peeks S b (p >>= f) c := by
  show Peeks S b (p.bind f) c
  induction hp with
  | pure a => exact hf
  | peek hn _ ih => exact .peek hn (ih hf)

theorem Peeks.run {h : Handler σ Op Op.Resp} {I : σ → Prop} {s : σ}
    (hp : Peeks S b p a) (hh : ∀ s, I s → ∀ n ∈ S, ∃ s₁ s₂, h s (.acquire n) = some (b n, s₁) ∧
      h s₁ (.release n) = some ((), s₂) ∧ I s₂)
    (hs : I s) : ∃ s', p.run h s = some (a, s') ∧ I s' := by
  induction hp generalizing s with
  | pure a => exact ⟨s, rfl, hs⟩
  | peek hn _ ih =>
    obtain ⟨s₁, s₂, h1, h2, hs₂⟩ := hh s hs _ hn
    obtain ⟨s', hrun, hs'⟩ := ih hs₂
    refine ⟨s', ?_, hs'⟩
    show (h s (.acquire _)).bind _ = _
    rw [h1]
    show (h s₁ (.release _)).bind _ = _
    rw [h2]
    exact hrun

theorem Peeks.run_store {sb : SuperBlock} {al : Allocator sb} {s : Store}
    (hp : Peeks S s.blocks p a) : p.run (storeCall al) s = some (a, s) := by
  obtain ⟨s', hrun, rfl⟩ := hp.run (h := storeCall al) (I := fun s' => s' = s)
    (fun s' hs n _ => by subst hs; exact ⟨_, _, rfl, rfl, rfl⟩) rfl
  exact hrun

/-- **A loop over the entries of a directory** that comes to an end at an entry with `stop`. -/
structure Scans (inode : Inode) (junk : Dirent) (stop : Dirent → Prop) [DecidablePred stop] (hit : Dirent → ℕ → α)
    (miss : ℕ → α) (loop : ℕ → ℕ → FsProg α) : Prop where
  zero : ∀ i, loop 0 i = pure (miss i)
  succ : ∀ fuel i, loop (fuel + 1) i = if i < inode.entry.numBytes.toNat then
      inodeRead inode i direntSize >>= fun r =>
        if stop (direntOf junk r.2) then pure (hit (direntOf junk r.2) i) else loop fuel (i + direntSize)
    else pure (miss i)

theorem scans_lookup (inode : Inode) (name : Name) (junk : Dirent) :
    Scans inode junk (fun d => d.inodeNo ≠ 0 ∧ d.name.same name) (fun d i => some (d.inodeNo, i)) (fun _ => none)
      (lookupLoop inode name junk) := ⟨fun _ => rfl, fun _ _ => rfl⟩

theorem scans_insert (inode : Inode) (junk : Dirent) :
    Scans inode junk (fun d => d.inodeNo = 0) (fun _ i => i) id (insertLoop inode junk) :=
  ⟨fun _ => rfl, fun _ _ => rfl⟩

end OsHonor.Fs.Inodes.Reading
