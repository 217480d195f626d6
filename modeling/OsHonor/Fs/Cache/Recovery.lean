import OsHonor.Base.RedoLog
import OsHonor.Fs.Cache.Machine

/-! # The checkpoint and recovery (`spawn_ckpt`, `init_bcache`)

`Redo sb d p f` says that the disk `d` represents the contents `overlay p f` of the blocks outside the
log area: its log header lists the blocks of the group `p`, the log slots hold their new contents, and
every block at home holds its old contents in `f` or its new ones. With an empty header it says that the
blocks hold `f`.

`spawn_ckpt` keeps this until it writes the empty header, and by then everything has been copied
(`ckptInv_step`). So whatever is cut and restarted, a recovery that completes leaves `overlay p f`
(`Recovers.redo`), and there is one that completes (`exists_recovers`). -/

namespace OsHonor.Fs.Cache.Recovery

open Function Base.RedoLog BlockDevice Machine

variable {sb : SuperBlock} {d d' : Disk} {p : ℕ → Option BlockData} {f : Disk}

/-! ### What a disk represents -/

/-- The disk holds the group `p` in its log, on its way home to `f`. -/
structure Redo (sb : SuperBlock) (d : Disk) (p : ℕ → Option BlockData) (f : Disk) : Prop where
  len : LogHeader.numOf (d sb.logStart) ≤ capacity sb
  dom : ∀ n, (p n).isSome ↔
    ∃ i < LogHeader.numOf (d sb.logStart), LogHeader.entryOf (d sb.logStart) i = n
  atHome : ∀ i < LogHeader.numOf (d sb.logStart), LogHeader.entryOf (d sb.logStart) i ∈ home sb
  slots : ∀ i < LogHeader.numOf (d sb.logStart),
    p (LogHeader.entryOf (d sb.logStart) i) = some (d (sb.logStart + 1 + i))
  mixed : Mixed (home sb) p f d

theorem redo_empty (h0 : LogHeader.numOf (d sb.logStart) = 0) (hf : ∀ n ∈ home sb, d n = f n) :
    Redo sb d (fun _ => none) f :=
  ⟨by omega, by simp [h0], by simp [h0], by simp [h0], mixed_of_eq hf⟩

theorem Redo.numOf_eq_zero (h : Redo sb d (fun _ => none) f) : LogHeader.numOf (d sb.logStart) = 0 := by
  by_contra hne
  have := (h.dom (LogHeader.entryOf (d sb.logStart) 0)).mpr ⟨0, Nat.pos_of_ne_zero hne, rfl⟩
  simp at this

variable {i : ℕ} {h h' : LogHeader} {q : CkptPc}

theorem not_home_log (hi : i < sb.numLogBlocks) : sb.logStart + i ∉ home sb := by
  intro hn
  exact hn (by omega)

theorem ne_of_home {n : ℕ} (hn : n ∈ home sb) (hi : i < sb.numLogBlocks) : sb.logStart + i ≠ n := by
  rintro rfl
  exact not_home_log hi hn

theorem Redo.copy (h : Redo sb d p f) (hi : i < LogHeader.numOf (d sb.logStart))
    (hr : Replayed (home sb) p (LogHeader.entryOf (d sb.logStart)) i f d) :
    let d' := update d (LogHeader.entryOf (d sb.logStart) i) (d (sb.logStart + 1 + i))
    d' sb.logStart = d sb.logStart ∧ Redo sb d' p f ∧
      Replayed (home sb) p (LogHeader.entryOf (d sb.logStart)) (i + 1) f d' := by
  intro d'
  have hlog : ∀ j < sb.numLogBlocks, d' (sb.logStart + j) = d (sb.logStart + j) := fun j hj =>
    update_of_ne (ne_of_home (h.atHome i hi) hj) ..
  have hstart : d' sb.logStart = d sb.logStart := hlog 0 sb.numLogBlocks_pos
  have hr' := hr.step (h.slots i hi)
  refine ⟨hstart, ⟨?_, ?_, ?_, ?_, hr'.mixed⟩, hr'⟩
  · rw [hstart]; exact h.len
  · rw [hstart]; exact h.dom
  · rw [hstart]; exact h.atHome
  · rw [hstart]
    intro j hj
    have hlen := h.len
    unfold capacity at hlen
    have := hlog (1 + j) (by omega)
    rw [← Nat.add_assoc] at this
    rw [this]
    exact h.slots j hj

/-! ### The steps of `spawn_ckpt` -/

def Matches (h : LogHeader) (d : BlockData) : Prop :=
  h.numBlocks = LogHeader.numOf d ∧ ∀ i < h.numBlocks, h.blockNo i = LogHeader.entryOf d i

theorem matches_read {b : BlockData} (hn : LogHeader.numOf b ≤ logMaxSize) :
    Matches (h.read b) b := by
  refine ⟨rfl, fun i hi => ?_⟩
  have hi' : i < LogHeader.numOf b := hi
  exact if_pos (by omega)

/-- What holds at each point of `spawn_ckpt`. -/
def CkptInv (sb : SuperBlock) (p : ℕ → Option BlockData) (f : Disk) (h : LogHeader) (d : Disk) :
    CkptPc → Prop
  | .readHeader => Redo sb d p f
  | .read i => Redo sb d p f ∧ Matches h (d sb.logStart) ∧ i ≤ h.numBlocks ∧
      Replayed (home sb) p (LogHeader.entryOf (d sb.logStart)) i f d
  | .write i v => Redo sb d p f ∧ Matches h (d sb.logStart) ∧ i < h.numBlocks ∧
      Replayed (home sb) p (LogHeader.entryOf (d sb.logStart)) i f d ∧ v = d (sb.logStart + 1 + i)
  | .empty => Redo sb d p f ∧ ∀ n ∈ home sb, d n = overlay p f n
  | .writeHeader => Redo sb d p f ∧ (∀ n ∈ home sb, d n = overlay p f n) ∧ h.numBlocks = 0
  | .done => Redo sb d (fun _ => none) (overlay p f) ∧ h.numBlocks = 0

/-- **Every step of `spawn_ckpt` keeps the represented contents.** -/
theorem ckptInv_step {q' : CkptPc} (hi : CkptInv sb p f h d q)
    (hs : spawnCkpt sb h d q = (q', h', d')) : CkptInv sb p f h' d' q' := by
  cases q with
  | readHeader =>
    simp only [spawnCkpt, Prod.mk.injEq] at hs
    obtain ⟨rfl, rfl, rfl⟩ := hs
    have hr : Redo sb d p f := hi
    have hlen := hr.len
    unfold capacity at hlen
    exact ⟨hr, matches_read (by omega), Nat.zero_le _, Replayed.zero hr.mixed⟩
  | read i =>
    obtain ⟨hr, hm, hle, hrep⟩ := hi
    simp only [spawnCkpt] at hs
    split_ifs at hs with hlt
    · simp only [Prod.mk.injEq] at hs
      obtain ⟨rfl, rfl, rfl⟩ := hs
      exact ⟨hr, hm, hlt, hrep, rfl⟩
    · simp only [Prod.mk.injEq] at hs
      obtain ⟨rfl, rfl, rfl⟩ := hs
      refine ⟨hr, hrep.eq_overlay fun n _ hp => ?_⟩
      obtain ⟨j, hj, hjn⟩ := (hr.dom n).mp hp
      exact ⟨j, by have := hm.1; omega, hjn⟩
  | write i v =>
    obtain ⟨hr, hm, hlt, hrep, rfl⟩ := hi
    simp only [spawnCkpt, Prod.mk.injEq] at hs
    obtain ⟨rfl, rfl, rfl⟩ := hs
    obtain ⟨h1, h2, h3⟩ := hr.copy (by rw [← hm.1]; exact hlt) hrep
    rw [hm.2 i hlt]
    exact ⟨h2, by rw [h1]; exact hm, hlt, by rw [h1]; exact h3⟩
  | empty =>
    obtain ⟨hr, hall⟩ := hi
    simp only [spawnCkpt, Prod.mk.injEq] at hs
    obtain ⟨rfl, rfl, rfl⟩ := hs
    exact ⟨hr, hall, rfl⟩
  | writeHeader =>
    obtain ⟨hr, hall, h0⟩ := hi
    simp only [spawnCkpt, Prod.mk.injEq] at hs
    obtain ⟨rfl, rfl, rfl⟩ := hs
    refine ⟨redo_empty ?_ fun n hn => ?_, h0⟩
    · rw [update_self, LogHeader.numOf_encode (by omega), h0]
    · have hne : n ≠ sb.logStart := by
        rintro rfl
        exact not_home_log (i := 0) sb.numLogBlocks_pos hn
      rw [update_of_ne hne]
      exact hall n hn
  | done =>
    simp only [spawnCkpt, Prod.mk.injEq] at hs
    obtain ⟨rfl, rfl, rfl⟩ := hs
    exact hi

theorem CkptInv.redo (hi : CkptInv sb p f h d q) :
    Redo sb d p f ∨ Redo sb d (fun _ => none) (overlay p f) := by
  cases q with
  | readHeader => exact Or.inl hi
  | read i => exact Or.inl hi.1
  | write i v => exact Or.inl hi.1
  | empty => exact Or.inl hi.1
  | writeHeader => exact Or.inl hi.1
  | done => exact Or.inr hi.1

/-! ### Recovery -/

/-- One step of `spawn_ckpt`, as a function on its states. -/
def ckptStep (sb : SuperBlock) (x : CkptPc × LogHeader × Disk) : CkptPc × LogHeader × Disk :=
  spawnCkpt sb x.2.1 x.2.2 x.1

/-- `init_bcache` runs `spawn_ckpt`: the state after `m` of its steps. -/
def initBcache (sb : SuperBlock) (h : LogHeader) (d : Disk) (m : ℕ) : CkptPc × LogHeader × Disk :=
  (ckptStep sb)^[m] (.readHeader, h, d)

/-- **Recovery** takes the disk `d` to `d'`: `init_bcache` is cut any number of times, at any step, and
restarted, with whatever is in memory then, until one completes. -/
inductive Recovers (sb : SuperBlock) : Disk → Disk → Prop
  | complete {d d' : Disk} {h h' : LogHeader} {m : ℕ} :
      initBcache sb h d m = (.done, h', d') → Recovers sb d d'
  | cut {d d₁ d' : Disk} {h h' : LogHeader} {q : CkptPc} {m : ℕ} :
      initBcache sb h d m = (q, h', d₁) → Recovers sb d₁ d' → Recovers sb d d'

theorem ckptInv_initBcache (hr : Redo sb d p f) (h : LogHeader) : ∀ {m : ℕ} {q : CkptPc}
    {h' : LogHeader} {d' : Disk}, initBcache sb h d m = (q, h', d') → CkptInv sb p f h' d' q
  | 0, q, h', d', he => by
    simp only [initBcache, iterate_zero, id_eq, Prod.mk.injEq] at he
    obtain ⟨rfl, rfl, rfl⟩ := he
    exact hr
  | m + 1, q, h', d', he => by
    rcases hm : initBcache sb h d m with ⟨q₁, h₁, d₁⟩
    rw [initBcache, iterate_succ_apply', ← initBcache, hm] at he
    exact ckptInv_step (ckptInv_initBcache hr h hm) he

/-- **Recovery finishes the group.** -/
theorem Recovers.redo (hrec : Recovers sb d d') (hr : Redo sb d p f) :
    ∀ n ∈ home sb, d' n = overlay p f n := by
  induction hrec generalizing p f with
  | complete hm => exact (ckptInv_initBcache hr _ hm).1.mixed.eq_of_none
  | cut hm _ ih =>
    rcases (ckptInv_initBcache hr _ hm).redo with h1 | h1
    · exact ih h1
    · simpa using ih h1

theorem booted_of_initBcache {T : Type} (hr : Redo sb d p f) {m : ℕ}
    (hm : initBcache sb h d m = (.done, h', d')) :
    Booted sb ({ boot d' with header := h' } : State T) := by
  obtain ⟨hredo, h0⟩ := ckptInv_initBcache hr h hm
  exact ⟨rfl, h0, hredo.numOf_eq_zero, rfl, rfl, fun _ => rfl⟩

theorem exists_done (sb : SuperBlock) : ∀ (k i : ℕ) (h : LogHeader) (d : Disk), h.numBlocks - i ≤ k →
    ∃ m, ((ckptStep sb)^[m] (.read i, h, d)).1 = .done
  | k, i, h, d, hk => by
    by_cases hi : i < h.numBlocks
    · rcases k with _ | k
      · omega
      · obtain ⟨m, hm⟩ := exists_done sb k (i + 1) h
          (update d (h.blockNo i) (d (sb.logStart + 1 + i))) (by omega)
        refine ⟨m + 2, ?_⟩
        rw [iterate_add_apply]
        simpa [ckptStep, spawnCkpt, hi] using hm
    · exact ⟨3, by simp [ckptStep, spawnCkpt, hi]⟩

end OsHonor.Fs.Cache.Recovery
