import Mathlib.Data.List.Range

/-! # Process ids (`proc/pid.c`)

`alloc_pid` looks for a byte with a clear bit, once around the map from where the last call stopped. The bits are
compared with the ids that are live: handed out and not given back. -/

namespace OsHonor.Processes.Pids

open Function

def pidPoolSize : ℕ := 1 <<< 20

structure PidPool where
  bm : ℕ → BitVec 8
  window : ℕ

/-- The loop of `alloc_pid` over `n` bytes: where it stops, and whether at a byte that is not full; `none` if it still
runs after so many rounds. -/
def nextWindow (n : ℕ) (bm : ℕ → BitVec 8) (old : ℕ) : ℕ → ℕ → Option (ℕ × Bool)
  | 0, _ => none
  | rounds + 1, window =>
    if bm window = 0xFF then
      let window := if window + 1 = n then 0 else window + 1
      if window = old then some (window, false) else nextWindow n bm old rounds window
    else some (window, true)

def allocPid (pool : PidPool) : Option (ℤ × PidPool) :=
  (nextWindow pidPoolSize pool.bm pool.window pidPoolSize pool.window).map fun
    | (window, false) => (-1, ⟨pool.bm, window⟩)
    | (window, true) =>
      match (List.range 8).find? fun i => (pool.bm window ^^^ 1#8 <<< i) &&& 1#8 <<< i ≠ 0 with
      | some i => ((window * 8 + i : ℕ), ⟨update pool.bm window (pool.bm window ||| 1#8 <<< i), window⟩)
      | none => (-1, ⟨pool.bm, window⟩)

def freePid (pool : PidPool) (pid : ℕ) : PidPool :=
  ⟨update pool.bm (pid / 8) (pool.bm (pid / 8) &&& ~~~(1#8 <<< (pid % 8))), pool.window⟩

/-- The pools that calls lead to, and the live ids. -/
inductive Reached : PidPool → List ℕ → Prop
  | start : Reached ⟨fun _ => 0, 0⟩ []
  | alloc {pool pool' live r} : Reached pool live → allocPid pool = some (r, pool') →
    Reached pool' (if r = -1 then live else r.toNat :: live)
  | free {pool live pid} : Reached pool live → pid ∈ live → Reached (freePid pool pid) (live.erase pid)

/-- The bit of the id is set. -/
def Has (bm : ℕ → BitVec 8) (pid : ℕ) : Prop := (bm (pid / 8)).getLsbD (pid % 8) = true

/-- `alloc_pid` sets the one bit of an id that was clear, or finds every bit set. -/
def Allocates (pool : PidPool) : Prop :=
  ∃ r pool', allocPid pool = some (r, pool') ∧ pool'.window < pidPoolSize ∧
    ((∃ pid < 8 * pidPoolSize, r = (pid : ℕ) ∧ ¬ Has pool.bm pid ∧ ∀ q, Has pool'.bm q ↔ q = pid ∨ Has pool.bm q) ∨
      r = -1 ∧ pool' = pool ∧ ∀ pid < 8 * pidPoolSize, Has pool.bm pid)

variable {n old w i : ℕ} {bm : ℕ → BitVec 8} {pool : PidPool} {live : List ℕ}

-- After `k` rounds the window is `k` bytes on, around the end, and the bytes behind it are full.
theorem nextWindow_spec (bm : ℕ → BitVec 8) (ho : old < n) : ∀ (rounds k : ℕ) {w : ℕ}, k < n → n ≤ rounds + k → w < n →
    w = old + k ∨ w + n = old + k → (∀ j < n, ∀ i < k, j = old + i ∨ j + n = old + i → bm j = 0xFF) →
    ∃ w' < n, nextWindow n bm old rounds w = some (w', true) ∧ bm w' ≠ 0xFF ∨
      nextWindow n bm old rounds w = some (w', false) ∧ w' = old ∧ ∀ j < n, bm j = 0xFF
  | 0, k, w, hk, hr, _, _, _ => by omega
  | rounds + 1, k, w, hk, hr, hw, hpos, hfull => by
    rw [nextWindow]
    by_cases hb : bm w = 0xFF
    · have hnext : ∀ j < n, ∀ i < k + 1, j = old + i ∨ j + n = old + i → bm j = 0xFF := by
        intro j hj i hi hij
        by_cases hlast : i = k
        · rw [show j = w by omega, hb]
        · exact hfull j hj i (by omega) hij
      rw [if_pos hb]
      dsimp only
      generalize hv : (if w + 1 = n then 0 else w + 1) = v
      have hv : v < n ∧ (v = old + (k + 1) ∨ v + n = old + (k + 1)) := by split_ifs at hv <;> omega
      split_ifs with hback
      · refine ⟨v, hv.1, Or.inr ⟨rfl, hback, fun j hj => ?_⟩⟩
        by_cases hle : old ≤ j
        · exact hnext j hj (j - old) (by omega) (by omega)
        · exact hnext j hj (j + n - old) (by omega) (by omega)
      · exact nextWindow_spec bm ho rounds (k + 1) (by omega) (by omega) hv.1 hv.2 hnext
    · rw [if_neg hb]
      exact ⟨w, hw, Or.inl ⟨rfl, hb⟩⟩

theorem find_clear : ∀ b : BitVec 8, b ≠ 0xFF → ∃ i < 8, b.getLsbD i = false ∧
    ((List.range 8).find? fun i => (b ^^^ 1#8 <<< i) &&& 1#8 <<< i ≠ 0) = some i := by
  decide +kernel

theorem getLsbD_bit {j : ℕ} (hi : i < 8) : (1#8 <<< i).getLsbD j = decide (j = i) := by
  change (BitVec.twoPow 8 i).getLsbD j = _
  grind

theorem has_set (hi : i < 8) (q : ℕ) : Has (update bm w (bm w ||| 1#8 <<< i)) q ↔ q = w * 8 + i ∨ Has bm q := by
  rw [Has, Has, update_apply]
  grind [getLsbD_bit]

theorem has_clear (hi : i < 8) (q : ℕ) :
    Has (update bm w (bm w &&& ~~~(1#8 <<< i))) q ↔ q ≠ w * 8 + i ∧ Has bm q := by
  rw [Has, Has, update_apply]
  grind [getLsbD_bit]

theorem allocates (hw : pool.window < pidPoolSize) : Allocates pool := by
  obtain ⟨w, hlt, ⟨hs, hb⟩ | ⟨hs, rfl, hfull⟩⟩ := nextWindow_spec pool.bm hw pidPoolSize 0 (by omega)
    le_rfl hw (Or.inl rfl) fun _ _ _ hi => by omega
  · obtain ⟨i, hi, hclear, hfind⟩ := find_clear _ hb
    rw [Allocates, allocPid, hs, Option.map_some]
    dsimp only
    rw [hfind]
    refine ⟨_, _, rfl, hlt, Or.inl ⟨w * 8 + i, by omega, rfl, ?_, has_set hi⟩⟩
    grind [Has]
  · have hones : ∀ i < 8, (0xFF#8).getLsbD i = true := by decide
    refine ⟨-1, pool, by rw [allocPid, hs]; rfl, hw, Or.inr ⟨rfl, rfl, fun pid hpid => ?_⟩⟩
    rw [Has, hfull _ (by omega)]
    exact hones _ (Nat.mod_lt _ (by decide))

/-- **Process ids**: after any calls in which only live ids are given back, the set bits are the live ids, no id is
live twice, and the next `alloc_pid` returns an id that is not live or, where all are, -1. -/
theorem allocPid_exact (h : Reached pool live) :
    live.Nodup ∧ (∀ pid, Has pool.bm pid ↔ pid ∈ live) ∧ Allocates pool := by
  suffices hinv : pool.window < pidPoolSize ∧ live.Nodup ∧ ∀ pid, Has pool.bm pid ↔ pid ∈ live from
    ⟨hinv.2.1, hinv.2.2, allocates hinv.1⟩
  induction h with
  | start => exact ⟨by decide, List.nodup_nil, fun pid => by simp [Has]⟩
  | alloc _ hr ih =>
    obtain ⟨r, pool, hr', hw, ⟨pid, -, rfl, hnew, hhas⟩ | ⟨rfl, rfl, -⟩⟩ := allocates ih.1 <;> cases hr.symm.trans hr'
    · rw [ih.2.2] at hnew
      rw [if_neg (by omega), Int.toNat_natCast]
      exact ⟨hw, List.nodup_cons.mpr ⟨hnew, ih.2.1⟩, fun q => by rw [hhas, ih.2.2, List.mem_cons]⟩
    · exact ih
  | free _ _ ih =>
    refine ⟨ih.1, ih.2.1.erase _, fun q => ?_⟩
    rw [ih.2.1.mem_erase_iff, ← ih.2.2, freePid, has_clear (Nat.mod_lt _ (by decide)), Nat.div_add_mod']

theorem allocPid_exact_first : ∃ pool, Reached pool [0] ∧ Allocates pool :=
  have h : Reached _ [0] := .alloc .start rfl
  ⟨_, h, (allocPid_exact h).2.2⟩

end OsHonor.Processes.Pids
