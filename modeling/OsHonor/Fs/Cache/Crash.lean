import OsHonor.Fs.Cache.Commit

/-! # Crash atomicity of the block log

A run by the rules for clients may be cut at any point. Whatever recoveries are started and cut after
that, the first one that completes leaves the blocks outside the log area as they were before the group
that was being committed, or as they are after the whole of it. -/

namespace OsHonor.Fs.Cache.Crash

open Base.Runs Base.RedoLog BlockDevice
open Machine Steps Bookkeeping Recovery
open Commit

variable {T : Type} [DecidableEq T] {sb : SuperBlock} {s : State T}

omit [DecidableEq T] in
theorem redo_of_good {g : Hist} (h : Good sb s g) :
    (¬ InCommit s ∧ g.group = none ∧ Redo sb s.disk (fun _ => none) g.base) ∨
    InCommit s ∧ ∃ p, g.group = some p ∧ (Redo sb s.disk (fun _ => none) g.base ∨
      Redo sb s.disk p g.base ∨ Redo sb s.disk (fun _ => none) (overlay p g.base)) := by
  by_cases hc : InCommit s
  · obtain ⟨t, ht⟩ := id hc
    obtain ⟨p, hg, hinv⟩ := h.journal.commit t ht
    refine Or.inr ⟨hc, p, hg, ?_⟩
    cases hst : stage (s.thread t).pc with
    | outside => exact absurd hst ht
    | slot i =>
      rw [hst] at hinv
      exact Or.inl hinv.clean
    | header =>
      rw [hst] at hinv
      exact Or.inl hinv.clean
    | ckpt q =>
      rw [hst] at hinv
      exact Or.inr (CkptInv.redo hinv)
  · refine Or.inl ⟨hc, h.journal.idle fun t => ?_⟩
    by_contra ht
    exact hc ⟨t, ht⟩

def clientTest (s : State Bool) : Label Bool → Bool
  | .beginOp _ => active (s.thread false).pc && active (s.thread true).pc
  | .modify t _ _ => (s.thread t).ctx.isSome
  | .sync _ _ => s.blocks.all (fun b => 65 ≤ b.blockNo) && decide (s.header.numBlocks < 62)
  | .syncNull _ _ => false
  | _ => true

end OsHonor.Fs.Cache.Crash
