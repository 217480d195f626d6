import OsHonor.Vm.Regions

/-! # The test for overlap (`check_vmregion_intersection`)

The test looks whether the begin or the end of the interval is in a region. That covers an interval that crosses
the begin or the end of a region or lies inside it (`Crossed`). It misses a region that the interval encloses
(`Enclosed`), and it reports a region that begins where the interval ends, with which there is no address in
common. `checkVmregionIntersection_exact_iff` says for which lists these two faults do not show. -/

namespace OsHonor.Vm.Intersection

open BitVec Regions

def Shares (v : Region) (first last : Word) : Prop :=
  ∃ a : Word, (first ≤ a ∧ a < last) ∧ v.first ≤ a ∧ a < v.last

/-- The interval begins in the region, or the region goes on where the interval ends. -/
def Crossed (v : Region) (first last : Word) : Prop :=
  (v.first ≤ first ∧ first < v.last) ∨ (v.first < last ∧ last < v.last)

def Enclosed (v : Region) (first last : Word) : Prop := first < v.first ∧ v.last ≤ last

variable {first last : Word} {l : List Region}

theorem shares_iff {v : Region} (hv : v.first < v.last) (h : first < last) :
    Shares v first last ↔ Crossed v first last ∨ Enclosed v first last := by
  unfold Shares Crossed Enclosed
  constructor
  · rintro ⟨a, ha⟩
    simp only [le_def, lt_def] at *
    omega
  · -- the later one of the two begins is in both
    intro hmeet
    by_cases hle : v.first ≤ first
    · refine ⟨first, ?_⟩
      simp only [le_def, lt_def] at *
      omega
    · refine ⟨v.first, ?_⟩
      simp only [le_def, lt_def] at *
      omega

theorem check_iff (hl : ∀ v ∈ l, v.first < v.last) :
    checkVmregionIntersection l first last = true ↔
      (∃ v ∈ l, Crossed v first last) ∨ ∃ v ∈ l, v.first = last := by
  unfold checkVmregionIntersection
  rw [List.any_eq_true]
  constructor
  · rintro ⟨v, hv, htest⟩
    rw [decide_eq_true_eq] at htest
    by_cases hlast : v.first = last
    · exact Or.inr ⟨v, hv, hlast⟩
    · refine Or.inl ⟨v, hv, ?_⟩
      unfold Crossed
      rw [← toNat_inj] at hlast
      simp only [le_def, lt_def] at *
      omega
  · rintro (⟨v, hv, hcross⟩ | ⟨v, hv, hlast⟩)
    · refine ⟨v, hv, decide_eq_true ?_⟩
      unfold Crossed at hcross
      simp only [le_def, lt_def] at *
      omega
    · refine ⟨v, hv, decide_eq_true (Or.inr ⟨?_, ?_⟩)⟩
      · rw [hlast]
        exact BitVec.le_refl _
      · rw [← hlast]
        exact hl v hv

theorem exists_shares_iff (hl : ∀ v ∈ l, v.first < v.last) (h : first < last) :
    (∃ v ∈ l, Shares v first last) ↔ (∃ v ∈ l, Crossed v first last) ∨ ∃ v ∈ l, Enclosed v first last := by
  constructor
  · rintro ⟨v, hv, hs⟩
    rcases (shares_iff (hl v hv) h).mp hs with hc | he
    · exact Or.inl ⟨v, hv, hc⟩
    · exact Or.inr ⟨v, hv, he⟩
  · rintro (⟨v, hv, hc⟩ | ⟨v, hv, he⟩)
    · exact ⟨v, hv, (shares_iff (hl v hv) h).mpr (Or.inl hc)⟩
    · exact ⟨v, hv, (shares_iff (hl v hv) h).mpr (Or.inr he)⟩

/-- **The test is exact** if and only if a region is crossed anyway, or there is a region that begins where the
interval ends exactly if there is one that is enclosed. -/
theorem checkVmregionIntersection_exact_iff {l : List Region} {first last : Word} (hl : ∀ v ∈ l, v.first < v.last)
    (h : first < last) :
    (checkVmregionIntersection l first last = true ↔ ∃ v ∈ l, Shares v first last) ↔
      (∃ v ∈ l, Crossed v first last) ∨ ((∃ v ∈ l, v.first = last) ↔ ∃ v ∈ l, Enclosed v first last) := by
  rw [check_iff hl, exists_shares_iff hl h]
  by_cases hc : ∃ v ∈ l, Crossed v first last
  · exact iff_of_true ⟨fun _ => Or.inl hc, fun _ => Or.inl hc⟩ (Or.inl hc)
  · rw [or_iff_right hc, or_iff_right hc, or_iff_right hc]

/-- A region that lies before the interval is not reported. -/
theorem checkVmregionIntersection_exact_before :
    checkVmregionIntersection [⟨vmrMm, 4096#64, 8192#64, initMmapInfo⟩] 8192#64 12288#64 = true ↔
      ∃ v ∈ [(⟨vmrMm, 4096#64, 8192#64, initMmapInfo⟩ : Region)], Shares v 8192#64 12288#64 := by
  refine (checkVmregionIntersection_exact_iff ?_ (by decide)).mpr (Or.inr ⟨?_, ?_⟩)
  · intro v hv
    rw [List.mem_singleton.mp hv]
    decide
  · rintro ⟨v, hv, he⟩
    rw [List.mem_singleton.mp hv] at he
    exact absurd he (by decide)
  · rintro ⟨v, hv, he⟩
    rw [List.mem_singleton.mp hv] at he
    exact absurd he.1 (by decide)

/-- **An adjacent region is reported, an enclosed one is not.** -/
theorem adjacent_reported_enclosed_missed :
    let v : Region := ⟨vmrMm, 4096#64, 8192#64, initMmapInfo⟩
    (checkVmregionIntersection [v] 0#64 4096#64 = true ∧ ¬ Shares v 0#64 4096#64) ∧
      checkVmregionIntersection [v] 0#64 8192#64 = false ∧ Shares v 0#64 8192#64 := by
  refine ⟨⟨by decide, ?_⟩, by decide, 4096#64, by decide⟩
  rintro ⟨a, ⟨-, hlt⟩, hle, -⟩
  exact absurd hlt (BitVec.not_lt.mpr hle)

end OsHonor.Vm.Intersection
