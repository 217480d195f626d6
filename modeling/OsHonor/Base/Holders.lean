import Mathlib.Data.Finset.Prod

/-! # Counting the holders of a reference

A finite set `S` of places, each of which holds a reference or none (`g : X → Option F`). `holders S g f` is
the number of places that hold `f`. A place that changes what it holds moves one count
(`holders_update`); places that hold nothing may be added and taken away (`holders_union`,
`holders_sdiff`). -/

namespace OsHonor.Base.Holders

open Function Finset

variable {X F : Type*} [DecidableEq X] [DecidableEq F] {S T : Finset X} {g : X → Option F}

/-- **The number of places that hold** `f`. -/
def holders (S : Finset X) (g : X → Option F) (f : F) : ℕ := (S.filter fun x => g x = some f).card

omit [DecidableEq X] in
theorem holders_pos {x : X} {f : F} (hx : x ∈ S) (h : g x = some f) : 0 < holders S g f :=
  card_pos.mpr ⟨x, mem_filter.mpr ⟨hx, h⟩⟩

omit [DecidableEq X] in
theorem exists_of_holders_pos {f : F} (h : 0 < holders S g f) : ∃ x ∈ S, g x = some f := by
  obtain ⟨x, hx⟩ := card_pos.mp h
  exact ⟨x, mem_filter.mp hx⟩

theorem holders_eq_add {x : X} (hx : x ∈ S) (f : F) :
    holders S g f = holders (S.erase x) g f + if g x = some f then 1 else 0 := by
  unfold holders
  conv_lhs => rw [← insert_erase hx, filter_insert]
  split_ifs with h
  · rw [card_insert_of_notMem]
    simp
  · rfl

/-- **One place changes** what it holds. -/
theorem holders_update {x : X} (hx : x ∈ S) (v : Option F) (f : F) :
    holders S (update g x v) f + (if g x = some f then 1 else 0) =
      holders S g f + if v = some f then 1 else 0 := by
  have hrest : holders (S.erase x) (update g x v) f = holders (S.erase x) g f := by
    unfold holders
    refine congrArg _ (filter_congr fun y hy => ?_)
    rw [update_of_ne (ne_of_mem_erase hy)]
  rw [holders_eq_add hx f, holders_eq_add hx f, hrest, update_self]
  omega

theorem holders_union (hT : ∀ x ∈ T, g x = none) (f : F) : holders (S ∪ T) g f = holders S g f := by
  have hnone : (T.filter fun x => g x = some f) = ∅ := by
    refine filter_false_of_mem fun x hx h => ?_
    rw [hT x hx] at h
    cases h
  unfold holders
  rw [filter_union, hnone, union_empty]

theorem holders_sdiff (hT : ∀ x ∈ T, g x = none) (f : F) : holders (S \ T) g f = holders S g f := by
  unfold holders
  refine congrArg _ (Finset.ext fun x => ?_)
  rw [mem_filter, mem_filter, mem_sdiff]
  constructor
  · rintro ⟨⟨hx, -⟩, h⟩
    exact ⟨hx, h⟩
  · rintro ⟨hx, h⟩
    refine ⟨⟨hx, fun hxT => ?_⟩, h⟩
    rw [hT x hxT] at h
    cases h

end OsHonor.Base.Holders
