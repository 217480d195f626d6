import OsHonor.Vm.Overlap
import OsHonor.Vm.PageTables.Translation

/-! # The heap (`sbrk`)

`sbrk` moves the end of the heap before it looks whether it may, and does not move it back. `Atomic` is what it
should do: all of it or nothing. `sbrk_atomic_iff` says when it does so. With an end that wraps, goes below the begin
of the heap or comes to lie inside another region, the regions have changed and the call has failed; and a heap that
shrinks keeps its pages, since `unmap_range_in_pgtbl` does nothing. -/

namespace OsHonor.Vm.Heap

open List Regions Overlap PageTables.Code PageTables.Loops
open PageTables.Translation

/-- What is left after `sbrk`: the return value, the regions and the machine. -/
structure Outcome where
  ret : Word
  regions : List Region
  mach : Machine

/-- `sbrk` in the address space with the table `pt`. -/
def sbrk (base : ℕ) (s : Machine) (pt : ℕ) (l : List Region) (size : Word) : Option Outcome :=
  (Regions.sbrk l size).bind fun r =>
    match r.unmapped with
    | none => some ⟨r.ret, r.regions, s⟩
    | some (first, last) => (unmapRangeInPgtbl base s pt first last).map fun s => ⟨r.ret, r.regions, s⟩

def heap (l : List Region) : Option (ℕ × Region) := findRegion (·.has vmrHeap) l

def GivenUp (size newEnd oldEnd a : Word) : Prop := size.toInt < 0 ∧ InRange newEnd oldEnd a

/-- **All or nothing**: `sbrk` returns, and either it returns `-1` and nothing has changed, or it returns the old end
of the heap, the end has moved by `size` and is not below the begin, the other regions are as before, and of the pages
those that were given up, and no others, are unmapped. -/
def Atomic (base : ℕ) (s : Machine) (pt : ℕ) (l : List Region) (size : Word) : Prop :=
  ∃ o, sbrk base s pt l size = some o ∧
    (o.ret = -1#64 → o.regions = l ∧ ∀ a, lookup o.mach pt a = lookup s pt a) ∧
    (o.ret ≠ -1#64 → ∃ i v newEnd, heap l = some (i, v) ∧ (newEnd.toNat : ℤ) = v.last.toNat + size.toInt ∧
      v.first ≤ newEnd ∧ o.ret = v.last ∧ o.regions = l.set i { v with last := newEnd } ∧
      (∀ a, GivenUp size newEnd v.last a → ¬ Valid o.mach pt a) ∧
      ∀ a, (∀ a', GivenUp size newEnd v.last a' → pageBits a' ≠ pageBits a) → lookup o.mach pt a = lookup s pt a)

/-- An address lies inside another region than the one at position `i`, and not at its begin. -/
def InOther (l : List Region) (i : ℕ) (a : Word) : Prop :=
  ∃ j w, l[j]? = some w ∧ j ≠ i ∧ w.first < a ∧ a < w.last

/-- **The condition**: there is no heap; or the end does not move and the call fails anyway; or the new end does not
wrap, is not below the begin of the heap and not inside another region, the old end can be told from `-1`, and if
the heap shrinks nothing is mapped in what it gives up. -/
def Fits (s : Machine) (pt : ℕ) (l : List Region) (size : Word) : Prop :=
  ∀ i v, heap l = some (i, v) →
    (size = 0#64 ∧ (v.last = -1#64 ∨ InOther l i v.last)) ∨
    (v.last ≠ -1#64 ∧ ((v.last + size).toNat : ℤ) = v.last.toNat + size.toInt ∧ v.first ≤ v.last + size ∧
      ¬ InOther l i (v.last + size) ∧
      (size.toInt < 0 → Ends v.last ∧ ∀ a, InRange (v.last + size) v.last a → ¬ Valid s pt a))

theorem any_inside_iff (l : List Region) (i : ℕ) (v : Region) (a : Word) :
    ((l.set i { v with last := a }).any fun w => w.first < a ∧ a < w.last) = true ↔ InOther l i a := by
  rw [any_eq_true]
  constructor
  · rintro ⟨w, hw, htest⟩
    rw [decide_eq_true_eq] at htest
    obtain ⟨j, hj, rfl⟩ := getElem_of_mem hw
    rw [length_set] at hj
    rw [getElem_set] at htest
    split_ifs at htest with hij
    · exact absurd htest.2 (BitVec.lt_irrefl _)
    · exact ⟨j, l[j], getElem?_eq_getElem hj, Ne.symm hij, htest⟩
  · rintro ⟨j, w, hj, hne, htest⟩
    obtain ⟨hjl, rfl⟩ := List.getElem?_eq_some_iff.mp hj
    refine ⟨l[j], mem_iff_getElem.mpr ⟨j, by rwa [length_set], ?_⟩, decide_eq_true htest⟩
    rw [getElem_set, if_neg (Ne.symm hne)]

section Run

variable {base : ℕ} {s : Machine} {pt : ℕ} {l : List Region} {size : Word} {i : ℕ} {v : Region}

theorem sbrk_same {r : Result} (hr : Regions.sbrk l size = some r) (o : Outcome) :
    sbrk base s pt l size = some o ↔ (∀ x ∈ r.unmapped, Ends x.2) ∧ o = ⟨r.ret, r.regions, s⟩ := by
  unfold sbrk
  rw [hr, Option.bind_some]
  obtain ⟨regions, ret, unmapped⟩ := r
  cases unmapped with
  | none => simp [eq_comm]
  | some x =>
    dsimp only
    rw [unmapRangeInPgtbl_eq]
    by_cases hends : Ends x.2
    · simp [hends, eq_comm]
    · simp [hends]

/-- The call fails: the new end is below the old one and below the begin, or inside another region. -/
def Refused (l : List Region) (i : ℕ) (v : Region) (newEnd : Word) : Prop :=
  (newEnd < v.last ∧ newEnd < v.first) ∨ InOther l i newEnd

/-- **What `sbrk` does** to the regions: the end of the heap moves in any case. -/
theorem regions_sbrk (hsize : size % pageSize = 0#64) (hv : heap l = some (i, v)) :
    ∃ r, Regions.sbrk l size = some r ∧ r.regions = l.set i { v with last := v.last + size } ∧
      (Refused l i v (v.last + size) → r.ret = -1#64) ∧ (¬ Refused l i v (v.last + size) → r.ret = v.last) ∧
      (r.unmapped = none ∨ (r.unmapped = some (v.last + size, v.last) ∧ v.last + size < v.last)) ∧
      (v.last + size < v.last → ¬ v.last + size < v.first → r.unmapped = some (v.last + size, v.last)) := by
  have hany := any_inside_iff l i v (v.last + size)
  unfold heap at hv
  unfold Regions.sbrk Refused
  rw [if_neg (not_not.mpr hsize), hv]
  dsimp only
  split_ifs with hbelow hin hdown hdown
  · exact ⟨_, rfl, rfl, fun _ => rfl, fun h => absurd (Or.inl hbelow) h, Or.inl rfl, fun _ h => absurd hbelow.2 h⟩
  · exact ⟨_, rfl, rfl, fun _ => rfl, fun h => absurd (Or.inr (hany.mp hin)) h, Or.inr ⟨rfl, hdown⟩, fun _ _ => rfl⟩
  · exact ⟨_, rfl, rfl, fun _ => rfl, fun h => absurd (Or.inr (hany.mp hin)) h, Or.inl rfl, fun h _ => absurd h hdown⟩
  all_goals
    have hnot : ¬ ((v.last + size < v.last ∧ v.last + size < v.first) ∨ InOther l i (v.last + size)) := by
      rintro (h | h)
      · exact hbelow h
      · exact hin (hany.mpr h)
  · exact ⟨_, rfl, rfl, fun h => absurd h hnot, fun _ => rfl, Or.inr ⟨rfl, hdown⟩, fun _ _ => rfl⟩
  · exact ⟨_, rfl, rfl, fun h => absurd h hnot, fun _ => rfl, Or.inl rfl, fun h _ => absurd h hdown⟩

theorem sbrk_spec (hsize : size % pageSize = 0#64) (hv : heap l = some (i, v)) {o : Outcome}
    (ho : sbrk base s pt l size = some o) :
    o.mach = s ∧ o.regions = l.set i { v with last := v.last + size } ∧
      (Refused l i v (v.last + size) → o.ret = -1#64) ∧
      (¬ Refused l i v (v.last + size) → o.ret = v.last ∧ (v.last + size < v.last → Ends v.last)) := by
  obtain ⟨r, hr, hregions, hbad, hgood, -, hunmapped⟩ := regions_sbrk hsize hv
  obtain ⟨hends, rfl⟩ := (sbrk_same hr o).mp ho
  refine ⟨rfl, hregions, hbad, fun h => ⟨hgood h, fun hdown => ?_⟩⟩
  have hbelow : ¬ v.last + size < v.first := fun hlt => h (Or.inl ⟨hdown, hlt⟩)
  exact hends _ (hunmapped hdown hbelow)

theorem sbrk_returns (hsize : size % pageSize = 0#64) (hv : heap l = some (i, v))
    (hends : v.last + size < v.last → Ends v.last) : ∃ o, sbrk base s pt l size = some o := by
  obtain ⟨r, hr, -, -, -, hunmapped, -⟩ := regions_sbrk hsize hv
  refine ⟨_, (sbrk_same hr _).mpr ⟨fun x hx => ?_, rfl⟩⟩
  rcases hunmapped with hnone | ⟨hsome, hdown⟩
  · rw [hnone] at hx
    cases hx
  · rw [hsome] at hx
    cases hx
    exact hends hdown

theorem sbrk_no_heap (hsize : size % pageSize = 0#64) (hv : heap l = none) :
    sbrk base s pt l size = some ⟨-1#64, l, s⟩ := by
  unfold heap at hv
  unfold sbrk Regions.sbrk
  rw [if_neg (not_not.mpr hsize), hv]
  rfl

theorem set_eq_iff (hi : l[i]? = some v) : l.set i { v with last := v.last + size } = l ↔ size = 0#64 := by
  obtain ⟨hil, rfl⟩ := List.getElem?_eq_some_iff.mp hi
  constructor
  · intro h
    have hat : (l.set i { l[i] with last := l[i].last + size })[i]? = some l[i] := by rw [h, hi]
    rw [getElem?_set_self hil] at hat
    have hlast := congrArg Region.last (Option.some.inj hat)
    exact BitVec.add_right_eq_self.mp hlast
  · rintro rfl
    rw [BitVec.add_zero]
    exact set_getElem_self hil

theorem toInt_neg_iff (h : ((v.last + size).toNat : ℤ) = v.last.toNat + size.toInt) :
    size.toInt < 0 ↔ v.last + size < v.last := by
  rw [BitVec.lt_def]
  omega

end Run

/-- **`sbrk` is all or nothing** exactly under the condition. -/
theorem sbrk_atomic_iff (base : ℕ) (s : Machine) (pt : ℕ) (l : List Region) {size : Word}
    (hsize : size % pageSize = 0#64) : Atomic base s pt l size ↔ Fits s pt l size := by
  cases hv : heap l with
  | none =>
    refine iff_of_true ⟨_, sbrk_no_heap hsize hv, fun _ => ⟨rfl, fun _ => rfl⟩, fun h => absurd rfl h⟩ ?_
    intro i v h
    rw [hv] at h
    cases h
  | some x =>
    obtain ⟨i, v⟩ := x
    have hi := (findRegion_spec hv).1
    constructor
    · rintro ⟨o, ho, hfail, hdone⟩ i' v' hv'
      cases hv.symm.trans hv'
      obtain ⟨hmach, hregions, hbad, hgood⟩ := sbrk_spec hsize hv ho
      by_cases hret : o.ret = -1#64
      · -- nothing has changed, so the end has not moved
        have hzero : size = 0#64 := (set_eq_iff hi).mp (hregions.symm.trans (hfail hret).1)
        refine Or.inl ⟨hzero, ?_⟩
        by_cases href : Refused l i v (v.last + size)
        · rw [hzero, BitVec.add_zero] at href
          rcases href with ⟨hlt, -⟩ | hin
          · exact absurd hlt (BitVec.lt_irrefl _)
          · exact Or.inr hin
        · exact Or.inl ((hgood href).1.symm.trans hret)
      · obtain ⟨i', v', newEnd, hv', hexact, hle, hold, hset, hgone, -⟩ := hdone hret
        cases hv.symm.trans hv'
        have hnew : newEnd = v.last + size := by
          have hat := congrArg (fun l' => l'[i]?) (hset.symm.trans hregions)
          obtain ⟨hil, -⟩ := List.getElem?_eq_some_iff.mp hi
          rw [getElem?_set_self hil, getElem?_set_self hil] at hat
          exact congrArg Region.last (Option.some.inj hat)
        subst hnew
        have href : ¬ Refused l i v (v.last + size) := fun h => hret (hbad h)
        refine Or.inr ⟨fun h => hret (hold.trans h), hexact, hle, fun h => href (Or.inr h), fun hneg => ?_⟩
        refine ⟨(hgood href).2 ((toInt_neg_iff hexact).mp hneg), fun a ha => ?_⟩
        have hinv := hgone a ⟨hneg, ha⟩
        rwa [hmach] at hinv
    · intro hfits
      rcases hfits i v hv with ⟨rfl, hstay⟩ | ⟨hlast, hexact, hle, hother, hshrink⟩
      · have hret : ∃ o, sbrk base s pt l 0#64 = some o := by
          refine sbrk_returns hsize hv fun h => ?_
          rw [BitVec.add_zero] at h
          exact absurd h (BitVec.lt_irrefl _)
        obtain ⟨o, ho⟩ := hret
        obtain ⟨hmach, hregions, hbad, hgood⟩ := sbrk_spec hsize hv ho
        have hfailed : o.ret = -1#64 := by
          rcases hstay with h | h
          · by_cases href : Refused l i v (v.last + 0#64)
            · exact hbad href
            · exact (hgood href).1.trans h
          · refine hbad (Or.inr ?_)
            rwa [BitVec.add_zero]
        refine ⟨o, ho, fun _ => ⟨hregions.trans ((set_eq_iff hi).mpr rfl), fun a => by rw [hmach]⟩, fun h => absurd hfailed h⟩
      · have href : ¬ Refused l i v (v.last + size) := by
          rintro (⟨-, hlt⟩ | hin)
          · exact absurd hlt (BitVec.not_lt.mpr hle)
          · exact hother hin
        have hneg := toInt_neg_iff hexact
        have hret : ∃ o, sbrk base s pt l size = some o :=
          sbrk_returns hsize hv fun h => (hshrink (hneg.mpr h)).1
        obtain ⟨o, ho⟩ := hret
        obtain ⟨hmach, hregions, -, hgood⟩ := sbrk_spec hsize hv ho
        have hold := (hgood href).1
        refine ⟨o, ho, fun h => absurd (hold.symm.trans h) hlast, fun _ => ?_⟩
        refine ⟨i, v, v.last + size, hv, hexact, hle, hold, hregions, fun a ha => ?_, fun a _ => by rw [hmach]⟩
        rw [hmach]
        exact (hshrink ha.1).2 a ha.2

/-- A heap of one page that grows by a page. -/
theorem sbrk_atomic_grow : Atomic 0 zeros 1 [⟨vmrHeap, 4096#64, 8192#64, initMmapInfo⟩] 4096#64 := by
  refine (sbrk_atomic_iff 0 zeros 1 _ (by decide)).mpr fun i v hv => ?_
  have hheap : heap [⟨vmrHeap, 4096#64, 8192#64, initMmapInfo⟩] =
      some (0, ⟨vmrHeap, 4096#64, 8192#64, initMmapInfo⟩) := by decide
  cases hheap.symm.trans hv
  refine Or.inr ⟨by decide, by decide, by decide, ?_, fun h => absurd h (by decide)⟩
  rintro ⟨j, w, hj, hne, -⟩
  obtain ⟨hjl, -⟩ := List.getElem?_eq_some_iff.mp hj
  exact hne (Nat.lt_one_iff.mp hjl)

/-- **A failed call has moved the end**: a heap of one page is asked to shrink by two. -/
theorem sbrk_moved : (∃ o, sbrk 0 zeros 1 [⟨vmrHeap, 4096#64, 8192#64, initMmapInfo⟩] (-8192#64) = some o ∧
    o.ret = -1#64 ∧ o.regions = [⟨vmrHeap, 4096#64, 0#64, initMmapInfo⟩]) ∧
    ¬ Atomic 0 zeros 1 [⟨vmrHeap, 4096#64, 8192#64, initMmapInfo⟩] (-8192#64) := by
  have hrun : (Regions.sbrk [⟨vmrHeap, 4096#64, 8192#64, initMmapInfo⟩] (-8192#64)).map
      (fun r => (r.ret, r.regions, r.unmapped)) =
      some (-1#64, [⟨vmrHeap, 4096#64, 0#64, initMmapInfo⟩], none) := by decide
  obtain ⟨r, hr, hparts⟩ := Option.map_eq_some_iff.mp hrun
  rw [Prod.mk.injEq, Prod.mk.injEq] at hparts
  obtain ⟨hret, hregions, hnone⟩ := hparts
  have hsbrk : sbrk 0 zeros 1 [⟨vmrHeap, 4096#64, 8192#64, initMmapInfo⟩] (-8192#64) = some ⟨r.ret, r.regions, zeros⟩ := by
    unfold sbrk
    rw [hr, Option.bind_some, hnone]
  refine ⟨⟨_, hsbrk, hret, hregions⟩, ?_⟩
  rintro ⟨o, ho, hfail, -⟩
  cases hsbrk.symm.trans ho
  exact absurd (hregions.symm.trans (hfail hret).1) (by decide)

end OsHonor.Vm.Heap
