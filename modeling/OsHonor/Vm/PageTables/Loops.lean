import OsHonor.Vm.PageTables.Entries
import Mathlib.Data.BitVec

/-! # The loops over the pages of a region, and over the regions

A loop from `PAGE_BASE(begin)` to `end` visits the page-aligned addresses in between, and it ends if and only if
`end` is not in the last page of the address space (`pagesOf_eq_none`, `mem_pagesOf`). `free_vmregions` does
nothing to the table (`freeVmregions_eq`), and `free_page_table` nothing to memory (`freePageTable_mem`).

`copy_vmregions` makes the regions anew, one after the other, each without its `mmap_info` and only if neither
end of it is in a region made before; `copyVmregions_perm` says when all of them come out. -/

namespace OsHonor.Vm.PageTables.Loops

open BitVec List Regions Code Entries

/-! ### Pages -/

def Ends (last : Word) : Prop := last.toNat ≤ 2 ^ 64 - 4096

instance (last : Word) : Decidable (Ends last) := inferInstanceAs (Decidable (_ ≤ _))

theorem pageBase_add (va : Word) : pageBase va + (va &&& 4095#64) = va := by
  unfold pageBase
  have hand : (va &&& ~~~4095#64) &&& (va &&& 4095#64) = 0#64 := by
    ext i hi
    simp only [getElem_and, getElem_not, BitVec.getElem_zero]
    cases va[i] <;> cases (4095#64)[i] <;> rfl
  rw [add_eq_or_of_and_eq_zero _ _ hand, ← and_or_distrib_left, BitVec.or_comm, or_not_self,
    and_allOnes]

theorem pageBase_toNat (va : Word) : (pageBase va).toNat = va.toNat / 4096 * 4096 := by
  have hoff : (va &&& 4095#64).toNat = va.toNat % 4096 := vaOffset_eq va
  rw [eq_sub_of_add_eq (pageBase_add va),
    toNat_sub_of_le (le_def.mpr (by rw [hoff]; exact Nat.mod_le _ _)), hoff]
  omega

theorem pageSize_toNat : pageSize.toNat = 4096 := rfl

theorem pagesFrom_none {last : Word} (h : ¬ Ends last) : ∀ (fuel : ℕ) (i : Word), i.toNat % 4096 = 0 →
    pagesFrom last fuel i = none
  | 0, _, _ => rfl
  | fuel + 1, i, hi => by
    unfold Ends at h
    have hlt : i < last := lt_def.mpr (by omega)
    have hnext : (i + pageSize).toNat % 4096 = 0 := by
      rw [toNat_add, pageSize_toNat]
      omega
    rw [pagesFrom, if_pos hlt, pagesFrom_none h fuel _ hnext]
    rfl

theorem pagesFrom_some {last : Word} (h : Ends last) : ∀ (fuel : ℕ) (i : Word),
    last.toNat ≤ i.toNat + 4096 * fuel → ∃ is, pagesFrom last (fuel + 1) i = some is ∧
      ∀ a, a ∈ is ↔ i ≤ a ∧ a < last ∧ a.toNat % 4096 = i.toNat % 4096 := by
  intro fuel i hfuel
  rw [pagesFrom]
  by_cases hlt : i < last
  · have hnat := lt_def.mp hlt
    have hadd : (i + pageSize).toNat = i.toNat + 4096 := by
      unfold Ends at h
      rw [toNat_add, pageSize_toNat]
      omega
    cases fuel with
    | zero => omega
    | succ fuel =>
      obtain ⟨is, his, hmem⟩ := pagesFrom_some h fuel (i + pageSize) (by omega)
      refine ⟨i :: is, by rw [if_pos hlt, his]; rfl, fun a => ?_⟩
      rw [mem_cons, hmem, le_def, le_def, lt_def, hadd, ← toNat_inj]
      omega
  · have hge := mt lt_def.mpr hlt
    refine ⟨[], if_neg hlt, fun a => ⟨fun ha => absurd ha not_mem_nil, fun ha => ?_⟩⟩
    rw [le_def, lt_def] at ha
    omega

theorem pagesOf_eq_none {first last : Word} (h : ¬ Ends last) : pagesOf first last = none :=
  pagesFrom_none h _ _ (by rw [pageBase_toNat]; omega)

/-- **The pages of a region**: the page-aligned addresses from the page of its begin on. -/
theorem mem_pagesOf (first : Word) {last : Word} (h : Ends last) : ∃ is, pagesOf first last = some is ∧
    ∀ a, a ∈ is ↔ pageBase first ≤ a ∧ a < last ∧ a.toNat % 4096 = 0 := by
  obtain ⟨is, his, hmem⟩ := pagesFrom_some h (2 ^ 52) (pageBase first) (by unfold Ends at h; omega)
  refine ⟨is, his, fun a => ?_⟩
  have hbase : (pageBase first).toNat % 4096 = 0 := by
    rw [pageBase_toNat]
    omega
  rw [hmem, hbase]

/-! ### What is unmapped and freed -/

theorem unmapPages_eq (base pt : ℕ) (s : Machine) : ∀ is : List Word, unmapPages base pt is s = some s
  | [] => rfl
  | i :: is => by
    rw [unmapPages, unmapInPgtbl_eq, Option.bind_some]
    exact unmapPages_eq base pt s is

theorem freeVmregions_eq (base pt : ℕ) (s : Machine) : ∀ l : List Region, (∀ v ∈ l, Ends v.last) →
    freeVmregions base pt l s = some s
  | [], _ => rfl
  | v :: l, h => by
    obtain ⟨is, his, -⟩ := mem_pagesOf v.first (h v mem_cons_self)
    rw [freeVmregions, unmapRangeInPgtbl, his, Option.bind_some, unmapPages_eq, Option.bind_some]
    exact freeVmregions_eq base pt s l fun w hw => h w (mem_cons_of_mem _ hw)

theorem ends_of_freeVmregions {base pt : ℕ} {s s' : Machine} : ∀ {l : List Region},
    freeVmregions base pt l s = some s' → ∀ v ∈ l, Ends v.last
  | [], _, v, hv => absurd hv not_mem_nil
  | w :: l, h, v, hv => by
    have hw : Ends w.last := by
      by_contra hno
      rw [freeVmregions, unmapRangeInPgtbl, pagesOf_eq_none hno] at h
      cases h
    obtain ⟨is, his, -⟩ := mem_pagesOf w.first hw
    rw [freeVmregions, unmapRangeInPgtbl, his, Option.bind_some, unmapPages_eq, Option.bind_some] at h
    rcases mem_cons.mp hv with rfl | hv
    · exact hw
    · exact ends_of_freeVmregions h v hv

theorem foldl_keeps {α β : Type} (f : Machine → α → Machine) (part : Machine → β)
    (hf : ∀ s a, part (f s a) = part s) : ∀ (l : List α) (s : Machine), part (l.foldl f s) = part s
  | [], _ => rfl
  | a :: l, s => by rw [foldl_cons, foldl_keeps f part hf l, hf]

/-- What freeing a table leaves alone: memory, and the pages to come. -/
def kept (s : Machine) : (ℕ → Idx → Word) × List (ℕ × (Idx → Word)) := (s.mem, s.supply)

theorem kept_kfreePage (s : Machine) (n : ℕ) : kept (kfreePage s n) = kept s := rfl

theorem kept_detachMappedPage (base : ℕ) (s : Machine) (n : ℕ) (i : Idx) :
    kept (detachMappedPage base s n i) = kept s := by
  unfold detachMappedPage kfreePage kept
  dsimp only
  split_ifs <;> rfl

theorem kept_freePageTableLevel (base : ℕ) : ∀ (k n : ℕ) (s : Machine),
    kept (freePageTableLevel base k n s) = kept s
  | 0, n, s => by
    rw [freePageTableLevel, kept_kfreePage]
    refine foldl_keeps _ kept (fun s i => ?_) _ s
    split_ifs
    · rfl
    · exact kept_detachMappedPage base s n i
  | k + 1, n, s => by
    rw [freePageTableLevel, kept_kfreePage]
    refine foldl_keeps _ kept (fun s i => ?_) _ s
    split_ifs
    · rfl
    · exact kept_freePageTableLevel base k _ s

/-- **`free_page_table`** does not write to the tables. -/
theorem kept_freePageTable (base : ℕ) (s : Machine) (pt : ℕ) : kept (freePageTable base s pt) = kept s := by
  rw [freePageTable, kept_kfreePage, kept_freePageTableLevel]

/-! ### Regions -/

theorem inOrder_cons (v : Region) (l : List Region) : inOrder (v :: l) = l ++ [v] := by
  have hmap : ∀ t : List Region, (List.range t.length).filterMap (fun i => t[i]?) = t := by
    intro t
    induction t using List.reverseRecOn with
    | nil => rfl
    | append_singleton t w ih =>
      rw [length_append, length_singleton, range_succ, filterMap_append]
      have hleft : (List.range t.length).filterMap (fun i => (t ++ [w])[i]?) = t := by
        conv_rhs => rw [← ih]
        refine filterMap_congr fun i hi => ?_
        rw [getElem?_append_left (mem_range.mp hi)]
      rw [hleft]
      simp
  unfold inOrder
  rw [length_cons, order, filterMap_append, filterMap_map]
  have htail : (List.range l.length).filterMap ((fun i => (v :: l)[i]?) ∘ (· + 1)) = l := by
    conv_rhs => rw [← hmap l]
    refine filterMap_congr fun i _ => ?_
    rw [Function.comp_apply, getElem?_cons_succ]
  rw [htail]
  rfl

theorem inOrder_perm (l : List Region) : (inOrder l).Perm l := by
  cases l with
  | nil => exact List.Perm.refl _
  | cons v l =>
    rw [inOrder_cons]
    exact perm_append_singleton v l

def pages (v : Region) : List Word := (pagesOf v.first v.last).getD []

/-- The pages that `copy_vmspace` visits. -/
def visited (l : List Region) : List Word := (inOrder l).flatMap pages

theorem ends_of_copyRegions {base : ℕ} {share : Bool} {src dst : ℕ} : ∀ {r : List Region} {s s' : Machine},
    copyRegions base share src dst r s = some s' → ∀ v ∈ r, Ends v.last
  | [], _, _, _, v, hv => absurd hv not_mem_nil
  | w :: r, s, s', h, v, hv => by
    rw [copyRegions] at h
    obtain ⟨is, his, h⟩ := Option.bind_eq_some_iff.mp h
    obtain ⟨s₁, -, h⟩ := Option.bind_eq_some_iff.mp h
    rcases mem_cons.mp hv with rfl | hv
    · by_contra hno
      rw [pagesOf_eq_none hno] at his
      cases his
    · exact ends_of_copyRegions h v hv

/-- An end of `w` is in `v`: the test of `check_vmregion_intersection`. -/
def Hits (v w : Region) : Prop :=
  (v.first ≤ w.first ∧ w.first < v.last) ∨ (v.first ≤ w.last ∧ w.last < v.last)

instance (v w : Region) : Decidable (Hits v w) := inferInstanceAs (Decidable (_ ∨ _))

/-- A region as `create_vmregion` makes it. -/
def anew (v : Region) : Region := { v with mmapInfo := initMmapInfo }

theorem createVmregion_copy (dest : List Region) (v : Region) :
    (createVmregion dest v.flags v.first (v.last - v.first)).1 =
      if ∃ w ∈ dest, Hits w v then dest else dest ++ [anew v] := by
  have hlast : v.first + (v.last - v.first) = v.last := by
    rw [BitVec.add_comm, BitVec.sub_add_cancel]
  have hcheck : checkVmregionIntersection dest v.first v.last = true ↔ ∃ w ∈ dest, Hits w v := by
    unfold checkVmregionIntersection Hits
    rw [any_eq_true]
    simp only [decide_eq_true_eq]
  unfold createVmregion
  rw [hlast]
  by_cases h : ∃ w ∈ dest, Hits w v
  · rw [if_pos h, if_pos (hcheck.mpr h)]
  · rw [if_neg h, if_neg (mt hcheck.mp h)]
    rfl

/-- The loop of `copy_vmregions`. -/
def recreate (dest r : List Region) : List Region :=
  r.foldl (fun dest v => (createVmregion dest v.flags v.first (v.last - v.first)).1) dest

theorem recreate_cons (dest : List Region) (v : Region) (r : List Region) : recreate dest (v :: r) =
    recreate (if ∃ w ∈ dest, Hits w v then dest else dest ++ [anew v]) r := by
  unfold recreate
  rw [foldl_cons, createVmregion_copy]

theorem length_recreate : ∀ r dest : List Region, (recreate dest r).length ≤ dest.length + r.length
  | [], dest => Nat.le_add_right _ _
  | v :: r, dest => by
    rw [recreate_cons, length_cons]
    split_ifs
    · exact le_trans (length_recreate r dest) (by omega)
    · refine le_trans (length_recreate r (dest ++ [anew v])) ?_
      rw [length_append, length_singleton]
      omega

theorem recreate_complete : ∀ r dest : List Region, (recreate dest r).length = dest.length + r.length ↔
    (∀ v ∈ dest, ∀ w ∈ r, ¬ Hits v w) ∧ r.Pairwise fun v w => ¬ Hits v w
  | [], dest => by simp [recreate]
  | v :: r, dest => by
    have hanew : ∀ w, Hits (anew v) w ↔ Hits v w := fun _ => Iff.rfl
    rw [recreate_cons, length_cons, pairwise_cons]
    by_cases h : ∃ w ∈ dest, Hits w v
    · have hle := length_recreate r dest
      obtain ⟨w, hw, hit⟩ := h
      rw [if_pos ⟨w, hw, hit⟩]
      refine ⟨fun hlen => by omega, fun hno => absurd hit (hno.1 w hw v mem_cons_self)⟩
    · rw [if_neg h]
      have ih := recreate_complete r (dest ++ [anew v])
      rw [length_append, length_singleton, Nat.add_assoc, Nat.add_comm 1] at ih
      rw [ih]
      simp only [mem_append, mem_cons, not_mem_nil, or_false]
      push Not at h
      constructor
      · rintro ⟨hd, hr⟩
        refine ⟨?_, fun w hw => mt (hanew w).mpr (hd (anew v) (Or.inr rfl) w hw), hr⟩
        rintro u hu w (rfl | hw)
        · exact h u hu
        · exact hd u (Or.inl hu) w hw
      · rintro ⟨hd, hv, hr⟩
        refine ⟨?_, hr⟩
        rintro u (hu | rfl) w hw
        · exact hd u hu w (Or.inr hw)
        · exact mt (hanew w).mp (hv w hw)

theorem recreate_eq : ∀ r dest : List Region, (recreate dest r).length = dest.length + r.length →
    recreate dest r = dest ++ r.map anew
  | [], dest, _ => (append_nil dest).symm
  | v :: r, dest, h => by
    rw [recreate_cons, length_cons] at h
    rw [recreate_cons]
    by_cases hit : ∃ w ∈ dest, Hits w v
    · rw [if_pos hit] at h
      have hle := length_recreate r dest
      omega
    · rw [if_neg hit] at h ⊢
      rw [recreate_eq r (dest ++ [anew v]) (by rw [h, length_append, length_singleton]; omega)]
      simp

/-- **`copy_vmregions`** makes the same regions if and only if none of them has an `mmap_info` and, in the order
of `list_forall`, no end of a region is in one before it. -/
theorem copyVmregions_perm (l : List Region) : (copyVmregions l).Perm l ↔
    (∀ v ∈ l, v.mmapInfo = initMmapInfo) ∧ (inOrder l).Pairwise fun v w => ¬ Hits v w := by
  have hdef : copyVmregions l = recreate [] (inOrder l) := rfl
  have hlen : (inOrder l).length = l.length := (inOrder_perm l).length_eq
  have hcomplete := recreate_complete (inOrder l) []
  rw [hdef]
  constructor
  · intro hperm
    have hall : (recreate [] (inOrder l)).length = ([] : List Region).length + (inOrder l).length := by
      rw [hperm.length_eq, hlen, length_nil, Nat.zero_add]
    refine ⟨fun v hv => ?_, (hcomplete.mp hall).2⟩
    have hmem := hperm.mem_iff.mpr hv
    rw [recreate_eq _ _ hall, nil_append] at hmem
    obtain ⟨w, -, rfl⟩ := mem_map.mp hmem
    rfl
  · rintro ⟨hinfo, hpair⟩
    have hall := hcomplete.mpr ⟨fun v hv => absurd hv not_mem_nil, hpair⟩
    have hsame : (inOrder l).map anew = inOrder l := by
      refine (map_congr_left fun v hv => ?_).trans (map_id _)
      have h := hinfo v ((inOrder_perm l).mem_iff.mp hv)
      cases v
      cases h
      rfl
    rw [recreate_eq _ _ hall, nil_append, hsame]
    exact inOrder_perm l

end OsHonor.Vm.PageTables.Loops
