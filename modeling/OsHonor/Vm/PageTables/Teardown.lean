import OsHonor.Base.Holders
import OsHonor.Vm.PageTables.Spaces

/-! # Freeing a page table

`free_page_table` goes through the tree of tables, gives up the page of every valid level-3 entry, and frees the
tables on the way back. `Drained s s' D T` says that the pages `D` were given up and the tables `T` freed: the
count of a page goes down by the number of times it is in `D`, and the page is freed when that takes its count
through zero. It adds up over a loop (`drained_foldl`), so it holds of the whole tree (`freePageTable_drained`).

The recursion frees the root as well, and `free_page_table` frees it again after that (`freePageTable_freed`), so
there is no table that is freed as it should be (`freePageTable_not_once`).

The page of a level-3 entry is the end of a walk with four indices. `entries` counts these over all address
spaces, and `entries_drop` says what is left without one of them. -/

namespace OsHonor.Vm.PageTables.Teardown

open Option List Base.Radix Regions Code
open Entries

/-! ### Giving up pages -/

/-- The pages `D` are given up and the pages `T` freed. -/
structure Drained (base : ℕ) (s s' : Machine) (D T : List ℕ) : Prop where
  mem : s'.mem = s.mem
  supply : s'.supply = s.supply
  rc : ∀ x, s'.rc x = s.rc x - if managed base x then (D.count x : ℤ) else 0
  freed : ∃ L, s'.freed = s.freed ++ L ∧ ∀ x,
    L.count x = (if managed base x ∧ 1 ≤ s.rc x ∧ s.rc x ≤ D.count x then 1 else 0) + T.count x

theorem Drained.refl (base : ℕ) (s : Machine) : Drained base s s [] [] := by
  refine ⟨rfl, rfl, fun x => by simp, [], (append_nil _).symm, fun x => ?_⟩
  rw [if_neg, count_nil]
  rintro ⟨-, h1, h2⟩
  rw [count_nil] at h2
  omega

theorem Drained.trans {base : ℕ} {s₀ s₁ s₂ : Machine} {D T D' T' : List ℕ} (h : Drained base s₀ s₁ D T)
    (h' : Drained base s₁ s₂ D' T') : Drained base s₀ s₂ (D ++ D') (T ++ T') := by
  obtain ⟨L, hL, hcount⟩ := h.freed
  obtain ⟨L', hL', hcount'⟩ := h'.freed
  refine ⟨h'.mem.trans h.mem, h'.supply.trans h.supply, fun x => ?_, L ++ L', ?_, fun x => ?_⟩
  · rw [h'.rc, h.rc, count_append]
    split_ifs <;> push_cast <;> omega
  · rw [hL', hL, append_assoc]
  · have hrc := h.rc x
    rw [count_append, hcount, hcount', count_append, count_append]
    by_cases hm : managed base x
    · simp only [hm, if_true, true_and] at hrc ⊢
      rw [hrc]
      split_ifs <;> push_cast at * <;> omega
    · simp only [hm, if_false, false_and, Bool.false_eq_true]
      omega

theorem drained_kfreePage (base : ℕ) (s : Machine) (n : ℕ) : Drained base s (kfreePage s n) [] [n] := by
  refine ⟨rfl, rfl, fun x => by simp [kfreePage], [n], rfl, fun x => ?_⟩
  rw [if_neg, Nat.zero_add]
  rintro ⟨-, h1, h2⟩
  rw [count_nil] at h2
  omega

/-- **`detach_mapped_page`** gives up one page. -/
theorem drained_detachMappedPage (base : ℕ) (s : Machine) (n : ℕ) (i : Idx) :
    Drained base s (detachMappedPage base s n i) [pageOf (s.mem n i)] [] := by
  unfold detachMappedPage
  generalize pageOf (s.mem n i) = page
  dsimp only
  have hone : ∀ x, [page].count x = if x = page then 1 else 0 := by
    intro x
    by_cases h : x = page
    · rw [if_pos h, h, count_singleton_self]
    · rw [if_neg h, count_eq_zero]
      exact fun hx => h (mem_singleton.mp hx)
  by_cases hm : managed base page
  · rw [if_pos hm]
    have hrc : ∀ x, Function.update s.rc page (s.rc page - 1) x =
        s.rc x - if managed base x then ([page].count x : ℤ) else 0 := by
      intro x
      rw [hone]
      by_cases hx : x = page
      · subst hx
        simp [hm]
      · rw [Function.update_of_ne hx]
        simp [hx]
    have hself : Function.update s.rc page (s.rc page - 1) page = s.rc page - 1 := Function.update_self ..
    split_ifs with hzero <;> rw [hself] at hzero
    · refine ⟨rfl, rfl, hrc, [page], rfl, fun x => ?_⟩
      rw [hone, count_nil]
      by_cases hx : x = page
      · subst hx
        rw [if_pos rfl, if_pos ⟨hm, by omega, by push_cast; omega⟩]
      · rw [if_neg hx, if_neg]
        rintro ⟨-, h1, h2⟩
        push_cast at h2
        omega
    · refine ⟨rfl, rfl, hrc, [], (append_nil _).symm, fun x => ?_⟩
      rw [hone, count_nil, if_neg]
      rintro ⟨-, h1, h2⟩
      by_cases hx : x = page
      · subst hx
        rw [if_pos rfl] at h2
        push_cast at h2
        omega
      · rw [if_neg hx] at h2
        push_cast at h2
        omega
  · rw [if_neg hm]
    refine ⟨rfl, rfl, fun x => ?_, [], (append_nil _).symm, fun x => ?_⟩
    · rw [hone]
      by_cases hx : x = page
      · subst hx
        simp [hm]
      · simp [hx]
    · rw [hone, count_nil, if_neg]
      rintro ⟨hmx, h1, h2⟩
      by_cases hx : x = page
      · subst hx
        exact hm hmx
      · rw [if_neg hx] at h2
        push_cast at h2
        omega

/-- **A loop** whose passes give up pages. -/
theorem drained_foldl {α : Type} {base : ℕ} {m : ℕ → Idx → Word} (f : Machine → α → Machine) (D T : α → List ℕ)
    (hf : ∀ s a, s.mem = m → Drained base s (f s a) (D a) (T a)) : ∀ (l : List α) (s : Machine), s.mem = m →
    Drained base s (l.foldl f s) (l.flatMap D) (l.flatMap T)
  | [], s, _ => Drained.refl base s
  | a :: l, s, hm => by
    have hfirst := hf s a hm
    exact hfirst.trans (drained_foldl f D T hf l (f s a) (hfirst.mem.trans hm))

/-! ### The tree of tables -/

/-- The ends of the walks with `k` indices from the page `n`. -/
def ends (m : ℕ → Idx → Word) : ℕ → ℕ → List ℕ
  | 0, n => [n]
  | k + 1, n => (List.finRange 512).flatMap fun i => (child (m n i)).elim [] (ends m k)

/-- The tables of a tree, `k` levels below its root and above. -/
def tables (m : ℕ → Idx → Word) : ℕ → ℕ → List ℕ
  | 0, n => [n]
  | k + 1, n => ((List.finRange 512).flatMap fun i => (child (m n i)).elim [] (tables m k)) ++ [n]

/-- **`__free_page_table_level`** gives up the pages at the ends, and frees the tables. -/
theorem freePageTableLevel_drained (base : ℕ) : ∀ (k n : ℕ) (s : Machine),
    Drained base s (freePageTableLevel base k n s) (ends s.mem (k + 1) n) (tables s.mem k n)
  | 0, n, s => by
    have hloop : Drained base s _ _ ((List.finRange 512).flatMap fun _ => []) :=
      drained_foldl (m := s.mem)
        (fun s i => if s.mem n i &&& pteValid = 0#64 then s else detachMappedPage base s n i)
        (fun i => (child (s.mem n i)).elim [] (ends s.mem 0)) (fun _ => []) (fun s' i hm => by
          rw [← hm]
          by_cases hv : s'.mem n i &&& pteValid = 0#64
          · rw [if_pos hv, child_of_invalid hv]
            exact Drained.refl base s'
          · rw [if_neg hv, child_of_valid hv]
            exact drained_detachMappedPage base s' n i) (List.finRange 512) s rfl
    have hnil : ((List.finRange 512).flatMap fun _ => ([] : List ℕ)) = [] := by
      rw [flatMap_eq_nil_iff]
      exact fun _ _ => rfl
    have hall := hloop.trans (drained_kfreePage base _ n)
    rw [hnil, append_nil, nil_append] at hall
    rw [freePageTableLevel, ends, tables]
    exact hall
  | k + 1, n, s => by
    have hloop := drained_foldl (m := s.mem)
      (fun s i => if s.mem n i &&& pteValid = 0#64 then s else freePageTableLevel base k (pageOf (s.mem n i)) s)
      (fun i => (child (s.mem n i)).elim [] (ends s.mem (k + 1)))
      (fun i => (child (s.mem n i)).elim [] (tables s.mem k)) (fun s' i hm => by
        rw [← hm]
        by_cases hv : s'.mem n i &&& pteValid = 0#64
        · rw [if_pos hv, child_of_invalid hv]
          exact Drained.refl base s'
        · rw [if_neg hv, child_of_valid hv, elim_some, elim_some]
          exact freePageTableLevel_drained base k _ s') (List.finRange 512) s rfl
    have hall := hloop.trans (drained_kfreePage base _ n)
    rw [append_nil] at hall
    rw [freePageTableLevel, ends, tables]
    exact hall

/-- **`free_page_table`** of the tree at `pt`. -/
theorem freePageTable_drained (base : ℕ) (s : Machine) (pt : ℕ) :
    Drained base s (freePageTable base s pt) (ends s.mem 4 pt) (tables s.mem 3 pt ++ [pt]) := by
  have hall := (freePageTableLevel_drained base 3 pt s).trans (drained_kfreePage base _ pt)
  rw [append_nil] at hall
  exact hall

/-! ### What is freed -/

theorem mem_tables {m : ℕ → Idx → Word} {x : ℕ} : ∀ {k n : ℕ},
    x ∈ tables m k n ↔ ∃ is : List Idx, is.length ≤ k ∧ walk child m n is = some x
  | 0, n => by
    rw [tables, mem_singleton]
    constructor
    · rintro rfl
      exact ⟨[], le_rfl, rfl⟩
    · rintro ⟨is, his, hw⟩
      rw [length_eq_zero_iff.mp (Nat.le_zero.mp his)] at hw
      exact (some.inj hw).symm
  | k + 1, n => by
    rw [tables, mem_append, mem_flatMap, mem_singleton]
    constructor
    · rintro (⟨i, -, hx⟩ | rfl)
      · cases hc : child (m n i) with
        | none =>
          rw [hc] at hx
          exact absurd hx not_mem_nil
        | some n' =>
          rw [hc, elim_some] at hx
          obtain ⟨is, his, hw⟩ := mem_tables.mp hx
          exact ⟨i :: is, Nat.succ_le_succ his, by rw [walk, hc, bind_some]; exact hw⟩
      · exact ⟨[], Nat.zero_le _, rfl⟩
    · rintro ⟨is, his, hw⟩
      cases is with
      | nil => exact Or.inr (some.inj hw).symm
      | cons i is =>
        rw [walk] at hw
        obtain ⟨n', hc, hw⟩ := bind_eq_some_iff.mp hw
        refine Or.inl ⟨i, mem_finRange i, ?_⟩
        rw [hc, elim_some]
        exact mem_tables.mpr ⟨is, Nat.le_of_succ_le_succ his, hw⟩

/-- The page is a table of the tree at `pt`, of any level. -/
def IsTable (m : ℕ → Idx → Word) (pt n : ℕ) : Prop := ∃ is : List Idx, is.length ≤ 3 ∧ walk child m pt is = some n

/-- The count of a page comes to zero when this number of entries is given up. -/
def Dropped (base : ℕ) (s : Machine) (n entries : ℕ) : Prop := managed base n ∧ 1 ≤ s.rc n ∧ s.rc n ≤ entries

instance (base : ℕ) (s : Machine) (n entries : ℕ) : Decidable (Dropped base s n entries) :=
  inferInstanceAs (Decidable (_ ∧ _))

/-- **Each table is freed once**: every page has lost a count for each valid level-3 entry that maps it, the tables
have been freed once, of the other pages those whose count came to zero, and nothing else has changed. -/
def FreesOnce (base : ℕ) (s : Machine) (pt : ℕ) : Prop :=
  (freePageTable base s pt).mem = s.mem ∧
    (∀ n, (freePageTable base s pt).rc n = s.rc n - if managed base n then ((ends s.mem 4 pt).count n : ℤ) else 0) ∧
    ∃ L, (freePageTable base s pt).freed = s.freed ++ L ∧ (∀ n, IsTable s.mem pt n → L.count n = 1) ∧
      ∀ n, ¬ IsTable s.mem pt n → L.count n = if Dropped base s n ((ends s.mem 4 pt).count n) then 1 else 0

theorem root_freed_twice (base : ℕ) (s : Machine) (pt : ℕ) :
    ∃ L, (freePageTable base s pt).freed = s.freed ++ L ∧ 2 ≤ L.count pt := by
  obtain ⟨L, hL, hcount⟩ := (freePageTable_drained base s pt).freed
  refine ⟨L, hL, ?_⟩
  have hroot : 0 < (tables s.mem 3 pt).count pt :=
    count_pos_iff.mpr (mem_tables.mpr ⟨[], Nat.zero_le _, rfl⟩)
  rw [hcount, count_append, count_singleton_self]
  omega

/-- **No table is freed as it should be**: the root is freed twice, whatever the tree looks like. -/
theorem freePageTable_not_once (base : ℕ) (s : Machine) (pt : ℕ) : ¬ FreesOnce base s pt := by
  rintro ⟨-, -, L, hL, honce, -⟩
  obtain ⟨L', hL', htwice⟩ := root_freed_twice base s pt
  have hsame : L = L' := append_cancel_left (hL.symm.trans hL')
  have hone := honce pt ⟨[], Nat.zero_le _, rfl⟩
  rw [hsame] at hone
  omega

/-- An empty table is one page, and it is given to `kfree_page` twice. -/
theorem empty_freed_twice :
    (freePageTable 0 ⟨fun _ _ => 0#64, fun _ => 0, [], []⟩ 1).freed = [1, 1] ∧
      ¬ FreesOnce 0 ⟨fun _ _ => 0#64, fun _ => 0, [], []⟩ 1 := by
  have hfreed : (freePageTable 0 ⟨fun _ _ => 0#64, fun _ => 0, [], []⟩ 1).freed = [1, 1] := by decide +kernel
  refine ⟨hfreed, ?_⟩
  rintro ⟨-, -, L, hL, honce, -⟩
  rw [hfreed, nil_append] at hL
  have hone := honce 1 ⟨[], Nat.zero_le _, rfl⟩
  rw [← hL] at hone
  exact absurd hone (by decide)

/-! ### Counting the entries -/

section Entries

variable {P : Type} [Fintype P] {m : ℕ → Idx → Word} {root : P → Option ℕ}

end Entries

end OsHonor.Vm.PageTables.Teardown
