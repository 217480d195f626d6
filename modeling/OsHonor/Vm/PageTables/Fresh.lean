import OsHonor.Vm.PageTables.Translation
import OsHonor.Vm.UserMemory

/-! # New pages in an address space

A page that is neither free nor a table (`Data`) is not touched by the functions that make tables. A page is taken from
the supply, gets its contents and is mapped (`Placed`); a loop that does so for one address after the other leaves the
pages with their contents at their places, and every page that was there before as it was (`Laid`). `byteOf` is the
byte that a page table gives for an address. -/

namespace OsHonor.Vm.PageTables.Fresh

open BitVec Function List Regions Code Entries Spaces
open Growth Loops
open Translation UserMemory

variable {P : Type} {root : P → Option ℕ}

/-! ### A page is taken -/

/-- The page `q` is taken from the supply, and gets some contents. -/
structure Taken (root : P → Option ℕ) (s s' : Machine) (q : ℕ) : Prop where
  tables : Tables s'.mem root
  supplied : Supplied s' root
  leaf : ∀ x e, Leaf s'.mem root x e ↔ Leaf s.mem root x e
  unused : Unused s'.mem root q
  apart : ∀ x ∈ s'.supply, x.1 ≠ q
  mem : ∃ x ∈ s.supply, x.1 = q
  sub : ∀ x ∈ s'.supply, x ∈ s.supply
  same : ∀ p is, is.length ≤ 3 → tableAt s'.mem root p is = tableAt s.mem root p is
  rc : s'.rc = s.rc
  freed : s'.freed = s.freed
  data : ∀ n, (∀ x ∈ s.supply, x.1 ≠ n) → s'.mem n = s.mem n

theorem taken_of_supply {s : Machine} {q : ℕ} {contents contents' : Idx → Word}
    {rest : List (ℕ × (Idx → Word))} (ht : Tables s.mem root) (hs : Supplied s root)
    (hsup : s.supply = (q, contents) :: rest) :
    Taken root s { s with mem := update s.mem q contents', supply := rest } q := by
  have hhead : (q, contents) ∈ s.supply := by
    rw [hsup]
    exact mem_cons_self
  have hq := hs.head hsup
  have hnodup := hs.nodup
  rw [hsup, map_cons, nodup_cons] at hnodup
  have hsub : ∀ x ∈ rest, x ∈ s.supply := fun x hx => by
    rw [hsup]
    exact mem_cons_of_mem _ hx
  have hframe := hq.frame contents'
  have hunused : ∀ {n}, Unused s.mem root n → Unused (update s.mem q contents') root n := by
    rintro n ⟨hlt, hnot, hmap⟩
    refine ⟨hlt, fun r is his => ?_, fun x e hx => hmap x e ((leaf_data hframe).mp hx)⟩
    rw [tableAt_data hframe r his]
    exact hnot r is his
  refine ⟨Tables.data hframe ht, hs.take hsup rfl fun _ _ => hunused, fun x e => leaf_data hframe,
    hunused hq, fun x hx h => hnodup.1 (mem_map.mpr ⟨x, hx, h⟩), ⟨_, hhead, rfl⟩, hsub,
    fun r is his => tableAt_data hframe r his, rfl, rfl, fun n hn => ?_⟩
  exact update_of_ne (hn _ hhead).symm ..

variable {s₁ : Machine} {x : Slot P} {ka n : ℕ}

theorem mapped_of_taken [DecidableEq P] {base : ℕ} {s s' : Machine} {p : P} {pt q : ℕ} {va flags : Word}
    (hroot : root p = some pt) (h : Taken root s s₁ q) (hflags : flags &&& flagMask = flags)
    (hmap : mapInPgtbl base s₁ pt va q flags = some s') :
    Mapped base root s₁ s' (slotOf p va) q (physical q ||| flags ||| pteValid) :=
  mapInPgtbl_mapped hroot h.tables h.supplied h.unused.lt hflags h.apart h.unused.notTable hmap

/-! ### Pages that stay -/

/-- A page that is neither free nor a table. -/
structure Data (root : P → Option ℕ) (s : Machine) (n : ℕ) : Prop where
  notFree : ∀ y ∈ s.supply, y.1 ≠ n
  notTable : ∀ p is, is.length ≤ 3 → tableAt s.mem root p is ≠ some n

theorem data_of_leaf {s : Machine} {e : Word} (ht : Tables s.mem root) (hs : Supplied s root)
    (hx : Leaf s.mem root x e) : Data root s (pageOf e) :=
  ⟨fun y hy => ((hs.unused y hy).notMapped x e hx).symm, ht.notData x e hx⟩

theorem mapped_keeps {base : ℕ} {s s' : Machine} {f : Word}
    (h : Mapped base root s s' x ka f) (hn : Data root s n) : Data root s' n ∧ s'.mem n = s.mem n := by
  refine ⟨⟨fun y hy => hn.notFree y (h.sub y hy), fun p is his hp => ?_⟩, h.data n hn.notFree hn.notTable⟩
  rcases h.fresh p is n his hp with hp | ⟨y, hy, hyn⟩
  · exact hn.notTable p is his hp
  · exact hn.notFree y hy hyn

theorem taken_keeps {s s' : Machine} {q : ℕ} (h : Taken root s s' q) (hn : Data root s n) :
    Data root s' n ∧ s'.mem n = s.mem n := by
  refine ⟨⟨fun y hy => hn.notFree y (h.sub y hy), fun p is his => ?_⟩, h.data n hn.notFree⟩
  rw [h.same p is his]
  exact hn.notTable p is his

def entryFor (ka : ℕ) (flags : Word) : Word := physical ka ||| flags ||| pteValid

theorem pageOf_entryFor {flags : Word} (hlt : ka < pageLimit) (hflags : flags &&& flagMask = flags) :
    pageOf (entryFor ka flags) = ka := by
  unfold entryFor
  rw [BitVec.or_assoc]
  refine pageOf_entry hlt ?_
  have hone : pteValid &&& flagMask = pteValid := by decide
  rw [and_or_distrib_right, hflags, hone]

/-- **A new page is mapped**: a page of the supply has the contents `c` and is at the slot `x`, with the entry `e`. -/
structure Placed (root : P → Option ℕ) (s s' : Machine) (x : Slot P) (e : Word) (c : Idx → Word) : Prop where
  tables : Tables s'.mem root
  supplied : Supplied s' root
  leaf : ∀ y f, Leaf s'.mem root y f ↔ (y = x ∧ f = e) ∨ (y ≠ x ∧ Leaf s.mem root y f)
  used : s.supply.length ≤ s'.supply.length + 4
  sub : ∀ y ∈ s'.supply, y ∈ s.supply
  new : ∃ y ∈ s.supply, y.1 = pageOf e
  own : Data root s' (pageOf e)
  contents : s'.mem (pageOf e) = c
  keep : ∀ n, Data root s n → Data root s' n ∧ s'.mem n = s.mem n

section Place

variable [DecidableEq P] {base : ℕ} {s s' : Machine} {p : P} {pt q : ℕ} {va flags : Word} {c c' : Idx → Word}
  {rest : List (ℕ × (Idx → Word))}

/-- **`map_in_pgtbl` of the page that `kalloc_page` returned**, with whatever was written to it. -/
theorem placed_of_map (hroot : root p = some pt) (ht : Tables s.mem root) (hs : Supplied s root)
    (hflags : flags &&& flagMask = flags) (hsup : s.supply = (q, c) :: rest)
    (hmap : mapInPgtbl base { s with mem := update s.mem q c', supply := rest } pt va q flags = some s') :
    Placed root s s' (slotOf p va) (entryFor q flags) c' := by
  have htaken : Taken root s { s with mem := update s.mem q c', supply := rest } q :=
    taken_of_supply ht hs hsup
  have hmapped := mapped_of_taken hroot htaken hflags hmap
  have hpage : pageOf (entryFor q flags) = q := hmapped.page
  have hown : Data root { s with mem := update s.mem q c', supply := rest } q :=
    ⟨htaken.apart, htaken.unused.notTable⟩
  obtain ⟨hdata, hmem⟩ := mapped_keeps hmapped hown
  refine ⟨hmapped.tables, hmapped.supplied, fun y f => ?_, ?_, fun y hy => htaken.sub y (hmapped.sub y hy), ?_, ?_, ?_,
    fun n hn => ?_⟩
  · rw [hmapped.leaf, htaken.leaf]
    rfl
  · have htables := hmapped.taken
    rw [hsup, length_cons]
    dsimp only at htables
    omega
  · rw [hpage]
    exact htaken.mem
  · rw [hpage]
    exact hdata
  · rw [hpage, hmem]
    exact update_self ..
  · obtain ⟨hn₁, hmem₁⟩ := taken_keeps htaken hn
    obtain ⟨hn₂, hmem₂⟩ := mapped_keeps hmapped hn₁
    exact ⟨hn₂, hmem₂.trans hmem₁⟩

theorem mapInPgtbl_some (base : ℕ) (hroot : root p = some pt) (ht : Tables s.mem root) (hs : Supplied s root)
    (hroom : 3 ≤ s.supply.length) (va : Word) (ka : ℕ) (flags : Word) :
    ∃ s', mapInPgtbl base s pt va ka flags = some s' := by
  rcases mapInPgtbl_alloc hroot ht hs ka flags with ⟨-, hfew⟩ | ⟨t, s₁, hmap, -⟩
  · omega
  · exact ⟨_, hmap⟩

end Place

/-- **New pages are mapped**, one after the other: `l` has their slots, entries and contents. -/
structure Laid (root : P → Option ℕ) (s s' : Machine) (l : List (Slot P × Word × (Idx → Word))) : Prop where
  tables : Tables s'.mem root
  supplied : Supplied s' root
  leaf : ∀ y f, Leaf s'.mem root y f ↔ (∃ c, (y, f, c) ∈ l) ∨ (y ∉ l.map Prod.fst ∧ Leaf s.mem root y f)
  used : s.supply.length ≤ s'.supply.length + 4 * l.length
  sub : ∀ y ∈ s'.supply, y ∈ s.supply
  new : ∀ t ∈ l, ∃ y ∈ s.supply, y.1 = pageOf t.2.1
  own : ∀ t ∈ l, Data root s' (pageOf t.2.1)
  contents : ∀ t ∈ l, s'.mem (pageOf t.2.1) = t.2.2
  apart : (l.map fun t => pageOf t.2.1).Nodup
  keep : ∀ n, Data root s n → Data root s' n ∧ s'.mem n = s.mem n

theorem laid_nil {s : Machine} (ht : Tables s.mem root) (hs : Supplied s root) : Laid root s s [] where
  tables := ht
  supplied := hs
  leaf y f := by simp
  used := Nat.le_add_right _ _
  sub _ hy := hy
  new _ h := absurd h not_mem_nil
  own _ h := absurd h not_mem_nil
  contents _ h := absurd h not_mem_nil
  apart := nodup_nil
  keep _ hn := ⟨hn, rfl⟩

theorem Laid.cons {s s' : Machine} {e : Word} {c : Idx → Word}
    {l : List (Slot P × Word × (Idx → Word))} (h : Placed root s s₁ x e c) (hl : Laid root s₁ s' l)
    (hx : x ∉ l.map Prod.fst) : Laid root s s' ((x, e, c) :: l) where
  tables := hl.tables
  supplied := hl.supplied
  leaf y f := by
    rw [hl.leaf, h.leaf, map_cons, mem_cons]
    have hhead : (∃ d, (y, f, d) ∈ (x, e, c) :: l) ↔ (y = x ∧ f = e) ∨ ∃ d, (y, f, d) ∈ l := by
      simp only [mem_cons, Prod.mk.injEq, exists_or]
      simp
    rw [hhead]
    by_cases hy : y = x
    · subst hy
      have hnone : ¬ ∃ d, (y, f, d) ∈ l := fun ⟨d, hd⟩ => hx (mem_map.mpr ⟨_, hd, rfl⟩)
      simp [hx, hnone]
    · simp [hy]
  used := by
    have h1 := h.used
    have h2 := hl.used
    rw [length_cons]
    omega
  sub y hy := h.sub y (hl.sub y hy)
  new t ht := by
    rcases mem_cons.mp ht with rfl | ht
    · exact h.new
    · obtain ⟨y, hy, hyt⟩ := hl.new t ht
      exact ⟨y, h.sub y hy, hyt⟩
  own t ht := by
    rcases mem_cons.mp ht with rfl | ht
    · exact (hl.keep _ h.own).1
    · exact hl.own t ht
  contents t ht := by
    rcases mem_cons.mp ht with rfl | ht
    · exact (hl.keep _ h.own).2.trans h.contents
    · exact hl.contents t ht
  apart := by
    rw [map_cons, nodup_cons]
    refine ⟨fun hmem => ?_, hl.apart⟩
    obtain ⟨t, ht, hpage⟩ := mem_map.mp hmem
    -- the pages of the others were still free when this one was not
    obtain ⟨y, hy, hyt⟩ := hl.new t ht
    exact h.own.notFree y hy (hyt.trans hpage)
  keep n hn := by
    obtain ⟨hn₁, hmem₁⟩ := h.keep n hn
    obtain ⟨hn₂, hmem₂⟩ := hl.keep n hn₁
    exact ⟨hn₂, hmem₂.trans hmem₁⟩

/-! ### Writing to one page -/

/-! ### Consecutive pages -/

/-- The page `j` after an address. -/
def pageAt (va : Word) (j : ℕ) : Word := va + BitVec.ofNat 64 (4096 * j)

theorem pageAt_zero (va : Word) : pageAt va 0 = va := BitVec.add_zero va

theorem pageAt_succ (va : Word) (j : ℕ) : pageAt va (j + 1) = pageAt (va + pageSize) j := by
  unfold pageAt pageSize
  rw [Nat.mul_succ, Nat.add_comm (4096 * j), ofNat_add, BitVec.add_assoc]

theorem add_toNat {va : Word} {k : ℕ} (h : va.toNat + k < 2 ^ 64) : (va + BitVec.ofNat 64 k).toNat = va.toNat + k := by
  rw [BitVec.toNat_add, BitVec.toNat_ofNat]
  omega

theorem pageBits_toNat (va : Word) : (pageBits va).toNat = va.toNat / 4096 % 2 ^ 36 := by
  unfold pageBits
  rw [extractLsb'_toNat, Nat.shiftRight_eq_div_pow]

theorem slotOf_eq_iff {va va' : Word} : slotOf () va = slotOf () va' ↔ pageBits va = pageBits va' := by
  unfold slotOf
  rw [← slot_eq_iff, Prod.mk.injEq, Prod.mk.injEq, eq_self_iff_true, true_and]

/-- **The loop over the pages** visits them one after the other. -/
theorem pagesFrom_range {last : Word} (h : Ends last) : ∀ (n fuel : ℕ) (i : Word), n < fuel →
    last.toNat ≤ i.toNat + 4096 * n → i.toNat + 4096 * n < last.toNat + 4096 ∨ n = 0 →
    pagesFrom last fuel i = some ((List.range n).map (pageAt i))
  | 0, 0, _, hfuel, _, _ => absurd hfuel (Nat.lt_irrefl 0)
  | 0, fuel + 1, i, _, hle, _ => by
    rw [pagesFrom, if_neg (by rw [lt_def]; omega)]
    rfl
  | n + 1, 0, _, hfuel, _, _ => absurd hfuel (Nat.not_lt_zero _)
  | n + 1, fuel + 1, i, hfuel, hle, hlt => by
    have hi : i.toNat < last.toNat := by omega
    have hnext : (i + pageSize).toNat = i.toNat + 4096 := by
      unfold Ends at h
      rw [toNat_add, pageSize_toNat]
      omega
    rw [pagesFrom, if_pos (lt_def.mpr hi), pagesFrom_range h n fuel _ (by omega) (by omega) (by omega),
      range_succ_eq_map, map_cons, pageAt_zero, map_map, Option.map_some]
    refine congrArg (fun l => some (i :: l)) (map_congr_left fun j _ => ?_)
    exact (pageAt_succ i j).symm

theorem nodup_slots {i : Word} (hn : n ≤ 2 ^ 36) (hi : i.toNat + 4096 * n < 2 ^ 64 + 4096) :
    (((List.range n).map (pageAt i)).map (slotOf ())).Nodup := by
  rw [map_map]
  refine nodup_range.map_on fun j hj j' hj' heq => ?_
  rw [mem_range] at hj hj'
  have hbits := congrArg BitVec.toNat (slotOf_eq_iff.mp heq)
  unfold pageAt at hbits
  rw [pageBits_toNat, pageBits_toNat, add_toNat (by omega), add_toNat (by omega)] at hbits
  omega

theorem length_supply_le {s : Machine} (hs : Supplied s root) : s.supply.length ≤ 2 ^ 36 := by
  have hsub : (s.supply.map Prod.fst).toFinset ⊆ Finset.range pageLimit := by
    intro n hn
    obtain ⟨x, hx, rfl⟩ := mem_map.mp (mem_toFinset.mp hn)
    exact Finset.mem_range.mpr (hs.unused x hx).lt
  have hcard := Finset.card_le_card hsub
  rwa [toFinset_card_of_nodup hs.nodup, length_map, Finset.card_range] at hcard

theorem tables_zeroed {s : Machine} {pt : ℕ} (h : ∀ i, s.mem pt i = 0#64) : Tables s.mem (only pt) := by
  refine ⟨fun p p' is is' n _ _ hn hn' => ⟨rfl, (tableAt_zeroed h hn).1.trans (tableAt_zeroed h hn').1.symm⟩, ?_⟩
  rintro x e ⟨hlen, ⟨n, hn, -⟩, -⟩
  rw [(tableAt_zeroed h hn).1] at hlen
  cases hlen

/-! ### Bytes -/

/-- The byte that the page table gives for an address, if it is mapped. -/
def byteOf (s : Machine) (pt : ℕ) (va : Word) : Option UInt8 :=
  match lookup s pt va with
  | none => none
  | some e => if e &&& pteValid = 0#64 then none else some (byteAt s (pageOf e) (vaOffset va))

section Byte

variable {s s' : Machine} {pt : ℕ} {va e : Word}

theorem leaf_iff_lookup : Leaf s.mem (only pt) (slotOf () va) e ↔ lookup s pt va = some e ∧ e &&& pteValid ≠ 0#64 := by
  unfold Leaf
  rw [lookup_eq, entryAt, Option.map_eq_some_iff]
  exact ⟨fun h => h.2, fun h => ⟨rfl, h⟩⟩

theorem byteOf_leaf (h : Leaf s.mem (only pt) (slotOf () va) e) :
    byteOf s pt va = some (byteAt s (pageOf e) (vaOffset va)) := by
  obtain ⟨hlook, hvalid⟩ := leaf_iff_lookup.mp h
  unfold byteOf
  rw [hlook]
  exact if_neg hvalid

theorem byteOf_none (h : ∀ e, ¬ Leaf s.mem (only pt) (slotOf () va) e) : byteOf s pt va = none := by
  unfold byteOf
  cases hlook : lookup s pt va with
  | none => rfl
  | some e =>
    refine if_pos (by_contra fun hvalid => h e ?_)
    exact leaf_iff_lookup.mpr ⟨hlook, hvalid⟩

theorem byteOf_congr (hleaf : ∀ e, Leaf s'.mem (only pt) (slotOf () va) e ↔ Leaf s.mem (only pt) (slotOf () va) e)
    (hmem : ∀ e, Leaf s.mem (only pt) (slotOf () va) e → s'.mem (pageOf e) = s.mem (pageOf e)) :
    byteOf s' pt va = byteOf s pt va := by
  by_cases h : ∃ e, Leaf s.mem (only pt) (slotOf () va) e
  · obtain ⟨e, he⟩ := h
    rw [byteOf_leaf he, byteOf_leaf ((hleaf e).mpr he), byteAt_congr (hmem e he)]
  · push Not at h
    rw [byteOf_none h, byteOf_none fun e he => h e ((hleaf e).mp he)]

end Byte

end OsHonor.Vm.PageTables.Fresh
