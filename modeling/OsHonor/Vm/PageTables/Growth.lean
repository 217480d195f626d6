import OsHonor.Vm.PageTables.Spaces

/-! # Looking up an entry makes tables

`get_pte` with allocation puts in the tables that are missing on the way to an entry. `mapInPgtbl_alloc`: unless the
supply runs out, it comes to a level-3 table at the path of the address, the tables stay disjoint, no valid entry
is added or lost, and the pages it took were in the supply. `mapInPgtbl_mapped` says what `map_in_pgtbl` does to
the address spaces: one entry is set. An address space may also be given a root (`Tables.newRoot`). -/

namespace OsHonor.Vm.PageTables.Growth

open Option List Function Base.Radix Regions Code Entries
open Spaces

variable {P : Type} {root : P → Option ℕ}

/-- **The supply**: the pages that `kalloc_page` is going to return are distinct and not in use. -/
structure Supplied (s : Machine) (root : P → Option ℕ) : Prop where
  nodup : (s.supply.map Prod.fst).Nodup
  unused : ∀ x ∈ s.supply, Unused s.mem root x.1

/-- **Growth**: tables are added, and at most `k` pages are taken from the supply. -/
structure Grown (s s' : Machine) (root : P → Option ℕ) (k : ℕ) : Prop where
  tables : Tables s'.mem root
  supplied : Supplied s' root
  leaf : ∀ x e, Leaf s'.mem root x e ↔ Leaf s.mem root x e
  keep : ∀ p is n, is.length ≤ 3 → tableAt s.mem root p is = some n → tableAt s'.mem root p is = some n
  taken : s.supply.length ≤ s'.supply.length + k
  sub : ∀ x ∈ s'.supply, x ∈ s.supply
  fresh : ∀ p is n, is.length ≤ 3 → tableAt s'.mem root p is = some n →
    tableAt s.mem root p is = some n ∨ ∃ x ∈ s.supply, x.1 = n
  rc : s'.rc = s.rc
  freed : s'.freed = s.freed
  data : ∀ n, (∀ x ∈ s.supply, x.1 ≠ n) → (∀ p is, is.length ≤ 3 → tableAt s.mem root p is ≠ some n) →
    s'.mem n = s.mem n

variable {s : Machine} {js : List Idx} {n pt base : ℕ} {i : Idx} {rest : List (ℕ × (Idx → Word))}
  {va : Word}

theorem Grown.refl (ht : Tables s.mem root) (hs : Supplied s root) (k : ℕ) : Grown s s root k :=
  ⟨ht, hs, fun _ _ => Iff.rfl, fun _ _ _ _ h => h, Nat.le_add_right _ _, fun _ h => h,
    fun _ _ _ _ h => Or.inl h, rfl, rfl, fun _ _ _ => rfl⟩

variable {j k ka : ℕ} {s' : Machine} {is : List Idx} {flags : Word}

theorem Grown.trans {s₀ s₁ s₂ : Machine} (h : Grown s₀ s₁ root j) (h' : Grown s₁ s₂ root k) :
    Grown s₀ s₂ root (j + k) where
  tables := h'.tables
  supplied := h'.supplied
  leaf x e := (h'.leaf x e).trans (h.leaf x e)
  keep p is n his hn := h'.keep p is n his (h.keep p is n his hn)
  taken := by
    have h1 := h.taken
    have h2 := h'.taken
    omega
  sub x hx := h.sub x (h'.sub x hx)
  fresh p is n his hn := by
    rcases h'.fresh p is n his hn with hn | ⟨x, hx, hxn⟩
    · exact h.fresh p is n his hn
    · exact Or.inr ⟨x, h.sub x hx, hxn⟩
  rc := h'.rc.trans h.rc
  freed := h'.freed.trans h.freed
  data n hsup hnot := by
    refine (h'.data n (fun x hx => hsup x (h.sub x hx)) fun p is his hn => ?_).trans (h.data n hsup hnot)
    rcases h.fresh p is n his hn with hn | ⟨x, hx, hxn⟩
    · exact hnot p is his hn
    · exact hsup x hx hxn

theorem Grown.mono (h : Grown s s' root j) (hjk : j ≤ k) : Grown s s' root k :=
  { h with taken := le_trans h.taken (Nat.add_le_add_left hjk _) }

section Take

variable {q : ℕ} {contents : Idx → Word} (hs : Supplied s root) (hsup : s.supply = (q, contents) :: rest)
include hs hsup

theorem Supplied.head : Unused s.mem root q := hs.unused (q, contents) (by rw [hsup]; exact mem_cons_self)

/-- **A page is taken**: the supply is as it should be, if the pages that stay in it are not in use. -/
theorem Supplied.take {s' : Machine} {root' : P → Option ℕ} (hrest : s'.supply = rest)
    (hkeep : ∀ k, q ≠ k → Unused s.mem root k → Unused s'.mem root' k) : Supplied s' root' := by
  have hnodup := hs.nodup
  rw [hsup, map_cons, nodup_cons] at hnodup
  refine ⟨by rw [hrest]; exact hnodup.2, fun x hx => ?_⟩
  rw [hrest] at hx
  refine hkeep x.1 (fun h => hnodup.1 (mem_map.mpr ⟨x, hx, h.symm⟩)) (hs.unused x ?_)
  rw [hsup]
  exact mem_cons_of_mem _ hx

end Take

variable [DecidableEq P]

theorem Supplied.newTable {p : P} {q : ℕ} {contents : Idx → Word} (ha : Apart s.mem root) (hs : Supplied s root)
    (hsup : s.supply = (q, contents) :: rest) (hlt : js.length < 3) (hn : tableAt s.mem root p js = some n)
    (hi : child (s.mem n i) = none) : Supplied { s with mem := newTable s.mem n i q, supply := rest } root := by
  have hq := hs.head hsup
  refine hs.take hsup rfl fun k hne hold => ⟨hold.lt, fun r ks hks => ?_, fun y e hy => ?_⟩
  on_goal 2 => exact hold.notMapped y e ((leaf_newTable ha hq hlt hn hi).mp hy)
  rw [tableAt_newTable ha hq hlt hn hi r ks hks]
  split_ifs
  · exact fun he => hne (some.inj he)
  · exact hold.notTable r ks hks

theorem grow_one {p : P} {q : ℕ} {contents : Idx → Word} (ht : Tables s.mem root) (hs : Supplied s root)
    (hsup : s.supply = (q, contents) :: rest) (hlt : js.length < 3) (hn : tableAt s.mem root p js = some n)
    (hi : child (s.mem n i) = none) :
    Grown s { s with mem := newTable s.mem n i q, supply := rest } root 1 := by
  have hq := hs.head hsup
  refine ⟨ht.newTable hq hlt hn hi, hs.newTable ht.apart hsup hlt hn hi,
    fun x e => leaf_newTable ht.apart hq hlt hn hi, fun r ks k hks hk => ?_, by rw [hsup]; rfl,
    fun x hx => by rw [hsup]; exact mem_cons_of_mem _ hx, fun r ks k hks hk => ?_, rfl, rfl, fun k hk hnot => ?_⟩
  · rw [tableAt_newTable ht.apart hq hlt hn hi r ks hks, if_neg]
    · exact hk
    · rintro ⟨rfl, rfl⟩
      rw [tableAt_concat, hn, bind_some, hi] at hk
      cases hk
  · rw [tableAt_newTable ht.apart hq hlt hn hi r ks hks] at hk
    split_ifs at hk
    · exact Or.inr ⟨(q, contents), by rw [hsup]; exact mem_cons_self, some.inj hk⟩
    · exact Or.inl hk
  · have hkq : k ≠ q := fun h => hk (q, contents) (by rw [hsup]; exact mem_cons_self) h.symm
    have hkn : k ≠ n := fun h => hnot p js hlt.le (h ▸ hn)
    show newTable s.mem n i q k = s.mem k
    unfold newTable
    rw [update_of_ne hkq, setEntry_page hkn]

theorem newTable_eq {m : ℕ → Idx → Word} {q : ℕ} {contents : Idx → Word} (hne : n ≠ q) :
    update (setEntry (update m q contents) n i (physical q ||| pteTable)) q (fun _ => 0#64) =
      newTable m n i q := by
  unfold newTable setEntry
  rw [update_of_ne hne]
  funext k
  by_cases hk : k = q
  · rw [hk, update_self, update_self]
  · rw [update_of_ne hk, update_of_ne hk]
    by_cases hkn : k = n
    · rw [hkn, update_self, update_self]
    · rw [update_of_ne hkn, update_of_ne hkn, update_of_ne hk]

omit [DecidableEq P] in
theorem descend_missing {p : P} {q : ℕ} {contents : Idx → Word} (hs : Supplied s root) (hsup : s.supply = (q, contents) :: rest)
    (hlt : js.length < 3) (hn : tableAt s.mem root p js = some n) (hv : s.mem n i &&& pteValid = 0#64)
    (is : List Idx) :
    descend true (i :: is) n s = descend true is q { s with mem := newTable s.mem n i q, supply := rest } := by
  have hq := hs.head hsup
  have hnq : n ≠ q := by
    rintro rfl
    exact hq.notTable p js hlt.le hn
  have hentry : setEntry (update s.mem q contents) n i (physical q ||| pteTable) n i =
      physical q ||| pteTable := setEntry_self _ _ _ _
  have hpage : pageOf (physical q ||| pteTable) = q := pageOf_entry hq.lt (by decide)
  rw [descend, if_pos hv, if_pos rfl]
  unfold kallocPage
  rw [hsup]
  dsimp only [store, memsetZero]
  rw [hentry, hpage, newTable_eq hnq, newTable_entry hq hlt hn, hpage]

theorem descend_empty (hsup : s.supply = []) (hv : s.mem n i &&& pteValid = 0#64)
    (is : List Idx) : descend true (i :: is) n s = none := by
  rw [descend, if_pos hv, if_pos rfl]
  unfold kallocPage
  rw [hsup]

section Descend

variable {p : P} {Q : List Idx → Machine → Prop} (hinv : ∀ {js s}, Q js s → Apart s.mem root ∧ Supplied s root)
  (hold : ∀ {js i s n}, Q js s → js.length < 3 → tableAt s.mem root p (js ++ [i]) = some n → Q (js ++ [i]) s)
  (hnew : ∀ {js i s n q contents rest}, Q js s → s.supply = (q, contents) :: rest → js.length < 3 →
    tableAt s.mem root p js = some n → child (s.mem n i) = none →
    Q (js ++ [i]) { s with mem := newTable s.mem n i q, supply := rest })
include hinv hold hnew

/-- **The loop of `get_pte` with allocation**, from the table at `js` on: what holds at `js` and is kept when the
next table is there, and when it is put in, holds at the end. -/
theorem descend_rule : ∀ (is js : List Idx) (n : ℕ) (s : Machine), Q js s → js.length + is.length ≤ 3 →
    tableAt s.mem root p js = some n → (descend true is n s = none ∧ s.supply.length < is.length) ∨
    ∃ t s', descend true is n s = some (some t, s') ∧ tableAt s'.mem root p (js ++ is) = some t ∧ Q (js ++ is) s'
  | [], js, n, s, h, _, hn => by
    rw [append_nil]
    exact Or.inr ⟨n, s, rfl, hn, h⟩
  | i :: is, js, n, s, h, hlen, hn => by
    rw [length_cons] at hlen ⊢
    obtain ⟨ha, hs⟩ := hinv h
    have hlt : js.length < 3 := by omega
    have hlen' : (js ++ [i]).length + is.length ≤ 3 := by
      rw [length_append, length_singleton]
      omega
    rw [append_cons]
    by_cases hv : s.mem n i &&& pteValid = 0#64
    · -- the table is missing
      cases hrest : s.supply with
      | nil => exact Or.inl ⟨descend_empty hrest hv is, Nat.succ_pos _⟩
      | cons x rest =>
        have hi := child_of_invalid hv
        have htable : tableAt (newTable s.mem n i x.1) root p (js ++ [i]) = some x.1 := by
          rw [tableAt_newTable ha (hs.head hrest) hlt hn hi p _ (by omega), if_pos ⟨rfl, rfl⟩]
        rw [descend_missing hs hrest hlt hn hv]
        refine (descend_rule is (js ++ [i]) x.1 _ (hnew h hrest hlt hn hi) hlen' htable).imp ?_ id
        exact fun hnone => ⟨hnone.1, Nat.succ_lt_succ hnone.2⟩
    · -- the table is there
      have htable : tableAt s.mem root p (js ++ [i]) = some (pageOf (s.mem n i)) := by
        rw [tableAt_concat, hn, bind_some, child_of_valid hv]
      rw [descend, if_neg hv]
      refine (descend_rule is (js ++ [i]) _ s (hold h hlt htable) hlen' htable).imp ?_ id
      exact fun hnone => ⟨hnone.1, hnone.2.trans (Nat.lt_succ_self _)⟩

/-- **`map_in_pgtbl`** makes the tables it needs and sets the entry, unless the supply runs out. -/
theorem mapInPgtbl_rule (h : Q [] s) (hroot : root p = some pt) (ka : ℕ) (flags : Word) :
    (mapInPgtbl base s pt va ka flags = none ∧ s.supply.length < 3) ∨
    ∃ t s', mapInPgtbl base s pt va ka flags = some (mapAt base s' t (vaPart3 va) ka flags) ∧
      tableAt s'.mem root p (path va) = some t ∧ Q (path va) s' := by
  have hn : tableAt s.mem root p [] = some pt := by
    unfold tableAt
    rw [hroot]
    rfl
  unfold mapInPgtbl getPte
  rcases descend_rule hinv hold hnew (path va) [] pt s h le_rfl hn with ⟨hnone, hfew⟩ | ⟨t, s', hd, hat, hq⟩
  · exact Or.inl ⟨by rw [hnone]; rfl, hfew⟩
  · refine Or.inr ⟨t, s', ?_, hat, hq⟩
    unfold mapAt
    rw [hd]
    dsimp only [map_some]
    rw [unmapInPgtbl_eq, ite_self]

end Descend

theorem mapInPgtbl_alloc {p : P} (hroot : root p = some pt)
    (ht : Tables s.mem root) (hs : Supplied s root) (ka : ℕ) (flags : Word) :
    (mapInPgtbl base s pt va ka flags = none ∧ s.supply.length < 3) ∨
    ∃ t s', mapInPgtbl base s pt va ka flags = some (mapAt base s' t (vaPart3 va) ka flags) ∧
      tableAt s'.mem root p (path va) = some t ∧ Grown s s' root 3 := by
  refine mapInPgtbl_rule (Q := fun js s' => Grown s s' root js.length) (fun h => ⟨h.tables.apart, h.supplied⟩)
    (fun h _ _ => h.mono ?_) (fun h hsup hlt hn hi => ?_) (Grown.refl ht hs 0) hroot ka flags
  · rw [length_append]
    exact Nat.le_add_right _ _
  · rw [length_append]
    exact h.trans (grow_one h.tables h.supplied hsup hlt hn hi)

theorem mapAt_supply (base : ℕ) (s : Machine) (n : ℕ) (i : Idx) (ka : ℕ) (flags : Word) :
    (mapAt base s n i ka flags).supply = s.supply := by
  unfold mapAt store
  dsimp only
  split_ifs <;> rfl

omit [DecidableEq P] in
theorem mapAt_keeps {p : P} {t : ℕ} {f : Word}
    (ht : Tables s.mem root) (hs : Supplied s root) (hlen : is.length = 3) (hn : tableAt s.mem root p is = some t)
    (hf : physical ka ||| flags ||| pteValid = f)
    (hnot : ∀ r js, js.length ≤ 3 → tableAt s.mem root r js ≠ some (pageOf f))
    (hfree : ∀ x ∈ s.supply, pageOf f ≠ x.1) :
    Tables (mapAt base s t i ka flags).mem root ∧ Supplied (mapAt base s t i ka flags) root := by
  have hsupply := mapAt_supply base s t i ka flags
  rw [mapAt_mem, hf]
  refine ⟨ht.setLeaf hlen hn hnot, ?_, ?_⟩
  · rw [hsupply]
    exact hs.nodup
  · rw [hsupply, mapAt_mem, hf]
    intro y hy
    obtain ⟨hlt, hnoTable, hmap⟩ := hs.unused y hy
    refine ⟨hlt, fun r js hjs => ?_, fun z e' hz => ?_⟩
    · rw [tableAt_setLeaf ht.apart hlen hn f r hjs]
      exact hnoTable r js hjs
    · rcases (leaf_setLeaf ht.apart hlen hn).mp hz with ⟨-, rfl, -⟩ | ⟨-, hold⟩
      · exact hfree y hy
      · exact hmap z e' hold

theorem mapAt_rc (base : ℕ) (s : Machine) (n : ℕ) (i : Idx) (ka : ℕ) (flags : Word) (x : ℕ) :
    (mapAt base s n i ka flags).rc x = s.rc x + if managed base ka ∧ x = ka then 1 else 0 := by
  unfold mapAt store
  dsimp only
  by_cases hm : managed base ka
  · rw [if_pos hm]
    by_cases hx : x = ka
    · rw [if_pos ⟨hm, hx⟩, hx]
      exact update_self ..
    · rw [if_neg (fun h => hx h.2), add_zero]
      exact update_of_ne hx ..
  · rw [if_neg hm, if_neg (fun h => hm h.1), add_zero]

theorem mapAt_freed (base : ℕ) (s : Machine) (n : ℕ) (i : Idx) (ka : ℕ) (flags : Word) :
    (mapAt base s n i ka flags).freed = s.freed := by
  unfold mapAt store
  dsimp only
  split_ifs <;> rfl

/-- **One entry is set**: the slot `x` gets the entry `f` for the page `ka`. -/
structure Mapped (base : ℕ) (root : P → Option ℕ) (s s' : Machine) (x : Slot P) (ka : ℕ) (f : Word) : Prop where
  tables : Tables s'.mem root
  supplied : Supplied s' root
  page : pageOf f = ka
  leaf : ∀ y e, Leaf s'.mem root y e ↔ (y = x ∧ e = f) ∨ (y ≠ x ∧ Leaf s.mem root y e)
  rc : ∀ n, s'.rc n = s.rc n + if managed base ka ∧ n = ka then 1 else 0
  freed : s'.freed = s.freed
  taken : s.supply.length ≤ s'.supply.length + 3
  sub : ∀ y ∈ s'.supply, y ∈ s.supply
  keep : ∀ p is n, is.length ≤ 3 → tableAt s.mem root p is = some n → tableAt s'.mem root p is = some n
  fresh : ∀ p is n, is.length ≤ 3 → tableAt s'.mem root p is = some n →
    tableAt s.mem root p is = some n ∨ ∃ y ∈ s.supply, y.1 = n
  data : ∀ n, (∀ y ∈ s.supply, y.1 ≠ n) → (∀ p is, is.length ≤ 3 → tableAt s.mem root p is ≠ some n) →
    s'.mem n = s.mem n

/-- **`map_in_pgtbl`** of a page that is no table and not free. -/
theorem mapInPgtbl_mapped {p : P}
    (hroot : root p = some pt) (ht : Tables s.mem root) (hs : Supplied s root) (hlt : ka < pageLimit)
    (hflags : flags &&& flagMask = flags) (hfree : ∀ x ∈ s.supply, x.1 ≠ ka)
    (hnot : ∀ r js, js.length ≤ 3 → tableAt s.mem root r js ≠ some ka)
    (h : mapInPgtbl base s pt va ka flags = some s') :
    Mapped base root s s' (slotOf p va) ka (physical ka ||| flags ||| pteValid) := by
  have hpage : pageOf (physical ka ||| flags ||| pteValid) = ka := by
    rw [BitVec.or_assoc]
    refine pageOf_entry hlt ?_
    have hone : pteValid &&& flagMask = pteValid := by decide
    rw [BitVec.and_or_distrib_right, hflags, hone]
  have hvalid : (physical ka ||| flags ||| pteValid) &&& pteValid ≠ 0#64 := by
    intro hzero
    have hbit := congrArg (fun e => e.getLsbD 0) hzero
    simp [pteValid] at hbit
  rcases mapInPgtbl_alloc hroot ht hs ka flags with ⟨hnone, -⟩ | ⟨t, s₁, hmap, hat, hg⟩
  · rw [hnone] at h
    cases h
  rw [hmap] at h
  cases h
  have hnew : ∀ r js, js.length ≤ 3 → tableAt s₁.mem root r js ≠ some ka := by
    intro r js hjs hr
    rcases hg.fresh r js ka hjs hr with hr | ⟨x, hx, hxk⟩
    · exact hnot r js hjs hr
    · exact hfree x hx hxk
  obtain ⟨ht', hs'⟩ := mapAt_keeps hg.tables hg.supplied (length_path va) hat rfl
    (by rw [hpage]; exact hnew) (by rw [hpage]; exact fun x hx => (hfree x (hg.sub x hx)).symm)
  refine ⟨ht', hs', hpage, fun y e => ?_, fun n => ?_, ?_, ?_, ?_, fun r js n hjs hr => ?_, fun r js n hjs hr => ?_,
    fun n hsup htab => ?_⟩
  · rw [mapAt_mem, leaf_setLeaf hg.tables.apart (length_path va) hat, hg.leaf]
    simp only [hvalid, ne_eq, not_false_eq_true, and_true]
    exact Iff.rfl
  · rw [mapAt_rc, hg.rc]
  · rw [mapAt_freed, hg.freed]
  · rw [mapAt_supply]
    exact hg.taken
  · rw [mapAt_supply]
    exact hg.sub
  · rw [mapAt_mem, tableAt_setLeaf hg.tables.apart (length_path va) hat _ _ hjs]
    exact hg.keep r js n hjs hr
  · rw [mapAt_mem, tableAt_setLeaf hg.tables.apart (length_path va) hat _ _ hjs] at hr
    exact hg.fresh r js n hjs hr
  · have hnt : n ≠ t := by
      rintro rfl
      rcases hg.fresh p (path va) n le_rfl hat with hold | ⟨y, hy, hyn⟩
      · exact htab p (path va) le_rfl hold
      · exact hsup y hy hyn
    rw [mapAt_mem, setEntry_page hnt]
    exact hg.data n hsup htab

/-! ### A new root -/

section NewRoot

variable {m : ℕ → Idx → Word} {p : P} {q : ℕ} {contents : Idx → Word}

def Clean (contents : Idx → Word) : Prop := ∀ i, contents i &&& pteValid = 0#64

variable (ht : Tables m root) (hp : root p = none) (hq : Unused m root q) (hc : Clean contents)
include hq hc

theorem tableAt_newRoot (r : P) (his : is.length ≤ 3) :
    tableAt (update m q contents) (update root p (some q)) r is =
      if r = p then (if is = [] then some q else none) else tableAt m root r is := by
  by_cases hr : r = p
  · subst hr
    rw [if_pos rfl, tableAt, update_self, bind_some]
    cases is with
    | nil => rfl
    | cons i is =>
      rw [walk, update_self, child_of_invalid (hc i)]
      rfl
  · rw [if_neg hr, ← tableAt_data (hq.frame contents) r his, tableAt, update_of_ne hr]
    rfl

include hp

theorem leaf_newRoot {x : Slot P} {e : Word} :
    Leaf (update m q contents) (update root p (some q)) x e ↔ Leaf m root x e := by
  obtain ⟨r, is, i⟩ := x
  by_cases hr : r = p
  · subst hr
    constructor
    · rintro ⟨hlen, ⟨n, hn, -⟩, -⟩
      have hlen' : is.length = 3 := hlen
      rw [tableAt_newRoot hq hc _ hlen'.le, if_pos rfl, if_neg (by rintro rfl; cases hlen')] at hn
      cases hn
    · rintro ⟨-, ⟨n, hn, -⟩, -⟩
      rw [tableAt, hp] at hn
      cases hn
  · have hsame : Leaf (update m q contents) (update root p (some q)) (r, is, i) e ↔
        Leaf (update m q contents) root (r, is, i) e := by
      unfold Leaf tableAt
      dsimp only
      rw [update_of_ne hr]
    rw [hsame]
    exact leaf_data (hq.frame contents)

include ht

theorem Tables.newRoot : Tables (update m q contents) (update root p (some q)) := by
  have hroot : ∀ {is n}, is.length ≤ 3 →
      tableAt (update m q contents) (update root p (some q)) p is = some n → is = [] ∧ n = q := by
    intro is n his hn
    rw [tableAt_newRoot hq hc p his, if_pos rfl] at hn
    split_ifs at hn with h
    exact ⟨h, (some.inj hn).symm⟩
  have hother : ∀ {r is n}, r ≠ p → is.length ≤ 3 →
      tableAt (update m q contents) (update root p (some q)) r is = some n →
      tableAt m root r is = some n := by
    intro r is n hr his hn
    rwa [tableAt_newRoot hq hc r his, if_neg hr] at hn
  refine ⟨?_, ?_⟩
  · intro r r' is is' n his his' hn hn'
    by_cases hr : r = p <;> by_cases hr' : r' = p
    · subst hr hr'
      exact ⟨rfl, (hroot his hn).1.trans (hroot his' hn').1.symm⟩
    · subst hr
      obtain ⟨-, rfl⟩ := hroot his hn
      exact absurd (hother hr' his' hn') (hq.notTable r' is' his')
    · subst hr'
      obtain ⟨-, rfl⟩ := hroot his' hn'
      exact absurd (hother hr his hn) (hq.notTable r is his)
    · exact ht.apart r r' is is' n his his' (hother hr his hn) (hother hr' his' hn')
  · intro x e hx r is his hn
    have hold := (leaf_newRoot hp hq hc).mp hx
    by_cases hr : r = p
    · subst hr
      exact hq.notMapped x e hold (hroot his hn).2
    · exact ht.notData x e hold r is his (hother hr his hn)

end NewRoot

theorem Supplied.newRoot {p : P} {q : ℕ} {contents contents' : Idx → Word} (hs : Supplied s root) (hsup : s.supply = (q, contents) :: rest)
    (hp : root p = none) (hc : Clean contents') (rc : ℕ → ℤ) (freed : List ℕ) :
    Supplied ⟨update s.mem q contents', rc, rest, freed⟩ (update root p (some q)) := by
  have hq := hs.head hsup
  refine hs.take hsup rfl fun k hne hold => ⟨hold.lt, fun r is his => ?_, fun y e hy => ?_⟩
  on_goal 2 => exact hold.notMapped y e ((leaf_newRoot hp hq hc).mp hy)
  rw [tableAt_newRoot hq hc r his]
  split_ifs
  · exact fun h => hne (some.inj h)
  · exact fun h => (some_ne_none _ h.symm).elim
  · exact hold.notTable r is his

end OsHonor.Vm.PageTables.Growth
