import Mathlib.Data.List.Induction
import OsHonor.Vm.PageTables.Entries

/-! # Address spaces in one memory

The page tables of several address spaces, in one memory. `tableAt` is the table that the indices lead to and
`Leaf` a valid level-3 entry; `Tables` says that the tables are pages of their own, each in one place (`Apart`),
and that none of them is mapped.

The kernel writes memory in three ways, and each has its effect on the tables and the entries: to pages that
are not tables (`tableAt_data`, `leaf_data`), to a level-3 entry (`tableAt_setLeaf`, `leaf_setLeaf`), and to an
entry above level 3, which comes to lead to an empty table (`tableAt_newTable`, `leaf_newTable`). -/

namespace OsHonor.Vm.PageTables.Spaces

open Option Function Base.Radix Regions Code Entries

variable {P : Type}

def tableAt (m : ℕ → Idx → Word) (root : P → Option ℕ) (p : P) (is : List Idx) : Option ℕ :=
  (root p).bind fun r => walk child m r is

/-- A place for a level-3 entry: the address space, the indices of the tables above, and the index. -/
abbrev Slot (P : Type) := P × List Idx × Idx

def slotOf (p : P) (va : Word) : Slot P := (p, path va, vaPart3 va)

/-- **A valid level-3 entry.** -/
def Leaf (m : ℕ → Idx → Word) (root : P → Option ℕ) (x : Slot P) (e : Word) : Prop :=
  x.2.1.length = 3 ∧ (∃ n, tableAt m root x.1 x.2.1 = some n ∧ m n x.2.2 = e) ∧ e &&& pteValid ≠ 0#64

/-- **No page is in two places** of the tables. -/
def Apart (m : ℕ → Idx → Word) (root : P → Option ℕ) : Prop :=
  ∀ p p' is is' n, is.length ≤ 3 → is'.length ≤ 3 → tableAt m root p is = some n → tableAt m root p' is' = some n →
    p = p' ∧ is = is'

/-- **The tables are disjoint**, and none of them is mapped. -/
structure Tables (m : ℕ → Idx → Word) (root : P → Option ℕ) : Prop where
  apart : ∀ p p' is is' n, is.length ≤ 3 → is'.length ≤ 3 → tableAt m root p is = some n →
    tableAt m root p' is' = some n → p = p' ∧ is = is'
  notData : ∀ x e, Leaf m root x e → ∀ p is, is.length ≤ 3 → tableAt m root p is ≠ some (pageOf e)

/-- **A page that is not in use**: it is no table, and it is not mapped. -/
structure Unused (m : ℕ → Idx → Word) (root : P → Option ℕ) (q : ℕ) : Prop where
  lt : q < pageLimit
  notTable : ∀ p is, is.length ≤ 3 → tableAt m root p is ≠ some q
  notMapped : ∀ x e, Leaf m root x e → pageOf e ≠ q

theorem length_path (va : Word) : (path va).length = 3 := rfl

section Frame

variable {m m' : ℕ → Idx → Word} {root : P → Option ℕ} {x : Slot P} {e e' : Word} {p : P} {is : List Idx} {q : ℕ}

theorem Leaf.unique (h : Leaf m root x e) (h' : Leaf m root x e') : e = e' := by
  obtain ⟨-, ⟨n, hn, rfl⟩, -⟩ := h
  obtain ⟨-, ⟨n', hn', rfl⟩, -⟩ := h'
  rw [some.inj (hn.symm.trans hn')]

theorem tableAt_concat (m : ℕ → Idx → Word) (root : P → Option ℕ) (p : P) (is : List Idx) (i : Idx) :
    tableAt m root p (is ++ [i]) = (tableAt m root p is).bind fun n => child (m n i) := by
  unfold tableAt
  cases root p with
  | none => rfl
  | some r =>
    rw [bind_some, bind_some]
    exact walk_concat m is i r

theorem tableAt_congr (h : ∀ p is n i, is.length < 3 → tableAt m root p is = some n → m' n i = m n i) (p : P)
    (his : is.length ≤ 3) : tableAt m' root p is = tableAt m root p is := by
  unfold tableAt
  cases hr : root p with
  | none => rfl
  | some r =>
    rw [bind_some, bind_some]
    refine walk_congr is r fun js i ks n he hn => ?_
    refine h p js n i ?_ (by unfold tableAt; rw [hr, bind_some]; exact hn)
    rw [he, List.length_append, List.length_cons] at his
    omega

/-! ### Pages that are not tables -/

section Data

variable (h : ∀ p is n i, is.length ≤ 3 → tableAt m root p is = some n → m' n i = m n i)
include h

theorem tableAt_data (p : P) (his : is.length ≤ 3) : tableAt m' root p is = tableAt m root p is :=
  tableAt_congr (fun p is n i hlt hn => h p is n i hlt.le hn) p his

theorem leaf_data : Leaf m' root x e ↔ Leaf m root x e := by
  unfold Leaf
  refine and_congr_right fun hlen => and_congr_left fun _ => ?_
  rw [tableAt_data h x.1 hlen.le]
  refine exists_congr fun n => and_congr_right fun hn => ?_
  rw [h x.1 x.2.1 n x.2.2 hlen.le hn]

theorem Tables.data (ht : Tables m root) : Tables m' root := by
  refine ⟨?_, ?_⟩
  · intro p p' is is' n his his' hn hn'
    rw [tableAt_data h p his] at hn
    rw [tableAt_data h p' his'] at hn'
    exact ht.apart p p' is is' n his his' hn hn'
  · intro x e hx p is his
    rw [tableAt_data h p his]
    exact ht.notData x e ((leaf_data h).mp hx) p is his

end Data

theorem Unused.frame (hq : Unused m root q) (contents : Idx → Word) :
    ∀ p is n i, is.length ≤ 3 → tableAt m root p is = some n → Function.update m q contents n i = m n i := by
  intro p is n i his hn
  have hne : n ≠ q := by
    rintro rfl
    exact hq.notTable p is his hn
  rw [update_of_ne hne]

/-! ### A level-3 entry -/

section SetLeaf

variable {t : ℕ} {i : Idx} (ha : Apart m root) (hlen : is.length = 3) (hn : tableAt m root p is = some t)
include ha hlen hn

theorem tableAt_setLeaf (e : Word) (p' : P) {js : List Idx} (hjs : js.length ≤ 3) :
    tableAt (setEntry m t i e) root p' js = tableAt m root p' js := by
  refine tableAt_congr (fun r ks n j hks hr => setEntry_of_ne ?_) p' hjs
  -- the entry is in a table of level 3, the one on the way is above
  rintro ⟨rfl, -⟩
  have hsame := (ha r p ks is n hks.le hlen.le hr hn).2
  rw [hsame] at hks
  omega

/-- **The entry is replaced**, and all others stay. -/
theorem leaf_setLeaf : Leaf (setEntry m t i e) root x e' ↔
    (x = (p, is, i) ∧ e' = e ∧ e &&& pteValid ≠ 0#64) ∨ (x ≠ (p, is, i) ∧ Leaf m root x e') := by
  by_cases hx : x = (p, is, i)
  · subst hx
    constructor
    · rintro ⟨-, ⟨n, hn', rfl⟩, hv⟩
      dsimp only at hn' hv ⊢
      rw [tableAt_setLeaf ha hlen hn e p hlen.le, hn] at hn'
      cases hn'
      rw [setEntry_self] at hv ⊢
      exact Or.inl ⟨rfl, rfl, hv⟩
    · rintro (⟨-, rfl, hv⟩ | ⟨hne, -⟩)
      · refine ⟨hlen, ⟨t, ?_, setEntry_self ..⟩, hv⟩
        rw [tableAt_setLeaf ha hlen hn e' p hlen.le]
        exact hn
      · exact absurd rfl hne
  · have hsame : Leaf (setEntry m t i e) root x e' ↔ Leaf m root x e' := by
      unfold Leaf
      refine and_congr_right fun hxl => and_congr_left fun _ => ?_
      rw [tableAt_setLeaf ha hlen hn e x.1 hxl.le]
      refine exists_congr fun n => and_congr_right fun hxn => ?_
      rw [setEntry_of_ne]
      rintro ⟨rfl, hi⟩
      obtain ⟨hp, his⟩ := ha x.1 p x.2.1 is n hxl.le hlen.le hxn hn
      exact hx (Prod.ext hp (Prod.ext his hi))
    rw [hsame]
    simp [hx]

theorem Apart.setLeaf (e : Word) : Apart (setEntry m t i e) root := by
  intro r r' js js' n hjs hjs' hr hr'
  rw [tableAt_setLeaf ha hlen hn e r hjs] at hr
  rw [tableAt_setLeaf ha hlen hn e r' hjs'] at hr'
  exact ha r r' js js' n hjs hjs' hr hr'

omit ha in
theorem Tables.setLeaf (ht : Tables m root) (he : ∀ r js, js.length ≤ 3 → tableAt m root r js ≠ some (pageOf e)) :
    Tables (setEntry m t i e) root := by
  refine ⟨Apart.setLeaf ht.apart hlen hn e, ?_⟩
  intro x e' hx r js hjs
  rw [tableAt_setLeaf ht.apart hlen hn e r hjs]
  rcases (leaf_setLeaf ht.apart hlen hn).mp hx with ⟨-, rfl, -⟩ | ⟨-, hold⟩
  · exact he r js hjs
  · exact ht.notData x e' hold r js hjs

end SetLeaf

/-! ### A new table -/

/-- Memory in which the entry `i` of the table `n` leads to the page `q`, which is empty. -/
def newTable (m : ℕ → Idx → Word) (n : ℕ) (i : Idx) (q : ℕ) : ℕ → Idx → Word :=
  Function.update (setEntry m n i (physical q ||| pteTable)) q fun _ => 0#64

section NewTable

variable {n : ℕ} {i : Idx} (ha : Apart m root) (hq : Unused m root q) (hlt : is.length < 3)
  (hn : tableAt m root p is = some n) (hi : child (m n i) = none)
include ha hq hlt hn hi

omit ha hi in
theorem newTable_entry : newTable m n i q n i = physical q ||| pteTable := by
  have hne : n ≠ q := by
    rintro rfl
    exact hq.notTable p is hlt.le hn
  unfold newTable
  rw [update_of_ne hne, setEntry_self]

omit ha hlt hn hi in
theorem newTable_other {r : P} {js : List Idx} {n' : ℕ} {j : Idx} (hjs : js.length ≤ 3)
    (hr : tableAt m root r js = some n') (hne : ¬ (n' = n ∧ j = i)) : newTable m n i q n' j = m n' j := by
  have hnq : n' ≠ q := by
    rintro rfl
    exact hq.notTable r js hjs hr
  unfold newTable
  rw [update_of_ne hnq, setEntry_of_ne hne]

/-- **There is one table more**, at the end of its path. -/
theorem tableAt_newTable [DecidableEq P] (r : P) : ∀ (js : List Idx), js.length ≤ 3 →
    tableAt (newTable m n i q) root r js =
      if r = p ∧ js = is ++ [i] then some q else tableAt m root r js := by
  have hchild : child (physical q ||| pteTable) = some q := by
    refine child_eq_some.mpr ⟨fun h0 => ?_, pageOf_entry hq.lt (by decide)⟩
    have hlow := congrArg (fun x => x.getLsbD 0) h0
    simp [pteTable, pteValid] at hlow
  intro js
  induction js using List.reverseRecOn with
  | nil =>
    intro _
    rw [if_neg (by simp)]
    unfold tableAt
    cases root r <;> rfl
  | append_singleton js j ih =>
    intro hjs
    rw [List.length_append, List.length_singleton] at hjs
    have hjs' : js.length ≤ 3 := by omega
    rw [tableAt_concat, tableAt_concat, ih hjs']
    by_cases hnew : r = p ∧ js = is ++ [i]
    · -- past the new table there is nothing
      rw [if_pos hnew, bind_some]
      have hzero : child (newTable m n i q q j) = none := by
        unfold newTable
        rw [update_self]
        decide
      have hlong : js ++ [j] ≠ is ++ [i] := by
        intro he
        have := congrArg List.length he
        rw [hnew.2] at this
        simp at this
      have hold : tableAt m root r js = none := by
        rw [hnew.1, hnew.2, tableAt_concat, hn, bind_some, hi]
      rw [hzero, if_neg (fun hc => hlong hc.2), hold]
      rfl
    · rw [if_neg hnew]
      cases hr : tableAt m root r js with
      | none =>
        have hne : ¬ (r = p ∧ js ++ [j] = is ++ [i]) := by
          rintro ⟨rfl, he⟩
          obtain ⟨rfl, -⟩ := List.append_inj' he rfl
          rw [hn] at hr
          cases hr
        rw [if_neg hne]
        rfl
      | some n' =>
        rw [bind_some, bind_some]
        by_cases hhere : n' = n ∧ j = i
        · obtain ⟨rfl, rfl⟩ := hhere
          obtain ⟨rfl, rfl⟩ := ha r p js is n' hjs' hlt.le hr hn
          rw [newTable_entry hq hlt hn, hchild, if_pos ⟨rfl, rfl⟩]
        · rw [newTable_other hq hjs' hr hhere, if_neg]
          rintro ⟨rfl, he⟩
          obtain ⟨rfl, hji⟩ := List.append_inj' he rfl
          rw [hn] at hr
          cases hr
          exact hhere ⟨rfl, (List.cons.inj hji).1⟩

/-- **No entry is added** by it. -/
theorem leaf_newTable [DecidableEq P] : Leaf (newTable m n i q) root x e ↔ Leaf m root x e := by
  unfold Leaf
  refine and_congr_right fun hxl => and_congr_left fun hv => ?_
  rw [tableAt_newTable ha hq hlt hn hi x.1 x.2.1 hxl.le]
  by_cases hnew : x.1 = p ∧ x.2.1 = is ++ [i]
  · rw [if_pos hnew]
    constructor
    · rintro ⟨n', hn', he⟩
      cases hn'
      unfold newTable at he
      rw [update_self] at he
      rw [← he] at hv
      exact absurd (by decide) hv
    · rintro ⟨n', hn', -⟩
      rw [hnew.1, hnew.2, tableAt_concat, hn, bind_some, hi] at hn'
      cases hn'
  · rw [if_neg hnew]
    refine exists_congr fun n' => and_congr_right fun hn' => ?_
    rw [newTable_other hq hxl.le hn']
    rintro ⟨rfl, -⟩
    have hsame := (ha x.1 p x.2.1 is n' hxl.le hlt.le hn' hn).2
    rw [hsame] at hxl
    omega

theorem Apart.newTable [DecidableEq P] : Apart (newTable m n i q) root := by
  intro r r' js js' k hjs hjs' hr hr'
  rw [tableAt_newTable ha hq hlt hn hi r js hjs] at hr
  rw [tableAt_newTable ha hq hlt hn hi r' js' hjs'] at hr'
  split_ifs at hr hr' with h1 h2 h2
  · exact ⟨h1.1.trans h2.1.symm, h1.2.trans h2.2.symm⟩
  · cases hr
    exact absurd hr' (hq.notTable r' js' hjs')
  · cases hr'
    exact absurd hr (hq.notTable r js hjs)
  · exact ha r r' js js' k hjs hjs' hr hr'

omit ha in
theorem Tables.newTable [DecidableEq P] (ht : Tables m root) : Tables (newTable m n i q) root := by
  refine ⟨Apart.newTable ht.apart hq hlt hn hi, ?_⟩
  intro x e hx r js hjs
  have hold := (leaf_newTable ht.apart hq hlt hn hi).mp hx
  rw [tableAt_newTable ht.apart hq hlt hn hi r js hjs]
  split_ifs
  · exact fun he => hq.notMapped x e hold (some.inj he).symm
  · exact ht.notData x e hold r js hjs

end NewTable

end Frame

end OsHonor.Vm.PageTables.Spaces
