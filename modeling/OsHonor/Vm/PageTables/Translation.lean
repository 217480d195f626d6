import Mathlib.Data.Set.Card
import OsHonor.Vm.PageTables.Growth
import OsHonor.Vm.PageTables.Loops

/-! # A page table as a map

What `get_pte` finds for an address (`lookup`), in a table that was built by `map_in_pgtbl` from an empty root
(`Built`). Any page may be mapped, with any flags, also a page that is itself a table: the only thing that
counts is that no page is in two places of the table (`Apart`).

`map_in_pgtbl` sets the entry of its address. For another page it may put in the level-3 table, which is empty:
a lookup that found nothing then finds an entry of zeros. Nothing else changes (`mapInPgtbl_translates`).

`unmap_range_in_pgtbl` changes nothing at all (`unmapRangeInPgtbl_eq`), so it removes the translations of a
range only if there are none (`unmapsRange_iff`). -/

namespace OsHonor.Vm.PageTables.Translation

open BitVec Base.Radix Regions Code Entries
open Spaces Growth Loops

/-! ### Entries, valid or not -/

section Entry

variable {P : Type} {m m' : ℕ → Idx → Word} {root : P → Option ℕ} {x : Slot P} {e : Word} {p : P} {is : List Idx}

def entryAt (m : ℕ → Idx → Word) (root : P → Option ℕ) (x : Slot P) : Option Word :=
  (tableAt m root x.1 x.2.1).map fun n => m n x.2.2

theorem Apart.data (h : ∀ p is n i, is.length ≤ 3 → tableAt m root p is = some n → m' n i = m n i)
    (ha : Apart m root) : Apart m' root := by
  intro p p' is is' n his his' hn hn'
  rw [tableAt_data h p his] at hn
  rw [tableAt_data h p' his'] at hn'
  exact ha p p' is is' n his his' hn hn'

theorem entryAt_setLeaf [DecidableEq P] {t : ℕ} {i : Idx} (ha : Apart m root) (hlen : is.length = 3)
    (hn : tableAt m root p is = some t) (hx : x.2.1.length = 3) :
    entryAt (setEntry m t i e) root x = if x = (p, is, i) then some e else entryAt m root x := by
  unfold entryAt
  rw [tableAt_setLeaf ha hlen hn e x.1 hx.le]
  by_cases hhere : x = (p, is, i)
  · subst hhere
    rw [if_pos rfl, hn]
    exact congrArg some (setEntry_self ..)
  · rw [if_neg hhere]
    cases hxn : tableAt m root x.1 x.2.1 with
    | none => rfl
    | some n =>
      refine congrArg some (setEntry_of_ne ?_)
      rintro ⟨rfl, hi⟩
      obtain ⟨hp, his⟩ := ha x.1 p x.2.1 is n hx.le hlen.le hxn hn
      exact hhere (Prod.ext hp (Prod.ext his hi))

theorem entryAt_newTable [DecidableEq P] {n q : ℕ} {i : Idx} (ha : Apart m root) (hq : Unused m root q)
    (hlt : is.length < 3) (hn : tableAt m root p is = some n) (hi : child (m n i) = none) (hx : x.2.1.length = 3) :
    entryAt (newTable m n i q) root x = if x.1 = p ∧ x.2.1 = is ++ [i] then some 0#64 else entryAt m root x := by
  unfold entryAt
  rw [tableAt_newTable ha hq hlt hn hi x.1 x.2.1 hx.le]
  by_cases hnew : x.1 = p ∧ x.2.1 = is ++ [i]
  · rw [if_pos hnew, if_pos hnew]
    show some (newTable m n i q q x.2.2) = some 0#64
    unfold newTable
    rw [Function.update_self]
  · rw [if_neg hnew, if_neg hnew]
    cases hxn : tableAt m root x.1 x.2.1 with
    | none => rfl
    | some k =>
      refine congrArg some (newTable_other hq hx.le hxn ?_)
      rintro ⟨rfl, -⟩
      have hsame := (ha x.1 p x.2.1 is k hx.le hlt.le hxn hn).2
      rw [hsame] at hx
      omega

end Entry

/-! ### `get_pte` with allocation -/

section Descend

variable {P : Type} [DecidableEq P] {root : P → Option ℕ}

/-- **The tables at a path are put in**: where there was no level-3 table at it there is one of zeros. -/
structure Opened (root : P → Option ℕ) (p : P) (is : List Idx) (s s' : Machine) : Prop where
  apart : Apart s'.mem root
  entry : ∀ x : Slot P, x.2.1.length = 3 → entryAt s'.mem root x =
    if x.1 = p ∧ x.2.1 = is ∧ entryAt s.mem root x = none then some 0#64 else entryAt s.mem root x

variable {s₀ s : Machine} {p : P} {is : List Idx} {i : Idx} {n : ℕ}

theorem Opened.refl (ha : Apart s.mem root) (p : P) : Opened root p [] s s := by
  refine ⟨ha, fun x hx => (if_neg ?_).symm⟩
  rintro ⟨-, hnil, -⟩
  rw [hnil] at hx
  cases hx

theorem Opened.entry_of_lt (h : Opened root p is s₀ s) (hlt : is.length < 3) {x : Slot P} (hx : x.2.1.length = 3) :
    entryAt s.mem root x = entryAt s₀.mem root x := by
  rw [h.entry x hx, if_neg]
  rintro ⟨-, his, -⟩
  exact absurd (his ▸ hx) hlt.ne

/-- The next table is there. -/
theorem Opened.present (h : Opened root p is s₀ s) (hlt : is.length < 3)
    (hn : tableAt s.mem root p (is ++ [i]) = some n) : Opened root p (is ++ [i]) s₀ s := by
  refine ⟨h.apart, fun x hx => (h.entry_of_lt hlt hx).trans (if_neg ?_).symm⟩
  rintro ⟨hp, his, hnone⟩
  rw [← h.entry_of_lt hlt hx, entryAt, hp, his, hn] at hnone
  cases hnone

/-- The next table is put in. -/
theorem Opened.missing {q : ℕ} {rest : List (ℕ × (Idx → Word))} (h : Opened root p is s₀ s) (hq : Unused s.mem root q)
    (hlt : is.length < 3) (hn : tableAt s.mem root p is = some n) (hi : child (s.mem n i) = none) :
    Opened root p (is ++ [i]) s₀ { s with mem := newTable s.mem n i q, supply := rest } := by
  refine ⟨h.apart.newTable hq hlt hn hi, fun x hx => ?_⟩
  rw [entryAt_newTable h.apart hq hlt hn hi hx, h.entry_of_lt hlt hx]
  refine if_congr ⟨fun hnew => ⟨hnew.1, hnew.2, ?_⟩, fun hnew => ⟨hnew.1, hnew.2.1⟩⟩ rfl rfl
  rw [← h.entry_of_lt hlt hx, entryAt, hnew.1, hnew.2, tableAt_concat, hn, Option.bind_some, hi]
  rfl

end Descend

/-! ### One table -/

def pageBits (va : Word) : BitVec 36 := va.extractLsb' 12 36

/-- The bits 21 to 47 of an address, which lead to its level-3 table. -/
def tableBits (va : Word) : BitVec 27 := va.extractLsb' 21 27

theorem path_eq_iff {va va' : Word} : path va = path va' ↔ tableBits va = tableBits va' := by
  unfold path tableBits
  rw [List.cons.injEq, List.cons.injEq, List.cons.injEq, eq_self_iff_true, and_true, Fin.ext_iff, Fin.ext_iff,
    Fin.ext_iff, vaPart0_val, vaPart0_val, vaPart1_val, vaPart1_val, vaPart2_val, vaPart2_val, ← toNat_inj, extractLsb'_toNat,
    extractLsb'_toNat, Nat.shiftRight_eq_div_pow, Nat.shiftRight_eq_div_pow]
  omega

theorem slot_eq_iff {va va' : Word} :
    path va = path va' ∧ vaPart3 va = vaPart3 va' ↔ pageBits va = pageBits va' := by
  rw [path_eq_iff]
  unfold tableBits pageBits
  rw [Fin.ext_iff, vaPart3_val, vaPart3_val, ← toNat_inj, ← toNat_inj, extractLsb'_toNat,
    extractLsb'_toNat, extractLsb'_toNat, extractLsb'_toNat, Nat.shiftRight_eq_div_pow,
    Nat.shiftRight_eq_div_pow, Nat.shiftRight_eq_div_pow, Nat.shiftRight_eq_div_pow]
  omega

def only (pt : ℕ) : Unit → Option ℕ := fun _ => some pt

/-- **What `get_pte` finds** for an address, without allocation: the entry, or nothing if it returns `NULL`. -/
def lookup (s : Machine) (pt : ℕ) (va : Word) : Option Word :=
  match getPte s pt va false with
  | some (some (n, i), s) => some (s.mem n i)
  | _ => none

theorem lookup_eq (s : Machine) (pt : ℕ) (va : Word) : lookup s pt va = entryAt s.mem (only pt) (slotOf () va) := by
  unfold lookup entryAt slotOf tableAt only
  rw [getPte_false, Option.bind_some]
  dsimp only
  cases walk child s.mem pt (path va) <;> rfl

/-- **A table built by `map_in_pgtbl`**, from a root of zeros. Between two calls anything may happen to pages that
are not tables, and to the pages that `kalloc_page` is going to return. -/
inductive Built (base pt : ℕ) : Machine → Prop
  | zeroed {s : Machine} : (∀ i, s.mem pt i = 0#64) → Built base pt s
  | outside {s s' : Machine} : Built base pt s →
      (∀ is n, is.length ≤ 3 → tableAt s.mem (only pt) () is = some n → s'.mem n = s.mem n) → Built base pt s'
  | map {s s' : Machine} {va : Word} {ka : ℕ} {flags : Word} : Built base pt s → Supplied s (only pt) →
      mapInPgtbl base s pt va ka flags = some s' → Built base pt s'

section Map

variable {base pt : ℕ} {s : Machine}

theorem mapInPgtbl_opened (base : ℕ) (ha : Apart s.mem (only pt)) (hs : Supplied s (only pt)) (va : Word) (ka : ℕ)
    (flags : Word) : (mapInPgtbl base s pt va ka flags = none ∧ s.supply.length < 3) ∨
    ∃ t s', mapInPgtbl base s pt va ka flags = some (mapAt base s' t (vaPart3 va) ka flags) ∧
      tableAt s'.mem (only pt) () (path va) = some t ∧ Opened (only pt) () (path va) s s' := by
  refine (mapInPgtbl_rule (Q := fun js s' => Opened (only pt) () js s s' ∧ Supplied s' (only pt))
    (fun h => ⟨h.1.apart, h.2⟩) (fun h hlt hn => ⟨h.1.present hlt hn, h.2⟩) (fun h hsup hlt hn hi => ?_)
    ⟨Opened.refl ha (), hs⟩ rfl ka flags).imp id ?_
  · exact ⟨h.1.missing (h.2.head hsup) hlt hn hi, h.2.newTable h.1.apart hsup hlt hn hi⟩
  · rintro ⟨t, s', hmap, hat, ho, -⟩
    exact ⟨t, s', hmap, hat, ho⟩

theorem tableAt_zeroed (h : ∀ i, s.mem pt i = 0#64) {is : List Idx} {n : ℕ}
    (hn : tableAt s.mem (only pt) () is = some n) : is = [] ∧ n = pt := by
  cases is with
  | nil => exact ⟨rfl, (Option.some.inj hn).symm⟩
  | cons i is =>
    have hwalk : walk child s.mem pt (i :: is) = some n := hn
    rw [walk, h i, child_of_invalid (by decide)] at hwalk
    cases hwalk

theorem supplied_zeroed (h : ∀ i, s.mem pt i = 0#64) (hnodup : (s.supply.map Prod.fst).Nodup)
    (hne : ∀ x ∈ s.supply, x.1 ≠ pt ∧ x.1 < pageLimit) : Supplied s (only pt) := by
  refine ⟨hnodup, fun x hx => ⟨(hne x hx).2, fun _ is _ hn => ?_, ?_⟩⟩
  · exact (hne x hx).1 (tableAt_zeroed h hn).2
  · rintro y e ⟨hlen, ⟨n, hn, -⟩, -⟩
    rw [(tableAt_zeroed h hn).1] at hlen
    cases hlen

theorem Built.apart (h : Built base pt s) : Apart s.mem (only pt) := by
  induction h with
  | zeroed hz =>
    intro p p' is is' n _ _ hn hn'
    exact ⟨rfl, (tableAt_zeroed hz hn).1.trans (tableAt_zeroed hz hn').1.symm⟩
  | outside _ hsame ih => exact Apart.data (fun _ is n i his hn => congrFun (hsame is n his hn) i) ih
  | map _ hs hmap ih =>
    rcases mapInPgtbl_opened base ih hs _ _ _ with ⟨hnone, -⟩ | ⟨t, s₁, hsome, hat, ho⟩
    · rw [hnone] at hmap
      cases hmap
    · rw [hsome] at hmap
      cases hmap
      rw [mapAt_mem]
      exact Apart.setLeaf ho.apart (length_path _) hat _

/-- **The page table is a map.** `map_in_pgtbl` returns if there are three pages to take. It sets the entry of its
address; for another page the lookup is as before, except that where there was no level-3 table, and the
address needs the same one, there is now an entry of zeros. A lookup without allocation changes nothing. -/
theorem mapInPgtbl_translates (hb : Built base pt s) (hs : Supplied s (only pt)) (va : Word) (ka : ℕ) (flags : Word) :
    (3 ≤ s.supply.length → ∃ s', mapInPgtbl base s pt va ka flags = some s') ∧
    (∀ s', mapInPgtbl base s pt va ka flags = some s' →
      lookup s' pt va = some (physical ka ||| flags ||| pteValid) ∧
      ∀ va', pageBits va' ≠ pageBits va → lookup s' pt va' =
        if tableBits va' = tableBits va ∧ lookup s pt va' = none then some 0#64 else lookup s pt va') ∧
    ∀ va', ∃ r, getPte s pt va' false = some (r, s) := by
  rcases mapInPgtbl_opened base hb.apart hs va ka flags with ⟨hnone, hfew⟩ | ⟨t, s₁, hsome, hat, ho⟩
  · refine ⟨fun h => absurd h (not_le.mpr hfew), fun s' h => ?_, fun va' => ⟨_, getPte_false s pt va'⟩⟩
    rw [hnone] at h
    cases h
  · refine ⟨fun _ => ⟨_, hsome⟩, fun s' h => ?_, fun va' => ⟨_, getPte_false s pt va'⟩⟩
    rw [hsome] at h
    cases h
    have hset : ∀ va' : Word, lookup (mapAt base s₁ t (vaPart3 va) ka flags) pt va' =
        if slotOf () va' = ((), path va, vaPart3 va) then some (physical ka ||| flags ||| pteValid)
        else entryAt s₁.mem (only pt) (slotOf () va') := by
      intro va'
      rw [lookup_eq, mapAt_mem]
      exact entryAt_setLeaf ho.apart (length_path va) hat (length_path va')
    refine ⟨(hset va).trans (if_pos rfl), fun va' hne => ?_⟩
    rw [hset, if_neg, ho.entry _ (length_path va'), lookup_eq]
    · refine if_congr ?_ rfl rfl
      rw [← path_eq_iff]
      exact ⟨fun h => h.2, fun h => ⟨rfl, h⟩⟩
    · intro hslot
      exact hne (slot_eq_iff.mp ⟨congrArg (fun x => x.2.1) hslot, congrArg (fun x => x.2.2) hslot⟩)

end Map

def zeros : Machine := ⟨fun _ _ => 0#64, fun _ => 0, [(2, fun _ => 0#64), (3, fun _ => 0#64), (4, fun _ => 0#64)], []⟩

theorem zeros_built (base pt : ℕ) : Built base pt zeros := .zeroed fun _ => rfl

theorem zeros_supplied : Supplied zeros (only 1) := supplied_zeroed (fun _ => rfl) (by decide) (by decide)

/-- The first page is mapped in an empty table. -/
theorem mapInPgtbl_translates_zeros : ∃ s', mapInPgtbl 0 zeros 1 0#64 30 pteUserData = some s' ∧
    lookup s' 1 0#64 = some 0x1E647#64 := by
  obtain ⟨s', hs'⟩ := (mapInPgtbl_translates (zeros_built 0 1) zeros_supplied 0#64 30 pteUserData).1 (by decide)
  exact ⟨s', hs', ((mapInPgtbl_translates (zeros_built 0 1) zeros_supplied 0#64 30 pteUserData).2.1 s' hs').1⟩

/-- The page after it had no entry, and has one of zeros now. -/
theorem neighbour_opened : ∃ s s', Built 0 1 s ∧ Supplied s (only 1) ∧
    mapInPgtbl 0 s 1 0#64 30 pteUserData = some s' ∧ pageBits 0x1000#64 ≠ pageBits 0#64 ∧
    lookup s 1 0x1000#64 = none ∧ lookup s' 1 0x1000#64 = some 0#64 := by
  have hrun : (mapInPgtbl 0 zeros 1 0#64 30 pteUserData).map (fun s' => lookup s' 1 0x1000#64) = some (some 0#64) := by
    decide +kernel
  obtain ⟨s', hs', hentry⟩ := Option.map_eq_some_iff.mp hrun
  exact ⟨zeros, s', zeros_built 0 1, zeros_supplied, hs', by decide, by decide +kernel, hentry⟩

/-! ### `unmap_range_in_pgtbl` -/

/-- A page-aligned address from `PAGE_BASE(begin)` on, before `end`. -/
def InRange (first last a : Word) : Prop := pageBase first ≤ a ∧ a < last ∧ a.toNat % 4096 = 0

/-- The address has a valid level-3 entry, for the page `n`. -/
def Maps (s : Machine) (pt : ℕ) (a : Word) (n : ℕ) : Prop :=
  ∃ e, lookup s pt a = some e ∧ e &&& pteValid ≠ 0#64 ∧ pageOf e = n

def Valid (s : Machine) (pt : ℕ) (a : Word) : Prop := ∃ n, Maps s pt a n

/-- The number of entries for the page `n` in the range that are there before, and not after. -/
noncomputable def removed (s s' : Machine) (pt : ℕ) (first last : Word) (n : ℕ) : ℕ :=
  Set.ncard {k | ∃ a, InRange first last a ∧ pageBits a = k ∧ Maps s pt a n ∧ ¬ Valid s' pt a}

/-- **The range is unmapped**: `unmap_range_in_pgtbl` returns, and then no address in the range has a valid entry,
the pages have lost as many counts as entries, and no other page of the address space has changed. -/
def UnmapsRange (base : ℕ) (s : Machine) (pt : ℕ) (first last : Word) : Prop :=
  ∃ s', unmapRangeInPgtbl base s pt first last = some s' ∧ (∀ a, InRange first last a → ¬ Valid s' pt a) ∧
    (∀ n, managed base n → s'.rc n = s.rc n - removed s s' pt first last n) ∧
    ∀ a, (∀ a', InRange first last a' → pageBits a' ≠ pageBits a) → lookup s' pt a = lookup s pt a

theorem unmapRangeInPgtbl_eq (base : ℕ) (s : Machine) (pt : ℕ) (first last : Word) :
    unmapRangeInPgtbl base s pt first last = if Ends last then some s else none := by
  unfold unmapRangeInPgtbl
  split_ifs with hends
  · obtain ⟨is, his, -⟩ := mem_pagesOf first hends
    rw [his, Option.bind_some, unmapPages_eq]
  · rw [pagesOf_eq_none hends]
    rfl

/-- **A range is unmapped exactly if nothing is mapped in it**, and its end is not in the last page: the loop of
`unmap_range_in_pgtbl` does not end otherwise. -/
theorem unmapsRange_iff (base : ℕ) (s : Machine) (pt : ℕ) (first last : Word) :
    UnmapsRange base s pt first last ↔ Ends last ∧ ∀ a, InRange first last a → ¬ Valid s pt a := by
  unfold UnmapsRange
  rw [unmapRangeInPgtbl_eq]
  constructor
  · rintro ⟨s', hs', hinv, -⟩
    split_ifs at hs' with hends
    cases hs'
    exact ⟨hends, hinv⟩
  · rintro ⟨hends, hinv⟩
    refine ⟨s, if_pos hends, hinv, fun n _ => ?_, fun _ _ => rfl⟩
    have hnone : removed s s pt first last n = 0 := by
      have hempty : {k | ∃ a, InRange first last a ∧ pageBits a = k ∧ Maps s pt a n ∧ ¬ Valid s pt a} = ∅ := by
        refine Set.eq_empty_of_forall_notMem ?_
        rintro k ⟨a, ha, -, hmaps, -⟩
        exact hinv a ha ⟨n, hmaps⟩
      unfold removed
      rw [hempty, Set.ncard_empty]
    rw [hnone]
    simp

/-- A page that is mapped stays mapped. -/
theorem mapped_stays : ∃ s, Built 0 1 s ∧ Valid s 1 0#64 ∧ ¬ UnmapsRange 0 s 1 0#64 4096#64 := by
  have hrun : (mapInPgtbl 0 zeros 1 0#64 30 pteUserData).map (fun s' => lookup s' 1 0#64) = some (some 0x1E647#64) := by
    decide +kernel
  obtain ⟨s, hs, hentry⟩ := Option.map_eq_some_iff.mp hrun
  have hvalid : Valid s 1 0#64 := ⟨30, _, hentry, by decide, by decide⟩
  refine ⟨s, .map (zeros_built 0 1) zeros_supplied hs, hvalid, ?_⟩
  rintro ⟨s', hs', hinv, -⟩
  rw [unmapRangeInPgtbl_eq, if_pos (by decide)] at hs'
  cases hs'
  exact hinv 0#64 ⟨by decide, by decide, by decide⟩ hvalid

end OsHonor.Vm.PageTables.Translation
