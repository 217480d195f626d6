import Mathlib.Data.Finmap

/-! # Tables of slots

A list of slots that are in use or free, as a store keeps them that reuses freed places: a slot in use has a key
and a value, and no two of them have the same key. The table is then a finite map (`Represents`): to fill a free
slot, or a new one at the end, is to insert into the map, and to free a slot is to erase its key. -/

namespace OsHonor.Base.Slots

open List

variable {α κ ν : Type} (used : α → Bool) (key : α → κ) (val : α → ν)

def usedKeys (l : List α) : List κ := (l.filter used).map key

section

variable {used key} {p o q : List α} {x : α}

theorem usedKeys_append : usedKeys used key (p ++ q) = usedKeys used key p ++ usedKeys used key q := by
  simp [usedKeys]

theorem usedKeys_free (ho : ∀ d ∈ o, used d = false) : usedKeys used key o = [] := by
  rw [usedKeys, filter_eq_nil_iff.mpr (by simpa using ho), map_nil]

theorem usedKeys_cons (h : used x = true) : usedKeys used key (x :: q) = key x :: usedKeys used key q := by
  rw [usedKeys, filter_cons_of_pos h, map_cons, usedKeys]

theorem usedKeys_cons_free (h : used x = false) : usedKeys used key (x :: q) = usedKeys used key q := by
  rw [usedKeys, filter_cons_of_neg (by simp [h]), usedKeys]

end

variable [DecidableEq κ]

/-- The first slot in use with the key `k`. -/
def slotOf (k : κ) (l : List α) : Option α := l.find? fun d => used d && decide (key d = k)

/-- **The table as a finite map.** -/
structure Represents (l : List α) (m : Finmap fun _ : κ => ν) : Prop where
  distinct : (usedKeys used key l).Nodup
  lookup : ∀ k, m.lookup k = (slotOf used key k l).map val

variable {used key val} {k : κ} {l p o q : List α} {d x : α} {m : Finmap fun _ : κ => ν}

theorem slotOf_eq_none : slotOf used key k l = none ↔ k ∉ usedKeys used key l := by
  simp only [slotOf, usedKeys, find?_eq_none, mem_map, mem_filter, Bool.and_eq_true,
    decide_eq_true_eq, not_exists, not_and, and_imp]

theorem slotOf_some (h : slotOf used key k l = some d) : d ∈ l ∧ used d = true ∧ key d = k := by
  have hd := find?_some h
  simp only [Bool.and_eq_true, decide_eq_true_eq] at hd
  exact ⟨mem_of_find?_eq_some h, hd⟩

theorem slotOf_append : slotOf used key k (p ++ q) = (slotOf used key k p).or (slotOf used key k q) :=
  find?_append

theorem slotOf_free (ho : ∀ d ∈ o, used d = false) : slotOf used key k o = none := by
  rw [slotOf, find?_eq_none]
  intro d hd
  simp [ho d hd]

theorem slotOf_cons_of_ne (h : used x = true → key x ≠ k) : slotOf used key k (x :: q) = slotOf used key k q :=
  find?_cons_of_neg (by simpa using h)

theorem slotOf_cons_self (h : used x = true) : slotOf used key (key x) (x :: q) = some x :=
  find?_cons_of_pos (by simp [h])

namespace Represents

theorem mem_iff (h : Represents used key val l m) : k ∈ m ↔ k ∈ usedKeys used key l := by
  rw [← Finmap.lookup_isSome, h.lookup, Option.isSome_map, ← not_iff_not, ← slotOf_eq_none,
    Option.not_isSome_iff_eq_none]

/-- **A free slot is filled**, or, if `o` is empty, a new one is added. -/
theorem fill (h : Represents used key val (p ++ (o ++ q)) m) (ho : ∀ d ∈ o, used d = false)
    (hx : used x = true) (hm : key x ∉ m) :
    Represents used key val (p ++ x :: q) (m.insert (key x) (val x)) where
  distinct := by
    have hd := h.distinct
    rw [h.mem_iff] at hm
    rw [usedKeys_append, usedKeys_append, usedKeys_free ho, nil_append] at hd hm
    rw [usedKeys_append, usedKeys_cons hx, nodup_middle, nodup_cons]
    exact ⟨hm, hd⟩
  lookup k := by
    have hold : ∀ k, slotOf used key k (p ++ (o ++ q)) = (slotOf used key k p).or (slotOf used key k q) := by
      intro k
      rw [slotOf_append, slotOf_append, slotOf_free ho, Option.none_or]
    by_cases hk : k = key x
    · have hp : slotOf used key (key x) p = none := by
        rw [h.mem_iff, usedKeys_append, mem_append, not_or] at hm
        exact slotOf_eq_none.mpr hm.1
      rw [hk, Finmap.lookup_insert, slotOf_append, hp, Option.none_or, slotOf_cons_self hx, Option.map_some]
    · rw [Finmap.lookup_insert_of_ne _ hk, h.lookup, hold, slotOf_append, slotOf_cons_of_ne fun _ he => hk he.symm]

/-- **A slot in use is freed.** -/
theorem free (h : Represents used key val (p ++ d :: q) m) (hd : used d = true) (hx : used x = false) :
    Represents used key val (p ++ x :: q) (m.erase (key d)) := by
  have hnd := h.distinct
  rw [usedKeys_append, usedKeys_cons hd, nodup_middle, nodup_cons, mem_append, not_or] at hnd
  refine ⟨?_, fun k => ?_⟩
  · rw [usedKeys_append, usedKeys_cons_free hx]
    exact hnd.2
  · rw [slotOf_append, slotOf_cons_of_ne fun hx' => absurd hx (by simp [hx'])]
    by_cases hk : k = key d
    · rw [hk, Finmap.lookup_erase, slotOf_eq_none.mpr hnd.1.1, slotOf_eq_none.mpr hnd.1.2]
      rfl
    · rw [Finmap.lookup_erase_ne hk, h.lookup, slotOf_append, slotOf_cons_of_ne fun _ he => hk he.symm]

theorem eq_of_key {d' : α} {i j : ℕ} (h : Represents used key val l m) (hi : l[i]? = some d) (hj : l[j]? = some d')
    (hd : used d = true) (hd' : used d' = true) (hk : key d = key d') : i = j := by
  have hpair := h.distinct
  rw [usedKeys, List.Nodup, pairwise_map, pairwise_filter, pairwise_iff_getElem] at hpair
  obtain ⟨hil, rfl⟩ := List.getElem?_eq_some_iff.mp hi
  obtain ⟨hjl, rfl⟩ := List.getElem?_eq_some_iff.mp hj
  rcases lt_trichotomy i j with hlt | heq | hgt
  · exact absurd hk (hpair i j hil hjl hlt hd hd')
  · exact heq
  · exact absurd hk.symm (hpair j i hjl hil hgt hd' hd)

theorem length_eq (h : Represents used key val l m) (hl : ∀ d ∈ l, used d = true) : l.length = m.keys.card := by
  have hkeys : m.keys = (usedKeys used key l).toFinset := by
    ext k
    rw [Finmap.mem_keys, h.mem_iff, mem_toFinset]
  rw [hkeys, toFinset_card_of_nodup h.distinct, usedKeys, length_map, filter_eq_self.mpr hl]

end Represents

theorem represents_nil : Represents used key val [] (∅ : Finmap fun _ : κ => ν) :=
  ⟨nodup_nil, fun _ => rfl⟩

end OsHonor.Base.Slots
