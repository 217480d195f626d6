import Mathlib.Data.List.Rotate

/-! # Lists of records with a key

A list whose elements are told apart by a key (an address, a number): `lookup` finds the element with
a key, `modifyAt` changes it in place and `rotateAfter` turns the list, read as a ring, so that the
element comes last. The lemmas describe the results by membership and by the images `l.map g` of the
list, which is what invariants speak about. -/

namespace OsHonor.Base.Keyed

open List

variable {α β κ : Type*} [DecidableEq κ] (key : α → κ)

/-- The element with key `a`. -/
def lookup (a : κ) (l : List α) : Option α := l.find? fun x => key x = a

/-- The list with `f` applied to the elements with key `a`. -/
def modifyAt (a : κ) (f : α → α) (l : List α) : List α := l.map fun x => if key x = a then f x else x

/-- The ring turned so that the element with key `a` is the last one. -/
def rotateAfter (a : κ) (l : List α) : List α := l.rotate (l.findIdx (fun x => key x = a) + 1)

variable {key}

variable {a : κ} {l : List α} {x : α} {f : α → α}

theorem mem_of_lookup (h : lookup key a l = some x) : x ∈ l ∧ key x = a :=
  ⟨mem_of_find?_eq_some h, by simpa using find?_some h⟩

theorem lookup_eq_none : lookup key a l = none ↔ ∀ x ∈ l, key x ≠ a := by
  simp [lookup]

theorem lookup_eq_some (hl : (l.map key).Nodup) : lookup key a l = some x ↔ x ∈ l ∧ key x = a := by
  refine ⟨mem_of_lookup, fun ⟨hx, ha⟩ => ?_⟩
  rcases h : lookup key a l with _ | y
  · exact absurd ha (lookup_eq_none.mp h x hx)
  · obtain ⟨hy, hya⟩ := mem_of_lookup h
    rw [inj_on_of_nodup_map hl hy hx (hya.trans ha.symm)]

theorem ne_of_mem_eraseP (hl : (l.map key).Nodup)
    (hx : x ∈ l.eraseP fun y => key y = a) : key x ≠ a := by
  induction l with
  | nil => simp at hx
  | cons y l ih =>
    rw [map_cons, nodup_cons] at hl
    by_cases hy : key y = a
    · rw [eraseP_cons_of_pos (by simpa using hy)] at hx
      rintro rfl
      exact hl.1 (hy ▸ mem_map_of_mem hx)
    · rw [eraseP_cons_of_neg (by simpa using hy)] at hx
      rcases mem_cons.mp hx with rfl | hx
      · exact hy
      · exact ih hl.2 hx

theorem mem_modifyAt {y : α} :
    y ∈ modifyAt key a f l ↔ ∃ x ∈ l, y = if key x = a then f x else x := by
  simp only [modifyAt, mem_map, eq_comm]

theorem mem_modifyAt_self (hx : x ∈ l) (ha : key x = a) : f x ∈ modifyAt key a f l :=
  mem_modifyAt.mpr ⟨x, hx, by rw [if_pos ha]⟩

theorem map_modifyAt (g : α → β) (hf : ∀ x, key x = a → g (f x) = g x)
    (l : List α) : (modifyAt key a f l).map g = l.map g := by
  rw [modifyAt, map_map]
  refine map_congr_left fun x _ => ?_
  by_cases h : key x = a
  · simp [h, hf x h]
  · simp [h]

@[simp] theorem length_modifyAt (a : κ) (f : α → α) (l : List α) :
    (modifyAt key a f l).length = l.length := by simp [modifyAt]

theorem filter_modifyAt {p : α → Bool} (hf : ∀ x, p (f x) = false) (l : List α) :
    (modifyAt key a f l).filter p = (l.filter p).filter fun x => key x ≠ a := by
  induction l with
  | nil => rfl
  | cons x l ih =>
    simp only [modifyAt, map_cons, filter_cons] at ih ⊢
    by_cases hx : key x = a
    · cases p x <;> simp [hx, hf, ih]
    · cases hp : p x <;> simp [hx, hp, ih]

theorem filter_modifyAt_of_eq {p : α → Bool} (hf : ∀ x, p (f x) = p x) (l : List α) :
    (modifyAt key a f l).filter p = modifyAt key a f (l.filter p) := by
  rw [modifyAt, filter_map, modifyAt]
  congr 1
  refine filter_congr fun x _ => ?_
  by_cases hx : key x = a
  · simp [hx, hf]
  · simp [hx]

theorem filter_key_ne_head (h : ((x :: l).map key).Nodup) :
    ((x :: l).filter fun y => key y ≠ key x) = l := by
  rw [map_cons, nodup_cons] at h
  rw [filter_cons_of_neg (by simp)]
  refine filter_eq_self.mpr fun y hy => ?_
  have hne : key y ≠ key x := fun he => h.1 (he ▸ mem_map_of_mem hy)
  simpa using hne

theorem map_filter_key_ne (hl : (l.map key).Nodup) (a : κ) :
    (l.filter fun x => key x ≠ a).map key = (l.map key).erase a := by
  rw [hl.erase_eq_filter, filter_map]
  congr 1
  exact filter_congr fun x _ => by simp [bne, BEq.beq]

theorem length_filter_key_ne (hl : (l.map key).Nodup) (hx : x ∈ l) :
    (l.filter fun y => key y ≠ key x).length + 1 = l.length := by
  have hmem : key x ∈ l.map key := mem_map_of_mem hx
  have hpos := length_pos_of_mem hx
  rw [← length_map key, map_filter_key_ne hl, length_erase_of_mem hmem, length_map]
  omega

theorem rotateAfter_perm (a : κ) (l : List α) : (rotateAfter key a l).Perm l := rotate_perm _ _

@[simp] theorem mem_rotateAfter : x ∈ rotateAfter key a l ↔ x ∈ l :=
  mem_rotate

theorem lookup_concat (hl : ∀ y ∈ l, key y ≠ a) (hx : key x = a) :
    lookup key a (l ++ [x]) = some x := by
  unfold lookup
  rw [find?_append, find?_eq_none.mpr (by simpa using hl)]
  simp [hx]

theorem modifyAt_split {r : List α} (hl : ∀ y ∈ l, key y ≠ a)
    (hr : ∀ y ∈ r, key y ≠ a) (hx : key x = a) : modifyAt key a f (l ++ x :: r) = l ++ f x :: r := by
  have hid : ∀ {r : List α}, (∀ y ∈ r, key y ≠ a) → r.map (fun y => if key y = a then f y else y) = r :=
    fun h => (map_congr_left fun y hy => if_neg (h y hy)).trans (map_id' _)
  simp [modifyAt, hid hl, hid hr, hx]

theorem modifyAt_concat (hl : ∀ y ∈ l, key y ≠ a)
    (hx : key x = a) : modifyAt key a f (l ++ [x]) = l ++ [f x] :=
  modifyAt_split hl (by simp) hx

theorem rotateAfter_split {r : List α} (hl : ∀ y ∈ l, key y ≠ a)
    (hx : key x = a) : rotateAfter key a (l ++ x :: r) = r ++ (l ++ [x]) := by
  unfold rotateAfter
  have hidx : (l ++ x :: r).findIdx (fun y => key y = a) = l.length := by
    rw [findIdx_append, findIdx_eq_length_of_false (by simpa using hl)]
    simp [findIdx_cons, hx]
  have hlen : l.length + 1 = (l ++ [x]).length := by simp
  have hsplit : l ++ x :: r = (l ++ [x]) ++ r := by simp
  rw [hidx, hlen, hsplit, rotate_append_length_eq]

theorem rotateAfter_concat (hl : ∀ y ∈ l, key y ≠ a)
    (hx : key x = a) : rotateAfter key a (l ++ [x]) = l ++ [x] :=
  rotateAfter_split hl hx

end OsHonor.Base.Keyed
