import OsHonor.Base.BitFields
import OsHonor.Vm.PageTables.Code

/-! # Entries and lookups

What the masks of `mmu.h` do to an entry (`pageOf_entry`, `pteFlags_entry`) and to an address (`va_ext`), and
what the lookup functions do to tables that are there: `get_pte` follows the walk of `Base.Radix`
(`descend_false`, `descend_of_walk`). The pointer that `unmap_in_pgtbl` tests is a multiple of eight, so its
lowest bit is never set: the function does nothing (`unmapInPgtbl_eq`), and `map_in_pgtbl` replaces whatever
entry it finds (`mapInPgtbl_of_walk`). -/

namespace OsHonor.Vm.PageTables.Entries

open BitVec Base.BitFields Base.Radix Regions Code

/-! ### Entries -/

def child (e : Word) : Option ℕ := if e &&& pteValid = 0#64 then none else some (pageOf e)

variable {e va : Word} {s : Machine} {pt : ℕ}

theorem child_of_invalid (h : e &&& pteValid = 0#64) : child e = none := if_pos h

theorem child_of_valid (h : e &&& pteValid ≠ 0#64) : child e = some (pageOf e) := if_neg h

theorem child_eq_some {n : ℕ} : child e = some n ↔ e &&& pteValid ≠ 0#64 ∧ pageOf e = n := by
  unfold child
  split_ifs with h
  · simp [h]
  · simp [h]

def pageLimit : ℕ := 2 ^ 36

theorem physical_toNat {n : ℕ} (hn : n < pageLimit) : (physical n).toNat = n * 2 ^ 12 := by
  unfold physical pageLimit at *
  rw [toNat_shiftLeft, BitVec.toNat_ofNat, Nat.shiftLeft_eq, Nat.mod_eq_of_lt (by omega),
    Nat.mod_eq_of_lt (by omega)]

theorem physical_and_not {n : ℕ} (hn : n < pageLimit) : physical n &&& ~~~flagMask = physical n := by
  have hmask : (~~~flagMask).toNat = (2 ^ 36 - 1) * 2 ^ 12 := by decide
  apply eq_of_toNat_eq
  rw [toNat_and, physical_toNat hn, hmask, ← Nat.shiftLeft_eq, ← Nat.shiftLeft_eq,
    ← Nat.shiftLeft_and_distrib, Nat.and_two_pow_sub_one_eq_mod]
  exact congrArg (· <<< 12) (Nat.mod_eq_of_lt hn)

theorem physical_and {n : ℕ} (hn : n < pageLimit) : physical n &&& flagMask = 0#64 := by
  rw [← physical_and_not hn, BitVec.and_assoc, BitVec.not_and_self]
  exact and_zero

section Entry

variable {n : ℕ} {f : Word} (hn : n < pageLimit) (hf : f &&& flagMask = f)
include hn hf

/-- **The page of an entry** is the one it was made for. -/
theorem pageOf_entry : pageOf (physical n ||| f) = n := by
  unfold pageOf pteAddress
  rw [or_and_not_mask (physical_and hn) hf, toNat_ushiftRight, physical_toNat hn,
    Nat.shiftRight_eq_div_pow, Nat.mul_div_cancel _ (by decide)]

/-- **The flags of an entry** are those it was made with. -/
theorem pteFlags_entry : pteFlags (physical n ||| f) = f := or_and_mask (physical_and hn) hf

end Entry

theorem pteFlags_and (e : Word) : pteFlags e &&& flagMask = pteFlags e := by
  unfold pteFlags
  rw [BitVec.and_assoc, BitVec.and_self]

theorem pteFlags_bit (e : Word) {b : Word} (hb : flagMask &&& b = b) : pteFlags e &&& b = e &&& b := by
  unfold pteFlags
  rw [BitVec.and_assoc, hb]

/-! ### Addresses -/

theorem vaPart0_val (va : Word) : (vaPart0 va).val = va.toNat / 2 ^ 39 % 512 := by
  unfold vaPart0
  rw [field_toNat va 0xFF8000000000#64 (s := 39) (k := 9) (by decide)]
  exact Nat.mod_mod _ _

theorem vaPart1_val (va : Word) : (vaPart1 va).val = va.toNat / 2 ^ 30 % 512 := by
  unfold vaPart1
  rw [field_toNat va 0x7FC0000000#64 (s := 30) (k := 9) (by decide)]
  exact Nat.mod_mod _ _

theorem vaPart2_val (va : Word) : (vaPart2 va).val = va.toNat / 2 ^ 21 % 512 := by
  unfold vaPart2
  rw [field_toNat va 0x3FE00000#64 (s := 21) (k := 9) (by decide)]
  exact Nat.mod_mod _ _

theorem vaPart3_val (va : Word) : (vaPart3 va).val = va.toNat / 2 ^ 12 % 512 := by
  unfold vaPart3
  rw [field_toNat va 0x1FF000#64 (s := 12) (k := 9) (by decide)]
  exact Nat.mod_mod _ _

theorem vaOffset_eq (va : Word) : vaOffset va = va.toNat % 4096 := by
  have h := field_toNat va 4095#64 (s := 0) (k := 12) (by decide)
  rw [ushiftRight_zero, Nat.pow_zero, Nat.div_one] at h
  exact h

/-- **An address below `2 ^ 48`** is known by its indices and its offset. -/
theorem va_ext {va' : Word} (h : va.toNat < 2 ^ 48) (h' : va'.toNat < 2 ^ 48) (hpath : path va = path va')
    (hidx : vaPart3 va = vaPart3 va') (hoff : vaOffset va = vaOffset va') : va = va' := by
  unfold path at hpath
  rw [List.cons.injEq, List.cons.injEq, List.cons.injEq] at hpath
  have h0 := congrArg Fin.val hpath.1
  have h1 := congrArg Fin.val hpath.2.1
  have h2 := congrArg Fin.val hpath.2.2.1
  have h3 := congrArg Fin.val hidx
  rw [vaPart0_val, vaPart0_val] at h0
  rw [vaPart1_val, vaPart1_val] at h1
  rw [vaPart2_val, vaPart2_val] at h2
  rw [vaPart3_val, vaPart3_val] at h3
  rw [vaOffset_eq, vaOffset_eq] at hoff
  apply eq_of_toNat_eq
  omega

/-! ### Lookups -/

theorem descend_false (s : Machine) : ∀ (is : List Idx) (n : ℕ),
    descend false is n s = some (walk child s.mem n is, s)
  | [], n => rfl
  | i :: is, n => by
    rw [descend, walk]
    by_cases h : s.mem n i &&& pteValid = 0#64
    · rw [if_pos h, child_of_invalid h]
      rfl
    · rw [if_neg h, child_of_valid h, Option.bind_some]
      exact descend_false s is _

theorem descend_of_walk (s : Machine) (alloc : Bool) : ∀ (is : List Idx) (n t : ℕ),
    walk child s.mem n is = some t → descend alloc is n s = some (some t, s)
  | [], n, t, h => by
    cases h
    rfl
  | i :: is, n, t, h => by
    rw [walk] at h
    obtain ⟨n', hc, hw⟩ := Option.bind_eq_some_iff.mp h
    obtain ⟨hv, rfl⟩ := child_eq_some.mp hc
    rw [descend, if_neg hv]
    exact descend_of_walk s alloc is _ t hw

theorem getPte_false (s : Machine) (pt : ℕ) (va : Word) :
    getPte s pt va false = some ((walk child s.mem pt (path va)).map fun n => (n, vaPart3 va), s) := by
  unfold getPte
  rw [descend_false]
  rfl

theorem getPte_of_walk {n : ℕ} (h : walk child s.mem pt (path va) = some n)
    (alloc : Bool) : getPte s pt va alloc = some (some (n, vaPart3 va), s) := by
  unfold getPte
  rw [descend_of_walk s alloc _ _ _ h]
  rfl

theorem entryAddress_even (n : ℕ) (i : Idx) : entryAddress n i &&& pteValid = 0#64 := by
  have hmod : (entryAddress n i).toNat % 2 = 0 := by
    unfold entryAddress physical kspaceMask
    rw [toNat_add, toNat_add, toNat_shiftLeft, BitVec.toNat_ofNat, BitVec.toNat_ofNat,
      BitVec.toNat_ofNat, Nat.shiftLeft_eq]
    omega
  apply eq_of_toNat_eq
  have hone : (pteValid).toNat = 1 := by decide
  rw [toNat_and, hone, Nat.and_one_is_mod, hmod]
  rfl

/-- **`unmap_in_pgtbl` does nothing.** -/
theorem unmapInPgtbl_eq (base : ℕ) (s : Machine) (pt : ℕ) (va : Word) : unmapInPgtbl base s pt va = some s := by
  unfold unmapInPgtbl
  rw [getPte_false]
  cases walk child s.mem pt (path va) with
  | none => rfl
  | some n =>
    dsimp only [Option.map_some]
    rw [if_pos (entryAddress_even n (vaPart3 va))]

/-- The machine after `map_in_pgtbl` has come to the entry `i` of the page `n`. -/
def mapAt (base : ℕ) (s : Machine) (n : ℕ) (i : Idx) (ka : ℕ) (flags : Word) : Machine :=
  let s := store s n i (physical ka ||| flags ||| pteValid)
  if managed base ka then { s with rc := Function.update s.rc ka (s.rc ka + 1) } else s

/-- **`map_in_pgtbl`** replaces the entry, valid or not. -/
theorem mapInPgtbl_of_walk {base : ℕ} {n : ℕ} (ka : ℕ) (flags : Word)
    (h : walk child s.mem pt (path va) = some n) :
    mapInPgtbl base s pt va ka flags = some (mapAt base s n (vaPart3 va) ka flags) := by
  unfold mapInPgtbl mapAt
  rw [getPte_of_walk h true]
  dsimp only
  rw [unmapInPgtbl_eq, ite_self]

theorem mapAt_mem (base : ℕ) (s : Machine) (n : ℕ) (i : Idx) (ka : ℕ) (flags : Word) :
    (mapAt base s n i ka flags).mem = setEntry s.mem n i (physical ka ||| flags ||| pteValid) := by
  unfold mapAt store
  dsimp only
  split_ifs <;> rfl

end OsHonor.Vm.PageTables.Entries
