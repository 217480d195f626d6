import Mathlib.Algebra.Order.Ring.Int

/-! # Fields and bytes of a word

A field of a word is taken out by a mask and a shift (`field_toNat`). A word made of two parts that a mask
separates gives the parts back (`or_and_mask`, `or_and_not_mask`). `getByte` and `setByte` are the bytes of a
word of 64 bits (`getByte_setByte`). -/

namespace OsHonor.Base.BitFields

open BitVec

variable {w : ℕ}

/-- **A field**, as a quotient and a remainder. -/
theorem field_toNat (x m : BitVec w) {s k : ℕ} (hm : m.toNat = (2 ^ k - 1) * 2 ^ s) :
    ((x &&& m) >>> s).toNat = x.toNat / 2 ^ s % 2 ^ k := by
  have hshift : (2 ^ k - 1) * 2 ^ s / 2 ^ s = 2 ^ k - 1 := Nat.mul_div_cancel _ (Nat.two_pow_pos s)
  rw [toNat_ushiftRight, toNat_and, hm, Nat.shiftRight_and_distrib, Nat.shiftRight_eq_div_pow,
    Nat.shiftRight_eq_div_pow, hshift, Nat.and_two_pow_sub_one_eq_mod]

section Mask

variable {a f m : BitVec w} (ha : a &&& m = 0#w) (hf : f &&& m = f)
include ha hf

theorem or_and_mask : (a ||| f) &&& m = f := by
  apply eq_of_getLsbD_eq
  intro i _
  have h1 := congrArg (fun x => x.getLsbD i) ha
  have h2 := congrArg (fun x => x.getLsbD i) hf
  simp only [getLsbD_and, getLsbD_or, getLsbD_zero] at h1 h2 ⊢
  cases ha' : a.getLsbD i <;> cases hf' : f.getLsbD i <;> cases hm' : m.getLsbD i <;> simp_all

theorem or_and_not_mask : (a ||| f) &&& ~~~m = a := by
  apply eq_of_getLsbD_eq
  intro i hi
  have h1 := congrArg (fun x => x.getLsbD i) ha
  have h2 := congrArg (fun x => x.getLsbD i) hf
  simp only [getLsbD_and, getLsbD_or, getLsbD_zero, getLsbD_not] at h1 h2 ⊢
  cases ha' : a.getLsbD i <;> cases hf' : f.getLsbD i <;> cases hm' : m.getLsbD i <;> simp_all

end Mask

/-! ### Bytes -/

/-- The byte `k` of a word. -/
def getByte (x : BitVec 64) (k : ℕ) : BitVec 8 := (x >>> (8 * k)).setWidth 8

/-- The word with the byte `k` replaced. -/
def setByte (x : BitVec 64) (k : ℕ) (b : BitVec 8) : BitVec 64 :=
  (x &&& ~~~(255#64 <<< (8 * k))) ||| (b.setWidth 64 <<< (8 * k))

theorem getLsbD_getByte (x : BitVec 64) (k i : ℕ) :
    (getByte x k).getLsbD i = (decide (i < 8) && x.getLsbD (8 * k + i)) := by
  unfold getByte
  rw [getLsbD_setWidth, getLsbD_ushiftRight]

theorem getLsbD_byteMask (i : ℕ) : (255#64).getLsbD i = decide (i < 8) := by
  have hmask : ∀ j : Fin 64, (255#64).getLsbD j = decide (j.val < 8) := by decide
  by_cases hi : i < 64
  · exact hmask ⟨i, hi⟩
  · rw [getLsbD_of_ge _ _ (by omega), decide_eq_false (by omega)]

theorem getLsbD_setByte (x : BitVec 64) (k : ℕ) (b : BitVec 8) {i : ℕ} (hi : i < 64) :
    (setByte x k b).getLsbD i = if 8 * k ≤ i ∧ i < 8 * k + 8 then b.getLsbD (i - 8 * k) else x.getLsbD i := by
  unfold setByte
  simp only [getLsbD_or, getLsbD_and, getLsbD_not, getLsbD_shiftLeft,
    getLsbD_setWidth, getLsbD_byteMask]
  split_ifs with h
  · have h1 : ¬ i < 8 * k := by omega
    have h2 : i - 8 * k < 8 := by omega
    have h3 : i - 8 * k < 64 := by omega
    simp [hi, h1, h2, h3]
  · by_cases h1 : i < 8 * k
    · simp [hi, h1]
    · have h2 : ¬ i - 8 * k < 8 := by omega
      have hb : b.getLsbD (i - 8 * k) = false := getLsbD_of_ge _ _ (by omega)
      simp [hi, h1, h2, hb]

/-- **A byte that is set** is the one that is read, and the others stay. -/
theorem getByte_setByte (x : BitVec 64) {k j : ℕ} (hj : j < 8) (b : BitVec 8) :
    getByte (setByte x k b) j = if j = k then b else getByte x j := by
  apply eq_of_getLsbD_eq
  intro i hi
  rw [getLsbD_getByte, getLsbD_setByte x k b (by omega)]
  split_ifs with h hjk hjk
  · rw [hjk, decide_eq_true hi, Bool.true_and]
    congr 1
    omega
  · omega
  · omega
  · rw [getLsbD_getByte]

end OsHonor.Base.BitFields
