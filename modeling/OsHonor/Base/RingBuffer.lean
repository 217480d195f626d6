import Mathlib.Data.BitVec

/-! # Ring buffers with free-running counters

A buffer of `size` cells with two counters of `w` bits that are only ever incremented: the cell of a
counter is the counter modulo `size`. `Holds size r q` says that the elements between the counters are the
queue `q`. The counters may wrap as long as `size` divides `2 ^ w`, for then wrapping does not move the
cell; and the test for a full buffer, which adds `size` to a counter, is exact as long as `size < 2 ^ w`.

* `Holds.full_iff`, `Holds.empty_iff`: what the comparisons of the counters say of the queue;
* `Holds.push`, `Holds.pop`: the operations on the counters are those on the queue. -/

namespace OsHonor.Base.RingBuffer

open Function List

/-- **A ring buffer** with counters of `w` bits. -/
structure Ring (α : Type) (w : ℕ) where
  data : ℕ → α
  nread : BitVec w
  nwrite : BitVec w

variable {α : Type} {w size : ℕ}

namespace Ring

def full (size : ℕ) (r : Ring α w) : Bool := r.nwrite = r.nread + BitVec.ofNat w size

def empty (r : Ring α w) : Bool := r.nread = r.nwrite

def push (size : ℕ) (r : Ring α w) (x : α) : Ring α w :=
  { r with data := update r.data (r.nwrite.toNat % size) x, nwrite := r.nwrite + BitVec.ofNat w 1 }

def front (size : ℕ) (r : Ring α w) : α := r.data (r.nread.toNat % size)

def pop (r : Ring α w) : Ring α w := { r with nread := r.nread + BitVec.ofNat w 1 }

end Ring

/-- **The elements between the counters** are `q`. -/
structure Holds (size : ℕ) (r : Ring α w) (q : List α) : Prop where
  count : (r.nwrite - r.nread).toNat = q.length
  le : q.length ≤ size
  cell : ∀ k x, q[k]? = some x → r.data ((r.nread.toNat + k) % size) = x

theorem holds_nil {r : Ring α w} (h : r.nwrite = r.nread) : Holds size r [] := by
  refine ⟨?_, Nat.zero_le _, fun k x hk => ?_⟩
  · rw [h, BitVec.sub_self]
    rfl
  · rw [getElem?_nil] at hk
    cases hk

namespace Holds

variable {r : Ring α w} {q : List α}

theorem nwrite_toNat (h : Holds size r q) : r.nwrite.toNat = (r.nread.toNat + q.length) % 2 ^ w := by
  rw [← h.count, ← BitVec.toNat_add, BitVec.add_comm, BitVec.sub_add_cancel]

theorem empty_iff (h : Holds size r q) : r.empty = true ↔ q = [] := by
  unfold Ring.empty
  rw [decide_eq_true_eq]
  constructor
  · intro he
    have hc := h.count
    rw [he, BitVec.sub_self] at hc
    exact eq_nil_of_length_eq_zero hc.symm
  · rintro rfl
    apply BitVec.eq_of_toNat_eq
    rw [h.nwrite_toNat, length_nil, Nat.add_zero, Nat.mod_eq_of_lt r.nread.isLt]

theorem full_iff (h : Holds size r q) (hlt : size < 2 ^ w) : r.full size = true ↔ q.length = size := by
  unfold Ring.full
  rw [decide_eq_true_eq]
  constructor
  · intro hf
    have hc := h.count
    rw [hf, BitVec.add_comm, BitVec.add_sub_cancel, BitVec.toNat_ofNat, Nat.mod_eq_of_lt hlt] at hc
    exact hc.symm
  · intro hq
    apply BitVec.eq_of_toNat_eq
    rw [h.nwrite_toNat, hq, BitVec.toNat_add, BitVec.toNat_ofNat, Nat.mod_eq_of_lt hlt]

theorem cell_wrap (hdvd : size ∣ 2 ^ w) (n k : ℕ) : (n % 2 ^ w + k) % size = (n + k) % size := by
  rw [Nat.add_mod, Nat.mod_mod_of_dvd _ hdvd, ← Nat.add_mod]

/-- **Storing an element** in a buffer that is not full. -/
theorem push (h : Holds size r q) (hdvd : size ∣ 2 ^ w) (hlt : size < 2 ^ w) (hroom : q.length < size) (x : α) :
    Holds size (r.push size x) (q ++ [x]) := by
  have hcell : r.nwrite.toNat % size = (r.nread.toNat + q.length) % size := by
    rw [h.nwrite_toNat]
    exact cell_wrap hdvd _ 0
  refine ⟨?_, ?_, fun k y hk => ?_⟩
  · have hc := h.count
    have hsub : r.nwrite + BitVec.ofNat w 1 - r.nread = r.nwrite - r.nread + BitVec.ofNat w 1 := by
      exact add_sub_right_comm _ _ _
    show (r.nwrite + BitVec.ofNat w 1 - r.nread).toNat = _
    rw [hsub, BitVec.toNat_add, hc, BitVec.toNat_ofNat, length_append, length_singleton,
      Nat.add_mod_mod, Nat.mod_eq_of_lt (by omega)]
  · rw [length_append, length_singleton]
    omega
  · show update r.data (r.nwrite.toNat % size) x ((r.nread.toNat + k) % size) = y
    rw [hcell]
    rcases Nat.lt_trichotomy k q.length with hlt' | rfl | hgt
    · -- the cells from the reader on are distinct, as fewer than `size` of them are taken
      have hne : (r.nread.toNat + k) % size ≠ (r.nread.toNat + q.length) % size := by
        intro he
        have hmod : k % size = q.length % size := Nat.ModEq.add_left_cancel' r.nread.toNat he
        rw [Nat.mod_eq_of_lt (by omega), Nat.mod_eq_of_lt hroom] at hmod
        omega
      rw [update_of_ne hne]
      rw [getElem?_append_left hlt'] at hk
      exact h.cell k y hk
    · rw [update_self]
      simpa using hk
    · rw [getElem?_eq_none (by simp; omega)] at hk
      cases hk

/-- **Taking the first element.** -/
theorem pop {x : α} (h : Holds size r (x :: q)) (hdvd : size ∣ 2 ^ w) :
    r.front size = x ∧ Holds size r.pop q := by
  refine ⟨h.cell 0 x rfl, ?_, ?_, fun k y hk => ?_⟩
  · have hc := h.count
    have hlen := (r.nwrite - r.nread).isLt
    have hsub : r.nwrite - (r.nread + BitVec.ofNat w 1) = r.nwrite - r.nread - BitVec.ofNat w 1 := by
      exact sub_add_eq_sub_sub _ _ _
    rw [length_cons] at hc
    show (r.nwrite - (r.nread + BitVec.ofNat w 1)).toNat = _
    have hone : (BitVec.ofNat w 1).toNat = 1 := by
      rw [BitVec.toNat_ofNat, Nat.mod_eq_of_lt (by omega)]
    rw [hsub, BitVec.toNat_sub_of_le (by rw [BitVec.le_def, hone]; omega), hc, hone]
    omega
  · have := h.le
    rw [length_cons] at this
    omega
  · have hcell := h.cell (k + 1) y hk
    show r.data (((r.nread + BitVec.ofNat w 1).toNat + k) % size) = y
    rw [BitVec.toNat_add, BitVec.toNat_ofNat, Nat.add_mod_mod, cell_wrap hdvd, ← hcell]
    congr 2
    omega

end Holds

end OsHonor.Base.RingBuffer
