import Mathlib.Data.UInt
import Mathlib.Tactic.Ring
import Mathlib.Tactic.Linarith

/-! # Byte buffers and little-endian numbers

A buffer of `n` bytes is a function `Fin n → UInt8`. `byte` reads a byte at a natural index (`0` beyond
the end), `splice off l` overwrites the bytes from `off` on by the list `l` (the effect of a `memcpy`
into the buffer) and `slice off len` reads a list back. Numbers of `w` bytes are stored little-endian:
`leVal w f` is the number whose bytes are `f 0, …, f (w-1)`, `leByte v k` byte `k` of `v`.

`leVal_leByte` and `leByte_leVal` say that the two are inverse to each other. -/

namespace OsHonor.Base.Bytes

/-! ### Little-endian numbers -/

/-- Byte `k` of the number `v`. -/
def leByte (v k : ℕ) : UInt8 := UInt8.ofNat (v / 256 ^ k)

/-- The number with the `w` bytes `f 0, …, f (w - 1)`, the lowest first. -/
def leVal : ℕ → (ℕ → UInt8) → ℕ
  | 0, _ => 0
  | w + 1, f => (f 0).toNat + 256 * leVal w fun k => f (k + 1)

theorem leVal_lt : ∀ (w : ℕ) (f : ℕ → UInt8), leVal w f < 256 ^ w
  | 0, _ => by simp [leVal]
  | w + 1, f => by
    have h1 := leVal_lt w fun k => f (k + 1)
    have h2 := (f 0).toNat_lt
    rw [leVal, pow_succ]
    omega

theorem leVal_congr : ∀ (w : ℕ) {f g : ℕ → UInt8}, (∀ k < w, f k = g k) → leVal w f = leVal w g
  | 0, _, _, _ => rfl
  | w + 1, f, g, h => by
    rw [leVal, leVal, h 0 (by omega), leVal_congr w fun k hk => h (k + 1) (by omega)]

theorem leByte_succ (v k : ℕ) : leByte v (k + 1) = leByte (v / 256) k := by
  unfold leByte
  rw [Nat.div_div_eq_div_mul, pow_succ, Nat.mul_comm]

/-- **Reading what was written.** -/
theorem leVal_leByte : ∀ (w v : ℕ), leVal w (leByte v) = v % 256 ^ w
  | 0, v => by simp [leVal, Nat.mod_one]
  | w + 1, v => by
    have ih := leVal_leByte w (v / 256)
    have hf : (fun k => leByte v (k + 1)) = leByte (v / 256) := funext (leByte_succ v)
    rw [leVal, hf, ih, pow_succ, Nat.mul_comm (256 ^ w), Nat.mod_mul]
    simp [leByte]

theorem leVal_leByte_of_lt {w v : ℕ} (h : v < 256 ^ w) : leVal w (leByte v) = v := by
  rw [leVal_leByte, Nat.mod_eq_of_lt h]

/-- **The bits of a number** are those of its bytes. -/
theorem testBit_leVal : ∀ (w : ℕ) (f : ℕ → UInt8) (k : ℕ), k < 8 * w →
    (leVal w f).testBit k = (f (k / 8)).toNat.testBit (k % 8)
  | 0, _, k, hk => absurd hk (by omega)
  | w + 1, f, k, hk => by
    have hlt : (f 0).toNat < 2 ^ 8 := (f 0).toNat_lt
    rw [leVal, Nat.add_comm, show (256 : ℕ) = 2 ^ 8 from rfl, Nat.testBit_two_pow_mul_add _ hlt]
    split_ifs with h8
    · rw [Nat.div_eq_of_lt h8, Nat.mod_eq_of_lt h8]
    · rw [testBit_leVal w _ (k - 8) (by omega), show (k - 8) % 8 = k % 8 by omega,
        show (k - 8) / 8 + 1 = k / 8 by omega]

/-! ### Buffers -/

/-- A buffer of `n` bytes. -/
abbrev Buf (n : ℕ) := Fin n → UInt8

namespace Buf

variable {n : ℕ}

/-- The byte at index `i`, `0` beyond the end. -/
def byte (b : Buf n) (i : ℕ) : UInt8 := if h : i < n then b ⟨i, h⟩ else 0

/-- The buffer with the bytes from `off` on overwritten by `l`. -/
def splice (off : ℕ) (l : List UInt8) (b : Buf n) : Buf n := fun i =>
  if off ≤ i.val ∧ i.val < off + l.length then l.getD (i.val - off) 0 else b i

/-- The `len` bytes from `off` on. -/
def slice (off len : ℕ) (b : Buf n) : List UInt8 := (List.range len).map fun k => b.byte (off + k)

/-- The number in the `w` bytes at `off`. -/
def getLe (w off : ℕ) (b : Buf n) : ℕ := leVal w fun k => b.byte (off + k)

/-- The buffer with the number `v` stored in the `w` bytes at `off`. -/
def setLe (w off v : ℕ) (b : Buf n) : Buf n := b.splice off ((List.range w).map (leByte v))

theorem byte_splice {off : ℕ} {l : List UInt8} {b : Buf n} {i : ℕ} (h : off + l.length ≤ n) :
    (b.splice off l).byte i =
      if off ≤ i ∧ i < off + l.length then l.getD (i - off) 0 else b.byte i := by
  unfold byte
  by_cases hi : i < n
  · simp only [hi, dif_pos, splice]
  · rw [dif_neg hi, dif_neg hi, if_neg (by omega)]

theorem getLe_congr {w off off' : ℕ} {b b' : Buf n} (h : ∀ k < w, b.byte (off + k) = b'.byte (off' + k)) :
    b.getLe w off = b'.getLe w off' := leVal_congr w h

theorem getLe_of_bytes {w off v : ℕ} {b : Buf n} (h : ∀ k < w, b.byte (off + k) = leByte v k)
    (hv : v < 256 ^ w) : b.getLe w off = v :=
  (leVal_congr w h).trans (leVal_leByte_of_lt hv)

theorem byte_setLe {w off v i : ℕ} {b : Buf n} (h : off + w ≤ n) :
    (b.setLe w off v).byte i = if off ≤ i ∧ i < off + w then leByte v (i - off) else b.byte i := by
  unfold setLe
  rw [byte_splice (by simpa using h)]
  simp only [List.length_map, List.length_range]
  split_ifs with hi
  · simp [show i - off < w by omega]
  · rfl

theorem getLe_setLe_self {w off v : ℕ} {b : Buf n} (h : off + w ≤ n) (hv : v < 256 ^ w) :
    (b.setLe w off v).getLe w off = v := by
  refine getLe_of_bytes (fun k hk => ?_) hv
  rw [byte_setLe h, if_pos (by omega)]
  congr 1
  omega

theorem getLe_setLe_of_disjoint {w off v w' off' : ℕ} {b : Buf n} (h : off + w ≤ n)
    (hd : off' + w' ≤ off ∨ off + w ≤ off') : (b.setLe w off v).getLe w' off' = b.getLe w' off' := by
  refine getLe_congr fun k hk => ?_
  rw [byte_setLe h, if_neg (by omega)]

end Buf

/-! ### Memories -/

section Copy

variable {α : Type*} {dst src : ℕ → α} {d s n a : ℕ}

/-- The effect of `memcpy` on a memory: `n` bytes from `s` on in `src` go to `d`. -/
def copy (dst src : ℕ → α) (d s n : ℕ) : ℕ → α := fun a =>
  if d ≤ a ∧ a < d + n then src (s + (a - d)) else dst a

theorem copy_of_mem (h : d ≤ a ∧ a < d + n) : copy dst src d s n a = src (s + (a - d)) := if_pos h

theorem copy_of_not_mem (h : ¬ (d ≤ a ∧ a < d + n)) : copy dst src d s n a = dst a := if_neg h

end Copy

end OsHonor.Base.Bytes
