import OsHonor.Vm.PageTables.Entries

/-! # Bytes of user memory (`copy_to_user`, `vm/pgtbl.c`)

A page is 512 words, and byte `k` of a page is byte `k % 8` of its word `k / 8`. `byteAt_memcpy` says what the bytes
of all pages are after a copy. -/

namespace OsHonor.Vm.UserMemory

open Base.Radix Regions PageTables.Code PageTables.Entries

/-- Byte `k` of a word. -/
def getByte (w : Word) (k : ℕ) : UInt8 := UInt8.ofNat (w >>> (8 * k)).toNat

/-- A word with another byte `k`. -/
def setByte (w : Word) (k : ℕ) (b : UInt8) : Word :=
  (w &&& ~~~(255#64 <<< (8 * k))) ||| (BitVec.ofNat 64 b.toNat <<< (8 * k))

/-- The word of a page that byte `off` is in. -/
def wordAt (off : ℕ) : Idx := wordOf (BitVec.ofNat 64 off)

/-- Byte `off` of the page `n`. -/
def byteAt (s : Machine) (n off : ℕ) : UInt8 := getByte (s.mem n (wordAt off)) (off % 8)

/-- `memcpy` to the bytes of the page `n` from `off` on. -/
def memcpy (s : Machine) (n : ℕ) : ℕ → List UInt8 → Machine
  | _, [] => s
  | off, b :: bytes => memcpy (store s n (wordAt off) (setByte (s.mem n (wordAt off)) (off % 8) b)) n (off + 1) bytes

/-- The loop of `copy_to_user`: whether it succeeds, and the machine. -/
def copyToUserLoop (pt : ℕ) : ℕ → Machine → Word → List UInt8 → Option (Bool × Machine)
  | _, s, _, [] => some (true, s)
  | 0, _, _, _ :: _ => none
  | fuel + 1, s, va, b :: bytes =>
    match getPte s pt va true with
    | some (some (n, i), s) =>
      let pAddr := s.mem n i
      if pAddr = 0#64 then some (false, s)
      else
        let len := min (4096 - vaOffset va) (b :: bytes).length
        copyToUserLoop pt fuel (memcpy s (pageOf pAddr) (vaOffset va) ((b :: bytes).take len))
          (va + BitVec.ofNat 64 len) ((b :: bytes).drop len)
    | _ => none

/-- `copy_to_user`. Every turn of the loop copies a byte at least. -/
def copyToUser (s : Machine) (pt : ℕ) (va : Word) (bytes : List UInt8) : Option (Bool × Machine) :=
  copyToUserLoop pt bytes.length s va bytes

/-! ### Bytes -/

theorem getByte_eq (w : Word) (k : ℕ) : getByte w k = UInt8.ofBitVec (Base.BitFields.getByte w k) := by
  unfold getByte Base.BitFields.getByte
  rw [← BitVec.ofNat_toNat]
  rfl

theorem setByte_eq (w : Word) (k : ℕ) (b : UInt8) : setByte w k b = Base.BitFields.setByte w k b.toBitVec := by
  unfold setByte Base.BitFields.setByte
  rw [← BitVec.ofNat_toNat]
  rfl

theorem getByte_setByte (w : Word) {k j : ℕ} (hj : j < 8) (b : UInt8) :
    getByte (setByte w k b) j = if j = k then b else getByte w j := by
  rw [getByte_eq, setByte_eq, Base.BitFields.getByte_setByte w hj, getByte_eq]
  split_ifs <;> rfl

theorem getByte_zero (k : ℕ) : getByte 0#64 k = 0 := by
  unfold getByte
  rw [BitVec.zero_ushiftRight]
  rfl

theorem wordAt_val {off : ℕ} (h : off < 4096) : (wordAt off).val = off / 8 := by
  unfold wordAt wordOf
  rw [vaOffset_eq, BitVec.toNat_ofNat]
  show _ % 512 = _
  omega

section Copy

variable {s : Machine} {n off : ℕ}

theorem byteAt_store (b : UInt8) (n' : ℕ) {k : ℕ} (hoff : off < 4096) (hk : k < 4096) :
    byteAt (store s n (wordAt off) (setByte (s.mem n (wordAt off)) (off % 8) b)) n' k =
      if n' = n ∧ k = off then b else byteAt s n' k := by
  unfold byteAt store
  dsimp only
  by_cases hword : n' = n ∧ wordAt k = wordAt off
  · obtain ⟨rfl, hw⟩ := hword
    have hval := congrArg Fin.val hw
    rw [wordAt_val hk, wordAt_val hoff] at hval
    rw [hw, setEntry_self, getByte_setByte _ (Nat.mod_lt _ (by decide))]
    refine if_congr ?_ rfl rfl
    rw [eq_self_iff_true, true_and]
    omega
  · rw [setEntry_of_ne hword, if_neg]
    rintro ⟨rfl, rfl⟩
    exact hword ⟨rfl, rfl⟩

/-- **The bytes after a copy** to a page. -/
theorem byteAt_memcpy (n' : ℕ) {k : ℕ} (hk : k < 4096) : ∀ (bytes : List UInt8) (s : Machine) (off : ℕ),
    off + bytes.length ≤ 4096 → byteAt (memcpy s n off bytes) n' k =
      if n' = n ∧ off ≤ k ∧ k < off + bytes.length then bytes.getD (k - off) 0 else byteAt s n' k
  | [], s, off, _ => by
    rw [memcpy, if_neg]
    rintro ⟨-, h1, h2⟩
    rw [List.length_nil] at h2
    omega
  | b :: bytes, s, off, h => by
    rw [List.length_cons] at h ⊢
    rw [memcpy, byteAt_memcpy n' hk bytes _ (off + 1) (by omega), byteAt_store b n' (by omega) hk]
    by_cases hn : n' = n
    · rcases Nat.lt_trichotomy k off with hlt | rfl | hgt
      · rw [if_neg (by omega), if_neg (by omega), if_neg (by omega)]
      · rw [if_neg (by omega), if_pos ⟨hn, rfl⟩, if_pos ⟨hn, by omega⟩, Nat.sub_self, List.getD_cons_zero]
      · have hpos : k - off = (k - (off + 1)) + 1 := by omega
        rw [if_neg (c := n' = n ∧ k = off) (by omega), hpos, List.getD_cons_succ]
        refine if_congr ?_ rfl rfl
        omega
    · rw [if_neg (fun h => hn h.1), if_neg (fun h => hn h.1), if_neg (fun h => hn h.1)]

theorem memcpy_page {n' : ℕ} (hn : n' ≠ n) : ∀ (bytes : List UInt8) (s : Machine) (off : ℕ),
    (memcpy s n off bytes).mem n' = s.mem n'
  | [], _, _ => rfl
  | b :: bytes, s, off => by
    rw [memcpy, memcpy_page hn bytes]
    exact setEntry_page hn

theorem byteAt_memsetZero (s : Machine) (n k : ℕ) : byteAt (memsetZero s n) n k = 0 := by
  unfold byteAt memsetZero
  dsimp only
  rw [Function.update_self]
  exact getByte_zero _

theorem byteAt_congr {s' : Machine} (h : s'.mem n = s.mem n) (k : ℕ) : byteAt s' n k = byteAt s n k := by
  unfold byteAt
  rw [h]

end Copy

end OsHonor.Vm.UserMemory
