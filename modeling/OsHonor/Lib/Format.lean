import Mathlib.Data.Nat.Digits.Defs

/-! # Numbers as text (`lib/format.c`)

`_print_int` divides the absolute value down in one loop, which fills a buffer of 64 characters with the
digits from the last to the first, and gives them out from behind in a second one. -/

namespace OsHonor.Lib.Format

open Option Function List

/-- `digit`. -/
def digit (d : ℕ) : Char := "0123456789abcdef".toList.getD d '\x00'

/-- The first loop of `_print_int`; `none` is a store behind the last of the `room` characters left. -/
def digitLoop (base : ℕ) : ℕ → (ℕ → Char) → ℕ → ℕ → Option ((ℕ → Char) × ℕ)
  | 0, _, _, _ => none
  | room + 1, buf, pos, v =>
    let buf := update buf pos (digit (v % base))
    let v := v / base
    if v ≠ 0 then digitLoop base room buf (pos + 1) v else some (buf, pos + 1)

/-- The second loop: what `put_char` gets. -/
def putLoop (buf : ℕ → Char) : ℕ → List Char
  | 0 => []
  | pos + 1 => buf pos :: putLoop buf pos

/-- `_print_int`: what `put_char` gets, from a buffer that holds anything. -/
def printInt (buf : ℕ → Char) (u : BitVec 64) (base : ℕ) (isSigned : Bool) : Option (List Char) := do
  let v := if isSigned ∧ u.toInt < 0 then -u else u
  let sign := if isSigned ∧ u.toInt < 0 then ['-'] else []
  let (buf, pos) ← digitLoop base 64 buf 0 v.toNat
  some (sign ++ putLoop buf pos)

/-! ### Reading the text -/

def digitValue (c : Char) : ℕ := "0123456789abcdef".toList.idxOf c

def readDigits (base : ℕ) (text : List Char) : ℕ := text.foldl (fun n c => n * base + digitValue c) 0

def readInt (base : ℕ) (text : List Char) : ℤ :=
  if text.head? = some '-' then -(readDigits base text.tail) else readDigits base text

variable {base : ℕ} {ds : List ℕ}

theorem readDigits_digits (hds : ∀ d ∈ ds, d < 16) :
    readDigits base (ds.reverse.map digit) = Nat.ofDigits base ds := by
  have hvalue : ∀ d < 16, digitValue (digit d) = d := by decide
  induction ds with
  | nil => rfl
  | cons d ds ih =>
    rw [forall_mem_cons] at hds
    rw [readDigits] at ih ⊢
    rw [reverse_cons, map_append, foldl_append, ih hds.2, Nat.ofDigits_cons]
    simp [hvalue d hds.1, Nat.mul_comm, Nat.add_comm]

/-- `ds` are the digits of `v`, the last one first, without a zero in front. -/
structure Digits (base v : ℕ) (ds : List ℕ) : Prop where
  ne_nil : ds ≠ []
  lt : ∀ d ∈ ds, d < base
  lead : ds.getLast? = some 0 → ds = [0]
  value : Nat.ofDigits base ds = v

theorem Digits.cons {v : ℕ} (h : Digits base (v / base) ds) (hb : 0 < base) (hv : v / base ≠ 0) :
    Digits base v (v % base :: ds) := by
  refine ⟨cons_ne_nil _ _, forall_mem_cons.mpr ⟨Nat.mod_lt v hb, h.lt⟩, fun hlast => ?_, ?_⟩
  · obtain ⟨d, ds, rfl⟩ := exists_cons_of_ne_nil h.ne_nil
    rw [getLast?_cons_cons] at hlast
    have hvalue := h.value
    rw [h.lead hlast] at hvalue
    exact absurd hvalue.symm (by simpa using hv)
  · rw [Nat.ofDigits_cons, h.value]
    exact Nat.mod_add_div v base

theorem putLoop_update (buf : ℕ → Char) (c : Char) : ∀ {n pos : ℕ}, n ≤ pos →
    putLoop (update buf pos c) n = putLoop buf n
  | 0, _, _ => rfl
  | n + 1, pos, h => by
    rw [putLoop, putLoop, putLoop_update buf c (Nat.le_of_succ_le h), update_of_ne (Nat.ne_of_lt h)]

/-- **The loops** give out the digits, if they fit. -/
theorem digitLoop_spec (hb : 2 ≤ base) (room : ℕ) (buf : ℕ → Char) (pos v : ℕ) (hv : v < base ^ (room + 1)) :
    ∃ buf' ds, digitLoop base (room + 1) buf pos v = some (buf', pos + ds.length) ∧ Digits base v ds ∧
      ds.length ≤ room + 1 ∧ putLoop buf' (pos + ds.length) = ds.reverse.map digit ++ putLoop buf pos := by
  induction room using Nat.strong_induction_on generalizing buf pos v with
  | _ room ih =>
    have hput : putLoop (update buf pos (digit (v % base))) (pos + 1) =
        digit (v % base) :: putLoop buf pos := by
      rw [putLoop, update_self, putLoop_update buf _ le_rfl]
    by_cases hdiv : v / base = 0
    · refine ⟨_, [v % base], by simp [digitLoop, hdiv], ⟨by simp, ?_, by simp, ?_⟩, by simp, hput⟩
      · simpa using Nat.mod_lt v (by omega)
      · simpa [hdiv] using Nat.mod_add_div v base
    · rcases room with _ | room
      · exact absurd (Nat.div_eq_of_lt (by simpa using hv)) hdiv
      · have hlt : v / base < base ^ (room + 1) := Nat.div_lt_of_lt_mul (by rwa [← Nat.pow_succ'])
        obtain ⟨buf', ds, hloop, hds, hlen, hrest⟩ := ih room (Nat.lt_succ_self room)
          (update buf pos (digit (v % base))) (pos + 1) (v / base) hlt
        have hpos : pos + (v % base :: ds).length = pos + 1 + ds.length := by
          rw [length_cons]
          omega
        refine ⟨buf', v % base :: ds, ?_, hds.cons (by omega) hdiv, Nat.succ_le_succ hlen, ?_⟩
        · rw [digitLoop, if_pos hdiv, hpos]
          exact hloop
        · rw [hpos, hrest, hput]
          simp

theorem toNat_abs (u : BitVec 64) : (if u.toInt < 0 then -u else u).toNat = u.toInt.natAbs := by
  split_ifs with hneg
  · rw [BitVec.toNat_neg, BitVec.toInt_eq_toNat_cond] at *
    split_ifs at * <;> omega
  · rw [BitVec.toInt_eq_toNat_cond] at *
    split_ifs at * <;> omega

/-- **Integer printing is canonical**: a sign for negative numbers, and the digits, the first of which is
no zero unless it is the only one. Read back, they give the number. -/
theorem printInt_canonical (buf : ℕ → Char) (u : BitVec 64) (hb : 2 ≤ base ∧ base ≤ 16) (isSigned : Bool) :
    ∃ ds : List ℕ, printInt buf u base isSigned =
        some ((if isSigned ∧ u.toInt < 0 then ['-'] else []) ++ ds.reverse.map digit) ∧
      ds.length ≤ 64 ∧ Digits base (if isSigned then u.toInt.natAbs else u.toNat) ds ∧
      (printInt buf u base isSigned).map (readInt base) = some (if isSigned then u.toInt else u.toNat) := by
  set neg : Prop := isSigned = true ∧ u.toInt < 0 with hneg
  have hv : (if neg then -u else u).toNat = if isSigned then u.toInt.natAbs else u.toNat := by
    rcases isSigned with _ | _
    · simp [hneg]
    · simpa [hneg] using toNat_abs u
  obtain ⟨buf', ds, hloop, hds, hlen, hput⟩ := digitLoop_spec hb.1 63 buf 0 _
    ((BitVec.isLt _).trans_le (Nat.pow_le_pow_left hb.1 64) : (if neg then -u else u).toNat < _)
  rw [Nat.zero_add] at hloop hput
  rw [putLoop, append_nil] at hput
  have hprint : printInt buf u base isSigned =
      some ((if neg then ['-'] else []) ++ ds.reverse.map digit) := by
    simp only [printInt, ← hneg, hloop, bind_eq_bind, bind_some, hput]
  have hread : readDigits base (ds.reverse.map digit) = (if neg then -u else u).toNat := by
    rw [readDigits_digits fun d hd => (hds.lt d hd).trans_le hb.2, hds.value]
  refine ⟨ds, hprint, hlen, hv ▸ hds, ?_⟩
  rw [hprint, map_some, some.injEq]
  by_cases hn : neg
  · rw [if_pos hn] at hv hread ⊢
    rw [hneg] at hn
    rw [if_pos hn.1] at hv ⊢
    rw [singleton_append, readInt, if_pos head?_cons, tail_cons, hread, hv]
    omega
  · rw [if_neg hn] at hv hread ⊢
    have hhead : (ds.reverse.map digit).head? ≠ some '-' := by
      have hminus : ∀ d < 16, digit d ≠ '-' := by decide
      rw [head?_map]
      intro he
      obtain ⟨d, hd, he⟩ := map_eq_some_iff.mp he
      exact hminus d ((hds.lt d (mem_reverse.mp (mem_of_mem_head? hd))).trans_le hb.2) he
    rw [nil_append, readInt, if_neg hhead, hread, hv]
    rcases isSigned with _ | _
    · simp
    · have hpos : ¬ u.toInt < 0 := fun h => hn (by rw [hneg]; exact ⟨rfl, h⟩)
      simp only [if_true]
      omega

/-- The most negative number. -/
theorem printInt_canonical_min : ∃ ds : List ℕ,
    printInt (fun _ => ' ') (BitVec.intMin 64) 10 true = some ('-' :: ds.reverse.map digit) ∧
      Digits 10 (2 ^ 63) ds := by
  obtain ⟨ds, hprint, -, hds, -⟩ :=
    printInt_canonical (fun _ => ' ') (BitVec.intMin 64) (by decide : 2 ≤ 10 ∧ 10 ≤ 16) true
  exact ⟨ds, hprint, hds⟩

end OsHonor.Lib.Format
