import OsHonor.Exec.Code

/-! # The program headers of an executable

Which headers of a file `execve` hands to `execve_load_section`. The offset at which a header is read has 16 bits, and
it only goes on after a segment that is loaded. So the first header that is not to be loaded is read again and again
until the count is through, and the ones behind it are never seen; and where the table goes beyond `2 ^ 16` the loop
reads somewhere else.

`handed` lists the offsets at which the loop finds a header to load, and `loadSegments_eq` says that the loop is this
list, loaded one after the other. `handed_iff` compares it with the table of the file. -/

namespace OsHonor.Exec.Headers

open List Code

def headerAt (file : List UInt8) (off : ℕ) : Phdr := parsePhdr (readFile file off sizeofPhdr)

def Loadable (file : List UInt8) (off : ℕ) : Prop := (headerAt file off).type = ptLoad

instance (file : List UInt8) (off : ℕ) : Decidable (Loadable file off) := inferInstanceAs (Decidable (_ = _))

def SizesOk (file : List UInt8) (off : ℕ) : Prop := (headerAt file off).filesz ≤ (headerAt file off).memsz

instance (file : List UInt8) (off : ℕ) : Decidable (SizesOk file off) := inferInstanceAs (Decidable (_ ≤ _))

/-- How the loop over the headers ends if everything is loaded: it is through, a header cannot be read, or the
assertion fails. -/
inductive Ending
  | done
  | short
  | panic
  deriving DecidableEq

/-- **The headers that are handed to `execve_load_section`**, by their offsets, if all of them are loaded. -/
def handed (file : List UInt8) : ℕ → ℕ → List ℕ × Ending
  | 0, _ => ([], .done)
  | n + 1, off =>
    if (readFile file off sizeofPhdr).length < sizeofPhdr then ([], .short)
    else if Loadable file off then
      if SizesOk file off then
        let r := handed file n ((off + sizeofPhdr) % 2 ^ 16)
        (off :: r.1, r.2)
      else ([], .panic)
    else handed file n off

/-- The segments of the headers at these offsets are loaded, one after the other until one of them fails. -/
def loadAll (base zeroPage : ℕ) (file : List UInt8) (ending : Ending) : List ℕ → Image → Option (Bool × Image)
  | [], im =>
    match ending with
    | .done => some (true, im)
    | .short => some (false, im)
    | .panic => none
  | off :: offs, im =>
    (loadSection base zeroPage file im (headerAt file off)).bind fun
      | (false, im) => some (false, im)
      | (true, im) => loadAll base zeroPage file ending offs im

/-- **The loop of `execve`** loads the segments of these headers. -/
theorem loadSegments_eq (base zeroPage : ℕ) (file : List UInt8) : ∀ (n off : ℕ) (im : Image),
    loadSegments base zeroPage file n off im =
      loadAll base zeroPage file (handed file n off).2 (handed file n off).1 im
  | 0, off, im => rfl
  | n + 1, off, im => by
    rw [loadSegments, handed]
    dsimp only
    by_cases hshort : (readFile file off sizeofPhdr).length < sizeofPhdr
    · rw [if_pos hshort, if_pos hshort]
      rfl
    · rw [if_neg hshort, if_neg hshort]
      by_cases hload : Loadable file off
      · have htype : (parsePhdr (readFile file off sizeofPhdr)).type = ptLoad := hload
        rw [if_neg (not_not.mpr htype), if_pos hload]
        by_cases hsizes : SizesOk file off
        · have hle : ¬ (parsePhdr (readFile file off sizeofPhdr)).memsz < (parsePhdr (readFile file off sizeofPhdr)).filesz :=
            BitVec.not_lt.mpr hsizes
          rw [if_neg hle, if_pos hsizes]
          dsimp only
          rw [loadAll]
          congr 1
          funext r
          obtain ⟨ok, im'⟩ := r
          cases ok with
          | false => rfl
          | true => exact loadSegments_eq base zeroPage file n _ im'
        · have hlt : (parsePhdr (readFile file off sizeofPhdr)).memsz < (parsePhdr (readFile file off sizeofPhdr)).filesz :=
            BitVec.not_le.mp hsizes
          rw [if_pos hlt, if_neg hsizes]
          rfl
      · have htype : (parsePhdr (readFile file off sizeofPhdr)).type ≠ ptLoad := hload
        rw [if_pos htype, if_neg hload]
        exact loadSegments_eq base zeroPage file n off im

/-- **The headers to load** of the table with `n` entries at `phoff`. -/
def toLoad (file : List UInt8) (n phoff : ℕ) : List ℕ :=
  ((List.range n).map fun i => phoff + sizeofPhdr * i).filter fun off => Loadable file off

/-- **The condition**: the headers to load are the first `m` of the table, they begin below `2 ^ 16` and pass the
assertion, and what the loop finds behind them is not to be loaded. -/
def InFront (file : List UInt8) (n phoff : ℕ) : Prop :=
  ∃ m, (∀ i < n, Loadable file (phoff + sizeofPhdr * i) ↔ i < m) ∧
    (∀ i < m, phoff + sizeofPhdr * i < 2 ^ 16 ∧ SizesOk file (phoff + sizeofPhdr * i)) ∧ m ≤ n ∧
    (m < n → ¬ Loadable file ((phoff + sizeofPhdr * m) % 2 ^ 16))

variable {off n phoff : ℕ}

section Loop

variable {file : List UInt8}

theorem handed_stuck (hread : ¬ (readFile file off sizeofPhdr).length < sizeofPhdr)
    (hload : ¬ Loadable file off) : ∀ n, handed file n off = ([], .done)
  | 0 => rfl
  | n + 1 => by
    rw [handed, if_neg hread, if_neg hload]
    exact handed_stuck hread hload n

theorem toLoad_succ (n phoff : ℕ) : toLoad file (n + 1) phoff =
    if Loadable file phoff then phoff :: toLoad file n (phoff + sizeofPhdr) else toLoad file n (phoff + sizeofPhdr) := by
  have hmap : (List.range (n + 1)).map (fun i => phoff + sizeofPhdr * i) =
      phoff :: (List.range n).map fun i => phoff + sizeofPhdr + sizeofPhdr * i := by
    rw [range_succ_eq_map, map_cons, map_map, Nat.mul_zero, Nat.add_zero]
    refine congrArg _ (map_congr_left fun i _ => ?_)
    rw [Function.comp_apply, Nat.mul_succ]
    omega
  unfold toLoad
  rw [hmap, filter_cons]
  by_cases h : Loadable file phoff
  · rw [if_pos (decide_eq_true h), if_pos h]
  · rw [if_neg (by simpa using h), if_neg h]

theorem le_of_mem_toLoad (h : off ∈ toLoad file n phoff) : phoff ≤ off := by
  obtain ⟨i, -, rfl⟩ := mem_map.mp (mem_filter.mp h).1
  exact Nat.le_add_right _ _

theorem toLoad_eq_nil :
    toLoad file n phoff = [] ↔ ∀ i < n, ¬ Loadable file (phoff + sizeofPhdr * i) := by
  unfold toLoad
  rw [filter_eq_nil_iff]
  constructor
  · intro h i hi
    simpa using h _ (mem_map.mpr ⟨i, mem_range.mpr hi, rfl⟩)
  · rintro h off hoff
    obtain ⟨i, hi, rfl⟩ := mem_map.mp hoff
    simpa using h i (mem_range.mp hi)

theorem handed_succ (hin : phoff + sizeofPhdr ≤ file.length) :
    handed file (n + 1) (phoff % 2 ^ 16) = (toLoad file (n + 1) phoff, .done) ↔
      (Loadable file (phoff % 2 ^ 16) ∧ phoff < 2 ^ 16 ∧ SizesOk file phoff ∧
        handed file n ((phoff + sizeofPhdr) % 2 ^ 16) = (toLoad file n (phoff + sizeofPhdr), .done)) ∨
      (¬ Loadable file (phoff % 2 ^ 16) ∧ toLoad file (n + 1) phoff = []) := by
  have hread : ¬ (readFile file (phoff % 2 ^ 16) sizeofPhdr).length < sizeofPhdr := by
    have hmod := Nat.mod_le phoff (2 ^ 16)
    unfold readFile
    rw [length_take, length_drop]
    omega
  by_cases hload : Loadable file (phoff % 2 ^ 16)
  · rw [handed, if_neg hread, if_pos hload, Nat.mod_add_mod]
    dsimp only
    by_cases hlow : phoff < 2 ^ 16
    · rw [Nat.mod_eq_of_lt hlow] at hload ⊢
      rw [toLoad_succ, if_pos hload]
      by_cases hsizes : SizesOk file phoff
      · rw [if_pos hsizes]
        constructor
        · intro h
          obtain ⟨hlist, hend⟩ := Prod.mk.inj h
          exact Or.inl ⟨hload, hlow, hsizes, Prod.ext (List.cons.inj hlist).2 hend⟩
        · rintro (⟨-, -, -, h⟩ | ⟨h, -⟩)
          · rw [h]
          · exact absurd hload h
      · rw [if_neg hsizes]
        refine iff_of_false (fun h => ?_) ?_
        · cases (Prod.mk.inj h).2
        · rintro (⟨-, -, h, -⟩ | ⟨h, -⟩)
          · exact hsizes h
          · exact h hload
    · -- everything in the table is beyond the offset that was read
      refine iff_of_false (fun h => ?_) ?_
      · by_cases hsizes : SizesOk file (phoff % 2 ^ 16)
        · rw [if_pos hsizes, Prod.mk.injEq] at h
          have hmem : phoff % 2 ^ 16 ∈ toLoad file (n + 1) phoff := by
            rw [← h.1]
            exact mem_cons_self
          have hle := le_of_mem_toLoad hmem
          omega
        · rw [if_neg hsizes, Prod.mk.injEq] at h
          cases h.2
      · rintro (⟨-, h, -⟩ | ⟨h, -⟩)
        · exact hlow h
        · exact h hload
  · rw [handed_stuck hread hload, Prod.mk.injEq]
    constructor
    · rintro ⟨h, -⟩
      exact Or.inr ⟨hload, h.symm⟩
    · rintro (⟨h, -⟩ | ⟨-, h⟩)
      · exact absurd h hload
      · exact ⟨h.symm, rfl⟩

theorem inFront_succ : InFront file (n + 1) phoff ↔
    (Loadable file (phoff % 2 ^ 16) ∧ phoff < 2 ^ 16 ∧ SizesOk file phoff ∧ InFront file n (phoff + sizeofPhdr)) ∨
      (¬ Loadable file (phoff % 2 ^ 16) ∧ toLoad file (n + 1) phoff = []) := by
  have hshift : ∀ i, phoff + sizeofPhdr * (i + 1) = phoff + sizeofPhdr + sizeofPhdr * i := by
    intro i
    rw [Nat.mul_succ]
    omega
  rw [toLoad_eq_nil]
  constructor
  · rintro ⟨m, hfirst, hlow, hle, hnext⟩
    cases m with
    | zero => exact Or.inr ⟨hnext (Nat.succ_pos n), fun i hi h => absurd ((hfirst i hi).mp h) (Nat.not_lt_zero i)⟩
    | succ m =>
      have hhead := hlow 0 (Nat.succ_pos m)
      have hload := (hfirst 0 (Nat.succ_pos n)).mpr (Nat.succ_pos m)
      rw [Nat.mul_zero, Nat.add_zero] at hhead hload
      refine Or.inl ⟨by rwa [Nat.mod_eq_of_lt hhead.1], hhead.1, hhead.2, m, fun i hi => ?_, fun i hi => ?_,
        Nat.le_of_succ_le_succ hle, fun hlt => ?_⟩
      · rw [← hshift, hfirst (i + 1) (Nat.succ_lt_succ hi)]
        exact Nat.succ_lt_succ_iff
      · rw [← hshift]
        exact hlow (i + 1) (Nat.succ_lt_succ hi)
      · rw [← hshift]
        exact hnext (Nat.succ_lt_succ hlt)
  · rintro (⟨hload, hhead, hsizes, m, hfirst, hlow, hle, hnext⟩ | ⟨hload, hnone⟩)
    · rw [Nat.mod_eq_of_lt hhead] at hload
      refine ⟨m + 1, fun i hi => ?_, fun i hi => ?_, Nat.succ_le_succ hle, fun hlt => ?_⟩
      · cases i with
        | zero => exact iff_of_true hload (Nat.succ_pos m)
        | succ i =>
          rw [hshift, hfirst i (Nat.lt_of_succ_lt_succ hi)]
          exact Nat.succ_lt_succ_iff.symm
      · cases i with
        | zero => exact ⟨hhead, hsizes⟩
        | succ i =>
          rw [hshift]
          exact hlow i (Nat.lt_of_succ_lt_succ hi)
      · rw [hshift]
        exact hnext (Nat.lt_of_succ_lt_succ hlt)
    · refine ⟨0, fun i hi => iff_of_false (hnone i hi) (Nat.not_lt_zero i), fun i hi => absurd hi (Nat.not_lt_zero i),
        Nat.zero_le _, fun _ => hload⟩

end Loop

/-- **The headers to load are handed on**, all of them, in order, and no others, if and only if they are in front. -/
theorem handed_iff (file : List UInt8) : ∀ (n phoff : ℕ), phoff + sizeofPhdr * n ≤ file.length →
    (handed file n (phoff % 2 ^ 16) = (toLoad file n phoff, .done) ↔ InFront file n phoff)
  | 0, phoff, _ => by
    refine iff_of_true rfl ⟨0, fun i hi => absurd hi (Nat.not_lt_zero i), fun i hi => absurd hi (Nat.not_lt_zero i), le_rfl,
      fun h => absurd h (Nat.not_lt_zero 0)⟩
  | n + 1, phoff, hin => by
    rw [Nat.mul_succ] at hin
    rw [handed_succ (by omega), inFront_succ, handed_iff file n (phoff + sizeofPhdr) (by omega)]

def hidden : List UInt8 :=
  elfMag ++ List.replicate 28 0 ++ [64, 0, 0, 0, 0, 0, 0, 0] ++ List.replicate 16 0 ++ [2, 0] ++ List.replicate 6 0 ++
    List.replicate 56 0 ++ [1, 0, 0, 0, 5, 0, 0, 0] ++ List.replicate 48 0

/-- **It is not loaded.** -/
theorem second_not_handed : (parseEhdr (readFile hidden 0 sizeofEhdr)).ident.take 4 = elfMag ∧
    (parseEhdr (readFile hidden 0 sizeofEhdr)).phoff = 64 ∧ (parseEhdr (readFile hidden 0 sizeofEhdr)).phnum = 2 ∧
    hidden.length = 64 + sizeofPhdr * 2 ∧ toLoad hidden 2 64 = [120] ∧ handed hidden 2 64 = ([], .done) := by
  decide +kernel

/-- The table at its second header is a table with one header to load. -/
theorem handed_single : handed hidden 1 120 = (toLoad hidden 1 120, .done) := by
  refine (handed_iff hidden 1 120 (by decide +kernel)).mpr ⟨1, fun i hi => ?_, fun i hi => ?_, le_rfl,
    fun h => absurd h (lt_irrefl 1)⟩
  · rw [Nat.lt_one_iff.mp hi]
    decide +kernel
  · rw [Nat.lt_one_iff.mp hi]
    decide +kernel

end OsHonor.Exec.Headers
