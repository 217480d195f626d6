import OsHonor.Vm.Regions

/-! # Checks of user pointers

`user_readable` and `user_writeable` compare the end of a range with the end of a region in 64-bit
arithmetic. `user_pointers` says that the checks are right for the ranges that do not reach the top of
the address space, and wrong for all others that they accept. -/

namespace OsHonor.Vm.UserPointers

open BitVec List Regions

variable {l : List Region} {start size : Word}

def Covers (v : Region) (start size : Word) : Prop :=
  ∀ i < size.toNat, v.first.toNat ≤ start.toNat + i ∧ start.toNat + i < v.last.toNat

def Readable (l : List Region) (start size : Word) : Prop := ∃ v ∈ l, Covers v start size

def Writeable (l : List Region) (start size : Word) : Prop :=
  ∃ v ∈ l, v.has vmrRo = false ∧ Covers v start size

def Wraps (start size : Word) : Prop := 0 < size.toNat ∧ 2 ^ 64 ≤ start.toNat + size.toNat

variable {v : Region} {iovec : Word → Word × Word} {last : Word}

theorem not_wraps_of_covers (h : Covers v start size) : ¬ Wraps start size := by
  rintro ⟨hpos, hwrap⟩
  have hlast := v.last.isLt
  have hstart := start.isLt
  have := (h (2 ^ 64 - 1 - start.toNat) (by omega)).2
  omega

theorem covers_of_check (hw : ¬ Wraps start size) (h1 : v.first ≤ start)
    (h2 : start + size ≤ v.last) : Covers v start size := by
  intro i hi
  have hsum : start.toNat + size.toNat < 2 ^ 64 := by
    by_contra hge
    exact hw ⟨by omega, by omega⟩
  rw [le_def] at h1 h2
  rw [toNat_add, Nat.mod_eq_of_lt hsum] at h2
  omega

/-- **What `user_readable` accepts is readable** if and only if it does not wrap. -/
theorem readable_iff (h : userReadable l start size = true) : Readable l start size ↔ ¬ Wraps start size := by
  constructor
  · rintro ⟨v, -, hv⟩
    exact not_wraps_of_covers hv
  · intro hw
    obtain ⟨v, hv, hc⟩ := any_eq_true.mp h
    obtain ⟨h1, h2⟩ := of_decide_eq_true hc
    exact ⟨v, hv, covers_of_check hw h1 h2⟩

/-- **What `user_writeable` accepts is writeable** if and only if it does not wrap. -/
theorem writeable_iff (h : userWriteable l start size = true) :
    Writeable l start size ↔ ¬ Wraps start size := by
  constructor
  · rintro ⟨v, -, -, hv⟩
    exact not_wraps_of_covers hv
  · intro hw
    obtain ⟨v, hv, hc⟩ := any_eq_true.mp h
    obtain ⟨hro, h1, h2⟩ := of_decide_eq_true hc
    exact ⟨v, hv, by simpa using hro, covers_of_check hw h1 h2⟩

/-! ### The system calls -/

/-- Memory of the user that a system call hands on, and whether it will be written. -/
structure Window where
  start : Word
  size : Word
  store : Bool

def Allowed (l : List Region) (w : Window) : Prop :=
  if w.store then Writeable l w.start w.size else Readable l w.start w.size

/-- The windows of the loop of `writev`; `iovec p` is what stands at `p`. -/
def writevLoop (l : List Region) (iovec : Word → Word × Word) (last : Word) : ℕ → Word → List Window
  | 0, _ => []
  | n + 1, p =>
    if p < last then
      let (iovBase, iovLen) := iovec p
      ⟨p, 16#64, false⟩ ::
        if userReadable l iovBase iovLen then
          ⟨iovBase, iovLen, false⟩ :: writevLoop l iovec last n (p + 16#64)
        else []
    else []

/-- The system calls with their registers. `opened` says whether `fd` is an open descriptor, and
`sizeofStat` is the size of a `struct stat`. -/
inductive Syscall
  | read (opened : Bool) (buffer : Word) (size : BitVec 32)
  | write (opened : Bool) (buffer : Word) (size : BitVec 32)
  | writev (opened : Bool) (iov : Word) (iovcnt : BitVec 32) (iovec : Word → Word × Word)
  | fstat (opened : Bool) (st sizeofStat : Word)

/-- The windows that a system call passes on to the file, or uses itself. -/
def windows (l : List Region) : Syscall → List Window
  | .read opened buffer size =>
    if ¬ opened ∨ size.toInt ≤ 0 ∨ ¬ userWriteable l buffer (size.signExtend 64) then []
    else [⟨buffer, size.signExtend 64, true⟩]
  | .write opened buffer size =>
    if ¬ opened ∨ size.toInt ≤ 0 ∨ ¬ userReadable l buffer (size.signExtend 64) then []
    else [⟨buffer, size.signExtend 64, false⟩]
  | .writev opened iov iovcnt iovec =>
    let bytes := 16#64 * iovcnt.signExtend 64
    if ¬ opened ∨ iovcnt.toInt ≤ 0 ∨ ¬ userReadable l iov bytes then []
    else writevLoop l iovec (iov + bytes) iovcnt.toNat iov
  | .fstat opened st sizeofStat =>
    if ¬ opened ∨ ¬ userWriteable l st sizeofStat then [] else [⟨st, sizeofStat, true⟩]

theorem writevLoop_allowed (hv : v ∈ l) :
    ∀ {n : ℕ} {p : Word}, p.toNat + 16 * n = last.toNat → v.first ≤ p → last ≤ v.last →
    ∀ w ∈ writevLoop l iovec last n p, Allowed l w ↔ ¬ Wraps w.start w.size
  | 0, _, _, _, _, w, hw => absurd hw not_mem_nil
  | n + 1, p, hp, h1, h2, w, hw => by
    have hlast := last.isLt
    have hnext : (p + 16#64).toNat = p.toNat + 16 := by
      rw [toNat_add]
      exact Nat.mod_eq_of_lt (by show p.toNat + 16 < _; omega)
    have hhead : Readable l p 16#64 := by
      refine ⟨v, hv, fun i hi => ?_⟩
      rw [le_def] at h1 h2
      have hi' : i < 16 := hi
      omega
    rw [writevLoop] at hw
    split_ifs at hw with hlt
    · rcases mem_cons.mp hw with rfl | hw
      · exact iff_of_true hhead (not_wraps_of_covers hhead.choose_spec.2)
      · split_ifs at hw with hread
        · rcases mem_cons.mp hw with rfl | hw
          · exact readable_iff hread
          · refine writevLoop_allowed hv (by omega) ?_ h2 w hw
            rw [le_def] at h1 ⊢
            omega
        · exact absurd hw not_mem_nil
    · exact absurd hw not_mem_nil

theorem toNat_signExtend {n : BitVec 32} (h : ¬ n.toInt ≤ 0) : (n.signExtend 64).toNat = n.toNat := by
  rw [toInt_eq_toNat_cond] at h
  rw [BitVec.toNat_signExtend]
  have hmsb : n.msb = false := by
    rw [msb_eq_decide]
    simp only [decide_eq_false_iff_not, not_le]
    split_ifs at h with hlt <;> omega
  have hlt := n.isLt
  rw [hmsb]
  simp
  omega

theorem writevLoop_wraps {p : Word} (h : ¬ p < last) (n : ℕ) :
    writevLoop l iovec last n p = [] := by
  cases n with
  | zero => rfl
  | succ n => rw [writevLoop, if_neg h]

/-- **The windows of a system call are allowed** if and only if they do not wrap. -/
theorem windows_allowed (call : Syscall) :
    ∀ w ∈ windows l call, Allowed l w ↔ ¬ Wraps w.start w.size := by
  intro w hw
  cases call with
  | read opened buffer size =>
    simp only [windows] at hw
    split_ifs at hw with hbad
    · exact absurd hw not_mem_nil
    · obtain rfl := mem_singleton.mp hw
      push Not at hbad
      exact writeable_iff (by simpa using hbad.2.2)
  | write opened buffer size =>
    simp only [windows] at hw
    split_ifs at hw with hbad
    · exact absurd hw not_mem_nil
    · obtain rfl := mem_singleton.mp hw
      push Not at hbad
      exact readable_iff (by simpa using hbad.2.2)
  | writev opened iov iovcnt iovec =>
    simp only [windows] at hw
    split_ifs at hw with hbad
    · exact absurd hw not_mem_nil
    · push Not at hbad
      obtain ⟨-, hcnt, hread⟩ := hbad
      have hcnt32 := iovcnt.isLt
      have hiov := iov.isLt
      have hbytes : (16#64 * iovcnt.signExtend 64).toNat = 16 * iovcnt.toNat := by
        rw [toNat_mul, toNat_signExtend (not_le.mpr hcnt)]
        exact Nat.mod_eq_of_lt (by show 16 * iovcnt.toNat < _; omega)
      have hsum := toNat_add iov (16#64 * iovcnt.signExtend 64)
      rw [hbytes] at hsum
      by_cases hwrap : 2 ^ 64 ≤ iov.toNat + 16 * iovcnt.toNat
      · rw [writevLoop_wraps] at hw
        · exact absurd hw not_mem_nil
        · rw [lt_def, hsum]
          omega
      · obtain ⟨v, hv, hc⟩ := any_eq_true.mp hread
        obtain ⟨h1, h2⟩ := of_decide_eq_true hc
        refine writevLoop_allowed hv ?_ h1 h2 w hw
        rw [hsum]
        omega
  | fstat opened st sizeofStat =>
    simp only [windows] at hw
    split_ifs at hw with hbad
    · exact absurd hw not_mem_nil
    · obtain rfl := mem_singleton.mp hw
      push Not at hbad
      exact writeable_iff (by simpa using hbad.2)

def everything : Region := ⟨0#64, 0#64, -1#64, initMmapInfo⟩

/-- **The checks of user pointers are sound** for the ranges that do not wrap, and for no others. A window
that `read`, `write`, `writev` or `fstat` hands on is in the regions of the caller if and only if it does
not wrap. -/
theorem user_pointers (start size : Word) :
    ((∀ l, userReadable l start size = true → Readable l start size) ↔ ¬ Wraps start size) ∧
    ((∀ l, userWriteable l start size = true → Writeable l start size) ↔ ¬ Wraps start size) ∧
    ∀ l call, ∀ w ∈ windows l call, Allowed l w ↔ ¬ Wraps w.start w.size := by
  have hend : start + size ≤ everything.last := by
    rw [le_def]
    have := (start + size).isLt
    show _ ≤ 2 ^ 64 - 1
    omega
  have hstart : everything.first ≤ start := by
    rw [le_def]
    exact Nat.zero_le _
  refine ⟨⟨fun h => ?_, fun hw l h => (readable_iff h).mpr hw⟩,
    ⟨fun h => ?_, fun hw l h => (writeable_iff h).mpr hw⟩, fun l call => windows_allowed call⟩
  · have hread : userReadable [everything] start size = true := by
      simp [userReadable, hstart, hend]
    exact (readable_iff hread).mp (h _ hread)
  · have hwrite : userWriteable [everything] start size = true := by
      have hro : everything.has vmrRo = false := by decide
      simp [userWriteable, hstart, hend, hro]
    exact (writeable_iff hwrite).mp (h _ hwrite)

/-- With one page of memory, `read` accepts a buffer of 32 bytes that begins 16 bytes below the top of the
address space. -/
theorem user_pointers_wrap :
    userReadable [⟨0#64, 4096#64, 8192#64, initMmapInfo⟩] (-16#64) 32#64 = true ∧
    ¬ Readable [⟨0#64, 4096#64, 8192#64, initMmapInfo⟩] (-16#64) 32#64 ∧
    ∃ w ∈ windows [⟨0#64, 4096#64, 8192#64, initMmapInfo⟩] (.read true (-16#64) 32#32),
      ¬ Allowed [⟨0#64, 4096#64, 8192#64, initMmapInfo⟩] w := by
  have hwraps : Wraps (-16#64) 32#64 := ⟨by decide, by decide⟩
  refine ⟨by decide, fun h => ?_, ⟨-16#64, 32#64, true⟩, ?_, fun h => ?_⟩
  · exact not_wraps_of_covers h.choose_spec.2 hwraps
  · exact mem_singleton.mpr rfl
  · exact not_wraps_of_covers h.choose_spec.2.2 hwraps

end OsHonor.Vm.UserPointers
