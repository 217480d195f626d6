import OsHonor.Base.Runs
import OsHonor.Vm.Regions

/-! # Regions that overlap

The calls that edit the regions of a process test for overlap in three ways, none of which is complete.
`regions_disjoint` says what a call must leave alone for the regions to stay disjoint: `create_vmregion`
and `mmap` do not see a region that lies inside the new one, `mmap` without a hint does not look at the
stack, `sbrk` does not take back a heap that has grown too far, and `munmap` moves the begin of a region
whatever part of it is unmapped. -/

namespace OsHonor.Vm.Overlap

open List Base.Runs Regions

def Apart (v w : Region) : Prop := ∀ a : Word, ¬ ((v.first ≤ a ∧ a < v.last) ∧ w.first ≤ a ∧ a < w.last)

/-- **The regions are disjoint** intervals. -/
def Tidy (l : List Region) : Prop := l.Pairwise Apart ∧ ∀ v ∈ l, v.first ≤ v.last

variable {v w : Region} {i : ℕ} {a first addr length : Word}

theorem apart_iff : Apart v w ↔
    v.last ≤ v.first ∨ w.last ≤ w.first ∨ v.last ≤ w.first ∨ w.last ≤ v.first := by
  constructor
  · intro h
    by_contra hno
    have h1 := h v.first
    have h2 := h w.first
    simp only [BitVec.le_def, BitVec.lt_def] at *
    omega
  · intro h a ha
    simp only [BitVec.le_def, BitVec.lt_def] at *
    omega

theorem Apart.symm (h : Apart v w) : Apart w v := by
  rw [apart_iff] at *
  tauto

/-! ### Lists -/

theorem pairwise_concat {l : List Region} (hl : l.Pairwise Apart) (h : ∀ w ∈ l, Apart w v) :
    (l ++ [v]).Pairwise Apart := by
  refine pairwise_append.mpr ⟨hl, pairwise_singleton _ _, fun w hw u hu => ?_⟩
  rw [mem_singleton.mp hu]
  exact h w hw

theorem pairwise_set {l : List Region} (hl : l.Pairwise Apart)
    (h : ∀ j w, l[j]? = some w → j ≠ i → Apart v w) : (l.set i v).Pairwise Apart := by
  rw [pairwise_iff_getElem] at hl ⊢
  intro j k hj hk hjk
  rw [length_set] at hj hk
  rw [getElem_set, getElem_set]
  split_ifs with hij hik hik
  · omega
  · exact h k _ (getElem?_eq_getElem hk) (by omega)
  · exact (h j _ (getElem?_eq_getElem hj) (by omega)).symm
  · exact hl j k hj hk hjk

theorem tidy_singleton (h : v.first ≤ v.last) : Tidy [v] := by
  refine ⟨pairwise_singleton _ _, fun w hw => ?_⟩
  rw [mem_singleton.mp hw]
  exact h

theorem Tidy.set {l : List Region} (hl : Tidy l) (hv : v.first ≤ v.last)
    (h : ∀ j w, l[j]? = some w → j ≠ i → Apart v w) : Tidy (l.set i v) := by
  refine ⟨pairwise_set hl.1 h, fun w hw => ?_⟩
  rcases mem_or_eq_of_mem_set hw with hw | rfl
  · exact hl.2 w hw
  · exact hv

theorem Tidy.concat {l : List Region} (hl : Tidy l) (hv : v.first ≤ v.last)
    (h : ∀ w ∈ l, Apart w v) : Tidy (l ++ [v]) := by
  refine ⟨pairwise_concat hl.1 h, fun w hw => ?_⟩
  rcases mem_append.mp hw with hw | hw
  · exact hl.2 w hw
  · rw [mem_singleton.mp hw]
    exact hv

theorem Tidy.other {l : List Region} {j : ℕ} (hl : Tidy l) (hi : l[i]? = some v)
    (hj : l[j]? = some w) (hne : j ≠ i) : Apart v w := by
  obtain ⟨hil, rfl⟩ := List.getElem?_eq_some_iff.mp hi
  obtain ⟨hjl, rfl⟩ := List.getElem?_eq_some_iff.mp hj
  have hpair := pairwise_iff_getElem.mp hl.1
  rcases Nat.lt_or_gt_of_ne hne with h | h
  · exact (hpair j i hjl hil h).symm
  · exact hpair i j hil hjl h

theorem findRegion_spec {p : Region → Bool} {l : List Region}
    (h : findRegion p l = some (i, v)) : l[i]? = some v ∧ p v = true := by
  obtain ⟨j, -, hj⟩ := exists_of_findSome?_eq_some h
  obtain ⟨w, hw, hp⟩ := Option.bind_eq_some_iff.mp hj
  split_ifs at hp with hpw
  cases hp
  exact ⟨hw, hpw⟩

theorem mem_order {n : ℕ} : i ∈ order n ↔ i < n := by
  cases n with
  | zero => simp [order]
  | succ n =>
    rw [order, mem_append, mem_map, mem_singleton]
    constructor
    · rintro (⟨j, hj, rfl⟩ | rfl)
      · have hlt := mem_range.mp hj
        omega
      · omega
    · intro hi
      rcases Nat.eq_zero_or_pos i with rfl | hpos
      · exact Or.inr rfl
      · exact Or.inl ⟨i - 1, mem_range.mpr (by omega), by omega⟩

theorem findRegion_none {p : Region → Bool} {l : List Region} (h : findRegion p l = none) : ∀ v ∈ l, p v = false := by
  intro v hv
  obtain ⟨i, hi, rfl⟩ := getElem_of_mem hv
  have hno := findSome?_eq_none_iff.mp h i (mem_order.mpr hi)
  rw [getElem?_eq_getElem hi, Option.bind_some] at hno
  split_ifs at hno with hp
  rwa [Bool.not_eq_true] at hp

/-- **The region of an address** is the one that is found, if the regions are disjoint. -/
theorem Tidy.findRegion {l : List Region} (hl : Tidy l) (hi : l[i]? = some v)
    (ha : v.first ≤ a ∧ a < v.last) : findRegion (fun v => v.first ≤ a ∧ a < v.last) l = some (i, v) := by
  obtain ⟨hil, rfl⟩ := List.getElem?_eq_some_iff.mp hi
  cases hf : Regions.findRegion (fun v => v.first ≤ a ∧ a < v.last) l with
  | none =>
    have hno := findRegion_none hf l[i] (getElem_mem hil)
    exact absurd ha (of_decide_eq_false hno)
  | some x =>
    obtain ⟨j, w⟩ := x
    obtain ⟨hj, hw⟩ := findRegion_spec hf
    by_cases hne : j = i
    · subst hne
      rw [← Option.some.inj (hi.symm.trans hj)]
    · exact absurd ⟨ha, of_decide_eq_true hw⟩ (hl.other hi hj hne a)

theorem Tidy.unique {l : List Region} (hl : Tidy l) (hv : v ∈ l) (hw : w ∈ l)
    (hva : v.first ≤ a ∧ a < v.last) (hwa : w.first ≤ a ∧ a < w.last) : v = w := by
  obtain ⟨i, hi⟩ := mem_iff_getElem?.mp hv
  obtain ⟨j, hj⟩ := mem_iff_getElem?.mp hw
  have hsame := (hl.findRegion hi hva).symm.trans (hl.findRegion hj hwa)
  exact (Prod.mk.inj (Option.some.inj hsame)).2

/-! ### The calls -/

/-- The regions of a process, and whether one of them has been freed. -/
structure Space where
  regions : List Region
  dangling : Bool
  deriving DecidableEq

inductive Call
  | create (flags first len : Word)
  | sbrk (size : Word)
  | mmap (addr length : Word) (prot flags fp : ℕ) (f : File) (offset : Word)
  | munmap (addr length : Word)

/-- A call; `none` if it does not return, or if the list holds a region that has been freed. The length of
`mmap` is a positive `int`. -/
def step (s : Space) (c : Call) : Option Space :=
  if s.dangling then none
  else
    match c with
    | .create flags first len => some ⟨(createVmregion s.regions flags first len).1, false⟩
    | .sbrk size => (Regions.sbrk s.regions size).map fun r => ⟨r.regions, false⟩
    | .mmap addr length prot flags fp f offset =>
      if 0 < length.toNat ∧ length.toNat < 2 ^ 31 then
        some ⟨(Regions.mmap s.regions addr length prot flags fp f offset).regions, false⟩
      else none
    | .munmap addr length => (Regions.munmap s.regions addr length).map fun r => ⟨r.1.regions, r.2⟩

def NoneInside (l : List Region) (first last : Word) : Prop :=
  ∀ v ∈ l, v.first < v.last → ¬ (first ≤ v.first ∧ v.last ≤ last)

def Permitted (prot flags : ℕ) (f : File) : Prop :=
  ¬ ((prot.testBit 1 ∧ ¬ f.writable ∧ ¬ flags.testBit 1) ∨ (prot.testBit 0 ∧ ¬ f.readable))

/-- **The condition** on a call. It binds only a call that the tests of the source let through. -/
def Careful (s : Space) : Call → Prop
  | .create _ first len => checkVmregionIntersection s.regions first (first + len) = false →
    first ≤ first + len ∧ NoneInside s.regions first (first + len)
  | .sbrk size => ∀ i v, findRegion (·.has vmrHeap) s.regions = some (i, v) →
    v.first ≤ v.last + size ∧
      ∀ j w, s.regions[j]? = some w → j ≠ i → Apart { v with last := v.last + size } w
  | .mmap addr length prot flags _ f _ => Permitted prot flags f →
    mmapGetAddr addr length s.regions ≠ 0#64 →
    mmapGetAddr addr length s.regions ≤ mmapGetAddr addr length s.regions + length ∧
      (addr = 0#64 → ∀ v ∈ s.regions, v.has vmrStack → v.first < v.last →
        mmapGetAddr addr length s.regions + length ≤ v.first ∨
          v.last ≤ mmapGetAddr addr length s.regions) ∧
      (addr ≠ 0#64 → NoneInside s.regions (mmapGetAddr addr length s.regions)
        (mmapGetAddr addr length s.regions + length))
  | .munmap addr length =>
    ∀ i v, findRegion (fun v => v.first ≤ addr ∧ addr < v.last) s.regions = some (i, v) →
      length < v.last - v.first →
        addr.toNat + length.toNat ≤ v.last.toNat ∧ length ≠ v.last - (addr + length)

section Calls

variable {l : List Region}

theorem apart_of_check {last : Word}
    (hcheck : checkVmregionIntersection l first last = false) (hin : NoneInside l first last)
    {flags : Word} {info : MmapInfo} : ∀ v ∈ l, Apart v ⟨flags, first, last, info⟩ := by
  intro v hv
  have hno := hin v hv
  have hc := any_eq_false.mp hcheck v hv
  rw [decide_eq_true_eq] at hc
  rw [apart_iff]
  simp only [BitVec.le_def, BitVec.lt_def] at hno hc ⊢
  omega

theorem tidy_create {flags len : Word} (hl : Tidy l)
    (h : checkVmregionIntersection l first (first + len) = false →
      first ≤ first + len ∧ NoneInside l first (first + len)) :
    Tidy (createVmregion l flags first len).1 := by
  unfold createVmregion
  split_ifs with hcheck
  · exact hl
  · rw [Bool.not_eq_true] at hcheck
    obtain ⟨hle, hin⟩ := h hcheck
    exact hl.concat hle (apart_of_check hcheck hin)

theorem sbrk_regions {size : Word} {r : Result} (h : Regions.sbrk l size = some r) :
    r.regions = l ∨ ∃ i v, findRegion (·.has vmrHeap) l = some (i, v) ∧
      r.regions = l.set i { v with last := v.last + size } := by
  unfold Regions.sbrk at h
  split_ifs at h
  cases hf : findRegion (·.has vmrHeap) l with
  | none =>
    rw [hf] at h
    cases h
    exact Or.inl rfl
  | some x =>
    obtain ⟨i, v⟩ := x
    rw [hf] at h
    dsimp only at h
    refine Or.inr ⟨i, v, rfl, ?_⟩
    split_ifs at h <;> · cases h; rfl

theorem le_bound (v : Region) (hs : ¬ v.has vmrStack) : ∀ (l : List Region) (a : Word), v ∈ l ∨ v.last ≤ a →
    v.last ≤ l.foldl (fun start vmr => if ¬ vmr.has vmrStack ∧ start < vmr.last then vmr.last else start) a
  | [], a, h => by
    rcases h with h | h
    · exact absurd h not_mem_nil
    · exact h
  | w :: l, a, h => by
    rw [foldl_cons]
    refine le_bound v hs l _ ?_
    rcases h with h | h
    · rcases mem_cons.mp h with rfl | h
      · refine Or.inr ?_
        split_ifs with hc
        · exact BitVec.le_refl _
        · simp only [hs, not_false_eq_true, true_and, BitVec.not_lt, Bool.false_eq_true] at hc
          exact hc
      · exact Or.inl h
    · refine Or.inr ?_
      split_ifs with hc
      · exact BitVec.le_trans h (BitVec.le_of_lt hc.2)
      · exact h

theorem le_roundUp (h : roundUp a pageSize ≠ 0#64) : a ≤ roundUp a pageSize := by
  have hsum : (a + pageSize - 1#64).toNat = (a.toNat + 4095) % 2 ^ 64 := by
    unfold pageSize
    bv_omega
  have hround : (roundUp a pageSize).toNat =
      (a.toNat + 4095) % 2 ^ 64 - (a.toNat + 4095) % 2 ^ 64 % 4096 := by
    unfold roundUp
    have hle : (a + pageSize - 1#64) % pageSize ≤ a + pageSize - 1#64 := by
      rw [BitVec.le_def, BitVec.toNat_umod]
      exact Nat.mod_le _ _
    rw [BitVec.toNat_sub_of_le hle, BitVec.toNat_umod, hsum]
    rfl
  have hne : (roundUp a pageSize).toNat ≠ 0 := fun h0 => h (BitVec.eq_of_toNat_eq h0)
  have ha := a.isLt
  rw [BitVec.le_def, hround]
  rw [hround] at hne
  omega

theorem mmapGetAddr_hint (ha : addr ≠ 0#64) (h : mmapGetAddr addr length l ≠ 0#64) :
    checkVmregionIntersection l (mmapGetAddr addr length l) (mmapGetAddr addr length l + length) = false := by
  unfold mmapGetAddr at h ⊢
  rw [if_neg ha] at h ⊢
  dsimp only at h ⊢
  split_ifs at h ⊢ with hc
  · exact absurd rfl h
  · rwa [Bool.not_eq_true] at hc

theorem mmapGetAddr_zero (h : mmapGetAddr 0#64 length l ≠ 0#64) (hv : v ∈ l)
    (hs : ¬ v.has vmrStack) : v.last ≤ mmapGetAddr 0#64 length l :=
  BitVec.le_trans (le_bound v hs l 0#64 (Or.inl hv)) (le_roundUp h)

theorem tidy_mmap {prot flags fp : ℕ} {f : File} {offset : Word} {d : Bool} (hl : Tidy l)
    (h : Careful ⟨l, d⟩ (.mmap addr length prot flags fp f offset)) :
    Tidy (Regions.mmap l addr length prot flags fp f offset).regions := by
  unfold Regions.mmap
  dsimp only
  split_ifs with hperm hzero
  · exact hl
  · exact hl
  · obtain ⟨hle, hstack, hin⟩ := h hperm hzero
    refine hl.concat hle fun v hv => ?_
    by_cases ha : addr = 0#64
    · subst ha
      -- the search for a place skips the stack, so the condition has to speak of it
      by_cases hs : v.has vmrStack
      · rw [apart_iff]
        by_cases hne : v.first < v.last
        · rcases hstack rfl v hv hs hne with h' | h'
          · exact Or.inr (Or.inr (Or.inr h'))
          · exact Or.inr (Or.inr (Or.inl h'))
        · exact Or.inl (BitVec.not_lt.mp hne)
      · exact apart_iff.mpr (Or.inr (Or.inr (Or.inl (mmapGetAddr_zero hzero hv hs))))
    · exact apart_of_check (mmapGetAddr_hint ha hzero) (hin ha) v hv

theorem munmap_regions {r : Result × Bool} (h : Regions.munmap l addr length = some r) :
    (r.1.regions = l ∧ r.2 = false) ∨
    (∃ i v, findRegion (fun v => v.first ≤ addr ∧ addr < v.last) l = some (i, v) ∧
      length < v.last - v.first ∧ r.1.regions = l.set i { v with first := addr + length } ∧
      r.2 = decide (length = v.last - (addr + length))) ∨
    ∃ i, r.1.regions = l.eraseIdx i ∧ r.2 = false := by
  unfold Regions.munmap at h
  cases hf : findRegion (fun v => v.first ≤ addr ∧ addr < v.last) l with
  | none =>
    rw [hf] at h
    cases h
    exact Or.inl ⟨rfl, rfl⟩
  | some x =>
    obtain ⟨i, v⟩ := x
    rw [hf] at h
    dsimp only at h
    generalize (if v.mmapInfo.flags.testBit 0 = true then none else some (addr, addr + length)) = u at h
    split_ifs at h with hlt hnull heq hnull
    · cases h
      exact Or.inr (Or.inl ⟨i, v, rfl, hlt, rfl, rfl⟩)
    · cases h
      exact Or.inr (Or.inr ⟨i, rfl, rfl⟩)
    · cases h
      exact Or.inl ⟨rfl, rfl⟩

theorem tidy_cut (hl : Tidy l) (hi : l[i]? = some v)
    (hge : v.first ≤ first) (hle : first ≤ v.last) : Tidy (l.set i { v with first := first }) := by
  refine hl.set hle fun j w hj hne => ?_
  exact fun a ha => hl.other hi hj hne a ⟨⟨BitVec.le_trans hge ha.1.1, ha.1.2⟩, ha.2⟩

end Calls

/-! ### Runs -/

def Inv (s : Space) : Prop := Tidy s.regions ∧ s.dangling = false

theorem inv_step {s s' : Space} {c : Call} (hs : Inv s) (hc : Careful s c) (h : step s c = some s') :
    Inv s' := by
  obtain ⟨l, d⟩ := s
  obtain ⟨hl, rfl⟩ := hs
  unfold step at h
  rw [if_neg Bool.false_ne_true] at h
  cases c with
  | create flags first len =>
    cases h
    exact ⟨tidy_create hl hc, rfl⟩
  | sbrk size =>
    obtain ⟨r, hr, rfl⟩ := Option.map_eq_some_iff.mp h
    refine ⟨?_, rfl⟩
    rcases sbrk_regions hr with he | ⟨i, v, hf, he⟩
    · exact he ▸ hl
    · obtain ⟨hle, hothers⟩ := hc i v hf
      exact he ▸ hl.set hle hothers
  | mmap addr length prot flags fp f offset =>
    dsimp only at h
    split_ifs at h
    cases h
    exact ⟨tidy_mmap hl hc, rfl⟩
  | munmap addr length =>
    obtain ⟨r, hr, rfl⟩ := Option.map_eq_some_iff.mp h
    rcases munmap_regions hr with ⟨he, hd⟩ | ⟨i, v, hf, hlt, he, hd⟩ | ⟨i, he, hd⟩
    · exact ⟨he ▸ hl, hd⟩
    · obtain ⟨hle, hne⟩ := hc i v hf hlt
      obtain ⟨hi, hp⟩ := findRegion_spec hf
      rw [decide_eq_true_eq] at hp
      refine ⟨he ▸ tidy_cut hl hi ?_ ?_, by rw [hd]; exact decide_eq_false hne⟩
      · have hv := v.last.isLt
        rw [BitVec.le_def] at hp ⊢
        rw [BitVec.toNat_add, Nat.mod_eq_of_lt (by omega)]
        omega
      · have hv := v.last.isLt
        rw [BitVec.le_def, BitVec.toNat_add, Nat.mod_eq_of_lt (by omega)]
        exact hle
    · exact ⟨he ▸ ⟨hl.1.sublist (eraseIdx_sublist _ _),
        fun v hv => hl.2 v (mem_of_mem_eraseIdx hv)⟩, hd⟩

/-- **Regions stay disjoint** in a run of careful calls. -/
theorem regions_disjoint {cs : List Call} {s : Space} (h : Run step Careful ⟨[], false⟩ cs s) :
    s.regions.Pairwise Apart ∧ ∀ v ∈ s.regions, v.first ≤ v.last := by
  have hinv : Inv s := h.inv (fun _ _ _ hs hc hstep => inv_step hs hc hstep)
    ⟨⟨List.Pairwise.nil, fun v hv => absurd hv not_mem_nil⟩, rfl⟩
  exact hinv.1

/-- A heap that grows by a page, and a file of three pages behind it, the first of which is unmapped. -/
theorem regions_disjoint_heapAndFile : [(⟨vmrHeap, 4096#64, 12288#64, initMmapInfo⟩ : Region),
      ⟨vmrMm, 16384#64, 24576#64, ⟨some 0, 0#64, 1, 2⟩⟩].Pairwise Apart ∧
    ∀ v ∈ [(⟨vmrHeap, 4096#64, 12288#64, initMmapInfo⟩ : Region),
      ⟨vmrMm, 16384#64, 24576#64, ⟨some 0, 0#64, 1, 2⟩⟩], v.first ≤ v.last := by
  let heap : Region := ⟨vmrHeap, 4096#64, 8192#64, initMmapInfo⟩
  let grown : Region := ⟨vmrHeap, 4096#64, 12288#64, initMmapInfo⟩
  let file : Region := ⟨vmrMm, 12288#64, 24576#64, ⟨some 0, 0#64, 1, 2⟩⟩
  let cut : Region := ⟨vmrMm, 16384#64, 24576#64, ⟨some 0, 0#64, 1, 2⟩⟩
  have hcreate : step ⟨[], false⟩ (.create vmrHeap 4096#64 4096#64) = some ⟨[heap], false⟩ := by decide +kernel
  have hsbrk : step ⟨[heap], false⟩ (.sbrk 4096#64) = some ⟨[grown], false⟩ := by decide +kernel
  have hmmap : step ⟨[grown], false⟩ (.mmap 0#64 12288#64 1 2 0 ⟨true, false⟩ 0#64) =
      some ⟨[grown, file], false⟩ := by decide +kernel
  have hmunmap : step ⟨[grown, file], false⟩ (.munmap 12288#64 4096#64) = some ⟨[grown, cut], false⟩ := by
    decide +kernel
  refine regions_disjoint (.cons ?_ hcreate (.cons ?_ hsbrk (.cons ?_ hmmap (.cons ?_ hmunmap (.nil _)))))
  · exact fun _ => ⟨by decide, fun v hv => absurd hv not_mem_nil⟩
  · intro i v hf
    have hfound : findRegion (·.has vmrHeap) [heap] = some (0, heap) := by decide +kernel
    cases hfound.symm.trans hf
    refine ⟨by decide, fun j w hj hne => ?_⟩
    obtain ⟨hjl, -⟩ := List.getElem?_eq_some_iff.mp hj
    exact absurd (Nat.lt_one_iff.mp hjl) hne
  · intro _ _
    refine ⟨by decide +kernel, fun _ v hv hs => ?_, fun ha => absurd rfl ha⟩
    rw [mem_singleton.mp hv] at hs
    exact absurd hs (by decide)
  · intro i v hf _
    have hfound : findRegion (fun v => v.first ≤ 12288#64 ∧ 12288#64 < v.last) [grown, file] =
        some (1, file) := by decide +kernel
    cases hfound.symm.trans hf
    exact ⟨by decide, by decide⟩

/-- **A region inside a new one is not seen**: two calls of `create_vmregion` from no regions, both of
which succeed, and the address `4096` is in both regions. -/
theorem regions_overlap : ∃ v w : Region, Run step (fun _ _ => True) ⟨[], false⟩
      [.create vmrMm 4096#64 4096#64, .create vmrMm 0#64 16384#64] ⟨[v, w], false⟩ ∧ ¬ Apart v w := by
  let v : Region := ⟨vmrMm, 4096#64, 8192#64, initMmapInfo⟩
  let w : Region := ⟨vmrMm, 0#64, 16384#64, initMmapInfo⟩
  have h1 : step ⟨[], false⟩ (.create vmrMm 4096#64 4096#64) = some ⟨[v], false⟩ := by decide +kernel
  have h2 : step ⟨[v], false⟩ (.create vmrMm 0#64 16384#64) = some ⟨[v, w], false⟩ := by decide +kernel
  exact ⟨v, w, .cons trivial h1 (.cons trivial h2 (.nil _)), fun h => h 4096#64 (by decide)⟩

end OsHonor.Vm.Overlap
