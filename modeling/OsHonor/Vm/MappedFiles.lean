import Mathlib.Data.List.GetD
import OsHonor.Vm.Faults
import OsHonor.Vm.PageTables.Fresh

/-! # Mapped files (`handle_memory_map`, `vm/pgfault_handler.c`)

The first fault in a mapped region maps new pages at all its addresses (`mapFresh_laid`) and copies the file to them, a
page in a turn. In a turn `copy_to_user` is told to copy the larger one of a page and the difference of the length of
the region and the offset in the file (`copyLength`); with more than a page it reads behind the buffer. All turns copy
one page if the region has one page and the offset is at most its length, or if it has two and the offset is the length
without a page (`turns_le_iff`). Then the pages show the file (`fillLoop_fills`), and in no other case do they:
`showsFile_iff`. -/

namespace OsHonor.Vm.MappedFiles

open Function BitVec List Base.Radix Regions UserMemory PageTables.Entries Faults
open PageTables.Code hiding pgfaultHandler
open PageTables.Spaces PageTables.Growth PageTables.Loops
open PageTables.Translation PageTables.Fresh

/-! ### The property -/

/-- The lengths that the second loop of `handle_memory_map` gives to `copy_to_user`. -/
def turns (length : ℤ) : ℕ → ℕ → Word → List ℕ
  | 0, _, _ => []
  | fuel + 1, i, offset =>
    if i < length then
      copyLength length offset :: if i + 4096 < 2 ^ 31 then turns length fuel (i + 4096) (offset + pageSize) else []
    else []

/-- **The region shows the file**: `handle_memory_map` reads its buffer only within a page, it returns, the bytes of the
region are those of the file from the offset on, with zeros behind its end, and those of other pages are as before. -/
def Shows (base : ℕ) (s : Machine) (pt : ℕ) (first last offset : Word) (file : List UInt8) : Prop :=
  (∀ len ∈ turns ((last - first).setWidth 32).toInt (2 ^ 19 + 1) 0 offset, len ≤ 4096) ∧
  ∃ s', handleMemoryMap base s pt first last offset file = some s' ∧
    (∀ k < (last - first).toNat, byteOf s' pt (first + BitVec.ofNat 64 k) = some (file.getD (offset.toNat + k) 0)) ∧
    ∀ va, (∀ k < (last - first).toNat, pageBits va ≠ pageBits (first + BitVec.ofNat 64 k)) →
      byteOf s' pt va = byteOf s pt va

def refill (s : Machine) (c : ℕ → Idx → Word) : Machine := { s with supply := s.supply.map fun x => (x.1, c x.1) }

def ShowsFile (base : ℕ) (s : Machine) (pt : ℕ) (first last offset : Word) (file : List UInt8) : Prop :=
  ∀ c, Shows base (refill s c) pt first last offset file

/-- **The condition**: the region is empty; or the loop over its pages ends, and it has one page, and its length without
the offset is at most a page, or two, and it is exactly a page. -/
def OnePage (first last offset : Word) : Prop :=
  last = first ∨ (Ends last ∧
    (((last - first).toNat ≤ 4096 ∧ (last - first - offset).toNat ≤ 4096) ∨
      ((last - first).toNat ≤ 8192 ∧ last - first - offset = pageSize)))

/-! ### The lengths -/

theorem turns_le_iff (length : ℤ) (offset : Word) :
    (∀ len ∈ turns length (2 ^ 19 + 1) 0 offset, len ≤ 4096) ↔ length ≤ 0 ∨
      (length ≤ 4096 ∧ (BitVec.ofInt 64 length - offset).toNat ≤ 4096) ∨
      (length ≤ 8192 ∧ BitVec.ofInt 64 length - offset = pageSize) := by
  have hle : ∀ x : Word, copyLength length x ≤ 4096 ↔ (BitVec.ofInt 64 length - x).toNat ≤ 4096 := by
    intro x
    unfold copyLength
    rw [max_le_iff]
    exact ⟨fun h => h.2, fun h => ⟨le_rfl, h⟩⟩
  by_cases h0 : length ≤ 0
  · refine iff_of_true ?_ (Or.inl h0)
    rw [turns, if_neg (by push_cast; omega)]
    exact fun _ h => absurd h not_mem_nil
  have hsub : ∀ x : Word, (x - pageSize).toNat = (x.toNat + (2 ^ 64 - 4096)) % 2 ^ 64 := by
    intro x
    rw [toNat_sub, pageSize_toNat, Nat.add_comm]
  have hnext : BitVec.ofInt 64 length - (offset + pageSize) = BitVec.ofInt 64 length - offset - pageSize :=
    sub_add_eq_sub_sub _ _ _
  have hthird : BitVec.ofInt 64 length - (offset + pageSize + pageSize) =
      BitVec.ofInt 64 length - offset - pageSize - pageSize := by
    rw [sub_add_eq_sub_sub, hnext]
  have hpage : BitVec.ofInt 64 length - offset = pageSize ↔ (BitVec.ofInt 64 length - offset).toNat = 4096 := by
    rw [← toNat_inj, pageSize_toNat]
  have hfuel : (2 : ℕ) ^ 19 = 524286 + 1 + 1 := rfl
  rw [hfuel, turns, if_pos (by push_cast; omega), if_pos (by decide), forall_mem_cons, hle, turns, hpage]
  generalize BitVec.ofInt 64 length - offset = x at *
  by_cases h1 : length ≤ 4096
  · rw [if_neg (by push_cast; omega)]
    simp only [not_mem_nil, false_imp_iff, implies_true, and_true]
    omega
  rw [if_pos (by push_cast; omega), if_pos (by decide), forall_mem_cons, hle, hnext, hsub, turns]
  by_cases h2 : length ≤ 8192
  · rw [if_neg (by push_cast; omega)]
    simp only [not_mem_nil, false_imp_iff, implies_true, and_true]
    omega
  rw [if_pos (by push_cast; omega), forall_mem_cons, hle, hthird, hsub, hsub]
  refine iff_of_false ?_ (by omega)
  rintro ⟨hx0, hx1, hx2, -⟩
  omega

def turnCount (length : ℤ) : ℕ := (length.toNat + 4095) / 4096

theorem lt_turnCount (length : ℤ) (j : ℕ) : j < turnCount length ↔ 4096 * (j : ℤ) < length := by
  unfold turnCount
  omega

theorem copyLength_eq {length : ℤ} {offset : Word} (h : ∀ len ∈ turns length (2 ^ 19 + 1) 0 offset, len ≤ 4096) :
    turnCount length ≤ 2 ∧
    ∀ j < turnCount length, copyLength length (offset + BitVec.ofNat 64 (4096 * j)) = 4096 := by
  have hcases := (turns_le_iff length offset).mp h
  have hcount := lt_turnCount length
  have htwo : turnCount length ≤ 2 := by
    have h2 := hcount 2
    omega
  refine ⟨htwo, fun j hj => ?_⟩
  unfold copyLength
  refine max_eq_left ?_
  have hlt := (hcount j).mp hj
  rcases Nat.eq_zero_or_pos j with rfl | hpos
  · rw [Nat.mul_zero, BitVec.add_zero]
    rcases hcases with h | ⟨-, h⟩ | ⟨-, h⟩
    · omega
    · exact h
    · rw [h]
      decide
  · obtain rfl : j = 1 := by omega
    rcases hcases with h | ⟨h, -⟩ | ⟨-, h⟩
    · omega
    · omega
    · rw [sub_add_eq_sub_sub, h]
      decide

theorem toInt_eq {d : Word} (h : d.toNat < 2 ^ 31) : (d.setWidth 32).toInt = d.toNat := by
  rw [toInt_eq_toNat_cond, toNat_setWidth]
  split_ifs <;> omega

theorem ofInt_toNat (d : Word) : BitVec.ofInt 64 (d.toNat : ℤ) = d := by
  rw [ofInt_natCast, ofNat_toNat, setWidth_eq]

/-! ### The pages -/

section Fill

variable {base pt buf : ℕ} {s s' : Machine} {first offset : Word}

/-- **The first loop** maps new pages, with what they contain. -/
theorem mapFresh_laid (base : ℕ) : ∀ (vas : List Word) (s : Machine), Tables s.mem (only pt) → Supplied s (only pt) →
    (vas.map (slotOf ())).Nodup → 4 * vas.length ≤ s.supply.length →
    ∃ s' l, mapFresh base pt vas s = some s' ∧ Laid (only pt) s s' l ∧ l.map Prod.fst = vas.map (slotOf ()) ∧
      ∀ t ∈ l, (pageOf t.2.1, t.2.2) ∈ s.supply
  | [], s, ht, hs, _, _ => ⟨s, [], rfl, laid_nil ht hs, rfl, fun _ h => absurd h not_mem_nil⟩
  | va :: vas, s, ht, hs, hnodup, hroom => by
    rw [length_cons] at hroom
    rw [map_cons, nodup_cons] at hnodup
    cases hsup : s.supply with
    | nil =>
      rw [hsup, length_nil] at hroom
      omega
    | cons x rest =>
      obtain ⟨q, c⟩ := x
      have htaken : Taken (only pt) s { s with mem := update s.mem q c, supply := rest } q :=
        taken_of_supply ht hs hsup
      rw [hsup, length_cons] at hroom
      obtain ⟨s₁, hmap⟩ := mapInPgtbl_some base (p := ()) rfl htaken.tables htaken.supplied
        (by dsimp only; omega) va q pteUserData
      have hplaced := placed_of_map (p := ()) rfl ht hs (by decide) hsup hmap
      have hused := hplaced.used
      rw [hsup, length_cons] at hused
      obtain ⟨s', l, hrest, hl, hslots, hcont⟩ := mapFresh_laid base vas s₁ hplaced.tables hplaced.supplied hnodup.2
        (by omega)
      have hpage : pageOf (entryFor q pteUserData) = q := pageOf_entryFor htaken.unused.lt (by decide)
      refine ⟨s', (slotOf () va, entryFor q pteUserData, c) :: l, ?_, Laid.cons hplaced hl ?_, ?_, ?_⟩
      · rw [mapFresh]
        unfold kallocPage
        rw [hsup]
        dsimp only
        rw [hmap, Option.bind_some, hrest]
      · rw [hslots]
        exact hnodup.1
      · rw [map_cons, map_cons, hslots]
      · intro t htl
        rcases mem_cons.mp htl with rfl | htl
        · rw [hpage]
          exact mem_cons_self
        · rw [← hsup]
          exact hplaced.sub _ (hcont t htl)

/-- **The pages of the region** while they are filled: they are mapped, they are no tables, and neither is the buffer. -/
structure Frames (s : Machine) (pt buf : ℕ) (first : Word) (n : ℕ) (e : ℕ → Word) : Prop where
  leaf : ∀ j < n, Leaf s.mem (only pt) (slotOf () (pageAt first j)) (e j)
  notTable : ∀ j < n, ∀ p is, is.length ≤ 3 → tableAt s.mem (only pt) p is ≠ some (pageOf (e j))
  bufTable : ∀ p is, is.length ≤ 3 → tableAt s.mem (only pt) p is ≠ some buf
  ne : ∀ j < n, pageOf (e j) ≠ buf
  inj : ∀ j < n, ∀ j' < n, pageOf (e j) = pageOf (e j') → j = j'

variable {n : ℕ} {e : ℕ → Word}

def Elsewhere (s s' : Machine) (buf : ℕ) (e : ℕ → Word) (n : ℕ) : Prop :=
  ∀ m, m ≠ buf → (∀ j < n, m ≠ pageOf (e j)) → s'.mem m = s.mem m

theorem Frames.tables_same (hf : Frames s pt buf first n e) (h : Elsewhere s s' buf e n) :
    ∀ p is m i, is.length ≤ 3 → tableAt s.mem (only pt) p is = some m → s'.mem m i = s.mem m i := by
  intro p is m i his hm
  refine congrFun (h m ?_ fun j hj => ?_) i
  · rintro rfl
    exact hf.bufTable p is his hm
  · rintro rfl
    exact hf.notTable j hj p is his hm

theorem Frames.after (hf : Frames s pt buf first n e) (h : Elsewhere s s' buf e n) : Frames s' pt buf first n e := by
  have hsame := hf.tables_same h
  refine ⟨fun j hj => (leaf_data hsame).mpr (hf.leaf j hj), fun j hj p is his => ?_, fun p is his => ?_, hf.ne, hf.inj⟩
  · rw [tableAt_data hsame p his]
    exact hf.notTable j hj p is his
  · rw [tableAt_data hsame p his]
    exact hf.bufTable p is his

/-- The machine after a turn that fills the page `q`. -/
def afterTurn (s : Machine) (buf q : ℕ) (chunk : List UInt8) : Machine :=
  let s := memcpy (memsetZero s buf) buf 0 chunk
  memcpy s q 0 (kernelBytes s buf 0 4096)

theorem getD_kernelBytes (s : Machine) (buf : ℕ) {k : ℕ} (hk : k < 4096) :
    (kernelBytes s buf 0 4096).getD k 0 = byteAt s buf k := by
  unfold kernelBytes
  rw [getD_eq_getElem _ _ (by simpa using hk)]
  simp [Nat.div_eq_of_lt hk, Nat.mod_eq_of_lt hk]

theorem afterTurn_byte (s : Machine) {buf q : ℕ} {chunk : List UInt8} (hchunk : chunk.length ≤ 4096)
    {k : ℕ} (hk : k < 4096) : byteAt (afterTurn s buf q chunk) q k = chunk.getD k 0 := by
  unfold afterTurn
  dsimp only
  have hlen : (kernelBytes (memcpy (memsetZero s buf) buf 0 chunk) buf 0 4096).length = 4096 := by simp [kernelBytes]
  rw [byteAt_memcpy q hk _ _ _ (by rw [hlen]), hlen, if_pos ⟨rfl, Nat.zero_le k, by omega⟩, Nat.sub_zero,
    getD_kernelBytes _ _ hk, byteAt_memcpy buf hk _ _ _ (by omega), byteAt_memsetZero]
  split_ifs with h
  · rw [Nat.sub_zero]
  · rw [getD_eq_default _ _ (by omega)]

theorem afterTurn_page (s : Machine) {buf q m : ℕ} (chunk : List UInt8) (hb : m ≠ buf) (hq : m ≠ q) :
    (afterTurn s buf q chunk).mem m = s.mem m := by
  unfold afterTurn
  dsimp only
  rw [memcpy_page hq, memcpy_page hb]
  exact update_of_ne hb ..

/-- **A turn** of `copy_to_user` copies one page. -/
theorem copyFromLoop_page {va f : Word} (hleaf : Leaf s.mem (only pt) (slotOf () va) f) (hva : vaOffset va = 0) :
    copyFromLoop pt buf 4096 s va 0 4096 = some (true, memcpy s (pageOf f) 0 (kernelBytes s buf 0 4096)) := by
  obtain ⟨-, ⟨t, ht, hentry⟩, hvalid⟩ := hleaf
  have hne : f ≠ 0#64 := by
    rintro rfl
    exact hvalid (by decide)
  have hwalk : walk child s.mem pt (path va) = some t := ht
  have hstep : copyFromLoop pt buf (4095 + 1) s va 0 (4095 + 1) =
      some (true, memcpy s (pageOf f) 0 (kernelBytes s buf 0 4096)) := by
    rw [copyFromLoop, getPte_of_walk hwalk true]
    dsimp only
    have hget : s.mem t (vaPart3 va) = f := hentry
    rw [hget, if_neg hne, hva]
    rfl
  exact hstep

theorem Frames.turn (hf : Frames s pt buf first n e) {j : ℕ} (hj : j < n) (hva : vaOffset (pageAt first j) = 0)
    (chunk : List UInt8) :
    copyFromLoop pt buf 4096 (memcpy (memsetZero s buf) buf 0 chunk) (pageAt first j) 0 4096 =
      some (true, afterTurn s buf (pageOf (e j)) chunk) ∧
    Elsewhere s (afterTurn s buf (pageOf (e j)) chunk) buf e n := by
  have hbuffer : Elsewhere s (memcpy (memsetZero s buf) buf 0 chunk) buf e n := by
    intro m hm _
    rw [memcpy_page hm]
    exact update_of_ne hm ..
  refine ⟨?_, fun m hm hall => afterTurn_page s chunk hm (hall j hj)⟩
  rw [copyFromLoop_page ((hf.after hbuffer).leaf j hj) hva]
  rfl

/-- **The second loop**, from the turn `j` on, where every turn copies one page. -/
theorem fillLoop_fills (file : List UInt8) {length : ℤ} (hcount : ∀ j : ℕ, j < n ↔ 4096 * (j : ℤ) < length) (hn : 4096 * n < 2 ^ 31)
    (hal : first.toNat % 4096 = 0)
    (hturn : ∀ j < n, copyLength length (offset + BitVec.ofNat 64 (4096 * j)) = 4096) : ∀ (r j fuel : ℕ) (s : Machine),
    j + r = n → r < fuel → Frames s pt buf first n e →
    ∃ s', fillLoop pt buf file first length fuel (4096 * j) (offset + BitVec.ofNat 64 (4096 * j)) s = some s' ∧
      Elsewhere s s' buf e n ∧ (∀ i < j, s'.mem (pageOf (e i)) = s.mem (pageOf (e i))) ∧
      ∀ i, j ≤ i → i < n → ∀ k < 4096,
        byteAt s' (pageOf (e i)) k = file.getD ((offset + BitVec.ofNat 64 (4096 * i)).toNat + k) 0
  | 0, j, fuel + 1, s, hj, _, _ => by
    have hend := mt (hcount j).mpr (by omega)
    refine ⟨s, ?_, fun _ _ _ => rfl, fun _ _ => rfl, fun i hi hin => absurd hin (by omega)⟩
    rw [fillLoop, if_neg (by push_cast; exact hend)]
  | r + 1, j, fuel + 1, s, hj, hfuel, hf => by
    have hjn : j < n := by omega
    have hlt := (hcount j).mp hjn
    have hva : vaOffset (pageAt first j) = 0 := by
      unfold pageAt
      rw [vaOffset_eq, toNat_add, BitVec.toNat_ofNat]
      omega
    have hnext : offset + BitVec.ofNat 64 (4096 * j) + pageSize = offset + BitVec.ofNat 64 (4096 * (j + 1)) := by
      rw [Nat.mul_succ, ofNat_add, BitVec.add_assoc]
      rfl
    obtain ⟨hcopy, hpage⟩ := hf.turn hjn hva ((file.drop (offset + BitVec.ofNat 64 (4096 * j)).toNat).take 4096)
    obtain ⟨s', hs', helse, hdone, hfill⟩ := fillLoop_fills file hcount hn hal hturn r (j + 1) fuel _ (by omega) (by omega)
      (hf.after hpage)
    refine ⟨s', ?_, fun m hm hall => (helse m hm hall).trans (hpage m hm hall), fun i hi => ?_, fun i hji hin k hk => ?_⟩
    · rw [fillLoop, if_pos (by push_cast; exact hlt)]
      dsimp only
      rw [hturn j hjn]
      unfold pageAt at hcopy
      rw [hcopy]
      dsimp only
      rw [if_pos (by omega), hnext]
      exact hs'
    · rw [hdone i (by omega)]
      refine afterTurn_page s _ (hf.ne i (by omega)) fun heq => ?_
      exact absurd (hf.inj i (by omega) j hjn heq) (by omega)
    · rcases Nat.eq_or_lt_of_le hji with rfl | hlt'
      · rw [byteAt_congr (hdone j (by omega)), afterTurn_byte s (length_take_le _ _) hk]
        simp only [getD_eq_getElem?_getD, getElem?_take, if_pos hk, getElem?_drop]
      · exact hfill i hlt' hin k hk
  | _, _, 0, _, _, hfuel, _ => absurd hfuel (Nat.not_lt_zero _)

theorem Frames.mono {n' : ℕ} (hf : Frames s pt buf first n e) (h : n' ≤ n) : Frames s pt buf first n' e where
  leaf j hj := hf.leaf j (by omega)
  notTable j hj := hf.notTable j (by omega)
  bufTable := hf.bufTable
  ne j hj := hf.ne j (by omega)
  inj j hj j' hj' := hf.inj j (by omega) j' (by omega)

theorem Laid.frames {s₁ s₂ : Machine} {l : List (Slot Unit × Word × (Idx → Word))} {c : ℕ → Idx → Word}
    (hl : Laid (only pt) s s₁ l) (hb : Taken (only pt) s₁ s₂ buf)
    (hslots : (((List.range n).map (pageAt first)).map (slotOf ())).Nodup)
    (he : ∀ j < n, (slotOf () (pageAt first j), e j, c j) ∈ l) : Frames s₂ pt buf first n e := by
  obtain ⟨y, hy, hyb⟩ := hb.mem
  refine ⟨fun j hj => (hb.leaf _ _).mpr ((hl.leaf _ _).mpr (Or.inl ⟨_, he j hj⟩)),
    fun j hj => (taken_keeps hb (hl.own _ (he j hj))).1.notTable, hb.unused.notTable, fun j hj heq => ?_,
    fun j hj j' hj' heq => ?_⟩
  · exact (hl.own _ (he j hj)).notFree y hy (hyb.trans heq.symm)
  · have hsame := inj_on_of_nodup_map hl.apart (he j hj) (he j' hj') heq
    have hslot : slotOf () (pageAt first j) = slotOf () (pageAt first j') := congrArg Prod.fst hsame
    rw [map_map] at hslots
    exact inj_on_of_nodup_map hslots (mem_range.mpr hj) (mem_range.mpr hj') hslot

end Fill

/-! ### The function -/

def pageCount (first last : Word) : ℕ := ((last - first).toNat + 4095) / 4096

section Run

variable {pt : ℕ} {s : Machine} {first last offset : Word} {n : ℕ}

/-- **All pages of the region are mapped** by the first loop, and there is a page left. -/
theorem mapFresh_pages (base : ℕ) (ht : Tables s.mem (only pt)) (hs : Supplied s (only pt)) (hle : first ≤ last)
    (hends : Ends last) (hroom : 4 * pageCount first last + 1 ≤ s.supply.length) :
    ∃ (s₁ : Machine) (l : List (Slot Unit × Word × (Idx → Word))) (e : ℕ → Word) (c : ℕ → Idx → Word),
      ((pagesFrom last (2 ^ 52 + 1) first).bind fun is => mapFresh base pt is s) = some s₁ ∧ Laid (only pt) s s₁ l ∧
      s₁.supply ≠ [] ∧ (((List.range (pageCount first last)).map (pageAt first)).map (slotOf ())).Nodup ∧
      (∀ j < pageCount first last, (slotOf () (pageAt first j), e j, c j) ∈ l ∧ (pageOf (e j), c j) ∈ s.supply) ∧
      ∀ x ∈ l.map Prod.fst, ∃ j < pageCount first last, x = slotOf () (pageAt first j) := by
  have hsub : (last - first).toNat = last.toNat - first.toNat := toNat_sub_of_le hle
  have hle' := le_def.mp hle
  have hlast := hends
  unfold Ends at hlast
  have hmany := length_supply_le hs
  obtain ⟨N, hN⟩ : ∃ N, pageCount first last = N := ⟨_, rfl⟩
  rw [hN] at hroom ⊢
  unfold pageCount at hN
  have hpages : pagesFrom last (2 ^ 52 + 1) first = some ((List.range N).map (pageAt first)) :=
    pagesFrom_range hends N _ first (by omega) (by omega) (by omega)
  have hslots := nodup_slots (i := first) (n := N) (by omega) (by omega)
  obtain ⟨s₁, l, hfresh, hl, hlslots, hcont⟩ := mapFresh_laid base ((List.range N).map (pageAt first)) s ht hs hslots
    (by rw [length_map, length_range]; omega)
  have hlen : l.length = N := by
    have h := congrArg List.length hlslots
    rwa [length_map, length_map, length_map, length_range] at h
  have hused := hl.used
  have hex : ∀ j < N, ∃ e c, (slotOf () (pageAt first j), e, c) ∈ l := by
    intro j hj
    have hmem : slotOf () (pageAt first j) ∈ l.map Prod.fst := by
      rw [hlslots]
      exact mem_map_of_mem (mem_map_of_mem (mem_range.mpr hj))
    obtain ⟨t, ht, heq⟩ := mem_map.mp hmem
    exact ⟨t.2.1, t.2.2, by rw [← heq]; exact ht⟩
  choose! e c he using hex
  refine ⟨s₁, l, e, c, ?_, hl, fun hnil => ?_, hslots, fun j hj => ⟨he j hj, ?_⟩, fun x hx => ?_⟩
  · rw [hpages, Option.bind_some, hfresh]
  · rw [hnil, length_nil, hlen] at hused
    omega
  · exact hcont (slotOf () (pageAt first j), e j, c j) (he j hj)
  · rw [hlslots] at hx
    obtain ⟨va, hva, rfl⟩ := mem_map.mp hx
    obtain ⟨j, hj, rfl⟩ := mem_map.mp hva
    exact ⟨j, mem_range.mp hj, rfl⟩

/-- **`handle_memory_map`** where it copies one page in each of `n` turns: all pages of the region are mapped, the first
`n` have the bytes of the file, and the others what was in them before. -/
theorem handleMemoryMap_run (base : ℕ) (ht : Tables s.mem (only pt)) (hs : Supplied s (only pt))
    (hal : first.toNat % 4096 = 0) (hle : first ≤ last) (hends : Ends last)
    (hroom : 4 * pageCount first last + 1 ≤ s.supply.length) (file : List UInt8) (hn : n ≤ pageCount first last)
    (hint : 4096 * n < 2 ^ 31) (hcount : ∀ j : ℕ, j < n ↔ 4096 * (j : ℤ) < ((last - first).setWidth 32).toInt)
    (hturn : ∀ j < n, copyLength ((last - first).setWidth 32).toInt (offset + BitVec.ofNat 64 (4096 * j)) = 4096) :
    ∃ (s' : Machine) (e : ℕ → Word), handleMemoryMap base s pt first last offset file = some s' ∧
      (∀ j < pageCount first last, Leaf s'.mem (only pt) (slotOf () (pageAt first j)) (e j)) ∧
      (∀ j < n, ∀ k < 4096,
        byteAt s' (pageOf (e j)) k = file.getD ((offset + BitVec.ofNat 64 (4096 * j)).toNat + k) 0) ∧
      (∀ j, n ≤ j → j < pageCount first last → (pageOf (e j), s'.mem (pageOf (e j))) ∈ s.supply) ∧
      ∀ va, (∀ j < pageCount first last, pageBits va ≠ pageBits (pageAt first j)) → byteOf s' pt va = byteOf s pt va := by
  obtain ⟨s₁, l, e, c, hfresh, hl, hleft, hslots, he, honly⟩ := mapFresh_pages base ht hs hle hends hroom
  -- the buffer is one more page
  obtain ⟨⟨buf, cbuf⟩, rest, hsup⟩ := exists_cons_of_ne_nil hleft
  have hb : Taken (only pt) s₁ { s₁ with mem := update s₁.mem buf cbuf, supply := rest } buf :=
    taken_of_supply hl.tables hl.supplied hsup
  have hframes := Laid.frames hl hb hslots fun j hj => (he j hj).1
  obtain ⟨s', hs', helse, -, hfill⟩ := fillLoop_fills file hcount hint hal hturn n 0 (2 ^ 19 + 1) _
    (Nat.zero_add n) (by omega) (hframes.mono hn)
  have hleaf : ∀ x f, Leaf s'.mem (only pt) x f ↔ Leaf s₁.mem (only pt) x f := by
    intro x f
    rw [leaf_data ((hframes.mono hn).tables_same helse)]
    exact hb.leaf x f
  refine ⟨kfreePage s' buf, e, ?_, fun j hj => ?_, fun j hj => hfill j (Nat.zero_le j) hj, fun j hnj hj => ?_,
    fun va hva => ?_⟩
  · have hstart : fillLoop pt buf file first ((last - first).setWidth 32).toInt (2 ^ 19 + 1) 0 offset
        { s₁ with mem := update s₁.mem buf cbuf, supply := rest } = some s' := by
      rw [Nat.mul_zero, BitVec.add_zero] at hs'
      exact hs'
    unfold handleMemoryMap
    dsimp only
    rw [← Option.bind_assoc, hfresh, Option.bind_some]
    unfold kallocPage
    rw [hsup]
    dsimp only
    rw [hstart]
    rfl
  · exact (hleaf _ _).mpr ((hl.leaf _ _).mpr (Or.inl ⟨_, (he j hj).1⟩))
  · have hmem : s'.mem (pageOf (e j)) = c j := by
      rw [helse _ (hframes.ne j hj) fun i hi heq => absurd (hframes.inj j hj i (by omega) heq) (by omega)]
      rw [(taken_keeps hb (hl.own _ (he j hj).1)).2]
      exact hl.contents _ (he j hj).1
    show (pageOf (e j), s'.mem (pageOf (e j))) ∈ s.supply
    rw [hmem]
    exact (he j hj).2
  · have hnot : slotOf () va ∉ l.map Prod.fst := by
      intro hmem
      obtain ⟨j, hj, heq⟩ := honly _ hmem
      exact hva j hj (slotOf_eq_iff.mp heq)
    refine byteOf_congr (fun f => ?_) fun f hf => ?_
    · show Leaf s'.mem (only pt) (slotOf () va) f ↔ _
      rw [hleaf, hl.leaf]
      constructor
      · rintro (⟨d, hd⟩ | ⟨-, hf⟩)
        · exact absurd (mem_map.mpr ⟨_, hd, rfl⟩) hnot
        · exact hf
      · exact fun hf => Or.inr ⟨hnot, hf⟩
    · have hdata := data_of_leaf ht hs hf
      obtain ⟨hdata₁, hmem₁⟩ := hl.keep _ hdata
      show s'.mem (pageOf f) = s.mem (pageOf f)
      rw [helse, (taken_keeps hb hdata₁).2, hmem₁]
      · exact (hdata₁.notFree (buf, cbuf) (by rw [hsup]; exact mem_cons_self)).symm
      · intro j hj heq
        obtain ⟨y, hy, hyj⟩ := hl.new _ (he j (by omega)).1
        exact hdata.notFree y hy (hyj.trans heq.symm)

theorem supplied_refill (hs : Supplied s (only pt)) (c : ℕ → Idx → Word) : Supplied (refill s c) (only pt) := by
  have hpages : (refill s c).supply.map Prod.fst = s.supply.map Prod.fst := by
    unfold refill
    rw [map_map]
    rfl
  refine ⟨hpages ▸ hs.nodup, fun x hx => ?_⟩
  have hmem : x.1 ∈ s.supply.map Prod.fst := hpages ▸ mem_map_of_mem hx
  obtain ⟨y, hy, heq⟩ := mem_map.mp hmem
  rw [← heq]
  exact hs.unused y hy

theorem byteOf_unfilled (base : ℕ) (ht : Tables s.mem (only pt)) (hs : Supplied s (only pt))
    (hal : first.toNat % 4096 = 0) (hle : first ≤ last) (hends : Ends last)
    (hroom : 4 * pageCount first last + 1 ≤ s.supply.length) (file : List UInt8)
    (hturns : ∀ len ∈ turns ((last - first).setWidth 32).toInt (2 ^ 19 + 1) 0 offset, len ≤ 4096)
    (hfew : 4096 * turnCount ((last - first).setWidth 32).toInt < (last - first).toNat) (w : Word) {s' : Machine}
    (hrun : handleMemoryMap base (refill s fun _ _ => w) pt first last offset file = some s') :
    byteOf s' pt (first + BitVec.ofNat 64 (4096 * turnCount ((last - first).setWidth 32).toInt)) =
      some (getByte w 0) := by
  obtain ⟨htwo, hturn⟩ := copyLength_eq hturns
  have hcount := lt_turnCount ((last - first).setWidth 32).toInt
  obtain ⟨n, hn⟩ : ∃ n, turnCount ((last - first).setWidth 32).toInt = n := ⟨_, rfl⟩
  rw [hn] at hfew htwo hturn hcount ⊢
  have hpages : n < pageCount first last := by
    unfold pageCount
    omega
  have hlength : (refill s fun _ _ => w).supply.length = s.supply.length := length_map _
  obtain ⟨s₁, e, hrun₁, hleaf, -, hjunk, -⟩ := handleMemoryMap_run base (s := refill s fun _ _ => w) ht
    (supplied_refill hs _) hal hle hends (by rw [hlength]; exact hroom) file hpages.le (by omega) hcount hturn
  cases hrun.symm.trans hrun₁
  have hoff : vaOffset (pageAt first n) = 0 := by
    unfold pageAt
    rw [vaOffset_eq, toNat_add, BitVec.toNat_ofNat]
    omega
  have hcontents : s'.mem (pageOf (e n)) = fun _ => w := by
    obtain ⟨y, -, hy⟩ := mem_map.mp (hjunk n le_rfl hpages)
    exact (congrArg Prod.snd hy).symm
  have hbyte := byteOf_leaf (hleaf n hpages)
  rw [hoff, byteAt, hcontents] at hbyte
  exact hbyte

/-- **A mapped region shows the file exactly under this condition.** -/
theorem showsFile_iff (base : ℕ) (ht : Tables s.mem (only pt)) (hs : Supplied s (only pt))
    (hal : first.toNat % 4096 = 0) (hle : first ≤ last) (hroom : 4 * pageCount first last + 1 ≤ s.supply.length)
    (offset : Word) (file : List UInt8) :
    ShowsFile base s pt first last offset file ↔ OnePage first last offset := by
  constructor
  · intro h
    by_cases hempty : last = first
    · exact Or.inl hempty
    have hends : Ends last := by
      by_contra hno
      obtain ⟨-, s', hs', -⟩ := h fun _ _ => 0#64
      unfold handleMemoryMap at hs'
      rw [pagesFrom_none hno _ _ hal] at hs'
      cases hs'
    have hturns := (h fun _ _ => 0#64).1
    -- without enough turns the bytes are those of the free pages
    have henough : (last - first).toNat ≤ 4096 * turnCount ((last - first).setWidth 32).toInt := by
      by_contra hfew
      push Not at hfew
      have hjunk : ∀ w : Word, getByte w 0 =
          file.getD (offset.toNat + 4096 * turnCount ((last - first).setWidth 32).toInt) 0 := by
        intro w
        obtain ⟨-, s', hs', hbytes, -⟩ := h fun _ _ => w
        have hbyte := byteOf_unfilled base ht hs hal hle hends hroom file hturns hfew w hs'
        exact Option.some.inj (hbyte.symm.trans (hbytes _ hfew))
      exact absurd ((hjunk 0#64).trans (hjunk 1#64).symm) (by decide)
    have htwo := (copyLength_eq hturns).1
    have hint := toInt_eq (d := last - first) (by omega)
    have hcases := (turns_le_iff _ offset).mp hturns
    rw [hint, ofInt_toNat] at hcases
    have hpos : (last - first).toNat ≠ 0 := by
      intro h0
      exact hempty (sub_eq_zero.mp (eq_of_toNat_eq h0))
    refine Or.inr ⟨hends, ?_⟩
    rcases hcases with h0 | ⟨h1, h2⟩ | ⟨h1, h2⟩
    · omega
    · exact Or.inl ⟨by omega, h2⟩
    · exact Or.inr ⟨by omega, h2⟩
  · intro h c
    have hle' := le_def.mp hle
    have hends : Ends last := by
      rcases h with rfl | ⟨hends, -⟩
      · unfold Ends
        omega
      · exact hends
    have hcases : (last - first).toNat = 0 ∨ ((last - first).toNat ≤ 4096 ∧ (last - first - offset).toNat ≤ 4096) ∨
        ((last - first).toNat ≤ 8192 ∧ last - first - offset = pageSize) := by
      rcases h with rfl | ⟨-, h⟩
      · left
        rw [sub_self]
        rfl
      · exact Or.inr h
    have hint := toInt_eq (d := last - first) (by omega)
    have hturns : ∀ len ∈ turns ((last - first).setWidth 32).toInt (2 ^ 19 + 1) 0 offset, len ≤ 4096 := by
      rw [turns_le_iff, hint, ofInt_toNat]
      rcases hcases with h0 | ⟨h1, h2⟩ | ⟨h1, h2⟩
      · exact Or.inl (by omega)
      · exact Or.inr (Or.inl ⟨by omega, h2⟩)
      · exact Or.inr (Or.inr ⟨by omega, h2⟩)
    have hcount : turnCount ((last - first).setWidth 32).toInt = pageCount first last := by
      unfold turnCount pageCount
      rw [hint, Int.toNat_natCast]
    have hlength : (refill s c).supply.length = s.supply.length := length_map _
    obtain ⟨htwo, hturn⟩ := copyLength_eq hturns
    obtain ⟨s', e, hrun, hleaf, hfill, -, hout⟩ := handleMemoryMap_run base (s := refill s c) ht (supplied_refill hs c) hal
      hle hends (by rw [hlength]; exact hroom) file hcount.le (by omega) (lt_turnCount _) hturn
    have hpages : ∀ k, k < (last - first).toNat → k / 4096 < pageCount first last := by
      intro k hk
      unfold pageCount
      omega
    have hsub : (last - first).toNat = last.toNat - first.toNat := toNat_sub_of_le hle
    refine ⟨hturns, s', hrun, fun k hk => ?_, fun va hva => hout va fun j hj => hva (4096 * j) ?_⟩
    · have hadd : (first + BitVec.ofNat 64 k).toNat = first.toNat + k := add_toNat (by omega)
      have hslot : slotOf () (first + BitVec.ofNat 64 k) = slotOf () (pageAt first (k / 4096)) := by
        refine slotOf_eq_iff.mpr (eq_of_toNat_eq ?_)
        unfold pageAt
        rw [pageBits_toNat, pageBits_toNat, hadd, add_toNat (by omega)]
        omega
      have hoff : vaOffset (first + BitVec.ofNat 64 k) = k % 4096 := by
        rw [vaOffset_eq, hadd]
        omega
      have hpos : (offset + BitVec.ofNat 64 (4096 * (k / 4096))).toNat + k % 4096 = offset.toNat + k := by
        rcases Nat.lt_or_ge k 4096 with hk' | hk'
        · rw [Nat.div_eq_of_lt hk', Nat.mod_eq_of_lt hk', Nat.mul_zero, BitVec.add_zero]
        · -- in the second page the offset is the length without a page
          have hoffset : offset.toNat ≤ 4096 := by
            rcases hcases with h0 | ⟨h1, -⟩ | ⟨h1, h2⟩
            · omega
            · omega
            · have heq : offset = last - first - pageSize := by rw [← h2, sub_sub_cancel]
              rw [heq, toNat_sub_of_le (by rw [le_def, pageSize_toNat]; omega), pageSize_toNat]
              omega
          rw [add_toNat (by omega)]
          omega
      have hk' := hpages k hk
      rw [byteOf_leaf (hslot ▸ hleaf (k / 4096) hk'), hoff,
        hfill (k / 4096) (by omega) (k % 4096) (Nat.mod_lt _ (by decide)), hpos]
    · unfold pageCount at hj
      omega

end Run

/-- Memory of zeros, and `n` free pages. -/
def freePages (n : ℕ) : Machine := ⟨fun _ _ => 0#64, fun _ => 0, (List.range n).map fun j => (j + 2, fun _ => 0#64), []⟩

/-- One page of a file of one byte. -/
theorem showsFile_one_page : ShowsFile 0 (freePages 5) 1 4096#64 8192#64 0#64 [7] :=
  (showsFile_iff 0 (tables_zeroed fun _ => rfl) (supplied_zeroed (fun _ => rfl) (by decide) (by decide)) (by decide)
    (by decide) (by decide) 0#64 [7]).mpr (Or.inr ⟨by decide, Or.inl ⟨by decide, by decide⟩⟩)

/-- **Two pages from the begin of a file**: the first turn copies two pages out of a buffer of one. -/
theorem two_pages_overread : turns 8192 (2 ^ 19 + 1) 0 0#64 = [8192, 4096] ∧
    ¬ ShowsFile 0 (freePages 9) 1 4096#64 12288#64 0#64 [7] := by
  have hturns : turns 8192 (2 ^ 19 + 1) 0 0#64 = [8192, 4096] := by decide +kernel
  refine ⟨hturns, fun h => ?_⟩
  have hle := (h fun _ _ => 0#64).1
  rw [show ((12288#64 - 4096#64).setWidth 32).toInt = 8192 by decide, hturns] at hle
  exact absurd (hle 8192 mem_cons_self) (by decide)

end OsHonor.Vm.MappedFiles
