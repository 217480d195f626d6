import OsHonor.Base.Runs
import OsHonor.Vm.PageTables.Spaces

/-! # Copy-on-write keeps processes apart

Processes with page tables of their own share pages that are read-only in all of them. A write to a writable
page goes to memory; a write to a read-only page traps, `pgfault_handler` gives the process a copy, and the
write is retried. `cow_isolation`: in any interleaving the bytes that a process reads are those it started
with, changed by its own writes and by nothing else.

A write changes a page that is no table. A fault fills a page that is not in use and then replaces one level-3
entry. What that does to the entries is in `Spaces`; here it is read off what the processes see. -/

namespace OsHonor.Vm.PageTables.Isolation

open BitVec List Option Function Base.BitFields Base.Radix Base.Runs Regions
open Code Entries Spaces

/-- The machine, and the page table and the regions of each process. -/
structure World (P : Type) where
  mach : Machine
  root : P → ℕ
  regions : P → List Region

variable {P : Type}

def World.mem (w : World P) : ℕ → Idx → Word := w.mach.mem

def World.roots (w : World P) : P → Option ℕ := fun p => some (w.root p)

/-- **The address spaces**: the tables are disjoint, none of them is mapped, and a page that two entries map is
read-only in all of them. -/
structure Shares (w : World P) : Prop where
  tables : Tables w.mem w.roots
  shared : ∀ x y e e', Leaf w.mem w.roots x e → Leaf w.mem w.roots y e' → x ≠ y → pageOf e = pageOf e' →
    e &&& pteRo ≠ 0#64

/-! ### User accesses -/

def leafOf (w : World P) (p : P) (va : Word) : Option Word :=
  (tableAt w.mem w.roots p (path va)).bind fun n =>
    if w.mem n (vaPart3 va) &&& pteValid = 0#64 then none else some (w.mem n (vaPart3 va))

/-- **The byte that a process reads** at an address, if the address is mapped. User addresses have 48 bits. -/
def userByte (w : World P) (p : P) (va : Word) : Option (BitVec 8) :=
  if va.toNat < 2 ^ 48 then
    (leafOf w p va).map fun e => getByte (w.mem (pageOf e) (wordOf va)) (vaOffset va % 8)
  else none

/-- Memory with the byte at the offset of `va` in the page `n` replaced. -/
def storeByte (m : ℕ → Idx → Word) (n : ℕ) (va : Word) (b : BitVec 8) : ℕ → Idx → Word :=
  setEntry m n (wordOf va) (setByte (m n (wordOf va)) (vaOffset va % 8) b)

inductive Label (P : Type)
  | write (p : P) (va : Word) (b : BitVec 8)
  | fault (p : P) (va : Word) (page : ℕ) (contents : Idx → Word)

/-- A write of a byte, to a page that is not read-only; or the trap of a write to one that is, to which
`kalloc_page` gives the page `page`. A longer write is one of these after the other. -/
def step (base : ℕ) (w : World P) : Label P → Option (World P)
  | .write p va b =>
    if va.toNat < 2 ^ 48 then
      (leafOf w p va).bind fun e =>
        if e &&& pteRo = 0#64 then
          some { w with mach := { w.mach with mem := storeByte w.mem (pageOf e) va b } }
        else none
    else none
  | .fault p va page contents =>
    if va.toNat < 2 ^ 48 then
      (leafOf w p va).bind fun e =>
        if e &&& pteRo = 0#64 then none
        else
          (pgfaultHandler base { w.mach with supply := [(page, contents)] } (w.root p) (w.regions p) va).map
            fun m => { w with mach := m }
    else none

/-- `kalloc_page` returns a page that is not in use. -/
def Fresh (w : World P) : Label P → Prop
  | .write _ _ _ => True
  | .fault _ _ page _ => Unused w.mem w.roots page

theorem leafOf_iff {w : World P} {p : P} {va e : Word} :
    leafOf w p va = some e ↔ Leaf w.mem w.roots (slotOf p va) e := by
  unfold leafOf Leaf slotOf
  constructor
  · intro h
    obtain ⟨n, hn, he⟩ := bind_eq_some_iff.mp h
    split_ifs at he with hv
    cases he
    exact ⟨rfl, ⟨n, hn, rfl⟩, hv⟩
  · rintro ⟨-, ⟨n, hn, rfl⟩, hv⟩
    dsimp only at hn hv ⊢
    rw [hn, bind_some, if_neg hv]

theorem leafOf_congr {w w' : World P} {p : P} {va : Word}
    (h : ∀ e, Leaf w'.mem w'.roots (slotOf p va) e ↔ Leaf w.mem w.roots (slotOf p va) e) :
    leafOf w' p va = leafOf w p va := by
  apply Option.ext
  intro e
  rw [leafOf_iff, leafOf_iff, h]

/-! ### A write -/

section Write

variable {w w' : World P} {p : P} {va e : Word} {b : BitVec 8}

theorem vaOffset_lt (va : Word) : vaOffset va < 4096 := by
  rw [vaOffset_eq]
  exact Nat.mod_lt _ (by decide)

theorem wordOf_val (va : Word) : (wordOf va).val = vaOffset va / 8 := by
  have := vaOffset_lt va
  unfold wordOf
  exact Nat.mod_eq_of_lt (by omega)

theorem write_frame (h : Shares w) (he : Leaf w.mem w.roots (slotOf p va) e) :
    ∀ q is n i, is.length ≤ 3 → tableAt w.mem w.roots q is = some n →
      storeByte w.mem (pageOf e) va b n i = w.mem n i := by
  intro q is n i his hn
  have hne : n ≠ pageOf e := by
    rintro rfl
    exact h.tables.notData _ e he q is his hn
  unfold storeByte
  rw [setEntry_page hne]

variable (h : Shares w) (he : Leaf w.mem w.roots (slotOf p va) e) (hroot : w'.roots = w.roots)
  (hmem : w'.mem = storeByte w.mem (pageOf e) va b)
include h he hroot hmem

theorem leaf_write {x : Slot P} {e' : Word} : Leaf w'.mem w'.roots x e' ↔ Leaf w.mem w.roots x e' := by
  rw [hmem, hroot]
  exact leaf_data (write_frame h he)

theorem shares_write : Shares w' := by
  refine ⟨?_, ?_⟩
  · rw [hmem, hroot]
    exact h.tables.data (write_frame h he)
  · intro x y ex ey hx hy
    rw [leaf_write h he hroot hmem] at hx hy
    exact h.shared x y ex ey hx hy

/-- **A write is seen where it was made**, and nowhere else. -/
theorem userByte_write [DecidableEq P] (hro : e &&& pteRo = 0#64) (hva : va.toNat < 2 ^ 48) (p' : P) (va' : Word) :
    userByte w' p' va' = if p' = p ∧ va' = va then some b else userByte w p' va' := by
  have hleaf : leafOf w' p' va' = leafOf w p' va' := leafOf_congr fun _ => leaf_write h he hroot hmem
  unfold userByte
  rw [hleaf]
  by_cases hva' : va'.toNat < 2 ^ 48
  · rw [if_pos hva', if_pos hva']
    cases hl : leafOf w p' va' with
    | none =>
      have hne : ¬ (p' = p ∧ va' = va) := by
        rintro ⟨rfl, rfl⟩
        rw [leafOf_iff.mpr he] at hl
        cases hl
      rw [if_neg hne]
      rfl
    | some e' =>
      have he' := leafOf_iff.mp hl
      rw [map_some, map_some, hmem]
      unfold storeByte
      by_cases hslot : slotOf p' va' = slotOf p va
      · -- the same page: the bytes are told apart by the offset
        have hee : e' = e := (hslot ▸ he').unique he
        rw [hee]
        unfold slotOf at hslot
        rw [Prod.mk.injEq, Prod.mk.injEq] at hslot
        have hlt : vaOffset va' % 8 < 8 := Nat.mod_lt _ (by decide)
        by_cases hoff : vaOffset va' = vaOffset va
        · have hsame : va' = va := va_ext hva' hva hslot.2.1 hslot.2.2 hoff
          rw [if_pos ⟨hslot.1, hsame⟩, hsame, setEntry_self, getByte_setByte _ (Nat.mod_lt _ (by decide)), if_pos rfl]
        · have hdiff : ¬ (p' = p ∧ va' = va) := by
            rintro ⟨-, rfl⟩
            exact hoff rfl
          rw [if_neg hdiff]
          by_cases hword : wordOf va' = wordOf va
          · have hval := congrArg Fin.val hword
            rw [wordOf_val, wordOf_val] at hval
            rw [hword, setEntry_self, getByte_setByte _ hlt, if_neg (by omega)]
          · rw [setEntry_of_ne fun hc => hword hc.2]
      · -- another entry for the page would make it read-only
        have hpage : pageOf e' ≠ pageOf e := by
          intro hp
          exact h.shared _ _ e e' he he' (Ne.symm hslot) hp.symm hro
        have hdiff : ¬ (p' = p ∧ va' = va) := by
          rintro ⟨rfl, rfl⟩
          exact hslot rfl
        rw [if_neg hdiff, setEntry_page hpage]
  · have hdiff : ¬ (p' = p ∧ va' = va) := by
      rintro ⟨-, rfl⟩
      exact hva' hva
    rw [if_neg hva', if_neg hva', if_neg hdiff]

end Write

/-! ### A fault -/

/-- The entry that `handle_copy_on_write` makes. -/
def copied (page : ℕ) (e : Word) : Word := physical page ||| (pteFlags e &&& ~~~pteRo) ||| pteValid

theorem copied_flags (e : Word) :
    (pteFlags e &&& ~~~pteRo ||| pteValid) &&& flagMask = pteFlags e &&& ~~~pteRo ||| pteValid := by
  have hvalid : pteValid &&& flagMask = pteValid := by decide
  rw [and_or_distrib_right, hvalid, BitVec.and_assoc, BitVec.and_comm (~~~pteRo), ← BitVec.and_assoc,
    pteFlags_and]

section Copied

variable {page : ℕ} (hpage : page < pageLimit) (e : Word)
include hpage

theorem pageOf_copied : pageOf (copied page e) = page := by
  unfold copied
  rw [BitVec.or_assoc]
  exact pageOf_entry hpage (copied_flags e)

theorem pteFlags_copied : pteFlags (copied page e) = pteFlags e &&& ~~~pteRo ||| pteValid := by
  unfold copied
  rw [BitVec.or_assoc]
  exact pteFlags_entry hpage (copied_flags e)

theorem copied_valid : copied page e &&& pteValid ≠ 0#64 := by
  have hbit : flagMask &&& pteValid = pteValid := by decide
  rw [← pteFlags_bit (copied page e) hbit, pteFlags_copied hpage, and_or_distrib_right, BitVec.and_self]
  intro h0
  have hlow := congrArg (fun x => x.getLsbD 0) h0
  simp [pteValid] at hlow

theorem copied_writable : copied page e &&& pteRo = 0#64 := by
  have hbit : flagMask &&& pteRo = pteRo := by decide
  have hvalid : pteValid &&& pteRo = 0#64 := by decide
  rw [← pteFlags_bit (copied page e) hbit, pteFlags_copied hpage, and_or_distrib_right, hvalid,
    BitVec.and_assoc, BitVec.not_and_self]
  rw [show (0 : BitVec 64) = 0#64 from rfl, and_zero, or_zero]

end Copied

section Fault

variable {w w' : World P} {p : P} {va e : Word} {page : ℕ} {contents : Idx → Word} {base : ℕ}

/-- **The handler** copies the page and replaces the entry. -/
theorem fault_mem (hfresh : Unused w.mem w.roots page) (he : Leaf w.mem w.roots (slotOf p va) e) {m : Machine}
    (hm : pgfaultHandler base { w.mach with supply := [(page, contents)] } (w.root p) (w.regions p) va = some m) :
    ∃ t, tableAt w.mem w.roots p (path va) = some t ∧
      m.mem = setEntry (update w.mem page (w.mem (pageOf e))) t (vaPart3 va) (copied page e) := by
  obtain ⟨-, ⟨t, ht, htable⟩, -⟩ := id he
  dsimp only [slotOf] at ht htable
  refine ⟨t, ht, ?_⟩
  have htp : t ≠ page := by
    rintro rfl
    exact hfresh.notTable p (path va) (length_path va).le ht
  have htarget : pageOf e ≠ page := hfresh.notMapped _ e he
  have hget : getPte { w.mach with supply := [(page, contents)] } (w.root p) va false =
      some (some (t, vaPart3 va), { w.mach with supply := [(page, contents)] }) := by
    have hsupply : walk child ({ w.mach with supply := [(page, contents)] } : Machine).mem (w.root p) (path va) =
        some t := ht
    exact getPte_of_walk hsupply false
  change w.mach.mem t (vaPart3 va) = e at htable
  unfold pgfaultHandler at hm
  rw [hget] at hm
  dsimp only at hm
  rw [htable] at hm
  cases hk : faultKind (w.regions p) va e with
  | memoryMap v =>
    rw [hk] at hm
    cases hm
  | unknown =>
    rw [hk] at hm
    cases hm
  | copyOnWrite =>
    rw [hk] at hm
    dsimp only [handleCopyOnWrite, kallocPage] at hm
    rw [htable, update_of_ne htarget, update_idem, update_of_ne htp, htable] at hm
    -- the new page is not among the tables, so the lookup finds the same entry
    have hsame : walk child (update w.mach.mem page (w.mach.mem (pageOf e))) (w.root p) (path va) =
        some t := by
      have hdata := tableAt_data (hfresh.frame (w.mem (pageOf e))) p (length_path va).le
      rw [ht] at hdata
      exact hdata
    rw [mapInPgtbl_of_walk _ _ hsame] at hm
    cases hm
    rw [mapAt_mem]
    rfl

variable {t : ℕ} (h : Shares w) (hfresh : Unused w.mem w.roots page) (hroot : w'.roots = w.roots)
  (ht : tableAt w.mem w.roots p (path va) = some t)
  (hmem : w'.mem = setEntry (update w.mem page (w.mem (pageOf e))) t (vaPart3 va) (copied page e))
include h hfresh hroot ht hmem

/-- **A fault changes one entry**, the one of the address. -/
theorem leaf_fault {x : Slot P} {e' : Word} : Leaf w'.mem w'.roots x e' ↔
    (x = slotOf p va ∧ e' = copied page e) ∨ (x ≠ slotOf p va ∧ Leaf w.mem w.roots x e') := by
  have hframe := hfresh.frame (w.mem (pageOf e))
  have ht' := (tableAt_data hframe p (length_path va).le).trans ht
  rw [hmem, hroot, leaf_setLeaf (h.tables.data hframe).apart (length_path va) ht', leaf_data hframe]
  have hvalid := copied_valid hfresh.lt e
  simp [slotOf, hvalid]

theorem shares_fault : Shares w' := by
  have hframe := hfresh.frame (w.mem (pageOf e))
  refine ⟨?_, ?_⟩
  · rw [hmem, hroot]
    refine (h.tables.data hframe).setLeaf (length_path va) ((tableAt_data hframe p (length_path va).le).trans ht)
      fun r js hjs => ?_
    rw [pageOf_copied hfresh.lt, tableAt_data hframe r hjs]
    exact hfresh.notTable r js hjs
  · intro x y ex ey hx hy hne hpage
    rw [leaf_fault h hfresh hroot ht hmem] at hx hy
    rcases hx with ⟨hxs, rfl⟩ | ⟨-, hxold⟩
    · -- the new page is mapped once
      rcases hy with ⟨hys, -⟩ | ⟨-, hyold⟩
      · exact absurd (hxs.trans hys.symm) hne
      · rw [pageOf_copied hfresh.lt] at hpage
        exact absurd hpage.symm (hfresh.notMapped y ey hyold)
    · rcases hy with ⟨-, rfl⟩ | ⟨-, hyold⟩
      · rw [pageOf_copied hfresh.lt] at hpage
        exact absurd hpage (hfresh.notMapped x ex hxold)
      · exact h.shared x y ex ey hxold hyold hne hpage

/-- **A fault is not seen by anyone.** -/
theorem userByte_fault (he : Leaf w.mem w.roots (slotOf p va) e) (p' : P) (va' : Word) :
    userByte w' p' va' = userByte w p' va' := by
  have hpt : page ≠ t := by
    rintro rfl
    exact hfresh.notTable p (path va) (length_path va).le ht
  unfold userByte
  split_ifs
  · by_cases hslot : slotOf p' va' = slotOf p va
    · have hnew : leafOf w' p' va' = some (copied page e) :=
        leafOf_iff.mpr ((leaf_fault h hfresh hroot ht hmem).mpr (Or.inl ⟨hslot, rfl⟩))
      have hold : leafOf w p' va' = some e := leafOf_iff.mpr (hslot ▸ he)
      rw [hnew, hold, map_some, map_some, pageOf_copied hfresh.lt, hmem, setEntry_page hpt,
        update_self]
    · have hleaf : leafOf w' p' va' = leafOf w p' va' := leafOf_congr fun e' => by
        rw [leaf_fault h hfresh hroot ht hmem]
        simp [hslot]
      rw [hleaf]
      cases hl : leafOf w p' va' with
      | none => rfl
      | some e' =>
        have he' := leafOf_iff.mp hl
        have htable : pageOf e' ≠ t := by
          intro heq
          exact h.tables.notData _ e' he' p (path va) (length_path va).le (heq ▸ ht)
        rw [map_some, map_some, hmem, setEntry_page htable,
          update_of_ne (hfresh.notMapped _ e' he')]
  · rfl

end Fault

/-! ### Runs -/

section Runs

variable [DecidableEq P] {base : ℕ}

def seen (l : Label P) (p : P) (va : Word) (old : Option (BitVec 8)) : Option (BitVec 8) :=
  match l with
  | .write p' va' b => if p = p' ∧ va = va' then some b else old
  | .fault _ _ _ _ => old

/-- **One step** keeps the address spaces, and every process reads what its own writes made of what it read. -/
theorem step_isolated {w w' : World P} {l : Label P} (h : Shares w) (hfresh : Fresh w l)
    (hs : step base w l = some w') :
    Shares w' ∧ ∀ p va, userByte w' p va = seen l p va (userByte w p va) := by
  unfold step at hs
  cases l with
  | write p va b =>
    dsimp only at hs
    split_ifs at hs with hva
    obtain ⟨e, hl, he⟩ := bind_eq_some_iff.mp hs
    split_ifs at he with hro
    cases he
    have hleaf := leafOf_iff.mp hl
    have hroot : ({ w with mach := { w.mach with mem := storeByte w.mem (pageOf e) va b } } : World P).roots =
        w.roots := rfl
    exact ⟨shares_write h hleaf hroot rfl, fun p' va' => userByte_write h hleaf hroot rfl hro hva p' va'⟩
  | fault p va page contents =>
    dsimp only at hs
    split_ifs at hs with hva
    obtain ⟨e, hl, he⟩ := bind_eq_some_iff.mp hs
    split_ifs at he with hro
    obtain ⟨m, hm, rfl⟩ := map_eq_some_iff.mp he
    have hleaf := leafOf_iff.mp hl
    obtain ⟨t, ht, hmem⟩ := fault_mem hfresh hleaf hm
    have hroot : ({ w with mach := m } : World P).roots = w.roots := rfl
    exact ⟨shares_fault h hfresh hroot ht hmem, fun p' va' => userByte_fault h hfresh hroot ht hmem hleaf p' va'⟩

omit [DecidableEq P] in
theorem retry_possible {w w' : World P} {p : P} {va : Word} {page : ℕ} {contents : Idx → Word} (h : Shares w)
    (hfresh : Fresh w (.fault p va page contents)) (hs : step base w (.fault p va page contents) = some w')
    (b : BitVec 8) : ∃ w'', step base w' (.write p va b) = some w'' := by
  unfold step at hs ⊢
  dsimp only at hs ⊢
  split_ifs at hs with hva
  obtain ⟨e, hl, he⟩ := bind_eq_some_iff.mp hs
  split_ifs at he with hro
  obtain ⟨m, hm, rfl⟩ := map_eq_some_iff.mp he
  obtain ⟨t, ht, hmem⟩ := fault_mem hfresh (leafOf_iff.mp hl) hm
  have hroot : ({ w with mach := m } : World P).roots = w.roots := rfl
  have hnew : leafOf { w with mach := m } p va = some (copied page e) :=
    leafOf_iff.mpr ((leaf_fault h hfresh hroot ht hmem).mpr (Or.inl ⟨rfl, rfl⟩))
  rw [if_pos hva, hnew, bind_some, if_pos (copied_writable hfresh.lt e)]
  exact ⟨_, rfl⟩

def seenAfter (p : P) (va : Word) : List (Label P) → Option (BitVec 8) → Option (BitVec 8)
  | [], old => old
  | l :: ls, old => seenAfter p va ls (seen l p va old)

/-- **Copy-on-write isolation.** In any interleaving of writes and faults the tables stay disjoint and the pages
that are mapped twice read-only; a process reads what it read at first, changed by its own writes only and to
the values they wrote; and a write that trapped can be done after the fault. -/
theorem cow_isolation {w w' : World P} {ls : List (Label P)} (h : Shares w)
    (hrun : Run (step base) Fresh w ls w') :
    Shares w' ∧ (∀ p va, userByte w' p va = seenAfter p va ls (userByte w p va)) ∧
    ∀ p va page contents w'' b, Fresh w' (.fault p va page contents) →
      step base w' (.fault p va page contents) = some w'' → ∃ v, step base w'' (.write p va b) = some v := by
  induction hrun with
  | nil w =>
    exact ⟨h, fun p va => rfl, fun p va page contents w'' b hf hs => retry_possible h hf hs b⟩
  | cons hf hs _ ih =>
    obtain ⟨hspaces, hseen⟩ := step_isolated h hf hs
    obtain ⟨h1, h2, h3⟩ := ih hspaces
    refine ⟨h1, fun p va => ?_, h3⟩
    rw [h2 p va, hseen p va]
    rfl

end Runs

/-! ### Two processes with a page in common -/

/-- The tables of two processes, from the pages 1 and 5 on; both map page 9 at address 0, read-only. -/
def pairMem (n : ℕ) (i : Idx) : Word :=
  if i.val = 0 then
    if n = 4 ∨ n = 8 then physical 9 ||| (pteUserData ||| pteRo)
    else if 1 ≤ n ∧ n < 8 then physical (n + 1) ||| pteTable
    else 0#64
  else 0#64

def pairWorld : World Bool :=
  ⟨⟨pairMem, fun _ => 0, [], []⟩, fun p => if p then 1 else 5, fun _ => [⟨vmrHeap, 0#64, 4096#64, initMmapInfo⟩]⟩

theorem pair_child {n n' : ℕ} {i : Idx} (hn : n ≠ 4 ∧ n ≠ 8) (h : child (pairMem n i) = some n') :
    i.val = 0 ∧ n' = n + 1 := by
  obtain ⟨hv, hp⟩ := child_eq_some.mp h
  unfold pairMem at hv hp
  split_ifs at hv hp with hi hleaf htable
  · omega
  · refine ⟨hi, hp.symm.trans (pageOf_entry ?_ (by decide))⟩
    unfold pageLimit
    omega
  · exact absurd (by decide) hv
  · exact absurd (by decide) hv

theorem pair_walk {r : ℕ} (hr : r = 1 ∨ r = 5) : ∀ (is : List Idx) (k n : ℕ), k + is.length ≤ 3 →
    walk child pairMem (r + k) is = some n → n = r + k + is.length ∧ ∀ i ∈ is, i.val = 0
  | [], k, n, _, h => by
    cases h
    exact ⟨rfl, fun i hi => absurd hi not_mem_nil⟩
  | i :: is, k, n, hk, h => by
    rw [length_cons] at hk
    rw [walk] at h
    obtain ⟨n', hc, hw⟩ := bind_eq_some_iff.mp h
    obtain ⟨hi, rfl⟩ := pair_child (by omega) hc
    obtain ⟨hn, hall⟩ := pair_walk hr is (k + 1) n (by omega) hw
    refine ⟨by rw [hn, length_cons]; omega, fun j hj => ?_⟩
    rcases mem_cons.mp hj with rfl | hj
    · exact hi
    · exact hall j hj

theorem pair_table {p : Bool} {is : List Idx} {n : ℕ} (his : is.length ≤ 3) (h : tableAt pairWorld.mem pairWorld.roots p is = some n) :
    n = (if p then 1 else 5) + is.length ∧ ∀ i ∈ is, i.val = 0 := by
  have hr : (if p then 1 else 5) = 1 ∨ (if p then 1 else 5) = 5 := by cases p <;> simp
  exact pair_walk hr is 0 n (by omega) h

theorem pair_leaf {x : Slot Bool} {e : Word} (h : Leaf pairWorld.mem pairWorld.roots x e) :
    (∀ i ∈ x.2.1, i.val = 0) ∧ x.2.2.val = 0 ∧ e = physical 9 ||| (pteUserData ||| pteRo) := by
  obtain ⟨hlen, ⟨n, hn, rfl⟩, hv⟩ := h
  obtain ⟨rfl, hall⟩ := pair_table hlen.le hn
  refine ⟨hall, ?_⟩
  have hlast : (if x.1 then 1 else 5) + x.2.1.length = 4 ∨ (if x.1 then 1 else 5) + x.2.1.length = 8 := by
    cases x.1 <;> simp [hlen]
  change pairMem _ _ &&& pteValid ≠ 0#64 at hv
  change x.2.2.val = 0 ∧ pairMem _ _ = _
  unfold pairMem at hv ⊢
  rw [if_pos hlast] at hv ⊢
  split_ifs at hv ⊢ with hi
  · exact ⟨hi, rfl⟩
  · exact absurd (by decide) hv

theorem pair_path {is is' : List Idx} (hlen : is.length = is'.length) (h : ∀ i ∈ is, i.val = 0)
    (h' : ∀ i ∈ is', i.val = 0) : is = is' := by
  refine ext_getElem hlen fun k h1 h2 => Fin.ext ?_
  rw [h _ (getElem_mem h1), h' _ (getElem_mem h2)]

theorem pair_shares : Shares pairWorld := by
  have hpage : pageOf (physical 9 ||| (pteUserData ||| pteRo)) = 9 := pageOf_entry (by decide) (by decide)
  refine ⟨⟨?_, ?_⟩, ?_⟩
  · intro p p' is is' n his his' hn hn'
    obtain ⟨h1, hz⟩ := pair_table his hn
    obtain ⟨h2, hz'⟩ := pair_table his' hn'
    have hp : p = p' := by
      cases p <;> cases p' <;> simp at h1 h2 ⊢ <;> omega
    subst hp
    exact ⟨rfl, pair_path (by omega) hz hz'⟩
  · intro x e hx p is his hn
    obtain ⟨-, -, rfl⟩ := pair_leaf hx
    rw [hpage] at hn
    obtain ⟨hnine, -⟩ := pair_table his hn
    cases p <;> simp at hnine <;> omega
  · intro x y e e' hx _ _ _
    obtain ⟨-, -, rfl⟩ := pair_leaf hx
    decide

/-- One of the processes writes to the common page. It reads the byte it wrote, the other one what was there. -/
theorem cow_isolation_pair : ∃ w : World Bool,
    Run (step 0) Fresh pairWorld [.fault true 0#64 10 (fun _ => 7#64), .write true 0#64 171#8] w ∧
      userByte w true 0#64 = some 171#8 ∧ userByte w false 0#64 = some 0#8 := by
  obtain ⟨w1, h1⟩ := isSome_iff_exists.mp
    (by decide +kernel : (step 0 pairWorld (.fault true 0#64 10 fun _ => 7#64)).isSome = true)
  have hfresh : Fresh pairWorld (.fault true 0#64 10 fun _ => 7#64) := by
    refine ⟨by decide, fun p is his hn => ?_, fun x e hx => ?_⟩
    · obtain ⟨hten, -⟩ := pair_table his hn
      cases p <;> simp at hten <;> omega
    · obtain ⟨-, -, rfl⟩ := pair_leaf hx
      rw [pageOf_entry (by decide) (by decide)]
      decide
  obtain ⟨w2, h2⟩ := retry_possible pair_shares hfresh h1 171#8
  have hrun : Run (step 0) Fresh pairWorld [.fault true 0#64 10 (fun _ => 7#64), .write true 0#64 171#8] w2 :=
    .cons hfresh h1 (.cons trivial h2 (.nil _))
  obtain ⟨-, hseen, -⟩ := cow_isolation pair_shares hrun
  have hold : userByte pairWorld false 0#64 = some 0#8 := by decide +kernel
  refine ⟨w2, hrun, ?_, ?_⟩
  · rw [hseen]
    simp [seenAfter, seen]
  · rw [hseen, hold]
    simp [seenAfter, seen]

end OsHonor.Vm.PageTables.Isolation
