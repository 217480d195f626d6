import OsHonor.Base.Slots
import OsHonor.Fs.Inodes.Files

/-! # Directories

A directory is a file of entries. `inode_lookup` returns the first entry in use with the given name
(`inodeLookup_peeks`), where names are compared by `strncmp`: on C strings this compares the first
`FILE_NAME_MAX_LENGTH` characters (`same_nameOf`). -/

namespace OsHonor.Fs.Inodes.Directories

open List Base.Bytes Base.Slots BlockDevice Format
open Code BlockStore Reading Files

/-! ### Names -/

theorem strncmpEq_congr : ∀ (n : ℕ) {s s' t t' : ℕ → UInt8}, (∀ i < n, s i = s' i) → (∀ i < n, t i = t' i) →
    strncmpEq n s t = strncmpEq n s' t'
  | 0, _, _, _, _, _, _ => rfl
  | n + 1, s, s', t, t', hs, ht => by
    unfold strncmpEq
    rw [hs 0 (by omega), ht 0 (by omega), strncmpEq_congr n (fun i hi => hs (i + 1) (by omega))
      fun i hi => ht (i + 1) (by omega)]

theorem strncmpEq_getD : ∀ (n : ℕ) {s t : List UInt8}, 0 ∉ s → 0 ∉ t →
    (strncmpEq n (s.getD · 0) (t.getD · 0) = true ↔ s.take n = t.take n)
  | 0, _, _, _, _ => by simp [strncmpEq]
  | n + 1, [], [], _, _ => by simp [strncmpEq]
  | n + 1, [], c :: t, _, ht => by
    have hc : (0 : UInt8) ≠ c := fun h => ht (by simp [h])
    simp [strncmpEq, hc]
  | n + 1, c :: s, [], hs, _ => by
    have hc : c ≠ 0 := fun h => hs (by simp [h])
    simp [strncmpEq, hc]
  | n + 1, c :: s, c' :: t, hs, ht => by
    have hc : c ≠ 0 := fun h => hs (by simp [h])
    have ih := strncmpEq_getD n (fun h => hs (mem_cons_of_mem c h))
      fun h => ht (mem_cons_of_mem c' h)
    have hstep : strncmpEq (n + 1) ((c :: s).getD · 0) ((c' :: t).getD · 0) =
        if c ≠ c' then false else strncmpEq n (s.getD · 0) (t.getD · 0) := by
      simp [strncmpEq, hc]
    rw [hstep, take_succ_cons, take_succ_cons, List.cons.injEq]
    split_ifs with hne
    · simp [hne]
    · rw [ih]
      exact (and_iff_right (not_not.mp hne)).symm

/-- The bytes of `s` up to the first NUL, at most `n`. -/
def cstr : ℕ → (ℕ → UInt8) → List UInt8
  | 0, _ => []
  | n + 1, s => if s 0 = 0 then [] else s 0 :: cstr n fun i => s (i + 1)

theorem strncmpEq_iff : ∀ (n : ℕ) (s t : ℕ → UInt8), strncmpEq n s t = true ↔ cstr n s = cstr n t
  | 0, _, _ => by simp [strncmpEq, cstr]
  | n + 1, s, t => by
    have ih := strncmpEq_iff n (fun i => s (i + 1)) fun i => t (i + 1)
    unfold strncmpEq cstr
    by_cases hne : s 0 = t 0
    · rw [if_neg (not_not.mpr hne), hne]
      split_ifs
      · simp
      · rw [ih, List.cons.injEq, and_iff_right rfl]
    · rw [if_pos hne]
      split_ifs with hs ht
      · exact absurd (hs.trans ht.symm) hne
      · simp
      · simp
      · simp [hne]

def Name.key (s : Name) : List UInt8 := cstr fileNameMaxLength s.byte

theorem same_iff_key {s t : Name} : s.same t = true ↔ Name.key s = Name.key t := strncmpEq_iff _ _ _

/-- The name field for the C string `s`: its first characters, and zeros behind them. -/
def nameOf (s : List UInt8) : Name := fun i => s.getD i.val 0

/-- **Names are compared by their first `FILE_NAME_MAX_LENGTH` characters.** -/
theorem same_nameOf {s t : List UInt8} (hs : 0 ∉ s) (ht : 0 ∉ t) :
    (nameOf s).same (nameOf t) = true ↔ s.take fileNameMaxLength = t.take fileNameMaxLength := by
  have hbyte : ∀ (s : List UInt8), ∀ i < fileNameMaxLength, (nameOf s).byte i = s.getD i 0 :=
    fun s i hi => by rw [Buf.byte, dif_pos hi]; rfl
  unfold Name.same
  rw [strncmpEq_congr fileNameMaxLength (hbyte s) (hbyte t)]
  exact strncmpEq_getD _ hs ht

/-! ### Entries -/

theorem inodeNo_mk (n : UInt16) (s : Name) : (Dirent.mk n s).inodeNo = n := by
  have hle : (Dirent.mk n s).getLe 2 0 = n.toNat := Buf.getLe_of_bytes
    (fun k hk => by
      have hk' : 0 + k < direntSize := by unfold direntSize; omega
      rw [Buf.byte, dif_pos hk']
      show (if 0 + k < 2 then leByte n.toNat (0 + k) else _) = _
      rw [if_pos (by omega), Nat.zero_add])
    (lt_of_lt_of_le n.toNat_lt (by norm_num))
  unfold Dirent.inodeNo
  rw [hle]
  exact UInt16.ofNat_toNat

theorem name_mk (n : UInt16) (s : Name) : (Dirent.mk n s).name = s := by
  funext i
  have hi : 2 + i.val < direntSize := Nat.add_lt_add_left i.isLt 2
  unfold Dirent.name
  rw [Buf.byte, dif_pos hi]
  show (if 2 + i.val < 2 then _ else s.byte (2 + i.val - 2)) = _
  rw [if_neg (by omega), Nat.add_sub_cancel_left, Buf.byte, dif_pos i.isLt]

theorem direntOf_bytes (junk d : Dirent) : direntOf junk (bytes d) = d := by
  funext i
  unfold direntOf Buf.splice
  rw [length_bytes, if_pos ⟨Nat.zero_le _, by rw [Nat.zero_add]; exact i.isLt⟩, Nat.sub_zero,
    List.getD_eq_getElem _ _ (by rw [length_bytes]; exact i.isLt)]
  exact List.getElem_ofFn _

def used (d : Dirent) : Bool := d.inodeNo ≠ 0

def key (d : Dirent) : List UInt8 := Name.key d.name

def numberOf (d : Dirent) : ℕ := d.inodeNo.toNat

/-- The zeros that `inode_remove` writes. -/
def freeDirent : Dirent := fun _ => 0

theorem bytes_freeDirent : bytes freeDirent = List.replicate direntSize 0 := ofFn_const _ _

theorem used_freeDirent : used freeDirent = false := by decide

theorem length_flatMap_bytes (l : List Dirent) : (l.flatMap bytes).length = direntSize * l.length := by
  rw [length_flatMap]
  simp [Nat.mul_comm]

def dirents (c : List UInt8) : List Dirent :=
  (List.range (c.length / direntSize)).map fun k i => c.getD (direntSize * k + i.val) 0

theorem flatMap_range_getD : ∀ {k : ℕ} {c : List UInt8}, c.length = direntSize * k →
    ((List.range k).map fun k i => c.getD (direntSize * k + i.val) 0 : List Dirent).flatMap bytes = c := by
  intro k
  induction k with
  | zero => exact fun h => (List.eq_nil_of_length_eq_zero h).symm
  | succ k ih =>
    intro c hc
    rw [Nat.mul_succ] at hc
    have htake : (c.take (direntSize * k)).length = direntSize * k := by
      rw [List.length_take, hc]
      exact min_eq_left (Nat.le_add_right _ _)
    have hfirst : ((List.range k).map fun k i => c.getD (direntSize * k + i.val) 0 : List Dirent) =
        (List.range k).map fun j i => (c.take (direntSize * k)).getD (direntSize * j + i.val) 0 := by
      refine List.map_congr_left fun j hj => funext fun i => ?_
      have hlt : direntSize * j + i.val < direntSize * k := by
        have h1 := Nat.mul_le_mul_left direntSize (List.mem_range.mp hj)
        rw [Nat.mul_succ] at h1
        exact lt_of_lt_of_le (Nat.add_lt_add_left i.isLt _) h1
      rw [List.getD_eq_getElem?_getD, List.getD_eq_getElem?_getD, List.getElem?_take_of_lt hlt]
    have hlast : bytes (fun i : Fin direntSize => c.getD (direntSize * k + i.val) 0) = c.drop (direntSize * k) := by
      refine List.ext_getElem ?_ fun i h1 h2 => ?_
      · rw [length_bytes, List.length_drop, hc, Nat.add_sub_cancel_left]
      · rw [List.length_drop] at h2
        have hget : (bytes fun i : Fin direntSize => c.getD (direntSize * k + i.val) 0)[i] =
            c.getD (direntSize * k + i) 0 := List.getElem_ofFn _
        rw [hget, List.getElem_drop, List.getD_eq_getElem _ _ (by omega)]
    rw [List.range_succ, List.map_append, List.flatMap_append, hfirst, ih htake, List.map_singleton,
      List.flatMap_singleton, hlast, List.take_append_drop]

/-- **Whole entries.** -/
theorem flatMap_dirents {c : List UInt8} (h : c.length % direntSize = 0) : (dirents c).flatMap bytes = c :=
  flatMap_range_getD (Nat.mul_div_cancel' (Nat.dvd_of_mod_eq_zero h)).symm

/-! ### `inode_lookup` -/

def Hit (name : Name) (d : Dirent) : Prop := d.inodeNo ≠ 0 ∧ d.name.same name

variable {S : Set ℕ} {b : Disk} {inode : Inode} {name : Name}

variable {d : Dirent} {rest : List UInt8} {ds : List Dirent}

theorem inodeRead_entry (hS : ∀ x, refs b inode.entry x ∈ S) (ht : inode.entry.type ≠ inodeDevice)
    (hsize : inode.entry.numBytes.toNat ≤ inodeMaxBytes) {i : ℕ}
    (hi : i ≤ inode.entry.numBytes.toNat) (hdrop : (contents b inode.entry).drop i = bytes d ++ rest) :
    i + direntSize ≤ inode.entry.numBytes.toNat ∧ (contents b inode.entry).drop (i + direntSize) = rest ∧
      Peeks S b (inodeRead inode i direntSize) (direntSize, bytes d) := by
  have hbig : inodeMaxBytes + direntSize < 2 ^ 64 := by decide
  have hlen := congrArg List.length hdrop
  rw [length_drop, length_contents, length_append, length_bytes] at hlen
  have hpos : 0 < direntSize := by decide
  refine ⟨by omega, ?_, ?_⟩
  · rw [← drop_drop, hdrop, drop_append_of_le_length (by rw [length_bytes]),
      drop_eq_nil_of_le (by rw [length_bytes]), nil_append]
  · have hread : Peeks S b (inodeRead inode i direntSize) _ :=
      inodeRead_peeks hS ht hsize hi (by omega)
    rwa [hdrop, min_eq_left (by omega), take_append_of_le_length (by rw [length_bytes]),
      take_of_length_le (by rw [length_bytes])] at hread

section Scans

variable {α : Type} {stop : Dirent → Prop} [DecidablePred stop] {hit : Dirent → ℕ → α} {miss : ℕ → α}
  {loop : ℕ → ℕ → FsProg α} {junk : Dirent} {a : α} {fuel i : ℕ} (hl : Scans inode junk stop hit miss loop)
  (hS : ∀ x, refs b inode.entry x ∈ S) (ht : inode.entry.type ≠ inodeDevice)
  (hsize : inode.entry.numBytes.toNat ≤ inodeMaxBytes)
include hl hS ht hsize

theorem Scans.entry (hi : i ≤ inode.entry.numBytes.toNat) (hdrop : (contents b inode.entry).drop i = bytes d ++ rest)
    (hnext : Peeks S b (if stop d then pure (hit d i) else loop fuel (i + direntSize)) a) :
    Peeks S b (loop (fuel + 1) i) a := by
  obtain ⟨hle, -, hread⟩ := inodeRead_entry hS ht hsize hi hdrop
  rw [hl.succ, if_pos (lt_of_lt_of_le (Nat.lt_add_of_pos_right (by decide)) hle)]
  refine peeks_bind hread ?_
  dsimp only
  rwa [direntOf_bytes]

theorem Scans.skip : ∀ {ds : List Dirent} {i : ℕ}, (∀ d ∈ ds, ¬ stop d) → i ≤ inode.entry.numBytes.toNat →
    (contents b inode.entry).drop i = ds.flatMap bytes ++ rest →
    i + direntSize * ds.length ≤ inode.entry.numBytes.toNat ∧
      (contents b inode.entry).drop (i + direntSize * ds.length) = rest ∧
      (Peeks S b (loop fuel (i + direntSize * ds.length)) a → Peeks S b (loop (fuel + ds.length) i) a)
  | [], i, _, hi, hdrop => ⟨hi, hdrop, id⟩
  | d :: ds, i, hds, hi, hdrop => by
    rw [flatMap_cons, append_assoc] at hdrop
    obtain ⟨hle, hrest, -⟩ := inodeRead_entry hS ht hsize hi hdrop
    obtain ⟨hle', hrest', hrun⟩ := Scans.skip (fun d hd => hds d (mem_cons_of_mem _ hd)) hle hrest
    rw [length_cons, show i + direntSize * (ds.length + 1) = i + direntSize + direntSize * ds.length by ring]
    refine ⟨hle', hrest', fun h => Scans.entry hl hS ht hsize hi hdrop ?_⟩
    rw [if_neg (hds d mem_cons_self)]
    exact hrun h

theorem Scans.stops (hds : ∀ d ∈ ds, ¬ stop d) (hd : stop d) (hfuel : ds.length < fuel)
    (hcont : contents b inode.entry = ds.flatMap bytes ++ (bytes d ++ rest)) :
    Peeks S b (loop fuel 0) (hit d (direntSize * ds.length)) := by
  obtain ⟨k, rfl⟩ := Nat.exists_eq_add_of_lt hfuel
  obtain ⟨hle, hrest, hrun⟩ := Scans.skip hl hS ht hsize hds (Nat.zero_le _) hcont
  rw [Nat.zero_add] at hle hrest hrun
  rw [Nat.add_assoc, Nat.add_comm]
  refine hrun (Scans.entry hl hS ht hsize hle hrest ?_)
  rw [if_pos hd]
  exact peeks_pure _

theorem Scans.ends (hds : ∀ d ∈ ds, ¬ stop d) (hfuel : ds.length ≤ fuel)
    (hcont : contents b inode.entry = ds.flatMap bytes) : Peeks S b (loop fuel 0) (miss (direntSize * ds.length)) := by
  obtain ⟨k, rfl⟩ := Nat.exists_eq_add_of_le hfuel
  obtain ⟨hle, hrest, hrun⟩ := Scans.skip hl hS ht hsize hds (Nat.zero_le _) (hcont.trans (append_nil _).symm)
  rw [Nat.zero_add] at hle hrest hrun
  have hend : ¬ direntSize * ds.length < inode.entry.numBytes.toNat := by
    have := congrArg List.length hrest
    rw [length_drop, length_contents, length_nil] at this
    omega
  rw [Nat.add_comm]
  refine hrun ?_
  cases k with
  | zero =>
    rw [hl.zero]
    exact peeks_pure _
  | succ k =>
    rw [hl.succ, if_neg hend]
    exact peeks_pure _

end Scans

/-- **`inode_lookup`** returns the first entry in use with this name. -/
theorem inodeLookup_peeks (hS : ∀ x, refs b inode.entry x ∈ S) (ht : inode.entry.type = inodeDirectory)
    (hsize : inode.entry.numBytes.toNat ≤ inodeMaxBytes) (junk : Dirent) (hds : ∀ d ∈ ds, ¬ Hit name d) (hd : Hit name d)
    (hcont : contents b inode.entry = (ds ++ [d]).flatMap bytes ++ rest) :
    Peeks S b (inodeLookup inode name junk) (some (d.inodeNo, direntSize * ds.length)) := by
  have hdev : inode.entry.type ≠ inodeDevice := by
    rw [ht]
    decide
  have hlen : ds.length < inode.entry.numBytes.toNat := by
    have := congrArg List.length hcont
    rw [length_contents, length_append, length_flatMap_bytes, length_append,
      length_singleton] at this
    rw [this]
    show _ < 16 * (_ + 1) + _
    omega
  unfold inodeLookup
  refine peeks_bind (peeks_check ht) ?_
  exact Scans.stops (scans_lookup inode name junk) hS hdev hsize hds hd hlen (by simpa using hcont)

/-- **`inode_lookup`** of a name that is not there. -/
theorem inodeLookup_miss (hS : ∀ x, refs b inode.entry x ∈ S) (ht : inode.entry.type = inodeDirectory)
    (hsize : inode.entry.numBytes.toNat ≤ inodeMaxBytes) (junk : Dirent)
    (hds : ∀ d ∈ ds, ¬ Hit name d) (hcont : contents b inode.entry = ds.flatMap bytes) :
    Peeks S b (inodeLookup inode name junk) none := by
  have hdev : inode.entry.type ≠ inodeDevice := by
    rw [ht]
    decide
  unfold inodeLookup
  refine peeks_bind (peeks_check ht) ?_
  have hlen : ds.length ≤ inode.entry.numBytes.toNat := by
    rw [← length_contents b, hcont, length_flatMap_bytes]
    exact Nat.le_mul_of_pos_left _ (by decide)
  exact Scans.ends (scans_lookup inode name junk) hS hdev hsize hds hlen hcont

theorem hit_iff : Hit name d ↔ used d = true ∧ key d = Name.key name := by
  unfold Hit used key
  rw [same_iff_key, decide_eq_true_eq]

section

variable {sb : SuperBlock} {al : Allocator sb} {s : Store} {l : List Dirent}

/-- **`inode_lookup`** in the entries `l`, of a name that is not there. -/
theorem run_inodeLookup_none (ht : inode.entry.type = inodeDirectory)
    (hsize : inode.entry.numBytes.toNat ≤ inodeMaxBytes) (hcont : contents s.blocks inode.entry = l.flatMap bytes)
    (hm : slotOf used key (Name.key name) l = none) (junk : Dirent) :
    (inodeLookup inode name junk).run (storeCall al) s = some (none, s) := by
  rw [slotOf, find?_eq_none] at hm
  have hmiss : ∀ d ∈ l, ¬ Hit name d := by
    intro d hd hhit
    have := hm d hd
    simp only [Bool.and_eq_true, decide_eq_true_eq] at this
    exact this (hit_iff.mp hhit)
  exact (inodeLookup_miss (S := Set.univ) (fun _ => trivial) ht hsize junk hmiss hcont).run_store

variable (al) in
/-- **`inode_lookup`** in the entries `l`, of a name that is there. -/
theorem run_inodeLookup_some (ht : inode.entry.type = inodeDirectory)
    (hsize : inode.entry.numBytes.toNat ≤ inodeMaxBytes) (hcont : contents s.blocks inode.entry = l.flatMap bytes)
    (hm : slotOf used key (Name.key name) l = some d) (junk : Dirent) : ∃ p q, l = p ++ d :: q ∧
      (inodeLookup inode name junk).run (storeCall al) s = some (some (d.inodeNo, direntSize * p.length), s) := by
  obtain ⟨hpos, p, q, rfl, hp⟩ := find?_eq_some_iff_append.mp hm
  simp only [Bool.and_eq_true, decide_eq_true_eq] at hpos
  have hmiss : ∀ d ∈ p, ¬ Hit name d := by
    intro d hd hhit
    have := hp d hd
    simp only [Bool.not_eq_true', Bool.and_eq_false_iff, decide_eq_false_iff_not] at this
    obtain ⟨h1, h2⟩ := hit_iff.mp hhit
    rcases this with hu | hk
    · simp [h1] at hu
    · exact hk h2
  have hsplit : contents s.blocks inode.entry = (p ++ [d]).flatMap bytes ++ q.flatMap bytes := by
    rw [hcont]
    simp
  exact ⟨p, q, rfl, (inodeLookup_peeks (S := Set.univ) (fun _ => trivial) ht hsize junk hmiss
    (hit_iff.mpr hpos) hsplit).run_store⟩

end

end OsHonor.Fs.Inodes.Directories
