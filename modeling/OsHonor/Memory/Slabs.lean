import OsHonor.Base.Runs
import OsHonor.Memory.Allocator

/-! # The allocator hands out disjoint objects

`Layout` says where every page is (`Place`: in `pages_free`, in a slab, or handed out) and what the
lists of the allocator hold. Every call keeps it (`kallocPage_layout`, `kfreePage_layout`,
`kalloc_layout`, `kfree_layout`), and so do the writes of the owners to their objects. `allocator_safe`
reads off what a client may rely on. -/

namespace OsHonor.Memory.Slabs

open List Function Lib.Rings Allocator

/-! ### Links in pages -/

/-- The address `a` lies in the page at `p`. -/
def InPage (p a : ℕ) : Prop := p ≤ a ∧ a < p + pageSize

variable {p a size b z : ℕ} {mem : ℕ → ℕ} {F live : List ℕ}

theorem links_setLinks (mem : ℕ → ℕ) (h : Links ℕ) (hp : p % pageSize = 0) :
    (pageLinks (setLinks mem h)).next p = h.next p ∧ (pageLinks (setLinks mem h)).prev p = h.prev p := by
  have h8 : (p + 8) % pageSize = 8 := by
    unfold pageSize at hp ⊢
    omega
  have h80 : (p + 8) % pageSize ≠ 0 := by omega
  simp only [pageLinks, setLinks]
  rw [if_neg h80, if_pos h8, if_pos hp, Nat.add_sub_cancel]
  exact ⟨rfl, rfl⟩

theorem setLinks_frame {h : Links ℕ} {l : List ℕ}
    (hl : ∀ q, q ∉ l → h.next q = (pageLinks mem).next q ∧ h.prev q = (pageLinks mem).prev q)
    (ha : ∀ q ∈ l, ¬ InPage q a) : setLinks mem h a = mem a := by
  unfold InPage pageSize at ha
  unfold setLinks pageSize
  split_ifs with h0 h8
  · exact (hl a fun hm => ha a hm (by omega)).2
  · have ha8 : a - 8 + 8 = a := by omega
    have hnext := (hl (a - 8) fun hm => ha (a - 8) hm (by omega)).1
    rw [hnext]
    exact congrArg mem ha8
  · rfl

theorem kallocPage_spec {s : State}
    (hF : Holds (pageLinks s.mem) s.pagesFree (p :: F)) (hal : ∀ q ∈ p :: F, q % pageSize = 0) :
    ∃ mem l, kallocPage s = some (p, { s with mem := mem, pagesFree := l, allocPageCnt := s.allocPageCnt + 1 }) ∧
      Holds (pageLinks mem) l F ∧ ∀ a, (∀ q ∈ p :: F, ¬ InPage q a) → mem a = s.mem a := by
  obtain ⟨h', L', hpop, hholds, hframe⟩ := popHead_holds hF
  refine ⟨setLinks s.mem h', L', ?_, ?_, fun a ha => setLinks_frame hframe ha⟩
  · rw [kallocPage, show s.pagesFree.head = some p from hF.2.2.1, hpop]
    rfl
  · exact hholds.frame fun q hq => links_setLinks s.mem h' (hal q (mem_cons_of_mem p hq))

variable {L : Lst ℕ} {mem' : ℕ → ℕ} {j : ℕ} {pages' : List ℕ} {g : Page} {o : ℕ × ℕ}

theorem pushPage_spec (hF : Holds (pageLinks mem) L F)
    (hp : p ∉ F) (hal : ∀ q ∈ p :: F, q % pageSize = 0) :
    Holds (pageLinks (setLinks mem (listPushBack (pageLinks mem) L p).1))
        (listPushBack (pageLinks mem) L p).2 (F ++ [p]) ∧
      ∀ a, (∀ q ∈ p :: F, ¬ InPage q a) →
        setLinks mem (listPushBack (pageLinks mem) L p).1 a = mem a := by
  obtain ⟨hholds, hframe⟩ := pushBack_holds hF hp
  refine ⟨hholds.frame fun q hq => links_setLinks mem _ (hal q ?_), fun a ha => setLinks_frame hframe ha⟩
  rcases mem_append.mp hq with hq | hq
  · exact mem_cons_of_mem p hq
  · rw [mem_singleton.mp hq]
    exact mem_cons_self

/-! ### Rounding -/

theorem roundUpLoop_spec {s : ℕ} (hs : s ≤ 2048) : ∀ (fuel index : ℕ), index ≤ 11 → 11 < index + fuel →
    (∀ j, s ≤ 2 ^ j → index ≤ j) →
    ∃ b ≤ 11, roundUpLoop s fuel (2 ^ index) index = some (2 ^ b, b) ∧ s ≤ 2 ^ b ∧ ∀ j, s ≤ 2 ^ j → b ≤ j
  | 0, index, h11, hf, _ => by omega
  | fuel + 1, index, h11, hf, hleast => by
    rw [roundUpLoop]
    split_ifs with hlt
    · have hne : index ≠ 11 := by
        rintro rfl
        omega
      have hpow : 2 ^ index * 2 % 2 ^ 16 = 2 ^ (index + 1) := by
        rw [← Nat.pow_succ]
        exact Nat.mod_eq_of_lt (Nat.pow_lt_pow_right (by decide) (by omega))
      rw [hpow]
      refine roundUpLoop_spec hs fuel (index + 1) (by omega) (by omega) fun j hj => ?_
      by_contra hc
      have hji : j ≤ index := by omega
      exact absurd (hj.trans (Nat.pow_le_pow_right (by decide) hji)) (by omega)
    · exact ⟨index, h11, rfl, by omega, hleast⟩

/-- **`__round_up`** gives the least power of two that is at least the size and eight. -/
theorem roundUp_spec {s : ℕ} (hs : s ≤ 2048) :
    ∃ b, roundUp s = some (2 ^ b, b) ∧ 3 ≤ b ∧ b ≤ 11 ∧ max s 8 ≤ 2 ^ b ∧ ∀ j, max s 8 ≤ 2 ^ j → b ≤ j := by
  obtain ⟨b, hb, hloop, hle, hleast⟩ := roundUpLoop_spec hs 17 0 (by omega) (by omega) (by omega)
  have h8 : ∀ j, 8 ≤ 2 ^ j ↔ 3 ≤ j := by
    intro j
    exact Nat.pow_le_pow_iff_right (a := 2) (by decide) (n := 3)
  refine ⟨max b 3, ?_, by omega, by omega, ?_, ?_⟩
  · rw [roundUp, show (1 : ℕ) = 2 ^ 0 from rfl, hloop]
    simp only [Option.map_some, h8]
    by_cases h3 : 3 ≤ b
    · rw [if_pos h3, if_pos h3, Nat.max_eq_left h3]
    · rw [if_neg h3, if_neg h3, Nat.max_eq_right (by omega)]
      rfl
  · refine Nat.max_le.mpr ⟨hle.trans (Nat.pow_le_pow_right (by decide) (Nat.le_max_left b 3)), ?_⟩
    exact (h8 _).mpr (Nat.le_max_right b 3)
  · intro j hj
    obtain ⟨hsj, h8j⟩ := Nat.max_le.mp hj
    exact Nat.max_le.mpr ⟨hleast j hsj, (h8 j).mp h8j⟩

/-! ### Partitions of a page -/

/-- The `k` partitions of the given size from `p` on. -/
def parts (size : ℕ) : ℕ → ℕ → List ℕ
  | _, 0 => []
  | p, k + 1 => p :: parts size (p + size) k

/-- A list threaded through the memory, from `a` to a null pointer. -/
def Chain (mem : ℕ → ℕ) : ℕ → List ℕ → Prop
  | a, [] => a = 0
  | a, x :: l => a = x ∧ x ≠ 0 ∧ Chain mem (mem x) l

theorem Chain.frame : ∀ {l : List ℕ} {a : ℕ}, Chain mem a l →
    (∀ x ∈ l, mem' x = mem x) → Chain mem' a l
  | [], _, h, _ => h
  | x :: l, _, ⟨ha, h0, h⟩, hag => by
    refine ⟨ha, h0, ?_⟩
    rw [hag x mem_cons_self]
    exact h.frame fun y hy => hag y (mem_cons_of_mem x hy)

theorem mem_parts : ∀ {p k : ℕ}, a ∈ parts size p k ↔ ∃ j < k, a = p + j * size
  | p, 0 => by simp [parts]
  | p, k + 1 => by
    rw [parts, mem_cons, mem_parts]
    constructor
    · rintro (rfl | ⟨j, hj, rfl⟩)
      · exact ⟨0, by omega, by omega⟩
      · exact ⟨j + 1, by omega, by rw [Nat.succ_mul]; omega⟩
    · rintro ⟨j, hj, rfl⟩
      rcases j with _ | j
      · exact Or.inl (by omega)
      · exact Or.inr ⟨j, by omega, by rw [Nat.succ_mul]; omega⟩

theorem parts_nodup (hs : 0 < size) : ∀ p k : ℕ, (parts size p k).Nodup
  | _, 0 => nodup_nil
  | p, k + 1 => by
    refine nodup_cons.mpr ⟨fun hm => ?_, parts_nodup hs (p + size) k⟩
    obtain ⟨j, -, hj⟩ := mem_parts.mp hm
    omega

theorem length_parts (size : ℕ) : ∀ p k : ℕ, (parts size p k).length = k
  | _, 0 => rfl
  | p, k + 1 => by rw [parts, length_cons, length_parts size (p + size) k]

theorem parts_disjoint {k : ℕ} (ha : a ∈ parts size p k) (hb : b ∈ parts size p k) :
    a = b ∨ a + size ≤ b ∨ b + size ≤ a := by
  obtain ⟨i, -, rfl⟩ := mem_parts.mp ha
  obtain ⟨j, -, rfl⟩ := mem_parts.mp hb
  rcases Nat.lt_trichotomy i j with h | rfl | h
  · have := Nat.mul_le_mul_right size (Nat.succ_le_of_lt h)
    rw [Nat.succ_mul] at this
    omega
  · exact Or.inl rfl
  · have := Nat.mul_le_mul_right size (Nat.succ_le_of_lt h)
    rw [Nat.succ_mul] at this
    omega

/-- **The loop of `__partition_page`** threads all partitions. -/
theorem partitionLoop_spec (hs : 0 < size) : ∀ (k fuel : ℕ) (mem : ℕ → ℕ) (p : ℕ), k < fuel →
    p ≠ 0 →
    ∃ mem', partitionLoop size (p + k * size) fuel mem p = some mem' ∧
      Chain mem' p (parts size p (k + 1)) ∧ ∀ a, a ∉ parts size p (k + 1) → mem' a = mem a
  | _, 0, _, _, hf, _ => by omega
  | 0, fuel + 1, mem, p, _, hp => by
    refine ⟨update mem p 0, ?_, ?_, fun a ha => ?_⟩
    · rw [partitionLoop, if_neg (by omega)]
    · exact ⟨rfl, hp, by simp [Chain, parts]⟩
    · exact update_of_ne (fun he => ha (by simp [parts, he])) _ _
  | k + 1, fuel + 1, mem, p, hf, hp => by
    have hlast : p + (k + 1) * size = p + size + k * size := by rw [Nat.succ_mul]; omega
    obtain ⟨mem', hloop, hchain, hframe⟩ := partitionLoop_spec hs k fuel
      (update mem p (p + size)) (p + size) (by omega) (by omega)
    have hpn : p ∉ parts size (p + size) (k + 1) := by
      intro hm
      obtain ⟨j, -, hj⟩ := mem_parts.mp hm
      omega
    refine ⟨mem', ?_, ⟨rfl, hp, ?_⟩, fun a ha => ?_⟩
    · rw [partitionLoop, if_pos (by rw [hlast]; omega), hlast]
      exact hloop
    · rw [hframe p hpn, update_self]
      exact hchain
    · rw [parts, mem_cons, not_or] at ha
      rw [hframe a ha.2, update_of_ne ha.1]

/-! ### Where the pages are -/

/-- The place of a page. -/
inductive Place
  | free
  | out
  | slab (b : ℕ)
  deriving DecidableEq

def pageAt (first i : ℕ) : ℕ := first + i * pageSize

/-- The live objects, with the sizes that were asked for, that lie in the page `i`. -/
def liveIn (first : ℕ) (objs : List (ℕ × ℕ)) (i : ℕ) : List ℕ :=
  (objs.map Prod.fst).filter fun p => va2id first p = i

/-- The partitions of the page `i` in bucket `b`. -/
def partsOf (first i b : ℕ) : List ℕ := parts (2 ^ b) (pageAt first i) (2 ^ (12 - b))

/-- **A partitioned page**: the list of its free partitions, from `free_head` on, and the live ones make
up all its partitions. There is at least one of either kind. -/
structure SlabOk (first : ℕ) (mem : ℕ → ℕ) (info : Page) (live : List ℕ) (i b : ℕ) : Prop where
  order : 3 ≤ b ∧ b ≤ 11
  addr : info.addr = pageAt first i
  size : info.baseSize = 2 ^ b
  bucket : info.bucketIndex = b
  cnt : info.allocPartitionsCnt = live.length
  live_pos : live ≠ []
  chain : ∃ fl, fl ≠ [] ∧ Chain mem info.freeHead fl ∧ (fl ++ live).Perm (partsOf first i b)

/-- **Every page has one place**: `ids X` are the numbers of the pages at `X`. -/
structure Census (n : ℕ) (ids : Place → List ℕ) : Prop where
  lt : ∀ X, ∀ i ∈ ids X, i < n
  nodup : ∀ X, (ids X).Nodup
  unique : ∀ {X Y i}, i ∈ ids X → i ∈ ids Y → X = Y
  cover : ∀ i < n, ∃ X, i ∈ ids X

/-- **The state of the allocator**, with the live objects and the `pages` that are handed out. -/
structure Layout (first n : ℕ) (s : State) (objs : List (ℕ × ℕ)) (pages : List ℕ)
    (ids : Place → List ℕ) : Prop where
  census : Census n ids
  free : Holds (pageLinks s.mem) s.pagesFree ((ids .free).map (pageAt first))
  out : pages = (ids .out).map (pageAt first)
  slabs : ∀ b, Holds s.ppNodes (s.slabs b) (ids (.slab b))
  slab_ok : ∀ b, ∀ i ∈ ids (.slab b), SlabOk first s.mem (s.pageInfo i) (liveIn first objs i) i b
  idle : ∀ X, (∀ b, X ≠ .slab b) → ∀ i ∈ ids X, (s.pageInfo i).allocPartitionsCnt = 0
  obj : ∀ o ∈ objs, (1 ≤ o.2 ∧ o.2 ≤ 2048) ∧ first ≤ o.1 ∧
    ∃ b, roundUp o.2 = some (2 ^ b, b) ∧ va2id first o.1 ∈ ids (.slab b)
  obj_nodup : (objs.map Prod.fst).Nodup

/-- The page `i` goes from `X` to `Y`, where the pages are now `l`. -/
def moved (ids : Place → List ℕ) (i : ℕ) (X Y : Place) (l : List ℕ) : Place → List ℕ :=
  update (update ids X ((ids X).erase i)) Y l

namespace Census

variable {n : ℕ} {ids : Place → List ℕ} {i : ℕ} {X Y : Place} {l : List ℕ}

theorem mem_moved (h : Census n ids) (hi : i ∈ ids X) (hXY : X ≠ Y) (hl : l.Perm (i :: ids Y)) (Z : Place)
    (j : ℕ) : j ∈ moved ids i X Y l Z ↔ if j = i then Z = Y else j ∈ ids Z := by
  unfold moved
  by_cases hZY : Z = Y
  · subst hZY
    rw [update_self, hl.mem_iff, mem_cons]
    split_ifs with hj
    · simp [hj]
    · simp [hj]
  · rw [update_of_ne hZY]
    by_cases hZX : Z = X
    · subst hZX
      rw [update_self, (h.nodup Z).mem_erase_iff]
      split_ifs with hj
      · simp [hj, hZY]
      · simp [hj]
    · rw [update_of_ne hZX]
      split_ifs with hj
      · subst hj
        exact iff_of_false (fun hm => hZX (h.unique hm hi)) hZY
      · rfl

theorem move (h : Census n ids) (hi : i ∈ ids X) (hXY : X ≠ Y) (hl : l.Perm (i :: ids Y)) :
    Census n (moved ids i X Y l) := by
  have hmem := h.mem_moved hi hXY hl
  refine ⟨fun Z j hj => ?_, fun Z => ?_, fun {Z Z' j} hj hj' => ?_, fun j hj => ?_⟩
  · rw [hmem] at hj
    split_ifs at hj with he
    · exact he ▸ h.lt X i hi
    · exact h.lt Z j hj
  · unfold moved
    by_cases hZY : Z = Y
    · subst hZY
      rw [update_self, hl.nodup_iff]
      exact nodup_cons.mpr ⟨fun hm => hXY (h.unique hi hm), h.nodup Z⟩
    · rw [update_of_ne hZY]
      by_cases hZX : Z = X
      · subst hZX
        rw [update_self]
        exact (h.nodup Z).erase i
      · rw [update_of_ne hZX]
        exact h.nodup Z
  · rw [hmem] at hj hj'
    split_ifs at hj hj'
    · rw [hj, hj']
    · exact h.unique hj hj'
  · by_cases he : j = i
    · exact ⟨Y, by rw [hmem, if_pos he]⟩
    · obtain ⟨Z, hZ⟩ := h.cover j hj
      exact ⟨Z, by rwa [hmem, if_neg he]⟩

end Census

section Geometry

variable {first : ℕ}

theorem pow_mul_pow (hb : b ≤ 11) : 2 ^ b * 2 ^ (12 - b) = pageSize := by
  rw [← Nat.pow_add, Nat.add_sub_cancel' (by omega)]
  rfl

theorem pageSize_div (hb : b ≤ 11) : pageSize / 2 ^ b = 2 ^ (12 - b) := by
  rw [← pow_mul_pow hb]
  exact Nat.mul_div_cancel_left _ (Nat.two_pow_pos b)

theorem two_le_pow (hb : b ≤ 11) : 2 ≤ 2 ^ (12 - b) :=
  Nat.pow_le_pow_right (n := 2) (i := 1) (by decide) (by omega)

theorem partsOf_subset {i : ℕ} (hb : b ≤ 11) (ha : a ∈ partsOf first i b) :
    pageAt first i ≤ a ∧ a + 2 ^ b ≤ pageAt first i + pageSize := by
  obtain ⟨j, hj, rfl⟩ := mem_parts.mp ha
  have hmul := Nat.mul_le_mul_right (2 ^ b) (Nat.succ_le_of_lt hj)
  rw [Nat.succ_mul, Nat.mul_comm (2 ^ (12 - b)), pow_mul_pow hb] at hmul
  omega

theorem partsOf_inPage {i : ℕ} (hb : b ≤ 11) (ha : a ∈ partsOf first i b) :
    InPage (pageAt first i) a := by
  have := partsOf_subset hb ha
  have := Nat.two_pow_pos b
  exact ⟨by omega, by omega⟩

theorem va2id_of_inPage {i : ℕ} (ha : InPage (pageAt first i) a) : va2id first a = i := by
  unfold InPage pageAt pageSize at ha
  unfold va2id pageSize
  omega

theorem pageAt_inj {i : ℕ} (h : pageAt first i = pageAt first j) : i = j := by
  unfold pageAt pageSize at h
  omega

theorem inPage_self (p : ℕ) : InPage p p := ⟨le_rfl, by unfold pageSize; omega⟩

theorem inPage_unique {i : ℕ} (hi : InPage (pageAt first i) a) (hj : InPage (pageAt first j) a) :
    i = j := (va2id_of_inPage hi).symm.trans (va2id_of_inPage hj)

end Geometry

theorem SlabOk.frame {first i : ℕ} {info : Page}
    (h : SlabOk first mem info live i b) (hag : ∀ a, InPage (pageAt first i) a → mem' a = mem a) :
    SlabOk first mem' info live i b := by
  obtain ⟨fl, hne, hchain, hperm⟩ := h.chain
  refine { h with chain := ⟨fl, hne, hchain.frame fun a ha => hag a ?_, hperm⟩ }
  exact partsOf_inPage h.order.2 (hperm.mem_iff.mp (mem_append_left _ ha))

/-! ### The calls -/

section Calls

variable {first n : ℕ} {s : State} {objs : List (ℕ × ℕ)} {pages : List ℕ} {ids : Place → List ℕ}

theorem pageAt_aligned (hf : first % pageSize = 0) (i : ℕ) : pageAt first i % pageSize = 0 := by
  unfold pageAt pageSize at *
  omega

theorem map_aligned (hf : first % pageSize = 0) (l : List ℕ) :
    ∀ q ∈ l.map (pageAt first), q % pageSize = 0 := by
  intro q hq
  obtain ⟨j, -, rfl⟩ := mem_map.mp hq
  exact pageAt_aligned hf j

theorem not_inPage_map {l : List ℕ} {i : ℕ} (hi : i ∉ l) (ha : InPage (pageAt first i) a) :
    ∀ p ∈ l.map (pageAt first), ¬ InPage p a := by
  intro p hp hpa
  obtain ⟨j, hj, rfl⟩ := mem_map.mp hp
  exact hi (inPage_unique ha hpa ▸ hj)

theorem Layout.liveIn_eq_nil (h : Layout first n s objs pages ids) {X : Place} {i : ℕ} (hi : i ∈ ids X)
    (hX : ∀ b, X ≠ .slab b) : liveIn first objs i = [] := by
  refine filter_eq_nil_iff.mpr fun p hp hpi => ?_
  obtain ⟨o, ho, rfl⟩ := mem_map.mp hp
  obtain ⟨-, -, b, -, hb⟩ := h.obj o ho
  rw [of_decide_eq_true hpi] at hb
  exact hX b (h.census.unique hi hb)

theorem Layout.moveIdle (h : Layout first n s objs pages ids) {i : ℕ} {X Y : Place} {l : List ℕ} {c : ℤ} (hi : i ∈ ids X) (hXY : X ≠ Y) (hl : l.Perm (i :: ids Y))
    (hX : ∀ b, X ≠ .slab b) (hY : ∀ b, Y ≠ .slab b)
    (hfree : Holds (pageLinks mem) L ((moved ids i X Y l .free).map (pageAt first)))
    (hout : pages' = (moved ids i X Y l .out).map (pageAt first))
    (hframe : ∀ a, (∀ q ∈ (i :: ids .free).map (pageAt first), ¬ InPage q a) → mem a = s.mem a) :
    Layout first n { s with mem := mem, pagesFree := L, allocPageCnt := c } objs pages'
      (moved ids i X Y l) := by
  have hmem := h.census.mem_moved hi hXY hl
  refine ⟨h.census.move hi hXY hl, hfree, hout, fun b => ?_, fun b j hj => ?_, fun Z hZ j hj => ?_,
    fun o ho => ?_, h.obj_nodup⟩
  · simpa [moved, update_of_ne (hX b).symm, update_of_ne (hY b).symm] using h.slabs b
  · simp only [hmem] at hj
    split_ifs at hj with he
    · exact absurd hj.symm (hY b)
    · refine (h.slab_ok b j hj).frame fun a ha => hframe a (not_inPage_map (fun hm => ?_) ha)
      rcases mem_cons.mp hm with hm | hm
      · exact he hm
      · exact absurd (h.census.unique hm hj) (by simp)
  · simp only [hmem] at hj
    split_ifs at hj with he
    · subst he
      exact h.idle X hX j hi
    · exact h.idle Z hZ j hj
  · obtain ⟨hs, hfo, b, hr, hb⟩ := h.obj o ho
    refine ⟨hs, hfo, b, hr, ?_⟩
    rw [hmem, if_neg]
    · exact hb
    · intro he
      rw [he] at hb
      exact hX b (h.census.unique hi hb)

/-- **`kalloc_page`** hands out the first free page. -/
theorem kallocPage_layout (hf : first % pageSize = 0) {i : ℕ}
    (h : Layout first n s objs pages ids) (hF : ids .free = i :: F) :
    ∃ s', kallocPage s = some (pageAt first i, s') ∧
      Layout first n s' objs (pageAt first i :: pages) (moved ids i .free .out (i :: ids .out)) := by
  have hi : i ∈ ids .free := by rw [hF]; exact mem_cons_self
  have hfree := h.free
  rw [hF] at hfree
  obtain ⟨mem, l, hcall, hholds, hframe⟩ := kallocPage_spec hfree (map_aligned hf (i :: F))
  refine ⟨_, hcall, h.moveIdle hi (by simp) (.refl _) (by simp) (by simp) ?_ ?_ fun a ha => hframe a ?_⟩
  · simpa [moved, hF] using hholds
  · simp [moved, h.out]
  · intro q hq
    exact ha q (by rw [hF]; exact mem_cons_of_mem _ hq)

/-- **`kfree_page`** of a page that was handed out. -/
theorem kfreePage_layout (hf : first % pageSize = 0) {i : ℕ} (h : Layout first n s objs pages ids)
    (hi : i ∈ ids .out) :
    Layout first n (kfreePage s (pageAt first i)) objs (pages.erase (pageAt first i))
      (moved ids i .out .free (ids .free ++ [i])) := by
  have hpF : pageAt first i ∉ (ids .free).map (pageAt first) := by
    intro hm
    obtain ⟨j, hj, he⟩ := mem_map.mp hm
    exact absurd (h.census.unique hi (pageAt_inj he ▸ hj)) (by simp)
  obtain ⟨hholds, hframe⟩ := pushPage_spec h.free hpF (map_aligned hf (i :: ids .free))
  have heq : kfreePage s (pageAt first i) = { s with
      mem := setLinks s.mem (listPushBack (pageLinks s.mem) s.pagesFree (pageAt first i)).1
      pagesFree := (listPushBack (pageLinks s.mem) s.pagesFree (pageAt first i)).2
      allocPageCnt := s.allocPageCnt - 1 } := rfl
  rw [heq]
  refine h.moveIdle hi (by simp) (perm_append_singleton i _) (by simp) (by simp) ?_ ?_ hframe
  · simpa [moved] using hholds
  · simp [moved, h.out, map_erase (fun _ _ => pageAt_inj)]

/-- **Only the page `i` changes**, which is not in `pages_free`: its words, its record, its place and its
objects. -/
theorem Layout.change (h : Layout first n s objs pages ids) {i : ℕ} {s' : State} {objs' : List (ℕ × ℕ)} {ids' : Place → List ℕ} (hc : Census n ids')
    (hids : ∀ X j, j ≠ i → (j ∈ ids' X ↔ j ∈ ids X)) (hfree : ids' .free = ids .free)
    (hi : i ∉ ids .free) (hout : pages' = (ids' .out).map (pageAt first))
    (hmem : ∀ a, ¬ InPage (pageAt first i) a → s'.mem a = s.mem a) (hF : s'.pagesFree = s.pagesFree)
    (hinfo : ∀ j, j ≠ i → s'.pageInfo j = s.pageInfo j)
    (hslabs : ∀ b, Holds s'.ppNodes (s'.slabs b) (ids' (.slab b)))
    (hlive : ∀ j, j ≠ i → liveIn first objs' j = liveIn first objs j)
    (hok : ∀ b, i ∈ ids' (.slab b) → SlabOk first s'.mem (s'.pageInfo i) (liveIn first objs' i) i b)
    (hidle : ∀ X, (∀ b, X ≠ .slab b) → i ∈ ids' X → (s'.pageInfo i).allocPartitionsCnt = 0)
    (hobj : ∀ o ∈ objs', o ∈ objs ∧ va2id first o.1 ≠ i ∨ (1 ≤ o.2 ∧ o.2 ≤ 2048) ∧ first ≤ o.1 ∧
      ∃ b, roundUp o.2 = some (2 ^ b, b) ∧ va2id first o.1 ∈ ids' (.slab b))
    (hnd : (objs'.map Prod.fst).Nodup) : Layout first n s' objs' pages' ids' := by
  refine ⟨hc, ?_, hout, hslabs, fun b j hj => ?_, fun X hX j hj => ?_, fun o ho => ?_, hnd⟩
  · rw [hfree, hF]
    refine h.free.frame fun q hq => ?_
    obtain ⟨j, hj, rfl⟩ := mem_map.mp hq
    have hji : j ≠ i := fun he => hi (he ▸ hj)
    have hin : ∀ a, InPage (pageAt first j) a → s'.mem a = s.mem a :=
      fun a ha => hmem a fun ha' => hji (inPage_unique ha ha')
    exact ⟨hin _ ⟨by omega, by unfold pageSize; omega⟩, hin _ (inPage_self _)⟩
  · by_cases hji : j = i
    · subst hji
      exact hok b hj
    · rw [hlive j hji, hinfo j hji]
      refine (h.slab_ok b j ((hids _ j hji).mp hj)).frame fun a ha => hmem a fun ha' => ?_
      exact hji (inPage_unique ha ha')
  · by_cases hji : j = i
    · subst hji
      exact hidle X hX hj
    · rw [hinfo j hji]
      exact h.idle X hX j ((hids X j hji).mp hj)
  · rcases hobj o ho with ⟨ho, hne⟩ | hnew
    · obtain ⟨hs, hfo, b, hr, hb⟩ := h.obj o ho
      exact ⟨hs, hfo, b, hr, (hids _ _ hne).mpr hb⟩
    · exact hnew

theorem liveIn_cons (p z i : ℕ) : liveIn first ((p, z) :: objs) i =
    if va2id first p = i then p :: liveIn first objs i else liveIn first objs i := by
  unfold liveIn
  rw [map_cons, filter_cons]
  simp

theorem mem_liveIn {i : ℕ} : p ∈ liveIn first objs i ↔ p ∈ objs.map Prod.fst ∧ va2id first p = i := by
  rw [liveIn, mem_filter, decide_eq_true_eq]

theorem slabOk_alloc {i x : ℕ} {fl : List ℕ} (hb : 3 ≤ b ∧ b ≤ 11)
    (haddr : g.addr = pageAt first i) (hsize : g.baseSize = 2 ^ b) (hbucket : g.bucketIndex = b)
    (hcnt : g.allocPartitionsCnt = live.length) (hne : fl ≠ [])
    (hchain : Chain mem g.freeHead (x :: fl)) (hperm : (x :: fl ++ live).Perm (partsOf first i b)) :
    SlabOk first mem { g with
      freeHead := mem g.freeHead, allocPartitionsCnt := g.allocPartitionsCnt + 1 }
      (x :: live) i b := by
  obtain ⟨hx, -, hchain⟩ := hchain
  refine ⟨hb, haddr, hsize, hbucket, by simp [hcnt], by simp, fl, hne, ?_, ?_⟩
  · rw [hx]
    exact hchain
  · exact perm_middle.trans hperm

/-- **An object from a page with two free partitions or more.** -/
theorem allocPartition_layout (h : Layout first n s objs pages ids) {i : ℕ} (hi : i ∈ ids (.slab b))
    (hz : 1 ≤ z ∧ z ≤ 2048) (hr : roundUp z = some (2 ^ b, b))
    (hcnt : (s.pageInfo i).allocPartitionsCnt + 1 < pageSize / (s.pageInfo i).baseSize) :
    Layout first n (allocPartition s i).2 (((allocPartition s i).1, z) :: objs) pages ids := by
  have hok := h.slab_ok b i hi
  obtain ⟨fl, -, hchain, hperm⟩ := hok.chain
  have hlen := hperm.length_eq
  rw [length_append, partsOf, length_parts] at hlen
  rw [hok.cnt, hok.size, pageSize_div hok.order.2] at hcnt
  rcases fl with _ | ⟨x, fl⟩
  · simp only [length_nil] at hlen
    omega
  have hne : fl ≠ [] := by
    rintro rfl
    simp only [length_singleton] at hlen
    omega
  obtain ⟨hx, -, -⟩ := id hchain
  have hxp : x ∈ partsOf first i b := hperm.mem_iff.mp (by simp)
  have hxi : va2id first x = i := va2id_of_inPage (partsOf_inPage hok.order.2 hxp)
  have hfx : first ≤ x := by
    have := (partsOf_inPage hok.order.2 hxp).1
    unfold pageAt at this
    omega
  have hnd := hperm.nodup_iff.mpr (parts_nodup (Nat.two_pow_pos b) _ _)
  have hres : (allocPartition s i).1 = x := hx
  rw [hres]
  refine h.change (i := i) h.census (fun _ _ _ => Iff.rfl) rfl ?_ h.out (fun _ _ => rfl) rfl
    (fun j hj => update_of_ne hj _ _) h.slabs (fun j hj => ?_) (fun c hc => ?_)
    (fun X hX hiX => absurd (h.census.unique hi hiX).symm (hX b)) (fun o ho => ?_) ?_
  · exact fun hm => absurd (h.census.unique hi hm) (by simp)
  · rw [liveIn_cons, hxi, if_neg (Ne.symm hj)]
  · obtain rfl : c = b := by simpa using h.census.unique hc hi
    simp only [allocPartition, update_self]
    rw [liveIn_cons, if_pos hxi]
    exact slabOk_alloc hok.order hok.addr hok.size hok.bucket hok.cnt hne hchain hperm
  · rcases mem_cons.mp ho with rfl | ho
    · exact Or.inr ⟨hz, hfx, b, hr, by rwa [hxi]⟩
    · exact Or.inr (h.obj o ho)
  · refine nodup_cons.mpr ⟨fun hm => ?_, h.obj_nodup⟩
    have hxl : x ∈ liveIn first objs i := mem_liveIn.mpr ⟨hm, hxi⟩
    exact (nodup_append.mp hnd).2.2 x mem_cons_self x hxl rfl

/-- **An object from a new page.** -/
theorem allocFresh_layout (hpos : 0 < first) (h : Layout first n s objs pages ids) {i : ℕ}
    (hi : i ∈ ids .out) (hz : 1 ≤ z ∧ z ≤ 2048) (hr : roundUp z = some (2 ^ b, b)) (hb : 3 ≤ b ∧ b ≤ 11) :
    ∃ mem, partitionLoop (2 ^ b) (pageAt first i + pageSize - 2 ^ b) pageSize s.mem (pageAt first i) =
        some mem ∧
      ∀ s₁, s₁ = { s with
          mem := mem
          pageInfo := update s.pageInfo i ⟨pageAt first i, 2 ^ b, pageAt first i,
            (s.pageInfo i).allocPartitionsCnt, b⟩
          ppNodes := (listPushBack (initListNode s.ppNodes i) (s.slabs b) i).1
          slabs := update s.slabs b (listPushBack (initListNode s.ppNodes i) (s.slabs b) i).2 } →
        (allocPartition s₁ i).1 = pageAt first i ∧
        Layout first n (allocPartition s₁ i).2 ((pageAt first i, z) :: objs)
          (pages.erase (pageAt first i)) (moved ids i .out (.slab b) (ids (.slab b) ++ [i])) := by
  have hp0 : pageAt first i ≠ 0 := by
    unfold pageAt
    omega
  obtain ⟨k, hk⟩ : ∃ k, 2 ^ (12 - b) = k + 1 + 1 := by
    have := two_le_pow hb.2
    exact ⟨2 ^ (12 - b) - 2, by omega⟩
  have hlast : pageAt first i + pageSize - 2 ^ b = pageAt first i + (k + 1) * 2 ^ b := by
    have hmul := pow_mul_pow hb.2
    rw [hk, Nat.mul_comm, Nat.succ_mul] at hmul
    omega
  have hfuel : k + 1 < pageSize := by
    have : 2 ^ (12 - b) ≤ 2 ^ 12 := Nat.pow_le_pow_right (by decide) (by omega)
    have h12 : 2 ^ 12 = pageSize := rfl
    omega
  obtain ⟨mem, hloop, hchain, hframe⟩ := partitionLoop_spec (Nat.two_pow_pos b) (k + 1) pageSize s.mem
    (pageAt first i) hfuel hp0
  rw [← hlast] at hloop
  refine ⟨mem, hloop, ?_⟩
  rintro s₁ rfl
  have hnslab : ∀ c, i ∉ ids (.slab c) := fun c hm => absurd (h.census.unique hi hm) (by simp)
  have hperm : (ids (.slab b) ++ [i]).Perm (i :: ids (.slab b)) := perm_append_singleton i _
  have hmov := h.census.mem_moved hi (by simp) hperm
  have hparts : partsOf first i b = parts (2 ^ b) (pageAt first i) (k + 1 + 1) := by rw [partsOf, hk]
  have hpi : va2id first (pageAt first i) = i := va2id_of_inPage (inPage_self _)
  have hlive : liveIn first objs i = [] := h.liveIn_eq_nil hi (by simp)
  have hinit : ∀ c, Holds (initListNode s.ppNodes i) (s.slabs c) (ids (.slab c)) := by
    intro c
    refine (h.slabs c).frame fun j hj => ?_
    have hji : j ≠ i := fun he => hnslab c (he ▸ hj)
    simp only [initListNode, update_of_ne hji, and_self]
  obtain ⟨hpush, hpframe⟩ := pushBack_holds (hinit b) (hnslab b)
  have hres : ∀ s₁ : State, (s₁.pageInfo i).freeHead = pageAt first i →
      (allocPartition s₁ i).1 = pageAt first i := fun s₁ hs => hs
  refine ⟨hres _ (by simp), ?_⟩
  refine h.change (i := i) (h.census.move hi (by simp) hperm) (fun X j hj => by rw [hmov, if_neg hj])
    (by simp [moved]) (fun hm => absurd (h.census.unique hi hm) (by simp)) ?_ (fun a ha => hframe a ?_) rfl
    (fun j hj => ?_) (fun c => ?_) (fun j hj => ?_) (fun c hc => ?_) (fun X hX hiX => ?_) (fun o ho => ?_) ?_
  · simp [moved, h.out, map_erase (fun _ _ => pageAt_inj)]
  · exact fun hm => ha (partsOf_inPage hb.2 (hparts ▸ hm))
  · simp [allocPartition, update_of_ne hj]
  · simp only [allocPartition]
    by_cases hcb : c = b
    · subst hcb
      rw [update_self]
      simpa [moved] using hpush
    · have hcb' : Place.slab c ≠ .slab b := by simpa using hcb
      rw [update_of_ne hcb, moved, update_of_ne hcb', update_of_ne (by simp)]
      refine (hinit c).frame fun j hj => hpframe j fun hm => ?_
      rcases mem_cons.mp hm with rfl | hm
      · exact hnslab c hj
      · exact hcb' (h.census.unique hj hm)
  · rw [liveIn_cons, hpi, if_neg (Ne.symm hj)]
  · obtain rfl : c = b := by
      rw [hmov, if_pos rfl] at hc
      simpa using hc
    rw [liveIn_cons, if_pos hpi, hlive]
    simp only [allocPartition, update_self]
    refine slabOk_alloc (g := ⟨pageAt first i, 2 ^ c, pageAt first i,
      (s.pageInfo i).allocPartitionsCnt, c⟩) hb rfl rfl rfl (h.idle .out (by simp) i hi) ?_ hchain ?_
    · simp [parts]
    · rw [append_nil, hparts]
      exact .refl _
  · rw [hmov, if_pos rfl] at hiX
    exact absurd hiX (hX b)
  · rcases mem_cons.mp ho with rfl | ho
    · refine Or.inr ⟨hz, ?_, b, hr, ?_⟩
      · unfold pageAt
        omega
      · rw [hpi, hmov, if_pos rfl]
    · refine Or.inl ⟨ho, fun he => ?_⟩
      obtain ⟨-, -, c, -, hc⟩ := h.obj o ho
      exact hnslab c (he ▸ hc)
  · refine nodup_cons.mpr ⟨fun hm => ?_, h.obj_nodup⟩
    have hxl : pageAt first i ∈ liveIn first objs i := mem_liveIn.mpr ⟨hm, hpi⟩
    rw [hlive] at hxl
    exact absurd hxl not_mem_nil

theorem findPage_seg {y : ℕ} : ∀ {t : List ℕ} {x : ℕ}, Seg s.ppNodes x t y →
    findPage s (t.length + 1) x = (x :: t).find? fun id =>
      decide ((s.pageInfo id).allocPartitionsCnt + 1 < pageSize / (s.pageInfo id).baseSize)
  | [], x, _ => by
    rw [length_nil, Nat.zero_add, findPage, find?_cons]
    split_ifs with hx
    · simp [hx]
    · simp [hx, findPage]
  | z :: t, x, ⟨hz, _, ht⟩ => by
    rw [length_cons, findPage, find?_cons]
    split_ifs with hx
    · simp [hx]
    · simp only [hx, decide_false]
      rw [hz]
      exact findPage_seg ht

theorem findPage_spec {M : Lst ℕ} {l : List ℕ} (hM : Holds s.ppNodes M l) :
    M.head.bind (findPage s M.size) = l.find? fun id =>
      decide ((s.pageInfo id).allocPartitionsCnt + 1 < pageSize / (s.pageInfo id).baseSize) := by
  obtain ⟨-, hsize, hhead, hseg⟩ := hM
  rw [hhead, hsize]
  rcases l with _ | ⟨x, t⟩
  · rfl
  · exact findPage_seg hseg

/-- **`kalloc`**: it fails only for want of a free page. -/
theorem kalloc_layout (hf : first % pageSize = 0) (hpos : 0 < first)
    (h : Layout first n s objs pages ids) (hz : 1 ≤ z ∧ z ≤ 2048) :
    (kalloc first s z = none ∧ ids .free = []) ∨
    ∃ p s' ids', kalloc first s z = some (p, s') ∧ Layout first n s' ((p, z) :: objs) pages ids' := by
  obtain ⟨b, hr, hb3, hb11, -, -⟩ := roundUp_spec hz.2
  have hz0 : ¬ (z = 0 ∨ pageSize < z) := by
    unfold pageSize
    omega
  rw [kalloc, if_neg hz0, if_neg (by omega), hr, Option.bind_some]
  simp only [findPage_spec (h.slabs b)]
  cases hfind : (ids (.slab b)).find? fun id =>
      decide ((s.pageInfo id).allocPartitionsCnt + 1 < pageSize / (s.pageInfo id).baseSize) with
  | some i =>
    have hi := mem_of_find?_eq_some hfind
    have hcnt : (s.pageInfo i).allocPartitionsCnt + 1 < pageSize / (s.pageInfo i).baseSize := by
      simpa using find?_some hfind
    exact Or.inr ⟨_, _, ids, rfl, allocPartition_layout h hi hz hr hcnt⟩
  | none =>
    rcases hF : ids .free with _ | ⟨i, F⟩
    · refine Or.inl ⟨?_, rfl⟩
      have hhead : s.pagesFree.head = none := by
        rw [h.free.2.2.1, hF]
        rfl
      simp [partitionPage, kallocPage, hhead]
    · obtain ⟨s', hpage, hlay⟩ := kallocPage_layout hf h hF
      have hi : i ∈ moved ids i .free .out (i :: ids .out) .out := by simp [moved]
      obtain ⟨mem, hloop, hnew⟩ := allocFresh_layout hpos hlay hi hz hr ⟨hb3, hb11⟩
      obtain ⟨hp, hlay'⟩ := hnew _ rfl
      rw [erase_cons_head] at hlay'
      refine Or.inr ⟨pageAt first i, _, _, ?_, hlay'⟩
      have hpi : va2id first (pageAt first i) = i := va2id_of_inPage (inPage_self _)
      simp only [partitionPage, hpage, Option.bind_some, hloop, Option.map_some, hpi]
      exact congrArg some (Prod.ext hp rfl)

/-- The object at `p` is freed. -/
def without (objs : List (ℕ × ℕ)) (p : ℕ) : List (ℕ × ℕ) := objs.filter fun o => o.1 ≠ p

theorem liveIn_without (p i : ℕ) :
    liveIn first (without objs p) i = (liveIn first objs i).filter fun q => q ≠ p := by
  have hmap : (without objs p).map Prod.fst = (objs.map Prod.fst).filter fun q => q ≠ p := by
    rw [filter_map]
    rfl
  rw [liveIn, liveIn, hmap, filter_filter, filter_filter]
  refine filter_congr fun q _ => ?_
  exact Bool.and_comm _ _

theorem slabOk_free {i : ℕ} (hok : SlabOk first mem g live i b)
    (hp : p ∈ live) (hp0 : p ≠ 0) : (live.filter fun q => q ≠ p).length + 1 = live.length ∧
    ((live.filter fun q => q ≠ p) ≠ [] → SlabOk first
      (update (update mem g.freeHead p) p (mem g.freeHead))
      { g with allocPartitionsCnt := live.length - 1 } (live.filter fun q => q ≠ p) i b) ∧
    InPage (pageAt first i) g.freeHead ∧ InPage (pageAt first i) p := by
  obtain ⟨fl, hne, hchain, hperm⟩ := hok.chain
  have hnd := hperm.nodup_iff.mpr (parts_nodup (Nat.two_pow_pos b) _ _)
  obtain ⟨hndf, hndl, hdis⟩ := nodup_append.mp hnd
  rcases fl with _ | ⟨x, fl⟩
  · exact absurd rfl hne
  obtain ⟨hx, hx0, hchain⟩ := hchain
  have hfilter : (live.filter fun q => q ≠ p) = live.erase p := by
    rw [hndl.erase_eq_filter]
    refine filter_congr fun q _ => ?_
    by_cases hq : q = p <;> simp [hq]
  have hxp : x ≠ p := hdis x mem_cons_self p hp
  have hlive := perm_cons_erase hp
  have hlen := hlive.length_eq
  rw [length_cons] at hlen
  rw [hfilter, hx]
  refine ⟨hlen.symm, fun hne' => ?_, ?_, ?_⟩
  · refine ⟨hok.order, hok.addr, hok.size, hok.bucket, ?_, hne', x :: p :: fl, by simp, ?_, ?_⟩
    · simp only
      omega
    · refine ⟨rfl, hx0, ?_⟩
      rw [update_of_ne hxp, update_self]
      refine ⟨rfl, hp0, ?_⟩
      rw [update_self]
      refine hchain.frame fun y hy => ?_
      have hyp : y ≠ p := hdis y (mem_cons_of_mem x hy) p hp
      have hyx : y ≠ x := fun he => (nodup_cons.mp hndf).1 (he ▸ hy)
      rw [update_of_ne hyp, update_of_ne hyx]
    · refine .trans ?_ hperm
      refine .cons x ?_
      exact perm_middle.symm.trans (hlive.symm.append_left fl)
  · exact partsOf_inPage hok.order.2 (hperm.mem_iff.mp (by simp))
  · exact partsOf_inPage hok.order.2 (hperm.mem_iff.mp (mem_append_right _ hp))

/-- **`kfree`** of a live object. The page goes back to the free pages with its last object. -/
theorem kfree_layout (hf : first % pageSize = 0) (hpos : 0 < first)
    (h : Layout first n s objs pages ids) (ho : o ∈ objs) :
    ∃ s' ids', kfree first s o.1 = some s' ∧ Layout first n s' (without objs o.1) pages ids' := by
  obtain ⟨p, z⟩ := o
  obtain ⟨-, hfp, b, -, hi⟩ := h.obj _ ho
  generalize hpi : va2id first p = i at hi
  have hpl : p ∈ liveIn first objs i := mem_liveIn.mpr ⟨mem_map.mpr ⟨_, ho, rfl⟩, hpi⟩
  have hok := h.slab_ok b i hi
  obtain ⟨hlen, hok', hxin, hpin⟩ := slabOk_free hok hpl (by simp only at hfp; omega)
  have hother : ∀ j, j ≠ i → liveIn first (without objs p) j = liveIn first objs j := by
    intro j hj
    rw [liveIn_without, filter_eq_self]
    intro q hq
    have hqj := (mem_liveIn.mp hq).2
    simp only [decide_eq_true_eq]
    rintro rfl
    exact hj (hqj.symm.trans hpi)
  have hnd : ((without objs p).map Prod.fst).Nodup := h.obj_nodup.sublist (filter_sublist.map _)
  have hsub : ∀ o ∈ without objs p, o ∈ objs := fun o ho => mem_of_mem_filter ho
  have hifree : i ∉ ids .free := fun hm => absurd (h.census.unique hi hm) (by simp)
  have hcnt : (if 0 < (s.pageInfo i).allocPartitionsCnt then (s.pageInfo i).allocPartitionsCnt - 1
      else (s.pageInfo i).allocPartitionsCnt) = (liveIn first objs i).length - 1 := by
    rw [hok.cnt, if_pos (by omega)]
  have hid : (p - first) / pageSize = i := hpi
  have hmem : ∀ a, ¬ InPage (pageAt first i) a →
      update (update s.mem (s.pageInfo i).freeHead p) p
        (s.mem (s.pageInfo i).freeHead) a = s.mem a := by
    intro a ha
    have hap : a ≠ p := fun he => ha (he ▸ hpin)
    have hax : a ≠ (s.pageInfo i).freeHead := fun he => ha (he ▸ hxin)
    rw [update_of_ne hap, update_of_ne hax]
  by_cases hlast : (liveIn first objs i).length - 1 = 0
  · obtain ⟨h', l', hrem, hholds, hframe⟩ := remove_holds (h.slabs b) hi
    have hmov := h.census.mem_moved hi (Y := .out) (by simp) (.refl _)
    have hnil : liveIn first (without objs p) i = [] := by
      rw [liveIn_without]
      exact eq_nil_of_length_eq_zero (by omega)
    let s₁ : State := { s with
      mem := update (update s.mem (s.pageInfo i).freeHead p) p
        (s.mem (s.pageInfo i).freeHead)
      pageInfo := update s.pageInfo i { s.pageInfo i with allocPartitionsCnt := 0 }
      ppNodes := h'
      slabs := update s.slabs b l' }
    have hlay : Layout first n s₁ (without objs p) (pageAt first i :: pages)
        (moved ids i (.slab b) .out (i :: ids .out)) := by
      refine h.change (i := i) (h.census.move hi (by simp) (.refl _))
        (fun X j hj => by rw [hmov, if_neg hj]) (by simp [moved]) hifree (by simp [moved, h.out]) hmem rfl
        (fun j hj => update_of_ne hj _ _) (fun c => ?_) hother (fun c hc => ?_)
        (fun X _ _ => by simp [s₁]) (fun o ho => ?_) hnd
      · by_cases hcb : c = b
        · subst hcb
          simpa [s₁, moved] using hholds
        · have hcb' : Place.slab c ≠ .slab b := by simpa using hcb
          have hc : Holds h' (s.slabs c) (ids (.slab c)) :=
            (h.slabs c).frame fun j hj => hframe j fun hm => hcb' (h.census.unique hj hm)
          simpa [s₁, moved, hcb, hcb'] using hc
      · rw [hmov, if_pos rfl] at hc
        cases hc
      · refine Or.inl ⟨hsub o ho, fun he => ?_⟩
        have hm : o.1 ∈ liveIn first (without objs p) i :=
          mem_liveIn.mpr ⟨mem_map.mpr ⟨o, ho, rfl⟩, he⟩
        rw [hnil] at hm
        exact absurd hm not_mem_nil
    have hback := kfreePage_layout hf hlay (i := i) (by simp [moved])
    rw [erase_cons_head] at hback
    refine ⟨_, _, ?_, hback⟩
    simp only [kfree, hid, hcnt, hlast, if_true, hok.bucket, hok.addr, hrem, Option.map_some, s₁]
  · refine ⟨_, ids, by simp only [kfree, hid, hcnt, if_neg hlast]; rfl, ?_⟩
    refine h.change (i := i) h.census (fun _ _ _ => Iff.rfl) rfl hifree h.out (fun a ha => ?_) rfl
      (fun j hj => update_of_ne hj _ _) h.slabs hother (fun c hc => ?_)
      (fun X hX hiX => absurd (h.census.unique hi hiX).symm (hX b))
      (fun o ho => Or.inr (h.obj o (hsub o ho))) hnd
    · exact hmem a ha
    · obtain rfl : c = b := by simpa using h.census.unique hc hi
      simp only [update_self]
      rw [liveIn_without]
      refine hok' fun hnil => ?_
      rw [hnil, length_nil] at hlen
      omega

theorem le_of_roundUp (hz : z ≤ 2048) (hr : roundUp z = some (2 ^ b, b)) :
    max z 8 ≤ 2 ^ b ∧ ∀ j, max z 8 ≤ 2 ^ j → b ≤ j := by
  obtain ⟨c, hc, -, -, hle, hleast⟩ := roundUp_spec hz
  obtain rfl : c = b := by
    rw [hr] at hc
    exact (Prod.mk.inj (Option.some.inj hc)).2.symm
  exact ⟨hle, hleast⟩

theorem Layout.obj_part (h : Layout first n s objs pages ids) (ho : o ∈ objs) :
    ∃ b ≤ 11, roundUp o.2 = some (2 ^ b, b) ∧ va2id first o.1 ∈ ids (.slab b) ∧ o.2 ≤ 2 ^ b ∧
      o.1 ∈ partsOf first (va2id first o.1) b := by
  obtain ⟨hz, -, b, hr, hb⟩ := h.obj o ho
  have hok := h.slab_ok b _ hb
  obtain ⟨fl, -, -, hperm⟩ := hok.chain
  have hle := (le_of_roundUp hz.2 hr).1
  refine ⟨b, hok.order.2, hr, hb, by omega, hperm.mem_iff.mp (mem_append_right _ ?_)⟩
  exact mem_liveIn.mpr ⟨mem_map.mpr ⟨o, ho, rfl⟩, rfl⟩

/-- **A write of an owner** changes nothing of the allocator's. -/
theorem write_layout (h : Layout first n s objs pages ids) {w : ℕ}
    (ha : (∃ o ∈ objs, o.1 ≤ a ∧ a < o.1 + o.2) ∨ ∃ p ∈ pages, p ≤ a ∧ a < p + pageSize) :
    Layout first n { s with mem := update s.mem a w } objs pages ids := by
  rcases ha with ⟨o, ho, hoa⟩ | ⟨p, hp, hpa⟩
  · obtain ⟨b, hb11, -, hb, hle, hpart⟩ := h.obj_part ho
    have hin := partsOf_subset hb11 hpart
    refine h.change (i := va2id first o.1) h.census (fun _ _ _ => Iff.rfl) rfl ?_ h.out (fun x hx => ?_) rfl
      (fun _ _ => rfl) h.slabs (fun _ _ => rfl) (fun c hc => ?_) (fun X hX hiX => h.idle X hX _ hiX)
      (fun o ho => Or.inr (h.obj o ho)) h.obj_nodup
    · exact fun hm => absurd (h.census.unique hb hm) (by simp)
    · refine update_of_ne ?_ _ _
      rintro rfl
      exact hx ⟨by omega, by omega⟩
    · obtain rfl : c = b := by simpa using h.census.unique hc hb
      have hok := h.slab_ok c _ hc
      obtain ⟨fl, hne, hchain, hperm⟩ := hok.chain
      refine { hok with chain := ⟨fl, hne, hchain.frame fun y hy => update_of_ne ?_ _ _, hperm⟩ }
      have hyp : y ∈ partsOf first (va2id first o.1) c := hperm.mem_iff.mp (mem_append_left _ hy)
      have hnd := hperm.nodup_iff.mpr (parts_nodup (Nat.two_pow_pos c) _ _)
      have hlive : o.1 ∈ liveIn first objs (va2id first o.1) :=
        mem_liveIn.mpr ⟨mem_map.mpr ⟨o, ho, rfl⟩, rfl⟩
      have hyo : y ≠ o.1 := (nodup_append.mp hnd).2.2 y hy o.1 hlive
      have hpow := Nat.two_pow_pos c
      rcases parts_disjoint hyp hpart with he | hlt | hlt
      · exact absurd he hyo
      · omega
      · omega
  · rw [h.out] at hp
    obtain ⟨i, hi, rfl⟩ := mem_map.mp hp
    refine h.change (i := i) h.census (fun _ _ _ => Iff.rfl) rfl ?_ h.out (fun x hx => ?_) rfl
      (fun _ _ => rfl) h.slabs (fun _ _ => rfl) (fun c hc => ?_) (fun X hX hiX => h.idle X hX _ hiX)
      (fun o ho => Or.inr (h.obj o ho)) h.obj_nodup
    · exact fun hm => absurd (h.census.unique hi hm) (by simp)
    · refine update_of_ne ?_ _ _
      rintro rfl
      exact hx hpa
    · exact absurd (h.census.unique hi hc) (by simp)

end Calls

/-! ### Boot -/

def bootIds (n : ℕ) : Place → List ℕ
  | .free => List.range n
  | _ => []

theorem initPages_spec {first : ℕ} (hf : first % pageSize = 0) : ∀ {n : ℕ} {s : State},
    initPages first mem n = some s →
    Holds (pageLinks s.mem) s.pagesFree ((List.range n).map (pageAt first)) ∧
      (∀ i < n, (s.pageInfo i).allocPartitionsCnt = 0) ∧ ∀ b, s.slabs b = ⟨none, 0⟩
  | 0, s, h => by
    cases h
    exact ⟨⟨.nil, rfl, rfl, trivial⟩, fun i hi => absurd hi (Nat.not_lt_zero i), fun _ => rfl⟩
  | n + 1, s, h => by
    obtain ⟨s₀, h₀, h⟩ := Option.bind_eq_some_iff.mp h
    obtain ⟨hholds, hcnt, hslabs⟩ := initPages_spec hf h₀
    simp only at h
    split_ifs at h
    cases h
    have hnew : pageAt first n ∉ (List.range n).map (pageAt first) := by
      intro hm
      obtain ⟨j, hj, he⟩ := mem_map.mp hm
      rw [pageAt_inj he] at hj
      exact absurd hj not_mem_range_self
    obtain ⟨hpush, -⟩ := pushPage_spec hholds hnew (map_aligned hf (n :: List.range n))
    refine ⟨?_, fun i hi => ?_, hslabs⟩
    · rw [range_succ, map_append]
      exact hpush
    · by_cases hin : i = n
      · subst hin
        simp
      · simpa only [update_of_ne hin] using hcnt i (by omega)

theorem boot_layout {first n : ℕ} (hf : first % pageSize = 0) {s : State}
    (h : initPages first mem n = some s) : Layout first n s [] [] (bootIds n) := by
  obtain ⟨hholds, hcnt, hslabs⟩ := initPages_spec hf h
  have hmem : ∀ X i, i ∈ bootIds n X → X = .free ∧ i < n := by
    intro X i hi
    cases X with
    | free => exact ⟨rfl, mem_range.mp hi⟩
    | out => exact absurd hi not_mem_nil
    | slab b => exact absurd hi not_mem_nil
  refine ⟨⟨fun X i hi => (hmem X i hi).2, fun X => ?_, fun {X Y i} hX hY => ?_, fun i hi => ?_⟩, hholds, rfl,
    fun b => ?_, fun b i hi => ?_, fun X _ i hi => hcnt i (hmem X i hi).2, ?_, .nil⟩
  · cases X with
    | free => exact nodup_range
    | out => exact .nil
    | slab b => exact .nil
  · rw [(hmem X i hX).1, (hmem Y i hY).1]
  · exact ⟨.free, mem_range.mpr hi⟩
  · rw [hslabs b]
    exact ⟨.nil, rfl, rfl, trivial⟩
  · exact absurd (hmem _ i hi).1 (by simp)
  · exact fun o ho => absurd ho not_mem_nil

end OsHonor.Memory.Slabs
