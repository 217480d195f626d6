import OsHonor.Base.Recency
import OsHonor.Fs.Cache.Refines

/-! # The order of eviction (`_evict` and `boost_frequency` in `fs/cache.c`)

A client's calls are followed together with the history of its acquires. `boost_frequency` means to move the
block to the end of the list but moves the head of the ring behind it, which turns all blocks; and `list_forall`
begins behind the head, so that `_evict` looks at the head last.

As long as every hit is on the head of the ring or on the block before it, the ring is in the order of the last
acquires, and the head is the block acquired the longest time ago (`Ordered`); any other hit breaks that order
(`inOrder_access_iff`). In that order `_evict` frees the oldest block that may go exactly if the head may not go
or nothing else may. -/

namespace OsHonor.Fs.Cache.Eviction

open Option Base.Keyed Base.Recency Base.Runs BlockDevice Blocks
open Machine Steps Client Refines

variable {sb : SuperBlock} {al : Alloc} {s s' : State Unit} {n : ℕ} {b v : Block Unit} {l : List (Block Unit)}

/-! ### Histories -/

/-- The calls of a history. `cache_end_op` is not one of them: it acquires the logged blocks itself. -/
inductive Access where
  | acquire (n : ℕ)
  | release (n : ℕ)
  | beginOp
  | sync (n : ℕ)

def Access.call : Access → Call
  | .acquire n => .acquire n
  | .release n => .release n
  | .beginOp => .beginOp
  | .sync n => .sync n

/-- The cache and the numbers of the blocks acquired so far, the last one first. -/
structure Traced where
  cache : State Unit
  hist : List ℕ

def record (hist : List ℕ) : Access → List ℕ
  | .acquire n => n :: hist
  | _ => hist

/-- **One call**, which returns. -/
def access (sb : SuperBlock) (al : Alloc) (x : Traced) (a : Access) : Option Traced :=
  (cacheCall sb al x.cache a.call).map fun r => ⟨r.2, record x.hist a⟩

def numbers (x : Traced) : List ℕ := x.cache.blocks.map Block.blockNo

def evictable (b : Block Unit) : Bool := !b.pinned && !b.acquired

/-- `cache_acquire(n)` evicts `v`. -/
def Evicts (l : List (Block Unit)) (n : ℕ) (v : Block Unit) : Prop :=
  fetchCached n l = none ∧ evictionThreshold ≤ l.length ∧ victim l = some v

/-- Among the blocks that are neither pinned nor acquired, `v` is the one whose last acquire is the oldest. -/
def Oldest (x : Traced) (v : Block Unit) : Prop :=
  ∀ b ∈ x.cache.blocks, evictable b → b ≠ v → Older x.hist v.blockNo b.blockNo

/-- A hit is on the head of the ring or on the block before it. -/
def Orderly (x : Traced) : Access → Prop
  | .acquire n => ∀ b, fetchCached n x.cache.blocks = some b →
      x.cache.blocks.head? = some b ∨ x.cache.blocks.getLast? = some b
  | _ => True

/-- The head is pinned or acquired, or it is the only block that is not. -/
def HeadKept (l : List (Block Unit)) : Prop :=
  ∀ h, l.head? = some h → evictable h → ∀ b ∈ l, evictable b → b = h

/-! ### What a call does to the ring -/

theorem step_of_perform {c : Label Unit} (h : perform sb al s c = some s')
    (hready : ∀ s₁, step sb s c = some s₁ → (s₁.thread ()).pc = .ready) : step sb s c = some s' := by
  obtain ⟨s₁, hs, hf⟩ := bind_eq_some_iff.mp h
  rw [finish_of_ready (hready s₁ hs)] at hf
  rw [hs, hf]

theorem perform_hit (h : perform sb al s (.acquire () n) = some s') (hf : fetchCached n s.blocks = some b) :
    ∃ lk, s'.blocks =
      boostFrequency b.addr (update b.addr (fun y => { y with lock := lk, acquired := true }) s.blocks) := by
  obtain ⟨s₁, hs, hfin⟩ := bind_eq_some_iff.mp h
  simp only [step] at hs
  split_ifs at hs
  obtain rfl := some.inj hs
  obtain ⟨k, hk⟩ : ∃ k, maxSteps = k + 2 := ⟨_, rfl⟩
  have hpc : ((s.goto () (.acquire .client n)).thread ()).pc = .acquire .client n := by simp [State.goto]
  have hrun : ∀ a, step sb (s.goto () (.acquire .client n)) (.run () a) =
      some (waitOn (s.goto () (.acquire .client n)) () .client b) := by
    intro a
    have hf₁ : fetchCached n (s.goto () (.acquire .client n)).blocks = some b := hf
    simp only [step, hpc, resume, cacheAcquire, hf₁]
  rw [hk, finish_step (by rw [hpc]; rfl) (hrun _)] at hfin
  unfold waitOn at hfin
  split at hfin
  · next lk _ =>
    rw [finish_of_ready (by simp [take, Cont.ret])] at hfin
    obtain rfl := some.inj hfin
    exact ⟨lk, rfl⟩
  · -- asleep on the block's lock, the call does not return
    simp [finish, step, State.goto, Pc.isReady, resume] at hfin

/-- **`cache_acquire`**: the ring is turned behind the block, or the block is put before the head. -/
theorem acquire_cases {d : BlockData} (h : cacheCall sb al s (.acquire n) = some (d, s')) :
    (∃ b lk, fetchCached n s.blocks = some b ∧ s'.blocks =
      boostFrequency b.addr (update b.addr (fun y => { y with lock := lk, acquired := true }) s.blocks)) ∨
    fetchCached n s.blocks = none ∧ s'.blocks =
      evictFull s.blocks ++ [loadedBlock (al.kalloc ((evictFull s.blocks).map Block.addr)) n (s.disk n)] := by
  obtain ⟨s₁, hp, h⟩ := bind_eq_some_iff.mp h
  obtain ⟨a, -, h⟩ := bind_eq_some_iff.mp h
  obtain ⟨b, -, h⟩ := bind_eq_some_iff.mp h
  obtain rfl : s₁ = s' := congrArg Prod.snd (some.inj h)
  cases hf : fetchCached n s.blocks with
  | some b =>
    obtain ⟨lk, hb⟩ := perform_hit hp hf
    exact Or.inl ⟨b, lk, rfl, hb⟩
  | none =>
    obtain ⟨s₂, hs, -⟩ := bind_eq_some_iff.mp hp
    simp only [step] at hs
    split_ifs at hs with hok
    rw [perform_miss (eq_ready hok.1) hok.2 hf] at hp
    exact Or.inr ⟨rfl, congrArg State.blocks (some.inj hp).symm⟩

theorem perform_of_ptr {c : ℕ → Label Unit} {r : Unit}
    (h : ((ptr s n).bind fun a => (perform sb al s (c a)).map fun s => ((), s)) = some (r, s')) :
    ∃ b, fetchCached n s.blocks = some b ∧ perform sb al s (c b.addr) = some s' := by
  obtain ⟨a, ha, h⟩ := bind_eq_some_iff.mp h
  obtain ⟨b, hb, rfl⟩ := map_eq_some_iff.mp ha
  obtain ⟨s₁, hp, he⟩ := map_eq_some_iff.mp h
  obtain rfl : s₁ = s' := congrArg Prod.snd he
  exact ⟨b, hb, hp⟩

theorem step_release {a : ℕ} (h : step sb s (.release () a) = some s') : (s'.thread ()).pc = .ready ∧
    ∃ lk, s'.blocks = update a (fun y => { y with acquired := false, lock := lk }) s.blocks := by
  simp only [step] at h
  split_ifs at h
  obtain ⟨b, -, h⟩ := bind_eq_some_iff.mp h
  split_ifs at h
  obtain ⟨⟨w, lk⟩, -, h⟩ := bind_eq_some_iff.mp h
  -- the client is inside no other call, so that there is nobody to wake
  cases w with
  | none =>
    obtain rfl := some.inj h
    exact ⟨by simp, lk, rfl⟩
  | some u =>
    obtain rfl := some.inj h
    exact ⟨by simp [wake], lk, by simp [wake]⟩

theorem release_blocks {r : Unit} (h : cacheCall sb al s (.release n) = some (r, s')) :
    ∃ b lk, fetchCached n s.blocks = some b ∧
      s'.blocks = update b.addr (fun y => { y with acquired := false, lock := lk }) s.blocks := by
  obtain ⟨b, hb, hp⟩ := perform_of_ptr h
  obtain ⟨-, lk, hl⟩ := step_release (step_of_perform hp fun s₁ hs => (step_release hs).1)
  exact ⟨b, lk, hb, hl⟩

theorem step_sync {a : ℕ} (h : step sb s (.sync () a) = some s') : (s'.thread ()).pc = .ready ∧
    (s'.blocks = s.blocks ∨ s'.blocks = update a (fun y => { y with pinned := true }) s.blocks) := by
  simp only [step] at h
  split_ifs at h with hok
  have hready := eq_ready hok.1
  obtain ⟨rm, -, h⟩ := bind_eq_some_iff.mp h
  obtain ⟨b, -, h⟩ := bind_eq_some_iff.mp h
  split_ifs at h
  · obtain rfl := some.inj h
    exact ⟨hready, Or.inl rfl⟩
  · obtain rfl := some.inj h
    exact ⟨by simp [hready], Or.inr rfl⟩

theorem step_beginOp (h : step sb s (.beginOp ()) = some s') :
    (s'.thread ()).pc = .ready ∧ s'.blocks = s.blocks := by
  simp only [step] at h
  split_ifs at h with hok
  obtain rfl := some.inj h
  exact ⟨by simp [cacheBeginOp, eq_ready hok.1], rfl⟩

def label (b : Block Unit) : ℕ × ℕ := (b.addr, b.blockNo)

theorem labels_update {a : ℕ} {f : Block Unit → Block Unit} (hf : ∀ b, label (f b) = label b) :
    (update a f l).map label = l.map label := map_update label fun b _ => hf b

def Access.isAcquire : Access → Bool
  | .acquire _ => true
  | _ => false

/-- **The other calls** leave the ring as it is. -/
theorem labels_access {x x' : Traced} {a : Access} (h : access sb al x a = some x') (ha : a.isAcquire = false) :
    x'.cache.blocks.map label = x.cache.blocks.map label ∧ x'.hist = x.hist := by
  obtain ⟨⟨r, s'⟩, hc, rfl⟩ := map_eq_some_iff.mp h
  cases a with
  | acquire n => cases ha
  | release n =>
    obtain ⟨b, lk, -, hl⟩ := release_blocks hc
    refine ⟨?_, rfl⟩
    show s'.blocks.map label = _
    rw [hl]
    exact labels_update fun _ => rfl
  | beginOp =>
    obtain ⟨s₁, hp, he⟩ := map_eq_some_iff.mp hc
    obtain rfl : s₁ = s' := congrArg Prod.snd he
    have hs := step_of_perform hp fun s₁ hs => (step_beginOp hs).1
    exact ⟨congrArg _ (step_beginOp hs).2, rfl⟩
  | sync n =>
    obtain ⟨b, -, hp⟩ := perform_of_ptr hc
    have hs := step_of_perform hp fun s₁ hs => (step_sync hs).1
    refine ⟨?_, rfl⟩
    show s'.blocks.map label = _
    rcases (step_sync hs).2 with hl | hl
    · rw [hl]
    · rw [hl]
      exact labels_update fun _ => rfl

/-! ### The order of the ring -/

/-- The blocks are distinct and come by the age of their last acquires. -/
structure Ordered (x : Traced) : Prop where
  addr : (x.cache.blocks.map Block.addr).Nodup
  order : InOrder x.hist (numbers x)

/-- A hit, with the ring taken apart at the block. -/
structure HitAt (x : Traced) (n : ℕ) (x' : Traced) (p q : List (Block Unit)) (b b' : Block Unit) : Prop where
  before : x.cache.blocks = p ++ b :: q
  after : x'.cache.blocks = q ++ (p ++ [b'])
  found : fetchCached n x.cache.blocks = some b
  same : label b' = label b
  blockNo : b.blockNo = n

theorem hitAt_of_boost {x x' : Traced} {n lk} (h : (x.cache.blocks.map Block.addr).Nodup)
    (hf : fetchCached n x.cache.blocks = some b) (hb : x'.cache.blocks =
      boostFrequency b.addr (update b.addr (fun y => { y with lock := lk, acquired := true }) x.cache.blocks)) :
    ∃ p q b', HitAt x n x' p q b b' := by
  obtain ⟨hm, hn⟩ := fetchCached_some hf
  obtain ⟨p, q, hl⟩ := List.append_of_mem hm
  rw [hl, List.map_append, List.map_cons, List.nodup_middle, List.nodup_cons, List.mem_append, not_or] at h
  have hp : ∀ y ∈ p, y.addr ≠ b.addr := fun y hy he => h.1.1 (he ▸ List.mem_map_of_mem hy)
  have hq : ∀ y ∈ q, y.addr ≠ b.addr := fun y hy he => h.1.2 (he ▸ List.mem_map_of_mem hy)
  refine ⟨p, q, { b with lock := lk, acquired := true }, hl, ?_, hf, rfl, hn⟩
  rw [hb, hl]
  unfold update boostFrequency
  rw [modifyAt_split hp hq rfl]
  exact rotateAfter_split hp rfl

theorem orderly_iff {x x' : Traced} {p q : List (Block Unit)} {b b' : Block Unit}
    (h : (x.cache.blocks.map Block.addr).Nodup) (hit : HitAt x n x' p q b b') :
    Orderly x (.acquire n) ↔ p = [] ∨ q = [] := by
  have hnd : (p ++ b :: q).Nodup := hit.before ▸ h.of_map
  rw [List.nodup_middle, List.nodup_cons, List.mem_append, not_or] at hnd
  have hfound : fetchCached n (p ++ b :: q) = some b := hit.before ▸ hit.found
  unfold Orderly
  simp only [hit.before, hfound, some.injEq, forall_eq']
  refine or_congr ?_ ?_
  · cases p with
    | nil => simp
    | cons y p =>
      have : y ≠ b := fun he => hnd.1.1 (by simp [he])
      simp [this]
  · rcases q.eq_nil_or_concat with rfl | ⟨q, y, rfl⟩
    · simp
    · have : y ≠ b := fun he => hnd.1.2 (by simp [he])
      simp [List.getLast?_append, List.getLast?_cons, this]

theorem numbers_of_labels {x x' : Traced} (h : x'.cache.blocks.map label = x.cache.blocks.map label) :
    numbers x' = numbers x := by
  have := congrArg (List.map Prod.snd) h
  rw [List.map_map, List.map_map] at this
  exact this

theorem addrs_of_labels {x x' : Traced} (h : x'.cache.blocks.map label = x.cache.blocks.map label) :
    x'.cache.blocks.map Block.addr = x.cache.blocks.map Block.addr := by
  have := congrArg (List.map Prod.fst) h
  rw [List.map_map, List.map_map] at this
  exact this

/-- A miss. -/
structure MissAt (x : Traced) (n : ℕ) (x' : Traced) (b' : Block Unit) : Prop where
  absent : fetchCached n x.cache.blocks = none
  after : x'.cache.blocks = evictFull x.cache.blocks ++ [b']
  blockNo : b'.blockNo = n
  addr : ∀ b ∈ evictFull x.cache.blocks, b.addr ≠ b'.addr

theorem access_acquire {x x' : Traced} (hnd : (x.cache.blocks.map Block.addr).Nodup)
    (h : access sb al x (.acquire n) = some x') : x'.hist = n :: x.hist ∧
      ((∃ p q b b', HitAt x n x' p q b b') ∨ ∃ b', MissAt x n x' b') := by
  obtain ⟨⟨d, s'⟩, hc, rfl⟩ := map_eq_some_iff.mp h
  refine ⟨rfl, ?_⟩
  rcases acquire_cases hc with ⟨b, lk, hf, hb⟩ | ⟨hf, hb⟩
  · obtain ⟨p, q, b', hit⟩ := @hitAt_of_boost b x ⟨s', record x.hist (.acquire n)⟩ n lk hnd hf hb
    exact Or.inl ⟨p, q, b, b', hit⟩
  · exact Or.inr ⟨_, hf, hb, rfl, kalloc_ne al⟩

theorem HitAt.numbers_eq {x x' : Traced} {p q : List (Block Unit)} {b b' : Block Unit} (h : HitAt x n x' p q b b') :
    numbers x = p.map Block.blockNo ++ n :: q.map Block.blockNo ∧
      numbers x' = q.map Block.blockNo ++ (p.map Block.blockNo ++ [n]) := by
  have hb' : b'.blockNo = n := (congrArg Prod.snd h.same).trans h.blockNo
  unfold numbers
  rw [h.before, h.after]
  simp [h.blockNo, hb']

theorem MissAt.inOrder {x x' : Traced} {b' : Block Unit} (h : MissAt x n x' b') (ho : InOrder x.hist (numbers x)) :
    InOrder (n :: x.hist) (numbers x') := by
  have hsub : ((evictFull x.cache.blocks).map Block.blockNo).Sublist (numbers x) := (evictFull_sublist _).map _
  have hn : n ∉ (evictFull x.cache.blocks).map Block.blockNo := by
    intro hm
    obtain ⟨b, hb, hbn⟩ := List.mem_map.mp (hsub.subset hm)
    exact fetchCached_none.mp h.absent b hb hbn
  have he : numbers x' = (evictFull x.cache.blocks).map Block.blockNo ++ [n] := by
    unfold numbers
    rw [h.after, List.map_append, List.map_singleton, h.blockNo]
  rw [he, inOrder_concat hn]
  exact ho.sublist hsub

/-- **A call keeps the ring in order exactly if it is orderly.** -/
theorem inOrder_access_iff {x x' : Traced} {a : Access} (h : Ordered x) (hs : access sb al x a = some x') :
    InOrder x'.hist (numbers x') ↔ Orderly x a := by
  by_cases ha : a.isAcquire
  · cases a with
    | acquire n =>
      obtain ⟨hh, ⟨p, q, b, b', hit⟩ | ⟨b', miss⟩⟩ := access_acquire h.addr hs
      · have ho := h.order
        rw [hit.numbers_eq.1] at ho
        rw [hh, hit.numbers_eq.2, inOrder_turn_iff ho, orderly_iff h.addr hit, List.map_eq_nil_iff,
          List.map_eq_nil_iff]
      · rw [hh]
        refine iff_of_true (miss.inOrder h.order) fun b hb => ?_
        rw [miss.absent] at hb
        cases hb
    | release n => cases ha
    | beginOp => cases ha
    | sync n => cases ha
  · obtain ⟨hl, hh⟩ := labels_access hs (by simpa using ha)
    rw [hh, numbers_of_labels hl]
    refine iff_of_true h.order ?_
    cases a with
    | acquire n => exact absurd rfl ha
    | release n => trivial
    | beginOp => trivial
    | sync n => trivial

theorem addr_access {x x' : Traced} {a : Access} (h : (x.cache.blocks.map Block.addr).Nodup)
    (hs : access sb al x a = some x') : (x'.cache.blocks.map Block.addr).Nodup := by
  by_cases ha : a.isAcquire
  · cases a with
    | acquire n =>
      obtain ⟨-, ⟨p, q, b, b', hit⟩ | ⟨b', miss⟩⟩ := access_acquire h hs
      · have hb' : b'.addr = b.addr := congrArg Prod.fst hit.same
        rw [hit.before] at h
        have hperm : (p ++ b :: q).Perm (q ++ (p ++ [b])) := by
          rw [← List.append_assoc]
          exact (List.perm_middle.trans (List.perm_append_comm.cons b)).trans (List.perm_append_singleton _ _).symm
        have he : x'.cache.blocks.map Block.addr = (q ++ (p ++ [b])).map Block.addr := by
          rw [hit.after]
          simp [hb']
        rw [he]
        exact (hperm.map _).nodup_iff.mp h
      · rw [miss.after, List.map_append, List.map_singleton, ← List.concat_eq_append]
        refine (h.sublist ((evictFull_sublist _).map _)).concat ?_
        intro hm
        obtain ⟨b, hb, he⟩ := List.mem_map.mp hm
        exact miss.addr b hb he
    | release n => cases ha
    | beginOp => cases ha
    | sync n => cases ha
  · rw [addrs_of_labels (labels_access hs (by simpa using ha)).1]
    exact h

theorem ordered_access {x x' : Traced} {a : Access} (h : Ordered x) (ho : Orderly x a)
    (hs : access sb al x a = some x') : Ordered x' :=
  ⟨addr_access h.addr hs, (inOrder_access_iff h hs).mpr ho⟩

/-- **Every state of an orderly run.** -/
theorem ordered_run {s₀ : State Unit} (hboot : Booted sb s₀) {as : List Access} {x : Traced}
    (hr : Run (access sb al) Orderly ⟨s₀, []⟩ as x) : Ordered x := by
  refine hr.inv (fun _ _ _ h hc hs => ordered_access h hc hs) ⟨?_, ?_⟩
  · simp [hboot.blocks]
  · simp [numbers, hboot.blocks, InOrder]

/-! ### The victim -/

theorem victim_cons (h : Block Unit) (t : List (Block Unit)) : victim (h :: t) = (t ++ [h]).find? evictable := by
  simp only [victim, List.rotate_cons_succ, List.rotate_zero]
  rfl

/-- **In an ordered ring the victim is the oldest block that may go exactly if the head is kept.** -/
theorem oldest_iff {x : Traced} (h : Ordered x) (hv : victim x.cache.blocks = some v) :
    Oldest x v ↔ HeadKept x.cache.blocks := by
  have ho := h.order
  unfold Oldest HeadKept
  unfold numbers at ho
  cases hl : x.cache.blocks with
  | nil => simp [hl, victim] at hv
  | cons c t =>
    rw [hl, victim_cons, List.find?_append] at hv
    rw [hl, List.map_cons] at ho
    obtain ⟨hc, ht⟩ := List.pairwise_cons.mp ho
    simp only [List.head?_cons, some.injEq, forall_eq']
    cases hf : t.find? evictable with
    | none =>
      -- only the head may go
      rw [List.find?_eq_none] at hf
      have hcv : c = v := by
        rw [List.find?_eq_none.mpr hf, none_or] at hv
        exact List.mem_singleton.mp (List.mem_of_find?_eq_some hv) |>.symm
      have honly : ∀ b ∈ c :: t, evictable b → b = c := by
        intro b hb he
        rcases List.mem_cons.mp hb with rfl | hb
        · rfl
        · exact absurd he (hf b hb)
      exact iff_of_true (fun b hb he hne => absurd (hcv ▸ honly b hb he) hne) fun _ => honly
    | some w =>
      rw [hf, some_or] at hv
      obtain rfl := some.inj hv
      obtain ⟨hew, p, q, rfl, hp⟩ := List.find?_eq_some_iff_append.mp hf
      have hcw : Older x.hist c.blockNo w.blockNo := hc _ (List.mem_map_of_mem (by simp))
      have hne : c ≠ w := by
        rintro rfl
        exact not_older_self hcw
      constructor
      · -- the head is older than the victim
        intro hold hec
        exact absurd (hold c (by simp) hec hne) hcw.asymm
      · intro hkept b hb heb hbw
        have hec : ¬ evictable c := fun hec => hne (hkept hec w (by simp) hew).symm
        rcases List.mem_cons.mp hb with rfl | hb
        · exact absurd heb hec
        rcases List.mem_append.mp hb with hb | hb
        · exact absurd heb (by simpa using hp b hb)
        · rcases List.mem_cons.mp hb with rfl | hb
          · exact absurd rfl hbw
          · rw [List.map_append, List.pairwise_append] at ht
            exact (List.pairwise_cons.mp ht.2.1).1 _ (List.mem_map_of_mem hb)

/-- **Which block `cache_acquire` evicts**, after any calls whose hits were on the head of the ring or on the
block before it: the least recently acquired one of those that are neither pinned nor acquired exactly if the
head is kept. -/
theorem evicts_oldest_iff {s₀ : State Unit} (hboot : Booted sb s₀) {as : List Access} {x : Traced}
    (hr : Run (access sb al) Orderly ⟨s₀, []⟩ as x) :
    (∀ n v, Evicts x.cache.blocks n v → (Oldest x v ↔ HeadKept x.cache.blocks)) ∧
      ∀ a x', access sb al x a = some x' → (InOrder x'.hist (numbers x') ↔ Orderly x a) :=
  ⟨fun _ _ hv => oldest_iff (ordered_run hboot hr) hv.2.2,
    fun _ _ hs => inOrder_access_iff (ordered_run hboot hr) hs⟩

/-! ### A full cache -/

/-- Block `100 + i` is acquired, and released unless it is kept. -/
def visit (kept : ℕ → Bool) (i : ℕ) : List Access :=
  if kept i then [.acquire (100 + i)] else [.acquire (100 + i), .release (100 + i)]

/-- The first `k` blocks from block `100` on. -/
def fill (kept : ℕ → Bool) : ℕ → List Access
  | 0 => []
  | k + 1 => fill kept k ++ visit kept k

def view (b : Block Unit) : ℕ × Bool := (b.blockNo, evictable b)

/-- The cache after these calls. -/
structure Filled (kept : ℕ → Bool) (k : ℕ) (x : Traced) : Prop where
  sim : ∃ held, Sim mkfsLayout x.cache ⟨zeroDisk, held, [], none⟩ ∧ ∀ m ∈ held, m < 100 + k
  views : x.cache.blocks.map view = (List.range k).map fun i => (100 + i, !kept i)

variable {kept : ℕ → Bool} {k : ℕ} {x : Traced}

theorem Filled.blockNo_lt (h : Filled kept k x) : ∀ b ∈ x.cache.blocks, b.blockNo < 100 + k := by
  intro b hb
  have hm : view b ∈ x.cache.blocks.map view := List.mem_map_of_mem hb
  rw [h.views] at hm
  obtain ⟨i, hi, he⟩ := List.mem_map.mp hm
  have hbi : 100 + i = b.blockNo := congrArg Prod.fst he
  rw [← hbi]
  exact Nat.add_lt_add_left (List.mem_range.mp hi) 100

theorem Filled.length_eq (h : Filled kept k x) : x.cache.blocks.length = k := by
  rw [← List.length_map view, h.views, List.length_map, List.length_range]

theorem Filled.absent (h : Filled kept k x) (hn : 100 + k ≤ n) : fetchCached n x.cache.blocks = none :=
  fetchCached_none.mpr fun b hb => ne_of_lt (lt_of_lt_of_le (h.blockNo_lt b hb) hn)

theorem filled_miss (h : Filled kept k x) (hn : 100 + k ≤ n) (hlt : n < 2 ^ 64) :
    ∃ x' a held, access mkfsLayout nextFit x (.acquire n) = some x' ∧
      x'.cache.blocks = evictFull x.cache.blocks ++ [loadedBlock a n (x.cache.disk n)] ∧
      (∀ b ∈ evictFull x.cache.blocks, b.addr ≠ a) ∧ (∀ m ∈ held, m < 100 + k) ∧
      Sim mkfsLayout x'.cache ⟨zeroDisk, n :: held, [], none⟩ := by
  obtain ⟨held, hsim, hheld⟩ := h.sim
  have hhome : n ∈ home mkfsLayout := by
    show ¬ (2 ≤ n ∧ n < 2 + 63)
    omega
  have harr : arrCall mkfsLayout ⟨zeroDisk, held, [], none⟩ (.acquire n) =
      some (zeroDisk n, ⟨zeroDisk, n :: held, [], none⟩) :=
    if_pos ⟨hhome, hlt, fun hm => absurd (hheld _ hm) (not_lt.mpr hn)⟩
  obtain ⟨s', hc, hsim'⟩ := @sim_call mkfsLayout nextFit _ _ _ _ (by decide) hsim _ harr
  rcases acquire_cases hc with ⟨b, lk, hf, -⟩ | ⟨-, hb⟩
  · rw [h.absent hn] at hf
    cases hf
  · refine ⟨⟨s', record x.hist (.acquire n)⟩, _, held, ?_, hb, kalloc_ne nextFit, hheld, hsim'⟩
    unfold access
    rw [show Access.call (.acquire n) = .acquire n from rfl, hc]
    rfl

theorem filled_release {x' : Traced} {a : ℕ} {held : List ℕ} {d : BlockData} (h : Filled kept k x)
    (hb : x'.cache.blocks = x.cache.blocks ++ [loadedBlock a (100 + k) d]) (ha : ∀ b ∈ x.cache.blocks, b.addr ≠ a)
    (hsim : Sim mkfsLayout x'.cache ⟨zeroDisk, (100 + k) :: held, [], none⟩) :
    ∃ x'', access mkfsLayout nextFit x' (.release (100 + k)) = some x'' ∧
      (∃ lk, x''.cache.blocks = x.cache.blocks ++
        [{ loadedBlock a (100 + k) d with acquired := false, lock := lk }]) ∧
      Sim mkfsLayout x''.cache ⟨zeroDisk, held, [], none⟩ := by
  have harr : arrCall mkfsLayout ⟨zeroDisk, (100 + k) :: held, [], none⟩ (.release (100 + k)) =
      some ((), ⟨zeroDisk, held, [], none⟩) := by
    refine (if_pos ⟨List.mem_cons_self .., List.not_mem_nil⟩).trans ?_
    rw [List.erase_cons_head]
    rfl
  obtain ⟨s'', hc, hsim''⟩ := @sim_call mkfsLayout nextFit _ _ _ _ (by decide) hsim _ harr
  refine ⟨⟨s'', x'.hist⟩, ?_, ?_, hsim''⟩
  · unfold access
    rw [show Access.call (.release (100 + k)) = .release (100 + k) from rfl, hc]
    rfl
  · obtain ⟨b, lk, hf, hl⟩ := release_blocks hc
    obtain ⟨hm, hbn⟩ := fetchCached_some hf
    rw [hb] at hm
    have hbl : b = loadedBlock a (100 + k) d := by
      rcases List.mem_append.mp hm with hm | hm
      · exact absurd hbn (ne_of_lt (h.blockNo_lt b hm))
      · exact List.mem_singleton.mp hm
    refine ⟨lk, ?_⟩
    show s''.blocks = _
    rw [hl, hb, hbl]
    exact modifyAt_concat ha rfl

theorem filled_visit (h : Filled kept k x) (hk : k < evictionThreshold) :
    ∃ x', Run (access mkfsLayout nextFit) Orderly x (visit kept k) x' ∧ Filled kept (k + 1) x' := by
  have hlt : 100 + k < 2 ^ 64 := by
    unfold evictionThreshold at hk
    omega
  have hroom : evictFull x.cache.blocks = x.cache.blocks := if_neg (by rw [h.length_eq]; exact not_le.mpr hk)
  obtain ⟨x', a, held, hacq, hb, ha, hheld, hsim⟩ := filled_miss h le_rfl hlt
  rw [hroom] at hb ha
  have horderly : Orderly x (.acquire (100 + k)) := by
    intro b hf
    rw [h.absent le_rfl] at hf
    cases hf
  unfold visit
  cases hkept : kept k with
  | true =>
    refine ⟨x', .cons horderly hacq (.nil x'), ⟨_, hsim, fun m hm => ?_⟩, ?_⟩
    · rcases List.mem_cons.mp hm with rfl | hm
      · omega
      · exact lt_trans (hheld m hm) (by omega)
    · rw [hb, List.map_append, h.views, List.range_succ, List.map_append]
      simp [view, evictable, loadedBlock, newBlock, hkept]
  | false =>
    obtain ⟨x'', hrel, ⟨lk, hb''⟩, hsim''⟩ := filled_release h hb ha hsim
    refine ⟨x'', .cons horderly hacq (.cons trivial hrel (.nil x'')), ⟨held, hsim'', fun m hm => ?_⟩, ?_⟩
    · exact lt_trans (hheld m hm) (by omega)
    · rw [hb'', List.map_append, h.views, List.range_succ, List.map_append]
      simp [view, evictable, loadedBlock, newBlock, hkept]

theorem fill_run (kept : ℕ → Bool) : ∀ k ≤ evictionThreshold,
    ∃ x, Run (access mkfsLayout nextFit) Orderly ⟨boot zeroDisk, []⟩ (fill kept k) x ∧ Filled kept k x := by
  intro k
  induction k with
  | zero =>
    have hboot : Booted mkfsLayout (boot zeroDisk : State Unit) := booted_boot (LogHeader.numOf_zeroDisk _)
    exact fun _ => ⟨_, .nil _, ⟨[], sim_of_booted hboot, by simp⟩, rfl⟩
  | succ k ih =>
    intro hk
    obtain ⟨x, hr, hfill⟩ := ih (by omega)
    obtain ⟨x', hr', hfill'⟩ := filled_visit hfill (by omega)
    exact ⟨x', hr.append hr', hfill'⟩

theorem Filled.head_two (h : Filled kept (k + 2) x) : ∃ b₀ b₁ t, x.cache.blocks = b₀ :: b₁ :: t ∧
    view b₀ = (100, !kept 0) ∧ view b₁ = (101, !kept 1) := by
  have hv := h.views
  rw [List.range_succ_eq_map, List.map_cons, List.range_succ_eq_map, List.map_cons, List.map_cons] at hv
  obtain ⟨b₀, l, hl, h₀, hv⟩ := List.map_eq_cons_iff.mp hv
  obtain ⟨b₁, t, rfl, h₁, -⟩ := List.map_eq_cons_iff.mp hv
  exact ⟨b₀, b₁, t, hl, h₀, h₁⟩

theorem Filled.evicts (h : Filled kept evictionThreshold x) (hkept : kept 1 = false) :
    ∃ b₀ b₁ t, x.cache.blocks = b₀ :: b₁ :: t ∧ view b₀ = (100, !kept 0) ∧ view b₁ = (101, true) ∧
      Evicts x.cache.blocks 2000 b₁ := by
  obtain ⟨b₀, b₁, t, hl, h₀, h₁⟩ := h.head_two
  rw [hkept] at h₁
  have he : evictable b₁ = true := congrArg Prod.snd h₁
  refine ⟨b₀, b₁, t, hl, h₀, h₁, h.absent (by decide), h.length_eq.ge, ?_⟩
  rw [hl, victim_cons, List.cons_append, List.find?_cons_of_pos he]

/-- With the first block still acquired, the oldest of the others is evicted. -/
theorem evicts_oldest_iff_kept : ∃ x v,
    Run (access mkfsLayout nextFit) Orderly ⟨boot zeroDisk, []⟩ (fill (· == 0) evictionThreshold) x ∧
      Evicts x.cache.blocks 2000 v ∧ v.blockNo = 101 ∧ Oldest x v := by
  have hboot : Booted mkfsLayout (boot zeroDisk : State Unit) := booted_boot (LogHeader.numOf_zeroDisk _)
  obtain ⟨x, hr, hfill⟩ := fill_run (· == 0) _ le_rfl
  obtain ⟨b₀, b₁, t, hl, h₀, h₁, hev⟩ := hfill.evicts rfl
  refine ⟨x, b₁, hr, hev, congrArg Prod.fst h₁, ((evicts_oldest_iff hboot hr).1 2000 b₁ hev).mpr ?_⟩
  intro c hc hec
  rw [hl] at hc
  obtain rfl := some.inj hc
  have hno : evictable b₀ = false := congrArg Prod.snd h₀
  simp [hno] at hec

/-- Blocks `100` to `1123` are acquired and released one after the other. The next miss evicts block `101`,
although block `100` was acquired before it. -/
theorem second_oldest_evicted : ∃ x v x',
    Run (access mkfsLayout nextFit) Orderly ⟨boot zeroDisk, []⟩ (fill (fun _ => false) evictionThreshold) x ∧
      Evicts x.cache.blocks 2000 v ∧ v.blockNo = 101 ∧
      access mkfsLayout nextFit x (.acquire 2000) = some x' ∧
      fetchCached 101 x'.cache.blocks = none ∧ ¬ Oldest x v := by
  have hboot : Booted mkfsLayout (boot zeroDisk : State Unit) := booted_boot (LogHeader.numOf_zeroDisk _)
  obtain ⟨x, hr, hfill⟩ := fill_run (fun _ => false) _ le_rfl
  obtain ⟨b₀, b₁, t, hl, h₀, h₁, hev⟩ := hfill.evicts rfl
  obtain ⟨x', a, held, hacq, hb, -⟩ := filled_miss hfill (n := 2000) (by decide) (by decide)
  have ho := ordered_run hboot hr
  have hbn : b₁.blockNo = 101 := congrArg Prod.fst h₁
  refine ⟨x, b₁, x', hr, hev, hbn, hacq, ?_, ?_⟩
  · have hgone : evictFull x.cache.blocks = x.cache.blocks.eraseP fun y => y.addr = b₁.addr := by
      unfold evictFull evict
      rw [if_pos hev.2.1, hev.2.2]
    rw [fetchCached_none, hb, hgone]
    intro b hm hb101
    rcases List.mem_append.mp hm with hm | hm
    · have hbl : b ∈ x.cache.blocks := List.eraseP_subset hm
      have hb₁ : b₁ ∈ x.cache.blocks := by simp [hl]
      have hsame : b = b₁ := List.inj_on_of_nodup_map ho.order.nodup hbl hb₁ (hb101.trans hbn.symm)
      exact ne_of_mem_eraseP ho.addr hm (congrArg Block.addr hsame)
    · rw [List.mem_singleton.mp hm] at hb101
      exact absurd (show 2000 = 101 from hb101) (by decide)
  · rw [oldest_iff ho hev.2.2]
    intro hkept
    have h01 := hkept b₀ (by rw [hl]; rfl) (congrArg Prod.snd h₀) b₁ (by simp [hl]) (congrArg Prod.snd h₁)
    have h0 : b₀.blockNo = 100 := congrArg Prod.fst h₀
    rw [h01, h0] at hbn
    exact absurd hbn (by decide)

end OsHonor.Fs.Cache.Eviction
