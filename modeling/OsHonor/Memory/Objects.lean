import OsHonor.Memory.Slabs

/-! # Live objects

The allocator with its clients: who asks for an object or a page gets it, may write into it, and gives it
back. `allocator_safe` reads the layout of `Slabs` off for every sequence of calls after boot. -/

namespace OsHonor.Memory.Objects

open Option List Base.Runs Lib.Rings Allocator Slabs

/-- The allocator, the live objects with the sizes that were asked for, and the pages handed out. -/
structure Heap where
  st : State
  objs : List (ℕ × ℕ)
  pages : List ℕ

inductive Call
  | kalloc (s : ℕ)
  | kfree (p : ℕ)
  | kallocPage
  | kfreePage (p : ℕ)
  /-- A client writes the word at `a`. -/
  | write (a w : ℕ)

/-- The word at `a` belongs to a client. -/
def Owned (x : Heap) (a : ℕ) : Prop :=
  (∃ o ∈ x.objs, o.1 ≤ a ∧ a < o.1 + o.2) ∨ ∃ p ∈ x.pages, p ≤ a ∧ a < p + pageSize

instance (x : Heap) (a : ℕ) : Decidable (Owned x a) := inferInstanceAs (Decidable (_ ∨ _))

/-- A call that the clients may make; `none` if they may not, or if the free pages are exhausted. -/
def step (first : ℕ) (x : Heap) : Call → Option Heap
  | .kalloc s =>
    if 1 ≤ s ∧ s ≤ 2048 then
      (Allocator.kalloc first x.st s).map fun (p, st) => ⟨st, (p, s) :: x.objs, x.pages⟩
    else none
  | .kfree p =>
    if p ∈ x.objs.map Prod.fst then
      (Allocator.kfree first x.st p).map fun st => ⟨st, without x.objs p, x.pages⟩
    else none
  | .kallocPage => (Allocator.kallocPage x.st).map fun (p, st) => ⟨st, x.objs, p :: x.pages⟩
  | .kfreePage p =>
    if p ∈ x.pages then some ⟨Allocator.kfreePage x.st p, x.objs, x.pages.erase p⟩ else none
  | .write a w =>
    if Owned x a then some { x with st := { x.st with mem := Function.update x.st.mem a w } } else none

section Run

variable {first n : ℕ} {x x' : Heap}

def Laid (first n : ℕ) (x : Heap) : Prop := ∃ ids, Layout first n x.st x.objs x.pages ids

theorem laid_step (hf : first % pageSize = 0) (hpos : 0 < first) {c : Call} (hx : Laid first n x)
    (hs : step first x c = some x') : Laid first n x' := by
  obtain ⟨ids, h⟩ := hx
  cases c with
  | kalloc z =>
    simp only [step] at hs
    split_ifs at hs with hz
    rcases kalloc_layout hf hpos h hz with ⟨hnone, -⟩ | ⟨p, s', ids', hsome, h'⟩
    · rw [hnone] at hs
      cases hs
    · rw [hsome] at hs
      cases hs
      exact ⟨ids', h'⟩
  | kfree p =>
    simp only [step] at hs
    split_ifs at hs with hp
    obtain ⟨o, ho, rfl⟩ := mem_map.mp hp
    obtain ⟨s', ids', hsome, h'⟩ := kfree_layout hf hpos h ho
    rw [hsome] at hs
    cases hs
    exact ⟨ids', h'⟩
  | kallocPage =>
    simp only [step] at hs
    cases hF : ids .free with
    | nil =>
      -- the list is empty, and nothing is popped
      have hhead : x.st.pagesFree.head = none := by
        have := h.free.2.2.1
        rwa [hF] at this
      rw [Allocator.kallocPage, hhead] at hs
      cases hs
    | cons i F =>
      obtain ⟨s', hsome, h'⟩ := kallocPage_layout hf h hF
      rw [hsome] at hs
      cases hs
      exact ⟨_, h'⟩
  | kfreePage p =>
    simp only [step] at hs
    split_ifs at hs with hp
    cases hs
    rw [h.out] at hp
    obtain ⟨i, hi, rfl⟩ := mem_map.mp hp
    exact ⟨_, kfreePage_layout hf h hi⟩
  | write a w =>
    simp only [step] at hs
    split_ifs at hs with ha
    cases hs
    exact ⟨ids, write_layout h ha⟩

end Run

/-! ### What the layout says -/

variable {o o' : ℕ × ℕ}

section Layout

variable {first n : ℕ} {s : State} {objs : List (ℕ × ℕ)} {pages : List ℕ} {ids : Place → List ℕ}

def Apart (o o' : ℕ × ℕ) : Prop := o.1 + o.2 ≤ o'.1 ∨ o'.1 + o'.2 ≤ o.1

def Inside (first : ℕ) (ids : Place → List ℕ) (o : ℕ × ℕ) (X : Place) (i : ℕ) : Prop :=
  i ∈ ids X ∧ pageAt first i ≤ o.1 ∧ o.1 + o.2 ≤ pageAt first i + pageSize

theorem apart_of_inside {X Y : Place} {i j : ℕ} (hne : i ≠ j) (ho : Inside first ids o X i)
    (ho' : Inside first ids o' Y j) : Apart o o' := by
  obtain ⟨-, h1, h2⟩ := ho
  obtain ⟨-, h1', h2'⟩ := ho'
  unfold pageAt pageSize at *
  unfold Apart
  omega

theorem inside_obj (h : Layout first n s objs pages ids) (ho : o ∈ objs) :
    ∃ b, Inside first ids o (.slab b) (va2id first o.1) := by
  obtain ⟨b, hb11, -, hb, hle, hpart⟩ := h.obj_part ho
  have hin := partsOf_subset hb11 hpart
  exact ⟨b, hb, hin.1, by omega⟩

theorem inside_page (h : Layout first n s objs pages ids) {p : ℕ} (hp : p ∈ pages) :
    ∃ i, Inside first ids (p, pageSize) .out i ∧ p = pageAt first i := by
  rw [h.out] at hp
  obtain ⟨i, hi, rfl⟩ := mem_map.mp hp
  exact ⟨i, ⟨hi, le_rfl, le_rfl⟩, rfl⟩

theorem objs_apart (h : Layout first n s objs pages ids) (ho : o ∈ objs) (ho' : o' ∈ objs)
    (hne : o.1 ≠ o'.1) : Apart o o' := by
  obtain ⟨b, hb11, -, hb, hle, hpart⟩ := h.obj_part ho
  obtain ⟨b', -, -, hb', hle', hpart'⟩ := h.obj_part ho'
  by_cases hpage : va2id first o.1 = va2id first o'.1
  · rw [hpage] at hb hpart
    obtain rfl : b = b' := by simpa using h.census.unique hb hb'
    unfold Apart
    rcases parts_disjoint hpart hpart' with he | hlt | hlt
    · exact absurd he hne
    · omega
    · omega
  · obtain ⟨c, hc⟩ := inside_obj h ho
    obtain ⟨c', hc'⟩ := inside_obj h ho'
    exact apart_of_inside hpage hc hc'

theorem pairwise_apart (h : Layout first n s objs pages ids) :
    (objs ++ pages.map fun p => (p, pageSize)).Pairwise Apart := by
  refine pairwise_append.mpr ⟨?_, ?_, fun o ho q hq => ?_⟩
  · have hnd : objs.Pairwise fun o o' => o.1 ≠ o'.1 := pairwise_map.mp h.obj_nodup
    exact hnd.imp_of_mem fun ho ho' hne => objs_apart h ho ho' hne
  · have hnd : pages.Nodup := by
      rw [h.out]
      exact (h.census.nodup _).map fun i j => pageAt_inj
    refine pairwise_map.mpr (hnd.imp_of_mem fun {p q} hp hq hne => ?_)
    obtain ⟨i, hi, rfl⟩ := inside_page h hp
    obtain ⟨j, hj, rfl⟩ := inside_page h hq
    exact apart_of_inside (fun he => hne (congrArg _ he)) hi hj
  · obtain ⟨p, hp, rfl⟩ := mem_map.mp hq
    obtain ⟨b, hi⟩ := inside_obj h ho
    obtain ⟨j, hj, rfl⟩ := inside_page h hp
    refine apart_of_inside (fun he => ?_) hi hj
    rw [he] at hi
    exact absurd (h.census.unique hi.1 hj.1) (by simp)

theorem obj_aligned (hf : first % pageSize = 0) (h : Layout first n s objs pages ids)
    (ho : o ∈ objs) : ∃ k, max o.2 8 ≤ 2 ^ k ∧ (∀ j, max o.2 8 ≤ 2 ^ j → k ≤ j) ∧ 2 ^ k ∣ o.1 := by
  obtain ⟨b, hb11, hr, -, -, hpart⟩ := h.obj_part ho
  obtain ⟨hle, hleast⟩ := le_of_roundUp (h.obj o ho).1.2 hr
  refine ⟨b, hle, hleast, ?_⟩
  obtain ⟨j, -, he⟩ := mem_parts.mp hpart
  have hpage : 2 ^ b ∣ pageSize := ⟨2 ^ (12 - b), (pow_mul_pow hb11).symm⟩
  rw [he]
  refine Nat.dvd_add (hpage.trans (Nat.dvd_of_mod_eq_zero (pageAt_aligned hf _))) (Dvd.intro_left j rfl)

end Layout

/-- **The allocator is safe and exact** in every state that calls of its clients lead to from boot.
The live objects and the pages handed out are pairwise disjoint and inside managed pages, and an object
is aligned to the least power of two that fits it. Every page is in one place: in `pages_free`, in a
bucket of `slabs` or with a client; it is in the bucket `b` if and only if a live object of size `2 ^ b`
lies in it. Then `alloc_partitions_cnt` counts its live objects, and the list from `free_head` on ends,
is not empty, and holds the other partitions, each once. `kalloc` returns while there are free pages,
and `kfree` always. -/
theorem allocator_safe {first n : ℕ} (hf : first % pageSize = 0) (hpos : 0 < first) {mem : ℕ → ℕ}
    {s₀ : State} (hboot : initPages first mem n = some s₀) {cs : List Call} {x : Heap}
    (hrun : Run (step first) (fun _ _ => True) ⟨s₀, [], []⟩ cs x) :
    (x.objs ++ x.pages.map fun p => (p, pageSize)).Pairwise Apart ∧
    (∀ o ∈ x.objs ++ x.pages.map fun p => (p, pageSize),
      ∃ i < n, pageAt first i ≤ o.1 ∧ o.1 + o.2 ≤ pageAt first i + pageSize) ∧
    (∀ o ∈ x.objs, ∃ k, max o.2 8 ≤ 2 ^ k ∧ (∀ j, max o.2 8 ≤ 2 ^ j → k ≤ j) ∧ 2 ^ k ∣ o.1) ∧
    ∃ ids : Place → List ℕ,
      Holds (pageLinks x.st.mem) x.st.pagesFree ((ids .free).map (pageAt first)) ∧
      x.pages = (ids .out).map (pageAt first) ∧
      (∀ b, Holds x.st.ppNodes (x.st.slabs b) (ids (.slab b))) ∧
      (∀ X, (ids X).Nodup ∧ ∀ i ∈ ids X, i < n) ∧ (∀ i < n, ∃! X, i ∈ ids X) ∧
      (∀ b i, i ∈ ids (.slab b) ↔
        ∃ o ∈ x.objs, va2id first o.1 = i ∧ roundUp o.2 = some (2 ^ b, b)) ∧
      (∀ b, ∀ i ∈ ids (.slab b),
        (x.st.pageInfo i).allocPartitionsCnt = (liveIn first x.objs i).length ∧
        ∃ fl, fl ≠ [] ∧ Chain x.st.mem (x.st.pageInfo i).freeHead fl ∧ fl.Nodup ∧
          ∀ a, a ∈ fl ↔ a ∈ partsOf first i b ∧ a ∉ x.objs.map Prod.fst) ∧
      (∀ z, 1 ≤ z ∧ z ≤ 2048 → ids .free ≠ [] → (Allocator.kalloc first x.st z).isSome) ∧
      ∀ o ∈ x.objs, (Allocator.kfree first x.st o.1).isSome := by
  obtain ⟨ids, h⟩ : Laid first n x :=
    Run.inv (fun _ _ _ hx _ hs => laid_step hf hpos hx hs) hrun ⟨_, boot_layout hf hboot⟩
  refine ⟨pairwise_apart h, fun o ho => ?_, fun o ho => obj_aligned hf h ho, ids, h.free, h.out, h.slabs,
    fun X => ⟨h.census.nodup X, h.census.lt X⟩, fun i hi => ?_, fun b i => ⟨fun hi => ?_, ?_⟩,
    fun b i hi => ?_, fun z hz hfree => ?_, fun o ho => ?_⟩
  · rcases mem_append.mp ho with ho | hpage
    · obtain ⟨b, hb, hin⟩ := inside_obj h ho
      exact ⟨_, h.census.lt _ _ hb, hin⟩
    · obtain ⟨p, hp, rfl⟩ := mem_map.mp hpage
      obtain ⟨i, ⟨hi, hin⟩, -⟩ := inside_page h hp
      exact ⟨i, h.census.lt _ _ hi, hin⟩
  · obtain ⟨X, hX⟩ := h.census.cover i hi
    exact ⟨X, hX, fun Y hY => h.census.unique hY hX⟩
  · obtain ⟨p, hp⟩ := exists_mem_of_ne_nil _ (h.slab_ok b i hi).live_pos
    obtain ⟨hp, hpi⟩ := mem_liveIn.mp hp
    obtain ⟨o, ho, rfl⟩ := mem_map.mp hp
    obtain ⟨c, -, hr, hc, -⟩ := h.obj_part ho
    rw [hpi] at hc
    obtain rfl : c = b := by simpa using h.census.unique hc hi
    exact ⟨o, ho, hpi, hr⟩
  · rintro ⟨o, ho, rfl, hr⟩
    obtain ⟨c, -, hr', hc, -⟩ := h.obj_part ho
    obtain rfl : c = b := (Prod.mk.inj (some.inj (hr'.symm.trans hr))).2
    exact hc
  · have hok := h.slab_ok b i hi
    obtain ⟨fl, hne, hchain, hperm⟩ := hok.chain
    have hnd : (fl ++ liveIn first x.objs i).Nodup :=
      hperm.nodup_iff.mpr (parts_nodup (Nat.two_pow_pos b) _ _)
    refine ⟨hok.cnt, fl, hne, hchain, hnd.of_append_left, fun a => ⟨fun ha => ?_, fun ha => ?_⟩⟩
    · have hpart := hperm.mem_iff.mp (mem_append_left _ ha)
      refine ⟨hpart, fun hm => ?_⟩
      have hpage := va2id_of_inPage (partsOf_inPage hok.order.2 hpart)
      exact (nodup_append.mp hnd).2.2 a ha a (mem_liveIn.mpr ⟨hm, hpage⟩) rfl
    · refine (mem_append.mp (hperm.mem_iff.mpr ha.1)).resolve_right fun hm => ?_
      exact ha.2 (mem_liveIn.mp hm).1
  · rcases kalloc_layout hf hpos h hz with ⟨-, hnil⟩ | ⟨p, s', -, hsome, -⟩
    · exact absurd hnil hfree
    · exact isSome_iff_exists.mpr ⟨_, hsome⟩
  · obtain ⟨s', -, hsome, -⟩ := kfree_layout hf hpos h ho
    exact isSome_iff_exists.mpr ⟨s', hsome⟩

/-- Three objects in two sizes; the last of a page goes, and the page is partitioned again. -/
def threeThenAgain : List Call :=
  [.kalloc 2000, .write 4100 7, .kalloc 1500, .kallocPage, .kfree 4096, .kalloc 600, .write 12288 9,
    .kfreePage 12288]

theorem allocator_safe_threeThenAgain : ∃ s₀ x, initPages 4096 (fun _ => 0) 4 = some s₀ ∧
      Run (step 4096) (fun _ _ => True) ⟨s₀, [], []⟩ threeThenAgain x ∧
      (x.objs ++ x.pages.map fun p => (p, pageSize)).Pairwise Apart := by
  obtain ⟨⟨s₀, x⟩, hx⟩ : ∃ sx : State × Heap, ((initPages 4096 (fun _ => 0) 4).bind fun s₀ =>
      (exec (step 4096) (fun _ _ => true) ⟨s₀, [], []⟩ threeThenAgain).map fun x => (s₀, x)) = some sx :=
    isSome_iff_exists.mp (by decide +kernel)
  obtain ⟨s₁, hboot, hx⟩ := bind_eq_some_iff.mp hx
  obtain ⟨x₁, hexec, hx⟩ := map_eq_some_iff.mp hx
  cases hx
  have hrun := run_of_exec (C := fun _ _ => True) (fun _ _ _ => trivial) hexec
  exact ⟨s₀, x, hboot, hrun, (allocator_safe (by decide) (by decide) hboot hrun).1⟩

end OsHonor.Memory.Objects
