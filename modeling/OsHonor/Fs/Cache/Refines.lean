import Mathlib.Algebra.Order.BigOperators.Group.List
import OsHonor.Fs.Cache.Client

/-! # The block cache refines an array of blocks

`Sim` relates the array to the cache between two calls: what is cached is what the array holds, and a
block at home is up to date unless the open operation has logged it or the client has yet to sync it.
Every call that the array answers, the cache answers in the same way (`sim_call`), evictions and commits
included; so it does with every program of calls. -/

namespace OsHonor.Fs.Cache.Refines

open Option Function Base.Keyed Base.Programs
open BlockDevice Lib.Semaphore Blocks Machine
open Steps Ownership
open Bookkeeping Commit Durability
open Client

variable {sb : SuperBlock} {al : Alloc} {s s' : State Unit} {x x' : Arr}

/-! ### A machine with one thread -/

theorem inCommit_iff : InCommit s ↔ stage (s.thread ()).pc ≠ .outside :=
  ⟨fun ⟨_, h⟩ => h, fun h => ⟨(), h⟩⟩

theorem not_inCommit_of_ready (h : (s.thread ()).pc = .ready) : ¬ InCommit s := by
  rw [inCommit_iff, h]
  simp [stage]

theorem quiet (s : State Unit) : Quiet s := by
  intro t ht
  rw [inCommit_iff, not_not]
  exact stage_of_active (active_of_acquiring ht)

theorem not_steals (s : State Unit) (l : Label Unit) : ¬ Steals s l := by
  rintro ⟨b, he, t, ht⟩
  unfold evicted at he
  split at he
  · split at he
    · next hpc => simp [hpc, wokenOn] at ht
    · simp at he
  · simp at he

/-- The invariants of the machine. -/
structure Inv (sb : SuperBlock) (s : State Unit) (g : Hist) : Prop where
  good : Good sb s g
  own : Own s

variable {g : Hist} {l : Label Unit} {n a : ℕ} {b : Block Unit} {c : Call} {cs : List Call}

theorem inv_step (h : Inv sb s g) (hcl : Client sb s l)
    (hs : step sb s l = some s') : Inv sb s' (record s l g) :=
  ⟨good_step h.good hcl hs, own_step h.own (not_steals s l) hs⟩

theorem finish_of_ready (h : (s.thread ()).pc = .ready) (n : ℕ) : finish sb al n s = some s := by
  cases n <;> simp [finish, h, Pc.isReady]

theorem perform_of_ready (hs : step sb s l = some s') (h : (s'.thread ()).pc = .ready) :
    perform sb al s l = some s' := by
  simp [perform, hs, finish_of_ready h]

theorem finish_step (h : (s.thread ()).pc.isReady = false)
    (hs : step sb s (.run () (al.kalloc ((evictFull s.blocks).map Block.addr))) = some s') :
    finish sb al (n + 1) s = finish sb al n s' := by
  simp [finish, h, hs]

theorem finish_mono {m : ℕ} (hnm : n ≤ m) (h : finish sb al n s = some s') :
    finish sb al m s = some s' := by
  induction n generalizing s m with
  | zero =>
    simp only [finish] at h
    split_ifs at h with hr
    rw [← some.inj h]
    exact finish_of_ready (eq_ready hr) m
  | succ n ih =>
    obtain ⟨m, rfl⟩ : ∃ k, m = k + 1 := ⟨m - 1, by omega⟩
    simp only [finish] at h ⊢
    split_ifs at h ⊢ with hr
    · exact h
    · obtain ⟨s₁, hs₁, hf⟩ := bind_eq_some_iff.mp h
      rw [hs₁]
      exact ih (by omega) hf

theorem perform_of_finish {s₁ : State Unit} (hs : step sb s l = some s₁)
    (hn : n ≤ maxSteps) (hf : finish sb al n s₁ = some s') : perform sb al s l = some s' := by
  simp only [perform, hs, bind_some]
  exact finish_mono hn hf

theorem lock_of_not_held (h : Own s) (hb : b ∈ s.blocks)
    (hw : wokenOn (s.thread ()).pc = none) (hn : b.addr ∉ (s.thread ()).held) :
    b.acquired = false ∧ b.lock = ⟨1, []⟩ := by
  constructor
  · by_contra hacq
    obtain ⟨t, ht⟩ := (h.acquired b hb).mp (by simpa using hacq)
    exact hn ht
  · refine h.lock_of_unit hb ((h.lock b hb).unit.mpr ?_)
    rintro t (ht | ht)
    · exact hn ht
    · simp [hw] at ht

theorem post_of_held (h : Own s) (hb : b ∈ s.blocks)
    (hw : waitingOn (s.thread ()).pc = none) (hm : b.addr ∈ (s.thread ()).held) :
    b.acquired = true ∧ b.lock.post = some (none, ⟨1, []⟩) := by
  refine ⟨(h.acquired b hb).mpr ⟨(), hm⟩, ?_⟩
  have hl := h.lock b hb
  rcases Sem.post_of_binary hl.binary (h.val_of_claims hb (Or.inl hm)) with ⟨-, hp⟩ | ⟨t, l, hsl, -⟩
  · exact hp
  · have := (hl.sleepers t).mp (by rw [hsl]; exact List.mem_cons_self ..)
    simp [hw] at this

/-! ### The simulation relation -/

/-- **The cache between two calls**, when the array is `x`. -/
structure Sim (sb : SuperBlock) (s : State Unit) (x : Arr) : Prop where
  inv : ∃ g, Inv sb s g
  ready : (s.thread ()).pc = .ready
  ctx : (s.thread ()).ctx = x.op.map fun l => opMaxNumBlocks - l.length
  logged : ∀ n, n ∈ s.header.logged ↔ n ∈ x.logged
  num : s.header.numBlocks = x.logged.length
  quota : x.logged.length ≤ opMaxNumBlocks
  cached : ∀ b ∈ s.blocks, b.data = x.cur b.blockNo
  held : ∀ b ∈ s.blocks, b.addr ∈ (s.thread ()).held ↔ b.blockNo ∈ x.held
  live : ∀ n ∈ x.held, n ∈ home sb ∧ ∃ b ∈ s.blocks, b.blockNo = n
  nodup : x.held.Nodup
  dirty : ∀ n ∈ x.dirty, n ∈ x.held
  atHome : ∀ n ∈ home sb, n ∉ x.dirty → n ∉ x.logged → s.disk n = x.cur n

namespace Sim

theorem own (h : Sim sb s x) : Own s := by
  obtain ⟨g, hi⟩ := h.inv
  exact hi.own

theorem toHeld (h : Sim sb s x) : Held s := h.own.toHeld

theorem find (h : Sim sb s x) (hn : n ∈ x.held ∨ n ∈ x.logged) :
    ∃ b ∈ s.blocks, b.blockNo = n ∧ fetchCached n s.blocks = some b := by
  obtain ⟨b, hb, hbn⟩ : ∃ b ∈ s.blocks, b.blockNo = n := by
    rcases hn with hn | hn
    · exact (h.live n hn).2
    · obtain ⟨g, hi⟩ := h.inv
      obtain ⟨G, c, hbook⟩ := hi.good.book
      obtain rfl := hbook.none_of_not_inCommit (not_inCommit_of_ready h.ready)
      by_contra hno
      exact hbook.todo_cached (n := n) (fun b hb hbn => hno ⟨b, hb, hbn⟩) ((h.logged n).mpr hn)
  refine ⟨b, hb, hbn, ?_⟩
  rcases hf : fetchCached n s.blocks with _ | b'
  · exact absurd hbn (fetchCached_none.mp hf b hb)
  · obtain ⟨hb', hn'⟩ := fetchCached_some hf
    rw [h.toHeld.eq_of_blockNo hb hb' (hn'.trans hbn.symm)]

end Sim

def face (b : Block Unit) : ℕ × ℕ × BlockData := (b.addr, b.blockNo, b.data)

theorem mem_update_same {f : Block Unit → Block Unit} {l : List (Block Unit)}
    (hf : ∀ b, face (f b) = face b) :
    (∀ y ∈ update a f l, ∃ z ∈ l, face y = face z) ∧ ∀ z ∈ l, ∃ y ∈ update a f l, face y = face z := by
  constructor
  · intro y hy
    obtain ⟨z, hz, rfl⟩ := mem_update.mp hy
    refine ⟨z, hz, ?_⟩
    split_ifs
    · exact hf z
    · rfl
  · intro z hz
    refine ⟨_, mem_update.mpr ⟨z, hz, rfl⟩, ?_⟩
    split_ifs
    · exact hf z
    · rfl

/-- The blocks of `s'` are those of `s`, with other flags and locks. -/
def SameFaces (s s' : State Unit) : Prop :=
  (∀ y ∈ s'.blocks, ∃ z ∈ s.blocks, face y = face z) ∧ ∀ z ∈ s.blocks, ∃ y ∈ s'.blocks, face y = face z

section

variable (h : Sim sb s x) (hm : SameFaces s s')

include h hm

theorem cached_of_faces : ∀ y ∈ s'.blocks, y.data = x.cur y.blockNo := by
  intro y hy
  obtain ⟨z, hz, he⟩ := hm.1 y hy
  simp only [face, Prod.mk.injEq] at he
  rw [he.2.2, he.2.1]
  exact h.cached z hz

theorem live_of_faces (hn : n ∈ x.held) : n ∈ home sb ∧ ∃ y ∈ s'.blocks, y.blockNo = n := by
  obtain ⟨h1, z, hz, rfl⟩ := h.live n hn
  obtain ⟨y, hy, he⟩ := hm.2 z hz
  simp only [face, Prod.mk.injEq] at he
  exact ⟨h1, y, hy, he.2.1⟩

end

/-! ### Calls that return at once -/

theorem sim_beginOp (h : Sim sb s x) (hop : x.op = none) :
    ∃ s', cacheCall sb al s .beginOp = some ((), s') ∧ Sim sb s' { x with op := some [] } := by
  obtain ⟨g, hi⟩ := h.inv
  have hlog : x.logged = [] := by simp [Arr.logged, hop]
  have hs : step sb s (.beginOp ()) = some (cacheBeginOp s ()) := by
    simp [step, h.ready, h.ctx, hop, Pc.isReady]
  have hready : ((cacheBeginOp s ()).thread ()).pc = .ready := by simp [cacheBeginOp, h.ready]
  have hcl : Client sb s (.beginOp ()) := not_inCommit_of_ready h.ready
  refine ⟨cacheBeginOp s (), by simp only [cacheCall, perform_of_ready hs hready]; rfl,
    ⟨_, inv_step hi hcl hs⟩, hready, by simp [cacheBeginOp], fun n => ?_, ?_, Nat.zero_le _, h.cached,
    by simpa [cacheBeginOp] using h.held, h.live, h.nodup, h.dirty, fun n hn hd _ => ?_⟩
  · rw [← hlog]; exact h.logged n
  · show s.header.numBlocks = _
    rw [h.num, hlog]; rfl
  · exact h.atHome n hn hd (by simp [hlog])

theorem sim_modify (h : Sim sb s x) {f : BlockData → BlockData} (hn : n ∈ x.held ∨ n ∈ x.logged) :
    ∃ s', cacheCall sb al s (.modify n f) = some ((), s') ∧ Sim sb s' { x with
      cur := Function.update x.cur n (f (x.cur n))
      dirty := if n ∈ x.logged then x.dirty else n :: x.dirty } := by
  obtain ⟨g, hi⟩ := h.inv
  have hh := h.toHeld
  obtain ⟨b, hb, rfl, hf⟩ := h.find hn
  set s₁ : State Unit :=
    { s with blocks := update b.addr (fun y => { y with data := f y.data }) s.blocks } with hs₁
  have hs : step sb s (.modify () b.addr f) = some s₁ := by
    simp [step, h.ready, Pc.isReady, hh.find_iff.mpr ⟨hb, rfl⟩, hs₁]
  have hcl : Client sb s (.modify () b.addr f) := Or.inr (not_inCommit_of_ready h.ready)
  have hmem : ∀ y ∈ s₁.blocks, ∃ z ∈ s.blocks, y.addr = z.addr ∧ y.blockNo = z.blockNo ∧
      y.data = Function.update x.cur b.blockNo (f (x.cur b.blockNo)) z.blockNo := by
    intro y hy
    obtain ⟨z, hz, rfl⟩ := mem_update.mp hy
    refine ⟨z, hz, ?_⟩
    by_cases hzb : z.addr = b.addr
    · simp [hh.eq_of_addr hb hz hzb, h.cached b hb]
    · have hne : z.blockNo ≠ b.blockNo := fun he => hzb (by rw [hh.eq_of_blockNo hb hz he])
      simp [hzb, hne, h.cached z hz]
  refine ⟨s₁, by simp only [cacheCall, ptr, hf, map_some, bind_eq_bind, bind_some,
    perform_of_ready hs h.ready]; rfl, ⟨_, inv_step hi hcl hs⟩, h.ready, h.ctx, h.logged, h.num, h.quota,
    fun y hy => ?_, fun y hy => ?_, fun n hn => ?_, h.nodup, ?_, ?_⟩
  · obtain ⟨z, hz, -, hyn, hyd⟩ := hmem y hy
    rw [hyd, hyn]
  · obtain ⟨z, hz, hya, hyn, -⟩ := hmem y hy
    rw [hya, hyn]
    exact h.held z hz
  · obtain ⟨h1, z, hz, rfl⟩ := h.live n hn
    refine ⟨h1, _, mem_update.mpr ⟨z, hz, rfl⟩, ?_⟩
    split_ifs <;> rfl
  · by_cases hl : b.blockNo ∈ x.logged
    · simpa [hl] using h.dirty
    · simpa [hl, hn.resolve_right hl] using h.dirty
  · intro m hm hd hl
    have hl' : m ∉ x.logged := hl
    have hne : m ≠ b.blockNo := by
      rintro rfl
      simp [hl'] at hd
    show s.disk m = Function.update x.cur b.blockNo (f (x.cur b.blockNo)) m
    rw [update_of_ne hne]
    refine h.atHome m hm (fun hmd => hd ?_) hl'
    show m ∈ ite _ _ _
    split_ifs
    · exact hmd
    · exact List.mem_cons_of_mem _ hmd

theorem sim_syncOld (h : Sim sb s x) {l : List ℕ} (hop : x.op = some l) (hn : n ∈ x.held)
    (hl : n ∈ l) : ∃ s', cacheCall sb al s (.sync n) = some ((), s') ∧
      Sim sb s' { x with dirty := x.dirty.filter (· ≠ n) } := by
  obtain ⟨b, hb, rfl, hf⟩ := h.find (Or.inl hn)
  have hll : b.blockNo ∈ x.logged := by simpa [Arr.logged, hop] using hl
  have hs : step sb s (.sync () b.addr) = some s := by
    simp [step, h.ready, Pc.isReady, (h.held b hb).mpr hn, h.ctx, hop, cacheSync,
      h.toHeld.find_iff.mpr ⟨hb, rfl⟩, (h.logged _).mpr hll]
  refine ⟨s, by simp only [cacheCall, ptr, hf, map_some, bind_eq_bind, bind_some,
    perform_of_ready hs h.ready]; rfl, h.inv, h.ready, h.ctx, h.logged, h.num, h.quota, h.cached, h.held,
    h.live, h.nodup, fun m hm => h.dirty m (List.mem_of_mem_filter hm), fun m hm hd hml => ?_⟩
  refine h.atHome m hm (fun hmd => hd ?_) hml
  have hne : m ≠ b.blockNo := by
    rintro rfl
    exact hml hll
  simp [hmd, hne]

theorem sim_syncNew (h : Sim sb s x) {l : List ℕ} (hop : x.op = some l) (hn : n ∈ x.held) (hl : n ∉ l)
    (hlen : l.length < opMaxNumBlocks) (hroom : l.length < capacity sb) :
    ∃ s', cacheCall sb al s (.sync n) = some ((), s') ∧
      Sim sb s' { x with dirty := x.dirty.filter (· ≠ n), op := some (n :: l) } := by
  obtain ⟨g, hi⟩ := h.inv
  have hh := h.toHeld
  obtain ⟨b, hb, rfl, hf⟩ := h.find (Or.inl hn)
  have hlog : x.logged = l := by simp [Arr.logged, hop]
  have hnot : b.blockNo ∉ s.header.logged := by rw [h.logged, hlog]; exact hl
  set rm := opMaxNumBlocks - l.length with hrm
  have hctx : (s.thread ()).ctx = some rm := by rw [h.ctx, hop]; rfl
  have hs : step sb s (.sync () b.addr) = some (openEntry s () rm b) := by
    have hrm0 : rm ≠ 0 := by omega
    simp [step, h.ready, Pc.isReady, (h.held b hb).mpr hn, hctx, cacheSync,
      hh.find_iff.mpr ⟨hb, rfl⟩, hnot, hrm0, openEntry]
  have hcl : Client sb s (.sync () b.addr) := by
    intro b' hb' ha
    rw [hh.eq_of_addr hb hb' ha]
    refine ⟨(h.live _ hn).1, fun _ => ?_⟩
    rw [h.num, hlog]
    exact hroom
  have hready : ((openEntry s () rm b).thread ()).pc = .ready := by simp [openEntry, h.ready]
  have hmem : SameFaces s (openEntry s () rm b) := mem_update_same fun _ => rfl
  have hlogged : (openEntry s () rm b).header.logged = s.header.logged ++ [b.blockNo] :=
    LogHeader.logged_concat ..
  refine ⟨openEntry s () rm b, by simp only [cacheCall, ptr, hf, map_some, bind_eq_bind,
    bind_some, perform_of_ready hs hready]; rfl, ⟨_, inv_step hi hcl hs⟩, hready, ?_, fun m => ?_,
    ?_, hlen, (cached_of_faces h hmem :), fun y hy => ?_, fun m hm => live_of_faces h hmem hm, h.nodup,
    fun m hm => h.dirty m (List.mem_of_mem_filter hm), fun m hm hd hml => ?_⟩
  · simp only [openEntry, update_self, map_some, List.length_cons]
    congr 1
  · rw [hlogged, List.mem_append, List.mem_singleton, h.logged, hlog]
    simp [Arr.logged, or_comm]
  · show s.header.numBlocks + 1 = _
    rw [h.num, hlog]
    simp [Arr.logged]
  · obtain ⟨z, hz, he⟩ := hmem.1 y hy
    simp only [face, Prod.mk.injEq] at he
    rw [he.1, he.2.1]
    simpa [openEntry] using h.held z hz
  · simp only [Arr.logged, getD_some, List.mem_cons, not_or] at hml
    refine h.atHome m hm (fun hmd => hd ?_) (by rw [hlog]; exact hml.2)
    simp [hmd, hml.1]

theorem sim_release (h : Sim sb s x) (hn : n ∈ x.held) (hnd : n ∉ x.dirty) :
    ∃ s', cacheCall sb al s (.release n) = some ((), s') ∧
      Sim sb s' { x with held := x.held.erase n } := by
  obtain ⟨g, hi⟩ := h.inv
  have hh := h.toHeld
  obtain ⟨b, hb, rfl, hf⟩ := h.find (Or.inl hn)
  have hheld := (h.held b hb).mpr hn
  obtain ⟨hacq, hpost⟩ := post_of_held h.own hb (by rw [h.ready]; rfl) hheld
  set s₁ : State Unit := { s with
    blocks := update b.addr (fun y => { y with acquired := false, lock := ⟨1, []⟩ }) s.blocks
    thread := Function.update s.thread ()
      { s.thread () with held := (s.thread ()).held.erase b.addr, pc := .ready } } with hs₁
  have hs : step sb s (.release () b.addr) = some s₁ := by
    simp [step, h.ready, Pc.isReady, hheld, cacheRelease, hh.find_iff.mpr ⟨hb, rfl⟩, hacq, hpost, hs₁]
  have hready : (s₁.thread ()).pc = .ready := by simp [hs₁]
  have hcl : Client sb s (.release () b.addr) := trivial
  have hmem : SameFaces s s₁ := mem_update_same fun _ => rfl
  refine ⟨s₁, by simp only [cacheCall, ptr, hf, map_some, bind_eq_bind, bind_some,
    perform_of_ready hs hready]; rfl, ⟨_, inv_step hi hcl hs⟩, hready, by simpa [hs₁] using h.ctx,
    h.logged, h.num, h.quota, (cached_of_faces h hmem :), fun y hy => ?_,
    fun m hm => live_of_faces h hmem (List.mem_of_mem_erase hm), h.nodup.erase _, fun m hm => ?_, h.atHome⟩
  · obtain ⟨z, hz, he⟩ := hmem.1 y hy
    simp only [face, Prod.mk.injEq] at he
    rw [he.1, he.2.1]
    simp only [hs₁, update_self, (hh.nodup ()).mem_erase_iff, h.nodup.mem_erase_iff, h.held z hz]
    refine and_congr_left fun _ => not_congr ⟨fun he => ?_, fun he => ?_⟩
    · rw [hh.eq_of_addr hb hz he]
    · rw [hh.eq_of_blockNo hb hz he]
  · refine (h.nodup.mem_erase_iff).mpr ⟨?_, h.dirty m hm⟩
    rintro rfl
    exact hnd hm

/-! ### `cache_acquire` -/

theorem cacheCall_acquire {d : BlockData}
    (hp : perform sb al s (.acquire () n) = some s') (hh : Held s')
    (hheld : (s'.thread ()).held.head? = some a) (hb : b ∈ s'.blocks) (ha : b.addr = a) (hd : b.data = d) :
    cacheCall sb al s (.acquire n) = some (d, s') := by
  have hf : Blocks.find a s'.blocks = some b := hh.find_iff.mpr ⟨hb, ha⟩
  simp only [cacheCall, hp, bind_eq_bind, bind_some, hheld, hf, hd]
  rfl

theorem sim_acquire_hit (h : Sim sb s x) (hn : n ∈ home sb ∧ n < 2 ^ 64 ∧ n ∉ x.held) (hf : fetchCached n s.blocks = some b) :
    ∃ s', cacheCall sb al s (.acquire n) = some (x.cur n, s') ∧
      Sim sb s' { x with held := n :: x.held } := by
  obtain ⟨g, hi⟩ := h.inv
  obtain ⟨hb, rfl⟩ := fetchCached_some hf
  have hnot : b.addr ∉ (s.thread ()).held := fun hm => hn.2.2 ((h.held b hb).mp hm)
  obtain ⟨hacq, hlock⟩ := lock_of_not_held h.own hb (by rw [h.ready]; rfl) hnot
  set s₁ := s.goto () (.acquire .client b.blockNo) with hs₁
  set s₂ := take s₁ () .client b.addr ⟨0, []⟩ with hs₂
  have h1 : step sb s (.acquire () b.blockNo) = some s₁ := by
    simp only [step, h.ready, Pc.isReady, hn.2.1, true_and, if_true, hs₁]
  have h2 : ∀ a, step sb s₁ (.run () a) = some s₂ := by
    intro a
    have hpc : (s₁.thread ()).pc = .acquire .client b.blockNo := by simp [hs₁, State.goto]
    have hf₁ : fetchCached b.blockNo s₁.blocks = some b := hf
    simp only [step, hpc, resume, cacheAcquire, hf₁, waitOn, hacq, hlock, waitLoop_free, hs₂]
  have hready : (s₂.thread ()).pc = .ready := by simp [hs₂, take, Cont.ret]
  have hperf : perform sb al s (.acquire () b.blockNo) = some s₂ := by
    have hp₁ : (s₁.thread ()).pc.isReady = false := by simp [hs₁, State.goto, Pc.isReady]
    refine perform_of_finish h1 (n := 1) (by decide) ?_
    rw [finish_step hp₁ (h2 _), finish_of_ready hready]
  have hi₂ := inv_step (inv_step hi (l := .acquire () b.blockNo) trivial h1) (l := .run () 0) trivial (h2 0)
  have hmem : SameFaces s s₂ := by
    simp only [SameFaces, hs₂, take, mem_boostFrequency]
    exact mem_update_same fun _ => rfl
  have hheld : (s₂.thread ()).held = b.addr :: (s.thread ()).held := by
    simp [hs₂, hs₁, take, State.goto]
  obtain ⟨y, hy, he⟩ := hmem.2 b hb
  simp only [face, Prod.mk.injEq] at he
  refine ⟨s₂, cacheCall_acquire hperf hi₂.own.toHeld (by rw [hheld]; rfl) hy he.1
    (he.2.2.trans (h.cached b hb)), ⟨_, hi₂⟩, hready, by simpa [hs₂, hs₁, take, State.goto] using h.ctx,
    h.logged, h.num, h.quota, (cached_of_faces h hmem :), fun z hz => ?_, fun m hm => ?_,
    List.nodup_cons.mpr ⟨hn.2.2, h.nodup⟩, fun m hm => List.mem_cons_of_mem _ (h.dirty m hm), h.atHome⟩
  · obtain ⟨w, hw, he⟩ := hmem.1 z hz
    simp only [face, Prod.mk.injEq] at he
    rw [he.1, he.2.1, hheld, List.mem_cons, List.mem_cons, h.held w hw]
    refine or_congr_left ⟨fun hwb => ?_, fun hwb => ?_⟩
    · rw [h.toHeld.eq_of_addr hb hw hwb]
    · rw [h.toHeld.eq_of_blockNo hb hw hwb]
  · rcases List.mem_cons.mp hm with rfl | hm
    · exact ⟨hn.1, y, hy, he.2.1⟩
    · exact live_of_faces h hmem hm

/-- The block as `cache_acquire` leaves it after a miss. -/
def loadedBlock (a n : ℕ) (d : BlockData) : Block Unit :=
  { (newBlock a n : Block Unit) with data := d, valid := true }

def missed (s : State Unit) (n a : ℕ) : State Unit :=
  { s with
    blocks := evictFull s.blocks ++ [loadedBlock a n (s.disk n)]
    thread := Function.update s.thread ()
      { s.thread () with held := a :: (s.thread ()).held, pc := .ready } }

theorem steps_of_miss (sb : SuperBlock) (hready : (s.thread ()).pc = .ready) (hn : n < 2 ^ 64)
    (hf : fetchCached n s.blocks = none) (ha : ∀ b ∈ evictFull s.blocks, b.addr ≠ a) :
    ∃ s₁ s₂ s₃, step sb s (.acquire () n) = some s₁ ∧ (s₁.thread ()).pc = .acquire .client n ∧
      s₁.blocks = s.blocks ∧
      step sb s₁ (.run () a) = some s₂ ∧ (s₂.thread ()).pc = .load .client a ∧
      (∀ a', step sb s₂ (.run () a') = some s₃) ∧ (s₃.thread ()).pc = .loaded .client a ∧
      ∀ a', step sb s₃ (.run () a') = some (missed s n a) := by
  set s₁ := s.goto () (.acquire .client n) with hs₁
  set s₂ := push s₁ () .client n a with hs₂
  set s₃ : State Unit := { s₂.goto () (.loaded .client a) with
    blocks := evictFull s.blocks ++ [{ (newBlock a n : Block Unit) with data := s.disk n }] } with hs₃
  have hp₁ : (s₁.thread ()).pc = .acquire .client n := by simp [hs₁, State.goto]
  have hp₂ : (s₂.thread ()).pc = .load .client a := by simp [hs₂, push]
  have hp₃ : (s₃.thread ()).pc = .loaded .client a := by simp [hs₃, State.goto]
  refine ⟨s₁, s₂, s₃, ?_, hp₁, rfl, ?_, hp₂, fun a' => ?_, hp₃, fun a' => ?_⟩
  · simp only [step, hready, Pc.isReady, hn, true_and, if_true, hs₁]
  · have hf₁ : fetchCached n s₁.blocks = none := hf
    have ha₁ : a ∉ (evictFull s₁.blocks).map Block.addr := by simpa [hs₁, State.goto] using ha
    simp only [step, hp₁, resume, cacheAcquire, hf₁, if_neg ha₁]
    rfl
  · have hfind : Blocks.find a s₂.blocks = some (newBlock a n) := lookup_concat ha rfl
    have hupd : update a (fun y => { y with data := s.disk n }) s₂.blocks =
        evictFull s.blocks ++ [{ (newBlock a n : Block Unit) with data := s.disk n }] :=
      modifyAt_concat ha rfl
    simp only [step, hp₂, resume, hfind, bind_eq_bind, bind_some]
    show some { s₂.goto () (.loaded .client a) with
      blocks := update a (fun y => { y with data := s.disk n }) s₂.blocks } = _
    rw [hupd]
  · have hupd : boostFrequency a (update a (fun y => { y with valid := true }) s₃.blocks) =
        evictFull s.blocks ++ [loadedBlock a n (s.disk n)] := by
      have : update a (fun y : Block Unit => { y with valid := true }) s₃.blocks =
          evictFull s.blocks ++ [loadedBlock a n (s.disk n)] := modifyAt_concat ha rfl
      rw [this]
      exact rotateAfter_concat ha rfl
    simp only [step, hp₃, resume, hupd, Cont.ret]
    simp [missed, hs₃, hs₂, hs₁, State.goto, push]

theorem kalloc_ne (al : Alloc) {l : List (Block Unit)} : ∀ b ∈ l, b.addr ≠ al.kalloc (l.map Block.addr) := by
  intro b hb hba
  refine al.fresh (l.map Block.addr) ?_
  rw [← hba]
  exact List.mem_map_of_mem hb

theorem perform_miss (hready : (s.thread ()).pc = .ready) (hn : n < 2 ^ 64)
    (hf : fetchCached n s.blocks = none) : perform sb al s (.acquire () n) =
      some (missed s n (al.kalloc ((evictFull s.blocks).map Block.addr))) := by
  obtain ⟨s₁, s₂, s₃, h1, hp₁, hb₁, h2, hp₂, h3, hp₃, h4⟩ := steps_of_miss sb hready hn hf (kalloc_ne al)
  refine perform_of_finish h1 (n := 3) (by decide) ?_
  rw [finish_step (by rw [hp₁]; rfl) (by rw [hb₁]; exact h2), finish_step (by rw [hp₂]; rfl) (h3 _),
    finish_step (by rw [hp₃]; rfl) (h4 _), finish_of_ready (by simp [missed])]

theorem sim_acquire_miss (h : Sim sb s x) (hn : n ∈ home sb ∧ n < 2 ^ 64 ∧ n ∉ x.held)
    (hf : fetchCached n s.blocks = none) :
    ∃ s', cacheCall sb al s (.acquire n) = some (x.cur n, s') ∧
      Sim sb s' { x with held := n :: x.held } := by
  obtain ⟨g, hi⟩ := h.inv
  have hno := fetchCached_none.mp hf
  set a := al.kalloc ((evictFull s.blocks).map Block.addr) with ha
  have hfresh : ∀ b ∈ evictFull s.blocks, b.addr ≠ a := kalloc_ne al
  obtain ⟨s₁, s₂, s₃, h1, -, -, h2, -, h3, -, h4⟩ := steps_of_miss sb h.ready hn.2.1 hf hfresh
  have hready : ((missed s n a).thread ()).pc = .ready := by simp [missed]
  have hperf : perform sb al s (.acquire () n) = some (missed s n a) := perform_miss h.ready hn.2.1 hf
  have hi₁ := inv_step hi (l := .acquire () n) trivial h1
  have hi₂ := inv_step hi₁ (l := .run () a) trivial h2
  have hi₃ := inv_step hi₂ (l := .run () 0) trivial (h3 0)
  have hi₄ := inv_step hi₃ (l := .run () 0) trivial (h4 0)
  have hnew : loadedBlock a n (s.disk n) ∈ (missed s n a).blocks :=
    List.mem_append_right _ (List.mem_singleton.mpr rfl)
  have hlog : n ∉ x.logged := fun hl => by
    obtain ⟨b, hb, hbn, -⟩ := h.find (Or.inr hl)
    exact hno b hb hbn
  have hdisk : s.disk n = x.cur n := h.atHome n hn.1 (fun hd => hn.2.2 (h.dirty n hd)) hlog
  refine ⟨missed s n a, cacheCall_acquire (a := a) hperf hi₄.own.toHeld (by simp [missed]) hnew rfl hdisk,
    ⟨_, hi₄⟩, hready, by simpa [missed] using h.ctx, h.logged, h.num, h.quota, fun b hb => ?_,
    fun b hb => ?_, fun m hm => ?_, List.nodup_cons.mpr ⟨hn.2.2, h.nodup⟩,
    fun m hm => List.mem_cons_of_mem _ (h.dirty m hm), h.atHome⟩
  · rcases List.mem_append.mp hb with hb | hb
    · exact h.cached b ((evictFull_sublist _).subset hb)
    · rw [List.mem_singleton.mp hb]
      exact hdisk
  · have hth : ((missed s n a).thread ()).held = a :: (s.thread ()).held := by simp [missed]
    rw [hth]
    rcases List.mem_append.mp hb with hb | hb
    · have hbs := (evictFull_sublist _).subset hb
      simp [hfresh b hb, hno b hbs, h.held b hbs]
    · rw [List.mem_singleton.mp hb]
      simp [loadedBlock, newBlock]
  · rcases List.mem_cons.mp hm with rfl | hm
    · exact ⟨hn.1, _, hnew, rfl⟩
    · obtain ⟨h1, b, hb, rfl⟩ := h.live m hm
      refine ⟨h1, b, List.mem_append_left _ ?_, rfl⟩
      -- the block is acquired, so it is not the victim
      rcases mem_evictFull_or hb with hm' | ⟨-, v, hv, hbv⟩
      · exact hm'
      · obtain ⟨hvm, -, hacq⟩ := victim_some hv
        rw [← h.toHeld.eq_of_addr hvm hb hbv] at hacq
        have := (h.toHeld.acquired b hb).mpr ⟨(), (h.held b hb).mpr hm⟩
        simp [hacq] at this

/-! ### `cache_end_op` -/

/-- The steps a committer that meets nobody has yet to do, and `0` where it does not come. -/
def rank : Pc → ℕ
  | .logNext i => 4 * (logMaxSize - i) + 2 * logMaxSize + 7
  | .acquire (.writeLog i) _ => 4 * (logMaxSize - i) + 2 * logMaxSize + 6
  | .logWrite i _ => 4 * (logMaxSize - i) + 2 * logMaxSize + 5
  | .logRelease i _ => 4 * (logMaxSize - i) + 2 * logMaxSize + 4
  | .writeHeader => 2 * logMaxSize + 6
  | .ckpt .readHeader => 2 * logMaxSize + 5
  | .ckpt (.read i) => 2 * (logMaxSize - i) + 4
  | .ckpt (.write i _) => 2 * (logMaxSize - i) + 3
  | .ckpt .empty => 3
  | .ckpt .writeHeader => 2
  | .ckpt .done => 1
  | _ => 0

theorem stage_of_rank {pc : Pc} (h : 0 < rank pc) : stage pc ≠ .outside := by
  unfold rank at h
  split at h <;> simp_all [stage]

def HoldsWork (s : State Unit) : Prop := (s.thread ()).held = (workingOn (s.thread ()).pc).toList

/-- **The committer goes on**: its next step is possible and brings it nearer to the end. -/
theorem next_of_commit (h : Inv sb s g) (hpos : 0 < rank (s.thread ()).pc)
    (hheld : HoldsWork s) (a : ℕ) :
    ∃ s', step sb s (.run () a) = some s' ∧ rank (s'.thread ()).pc < rank (s.thread ()).pc ∧
      (0 < rank (s'.thread ()).pc ∨ (s'.thread ()).pc = .ready ∧ (s'.thread ()).ctx = none) ∧
      HoldsWork s' := by
  have hh := h.own.toHeld
  obtain ⟨G, c, hbook⟩ := h.good.book
  obtain rfl : c = some () := (hbook.committer ()).mp (stage_of_rank hpos)
  have hlogAt := hbook.logAt () rfl
  obtain ⟨p, hg, hinv⟩ := h.good.journal.commit () (stage_of_rank hpos)
  have hent := fun hgr => (h.good.journal.entries_of_committer hbook hgr).1
  have hcap : capacity sb ≤ logMaxSize := Nat.min_le_left _ _
  unfold HoldsWork at hheld ⊢
  generalize hpc : (s.thread ()).pc = pc at *
  -- one case per place on the way; the others have rank `0`
  cases pc with
  | logNext i =>
    have hN := hent rfl
    refine ⟨_, by simp only [step, hpc, resume]; rfl, ?_⟩
    split_ifs with hi
    · simp only [State.goto, update_self, rank]
      refine ⟨by omega, Or.inl (by omega), ?_⟩
      simpa [workingOn] using hheld
    · simp only [State.goto, update_self, rank]
      refine ⟨by omega, Or.inl (by omega), ?_⟩
      simpa [workingOn] using hheld
  | acquire k n =>
    cases k with
    | client => simp [rank] at hpos
    | writeLog i =>
      obtain ⟨hi, rfl⟩ : i < s.header.numBlocks ∧ n = s.header.blockNo i := hlogAt
      have hno : (s.thread ()).held = [] := by simpa [workingOn] using hheld
      -- the block is cached and free
      obtain ⟨b, hf⟩ : ∃ b, fetchCached (s.header.blockNo i) s.blocks = some b := by
        rw [← ne_none_iff_exists']
        intro hf
        have := hbook.client_of_miss hpc (fetchCached_none.mp hf)
        simp at this
      obtain ⟨hb, -⟩ := fetchCached_some hf
      obtain ⟨hacq, hlock⟩ := lock_of_not_held h.own hb (by rw [hpc]; rfl) (by simp [hno])
      refine ⟨take s () (.writeLog i) b.addr ⟨0, []⟩, ?_, ?_⟩
      · simp only [step, hpc, resume, cacheAcquire, hf, waitOn, hacq, hlock, waitLoop_free]
      · simp only [take, update_self, Cont.ret, rank, workingOn, hno]
        exact ⟨by omega, Or.inl (by omega), rfl⟩
  | logWrite i b =>
    obtain ⟨x, hx, hxb⟩ := hh.live () b (hh.working () b (by rw [hpc]; rfl))
    refine ⟨_, by simp only [step, hpc, resume, hh.find_iff.mpr ⟨hx, hxb⟩, bind_eq_bind,
      bind_some]; rfl, ?_⟩
    simp only [State.goto, update_self, rank]
    exact ⟨by omega, Or.inl (by omega), hheld⟩
  | logRelease i b =>
    have hN := hent rfl
    obtain ⟨hi, -⟩ : i < s.header.numBlocks ∧ _ := hlogAt
    have hbh := hh.working () b (by rw [hpc]; rfl)
    obtain ⟨x, hx, rfl⟩ := hh.live () b hbh
    obtain ⟨hacq, hpost⟩ := post_of_held h.own hx (by rw [hpc]; rfl) hbh
    have hone : (s.thread ()).held = [x.addr] := by simpa [workingOn] using hheld
    have hmem : find x.addr (update x.addr (fun y => { y with pinned := false }) s.blocks) =
        some { x with pinned := false } := by
      refine (lookup_eq_some ?_).mpr ⟨mem_modifyAt_self hx rfl, rfl⟩
      rw [map_update Block.addr]
      · exact hh.addrs
      · exact fun _ _ => rfl
    refine ⟨_, by simp only [step, hpc, resume, cacheRelease, hmem, bind_eq_bind, bind_some,
      hacq, if_true, hpost]; rfl, ?_⟩
    simp only [update_self, rank, workingOn, hone]
    exact ⟨by omega, Or.inl (by omega), by simp⟩
  | writeHeader =>
    refine ⟨_, by simp only [step, hpc, resume]; rfl, ?_⟩
    simp only [State.goto, update_self, rank]
    exact ⟨by omega, Or.inl (by omega), hheld⟩
  | ckpt q =>
    cases q with
    | done =>
      refine ⟨_, by simp only [step, hpc, resume, condBroadcast, hh.postAll_workDone,
        bind_eq_bind, bind_some]; rfl, ?_⟩
      simp only [if_true, rank]
      exact ⟨by omega, Or.inr ⟨trivial, trivial⟩, hheld⟩
    | write i v =>
      obtain ⟨hr, hm, hlt, -⟩ := hinv
      have hlen := hr.len
      have hnum := hm.1
      refine ⟨_, by simp only [step, hpc, resume, spawnCkpt]; rfl, ?_⟩
      simp only [State.goto, update_self, rank]
      exact ⟨by omega, Or.inl (by omega), hheld⟩
    | read i =>
      by_cases hi : i < s.header.numBlocks
      · refine ⟨_, by simp only [step, hpc, resume, spawnCkpt, if_pos hi]; rfl, ?_⟩
        simp only [State.goto, update_self, rank]
        exact ⟨by omega, Or.inl (by omega), hheld⟩
      · refine ⟨_, by simp only [step, hpc, resume, spawnCkpt, if_neg hi]; rfl, ?_⟩
        simp only [State.goto, update_self, rank]
        exact ⟨by omega, Or.inl (by omega), hheld⟩
    | readHeader | empty | writeHeader =>
      refine ⟨_, by simp only [step, hpc, resume, spawnCkpt]; rfl, ?_⟩
      simp only [State.goto, update_self, rank]
      exact ⟨by omega, Or.inl (by omega), hheld⟩
  | ready | load k b | loaded k b | wait k b | woken k b | endWait | endWoken => simp [rank] at hpos

/-- In the middle of a commit, when `cur` are the contents the client sees. -/
structure Committing (sb : SuperBlock) (cur : Disk) (s : State Unit) (g : Hist) : Prop where
  inv : Inv sb s g
  tracked : ∀ n ∈ home sb, Tracked (· = cur n) n () s g
  cached : ∀ b ∈ s.blocks, b.data = cur b.blockNo
  onPath : 0 < rank (s.thread ()).pc ∨ (s.thread ()).pc = .ready ∧ (s.thread ()).ctx = none
  holds : HoldsWork s

variable {cur : Disk} {out : List (ℕ × BlockData)}

theorem committing_step (h : Committing sb cur s g)
    (hpos : 0 < rank (s.thread ()).pc) (a : ℕ) :
    ∃ s' g', step sb s (.run () a) = some s' ∧ rank (s'.thread ()).pc < rank (s.thread ()).pc ∧
      Committing sb cur s' g' := by
  obtain ⟨s', hs, hlt, hpath, hholds⟩ := next_of_commit h.inv hpos h.holds a
  have hh := h.inv.own.toHeld
  refine ⟨s', record s (.run () a) g, hs, hlt, inv_step h.inv (l := .run () a) trivial hs,
    fun n hn => ?_, fun b' hb' => ?_, hpath, hholds⟩
  · exact tracked_step h.inv.good (quiet s) hn (h.tracked n hn) (l := .run () a) trivial hs
  · rcases block_step hh (step_cases hh hs) hb' with ⟨b, hb, hbb⟩ | ⟨t, k, n, c, hp, -, hno, -⟩
    · rw [hbb.blockNo, ← h.cached b hb]
      rcases hbb.data with hd | ⟨t, f, hl, -⟩ | ⟨t, k, hp, -⟩
      · exact hd
      · simp at hl
      · simp [show (s.thread ()).pc = _ from hp, rank] at hpos
    · obtain ⟨G, c', hbook⟩ := h.inv.good.book
      have hk := hbook.client_of_miss hp hno
      subst hk
      simp [show (s.thread ()).pc = _ from hp, rank] at hpos

/-- **Every commit of the single client comes to its end.** -/
theorem finish_of_committing (al : Alloc) : ∀ {s : State Unit} {g : Hist},
    Committing sb cur s g → rank (s.thread ()).pc ≤ n →
    ∃ s' g', finish sb al n s = some s' ∧ (s'.thread ()).pc = .ready ∧ (s'.thread ()).ctx = none ∧
      Committing sb cur s' g' := by
  induction n with
  | zero =>
    intro s g h hle
    have hr := h.onPath.resolve_left (by omega)
    exact ⟨s, g, finish_of_ready hr.1 0, hr.1, hr.2, h⟩
  | succ n ih =>
    intro s g h hle
    rcases h.onPath with hpos | hr
    · obtain ⟨s₁, g₁, hs, hlt, h₁⟩ := committing_step h hpos
        (al.kalloc ((evictFull s.blocks).map Block.addr))
      obtain ⟨s', g', hf, hr, h'⟩ := ih h₁ (by omega)
      refine ⟨s', g', ?_, hr, h'⟩
      have hnr : (s.thread ()).pc.isReady = false := by
        cases hpc : (s.thread ()).pc <;> simp_all [rank, Pc.isReady]
      rw [finish_step hnr hs]
      exact hf
    · exact ⟨s, g, finish_of_ready hr.1 _, hr.1, hr.2, h⟩

theorem tracked_of_sim (hi : Inv sb s g) (h : Sim sb s x) (hop : x.op ≠ none)
    (hheld : x.held = []) (hn : n ∈ home sb) : Tracked (· = x.cur n) n () s g := by
  obtain ⟨G, c, hbook⟩ := hi.good.book
  obtain rfl := hbook.none_of_not_inCommit (not_inCommit_of_ready h.ready)
  obtain ⟨hg, hredo⟩ := hi.good.journal.idle (stage_of_none hbook)
  refine ⟨fun b hb hbn _ => by rw [h.cached b hb, hbn], by simp [hg], ?_⟩
  by_cases hl : n ∈ x.logged
  · refine Or.inr ⟨?_, fun _ => (h.logged n).mpr hl, by simp [hg]⟩
    rw [h.ctx]
    simpa using hop
  · left
    rw [← hredo.mixed.eq_of_none n hn]
    refine h.atHome n hn (fun hd => ?_) hl
    have := h.dirty n hd
    simp [hheld] at this

theorem sim_endOp (h : Sim sb s x) (hop : x.op ≠ none) (hheld : x.held = []) :
    ∃ s', cacheCall sb al s .endOp = some ((), s') ∧ Sim sb s' { x with op := none } := by
  obtain ⟨g, hi⟩ := h.inv
  obtain ⟨G, c, hbook⟩ := hi.good.book
  have hctx : (s.thread ()).ctx.isSome := by
    rw [h.ctx]
    simpa [isSome_iff_ne_none] using hop
  have hcnt : ¬ 0 < s.contributorsCnt - 1 := by
    have hle : s.contributorsCnt ≤ 1 := by
      rw [hbook.cnt]
      exact Finset.card_le_univ _
    omega
  set s₁ : State Unit :=
    { s.goto () (.logNext 0) with contributorsCnt := s.contributorsCnt - 1 } with hs₁
  have hs : step sb s (.endOp ()) = some s₁ := by
    simp [step, h.ready, Pc.isReady, hctx, cacheEndOp, hcnt, hs₁]
  have hcl : Client sb s (.endOp ()) := trivial
  have hno : (s.thread ()).held = [] := by
    rw [List.eq_nil_iff_forall_not_mem]
    intro a ha
    obtain ⟨b, hb, rfl⟩ := h.toHeld.live () a ha
    have := (h.held b hb).mp ha
    simp [hheld] at this
  have hstart : Committing sb x.cur s₁ (record s (.endOp ()) g) := by
    refine ⟨inv_step hi hcl hs, fun n hn => ?_, h.cached, Or.inl ?_, ?_⟩
    · exact tracked_step hi.good (quiet s) hn (tracked_of_sim hi h hop hheld hn) (l := .endOp ()) trivial hs
    · simp [hs₁, State.goto, rank]
    · simp [HoldsWork, hs₁, State.goto, workingOn, hno]
  obtain ⟨s', g', hf, hready, hnone, h'⟩ := finish_of_committing al hstart
    (n := maxSteps) (by simp [hs₁, State.goto, rank, maxSteps]; omega)
  obtain ⟨G', c', hbook'⟩ := h'.inv.good.book
  obtain rfl := hbook'.none_of_not_inCommit (not_inCommit_of_ready hready)
  have hnum : s'.header.numBlocks = 0 := by
    rw [hbook'.sum rfl]
    exact Finset.sum_eq_zero fun t _ => by rw [show (s'.thread t).ctx = none from hnone]; rfl
  have hheld' : (s'.thread ()).held = [] := by simpa [HoldsWork, hready, workingOn] using h'.holds
  refine ⟨s', by simp only [cacheCall, perform_of_finish hs le_rfl hf]; rfl, ⟨g', h'.inv⟩, hready,
    hnone, ?_, hnum, Nat.zero_le _, h'.cached, ?_, ?_, h.nodup, h.dirty, fun n hn _ _ => ?_⟩
  · simp [LogHeader.logged, hnum, Arr.logged]
  · simp [hheld', hheld]
  · simp [hheld]
  · exact (h'.tracked n hn).disk h'.inv.good hn hnone

/-! ### Every call -/

theorem sim_call_of_room (h : Sim sb s x) {r : c.Resp} (hc : arrCall sb x c = some (r, x'))
    (hroom : ∀ n, c = .sync n → x.logged.length < opMaxNumBlocks → x.logged.length < capacity sb) :
    ∃ s', cacheCall sb al s c = some (r, s') ∧ Sim sb s' x' := by
  cases arr_cases hc with
  | beginOp hop => exact sim_beginOp h hop
  | @acquire n hn =>
    rcases hf : fetchCached n s.blocks with _ | b
    · exact sim_acquire_miss h hn hf
    · exact sim_acquire_hit h hn hf
  | modify hn => exact sim_modify h hn
  | syncOld hop hn hl => exact sim_syncOld h hop hn hl
  | @syncNew n l hop hn hl hlen =>
    have hlog : x.logged = l := by simp [Arr.logged, hop]
    exact sim_syncNew h hop hn hl hlen (hlog ▸ hroom n rfl (hlog ▸ hlen))
  | release hn => exact sim_release h hn.1 hn.2
  | endOp hn => exact sim_endOp h hn.1 hn.2

/-- **Every call the array answers, the cache answers in the same way.** -/
theorem sim_call (hcap : opMaxNumBlocks < sb.numLogBlocks) (h : Sim sb s x) {r : c.Resp}
    (hc : arrCall sb x c = some (r, x')) : ∃ s', cacheCall sb al s c = some (r, s') ∧ Sim sb s' x' := by
  refine sim_call_of_room h hc fun _ _ hlen => lt_of_lt_of_le hlen ?_
  unfold capacity logMaxSize blockSize opMaxNumBlocks at *
  omega

theorem sim_of_booted (h : Booted sb s) : Sim sb s (.init s.disk) where
  inv := ⟨⟨s.disk, none⟩, good_run h (.nil _), own_of_booted h⟩
  ready := by rw [h.thread]
  ctx := by rw [h.thread]; rfl
  logged := by simp [LogHeader.logged, h.header, Arr.logged, Arr.init]
  num := h.header
  quota := Nat.zero_le _
  cached := by simp [h.blocks]
  held := by simp [h.blocks]
  live := by simp [Arr.init]
  nodup := List.nodup_nil
  dirty := by simp [Arr.init]
  atHome _ _ _ _ := rfl

/-! ### Sequences of calls -/

def store (d : Disk) : Call → Disk
  | .modify n f => Function.update d n (f (d n))
  | _ => d

def seen : (c : Call) → c.Resp → List (ℕ × BlockData)
  | .acquire n, d => [(n, d)]
  | .beginOp, _ | .modify _ _, _ | .sync _, _ | .release _, _ | .endOp, _ => []

/-- The calls one after the other. The result is what the `cache_acquire`s have returned. -/
def trace : List Call → Prog Call Call.Resp (List (ℕ × BlockData))
  | [] => pure []
  | c :: cs => do
    let r ← Prog.perform c
    let ds ← trace cs
    pure (seen c r ++ ds)

/-- The contents after the calls: the last ones given to each block, or the initial ones `d`. -/
def contents (d : Disk) (cs : List Call) : Disk := cs.foldl store d

/-- What the `cache_acquire`s should return: the contents at the time of the call. -/
def reads : Disk → List Call → List (ℕ × BlockData)
  | _, [] => []
  | d, .acquire n :: cs => (n, d n) :: reads d cs
  | d, c :: cs => reads (store d c) cs

/-- Blocks are modified inside operations only; `inside` says whether one is open. -/
def modifiesInside : Bool → List Call → Bool
  | _, [] => true
  | _, .beginOp :: cs => modifiesInside true cs
  | _, .endOp :: cs => modifiesInside false cs
  | inside, .modify _ _ :: cs => inside && modifiesInside inside cs
  | inside, _ :: cs => modifiesInside inside cs

theorem arrCall_cases {r : c.Resp} (h : arrCall sb x c = some (r, x')) :
    x'.cur = store x.cur c ∧ (∀ ds, reads x.cur (c :: ds) = seen c r ++ reads x'.cur ds) := by
  cases arr_cases h with
  | _ => exact ⟨rfl, fun _ => rfl⟩

/-- Unsynced blocks are held, and there are none between two operations. -/
def Synced (x : Arr) : Prop := (∀ n ∈ x.dirty, n ∈ x.held) ∧ (x.op = none → x.dirty = [])

theorem synced_step {r : c.Resp} (h : arrCall sb x c = some (r, x'))
    (hin : modifiesInside x.op.isSome (c :: cs) = true) (hx : Synced x) :
    modifiesInside x'.op.isSome cs = true ∧ Synced x' := by
  obtain ⟨hd, h0⟩ := hx
  cases arr_cases h with
  | beginOp hop => exact ⟨hin, hd, by simp⟩
  | acquire hn => exact ⟨hin, fun m hm => List.mem_cons_of_mem _ (hd m hm), h0⟩
  | @modify n f hn =>
    obtain ⟨hopen, hin⟩ := Bool.and_eq_true_iff.mp hin
    refine ⟨hin, fun m hm => ?_, fun hop => ?_⟩
    swap
    · rw [show x.op = none from hop] at hopen
      simp at hopen
    by_cases hl : n ∈ x.logged
    · exact hd m (by simpa [hl] using hm)
    · have hm' : m ∈ n :: x.dirty := by simpa [hl] using hm
      rcases List.mem_cons.mp hm' with rfl | hm
      · exact hn.resolve_right hl
      · exact hd m hm
  | syncOld hop hn hl => exact ⟨hin, fun m hm => hd m (List.mem_of_mem_filter hm), by simp [hop]⟩
  | syncNew hop hn hl hlen =>
    rw [hop] at hin
    exact ⟨hin, fun m hm => hd m (List.mem_of_mem_filter hm), by simp⟩
  | release hn =>
    refine ⟨hin, fun m hm => (List.mem_erase_of_ne ?_).mpr (hd m hm), h0⟩
    rintro rfl
    exact hn.2 hm
  | endOp hn =>
    refine ⟨hin, hd, fun _ => List.eq_nil_iff_forall_not_mem.mpr fun m hm => ?_⟩
    have := hd m hm
    simp [hn.2] at this

theorem trace_arr
    (h : (trace cs).run (arrCall sb) x = some (out, x')) :
    out = reads x.cur cs ∧ x'.cur = contents x.cur cs ∧
      (modifiesInside x.op.isSome cs = true → Synced x → Synced x') := by
  induction cs generalizing x out with
  | nil =>
    simp only [trace, Prog.run_pure, some.injEq, Prod.mk.injEq] at h
    obtain ⟨rfl, rfl⟩ := h
    exact ⟨rfl, rfl, fun _ hx => hx⟩
  | cons c cs ih =>
    simp only [trace, Prog.run_bind, Prog.run_perform, Prog.run_pure, bind_eq_some_iff,
      some.injEq] at h
    obtain ⟨⟨r, x₁⟩, hc, ⟨ds, x₂⟩, hds, h⟩ := h
    obtain ⟨rfl, rfl⟩ := Prod.mk.inj h
    obtain ⟨hcur, hreads⟩ := arrCall_cases hc
    obtain ⟨rfl, hfin, hsync⟩ := ih hds
    rw [hreads, hfin, hcur]
    refine ⟨rfl, rfl, fun hin hx => ?_⟩
    obtain ⟨hin₁, hx₁⟩ := synced_step hc hin hx
    exact hsync hin₁ hx₁

/-- **The block cache refines an array.** For every sequence of calls that the array accepts, the cache
does all of them; every `cache_acquire` returns the last contents given to its block, or the initial
ones; and when no operation is open, the blocks at home have these contents too, all of them if blocks
are modified inside operations, and otherwise all that have been synced. -/
theorem cache_refines_array {s₀ : State Unit} {cs : List Call} {out : List (ℕ × BlockData)}
    (hcap : opMaxNumBlocks < sb.numLogBlocks) (h₀ : Booted sb s₀)
    (harr : (trace cs).run (arrCall sb) (.init s₀.disk) = some (out, x)) :
    ∃ s, (trace cs).run (cacheCall sb al) s₀ = some (reads s₀.disk cs, s) ∧
      (x.op = none → ∀ n ∈ home sb, (modifiesInside false cs = true ∨ n ∉ x.dirty) →
        s.disk n = contents s₀.disk cs n) := by
  obtain ⟨s, hs, hsim⟩ := Prog.run_sim (h := cacheCall sb al)
    (fun (s : State Unit) x c r x' (h : Sim sb s x) hc => sim_call hcap h hc) (sim_of_booted h₀) harr
  obtain ⟨rfl, hcur, hsync⟩ := trace_arr harr
  refine ⟨s, hs, fun hop n hn hdirty => ?_⟩
  have hnd : n ∉ x.dirty := by
    rcases hdirty with hin | hd
    · simp [(hsync hin ⟨by simp [Arr.init], fun _ => rfl⟩).2 hop]
    · exact hd
  have hlog : n ∉ x.logged := by simp [Arr.logged, hop]
  rw [hsim.atHome n hn hnd hlog, hcur]
  rfl

def nextFit : Alloc where
  kalloc l := l.sum + 1
  fresh l hm := by
    have := List.le_sum_of_mem hm
    omega

/-- Two operations: the first one fills blocks `500` and `501`, the second one reads the first block and
changes the second one. -/
def sample : List Call :=
  [.beginOp, .acquire 500, .acquire 501, .modify 500 fun _ _ => 7, .modify 501 fun _ _ => 8, .sync 501,
    .sync 500, .release 500, .release 501, .endOp, .acquire 500, .beginOp, .acquire 501,
    .modify 501 fun d i => d i + 1, .sync 501, .release 501, .release 500, .endOp]

theorem cache_refines_array_sample : ∃ (x : Arr) (out : List (ℕ × BlockData)) (s : State Unit),
      opMaxNumBlocks < mkfsLayout.numLogBlocks ∧ Booted mkfsLayout (boot zeroDisk : State Unit) ∧
      (trace sample).run (arrCall mkfsLayout) (.init zeroDisk) = some (out, x) ∧
      (trace sample).run (cacheCall mkfsLayout nextFit) (boot zeroDisk) = some (reads zeroDisk sample, s) ∧
      s.disk 500 = contents zeroDisk sample 500 ∧ s.disk 501 = contents zeroDisk sample 501 := by
  have hex : ((trace sample).run (arrCall mkfsLayout) (.init zeroDisk)).any
      (fun y => y.2.op.isNone) = true := by decide +kernel
  obtain ⟨⟨out, x⟩, harr, hop⟩ := (any_eq_true _ _).mp hex
  have hcap : opMaxNumBlocks < mkfsLayout.numLogBlocks := by decide
  have hboot : Booted mkfsLayout (boot zeroDisk : State Unit) := booted_boot (LogHeader.numOf_zeroDisk _)
  obtain ⟨s, hs, hdisk⟩ := @cache_refines_array _ nextFit _ _ _ _ hcap hboot harr
  have hin : modifiesInside false sample = true := by decide
  have hop' : x.op = none := by simpa using hop
  exact ⟨x, out, s, hcap, hboot, harr, hs, hdisk hop' 500 (by decide) (Or.inl hin),
    hdisk hop' 501 (by decide) (Or.inl hin)⟩

end OsHonor.Fs.Cache.Refines
