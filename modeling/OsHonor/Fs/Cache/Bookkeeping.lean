import Mathlib.Algebra.BigOperators.Group.Finset.Basic
import OsHonor.Fs.Cache.Ownership

/-! # The bookkeeping of the log

`Book s G c` ties together the header, the pinned blocks, the list of cached blocks, the open operations
`G` and the thread `c` that commits. Outside a commit the pinned blocks are the cached blocks of the
logged numbers; while `write_log` runs they are those of the entries it has not written yet, and after
it there are none. The operations of the group pay for the entries of the header with their quotas.

`book_step`: every step keeps it, provided that no operation begins during a commit. -/

namespace OsHonor.Fs.Cache.Bookkeeping

open Option Finset Function Base.Keyed Base.Runs BlockDevice Lib.Semaphore
open Blocks Machine Steps
open Holders Ownership

variable {T : Type} {sb : SuperBlock} {s s' : State T}

/-! ### Where the commit stands -/

/-- How far a thread has come in committing a group. -/
inductive Stage where
  | outside
  | slot (i : ℕ)
  | header
  | ckpt (p : CkptPc)

/-- The stage of a thread: `slot i` while `write_log` works on entry `i`. -/
def stage : Pc → Stage
  | .logNext i | .acquire (.writeLog i) _ | .load (.writeLog i) _ | .loaded (.writeLog i) _
  | .wait (.writeLog i) _ | .woken (.writeLog i) _ | .logWrite i _ | .logRelease i _ => .slot i
  | .writeHeader => .header
  | .ckpt p => .ckpt p
  | .ready | .acquire .client _ | .load .client _ | .loaded .client _ | .wait .client _
  | .woken .client _ | .endWait | .endWoken => .outside

/-- The entries that `write_log` has yet to write. -/
def Stage.todo (l : List ℕ) : Stage → List ℕ
  | .outside => l
  | .slot i => l.drop i
  | .header | .ckpt _ => []

def stageOf (s : State T) : Option T → Stage
  | none => .outside
  | some t => stage (s.thread t).pc

/-- The thread has an operation that has not ended yet, if it has one at all. -/
def active : Pc → Bool
  | .endWait => false
  | pc => match stage pc with
    | .outside => true
    | _ => false

def used : Option ℕ → ℕ
  | none => 0
  | some rm => opMaxNumBlocks - rm

/-! ### The invariant -/

def core (b : Block T) : ℕ × ℕ × Bool := (b.addr, b.blockNo, b.pinned)

/-- The pinned blocks are the cached blocks of the numbers `l`, all of which are cached. -/
def Pinned (cs : List (ℕ × ℕ × Bool)) (l : List ℕ) : Prop :=
  (∀ x ∈ cs, x.2.2 = true ↔ x.2.1 ∈ l) ∧ ∀ n ∈ l, ∃ x ∈ cs, x.2.1 = n

/-- What the committer's program counter refers to. `write_log` finds all its blocks in the cache. -/
def LogAt (h : LogHeader) (cs : List (ℕ × ℕ × Bool)) : Pc → Prop
  | .acquire (.writeLog i) n => i < h.numBlocks ∧ n = h.blockNo i
  | .wait (.writeLog i) a | .woken (.writeLog i) a | .logWrite i a | .logRelease i a =>
    i < h.numBlocks ∧ ∃ x ∈ cs, x.1 = a ∧ x.2.1 = h.blockNo i
  | .load (.writeLog _) _ | .loaded (.writeLog _) _ => False
  | .ckpt .writeHeader | .ckpt .done => h.numBlocks = 0
  | _ => True

def Stage.hasGroup : Stage → Bool
  | .ckpt _ => false
  | _ => true

/-- **The bookkeeping invariant**: `G` are the threads with an operation, `c` is the committer. -/
structure Book (s : State T) (G : Finset T) (c : Option T) : Prop where
  mem : ∀ t, t ∈ G ↔ (s.thread t).ctx.isSome
  quota : ∀ t, ∀ rm ∈ (s.thread t).ctx, rm ≤ opMaxNumBlocks
  cnt : s.contributorsCnt = (G.filter fun t => active (s.thread t).pc = true).card
  committer : ∀ t, stage (s.thread t).pc ≠ .outside ↔ c = some t
  zero : c ≠ none → s.contributorsCnt = 0
  pinned : Pinned (s.blocks.map core) ((stageOf s c).todo s.header.logged)
  logAt : ∀ t, c = some t → LogAt s.header (s.blocks.map core) (s.thread t).pc
  nodup : (stageOf s c).hasGroup = true → s.header.logged.Nodup
  sum : (stageOf s c).hasGroup = true → s.header.numBlocks = ∑ t ∈ G, used (s.thread t).ctx

variable {G : Finset T} {c : Option T} {t : T} {pc : Pc} {a n : ℕ} {f : Block T → Block T}
  {l : Label T} {k : Cont} {b : Block T}

theorem Book.none_of_active (h : Book s G c)
    (ht : (s.thread t).ctx.isSome) (ha : active (s.thread t).pc = true) : c = none := by
  by_contra hc
  have hz := h.zero hc
  rw [h.cnt, card_eq_zero] at hz
  have : t ∈ G.filter fun t => active (s.thread t).pc = true :=
    mem_filter.mpr ⟨(h.mem t).mpr ht, ha⟩
  simp [hz] at this

theorem stage_of_active (h : active pc = true) : stage pc = .outside := by
  unfold active at h
  split at h
  · simp at h
  · split at h
    · assumption
    · simp at h

/-! ### Steps that change neither the header nor the operations -/

variable {cs cs' : List (ℕ × ℕ × Bool)} {hd : LogHeader} {x : ℕ × ℕ × Bool} {r : Bool × Sem T}

theorem pinned_congr {l : List ℕ} (h : Pinned cs l)
    (hcs : ∀ x, x ∈ cs' ↔ x ∈ cs) : Pinned cs' l := by
  simpa only [Pinned, hcs] using h

theorem logAt_mono (h : LogAt hd cs pc)
    (hcs : ∀ i x, stage pc = .slot i → i < hd.numBlocks → x ∈ cs → x.2.1 = hd.blockNo i → x ∈ cs') :
    LogAt hd cs' pc := by
  have hmem : ∀ i a, stage pc = .slot i →
      (i < hd.numBlocks ∧ ∃ x ∈ cs, x.1 = a ∧ x.2.1 = hd.blockNo i) →
      i < hd.numBlocks ∧ ∃ x ∈ cs', x.1 = a ∧ x.2.1 = hd.blockNo i := by
    rintro i a hi ⟨hlt, x, hx, hxa, hxn⟩
    exact ⟨hlt, x, hcs i x hi hlt hx hxn, hxa, hxn⟩
  cases pc with
  | wait k a | woken k a =>
    cases k with
    | client => trivial
    | writeLog i => exact hmem i a rfl h
  | logWrite i a | logRelease i a => exact hmem i a rfl h
  | acquire k n | load k n | loaded k n => cases k <;> exact h
  | ckpt p => cases p <;> exact h
  | ready | logNext i | writeHeader | endWait | endWoken => trivial

section

variable (h : Book s G c) (hhd : s'.header = s.header)
  (hcnt : s'.contributorsCnt = s.contributorsCnt)
  (hctx : ∀ u, (s'.thread u).ctx = (s.thread u).ctx)
  (hact : ∀ u, active (s'.thread u).pc = active (s.thread u).pc)
  (hcom : ∀ u, stage (s'.thread u).pc ≠ .outside ↔ stage (s.thread u).pc ≠ .outside)
  (hgroup : (stageOf s' c).hasGroup = true → (stageOf s c).hasGroup = true)
include h hhd hcnt hctx hact hcom hgroup

/-- A step that leaves the operations alone has to answer for the pinned blocks and the committer. -/
theorem book_keep (hpin : Pinned (s'.blocks.map core) ((stageOf s' c).todo s.header.logged))
    (hlog : ∀ u, c = some u → LogAt s.header (s'.blocks.map core) (s'.thread u).pc) :
    Book s' G c := by
  refine ⟨fun t => by rw [hctx]; exact h.mem t, fun t => by rw [hctx]; exact h.quota t, ?_,
    fun t => (hcom t).trans (h.committer t), fun hc => by rw [hcnt]; exact h.zero hc,
    by rw [hhd]; exact hpin, by rw [hhd]; exact hlog, fun hg => ?_, fun hg => ?_⟩
  · simp only [hcnt, hact]
    exact h.cnt
  · rw [hhd]
    exact h.nodup (hgroup hg)
  · rw [hhd, h.sum (hgroup hg)]
    simp only [hctx]

theorem book_congr (hcs : ∀ x, x ∈ s'.blocks.map core ↔ x ∈ s.blocks.map core)
    (htodo : (stageOf s' c).todo s.header.logged = (stageOf s c).todo s.header.logged)
    (hlog : ∀ u, c = some u → LogAt s.header (s.blocks.map core) (s'.thread u).pc) : Book s' G c := by
  refine book_keep h hhd hcnt hctx hact hcom hgroup ?_ fun t ht => ?_
  · rw [htodo]
    exact pinned_congr h.pinned hcs
  · exact logAt_mono (hlog t ht) fun _ x _ _ hx _ => (hcs x).mpr hx

end

theorem forall_thread {α : Type} {v : Thread → α} (ht : v (s'.thread t) = v (s.thread t))
    (hfr : ∀ u, u ≠ t → v (s'.thread u) = v (s.thread u)) (u : T) :
    v (s'.thread u) = v (s.thread u) := by
  by_cases hu : u = t
  · rw [hu, ht]
  · exact hfr u hu

theorem core_update (l : List (Block T)) (hf : ∀ b, core (f b) = core b) (x : ℕ × ℕ × Bool) :
    x ∈ (update a f l).map core ↔ x ∈ l.map core := by
  rw [map_update core fun b _ => hf b]

theorem core_boost (l : List (Block T)) (hf : ∀ b, core (f b) = core b) (x : ℕ × ℕ × Bool) :
    x ∈ (boostFrequency a (update a f l)).map core ↔ x ∈ l.map core :=
  ((rotateAfter_perm _ _).map core).mem_iff.trans (core_update l hf x)

variable [DecidableEq T]

theorem frame (hst : Step sb s l s') (hnd : (s.thread l.actor).pc ≠ .ckpt .done) {u : T}
    (hu : u ≠ l.actor) :
    (s'.thread u).ctx = (s.thread u).ctx ∧ stage (s'.thread u).pc = stage (s.thread u).pc ∧
    active (s'.thread u).pc = active (s.thread u).pc ∧
    ∀ hd cs, LogAt hd cs (s.thread u).pc → LogAt hd cs (s'.thread u).pc := by
  rcases step_frame hst hu with he | ⟨k, a, hpc, he⟩ | ⟨hp, -⟩
  · rw [he]; exact ⟨rfl, rfl, rfl, fun _ _ h => h⟩
  · rw [he, hpc]
    cases k <;> exact ⟨rfl, rfl, rfl, fun _ _ h => h⟩
  · exact absurd hp hnd

theorem book_move (h : Book s G c)
    (hst : Step sb s l s') (hnd : (s.thread l.actor).pc ≠ .ckpt .done) (hhd : s'.header = s.header)
    (hcnt : s'.contributorsCnt = s.contributorsCnt)
    (hcs : ∀ x, x ∈ s'.blocks.map core ↔ x ∈ s.blocks.map core)
    (hctx : (s'.thread l.actor).ctx = (s.thread l.actor).ctx)
    (hact : active (s'.thread l.actor).pc = active (s.thread l.actor).pc)
    (hstage : stage (s'.thread l.actor).pc = stage (s.thread l.actor).pc)
    (hlog : c = some l.actor → LogAt s.header (s.blocks.map core) (s.thread l.actor).pc →
      LogAt s.header (s.blocks.map core) (s'.thread l.actor).pc) : Book s' G c := by
  have hfr := fun u (hu : u ≠ l.actor) => frame hst hnd hu
  have hstages := forall_thread (v := fun x => stage x.pc) hstage fun u hu => (hfr u hu).2.1
  have hof : stageOf s' c = stageOf s c := by
    rcases c with _ | t
    · rfl
    · exact hstages t
  refine book_congr h hhd hcnt (forall_thread (v := Thread.ctx) hctx fun u hu => (hfr u hu).1)
    (forall_thread (v := fun x => active x.pc) hact fun u hu => (hfr u hu).2.2.1)
    (fun u => by rw [hstages]) (by rw [hof]; exact id) hcs (by rw [hof]) fun u hc => ?_
  by_cases hu : u = l.actor
  · subst hu; exact hlog hc (h.logAt _ hc)
  · exact (hfr u hu).2.2.2 _ _ (h.logAt u hc)

/-! ### A new block -/

section

omit [DecidableEq T]

theorem core_mem_evictFull {l : List (Block T)} (hl : (l.map Block.addr).Nodup)
    (hx : x ∈ l.map core) (hp : x.2.2 = true) : x ∈ (evictFull l).map core := by
  obtain ⟨b, hb, rfl⟩ := List.mem_map.mp hx
  rcases mem_evictFull_or hb with hm | ⟨-, v, hv, hbv⟩
  · exact List.mem_map_of_mem hm
  · obtain ⟨hvm, hvp, -⟩ := victim_some hv
    have hbe : b = v := List.inj_on_of_nodup_map hl hb hvm hbv
    subst hbe
    exact absurd hp (by simp [core, hvp])

theorem Book.todo_cached (h : Book s G c)
    (hn : ∀ b ∈ s.blocks, b.blockNo ≠ n) : n ∉ (stageOf s c).todo s.header.logged := by
  intro hm
  obtain ⟨x, hx, hxn⟩ := h.pinned.2 n hm
  obtain ⟨b, hb, rfl⟩ := List.mem_map.mp hx
  exact hn b hb hxn

theorem Book.client_of_miss (h : Book s G c)
    (hp : (s.thread t).pc = .acquire k n) (hn : ∀ b ∈ s.blocks, b.blockNo ≠ n) : k = .client := by
  rcases k with _ | i
  · rfl
  · exfalso
    obtain rfl : c = some t := (h.committer t).mp (by rw [hp]; simp [stage])
    obtain ⟨hi, rfl⟩ : i < s.header.numBlocks ∧ n = s.header.blockNo i := by
      simpa [hp, LogAt] using h.logAt t rfl
    refine h.todo_cached hn ?_
    simp [stageOf, hp, stage, Stage.todo, LogHeader.logged_drop hi]

end

theorem book_push (h : Book s G c) (hh : Held s) (hst : Step sb s (.run t a) (push s t k n a)) (hp : (s.thread t).pc = .acquire k n)
    (hn : ∀ b ∈ s.blocks, b.blockNo ≠ n) : Book (push s t k n a) G c := by
  have hnd : (s.thread t).pc ≠ .ckpt .done := by rw [hp]; simp
  have hk := h.client_of_miss hp hn
  subst hk
  have hth : (push s t .client n a).thread t =
      { s.thread t with held := a :: (s.thread t).held, pc := .load .client a } :=
    update_self ..
  have hfr := fun u (hu : u ≠ t) => frame hst hnd hu
  have hstages := forall_thread (v := fun x => stage x.pc) (by rw [hth, hp]; rfl)
    fun u hu => (hfr u hu).2.1
  have hof : stageOf (push s t .client n a) c = stageOf s c := by
    rcases c with _ | u
    · rfl
    · exact hstages u
  have hcs : ∀ x, x ∈ (push s t .client n a).blocks.map core ↔
      x ∈ (evictFull s.blocks).map core ∨ x = (a, n, false) := by
    intro x; simp [push, core, newBlock, eq_comm]
  have hsub : ∀ x, x ∈ (evictFull s.blocks).map core → x ∈ s.blocks.map core := fun x hx =>
    ((evictFull_sublist s.blocks).map core).subset hx
  refine book_keep h rfl rfl
    (forall_thread (v := Thread.ctx) (by rw [hth]) fun u hu => (hfr u hu).1)
    (forall_thread (v := fun x => active x.pc) (by rw [hth, hp]; rfl) fun u hu => (hfr u hu).2.2.1)
    (fun u => by rw [hstages]) (by rw [hof]; exact id) ⟨?_, ?_⟩ ?_
  · intro x hx
    rw [hof]
    rcases (hcs x).mp hx with hx | rfl
    · exact h.pinned.1 x (hsub x hx)
    · simp only [Bool.false_eq_true, false_iff]
      exact h.todo_cached hn
  · intro m hm
    rw [hof] at hm
    obtain ⟨x, hx, hxm⟩ := h.pinned.2 m hm
    exact ⟨x, (hcs x).mpr (Or.inl (core_mem_evictFull hh.addrs hx
      ((h.pinned.1 x hx).mpr (hxm ▸ hm)))), hxm⟩
  · intro u hc
    have hut : u ≠ t := by
      rintro rfl
      exact absurd ((h.committer u).mpr hc) (by rw [hp]; simp [stage])
    -- the block of the current entry is pinned, so it stays
    have hkeep : ∀ i x, stage (s.thread u).pc = .slot i → i < s.header.numBlocks →
        x ∈ s.blocks.map core → x.2.1 = s.header.blockNo i →
        x ∈ (push s t .client n a).blocks.map core := by
      intro i x hsi hi hx hxi
      refine (hcs x).mpr (Or.inl (core_mem_evictFull hh.addrs hx ((h.pinned.1 x hx).mpr ?_)))
      have hst : stageOf s c = .slot i := by rw [hc]; exact hsi
      rw [hst, hxi]
      simp [Stage.todo, LogHeader.logged_drop hi]
    have hpc : ((push s t .client n a).thread u).pc = (s.thread u).pc := by
      rw [show (push s t .client n a).thread u = s.thread u from update_of_ne hut ..]
    rw [hpc]
    exact logAt_mono (h.logAt u hc) hkeep

/-! ### Entries are opened and written -/

omit [DecidableEq T] in
theorem mem_core_update {l : List (Block T)} :
    x ∈ (update a f l).map core ↔ ∃ b ∈ l, x = core (if b.addr = a then f b else b) := by
  simp only [List.mem_map, mem_update]
  constructor
  · rintro ⟨_, ⟨b, hb, rfl⟩, rfl⟩
    exact ⟨b, hb, rfl⟩
  · rintro ⟨b, hb, rfl⟩
    exact ⟨_, ⟨b, hb, rfl⟩, rfl⟩

theorem book_openEntry (h : Book s G c) (hh : Held s) {rm : ℕ} (hp : (s.thread t).pc = .ready) (hctx : (s.thread t).ctx = some rm)
    (hb : b ∈ s.blocks) (hnot : b.blockNo ∉ s.header.logged) (hrm : 0 < rm) :
    Book (openEntry s t rm b) G c := by
  have hc : c = none := h.none_of_active (by rw [hctx]; rfl) (by rw [hp]; rfl)
  subst hc
  have hth : ∀ u, (openEntry s t rm b).thread u =
      if u = t then { s.thread t with ctx := some (rm - 1) } else s.thread u :=
    fun u => update_apply ..
  have hpc : ∀ u, ((openEntry s t rm b).thread u).pc = (s.thread u).pc := view_update Thread.pc rfl
  have hlogged : (openEntry s t rm b).header.logged = s.header.logged ++ [b.blockNo] :=
    LogHeader.logged_concat ..
  have hle : rm ≤ opMaxNumBlocks := h.quota t rm hctx
  have htG : t ∈ G := (h.mem t).mpr (by rw [hctx]; rfl)
  refine ⟨fun u => ?_, fun u r hr => ?_, ?_, fun u => by rw [hpc]; exact h.committer u,
    fun hc => absurd rfl hc, ⟨?_, ?_⟩, by simp, fun _ => ?_, fun _ => ?_⟩
  · rw [h.mem, hth]
    split_ifs with hu
    · rw [hu, hctx]; simp
    · rfl
  · rw [hth] at hr
    split_ifs at hr with hu
    · simp only [Option.mem_def, some.injEq] at hr
      omega
    · exact h.quota u r hr
  · simp only [hpc]
    exact h.cnt
  · intro x hx
    obtain ⟨y, hy, rfl⟩ := mem_core_update.mp hx
    show _ ↔ _ ∈ (openEntry s t rm b).header.logged
    rw [hlogged, List.mem_append, List.mem_singleton]
    have hyp : y.pinned = true ↔ y.blockNo ∈ s.header.logged :=
      h.pinned.1 _ (List.mem_map_of_mem hy)
    split_ifs with hya
    · rw [hh.eq_of_addr hb hy hya]
      simp [core]
    · have hne : y.blockNo ≠ b.blockNo := fun he => hya (by rw [hh.eq_of_blockNo hb hy he])
      simp only [core, hyp, hne, or_false]
  · show ∀ n ∈ (openEntry s t rm b).header.logged, _
    rw [hlogged]
    intro n hn
    obtain ⟨y, hy, hyn⟩ : ∃ y ∈ s.blocks, y.blockNo = n := by
      rcases List.mem_append.mp hn with hn | hn
      · obtain ⟨x, hx, hxn⟩ := h.pinned.2 n hn
        obtain ⟨y, hy, rfl⟩ := List.mem_map.mp hx
        exact ⟨y, hy, hxn⟩
      · exact ⟨b, hb, (List.mem_singleton.mp hn).symm⟩
    refine ⟨_, mem_core_update.mpr ⟨y, hy, rfl⟩, ?_⟩
    split_ifs <;> exact hyn
  · rw [hlogged, ← List.concat_eq_append]
    exact (h.nodup rfl).concat hnot
  · -- only the operation of `t` has used one block more
    have hsum := h.sum rfl
    rw [← add_sum_erase G _ htG] at hsum ⊢
    have hrest : ∑ u ∈ G.erase t, used ((openEntry s t rm b).thread u).ctx =
        ∑ u ∈ G.erase t, used (s.thread u).ctx := by
      refine sum_congr rfl fun u hu => ?_
      rw [hth, if_neg (ne_of_mem_erase hu)]
    rw [hrest, hth, if_pos rfl]
    rw [hctx] at hsum
    simp only [used] at hsum ⊢
    show s.header.numBlocks + 1 = _
    omega

theorem book_unpin (h : Book s G c) (hh : Held s) {i : ℕ} {w : Option T} {lk : Sem T} (hp : (s.thread t).pc = .logRelease i b.addr)
    (hst : Step sb s (.run t a) (wakeFirst (drop s t b.addr false (.logNext (i + 1)) lk) w))
    (hb : b ∈ s.blocks) : Book (wakeFirst (drop s t b.addr false (.logNext (i + 1)) lk) w) G c := by
  set s₁ := wakeFirst (drop s t b.addr false (.logNext (i + 1)) lk) w with hs₁
  have hnd : (s.thread t).pc ≠ .ckpt .done := by rw [hp]; simp
  have hc : c = some t := (h.committer t).mp (by rw [hp]; simp [stage])
  subst hc
  have hth : s₁.thread t =
      { s.thread t with held := (s.thread t).held.erase b.addr, pc := .logNext (i + 1) } :=
    release_self (l := .run t a) (.writeLog hp) lk w
  have hfr := fun u (hu : u ≠ t) => frame hst hnd hu
  have hhd : s₁.header = s.header := by simp [hs₁, drop]
  obtain ⟨hi, x, hx, hxa, hxn⟩ : i < s.header.numBlocks ∧ ∃ x ∈ s.blocks.map core,
      x.1 = b.addr ∧ x.2.1 = s.header.blockNo i := by
    have := h.logAt t rfl
    rw [hp] at this
    exact this
  have hbn : b.blockNo = s.header.blockNo i := by
    obtain ⟨y, hy, rfl⟩ := List.mem_map.mp hx
    rw [← hh.eq_of_addr hb hy hxa]
    exact hxn
  have hstg : stageOf s (some t) = .slot i := by simp [stageOf, hp, stage]
  have hstg' : stageOf s₁ (some t) = .slot (i + 1) := by simp [stageOf, hth, stage]
  have hpin := h.pinned
  have hnodup := h.nodup (by rw [hstg]; rfl)
  rw [hstg, Stage.todo, LogHeader.logged_drop hi] at hpin
  have hnotin : s.header.blockNo i ∉ s.header.logged.drop (i + 1) := by
    have := hnodup.sublist (List.drop_sublist i _)
    rw [LogHeader.logged_drop hi] at this
    exact (List.nodup_cons.mp this).1
  have hblocks : s₁.blocks = update b.addr (released false lk) s.blocks := by simp [hs₁, drop]
  refine book_keep h hhd (by simp [hs₁, drop])
    (forall_thread (v := Thread.ctx) (by rw [hth]) fun u hu => (hfr u hu).1)
    (forall_thread (v := fun x => active x.pc) (by rw [hth, hp]; rfl) fun u hu => (hfr u hu).2.2.1)
    (fun u => ?_) (fun _ => by rw [hstg]; rfl) ⟨?_, ?_⟩ ?_
  · by_cases hu : u = t
    · rw [hu, hth, hp]; simp [stage]
    · rw [(hfr u hu).2.1]
  · intro x hx
    rw [hblocks] at hx
    obtain ⟨y, hy, rfl⟩ := mem_core_update.mp hx
    rw [hstg', Stage.todo]
    have hyp : y.pinned = true ↔ y.blockNo = s.header.blockNo i ∨
        y.blockNo ∈ s.header.logged.drop (i + 1) := by
      simpa [core] using hpin.1 _ (List.mem_map_of_mem hy)
    split_ifs with hya
    · rw [hh.eq_of_addr hb hy hya]
      simp only [core, released, Bool.false_and, Bool.false_eq_true, false_iff, hbn]
      exact hnotin
    · have hne : y.blockNo ≠ s.header.blockNo i := fun he =>
        hya (by rw [hh.eq_of_blockNo hb hy (he.trans hbn.symm)])
      simp only [core, hyp, hne, false_or]
  · intro n hn
    rw [hstg', Stage.todo] at hn
    obtain ⟨x, hx, hxn⟩ := hpin.2 n (List.mem_cons_of_mem _ hn)
    obtain ⟨y, hy, rfl⟩ := List.mem_map.mp hx
    rw [hblocks]
    refine ⟨_, mem_core_update.mpr ⟨y, hy, rfl⟩, ?_⟩
    split_ifs <;> exact hxn
  · intro u hu
    obtain rfl : t = u := by simpa using hu
    rw [hth]
    trivial

/-! ### Operations begin and end -/

theorem book_beginOp (h : Book s G none) (hp : (s.thread t).pc = .ready)
    (hctx : (s.thread t).ctx = none) : Book (cacheBeginOp s t) (insert t G) none := by
  have hth : ∀ u, (cacheBeginOp s t).thread u =
      if u = t then { s.thread t with ctx := some opMaxNumBlocks } else s.thread u :=
    fun u => update_apply ..
  have hpc : ∀ u, ((cacheBeginOp s t).thread u).pc = (s.thread u).pc := view_update Thread.pc rfl
  have htG : t ∉ G := fun ht => by simpa [hctx] using (h.mem t).mp ht
  refine ⟨fun u => ?_, fun u r hr => ?_, ?_, fun u => by rw [hpc]; exact h.committer u,
    fun hc => absurd rfl hc, h.pinned, by simp, fun _ => h.nodup rfl, fun _ => ?_⟩
  · rw [mem_insert, h.mem, hth]
    split_ifs with hu
    · simp [hu]
    · simp [hu]
  · rw [hth] at hr
    split_ifs at hr with hu
    · simp only [Option.mem_def, some.injEq] at hr
      omega
    · exact h.quota u r hr
  · simp only [hpc]
    rw [filter_insert, if_pos (by rw [hp]; rfl), card_insert_of_notMem]
    · rw [← h.cnt]; rfl
    · exact fun hm => htG (mem_filter.mp hm).1
  · rw [sum_insert htG, hth, if_pos rfl]
    have hrest : ∑ u ∈ G, used ((cacheBeginOp s t).thread u).ctx = ∑ u ∈ G, used (s.thread u).ctx := by
      refine sum_congr rfl fun u hu => ?_
      rw [hth, if_neg (by rintro rfl; exact htG hu)]
    rw [hrest, ← h.sum rfl]
    simp [used, cacheBeginOp]

omit [DecidableEq T] in
theorem card_active {f g : T → Bool} (ht : t ∈ G) (hf : f t = true)
    (hg : g t = false) (hfg : ∀ u, u ≠ t → g u = f u) :
    (G.filter fun u => g u = true).card = (G.filter fun u => f u = true).card - 1 := by
  classical
  have : (G.filter fun u => g u = true) = (G.filter fun u => f u = true).erase t := by
    ext u
    by_cases hu : u = t
    · subst hu; simp [hg]
    · simp [hu, hfg u hu]
  rw [this, card_erase_of_mem (mem_filter.mpr ⟨ht, hf⟩)]

theorem cnt_goto (h : Book s G c)
    (hp : (s.thread t).pc = .ready) (hctx : (s.thread t).ctx.isSome) (hpc : active pc = false) :
    s.contributorsCnt - 1 = (G.filter fun u => active ((s.goto t pc).thread u).pc = true).card := by
  rw [card_active ((h.mem t).mpr hctx) (f := fun u => active (s.thread u).pc)
    (by simp only [hp]; rfl) (by simpa [State.goto] using hpc)
    fun u hu => by simp only [State.goto, update_of_ne hu]]
  rw [h.cnt]

omit [DecidableEq T] in
theorem stage_of_none (h : Book s G none) (u : T) : stage (s.thread u).pc = .outside := by
  by_contra hu
  simpa using (h.committer u).mp hu

theorem ctx_goto (t u : T) (pc : Pc) : ((s.goto t pc).thread u).ctx = (s.thread u).ctx := by
  by_cases hu : u = t
  · subst hu; simp [State.goto]
  · simp [State.goto, hu]

/-- The committer goes on to another place of the commit. -/
theorem commit_goto (hp : stage (s.thread t).pc ≠ .outside) (hpc : stage pc ≠ .outside) (u : T) :
    active ((s.goto t pc).thread u).pc = active (s.thread u).pc ∧
    (stage ((s.goto t pc).thread u).pc ≠ .outside ↔ stage (s.thread u).pc ≠ .outside) := by
  have hna : ∀ {p : Pc}, stage p ≠ .outside → active p = false := fun h =>
    Bool.eq_false_iff.mpr (mt stage_of_active h)
  by_cases hu : u = t
  · subst hu
    simp [State.goto, hna hp, hna hpc, hp, hpc]
  · simp [State.goto, hu]

theorem book_goto (h : Book s G c) {d : Disk} (hp : stage (s.thread t).pc ≠ .outside)
    (hpc : stage pc ≠ .outside)
    (htodo : (stage pc).todo s.header.logged = (stage (s.thread t).pc).todo s.header.logged)
    (hgroup : (stage (s.thread t).pc).hasGroup = true)
    (hlog : LogAt s.header (s.blocks.map core) pc) : Book { s.goto t pc with disk := d } G c := by
  obtain rfl : c = some t := (h.committer t).mp hp
  refine book_congr h rfl rfl (ctx_goto t · pc) (fun u => (commit_goto hp hpc u).1)
    (fun u => (commit_goto hp hpc u).2) (fun _ => hgroup) (fun _ => Iff.rfl) ?_ fun u hu => ?_
  · simpa [stageOf, State.goto] using htodo
  · obtain rfl : t = u := by simpa using hu
    simpa [State.goto] using hlog

theorem book_endWait (h : Book s G c) {w : Sem T}
    (hp : (s.thread t).pc = .ready) (hctx : (s.thread t).ctx.isSome) :
    Book { s.goto t .endWait with contributorsCnt := s.contributorsCnt - 1, workDone := w } G c := by
  obtain rfl : c = none := h.none_of_active hctx (by rw [hp]; rfl)
  refine ⟨fun u => by simp only [ctx_goto]; exact h.mem u,
    fun u => by simp only [ctx_goto]; exact h.quota u, cnt_goto h hp hctx rfl, fun u => ?_,
    fun hc => absurd rfl hc, h.pinned, by simp, fun _ => h.nodup rfl, fun _ => ?_⟩
  · by_cases hu : u = t
    · subst hu; simp [State.goto, stage]
    · simp [State.goto, hu, stage_of_none h u]
  · simp only [ctx_goto]
    exact h.sum rfl

theorem book_endCommit (h : Book s G c)
    (hp : (s.thread t).pc = .ready) (hctx : (s.thread t).ctx.isSome) (hle : s.contributorsCnt ≤ 1) :
    Book { s.goto t (.logNext 0) with contributorsCnt := s.contributorsCnt - 1 } G (some t) := by
  obtain rfl : c = none := h.none_of_active hctx (by rw [hp]; rfl)
  have hst : stageOf { s.goto t (.logNext 0) with contributorsCnt := s.contributorsCnt - 1 } (some t) =
      .slot 0 := by simp [stageOf, State.goto, stage]
  refine ⟨fun u => by simp only [ctx_goto]; exact h.mem u,
    fun u => by simp only [ctx_goto]; exact h.quota u, cnt_goto h hp hctx rfl, fun u => ?_,
    fun _ => ?_, ?_, ?_, fun _ => h.nodup rfl, fun _ => ?_⟩
  · by_cases hu : u = t
    · subst hu; simp [State.goto, stage]
    · simp [State.goto, hu, stage_of_none h u, Ne.symm hu]
  · show s.contributorsCnt - 1 = 0
    omega
  · rw [hst]
    exact h.pinned
  · intro u hu
    obtain rfl : t = u := by simpa using hu
    simp only [State.goto, update_self]
    trivial
  · simp only [ctx_goto]
    exact h.sum rfl

/-! ### The checkpoint -/

theorem book_ckpt (h : Book s G c) {p p' : CkptPc} {d : Disk} (hp : (s.thread t).pc = .ckpt p)
    (hc : spawnCkpt sb s.header s.disk p = (p', hd, d)) :
    Book { s.goto t (.ckpt p') with header := hd, disk := d } G c := by
  obtain rfl : c = some t := (h.committer t).mp (by rw [hp]; simp [stage])
  have hth : ∀ u, (s.goto t (.ckpt p')).thread u =
      if u = t then { s.thread t with pc := .ckpt p' } else s.thread u :=
    fun u => update_apply ..
  have hgo := commit_goto (s := s) (t := t) (by rw [hp]; simp [stage])
    (show stage (.ckpt p') ≠ .outside by simp [stage])
  have hst : stageOf { s.goto t (.ckpt p') with header := hd, disk := d } (some t) = .ckpt p' := by
    simp [stageOf, hth, stage]
  refine ⟨fun u => by simp only [ctx_goto]; exact h.mem u,
    fun u => by simp only [ctx_goto]; exact h.quota u,
    by simp only [hgo]; exact h.cnt, fun u => (hgo u).2.trans (h.committer u), h.zero, ?_, ?_,
    by rw [hst]; simp [Stage.hasGroup], by rw [hst]; simp [Stage.hasGroup]⟩
  · have := h.pinned
    rw [show stageOf s (some t) = .ckpt p by simp [stageOf, hp, stage]] at this
    rw [hst]
    exact this
  · intro u hu
    obtain rfl : t = u := by simpa using hu
    have hlog := h.logAt t rfl
    rw [hp] at hlog
    simp only [hth, if_true]
    cases p with
    | readHeader | write =>
      simp only [spawnCkpt, Prod.mk.injEq] at hc
      rw [← hc.1]
      trivial
    | read i =>
      simp only [spawnCkpt] at hc
      split_ifs at hc <;> simp only [Prod.mk.injEq] at hc <;> rw [← hc.1] <;> trivial
    | empty =>
      simp only [spawnCkpt, Prod.mk.injEq] at hc
      rw [← hc.1, ← hc.2.1]
      rfl
    | writeHeader | done =>
      simp only [spawnCkpt, Prod.mk.injEq] at hc
      rw [← hc.1, ← hc.2.1]
      exact hlog

theorem book_committed (h : Book s G c) (hh : Held s)
    (hp : (s.thread t).pc = .ckpt .done) : Book (committed s t) ∅ none := by
  obtain rfl : c = some t := (h.committer t).mp (by rw [hp]; simp [stage])
  have hth : ∀ u, (committed s t).thread u =
      if u = t then { s.thread u with ctx := none, pc := .ready }
      else if u ∈ s.workDone.sleeplist then { s.thread u with ctx := none, pc := .endWoken }
      else s.thread u := fun u => rfl
  have hnum : s.header.numBlocks = 0 := by
    have := h.logAt t rfl
    rw [hp] at this
    exact this
  have hlogged : s.header.logged = [] := by simp [LogHeader.logged, hnum]
  have hpin : Pinned (s.blocks.map core) [] := by
    have := h.pinned
    rw [show stageOf s (some t) = .ckpt .done by simp [stageOf, hp, stage]] at this
    exact this
  -- nobody is active, so every operation belongs to a sleeper or to the committer
  have hctx : ∀ u, ((committed s t).thread u).ctx = none := by
    intro u
    rw [hth]
    split_ifs with h1 h2
    · rfl
    · rfl
    · by_contra hne
      have hu : (s.thread u).ctx.isSome := isSome_iff_ne_none.mpr hne
      have hstage : stage (s.thread u).pc = .outside := by
        by_contra hs
        exact h1 (by simpa using ((h.committer u).mp hs).symm)
      have hact : active (s.thread u).pc = true := by
        unfold active
        split
        · next hpc => exact absurd ((hh.done u).mpr (by rw [hpc]; rfl)) h2
        · rw [hstage]
      simpa using h.none_of_active hu hact
  refine ⟨fun u => by simp [hctx u], fun u r hr => by simp [hctx u] at hr, ?_, fun u => ?_,
    fun hc => absurd rfl hc, ?_, by simp, fun _ => ?_, fun _ => ?_⟩
  · exact h.zero (by simp)
  · rw [hth]
    simp only [reduceCtorEq, iff_false, not_not]
    split_ifs with h1 h2
    · rfl
    · rfl
    · by_contra hs
      exact h1 (by simpa using ((h.committer u).mp hs).symm)
  · show Pinned (s.blocks.map core) s.header.logged
    rw [hlogged]
    exact hpin
  · show s.header.logged.Nodup
    rw [hlogged]
    exact List.nodup_nil
  · exact hnum

/-! ### Every step -/

/-- A commit is in progress: from the moment `contributors_cnt` reaches `0` until that `cache_end_op`
returns. -/
def InCommit (s : State T) : Prop := ∃ t, stage (s.thread t).pc ≠ .outside

section

omit [DecidableEq T]

theorem Book.none_of_not_inCommit (h : Book s G c) (hn : ¬ InCommit s) : c = none := by
  rcases c with _ | t
  · rfl
  · exact absurd ⟨t, (h.committer t).mpr rfl⟩ hn

end

def BeginsOutside (s : State T) : Label T → Prop
  | .beginOp _ => ¬ InCommit s
  | _ => True

omit [DecidableEq T] in
theorem looks_pc (hl : Looks s t b k r) :
    (s.thread t).pc = .acquire k b.blockNo ∨ (s.thread t).pc = .woken k b.addr := by
  rcases hl with hpc | ⟨hpc, -⟩ | ⟨hpc, -⟩
  · exact Or.inl hpc
  · exact Or.inr hpc
  · exact Or.inr hpc

omit [DecidableEq T] in
theorem looks_stage (hb : b ∈ s.blocks) (hl : Looks s t b k r) :
    (s.thread t).pc ≠ .ckpt .done ∧ active (k.ret b.addr) = active (s.thread t).pc ∧
    stage (k.ret b.addr) = stage (s.thread t).pc ∧ active (.wait k b.addr) = active (s.thread t).pc ∧
    stage (.wait k b.addr) = stage (s.thread t).pc ∧
    (LogAt s.header (s.blocks.map core) (s.thread t).pc →
      LogAt s.header (s.blocks.map core) (k.ret b.addr) ∧
      LogAt s.header (s.blocks.map core) (.wait k b.addr)) := by
  have hx : core b ∈ s.blocks.map core := List.mem_map_of_mem hb
  rcases looks_pc hl with hpc | hpc <;> rw [hpc] <;> cases k with
  | client => exact ⟨by simp, rfl, rfl, rfl, rfl, fun _ => ⟨trivial, trivial⟩⟩
  | writeLog i =>
    refine ⟨by simp, rfl, rfl, rfl, rfl, fun hlog => ?_⟩
    first
      | exact ⟨hlog, hlog⟩
      | exact ⟨⟨hlog.1, _, hx, rfl, hlog.2⟩, ⟨hlog.1, _, hx, rfl, hlog.2⟩⟩

/-- **Every step keeps the books**, if no operation begins during a commit. -/
theorem book_step (hh : Held s) (h : Book s G c)
    (hbo : BeginsOutside s l) (hs : step sb s l = some s') : ∃ G' c', Book s' G' c' := by
  have hst := step_cases hh hs
  cases id hst with
  | @beginOp t hp hctx =>
    obtain rfl := h.none_of_not_inCommit hbo
    exact ⟨_, _, book_beginOp h hp hctx⟩
  | acquire hp =>
    refine ⟨G, c, book_move h hst (by simp [Label.actor, hp]) rfl rfl (fun _ => Iff.rfl)
      (ctx_goto ..) ?_ ?_ ?_⟩ <;> simp [Label.actor, State.goto, hp, active, stage, LogAt]
  | modify hp =>
    exact ⟨G, c, book_congr h rfl rfl (fun _ => rfl) (fun _ => rfl) (fun _ => Iff.rfl) id
      (core_update _ fun _ => rfl) rfl h.logAt⟩
  | syncOld => exact ⟨G, c, h⟩
  | syncNew hp hctx hb ht hnot hrm => exact ⟨G, c, book_openEntry h hh hp hctx hb hnot hrm⟩
  | syncNull =>
    exact ⟨G, c, book_congr h rfl rfl (fun _ => rfl) (fun _ => rfl) (fun _ => Iff.rfl) id
      (fun _ => Iff.rfl) rfl h.logAt⟩
  | endWait hp hctx => exact ⟨G, c, book_endWait h hp hctx⟩
  | endCommit hp hctx hle => exact ⟨G, _, book_endCommit h hp hctx hle⟩
  | take hb hl =>
    obtain ⟨h1, h2, h3, -, -, h6⟩ := looks_stage hb hl
    refine ⟨G, c, book_move h hst h1 rfl rfl (core_boost _ fun _ => rfl) ?_ ?_ ?_ ?_⟩ <;>
      simp only [Label.actor, take, update_self]
    · exact h2
    · exact h3
    · exact fun _ hlog => (h6 hlog).1
  | sleep hb hl =>
    obtain ⟨h1, -, -, h4, h5, h6⟩ := looks_stage hb hl
    refine ⟨G, c, book_move h hst h1 rfl rfl (core_update _ fun _ => rfl) (ctx_goto ..) ?_ ?_ ?_⟩ <;>
      simp only [Label.actor, sleepOn, State.goto, update_self]
    · exact h4
    · exact h5
    · exact fun _ hlog => (h6 hlog).2
  | miss hp hn ha => exact ⟨G, c, book_push h hh hst hp hn⟩
  | @load t k a b hp hb =>
    refine ⟨G, c, book_move h hst (by simp [Label.actor, hp]) rfl rfl (core_update _ fun _ => rfl)
      (ctx_goto ..) ?_ ?_ ?_⟩ <;>
      simp only [Label.actor, State.goto, update_self, hp] <;> cases k <;>
      first | rfl | exact fun _ hlog => hlog
  | @loaded t k a b hp hb =>
    refine ⟨G, c, book_move h hst (by simp [Label.actor, hp]) rfl rfl (core_boost _ fun _ => rfl)
      (ctx_goto ..) ?_ ?_ ?_⟩ <;>
      simp only [Label.actor, State.goto, update_self, hp] <;> cases k <;>
      first | rfl | exact fun _ hlog => hlog | exact fun _ hlog => hlog.elim
  | logNext hp hi =>
    refine ⟨G, c, book_move h hst (by simp [Label.actor, hp]) rfl rfl (fun _ => Iff.rfl)
      (ctx_goto ..) ?_ ?_ ?_⟩ <;> simp only [Label.actor, State.goto, update_self, hp]
    · rfl
    · rfl
    · exact fun _ _ => ⟨hi, rfl⟩
  | logWrite hp hb =>
    refine ⟨G, c, book_move h hst (by simp [Label.actor, hp]) rfl rfl (fun _ => Iff.rfl)
      (ctx_goto ..) ?_ ?_ ?_⟩ <;> simp only [Label.actor, State.goto, update_self, hp]
    · rfl
    · rfl
    · exact fun _ hlog => hlog
  | @release t l b keep pc w lk hr hb ht hpost =>
    cases hr with
    | client hp =>
      have hself := release_self (l := .release t b.addr) (.client hp) lk w
      refine ⟨G, c, book_move h hst (by simp [Label.actor, hp]) (by simp [drop]) (by simp [drop])
        (fun x => ?_) (by rw [Label.actor, hself]) (by rw [Label.actor, hself, hp])
        (by rw [Label.actor, hself, hp]) (by rw [Label.actor, hself]; exact fun _ _ => trivial)⟩
      simp only [wakeFirst_blocks, drop]
      exact core_update _ (fun b => by simp [core, released]) x
    | writeLog hp => exact ⟨G, c, book_unpin h hh hp hst hb⟩
  | logDone hp hi =>
    refine ⟨G, c, book_goto h ?_ ?_ ?_ ?_ trivial⟩ <;>
      simp [hp, stage, Stage.todo, Stage.hasGroup, LogHeader.logged_drop_eq_nil hi]
  | writeHeader hp =>
    refine ⟨G, c, book_goto h ?_ ?_ ?_ ?_ trivial⟩ <;> simp [hp, stage, Stage.todo, Stage.hasGroup]
  | ckpt hp hne hc => exact ⟨G, c, book_ckpt h hp hc⟩
  | broadcast hp => exact ⟨_, _, book_committed h hh hp⟩
  | endWoken hp =>
    refine ⟨G, c, book_move h hst (by simp [Label.actor, hp]) rfl rfl (fun _ => Iff.rfl)
      (ctx_goto ..) ?_ ?_ ?_⟩ <;> simp [Label.actor, State.goto, hp, active, stage, LogAt]

omit [DecidableEq T] in
theorem book_of_booted (h : Booted sb s) : Book s ∅ none := by
  have hlogged : s.header.logged = [] := by simp [LogHeader.logged, h.header]
  refine ⟨fun t => by simp [h.thread t], fun t r hr => by simp [h.thread t] at hr,
    by simp [h.contributorsCnt], fun t => by simp [h.thread t, stage], fun hc => absurd rfl hc,
    ⟨by simp [h.blocks], by simp [stageOf, Stage.todo, hlogged]⟩, by simp, fun _ => ?_, fun _ => ?_⟩
  · rw [hlogged]; exact List.nodup_nil
  · simpa using h.header

/-! ### The bookkeeping of whole runs -/

end OsHonor.Fs.Cache.Bookkeeping
