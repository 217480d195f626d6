import OsHonor.Fs.Cache.Bookkeeping
import OsHonor.Fs.Cache.Recovery

/-! # What a commit does to the disk

A history `Hist` records what a run has committed: `base` is the contents of the disk with all groups
whose `cache_end_op` has returned, and `group` the contents of the blocks of the group that is being
committed, as the clients have left them.

`Journal` ties the disk to the history at every point of `cache_end_op`. Before `write_header` the
header on the disk is empty and the blocks at home are those of `base`; after it the disk is in the
hands of `spawn_ckpt`, and represents `base` with the group on top. `journal_step`: every step keeps it,
under the rules for clients in `Client`. -/

namespace OsHonor.Fs.Cache.Commit

open Function Base.Runs Base.RedoLog BlockDevice
open Blocks Machine Steps
open Holders Bookkeeping Recovery

variable {T : Type} {sb : SuperBlock} {s s' : State T}

/-! ### Histories -/

/-- What a run has committed, and the group that is being committed. -/
structure Hist where
  base : Disk
  group : Option (ℕ → Option BlockData)

def groupOf (s : State T) (n : ℕ) : Option BlockData :=
  if n ∈ s.header.logged then (fetchCached n s.blocks).map Block.data else none

/-- The history after a step: the group is fixed when its last `cache_end_op` is called and committed
when it returns. -/
def record (s : State T) (l : Label T) (g : Hist) : Hist :=
  match l with
  | .endOp _ => if 0 < s.contributorsCnt - 1 then g else { g with group := some (groupOf s) }
  | .run t _ =>
    match (s.thread t).pc with
    | .ckpt .done => ⟨overlay (g.group.getD fun _ => none) g.base, none⟩
    | _ => g
  | _ => g

/-- **The rules for clients**: no operation begins during a commit, blocks are modified inside an
operation or while there is no commit, and a group logs blocks outside the log area, as many as the log
has room for. -/
def Client (sb : SuperBlock) (s : State T) : Label T → Prop
  | .beginOp _ => ¬ InCommit s
  | .modify t _ _ => (s.thread t).ctx.isSome ∨ ¬ InCommit s
  | .sync _ a => ∀ b ∈ s.blocks, b.addr = a →
      b.blockNo ∈ home sb ∧ (b.blockNo ∉ s.header.logged → s.header.numBlocks < capacity sb)
  | .syncNull _ _ => False
  | _ => True

variable {l : Label T} {G : Finset T} {c : Option T} {t : T} {i : ℕ} {p : ℕ → Option BlockData}
  {f : Disk} {g : Hist}

theorem Client.beginsOutside (h : Client sb s l) : BeginsOutside s l := by
  cases l <;> first | exact h | trivial

/-! ### Blocks that are being loaded -/

/-- A block that is being loaded is not pinned, and block numbers are `usize`. -/
structure Sane (s : State T) : Prop where
  loading : ∀ t k, ∀ b ∈ s.blocks, (s.thread t).pc = .load k b.addr → b.pinned = false
  nums : ∀ b ∈ s.blocks, b.blockNo < 2 ^ 64
  asked : ∀ t n, (s.thread t).pc = .acquire .client n → n < 2 ^ 64

theorem sane_of_booted (h : Booted sb s) : Sane s :=
  ⟨by simp [h.blocks], by simp [h.blocks], fun t n hp => by simp [h.thread t] at hp⟩

variable [DecidableEq T]

/-- How a thread comes to load a block, and to ask for one. -/
theorem pc_step (hst : Step sb s l s') (u : T) :
    (∀ k a, (s'.thread u).pc = .load k a →
      (s.thread u).pc = .load k a ∨ ∃ n, (s.thread u).pc = .acquire k n ∧ s' = push s u k n a) ∧
    ∀ n, (s'.thread u).pc = .acquire .client n → (s.thread u).pc = .acquire .client n ∨ n < 2 ^ 64 := by
  by_cases hu : u = l.actor
  · subst hu
    cases hst with
    | modify | syncOld | syncNull => exact ⟨fun _ _ => Or.inl, fun _ => Or.inl⟩
    | beginOp | syncNew => simp +contextual [Label.actor, cacheBeginOp, openEntry]
    | acquire _ hn =>
      simp only [Label.actor, State.goto, update_self, Pc.acquire.injEq, true_and, reduceCtorEq]
      exact ⟨fun _ _ => False.elim, fun n he => Or.inr (he ▸ hn)⟩
    | endWait | endCommit | sleep | load | logNext | logDone | logWrite | writeHeader | ckpt | endWoken =>
      simp [Label.actor, sleepOn, State.goto]
    | @take t k' => cases k' <;> simp [Label.actor, take, Cont.ret]
    | @loaded t k' => cases k' <;> simp [Label.actor, State.goto, Cont.ret]
    | @miss t k' n a' hpc =>
      simp only [Label.actor, push, update_self, Pc.load.injEq, reduceCtorEq]
      refine ⟨?_, fun _ => False.elim⟩
      rintro k a ⟨rfl, rfl⟩
      exact Or.inr ⟨n, hpc, rfl⟩
    | @release t l b keep pc w lk hr =>
      have hact : l.actor = t := by rcases hr with _ | _ <;> rfl
      rw [hact, release_self hr]
      rcases hr with _ | _ <;> simp
    | broadcast => simp [Label.actor, committed]
  · rcases step_frame hst hu with he | ⟨k', a', -, he⟩ | ⟨-, -, he⟩
    · rw [he]
      exact ⟨fun _ _ => Or.inl, fun _ => Or.inl⟩
    · simp [he]
    · simp [he]

/-- What a step can do to a cached block: a client pins it by `cache_sync` or modifies it, or it is
loaded. -/
structure Became (s : State T) (l : Label T) (b b' : Block T) : Prop where
  addr : b'.addr = b.addr
  blockNo : b'.blockNo = b.blockNo
  pinned : b'.pinned = true → b.pinned = true ∨
    ∃ t, l = .sync t b.addr ∧ (s.thread t).pc = .ready ∧ b.addr ∈ (s.thread t).held
  data : b'.data = b.data ∨
    (∃ t f, l = .modify t b.addr f ∧ (s.thread t).pc = .ready ∧ b'.data = f b.data) ∨
    ∃ t k, (s.thread t).pc = .load k b.addr ∧ b'.data = s.disk b.blockNo

theorem block_step (hh : Held s) (hst : Step sb s l s') {b' : Block T} (hb' : b' ∈ s'.blocks) :
    (∃ b ∈ s.blocks, Became s l b b') ∨
    ∃ t k n a, (s.thread t).pc = .acquire k n ∧ b' = newBlock a n ∧ (∀ b ∈ s.blocks, b.blockNo ≠ n) ∧
      s' = push s t k n a := by
  have hupd : ∀ {a : ℕ} {f : Block T → Block T}, b' ∈ update a f s.blocks →
      (∀ x, (f x).addr = x.addr ∧ (f x).blockNo = x.blockNo ∧
        ((f x).pinned = true → x.pinned = true) ∧ (f x).data = x.data) →
      ∃ b ∈ s.blocks, Became s l b b' := by
    intro a f hm hf
    obtain ⟨b, hb, rfl⟩ := mem_update.mp hm
    refine ⟨b, hb, ?_⟩
    split_ifs
    · exact ⟨(hf b).1, (hf b).2.1, fun hp => Or.inl ((hf b).2.2.1 hp), Or.inl (hf b).2.2.2⟩
    · exact ⟨rfl, rfl, Or.inl, Or.inl rfl⟩
  cases hst with
  | beginOp | acquire | syncOld | syncNull | endWait | endCommit | logNext | logDone | logWrite
  | writeHeader | ckpt | broadcast | endWoken =>
    exact Or.inl ⟨b', hb', rfl, rfl, Or.inl, Or.inl rfl⟩
  | sleep => exact Or.inl (hupd hb' fun _ => ⟨rfl, rfl, id, rfl⟩)
  | take | loaded =>
    simp only [take, mem_boostFrequency] at hb'
    exact Or.inl (hupd hb' fun _ => ⟨rfl, rfl, id, rfl⟩)
  | release =>
    rw [wakeFirst_blocks] at hb'
    exact Or.inl (hupd hb' fun x => ⟨rfl, rfl, by simp [released], rfl⟩)
  | @modify t b₀ f hp hb₀ =>
    obtain ⟨b, hb, rfl⟩ := mem_update.mp hb'
    refine Or.inl ⟨b, hb, ?_⟩
    split_ifs with ha
    · exact ⟨rfl, rfl, Or.inl, Or.inr (Or.inl ⟨t, f, by rw [ha], hp, rfl⟩)⟩
    · exact ⟨rfl, rfl, Or.inl, Or.inl rfl⟩
  | @load t k a b₀ hp hb₀ =>
    obtain ⟨b, hb, rfl⟩ := mem_update.mp hb'
    refine Or.inl ⟨b, hb, ?_⟩
    split_ifs with ha
    · have hbe := hh.eq_of_addr hb₀ hb ha
      subst hbe
      exact ⟨rfl, rfl, Or.inl, Or.inr (Or.inr ⟨t, k, hp, rfl⟩)⟩
    · exact ⟨rfl, rfl, Or.inl, Or.inl rfl⟩
  | @syncNew t b₀ rm hp hc hb₀ ht =>
    obtain ⟨b, hb, rfl⟩ := mem_update.mp hb'
    refine Or.inl ⟨b, hb, ?_⟩
    split_ifs with ha
    · exact ⟨rfl, rfl, fun _ => Or.inr ⟨t, by rw [ha], hp, ha ▸ ht⟩, Or.inl rfl⟩
    · exact ⟨rfl, rfl, Or.inl, Or.inl rfl⟩
  | @miss t k n a hp hn ha =>
    rcases List.mem_append.mp hb' with hb' | hb'
    · exact Or.inl ⟨b', (evictFull_sublist _).subset hb', rfl, rfl, Or.inl, Or.inl rfl⟩
    · exact Or.inr ⟨t, k, n, a, hp, List.mem_singleton.mp hb', hn, rfl⟩

theorem sane_step (hh : Held s) (hh' : Held s') (hbook : Book s G c)
    (h : Sane s) (hst : Step sb s l s') : Sane s' := by
  refine ⟨fun u k b' hb' hp => ?_, fun b' hb' => ?_, fun u n hp => ?_⟩
  · rcases (pc_step hst u).1 k _ hp with hpc | ⟨n, -, he⟩
    · rcases block_step hh hst hb' with ⟨b, hb, hbb⟩ | ⟨-, -, n, a, -, rfl, -, -⟩
      · by_contra hne
        rw [hbb.addr] at hpc
        rcases hbb.pinned (by simpa using hne) with hbp | ⟨t, -, hready, ht⟩
        · simp [h.loading u k b hb hpc] at hbp
        · -- only the loading thread holds the block, and it is inside a call
          have hu := hh.working u b.addr (by rw [hpc]; rfl)
          rw [hh.excl u t _ hu ht, hready] at hpc
          simp at hpc
      · rfl
    · have hnew : newBlock b'.addr n ∈ s'.blocks := by
        rw [he]
        exact List.mem_append_right _ (List.mem_singleton.mpr rfl)
      rw [hh'.eq_of_addr hnew hb' rfl]
      rfl
  · rcases block_step hh hst hb' with ⟨b, hb, hbb⟩ | ⟨t, k, n, a, hp, rfl, hn, -⟩
    · rw [hbb.blockNo]; exact h.nums b hb
    · obtain rfl := hbook.client_of_miss hp hn
      exact h.asked t n hp
  · rcases (pc_step hst u).2 n hp with hpc | hn
    · exact h.asked u n hpc
    · exact hn

/-! ### The disk during a commit -/

/-- The log slots that have been written when a thread works on entry `i`. -/
def written : Pc → ℕ
  | .logRelease i _ => i + 1
  | pc => match stage pc with
    | .slot i => i
    | _ => 0

/-- While `write_log` works on entry `i`: the header on the disk is empty, `f` is at home, the blocks of
the entries from `i` on have the contents `p` in the cache, and the first `w` of them are in the log. -/
structure WriteLog (sb : SuperBlock) (p : ℕ → Option BlockData) (f : Disk) (s : State T) (i w : ℕ) :
    Prop where
  clean : Redo sb s.disk (fun _ => none) f
  dom : ∀ n, (p n).isSome ↔ n ∈ s.header.logged
  cached : ∀ b ∈ s.blocks, b.blockNo ∈ s.header.logged.drop i → p b.blockNo = some b.data
  slots : ∀ j < w, j < s.header.numBlocks → p (s.header.blockNo j) = some (s.disk (sb.logStart + 1 + j))

/-- What holds at each stage of a commit of the group `p` on top of `f`. -/
def CommitInv (sb : SuperBlock) (p : ℕ → Option BlockData) (f : Disk) (s : State T) (w : ℕ) :
    Stage → Prop
  | .outside => True
  | .slot i => WriteLog sb p f s i w
  | .header => WriteLog sb p f s s.header.numBlocks s.header.numBlocks
  | .ckpt q => CkptInv sb p f s.header s.disk q

/-- **The journal invariant.** -/
structure Journal (sb : SuperBlock) (s : State T) (g : Hist) : Prop where
  idle : (∀ t, stage (s.thread t).pc = .outside) →
    g.group = none ∧ Redo sb s.disk (fun _ => none) g.base
  commit : ∀ t, stage (s.thread t).pc ≠ .outside →
    ∃ p, g.group = some p ∧ CommitInv sb p g.base s (written (s.thread t).pc) (stage (s.thread t).pc)
  entries : (∀ t q, stage (s.thread t).pc ≠ .ckpt q) →
    s.header.numBlocks ≤ capacity sb ∧ ∀ n ∈ s.header.logged, n ∈ home sb ∧ n < 2 ^ 64

omit [DecidableEq T] in
theorem journal_of_booted (h : Booted sb s) : Journal sb s ⟨s.disk, none⟩ := by
  refine ⟨fun _ => ⟨rfl, redo_empty h.disk fun _ _ => rfl⟩, fun t ht => ?_, fun _ => ⟨?_, ?_⟩⟩
  · simp [h.thread t, stage] at ht
  · rw [h.header]; exact Nat.zero_le _
  · simp [LogHeader.logged, h.header]

/-! ### Steps that leave the disk and the header alone -/

theorem data_kept (hh : Held s) (hbook : Book s G c) (hsane : Sane s) (hcl : Client sb s l) (hst : Step sb s l s')
    (ht : stage (s.thread t).pc = .slot i) {b' : Block T} (hb' : b' ∈ s'.blocks)
    (hm : b'.blockNo ∈ s.header.logged.drop i) :
    ∃ b ∈ s.blocks, b.blockNo = b'.blockNo ∧ b.data = b'.data := by
  obtain rfl : c = some t := (hbook.committer t).mp (by rw [ht]; simp)
  have hof : stageOf s (some t) = .slot i := ht
  have hpin := hbook.pinned
  rw [hof] at hpin
  rcases block_step hh hst hb' with ⟨b, hb, hbb⟩ | ⟨u, k, n, a, -, rfl, hn, -⟩
  · rcases hbb.data with hd | ⟨u, f, rfl, hp, -⟩ | ⟨u, k, hp, -⟩
    · exact ⟨b, hb, hbb.blockNo.symm, hd.symm⟩
    · rcases hcl with hctx | hno
      · simpa using hbook.none_of_active hctx (by rw [hp]; rfl)
      · exact absurd ⟨t, by rw [ht]; simp⟩ hno
    · have hbp : b.pinned = true :=
        (hpin.1 _ (List.mem_map_of_mem hb)).mpr (by rw [hbb.blockNo] at hm; exact hm)
      simp [hsane.loading u k b hb hp] at hbp
  · refine absurd ?_ (hbook.todo_cached hn)
    rw [hof]
    exact hm

omit [DecidableEq T] in
theorem commitInv_congr {w : ℕ} {st : Stage}
    (h : CommitInv sb p f s w st) (hd : s'.disk = s.disk) (hhd : s'.header = s.header)
    (hdata : ∀ i, st = .slot i → ∀ b' ∈ s'.blocks, b'.blockNo ∈ s.header.logged.drop i →
      ∃ b ∈ s.blocks, b.blockNo = b'.blockNo ∧ b.data = b'.data) : CommitInv sb p f s' w st := by
  cases st with
  | outside => trivial
  | slot i =>
    refine ⟨by rw [hd]; exact h.clean, by rw [hhd]; exact h.dom, fun b' hb' hm => ?_, ?_⟩
    · rw [hhd] at hm
      obtain ⟨b, hb, hbn, hbd⟩ := hdata i rfl b' hb' hm
      rw [← hbn, ← hbd]
      exact h.cached b hb (by rw [hbn]; exact hm)
    · rw [hhd, hd]; exact h.slots
  | header =>
    refine ⟨by rw [hd]; exact h.clean, by rw [hhd]; exact h.dom, fun b' hb' hm => ?_, ?_⟩
    · rw [LogHeader.logged_drop_eq_nil le_rfl] at hm
      simp at hm
    · rw [hhd, hd]; exact h.slots
  | ckpt q =>
    show CkptInv sb p f s'.header s'.disk q
    rw [hhd, hd]
    exact h

theorem journal_move (hh : Held s) (hbook : Book s G c) (hsane : Sane s) (h : Journal sb s g) (hcl : Client sb s l) (hst : Step sb s l s')
    (hnd : (s.thread l.actor).pc ≠ .ckpt .done) (hd : s'.disk = s.disk) (hhd : s'.header = s.header)
    (hstage : stage (s'.thread l.actor).pc = stage (s.thread l.actor).pc)
    (hwr : written (s'.thread l.actor).pc = written (s.thread l.actor).pc) : Journal sb s' g := by
  have hall : ∀ u, stage (s'.thread u).pc = stage (s.thread u).pc ∧
      written (s'.thread u).pc = written (s.thread u).pc := by
    intro u
    by_cases hu : u = l.actor
    · rw [hu]; exact ⟨hstage, hwr⟩
    · rcases step_frame hst hu with he | ⟨k, a, hpc, he⟩ | ⟨hp, -⟩
      · rw [he]; exact ⟨rfl, rfl⟩
      · rw [he, hpc]
        cases k <;> exact ⟨rfl, rfl⟩
      · exact absurd hp hnd
  refine ⟨fun hs => ?_, fun u hu => ?_, fun hs => ?_⟩
  · rw [hd]
    exact h.idle fun t => by rw [← (hall t).1]; exact hs t
  · rw [(hall u).1] at hu
    obtain ⟨p, hp, hinv⟩ := h.commit u hu
    refine ⟨p, hp, ?_⟩
    rw [(hall u).1, (hall u).2]
    exact commitInv_congr hinv hd hhd fun i hi b' hb' hm =>
      data_kept hh hbook hsane hcl hst hi hb' hm
  · rw [hhd]
    exact h.entries fun t q => by rw [← (hall t).1]; exact hs t q

/-! ### The committer's steps -/

section

omit [DecidableEq T]

theorem journal_of_committer (hbook : Book s G (some t)) (hg : g.group = some p)
    (hinv : CommitInv sb p g.base s (written (s.thread t).pc) (stage (s.thread t).pc))
    (hent : (stage (s.thread t).pc).hasGroup = true →
      s.header.numBlocks ≤ capacity sb ∧ ∀ n ∈ s.header.logged, n ∈ home sb ∧ n < 2 ^ 64) :
    Journal sb s g := by
  have hne : stage (s.thread t).pc ≠ .outside := (hbook.committer t).mpr rfl
  refine ⟨fun hs => absurd (hs t) hne, fun u hu => ?_, fun hs => hent ?_⟩
  · obtain rfl : t = u := by simpa using (hbook.committer u).mp hu
    exact ⟨p, hg, hinv⟩
  · have := hs t
    cases hst : stage (s.thread t).pc <;> simp_all [Stage.hasGroup]

theorem Journal.committing {G' : Finset T} {c' : Option T} (h : Journal sb s g) (hbook : Book s G c)
    (hbook' : Book s' G' c') (hp : stage (s.thread t).pc ≠ .outside) (hp' : stage (s'.thread t).pc ≠ .outside) :
    c = some t ∧ c' = some t ∧ ∃ p, g.group = some p ∧
      CommitInv sb p g.base s (written (s.thread t).pc) (stage (s.thread t).pc) :=
  ⟨(hbook.committer t).mp hp, (hbook'.committer t).mp hp', h.commit t hp⟩

theorem Journal.entries_of_committer (hbook : Book s G (some t))
    (h : Journal sb s g) (hg : (stage (s.thread t).pc).hasGroup = true) :
    s.header.numBlocks ≤ capacity sb ∧ ∀ n ∈ s.header.logged, n ∈ home sb ∧ n < 2 ^ 64 := by
  refine h.entries fun u q hu => ?_
  obtain rfl : t = u := by simpa using (hbook.committer u).mp (by rw [hu]; simp)
  rw [hu] at hg
  simp [Stage.hasGroup] at hg

end

theorem redo_writeSlot {d : Disk} (h : Redo sb d (fun _ => none) f) {v : BlockData}
    (hi : i + 1 < sb.numLogBlocks) :
    Redo sb (Function.update d (sb.logStart + i + 1) v) (fun _ => none) f := by
  refine redo_empty ?_ fun n hn => ?_
  · rw [update_of_ne (by omega)]
    exact h.numOf_eq_zero
  · have hne : n ≠ sb.logStart + i + 1 := (ne_of_home hn hi).symm
    rw [update_of_ne hne]
    exact h.mixed.eq_of_none n hn

theorem writeLog_write {b : Block T}
    (h : WriteLog sb p f s i i) (hb : b ∈ s.blocks) (hi : i < s.header.numBlocks)
    (hbn : b.blockNo = s.header.blockNo i) (hcap : s.header.numBlocks ≤ capacity sb) :
    WriteLog sb p f { s.goto t (.logRelease i b.addr) with
      disk := Function.update s.disk (sb.logStart + i + 1) b.data } i (i + 1) := by
  unfold capacity at hcap
  refine ⟨redo_writeSlot h.clean (by omega), h.dom, h.cached, fun j hj hjn => ?_⟩
  have hbc : p (s.header.blockNo i) = some b.data := by
    rw [← hbn]
    refine h.cached b hb ?_
    rw [hbn, LogHeader.logged_drop hi]
    exact List.mem_cons_self ..
  by_cases hji : j = i
  · subst hji
    show _ = some (Function.update s.disk _ _ _)
    rw [show sb.logStart + 1 + j = sb.logStart + j + 1 by omega, update_self]
    exact hbc
  · show _ = some (Function.update s.disk _ _ _)
    rw [update_of_ne (by omega)]
    exact h.slots j (by omega) hjn

omit [DecidableEq T] in
/-- **`write_header` commits the group**: from here on the disk represents it. -/
theorem redo_writeHeader (h : WriteLog sb p f s s.header.numBlocks s.header.numBlocks)
    (hcap : s.header.numBlocks ≤ capacity sb)
    (hent : ∀ n ∈ s.header.logged, n ∈ home sb ∧ n < 2 ^ 64) :
    Redo sb (Function.update s.disk sb.logStart s.header.encode) p f := by
  have hmax : s.header.numBlocks ≤ logMaxSize := le_trans hcap (Nat.min_le_left _ _)
  have hnum : LogHeader.numOf s.header.encode = s.header.numBlocks := by
    refine LogHeader.numOf_encode ?_
    unfold logMaxSize blockSize at hmax
    omega
  have hmem : ∀ i < s.header.numBlocks, s.header.blockNo i ∈ s.header.logged := fun i hi =>
    LogHeader.mem_logged.mpr ⟨i, hi, rfl⟩
  have hentry : ∀ i < s.header.numBlocks, LogHeader.entryOf s.header.encode i = s.header.blockNo i :=
    fun i hi => LogHeader.entryOf_encode (by omega) (hent _ (hmem i hi)).2
  refine ⟨?_, fun n => ?_, ?_, ?_, mixed_of_eq fun n hn => ?_⟩
  · rw [update_self, hnum]
    exact hcap
  · rw [update_self, hnum, h.dom, LogHeader.mem_logged]
    constructor
    · rintro ⟨i, hi, he⟩
      exact ⟨i, hi, by rw [hentry i hi, he]⟩
    · rintro ⟨i, hi, he⟩
      exact ⟨i, hi, by rw [← hentry i hi, he]⟩
  · rw [update_self, hnum]
    intro i hi
    rw [hentry i hi]
    exact (hent _ (hmem i hi)).1
  · rw [update_self, hnum]
    intro i hi
    rw [hentry i hi, update_of_ne (by omega)]
    exact h.slots i hi hi
  · have hne : n ≠ sb.logStart := (ne_of_home (i := 0) hn sb.numLogBlocks_pos).symm
    rw [update_of_ne hne]
    exact h.clean.mixed.eq_of_none n hn

omit [DecidableEq T] in
theorem groupOf_of_mem (hh : Held s) (hbook : Book s G none) :
    (∀ n, (groupOf s n).isSome ↔ n ∈ s.header.logged) ∧
    ∀ b ∈ s.blocks, b.blockNo ∈ s.header.logged → groupOf s b.blockNo = some b.data := by
  have hget : ∀ b ∈ s.blocks, fetchCached b.blockNo s.blocks = some b := by
    intro b hb
    rcases hf : fetchCached b.blockNo s.blocks with _ | b'
    · exact absurd rfl (fetchCached_none.mp hf b hb)
    · obtain ⟨hb', hn⟩ := fetchCached_some hf
      rw [hh.eq_of_blockNo hb hb' hn]
  refine ⟨fun n => ?_, fun b hb hm => by simp [groupOf, hm, hget b hb]⟩
  unfold groupOf
  split_ifs with hn
  · obtain ⟨x, hx, rfl⟩ := hbook.pinned.2 n hn
    obtain ⟨b, hb, rfl⟩ := List.mem_map.mp hx
    have hbn : b.blockNo ∈ s.header.logged := hn
    simp [core, hget b hb, hbn]
  · simp [hn]

/-! ### Every step -/

omit [DecidableEq T] in
theorem record_of_ne (he : ∀ t, l ≠ .endOp t)
    (hp : (s.thread l.actor).pc ≠ .ckpt .done) : record s l g = g := by
  unfold record
  split
  · next t => exact absurd rfl (he t)
  · next t a =>
    split
    · next hpc => exact absurd hpc hp
    · rfl
  · rfl

theorem journal_kept (hh : Held s) (hbook : Book s G c) (hsane : Sane s) (h : Journal sb s g)
    (hcl : Client sb s l) (hst : Step sb s l s') (he : ∀ t, l ≠ .endOp t)
    (hnd : (s.thread l.actor).pc ≠ .ckpt .done) (hd : s'.disk = s.disk) (hhd : s'.header = s.header)
    (hstage : stage (s'.thread l.actor).pc = stage (s.thread l.actor).pc)
    (hwr : written (s'.thread l.actor).pc = written (s.thread l.actor).pc) :
    Journal sb s' (record s l g) := by
  rw [record_of_ne he hnd]
  exact journal_move hh hbook hsane h hcl hst hnd hd hhd hstage hwr

/-- **Every step of a run by the rules keeps the journal.** -/
theorem journal_step (hh : Held s) (hbook : Book s G c) (hsane : Sane s) (h : Journal sb s g) (hcl : Client sb s l)
    (hs : step sb s l = some s') : Journal sb s' (record s l g) := by
  have hst := step_cases hh hs
  obtain ⟨G', c', hbook'⟩ := book_step hh hbook hcl.beginsOutside hs
  have kept := journal_kept hh hbook hsane h hcl hst
  cases id hst with
  | beginOp hp =>
    refine kept (by simp) (by simp [Label.actor, hp]) rfl rfl ?_ ?_ <;>
      simp [Label.actor, cacheBeginOp]
  | acquire hp =>
    refine kept (by simp) (by simp [Label.actor, hp]) rfl rfl ?_ ?_ <;>
      simp [Label.actor, State.goto, hp, stage, written]
  | modify hp =>
    exact kept (by simp) (by simp [Label.actor, hp]) rfl rfl rfl rfl
  | syncOld hp =>
    rw [record_of_ne (by simp) (by simp [Label.actor, hp])]
    exact h
  | @syncNew t b rm hp hctx hb ht hnot hrm =>
    rw [record_of_ne (by simp) (by simp [Label.actor, hp])]
    obtain rfl : c = none := hbook.none_of_active (by rw [hctx]; rfl) (by rw [hp]; rfl)
    have hout : ∀ u, stage (s.thread u).pc = .outside := stage_of_none hbook
    have hout' : ∀ u, stage ((openEntry s t rm b).thread u).pc = .outside := by
      intro u
      by_cases hu : u = t
      · subst hu; simp [openEntry, hout u]
      · simp [openEntry, hu, hout u]
    obtain ⟨hhome, hroom⟩ := hcl b hb rfl
    obtain ⟨hcap, hent⟩ := h.entries fun u q => by rw [hout u]; simp
    have hlogged : (openEntry s t rm b).header.logged = s.header.logged ++ [b.blockNo] :=
      LogHeader.logged_concat ..
    refine ⟨fun _ => h.idle hout, fun u hu => absurd (hout' u) hu, fun _ => ⟨hroom hnot, ?_⟩⟩
    rw [hlogged]
    intro n hn
    rcases List.mem_append.mp hn with hn | hn
    · exact hent n hn
    · rw [List.mem_singleton.mp hn]
      exact ⟨hhome, hsane.nums b hb⟩
  | syncNull => exact hcl.elim
  | @endWait t hp hctx hcnt =>
    have hrec : record s (.endOp t) g = g := by
      simp only [record]
      rw [if_pos (by omega)]
    rw [hrec]
    refine journal_move hh hbook hsane h hcl hst (by simp [Label.actor, hp]) rfl rfl ?_ ?_ <;>
      simp [Label.actor, State.goto, hp, stage, written]
  | @endCommit t hp hctx hle =>
    obtain rfl : c = none := hbook.none_of_active hctx (by rw [hp]; rfl)
    have hout : ∀ u, stage (s.thread u).pc = .outside := stage_of_none hbook
    have hrec : record s (.endOp t) g = { g with group := some (groupOf s) } := by
      simp only [record]
      rw [if_neg (by omega)]
    rw [hrec]
    obtain ⟨hdom, hdata⟩ := groupOf_of_mem hh hbook
    refine journal_of_committer (book_endCommit hbook hp hctx hle) rfl ?_ fun _ =>
      h.entries fun u q => by rw [hout u]; simp
    simp only [State.goto, update_self, written, stage]
    refine ⟨(h.idle hout).2, hdom, fun b hb hm => hdata b hb ?_, by simp⟩
    simpa using hm
  | @take t k a b l hb hl =>
    obtain ⟨h1, -, h3, -⟩ := looks_stage hb hl
    refine kept (by simp) h1 rfl rfl ?_ ?_ <;>
      simp only [Label.actor, take, update_self]
    · exact h3
    · rcases looks_pc hl with hpc | hpc <;> rw [hpc] <;> cases k <;> rfl
  | @sleep t k a b l hb hl =>
    obtain ⟨h1, -, -, -, h5, -⟩ := looks_stage hb hl
    refine kept (by simp) h1 rfl rfl ?_ ?_ <;>
      simp only [Label.actor, sleepOn, State.goto, update_self]
    · exact h5
    · rcases looks_pc hl with hpc | hpc <;> rw [hpc] <;> cases k <;> rfl
  | @miss t k n a hp hn ha =>
    refine kept (by simp) (by simp [Label.actor, hp]) rfl rfl ?_ ?_ <;>
      simp only [Label.actor, push, update_self, hp] <;> cases k <;> rfl
  | @load t k a b hp hb =>
    refine kept (by simp) (by simp [Label.actor, hp]) rfl rfl ?_ ?_ <;>
      simp only [Label.actor, State.goto, update_self, hp] <;> cases k <;> rfl
  | @loaded t k a b hp hb =>
    refine kept (by simp) (by simp [Label.actor, hp]) rfl rfl ?_ ?_ <;>
      simp only [Label.actor, State.goto, update_self, hp] <;> cases k <;> rfl
  | logNext hp hi =>
    refine kept (by simp) (by simp [Label.actor, hp]) rfl rfl ?_ ?_ <;>
      simp only [Label.actor, State.goto, update_self, hp] <;> rfl
  | @logDone t i a hp hi =>
    rw [record_of_ne (by simp) (by simp [Label.actor, hp])]
    obtain ⟨rfl, rfl, p, hg, hinv⟩ := h.committing hbook hbook' (t := t) (by rw [hp]; simp [stage])
      (by simp [State.goto, stage])
    rw [hp] at hinv
    have hent := h.entries_of_committer hbook (by rw [hp]; rfl)
    refine journal_of_committer hbook' hg ?_ fun _ => hent
    simp only [State.goto, update_self, stage]
    refine ⟨hinv.clean, hinv.dom, fun b hb hm => ?_, fun j _ hj => hinv.slots j (by
      simp only [written, stage]; exact lt_of_lt_of_le hj hi) hj⟩
    rw [LogHeader.logged_drop_eq_nil le_rfl] at hm
    simp at hm
  | @logWrite t i a b hp hb =>
    rw [record_of_ne (by simp) (by simp [Label.actor, hp])]
    obtain ⟨rfl, rfl, p, hg, hinv⟩ := h.committing hbook hbook' (t := t) (by rw [hp]; simp [stage])
      (by simp [State.goto, stage])
    rw [hp] at hinv
    have hent := h.entries_of_committer hbook (by rw [hp]; rfl)
    obtain ⟨hi, x, hx, hxa, hxn⟩ : i < s.header.numBlocks ∧ ∃ x ∈ s.blocks.map core,
        x.1 = b.addr ∧ x.2.1 = s.header.blockNo i := by
      have := hbook.logAt t rfl
      rw [hp] at this
      exact this
    have hbn : b.blockNo = s.header.blockNo i := by
      obtain ⟨y, hy, rfl⟩ := List.mem_map.mp hx
      rw [← hh.eq_of_addr hb hy hxa]
      exact hxn
    refine journal_of_committer hbook' hg ?_ fun _ => hent
    have hw := writeLog_write (t := t) hinv hb hi hbn hent.1
    simp only [State.goto, update_self, written, stage] at hw ⊢
    exact hw
  | @release t l b keep pc w lk hr hb ht hpost =>
    have hself := release_self hr lk w
    cases hr with
    | client hp =>
      exact kept (by simp) (by simp [Label.actor, hp]) (by simp [drop]) (by simp [drop])
        (by rw [Label.actor, hself, hp]) (by rw [Label.actor, hself, hp])
    | @writeLog i a hp =>
      rw [record_of_ne (by simp) (by simp [Label.actor, hp])]
      obtain ⟨rfl, rfl, p, hg, hinv⟩ := h.committing hbook hbook' (t := t) (by rw [hp]; simp [stage])
        (by rw [hself]; simp [stage])
      have hent := h.entries_of_committer hbook (by rw [hp]; rfl)
      have hd : (wakeFirst (drop s t b.addr false (.logNext (i + 1)) lk) w).disk = s.disk := by
        simp [drop]
      have hhd : (wakeFirst (drop s t b.addr false (.logNext (i + 1)) lk) w).header = s.header := by
        simp [drop]
      have hinv' := commitInv_congr hinv hd hhd fun j hj b' hb' hm =>
        data_kept hh hbook hsane hcl hst hj hb' hm
      rw [hp] at hinv'
      refine journal_of_committer hbook' hg ?_ fun _ => by rw [hhd]; exact hent
      rw [hself]
      refine ⟨hinv'.clean, hinv'.dom, fun b' hb' hm => hinv'.cached b' hb' ?_, hinv'.slots⟩
      rw [hhd] at hm ⊢
      exact List.drop_subset_drop_left _ (Nat.le_succ i) hm
  | @writeHeader t a hp =>
    rw [record_of_ne (by simp) (by simp [Label.actor, hp])]
    obtain ⟨rfl, rfl, p, hg, hinv⟩ := h.committing hbook hbook' (t := t) (by rw [hp]; simp [stage])
      (by simp [State.goto, stage])
    rw [hp] at hinv
    obtain ⟨hcap, hent⟩ := h.entries_of_committer hbook (by rw [hp]; rfl)
    refine journal_of_committer hbook' hg ?_ fun hgr => ?_
    · simp only [State.goto, update_self, stage]
      exact redo_writeHeader hinv hcap hent
    · simp [State.goto, stage, Stage.hasGroup] at hgr
  | @ckpt t a q q' hd d hp hne hc =>
    rw [record_of_ne (by simp) (by simpa [Label.actor, hp] using hne)]
    obtain ⟨rfl, rfl, p, hg, hinv⟩ := h.committing hbook hbook' (t := t) (by rw [hp]; simp [stage])
      (by simp [State.goto, stage])
    rw [hp] at hinv
    refine journal_of_committer hbook' hg ?_ fun hgr => ?_
    · simp only [State.goto, update_self, stage]
      exact ckptInv_step hinv hc
    · simp [State.goto, stage, Stage.hasGroup] at hgr
  | @broadcast t a hp =>
    have hrec : record s (.run t a) g = ⟨overlay (g.group.getD fun _ => none) g.base, none⟩ := by
      simp only [record, hp]
    rw [hrec]
    obtain ⟨p, hg, hinv⟩ := h.commit t (by rw [hp]; simp [stage])
    rw [hp] at hinv
    obtain ⟨hredo, hnum⟩ : Redo sb s.disk (fun _ => none) (overlay p g.base) ∧
        s.header.numBlocks = 0 := hinv
    have hout : ∀ u, stage ((committed s t).thread u).pc = .outside :=
      stage_of_none (book_committed hbook hh hp)
    refine ⟨fun _ => ⟨rfl, ?_⟩, fun u hu => absurd (hout u) hu, fun _ => ⟨?_, ?_⟩⟩
    · rw [hg]
      exact hredo
    · show s.header.numBlocks ≤ _
      rw [hnum]
      exact Nat.zero_le _
    · show ∀ n ∈ s.header.logged, _
      simp [LogHeader.logged, hnum]
  | endWoken hp =>
    refine kept (by simp) (by simp [Label.actor, hp]) rfl rfl ?_ ?_ <;>
      simp [Label.actor, State.goto, hp, stage, written]

/-! ### Runs with their histories -/

def recStep (sb : SuperBlock) (x : State T × Hist) (l : Label T) : Option (State T × Hist) :=
  (step sb x.1 l).map fun s' => (s', record x.1 l x.2)

/-- What holds in every state of a run by the rules. -/
structure Good (sb : SuperBlock) (s : State T) (g : Hist) : Prop where
  held : Held s
  book : ∃ G c, Book s G c
  sane : Sane s
  journal : Journal sb s g

theorem good_step (h : Good sb s g) (hcl : Client sb s l)
    (hs : step sb s l = some s') : Good sb s' (record s l g) := by
  obtain ⟨hh, ⟨G, c, hbook⟩, hsane, hj⟩ := h
  have hh' := held_step hh hs
  exact ⟨hh', book_step hh hbook hcl.beginsOutside hs, sane_step hh hh' hbook hsane (step_cases hh hs),
    journal_step hh hbook hsane hj hcl hs⟩

/-- **Every run by the rules keeps the journal.** -/
theorem good_run {s₀ : State T} {ls : List (Label T)} (h₀ : Booted sb s₀)
    (hr : Run (recStep sb) (fun x l => Client sb x.1 l) (s₀, ⟨s₀.disk, none⟩) ls (s, g)) :
    Good sb s g := by
  refine hr.inv (I := fun x => Good sb x.1 x.2) (fun x l x' h hcl hs => ?_)
    ⟨held_of_booted h₀, ⟨∅, none, book_of_booted h₀⟩, sane_of_booted h₀, journal_of_booted h₀⟩
  obtain ⟨s₁, hs₁, rfl⟩ := Option.map_eq_some_iff.mp hs
  exact good_step h hcl hs₁

end OsHonor.Fs.Cache.Commit
