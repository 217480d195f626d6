import OsHonor.Fs.Cache.Crash

/-! # Durability of synced updates

When `cache_end_op` returns, the blocks of the operation are at home with what was synced, provided that
no other operation begins during a commit. `cache_begin_op` does not wait for that: an operation that
begins between `write_header` and `read_header` of another one's commit loses its log entries
(`lost_update`).

That contents include a modification is a property `P` of contents which holds when the block is synced
and which later modifications of the block keep. `Tracked` says where the property holds from then on:
in the cache, in the group that is being committed, and from the end of the operation on at home. -/

namespace OsHonor.Fs.Cache.Durability

open Option Function Base.Keyed Base.Runs Base.RedoLog BlockDevice
open Blocks Machine Steps
open Bookkeeping
open Commit Crash

variable {T : Type} {sb : SuperBlock} {s s' : State T}

/-! ### Calls inside operations -/

/-- A client's `cache_acquire` is in progress. -/
def acquiring : Pc → Bool
  | .acquire .client _ | .load .client _ | .loaded .client _ | .wait .client _ | .woken .client _ => true
  | _ => false

theorem active_of_acquiring {pc : Pc} (h : acquiring pc = true) : active pc = true := by
  unfold acquiring at h
  split at h <;> first | rfl | simp at h

def InOps (s : State T) : Prop := ∀ t, acquiring (s.thread t).pc = true → (s.thread t).ctx.isSome

def Quiet (s : State T) : Prop := ∀ t, acquiring (s.thread t).pc = true → ¬ InCommit s

theorem InOps.quiet {G : Finset T} {c : Option T} (h : InOps s) (hbook : Book s G c) : Quiet s := by
  rintro t ht ⟨u, hu⟩
  have hc := hbook.none_of_active (h t ht) (active_of_acquiring ht)
  have hcu := (hbook.committer u).mp hu
  simp [hc] at hcu

variable {b : Block T} {k : Cont} {l : Label T} {u : T}

variable [DecidableEq T]

theorem loading_step (hh : Held s) (hst : Step sb s l s') {a : ℕ}
    (hu : (s.thread u).pc = .load k a) : (s'.thread u).pc = .load k a ∨
      ∀ b ∈ s'.blocks, b.addr = a → b.data = s.disk b.blockNo := by
  by_cases hua : u = l.actor
  · subst hua
    cases hst with
    | beginOp hp | acquire hp | modify hp | syncOld hp | syncNew hp | syncNull hp | endWait hp
    | endCommit hp | miss hp | loaded hp | logNext hp | logDone hp | logWrite hp | writeHeader hp
    | ckpt hp | broadcast hp | endWoken hp => rw [Label.actor, hp] at hu; simp at hu
    | take hb hl | sleep hb hl => rcases looks_pc hl with hp | hp <;> simp [Label.actor, hp] at hu
    | release hr =>
      cases hr with
      | client hp | writeLog hp => rw [Label.actor, hp] at hu; simp at hu
    | @load t k' a' b hp hb =>
      right
      intro b' hb' ha
      simp only [Label.actor, hp, Pc.load.injEq] at hu
      obtain ⟨x, hx, rfl⟩ := mem_update.mp hb'
      split_ifs with hxa
      · rw [hh.eq_of_addr hb hx hxa]
      · rw [if_neg hxa] at ha
        exact absurd (ha.trans hu.2.symm) hxa
  · rcases step_frame hst hua with he | ⟨k', a', hpc, -⟩ | ⟨-, hd, -⟩
    · rw [he]; exact Or.inl hu
    · rw [hu] at hpc; simp at hpc
    · rw [hh.done, hu] at hd
      simp [inEndWait] at hd

theorem ctx_step (hst : Step sb s l s') (hnd : (s.thread l.actor).pc ≠ .ckpt .done)
    (hu : (s.thread u).ctx ≠ none) : (s'.thread u).ctx ≠ none := by
  by_cases hua : u = l.actor
  · subst hua
    cases hst with
    | modify | syncOld | syncNull => exact hu
    | beginOp | syncNew => simp [Label.actor, cacheBeginOp, openEntry]
    | acquire | endWait | endCommit | load | loaded | logNext | logDone | logWrite | writeHeader | ckpt
    | endWoken => simpa [Label.actor, State.goto] using hu
    | take | sleep | miss => simpa [Label.actor, take, sleepOn, push, State.goto] using hu
    | release hr =>
      have hself := release_self hr
      cases hr <;> simpa [Label.actor, hself] using hu
    | broadcast hp => exact absurd hp hnd
  · rcases step_frame hst hua with he | ⟨k, a, -, he⟩ | ⟨hp, -⟩
    · rw [he]; exact hu
    · rw [he]; exact hu
    · exact absurd hp hnd

theorem logged_step (hst : Step sb s l s') {n : ℕ} (hn : n ∈ s.header.logged) :
    n ∈ s'.header.logged ∨ InCommit s := by
  cases hst with
  | syncNew =>
    rw [show (openEntry s _ _ _).header.logged = _ from LogHeader.logged_concat ..]
    exact Or.inl (List.mem_append_left _ hn)
  | @ckpt t a p p' h d hp => exact Or.inr ⟨t, by rw [hp]; simp [stage]⟩
  | release => exact Or.inl (by simpa [drop] using hn)
  | _ => exact Or.inl hn

theorem record_cases (hst : Step sb s l s') (g : Hist) :
    ((s.thread l.actor).pc ≠ .ckpt .done ∧ record s l g = g) ∨
    ((s.thread l.actor).pc = .ready ∧ (s.thread l.actor).ctx.isSome ∧
      record s l g = { g with group := some (groupOf s) }) ∨
    ((s.thread l.actor).pc = .ckpt .done ∧
      record s l g = ⟨overlay (g.group.getD fun _ => none) g.base, none⟩) := by
  by_cases hd : (s.thread l.actor).pc = .ckpt .done
  · refine Or.inr (Or.inr ⟨hd, ?_⟩)
    cases hst with
    | beginOp hp | acquire hp | modify hp | syncOld hp | syncNew hp | syncNull hp | endWait hp
    | endCommit hp => rw [Label.actor, hp] at hd; simp at hd
    | release hr =>
      cases hr with
      | client hp | writeLog hp => rw [Label.actor, hp] at hd; simp at hd
    | _ => rw [Label.actor] at hd; simp only [record, hd]
  · cases hst with
    | endWait hp hc hcnt => exact Or.inl ⟨hd, if_pos (by omega)⟩
    | endCommit hp hc hcnt => exact Or.inr (Or.inl ⟨hp, hc, if_neg (by omega)⟩)
    | release hr => exact Or.inl ⟨hd, record_of_ne (by cases hr <;> simp) hd⟩
    | _ => exact Or.inl ⟨hd, record_of_ne (by simp) hd⟩

/-! ### Where a property of the contents holds -/

/-- Modifications of block `n` keep `P`. -/
def Keeps (P : BlockData → Prop) (n : ℕ) (s : State T) : Label T → Prop
  | .modify _ a f => ∀ b ∈ s.blocks, b.addr = a → b.blockNo = n → P b.data → P (f b.data)
  | _ => True

/-- Block `n`, which thread `t` has synced with contents in `P`, has contents in `P`: in the cache,
except while it is being loaded, in the group that is being committed, and at home unless `t`'s
operation is still open and has the block in its group. -/
structure Tracked (P : BlockData → Prop) (n : ℕ) (t : T) (s : State T) (g : Hist) : Prop where
  cached : ∀ b ∈ s.blocks, b.blockNo = n → (∀ u k, (s.thread u).pc ≠ .load k b.addr) → P b.data
  group : ∀ p v, g.group = some p → p n = some v → P v
  atHome : P (g.base n) ∨ (s.thread t).ctx ≠ none ∧ (g.group = none → n ∈ s.header.logged) ∧
    ∀ p, g.group = some p → (p n).isSome

section tracked

variable {P : BlockData → Prop} {n : ℕ} {t : T} {g : Hist}

omit [DecidableEq T] in
theorem not_load_of_logged {G : Finset T} (hbook : Book s G none) (hsane : Sane s)
    (hb : b ∈ s.blocks) (hn : b.blockNo ∈ s.header.logged) (u : T) (k : Cont) :
    (s.thread u).pc ≠ .load k b.addr := by
  intro hu
  have hpin : b.pinned = true := (hbook.pinned.1 _ (List.mem_map_of_mem hb)).mpr hn
  simp [hsane.loading u k b hb hu] at hpin

omit [DecidableEq T] in
theorem Tracked.load (hgood : Good sb s g) (hq : Quiet s) (hhome : n ∈ home sb)
    (h : Tracked P n t s g) (hb : b ∈ s.blocks) (hbn : b.blockNo = n)
    (hu : (s.thread u).pc = .load k b.addr) : P (s.disk n) := by
  obtain ⟨G, c, hbook⟩ := hgood.book
  have hk : k = .client := by
    cases k with
    | client => rfl
    | writeLog i =>
      have hc := (hbook.committer u).mp (by rw [hu]; simp [stage])
      have hlog := hbook.logAt u hc
      rw [hu] at hlog
      exact hlog.elim
  subst hk
  obtain rfl : c = none := hbook.none_of_not_inCommit (hq u (by rw [hu]; rfl))
  obtain ⟨hg, hredo⟩ := hgood.journal.idle (stage_of_none hbook)
  rw [hredo.mixed.eq_of_none n hhome]
  rcases h.atHome with hP | ⟨-, hlogged, -⟩
  · exact hP
  · refine absurd hu (not_load_of_logged hbook hgood.sane hb ?_ u _)
    rw [hbn]
    exact hlogged hg

theorem Tracked.cached_step (hgood : Good sb s g) (hq : Quiet s) (hhome : n ∈ home sb)
    (h : Tracked P n t s g) (hk : Keeps P n s l) (hst : Step sb s l s') {b' : Block T}
    (hb' : b' ∈ s'.blocks) (hbn : b'.blockNo = n) (hno : ∀ u k, (s'.thread u).pc ≠ .load k b'.addr) :
    P b'.data := by
  rcases block_step hgood.held hst hb' with ⟨b, hb, hbb⟩ | ⟨u, k, m, a, -, rfl, -, rfl⟩
  · rw [hbb.addr] at hno
    have hbn' : b.blockNo = n := hbb.blockNo.symm.trans hbn
    by_cases hload : ∃ u k, (s.thread u).pc = .load k b.addr
    · obtain ⟨u, k, hu⟩ := hload
      rcases loading_step hgood.held hst hu with hu' | hdisk
      · exact absurd hu' (hno u k)
      · rw [hdisk b' hb' hbb.addr, hbn]
        exact h.load hgood hq hhome hb hbn' hu
    · simp only [not_exists] at hload
      have hP := h.cached b hb hbn' hload
      rcases hbb.data with hd | ⟨u, f, rfl, -, hd⟩ | ⟨u, k, hu, -⟩
      · rw [hd]; exact hP
      · rw [hd]; exact hk b hb rfl hbn' hP
      · exact absurd hu (hload u k)
  · exact absurd (by simp [push, newBlock]) (hno u k)

omit [DecidableEq T] in
theorem mem_of_groupOf {v : BlockData} (h : groupOf s n = some v) :
    ∃ b ∈ s.blocks, b.blockNo = n ∧ n ∈ s.header.logged ∧ b.data = v := by
  unfold groupOf at h
  split_ifs at h with hn
  obtain ⟨b, hb, rfl⟩ := map_eq_some_iff.mp h
  obtain ⟨hb, hbn⟩ := fetchCached_some hb
  exact ⟨b, hb, hbn, hn, rfl⟩

/-- **Every step keeps the tracked block.** -/
theorem tracked_step (hgood : Good sb s g) (hq : Quiet s) (hhome : n ∈ home sb)
    (h : Tracked P n t s g) (hk : Keeps P n s l) (hs : step sb s l = some s') :
    Tracked P n t s' (record s l g) := by
  have hst := step_cases hgood.held hs
  obtain ⟨G, c, hbook⟩ := hgood.book
  refine ⟨fun b' hb' hbn hno => h.cached_step hgood hq hhome hk hst hb' hbn hno, ?_, ?_⟩
  · rcases record_cases hst g with ⟨-, hrec⟩ | ⟨hp, hctx, hrec⟩ | ⟨hp, hrec⟩
    · rw [hrec]; exact h.group
    · rw [hrec]
      obtain rfl : c = none := hbook.none_of_active hctx (by rw [hp]; rfl)
      rintro p v ⟨⟩ hv
      obtain ⟨b, hb, hbn, hnl, rfl⟩ := mem_of_groupOf hv
      exact h.cached b hb hbn (not_load_of_logged hbook hgood.sane hb (hbn ▸ hnl))
    · rw [hrec]; simp
  · rcases record_cases hst g with ⟨hnd, hrec⟩ | ⟨hp, hctx, hrec⟩ | ⟨hp, hrec⟩
    · rw [hrec]
      refine h.atHome.imp_right fun ⟨ht, hl, hp⟩ => ⟨ctx_step hst hnd ht, fun hg => ?_, hp⟩
      refine (logged_step hst (hl hg)).resolve_right fun ⟨u, hu⟩ => ?_
      obtain ⟨p, hp, -⟩ := hgood.journal.commit u hu
      simp [hg] at hp
    · rw [hrec]
      obtain rfl : c = none := hbook.none_of_active hctx (by rw [hp]; rfl)
      have hg := (hgood.journal.idle (stage_of_none hbook)).1
      refine h.atHome.imp_right fun ⟨ht, hl, _⟩ => ⟨ctx_step hst (by simp [hp]) ht, by simp, ?_⟩
      rintro p ⟨⟩
      exact ((groupOf_of_mem hgood.held hbook).1 n).mpr (hl hg)
    · rw [hrec]
      left
      obtain ⟨p, hg, -⟩ := hgood.journal.commit l.actor (by rw [hp]; simp [stage])
      simp only [hg, getD_some]
      rcases hpn : p n with _ | v
      · rw [overlay_of_none hpn]
        rcases h.atHome with hP | ⟨-, -, hsome⟩
        · exact hP
        · simpa [hpn] using hsome p hg
      · rw [overlay_of_some hpn]
        exact h.group p v hg hpn

omit [DecidableEq T] in
theorem Tracked.disk (hgood : Good sb s g) (hhome : n ∈ home sb) (h : Tracked P n t s g)
    (ht : (s.thread t).ctx = none) : P (s.disk n) := by
  have hbase : P (g.base n) := h.atHome.resolve_right fun hn => hn.1 ht
  have hover : ∀ p, g.group = some p → P (overlay p g.base n) := by
    intro p hg
    rcases hpn : p n with _ | v
    · rw [overlay_of_none hpn]; exact hbase
    · rw [overlay_of_some hpn]; exact h.group p v hg hpn
  rcases redo_of_good hgood with ⟨-, -, hredo⟩ | ⟨-, p, hg, hredo | hredo | hredo⟩
  · rw [hredo.mixed.eq_of_none n hhome]; exact hbase
  · rw [hredo.mixed.eq_of_none n hhome]; exact hbase
  · rcases hredo.mixed n hhome with he | he
    · rw [he]; exact hbase
    · exact h.group p _ hg he
  · rw [hredo.mixed.eq_of_none n hhome]; exact hover p hg

end tracked

/-! ### Runs -/

end OsHonor.Fs.Cache.Durability
