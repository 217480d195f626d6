import OsHonor.Fs.Cache.Steps

/-! # Holders of cached blocks

`Held` is kept by every step (`held_step`), so it holds in every state of every run from a booted
state (`held_run`). Most steps leave the holders alone: `held_move` covers those of one thread. The others
take a block, give one back or put a new one into the cache, and are done one by one. -/

namespace OsHonor.Fs.Cache.Holders

open List Function Base.Keyed Base.Runs BlockDevice Lib.Semaphore
open Blocks Machine Steps

variable {T : Type} {sb : SuperBlock} {s s' : State T}

/-! ### Steps that leave the holders alone -/

def heldPart (b : Block T) : ℕ × ℕ × Bool := (b.addr, b.blockNo, b.acquired)

theorem held_congr (h : Held s) (hb : (s'.blocks.map heldPart).Perm (s.blocks.map heldPart))
    (hheld : ∀ t, (s'.thread t).held = (s.thread t).held)
    (hwork : ∀ t a, workingOn (s'.thread t).pc = some a → a ∈ (s.thread t).held)
    (hval : s'.workDone.val = -(s'.workDone.sleeplist.length : ℤ))
    (hdone : ∀ t, t ∈ s'.workDone.sleeplist ↔ inEndWait (s'.thread t).pc = true) : Held s' := by
  -- every block has a counterpart with the same address, number and flag
  have hto : ∀ b' ∈ s'.blocks, ∃ b ∈ s.blocks, heldPart b = heldPart b' := fun b' hb' => by
    simpa using hb.subset (mem_map_of_mem hb')
  have hfrom : ∀ b ∈ s.blocks, ∃ b' ∈ s'.blocks, heldPart b' = heldPart b := fun b hb' => by
    simpa using hb.symm.subset (mem_map_of_mem hb')
  have hmap : ∀ {β : Type} (g : ℕ × ℕ × Bool → β),
      (s.blocks.map fun b => g (heldPart b)).Nodup → (s'.blocks.map fun b => g (heldPart b)).Nodup := by
    intro β g hn
    have := (hb.map g).nodup_iff
    rw [map_map, map_map] at this
    exact this.mpr hn
  refine ⟨hmap (fun p => p.1) h.addrs, hmap (fun p => p.2.1) h.nums, fun t => ?_, ?_, ?_, ?_, ?_, hval,
    hdone⟩
  · rw [hheld]; exact h.nodup t
  · intro t a ht
    rw [hheld] at ht
    obtain ⟨b, hb', rfl⟩ := h.live t a ht
    obtain ⟨b', hb'', he⟩ := hfrom b hb'
    exact ⟨b', hb'', congrArg Prod.fst he⟩
  · intro t u a ht hu
    rw [hheld] at ht hu
    exact h.excl t u a ht hu
  · intro b' hb'
    obtain ⟨b, hbm, he⟩ := hto b' hb'
    simp only [heldPart, Prod.mk.injEq] at he
    rw [← he.2.2, ← he.1, h.acquired b hbm]
    simp only [hheld]
  · intro t a ht
    rw [hheld]
    exact hwork t a ht

variable {a : ℕ} {b : Block T} {t : T} {pc : Pc} {k : Cont}

variable {f : Block T → Block T} {l : Label T} {keep : Bool}

theorem heldPart_update (l : List (Block T))
    (hf : ∀ b, heldPart (f b) = heldPart b) : ((update a f l).map heldPart).Perm (l.map heldPart) := by
  rw [map_update heldPart fun b _ => hf b]

/-- **One block changes hands.** -/
theorem held_at (h : Held s) (hb : b ∈ s.blocks)
    (hf : ∀ x, (f x).addr = x.addr ∧ (f x).blockNo = x.blockNo)
    (hblocks : s'.blocks.Perm (update b.addr f s.blocks))
    (hheld : ∀ u c, c ≠ b.addr → (c ∈ (s'.thread u).held ↔ c ∈ (s.thread u).held))
    (hnodup : ∀ u, (s'.thread u).held.Nodup)
    (hexcl : ∀ u v, b.addr ∈ (s'.thread u).held → b.addr ∈ (s'.thread v).held → u = v)
    (hacq : (f b).acquired = true ↔ ∃ u, b.addr ∈ (s'.thread u).held)
    (hwork : ∀ u c, workingOn (s'.thread u).pc = some c → c ∈ (s'.thread u).held)
    (hval : s'.workDone.val = -(s'.workDone.sleeplist.length : ℤ))
    (hdone : ∀ u, u ∈ s'.workDone.sleeplist ↔ inEndWait (s'.thread u).pc = true) : Held s' := by
  have hmem : ∀ x, x ∈ s'.blocks ↔ ∃ y ∈ s.blocks, x = if y.addr = b.addr then f y else y :=
    fun x => (hblocks.mem_iff).trans mem_update
  have hlive : ∀ y ∈ s.blocks, ∃ x ∈ s'.blocks, x.addr = y.addr := by
    intro y hy
    refine ⟨_, (hmem _).mpr ⟨y, hy, rfl⟩, ?_⟩
    split_ifs
    · exact (hf y).1
    · rfl
  refine ⟨?_, ?_, hnodup, ?_, ?_, ?_, hwork, hval, hdone⟩
  · rw [(hblocks.map Block.addr).nodup_iff, map_update Block.addr fun x _ => (hf x).1]
    exact h.addrs
  · rw [(hblocks.map Block.blockNo).nodup_iff, map_update Block.blockNo fun x _ => (hf x).2]
    exact h.nums
  · intro u c hu
    by_cases hc : c = b.addr
    · rw [hc]; exact hlive b hb
    · obtain ⟨y, hy, rfl⟩ := h.live u c ((hheld u c hc).mp hu)
      exact hlive y hy
  · intro u v c hu hv
    by_cases hc : c = b.addr
    · subst hc; exact hexcl u v hu hv
    · exact h.excl u v c ((hheld u c hc).mp hu) ((hheld v c hc).mp hv)
  · intro x hx
    obtain ⟨y, hy, rfl⟩ := (hmem x).mp hx
    split_ifs with hyb
    · rw [h.eq_of_addr hb hy hyb, (hf b).1]
      exact hacq
    · rw [h.acquired y hy]
      simp only [hheld _ _ hyb]

variable [DecidableEq T]

theorem held_move (h : Held s) {c : Option ℕ}
    (hth : s'.thread = Function.update s.thread t { s.thread t with ctx := c, pc := pc })
    (hw : s'.workDone = s.workDone) (hb : (s'.blocks.map heldPart).Perm (s.blocks.map heldPart))
    (hp : inEndWait (s.thread t).pc = false) (hp' : inEndWait pc = false)
    (hwork : ∀ a, workingOn pc = some a → a ∈ (s.thread t).held) : Held s' := by
  refine held_congr h hb ?_ ?_ ?_ ?_
  · intro u
    by_cases hu : u = t
    · subst hu; simp [hth]
    · simp [hth, hu]
  · intro u a ha
    by_cases hu : u = t
    · subst hu
      simp only [hth, update_self] at ha
      exact hwork a ha
    · simp only [hth, update_of_ne hu] at ha
      exact h.working u a ha
  · rw [hw]; exact h.doneVal
  · intro u
    rw [hw, h.done u]
    by_cases hu : u = t
    · subst hu; simp [hth, hp, hp']
    · simp [hth, hu]

/-! ### Steps that do not -/

theorem held_take (h : Held s) {l : Sem T} (hb : b ∈ s.blocks)
    (hacq : b.acquired = false) (hp : inEndWait (s.thread t).pc = false) :
    Held (take s t k b.addr l) := by
  have hth : ∀ u, (take s t k b.addr l).thread u =
      if u = t then { s.thread t with held := b.addr :: (s.thread t).held, pc := k.ret b.addr }
      else s.thread u := fun u => update_apply ..
  have hnot := h.not_held hb hacq
  refine held_at h hb (f := fun x => { x with lock := l, acquired := true }) (fun _ => ⟨rfl, rfl⟩)
    (rotateAfter_perm _ _) ?_ ?_ ?_ ?_ ?_ h.doneVal ?_
  · intro u c hcb
    rw [hth]
    split_ifs with hut
    · subst hut; simp [hcb]
    · rfl
  · intro u
    rw [hth]
    split_ifs
    · exact nodup_cons.mpr ⟨hnot t, h.nodup t⟩
    · exact h.nodup u
  · intro u v hu hv
    rw [hth] at hu hv
    split_ifs at hu hv with h1 h2
    · rw [h1, h2]
    · exact absurd hv (hnot v)
    · exact absurd hu (hnot u)
    · exact absurd hu (hnot u)
  · simp only [true_iff]
    exact ⟨t, by rw [hth]; simp⟩
  · intro u c hu
    rw [hth] at hu ⊢
    split_ifs at hu ⊢ with hut
    · cases k
      · simp [Cont.ret, workingOn] at hu
      · simp only [Cont.ret, workingOn, Option.some.injEq] at hu
        simp [hu]
    · exact h.working u c hu
  · intro u
    rw [hth]
    show u ∈ s.workDone.sleeplist ↔ _
    rw [h.done u]
    split_ifs with hut
    · rw [hut, hp]; cases k <;> simp [Cont.ret, inEndWait]
    · rfl

theorem held_push (h : Held s) {n : ℕ} (hp : inEndWait (s.thread t).pc = false)
    (hn : ∀ b ∈ s.blocks, b.blockNo ≠ n) (ha : ∀ b ∈ evictFull s.blocks, b.addr ≠ a) :
    Held (push s t k n a) := by
  have hsub : ∀ b ∈ evictFull s.blocks, b ∈ s.blocks := fun b hb =>
    (evictFull_sublist s.blocks).subset hb
  have hkeep : ∀ u, ∀ c ∈ (s.thread u).held, ∃ b ∈ evictFull s.blocks, b.addr = c := by
    intro u c hu
    obtain ⟨b, hb, rfl⟩ := h.live u c hu
    rcases mem_evictFull_or hb with hm | ⟨-, v, hv, hbv⟩
    · exact ⟨b, hm, rfl⟩
    · obtain ⟨hvm, -, hacq⟩ := victim_some hv
      rw [hbv] at hu
      exact absurd hu (h.not_held hvm hacq u)
  have hnew : ∀ u, a ∉ (s.thread u).held := by
    intro u hu
    obtain ⟨b, hb, hba⟩ := hkeep u a hu
    exact ha b hb hba
  have hth : ∀ u, (push s t k n a).thread u =
      if u = t then { s.thread t with held := a :: (s.thread t).held, pc := .load k a }
      else s.thread u := fun u => update_apply ..
  have hheld : ∀ u c, c ≠ a → (c ∈ ((push s t k n a).thread u).held ↔ c ∈ (s.thread u).held) := by
    intro u c hc
    rw [hth]
    split_ifs with hut
    · subst hut; simp [hc]
    · rfl
  have hhelda : ∀ u, a ∈ ((push s t k n a).thread u).held ↔ u = t := by
    intro u
    rw [hth]
    split_ifs with hut
    · simp [hut]
    · exact ⟨fun hu => absurd hu (hnew u), fun hu => absurd hu hut⟩
  have hmem : ∀ x, x ∈ (push s t k n a).blocks ↔ x ∈ evictFull s.blocks ∨ x = newBlock a n := by
    intro x; simp [push]
  refine ⟨?_, ?_, ?_, ?_, ?_, ?_, ?_, h.doneVal, ?_⟩
  · have := ((evictFull_sublist s.blocks).map Block.addr).nodup h.addrs
    simp only [push, map_append, map_cons, map_nil]
    rw [← concat_eq_append]
    refine this.concat fun hm => ?_
    obtain ⟨b, hb, hba⟩ := mem_map.mp hm
    exact ha b hb hba
  · have := ((evictFull_sublist s.blocks).map Block.blockNo).nodup h.nums
    simp only [push, map_append, map_cons, map_nil]
    rw [← concat_eq_append]
    refine this.concat fun hm => ?_
    obtain ⟨b, hb, hba⟩ := mem_map.mp hm
    exact hn b (hsub b hb) hba
  · intro u
    rw [hth]
    split_ifs
    · exact nodup_cons.mpr ⟨hnew t, h.nodup t⟩
    · exact h.nodup u
  · intro u c hu
    by_cases hc : c = a
    · exact ⟨newBlock a n, (hmem _).mpr (Or.inr rfl), hc.symm⟩
    · obtain ⟨b, hb, hbc⟩ := hkeep u c ((hheld u c hc).mp hu)
      exact ⟨b, (hmem b).mpr (Or.inl hb), hbc⟩
  · intro u v c hu hv
    by_cases hc : c = a
    · subst hc
      rw [(hhelda u).mp hu, (hhelda v).mp hv]
    · exact h.excl u v c ((hheld u c hc).mp hu) ((hheld v c hc).mp hv)
  · intro x hx
    rcases (hmem x).mp hx with hx | rfl
    · rw [h.acquired x (hsub x hx)]
      simp only [hheld _ _ (ha x hx)]
    · simp only [newBlock, true_iff]
      exact ⟨t, (hhelda t).mpr rfl⟩
  · intro u c hu
    rw [hth] at hu ⊢
    split_ifs at hu ⊢ with hut
    · simp only [workingOn, Option.some.injEq] at hu
      simp [hu]
    · exact h.working u c hu
  · intro u
    rw [hth]
    show u ∈ s.workDone.sleeplist ↔ _
    rw [h.done u]
    split_ifs with hut
    · rw [hut, hp]; simp [inEndWait]
    · rfl

theorem held_drop (h : Held s) {l : Sem T}
    (hb : b ∈ s.blocks) (ht : b.addr ∈ (s.thread t).held) (hp : inEndWait (s.thread t).pc = false)
    (hp' : inEndWait pc = false) (hwk : workingOn pc = none) : Held (drop s t b.addr keep pc l) := by
  have hth : ∀ u, (drop s t b.addr keep pc l).thread u =
      if u = t then { s.thread t with held := (s.thread t).held.erase b.addr, pc := pc }
      else s.thread u := fun u => update_apply ..
  have hnot : ∀ u, b.addr ∉ ((drop s t b.addr keep pc l).thread u).held := by
    intro u
    rw [hth]
    split_ifs with hut
    · exact (h.nodup t).not_mem_erase
    · exact fun hu => hut (h.excl u t _ hu ht)
  refine held_at h hb (f := released keep l) (fun _ => ⟨rfl, rfl⟩) (List.Perm.refl _) ?_ ?_
    (fun u _ hu => absurd hu (hnot u)) ?_ ?_ h.doneVal ?_
  · intro u c hcb
    rw [hth]
    split_ifs with hut
    · subst hut; exact mem_erase_of_ne hcb
    · rfl
  · intro u
    rw [hth]
    split_ifs
    · exact (h.nodup t).erase _
    · exact h.nodup u
  · simp only [released, Bool.false_eq_true, false_iff, not_exists]
    exact hnot
  · intro u c hu
    rw [hth] at hu ⊢
    split_ifs at hu ⊢ with hut
    · simp [hwk] at hu
    · exact h.working u c hu
  · intro u
    rw [hth]
    show u ∈ s.workDone.sleeplist ↔ _
    rw [h.done u]
    split_ifs with hut
    · rw [hut, hp, hp']
    · rfl

theorem held_wakeFirst (h : Held s) (w : Option T) : Held (wakeFirst s w) := by
  refine held_congr h (by simp) ?_ ?_ (by simpa using h.doneVal) ?_
  · intro u
    rcases wakeFirst_thread s w u with hu | ⟨k, a, -, hu⟩ <;> rw [hu]
  · intro u c hc
    rcases wakeFirst_thread s w u with hu | ⟨k, a, -, hu⟩
    · rw [hu] at hc
      exact h.working u c hc
    · simp [hu, workingOn] at hc
  · intro u
    rw [wakeFirst_workDone, h.done u]
    rcases wakeFirst_thread s w u with hu | ⟨k, a, hpc, hu⟩
    · rw [hu]
    · simp [hu, hpc, inEndWait]

theorem held_endWait (h : Held s) {c : ℕ} :
    Held { s.goto t .endWait with
      contributorsCnt := c
      workDone := ⟨s.workDone.val - 1, s.workDone.sleeplist ++ [t]⟩ } := by
  have hth : ∀ u, (s.goto t .endWait).thread u =
      if u = t then { s.thread t with pc := .endWait } else s.thread u :=
    fun u => update_apply ..
  refine held_congr h (List.Perm.refl _) ?_ ?_ ?_ ?_
  · intro u
    simp only [hth]
    split_ifs with hut
    · rw [hut]
    · rfl
  · intro u a hu
    simp only [hth] at hu
    split_ifs at hu with hut
    · simp [workingOn] at hu
    · exact h.working u a hu
  · simp only [h.doneVal, length_append, length_singleton]
    omega
  · intro u
    simp only [hth, mem_append, h.done u]
    split_ifs with hut
    · simp [hut, inEndWait]
    · simp [hut]

theorem held_committed (h : Held s) : Held (committed s t) := by
  have hth : ∀ u, (committed s t).thread u =
      if u = t then { s.thread u with ctx := none, pc := .ready }
      else if u ∈ s.workDone.sleeplist then { s.thread u with ctx := none, pc := .endWoken }
      else s.thread u := fun u => rfl
  refine held_congr h (List.Perm.refl _) ?_ ?_ rfl ?_
  · intro u
    rw [hth]
    split_ifs <;> rfl
  · intro u a hu
    rw [hth] at hu
    split_ifs at hu with h1 h2
    · simp [workingOn] at hu
    · simp [workingOn] at hu
    · exact h.working u a hu
  · intro u
    show u ∈ [] ↔ _
    rw [hth]
    split_ifs with h1 h2
    · simp [inEndWait]
    · simp [inEndWait]
    · rw [← h.done u]; simp [h2]

omit [DecidableEq T] in
theorem pc_of_releases (hr : Releases s t a l keep pc) :
    inEndWait (s.thread t).pc = false ∧ inEndWait pc = false ∧ workingOn pc = none := by
  rcases hr with hpc | hpc <;> simp [hpc, inEndWait, workingOn]

omit [DecidableEq T] in
theorem pc_of_looks {r : Bool × Sem T} (hl : Looks s t b k r) :
    inEndWait (s.thread t).pc = false := by
  rcases hl with hpc | ⟨hpc, -⟩ | ⟨hpc, -⟩ <;> rw [hpc] <;> rfl

/-- **Every step keeps the holders.** -/
theorem held_step (h : Held s) (hs : step sb s l = some s') : Held s' := by
  cases step_cases h hs with
  | beginOp hp => exact held_move h rfl rfl (.refl _) (hp ▸ rfl) (hp ▸ rfl) (by simp [hp, workingOn])
  | acquire hp => exact held_move h rfl rfl (.refl _) (hp ▸ rfl) rfl (by simp [workingOn])
  | modify hp =>
    exact held_congr h (heldPart_update _ fun _ => rfl) (fun _ => rfl) h.working h.doneVal h.done
  | syncOld => exact h
  | syncNew hp =>
    exact held_move h rfl rfl (heldPart_update _ fun _ => rfl) (hp ▸ rfl) (hp ▸ rfl)
      (by simp [hp, workingOn])
  | syncNull => exact held_congr h (.refl _) (fun _ => rfl) h.working h.doneVal h.done
  | endWait => exact held_endWait h
  | endCommit hp => exact held_move h rfl rfl (.refl _) (hp ▸ rfl) rfl (by simp [workingOn])
  | take hb hl hacq => exact held_take h hb hacq (pc_of_looks hl)
  | sleep hb hl =>
    exact held_move h rfl rfl (heldPart_update _ fun _ => rfl) (pc_of_looks hl) rfl
      (by simp [workingOn])
  | miss hp hn ha => exact held_push h (hp ▸ rfl) hn ha
  | @load t k a b hp hb =>
    exact held_move h rfl rfl (heldPart_update _ fun _ => rfl) (hp ▸ rfl) rfl
      fun c hc => h.working t c (hp ▸ hc)
  | @loaded t k a b hp hb =>
    refine held_move h rfl rfl
      (((rotateAfter_perm _ _).map heldPart).trans (heldPart_update _ fun _ => rfl)) (hp ▸ rfl)
      (by cases k <;> rfl) fun c hc => h.working t c ?_
    rw [hp]
    cases k
    · simp [Cont.ret, workingOn] at hc
    · exact hc
  | logNext hp => exact held_move h rfl rfl (.refl _) (hp ▸ rfl) rfl (by simp [workingOn])
  | logDone hp => exact held_move h rfl rfl (.refl _) (hp ▸ rfl) rfl (by simp [workingOn])
  | @logWrite t i a b hp hb =>
    exact held_move h rfl rfl (.refl _) (hp ▸ rfl) rfl fun c hc => h.working t c (hp ▸ hc)
  | release hr hb ht =>
    obtain ⟨hp, hp', hwk⟩ := pc_of_releases hr
    exact held_wakeFirst (held_drop h hb ht hp hp' hwk) _
  | writeHeader hp => exact held_move h rfl rfl (.refl _) (hp ▸ rfl) rfl (by simp [workingOn])
  | ckpt hp => exact held_move h rfl rfl (.refl _) (hp ▸ rfl) rfl (by simp [workingOn])
  | broadcast => exact held_committed h
  | endWoken hp => exact held_move h rfl rfl (.refl _) (hp ▸ rfl) rfl (by simp [workingOn])

omit [DecidableEq T] in
theorem held_of_booted (h : Booted sb s) : Held s := by
  refine ⟨by simp [h.blocks], by simp [h.blocks], fun t => by simp [h.thread t],
    fun t a ht => by simp [h.thread t] at ht, fun t _ a ht => by simp [h.thread t] at ht,
    by simp [h.blocks], fun t a ht => by simp [h.thread t, workingOn] at ht, ?_, ?_⟩
  · simp [h.workDone, Sem.init]
  · intro t
    simp [h.workDone, Sem.init, h.thread t, inEndWait]

end OsHonor.Fs.Cache.Holders
