import OsHonor.Processes.Families

/-! # The semaphore `childexit` and the list of zombies

`unconsumed b p` is the number of posts on `p.childexit` that no `wait` of `p` has consumed: the units in
the counter, and the one that a sleeping `p` has been granted. -/

namespace OsHonor.Processes.ChildExit

open Option List Function Base.Runs Lib.Semaphore Lifecycle Families
open Sched (Cpu Procs cpuNo)

variable {T : Type} [DecidableEq T]

/-! ### The semaphores -/

/-- The posts on `p.childexit` that have not been consumed. -/
def unconsumed (b : WakeUps.State T T) (p : T) : ℕ :=
  (b.sem p).val.toNat + if b.pc p = .outside then 0 else (b.up p).toNat

/-- Only `p` waits for `p.childexit`. -/
def OwnSem (b : WakeUps.State T T) (p : T) : Prop :=
  (0 ≤ (b.sem p).val ∧ (b.sem p).sleeplist = [] ∧ (b.pc p ≠ .outside → b.up p = true)) ∨
    ((b.sem p).val = -1 ∧ (b.sem p).sleeplist = [p] ∧ b.pc p ≠ .outside ∧ b.up p = false)

/-- What a step of the layer below does that is no step of a semaphore. -/
structure Quiet (b b' : WakeUps.State T T) : Prop where
  sem : b'.sem = b.sem
  up : b'.up = b.up
  pc : ∀ p, b'.pc p = .outside ↔ b.pc p = .outside

variable {p r : T} {base : WakeUps.State T T}

namespace Quiet

variable {b b' : WakeUps.State T T} (h : Quiet b b')

include h

theorem unconsumed (p : T) : unconsumed b' p = unconsumed b p := by
  simp only [ChildExit.unconsumed, h.sem, h.up, h.pc]

omit [DecidableEq T] in
theorem ownSem (hb : OwnSem b p) : OwnSem b' p := by
  unfold OwnSem
  rw [h.sem, h.up, ne_eq, h.pc]
  exact hb

end Quiet

variable {P : Procs T} {b b' : WakeUps.State T T} {c : Cpu}

/-- The steps of the layer below that are not entries, returns or posts. -/
def QuietLabel : WakeUps.Label T T → Prop
  | .wait _ _ _ | .finish _ | .post _ _ => False
  | _ => True

theorem quiet_step {l : WakeUps.Label T T} (h : WakeUps.step P b l = some b') (hl : QuietLabel l) :
    Quiet b b' := by
  cases l with
  | wait c m a => exact hl.elim
  | finish c => exact hl.elim
  | post c m => exact hl.elim
  | unlock c =>
    simp only [WakeUps.step] at h
    split at h
    · rename_i m a hpc
      cases h
      refine ⟨rfl, rfl, fun p => ?_⟩
      by_cases hp : p = b.sched.running c
      · simp [hp, hpc]
      · simp [update_of_ne hp]
    · cases h
  | sleep c =>
    simp only [WakeUps.step] at h
    split at h
    · rename_i m a hpc
      obtain ⟨sched, -, h⟩ := bind_eq_some_iff.mp h
      cases h
      refine ⟨rfl, rfl, fun p => ?_⟩
      by_cases hp : p = b.sched.running c
      · simp [hp, hpc]
      · simp [update_of_ne hp]
    · cases h
  | schedule c new =>
    simp only [WakeUps.step] at h
    split_ifs at h
    obtain ⟨sched, -, h⟩ := bind_eq_some_iff.mp h
    cases h
    exact ⟨rfl, rfl, fun p => Iff.rfl⟩
  | tick c =>
    simp only [WakeUps.step] at h
    split_ifs at h
    obtain ⟨sched, -, h⟩ := bind_eq_some_iff.mp h
    cases h
    exact ⟨rfl, rfl, fun p => Iff.rfl⟩
  | activate t =>
    simp only [WakeUps.step] at h
    split_ifs at h
    cases h
    exact ⟨rfl, rfl, fun p => Iff.rfl⟩
  | alert t =>
    cases h
    exact ⟨rfl, rfl, fun p => Iff.rfl⟩
  | kill t =>
    simp only [WakeUps.step] at h
    split_ifs at h
    cases h
    exact ⟨rfl, rfl, fun p => Iff.rfl⟩

/-- **A post** on `r.childexit` is one more unconsumed post, whether `r` sleeps or not. -/
theorem post_step (hown : ∀ p, OwnSem b p) (h : WakeUps.step P b (.post c r) = some b') :
    (∀ p, OwnSem b' p) ∧ b'.pc = b.pc ∧
      ∀ p, unconsumed b' p = unconsumed b p + if p = r then 1 else 0 := by
  simp only [WakeUps.step] at h
  split_ifs at h
  obtain ⟨⟨t, sem⟩, hpost, h⟩ := bind_eq_some_iff.mp h
  simp only [Sem.post] at hpost
  rcases hown r with ⟨hval, hlist, hup⟩ | ⟨hval, hlist, hpc, hup⟩
  · rw [if_pos (by omega)] at hpost
    cases hpost
    cases h
    refine ⟨fun p => ?_, rfl, fun p => ?_⟩
    · by_cases hp : p = r
      · subst hp
        refine Or.inl ?_
        simp only [update_self]
        exact ⟨by omega, hlist, hup⟩
      · simpa only [OwnSem, update_of_ne hp] using hown p
    · simp only [unconsumed]
      by_cases hp : p = r
      · subst hp
        simp only [update_self, if_true]
        omega
      · simp only [update_of_ne hp, if_neg hp, Nat.add_zero]
  · rw [if_neg (by omega), hlist] at hpost
    cases hpost
    cases h
    refine ⟨fun p => ?_, rfl, fun p => ?_⟩
    · by_cases hp : p = r
      · subst hp
        refine Or.inl ?_
        simp only [update_self, hval]
        exact ⟨by omega, trivial, fun _ => trivial⟩
      · simpa only [OwnSem, update_of_ne hp] using hown p
    · simp only [unconsumed]
      by_cases hp : p = r
      · subst hp
        simp [hval, hup, hpc]
      · simp only [update_of_ne hp, if_neg hp, Nat.add_zero]

/-- **The entry** of a process into the wait for its own semaphore: it consumes a post, or sleeps. -/
theorem wait_step (hp : b.sched.running c = p) (hown : ∀ p, OwnSem b p)
    (h : WakeUps.step P b (.wait c p true) = some b') :
    (∀ q, OwnSem b' q) ∧ (∀ q, q ≠ p → (b'.pc q = b.pc q ∧ unconsumed b' q = unconsumed b q)) ∧
      unconsumed b p = unconsumed b' p + if b'.pc p = .outside then 1 else 0 := by
  simp only [WakeUps.step, hp] at h
  split_ifs at h with hguard
  simp only [not_or, not_not] at hguard
  obtain ⟨hpc, -, -⟩ := hguard
  have hown' : 0 ≤ (b.sem p).val ∧ (b.sem p).sleeplist = [] := by
    rcases hown p with ⟨hval, hlist, -⟩ | ⟨-, -, hne, -⟩
    · exact ⟨hval, hlist⟩
    · exact absurd hpc hne
  simp only [Sem.wait] at h
  split_ifs at h with hval
  · cases h
    refine ⟨fun q => ?_, fun q hq => ⟨rfl, ?_⟩, ?_⟩
    · by_cases hq : q = p
      · subst hq
        refine Or.inl ?_
        simp only [update_self]
        exact ⟨hval, hown'.2, fun hne => absurd hpc hne⟩
      · simpa only [OwnSem, update_of_ne hq] using hown q
    · simp only [unconsumed, update_of_ne hq]
    · simp only [unconsumed, update_self, hpc, if_true]
      omega
  · obtain ⟨sched, -, h⟩ := bind_eq_some_iff.mp h
    cases h
    refine ⟨fun q => ?_, fun q hq => ⟨?_, ?_⟩, ?_⟩
    · by_cases hq : q = p
      · subst hq
        refine Or.inr ?_
        simp only [update_self, hown'.2]
        exact ⟨by omega, rfl, by simp, trivial⟩
      · simpa only [OwnSem, update_of_ne hq] using hown q
    · simp only [update_of_ne hq]
    · simp only [unconsumed, update_of_ne hq]
    · have hz : (b.sem p).val = 0 := by omega
      simp [unconsumed, hpc, hz]

/-- **The return** from the wait consumes the post that was granted. -/
theorem finish_step (hp : b.sched.running c = p) (hown : ∀ p, OwnSem b p) (hup : b.up p = true)
    (h : WakeUps.step P b (.finish c) = some b') : (∀ q, OwnSem b' q) ∧ b'.pc p = .outside ∧
      (∀ q, q ≠ p → (b'.pc q = b.pc q ∧ unconsumed b' q = unconsumed b q)) ∧
      unconsumed b p = unconsumed b' p + 1 := by
  simp only [WakeUps.step, hp] at h
  split at h
  · rename_i m hpc
    split_ifs at h
    cases h
    refine ⟨fun q => ?_, update_self _ _ _, fun q hq => ⟨update_of_ne hq _ _, ?_⟩, ?_⟩
    · by_cases hq : q = p
      · subst hq
        rcases hown q with ⟨hval, hlist, -⟩ | ⟨-, -, -, hno⟩
        · exact Or.inl ⟨hval, hlist, fun _ => hup⟩
        · rw [hup] at hno
          exact absurd hno (by simp)
      · simpa only [OwnSem, update_of_ne hq] using hown q
    · simp only [unconsumed, update_of_ne hq]
    · simp [unconsumed, hpc, hup]
  · cases h

theorem posts_step {m : T} : ∀ {l : List T} {b b' : WakeUps.State T T}, (∀ p, OwnSem b p) →
    l.foldlM (fun b _ => WakeUps.step P b (.post c m)) b = some b' →
    (∀ p, OwnSem b' p) ∧ ∀ p, unconsumed b' p = unconsumed b p + if p = m then l.length else 0
  | [], b, b', hown, h => by
    cases h
    exact ⟨hown, fun p => by simp⟩
  | _ :: l, b, b', hown, h => by
    rw [foldlM_cons] at h
    obtain ⟨b₁, h₁, h⟩ := bind_eq_some_iff.mp h
    obtain ⟨hown₁, -, hunc₁⟩ := post_step hown h₁
    obtain ⟨hown₂, hunc₂⟩ := posts_step hown₁ h
    refine ⟨hown₂, fun p => ?_⟩
    rw [hunc₂, hunc₁, length_cons]
    split_ifs <;> omega

/-! ### The books -/

variable {F : Family T}

/-- The processes that will still post `p.childexit`. -/
def pending (s : State T) (p : T) : ℕ := s.exiting.countP fun q => s.parent q = some p

/-- The post that `p` has consumed and not used yet. -/
def inHand (s : State T) (p : T) : ℕ := if s.pc p = .reaping then 1 else 0

/-- **The books**: the zombies of a process are those that have posted and those that will. A process
that exits without zombies has no posts. -/
structure Counts (strict : Prop) (s : State T) : Prop where
  own : ∀ p, OwnSem s.base p
  count : ∀ p, (s.pc p).dying = false →
    (s.zombies p).length = unconsumed s.base p + inHand s p + pending s p
  dead : strict → ∀ p, (s.pc p).dying = true → unconsumed s.base p = 0 ∧ pending s p = 0

/-- No process exits while a zombie on its list is between the sections of its own `exit`. -/
def Orderly (s : State T) : Label T → Prop
  | .exit c _ => ∀ z ∈ s.zombies (s.this c), s.pc z ≠ .exiting
  | _ => True

def Childless (s : State T) : Label T → Prop
  | .exit c _ => s.zombies (s.this c) = []
  | _ => True

theorem counts_boot (strict : Prop) : Counts strict (boot F) where
  own p := Or.inl ⟨le_rfl, rfl, fun h => absurd rfl h⟩
  count p hp := by
    simp only [boot, inHand, pending, unconsumed, WakeUps.boot, Sem.init]
    split_ifs <;> simp_all
  dead _ p hp := by
    simp only [boot] at hp
    split_ifs at hp <;> simp [Pc.dying] at hp

namespace Counts

variable {strict : Prop} {s s' : State T}

theorem congr (h : Counts strict s) (hown : ∀ p, OwnSem s'.base p)
    (hdying : ∀ p, (s'.pc p).dying = (s.pc p).dying) (hz : s'.zombies = s.zombies)
    (hpend : ∀ p, pending s' p = pending s p)
    (hunc : ∀ p, unconsumed s'.base p + inHand s' p = unconsumed s.base p + inHand s p) :
    Counts strict s' where
  own := hown
  count p hp := by
    rw [hz, hpend, hunc]
    exact h.count p (hdying p ▸ hp)
  dead hst p hp := by
    have hin : inHand s' p = 0 := if_neg fun he => by rw [he] at hp; exact absurd hp (by simp [Pc.dying])
    obtain ⟨hu, hpe⟩ := h.dead hst p (hdying p ▸ hp)
    have hin' : inHand s p = 0 :=
      if_neg fun he => by rw [hdying, he] at hp; exact absurd hp (by simp [Pc.dying])
    have hs := hunc p
    rw [hpend]
    omega

theorem quiet (h : Counts strict s) (hq : Quiet s.base base) {b : Pc}
    (hdying : b.dying = (s.pc p).dying) (hb : b ≠ .reaping) (hp : s.pc p ≠ .reaping) :
    Counts strict (State.setPc { s with base := base } p b) := by
  refine h.congr (fun t => hq.ownSem (h.own t)) (fun t => ?_) rfl (fun t => rfl) fun t => ?_
  · simp only [State.setPc, update_apply]
    split_ifs with ht
    · rw [ht, hdying]
    · rfl
  · have hin : inHand (State.setPc { s with base := base } p b) t = inHand s t := by
      simp only [inHand, State.setPc, update_apply]
      by_cases ht : t = p
      · simp [ht, hb, hp]
      · simp [ht]
    rw [hin]
    exact congrArg (· + _) (hq.unconsumed t)

theorem lower (h : Counts strict s) (hq : Quiet s.base base) :
    Counts strict { s with base := base } :=
  h.congr (fun t => hq.ownSem (h.own t)) (fun _ => rfl) rfl (fun _ => rfl)
    fun t => congrArg (· + _) (hq.unconsumed t)

theorem fork (h : Counts strict s) (ht : Tree F s) {q : T} (hq : s.pc q = .unborn) :
    Counts strict ((s.setParentToThis p q).setPc q .created) := by
  refine h.congr h.own (fun t => ?_) rfl (fun t => ?_) fun t => ?_
  · simp only [State.setPc, State.setParentToThis, update_apply]
    split_ifs with htq
    · rw [htq, hq]; rfl
    · rfl
  · refine countP_congr fun x hx => ?_
    have hxq : x ≠ q := by
      rintro rfl
      have hx' := (ht.exiting x).mp hx
      rw [hq] at hx'
      exact absurd hx' (by simp)
    simp only [State.setPc, State.setParentToThis, update_of_ne hxq]
  · simp only [inHand, State.setPc, State.setParentToThis, update_apply]
    split_ifs <;> simp_all

theorem take (h : Counts strict s) (hp : s.pc p = .waiting)
    (hown : ∀ q, OwnSem base q) (hother : ∀ q, q ≠ p → unconsumed base q = unconsumed s.base q)
    (hself : unconsumed s.base p = unconsumed base p + 1) :
    Counts strict (State.setPc { s with base := base } p .reaping) := by
  refine h.congr hown (fun t => ?_) rfl (fun t => rfl) fun t => ?_
  · simp only [State.setPc, update_apply]
    split_ifs with ht
    · rw [ht, hp]; rfl
    · rfl
  · simp only [inHand, State.setPc, update_apply]
    by_cases ht : t = p
    · subst ht
      simp only [hp, if_true, reduceCtorEq, if_false]
      omega
    · simp only [if_neg ht, hother t ht]

theorem reap (h : Counts strict s) {z : T} {rest : List T} (hp : s.pc p = .reaping)
    (hz : s.zombies p = z :: rest) (reaped : List (T × ℤ)) : Counts strict (State.setPc { s with
      zombies := update s.zombies p rest, reaped := reaped } p .user) := by
  have hdying : ∀ t, (update s.pc p .user t).dying = (s.pc t).dying := view_update Pc.dying (by rw [hp]; rfl)
  refine ⟨h.own, fun t ht => ?_, fun hst t ht => ?_⟩
  · have hcount := h.count t (by rw [← hdying]; exact ht)
    change (update s.zombies p rest t).length = unconsumed s.base t +
      (if update s.pc p .user t = .reaping then 1 else 0) + pending s t
    simp only [inHand] at hcount
    by_cases htp : t = p
    · subst htp
      simp only [update_self, hp, if_true, reduceCtorEq, if_false, hz, length_cons]
        at hcount ⊢
      omega
    · simp only [update_of_ne htp]
      exact hcount
  · exact h.dead hst t (by rw [← hdying]; exact ht)

theorem notify (h : Counts strict s) (ht : Tree F s) (hp : s.pc p = .exiting)
    (hr : s.parent p = some r) (hown : ∀ q, OwnSem base q)
    (hunc : ∀ q, unconsumed base q = unconsumed s.base q + if q = r then 1 else 0) :
    Counts strict (State.setPc { s with base := base, exiting := s.exiting.erase p } p .posted) := by
  have hmem : p ∈ s.exiting := (ht.exiting p).mpr hp
  have hpend : ∀ x, pending s x =
      pending (State.setPc { s with base := base, exiting := s.exiting.erase p } p .posted) x +
        if x = r then 1 else 0 := by
    intro x
    have hperm := (perm_cons_erase hmem).countP_eq fun q => s.parent q = some x
    simp only [pending, State.setPc]
    rw [hperm, countP_cons]
    simp [hr, eq_comm]
  have hdying : ∀ t, (update s.pc p .posted t).dying = (s.pc t).dying := view_update Pc.dying (by rw [hp]; rfl)
  have hin : ∀ t, inHand (State.setPc { s with base := base, exiting := s.exiting.erase p } p .posted) t =
      inHand s t := by
    intro t
    simp only [inHand, State.setPc, update_apply]
    by_cases ht : t = p
    · simp [ht, hp]
    · simp [ht]
  refine ⟨hown, fun t htd => ?_, fun hst t htd => ?_⟩
  · have hcount := h.count t (by rw [← hdying]; exact htd)
    have hpe := hpend t
    have hu := hunc t
    rw [hin]
    simp only [State.setPc] at hcount hpe hu ⊢
    omega
  · obtain ⟨hu0, hp0⟩ := h.dead hst t (by rw [← hdying]; exact htd)
    have hpe := hpend t
    have hu := hunc t
    have hne : t ≠ r := by
      rintro rfl
      rw [if_pos rfl] at hpe
      omega
    rw [if_neg hne] at hpe hu
    exact ⟨hu.trans (by omega), by omega⟩

omit [DecidableEq T] in
theorem not_dying_parent (ht : Tree F s) (hp : s.pc p = .user) (hroot : p ≠ F.root)
    (hr : s.parent p = some r) : (s.pc r).dying = false := by
  obtain ⟨x, hx⟩ := ht.home p hroot (by rw [hp]; rfl) (by rw [hp]; simp)
  obtain rfl : x = r := some.inj ((ht.child x p hx).1.symm.trans hr)
  by_contra hd
  rw [ht.emptied x (by simpa using hd)] at hx
  exact absurd hx (by simp)

theorem length_zombies_exited (code : ℤ) (base : WakeUps.State T T) {x : T} (hx : x ≠ p) :
    ((exited F s p r code base).zombies x).length = (s.zombies x).length +
      (if x = F.root then (s.zombies p).length else 0) + if x = r then 1 else 0 := by
  have hover : (handOver s.zombies F.root p x).length =
      (s.zombies x).length + if x = F.root then (s.zombies p).length else 0 := by
    unfold handOver
    rw [update_of_ne hx]
    by_cases hxr : x = F.root
    · subst hxr
      rw [update_self, length_append, if_pos rfl]
    · rw [update_of_ne hxr, if_neg hxr, Nat.add_zero]
  simp only [exited, State.setPc]
  by_cases hxr : x = r
  · subst hxr
    rw [update_self, length_append, hover, if_pos rfl]
    rfl
  · rw [update_of_ne hxr, hover, if_neg hxr, Nat.add_zero]

theorem pending_exited (ht : Tree F s) (hroot : p ≠ F.root) (hr : s.parent p = some r)
    (hord : ∀ z ∈ s.zombies p, s.pc z ≠ .exiting) (code : ℤ) (base : WakeUps.State T T) (x : T) :
    pending (exited F s p r code base) x = pending s x + if x = r then 1 else 0 := by
  have hkeep : ∀ q, (q ∈ s.exiting ∨ q = p) →
      (exited F s p r code base).parent q = s.parent q := by
    intro q hq
    refine if_neg ?_
    rintro (hm | hm)
    · rcases hq with hq | rfl
      · have hd := (ht.child p q hm).2.1
        rw [(ht.exiting q).mp hq] at hd
        exact absurd hd (by simp [Pc.dying])
      · exact ht.not_own_child hroot hm
    · rcases hq with hq | rfl
      · exact hord q hm ((ht.exiting q).mp hq)
      · exact ht.not_own_zombie hroot hm
  change List.countP _ (s.exiting ++ [p]) = _
  rw [countP_append, countP_cons, countP_nil, hkeep p (Or.inr rfl), hr]
  congr 1
  · exact countP_congr fun q hq => by rw [hkeep q (Or.inl hq)]
  · simp [eq_comm]

theorem exit (h : Counts strict s) (ht : Tree F s) (hp : s.pc p = .user) (hroot : p ≠ F.root)
    (hr : s.parent p = some r) (hord : ∀ z ∈ s.zombies p, s.pc z ≠ .exiting)
    (hstrict : strict → s.zombies p = []) (hown : ∀ q, OwnSem base q)
    (hunc : ∀ q, unconsumed base q = unconsumed s.base q +
      if q = F.root then (s.zombies p).length else 0) (code : ℤ) :
    Counts strict (exited F s p r code base) := by
  have hne := ht.ne_parent hroot hr
  have hrd := not_dying_parent ht hp hroot hr
  have hpc : ∀ t, t ≠ p → (exited F s p r code base).pc t = s.pc t :=
    fun t ht => update_of_ne ht _ _
  have hpend := pending_exited ht hroot hr hord code base
  refine ⟨hown, fun x hx => ?_, fun hst x hx => ?_⟩
  · have hxp : x ≠ p := by
      rintro rfl
      exact absurd (hx.symm.trans (congrArg Pc.dying (update_self _ _ _))) (by simp [Pc.dying])
    rw [hpc x hxp] at hx
    have hcount := h.count x hx
    have hin : inHand (exited F s p r code base) x = inHand s x := by simp only [inHand, hpc x hxp]
    have hu : unconsumed (exited F s p r code base).base x = _ := hunc x
    rw [length_zombies_exited code base hxp, hpend, hin, hu]
    omega
  · have hu : unconsumed (exited F s p r code base).base x = _ := hunc x
    rw [hpend, hu]
    by_cases hxp : x = p
    · subst hxp
      have hcount := h.count x (by rw [hp]; rfl)
      rw [hstrict hst, length_nil] at hcount
      rw [if_neg hroot, if_neg hne.symm]
      omega
    · rw [hpc x hxp] at hx
      have hxroot : x ≠ F.root := by
        rintro rfl
        rw [ht.root.1] at hx
        exact absurd hx (by simp)
      have hxr : x ≠ r := by
        rintro rfl
        rw [hrd] at hx
        exact absurd hx (by simp)
      rw [if_neg hxroot, if_neg hxr]
      exact h.dead hst x hx

end Counts

theorem counts_step {strict : Prop} {s s' : State T} {l : Label T} (ht : Tree F s)
    (h : Counts strict s) (hord : Orderly s l) (hstrict : strict → Childless s l)
    (hs : step F s l = some s') : Counts strict s' := by
  cases l with
  | fork c q =>
    simp only [step] at hs
    split_ifs at hs with hc
    cases hs
    exact h.fork ht hc.2.1
  | start q =>
    obtain ⟨hc, base, hbase, rfl⟩ := lower_some hs
    exact h.quiet (quiet_step hbase trivial) (by rw [hc]; rfl) (by simp) (by rw [hc]; simp)
  | wait c =>
    simp only [step] at hs
    split_ifs at hs with hc
    cases hs
    exact h.quiet ⟨rfl, rfl, fun _ => Iff.rfl⟩ (by rw [hc.1]; rfl) (by simp) (by rw [hc.1]; simp)
  | waitSem c =>
    obtain ⟨hc, base, hbase, rfl⟩ := lower_some hs
    obtain ⟨hown, hother, hself⟩ := wait_step (p := s.this c) rfl h.own hbase
    split_ifs with hout
    · exact h.take hc hown (fun q hq => (hother q hq).2) (by rw [hself]; exact congrArg _ (if_pos hout))
    · refine h.congr hown (fun _ => rfl) rfl (fun _ => rfl) fun q => congrArg (· + _) ?_
      by_cases hq : q = s.this c
      · have hself' : unconsumed s.base (s.this c) = unconsumed base (s.this c) :=
          hself.trans (congrArg _ (if_neg hout))
        rw [hq, hself']
      · exact (hother q hq).2
  | unlock c =>
    obtain ⟨hc, base, hbase, rfl⟩ := lower_of_guard hs
    exact h.lower (quiet_step hbase trivial)
  | sleep c =>
    obtain ⟨hc, base, hbase, rfl⟩ := lower_of_guard hs
    exact h.lower (quiet_step hbase trivial)
  | finish c =>
    obtain ⟨hc, base, hbase, rfl⟩ := lower_some hs
    obtain ⟨hown, -, hother, hself⟩ := finish_step (p := s.this c) rfl h.own hc.2 hbase
    exact h.take hc.1 hown (fun q hq => (hother q hq).2) hself
  | reap c =>
    simp only [step] at hs
    split_ifs at hs with hc
    split at hs
    · cases hs
    · rename_i z rest hz
      cases hs
      exact h.reap hc hz _
  | exit c code =>
    obtain ⟨r, base, hp, hroot, hr, -, -, hbase, rfl⟩ := ht.exit_cases hs
    obtain ⟨hown, hunc⟩ := posts_step h.own hbase
    exact h.exit ht hp hroot hr hord hstrict hown hunc code
  | notify c =>
    obtain ⟨hc, hs⟩ := ite_none_right_eq_some.mp hs
    obtain ⟨r, hr, hs⟩ := bind_eq_some_iff.mp hs
    obtain ⟨base, hbase, rfl⟩ := lower_bind hs
    obtain ⟨hown, -, hunc⟩ := post_step h.own hbase
    exact h.notify ht hc hr hown hunc
  | zombie c =>
    obtain ⟨hc, base, hbase, rfl⟩ := lower_some hs
    exact h.quiet (quiet_step hbase trivial) (by rw [hc]; rfl) (by simp) (by rw [hc]; simp)
  | other l =>
    obtain ⟨hc, base, hbase, rfl⟩ := lower_of_guard hs
    refine h.lower (quiet_step hbase ?_)
    cases l <;> trivial

/-- **`childexit` counts zombies** in the runs in which no process exits while a zombie on its list is
between the sections of its own `exit`: of a process that has not exited, the posts not consumed and the
one in hand are no more than its zombies, so that its `wait` finds one. If moreover no process exits with
zombies on its list, the posts not consumed of any process are no more than its zombies. -/
theorem childexit_counts {C : State T → Label T → Prop} (hC : ∀ s l, C s l → Orderly s l)
    {ls : List (Label T)} {s : State T} (hrun : Run (step F) C (boot F) ls s) :
    (∀ p, (s.pc p).dying = false → unconsumed s.base p + inHand s p ≤ (s.zombies p).length) ∧
    (∀ p, s.pc p = .reaping → s.zombies p ≠ []) ∧
    ((∀ s l, C s l → Childless s l) → ∀ p, unconsumed s.base p ≤ (s.zombies p).length) := by
  have h : Tree F s ∧ Counts (∀ s l, C s l → Childless s l) s := by
    refine hrun.inv (I := fun s => Tree F s ∧ Counts (∀ s l, C s l → Childless s l) s) ?_
      ⟨tree_boot, counts_boot _⟩
    exact fun s l s' hi hc hs =>
      ⟨tree_step hi.1 hs, counts_step hi.1 hi.2 (hC s l hc) (fun hst => hst s l hc) hs⟩
  obtain ⟨-, h⟩ := h
  refine ⟨fun p hp => by rw [h.count p hp]; omega, fun p hp hnil => ?_, fun hst p => ?_⟩
  · have hcount := h.count p (by rw [hp]; rfl)
    rw [hnil, inHand, if_pos hp, length_nil] at hcount
    omega
  · rcases hd : (s.pc p).dying with _ | _
    · have hcount := h.count p hd
      omega
    · have hu := (h.dead hst p hd).1
      omega

/-- A test for `Childless`. -/
def childlessTest (s : State T) : Label T → Bool
  | .exit c _ => s.zombies (s.this c) = []
  | _ => true

omit [DecidableEq T] in
theorem childless_of_test (s : State T) (l : Label T) (h : childlessTest s l = true) :
    Childless s l := by
  cases l with
  | exit c code => simpa [childlessTest, Childless] using h
  | _ => trivial

omit [DecidableEq T] in
theorem orderly_of_childless (s : State T) (l : Label T) (h : Childless s l) : Orderly s l := by
  cases l with
  | exit c code =>
    intro z hz
    rw [show s.zombies (s.this c) = [] from h] at hz
    exact absurd hz (by simp)
  | _ => trivial

def oneChild : List (Label (Cpu ⊕ ℕ)) :=
  twoStarted ++ [.wait (cpuNo 1), .waitSem (cpuNo 1), .unlock (cpuNo 1), .sleep (cpuNo 1),
    .exit (cpuNo 2) 7, .notify (cpuNo 2), .zombie (cpuNo 2), .other (.schedule (cpuNo 1) .runnable),
    .finish (cpuNo 1)]

theorem childexit_counts_oneChild :
    ∃ s, Run (step numberedFamily) Childless (boot numberedFamily) oneChild s ∧
      s.zombies (.inr 1) ≠ [] := by
  have h : (exec (step numberedFamily) childlessTest (boot numberedFamily) oneChild).map
      (fun s => s.pc (.inr 1)) = some .reaping := by decide +kernel
  obtain ⟨s, hs, hpc⟩ := map_eq_some_iff.mp h
  have hrun := run_of_exec childless_of_test hs
  exact ⟨s, hrun, (childexit_counts orderly_of_childless hrun).2.1 _ hpc⟩

/-- Process 3 exits, and its parent 2 exits while it is between its sections: the root process gets two
posts for process 3. -/
def grandchild : List (Label (Cpu ⊕ ℕ)) :=
  twoStarted ++ [.fork (cpuNo 2) (.inr 3), .start (.inr 3), .other (.schedule (cpuNo 3) .runnable),
    .exit (cpuNo 3) 0, .exit (cpuNo 2) 0, .notify (cpuNo 3), .notify (cpuNo 2),
    .zombie (cpuNo 2), .zombie (cpuNo 3),
    .wait (cpuNo 1), .waitSem (cpuNo 1), .reap (cpuNo 1),
    .wait (cpuNo 1), .waitSem (cpuNo 1), .reap (cpuNo 1),
    .fork (cpuNo 1) (.inr 4), .wait (cpuNo 1)]

/-- **A post too many**: the root process has no zombie and a post not consumed, and the `wait_sem` of
its third `wait` succeeds. -/
theorem posted_twice :
    ∃ s s', Run (step numberedFamily) (fun _ _ => True) (boot numberedFamily) grandchild s ∧
      s.zombies (.inr 1) = [] ∧ unconsumed s.base (.inr 1) = 1 ∧
      step numberedFamily s (.waitSem (cpuNo 1)) = some s' ∧
      s'.pc (.inr 1) = .reaping ∧ s'.zombies (.inr 1) = [] := by
  have h : (exec (step numberedFamily) (fun _ _ => true) (boot numberedFamily) grandchild).map
      (fun s => ((s.zombies (.inr 1)).length, unconsumed s.base (.inr 1))) = some (0, 1) := by
    decide +kernel
  have h' : ((exec (step numberedFamily) (fun _ _ => true) (boot numberedFamily) grandchild).bind
      fun s => (step numberedFamily s (.waitSem (cpuNo 1)))).map
      (fun s => (s.pc (.inr 1), (s.zombies (.inr 1)).length)) = some (.reaping, 0) := by decide +kernel
  obtain ⟨s, hs, he⟩ := map_eq_some_iff.mp h
  rw [hs, bind_some] at h'
  obtain ⟨s', hs', he'⟩ := map_eq_some_iff.mp h'
  simp only [Prod.mk.injEq, length_eq_zero_iff] at he he'
  exact ⟨s, s', run_of_exec (fun _ _ _ => trivial) hs, he.1, he.2, hs', he'.1, he'.2⟩

end OsHonor.Processes.ChildExit
