import OsHonor.Processes.Lifecycle

/-! # The lists of children and zombies

What fork, exit and wait keep of the tree of the processes: a process is on the list of the parent it
names, among the children until it exits and among the zombies from then on; a process that exits has no
children left. Below, every step is at most a few steps of the semaphores and the scheduler. -/

namespace OsHonor.Processes.Families

open Option List Function Base.Runs Lifecycle
open Sched (Cpu)

variable {T : Type} [DecidableEq T] {F : Family T}

/-- **The invariant of the tree.** -/
structure Tree (F : Family T) (s : State T) : Prop where
  idle : ∀ t, F.idle t = true → s.pc t = .unborn
  outside : ∀ t, s.pc t ≠ .waiting → s.base.pc t = .outside
  root : (s.pc F.root).dying = false ∧ s.pc F.root ≠ .unborn
  born : ∀ q p, s.parent q = some p → s.pc p ≠ .unborn ∧ s.pc q ≠ .unborn
  self : ∀ q, q ≠ F.root → s.parent q ≠ some q
  child : ∀ p, ∀ q ∈ s.children p, s.parent q = some p ∧ (s.pc q).dying = false ∧ q ≠ F.root
  zombie : ∀ p, ∀ q ∈ s.zombies p, s.parent q = some p ∧ (s.pc q).dying = true
  home : ∀ q, q ≠ F.root → (s.pc q).dying = false → s.pc q ≠ .unborn → ∃ p, q ∈ s.children p
  nodup : ∀ p, (s.children p).Nodup
  emptied : ∀ p, (s.pc p).dying = true → s.children p = []
  exiting : ∀ q, q ∈ s.exiting ↔ s.pc q = .exiting
  once : s.exiting.Nodup

theorem tree_boot : Tree F (boot F) where
  idle t ht := by
    simp only [boot]
    rw [if_neg]
    rintro rfl
    rw [F.idle_root] at ht
    exact absurd ht (by simp)
  outside _ _ := rfl
  root := by simp [boot, Pc.dying]
  born q p h := by
    simp only [boot] at h ⊢
    split_ifs at h with hq
    rw [← some.inj h, if_pos rfl, if_pos hq]
    simp
  self q hq := by simp [boot, hq]
  child p q hq := by simp [boot] at hq
  zombie p q hq := by simp [boot] at hq
  home q hq hd hb := by simp [boot, hq] at hb
  nodup p := nodup_nil
  emptied p hp := rfl
  exiting q := by
    simp only [boot, not_mem_nil, false_iff]
    split_ifs <;> simp
  once := nodup_nil

/-- Two places of a process that the lists do not tell apart. -/
structure Alike (a b : Pc) : Prop where
  dying : b.dying = a.dying
  unborn : b = .unborn ↔ a = .unborn
  exiting : b = .exiting ↔ a = .exiting

variable {base : WakeUps.State T T} {q : T}

namespace Tree

variable {s : State T}

omit [DecidableEq T] in
theorem relabel (h : Tree F s) {pc : T → Pc} {exiting : List T}
    (hdying : ∀ t, (pc t).dying = (s.pc t).dying) (hunborn : ∀ t, pc t = .unborn ↔ s.pc t = .unborn)
    (hbase : ∀ t, pc t ≠ .waiting → base.pc t = .outside)
    (hexiting : ∀ t, t ∈ exiting ↔ pc t = .exiting) (honce : exiting.Nodup) :
    Tree F { s with base := base, pc := pc, exiting := exiting } := by
  refine ⟨fun t ht => (hunborn t).mpr (h.idle t ht), hbase, ?_, ?_, h.self, ?_, ?_, ?_, h.nodup, ?_,
    hexiting, honce⟩
  · simp only [hdying, ne_eq, hunborn]
    exact h.root
  · intro q r hq
    simp only [ne_eq, hunborn]
    exact h.born q r hq
  · intro r q hq
    simp only [hdying]
    exact h.child r q hq
  · intro r q hq
    simp only [hdying]
    exact h.zombie r q hq
  · intro q hq
    simp only [hdying, ne_eq, hunborn]
    exact h.home q hq
  · intro q
    simp only [hdying]
    exact h.emptied q

theorem move (h : Tree F s) {p : T} {b : Pc} (hb : Alike (s.pc p) b)
    (hother : ∀ t, t ≠ p → base.pc t = s.base.pc t) (hself : b ≠ .waiting → base.pc p = .outside) :
    Tree F (State.setPc { s with base := base } p b) := by
  refine h.relabel (view_update Pc.dying hb.dying) ?_ ?_ ?_ h.once
  · exact fun t => iff_of_eq (view_update (· = Pc.unborn) (propext hb.unborn) t)
  · intro t ht
    by_cases htp : t = p
    · subst htp
      rw [update_self] at ht
      exact hself ht
    · rw [update_of_ne htp] at ht
      rw [hother t htp]
      exact h.outside t ht
  · exact fun t => (h.exiting t).trans (iff_of_eq (view_update (· = Pc.exiting) (propext hb.exiting) t)).symm

omit [DecidableEq T] in
theorem lower (h : Tree F s)
    (hbase : ∀ t, s.pc t ≠ .waiting → base.pc t = .outside) : Tree F { s with base := base } :=
  ⟨h.idle, hbase, h.root, h.born, h.self, h.child, h.zombie, h.home, h.nodup, h.emptied, h.exiting,
    h.once⟩

theorem fork (h : Tree F s) {p : T} (hp : s.pc p = .user) (hq : s.pc q = .unborn)
    (hidle : F.idle q = false) : Tree F ((s.setParentToThis p q).setPc q .created) := by
  have hqp : p ≠ q := by
    rintro rfl
    rw [hp] at hq
    exact absurd hq (by simp)
  have hroot : q ≠ F.root := by
    rintro rfl
    exact h.root.2 hq
  have hnot : ∀ r, q ∉ s.children r := fun r hr => (h.born q r (h.child r q hr).1).2 hq
  have hpar : ∀ r t, t ≠ q → (update s.parent q (some p) t = some r ↔ s.parent t = some r) := by
    intro r t ht
    rw [update_of_ne ht]
  have hchild : ∀ r t, t ∈ update s.children p (s.children p ++ [q]) r ↔
      t ∈ s.children r ∨ (t = q ∧ r = p) := by
    intro r t
    by_cases hr : r = p
    · subst hr; simp
    · simp [hr]
  have hpc : ∀ t, t ≠ q → update s.pc q .created t = s.pc t :=
    fun t ht => update_of_ne ht _ _
  refine ⟨?_, ?_, ?_, ?_, ?_, ?_, ?_, ?_, ?_, ?_, ?_, h.once⟩
  · intro t ht
    have hne : t ≠ q := by
      rintro rfl
      rw [hidle] at ht
      exact absurd ht (by simp)
    simp only [State.setPc, State.setParentToThis, hpc t hne]
    exact h.idle t ht
  · intro t ht
    refine h.outside t fun hw => ht ?_
    have hne : t ≠ q := by
      rintro rfl
      rw [hq] at hw
      exact absurd hw (by simp)
    simp only [State.setPc, State.setParentToThis, hpc t hne]
    exact hw
  · simp only [State.setPc, State.setParentToThis, hpc _ hroot.symm]
    exact h.root
  · intro t r ht
    simp only [State.setPc, State.setParentToThis] at ht ⊢
    by_cases htq : t = q
    · subst htq
      rw [update_self] at ht
      cases ht
      rw [hpc p hqp, hp, update_self]
      simp
    · rw [update_of_ne htq] at ht
      obtain ⟨hr, ht'⟩ := h.born t r ht
      have hrq : r ≠ q := by
        rintro rfl
        exact hr hq
      rw [hpc r hrq, hpc t htq]
      exact ⟨hr, ht'⟩
  · intro t ht
    simp only [State.setPc, State.setParentToThis]
    by_cases htq : t = q
    · subst htq
      rw [update_self]
      exact fun he => hqp (some.inj he)
    · rw [update_of_ne htq]
      exact h.self t ht
  · intro r t ht
    simp only [State.setPc, State.setParentToThis] at ht ⊢
    rcases (hchild r t).mp ht with hr | ⟨rfl, rfl⟩
    · have htq : t ≠ q := by
        rintro rfl
        exact hnot r hr
      rw [update_of_ne htq, hpc t htq]
      exact h.child r t hr
    · simp [Pc.dying, hroot]
  · intro r t ht
    obtain ⟨hpar, hd⟩ := h.zombie r t ht
    have htq : t ≠ q := by
      rintro rfl
      rw [hq] at hd
      exact absurd hd (by simp [Pc.dying])
    simp only [State.setPc, State.setParentToThis]
    rw [update_of_ne htq, hpc t htq]
    exact ⟨hpar, hd⟩
  · intro t ht hd hb
    simp only [State.setPc, State.setParentToThis] at hd hb ⊢
    by_cases htq : t = q
    · exact ⟨p, (hchild p t).mpr (Or.inr ⟨htq, rfl⟩)⟩
    · rw [hpc t htq] at hd hb
      obtain ⟨r, hr⟩ := h.home t ht hd hb
      exact ⟨r, (hchild r t).mpr (Or.inl hr)⟩
  · intro r
    simp only [State.setPc, State.setParentToThis]
    by_cases hr : r = p
    · subst hr
      rw [update_self]
      refine nodup_append.mpr ⟨h.nodup r, nodup_singleton q, ?_⟩
      intro t ht t' ht'
      rw [mem_singleton.mp ht']
      rintro rfl
      exact hnot r ht
    · rw [update_of_ne hr]
      exact h.nodup r
  · intro r hr
    simp only [State.setPc, State.setParentToThis] at hr ⊢
    have hrq : r ≠ q := by
      rintro rfl
      rw [update_self] at hr
      exact absurd hr (by simp [Pc.dying])
    have hrp : r ≠ p := by
      rintro rfl
      rw [hpc r hrq, hp] at hr
      exact absurd hr (by simp [Pc.dying])
    rw [hpc r hrq] at hr
    rw [update_of_ne hrp]
    exact h.emptied r hr
  · intro t
    simp only [State.setPc, State.setParentToThis]
    rw [h.exiting]
    by_cases htq : t = q
    · subst htq
      simp [hq]
    · rw [hpc t htq]

theorem reap (h : Tree F s) {p z : T} {rest : List T} (hp : s.pc p = .reaping)
    (hz : s.zombies p = z :: rest) (reaped : List (T × ℤ)) : Tree F (State.setPc { s with
      zombies := update s.zombies p rest, reaped := reaped } p .user) := by
  have hsub : ∀ r, ∀ t ∈ update s.zombies p rest r, t ∈ s.zombies r := by
    intro r t ht
    by_cases hr : r = p
    · subst hr
      rw [update_self] at ht
      rw [hz]
      exact mem_cons_of_mem z ht
    · rwa [update_of_ne hr] at ht
  have h₁ : Tree F { s with zombies := update s.zombies p rest, reaped := reaped } :=
    ⟨h.idle, h.outside, h.root, h.born, h.self, h.child, fun r t ht => h.zombie r t (hsub r t ht),
      h.home, h.nodup, h.emptied, h.exiting, h.once⟩
  refine h₁.move ?_ (fun _ _ => rfl) fun _ => h.outside p (by rw [hp]; simp)
  change Alike (s.pc p) .user
  rw [hp]
  exact ⟨rfl, by simp, by simp⟩

theorem notify (h : Tree F s) {p : T} (hp : s.pc p = .exiting) (hbase : base.pc = s.base.pc) :
    Tree F (State.setPc { s with base := base, exiting := s.exiting.erase p } p .posted) := by
  have hpc : ∀ t, t ≠ p → update s.pc p .posted t = s.pc t :=
    fun t ht => update_of_ne ht _ _
  refine h.relabel (fun t => ?_) (fun t => ?_) (fun t ht => ?_) (fun t => ?_)
    (h.once.sublist erase_sublist)
  · by_cases ht : t = p
    · rw [ht, update_self, hp]; rfl
    · rw [hpc t ht]
  · by_cases ht : t = p
    · rw [ht, update_self, hp]; simp
    · rw [hpc t ht]
  · rw [hbase]
    refine h.outside t fun hw => ht ?_
    rw [hpc t (by rintro rfl; rw [hp] at hw; exact absurd hw (by simp))]
    exact hw
  · rw [h.once.mem_erase_iff, h.exiting]
    by_cases ht : t = p
    · simp [ht]
    · simp [ht]

end Tree

/-! ### Exit -/

theorem mem_handOver {l : T → List T} {root p x : T} (hp : p ≠ root) :
    q ∈ handOver l root p x ↔ x ≠ p ∧ (q ∈ l x ∨ (x = root ∧ q ∈ l p)) := by
  unfold handOver
  by_cases hx : x = p
  · simp [hx]
  · by_cases hr : x = root
    · subst hr
      simp [hx]
    · simp [hx, hr]

/-- The state after the first section of `exit`. -/
def exited (F : Family T) (s : State T) (p r : T) (code : ℤ) (base : WakeUps.State T T) : State T :=
  State.setPc { s with
    base
    parent := fun q => if q ∈ s.children p ∨ q ∈ s.zombies p then some F.root else s.parent q
    exitcode := update s.exitcode p code
    children := update (handOver s.children F.root p) r ((handOver s.children F.root p r).erase p)
    zombies := update (handOver s.zombies F.root p) r (handOver s.zombies F.root p r ++ [p])
    exiting := s.exiting ++ [p] } p .exiting

namespace Tree

variable {s : State T} {p r : T}

omit [DecidableEq T] in
theorem not_own_child (h : Tree F s) (hroot : p ≠ F.root) : p ∉ s.children p :=
  fun hp => h.self p hroot (h.child p p hp).1

omit [DecidableEq T] in
theorem not_own_zombie (h : Tree F s) (hroot : p ≠ F.root) : p ∉ s.zombies p :=
  fun hp => h.self p hroot (h.zombie p p hp).1

theorem exit_cases (h : Tree F s) {c : Cpu} {code : ℤ} {s' : State T}
    (hs : step F s (.exit c code) = some s') :
    ∃ r base, s.pc (s.this c) = .user ∧ s.this c ≠ F.root ∧ s.parent (s.this c) = some r ∧
      (s.children (s.this c)).length ≤ 1 ∧ (s.zombies (s.this c)).length ≤ 1 ∧
      (s.zombies (s.this c)).foldlM (fun b _ => WakeUps.step F.toProcs b (.post c F.root)) s.base =
        some base ∧ s' = exited F s (s.this c) r code base := by
  simp only [step] at hs
  split_ifs at hs with hguard
  obtain ⟨hp, hroot⟩ := hguard
  obtain ⟨s₁, hs₁, hs⟩ := bind_eq_some_iff.mp hs
  simp only [State.transferChildren] at hs₁
  split_ifs at hs₁ with hlen
  obtain ⟨base, hbase, hs₁⟩ := bind_eq_some_iff.mp hs₁
  cases hs₁
  obtain ⟨r, hr, hs⟩ := bind_eq_some_iff.mp hs
  have hnot : ¬ (s.this c ∈ s.children (s.this c) ∨ s.this c ∈ s.zombies (s.this c)) :=
    not_or.mpr ⟨h.not_own_child hroot, h.not_own_zombie hroot⟩
  simp only [if_neg hnot] at hr
  cases hs
  exact ⟨r, base, hp, hroot, hr, by omega, by omega, hbase, rfl⟩

omit [DecidableEq T] in
theorem ne_parent (h : Tree F s) (hroot : p ≠ F.root) (hr : s.parent p = some r) : r ≠ p := by
  rintro rfl
  exact h.self r hroot hr

theorem children_exited (h : Tree F s) (hroot : p ≠ F.root) (hr : s.parent p = some r) (code : ℤ)
    (base : WakeUps.State T T) : (∀ x, ((exited F s p r code base).children x).Nodup) ∧
    ∀ x q, q ∈ (exited F s p r code base).children x ↔
      q ≠ p ∧ x ≠ p ∧ (q ∈ s.children x ∨ (x = F.root ∧ q ∈ s.children p)) := by
  have hnd : ∀ x, (handOver s.children F.root p x).Nodup := by
    intro x
    unfold handOver
    by_cases hx : x = p
    · simp [hx]
    · by_cases hxr : x = F.root
      · subst hxr
        rw [update_of_ne hx, update_self]
        refine nodup_append.mpr ⟨h.nodup _, h.nodup p, fun q hq q' hq' he => hx ?_⟩
        exact some.inj ((h.child _ q hq).1.symm.trans (he ▸ (h.child p q' hq').1))
      · rw [update_of_ne hx, update_of_ne hxr]
        exact h.nodup x
  refine ⟨fun x => ?_, fun x q => ?_⟩
  · by_cases hx : x = r
    · subst hx
      simp only [exited, State.setPc, update_self]
      exact (hnd x).sublist erase_sublist
    · simp only [exited, State.setPc, update_of_ne hx]
      exact hnd x
  · simp only [exited, State.setPc]
    by_cases hx : x = r
    · subst hx
      rw [update_self, (hnd x).mem_erase_iff, mem_handOver hroot]
    · rw [update_of_ne hx, mem_handOver hroot]
      refine ⟨fun ⟨hxp, hq⟩ => ⟨?_, hxp, hq⟩, And.right⟩
      rintro rfl
      rcases hq with hq | ⟨-, hq⟩
      · exact hx (some.inj ((h.child x q hq).1.symm.trans hr))
      · exact h.not_own_child hroot hq

theorem mem_zombies_exited (hroot : p ≠ F.root) (hne : r ≠ p) {code : ℤ} {x : T} :
    q ∈ (exited F s p r code base).zombies x ↔
      (x = r ∧ q = p) ∨ (x ≠ p ∧ (q ∈ s.zombies x ∨ (x = F.root ∧ q ∈ s.zombies p))) := by
  simp only [exited, State.setPc]
  by_cases hx : x = r
  · subst hx
    rw [update_self, mem_append, mem_handOver hroot, mem_singleton]
    tauto
  · rw [update_of_ne hx, mem_handOver hroot]
    tauto

theorem exit (h : Tree F s) (hp : s.pc p = .user) (hroot : p ≠ F.root) (hr : s.parent p = some r) (hbase : base.pc = s.base.pc) (code : ℤ) :
    Tree F (exited F s p r code base) := by
  have hne := h.ne_parent hroot hr
  obtain ⟨hnd, hchild⟩ := h.children_exited hroot hr code base
  have hpc : ∀ t, t ≠ p → (exited F s p r code base).pc t = s.pc t :=
    fun t ht => update_of_ne ht _ _
  have hpcp : (exited F s p r code base).pc p = .exiting := update_self _ _ _
  have hkeep : ∀ x q, x ≠ p → s.parent q = some x → (exited F s p r code base).parent q = some x := by
    intro x q hx hq
    refine (if_neg ?_).trans hq
    rintro (hq' | hq')
    · exact hx (some.inj (hq.symm.trans (h.child p q hq').1))
    · exact hx (some.inj (hq.symm.trans (h.zombie p q hq').1))
  have hmoved : ∀ q, q ∈ s.children p ∨ q ∈ s.zombies p →
      (exited F s p r code base).parent q = some F.root := fun q hq => if_pos hq
  have hnd' : ∀ t, (s.pc t).dying = true → t ≠ p := by
    rintro t ht rfl
    rw [hp] at ht
    exact absurd ht (by simp [Pc.dying])
  refine ⟨?_, ?_, ?_, ?_, ?_, ?_, ?_, ?_, hnd, ?_, ?_, ?_⟩
  · intro t ht
    have hu := h.idle t ht
    rw [hpc t (by rintro rfl; rw [hp] at hu; exact absurd hu (by simp))]
    exact hu
  · intro t ht
    change base.pc t = _
    rw [hbase]
    refine h.outside t fun hw => ht ?_
    rw [hpc t (by rintro rfl; rw [hp] at hw; exact absurd hw (by simp))]
    exact hw
  · rw [hpc _ hroot.symm]
    exact h.root
  · have hborn : ∀ t, s.pc t ≠ .unborn → (exited F s p r code base).pc t ≠ .unborn := by
      intro t ht
      by_cases htp : t = p
      · rw [htp, hpcp]; simp
      · rw [hpc t htp]; exact ht
    intro q x hq
    by_cases hm : q ∈ s.children p ∨ q ∈ s.zombies p
    · have hx := (hmoved q hm).symm.trans hq
      cases hx
      have hqp : s.parent q = some p := by
        rcases hm with hm | hm
        · exact (h.child p q hm).1
        · exact (h.zombie p q hm).1
      exact ⟨hborn _ h.root.2, hborn q (h.born q p hqp).2⟩
    · have hq' : s.parent q = some x := (if_neg hm).symm.trans hq
      exact ⟨hborn x (h.born q x hq').1, hborn q (h.born q x hq').2⟩
  · intro q hq he
    by_cases hm : q ∈ s.children p ∨ q ∈ s.zombies p
    · exact hq (some.inj ((hmoved q hm).symm.trans he)).symm
    · exact h.self q hq ((if_neg hm).symm.trans he)
  · intro x q hq
    obtain ⟨hqp, hxp, hmem⟩ := (hchild x q).mp hq
    rw [hpc q hqp]
    rcases hmem with hmem | ⟨rfl, hmem⟩
    · obtain ⟨hpar, hd, hqr⟩ := h.child x q hmem
      exact ⟨hkeep x q hxp hpar, hd, hqr⟩
    · obtain ⟨-, hd, hqr⟩ := h.child p q hmem
      exact ⟨hmoved q (Or.inl hmem), hd, hqr⟩
  · intro x q hq
    rcases (mem_zombies_exited hroot hne).mp hq with ⟨rfl, rfl⟩ | ⟨hxp, hmem | ⟨rfl, hmem⟩⟩
    · exact ⟨hkeep x q hne hr, by rw [hpcp]; rfl⟩
    · obtain ⟨hpar, hd⟩ := h.zombie x q hmem
      rw [hpc q (hnd' q hd)]
      exact ⟨hkeep x q hxp hpar, hd⟩
    · obtain ⟨-, hd⟩ := h.zombie p q hmem
      rw [hpc q (hnd' q hd)]
      exact ⟨hmoved q (Or.inr hmem), hd⟩
  · intro q hq hd hb
    have hqp : q ≠ p := by
      rintro rfl
      rw [hpcp] at hd
      exact absurd hd (by simp [Pc.dying])
    rw [hpc q hqp] at hd hb
    obtain ⟨x, hx⟩ := h.home q hq hd hb
    by_cases hxp : x = p
    · exact ⟨F.root, (hchild _ q).mpr ⟨hqp, hroot.symm, Or.inr ⟨rfl, hxp ▸ hx⟩⟩⟩
    · exact ⟨x, (hchild x q).mpr ⟨hqp, hxp, Or.inl hx⟩⟩
  · intro x hx
    refine eq_nil_iff_forall_not_mem.mpr fun q hq => ?_
    obtain ⟨-, hxp, hq⟩ := (hchild x q).mp hq
    rw [hpc x hxp] at hx
    rcases hq with hq | ⟨rfl, -⟩
    · rw [h.emptied x hx] at hq
      exact absurd hq (by simp)
    · rw [h.root.1] at hx
      exact absurd hx (by simp)
  · intro q
    change q ∈ s.exiting ++ [p] ↔ _
    rw [mem_append, h.exiting, mem_singleton]
    by_cases hq : q = p
    · simp [hq, hpcp]
    · simp [hq, hpc q hq]
  · refine nodup_append.mpr ⟨h.once, nodup_singleton p, fun q hq q' hq' he => ?_⟩
    rw [mem_singleton.mp hq'] at he
    rw [h.exiting, he, hp] at hq
    exact absurd hq (by simp)

end Tree

/-! ### The steps -/

theorem pc_posts {c : Cpu} {m : T} : ∀ {l : List T} {b b' : WakeUps.State T T},
    l.foldlM (fun b _ => WakeUps.step F.toProcs b (.post c m)) b = some b' → b'.pc = b.pc
  | [], b, b', h => by
    cases h
    rfl
  | _ :: l, b, b', h => by
    rw [foldlM_cons] at h
    obtain ⟨b₁, h₁, h⟩ := bind_eq_some_iff.mp h
    exact (pc_posts h).trans (WakeUps.pc_step_of_none rfl h₁)

section

variable {s s' : State T} {l : WakeUps.Label T T} {g : State T → State T} {p : Prop} [Decidable p]

/-- What is done after a step of the layer below. -/
theorem lower_bind (h : (s.lower F l).bind (fun s => some (g s)) = some s') :
    ∃ base, WakeUps.step F.toProcs s.base l = some base ∧ s' = g { s with base } := by
  obtain ⟨s₁, hs₁, h⟩ := bind_eq_some_iff.mp h
  obtain ⟨base, hbase, hs₁⟩ := bind_eq_some_iff.mp hs₁
  cases hs₁
  cases h
  exact ⟨base, hbase, rfl⟩

theorem lower_some (h : (if p then (s.lower F l).bind fun s => some (g s) else none) = some s') :
    p ∧ ∃ base, WakeUps.step F.toProcs s.base l = some base ∧ s' = g { s with base } := by
  obtain ⟨hp, h⟩ := ite_none_right_eq_some.mp h
  exact ⟨hp, lower_bind h⟩

theorem lower_of_guard (h : (if p then s.lower F l else none) = some s') :
    p ∧ ∃ base, WakeUps.step F.toProcs s.base l = some base ∧ s' = { s with base } := by
  obtain ⟨hp, h⟩ := ite_none_right_eq_some.mp h
  obtain ⟨base, hbase, h⟩ := bind_eq_some_iff.mp h
  exact ⟨hp, base, hbase, (some.inj h).symm⟩

end

theorem tree_step {s s' : State T} {l : Label T} (h : Tree F s) (hs : step F s l = some s') :
    Tree F s' := by
  have others : ∀ {l c b}, WakeUps.step F.toProcs s.base l = some b → l.mover = some c →
      ∀ t, t ≠ s.this c → b.pc t = s.base.pc t := by
    intro l c b hb hl t ht
    refine WakeUps.pc_step hb fun c' hc' => ?_
    rw [hl] at hc'
    cases hc'
    exact ht
  have hlower : ∀ {c} {b : WakeUps.State T T}, s.pc (s.this c) = .waiting →
      (∀ t, t ≠ s.this c → b.pc t = s.base.pc t) → ∀ t, s.pc t ≠ .waiting → b.pc t = .outside := by
    intro c b hc hb t ht
    rw [hb t (by rintro rfl; exact ht hc)]
    exact h.outside t ht
  cases l with
  | fork c q =>
    simp only [step] at hs
    split_ifs at hs with hc
    cases hs
    exact h.fork hc.1 hc.2.1 hc.2.2
  | start q =>
    obtain ⟨hc, base, hbase, rfl⟩ := lower_some hs
    have hpc := WakeUps.pc_step_of_none rfl hbase
    refine h.move (by rw [hc]; exact ⟨rfl, by simp, by simp⟩) (fun t _ => by rw [hpc]) fun _ => ?_
    rw [hpc]
    exact h.outside q (by rw [hc]; simp)
  | wait c =>
    simp only [step] at hs
    split_ifs at hs with hc
    cases hs
    exact h.move (by rw [hc.1]; exact ⟨rfl, by simp, by simp⟩) (fun t _ => rfl) fun hn => absurd rfl hn
  | waitSem c =>
    obtain ⟨hc, base, hbase, rfl⟩ := lower_some hs
    have hpc := others hbase rfl
    split_ifs with hout
    · exact h.move (by rw [hc]; exact ⟨rfl, by simp, by simp⟩) hpc fun _ => hout
    · exact h.lower fun t ht => hlower hc hpc t ht
  | unlock c =>
    obtain ⟨hc, base, hbase, rfl⟩ := lower_of_guard hs
    exact h.lower fun t ht => hlower hc (others hbase rfl) t ht
  | sleep c =>
    obtain ⟨hc, base, hbase, rfl⟩ := lower_of_guard hs
    exact h.lower fun t ht => hlower hc (others hbase rfl) t ht
  | finish c =>
    obtain ⟨hc, base, hbase, rfl⟩ := lower_some hs
    exact h.move (by rw [hc.1]; exact ⟨rfl, by simp, by simp⟩) (others hbase rfl)
      fun _ => WakeUps.pc_finish hbase
  | reap c =>
    simp only [step] at hs
    split_ifs at hs with hc
    split at hs
    · cases hs
    · rename_i z rest hz
      cases hs
      exact h.reap hc hz _
  | exit c code =>
    obtain ⟨r, base, hp, hroot, hr, -, -, hbase, rfl⟩ := h.exit_cases hs
    exact h.exit hp hroot hr (pc_posts hbase) code
  | notify c =>
    obtain ⟨hc, hs⟩ := ite_none_right_eq_some.mp hs
    obtain ⟨r, -, hs⟩ := bind_eq_some_iff.mp hs
    obtain ⟨base, hbase, rfl⟩ := lower_bind hs
    exact h.notify hc (WakeUps.pc_step_of_none rfl hbase)
  | zombie c =>
    obtain ⟨hc, base, hbase, rfl⟩ := lower_some hs
    have hpc := WakeUps.pc_step_of_none rfl hbase
    refine h.move (by rw [hc]; exact ⟨rfl, by simp, by simp⟩) (fun t _ => by rw [hpc]) fun _ => ?_
    rw [hpc]
    exact h.outside _ (by rw [hc]; simp)
  | other l =>
    obtain ⟨hc, base, hbase, rfl⟩ := lower_of_guard hs
    have hl : l.mover = none := by
      cases l <;> first | rfl | exact hc.elim
    have hpc := WakeUps.pc_step_of_none hl hbase
    exact h.lower fun t ht => by rw [hpc]; exact h.outside t ht

end OsHonor.Processes.Families
