import OsHonor.Processes.Lifecycle

/-! # `transfer_children` on the links of the lists (`proc/proc.c`)

The children of a process and its zombies are two rings of `ptnode`s. Both loops of `transfer_children`
take the current node out of a ring of `src`, append it to the ring of `dst`, and then ask the node for
the next one: they are one function here (`moveAll`), and the loop over the zombies posts `childexit` as
well.

A ring of one node, or none, arrives (`moveAll_of_length_le_one`); with two nodes the loop runs into the
ring of `dst` and stays there (`moveAll_diverges`). -/

namespace OsHonor.Processes.Orphans

open List Option Function Lib.Rings Lib.Semaphore Lifecycle

/-- Which of the two lists of a process: `children` or `zombie_children`. -/
inductive Kin where
  | child
  | zombie
  deriving DecidableEq

/-- The processes as `transfer_children` sees them. `woken` are the processes that the posts have
activated, the latest one last. -/
structure Tree (T : Type) where
  links : Links T
  list : Kin → T → Lst T
  parent : T → Option T
  childexit : T → Sem T
  woken : List T

variable {T : Type} [DecidableEq T]

def Tree.setList (s : Tree T) (k : Kin) (p : T) (l : Lst T) : Tree T :=
  { s with list := update s.list k (update (s.list k) p l) }

/-- `post_sem(&dst->childexit)`. -/
def Tree.post (s : Tree T) (dst : T) : Option (Tree T) := do
  let (w, sem) ← (s.childexit dst).post
  some { s with childexit := update s.childexit dst sem, woken := s.woken ++ w.toList }

def Tree.move (s : Tree T) (k : Kin) (dst src v : T) : Option (Tree T) := do
  let (h, l) ← listRemove s.links (s.list k src) v
  let s := { s.setList k src l with links := h }
  let (h, l) := listPushBack s.links (s.list k dst) v
  let s := { s.setList k dst l with links := h, parent := update s.parent v (some dst) }
  if k = .zombie then s.post dst else some s

/-- `list_forall`, from the node `v` on; `none` when `fuel` steps are not enough. -/
def Tree.moveLoop (k : Kin) (dst src flag : T) : ℕ → T → Tree T → Option (Tree T)
  | 0, _, _ => none
  | fuel + 1, v, s => do
    let s ← s.move k dst src v
    if v = flag then some s else moveLoop k dst src flag fuel (s.links.next v) s

def Tree.moveAll (fuel : ℕ) (k : Kin) (dst src : T) (s : Tree T) : Option (Tree T) :=
  match (s.list k src).head with
  | none => some s
  | some flag => s.moveLoop k dst src flag fuel (s.links.next flag)

/-- **`transfer_children`**. -/
def Tree.transferChildren (fuel : ℕ) (dst src : T) (s : Tree T) : Option (Tree T) := do
  let s ← s.moveAll fuel .child dst src
  s.moveAll fuel .zombie dst src

/-- What `n` posts do to a semaphore. -/
def posts : ℕ → Sem T → Option (Sem T)
  | 0, s => some s
  | n + 1, s => do
    let (_, s) ← s.post
    posts n s

/-- `m k p` are the members of the list `k` of `p`. No process is on two lists, and a semaphore that is
waited for has as many sleepers as its counter says. -/
structure WellFormed (s : Tree T) (m : Kin → T → List T) : Prop where
  holds : ∀ k p, Holds s.links (s.list k p) (m k p)
  once : ∀ {k p k' p' x}, x ∈ m k p → x ∈ m k' p' → k = k' ∧ p = p'
  counted : ∀ p, (s.childexit p).val < 0 → -(s.childexit p).val = (s.childexit p).sleeplist.length

/-- **What `transfer_children` is for.** -/
structure Transferred (s : Tree T) (m : Kin → T → List T) (dst src : T) (s' : Tree T) : Prop where
  empty : ∀ k, Holds s'.links (s'.list k src) []
  joined : ∀ k, ∃ l, l.Perm (m k dst ++ m k src) ∧ Holds s'.links (s'.list k dst) l
  parent : ∀ k, ∀ x ∈ m k src, s'.parent x = some dst
  posted : posts (m .zombie src).length (s.childexit dst) = some (s'.childexit dst)

/-! ### The loop does not end for two nodes -/

omit [DecidableEq T] in
theorem post_of_counted {s : Sem T} (h : s.val < 0 → -s.val = s.sleeplist.length) :
    ∃ w s', s.post = some (w, s') ∧ (s'.val < 0 → -s'.val = s'.sleeplist.length) := by
  unfold Sem.post
  by_cases hpos : 0 < s.val + 1
  · exact ⟨none, { s with val := s.val + 1 }, by rw [if_pos hpos], fun hneg => by simp only at hneg; omega⟩
  · have hlen := h (by omega)
    rcases hl : s.sleeplist with _ | ⟨t, l⟩
    · rw [hl, length_nil] at hlen
      omega
    · refine ⟨some t, ⟨s.val + 1, l⟩, by rw [if_neg hpos], fun _ => ?_⟩
      rw [hl, length_cons] at hlen
      push_cast at hlen
      simp only
      omega

variable {s : Tree T} {k : Kin} {dst src x : T} {m : Kin → T → List T}

theorem move_eq {s' : Tree T} {v : T} (hne : dst ≠ src) (h : s.move k dst src v = some s') :
    ∃ h₁ l, listRemove s.links (s.list k src) v = some (h₁, l) ∧ s'.links = (listPushBack h₁ (s.list k dst) v).1 ∧
      s'.list k src = l ∧ s'.list k dst = (listPushBack h₁ (s.list k dst) v).2 := by
  unfold Tree.move at h
  obtain ⟨⟨h₁, l⟩, hrem, h⟩ := bind_eq_some_iff.mp h
  refine ⟨h₁, l, hrem, ?_⟩
  simp only [Tree.setList, update_self, update_of_ne hne] at h
  split_ifs at h with hk
  · obtain ⟨⟨w, sem⟩, -, h⟩ := bind_eq_some_iff.mp h
    simp only [some.injEq] at h
    subst h
    simp [update_of_ne hne.symm]
  · simp only [some.injEq] at h
    subst h
    simp [update_of_ne hne.symm]

theorem transferLoop_of_moveLoop {flag : T} (hne : dst ≠ src) :
    ∀ {fuel : ℕ} {v : T} {s s' : Tree T}, s.moveLoop k dst src flag fuel v = some s' →
      transferLoop flag fuel v s.links (s.list k src) (s.list k dst) =
        some (s'.links, s'.list k src, s'.list k dst)
  | 0, _, _, _, h => by simp [Tree.moveLoop] at h
  | fuel + 1, v, s, s', h => by
    obtain ⟨s₁, hmove, h⟩ := bind_eq_some_iff.mp h
    obtain ⟨h₁, l, hrem, hlinks, hsrc, hdst⟩ := move_eq hne hmove
    rw [transferLoop, hrem]
    simp only [bind_eq_bind, bind_some]
    rw [← hlinks, ← hsrc, ← hdst]
    split_ifs at h ⊢ with hv
    · rw [some.inj h]
    · exact transferLoop_of_moveLoop hne h

theorem moveAll_diverges (hw : WellFormed s m)
    (hne : dst ≠ src) (hlen : 2 ≤ (m k src).length) (fuel : ℕ) : s.moveAll fuel k dst src = none := by
  have hdis : ∀ x ∈ m k src, x ∉ m k dst := fun x hx hx' => hne (hw.once hx' hx).2
  have hdiv := transfer_diverges (hw.holds k src) (hw.holds k dst) hdis hlen fuel
  unfold transfer at hdiv
  unfold Tree.moveAll
  rcases hhead : (s.list k src).head with _ | flag
  · rw [hhead] at hdiv
    simp at hdiv
  · rw [hhead] at hdiv
    simp only at hdiv ⊢
    rw [eq_none_iff_forall_ne_some]
    intro s' hs'
    rw [transferLoop_of_moveLoop hne hs'] at hdiv
    simp at hdiv

/-! ### One node arrives -/

/-- The members after the list `k` of `src` has gone to `dst`. -/
def adopted (m : Kin → T → List T) (k : Kin) (dst src : T) : Kin → T → List T :=
  update m k (handOver (m k) dst src)

theorem mem_adopted {k' : Kin} {p : T} (hne : dst ≠ src) : x ∈ adopted m k dst src k' p ↔
      ¬ (k' = k ∧ p = src) ∧ x ∈ m k' p ∨ k' = k ∧ p = dst ∧ x ∈ m k src := by
  unfold adopted
  by_cases hk : k' = k
  · subst hk
    rw [update_self, handOver]
    by_cases hs : p = src
    · subst hs
      simp [hne.symm]
    · rw [update_of_ne hs]
      by_cases hd : p = dst
      · subst hd
        simp [hs]
      · rw [update_of_ne hd]
        simp [hs, hd]
  · rw [update_of_ne hk]
    simp [hk]

theorem adopted_zombie (m : Kin → T → List T) (dst src p : T) :
    adopted m .child dst src .zombie p = m .zombie p := by
  rw [adopted, update_of_ne (by decide)]

theorem adopted_adopted_src (m : Kin → T → List T) (dst src : T) (k : Kin) :
    adopted (adopted m .child dst src) .zombie dst src k src = [] := by
  cases k <;> simp [adopted, handOver]

theorem adopted_adopted_dst (hne : dst ≠ src) (k : Kin) :
    adopted (adopted m .child dst src) .zombie dst src k dst = m k dst ++ m k src := by
  cases k <;> simp [adopted, handOver, hne]

theorem once_adopted {k₁ k₂ : Kin} {p₁ p₂ : T}
    (hw : WellFormed s m) (hne : dst ≠ src) (h₁ : x ∈ adopted m k dst src k₁ p₁)
    (h₂ : x ∈ adopted m k dst src k₂ p₂) : k₁ = k₂ ∧ p₁ = p₂ := by
  rw [mem_adopted hne] at h₁ h₂
  rcases h₁ with ⟨hn₁, h₁⟩ | ⟨hk₁, hp₁, h₁⟩ <;> rcases h₂ with ⟨hn₂, h₂⟩ | ⟨hk₂, hp₂, h₂⟩
  · exact hw.once h₁ h₂
  · exact absurd (hw.once h₁ h₂) hn₁
  · exact absurd (hw.once h₂ h₁) hn₂
  · exact ⟨hk₁.trans hk₂.symm, hp₁.trans hp₂.symm⟩

theorem move_singleton (hw : WellFormed s m) (hne : dst ≠ src) (hm : m k src = [x]) :
    ∃ s', s.move k dst src x = some s' ∧ WellFormed s' (adopted m k dst src) ∧
      s'.parent = update s.parent x (some dst) ∧
      posts (if k = .zombie then 1 else 0) (s.childexit dst) = some (s'.childexit dst) := by
  have hx : x ∈ m k src := by simp [hm]
  have hsrc := hw.holds k src
  rw [hm] at hsrc
  obtain ⟨-, hsize, hhead, -⟩ := hsrc
  have hrem : listRemove s.links (s.list k src) x = some (s.links, ⟨none, 0⟩) := by
    simp [listRemove, hsize, show (s.list k src).head = some x from hhead]
  obtain ⟨hpush, hframe⟩ := pushBack_holds (hw.holds k dst) fun h => hne (hw.once h hx).2
  set t : Tree T :=
    { ((s.setList k src ⟨none, 0⟩).setList k dst (listPushBack s.links (s.list k dst) x).2) with
      links := (listPushBack s.links (s.list k dst) x).1
      parent := update s.parent x (some dst) } with ht
  have hmove : s.move k dst src x = if k = .zombie then t.post dst else some t := by
    simp only [Tree.move, hrem, bind_eq_bind, bind_some, ht, Tree.setList,
      update_self, update_of_ne hne]
  -- the other lists do not have the node, nor a node of the list it goes to
  have hother : ∀ k' p, ¬ (k' = k ∧ (p = src ∨ p = dst)) → Holds t.links (s.list k' p) (m k' p) := by
    intro k' p hkp
    refine (hw.holds k' p).frame fun y hy => hframe y fun hy' => ?_
    rcases mem_cons.mp hy' with rfl | hy'
    · obtain ⟨rfl, rfl⟩ := hw.once hy hx
      exact hkp ⟨rfl, Or.inl rfl⟩
    · obtain ⟨rfl, rfl⟩ := hw.once hy hy'
      exact hkp ⟨rfl, Or.inr rfl⟩
  have hholds : ∀ k' p, Holds t.links (t.list k' p) (adopted m k dst src k' p) := by
    intro k' p
    by_cases hk : k' = k
    · subst hk
      by_cases hs : p = src
      · subst hs
        simp [ht, Tree.setList, adopted, handOver, update_of_ne hne.symm, Holds]
      · by_cases hd : p = dst
        · subst hd
          simpa [ht, Tree.setList, adopted, handOver, hne, hm] using hpush
        · have := hother k' p fun h => h.2.elim hs hd
          simpa [ht, Tree.setList, adopted, handOver, hs, hd] using this
    · have := hother k' p fun h => hk h.1
      simpa [ht, Tree.setList, adopted, update_of_ne hk] using this
  have hsem : t.childexit = s.childexit := rfl
  by_cases hk : k = .zombie
  · obtain ⟨w, sem, hp, hcount⟩ := post_of_counted (hw.counted dst)
    refine ⟨{ t with childexit := update t.childexit dst sem, woken := t.woken ++ w.toList }, ?_,
      ⟨hholds, once_adopted hw hne, fun p => ?_⟩, rfl, ?_⟩
    · rw [hmove, if_pos hk, Tree.post, hsem, hp]
      rfl
    · by_cases hpd : p = dst
      · subst hpd
        simpa using hcount
      · simpa [update_of_ne hpd, hsem] using hw.counted p
    · simp [posts, hk, hp]
  · exact ⟨t, by rw [hmove, if_neg hk], ⟨hholds, once_adopted hw hne, hw.counted⟩, rfl, by simp [posts, hk, hsem]⟩

/-- **At most one node arrives**, in one step of the loop. -/
theorem moveAll_of_length_le_one
    (hw : WellFormed s m) (hne : dst ≠ src) (hlen : (m k src).length ≤ 1) (fuel : ℕ) :
    ∃ s', s.moveAll (fuel + 1) k dst src = some s' ∧ WellFormed s' (adopted m k dst src) ∧
      (∀ x, s'.parent x = if x ∈ m k src then some dst else s.parent x) ∧
      posts (if k = .zombie then (m k src).length else 0) (s.childexit dst) = some (s'.childexit dst) := by
  unfold Tree.moveAll
  have hholds := hw.holds k src
  rcases hm : m k src with _ | ⟨x, _ | ⟨y, l⟩⟩
  · rw [hm] at hholds
    have hself : adopted m k dst src = m := by
      unfold adopted handOver
      rw [hm, append_nil, update_eq_self, ← hm, update_eq_self,
        update_eq_self]
    rw [show (s.list k src).head = none from hholds.2.2.1]
    exact ⟨s, rfl, by rw [hself]; exact hw, fun x => by simp, by simp [posts]⟩
  · rw [hm] at hholds
    obtain ⟨s', hmove, hw', hparent, hposts⟩ := move_singleton hw hne hm
    have hnext : s.links.next x = x := hholds.2.2.2.1
    rw [show (s.list k src).head = some x from hholds.2.2.1]
    refine ⟨s', ?_, hw', fun y => ?_, ?_⟩
    · simp only [hnext, Tree.moveLoop, hmove, bind_eq_bind, bind_some, if_true]
    · rw [hparent, update_apply]
      simp
    · simpa using hposts
  · rw [hm] at hlen
    simp at hlen

/-! ### The two loops -/

theorem moveLoop_succ {flag : T} : ∀ {fuel : ℕ} {v : T} {s s' : Tree T},
    s.moveLoop k dst src flag fuel v = some s' → s.moveLoop k dst src flag (fuel + 1) v = some s'
  | 0, _, _, _, h => by simp [Tree.moveLoop] at h
  | fuel + 1, v, s, s', h => by
    obtain ⟨s₁, hmove, h⟩ := bind_eq_some_iff.mp h
    rw [Tree.moveLoop, hmove]
    simp only [bind_eq_bind, bind_some]
    split_ifs at h ⊢ with hv
    · exact h
    · exact moveLoop_succ h

theorem moveAll_succ {fuel : ℕ} {s' : Tree T}
    (h : s.moveAll fuel k dst src = some s') : s.moveAll (fuel + 1) k dst src = some s' := by
  unfold Tree.moveAll at h ⊢
  split at h
  · exact h
  · exact moveLoop_succ h

/-- **`transfer_children` does its work exactly for at most one living child and at most one zombie.** -/
theorem transferChildren_iff {s : Tree T} {m : Kin → T → List T} (hw : WellFormed s m) (dst src : T) :
    (∃ fuel s', s.transferChildren fuel dst src = some s' ∧ Transferred s m dst src s') ↔
      (∀ k, (m k src).length ≤ 1) ∧ (dst = src → ∀ k, m k src = []) := by
  constructor
  · rintro ⟨fuel, s', hrun, htr⟩
    by_cases hne : dst = src
    · -- the list cannot be both emptied and joined to itself
      subst hne
      have hnil : ∀ k, m k dst = [] := by
        intro k
        obtain ⟨l, hperm, hl⟩ := htr.joined k
        have hsize := (htr.empty k).2.1
        rw [hl.2.1, hperm.length_eq, length_append, length_nil] at hsize
        exact length_eq_zero_iff.mp (by omega)
      exact ⟨fun k => by simp [hnil k], fun _ => hnil⟩
    · refine ⟨fun k => ?_, fun h => absurd h hne⟩
      obtain ⟨s₁, h₁, h₂⟩ := bind_eq_some_iff.mp hrun
      by_contra hlen
      have hchild : (m .child src).length ≤ 1 := by
        by_contra hc
        rw [moveAll_diverges hw hne (by omega)] at h₁
        simp at h₁
      cases k with
      | child => exact hlen hchild
      | zombie =>
        obtain ⟨s₂, hs₂, hw₂, -⟩ := moveAll_of_length_le_one hw hne hchild fuel
        obtain rfl : s₂ = s₁ := some.inj (hs₂.symm.trans (moveAll_succ h₁))
        rw [moveAll_diverges (k := .zombie) hw₂ hne (by rw [adopted_zombie]; omega)] at h₂
        simp at h₂
  · rintro ⟨hlen, hself⟩
    by_cases hne : dst = src
    · subst hne
      refine ⟨0, s, ?_, fun k => ?_, fun k => ⟨[], ?_, ?_⟩, fun k x hx => ?_, ?_⟩
      · have hhead : ∀ k, (s.list k dst).head = none := by
          intro k
          have := (hw.holds k dst).2.2.1
          rwa [hself rfl k] at this
        simp [Tree.transferChildren, Tree.moveAll, hhead]
      · rw [← hself rfl k]
        exact hw.holds k dst
      · rw [hself rfl k]
        exact List.Perm.refl _
      · rw [← hself rfl k]
        exact hw.holds k dst
      · rw [hself rfl k] at hx
        simp at hx
      · rw [hself rfl .zombie]
        rfl
    · obtain ⟨s₁, h₁, hw₁, hparent₁, hposts₁⟩ := moveAll_of_length_le_one hw hne (hlen .child) 0
      obtain ⟨s₂, h₂, hw₂, hparent₂, hposts₂⟩ := moveAll_of_length_le_one (k := .zombie) hw₁ hne
        (by rw [adopted_zombie]; exact hlen .zombie) 0
      rw [adopted_zombie] at hparent₂ hposts₂
      refine ⟨1, s₂, ?_, fun k => ?_, fun k => ⟨m k dst ++ m k src, List.Perm.refl _, ?_⟩,
        fun k x hx => ?_, ?_⟩
      · rw [Tree.transferChildren, h₁]
        exact h₂
      · have := hw₂.holds k src
        rwa [adopted_adopted_src] at this
      · have := hw₂.holds k dst
        rwa [adopted_adopted_dst hne] at this
      · rw [hparent₂, hparent₁]
        cases k with
        | child => rw [if_pos hx, ite_self]
        | zombie => rw [if_pos hx]
      · have h0 : s₁.childexit dst = s.childexit dst := by
          simpa [posts] using hposts₁.symm
        rw [← h0]
        simpa using hposts₂

/-! ### Two families -/

/-- Process `1` has the lists `l`, over the links that `swap` says; process `0` has none. -/
def family (swap : ℕ → ℕ) (l : Kin → Lst ℕ) : Tree ℕ where
  links := ⟨swap, swap⟩
  list k p := if p = 1 then l k else ⟨none, 0⟩
  parent _ := some 1
  childexit _ := Sem.init 0
  woken := []

def members (l : Kin → List ℕ) (k : Kin) (p : ℕ) : List ℕ := if p = 1 then l k else []

theorem wellFormed_family {swap : ℕ → ℕ} {l : Kin → Lst ℕ} {m : Kin → List ℕ}
    (hholds : ∀ k, Holds ⟨swap, swap⟩ (l k) (m k)) (honce : ∀ x ∈ m .child, x ∉ m .zombie) :
    WellFormed (family swap l) (members m) where
  holds k p := by
    by_cases hp : p = 1
    · simpa [family, members, hp] using hholds k
    · simp [family, members, hp, Holds]
  once {k p k' p' x} h h' := by
    by_cases hp : p = 1 <;> by_cases hp' : p' = 1 <;> simp only [members, hp, hp', if_true, if_false] at h h'
    · refine ⟨?_, hp.trans hp'.symm⟩
      cases k <;> cases k'
      · rfl
      · exact absurd h' (honce x h)
      · exact absurd h (honce x h')
      · rfl
    · simp at h'
    · simp at h
    · simp at h
  counted p h := by simp [family, Sem.init] at h

def oneEach : Tree ℕ := family id fun k => match k with
  | .child => ⟨some 2, 1⟩
  | .zombie => ⟨some 3, 1⟩

def oneEachMembers : Kin → ℕ → List ℕ := members fun k => match k with
  | .child => [2]
  | .zombie => [3]

theorem wellFormed_oneEach : WellFormed oneEach oneEachMembers := by
  refine wellFormed_family (fun k => ?_) (by simp)
  cases k <;> simp [Holds, Seg]

theorem transferChildren_oneEach : WellFormed oneEach oneEachMembers ∧
    ∃ fuel s', oneEach.transferChildren fuel 0 1 = some s' ∧ Transferred oneEach oneEachMembers 0 1 s' := by
  refine ⟨wellFormed_oneEach, (transferChildren_iff wellFormed_oneEach 0 1).mpr ⟨fun k => ?_, by simp⟩⟩
  cases k <;> simp [oneEachMembers, members]

/-- Two living children, `2` and `3`. -/
def twoChildren : Tree ℕ := family (fun n => if n = 2 then 3 else if n = 3 then 2 else n) fun k => match k with
  | .child => ⟨some 2, 2⟩
  | .zombie => ⟨none, 0⟩

def twoChildrenMembers : Kin → ℕ → List ℕ := members fun k => match k with
  | .child => [2, 3]
  | .zombie => []

theorem wellFormed_twoChildren : WellFormed twoChildren twoChildrenMembers := by
  refine wellFormed_family (fun k => ?_) (by simp)
  cases k <;> simp [Holds, Seg]

theorem transferChildren_twoChildren : WellFormed twoChildren twoChildrenMembers ∧
    ∀ fuel, twoChildren.transferChildren fuel 0 1 = none := by
  refine ⟨wellFormed_twoChildren, fun fuel => ?_⟩
  have hlen : 2 ≤ (twoChildrenMembers .child 1).length := by simp [twoChildrenMembers, members]
  rw [Tree.transferChildren, moveAll_diverges wellFormed_twoChildren (by decide) hlen]
  rfl

end OsHonor.Processes.Orphans
