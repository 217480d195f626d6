import OsHonor.Base.Keyed
import OsHonor.Base.Runs
import OsHonor.Lib.Semaphore

/-! # Processes waiting for a semaphore (`lib/sem.c`)

Any number of processes use one semaphore; every section under its lock is one step. A process that has
to sleep in `_wait_sem` owns a `WaitData`; it runs again after a post or an alert has woken it, and then
looks at `up` under the lock. Beside the semaphore the machine keeps the books: how many posts there
have been, how many units have been taken, and the entry numbers of the waiters that were granted the
semaphore, in the order of the grants.

`waiting` is the representation invariant in every reachable state, whatever the order of posts, alerts
and returns. -/

namespace OsHonor.Lib.Waiting

open List Base.Keyed Base.Runs Semaphore

/-- `struct wait_data` of `proc`. The process can run again when it is `awake`; `alerted` and `entry`
are for the books: an alert woke it, and it was the one with this number to go to sleep. -/
structure WaitData (T : Type) where
  proc : T
  up : Bool
  awake : Bool
  alerted : Bool
  entry : ℕ
  deriving DecidableEq

namespace WaitData

variable {T : Type}

/-- `wait->up = true` and `activate_proc(wait->proc)`. -/
def grant (w : WaitData T) : WaitData T := { w with up := true, awake := true }

def alert (w : WaitData T) : WaitData T := { w with awake := true, alerted := true }

end WaitData

/-- The semaphore, the waiters, and the books. -/
structure State (T : Type) where
  sem : Sem T
  waits : List (WaitData T)
  entries : ℕ
  posts : ℕ
  taken : ℕ
  woken : List ℕ
  deriving DecidableEq

/-- The sections under the lock, and the alert of a process. -/
inductive Label (T : Type) where
  | wait (t : T)
  | post
  | alert (t : T)
  | resume (t : T)
  | get
  | getAll
  | postAll

/-- `init_sem(&sem, v)`. -/
def init {T : Type} (v : ℤ) : State T := ⟨Sem.init v, [], 0, 0, 0, []⟩

variable {T : Type}

section

variable [DecidableEq T]

namespace State

/-- The `WaitData` of `t`. -/
def find (s : State T) (t : T) : Option (WaitData T) := lookup WaitData.proc t s.waits

/-- The `WaitData` of `t` changes. -/
def modify (s : State T) (t : T) (f : WaitData T → WaitData T) : State T :=
  { s with waits := modifyAt WaitData.proc t f s.waits }

/-- A post has taken `t` from the list. -/
def grant (s : State T) (t : T) : State T :=
  { s.modify t WaitData.grant with
    woken := s.woken ++ (s.find t).toList.map WaitData.entry }

/-- The grants of a `post_all_sem`. -/
def grantAll (s : State T) (ts : List T) : State T := ts.foldl grant s

/-- `kfree(wait)`. -/
def leave (s : State T) (t : T) : State T := { s with waits := s.waits.filter fun w => w.proc ≠ t }

end State

/-- **The steps.** A failed `ASSERT` is no step. -/
def step (s : State T) : Label T → Option (State T)
  | .wait t =>
    match s.find t with
    | some _ => none
    | none =>
      match s.sem.wait t with
      | (true, sem) => some { s with sem, taken := s.taken + 1 }
      | (false, sem) => some { s with
          sem
          waits := s.waits ++ [⟨t, false, false, false, s.entries⟩]
          entries := s.entries + 1 }
  | .post => do
    let (t, sem) ← s.sem.post
    some { (s.grantAll t.toList) with sem, posts := s.posts + 1 }
  | .alert t => do
    let _ ← s.find t
    some (s.modify t WaitData.alert)
  | .resume t => do
    let w ← s.find t
    if !w.awake then none
    else if w.up then some { s.leave t with taken := s.taken + 1 }
    else do
      let sem ← s.sem.cancel t
      some { s.leave t with sem }
  | .get => do
    let sem ← s.sem.get
    some { s with sem, taken := s.taken + 1 }
  | .getAll => some { s with sem := s.sem.getAll.2, taken := s.taken + s.sem.getAll.1 }
  | .postAll => do
    let (ts, sem) ← s.sem.postAll
    some { (s.grantAll ts) with sem, posts := s.posts + ts.length }

end

/-! ### The representation invariant -/

/-- The waiters that have not been granted the semaphore, the oldest first. -/
def State.asleep (s : State T) : List (WaitData T) := s.waits.filter fun w => !w.up

/-- The counter of a semaphore is positive or counts the sleepers. -/
def Counts (sem : Sem T) : Prop :=
  (0 ≤ sem.val ∧ sem.sleeplist = []) ∨ sem.val = -(sem.sleeplist.length : ℤ)

/-- **The invariant** of a semaphore that started with `v` units. -/
structure Inv (v : ℤ) (s : State T) : Prop where
  keys : (s.waits.map WaitData.proc).Nodup
  queue : s.sem.sleeplist = s.asleep.map WaitData.proc
  counts : Counts s.sem
  order : (s.woken ++ s.asleep.map WaitData.entry).Pairwise (· < ·)
  bound : ∀ n ∈ s.woken ++ s.asleep.map WaitData.entry, n < s.entries
  awake : ∀ w ∈ s.waits, w.awake = true → w.up = true ∨ w.alerted = true
  books : v + s.posts - s.taken = max s.sem.val 0 + s.waits.countP WaitData.up

variable {v : ℤ} {sem : Sem T} {s s' : State T} {t : T}

theorem inv_init (hv : 0 ≤ v) : Inv v (init v : State T) where
  keys := nodup_nil
  queue := rfl
  counts := Or.inl ⟨hv, rfl⟩
  order := List.Pairwise.nil
  bound := by simp [init, State.asleep]
  awake := by simp [init]
  books := by simp [init, Sem.init, hv]

theorem Counts.val_eq (h : Counts sem) (hv : sem.val ≤ 0) :
    sem.val = -(sem.sleeplist.length : ℤ) := by
  rcases h with ⟨h0, hnil⟩ | h
  · rw [hnil, length_nil]; omega
  · exact h

theorem Counts.nil (h : Counts sem) (hv : 0 ≤ sem.val) : sem.sleeplist = [] := by
  rcases h with ⟨-, hnil⟩ | h
  · exact hnil
  · exact length_eq_zero_iff.mp (by omega)

theorem State.mem_asleep {w : WaitData T} : w ∈ s.asleep ↔ w ∈ s.waits ∧ w.up = false := by
  simp [State.asleep]

theorem State.granted_add_asleep (s : State T) :
    s.waits.countP WaitData.up + s.asleep.length = s.waits.length := by
  rw [State.asleep, ← countP_eq_length_filter, length_eq_countP_add_countP WaitData.up]
  congr 1
  exact countP_congr fun w _ => by simp

theorem Inv.nodup_asleep (h : Inv v s) : (s.asleep.map WaitData.proc).Nodup :=
  h.keys.sublist ((filter_sublist).map _)

variable [DecidableEq T]

theorem State.map_modify (s : State T) {β : Type} (g : WaitData T → β)
    {f : WaitData T → WaitData T} (hf : ∀ w, g (f w) = g w) :
    s.waits.map g = (s.modify t f).waits.map g :=
  (map_modifyAt g (fun w _ => hf w) s.waits).symm

theorem Inv.grant (h : Inv v s) {l : List T} (hl : s.sem = ⟨-((l.length : ℤ) + 1), t :: l⟩) :
    Inv v { s.grant t with sem := ⟨-(l.length : ℤ), l⟩, posts := s.posts + 1 } := by
  have hq := h.queue
  rw [hl] at hq
  obtain ⟨w, ws, hasleep, hwt, hws⟩ := map_eq_cons_iff.mp hq.symm
  have hnd := h.nodup_asleep
  rw [hasleep] at hnd
  have hw := State.mem_asleep.mp (hasleep ▸ mem_cons_self : w ∈ s.asleep)
  have hfind : s.find t = some w := (lookup_eq_some h.keys).mpr ⟨hw.1, hwt⟩
  have hrest : ∀ sem n, State.asleep { s.grant t with sem := sem, posts := n } = ws := by
    intro sem n
    show List.filter _ (modifyAt WaitData.proc t _ s.waits) = ws
    rw [filter_modifyAt (f := WaitData.grant) (fun w => rfl), ← hwt]
    change (s.asleep.filter fun y => y.proc ≠ w.proc) = ws
    rw [hasleep, filter_key_ne_head hnd]
  have hlog : s.woken ++ (s.asleep.map WaitData.entry) =
      (s.grant t).woken ++ ws.map WaitData.entry := by
    simp [State.grant, hfind, hasleep]
  refine ⟨?_, ?_, Or.inr rfl, ?_, ?_, ?_, ?_⟩
  · exact (s.map_modify (f := WaitData.grant) WaitData.proc fun _ => rfl) ▸ h.keys
  · rw [hrest]; exact hws.symm
  · rw [hrest]; exact hlog ▸ h.order
  · rw [hrest]; exact fun n hn => h.bound n (hlog ▸ hn)
  · intro w' hw' hawake
    obtain ⟨x, hx, rfl⟩ := mem_modifyAt.mp hw'
    by_cases hxt : x.proc = t
    · exact Or.inl (by rw [if_pos hxt]; rfl)
    · rw [if_neg hxt] at hawake ⊢
      exact h.awake x hx hawake
  · have hgranted := s.granted_add_asleep
    have hgranted' := State.granted_add_asleep
      { s.grant t with sem := ⟨-(l.length : ℤ), l⟩, posts := s.posts + 1 }
    rw [hasleep, length_cons] at hgranted
    rw [hrest] at hgranted'
    have hlen : (s.grant t).waits.length = s.waits.length := length_modifyAt _ _ _
    have htaken : (s.grant t).taken = s.taken := rfl
    have hbooks := h.books
    simp only [hl] at hbooks hgranted' ⊢
    omega

theorem State.grantAll_with (s : State T) (sem : Sem T) (n : ℕ) (ts : List T) :
    State.grantAll { s with sem := sem, posts := n } ts =
      { s.grantAll ts with sem := sem, posts := n } := by
  induction ts generalizing s with
  | nil => rfl
  | cons t ts ih => exact ih (s.grant t)

theorem Inv.grantAll : ∀ (ts : List T) {s : State T}, Inv v s →
    s.sem = ⟨-(ts.length : ℤ), ts⟩ →
    Inv v { s.grantAll ts with sem := ⟨0, []⟩, posts := s.posts + ts.length }
  | [], s, h, hs => by
    obtain ⟨sem, waits, entries, posts, taken, woken⟩ := s
    simp only at hs
    subst hs
    exact h
  | t :: ts, s, h, hs => by
    have hs' : s.sem = ⟨-((ts.length : ℤ) + 1), t :: ts⟩ := by rw [hs]; simp
    have h2 := Inv.grantAll ts (h.grant hs') rfl
    rw [State.grantAll_with] at h2
    have hposts : s.posts + (t :: ts).length = s.posts + 1 + ts.length := by
      rw [length_cons]; omega
    rw [hposts]
    exact h2

theorem Inv.wait (h : Inv v s) (hs : step s (.wait t) = some s') : Inv v s' := by
  have hbooks := h.books
  simp only [step] at hs
  rcases hfind : s.find t with _ | w
  · rw [hfind] at hs
    simp only [Sem.wait] at hs
    split_ifs at hs with hval
    · simp only [Option.some.injEq] at hs
      subst hs
      refine ⟨h.keys, h.queue, Or.inl ⟨hval, h.counts.nil (by omega)⟩, h.order, h.bound, h.awake, ?_⟩
      simp only at hbooks ⊢
      omega
    · simp only [Option.some.injEq] at hs
      subst hs
      have hval' := h.counts.val_eq (by omega)
      have hasleep : ∀ sem n, State.asleep { s with
          sem := sem, waits := s.waits ++ [⟨t, false, false, false, s.entries⟩], entries := n } =
          s.asleep ++ [⟨t, false, false, false, s.entries⟩] := by
        intro sem n
        simp [State.asleep]
      refine ⟨?_, ?_, Or.inr ?_, ?_, ?_, ?_, ?_⟩
      · have hfresh := lookup_eq_none.mp hfind
        simp only [map_append, map_cons, map_nil]
        refine nodup_append.mpr ⟨h.keys, nodup_singleton t, ?_⟩
        intro a ha b hb
        obtain ⟨w, hw, rfl⟩ := mem_map.mp ha
        rw [mem_singleton.mp hb]
        exact hfresh w hw
      · rw [hasleep, map_append, ← h.queue]; rfl
      · simp only [length_append, length_cons, length_nil]; omega
      · rw [hasleep, map_append, ← append_assoc]
        refine pairwise_append.mpr ⟨h.order, pairwise_singleton _ _, ?_⟩
        intro n hn m hm
        rw [map_cons, map_nil, mem_singleton] at hm
        exact hm ▸ h.bound n hn
      · intro n hn
        rw [hasleep, map_append, ← append_assoc] at hn
        rcases mem_append.mp hn with hn | hn
        · exact Nat.lt_succ_of_lt (h.bound n hn)
        · rw [map_cons, map_nil, mem_singleton] at hn
          exact hn ▸ Nat.lt_succ_self s.entries
      · intro w hw hawake
        rcases mem_append.mp hw with hw | hw
        · exact h.awake w hw hawake
        · rw [mem_singleton.mp hw] at hawake
          exact absurd hawake (by simp)
      · simp only [countP_append, countP_cons, countP_nil] at hbooks ⊢
        simp only [Bool.false_eq_true, if_false]
        omega
  · rw [hfind] at hs
    exact absurd hs (by simp)

omit [DecidableEq T] in
theorem Counts.post (h : Counts sem) :
    (0 ≤ sem.val ∧ sem.post = some (none, { sem with val := sem.val + 1 })) ∨
    ∃ t l, sem = ⟨-((l.length : ℤ) + 1), t :: l⟩ ∧ sem.post = some (some t, ⟨-(l.length : ℤ), l⟩) := by
  by_cases hval : 0 ≤ sem.val
  · exact Or.inl ⟨hval, by simp only [Sem.post]; rw [if_pos (by omega)]⟩
  · have hval' := h.val_eq (by omega)
    obtain ⟨val, sleeplist⟩ := sem
    rcases sleeplist with _ | ⟨t, l⟩
    · simp only [length_nil] at hval hval'; omega
    · simp only [length_cons] at hval hval'
      refine Or.inr ⟨t, l, by rw [hval']; simp, ?_⟩
      simp only [Sem.post]
      rw [if_neg (by omega), hval']
      simp

omit [DecidableEq T] in
theorem Counts.postAll (h : Counts sem) : (0 < sem.val ∧ sem.postAll = some ([], sem)) ∨
    sem.val = -(sem.sleeplist.length : ℤ) ∧ sem.postAll = some (sem.sleeplist, ⟨0, []⟩) := by
  by_cases hval : 0 < sem.val
  · refine Or.inl ⟨hval, ?_⟩
    have hn : (-sem.val).toNat + 1 = 0 + 1 := by omega
    rw [Sem.postAll, hn, Sem.postAllLoop]
    simp only [Sem.post, Sem.get]
    rw [if_pos (by omega)]
    simp only [Option.bind_eq_bind, Option.bind_some]
    rw [if_pos (by omega)]
    simp
  · have hval' := h.val_eq (by omega)
    refine Or.inr ⟨hval', ?_⟩
    obtain ⟨val, sleeplist⟩ := sem
    simp only at hval'
    subst hval'
    exact Sem.postAll_sleepers sleeplist

theorem Inv.post (h : Inv v s) (hs : step s .post = some s') : Inv v s' := by
  simp only [step] at hs
  rcases h.counts.post with ⟨hval, hpost⟩ | ⟨t, l, hl, hpost⟩
  · rw [hpost] at hs
    simp only [Option.bind_eq_bind, Option.bind_some, Option.some.injEq] at hs
    subst hs
    have hbooks := h.books
    refine ⟨h.keys, h.queue, Or.inl ⟨?_, h.counts.nil hval⟩, h.order, h.bound, h.awake, ?_⟩
    · simp only; omega
    · simp only [Option.toList_none, State.grantAll, foldl_nil] at hbooks ⊢
      omega
  · rw [hpost] at hs
    simp only [Option.bind_eq_bind, Option.bind_some, Option.some.injEq] at hs
    subst hs
    exact h.grant hl

theorem Inv.postAll (h : Inv v s) (hs : step s .postAll = some s') : Inv v s' := by
  simp only [step] at hs
  rcases h.counts.postAll with ⟨-, hpost⟩ | ⟨hval, hpost⟩
  · rw [hpost] at hs
    simp only [Option.bind_eq_bind, Option.bind_some, Option.some.injEq] at hs
    subst hs
    exact h
  · rw [hpost] at hs
    simp only [Option.bind_eq_bind, Option.bind_some, Option.some.injEq] at hs
    subst hs
    refine Inv.grantAll _ h ?_
    rw [← hval]

theorem Inv.alert (h : Inv v s) (hs : step s (.alert t) = some s') : Inv v s' := by
  obtain ⟨w, -, hs⟩ := Option.bind_eq_some_iff.mp hs
  simp only [Option.some.injEq] at hs
  subst hs
  have hasleep : (s.modify t WaitData.alert).asleep = modifyAt WaitData.proc t WaitData.alert s.asleep :=
    filter_modifyAt_of_eq (f := WaitData.alert) (fun _ => rfl) s.waits
  have hsame : ∀ g : WaitData T → ℕ, (∀ w, g w.alert = g w) →
      (s.modify t WaitData.alert).asleep.map g = s.asleep.map g := by
    intro g hg
    rw [hasleep, map_modifyAt g fun w _ => hg w]
  refine ⟨?_, ?_, h.counts, ?_, ?_, ?_, ?_⟩
  · exact (s.map_modify (f := WaitData.alert) WaitData.proc fun _ => rfl) ▸ h.keys
  · rw [hasleep, map_modifyAt (f := WaitData.alert) _ (fun _ _ => rfl)]; exact h.queue
  · rw [hsame WaitData.entry fun _ => rfl]; exact h.order
  · rw [hsame WaitData.entry fun _ => rfl]; exact h.bound
  · intro w' hw' hawake
    obtain ⟨x, hx, rfl⟩ := mem_modifyAt.mp hw'
    by_cases hxt : x.proc = t
    · exact Or.inr (by rw [if_pos hxt]; rfl)
    · rw [if_neg hxt] at hawake ⊢
      exact h.awake x hx hawake
  · have hlen := congrArg List.length (hsame WaitData.entry fun _ => rfl)
    have hlen' : (s.modify t WaitData.alert).waits.length = s.waits.length := length_modifyAt _ _ _
    have hgranted := s.granted_add_asleep
    have hgranted' := (s.modify t WaitData.alert).granted_add_asleep
    have hup : (s.modify t WaitData.alert).waits.countP WaitData.up = s.waits.countP WaitData.up := by
      simp only [length_map] at hlen
      omega
    rw [hup]
    exact h.books

theorem State.asleep_leave (s : State T) (t : T) :
    (s.leave t).asleep = s.asleep.filter fun w => w.proc ≠ t := by
  simp only [State.asleep, State.leave, filter_filter]
  exact filter_congr fun w _ => Bool.and_comm _ _

theorem Inv.resume (h : Inv v s) (hs : step s (.resume t) = some s') : Inv v s' := by
  obtain ⟨w, hfind, hs⟩ := Option.bind_eq_some_iff.mp hs
  obtain ⟨hw, hwt⟩ := mem_of_lookup hfind
  have hsub : ((s.leave t).asleep).Sublist s.asleep := by
    rw [State.asleep_leave]; exact filter_sublist
  have hlog : ((s.leave t).woken ++ (s.leave t).asleep.map WaitData.entry).Sublist
      (s.woken ++ s.asleep.map WaitData.entry) := (List.Sublist.refl s.woken).append (hsub.map _)
  have hkeys : ((s.leave t).waits.map WaitData.proc).Nodup :=
    h.keys.sublist ((filter_sublist).map _)
  have hawake : ∀ w ∈ (s.leave t).waits, w.awake = true → w.up = true ∨ w.alerted = true :=
    fun w hw => h.awake w (mem_of_mem_filter hw)
  have hlen := length_filter_key_ne h.keys hw
  rw [hwt] at hlen
  have hgranted := s.granted_add_asleep
  have hgranted' := (s.leave t).granted_add_asleep
  have hbooks := h.books
  split_ifs at hs with hsleep hup
  · simp only [Option.some.injEq] at hs
    subst hs
    have hsame : (s.leave t).asleep = s.asleep := by
      rw [State.asleep_leave]
      refine filter_eq_self.mpr fun x hx => ?_
      have hne : x.proc ≠ t := by
        intro hxt
        obtain ⟨hx, hxup⟩ := State.mem_asleep.mp hx
        have : x = w := inj_on_of_nodup_map h.keys hx hw (hxt.trans hwt.symm)
        rw [this, hup] at hxup
        exact absurd hxup (by simp)
      simpa using hne
    refine ⟨hkeys, h.queue.trans (by rw [← hsame]; rfl), h.counts, h.order.sublist hlog,
      fun n hn => h.bound n (hlog.subset hn), hawake, ?_⟩
    rw [hsame] at hgranted'
    simp only [State.leave] at hlen hgranted' hbooks ⊢
    omega
  · obtain ⟨sem, hcancel, hs⟩ := Option.bind_eq_some_iff.mp hs
    simp only [Option.some.injEq] at hs
    subst hs
    simp only [Sem.cancel] at hcancel
    split_ifs at hcancel with hval
    simp only [Option.some.injEq] at hcancel
    subst hcancel
    have hval' := h.counts.val_eq (by omega)
    have hmem : t ∈ s.sem.sleeplist := by
      rw [h.queue, ← hwt]
      exact mem_map_of_mem (State.mem_asleep.mpr ⟨hw, by simpa using hup⟩)
    have hqueue : s.sem.sleeplist.erase t = (s.leave t).asleep.map WaitData.proc := by
      rw [State.asleep_leave, h.queue, map_filter_key_ne h.nodup_asleep]
    have herase := length_erase_of_mem hmem
    have hpos := length_pos_of_mem hmem
    refine ⟨hkeys, hqueue, Or.inr ?_, h.order.sublist hlog,
      fun n hn => h.bound n (hlog.subset hn), hawake, ?_⟩
    · simp only
      omega
    · have hq := congrArg List.length hqueue
      have hq' := congrArg List.length h.queue
      simp only [length_map] at hq hq'
      simp only [State.leave] at hlen hgranted' hbooks hq ⊢
      omega

theorem Inv.get (h : Inv v s) (hs : step s .get = some s') : Inv v s' := by
  obtain ⟨sem, hget, hs⟩ := Option.bind_eq_some_iff.mp hs
  simp only [Option.some.injEq] at hs
  subst hs
  simp only [Sem.get] at hget
  split_ifs at hget with hval
  simp only [Option.some.injEq] at hget
  subst hget
  have hbooks := h.books
  refine ⟨h.keys, h.queue, Or.inl ⟨?_, h.counts.nil (by omega)⟩, h.order, h.bound, h.awake, ?_⟩
  · simp only; omega
  · simp only at hbooks ⊢
    omega

theorem Inv.getAll (h : Inv v s) (hs : step s .getAll = some s') : Inv v s' := by
  simp only [step, Option.some.injEq] at hs
  subst hs
  have hbooks := h.books
  by_cases hval : 0 < s.sem.val
  · have hall : s.sem.getAll = (s.sem.val.toNat, { s.sem with val := 0 }) := if_pos hval
    rw [hall]
    refine ⟨h.keys, h.queue, Or.inl ⟨le_rfl, h.counts.nil (by omega)⟩, h.order, h.bound, h.awake, ?_⟩
    simp only at hbooks ⊢
    omega
  · have hall : s.sem.getAll = (0, s.sem) := if_neg hval
    rw [hall]
    exact h

theorem inv_step (s : State T) (l : Label T) (s' : State T) (h : Inv v s) :
    step s l = some s' → Inv v s' := by
  cases l with
  | wait t => exact h.wait
  | post => exact h.post
  | alert t => exact h.alert
  | resume t => exact h.resume
  | get => exact h.get
  | getAll => exact h.getAll
  | postAll => exact h.postAll

end OsHonor.Lib.Waiting
