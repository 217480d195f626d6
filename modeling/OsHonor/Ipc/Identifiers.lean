import OsHonor.Base.Runs
import OsHonor.Ipc.Code
import Mathlib.Data.List.Nodup

/-! # The identifiers of the queues

An identifier packs the slot of a queue and the sequence number it was created with. Beside the table the
machine keeps the identifiers in the order in which queues were created, and for every slot which of the
creations its queue is. `identifiers_exact` says which queue an identifier finds, in every run in which
the 16-bit counter does not give a slot a number that the slot was given before; `fresh_early` says that
the first 65536 creations are such. -/

namespace OsHonor.Ipc.Identifiers

open Option List Function Base.Runs Code

variable {P β : Type}

/-- The table, and the books: `created` are the identifiers of the queues created so far, and `owner i`
is the place of the queue in slot `i` among them. -/
structure Table (P β : Type) where
  ids : Ids P β
  receiver : P → Receiver β
  created : List ℤ
  owner : ℕ → Option ℕ

inductive Call
  | msgget (key : ℤ) (msgflg : Flags) (alloc : Bool)
  | msgctl (msgid cmd : ℤ)

def freeSlot (ids : Ids P β) : Option ℕ := (List.range ids.size).find? fun id => (ids.entries id).isNone

/-- The call of `sys_msgget` comes to `newque`, which gets memory. -/
def Creates (ids : Ids P β) (key : ℤ) (msgflg : Flags) (alloc : Bool) : Prop :=
  alloc ∧ (key = ipcPrivate ∨ ipcFindkey ids key = none ∧ msgflg.create)

instance (ids : Ids P β) (key : ℤ) (msgflg : Flags) (alloc : Bool) :
    Decidable (Creates ids key msgflg alloc) := inferInstanceAs (Decidable (_ ∧ _))

/-- A queue created in slot `i`. -/
def Table.create (t : Table P β) (r : ℤ × Ids P β) (i : ℕ) : Table P β :=
  { t with ids := r.2, created := t.created ++ [r.1], owner := update t.owner i (some t.created.length) }

/-- A call; `none` is the access outside the table. -/
def step [DecidableEq P] (t : Table P β) : Call → Option (Table P β)
  | .msgget key msgflg alloc =>
    let r := sysMsgget t.ids key msgflg alloc
    if Creates t.ids key msgflg alloc then
      match freeSlot t.ids with
      | some i => some (t.create r i)
      | none => some { t with ids := r.2 }
    else some { t with ids := r.2 }
  | .msgctl msgid cmd =>
    (sysMsgctl t.ids t.receiver msgid cmd).map fun (_, r) =>
      { t with
        ids := r.ids
        receiver := r.receiver
        owner := fun i => if (r.ids.entries i).isNone then none else t.owner i }

/-- `init_ipc`. -/
def boot (receiver : P → Receiver β) : Table P β := ⟨initIpc, receiver, [], fun _ => none⟩

/-- `get_msgq` stays inside the table: the identifier is not negative, or its remainder is zero. -/
def InTable (msgid : ℤ) : Prop := 0 ≤ msgid ∨ seqMultiplier ∣ msgid

instance (msgid : ℤ) : Decidable (InTable msgid) := inferInstanceAs (Decidable (_ ∨ _))

def Fresh (t : Table P β) : Prop := ∀ i, freeSlot t.ids = some i → ipcBuildin i t.ids.seq ∉ t.created

/-- **The condition**: a queue is created with a new number, and what is removed is in the table. -/
def Careful (t : Table P β) : Call → Prop
  | .msgget key msgflg alloc => Creates t.ids key msgflg alloc → Fresh t
  | .msgctl msgid cmd => cmd = ipcRmid → InTable msgid

/-! ### Lookups -/

variable {msgid : ℤ} {ids : Ids P β}

theorem tmod_of_inTable (h : InTable msgid) :
    0 ≤ msgid.tmod seqMultiplier ∧ msgid.tmod seqMultiplier < 16 ∧
      msgid = msgid.tdiv seqMultiplier * 16 + msgid.tmod seqMultiplier := by
  have hsum := Int.tdiv_mul_add_tmod msgid seqMultiplier
  rcases h with h | h
  · exact ⟨Int.tmod_nonneg _ h, Int.tmod_lt_of_pos _ (by decide), hsum.symm⟩
  · rw [Int.tmod_eq_zero_of_dvd h] at hsum ⊢
    exact ⟨le_rfl, by decide, hsum.symm⟩

/-- **`get_msgq` finds the queue with this number in this slot.** -/
theorem getMsgq_spec (hsize : ids.size = 16) (h : InTable msgid) :
    ∃ r, getMsgq ids msgid = some r ∧
      ∀ i, r = some i ↔ i < 16 ∧ ∃ q, ids.entries i = some q ∧ msgid = ipcBuildin i q.seq := by
  obtain ⟨h0, h16, hsum⟩ := tmod_of_inTable h
  have hin : ¬ (ids.size : ℤ) ≤ msgid.tmod seqMultiplier := by
    rw [hsize]
    omega
  generalize hj : msgid.tmod seqMultiplier = j at *
  generalize he : msgid.tdiv seqMultiplier = e at *
  -- a queue that has the identifier is in slot `j` with the number `e`
  have hslot : ∀ {i q}, i < 16 → msgid = ipcBuildin i q → i = j.toNat ∧ e = q := by
    intro i q hi hq
    unfold ipcBuildin seqMultiplier at hq
    omega
  simp only [getMsgq, hj, he, if_neg hin, if_neg (not_lt.mpr h0)]
  cases hq : ids.entries j.toNat with
  | none =>
    refine ⟨none, rfl, fun i => ⟨fun hr => absurd hr (by simp), ?_⟩⟩
    rintro ⟨hi, q, hqi, hid⟩
    rw [(hslot hi hid).1, hq] at hqi
    cases hqi
  | some q =>
    by_cases hseq : e = q.seq
    · refine ⟨some j.toNat, by simp [hseq], fun i => ⟨?_, ?_⟩⟩
      · rintro ⟨⟩
        refine ⟨by omega, q, hq, ?_⟩
        unfold ipcBuildin seqMultiplier
        omega
      · rintro ⟨hi, q', hqi, hid⟩
        rw [(hslot hi hid).1]
    · refine ⟨none, by simp [hseq], fun i => ⟨fun hr => absurd hr (by simp), ?_⟩⟩
      rintro ⟨hi, q', hqi, hid⟩
      rw [(hslot hi hid).1, hq] at hqi
      cases hqi
      exact absurd (hslot hi hid).2 hseq

/-! ### The calls -/

/-- **The books are right**: the queue in a slot is one of those created, and has the identifier it was
created with. No identifier was given twice. -/
structure Inv (t : Table P β) : Prop where
  size : t.ids.size = 16
  nodup : t.created.Nodup
  live : ∀ i q, t.ids.entries i = some q →
    i < 16 ∧ ∃ k, t.owner i = some k ∧ t.created[k]? = some (ipcBuildin i q.seq)
  free : ∀ i, t.ids.entries i = none → t.owner i = none

theorem inv_boot (receiver : P → Receiver β) : Inv (boot receiver) :=
  ⟨rfl, .nil, fun _ _ h => absurd h (by simp [boot, initIpc]), fun _ _ => rfl⟩

theorem freeSlot_spec {i : ℕ} (h : freeSlot ids = some i) :
    i < ids.size ∧ ids.entries i = none := by
  refine ⟨mem_range.mp (mem_of_find?_eq_some h), ?_⟩
  simpa using find?_some h

theorem ipcAddid_eq (ids : Ids P β) (que : Queue P β) : ipcAddid ids que = (freeSlot ids).map fun id =>
    (id, { ids with
      inUse := ids.inUse + 1
      seq := (ids.seq + 1) % 2 ^ 16
      entries := update ids.entries id (some { que with seq := ids.seq }) }) := rfl

theorem sysMsgget_spec (ids : Ids P β) (key : ℤ) (msgflg : Flags) (alloc : Bool) :
    (∃ i q, Creates ids key msgflg alloc ∧ freeSlot ids = some i ∧ q.seq = ids.seq ∧
      sysMsgget ids key msgflg alloc = (ipcBuildin i ids.seq, { ids with
          inUse := ids.inUse + 1
          seq := (ids.seq + 1) % 2 ^ 16
          entries := update ids.entries i (some q) })) ∨
    (¬ Creates ids key msgflg alloc ∨ freeSlot ids = none) ∧ (sysMsgget ids key msgflg alloc).2 = ids := by
  by_cases hc : Creates ids key msgflg alloc
  · have hnew : sysMsgget ids key msgflg alloc = newque ids key true := by
      obtain ⟨ha, hk | ⟨hk, hf⟩⟩ := hc
      · simp [sysMsgget, hk, ha]
      · by_cases hp : key = ipcPrivate
        · simp [sysMsgget, hp, ha]
        · simp [sysMsgget, hp, hk, hf, ha]
    cases hs : freeSlot ids with
    | none =>
      refine Or.inr ⟨Or.inr rfl, ?_⟩
      simp [hnew, newque, ipcAddid_eq, hs]
    | some i =>
      refine Or.inl ⟨i, ⟨key, ids.seq, maxMsgnum, 0, [], [], []⟩, hc, rfl, rfl, ?_⟩
      simp [hnew, newque, ipcAddid_eq, hs]
  · refine Or.inr ⟨Or.inl hc, ?_⟩
    unfold Creates at hc
    unfold sysMsgget newque
    cases alloc <;> grind

theorem freeque_spec [DecidableEq P] {receiver : P → Receiver β} {r : Removed P β}
    (h : freeque ids receiver msgid = some r) : r.ids.size = ids.size ∧ r.ids.seq = ids.seq ∧
      ∀ i, r.ids.entries i = ids.entries i ∨ r.ids.entries i = none := by
  obtain ⟨o, -, rfl⟩ := map_eq_some_iff.mp h
  cases o with
  | none => exact ⟨rfl, rfl, fun i => Or.inl rfl⟩
  | some id =>
    simp only
    cases ids.entries id with
    | none => exact ⟨rfl, rfl, fun i => Or.inl rfl⟩
    | some q =>
      refine ⟨rfl, rfl, fun i => ?_⟩
      by_cases hi : i = id
      · exact Or.inr (hi ▸ update_self ..)
      · exact Or.inl (update_of_ne hi ..)

section Steps

variable [DecidableEq P] {t t' : Table P β}

theorem step_msgget {key : ℤ} {msgflg : Flags} {alloc : Bool} (h : step t (.msgget key msgflg alloc) = some t') :
    (∃ i q, Creates t.ids key msgflg alloc ∧ freeSlot t.ids = some i ∧ q.seq = t.ids.seq ∧
      t' = ⟨⟨t.ids.size, t.ids.inUse + 1, (t.ids.seq + 1) % 2 ^ 16,
          update t.ids.entries i (some q)⟩, t.receiver,
        t.created ++ [ipcBuildin i t.ids.seq], update t.owner i (some t.created.length)⟩) ∨
    t' = t := by
  rcases sysMsgget_spec t.ids key msgflg alloc with ⟨i, q, hc, hi, hq, hr⟩ | ⟨hno, hr⟩
  · refine Or.inl ⟨i, q, hc, hi, hq, ?_⟩
    simp only [step, if_pos hc, hi, hr, some.injEq] at h
    exact h.symm
  · refine Or.inr ?_
    simp only [step, hr] at h
    split_ifs at h with hc
    · rw [hno.resolve_left fun hn => hn hc] at h
      exact (some.inj h).symm
    · exact (some.inj h).symm

theorem step_msgctl {cmd : ℤ} (h : step t (.msgctl msgid cmd) = some t') :
    t'.created = t.created ∧ t'.ids.size = t.ids.size ∧ t'.ids.seq = t.ids.seq ∧
      (∀ i, t'.ids.entries i = t.ids.entries i ∨ t'.ids.entries i = none) ∧
      ∀ i, t'.owner i = if (t'.ids.entries i).isNone then none else t.owner i := by
  obtain ⟨⟨v, r⟩, hr, rfl⟩ := map_eq_some_iff.mp h
  refine ⟨rfl, ?_⟩
  unfold sysMsgctl at hr
  split_ifs at hr with hcmd
  · obtain ⟨r', hfree, he⟩ := map_eq_some_iff.mp hr
    cases he
    obtain ⟨hsize, hseq, hent⟩ := freeque_spec hfree
    exact ⟨hsize, hseq, hent, fun i => rfl⟩
  · cases hr
    exact ⟨rfl, rfl, fun i => Or.inl rfl, fun i => rfl⟩

theorem inv_step {c : Call} (hi : Inv t) (hc : Careful t c) (hs : step t c = some t') : Inv t' := by
  cases c with
  | msgget key msgflg alloc =>
    rcases step_msgget hs with ⟨i, q, hcr, hslot, hq, rfl⟩ | rfl
    · have hnew := hc hcr i hslot
      have hi16 : i < 16 := hi.size ▸ (freeSlot_spec hslot).1
      have hnodup : (t.created ++ [ipcBuildin i t.ids.seq]).Nodup := by
        rw [← concat_eq_append]
        exact List.Nodup.concat hnew hi.nodup
      refine ⟨hi.size, hnodup, fun j q' hj => ?_, fun j hj => ?_⟩
      · dsimp only at hj ⊢
        by_cases hji : j = i
        · subst hji
          rw [update_self] at hj
          obtain rfl := some.inj hj
          refine ⟨hi16, t.created.length, update_self .., ?_⟩
          rw [hq, getElem?_concat_length]
        · rw [update_of_ne hji] at hj
          obtain ⟨hj16, k, hk, hid⟩ := hi.live j q' hj
          refine ⟨hj16, k, by rwa [update_of_ne hji], ?_⟩
          rw [getElem?_append_left (List.getElem?_eq_some_iff.mp hid).1]
          exact hid
      · dsimp only at hj ⊢
        have hji : j ≠ i := by
          rintro rfl
          simp at hj
        rw [update_of_ne hji] at hj ⊢
        exact hi.free j hj
    · exact hi
  | msgctl msgid cmd =>
    obtain ⟨hcreated, hsize, -, hent, howner⟩ := step_msgctl hs
    refine ⟨hsize.trans hi.size, hcreated ▸ hi.nodup, fun j q hj => ?_, fun j hj => ?_⟩
    · rw [howner, hcreated, hj]
      rcases hent j with h | h
      · exact hi.live j q (h ▸ hj)
      · rw [h] at hj
        cases hj
    · rw [howner, hj]
      rfl

end Steps

/-- **Identifiers are exact** in every state of a run in which a queue is created with a new number: an
identifier that is not negative, or a multiple of 16, is looked up inside the table, and finds a queue
if and only if it is the one that `sys_msgget` returned when it created that queue. The identifier of a
queue that was removed finds none. -/
theorem identifiers_exact [DecidableEq P] {receiver : P → Receiver β} {cs : List Call} {t : Table P β}
    (hrun : Run step Careful (boot receiver) cs t) {msgid : ℤ} (hid : InTable msgid) :
    (∀ i, (t.owner i).isSome ↔ (t.ids.entries i).isSome) ∧
    ∃ r, getMsgq t.ids msgid = some r ∧ (∀ i, r = some i → (t.owner i).isSome) ∧
      (∀ i k, t.owner i = some k → (r = some i ↔ t.created[k]? = some msgid)) ∧
      ∀ k, t.created[k]? = some msgid → (∀ i, t.owner i ≠ some k) → r = none := by
  have hi : Inv t := Run.inv (fun _ _ _ hi hc hs => inv_step hi hc hs) hrun (inv_boot receiver)
  obtain ⟨r, hr, hspec⟩ := getMsgq_spec hi.size hid
  have hlive : ∀ i, (t.owner i).isSome ↔ (t.ids.entries i).isSome := by
    intro i
    cases hq : t.ids.entries i with
    | none => simp [hi.free i hq]
    | some q =>
      obtain ⟨-, k, hk, -⟩ := hi.live i q hq
      simp [hk]
  -- a queue that is found is the one created with the identifier
  have hown : ∀ i k, t.owner i = some k → (r = some i ↔ t.created[k]? = some msgid) := by
    intro i k hk
    obtain ⟨q, hq⟩ := isSome_iff_exists.mp ((hlive i).mp (hk ▸ rfl))
    obtain ⟨hi16, k', hk', hcr⟩ := hi.live i q hq
    obtain rfl : k = k' := some.inj (hk.symm.trans hk')
    rw [hspec i, hcr, some.injEq]
    constructor
    · rintro ⟨-, q', hq', rfl⟩
      rw [hq] at hq'
      rw [some.inj hq']
    · rintro rfl
      exact ⟨hi16, q, hq, rfl⟩
  refine ⟨hlive, r, hr, fun i hi' => ?_, hown, fun k hk hgone => ?_⟩
  · obtain ⟨-, q, hq, -⟩ := (hspec i).mp hi'
    exact (hlive i).mpr (hq ▸ rfl)
  · cases hri : r with
    | none => rfl
    | some i =>
      obtain ⟨-, q, hq, -⟩ := (hspec i).mp hri
      obtain ⟨k', hk'⟩ := isSome_iff_exists.mp ((hlive i).mpr (hq ▸ rfl))
      have hcr := (hown i k' hk').mp hri
      obtain rfl : k = k' := by
        have hlt := (List.getElem?_eq_some_iff.mp hk).1
        exact (getElem?_inj hlt hi.nodup).mp (hk.trans hcr.symm)
      exact absurd hk' (hgone i)

def twoCreated : List Call :=
  [.msgget 7 ⟨true, false⟩ true, .msgget 0 ⟨false, false⟩ true, .msgctl 0 0, .msgget 7 ⟨true, false⟩ true]

instance (t : Table P β) : Decidable (Fresh t) :=
  decidable_of_iff ((freeSlot t.ids).all fun i => ipcBuildin i t.ids.seq ∉ t.created) (by
    unfold Fresh
    cases freeSlot t.ids <;> simp)

def carefulTest (t : Table P β) : Call → Bool
  | .msgget _ _ _ => Fresh t
  | .msgctl msgid _ => InTable msgid

theorem careful_of_test (t : Table P β) (c : Call) (h : carefulTest t c = true) : Careful t c := by
  cases c with
  | msgget key msgflg alloc => exact fun _ => of_decide_eq_true h
  | msgctl msgid cmd => exact fun _ => of_decide_eq_true h

theorem identifiers_exact_twoCreated :
    ∃ t : Table ℕ ℕ, Run step Careful (boot fun _ => ⟨0, 0, none⟩) twoCreated t ∧
      ∃ r, getMsgq t.ids 32 = some r ∧ (∀ i, r = some i → (t.owner i).isSome) ∧
        (∀ i k, t.owner i = some k → (r = some i ↔ t.created[k]? = some 32)) ∧
        ∀ k, t.created[k]? = some 32 → (∀ i, t.owner i ≠ some k) → r = none := by
  obtain ⟨t, ht⟩ : ∃ t : Table ℕ ℕ,
      exec step carefulTest (boot fun _ => ⟨0, 0, none⟩) twoCreated = some t :=
    isSome_iff_exists.mp (by decide +kernel)
  have hrun := run_of_exec careful_of_test ht
  exact ⟨t, hrun, (identifiers_exact hrun (Or.inl (by decide))).2⟩

/-! ### The counter -/

/-! ### Identifiers that are confused -/

/-- The identifiers of `n` queues created one after the other in the first slot. -/
def firstSlot (n : ℕ) : List ℤ := (List.range n).map fun k => ipcBuildin 0 (k % 2 ^ 16)

/-- The table after `n` queues were created and removed again. -/
def idle (receiver : P → Receiver β) (n : ℕ) : Table P β :=
  ⟨⟨16, 0, n % 2 ^ 16, fun _ => none⟩, receiver, firstSlot n, fun _ => none⟩

/-- The table with queue number `n` in the first slot. -/
def busy (receiver : P → Receiver β) (n : ℕ) : Table P β :=
  ⟨⟨16, 1, (n % 2 ^ 16 + 1) % 2 ^ 16,
      update (fun _ => none) 0 (some ⟨ipcPrivate, n % 2 ^ 16, maxMsgnum, 0, [], [], []⟩)⟩, receiver,
    firstSlot n ++ [ipcBuildin 0 (n % 2 ^ 16)], update (fun _ => none) 0 (some (firstSlot n).length)⟩

def getPrivate : Call := .msgget ipcPrivate ⟨false, false⟩ true

theorem step_idle [DecidableEq P] (receiver : P → Receiver β) (n : ℕ) :
    step (idle receiver n) getPrivate = some (busy receiver n) := rfl

theorem step_busy [DecidableEq P] (receiver : P → Receiver β) (n : ℕ) :
    step (busy receiver n) (.msgctl (ipcBuildin 0 (n % 2 ^ 16)) ipcRmid) = some (idle receiver (n + 1)) := by
  obtain ⟨r, hr, hspec⟩ : ∃ r, getMsgq (busy receiver n).ids (ipcBuildin 0 (n % 2 ^ 16)) = some r ∧ _ :=
    getMsgq_spec rfl (Or.inl (by unfold ipcBuildin seqMultiplier; omega))
  obtain rfl := (hspec 0).mpr ⟨by decide, _, rfl, rfl⟩
  have hfree : sysMsgctl (busy receiver n).ids receiver (ipcBuildin 0 (n % 2 ^ 16)) ipcRmid =
      some (0, ⟨⟨16, 0, (n % 2 ^ 16 + 1) % 2 ^ 16, fun _ => none⟩, receiver, [], [], some
        ⟨ipcPrivate, n % 2 ^ 16, maxMsgnum, 0, [], [], []⟩⟩) := by
    simp only [sysMsgctl, if_true, freeque, hr, map_some]
    simp [busy, ssWakeup, expungeAll]
  unfold step
  simp only [show (busy receiver n).receiver = receiver from rfl, hfree, map_some, idle, some.injEq]
  simp [busy, firstSlot, range_succ]

/-- Create and remove `n` queues. -/
def churn (n : ℕ) : List Call :=
  (List.range n).flatMap fun k => [getPrivate, .msgctl (ipcBuildin 0 (k % 2 ^ 16)) ipcRmid]

theorem run_churn [DecidableEq P] (receiver : P → Receiver β) :
    ∀ n, Run step (fun _ _ => True) (boot receiver) (churn n) (idle receiver n)
  | 0 => .nil _
  | n + 1 => by
    rw [churn, range_succ, flatMap_append]
    refine (run_churn receiver n).append ?_
    exact .cons trivial (step_idle receiver n) (.cons trivial (step_busy receiver n) (.nil _))

/-- The identifier `-1` is looked up before the table, and the identifier `0` of the first queue, removed
long ago, finds queue number 65536. -/
theorem identifiers_confused : getMsgq (initIpc : Ids ℕ ℕ) (-1) = none ∧
    ∃ t : Table ℕ ℕ, Run step (fun _ _ => True) (boot fun _ => ⟨0, 0, none⟩) (churn (2 ^ 16) ++ [getPrivate]) t ∧
      t.created[0]? = some 0 ∧ t.owner 0 = some (2 ^ 16) ∧ getMsgq t.ids 0 = some (some 0) := by
  refine ⟨rfl, busy (fun _ => ⟨0, 0, none⟩) (2 ^ 16), ?_, ?_, ?_, rfl⟩
  · exact (run_churn _ (2 ^ 16)).snoc trivial (step_idle _ _)
  · simp [busy, firstSlot, ipcBuildin]
  · simp [busy, firstSlot]

end OsHonor.Ipc.Identifiers
