import OsHonor.Base.Runs
import OsHonor.Ipc.Code
import Mathlib.Algebra.BigOperators.Fin
import Mathlib.Tactic.Abel

/-! # Delivery of messages

Any number of processes send to and receive from one queue, which is never removed: `get_msgq` always
finds it. Every section under `msg_ids.lock` is one step. A process that sleeps in `q_sender` or
`q_receiver` can go on once it has been taken off the list. Beside the queue the machine keeps the books:
the messages accepted, those taken, with the `mtype` of the receiver, and those returned, each in order.

A message reaches a receiver on one of two paths: `pipeline_send` hands it over, or the receiver takes it
from the queue. `delivery` says that no message is lost, doubled or overtaken. -/

namespace OsHonor.Ipc.Delivery

open Option List Function Base.Runs Code

variable {P β : Type}

/-- Where a process is. -/
inductive Pc (β : Type)
  /-- Outside, after a call that returned this. -/
  | user (ret : ℤ)
  /-- At `retry` of `sys_msgsnd`. -/
  | send (msg : Msg β) (msgflg : Flags)
  /-- Asleep in `sys_msgsnd`. -/
  | sending (msg : Msg β) (msgflg : Flags)
  /-- Asleep in `sys_msgrcv`. -/
  | receiving (msgsz : ℤ)
  /-- With a message, at the end of `sys_msgrcv`. -/
  | storing (msg : Msg β) (msgsz : ℤ)

/-- The queue, the processes, and the books. -/
structure World (P β : Type) where
  q : Queue P β
  receiver : P → Receiver β
  pc : P → Pc β
  accepted : List (Msg β)
  taken : List (ℤ × Msg β)
  returned : List (Msg β)

inductive Label (P β : Type)
  | msgsnd (p : P) (msgp : Option (ℤ × Option β)) (msgsz : ℤ) (msgflg : Flags)
  | lock (p : P)
  | sndWake (p : P)
  | msgrcv (p : P) (null : Bool) (msgsz mtype : ℤ) (msgflg : Flags)
  | rcvWake (p : P)
  | store (p : P)

section Step

variable [DecidableEq P]

def World.goto (w : World P β) (p : P) (pc : Pc β) : World P β := { w with pc := update w.pc p pc }

/-- A `sys_msgsnd` leaves its section. -/
def World.sent (w : World P β) (p : P) (msg : Msg β) (msgflg : Flags)
    (r : Queue P β × (P → Receiver β) × Sent × List P) : World P β :=
  match r.2.2.1 with
  | .sleeps => { w with q := r.1, receiver := r.2.1 }.goto p (.sending msg msgflg)
  | .returns err =>
    { w with
      q := r.1
      receiver := r.2.1
      accepted := if err = 0 then w.accepted ++ [msg] else w.accepted
      taken := w.taken ++ r.2.2.2.map fun rcver => ((w.receiver rcver).mtype, msg) }.goto p (.user err)

/-- A `sys_msgrcv` has a message or an error. -/
def World.received (w : World P β) (p : P) (msgsz : ℤ) : Received β → World P β
  | .returns err => w.goto p (.user err)
  | .takes msg => w.goto p (.storing msg msgsz)
  | .sleeps => w.goto p (.receiving msgsz)

/-- A step; `none` if the process is not there. -/
def step (w : World P β) : Label P β → Option (World P β)
  | .msgsnd p msgp msgsz msgflg =>
    match w.pc p with
    | .user _ =>
      match msgsndEnter msgp msgsz with
      | .error err => some (w.goto p (.user err))
      | .ok msg => some (w.goto p (.send msg msgflg))
    | _ => none
  | .lock p =>
    match w.pc p with
    | .send msg msgflg => (msgsndSection w.q w.receiver p msg msgflg).map (w.sent p msg msgflg)
    | _ => none
  | .sndWake p =>
    match w.pc p with
    | .sending msg msgflg => if p ∈ w.q.qSender then none else some (w.goto p (.send msg msgflg))
    | _ => none
  | .msgrcv p null msgsz mtype msgflg =>
    match w.pc p with
    | .user _ =>
      if msgsz < 0 ∨ null then some (w.goto p (.user eINVAL))
      else
        let (q, receiver, r, _) := msgrcvSection w.q w.receiver p msgsz mtype msgflg
        let w := { w with q := q, receiver := receiver }
        match r with
        | .takes msg => some ({ w with taken := w.taken ++ [(mtype, msg)] }.received p msgsz (.takes msg))
        | r => some (w.received p msgsz r)
    | _ => none
  | .rcvWake p =>
    match w.pc p with
    | .receiving msgsz =>
      if p ∈ w.q.qReceiver then none else some (w.received p msgsz (msgrcvWoken (w.receiver p)))
    | _ => none
  | .store p =>
    match w.pc p with
    | .storing msg msgsz =>
      some ({ w with returned := w.returned ++ [msg] }.goto p (.user (min msgsz msg.size)))
    | _ => none

/-- The queue as `newque` made it, before the first call. -/
def boot (key : ℤ) (seq : ℕ) (receiver : P → Receiver β) : World P β :=
  ⟨⟨key, seq, maxMsgnum, 0, [], [], []⟩, receiver, fun _ => .user 0, [], [], []⟩

/-- The message that was handed to the process and not returned yet. -/
def held (w : World P β) (p : P) : Multiset (Msg β) :=
  match w.pc p with
  | .storing msg _ => {msg}
  | .receiving _ => if p ∈ w.q.qReceiver then 0 else ↑(w.receiver p).rMsg.toList
  | _ => 0

/-- The messages of type `t` taken by receivers that asked for any type or for `t`, in order. -/
def takenOf (t : ℤ) (w : World P β) : List (Msg β) :=
  (w.taken.filter fun x => (x.1 = 0 ∨ x.1 = t) ∧ x.2.mtype = t).map Prod.snd

/-- The messages of type `t` in a list. -/
def ofType (t : ℤ) (l : List (Msg β)) : List (Msg β) := l.filter fun m => m.mtype = t

end Step

/-! ### The two searches -/

variable {receiver : P → Receiver β} {msg : Msg β} {mtype msgsz t : ℤ} {p : P} {pc : Pc β}

theorem pipelineSend_none : ∀ {l : List P},
    pipelineSend receiver msg l = some none → ∀ r ∈ l, testmsg (receiver r).mtype msg.mtype = false
  | [], _, r, hr => absurd hr not_mem_nil
  | p :: l, h, r, hr => by
    rw [pipelineSend] at h
    split_ifs at h with htest hsize
    · simp at h
    · rcases mem_cons.mp hr with rfl | hr
      · simpa using htest
      · exact pipelineSend_none h r hr

variable {r : P} {j i : ℕ} {msgflg : Flags} {ret : ℤ} {l : List (Msg β)}

theorem pipelineSend_some : ∀ {l : List P},
    pipelineSend receiver msg l = some (some r) → r ∈ l ∧ testmsg (receiver r).mtype msg.mtype = true
  | [], h => by simp [pipelineSend] at h
  | p :: l, h => by
    rw [pipelineSend] at h
    split_ifs at h with htest hsize
    · obtain rfl : p = r := by simpa using h
      exact ⟨mem_cons_self, htest⟩
    · obtain ⟨hr, ht⟩ := pipelineSend_some h
      exact ⟨mem_cons_of_mem _ hr, ht⟩

theorem pipelineSend_isSome : ∀ {l : List P},
    (∀ r ∈ l, msg.size ≤ (receiver r).size) → (pipelineSend receiver msg l).isSome
  | [], _ => rfl
  | p :: l, h => by
    rw [pipelineSend, if_neg (not_lt.mpr (h p mem_cons_self))]
    split_ifs
    · rfl
    · exact pipelineSend_isSome fun r hr => h r (mem_cons_of_mem _ hr)

theorem findMsg_none : ∀ {l : List (Msg β)} {i : ℕ},
    findMsg mtype i none l = none → ∀ m ∈ l, testmsg mtype m.mtype = false
  | [], _, _, m, hm => absurd hm not_mem_nil
  | x :: l, i, h, m, hm => by
    rw [findMsg] at h
    split_ifs at h with htest hlow
    · exact absurd h (findMsg_ne_none l)
    · rcases mem_cons.mp hm with rfl | hm
      · simpa using htest
      · exact findMsg_none h m hm
where
  findMsg_ne_none {mtype : ℤ} {i j : ℕ} : ∀ l : List (Msg β), findMsg mtype i (some j) l ≠ none
    | [] => by simp [findMsg]
    | x :: l => by
      rw [findMsg]
      split_ifs
      · exact findMsg_ne_none l
      · simp
      · exact findMsg_ne_none l

theorem findMsg_lt : ∀ {l : List (Msg β)} {mtype : ℤ} {i : ℕ} {found : Option ℕ},
    findMsg mtype i found l = some j → found = some j ∨ (i ≤ j ∧ j < i + l.length)
  | [], _, _, _, h => Or.inl h
  | x :: l, mtype, i, found, h => by
    rw [findMsg] at h
    rw [length_cons]
    split_ifs at h with htest hlow
    · rcases findMsg_lt h with h | h
      · obtain rfl := some.inj h
        omega
      · omega
    · obtain rfl := some.inj h
      omega
    · rcases findMsg_lt h with h | h
      · exact Or.inl h
      · omega

theorem findMsg_first (hm : 0 ≤ mtype) : ∀ {l : List (Msg β)} {i : ℕ},
    findMsg mtype i none l = some j →
    ∃ l₁ m l₂, l = l₁ ++ m :: l₂ ∧ j = i + l₁.length ∧ testmsg mtype m.mtype = true ∧
      ∀ x ∈ l₁, testmsg mtype x.mtype = false
  | [], _, h => by simp [findMsg] at h
  | x :: l, i, h => by
    rw [findMsg, if_neg (show ¬ mtype < -1 by omega)] at h
    split_ifs at h with htest
    · obtain rfl := some.inj h
      exact ⟨[], x, l, rfl, rfl, htest, fun y hy => absurd hy not_mem_nil⟩
    · obtain ⟨l₁, m, l₂, rfl, rfl, hmt, hbefore⟩ := findMsg_first hm h
      refine ⟨x :: l₁, m, l₂, rfl, by rw [length_cons]; omega, hmt, fun y hy => ?_⟩
      rcases mem_cons.mp hy with rfl | hy
      · simpa using htest
      · exact hbefore y hy

/-! ### What a step does -/

def Pc.bare : Pc β → Prop
  | .receiving _ | .storing _ _ => False
  | _ => True

/-- The message that is being sent has a type that `sys_msgsnd` accepts. -/
def Pc.typed : Pc β → Prop
  | .send msg _ | .sending msg _ => 1 ≤ msg.mtype
  | _ => True

theorem typed_of_enter {msgp : Option (ℤ × Option β)}
    (h : msgsndEnter msgp msgsz = .ok msg) : 1 ≤ msg.mtype := by
  unfold msgsndEnter at h
  rcases msgp with _ | ⟨mtype, _ | body⟩
  · cases h
  · simp only at h
    split_ifs at h
  · simp only at h
    split_ifs at h with hbad
    cases h
    show 1 ≤ mtype
    omega

section Effects

variable [DecidableEq P]

/-- **What a step does.** -/
inductive Effect (w : World P β) : World P β → Prop
  /-- A process goes on, and `q_sender` may change. -/
  | move {p : P} {pc : Pc β} (l : List P) : (w.pc p).bare → pc.bare → ((w.pc p).typed → pc.typed) →
      Effect w ({ w with q := { w.q with qSender := l } }.goto p pc)
  /-- A message is queued. -/
  | queue {p : P} {msg : Msg β} : (w.pc p).bare → ((w.pc p).typed → 1 ≤ msg.mtype) →
      w.q.sumMsg + 1 ≤ w.q.maxMsg →
      (∀ r ∈ w.q.qReceiver, testmsg (w.receiver r).mtype msg.mtype = false) →
      Effect w ({ w with
        q := { w.q with qMessage := w.q.qMessage ++ [msg], sumMsg := w.q.sumMsg + 1 }
        accepted := w.accepted ++ [msg] }.goto p (.user 0))
  /-- A message is handed to the receiver `r`. -/
  | handOver {p r : P} {msg : Msg β} : (w.pc p).bare → r ∈ w.q.qReceiver →
      testmsg (w.receiver r).mtype msg.mtype = true →
      Effect w ({ w with
        q := { w.q with qReceiver := w.q.qReceiver.erase r }
        receiver := update w.receiver r { w.receiver r with rMsg := some msg }
        accepted := w.accepted ++ [msg]
        taken := w.taken ++ [((w.receiver r).mtype, msg)] }.goto p (.user 0))
  /-- A receiver takes the message at position `i`. -/
  | take {p : P} {i : ℕ} {msg : Msg β} {msgsz mtype : ℤ} : (w.pc p).bare →
      w.q.qMessage[i]? = some msg → findMsg mtype 0 none w.q.qMessage = some i →
      Effect w ({ w with
        q := { w.q with qMessage := w.q.qMessage.eraseIdx i, sumMsg := w.q.sumMsg - 1, qSender := [] }
        taken := w.taken ++ [(mtype, msg)] }.goto p (.storing msg msgsz))
  /-- A receiver goes to sleep. -/
  | wait {p : P} {msgsz mtype : ℤ} : (w.pc p).bare →
      (∀ m ∈ w.q.qMessage, testmsg mtype m.mtype = false) →
      Effect w ({ w with
        q := { w.q with qReceiver := w.q.qReceiver ++ [p] }
        receiver := update w.receiver p ⟨mtype, msgsz, (w.receiver p).rMsg⟩ }.goto p
          (.receiving msgsz))
  /-- A receiver wakes up. -/
  | wake {p : P} {msgsz : ℤ} : w.pc p = .receiving msgsz → p ∉ w.q.qReceiver →
      Effect w (w.received p msgsz (msgrcvWoken (w.receiver p)))
  /-- A receiver returns its message. -/
  | store {p : P} {msg : Msg β} {msgsz ret : ℤ} : w.pc p = .storing msg msgsz →
      Effect w ({ w with returned := w.returned ++ [msg] }.goto p (.user ret))

theorem lock_effect {w w' : World P β} (hpc : w.pc p = .send msg msgflg)
    (h : (msgsndSection w.q w.receiver p msg msgflg).map (w.sent p msg msgflg) = some w') : Effect w w' := by
  have hbare : (w.pc p).bare := hpc ▸ trivial
  have htyped : (w.pc p).typed → 1 ≤ msg.mtype := by
    rw [hpc]
    exact id
  obtain ⟨r, hr, rfl⟩ := map_eq_some_iff.mp h
  unfold msgsndSection at hr
  split_ifs at hr with hfull hnow
  · obtain rfl := some.inj hr
    have hmove := Effect.move w.q.qSender hbare (show (Pc.user eAGAIN : Pc β).bare from trivial) fun _ => trivial
    simpa [World.sent, eAGAIN] using hmove
  · obtain rfl := some.inj hr
    exact Effect.move (w.q.qSender ++ [p]) hbare trivial htyped
  · obtain ⟨o, ho, rfl⟩ := map_eq_some_iff.mp hr
    cases o with
    | none => simpa [World.sent] using Effect.queue hbare htyped (by omega) (pipelineSend_none ho)
    | some r =>
      obtain ⟨hmem, htest⟩ := pipelineSend_some ho
      simpa [World.sent] using Effect.handOver hbare hmem htest

theorem msgrcvSection_cases (q : Queue P β) (receiver : P → Receiver β) (p : P) (msgsz mtype : ℤ)
    (msgflg : Flags) :
    (∃ err, msgrcvSection q receiver p msgsz mtype msgflg = (q, receiver, .returns err, [])) ∨
    (∃ i msg, q.qMessage[i]? = some msg ∧ findMsg mtype 0 none q.qMessage = some i ∧
      msgrcvSection q receiver p msgsz mtype msgflg =
        ({ q with qMessage := q.qMessage.eraseIdx i, sumMsg := q.sumMsg - 1, qSender := [] }, receiver,
          .takes msg, q.qSender)) ∨
    (∀ m ∈ q.qMessage, testmsg mtype m.mtype = false) ∧
      msgrcvSection q receiver p msgsz mtype msgflg =
        ({ q with qReceiver := q.qReceiver ++ [p] },
          update receiver p ⟨mtype, msgsz, (receiver p).rMsg⟩, .sleeps, []) := by
  unfold msgrcvSection
  cases hfind : findMsg mtype 0 none q.qMessage with
  | none =>
    rw [bind_none]
    by_cases hnow : msgflg.nowait
    · exact Or.inl ⟨eNOMSG, by simp [hnow]⟩
    · exact Or.inr (Or.inr ⟨findMsg_none hfind, by simp [hnow]⟩)
  | some i =>
    have hlt : i < q.qMessage.length := by
      rcases findMsg_lt hfind with h0 | h0
      · cases h0
      · omega
    have hget := getElem?_eq_getElem hlt
    rw [bind_some, hget, map_some]
    by_cases hbig : msgsz < (q.qMessage[i]).size
    · exact Or.inl ⟨e2BIG, by simp [hbig]⟩
    · exact Or.inr (Or.inl ⟨i, _, hget, rfl, by simp [hbig, ssWakeup]⟩)

theorem msgrcv_effect {w w' : World P β} {null : Bool}
    (hpc : w.pc p = .user ret) (h : step w (.msgrcv p null msgsz mtype msgflg) = some w') : Effect w w' := by
  have hbare : (w.pc p).bare := hpc ▸ trivial
  simp only [step, hpc] at h
  split_ifs at h with hbad
  · cases h
    exact Effect.move w.q.qSender hbare trivial fun _ => trivial
  · rcases msgrcvSection_cases w.q w.receiver p msgsz mtype msgflg with
      ⟨err, hsec⟩ | ⟨i, msg, hget, hfind, hsec⟩ | ⟨hnone, hsec⟩
    · simp only [hsec] at h
      cases h
      exact Effect.move w.q.qSender hbare trivial fun _ => trivial
    · simp only [hsec] at h
      cases h
      exact Effect.take hbare hget hfind
    · simp only [hsec] at h
      cases h
      exact Effect.wait hbare hnone

/-- **Every step has one of these effects.** -/
theorem step_effect {w w' : World P β} {l : Label P β} (h : step w l = some w') : Effect w w' := by
  cases l with
  | msgsnd p msgp msgsz msgflg =>
    cases hpc : w.pc p with
    | user ret =>
      have hbare : (w.pc p).bare := hpc ▸ trivial
      simp only [step, hpc] at h
      cases hmsg : msgsndEnter msgp msgsz with
      | error err =>
        rw [hmsg] at h
        cases h
        exact Effect.move w.q.qSender hbare trivial fun _ => trivial
      | ok msg =>
        rw [hmsg] at h
        cases h
        exact Effect.move w.q.qSender hbare trivial fun _ => typed_of_enter hmsg
    | _ => simp [step, hpc] at h
  | lock p =>
    cases hpc : w.pc p with
    | send msg msgflg =>
      simp only [step, hpc] at h
      exact lock_effect hpc h
    | _ => simp [step, hpc] at h
  | sndWake p =>
    cases hpc : w.pc p with
    | sending msg msgflg =>
      simp only [step, hpc] at h
      split_ifs at h
      cases h
      refine Effect.move w.q.qSender (hpc ▸ trivial) trivial ?_
      rw [hpc]
      exact id
    | _ => simp [step, hpc] at h
  | msgrcv p null msgsz mtype msgflg =>
    cases hpc : w.pc p with
    | user ret => exact msgrcv_effect hpc h
    | _ => simp [step, hpc] at h
  | rcvWake p =>
    cases hpc : w.pc p with
    | receiving msgsz =>
      simp only [step, hpc] at h
      split_ifs at h with hmem
      cases h
      exact Effect.wake hpc hmem
    | _ => simp [step, hpc] at h
  | store p =>
    cases hpc : w.pc p with
    | storing msg msgsz =>
      simp only [step, hpc] at h
      cases h
      exact Effect.store hpc
    | _ => simp [step, hpc] at h

/-! ### The lists of the queue -/

/-- **The queue is in order**: who is in `q_receiver` sleeps, `sum_msg` counts the messages, and no
message waits for a receiver that waits for it. -/
structure Ordered (w : World P β) : Prop where
  asleep : ∀ r ∈ w.q.qReceiver, ∃ msgsz, w.pc r = .receiving msgsz
  nodup : w.q.qReceiver.Nodup
  sum : w.q.sumMsg = w.q.qMessage.length
  cap : w.q.sumMsg ≤ w.q.maxMsg
  unmatched : ∀ r ∈ w.q.qReceiver, ∀ m ∈ w.q.qMessage, testmsg (w.receiver r).mtype m.mtype = false
  typed : ∀ p, (w.pc p).typed
  types : ∀ m ∈ w.q.qMessage, 1 ≤ m.mtype

omit [DecidableEq P] in
theorem ordered_boot (key : ℤ) (seq : ℕ) (receiver : P → Receiver β) : Ordered (boot key seq receiver) where
  asleep := fun r hr => absurd hr not_mem_nil
  nodup := .nil
  sum := rfl
  cap := by
    show (0 : ℤ) ≤ maxMsgnum
    decide
  unmatched := fun r hr => absurd hr not_mem_nil
  typed := fun p => trivial
  types := fun m hm => absurd hm not_mem_nil

section Ordered

variable {w w' : World P β}

omit [DecidableEq P] in
theorem Ordered.ne_of_bare (h : Ordered w) (hp : (w.pc p).bare) (hr : r ∈ w.q.qReceiver) : r ≠ p := by
  rintro rfl
  obtain ⟨sz, hsz⟩ := h.asleep r hr
  rw [hsz] at hp
  exact hp

theorem Ordered.asleep_update (h : Ordered w) (hp : p ∉ w.q.qReceiver) :
    ∀ r ∈ w.q.qReceiver, ∃ msgsz, update w.pc p pc r = .receiving msgsz := by
  intro r hr
  have hne : r ≠ p := by
    rintro rfl
    exact hp hr
  rw [update_of_ne hne]
  exact h.asleep r hr

theorem Ordered.typed_update (h : Ordered w) (hpc : pc.typed) (x : P) :
    (update w.pc p pc x).typed := by
  by_cases hx : x = p
  · rwa [hx, update_self]
  · rw [update_of_ne hx]
    exact h.typed x

omit [DecidableEq P] in
theorem Ordered.not_mem (h : Ordered w) (hp : (w.pc p).bare) : p ∉ w.q.qReceiver :=
  fun hm => h.ne_of_bare hp hm rfl

theorem ordered_step (h : Ordered w) (he : Effect w w') : Ordered w' := by
  cases he with
  | @move p pc l hp hpc htyped =>
    exact ⟨h.asleep_update (h.not_mem hp), h.nodup, h.sum, h.cap, h.unmatched,
      h.typed_update (htyped (h.typed p)), h.types⟩
  | @queue p msg hp htyped hcap hnone =>
    refine ⟨h.asleep_update (h.not_mem hp), h.nodup, ?_, hcap, fun r hr m hm => ?_, h.typed_update trivial,
      fun m hm => ?_⟩
    · show w.q.sumMsg + 1 = ((w.q.qMessage ++ [msg]).length : ℤ)
      rw [h.sum, length_append, length_singleton]
      rfl
    · rcases mem_append.mp hm with hm | hm
      · exact h.unmatched r hr m hm
      · obtain rfl := mem_singleton.mp hm
        exact hnone r hr
    · rcases mem_append.mp hm with hm | hm
      · exact h.types m hm
      · obtain rfl := mem_singleton.mp hm
        exact htyped (h.typed p)
  | @handOver p r msg hp hr htest =>
    refine ⟨fun r' hr' => ?_, h.nodup.erase r, h.sum, h.cap, fun r' hr' m hm => ?_, h.typed_update trivial,
      h.types⟩
    · exact h.asleep_update (h.not_mem hp) r' (mem_of_mem_erase hr')
    · have hne : r' ≠ r := ((List.Nodup.mem_erase_iff h.nodup).mp hr').1
      show testmsg (update w.receiver r _ r').mtype m.mtype = false
      rw [update_of_ne hne]
      exact h.unmatched r' (mem_of_mem_erase hr') m hm
  | @take p i msg msgsz mtype hp hget hfind =>
    have hlt := (List.getElem?_eq_some_iff.mp hget).1
    refine ⟨h.asleep_update (h.not_mem hp), h.nodup, ?_, ?_, fun r hr m hm => ?_, h.typed_update trivial,
      fun m hm => h.types m (mem_of_mem_eraseIdx hm)⟩
    · show w.q.sumMsg - 1 = ((w.q.qMessage.eraseIdx i).length : ℤ)
      rw [h.sum, length_eraseIdx_of_lt hlt]
      omega
    · show w.q.sumMsg - 1 ≤ w.q.maxMsg
      have := h.cap
      omega
    · exact h.unmatched r hr m (mem_of_mem_eraseIdx hm)
  | @wait p msgsz mtype hp hnone =>
    have hnot := h.not_mem hp
    refine ⟨fun r hr => ?_, ?_, h.sum, h.cap, fun r hr m hm => ?_, h.typed_update trivial, h.types⟩
    · show ∃ msgsz', update w.pc p (.receiving msgsz) r = .receiving msgsz'
      rcases mem_append.mp hr with hr | hr
      · exact h.asleep_update hnot r hr
      · obtain rfl := mem_singleton.mp hr
        exact ⟨msgsz, update_self ..⟩
    · show (w.q.qReceiver ++ [p]).Nodup
      rw [← concat_eq_append]
      exact List.Nodup.concat hnot h.nodup
    · show testmsg (update w.receiver p _ r).mtype m.mtype = false
      rcases mem_append.mp hr with hr | hr
      · rw [update_of_ne (h.ne_of_bare hp hr)]
        exact h.unmatched r hr m hm
      · obtain rfl := mem_singleton.mp hr
        rw [update_self]
        exact hnone m hm
  | @wake p msgsz hpc hnot =>
    unfold msgrcvWoken
    cases (w.receiver p).rMsg with
    | none =>
      exact ⟨h.asleep_update hnot, h.nodup, h.sum, h.cap, h.unmatched, h.typed_update trivial, h.types⟩
    | some msg =>
      exact ⟨h.asleep_update hnot, h.nodup, h.sum, h.cap, h.unmatched, h.typed_update trivial, h.types⟩
  | @store p msg msgsz ret hpc =>
    have hnot : p ∉ w.q.qReceiver := by
      intro hm
      obtain ⟨sz, hsz⟩ := h.asleep p hm
      rw [hpc] at hsz
      cases hsz
    exact ⟨h.asleep_update hnot, h.nodup, h.sum, h.cap, h.unmatched, h.typed_update trivial, h.types⟩

end Ordered

/-! ### No message is lost or doubled -/

section Account

variable {w w' : World P β}

theorem held_congr (hpc : w'.pc p = w.pc p) (hr : w'.receiver p = w.receiver p)
    (hq : p ∈ w'.q.qReceiver ↔ p ∈ w.q.qReceiver) : held w' p = held w p := by
  unfold held
  rw [hpc, hr]
  simp only [hq]

theorem held_of_bare (h : (w.pc p).bare) : held w p = 0 := by
  unfold held
  cases hpc : w.pc p with
  | receiving sz =>
    rw [hpc] at h
    exact h.elim
  | storing msg sz =>
    rw [hpc] at h
    exact h.elim
  | _ => rfl

theorem sum_held [Fintype P] (p : P) (h : ∀ p' ≠ p, held w' p' = held w p') :
    ∑ x, held w' x + held w p = ∑ x, held w x + held w' p := by
  rw [← Finset.add_sum_erase _ (held w) (Finset.mem_univ p),
    ← Finset.add_sum_erase _ (held w') (Finset.mem_univ p)]
  rw [Finset.sum_congr rfl fun x hx => h x (Finset.ne_of_mem_erase hx)]
  abel

theorem held_goto {v : World P β} {p' : P} (hne : p' ≠ p) (hpc : v.pc = w.pc)
    (hr : v.receiver p' = w.receiver p') (hq : p' ∈ v.q.qReceiver ↔ p' ∈ w.q.qReceiver) :
    held (v.goto p pc) p' = held w p' := by
  refine held_congr ?_ hr hq
  show update v.pc p pc p' = w.pc p'
  rw [update_of_ne hne, hpc]

theorem held_goto_bare (h : pc.bare) : held (w.goto p pc) p = 0 := by
  refine held_of_bare ?_
  show (update w.pc p pc p).bare
  rwa [update_self]

theorem held_goto_user : held (w.goto p (.user ret)) p = 0 := held_goto_bare trivial

theorem held_of_mem (h : w.pc p = .receiving msgsz) (hm : p ∈ w.q.qReceiver) : held w p = 0 := by
  unfold held
  rw [h]
  exact if_pos hm

theorem held_of_not_mem (h : w.pc p = .receiving msgsz) (hm : p ∉ w.q.qReceiver) :
    held w p = ↑(w.receiver p).rMsg.toList := by
  unfold held
  rw [h]
  exact if_neg hm

theorem held_goto_storing : held (w.goto p (.storing msg msgsz)) p = {msg} := by
  unfold held
  rw [show (w.goto p (.storing msg msgsz)).pc p = .storing msg msgsz from update_self ..]

/-- **The messages are accounted for**: accepted are those in the queue, those handed over, and those
returned. -/
def Accounted [Fintype P] (w : World P β) : Prop :=
  (w.accepted : Multiset (Msg β)) = w.q.qMessage + ∑ p, held w p + w.returned

theorem Accounted.of_balance [Fintype P] (h : Accounted w) (p : P) (hne : ∀ p' ≠ p, held w' p' = held w p')
    (hbal : (w'.accepted : Multiset (Msg β)) + w.q.qMessage + held w p + w.returned =
      w.accepted + w'.q.qMessage + held w' p + w'.returned) : Accounted w' := by
  have hsum := sum_held p hne
  unfold Accounted at *
  rw [h] at hbal
  refine add_right_cancel (b := (w.q.qMessage : Multiset (Msg β)) + held w p + w.returned) ?_
  calc (w'.accepted : Multiset (Msg β)) + (w.q.qMessage + held w p + w.returned)
      = w'.accepted + w.q.qMessage + held w p + w.returned := by abel
    _ = w.q.qMessage + ∑ p, held w p + w.returned + w'.q.qMessage + held w' p + w'.returned := hbal
    _ = w.q.qMessage + (∑ p, held w p + held w' p) + w.returned + w'.q.qMessage + w'.returned := by abel
    _ = w.q.qMessage + (∑ p, held w' p + held w p) + w.returned + w'.q.qMessage + w'.returned := by rw [hsum]
    _ = w'.q.qMessage + ∑ p, held w' p + w'.returned + (w.q.qMessage + held w p + w.returned) := by abel

theorem coe_concat (l : List (Msg β)) (m : Msg β) : ((l ++ [m] : List (Msg β)) : Multiset (Msg β)) = l + {m} := by
  rw [← Multiset.coe_add, Multiset.coe_singleton]

theorem coe_eraseIdx {m : Msg β} (h : l[i]? = some m) :
    (l : Multiset (Msg β)) = (l.eraseIdx i : List (Msg β)) + {m} := by
  obtain ⟨hlt, rfl⟩ := List.getElem?_eq_some_iff.mp h
  rw [← coe_concat]
  refine Multiset.coe_eq_coe.mpr ?_
  exact (getElem_cons_eraseIdx_perm hlt).symm.trans (perm_append_singleton _ _).symm

theorem accounted_step [Fintype P] (ho : Ordered w) (h : Accounted w) (he : Effect w w') : Accounted w' := by
  cases he with
  | @move p pc l hp hpc htyped =>
    refine h.of_balance p (fun p' hne => held_goto hne rfl rfl Iff.rfl) ?_
    rw [held_of_bare hp, held_goto_bare hpc]
    rfl
  | @queue p msg hp htyped hcap hnone =>
    refine h.of_balance p (fun p' hne => held_goto hne rfl rfl Iff.rfl) ?_
    rw [held_of_bare hp, held_goto_user]
    show ((w.accepted ++ [msg] : List (Msg β)) : Multiset (Msg β)) + w.q.qMessage + 0 + w.returned =
      w.accepted + (w.q.qMessage ++ [msg] : List (Msg β)) + 0 + w.returned
    rw [coe_concat, coe_concat]
    abel
  | @handOver p r msg hp hr htest =>
    have hrp := ho.ne_of_bare hp hr
    obtain ⟨sz, hsz⟩ := ho.asleep r hr
    refine h.of_balance r (fun p' hne => ?_) ?_
    · by_cases hpp : p' = p
      · subst hpp
        rw [held_of_bare hp, held_goto_user]
      · exact held_goto hpp rfl (update_of_ne hne ..) (mem_erase_of_ne hne)
    · -- the receiver was on the list, and is not any more
      have hnot : r ∉ w.q.qReceiver.erase r := List.Nodup.not_mem_erase ho.nodup
      rw [held_of_mem hsz hr, held_of_not_mem ((update_of_ne hrp ..).trans hsz) hnot]
      show ((w.accepted ++ [msg] : List (Msg β)) : Multiset (Msg β)) + w.q.qMessage + 0 + w.returned =
        w.accepted + w.q.qMessage +
          ((update w.receiver r { w.receiver r with rMsg := some msg } r).rMsg.toList : Multiset (Msg β)) +
          w.returned
      rw [update_self, coe_concat, toList_some, Multiset.coe_singleton]
      abel
  | @take p i msg msgsz mtype hp hget hfind =>
    refine h.of_balance p (fun p' hne => held_goto hne rfl rfl Iff.rfl) ?_
    rw [held_of_bare hp, held_goto_storing, coe_eraseIdx hget]
    show (w.accepted : Multiset (Msg β)) + ((w.q.qMessage.eraseIdx i : List (Msg β)) + {msg}) + 0 + w.returned =
      w.accepted + (w.q.qMessage.eraseIdx i : List (Msg β)) + {msg} + w.returned
    abel
  | @wait p msgsz mtype hp hnone =>
    refine h.of_balance p (fun p' hne => held_goto hne rfl (update_of_ne hne ..) ?_) ?_
    · show p' ∈ w.q.qReceiver ++ [p] ↔ _
      simp [hne]
    · have hmem : p ∈ w.q.qReceiver ++ [p] := mem_append_right _ (mem_singleton.mpr rfl)
      rw [held_of_bare hp, held_of_mem (update_self ..) hmem]
      rfl
  | @wake p msgsz hpc hnot =>
    have hbefore := held_of_not_mem hpc hnot
    unfold msgrcvWoken
    cases hmsg : (w.receiver p).rMsg with
    | none =>
      refine h.of_balance p (fun p' hne => held_goto hne rfl rfl Iff.rfl) ?_
      rw [hbefore, hmsg, World.received, held_goto_user]
      rfl
    | some msg =>
      refine h.of_balance p (fun p' hne => held_goto hne rfl rfl Iff.rfl) ?_
      rw [hbefore, hmsg, World.received, held_goto_storing]
      rfl
  | @store p msg msgsz ret hpc =>
    have hbefore : held w p = {msg} := by
      unfold held
      rw [hpc]
    refine h.of_balance p (fun p' hne => held_goto hne rfl rfl Iff.rfl) ?_
    rw [hbefore, held_goto_user]
    show (w.accepted : Multiset (Msg β)) + w.q.qMessage + {msg} + w.returned =
      w.accepted + w.q.qMessage + 0 + (w.returned ++ [msg] : List (Msg β))
    rw [coe_concat]
    abel

end Account

/-! ### No message overtakes another of its type -/

section Order

variable {w w' : World P β}

/-- What was taken of a type, and then what is queued of it, was accepted in that order. -/
def InOrder (w : World P β) : Prop :=
  ∀ t, (takenOf t w ++ ofType t w.q.qMessage).Sublist (ofType t w.accepted)

omit [DecidableEq P] in
theorem takenOf_concat (h : w'.taken = w.taken ++ [(mtype, msg)]) :
    takenOf t w' = takenOf t w ++ if (mtype = 0 ∨ mtype = t) ∧ msg.mtype = t then [msg] else [] := by
  unfold takenOf
  rw [h, filter_append, map_append, filter_singleton]
  by_cases hc : (mtype = 0 ∨ mtype = t) ∧ msg.mtype = t <;> simp [hc]

theorem ofType_concat (l : List (Msg β)) (msg : Msg β) :
    ofType t (l ++ [msg]) = ofType t l ++ if msg.mtype = t then [msg] else [] := by
  unfold ofType
  rw [filter_append, filter_singleton]
  by_cases hc : msg.mtype = t <;> simp [hc]

theorem testmsg_of_eq (h : mtype = 0 ∨ mtype = t) (ht : 1 ≤ t) : testmsg mtype t = true := by
  unfold testmsg
  rcases h with rfl | rfl
  · rfl
  · rw [if_neg (by omega), if_neg (by omega)]
    simp

theorem ofType_take (hget : l[i]? = some msg)
    (hfind : findMsg mtype 0 none l = some i) (hm : mtype = 0 ∨ mtype = msg.mtype) (ht : 1 ≤ msg.mtype) :
    ofType msg.mtype l = msg :: ofType msg.mtype (l.eraseIdx i) := by
  obtain ⟨l₁, m, l₂, rfl, rfl, -, hbefore⟩ := findMsg_first (by omega) hfind
  obtain rfl : m = msg := by simpa using hget
  have hnone : l₁.filter (fun x => decide (x.mtype = m.mtype)) = [] := by
    refine filter_eq_nil_iff.mpr fun x hx he => ?_
    have htest := hbefore x hx
    rw [of_decide_eq_true he, testmsg_of_eq hm ht] at htest
    cases htest
  unfold ofType
  simp [filter_append, hnone, eraseIdx_append_of_length_le]

theorem inOrder_step (ho : Ordered w) (h : InOrder w) (he : Effect w w') : InOrder w' := by
  intro t
  have ht := h t
  cases he with
  | @move p pc l hp hpc htyped => exact ht
  | @queue p msg hp htyped hcap hnone =>
    show (takenOf t w ++ ofType t (w.q.qMessage ++ [msg])).Sublist (ofType t (w.accepted ++ [msg]))
    rw [ofType_concat, ofType_concat, ← append_assoc]
    exact ht.append (List.Sublist.refl _)
  | @handOver p r msg hp hr htest =>
    rw [takenOf_concat rfl]
    show (_ ++ ofType t w.q.qMessage).Sublist (ofType t (w.accepted ++ [msg]))
    rw [ofType_concat]
    split_ifs with hc hmt hmt
    · -- nothing of the type is queued, for the receiver waits for it
      have hempty : ofType t w.q.qMessage = [] := by
        refine filter_eq_nil_iff.mpr fun m hm hmt' => ?_
        have hun := ho.unmatched r hr m hm
        rw [of_decide_eq_true hmt', testmsg_of_eq hc.1 (of_decide_eq_true hmt' ▸ ho.types m hm)] at hun
        cases hun
      rw [hempty, append_nil] at ht ⊢
      exact ht.append (List.Sublist.refl _)
    · exact absurd hc.2 hmt
    · rw [append_nil]
      exact ht.trans (sublist_append_left _ _)
    · simpa using ht
  | @take p i msg msgsz mtype hp hget hfind =>
    rw [takenOf_concat rfl]
    show (_ ++ ofType t (w.q.qMessage.eraseIdx i)).Sublist (ofType t w.accepted)
    refine List.Sublist.trans ?_ ht
    split_ifs with hc
    · obtain ⟨hm, rfl⟩ := hc
      have hmem : msg ∈ w.q.qMessage := mem_of_getElem? hget
      rw [ofType_take hget hfind hm (ho.types msg hmem), append_assoc]
      exact List.Sublist.refl _
    · rw [append_nil]
      exact (List.Sublist.refl _).append ((eraseIdx_sublist _ i).filter _)
  | @wait p msgsz mtype hp hnone => exact ht
  | @wake p msgsz hpc hnot =>
    unfold msgrcvWoken
    cases (w.receiver p).rMsg with
    | none => exact ht
    | some msg => exact ht
  | @store p msg msgsz ret hpc => exact ht

end Order

/-- **Messages are delivered exactly once** in every state that calls of any number of processes lead to.
The messages accepted are those queued, those handed to a receiver that has not returned, and those
returned. `sum_msg` is the length of the queue and at most `max_msg`. No queued message matches a
receiver that waits. What receivers took that asked for any type or for this type is in the order in
which it was sent. A `sys_msgsnd` whose message fits every receiver that waits gets through its section. -/
theorem delivery [Fintype P] {key : ℤ} {seq : ℕ} {receiver : P → Receiver β} {ls : List (Label P β)}
    {w : World P β} (hrun : Run step (fun _ _ => True) (boot key seq receiver) ls w) :
    (w.accepted : Multiset (Msg β)) = w.q.qMessage + ∑ p, held w p + w.returned ∧
    (w.q.sumMsg = w.q.qMessage.length ∧ w.q.sumMsg ≤ w.q.maxMsg) ∧
    (∀ r ∈ w.q.qReceiver, ∀ m ∈ w.q.qMessage, testmsg (w.receiver r).mtype m.mtype = false) ∧
    (∀ t, (takenOf t w).Sublist (ofType t w.accepted)) ∧
    ∀ p msg msgflg, w.pc p = .send msg msgflg → (∀ r ∈ w.q.qReceiver, msg.size ≤ (w.receiver r).size) →
      (step w (.lock p)).isSome := by
  have hstep : ∀ (w : World P β) l w', Ordered w ∧ Accounted w ∧ InOrder w → True → step w l = some w' →
      Ordered w' ∧ Accounted w' ∧ InOrder w' := by
    rintro w l w' ⟨ho, ha, hi⟩ - hs
    have he := step_effect hs
    exact ⟨ordered_step ho he, accounted_step ho ha he, inOrder_step ho hi he⟩
  have hboot : Accounted (boot key seq receiver) := by
    have hnone : ∀ p, held (boot key seq receiver) p = 0 := fun p => rfl
    unfold Accounted
    rw [Finset.sum_eq_zero fun p _ => hnone p]
    rfl
  obtain ⟨ho, ha, hi⟩ := hrun.inv hstep ⟨ordered_boot key seq receiver, hboot, fun t => List.Sublist.refl _⟩
  refine ⟨ha, ⟨ho.sum, ho.cap⟩, ho.unmatched, fun t => ?_, fun p msg msgflg hpc hfit => ?_⟩
  · exact (sublist_append_left _ _).trans (hi t)
  · simp only [step, hpc, isSome_map]
    unfold msgsndSection
    split_ifs
    · rfl
    · rfl
    · rw [isSome_map]
      exact pipelineSend_isSome hfit

/-- One process waits for type 2, and gets the second message by hand; then it takes the first. -/
def twoPaths : List (Label Bool ℕ) :=
  [.msgrcv true false 8 2 ⟨false, false⟩, .msgsnd false (some (1, some 5)) 8 ⟨false, false⟩, .lock false,
    .msgsnd false (some (2, some 6)) 8 ⟨false, false⟩, .lock false, .rcvWake true, .store true,
    .msgrcv true false 8 0 ⟨false, false⟩]

theorem delivery_twoPaths :
    ∃ w, Run step (fun _ _ => True) (boot 7 0 fun _ => ⟨0, 0, none⟩) twoPaths w ∧
      (w.accepted : Multiset (Msg ℕ)) = w.q.qMessage + ∑ p, held w p + w.returned := by
  obtain ⟨w, hw⟩ : ∃ w, exec step (fun _ _ => true) (boot 7 0 fun _ => ⟨0, 0, none⟩) twoPaths = some w :=
    isSome_iff_exists.mp (by decide +kernel)
  have hrun := run_of_exec (C := fun _ _ => True) (fun _ _ _ => trivial) hw
  exact ⟨w, hrun, (delivery hrun).1⟩

end Effects

end OsHonor.Ipc.Delivery
