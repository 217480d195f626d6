import Mathlib.Algebra.Order.Ring.Int

/-! # Message queues (`lib/ipc.c`)

A message is its type, its size and a body of any type `β`. The lists of a queue hold the messages and
the processes `P` that wait; a process waits in one call at a time, so the `msg_receiver` on its stack is
found by the process. Functions that wake processes return them in the order of the `activate_proc`
calls. `none` is a call that does not return, or an access outside the table. -/

namespace OsHonor.Ipc.Code

open Function

/-! ### Constants (`lib/ipc.h`) -/

def eNOMEM : ℤ := -1
def eNOSEQ : ℤ := -2
def eNOENT : ℤ := -3
def eEXIST : ℤ := -4
def eINVAL : ℤ := -5
def eAGAIN : ℤ := -6
def eIDRM : ℤ := -7
def e2BIG : ℤ := -8
def eNOMSG : ℤ := -9
def ipcRmid : ℤ := 0
def seqMultiplier : ℤ := 16
def ipcPrivate : ℤ := 0
def maxMsgnum : ℤ := 256

/-- The flags of a call: `IPC_CREATE`, and `IPC_EXCL` or `IPC_NOWAIT`, which are the same bit. -/
structure Flags where
  create : Bool
  excl : Bool
  deriving DecidableEq

def Flags.nowait (f : Flags) : Bool := f.excl

variable {P β : Type*}

/-- `msg_msg`. -/
structure Msg (β : Type*) where
  mtype : ℤ
  size : ℤ
  body : β
  deriving DecidableEq

/-- `msg_receiver`. -/
structure Receiver (β : Type*) where
  mtype : ℤ
  size : ℤ
  rMsg : Option (Msg β)

/-- `msg_queue`. -/
structure Queue (P β : Type*) where
  key : ℤ
  seq : ℕ
  maxMsg : ℤ
  sumMsg : ℤ
  qMessage : List (Msg β)
  qSender : List P
  qReceiver : List P

/-- `ipc_ids`, with its 16-bit `seq`. -/
structure Ids (P β : Type*) where
  size : ℕ
  inUse : ℤ
  seq : ℕ
  entries : ℕ → Option (Queue P β)

def initIpc : Ids P β := ⟨16, 0, 0, fun _ => none⟩

/-! ### Identifiers -/

/-- `ipc_addid`: the slot, and the queue with its sequence number. -/
def ipcAddid (ids : Ids P β) (que : Queue P β) : Option (ℕ × Ids P β) :=
  ((List.range ids.size).find? fun id => (ids.entries id).isNone).map fun id =>
    (id, { ids with
      inUse := ids.inUse + 1
      seq := (ids.seq + 1) % 2 ^ 16
      entries := update ids.entries id (some { que with seq := ids.seq }) })

def ipcBuildin (id seq : ℕ) : ℤ := seq * seqMultiplier + id

/-- `newque`; `alloc` says whether `kalloc` gave memory. -/
def newque (ids : Ids P β) (key : ℤ) (alloc : Bool) : ℤ × Ids P β :=
  if alloc then
    match ipcAddid ids ⟨key, 0, maxMsgnum, 0, [], [], []⟩ with
    | none => (eNOSEQ, ids)
    | some (id, ids') => (ipcBuildin id ids.seq, ids')
  else (eNOMEM, ids)

def ipcFindkey (ids : Ids P β) (key : ℤ) : Option ℕ :=
  (List.range ids.size).find? fun id => (ids.entries id).any fun q => q.key = key

def sysMsgget (ids : Ids P β) (key : ℤ) (msgflg : Flags) (alloc : Bool) : ℤ × Ids P β :=
  if key = ipcPrivate then newque ids key alloc
  else
    match ipcFindkey ids key with
    | none => if msgflg.create then newque ids key alloc else (eNOENT, ids)
    | some id =>
      if msgflg.excl then (eEXIST, ids)
      else (ipcBuildin id (((ids.entries id).map Queue.seq).getD 0), ids)

/-- `get_msgq`: the slot of the queue, if there is one. `%` and `/` round to zero, so the index of a
negative identifier can be negative: `none` is the access outside the table. -/
def getMsgq (ids : Ids P β) (msgid : ℤ) : Option (Option ℕ) :=
  let id := msgid.tmod seqMultiplier
  if (ids.size : ℤ) ≤ id then some none
  else if id < 0 then none
  else
    match ids.entries id.toNat with
    | none => some none
    | some q => if msgid.tdiv seqMultiplier ≠ q.seq then some none else some (some id.toNat)

/-! ### Sending and receiving -/

def testmsg (rqtype type : ℤ) : Bool :=
  if rqtype = 0 then true else if rqtype < 0 then rqtype + type ≤ 0 else rqtype = type

/-- The loop of `pipeline_send`: the receiver that gets the message, if any. A receiver whose buffer is
too small is detached and becomes its own successor, so the loop stays there for ever. -/
def pipelineSend (receiver : P → Receiver β) (msg : Msg β) : List P → Option (Option P)
  | [] => some none
  | p :: l =>
    if testmsg (receiver p).mtype msg.mtype then
      if (receiver p).size < msg.size then none else some (some p)
    else pipelineSend receiver msg l

/-- The loop of `sys_msgrcv` over the queued messages, from the position `i` on. -/
def findMsg : ℤ → ℕ → Option ℕ → List (Msg β) → Option ℕ
  | _, _, found, [] => found
  | mtype, i, found, msg :: l =>
    if testmsg mtype msg.mtype then
      if mtype < -1 then findMsg (mtype + 1) (i + 1) (some i) l else some i
    else findMsg mtype (i + 1) found l

/-- `sys_msgsnd` before it takes the lock: the message, or the error. `msgp` is the type and the body in
the buffer, and the body is missing if `load_msg` finds no memory. -/
def msgsndEnter (msgp : Option (ℤ × Option β)) (msgsz : ℤ) : Except ℤ (Msg β) :=
  match msgp with
  | none => .error eINVAL
  | some (mtype, body) =>
    if msgsz < 0 ∨ mtype < 1 then .error eINVAL
    else
      match body with
      | none => .error eNOMEM
      | some body => .ok ⟨mtype, msgsz, body⟩

/-- What becomes of a `sys_msgsnd` under the lock. -/
inductive Sent
  /-- It returns this. -/
  | returns (err : ℤ)
  /-- It sleeps in `q_sender`. -/
  | sleeps
  deriving DecidableEq

section Sections

variable [DecidableEq P]

/-- `sys_msgsnd` of `p` under the lock, once it has the queue: the queue, the receivers, what becomes of
the call, and the processes activated. -/
def msgsndSection (q : Queue P β) (receiver : P → Receiver β) (p : P) (msg : Msg β) (msgflg : Flags) :
    Option (Queue P β × (P → Receiver β) × Sent × List P) :=
  if q.maxMsg < q.sumMsg + 1 then
    if msgflg.nowait then some (q, receiver, .returns eAGAIN, [])
    else some ({ q with qSender := q.qSender ++ [p] }, receiver, .sleeps, [])
  else
    (pipelineSend receiver msg q.qReceiver).map fun
      | some r =>
        ({ q with qReceiver := q.qReceiver.erase r },
          update receiver r { receiver r with rMsg := some msg }, .returns 0, [r])
      | none => ({ q with qMessage := q.qMessage ++ [msg], sumMsg := q.sumMsg + 1 }, receiver, .returns 0, [])

/-- `ss_wakeup`: the list is emptied from its head. -/
def ssWakeup (head : List P) : List P × List P := ([], head)

/-- What becomes of a `sys_msgrcv` under the lock. -/
inductive Received (β : Type*)
  | returns (err : ℤ)
  /-- It has this message. -/
  | takes (msg : Msg β)
  /-- It sleeps in `q_receiver`. -/
  | sleeps
  deriving DecidableEq

/-- `sys_msgrcv` of `p` under the lock, once it has the queue. -/
def msgrcvSection (q : Queue P β) (receiver : P → Receiver β) (p : P) (msgsz mtype : ℤ) (msgflg : Flags) :
    Queue P β × (P → Receiver β) × Received β × List P :=
  match (findMsg mtype 0 none q.qMessage).bind fun i => (q.qMessage[i]?).map fun m => (i, m) with
  | some (i, found) =>
    if msgsz < found.size then (q, receiver, .returns e2BIG, [])
    else
      let (qSender, woken) := ssWakeup q.qSender
      ({ q with qMessage := q.qMessage.eraseIdx i, sumMsg := q.sumMsg - 1, qSender := qSender },
        receiver, .takes found, woken)
  | none =>
    if msgflg.nowait then (q, receiver, .returns eNOMSG, [])
    else
      ({ q with qReceiver := q.qReceiver ++ [p] },
        update receiver p ⟨mtype, msgsz, (receiver p).rMsg⟩, .sleeps, [])

/-- `sys_msgrcv` after it has slept. -/
def msgrcvWoken (r : Receiver β) : Received β :=
  match r.rMsg with
  | none => .returns e2BIG
  | some msg => .takes msg

/-! ### Removal -/

def expungeAll (receiver : P → Receiver β) : List P → (P → Receiver β) × List P
  | [] => (receiver, [])
  | p :: l =>
    let (receiver, woken) := expungeAll (update receiver p { receiver p with rMsg := none }) l
    (receiver, p :: woken)

/-- What `freeque` leaves behind: the table, the receivers, the processes activated, the messages freed,
and the queue as it was given to `kfree`. -/
structure Removed (P β : Type*) where
  ids : Ids P β
  receiver : P → Receiver β
  woken : List P
  freed : List (Msg β)
  queue : Option (Queue P β)

def freeque (ids : Ids P β) (receiver : P → Receiver β) (msgid : ℤ) : Option (Removed P β) :=
  (getMsgq ids msgid).map fun
    | none => ⟨ids, receiver, [], [], none⟩
    | some id =>
      match ids.entries id with
      | none => ⟨ids, receiver, [], [], none⟩
      | some q =>
        let ids' := { ids with entries := update ids.entries id none }
        -- the receivers are woken as if they were senders, so `expunge_all` finds none
        let (qReceiver, woken) := ssWakeup q.qReceiver
        let (receiver', expunged) := expungeAll receiver qReceiver
        ⟨{ ids' with inUse := ids.inUse - 1 }, receiver', woken ++ expunged, q.qMessage,
          some { q with qReceiver := [], qMessage := [] }⟩

/-- `sys_msgctl`: the return value, and what `freeque` leaves behind. -/
def sysMsgctl (ids : Ids P β) (receiver : P → Receiver β) (msgid cmd : ℤ) : Option (ℤ × Removed P β) :=
  if cmd = ipcRmid then (freeque ids receiver msgid).map fun r => (0, r)
  else some (eINVAL, ⟨ids, receiver, [], [], none⟩)

end Sections

end OsHonor.Ipc.Code
