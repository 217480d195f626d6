import OsHonor.Ipc.Code

/-! # Removal of a queue

`freeque` empties the list of the receivers by `ss_wakeup`, which is meant for the senders. The receivers
wake up with the `r_msg` they had, and the senders stay where they are: `removal_releases` says when that
does no harm. -/

namespace OsHonor.Ipc.Removal

open Code

variable {P β : Type*} [DecidableEq P]

/-- **Everyone is released**: all who waited are activated, the receivers return an error, every message
is freed once, and nobody waits on a list of the queue that is freed. -/
structure Released (q : Queue P β) (r : Removed P β) : Prop where
  senders : ∀ p ∈ q.qSender, p ∈ r.woken
  receivers : ∀ p ∈ q.qReceiver, p ∈ r.woken ∧ (r.receiver p).rMsg = none ∧
    msgrcvWoken (r.receiver p) = .returns e2BIG
  freed : r.freed = q.qMessage
  left : ∃ q', r.queue = some q' ∧ q'.qSender = [] ∧ q'.qReceiver = [] ∧ q'.qMessage = []

theorem freeque_eq {ids : Ids P β} {id : ℕ} {q : Queue P β} {msgid : ℤ} (receiver : P → Receiver β)
    (hid : getMsgq ids msgid = some (some id)) (hq : ids.entries id = some q) :
    freeque ids receiver msgid = some
      ⟨{ ids with entries := Function.update ids.entries id none, inUse := ids.inUse - 1 }, receiver,
        q.qReceiver, q.qMessage, some { q with qReceiver := [], qMessage := [] }⟩ := by
  simp [freeque, hid, hq, ssWakeup, expungeAll]

/-- **Removing a queue releases everyone** if and only if no sender waits and the `r_msg` of every receiver
that waits is null already. -/
theorem removal_releases {ids : Ids P β} {id : ℕ} {q : Queue P β} {msgid : ℤ} (receiver : P → Receiver β)
    (hid : getMsgq ids msgid = some (some id)) (hq : ids.entries id = some q) :
    (∃ r, sysMsgctl ids receiver msgid ipcRmid = some (0, r) ∧ Released q r) ↔
      q.qSender = [] ∧ ∀ p ∈ q.qReceiver, (receiver p).rMsg = none := by
  rw [sysMsgctl, if_pos rfl, freeque_eq receiver hid hq, Option.map_some]
  constructor
  · rintro ⟨r, hr, hrel⟩
    cases hr
    obtain ⟨q', hq', hs, -⟩ := hrel.left
    cases hq'
    exact ⟨hs, fun p hp => (hrel.receivers p hp).2.1⟩
  · rintro ⟨hs, hr⟩
    refine ⟨_, rfl, fun p hp => ?_, fun p hp => ⟨hp, hr p hp, ?_⟩, rfl, _, rfl, hs, rfl, rfl⟩
    · rw [hs] at hp
      exact absurd hp List.not_mem_nil
    · simp [msgrcvWoken, hr p hp]

def oneQueue (q : Queue ℕ ℕ) : Ids ℕ ℕ := ⟨16, 1, 1, Function.update (fun _ => none) 0 (some q)⟩

theorem removal_releases_waiting :
    (∃ r, sysMsgctl (oneQueue ⟨7, 0, maxMsgnum, 0, [], [], [4, 5]⟩) (fun _ => ⟨1, 10, none⟩) 0 ipcRmid = some (0, r) ∧
      Released ⟨7, 0, maxMsgnum, 0, [], [], [4, 5]⟩ r) :=
  (removal_releases (fun _ => ⟨1, 10, none⟩) rfl rfl).mpr ⟨rfl, fun _ _ => rfl⟩

def fullQueue : Queue ℕ ℕ := ⟨7, 0, maxMsgnum, 256, List.replicate 256 ⟨1, 0, 0⟩, [4], []⟩

def emptyQueue : Queue ℕ ℕ := ⟨7, 0, maxMsgnum, 0, [], [], [5]⟩

/-- The sender is not woken and stays on the list of the freed queue; the receiver wakes up with what its
`r_msg` happened to hold, and takes it for a message. -/
theorem removal_leaves_waiting :
    (¬ ∃ r, sysMsgctl (oneQueue fullQueue) (fun _ => ⟨0, 0, none⟩) 0 ipcRmid = some (0, r) ∧
      Released fullQueue r) ∧
    ∃ r, sysMsgctl (oneQueue emptyQueue) (fun _ => ⟨1, 10, some ⟨1, 0, 9⟩⟩) 0 ipcRmid = some (0, r) ∧
      msgrcvWoken (r.receiver 5) = .takes ⟨1, 0, 9⟩ ∧ ¬ Released emptyQueue r := by
  constructor
  · rintro ⟨r, hr, hrel⟩
    rw [sysMsgctl, if_pos rfl, freeque_eq _ rfl rfl] at hr
    cases hr
    exact absurd (hrel.senders 4 (List.mem_singleton.mpr rfl)) List.not_mem_nil
  · rw [sysMsgctl, if_pos rfl, freeque_eq _ rfl rfl, Option.map_some]
    refine ⟨_, rfl, rfl, fun hrel => ?_⟩
    exact absurd (hrel.receivers 5 (List.mem_singleton.mpr rfl)).2.1 (by simp)

end OsHonor.Ipc.Removal
