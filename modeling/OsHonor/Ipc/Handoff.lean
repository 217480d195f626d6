import OsHonor.Ipc.Code
import OsHonor.Lib.Rings

/-! # Handing a message to a receiver that waits (`pipeline_send`, `lib/ipc.c`)

The receivers of a queue are a ring of nodes with the node of the queue in it. A receiver that asks for messages of
this type, with too small a buffer, is detached and becomes a ring of its own; the loop then asks it for the next
node, and stays there. So the hand-off does its work exactly if the first receiver that asks for the type has room
(`handsOff_iff`), and where it does not, no number of turns is enough (`sendLoop_stuck`). -/

namespace OsHonor.Ipc.Handoff

open Function List Lib.Rings Code

/-- `msgq->q_receiver`, or the node of a receiver. -/
inductive Node (P : Type) where
  | queue
  | of (p : P)
  deriving DecidableEq

variable {P β : Type} [DecidableEq P]

/-- The links of the nodes, the receivers, and the processes activated. -/
structure State (P β : Type) where
  links : Links (Node P)
  receiver : P → Receiver β
  woken : List P

/-- A receiver is detached, gets `r_msg`, and its process is activated. -/
def State.answer (s : State P β) (p : P) (rMsg : Option (Msg β)) : State P β :=
  ⟨detachFromList s.links (.of p), update s.receiver p { s.receiver p with rMsg := rMsg }, s.woken ++ [p]⟩

/-- The loop of `pipeline_send`, from a node on; `none` when `fuel` turns are not enough. -/
def sendLoop (msg : Msg β) : ℕ → Node P → State P β → Option (Bool × State P β)
  | 0, _, _ => none
  | _ + 1, .queue, s => some (false, s)
  | fuel + 1, .of p, s =>
    if testmsg (s.receiver p).mtype msg.mtype then
      if (s.receiver p).size < msg.size then
        let s := s.answer p none
        sendLoop msg fuel (s.links.next (.of p)) s
      else some (true, s.answer p (some msg))
    else sendLoop msg fuel (s.links.next (.of p)) s

/-- The nodes of `l`, and that of the queue before them, are a ring. -/
def Waiting (h : Links (Node P)) (l : List P) : Prop := Holds h ⟨some .queue, l.length + 1⟩ (.queue :: l.map .of)

/-- A queue of receivers, in a state that is in order. -/
structure Receivers (P β : Type) [DecidableEq P] extends State P β where
  list : List P
  waiting : Waiting links list

def asks (receiver : P → Receiver β) (msg : Msg β) (p : P) : Bool := testmsg (receiver p).mtype msg.mtype

/-- **What the hand-off is for**: the receivers that stay, those that are refused, and the one that gets the
message. -/
def deliver (receiver : P → Receiver β) (msg : Msg β) : List P → List P × List P × Option P
  | [] => ([], [], none)
  | p :: l =>
    let d := deliver receiver msg l
    if asks receiver msg p then
      if (receiver p).size < msg.size then (d.1, p :: d.2.1, d.2.2) else (l, [], some p)
    else (p :: d.1, d.2)

/-- **`pipeline_send` returns, with what `deliver` says.** -/
def HandsOff (q : Receivers P β) (msg : Msg β) : Prop :=
  let d := deliver q.receiver msg q.list
  ∃ fuel s', sendLoop msg fuel (q.links.next .queue) q.toState = some (d.2.2.isSome, s') ∧ Waiting s'.links d.1 ∧
    s'.woken = q.woken ++ d.2.1 ++ d.2.2.toList ∧ ∀ p, s'.receiver p =
      if d.2.2 = some p then { q.receiver p with rMsg := some msg }
      else if p ∈ d.2.1 then { q.receiver p with rMsg := none } else q.receiver p

variable {s : State P β} {msg : Msg β} {p : P} {l : List P}

theorem sendLoop_stuck (fuel : ℕ) (hask : testmsg (s.receiver p).mtype msg.mtype = true)
    (hsmall : (s.receiver p).size < msg.size) : sendLoop msg fuel (.of p) s = none := by
  induction fuel generalizing s with
  | zero => rfl
  | succ fuel ih =>
    have hself : (s.answer p none).links.next (.of p) = .of p := update_self ..
    rw [sendLoop, if_pos hask, if_pos hsmall]
    dsimp only
    rw [hself]
    exact ih (by simpa [State.answer] using hask) (by simpa [State.answer] using hsmall)

/-- **The loop is `pipelineSend`**, which is `none` where it does not end. -/
theorem sendLoop_eq (msg : Msg β) {x : Node P} (hseg : Seg s.links x (l.map .of) .queue) :
    match pipelineSend s.receiver msg l with
    | none => ∀ fuel, sendLoop msg fuel (s.links.next x) s = none
    | some none => sendLoop msg (l.length + 1) (s.links.next x) s = some (false, s)
    | some (some p) => sendLoop msg (l.length + 1) (s.links.next x) s = some (true, s.answer p (some msg)) := by
  induction l generalizing x with
  | nil =>
    rw [hseg.1]
    rfl
  | cons p l ih =>
    obtain ⟨hnext, -, hrest⟩ := hseg
    rw [hnext, pipelineSend]
    by_cases hask : testmsg (s.receiver p).mtype msg.mtype = true
    · rw [if_pos hask]
      by_cases hsmall : (s.receiver p).size < msg.size
      · rw [if_pos hsmall]
        exact fun fuel => sendLoop_stuck fuel hask hsmall
      · rw [if_neg hsmall]
        show sendLoop msg (l.length + 1 + 1) (.of p) s = _
        rw [sendLoop, if_pos hask, if_neg hsmall]
    · have hskip : ∀ fuel, sendLoop msg (fuel + 1) (.of p) s = sendLoop msg fuel (s.links.next (.of p)) s :=
        fun fuel => by rw [sendLoop, if_neg hask]
      rw [if_neg hask]
      have := ih hrest
      split at this
      · intro fuel
        cases fuel with
        | zero => rfl
        | succ fuel => rw [hskip, this fuel]
      · exact (hskip _).trans this
      · exact (hskip _).trans this

omit [DecidableEq P] in
theorem pipelineSend_eq (receiver : P → Receiver β) (msg : Msg β) (l : List P) : pipelineSend receiver msg l =
    match l.find? (asks receiver msg) with
    | none => some none
    | some p => if (receiver p).size < msg.size then none else some (some p) := by
  induction l with
  | nil => rfl
  | cons p l ih =>
    rw [pipelineSend, find?_cons, asks]
    cases hask : testmsg (receiver p).mtype msg.mtype with
    | true => rfl
    | false => exact ih

theorem deliver_eq {receiver : P → Receiver β} {r : Option P} (hr : l.find? (asks receiver msg) = r)
    (hroom : ∀ p ∈ r, msg.size ≤ (receiver p).size) : deliver receiver msg l = (r.elim l l.erase, [], r) := by
  induction l with
  | nil =>
    cases hr
    rfl
  | cons p l ih =>
    rw [find?_cons] at hr
    rw [deliver]
    cases hask : asks receiver msg p with
    | true =>
      rw [hask] at hr
      cases hr
      simp [not_lt.mpr (hroom p rfl)]
    | false =>
      rw [hask] at hr
      rw [ih hr]
      cases r with
      | none => rfl
      | some q =>
        have hne : p ≠ q := by
          rintro rfl
          have := find?_some hr
          rw [hask] at this
          cases this
        simp [hne]

theorem Waiting.erase {h : Links (Node P)} (hw : Waiting h l) (hp : p ∈ l) :
    Waiting (detachFromList h (.of p)) (l.erase p) := by
  obtain ⟨h', L', hrem, hholds, -⟩ := remove_holds hw (x := .of p) (by simp [hp])
  have hlen := length_erase_add_one hp
  have hone : l.length + 1 ≠ 1 := by omega
  rw [listRemove, if_neg hone, if_neg (by simp)] at hrem
  cases hrem
  rw [erase_cons_tail (by simp), ← map_erase (fun _ _ => Node.of.inj), ← hlen] at hholds
  exact hholds

/-- **The hand-off does its work exactly if the first receiver that asks for the type has room.** -/
theorem handsOff_iff (q : Receivers P β) (msg : Msg β) : HandsOff q msg ↔
    ∀ p, q.list.find? (asks q.receiver msg) = some p → msg.size ≤ (q.receiver p).size := by
  have hloop := sendLoop_eq (s := q.toState) msg q.waiting.2.2.2
  rw [pipelineSend_eq] at hloop
  constructor
  · rintro ⟨fuel, s', hrun, -⟩ p hp
    by_contra hsmall
    rw [hp] at hloop
    simp only [if_pos (not_le.mp hsmall)] at hloop
    rw [hloop fuel] at hrun
    cases hrun
  · intro hroom
    unfold HandsOff
    rw [deliver_eq rfl hroom]
    cases hr : q.list.find? (asks q.receiver msg) with
    | none =>
      rw [hr] at hloop
      exact ⟨_, q.toState, hloop, q.waiting, by simp, by simp⟩
    | some p =>
      rw [hr] at hloop
      simp only [if_neg (not_lt.mpr (hroom p hr))] at hloop
      refine ⟨_, q.answer p (some msg), hloop, q.waiting.erase (mem_of_find?_eq_some hr), by simp [State.answer],
        fun x => ?_⟩
      by_cases hx : p = x
      · simp [hx, State.answer]
      · simp [hx, State.answer, update_of_ne (Ne.symm hx)]

def other : Node Unit → Node Unit
  | .queue => .of ()
  | .of _ => .queue

/-- One receiver waits for any message, with a buffer for none. -/
def narrow : Receivers Unit Unit where
  links := ⟨other, other⟩
  receiver _ := ⟨0, 0, none⟩
  woken := []
  list := [()]
  waiting := ⟨by decide, rfl, rfl, rfl, rfl, rfl, rfl⟩

/-- **A message that does not fit**: the loop does not end. -/
theorem narrow_stuck : (∀ fuel, sendLoop ⟨1, 1, ()⟩ fuel (narrow.links.next .queue) narrow.toState = none) ∧
    ¬ HandsOff narrow ⟨1, 1, ()⟩ := by
  have hloop : ∀ fuel, sendLoop ⟨1, 1, ()⟩ fuel (narrow.links.next .queue) narrow.toState = none :=
    fun fuel => sendLoop_stuck fuel (by decide) (by decide)
  refine ⟨hloop, ?_⟩
  rintro ⟨fuel, s', hrun, -⟩
  rw [hloop] at hrun
  cases hrun

end OsHonor.Ipc.Handoff
