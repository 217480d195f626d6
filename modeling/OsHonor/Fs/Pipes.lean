import OsHonor.Base.RingBuffer
import OsHonor.Base.Runs

/-! # Pipes (`fs/pipe.c`)

The calls hold the lock of the pipe except while they sleep in `cond_wait`, so the run of a call is cut into
stretches, each of which is one step. A sleeping process may go on at any time: the condition variables only
restrict when it does, and every call tests again when it goes on.

`pipe_fifo`: in any interleaving the pipe is a queue of at most `PIPE_SIZE` bytes. The ring buffer and its
counters are those of `Base.RingBuffer`; what is added here is that every byte of a call of `pipe_write` is
stored once and in order, whatever other calls do while it sleeps. -/

namespace OsHonor.Fs.Pipes

open List Function Base.RingBuffer Base.Runs

/-! ### The code -/

def pipeSize : ℕ := 512

/-- `struct pipe`, without its lock and condition variables. -/
structure Pipe extends Ring UInt8 32 where
  readopen : Bool
  writeopen : Bool

/-- The pipe that `pipe_alloc` makes; what `data` holds is left over from earlier. -/
def pipeAlloc (data : ℕ → UInt8) : Pipe := ⟨⟨data, 0#32, 0#32⟩, true, true⟩

/-- What a stretch of a call does: the pipe, the bytes it stores or takes, and the value it returns, or
`none` if it ends in `cond_wait`. -/
structure Stretch where
  pipe : Pipe
  bytes : List UInt8
  ret : Option ℤ

/-- The loop of `pipe_write` with `k` bytes to go, from the byte `i` on. -/
def writeLoop (killed : Bool) (buf : ℕ → UInt8) : ℕ → ℕ → Pipe → Stretch
  | 0, i, pi => ⟨pi, [], some i⟩
  | k + 1, i, pi =>
    if pi.readopen = false ∨ killed then ⟨pi, [], some (-1)⟩
    else if pi.full pipeSize then ⟨pi, [], none⟩
    else
      let r := writeLoop killed buf k (i + 1) { pi with toRing := pi.push pipeSize (buf i) }
      { r with bytes := buf i :: r.bytes }

/-- A stretch of `pipe_write`, of which `i` bytes are stored. -/
def pipeWrite (killed : Bool) (buf : ℕ → UInt8) (n : ℤ) (i : ℕ) (pi : Pipe) : Stretch :=
  writeLoop killed buf (n.toNat - i) i pi

/-- The second loop of `pipe_read`. -/
def readLoop : ℕ → Pipe → Pipe × List UInt8
  | 0, pi => (pi, [])
  | k + 1, pi =>
    if pi.empty then (pi, [])
    else
      let r := readLoop k { pi with toRing := pi.pop }
      (r.1, pi.front pipeSize :: r.2)

/-- A stretch of `pipe_read`. -/
def pipeRead (killed : Bool) (n : ℤ) (pi : Pipe) : Stretch :=
  if pi.empty ∧ pi.writeopen then
    if killed then ⟨pi, [], some (-1)⟩ else ⟨pi, [], none⟩
  else
    let r := readLoop n.toNat pi
    ⟨r.1, r.2, some r.2.length⟩

/-- `pipe_close`, and whether the pipe is freed. -/
def pipeClose (pi : Pipe) (writable : Bool) : Pipe × Bool :=
  let pi := if writable then { pi with writeopen := false } else { pi with readopen := false }
  (pi, pi.readopen = false ∧ pi.writeopen = false)

/-! ### The processes -/

/-- Where a process is. A call of `pipe_write` has a number of its own, and has stored `i` bytes. -/
inductive Thread
  | idle
  | writing (call : ℕ) (buf : ℕ → UInt8) (n : ℤ) (i : ℕ)
  | reading (n : ℤ)

/-- A call that has returned. -/
inductive Return
  | write (call : ℕ) (buf : ℕ → UInt8) (n ret : ℤ)
  | read (n ret : ℤ)

/-- The pipe and its processes. Beside them stand the bytes stored so far, each with the number of its call,
the bytes handed to readers, and the calls that have returned. -/
structure Sys (P : Type) where
  pipe : Pipe
  freed : Bool
  killed : P → Bool
  threads : P → Thread
  calls : ℕ
  stored : List (ℕ × UInt8)
  removed : List UInt8
  returns : List Return

inductive Label (P : Type)
  | write (p : P) (buf : ℕ → UInt8) (n : ℤ)
  | read (p : P) (n : ℤ)
  | resume (p : P)
  | kill (p : P)
  | close (writable : Bool)

variable {P : Type} [DecidableEq P]

def init (P : Type) (data : ℕ → UInt8) : Sys P :=
  ⟨pipeAlloc data, false, fun _ => false, fun _ => .idle, 0, [], [], []⟩

def enter (s : Sys P) (p : P) (t : Thread) : Sys P := { s with threads := update s.threads p t }

def stretch (s : Sys P) (p : P) : Sys P :=
  match s.threads p with
  | .idle => s
  | .writing call buf n i =>
    let r := pipeWrite (s.killed p) buf n i s.pipe
    let s := { s with pipe := r.pipe, stored := s.stored ++ r.bytes.map fun b => (call, b) }
    match r.ret with
    | none => enter s p (.writing call buf n (i + r.bytes.length))
    | some v => { enter s p .idle with returns := s.returns ++ [.write call buf n v] }
  | .reading n =>
    let r := pipeRead (s.killed p) n s.pipe
    let s := { s with pipe := r.pipe, removed := s.removed ++ r.bytes }
    match r.ret with
    | none => enter s p (.reading n)
    | some v => { enter s p .idle with returns := s.returns ++ [.read n v] }

def Thread.isIdle : Thread → Bool
  | .idle => true
  | _ => false

def step (s : Sys P) (l : Label P) : Option (Sys P) :=
  if s.freed then none
  else
    match l with
    | .write p buf n =>
      if (s.threads p).isIdle then
        some (stretch { enter s p (.writing s.calls buf n 0) with calls := s.calls + 1 } p)
      else none
    | .read p n => if (s.threads p).isIdle then some (stretch (enter s p (.reading n)) p) else none
    | .resume p => if (s.threads p).isIdle then none else some (stretch s p)
    | .kill p => some { s with killed := update s.killed p true }
    | .close writable =>
      let r := pipeClose s.pipe writable
      some { s with pipe := r.1, freed := r.2 }

/-! ### What a stretch does to the queue -/

theorem pipeSize_dvd : pipeSize ∣ 2 ^ 32 := ⟨2 ^ 23, by decide⟩

theorem pipeSize_lt : pipeSize < 2 ^ 32 := by decide

/-- **The loop of `pipe_write`** appends the bytes of the buffer, all of them if it returns one of its
results that are not negative. -/
theorem writeLoop_spec (killed : Bool) (buf : ℕ → UInt8) : ∀ (k i : ℕ) (pi : Pipe) (q : List UInt8),
    Holds pipeSize pi.toRing q →
    Holds pipeSize (writeLoop killed buf k i pi).pipe.toRing (q ++ (writeLoop killed buf k i pi).bytes) ∧
    (writeLoop killed buf k i pi).bytes =
      (List.range (writeLoop killed buf k i pi).bytes.length).map (fun j => buf (i + j)) ∧
    (writeLoop killed buf k i pi).bytes.length ≤ k ∧
    ∀ v, (writeLoop killed buf k i pi).ret = some v → 0 ≤ v →
      (writeLoop killed buf k i pi).bytes.length = k ∧ v = i + k
  | 0, i, pi, q, h => by
    refine ⟨by simpa [writeLoop] using h, rfl, le_refl _, fun v hv _ => ⟨rfl, ?_⟩⟩
    cases hv
    simp
  | k + 1, i, pi, q, h => by
    unfold writeLoop
    split_ifs with hstop hfull
    · refine ⟨by simpa using h, rfl, Nat.zero_le _, fun v hv h0 => ?_⟩
      cases hv
      omega
    · refine ⟨by simpa using h, rfl, Nat.zero_le _, fun v hv => ?_⟩
      cases hv
    · have hroom : q.length < pipeSize := by
        have hne : q.length ≠ pipeSize := fun he => hfull ((h.full_iff pipeSize_lt).mpr he)
        have hle := h.le
        omega
      obtain ⟨hq, hbytes, hle, hret⟩ := writeLoop_spec killed buf k (i + 1)
        { pi with toRing := pi.push pipeSize (buf i) } (q ++ [buf i])
        (h.push pipeSize_dvd pipeSize_lt hroom (buf i))
      generalize writeLoop killed buf k (i + 1) { pi with toRing := pi.push pipeSize (buf i) } = r at *
      dsimp only
      refine ⟨by simpa using hq, ?_, by simpa using hle, fun v hv h0 => ?_⟩
      · rw [length_cons, range_succ_eq_map, map_cons, map_map, Nat.add_zero]
        refine congrArg _ (hbytes.trans (map_congr_left fun j _ => ?_))
        simp only [comp_apply]
        congr 1
        omega
      · obtain ⟨hlen, rfl⟩ := hret v hv h0
        refine ⟨by rw [length_cons, hlen], ?_⟩
        push_cast
        omega

/-- **The loop of `pipe_read`** takes a part of the queue from its front, and nothing only if there is
nothing to take. -/
theorem readLoop_spec : ∀ (k : ℕ) (pi : Pipe) (q : List UInt8), Holds pipeSize pi.toRing q →
    (∃ q', q = (readLoop k pi).2 ++ q' ∧ Holds pipeSize (readLoop k pi).1.toRing q') ∧
    ((readLoop k pi).2 = [] → k = 0 ∨ q = []) ∧ (readLoop k pi).1.writeopen = pi.writeopen
  | 0, pi, q, h => ⟨⟨q, rfl, h⟩, fun _ => Or.inl rfl, rfl⟩
  | k + 1, pi, q, h => by
    unfold readLoop
    split_ifs with hempty
    · exact ⟨⟨q, rfl, h⟩, fun _ => Or.inr (h.empty_iff.mp hempty), rfl⟩
    · cases q with
      | nil => exact absurd (h.empty_iff.mpr rfl) hempty
      | cons x q =>
        obtain ⟨hfront, hpop⟩ := h.pop pipeSize_dvd
        obtain ⟨⟨q', hq, hq'⟩, -, hopen⟩ := readLoop_spec k { pi with toRing := pi.pop } q hpop
        dsimp only
        refine ⟨⟨q', ?_, hq'⟩, fun h0 => h0.elim, hopen⟩
        rw [cons_append, ← hq, hfront]

/-- **A stretch of `pipe_read`**; it returns zero for a positive size only at the end of the stream. -/
theorem pipeRead_spec (killed : Bool) (n : ℤ) {pi : Pipe} {q : List UInt8} (h : Holds pipeSize pi.toRing q) :
    (∃ q', q = (pipeRead killed n pi).bytes ++ q' ∧ Holds pipeSize (pipeRead killed n pi).pipe.toRing q') ∧
    ((pipeRead killed n pi).ret = some 0 → 0 < n →
      (pipeRead killed n pi).pipe.nread = (pipeRead killed n pi).pipe.nwrite ∧
        (pipeRead killed n pi).pipe.writeopen = false) := by
  unfold pipeRead
  split_ifs with hwait hkilled
  · exact ⟨⟨q, rfl, h⟩, fun h0 => absurd h0 (by simp)⟩
  · exact ⟨⟨q, rfl, h⟩, fun h0 => absurd h0 (by simp)⟩
  · obtain ⟨⟨q', hq, hq'⟩, hnone, hopen⟩ := readLoop_spec n.toNat pi q h
    refine ⟨⟨q', hq, hq'⟩, fun h0 hn => ?_⟩
    have hbytes : (readLoop n.toNat pi).2 = [] := by
      simpa using h0
    have hqnil : q = [] := by
      rcases hnone hbytes with hk | hk
      · omega
      · exact hk
    rw [hbytes, hqnil] at hq
    have hq0 : q' = [] := hq.symm
    subst hq0 hqnil
    refine ⟨?_, ?_⟩
    · have he := hq'.empty_iff.mpr rfl
      unfold Ring.empty at he
      exact of_decide_eq_true he
    · have hwrite : pi.writeopen = false := by
        by_contra hw
        rw [Bool.not_eq_false] at hw
        exact hwait ⟨h.empty_iff.mpr rfl, hw⟩
      exact hopen.trans hwrite

/-! ### Runs -/

/-- **The bytes between the counters** are those stored and not yet removed. -/
def Fifo (s : Sys P) : Prop :=
  ∃ q, Holds pipeSize s.pipe.toRing q ∧ s.stored.map Prod.snd = s.removed ++ q

def bytesOf (stored : List (ℕ × UInt8)) (call : ℕ) : List UInt8 :=
  (stored.filter fun x => x.1 = call).map Prod.snd

/-- **What the calls of `pipe_write` have stored.** -/
structure Calls (s : Sys P) : Prop where
  fresh : ∀ x ∈ s.stored, x.1 < s.calls
  active : ∀ p call buf n i, s.threads p = .writing call buf n i →
    call < s.calls ∧ i ≤ n.toNat ∧ bytesOf s.stored call = (List.range i).map buf
  alone : ∀ p p' call buf n i buf' n' i', s.threads p = .writing call buf n i →
    s.threads p' = .writing call buf' n' i' → p = p'
  returned : ∀ call buf n r, .write call buf n r ∈ s.returns →
    call < s.calls ∧ (∀ p buf' n' i', s.threads p ≠ .writing call buf' n' i') ∧
      (0 ≤ r → r = n.toNat ∧ bytesOf s.stored call = (List.range n.toNat).map buf)

theorem bytesOf_append (l l' : List (ℕ × UInt8)) (call : ℕ) :
    bytesOf (l ++ l') call = bytesOf l call ++ bytesOf l' call := by
  unfold bytesOf
  rw [filter_append, map_append]

theorem bytesOf_self (bytes : List UInt8) (call : ℕ) :
    bytesOf (bytes.map fun b => (call, b)) call = bytes := by
  unfold bytesOf
  induction bytes with
  | nil => rfl
  | cons b bytes ih => simpa using ih

theorem bytesOf_other (bytes : List UInt8) {call call' : ℕ} (h : call ≠ call') :
    bytesOf (bytes.map fun b => (call, b)) call' = [] := by
  unfold bytesOf
  induction bytes with
  | nil => rfl
  | cons b bytes ih => simp [h]

theorem bytesOf_fresh {stored : List (ℕ × UInt8)} {call : ℕ} (h : ∀ x ∈ stored, x.1 < call) :
    bytesOf stored call = [] := by
  unfold bytesOf
  rw [filter_eq_nil_iff.mpr fun x hx => by have := h x hx; simp; omega]
  rfl

section Calls

variable {s s' : Sys P} {p : P} {t : Thread}

theorem Calls.quiet (h : Calls s) (hstored : s'.stored = s.stored) (hcalls : s'.calls = s.calls)
    (hthreads : s'.threads = update s.threads p t)
    (ht : ∀ call buf n i, t ≠ .writing call buf n i)
    (hreturns : ∀ call buf n r, .write call buf n r ∈ s'.returns → .write call buf n r ∈ s.returns) :
    Calls s' := by
  have hold : ∀ p' call buf n i, s'.threads p' = .writing call buf n i →
      s.threads p' = .writing call buf n i := by
    intro p' call buf n i hp'
    rw [hthreads] at hp'
    by_cases hpp : p' = p
    · subst hpp
      rw [update_self] at hp'
      exact absurd hp' (ht call buf n i)
    · rwa [update_of_ne hpp] at hp'
  refine ⟨?_, ?_, ?_, ?_⟩
  · rw [hstored, hcalls]
    exact h.fresh
  · intro p' call buf n i hp'
    rw [hstored, hcalls]
    exact h.active p' call buf n i (hold _ _ _ _ _ hp')
  · intro p1 p2 call buf n i buf' n' i' h1 h2
    exact h.alone p1 p2 call buf n i buf' n' i' (hold _ _ _ _ _ h1) (hold _ _ _ _ _ h2)
  · intro call buf n r hr
    rw [hstored, hcalls]
    obtain ⟨hlt, hno, hbytes⟩ := h.returned call buf n r (hreturns _ _ _ _ hr)
    exact ⟨hlt, fun p' buf' n' i' hp' => hno p' buf' n' i' (hold _ _ _ _ _ hp'), hbytes⟩

theorem Calls.begin (h : Calls s) (buf : ℕ → UInt8) (n : ℤ) :
    Calls { enter s p (.writing s.calls buf n 0) with calls := s.calls + 1 } := by
  have hcases : ∀ p' call buf' n' i', update s.threads p (.writing s.calls buf n 0) p' =
      .writing call buf' n' i' → (p' = p ∧ call = s.calls ∧ i' = 0) ∨
        (call < s.calls ∧ s.threads p' = .writing call buf' n' i') := by
    intro p' call buf' n' i' hp'
    by_cases hpp : p' = p
    · subst hpp
      rw [update_self] at hp'
      cases hp'
      exact Or.inl ⟨rfl, rfl, rfl⟩
    · rw [update_of_ne hpp] at hp'
      exact Or.inr ⟨(h.active _ _ _ _ _ hp').1, hp'⟩
  refine ⟨fun x hx => Nat.lt_succ_of_lt (h.fresh x hx), ?_, ?_, ?_⟩
  · intro p' call buf' n' i' hp'
    rcases hcases _ _ _ _ _ hp' with ⟨-, rfl, rfl⟩ | ⟨hlt, hold⟩
    · exact ⟨Nat.lt_succ_self _, Nat.zero_le _, bytesOf_fresh h.fresh⟩
    · obtain ⟨-, hle, hbytes⟩ := h.active _ _ _ _ _ hold
      exact ⟨Nat.lt_succ_of_lt hlt, hle, hbytes⟩
  · intro p1 p2 call buf1 n1 i1 buf2 n2 i2 h1 h2
    rcases hcases _ _ _ _ _ h1 with ⟨rfl, hc1, -⟩ | ⟨hlt1, hold1⟩
    · rcases hcases _ _ _ _ _ h2 with ⟨rfl, -, -⟩ | ⟨hlt2, -⟩
      · rfl
      · omega
    · rcases hcases _ _ _ _ _ h2 with ⟨rfl, hc2, -⟩ | ⟨-, hold2⟩
      · omega
      · exact h.alone _ _ _ _ _ _ _ _ _ hold1 hold2
  · intro call buf' n' r hr
    obtain ⟨hlt, hno, hbytes⟩ := h.returned call buf' n' r hr
    refine ⟨Nat.lt_succ_of_lt hlt, fun p' buf2 n2 i2 hp' => ?_, hbytes⟩
    rcases hcases _ _ _ _ _ hp' with ⟨-, rfl, -⟩ | ⟨-, hold⟩
    · exact absurd hlt (Nat.lt_irrefl _)
    · exact hno _ _ _ _ hold

variable {call i : ℕ} {buf : ℕ → UInt8} {n : ℤ} {bytes : List UInt8}

/-- **A stretch of `pipe_write`** stores the next bytes of its buffer, and the call sleeps or returns. -/
theorem Calls.store (h : Calls s) (hp : s.threads p = .writing call buf n i)
    (hbytes : bytes = (List.range bytes.length).map fun j => buf (i + j))
    (hle : i + bytes.length ≤ n.toNat)
    (hstored : s'.stored = s.stored ++ bytes.map fun b => (call, b)) (hcalls : s'.calls = s.calls)
    (hthreads : s'.threads = update s.threads p t)
    (hend : (t = .writing call buf n (i + bytes.length) ∧ s'.returns = s.returns) ∨
      ∃ v : ℤ, t = .idle ∧ s'.returns = s.returns ++ [.write call buf n v] ∧
        (0 ≤ v → v = n.toNat ∧ i + bytes.length = n.toNat)) : Calls s' := by
  obtain ⟨hlt, -, hsofar⟩ := h.active _ _ _ _ _ hp
  have hown : bytesOf s'.stored call = (List.range (i + bytes.length)).map buf := by
    rw [hstored, bytesOf_append, hsofar, bytesOf_self, range_add, map_append, map_map]
    exact congrArg _ hbytes
  have hother : ∀ call', call' ≠ call → bytesOf s'.stored call' = bytesOf s.stored call' := by
    intro call' hne
    rw [hstored, bytesOf_append, bytesOf_other bytes hne.symm, append_nil]
  -- another process is in another call
  have hold : ∀ p' call' buf' n' i', p' ≠ p → s'.threads p' = .writing call' buf' n' i' →
      s.threads p' = .writing call' buf' n' i' ∧ call' ≠ call := by
    intro p' call' buf' n' i' hpp hp'
    rw [hthreads, update_of_ne hpp] at hp'
    refine ⟨hp', ?_⟩
    rintro rfl
    exact hpp (h.alone _ _ _ _ _ _ _ _ _ hp' hp)
  have hself : ∀ call' buf' n' i', s'.threads p = .writing call' buf' n' i' →
      call' = call ∧ buf' = buf ∧ n' = n ∧ i' = i + bytes.length ∧ s'.returns = s.returns := by
    intro call' buf' n' i' hp'
    rw [hthreads, update_self] at hp'
    rcases hend with ⟨rfl, hr⟩ | ⟨v, rfl, -, -⟩
    · cases hp'
      exact ⟨rfl, rfl, rfl, rfl, hr⟩
    · cases hp'
  refine ⟨fun x hx => ?_, ?_, ?_, ?_⟩
  · rw [hstored] at hx
    rw [hcalls]
    rcases mem_append.mp hx with hx | hx
    · exact h.fresh x hx
    · obtain ⟨b, -, rfl⟩ := mem_map.mp hx
      exact hlt
  · intro p' call' buf' n' i' hp'
    rw [hcalls]
    by_cases hpp : p' = p
    · subst hpp
      obtain ⟨rfl, rfl, rfl, rfl, -⟩ := hself _ _ _ _ hp'
      exact ⟨hlt, hle, hown⟩
    · obtain ⟨hp', hne⟩ := hold _ _ _ _ _ hpp hp'
      rw [hother call' hne]
      exact h.active _ _ _ _ _ hp'
  · intro p1 p2 call' buf1 n1 i1 buf2 n2 i2 h1 h2
    by_cases hp1 : p1 = p
    · by_cases hp2 : p2 = p
      · rw [hp1, hp2]
      · rw [hp1] at h1
        exact absurd (hself _ _ _ _ h1).1 (hold _ _ _ _ _ hp2 h2).2
    · by_cases hp2 : p2 = p
      · rw [hp2] at h2
        exact absurd (hself _ _ _ _ h2).1 (hold _ _ _ _ _ hp1 h1).2
      · exact h.alone _ _ _ _ _ _ _ _ _ (hold _ _ _ _ _ hp1 h1).1 (hold _ _ _ _ _ hp2 h2).1
  · intro call' buf' n' r hr
    rw [hcalls]
    have hearlier : .write call' buf' n' r ∈ s.returns → call' < s.calls ∧
        (∀ p' buf2 n2 i2, s'.threads p' ≠ .writing call' buf2 n2 i2) ∧
        (0 ≤ r → r = n'.toNat ∧ bytesOf s'.stored call' = (List.range n'.toNat).map buf') := by
      intro hr
      obtain ⟨hlt', hno, hdone⟩ := h.returned _ _ _ _ hr
      have hne : call' ≠ call := by
        rintro rfl
        exact hno _ _ _ _ hp
      rw [hother call' hne]
      refine ⟨hlt', fun p' buf2 n2 i2 hp' => ?_, hdone⟩
      by_cases hpp : p' = p
      · rw [hpp] at hp'
        exact hne (hself _ _ _ _ hp').1
      · exact hno _ _ _ _ (hold _ _ _ _ _ hpp hp').1
    rcases hend with ⟨-, hrs⟩ | ⟨v, hidle, hrs, hv⟩
    · rw [hrs] at hr
      exact hearlier hr
    · rw [hrs] at hr
      rcases mem_append.mp hr with hr | hr
      · exact hearlier hr
      · rw [mem_singleton] at hr
        cases hr
        refine ⟨hlt, fun p' buf2 n2 i2 hp' => ?_, fun h0 => ?_⟩
        · by_cases hpp : p' = p
          · rw [hpp, hthreads, update_self, hidle] at hp'
            cases hp'
          · exact (hold _ _ _ _ _ hpp hp').2 rfl
        · obtain ⟨hv, hlen⟩ := hv h0
          rw [hown, hlen]
          exact ⟨hv, rfl⟩

end Calls

def Inv (s : Sys P) : Prop := Fifo s ∧ Calls s

theorem inv_stretch {s : Sys P} (h : Inv s) (p : P) : Inv (stretch s p) := by
  obtain ⟨⟨q, hq, hsplit⟩, hcalls⟩ := h
  unfold stretch
  cases hp : s.threads p with
  | idle => exact ⟨⟨q, hq, hsplit⟩, hcalls⟩
  | writing call buf n i =>
    obtain ⟨-, hi, -⟩ := hcalls.active _ _ _ _ _ hp
    obtain ⟨hq', hbytes, hle, hret⟩ := writeLoop_spec (s.killed p) buf (n.toNat - i) i s.pipe q hq
    dsimp only [pipeWrite]
    generalize writeLoop (s.killed p) buf (n.toNat - i) i s.pipe = r at *
    have hfifo : (s.stored ++ r.bytes.map fun b => (call, b)).map Prod.snd = s.removed ++ (q ++ r.bytes) := by
      rw [map_append, hsplit, map_map, append_assoc]
      exact congrArg _ (congrArg _ (map_id _))
    cases hr : r.ret with
    | none =>
      exact ⟨⟨_, hq', hfifo⟩, hcalls.store hp hbytes (by omega) rfl rfl rfl (Or.inl ⟨rfl, rfl⟩)⟩
    | some v =>
      refine ⟨⟨_, hq', hfifo⟩, hcalls.store hp hbytes (by omega) rfl rfl rfl
        (Or.inr ⟨v, rfl, rfl, fun h0 => ?_⟩)⟩
      obtain ⟨hlen, hv⟩ := hret v hr h0
      omega
  | reading n =>
    obtain ⟨⟨q', hqq, hq'⟩, -⟩ := pipeRead_spec (s.killed p) n hq
    dsimp only
    generalize pipeRead (s.killed p) n s.pipe = r at *
    have hfifo : s.stored.map Prod.snd = (s.removed ++ r.bytes) ++ q' := by
      rw [hsplit, hqq, append_assoc]
    cases hr : r.ret with
    | none =>
      exact ⟨⟨q', hq', hfifo⟩, hcalls.quiet rfl rfl rfl (fun _ _ _ _ h => by cases h) fun _ _ _ _ h => h⟩
    | some v =>
      exact ⟨⟨q', hq', hfifo⟩, hcalls.quiet rfl rfl rfl (fun _ _ _ _ h => by cases h)
        fun _ _ _ _ h => by simpa using h⟩

theorem inv_step {s s' : Sys P} {l : Label P} (h : Inv s) (hs : step s l = some s') : Inv s' := by
  unfold step at hs
  split_ifs at hs
  cases l with
  | write p buf n =>
    dsimp only at hs
    split_ifs at hs
    cases hs
    have hbegin : Inv { enter s p (.writing s.calls buf n 0) with calls := s.calls + 1 } :=
      ⟨h.1, h.2.begin buf n⟩
    exact inv_stretch hbegin p
  | read p n =>
    dsimp only at hs
    split_ifs at hs
    cases hs
    have hbegin : Inv (enter s p (.reading n)) :=
      ⟨h.1, h.2.quiet rfl rfl rfl (fun _ _ _ _ h => by cases h) fun _ _ _ _ h => h⟩
    exact inv_stretch hbegin p
  | resume p =>
    dsimp only at hs
    split_ifs at hs
    cases hs
    exact inv_stretch h p
  | kill p =>
    cases hs
    exact ⟨h.1, h.2.fresh, h.2.active, h.2.alone, h.2.returned⟩
  | close writable =>
    cases hs
    obtain ⟨⟨q, hq, hsplit⟩, hcalls⟩ := h
    refine ⟨⟨q, ?_, hsplit⟩, hcalls.fresh, hcalls.active, hcalls.alone, hcalls.returned⟩
    cases writable <;> exact hq

omit [DecidableEq P] in
theorem inv_init (data : ℕ → UInt8) : Inv (init P data) := by
  refine ⟨⟨[], holds_nil rfl, rfl⟩, fun x hx => absurd hx not_mem_nil, ?_, ?_, ?_⟩
  · intro p call buf n i hp
    cases hp
  · intro p p' call buf n i buf' n' i' hp
    cases hp
  · intro call buf n r hr
    exact absurd hr not_mem_nil

theorem stretch_read_zero {s : Sys P} {p : P} {n : ℤ} (h : Fifo s) (hn : 0 < n)
    (hret : (stretch s p).returns = s.returns ++ [.read n 0]) :
    (stretch s p).pipe.nread = (stretch s p).pipe.nwrite ∧ (stretch s p).pipe.writeopen = false := by
  obtain ⟨q, hq, -⟩ := h
  unfold stretch at hret ⊢
  cases hp : s.threads p with
  | idle =>
    rw [hp] at hret
    exact absurd hret (by simp)
  | writing call buf m i =>
    rw [hp] at hret
    dsimp only at hret
    cases hr : (pipeWrite (s.killed p) buf m i s.pipe).ret with
    | none =>
      rw [hr] at hret
      exact absurd hret (by simp [enter])
    | some v =>
      rw [hr] at hret
      exact absurd hret (by simp)
  | reading m =>
    rw [hp] at hret
    dsimp only at hret ⊢
    obtain ⟨-, hzero⟩ := pipeRead_spec (s.killed p) m hq
    cases hr : (pipeRead (s.killed p) m s.pipe).ret with
    | none =>
      rw [hr] at hret
      exact absurd hret (by simp [enter])
    | some v =>
      rw [hr] at hret
      have he := append_cancel_left hret
      rw [List.cons.injEq] at he
      obtain ⟨rfl, rfl⟩ := Return.read.inj he.1
      exact hzero hr hn

theorem step_read_zero {s s' : Sys P} {l : Label P} {n : ℤ} (h : Fifo s) (hn : 0 < n)
    (hs : step s l = some s') (hret : s'.returns = s.returns ++ [.read n 0]) :
    s'.pipe.nread = s'.pipe.nwrite ∧ s'.pipe.writeopen = false := by
  unfold step at hs
  split_ifs at hs
  cases l with
  | write p buf m =>
    dsimp only at hs
    split_ifs at hs
    cases hs
    have hbegin : Fifo { enter s p (.writing s.calls buf m 0) with calls := s.calls + 1 } := h
    exact stretch_read_zero hbegin hn hret
  | read p m =>
    dsimp only at hs
    split_ifs at hs
    cases hs
    have hbegin : Fifo (enter s p (.reading m)) := h
    exact stretch_read_zero hbegin hn hret
  | resume p =>
    dsimp only at hs
    split_ifs at hs
    cases hs
    exact stretch_read_zero h hn hret
  | kill p =>
    cases hs
    exact absurd hret (by simp)
  | close writable =>
    cases hs
    exact absurd hret (by simp)

/-- **Pipes are queues of bytes**, in every state that any interleaving of the calls leads to: the bytes
handed to readers are the first of those stored, at most `PIPE_SIZE` bytes are between the two, as many as
the counters say; a `pipe_write` that has returned a value that is not negative has stored the bytes of its
buffer, each once and in order; and the step by which a `pipe_read` of a positive size returns zero leaves an
empty buffer whose write end is closed. -/
theorem pipe_fifo (data : ℕ → UInt8) {ls : List (Label P)} {s : Sys P}
    (h : Run step (fun _ _ => True) (init P data) ls s) : s.removed <+: s.stored.map Prod.snd ∧
    s.stored.length = s.removed.length + (s.pipe.nwrite - s.pipe.nread).toNat ∧
    (s.pipe.nwrite - s.pipe.nread).toNat ≤ pipeSize ∧
    (∀ call buf n r, .write call buf n r ∈ s.returns → 0 ≤ r →
      r = n.toNat ∧ bytesOf s.stored call = (List.range n.toNat).map buf) ∧
    ∀ l s' n, 0 < n → step s l = some s' → s'.returns = s.returns ++ [.read n 0] →
      s'.pipe.nread = s'.pipe.nwrite ∧ s'.pipe.writeopen = false := by
  obtain ⟨hfifo, hcalls⟩ : Inv s := h.inv (fun _ _ _ hs _ hstep => inv_step hs hstep) (inv_init data)
  obtain ⟨q, hq, hsplit⟩ := hfifo
  refine ⟨⟨q, hsplit.symm⟩, ?_, ?_, ?_, ?_⟩
  · have hlen := congrArg List.length hsplit
    rw [length_map, length_append] at hlen
    rw [hlen, hq.count]
  · rw [hq.count]
    exact hq.le
  · intro call buf n r hr h0
    exact (hcalls.returned call buf n r hr).2.2 h0
  · intro l s' n hn hs hret
    exact step_read_zero ⟨q, hq, hsplit⟩ hn hs hret

/-- A writer that fills the pipe sleeps while a reader takes three bytes; then it goes on and returns, and
the write end is closed. -/
theorem pipe_fifo_fullOnce : ∃ s : Sys Bool,
    s.returns.length = 2 ∧ s.stored.length = 514 ∧ s.removed = [0, 1, 2] ∧
      s.removed <+: s.stored.map Prod.snd := by
  let ls : List (Label Bool) :=
    [.write true (fun i => UInt8.ofNat i) 514, .read false 3, .resume true, .close true]
  obtain ⟨s, hs⟩ := Option.isSome_iff_exists.mp
    (by decide +kernel : (exec step (fun _ _ => true) (init Bool fun _ => 0) ls).isSome = true)
  have hrun : Run step (fun _ _ => True) (init Bool fun _ => 0) ls s := run_of_exec (fun _ _ _ => trivial) hs
  have hfacts : (exec step (fun _ _ => true) (init Bool fun _ => 0) ls).map
      (fun s => (s.returns.length, s.stored.length, s.removed)) = some (2, 514, [0, 1, 2]) := by decide +kernel
  rw [hs, Option.map_some, Option.some.injEq, Prod.mk.injEq, Prod.mk.injEq] at hfacts
  exact ⟨s, hfacts.1, hfacts.2.1, hfacts.2.2, (pipe_fifo _ hrun).1⟩

end OsHonor.Fs.Pipes
