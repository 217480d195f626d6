import OsHonor.Base.Bytes
import OsHonor.Ipc.Code

/-! # The body of a message

`load_msg` splits a body over a first page and a chain of segments, and `store_msg` puts it together
again. Both take the length off before they move their cursor on by it, so they move it by what is left
and not by what was copied. The two cursors stay together (`store_load`), so what is stored is right, but
bytes at the end are left out: `payload_roundtrip` says for which lengths they are not. -/

namespace OsHonor.Ipc.Payload

open Base.Bytes Code

abbrev Page := ℕ → UInt8

/-- `MSG_MSGSZ`: a page without the 32 bytes of a `msg_msg`. -/
def msgMsgsz : ℕ := 4096 - 32

/-- `MSG_MSGSEGSZ`: a page without the 8 bytes of a `msg_msgseg`. -/
def msgMsgsegsz : ℕ := 4096 - 8

/-- The pages of a message: its own, and those of the segments. -/
structure Body where
  page : Page
  segs : List Page

/-- `free_msg`: the segments and then the first page go to the end of the free pages. -/
def freeMsg (body : Body) (pages : List Page) : List Page := pages ++ body.segs ++ [body.page]

/-- The loop of `load_msg`: the segments, whether there were pages enough, and the pages left. -/
def loadSegs (mem : ℕ → UInt8) : List Page → ℕ → ℕ → List Page × Bool × List Page
  | [], len, _ => ([], len = 0, [])
  | mseg :: pages, len, src =>
    if 0 < len then
      let data := copy mseg mem 8 src (min msgMsgsegsz len)
      let len := len - min msgMsgsegsz len
      let (segs, ok, rest) := loadSegs mem pages len (src + min msgMsgsegsz len)
      (data :: segs, ok, rest)
    else ([], true, mseg :: pages)

/-- `load_msg`: the body, if there are pages enough, and the pages left. -/
def loadMsg (mem : ℕ → UInt8) (src len : ℕ) : List Page → Option Body × List Page
  | [] => (none, [])
  | msg :: pages =>
    let data := copy msg mem 32 src (min msgMsgsz len)
    let len := len - min msgMsgsz len
    let (segs, ok, rest) := loadSegs mem pages len (src + min msgMsgsz len)
    if ok then (some ⟨data, segs⟩, rest) else (none, freeMsg ⟨data, segs⟩ rest)

/-- The loop of `store_msg`; `none` is the use of a null segment. -/
def storeSegs (buf : ℕ → UInt8) : List Page → ℕ → ℕ → Option (ℕ → UInt8)
  | [], msgsz, _ => if 0 < msgsz then none else some buf
  | sg :: segs, msgsz, dst =>
    if 0 < msgsz then
      let buf := copy buf sg dst 8 (min msgsz msgMsgsegsz)
      let msgsz := msgsz - min msgsz msgMsgsegsz
      storeSegs buf segs msgsz (dst + min msgsz msgMsgsegsz)
    else some buf

/-- `store_msg`: the type and the memory with the data from `dst` on. -/
def storeMsg (buf : ℕ → UInt8) (dst : ℕ) (msg : Msg Body) (msgsz : ℕ) : Option (ℤ × (ℕ → UInt8)) :=
  let buf := copy buf msg.body.page dst 32 (min msgsz msgMsgsz)
  let msgsz := msgsz - min msgMsgsz msgsz
  (storeSegs buf msg.body.segs msgsz (dst + min msgMsgsz msgsz)).map fun buf => (msg.mtype, buf)

/-! ### What is covered -/

/-- The loops, with `len` bytes to go and the cursor at `c`, copy the byte `k`. -/
def Covered (len c k : ℕ) : Prop :=
  if 0 < len then
    (c ≤ k ∧ k < c + min msgMsgsegsz len) ∨
      Covered (len - min msgMsgsegsz len) (c + min msgMsgsegsz (len - min msgMsgsegsz len)) k
  else False
termination_by len
decreasing_by
  unfold msgMsgsegsz
  omega

variable {c k len src : ℕ} {mem : ℕ → UInt8} {pages : List Page}

theorem covered_zero : ¬ Covered 0 c k := by
  rw [Covered]
  simp

theorem covered_pos (h : 0 < len) : Covered len c k ↔
    (c ≤ k ∧ k < c + min msgMsgsegsz len) ∨
      Covered (len - min msgMsgsegsz len) (c + min msgMsgsegsz (len - min msgMsgsegsz len)) k := by
  rw [Covered, if_pos h]

theorem Covered.lt : ∀ {len c : ℕ}, Covered len c k → c ≤ k ∧ k < c + len := by
  intro len
  induction len using Nat.strong_induction_on with
  | _ len ih =>
    intro c h
    rcases Nat.eq_zero_or_pos len with rfl | hpos
    · exact absurd h covered_zero
    · rcases (covered_pos hpos).mp h with h | h
      · omega
      · have hlt : len - min msgMsgsegsz len < len := by
          unfold msgMsgsegsz
          omega
        obtain ⟨h1, h2⟩ := ih _ hlt h
        unfold msgMsgsegsz at *
        omega

/-- **Every byte is copied** if one segment is enough, or all segments are full. -/
theorem covered_all : (∀ k, c ≤ k → k < c + len → Covered len c k) ↔
    len ≤ msgMsgsegsz ∨ msgMsgsegsz ∣ len := by
  induction len using Nat.strong_induction_on generalizing c with
  | _ len ih =>
    rcases Nat.eq_zero_or_pos len with rfl | hpos
    · exact ⟨fun _ => Or.inl (Nat.zero_le _), fun _ k h1 h2 => by omega⟩
    by_cases hone : len ≤ msgMsgsegsz
    · refine ⟨fun _ => Or.inl hone, fun _ k h1 h2 => (covered_pos hpos).mpr (Or.inl ⟨h1, ?_⟩)⟩
      rwa [Nat.min_eq_right hone]
    have hmin : min msgMsgsegsz len = msgMsgsegsz := Nat.min_eq_left (by omega)
    have hlt : len - msgMsgsegsz < len := by
      unfold msgMsgsegsz
      omega
    rw [or_iff_right hone]
    by_cases hnext : msgMsgsegsz ≤ len - msgMsgsegsz
    · -- the cursor moves on by a whole segment
      have hmin' : min msgMsgsegsz (len - msgMsgsegsz) = msgMsgsegsz := Nat.min_eq_left hnext
      have hrest : (∀ k, c ≤ k → k < c + len → Covered len c k) ↔
          ∀ k, c + msgMsgsegsz ≤ k → k < c + msgMsgsegsz + (len - msgMsgsegsz) →
            Covered (len - msgMsgsegsz) (c + msgMsgsegsz) k := by
        constructor
        · intro h k h1 h2
          have hk := (covered_pos hpos).mp (h k (by omega) (by omega))
          rw [hmin, hmin'] at hk
          exact hk.resolve_left (by omega)
        · intro h k h1 h2
          rw [covered_pos hpos, hmin, hmin']
          by_cases hk : k < c + msgMsgsegsz
          · exact Or.inl ⟨h1, hk⟩
          · exact Or.inr (h k (by omega) (by omega))
      rw [hrest, ih _ hlt]
      have hdvd : msgMsgsegsz ∣ len ↔ msgMsgsegsz ∣ len - msgMsgsegsz := by
        rw [Nat.dvd_sub_self_right]
        exact ⟨Or.inl, fun h => h.resolve_right (by omega)⟩
      rw [hdvd]
      refine ⟨fun h => h.elim (fun hle => ?_) id, Or.inr⟩
      exact dvd_of_eq (by omega)
    · -- the last bytes are out of reach, and the last segment is not full
      have hmin' : min msgMsgsegsz (len - msgMsgsegsz) = len - msgMsgsegsz := Nat.min_eq_right (by omega)
      refine iff_of_false (fun h => ?_) fun hdvd => ?_
      · have hk := (covered_pos hpos).mp (h (c + len - 1) (by omega) (by omega))
        rw [hmin, hmin'] at hk
        rcases hk with hk | hk
        · omega
        · have := hk.lt
          omega
      · have hle := Nat.le_of_dvd (by omega) (Nat.dvd_sub hdvd (dvd_refl msgMsgsegsz))
        exact hnext hle

/-! ### The two loops together -/

theorem loadSegs_pos {mseg : Page} (h : 0 < len) : loadSegs mem (mseg :: pages) len src =
      let r := loadSegs mem pages (len - min msgMsgsegsz len)
        (src + min msgMsgsegsz (len - min msgMsgsegsz len))
      (copy mseg mem 8 src (min msgMsgsegsz len) :: r.1, r.2.1, r.2.2) := by
  rw [loadSegs, if_pos h]

theorem storeSegs_pos {buf : ℕ → UInt8} {sg : Page} {segs : List Page} {msgsz dst : ℕ} (h : 0 < msgsz) :
    storeSegs buf (sg :: segs) msgsz dst =
      storeSegs (copy buf sg dst 8 (min msgMsgsegsz msgsz)) segs (msgsz - min msgMsgsegsz msgsz)
        (dst + min msgMsgsegsz (msgsz - min msgMsgsegsz msgsz)) := by
  rw [storeSegs, if_pos h]
  simp only [Nat.min_comm msgMsgsegsz]

theorem loadSegs_ok : ∀ {pages : List Page} {len src : ℕ},
    len ≤ pages.length * msgMsgsegsz → ∃ segs rest, loadSegs mem pages len src = (segs, true, rest)
  | [], len, src, h => by
    rw [List.length_nil, Nat.zero_mul, Nat.le_zero] at h
    exact ⟨[], [], by simp [loadSegs, h]⟩
  | mseg :: pages, len, src, h => by
    by_cases hpos : 0 < len
    · have hrest : len - min msgMsgsegsz len ≤ pages.length * msgMsgsegsz := by
        rw [List.length_cons, Nat.succ_mul] at h
        omega
      obtain ⟨segs, rest, hok⟩ := loadSegs_ok hrest
      exact ⟨_, rest, by rw [loadSegs_pos hpos, hok]⟩
    · exact ⟨[], mseg :: pages, by rw [loadSegs, if_neg hpos]⟩

/-- **The cursors stay together**: what `store_msg` writes for the segments of `load_msg` is the byte of
the source at the same place. -/
theorem store_load {s d : ℕ} : ∀ {pages segs rest : List Page} {len c : ℕ},
    loadSegs mem pages len (s + c) = (segs, true, rest) → ∀ buf : ℕ → UInt8,
    ∃ buf', storeSegs buf segs len (d + c) = some buf' ∧
      (∀ k, Covered len c k → buf' (d + k) = mem (s + k)) ∧
      ∀ a, (∀ k, a = d + k → ¬ Covered len c k) → buf' a = buf a
  | [], segs, rest, len, c, h, buf => by
    obtain ⟨rfl, hlen, -⟩ : [] = segs ∧ decide (len = 0) = true ∧ [] = rest := by
      simpa [loadSegs] using h
    obtain rfl := of_decide_eq_true hlen
    exact ⟨buf, rfl, fun k hk => absurd hk covered_zero, fun _ _ => rfl⟩
  | mseg :: pages, segs, rest, len, c, h, buf => by
    by_cases hpos : 0 < len
    · rw [loadSegs_pos hpos, Nat.add_assoc] at h
      rcases hload : loadSegs mem pages (len - min msgMsgsegsz len)
        (s + (c + min msgMsgsegsz (len - min msgMsgsegsz len))) with ⟨segs', ok, rest'⟩
      rw [hload] at h
      obtain ⟨rfl, rfl, rfl⟩ : _ = segs ∧ ok = true ∧ rest' = rest := by simpa using h
      obtain ⟨buf', hstore, hcov, hoff⟩ := store_load hload
        (copy buf (copy mseg mem 8 (s + c) (min msgMsgsegsz len)) (d + c) 8 (min msgMsgsegsz len))
      refine ⟨buf', ?_, fun k hk => ?_, fun a ha => ?_⟩
      · rw [storeSegs_pos hpos, Nat.add_assoc]
        exact hstore
      · by_cases hlater : Covered (len - min msgMsgsegsz len)
          (c + min msgMsgsegsz (len - min msgMsgsegsz len)) k
        · exact hcov k hlater
        · -- the byte is in this segment and in none after it
          have hk' := ((covered_pos hpos).mp hk).resolve_right hlater
          rw [hoff _ fun j hj => by rwa [← Nat.add_left_cancel hj], copy_of_mem (by omega),
            copy_of_mem (by omega)]
          congr 1
          omega
      · rw [hoff a fun k hk hc => ha k hk ((covered_pos hpos).mpr (Or.inr hc)), copy_of_not_mem]
        intro hin
        exact ha (a - d) (by omega) ((covered_pos hpos).mpr (Or.inl (by omega)))
    · obtain rfl : len = 0 := by omega
      obtain ⟨rfl, -⟩ : [] = segs ∧ mseg :: pages = rest := by simpa [loadSegs] using h
      exact ⟨buf, rfl, fun k hk => absurd hk covered_zero, fun _ _ => rfl⟩

/-- The byte `k` of a body of `len` bytes is copied. -/
def Copied (len k : ℕ) : Prop :=
  k < min msgMsgsz len ∨ Covered (len - min msgMsgsz len) (min msgMsgsz (len - min msgMsgsz len)) k

theorem Copied.lt (h : Copied len k) : k < len := by
  rcases h with h | h
  · omega
  · have := h.lt
    omega

theorem copied_all : (∀ k < len, Copied len k) ↔
    len ≤ msgMsgsz ∨ (2 * msgMsgsz ≤ len ∧ len ≤ msgMsgsz + msgMsgsegsz) ∨ msgMsgsegsz ∣ len - msgMsgsz := by
  by_cases hone : len ≤ msgMsgsz
  · refine ⟨fun _ => Or.inl hone, fun _ k hk => Or.inl ?_⟩
    omega
  have hmin : min msgMsgsz len = msgMsgsz := Nat.min_eq_left (by omega)
  rw [or_iff_right hone]
  by_cases hnext : 2 * msgMsgsz ≤ len
  · have hmin' : min msgMsgsz (len - msgMsgsz) = msgMsgsz := Nat.min_eq_left (by omega)
    have hrest : (∀ k < len, Copied len k) ↔ ∀ k, msgMsgsz ≤ k → k < msgMsgsz + (len - msgMsgsz) →
        Covered (len - msgMsgsz) msgMsgsz k := by
      unfold Copied
      rw [hmin, hmin']
      constructor
      · intro h k h1 h2
        exact (h k (by omega)).resolve_left (by omega)
      · intro h k hk
        by_cases hfirst : k < msgMsgsz
        · exact Or.inl hfirst
        · exact Or.inr (h k (by omega) (by omega))
    rw [hrest, covered_all]
    exact or_congr (by omega) Iff.rfl
  · -- the first segment overlaps the first page, and the end is out of reach
    have hmin' : min msgMsgsz (len - msgMsgsz) = len - msgMsgsz := Nat.min_eq_right (by omega)
    refine iff_of_false (fun h => ?_) ?_
    · rcases h (len - 1) (by omega) with hk | hk
      · omega
      · rw [hmin, hmin'] at hk
        have := hk.lt
        omega
    · rintro (h | h)
      · exact hnext h.1
      · have := Nat.le_of_dvd (by omega) h
        unfold msgMsgsz msgMsgsegsz at *
        omega

/-- `load_msg` and then `store_msg` with the size of the message: the bytes that are copied are those of
the source, and nothing else is written. -/
theorem storeMsg_loadMsg {rest : List Page} {body : Body}
    (h : loadMsg mem src len pages = (some body, rest)) (mtype size : ℤ) (buf : ℕ → UInt8) (dst : ℕ) :
    ∃ buf', storeMsg buf dst ⟨mtype, size, body⟩ len = some (mtype, buf') ∧
      (∀ k, Copied len k → buf' (dst + k) = mem (src + k)) ∧
      ∀ a, (∀ k, a = dst + k → ¬ Copied len k) → buf' a = buf a := by
  rcases pages with _ | ⟨msg, pages⟩
  · simp [loadMsg] at h
  rcases hload : loadSegs mem pages (len - min msgMsgsz len)
    (src + min msgMsgsz (len - min msgMsgsz len)) with ⟨segs, ok, rest'⟩
  rw [loadMsg, hload] at h
  obtain rfl : ok = true := by
    by_contra hok
    simp [hok] at h
  obtain ⟨rfl, -⟩ : Body.mk (copy msg mem 32 src (min msgMsgsz len)) segs = body ∧ rest' = rest := by
    simpa using h
  obtain ⟨buf', hstore, hcov, hoff⟩ := store_load hload
    (copy buf (copy msg mem 32 src (min msgMsgsz len)) dst 32 (min msgMsgsz len))
  refine ⟨buf', ?_, fun k hk => ?_, fun a ha => ?_⟩
  · rw [storeMsg, Nat.min_comm len, hstore]
    rfl
  · by_cases hlater : Covered (len - min msgMsgsz len) (min msgMsgsz (len - min msgMsgsz len)) k
    · exact hcov k hlater
    · have hk' := hk.resolve_right hlater
      rw [hoff _ fun j hj => by rwa [← Nat.add_left_cancel hj], copy_of_mem (by omega),
        copy_of_mem (by omega)]
      congr 1
      omega
  · rw [hoff a fun k hk hc => ha k hk (Or.inr hc), copy_of_not_mem]
    intro hin
    exact ha (a - dst) (by omega) (Or.inl (by omega))

/-- **Bodies of this length come back**: whatever the memory, the pages and the buffer hold, `store_msg`
writes the bytes that `load_msg` was given, and nothing beyond them. -/
def RoundTrips (len : ℕ) : Prop :=
  ∀ (mem : ℕ → UInt8) (src : ℕ) (pages rest : List Page) (body : Body),
    loadMsg mem src len pages = (some body, rest) → ∀ (mtype : ℤ) (buf : ℕ → UInt8) (dst : ℕ),
    ∃ buf', storeMsg buf dst ⟨mtype, len, body⟩ len = some (mtype, buf') ∧
      (∀ k < len, buf' (dst + k) = mem (src + k)) ∧ ∀ a, a < dst ∨ dst + len ≤ a → buf' a = buf a

theorem loadMsg_ok {msg : Page} (h : len ≤ msgMsgsz + pages.length * msgMsgsegsz) :
    ∃ body rest, loadMsg mem src len (msg :: pages) = (some body, rest) := by
  have hrest : len - min msgMsgsz len ≤ pages.length * msgMsgsegsz := by omega
  obtain ⟨segs, rest, hok⟩ := loadSegs_ok hrest
  exact ⟨_, rest, by rw [loadMsg, hok]; rfl⟩

/-- **The body of a message comes back exactly** if it fits into the first page, or its second page holds
at least as much as the first and is the last, or all its segments are full. -/
theorem payload_roundtrip (len : ℕ) :
    (∀ (mem : ℕ → UInt8) (src : ℕ) (msg : Page) (pages : List Page),
      len ≤ msgMsgsz + pages.length * msgMsgsegsz →
        ∃ body rest, loadMsg mem src len (msg :: pages) = (some body, rest)) ∧
    (RoundTrips len ↔ len ≤ msgMsgsz ∨ (2 * msgMsgsz ≤ len ∧ len ≤ msgMsgsz + msgMsgsegsz) ∨
      msgMsgsegsz ∣ len - msgMsgsz) := by
  refine ⟨fun mem src msg pages h => loadMsg_ok h, ?_⟩
  rw [← copied_all]
  constructor
  · -- a byte that is not copied keeps what the buffer held before
    intro h k hk
    by_contra hnot
    have hle : len ≤ msgMsgsz + (List.replicate len (fun _ => 0 : Page)).length * msgMsgsegsz := by
      rw [List.length_replicate]
      unfold msgMsgsegsz
      omega
    obtain ⟨body, rest, hload⟩ : ∃ body rest, loadMsg (fun _ => 1) 0 len
        ((fun _ => 0) :: List.replicate len fun _ => 0) = (some body, rest) := loadMsg_ok hle
    obtain ⟨b, hb, hsame, -⟩ := h _ _ _ _ _ hload 1 (fun _ => 0) 0
    obtain ⟨b', hb', -, hoff⟩ := storeMsg_loadMsg hload 1 len (fun _ => 0) 0
    obtain rfl : b = b' := (Prod.mk.inj (Option.some.inj (hb.symm.trans hb'))).2
    have hzero := hoff (0 + k) fun j hj => by rwa [← Nat.add_left_cancel hj]
    exact absurd ((hsame k hk).symm.trans hzero) (by decide)
  · intro h mem src pages rest body hload mtype buf dst
    obtain ⟨buf', hstore, hcov, hoff⟩ := storeMsg_loadMsg hload mtype len buf dst
    refine ⟨buf', hstore, fun k hk => hcov k (h k hk), fun a ha => hoff a fun k hk hc => ?_⟩
    have := hc.lt
    omega

/-- The last byte of a body of 5000 ones does not arrive in a buffer of zeros. -/
theorem payload_lost :
    (∃ body rest buf', loadMsg (fun _ => 1) 0 5000 [fun _ => 0, fun _ => 0] = (some body, rest) ∧
      storeMsg (fun _ => 0) 0 ⟨1, 5000, body⟩ 5000 = some (1, buf') ∧ buf' 4999 = 0) ∧
    ¬ RoundTrips 5000 := by
  obtain ⟨body, rest, hload⟩ : ∃ body rest,
      loadMsg (fun _ => 1) 0 5000 [fun _ => 0, fun _ => 0] = (some body, rest) :=
    loadMsg_ok (by decide)
  obtain ⟨buf', hstore, -, hoff⟩ := storeMsg_loadMsg hload 1 5000 (fun _ => 0) 0
  have hlost : buf' 4999 = 0 := by
    refine hoff 4999 fun k hk hc => ?_
    rcases hc with h | h
    · unfold msgMsgsz at h
      omega
    · have := h.lt
      unfold msgMsgsz at this
      omega
  refine ⟨⟨body, rest, buf', hload, hstore, hlost⟩, fun h => ?_⟩
  obtain ⟨b, hb, hsame, -⟩ := h _ _ _ _ _ hload 1 (fun _ => 0) 0
  obtain rfl : b = buf' := (Prod.mk.inj (Option.some.inj (hb.symm.trans hstore))).2
  exact absurd ((hsame 4999 (by decide)).symm.trans hlost) (by decide)

end OsHonor.Ipc.Payload
