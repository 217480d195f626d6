import OsHonor.Fs.OpenFiles.Promises

/-! # The counts of open files are exact

Each system call keeps the invariant of the tables with no reference of its own left over, and it returns:
no assertion of `file_dup` or `file_close` fails (`openat_ok`, `dup_ok`, `close_ok`, `pipe2_ok`, `fork_ok`,
`exit_ok`). The only call that may not return is `pipe2`, which panics if there are not two free slots.
`open_files_exact` is what follows for whole runs. -/

namespace OsHonor.Fs.OpenFiles.Counts

open Option List Function Base.Holders Base.Runs Code Promises
open Pipes (Pipe pipeAlloc)

variable {P : Type} [DecidableEq P] {s s' : Sys P} {e : ℕ → ℕ} {p : P} {f : ℕ}

def idle : ℕ → ℕ := fun _ => 0

/-- The call in progress holds one reference to `f`. -/
def one (f : ℕ) : ℕ → ℕ := fun g => if g = f then 1 else 0

/-- One more reference to `f` is held. -/
def more (e : ℕ → ℕ) (f : ℕ) : ℕ → ℕ := fun g => e g + if g = f then 1 else 0

theorem more_self (e : ℕ → ℕ) (f : ℕ) : more e f f = e f + 1 := by simp [more]

theorem more_of_ne {g : ℕ} (hg : g ≠ f) : more e f g = e g := by simp [more, hg]

def two (f f' : ℕ) : ℕ → ℕ := fun g => if g = f ∨ g = f' then 1 else 0

omit [DecidableEq P] in
theorem object_blank (h : Inv s e) (hf : (s.files f).ref = 0) : object s f = none := by
  unfold object
  rw [(h.blank f).mp hf]

variable {i : ℕ} {x : P × ℕ} {c : Call P}

theorem install {e' : ℕ → ℕ} (h : Inv s e) (hp : p ∈ s.live) (hi : i < nofile)
    (hnone : s.ofiles (p, i) = none) (hf : e f = e' f + 1) (he : ∀ g, g ≠ f → e' g = e g) :
    Inv (setFd s (p, i) (some f)) e' := by
  refine h.setFd (mem_places.mpr ⟨hp, hi⟩) fun g => ?_
  by_cases hg : g = f
  · subst hg
    simp only [hnone, reduceCtorEq, if_true, if_false]
    omega
  · simp only [hnone, reduceCtorEq, some.injEq, Ne.symm hg, if_false]
    rw [he g hg]

theorem uninstall {e' : ℕ → ℕ} (h : Inv s e) (hx : s.ofiles x = some f) (hf : e' f = e f + 1)
    (he : ∀ g, g ≠ f → e' g = e g) : Inv (setFd s x none) e' := by
  refine h.setFd (h.inside x f hx) fun g => ?_
  by_cases hg : g = f
  · subst hg
    simp only [hx, reduceCtorEq, if_true, if_false]
    omega
  · simp only [hx, reduceCtorEq, some.injEq, Ne.symm hg, if_false]
    rw [he g hg]

/-! ### openat, dup, close -/

omit [DecidableEq P] in
theorem fileClose_alloc (hzero : (s.files f).ref = 0) (htype : (s.files f).type = .none) :
    fileClose (setFile s f { s.files f with ref := 1 }) f = some s := by
  have hback : ({ s.files f with ref := 0, type := .none } : File) = s.files f := by
    cases hfile : s.files f
    rw [hfile] at hzero htype
    cases hzero
    cases htype
    rfl
  have hid : update s.files f { s.files f with ref := 0, type := .none } = s.files := by
    rw [hback, update_eq_self]
  unfold fileClose
  simp only [setFile, update_self, htype, update_idem]
  rw [if_neg (by omega), if_neg (by omega), hid]

theorem opened_ok {n : ℕ} {r w : Bool} (h : Inv s e) (hp : p ∈ s.live) (hzero : (s.files f).ref = 0)
    (hi : i < nofile) (hnone : s.ofiles (p, i) = none) :
    Inv { setFile (setFd s (p, i) (some f)) f ⟨.inode, 1, r, w, n, 0⟩ with
      serial := update s.serial f s.opened.length
      opened := s.opened ++ [.inode s.opened.length n] } e := by
  set opened : Sys P := { setFile s f ⟨.inode, 1, r, w, n, 0⟩ with
    serial := update s.serial f s.opened.length
    opened := s.opened ++ [.inode s.opened.length n] } with hopened
  have hcreate : Inv opened (more e f) := by
    have hobj : object opened f = some (.inode s.opened.length n) := by
      unfold object
      rw [hopened]
      dsimp only
      rw [files_setFile, if_pos rfl]
      dsimp only
      rw [update_self]
    refine h.retable rfl rfl (h.books.openInode (object_blank h hzero) hobj (fun g hg => ?_)
      rfl rfl rfl rfl rfl) (fun g => ?_) fun g => ?_
    · unfold object
      rw [hopened]
      dsimp only
      rw [files_setFile, if_neg hg, update_of_ne hg]
    · rw [hopened]
      dsimp only [more]
      rw [files_setFile]
      split_ifs with hg
      · rw [hg, hzero]
        show 1 + e f = 0 + (e f + 1)
        omega
      · rfl
    · rw [hopened]
      dsimp only
      rw [files_setFile]
      split_ifs with hg
      · simp
      · exact h.blank g
  exact install hcreate hp hi hnone (more_self e f) fun g hg => (more_of_ne hg).symm

theorem openat_ok (h : Inv s e) (hp : p ∈ s.live) (ip : Option ℕ) (wronly rdwr : Bool) :
    ∃ s', openat s p ip wronly rdwr = some s' ∧ Inv s' e := by
  unfold openat
  cases ip with
  | none => exact ⟨s, rfl, h⟩
  | some ip =>
    dsimp only
    cases ha : fileAlloc s with
    | none => exact ⟨s, rfl, h⟩
    | some x =>
      obtain ⟨f, s1⟩ := x
      obtain ⟨hzero, rfl⟩ := fileAlloc_spec ha
      dsimp only
      cases hd : fdalloc (setFile s f { s.files f with ref := 1 }) p f with
      | none => exact ⟨s, fileClose_alloc hzero ((h.blank f).mp hzero), h⟩
      | some y =>
        obtain ⟨i, s2⟩ := y
        obtain ⟨hi, hnone, rfl⟩ := fdalloc_spec hd
        refine ⟨_, rfl, ?_⟩
        convert opened_ok (r := !wronly) (w := wronly || rdwr) (n := ip) h hp hzero hi hnone using 1
        simp [setFile, setFd]

theorem fileDup_setFd (s : Sys P) (x : P × ℕ) (v : Option ℕ) (f : ℕ) :
    fileDup (setFd s x v) f = (fileDup s f).map fun s => setFd s x v := by
  unfold fileDup setFd setFile
  dsimp only
  split_ifs <;> rfl

theorem fileClose_setFd (s : Sys P) (x : P × ℕ) (v : Option ℕ) (f : ℕ) :
    fileClose (setFd s x v) f = (fileClose s f).map fun s => setFd s x v := by
  unfold fileClose setFd setFile
  dsimp only
  by_cases h0 : (s.files f).ref = 0
  · rw [if_pos h0, if_pos h0]
    rfl
  · rw [if_neg h0, if_neg h0]
    by_cases h1 : 1 < (s.files f).ref
    · rw [if_pos h1, if_pos h1]
      rfl
    · rw [if_neg h1, if_neg h1]
      cases (s.files f).type <;> rfl

omit [DecidableEq P] in
theorem ref_pos (h : Inv s e) (hx : s.ofiles x = some f) : 0 < (s.files f).ref := by
  have hpos : 0 < refs s f := holders_pos (h.inside x f hx) hx
  have hc := h.count f
  omega

/-- **A descriptor more**: an empty one comes to refer to a slot that is in use. -/
theorem attach (h : Inv s e) (hx : s.ofiles x = some f) (hp : p ∈ s.live)
    (hi : i < nofile) (hnone : s.ofiles (p, i) = none) :
    ∃ s', fileDup s f = some s' ∧ Inv (setFd s' (p, i) (some f)) e ∧ s'.ofiles = s.ofiles ∧ s'.live = s.live := by
  obtain ⟨s', hs', hinv, hof, hlive⟩ := h.fileDup (ref_pos h hx) (more_self e f) fun g hg => more_of_ne hg
  refine ⟨s', hs', install hinv (hlive ▸ hp) hi ?_ (more_self e f) (fun g hg => (more_of_ne hg).symm), hof, hlive⟩
  rw [hof]
  exact hnone

/-- **A descriptor less**: one that refers to a slot is cleared, and the slot closed. -/
theorem detach (h : Inv s e) (hx : s.ofiles x = some f) :
    ∃ s', fileClose s f = some s' ∧ Inv (setFd s' x none) e ∧ s'.ofiles = s.ofiles ∧ s'.live = s.live := by
  have hcut : Inv (setFd s x none) (more e f) := uninstall h hx (more_self e f) fun g hg => more_of_ne hg
  obtain ⟨s1, hs1, hinv, -, hlive⟩ := hcut.fileClose (more_self e f) fun g hg => (more_of_ne hg).symm
  rw [fileClose_setFd] at hs1
  obtain ⟨s', hs', rfl⟩ := map_eq_some_iff.mp hs1
  refine ⟨s', hs', hinv, ?_, hlive⟩
  -- the descriptors of `s'` are those of `s`, as `file_close` keeps them
  unfold fileClose at hs'
  dsimp only at hs'
  by_cases h0 : (s.files f).ref = 0
  · rw [if_pos h0] at hs'
    cases hs'
  · rw [if_neg h0] at hs'
    by_cases h1 : 1 < (s.files f).ref
    · rw [if_pos h1] at hs'
      cases hs'
      rfl
    · rw [if_neg h1] at hs'
      cases ht : (s.files f).type <;> rw [ht] at hs' <;> · cases hs'; rfl

theorem dup_ok (h : Inv s e) (hp : p ∈ s.live) (fd : ℤ) : ∃ s', dup s p fd = some s' ∧ Inv s' e := by
  unfold dup
  split_ifs
  · cases hx : s.ofiles (p, fd.toNat) with
    | none => exact ⟨s, rfl, h⟩
    | some f =>
      dsimp only
      cases hd : fdalloc s p f with
      | none => exact ⟨s, rfl, h⟩
      | some y =>
        obtain ⟨i, s1⟩ := y
        obtain ⟨hi, hnone, rfl⟩ := fdalloc_spec hd
        obtain ⟨s', hs', hinv, -, -⟩ := attach h hx hp hi hnone
        refine ⟨_, ?_, hinv⟩
        dsimp only
        rw [fileDup_setFd, hs']
        rfl
  · exact ⟨s, rfl, h⟩

theorem close_ok (h : Inv s e) (p : P) (fd : ℕ) : ∃ s', close s p fd = some s' ∧ Inv s' e := by
  unfold close
  cases hx : s.ofiles (p, fd) with
  | none => exact ⟨s, rfl, h⟩
  | some f =>
    obtain ⟨s', hs', hinv, -, -⟩ := detach h hx
    refine ⟨_, ?_, hinv⟩
    dsimp only
    rw [fileClose_setFd, hs']
    rfl

/-! ### pipe2 -/

omit [DecidableEq P] in
/-- **`pipe_alloc`** leaves the call with a reference to each end. -/
theorem pipeAllocFiles_ok {f0 f1 : ℕ} {data : ℕ → UInt8} (h : Inv s idle)
    (ha : pipeAllocFiles s data = some (f0, f1, s')) :
    f0 ≠ f1 ∧ Inv s' (two f0 f1) ∧ s'.live = s.live := by
  unfold pipeAllocFiles at ha
  cases ha0 : fileAlloc s with
  | none =>
    rw [ha0] at ha
    cases ha
  | some x =>
    obtain ⟨g0, s1⟩ := x
    rw [ha0] at ha
    obtain ⟨h0, rfl⟩ := fileAlloc_spec ha0
    dsimp only at ha
    cases ha1 : fileAlloc (setFile s g0 { s.files g0 with ref := 1 }) with
    | none =>
      rw [ha1] at ha
      cases ha
    | some y =>
      obtain ⟨g1, s2⟩ := y
      rw [ha1] at ha
      obtain ⟨h1, rfl⟩ := fileAlloc_spec ha1
      dsimp only at ha
      have hne : g0 ≠ g1 := by
        rintro rfl
        rw [files_setFile, if_pos rfl] at h1
        cases h1
      rw [files_setFile, if_neg (Ne.symm hne)] at h1
      cases ha
      refine ⟨hne, h.retable rfl rfl (h.books.openPipe (object_blank h h0) (object_blank h h1) ?_ ?_ ?_
        rfl rfl rfl rfl rfl) (fun g => ?_) (fun g => ?_), rfl⟩
      · simp [object, hne, setFile]
      · simp [object, hne, setFile]
      · intro g hg hg1
        simp [object, hg, hg1, setFile]
      · by_cases hg1 : g = f1
        · subst hg1
          simp [setFile, two, idle, h1, Ne.symm hne]
        · by_cases hg : g = f0
          · subst hg
            simp [setFile, two, idle, h0, hg1]
          · simp [setFile, two, idle, hg, hg1]
      · by_cases hg1 : g = f1
        · subst hg1
          simp [setFile, Ne.symm hne]
        · by_cases hg : g = f0
          · subst hg
            simp [setFile, hg1]
          · simpa [setFile, hg, hg1] using h.blank g

omit [DecidableEq P] in
theorem close_both {f0 f1 : ℕ} (hne : f0 ≠ f1) (h : Inv s (two f0 f1)) :
    ∃ s', ((fileClose s f0).bind fun s => fileClose s f1) = some s' ∧ Inv s' idle := by
  have hfirst : ∃ s', fileClose s f0 = some s' ∧ Inv s' (one f1) ∧ s'.ofiles = s.ofiles ∧ s'.live = s.live :=
    h.fileClose (by simp [two, one, hne]) fun g hg => by simp [two, one, hg]
  obtain ⟨s1, hs1, hinv1, -, -⟩ := hfirst
  have hsecond : ∃ s', fileClose s1 f1 = some s' ∧ Inv s' idle ∧ s'.ofiles = s1.ofiles ∧ s'.live = s1.live :=
    hinv1.fileClose (by simp [one, idle]) fun g hg => by simp [one, idle, hg]
  obtain ⟨s2, hs2, hinv2, -, -⟩ := hsecond
  exact ⟨s2, by rw [hs1, bind_some, hs2], hinv2⟩

theorem pipe2_ok (h : Inv s idle) (hp : p ∈ s.live) (data : ℕ → UInt8) :
    pipeAllocFiles s data = none ∨ ∃ s', pipe2 s p data = some s' ∧ Inv s' idle := by
  unfold pipe2
  cases ha : pipeAllocFiles s data with
  | none => exact Or.inl rfl
  | some x =>
    obtain ⟨f0, f1, s1⟩ := x
    obtain ⟨hne, hinv, hlive⟩ := pipeAllocFiles_ok h ha
    refine Or.inr ?_
    dsimp only
    cases hd0 : fdalloc s1 p f0 with
    | none =>
      -- then there is no descriptor for the other end either
      rw [fdalloc_none hd0]
      exact close_both hne hinv
    | some y =>
      obtain ⟨i, s2⟩ := y
      obtain ⟨hi, hnone, rfl⟩ := fdalloc_spec hd0
      have hinst : Inv (setFd s1 (p, i) (some f0)) (one f1) :=
        install hinv (hlive ▸ hp) hi hnone (by simp [two, one, hne]) fun g hg => by simp [two, one, hg]
      dsimp only
      cases hd1 : fdalloc (setFd s1 (p, i) (some f0)) p f1 with
      | none =>
        have hcut : Inv (setFd (setFd s1 (p, i) (some f0)) (p, i) none) (two f0 f1) :=
          uninstall (f := f0) hinst (update_self ..) (by simp [two, one, hne])
            fun g hg => by simp [two, one, hg]
        exact close_both hne hcut
      | some z =>
        obtain ⟨j, s3⟩ := z
        obtain ⟨hj, hnone1, rfl⟩ := fdalloc_spec hd1
        refine ⟨_, rfl, install hinst (hlive ▸ hp) hj hnone1 (by simp [one, idle]) fun g hg => ?_⟩
        simp [one, idle, hg]

/-! ### fork and exit -/

theorem dupFds_ok {c : P} : ∀ (is : List ℕ) (s : Sys P), Inv s e → c ∈ s.live → is.Nodup →
    (∀ i ∈ is, i < nofile ∧ s.ofiles (c, i) = none) → ∃ s', dupFds p c is s = some s' ∧ Inv s' e
  | [], s, h, _, _, _ => ⟨s, rfl, h⟩
  | i :: is, s, h, hc, hnodup, hfree => by
    obtain ⟨hi, hnodup⟩ := nodup_cons.mp hnodup
    unfold dupFds
    cases hx : s.ofiles (p, i) with
    | none => exact dupFds_ok is s h hc hnodup fun j hj => hfree j (mem_cons_of_mem _ hj)
    | some f =>
      obtain ⟨hlt, hnone⟩ := hfree i mem_cons_self
      obtain ⟨s1, hs1, hinv, hof, hlive⟩ := attach h hx hc hlt hnone
      dsimp only
      rw [hs1, bind_some]
      refine dupFds_ok is _ hinv (hlive.symm ▸ hc) hnodup fun j hj => ?_
      obtain ⟨hjlt, hjnone⟩ := hfree j (mem_cons_of_mem _ hj)
      refine ⟨hjlt, ?_⟩
      have hne : (c, j) ≠ (c, i) := fun he => hi ((Prod.mk.inj he).2 ▸ hj)
      show update s1.ofiles (c, i) (some f) (c, j) = none
      rw [update_of_ne hne, hof]
      exact hjnone

theorem fork_ok {c : P} (h : Inv s e) (hc : c ∉ s.live) (p : P) : ∃ s', fork s p c = some s' ∧ Inv s' e := by
  have hnone : ∀ i, s.ofiles (c, i) = none := by
    intro i
    cases hx : s.ofiles (c, i) with
    | none => rfl
    | some f => exact absurd (mem_places.mp (h.inside _ _ hx)).1 hc
  have hof : (fun x : P × ℕ => if x.1 = c then none else s.ofiles x) = s.ofiles := by
    funext x
    split_ifs with hx
    · obtain ⟨q, i⟩ := x
      cases hx
      exact (hnone i).symm
    · rfl
  have hplaces : (insert c s.live) ×ˢ Finset.range nofile = places s ∪ {c} ×ˢ Finset.range nofile := by
    unfold places
    rw [← Finset.union_product, Finset.union_comm, ← Finset.insert_eq]
  have hstart : Inv { s with live := insert c s.live, ofiles := s.ofiles } e := by
    refine ⟨fun g => ?_, h.blank, fun x g hx => ?_, h.books.congr (fun _ => rfl) rfl rfl rfl rfl rfl⟩
    · show _ = holders ((insert c s.live) ×ˢ Finset.range nofile) s.ofiles g + e g
      rw [hplaces, holders_union]
      · exact h.count g
      · rintro ⟨q, i⟩ hq
        rw [Finset.mem_product, Finset.mem_singleton] at hq
        rw [show q = c from hq.1]
        exact hnone i
    · show x ∈ (insert c s.live) ×ˢ Finset.range nofile
      rw [hplaces]
      exact Finset.mem_union_left _ (h.inside x g hx)
  unfold fork
  rw [hof]
  refine dupFds_ok _ _ hstart (Finset.mem_insert_self _ _) nodup_range fun i hi => ?_
  exact ⟨mem_range.mp hi, hnone i⟩

theorem closeFds_ok : ∀ (is : List ℕ) (s : Sys P), Inv s idle →
    ∃ s', closeFds p is s = some s' ∧ Inv s' idle ∧ s'.live = s.live ∧
      ∀ i, (i ∈ is ∨ s.ofiles (p, i) = none) → s'.ofiles (p, i) = none
  | [], s, h => by
    refine ⟨s, rfl, h, rfl, fun i hi => ?_⟩
    rcases hi with hi | hi
    · exact absurd hi not_mem_nil
    · exact hi
  | i :: is, s, h => by
    unfold closeFds
    cases hx : s.ofiles (p, i) with
    | none =>
      obtain ⟨s', hs', hinv, hlive, hnone⟩ := closeFds_ok is s h
      refine ⟨s', hs', hinv, hlive, fun j hj => hnone j ?_⟩
      rcases hj with hj | hj
      · rcases mem_cons.mp hj with rfl | hj
        · exact Or.inr hx
        · exact Or.inl hj
      · exact Or.inr hj
    | some f =>
      obtain ⟨s1, hs1, hinv1, hof, hlive1⟩ := detach h hx
      obtain ⟨s', hs', hinv, hlive, hnone⟩ := closeFds_ok is (setFd s1 (p, i) none) hinv1
      dsimp only
      rw [hs1, bind_some]
      refine ⟨s', hs', hinv, hlive.trans hlive1, fun j hj => hnone j ?_⟩
      have hupd : (setFd s1 (p, i) none).ofiles = update s.ofiles (p, i) none := by
        rw [← hof]
        rfl
      rw [hupd]
      by_cases hji : j = i
      · rw [hji, update_self]
        exact Or.inr rfl
      · rw [update_of_ne (fun he => hji (Prod.mk.inj he).2)]
        rcases hj with hj | hj
        · rcases mem_cons.mp hj with rfl | hj
          · exact absurd rfl hji
          · exact Or.inl hj
        · exact Or.inr hj

theorem exit_ok (h : Inv s idle) (p : P) : ∃ s', exit s p = some s' ∧ Inv s' idle := by
  obtain ⟨s1, hs1, hinv, -, hclosed⟩ := closeFds_ok (p := p) (List.range nofile) s h
  have hnone : ∀ i, s1.ofiles (p, i) = none := by
    intro i
    by_cases hi : i < nofile
    · exact hclosed i (Or.inl (mem_range.mpr hi))
    · cases hx : s1.ofiles (p, i) with
      | none => rfl
      | some f => exact absurd (mem_places.mp (hinv.inside _ _ hx)).2 hi
  have hplaces : (s1.live.erase p) ×ˢ Finset.range nofile = places s1 \ {p} ×ˢ Finset.range nofile := by
    ext ⟨q, i⟩
    simp only [places, Finset.mem_product, Finset.mem_erase, Finset.mem_sdiff, Finset.mem_singleton]
    tauto
  refine ⟨{ s1 with live := s1.live.erase p }, by unfold exit; rw [hs1]; rfl, fun g => ?_, hinv.blank,
    fun x g hx => ?_, hinv.books.congr (fun _ => rfl) rfl rfl rfl rfl rfl⟩
  · show _ = holders ((s1.live.erase p) ×ˢ Finset.range nofile) s1.ofiles g + idle g
    rw [hplaces, holders_sdiff]
    · exact hinv.count g
    · rintro ⟨q, i⟩ hq
      rw [Finset.mem_product, Finset.mem_singleton] at hq
      rw [show q = p from hq.1]
      exact hnone i
  · obtain ⟨q, i⟩ := x
    obtain ⟨hq, hi⟩ := mem_places.mp (hinv.inside (q, i) g hx)
    refine mem_places.mpr ⟨Finset.mem_erase.mpr ⟨?_, hq⟩, hi⟩
    rintro rfl
    have hx' : s1.ofiles (q, i) = some g := hx
    rw [hnone i] at hx'
    cases hx'

/-! ### Runs -/

/-- A call that can be made: by a process that is alive, and `pipe2` only with two free slots. -/
def Possible (s : Sys P) : Call P → Prop
  | .openat p _ _ _ => p ∈ s.live
  | .dup p _ => p ∈ s.live
  | .close p fd => p ∈ s.live ∧ fd < nofile
  | .pipe2 p data => p ∈ s.live ∧ pipeAllocFiles s data ≠ none
  | .fork p c => p ∈ s.live ∧ c ∉ s.live
  | .exit p => p ∈ s.live

/-- **A call that can be made returns**, and keeps the invariant. -/
theorem call_ok (h : Inv s idle) (hc : Possible s c) : ∃ s', step s c = some s' ∧ Inv s' idle := by
  unfold step
  unfold Possible at hc
  cases c with
  | openat p ip wronly rdwr =>
    dsimp only
    rw [if_pos hc]
    exact openat_ok h hc ip wronly rdwr
  | dup p fd =>
    dsimp only
    rw [if_pos hc]
    exact dup_ok h hc fd
  | close p fd =>
    dsimp only
    rw [if_pos hc]
    exact close_ok h p fd
  | pipe2 p data =>
    dsimp only
    rw [if_pos hc.1]
    exact (pipe2_ok h hc.1 data).resolve_left hc.2
  | fork p c =>
    dsimp only
    rw [if_pos hc]
    exact fork_ok h hc.2 p
  | exit p =>
    dsimp only
    rw [if_pos hc]
    exact exit_ok h p

theorem possible_of_step (hs : step s c = some s') : Possible s c := by
  unfold step at hs
  cases c with
  | pipe2 p data =>
    dsimp only at hs
    split_ifs at hs with hp
    refine ⟨hp, fun hnone => ?_⟩
    unfold pipe2 at hs
    rw [hnone] at hs
    cases hs
  | openat p ip wronly rdwr =>
    dsimp only at hs
    split_ifs at hs with hp
    exact hp
  | dup p fd =>
    dsimp only at hs
    split_ifs at hs with hp
    exact hp
  | close p fd =>
    dsimp only at hs
    split_ifs at hs with hp
    exact hp
  | fork p c =>
    dsimp only at hs
    split_ifs at hs with hp
    exact hp
  | exit p =>
    dsimp only at hs
    split_ifs at hs with hp
    exact hp

theorem inv_step (h : Inv s idle) (hs : step s c = some s') : Inv s' idle := by
  obtain ⟨s1, hs1, hinv⟩ := call_ok h (possible_of_step hs)
  cases hs1.symm.trans hs
  exact hinv

omit [DecidableEq P] in
theorem inv_init (live : Finset P) (pipes : ℕ → Pipe) : Inv (init live pipes) idle := by
  refine ⟨fun f => ?_, fun f => iff_of_true rfl rfl, fun x f hx => (some_ne_none f hx.symm).elim, ?_⟩
  · have hnone : refs (init live pipes) f = 0 := by
      by_contra hne
      obtain ⟨x, -, hx⟩ := exists_of_holders_pos (Nat.pos_of_ne_zero hne)
      cases hx
    rw [hnone]
    rfl
  · constructor <;> simp [init, object]

omit [DecidableEq P] in
theorem referenced_iff (h : Inv s idle) (x : Object) : Referenced s x ↔ ∃ f, object s f = some x := by
  constructor
  · rintro ⟨y, f, -, hf⟩
    exact ⟨f, hf⟩
  · rintro ⟨f, hf⟩
    have hne : (s.files f).ref ≠ 0 := by
      intro h0
      rw [object_blank h h0] at hf
      cases hf
    have hc := h.count f
    unfold idle at hc
    obtain ⟨y, -, hy⟩ := exists_of_holders_pos (f := f) (S := places s) (g := s.ofiles) (by unfold refs at hc; omega)
    exact ⟨y, f, hy, hf⟩

/-- **The counts of open files are exact**, after any calls: the count of a slot is the number of descriptors
that refer to it, all of them of live processes; a slot with count zero has none; `file_close` has closed an
object that was opened once if it has no descriptor, and not at all if it has one; and a pipe has been freed,
once, exactly if neither of its ends has a descriptor. -/
theorem open_files_exact (live : Finset P) (pipes : ℕ → Pipe) {cs : List (Call P)}
    (h : Run step (fun _ _ => True) (init live pipes) cs s) :
    (∀ f, (s.files f).ref = refs s f) ∧ (∀ x f, s.ofiles x = some f → x ∈ places s) ∧
    (∀ f, (s.files f).ref = 0 → ∀ x, s.ofiles x ≠ some f) ∧
    (∀ x ∈ s.opened, (Referenced s x → s.closed.count x = 0) ∧ (¬ Referenced s x → s.closed.count x = 1)) ∧
    (∀ x ∈ s.closed, x ∈ s.opened) ∧
    (∀ pi < s.made, pi ∈ s.freed ↔ ∀ w, ¬ Referenced s (.pipeEnd pi w)) ∧ s.freed.Nodup := by
  have hinv : Inv s idle := h.inv (fun _ _ _ hs _ hstep => inv_step hs hstep) (inv_init live pipes)
  have hbooks := hinv.books
  -- an object that was opened is closed exactly if it is in no slot
  have hclosed : ∀ x ∈ s.opened, x ∈ s.closed ↔ ¬ Referenced s x := by
    intro x hx
    rw [referenced_iff hinv]
    constructor
    · rintro hc ⟨f, hf⟩
      exact (hbooks.known f x hf).2 hc
    · intro hno
      exact (hbooks.all x hx).resolve_right hno
  refine ⟨hinv.count, hinv.inside, fun f h0 x hx => ?_, fun x hx => ⟨fun hr => ?_, fun hr => ?_⟩, hbooks.sub,
    fun pi hpi => ?_, hbooks.freedOnce⟩
  · have hpos := ref_pos hinv hx
    omega
  · exact count_eq_zero_of_not_mem fun hc => (hclosed x hx).mp hc hr
  · exact count_eq_one_of_mem hbooks.nodup ((hclosed x hx).mpr hr)
  · have hopened : ∀ w, .pipeEnd pi w ∈ s.opened := fun w => (hbooks.made pi w).mpr hpi
    rw [hbooks.freed, hclosed _ (hopened false), hclosed _ (hopened true)]
    constructor
    · rintro ⟨h1, h2⟩ w
      cases w
      · exact h1
      · exact h2
    · intro hno
      exact ⟨hno false, hno true⟩

/-- A process opens a file and a pipe, forks and exits; its child closes the write end. The file still has its
descriptor, the pipe one for its read end. -/
theorem open_files_exact_afterFork : ∃ s : Sys Bool, (s.files 0).ref = 1 ∧ (s.files 1).ref = 1 ∧
    (s.files 2).ref = 0 ∧ s.closed = [.pipeEnd 0 true] ∧ refs s 0 = 1 ∧ 0 ∉ s.freed := by
  let cs : List (Call Bool) := [.openat true (some 7) false false, .pipe2 true (fun _ => 0), .fork true false,
    .exit true, .close false 2]
  let start : Sys Bool := init {true} fun _ => pipeAlloc fun _ => 0
  obtain ⟨s, hs⟩ := isSome_iff_exists.mp
    (by decide +kernel : (exec step (fun _ _ => true) start cs).isSome = true)
  have hrun : Run step (fun _ _ => True) start cs s := run_of_exec (fun _ _ _ => trivial) hs
  have hfacts : (exec step (fun _ _ => true) start cs).map
      (fun s => ((s.files 0).ref, (s.files 1).ref, (s.files 2).ref, s.closed, s.freed)) =
      some (1, 1, 0, [.pipeEnd 0 true], []) := by decide +kernel
  rw [hs, map_some, some.injEq, Prod.mk.injEq, Prod.mk.injEq, Prod.mk.injEq, Prod.mk.injEq] at hfacts
  obtain ⟨h0, h1, h2, hclosed, hfreed⟩ := hfacts
  refine ⟨s, h0, h1, h2, hclosed, ?_, by rw [hfreed]; exact not_mem_nil⟩
  rw [← (open_files_exact _ _ hrun).1 0]
  exact h0

end OsHonor.Fs.OpenFiles.Counts
