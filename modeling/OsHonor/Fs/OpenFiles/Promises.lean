import OsHonor.Base.Holders
import OsHonor.Fs.OpenFiles.Code

/-! # What the file table promises

A call may hold a reference of its own, one that no descriptor holds: between `file_alloc` and `fdalloc`, or
between the clearing of a descriptor and `file_close`. The invariant `Inv s e` has such references as the
count `e`, which is zero between calls. `Books` says what becomes of the objects that are opened: each is in
one slot, or has been closed once.

* `Inv.setFd`, `Inv.fileDup`, `Inv.fileClose`: each moves the count `e` by one;
* `Books.openInode`, `Books.openPipe`, `Books.closeInode`, `Books.closePipe`: what a slot that is opened or
  given up does to the books. -/

namespace OsHonor.Fs.OpenFiles.Promises

open Option List Function Base.Holders Code
open Pipes (Pipe pipeAlloc pipeClose)

variable {P : Type}

def places (s : Sys P) : Finset (P × ℕ) := s.live ×ˢ Finset.range nofile

/-- **The number of descriptors** that refer to a slot. -/
def refs (s : Sys P) (f : ℕ) : ℕ := holders (places s) s.ofiles f

def object (s : Sys P) (f : ℕ) : Option Object :=
  match (s.files f).type with
  | .none => none
  | .pipe => some (.pipeEnd (s.files f).ptr (s.files f).writable)
  | .inode => some (.inode (s.serial f) (s.files f).ptr)

def Referenced (s : Sys P) (x : Object) : Prop := ∃ y f, s.ofiles y = some f ∧ object s f = some x

/-- The books of the objects: each is open in one slot, or has been closed once. -/
structure Books (s : Sys P) : Prop where
  known : ∀ f x, object s f = some x → x ∈ s.opened ∧ x ∉ s.closed
  inj : ∀ f f' x, object s f = some x → object s f' = some x → f = f'
  all : ∀ x ∈ s.opened, x ∈ s.closed ∨ ∃ f, object s f = some x
  sub : ∀ x ∈ s.closed, x ∈ s.opened
  nodup : s.closed.Nodup
  numbered : ∀ n ip, .inode n ip ∈ s.opened → n < s.opened.length
  made : ∀ pi w, .pipeEnd pi w ∈ s.opened ↔ pi < s.made
  readopen : ∀ pi < s.made, (s.pipes pi).readopen = false ↔ .pipeEnd pi false ∈ s.closed
  writeopen : ∀ pi < s.made, (s.pipes pi).writeopen = false ↔ .pipeEnd pi true ∈ s.closed
  freed : ∀ pi, pi ∈ s.freed ↔ .pipeEnd pi false ∈ s.closed ∧ .pipeEnd pi true ∈ s.closed
  freedOnce : s.freed.Nodup

/-- **The invariant**, with the references `e` that the call in progress holds. -/
structure Inv (s : Sys P) (e : ℕ → ℕ) : Prop where
  count : ∀ f, (s.files f).ref = refs s f + e f
  blank : ∀ f, (s.files f).ref = 0 ↔ (s.files f).type = .none
  inside : ∀ x f, s.ofiles x = some f → x ∈ places s
  books : Books s

/-! ### Searching -/

theorem findFrom_spec {q : ℕ → Bool} : ∀ {k i j : ℕ}, findFrom q k i = some j → j < i + k ∧ q j = true
  | 0, i, j, h => by cases h
  | k + 1, i, j, h => by
    unfold findFrom at h
    split_ifs at h with hq
    · cases h
      exact ⟨by omega, hq⟩
    · obtain ⟨hlt, hj⟩ := findFrom_spec h
      exact ⟨by omega, hj⟩

theorem mem_places {s : Sys P} {p : P} {i : ℕ} : (p, i) ∈ places s ↔ p ∈ s.live ∧ i < nofile := by
  unfold places
  rw [Finset.mem_product, Finset.mem_range]

section Tables

variable {s s' : Sys P} {e e' : ℕ → ℕ} {p : P} {f : ℕ}

theorem fileAlloc_spec (h : fileAlloc s = some (f, s')) :
    (s.files f).ref = 0 ∧ s' = setFile s f { s.files f with ref := 1 } := by
  obtain ⟨g, hg, he⟩ := map_eq_some_iff.mp h
  cases he
  exact ⟨of_decide_eq_true (findFrom_spec hg).2, rfl⟩

theorem fdalloc_spec [DecidableEq P] {i : ℕ} (h : fdalloc s p f = some (i, s')) :
    i < nofile ∧ s.ofiles (p, i) = none ∧ s' = setFd s (p, i) (some f) := by
  obtain ⟨j, hj, he⟩ := map_eq_some_iff.mp h
  cases he
  obtain ⟨hlt, hq⟩ := findFrom_spec hj
  exact ⟨by omega, isNone_iff_eq_none.mp hq, rfl⟩

theorem fdalloc_none [DecidableEq P] {f' : ℕ} (h : fdalloc s p f = none) : fdalloc s p f' = none := by
  unfold fdalloc at h ⊢
  rw [map_eq_none_iff] at h ⊢
  exact h

/-! ### The books -/

theorem Books.congr (h : Books s) (hobj : ∀ f, object s' f = object s f) (hpipes : s'.pipes = s.pipes)
    (hmade : s'.made = s.made) (hopened : s'.opened = s.opened) (hclosed : s'.closed = s.closed)
    (hfreed : s'.freed = s.freed) : Books s' := by
  constructor <;> simp only [hobj, hpipes, hmade, hopened, hclosed, hfreed]
  · exact h.known
  · exact h.inj
  · exact h.all
  · exact h.sub
  · exact h.nodup
  · exact h.numbered
  · exact h.made
  · exact h.readopen
  · exact h.writeopen
  · exact h.freed
  · exact h.freedOnce

/-- **A slot is given up**: its object is closed, and if that is an end of a pipe, the pipe knows. -/
theorem Books.close {x : Object} (h : Books s) (hx : object s f = some x) (hf : object s' f = none)
    (hobj : ∀ g, g ≠ f → object s' g = object s g) (hmade : s'.made = s.made) (hopened : s'.opened = s.opened)
    (hclosed : s'.closed = s.closed ++ [x])
    (hread : ∀ pi < s.made, (s'.pipes pi).readopen = false ↔ (s.pipes pi).readopen = false ∨ x = .pipeEnd pi false)
    (hwrite : ∀ pi < s.made, (s'.pipes pi).writeopen = false ↔ (s.pipes pi).writeopen = false ∨ x = .pipeEnd pi true)
    (hfreed : ∀ pi, pi ∈ s'.freed ↔ .pipeEnd pi false ∈ s'.closed ∧ .pipeEnd pi true ∈ s'.closed)
    (honce : s'.freed.Nodup) : Books s' := by
  obtain ⟨hxo, hxc⟩ := h.known f x hx
  have hkeep : ∀ g y, object s' g = some y → g ≠ f ∧ object s g = some y := by
    intro g y hy
    have hne : g ≠ f := by
      rintro rfl
      rw [hf] at hy
      cases hy
    exact ⟨hne, (hobj g hne).symm.trans hy⟩
  have hmem : ∀ y, y ∈ s'.closed ↔ y ∈ s.closed ∨ x = y := by
    intro y
    rw [hclosed, mem_append, mem_singleton, eq_comm]
  refine ⟨?_, ?_, ?_, ?_, ?_, ?_, ?_, ?_, ?_, hfreed, honce⟩
  · intro g y hy
    obtain ⟨hne, hold⟩ := hkeep g y hy
    obtain ⟨hyo, hyc⟩ := h.known g y hold
    rw [hopened, hmem]
    refine ⟨hyo, ?_⟩
    rintro (hc | rfl)
    · exact hyc hc
    · exact hne (h.inj g f _ hold hx)
  · intro g g' y hy hy'
    exact h.inj g g' y (hkeep g y hy).2 (hkeep g' y hy').2
  · intro y hy
    rw [hopened] at hy
    rw [hmem]
    rcases h.all y hy with hc | ⟨g, hg⟩
    · exact Or.inl (Or.inl hc)
    · by_cases hgf : g = f
      · subst hgf
        exact Or.inl (Or.inr (some.inj (hx.symm.trans hg)))
      · exact Or.inr ⟨g, (hobj g hgf).trans hg⟩
  · intro y hy
    rw [hopened]
    rcases (hmem y).mp hy with hc | rfl
    · exact h.sub y hc
    · exact hxo
  · rw [hclosed, nodup_append]
    refine ⟨h.nodup, nodup_singleton x, fun a ha b hb => ?_⟩
    rw [mem_singleton.mp hb]
    rintro rfl
    exact hxc ha
  · rw [hopened]
    exact h.numbered
  · rw [hopened, hmade]
    exact h.made
  · intro pi hpi
    rw [hmade] at hpi
    rw [hread pi hpi, hmem, h.readopen pi hpi]
  · intro pi hpi
    rw [hmade] at hpi
    rw [hwrite pi hpi, hmem, h.writeopen pi hpi]

/-! ### What a function does to the counts -/

theorem Inv.setFd [DecidableEq P] (h : Inv s e) {x : P × ℕ} {v : Option ℕ} (hx : x ∈ places s)
    (he : ∀ g, e' g + (if v = some g then 1 else 0) = e g + if s.ofiles x = some g then 1 else 0) :
    Inv (setFd s x v) e' := by
  refine ⟨fun g => ?_, h.blank, fun y g hy => ?_, h.books.congr (fun _ => rfl) rfl rfl rfl rfl rfl⟩
  · have hupd := holders_update (g := s.ofiles) hx v g
    have hc := h.count g
    have he := he g
    unfold refs at hc
    show (s.files g).ref = holders (places s) (update s.ofiles x v) g + e' g
    omega
  · by_cases hyx : y = x
    · rw [hyx]
      exact hx
    · refine h.inside y g ?_
      rw [← hy]
      exact (update_of_ne hyx v s.ofiles).symm

theorem Inv.retable (h : Inv s e) (hofiles : s'.ofiles = s.ofiles) (hlive : s'.live = s.live)
    (hbooks : Books s') (hcount : ∀ g, (s'.files g).ref + e g = (s.files g).ref + e' g)
    (hblank : ∀ g, (s'.files g).ref = 0 ↔ (s'.files g).type = .none) : Inv s' e' := by
  have hplaces : places s' = places s := by
    unfold places
    rw [hlive]
  refine ⟨fun g => ?_, hblank, fun x g hx => ?_, hbooks⟩
  · have hc := h.count g
    have hg := hcount g
    unfold refs at hc ⊢
    rw [hplaces, hofiles]
    omega
  · rw [hplaces]
    rw [hofiles] at hx
    exact h.inside x g hx

theorem files_setFile (s : Sys P) (f g : ℕ) (x : File) :
    (setFile s f x).files g = if g = f then x else s.files g := by
  unfold setFile
  exact update_apply ..

theorem Inv.setRef (h : Inv s e) {r : ℕ} (hpos : 0 < (s.files f).ref) (hr : 0 < r)
    (hf : r + e f = (s.files f).ref + e' f) (he : ∀ g, g ≠ f → e' g = e g) :
    Inv (setFile s f { s.files f with ref := r }) e' := by
  refine h.retable rfl rfl (h.books.congr (fun g => ?_) rfl rfl rfl rfl rfl) (fun g => ?_) fun g => ?_
  · unfold object
    rw [files_setFile]
    split_ifs with hg
    · rw [hg]
      rfl
    · rfl
  · rw [files_setFile]
    split_ifs with hg
    · rw [hg]
      exact hf
    · rw [he g hg]
  · have hb := h.blank g
    rw [files_setFile]
    split_ifs with hg
    · subst hg
      show r = 0 ↔ (s.files g).type = .none
      rw [← hb]
      omega
    · exact hb

theorem Inv.fileDup (h : Inv s e) (hpos : 0 < (s.files f).ref) (hf : e' f = e f + 1)
    (he : ∀ g, g ≠ f → e' g = e g) :
    ∃ s', fileDup s f = some s' ∧ Inv s' e' ∧ s'.ofiles = s.ofiles ∧ s'.live = s.live := by
  unfold Code.fileDup
  rw [if_neg (by omega)]
  exact ⟨_, rfl, h.setRef hpos (by omega) (by omega) he, rfl, rfl⟩

/-! ### Closing -/

theorem pipeClose_readopen (pi : Pipe) (w : Bool) :
    (pipeClose pi w).1.readopen = false ↔ pi.readopen = false ∨ w = false := by
  unfold pipeClose
  cases w <;> simp

theorem pipeClose_writeopen (pi : Pipe) (w : Bool) :
    (pipeClose pi w).1.writeopen = false ↔ pi.writeopen = false ∨ w = true := by
  unfold pipeClose
  cases w <;> simp

theorem pipeClose_freed (pi : Pipe) (w : Bool) :
    (pipeClose pi w).2 = true ↔ (pipeClose pi w).1.readopen = false ∧ (pipeClose pi w).1.writeopen = false := by
  unfold pipeClose
  exact decide_eq_true_iff

theorem Books.closeInode (h : Books s) (ht : (s.files f).type = .inode) :
    Books { setFile s f { s.files f with ref := 0, type := .none } with
      closed := s.closed ++ [.inode (s.serial f) (s.files f).ptr] } := by
  have hx : object s f = some (.inode (s.serial f) (s.files f).ptr) := by
    unfold object
    rw [ht]
  refine h.close hx ?_ (fun g hg => ?_) rfl rfl rfl ?_ ?_ (fun pi => ?_) h.freedOnce
  · unfold object
    dsimp only
    rw [files_setFile, if_pos rfl]
  · unfold object
    dsimp only
    rw [files_setFile, if_neg hg]
    rfl
  · intro pi _
    simp [setFile]
  · intro pi _
    simp [setFile]
  · simpa [setFile] using h.freed pi

theorem Books.closePipe (h : Books s) (ht : (s.files f).type = .pipe) {r : Pipe × Bool}
    (hr : r = pipeClose (s.pipes (s.files f).ptr) (s.files f).writable) :
    Books { setFile s f { s.files f with ref := 0, type := .none } with
      pipes := update s.pipes (s.files f).ptr r.1
      closed := s.closed ++ [.pipeEnd (s.files f).ptr (s.files f).writable]
      freed := if r.2 then s.freed ++ [(s.files f).ptr] else s.freed } := by
  have hx : object s f = some (.pipeEnd (s.files f).ptr (s.files f).writable) := by
    unfold object
    rw [ht]
  obtain ⟨hxo, hxc⟩ := h.known _ _ hx
  generalize (s.files f).ptr = q at *
  generalize (s.files f).writable = w at *
  have hq : q < s.made := (h.made q w).mp hxo
  have hread : ∀ pi < s.made, (update s.pipes q r.1 pi).readopen = false ↔
      (s.pipes pi).readopen = false ∨ Object.pipeEnd q w = .pipeEnd pi false := by
    intro pi _
    by_cases hpi : pi = q
    · subst hpi
      rw [update_self, hr, pipeClose_readopen]
      simp
    · rw [update_of_ne hpi]
      simp [Ne.symm hpi]
  have hwrite : ∀ pi < s.made, (update s.pipes q r.1 pi).writeopen = false ↔
      (s.pipes pi).writeopen = false ∨ Object.pipeEnd q w = .pipeEnd pi true := by
    intro pi _
    by_cases hpi : pi = q
    · subst hpi
      rw [update_self, hr, pipeClose_writeopen]
      simp
    · rw [update_of_ne hpi]
      simp [Ne.symm hpi]
  have hmem : ∀ y, y ∈ s.closed ++ [.pipeEnd q w] ↔ y ∈ s.closed ∨ Object.pipeEnd q w = y := by
    intro y
    rw [mem_append, mem_singleton, eq_comm]
  -- the second end is being closed exactly if both ends then are
  have hboth : r.2 = true ↔ .pipeEnd q false ∈ s.closed ++ [.pipeEnd q w] ∧
      .pipeEnd q true ∈ s.closed ++ [.pipeEnd q w] := by
    have h1 := hread q hq
    have h2 := hwrite q hq
    rw [update_self, h.readopen q hq] at h1
    rw [update_self, h.writeopen q hq] at h2
    rw [hr] at h1 h2 ⊢
    rw [pipeClose_freed, h1, h2, hmem, hmem]
  have hnot : q ∉ s.freed := by
    intro hf
    obtain ⟨h1, h2⟩ := (h.freed q).mp hf
    cases w
    · exact hxc h1
    · exact hxc h2
  refine h.close hx ?_ (fun g hg => ?_) rfl rfl rfl hread hwrite (fun pi => ?_) ?_
  · unfold object
    dsimp only
    rw [files_setFile, if_pos rfl]
  · unfold object
    dsimp only
    rw [files_setFile, if_neg hg]
    rfl
  · show pi ∈ (if r.2 then s.freed ++ [q] else s.freed) ↔ _
    by_cases hpi : pi = q
    · subst hpi
      rw [← hboth]
      split_ifs with h2
      · simp [h2]
      · simp [h2, hnot]
    · have hold : pi ∈ (if r.2 then s.freed ++ [q] else s.freed) ↔ pi ∈ s.freed := by
        split_ifs <;> simp [hpi]
      rw [hold, h.freed pi, hmem, hmem]
      simp [Ne.symm hpi]
  · show (if r.2 then s.freed ++ [q] else s.freed).Nodup
    split_ifs
    · rw [nodup_append]
      refine ⟨h.freedOnce, nodup_singleton q, fun a ha b hb => ?_⟩
      rw [mem_singleton.mp hb]
      rintro rfl
      exact hnot ha
    · exact h.freedOnce

/-- **`file_close`** takes one reference of the call. -/
theorem Inv.fileClose (h : Inv s e) (hf : e f = e' f + 1) (he : ∀ g, g ≠ f → e' g = e g) :
    ∃ s', fileClose s f = some s' ∧ Inv s' e' ∧ s'.ofiles = s.ofiles ∧ s'.live = s.live := by
  have hc := h.count f
  unfold Code.fileClose
  dsimp only
  rw [if_neg (by omega)]
  by_cases hlt : 1 < (s.files f).ref
  · rw [if_pos hlt]
    exact ⟨_, rfl, h.setRef (by omega) (by omega) (by omega) he, rfl, rfl⟩
  · rw [if_neg hlt]
    have hone : (s.files f).ref = 1 := by omega
    have hcount : ∀ g, ((setFile s f { s.files f with ref := 0, type := .none }).files g).ref + e g =
        (s.files g).ref + e' g := by
      intro g
      rw [files_setFile]
      split_ifs with hg
      · subst hg
        show 0 + e g = _
        omega
      · rw [he g hg]
    have hblank : ∀ g, ((setFile s f { s.files f with ref := 0, type := .none }).files g).ref = 0 ↔
        ((setFile s f { s.files f with ref := 0, type := .none }).files g).type = .none := by
      intro g
      rw [files_setFile]
      split_ifs with hg
      · simp
      · exact h.blank g
    cases ht : (s.files f).type with
    | none =>
      have hzero := (h.blank f).mpr ht
      omega
    | pipe => exact ⟨_, rfl, h.retable rfl rfl (h.books.closePipe ht rfl) hcount hblank, rfl, rfl⟩
    | inode => exact ⟨_, rfl, h.retable rfl rfl (h.books.closeInode ht) hcount hblank, rfl, rfl⟩

/-! ### Opening -/

theorem Books.openInode {ip : ℕ} (h : Books s) (hf : object s f = none)
    (hobj : object s' f = some (.inode s.opened.length ip)) (hother : ∀ g, g ≠ f → object s' g = object s g)
    (hpipes : s'.pipes = s.pipes) (hmade : s'.made = s.made)
    (hopened : s'.opened = s.opened ++ [.inode s.opened.length ip]) (hclosed : s'.closed = s.closed)
    (hfreed : s'.freed = s.freed) : Books s' := by
  have hnew : ∀ y ∈ s.opened, y ≠ .inode s.opened.length ip := by
    rintro y hy rfl
    exact absurd (h.numbered _ _ hy) (Nat.lt_irrefl _)
  have hcases : ∀ g x, object s' g = some x →
      (g = f ∧ x = .inode s.opened.length ip) ∨ (g ≠ f ∧ object s g = some x) := by
    intro g x hx
    by_cases hg : g = f
    · subst hg
      rw [hobj] at hx
      exact Or.inl ⟨rfl, (some.inj hx).symm⟩
    · exact Or.inr ⟨hg, (hother g hg).symm.trans hx⟩
  refine ⟨?_, ?_, ?_, ?_, ?_, ?_, ?_, ?_, ?_, ?_, ?_⟩
  · intro g x hx
    rw [hopened, hclosed]
    rcases hcases g x hx with ⟨-, rfl⟩ | ⟨-, hold⟩
    · exact ⟨by simp, fun hc => hnew _ (h.sub _ hc) rfl⟩
    · obtain ⟨h1, h2⟩ := h.known g x hold
      exact ⟨mem_append_left _ h1, h2⟩
  · intro g g' x hx hx'
    rcases hcases g x hx with ⟨rfl, rfl⟩ | ⟨-, hold⟩
    · rcases hcases g' _ hx' with ⟨rfl, -⟩ | ⟨-, hold'⟩
      · rfl
      · exact absurd rfl (hnew _ (h.known _ _ hold').1)
    · rcases hcases g' x hx' with ⟨rfl, rfl⟩ | ⟨-, hold'⟩
      · exact absurd rfl (hnew _ (h.known _ _ hold).1)
      · exact h.inj g g' x hold hold'
  · intro x hx
    rw [hclosed]
    rw [hopened] at hx
    rcases mem_append.mp hx with hx | hx
    · rcases h.all x hx with hc | ⟨g, hg⟩
      · exact Or.inl hc
      · refine Or.inr ⟨g, (hother g ?_).trans hg⟩
        rintro rfl
        rw [hf] at hg
        cases hg
    · rw [mem_singleton.mp hx]
      exact Or.inr ⟨f, hobj⟩
  · intro x hx
    rw [hclosed] at hx
    rw [hopened]
    exact mem_append_left _ (h.sub x hx)
  · rw [hclosed]
    exact h.nodup
  · intro n ip' hn
    rw [hopened] at hn ⊢
    rw [length_append, length_singleton]
    rcases mem_append.mp hn with hn | hn
    · exact Nat.lt_succ_of_lt (h.numbered n ip' hn)
    · rw [mem_singleton] at hn
      cases hn
      exact Nat.lt_succ_self _
  · intro pi w
    rw [hopened, hmade, ← h.made pi w, mem_append, mem_singleton]
    simp
  · rw [hmade, hpipes, hclosed]
    exact h.readopen
  · rw [hmade, hpipes, hclosed]
    exact h.writeopen
  · rw [hfreed, hclosed]
    exact h.freed
  · rw [hfreed]
    exact h.freedOnce

theorem Books.openPipe {f1 : ℕ} {data : ℕ → UInt8} (h : Books s) (hf : object s f = none)
    (hf1 : object s f1 = none) (hobj : object s' f = some (.pipeEnd s.made false))
    (hobj1 : object s' f1 = some (.pipeEnd s.made true))
    (hother : ∀ g, g ≠ f → g ≠ f1 → object s' g = object s g)
    (hpipes : s'.pipes = update s.pipes s.made (pipeAlloc data)) (hmade : s'.made = s.made + 1)
    (hopened : s'.opened = s.opened ++ [.pipeEnd s.made false, .pipeEnd s.made true])
    (hclosed : s'.closed = s.closed) (hfreed : s'.freed = s.freed) : Books s' := by
  have hnew : ∀ w, .pipeEnd s.made w ∉ s.opened := fun w hw =>
    absurd ((h.made _ w).mp hw) (Nat.lt_irrefl _)
  have hnewClosed : ∀ w, .pipeEnd s.made w ∉ s.closed := fun w hw => hnew w (h.sub _ hw)
  have hmem : ∀ y, y ∈ s'.opened ↔ y ∈ s.opened ∨ ∃ w, y = .pipeEnd s.made w := by
    intro y
    rw [hopened, mem_append]
    simp
  have hcases : ∀ g x, object s' g = some x →
      (∃ w, x = .pipeEnd s.made w ∧ g = if w then f1 else f) ∨ (g ≠ f ∧ g ≠ f1 ∧ object s g = some x) := by
    intro g x hx
    by_cases hg : g = f
    · rw [hg, hobj] at hx
      exact Or.inl ⟨false, (some.inj hx).symm, hg⟩
    · by_cases hg1 : g = f1
      · rw [hg1, hobj1] at hx
        exact Or.inl ⟨true, (some.inj hx).symm, hg1⟩
      · exact Or.inr ⟨hg, hg1, (hother g hg hg1).symm.trans hx⟩
  have hpipe : ∀ pi < s.made, s'.pipes pi = s.pipes pi := by
    intro pi hpi
    rw [hpipes]
    exact update_of_ne (by omega) _ _
  refine ⟨?_, ?_, ?_, ?_, ?_, ?_, ?_, ?_, ?_, ?_, ?_⟩
  · intro g x hx
    rw [hmem, hclosed]
    rcases hcases g x hx with ⟨w, rfl, -⟩ | ⟨-, -, hold⟩
    · exact ⟨Or.inr ⟨w, rfl⟩, hnewClosed w⟩
    · obtain ⟨h1, h2⟩ := h.known g x hold
      exact ⟨Or.inl h1, h2⟩
  · intro g g' x hx hx'
    rcases hcases g x hx with ⟨w, rfl, hg⟩ | ⟨-, -, hold⟩
    · rcases hcases g' _ hx' with ⟨w', he, hg'⟩ | ⟨-, -, hold'⟩
      · cases he
        rw [hg, hg']
      · exact absurd (h.known _ _ hold').1 (hnew w)
    · rcases hcases g' x hx' with ⟨w, rfl, -⟩ | ⟨-, -, hold'⟩
      · exact absurd (h.known _ _ hold).1 (hnew w)
      · exact h.inj g g' x hold hold'
  · intro x hx
    rw [hclosed]
    rcases (hmem x).mp hx with hx | ⟨w, rfl⟩
    · rcases h.all x hx with hc | ⟨g, hg⟩
      · exact Or.inl hc
      · refine Or.inr ⟨g, (hother g ?_ ?_).trans hg⟩
        · rintro rfl
          rw [hf] at hg
          cases hg
        · rintro rfl
          rw [hf1] at hg
          cases hg
    · cases w
      · exact Or.inr ⟨f, hobj⟩
      · exact Or.inr ⟨f1, hobj1⟩
  · intro x hx
    rw [hclosed] at hx
    exact (hmem x).mpr (Or.inl (h.sub x hx))
  · rw [hclosed]
    exact h.nodup
  · intro n ip hn
    rcases (hmem _).mp hn with hn | ⟨w, hw⟩
    · rw [hopened, length_append]
      exact Nat.lt_of_lt_of_le (h.numbered n ip hn) (Nat.le_add_right _ _)
    · cases hw
  · intro pi w
    rw [hmem, h.made pi w, hmade]
    constructor
    · rintro (hlt | ⟨w', hw⟩)
      · omega
      · cases hw
        omega
    · intro hlt
      by_cases hpi : pi = s.made
      · exact Or.inr ⟨w, by rw [hpi]⟩
      · exact Or.inl (by omega)
  · intro pi hpi
    rw [hclosed]
    by_cases hlt : pi < s.made
    · rw [hpipe pi hlt]
      exact h.readopen pi hlt
    · have he : pi = s.made := by omega
      rw [he, hpipes, update_self]
      exact iff_of_false (by simp [pipeAlloc]) (hnewClosed false)
  · intro pi hpi
    rw [hclosed]
    by_cases hlt : pi < s.made
    · rw [hpipe pi hlt]
      exact h.writeopen pi hlt
    · have he : pi = s.made := by omega
      rw [he, hpipes, update_self]
      exact iff_of_false (by simp [pipeAlloc]) (hnewClosed true)
  · rw [hfreed, hclosed]
    exact h.freed
  · rw [hfreed]
    exact h.freedOnce

end Tables

end OsHonor.Fs.OpenFiles.Promises
