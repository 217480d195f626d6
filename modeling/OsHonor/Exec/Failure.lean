import OsHonor.Exec.Code
import OsHonor.Vm.PageTables.Fork

/-! # A call that fails (`execve`, `kernel/exec.c`)

All failures but one go through `bad`. There `destroy_vmspace` is called for a variable on the stack, which has not
been initialised if the file is not an executable; it frees the root of the table twice, and `kfree` gets the
address of the variable. After the segments have been loaded the inode has been given back, and it is given back
again. So a call that fails changes nothing if and only if the path names no file (`failure_iff`). -/

namespace OsHonor.Exec.Failure

open Option Base.Ledger Vm.Regions Vm.PageTables.Fork
open Vm.Accounts Code

/-- **Nothing has changed**: the regions, the translations and the saved context of the caller, the references and the
lock of the inode, and the contributors of the log are as before, and what was given back to the allocators was
taken in the call. -/
structure Unchanged (s s' : Sys) : Prop where
  space : s'.space = s.space ∧ s'.regionObjects = s.regionObjects
  table : ∀ va, translate s'.mem.mach s.space.pgtbl va = translate s.mem.mach s.space.pgtbl va
  context : s'.sp = s.sp ∧ s'.elr = s.elr
  inode : s'.rc = s.rc ∧ s'.lock = s.lock
  log : s'.contributors = s.contributors
  pages : Proper s'.mem.pages
  objects : Proper s'.mem.objects

variable {c : Call} {s s' : Sys} {im : Image} {ret : ℤ}

theorem not_unchanged_of_bad {s₀ : Sys} (h : bad c s im = some (ret, s')) : ¬ Unchanged s₀ s' := by
  obtain ⟨mem, hd, h⟩ := bind_eq_some_iff.mp h
  cases h
  obtain ⟨-, es, L, hp, hcount⟩ := destroyVmspace_events hd
  intro hu
  have hpages := hu.pages
  rw [show (Sys.closeInode { s with mem := mem }).mem.pages = mem.pages from rfl, hp] at hpages
  exact not_proper_of_root_twice hcount hpages

theorem bad_of_finish {entry : Word} (h : finish c s im entry = some (-1, s')) :
    ∃ im', bad c s im' = some (-1, s') := by
  obtain ⟨⟨ok, im₁⟩, -, h⟩ := bind_eq_some_iff.mp h
  cases ok with
  | false => exact ⟨im₁, h⟩
  | true =>
    obtain ⟨⟨ok, im₂⟩, -, h⟩ := bind_eq_some_iff.mp h
    cases ok with
    | false => exact ⟨im₂, h⟩
    | true =>
      obtain ⟨⟨ok, sp, argc, im₃⟩, -, h⟩ := bind_eq_some_iff.mp h
      cases ok with
      | false => exact ⟨im₃, h⟩
      | true =>
        obtain ⟨s₁, -, h⟩ := bind_eq_some_iff.mp h
        have hret : (argc : ℤ) = -1 := congrArg Prod.fst (some.inj h)
        omega

theorem bad_of_execve {file : List UInt8} (hf : c.file = some file) (h : execve c s = some (-1, s')) :
    ∃ s₁ im, bad c s₁ im = some (-1, s') := by
  simp only [execve, hf] at h
  split_ifs at h with hheader
  · exact ⟨_, _, h⟩
  · obtain ⟨⟨pgtbl, m⟩, -, h⟩ := bind_eq_some_iff.mp h
    obtain ⟨⟨ok, im⟩, -, h⟩ := bind_eq_some_iff.mp h
    cases ok with
    | false => exact ⟨_, im, h⟩
    | true => exact ⟨_, bad_of_finish h⟩

/-- **A call that fails changes nothing if and only if the path names no file.** -/
theorem failure_iff (hpages : s.mem.pages = []) (hobjects : s.mem.objects = [])
    (h : execve c s = some (-1, s')) : Unchanged s s' ↔ c.file = none := by
  constructor
  · intro hu
    cases hf : c.file with
    | none => rfl
    | some file =>
      obtain ⟨s₁, im, hbad⟩ := bad_of_execve hf h
      exact absurd hu (not_unchanged_of_bad hbad)
  · intro hf
    simp only [execve, hf] at h
    cases h
    refine ⟨⟨rfl, rfl⟩, fun _ => rfl, ⟨rfl, rfl⟩, ⟨rfl, rfl⟩, ?_, ?_, ?_⟩
    · simp only [Sys.endOp, Sys.beginOp]
      omega
    · simp only [Sys.endOp, Sys.beginOp, hpages]
      rfl
    · simp only [Sys.endOp, Sys.beginOp, hobjects]
      rfl

/-! ### Two calls -/

def idle : Sys where
  mem := ⟨⟨fun _ _ => 0#64, fun _ => 0, [(2, fun _ => 0#64), (3, fun _ => 0#64)], []⟩, [1000, 2000], [], []⟩
  space := ⟨1, []⟩
  regionObjects := []
  sp := 0#64
  elr := 0#64
  rc := 1
  lock := 1
  contributors := 0

/-- A call for a file, or for none. The uninitialised variable holds the root of the caller's table. -/
def callFor (file : Option (List UInt8)) : Call := ⟨0, 9, file, none, none, 500, ⟨1, []⟩, []⟩

theorem failure_missing : ∃ s', execve (callFor none) idle = some (-1, s') ∧ Unchanged idle s' := by
  have hcall : execve (callFor none) idle = some (-1, idle.beginOp.endOp) := rfl
  exact ⟨_, hcall, (failure_iff rfl rfl hcall).mpr rfl⟩

/-- An empty file: the root of the caller's own table is freed, twice, and `kfree` gets the address of `vms`. -/
theorem failure_emptyFile : ∃ s', execve (callFor (some [])) idle = some (-1, s') ∧
    s'.mem.pages = [.give 1, .give 1] ∧ s'.mem.objects = [.give 500] ∧ ¬ Unchanged idle s' := by
  have htest : (execve (callFor (some [])) idle).any (fun r =>
      r.1 = -1 ∧ r.2.mem.pages = [.give 1, .give 1] ∧ r.2.mem.objects = [.give 500]) = true := by decide +kernel
  obtain ⟨⟨ret, s'⟩, hs, hp⟩ := (any_eq_true _ _).mp htest
  obtain ⟨hret, hpages, hobjects⟩ := of_decide_eq_true hp
  dsimp only at hret hpages hobjects
  subst hret
  refine ⟨s', hs, hpages, hobjects, ?_⟩
  obtain ⟨s₁, im, hbad⟩ := bad_of_execve rfl hs
  exact not_unchanged_of_bad hbad

end OsHonor.Exec.Failure
