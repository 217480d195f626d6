import OsHonor.Vm.Accounts

/-! # The memory of a child (`fork`, `wait`, `proc/proc.c`)

`fork` takes the memory of a child: the process structure, the root of its page table, its kernel stack, its
regions, and what `copy_vmspace` needs. `exit` gives none of it back, `wait` does. The state is a machine, the
addresses that `kalloc` is going to return, and two lists of events: the calls of `kalloc_page` and
`kfree_page`, and those of `kalloc` and `kfree`.

`free_page_table` frees the page of the root twice, and `destroy_vmspace` frees the `struct vmspace`, which is a
part of the process structure. So neither list is balanced, whatever the parent is (`not_conserved`). -/

namespace OsHonor.Processes.Lifetime

open Option Base.Ledger Vm.Regions Vm.PageTables.Code Vm.Accounts

/-- The offset of `vmspace` in `struct proc`. -/
def vmspaceOffset : ℕ := 176

/-- A process: its address, its kernel stack, its address space, and the addresses of its regions. -/
structure Child where
  proc : ℕ
  kstack : ℕ
  vmspace : Vmspace
  regionObjects : List ℕ

/-- `init_proc`: the root of the table and the kernel stack, both filled with zeros. -/
def initProc (s : State) : Option ((ℕ × ℕ) × State) := do
  let (pgtbl, m) ← initVmspace s.mach
  let s := s.onMach m
  let (kstack, m) ← kallocPage s.mach
  some ((pgtbl, kstack), s.onMach (memsetZero m kstack))

/-- `copy_vmspace` to a new process, whose table is at `dst` and which has no regions. -/
def copyVmspace (base : ℕ) (share : Bool) (s : State) (parent : Vmspace) (dst : ℕ) :
    Option ((Vmspace × List ℕ) × State) := do
  let vmregions := copyVmregions parent.vmregions
  let (objects, s) ← s.kallocs vmregions.length
  let s := s.onMach (freePageTable base s.mach dst)
  let (pgtbl, m) ← kallocPage s.mach
  let s := s.onMach m
  let m ← copyRegions base share parent.pgtbl pgtbl (inOrder parent.vmregions) s.mach
  some ((⟨pgtbl, vmregions⟩, objects), s.onMach m)

/-- `fork`; `share` is false if it is compiled with `FORK_COPY`. -/
def fork (base : ℕ) (share : Bool) (s : State) (parent : Vmspace) : Option (Child × State) := do
  let (proc, s) ← s.kalloc
  let ((dst, kstack), s) ← initProc s
  let ((vmspace, objects), s) ← copyVmspace base share s parent dst
  some (⟨proc, kstack, vmspace, objects⟩, s)

/-- `wait`, once it has the zombie. -/
def wait (base : ℕ) (s : State) (c : Child) : Option State := do
  let s := s.onMach (kfreePage s.mach c.kstack)
  let s ← destroyVmspace base s (c.proc + vmspaceOffset) c.vmspace c.regionObjects
  some (s.kfree c.proc)

/-- A `fork`, the `exit` of the child, which gives back no memory, and the `wait`. -/
def lifetime (base : ℕ) (share : Bool) (m : Machine) (heap : List ℕ) (parent : Vmspace) : Option State := do
  let (c, s) ← fork base share ⟨m, heap, [], []⟩ parent
  wait base s c

/-- **The memory is conserved**: every page and every object that is taken is given back once, nothing else is,
and as many pages are freed as were allocated. -/
def Conserved (base : ℕ) (share : Bool) (m : Machine) (heap : List ℕ) (parent : Vmspace) : Prop :=
  ∃ s, lifetime base share m heap parent = some s ∧ Balanced s.pages ∧ Balanced s.objects ∧
    (takes s.pages).length = (gives s.pages).length

/-! ### The events -/

variable {base : ℕ} {share : Bool} {s s' : State}

theorem fork_objects {parent : Vmspace} {c : Child} (h : fork base share s parent = some (c, s')) :
    s'.objects = s.objects ++ .take c.proc :: c.regionObjects.map .take := by
  obtain ⟨⟨proc, s₁⟩, h₁, h⟩ := bind_eq_some_iff.mp h
  obtain ⟨⟨⟨dst, kstack⟩, s₂⟩, h₂, h⟩ := bind_eq_some_iff.mp h
  obtain ⟨⟨⟨v, objects⟩, s₃⟩, h₃, h⟩ := bind_eq_some_iff.mp h
  cases h
  have ho₂ : s₂.objects = s₁.objects := by
    obtain ⟨⟨pgtbl, m⟩, -, h₂⟩ := bind_eq_some_iff.mp h₂
    obtain ⟨⟨q, m'⟩, -, h₂⟩ := bind_eq_some_iff.mp h₂
    cases h₂
    rfl
  have ho₃ : s'.objects = s₂.objects ++ objects.map .take := by
    obtain ⟨⟨l, s₄⟩, h₄, h₃⟩ := bind_eq_some_iff.mp h₃
    obtain ⟨⟨pgtbl, m⟩, -, h₃⟩ := bind_eq_some_iff.mp h₃
    obtain ⟨m', -, h₃⟩ := bind_eq_some_iff.mp h₃
    cases h₃
    simp only [State.onMach_objects]
    exact (kallocs_eq h₄).2
  rw [ho₃, ho₂, (kalloc_eq h₁).2]
  simp

theorem wait_events {c : Child} (h : wait base s c = some s') :
    s'.objects = s.objects ++ c.regionObjects.map .give ++ [.give (c.proc + vmspaceOffset)] ++ [.give c.proc] ∧
    ∃ (es : List (Event ℕ)) (L : List ℕ), s'.pages = es ++ L.map .give ∧ 2 ≤ L.count c.vmspace.pgtbl := by
  obtain ⟨s₁, h₁, h⟩ := bind_eq_some_iff.mp h
  obtain rfl := some.inj h
  obtain ⟨ho, hp⟩ := destroyVmspace_events h₁
  refine ⟨?_, hp⟩
  rw [State.kfree, ho, State.onMach_objects]

theorem not_balanced {m : Machine} {heap : List ℕ} {parent : Vmspace}
    (hs : lifetime base share m heap parent = some s) : ¬ Balanced s.pages ∧ ¬ Balanced s.objects := by
  obtain ⟨⟨c, s₁⟩, hfork, hwait⟩ := bind_eq_some_iff.mp hs
  obtain ⟨ho, es, L, hp, hcount⟩ := wait_events hwait
  constructor
  · -- the last events give the page of the root twice
    rw [hp]
    exact fun hb => not_proper_of_root_twice hcount hb.proper
  · -- of all that was taken only the process structure is left when `kfree` is called inside of it
    intro hb
    rw [ho, fork_objects hfork, List.append_assoc] at hb
    have := hb.proper.count_gives_lt
    simp only [List.nil_append, List.cons_append, takes, gives, takes_append, gives_append, takes_map_take,
      takes_map_give, gives_map_take, gives_map_give, List.append_nil, List.count_cons] at this
    rw [if_neg (by simp [vmspaceOffset])] at this
    omega

/-- **No child's memory is conserved**: neither its pages nor its objects are given back as they were taken. -/
theorem not_conserved (base : ℕ) (share : Bool) (m : Machine) (heap : List ℕ) (parent : Vmspace) :
    ¬ Conserved base share m heap parent ∧
    ¬ ∃ s, lifetime base share m heap parent = some s ∧ (Balanced s.pages ∨ Balanced s.objects) := by
  refine ⟨fun ⟨s, hs, hpages, _⟩ => (not_balanced hs).1 hpages, fun ⟨s, hs, hb⟩ => ?_⟩
  rcases hb with hpages | hobjects
  · exact (not_balanced hs).1 hpages
  · exact (not_balanced hs).2 hobjects

def emptyParent : Vmspace := ⟨1, [⟨vmrHeap, 0#64, 4096#64, initMmapInfo⟩]⟩

def threePages : Machine :=
  ⟨fun _ _ => 0#64, fun _ => 0, [(2, fun _ => 0#64), (3, fun _ => 0#64), (4, fun _ => 0#64)], []⟩

/-- The pages 2 and 4, the roots of the child, are freed twice, and `kfree` gets the address 1176 inside of the
process structure at 1000. -/
theorem lifetime_emptyParent : ∃ s, lifetime 0 true threePages [1000, 5000] emptyParent = some s ∧
    s.pages = [.take 2, .take 3, .give 2, .give 2, .take 4, .give 3, .give 4, .give 4] ∧
    s.objects = [.take 1000, .take 5000, .give 5000, .give 1176, .give 1000] ∧
    ¬ Conserved 0 true threePages [1000, 5000] emptyParent := by
  have htest : (lifetime 0 true threePages [1000, 5000] emptyParent).any (fun s =>
      s.pages = [.take 2, .take 3, .give 2, .give 2, .take 4, .give 3, .give 4, .give 4] ∧
      s.objects = [.take 1000, .take 5000, .give 5000, .give 1176, .give 1000]) = true := by decide +kernel
  obtain ⟨s, hs, hp⟩ := (any_eq_true _ _).mp htest
  obtain ⟨hpages, hobjects⟩ := of_decide_eq_true hp
  refine ⟨s, hs, hpages, hobjects, ?_⟩
  rintro ⟨s', hs', hb, -⟩
  obtain rfl := some.inj (hs.symm.trans hs')
  exact (not_balanced hs).1 hb

end OsHonor.Processes.Lifetime
