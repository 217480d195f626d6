import OsHonor.Base.Ledger
import OsHonor.Vm.PageTables.Loops
import OsHonor.Vm.PageTables.Teardown

/-! # What is taken from the allocators and given back

The functions of the page tables and of the regions with a record of their calls: the state is a machine, the
addresses that `kalloc` is going to return, and two lists of events, the calls of `kalloc_page` and
`kfree_page`, and those of `kalloc` and `kfree`.

`free_page_table` frees the page of the root twice, so the pages are not given back in order by anything that ends
with `destroy_vmspace` (`destroyVmspace_events`, `not_proper_of_root_twice`). -/

namespace OsHonor.Vm.Accounts

open Option List Base.Ledger Regions PageTables.Code PageTables.Loops
open PageTables.Teardown

/-- The machine, the addresses that `kalloc` is going to return, and the calls so far. -/
structure State where
  mach : Machine
  heap : List ℕ
  pages : List (Event ℕ)
  objects : List (Event ℕ)

/-- The fields of a `struct vmspace`: the root of the table, and the regions. -/
structure Vmspace where
  pgtbl : ℕ
  vmregions : List Region

namespace State

def kalloc (s : State) : Option (ℕ × State) :=
  match s.heap with
  | [] => none
  | a :: heap => some (a, { s with heap := heap, objects := s.objects ++ [.take a] })

/-- A number of calls of `kalloc`. -/
def kallocs : ℕ → State → Option (List ℕ × State)
  | 0, s => some ([], s)
  | n + 1, s => do
    let (a, s) ← s.kalloc
    let (l, s) ← kallocs n s
    some (a :: l, s)

def kfree (s : State) (a : ℕ) : State := { s with objects := s.objects ++ [.give a] }

/-- What a function has taken from the supply, and what it has freed. None of the functions below does both. -/
def pageEvents (m m' : Machine) : List (Event ℕ) :=
  ((m.supply.take (m.supply.length - m'.supply.length)).map fun x => .take x.1) ++
    (m'.freed.drop m.freed.length).map .give

def onMach (s : State) (m : Machine) : State := { s with mach := m, pages := s.pages ++ pageEvents s.mach m }

@[simp] theorem onMach_objects (s : State) (m : Machine) : (s.onMach m).objects = s.objects := rfl

end State

/-- `destroy_vmspace`, of the `struct vmspace` at the address `vms`. -/
def destroyVmspace (base : ℕ) (s : State) (vms : ℕ) (v : Vmspace) (objects : List ℕ) : Option State := do
  let m ← freeVmregions base v.pgtbl v.vmregions s.mach
  let s := objects.foldl State.kfree (s.onMach m)
  let s := s.onMach (freePageTable base s.mach v.pgtbl)
  some (s.kfree vms)

/-! ### The events -/

variable {base : ℕ} {s s' : State}

theorem kalloc_eq {a : ℕ} (h : s.kalloc = some (a, s')) : s'.mach = s.mach ∧ s'.objects = s.objects ++ [.take a] := by
  unfold State.kalloc at h
  split at h
  · cases h
  · cases h
    exact ⟨rfl, rfl⟩

theorem kallocs_eq : ∀ {n : ℕ} {s s' : State} {l : List ℕ}, State.kallocs n s = some (l, s') →
    s'.mach = s.mach ∧ s'.objects = s.objects ++ l.map .take
  | 0, s, s', l, h => by
    cases h
    exact ⟨rfl, (append_nil _).symm⟩
  | n + 1, s, s', l, h => by
    obtain ⟨⟨a, s₁⟩, h₁, h⟩ := bind_eq_some_iff.mp h
    obtain ⟨⟨l', s₂⟩, h₂, h⟩ := bind_eq_some_iff.mp h
    cases h
    obtain ⟨hm₁, ho₁⟩ := kalloc_eq h₁
    obtain ⟨hm₂, ho₂⟩ := kallocs_eq h₂
    exact ⟨hm₂.trans hm₁, by rw [ho₂, ho₁, map_cons, append_assoc]; rfl⟩

theorem foldl_kfree : ∀ (l : List ℕ) (s : State), (l.foldl State.kfree s).objects = s.objects ++ l.map .give
  | [], s => (append_nil _).symm
  | a :: l, s => by
    rw [foldl_cons, foldl_kfree l (s.kfree a), State.kfree, append_assoc]
    rfl

theorem pageEvents_freePageTable (base : ℕ) (m : Machine) (pt : ℕ) : ∃ L : List ℕ,
    State.pageEvents m (freePageTable base m pt) = L.map .give ∧ 2 ≤ L.count pt := by
  obtain ⟨-, hsupply, -, L, hL, hcount⟩ := freePageTable_drained base m pt
  refine ⟨L, ?_, ?_⟩
  · rw [State.pageEvents, hsupply, hL, Nat.sub_self, take_zero, drop_left]
    rfl
  · have hroot : 2 ≤ (tables m.mem 3 pt ++ [pt]).count pt := by
      rw [tables]
      simp
    rw [hcount]
    omega

theorem destroyVmspace_events {vms : ℕ} {v : Vmspace} {objects : List ℕ}
    (h : destroyVmspace base s vms v objects = some s') :
    s'.objects = s.objects ++ objects.map .give ++ [.give vms] ∧
    ∃ (es : List (Event ℕ)) (L : List ℕ), s'.pages = es ++ L.map .give ∧ 2 ≤ L.count v.pgtbl := by
  obtain ⟨m, -, h⟩ := bind_eq_some_iff.mp h
  have ho := foldl_kfree objects (s.onMach m)
  generalize objects.foldl State.kfree (s.onMach m) = s₁ at h ho
  obtain rfl := some.inj h
  obtain ⟨L, hL, hcount⟩ := pageEvents_freePageTable base s₁.mach v.pgtbl
  refine ⟨?_, s₁.pages, L, congrArg (s₁.pages ++ ·) hL, hcount⟩
  rw [State.kfree, State.onMach_objects, ho, State.onMach_objects]

theorem not_proper_of_root_twice {es : List (Event ℕ)} {L : List ℕ} {pt : ℕ} (h : 2 ≤ L.count pt) :
    ¬ Proper (es ++ L.map .give) := by
  intro hp
  rw [← append_nil (es ++ _)] at hp
  have := hp.count_gives_le (by simp) pt
  rw [gives_map_give] at this
  omega

end OsHonor.Vm.Accounts
