import OsHonor.Vm.PageTables.Sharing

/-! # Fork

`copy_vmspace` with sharing makes the regions of the source anew and shares their pages. `fork_reproduces` says
when this gives the address space of the source, for a root page without valid entries: the regions must come
out of `copy_vmregions` (`Loops.copyVmregions_perm`), the loops must end, and no page may be visited that is
mapped and in no region, which happens when a region does not begin at a page.

The root page is used as `kalloc_page` returned it. With a valid entry in it the destination has tables, and
translations, that the source does not have (`fork_diverges`). -/

namespace OsHonor.Vm.PageTables.Fork

open Function Option List Base.Radix Regions Code Entries
open Spaces Growth Loops
open Sharing

/-! ### Translations -/

def translate (s : Machine) (pt : ℕ) (va : Word) : Option Word :=
  match getPte s pt va false with
  | some (some (n, i), s) => if s.mem n i &&& pteValid = 0#64 then none else some (s.mem n i)
  | _ => none

theorem translate_eq_some {s : Machine} {root : Side → Option ℕ} {p : Side} {pt : ℕ} (hroot : root p = some pt)
    (va e : Word) : translate s pt va = some e ↔ Leaf s.mem root (p, place va) e := by
  have hat : tableAt s.mem root p (path va) = walk child s.mem pt (path va) := by
    unfold tableAt
    rw [hroot]
    rfl
  unfold translate Leaf place
  dsimp only
  rw [getPte_false, hat]
  cases walk child s.mem pt (path va) with
  | none => simp
  | some n =>
    dsimp only [map_some]
    constructor
    · intro h
      split_ifs at h with hv
      cases h
      exact ⟨rfl, ⟨n, rfl, rfl⟩, hv⟩
    · rintro ⟨-, ⟨n', hn, rfl⟩, hv⟩
      cases hn
      rw [if_neg hv]

/-- A page-aligned address that the hardware looks up in the table of a process. -/
def User (a : Word) : Prop := a.toNat % 4096 = 0 ∧ a.toNat < 2 ^ 48

/-- The address with the same low bits that the hardware looks up. -/
def userOf (a : Word) : Word := BitVec.ofNat 64 (a.toNat % 2 ^ 48)

theorem userOf_toNat (a : Word) : (userOf a).toNat = a.toNat % 2 ^ 48 := by
  rw [userOf, BitVec.toNat_ofNat]
  omega

theorem place_userOf (a : Word) : place (userOf a) = place a := by
  have h0 : vaPart0 (userOf a) = vaPart0 a := Fin.ext (by rw [vaPart0_val, vaPart0_val, userOf_toNat]; omega)
  have h1 : vaPart1 (userOf a) = vaPart1 a := Fin.ext (by rw [vaPart1_val, vaPart1_val, userOf_toNat]; omega)
  have h2 : vaPart2 (userOf a) = vaPart2 a := Fin.ext (by rw [vaPart2_val, vaPart2_val, userOf_toNat]; omega)
  have h3 : vaPart3 (userOf a) = vaPart3 a := Fin.ext (by rw [vaPart3_val, vaPart3_val, userOf_toNat]; omega)
  rw [place, place, path, path, h0, h1, h2, h3]

theorem user_userOf {a : Word} (h : a.toNat % 4096 = 0) : User (userOf a) := by
  unfold User
  rw [userOf_toNat]
  omega

theorem userOf_eq {a u : Word} (ha : a.toNat % 4096 = 0) (hu : User u) (h : place a = place u) : userOf a = u := by
  have huser := user_userOf ha
  rw [← place_userOf a] at h
  refine va_ext huser.2 hu.2 (congrArg Prod.fst h) (congrArg Prod.snd h) ?_
  rw [vaOffset_eq, vaOffset_eq, huser.1, hu.1]

def Within (v : Region) (a : Word) : Prop := v.first ≤ a ∧ a < v.last

instance (v : Region) (a : Word) : Decidable (Within v a) := inferInstanceAs (Decidable (_ ∧ _))

theorem mem_visited {l : List Region} (h : ∀ v ∈ l, Ends v.last) (a : Word) :
    a ∈ visited l ↔ ∃ v ∈ l, pageBase v.first ≤ a ∧ a < v.last ∧ a.toNat % 4096 = 0 := by
  rw [visited, mem_flatMap]
  refine exists_congr fun v => ?_
  rw [(inOrder_perm l).mem_iff]
  refine and_congr_right fun hv => ?_
  obtain ⟨is, his, hmem⟩ := mem_pagesOf v.first (h v hv)
  rw [pages, his, getD_some, hmem]

theorem visited_of_within {l : List Region} (h : ∀ v ∈ l, Ends v.last) {u : Word} (hu : User u)
    (hin : ∃ v ∈ l, Within v u) : u ∈ visited l := by
  obtain ⟨v, hv, hfirst, hlast⟩ := hin
  refine (mem_visited h u).mpr ⟨v, hv, ?_, hlast, hu.1⟩
  have hnat := BitVec.le_def.mp hfirst
  rw [BitVec.le_def, pageBase_toNat]
  omega

/-! ### The address space of the child -/

/-- **The source is reproduced**: the regions, the translations of the destination, and those of the source. -/
structure Reproduced (s : Machine) (src : ℕ) (l : List Region) (c : Copied) : Prop where
  regions : c.regions.Perm l
  dest : ∀ a, User a → translate c.mach c.root a =
    if ∃ v ∈ l, Within v a then (translate s src a).map (· ||| pteRo) else none
  source : ∀ a, User a → translate c.mach src a =
    if ∃ v ∈ l, Within v a then (translate s src a).map (· ||| pteRo) else translate s src a

/-- **What it takes**, of the regions of the source and of those that the destination had: the loops end, no
region has a file, each region passes the test against those copied before it, and a page that is visited and
mapped is in a region. -/
structure Forkable (s : Machine) (src : ℕ) (l old : List Region) : Prop where
  ends : ∀ v ∈ l ++ old, Ends v.last
  anonymous : ∀ v ∈ l, v.mmapInfo = initMmapInfo
  separate : (inOrder l).Pairwise fun v w => ¬ Hits v w
  inside : ∀ a ∈ visited l, translate s src a ≠ none → ∃ v ∈ l, Within v (userOf a)

section Result

variable {s s' : Machine} {src q : ℕ} {l old : List Region}

theorem translate_source (s : Machine) (src : ℕ) (a e : Word) :
    translate s src a = some e ↔ Leaf s.mem (roots src none) (.source, place a) e := translate_eq_some rfl a e

theorem Reproduced.inside (h : Reproduced s src l ⟨s', q, copyVmregions l⟩) (hshared : Shared s.mem src q (visited l) s')
    (hends : ∀ v ∈ l, Ends v.last) : ∀ a ∈ visited l, translate s src a ≠ none → ∃ v ∈ l, Within v (userOf a) := by
  intro a ha hmapped
  obtain ⟨e, he⟩ := ne_none_iff_exists'.mp hmapped
  obtain ⟨-, -, -, -, haligned⟩ := (mem_visited hends a).mp ha
  have hdest : translate s' q (userOf a) = some (e ||| pteRo) := by
    have hroot : roots src (some q) .dest = some q := rfl
    rw [translate_eq_some hroot, place_userOf, hshared.dest]
    exact ⟨mem_map_of_mem ha, e, (translate_source s src a e).mp he, rfl⟩
  have hrule := h.dest _ (user_userOf haligned)
  dsimp only at hrule
  rw [hdest] at hrule
  by_contra hno
  rw [if_neg hno] at hrule
  cases hrule

theorem Forkable.mem_visited (h : Forkable s src l old) {u e : Word} (hu : User u)
    (he : Leaf s.mem (roots src none) (.source, place u) e) :
    place u ∈ (visited l).map place ↔ ∃ v ∈ l, Within v u := by
  have hends : ∀ v ∈ l, Ends v.last := fun v hv => h.ends v (mem_append_left _ hv)
  constructor
  · intro hmem
    obtain ⟨a, ha, hplace⟩ := mem_map.mp hmem
    obtain ⟨-, -, -, -, haligned⟩ := (Fork.mem_visited hends a).mp ha
    rw [← hplace] at he
    have hin := h.inside a ha (by rw [(translate_source s src a e).mpr he]; exact some_ne_none e)
    rwa [userOf_eq haligned hu hplace] at hin
  · exact fun hin => mem_map_of_mem (visited_of_within hends hu hin)

theorem Forkable.reproduced (h : Forkable s src l old) (hshared : Shared s.mem src q (visited l) s') :
    Reproduced s src l ⟨s', q, copyVmregions l⟩ := by
  have hdest : roots src (some q) .dest = some q := rfl
  have hsource : roots src (some q) .source = some src := rfl
  refine ⟨(copyVmregions_perm l).mpr ⟨h.anonymous, h.separate⟩, fun u hu => ?_, fun u hu => ?_⟩
  · refine Option.ext fun e' => ?_
    rw [translate_eq_some hdest, hshared.dest]
    constructor
    · rintro ⟨hmem, e, he, rfl⟩
      rw [if_pos ((h.mem_visited hu he).mp hmem), (translate_source s src u e).mpr he]
      rfl
    · intro he'
      split_ifs at he' with hin
      obtain ⟨e, he, rfl⟩ := map_eq_some_iff.mp he'
      have hleaf := (translate_source s src u e).mp he
      exact ⟨(h.mem_visited hu hleaf).mpr hin, e, hleaf, rfl⟩
  · refine Option.ext fun e' => ?_
    rw [translate_eq_some hsource, hshared.source]
    constructor
    · rintro ⟨e, he, rfl⟩
      simp only [h.mem_visited hu he, (translate_source s src u e).mpr he]
      split_ifs <;> rfl
    · intro he'
      split_ifs at he' with hin
      · obtain ⟨e, he, rfl⟩ := map_eq_some_iff.mp he'
        have hleaf := (translate_source s src u e).mp he
        exact ⟨e, hleaf, by rw [if_pos ((h.mem_visited hu hleaf).mpr hin)]⟩
      · have hleaf := (translate_source s src u e').mp he'
        exact ⟨e', hleaf, by rw [if_neg (mt (h.mem_visited hu hleaf).mp hin)]⟩

end Result

section Main

variable {base : ℕ} {s : Machine} {src : ℕ} {l : List Region} {dst : ℕ} {old : List Region} {q : ℕ}
  {contents : Idx → Word} {rest : List (ℕ × (Idx → Word))}

theorem ends_of_copyVmspace {share : Bool} {c : Copied} (h : copyVmspace base share s src l dst old = some c) :
    ∀ v ∈ l ++ old, Ends v.last := by
  unfold copyVmspace at h
  obtain ⟨s₁, hold, h⟩ := bind_eq_some_iff.mp h
  obtain ⟨r, -, h⟩ := bind_eq_some_iff.mp h
  obtain ⟨s₂, hl, -⟩ := map_eq_some_iff.mp h
  intro v hv
  rcases mem_append.mp hv with hv | hv
  · exact ends_of_copyRegions hl v ((inOrder_perm l).mem_iff.mpr hv)
  · exact ends_of_freeVmregions hold v hv

variable (ht : Tables s.mem (roots src none)) (hs : Supplied s (roots src none))
  (hsup : s.supply = (q, contents) :: rest) (hclean : Clean contents)
include ht hs hsup hclean

theorem shared_newRoot (rc : ℕ → ℤ) (freed : List ℕ) :
    Shared s.mem src q [] ⟨update s.mem q contents, rc, rest, freed⟩ := by
  have hq := hs.head hsup
  have hnone : roots src none .dest = none := rfl
  have hleaf : ∀ x e, Leaf (update s.mem q contents) (roots src (some q)) x e ↔
      Leaf s.mem (roots src none) x e := by
    intro x e
    rw [← roots_update]
    exact leaf_newRoot hnone hq hclean
  refine ⟨?_, ?_, fun k e => ?_, fun k e => ?_⟩
  · rw [← roots_update]
    exact Tables.newRoot ht hnone hq hclean
  · rw [← roots_update]
    exact hs.newRoot hsup hnone hclean rc freed
  · rw [hleaf]
    simp
  · rw [hleaf]
    constructor
    · rintro ⟨-, ⟨n, hn, -⟩, -⟩
      cases hn
    · rintro ⟨hk, -⟩
      cases hk

/-- **`copy_vmspace` returns** if its loops end, and this is what it leaves. -/
theorem copyVmspace_shared (hroom : 3 * (visited l).length ≤ rest.length) (hends : ∀ v ∈ l ++ old, Ends v.last) :
    ∃ s', copyVmspace base true s src l dst old = some ⟨s', q, copyVmregions l⟩ ∧
      Shared s.mem src q (visited l) s' := by
  have hkept := kept_freePageTable base s dst
  unfold kept at hkept
  rw [Prod.mk.injEq] at hkept
  have halloc : kallocPage (freePageTable base s dst) = some (q, ⟨update s.mem q contents,
      (freePageTable base s dst).rc, rest, (freePageTable base s dst).freed⟩) := by
    unfold kallocPage
    rw [hkept.2, hsup, hkept.1]
  obtain ⟨s', hloop, h'⟩ := copyRegions_shared base (inOrder l) [] _
    (fun v hv => hends v (mem_append_left _ ((inOrder_perm l).mem_iff.mp hv)))
    (shared_newRoot ht hs hsup hclean (freePageTable base s dst).rc (freePageTable base s dst).freed) hroom
  refine ⟨s', ?_, h'⟩
  unfold copyVmspace
  rw [freeVmregions_eq base dst s old fun v hv => hends v (mem_append_right _ hv), bind_some, halloc,
    bind_some]
  dsimp only
  rw [hloop]
  rfl

/-- **Fork**: with a root page that has no valid entry, `copy_vmspace` reproduces the address space if and only
if the source is `Forkable`. -/
theorem fork_reproduces (hroom : 3 * (visited l).length ≤ rest.length) :
    (∃ c, copyVmspace base true s src l dst old = some c ∧ Reproduced s src l c) ↔ Forkable s src l old := by
  constructor
  · rintro ⟨c, hc, hrep⟩
    have hends := ends_of_copyVmspace hc
    obtain ⟨s', hs', hshared⟩ := copyVmspace_shared ht hs hsup hclean hroom hends
    rw [hs'] at hc
    cases hc
    obtain ⟨hinfo, hpair⟩ := (copyVmregions_perm l).mp hrep.regions
    exact ⟨hends, hinfo, hpair, hrep.inside hshared fun v hv => hends v (mem_append_left _ hv)⟩
  · intro h
    obtain ⟨s', hs', hshared⟩ := copyVmspace_shared ht hs hsup hclean hroom h.ends
    exact ⟨_, hs', h.reproduced hshared⟩

end Main

/-! ### One page, a file, two neighbours and a used root -/

def blank : Machine :=
  ⟨fun _ _ => 0#64, fun _ => 0, (List.range 10).map fun k => (10 + k, fun _ => 0#64), []⟩

theorem blank_mem (n : ℕ) (i : Idx) : blank.mem n i = 0#64 := rfl

theorem blank_table {is : List Idx} {p : Side} {n : ℕ} (h : tableAt blank.mem (roots 1 none) p is = some n) :
    p = .source ∧ is = [] ∧ n = 1 := by
  cases p with
  | dest => cases h
  | source =>
    cases is with
    | nil => exact ⟨rfl, rfl, (some.inj h).symm⟩
    | cons i is =>
      have hzero : child (blank.mem 1 i) = none := child_of_invalid (by rw [blank_mem]; decide)
      have hwalk : walk child blank.mem 1 (i :: is) = some n := h
      rw [walk, hzero] at hwalk
      cases hwalk

theorem blank_ready : Tables blank.mem (roots 1 none) ∧ Supplied blank (roots 1 none) := by
  have hleaf : ∀ x e, ¬ Leaf blank.mem (roots 1 none) x e := by
    rintro x e ⟨hlen, ⟨n, hn, -⟩, -⟩
    rw [(blank_table hn).2.1] at hlen
    cases hlen
  refine ⟨⟨fun p p' is is' n _ _ hn hn' => ?_, fun x e hx => absurd hx (hleaf x e)⟩, by decide, fun x hx => ?_⟩
  · obtain ⟨hp, his, -⟩ := blank_table hn
    obtain ⟨hp', his', -⟩ := blank_table hn'
    exact ⟨hp.trans hp'.symm, his.trans his'.symm⟩
  · obtain ⟨k, hk, rfl⟩ := mem_map.mp hx
    have hlt := mem_range.mp hk
    refine ⟨by unfold pageLimit; dsimp only; omega, fun p is _ hn => ?_, fun y e hy => absurd hy (hleaf y e)⟩
    have hone := (blank_table hn).2.2
    omega

def heapPage : Region := ⟨vmrHeap, 0#64, 4096#64, initMmapInfo⟩

/-- A heap of one page, which is mapped, is reproduced. -/
theorem fork_reproduces_heapPage : ∃ s c, mapInPgtbl 0 blank 1 0#64 30 pteUserData = some s ∧
    copyVmspace 0 true s 1 [heapPage] 2 [] = some c ∧ Reproduced s 1 [heapPage] c := by
  obtain ⟨s, hs⟩ := isSome_iff_exists.mp
    (by decide +kernel : (mapInPgtbl 0 blank 1 0#64 30 pteUserData).isSome = true)
  have hroot : roots 1 none .source = some 1 := rfl
  have hmapped := mapInPgtbl_mapped hroot blank_ready.1 blank_ready.2 (by decide) (by decide) (by decide)
    (fun r js _ hr => by have hone := (blank_table hr).2.2; omega) hs
  have hlen := hmapped.taken
  have hten : blank.supply.length = 10 := by decide
  obtain ⟨⟨q, contents⟩, rest, hrest⟩ := exists_cons_of_length_pos (by omega : 0 < s.supply.length)
  have hclean : Clean contents := by
    obtain ⟨k, -, hk⟩ := mem_map.mp (hmapped.sub (q, contents) (by rw [hrest]; exact mem_cons_self))
    cases hk
    intro i
    show (0#64 : Word) &&& pteValid = 0#64
    decide
  have hvisited : visited [heapPage] = [0#64] := by decide +kernel
  have hroom : 3 * (visited [heapPage]).length ≤ rest.length := by
    rw [hrest, length_cons] at hlen
    rw [hvisited, length_singleton]
    omega
  have hforkable : Forkable s 1 [heapPage] [] := by
    refine ⟨by decide, by decide, by decide +kernel, fun a ha _ => ⟨heapPage, mem_singleton_self _, ?_⟩⟩
    rw [hvisited, mem_singleton] at ha
    rw [ha]
    decide
  obtain ⟨c, hc, hrep⟩ := (fork_reproduces hmapped.tables hmapped.supplied hrest hclean hroom).mpr hforkable
  exact ⟨s, c, hs, hc, hrep⟩

def filePage : Region := ⟨vmrMm, 0#64, 4096#64, ⟨some 0, 0#64, 3, 1⟩⟩

/-- The page after `heapPage`. -/
def nextPage : Region := ⟨vmrHeap, 4096#64, 8192#64, initMmapInfo⟩

/-- Empty memory, but for tables in the pages from 20 on, and a free page that still has an entry for them. -/
def used : Machine :=
  ⟨fun n i => if i.val = 0 ∧ 20 ≤ n ∧ n < 23 then physical (n + 1) ||| pteTable else 0#64, fun _ => 0,
    [(10, fun i => if i.val = 0 then physical 20 ||| pteTable else 0#64)], []⟩

/-- A file is lost, a region that ends where another begins is dropped, and an address that is in no region and
not mapped in the source translates in the destination. -/
theorem fork_diverges :
    (∃ c, copyVmspace 0 true blank 1 [filePage] 2 [] = some c ∧ c.regions = [anew filePage] ∧
      ¬ Reproduced blank 1 [filePage] c) ∧
    (∃ c, copyVmspace 0 true blank 1 [heapPage, nextPage] 2 [] = some c ∧ c.regions = [nextPage] ∧
      ¬ Reproduced blank 1 [heapPage, nextPage] c) ∧
    (∃ c, copyVmspace 0 true used 1 [] 2 [] = some c ∧ (translate c.mach c.root 0#64).isSome ∧
      ¬ Reproduced used 1 [] c) := by
  have hregions : ∀ {l r : List Region}, (copyVmspace 0 true blank 1 l 2 []).map (·.regions) = some r → ¬ r.Perm l →
      ∃ c, copyVmspace 0 true blank 1 l 2 [] = some c ∧ c.regions = r ∧ ¬ Reproduced blank 1 l c := by
    intro l r h hperm
    obtain ⟨c, hc, rfl⟩ := map_eq_some_iff.mp h
    exact ⟨c, hc, rfl, fun hrep => hperm hrep.regions⟩
  refine ⟨hregions (by decide +kernel) (by decide), hregions (by decide +kernel) (by decide), ?_⟩
  obtain ⟨e, he⟩ := isSome_iff_exists.mp (by decide +kernel :
    ((copyVmspace 0 true used 1 [] 2 []).bind fun c => translate c.mach c.root 0#64).isSome = true)
  obtain ⟨c, hc, he⟩ := bind_eq_some_iff.mp he
  refine ⟨c, hc, by rw [he]; rfl, fun hrep => ?_⟩
  have hrule := hrep.dest 0#64 (by unfold User; decide)
  rw [he, if_neg (by simp)] at hrule
  cases hrule

end OsHonor.Vm.PageTables.Fork
