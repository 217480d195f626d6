import OsHonor.Vm.PageTables.Growth
import OsHonor.Vm.PageTables.Loops

/-! # The loop of `copy_vmspace`

With sharing, `copy_vmspace` goes over the pages of the regions; every page that is mapped in the source is
mapped in the destination too, and both entries become read-only. `Shared` says what holds after some of the
pages. One page keeps it (`copyPage_shared`), and so do the pages of a region (`copyPages_shared`) and the
regions (`copyRegions_shared`). It holds at first if the root page has no valid entry (`Fork.shared_newRoot`). -/

namespace OsHonor.Vm.PageTables.Sharing

open Option List Base.Radix Regions Code Entries
open Spaces Growth Loops

/-! ### The two address spaces -/

inductive Side
  | source
  | dest
  deriving DecidableEq

def roots (src : ℕ) (dst : Option ℕ) : Side → Option ℕ
  | .source => some src
  | .dest => dst

def place (va : Word) : List Idx × Idx := (path va, vaPart3 va)

theorem roots_update (src q : ℕ) : Function.update (roots src none) .dest (some q) = roots src (some q) := by
  funext p
  cases p <;> rfl

/-! ### Entries that are mapped again -/

theorem or_valid {e : Word} (hv : e &&& pteValid ≠ 0#64) : e ||| pteValid = e := by
  have hbit : e.getLsbD 0 = true := by
    by_contra hno
    refine hv (BitVec.eq_of_getLsbD_eq fun i hi => ?_)
    rw [pteValid, BitVec.getLsbD_and, BitVec.getLsbD_one, BitVec.getLsbD_zero]
    rcases Nat.eq_zero_or_pos i with rfl | hpos
    · rw [Bool.eq_false_iff.mpr hno, Bool.false_and]
    · simp [show ¬ i = 0 by omega]
  refine BitVec.eq_of_getLsbD_eq fun i hi => ?_
  rw [pteValid, BitVec.getLsbD_or, BitVec.getLsbD_one]
  rcases Nat.eq_zero_or_pos i with rfl | hpos
  · rw [hbit, Bool.true_or]
  · simp [show ¬ i = 0 by omega]

theorem remap_eq {e : Word} (hv : e &&& pteValid ≠ 0#64) :
    physical (pageOf e) ||| (pteFlags e ||| pteRo) ||| pteValid = e ||| pteRo := by
  have haddr : physical (pageOf e) = pteAddress e := by
    have hlow : ∀ i < 12, (~~~flagMask).getLsbD i = false := by decide
    apply BitVec.eq_of_getLsbD_eq
    intro i hi
    unfold physical pageOf
    rw [BitVec.ofNat_toNat, BitVec.setWidth_eq, BitVec.getLsbD_shiftLeft, BitVec.getLsbD_ushiftRight]
    by_cases h12 : i < 12
    · have hzero : (pteAddress e).getLsbD i = false := by
        rw [pteAddress, BitVec.getLsbD_and, hlow i h12, Bool.and_false]
      rw [hzero]
      simp [h12]
    · rw [Nat.add_sub_cancel' (by omega)]
      simp [h12, hi]
  have hall : pteAddress e ||| pteFlags e = e := by
    unfold pteAddress pteFlags
    rw [← BitVec.and_or_distrib_left, BitVec.or_comm, BitVec.or_not_self, BitVec.and_allOnes]
  have hone := or_valid hv
  rw [haddr, ← BitVec.or_assoc, hall, BitVec.or_assoc, BitVec.or_comm pteRo, ← BitVec.or_assoc, hone]

theorem pageOf_ro (e : Word) : pageOf (e ||| pteRo) = pageOf e := by
  unfold pageOf pteAddress
  have hro : pteRo &&& ~~~flagMask = 0#64 := by decide
  rw [BitVec.and_or_distrib_right, hro, BitVec.or_zero]

theorem valid_ro {e : Word} (hv : e &&& pteValid ≠ 0#64) : (e ||| pteRo) &&& pteValid ≠ 0#64 := by
  have hro : pteRo &&& pteValid = 0#64 := by decide
  rwa [BitVec.and_or_distrib_right, hro, BitVec.or_zero]

theorem ro_ro (e : Word) : e ||| pteRo ||| pteRo = e ||| pteRo := by rw [BitVec.or_assoc, BitVec.or_self]

theorem mapAt_ro {base : ℕ} {s : Machine} {root : Side → Option ℕ} {p : Side} {is : List Idx} {t : ℕ} {i : Idx}
    {x : Slot Side} {e : Word} (ht : Tables s.mem root) (hs : Supplied s root) (hlen : is.length = 3)
    (hn : tableAt s.mem root p is = some t) (hx : Leaf s.mem root x e) :
    Tables (mapAt base s t i (pageOf e) (pteFlags e ||| pteRo)).mem root ∧
      Supplied (mapAt base s t i (pageOf e) (pteFlags e ||| pteRo)) root := by
  refine mapAt_keeps ht hs hlen hn (remap_eq hx.2.2) ?_ ?_
  · rw [pageOf_ro]
    exact ht.notData x e hx
  · rw [pageOf_ro]
    exact fun y hy => (hs.unused y hy).notMapped x e hx

/-! ### The loop over the pages -/

/-- **After the pages `V`**: the entries of the source that were visited are read-only, and the destination has
the same ones and no others. -/
structure Shared (m₀ : ℕ → Idx → Word) (src dst : ℕ) (V : List Word) (s : Machine) : Prop where
  tables : Tables s.mem (roots src (some dst))
  supplied : Supplied s (roots src (some dst))
  source : ∀ k e', Leaf s.mem (roots src (some dst)) (.source, k) e' ↔
    ∃ e, Leaf m₀ (roots src none) (.source, k) e ∧ e' = if k ∈ V.map place then e ||| pteRo else e
  dest : ∀ k e', Leaf s.mem (roots src (some dst)) (.dest, k) e' ↔
    k ∈ V.map place ∧ ∃ e, Leaf m₀ (roots src none) (.source, k) e ∧ e' = e ||| pteRo

section Pages

variable {m₀ : ℕ → Idx → Word} {src dst : ℕ} {V : List Word} {s : Machine} {i : Word}

theorem mem_place_concat (k : List Idx × Idx) : k ∈ (V ++ [i]).map place ↔ k ∈ V.map place ∨ k = place i := by
  rw [map_append, mem_append, map_singleton, mem_singleton]

theorem Shared.skip (h : Shared m₀ src dst V s) (hno : ∀ e, ¬ Leaf m₀ (roots src none) (.source, place i) e) :
    Shared m₀ src dst (V ++ [i]) s := by
  have hmem : ∀ k e, Leaf m₀ (roots src none) (.source, k) e →
      (k ∈ (V ++ [i]).map place ↔ k ∈ V.map place) := by
    intro k e he
    rw [mem_place_concat]
    refine ⟨fun hk => hk.resolve_right ?_, Or.inl⟩
    rintro rfl
    exact hno e he
  refine ⟨h.tables, h.supplied, fun k e' => ?_, fun k e' => ?_⟩
  · rw [h.source]
    refine exists_congr fun e => and_congr_right fun he => ?_
    simp only [hmem k e he]
  · rw [h.dest]
    constructor
    · rintro ⟨hk, e, he, rfl⟩
      exact ⟨(hmem k e he).mpr hk, e, he, rfl⟩
    · rintro ⟨hk, e, he, rfl⟩
      exact ⟨(hmem k e he).mp hk, e, he, rfl⟩

theorem Shared.share {s' : Machine} {e f : Word} (h : Shared m₀ src dst V s)
    (he : Leaf s.mem (roots src (some dst)) (.source, place i) e) (hf : f = e ||| pteRo)
    (ht : Tables s'.mem (roots src (some dst))) (hs : Supplied s' (roots src (some dst)))
    (hleaf : ∀ x e', Leaf s'.mem (roots src (some dst)) x e' ↔
      (x.2 = place i ∧ e' = f) ∨ (x.2 ≠ place i ∧ Leaf s.mem (roots src (some dst)) x e')) :
    Shared m₀ src dst (V ++ [i]) s' := by
  obtain ⟨e₀, he₀, hcur⟩ := (h.source _ _).mp he
  have hro : f = e₀ ||| pteRo := by
    rw [hf, hcur]
    split_ifs
    · exact ro_ro e₀
    · rfl
  have hin : place i ∈ (V ++ [i]).map place := (mem_place_concat _).mpr (Or.inr rfl)
  -- at the place of the page both sides have the new entry, elsewhere nothing changes
  have hhere : ∀ e', e' = f ↔ ∃ e, Leaf m₀ (roots src none) (.source, place i) e ∧ e' = e ||| pteRo := by
    intro e'
    refine ⟨fun h1 => ⟨e₀, he₀, h1.trans hro⟩, ?_⟩
    rintro ⟨e₁, he₁, rfl⟩
    rw [he₁.unique he₀, hro]
  have helse : ∀ k, k ≠ place i → (k ∈ (V ++ [i]).map place ↔ k ∈ V.map place) := by
    intro k hk
    rw [mem_place_concat]
    exact or_iff_left hk
  refine ⟨ht, hs, fun k e' => ?_, fun k e' => ?_⟩
  · rw [hleaf]
    by_cases hk : k = place i
    · subst hk
      simp only [ne_eq, not_true_eq_false, false_and, or_false, true_and, if_pos hin]
      exact hhere e'
    · simp only [hk, false_and, false_or, ne_eq, not_false_eq_true, true_and, helse k hk, h.source]
  · rw [hleaf]
    by_cases hk : k = place i
    · subst hk
      simp only [ne_eq, not_true_eq_false, false_and, or_false, true_and, hin]
      exact hhere e'
    · simp only [hk, false_and, false_or, ne_eq, not_false_eq_true, true_and, helse k hk, h.dest]

/-- **One page of `copy_vmspace`** with sharing. -/
theorem copyPage_shared (base : ℕ) (h : Shared m₀ src dst V s) (hsup : 3 ≤ s.supply.length) :
    ∃ s', copyPage base true src dst s i = some s' ∧ Shared m₀ src dst (V ++ [i]) s' ∧
      s.supply.length ≤ s'.supply.length + 3 := by
  have hno : (∀ e, ¬ Leaf s.mem (roots src (some dst)) (.source, place i) e) →
      ∀ e, ¬ Leaf m₀ (roots src none) (.source, place i) e := by
    intro hnone e he
    exact hnone _ ((h.source _ _).mpr ⟨e, he, rfl⟩)
  unfold copyPage
  rw [getPte_false]
  cases hw : walk child s.mem src (path i) with
  | none =>
    refine ⟨s, rfl, h.skip (hno fun e he => ?_), Nat.le_add_right _ _⟩
    obtain ⟨-, ⟨n, hn, -⟩, -⟩ := he
    have hn' : walk child s.mem src (path i) = some n := hn
    rw [hw] at hn'
    cases hn'
  | some n =>
    dsimp only [map_some]
    by_cases hv : s.mem n (vaPart3 i) &&& pteValid = 0#64
    · rw [if_pos hv]
      refine ⟨s, rfl, h.skip (hno fun e he => ?_), Nat.le_add_right _ _⟩
      obtain ⟨-, ⟨n', hn', rfl⟩, hv'⟩ := he
      have hnn : n' = n := some.inj (hn'.symm.trans hw)
      subst hnn
      exact hv' hv
    · rw [if_neg hv, if_pos rfl]
      -- the entry is valid: first the destination, then the source itself
      generalize he : s.mem n (vaPart3 i) = e at hv
      have hleaf : Leaf s.mem (roots src (some dst)) (.source, place i) e := ⟨rfl, ⟨n, hw, he⟩, hv⟩
      have hroot : roots src (some dst) .dest = some dst := rfl
      have hdest : ∃ t s₁, mapInPgtbl base s dst i (pageOf e) (pteFlags e ||| pteRo) =
          some (mapAt base s₁ t (vaPart3 i) (pageOf e) (pteFlags e ||| pteRo)) ∧
          tableAt s₁.mem (roots src (some dst)) .dest (path i) = some t ∧ Grown s s₁ (roots src (some dst)) 3 :=
        (mapInPgtbl_alloc hroot h.tables h.supplied _ _).resolve_left fun hfew => absurd hsup (not_le.mpr hfew.2)
      obtain ⟨t, s₁, hmap, ht, hg⟩ := hdest
      have hleaf₁ := (hg.leaf _ _).mpr hleaf
      have hn₁ := hg.keep .source (path i) n le_rfl hw
      obtain ⟨ht₂, hs₂⟩ : Tables (mapAt base s₁ t (vaPart3 i) (pageOf e) (pteFlags e ||| pteRo)).mem _ ∧
          Supplied (mapAt base s₁ t (vaPart3 i) (pageOf e) (pteFlags e ||| pteRo)) _ :=
        mapAt_ro hg.tables hg.supplied (length_path i) ht hleaf₁
      have hmem₂ : (mapAt base s₁ t (vaPart3 i) (pageOf e) (pteFlags e ||| pteRo)).mem =
          setEntry s₁.mem t (vaPart3 i) (e ||| pteRo) := by
        rw [mapAt_mem, remap_eq hv]
      have hsup₂ : (mapAt base s₁ t (vaPart3 i) (pageOf e) (pteFlags e ||| pteRo)).supply = s₁.supply :=
        mapAt_supply _ _ _ _ _ _
      rw [hmap, bind_some]
      generalize mapAt base s₁ t (vaPart3 i) (pageOf e) (pteFlags e ||| pteRo) = s₂ at ht₂ hs₂ hmem₂ hsup₂
      have hn₂ : tableAt s₂.mem (roots src (some dst)) .source (path i) = some n := by
        rw [hmem₂, tableAt_setLeaf hg.tables.apart (length_path i) ht _ _ le_rfl]
        exact hn₁
      have hleaf₂ : Leaf s₂.mem (roots src (some dst)) (.source, place i) e := by
        have hne : ((Side.source, place i) : Slot Side) ≠ (Side.dest, path i, vaPart3 i) := by
          intro hx
          cases hx
        rw [hmem₂]
        exact (leaf_setLeaf hg.tables.apart (length_path i) ht).mpr (Or.inr ⟨hne, hleaf₁⟩)
      have he₂ : s₂.mem n (vaPart3 i) = e := by
        obtain ⟨-, ⟨n', hn', he'⟩, -⟩ := hleaf₂
        rw [← some.inj (hn'.symm.trans hn₂)]
        exact he'
      obtain ⟨ht₃, hs₃⟩ : Tables (mapAt base s₂ n (vaPart3 i) (pageOf e) (pteFlags e ||| pteRo)).mem _ ∧
          Supplied (mapAt base s₂ n (vaPart3 i) (pageOf e) (pteFlags e ||| pteRo)) _ :=
        mapAt_ro ht₂ hs₂ (length_path i) hn₂ hleaf₂
      rw [he₂, mapInPgtbl_of_walk _ _ hn₂]
      refine ⟨_, rfl, h.share hleaf rfl ht₃ hs₃ fun x e' => ?_, ?_⟩
      · rw [mapAt_mem, remap_eq hv, leaf_setLeaf ht₂.apart (length_path i) hn₂, hmem₂,
          leaf_setLeaf hg.tables.apart (length_path i) ht, hg.leaf]
        have hvalid := valid_ro hv
        obtain ⟨side, k⟩ := x
        cases side <;> by_cases hk : k = (path i, vaPart3 i) <;> simp [place, hk, hvalid]
      · rw [mapAt_supply, hsup₂]
        exact hg.taken

end Pages

/-- **The pages of a region.** -/
theorem copyPages_shared (base : ℕ) {m₀ : ℕ → Idx → Word} {src dst : ℕ} : ∀ (is V : List Word) (s : Machine),
    Shared m₀ src dst V s → 3 * is.length ≤ s.supply.length →
    ∃ s', copyPages base true src dst is s = some s' ∧ Shared m₀ src dst (V ++ is) s' ∧
      s.supply.length ≤ s'.supply.length + 3 * is.length
  | [], V, s, h, _ => ⟨s, rfl, by rwa [append_nil], Nat.le_add_right _ _⟩
  | i :: is, V, s, h, hsup => by
    rw [length_cons] at hsup ⊢
    obtain ⟨s₁, hstep, h₁, hlen₁⟩ := copyPage_shared (i := i) base h (by omega)
    obtain ⟨s', hrest, h', hlen'⟩ := copyPages_shared base is (V ++ [i]) s₁ h₁ (by omega)
    rw [append_assoc, singleton_append] at h'
    refine ⟨s', ?_, h', by omega⟩
    rw [copyPages, hstep, bind_some]
    exact hrest

/-- **The regions**, one after the other. -/
theorem copyRegions_shared (base : ℕ) {m₀ : ℕ → Idx → Word} {src dst : ℕ} : ∀ (r : List Region) (V : List Word)
    (s : Machine), (∀ v ∈ r, Ends v.last) → Shared m₀ src dst V s → 3 * (r.flatMap pages).length ≤ s.supply.length →
    ∃ s', copyRegions base true src dst r s = some s' ∧ Shared m₀ src dst (V ++ r.flatMap pages) s'
  | [], V, s, _, h, _ => ⟨s, rfl, by rwa [flatMap_nil, append_nil]⟩
  | v :: r, V, s, hends, h, hsup => by
    obtain ⟨is, his, -⟩ := mem_pagesOf v.first (hends v mem_cons_self)
    have hpages : pages v = is := by rw [pages, his, getD_some]
    rw [flatMap_cons, hpages] at hsup ⊢
    rw [length_append] at hsup
    obtain ⟨s₁, hloop, h₁, hlen₁⟩ := copyPages_shared base is V s h (by omega)
    obtain ⟨s', hrest, h'⟩ := copyRegions_shared base r (V ++ is) s₁
      (fun w hw => hends w (mem_cons_of_mem _ hw)) h₁ (by omega)
    rw [append_assoc] at h'
    refine ⟨s', ?_, h'⟩
    rw [copyRegions, his, bind_some, hloop, bind_some]
    exact hrest

end OsHonor.Vm.PageTables.Sharing
