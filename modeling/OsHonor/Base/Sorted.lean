import Mathlib.Data.List.Nodup
import Mathlib.Order.Lattice

/-! # Lists in ascending order of a key

The abstract view of an ordered container with a comparison `cmp` and no two equivalent elements:
`insertBy` goes past the smaller elements and gives up at an equivalent one. The comparison is a
program's, so the lemmas ask for a `key` in a linear order that explains it (`Explains`). -/

namespace OsHonor.Base.Sorted

open List

variable {α κ : Type*}

/-- `x` takes its place in the list, unless there is an equivalent element. -/
def insertBy (cmp : α → α → Bool) (x : α) : List α → Option (List α)
  | [] => some [x]
  | y :: l =>
    if cmp x y then some (x :: y :: l)
    else if cmp y x then (insertBy cmp x l).map (y :: ·)
    else none

theorem insertBy_perm {cmp : α → α → Bool} {x : α} : ∀ {l l' : List α}, insertBy cmp x l = some l' →
    l'.Perm (x :: l)
  | [], l', h => by
    cases h
    exact .refl _
  | y :: l, l', h => by
    simp only [insertBy] at h
    split_ifs at h
    · cases h
      exact .refl _
    · obtain ⟨l₁, h₁, rfl⟩ := Option.map_eq_some_iff.mp h
      exact ((insertBy_perm h₁).cons y).trans (.swap x y l)

variable [LinearOrder κ]

def Explains (key : α → κ) (cmp : α → α → Bool) : Prop := ∀ x y, cmp x y = true ↔ key x < key y

def Ascending (key : α → κ) (l : List α) : Prop := l.Pairwise fun x y => key x < key y

variable {key : α → κ} {cmp : α → α → Bool}

theorem Ascending.nodup {l : List α} (h : Ascending key l) : l.Nodup :=
  List.Pairwise.imp (fun hlt he => absurd (congrArg key he) hlt.ne) h

theorem Ascending.erase [DecidableEq α] {l : List α} (h : Ascending key l) (x : α) :
    Ascending key (l.erase x) := h.sublist erase_sublist

theorem Ascending.congr {key' : α → κ} {l : List α} (h : Ascending key l)
    (he : ∀ x ∈ l, key' x = key x) : Ascending key' l := by
  refine List.Pairwise.imp_of_mem ?_ h
  intro x y hx hy hlt
  rw [he x hx, he y hy]
  exact hlt

theorem Ascending.head_lt {l : List α} {x : α} (h : Ascending key l) (hx : l.head? = some x) :
    ∀ y ∈ l, y ≠ x → key x < key y := by
  rcases l with _ | ⟨z, l⟩
  · simp at hx
  · simp only [head?_cons, Option.some.injEq] at hx
    subst hx
    intro y hy hne
    rcases mem_cons.mp hy with rfl | hy
    · exact absurd rfl hne
    · exact (pairwise_cons.mp h).1 y hy

/-- **Insertion**: it fails for an equivalent element, and else gives the ascending list with the new
element. -/
theorem insertBy_spec (hk : Explains key cmp) (x : α) : ∀ {l : List α}, Ascending key l →
    (insertBy cmp x l = none ∧ ∃ y ∈ l, key y = key x) ∨
    ∃ l', insertBy cmp x l = some l' ∧ Ascending key l' ∧ (∀ y ∈ l, key y ≠ key x) ∧
      ∀ y, y ∈ l' ↔ y = x ∨ y ∈ l
  | [], _ => Or.inr ⟨[x], rfl, pairwise_singleton _ _, by simp, by simp⟩
  | z :: l, h => by
    obtain ⟨hz, hl⟩ := pairwise_cons.mp h
    rcases lt_trichotomy (key x) (key z) with hlt | he | hgt
    · refine Or.inr ⟨x :: z :: l, if_pos ((hk x z).mpr hlt), ?_, ?_, by simp⟩
      · refine pairwise_cons.mpr ⟨?_, h⟩
        intro y hy
        rcases mem_cons.mp hy with rfl | hy
        · exact hlt
        · exact hlt.trans (hz y hy)
      · intro y hy
        rcases mem_cons.mp hy with rfl | hy
        · exact hlt.ne'
        · exact (hlt.trans (hz y hy)).ne'
    · refine Or.inl ⟨?_, z, mem_cons_self, he.symm⟩
      have hxz : ¬ cmp x z = true := fun hc => absurd ((hk x z).mp hc) he.not_lt
      have hzx : ¬ cmp z x = true := fun hc => absurd ((hk z x).mp hc) he.not_gt
      rw [insertBy, if_neg hxz, if_neg hzx]
    · have hxz : ¬ cmp x z = true := fun hc => absurd ((hk x z).mp hc) hgt.not_gt
      rw [insertBy, if_neg hxz, if_pos ((hk z x).mpr hgt)]
      rcases insertBy_spec hk x hl with ⟨hnone, y, hy, he⟩ | ⟨l', hl', hasc, hne, hmem⟩
      · exact Or.inl ⟨by rw [hnone]; rfl, y, mem_cons_of_mem z hy, he⟩
      · refine Or.inr ⟨z :: l', by rw [hl']; rfl, pairwise_cons.mpr ⟨?_, hasc⟩, ?_, ?_⟩
        · intro y hy
          rcases (hmem y).mp hy with rfl | hy
          · exact hgt
          · exact hz y hy
        · intro y hy
          rcases mem_cons.mp hy with rfl | hy
          · exact hgt.ne
          · exact hne y hy
        · intro y
          simp only [mem_cons, hmem]
          tauto

theorem insertBy_append (hk : Explains key cmp) (x : α) {l₂ : List α} (h₂ : ∀ y ∈ l₂, key x < key y) :
    ∀ {l₁ : List α}, (∀ y ∈ l₁, key y < key x) → insertBy cmp x (l₁ ++ l₂) = some (l₁ ++ x :: l₂)
  | [], _ => by
    rcases l₂ with _ | ⟨y, l₂⟩
    · rfl
    · exact if_pos ((hk x y).mpr (h₂ y mem_cons_self))
  | y :: l₁, h₁ => by
    have hyx := h₁ y mem_cons_self
    have hxy : ¬ cmp x y = true := fun hc => absurd ((hk x y).mp hc) hyx.not_gt
    have hrest := insertBy_append hk x h₂ fun z hz => h₁ z (mem_cons_of_mem y hz)
    rw [cons_append, insertBy, if_neg hxy, if_pos ((hk y x).mpr hyx), hrest]
    rfl

end OsHonor.Base.Sorted
