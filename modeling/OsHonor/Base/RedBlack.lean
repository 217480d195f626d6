import Mathlib.Data.List.Nodup

/-! # Red-black trees and the rules that rebalance them

Trees with coloured nodes, contexts (a tree with a hole, innermost frame first) and the rules by which
the bottom-up algorithms repair a tree after an insertion (`InsertFix`) and after a removal
(`Vacates`, `Unlink`, `EraseFix`). A mirrored pair of cases is one rule: `join d c x a y` is the node with
`x` on the side `d` and `y` on the other.

Every rule keeps the order of the elements, and restores the balance and the black root:
`InsertFix.valid`, `Unlink.valid`. -/

namespace OsHonor.Base.RedBlack

inductive Side
  | left
  | right
  deriving DecidableEq

def Side.other : Side → Side
  | left => right
  | right => left

@[simp] theorem Side.other_other (d : Side) : d.other.other = d := by cases d <;> rfl

@[simp] theorem Side.other_ne (d : Side) : d.other ≠ d := by cases d <;> decide

@[simp] theorem Side.ne_other (d : Side) : d ≠ d.other := d.other_ne.symm

theorem Side.eq_or_eq_other (d e : Side) : e = d ∨ e = d.other := by cases d <;> cases e <;> decide

inductive Color
  | red
  | black
  deriving DecidableEq

def Color.weight : Color → ℕ
  | red => 0
  | black => 1

/-- Trees with coloured nodes. -/
inductive CTree (α : Type*)
  | nil
  | node (c : Color) (l : CTree α) (a : α) (r : CTree α)

variable {α : Type*}

variable {d : Side} {x y T : CTree α} {n : ℕ} {p : α}

namespace CTree

def color : CTree α → Color
  | nil => .black
  | node c _ _ _ => c

def paint (c : Color) : CTree α → CTree α
  | nil => nil
  | node _ l a r => node c l a r

def inorder : CTree α → List α
  | nil => []
  | node _ l a r => l.inorder ++ a :: r.inorder

/-- The node with `x` on the side `d` and `y` on the other. -/
def join : Side → Color → CTree α → α → CTree α → CTree α
  | .left, c, x, a, y => node c x a y
  | .right, c, x, a, y => node c y a x

/-- **The colours**: no red node has a red child, and every path down to an empty tree passes `n` black
nodes. -/
def Balanced : CTree α → ℕ → Prop
  | nil, n => n = 0
  | node c l _ r, n => ∃ m, n = m + c.weight ∧ l.Balanced m ∧ r.Balanced m ∧
      (c = .red → l.color = .black ∧ r.color = .black)

/-- **A red-black tree**: balanced, with a black root. -/
def Valid (t : CTree α) : Prop := t.color = .black ∧ ∃ n, t.Balanced n

@[simp] theorem color_join (d : Side) (c : Color) (x : CTree α) (a : α) (y : CTree α) :
    (join d c x a y).color = c := by cases d <;> rfl

@[simp] theorem paint_join (d : Side) (c c' : Color) (x : CTree α) (a : α) (y : CTree α) :
    (join d c x a y).paint c' = join d c' x a y := by cases d <;> rfl

theorem join_other (d : Side) (c : Color) (x : CTree α) (a : α) (y : CTree α) :
    join d.other c x a y = join d c y a x := by cases d <;> rfl

theorem paint_color : ∀ t : CTree α, t.paint t.color = t
  | nil => rfl
  | node _ _ _ _ => rfl

theorem exists_join (d : Side) (c : Color) (l : CTree α) (a : α) (r : CTree α) :
    ∃ x y, node c l a r = join d c x a y := by
  cases d
  · exact ⟨l, r, rfl⟩
  · exact ⟨r, l, rfl⟩

theorem eq_nil_or_join (d : Side) : ∀ t : CTree α, t = nil ∨ ∃ c x a y, t = join d c x a y
  | nil => Or.inl rfl
  | node c l a r => by
    obtain ⟨x, y, h⟩ := exists_join d c l a r
    exact Or.inr ⟨c, x, a, y, h⟩

theorem balanced_join {c : Color} {a : α} :
    (join d c x a y).Balanced n ↔ ∃ m, n = m + c.weight ∧ x.Balanced m ∧ y.Balanced m ∧
      (c = .red → x.color = .black ∧ y.color = .black) := by
  cases d
  · rfl
  · constructor <;> rintro ⟨m, hn, hx, hy, hc⟩ <;> exact ⟨m, hn, hy, hx, fun h => (hc h).symm⟩

theorem mem_inorder_join {c : Color} {a b : α} :
    b ∈ (join d c x a y).inorder ↔ b = a ∨ b ∈ x.inorder ∨ b ∈ y.inorder := by
  cases d <;> simp only [join, inorder, List.mem_append, List.mem_cons] <;> tauto

theorem inorder_join_perm (d : Side) (c : Color) (x : CTree α) (a : α) (y : CTree α) :
    (join d c x a y).inorder.Perm (a :: (x.inorder ++ y.inorder)) := by
  cases d
  · exact List.perm_middle
  · exact List.perm_middle.trans (List.perm_append_comm.cons a)

theorem count_inorder_join [DecidableEq α] (d : Side) (c : Color) (x : CTree α) (a : α) (y : CTree α)
    (b : α) : (join d c x a y).inorder.count b =
      x.inorder.count b + y.inorder.count b + if a == b then 1 else 0 := by
  rw [(inorder_join_perm d c x a y).count_eq, List.count_cons, List.count_append]

@[simp] theorem inorder_paint (c : Color) : ∀ t : CTree α, (t.paint c).inorder = t.inorder
  | nil => rfl
  | node _ _ _ _ => rfl

end CTree

open CTree

/-! ### Contexts -/

/-- A node with a hole for one of its children. -/
structure Frame (α : Type*) where
  side : Side
  color : Color
  elem : α
  other : CTree α

abbrev Ctx (α : Type*) := List (Frame α)

def Frame.fill (f : Frame α) (t : CTree α) : CTree α := join f.side f.color t f.elem f.other

namespace Ctx

def plug : Ctx α → CTree α → CTree α
  | [], t => t
  | f :: fs, t => plug fs (f.fill t)

def before : Ctx α → List α
  | [] => []
  | f :: fs =>
    match f.side with
    | .left => before fs
    | .right => before fs ++ (f.other.inorder ++ [f.elem])

def after : Ctx α → List α
  | [] => []
  | f :: fs =>
    match f.side with
    | .left => f.elem :: f.other.inorder ++ after fs
    | .right => after fs

def elems : Ctx α → List α
  | [] => []
  | f :: fs => f.elem :: (f.other.inorder ++ elems fs)

theorem plug_append (t : CTree α) : ∀ fs gs : Ctx α, plug (fs ++ gs) t = plug gs (plug fs t)
  | [], _ => rfl
  | f :: fs, gs => plug_append (f.fill t) fs gs

theorem exists_plug {a : α} : ∀ {t : CTree α}, a ∈ t.inorder →
    ∃ fs c l r, t = plug fs (node c l a r)
  | nil, h => absurd h List.not_mem_nil
  | node c l b r, h => by
    rw [inorder, List.mem_append, List.mem_cons] at h
    rcases h with h | rfl | h
    · obtain ⟨fs, c', l', r', rfl⟩ := exists_plug h
      exact ⟨fs ++ [⟨.left, c, b, r⟩], c', l', r', by rw [plug_append]; rfl⟩
    · exact ⟨[], c, l, r, rfl⟩
    · obtain ⟨fs, c', l', r', rfl⟩ := exists_plug h
      exact ⟨fs ++ [⟨.right, c, b, l⟩], c', l', r', by rw [plug_append]; rfl⟩

theorem inorder_plug : ∀ (fs : Ctx α) (t : CTree α),
    (plug fs t).inorder = before fs ++ t.inorder ++ after fs
  | [], t => by simp [plug, before, after]
  | ⟨d, c, a, y⟩ :: fs, t => by
    rw [plug, inorder_plug fs]
    cases d <;> simp [Frame.fill, join, inorder, before, after]

theorem elems_append : ∀ fs gs : Ctx α, elems (fs ++ gs) = elems fs ++ elems gs
  | [], _ => rfl
  | f :: fs, gs => by simp [elems, elems_append fs gs]

theorem inorder_plug_perm : ∀ (fs : Ctx α) (t : CTree α),
    (plug fs t).inorder.Perm (t.inorder ++ elems fs)
  | [], t => by simp [plug, elems]
  | f :: fs, t => by
    refine (inorder_plug_perm fs _).trans ?_
    refine ((inorder_join_perm _ _ _ _ _).append_right _).trans ?_
    rw [elems, List.cons_append, List.append_assoc]
    exact List.perm_middle.symm

/-- A red tree may stand in the hole: the node above it is black. -/
def TopBlack : Ctx α → Prop
  | [] => False
  | f :: _ => f.color = .black

/-- The context is balanced if the tree in the hole has black height `n`. -/
def Ok : Ctx α → ℕ → Prop
  | [], _ => True
  | f :: fs, n => f.other.Balanced n ∧ (f.color = .red → f.other.color = .black ∧ TopBlack fs) ∧
      Ok fs (n + f.color.weight)

theorem plug_valid : ∀ {fs : Ctx α} {t : CTree α} {n : ℕ}, Ok fs n → t.Balanced n →
    (t.color = .red → TopBlack fs) → (plug fs t).Valid
  | [], t, n, _, ht, hc => by
    refine ⟨?_, n, ht⟩
    cases h : t.color with
    | red => exact absurd (hc h) id
    | black => exact h
  | f :: fs, t, n, ⟨ho, hf, hfs⟩, ht, hc => by
    refine plug_valid (t := f.fill t) hfs (balanced_join.mpr ⟨n, rfl, ht, ho, ?_⟩) ?_
    · intro hred
      refine ⟨?_, (hf hred).1⟩
      cases h : t.color with
      | red => exact absurd ((hc h).symm.trans hred) (by decide)
      | black => rfl
    · intro hred
      rw [Frame.fill, color_join] at hred
      exact (hf hred).2

theorem valid_plug : ∀ {fs : Ctx α} {t : CTree α}, (plug fs t).Valid →
    ∃ n, Ok fs n ∧ t.Balanced n ∧ (t.color = .red → TopBlack fs)
  | [], t, ⟨hc, n, hn⟩ => ⟨n, trivial, hn, fun h => absurd (h.symm.trans hc) (by decide)⟩
  | f :: fs, t, h => by
    obtain ⟨n, hfs, hbal, hred⟩ := valid_plug (t := f.fill t) h
    obtain ⟨m, rfl, ht, ho, hc⟩ := balanced_join.mp hbal
    rw [Frame.fill, color_join] at hred
    refine ⟨m, ⟨ho, fun hr => ⟨(hc hr).2, hred hr⟩, hfs⟩, ht, ?_⟩
    intro hr
    cases hf : f.color with
    | red => exact absurd (hr.symm.trans (hc hf).1) (by decide)
    | black => exact hf

theorem Ok.replace {f : Frame α} (b : α) {gs : Ctx α} : ∀ {fs : Ctx α} {n : ℕ},
    Ok (fs ++ f :: gs) n → Ok (fs ++ { f with elem := b } :: gs) n
  | [], _, h => h
  | e :: fs, _, ⟨ho, hc, hfs⟩ => by
    refine ⟨ho, fun hr => ⟨(hc hr).1, ?_⟩, Ok.replace b hfs⟩
    rcases fs with _ | ⟨e', fs⟩ <;> exact (hc hr).2

end Ctx

open Ctx

/-! ### After an insertion -/

/-- **The repair after an insertion**: `InsertFix fs t T` is the repair of `plug fs t`, where the root of
`t` is red and perhaps the node above it too. -/
inductive InsertFix : Ctx α → CTree α → CTree α → Prop
  | root {l a r} : InsertFix [] (node .red l a r) (node .black l a r)
  | parentBlack {d p s fs t} : InsertFix (⟨d, .black, p, s⟩ :: fs) t (plug (⟨d, .black, p, s⟩ :: fs) t)
  | uncleRed {e p s d g l u r fs t T} :
      InsertFix fs (join d .red (join e .black t p s) g (node .black l u r)) T →
      InsertFix (⟨e, .red, p, s⟩ :: ⟨d, .black, g, node .red l u r⟩ :: fs) t T
  | outer {d p s g u fs t} : u.color = .black →
      InsertFix (⟨d, .red, p, s⟩ :: ⟨d, .black, g, u⟩ :: fs) t
        (plug fs (join d .black t p (join d .red s g u)))
  | inner {d p s g u fs x n y} : u.color = .black →
      InsertFix (⟨d.other, .red, p, s⟩ :: ⟨d, .black, g, u⟩ :: fs) (join d .red x n y)
        (plug fs (join d .black (join d .red s p x) n (join d .red y g u)))

theorem uncleRed_step {e : Side} {g u : α} {s l r t : CTree α} {fs : Ctx α}
    (ht : t.Balanced n) (hok : Ok (⟨e, .red, p, s⟩ :: ⟨d, .black, g, node .red l u r⟩ :: fs) n) :
    (join d .red (join e .black t p s) g (node .black l u r)).Balanced (n + 1) ∧ Ok fs (n + 1) ∧
      (plug fs (join d .red (join e .black t p s) g (node .black l u r))).inorder =
        (plug (⟨e, .red, p, s⟩ :: ⟨d, .black, g, node .red l u r⟩ :: fs) t).inorder := by
  obtain ⟨hs, -, ⟨m, hm, hl, hr, -⟩, -, hok⟩ := hok
  obtain rfl : n = m := hm
  have hp : (join e .black t p s).Balanced (n + 1) := balanced_join.mpr ⟨n, rfl, ht, hs, nofun⟩
  have hu : (node .black l u r).Balanced (n + 1) := ⟨n, rfl, hl, hr, nofun⟩
  refine ⟨balanced_join.mpr ⟨n + 1, rfl, hp, hu, fun _ => ⟨color_join _ _ _ _ _, rfl⟩⟩, hok, ?_⟩
  rw [inorder_plug, inorder_plug]
  cases d <;> cases e <;> simp [join, inorder, before, after]

theorem InsertFix.valid {fs : Ctx α} {t : CTree α} (h : InsertFix fs t T) : ∀ {n : ℕ},
    t.color = .red → t.Balanced n → Ok fs n →
    T.Valid ∧ T.inorder = before fs ++ t.inorder ++ after fs := by
  induction h with
  | root =>
    rintro n - ⟨m, hm, hl, hr, -⟩ -
    obtain rfl : n = m := hm
    refine ⟨⟨rfl, n + 1, n, rfl, hl, hr, nofun⟩, ?_⟩
    simp [before, after, inorder]
  | parentBlack =>
    intro n _ ht hok
    exact ⟨plug_valid hok ht fun _ => rfl, inorder_plug _ _⟩
  | uncleRed _ ih =>
    intro n _ ht hok
    obtain ⟨hbal, hok', hord⟩ := uncleRed_step ht hok
    obtain ⟨hT, hord'⟩ := ih (color_join _ _ _ _ _) hbal hok'
    rw [← inorder_plug] at hord' ⊢
    exact ⟨hT, hord'.trans hord⟩
  | @outer d p s g u fs t hu =>
    rintro n hc ht ⟨hs, hsc, hub, -, hok⟩
    have hg : (join d .red s g u).Balanced n :=
      balanced_join.mpr ⟨n, rfl, hs, hub, fun _ => ⟨(hsc rfl).1, hu⟩⟩
    refine ⟨plug_valid hok (balanced_join.mpr ⟨n, rfl, ht, hg, nofun⟩) ?_, ?_⟩
    · intro h
      rw [color_join] at h
      exact absurd h (by decide)
    · rw [inorder_plug]
      cases d <;> simp [join, inorder, before, after]
  | @inner d p s g u fs x n' y hu =>
    rintro n - ht ⟨hs, hsc, hub, -, hok⟩
    obtain ⟨m, hm, hx, hy, hxy⟩ := balanced_join.mp ht
    obtain rfl : n = m := hm
    have hp : (join d .red s p x).Balanced n :=
      balanced_join.mpr ⟨n, rfl, hs, hx, fun _ => ⟨(hsc rfl).1, (hxy rfl).1⟩⟩
    have hg : (join d .red y g u).Balanced n :=
      balanced_join.mpr ⟨n, rfl, hy, hub, fun _ => ⟨(hxy rfl).2, hu⟩⟩
    refine ⟨plug_valid hok (balanced_join.mpr ⟨n, rfl, hp, hg, nofun⟩) ?_, ?_⟩
    · intro h
      rw [color_join] at h
      exact absurd h (by decide)
    · rw [inorder_plug]
      cases d <;> simp [join, inorder, before, after, Side.other]

/-! ### After a removal -/

/-- **The repair after a removal**: `EraseFix fs t T` is the repair of `plug fs t`, where `t` lacks one
black node on every path. -/
inductive EraseFix : Ctx α → CTree α → CTree α → Prop
  | root {t} : EraseFix [] t t
  | redSibling {d p x s y fs t T} :
      EraseFix (⟨d, .red, p, x⟩ :: ⟨d, .black, s, y⟩ :: fs) t T →
      EraseFix (⟨d, .black, p, join d .red x s y⟩ :: fs) t T
  | redParent {d p x s y fs t} : x.color = .black → y.color = .black →
      EraseFix (⟨d, .red, p, join d .black x s y⟩ :: fs) t
        (plug fs (join d .black t p (join d .red x s y)))
  | blackParent {d p x s y fs t T} : x.color = .black → y.color = .black →
      EraseFix fs (join d .black t p (join d .red x s y)) T →
      EraseFix (⟨d, .black, p, join d .black x s y⟩ :: fs) t T
  | inner {d c p x n z s y fs t} : y.color = .black →
      EraseFix (⟨d, c, p, join d .black (join d .red x n z) s y⟩ :: fs) t
        (plug fs (join d c (join d .black t p x) n (join d .black z s y)))
  | outer {d c p x s l b r fs t} :
      EraseFix (⟨d, c, p, join d .black x s (node .red l b r)⟩ :: fs) t
        (plug fs (join d c (join d .black t p x) s (node .black l b r)))

theorem redSibling_step {s : α} {fs : Ctx α}
    (hok : Ok (⟨d, .black, p, join d .red x s y⟩ :: fs) n) :
    Ok (⟨d, .red, p, x⟩ :: ⟨d, .black, s, y⟩ :: fs) n ∧
      ∀ t, (plug (⟨d, .red, p, x⟩ :: ⟨d, .black, s, y⟩ :: fs) t).inorder =
        (plug (⟨d, .black, p, join d .red x s y⟩ :: fs) t).inorder := by
  obtain ⟨hs, -, hok⟩ := hok
  obtain ⟨m, hm, hx, hy, hxy⟩ := balanced_join.mp hs
  obtain rfl : n = m := hm
  refine ⟨⟨hx, fun _ => ⟨(hxy rfl).1, rfl⟩, hy, nofun, hok⟩, fun t => ?_⟩
  rw [inorder_plug, inorder_plug]
  cases d <;> simp [join, inorder, before, after]

theorem blackParent_step {s : α} {t : CTree α} {fs : Ctx α}
    (hx : x.color = .black) (hy : y.color = .black) (ht : t.Balanced n)
    (hok : Ok (⟨d, .black, p, join d .black x s y⟩ :: fs) (n + 1)) :
    (join d .black t p (join d .red x s y)).Balanced (n + 1) ∧ Ok fs (n + 1 + 1) ∧
      (plug fs (join d .black t p (join d .red x s y))).inorder =
        (plug (⟨d, .black, p, join d .black x s y⟩ :: fs) t).inorder := by
  obtain ⟨hs, -, hok⟩ := hok
  obtain ⟨m, hm, hxb, hyb, -⟩ := balanced_join.mp hs
  obtain rfl : n = m := Nat.succ.inj hm
  have hs' : (join d .red x s y).Balanced n :=
    balanced_join.mpr ⟨n, rfl, hxb, hyb, fun _ => ⟨hx, hy⟩⟩
  refine ⟨balanced_join.mpr ⟨n, rfl, ht, hs', nofun⟩, hok, ?_⟩
  rw [inorder_plug, inorder_plug]
  cases d <;> simp [join, inorder, before, after]

theorem EraseFix.valid {fs : Ctx α} {t : CTree α} (h : EraseFix fs t T) : ∀ {n : ℕ},
    t.color = .black → t.Balanced n → Ok fs (n + 1) →
    T.Valid ∧ T.inorder = before fs ++ t.inorder ++ after fs := by
  induction h with
  | root =>
    intro n hc ht _
    exact ⟨⟨hc, n, ht⟩, by simp [before, after]⟩
  | redSibling _ ih =>
    intro n hc ht hok
    obtain ⟨hok', hord⟩ := redSibling_step hok
    obtain ⟨hT, hord'⟩ := ih hc ht hok'
    rw [← inorder_plug] at hord' ⊢
    exact ⟨hT, hord'.trans (hord _)⟩
  | @redParent d p x s y fs t hxc hyc =>
    rintro n hc ht ⟨hs, -, hok⟩
    obtain ⟨m, hm, hx, hy, -⟩ := balanced_join.mp hs
    obtain rfl : n = m := Nat.succ.inj hm
    have hs' : (join d .red x s y).Balanced n :=
      balanced_join.mpr ⟨n, rfl, hx, hy, fun _ => ⟨hxc, hyc⟩⟩
    refine ⟨plug_valid hok
      (balanced_join.mpr ⟨n, rfl, ht, hs', nofun⟩) ?_, ?_⟩
    · intro h
      rw [color_join] at h
      exact absurd h (by decide)
    · rw [inorder_plug]
      cases d <;> simp [join, inorder, before, after]
  | blackParent hxc hyc _ ih =>
    intro n _ ht hok
    obtain ⟨hbal, hok', hord⟩ := blackParent_step hxc hyc ht hok
    obtain ⟨hT, hord'⟩ := ih (color_join _ _ _ _ _) hbal hok'
    rw [← inorder_plug] at hord' ⊢
    exact ⟨hT, hord'.trans hord⟩
  | @inner d c p x n' z s y fs t hyc =>
    rintro n hc ht ⟨hs, hcs, hok⟩
    obtain ⟨m, hm, hxz, hy, -⟩ := balanced_join.mp hs
    obtain rfl : n = m := Nat.succ.inj hm
    obtain ⟨k, hk, hx, hz, hcxz⟩ := balanced_join.mp hxz
    obtain rfl : n = k := hk
    have hp : (join d .black t p x).Balanced (n + 1) :=
      balanced_join.mpr ⟨n, rfl, ht, hx, nofun⟩
    have hq : (join d .black z s y).Balanced (n + 1) :=
      balanced_join.mpr ⟨n, rfl, hz, hy, nofun⟩
    refine ⟨plug_valid hok (balanced_join.mpr ⟨n + 1, rfl, hp, hq,
      fun _ => ⟨color_join _ _ _ _ _, color_join _ _ _ _ _⟩⟩) ?_, ?_⟩
    · intro h
      rw [color_join] at h
      exact (hcs h).2
    · rw [inorder_plug]
      cases d <;> simp [join, inorder, before, after]
  | @outer d c p x s l b r fs t =>
    rintro n hc ht ⟨hs, hcs, hok⟩
    obtain ⟨m, hm, hx, ⟨k, hk, hl, hr, -⟩, -⟩ := balanced_join.mp hs
    obtain rfl : n = m := Nat.succ.inj hm
    obtain rfl : n = k := hk
    have hp : (join d .black t p x).Balanced (n + 1) :=
      balanced_join.mpr ⟨n, rfl, ht, hx, nofun⟩
    have hq : (node .black l b r).Balanced (n + 1) := ⟨n, rfl, hl, hr, nofun⟩
    refine ⟨plug_valid hok (balanced_join.mpr ⟨n + 1, rfl, hp, hq,
      fun _ => ⟨color_join _ _ _ _ _, rfl⟩⟩) ?_, ?_⟩
    · intro h
      rw [color_join] at h
      exact (hcs h).2
    · rw [inorder_plug]
      cases d <;> simp [join, inorder, before, after]

theorem only_child {c : Color} {t : CTree α} {a : α}
    (h : (join d c nil a t).Balanced n) (ht : t ≠ nil) : t.color = .red ∧ c = .black := by
  obtain ⟨m, -, hm, htb, hc⟩ := balanced_join.mp h
  obtain rfl : m = 0 := hm
  rcases t with _ | ⟨ct, l, b, r⟩
  · exact absurd rfl ht
  obtain ⟨k, hk, -⟩ := htb
  cases ct with
  | black => exact absurd hk.symm (Nat.succ_ne_zero k)
  | red =>
    refine ⟨rfl, ?_⟩
    cases c with
    | black => rfl
    | red => exact absurd (hc rfl).2 (by simp [color])

/-- A node of the given colour with the only child `t` leaves the tree. -/
inductive Unlink : Ctx α → Color → CTree α → CTree α → Prop
  | child {fs l b r} : Unlink fs .black (node .red l b r) (plug fs (node .black l b r))
  | red {fs} : Unlink fs .red nil (plug fs nil)
  | black {fs T} : EraseFix fs nil T → Unlink fs .black nil T

theorem Unlink.valid {fs : Ctx α} {c : Color} {t : CTree α} (h : Unlink fs c t T)
    (ht : t.Balanced n) (hok : Ok fs (n + c.weight)) :
    T.Valid ∧ T.inorder = before fs ++ t.inorder ++ after fs := by
  cases h with
  | child =>
    obtain ⟨m, hm, hl, hr, -⟩ := ht
    obtain rfl : n = m := hm
    refine ⟨plug_valid hok ⟨n, rfl, hl, hr, nofun⟩ ?_, inorder_plug _ _⟩
    exact fun h => absurd h (by simp [color])
  | red => exact ⟨plug_valid hok ht fun h => absurd h (by simp [color]), inorder_plug _ _⟩
  | black h => exact h.valid rfl ht hok

/-- **The place of a removal**: to remove the root of a subtree, a node of the given colour with an only
child is unlinked. This is the root itself if it has at most one child, and else its successor `s`, from
the left end `gs` of the right subtree, which takes its place. -/
inductive Vacates : Ctx α → CTree α → Ctx α → Color → CTree α → Prop
  | noLeft {fs c a r} : Vacates fs (node c nil a r) fs c r
  | noRight {fs c l a} : Vacates fs (node c l a nil) fs c l
  | successor {fs gs c l a c' s r} : (∀ g ∈ gs, g.side = .left) →
      Vacates fs (node c l a (plug gs (node c' nil s r))) (gs ++ ⟨.right, c, s, l⟩ :: fs) c' r

theorem before_lefts {gs fs : Ctx α} (h : ∀ g ∈ gs, g.side = .left) :
    before (gs ++ fs) = before fs := by
  induction gs with
  | nil => rfl
  | cons g gs ih =>
    rw [List.cons_append, before, h g List.mem_cons_self]
    exact ih fun g' hg' => h g' (List.mem_cons_of_mem g hg')

theorem after_append : ∀ gs fs : Ctx α, after (gs ++ fs) = after gs ++ after fs
  | [], _ => rfl
  | ⟨.left, c, a, y⟩ :: gs, fs => by simp [after, after_append gs fs]
  | ⟨.right, c, a, y⟩ :: gs, fs => by simp [after, after_append gs fs]

namespace Vacates

variable {fs gs : Ctx α} {c c' : Color} {l r t : CTree α} {a : α}

theorem balanced (h : Vacates fs (node c l a r) gs c' t) (hv : (plug fs (node c l a r)).Valid) :
    (∃ m, t.Balanced m ∧ Ok gs (m + c'.weight)) ∧ (t ≠ nil → t.color = .red ∧ c' = .black) := by
  cases h with
  | noLeft =>
    obtain ⟨_, hok, hbal, -⟩ := valid_plug hv
    obtain ⟨m, rfl, -, hr, -⟩ := id hbal
    exact ⟨⟨m, hr, hok⟩, only_child (d := .left) hbal⟩
  | noRight =>
    obtain ⟨_, hok, hbal, -⟩ := valid_plug hv
    obtain ⟨m, rfl, hl, -, -⟩ := id hbal
    exact ⟨⟨m, hl, hok⟩, only_child (d := .right) hbal⟩
  | @successor gs _ _ _ _ s _ hgs =>
    have hv' : (plug (gs ++ ⟨.right, c, a, l⟩ :: fs) (node c' nil s t)).Valid := by
      rw [plug_append]
      exact hv
    obtain ⟨_, hok, hbal, -⟩ := valid_plug hv'
    obtain ⟨m, rfl, -, hr, -⟩ := id hbal
    exact ⟨⟨m, hr, hok.replace s⟩, only_child (d := .left) hbal⟩

theorem order (h : Vacates fs (node c l a r) gs c' t) :
    before gs ++ t.inorder ++ after gs = before fs ++ (l.inorder ++ r.inorder) ++ after fs := by
  cases h with
  | noLeft => simp [inorder]
  | noRight => simp [inorder]
  | @successor gs _ _ _ _ s _ hgs =>
    have hb : before gs = [] := by
      rw [← List.append_nil gs, before_lefts hgs, before]
    rw [before_lefts hgs, after_append, inorder_plug, hb]
    simp [before, after, inorder]

theorem perm (h : Vacates fs (node c l a r) gs c' t) :
    (plug fs (node c l a r)).inorder.Perm (a :: (t.inorder ++ elems gs)) := by
  refine .trans ?_ (.cons a (inorder_plug_perm gs t))
  rw [inorder_plug gs t, h.order, inorder_plug, inorder]
  simp only [List.append_assoc, List.cons_append]
  exact (List.perm_middle.append_left _).trans List.perm_middle

end Vacates

end OsHonor.Base.RedBlack
