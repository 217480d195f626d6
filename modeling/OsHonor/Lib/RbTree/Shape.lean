import OsHonor.Lib.RbTree.Code

/-! # What a heap holds

`Rep h q t` says that the nodes of the tree `t` stand in the heap, under the parent `q`: every colour,
every child and every stored parent is that of `t`. `RepCtx h fs p` says the same of a context whose
hole holds the pointer `p`. `Holds h T` is the whole tree at the root. -/

namespace OsHonor.Lib.RbTree

open Base.RedBlack Base.RedBlack.CTree Base.RedBlack.Ctx

/-! ### Words -/

/-- The address of a node leaves the last two bits to the colour. -/
def Aligned (p : Word) : Prop := p &&& 3#64 = 0#64

theorem aligned_zero : Aligned 0#64 := rfl

theorem parentOf_or {p : Word} (hp : Aligned p) (c : Color) : parentOf (p ||| word c) = p := by
  have h1 : word c &&& ~~~3#64 = 0#64 := by cases c <;> rfl
  have h2 : p &&& ~~~3#64 = p := by
    have h3 : (p &&& 3#64) ||| (p &&& ~~~3#64) = p := by
      rw [← BitVec.and_or_distrib_left, BitVec.or_not_self, BitVec.and_allOnes]
    rw [hp, BitVec.zero_or] at h3
    exact h3
  rw [parentOf, BitVec.and_or_distrib_right, h1, h2, BitVec.or_zero]

theorem colorOf_or {p : Word} (hp : Aligned p) (c : Color) : colorOf (p ||| word c) = word c := by
  have h1 : word c &&& 1#64 = word c := by cases c <;> rfl
  have h2 : p &&& 1#64 = 0#64 := by
    have h3 : 3#64 &&& 1#64 = 1#64 := rfl
    rw [← h3, ← BitVec.and_assoc, hp, BitVec.zero_and]
  rw [colorOf, BitVec.and_or_distrib_right, h1, h2, BitVec.zero_or]

theorem isBlack_or {p : Word} (hp : Aligned p) (c : Color) :
    isBlack (p ||| word c) = decide (c = .black) := by
  rw [isBlack, colorOf_or hp]
  cases c <;> rfl

theorem or_red (p : Word) : p ||| word .red = p := BitVec.or_zero

/-! ### Writes -/

section Writes

variable (h : Heap) (d e : Side) (n w b p : Word)

@[simp] theorem setParentColor_parentColor :
    (h.setParentColor n w).parentColor b = if b = n then w else h.parentColor b :=
  Function.update_apply _ _ _ _

@[simp] theorem setParentColor_child : (h.setParentColor n w).child = h.child := rfl

@[simp] theorem setParentColor_root : (h.setParentColor n w).root = h.root := rfl

@[simp] theorem setChild_child :
    (h.setChild d n w).child e b = if e = d ∧ b = n then w else h.child e b := by
  unfold Heap.setChild
  by_cases he : e = d
  · subst he
    simp [Function.update_apply]
  · simp [he]

@[simp] theorem setChild_parentColor : (h.setChild d n w).parentColor = h.parentColor := rfl

@[simp] theorem setChild_root : (h.setChild d n w).root = h.root := rfl

@[simp] theorem setRoot_child : (h.setRoot w).child = h.child := rfl

@[simp] theorem setRoot_parentColor : (h.setRoot w).parentColor = h.parentColor := rfl

@[simp] theorem setRoot_root : (h.setRoot w).root = w := rfl

@[simp] theorem adopt_child : (adopt h n p).child = h.child := by
  unfold adopt
  split_ifs <;> rfl

@[simp] theorem adopt_root : (adopt h n p).root = h.root := by
  unfold adopt
  split_ifs <;> rfl

@[simp] theorem adopt_parentColor :
    (adopt h n p).parentColor b = if b = n ∧ n ≠ 0#64 then p ||| word .black else h.parentColor b := by
  unfold adopt rbSetParentColor
  by_cases hn : n = 0#64 <;> simp [hn]

@[simp] theorem reparent_child : (reparent h n p).child = h.child := by
  unfold reparent
  split_ifs <;> rfl

@[simp] theorem reparent_root : (reparent h n p).root = h.root := by
  unfold reparent
  split_ifs <;> rfl

@[simp] theorem reparent_parentColor : (reparent h n p).parentColor b =
    if b = n ∧ n ≠ 0#64 then colorOf (h.parentColor n) ||| p else h.parentColor b := by
  unfold reparent rbSetParent
  by_cases hn : n = 0#64 <;> simp [hn]

end Writes

/-! ### Trees in the heap -/

def ptr : CTree Word → Word
  | nil => 0#64
  | node _ _ a _ => a

def above : Ctx Word → Word
  | [] => 0#64
  | f :: _ => f.elem

/-- **The tree `t` stands in the heap**, under the parent `q`. -/
def Rep (h : Heap) : Word → CTree Word → Prop
  | _, nil => True
  | q, node c l a r => h.parentColor a = q ||| word c ∧ h.child .left a = ptr l ∧
      h.child .right a = ptr r ∧ Rep h a l ∧ Rep h a r

/-- The context `fs` stands in the heap, around the pointer `p`. -/
def RepCtx (h : Heap) : Ctx Word → Word → Prop
  | [], p => h.root = p
  | f :: fs, p => h.parentColor f.elem = above fs ||| word f.color ∧ h.child f.side f.elem = p ∧
      h.child f.side.other f.elem = ptr f.other ∧ Rep h f.elem f.other ∧ RepCtx h fs f.elem

/-- **The heap holds the tree `T`.** -/
def Holds (h : Heap) (T : CTree Word) : Prop := h.root = ptr T ∧ Rep h 0#64 T

def Sound (l : List Word) : Prop := l.Nodup ∧ ∀ a ∈ l, a ≠ 0#64 ∧ Aligned a

@[simp] theorem ptr_nil : ptr nil = 0#64 := rfl

@[simp] theorem ptr_node (c : Color) (l : CTree Word) (a : Word) (r : CTree Word) :
    ptr (node c l a r) = a := rfl

@[simp] theorem above_cons (f : Frame Word) (fs : Ctx Word) : above (f :: fs) = f.elem := rfl

@[simp] theorem ptr_join (d : Side) (c : Color) (x : CTree Word) (a : Word) (y : CTree Word) :
    ptr (join d c x a y) = a := by cases d <;> rfl

@[simp] theorem ptr_paint (c : Color) : ∀ t : CTree Word, ptr (t.paint c) = ptr t
  | nil => rfl
  | node _ _ _ _ => rfl

@[simp] theorem ptr_fill (f : Frame Word) (t : CTree Word) : ptr (f.fill t) = f.elem := ptr_join _ _ _ _ _

variable {q old : Word} {c : Color} {t u : CTree Word} {l : List Word} {fs : Ctx Word} {h' : Heap}

theorem rep_join {h : Heap} {d : Side} {x y : CTree Word} {a : Word} :
    Rep h q (join d c x a y) ↔ h.parentColor a = q ||| word c ∧ h.child d a = ptr x ∧
      h.child d.other a = ptr y ∧ Rep h a x ∧ Rep h a y := by
  cases d
  · rfl
  · simp only [join, Rep, Side.other]
    tauto

theorem ptr_eq_zero_or_mem : ∀ t : CTree Word, ptr t = 0#64 ∨ ptr t ∈ t.inorder
  | nil => Or.inl rfl
  | node _ _ _ _ => Or.inr (by simp [ptr, inorder])

theorem ptr_mem (ht : t ≠ nil) : ptr t ∈ t.inorder := by
  cases t with
  | nil => exact absurd rfl ht
  | node c l a r => simp [inorder]

theorem Sound.perm {l' : List Word} (h : Sound l) (hp : l.Perm l') : Sound l' :=
  ⟨hp.nodup_iff.mp h.1, fun a ha => h.2 a (hp.mem_iff.mpr ha)⟩

theorem Sound.aligned_above (h : Sound (l ++ elems fs)) : Aligned (above fs) := by
  rcases fs with _ | ⟨f, fs⟩
  · exact aligned_zero
  · exact (h.2 f.elem (by simp [elems])).2

theorem Sound.disjoint {l' : List Word} (h : Sound (l ++ l')) {b : Word} (hb : b ∈ l') : b ∉ l :=
  fun hb' => (List.nodup_append.mp h.1).2.2 b hb' b hb rfl

theorem Sound.ptr_ne_zero (h : Sound l) (ht : t ≠ nil)
    (hmem : ∀ b ∈ t.inorder, b ∈ l) : ptr t ≠ 0#64 := (h.2 _ (hmem _ (ptr_mem ht))).1

theorem Sound.ne_ptr (h : Sound l) {b : Word} (hb : b ∈ l) (ht : b ∉ t.inorder) : b ≠ ptr t := by
  rintro rfl
  rcases ptr_eq_zero_or_mem t with hz | hm
  · exact (h.2 _ hb).1 hz
  · exact ht hm

theorem above_eq_zero_or_mem : ∀ fs : Ctx Word, above fs = 0#64 ∨ above fs ∈ elems fs
  | [] => Or.inl rfl
  | _ :: _ => Or.inr (by simp [above, elems])

theorem holds_plug {h : Heap} : ∀ {fs : Ctx Word} {t : CTree Word},
    Holds h (plug fs t) ↔ RepCtx h fs (ptr t) ∧ Rep h (above fs) t
  | [], _ => Iff.rfl
  | f :: fs, t => by
    rw [plug, holds_plug, ptr_fill, Frame.fill, rep_join, RepCtx, above]
    tauto

def Agree (h h' : Heap) (b : Word) : Prop :=
  h'.parentColor b = h.parentColor b ∧ ∀ d, h'.child d b = h.child d b

/-! ### The tests of the program -/

theorem side_eq {h : Heap} {d : Side} {p g : Word}
    (hp : h.child d g = p) (hu : h.child d.other g = ptr u) (hpu : p ≠ ptr u) :
    (if p ≠ h.child .right g then Side.left else .right) = d := by
  cases d with
  | left => rw [if_pos]; rwa [show h.child .right g = ptr u from hu]
  | right => rw [if_neg]; exact fun hne => hne hp.symm

theorem red_test {h : Heap} (hu : Rep h q u) (hq : Aligned q) (hs : ∀ b ∈ u.inorder, b ≠ 0#64) :
    (ptr u ≠ 0#64 ∧ rbIsRed h (ptr u) = true) ↔ u.color = .red := by
  cases u with
  | nil => simp [color]
  | node c l a r =>
    have ha := hs a (by simp [inorder])
    simp only [ptr_node, rbIsRed, rbIsBlack, hu.1, isBlack_or hq, color]
    cases c <;> simp [ha]

theorem black_test {h : Heap} (hu : Rep h q u) (hq : Aligned q) (hs : ∀ b ∈ u.inorder, b ≠ 0#64) :
    (ptr u = 0#64 ∨ rbIsBlack h (ptr u) = true) ↔ u.color = .black := by
  have hred := red_test hu hq hs
  rw [rbIsRed, Bool.not_eq_true'] at hred
  cases hc : u.color with
  | red =>
    obtain ⟨h0, hb⟩ := hred.mpr hc
    simp [h0, hb]
  | black =>
    rw [hc] at hred
    simp only [reduceCtorEq, iff_false, not_and, Bool.not_eq_false] at hred
    simpa using or_iff_not_imp_left.mpr hred

/-! ### Changes -/

/-- **The frame**: a tree does not depend on other nodes. -/
theorem Rep.frame {h : Heap} : ∀ {t : CTree Word} {q : Word}, Rep h q t →
    (∀ b ∈ t.inorder, Agree h h' b) → Rep h' q t
  | nil, _, _, _ => trivial
  | node c l a r, q, ⟨hc, hl, hr, hrl, hrr⟩, hag => by
    obtain ⟨hpc, hch⟩ := hag a (by simp [inorder])
    refine ⟨hpc.trans hc, (hch _).trans hl, (hch _).trans hr, hrl.frame ?_, hrr.frame ?_⟩
    · exact fun b hb => hag b (by simp [inorder, hb])
    · exact fun b hb => hag b (by simp [inorder, hb])

theorem Rep.move {h : Heap} {q' : Word} : ∀ {t : CTree Word}, Rep h q t →
    t.inorder.Nodup → (∀ b ∈ t.inorder, b ≠ ptr t → Agree h h' b) →
    (t ≠ nil → h'.parentColor (ptr t) = q' ||| word c ∧ ∀ d, h'.child d (ptr t) = h.child d (ptr t)) →
    Rep h' q' (t.paint c)
  | nil, _, _, _, _ => trivial
  | node c' l a r, ⟨_, hl, hr, hrl, hrr⟩, hnd, hag, hroot => by
    obtain ⟨hpc, hch⟩ := hroot (by simp)
    simp only [inorder, List.nodup_append, List.nodup_cons, List.mem_cons, forall_eq_or_imp] at hnd
    refine ⟨hpc, (hch _).trans hl, (hch _).trans hr, hrl.frame ?_, hrr.frame ?_⟩
    · exact fun b hb => hag b (by simp [inorder, hb]) (hnd.2.2 b hb).1
    · exact fun b hb => hag b (by simp [inorder, hb]) fun he => hnd.2.1.1 ((show b = a from he) ▸ hb)

theorem RepCtx.frame {h : Heap} : ∀ {fs : Ctx Word} {p : Word}, RepCtx h fs p →
    h'.root = h.root → (∀ b ∈ elems fs, Agree h h' b) → RepCtx h' fs p
  | [], _, hp, hroot, _ => hroot.trans hp
  | f :: fs, p, ⟨hc, hp, ho, hro, hfs⟩, hroot, hag => by
    obtain ⟨hpc, hch⟩ := hag f.elem (by simp [elems])
    refine ⟨hpc.trans hc, (hch _).trans hp, (hch _).trans ho, hro.frame ?_, hfs.frame hroot ?_⟩
    · exact fun b hb => hag b (by simp [elems, hb])
    · exact fun b hb => hag b (by simp [elems, hb])

/-- **`__rb_change_child`**: the hole holds the new pointer. -/
theorem RepCtx.changeChild {h : Heap} {w : Word} : ∀ {fs : Ctx Word}, RepCtx h fs old →
    Sound (elems fs) → old ≠ 0#64 → old ∉ elems fs →
    RepCtx (rbChangeChild h old w (above fs)) fs w ∧
      ∀ b, b ≠ above fs → Agree h (rbChangeChild h old w (above fs)) b
  | [], _, _, _, _ => by
    simp [rbChangeChild, above, RepCtx, Agree]
  | ⟨d, c, a, y⟩ :: fs, ⟨hc, hp, ho, hro, hfs⟩, hs, hne, hmem => by
    have ha : a ≠ 0#64 := (hs.2 a (by simp [elems])).1
    have hw : rbChangeChild h old w a = h.setChild d a w := by
      rw [rbChangeChild, if_pos ha]
      cases d with
      | left => rw [if_pos hp]
      | right =>
        rw [if_neg]
        intro he
        rw [show h.child .left a = ptr y from ho] at he
        rcases ptr_eq_zero_or_mem y with hz | hm
        · exact hne (he.symm.trans hz)
        · exact hmem (by simp [elems, ← he, hm])
    have hnd := hs.1
    simp only [elems, List.nodup_cons, List.mem_append, not_or] at hnd
    rw [above, hw]
    refine ⟨⟨hc, by simp, by simpa using ho, hro.frame ?_, hfs.frame rfl ?_⟩, ?_⟩
    · intro b hb
      refine ⟨rfl, fun e => ?_⟩
      rw [setChild_child, if_neg]
      rintro ⟨-, rfl⟩
      exact hnd.1.1 hb
    · intro b hb
      refine ⟨rfl, fun e => ?_⟩
      rw [setChild_child, if_neg]
      rintro ⟨-, rfl⟩
      exact hnd.1.2 hb
    · intro b hb
      refine ⟨rfl, fun e => ?_⟩
      rw [setChild_child, if_neg]
      exact fun hh => hb hh.2

theorem holds_changeChild {h : Heap} {w : Word}
    (hfs : RepCtx h fs old) (ht : Rep h (above fs) t) (hw : ptr t = w) (hold : old ≠ 0#64)
    (hmem : old ∉ elems fs) (hs : Sound (t.inorder ++ elems fs)) :
    Holds (rbChangeChild h old w (above fs)) (plug fs t) := by
  subst hw
  obtain ⟨hnd, hal⟩ := hs
  obtain ⟨-, hndf, hdis⟩ := List.nodup_append.mp hnd
  obtain ⟨hctx, hag⟩ := hfs.changeChild (w := ptr t) ⟨hndf, fun a ha => hal a (by simp [ha])⟩ hold hmem
  refine holds_plug.mpr ⟨hctx, ht.frame fun b hb => hag b ?_⟩
  rintro rfl
  rcases above_eq_zero_or_mem fs with hz | hm
  · exact (hal _ (List.mem_append_left _ hb)).1 hz
  · exact hdis _ hb _ hm rfl

/-- **`__rb_rotate_set_parents`**, when everything but the two words and the link from above is in
place. -/
theorem holds_rotate {h k : Heap} {w : Word} {c' : Color}
    (hold : h.parentColor old = above fs ||| word c)
    (hk : k = (h.setParentColor w (above fs ||| word c)).setParentColor old (w ||| word c'))
    (hfs : RepCtx k fs old) (ht : Rep k (above fs) t) (hw : ptr t = w) (hmem : old ∈ t.inorder)
    (hs : Sound (t.inorder ++ elems fs)) : Holds (rbRotateSetParents h old w c') (plug fs t) := by
  have heq : rbRotateSetParents h old w c' = rbChangeChild k old w (above fs) := by
    simp only [rbRotateSetParents, rbParent, hold, parentOf_or hs.aligned_above, hk, rbSetParentColor]
  rw [heq]
  refine holds_changeChild hfs ht hw (hs.2 old (by simp [hmem])).1 ?_ hs
  exact fun hb => hs.disjoint hb hmem

end OsHonor.Lib.RbTree
