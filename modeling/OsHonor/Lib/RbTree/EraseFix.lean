import OsHonor.Lib.RbTree.Insert

/-! # The repair after a removal follows the rules

`rbEraseFixLoop` takes a heap that holds a tree with a subtree that lacks a black node to one that holds
the tree that `EraseFix` gives: `eraseFixLoop_holds`. -/

namespace OsHonor.Lib.RbTree

open Base.RedBlack Base.RedBlack.CTree Base.RedBlack.Ctx

variable {c : Color} {x y t : CTree Word} {fs : Ctx Word}

theorem eraseRotate_holds {h : Heap} {d : Side} {p s q w : Word} (hp : h.parentColor p = above fs ||| word c) (hpt : h.child d p = ptr t)
    (ht : Rep h p t) (hsx : h.child d s = ptr x) (hx : Rep h q x) (hq : Aligned q)
    (hsy : h.child d.other s = ptr y) (hy : Rep h w y) (hyn : y ≠ nil) (hfs : RepCtx h fs p)
    (hsd : Sound (p :: s :: (x.inorder ++ y.inorder) ++ (t.inorder ++ elems fs))) :
    Holds (eraseRotate h d p s (ptr y))
      (plug fs (join d c (join d .black t p x) s (y.paint .black))) := by
  have hne := hsd.1
  simp only [List.cons_append, List.nodup_cons, List.mem_cons, List.mem_append, not_or] at hne
  obtain ⟨⟨hps, ⟨hpx, hpy⟩, -⟩, ⟨⟨hsx', hsy'⟩, -⟩, hnd⟩ := hne
  obtain ⟨hndx, hndy, hxy⟩ := List.nodup_append.mp (List.nodup_append.mp hnd).1
  have hpx' : p ≠ ptr x := hsd.ne_ptr (by simp) hpx
  have hsx'' : s ≠ ptr x := hsd.ne_ptr (by simp) hsx'
  have hpy' : p ≠ ptr y := hsd.ne_ptr (by simp) hpy
  have hsy'' : s ≠ ptr y := hsd.ne_ptr (by simp) hsy'
  have hyx : ptr y ≠ ptr x := by
    refine hsd.ne_ptr (by simp [ptr_mem hyn]) fun hb => hxy _ hb _ (ptr_mem hyn) rfl
  let h0 := ((reparent (h.setChild d.other p (ptr x)) (ptr x) p).setChild d s p).setParentColor (ptr y)
    (s ||| word .black)
  let h1 := (h0.setParentColor s (above fs ||| word c)).setParentColor p (s ||| word .black)
  have hoff : ∀ b, b ≠ p → b ≠ s → b ≠ ptr x → b ≠ ptr y → Agree h h1 b := by
    intro b hbp hbs hbx hby
    simp [Agree, h1, h0, hbp, hbs, hbx, hby]
  have hrest : ∀ b ∈ t.inorder ++ elems fs, Agree h h1 b := by
    intro b hb
    have hb' := hsd.disjoint hb
    simp only [List.mem_cons, List.mem_append, not_or] at hb'
    have hb0 := List.mem_append_right (p :: s :: (x.inorder ++ y.inorder)) hb
    exact hoff b hb'.1 hb'.2.1 (hsd.ne_ptr hb0 hb'.2.2.1) (hsd.ne_ptr hb0 hb'.2.2.2)
  have hx' : Rep h1 p x := by
    have hmv : Rep h1 p (x.paint x.color) := by
      refine hx.move hndx ?_ ?_
      · intro b hb hbx
        refine hoff b (ne_of_mem_of_not_mem hb hpx) (ne_of_mem_of_not_mem hb hsx') hbx ?_
        exact hsd.ne_ptr (by simp [hb]) fun hb' => hxy b hb b hb' rfl
      · intro hnil
        have hx0 := hsd.ptr_ne_zero hnil (by simp +contextual)
        have hxc : colorOf (h.parentColor (ptr x)) = word x.color := by
          cases x with
          | nil => exact absurd rfl hnil
          | node c l a r => rw [ptr_node, hx.1, colorOf_or hq]; rfl
        simp [h1, h0, hpx'.symm, hsx''.symm, hyx.symm, hx0, hxc, BitVec.or_comm]
    rwa [paint_color] at hmv
  have hy' : Rep h1 s (y.paint .black) := by
    refine hy.move hndy ?_ ?_
    · intro b hb hby
      refine hoff b (ne_of_mem_of_not_mem hb hpy) (ne_of_mem_of_not_mem hb hsy') ?_ hby
      exact hsd.ne_ptr (by simp [hb]) fun hb' => hxy b hb' b hb rfl
    · intro _
      simp [h1, h0, hpy'.symm, hsy''.symm]
  have hperm : (p :: s :: (x.inorder ++ y.inorder) ++ (t.inorder ++ elems fs)).Perm
      ((join d c (join d .black t p x) s (y.paint .black)).inorder ++ elems fs) := by
    rw [List.perm_iff_count]
    intro b
    simp only [List.cons_append, List.count_cons, List.count_append, count_inorder_join, inorder_paint]
    omega
  have heq : eraseRotate h d p s (ptr y) = rbRotateSetParents h0 p s .black := by
    simp only [eraseRotate, hsx, rbSetParentColor, h0]
  rw [heq]
  refine holds_rotate (h := h0) (k := h1) (c := c) ?_ rfl (hfs.frame ?_ ?_) ?_ (ptr_join _ _ _ _ _)
    (by simp [mem_inorder_join]) (hsd.perm hperm)
  · simpa [h0, hpy', hpx'] using hp
  · simp [h1, h0]
  · exact fun b hb => hrest b (by simp [hb])
  · refine rep_join.mpr ⟨by simp [h1, Ne.symm hps], by simp [h1, h0], ?_,
      rep_join.mpr ⟨by simp [h1], ?_, ?_, ht.frame fun b hb => hrest b (by simp [hb]), hx'⟩, hy'⟩
    · simpa [h1, h0, Ne.symm hps] using hsy
    · simpa [h1, h0, hps] using hpt
    · simp [h1, h0]

theorem eraseInner_holds {h : Heap} {d : Side} {p n s : Word} {z : CTree Word}
    (hctx : RepCtx h (⟨d, c, p, join d .black (join d .red x n z) s y⟩ :: fs) (ptr t)) (ht : Rep h p t)
    (hzc : z.color = .black)
    (hsd : Sound (n :: p :: s :: z.inorder ++ (x.inorder ++ (y.inorder ++ (t.inorder ++ elems fs))))) :
    Holds (eraseRotate (eraseInner h d p s n) d p n s)
      (plug fs (join d c (join d .black t p x) n (join d .black z s y))) := by
  obtain ⟨hp, hpt, -, hs, hfs⟩ := hctx
  obtain ⟨hsc, -, hsy, hn, hy⟩ := rep_join.mp hs
  obtain ⟨-, hnx, hnz, hx, hz⟩ := rep_join.mp hn
  have hne := hsd.1
  simp only [List.cons_append, List.nodup_cons, List.mem_cons, List.mem_append, not_or] at hne
  obtain ⟨⟨hnp, hns, hnz', -⟩, ⟨hps, hpz, -⟩, ⟨hsz, -⟩, hnd⟩ := hne
  have hnz'' : n ≠ ptr z := hsd.ne_ptr (by simp) hnz'
  have hpz' : p ≠ ptr z := hsd.ne_ptr (by simp) hpz
  have hsz' : s ≠ ptr z := hsd.ne_ptr (by simp) hsz
  let h1 := ((adopt (h.setChild d s (ptr z)) (ptr z) s).setChild d.other n s).setChild d.other p n
  have h1eq : eraseInner h d p s n = h1 := by
    simp only [eraseInner, hnz, h1]
  have hoff : ∀ b, b ≠ n → b ≠ p → b ≠ s → b ≠ ptr z → Agree h h1 b := by
    intro b hbn hbp hbs hbz
    simp [Agree, h1, hbn, hbp, hbs, hbz]
  have hrest : ∀ b ∈ x.inorder ++ (y.inorder ++ (t.inorder ++ elems fs)), Agree h h1 b := by
    intro b hb
    have hb' := hsd.disjoint hb
    simp only [List.mem_cons, not_or] at hb'
    exact hoff b hb'.1 hb'.2.1 hb'.2.2.1 (hsd.ne_ptr (List.mem_append_right _ hb) hb'.2.2.2)
  have hz' : Rep h1 s z := by
    rw [← paint_color z, hzc]
    refine hz.move (List.nodup_append.mp hnd).1 ?_ ?_
    · exact fun b hb hbz => hoff b (ne_of_mem_of_not_mem hb hnz') (ne_of_mem_of_not_mem hb hpz)
        (ne_of_mem_of_not_mem hb hsz) hbz
    · intro hnil
      have hz0 := hsd.ptr_ne_zero hnil (by simp +contextual)
      simp [h1, hz0, hnz''.symm, hpz'.symm, hsz'.symm]
  have hs' : Rep h1 p (join d .black z s y) := by
    refine rep_join.mpr ⟨?_, ?_, ?_, hz', hy.frame fun b hb => hrest b (by simp [hb])⟩
    · simpa [h1, hsz'] using hsc
    · simp [h1]
    · simpa [h1, Ne.symm hns, Ne.symm hps] using hsy
  have hrot : Holds (eraseRotate h1 d p n (ptr (join d .black z s y)))
      (plug fs (join d c (join d .black t p x) n ((join d .black z s y).paint .black))) := by
    refine eraseRotate_holds (q := n) (w := p) ?_ ?_ (ht.frame fun b hb => hrest b (by simp [hb])) ?_
      (hx.frame fun b hb => hrest b (by simp [hb])) (hsd.2 n (by simp)).2 ?_ hs'
      (by cases d <;> simp [join]) (hfs.frame (by simp [h1]) fun b hb => hrest b (by simp [hb]))
      (hsd.perm ?_)
    · simpa [h1, hpz'] using hp
    · simpa [h1, hps] using hpt
    · simpa [h1, hns] using hnx
    · simp [h1, hnp]
    · rw [List.perm_iff_count]
      intro b
      simp only [List.cons_append, List.count_cons, List.count_append, count_inorder_join]
      omega
  rw [ptr_join, paint_join] at hrot
  rwa [h1eq]

/-- Case 1 of `__rb_erase_fix` is the rotation of case 3 of `__rb_insert_fix`, on the other side. -/
theorem eraseRaise_eq {h : Heap} {d : Side} {p s a : Word} (ha : h.child d s = a) (ha0 : a ≠ 0#64) :
    eraseRaise h d p s = (insertRotate h d.other s p a, a) := by
  simp only [eraseRaise, insertRotate, adopt, ha, ne_eq, ha0, not_false_eq_true, if_true,
    Side.other_other]

theorem eraseRaise_holds {h : Heap} {d : Side} {p s : Word}
    (hctx : RepCtx h (⟨d, .black, p, join d .red x s y⟩ :: fs) (ptr t)) (ht : Rep h p t)
    (hxc : x.color = .black) (hx0 : ptr x ≠ 0#64)
    (hsd : Sound (s :: p :: x.inorder ++ (y.inorder ++ (t.inorder ++ elems fs)))) :
    ∃ h', eraseRaise h d p s = (h', ptr x) ∧
      Holds h' (plug (⟨d, .red, p, x⟩ :: ⟨d, .black, s, y⟩ :: fs) t) := by
  obtain ⟨hp, hpt, -, hs, hfs⟩ := hctx
  obtain ⟨-, hsx, hsy, hx, hy⟩ := rep_join.mp hs
  rw [← Side.other_other d] at hpt
  have hrot := insertRotate_holds hsy hy hx hxc hp hpt ht hfs hsd
  rw [join_other, join_other] at hrot
  exact ⟨_, eraseRaise_eq hsx hx0, hrot⟩

theorem eraseRecolor_rep {h : Heap} {d : Side} {p s : Word} (hctx : RepCtx h (⟨d, c, p, join d .black x s y⟩ :: fs) (ptr t)) (ht : Rep h p t)
    (hsd : Sound ([p, s] ++ (x.inorder ++ (y.inorder ++ (t.inorder ++ elems fs))))) :
    RepCtx (rbSetParentColor h s p .red) fs p ∧
      Rep (rbSetParentColor h s p .red) (above fs) (join d c t p (join d .red x s y)) := by
  obtain ⟨hp, hpt, hps, hs, hfs⟩ := hctx
  obtain ⟨-, hsx, hsy, hx, hy⟩ := rep_join.mp hs
  have hne := hsd.1
  simp only [List.cons_append, List.nodup_cons, List.mem_cons, not_or] at hne
  have hrest : ∀ b ∈ x.inorder ++ (y.inorder ++ (t.inorder ++ elems fs)),
      Agree h (rbSetParentColor h s p .red) b := by
    intro b hb
    have hb' := hsd.disjoint hb
    simp only [List.mem_cons, not_or] at hb'
    simp [Agree, rbSetParentColor, hb'.2.1]
  refine ⟨hfs.frame rfl fun b hb => hrest b (by simp [hb]), rep_join.mpr ⟨?_, hpt, ?_,
    ht.frame fun b hb => hrest b (by simp [hb]), rep_join.mpr ⟨?_, hsx, hsy,
    hx.frame fun b hb => hrest b (by simp [hb]), hy.frame fun b hb => hrest b (by simp [hb])⟩⟩⟩
  · simpa [rbSetParentColor, hne.1.1] using hp
  · rw [ptr_join]
    exact hps.trans (ptr_join _ _ _ _ _)
  · simp [rbSetParentColor]

theorem setBlack_holds {h : Heap} {d : Side} {a : Word}
    (hfs : RepCtx h fs a) (ht : Rep h (above fs) (join d .red x a y))
    (hsd : Sound ([a] ++ (x.inorder ++ (y.inorder ++ elems fs)))) :
    Holds (rbSetBlack h a) (plug fs (join d .black x a y)) := by
  obtain ⟨ha, hax, hay, hx, hy⟩ := rep_join.mp ht
  have hrest : ∀ b ∈ x.inorder ++ (y.inorder ++ elems fs), Agree h (rbSetBlack h a) b := by
    intro b hb
    have hb' := hsd.disjoint hb
    simp only [List.mem_cons, not_or] at hb'
    simp [Agree, rbSetBlack, hb'.1]
  refine holds_plug.mpr ⟨?_, rep_join.mpr ⟨?_, hax, hay, hx.frame fun b hb => hrest b (by simp [hb]),
    hy.frame fun b hb => hrest b (by simp [hb])⟩⟩
  · rw [ptr_join]
    exact hfs.frame rfl fun b hb => hrest b (by simp [hb])
  · simp [rbSetBlack, ha, or_red]

/-! ### The loop -/

/-- **The cases with a black sibling**: the tree is repaired, or the loop continues at the parent. -/
theorem eraseFixStep_holds {h : Heap} {d : Side} {p s : Word} {n : ℕ} (hh : Holds h (plug (⟨d, c, p, join d .black x s y⟩ :: fs) t))
    (hsd : Sound (plug (⟨d, c, p, join d .black x s y⟩ :: fs) t).inorder)
    (hbal : (join d .black x s y).Balanced n) : (∃ h' T, eraseFixStep h d p s = (h', none) ∧
      EraseFix (⟨d, c, p, join d .black x s y⟩ :: fs) t T ∧ Holds h' T) ∨
    (c = .black ∧ x.color = .black ∧ y.color = .black ∧ fs ≠ [] ∧
      ∃ h', eraseFixStep h d p s = (h', some (p, above fs)) ∧
        Holds h' (plug fs (join d .black t p (join d .red x s y)))) := by
  have hsd' := hsd.perm (inorder_plug_perm _ _)
  obtain ⟨hctx, ht⟩ := holds_plug.mp hh
  obtain ⟨hp, hpt, hps, hs, hfs⟩ := id hctx
  obtain ⟨hsc, hsx, hsy, hx, hy⟩ := rep_join.mp hs
  have hmem : ∀ b ∈ [p, s] ++ (x.inorder ++ y.inorder), b ≠ 0#64 ∧ Aligned b := by
    intro b hb
    refine hsd'.2 b ?_
    simp only [elems, List.mem_append, List.mem_cons, mem_inorder_join, List.not_mem_nil] at hb ⊢
    tauto
  have hsa : Aligned s := (hmem s (by simp)).2
  have hxt := black_test hx hsa fun b hb => (hmem b (by simp [hb])).1
  have hyt := black_test hy hsa fun b hb => (hmem b (by simp [hb])).1
  have hal : Aligned (above fs) := by
    refine Sound.aligned_above (l := t.inorder ++ p :: (join d .black x s y).inorder) ?_
    simpa [elems] using hsd'
  have hsd2 : Sound ([p, s] ++ (x.inorder ++ (y.inorder ++ (t.inorder ++ elems fs)))) := by
    refine hsd'.perm ?_
    rw [List.perm_iff_count]
    intro b
    simp only [elems, List.cons_append, List.nil_append, List.count_cons, List.count_append,
      count_inorder_join]
    omega
  simp only [eraseFixStep, hsy, hsx]
  by_cases hyc : y.color = .black
  · rw [if_pos (hyt.mpr hyc)]
    by_cases hxc : x.color = .black
    · rw [if_pos (hxt.mpr hxc)]
      obtain ⟨hfs', ht'⟩ := eraseRecolor_rep hctx ht hsd2
      have hpc := (rep_join.mp ht').1
      have hred : rbIsRed (rbSetParentColor h s p .red) p = !decide (c = .black) := by
        rw [rbIsRed, rbIsBlack, hpc, isBlack_or hal]
      rw [hred]
      cases c with
      | red =>
        refine Or.inl ⟨_, _, rfl, .redParent hxc hyc, setBlack_holds hfs' ht' (hsd2.perm ?_)⟩
        rw [List.perm_iff_count]
        intro b
        simp only [List.cons_append, List.nil_append, List.count_cons, List.count_append,
          count_inorder_join]
        omega
      | black =>
        have hpar : rbParent (rbSetParentColor h s p .red) p = above fs := by
          rw [rbParent, hpc, parentOf_or hal]
        have hh' := holds_plug.mpr ⟨(ptr_join d .black t p (join d .red x s y)).symm ▸ hfs', ht'⟩
        simp only [decide_true, Bool.not_true, Bool.false_eq_true, if_false, hpar]
        rcases fs with _ | ⟨f, fs⟩
        · exact Or.inl ⟨_, _, rfl, .blackParent hxc hyc .root, hh'⟩
        · have hf0 : f.elem ≠ 0#64 := (hsd'.2 f.elem (by simp [elems])).1
          exact Or.inr ⟨trivial, hxc, hyc, List.cons_ne_nil _ _, _, by rw [above_cons, if_pos hf0], hh'⟩
    · rw [if_neg (mt hxt.mp hxc)]
      obtain rfl | ⟨cx, x1, m, x2, rfl⟩ := eq_nil_or_join d x
      · exact absurd rfl hxc
      obtain rfl : cx = .red := by
        rw [color_join] at hxc
        cases cx with
        | red => rfl
        | black => exact absurd rfl hxc
      obtain ⟨k, -, hxb, -, -⟩ := balanced_join.mp hbal
      obtain ⟨-, -, -, -, hx12⟩ := balanced_join.mp hxb
      rw [ptr_join]
      refine Or.inl ⟨_, _, rfl, .inner hyc, eraseInner_holds hctx ht (hx12 rfl).2 (hsd2.perm ?_)⟩
      rw [List.perm_iff_count]
      intro b
      simp only [List.cons_append, List.nil_append, List.count_cons, List.count_append,
        count_inorder_join]
      omega
  · rw [if_neg (mt hyt.mp hyc)]
    rcases y with _ | ⟨cy, l, m, r⟩
    · exact absurd rfl hyc
    obtain rfl : cy = .red := by
      cases cy with
      | red => rfl
      | black => exact absurd rfl hyc
    refine Or.inl ⟨_, _, rfl, .outer, ?_⟩
    refine eraseRotate_holds (q := s) (w := s) hp hpt ht hsx hx hsa hsy hy (by simp) hfs (hsd2.perm ?_)
    rw [List.perm_iff_count]
    intro b
    simp only [List.cons_append, List.nil_append, List.count_cons, List.count_append]
    omega

section Loop

variable {h h1 h' : Heap} {fuel : ℕ} {d : Side} {node p s s1 n' p' : Word}

variable (hd : (if node ≠ h.child .right p then Side.left else .right) = d) (hs : h.child d.other p = s)
  (h1s : (if rbIsRed h s = true then eraseRaise h d p s else (h, s)) = (h1, s1))
include hd hs h1s

theorem eraseFixLoop_done (hstep : eraseFixStep h1 d p s1 = (h', none)) :
    rbEraseFixLoop (fuel + 1) h node p = some h' := by
  simp only [rbEraseFixLoop, hd, hs, h1s, hstep]

theorem eraseFixLoop_next (hstep : eraseFixStep h1 d p s1 = (h', some (n', p'))) :
    rbEraseFixLoop (fuel + 1) h node p = rbEraseFixLoop fuel h' n' p' := by
  simp only [rbEraseFixLoop, hd, hs, h1s, hstep]

end Loop

theorem exists_join_of_balanced {u : CTree Word} {n : ℕ} (d : Side) (hu : u.Balanced (n + 1)) :
    ∃ c x s y, u = join d c x s y := by
  obtain rfl | hj := eq_nil_or_join d u
  · exact absurd hu (Nat.succ_ne_zero n)
  · exact hj

/-- **The loop of `__rb_erase_fix`** ends, with the tree that the rules give. -/
theorem eraseFixLoop_holds : ∀ (fuel : ℕ) {fs : Ctx Word} {t : CTree Word} {h : Heap} {n : ℕ},
    fs.length ≤ fuel → fs ≠ [] → Holds h (plug fs t) → Sound (plug fs t).inorder →
    t.Balanced n → Ok fs (n + 1) →
    ∃ h' T, rbEraseFixLoop fuel h (ptr t) (above fs) = some h' ∧ EraseFix fs t T ∧ Holds h' T
  | _, [], _, _, _, _, hne, _, _, _, _ => absurd rfl hne
  | 0, _ :: _, _, _, _, hlen, _, _, _, _, _ => absurd hlen (Nat.not_succ_le_zero _)
  | fuel + 1, ⟨d, c, p, u⟩ :: fs, t, h, n, hlen, _, hh, hsd, hbal, hok => by
    have hsd' := hsd.perm (inorder_plug_perm _ _)
    obtain ⟨hctx, ht⟩ := holds_plug.mp hh
    obtain ⟨-, hpt, hpu, hu, -⟩ := id hctx
    obtain ⟨cu, x, s, y, rfl⟩ := exists_join_of_balanced d hok.1
    have hst : s ∉ t.inorder := fun hb =>
      (List.nodup_append.mp hsd'.1).2.2 s hb s (by simp [elems, mem_inorder_join]) rfl
    have hps : h.child d.other p = s := hpu.trans (ptr_join _ _ _ _ _)
    have hne : ptr t ≠ ptr (join d cu x s y) := by
      rw [ptr_join]
      exact (hsd'.ne_ptr (by simp [elems, mem_inorder_join]) hst).symm
    have hd := side_eq hpt hpu hne
    have hsr : rbIsRed h s = !decide (cu = .black) := by
      rw [rbIsRed, rbIsBlack, (rep_join.mp hu).1, isBlack_or (hsd'.2 p (by simp [elems])).2]
    cases cu with
    | black =>
      have hkeep : (if rbIsRed h s = true then eraseRaise h d p s else (h, s)) = (h, s) := by
        rw [hsr]
        rfl
      rcases eraseFixStep_holds hh hsd hok.1 with ⟨h', T, hstep, hT, hh'⟩ |
        ⟨rfl, hxc, hyc, hfs, h', hstep, hh'⟩
      · exact ⟨h', T, eraseFixLoop_done hd hps hkeep hstep, hT, hh'⟩
      · obtain ⟨hbal', hok', hord⟩ := blackParent_step hxc hyc hbal hok
        obtain ⟨h'', T, hloop, hT, hh''⟩ := eraseFixLoop_holds fuel (Nat.le_of_succ_le_succ hlen) hfs
          hh' (hord ▸ hsd) hbal' hok'
        rw [ptr_join] at hloop
        exact ⟨h'', T, (eraseFixLoop_next hd hps hkeep hstep).trans hloop, .blackParent hxc hyc hT, hh''⟩
    | red =>
      obtain rfl : c = .black := by
        cases c with
        | black => rfl
        | red => exact absurd (hok.2.1 rfl).1 (by simp)
      obtain ⟨hok', hord⟩ := redSibling_step hok
      obtain ⟨cx, x1, m, x2, rfl⟩ := exists_join_of_balanced d hok'.1
      obtain rfl : cx = .black := (color_join _ _ _ _ _).symm.trans (hok'.2.1 rfl).1
      obtain ⟨h1, hraise, hh1⟩ := eraseRaise_holds hctx ht (color_join _ _ _ _ _)
        (by rw [ptr_join]; exact (hsd'.2 m (by simp [elems, mem_inorder_join])).1) (hsd'.perm (by
        rw [List.perm_iff_count]
        intro b
        simp only [elems, List.cons_append, List.count_cons, List.count_append, count_inorder_join]
        omega))
      rw [ptr_join] at hraise
      have hchange : (if rbIsRed h s = true then eraseRaise h d p s else (h, s)) = (h1, m) := by
        rw [hsr]
        exact hraise
      rcases eraseFixStep_holds hh1 (hord t ▸ hsd) hok'.1 with ⟨h', T, hstep, hT, hh'⟩ |
        ⟨hcontra, -⟩
      · exact ⟨h', T, eraseFixLoop_done hd hps hchange hstep, .redSibling hT, hh'⟩
      · exact absurd hcontra (by decide)

end OsHonor.Lib.RbTree
