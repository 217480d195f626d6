import OsHonor.Lib.RbTree.Shape

/-! # The repair after an insertion follows the rules

`rbInsertFixLoop` takes a heap that holds a tree with a red node under a red node to one that holds the
tree that `InsertFix` gives, in at most as many iterations as there are nodes above:
`insertFixLoop_holds`. -/

namespace OsHonor.Lib.RbTree

open List Base.RedBlack Base.RedBlack.CTree Base.RedBlack.Ctx

variable {p : Word} {u s t : CTree Word} {fs : Ctx Word}

theorem insertRecolor_rep {h : Heap} {e d : Side} {g u : Word} {l r : CTree Word}
    (hctx : RepCtx h (⟨e, .red, p, s⟩ :: ⟨d, .black, g, node .red l u r⟩ :: fs) (ptr t))
    (ht : Rep h p t)
    (hsd : Sound ([u, p, g] ++ (t.inorder ++ (s.inorder ++ (l.inorder ++ (r.inorder ++ elems fs)))))) :
    ∃ h', insertRecolor h u p g = (h', g, above fs) ∧ RepCtx h' fs g ∧
      Rep h' (above fs) (join d .red (join e .black t p s) g (node .black l u r)) := by
  simp only [RepCtx, Rep, above_cons, ptr_node] at hctx
  obtain ⟨-, hpt, hps, hs, hg, hgp, hgu, ⟨-, hul, hur, hl, hr⟩, hfs⟩ := hctx
  have hne := hsd.1
  simp only [cons_append, nodup_cons, mem_cons, not_or] at hne
  obtain ⟨⟨hup, hug, -⟩, ⟨hpg, -⟩, -⟩ := hne
  have hal : Aligned (above fs) := Sound.aligned_above
    (l := [u, p, g] ++ (t.inorder ++ (s.inorder ++ (l.inorder ++ r.inorder)))) (by simpa using hsd)
  let h1 := ((h.setParentColor u (g ||| word .black)).setParentColor p (g ||| word .black)).setParentColor
    g (above fs ||| word .red)
  have hrest : ∀ b ∈ t.inorder ++ (s.inorder ++ (l.inorder ++ (r.inorder ++ elems fs))),
      Agree h h1 b := by
    intro b hb
    have hb' := hsd.disjoint hb
    simp only [mem_cons, not_or] at hb'
    simp [Agree, h1, hb'.1, hb'.2.1, hb'.2.2.1]
  refine ⟨h1, ?_, hfs.frame rfl fun b hb => hrest b (by simp [hb]), ?_⟩
  · simp [insertRecolor, rbParent, rbSetParentColor, h1, Ne.symm hpg, Ne.symm hug, hg, parentOf_or hal]
  · refine rep_join.mpr ⟨by simp [h1], by simpa [h1] using hgp, by simpa [h1] using hgu,
      rep_join.mpr ⟨by simp [h1, hpg], hpt, hps, ht.frame ?_, hs.frame ?_⟩,
      by simp [h1, hup, hug], hul, hur, hl.frame ?_, hr.frame ?_⟩ <;>
    exact fun b hb => hrest b (by simp [hb])

theorem insertRaise_rep {h : Heap} {d : Side} {n : Word} {x : CTree Word}
    (hnx : h.child d n = ptr x) (hx : Rep h n x) (hxc : x.color = .black)
    (hps : h.child d p = ptr s) (hs : Rep h p s) (hsd : Sound (n :: p :: x.inorder ++ s.inorder)) :
    Rep (insertRaise h d n p) n (join d .red s p x) ∧ (insertRaise h d n p).child d n = p ∧
      (insertRaise h d n p).root = h.root ∧
      (∀ b ≠ 0#64, b ∉ n :: p :: x.inorder → Agree h (insertRaise h d n p) b) ∧
      (insertRaise h d n p).child d.other n = h.child d.other n := by
  have hne := hsd.1
  simp only [cons_append, nodup_cons, mem_cons, mem_append, not_or] at hne
  obtain ⟨⟨hnp, hnx', -⟩, ⟨hpx, -⟩, hnd⟩ := hne
  have hpx' : p ≠ ptr x := hsd.ne_ptr (by simp) hpx
  have hpc : ∀ b, (insertRaise h d n p).parentColor b =
      if b = p then n ||| word .red else if b = ptr x ∧ ptr x ≠ 0#64 then p ||| word .black
        else h.parentColor b := by
    intro b
    simp [insertRaise, rbSetParentColor, hnx]
  have hch : ∀ e b, (insertRaise h d n p).child e b =
      if e = d ∧ b = n then p else if e = d.other ∧ b = p then ptr x else h.child e b := by
    intro e b
    simp [insertRaise, rbSetParentColor, hnx]
  have hoff : ∀ b, b ≠ n → b ≠ p → b ≠ ptr x → Agree h (insertRaise h d n p) b := by
    intro b hbn hbp hbx
    simp [Agree, hpc, hch, hbn, hbp, hbx]
  refine ⟨rep_join.mpr ⟨by simp [hpc], ?_, by simp [hch], ?_, ?_⟩, by simp [hch], ?_, ?_, by simp [hch, hnp]⟩
  · simpa [hch, Ne.symm hnp] using hps
  · refine hs.frame fun b hb => ?_
    have hb' := hsd.disjoint hb
    simp only [mem_cons, not_or] at hb'
    exact hoff b hb'.1 hb'.2.1 (hsd.ne_ptr (by simp [hb]) hb'.2.2)
  · rw [← paint_color x, hxc]
    refine hx.move (nodup_append.mp hnd).1 ?_ ?_
    · intro b hb hbx
      exact hoff b (ne_of_mem_of_not_mem hb hnx') (ne_of_mem_of_not_mem hb hpx) hbx
    · intro hnil
      have hx0 := hsd.ptr_ne_zero hnil (by simp +contextual)
      have hmem := (ptr_eq_zero_or_mem x).resolve_left hx0
      have hxn := ne_of_mem_of_not_mem hmem hnx'
      simp [hpc, hch, hx0, hpx'.symm, hxn]
  · simp [insertRaise, rbSetParentColor]
  · intro b hb0 hb
    simp only [mem_cons, not_or] at hb
    refine hoff b hb.1 hb.2.1 ?_
    rintro rfl
    exact ((ptr_eq_zero_or_mem x).resolve_left hb0 |> hb.2.2)

theorem insertRotate_holds {h : Heap} {d : Side} {g q : Word} (hpt : h.child d p = ptr t) (ht : Rep h p t) (hs : Rep h q s)
    (hsc : s.color = .black) (hg : h.parentColor g = above fs ||| word .black)
    (hgu : h.child d.other g = ptr u) (hu : Rep h g u) (hfs : RepCtx h fs g)
    (hsd : Sound (p :: g :: s.inorder ++ (t.inorder ++ (u.inorder ++ elems fs)))) :
    Holds (insertRotate h d p g (ptr s)) (plug fs (join d .black t p (join d .red s g u))) := by
  have hne := hsd.1
  simp only [cons_append, nodup_cons, mem_cons, mem_append, not_or] at hne
  obtain ⟨⟨hpg, hps, -⟩, ⟨hgs, -⟩, hnd⟩ := hne
  have hps' : p ≠ ptr s := hsd.ne_ptr (by simp) hps
  have hgs' : g ≠ ptr s := hsd.ne_ptr (by simp) hgs
  let h0 := (adopt (h.setChild d g (ptr s)) (ptr s) g).setChild d.other p g
  let h1 := (h0.setParentColor p (above fs ||| word .black)).setParentColor g (p ||| word .red)
  have hoff : ∀ b, b ≠ p → b ≠ g → b ≠ ptr s → Agree h h1 b := by
    intro b hbp hbg hbs
    simp [Agree, h1, h0, hbp, hbg, hbs]
  have hrest : ∀ b ∈ t.inorder ++ (u.inorder ++ elems fs), Agree h h1 b := by
    intro b hb
    have hb' := hsd.disjoint hb
    simp only [mem_cons, not_or] at hb'
    exact hoff b hb'.1 hb'.2.1 (hsd.ne_ptr (mem_append_right _ hb) hb'.2.2)
  have hs' : Rep h1 g s := by
    rw [← paint_color s, hsc]
    refine hs.move (nodup_append.mp hnd).1 ?_ ?_
    · exact fun b hb hbs => hoff b (ne_of_mem_of_not_mem hb hps) (ne_of_mem_of_not_mem hb hgs) hbs
    · intro hnil
      have hs0 := hsd.ptr_ne_zero hnil (by simp +contextual)
      simp [h1, h0, hs0, hps'.symm, hgs'.symm]
  have hperm : (p :: g :: s.inorder ++ (t.inorder ++ (u.inorder ++ elems fs))).Perm
      ((join d .black t p (join d .red s g u)).inorder ++ elems fs) := by
    rw [perm_iff_count]
    intro b
    simp only [cons_append, List.count_cons, count_append, count_inorder_join]
    omega
  refine holds_rotate (h := h0) (k := h1) (c := .black) ?_ rfl (hfs.frame ?_ ?_) ?_ (ptr_join _ _ _ _ _)
    (by simp [mem_inorder_join]) (hsd.perm hperm)
  · simpa [h0, hgs'] using hg
  · simp [h1, h0]
  · exact fun b hb => hrest b (by simp [hb])
  · refine rep_join.mpr ⟨by simp [h1, hpg], by simpa [h1, h0, hpg] using hpt, by simp [h1, h0],
      ht.frame fun b hb => hrest b (by simp [hb]), rep_join.mpr ⟨by simp [h1], ?_, ?_, hs',
      hu.frame fun b hb => hrest b (by simp [hb])⟩⟩
    · simp [h1, h0]
    · simpa [h1, h0, Ne.symm hpg] using hgu

/-! ### The loop -/

section Loop

variable {h h' : Heap} {d : Side} {fuel : ℕ} {node parent g : Word}

theorem insertFixLoop_black (h0 : parent ≠ 0#64) (hb : rbIsBlack h parent = true) :
    rbInsertFixLoop (fuel + 1) h node parent = some h := by
  simp [rbInsertFixLoop, h0, hb]

variable {u : Word} (h0 : parent ≠ 0#64) (hb : rbIsBlack h parent = false)
  (hg : rbRedParent h parent = g) (hd : (if parent ≠ h.child .right g then Side.left else .right) = d)
  (hu : h.child d.other g = u)
include h0 hb hg hd hu

theorem insertFixLoop_recolor {n' p' : Word} (hred : u ≠ 0#64 ∧ rbIsRed h u = true)
    (hr : insertRecolor h u parent g = (h', n', p')) :
    rbInsertFixLoop (fuel + 1) h node parent = rbInsertFixLoop fuel h' n' p' := by
  simp only [rbInsertFixLoop, h0, hb, hg, hd, hu, hr, if_pos hred, if_false, Bool.false_eq_true]

theorem insertFixLoop_rotate (hred : ¬ (u ≠ 0#64 ∧ rbIsRed h u = true)) :
    rbInsertFixLoop (fuel + 1) h node parent = if node = h.child d.other parent then
        some (insertRotate (insertRaise h d node parent) d node g
          ((insertRaise h d node parent).child d.other node))
      else some (insertRotate h d parent g (h.child d.other parent)) := by
  simp only [rbInsertFixLoop, h0, hb, hg, hd, hu, if_neg hred, if_false, Bool.false_eq_true]

end Loop

theorem insertRotate_outer {h : Heap} {d : Side} {g : Word}
    (hctx : RepCtx h (⟨d, .red, p, s⟩ :: ⟨d, .black, g, u⟩ :: fs) (ptr t)) (ht : Rep h p t)
    (hsc : s.color = .black)
    (hsd : Sound (t.inorder ++ elems (⟨d, .red, p, s⟩ :: ⟨d, .black, g, u⟩ :: fs))) :
    Holds (insertRotate h d p g (ptr s)) (plug fs (join d .black t p (join d .red s g u))) := by
  obtain ⟨-, hpt, -, hs, hg, -, hgu, hu, hfs⟩ := hctx
  refine insertRotate_holds hpt ht hs hsc hg hgu hu hfs (hsd.perm ?_)
  rw [perm_iff_count]
  intro b
  simp only [elems, cons_append, List.count_cons, count_append]
  omega

theorem insertRotate_inner {h : Heap} {d : Side} {g n : Word} {x y : CTree Word}
    (hctx : RepCtx h (⟨d.other, .red, p, s⟩ :: ⟨d, .black, g, u⟩ :: fs) n)
    (ht : Rep h p (join d .red x n y)) (hxc : x.color = .black) (hyc : y.color = .black)
    (hsd : Sound ((join d .red x n y).inorder ++
      elems (⟨d.other, .red, p, s⟩ :: ⟨d, .black, g, u⟩ :: fs))) :
    Holds (insertRotate (insertRaise h d n p) d n g ((insertRaise h d n p).child d.other n))
      (plug fs (join d .black (join d .red s p x) n (join d .red y g u))) := by
  obtain ⟨-, -, hps, hs, hg, -, hgu, hu, hfs⟩ := hctx
  obtain ⟨-, hnx, hny, hx, hy⟩ := rep_join.mp ht
  rw [Side.other_other] at hps
  have hsd1 : Sound ((n :: p :: x.inorder ++ s.inorder) ++
      (g :: (y.inorder ++ (u.inorder ++ elems fs)))) := by
    refine hsd.perm ?_
    rw [perm_iff_count]
    intro b
    simp only [elems, cons_append, List.count_cons, count_append, count_inorder_join]
    omega
  have hsd2 : Sound (n :: p :: x.inorder ++ s.inorder) :=
    ⟨(nodup_append.mp hsd1.1).1, fun a ha => hsd1.2 a (mem_append_left _ ha)⟩
  obtain ⟨hp', hnp, hroot, hag, hny'⟩ := insertRaise_rep hnx hx hxc hps hs hsd2
  have hrest : ∀ b ∈ g :: (y.inorder ++ (u.inorder ++ elems fs)),
      Agree h (insertRaise h d n p) b := by
    intro b hb
    refine hag b (hsd1.2 b (mem_append_right _ hb)).1 fun hb' => hsd1.disjoint hb ?_
    exact mem_append_left _ hb'
  obtain ⟨hg1, hg2⟩ := hrest g mem_cons_self
  rw [hny', hny]
  refine insertRotate_holds (q := n) (hnp.trans (ptr_join _ _ _ _ _).symm) hp'
    (hy.frame fun b hb => hrest b (by simp [hb])) hyc (hg1.trans hg) ((hg2 _).trans hgu)
    (hu.frame fun b hb => hrest b (by simp [hb])) (hfs.frame hroot fun b hb => hrest b (by simp [hb])) ?_
  refine hsd1.perm ?_
  rw [perm_iff_count]
  intro b
  simp only [cons_append, List.count_cons, count_append, count_inorder_join]
  omega

/-- **The loop of `__rb_insert_fix`** ends, with the tree that the rules give. -/
theorem insertFixLoop_holds : ∀ (fuel : ℕ) {fs : Ctx Word} {t : CTree Word} {h : Heap} {n : ℕ},
    fs.length < fuel → (fs ≠ [] → RepCtx h fs (ptr t)) → Rep h (above fs) t →
    Sound (plug fs t).inorder → t.color = .red → t.Balanced n → Ok fs n →
    ∃ h' T, rbInsertFixLoop fuel h (ptr t) (above fs) = some h' ∧ InsertFix fs t T ∧ Holds h' T
  | 0, _, _, _, _, hlen, _, _, _, _, _, _ => absurd hlen (Nat.not_lt_zero _)
  | fuel + 1, [], t, h, n, _, _, ht, hsd, hc, _, _ => by
    rcases t with _ | ⟨c, l, a, r⟩
    · exact absurd hc (by simp [color])
    obtain rfl : c = .red := hc
    refine ⟨(rbSetParentColor h a 0#64 .black).setRoot a, node .black l a r,
      by simp [rbInsertFixLoop, above], .root, rfl, ?_⟩
    refine Rep.move (c := .black) ht hsd.1 ?_ ?_
    · intro b _ hb
      simp only [ptr_node] at hb
      simp [Agree, rbSetParentColor, hb]
    · simp [rbSetParentColor]
  | fuel + 1, ⟨e, c, p, s⟩ :: fs, t, h, n, hlen, hctx, ht, hsd, hc, hbal, hok => by
    have hsd' := hsd.perm (inorder_plug_perm _ _)
    replace hctx := hctx (cons_ne_nil _ _)
    have hp0 : p ≠ 0#64 := (hsd'.2 p (by simp [elems])).1
    have hal : Aligned (above fs) := by
      refine Sound.aligned_above (l := t.inorder ++ p :: s.inorder) ?_
      simpa [elems] using hsd'
    have hpb : rbIsBlack h p = decide (c = .black) := by rw [rbIsBlack, hctx.1, isBlack_or hal]
    cases c with
    | black => exact ⟨h, _, insertFixLoop_black hp0 hpb, .parentBlack, holds_plug.mpr ⟨hctx, ht⟩⟩
    | red =>
      obtain ⟨hscol, htop⟩ := hok.2.1 rfl
      rcases fs with _ | ⟨⟨d, c, g, u⟩, fs⟩
      · exact absurd htop id
      obtain rfl : c = .black := htop
      have hg : rbRedParent h p = g := hctx.1.trans (or_red g)
      obtain ⟨-, hpt, hps, -, -, hgp, hgu, hu, -⟩ := id hctx
      have hne := hsd'.1
      simp only [elems, nodup_append, nodup_cons, mem_append, mem_cons,
        not_or] at hne
      have hpu : p ≠ ptr u := hsd'.ne_ptr (by simp [elems]) hne.2.1.1.2.2.1
      have hred := red_test hu hal fun b hb => (hsd'.2 b (by simp [elems, hb])).1
      rw [above_cons]
      by_cases huc : u.color = .red
      · rcases u with _ | ⟨c, l, u, r⟩
        · exact absurd huc (by simp [color])
        obtain rfl : c = .red := huc
        obtain ⟨hbal', hok'', hord⟩ := uncleRed_step hbal hok
        obtain ⟨h', hrec, hctx', ht'⟩ := insertRecolor_rep hctx ht (hsd'.perm (by
          rw [perm_iff_count]
          intro b
          simp only [elems, inorder, cons_append, List.count_cons, count_append,
            count_nil]
          omega))
        have hlen' : fs.length < fuel := by
          simp only [length_cons] at hlen
          omega
        obtain ⟨h'', T, hloop, hT, hh''⟩ := insertFixLoop_holds fuel hlen'
          (fun _ => (ptr_join _ _ _ _ _).symm ▸ hctx') ht' (hord ▸ hsd) (color_join _ _ _ _ _) hbal' hok''
        rw [ptr_join] at hloop
        refine ⟨h'', T, ?_, .uncleRed hT, hh''⟩
        rw [insertFixLoop_recolor hp0 hpb hg (side_eq hgp hgu hpu) hgu (hred.mpr rfl) hrec, hloop]
      · rw [insertFixLoop_rotate hp0 hpb hg (side_eq hgp hgu hpu) hgu (mt hred.mp huc)]
        have huc' : u.color = .black := by cases h : u.color <;> simp_all
        rcases Side.eq_or_eq_other d e with rfl | rfl
        · rw [if_neg, hps]
          · exact ⟨_, _, rfl, .outer huc', insertRotate_outer hctx ht hscol hsd'⟩
          · have hm : ptr t ∈ t.inorder := ptr_mem (by rintro rfl; exact absurd hc (by simp [color]))
            rw [hps]
            exact hsd'.ne_ptr (mem_append_left _ hm) fun hb => hne.2.2 _ hm _ (.inr (.inl hb)) rfl
        · obtain rfl | ⟨c, x, m, y, rfl⟩ := eq_nil_or_join d t
          · exact absurd hc (by simp [color])
          obtain rfl : c = .red := (color_join _ _ _ _ _).symm.trans hc
          obtain ⟨-, -, -, -, hxy⟩ := balanced_join.mp hbal
          rw [ptr_join] at hpt hctx ⊢
          rw [if_pos hpt.symm]
          exact ⟨_, _, rfl, .inner huc', insertRotate_inner hctx ht (hxy rfl).1 (hxy rfl).2 hsd'⟩

end OsHonor.Lib.RbTree
