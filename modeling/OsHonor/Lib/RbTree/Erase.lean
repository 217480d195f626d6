import OsHonor.Lib.RbTree.EraseFix
import Mathlib.Data.List.Induction

/-! # A removal follows the rules

`rbEraseNode` unlinks the node, or puts its successor in its place, and says where a black node is
missing; with the repair, `rbErase` gives the tree of the rules `Vacates` and `Unlink`: `erase_holds`. -/

namespace OsHonor.Lib.RbTree

open Base.RedBlack Base.RedBlack.CTree Base.RedBlack.Ctx

theorem changeChild_setParentColor (h : Heap) (old w p n v : Word) :
    (rbChangeChild h old w p).setParentColor n v = rbChangeChild (h.setParentColor n v) old w p := by
  unfold rbChangeChild
  split_ifs <;> first | rfl | contradiction

theorem changeChild_parentColor (h : Heap) (old w p : Word) :
    (rbChangeChild h old w p).parentColor = h.parentColor := by
  unfold rbChangeChild
  split_ifs <;> rfl

theorem adopt_changeChild (h : Heap) (old w p n q : Word) :
    adopt (rbChangeChild h old w p) n q = rbChangeChild (adopt h n q) old w p := by
  unfold adopt
  split_ifs
  · exact changeChild_setParentColor h old w p n _
  · rfl

variable {h : Heap} {a q s : Word} {c c' : Color} {fs : Ctx Word} {l r : CTree Word}

theorem eraseOnly_holds {t : CTree Word} (hfs : RepCtx h fs a) (ht : Rep h q t)
    (hsd : Sound (a :: (t.inorder ++ elems fs))) (htn : t ≠ nil) :
    Holds ((rbChangeChild h a (ptr t) (above fs)).setParentColor (ptr t) (above fs ||| word c))
      (plug fs (t.paint c)) := by
  have hsd' : Sound (t.inorder ++ elems fs) :=
    ⟨hsd.1.of_cons, fun b hb => hsd.2 b (List.mem_cons_of_mem a hb)⟩
  have hmem := ptr_mem htn
  rw [changeChild_setParentColor]
  refine holds_changeChild (hfs.frame rfl ?_) (ht.move (List.nodup_append.mp hsd'.1).1 ?_ ?_)
    (ptr_paint c t) (hsd.2 a List.mem_cons_self).1 ?_ ?_
  · intro b hb
    have hne : b ≠ ptr t := fun he => hsd'.disjoint hb (he ▸ hmem)
    simp [Agree, hne]
  · intro b _ hne
    simp [Agree, hne]
  · intro _
    simp
  · exact fun hb => (List.nodup_cons.mp hsd.1).1 (List.mem_append_right _ hb)
  · rwa [inorder_paint]

theorem eraseReplace_holds {parent : Word} {R : CTree Word} (hal : h.child .left a = ptr l) (hl : Rep h a l) (hln : l ≠ nil)
    (ha : h.parentColor a = above fs ||| word c) (hs : h.parentColor s = q ||| word c') (hq : Aligned q)
    (hsR : h.child .right s = ptr R) (hR : Rep (adopt h (ptr r) parent) s R)
    (hrR : ∀ b ∈ r.inorder, b ∈ R.inorder) (hfs : RepCtx h fs a)
    (hsd : Sound (a :: s :: l.inorder ++ (R.inorder ++ elems fs))) :
    ∃ h', eraseReplace h a parent s (ptr r) =
        (h', if ptr r = 0#64 ∧ c' = .black then parent else 0#64) ∧
      Holds h' (plug fs (node c l s R)) := by
  have hne := hsd.1
  simp only [List.cons_append, List.nodup_cons, List.mem_cons, List.mem_append, not_or] at hne
  obtain ⟨⟨has, hal', haR, haf⟩, ⟨hsl, hsR', hsf⟩, hnd⟩ := hne
  have hs1 : s ≠ ptr l := hsd.ne_ptr (by simp) hsl
  have ha1 : a ≠ ptr l := hsd.ne_ptr (by simp) hal'
  have hmem := ptr_mem hln
  have hl0 := hsd.ptr_ne_zero hln (by simp +contextual)
  have hab : Aligned (above fs) := by
    refine Sound.aligned_above (l := a :: s :: l.inorder ++ R.inorder) ?_
    simpa using hsd
  obtain ⟨hndl, -, hlR⟩ := List.nodup_append.mp hnd
  have hlc : colorOf (h.parentColor (ptr l)) = word l.color := by
    cases l with
    | nil => exact absurd rfl hln
    | node cl x b y => rw [ptr_node, hl.1, colorOf_or (hsd.2 a (by simp)).2]; rfl
  have hsr : s ≠ ptr r := hsd.ne_ptr (by simp) fun hb => hsR' (hrR s hb)
  let h3 := (h.setChild .left s (ptr l)).setParentColor (ptr l) (word l.color ||| s)
  let h5 := adopt (h3.setParentColor s (above fs ||| word c)) (ptr r) parent
  have heq : eraseReplace h a parent s (ptr r) = (rbChangeChild h5 a s (above fs),
      if ptr r = 0#64 ∧ c' = .black then parent else 0#64) := by
    have h3eq : rbSetParent (h.setChild .left s (ptr l)) (ptr l) s = h3 := by
      simp only [rbSetParent, setChild_parentColor, hlc, h3]
    have hpc : h3.parentColor a = above fs ||| word c := by simpa [h3, ha1] using ha
    have hpc2 : h3.parentColor s = q ||| word c' := by simpa [h3, hs1] using hs
    simp only [eraseReplace, hal, h3eq, hpc, parentOf_or hab, changeChild_parentColor, hpc2,
      isBlack_or hq, h5, ← adopt_changeChild, ← changeChild_setParentColor]
    by_cases hr0 : ptr r = 0#64 <;> simp [hr0, adopt, rbSetParentColor]
  have hoff : ∀ b, b ≠ s → b ≠ ptr l → b ≠ ptr r → Agree h h5 b := by
    intro b hbs hbl hbr
    simp [Agree, h5, h3, hbs, hbl, hbr]
  refine ⟨_, heq, holds_changeChild (hfs.frame ?_ ?_) ⟨?_, ?_, ?_, ?_, hR.frame ?_⟩ rfl
    (hsd.2 a (by simp)).1 haf ?_⟩
  · simp [h5, h3]
  · intro b hb
    have hb' := hsd.disjoint (List.mem_append_right R.inorder hb)
    simp only [List.mem_cons, not_or] at hb'
    have hb0 := List.mem_append_right (a :: s :: l.inorder) (List.mem_append_right R.inorder hb)
    refine hoff b hb'.2.1 (hsd.ne_ptr hb0 hb'.2.2) (hsd.ne_ptr hb0 fun hbr => ?_)
    exact (List.nodup_append.mp (List.nodup_append.mp hnd).2.1).2.2 b (hrR b hbr) b hb rfl
  · simp [h5, h3, hsr]
  · simp [h5, h3]
  · simpa [h5, h3] using hsR
  · have hmv : Rep h5 s (l.paint l.color) := by
      refine hl.move hndl ?_ ?_
      · intro b hb hbl
        refine hoff b (ne_of_mem_of_not_mem hb hsl) hbl (hsd.ne_ptr (by simp [hb]) fun hbr => ?_)
        exact hlR b hb b (List.mem_append_left _ (hrR b hbr)) rfl
      · intro _
        have hlr : ptr l ≠ ptr r := hsd.ne_ptr (by simp [hmem]) fun hbr =>
          hlR _ hmem _ (List.mem_append_left _ (hrR _ hbr)) rfl
        simp [h5, h3, hlr, hs1.symm, BitVec.or_comm]
    rwa [paint_color] at hmv
  · intro b hb
    have hb' := hsd.disjoint (List.mem_append_left (elems fs) hb)
    simp only [List.mem_cons, not_or] at hb'
    have hbl : b ≠ ptr l := hsd.ne_ptr (by simp [hb]) hb'.2.2
    simp [Agree, h5, h3, hb'.2.1, hbl]
  · have hsd' : Sound (s :: l.inorder ++ (R.inorder ++ elems fs)) :=
      ⟨hsd.1.of_cons, fun b hb => hsd.2 b (List.mem_cons_of_mem a hb)⟩
    refine hsd'.perm ?_
    rw [inorder, List.append_assoc, List.cons_append]
    exact List.perm_middle.symm

/-! ### The successor -/

/-- The node above the hole of a context in a subtree whose parent is `q`. -/
def aboveOr (q : Word) : Ctx Word → Word
  | [] => q
  | f :: _ => f.elem

theorem aboveOr_append (q : Word) (f : Frame Word) (fs : Ctx Word) :
    ∀ gs : Ctx Word, aboveOr q (gs ++ f :: fs) = aboveOr f.elem gs
  | [] => rfl
  | _ :: _ => rfl

theorem above_append (f : Frame Word) (fs : Ctx Word) :
    ∀ gs : Ctx Word, above (gs ++ f :: fs) = aboveOr f.elem gs
  | [] => rfl
  | _ :: _ => rfl

theorem aboveOr_mem (q : Word) : ∀ gs : Ctx Word, aboveOr q gs ∈ q :: elems gs
  | [] => List.mem_singleton_self q
  | f :: gs => by simp [aboveOr, elems]

theorem Rep.inner : ∀ {gs : Ctx Word} {t : CTree Word}, Rep h q (plug gs t) →
    Rep h (aboveOr q gs) t
  | [], _, ht => ht
  | f :: gs, t, ht => by
    have hf : Rep h (aboveOr q gs) (f.fill t) := Rep.inner (t := f.fill t) ht
    exact (rep_join.mp hf).2.2.2.1

/-- **The search for the successor** finds the left end of the right subtree. -/
theorem successorLoop_spec : ∀ {t : CTree Word} {fuel : ℕ} {q x : Word}, Rep h q t →
    t ≠ nil → (∀ b ∈ t.inorder, b ≠ 0#64) → t.inorder.length ≤ fuel →
    ∃ gs c s r, t = plug gs (node c nil s r) ∧ (∀ g ∈ gs, g.side = .left) ∧
      successorLoop h fuel x (ptr t) = some (aboveOr x gs, s)
  | nil, _, _, _, _, hne, _, _ => absurd rfl hne
  | node c l a r, 0, _, _, _, _, _, hlen => by
    simp only [inorder, List.length_append, List.length_cons] at hlen
    omega
  | node c l a r, fuel + 1, q, x, ⟨_, hl, _, hrl, _⟩, _, h0, hlen => by
    by_cases hn : l = nil
    · subst hn
      refine ⟨[], c, a, r, rfl, by simp, ?_⟩
      simp [successorLoop, hl, aboveOr]
    · have hmem := ptr_mem hn
      have hl0 : ptr l ≠ 0#64 := h0 _ (by simp [inorder, hmem])
      have hlen' : l.inorder.length ≤ fuel := by
        simp only [inorder, List.length_append, List.length_cons] at hlen
        omega
      obtain ⟨gs, c', s, r', rfl, hgs, hloop⟩ := successorLoop_spec (x := a) hrl hn
        (fun b hb => h0 b (by simp [inorder, hb])) hlen'
      refine ⟨gs ++ [⟨.left, c, a, r⟩], c', s, r', by rw [plug_append]; rfl, ?_, ?_⟩
      · intro g hg
        rcases List.mem_append.mp hg with hg | hg
        · exact hgs g hg
        · rw [List.mem_singleton.mp hg]
      · rw [aboveOr_append, ptr_node, successorLoop, hl]
        simp only [hl0, ne_eq, not_false_eq_true, if_true]
        exact hloop

theorem detach_rep (gs : Ctx Word) : ∀ {x : Word},
    (∀ g ∈ gs, g.side = .left) → Rep h x (plug gs (node c nil s r)) →
    h.child .left x = ptr (plug gs (node c nil s r)) →
    Sound (x :: (plug gs (node c nil s r)).inorder) →
    Rep (adopt (h.setChild .left (aboveOr x gs) (ptr r)) (ptr r) (aboveOr x gs)) x
        (plug gs (r.paint .black)) ∧
      (adopt (h.setChild .left (aboveOr x gs) (ptr r)) (ptr r) (aboveOr x gs)).child .left x =
        ptr (plug gs (r.paint .black)) := by
  induction gs using List.reverseRecOn with
  | nil =>
    intro x _ ht hx hsd
    obtain ⟨-, -, -, -, hr⟩ := ht
    have hnd := hsd.1
    simp only [plug, inorder, List.nil_append, List.nodup_cons, List.mem_cons, not_or] at hnd
    obtain ⟨⟨hxs, hxr⟩, hsr, hndr⟩ := hnd
    refine ⟨hr.move hndr ?_ ?_, by simp [aboveOr, plug]⟩
    · intro b hb hbr
      simp [Agree, aboveOr, hbr, ne_of_mem_of_not_mem hb hxr]
    · intro hnil
      have hr0 := hsd.ptr_ne_zero hnil (by simp +contextual [plug, inorder])
      simp [aboveOr, hr0, ne_of_mem_of_not_mem (ptr_mem hnil) hxr]
  | append_singleton gs f ih =>
    intro x hgs ht hx hsd
    rw [plug_append] at ht hx hsd ⊢
    obtain ⟨d, cf, y, rf⟩ := f
    obtain rfl : d = .left := hgs ⟨d, cf, y, rf⟩ (by simp)
    obtain ⟨hy, hyl, hyr, htl, htr⟩ := ht
    have hsd' : Sound (x :: y :: (plug gs (node c nil s r)).inorder ++ rf.inorder) := by
      refine hsd.perm (List.Perm.cons x ?_)
      exact List.perm_middle
    have hnd := hsd'.1
    simp only [List.cons_append, List.nodup_cons, List.mem_cons, List.mem_append, not_or] at hnd
    obtain ⟨⟨hxy, hxt, -⟩, ⟨hyt, hyrf⟩, hnd⟩ := hnd
    have hrt : ∀ b ∈ r.inorder, b ∈ (plug gs (node c nil s r)).inorder := fun b hb =>
      (inorder_plug_perm gs _).mem_iff.mpr (by simp [inorder, hb])
    obtain ⟨hrep, hleft⟩ := ih (x := y) (fun g hg => hgs g (by simp [hg])) htl hyl
      ⟨List.nodup_cons.mpr ⟨hyt, (List.nodup_append.mp hnd).1⟩, fun b hb => hsd'.2 b (by
        simp only [List.cons_append, List.mem_cons, List.mem_append] at hb ⊢
        tauto)⟩
    have hab : aboveOr y gs ∈ y :: (plug gs (node c nil s r)).inorder := by
      refine List.cons_subset_cons y (fun b hb => ?_) (aboveOr_mem y gs)
      exact (inorder_plug_perm gs _).mem_iff.mpr (List.mem_append_right _ hb)
    rw [aboveOr_append]
    have hyr' : y ≠ ptr r := hsd'.ne_ptr (by simp) fun hb => hyt (hrt y hb)
    refine ⟨⟨by simpa [hyr'] using hy, hleft, by simpa using hyr, hrep, htr.frame fun b hb => ?_⟩, ?_⟩
    · have hbr : b ≠ ptr r := hsd'.ne_ptr (by simp [hb]) fun hb' =>
        (List.nodup_append.mp hnd).2.2 b (hrt b hb') b hb rfl
      have hba : b ≠ aboveOr y gs := fun he =>
        hsd'.disjoint hb (List.mem_cons_of_mem x (he ▸ hab))
      simp [Agree, hbr, hba]
    · have hxa : x ≠ aboveOr y gs := by
        rintro rfl
        rcases List.mem_cons.mp hab with he | hm
        · exact hxy he
        · exact hxt hm
      have hx' : h.child .left x = y := hx
      simpa [hxa, plug] using hx'

theorem eraseNear_holds
    (hfs : RepCtx h fs a) (ht : Rep h (above fs) (node c l a (node c' nil s r))) (hln : l ≠ nil)
    (hsd : Sound (a :: s :: l.inorder ++ (r.inorder ++ elems fs))) :
    ∃ h', eraseReplace h a s s (ptr r) = (h', if ptr r = 0#64 ∧ c' = .black then s else 0#64) ∧
      Holds h' (plug (⟨.right, c, s, l⟩ :: fs) (r.paint .black)) := by
  obtain ⟨ha, hal, -, hl, hs, -, hsr, -, hr⟩ := ht
  have hnd := hsd.1
  simp only [List.cons_append, List.nodup_cons, List.mem_cons, List.mem_append, not_or] at hnd
  obtain ⟨-, ⟨-, hsr', -⟩, hnd⟩ := hnd
  refine eraseReplace_holds hal hl hln ha hs (hsd.2 a (by simp)).2 (by rw [ptr_paint]; exact hsr)
    (hr.move (List.nodup_append.mp (List.nodup_append.mp hnd).2.1).1 ?_ ?_) (by simp) hfs
    (by rwa [inorder_paint])
  · intro b hb hbr
    simp [Agree, hbr]
  · intro hnil
    have hr0 := hsd.ptr_ne_zero hnil (by simp +contextual)
    simp [hr0]

theorem eraseFar_holds {x : Word} {cx : Color} {rx : CTree Word} {gs : Ctx Word}
    (hfs : RepCtx h fs a)
    (ht : Rep h (above fs) (node c l a (node cx (plug gs (node c' nil s r)) x rx))) (hln : l ≠ nil)
    (hgs : ∀ g ∈ gs, g.side = .left) (hsd : Sound (a :: s :: l.inorder ++
      ((plug (gs ++ [⟨.left, cx, x, rx⟩]) (r.paint .black)).inorder ++ elems fs))) :
    ∃ h', eraseReplace
        (rbSetParent ((h.setChild .left (aboveOr x gs) (ptr r)).setChild .right s x) x s)
        a (aboveOr x gs) s (ptr r) =
        (h', if ptr r = 0#64 ∧ c' = .black then aboveOr x gs else 0#64) ∧
      Holds h' (plug fs (node c l s (plug (gs ++ [⟨.left, cx, x, rx⟩]) (r.paint .black)))) := by
  obtain ⟨ha, hal, -, hl, hx, hxl, hxr, htl, htr⟩ := ht
  have hperm : (plug (gs ++ [⟨.left, cx, x, rx⟩]) (r.paint .black)).inorder.Perm
      (r.inorder ++ (elems gs ++ (x :: rx.inorder))) := by
    refine (inorder_plug_perm _ _).trans ?_
    rw [inorder_paint, elems_append]
    simp [elems]
  have hsd2 : Sound ((s :: x :: (r.inorder ++ elems gs)) ++ (a :: (l.inorder ++ (rx.inorder ++ elems fs)))) := by
    refine hsd.perm ?_
    rw [List.perm_iff_count]
    intro b
    simp only [List.cons_append, List.count_cons, List.count_append, hperm.count_eq]
    omega
  have hmem : ∀ b ∈ s :: x :: (r.inorder ++ elems gs), b ∉ a :: (l.inorder ++ (rx.inorder ++ elems fs)) :=
    fun b hb hb' => hsd2.disjoint hb' hb
  have hpm : aboveOr x gs ∈ s :: x :: (r.inorder ++ elems gs) := by
    have hm := aboveOr_mem x gs
    simp only [List.mem_cons, List.mem_append] at hm ⊢
    tauto
  have hnd := (List.nodup_append.mp hsd2.1).1
  simp only [List.nodup_cons, List.mem_cons, List.mem_append, not_or] at hnd
  obtain ⟨⟨hsx, hsr, hsg⟩, ⟨hxr', hxg⟩, hndr⟩ := hnd
  have hsdl : Sound (x :: (plug gs (node c' nil s r)).inorder) := by
    have hsub : Sound (s :: x :: (r.inorder ++ elems gs)) :=
      ⟨(List.nodup_append.mp hsd2.1).1, fun b hb => hsd2.2 b (List.mem_append_left _ hb)⟩
    refine hsub.perm (.trans (.swap x s _) (.cons x ?_))
    exact (inorder_plug_perm gs (node c' nil s r)).symm
  obtain ⟨hrep, hleft⟩ := detach_rep gs hgs htl hxl hsdl
  let h2 := ((h.setChild .left (aboveOr x gs) (ptr r)).setChild .right s x).setParentColor x
    (word cx ||| s)
  have h2eq : rbSetParent ((h.setChild .left (aboveOr x gs) (ptr r)).setChild .right s x) x s = h2 := by
    simp only [rbSetParent, setChild_parentColor, hx, colorOf_or (hsd2.2 a (by simp)).2, h2]
  have hrest : ∀ b ∈ a :: (l.inorder ++ (rx.inorder ++ elems fs)), Agree h h2 b := by
    intro b hb
    have hbp : b ≠ aboveOr x gs := fun he => hmem _ hpm (he ▸ hb)
    have hbs : b ≠ s := fun he => hmem s (by simp) (he ▸ hb)
    have hbx : b ≠ x := fun he => hmem x (by simp) (he ▸ hb)
    simp [Agree, h2, hbp, hbs, hbx]
  obtain ⟨hag1, hag2⟩ := hrest a (by simp)
  rw [h2eq]
  refine eraseReplace_holds (q := aboveOr x gs) ((hag2 _).trans hal)
    (hl.frame fun b hb => hrest b (by simp [hb])) hln (hag1.trans ha) ?_ ?_ ?_ ?_ ?_
    (hfs.frame rfl fun b hb => hrest b (by simp [hb])) hsd
  · simpa [h2, hsx] using htl.inner.1
  · exact (hsd2.2 _ (List.mem_append_left _ hpm)).2
  · rw [plug_append]
    simp [h2, plug]
  · have hxr2 : x ≠ ptr r := hsdl.ne_ptr List.mem_cons_self hxr'
    rw [plug_append]
    refine ⟨?_, ?_, ?_, hrep.frame ?_, htr.frame ?_⟩
    · simp [h2, hxr2, BitVec.or_comm]
    · simpa [h2] using hleft
    · simpa [h2, Ne.symm hsx] using hxr
    · intro b hb
      have hb' := (inorder_plug_perm gs _).mem_iff.mp hb
      rw [inorder_paint, List.mem_append] at hb'
      have hbs : b ≠ s := by rintro rfl; exact hb'.elim hsr hsg
      have hbx : b ≠ x := by rintro rfl; exact hb'.elim hxr' hxg
      simp [Agree, h2, hbs, hbx]
    · intro b hb
      obtain ⟨hb1, hb2⟩ := hrest b (by simp [hb])
      have hbr : b ≠ ptr r := hsd2.ne_ptr (by simp [hb]) fun hb' => hmem b (by simp [hb']) (by simp [hb])
      simp [Agree, hb1, hb2, hbr]
  · exact fun b hb => hperm.mem_iff.mpr (List.mem_append_left _ hb)

/-! ### The removal as a whole -/

/-- What `__rb_erase` leaves after a node of colour `c` with the only child `t` was unlinked: the tree
without it, the child painted black, and the node from which to repair. -/
structure Unlinked (h : Heap) (rebalance : Word) (fs : Ctx Word) (c : Color) (t : CTree Word) : Prop where
  holds : Holds h (plug fs (t.paint .black))
  from_eq : rebalance = if ptr t = 0#64 ∧ c = .black then above fs else 0#64

theorem unlinked_only {d : Side} {t : CTree Word}
    {n : ℕ} (hfs : RepCtx h fs a) (ht : Rep h (above fs) (join d c nil a t))
    (hbal : (join d c nil a t).Balanced n) (hsd : Sound (a :: (t.inorder ++ elems fs))) :
    Unlinked (if ptr t ≠ 0#64 then
        (rbChangeChild h a (ptr t) (above fs)).setParentColor (ptr t) (above fs ||| word c)
      else rbChangeChild h a (ptr t) (above fs))
      (if ptr t = 0#64 ∧ c = .black then above fs else 0#64) fs c t := by
  refine ⟨?_, rfl⟩
  obtain ⟨-, -, -, -, htt⟩ := rep_join.mp ht
  by_cases hn : t = nil
  · subst hn
    exact holds_changeChild (t := nil) hfs trivial rfl (hsd.2 a (by simp)).1
      (fun hb => (List.nodup_cons.mp hsd.1).1 (by simp [hb]))
      ⟨hsd.1.of_cons, fun b hb => hsd.2 b (List.mem_cons_of_mem a hb)⟩
  · have ht0 := hsd.ptr_ne_zero hn (by simp +contextual)
    obtain ⟨-, rfl⟩ := only_child hbal hn
    rw [if_pos ht0]
    exact eraseOnly_holds hfs htt hsd hn

/-- **`__rb_erase`.** -/
theorem eraseNode_spec {fuel : ℕ}
    (hh : Holds h (plug fs (node c l a r))) (hsd : Sound (plug fs (node c l a r)).inorder)
    (hv : (plug fs (node c l a r)).Valid) (hfuel : r.inorder.length ≤ fuel) :
    ∃ h' rebalance gs c' t, rbEraseNode fuel h a = some (h', rebalance) ∧
      Unlinked h' rebalance gs c' t ∧ Vacates fs (node c l a r) gs c' t := by
  obtain ⟨hctx, ht⟩ := holds_plug.mp hh
  rw [ptr_node] at hctx
  have hsd' := hsd.perm (inorder_plug_perm _ _)
  obtain ⟨n, -, hbal, -⟩ := valid_plug hv
  have hal : Aligned (above fs) := hsd'.aligned_above
  obtain ⟨ha, hl, hr, hrl, hrr⟩ := id ht
  have hsub : ∀ b ∈ a :: (l.inorder ++ r.inorder), b ≠ 0#64 ∧ Aligned b := by
    intro b hb
    refine hsd'.2 b ?_
    simp only [inorder, List.mem_append, List.mem_cons] at hb ⊢
    tauto
  by_cases hln : l = nil
  · subst hln
    refine ⟨_, _, fs, c, r, ?_, unlinked_only (d := .left) hctx ht hbal ?_, .noLeft⟩
    · simp only [rbEraseNode, hl, hr, ptr_nil, ha, parentOf_or hal, isBlack_or hal, if_true]
      by_cases hr0 : ptr r = 0#64 <;> simp [hr0]
    · simpa [inorder] using hsd'
  · have hl0 : ptr l ≠ 0#64 := (hsub _ (by simp [ptr_mem hln])).1
    by_cases hrn : r = nil
    · subst hrn
      refine ⟨_, _, fs, c, l, ?_, unlinked_only (d := .right) hctx ht hbal ?_, .noRight⟩
      · simp [rbEraseNode, hl, hr, ha, parentOf_or hal, hl0, changeChild_setParentColor]
      · refine hsd'.perm ?_
        simp only [inorder, List.append_assoc, List.cons_append, List.nil_append]
        exact List.perm_middle
    · have hr0 : ptr r ≠ 0#64 := (hsub _ (by simp [ptr_mem hrn])).1
      rcases r with _ | ⟨cr, rl, x, rr⟩
      · exact absurd rfl hrn
      obtain ⟨-, hxl, hxr, hrll, -⟩ := hrr
      by_cases hrln : rl = nil
      · subst hrln
        obtain ⟨h', heq, hh'⟩ := eraseNear_holds hctx ht hln (hsd'.perm (by
          rw [List.perm_iff_count]
          intro b
          simp only [inorder, List.cons_append, List.count_cons, List.count_append, List.count_nil]
          omega))
        refine ⟨h', _, ⟨.right, c, x, l⟩ :: fs, cr, rr, ?_, ⟨hh', rfl⟩,
          (Vacates.successor (by simp) : Vacates fs (node c l a (plug [] (node cr nil x rr))) _ _ _)⟩
        simp only [ptr_node] at hr hr0
        simp [rbEraseNode, hl, hr, hl0, hr0, hxl, hxr, heq]
      · have hrl0 : ptr rl ≠ 0#64 := (hsub _ (by simp [inorder, ptr_mem hrln])).1
        have hlen : rl.inorder.length ≤ fuel := by
          simp only [inorder, List.length_append, List.length_cons] at hfuel
          omega
        obtain ⟨gs, c', s, r2, rfl, hgs, hloop⟩ := successorLoop_spec (x := x) hrll hrln
          (fun b hb => (hsub b (by simp [inorder, hb])).1) hlen
        obtain ⟨-, -, hsr2, -, -⟩ := hrll.inner
        obtain ⟨h', heq, hh'⟩ := eraseFar_holds hctx ht hln hgs (hsd'.perm (by
          rw [List.perm_iff_count]
          intro b
          simp only [inorder, List.cons_append, List.count_cons, List.count_append,
            (inorder_plug_perm _ _).count_eq, elems_append, elems, inorder_paint, List.count_nil]
          omega))
        refine ⟨h', _, (gs ++ [⟨.left, cr, x, rr⟩]) ++ ⟨.right, c, s, l⟩ :: fs, c', r2, ?_,
          ⟨by rw [plug_append]; exact hh', by rw [above_append, aboveOr_append]⟩, ?_⟩
        · simp only [ptr_node] at hr hr0
          simp [rbEraseNode, hl, hr, hl0, hr0, hxl, hrl0, hloop, hsr2, heq]
        · have hgs' : ∀ g ∈ gs ++ [⟨.left, cr, x, rr⟩], g.side = .left := by
            intro g hg
            rcases List.mem_append.mp hg with hg | hg
            · exact hgs g hg
            · rw [List.mem_singleton.mp hg]
          have hvac : Vacates fs
              (node c l a (plug (gs ++ [⟨.left, cr, x, rr⟩]) (node c' nil s r2)))
              ((gs ++ [⟨.left, cr, x, rr⟩]) ++ ⟨.right, c, s, l⟩ :: fs) c' r2 := .successor hgs'
          rw [plug_append] at hvac
          exact hvac

theorem length_le_elems : ∀ fs : Ctx Word, fs.length ≤ (elems fs).length
  | [] => le_rfl
  | f :: fs => by
    have := length_le_elems fs
    simp only [elems, List.length_cons, List.length_append]
    omega

/-- **`_rb_erase`**: it ends with the tree that the rules give. -/
theorem erase_holds {fuel : ℕ}
    (hh : Holds h (plug fs (node c l a r))) (hsd : Sound (plug fs (node c l a r)).inorder)
    (hv : (plug fs (node c l a r)).Valid) (hfuel : (plug fs (node c l a r)).inorder.length ≤ fuel) :
    ∃ h' gs c' t T, rbErase fuel h a = some h' ∧ Vacates fs (node c l a r) gs c' t ∧
      Unlink gs c' t T ∧ Holds h' T := by
  have hlen : r.inorder.length ≤ fuel := by
    rw [inorder_plug] at hfuel
    simp only [inorder, List.length_append, List.length_cons] at hfuel
    omega
  obtain ⟨h', rb, gs, c', t, hnode, ⟨hh', hrb⟩, hvac⟩ := eraseNode_spec hh hsd hv hlen
  obtain ⟨⟨m, hbal, hok⟩, honly⟩ := hvac.balanced hv
  have hsd' : Sound (t.inorder ++ elems gs) := by
    have h' := hsd.perm hvac.perm
    exact ⟨h'.1.of_cons, fun b hb => h'.2 b (List.mem_cons_of_mem a hb)⟩
  have hgs : gs.length ≤ fuel := by
    have hl := hvac.perm.length_eq
    have hg := length_le_elems gs
    simp only [List.length_cons, List.length_append] at hl
    omega
  simp only [rbErase, hnode, Option.bind_some]
  by_cases hn : t = nil
  · subst hn
    obtain rfl : m = 0 := hbal
    cases c' with
    | red =>
      obtain rfl : rb = 0#64 := by simpa using hrb
      exact ⟨h', gs, .red, nil, _, rfl, hvac, .red, hh'⟩
    | black =>
      obtain rfl : rb = above gs := by simpa using hrb
      by_cases hg : gs = []
      · subst hg
        exact ⟨h', [], .black, nil, nil, rfl, hvac, .black .root, hh'⟩
      · have hg0 : above gs ≠ 0#64 := by
          rcases gs with _ | ⟨g, gs⟩
          · exact absurd rfl hg
          · exact (hsd'.2 g.elem (by simp [elems])).1
        obtain ⟨h'', T, hloop, hT, hh''⟩ := eraseFixLoop_holds fuel hgs hg hh'
          (hsd'.perm (inorder_plug_perm gs nil).symm) rfl hok
        refine ⟨h'', gs, .black, nil, T, ?_, hvac, .black hT, hh''⟩
        rw [if_pos hg0]
        exact hloop
  · obtain ⟨htc, rfl⟩ := honly hn
    have ht0 : ptr t ≠ 0#64 := hsd'.ptr_ne_zero hn (by simp +contextual)
    obtain rfl : rb = 0#64 := by simpa [ht0] using hrb
    rcases t with _ | ⟨ct, tl, b, tr⟩
    · exact absurd rfl hn
    obtain rfl : ct = .red := htc
    exact ⟨h', gs, .black, node .red tl b tr, _, rfl, hvac, .child, hh'⟩

end OsHonor.Lib.RbTree
