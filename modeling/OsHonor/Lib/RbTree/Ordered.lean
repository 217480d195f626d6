import OsHonor.Base.Runs
import OsHonor.Base.Sorted
import OsHonor.Lib.RbTree.Erase

/-! # The tree as an ordered list

`Keeps key h l` says that the heap holds a red-black tree with the nodes `l` in the order of their keys.
The functions are the operations of `Sorted` on that list: `insert_keeps`, `erase_keeps`, `lookup_keeps`
and `first_keeps`. `tree_correct` puts them together for every sequence of insertions and removals. -/

namespace OsHonor.Lib.RbTree

open Option Base.RedBlack Base.RedBlack.CTree Base.RedBlack.Ctx
open Base.Sorted Base.Runs

variable {κ : Type*} [LinearOrder κ] {key : Word → κ} {cmp : Word → Word → Bool}

/-- **The heap holds a red-black tree of the nodes `l`**, in the order of their keys. -/
def Keeps (key : Word → κ) (h : Heap) (l : List Word) : Prop :=
  ∃ T, Holds h T ∧ T.Valid ∧ T.inorder = l ∧ Sound l ∧ Ascending key l

/-! ### Insertion -/

/-- The descent for the node `n` with the hole of `fs` at the tree `t`: it finds an equivalent node, or
links `n` in at the bottom. -/
def Descends (key : Word → κ) (cmp : Word → Word → Bool) (h : Heap) (n : Word) (fuel : ℕ)
    (fs : Ctx Word) (t : CTree Word) : Prop :=
  (rbInsertLoop cmp n fuel h (ptr t) = some (h, false) ∧ ∃ y ∈ (plug fs t).inorder, key y = key n) ∨
  ∃ gs h', rbInsertLoop cmp n fuel h (ptr t) = some (h', true) ∧ plug gs nil = plug fs t ∧
    (∀ b ∈ before gs, key b < key n) ∧ (∀ b ∈ after gs, key n < key b) ∧
    (gs ≠ [] → RepCtx h' gs n) ∧ Rep h' (above gs) (node .red nil n nil)

theorem link_rep {h : Heap} {d : Side} {c : Color} {a n : Word} {y : CTree Word} {fs : Ctx Word}
    (hctx : RepCtx h (⟨d, c, a, y⟩ :: fs) 0#64) (hn : ∀ e, h.child e n = 0#64)
    (hsd : Sound ([n, a] ++ (y.inorder ++ elems fs))) :
    RepCtx ((h.setChild d a n).setParentColor n a) (⟨d, c, a, y⟩ :: fs) n ∧
      Rep ((h.setChild d a n).setParentColor n a) a (node .red nil n nil) := by
  obtain ⟨ha, -, hy, hyr, hfs⟩ := hctx
  have hna : n ≠ a := by
    have hnd := hsd.1
    simp only [List.cons_append, List.nodup_cons, List.mem_cons, not_or] at hnd
    exact hnd.1.1
  have hrest : ∀ b ∈ y.inorder ++ elems fs, Agree h ((h.setChild d a n).setParentColor n a) b := by
    intro b hb
    have hb' := hsd.disjoint hb
    simp only [List.mem_cons, not_or] at hb'
    simp [Agree, hb'.1, hb'.2.1]
  refine ⟨⟨by simpa [hna.symm] using ha, by simp, by simpa using hy,
    hyr.frame fun b hb => hrest b (by simp [hb]), hfs.frame rfl fun b hb => hrest b (by simp [hb])⟩, ?_⟩
  simp [Rep, or_red, hna, hn]

theorem insertLoop_descend {h : Heap} {d : Side} {c : Color} {a n : Word} {x y : CTree Word}
    {fs : Ctx Word} {fuel : ℕ} (hloop : rbInsertLoop cmp n (fuel + 1) h a =
      rbInsertLoop cmp n fuel (if h.child d a = 0#64 then (h.setChild d a n).setParentColor n a else h)
        (h.child d a))
    (hctx : RepCtx h fs a) (ht : Rep h (above fs) (join d c x a y)) (hn : ∀ e, h.child e n = 0#64)
    (hsd : Sound (n :: (plug (⟨d, c, a, y⟩ :: fs) x).inorder)) (hfuel : x.inorder.length < fuel)
    (hb : ∀ b ∈ before (⟨d, c, a, y⟩ :: fs), key b < key n)
    (ha : ∀ b ∈ after (⟨d, c, a, y⟩ :: fs), key n < key b)
    (ih : x ≠ nil → RepCtx h (⟨d, c, a, y⟩ :: fs) (ptr x) → Rep h a x →
      Descends key cmp h n fuel (⟨d, c, a, y⟩ :: fs) x) :
    Descends key cmp h n (fuel + 1) fs (join d c x a y) := by
  obtain ⟨hpc, hdx, hdy, hx, hy⟩ := rep_join.mp ht
  have hctx' : RepCtx h (⟨d, c, a, y⟩ :: fs) (ptr x) := ⟨hpc, hdx, hdy, hy, hctx⟩
  unfold Descends
  rw [ptr_join, hloop, hdx]
  by_cases hnil : x = nil
  · subst hnil
    obtain ⟨hl1, hl2⟩ := link_rep hctx' hn (hsd.perm (by
      refine .cons n ((inorder_plug_perm _ _).trans ?_)
      simp [elems, inorder]))
    refine Or.inr ⟨⟨d, c, a, y⟩ :: fs, _, ?_, rfl, hb, ha, fun _ => hl1, hl2⟩
    obtain ⟨k, rfl⟩ := Nat.exists_eq_succ_of_ne_zero (Nat.ne_zero_of_lt hfuel)
    simp [rbInsertLoop]
  · have hx0 : ptr x ≠ 0#64 := by
      refine hsd.ptr_ne_zero hnil fun b hb => List.mem_cons_of_mem n ?_
      exact (inorder_plug_perm _ _).mem_iff.mpr (List.mem_append_left _ hb)
    rw [if_neg hx0]
    exact ih hnil hctx' hx

theorem ascending_node {fs : Ctx Word} {c : Color} {l r : CTree Word} {a : Word}
    (h : Ascending key (plug fs (node c l a r)).inorder) :
    (∀ b ∈ l.inorder, key b < key a) ∧ ∀ b ∈ r.inorder, key a < key b := by
  rw [inorder_plug, Ascending, List.pairwise_append, List.pairwise_append, inorder,
    List.pairwise_append, List.pairwise_cons] at h
  exact ⟨fun b hb => h.1.2.1.2.2 b hb a List.mem_cons_self, h.1.2.1.2.1.1⟩

/-- **The descent of `_rb_insert`.** -/
theorem insertLoop_spec (hk : Explains key cmp) {h : Heap} {n : Word} (hn : ∀ e, h.child e n = 0#64) :
    ∀ {t : CTree Word} {fs : Ctx Word} {fuel : ℕ}, t ≠ nil → RepCtx h fs (ptr t) → Rep h (above fs) t →
    Ascending key (plug fs t).inorder → Sound (n :: (plug fs t).inorder) →
    (∀ b ∈ before fs, key b < key n) → (∀ b ∈ after fs, key n < key b) → t.inorder.length < fuel →
    Descends key cmp h n fuel fs t
  | nil, _, _, hne, _, _, _, _, _, _, _ => absurd rfl hne
  | node _ _ _ _, _, 0, _, _, _, _, _, _, _, hfuel => absurd hfuel (Nat.not_lt_zero _)
  | node c l a r, fs, fuel + 1, _, hctx, ht, hasc, hsd, hb, ha, hfuel => by
    have hmem : a ∈ (plug fs (node c l a r)).inorder := by simp [inorder_plug, inorder]
    have ha0 : a ≠ 0#64 := (hsd.2 a (List.mem_cons_of_mem n hmem)).1
    obtain ⟨hla, hra⟩ := ascending_node hasc
    simp only [inorder, List.length_append, List.length_cons] at hfuel
    rcases lt_trichotomy (key n) (key a) with hlt | heq | hgt
    · have ha' : ∀ b ∈ after (⟨.left, c, a, r⟩ :: fs), key n < key b := by
        intro b hm
        simp only [after, List.mem_append, List.mem_cons] at hm
        rcases hm with (rfl | hm) | hm
        · exact hlt
        · exact hlt.trans (hra b hm)
        · exact ha b hm
      refine insertLoop_descend (d := .left) (c := c) (x := l) (y := r) ?_ hctx ht hn hsd (by omega) hb
        ha' fun hln hctx' hl => insertLoop_spec hk hn hln hctx' hl hasc hsd hb ha' (by omega)
      simp only [rbInsertLoop, if_neg ha0, (hk n a).mpr hlt, if_true]
    · refine Or.inl ⟨?_, a, hmem, heq.symm⟩
      have hna : ¬ cmp n a = true := fun hc => absurd ((hk n a).mp hc) heq.not_lt
      have han : ¬ cmp a n = true := fun hc => absurd ((hk a n).mp hc) heq.not_gt
      simp [rbInsertLoop, ha0, hna, han]
    · have hb' : ∀ b ∈ before (⟨.right, c, a, l⟩ :: fs), key b < key n := by
        intro b hm
        simp only [before, List.mem_append, List.mem_singleton] at hm
        rcases hm with hm | hm | rfl
        · exact hb b hm
        · exact (hla b hm).trans hgt
        · exact hgt
      have hna : ¬ cmp n a = true := fun hc => absurd ((hk n a).mp hc) hgt.not_gt
      refine insertLoop_descend (d := .right) (c := c) (x := r) (y := l) ?_ hctx ht hn hsd (by omega) hb'
        ha fun hrn hctx' hr => insertLoop_spec hk hn hrn hctx' hr hasc hsd hb' ha (by omega)
      simp only [rbInsertLoop, if_neg ha0, if_neg hna, (hk a n).mpr hgt, if_true]

theorem Holds.frame {h h' : Heap} {T : CTree Word} (hh : Holds h T) (hroot : h'.root = h.root)
    (hag : ∀ b ∈ T.inorder, Agree h h' b) : Holds h' T :=
  ⟨hroot.trans hh.1, hh.2.frame hag⟩

/-- **`_rb_insert` is `insertBy`**: an equivalent node makes it return `-1` and leave the tree as it is. -/
theorem insert_keeps (hk : Explains key cmp) {h : Heap} {l : List Word} {n : Word} {fuel : ℕ}
    (hkeep : Keeps key h l) (hn : n ≠ 0#64 ∧ Aligned n) (hnl : n ∉ l) (hfuel : l.length < fuel) :
    (insertBy cmp n l = none ∧ ∃ h', rbInsert cmp fuel h n = some (h', -1) ∧ h'.root = h.root ∧
      ∀ b, b ≠ n → Agree h h' b) ∨
    ∃ l' h', insertBy cmp n l = some l' ∧ rbInsert cmp fuel h n = some (h', 0) ∧ Keeps key h' l' := by
  obtain ⟨T, hh, hv, rfl, hsd, hasc⟩ := hkeep
  let h0 := ((h.setChild .left n 0#64).setChild .right n 0#64).setParentColor n 0#64
  have hag : ∀ b, b ≠ n → Agree h h0 b := fun b hb => by simp [Agree, h0, hb]
  have hh0 : Holds h0 T := hh.frame rfl fun b hb => hag b (ne_of_mem_of_not_mem hb hnl)
  have hsd' : Sound (n :: T.inorder) := by
    refine ⟨List.nodup_cons.mpr ⟨hnl, hsd.1⟩, fun b hb => ?_⟩
    rcases List.mem_cons.mp hb with rfl | hb
    · exact hn
    · exact hsd.2 b hb
  have hn0 : ∀ e, h0.child e n = 0#64 := fun e => by cases e <;> simp [h0]
  have hdesc : Descends key cmp h0 n fuel [] T := by
    by_cases hT : T = nil
    · subst hT
      refine Or.inr ⟨[], h0, ?_, rfl, by simp [before], by simp [after], by simp, ?_⟩
      · obtain ⟨k, rfl⟩ := Nat.exists_eq_succ_of_ne_zero (Nat.ne_zero_of_lt hfuel)
        simp [rbInsertLoop]
      · simp [Rep, h0, above, word]
    · exact insertLoop_spec hk hn0 hT hh0.1 hh0.2 hasc hsd' (by simp [before]) (by simp [after]) hfuel
  have hins : rbInsert cmp fuel h n = (rbInsertLoop cmp n fuel h0 (ptr T)).bind fun p =>
      if p.2 then (rbInsertFix fuel p.1 n).map fun h => (h, 0) else some (p.1, -1) := by
    rw [← hh.1]
    rfl
  rcases hdesc with ⟨hloop, y, hy, hkey⟩ | ⟨gs, h1, hloop, hplug, hb, ha, hctx, hrep⟩
  · refine Or.inl ⟨?_, h0, by rw [hins, hloop]; rfl, rfl, hag⟩
    rcases insertBy_spec hk n hasc with ⟨hnone, -⟩ | ⟨-, -, -, hne, -⟩
    · exact hnone
    · exact absurd hkey (hne y hy)
  · obtain rfl : plug gs nil = T := hplug
    have hord : (plug gs nil).inorder = before gs ++ after gs := by simp [inorder_plug, inorder]
    have hby := insertBy_append hk n ha hb
    rw [← hord] at hby
    obtain ⟨-, hok, rfl, -⟩ := valid_plug hv
    have hlen : gs.length < fuel := by
      have hl := (inorder_plug_perm gs nil).length_eq
      have hg := length_le_elems gs
      simp only [inorder, List.nil_append] at hl
      omega
    have hsdn : Sound (plug gs (node .red nil n nil)).inorder := by
      refine hsd'.perm ?_
      rw [hord, inorder_plug]
      simp only [inorder, List.nil_append, List.append_assoc, List.singleton_append]
      exact List.perm_middle.symm
    obtain ⟨h', T', hfix, hT', hh'⟩ := insertFixLoop_holds fuel hlen hctx hrep hsdn rfl
      (n := 0) ⟨0, rfl, rfl, rfl, fun _ => ⟨rfl, rfl⟩⟩ hok
    obtain ⟨hv', hord'⟩ := hT'.valid (n := 0) rfl ⟨0, rfl, rfl, rfl, fun _ => ⟨rfl, rfl⟩⟩ hok
    have hl' : T'.inorder = before gs ++ n :: after gs := by simpa [inorder] using hord'
    refine Or.inr ⟨_, h', hby, ?_, T', hh', hv', hl', ?_, ?_⟩
    · rw [hins, hloop]
      simp only [bind_some, if_true, rbInsertFix, rbRedParent]
      rw [hrep.1, or_red]
      exact congrArg (Option.map _) hfix
    · rw [← hl', hord', ← inorder_plug]
      exact hsdn
    · rcases insertBy_spec hk n hasc with ⟨hnone, -⟩ | ⟨l', hl'', hasc', -⟩
      · exact absurd (hby.symm.trans hnone) (by simp)
      · obtain rfl := some.inj (hby.symm.trans hl'')
        exact hasc'

/-! ### Removal -/

/-- **`_rb_erase`** takes the node out of the list. -/
theorem erase_keeps {h : Heap} {l : List Word} {a : Word} {fuel : ℕ} (hkeep : Keeps key h l)
    (ha : a ∈ l) (hfuel : l.length ≤ fuel) :
    ∃ h', rbErase fuel h a = some h' ∧ Keeps key h' (l.erase a) := by
  obtain ⟨T, hh, hv, rfl, hsd, hasc⟩ := hkeep
  obtain ⟨fs, c, x, y, rfl⟩ := exists_plug ha
  obtain ⟨h', gs, c', t, T, hrun, hvac, hun, hh'⟩ := erase_holds hh hsd hv hfuel
  obtain ⟨⟨m, hbal, hok⟩, -⟩ := hvac.balanced hv
  obtain ⟨hv', hord⟩ := hun.valid hbal hok
  have herase : T.inorder = (plug fs (node c x a y)).inorder.erase a := by
    have hmid : (plug fs (node c x a y)).inorder =
        (before fs ++ x.inorder) ++ a :: (y.inorder ++ after fs) := by simp [inorder_plug, inorder]
    have hnd := hsd.1
    rw [hmid, List.nodup_append] at hnd
    rw [hord, hvac.order, hmid, List.erase_append_right _ fun hm => hnd.2.2 a hm a List.mem_cons_self rfl,
      List.erase_cons_head]
    simp
  refine ⟨h', hrun, T, hh', hv', herase, ?_, hasc.erase a⟩
  exact ⟨hsd.1.erase a, fun b hb => hsd.2 b (List.mem_of_mem_erase hb)⟩

/-! ### Reading -/

theorem lookupLoop_spec (hk : Explains key cmp) {h : Heap} {n : Word} : ∀ {t : CTree Word} {q : Word}
    {fuel : ℕ}, Rep h q t → Ascending key t.inorder → (∀ b ∈ t.inorder, b ≠ 0#64) →
    t.inorder.length < fuel →
    ∃ r, rbLookupLoop cmp h n fuel (ptr t) = some r ∧
      (r = 0#64 ∧ (∀ y ∈ t.inorder, key y ≠ key n) ∨ r ∈ t.inorder ∧ key r = key n)
  | _, _, 0, _, _, _, hfuel => absurd hfuel (Nat.not_lt_zero _)
  | nil, _, fuel + 1, _, _, _, _ => ⟨0#64, by simp [rbLookupLoop], Or.inl ⟨rfl, by simp [inorder]⟩⟩
  | node c l a r, q, fuel + 1, ⟨_, hal, har, hl, hr⟩, hasc, h0, hfuel => by
    have ha0 : a ≠ 0#64 := h0 a (by simp [inorder])
    have hnode : Ascending key (plug [] (node c l a r)).inorder := hasc
    obtain ⟨hla, hra⟩ := ascending_node hnode
    obtain ⟨hascl, hascr, -⟩ := List.pairwise_append.mp hasc
    simp only [inorder, List.length_append, List.length_cons] at hfuel
    have hfl : l.inorder.length < fuel := by omega
    have hfr : r.inorder.length < fuel := by omega
    rcases lt_trichotomy (key n) (key a) with hlt | heq | hgt
    · obtain ⟨v, hv, hres⟩ := lookupLoop_spec hk (n := n) hl hascl
        (fun b hb => h0 b (by simp [inorder, hb])) hfl
      refine ⟨v, ?_, ?_⟩
      · simpa [rbLookupLoop, ha0, (hk n a).mpr hlt, hal] using hv
      · rcases hres with ⟨rfl, hno⟩ | ⟨hm, he⟩
        · refine Or.inl ⟨rfl, fun y hy => ?_⟩
          simp only [inorder, List.mem_append, List.mem_cons] at hy
          rcases hy with hy | rfl | hy
          · exact hno y hy
          · exact hlt.ne'
          · exact (hlt.trans (hra y hy)).ne'
        · exact Or.inr ⟨by simp [inorder, hm], he⟩
    · refine ⟨a, ?_, Or.inr ⟨by simp [inorder], heq.symm⟩⟩
      have hna : ¬ cmp n a = true := fun hc => absurd ((hk n a).mp hc) heq.not_lt
      have han : ¬ cmp a n = true := fun hc => absurd ((hk a n).mp hc) heq.not_gt
      simp [rbLookupLoop, ha0, hna, han]
    · have hna : ¬ cmp n a = true := fun hc => absurd ((hk n a).mp hc) hgt.not_gt
      obtain ⟨v, hv, hres⟩ := lookupLoop_spec hk (n := n) hr (List.pairwise_cons.mp hascr).2
        (fun b hb => h0 b (by simp [inorder, hb])) hfr
      refine ⟨v, ?_, ?_⟩
      · simpa [rbLookupLoop, ha0, hna, (hk a n).mpr hgt, har] using hv
      · rcases hres with ⟨rfl, hno⟩ | ⟨hm, he⟩
        · refine Or.inl ⟨rfl, fun y hy => ?_⟩
          simp only [inorder, List.mem_append, List.mem_cons] at hy
          rcases hy with hy | rfl | hy
          · exact ((hla y hy).trans hgt).ne
          · exact hgt.ne
          · exact hno y hy
        · exact Or.inr ⟨by simp [inorder, hm], he⟩

/-- **`_rb_lookup`** returns the equivalent node, and `NULL` if there is none. -/
theorem lookup_keeps (hk : Explains key cmp) {h : Heap} {l : List Word} {fuel : ℕ}
    (hkeep : Keeps key h l) (hfuel : l.length < fuel) (n : Word) :
    ∃ r, rbLookup cmp fuel h n = some r ∧
      (r = 0#64 ∧ (∀ y ∈ l, key y ≠ key n) ∨ r ∈ l ∧ key r = key n) := by
  obtain ⟨T, ⟨hroot, hrep⟩, -, rfl, hsd, hasc⟩ := hkeep
  rw [rbLookup, hroot]
  exact lookupLoop_spec hk hrep hasc (fun b hb => (hsd.2 b hb).1) hfuel

theorem firstLoop_spec {h : Heap} : ∀ {t : CTree Word} {q : Word} {fuel : ℕ}, Rep h q t → t ≠ nil →
    (∀ b ∈ t.inorder, b ≠ 0#64) → t.inorder.length < fuel → rbFirstLoop h fuel (ptr t) = t.inorder.head?
  | _, _, 0, _, _, _, hfuel => absurd hfuel (Nat.not_lt_zero _)
  | nil, _, _ + 1, _, hne, _, _ => absurd rfl hne
  | node c l a r, q, fuel + 1, ⟨_, hal, _, hl, _⟩, _, h0, hfuel => by
    simp only [inorder, List.length_append, List.length_cons] at hfuel
    by_cases hn : l = nil
    · subst hn
      simp [rbFirstLoop, hal, inorder]
    · have hm := ptr_mem hn
      have hl0 : ptr l ≠ 0#64 := h0 _ (by simp [inorder, hm])
      have hfl : l.inorder.length < fuel := by omega
      have hrec := firstLoop_spec hl hn (fun b hb => h0 b (by simp [inorder, hb])) hfl
      rw [ptr_node, rbFirstLoop, hal, if_pos hl0, hrec, inorder,
        List.head?_append_of_ne_nil _ (List.ne_nil_of_mem hm)]

/-- **`_rb_first`** returns the head of the list, and `NULL` if it is empty. -/
theorem first_keeps {h : Heap} {l : List Word} {fuel : ℕ} (hkeep : Keeps key h l)
    (hfuel : l.length < fuel) : rbFirst fuel h = some (l.head?.getD 0#64) := by
  obtain ⟨T, ⟨hroot, hrep⟩, -, rfl, hsd, -⟩ := hkeep
  simp only [rbFirst, hroot]
  by_cases hn : T = nil
  · subst hn
    rfl
  · have hm := ptr_mem hn
    rw [if_neg (hsd.2 _ hm).1, firstLoop_spec hrep hn (fun b hb => (hsd.2 b hb).1) hfuel]
    rcases hl : T.inorder with _ | ⟨b, l⟩
    · rw [hl] at hm
      exact absurd hm List.not_mem_nil
    · rfl

/-! ### Runs -/

instance (n : Word) : Decidable (Aligned n) := inferInstanceAs (Decidable (_ = _))

/-- The heap, and the nodes that were inserted and not yet erased. -/
structure State where
  heap : Heap
  nodes : List Word

inductive Op
  | insert (n : Word)
  | erase (n : Word)

def State.fuel (s : State) : ℕ := s.nodes.length + 1

def step (cmp : Word → Word → Bool) (s : State) : Op → Option State
  | .insert n =>
    if (n ≠ 0#64 ∧ Aligned n) ∧ n ∉ s.nodes then
      (rbInsert cmp s.fuel s.heap n).map fun (h, r) => ⟨h, if r = 0 then n :: s.nodes else s.nodes⟩
    else none
  | .erase n =>
    if n ∈ s.nodes then (rbErase s.fuel s.heap n).map fun h => ⟨h, s.nodes.erase n⟩ else none

def Inv (key : Word → κ) (s : State) : Prop := ∃ l, Keeps key s.heap l ∧ l.Perm s.nodes

theorem inv_step (hk : Explains key cmp) (s : State) (op : Op) (s' : State) (hi : Inv key s)
    (hs : step cmp s op = some s') : Inv key s' := by
  obtain ⟨l, hkeep, hperm⟩ := hi
  have hlen := hperm.length_eq
  cases op with
  | insert n =>
    simp only [step] at hs
    split_ifs at hs with hn
    obtain ⟨⟨h, r⟩, hins, rfl⟩ := map_eq_some_iff.mp hs
    have hnl : n ∉ l := fun hm => hn.2 (hperm.mem_iff.mp hm)
    have hfuel : l.length < s.fuel := by rw [State.fuel]; omega
    rcases insert_keeps hk hkeep hn.1 hnl hfuel with ⟨-, h', hrun, hroot, hag⟩ |
      ⟨l', h', hby, hrun, hkeep'⟩
    · obtain ⟨rfl, rfl⟩ := Prod.mk.inj (some.inj (hins.symm.trans hrun))
      obtain ⟨T, hh, hv, rfl, hsd, hasc⟩ := hkeep
      refine ⟨_, ⟨T, hh.frame hroot fun b hb => hag b ?_, hv, rfl, hsd, hasc⟩, hperm⟩
      exact ne_of_mem_of_not_mem hb hnl
    · obtain ⟨rfl, rfl⟩ := Prod.mk.inj (some.inj (hins.symm.trans hrun))
      exact ⟨l', hkeep', (insertBy_perm hby).trans (hperm.cons n)⟩
  | erase n =>
    simp only [step] at hs
    split_ifs at hs with hn
    obtain ⟨h, hrun, rfl⟩ := map_eq_some_iff.mp hs
    have hfuel : l.length ≤ s.fuel := by rw [State.fuel]; omega
    obtain ⟨h', hrun', hkeep'⟩ := erase_keeps hkeep (hperm.mem_iff.mpr hn) hfuel
    obtain rfl := some.inj (hrun.symm.trans hrun')
    exact ⟨_, hkeep', hperm.erase n⟩

/-- **The tree after any sequence of insertions and removals.** The heap holds a red-black tree `T` (with
every colour, child and parent word in place), whose nodes are those of the state in strictly ascending
order. Every call returns. An insertion returns `-1` and changes only the new node if there is an
equivalent one, and else `0`; `_rb_lookup` finds the equivalent node and `_rb_first` the least. -/
theorem tree_correct (hk : Explains key cmp) {h : Heap} (h0 : h.root = 0#64) {ops : List Op} {s : State}
    (hrun : Run (step cmp) (fun _ _ => True) ⟨h, []⟩ ops s) :
    (∃ T, Holds s.heap T ∧ T.Valid ∧ Ascending key T.inorder ∧ T.inorder.Perm s.nodes) ∧
    (∀ n, n ≠ 0#64 ∧ Aligned n → n ∉ s.nodes →
      (∃ y ∈ s.nodes, key y = key n) ∧ (∃ h', rbInsert cmp s.fuel s.heap n = some (h', -1) ∧
        h'.root = s.heap.root ∧ ∀ b, b ≠ n → Agree s.heap h' b) ∨
      (∀ y ∈ s.nodes, key y ≠ key n) ∧ ∃ h', rbInsert cmp s.fuel s.heap n = some (h', 0)) ∧
    (∀ n ∈ s.nodes, ∃ h', rbErase s.fuel s.heap n = some h') ∧
    (∀ n, ∃ r, rbLookup cmp s.fuel s.heap n = some r ∧
      (r = 0#64 ∧ (∀ y ∈ s.nodes, key y ≠ key n) ∨ r ≠ 0#64 ∧ r ∈ s.nodes ∧ key r = key n)) ∧
    ∃ r, rbFirst s.fuel s.heap = some r ∧
      (r = 0#64 ∧ s.nodes = [] ∨ r ∈ s.nodes ∧ ∀ y ∈ s.nodes, key r ≤ key y) := by
  obtain ⟨l, hkeep, hperm⟩ : Inv key s := by
    refine Run.inv (fun s op s' hi _ hs => inv_step hk s op s' hi hs) hrun ⟨[], ?_, .refl _⟩
    exact ⟨nil, ⟨h0, trivial⟩, ⟨rfl, 0, rfl⟩, rfl, ⟨.nil, by simp⟩, .nil⟩
  have hlen := hperm.length_eq
  have hfuel : l.length < s.fuel := by rw [State.fuel]; omega
  have hmem : ∀ y, y ∈ l ↔ y ∈ s.nodes := fun y => hperm.mem_iff
  refine ⟨?_, ?_, ?_, ?_, ?_⟩
  · obtain ⟨T, hh, hv, rfl, -, hasc⟩ := hkeep
    exact ⟨T, hh, hv, hasc, hperm⟩
  · intro n hn hns
    have hasc : Ascending key l := hkeep.choose_spec.2.2.2.2
    rcases insert_keeps hk hkeep hn (fun hm => hns ((hmem n).mp hm)) hfuel with
      ⟨hnone, h', hins, hsame⟩ | ⟨l', h', hby, hins, -⟩
    · rcases insertBy_spec hk n hasc with ⟨-, y, hy, he⟩ | ⟨l', hl', -⟩
      · exact Or.inl ⟨⟨y, (hmem y).mp hy, he⟩, h', hins, hsame⟩
      · exact absurd (hnone.symm.trans hl') (by simp)
    · rcases insertBy_spec hk n hasc with ⟨hnone, -⟩ | ⟨-, -, -, hne, -⟩
      · exact absurd (hnone.symm.trans hby) (by simp)
      · exact Or.inr ⟨fun y hy => hne y ((hmem y).mpr hy), h', hins⟩
  · intro n hn
    obtain ⟨h', hrun', -⟩ := erase_keeps hkeep ((hmem n).mpr hn) hfuel.le
    exact ⟨h', hrun'⟩
  · intro n
    obtain ⟨r, hr, hres⟩ := lookup_keeps hk hkeep hfuel n
    refine ⟨r, hr, hres.imp (fun hno => ⟨hno.1, fun y hy => hno.2 y ((hmem y).mpr hy)⟩) fun hyes => ?_⟩
    obtain ⟨T, -, -, rfl, hsd, -⟩ := hkeep
    exact ⟨(hsd.2 r hyes.1).1, (hmem r).mp hyes.1, hyes.2⟩
  · refine ⟨_, first_keeps hkeep hfuel, ?_⟩
    obtain ⟨T, -, -, rfl, -, hasc⟩ := hkeep
    rcases hl : T.inorder with _ | ⟨b, l⟩
    · rw [hl] at hperm
      exact Or.inl ⟨rfl, hperm.nil_eq.symm⟩
    · have hb : T.inorder.head? = some b := by rw [hl]; rfl
      refine Or.inr ⟨(hmem b).mp (by rw [hl]; exact List.mem_cons_self), fun y hy => ?_⟩
      by_cases he : y = b
      · rw [he]
        rfl
      · exact (hasc.head_lt hb y ((hmem y).mpr hy) he).le

def emptyHeap : Heap := ⟨fun _ => 0#64, fun _ _ => 0#64, 0#64⟩

def byAddress (x y : Word) : Bool := x.toNat < y.toNat

/-- Seven insertions and the removal of a node with two children and a far successor. -/
def sevenThenErase : List Op :=
  [.insert 32#64, .insert 16#64, .insert 64#64, .insert 48#64, .insert 80#64, .insert 40#64, .insert 8#64,
    .erase 32#64]

theorem tree_correct_sevenThenErase :
    ∃ s, Run (step byAddress) (fun _ _ => True) ⟨emptyHeap, []⟩ sevenThenErase s ∧
      ∃ T, Holds s.heap T ∧ T.Valid ∧ Ascending BitVec.toNat T.inorder ∧ T.inorder.Perm s.nodes := by
  obtain ⟨s, hs⟩ : ∃ s, exec (step byAddress) (fun _ _ => true) ⟨emptyHeap, []⟩ sevenThenErase = some s :=
    isSome_iff_exists.mp (by decide +kernel)
  have hrun := run_of_exec (C := fun _ _ => True) (fun _ _ _ => trivial) hs
  exact ⟨s, hrun, (tree_correct (fun x y => by simp [byAddress]) rfl hrun).1⟩

end OsHonor.Lib.RbTree
