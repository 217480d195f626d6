import Mathlib.Data.List.Nodup

/-! # Circular lists (`lib/list.c`)

A `struct list` is a pointer to the first node of a ring of nodes and a count. `Holds h L l` says that
`L` is the list of the nodes `l` over the links `h`; the functions keep it as the operations on `l` that
their names promise (`pushBack_holds`, `remove_holds`, `popHead_holds`).

`list_forall` reads the next node from the current one after the body has run. A body that moves the
node to another list sends the loop into that list: `transfer_diverges`, for lists of two or more. -/

namespace OsHonor.Lib.Rings

open Option List Function

/-- The links of the nodes (`struct list_node`). -/
structure Links (N : Type) where
  prev : N → N
  next : N → N

/-- `struct list`. -/
structure Lst (N : Type) where
  head : Option N
  size : ℕ

variable {N : Type} [DecidableEq N]

def initListNode (h : Links N) (n : N) : Links N :=
  ⟨update h.prev n n, update h.next n n⟩

def detachFromList (h : Links N) (n : N) : Links N :=
  let h := { h with next := update h.next (h.prev n) (h.next n) }
  let h := { h with prev := update h.prev (h.next n) (h.prev n) }
  initListNode h n

/-- `list_insert`: `item` goes before `target`. -/
def listInsert (h : Links N) (l : Lst N) (item target : N) : Links N × Lst N :=
  let h := initListNode h item
  if l.size = 0 then (h, ⟨some item, l.size + 1⟩)
  else
    let h := { h with next := update h.next (h.prev target) item }
    let h := { h with prev := update h.prev item (h.prev target) }
    let h := { h with next := update h.next item target }
    let h := { h with prev := update h.prev target item }
    (h, { l with size := l.size + 1 })

/-- `list_remove`; `none` is a failed assertion. -/
def listRemove (h : Links N) (l : Lst N) (item : N) : Option (Links N × Lst N) :=
  if l.size = 1 then
    if l.head ≠ some item then some (h, l) else some (h, ⟨none, 0⟩)
  else if l.head = some item then
    if h.next item = item then none
    else some (detachFromList h item, ⟨some (h.next item), l.size - 1⟩)
  else some (detachFromList h item, { l with size := l.size - 1 })

def listPushBack (h : Links N) (l : Lst N) (item : N) : Links N × Lst N :=
  let h := initListNode h item
  match l.head with
  | none => (h, ⟨some item, l.size + 1⟩)
  | some target => listInsert h l item target

/-- `list_pop_head`, of a list that has one. -/
def listPopHead (h : Links N) (l : Lst N) : Option (Links N × Lst N) := l.head.bind (listRemove h l)

/-! ### What a ring holds -/

/-- The links lead from `x` over the nodes of `l` to `y`, and back. -/
def Seg (h : Links N) (x : N) : List N → N → Prop
  | [], y => h.next x = y ∧ h.prev y = x
  | z :: l, y => h.next x = z ∧ h.prev z = x ∧ Seg h z l y

/-- `L` is the list of the nodes `l`. -/
def Holds (h : Links N) (L : Lst N) (l : List N) : Prop :=
  l.Nodup ∧ L.size = l.length ∧ L.head = l.head? ∧
    match l with
    | [] => True
    | x :: t => Seg h x t x

variable {h h' : Links N} {x y n : N} {l : List N} {L : Lst N}

section

omit [DecidableEq N]

theorem seg_append {z : N} : ∀ {l l' : List N},
    Seg h x (l ++ z :: l') y ↔ Seg h x l z ∧ Seg h z l' y := by
  intro l l'
  induction l generalizing x with
  | nil => simp [Seg, and_assoc]
  | cons w l ih => simp [Seg, ih, and_assoc]

theorem Seg.prev_eq (hs : Seg h x l y) : h.prev y = (x :: l).getLast (by simp) := by
  induction l generalizing x with
  | nil => exact hs.2
  | cons z l ih =>
    rw [getLast_cons (by simp)]
    exact ih hs.2.2

theorem Seg.next_last (hs : Seg h x l y) : h.next ((x :: l).getLast (by simp)) = y := by
  induction l generalizing x with
  | nil => exact hs.1
  | cons z l ih =>
    rw [getLast_cons (by simp)]
    exact ih hs.2.2

theorem Seg.relink (hs : Seg h x l y)
    (hnext : ∀ m ∈ (x :: l).dropLast, h'.next m = h.next m) (hprev : ∀ m ∈ l, h'.prev m = h.prev m)
    (hlast : h'.next ((x :: l).getLast (by simp)) = n)
    (hback : h'.prev n = (x :: l).getLast (by simp)) : Seg h' x l n := by
  induction l generalizing x with
  | nil => exact ⟨hlast, hback⟩
  | cons z l ih =>
    obtain ⟨h1, h2, h3⟩ := hs
    refine ⟨?_, ?_, ih h3 ?_ ?_ ?_ ?_⟩
    · rw [hnext x (by simp), h1]
    · rw [hprev z (by simp), h2]
    · intro m hm
      exact hnext m (by rw [dropLast_cons_of_ne_nil (by simp)]; exact mem_cons_of_mem x hm)
    · exact fun m hm => hprev m (mem_cons_of_mem z hm)
    · rw [getLast_cons (by simp)] at hlast
      exact hlast
    · rw [getLast_cons (by simp)] at hback
      exact hback

theorem Seg.frame (hs : Seg h x l y)
    (hnext : ∀ m ∈ x :: l, h'.next m = h.next m) (hprev : ∀ m ∈ l ++ [y], h'.prev m = h.prev m) :
    Seg h' x l y := by
  refine hs.relink (fun m hm => hnext m (dropLast_subset _ hm))
    (fun m hm => hprev m (mem_append_left _ hm)) ?_ ?_
  · rw [hnext _ (getLast_mem _)]
    exact hs.next_last
  · rw [hprev y (by simp)]
    exact hs.prev_eq

theorem getLast_notMem_dropLast (hl : l.Nodup) (hne : l ≠ []) : l.getLast hne ∉ l.dropLast := by
  have happ := dropLast_append_getLast hne
  rw [← happ] at hl
  intro hmem
  exact (nodup_append.mp hl).2.2 _ hmem _ (mem_singleton_self _) rfl

theorem Holds.frame (hl : Holds h L l)
    (hag : ∀ m ∈ l, h'.next m = h.next m ∧ h'.prev m = h.prev m) : Holds h' L l := by
  obtain ⟨hnd, hsize, hhead, hseg⟩ := hl
  refine ⟨hnd, hsize, hhead, ?_⟩
  rcases l with _ | ⟨x, t⟩
  · trivial
  · refine Seg.frame hseg (fun m hm => (hag m hm).1) fun m hm => (hag m ?_).2
    rcases mem_append.mp hm with hm | hm
    · exact mem_cons_of_mem x hm
    · rw [mem_singleton.mp hm]
      exact mem_cons_self

end

/-! ### The operations -/

theorem listInsert_links {item target e : N} (hsize : L.size ≠ 0)
    (hne : item ≠ target) (he : h.prev target = e) :
    (listInsert h L item target).2 = { L with size := L.size + 1 } ∧
    (∀ m, (listInsert h L item target).1.next m =
      if m = item then target else if m = e then item else h.next m) ∧
    ∀ m, (listInsert h L item target).1.prev m =
      if m = target then item else if m = item then e else h.prev m := by
  have hprev : (initListNode h item).prev target = e := by
    simp only [initListNode, update_of_ne hne.symm, he]
  simp only [listInsert, if_neg hsize, hprev]
  refine ⟨trivial, fun m => ?_, fun m => ?_⟩
  · simp only [initListNode, update_apply]
    split_ifs <;> rfl
  · simp only [initListNode, update_apply]
    split_ifs <;> rfl

theorem detachFromList_links {p q : N} (hp : h.prev n = p) (hq : h.next n = q) :
    (∀ m, (detachFromList h n).next m = if m = n then n else if m = p then q else h.next m) ∧
    ∀ m, (detachFromList h n).prev m = if m = n then n else if m = q then p else h.prev m := by
  have hn : update h.next p q n = q := by
    by_cases he : n = p
    · rw [he, update_self]
    · rw [update_of_ne he, hq]
  simp only [detachFromList, hp, hq, hn, initListNode, update_apply, implies_true, and_self]

/-- **`list_push_back`** appends. -/
theorem pushBack_holds (hl : Holds h L l) (hx : x ∉ l) :
    Holds (listPushBack h L x).1 (listPushBack h L x).2 (l ++ [x]) ∧
    ∀ m, m ∉ x :: l → (listPushBack h L x).1.next m = h.next m ∧
      (listPushBack h L x).1.prev m = h.prev m := by
  obtain ⟨hnd, hsize, hhead, hseg⟩ := hl
  rcases l with _ | ⟨a, t⟩
  · have hpush : listPushBack h L x = (initListNode h x, ⟨some x, L.size + 1⟩) := by
      simp only [listPushBack, show L.head = none from hhead]
    rw [hpush]
    refine ⟨⟨by simp, by simp [hsize], rfl, ?_⟩, fun m hm => ?_⟩
    · simp [Seg, initListNode]
    · have hmx : m ≠ x := fun he => hm (by simp [he])
      simp only [initListNode, update_of_ne hmx, and_self]
  · have hxa : x ≠ a := fun he => hx (by simp [he])
    have he : h.prev a = (a :: t).getLast (by simp) := Seg.prev_eq hseg
    have hne : x ≠ (a :: t).getLast (by simp) := fun he => hx (he ▸ getLast_mem _)
    have hprev : (initListNode h x).prev a = (a :: t).getLast (by simp) := by
      simp only [initListNode, update_of_ne hxa.symm, he]
    have hpush : listPushBack h L x = listInsert (initListNode h x) L x a := by
      simp only [listPushBack, show L.head = some a from hhead]
    rw [hpush]
    obtain ⟨hL, hnext', hprev'⟩ := listInsert_links (L := L) (by rw [hsize]; simp) hxa hprev
    have hinit : ∀ m, m ≠ x →
        (initListNode h x).next m = h.next m ∧ (initListNode h x).prev m = h.prev m := by
      intro m hm
      simp only [initListNode, update_of_ne hm, and_self]
    refine ⟨⟨?_, ?_, ?_, ?_⟩, fun m hm => ?_⟩
    · refine nodup_append.mpr ⟨hnd, nodup_singleton x, fun m hm n hn he => hx ?_⟩
      rw [← mem_singleton.mp hn, ← he]
      exact hm
    · rw [hL]
      simp [hsize]
    · rw [hL]
      exact hhead
    · refine seg_append.mpr ⟨?_, ?_, ?_⟩
      · refine Seg.relink (show Seg h a t a from hseg) (fun m hm => ?_) (fun m hm => ?_) ?_ ?_
        · have hml : m ≠ (a :: t).getLast (by simp) :=
            fun he => getLast_notMem_dropLast hnd (by simp) (he ▸ hm)
          have hmx : m ≠ x := fun he => hx (he ▸ dropLast_subset _ hm)
          rw [hnext', if_neg hmx, if_neg hml]
          exact (hinit m hmx).1
        · have hmx : m ≠ x := fun he => hx (he ▸ mem_cons_of_mem a hm)
          have hma : m ≠ a := fun he => (nodup_cons.mp hnd).1 (he ▸ hm)
          rw [hprev', if_neg hma, if_neg hmx]
          exact (hinit m hmx).2
        · rw [hnext', if_neg hne.symm, if_pos rfl]
        · rw [hprev', if_neg hxa, if_pos rfl]
      · rw [hnext', if_pos rfl]
      · rw [hprev', if_pos rfl]
    · have hmx : m ≠ x := fun he => hm (by simp [he])
      have hml : m ∉ a :: t := fun he => hm (mem_cons_of_mem x he)
      have hma : m ≠ a := fun he => hml (by simp [he])
      have hmlast : m ≠ (a :: t).getLast (by simp) := fun he => hml (he ▸ getLast_mem _)
      rw [hnext', hprev', if_neg hmx, if_neg hmlast, if_neg hma, if_neg hmx]
      exact hinit m hmx

theorem Seg.detach {a q : N} (hs : Seg h a l n) (hq : h.next n = q)
    (hnd : (a :: l).Nodup) (hn : n ∉ a :: l) (hql : q ∉ l) (hqn : q ≠ n) :
    Seg (detachFromList h n) a l q := by
  obtain ⟨hnext, hprev⟩ := detachFromList_links hs.prev_eq hq
  refine hs.relink (fun m hm => ?_) (fun m hm => ?_) ?_ ?_
  · have hmn : m ≠ n := fun he => hn (he ▸ dropLast_subset _ hm)
    have hml : m ≠ (a :: l).getLast (by simp) :=
      fun he => getLast_notMem_dropLast hnd (by simp) (he ▸ hm)
    rw [hnext, if_neg hmn, if_neg hml]
  · have hmn : m ≠ n := fun he => hn (he ▸ mem_cons_of_mem a hm)
    have hmq : m ≠ q := fun he => hql (he ▸ hm)
    rw [hprev, if_neg hmn, if_neg hmq]
  · have hne : (a :: l).getLast (by simp) ≠ n := fun he => hn (he ▸ getLast_mem _)
    rw [hnext, if_neg hne, if_pos rfl]
  · rw [hprev, if_neg hqn, if_pos rfl]

theorem detachFromList_frame {m : N} (hn : m ≠ n) (hp : m ≠ h.prev n) (hq : m ≠ h.next n) :
    (detachFromList h n).next m = h.next m ∧ (detachFromList h n).prev m = h.prev m := by
  obtain ⟨hnext, hprev⟩ := detachFromList_links (h := h) (n := n) rfl rfl
  rw [hnext, hprev, if_neg hn, if_neg hn, if_neg hp, if_neg hq]
  exact ⟨rfl, rfl⟩

/-- **`list_remove`** of a member takes it out. -/
theorem remove_holds (hl : Holds h L l) (hx : x ∈ l) :
    ∃ h' L', listRemove h L x = some (h', L') ∧ Holds h' L' (l.erase x) ∧
      ∀ m, m ∉ l → h'.next m = h.next m ∧ h'.prev m = h.prev m := by
  obtain ⟨hnd, hsize, hhead, hseg⟩ := hl
  rcases l with _ | ⟨a, t⟩
  · exact absurd hx (by simp)
  replace hhead : L.head = some a := hhead
  replace hseg : Seg h a t a := hseg
  by_cases hxa : x = a
  · subst hxa
    rcases t with _ | ⟨y, t⟩
    · refine ⟨h, ⟨none, 0⟩, ?_, ?_, fun m _ => ⟨rfl, rfl⟩⟩
      · simp [listRemove, hsize, hhead]
      · simp [Holds]
    · obtain ⟨hxy, -, hseg⟩ := hseg
      have hyx : y ≠ x := fun he => (nodup_cons.mp hnd).1 (by simp [he])
      have hnd' := (nodup_cons.mp hnd).2
      refine ⟨detachFromList h x, ⟨some y, L.size - 1⟩, ?_, ⟨?_, ?_, ?_, ?_⟩, fun m hm => ?_⟩
      · have hs1 : L.size ≠ 1 := by rw [hsize]; simp
        simp only [listRemove, if_neg hs1, if_pos hhead, hxy, if_neg hyx]
      · simpa using hnd'
      · simp [hsize]
      · simp
      · simp only [erase_cons_head]
        exact hseg.detach hxy hnd' (nodup_cons.mp hnd).1 (nodup_cons.mp hnd').1 hyx
      · refine detachFromList_frame (fun he => hm (by simp [he])) (fun he => hm ?_) (fun he => hm ?_)
        · rw [he, hseg.prev_eq]
          exact mem_cons_of_mem x (getLast_mem _)
        · rw [he, hxy]
          simp
  · have hxt : x ∈ t := (mem_cons.mp hx).resolve_left hxa
    obtain ⟨l₁, l₂, rfl⟩ := append_of_mem hxt
    obtain ⟨hseg₁, hseg₂⟩ := seg_append.mp hseg
    have hnd₁ : (a :: l₁).Nodup := hnd.sublist (by simp)
    have hdis : ∀ m ∈ a :: l₁, m ≠ x ∧ m ∉ l₂ := by
      have hnd' := hnd
      rw [← cons_append, nodup_append] at hnd'
      intro m hm
      exact ⟨hnd'.2.2 m hm x (by simp), fun hm' => hnd'.2.2 m hm m (by simp [hm']) rfl⟩
    have hnd₂ : x ∉ l₂ ∧ l₂.Nodup := by
      have hsub : (x :: l₂).Nodup := hnd.sublist (by simp)
      exact nodup_cons.mp hsub
    have hx₁ : x ∉ a :: l₁ := fun hm => (hdis x hm).1 rfl
    have herase : (a :: (l₁ ++ x :: l₂)).erase x = a :: (l₁ ++ l₂) := by
      rw [erase_cons_tail (by simpa using fun he => hxa he.symm),
        erase_append_right _ (fun hm => hx₁ (mem_cons_of_mem a hm)), erase_cons_head]
    refine ⟨detachFromList h x, { L with size := L.size - 1 }, ?_, ?_, fun m hm => ?_⟩
    · have hs1 : L.size ≠ 1 := by rw [hsize]; simp
      have hne : L.head ≠ some x := by rw [hhead]; exact fun he => hxa (some.inj he).symm
      simp only [listRemove, if_neg hs1, if_neg hne]
    · rw [herase]
      refine ⟨hnd.sublist (by simp), by simp [hsize, Nat.add_assoc], hhead, ?_⟩
      show Seg _ a (l₁ ++ l₂) a
      rcases l₂ with _ | ⟨w, l₃⟩
      · rw [append_nil]
        exact hseg₁.detach hseg₂.1 hnd₁ hx₁ (nodup_cons.mp hnd₁).1 (fun he => hxa he.symm)
      · obtain ⟨hxw, -, hseg₃⟩ := hseg₂
        have hwx : w ≠ x := fun he => hnd₂.1 (by simp [he])
        refine seg_append.mpr ⟨?_, ?_⟩
        · refine hseg₁.detach hxw hnd₁ hx₁ (fun hm => ?_) hwx
          exact (hdis w (mem_cons_of_mem a hm)).2 (by simp)
        · obtain ⟨hnext, hprev⟩ := detachFromList_links hseg₁.prev_eq hxw
          refine hseg₃.frame (fun m hm => ?_) (fun m hm => ?_)
          · have hmx : m ≠ x := fun he => hnd₂.1 (he ▸ hm)
            have hml : m ≠ (a :: l₁).getLast (by simp) :=
              fun he => (hdis m (he ▸ getLast_mem _)).2 hm
            rw [hnext, if_neg hmx, if_neg hml]
          · have hmx : m ≠ x := by
              rcases mem_append.mp hm with hm | hm
              · exact fun he => hnd₂.1 (he ▸ mem_cons_of_mem w hm)
              · exact fun he => hxa (he.symm.trans (mem_singleton.mp hm))
            have hmw : m ≠ w := by
              rcases mem_append.mp hm with hm | hm
              · exact fun he => (nodup_cons.mp hnd₂.2).1 (he ▸ hm)
              · rw [mem_singleton.mp hm]
                exact fun he => (hdis a (by simp)).2 (by simp [he])
            rw [hprev, if_neg hmx, if_neg hmw]
    · refine detachFromList_frame (fun he => hm (he ▸ hx)) (fun he => hm ?_) (fun he => hm ?_)
      · rw [he, hseg₁.prev_eq]
        have hmem := getLast_mem (l := a :: l₁) (by simp)
        rw [← cons_append]
        exact mem_append_left _ hmem
      · rcases l₂ with _ | ⟨w, l₃⟩
        · rw [he, hseg₂.1]; simp
        · rw [he, hseg₂.1]; simp

/-- **`list_pop_head`** takes out the first. -/
theorem popHead_holds (hl : Holds h L (x :: l)) :
    ∃ h' L', listPopHead h L = some (h', L') ∧ Holds h' L' l ∧
      ∀ m, m ∉ x :: l → h'.next m = h.next m ∧ h'.prev m = h.prev m := by
  obtain ⟨h', L', hrem, hholds, hframe⟩ := remove_holds hl (x := x) (by simp)
  refine ⟨h', L', ?_, by simpa using hholds, hframe⟩
  rw [listPopHead, show L.head = some x from hl.2.2.1]
  exact hrem

/-! ### Moving the nodes inside `list_forall` -/

/-- The loop of `transfer_children`: `v` moves from `src` to `dst`, and the loop goes on with the node
that then follows `v`, until it has done `flag`. `none` when `fuel` steps are not enough. -/
def transferLoop (flag : N) : ℕ → N → Links N → Lst N → Lst N → Option (Links N × Lst N × Lst N)
  | 0, _, _, _, _ => none
  | fuel + 1, v, h, src, dst => do
    let (h, src) ← listRemove h src v
    let (h, dst) := listPushBack h dst v
    if v = flag then some (h, src, dst) else transferLoop flag fuel (h.next v) h src dst

/-- `list_forall` from the node after the head to the head. -/
def transfer (fuel : ℕ) (h : Links N) (src dst : Lst N) : Option (Links N × Lst N × Lst N) :=
  match src.head with
  | none => some (h, src, dst)
  | some flag => transferLoop flag fuel (h.next flag) h src dst

theorem transferLoop_stuck {flag : N} : ∀ (fuel : ℕ) {v : N} {h : Links N} {src dst : Lst N},
    v ≠ flag → src.head = some flag → src.size ≠ 0 → dst.head = some v → dst.size ≠ 0 →
    transferLoop flag fuel v h src dst = none
  | 0, _, _, _, _, _, _, _, _, _ => rfl
  | fuel + 1, v, h, src, dst, hv, hsrc, hsize, hdst, hdsize => by
    have hne : src.head ≠ some v := by rw [hsrc]; exact fun he => hv (some.inj he).symm
    obtain ⟨h₁, src₁, hrem, hhead₁, hsize₁⟩ : ∃ h₁ src₁, listRemove h src v = some (h₁, src₁) ∧
        src₁.head = some flag ∧ src₁.size ≠ 0 := by
      unfold listRemove
      by_cases h1 : src.size = 1
      · exact ⟨h, src, by rw [if_pos h1, if_pos hne], hsrc, hsize⟩
      · refine ⟨detachFromList h v, { src with size := src.size - 1 }, ?_, hsrc, ?_⟩
        · rw [if_neg h1, if_neg hne]
        · show src.size - 1 ≠ 0
          omega
    have hpush : listPushBack h₁ dst v = listInsert (initListNode h₁ v) dst v v := by
      simp only [listPushBack, hdst]
    -- the node is put before itself
    have hnext : (listPushBack h₁ dst v).1.next v = v := by
      rw [hpush]
      simp [listInsert, hdsize, initListNode]
    have hdst' : (listPushBack h₁ dst v).2 = { dst with size := dst.size + 1 } := by
      rw [hpush]
      simp [listInsert, hdsize]
    simp only [transferLoop, hrem, bind_eq_bind, bind_some, if_neg hv, hnext]
    exact transferLoop_stuck fuel hv hhead₁ hsize₁ (by rw [hdst']; exact hdst) (by rw [hdst']; simp)

/-- **The loop does not end** for two nodes or more: it leaves the list with the first node it moves. -/
theorem transfer_diverges {src dst : Lst N} {l' : List N} (hsrc : Holds h src l)
    (hdst : Holds h dst l') (hdis : ∀ m ∈ l, m ∉ l') (hlen : 2 ≤ l.length) (fuel : ℕ) :
    transfer fuel h src dst = none := by
  rcases l with _ | ⟨a, _ | ⟨b, l⟩⟩
  · simp at hlen
  · simp at hlen
  rcases fuel with _ | fuel
  · rw [transfer, show src.head = some a from hsrc.2.2.1]
    rfl
  have hab : b ≠ a := fun he => (nodup_cons.mp hsrc.1).1 (by simp [he])
  have hhead : src.head = some a := hsrc.2.2.1
  have hnext : h.next a = b := hsrc.2.2.2.1
  have hrem : listRemove h src b = some (detachFromList h b, { src with size := src.size - 1 }) := by
    have h1 : src.size ≠ 1 := by rw [hsrc.2.1]; simp
    have hne : src.head ≠ some b := by rw [hhead]; exact fun he => hab (some.inj he).symm
    rw [listRemove, if_neg h1, if_neg hne]
  have hsize : src.size - 1 ≠ 0 := by rw [hsrc.2.1]; simp
  simp only [transfer, hhead, hnext, transferLoop, hrem, bind_eq_bind, bind_some,
    if_neg hab]
  rcases l' with _ | ⟨d, t⟩
  · have hd : dst.head = none := hdst.2.2.1
    refine transferLoop_stuck fuel ?_ rfl hsize ?_ ?_
    · simp [listPushBack, hd, initListNode, hab]
    · simp [listPushBack, hd, initListNode]
    · simp [listPushBack, hd]
  · have hd : dst.head = some d := hdst.2.2.1
    have hdsize : dst.size ≠ 0 := by rw [hdst.2.1]; simp
    have hdb : b ≠ d := fun he => hdis b (by simp) (by simp [he])
    have hda : d ≠ a := fun he => hdis a (by simp) (by simp [he])
    have hpush : listPushBack (detachFromList h b) dst b =
        listInsert (initListNode (detachFromList h b) b) dst b d := by simp only [listPushBack, hd]
    obtain ⟨hL, hnext', -⟩ := listInsert_links (h := initListNode (detachFromList h b) b) hdsize hdb rfl
    refine transferLoop_stuck fuel ?_ rfl hsize ?_ ?_
    · rw [hpush, hnext', if_pos rfl]
      exact hda
    · rw [hpush, hL, hnext', if_pos rfl]
      exact hd
    · rw [hpush, hL]
      simp

end OsHonor.Lib.Rings
