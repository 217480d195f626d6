import Mathlib.Data.List.Count

/-! # Things that are taken and given back

The calls to an allocator as a list of events. `settle` goes through them with what is held: nothing is taken
that is held, and nothing is given back that is not. A list of events is `Proper` if that works out, and
`Balanced` if nothing is held in the end: everything is given back once, and nothing else is.

Nothing is held twice, so between two gives of one thing there is a take (`Proper.count_gives_le`). -/

namespace OsHonor.Base.Ledger

open Option List

/-- A call to an allocator. -/
inductive Event (α : Type) where
  | take (a : α)
  | give (a : α)
  deriving DecidableEq

variable {α : Type}

def takes : List (Event α) → List α
  | [] => []
  | .take a :: es => a :: takes es
  | .give _ :: es => takes es

def gives : List (Event α) → List α
  | [] => []
  | .take _ :: es => gives es
  | .give a :: es => a :: gives es

theorem takes_append : ∀ es es' : List (Event α), takes (es ++ es') = takes es ++ takes es'
  | [], _ => rfl
  | .take a :: es, es' => congrArg (a :: ·) (takes_append es es')
  | .give _ :: es, es' => takes_append es es'

theorem gives_append : ∀ es es' : List (Event α), gives (es ++ es') = gives es ++ gives es'
  | [], _ => rfl
  | .take _ :: es, es' => gives_append es es'
  | .give a :: es, es' => congrArg (a :: ·) (gives_append es es')

@[simp] theorem takes_map_take : ∀ l : List α, takes (l.map .take) = l
  | [] => rfl
  | a :: l => congrArg (a :: ·) (takes_map_take l)

@[simp] theorem takes_map_give : ∀ l : List α, takes (l.map .give) = []
  | [] => rfl
  | _ :: l => takes_map_give l

@[simp] theorem gives_map_take : ∀ l : List α, gives (l.map .take) = []
  | [] => rfl
  | _ :: l => gives_map_take l

@[simp] theorem gives_map_give : ∀ l : List α, gives (l.map .give) = l
  | [] => rfl
  | a :: l => congrArg (a :: ·) (gives_map_give l)

variable [DecidableEq α]

/-- What is held after the events; `none` if one of them is wrong. -/
def settle : List α → List (Event α) → Option (List α)
  | held, [] => some held
  | held, .take a :: es => if a ∈ held then none else settle (a :: held) es
  | held, .give a :: es => if a ∈ held then settle (held.erase a) es else none

/-- **Only what has been taken is given back, and once.** -/
def Proper (es : List (Event α)) : Prop := (settle [] es).isSome = true

/-- **Everything taken is given back once, and nothing else is given back.** -/
def Balanced (es : List (Event α)) : Prop := settle [] es = some []

theorem Balanced.proper {es : List (Event α)} (h : Balanced es) : Proper es := by rw [Proper, h, isSome_some]

theorem settle_append : ∀ (es es' : List (Event α)) (held : List α),
    settle held (es ++ es') = (settle held es).bind fun held => settle held es'
  | [], _, _ => rfl
  | .take a :: es, es', held => by
    simp only [cons_append, settle]
    split_ifs
    · rfl
    · exact settle_append es es' _
  | .give a :: es, es', held => by
    simp only [cons_append, settle]
    split_ifs
    · exact settle_append es es' _
    · rfl

theorem nodup_settle : ∀ {es : List (Event α)} {held held' : List α}, held.Nodup → settle held es = some held' →
    held'.Nodup
  | [], held, held', hn, h => by
    cases h
    exact hn
  | .take a :: es, held, held', hn, h => by
    simp only [settle] at h
    split_ifs at h with ha
    exact nodup_settle (nodup_cons.mpr ⟨ha, hn⟩) h
  | .give a :: es, held, held', hn, h => by
    simp only [settle] at h
    split_ifs at h with ha
    exact nodup_settle (hn.erase a) h

/-- **The balance of one thing.** -/
theorem count_settle (x : α) : ∀ {es : List (Event α)} {held held' : List α}, settle held es = some held' →
    held'.count x + (gives es).count x = held.count x + (takes es).count x
  | [], held, held', h => by
    cases h
    rfl
  | .take a :: es, held, held', h => by
    simp only [settle] at h
    split_ifs at h
    have ih := count_settle x h
    simp only [takes, gives, List.count_cons] at ih ⊢
    omega
  | .give a :: es, held, held', h => by
    simp only [settle] at h
    split_ifs at h with ha
    have ih := count_settle x h
    have hc := (perm_cons_erase ha).count_eq x
    simp only [takes, gives, List.count_cons] at ih hc ⊢
    omega

theorem Proper.count_gives_le {es₁ es₂ es₃ : List (Event α)} (h : Proper (es₁ ++ es₂ ++ es₃))
    (hno : takes es₂ = []) (x : α) : (gives es₂).count x ≤ 1 := by
  obtain ⟨held, h⟩ := isSome_iff_exists.mp h
  rw [settle_append, settle_append] at h
  obtain ⟨held₂, h₂, -⟩ := bind_eq_some_iff.mp h
  obtain ⟨held₁, h₁, h₂⟩ := bind_eq_some_iff.mp h₂
  have hn : held₁.Nodup := nodup_settle nodup_nil h₁
  have hcount := count_settle x h₂
  rw [hno, count_nil, Nat.add_zero] at hcount
  have hone := nodup_iff_count.mp hn x
  omega

theorem Proper.count_gives_lt {es₁ es₂ : List (Event α)} {x : α} (h : Proper (es₁ ++ .give x :: es₂)) :
    (gives es₁).count x < (takes es₁).count x := by
  obtain ⟨held', h⟩ := isSome_iff_exists.mp h
  rw [settle_append] at h
  obtain ⟨held, h₁, h₂⟩ := bind_eq_some_iff.mp h
  simp only [settle] at h₂
  split_ifs at h₂ with hx
  have hcount := count_settle x h₁
  have hpos := count_pos_iff.mpr hx
  rw [count_nil] at hcount
  omega

end OsHonor.Base.Ledger
