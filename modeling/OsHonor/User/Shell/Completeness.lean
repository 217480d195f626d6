import OsHonor.User.Shell.Soundness

/-! # The parser accepts what the grammar derives

On a text that begins with tokens which the grammar derives, followed by a token that can come after them,
every function of the parser takes these tokens and returns their tree (`parseline_complete`), unless a
command has too many arguments. -/

namespace OsHonor.User.Shell.Completeness

open Option List Code Grammar
open Lexing Soundness

/-- The result is the tree `c`, with the tokens `ts` left, unless the fuel has run out. -/
def Gives (r : Parse) (c : Tree) (ts : List Token) : Prop :=
  r = .error .fuel ∨ ∃ c' s', r = .ok (c', s') ∧ textOf c' = c ∧ Spells ts s'

variable {c c' : Tree} {ts : List Token}

theorem Gives.bind {r : Parse} {c₁ : Tree} {ts₁ : List Token} {f : Cmd Span Redirection × Ptr → Parse}
    (h : Gives r c ts) (hf : ∀ c' s', textOf c' = c → Spells ts s' → Gives (f (c', s')) c₁ ts₁) :
    Gives (r >>= f) c₁ ts₁ := by
  rcases h with rfl | ⟨c', s', rfl, hc, hs⟩
  · exact Or.inl rfl
  · exact hf c' s' hc hs

def Follows (l : List Token) (ts : List Token) : Prop := ∀ t, ts.head? = some t → t ∈ l

theorem Follows.mono {l l' : List Token} (h : Follows l ts) (hl : ∀ t ∈ l, t ∈ l') : Follows l' ts :=
  fun t ht => hl t (h t ht)

theorem Follows.ne {l : List Token} {u : Token} (h : Follows l ts) (hu : u ∉ l) : ts.head? ≠ some u :=
  fun he => hu (h u he)

theorem parseredirs_complete (h : Redirs c ts c') :
    ∀ (fuel : ℕ) {d : Cmd Span Redirection} {s : Ptr} {ts' : List Token}, textOf d = c → Spells (ts ++ ts') s →
      (∀ a, ts'.head? ≠ some (.arrow a)) → Gives (parseredirs fuel d s) c' ts' := by
  induction h with
  | nil =>
    intro fuel d s ts' hd hs hts'
    cases fuel with
    | zero => exact Or.inl rfl
    | succ fuel =>
      rw [nil_append] at hs
      have hpeek : (ts'.head?.any fun t => ['<', '>'].contains t.key) = false := by
        rw [← Bool.not_eq_true]
        intro hany
        obtain ⟨t, ts, rfl, hkey⟩ := mem_of_any hany
        cases t with
        | arrow a => exact hts' a rfl
        | _ => exact absurd hkey (by simp [Token.key, Token.ret])
      rw [parseredirs, peek_spells (by decide) hs, hpeek]
      exact Or.inr ⟨d, skip s, rfl, hd, Spells.skip hs⟩
  | @cons c c' a w ts hr ih =>
    intro fuel d s ts' hd hs hts'
    cases fuel with
    | zero => exact Or.inl rfl
    | succ fuel =>
      have hpeek : (['<', '>'].contains (Token.arrow a).key) = true := by cases a <;> decide
      obtain ⟨s₁, htok, hs₁⟩ := gettoken_cons (Spells.skip hs)
      obtain ⟨s₂, hword, hs₂⟩ := gettoken_cons hs₁
      rw [parseredirs, peek_spells (by decide) hs]
      simp only [cons_append, head?_cons, any_some, hpeek, if_true, htok, hword]
      refine ih fuel ?_ hs₂ hts'
      rw [textOf_redircmd, hd]
      simp [Token.chars]

/-- The number of arguments of the command below the redirections. -/
def argcOf {W R : Type} : Cmd W R → Option ℕ
  | .exec argv => some argv.length
  | .redir c _ _ => argcOf c
  | _ => none

theorem argcOf_addArg {W R : Type} (w : W) : ∀ c : Cmd W R, argcOf (c.addArg w) = (argcOf c).map (· + 1)
  | .exec argv => by simp [argcOf, Cmd.addArg]
  | .redir c _ _ => argcOf_addArg w c
  | .pipe _ _ | .list _ _ | .back _ => rfl

theorem argcOf_redirs (h : Redirs c ts c') : argcOf c' = argcOf c := by
  induction h with
  | nil => rfl
  | cons _ ih => exact ih

theorem argcOf_args (h : Args c ts c') :
    ∀ {n : ℕ}, argcOf c = some n → ∃ m, n ≤ m ∧ argcOf c' = some m := by
  induction h with
  | nil => exact fun hn => ⟨_, le_rfl, hn⟩
  | @cons c c₁ c₂ w ts ts' hr _ ih =>
    intro n hn
    obtain ⟨m, hm, hc⟩ := ih (n := n + 1) (by rw [argcOf_redirs hr, argcOf_addArg, hn]; rfl)
    exact ⟨m, by omega, hc⟩

theorem fits_redirs (h : Redirs c ts c') : Fits c' ↔ Fits c := by
  induction h with
  | nil => rfl
  | cons _ ih => exact ih

theorem lt_of_fits (h : Fits c) {n : ℕ} (hn : argcOf c = some n) : n < maxArgs := by
  induction c with
  | exec argv =>
    obtain rfl : argv.length = n := by simpa [argcOf] using hn
    exact h
  | redir c _ _ ih => exact ih h hn
  | pipe _ _ _ _ => simp [argcOf] at hn
  | list _ _ _ _ => simp [argcOf] at hn
  | back _ _ => simp [argcOf] at hn

/-- What may come after an `exec`. -/
def afterExec : List Token := [.bar, .rparen, .amp, .semi]

theorem argLoop_complete (h : Args c ts c') (hfits : Fits c') :
    ∀ (fuel : ℕ) {d : Cmd Span Redirection} {argc : ℕ} {s : Ptr} {ts' : List Token}, textOf d = c →
      argcOf c = some argc → Spells (ts ++ ts') s → Follows afterExec ts' →
      Gives (argLoop fuel d argc s) c' ts' := by
  induction h with
  | nil =>
    intro fuel d argc s ts' hd _ hs hfollow
    cases fuel with
    | zero => exact Or.inl rfl
    | succ fuel =>
      rw [nil_append] at hs
      rw [argLoop, peek_spells (by decide) hs]
      cases ts' with
      | nil =>
        simp only [head?_nil, any_none, Bool.false_eq_true, if_false,
          gettoken_nil (Spells.skip hs), if_true]
        exact Or.inr ⟨d, [], rfl, hd, .nil (by simp [Blank])⟩
      | cons t ts' =>
        have hkey : ['|', ')', '&', ';'].contains t.key = true := by
          have ht := hfollow t rfl
          simp only [afterExec, mem_cons, not_mem_nil, or_false] at ht
          rcases ht with rfl | rfl | rfl | rfl <;> decide
        simp only [head?_cons, any_some, hkey, if_true]
        exact Or.inr ⟨d, skip s, rfl, hd, Spells.skip hs⟩
  | @cons c c₁ c₂ w ts₁ ts₂ hr hargs ih =>
    intro fuel d argc s ts' hd hargc hs hfollow
    cases fuel with
    | zero => exact Or.inl rfl
    | succ fuel =>
      rw [cons_append, append_assoc] at hs
      have hargc₁ : argcOf c₁ = some (argc + 1) := by
        rw [argcOf_redirs hr, argcOf_addArg, hargc]
        rfl
      have hlt : ¬ maxArgs ≤ argc + 1 := by
        obtain ⟨m, hm, hc₂⟩ := argcOf_args hargs hargc₁
        have := lt_of_fits hfits hc₂
        omega
      have hkey : ['|', ')', '&', ';'].contains (Token.word w).key = false := rfl
      obtain ⟨s₁, htok, hs₁⟩ := gettoken_cons (Spells.skip hs)
      have hret : (Token.word w).ret = 'a' := rfl
      have hne : ¬ 'a' = '\x00' := by decide
      rw [argLoop, peek_spells (by decide) hs]
      simp only [head?_cons, any_some, hkey, Bool.false_eq_true, if_false, htok, hret, hne,
        not_true_eq_false, ne_eq, hlt]
      refine Gives.bind (parseredirs_complete hr fuel ?_ hs₁ ?_) fun d' s' hd' hs' =>
        ih hfits fuel hd' hargc₁ hs' hfollow
      · rw [textOf_addArg, hd]
        simp [Token.chars]
      · intro a
        cases hargs with
        | nil => exact hfollow.ne (by simp [afterExec])
        | cons _ _ => simp

theorem backLoop_complete : ∀ (n fuel : ℕ) {d : Cmd Span Redirection} {s : Ptr} {ts' : List Token},
    Spells (List.replicate n .amp ++ ts') s → ts'.head? ≠ some .amp →
      Gives (backLoop fuel d s) (backs n (textOf d)) ts'
  | _, 0, _, _, _, _, _ => Or.inl rfl
  | 0, fuel + 1, d, s, ts', hs, hts' => by
    rw [backLoop, peek_miss '&' (by decide) rfl hs hts']
    exact Or.inr ⟨d, skip s, rfl, rfl, Spells.skip hs⟩
  | n + 1, fuel + 1, d, s, ts', hs, hts' => by
    rw [replicate_succ, cons_append] at hs
    obtain ⟨hpeek, hs₁⟩ := peek_hit '&' (by decide) rfl hs
    rw [backLoop, hpeek]
    exact backLoop_complete n fuel hs₁ hts'

theorem fits_backs (n : ℕ) (c : Tree) : Fits (backs n c) ↔ Fits c := by
  induction n generalizing c with
  | zero => rfl
  | succ n ih => exact ih (.back c)

theorem head_replicate (n : ℕ) (t : Token) (ts : List Token) (u : Token)
    (h : (List.replicate n t ++ ts).head? = some u) : u = t ∨ ts.head? = some u := by
  cases n with
  | zero => exact Or.inr h
  | succ n =>
    simp only [replicate_succ, cons_append, head?_cons, some.injEq] at h
    exact Or.inl h.symm

theorem head_ne_lparen {c₁ : Tree} {ts₁ ts' : List Token} (hr : Redirs c ts c₁) (hargs : Args c₁ ts₁ c')
    (hfollow : Follows afterExec ts') : (ts ++ ts₁ ++ ts').head? ≠ some .lparen := by
  cases hr with
  | cons _ => simp
  | nil =>
    cases hargs with
    | cons _ _ => simp
    | nil => exact hfollow.ne (by simp [afterExec])

mutual

theorem parseline_complete : ∀ (fuel : ℕ) {ts ts' : List Token} {c : Tree} {s : Ptr}, Line ts c → Fits c →
    Spells (ts ++ ts') s → Follows [.rparen] ts' → Gives (parseline fuel s) c ts'
  | 0, _, _, _, _, _, _, _, _ => Or.inl rfl
  | fuel + 1, _, ts', _, s, @Line.last ts c n hp, hfits, hs, hfollow => by
    rw [append_assoc] at hs
    rw [parseline]
    refine Gives.bind (parsepipe_complete fuel hp ((fits_backs n c).mp hfits) hs ?_) fun d s₁ hd hs₁ => ?_
    · intro t ht
      rcases head_replicate n _ _ _ ht with rfl | ht
      · simp
      · have := hfollow t ht
        simp_all
    · subst hd
      refine Gives.bind (backLoop_complete n fuel hs₁ (hfollow.ne (by simp))) fun d' s₂ hd' hs₂ => ?_
      simp only [peek_miss ';' (u := .semi) (by decide) rfl hs₂ (hfollow.ne (by simp))]
      exact Or.inr ⟨d', skip s₂, rfl, hd', Spells.skip hs₂⟩
  | fuel + 1, _, ts', _, s, @Line.seq ts ts₁ c r n hp hr, hfits, hs, hfollow => by
    rw [append_assoc, append_assoc] at hs
    rw [parseline]
    refine Gives.bind (parsepipe_complete fuel hp ((fits_backs n c).mp hfits.1) hs ?_) fun d s₁ hd hs₁ => ?_
    · intro t ht
      rcases head_replicate n _ _ _ ht with rfl | ht
      · simp
      · simp only [cons_append, head?_cons, some.injEq] at ht
        simp [← ht]
    · subst hd
      refine Gives.bind (backLoop_complete n fuel hs₁ (by simp)) fun d' s₂ hd' hs₂ => ?_
      obtain ⟨hpeek, hs₃⟩ := peek_hit ';' (by decide) rfl hs₂
      simp only [hpeek, if_true]
      refine Gives.bind (parseline_complete fuel hr hfits.2 hs₃ hfollow) fun d₃ s₄ hd₃ hs₄ => ?_
      refine Or.inr ⟨.list d' d₃, s₄, rfl, ?_, hs₄⟩
      rw [← hd', ← hd₃]
      rfl

theorem parsepipe_complete : ∀ (fuel : ℕ) {ts ts' : List Token} {c : Tree} {s : Ptr}, Pipe ts c → Fits c →
    Spells (ts ++ ts') s → Follows [.rparen, .amp, .semi] ts' → Gives (parsepipe fuel s) c ts'
  | 0, _, _, _, _, _, _, _, _ => Or.inl rfl
  | fuel + 1, ts, ts', c, s, .last hx, hfits, hs, hfollow => by
    rw [parsepipe]
    refine Gives.bind (parseexec_complete fuel hx hfits hs (hfollow.mono (by simp [afterExec]))) fun d s₁ hd hs₁ => ?_
    simp only [peek_miss '|' (u := .bar) (by decide) rfl hs₁ (hfollow.ne (by simp))]
    exact Or.inr ⟨d, skip s₁, rfl, hd, Spells.skip hs₁⟩
  | fuel + 1, _, ts', _, s, @Pipe.bar ts ts₁ c r hx hr, hfits, hs, hfollow => by
    rw [append_assoc] at hs
    rw [parsepipe]
    refine Gives.bind (parseexec_complete fuel hx hfits.1 hs ?_) fun d s₁ hd hs₁ => ?_
    · intro t ht
      simp only [cons_append, head?_cons, some.injEq] at ht
      simp [← ht, afterExec]
    obtain ⟨hpeek, hs₂⟩ := peek_hit '|' (by decide) rfl hs₁
    simp only [hpeek, if_true]
    refine Gives.bind (parsepipe_complete fuel hr hfits.2 hs₂ hfollow) fun d₂ s₃ hd₂ hs₃ => ?_
    refine Or.inr ⟨.pipe d d₂, s₃, rfl, ?_, hs₃⟩
    rw [← hd, ← hd₂]
    rfl

theorem parseexec_complete : ∀ (fuel : ℕ) {ts ts' : List Token} {c : Tree} {s : Ptr}, Exec ts c → Fits c →
    Spells (ts ++ ts') s → Follows afterExec ts' → Gives (parseexec fuel s) c ts'
  | 0, _, _, _, _, _, _, _, _ => Or.inl rfl
  | fuel + 1, ts, ts', c, s, hx, hfits, hs, hfollow => by
    rw [parseexec]
    cases hx with
    | block hl hr =>
      rw [cons_append, append_assoc, cons_append] at hs
      simp only [(peek_hit '(' (by decide) rfl hs).1, if_true]
      exact parseblock_complete fuel hl hr hfits (Spells.skip hs) hfollow
    | simple hr hargs =>
      simp only [peek_miss '(' (by decide) rfl hs (head_ne_lparen hr hargs hfollow), Bool.false_eq_true,
        if_false]
      rw [append_assoc] at hs
      refine Gives.bind (parseredirs_complete hr fuel rfl (Spells.skip hs) ?_) fun d s₁ hd hs₁ =>
        argLoop_complete hargs hfits fuel hd (by rw [argcOf_redirs hr]; rfl) hs₁ hfollow
      intro a
      cases hargs with
      | nil => exact hfollow.ne (by simp [afterExec])
      | cons _ _ => simp

theorem parseblock_complete : ∀ (fuel : ℕ) {ts ts₁ ts' : List Token} {c c' : Tree} {s : Ptr}, Line ts c →
    Redirs c ts₁ c' → Fits c' → Spells (.lparen :: (ts ++ .rparen :: (ts₁ ++ ts'))) s → Follows afterExec ts' →
    Gives (parseblock fuel s) c' ts'
  | 0, _, _, _, _, _, _, _, _, _, _, _ => Or.inl rfl
  | fuel + 1, ts, ts₁, ts', c, c', s, hl, hr, hfits, hs, hfollow => by
    obtain ⟨hpeek, hs₁⟩ := peek_hit '(' (by decide) rfl hs
    rw [parseblock]
    simp only [hpeek, if_true]
    refine Gives.bind (parseline_complete fuel hl ((fits_redirs hr).mp hfits) hs₁ ?_) fun d s₂ hd hs₂ => ?_
    · intro t ht
      simp only [head?_cons, some.injEq] at ht
      simp [← ht]
    obtain ⟨hpeek, hs₃⟩ := peek_hit ')' (by decide) rfl hs₂
    simp only [hpeek, if_true]
    exact parseredirs_complete hr fuel hd hs₃ fun a => hfollow.ne (by simp [afterExec])

end

end OsHonor.User.Shell.Completeness
