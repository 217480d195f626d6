import OsHonor.User.Shell.Lexing

/-! # The parser returns what the grammar derives

Every function of the parser that returns a tree has taken tokens that the grammar derives, with that tree
(`parseline_sound`). -/

namespace OsHonor.User.Shell.Soundness

open Code Grammar
open Lexing

theorem bind_eq_ok {ε α β : Type} {x : Except ε α} {f : α → Except ε β} {b : β} :
    x >>= f = .ok b ↔ ∃ a, x = .ok a ∧ f a = .ok b := by
  cases x with
  | error e => simp [bind, Except.bind]
  | ok a => simp [bind, Except.bind]

theorem ok_inj {c c' : Cmd Span Redirection} {s s' : Ptr} (h : (.ok (c, s) : Parse) = .ok (c', s')) :
    c = c' ∧ s = s' := Prod.mk.inj (Except.ok.inj h)

def text (w : Span) : List Char := w.q.take (w.q.length - w.eq.length)

@[simp] theorem text_append (l s : List Char) : text ⟨l ++ s, s⟩ = l := by simp [text]

def textOf (c : Cmd Span Redirection) : Tree := c.map text id

theorem textOf_addArg (w : Span) : ∀ c : Cmd Span Redirection, textOf (c.addArg w) = (textOf c).addArg (text w)
  | .exec argv => by simp [textOf, Cmd.addArg, Cmd.map]
  | .redir c file how => by
    have := textOf_addArg w c
    simp only [textOf] at this ⊢
    simp [Cmd.addArg, Cmd.map, this]
  | .pipe _ _ | .list _ _ | .back _ => rfl

theorem textOf_redircmd (a : Arrow) (c : Cmd Span Redirection) (w : Span) :
    textOf (redircmd (Token.arrow a).ret c w) = .redir (textOf c) (text w) a.redirection := by
  cases a <;> rfl

/-- A result of the parser on the tokens `ts`: it has taken tokens that `G` derives. -/
def Derives (G : List Token → Tree → Prop) (ts : List Token) (c : Cmd Span Redirection) (s : Ptr) : Prop :=
  ∃ ts₁ ts₂, ts = ts₁ ++ ts₂ ∧ G ts₁ (textOf c) ∧ Spells ts₂ s

theorem mem_of_any {toks : List Char} {ts : List Token} (h : (ts.head?.any fun t => toks.contains t.key) = true) :
    ∃ t ts', ts = t :: ts' ∧ t.key ∈ toks := by
  cases ts with
  | nil => simp at h
  | cons t ts => exact ⟨t, ts, rfl, by simpa using h⟩

theorem parseredirs_sound : ∀ (fuel : ℕ) {c c' : Cmd Span Redirection} {s s' : Ptr} {ts : List Token},
    Spells ts s → parseredirs fuel c s = .ok (c', s') → Derives (Redirs (textOf c)) ts c' s'
  | 0, _, _, _, _, _, _, h => by simp [parseredirs] at h
  | fuel + 1, c, c', s, s', ts, hs, h => by
    rw [parseredirs, peek_spells (by decide) hs] at h
    simp only at h
    split_ifs at h with hmore hfile
    · obtain ⟨t, ts, rfl, hkey⟩ := mem_of_any hmore
      obtain ⟨a, rfl⟩ : ∃ a, t = .arrow a := by
        cases t with
        | arrow a => exact ⟨a, rfl⟩
        | _ => exact absurd hkey (by simp [Token.key, Token.ret])
      obtain ⟨s₁, htok, hs₁⟩ := gettoken_cons (Spells.skip hs)
      rw [htok] at h hfile
      simp only at h hfile
      obtain ⟨w, ts', s₂, rfl, hword, hs₂⟩ := gettoken_word hs₁ (not_not.mp hfile)
      rw [hword] at h
      obtain ⟨ts₁, ts₂, rfl, hr, hs'⟩ := parseredirs_sound fuel hs₂ h
      rw [textOf_redircmd, text_append] at hr
      exact ⟨_, ts₂, rfl, .cons hr, hs'⟩
    · obtain ⟨rfl, rfl⟩ := ok_inj h
      exact ⟨[], ts, rfl, .nil, Spells.skip hs⟩

theorem argLoop_sound : ∀ (fuel : ℕ) {c c' : Cmd Span Redirection} {argc : ℕ} {s s' : Ptr} {ts : List Token},
    Spells ts s → argLoop fuel c argc s = .ok (c', s') → Derives (Args (textOf c)) ts c' s'
  | 0, _, _, _, _, _, _, _, h => by simp [argLoop] at h
  | fuel + 1, c, c', argc, s, s', ts, hs, h => by
    have hskip := Spells.skip hs
    rw [argLoop, peek_spells (by decide) hs] at h
    simp only at h
    split_ifs at h with hstop hend hword hargs
    · obtain ⟨rfl, rfl⟩ := ok_inj h
      exact ⟨[], ts, rfl, .nil, hskip⟩
    · obtain ⟨rfl, rfl⟩ := ok_inj h
      cases ts with
      | nil =>
        rw [gettoken_nil hskip]
        exact ⟨[], [], rfl, .nil, .nil (by simp [Blank])⟩
      | cons t ts =>
        obtain ⟨s₁, htok, -⟩ := gettoken_cons hskip
        rw [htok] at hend
        exact absurd hend (ret_ne_zero t)
    · obtain ⟨w, ts, s₁, rfl, htok, hs₁⟩ := gettoken_word hskip (not_not.mp hword)
      rw [htok] at h
      obtain ⟨⟨c₁, s₂⟩, hredirs, h⟩ := bind_eq_ok.mp h
      obtain ⟨ts₁, ts₂, rfl, hr, hs₂⟩ := parseredirs_sound fuel hs₁ hredirs
      obtain ⟨ts₃, ts₄, rfl, ha, hs'⟩ := argLoop_sound fuel hs₂ h
      rw [textOf_addArg, text_append] at hr
      exact ⟨_, ts₄, by simp, .cons hr ha, hs'⟩

theorem backLoop_sound : ∀ (fuel : ℕ) {c c' : Cmd Span Redirection} {s s' : Ptr} {ts : List Token},
    Spells ts s → backLoop fuel c s = .ok (c', s') →
      ∃ n ts', ts = List.replicate n .amp ++ ts' ∧ textOf c' = backs n (textOf c) ∧ Spells ts' s'
  | 0, _, _, _, _, _, _, h => by simp [backLoop] at h
  | fuel + 1, c, c', s, s', ts, hs, h => by
    rw [backLoop] at h
    rcases peek_cases '&' (u := .amp) (by decide) rfl hs with ⟨ts, rfl, hpeek, hs₁⟩ | hpeek <;>
      simp only [hpeek, if_true, Bool.false_eq_true, if_false] at h
    · obtain ⟨n, ts', rfl, hc, hs'⟩ := backLoop_sound fuel hs₁ h
      exact ⟨n + 1, ts', rfl, hc, hs'⟩
    · obtain ⟨rfl, rfl⟩ := ok_inj h
      exact ⟨0, ts, rfl, rfl, Spells.skip hs⟩

mutual

theorem parseline_sound : ∀ (fuel : ℕ) {c : Cmd Span Redirection} {s s' : Ptr} {ts : List Token},
    Spells ts s → parseline fuel s = .ok (c, s') → Derives Line ts c s'
  | 0, _, _, _, _, _, h => by simp [parseline] at h
  | fuel + 1, c, s, s', ts, hs, h => by
    rw [parseline] at h
    obtain ⟨⟨c₁, s₁⟩, hpipe, h⟩ := bind_eq_ok.mp h
    obtain ⟨⟨c₂, s₂⟩, hback, h⟩ := bind_eq_ok.mp h
    obtain ⟨ts₁, ts₂, rfl, hp, hs₁⟩ := parsepipe_sound fuel hs hpipe
    obtain ⟨n, ts₃, rfl, hc₂, hs₂⟩ := backLoop_sound fuel hs₁ hback
    rcases peek_cases ';' (u := .semi) (by decide) rfl hs₂ with ⟨ts₄, rfl, hpeek, hs₃⟩ | hpeek <;>
      simp only [hpeek, if_true, Bool.false_eq_true, if_false] at h
    · obtain ⟨⟨r, s₄⟩, hline, h⟩ := bind_eq_ok.mp h
      obtain ⟨rfl, rfl⟩ := ok_inj h
      obtain ⟨ts₅, ts₆, rfl, hr, hs₄⟩ := parseline_sound fuel hs₃ hline
      refine ⟨ts₁ ++ (List.replicate n .amp ++ .semi :: ts₅), ts₆, by simp, ?_, hs₄⟩
      have : textOf (.list c₂ r) = .list (backs n (textOf c₁)) (textOf r) := by
        rw [← hc₂]
        rfl
      rw [this]
      exact .seq n hp hr
    · obtain ⟨rfl, rfl⟩ := ok_inj h
      refine ⟨ts₁ ++ List.replicate n .amp, ts₃, by simp, ?_, Spells.skip hs₂⟩
      rw [hc₂]
      exact .last n hp

theorem parsepipe_sound : ∀ (fuel : ℕ) {c : Cmd Span Redirection} {s s' : Ptr} {ts : List Token},
    Spells ts s → parsepipe fuel s = .ok (c, s') → Derives Pipe ts c s'
  | 0, _, _, _, _, _, h => by simp [parsepipe] at h
  | fuel + 1, c, s, s', ts, hs, h => by
    rw [parsepipe] at h
    obtain ⟨⟨c₁, s₁⟩, hexec, h⟩ := bind_eq_ok.mp h
    obtain ⟨ts₁, ts₂, rfl, hx, hs₁⟩ := parseexec_sound fuel hs hexec
    rcases peek_cases '|' (u := .bar) (by decide) rfl hs₁ with ⟨ts₃, rfl, hpeek, hs₂⟩ | hpeek <;>
      simp only [hpeek, if_true, Bool.false_eq_true, if_false] at h
    · obtain ⟨⟨r, s₃⟩, hpipe, h⟩ := bind_eq_ok.mp h
      obtain ⟨rfl, rfl⟩ := ok_inj h
      obtain ⟨ts₄, ts₅, rfl, hr, hs₃⟩ := parsepipe_sound fuel hs₂ hpipe
      exact ⟨ts₁ ++ .bar :: ts₄, ts₅, by simp, .bar hx hr, hs₃⟩
    · obtain ⟨rfl, rfl⟩ := ok_inj h
      exact ⟨ts₁, ts₂, rfl, .last hx, Spells.skip hs₁⟩

theorem parseexec_sound : ∀ (fuel : ℕ) {c : Cmd Span Redirection} {s s' : Ptr} {ts : List Token},
    Spells ts s → parseexec fuel s = .ok (c, s') → Derives Exec ts c s'
  | 0, _, _, _, _, _, h => by simp [parseexec] at h
  | fuel + 1, c, s, s', ts, hs, h => by
    rw [parseexec] at h
    have hpeek : (peek ['('] s).2 = skip s := rfl
    simp only [hpeek] at h
    split_ifs at h
    · exact parseblock_sound fuel (Spells.skip hs) h
    · obtain ⟨⟨c₁, s₁⟩, hredirs, h⟩ := bind_eq_ok.mp h
      obtain ⟨ts₁, ts₂, rfl, hr, hs₁⟩ := parseredirs_sound fuel (Spells.skip hs) hredirs
      obtain ⟨ts₃, ts₄, rfl, ha, hs'⟩ := argLoop_sound fuel hs₁ h
      exact ⟨ts₁ ++ ts₃, ts₄, by simp, .simple hr ha, hs'⟩

theorem parseblock_sound : ∀ (fuel : ℕ) {c : Cmd Span Redirection} {s s' : Ptr} {ts : List Token},
    Spells ts s → parseblock fuel s = .ok (c, s') → Derives Exec ts c s'
  | 0, _, _, _, _, _, h => by simp [parseblock] at h
  | fuel + 1, c, s, s', ts, hs, h => by
    rw [parseblock] at h
    rcases peek_cases '(' (u := .lparen) (by decide) rfl hs with ⟨ts, rfl, hpeek, hs₁⟩ | hpeek <;>
      simp only [hpeek, if_true, Bool.false_eq_true, if_false, reduceCtorEq] at h
    obtain ⟨⟨c₁, s₂⟩, hline, h⟩ := bind_eq_ok.mp h
    obtain ⟨ts₁, ts₂, rfl, hl, hs₂⟩ := parseline_sound fuel hs₁ hline
    rcases peek_cases ')' (u := .rparen) (by decide) rfl hs₂ with ⟨ts₃, rfl, hpeek, hs₃⟩ | hpeek <;>
      simp only [hpeek, if_true, Bool.false_eq_true, if_false, reduceCtorEq] at h
    obtain ⟨ts₄, ts₅, rfl, hr, hs'⟩ := parseredirs_sound fuel hs₃ h
    exact ⟨.lparen :: (ts₁ ++ .rparen :: ts₄), ts₅, by simp, .block hl hr, hs'⟩

end

end OsHonor.User.Shell.Soundness
