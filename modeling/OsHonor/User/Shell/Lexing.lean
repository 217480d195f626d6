import Mathlib.Data.List.TakeWhile
import OsHonor.User.Shell.Grammar

/-! # Tokens in the text

`gettoken` and `peek` walk through the tokens of a text (`gettoken_cons`, `peek_spells`), every text is
spelled by some tokens (`spells_total`), and a token that has been taken moves the pointer
(`gettoken_next`). -/

namespace OsHonor.User.Shell.Lexing

open List Code Grammar

variable {c : Char} {s : List Char} {t : Token} {ts : List Token}

theorem isSpace_of_isWord (h : isWord c = true) : isSpace c = false := by
  unfold isWord at h
  unfold isSpace
  simp only [Bool.and_eq_true, Bool.not_eq_true'] at h
  exact h.1

theorem notMem_symbols (h : isWord c = true) : c ∉ symbols := by
  unfold isWord at h
  simp only [Bool.and_eq_true, Bool.not_eq_true', ← Bool.not_eq_true, contains_iff_mem] at h
  exact h.2

theorem skip_blank {l : List Char} (hl : Blank l) : skip (l ++ s) = skip s :=
  dropWhile_append_of_pos hl

theorem chars_eq_cons (h : t.Ends s) : ∃ c l, t.chars = c :: l ∧ isSpace c = false ∧
      (c = t.key ∨ ∃ w, t = .word w ∧ isWord c = true) := by
  cases t with
  | word w =>
    obtain ⟨c, l, rfl⟩ := exists_cons_of_ne_nil h.1.ne_nil
    have hc := h.1.all c (by simp)
    exact ⟨c, l, rfl, isSpace_of_isWord hc, Or.inr ⟨_, rfl, hc⟩⟩
  | arrow a => cases a <;> exact ⟨_, _, rfl, by decide, Or.inl rfl⟩
  | _ => exact ⟨_, _, rfl, by decide, Or.inl rfl⟩

theorem skip_chars (h : t.Ends s) : skip (t.chars ++ s) = t.chars ++ s := by
  obtain ⟨c, l, hc, hspace, -⟩ := chars_eq_cons h
  rw [hc, cons_append]
  exact dropWhile_cons_of_neg (by simp [hspace])

theorem skip_nil (h : Spells [] s) : skip s = [] := by
  cases h with
  | nil hl => exact dropWhile_eq_nil_iff.mpr hl

theorem skip_cons (h : Spells (t :: ts) s) :
    ∃ s₁, skip s = t.chars ++ s₁ ∧ t.Ends s₁ ∧ Spells ts s₁ := by
  cases h with
  | cons hl ht hs => exact ⟨_, by rw [skip_blank hl, skip_chars ht], ht, hs⟩

theorem Spells.skip (h : Spells ts s) : Spells ts (skip s) := by
  cases ts with
  | nil =>
    rw [skip_nil h]
    exact .nil (by simp [Blank])
  | cons t ts =>
    obtain ⟨s₁, hs, ht, h₁⟩ := skip_cons h
    rw [hs]
    exact .cons (l := []) (by simp [Blank]) ht h₁

/-- **`peek`** looks at the first token. -/
theorem peek_spells {toks : List Char} (htoks : toks.all symbols.contains = true) (h : Spells ts s) :
    peek toks s = (ts.head?.any fun t => toks.contains (t.key), skip s) := by
  unfold peek
  refine Prod.ext ?_ rfl
  cases ts with
  | nil => simp [skip_nil h]
  | cons t ts =>
    obtain ⟨s₁, hs, ht, -⟩ := skip_cons h
    obtain ⟨c, l, hc, -, hkey⟩ := chars_eq_cons ht
    simp only [hs, hc, cons_append, head?_cons, Option.any_some]
    rcases hkey with rfl | ⟨w, rfl, hw⟩
    · rfl
    · -- neither the first character of a word nor the mark for words is a symbol
      have htoks : ∀ c ∈ toks, c ∈ symbols := by simpa using htoks
      have h₁ : c ∉ toks := fun hc' => notMem_symbols hw (htoks c hc')
      have h₂ : 'a' ∉ toks := fun ha => absurd (htoks 'a' ha) (by decide)
      simp [Token.key, Token.ret, h₁, h₂]

def Plain (u : Token) : Prop := u = .bar ∨ u = .lparen ∨ u = .rparen ∨ u = .semi ∨ u = .amp

instance (u : Token) : Decidable (Plain u) := inferInstanceAs (Decidable (_ ∨ _ ∨ _ ∨ _ ∨ _))

theorem key_mem_chars {u : Token} (hu : Plain u) : t.key ∈ u.chars ↔ t = u := by
  rcases hu with rfl | rfl | rfl | rfl | rfl <;> cases t with
  | arrow a => cases a <;> decide
  | word w => simp [Token.key, Token.ret, Token.chars]
  | _ => decide

theorem peek_plain {u : Token} (hu : Plain u) (h : Spells ts s) :
    peek u.chars s = (decide (ts.head? = some u), skip s) := by
  have hsub : u.chars.all symbols.contains = true := by rcases hu with rfl | rfl | rfl | rfl | rfl <;> decide
  rw [peek_spells hsub h]
  refine Prod.ext ?_ rfl
  cases ts with
  | nil => simp
  | cons t ts =>
    simp only [head?_cons, Option.any_some, Option.some.injEq]
    rw [Bool.eq_iff_iff, contains_iff_mem, key_mem_chars hu, decide_eq_true_eq]

theorem scan_chars (h : t.Ends s) : scan (t.chars ++ s) = (t.ret, s) := by
  cases t with
  | word w =>
    obtain ⟨c, l, rfl⟩ := exists_cons_of_ne_nil h.1.ne_nil
    have hc := notMem_symbols (h.1.all c (by simp))
    simp only [symbols, mem_cons, not_mem_nil, or_false, not_or] at hc
    obtain ⟨h1, h2, h3, h4, h5, h6, h7⟩ := hc
    have hrest : s.dropWhile isWord = s := by
      rcases s with _ | ⟨d, s⟩
      · rfl
      · exact dropWhile_cons_of_neg (by simp [h.2 d rfl])
    have hdrop : ((c :: l) ++ s).dropWhile isWord = s := by
      rw [dropWhile_append_of_pos h.1.all, hrest]
    rw [cons_append] at hdrop
    simp only [Token.chars, cons_append, scan, h1, h2, h3, h4, h5, h6, h7, or_self, if_false, hdrop,
      Token.ret]
  | arrow a =>
    cases a with
    | input => simp [Token.chars, scan, Token.ret]
    | output =>
      have hne : s.head? ≠ some '>' := h
      simp [Token.chars, scan, Token.ret, hne]
    | append => simp [Token.chars, scan, Token.ret]
  | _ => simp [Token.chars, scan, Token.ret]

/-- **`gettoken`** takes the first token. -/
theorem gettoken_cons (h : Spells (t :: ts) s) :
    ∃ s₁, gettoken s = ⟨t.ret, t.chars ++ s₁, s₁, skip s₁⟩ ∧ Spells ts (skip s₁) := by
  obtain ⟨s₁, hs, ht, h₁⟩ := skip_cons h
  exact ⟨s₁, by simp only [gettoken, hs, scan_chars ht], Spells.skip h₁⟩

section Plain

variable (c : Char) {u : Token} (hu : Plain u) (hc : u.chars = [c])
include hu hc

theorem peek_hit (h : Spells (u :: ts) s) :
    peek [c] s = (true, skip s) ∧ Spells ts (gettoken (skip s)).next := by
  obtain ⟨s₁, htok, hs₁⟩ := gettoken_cons (Spells.skip h)
  rw [← hc, peek_plain hu h, htok]
  exact ⟨by simp, hs₁⟩

theorem peek_miss (h : Spells ts s) (hne : ts.head? ≠ some u) : peek [c] s = (false, skip s) := by
  rw [← hc, peek_plain hu h, decide_eq_false hne]

/-- **The parser looks for `u`**: it is there and can be taken, or it is not. -/
theorem peek_cases (h : Spells ts s) :
    (∃ ts', ts = u :: ts' ∧ peek [c] s = (true, skip s) ∧ Spells ts' (gettoken (skip s)).next) ∨
      peek [c] s = (false, skip s) := by
  by_cases hne : ts.head? = some u
  · obtain ⟨ts, rfl⟩ := head?_eq_some_iff.mp hne
    exact Or.inl ⟨ts, rfl, peek_hit c hu hc h⟩
  · exact Or.inr (peek_miss c hu hc h hne)

end Plain

theorem gettoken_nil (h : Spells [] s) : gettoken s = ⟨'\x00', [], [], []⟩ := by
  unfold gettoken
  rw [skip_nil h]
  rfl

theorem ret_ne_zero (t : Token) : t.ret ≠ '\x00' := by
  cases t with
  | arrow a => cases a <;> decide
  | word w => simp [Token.ret]
  | _ => decide

theorem word_of_ret (h : t.ret = 'a') : ∃ w, t = .word w := by
  cases t with
  | word w => exact ⟨w, rfl⟩
  | arrow a => cases a <;> exact absurd h (by decide)
  | _ => exact absurd h (by decide)

theorem gettoken_word (h : Spells ts s) (hret : (gettoken s).ret = 'a') :
    ∃ w ts' s₁, ts = .word w :: ts' ∧ gettoken s = ⟨'a', w ++ s₁, s₁, skip s₁⟩ ∧ Spells ts' (skip s₁) := by
  cases ts with
  | nil =>
    rw [gettoken_nil h] at hret
    exact absurd hret (by decide)
  | cons t ts =>
    obtain ⟨s₁, htok, hs₁⟩ := gettoken_cons h
    rw [htok] at hret
    obtain ⟨w, rfl⟩ := word_of_ret hret
    exact ⟨w, ts, s₁, rfl, htok, hs₁⟩

theorem exists_token (hc : isSpace c = false) (l : List Char) :
    ∃ (t : Token) (s : List Char), c :: l = t.chars ++ s ∧ t.Ends s ∧ s.length ≤ l.length := by
  by_cases hw : isWord c = true
  · refine ⟨.word ((c :: l).takeWhile isWord), (c :: l).dropWhile isWord, ?_, ⟨⟨?_, ?_⟩, ?_⟩, ?_⟩
    · exact takeWhile_append_dropWhile.symm
    · rw [takeWhile_cons_of_pos hw]
      simp
    · exact fun d hd => mem_takeWhile_imp hd
    · intro d hd
      have := head?_dropWhile_not isWord (c :: l)
      rw [hd] at this
      simpa using this
    · rw [dropWhile_cons_of_pos hw]
      exact length_dropWhile_le isWord l
  · have hsym : c ∈ symbols := by
      have hc' : c ∉ whitespace := by simpa [isSpace] using hc
      simpa [isWord, hc'] using hw
    simp only [symbols, mem_cons, not_mem_nil, or_false] at hsym
    rcases hsym with rfl | rfl | rfl | rfl | rfl | rfl | rfl
    · exact ⟨.arrow .input, l, rfl, trivial, le_rfl⟩
    · exact ⟨.bar, l, rfl, trivial, le_rfl⟩
    · by_cases hgt : l.head? = some '>'
      · obtain ⟨l, rfl⟩ := head?_eq_some_iff.mp hgt
        exact ⟨.arrow .append, l, rfl, trivial, by simp⟩
      · exact ⟨.arrow .output, l, rfl, hgt, le_rfl⟩
    · exact ⟨.amp, l, rfl, trivial, le_rfl⟩
    · exact ⟨.semi, l, rfl, trivial, le_rfl⟩
    · exact ⟨.lparen, l, rfl, trivial, le_rfl⟩
    · exact ⟨.rparen, l, rfl, trivial, le_rfl⟩

/-- **Every text is spelled by some tokens.** -/
theorem spells_total : ∀ (n : ℕ) (s : List Char), s.length ≤ n → ∃ ts, Spells ts s := by
  intro n
  induction n with
  | zero =>
    intro s hs
    rw [length_eq_zero_iff.mp (Nat.le_zero.mp hs)]
    exact ⟨[], .nil (by simp [Blank])⟩
  | succ n ih =>
    intro s hs
    have hsplit := takeWhile_append_dropWhile (p := isSpace) (l := s)
    have hblank : Blank (s.takeWhile isSpace) := fun c hc => mem_takeWhile_imp hc
    rcases hq : s.dropWhile isSpace with _ | ⟨c, l⟩
    · rw [hq, append_nil] at hsplit
      exact ⟨[], .nil (hsplit ▸ hblank)⟩
    · have hlen : l.length ≤ n := by
        have := length_dropWhile_le isSpace s
        rw [hq, length_cons] at this
        omega
      have hc : isSpace c = false := by
        have := head?_dropWhile_not isSpace s
        rw [hq] at this
        simpa using this
      obtain ⟨t, s₁, hchars, hends, hs₁⟩ := exists_token hc l
      obtain ⟨ts, hts⟩ := ih s₁ (hs₁.trans hlen)
      rw [hq, hchars] at hsplit
      exact ⟨t :: ts, hsplit ▸ .cons hblank hends hts⟩

theorem skip_suffix (s : Ptr) : skip s <:+ s := dropWhile_suffix _

theorem skip_skip (s : Ptr) : skip (skip s) = skip s := by
  obtain ⟨ts, hs⟩ := spells_total s.length s le_rfl
  cases ts with
  | nil => rw [skip_nil hs, skip_nil (.nil (by simp [Blank]))]
  | cons t ts =>
    obtain ⟨s₁, hskip, ht, -⟩ := skip_cons hs
    rw [hskip, skip_chars ht]

theorem gettoken_cases (s : Ptr) : gettoken s = ⟨'\x00', [], [], []⟩ ∨
    ∃ (t : Token) (s₁ : Ptr), t.Ends s₁ ∧ t.chars ++ s₁ <:+ s ∧ s₁.length < s.length ∧
      gettoken s = ⟨t.ret, t.chars ++ s₁, s₁, skip s₁⟩ := by
  obtain ⟨ts, hs⟩ := spells_total s.length s le_rfl
  cases ts with
  | nil => exact Or.inl (gettoken_nil hs)
  | cons t ts =>
    obtain ⟨s₁, hskip, ht, -⟩ := skip_cons hs
    obtain ⟨c, l, hchars, -⟩ := chars_eq_cons ht
    have hsuf : t.chars ++ s₁ <:+ s := hskip ▸ skip_suffix s
    refine Or.inr ⟨t, s₁, ht, hsuf, ?_, by simp only [gettoken, hskip, scan_chars ht]⟩
    have := hsuf.length_le
    rw [hchars, cons_append, length_cons, length_append] at this
    omega

theorem gettoken_next {toks : List Char} {s : Ptr} (h : (peek toks s).1 = true) :
    (gettoken (peek toks s).2).next <:+ s ∧ (gettoken (peek toks s).2).next.length < s.length := by
  have hsk : (peek toks s).2 = skip s := rfl
  rcases gettoken_cases (skip s) with hnil | ⟨t, s₁, -, hsuf, hlen, htok⟩
  · -- `peek` has seen a character
    have hq : skip (skip s) = [] := congrArg Lexed.q hnil
    rw [skip_skip] at hq
    simp [peek, hq] at h
  · rw [hsk, htok]
    have hs₁ : s₁ <:+ skip s := (suffix_append _ _).trans hsuf
    have hle := (skip_suffix s).length_le
    have hle₁ := (skip_suffix s₁).length_le
    exact ⟨((skip_suffix s₁).trans hs₁).trans (skip_suffix s), by simp only; omega⟩

theorem peek_suffix (toks : List Char) (s : Ptr) : (peek toks s).2 <:+ s := skip_suffix s

end OsHonor.User.Shell.Lexing
