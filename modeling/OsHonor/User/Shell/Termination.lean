import OsHonor.User.Shell.Lexing

/-! # The parser comes to an end

With fuel for four calls to every character, no function of the parser runs out of it; the pointer never
moves back, and the words of the tree are words of the text (`parseline_safe`). -/

namespace OsHonor.User.Shell.Termination

open List Code Grammar
open Lexing

/-- The word `w` stands in the text `s₀`, and is not continued. -/
structure Proper (s₀ : Ptr) (w : Span) : Prop where
  start : w.q <:+ s₀
  chars : ∃ l, IsWord l ∧ w.q = l ++ w.eq
  ends : ∀ c, w.eq.head? = some c → isWord c = false

/-- A tree comes with words of the text `s₀` and a pointer not before `s`; the fuel has not run out. -/
def Safe (s₀ s : Ptr) : Parse → Prop
  | .ok (c, s') => s' <:+ s ∧ ∀ w ∈ c.words, Proper s₀ w
  | .error (.panic _) => True
  | .error .fuel => False

variable {s₀ s s₁ : Ptr} {r : Parse}

theorem Safe.bind {f : Cmd Span Redirection × Ptr → Parse} (h : Safe s₀ s₁ r)
    (hf : ∀ c s', s' <:+ s₁ → (∀ w ∈ c.words, Proper s₀ w) → Safe s₀ s (f (c, s'))) : Safe s₀ s (r >>= f) := by
  match r, h with
  | .ok (c, s'), h => exact hf c s' h.1 h.2
  | .error (.panic _), _ => trivial

theorem Safe.mono (h : Safe s₀ s₁ r) (hs : s₁ <:+ s) : Safe s₀ s r := by
  match r, h with
  | .ok (c, s'), h => exact ⟨h.1.trans hs, h.2⟩
  | .error (.panic _), _ => trivial

theorem gettoken_proper (hs : s <:+ s₀) (h : (gettoken s).ret = 'a') :
    Proper s₀ ⟨(gettoken s).q, (gettoken s).eq⟩ ∧ (gettoken s).next <:+ s ∧
      (gettoken s).next.length < s.length := by
  rcases gettoken_cases s with hnil | ⟨t, s₁, ht, hsuf, hlen, htok⟩
  · rw [hnil] at h
    exact absurd h (by decide)
  · rw [htok] at h ⊢
    obtain ⟨w, rfl⟩ := word_of_ret h
    have hs₁ : s₁ <:+ s := (suffix_append _ _).trans hsuf
    have hle := (skip_suffix s₁).length_le
    exact ⟨⟨hsuf.trans hs, ⟨w, ht.1, rfl⟩, ht.2⟩, (skip_suffix s₁).trans hs₁, by simp only; omega⟩

theorem words_redircmd {tok : Char} {c : Cmd Span Redirection} {w v : Span} (h : v ∈ (redircmd tok c w).words) :
    v ∈ c.words ∨ v = w := by
  unfold redircmd at h
  split_ifs at h
  · simpa [Cmd.words] using h
  · simpa [Cmd.words] using h
  · simpa [Cmd.words] using h
  · exact Or.inl h

theorem words_addArg {W R : Type} {w v : W} : ∀ {c : Cmd W R}, v ∈ (c.addArg w).words → v ∈ c.words ∨ v = w
  | .exec argv, h => by simpa [Cmd.addArg, Cmd.words] using h
  | .redir c file how, h => by
    rcases mem_append.mp h with h | h
    · rcases words_addArg h with h | h
      · exact Or.inl (mem_append_left _ h)
      · exact Or.inr h
    · exact Or.inl (mem_append_right _ h)
  | .pipe _ _, h | .list _ _, h | .back _, h => Or.inl h

theorem parseredirs_safe : ∀ {fuel : ℕ} {c : Cmd Span Redirection} {s : Ptr}, s.length < fuel →
    s <:+ s₀ → (∀ w ∈ c.words, Proper s₀ w) → Safe s₀ s (parseredirs fuel c s)
  | 0, _, _, h, _, _ => absurd h (Nat.not_lt_zero _)
  | fuel + 1, c, s, hlen, hs, hc => by
    rw [parseredirs]
    simp only
    split_ifs with hmore hfile
    · trivial
    · obtain ⟨hn₁, hl₁⟩ := gettoken_next hmore
      obtain ⟨hp, hn₂, hl₂⟩ := gettoken_proper (hn₁.trans hs) (not_not.mp hfile)
      refine (parseredirs_safe (by omega) ((hn₂.trans hn₁).trans hs) fun w hw => ?_).mono (hn₂.trans hn₁)
      rcases words_redircmd hw with hw | rfl
      · exact hc w hw
      · exact hp
    · exact ⟨peek_suffix _ s, hc⟩

theorem argLoop_safe : ∀ {fuel : ℕ} {c : Cmd Span Redirection} {argc : ℕ} {s : Ptr},
    2 * s.length < fuel → s <:+ s₀ → (∀ w ∈ c.words, Proper s₀ w) → Safe s₀ s (argLoop fuel c argc s)
  | 0, _, _, _, h, _, _ => absurd h (Nat.not_lt_zero _)
  | fuel + 1, c, argc, s, hlen, hs, hc => by
    rw [argLoop]
    simp only
    have hpeek := peek_suffix ['|', ')', '&', ';'] s
    split_ifs with hstop hend hword hargs
    · exact ⟨hpeek, hc⟩
    · refine ⟨?_, hc⟩
      rcases gettoken_cases (peek ['|', ')', '&', ';'] s).2 with hnil | ⟨t, s₁, -, -, -, htok⟩
      · rw [hnil]
        exact nil_suffix
      · rw [htok] at hend
        exact absurd hend (ret_ne_zero t)
    · trivial
    · trivial
    · obtain ⟨hp, hn, hl⟩ := gettoken_proper (hpeek.trans hs) (not_not.mp hword)
      have hle := hpeek.length_le
      refine Safe.bind (parseredirs_safe (by omega) ((hn.trans hpeek).trans hs) fun w hw => ?_) fun c' s' hs' hc' => ?_
      · rcases words_addArg hw with hw | rfl
        · exact hc w hw
        · exact hp
      · have hle' := hs'.length_le
        exact (argLoop_safe (by omega) (hs'.trans ((hn.trans hpeek).trans hs)) hc').mono
          (hs'.trans (hn.trans hpeek))

theorem backLoop_safe : ∀ {fuel : ℕ} {c : Cmd Span Redirection} {s : Ptr}, s.length < fuel →
    (∀ w ∈ c.words, Proper s₀ w) → Safe s₀ s (backLoop fuel c s)
  | 0, _, _, h, _ => absurd h (Nat.not_lt_zero _)
  | fuel + 1, c, s, hlen, hc => by
    rw [backLoop]
    simp only
    split_ifs with hmore
    · obtain ⟨hn, hl⟩ := gettoken_next hmore
      exact (backLoop_safe (c := .back c) (by omega) hc).mono hn
    · exact ⟨peek_suffix _ s, hc⟩

mutual

theorem parseline_safe : ∀ {fuel : ℕ} {s : Ptr}, 4 * s.length + 4 ≤ fuel → s <:+ s₀ →
    Safe s₀ s (parseline fuel s)
  | 0, s, h, _ => by omega
  | fuel + 1, s, hlen, hs => by
    rw [parseline]
    refine Safe.bind (parsepipe_safe (by omega) hs) fun c s₁ hs₁ hc => ?_
    have hle₁ := hs₁.length_le
    refine Safe.bind (backLoop_safe (by omega) hc) fun c₂ s₂ hs₂ hc₂ => ?_
    have hle₂ := hs₂.length_le
    simp only
    split_ifs with hmore
    · obtain ⟨hn, hl⟩ := gettoken_next hmore
      have hn' := hn.trans (hs₂.trans hs₁)
      refine Safe.bind (parseline_safe (by omega) (hn'.trans hs)) fun r s₃ hs₃ hr => ⟨hs₃.trans hn', fun w hw => ?_⟩
      rcases mem_append.mp hw with hw | hw
      · exact hc₂ w hw
      · exact hr w hw
    · exact ⟨(peek_suffix _ s₂).trans (hs₂.trans hs₁), hc₂⟩

theorem parsepipe_safe : ∀ {fuel : ℕ} {s : Ptr}, 4 * s.length + 3 ≤ fuel → s <:+ s₀ →
    Safe s₀ s (parsepipe fuel s)
  | 0, s, h, _ => by omega
  | fuel + 1, s, hlen, hs => by
    rw [parsepipe]
    refine Safe.bind (parseexec_safe (by omega) hs) fun c s₁ hs₁ hc => ?_
    have hle₁ := hs₁.length_le
    simp only
    split_ifs with hmore
    · obtain ⟨hn, hl⟩ := gettoken_next hmore
      have hn' := hn.trans hs₁
      refine Safe.bind (parsepipe_safe (by omega) (hn'.trans hs)) fun r s₂ hs₂ hr => ⟨hs₂.trans hn', fun w hw => ?_⟩
      rcases mem_append.mp hw with hw | hw
      · exact hc w hw
      · exact hr w hw
    · exact ⟨(peek_suffix _ s₁).trans hs₁, hc⟩

theorem parseexec_safe : ∀ {fuel : ℕ} {s : Ptr}, 4 * s.length + 2 ≤ fuel → s <:+ s₀ →
    Safe s₀ s (parseexec fuel s)
  | 0, s, h, _ => by omega
  | fuel + 1, s, hlen, hs => by
    rw [parseexec]
    simp only
    have hpeek := peek_suffix ['('] s
    have hle := hpeek.length_le
    split_ifs with hblock
    · exact (parseblock_safe (by omega) (hpeek.trans hs)).mono hpeek
    · refine Safe.bind (parseredirs_safe (by omega) (hpeek.trans hs) (by simp [Cmd.words])) fun c s₁ hs₁ hc => ?_
      have hle₁ := hs₁.length_le
      exact (argLoop_safe (by omega) (hs₁.trans (hpeek.trans hs)) hc).mono (hs₁.trans hpeek)

theorem parseblock_safe : ∀ {fuel : ℕ} {s : Ptr}, 4 * s.length + 1 ≤ fuel → s <:+ s₀ →
    Safe s₀ s (parseblock fuel s)
  | 0, s, h, _ => by omega
  | fuel + 1, s, hlen, hs => by
    rw [parseblock]
    simp only
    split_ifs with hblock
    · obtain ⟨hn, hl⟩ := gettoken_next hblock
      refine Safe.bind (parseline_safe (by omega) (hn.trans hs)) fun c s₁ hs₁ hc => ?_
      have hle₁ := hs₁.length_le
      simp only
      split_ifs with hclosed
      · obtain ⟨hn₁, hl₁⟩ := gettoken_next hclosed
        have hn' := hn₁.trans (hs₁.trans hn)
        exact (parseredirs_safe (by omega) (hn'.trans hs) hc).mono hn'
      · trivial
    · trivial

end

end OsHonor.User.Shell.Termination
