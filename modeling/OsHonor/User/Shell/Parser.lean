import OsHonor.User.Shell.Completeness
import OsHonor.User.Shell.Termination

/-! # The shell parser inverts printing

The zeros of `nulterminate` fall behind the words and never into one (`cstring_of_proper`), so that the
tree of `parsecmd` has the words that `parseline` has found. With soundness, completeness and termination
of `parseline`: `parser_inverts_print`. -/

namespace OsHonor.User.Shell.Parser

open List Code Grammar
open Lexing Soundness Completeness
open Termination

/-! ### The zeros behind the words -/

theorem getElem?_nulterminate (s : Ptr) (ws : List Span) (mem : List Char) (i : ℕ) :
    (ws.foldl (fun mem w => mem.set (offset s w.eq) '\x00') mem)[i]? =
      if (∃ w ∈ ws, offset s w.eq = i) ∧ i < mem.length then some '\x00' else mem[i]? := by
  induction ws generalizing mem with
  | nil => simp
  | cons w ws ih =>
    rw [foldl_cons, ih, length_set, getElem?_set]
    by_cases hi : i < mem.length
    · have hiff : (∃ v ∈ w :: ws, offset s v.eq = i) ↔ offset s w.eq = i ∨ ∃ v ∈ ws, offset s v.eq = i := by simp
      simp only [hiff, hi, and_true]
      by_cases hw : ∃ v ∈ ws, offset s v.eq = i
      · rw [if_pos hw, if_pos (Or.inr hw)]
      · rw [if_neg hw]
        by_cases he : offset s w.eq = i
        · rw [if_pos he, if_pos (he ▸ hi), if_pos (Or.inl he)]
        · rw [if_neg he, if_neg (not_or.mpr ⟨he, hw⟩)]
    · simp only [hi, and_false, if_false, getElem?_eq_none (Nat.le_of_not_lt hi)]
      split_ifs
      · omega
      · rfl
      · rfl

theorem split_of_proper {s₀ : Ptr} {w : Span} (h : Proper s₀ w) :
    ∃ p l, IsWord l ∧ s₀ = p ++ (l ++ w.eq) ∧ offset s₀ w.q = p.length ∧
      offset s₀ w.eq = p.length + l.length ∧ text w = l := by
  obtain ⟨p, hp⟩ := h.start
  obtain ⟨l, hl, hq⟩ := h.chars
  refine ⟨p, l, hl, by rw [← hp, hq], ?_, ?_, ?_⟩
  · rw [offset, ← hp, length_append]
    omega
  · rw [offset, ← hp, hq, length_append, length_append]
    omega
  · rw [text, hq, length_append, Nat.add_sub_cancel]
    exact take_left

theorem cstring_eq {mem l : List Char} {i : ℕ} (hl : '\x00' ∉ l) (h : ∀ j < l.length, mem[i + j]? = l[j]?)
    (hz : mem[i + l.length]? = some '\x00') : cstring mem i = l := by
  have hdrop : mem.drop i = l ++ '\x00' :: mem.drop (i + l.length + 1) := by
    refine ext_getElem? fun j => ?_
    rw [getElem?_drop]
    by_cases hj : j < l.length
    · rw [h j hj, getElem?_append_left hj]
    · rw [getElem?_append_right (by omega)]
      by_cases he : j = l.length
      · rw [he, hz, Nat.sub_self]
        rfl
      · obtain ⟨k, rfl⟩ : ∃ k, j = l.length + 1 + k := ⟨j - l.length - 1, by omega⟩
        have hk : l.length + 1 + k - l.length = k + 1 := by omega
        rw [hk, getElem?_cons_succ, getElem?_drop]
        congr 1
        omega
  rw [cstring, hdrop, takeWhile_append_of_pos]
  · simp
  · intro c hc
    simp only [ne_eq, decide_not, Bool.not_eq_eq_eq_not, Bool.not_true, decide_eq_false_iff_not]
    rintro rfl
    exact hl hc

/-- **The words of a tree are read back from the memory.** -/
theorem cstring_of_proper {s : Ptr} (hz : '\x00' ∉ s) {c : Cmd Span Redirection} (hc : ∀ w ∈ c.words, Proper s w)
    {w : Span} (hw : w ∈ c.words) : cstring (nulterminate s c (s ++ ['\x00'])) (offset s w.q) = text w := by
  obtain ⟨p, l, hl, hs, hq, heq, htext⟩ := split_of_proper (hc w hw)
  have hlen : s.length = p.length + (l.length + w.eq.length) := by
    rw [hs, length_append, length_append]
  rw [htext, hq]
  refine cstring_eq (fun h => hz ?_) (fun j hj => ?_) ?_
  · rw [hs]
    simp [h]
  · rw [nulterminate, getElem?_nulterminate, if_neg]
    · rw [getElem?_append_left (by omega), hs, getElem?_append_right (by omega),
        Nat.add_sub_cancel_left, getElem?_append_left hj]
    · -- a zero goes to a character that is not of a word
      rintro ⟨⟨v, hv, he⟩, -⟩
      obtain ⟨p', l', -, hs', -, heq', -⟩ := split_of_proper (hc v hv)
      have hget : s[p.length + j]? = l[j]? := by
        rw [hs, getElem?_append_right (by omega), Nat.add_sub_cancel_left, getElem?_append_left hj]
      have hget' : s[p.length + j]? = v.eq.head? := by
        rw [← he, heq', hs', ← append_assoc, getElem?_append_right (by simp), length_append,
          Nat.sub_self, head?_eq_getElem?]
      rw [getElem?_eq_getElem hj] at hget
      have hword := hl.all l[j] (getElem_mem hj)
      rw [(hc v hv).ends l[j] (hget'.symm.trans hget)] at hword
      simp at hword
  · rw [nulterminate, getElem?_nulterminate, if_pos ⟨⟨w, hw, heq⟩, by simp; omega⟩]

/-! ### `parsecmd` -/

theorem map_congr {W R W' R' : Type} {f f' : W → W'} {g : R → R'} : ∀ {c : Cmd W R}, (∀ w ∈ c.words, f w = f' w) →
    c.map f g = c.map f' g
  | .exec argv, h => by
    simp only [Cmd.map, Cmd.exec.injEq]
    exact map_congr_left h
  | .redir c w r, h => by
    simp only [Cmd.map, Cmd.redir.injEq, and_true]
    exact ⟨map_congr fun v hv => h v (mem_append_left _ hv), h w (mem_append_right _ (by simp))⟩
  | .pipe l r, h => by
    simp only [Cmd.map, Cmd.pipe.injEq]
    exact ⟨map_congr fun v hv => h v (mem_append_left _ hv),
      map_congr fun v hv => h v (mem_append_right _ hv)⟩
  | .list l r, h => by
    simp only [Cmd.map, Cmd.list.injEq]
    exact ⟨map_congr fun v hv => h v (mem_append_left _ hv),
      map_congr fun v hv => h v (mem_append_right _ hv)⟩
  | .back c, h => by
    simp only [Cmd.map, Cmd.back.injEq]
    exact map_congr h

theorem parsecmd_cases (line : CString) : (∃ m, parsecmd line = .error (.panic m) ∧
      ∀ c s', parseline (4 * line.val.length + 4) line.val = .ok (c, s') → skip s' ≠ []) ∨
    ∃ c s', parseline (4 * line.val.length + 4) line.val = .ok (c, s') ∧ skip s' = [] ∧
      parsecmd line = .ok (textOf c) := by
  have hsafe : Safe line.val line.val (parseline (4 * line.val.length + 4) line.val) :=
    parseline_safe le_rfl suffix_rfl
  rcases hr : parseline (4 * line.val.length + 4) line.val with stop | ⟨c, s'⟩
  · rw [hr] at hsafe
    match stop, hsafe with
    | .panic m, _ =>
      refine Or.inl ⟨m, ?_, by simp⟩
      simp only [parsecmd, hr]
      rfl
  · rw [hr] at hsafe
    by_cases hes : skip s' = []
    · refine Or.inr ⟨c, s', rfl, hes, ?_⟩
      have hmap := map_congr (g := (id : Redirection → Redirection))
        (fun w hw => cstring_of_proper line.property hsafe.2 hw)
      simp only [parsecmd, hr, bind, Except.bind, peek, hes, ne_eq, not_true_eq_false, if_false, textOf]
      rw [hmap]
    · refine Or.inl ⟨"syntax", ?_, ?_⟩
      · simp only [parsecmd, hr, bind, Except.bind, peek, ne_eq, hes, not_false_eq_true, if_true]
      · intro d t h
        obtain ⟨rfl, rfl⟩ := Prod.mk.inj (Except.ok.inj h)
        exact hes

theorem gettoken_of_proper {s : Ptr} {w : Span} (h : Proper s w) : gettoken w.q = ⟨'a', w.q, w.eq, skip w.eq⟩ := by
  obtain ⟨l, hl, hq⟩ := h.chars
  have hends : (Token.word l).Ends w.eq := ⟨hl, h.ends⟩
  have hskip : skip w.q = w.q := by
    rw [hq]
    exact skip_chars hends
  have hscan : scan w.q = ('a', w.eq) := by
    rw [hq]
    exact scan_chars hends
  simp only [gettoken, hskip, hscan]

theorem fits_meaning : ∀ c : Command, Fits (meaning c) ↔ Fits c
  | .exec argv => by simp [meaning, Cmd.map, Fits]
  | .redir c _ _ => fits_meaning c
  | .pipe l r => and_congr (fits_meaning l) (fits_meaning r)
  | .list l r => and_congr (fits_meaning l) (fits_meaning r)
  | .back c => fits_meaning c

theorem parsecmd_complete {ts : List Token} {t : Tree} {line : CString} (hl : Line ts t) (hfits : Fits t)
    (hs : Spells ts line.val) : parsecmd line = .ok t := by
  have hgives : Gives (parseline (4 * line.val.length + 4) line.val) t [] :=
    parseline_complete _ hl hfits (by rwa [append_nil]) (by simp [Follows])
  have hsafe : Safe line.val line.val (parseline (4 * line.val.length + 4) line.val) :=
    parseline_safe le_rfl suffix_rfl
  rcases hgives with hfuel | ⟨c, s', hc, rfl, hs'⟩
  · rw [hfuel] at hsafe
    exact absurd hsafe id
  · rcases parsecmd_cases line with ⟨m, -, hleft⟩ | ⟨c', s'', hc', -, h⟩
    · exact absurd (skip_nil hs') (hleft c s' hc)
    · obtain ⟨rfl, rfl⟩ := Prod.mk.inj (Except.ok.inj (hc.symm.trans hc'))
      exact h

/-- **The shell parser inverts printing.** It returns the tree that was printed, whatever the whitespace;
it comes to an end on every string, and returns a tree only for what the grammar derives. -/
theorem parser_inverts_print :
    (∀ (c : Command) (line : CString), Fits c → Spells (print c) line.val → parsecmd line = .ok (meaning c)) ∧
    (∀ line : CString, parsecmd line ≠ .error .fuel) ∧
    ∀ (line : CString) (t : Tree), parsecmd line = .ok t → ∃ ts, Spells ts line.val ∧ Line ts t := by
  refine ⟨fun c line hfits hs => ?_, fun line => ?_, fun line t ht => ?_⟩
  · exact parsecmd_complete (line_print c) ((fits_meaning c).mpr hfits) hs
  · rcases parsecmd_cases line with ⟨m, h, -⟩ | ⟨c, s', -, -, h⟩
    · rw [h]
      simp
    · rw [h]
      simp
  · rcases parsecmd_cases line with ⟨m, h, -⟩ | ⟨c, s', hc, hes, h⟩
    · rw [h] at ht
      simp at ht
    · obtain ⟨ts, hs⟩ := spells_total line.val.length line.val le_rfl
      obtain ⟨ts₁, ts₂, rfl, hl, hs₂⟩ := parseline_sound _ hs hc
      have hnil : ts₂ = [] := by
        cases ts₂ with
        | nil => rfl
        | cons u ts₂ =>
          obtain ⟨s₁, hskip, hu, -⟩ := skip_cons hs₂
          obtain ⟨d, l, hchars, -⟩ := chars_eq_cons hu
          rw [hes, hchars] at hskip
          simp at hskip
      rw [h, Except.ok.injEq] at ht
      rw [hnil, append_nil] at hs
      exact ⟨ts₁, hs, ht ▸ hl⟩

theorem isWord_singleton {c : Char} (h : isWord c = true) : IsWord [c] := ⟨by simp, by simpa using h⟩

/-- `(a;b)>>f &`. -/
def sampleCommand : Command :=
  .back (.redir (.list (.exec [⟨['a'], isWord_singleton (by decide)⟩])
    (.exec [⟨['b'], isWord_singleton (by decide)⟩])) ⟨['f'], isWord_singleton (by decide)⟩ .append)

def sampleLine : CString := ⟨['(', 'a', ';', 'b', ')', '>', '>', 'f', ' ', '&'], by decide⟩

theorem parser_inverts_sample : Spells (print sampleCommand) sampleLine.val ∧
    parsecmd sampleLine = .ok (meaning sampleCommand) := by
  have hblank : Blank [] := by simp [Blank]
  have hword : ∀ {c d : Char} {s : List Char}, isWord c = true → isWord d = false →
      (Token.word [c]).Ends (d :: s) := by
    intro c d s hc hd
    exact ⟨isWord_singleton hc, by simpa using hd⟩
  have hspells : Spells (print sampleCommand) sampleLine.val :=
    .cons (l := []) hblank trivial <| .cons (l := []) hblank (hword (c := 'a') (by decide) (by decide)) <|
    .cons (l := []) hblank trivial <| .cons (l := []) hblank (hword (c := 'b') (by decide) (by decide)) <|
    .cons (l := []) hblank trivial <| .cons (l := []) hblank trivial <|
    .cons (l := []) hblank (hword (c := 'f') (by decide) (by decide)) <|
    .cons (l := [' ']) (by simp [Blank, isSpace, whitespace]) trivial <| .nil hblank
  exact ⟨hspells, parser_inverts_print.1 sampleCommand sampleLine
    (by simp [sampleCommand, Fits, maxArgs]) hspells⟩

/-- **The zeros spoil no word.** When `parsecmd` accepts a line, every word of its tree is the one that `gettoken`
finds there, and is read as that from the memory, with the zeros of all the words in it. -/
theorem nulterminate_keeps_words (line : CString) (t : Tree) (h : parsecmd line = .ok t) :
    ∃ c s', parseline (4 * line.val.length + 4) line.val = .ok (c, s') ∧ t = textOf c ∧
      ∀ w ∈ c.words, gettoken w.q = ⟨'a', w.q, w.eq, skip w.eq⟩ ∧
        cstring (nulterminate line.val c (line.val ++ ['\x00'])) (offset line.val w.q) = text w := by
  rcases parsecmd_cases line with ⟨m, hm, -⟩ | ⟨c, s', hc, -, hok⟩
  · rw [hm] at h
    cases h
  · rw [hok] at h
    have hsafe : Safe line.val line.val (parseline (4 * line.val.length + 4) line.val) :=
      parseline_safe le_rfl suffix_rfl
    rw [hc] at hsafe
    exact ⟨c, s', hc, (Except.ok.inj h).symm, fun w hw =>
      ⟨gettoken_of_proper (hsafe.2 w hw), cstring_of_proper line.property hsafe.2 hw⟩⟩

theorem nulterminate_keeps_sample : ∃ t c s', parsecmd sampleLine = .ok t ∧
    parseline (4 * sampleLine.val.length + 4) sampleLine.val = .ok (c, s') ∧ t = textOf c ∧
    ∀ w ∈ c.words, cstring (nulterminate sampleLine.val c (sampleLine.val ++ ['\x00'])) (offset sampleLine.val w.q) =
      text w := by
  have hok : parsecmd sampleLine = .ok (meaning sampleCommand) := rfl
  obtain ⟨c, s', hc, ht, hw⟩ := nulterminate_keeps_words sampleLine _ hok
  exact ⟨_, c, s', hok, hc, ht, fun w hw' => (hw w hw').2⟩

end OsHonor.User.Shell.Parser
