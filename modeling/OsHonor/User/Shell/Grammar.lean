import OsHonor.User.Shell.Code

/-! # Command lines: tokens, grammar and printing

A command line is a sequence of tokens with whitespace between them (`Spells`); two words need some. The
grammar says which sequences are command lines and which tree each of them stands for:

    line := pipe {'&'} [';' line]
    pipe := exec ['|' pipe]
    exec := '(' line ')' redirs | redirs {word redirs}

`print` writes a tree, with parentheses where the grammar needs them, and what it writes stands for the
tree (`line_print`). -/

namespace OsHonor.User.Shell.Grammar

open List Code

/-! ### Tokens -/

/-- `<`, `>` and `>>`. -/
inductive Arrow where
  | input
  | output
  | append
  deriving DecidableEq

/-- What the shell makes of an arrow. It does the same for `>` and `>>`. -/
def Arrow.redirection : Arrow → Redirection
  | .input => ⟨oRdonly, 0⟩
  | .output | .append => ⟨oWronly ||| oCreat, 1⟩

inductive Token where
  | bar
  | lparen
  | rparen
  | semi
  | amp
  | arrow (a : Arrow)
  | word (w : List Char)
  deriving DecidableEq

def Token.chars : Token → List Char
  | .bar => ['|']
  | .lparen => ['(']
  | .rparen => [')']
  | .semi => [';']
  | .amp => ['&']
  | .arrow .input => ['<']
  | .arrow .output => ['>']
  | .arrow .append => ['>', '>']
  | .word w => w

/-- What `gettoken` returns for a token. -/
def Token.ret : Token → Char
  | .bar => '|'
  | .lparen => '('
  | .rparen => ')'
  | .semi => ';'
  | .amp => '&'
  | .arrow .input => '<'
  | .arrow .output => '>'
  | .arrow .append => '+'
  | .word _ => 'a'

/-- The character that `peek` sees of a symbol. -/
def Token.key : Token → Char
  | .arrow .append => '>'
  | t => t.ret

/-- A word of the language: not empty, without whitespace and symbols. -/
structure IsWord (w : List Char) : Prop where
  ne_nil : w ≠ []
  all : ∀ c ∈ w, isWord c = true

/-- The token ends before `s`: a word is not continued there, nor is `>`. -/
def Token.Ends : Token → List Char → Prop
  | .word w, s => IsWord w ∧ ∀ c, s.head? = some c → isWord c = false
  | .arrow .output, s => s.head? ≠ some '>'
  | _, _ => True

def Blank (l : List Char) : Prop := ∀ c ∈ l, isSpace c = true

/-- **The text `s` is the tokens `ts`**, with any amount of whitespace before, between and after them. -/
inductive Spells : List Token → List Char → Prop
  | nil {l : List Char} : Blank l → Spells [] l
  | cons {l s : List Char} {t : Token} {ts : List Token} :
      Blank l → t.Ends s → Spells ts s → Spells (t :: ts) (l ++ (t.chars ++ s))

/-! ### The grammar -/

abbrev Tree := Cmd (List Char) Redirection

/-- `redirs`: the redirections `ts` around `c`. -/
inductive Redirs : Tree → List Token → Tree → Prop
  | nil {c : Tree} : Redirs c [] c
  | cons {c c' : Tree} {a : Arrow} {w : List Char} {ts : List Token} :
      Redirs (.redir c w a.redirection) ts c' → Redirs c (.arrow a :: .word w :: ts) c'

/-- `{word redirs}`, after `c`. -/
inductive Args : Tree → List Token → Tree → Prop
  | nil {c : Tree} : Args c [] c
  | cons {c c₁ c₂ : Tree} {w : List Char} {ts ts' : List Token} :
      Redirs (c.addArg w) ts c₁ → Args c₁ ts' c₂ → Args c (.word w :: (ts ++ ts')) c₂

/-- `c & & …`, with `n` of them. -/
def backs : ℕ → Tree → Tree
  | 0, c => c
  | n + 1, c => backs n (.back c)

mutual

/-- `line`, and the tree it stands for. -/
inductive Line : List Token → Tree → Prop
  | last {ts : List Token} {c : Tree} (n : ℕ) :
      Pipe ts c → Line (ts ++ List.replicate n .amp) (backs n c)
  | seq {ts ts' : List Token} {c r : Tree} (n : ℕ) : Pipe ts c → Line ts' r →
      Line (ts ++ (List.replicate n .amp ++ .semi :: ts')) (.list (backs n c) r)

inductive Pipe : List Token → Tree → Prop
  | last {ts : List Token} {c : Tree} : Exec ts c → Pipe ts c
  | bar {ts ts' : List Token} {c r : Tree} : Exec ts c → Pipe ts' r →
      Pipe (ts ++ .bar :: ts') (.pipe c r)

inductive Exec : List Token → Tree → Prop
  | block {ts ts' : List Token} {c c' : Tree} : Line ts c → Redirs c ts' c' →
      Exec (.lparen :: (ts ++ .rparen :: ts')) c'
  | simple {ts ts' : List Token} {c c' : Tree} : Redirs (.exec []) ts c → Args c ts' c' →
      Exec (ts ++ ts') c'

end

/-! ### Printing -/

abbrev Word := { w : List Char // IsWord w }

abbrev Command := Cmd Word Arrow

def meaning (c : Command) : Tree := c.map Subtype.val Arrow.redirection

/-- The level of the grammar at which a tree is printed without parentheses: `exec`, `pipe`, a pipe with
`&`, and `line`. -/
def level : Command → ℕ
  | .exec _ | .redir _ _ _ => 0
  | .pipe _ _ => 1
  | .back _ => 2
  | .list _ _ => 3

def paren (most : ℕ) (c : Command) (ts : List Token) : List Token :=
  if level c ≤ most then ts else .lparen :: (ts ++ [.rparen])

/-- **The tokens of a tree.** -/
def print : Command → List Token
  | .exec argv => argv.map fun w => .word w.val
  | .redir c file a => paren 0 c (print c) ++ [.arrow a, .word file.val]
  | .pipe l r => paren 0 l (print l) ++ .bar :: paren 1 r (print r)
  | .back c => paren 2 c (print c) ++ [.amp]
  | .list l r => paren 2 l (print l) ++ .semi :: print r

def Fits {W R : Type} : Cmd W R → Prop
  | .exec argv => argv.length < maxArgs
  | .redir c _ _ | .back c => Fits c
  | .pipe l r | .list l r => Fits l ∧ Fits r

/-! ### What is printed stands for the tree -/

theorem Redirs.snoc {c c' : Tree} {ts : List Token} (h : Redirs c ts c') (a : Arrow) (w : List Char) :
    Redirs c (ts ++ [.arrow a, .word w]) (.redir c' w a.redirection) := by
  induction h with
  | nil => exact .cons .nil
  | cons _ ih => exact .cons ih

theorem Args.snoc {c c' : Tree} {ts : List Token} (h : Args c ts c') (a : Arrow) (w : List Char)
    (hne : ts ≠ []) : Args c (ts ++ [.arrow a, .word w]) (.redir c' w a.redirection) := by
  induction h with
  | nil => exact absurd rfl hne
  | @cons c c₁ c₂ v ts ts' hr hargs ih =>
    rw [cons_append, append_assoc]
    cases hargs with
    | nil =>
      have := Args.cons (hr.snoc a w) .nil
      rwa [append_nil] at this
    | cons h₁ h₂ => exact .cons hr (ih (by simp))

theorem Exec.snoc {c : Tree} {ts : List Token} (h : Exec ts c) (a : Arrow) (w : List Char) :
    Exec (ts ++ [.arrow a, .word w]) (.redir c w a.redirection) := by
  cases h with
  | block hl hr =>
    rw [cons_append, append_assoc, cons_append]
    exact .block hl (hr.snoc a w)
  | @simple ts ts' c c' hr hargs =>
    cases hargs with
    | nil =>
      rw [append_nil]
      have := Exec.simple (hr.snoc a w) .nil
      rwa [append_nil] at this
    | cons h₁ h₂ =>
      rw [append_assoc]
      exact .simple hr (Args.snoc (.cons h₁ h₂) a w (by simp))

theorem args_exec (l : List Word) : ∀ l₀ : List (List Char),
    Args (.exec l₀) (l.map fun w => .word w.val) (.exec (l₀ ++ l.map Subtype.val)) := by
  induction l with
  | nil =>
    intro l₀
    simpa using Args.nil
  | cons w l ih =>
    intro l₀
    have h := ih (l₀ ++ [w.val])
    rw [append_assoc] at h
    exact @Args.cons _ _ _ w.val [] _ .nil h

theorem backs_succ (n : ℕ) (c : Tree) : backs (n + 1) c = .back (backs n c) := by
  induction n generalizing c with
  | zero => rfl
  | succ n ih => exact ih (.back c)

/-- What a tree of each level is printed as. -/
structure Printed (c : Command) : Prop where
  exec : level c ≤ 0 → Exec (print c) (meaning c)
  pipe : level c ≤ 1 → Pipe (print c) (meaning c)
  backs : level c ≤ 2 → ∃ n ts d, Pipe ts d ∧ print c = ts ++ List.replicate n .amp ∧ meaning c = Grammar.backs n d
  line : Line (print c) (meaning c)

namespace Printed

variable {c : Command}

theorem paren_exec (h : Printed c) : Exec (paren 0 c (print c)) (meaning c) := by
  unfold paren
  split_ifs with hl
  · exact h.exec hl
  · exact .block h.line .nil

theorem paren_pipe (h : Printed c) : Pipe (paren 1 c (print c)) (meaning c) := by
  unfold paren
  split_ifs with hl
  · exact h.pipe hl
  · exact .last (.block h.line .nil)

theorem paren_backs (h : Printed c) : ∃ n ts d, Pipe ts d ∧
    paren 2 c (print c) = ts ++ List.replicate n .amp ∧ meaning c = Grammar.backs n d := by
  unfold paren
  split_ifs with hl
  · exact h.backs hl
  · exact ⟨0, _, _, .last (.block h.line .nil), by simp, rfl⟩

theorem of_pipe (hx : level c ≤ 0 → Exec (print c) (meaning c)) (hp : Pipe (print c) (meaning c)) :
    Printed c where
  exec := hx
  pipe _ := hp
  backs _ := ⟨0, _, _, hp, by simp, rfl⟩
  line := by simpa [Grammar.backs] using Line.last 0 hp

end Printed

theorem printed : ∀ c : Command, Printed c
  | .exec argv => by
    have h : Exec (print (.exec argv)) (meaning (.exec argv)) := by
      have := args_exec argv []
      rw [nil_append] at this
      exact @Exec.simple [] _ _ _ .nil this
    exact .of_pipe (fun _ => h) (.last h)
  | .redir c file a => by
    have h : Exec (print (.redir c file a)) (meaning (.redir c file a)) :=
      (printed c).paren_exec.snoc a file.val
    exact .of_pipe (fun _ => h) (.last h)
  | .pipe l r => .of_pipe (fun h => by simp [level] at h) (.bar (printed l).paren_exec (printed r).paren_pipe)
  | .back c => by
    obtain ⟨n, ts, d, hp, hts, hd⟩ := (printed c).paren_backs
    have hprint : print (.back c) = ts ++ List.replicate (n + 1) .amp := by
      rw [print, hts, append_assoc, replicate_succ']
    have hmean : meaning (.back c) = backs (n + 1) d := by
      rw [backs_succ, ← hd]
      rfl
    refine ⟨fun h => by simp [level] at h, fun h => by simp [level] at h,
      fun _ => ⟨n + 1, ts, d, hp, hprint, hmean⟩, ?_⟩
    rw [hprint, hmean]
    exact .last _ hp
  | .list l r => by
    obtain ⟨n, ts, d, hp, hts, hd⟩ := (printed l).paren_backs
    refine ⟨fun h => by simp [level] at h, fun h => by simp [level] at h, fun h => by simp [level] at h, ?_⟩
    have hprint : print (.list l r) = ts ++ (List.replicate n .amp ++ .semi :: print r) := by
      rw [print, hts, append_assoc]
    have hmean : meaning (.list l r) = .list (backs n d) (meaning r) := by
      rw [← hd]
      rfl
    rw [hprint, hmean]
    exact .seq n hp (printed r).line

/-- **What is printed stands for the tree.** -/
theorem line_print (c : Command) : Line (print c) (meaning c) := (printed c).line

end OsHonor.User.Shell.Grammar
