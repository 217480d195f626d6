import Mathlib.Data.List.Basic

/-! # The parser of the shell (`user/sh/main.c`)

A pointer into the command line is the list of the characters from there to the end of the string, and
the empty list is `es`, where the terminating zero is. The functions take the pointer `*ps` and return
the new one.

The tree is built with the pointers to the first character of each word and to the character after it;
`nulterminate` then stores a zero after every word, and what the shell reads as a word is the C string at
its first character. `PANIC` is an error with its text. The recursion has fuel; running out of it is an
error of its own, which does not occur with the fuel of `parsecmd`. -/

namespace OsHonor.User.Shell.Code

abbrev Ptr := List Char

/-- `char whitespace[]`. -/
def whitespace : List Char := [' ', '\t', '\r', '\n', '\x0b']

/-- `char symbols[]`. -/
def symbols : List Char := ['<', '|', '>', '&', ';', '(', ')']

def isSpace (c : Char) : Bool := whitespace.contains c

def isWord (c : Char) : Bool := !whitespace.contains c && !symbols.contains c

def maxArgs : ℕ := 10

/-! ### Trees -/

/-- What a redirection does: the flags for `open`, and the descriptor that is replaced. -/
structure Redirection where
  mode : ℕ
  fd : ℕ
  deriving DecidableEq

def oRdonly : ℕ := 0
def oWronly : ℕ := 1
def oCreat : ℕ := 64

/-- `struct cmd` and the structures that begin with it. -/
inductive Cmd (W R : Type) where
  | exec (argv : List W)
  | redir (cmd : Cmd W R) (file : W) (how : R)
  | pipe (left right : Cmd W R)
  | list (left right : Cmd W R)
  | back (cmd : Cmd W R)
  deriving DecidableEq

def Cmd.map {W R W' R' : Type} (f : W → W') (g : R → R') : Cmd W R → Cmd W' R'
  | .exec argv => .exec (argv.map f)
  | .redir c w r => .redir (c.map f g) (f w) (g r)
  | .pipe l r => .pipe (l.map f g) (r.map f g)
  | .list l r => .list (l.map f g) (r.map f g)
  | .back c => .back (c.map f g)

/-- The words of a tree, in the order of `nulterminate`. -/
def Cmd.words {W R : Type} : Cmd W R → List W
  | .exec argv => argv
  | .redir c w _ => c.words ++ [w]
  | .pipe l r | .list l r => l.words ++ r.words
  | .back c => c.words

/-- A store through `cmd` in `parseexec`: the `EXEC` node below the redirections gets an argument. -/
def Cmd.addArg {W R : Type} (w : W) : Cmd W R → Cmd W R
  | .exec argv => .exec (argv ++ [w])
  | .redir c file how => .redir (c.addArg w) file how
  | c => c

/-- A word: the pointers `q` and `eq`. -/
structure Span where
  q : Ptr
  eq : Ptr
  deriving DecidableEq

/-! ### Tokens -/

def skip (s : Ptr) : Ptr := s.dropWhile isSpace

/-- The results of `gettoken`; `next` is the new `*ps`. -/
structure Lexed where
  ret : Char
  q : Ptr
  eq : Ptr
  next : Ptr
  deriving DecidableEq

/-- The token at `q`, and the pointer behind it. -/
def scan (q : Ptr) : Char × Ptr :=
  match q with
  | [] => ('\x00', [])
  | c :: t =>
    if c = '|' ∨ c = '(' ∨ c = ')' ∨ c = ';' ∨ c = '&' ∨ c = '<' then (c, t)
    else if c = '>' then if t.head? = some '>' then ('+', t.tail) else (c, t)
    else ('a', q.dropWhile isWord)

def gettoken (s : Ptr) : Lexed :=
  let q := skip s
  let (ret, eq) := scan q
  ⟨ret, q, eq, skip eq⟩

/-- `peek`: the result, and the new `*ps`. -/
def peek (toks : List Char) (s : Ptr) : Bool × Ptr :=
  let s := skip s
  (s.head?.any toks.contains, s)

/-! ### The parser -/

/-- Why there is no tree. -/
inductive Stop where
  | panic (text : String)
  | fuel
  deriving DecidableEq

abbrev Parse := Except Stop (Cmd Span Redirection × Ptr)

/-- The `switch` of `parseredirs`. -/
def redircmd (tok : Char) (c : Cmd Span Redirection) (w : Span) : Cmd Span Redirection :=
  if tok = '<' then .redir c w ⟨oRdonly, 0⟩
  else if tok = '>' then .redir c w ⟨oWronly ||| oCreat, 1⟩
  else if tok = '+' then .redir c w ⟨oWronly ||| oCreat, 1⟩
  else c

def parseredirs : ℕ → Cmd Span Redirection → Ptr → Parse
  | 0, _, _ => .error .fuel
  | fuel + 1, c, s =>
    let (more, s) := peek ['<', '>'] s
    if more then
      let tok := gettoken s
      let file := gettoken tok.next
      if file.ret ≠ 'a' then .error (.panic "missing file for redirection")
      else parseredirs fuel (redircmd tok.ret c ⟨file.q, file.eq⟩) file.next
    else .ok (c, s)

/-- The loop of `parseexec`. -/
def argLoop : ℕ → Cmd Span Redirection → ℕ → Ptr → Parse
  | 0, _, _, _ => .error .fuel
  | fuel + 1, ret, argc, s =>
    let (stop, s) := peek ['|', ')', '&', ';'] s
    if stop then .ok (ret, s)
    else
      let tok := gettoken s
      if tok.ret = '\x00' then .ok (ret, tok.next)
      else if tok.ret ≠ 'a' then .error (.panic "syntax")
      else
        let ret := ret.addArg ⟨tok.q, tok.eq⟩
        let argc := argc + 1
        if maxArgs ≤ argc then .error (.panic "too many args")
        else do
          let (ret, s) ← parseredirs fuel ret tok.next
          argLoop fuel ret argc s

/-- The loop of `parseline`. -/
def backLoop : ℕ → Cmd Span Redirection → Ptr → Parse
  | 0, _, _ => .error .fuel
  | fuel + 1, c, s =>
    let (more, s) := peek ['&'] s
    if more then backLoop fuel (.back c) (gettoken s).next else .ok (c, s)

mutual

def parseline : ℕ → Ptr → Parse
  | 0, _ => .error .fuel
  | fuel + 1, s => do
    let (c, s) ← parsepipe fuel s
    let (c, s) ← backLoop fuel c s
    let (more, s) := peek [';'] s
    if more then do
      let (r, s) ← parseline fuel (gettoken s).next
      .ok (.list c r, s)
    else .ok (c, s)

def parsepipe : ℕ → Ptr → Parse
  | 0, _ => .error .fuel
  | fuel + 1, s => do
    let (c, s) ← parseexec fuel s
    let (more, s) := peek ['|'] s
    if more then do
      let (r, s) ← parsepipe fuel (gettoken s).next
      .ok (.pipe c r, s)
    else .ok (c, s)

def parseexec : ℕ → Ptr → Parse
  | 0, _ => .error .fuel
  | fuel + 1, s => do
    let (block, s) := peek ['('] s
    if block then parseblock fuel s
    else do
      let (ret, s) ← parseredirs fuel (.exec []) s
      argLoop fuel ret 0 s

def parseblock : ℕ → Ptr → Parse
  | 0, _ => .error .fuel
  | fuel + 1, s => do
    let (block, s) := peek ['('] s
    if block then do
      let (c, s) ← parseline fuel (gettoken s).next
      let (closed, s) := peek [')'] s
      if closed then parseredirs fuel c (gettoken s).next
      else .error (.panic "syntax - missing )")
    else .error (.panic "parseblock")

end

/-! ### The whole command line -/

def CString : Type := { l : List Char // '\x00' ∉ l }

/-- The index of a pointer in the string `s`. -/
def offset (s p : Ptr) : ℕ := s.length - p.length

/-- `nulterminate`: the memory of the string after it. -/
def nulterminate (s : Ptr) (c : Cmd Span Redirection) (mem : List Char) : List Char :=
  c.words.foldl (fun mem w => mem.set (offset s w.eq) '\x00') mem

def cstring (mem : List Char) (i : ℕ) : List Char := (mem.drop i).takeWhile (· ≠ '\x00')

/-- **`parsecmd`**: the tree, with its words read from the memory. -/
def parsecmd (line : CString) : Except Stop (Cmd (List Char) Redirection) := do
  let s := line.val
  let (c, es) ← parseline (4 * s.length + 4) s
  let (_, es) := peek [] es
  if es ≠ [] then .error (.panic "syntax")
  else
    let mem := nulterminate s c (s ++ ['\x00'])
    .ok (c.map (fun w => cstring mem (offset s w.q)) id)

end OsHonor.User.Shell.Code
