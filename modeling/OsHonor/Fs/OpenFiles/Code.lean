import OsHonor.Fs.Pipes

/-! # Open files (`fs/file.c`, `kernel/sysfile.c`, `proc/proc.c`)

The global file table, the descriptor tables of the processes, and the system calls that make and drop
references between them. A call is one step. -/

namespace OsHonor.Fs.OpenFiles.Code

open Function

open Pipes (Pipe pipeAlloc pipeClose)

def nfile : ℕ := 65536

def nofile : ℕ := 128

/-- The type of a `struct file`. -/
inductive FdType
  | none
  | pipe
  | inode
  deriving DecidableEq

/-- `struct file`; `ptr` is the union of the pipe and the inode. -/
structure File where
  type : FdType
  ref : ℕ
  readable : Bool
  writable : Bool
  ptr : ℕ
  off : ℕ
  deriving DecidableEq

/-- What a file refers to once it is opened: the inode of one `openat`, or an end of a pipe. -/
inductive Object
  | inode (n ip : ℕ)
  | pipeEnd (pi : ℕ) (writable : Bool)
  deriving DecidableEq

/-- The tables. Pipes are numbered in the order they are made. Beside the tables stand the number of the
`openat` that a slot belongs to, the objects opened so far, the calls of `inode_put` and `pipe_close` that
`file_close` has made, and the pipes that have been freed. -/
structure Sys (P : Type) where
  files : ℕ → File
  ofiles : P × ℕ → Option ℕ
  live : Finset P
  pipes : ℕ → Pipe
  made : ℕ
  serial : ℕ → ℕ
  opened : List Object
  closed : List Object
  freed : List ℕ

variable {P : Type} [DecidableEq P]

/-- The first of `k` numbers from `i` on with a property. -/
def findFrom (q : ℕ → Bool) : ℕ → ℕ → Option ℕ
  | 0, _ => none
  | k + 1, i => if q i then some i else findFrom q k (i + 1)

def setFile (s : Sys P) (f : ℕ) (x : File) : Sys P := { s with files := update s.files f x }

def setFd (s : Sys P) (x : P × ℕ) (v : Option ℕ) : Sys P := { s with ofiles := update s.ofiles x v }

def fileAlloc (s : Sys P) : Option (ℕ × Sys P) :=
  (findFrom (fun f => (s.files f).ref = 0) nfile 0).map fun f => (f, setFile s f { s.files f with ref := 1 })

/-- `file_dup`; `none` is the failed assertion. -/
def fileDup (s : Sys P) (f : ℕ) : Option (Sys P) :=
  if (s.files f).ref = 0 then none else some (setFile s f { s.files f with ref := (s.files f).ref + 1 })

/-- `file_close`; `none` is the failed assertion. -/
def fileClose (s : Sys P) (f : ℕ) : Option (Sys P) :=
  let ff := s.files f
  if ff.ref = 0 then none
  else if 1 < ff.ref then some (setFile s f { ff with ref := ff.ref - 1 })
  else
    let s := setFile s f { ff with ref := 0, type := .none }
    match ff.type with
    | .none => some s
    | .pipe =>
      let r := pipeClose (s.pipes ff.ptr) ff.writable
      some { s with
        pipes := update s.pipes ff.ptr r.1
        closed := s.closed ++ [.pipeEnd ff.ptr ff.writable]
        freed := if r.2 then s.freed ++ [ff.ptr] else s.freed }
    | .inode => some { s with closed := s.closed ++ [.inode (s.serial f) ff.ptr] }

def fdalloc (s : Sys P) (p : P) (f : ℕ) : Option (ℕ × Sys P) :=
  (findFrom (fun i => (s.ofiles (p, i)).isNone) nofile 0).map fun i => (i, setFd s (p, i) (some f))

/-- `openat`; `ip` is what `create` or `namei` returns. On success the file is opened under a new number. -/
def openat (s : Sys P) (p : P) (ip : Option ℕ) (wronly rdwr : Bool) : Option (Sys P) :=
  match ip with
  | none => some s
  | some ip =>
    match fileAlloc s with
    | none => some s
    | some (f, s) =>
      match fdalloc s p f with
      | none => fileClose s f
      | some (_, s) =>
        some { setFile s f ⟨.inode, (s.files f).ref, !wronly, wronly || rdwr, ip, 0⟩ with
          serial := update s.serial f s.opened.length
          opened := s.opened ++ [.inode s.opened.length ip] }

def dup (s : Sys P) (p : P) (fd : ℤ) : Option (Sys P) :=
  if 0 ≤ fd ∧ fd < nofile then
    match s.ofiles (p, fd.toNat) with
    | none => some s
    | some f =>
      match fdalloc s p f with
      | none => some s
      | some (_, s) => fileDup s f
  else some s

/-- `close`, of a descriptor within the table. -/
def close (s : Sys P) (p : P) (fd : ℕ) : Option (Sys P) :=
  match s.ofiles (p, fd) with
  | none => some s
  | some f => fileClose (setFd s (p, fd) none) f

/-- `pipe_alloc`; `none` is a panic. The contents of the new pipe are left over from earlier. -/
def pipeAllocFiles (s : Sys P) (data : ℕ → UInt8) : Option (ℕ × ℕ × Sys P) :=
  match fileAlloc s with
  | none => none
  | some (f0, s) =>
    match fileAlloc s with
    | none => none
    | some (f1, s) =>
      let pi := s.made
      let s := setFile s f0 { s.files f0 with type := .pipe, readable := true, writable := false, ptr := pi }
      let s := setFile s f1 { s.files f1 with type := .pipe, readable := false, writable := true, ptr := pi }
      some (f0, f1, { s with
        pipes := update s.pipes pi (pipeAlloc data)
        made := pi + 1
        opened := s.opened ++ [.pipeEnd pi false, .pipeEnd pi true] })

def pipe2 (s : Sys P) (p : P) (data : ℕ → UInt8) : Option (Sys P) :=
  match pipeAllocFiles s data with
  | none => none
  | some (f0, f1, s) =>
    match fdalloc s p f0 with
    | none =>
      match fdalloc s p f1 with
      | none => (fileClose s f0).bind fun s => fileClose s f1
      | some (_, s) => (fileClose s f0).bind fun s => fileClose s f1
    | some (i, s) =>
      match fdalloc s p f1 with
      | none => (fileClose (setFd s (p, i) none) f0).bind fun s => fileClose s f1
      | some (_, s) => some s

/-- The loop of `fork` over these descriptors. -/
def dupFds (p c : P) : List ℕ → Sys P → Option (Sys P)
  | [], s => some s
  | i :: is, s =>
    match s.ofiles (p, i) with
    | none => dupFds p c is s
    | some f => (fileDup s f).bind fun s => dupFds p c is (setFd s (c, i) (some f))

/-- `fork`: the child starts with an empty table. -/
def fork (s : Sys P) (p c : P) : Option (Sys P) :=
  dupFds p c (List.range nofile)
    { s with live := insert c s.live, ofiles := fun x => if x.1 = c then none else s.ofiles x }

/-- The loop of `exit` over these descriptors. -/
def closeFds (p : P) : List ℕ → Sys P → Option (Sys P)
  | [], s => some s
  | i :: is, s =>
    match s.ofiles (p, i) with
    | none => closeFds p is s
    | some f => (fileClose s f).bind fun s => closeFds p is (setFd s (p, i) none)

def exit (s : Sys P) (p : P) : Option (Sys P) :=
  (closeFds p (List.range nofile) s).map fun s => { s with live := s.live.erase p }

inductive Call (P : Type)
  | openat (p : P) (ip : Option ℕ) (wronly rdwr : Bool)
  | dup (p : P) (fd : ℤ)
  | close (p : P) (fd : ℕ)
  | pipe2 (p : P) (data : ℕ → UInt8)
  | fork (p c : P)
  | exit (p : P)

/-- A call of a process that is alive; the child of `fork` is one that is not. -/
def step (s : Sys P) : Call P → Option (Sys P)
  | .openat p ip wronly rdwr => if p ∈ s.live then openat s p ip wronly rdwr else none
  | .dup p fd => if p ∈ s.live then dup s p fd else none
  | .close p fd => if p ∈ s.live ∧ fd < nofile then close s p fd else none
  | .pipe2 p data => if p ∈ s.live then pipe2 s p data else none
  | .fork p c => if p ∈ s.live ∧ c ∉ s.live then fork s p c else none
  | .exit p => if p ∈ s.live then exit s p else none

def init (live : Finset P) (pipes : ℕ → Pipe) : Sys P :=
  ⟨fun _ => ⟨.none, 0, false, false, 0, 0⟩, fun _ => none, live, pipes, 0, fun _ => 0, [], [], []⟩

end OsHonor.Fs.OpenFiles.Code
