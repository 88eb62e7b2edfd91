import MosVolca.User.Readline

/-!
# The commands of the shell

`parsecmd` and `runcmd` of `user/sh.c`, with `fd_alloc`, `close` and `dup` of `user/lib/fd.c` and
`open` of `user/lib/file.c`. The command line is the list of what `gettoken` returns. `parsecmd`
forks while it parses, so it returns in several environments; the model gives what it returns in
each of them, from the first to the last of the line. A table of descriptors says what each number
in use refers to. The kernel has the memory that the calls need: a descriptor that the server grants
is mapped, and `dup` of a descriptor in use succeeds.

## Main definitions

* `MosVolca.Token` — the tokens.
* `MosVolca.FdTable`, `MosVolca.openFile`, `MosVolca.dup`, `MosVolca.close` — the descriptors.
* `MosVolca.Calls` — what the calls of the shell give.
* `MosVolca.parsecmd`, `MosVolca.runcmd` — the functions.
-/

namespace MosVolca

/-- A string of the command line. -/
abbrev Text := List (BitVec 8)

/-- What `gettoken` returns, with the string if it is a word. The end of the line is the end of the
list. -/
inductive Token
  | word (t : Text)
  | dollar
  | less
  | greater
  | bar
  | semi
  | amp
  | lparen
  | rparen

/-- `MAXARGS`. -/
def maxArgs : ℕ := 128

/-! ## Descriptors -/

/-- `O_RDONLY`, `O_WRONLY` and `O_CREAT|O_WRONLY`. -/
inductive OpenMode
  | rdonly
  | wronly
  | creatWronly
  deriving DecidableEq

/-- What a descriptor refers to: what the shell had there, a file that has been opened, or an end of
the pipe of the `n`-th call. -/
inductive Desc
  | inherited (fd : ℕ)
  | opened (path : Text) (mode : OpenMode)
  | pipeEnd (n : ℕ) (write : Bool)

/-- The descriptors in use. -/
abbrev FdTable := ℕ → Option Desc

/-- What the calls of the shell give, where the calls of a line are numbered. -/
structure Calls where
  /-- Whether the server grants an `open`; the flag is set for the second try of a relative name. -/
  grants : ℕ → OpenMode → Bool → Bool
  fork : ℕ → Bool
  pipe : ℕ → Bool
  /-- What is in the array `p` after a `pipe` that fails. -/
  stale : ℕ → Option ℕ × Option ℕ
  /-- Whether `syscall_get_var` finds the variable. -/
  var : ℕ → Bool

/-- `fd_alloc`, with `MAXFD` descriptors. -/
def fdAlloc (fds : FdTable) : Option ℕ := (List.range 31).find? fun fd => (fds fd).isNone

/-- `openAP`. -/
def openAP (granted : Bool) (mode : OpenMode) (path : Text) (fds : FdTable) :
    Option ℕ × FdTable :=
  match fdAlloc fds with
  | none => (none, fds)
  | some fd =>
    if granted then (some fd, Function.update fds fd (some (.opened path mode))) else (none, fds)

/-- The name ends in `.b`. -/
def endsInB (path : Text) : Bool := path.reverse.take 2 == [98#8, 46#8]

/-- `open`, the call number `n`. -/
def openFile (w : Calls) (n : ℕ) (mode : OpenMode) (path : Text) (fds : FdTable) :
    Option ℕ × FdTable :=
  if path.head? = some 47#8 then openAP (w.grants n mode false) mode path fds
  else
    match openAP (w.grants n mode false) mode path fds with
    | (some fd, fds) => (some fd, fds)
    | (none, fds) =>
      if endsInB path then openAP (w.grants n mode true) mode (47#8 :: path) fds else (none, fds)

/-- `close`; there is nothing to do for the number of a failed `open`. -/
def close (fd : Option ℕ) (fds : FdTable) : FdTable :=
  match fd with
  | none => fds
  | some fd => Function.update fds fd none

/-- `dup`. -/
def dup (oldfd : Option ℕ) (newfd : ℕ) (fds : FdTable) : FdTable :=
  match oldfd with
  | none => fds
  | some old =>
    if (fds old).isNone then fds
    else
      -- the new number is closed first, the old one too if they are the same
      let fds := close (some newfd) fds
      Function.update fds newfd (fds old)

/-- `pipe`, the call number `n`. -/
def pipe (w : Calls) (n : ℕ) (fds : FdTable) : (Option ℕ × Option ℕ) × FdTable :=
  if w.pipe n then
    match fdAlloc fds with
    | none => (w.stale n, fds)
    | some fd0 =>
      let fds0 := Function.update fds fd0 (some (.pipeEnd n false))
      match fdAlloc fds0 with
      | none => (w.stale n, fds)
      | some fd1 => ((some fd0, some fd1), Function.update fds0 fd1 (some (.pipeEnd n true)))
  else (w.stale n, fds)

/-! ## Parsing and running -/

/-- An element of `argv`: a word of the line, or the buffer of a variable. -/
inductive Arg
  | word (t : Text)
  | varBuf

/-- What `parsecmd` returns in an environment. -/
structure Parsed where
  argv : List Arg
  fds : FdTable
  rightpipe : Bool

/-- The case `<` of `parsecmd`. -/
def stdinFrom (w : Calls) (n : ℕ) (t : Text) (fds : FdTable) : FdTable :=
  let (fd, fds) := openFile w n .rdonly t fds
  let fds := dup fd 0 fds
  close fd fds

/-- The case `>` of `parsecmd`. -/
def stdoutTo (w : Calls) (n : ℕ) (t : Text) (fds : FdTable) : FdTable :=
  let (fd, fds) := openFile w n .wronly t fds
  let (fd, fds) := if fd.isNone then openFile w n .creatWronly t fds else (fd, fds)
  let fds := dup fd 1 fds
  close fd fds

/-- `parsecmd`, from the call number `n` on: what it returns in the environments that come back from
it. An environment in which it calls `exit` does not. -/
def parsecmd (w : Calls) : ℕ → FdTable → List Arg → List Token → List Parsed
  | _, fds, argv, [] => [⟨argv, fds, false⟩]
  | n, fds, argv, .dollar :: .word _ :: rest =>
    if w.var n then parsecmd w (n + 1) fds (argv ++ [.varBuf]) rest else []
  | n, fds, argv, .word t :: rest =>
    if argv.length ≥ maxArgs then [] else parsecmd w n fds (argv ++ [.word t]) rest
  | n, fds, argv, .less :: .word t :: rest => parsecmd w (n + 1) (stdinFrom w n t fds) argv rest
  | n, fds, argv, .greater :: .word t :: rest => parsecmd w (n + 1) (stdoutTo w n t fds) argv rest
  | n, fds, argv, .bar :: rest =>
    let (p, fds) := pipe w n fds
    let left : Parsed := ⟨argv, close p.2 (close p.1 (dup p.2 1 fds)), true⟩
    if w.fork n then
      parsecmd w (n + 1) (close p.2 (close p.1 (dup p.1 0 fds))) [] rest ++ [left]
    else [left]
  | n, fds, argv, .semi :: rest =>
    if w.fork n then ⟨argv, fds, false⟩ :: parsecmd w (n + 1) fds [] rest
    else [⟨argv, fds, false⟩]
  | n, fds, argv, .amp :: rest =>
    if w.fork n then ⟨argv, fds, false⟩ :: parsecmd w (n + 1) fds [] rest
    else parsecmd w (n + 1) fds [] rest
  | n, fds, argv, .lparen :: rest | n, fds, argv, .rparen :: rest => parsecmd w n fds argv rest
  -- a `$`, `<` or `>` that no word follows
  | _, _, _, _ => []

/-- What `runcmd` does with what `parsecmd` returns. -/
inductive Run
  | spawn (argv : List Arg) (fds : FdTable)
  /-- `argv[argc] = 0` is outside the array. -/
  | overrun

/-- `runcmd`, after `parsecmd`. -/
def Parsed.run (p : Parsed) : Option Run :=
  if p.argv = [] then none
  else if p.argv.length ≥ maxArgs then some .overrun
  else some (.spawn p.argv p.fds)

/-- `runcmd`, in the environment that it is called in and in those that this one forks. -/
def runcmd (w : Calls) (fds : FdTable) (line : List Token) : List Run :=
  (parsecmd w 0 fds [] line).filterMap Parsed.run

end MosVolca
