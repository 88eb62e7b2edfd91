import Mathlib.Data.Finset.Card
import Mathlib.Data.Finset.Prod

/-!
# The ends of a pipe

The environments that hold ends of one pipe, and what they do to its three pages: `pipe`, `dup`,
`close`, `fork`, `spawn` and their death, one system call at a time. `pageref` of a page is the
number of places where it is mapped, as `pp_ref` is. A place is a number of a file descriptor of an
environment: the page of a `struct Fd` is mapped at `INDEX2FD`, the page of the `struct Pipe` at
`INDEX2DATA` of the number. The pages of other files are left out.

## Main definitions

* `MosVolca.PipeEnds` — who maps the pages of the pipe, and what the environments are doing.
* `MosVolca.EndsEvent`, `MosVolca.endsStep`, `MosVolca.endsRun` — the steps and the runs.
* `MosVolca.PipeEnds.pipeIsClosed` — `_pipe_is_closed`.
-/

namespace MosVolca

/-- `MAXFD`. -/
def maxfd : ℕ := 32

/-- The two ends. -/
inductive PipeEnd
  | read
  | write
  deriving DecidableEq

/-- The other end. -/
def PipeEnd.other : PipeEnd → PipeEnd
  | .read => .write
  | .write => .read

/-- An environment and a number of a file descriptor. -/
abbrev FdPlace := ℕ × ℕ

/-- What an environment is doing: the system call that comes next. -/
inductive Doing
  /-- It has not been made. -/
  | absent
  /-- `syscall_exofork` has made it, and it is not runnable. -/
  | embryo
  /-- It is gone. -/
  | gone
  /-- It is in none of these functions. -/
  | idle
  /-- `pipe` allocates `fd0`; the numbers are those that `fd_alloc` finds. -/
  | pipeFd0 (i j : ℕ)
  | pipeFd1 (i j : ℕ)
  /-- `pipe` allocates the page of the `struct Pipe`. -/
  | pipeData (i j : ℕ)
  | pipeMap (i j : ℕ)
  | pipeErr3 (i j : ℕ)
  | pipeErr2 (i j : ℕ)
  | pipeErr1 (i : ℕ)
  /-- `pipe_close` unmaps the `struct Fd`; `dup` goes on with the number `old`. -/
  | closeFd (i : ℕ) (old : Option ℕ)
  | closeData (i : ℕ) (old : Option ℕ)
  /-- `dup` maps the page of the pipe. -/
  | dupData (old new : ℕ)
  | dupFd (old new : ℕ)
  | dupErrFd (new : ℕ)
  | dupErrData (new : ℕ)
  /-- `fork`, or the last loop of `spawn`, comes to page `k` for the child: the pages of the
  `struct Fd` first, then those at `INDEX2DATA`. -/
  | copy (child k : ℕ) (spawn : Bool)
  deriving DecidableEq

/-- The environments, and the places where the pages of the two `struct Fd` and of the pipe are
mapped. -/
structure PipeEnds where
  doing : ℕ → Doing
  fds : PipeEnd → Finset FdPlace
  data : Finset FdPlace

/-- An environment begins with `pipe`. -/
def PipeEnds.start (i j : ℕ) : PipeEnds where
  doing := fun e => if e = 0 then .pipeFd0 i j else .absent
  fds := fun _ => ∅
  data := ∅

namespace PipeEnds

variable (s : PipeEnds)

/-- The places where a `struct Fd` of the pipe is mapped. -/
def held : Finset FdPlace := s.fds .read ∪ s.fds .write

/-- The environment goes on with `d`. -/
def goes (e : ℕ) (d : Doing) : PipeEnds := { s with doing := Function.update s.doing e d }

/-- `syscall_mem_alloc` of the `struct Fd` of an end. -/
def allocFd (r : PipeEnd) (p : FdPlace) : PipeEnds :=
  { s with fds := fun r' => if r' = r then insert p (s.fds r') else (s.fds r').erase p }

/-- `syscall_mem_map` of the `struct Fd` at `p` to the place `q`. -/
def mapFd (p q : FdPlace) : PipeEnds :=
  { s with fds := fun r => if p ∈ s.fds r then insert q (s.fds r) else (s.fds r).erase q }

/-- `syscall_mem_unmap` of a `struct Fd`. -/
def unmapFd (p : FdPlace) : PipeEnds := { s with fds := fun r => (s.fds r).erase p }

/-- The page of the pipe is mapped. -/
def mapData (p : FdPlace) : PipeEnds := { s with data := insert p s.data }

/-- `syscall_mem_unmap` of the page of the pipe. -/
def unmapData (p : FdPlace) : PipeEnds := { s with data := s.data.erase p }

/-- `env_free`. -/
def die (e : ℕ) : PipeEnds where
  doing := Function.update s.doing e .gone
  fds := fun r => (s.fds r).filter fun p => p.1 ≠ e
  data := s.data.filter fun p => p.1 ≠ e

/-- `pageref` of the `struct Fd` of an end. -/
def fdRef (r : PipeEnd) (p : FdPlace) : ℕ := if p ∈ s.fds r then (s.fds r).card else 0

/-- `pageref` of the `struct Pipe`. -/
def dataRef (p : FdPlace) : ℕ := if p ∈ s.data then s.data.card else 0

/-- `_pipe_is_closed`. -/
def pipeIsClosed (r : PipeEnd) (p : FdPlace) : Bool := s.fdRef r p == s.dataRef p

end PipeEnds

/-- The mapping of a page for a child: `fork` does not look at the result, `spawn` destroys the child
if it is an error. There is an error if there is no memory or the child is gone. -/
def copyPage (s : PipeEnds) (e child k : ℕ) (spawn ok : Bool) (mapped : Bool)
    (map : PipeEnds → PipeEnds) : PipeEnds :=
  if mapped = false then s.goes e (.copy child (k + 1) spawn)
  else if ok ∧ s.doing child = .embryo then (map s).goes e (.copy child (k + 1) spawn)
  else if spawn then (if s.doing child = .embryo then s.die child else s).goes e .idle
  else s.goes e (.copy child (k + 1) spawn)

/-- The next system call of `e`; `ok` tells whether the kernel has the memory that it needs. -/
def endsCall (s : PipeEnds) (e : ℕ) (ok : Bool) : PipeEnds :=
  match s.doing e with
  | .absent | .embryo | .gone | .idle => s
  | .pipeFd0 i j => if ok then (s.allocFd .read (e, i)).goes e (.pipeFd1 i j) else s.goes e .idle
  | .pipeFd1 i j =>
    if ok then (s.allocFd .write (e, j)).goes e (.pipeData i j) else s.goes e (.pipeErr1 i)
  | .pipeData i j =>
    if ok then (s.mapData (e, i)).goes e (.pipeMap i j) else s.goes e (.pipeErr2 i j)
  | .pipeMap i j => if ok then (s.mapData (e, j)).goes e .idle else s.goes e (.pipeErr3 i j)
  | .pipeErr3 i j => (s.unmapData (e, i)).goes e (.pipeErr2 i j)
  | .pipeErr2 i j => (s.unmapFd (e, j)).goes e (.pipeErr1 i)
  | .pipeErr1 i => (s.unmapFd (e, i)).goes e .idle
  | .closeFd i old => (s.unmapFd (e, i)).goes e (.closeData i old)
  | .closeData i none => (s.unmapData (e, i)).goes e .idle
  | .closeData i (some old) => (s.unmapData (e, i)).goes e (.dupData old i)
  | .dupData old new =>
    -- only a page that is there is mapped
    if (e, old) ∉ s.data then s.goes e (.dupFd old new)
    else if ok then (s.mapData (e, new)).goes e (.dupFd old new)
    else s.goes e (.dupErrFd new)
  | .dupFd old new =>
    if ok ∧ (e, old) ∈ s.held then (s.mapFd (e, old) (e, new)).goes e .idle
    else s.goes e (.dupErrFd new)
  | .dupErrFd new => (s.unmapFd (e, new)).goes e (.dupErrData new)
  | .dupErrData new => (s.unmapData (e, new)).goes e .idle
  | .copy child k spawn =>
    if k < maxfd then
      copyPage s e child k spawn ok ((e, k) ∈ s.held) fun s => s.mapFd (e, k) (child, k)
    else if k < 2 * maxfd then
      copyPage s e child k spawn ok ((e, k - maxfd) ∈ s.data) fun s => s.mapData (child, k - maxfd)
    -- the child becomes runnable
    else if s.doing child = .embryo then (s.goes child .idle).goes e .idle
    else s.goes e .idle

/-- What may happen next. -/
inductive EndsEvent
  /-- The environment makes its next system call. -/
  | call (e : ℕ) (ok : Bool)
  /-- `fork` or `spawn` has made a child with `syscall_exofork`. -/
  | copy (e child : ℕ) (spawn : Bool)
  | dup (e old new : ℕ)
  | close (e i : ℕ)
  /-- The environment is destroyed. -/
  | kill (e : ℕ)

/-- One step. A function is called by an environment that is in no other one. -/
def endsStep (s : PipeEnds) : EndsEvent → PipeEnds
  | .call e ok => endsCall s e ok
  | .copy e child spawn =>
    if s.doing e = .idle ∧ s.doing child = .absent then
      (s.goes child .embryo).goes e (.copy child 0 spawn)
    else s
  | .dup e old new =>
    if s.doing e = .idle ∧ old < maxfd ∧ new < maxfd ∧ (e, old) ∈ s.held then
      -- `close` of the new number
      if (e, new) ∈ s.held then s.goes e (.closeFd new (some old)) else s.goes e (.dupData old new)
    else s
  | .close e i =>
    if s.doing e = .idle ∧ i < maxfd ∧ (e, i) ∈ s.held then s.goes e (.closeFd i none) else s
  | .kill e => if s.doing e = .absent then s else s.die e

/-- A run. -/
def endsRun (s : PipeEnds) (events : List EndsEvent) : PipeEnds := events.foldl endsStep s

end MosVolca
