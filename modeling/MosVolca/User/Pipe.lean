import MosVolca.Include.Mmu
import MosVolca.Library.RingBuffer

/-!
# Pipes

`pipe_read`, `pipe_write` and `pipe_close` of `user/lib/pipe.c`, for one environment that holds the
reading end and one that holds the writing end. The two programs share the page of the
`struct Pipe` and run in any order, one test or one transfer of a byte at a time. The tests that
`pageref` makes are on the numbers of mappings of the three pages.

## Main definitions

* `MosVolca.PipeSys` — the two programs and the pages they share.
* `MosVolca.ReadPc`, `MosVolca.WritePc` — where the programs are.
* `MosVolca.pipeStep`, `MosVolca.pipeRun` — one step, and a run.
-/

namespace MosVolca

/-- `u_char`. -/
abbrev UChar := BitVec 8

/-- `BY2PIPE`. -/
def by2pipe : ℕ := 32

/-- `struct Pipe`. -/
structure Pipe where
  rpos : Word
  wpos : Word
  buf : ℕ → UChar

/-- Where the reading program is. -/
inductive ReadPc
  /-- It is not in one of the functions of the pipe. -/
  | idle
  /-- `_pipe_is_closed` in the condition of the `while` loop. -/
  | whileClosed
  /-- `p->p_rpos >= p->p_wpos` in that condition. -/
  | whileEmpty
  /-- `_pipe_is_closed` in the condition of the `if`. -/
  | ifClosed
  /-- `p->p_rpos >= p->p_wpos` in that condition. -/
  | ifEmpty
  /-- The transfer of a byte. -/
  | transfer
  /-- `pipe_close` has unmapped the `struct Fd`. -/
  | closing
  /-- The end is closed, or the environment is gone. -/
  | gone
  deriving DecidableEq

/-- Where the writing program is. -/
inductive WritePc
  | idle
  /-- `_pipe_is_closed` in the condition of the `while` loop. -/
  | whileClosed
  /-- `p->p_wpos - p->p_rpos >= BY2PIPE` in that condition. -/
  | whileFull
  /-- `_pipe_is_closed` in the condition of the `if`. -/
  | ifClosed
  /-- The transfer of a byte. -/
  | transfer
  | closing
  | gone
  deriving DecidableEq

/-- The reading program: its place, the arguments and the variable `i` of `pipe_read`, and what the
calls have returned. -/
structure Reader where
  pc : ReadPc
  n : Word
  i : Word
  rbuf : ℕ → UChar
  returned : List Word

/-- The writing program. -/
structure Writer where
  pc : WritePc
  n : Word
  i : Word
  wbuf : ℕ → UChar
  returned : List Word

/-- The two programs, the `struct Pipe`, and `pp_ref` of the pages of the two `struct Fd` and of the
pipe. The bytes that were accepted and delivered are logged. -/
structure PipeSys where
  pipe : Pipe
  reader : Reader
  writer : Writer
  readRef : ℕ
  writeRef : ℕ
  pipeRef : ℕ
  accepted : List UChar
  delivered : List UChar

/-- Both ends of a new pipe are open. -/
def PipeSys.start : PipeSys where
  pipe := ⟨0, 0, fun _ => 0⟩
  reader := ⟨.idle, 0, 0, fun _ => 0, []⟩
  writer := ⟨.idle, 0, 0, fun _ => 0, []⟩
  readRef := 1
  writeRef := 1
  pipeRef := 2
  accepted := []
  delivered := []

namespace PipeSys

variable (s : PipeSys)

/-- `_pipe_is_closed` for the reader. -/
def readClosed : Bool := s.readRef == s.pipeRef

/-- `_pipe_is_closed` for the writer. -/
def writeClosed : Bool := s.writeRef == s.pipeRef

/-- `p->p_rpos >= p->p_wpos`. -/
def empty : Bool := decide (s.pipe.rpos ≥ s.pipe.wpos)

/-- `p->p_wpos - p->p_rpos >= BY2PIPE`. -/
def full : Bool := decide (s.pipe.wpos - s.pipe.rpos ≥ BitVec.ofNat 32 by2pipe)

/-- The reading program goes on at `pc`. -/
def readAt (pc : ReadPc) : PipeSys := { s with reader := { s.reader with pc := pc } }

/-- The writing program goes on at `pc`. -/
def writeAt (pc : WritePc) : PipeSys := { s with writer := { s.writer with pc := pc } }

/-- `pipe_read` returns. -/
def readReturns (r : Word) : PipeSys :=
  { s with reader := { s.reader with pc := .idle, returned := s.reader.returned ++ [r] } }

/-- `pipe_write` returns. -/
def writeReturns (r : Word) : PipeSys :=
  { s with writer := { s.writer with pc := .idle, returned := s.writer.returned ++ [r] } }

/-- The test `i < n` of the loop of `pipe_read`. -/
def readLoop : PipeSys :=
  if s.reader.i < s.reader.n then s.readAt .whileClosed else s.readReturns s.reader.n

/-- The test `i < n` of the loop of `pipe_write`. -/
def writeLoop : PipeSys :=
  if s.writer.i < s.writer.n then s.writeAt .whileClosed else s.writeReturns s.writer.n

/-- `*(rbuf + i) = p->p_buf[(p->p_rpos++) % BY2PIPE]`. -/
def takeByte : PipeSys :=
  let b := s.pipe.buf (s.pipe.rpos.toNat % by2pipe)
  { s with
    pipe := { s.pipe with rpos := s.pipe.rpos + 1 }
    reader := { s.reader with
      rbuf := Function.update s.reader.rbuf s.reader.i.toNat b, i := s.reader.i + 1 }
    delivered := s.delivered ++ [b] }

/-- `p->p_buf[(p->p_wpos++) % BY2PIPE] = *(wbuf + i)`. -/
def putByte : PipeSys :=
  let b := s.writer.wbuf s.writer.i.toNat
  { s with
    pipe := { s.pipe with
      wpos := s.pipe.wpos + 1
      buf := Function.update s.pipe.buf (s.pipe.wpos.toNat % by2pipe) b }
    writer := { s.writer with i := s.writer.i + 1 }
    accepted := s.accepted ++ [b] }

end PipeSys

/-- One step of the reading program in `pipe_read` or `pipe_close`. -/
def readStep (s : PipeSys) : PipeSys :=
  match s.reader.pc with
  | .idle => s
  | .whileClosed => if s.readClosed then s.readAt .ifClosed else s.readAt .whileEmpty
  -- a full turn of the loop yields in between
  | .whileEmpty => if s.empty then s.readAt .whileClosed else s.readAt .ifClosed
  | .ifClosed => if s.readClosed then s.readAt .ifEmpty else s.readAt .transfer
  | .ifEmpty => if s.empty then s.readReturns s.reader.i else s.readAt .transfer
  | .transfer => s.takeByte.readLoop
  | .closing => { s.readAt .gone with pipeRef := s.pipeRef - 1 }
  | .gone => s

/-- One step of the writing program in `pipe_write` or `pipe_close`. -/
def writeStep (s : PipeSys) : PipeSys :=
  match s.writer.pc with
  | .idle => s
  | .whileClosed => if s.writeClosed then s.writeAt .ifClosed else s.writeAt .whileFull
  | .whileFull => if s.full then s.writeAt .whileClosed else s.writeAt .ifClosed
  | .ifClosed => if s.writeClosed then s.writeReturns s.writer.i else s.writeAt .transfer
  | .transfer => s.putByte.writeLoop
  | .closing => { s.writeAt .gone with pipeRef := s.pipeRef - 1 }
  | .gone => s

/-- What may happen next. -/
inductive PipeEvent
  /-- The reader calls `pipe_read`. -/
  | callRead (n : Word)
  /-- The writer calls `pipe_write`. -/
  | callWrite (wbuf : ℕ → UChar) (n : Word)
  /-- The reader calls `pipe_close`, and its first system call is done. -/
  | closeRead
  | closeWrite
  /-- The reader takes a step. -/
  | read
  | write
  /-- The environment of the reader is destroyed. -/
  | killRead
  | killWrite

/-- The mappings that an end has at a place of its program. -/
def ReadPc.refs : ReadPc → ℕ × ℕ
  | .closing => (0, 1)
  | .gone => (0, 0)
  | _ => (1, 1)

/-- The mappings that an end has at a place of its program. -/
def WritePc.refs : WritePc → ℕ × ℕ
  | .closing => (0, 1)
  | .gone => (0, 0)
  | _ => (1, 1)

/-- One step of the system. A call is made by a program that is in no other one. -/
def pipeStep (s : PipeSys) : PipeEvent → PipeSys
  | .callRead n =>
    if s.reader.pc = .idle then
      { s with reader := { s.reader with n := n, i := 0 } }.readLoop
    else s
  | .callWrite wbuf n =>
    if s.writer.pc = .idle then
      { s with writer := { s.writer with n := n, i := 0, wbuf := wbuf } }.writeLoop
    else s
  | .closeRead =>
    if s.reader.pc = .idle then { s.readAt .closing with readRef := s.readRef - 1 } else s
  | .closeWrite =>
    if s.writer.pc = .idle then { s.writeAt .closing with writeRef := s.writeRef - 1 } else s
  | .read => readStep s
  | .write => writeStep s
  | .killRead =>
    { s.readAt .gone with
      readRef := s.readRef - s.reader.pc.refs.1, pipeRef := s.pipeRef - s.reader.pc.refs.2 }
  | .killWrite =>
    { s.writeAt .gone with
      writeRef := s.writeRef - s.writer.pc.refs.1, pipeRef := s.pipeRef - s.writer.pc.refs.2 }

/-- A run. -/
def pipeRun (s : PipeSys) (events : List PipeEvent) : PipeSys := events.foldl pipeStep s

end MosVolca
