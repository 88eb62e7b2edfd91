import MosVolca.User.Pipe

/-!
# A pipe is a queue

For one reader and one writer, in any order of their steps, the bytes that the reader gets are the
bytes of the writer, in order and each once, and at most `BY2PIPE` bytes are in the pipe. The
emptiness test of `pipe_read` compares the two positions as unsigned words; it is right as long as
fewer than 2^32 bytes were written to the pipe, and from then on it is wrong for good.

## Main definitions

* `MosVolca.PipeInv` — the invariant.
* `MosVolca.EofRight` — what the end of file and an empty pipe should mean.

## Main results

* `MosVolca.pipe_fifo` — the pipe is a queue.
* `MosVolca.eofRight_iff` — when `pipe_read` sees that the pipe is empty.
-/

namespace MosVolca

open RingBuffer

variable {s : PipeSys} {d a d' a' : ℕ} {gone gone' : Prop}

/-! ## The invariant -/

/-- What has been tested when the reader is at a place of `pipe_read`, with `d` bytes delivered and
`a` bytes accepted. -/
def ReadPc.Justified (d a : ℕ) (gone : Prop) : ReadPc → Prop
  | .ifClosed => (d < a ∧ d + 1 < 2 ^ 32) ∨ gone
  | .ifEmpty => gone
  | .transfer => d < a ∧ d + 1 < 2 ^ 32
  | _ => True

/-- The same for the writer. -/
def WritePc.Justified (d a : ℕ) (gone : Prop) : WritePc → Prop
  | .ifClosed => a < d + by2pipe ∨ gone
  | .transfer => a < d + by2pipe
  | _ => True

/-- What the reader has seen stays true when bytes are accepted and when the writer goes. -/
lemma ReadPc.Justified.mono {pc : ReadPc} (h : pc.Justified d a gone) (ha : a ≤ a')
    (hg : gone → gone') : pc.Justified d a' gone' := by
  cases pc with
  | ifClosed => exact h.imp (And.imp_left fun h => h.trans_le ha) hg
  | ifEmpty => exact hg h
  | transfer => exact And.imp_left (fun h => Nat.lt_of_lt_of_le h ha) h
  | _ => trivial

/-- What the writer has seen stays true when bytes are delivered and when the reader goes. -/
lemma WritePc.Justified.mono {pc : WritePc} (h : pc.Justified d a gone) (hd : d ≤ d')
    (hg : gone → gone') : pc.Justified d' a gone' := by
  cases pc with
  | ifClosed => exact h.imp (fun h => h.trans_le (by omega)) hg
  | transfer => exact Nat.lt_of_lt_of_le h (Nat.add_le_add_right hd by2pipe)
  | _ => trivial

/-- **The invariant**: the references are the mappings of the two ends, the positions count the
bytes, and the ring holds the bytes that are not delivered. -/
structure PipeInv (s : PipeSys) : Prop where
  readRef : s.readRef = s.reader.pc.refs.1
  writeRef : s.writeRef = s.writer.pc.refs.1
  pipeRef : s.pipeRef = s.reader.pc.refs.2 + s.writer.pc.refs.2
  rpos : s.pipe.rpos = BitVec.ofNat 32 s.delivered.length
  wpos : s.pipe.wpos = BitVec.ofNat 32 s.accepted.length
  queue : s.delivered = s.accepted.take s.delivered.length
  le : s.delivered.length ≤ s.accepted.length
  room : s.accepted.length ≤ s.delivered.length + by2pipe
  ring : RingBuffer.Holds by2pipe s.pipe.buf s.accepted s.delivered.length
  unwrapped : s.delivered.length < 2 ^ 32
  reader : s.reader.pc.Justified s.delivered.length s.accepted.length (s.writer.pc = .gone)
  writer : s.writer.pc.Justified s.delivered.length s.accepted.length (s.reader.pc = .gone)

/-- It holds at the start. -/
lemma pipeInv_start : PipeInv .start where
  readRef := rfl
  writeRef := rfl
  pipeRef := rfl
  rpos := rfl
  wpos := rfl
  queue := rfl
  le := le_rfl
  room := Nat.zero_le _
  ring := holds_of_le le_rfl
  unwrapped := by decide
  reader := trivial
  writer := trivial

/-- A place at which the end is gone has no mappings. -/
lemma ReadPc.refs_eq_zero {pc : ReadPc} : pc.refs.2 = 0 ↔ pc = .gone := by
  cases pc <;> simp [ReadPc.refs]

lemma WritePc.refs_eq_zero {pc : WritePc} : pc.refs.2 = 0 ↔ pc = .gone := by
  cases pc <;> simp [WritePc.refs]

namespace PipeInv

variable (h : PipeInv s)

include h

/-- **The test of the reader** tells whether the writer is gone. -/
lemma readClosed_iff (hpc : s.reader.pc.refs = (1, 1)) :
    s.readClosed = true ↔ s.writer.pc = .gone := by
  rw [PipeSys.readClosed, beq_iff_eq, h.readRef, h.pipeRef, hpc, ← WritePc.refs_eq_zero]
  omega

/-- The test of the writer tells whether the reader is gone. -/
lemma writeClosed_iff (hpc : s.writer.pc.refs = (1, 1)) :
    s.writeClosed = true ↔ s.reader.pc = .gone := by
  rw [PipeSys.writeClosed, beq_iff_eq, h.writeRef, h.pipeRef, hpc, ← ReadPc.refs_eq_zero]
  omega

/-- A reader that does not see the pipe empty has a byte to read, and its position will not
wrap. -/
lemma of_not_empty (he : s.empty = false) :
    s.delivered.length < s.accepted.length ∧ s.delivered.length + 1 < 2 ^ 32 := by
  rw [PipeSys.empty, decide_eq_false_iff_not, h.rpos, h.wpos, ge_iff_le, BitVec.le_def,
    BitVec.toNat_ofNat, BitVec.toNat_ofNat, Nat.mod_eq_of_lt h.unwrapped] at he
  have hle := h.le
  have hlt := Nat.mod_lt s.accepted.length (by decide : 0 < 2 ^ 32)
  have heq : s.delivered.length = s.accepted.length →
      s.accepted.length % 2 ^ 32 = s.delivered.length := fun he' => by
    rw [← he', Nat.mod_eq_of_lt h.unwrapped]
  omega

/-- A writer that does not see the pipe full has room for a byte. -/
lemma of_not_full (hf : s.full = false) : s.accepted.length < s.delivered.length + by2pipe := by
  have hb : by2pipe = 32 := rfl
  have h32 : (BitVec.ofNat 32 by2pipe).toNat = 32 := by decide
  have hle := h.le
  have hroom := h.room
  rw [PipeSys.full, decide_eq_false_iff_not, h.rpos, h.wpos, ge_iff_le, BitVec.le_def,
    toNat_sub_ofNat h.le (by omega), h32] at hf
  omega

/-! ## One step -/

/-- The reader goes on at another place of `pipe_read`. -/
lemma readAt (pc : ReadPc) (hrefs : s.reader.pc.refs = pc.refs)
    (hj : pc.Justified s.delivered.length s.accepted.length (s.writer.pc = .gone)) :
    PipeInv (s.readAt pc) := by
  have hgone : s.reader.pc = .gone → pc = .gone := fun hg => by
    rw [← ReadPc.refs_eq_zero, ← hrefs, hg]
    rfl
  exact ⟨h.readRef.trans (congrArg Prod.fst hrefs), h.writeRef,
    h.pipeRef.trans (congrArg (· + s.writer.pc.refs.2) (congrArg Prod.snd hrefs)), h.rpos, h.wpos,
    h.queue, h.le, h.room, h.ring, h.unwrapped, hj, h.writer.mono le_rfl hgone⟩

/-- The writer goes on at another place of `pipe_write`. -/
lemma writeAt (pc : WritePc) (hrefs : s.writer.pc.refs = pc.refs)
    (hj : pc.Justified s.delivered.length s.accepted.length (s.reader.pc = .gone)) :
    PipeInv (s.writeAt pc) := by
  have hgone : s.writer.pc = .gone → pc = .gone := fun hg => by
    rw [← WritePc.refs_eq_zero, ← hrefs, hg]
    rfl
  exact ⟨h.readRef, h.writeRef.trans (congrArg Prod.fst hrefs),
    h.pipeRef.trans (congrArg (s.reader.pc.refs.2 + ·) (congrArg Prod.snd hrefs)), h.rpos, h.wpos,
    h.queue, h.le, h.room, h.ring, h.unwrapped, h.reader.mono le_rfl hgone, hj⟩

/-- The invariant looks at the place of the reader only. -/
lemma congrReader {r : Reader} (hr : r.pc = s.reader.pc) : PipeInv { s with reader := r } := by
  constructor
  all_goals simp only [hr]
  exacts [h.readRef, h.writeRef, h.pipeRef, h.rpos, h.wpos, h.queue, h.le, h.room, h.ring,
    h.unwrapped, h.reader, h.writer]

lemma congrWriter {w : Writer} (hw : w.pc = s.writer.pc) : PipeInv { s with writer := w } := by
  constructor
  all_goals simp only [hw]
  exacts [h.readRef, h.writeRef, h.pipeRef, h.rpos, h.wpos, h.queue, h.le, h.room, h.ring,
    h.unwrapped, h.reader, h.writer]

lemma readReturns (hrefs : s.reader.pc.refs = (1, 1)) (r : Word) : PipeInv (s.readReturns r) :=
  (h.readAt .idle hrefs trivial).congrReader rfl

lemma writeReturns (hrefs : s.writer.pc.refs = (1, 1)) (r : Word) : PipeInv (s.writeReturns r) :=
  (h.writeAt .idle hrefs trivial).congrWriter rfl

/-- The reader looks at the pipe again. -/
lemma readLoop (hrefs : s.reader.pc.refs = (1, 1)) : PipeInv s.readLoop := by
  unfold PipeSys.readLoop
  split_ifs
  · exact h.readAt _ hrefs trivial
  · exact h.readReturns hrefs _

lemma writeLoop (hrefs : s.writer.pc.refs = (1, 1)) : PipeInv s.writeLoop := by
  unfold PipeSys.writeLoop
  split_ifs
  · exact h.writeAt _ hrefs trivial
  · exact h.writeReturns hrefs _

/-- **A byte is delivered**: it is the next one of those accepted. -/
lemma takeByte (hpc : s.reader.pc = .whileClosed)
    (hlt : s.delivered.length < s.accepted.length) (hwrap : s.delivered.length + 1 < 2 ^ 32) :
    PipeInv s.takeByte := by
  have hb : s.pipe.buf (s.pipe.rpos.toNat % by2pipe) = s.accepted[s.delivered.length] := by
    rw [h.rpos, toNat_ofNat_mod (by decide : by2pipe ∣ 2 ^ 32), h.ring.front hlt]
  have hlen : s.takeByte.delivered.length = s.delivered.length + 1 := List.length_append
  have hroom := h.room
  refine ⟨h.readRef, h.writeRef, h.pipeRef, ?_, h.wpos, ?_, ?_, ?_, ?_, ?_, ?_, ?_⟩
  · rw [hlen, ← ofNat_succ, ← h.rpos]
    rfl
  · change s.delivered ++ [_] = s.accepted.take s.takeByte.delivered.length
    rw [hlen, take_succ_front hlt, ← hb, ← h.queue]
  · rw [hlen]
    exact hlt
  · rw [hlen]
    exact hroom.trans (by omega)
  · rw [hlen]
    exact h.ring.pop
  · rw [hlen]
    exact hwrap
  · change s.reader.pc.Justified _ _ _
    rw [hpc]
    trivial
  · rw [hlen]
    exact h.writer.mono (Nat.le_succ _) id

/-- **A byte is accepted**: there is room for it. -/
lemma putByte (hpc : s.writer.pc = .whileClosed)
    (hlt : s.accepted.length < s.delivered.length + by2pipe) : PipeInv s.putByte := by
  have hlen : s.putByte.accepted.length = s.accepted.length + 1 := List.length_append
  have hle := h.le
  refine ⟨h.readRef, h.writeRef, h.pipeRef, h.rpos, ?_, ?_, ?_, ?_, ?_, h.unwrapped, ?_, ?_⟩
  · rw [hlen, ← ofNat_succ, ← h.wpos]
    rfl
  · change s.delivered = (s.accepted ++ [_]).take s.delivered.length
    rw [List.take_append_of_le_length hle]
    exact h.queue
  · rw [hlen]
    exact hle.trans (Nat.le_succ _)
  · rw [hlen]
    exact hlt
  · have hring := h.ring.push hlt (s.writer.wbuf s.writer.i.toNat)
    rw [← toNat_ofNat_mod (by decide : by2pipe ∣ 2 ^ 32), ← h.wpos] at hring
    exact hring
  · rw [hlen]
    exact h.reader.mono (Nat.le_succ _) id
  · change s.writer.pc.Justified _ _ _
    rw [hpc]
    trivial

/-- The transfer of a byte by the reader, and the test of its loop. -/
lemma transferRead (hpc : s.reader.pc = .transfer) : PipeInv s.takeByte.readLoop := by
  have hj := h.reader
  rw [hpc] at hj
  have hat : PipeInv (s.readAt .whileClosed) := h.readAt _ (by rw [hpc]; rfl) trivial
  exact (hat.takeByte rfl hj.1 hj.2).readLoop rfl

/-- The transfer of a byte by the writer, and the test of its loop. -/
lemma transferWrite (hpc : s.writer.pc = .transfer) : PipeInv s.putByte.writeLoop := by
  have hj := h.writer
  rw [hpc] at hj
  have hat : PipeInv (s.writeAt .whileClosed) := h.writeAt _ (by rw [hpc]; rfl) trivial
  exact (hat.putByte rfl hj).writeLoop rfl

/-- The reader gives up mappings. -/
lemma dropRead {pc : ReadPc} {readRef pipeRef : ℕ} (hpc : pc = .closing ∨ pc = .gone)
    (hr : readRef = pc.refs.1) (hp : pipeRef = pc.refs.2 + s.writer.pc.refs.2)
    (hgone : s.reader.pc = .gone → pc = .gone) :
    PipeInv { s.readAt pc with readRef := readRef, pipeRef := pipeRef } := by
  refine ⟨hr, h.writeRef, hp, h.rpos, h.wpos, h.queue, h.le, h.room, h.ring, h.unwrapped, ?_,
    h.writer.mono le_rfl hgone⟩
  rcases hpc with rfl | rfl <;> trivial

/-- The writer gives up mappings. -/
lemma dropWrite {pc : WritePc} {writeRef pipeRef : ℕ} (hpc : pc = .closing ∨ pc = .gone)
    (hw : writeRef = pc.refs.1) (hp : pipeRef = s.reader.pc.refs.2 + pc.refs.2)
    (hgone : s.writer.pc = .gone → pc = .gone) :
    PipeInv { s.writeAt pc with writeRef := writeRef, pipeRef := pipeRef } := by
  refine ⟨h.readRef, hw, hp, h.rpos, h.wpos, h.queue, h.le, h.room, h.ring, h.unwrapped,
    h.reader.mono le_rfl hgone, ?_⟩
  rcases hpc with rfl | rfl <;> trivial

/-- **A step of the reader** keeps the invariant. -/
lemma readStep : PipeInv (readStep s) := by
  unfold MosVolca.readStep
  have hj := h.reader
  split <;> rename_i hpc <;> rw [hpc] at hj
  case h_1 => exact h
  case h_2 =>
    have hrefs : s.reader.pc.refs = (1, 1) := by rw [hpc]; rfl
    split_ifs with hc
    · exact h.readAt _ hrefs (.inr ((h.readClosed_iff hrefs).mp hc))
    · exact h.readAt _ hrefs trivial
  case h_3 =>
    have hrefs : s.reader.pc.refs = (1, 1) := by rw [hpc]; rfl
    split_ifs with he
    · exact h.readAt _ hrefs trivial
    · exact h.readAt _ hrefs (.inl (h.of_not_empty (Bool.eq_false_iff.mpr he)))
  case h_4 =>
    have hrefs : s.reader.pc.refs = (1, 1) := by rw [hpc]; rfl
    split_ifs with hc
    · exact h.readAt _ hrefs ((h.readClosed_iff hrefs).mp hc)
    · exact h.readAt _ hrefs (hj.resolve_right fun hg => hc ((h.readClosed_iff hrefs).mpr hg))
  case h_5 =>
    have hrefs : s.reader.pc.refs = (1, 1) := by rw [hpc]; rfl
    split_ifs with he
    · exact h.readReturns hrefs _
    · exact h.readAt _ hrefs (h.of_not_empty (Bool.eq_false_iff.mpr he))
  case h_6 => exact h.transferRead hpc
  case h_7 =>
    refine h.dropRead (.inr rfl) ?_ ?_ fun _ => rfl
    · exact h.readRef.trans (by rw [hpc]; rfl)
    · rw [h.pipeRef, hpc]
      change 1 + _ - 1 = 0 + _
      omega
  case h_8 => exact h

/-- **A step of the writer** keeps the invariant. -/
lemma writeStep : PipeInv (writeStep s) := by
  unfold MosVolca.writeStep
  have hj := h.writer
  split <;> rename_i hpc <;> rw [hpc] at hj
  case h_1 => exact h
  case h_2 =>
    have hrefs : s.writer.pc.refs = (1, 1) := by rw [hpc]; rfl
    split_ifs with hc
    · exact h.writeAt _ hrefs (.inr ((h.writeClosed_iff hrefs).mp hc))
    · exact h.writeAt _ hrefs trivial
  case h_3 =>
    have hrefs : s.writer.pc.refs = (1, 1) := by rw [hpc]; rfl
    split_ifs with hf
    · exact h.writeAt _ hrefs trivial
    · exact h.writeAt _ hrefs (.inl (h.of_not_full (Bool.eq_false_iff.mpr hf)))
  case h_4 =>
    have hrefs : s.writer.pc.refs = (1, 1) := by rw [hpc]; rfl
    split_ifs with hc
    · exact h.writeReturns hrefs _
    · exact h.writeAt _ hrefs (hj.resolve_right fun hg => hc ((h.writeClosed_iff hrefs).mpr hg))
  case h_5 => exact h.transferWrite hpc
  case h_6 =>
    refine h.dropWrite (.inr rfl) ?_ ?_ fun _ => rfl
    · exact h.writeRef.trans (by rw [hpc]; rfl)
    · rw [h.pipeRef, hpc]
      change _ + 1 - 1 = _ + 0
      omega
  case h_7 => exact h

/-- **Each step** keeps the invariant. -/
lemma step (e : PipeEvent) : PipeInv (pipeStep s e) := by
  cases e with
  | callRead n =>
    rw [pipeStep]
    split_ifs with hpc
    · exact (h.congrReader (r := { s.reader with n := n, i := 0 }) rfl).readLoop
        (congrArg ReadPc.refs hpc)
    · exact h
  | callWrite wbuf n =>
    rw [pipeStep]
    split_ifs with hpc
    · exact (h.congrWriter (w := { s.writer with n := n, i := 0, wbuf := wbuf }) rfl).writeLoop
        (congrArg WritePc.refs hpc)
    · exact h
  | closeRead =>
    rw [pipeStep]
    split_ifs with hpc
    · refine h.dropRead (.inl rfl) ?_ ?_ fun hg => absurd (hpc.symm.trans hg) (by decide)
      · rw [h.readRef, hpc]
        rfl
      · exact h.pipeRef.trans (by rw [hpc]; rfl)
    · exact h
  | closeWrite =>
    rw [pipeStep]
    split_ifs with hpc
    · refine h.dropWrite (.inl rfl) ?_ ?_ fun hg => absurd (hpc.symm.trans hg) (by decide)
      · rw [h.writeRef, hpc]
        rfl
      · exact h.pipeRef.trans (by rw [hpc]; rfl)
    · exact h
  | read => exact h.readStep
  | write => exact h.writeStep
  | killRead =>
    refine h.dropRead (.inr rfl) ?_ ?_ fun _ => rfl
    · rw [h.readRef, Nat.sub_self]
      rfl
    · rw [h.pipeRef, Nat.add_sub_cancel_left]
      exact (Nat.zero_add _).symm
  | killWrite =>
    refine h.dropWrite (.inr rfl) ?_ ?_ fun _ => rfl
    · rw [h.writeRef, Nat.sub_self]
      rfl
    · rw [h.pipeRef, Nat.add_sub_cancel_right]
      rfl

/-- **A run** keeps it. -/
lemma run (events : List PipeEvent) : PipeInv (pipeRun s events) := by
  induction events generalizing s with
  | nil => exact h
  | cons e events ih => exact ih (h.step e)

end PipeInv

/-- **The pipe is a queue.** Whatever the two programs call and in whatever order their steps are
taken, the bytes delivered are a prefix of the bytes accepted, and at most `BY2PIPE` bytes are
accepted and not delivered. -/
theorem pipe_fifo (events : List PipeEvent) :
    (pipeRun .start events).delivered <+: (pipeRun .start events).accepted ∧
      (pipeRun .start events).accepted.length ≤
        (pipeRun .start events).delivered.length + by2pipe := by
  have h := pipeInv_start.run events
  refine ⟨?_, h.room⟩
  rw [h.queue]
  exact List.take_prefix _ _

/-! ## End of file -/

/-- **What the emptiness test should mean**: it says whether every byte accepted is delivered. The
second part is about the return of a short count, the third one about waiting. -/
structure EofRight (s : PipeSys) : Prop where
  empty_iff : s.empty = true ↔ s.delivered = s.accepted
  short : s.reader.pc = .ifEmpty → s.empty = true →
    s.writer.pc = .gone ∧ s.delivered = s.accepted
  waits : s.reader.pc = .whileEmpty → s.empty = true → s.delivered = s.accepted

namespace PipeInv

variable (h : PipeInv s)

include h

/-- Everything is delivered if as many bytes are delivered as accepted. -/
lemma delivered_eq_iff : s.delivered = s.accepted ↔ s.accepted.length ≤ s.delivered.length := by
  refine ⟨fun he => (congrArg List.length he).ge, fun hle => ?_⟩
  rw [h.queue, List.take_of_length_le hle]

/-- The test in terms of the counters. -/
lemma empty_iff_ofNat_le :
    s.empty = true ↔
      BitVec.ofNat 32 s.accepted.length ≤ BitVec.ofNat 32 s.delivered.length := by
  rw [PipeSys.empty, decide_eq_true_iff, h.rpos, h.wpos, ge_iff_le]

/-- The test is right before the position of the writer wraps. -/
lemma eofRight (hlt : s.accepted.length < 2 ^ 32) : EofRight s := by
  have hiff : s.empty = true ↔ s.delivered = s.accepted := by
    rw [h.empty_iff_ofNat_le, h.delivered_eq_iff, ofNat_le_ofNat_iff h.unwrapped hlt]
  refine ⟨hiff, fun hpc he => ⟨?_, hiff.mp he⟩, fun _ => hiff.mp⟩
  have hj := h.reader
  rw [hpc] at hj
  exact hj

/-- From then on it is wrong: the reader stops before its own position wraps. -/
lemma not_eofRight (hle : 2 ^ 32 ≤ s.accepted.length) : ¬ EofRight s := by
  intro hr
  have hb : by2pipe = 32 := rfl
  have hroom := h.room
  have hlt := h.unwrapped
  have he : s.empty = true := by
    rw [h.empty_iff_ofNat_le]
    exact ofNat_le_ofNat_of_wrapped hlt hle (by omega)
  have hall := h.delivered_eq_iff.mp (hr.empty_iff.mp he)
  omega

end PipeInv

/-- **When the end of file means that everything was read**: in a reachable state, exactly if fewer
than 2^32 bytes were written to the pipe. -/
theorem eofRight_iff (events : List PipeEvent) :
    EofRight (pipeRun .start events) ↔ (pipeRun .start events).accepted.length < 2 ^ 32 :=
  have h := pipeInv_start.run events
  ⟨fun hr => not_le.mp fun hle => h.not_eofRight hle hr, h.eofRight⟩

/-! ## A run that comes there -/

/-- The writer writes one byte. -/
def writeOne : List PipeEvent := [.callWrite (fun _ => 0) 1, .write, .write, .write, .write]

/-- The reader reads one byte. -/
def readOne : List PipeEvent := [.callRead 1, .read, .read, .read, .read]

/-- Both programs are in no call, and `n` bytes went through the pipe. -/
structure Drained (n : ℕ) (s : PipeSys) : Prop where
  inv : PipeInv s
  reader : s.reader.pc = .idle
  writer : s.writer.pc = .idle
  accepted : s.accepted.length = n
  delivered : s.delivered.length = n

lemma pipeRun_append (s : PipeSys) (es es' : List PipeEvent) :
    pipeRun s (es ++ es') = pipeRun (pipeRun s es) es' :=
  List.foldl_append

/-- What `writeOne` does when the pipe is open and not full. -/
lemma pipeRun_writeOne (hw : s.writer.pc = .idle) (hc : s.writeClosed = false)
    (hf : s.full = false) :
    (pipeRun s writeOne).writer.pc = .idle ∧ (pipeRun s writeOne).reader.pc = s.reader.pc ∧
      (pipeRun s writeOne).accepted.length = s.accepted.length + 1 ∧
      (pipeRun s writeOne).delivered = s.delivered := by
  unfold PipeSys.writeClosed at hc
  unfold PipeSys.full at hf
  simp [pipeRun, writeOne, pipeStep, writeStep, hw, hc, hf, PipeSys.writeLoop, PipeSys.writeAt,
    PipeSys.writeClosed, PipeSys.full, PipeSys.putByte, PipeSys.writeReturns]

/-- What `readOne` does when the pipe is open and not empty. -/
lemma pipeRun_readOne (hr : s.reader.pc = .idle) (hc : s.readClosed = false)
    (he : s.empty = false) :
    (pipeRun s readOne).reader.pc = .idle ∧ (pipeRun s readOne).writer.pc = s.writer.pc ∧
      (pipeRun s readOne).accepted = s.accepted ∧
      (pipeRun s readOne).delivered.length = s.delivered.length + 1 := by
  unfold PipeSys.readClosed at hc
  unfold PipeSys.empty at he
  simp [pipeRun, readOne, pipeStep, readStep, hr, hc, he, PipeSys.readLoop, PipeSys.readAt,
    PipeSys.readClosed, PipeSys.empty, PipeSys.takeByte, PipeSys.readReturns]

/-- A byte more is accepted. -/
lemma Drained.writeOne {n : ℕ} (h : Drained n s) :
    (pipeRun s writeOne).writer.pc = .idle ∧ (pipeRun s writeOne).reader.pc = .idle ∧
      (pipeRun s writeOne).accepted.length = n + 1 ∧
      (pipeRun s writeOne).delivered.length = n := by
  have hc : s.writeClosed = false := by
    rw [← Bool.not_eq_true, h.inv.writeClosed_iff (by rw [h.writer]; rfl), h.reader]
    decide
  have hf : s.full = false := by
    rw [PipeSys.full, decide_eq_false_iff_not, h.inv.rpos, h.inv.wpos, h.accepted, h.delivered,
      BitVec.sub_self]
    decide
  obtain ⟨hw, hr, ha, hd⟩ := pipeRun_writeOne h.writer hc hf
  exact ⟨hw, hr.trans h.reader, ha.trans (by rw [h.accepted]), by rw [hd, h.delivered]⟩

/-- A byte goes through the pipe. -/
lemma Drained.roundTrip {n : ℕ} (h : Drained n s) (hn : n + 1 < 2 ^ 32) :
    Drained (n + 1) (pipeRun s (MosVolca.writeOne ++ readOne)) := by
  obtain ⟨hw, hr, ha, hd⟩ := h.writeOne
  have hinv := h.inv.run MosVolca.writeOne
  rw [pipeRun_append]
  generalize pipeRun s MosVolca.writeOne = s' at hw hr ha hd hinv
  have hc : s'.readClosed = false := by
    rw [← Bool.not_eq_true, hinv.readClosed_iff (by rw [hr]; rfl), hw]
    decide
  have he : s'.empty = false := by
    rw [← Bool.not_eq_true, hinv.empty_iff_ofNat_le, ha, hd,
      ofNat_le_ofNat_iff (by omega) (by omega)]
    omega
  obtain ⟨hr', hw', ha', hd'⟩ := pipeRun_readOne hr hc he
  exact ⟨hinv.run _, hr', hw'.trans hw, by rw [ha', ha], by rw [hd', hd]⟩

/-- `n` bytes go through the pipe. -/
lemma drained_roundTrips {n : ℕ} (hn : n < 2 ^ 32) :
    Drained n (pipeRun .start (List.replicate n (writeOne ++ readOne)).flatten) := by
  induction n with
  | zero => exact ⟨pipeInv_start, rfl, rfl, rfl, rfl⟩
  | succ n ih =>
    rw [List.replicate_succ', List.flatten_append, pipeRun_append, List.flatten_singleton]
    exact (ih (by omega)).roundTrip hn

/-- 2^32 − 1 bytes go through the pipe and one more is written: the pipe then looks empty. -/
def wrapEvents : List PipeEvent :=
  (List.replicate (2 ^ 32 - 1) (writeOne ++ readOne)).flatten ++ writeOne

/-- **An unread byte that is not seen**: after `wrapEvents` the last byte is in the buffer and
`p_wpos` is 0, and what the emptiness test says is wrong. -/
theorem eof_wrong_after_wrap : ¬ EofRight (pipeRun .start wrapEvents) := by
  have hdrained : Drained (2 ^ 32 - 1)
      (pipeRun .start (List.replicate (2 ^ 32 - 1) (writeOne ++ readOne)).flatten) :=
    drained_roundTrips (by omega)
  obtain ⟨-, -, ha, -⟩ := hdrained.writeOne
  rw [wrapEvents, pipeRun_append]
  refine (hdrained.inv.run writeOne).not_eofRight ?_
  rw [ha]
  omega

end MosVolca
