import MosVolca.User.PipeFifo

/-!
# Readers that wait with bytes in hand

The comment in `pipe_read` says that a call that has read a byte returns when the buffer is empty.
The loop tests the other end only: a call that finds the buffer empty goes on waiting for as long
as the pipe is open, whatever it has read. Two programs that exchange messages over two pipes can
then wait for each other.

## Main definitions

* `MosVolca.PipeSys.ReturnsHeld` — what the comment says about a call.
* `MosVolca.Duplex` — two programs and two pipes, each program reading one and writing the other.
* `MosVolca.Duplex.Blocked` — neither call returns, whatever the two programs do.

## Main results

* `MosVolca.reader_returns_iff_closed` — a call that holds bytes returns them exactly if the pipe is
  closed.
-/

namespace MosVolca

variable {s : PipeSys} {r : List Word} {i : Word}

/-! ## A call that has bytes in hand -/

namespace PipeSys

/-- The call wants more than one byte and has transferred one. -/
def HoldsData (s : PipeSys) : Prop := 1 < s.reader.n ∧ 0 < s.reader.i

/-- The call is at one of its tests of the buffer, and the buffer is empty. -/
def FindsEmpty (s : PipeSys) : Prop :=
  (s.reader.pc = .whileEmpty ∨ s.reader.pc = .ifEmpty) ∧ s.empty = true

instance : Decidable s.HoldsData := inferInstanceAs (Decidable (_ ∧ _))

instance : Decidable s.FindsEmpty := inferInstanceAs (Decidable (_ ∧ _))

end PipeSys

/-- The reader takes a step. -/
def PipeEvent.isRead : PipeEvent → Bool
  | .read => true
  | _ => false

/-- **What the contract of `pipe_read` says** of a call that finds the buffer empty: when the
reader has taken enough steps it has returned the number of bytes read so far, in whatever way the
steps of the writer lie between them. -/
def PipeSys.ReturnsHeld (s : PipeSys) : Prop :=
  ∃ k, ∀ events : List PipeEvent, PipeEvent.killRead ∉ events →
    k ≤ events.countP PipeEvent.isRead →
    s.reader.returned ++ [s.reader.i] <+: (pipeRun s events).reader.returned

/-- What was returned stays returned. -/
lemma returned_prefix_step (s : PipeSys) (e : PipeEvent) :
    s.reader.returned <+: (pipeStep s e).reader.returned := by
  have hloop : ∀ t : PipeSys, t.reader.returned <+: t.readLoop.reader.returned := by
    intro t
    unfold PipeSys.readLoop
    split_ifs
    · exact List.prefix_rfl
    · exact List.prefix_append _ _
  have hwrite : ∀ t : PipeSys, t.writeLoop.reader = t.reader := by
    intro t
    unfold PipeSys.writeLoop
    split_ifs <;> rfl
  cases e with
  | callRead n =>
    rw [pipeStep]
    split_ifs
    · exact hloop { s with reader := { s.reader with n := n, i := 0 } }
    · exact List.prefix_rfl
  | callWrite wbuf n =>
    rw [pipeStep]
    split_ifs
    · rw [hwrite]
    · exact List.prefix_rfl
  | closeRead =>
    rw [pipeStep]
    split_ifs <;> exact List.prefix_rfl
  | closeWrite =>
    rw [pipeStep]
    split_ifs <;> exact List.prefix_rfl
  | read =>
    rw [pipeStep]
    unfold readStep
    split
    case h_6 => exact hloop s.takeByte
    all_goals
      first
        | exact List.prefix_rfl
        | (split_ifs <;> first | exact List.prefix_rfl | exact List.prefix_append _ _)
  | write =>
    rw [pipeStep]
    unfold writeStep
    split
    case h_5 => rw [hwrite]; exact List.prefix_rfl
    all_goals
      first
        | exact List.prefix_rfl
        | (split_ifs <;> exact List.prefix_rfl)
  | killRead => exact List.prefix_rfl
  | killWrite => exact List.prefix_rfl

lemma returned_prefix_run (s : PipeSys) (events : List PipeEvent) :
    s.reader.returned <+: (pipeRun s events).reader.returned := by
  induction events generalizing s with
  | nil => exact List.prefix_rfl
  | cons e events ih => exact (returned_prefix_step s e).trans (ih _)

/-! ### The pipe is open -/

/-- The call waits: the buffer is empty and the other end is open. -/
structure Waiting (r : List Word) (s : PipeSys) : Prop where
  pc : s.reader.pc = .whileClosed ∨ s.reader.pc = .whileEmpty
  empty : s.empty = true
  opened : s.readClosed = false
  returned : s.reader.returned = r

/-- **A turn of the loop** brings the reader back to the first test. -/
lemma Waiting.read (h : Waiting r s) : Waiting r (pipeStep s .read) := by
  rcases h.pc with hpc | hpc
  · have hs : pipeStep s .read = s.readAt .whileEmpty := by
      simp only [pipeStep, readStep, hpc, h.opened, Bool.false_eq_true, if_false]
    rw [hs]
    exact ⟨.inr rfl, h.empty, h.opened, h.returned⟩
  · have hs : pipeStep s .read = s.readAt .whileClosed := by
      simp only [pipeStep, readStep, hpc, h.empty, if_true]
    rw [hs]
    exact ⟨.inl rfl, h.empty, h.opened, h.returned⟩

lemma Waiting.ne_idle (h : Waiting r s) : s.reader.pc ≠ .idle := by
  rcases h.pc with hpc | hpc <;> rw [hpc] <;> decide

/-- It is in a call and makes no other one. -/
lemma Waiting.callRead (h : Waiting r s) (n : Word) : Waiting r (pipeStep s (.callRead n)) := by
  rw [pipeStep, if_neg h.ne_idle]
  exact h

lemma Waiting.closeRead (h : Waiting r s) : Waiting r (pipeStep s .closeRead) := by
  rw [pipeStep, if_neg h.ne_idle]
  exact h

/-- It waits for as long as the writer does nothing. -/
lemma Waiting.replicate (h : Waiting r s) (k : ℕ) :
    Waiting r (pipeRun s (List.replicate k .read)) := by
  induction k generalizing s with
  | zero => exact h
  | succ k ih => exact ih h.read

/-- A call that finds the buffer of an open pipe empty waits. -/
lemma PipeInv.waiting (h : PipeInv s) (he : s.FindsEmpty) (hc : s.readClosed = false) :
    Waiting s.reader.returned s := by
  refine ⟨.inr ?_, he.2, hc, rfl⟩
  rcases he.1 with hpc | hpc
  · exact hpc
  · -- the test of the `if` is reached in a closed pipe only
    have hgone := h.reader
    rw [hpc] at hgone
    have hclosed := (h.readClosed_iff (by rw [hpc]; rfl)).mpr hgone
    rw [hc] at hclosed
    cases hclosed

/-- So it does not return what it holds. -/
lemma Waiting.not_returnsHeld (h : Waiting s.reader.returned s) : ¬ s.ReturnsHeld := by
  rintro ⟨k, hk⟩
  have hcount : (List.replicate k PipeEvent.read).countP PipeEvent.isRead = k := by
    rw [List.countP_replicate]
    rfl
  have hpre := hk (List.replicate k .read)
    (fun hmem => by cases List.eq_of_mem_replicate hmem) hcount.ge
  rw [(h.replicate k).returned] at hpre
  have hle := hpre.length_le
  rw [List.length_append, List.length_singleton] at hle
  omega

/-! ### The pipe is closed -/

/-- The tests of the reader before it returns, when the buffer is empty and the pipe is closed. -/
def ReadPc.testsLeft : ReadPc → ℕ
  | .whileEmpty => 4
  | .whileClosed => 3
  | .ifClosed => 2
  | .ifEmpty => 1
  | _ => 0

/-- The call is about to return `i`: the writer is gone, the buffer is empty and at most `k` tests
are left. -/
structure Finishing (r : List Word) (i : Word) (k : ℕ) (s : PipeSys) : Prop where
  inv : PipeInv s
  gone : s.writer.pc = .gone
  empty : s.empty = true
  value : s.reader.i = i
  returned : s.reader.returned = r
  pos : 0 < s.reader.pc.testsLeft
  le : s.reader.pc.testsLeft ≤ k

namespace Finishing

variable {k : ℕ} (h : Finishing r i k s)

include h

lemma ne_idle : s.reader.pc ≠ .idle := by
  intro hpc
  have hpos := h.pos
  rw [hpc] at hpos
  exact absurd hpos (by decide)

lemma refs : s.reader.pc.refs = (1, 1) := by
  have hpos := h.pos
  revert hpos
  cases s.reader.pc <;> decide

lemma closed : s.readClosed = true := (h.inv.readClosed_iff h.refs).mpr h.gone

/-- The reader goes on at a later test. -/
lemma readAt (pc : ReadPc) (hpos : 0 < pc.testsLeft) (hlt : pc.testsLeft < s.reader.pc.testsLeft)
    (hs : pipeStep s .read = s.readAt pc) : Finishing r i (k - 1) (pipeStep s .read) := by
  have hle := h.le
  have hinv := h.inv.step .read
  rw [hs] at hinv ⊢
  refine ⟨hinv, h.gone, h.empty, h.value, h.returned, hpos, ?_⟩
  change pc.testsLeft ≤ k - 1
  omega

/-- **A step of the reader** makes the next test, or returns the bytes it holds. -/
lemma read : (pipeStep s .read).reader.returned = r ++ [i] ∨
    Finishing r i (k - 1) (pipeStep s .read) := by
  have hpos := h.pos
  cases hpc : s.reader.pc with
  | idle => exact absurd hpc h.ne_idle
  | whileClosed =>
    refine .inr (h.readAt .ifClosed (by decide) (by rw [hpc]; decide) ?_)
    simp only [pipeStep, readStep, hpc, h.closed, if_true]
  | whileEmpty =>
    refine .inr (h.readAt .whileClosed (by decide) (by rw [hpc]; decide) ?_)
    simp only [pipeStep, readStep, hpc, h.empty, if_true]
  | ifClosed =>
    refine .inr (h.readAt .ifEmpty (by decide) (by rw [hpc]; decide) ?_)
    simp only [pipeStep, readStep, hpc, h.closed, if_true]
  | ifEmpty =>
    refine .inl ?_
    have hs : pipeStep s .read = s.readReturns s.reader.i := by
      simp only [pipeStep, readStep, hpc, h.empty, if_true]
    rw [hs, ← h.returned, ← h.value]
    rfl
  | transfer => rw [hpc] at hpos; exact absurd hpos (by decide)
  | closing => rw [hpc] at hpos; exact absurd hpos (by decide)
  | gone => rw [hpc] at hpos; exact absurd hpos (by decide)

/-- **Any other step** leaves the call where it is: the writer is gone. -/
lemma other {e : PipeEvent} (hkill : e ≠ .killRead) (he : e.isRead = false) :
    Finishing r i k (pipeStep s e) := by
  have hinv := h.inv.step e
  have hw : s.writer.pc ≠ .idle := by rw [h.gone]; decide
  cases e with
  | callRead n => rw [pipeStep, if_neg h.ne_idle]; exact h
  | callWrite wbuf n => rw [pipeStep, if_neg hw]; exact h
  | closeRead => rw [pipeStep, if_neg h.ne_idle]; exact h
  | closeWrite => rw [pipeStep, if_neg hw]; exact h
  | read => cases he
  | write =>
    have hs : pipeStep s .write = s := by simp only [pipeStep, writeStep, h.gone]
    rw [hs]
    exact h
  | killRead => exact absurd rfl hkill
  | killWrite => exact ⟨hinv, rfl, h.empty, h.value, h.returned, h.pos, h.le⟩

/-- **A run** with `k` steps of the reader comes to the return. -/
lemma run {events : List PipeEvent} (hkill : PipeEvent.killRead ∉ events)
    (hk : k ≤ events.countP PipeEvent.isRead) :
    r ++ [i] <+: (pipeRun s events).reader.returned := by
  induction events generalizing s k with
  | nil =>
    have hpos := h.pos
    have hle := h.le
    rw [List.countP_nil] at hk
    omega
  | cons e events ih =>
    have hne : e ≠ .killRead := fun hh => hkill (hh ▸ List.mem_cons_self)
    have hrest : PipeEvent.killRead ∉ events := fun hh => hkill (List.mem_cons_of_mem _ hh)
    cases he : e.isRead with
    | false =>
      rw [List.countP_cons_of_neg (by rw [he]; decide)] at hk
      exact ih (h.other hne he) hrest hk
    | true =>
      obtain rfl : e = .read := by cases e <;> first | rfl | cases he
      rw [List.countP_cons_of_pos he] at hk
      rcases h.read with hret | hfin
      · have hpre := returned_prefix_run (pipeStep s .read) events
        rw [hret] at hpre
        exact hpre
      · exact ih hfin hrest (by omega)

end Finishing

/-- A call that finds the buffer of a closed pipe empty returns what it holds. -/
lemma PipeInv.returnsHeld (h : PipeInv s) (he : s.FindsEmpty) (hc : s.readClosed = true) :
    s.ReturnsHeld := by
  have hrefs : s.reader.pc.refs = (1, 1) ∧ 0 < s.reader.pc.testsLeft := by
    rcases he.1 with hpc | hpc <;> rw [hpc] <;> decide
  have hfin : Finishing s.reader.returned s.reader.i s.reader.pc.testsLeft s :=
    ⟨h, (h.readClosed_iff hrefs.1).mp hc, he.2, rfl, rfl, hrefs.2, le_rfl⟩
  exact ⟨s.reader.pc.testsLeft, fun events hkill hk => hfin.run hkill hk⟩

/-- **When a call returns what it holds.** -/
lemma PipeInv.returnsHeld_iff (h : PipeInv s) (he : s.FindsEmpty) :
    s.ReturnsHeld ↔ s.readClosed = true := by
  refine ⟨fun hr => ?_, h.returnsHeld he⟩
  by_contra hc
  exact (h.waiting he (Bool.eq_false_iff.mpr hc)).not_returnsHeld hr

/-! ## Two programs and two pipes -/

/-- Two pipes: the first program writes `there` and reads `back`, the second one reads `there` and
writes `back`. -/
structure Duplex where
  there : PipeSys
  back : PipeSys

/-- Both pipes are new. -/
def Duplex.start : Duplex := ⟨.start, .start⟩

/-- What a program may do. -/
inductive ProgramAct
  | callRead (n : Word)
  | callWrite (wbuf : ℕ → UChar) (n : Word)
  | closeRead
  | closeWrite
  /-- The next step of the call that it is in. -/
  | step
  /-- The environment is destroyed. -/
  | kill

/-- The end is in no call. -/
def ReadPc.resting (pc : ReadPc) : Bool := pc == .idle || pc == .gone

lemma ReadPc.resting_iff {pc : ReadPc} : pc.resting = true ↔ pc = .idle ∨ pc = .gone := by
  cases pc <;> decide

/-- The end is in no call. -/
def WritePc.resting (pc : WritePc) : Bool := pc == .idle || pc == .gone

/-- What one program does, with the pipe it reads and the one it writes: it makes a call on one of
them when it is in no call on the other. -/
def programStep (rd wr : PipeSys) : ProgramAct → PipeSys × PipeSys
  | .callRead n => if wr.writer.pc.resting then (pipeStep rd (.callRead n), wr) else (rd, wr)
  | .callWrite wbuf n =>
    if rd.reader.pc.resting then (rd, pipeStep wr (.callWrite wbuf n)) else (rd, wr)
  | .closeRead => if wr.writer.pc.resting then (pipeStep rd .closeRead, wr) else (rd, wr)
  | .closeWrite => if rd.reader.pc.resting then (rd, pipeStep wr .closeWrite) else (rd, wr)
  | .step =>
    if rd.reader.pc.resting then (rd, pipeStep wr .write) else (pipeStep rd .read, wr)
  | .kill => (pipeStep rd .killRead, pipeStep wr .killWrite)

/-- What happens next, and which program does it. -/
inductive DuplexEvent
  | first (a : ProgramAct)
  | second (a : ProgramAct)

/-- One step of the two programs. -/
def Duplex.step (d : Duplex) : DuplexEvent → Duplex
  | .first a => ⟨(programStep d.back d.there a).2, (programStep d.back d.there a).1⟩
  | .second a => ⟨(programStep d.there d.back a).1, (programStep d.there d.back a).2⟩

/-- A run. -/
def Duplex.run (d : Duplex) (events : List DuplexEvent) : Duplex := events.foldl Duplex.step d

/-- No program is destroyed. -/
def DuplexEvent.spares : DuplexEvent → Bool
  | .first .kill => false
  | .second .kill => false
  | _ => true

/-- Both programs are in `pipe_read`, each holds bytes and finds nothing more. -/
def Duplex.BothHold (d : Duplex) : Prop :=
  (d.there.HoldsData ∧ d.there.FindsEmpty) ∧ d.back.HoldsData ∧ d.back.FindsEmpty

instance (d : Duplex) : Decidable d.BothHold := inferInstanceAs (Decidable (_ ∧ _))

/-- **The programs block each other**: whatever they do, neither call returns. -/
def Duplex.Blocked (d : Duplex) : Prop :=
  ∀ events : List DuplexEvent, (∀ e ∈ events, e.spares = true) →
    (d.run events).there.reader.returned = d.there.reader.returned ∧
      (d.run events).back.reader.returned = d.back.reader.returned

variable {d : Duplex} {r' : List Word} {rd wr : PipeSys}

/-- Each pipe keeps its invariant. -/
lemma PipeInv.programStep (hr : PipeInv rd) (hw : PipeInv wr) (a : ProgramAct) :
    PipeInv (programStep rd wr a).1 ∧ PipeInv (programStep rd wr a).2 := by
  cases a with
  | callRead n =>
    rw [MosVolca.programStep]
    split_ifs
    · exact ⟨hr.step (.callRead n), hw⟩
    · exact ⟨hr, hw⟩
  | callWrite wbuf n =>
    rw [MosVolca.programStep]
    split_ifs
    · exact ⟨hr, hw.step (.callWrite wbuf n)⟩
    · exact ⟨hr, hw⟩
  | closeRead =>
    rw [MosVolca.programStep]
    split_ifs
    · exact ⟨hr.step .closeRead, hw⟩
    · exact ⟨hr, hw⟩
  | closeWrite =>
    rw [MosVolca.programStep]
    split_ifs
    · exact ⟨hr, hw.step .closeWrite⟩
    · exact ⟨hr, hw⟩
  | step =>
    rw [MosVolca.programStep]
    split_ifs
    · exact ⟨hr, hw.step .write⟩
    · exact ⟨hr.step .read, hw⟩
  | kill => exact ⟨hr.step .killRead, hw.step .killWrite⟩

/-- **A run** of the two programs is a run of each pipe. -/
lemma Duplex.inv_run (ht : PipeInv d.there) (hb : PipeInv d.back) (events : List DuplexEvent) :
    PipeInv (d.run events).there ∧ PipeInv (d.run events).back := by
  induction events generalizing d with
  | nil => exact ⟨ht, hb⟩
  | cons e events ih =>
    cases e with
    | first a => exact ih (hb.programStep ht a).2 (hb.programStep ht a).1
    | second a => exact ih (ht.programStep hb a).1 (ht.programStep hb a).2

/-! ### Both pipes are open -/

lemma Waiting.not_resting (h : Waiting r s) : s.reader.pc.resting = false := by
  rcases h.pc with hpc | hpc <;> rw [hpc] <;> rfl

/-- **A program that waits** on its reading end does nothing to its writing end. -/
lemma Waiting.programStep (h : Waiting r rd) (wr : PipeSys) {a : ProgramAct} (ha : a ≠ .kill) :
    Waiting r (programStep rd wr a).1 ∧ (programStep rd wr a).2 = wr := by
  have hrest := Bool.eq_false_iff.mp h.not_resting
  cases a with
  | callRead n =>
    rw [MosVolca.programStep]
    split_ifs
    · exact ⟨h.callRead n, rfl⟩
    · exact ⟨h, rfl⟩
  | callWrite wbuf n => rw [MosVolca.programStep, if_neg hrest]; exact ⟨h, rfl⟩
  | closeRead =>
    rw [MosVolca.programStep]
    split_ifs
    · exact ⟨h.closeRead, rfl⟩
    · exact ⟨h, rfl⟩
  | closeWrite => rw [MosVolca.programStep, if_neg hrest]; exact ⟨h, rfl⟩
  | step => rw [MosVolca.programStep, if_neg hrest]; exact ⟨h.read, rfl⟩
  | kill => exact absurd rfl ha

/-- Two programs that wait for each other wait for ever. -/
lemma Duplex.waiting_run (ht : Waiting r d.there) (hb : Waiting r' d.back)
    {events : List DuplexEvent} (hspare : ∀ e ∈ events, e.spares = true) :
    Waiting r (d.run events).there ∧ Waiting r' (d.run events).back := by
  induction events generalizing d with
  | nil => exact ⟨ht, hb⟩
  | cons e events ih =>
    have he := hspare e List.mem_cons_self
    have hrest : ∀ e ∈ events, e.spares = true :=
      fun e' he' => hspare e' (List.mem_cons_of_mem _ he')
    cases e with
    | first a =>
      have ha : a ≠ .kill := by rintro rfl; cases he
      obtain ⟨hb', hsame⟩ := hb.programStep d.there ha
      refine @ih (d.step (.first a)) ?_ hb' hrest
      change Waiting r (MosVolca.programStep d.back d.there a).2
      rw [hsame]
      exact ht
    | second a =>
      have ha : a ≠ .kill := by rintro rfl; cases he
      obtain ⟨ht', hsame⟩ := ht.programStep d.back ha
      refine @ih (d.step (.second a)) ht' ?_ hrest
      change Waiting r' (MosVolca.programStep d.there d.back a).2
      rw [hsame]
      exact hb

/-- **The deadlock**: both pipes are open and both buffers are empty. -/
lemma Duplex.blocked (ht : Waiting d.there.reader.returned d.there)
    (hb : Waiting d.back.reader.returned d.back) : d.Blocked := fun _ hspare =>
  ⟨(waiting_run ht hb hspare).1.returned, (waiting_run ht hb hspare).2.returned⟩

/-! ### A pipe is closed -/

/-- A program that takes a step takes it on the pipe it reads, or is in no call there. -/
lemma programStep_step (rd wr : PipeSys) : (programStep rd wr .step).1 = pipeStep rd .read := by
  rw [programStep]
  split_ifs with hrest
  · rcases ReadPc.resting_iff.mp hrest with hpc | hpc <;> simp only [pipeStep, readStep, hpc]
  · rfl

/-- The steps of the second program are those of the reader of `there`. -/
lemma Duplex.run_second (d : Duplex) (k : ℕ) :
    (d.run (List.replicate k (.second .step))).there = pipeRun d.there (List.replicate k .read) := by
  induction k generalizing d with
  | zero => rfl
  | succ k ih =>
    have hstep : (d.step (.second .step)).there = pipeStep d.there .read := programStep_step _ _
    exact (ih (d.step (.second .step))).trans (by rw [hstep]; rfl)

/-- Those of the first one are those of the reader of `back`. -/
lemma Duplex.run_first (d : Duplex) (k : ℕ) :
    (d.run (List.replicate k (.first .step))).back = pipeRun d.back (List.replicate k .read) := by
  induction k generalizing d with
  | zero => rfl
  | succ k ih =>
    have hstep : (d.step (.first .step)).back = pipeStep d.back .read := programStep_step _ _
    exact (ih (d.step (.first .step))).trans (by rw [hstep]; rfl)

/-- A call that returns what it holds returns something by the steps of its own program. -/
lemma PipeSys.ReturnsHeld.exists_returned_ne (h : s.ReturnsHeld) :
    ∃ k, (pipeRun s (List.replicate k .read)).reader.returned ≠ s.reader.returned := by
  obtain ⟨k, hk⟩ := h
  have hcount : (List.replicate k PipeEvent.read).countP PipeEvent.isRead = k := by
    rw [List.countP_replicate]
    rfl
  have hpre := hk (List.replicate k .read)
    (fun hmem => by cases List.eq_of_mem_replicate hmem) hcount.ge
  refine ⟨k, fun heq => ?_⟩
  rw [heq] at hpre
  have hle := hpre.length_le
  rw [List.length_append, List.length_singleton] at hle
  omega

/-- **When two programs block each other** that have both found the buffer empty: exactly if both
pipes are open. -/
lemma Duplex.blocked_iff (ht : PipeInv d.there) (hb : PipeInv d.back)
    (hte : d.there.FindsEmpty) (hbe : d.back.FindsEmpty) :
    d.Blocked ↔ d.there.readClosed = false ∧ d.back.readClosed = false := by
  refine ⟨fun hblock => ⟨?_, ?_⟩, fun hopen =>
    Duplex.blocked (ht.waiting hte hopen.1) (hb.waiting hbe hopen.2)⟩
  · by_contra hc
    obtain ⟨k, hk⟩ := (ht.returnsHeld hte (Bool.not_eq_false _ ▸ hc)).exists_returned_ne
    refine hk ?_
    rw [← Duplex.run_second]
    exact (hblock _ fun e he => by rw [List.eq_of_mem_replicate he]; rfl).1
  · by_contra hc
    obtain ⟨k, hk⟩ := (hb.returnsHeld hbe (Bool.not_eq_false _ ▸ hc)).exists_returned_ne
    refine hk ?_
    rw [← Duplex.run_first]
    exact (hblock _ fun e he => by rw [List.eq_of_mem_replicate he]; rfl).2

/-! ## All runs -/

/-- **When a reader that holds bytes returns them.** In every run, a call of `pipe_read` that has
transferred a byte and finds the buffer empty returns the number of bytes read, whatever the writer
does meanwhile, exactly if the pipe is closed. Two programs that both hold bytes of each other's
messages do not block each other exactly if one of the two pipes is closed. -/
theorem reader_returns_iff_closed (events : List PipeEvent) (both : List DuplexEvent) :
    ((pipeRun .start events).HoldsData → (pipeRun .start events).FindsEmpty →
      ((pipeRun .start events).ReturnsHeld ↔ (pipeRun .start events).readClosed = true)) ∧
    ((Duplex.run .start both).BothHold →
      (¬ (Duplex.run .start both).Blocked ↔
        (Duplex.run .start both).there.readClosed = true ∨
          (Duplex.run .start both).back.readClosed = true)) := by
  refine ⟨fun _ he => (pipeInv_start.run events).returnsHeld_iff he, ?_⟩
  rintro ⟨⟨-, hte⟩, -, hbe⟩
  obtain ⟨ht, hb⟩ := @Duplex.inv_run .start pipeInv_start pipeInv_start both
  rw [Duplex.blocked_iff ht hb hte hbe, not_and_or, Bool.not_eq_false, Bool.not_eq_false]

/-- The writer writes one byte; the reader wants two and reads it. -/
def heldEvents : List PipeEvent := writeOne ++ .callRead 2 :: List.replicate 5 .read

/-- The writer is destroyed after that. -/
def killedEvents : List PipeEvent := heldEvents ++ [.killWrite]

/-- Each program writes one byte, wants two and reads one. -/
def heldDuplex : List DuplexEvent :=
  .first (.callWrite (fun _ => 0) 1) :: List.replicate 4 (.first .step) ++
    .second (.callWrite (fun _ => 0) 1) :: List.replicate 4 (.second .step) ++
    .first (.callRead 2) :: List.replicate 5 (.first .step) ++
    .second (.callRead 2) :: List.replicate 5 (.second .step)

/-- What these runs come to, computed once. -/
lemma held_facts : ((pipeRun .start heldEvents).HoldsData ∧
      (pipeRun .start heldEvents).FindsEmpty ∧ (pipeRun .start heldEvents).readClosed = false) ∧
    ((pipeRun .start killedEvents).HoldsData ∧
      (pipeRun .start killedEvents).FindsEmpty ∧
      (pipeRun .start killedEvents).readClosed = true) ∧
    (Duplex.run .start heldDuplex).BothHold ∧
    (Duplex.run .start heldDuplex).there.readClosed = false ∧
    (Duplex.run .start heldDuplex).back.readClosed = false := by
  decide +kernel

/-- The writer is destroyed, and the reader returns what it has. -/
theorem reader_returns_killedEvents :
    (pipeRun .start killedEvents).ReturnsHeld ∧
      (¬ (Duplex.run .start heldDuplex).Blocked ↔
        (Duplex.run .start heldDuplex).there.readClosed = true ∨
          (Duplex.run .start heldDuplex).back.readClosed = true) := by
  obtain ⟨-, ⟨hd, he, hc⟩, hboth, -⟩ := held_facts
  obtain ⟨hiff, hblocked⟩ := reader_returns_iff_closed killedEvents heldDuplex
  exact ⟨(hiff hd he).mpr hc, hblocked hboth⟩

/-- **A reader that waits with a byte in hand**, and two programs that do so for ever. -/
theorem reader_waits_holding :
    ¬ (∀ events, (pipeRun .start events).HoldsData → (pipeRun .start events).FindsEmpty →
      (pipeRun .start events).ReturnsHeld) ∧
    ¬ ∀ events, (Duplex.run .start events).BothHold → ¬ (Duplex.run .start events).Blocked := by
  refine ⟨fun h => ?_, fun h => ?_⟩
  · obtain ⟨⟨hd, he, hc⟩, -⟩ := held_facts
    exact ((pipeInv_start.run heldEvents).waiting he hc).not_returnsHeld (h heldEvents hd he)
  · obtain ⟨-, -, hboth, hopen⟩ := held_facts
    obtain ⟨ht, hb⟩ := @Duplex.inv_run .start pipeInv_start pipeInv_start heldDuplex
    exact h heldDuplex hboth ((Duplex.blocked_iff ht hb hboth.1.2 hboth.2.2).mpr hopen)

end MosVolca
