import MosVolca.Kern.UserMode
import MosVolca.Kern.Devices

/-!
# Exception return

`do_tlb_mod` copies the trap frame to the exception stack and enters the user handler, and the
handler goes back with `sys_set_trapframe`. Both edit the frame below `KSTACKTOP` in place, and
`do_syscall` has advanced its `cp0_epc` before the call and replaces its `$v0` after it. This file
proves that the frame comes back as it was, also where the handler is interrupted by exceptions of
its own, at any depth, unless the registers of the last call are saved elsewhere, since its `$sp` is
that of a kernel stack: then the environment resumes behind the call.

The frame is copied byte by byte; that a misaligned stack pointer stops the kernel is not described,
nor what a frame that is saved elsewhere overwrites.

## Main definitions

* `MosVolca.UserKern.doTlbMod`, `MosVolca.UserKern.doSyscall` — the functions.
* `MosVolca.UserKern.returnCall` — the call with which the handler returns, and where the environment
  resumes.
* `MosVolca.HandlerRun` — what happens until the handler returns.

## Main results

* `MosVolca.HandlerRun.keeps` — the frames on the exception stack stay as they are.
* `MosVolca.exception_return` — when the environment resumes with the frame of the exception.
-/

namespace MosVolca

open ByteLoop

/-! ## Trap frames in memory -/

/-- The words of a `struct Trapframe`. -/
def frameWord (tf : Trapframe) (i : ℕ) : Word :=
  if h : i < 32 then tf.regs ⟨i, h⟩
  else match i with
    | 32 => tf.cp0Status
    | 33 => tf.hi
    | 34 => tf.lo
    | 35 => tf.cp0Badvaddr
    | 36 => tf.cp0Cause
    | _ => tf.cp0Epc

/-- The bytes of a `struct Trapframe`. -/
def frameByte (tf : Trapframe) (i : ℕ) : BitVec 8 := wordByte (frameWord tf (i / 4)) (i % 4)

/-- The frame `tf` is in memory at `va`. -/
def FrameAt (user : Word → BitVec 8) (va : Word) (tf : Trapframe) : Prop :=
  ∀ i < sizeofTrapframe.toNat, bytesAt user va i = frameByte tf i

/-- Where `do_tlb_mod` puts the frame of a program with stack pointer `sp`. -/
def frameAddr (sp : Word) : Word :=
  (if sp < ustacktop ∨ sp ≥ uxstacktop then uxstacktop else sp) - sizeofTrapframe

namespace UserKern

/-- `do_tlb_mod`, with the copy of the frame. -/
def doTlbMod (u : UserKern) : Kernel UserKern := do
  let u := u.copyOut (frameAddr (u.kern.ktf.regs 29)) sizeofTrapframe.toNat (frameByte u.kern.ktf)
  let k ← MosVolca.doTlbMod u.kern u.kern.pm
  pure { u with kern := k }

end UserKern

/-! ## `do_syscall` -/

/-- What `syscall_table` leads to. -/
inductive Syscall
  | putchar (c : Word)
  | getenvid
  | panic (msg : Word)
  | cgetc
  | allocShellId
  | entry (x : Entry)
  | ptr (c : PtrCall)

/-- `syscall_table`, with the arguments of the call. -/
def syscallTable (arg1 arg2 arg3 arg4 arg5 : Word) : ℕ → Syscall
  | 0 => .putchar arg1
  | 1 => .ptr (.printCons arg1 arg2)
  | 2 => .getenvid
  | 3 => .entry .yield
  | 4 => .entry (.envDestroy arg1)
  | 5 => .entry (.setTlbModEntry arg1 arg2)
  | 6 => .entry (.memAlloc arg1 arg2 arg3)
  | 7 => .entry (.memMap arg1 arg2 arg3 arg4 arg5)
  | 8 => .entry (.memUnmap arg1 arg2)
  | 9 => .entry .exofork
  | 10 => .entry (.setEnvStatus arg1 arg2)
  | 11 => .ptr (.setTrapframe arg1 arg2)
  | 12 => .panic arg1
  | 13 => .entry (.ipcTrySend arg1 arg2 arg3 arg4)
  | 14 => .entry (.ipcRecv arg1)
  | 15 => .cgetc
  | 16 => .ptr (.writeDev arg1 arg2 arg3)
  | 17 => .ptr (.readDev arg1 arg2 arg3)
  | 18 => .ptr (.getEnvPath arg1 arg2)
  | 19 => .ptr (.changeDir arg1 arg2)
  | 20 => .allocShellId
  | 21 => .ptr (.declareVar arg1 arg2 arg3 arg4)
  | 22 => .ptr (.unsetVar arg1)
  | 23 => .ptr (.getVar arg1 arg2)
  | _ => .ptr (.getAllVar arg1)

/-- `MAX_SYSNO`. -/
def maxSysno : ℕ := 25

/-- What the calls find outside the state: what `sys_putchar`, which has no result, leaves in
`$v0`, the key that `sys_cgetc` waits for, and `nowShellId`. -/
structure SyscallContext where
  leftover : Word
  key : Word
  nowShellId : Word

/-- What a call does: its return value, if it returns, and the new state. -/
def Syscall.run (M : Machine) (o : SyscallContext) (u : UserKern) :
    Syscall → Kernel (Option Word × UserKern)
  | .putchar c => pure (some o.leftover, { u with console := u.console ++ [c.setWidth 8] })
  | .getenvid => do
    let r ← sysGetenvid u.kern
    pure (some r, u)
  | .panic _ => throw (.panic "%s")
  | .cgetc => pure (some o.key, u)
  | .allocShellId => do
    let cur ← deref u.kern.curenv
    pure (some 0, { u with
      kern := u.kern.setEnv cur fun x => { x with shellId := o.nowShellId } })
  | .entry x => do
    let (r, k) ← enter M u.kern x
    pure (r, { u with kern := k })
  | .ptr c => c.run u

namespace UserKern

/-- `tf->regs[2] = r`, for the frame below `KSTACKTOP`. -/
def setV0 (u : UserKern) (r : Word) : UserKern :=
  { u with kern := u.kern.trap { u.kern.ktf with regs := Function.update u.kern.ktf.regs 2 r } }

/-- `tf->cp0_epc = tf->cp0_epc + 4`. -/
def advance (u : UserKern) : UserKern :=
  { u with kern := u.kern.trap { u.kern.ktf with cp0Epc := u.kern.ktf.cp0Epc + 4 } }

/-- `do_syscall`. Where the call does not return, the state is the one after `env_run`. -/
def doSyscall (M : Machine) (o : SyscallContext) (u : UserKern) : Kernel UserKern :=
  let tf := u.kern.ktf
  let sysno := tf.regs 4
  if sysno.toInt < 0 ∨ (maxSysno : ℤ) ≤ sysno.toInt then pure (u.setV0 (-eNoSys))
  else do
    let u := u.advance.touch (tf.regs 29 + 16) 8
    let arg4 := wordOf (bytesAt u.user (tf.regs 29)) 16
    let arg5 := wordOf (bytesAt u.user (tf.regs 29)) 20
    match ← (syscallTable (tf.regs 5) (tf.regs 6) (tf.regs 7) arg4 arg5 sysno.toNat).run M o u with
    | (some r, u) => pure (u.setV0 r)
    | (none, u) => pure u

end UserKern

/-- The frame behind a call, with `r` in `$v0`. -/
def Trapframe.behind (tf : Trapframe) (r : Word) : Trapframe :=
  { tf with cp0Epc := tf.cp0Epc + 4, regs := Function.update tf.regs 2 r }

/-- The call `sys_set_trapframe` of a program with the registers `tf`: the frame from which
`ret_from_exception` resumes, which is the one that `SAVE_ALL` has saved, and the state. The function
itself sets the frame below `KSTACKTOP`. -/
def UserKern.returnCall (M : Machine) (o : SyscallContext) (u : UserKern) (tf : Trapframe) :
    Kernel (Trapframe × UserKern) :=
  if saveAll tf = kstacktop - sizeofTrapframe then do
    let u ← UserKern.doSyscall M o { u with kern := u.kern.trap tf }
    pure (u.kern.ktf, u)
  else do
    let (r, u) ← u.sysSetTrapframe (tf.regs 5) (tf.regs 6)
    pure (tf.behind r, u)

/-! ## Handlers -/

/-- The current environment stays, and so do the frames at `frames`. -/
def KeepsFrames (frames : List Word) (u u' : UserKern) : Prop :=
  u'.kern.curenv = u.kern.curenv ∧
    ∀ va ∈ frames, ∀ i < sizeofTrapframe.toNat, bytesAt u'.user va i = bytesAt u.user va i

/-- The registers are those of a call `sys_set_trapframe(0, va)`. -/
structure SetsFrame (tf : Trapframe) (va : Word) : Prop where
  sysno : tf.regs 4 = 11
  envid : tf.regs 5 = 0
  frame : tf.regs 6 = va

/-- The stack pointer is on the exception stack and not above the frame at `va`. -/
structure Nested (u : UserKern) (va : Word) : Prop where
  lower : ustacktop ≤ u.kern.ktf.regs 29
  upper : u.kern.ktf.regs 29 < uxstacktop
  below : u.kern.ktf.regs 29 ≤ va

/-- What happens while the frames at `frames`, the innermost first, are on the exception stack: the
handler does something that leaves them alone, or it is interrupted by an exception, whose own
handler goes back with `sys_set_trapframe`. Before an exception and before that call, the trap code
has saved the registers below `KSTACKTOP`. -/
inductive HandlerRun (M : Machine) : List Word → UserKern → UserKern → Prop
  | refl {frames : List Word} {u : UserKern} : HandlerRun M frames u u
  | own {frames : List Word} {u u1 u2 : UserKern} (h : HandlerRun M frames u u1)
    (hstep : KeepsFrames frames u1 u2) : HandlerRun M frames u u2
  | nested {frames : List Word} {va : Word} {u u1 u2 u3 u4 : UserKern} {o : SyscallContext}
    (h : HandlerRun M (va :: frames) u u1) (hn : Nested u1 va) (hpush : u1.doTlbMod = .ok u2)
    (hrun : HandlerRun M (u2.kern.ktf.regs 4 :: va :: frames) u2 u3)
    (hset : SetsFrame u3.kern.ktf (u2.kern.ktf.regs 4)) (htop : SavedBelowTop u3.kern.ktf)
    (hret : u3.doSyscall M o = .ok u4) : HandlerRun M (va :: frames) u u4

/-- Each frame ends where the next one begins, or below it, and the last one ends at the top of the
exception stack or below. -/
def Stacked : List Word → Prop
  | [] => True
  | va :: frames => va.toNat + sizeofTrapframe.toNat ≤ uxstacktop.toNat ∧
      (∀ va' ∈ frames, va.toNat + sizeofTrapframe.toNat ≤ va'.toNat) ∧ Stacked frames

variable {M : Machine} {u u' u1 u2 u3 : UserKern} {va : Word} {tf : Trapframe}
  {frames outer : List Word}

@[simp] lemma uxstacktop_toNat : uxstacktop.toNat = 0x7f400000 := utop_toNat

@[simp] lemma sizeofTrapframe_toNat : sizeofTrapframe.toNat = 152 := rfl

/-! ## The copy of the frame -/

/-- The address of a frame for a stack pointer that is not on the exception stack, and for one that
is. -/
lemma frameAddr_toNat (sp : Word) : (frameAddr sp).toNat =
    (if 0x7f3fe000 ≤ sp.toNat ∧ sp.toNat < 0x7f400000 then sp.toNat else 0x7f400000) - 152 := by
  unfold frameAddr
  have hsub : ∀ x : Word, 152 ≤ x.toNat → (x - sizeofTrapframe).toNat = x.toNat - 152 := by
    intro x hx
    rw [BitVec.toNat_sub, sizeofTrapframe_toNat]
    have := x.isLt
    omega
  split_ifs with h1 h2 h2
  · simp only [ge_iff_le, BitVec.le_def, BitVec.lt_def, ustacktop_toNat, uxstacktop_toNat] at h1
    omega
  · rw [hsub _ (by rw [uxstacktop_toNat]; omega), uxstacktop_toNat]
  · exact hsub _ (by omega)
  · simp only [ge_iff_le, BitVec.le_def, BitVec.lt_def, ustacktop_toNat, uxstacktop_toNat] at h1
    omega

/-- The frame is in user space. -/
lemma frameAddr_legal (sp : Word) : isIllegalVaRange (frameAddr sp) sizeofTrapframe = false := by
  rw [isIllegalVaRange_iff (by decide), InUserRange, frameAddr_toNat, utemp_toNat, utop_toNat,
    sizeofTrapframe_toNat]
  split_ifs
  · omega
  · omega

lemma frameAddr_le (sp : Word) : (frameAddr sp).toNat + 152 ≤ 0x7f400000 := by
  rw [frameAddr_toNat]
  split_ifs
  · omega
  · omega

/-- A nested frame ends at the outer one or below. -/
lemma Nested.frameAddr_le (h : Nested u va) :
    (frameAddr (u.kern.ktf.regs 29)).toNat + 152 ≤ va.toNat := by
  obtain ⟨hlo, hhi, hle⟩ := h
  rw [BitVec.le_def, ustacktop_toNat] at hlo
  rw [BitVec.lt_def, uxstacktop_toNat] at hhi
  rw [BitVec.le_def] at hle
  rw [frameAddr_toNat, if_pos ⟨hlo, hhi⟩]
  omega

/-- The offset of an address in a range. -/
lemma offset_toNat {x : Word} {i : ℕ} (hi : i < 2 ^ 32) :
    (x + BitVec.ofNat 32 i - x).toNat = i := by
  have hx := x.isLt
  rw [BitVec.toNat_sub, BitVec.toNat_add, BitVec.toNat_ofNat]
  omega

/-- What `do_tlb_mod` does. -/
lemma doTlbMod_spec (h : u.doTlbMod = .ok u1) :
    (∃ c, u.kern.curenv = some c) ∧ u1.kern.curenv = u.kern.curenv ∧
      u1.kern.ktf.regs 4 = frameAddr (u.kern.ktf.regs 29) ∧
      u1.user = fun a => if (a - frameAddr (u.kern.ktf.regs 29)).toNat < sizeofTrapframe.toNat then
        frameByte u.kern.ktf (a - frameAddr (u.kern.ktf.regs 29)).toNat else u.user a := by
  unfold UserKern.doTlbMod at h
  obtain ⟨k, hk, h⟩ := bind_eq_ok.mp h
  cases h
  unfold MosVolca.doTlbMod at hk
  obtain ⟨c, hc, hk⟩ := bind_eq_ok.mp hk
  have hk : (if (u.kern.envs c).userTlbModEntry ≠ 0 then _ else _) = Except.ok k := hk
  by_cases hentry : (u.kern.envs c).userTlbModEntry ≠ 0
  · rw [if_pos hentry] at hk
    cases hk
    exact ⟨⟨c, deref_eq_ok.mp hc⟩, rfl, rfl, rfl⟩
  · rw [if_neg hentry] at hk
    cases hk

/-- The frame is saved. -/
lemma frameAt_of_doTlbMod (h : u.doTlbMod = .ok u1) :
    FrameAt u1.user (u1.kern.ktf.regs 4) u.kern.ktf := by
  obtain ⟨-, -, hva, huser⟩ := doTlbMod_spec h
  intro i hi
  have hlt : i < 2 ^ 32 := hi.trans (by decide)
  rw [hva, huser]
  simp only [bytesAt]
  rw [offset_toNat hlt, if_pos hi]

/-- A frame above stays. -/
lemma doTlbMod_keeps (h : u.doTlbMod = .ok u1)
    (hlo : (u1.kern.ktf.regs 4).toNat + 152 ≤ va.toNat) (hhi : va.toNat + 152 ≤ 0x7f400000) {i : ℕ}
    (hi : i < 152) : bytesAt u1.user va i = bytesAt u.user va i := by
  obtain ⟨-, -, hva, huser⟩ := doTlbMod_spec h
  have haddr : (va + BitVec.ofNat 32 i).toNat = va.toNat + i := by
    rw [BitVec.toNat_add, BitVec.toNat_ofNat]
    omega
  rw [hva] at hlo
  rw [huser]
  simp only [bytesAt]
  refine if_neg fun hlt => ?_
  rw [BitVec.toNat_sub, haddr, sizeofTrapframe_toNat] at hlt
  omega

/-! ## The return -/

/-- Reading a frame back. -/
lemma readTrapframe_eq {user : Word → BitVec 8} (h : FrameAt user va tf) :
    readTrapframe user va = tf := by
  have hword : ∀ n < 38, wordOf (bytesAt user va) (4 * n) = frameWord tf n := by
    intro n hn
    refine wordOf_eq fun j hj => ?_
    rw [h (4 * n + j) (by rw [sizeofTrapframe_toNat]; omega), frameByte,
      show (4 * n + j) / 4 = n by omega, show (4 * n + j) % 4 = j by omega]
  have hregs : (readTrapframe user va).regs = tf.regs := by
    funext i
    show wordOf (bytesAt user va) (4 * i.val) = tf.regs i
    rw [hword i (by omega), frameWord, dif_pos i.isLt]
  cases tf
  simp only [readTrapframe, Trapframe.mk.injEq]
  exact ⟨hregs, hword 32 (by omega), hword 33 (by omega), hword 34 (by omega), hword 35 (by omega),
    hword 36 (by omega), hword 37 (by omega)⟩

/-- `sys_set_trapframe` on the current environment. -/
lemma sysSetTrapframe_cur {c : EnvPtr} (hcur : u.kern.curenv = some c)
    (hva : isIllegalVaRange va sizeofTrapframe = false) (htf : FrameAt u.user va tf) :
    u.sysSetTrapframe 0 va =
      .ok (tf.regs 2, { u with kern := { u.kern with ktf := tf } }.touch va 152) := by
  unfold UserKern.sysSetTrapframe
  rw [hva]
  simp only [Bool.false_eq_true, ↓reduceIte, envid2env, pure_eq_ok, ok_bind, hcur, deref,
    setTrapframe, readTrapframe_eq htf, sizeofTrapframe_toNat]

/-- **`sys_set_trapframe` through `do_syscall`.** The frame below `KSTACKTOP` becomes the one in
memory: what `do_syscall` has done to it before the call is overwritten, and what it does afterwards
changes nothing, since the call returns the `$v0` of the frame. -/
lemma doSyscall_setTrapframe {c : EnvPtr} (hcur : u.kern.curenv = some c)
    (hset : SetsFrame u.kern.ktf va) (hva : isIllegalVaRange va sizeofTrapframe = false)
    (htf : FrameAt u.user va tf) (o : SyscallContext) :
    ∃ u', u.doSyscall M o = .ok u' ∧ u'.kern.ktf = tf ∧ u'.user = u.user ∧
      u'.kern.curenv = u.kern.curenv := by
  obtain ⟨hsysno, henvid, hframe⟩ := hset
  have hcall := sysSetTrapframe_cur (u := u.advance.touch (u.kern.ktf.regs 29 + 16) 8) (c := c) hcur
    hva htf
  unfold UserKern.doSyscall
  simp only [hsysno, henvid, hframe]
  rw [if_neg (by decide)]
  have htable : ∀ a3 a4 a5, syscallTable 0 va a3 a4 a5 (11 : Word).toNat =
      .ptr (.setTrapframe 0 va) := fun _ _ _ => rfl
  simp only [htable, Syscall.run, PtrCall.run]
  rw [hcall, ok_bind]
  simp only [pure_eq_ok, ok_bind, Except.ok.injEq, exists_eq_left']
  refine ⟨?_, rfl, rfl⟩
  show { tf with regs := Function.update tf.regs 2 (tf.regs 2) } = tf
  rw [Function.update_eq_self]

/-- Where the registers are saved depends on `$sp` only. -/
lemma savedBelowTop_congr {tf' : Trapframe} (h : tf'.regs 29 = tf.regs 29) :
    SavedBelowTop tf' ↔ SavedBelowTop tf := by
  unfold SavedBelowTop saveAll
  rw [h]

/-! ## Runs of a handler -/

lemma KeepsFrames.trans (h : KeepsFrames frames u u1) (h' : KeepsFrames frames u1 u2) :
    KeepsFrames frames u u2 :=
  ⟨h'.1.trans h.1, fun va hva i hi => (h'.2 va hva i hi).trans (h.2 va hva i hi)⟩

lemma KeepsFrames.mono (h : KeepsFrames frames u u1) (hsub : outer ⊆ frames) :
    KeepsFrames outer u u1 := ⟨h.1, fun va hva => h.2 va (hsub hva)⟩

lemma KeepsFrames.frameAt (h : KeepsFrames frames u u1) (hva : va ∈ frames)
    (htf : FrameAt u.user va tf) : FrameAt u1.user va tf :=
  fun i hi => (h.2 va hva i hi).trans (htf i hi)

/-- A frame that is saved on the exception stack goes below the others. -/
lemma Stacked.push (hs : Stacked (va :: frames)) (hn : Nested u va) (h : u.doTlbMod = .ok u1) :
    Stacked (u1.kern.ktf.regs 4 :: va :: frames) := by
  obtain ⟨-, -, hva, -⟩ := doTlbMod_spec h
  have hle := hn.frameAddr_le
  rw [hva]
  refine ⟨frameAddr_le _, fun va' hva' => ?_, hs⟩
  rw [sizeofTrapframe_toNat]
  rcases List.mem_cons.mp hva' with rfl | hmem
  · exact hle
  · have := hs.2.1 va' hmem
    omega

lemma Stacked.le (hs : Stacked frames) (hva : va ∈ frames) : va.toNat + 152 ≤ 0x7f400000 := by
  induction frames with
  | nil => exact absurd hva List.not_mem_nil
  | cons va' frames ih =>
    rcases List.mem_cons.mp hva with rfl | hmem
    · exact hs.1
    · exact ih hs.2.2 hmem

/-- **The frames on the exception stack stay** while a handler runs, however deep the exceptions
are nested that interrupt it. -/
theorem HandlerRun.keeps (h : HandlerRun M frames u u') (hs : Stacked frames) :
    KeepsFrames frames u u' := by
  induction h with
  | refl => exact ⟨rfl, fun _ _ _ _ => rfl⟩
  | own h hstep ih => exact (ih hs).trans hstep
  | @nested frames va u u1 u2 u3 u4 o h hn hpush hrun hset _ hret ih ih' =>
    obtain ⟨⟨c, hc⟩, hcur, hva, -⟩ := doTlbMod_spec hpush
    have hs' := hs.push hn hpush
    have hin : KeepsFrames (va :: frames) u1 u2 := ⟨hcur, fun va' hva' i hi =>
      doTlbMod_keeps hpush (hs'.2.1 va' hva') (hs.le hva') hi⟩
    have hkeep := ih' hs'
    -- the call at the end changes neither user memory nor the current environment
    have htf := hkeep.frameAt List.mem_cons_self (frameAt_of_doTlbMod hpush)
    obtain ⟨u', hr, -, huser, hcur'⟩ := doSyscall_setTrapframe (M := M)
      (hkeep.1.trans (hcur.trans hc)) hset (hva ▸ frameAddr_legal _) htf o
    cases hret.symm.trans hr
    refine ((ih hs).trans hin).trans ((hkeep.mono (List.subset_cons_self _ _)).trans ⟨hcur', ?_⟩)
    intro va' _ i _
    rw [huser]

/-- What happens with frames of outer exceptions on the stack can happen without them. -/
lemma HandlerRun.outermost (h : HandlerRun M (frames ++ outer) u u1) (hne : frames ≠ []) :
    HandlerRun M frames u u1 := by
  generalize hf : frames ++ outer = all at h
  induction h generalizing frames with
  | refl => exact .refl
  | own h hstep ih =>
    subst hf
    exact .own (ih hne rfl) (hstep.mono (List.subset_append_left _ _))
  | @nested _ va _ _ _ _ _ _ h hn hpush hrun hset htop hret ih ih' =>
    obtain _ | ⟨va', frames⟩ := frames
    · exact absurd rfl hne
    cases hf
    exact .nested (ih hne rfl) hn hpush (ih' (List.cons_ne_nil _ _) rfl) hset htop hret

/-- **The call with which a handler returns** sets the frame of the exception. The environment
resumes from it if the registers of the call are saved below `KSTACKTOP`, and behind the call
otherwise.

**Proof sketch.** The frame is on the exception stack still, since the run of the handler keeps it.
So `sys_set_trapframe` finds it and puts it below `KSTACKTOP`. -/
lemma HandlerRun.returnCall (h : u.doTlbMod = .ok u1)
    (hrun : HandlerRun M (u1.kern.ktf.regs 4 :: outer) u1 u2)
    (hset : SetsFrame tf (u1.kern.ktf.regs 4)) (o : SyscallContext) : ∃ tf' u3,
      u2.returnCall M o tf = .ok (tf', u3) ∧ (SavedBelowTop tf → tf' = u.kern.ktf) ∧
      (¬ SavedBelowTop tf → tf' = tf.behind (u.kern.ktf.regs 2)) := by
  obtain ⟨⟨c, hc⟩, hcur, hva, -⟩ := doTlbMod_spec h
  have hown : HandlerRun M [u1.kern.ktf.regs 4] u1 u2 := hrun.outermost (List.cons_ne_nil _ _)
  have hkeep := hown.keeps ⟨hva ▸ frameAddr_le _, fun _ h => absurd h List.not_mem_nil, trivial⟩
  have htf := hkeep.frameAt List.mem_cons_self (frameAt_of_doTlbMod h)
  have hc2 : u2.kern.curenv = some c := hkeep.1.trans (hcur.trans hc)
  have hlegal : isIllegalVaRange (u1.kern.ktf.regs 4) sizeofTrapframe = false :=
    hva ▸ frameAddr_legal _
  unfold UserKern.returnCall
  by_cases htop : saveAll tf = kstacktop - sizeofTrapframe
  · obtain ⟨u3, hr, hktf, -⟩ := doSyscall_setTrapframe (M := M)
      (u := { u2 with kern := u2.kern.trap tf }) hc2 hset hlegal htf o
    rw [if_pos htop, hr]
    exact ⟨_, u3, rfl, fun _ => hktf, fun hno => absurd htop hno⟩
  · rw [if_neg htop, hset.envid, hset.frame, sysSetTrapframe_cur hc2 hlegal htf]
    exact ⟨_, _, rfl, fun hyes => absurd hyes htop, fun _ => rfl⟩

/-- **When exception return is transparent.** For every frame that is saved below `KSTACKTOP` on an
exception, every run of a handler that leaves the copy of the frame alone, and every call
`sys_set_trapframe(0, frame)` of this handler, the environment resumes with that frame exactly if
the registers of the call are saved below `KSTACKTOP` too, also where the handler is interrupted by
exceptions and where it has itself interrupted another one. A nested exception saves its frame
without overlapping the outer one.

**Proof sketch.** The copy of the frame survives the handler by induction on its run; the call then reads
it back, to the frame below `KSTACKTOP`. -/
theorem exception_return (h : u.doTlbMod = .ok u1) :
    (SavedBelowTop u.kern.ktf → ∀ outer u2 tf o,
      HandlerRun M (u1.kern.ktf.regs 4 :: outer) u1 u2 → SetsFrame tf (u1.kern.ktf.regs 4) →
        ∃ tf' u3, u2.returnCall M o tf = .ok (tf', u3) ∧
          (tf' = u.kern.ktf ↔ SavedBelowTop tf)) ∧
    ∀ w w1, Nested w (u1.kern.ktf.regs 4) → w.doTlbMod = .ok w1 →
      FrameAt w1.user (w1.kern.ktf.regs 4) w.kern.ktf ∧
      ∀ a ∈ addrs (u1.kern.ktf.regs 4) sizeofTrapframe.toNat,
        a ∉ addrs (w1.kern.ktf.regs 4) sizeofTrapframe.toNat ∧ w1.user a = w.user a := by
  obtain ⟨-, -, hva, -⟩ := doTlbMod_spec h
  have hle : (u1.kern.ktf.regs 4).toNat + 152 ≤ 0x7f400000 := hva ▸ frameAddr_le _
  constructor
  · intro hold outer u2 tf o hrun hset
    obtain ⟨tf', u3, hr, hyes, hno⟩ := hrun.returnCall h hset o
    refine ⟨tf', u3, hr, fun heq => ?_, hyes⟩
    by_contra htop
    -- the frame behind the call has the same stack pointer
    have hsp : u.kern.ktf.regs 29 = tf.regs 29 := by
      rw [← heq, hno htop]
      rfl
    exact htop ((savedBelowTop_congr hsp).mp hold)
  · intro w w1 hn hw
    obtain ⟨-, -, hva', -⟩ := doTlbMod_spec hw
    have hbelow := hn.frameAddr_le
    rw [← hva'] at hbelow
    refine ⟨frameAt_of_doTlbMod hw, fun a ha => ?_⟩
    obtain ⟨i, hi, rfl⟩ := mem_addrs.mp ha
    rw [sizeofTrapframe_toNat] at hi
    refine ⟨fun hc => ?_, doTlbMod_keeps hw hbelow hle hi⟩
    obtain ⟨j, hj, hij⟩ := mem_addrs.mp hc
    rw [sizeofTrapframe_toNat] at hj
    have := congrArg BitVec.toNat hij
    rw [BitVec.toNat_add, BitVec.toNat_add, BitVec.toNat_ofNat, BitVec.toNat_ofNat] at this
    omega

/-! ## A handler that does nothing else -/

/-- The first environment has registered a handler. -/
def handlerUser : UserKern :=
  { clearUser with
    kern := clearUser.kern.setEnv 0 fun x => { x with userTlbModEntry := 0x400000#32 } }

/-- The registers of the call with which the handler goes back. -/
def returnFrame (va : Word) : Trapframe :=
  { Env.zero.tf with
    regs := Function.update (Function.update Env.zero.tf.regs 4 11) 6 va }

/-- It goes back at once. -/
theorem exception_return_once : ∃ u1 tf u3, handlerUser.doTlbMod = .ok u1 ∧
    u1.returnCall smallMachine ⟨0, 0, 0⟩ (returnFrame (u1.kern.ktf.regs 4)) = .ok (tf, u3) ∧
      tf = handlerUser.kern.ktf := by
  have hpush : ∃ u1, handlerUser.doTlbMod = .ok u1 := ⟨_, rfl⟩
  obtain ⟨u1, hpush⟩ := hpush
  obtain ⟨tf, u3, hret, htf⟩ := (exception_return (M := smallMachine) hpush).1 rfl [] u1
    (returnFrame (u1.kern.ktf.regs 4)) ⟨0, 0, 0⟩ .refl ⟨rfl, rfl, rfl⟩
  exact ⟨u1, tf, u3, hpush, hret, htf.mpr rfl⟩

/-- The same call with `$sp` in the memory of the kernel. -/
def asideFrame (va : Word) : Trapframe :=
  { returnFrame va with regs := Function.update (returnFrame va).regs 29 0x83000000 }

/-- **A return that does not happen**: the handler goes on behind its call. -/
theorem exception_not_return : ¬ ∀ (M : Machine) (u u1 u2 : UserKern) (outer : List Word)
    (tf : Trapframe) (o : SyscallContext), u.doTlbMod = .ok u1 →
    HandlerRun M (u1.kern.ktf.regs 4 :: outer) u1 u2 → SetsFrame tf (u1.kern.ktf.regs 4) →
      ∃ u3, u2.returnCall M o tf = .ok (u.kern.ktf, u3) := by
  intro hall
  have hpush : ∃ u1, handlerUser.doTlbMod = .ok u1 := ⟨_, rfl⟩
  obtain ⟨u1, hpush⟩ := hpush
  have hset : SetsFrame (asideFrame (u1.kern.ktf.regs 4)) (u1.kern.ktf.regs 4) := ⟨rfl, rfl, rfl⟩
  have hrun : HandlerRun smallMachine [u1.kern.ktf.regs 4] u1 u1 := .refl
  obtain ⟨tf, u3, hret, -, hno⟩ := hrun.returnCall hpush hset ⟨0, 0, 0⟩
  obtain ⟨u3', hret'⟩ := hall _ _ _ _ [] _ ⟨0, 0, 0⟩ hpush hrun hset
  have heq := (Prod.ext_iff.mp (Except.ok.inj (hret'.symm.trans hret))).1
  rw [hno (show ¬ (0x83000000 - sizeofTrapframe = kstacktop - sizeofTrapframe) by decide)] at heq
  have hepc : (0 : Word) = 0 + 4 := congrArg Trapframe.cp0Epc heq
  exact absurd hepc (by decide)

end MosVolca
