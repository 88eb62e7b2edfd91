import MosVolca.Fs.Cache
import MosVolca.Kern.Devices
import MosVolca.Library.ByteMemory
import MosVolca.Library.WhileLoop

/-!
# The disk driver

`ide_read` and `ide_write` of `fs/ide.c` go through the system calls on device registers: the number
of the disk and a byte offset are written, an operation is started, its status is read, and the 512
bytes of a sector are copied from or to the device's buffer. The device is modelled as the driver
takes it: an operation transfers the sector at the offset that was set, and succeeds.

## Main definitions

* `MosVolca.Ide`, `MosVolca.Ide.operate` — the machine with the disks, and what the device does.
* `MosVolca.Ide.ideRead`, `MosVolca.Ide.ideWrite` — the driver.
* `MosVolca.Sectors`, `MosVolca.Transfer` — the arguments of a call.

## Main results

* `MosVolca.Transfer.exists_write` — a write changes exactly its sectors, one after the other.
* `MosVolca.Transfer.exists_read` — a read copies them.
* `MosVolca.ide_write_read` — what was written is read.
* `MosVolca.exists_write_block`, `MosVolca.exists_read_block` — the transfers of the block cache.
* `MosVolca.driver_run` — runs of transfers.
-/

namespace MosVolca

open ByteMemory WhileLoop

/-- `BY2SECT`. -/
def by2sect : Word := 512

/-! ## The device -/

def devDiskAddress : Word := 0x13000000
def devDiskOffset : Word := 0x0000
def devDiskId : Word := 0x0010
def devDiskStartOperation : Word := 0x0020
def devDiskStatus : Word := 0x0030
def devDiskBuffer : Word := 0x4000
def devDiskOperationRead : Word := 0
def devDiskOperationWrite : Word := 1

/-- The state of the system calls, whose device bytes are the registers and the buffer, with the
disks behind them: the bytes of each disk by their offsets. All operations are recorded: what, on
which disk and where. -/
structure Ide where
  u : UserKern
  disk : Word → Word → BitVec 8
  ops : List (Word × Word × Word)

namespace Ide

/-- A register of the disk. -/
def register (m : Ide) (reg : Word) : Word := wordOf (bytesAt m.u.dev (devDiskAddress + reg)) 0

/-- The device changes `n` of its bytes. -/
def setDev (m : Ide) (reg : Word) (g : ℕ → BitVec 8) (n : ℕ) : Ide :=
  { m with u := { m.u with dev := overlay m.u.dev (devDiskAddress + reg) g n } }

/-- The device carries out the operation that was started, and sets the status. -/
def operate (m : Ide) : Ide :=
  let op := m.register devDiskStartOperation
  let id := m.register devDiskId
  let off := m.register devDiskOffset
  let m := { m with ops := m.ops ++ [(op, id, off)] }
  if op = devDiskOperationRead then
    (m.setDev devDiskBuffer (bytesAt (m.disk id) off) 512).setDev devDiskStatus (wordByte 1) 4
  else if op = devDiskOperationWrite then
    { m with
      disk := Function.update m.disk id
        (overlay (m.disk id) off (bytesAt m.u.dev (devDiskAddress + devDiskBuffer)) 512) }.setDev
      devDiskStatus (wordByte 1) 4
  else m.setDev devDiskStatus (wordByte 0) 4

/-! ## The driver -/

/-- A local variable is set. -/
def store (m : Ide) (va w : Word) : Ide :=
  { m with u := { m.u with user := overlay m.u.user va (wordByte w) 4 } }

/-- A local variable is read. -/
def load (m : Ide) (va : Word) : Word := wordOf (bytesAt m.u.user va) 0

/-- `panic_on(syscall_write_dev(va, pa, len))`. A word for the start register starts an operation. -/
def writeDev (m : Ide) (va pa len : Word) : Option Ide :=
  let r := m.u.sysWriteDev va pa len
  if r.1 ≠ 0 then none
  else if pa = devDiskAddress + devDiskStartOperation then some { m with u := r.2 }.operate
  else some { m with u := r.2 }

/-- `panic_on(syscall_read_dev(va, pa, len))`. -/
def readDev (m : Ide) (va pa len : Word) : Option Ide :=
  let r := m.u.sysReadDev va pa len
  if r.1 ≠ 0 then none else some { m with u := r.2 }

/-- The places of the local variables on the stack: `temp`, `readOp` or `writeOp`, and `re`. -/
structure Locals where
  temp : Word
  op : Word
  re : Word
  temp_range : InUserRange temp 4
  op_range : InUserRange op 4
  re_range : InUserRange re 4

/-- A round of `ide_read`, with the offset `off`. -/
def ideReadRound (l : Locals) (diskno begin dst : Word) (s : Word × Ide) :
    Option (Word × Ide) := do
  let m := s.2.store l.temp diskno
  let m ← m.writeDev l.temp (devDiskAddress + devDiskId) 4
  let m := m.store l.temp (begin + s.1)
  let m ← m.writeDev l.temp (devDiskAddress + devDiskOffset) 4
  let m := m.store l.op devDiskOperationRead
  let m ← m.writeDev l.op (devDiskAddress + devDiskStartOperation) 4
  let m ← m.readDev l.re (devDiskAddress + devDiskStatus) 4
  if m.load l.re = 0 then none
  else
    let m ← m.readDev (dst + s.1) (devDiskAddress + devDiskBuffer) 512
    pure (s.1 + by2sect, m)

/-- `ide_read`. -/
def ideRead (fuel : ℕ) (l : Locals) (diskno secno dst nsecs : Word) (m : Ide) : Option Ide :=
  let begin := secno * by2sect
  let end' := begin + nsecs * by2sect
  (runM (fun s => decide (begin + s.1 < end')) (ideReadRound l diskno begin dst) fuel (0, m)).map
    Prod.snd

/-- A round of `ide_write`, with the offset `off`. -/
def ideWriteRound (l : Locals) (diskno begin src : Word) (s : Word × Ide) :
    Option (Word × Ide) := do
  let m := s.2.store l.temp diskno
  let m ← m.writeDev l.temp (devDiskAddress + devDiskId) 4
  let m := m.store l.temp (begin + s.1)
  let m ← m.writeDev l.temp (devDiskAddress + devDiskOffset) 4
  let m ← m.writeDev (src + s.1) (devDiskAddress + devDiskBuffer) 512
  let m := m.store l.op devDiskOperationWrite
  let m ← m.writeDev l.op (devDiskAddress + devDiskStartOperation) 4
  let m ← m.readDev l.re (devDiskAddress + devDiskStatus) 4
  if m.load l.re = 0 then none else pure (s.1 + by2sect, m)

/-- `ide_write`. -/
def ideWrite (fuel : ℕ) (l : Locals) (diskno secno src nsecs : Word) (m : Ide) : Option Ide :=
  let begin := secno * by2sect
  let end' := begin + nsecs * by2sect
  (runM (fun s => decide (begin + s.1 < end')) (ideWriteRound l diskno begin src) fuel (0, m)).map
    Prod.snd

end Ide

/-! ## The system calls on legal ranges -/

variable {m : Ide} {va pa len reg w : Word} {f : Word → BitVec 8} {base a : Word} {g : ℕ → BitVec 8}
  {n k j : ℕ}

/-- A word is read from where it was written. -/
lemma wordOf_overlay (f : Word → BitVec 8) (base w : Word) :
    wordOf (bytesAt (overlay f base (wordByte w) 4) base) 0 = w :=
  wordOf_eq fun j hj => by
    rw [Nat.zero_add]
    exact overlay_add (by decide) hj

/-- Bytes outside of what is written. -/
lemma bytesAt_overlay (h : ∀ j < k, n ≤ (a + BitVec.ofNat 32 j - base).toNat) (hj : j < k) :
    bytesAt (overlay f base g n) a j = bytesAt f a j :=
  overlay_of_le (h j hj)

lemma wordOf_congr {s t : ℕ → BitVec 8} {off : ℕ} (h : ∀ j < 4, s (off + j) = t (off + j)) :
    wordOf s off = wordOf t off := by
  have h0 : s off = t off := h 0 (by omega)
  rw [wordOf, h 3 (by omega), h 2 (by omega), h 1 (by omega), h0]
  rfl

namespace Ide

/-- The machine after a successful `sys_write_dev`, before the device reacts. -/
def toDev (m : Ide) (va pa len : Word) : Ide :=
  { m with u := { m.u with
    dev := overlay m.u.dev pa (bytesAt m.u.user va) len.toNat }.touch va len.toNat }

/-- The machine after a successful `sys_read_dev`. -/
def toUser (m : Ide) (va pa len : Word) : Ide :=
  { m with u := m.u.copyOut va len.toNat (bytesAt m.u.dev pa) }

@[simp] lemma store_register : (m.store va w).register reg = m.register reg := rfl
@[simp] lemma toDev_user : (m.toDev va pa len).u.user = m.u.user := rfl
@[simp] lemma toUser_disk : (m.toUser va pa len).disk = m.disk := rfl

lemma store_user : (m.store va w).u.user = overlay m.u.user va (wordByte w) 4 := rfl

lemma toDev_dev : (m.toDev va pa len).u.dev =
    overlay m.u.dev pa (bytesAt m.u.user va) len.toNat := rfl

lemma toUser_user : (m.toUser va pa len).u.user =
    overlay m.u.user va (bytesAt m.u.dev pa) len.toNat := rfl

/-- A write to the device other than one that starts an operation. -/
lemma writeDev_eq (hu : InUserRange va len) (h0 : len ≠ 0) (hd : isIllegalDevPa pa len = false)
    (hpa : pa ≠ devDiskAddress + devDiskStartOperation) :
    m.writeDev va pa len = some (m.toDev va pa len) := by
  have hcall : m.u.sysWriteDev va pa len = (0, (m.toDev va pa len).u) := by
    rw [UserKern.sysWriteDev, (isIllegalVaRange_iff h0).mpr hu, if_neg Bool.false_ne_true, hd,
      if_neg Bool.false_ne_true]
    rfl
  rw [writeDev, hcall, if_neg (not_not.mpr rfl), if_neg hpa]
  rfl

/-- A write that starts an operation. -/
lemma writeDev_start (hu : InUserRange va 4) :
    m.writeDev va (devDiskAddress + devDiskStartOperation) 4 =
      some (m.toDev va (devDiskAddress + devDiskStartOperation) 4).operate := by
  have hcall : m.u.sysWriteDev va (devDiskAddress + devDiskStartOperation) 4 =
      (0, (m.toDev va (devDiskAddress + devDiskStartOperation) 4).u) := by
    have hd : isIllegalDevPa (devDiskAddress + devDiskStartOperation) 4 = false := by decide
    rw [UserKern.sysWriteDev, (isIllegalVaRange_iff (by decide)).mpr hu,
      if_neg Bool.false_ne_true, hd, if_neg Bool.false_ne_true]
    rfl
  rw [writeDev, hcall, if_neg (not_not.mpr rfl), if_pos rfl]
  rfl

lemma readDev_eq (hu : InUserRange va len) (h0 : len ≠ 0) (hd : isIllegalDevPa pa len = false) :
    m.readDev va pa len = some (m.toUser va pa len) := by
  have hcall : m.u.sysReadDev va pa len = (0, (m.toUser va pa len).u) := by
    rw [UserKern.sysReadDev, (isIllegalVaRange_iff h0).mpr hu, if_neg Bool.false_ne_true, hd,
      if_neg Bool.false_ne_true]
    rfl
  rw [readDev, hcall, if_neg (not_not.mpr rfl)]
  rfl

/-! ## The registers -/

/-- A register holds the word that a local variable brought there. -/
lemma register_toDev_self (m : Ide) (va reg w : Word) :
    ((m.store va w).toDev va (devDiskAddress + reg) 4).register reg = w := by
  rw [register, toDev_dev, store_user]
  refine Eq.trans (wordOf_congr fun j hj => ?_) (wordOf_overlay m.u.dev (devDiskAddress + reg) w)
  have hg : overlay m.u.dev (devDiskAddress + reg)
      (bytesAt (overlay m.u.user va (wordByte w) 4) va) 4 =
        overlay m.u.dev (devDiskAddress + reg) (wordByte w) 4 :=
    overlay_congr fun j hj => overlay_add (by decide) hj
  exact congrFun hg _

/-- A register keeps its word when other bytes of the device are written. -/
lemma register_toDev (h : ∀ j < 4, len.toNat ≤
    (devDiskAddress + reg + BitVec.ofNat 32 j - pa).toNat) :
    (m.toDev va pa len).register reg = m.register reg :=
  wordOf_congr fun j hj => by
    rw [Nat.zero_add]
    exact bytesAt_overlay h hj

/-- The buffer is behind the registers. -/
lemma buffer_apart : ∀ j < 512, 4 ≤ (devDiskAddress + devDiskBuffer + BitVec.ofNat 32 j -
    (devDiskAddress + devDiskStatus)).toNat := by
  decide +kernel

lemma buffer_apart_start : ∀ j < 512, 4 ≤ (devDiskAddress + devDiskBuffer + BitVec.ofNat 32 j -
    (devDiskAddress + devDiskStartOperation)).toNat := by
  decide +kernel

/-- The device is told which operation, on which disk and where. -/
structure Started (m : Ide) (op id off : Word) : Prop where
  op_eq : m.register devDiskStartOperation = op
  id_eq : m.register devDiskId = id
  off_eq : m.register devDiskOffset = off

/-- A read that was started: the sector is in the buffer. -/
lemma operate_read {id off : Word} (h : m.Started devDiskOperationRead id off) :
    m.operate.disk = m.disk ∧ m.operate.u.user = m.u.user ∧
      m.operate.ops = m.ops ++ [(devDiskOperationRead, id, off)] ∧
      m.operate.register devDiskStatus = 1 ∧
      ∀ j < 512, bytesAt m.operate.u.dev (devDiskAddress + devDiskBuffer) j =
        bytesAt (m.disk id) off j := by
  unfold operate
  simp only [h.op_eq, h.id_eq, h.off_eq, if_true]
  exact ⟨rfl, rfl, rfl, wordOf_overlay _ _ 1, fun j hj =>
    (bytesAt_overlay buffer_apart hj).trans (overlay_add (by decide) hj)⟩

/-- A write that was started: the sector has the bytes of the buffer. -/
lemma operate_write {id off : Word} (h : m.Started devDiskOperationWrite id off) :
    m.operate.disk = Function.update m.disk id (overlay (m.disk id) off
        (bytesAt m.u.dev (devDiskAddress + devDiskBuffer)) 512) ∧
      m.operate.u.user = m.u.user ∧
      m.operate.ops = m.ops ++ [(devDiskOperationWrite, id, off)] ∧
      m.operate.register devDiskStatus = 1 := by
  have hne : devDiskOperationWrite ≠ devDiskOperationRead := by decide
  unfold operate
  simp only [h.op_eq, h.id_eq, h.off_eq, if_neg hne, if_true]
  exact ⟨rfl, rfl, rfl, wordOf_overlay _ _ 1⟩

/-! ## A round -/

/-- The bytes at `a` are not those of the local variables. -/
def OffLocals (l : Locals) (a : Word) : Prop :=
  4 ≤ (a - l.temp).toNat ∧ 4 ≤ (a - l.op).toNat ∧ 4 ≤ (a - l.re).toNat

variable {l : Locals} {diskno pos : Word}

/-- The number of the disk and the offset are set. -/
def program (m : Ide) (l : Locals) (diskno pos : Word) : Ide :=
  (((m.store l.temp diskno).toDev l.temp (devDiskAddress + devDiskId) 4).store l.temp pos).toDev
    l.temp (devDiskAddress + devDiskOffset) 4

lemma program_register (m : Ide) (l : Locals) (diskno pos : Word) :
    (m.program l diskno pos).register devDiskId = diskno ∧
      (m.program l diskno pos).register devDiskOffset = pos := by
  refine ⟨?_, register_toDev_self _ l.temp devDiskOffset pos⟩
  rw [program, register_toDev (by decide), store_register, register_toDev_self]

lemma program_user (ha : OffLocals l a) : (m.program l diskno pos).u.user a = m.u.user a :=
  (overlay_of_le ha.1).trans (overlay_of_le ha.1)

/-- An operation is started. -/
def start (m : Ide) (l : Locals) (op : Word) : Ide :=
  (m.store l.op op).toDev l.op (devDiskAddress + devDiskStartOperation) 4

lemma start_user {op : Word} (ha : OffLocals l a) : (m.start l op).u.user a = m.u.user a :=
  overlay_of_le ha.2.1

/-- The status is read into a local variable. -/
lemma toUser_re_user {pa : Word} (ha : OffLocals l a) :
    (m.toUser l.re pa 4).u.user a = m.u.user a :=
  overlay_of_le ha.2.2

lemma started_start {id off : Word} (hid : m.register devDiskId = id)
    (hoff : m.register devDiskOffset = off) (l : Locals) (op : Word) :
    (m.start l op).Started op id off :=
  ⟨register_toDev_self m l.op devDiskStartOperation op, (register_toDev (by decide)).trans hid,
    (register_toDev (by decide)).trans hoff⟩

lemma started_read (m : Ide) (l : Locals) (diskno pos : Word) :
    ((m.program l diskno pos).start l devDiskOperationRead).Started devDiskOperationRead diskno
      pos :=
  started_start (program_register m l diskno pos).1 (program_register m l diskno pos).2 l _

/-- The buffer is filled before the operation is started. -/
lemma started_write (m : Ide) (l : Locals) (diskno pos src : Word) :
    (((m.program l diskno pos).toDev src (devDiskAddress + devDiskBuffer) 512).start l
      devDiskOperationWrite).Started devDiskOperationWrite diskno pos :=
  started_start ((register_toDev (by decide)).trans (program_register m l diskno pos).1)
    ((register_toDev (by decide)).trans (program_register m l diskno pos).2) l _

/-- The status that is read after a successful operation. -/
lemma load_status (hs : m.register devDiskStatus = 1) (l : Locals) :
    (m.toUser l.re (devDiskAddress + devDiskStatus) 4).load l.re = 1 := by
  rw [load, toUser_user, ← hs]
  refine wordOf_congr fun j hj => ?_
  rw [Nat.zero_add]
  exact overlay_add (by decide) hj

/-- A round of `ide_read`, step by step. -/
lemma ideReadRound_eq {begin dst off : Word} (hbuf : InUserRange (dst + off) 512) :
    ideReadRound l diskno begin dst (off, m) = some (off + by2sect,
      (((m.program l diskno (begin + off)).start l devDiskOperationRead).operate.toUser l.re
        (devDiskAddress + devDiskStatus) 4).toUser (dst + off)
          (devDiskAddress + devDiskBuffer) 512) := by
  obtain ⟨-, -, -, hstatus, -⟩ := operate_read (started_read m l diskno (begin + off))
  have hload := load_status hstatus l
  unfold ideReadRound
  simp only [Option.bind_eq_bind]
  rw [writeDev_eq l.temp_range (by decide) (by decide) (by decide), Option.bind_some,
    writeDev_eq l.temp_range (by decide) (by decide) (by decide), Option.bind_some,
    writeDev_start l.op_range, Option.bind_some, readDev_eq l.re_range (by decide) (by decide),
    Option.bind_some]
  have hone : (1 : Word) ≠ 0 := by decide
  unfold start program at hload
  rw [hload, if_neg hone, readDev_eq hbuf (by decide) (by decide), Option.bind_some]
  rfl

/-- **A round of `ide_read`** copies the sector at the offset. -/
lemma exists_readRound (diskno begin : Word) {dst off : Word} (hbuf : InUserRange (dst + off) 512) :
    ∃ m', ideReadRound l diskno begin dst (off, m) = some (off + by2sect, m') ∧
      m'.disk = m.disk ∧ m'.ops = m.ops ++ [(devDiskOperationRead, diskno, begin + off)] ∧
      (∀ j < 512, bytesAt m'.u.user (dst + off) j = bytesAt (m.disk diskno) (begin + off) j) ∧
      ∀ a, OffLocals l a → 512 ≤ (a - (dst + off)).toNat → m'.u.user a = m.u.user a := by
  obtain ⟨hdisk, huser, hops, -, hdata⟩ := operate_read (started_read m l diskno (begin + off))
  refine ⟨_, ideReadRound_eq hbuf, hdisk, hops, fun j hj => ?_, fun a ha ha' => ?_⟩
  · exact (overlay_add (by decide) hj).trans (hdata j hj)
  · refine (overlay_of_le ha').trans ?_
    rw [toUser_re_user ha, huser, start_user ha, program_user ha]

/-- A round of `ide_write`, step by step. -/
lemma ideWriteRound_eq {begin src off : Word} (hbuf : InUserRange (src + off) 512) :
    ideWriteRound l diskno begin src (off, m) = some (off + by2sect,
      ((((m.program l diskno (begin + off)).toDev (src + off) (devDiskAddress + devDiskBuffer)
        512).start l devDiskOperationWrite).operate.toUser l.re
          (devDiskAddress + devDiskStatus) 4)) := by
  obtain ⟨-, -, -, hstatus⟩ :=
    operate_write (started_write m l diskno (begin + off) (src + off))
  have hload := load_status hstatus l
  unfold ideWriteRound
  simp only [Option.bind_eq_bind]
  rw [writeDev_eq l.temp_range (by decide) (by decide) (by decide), Option.bind_some,
    writeDev_eq l.temp_range (by decide) (by decide) (by decide), Option.bind_some,
    writeDev_eq hbuf (by decide) (by decide) (by decide), Option.bind_some,
    writeDev_start l.op_range, Option.bind_some, readDev_eq l.re_range (by decide) (by decide),
    Option.bind_some]
  have hone : (1 : Word) ≠ 0 := by decide
  unfold start program at hload
  rw [hload, if_neg hone]
  rfl

/-- **A round of `ide_write`** changes the sector at the offset. -/
lemma exists_writeRound (diskno begin : Word) {src off : Word} (hbuf : InUserRange (src + off) 512)
    (hout : ∀ j < 512, OffLocals l (src + off + BitVec.ofNat 32 j)) :
    ∃ m', ideWriteRound l diskno begin src (off, m) = some (off + by2sect, m') ∧
      m'.disk = Function.update m.disk diskno (overlay (m.disk diskno) (begin + off)
        (bytesAt m.u.user (src + off)) 512) ∧
      m'.ops = m.ops ++ [(devDiskOperationWrite, diskno, begin + off)] ∧
      ∀ a, OffLocals l a → m'.u.user a = m.u.user a := by
  obtain ⟨hdisk, huser, hops, -⟩ :=
    operate_write (started_write m l diskno (begin + off) (src + off))
  have hsector : overlay (m.disk diskno) (begin + off) (bytesAt (((m.program l diskno
      (begin + off)).toDev (src + off) (devDiskAddress + devDiskBuffer) 512).start l
        devDiskOperationWrite).u.dev (devDiskAddress + devDiskBuffer)) 512 =
      overlay (m.disk diskno) (begin + off) (bytesAt m.u.user (src + off)) 512 := by
    refine overlay_congr fun j hj => ?_
    refine (bytesAt_overlay buffer_apart_start hj).trans ?_
    exact (overlay_add (by decide) hj).trans (program_user (hout j hj))
  refine ⟨_, ideWriteRound_eq hbuf, ?_, hops, fun a ha => ?_⟩
  · rw [toUser_disk, hdisk]
    exact congrArg (Function.update m.disk diskno) hsector
  · rw [toUser_re_user ha, huser, start_user ha, toDev_user, program_user ha]

end Ide

/-! ## Whole transfers -/

/-- Sectors of a disk whose end has a 32-bit offset. -/
structure Sectors where
  diskno : Word
  secno : Word
  nsecs : Word
  fits : (secno.toNat + nsecs.toNat) * 512 < 2 ^ 32

/-- A buffer for the sectors in the memory of the program, apart from the local variables of the
driver. -/
structure Transfer (r : Sectors) where
  buf : Word
  locals : Ide.Locals
  buf_ge : utemp.toNat ≤ buf.toNat
  buf_le : buf.toNat + r.nsecs.toNat * 512 ≤ utop.toNat
  apart : ∀ x ∈ [locals.temp, locals.op, locals.re],
    x.toNat + 4 ≤ buf.toNat ∨ buf.toNat + r.nsecs.toNat * 512 ≤ x.toNat

namespace Sectors

variable {r : Sectors} {k : ℕ}

/-- The offset of the first sector. -/
def begin (r : Sectors) : Word := r.secno * by2sect

/-- The operations on the first `k` sectors. -/
def steps (r : Sectors) (op : Word) (k : ℕ) : List (Word × Word × Word) :=
  (List.range k).map fun i => (op, r.diskno, r.begin + BitVec.ofNat 32 (i * 512))

lemma begin_toNat (r : Sectors) : r.begin.toNat = r.secno.toNat * 512 := by
  have hf := r.fits
  have h512 : by2sect.toNat = 512 := rfl
  rw [begin, BitVec.toNat_mul, h512]
  omega

/-- The condition of both loops: there is a sector left. -/
lemma cond_iff (hk : k ≤ r.nsecs.toNat) :
    decide (r.secno * by2sect + BitVec.ofNat 32 (k * 512) <
      r.secno * by2sect + r.nsecs * by2sect) = true ↔ k < r.nsecs.toNat := by
  have hf := r.fits
  have h512 : by2sect.toNat = 512 := rfl
  rw [decide_eq_true_eq, BitVec.lt_def, BitVec.toNat_add, BitVec.toNat_add, BitVec.toNat_mul,
    BitVec.toNat_mul, BitVec.toNat_ofNat, h512]
  omega

lemma steps_succ (r : Sectors) (op : Word) (k : ℕ) :
    r.steps op (k + 1) = r.steps op k ++ [(op, r.diskno, r.begin + BitVec.ofNat 32 (k * 512))] := by
  rw [steps, List.range_succ, List.map_append]
  rfl

lemma ofNat_add_by2sect (k : ℕ) :
    BitVec.ofNat 32 (k * 512) + by2sect = BitVec.ofNat 32 ((k + 1) * 512) := by
  rw [Nat.succ_mul, BitVec.ofNat_add]
  rfl

end Sectors

namespace Transfer

open Ide Sectors

variable {r : Sectors} {t : Transfer r} {m m' : Ide} {k : ℕ}

/-- The places of the sectors in the buffer. -/
lemma buf_add_toNat (hk : k * 512 < r.nsecs.toNat * 512 + 512) :
    (t.buf + BitVec.ofNat 32 (k * 512)).toNat = t.buf.toNat + k * 512 := by
  have hle := t.buf_le
  rw [utop_toNat] at hle
  rw [BitVec.toNat_add, BitVec.toNat_ofNat]
  omega

lemma inUserRange_sector (hk : k < r.nsecs.toNat) :
    InUserRange (t.buf + BitVec.ofNat 32 (k * 512)) 512 := by
  have hge := t.buf_ge
  have hle := t.buf_le
  have h512 : (512 : Word).toNat = 512 := rfl
  rw [InUserRange, buf_add_toNat (by omega), h512]
  omega

/-- The local variables are outside of the buffer. -/
lemma offLocals_buf {j : ℕ} (hj : j < r.nsecs.toNat * 512) :
    OffLocals t.locals (t.buf + BitVec.ofNat 32 j) := by
  have hle := t.buf_le
  rw [utop_toNat] at hle
  have hout : ∀ x ∈ [t.locals.temp, t.locals.op, t.locals.re], x.toNat + 4 ≤ 2 ^ 32 →
      4 ≤ (t.buf + BitVec.ofNat 32 j - x).toNat := by
    intro x hx hx'
    have ha := t.apart x hx
    rw [BitVec.toNat_sub, BitVec.toNat_add, BitVec.toNat_ofNat]
    omega
  have hlt : ∀ x : Word, InUserRange x 4 → x.toNat + 4 ≤ 2 ^ 32 := by
    intro x hx
    have h := hx.2
    have h4 : (4 : Word).toNat = 4 := rfl
    rw [utop_toNat, h4] at h
    omega
  exact ⟨hout _ (by simp) (hlt _ t.locals.temp_range), hout _ (by simp) (hlt _ t.locals.op_range),
    hout _ (by simp) (hlt _ t.locals.re_range)⟩

/-- `ide_write` after `k` sectors. -/
structure Written (t : Transfer r) (m : Ide) (k : ℕ) (s : Word × Ide) : Prop where
  le : k ≤ r.nsecs.toNat
  off : s.1 = BitVec.ofNat 32 (k * 512)
  disk : s.2.disk = Function.update m.disk r.diskno
    (overlay (m.disk r.diskno) r.begin (bytesAt m.u.user t.buf) (k * 512))
  ops : s.2.ops = m.ops ++ r.steps devDiskOperationWrite k
  user : ∀ a, OffLocals t.locals a → s.2.u.user a = m.u.user a

/-- A round of `ide_write` writes the next sector. -/
lemma Written.round {s : Word × Ide} (h : t.Written m k s) (hk : k < r.nsecs.toNat) :
    ∃ s', ideWriteRound t.locals r.diskno r.begin t.buf s = some s' ∧ t.Written m (k + 1) s' := by
  have hlt : ∀ j < 512, k * 512 + j < r.nsecs.toNat * 512 := fun j hj => by omega
  obtain ⟨off, m₁⟩ := s
  obtain ⟨hle, rfl, hdisk, hops, huser⟩ := h
  have hf := r.fits
  have hplace : ∀ j, t.buf + BitVec.ofNat 32 (k * 512) + BitVec.ofNat 32 j =
      t.buf + BitVec.ofNat 32 (k * 512 + j) := fun j => by
    rw [BitVec.add_assoc, BitVec.ofNat_add]
  have hout : ∀ j < 512, OffLocals t.locals (t.buf + BitVec.ofNat 32 (k * 512 + j)) :=
    fun j hj => offLocals_buf (hlt j hj)
  have hout' : ∀ j < 512, OffLocals t.locals
      (t.buf + BitVec.ofNat 32 (k * 512) + BitVec.ofNat 32 j) := by
    intro j hj
    rw [hplace]
    exact hout j hj
  obtain ⟨m₂, hm₂, hdisk', hops', huser'⟩ := exists_writeRound (m := m₁) r.diskno r.begin
    (inUserRange_sector hk) hout'
  refine ⟨_, hm₂, hk, ofNat_add_by2sect k, ?_, ?_, fun a ha => (huser' a ha).trans (huser a ha)⟩
  · simp only at hdisk hdisk' ⊢
    rw [hdisk', hdisk, Function.update_idem, Function.update_self]
    congr 1
    have hbytes : overlay (overlay (m.disk r.diskno) r.begin (bytesAt m.u.user t.buf) (k * 512))
        (r.begin + BitVec.ofNat 32 (k * 512))
        (bytesAt m₁.u.user (t.buf + BitVec.ofNat 32 (k * 512))) 512 =
        overlay (overlay (m.disk r.diskno) r.begin (bytesAt m.u.user t.buf) (k * 512))
          (r.begin + BitVec.ofNat 32 (k * 512)) (fun j => bytesAt m.u.user t.buf (k * 512 + j))
          512 := by
      refine overlay_congr fun j hj => ?_
      rw [bytesAt, hplace]
      exact huser _ (hout j hj)
    rw [hbytes, overlay_overlay (by omega), Nat.succ_mul]
  · simp only at hops hops' ⊢
    rw [hops', hops, List.append_assoc, ← steps_succ]

/-- **`ide_write`** runs once for each sector; it changes these sectors of the disk and nothing
else, but for its local variables. -/
theorem exists_write (t : Transfer r) (m : Ide) : ∃ m',
    Ide.ideWrite (r.nsecs.toNat + 1) t.locals r.diskno r.secno t.buf r.nsecs m = some m' ∧
      m'.disk = Function.update m.disk r.diskno
        (overlay (m.disk r.diskno) r.begin (bytesAt m.u.user t.buf) (r.nsecs.toNat * 512)) ∧
      m'.ops = m.ops ++ r.steps devDiskOperationWrite r.nsecs.toNat ∧
      ∀ a, OffLocals t.locals a → m'.u.user a = m.u.user a := by
  have hstart : t.Written m 0 (0, m) := by
    refine ⟨Nat.zero_le _, rfl, ?_, (List.append_nil _).symm, fun _ _ => rfl⟩
    rw [Nat.zero_mul, overlay_zero, Function.update_eq_self]
  obtain ⟨k, s, hrun, -, -, hs, hc⟩ := exists_runM (n := r.nsecs.toNat)
    (c := fun s => decide (r.secno * by2sect + s.1 < r.secno * by2sect + r.nsecs * by2sect))
    (f := ideWriteRound t.locals r.diskno r.begin t.buf) (I := t.Written m)
    (fun k s hs hc => by
      rw [hs.off] at hc
      have hk := (cond_iff hs.le).mp hc
      obtain ⟨s', hs', hw⟩ := hs.round hk
      exact ⟨k + 1, s', by omega, hk, hs', hw⟩)
    hstart (Nat.zero_le _) (by omega : r.nsecs.toNat < 0 + (r.nsecs.toNat + 1))
  have hk : k = r.nsecs.toNat := by
    by_contra hne
    have hle := hs.le
    have htrue := (cond_iff hs.le).mpr (by omega)
    rw [hs.off, htrue] at hc
    cases hc
  subst hk
  refine ⟨s.2, ?_, hs.disk, hs.ops, hs.user⟩
  unfold Ide.ideWrite
  exact congrArg (Option.map Prod.snd) hrun

/-- `ide_read` after `k` sectors. -/
structure Copied (t : Transfer r) (m : Ide) (k : ℕ) (s : Word × Ide) : Prop where
  le : k ≤ r.nsecs.toNat
  off : s.1 = BitVec.ofNat 32 (k * 512)
  disk : s.2.disk = m.disk
  ops : s.2.ops = m.ops ++ r.steps devDiskOperationRead k
  data : ∀ j < k * 512, bytesAt s.2.u.user t.buf j = bytesAt (m.disk r.diskno) r.begin j

/-- A round of `ide_read` copies the next sector. -/
lemma Copied.round {s : Word × Ide} (h : t.Copied m k s) (hk : k < r.nsecs.toNat) :
    ∃ s', ideReadRound t.locals r.diskno r.begin t.buf s = some s' ∧ t.Copied m (k + 1) s' := by
  have hlt : ∀ j < k * 512, j < r.nsecs.toNat * 512 := fun j hj =>
    hj.trans_le (Nat.mul_le_mul_right 512 hk.le)
  have hbuf := t.buf_le
  rw [utop_toNat] at hbuf
  have hbefore : ∀ j < k * 512, 512 ≤
      (t.buf + BitVec.ofNat 32 j - (t.buf + BitVec.ofNat 32 (k * 512))).toNat := by
    intro j hj
    rw [BitVec.toNat_sub, BitVec.toNat_add, BitVec.toNat_add, BitVec.toNat_ofNat,
      BitVec.toNat_ofNat]
    omega
  obtain ⟨off, m₁⟩ := s
  obtain ⟨hle, rfl, hdisk, hops, hdata⟩ := h
  obtain ⟨m₂, hm₂, hdisk', hops', hdata', huser'⟩ := exists_readRound (m := m₁) r.diskno r.begin
    (inUserRange_sector hk)
  simp only at hdisk hops hdata
  refine ⟨_, hm₂, hk, ofNat_add_by2sect k, hdisk'.trans hdisk, ?_, fun j hj => ?_⟩
  · simp only
    rw [hops', hops, List.append_assoc, ← steps_succ]
  · by_cases hjk : j < k * 512
    · exact (huser' _ (offLocals_buf (hlt j hjk)) (hbefore j hjk)).trans (hdata j hjk)
    · obtain ⟨i, rfl⟩ := Nat.exists_eq_add_of_le (not_lt.mp hjk)
      have hi : i < 512 := by
        rw [Nat.succ_mul] at hj
        exact Nat.lt_of_add_lt_add_left hj
      have hsector := hdata' i hi
      rw [hdisk] at hsector
      unfold bytesAt at hsector ⊢
      rw [BitVec.ofNat_add, ← BitVec.add_assoc, ← BitVec.add_assoc]
      exact hsector

/-- **`ide_read`** runs once for each sector, and copies it to the buffer. -/
theorem exists_read (t : Transfer r) (m : Ide) : ∃ m',
    Ide.ideRead (r.nsecs.toNat + 1) t.locals r.diskno r.secno t.buf r.nsecs m = some m' ∧
      m'.disk = m.disk ∧ m'.ops = m.ops ++ r.steps devDiskOperationRead r.nsecs.toNat ∧
      ∀ j < r.nsecs.toNat * 512,
        bytesAt m'.u.user t.buf j = bytesAt (m.disk r.diskno) r.begin j := by
  have hstart : t.Copied m 0 (0, m) := by
    refine ⟨Nat.zero_le _, rfl, rfl, (List.append_nil _).symm, fun j hj => ?_⟩
    rw [Nat.zero_mul] at hj
    exact absurd hj (Nat.not_lt_zero j)
  obtain ⟨k, s, hrun, -, -, hs, hc⟩ := exists_runM (n := r.nsecs.toNat)
    (c := fun s => decide (r.secno * by2sect + s.1 < r.secno * by2sect + r.nsecs * by2sect))
    (f := ideReadRound t.locals r.diskno r.begin t.buf) (I := t.Copied m)
    (fun k s hs hc => by
      rw [hs.off] at hc
      have hk := (cond_iff hs.le).mp hc
      obtain ⟨s', hs', hw⟩ := hs.round hk
      exact ⟨k + 1, s', by omega, hk, hs', hw⟩)
    hstart (Nat.zero_le _) (by omega : r.nsecs.toNat < 0 + (r.nsecs.toNat + 1))
  have hk : k = r.nsecs.toNat := by
    by_contra hne
    have hle := hs.le
    have htrue := (cond_iff hs.le).mpr (by omega)
    rw [hs.off, htrue] at hc
    cases hc
  subst hk
  refine ⟨s.2, ?_, hs.disk, hs.ops, hs.data⟩
  unfold Ide.ideRead
  exact congrArg (Option.map Prod.snd) hrun

end Transfer

/-- **Disk transfers round-trip**: for all sectors with 32-bit offsets and all buffers, a write and a
read of the same sectors run once for each of them, the bytes come back, and all other bytes of all
disks stay. -/
theorem ide_write_read {r : Sectors} (src dst : Transfer r) (m : Ide) : ∃ m₁ m₂,
    Ide.ideWrite (r.nsecs.toNat + 1) src.locals r.diskno r.secno src.buf r.nsecs m = some m₁ ∧
    Ide.ideRead (r.nsecs.toNat + 1) dst.locals r.diskno r.secno dst.buf r.nsecs m₁ = some m₂ ∧
    (∀ j < r.nsecs.toNat * 512, m₂.u.user (dst.buf + BitVec.ofNat 32 j) =
      m.u.user (src.buf + BitVec.ofNat 32 j)) ∧
    (∀ d a, d ≠ r.diskno ∨ a.toNat < r.secno.toNat * 512 ∨
      (r.secno.toNat + r.nsecs.toNat) * 512 ≤ a.toNat → m₂.disk d a = m.disk d a) ∧
    m₁.ops = m.ops ++ r.steps devDiskOperationWrite r.nsecs.toNat ∧
    m₂.ops = m₁.ops ++ r.steps devDiskOperationRead r.nsecs.toNat := by
  obtain ⟨m₁, hm₁, hdisk, hops, -⟩ := src.exists_write m
  obtain ⟨m₂, hm₂, hdisk₂, hops₂, hdata⟩ := dst.exists_read m₁
  have hf := r.fits
  have hb := r.begin_toNat
  refine ⟨m₁, m₂, hm₁, hm₂, fun j hj => ?_, fun d a hda => ?_, hops, hops₂⟩
  · refine (hdata j hj).trans ?_
    rw [hdisk, Function.update_self]
    exact overlay_add (by omega) hj
  · rw [hdisk₂, hdisk]
    by_cases hd : d = r.diskno
    · subst hd
      rw [Function.update_self]
      refine overlay_of_le ?_
      rw [BitVec.toNat_sub, hb]
      have ha := a.isLt
      have hda' := hda.resolve_left (not_not.mpr rfl)
      omega
    · rw [Function.update_of_ne hd]

/-- The driver's variables on the stack. -/
def stackLocals : Ide.Locals :=
  ⟨0x7F3FDF00, 0x7F3FDF04, 0x7F3FDF08, by decide, by decide, by decide⟩

/-- Two sectors of the first disk, behind the boot block. -/
def twoSectors : Sectors := ⟨0, 8, 2, by decide⟩

/-- Between two buffers of a program whose memory is full of one character. -/
theorem ide_write_read_two : ∃ m₁ m₂,
    Ide.ideWrite 3 stackLocals 0 8 0x400000 2 ⟨{ clearUser with user := fun _ => 0x61 },
      fun _ _ => 0, []⟩ = some m₁ ∧
    Ide.ideRead 3 stackLocals 0 8 0x500000 2 m₁ = some m₂ ∧
    ∀ j < 1024, m₂.u.user (0x500000 + BitVec.ofNat 32 j) = 0x61 := by
  obtain ⟨m₁, m₂, h₁, h₂, hdata, -⟩ := ide_write_read (r := twoSectors)
    ⟨0x400000, stackLocals, by decide, by decide, by simp [stackLocals, twoSectors]⟩
    ⟨0x500000, stackLocals, by decide, by decide, by simp [stackLocals, twoSectors]⟩
    ⟨{ clearUser with user := fun _ => 0x61 }, fun _ _ => 0, []⟩
  exact ⟨m₁, m₂, h₁, h₂, hdata⟩

/-! ## Blocks -/

/-- The disk has the blocks of the cache's disk, with `BY2BLK` bytes each, as far as their offsets
have 32 bits. -/
def Ide.HasBlocks (m : Ide) (s : BlockCache) : Prop :=
  ∀ q j, (q + 1) * 4096 < 2 ^ 32 → j < 1024 →
    wordOf (bytesAt (m.disk 0) (BitVec.ofNat 32 (q * 4096))) (4 * j) = s.disk q j

/-- The sectors of a block. -/
def blockSectors (b : ℕ) (hb : (b + 1) * 4096 < 2 ^ 32) : Sectors where
  diskno := 0
  secno := BitVec.ofNat 32 (b * 8)
  nsecs := 8
  fits := by
    rw [BitVec.toNat_ofNat, show (8 : Word).toNat = 8 from rfl, Nat.mod_eq_of_lt (by omega)]
    calc (b * 8 + 8) * 512 = (b + 1) * (8 * 512) := by rw [← Nat.mul_assoc, Nat.add_one_mul b 8]
      _ < 2 ^ 32 := hb

variable {b : ℕ} {hb : (b + 1) * 4096 < 2 ^ 32} {s : BlockCache}

lemma begin_blockSectors : (blockSectors b hb).begin = BitVec.ofNat 32 (b * 4096) := by
  apply BitVec.eq_of_toNat_eq
  have hsec : (blockSectors b hb).secno.toNat = b * 8 := by
    rw [blockSectors, BitVec.toNat_ofNat]
    omega
  rw [Sectors.begin_toNat, hsec, BitVec.toNat_ofNat]
  omega

lemma bytes_blockSectors : (blockSectors b hb).nsecs.toNat * 512 = 4096 := by
  rw [show (blockSectors b hb).nsecs.toNat = 8 from rfl]

/-- A byte of another block is behind the end of the block. -/
lemma block_apart {q k : ℕ} (hb : (b + 1) * 4096 < 2 ^ 32) (hq : (q + 1) * 4096 < 2 ^ 32)
    (hne : q ≠ b) (hk : k < 4096) :
    4096 ≤ (BitVec.ofNat 32 (q * 4096) + BitVec.ofNat 32 k - BitVec.ofNat 32 (b * 4096)).toNat := by
  rw [BitVec.toNat_sub, BitVec.toNat_add, BitVec.toNat_ofNat, BitVec.toNat_ofNat,
    BitVec.toNat_ofNat]
  omega

/-- `ide_write` of a block. -/
lemma exists_write_bytes (t : Transfer (blockSectors b hb)) (m : Ide) : ∃ m',
    Ide.ideWrite 9 t.locals 0 (BitVec.ofNat 32 (b * 8)) t.buf 8 m = some m' ∧
      m'.disk 0 = overlay (m.disk 0) (BitVec.ofNat 32 (b * 4096)) (bytesAt m.u.user t.buf) 4096 := by
  obtain ⟨m', hm', hdisk, -⟩ := t.exists_write m
  refine ⟨m', hm', ?_⟩
  rw [hdisk, begin_blockSectors, bytes_blockSectors]
  exact Function.update_self _ _ _

/-- `ide_read` of a block. -/
lemma exists_read_bytes (t : Transfer (blockSectors b hb)) (m : Ide) : ∃ m',
    Ide.ideRead 9 t.locals 0 (BitVec.ofNat 32 (b * 8)) t.buf 8 m = some m' ∧ m'.disk = m.disk ∧
      ∀ j < 4096, bytesAt m'.u.user t.buf j =
        bytesAt (m.disk 0) (BitVec.ofNat 32 (b * 4096)) j := by
  obtain ⟨m', hm', hdisk, -, hdata⟩ := t.exists_read m
  rw [begin_blockSectors, bytes_blockSectors] at hdata
  exact ⟨m', hm', hdisk, hdata⟩

/-- **`ide_write` of a block** is the write of the block cache. -/
theorem exists_write_block (t : Transfer (blockSectors b hb)) (hm : m.HasBlocks s)
    (hmem : ∀ j < 1024, wordOf (bytesAt m.u.user t.buf) (4 * j) = s.mem b j) : ∃ m',
      Ide.ideWrite 9 t.locals 0 (BitVec.ofNat 32 (b * 8)) t.buf 8 m = some m' ∧
        m'.HasBlocks (ideWrite s b) := by
  obtain ⟨m', hm', hdisk⟩ := exists_write_bytes t m
  refine ⟨m', hm', fun q j hq hj => ?_⟩
  rw [hdisk]
  by_cases hqb : q = b
  · subst hqb
    have hword : (ideWrite s q).disk q j = s.mem q j := if_pos rfl
    rw [hword, ← hmem j hj]
    exact wordOf_congr fun i hi => overlay_add (by decide) (by omega)
  · have hword : (ideWrite s b).disk q j = s.disk q j := if_neg hqb
    rw [hword, ← hm q j hq hj]
    exact wordOf_congr fun i hi => overlay_of_le (block_apart hb hq hqb (by omega))

/-- **`ide_read` of a block** is the read of the block cache. -/
theorem exists_read_block (t : Transfer (blockSectors b hb)) (hm : m.HasBlocks s) : ∃ m',
    Ide.ideRead 9 t.locals 0 (BitVec.ofNat 32 (b * 8)) t.buf 8 m = some m' ∧
      m'.HasBlocks (ideRead s b) ∧
      ∀ j < 1024, wordOf (bytesAt m'.u.user t.buf) (4 * j) = (ideRead s b).mem b j := by
  obtain ⟨m', hm', hdisk, hdata⟩ := exists_read_bytes t m
  refine ⟨m', hm', fun q j hq hj => ?_, fun j hj => ?_⟩
  · rw [hdisk]
    exact hm q j hq hj
  · have hword : (ideRead s b).mem b j = s.disk b j := if_pos rfl
    rw [hword, ← hm b j hb hj]
    exact wordOf_congr fun i hi => hdata (4 * j + i) (by omega)

/-! ## Runs of the driver -/

/-- What a client of the driver does: it stores in its memory, and writes and reads blocks. -/
inductive BlockEvent
  | stores (user : Word → BitVec 8)
  | writes (b : ℕ) (hb : (b + 1) * 4096 < 2 ^ 32) (t : Transfer (blockSectors b hb))
  | reads (b : ℕ) (hb : (b + 1) * 4096 < 2 ^ 32) (t : Transfer (blockSectors b hb))

/-- One event. -/
def Ide.runEvent (m : Ide) : BlockEvent → Option Ide
  | .stores user => some { m with u := { m.u with user := user } }
  | .writes b _ t => Ide.ideWrite 9 t.locals 0 (BitVec.ofNat 32 (b * 8)) t.buf 8 m
  | .reads b _ t => Ide.ideRead 9 t.locals 0 (BitVec.ofNat 32 (b * 8)) t.buf 8 m

/-- What block `q` holds after an event. -/
def Ide.blockAfter (m : Ide) (q : ℕ) (bytes : ℕ → BitVec 8) : BlockEvent → ℕ → BitVec 8
  | .writes b _ t => if b = q then bytesAt m.u.user t.buf else bytes
  | .stores _ | .reads _ _ _ => bytes

/-- What block `q` holds after a run: what was in the buffer at the last write of it. -/
def lastWritten (q : ℕ) : List BlockEvent → Ide → (ℕ → BitVec 8) → ℕ → BitVec 8
  | [], _, bytes => bytes
  | e :: events, m, bytes => lastWritten q events ((m.runEvent e).getD m) (m.blockAfter q bytes e)

/-- **The driver as a store of blocks.** In every run of stores, writes and reads every transfer
returns, and a read behind it gets what was last written to the block, or what it held at first. -/
theorem driver_run (events : List BlockEvent) (m : Ide) : ∃ m', events.foldlM Ide.runEvent m = some m' ∧
    ∀ b hb, ∀ t : Transfer (blockSectors b hb), ∃ m'', m'.runEvent (.reads b hb t) = some m'' ∧
      ∀ j < 4096, bytesAt m''.u.user t.buf j =
        lastWritten b events m (bytesAt (m.disk 0) (BitVec.ofNat 32 (b * 4096))) j := by
  suffices h : ∃ m', events.foldlM Ide.runEvent m = some m' ∧ ∀ b bytes, (b + 1) * 4096 < 2 ^ 32 →
      (∀ j < 4096, bytesAt (m.disk 0) (BitVec.ofNat 32 (b * 4096)) j = bytes j) →
        ∀ j < 4096, bytesAt (m'.disk 0) (BitVec.ofNat 32 (b * 4096)) j = lastWritten b events m bytes j by
    obtain ⟨m', hrun, hdisk⟩ := h
    refine ⟨m', hrun, fun b hb t => ?_⟩
    obtain ⟨m'', hm'', -, hdata⟩ := exists_read_bytes t m'
    exact ⟨m'', hm'', fun j hj => (hdata j hj).trans (hdisk b _ hb (fun _ _ => rfl) j hj)⟩
  induction events generalizing m with
  | nil => exact ⟨m, rfl, fun b bytes hb h => h⟩
  | cons e events ih =>
    cases e with
    | stores user => exact ih { m with u := { m.u with user := user } }
    | writes b hb t =>
      obtain ⟨m1, hm1, hdisk⟩ := exists_write_bytes t m
      obtain ⟨m', hrun, hafter⟩ := ih m1
      have hstep : m.runEvent (.writes b hb t) = some m1 := hm1
      refine ⟨m', by rw [List.foldlM_cons, hstep]; exact hrun, fun q bytes hq h => ?_⟩
      rw [lastWritten, hstep]
      apply hafter q _ hq
      intro j hj
      rw [hdisk, Ide.blockAfter]
      split_ifs with hbq
      · subst hbq
        exact overlay_add (by decide) hj
      · exact (overlay_of_le (block_apart hb hq (Ne.symm hbq) hj)).trans (h j hj)
    | reads b hb t =>
      obtain ⟨m1, hm1, hdisk, -⟩ := exists_read_bytes t m
      obtain ⟨m', hrun, hafter⟩ := ih m1
      have hstep : m.runEvent (.reads b hb t) = some m1 := hm1
      refine ⟨m', by rw [List.foldlM_cons, hstep]; exact hrun, fun q bytes hq h => ?_⟩
      rw [lastWritten, hstep]
      apply hafter q _ hq
      rwa [hdisk]

end MosVolca
