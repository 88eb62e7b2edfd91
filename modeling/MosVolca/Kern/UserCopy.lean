import MosVolca.Kern.Syscall
import MosVolca.Library.ByteLoop

/-!
# System calls that take pointers

The system calls of `kern/syscall_all.c` that read or write user memory through a pointer, with the
kernel data that only they use: the table `vars`, the console and the devices. The state records
the user-side addresses that the kernel touches.

The table `vars` is an array of bytes, so that a string that is too long for its field runs on
into the next one as it does in the source. The kernel data is kept apart from the user bytes: what
a call does after it has touched an address outside user space is not described.

## Main definitions

* `MosVolca.UserKern` — the kernel with the user memory, and the addresses touched so far.
* `MosVolca.PtrCall`, `MosVolca.PtrCall.run` — the calls, and what they do.
-/

namespace MosVolca

open ByteLoop

/-- The state that the calls work on. -/
structure UserKern where
  kern : Kern
  /-- The bytes that the current environment sees at each address. -/
  user : Word → BitVec 8
  /-- The bytes from `vars` on. -/
  vars : ℕ → BitVec 8
  /-- What has been printed on the console. -/
  console : List (BitVec 8)
  /-- The bytes of the devices, at their physical addresses. -/
  dev : Word → BitVec 8
  /-- The user-side addresses that the kernel has touched. -/
  touched : List Word

/-! ## Strings and memory -/

/-- The bytes from `va` on. -/
def bytesAt (user : Word → BitVec 8) (va : Word) (i : ℕ) : BitVec 8 := user (va + BitVec.ofNat 32 i)

/-- The number of bytes that `strcpy` copies: up to the null byte, and that byte. -/
def strExtent (s : ℕ → BitVec 8) : ℕ := extent 32 fun i => s i == 0

/-- The loop of `strcmp` ends at the null byte of `p`, or where the strings differ. -/
def strcmpStop (p q : ℕ → BitVec 8) (i : ℕ) : Bool := p i == 0 || p i != q i

/-- The number of bytes of `q` that `strcmp(p, q)` reads. -/
def strcmpExtent (p q : ℕ → BitVec 8) : ℕ := extent 32 (strcmpStop p q)

/-- `strcmp(p, q) == 0`. -/
def strcmpEq (p q : ℕ → BitVec 8) : Bool := p (strcmpExtent p q - 1) == q (strcmpExtent p q - 1)

/-- The bytes of a word, the least significant one first. -/
def wordByte (w : Word) (i : ℕ) : BitVec 8 := (w >>> (8 * i)).setWidth 8

/-- The word made of four bytes. -/
def wordOf (s : ℕ → BitVec 8) (off : ℕ) : Word := s (off + 3) ++ s (off + 2) ++ s (off + 1) ++ s off

lemma wordByte_getLsbD (w : Word) (j : ℕ) {i : ℕ} (hi : i < 8) :
    (wordByte w j).getLsbD i = w.getLsbD (8 * j + i) := by
  rw [wordByte, BitVec.getLsbD_setWidth, BitVec.getLsbD_ushiftRight]
  simp [hi]

/-- The word made of the bytes of a word. -/
lemma wordOf_eq {s : ℕ → BitVec 8} {w : Word} {off : ℕ} (h : ∀ j < 4, s (off + j) = wordByte w j) :
    wordOf s off = w := by
  have h0 : s off = wordByte w 0 := h 0 (by omega)
  apply BitVec.eq_of_getLsbD_eq
  intro i hi
  rw [wordOf, h 3 (by omega), h 2 (by omega), h 1 (by omega), h0, BitVec.getLsbD_append,
    BitVec.getLsbD_append, BitVec.getLsbD_append]
  by_cases h1 : i < 8
  · rw [if_pos h1, wordByte_getLsbD w 0 h1, Nat.mul_zero, Nat.zero_add]
  rw [if_neg h1]
  by_cases h2 : i - 8 < 8
  · rw [if_pos h2, wordByte_getLsbD w 1 h2]
    congr 1
    omega
  rw [if_neg h2]
  by_cases h3 : i - 8 - 8 < 8
  · rw [if_pos h3, wordByte_getLsbD w 2 h3]
    congr 1
    omega
  rw [if_neg h3, wordByte_getLsbD w 3 (by omega)]
  congr 1
  omega

namespace UserKern

/-- The kernel touches `n` bytes from `va` on. -/
def touch (u : UserKern) (va : Word) (n : ℕ) : UserKern :=
  { u with touched := u.touched ++ addrs va n }

/-- `n` bytes are copied to `va`. -/
def copyOut (u : UserKern) (va : Word) (n : ℕ) (src : ℕ → BitVec 8) : UserKern :=
  { u with user := fun a => if (a - va).toNat < n then src (a - va).toNat else u.user a }.touch va n

/-- `strcpy` to the user address `va`. -/
def strcpyOut (u : UserKern) (va : Word) (src : ℕ → BitVec 8) : UserKern :=
  u.copyOut va (strExtent src) src

/-- `n` bytes are written at offset `off` of `vars`. -/
def putVars (u : UserKern) (off n : ℕ) (src : ℕ → BitVec 8) : UserKern :=
  { u with vars := fun a => if off ≤ a ∧ a < off + n then src (a - off) else u.vars a }

/-- `strcpy` from the user address `va` to offset `off` of `vars`. -/
def strcpyVars (u : UserKern) (off : ℕ) (va : Word) : UserKern :=
  let n := strExtent (bytesAt u.user va)
  (u.putVars off n (bytesAt u.user va)).touch va n

/-- `strcpy(e->env_path, va)`. -/
def strcpyPath (u : UserKern) (e : EnvPtr) (va : Word) : UserKern :=
  { u with
    kern := u.kern.setEnv e fun x => { x with path := strcpy x.path (bytesAt u.user va) } }.touch va
    (strExtent (bytesAt u.user va))

end UserKern

/-! ## Checked pointers -/

/-- `is_illegal_va_range`. -/
def isIllegalVaRange (va len : Word) : Bool :=
  if len = 0 then false else va + len < va || va < utemp || va + len > utop

/-- `is_illegal_dev_pa`: outside the console, the disk and the clock. -/
def isIllegalDevPa (pa len : Word) : Bool :=
  !((0x10000000#32 ≤ pa && pa + len - 1 < 0x10000020#32) ||
    (0x13000000#32 ≤ pa && pa + len - 1 < 0x13004200#32) ||
    (0x15000000#32 ≤ pa && pa + len - 1 < 0x15000200#32))

/-- `sizeof(struct Trapframe)`. -/
def sizeofTrapframe : Word := 152

/-- The `struct Trapframe` at `va`. -/
def readTrapframe (user : Word → BitVec 8) (va : Word) : Trapframe where
  regs i := wordOf (bytesAt user va) (4 * i)
  cp0Status := wordOf (bytesAt user va) 128
  hi := wordOf (bytesAt user va) 132
  lo := wordOf (bytesAt user va) 136
  cp0Badvaddr := wordOf (bytesAt user va) 140
  cp0Cause := wordOf (bytesAt user va) 144
  cp0Epc := wordOf (bytesAt user va) 148

/-- The last step of `sys_set_trapframe`: the frame of the current environment is the one below
`KSTACKTOP`, and its `$v0` is returned because the return value replaces it. -/
def setTrapframe (k : Kern) (e : EnvPtr) (tf : Trapframe) : Word × Kern :=
  if k.curenv = some e then (tf.regs 2, { k with ktf := tf })
  else (0, k.setEnv e fun x => { x with tf := tf })

namespace UserKern

variable (u : UserKern)

/-- `sys_print_cons`. -/
def sysPrintCons (s num : Word) : Word × UserKern :=
  if s + num > utop ∨ s ≥ utop ∨ s > s + num then (-eInval, u)
  else
    (0, { u with
      console := u.console ++ (List.range num.toNat).map (bytesAt u.user s) }.touch s num.toNat)

/-- `sys_set_trapframe`. -/
def sysSetTrapframe (envid tf : Word) : Kernel (Word × UserKern) :=
  if isIllegalVaRange tf sizeofTrapframe then pure (-eInval, u)
  else do
    match ← envid2env u.kern envid true with
    | .error r => pure (r, u)
    | .ok p =>
      let e ← deref p
      let (r, k) := setTrapframe u.kern e (readTrapframe u.user tf)
      pure (r, { u with kern := k }.touch tf sizeofTrapframe.toNat)

/-- `sys_write_dev`. -/
def sysWriteDev (va pa len : Word) : Word × UserKern :=
  if isIllegalVaRange va len then (-eInval, u)
  else if isIllegalDevPa pa len then (-eInval, u)
  else
    (0, { u with
      dev := fun a =>
        if (a - pa).toNat < len.toNat then bytesAt u.user va (a - pa).toNat else u.dev a }.touch va
      len.toNat)

/-- `sys_read_dev`. -/
def sysReadDev (va pa len : Word) : Word × UserKern :=
  if isIllegalVaRange va len then (-eInval, u)
  else if isIllegalDevPa pa len then (-eInval, u)
  else (0, u.copyOut va len.toNat (bytesAt u.dev pa))

/-! ## Paths -/

/-- `sys_get_env_path`. -/
def sysGetEnvPath (envid envPath : Word) : Kernel (Word × UserKern) := do
  match ← envid2env u.kern envid true with
  | .error r => pure (r, u)
  | .ok p =>
    let e ← deref p
    pure (0, u.strcpyOut envPath (u.kern.envs e).path)

/-- The loop of `sys_change_dir` over the ancestors of `parent`: it ends at an environment without
a parent or with an error. The parents of 1024 environments lie on a cycle, so that a loop that has
not ended after so many rounds does not end. -/
def changeDirLoop (envPath : Word) :
    ℕ → EnvPtr → UserKern → Kernel (Option (Except Word Unit) × UserKern)
  | 0, _, u => pure (none, u)
  | fuel + 1, parent, u =>
    if (u.kern.envs parent).parentId = 0 then pure (some (.ok ()), u)
    else do
      match ← envid2env u.kern (u.kern.envs parent).parentId false with
      | .error r => pure (some (.error r), u)
      | .ok p =>
        let parent ← deref p
        changeDirLoop envPath fuel parent (u.strcpyPath parent envPath)

/-- `sys_change_dir`: `none` if it does not return. -/
def sysChangeDir (envPath changeParent : Word) : Kernel (Option Word × UserKern) := do
  let cur ← deref u.kern.curenv
  if changeParent = 1 then
    match ← changeDirLoop envPath nenv cur u with
    | (none, u) => pure (none, u)
    | (some (.error r), u) => pure (some r, u)
    | (some (.ok ()), u) => pure (some 0, u.strcpyPath cur envPath)
  else pure (some 0, u.strcpyPath cur envPath)

/-! ## Variables -/

/-- `sizeof(struct Var)`, and the offsets of its fields in element `i` of `vars`. -/
def sizeofVar : ℕ := 1160
def nameOff (i : ℕ) : ℕ := i * sizeofVar
def valueOff (i : ℕ) : ℕ := i * sizeofVar + 128
def shellIdOff (i : ℕ) : ℕ := i * sizeofVar + 1152
def permOff (i : ℕ) : ℕ := i * sizeofVar + 1156

/-- `MAXVARNUM`. -/
def maxVarNum : ℕ := 1024

/-- `vars[i].name`, `vars[i].value`, `vars[i].shellId` and `vars[i].perm`. -/
def name (i j : ℕ) : BitVec 8 := u.vars (nameOff i + j)
def value (i j : ℕ) : BitVec 8 := u.vars (valueOff i + j)
def shellId (i : ℕ) : Word := wordOf u.vars (shellIdOff i)
def perm (i : ℕ) : Word := wordOf u.vars (permOff i)

/-- `isAllow`, for the current environment `cur`. -/
def isAllow (cur : EnvPtr) (i : ℕ) : Bool :=
  u.shellId i == 0 || u.shellId i == (u.kern.envs cur).shellId

/-- The loop of `checkVar` over the indices that are left, with its variable `empty`. -/
def checkVarLoop (cur : EnvPtr) (varName : Word) (needfill : Bool) :
    List ℕ → Option ℕ → UserKern → Option ℕ × UserKern
  | [], empty, u => (empty, u)
  | i :: rest, empty, u =>
    if u.name i 0 = 0 then
      checkVarLoop cur varName needfill rest
        (if needfill && empty.isNone then some i else empty) u
    else
      let u := u.touch varName (strcmpExtent (u.name i) (bytesAt u.user varName))
      if strcmpEq (u.name i) (bytesAt u.user varName) && u.isAllow cur i then (some i, u)
      else checkVarLoop cur varName needfill rest empty u

/-- `checkVar`: `none` is `-1`. -/
def checkVar (cur : EnvPtr) (varName : Word) (needfill : Bool) : Option ℕ × UserKern :=
  checkVarLoop cur varName needfill (List.range maxVarNum) none u

/-- `VAR_RDONLY`. -/
def varRdonly : Word := 1

/-- `sys_declare_var`. -/
def sysDeclareVar (varName value perm isGlobal : Word) : Kernel (Word × UserKern) := do
  let cur ← deref u.kern.curenv
  match u.checkVar cur varName true with
  | (none, u) => pure (-1, u)
  | (some r, u) =>
    if u.perm r &&& varRdonly ≠ 0 then pure (-2, u)
    else
      let u := u.strcpyVars (nameOff r) varName
      let u := u.strcpyVars (valueOff r) value
      let u := u.putVars (permOff r) 4 (wordByte perm)
      let shell := if isGlobal ≠ 0 then 0 else (u.kern.envs cur).shellId
      pure (0, u.putVars (shellIdOff r) 4 (wordByte shell))

/-- `sys_unset_var`. -/
def sysUnsetVar (varName : Word) : Kernel (Word × UserKern) := do
  let cur ← deref u.kern.curenv
  match u.checkVar cur varName false with
  | (none, u) => pure (-1, u)
  | (some r, u) =>
    if u.perm r &&& varRdonly ≠ 0 then pure (-2, u)
    else pure (0, u.putVars (nameOff r) 1 fun _ => 0)

/-- `sys_get_var`. -/
def sysGetVar (varName valueBuf : Word) : Kernel (Word × UserKern) := do
  let cur ← deref u.kern.curenv
  match u.checkVar cur varName false with
  | (none, u) => pure (-1, u)
  | (some r, u) => pure (0, u.strcpyOut valueBuf (u.value r))

/-- The address of `buf[cnt]`. -/
def bufAt (buf : Word) (cnt : ℕ) : Word := buf + BitVec.ofNat 32 (cnt * sizeofVar)

/-- The loop of `sys_get_all_var` over the indices that are left. -/
def getAllVarLoop (cur : EnvPtr) (buf : Word) : List ℕ → ℕ → UserKern → ℕ × UserKern
  | [], cnt, u => (cnt, u)
  | i :: rest, cnt, u =>
    if u.name i 0 = 0 then getAllVarLoop cur buf rest cnt u
    else if u.isAllow cur i then
      let u := u.strcpyOut (bufAt buf cnt) (u.name i)
      let u := u.strcpyOut (bufAt buf cnt + 128) (u.value i)
      getAllVarLoop cur buf rest (cnt + 1) u
    else getAllVarLoop cur buf rest cnt u

/-- `sys_get_all_var`. -/
def sysGetAllVar (buf : Word) : Kernel (Word × UserKern) := do
  let cur ← deref u.kern.curenv
  let (cnt, u) := getAllVarLoop cur buf (List.range maxVarNum) 0 u
  pure (BitVec.ofNat 32 cnt, u)

end UserKern

/-! ## The calls -/

/-- The calls, with the arguments of the user. -/
inductive PtrCall
  | printCons (s num : Word)
  | setTrapframe (envid tf : Word)
  | writeDev (va pa len : Word)
  | readDev (va pa len : Word)
  | getEnvPath (envid envPath : Word)
  | changeDir (envPath changeParent : Word)
  | declareVar (varName value perm isGlobal : Word)
  | unsetVar (varName : Word)
  | getVar (varName valueBuf : Word)
  | getAllVar (buf : Word)

/-- What a call does: its return value, if it returns, and the new state. -/
def PtrCall.run (u : UserKern) : PtrCall → Kernel (Option Word × UserKern)
  | .printCons s num => pure (some (u.sysPrintCons s num).1, (u.sysPrintCons s num).2)
  | .setTrapframe envid tf => do
    let (r, u) ← u.sysSetTrapframe envid tf
    pure (some r, u)
  | .writeDev va pa len => pure (some (u.sysWriteDev va pa len).1, (u.sysWriteDev va pa len).2)
  | .readDev va pa len => pure (some (u.sysReadDev va pa len).1, (u.sysReadDev va pa len).2)
  | .getEnvPath envid envPath => do
    let (r, u) ← u.sysGetEnvPath envid envPath
    pure (some r, u)
  | .changeDir envPath changeParent => u.sysChangeDir envPath changeParent
  | .declareVar varName value perm isGlobal => do
    let (r, u) ← u.sysDeclareVar varName value perm isGlobal
    pure (some r, u)
  | .unsetVar varName => do
    let (r, u) ← u.sysUnsetVar varName
    pure (some r, u)
  | .getVar varName valueBuf => do
    let (r, u) ← u.sysGetVar varName valueBuf
    pure (some r, u)
  | .getAllVar buf => do
    let (r, u) ← u.sysGetAllVar buf
    pure (some r, u)

end MosVolca
