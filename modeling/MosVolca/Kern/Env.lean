import MosVolca.Kern.Pmap
import MosVolca.Library.TailQueue

/-!
# Environments

The data and the functions of `kern/env.c` and `include/env.h`, but for `env_destroy`, which needs
the scheduler. An environment is named by its index in `envs`.

The ELF loader is represented by what it does to the address space: the calls of
`load_icode_mapper` that it makes for a binary.

## Main definitions

* `MosVolca.Env`, `MosVolca.Kern` — an environment, and the state of the kernel.
* `MosVolca.envid2env`, `MosVolca.envInit`, `MosVolca.envAlloc`, `MosVolca.envCreate`,
  `MosVolca.envFree`, `MosVolca.envRun` — the functions of `env.c`.
-/

namespace MosVolca

open TailQueue

/-- `NENV`. -/
abbrev nenv : ℕ := 1024

/-- `NASID`. -/
def nasid : ℕ := 64

instance neZero_nenv : NeZero nenv := ⟨by decide⟩

/-- There are 32 registers. -/
instance neZero_regs : NeZero 32 := ⟨by decide⟩

/-- A `struct Env *`: an index in `envs`. -/
abbrev EnvPtr := Fin nenv

/-- `ENVX(envid)`. -/
def envx (envid : Word) : EnvPtr := Fin.ofNat nenv (envid &&& 1023#32).toNat

/-- `struct Trapframe`. -/
structure Trapframe where
  regs : Fin 32 → Word
  cp0Status : Word
  hi : Word
  lo : Word
  cp0Badvaddr : Word
  cp0Cause : Word
  cp0Epc : Word

/-- The values of `env_status`. -/
inductive EnvStatus
  | free
  | runnable
  | notRunnable
  deriving DecidableEq, Repr

/-- `struct Env`, without the links, which are in the lists of `MosVolca.Kern`. -/
structure Env where
  tf : Trapframe
  id : Word
  asid : Word
  parentId : Word
  status : EnvStatus
  /-- The page of the page directory. -/
  pgdir : ℕ
  pri : Word
  ipcValue : Word
  ipcFrom : Word
  ipcRecving : Word
  ipcDstva : Word
  ipcPerm : Word
  userTlbModEntry : Word
  runs : Word
  path : ℕ → BitVec 8
  shellId : Word

/-- The state of the kernel. -/
structure Kern where
  pm : PhysMem
  envs : EnvPtr → Env
  envFreeList : List EnvPtr
  envSchedList : TailQ EnvPtr
  curenv : Option EnvPtr
  /-- The page of `cur_pgdir`. -/
  curPgdir : ℕ
  /-- The page of the template page directory. -/
  basePgdir : ℕ
  asidBitmap : ℕ → Word
  /-- The counter of `mkenvid`. -/
  envidCount : Word
  /-- The counter of `schedule`: the time slices that are left. -/
  count : Word
  /-- The trap frame below `KSTACKTOP`. -/
  ktf : Trapframe

namespace Kern

/-- The environment `e` is changed by `f`. -/
def setEnv (k : Kern) (e : EnvPtr) (f : Env → Env) : Kern :=
  { k with envs := Function.update k.envs e (f (k.envs e)) }

end Kern

/-- An access through a pointer that may be null. -/
def deref {α : Type} : Option α → Kernel α
  | some a => pure a
  | none => throw .nullAccess

namespace Kern

@[simp] lemma setEnv_envs_same (k : Kern) (e : EnvPtr) (f : Env → Env) :
    (k.setEnv e f).envs e = f (k.envs e) := Function.update_self _ _ _

lemma setEnv_envs_of_ne {e e' : EnvPtr} (k : Kern) (f : Env → Env) (h : e' ≠ e) :
    (k.setEnv e f).envs e' = k.envs e' := Function.update_of_ne h _ _

/-- What holds of the changed environment and of the others. -/
lemma forall_setEnv {k : Kern} {e : EnvPtr} {f : Env → Env} {P : EnvPtr → Env → Prop}
    (hself : P e (f (k.envs e))) (hother : ∀ x, x ≠ e → P x (k.envs x)) (x : EnvPtr) :
    P x ((k.setEnv e f).envs x) := by
  by_cases h : x = e
  · subst h
    rwa [setEnv_envs_same]
  · rw [setEnv_envs_of_ne k f h]
    exact hother x h

/-- A change of an environment that keeps what `g` says of it. -/
lemma setEnv_keeps {α : Type} (k : Kern) (e : EnvPtr) (f : Env → Env) (g : Env → α)
    (hf : g (f (k.envs e)) = g (k.envs e)) (x : EnvPtr) :
    g ((k.setEnv e f).envs x) = g (k.envs x) :=
  forall_setEnv (P := fun x y => g y = g (k.envs x)) hf (fun _ _ => rfl) x

/-- An environment in use that stays in use. -/
lemma setEnv_free_iff {k : Kern} {e : EnvPtr} {f : Env → Env} (he : (k.envs e).status ≠ .free)
    (hf : (f (k.envs e)).status ≠ .free) (x : EnvPtr) :
    ((k.setEnv e f).envs x).status = .free ↔ (k.envs x).status = .free :=
  forall_setEnv (P := fun x y => y.status = .free ↔ (k.envs x).status = .free)
    (iff_of_false hf he) (fun _ _ => Iff.rfl) x

end Kern

lemma deref_eq_ok {α : Type} {o : Option α} {a : α} : deref o = .ok a ↔ o = some a := by
  cases o <;> simp [deref]

variable (M : Machine)

/-! ## Address space identifiers -/

/-- `asid_alloc`: the first unused identifier and the new bitmap, or `-E_NO_FREE_ENV`. -/
def asidAlloc (bitmap : ℕ → Word) : Except Word (Word × (ℕ → Word)) :=
  match (List.range nasid).find? fun i => bitmap (i >>> 5) &&& (1#32 <<< (i &&& 31)) == 0#32 with
  | some i => .ok (BitVec.ofNat 32 i,
      Function.update bitmap (i >>> 5) (bitmap (i >>> 5) ||| (1#32 <<< (i &&& 31))))
  | none => .error (-eNoFreeEnv)

/-- `asid_free`. -/
def asidFree (bitmap : ℕ → Word) (i : Word) : ℕ → Word :=
  let index := (i >>> 5).toNat
  let inner := (i &&& 31#32).toNat
  Function.update bitmap index (bitmap index &&& ~~~(1#32 <<< inner))

/-! ## Initialization -/

/-- `map_segment`. -/
def mapSegment (pm : PhysMem) (pgdir : ℕ) (asid pa va size perm : Word) : Kernel PhysMem :=
  if pa % 4096 ≠ 0 then throw (.panic "assertion failed: pa % BY2PG == 0")
  else if va % 4096 ≠ 0 then throw (.panic "assertion failed: va % BY2PG == 0")
  else if size % 4096 ≠ 0 then throw (.panic "assertion failed: size % BY2PG == 0")
  else (List.range (size / 4096).toNat).foldlM (fun pm i => do
    let pp ← pa2page M (pa + BitVec.ofNat 32 (i * 4096))
    let (_, pm) ← pageInsert M pm pgdir asid pp (va + BitVec.ofNat 32 (i * 4096)) perm
    pure pm) pm

/-- `sizeof(struct Page)` and `sizeof(struct Env)`. -/
def sizeofPage : Word := 12
def sizeofEnv : Word := 1248

/-- An element of `envs` before `env_init`, in cleared memory. -/
def Env.zero : Env where
  tf := ⟨fun _ => 0, 0, 0, 0, 0, 0, 0⟩
  id := 0
  asid := 0
  parentId := 0
  status := .free
  pgdir := 0
  pri := 0
  ipcValue := 0
  ipcFrom := 0
  ipcRecving := 0
  ipcDstva := 0
  ipcPerm := 0
  userTlbModEntry := 0
  runs := 0
  path := fun _ => 0
  shellId := 0

/-- `env_free_list` after the loop of `env_init`, which inserts the environments from the last one
on. It is never evaluated. -/
@[irreducible] def allEnvs : List EnvPtr := List.finRange nenv

lemma mem_allEnvs (e : EnvPtr) : e ∈ allEnvs := by
  unfold allEnvs
  exact List.mem_finRange e

lemma nodup_allEnvs : allEnvs.Nodup := by
  unfold allEnvs
  exact List.nodup_finRange nenv

/-- The kernel after `env_init`, with its memory and its template page directory: every
environment is free and nothing runs. -/
def Kern.boot (pm : PhysMem) (base : ℕ) (ktf : Trapframe) : Kern where
  pm := pm
  envs := fun _ => Env.zero
  envFreeList := allEnvs
  envSchedList := ⟨none, .first, fun _ => none, fun _ => .null⟩
  curenv := none
  curPgdir := 0
  basePgdir := base
  asidBitmap := fun _ => 0
  envidCount := 0
  count := 0
  ktf := ktf

/-- `env_init`. -/
def envInit (pm : PhysMem) (ktf : Trapframe) : Kernel Kern := do
  match ← pageAlloc M pm with
  | (.error _, _) => throw (.panic "'page_alloc(&p)' returned")
  | (.ok p, pm) =>
    let pm := pm.incRef p
    let base ← kaddr M (page2pa p)
    let pm ← mapSegment M pm base 0 M.pages upages
      (roundUp (BitVec.ofNat 32 M.npage * sizeofPage) 4096) pteG
    let pm ← mapSegment M pm base 0 M.envs uenvs (roundUp (BitVec.ofNat 32 nenv * sizeofEnv) 4096)
      pteG
    pure (Kern.boot pm base ktf)

/-! ## Identifiers -/

/-- `mkenvid`. -/
def mkenvid (k : Kern) (e : EnvPtr) : Word × Kern :=
  let i := k.envidCount + 1
  ((i <<< 11) ||| BitVec.ofNat 32 e, { k with envidCount := i })

/-- `envid2env`: the error, or the pointer stored at `*penv`. -/
def envid2env (k : Kern) (envid : Word) (checkperm : Bool) :
    Kernel (Except Word (Option EnvPtr)) :=
  if envid = 0 then pure (.ok k.curenv)
  else
    let e := envx envid
    if (k.envs e).status = .free ∨ (k.envs e).id ≠ envid then pure (.error (-eBadEnv))
    else if checkperm then do
      let cur ← deref k.curenv
      if (k.envs e).parentId ≠ (k.envs cur).id ∧ (k.envs e).id ≠ (k.envs cur).id then
        pure (.error (-eBadEnv))
      else pure (.ok (some e))
    else pure (.ok (some e))

/-- What `envid2env` finds: the current environment for 0, otherwise the environment in use with
this identifier, which is the current one or one of its children if that is checked. -/
lemma envid2env_eq_some {k : Kern} {envid : Word} {checkperm : Bool} {e : EnvPtr}
    (h : envid2env k envid checkperm = .ok (.ok (some e))) :
    (envid = 0 ∧ k.curenv = some e) ∨
      (envid ≠ 0 ∧ e = envx envid ∧ (k.envs e).status ≠ .free ∧ (k.envs e).id = envid ∧
        (checkperm = true → ∃ cur, k.curenv = some cur ∧
          ((k.envs e).parentId = (k.envs cur).id ∨ (k.envs e).id = (k.envs cur).id))) := by
  unfold envid2env at h
  by_cases h0 : envid = 0
  · rw [if_pos h0] at h
    simp only [pure_eq_ok, Except.ok.injEq] at h
    exact Or.inl ⟨h0, h⟩
  rw [if_neg h0] at h
  simp only at h
  by_cases hbad : (k.envs (envx envid)).status = .free ∨ (k.envs (envx envid)).id ≠ envid
  · rw [if_pos hbad] at h
    simp at h
  rw [if_neg hbad] at h
  obtain ⟨hfree, hid⟩ := not_or.mp hbad
  rcases checkperm with _ | _
  · simp only [Bool.false_eq_true, ↓reduceIte, pure_eq_ok, Except.ok.injEq, Option.some.injEq] at h
    exact Or.inr ⟨h0, h.symm, h ▸ hfree, h ▸ not_not.mp hid, by simp⟩
  · simp only [↓reduceIte] at h
    obtain ⟨cur, hcur, h⟩ := bind_eq_ok.mp h
    by_cases hperm : (k.envs (envx envid)).parentId ≠ (k.envs cur).id ∧
        (k.envs (envx envid)).id ≠ (k.envs cur).id
    · rw [if_pos hperm] at h
      simp at h
    · rw [if_neg hperm] at h
      simp only [pure_eq_ok, Except.ok.injEq, Option.some.injEq] at h
      refine Or.inr ⟨h0, h.symm, h ▸ hfree, h ▸ not_not.mp hid, fun _ => ⟨cur, ?_, ?_⟩⟩
      · exact deref_eq_ok.mp hcur
      · rw [← h]
        tauto

/-! ## Allocation -/

/-- `memcpy(pgdir + PDX(UTOP), base_pgdir + PDX(UTOP), ..)` of `env_setup_vm`. -/
def copyTemplate (pm : PhysMem) (pgdir base : ℕ) : PhysMem :=
  { pm with mem := fun p i =>
      if p = pgdir ∧ pdx utop ≤ i ∧ i < pdx uvpt then pm.mem base i else pm.mem p i }

/-- `env_setup_vm`. -/
def envSetupVm (k : Kern) (e : EnvPtr) : Kernel (Word × Kern) := do
  match ← pageAlloc M k.pm with
  | (.error r, pm) => pure (r, { k with pm := pm })
  | (.ok p, pm) =>
    let pm := pm.incRef p
    let pgdir ← kaddr M (page2pa p)
    let pm := copyTemplate pm pgdir k.basePgdir
    let pm := pm.setWord pgdir (pdx uvpt) (page2pa pgdir ||| pteV)
    pure (0, { k with pm := pm }.setEnv e fun x => { x with pgdir := pgdir })

/-- `STATUS_IM4 | STATUS_KUp | STATUS_IEp`. -/
def userStatus : Word := 0x1000#32 ||| 0x8#32 ||| 0x4#32

/-- The trap frame of a new environment: its `cp0_status` and its stack pointer. -/
def initTf (tf : Trapframe) : Trapframe :=
  { tf with cp0Status := userStatus, regs := Function.update tf.regs 29 (ustacktop - 4 - 4) }

/-- The fields that `env_alloc` sets before it allocates the ASID. -/
def envReset (k : Kern) (e : EnvPtr) : Kern :=
  let k := k.setEnv e fun x =>
    { x with userTlbModEntry := 0, runs := 0, path := Function.update x.path 0 0x2f }
  let (id, k) := mkenvid k e
  k.setEnv e fun x => { x with id := id, shellId := 0 }

/-- What `env_alloc` sets after it has allocated the ASID. -/
def envStart (k : Kern) (e : EnvPtr) (asid : Word) (bitmap : ℕ → Word) (parentId : Word) : Kern :=
  let k := { k with asidBitmap := bitmap }.setEnv e fun x =>
    { x with asid := asid, parentId := parentId, tf := initTf x.tf }
  { k with envFreeList := k.envFreeList.erase e }

/-- `env_alloc`: the new environment, or the error. -/
def envAlloc (k : Kern) (parentId : Word) : Kernel (Except Word EnvPtr × Kern) :=
  match k.envFreeList with
  | [] => pure (.error (-eNoFreeEnv), k)
  | e :: _ => do
    let (r, k) ← envSetupVm M k e
    if r ≠ 0 then pure (.error r, k)
    else
      let k := envReset k e
      match asidAlloc k.asidBitmap with
      | .error r => pure (.error r, k)
      | .ok (asid, bitmap) => pure (.ok e, envStart k e asid bitmap parentId)

/-- A call of `load_icode_mapper`: the bytes `src`, if there are any, go to `offset` in a new page
at `va`. -/
structure MapperCall where
  va : Word
  offset : ℕ
  perm : Word
  src : Option (List (BitVec 8))

/-- What the ELF loader does with a binary: the calls of its mapper, and the entry point. -/
structure Image where
  calls : List MapperCall
  entry : Word

/-- The byte at offset `i` of a page is set, in little-endian words. -/
def setByte (page : ℕ → Word) (i : ℕ) (b : BitVec 8) : ℕ → Word :=
  let shift := 8 * (i % 4)
  Function.update page (i / 4)
    ((page (i / 4) &&& ~~~(0xff#32 <<< shift)) ||| (b.setWidth 32 <<< shift))

/-- `memcpy` to a page. -/
def copyBytes (page : ℕ → Word) (offset : ℕ) : List (BitVec 8) → ℕ → Word
  | [] => page
  | b :: bs => copyBytes (setByte page offset b) (offset + 1) bs

/-- The copy of `load_icode_mapper`, if there is something to copy. -/
def copySrc (pm : PhysMem) (p : ℕ) (c : MapperCall) : Kernel PhysMem :=
  match c.src with
  | none => pure pm
  | some bytes => do
    let kva ← kaddr M (page2pa p)
    pure { pm with mem := Function.update pm.mem kva (copyBytes (pm.mem kva) c.offset bytes) }

/-- `load_icode_mapper`. -/
def loadIcodeMapper (k : Kern) (e : EnvPtr) (c : MapperCall) : Kernel (Word × Kern) := do
  match ← pageAlloc M k.pm with
  | (.error _, _) => throw (.panic "there is no mem!")
  | (.ok p, pm) =>
    let pm ← copySrc M pm p c
    let (r, pm) ← pageInsert M pm (k.envs e).pgdir (k.envs e).asid p c.va c.perm
    pure (r, { k with pm := pm })

/-- `load_icode`: `none` is a binary that is not an ELF file. -/
def loadIcode (k : Kern) (e : EnvPtr) (binary : Option Image) : Kernel Kern := do
  match binary with
  | none => throw (.panic "bad elf")
  | some image =>
    let k ← image.calls.foldlM (fun k c => do
      let (r, k) ← loadIcodeMapper M k e c
      if r ≠ 0 then throw (.panic "'elf_load_seg' returned") else pure k) k
    pure (k.setEnv e fun x => { x with tf := { x.tf with cp0Epc := image.entry } })

/-- `env_create`. The result of `env_alloc` is not checked: when it fails, `e` is not a valid
pointer. -/
def envCreate (k : Kern) (binary : Option Image) (priority : Word) : Kernel (EnvPtr × Kern) := do
  match ← envAlloc M k 0 with
  | (.error _, _) => throw .nullAccess
  | (.ok e, k) =>
    let k := k.setEnv e fun x => { x with pri := priority, status := .runnable }
    let k ← loadIcode M k e binary
    pure (e, { k with envSchedList := k.envSchedList.insertHead e })

/-! ## Release -/

/-- The inner loop of `env_free`: unmap the pages of the table `pt`. -/
def envFreePages (pm : PhysMem) (pgdir : ℕ) (asid : Word) (pdeno pt : ℕ) : Kernel PhysMem :=
  (List.range 1024).foldlM (fun pm pteno =>
    if pteValid (pm.mem pt pteno) then
      pageRemove M pm pgdir asid
        ((BitVec.ofNat 32 pdeno <<< 22) ||| (BitVec.ofNat 32 pteno <<< 12))
    else pure pm) pm

/-- One round of the outer loop of `env_free`: unmap the pages of a page table and drop it. -/
def envFreeTable (pgdir : ℕ) (asid : Word) (pm : PhysMem) (pdeno : ℕ) : Kernel PhysMem :=
  let pde := pm.mem pgdir pdeno
  if pteValid pde then do
    let pa := pteAddr pde
    let pt ← kaddr M pa
    let pm ← envFreePages M pm pgdir asid pdeno pt
    let pm := pm.setWord pgdir pdeno 0#32
    let pp ← pa2page M pa
    let pm ← pageDecref pm pp
    pure (tlbInvalidate pm asid (uvpt + (BitVec.ofNat 32 pdeno <<< 12)))
  else pure pm

/-- What `env_free` does to the memory. -/
def envFreeVm (pm : PhysMem) (pgdir : ℕ) (asid : Word) : Kernel PhysMem := do
  let pm ← (List.range (pdx utop)).foldlM (envFreeTable M pgdir asid) pm
  let pp ← pa2page M (page2pa pgdir)
  let pm ← pageDecref pm pp
  pure (tlbInvalidate pm asid (uvpt + (BitVec.ofNat 32 (pdx uvpt) <<< 12)))

/-- `env_free`. -/
def envFree (k : Kern) (e : EnvPtr) : Kernel Kern := do
  let pm ← envFreeVm M k.pm (k.envs e).pgdir (k.envs e).asid
  let k := { k with
    pm := pm
    asidBitmap := asidFree k.asidBitmap (k.envs e).asid }
  let k := k.setEnv e fun x => { x with status := .free }
  let k := { k with envFreeList := e :: k.envFreeList }
  let q ← deref (k.envSchedList.remove e)
  pure { k with envSchedList := q }

/-- `curenv->env_tf = *((struct Trapframe *)KSTACKTOP - 1)`, if an environment is current. -/
def saveContext (k : Kern) : Kern :=
  match k.curenv with
  | some cur => k.setEnv cur fun x => { x with tf := k.ktf }
  | none => k

/-- `curenv`, its `env_runs` and `cur_pgdir` are set. -/
def switchTo (k : Kern) (e : EnvPtr) : Kern :=
  let k := { k with curenv := some e }.setEnv e fun x => { x with runs := x.runs + 1 }
  { k with curPgdir := (k.envs e).pgdir }

/-- `env_run`, up to the return to user mode. -/
def envRun (k : Kern) (e : EnvPtr) : Kernel Kern :=
  if (k.envs e).status ≠ .runnable then
    throw (.panic "assertion failed: e->env_status == ENV_RUNNABLE")
  else pure (switchTo (saveContext k) e)

end MosVolca
