import MosVolca.Kern.Sched

/-!
# System calls

The system calls of `kern/syscall_all.c` on environments, address spaces and messages. A call
gives its return value and the new state; for the calls that may end in `schedule` the value is
`none` if they do not return.

## Main definitions

* `MosVolca.sysMemAlloc`, `MosVolca.sysMemMap`, `MosVolca.sysMemUnmap` — address spaces.
* `MosVolca.sysExofork`, `MosVolca.sysSetEnvStatus`, `MosVolca.sysEnvDestroy`,
  `MosVolca.sysYield` — environments.
* `MosVolca.sysIpcRecv`, `MosVolca.sysIpcTrySend` — messages.
-/

namespace MosVolca

open TailQueue

/-- `ENV_RUNNABLE` and `ENV_NOT_RUNNABLE`. -/
def envRunnable : Word := 1
def envNotRunnable : Word := 2

/-- `env_status` as a word. -/
def EnvStatus.toWord : EnvStatus → Word
  | .free => 0
  | .runnable => envRunnable
  | .notRunnable => envNotRunnable

/-- `is_illegal_va`. -/
def isIllegalVa (va : Word) : Bool := va < utemp || va ≥ utop

variable (M : Machine)

/-- `sys_getenvid`. -/
def sysGetenvid (k : Kern) : Kernel Word := do
  let cur ← deref k.curenv
  pure (k.envs cur).id

/-- `sys_yield`. -/
def sysYield (k : Kern) : Kernel Kern := schedule k true

/-- `sys_env_destroy`. -/
def sysEnvDestroy (k : Kern) (envid : Word) : Kernel (Option Word × Kern) := do
  match ← envid2env k envid true with
  | .error r => pure (some r, k)
  | .ok p =>
    let e ← deref p
    let (returned, k) ← envDestroy M k e
    pure (if returned then some 0 else none, k)

/-- `sys_set_tlb_mod_entry`. -/
def sysSetTlbModEntry (k : Kern) (envid func : Word) : Kernel (Word × Kern) := do
  match ← envid2env k envid true with
  | .error r => pure (r, k)
  | .ok p =>
    let e ← deref p
    pure (0, k.setEnv e fun x => { x with userTlbModEntry := func })

/-- `sys_mem_alloc`. -/
def sysMemAlloc (k : Kern) (envid va perm : Word) : Kernel (Word × Kern) :=
  if isIllegalVa va then pure (-eInval, k)
  else do
    match ← envid2env k envid true with
    | .error r => pure (r, k)
    | .ok p =>
      match ← pageAlloc M k.pm with
      | (.error r, pm) => pure (r, { k with pm := pm })
      | (.ok pp, pm) =>
        let e ← deref p
        let (r, pm) ← pageInsert M pm (k.envs e).pgdir (k.envs e).asid pp va perm
        pure (r, { k with pm := pm })

/-- `sys_mem_map`. -/
def sysMemMap (k : Kern) (srcid srcva dstid dstva perm : Word) : Kernel (Word × Kern) :=
  if isIllegalVa srcva || isIllegalVa dstva then pure (-eInval, k)
  else do
    match ← envid2env k srcid true with
    | .error r => pure (r, k)
    | .ok src =>
      match ← envid2env k dstid true with
      | .error r => pure (r, k)
      | .ok dst =>
        let srcenv ← deref src
        match ← pageLookup M k.pm (k.envs srcenv).pgdir srcva with
        | none => pure (-eInval, k)
        | some (pp, _) =>
          let dstenv ← deref dst
          let (r, pm) ← pageInsert M k.pm (k.envs dstenv).pgdir (k.envs dstenv).asid pp dstva perm
          pure (r, { k with pm := pm })

/-- `sys_mem_unmap`. -/
def sysMemUnmap (k : Kern) (envid va : Word) : Kernel (Word × Kern) :=
  if isIllegalVa va then pure (-eInval, k)
  else do
    match ← envid2env k envid true with
    | .error r => pure (r, k)
    | .ok p =>
      let e ← deref p
      let pm ← pageRemove M k.pm (k.envs e).pgdir (k.envs e).asid va
      pure (0, { k with pm := pm })

/-- `strcpy`: the bytes up to the first null byte, and that byte. -/
def strcpy (dst src : ℕ → BitVec 8) : ℕ → BitVec 8 := fun i =>
  if ∀ j < i, src j ≠ 0 then src i else dst i

/-- `sys_exofork`. -/
def sysExofork (k : Kern) : Kernel (Word × Kern) := do
  let cur ← deref k.curenv
  match ← envAlloc M k (k.envs cur).id with
  | (.error r, k) => pure (r, k)
  | (.ok e, k) =>
    let k := k.setEnv e fun x => { x with
      tf := { k.ktf with regs := Function.update k.ktf.regs 2 0 }
      status := .notRunnable
      path := strcpy x.path (k.envs cur).path
      pri := (k.envs cur).pri
      shellId := (k.envs cur).shellId }
    pure ((k.envs e).id, k)

/-- The status that `sys_set_env_status` sets. -/
def EnvStatus.ofWord (status : Word) : EnvStatus :=
  if status = envRunnable then .runnable else .notRunnable

/-- Step 3 of `sys_set_env_status`: `env_sched_list` follows the status. -/
def updateSchedList (k : Kern) (e : EnvPtr) (status : Word) : Kernel Kern :=
  if (k.envs e).status.toWord ≠ status then
    if status = envRunnable then do
      let q ← deref (k.envSchedList.insertTail e)
      pure { k with envSchedList := q }
    else do
      let q ← deref (k.envSchedList.remove e)
      pure { k with envSchedList := q }
  else pure k

/-- `sys_set_env_status`. -/
def sysSetEnvStatus (k : Kern) (envid status : Word) : Kernel (Word × Kern) :=
  if status ≠ envRunnable ∧ status ≠ envNotRunnable then pure (-eInval, k)
  else do
    match ← envid2env k envid true with
    | .error r => pure (r, k)
    | .ok p =>
      let e ← deref p
      let k ← updateSchedList k e status
      pure (0, k.setEnv e fun x => { x with status := .ofWord status })

/-- `sys_ipc_recv`. -/
def sysIpcRecv (k : Kern) (dstva : Word) : Kernel (Option Word × Kern) :=
  if dstva ≠ 0 ∧ isIllegalVa dstva then pure (some (-eInval), k)
  else do
    let cur ← deref k.curenv
    let k := k.setEnv cur fun x =>
      { x with ipcRecving := 1, ipcDstva := dstva, status := .notRunnable }
    let q ← deref (k.envSchedList.remove cur)
    let k := { k with
      envSchedList := q
      ktf := { k.ktf with regs := Function.update k.ktf.regs 2 0 } }
    let k ← schedule k true
    pure (none, k)

/-- `sys_ipc_try_send` up to the page transfer, for a target that is receiving: the fields of the
target are set and it is made runnable. -/
def ipcDeliver (k : Kern) (e cur : EnvPtr) (value perm : Word) : Kernel Kern := do
  let k := k.setEnv e fun x => { x with
    ipcValue := value
    ipcFrom := (k.envs cur).id
    ipcPerm := pteV ||| perm
    ipcRecving := 0
    status := .runnable }
  let q ← deref (k.envSchedList.insertTail e)
  pure { k with envSchedList := q }

/-- `sys_ipc_try_send`. -/
def sysIpcTrySend (k : Kern) (envid value srcva perm : Word) : Kernel (Word × Kern) :=
  if srcva ≠ 0 ∧ isIllegalVa srcva then pure (-eInval, k)
  else do
    match ← envid2env k envid false with
    | .error r => pure (r, k)
    | .ok p =>
      let e ← deref p
      if (k.envs e).ipcRecving = 0 then pure (-eIpcNotRecv, k)
      else do
        let cur ← deref k.curenv
        let k ← ipcDeliver k e cur value perm
        if srcva ≠ 0 then do
          match ← pageLookup M k.pm (k.envs cur).pgdir srcva with
          | none => pure (-eInval, k)
          | some (pp, _) =>
            let (r, pm) ← pageInsert M k.pm (k.envs e).pgdir (k.envs e).asid pp
              (k.envs e).ipcDstva perm
            pure (r, { k with pm := pm })
        else pure (0, k)

end MosVolca
