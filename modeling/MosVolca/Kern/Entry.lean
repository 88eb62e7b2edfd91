import MosVolca.Kern.Syscall

/-!
# Kernel entries

The ways into the kernel: the creation of an environment at boot, the timer, and the system calls.
A run of the kernel is a sequence of entries; at each one some frame is below `KSTACKTOP`, where the
trap code saves the registers of a program whose `$sp` is in user space.

## Main definitions

* `MosVolca.Entry`, `MosVolca.enter` — the entries, and what the kernel does on each.
* `MosVolca.Kern.Step` — a kernel entry that returns to user mode.
* `MosVolca.KernRun` — a run of entries, indexed by time.
-/

namespace MosVolca

/-- The kernel entries. -/
inductive Entry
  | envCreate (binary : Option Image) (priority : Word)
  | timer
  | yield
  | envDestroy (envid : Word)
  | setTlbModEntry (envid func : Word)
  | memAlloc (envid va perm : Word)
  | memMap (srcid srcva dstid dstva perm : Word)
  | memUnmap (envid va : Word)
  | exofork
  | setEnvStatus (envid status : Word)
  | ipcRecv (dstva : Word)
  | ipcTrySend (envid value srcva perm : Word)

/-- The result of a call that always returns. -/
def returning (x : Kernel (Word × Kern)) : Kernel (Option Word × Kern) := do
  let (r, k) ← x
  pure (some r, k)

/-- What the kernel does on an entry: the value it returns to the caller, if it does, and the new
state. -/
def enter (M : Machine) (k : Kern) : Entry → Kernel (Option Word × Kern)
  | .envCreate binary priority => do
    let (_, k) ← envCreate M k binary priority
    pure (none, k)
  | .timer => do
    let k ← schedule k false
    pure (none, k)
  | .yield => do
    let k ← sysYield k
    pure (none, k)
  | .envDestroy envid => sysEnvDestroy M k envid
  | .setTlbModEntry envid func => returning (sysSetTlbModEntry k envid func)
  | .memAlloc envid va perm => returning (sysMemAlloc M k envid va perm)
  | .memMap srcid srcva dstid dstva perm => returning (sysMemMap M k srcid srcva dstid dstva perm)
  | .memUnmap envid va => returning (sysMemUnmap M k envid va)
  | .exofork => returning (sysExofork M k)
  | .setEnvStatus envid status => returning (sysSetEnvStatus k envid status)
  | .ipcRecv dstva => sysIpcRecv k dstva
  | .ipcTrySend envid value srcva perm => returning (sysIpcTrySend M k envid value srcva perm)

/-- The frame below `KSTACKTOP` is `tf`: the registers that the trap code has saved there, or the
frame that was there, where it has saved them elsewhere. -/
def Kern.trap (k : Kern) (tf : Trapframe) : Kern := { k with ktf := tf }

@[simp] lemma Kern.trap_ktf (k : Kern) : k.trap k.ktf = k := rfl

/-- The entry `x` is made with the frame `tf` below `KSTACKTOP` and leads from `k` to `k'`. -/
def Kern.Step (M : Machine) (x : Entry) (k k' : Kern) : Prop :=
  ∃ tf r, enter M (k.trap tf) x = .ok (r, k')

/-- A run of `n` entries: the states, the entries and what they return. -/
def KernRun (M : Machine) (n : ℕ) (σ : ℕ → Kern) (act : ℕ → Entry) (res : ℕ → Option Word) :
    Prop :=
  ∀ t < n, ∃ tf, enter M ((σ t).trap tf) (act t) = .ok (res t, σ (t + 1))

/-- The state after an entry; the same state if the kernel panics. -/
def after (M : Machine) (k : Kern) (a : Entry) : Kern :=
  match enter M k a with
  | .ok (_, k') => k'
  | .error _ => k

end MosVolca
