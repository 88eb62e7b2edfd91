import MosVolca.Kern.Entry
import MosVolca.Kern.Tlbex

/-!
# Fork

The functions of `user/lib/fork.c` over the state of the kernel: `duppage`, `fork` and the
copy-on-write handler `cow_entry`. They run in the current environment and change the state by
system calls only, apart from the `memcpy` of `cow_entry`. The results of the system calls are
logged, because `duppage` and `cow_entry` do not look at them.

The stack of the program itself is not modelled: `fork` does not store to memory on the way.

## Main definitions

* `MosVolca.Proc` — the kernel and the log of a running program.
* `MosVolca.vpd`, `MosVolca.vpt` — the page tables as a program reads them.
* `MosVolca.duppage`, `MosVolca.fork`, `MosVolca.cowEntry` — the functions.

## Main results

* `MosVolca.vpt_window` — `vpt` is what a load from the window at `UVPT` gives.
-/

namespace MosVolca

/-- The kernel while a program runs, and the results of the system calls that it has made. -/
structure Proc where
  kern : Kern
  results : List Word

/-- The result of a system call comes back to the program. -/
def Proc.call (P : Proc) (x : Kernel (Word × Kern)) : Kernel (Word × Proc) := do
  let (r, k) ← x
  pure (r, ⟨k, P.results ++ [r]⟩)

/-- `vpd[i]`: an entry of the current page directory. -/
def vpd (k : Kern) (i : ℕ) : Word := k.pm.mem k.curPgdir i

/-- `vpt[vpn]`: the entry of a virtual page in the current page tables. -/
def vpt (k : Kern) (vpn : ℕ) : Word := k.pm.mem (ppn (vpd k (vpn / 1024))) (vpn % 1024)

variable (M : Machine)

/-- `syscall_mem_alloc`. -/
def syscallMemAlloc (P : Proc) (envid va perm : Word) : Kernel (Word × Proc) :=
  P.call (sysMemAlloc M P.kern envid va perm)

/-- `syscall_mem_map`. -/
def syscallMemMap (P : Proc) (srcid srcva dstid dstva perm : Word) : Kernel (Word × Proc) :=
  P.call (sysMemMap M P.kern srcid srcva dstid dstva perm)

/-- `syscall_mem_unmap`. -/
def syscallMemUnmap (P : Proc) (envid va : Word) : Kernel (Word × Proc) :=
  P.call (sysMemUnmap M P.kern envid va)

/-- `syscall_exofork`. -/
def syscallExofork (P : Proc) : Kernel (Word × Proc) := P.call (sysExofork M P.kern)

/-- `syscall_set_tlb_mod_entry`. -/
def syscallSetTlbModEntry (P : Proc) (envid func : Word) : Kernel (Word × Proc) :=
  P.call (sysSetTlbModEntry P.kern envid func)

/-- `syscall_set_env_status`. -/
def syscallSetEnvStatus (P : Proc) (envid status : Word) : Kernel (Word × Proc) :=
  P.call (sysSetEnvStatus P.kern envid status)

/-! ## `fork` -/

/-- `duppage`. -/
def duppage (P : Proc) (envid : Word) (vpn : ℕ) : Kernel Proc :=
  let perm := vpt P.kern vpn &&& 0xfff#32
  let addr := BitVec.ofNat 32 vpn <<< 12
  if perm &&& pteD = 0 ∨ perm &&& pteLibrary ≠ 0 then do
    let (_, P) ← syscallMemMap M P 0 addr envid addr perm
    pure P
  else do
    let perm := (perm &&& ~~~pteD) ||| pteCow
    let (_, P) ← syscallMemMap M P 0 addr envid addr perm
    let (_, P) ← syscallMemMap M P 0 addr 0 addr perm
    pure P

/-- One round of the inner loop of `fork`. -/
def forkPage (child : Word) (i : ℕ) (P : Proc) (j : ℕ) : Kernel Proc :=
  let n := (i <<< 10) ||| j
  if n < vpn ustacktop ∧ pteValid (vpt P.kern n) = true then duppage M P child n else pure P

/-- One round of the outer loop of `fork`. -/
def forkTable (child : Word) (P : Proc) (i : ℕ) : Kernel Proc :=
  if pteValid (vpd P.kern i) then (List.range 1024).foldlM (forkPage M child i) P else pure P

/-- The loops of `fork`. -/
def forkPages (child : Word) (P : Proc) : Kernel Proc :=
  (List.range (pdx (roundUp ustacktop pdmap))).foldlM (forkTable M child) P

/-- Step 1 of `fork`: the handler is set if that has not been done. -/
def setHandler (P : Proc) (cow : Word) : Kernel (Word × Proc) := do
  let cur ← deref P.kern.curenv
  if (P.kern.envs cur).userTlbModEntry ≠ cow then syscallSetTlbModEntry P 0 cow else pure (0, P)

/-- `fork`, in the parent, with the address of `cow_entry`. A child identifier of 0 is taken for
the return in the child, which sets `env` and returns 0. -/
def fork (P : Proc) (cow : Word) : Kernel (Word × Proc) := do
  let (r, P) ← setHandler P cow
  if r ≠ 0 then pure (r, P)
  else do
    let (child, P) ← syscallExofork M P
    if child = 0 then pure (0, P)
    else do
      let P ← forkPages M child P
      let (r, P) ← syscallSetTlbModEntry P child cow
      if r ≠ 0 then pure (r, P)
      else do
        let (r, P) ← syscallSetEnvStatus P child envRunnable
        pure (if r ≠ 0 then r else child, P)

/-! ## `cow_entry` -/

/-- The page that an access of the program to `va` reaches. An unmapped page is allocated by the
refill handler, for which two rounds are enough below `UTOP`. -/
def Proc.touch (P : Proc) (va : Word) : Kernel (ℕ × Proc) := do
  let cur ← deref P.kern.curenv
  match ← doTlbRefill M 2 P.kern.pm P.kern.curPgdir va (P.kern.envs cur).asid with
  | none => throw (.panic "the refill handler does not return")
  | some (w, pm) => pure (ppn w, { P with kern := { P.kern with pm := pm } })

/-- `memcpy` from a page to another one. -/
def Proc.memcpyPage (P : Proc) (dst src : Word) : Kernel Proc := do
  let (q, P) ← P.touch M src
  let (p, P) ← P.touch M dst
  let pm := P.kern.pm
  pure { P with kern := { P.kern with pm := { pm with
    mem := fun x i => if x = p ∧ i < 1024 then pm.mem q i else pm.mem x i } } }

/-- `cow_entry` for a store to `va`, up to the return to the faulting instruction: `none` is a
`user_panic`. -/
def cowEntry (P : Proc) (va : Word) : Kernel (Option Proc) :=
  let perm := vpt P.kern (vpn va) &&& 0xfff#32
  if perm &&& pteCow = 0 then pure none
  else do
    let perm := (perm &&& ~~~pteCow) ||| pteD
    let (_, P) ← syscallMemAlloc M P 0 ucow pteD
    let va := va &&& ~~~0xfff#32
    let P ← P.memcpyPage M ucow va
    let (_, P) ← syscallMemMap M P 0 ucow 0 va perm
    let (_, P) ← syscallMemUnmap M P 0 ucow
    pure (some P)

/-! ## The window -/

/-- The address of `vpt[vpn]`. -/
def vptAddr (n : ℕ) : Word := uvpt + BitVec.ofNat 32 (4 * n)

/-- **`vpt` through the window**: with the page directory as its own page table at `UVPT`, the
page that contains `vpt[vpn]` is the page table of `vpn`, and the word there is the entry. -/
theorem vpt_window {k : Kern} {n : ℕ} (hn : n < 2 ^ 20) (hd : k.curPgdir < 2 ^ 20)
    (hself : k.pm.mem k.curPgdir (pdx uvpt) = page2pa k.curPgdir ||| pteV)
    (hv : pteValid (vpd k (n / 1024)) = true) :
    translate k.pm k.curPgdir (vptAddr n) = some (vpd k (n / 1024)) ∧
      vpt k n = k.pm.mem (ppn (vpd k (n / 1024))) ((vptAddr n).toNat / 4 % 1024) := by
  have haddr : (vptAddr n).toNat = 0x7fc00000 + 4 * n := by
    rw [vptAddr, BitVec.toNat_add, BitVec.toNat_ofNat, uvpt_toNat]
    omega
  have hpdx : pdx (vptAddr n) = pdx uvpt := by
    rw [pdx_uvpt, pdx_eq, haddr]
    omega
  have hptx : ptx (vptAddr n) = n / 1024 := by
    rw [ptx_eq, haddr]
    omega
  have hslot : (vptAddr n).toNat / 4 % 1024 = n % 1024 := by
    rw [haddr]
    omega
  refine ⟨?_, by rw [hslot, vpt]⟩
  rw [translate_eq_some_iff, pteWord, hpdx, hself, ppn_self hd, hptx]
  exact ⟨pteValid_self _, rfl, hv⟩

end MosVolca
