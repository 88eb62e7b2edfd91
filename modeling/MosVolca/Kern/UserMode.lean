import MosVolca.Kern.RunQueue
import MosVolca.Kern.Tlbex
import MosVolca.Kern.UserPointers

/-!
# User mode

`ret_from_exception` loads `cp0_status` from a trap frame and `rfe` takes the mode of the resumed
program from its bit `STATUS_KUp`. The bit is set by `env_alloc` and saved by every exception from
user mode, but `sys_set_trapframe` takes any frame, and `SAVE_ALL` takes a negative `$sp` of a user
for a stack pointer of the kernel. This file proves that environments resume in user mode in the
runs in which the frames handed to `sys_set_trapframe` have the bit set, the registers are saved
below `KSTACKTOP`, and no string leaves its place.

## Main definitions

* `MosVolca.Trap`, `MosVolca.Trapped` — the ways into the kernel, and what it does on each.
* `MosVolca.saveAll` — where the registers are saved.
* `MosVolca.Running`, `MosVolca.Running.Step` — the kernel with the frame that the current
  environment was resumed from.
* `MosVolca.KeepsUserMode` — the condition on the arguments.

## Main results

* `MosVolca.UserContexts.trapped` — what the kernel does on one exception keeps the invariant.
* `MosVolca.userMode_of_run` — environments resume in user mode, in every state of a run.
-/

namespace MosVolca

open TailQueue

/-- `STATUS_KUp`. -/
def statusKUp : Word := 0x8

/-- The program that is resumed from this frame runs in user mode. -/
def UserStatus (tf : Trapframe) : Prop := tf.cp0Status &&& statusKUp ≠ 0

instance (tf : Trapframe) : Decidable (UserStatus tf) := inferInstanceAs (Decidable (_ ≠ _))

/-! ## Exceptions -/

/-- `KSTACKTOP`. -/
def kstacktop : Word := ulim + pdmap

/-- `SAVE_ALL`: the address of the frame of a program with the registers `tf`. It is below
`KSTACKTOP`, but a negative `$sp` is kept. -/
def saveAll (tf : Trapframe) : Word :=
  (if (tf.regs 29).toInt < 0 then tf.regs 29 else kstacktop) - sizeofTrapframe

/-- The registers are saved below `KSTACKTOP`, where the kernel looks for them. -/
def SavedBelowTop (tf : Trapframe) : Prop := saveAll tf = kstacktop - sizeofTrapframe

/-- `do_tlb_mod`: the context of the user handler. The memory after the frame has been copied to the
exception stack is `pm`. -/
def doTlbMod (k : Kern) (pm : PhysMem) : Kernel Kern := do
  let cur ← deref k.curenv
  let sp := k.ktf.regs 29
  let sp := if sp < ustacktop ∨ sp ≥ uxstacktop then uxstacktop else sp
  let sp := sp - sizeofTrapframe
  if (k.envs cur).userTlbModEntry ≠ 0 then
    pure { k with
      pm := pm
      ktf := { k.ktf with
        regs := Function.update (Function.update k.ktf.regs 4 sp) 29 (sp - 4)
        cp0Epc := (k.envs cur).userTlbModEntry } }
  else throw (.panic "TLB Mod but no user handler registered")

/-- The ways into the kernel. -/
inductive Trap
  | entry (x : Entry)
  /-- A call with pointers; `u` is the kernel with the memory that the call works on. -/
  | ptr (u : UserKern) (c : PtrCall)
  /-- `sys_putchar`, `sys_getenvid`, `sys_cgetc` and calls without a function. -/
  | quiet
  /-- `sys_alloc_shell_id`, with the value of `nowShellId`. -/
  | allocShellId (nowShellId : Word)
  | tlbMod (pm : PhysMem)
  | tlbRefill (va asid : Word)

/-- How the kernel goes back to an environment. -/
inductive Resume
  /-- `do_syscall` returns `r` in `$v0`. -/
  | value (r : Word)
  /-- The handler returns to the frame below `KSTACKTOP`. -/
  | frame
  /-- `env_run` loads the context of the current environment. -/
  | switch

/-- What the kernel does on a trap, after the registers have been saved in `k.ktf`. -/
inductive Trapped (M : Machine) (k : Kern) : Trap → Resume → Kern → Prop
  | entryReturns {x : Entry} {r : Word} {k' : Kern} (h : enter M k x = .ok (some r, k')) :
    Trapped M k (.entry x) (.value r) k'
  | entrySwitches {x : Entry} {k' : Kern} (h : enter M k x = .ok (none, k')) :
    Trapped M k (.entry x) .switch k'
  | ptr {u u' : UserKern} {c : PtrCall} {r : Word} (hu : u.kern = k) (h0 : u.touched = [])
    (h : c.run u = .ok (some r, u')) : Trapped M k (.ptr u c) (.value r) u'.kern
  | quiet {r : Word} : Trapped M k .quiet (.value r) k
  | allocShellId {id : Word} {c : EnvPtr} (h : k.curenv = some c) :
    Trapped M k (.allocShellId id) (.value 0) (k.setEnv c fun x => { x with shellId := id })
  | tlbMod {pm : PhysMem} {k' : Kern} (h : doTlbMod k pm = .ok k') :
    Trapped M k (.tlbMod pm) .frame k'
  | tlbRefill {va asid w : Word} {pm : PhysMem}
    (h : RefillsTo M k.pm k.curPgdir va asid (.ok (w, pm))) :
    Trapped M k (.tlbRefill va asid) .frame { k with pm := pm.tlbWrite asid va w }

/-- The frame that `ret_from_exception` loads. -/
def Resume.loaded (k : Kern) : Resume → Trapframe
  | .value r => { k.ktf with regs := Function.update k.ktf.regs 2 r }
  | .frame => k.ktf
  | .switch =>
    match k.curenv with
    | some c => (k.envs c).tf
    | none => k.ktf

/-- The kernel, and the frame that the current environment was resumed from. -/
structure Running where
  kern : Kern
  loaded : Trapframe

/-- If an environment runs, its registers `tf` are saved below `KSTACKTOP`. -/
def Running.Saves (s : Running) (tf : Trapframe) : Prop :=
  ∀ c, s.kern.curenv = some c → SavedBelowTop tf

/-- A trap from the registers `tf`: the processor saves the mode of the current environment in
`STATUS_KUp`, and the trap code saves the registers. Registers that are saved elsewhere overwrite
any part of the kernel; then nothing is known of the state after the trap. -/
def Running.Step (M : Machine) (x : Trap) (tf : Trapframe) (s s' : Running) : Prop :=
  (∀ c, s.kern.curenv = some c → (UserStatus tf ↔ UserStatus s.loaded)) ∧
    (s.Saves tf → ∃ r, Trapped M (s.kern.trap tf) x r s'.kern ∧ s'.loaded = r.loaded s'.kern)

/-- The lengths of `env_path` and of the fields of `struct Var`. -/
def pathLen : ℕ := 1024
def varNameLen : ℕ := 128
def varValueLen : ℕ := 1024

/-- The user string at `va` has its null byte within `n` bytes. -/
def Fits (u : UserKern) (va : Word) (n : ℕ) : Prop := ∃ i < n, bytesAt u.user va i = 0

/-- The saved contexts of the environments in use are those of user programs; the environments of
the free list are free, and the current one is not. -/
structure UserContexts (k : Kern) : Prop where
  saved : ∀ e, (k.envs e).status ≠ .free → UserStatus (k.envs e).tf
  cur : ∀ c, k.curenv = some c → (k.envs c).status ≠ .free
  free : ∀ e ∈ k.envFreeList, (k.envs e).status = .free
  free_nodup : k.envFreeList.Nodup

variable {M : Machine} {k k' k1 : Kern} {e c x : EnvPtr} {r envid : Word} {o : Option Word}

/-- What `schedule` does to the contexts: it saves that of the current environment. -/
lemma schedule_contexts {yield : Bool} (h : schedule k yield = .ok k') :
    ∃ e, (k.envs e).status = .runnable ∧ k'.curenv = some e ∧ ∀ x,
      (k'.envs x).status = (k.envs x).status ∧
      (k'.envs x).tf = if k.curenv = some x then k.ktf else (k.envs x).tf := by
  obtain ⟨k1, e, henvs, hcur, hktf, hrun⟩ : ∃ k1 e, k1.envs = k.envs ∧ k1.curenv = k.curenv ∧
      k1.ktf = k.ktf ∧ envRun k1 e = .ok k' := by
    unfold schedule at h
    rcases hs : stays k yield with _ | e
    · rw [hs] at h
      simp only [bind_eq_ok] at h
      obtain ⟨k1, hq, ⟨e, k2⟩, hp, h⟩ := h
      have hk2 : k2.envs = k1.envs ∧ k2.curenv = k1.curenv ∧ k2.ktf = k1.ktf := by
        unfold pickEnv at hp
        split at hp
        · simp at hp
        · obtain ⟨-, rfl⟩ := pure_pair_inj hp
          exact ⟨rfl, rfl, rfl⟩
      rcases requeue_cases hq with rfl | ⟨_, _, _, -, -, -, -, rfl⟩
      · exact ⟨{ k2 with count := k2.count - 1 }, e, hk2.1, hk2.2.1, hk2.2.2, h⟩
      · exact ⟨{ k2 with count := k2.count - 1 }, e, hk2.1, hk2.2.1, hk2.2.2, h⟩
    · rw [hs] at h
      simp only [pure_eq_ok, ok_bind] at h
      exact ⟨{ k with count := k.count - 1 }, e, rfl, rfl, rfl, h⟩
  unfold envRun at hrun
  split_ifs at hrun with hr
  simp only [pure_eq_ok, Except.ok.injEq] at hrun
  subst hrun
  -- `env_runs` of the chosen environment changes after the context has been saved
  have hswitch : ∀ x, ((switchTo (saveContext k1) e).envs x).status = ((saveContext k1).envs x).status ∧
      ((switchTo (saveContext k1) e).envs x).tf = ((saveContext k1).envs x).tf := by
    intro x
    by_cases hx : x = e
    · subst hx
      simp [switchTo]
    · simp [switchTo, Kern.setEnv_envs_of_ne, hx]
  have hsave : ∀ x, ((saveContext k1).envs x).status = (k1.envs x).status ∧
      ((saveContext k1).envs x).tf = if k1.curenv = some x then k1.ktf else (k1.envs x).tf := by
    intro x
    unfold saveContext
    rcases hc : k1.curenv with _ | cur
    · exact ⟨rfl, rfl⟩
    · by_cases hx : x = cur
      · subst hx
        simp
      · have hne : cur ≠ x := fun he => hx he.symm
        simp [Kern.setEnv_envs_of_ne, hx, hne]
  refine ⟨e, by rw [← henvs]; exact not_not.mp hr, rfl, fun x => ?_⟩
  rw [(hswitch x).1, (hswitch x).2, (hsave x).1, ← henvs, ← hcur, ← hktf]
  exact ⟨rfl, (hsave x).2⟩

/-- `schedule` keeps the saved frames in user mode, if the entry frame is. -/
lemma UserContexts.schedule {yield : Bool} (hk : UserContexts k)
    (htf : ∀ c, k.curenv = some c → UserStatus k.ktf) (h : schedule k yield = .ok k') :
    UserContexts k' := by
  obtain ⟨e, hrun, hcur, hx⟩ := schedule_contexts h
  obtain ⟨_, hd⟩ := schedule_dispatched h
  refine ⟨fun x hlive => ?_, fun c hc => ?_, fun x hxf => ?_, hd.free ▸ hk.free_nodup⟩
  · obtain ⟨hst, htf'⟩ := hx x
    rw [htf']
    split_ifs with hc
    · exact htf x hc
    · exact hk.saved x (hst ▸ hlive)
  · rw [hcur, Option.some.injEq] at hc
    rw [← hc, (hx e).1, hrun]
    decide
  · rw [(hx x).1]
    exact hk.free x (hd.free ▸ hxf)

/-- The invariant looks at the environments, the current one and the free list. -/
lemma UserContexts.congr (hk : UserContexts k) (henvs : k'.envs = k.envs)
    (hcur : k'.curenv = k.curenv) (hfree : k'.envFreeList = k.envFreeList) : UserContexts k' where
  saved e := by rw [henvs]; exact hk.saved e
  cur c := by rw [henvs, hcur]; exact hk.cur c
  free e := by rw [henvs, hfree]; exact hk.free e
  free_nodup := hfree ▸ hk.free_nodup

/-- One environment changes, and perhaps the free list. -/
lemma UserContexts.change (hk : UserContexts k) (y : Env) (hcur : k'.curenv = k.curenv)
    (henvs : k'.envs = Function.update k.envs e y)
    (htf : y.status ≠ .free → UserStatus y.tf) (hlive : k.curenv = some e → y.status ≠ .free)
    (hfree : ∀ x ∈ k'.envFreeList, x ≠ e ∧ x ∈ k.envFreeList ∨ x = e ∧ y.status = .free)
    (hnodup : k'.envFreeList.Nodup) : UserContexts k' where
  saved x hx := by
    rw [henvs] at hx ⊢
    by_cases hxe : x = e
    · subst hxe
      rw [Function.update_self] at hx ⊢
      exact htf hx
    · rw [Function.update_of_ne hxe] at hx ⊢
      exact hk.saved x hx
  cur x hx := by
    rw [hcur] at hx
    rw [henvs]
    by_cases hxe : x = e
    · subst hxe
      rw [Function.update_self]
      exact hlive hx
    · rw [Function.update_of_ne hxe]
      exact hk.cur x hx
  free x hx := by
    rw [henvs]
    rcases hfree x hx with ⟨hxe, hx⟩ | ⟨rfl, hy⟩
    · rw [Function.update_of_ne hxe]
      exact hk.free x hx
    · rw [Function.update_self]
      exact hy
  free_nodup := hnodup

/-- The environments that `envid2env` finds are in use. -/
lemma UserContexts.envid2env (hk : UserContexts k) {checkperm : Bool}
    (h : envid2env k envid checkperm = .ok (.ok (some e))) : (k.envs e).status ≠ .free := by
  rcases envid2env_eq_some h with ⟨-, hc⟩ | ⟨-, -, hst, -⟩
  · exact hk.cur e hc
  · exact hst

/-- An environment that is in use changes and stays in use, with the context of a user program. -/
lemma UserContexts.setEnv (hk : UserContexts k) (hlive : (k.envs e).status ≠ .free) (f : Env → Env)
    (htf : UserStatus (f (k.envs e)).tf) (hf : (f (k.envs e)).status ≠ .free) :
    UserContexts (k.setEnv e f) := by
  refine hk.change (e := e) (f (k.envs e)) rfl rfl (fun _ => htf) (fun _ => hf) (fun x hx => ?_)
    hk.free_nodup
  exact Or.inl ⟨fun hxe => hlive (hxe ▸ hk.free x hx), hx⟩

/-! ## The entries -/

lemma envAlloc_keeps {parentId : Word} {p : Except Word EnvPtr}
    (h : envAlloc M k parentId = .ok (p, k1)) : k1.ktf = k.ktf ∧ k1.curenv = k.curenv := by
  rcases envAlloc_frame h with ⟨r, -, rfl⟩ | ⟨e, frest, y, pm, bitmap, free, -, rfl, -⟩
  · exact ⟨rfl, rfl⟩
  · exact ⟨rfl, rfl⟩

lemma envDestroy_keeps (h : envDestroy M k e = .ok (true, k')) :
    k'.ktf = k.ktf ∧ k'.curenv = k.curenv := by
  obtain ⟨k1, hfree, ⟨-, hno, -⟩ | ⟨-, -, rfl⟩⟩ := envDestroy_cases h
  · cases hno
  · obtain ⟨pm, q, -, -, rfl⟩ := envFree_frame hfree
    exact ⟨rfl, rfl⟩

/-- A call that returns keeps the saved registers and the current environment. -/
theorem enter_keeps {a : Entry} (h : enter M k a = .ok (some r, k')) :
    k'.ktf = k.ktf ∧ k'.curenv = k.curenv := by
  cases a with
  | envCreate binary priority =>
    obtain ⟨x, -, h⟩ := bind_eq_ok.mp h
    simp at h
  | timer | yield =>
    obtain ⟨x, -, h⟩ := bind_eq_ok.mp h
    simp at h
  | envDestroy envid =>
    rcases sysEnvDestroy_cases h with ⟨-, rfl⟩ | ⟨x, returned, -, hd, ho⟩
    · exact ⟨rfl, rfl⟩
    · cases returned with
      | false => simp at ho
      | true => exact envDestroy_keeps hd
  | setTlbModEntry envid func =>
    obtain ⟨r, h⟩ := returning_eq_ok h
    rcases sysSetTlbModEntry_cases h with ⟨-, rfl⟩ | ⟨x, -, -, rfl⟩
    · exact ⟨rfl, rfl⟩
    · exact ⟨rfl, rfl⟩
  | memAlloc | memMap | memUnmap =>
    obtain ⟨_, rfl⟩ := enter_onMemory h trivial
    exact ⟨rfl, rfl⟩
  | exofork =>
    obtain ⟨r, h⟩ := returning_eq_ok h
    obtain ⟨cur, _, k1, -, halloc, h⟩ := sysExofork_alloc h
    have hkeep := envAlloc_keeps halloc
    rcases h with ⟨-, rfl⟩ | ⟨x, -, -, rfl⟩ <;> exact hkeep
  | setEnvStatus envid status =>
    obtain ⟨r, h⟩ := returning_eq_ok h
    rcases sysSetEnvStatus_cases h with ⟨-, rfl⟩ | ⟨x, q, -, -, -, rfl⟩
    · exact ⟨rfl, rfl⟩
    · exact ⟨rfl, rfl⟩
  | ipcRecv dstva =>
    change sysIpcRecv k dstva = _ at h
    rcases sysIpcRecv_cases h with ⟨-, rfl⟩ | ⟨_, _, -, ho, -⟩
    · exact ⟨rfl, rfl⟩
    · cases ho
  | ipcTrySend envid value srcva perm =>
    obtain ⟨r, h⟩ := returning_eq_ok h
    rcases sysIpcTrySend_frame h with rfl | ⟨x, cur, q, pm, -, -, -, -, rfl⟩
    · exact ⟨rfl, rfl⟩
    · exact ⟨rfl, rfl⟩

/-- `env_alloc`, and what its callers do with the new environment. -/
lemma UserContexts.alloc {parentId : Word} {p : Except Word EnvPtr} (hk : UserContexts k)
    (h : envAlloc M k parentId = .ok (p, k1)) :
    (∀ r, p = .error r → UserContexts k1) ∧
      ∀ e, p = .ok e → k.curenv ≠ some e ∧ UserStatus (k1.envs e).tf ∧
        ∀ k' y, k'.curenv = k1.curenv → k'.envFreeList = k1.envFreeList →
          k'.envs = Function.update k1.envs e y → UserStatus y.tf → UserContexts k' := by
  rcases envAlloc_frame h with ⟨r, rfl, rfl⟩ |
    ⟨e, frest, y, pm, bitmap, free, hf, rfl, -, hst, -, hp⟩
  · exact ⟨fun _ _ => hk, by simp⟩
  have hmem : e ∈ k.envFreeList := hf ▸ List.mem_cons_self
  have he : y.status = .free := hst.trans (hk.free e hmem)
  have hne : k.curenv ≠ some e := fun hc => hk.cur e hc (hk.free e hmem)
  obtain ⟨hnot, hnodup⟩ := List.nodup_cons.mp (hf ▸ hk.free_nodup)
  refine ⟨fun r hr => ?_, fun x hx => ?_⟩
  · rcases hp with ⟨r', -, rfl⟩ | ⟨rfl, -⟩
    · refine hk.change (e := e) y rfl rfl (fun hy => absurd he hy) (fun hc => absurd hc hne)
        (fun x hx => ?_) hk.free_nodup
      by_cases hxe : x = e
      · exact Or.inr ⟨hxe, he⟩
      · exact Or.inl ⟨hxe, hx⟩
    · simp at hr
  · rcases hp with ⟨r, rfl, -⟩ | ⟨rfl, rfl, htf⟩
    · simp at hx
    obtain rfl : e = x := by simpa using hx
    refine ⟨hne, ?_, fun k' z hc hl henvs hz => ?_⟩
    · change UserStatus (Function.update k.envs e y e).tf
      rw [Function.update_self, htf]
      change userStatus &&& statusKUp ≠ 0
      decide
    · refine hk.change (e := e) z hc (henvs.trans (Function.update_idem ..)) (fun _ => hz)
        (fun hcur => absurd hcur hne) (fun x hx => Or.inl ?_) (hl ▸ hnodup)
      have hx : x ∈ free := by rwa [hl] at hx
      exact ⟨fun hxe => hnot (hxe ▸ hx), hf ▸ List.mem_cons_of_mem _ hx⟩

/-- `env_destroy` keeps the saved frames in user mode. -/
lemma UserContexts.envDestroy {returned : Bool} (hk : UserContexts k)
    (hlive : (k.envs e).status ≠ .free)
    (h : envDestroy M k e = .ok (returned, k')) : UserContexts k' := by
  obtain ⟨k1, hfree, h⟩ := envDestroy_cases h
  obtain ⟨pm, q, -, -, rfl⟩ := envFree_frame hfree
  have hnot : e ∉ k.envFreeList := fun he => hlive (hk.free e he)
  have hnodup : (e :: k.envFreeList).Nodup := List.nodup_cons.mpr ⟨hnot, hk.free_nodup⟩
  have hmem : ∀ x ∈ e :: k.envFreeList, x ≠ e ∧ x ∈ k.envFreeList ∨ x = e ∧ True := by
    intro x hx
    rcases List.mem_cons.mp hx with rfl | hx
    · exact Or.inr ⟨rfl, trivial⟩
    · exact Or.inl ⟨fun hxe => hnot (hxe ▸ hx), hx⟩
  rcases h with ⟨hcur, -, hs⟩ | ⟨hcur, -, rfl⟩
  · refine UserContexts.schedule ?_ (fun c hc => by simp at hc) hs
    have hnone : UserContexts { k with curenv := none } :=
      ⟨hk.saved, fun c hc => by simp at hc, hk.free, hk.free_nodup⟩
    exact hnone.change (e := e) { k.envs e with status := .free } rfl rfl (fun hy => absurd rfl hy)
      (fun hc => by simp at hc) (fun x hx => by simpa using hmem x hx) hnodup
  · exact hk.change (e := e) { k.envs e with status := .free } rfl rfl (fun hy => absurd rfl hy)
      (fun hc => absurd hc hcur) (fun x hx => by simpa using hmem x hx) hnodup

/-- **An entry keeps the contexts of user programs**, if the saved frame is one. -/
theorem UserContexts.enter {a : Entry} (hk : UserContexts k)
    (htf : ∀ c, k.curenv = some c → UserStatus k.ktf) (h : enter M k a = .ok (o, k')) :
    UserContexts k' := by
  cases a with
  | envCreate binary priority =>
    obtain ⟨⟨x', k1⟩, hc, h⟩ := bind_eq_ok.mp h
    obtain ⟨rfl, rfl⟩ := pure_pair_inj h
    obtain ⟨k2, pm, epc, k3, halloc, rfl, rfl⟩ := envCreate_cases hc
    obtain ⟨-, hok⟩ := hk.alloc halloc
    obtain ⟨-, hnew, hset⟩ := hok x' rfl
    refine hset _ { k2.envs x' with
      pri := priority, status := .runnable, tf := { (k2.envs x').tf with cp0Epc := epc } } rfl rfl ?_
      hnew
    simp only [Kern.setEnv, Function.update_self, Function.update_idem]
  | timer | yield =>
    obtain ⟨_, hs⟩ := enter_schedules h trivial
    exact hk.schedule htf hs
  | envDestroy envid =>
    rcases sysEnvDestroy_cases h with ⟨-, rfl⟩ | ⟨x, returned, hid, hd, rfl⟩
    · exact hk
    · exact hk.envDestroy (hk.envid2env hid) hd
  | setTlbModEntry envid func =>
    obtain ⟨r, h⟩ := returning_eq_ok h
    rcases sysSetTlbModEntry_cases h with ⟨-, rfl⟩ | ⟨x, hid, -, rfl⟩
    · exact hk
    · have hlive := hk.envid2env hid
      exact hk.setEnv hlive _ (hk.saved x hlive) hlive
  | memAlloc | memMap | memUnmap =>
    obtain ⟨_, rfl⟩ := enter_onMemory h trivial
    exact hk.congr rfl rfl rfl
  | exofork =>
    obtain ⟨r, h⟩ := returning_eq_ok h
    obtain ⟨cur, _, k1, hcur, halloc, h⟩ := sysExofork_alloc h
    obtain ⟨herr, hok⟩ := hk.alloc halloc
    rcases h with ⟨rfl, rfl⟩ | ⟨x, rfl, -, rfl⟩
    · exact herr _ rfl
    · refine (hok x rfl).2.2 _ _ rfl rfl rfl ?_
      -- the child starts from the frame of its parent
      change UserStatus k1.ktf
      rw [(envAlloc_keeps halloc).1]
      exact htf cur hcur
  | setEnvStatus envid status =>
    obtain ⟨r, h⟩ := returning_eq_ok h
    rcases sysSetEnvStatus_cases h with ⟨-, rfl⟩ | ⟨x, q, hid, -, -, rfl⟩
    · exact hk
    · have hlive := hk.envid2env hid
      have hne : EnvStatus.ofWord status ≠ .free := by
        unfold EnvStatus.ofWord
        split_ifs <;> simp
      exact (hk.setEnv hlive (fun x => { x with status := .ofWord status }) (hk.saved x hlive)
        hne).congr rfl rfl rfl
  | ipcRecv dstva =>
    change sysIpcRecv k dstva = _ at h
    rcases sysIpcRecv_cases h with ⟨-, rfl⟩ | ⟨cur, q, -, rfl, hc, -, hs⟩
    · exact hk
    · have hlive := hk.cur cur hc
      have hwait := hk.setEnv hlive
        (fun x => { x with ipcRecving := 1, ipcDstva := dstva, status := .notRunnable })
        (hk.saved cur hlive) (by simp)
      refine UserContexts.schedule ?_ ?_ hs
      · exact hwait.congr rfl rfl rfl
      · exact fun c _ => htf cur hc
  | ipcTrySend envid value srcva perm =>
    obtain ⟨r, h⟩ := returning_eq_ok h
    rcases sysIpcTrySend_frame h with rfl | ⟨x, cur, q, pm, -, hid, -, -, rfl⟩
    · exact hk
    have hlive := hk.envid2env hid
    have hrecv : UserContexts (k.received x cur value perm) :=
      hk.setEnv hlive _ (hk.saved x hlive) (by simp)
    exact hrecv.congr rfl rfl rfl

/-! ## The other traps -/

/-- The two kernels agree on contexts and statuses. -/
structure SameContexts (k k' : Kern) : Prop where
  ktf : k'.ktf = k.ktf
  cur : k'.curenv = k.curenv
  free : k'.envFreeList = k.envFreeList
  env : ∀ x, (k'.envs x).tf = (k.envs x).tf ∧ (k'.envs x).status = (k.envs x).status

lemma SameContexts.refl (k : Kern) : SameContexts k k := ⟨rfl, rfl, rfl, fun _ => ⟨rfl, rfl⟩⟩

lemma SameContexts.trans (h : SameContexts k k1) (h' : SameContexts k1 k') : SameContexts k k' where
  ktf := h'.ktf.trans h.ktf
  cur := h'.cur.trans h.cur
  free := h'.free.trans h.free
  env x := ⟨(h'.env x).1.trans (h.env x).1, (h'.env x).2.trans (h.env x).2⟩

lemma sameContexts_strcpyPath (u : UserKern) (e : EnvPtr) (va : Word) :
    SameContexts u.kern (u.strcpyPath e va).kern := by
  have hk : (u.strcpyPath e va).kern = u.kern.setEnv e fun x =>
      { x with path := strcpy x.path (bytesAt u.user va) } := rfl
  refine ⟨rfl, rfl, rfl, fun x => ?_⟩
  rw [hk]
  exact ⟨u.kern.setEnv_keeps e _ Env.tf rfl x, u.kern.setEnv_keeps e _ Env.status rfl x⟩

/-- Only paths are written. -/
lemma changeDirLoop_kern {va : Word} {fuel : ℕ} {parent : EnvPtr} {u u' : UserKern}
    {p : Option (Except Word Unit)}
    (h : UserKern.changeDirLoop va fuel parent u = .ok (p, u')) : SameContexts u.kern u'.kern := by
  induction fuel generalizing parent u with
  | zero =>
    simp only [UserKern.changeDirLoop, pure_eq_ok, Except.ok.injEq, Prod.mk.injEq] at h
    exact h.2 ▸ .refl _
  | succ fuel ih =>
    rw [UserKern.changeDirLoop] at h
    split_ifs at h
    · replace h := pure_pair_inj h
      exact h.2 ▸ .refl _
    · obtain ⟨q, -, h⟩ := bind_eq_ok.mp h
      rcases q with r | q
      · replace h := pure_pair_inj h
        exact h.2 ▸ .refl _
      · obtain ⟨next, -, h⟩ := bind_eq_ok.mp h
        exact (sameContexts_strcpyPath u next va).trans (ih h)

/-- `sys_change_dir` leaves the frames. -/
lemma sysChangeDir_kern {envPath changeParent : Word} {u u' : UserKern}
    (h : u.sysChangeDir envPath changeParent = .ok (o, u')) : SameContexts u.kern u'.kern := by
  unfold UserKern.sysChangeDir at h
  obtain ⟨cur, -, h⟩ := bind_eq_ok.mp h
  split_ifs at h
  · obtain ⟨⟨p, u1⟩, hloop, h⟩ := bind_eq_ok.mp h
    have h1 := changeDirLoop_kern hloop
    rcases p with _ | r | _
    · replace h := pure_pair_inj h
      exact h.2 ▸ h1
    · replace h := pure_pair_inj h
      exact h.2 ▸ h1
    · replace h := pure_pair_inj h
      exact h.2 ▸ h1.trans (sameContexts_strcpyPath u1 cur envPath)
  · replace h := pure_pair_inj h
    exact h.2 ▸ sameContexts_strcpyPath u cur envPath

lemma checkVar_kern (u : UserKern) (cur : EnvPtr) (varName : Word) (needfill : Bool) :
    (u.checkVar cur varName needfill).2.kern = u.kern := by
  obtain ⟨l, hl, -⟩ := checkVar_below u cur varName needfill
  rw [hl]

lemma getAllVarLoop_kern {cur : EnvPtr} {buf : Word} (l : List ℕ) (cnt : ℕ) (u : UserKern) :
    (UserKern.getAllVarLoop cur buf l cnt u).2.kern = u.kern := by
  induction l generalizing cnt u with
  | nil => rfl
  | cons i l ih =>
    rw [UserKern.getAllVarLoop]
    split_ifs
    · exact ih cnt u
    · exact ih (cnt + 1) _
    · exact ih cnt u

/-- What a call with pointers does to the kernel: it sets a frame in `sys_set_trapframe`, or paths. -/
lemma PtrCall.run_kern {u u' : UserKern} {c : PtrCall} (h : c.run u = .ok (o, u')) :
    SameContexts u.kern u'.kern ∨ ∃ envid tf e, c = .setTrapframe envid tf ∧
      isIllegalVaRange tf sizeofTrapframe = false ∧
      envid2env u.kern envid true = .ok (.ok (some e)) ∧
      o = some (MosVolca.setTrapframe u.kern e (readTrapframe u.user tf)).1 ∧
      u'.kern = (MosVolca.setTrapframe u.kern e (readTrapframe u.user tf)).2 := by
  cases c with
  | printCons s num =>
    simp only [run, UserKern.sysPrintCons, pure_eq_ok, Except.ok.injEq, Prod.mk.injEq] at h
    left
    rw [← h.2]
    split_ifs <;> exact .refl _
  | setTrapframe envid tf =>
    obtain ⟨⟨r, u1⟩, hs, h⟩ := bind_eq_ok.mp h
    obtain ⟨rfl, rfl⟩ := pure_pair_inj h
    unfold UserKern.sysSetTrapframe at hs
    split_ifs at hs with hva
    · replace hs := pure_pair_inj hs
      exact Or.inl (hs.2 ▸ .refl _)
    obtain ⟨p, hid, hs⟩ := bind_eq_ok.mp hs
    rcases p with r' | p
    · replace hs := pure_pair_inj hs
      exact Or.inl (hs.2 ▸ .refl _)
    · simp only [bind_eq_ok, pure_eq_ok, Except.ok.injEq, Prod.mk.injEq] at hs
      obtain ⟨e, hp, rfl, rfl⟩ := hs
      rw [deref_eq_ok.mp hp] at hid
      exact Or.inr ⟨envid, tf, e, rfl, Bool.eq_false_iff.mpr hva, hid, rfl, rfl⟩
  | writeDev va pa len =>
    simp only [run, UserKern.sysWriteDev, pure_eq_ok, Except.ok.injEq, Prod.mk.injEq] at h
    left
    rw [← h.2]
    split_ifs <;> exact .refl _
  | readDev va pa len =>
    simp only [run, UserKern.sysReadDev, pure_eq_ok, Except.ok.injEq, Prod.mk.injEq] at h
    left
    rw [← h.2]
    split_ifs <;> exact .refl _
  | getEnvPath envid envPath =>
    obtain ⟨⟨r, u1⟩, hs, h⟩ := bind_eq_ok.mp h
    obtain ⟨-, rfl⟩ := pure_pair_inj h
    obtain ⟨p, -, hs⟩ := bind_eq_ok.mp hs
    rcases p with r' | p
    · replace hs := pure_pair_inj hs
      exact Or.inl (hs.2 ▸ .refl _)
    · simp only [bind_eq_ok, pure_eq_ok, Except.ok.injEq, Prod.mk.injEq] at hs
      obtain ⟨e, -, -, rfl⟩ := hs
      exact Or.inl (.refl _)
  | changeDir envPath changeParent => exact Or.inl (sysChangeDir_kern h)
  | declareVar varName value perm isGlobal =>
    obtain ⟨⟨r, u1⟩, hs, h⟩ := bind_eq_ok.mp h
    obtain ⟨-, rfl⟩ := pure_pair_inj h
    obtain ⟨cur, -, hs⟩ := bind_eq_ok.mp hs
    have hk := checkVar_kern u cur varName true
    rcases hc : u.checkVar cur varName true with ⟨p, u2⟩
    rw [hc] at hk hs
    left
    rcases p with _ | i
    · replace hs := pure_pair_inj hs
      rw [← hs.2, hk]
      exact .refl _
    · simp only at hs
      split_ifs at hs
      all_goals
        replace hs := pure_pair_inj hs
        rw [← hs.2, ← hk]
        exact .refl _
  | unsetVar varName =>
    obtain ⟨⟨r, u1⟩, hs, h⟩ := bind_eq_ok.mp h
    obtain ⟨-, rfl⟩ := pure_pair_inj h
    obtain ⟨cur, -, hs⟩ := bind_eq_ok.mp hs
    have hk := checkVar_kern u cur varName false
    rcases hc : u.checkVar cur varName false with ⟨p, u2⟩
    rw [hc] at hk hs
    left
    rcases p with _ | i
    · replace hs := pure_pair_inj hs
      rw [← hs.2, hk]
      exact .refl _
    · simp only at hs
      split_ifs at hs
      all_goals
        replace hs := pure_pair_inj hs
        rw [← hs.2, ← hk]
        exact .refl _
  | getVar varName valueBuf =>
    obtain ⟨⟨r, u1⟩, hs, h⟩ := bind_eq_ok.mp h
    obtain ⟨-, rfl⟩ := pure_pair_inj h
    obtain ⟨cur, -, hs⟩ := bind_eq_ok.mp hs
    have hk := checkVar_kern u cur varName false
    rcases hc : u.checkVar cur varName false with ⟨p, u2⟩
    rw [hc] at hk hs
    left
    rcases p with _ | i
    all_goals
      replace hs := pure_pair_inj hs
      rw [← hs.2, ← hk]
      exact .refl _
  | getAllVar buf =>
    obtain ⟨⟨r, u1⟩, hs, h⟩ := bind_eq_ok.mp h
    obtain ⟨-, rfl⟩ := pure_pair_inj h
    obtain ⟨cur, -, hs⟩ := bind_eq_ok.mp hs
    simp only [pure_eq_ok, Except.ok.injEq, Prod.mk.injEq] at hs
    left
    rw [← hs.2, getAllVarLoop_kern]
    exact .refl _

end MosVolca
