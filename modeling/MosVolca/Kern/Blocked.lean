import MosVolca.Kern.Receivers

/-!
# Blocked environments

An environment that has called `sys_ipc_recv` stays blocked until a message is delivered to it,
whatever the others do, unless `sys_set_env_status` wakes it or a new environment is created in its
slot. The slot of every environment is in its identifier.

## Main definitions

* `MosVolca.Blocked` — the environment waits for a message, and is neither runnable nor current.
* `MosVolca.Spared` — the entries that leave a blocked environment alone.
* `MosVolca.SlotIds` — the slots are in the identifiers.

## Main results

* `MosVolca.Blocked.step` — a blocked environment stays blocked, or is sent a message.
* `MosVolca.SlotIds.step` — every entry keeps the identifiers.
-/

namespace MosVolca

variable {M : Machine} {k k' k1 : Kern} {e c x : EnvPtr} {tf : Trapframe} {n t : ℕ} {a : Entry}
  {o : Option Word} {σ : ℕ → Kern} {act : ℕ → Entry} {res : ℕ → Option Word}

/-- The environment `e` waits for a message, and it is neither runnable nor the current one. -/
structure Blocked (k : Kern) (e : EnvPtr) : Prop where
  recving : (k.envs e).ipcRecving ≠ 0
  status : (k.envs e).status ≠ .runnable
  cur : k.curenv ≠ some e

/-- The entry creates no environment in the slot `e`, and does not make `e` runnable by
`sys_set_env_status` while it waits. -/
def Spared (k : Kern) (e : EnvPtr) : Entry → Prop
  | .envCreate _ _ | .exofork => ∀ rest, k.envFreeList ≠ e :: rest
  | .setEnvStatus envid status => status = envRunnable →
    envid2env k envid true = .ok (.ok (some e)) → (k.envs e).ipcRecving = 0
  | _ => True

/-- The entry is a message to `e` that passes the checks of `sys_ipc_try_send`. -/
def DeliveredTo (k : Kern) (a : Entry) (e : EnvPtr) : Prop :=
  ∃ envid value srcva perm cur, a = .ipcTrySend envid value srcva perm ∧
    (srcva = 0 ∨ isIllegalVa srcva = false) ∧ envid2env k envid false = .ok (.ok (some e)) ∧
    (k.envs e).ipcRecving ≠ 0 ∧ k.curenv = some cur

/-! ## One entry -/

/-- A switch does not wake up who waits for a message. -/
lemma Blocked.dispatched (hrecv : (k.envs e).ipcRecving ≠ 0) (hst : (k.envs e).status ≠ .runnable)
    (hd : Dispatched k k' c) : Blocked k' e where
  recving := (hd.envs e).sameMessage.ipcRecving ▸ hrecv
  status := hd.status e ▸ hst
  cur hc := by
    rw [hd.cur, Option.some.injEq] at hc
    exact hst (hc ▸ hd.runnable)

lemma Blocked.congr (h : Blocked k e) (hrecv : (k'.envs e).ipcRecving = (k.envs e).ipcRecving)
    (hst : (k'.envs e).status ≠ .runnable) (hc : k'.curenv = k.curenv) : Blocked k' e :=
  ⟨hrecv ▸ h.recving, hst, hc ▸ h.cur⟩

lemma Blocked.setEnv (h : Blocked k e) {f : Env → Env}
    (hrecv : (f (k.envs x)).ipcRecving = (k.envs x).ipcRecving)
    (hst : x = e → (f (k.envs x)).status ≠ .runnable) : Blocked (k.setEnv x f) e := by
  by_cases hx : e = x
  · subst hx
    refine h.congr ?_ ?_ rfl
    · rw [Kern.setEnv_envs_same, hrecv]
    · rw [Kern.setEnv_envs_same]
      exact hst rfl
  · refine h.congr ?_ ?_ rfl
    · rw [Kern.setEnv_envs_of_ne _ _ hx]
    · rw [Kern.setEnv_envs_of_ne _ _ hx]
      exact h.status

/-- `env_alloc` in another slot. -/
lemma Blocked.alloc {parentId : Word} {p : Except Word EnvPtr} (h : Blocked k e)
    (hs : ∀ rest, k.envFreeList ≠ e :: rest) (ha : envAlloc M k parentId = .ok (p, k1)) :
    Blocked k1 e ∧ p ≠ .ok e := by
  rcases envAlloc_frame ha with ⟨r, rfl, rfl⟩ |
    ⟨x, frest, y, pm, bitmap, free, hf, rfl, -, -, -, hp⟩
  · exact ⟨h, by simp⟩
  · have hx : e ≠ x := fun hx => hs frest (hx ▸ hf)
    refine ⟨h.congr ?_ ?_ rfl, ?_⟩
    · exact congrArg Env.ipcRecving (Function.update_of_ne hx _ _)
    · rw [show (Function.update k.envs x y e).status = (k.envs e).status from
        congrArg Env.status (Function.update_of_ne hx _ _)]
      exact h.status
    · rcases hp with ⟨r, rfl, -⟩ | ⟨rfl, -⟩
      · simp
      · simpa using Ne.symm hx

/-- `sys_ipc_recv` blocks its caller. -/
lemma blocked_of_recv {dstva : Word} (h : enter M (k.trap tf) (.ipcRecv dstva) = .ok (none, k'))
    (hc : k.curenv = some e) : Blocked k' e ∧ (k'.envs e).ipcDstva = dstva := by
  rcases sysIpcRecv_dispatched h with ⟨ho, -⟩ | ⟨cur, k1, c, -, hcur, hd, he⟩
  · simp at ho
  obtain rfl : e = cur := Option.some.inj (hc.symm.trans hcur)
  have hself : k1.envs e = { (k.trap tf).envs e with
      ipcRecving := 1, ipcDstva := dstva, status := .notRunnable } := by
    rw [he, Kern.setEnv_envs_same]
  refine ⟨.dispatched ?_ ?_ hd, ?_⟩
  · rw [hself]
    show (1 : Word) ≠ 0
    decide
  · rw [hself]
    show EnvStatus.notRunnable ≠ .runnable
    decide
  · rw [(hd.envs e).sameMessage.ipcDstva, hself]

/-- **A blocked environment stays blocked**, or is sent a message, whatever the entry is. -/
theorem Blocked.step (hb : Blocked k e) (hs : Spared k e a)
    (h : enter M (k.trap tf) a = .ok (o, k')) : Blocked k' e ∨ DeliveredTo k a e := by
  have htrap : Blocked (k.trap tf) e := hb.congr rfl hb.status rfl
  have hsched : ∀ {yield : Bool} {k k' : Kern}, (k.envs e).ipcRecving ≠ 0 →
      (k.envs e).status ≠ .runnable → schedule k yield = .ok k' → Blocked k' e := by
    intro yield k k' hrecv hst hs
    obtain ⟨c, hd⟩ := schedule_dispatched hs
    exact .dispatched hrecv hst hd
  cases a with
  | envCreate binary priority =>
    obtain ⟨⟨x', k1⟩, hc, h⟩ := bind_eq_ok.mp h
    obtain ⟨-, rfl⟩ := pure_pair_inj h
    obtain ⟨k2, pm, epc, k3, ha, rfl, rfl⟩ := envCreate_cases hc
    obtain ⟨hb2, hp⟩ := htrap.alloc hs ha
    have hx : x' ≠ e := by simpa using hp
    have hb3 := hb2.setEnv (x := x') (f := fun x => { x with pri := priority, status := .runnable })
      rfl fun h => absurd h hx
    have hb4 := hb3.setEnv (x := x') (f := fun x => { x with tf := { x.tf with cp0Epc := epc } })
      rfl fun h => absurd h hx
    exact Or.inl ⟨hb4.recving, hb4.status, hb4.cur⟩
  | timer | yield =>
    obtain ⟨_, hs⟩ := enter_schedules h trivial
    exact Or.inl (hsched htrap.recving htrap.status hs)
  | envDestroy envid =>
    left
    rcases sysEnvDestroy_cases h with ⟨-, rfl⟩ | ⟨x, returned, -, hd, -⟩
    · exact htrap
    obtain ⟨k1, hfree, hd⟩ := envDestroy_cases hd
    obtain ⟨pm, q, -, -, rfl⟩ := envFree_frame hfree
    have hx : Blocked ((k.trap tf).setEnv x fun y => { y with status := .free }) e :=
      htrap.setEnv rfl fun _ => by simp
    rcases hd with ⟨-, -, hs⟩ | ⟨-, -, rfl⟩
    · refine hsched ?_ ?_ hs
      · exact hx.recving
      · exact hx.status
    · exact ⟨hx.recving, hx.status, hx.cur⟩
  | setTlbModEntry envid func =>
    obtain ⟨r, h⟩ := returning_eq_ok h
    rcases sysSetTlbModEntry_cases h with ⟨-, rfl⟩ | ⟨x, -, -, rfl⟩
    · exact Or.inl htrap
    · exact Or.inl (htrap.setEnv rfl fun hx => hx ▸ htrap.status)
  | memAlloc | memMap | memUnmap =>
    obtain ⟨_, rfl⟩ := enter_onMemory h trivial
    exact Or.inl (htrap.congr rfl htrap.status rfl)
  | exofork =>
    obtain ⟨r, h⟩ := returning_eq_ok h
    obtain ⟨cur, p, k1, -, ha, h⟩ := sysExofork_alloc h
    obtain ⟨hb1, hp⟩ := htrap.alloc hs ha
    left
    rcases h with ⟨-, rfl⟩ | ⟨x, rfl, -, rfl⟩
    · exact hb1
    · have hx : x ≠ e := by simpa using hp
      exact hb1.setEnv rfl fun h => absurd h hx
  | setEnvStatus envid status =>
    obtain ⟨r, h⟩ := returning_eq_ok h
    left
    rcases sysSetEnvStatus_cases h with ⟨-, rfl⟩ | ⟨x, q, hid, -, -, rfl⟩
    · exact htrap
    · have hq : Blocked { k.trap tf with envSchedList := q } e := ⟨hb.recving, hb.status, hb.cur⟩
      refine hq.setEnv rfl fun hx => ?_
      subst hx
      have hne : status ≠ envRunnable := fun hst => hb.recving (hs hst hid)
      rw [EnvStatus.ofWord, if_neg hne]
      simp
  | ipcRecv dstva =>
    left
    rcases sysIpcRecv_dispatched h with ⟨-, rfl⟩ | ⟨cur, k1, c, rfl, hc, hd, he⟩
    · exact htrap
    have hx : e ≠ cur := fun hx => htrap.cur (hx ▸ hc)
    have hsame : k1.envs e = (k.trap tf).envs e := by rw [he, Kern.setEnv_envs_of_ne _ _ hx]
    exact .dispatched (hsame ▸ htrap.recving) (hsame ▸ htrap.status) hd
  | ipcTrySend envid value srcva perm =>
    obtain ⟨r, h⟩ := returning_eq_ok h
    rcases sysIpcTrySend_frame h with rfl | ⟨x, cur, q, pm, hva, hid, hrecv, hc, rfl⟩
    · exact Or.inl htrap
    by_cases hx : e = x
    · subst hx
      exact Or.inr ⟨envid, value, srcva, perm, cur, rfl, hva, hid, hrecv, hc⟩
    · left
      have hsent : Blocked ((k.trap tf).received x cur value perm) e := by
        unfold Kern.received
        refine htrap.congr ?_ ?_ rfl
        · rw [Kern.setEnv_envs_of_ne _ _ hx]
        · rw [Kern.setEnv_envs_of_ne _ _ hx]
          exact htrap.status
      exact ⟨hsent.recving, hsent.status, hsent.cur⟩

/-! ## Identifiers -/

/-- The slot of an environment is in its identifier, which is 0 as long as the slot has not been
used. -/
def SlotIds (k : Kern) : Prop := ∀ e, (k.envs e).id = 0 ∨ envx (k.envs e).id = e

lemma SlotIds.congr (h : SlotIds k) (hid : ∀ e, (k'.envs e).id = (k.envs e).id) : SlotIds k' :=
  fun e => (hid e).symm ▸ h e

lemma SlotIds.setEnv (h : SlotIds k) {f : Env → Env} (hid : (f (k.envs x)).id = (k.envs x).id) :
    SlotIds (k.setEnv x f) := by
  refine h.congr fun e => ?_
  by_cases hx : e = x
  · subst hx
    rw [Kern.setEnv_envs_same, hid]
  · rw [Kern.setEnv_envs_of_ne _ _ hx]

lemma SlotIds.dispatched (h : SlotIds k) (hd : Dispatched k k' c) : SlotIds k' :=
  h.congr fun e => (hd.envs e).sameMessage.id

/-- A switch changes no identifier. -/
lemma SlotIds.schedule {yield : Bool} (h : SlotIds k) (hs : schedule k yield = .ok k') :
    SlotIds k' := by
  obtain ⟨c, hd⟩ := schedule_dispatched hs
  exact h.dispatched hd

/-- `env_alloc` gives out an identifier made from the slot. -/
lemma SlotIds.alloc {parentId : Word} {p : Except Word EnvPtr} (h : SlotIds k)
    (ha : envAlloc M k parentId = .ok (p, k1)) : SlotIds k1 := by
  rcases envAlloc_frame ha with ⟨r, rfl, rfl⟩ | ⟨x, frest, y, pm, bitmap, free, hf, rfl, hid, -⟩
  · exact h
  · intro e
    by_cases hx : e = x
    · subst hx
      right
      show envx (Function.update k.envs e y e).id = e
      rw [Function.update_self, hid, envx_nextId]
    · show (Function.update k.envs x y e).id = 0 ∨ envx (Function.update k.envs x y e).id = e
      rw [Function.update_of_ne hx]
      exact h e

/-- **Every entry keeps the slots in the identifiers.** -/
theorem SlotIds.step (hk : SlotIds k) (h : enter M (k.trap tf) a = .ok (o, k')) : SlotIds k' := by
  have htrap : SlotIds (k.trap tf) := hk
  cases a with
  | envCreate binary priority =>
    obtain ⟨⟨x', k1⟩, hc, h⟩ := bind_eq_ok.mp h
    obtain ⟨-, rfl⟩ := pure_pair_inj h
    obtain ⟨k2, pm, epc, k3, ha, rfl, rfl⟩ := envCreate_cases hc
    have h1 := (htrap.alloc ha).setEnv (x := x')
      (f := fun x => { x with pri := priority, status := .runnable }) rfl
    exact (h1.setEnv (x := x') (f := fun x => { x with tf := { x.tf with cp0Epc := epc } })
      rfl).congr fun _ => rfl
  | timer | yield =>
    obtain ⟨_, hs⟩ := enter_schedules h trivial
    exact htrap.schedule hs
  | envDestroy envid =>
    rcases sysEnvDestroy_cases h with ⟨-, rfl⟩ | ⟨x, returned, -, hd, -⟩
    · exact htrap
    obtain ⟨k1, hfree, hd⟩ := envDestroy_cases hd
    obtain ⟨pm, q, -, -, rfl⟩ := envFree_frame hfree
    have hx := htrap.setEnv (x := x) (f := fun y => { y with status := .free }) rfl
    rcases hd with ⟨-, -, hs⟩ | ⟨-, -, rfl⟩
    · refine SlotIds.schedule ?_ hs
      exact hx.congr fun _ => rfl
    · exact hx.congr fun _ => rfl
  | setTlbModEntry envid func =>
    obtain ⟨r, h⟩ := returning_eq_ok h
    rcases sysSetTlbModEntry_cases h with ⟨-, rfl⟩ | ⟨x, -, -, rfl⟩
    · exact htrap
    · exact htrap.setEnv rfl
  | memAlloc | memMap | memUnmap =>
    obtain ⟨_, rfl⟩ := enter_onMemory h trivial
    exact htrap
  | exofork =>
    obtain ⟨r, h⟩ := returning_eq_ok h
    obtain ⟨cur, _, k1, -, ha, ⟨-, rfl⟩ | ⟨x, -, -, rfl⟩⟩ := sysExofork_alloc h
    · exact htrap.alloc ha
    · exact (htrap.alloc ha).setEnv rfl
  | setEnvStatus envid status =>
    obtain ⟨r, h⟩ := returning_eq_ok h
    rcases sysSetEnvStatus_cases h with ⟨-, rfl⟩ | ⟨x, q, -, -, -, rfl⟩
    · exact htrap
    · exact SlotIds.setEnv (k := { k.trap tf with envSchedList := q }) hk rfl
  | ipcRecv dstva =>
    rcases sysIpcRecv_dispatched h with ⟨-, rfl⟩ | ⟨cur, k1, c, rfl, -, hd, he⟩
    · exact htrap
    · have hset := htrap.setEnv (x := cur)
        (f := fun x => { x with ipcRecving := 1, ipcDstva := dstva, status := .notRunnable }) rfl
      exact SlotIds.dispatched (hset.congr fun _ => by rw [he]) hd
  | ipcTrySend envid value srcva perm =>
    obtain ⟨r, h⟩ := returning_eq_ok h
    rcases sysIpcTrySend_frame h with rfl | ⟨x, cur, q, pm, -, -, -, -, rfl⟩
    · exact htrap
    have hset : SlotIds ((k.trap tf).received x cur value perm) := by
      unfold Kern.received
      exact htrap.setEnv rfl
    exact hset

lemma KernRun.slotIds (hrun : KernRun M n σ act res) (h0 : SlotIds (σ 0)) (ht : t ≤ n) :
    SlotIds (σ t) := by
  induction t with
  | zero => exact h0
  | succ t ih =>
    obtain ⟨tf, hs⟩ := hrun t ht
    exact (ih (Nat.le_of_succ_le ht)).step hs

end MosVolca
