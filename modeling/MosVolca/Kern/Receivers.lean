import MosVolca.Kern.RunQueue
import MosVolca.Kern.Ipc

/-!
# Receivers

The comment of `sys_ipc_try_send` says that it fails if the target has not been waiting with
`sys_ipc_recv`. This file proves it for the runs in which no waiting environment is made runnable
by `sys_set_env_status`, and no environment is created in a slot whose last user was destroyed
while it waited: `env_alloc` does not clear `env_ipc_recving`. It also shows a run in which a
message goes to an environment that has been resumed since its call.

## Main definitions

* `MosVolca.Receivers` — the invariant: who may have `env_ipc_recving` set.
* `MosVolca.KeepsReceivers` — the entries that keep it.

## Main results

* `MosVolca.Receivers.step` — what one entry does to the waiting environments.
* `MosVolca.send_to_receiver` — what a successful send says about the run before it.
-/

namespace MosVolca

variable {M : Machine} {k k' k1 : Kern} {e c x : EnvPtr} {tf : Trapframe} {n : ℕ} {a : Entry}
  {r envid : Word} {o : Option Word}

/-- The environment `e` is in use and waits for a message. -/
def Waits (k : Kern) (e : EnvPtr) : Prop :=
  (k.envs e).ipcRecving ≠ 0 ∧ (k.envs e).status ≠ .free

/-- The two environments have the same identifier and the same message fields. -/
structure SameMessage (x y : Env) : Prop where
  id : y.id = x.id
  ipcRecving : y.ipcRecving = x.ipcRecving
  ipcValue : y.ipcValue = x.ipcValue
  ipcFrom : y.ipcFrom = x.ipcFrom
  ipcPerm : y.ipcPerm = x.ipcPerm
  ipcDstva : y.ipcDstva = x.ipcDstva

/-- Neither a runnable environment nor the current one waits for a message. -/
structure Receivers (k : Kern) : Prop where
  idle : ∀ e, (k.envs e).status = .runnable → (k.envs e).ipcRecving = 0
  cur : ∀ c, k.curenv = some c → (k.envs c).ipcRecving = 0

/-- The condition under which an entry keeps the invariant: a new environment gets a slot whose
`env_ipc_recving` is clear, and `sys_set_env_status` does not wake an environment that waits. -/
def KeepsReceivers (k : Kern) : Entry → Prop
  | .envCreate _ _ | .exofork =>
    ∀ e rest, k.envFreeList = e :: rest → (k.envs e).ipcRecving = 0
  | .setEnvStatus envid status => status = envRunnable →
    ∀ e, envid2env k envid true = .ok (.ok (some e)) → (k.envs e).ipcRecving = 0
  | _ => True

lemma SameMessage.refl (x : Env) : SameMessage x x := ⟨rfl, rfl, rfl, rfl, rfl, rfl⟩

lemma SameMessage.trans {x y z : Env} (h : SameMessage x y) (h' : SameMessage y z) :
    SameMessage x z :=
  ⟨h'.id.trans h.id, h'.ipcRecving.trans h.ipcRecving, h'.ipcValue.trans h.ipcValue,
    h'.ipcFrom.trans h.ipcFrom, h'.ipcPerm.trans h.ipcPerm, h'.ipcDstva.trans h.ipcDstva⟩

lemma Env.SameBut.sameMessage {x y : Env} (h : x.SameBut y) : SameMessage x y := by
  obtain ⟨tf, runs, rfl⟩ := h
  exact ⟨rfl, rfl, rfl, rfl, rfl, rfl⟩

/-! ## The message fields -/

/-- **What an entry does to the message fields** of an environment: nothing, unless the environment
calls `sys_ipc_recv` or is sent a message. -/
theorem enter_message (h : enter M (k.trap tf) a = .ok (o, k')) (e : EnvPtr) :
    (k'.envs e).message = (k.envs e).message ∨ RecvBy k a o e ∨
      ∃ envid value srcva perm cur, a = .ipcTrySend envid value srcva perm ∧
        envid2env k envid false = .ok (.ok (some e)) ∧ (k.envs e).ipcRecving ≠ 0 ∧
        k.curenv = some cur ∧
        (k'.envs e).message = (0, value, (k.envs cur).id, pteV ||| perm, (k.envs e).ipcDstva) := by
  have hset : ∀ (k : Kern) (x : EnvPtr) (f : Env → Env), (f (k.envs x)).message = (k.envs x).message →
      ((k.setEnv x f).envs e).message = (k.envs e).message := by
    intro k x f hf
    exact k.setEnv_keeps x f Env.message hf e
  have hdisp : ∀ {k k' : Kern} {c : EnvPtr}, Dispatched k k' c →
      (k'.envs e).message = (k.envs e).message := by
    intro k k' c hd
    obtain ⟨tf, runs, hx⟩ := hd.envs e
    rw [hx]
    rfl
  have halloc : ∀ {k k1 : Kern} {p parentId}, envAlloc M k parentId = .ok (p, k1) →
      (k1.envs e).message = (k.envs e).message := by
    intro k k1 p parentId halloc
    rcases envAlloc_frame halloc with ⟨r, -, rfl⟩ | ⟨x, _, y, _, _, _, -, rfl, -, -, hmsg, -⟩
    · rfl
    · by_cases hx : e = x
      · subst hx
        exact (congrArg Env.message (Function.update_self ..)).trans hmsg
      · exact congrArg Env.message (Function.update_of_ne hx _ _)
  cases a with
  | envCreate binary priority =>
    obtain ⟨⟨x', k1⟩, hc, h⟩ := bind_eq_ok.mp h
    obtain ⟨-, rfl⟩ := pure_pair_inj h
    obtain ⟨k2, pm, epc, k3, ha, rfl, rfl⟩ := envCreate_cases hc
    left
    have hstart := hset k2 x' (fun x => { x with pri := priority, status := .runnable }) rfl
    refine Eq.trans (Eq.trans ?_ hstart) (halloc (k := k.trap tf) ha)
    exact hset _ x' (fun x => { x with tf := { x.tf with cp0Epc := epc } }) rfl
  | timer | yield =>
    obtain ⟨_, hs⟩ := enter_schedules h trivial
    obtain ⟨c, hd⟩ := schedule_dispatched hs
    exact Or.inl (hdisp (k := k.trap tf) hd)
  | envDestroy envid =>
    left
    rcases sysEnvDestroy_cases h with ⟨-, rfl⟩ | ⟨x, returned, -, hd, -⟩
    · rfl
    obtain ⟨k1, hfree, hd⟩ := envDestroy_cases hd
    obtain ⟨pm, q, -, -, rfl⟩ := envFree_frame hfree
    have hx : (Function.update k.envs x { k.envs x with status := .free } e).message =
        (k.envs e).message := hset k x (fun y => { y with status := .free }) rfl
    rcases hd with ⟨-, -, hs⟩ | ⟨-, -, rfl⟩
    · obtain ⟨c, hd⟩ := schedule_dispatched hs
      exact (hdisp hd).trans hx
    · exact hx
  | setTlbModEntry envid func =>
    obtain ⟨r, h⟩ := returning_eq_ok h
    rcases sysSetTlbModEntry_cases h with ⟨-, rfl⟩ | ⟨x, -, -, rfl⟩
    · exact Or.inl rfl
    · exact Or.inl (hset (k.trap tf) x _ rfl)
  | memAlloc | memMap | memUnmap =>
    obtain ⟨_, rfl⟩ := enter_onMemory h trivial
    exact Or.inl rfl
  | exofork =>
    obtain ⟨r, h⟩ := returning_eq_ok h
    left
    obtain ⟨cur, p, k1, -, ha, ⟨-, rfl⟩ | ⟨x, -, -, rfl⟩⟩ := sysExofork_alloc h
    · exact halloc (k := k.trap tf) ha
    · exact (hset k1 x _ rfl).trans (halloc (k := k.trap tf) ha)
  | setEnvStatus envid status =>
    obtain ⟨r, h⟩ := returning_eq_ok h
    rcases sysSetEnvStatus_cases h with ⟨-, rfl⟩ | ⟨x, q, -, -, -, rfl⟩
    · exact Or.inl rfl
    · exact Or.inl (hset { k.trap tf with envSchedList := q } x _ rfl)
  | ipcRecv dstva =>
    rcases sysIpcRecv_dispatched h with ⟨-, rfl⟩ | ⟨cur, k1, c, rfl, hc, hd, he⟩
    · exact Or.inl rfl
    by_cases hx : e = cur
    · exact Or.inr (Or.inl ⟨dstva, rfl, rfl, hx ▸ hc⟩)
    · left
      rw [hdisp hd, he, Kern.setEnv_envs_of_ne _ _ hx]
      rfl
  | ipcTrySend envid value srcva perm =>
    obtain ⟨r, h⟩ := returning_eq_ok h
    rcases sysIpcTrySend_frame h with rfl | ⟨x, cur, q, pm, -, hid, hrecv, hc, rfl⟩
    · exact Or.inl rfl
    have henvs : ({ (k.trap tf).received x cur value perm with envSchedList := q, pm := pm } :
        Kern).envs = (k.received x cur value perm).envs := rfl
    by_cases hx : e = x
    · subst hx
      refine Or.inr (Or.inr ⟨envid, value, srcva, perm, cur, rfl, hid, hrecv, hc, ?_⟩)
      rw [henvs, Kern.received, Kern.setEnv_envs_same]
      rfl
    · left
      rw [henvs, Kern.received, Kern.setEnv_envs_of_ne _ _ hx]

/-! ## One entry -/

/-- What an entry does to the waiting environments: those that wait afterwards have just called
`sys_ipc_recv`, or they waited before and have been sent nothing. -/
structure ReceiversStep (k : Kern) (a : Entry) (o : Option Word) (k' : Kern) : Prop where
  inv : Receivers k'
  waits : ∀ e, Waits k' e → RecvBy k a o e ∨
    (Waits k e ∧ SameMessage (k.envs e) (k'.envs e) ∧ (SendTo k a e → o ≠ some 0))

lemma not_sendTo (ha : ∀ i v s p, a ≠ .ipcTrySend i v s p) : ¬ SendTo k a e :=
  fun ⟨i, v, s, p, hsend, _⟩ => ha i v s p hsend

/-- The invariant for every caller of `schedule`. -/
lemma Receivers.dispatched (h : ∀ e, (k.envs e).status = .runnable → (k.envs e).ipcRecving = 0)
    (hd : Dispatched k k' c) : Receivers k' where
  idle e he := by
    rw [(hd.envs e).sameMessage.ipcRecving]
    exact h e ((hd.status e) ▸ he)
  cur c' hc := by
    rw [hd.cur, Option.some.injEq] at hc
    rw [← hc, (hd.envs c).sameMessage.ipcRecving]
    exact h c hd.runnable

/-- An entry that is no send and keeps, for the environments that wait afterwards, the message
fields. -/
lemma ReceiversStep.of_same (hinv : Receivers k') (ha : ∀ i v s p, a ≠ .ipcTrySend i v s p)
    (h : ∀ e, Waits k' e → Waits k e ∧ SameMessage (k.envs e) (k'.envs e)) :
    ReceiversStep k a o k' where
  inv := hinv
  waits e he := Or.inr ⟨(h e he).1, (h e he).2, fun hs => absurd hs (not_sendTo ha)⟩

/-- An entry that is no send and changes no message field and no status. -/
lemma ReceiversStep.of_quiet (hk : Receivers k) (ha : ∀ i v s p, a ≠ .ipcTrySend i v s p)
    (hc : k'.curenv = k.curenv)
    (h : ∀ e, SameMessage (k.envs e) (k'.envs e) ∧ (k'.envs e).status = (k.envs e).status) :
    ReceiversStep k a o k' := by
  refine .of_same ⟨fun e he => ?_, fun c hcur => ?_⟩ ha fun e he => ?_
  · rw [(h e).1.ipcRecving]
    exact hk.idle e ((h e).2 ▸ he)
  · rw [(h c).1.ipcRecving]
    exact hk.cur c (hc ▸ hcur)
  · exact ⟨⟨(h e).1.ipcRecving ▸ he.1, (h e).2 ▸ he.2⟩, (h e).1⟩

/-- `schedule` changes no message. -/
lemma ReceiversStep.schedule {yield : Bool} (hk : Receivers k)
    (ha : ∀ i v s p, a ≠ .ipcTrySend i v s p) (h : schedule k yield = .ok k') :
    ReceiversStep k a o k' := by
  obtain ⟨c, hd⟩ := schedule_dispatched h
  refine .of_same (.dispatched hk.idle hd) ha fun e he => ?_
  have hs := (hd.envs e).sameMessage
  exact ⟨⟨hs.ipcRecving ▸ he.1, hd.status e ▸ he.2⟩, hs⟩

/-- A new environment takes the first slot of the free list, whose `env_ipc_recving` is clear. -/
lemma ReceiversStep.alloc {parentId : Word} {p : Except Word EnvPtr} (hk : Receivers k)
    (ha : ∀ i v s p, a ≠ .ipcTrySend i v s p)
    (hslot : ∀ e rest, k.envFreeList = e :: rest → (k.envs e).ipcRecving = 0)
    (h : envAlloc M k parentId = .ok (p, k1)) (hc : k'.curenv = k1.curenv)
    (hother : ∀ e, p ≠ .ok e → k'.envs e = k1.envs e)
    (hnew : ∀ e, p = .ok e → (k'.envs e).ipcRecving = (k1.envs e).ipcRecving) :
    ReceiversStep k a o k' := by
  rcases envAlloc_frame h with ⟨r, rfl, rfl⟩ |
    ⟨e, frest, y, pm, bitmap, free, hf, rfl, -, hst, hmsg, hp⟩
  · exact .of_quiet hk ha hc fun x => by rw [hother x (by simp)]; exact ⟨.refl _, rfl⟩
  -- the slot `e` does not wait afterwards, whether or not the allocation succeeds
  have hslot : y.ipcRecving = 0 := (congrArg Prod.fst hmsg).trans (hslot e frest hf)
  have hsame : ∀ x, x ≠ e → k'.envs x = k.envs x := fun x hx => by
    rw [hother x]
    · exact Function.update_of_ne hx _ _
    · rcases hp with ⟨r, rfl, -⟩ | ⟨rfl, -⟩
      · simp
      · simpa using Ne.symm hx
  have hclear : (k'.envs e).ipcRecving = 0 := by
    rcases hp with ⟨r, rfl, -⟩ | ⟨rfl, -⟩
    · rw [hother e (by simp)]
      exact (congrArg Env.ipcRecving (Function.update_self ..)).trans hslot
    · rw [hnew e rfl]
      exact (congrArg Env.ipcRecving (Function.update_self ..)).trans hslot
  refine .of_same ⟨fun x hx => ?_, fun x hx => ?_⟩ ha fun x hx => ?_
  · by_cases hxe : x = e
    · exact hxe ▸ hclear
    · rw [hsame x hxe] at hx ⊢
      exact hk.idle x hx
  · by_cases hxe : x = e
    · exact hxe ▸ hclear
    · rw [hsame x hxe]
      exact hk.cur x (hc ▸ hx)
  · have hxe : x ≠ e := fun hxe => hx.1 (hxe ▸ hclear)
    unfold Waits at hx
    rw [hsame x hxe] at hx ⊢
    exact ⟨hx, .refl _⟩

/-- `sys_env_destroy`: the environment is free afterwards. -/
lemma ReceiversStep.sysEnvDestroy (hk : Receivers k)
    (h : sysEnvDestroy M k envid = .ok (o, k')) : ReceiversStep k (.envDestroy envid) o k' := by
  rcases sysEnvDestroy_cases h with ⟨-, rfl⟩ | ⟨e, returned, -, hd, -⟩
  · exact .of_quiet hk (by simp) rfl fun e => ⟨.refl _, rfl⟩
  obtain ⟨k1, hfree, hd⟩ := envDestroy_cases hd
  obtain ⟨pm, q, -, -, rfl⟩ := envFree_frame hfree
  have hself : (Function.update k.envs e { k.envs e with status := .free } e).status = .free := by
    rw [Function.update_self]
  have hother : ∀ x, x ≠ e →
      Function.update k.envs e { k.envs e with status := .free } x = k.envs x := fun x hx =>
    Function.update_of_ne hx _ _
  have hidle : ∀ x, (Function.update k.envs e { k.envs e with status := .free } x).status =
      .runnable → (Function.update k.envs e { k.envs e with status := .free } x).ipcRecving = 0 := by
    intro x hx
    have hxe : x ≠ e := by
      rintro rfl
      rw [hself] at hx
      exact absurd hx (by decide)
    rw [hother x hxe] at hx ⊢
    exact hk.idle x hx
  rcases hd with ⟨-, -, hs⟩ | ⟨hcur, -, rfl⟩
  · obtain ⟨c, hd⟩ := schedule_dispatched hs
    refine .of_same (.dispatched hidle hd) (by simp) fun x hx => ?_
    have hm := (hd.envs x).sameMessage
    have hxe : x ≠ e := by
      rintro rfl
      exact hx.2 ((hd.status x).trans hself)
    have hx' := hother x hxe
    refine ⟨⟨?_, ?_⟩, ?_⟩
    · rw [← hx']
      exact hm.ipcRecving ▸ hx.1
    · rw [← hx']
      exact hd.status x ▸ hx.2
    · rw [← hx']
      exact hm
  · refine .of_same ⟨hidle, fun x hx => ?_⟩ (by simp) fun x hx => ?_
    · have hxe : x ≠ e := by
        rintro rfl
        exact hcur hx
      exact (congrArg Env.ipcRecving (hother x hxe)).trans (hk.cur x hx)
    · have hxe : x ≠ e := by
        rintro rfl
        exact hx.2 hself
      have hx' := hother x hxe
      unfold Waits at hx
      simp only [hx'] at hx ⊢
      exact ⟨hx, .refl _⟩

/-- `sys_set_env_status` of an environment that does not wait. -/
lemma ReceiversStep.sysSetEnvStatus {status : Word} (hk : Receivers k)
    (ha : KeepsReceivers k (.setEnvStatus envid status))
    (h : sysSetEnvStatus k envid status = .ok (r, k')) :
    ReceiversStep k (.setEnvStatus envid status) o k' := by
  rcases sysSetEnvStatus_cases h with ⟨-, rfl⟩ | ⟨e, q, hid, -, -, rfl⟩
  · exact .of_quiet hk (by simp) rfl fun e => ⟨.refl _, rfl⟩
  have hother : ∀ x, x ≠ e → (({ k with envSchedList := q }.setEnv e fun x =>
      { x with status := .ofWord status }).envs x) = k.envs x := fun x hx =>
    Kern.setEnv_envs_of_ne _ _ hx
  have hmsg : ∀ x, SameMessage (k.envs x) (({ k with envSchedList := q }.setEnv e fun x =>
      { x with status := .ofWord status }).envs x) := by
    intro x
    by_cases hxe : x = e
    · subst hxe
      rw [Kern.setEnv_envs_same]
      exact ⟨rfl, rfl, rfl, rfl, rfl, rfl⟩
    · rw [hother x hxe]
      exact .refl _
  refine .of_same ⟨fun x hx => ?_, fun x hx => ?_⟩ (by simp) fun x hx => ⟨?_, hmsg x⟩
  · by_cases hxe : x = e
    · subst hxe
      rw [(hmsg x).ipcRecving]
      refine ha ?_ x hid
      rw [Kern.setEnv_envs_same] at hx
      by_contra hne
      rw [EnvStatus.ofWord, if_neg hne] at hx
      exact absurd hx (by simp)
    · rw [hother x hxe] at hx ⊢
      exact hk.idle x hx
  · rw [(hmsg x).ipcRecving]
    exact hk.cur x hx
  · have hw : (k.envs x).ipcRecving ≠ 0 := (hmsg x).ipcRecving ▸ hx.1
    refine ⟨hw, ?_⟩
    by_cases hxe : x = e
    · -- an environment that is found is in use, or is the current one, which does not wait
      rcases envid2env_eq_some hid with ⟨-, hc⟩ | ⟨-, -, hst, -⟩
      · exact absurd (hk.cur e hc) (hxe ▸ hw)
      · exact hxe ▸ hst
    · exact hother x hxe ▸ hx.2

/-- `sys_ipc_recv`: the caller waits. -/
lemma ReceiversStep.sysIpcRecv {dstva : Word} (hk : Receivers k)
    (h : sysIpcRecv k dstva = .ok (o, k')) : ReceiversStep k (.ipcRecv dstva) o k' := by
  rcases sysIpcRecv_dispatched h with ⟨-, rfl⟩ | ⟨cur, k1, c, rfl, hc, hd, he⟩
  · exact .of_quiet hk (by simp) rfl fun e => ⟨.refl _, rfl⟩
  have hidle : ∀ x, (k1.envs x).status = .runnable → (k1.envs x).ipcRecving = 0 := by
    intro x hx
    rw [he] at hx ⊢
    by_cases hxc : x = cur
    · subst hxc
      rw [Kern.setEnv_envs_same] at hx
      exact absurd hx (by simp)
    · rw [Kern.setEnv_envs_of_ne _ _ hxc] at hx ⊢
      exact hk.idle x hx
  refine ⟨.dispatched hidle hd, fun x hx => ?_⟩
  by_cases hxc : x = cur
  · exact Or.inl ⟨dstva, rfl, rfl, hxc ▸ hc⟩
  · have hm := (hd.envs x).sameMessage
    have hx' : k1.envs x = k.envs x := by rw [he, Kern.setEnv_envs_of_ne _ _ hxc]
    have hst := hd.status x
    rw [hx'] at hm hst
    exact Or.inr ⟨⟨hm.ipcRecving ▸ hx.1, hst ▸ hx.2⟩, hm, fun hs => absurd hs (not_sendTo (by simp))⟩

/-- `sys_ipc_try_send`: the target, if there is one, waits no longer. -/
lemma ReceiversStep.sysIpcTrySend {value srcva perm : Word} (hk : Receivers k)
    (h : sysIpcTrySend M k envid value srcva perm = .ok (r, k')) :
    ReceiversStep k (.ipcTrySend envid value srcva perm) (some r) k' := by
  rcases sysIpcTrySend_cases h with ⟨rfl, hfail⟩ | ⟨e, cur, q, -, hid, -, -, -, hk'⟩
  · refine ⟨hk, fun x hx => Or.inr ⟨hx, .refl _, fun _ => ?_⟩⟩
    rcases hfail with ⟨-, -, rfl⟩ | ⟨-, rfl⟩ | ⟨-, -, -, rfl⟩ <;> decide
  have henvs : k'.envs = (k.received e cur value perm).envs := by
    rcases hk' with ⟨-, -, rfl⟩ | ⟨-, -, -, rfl⟩ | ⟨_, _, _, -, -, -, rfl⟩ <;> rfl
  have hcur : k'.curenv = k.curenv := by
    rcases hk' with ⟨-, -, rfl⟩ | ⟨-, -, -, rfl⟩ | ⟨_, _, _, -, -, -, rfl⟩ <;> rfl
  have hself : (k'.envs e).ipcRecving = 0 := by
    rw [henvs, Kern.received, Kern.setEnv_envs_same]
  have hother : ∀ x, x ≠ e → k'.envs x = k.envs x := fun x hx => by
    rw [henvs, Kern.received, Kern.setEnv_envs_of_ne _ _ hx]
  refine ⟨⟨fun x hx => ?_, fun x hx => ?_⟩, fun x hx => Or.inr ?_⟩
  · by_cases hxe : x = e
    · exact hxe ▸ hself
    · rw [hother x hxe] at hx ⊢
      exact hk.idle x hx
  · by_cases hxe : x = e
    · exact hxe ▸ hself
    · rw [hother x hxe]
      exact hk.cur x (hcur ▸ hx)
  · have hxe : x ≠ e := by
      rintro rfl
      exact hx.1 hself
    unfold Waits at hx
    rw [hother x hxe] at hx ⊢
    refine ⟨hx, .refl _, ?_⟩
    rintro ⟨i, v, s, p, hsend, hid'⟩
    rw [Entry.ipcTrySend.injEq] at hsend
    rw [← hsend.1, hid] at hid'
    simp only [Except.ok.injEq, Option.some.injEq] at hid'
    exact absurd hid'.symm hxe

/-- **One entry and the waiting environments**, under the condition. -/
theorem Receivers.step (hk : Receivers k) (ha : KeepsReceivers k a)
    (h : enter M (k.trap tf) a = .ok (o, k')) : ReceiversStep k a o k' := by
  have ht : Receivers (k.trap tf) := ⟨hk.idle, hk.cur⟩
  suffices hs : ReceiversStep (k.trap tf) a o k' from ⟨hs.inv, hs.waits⟩
  have hsame : ∀ {a : Entry} {k' : Kern}, (∀ i v s p, a ≠ .ipcTrySend i v s p) →
      k'.curenv = k.curenv → k'.envs = k.envs → ReceiversStep (k.trap tf) a o k' :=
    fun ha hc he => .of_quiet ht ha hc fun x => by rw [he]; exact ⟨.refl _, rfl⟩
  cases a with
  | envCreate binary priority =>
    obtain ⟨⟨e', k1⟩, hc, h⟩ := bind_eq_ok.mp h
    obtain ⟨-, rfl⟩ := pure_pair_inj h
    obtain ⟨k2, pm, epc, k3, halloc, rfl, rfl⟩ := envCreate_cases hc
    refine .alloc ht (by simp) ha halloc rfl (fun x hx => ?_) fun x hx => ?_
    · have hxe : x ≠ e' := fun hxe => hx (hxe ▸ rfl)
      simp only [Kern.setEnv_envs_of_ne _ _ hxe]
    · obtain rfl : e' = x := by simpa using hx
      simp only [Kern.setEnv_envs_same]
  | timer | yield =>
    obtain ⟨_, hs⟩ := enter_schedules h trivial
    exact .schedule ht (by simp) hs
  | envDestroy envid => exact .sysEnvDestroy ht h
  | setTlbModEntry envid func =>
    obtain ⟨r, h⟩ := returning_eq_ok h
    rcases sysSetTlbModEntry_cases h with ⟨-, rfl⟩ | ⟨e, -, -, rfl⟩
    · exact hsame (by simp) rfl rfl
    · refine .of_quiet ht (by simp) rfl fun x => ?_
      by_cases hxe : x = e
      · subst hxe
        rw [Kern.setEnv_envs_same]
        exact ⟨⟨rfl, rfl, rfl, rfl, rfl, rfl⟩, rfl⟩
      · rw [Kern.setEnv_envs_of_ne _ _ hxe]
        exact ⟨.refl _, rfl⟩
  | memAlloc | memMap | memUnmap =>
    obtain ⟨_, rfl⟩ := enter_onMemory h trivial
    exact hsame (by simp) rfl rfl
  | exofork =>
    obtain ⟨r, h⟩ := returning_eq_ok h
    obtain ⟨cur, _, k1, -, halloc, ⟨rfl, rfl⟩ | ⟨e', rfl, -, rfl⟩⟩ := sysExofork_alloc h
    · exact .alloc ht (by simp) ha halloc rfl (fun x _ => rfl) fun x hx => by simp at hx
    · refine .alloc ht (by simp) ha halloc rfl (fun x hx => ?_) fun x hx => ?_
      · have hxe : x ≠ e' := fun hxe => hx (hxe ▸ rfl)
        exact Kern.setEnv_envs_of_ne _ _ hxe
      · obtain rfl : e' = x := by simpa using hx
        rw [Kern.setEnv_envs_same]
  | setEnvStatus envid status =>
    obtain ⟨r, h⟩ := returning_eq_ok h
    exact .sysSetEnvStatus ht ha h
  | ipcRecv dstva => exact .sysIpcRecv ht h
  | ipcTrySend envid value srcva perm =>
    obtain ⟨⟨r, k1⟩, hs, h⟩ := bind_eq_ok.mp h
    obtain ⟨rfl, rfl⟩ := pure_pair_inj h
    exact .sysIpcTrySend ht hs

/-! ## Runs -/

section Runs

variable {σ : ℕ → Kern} {act : ℕ → Entry} {res : ℕ → Option Word} {t : ℕ}

/-- At time `t` the environment `e` is a receiver: it has called `sys_ipc_recv`, and since then it
has been in use under the same identifier, has not run, and has been sent nothing. -/
def ReceiverAt (σ : ℕ → Kern) (act : ℕ → Entry) (res : ℕ → Option Word) (t : ℕ) (e : EnvPtr) :
    Prop :=
  ∃ i < t, RecvBy (σ i) (act i) (res i) e ∧
    (∀ u, i < u → u ≤ t → ((σ u).envs e).status ≠ .free ∧ (σ u).curenv ≠ some e ∧
      SameMessage ((σ (i + 1)).envs e) ((σ u).envs e)) ∧
    ∀ u, i < u → u < t → SendTo (σ u) (act u) e → res u ≠ some 0

/-- `env_init` clears every `env_ipc_recving`. -/
lemma ipcRecving_of_envInit {pm : PhysMem} {ktf : Trapframe} (h : envInit M pm ktf = .ok k)
    (e : EnvPtr) : (k.envs e).ipcRecving = 0 := by
  obtain ⟨pm', base, rfl⟩ := envInit_boot h
  rfl

variable (hrun : KernRun M n σ act res) (hkeep : ∀ t < n, KeepsReceivers (σ t) (act t))

include hrun hkeep

lemma KernRun.receivers (h0 : ∀ e, ((σ 0).envs e).ipcRecving = 0) (ht : t ≤ n) :
    Receivers (σ t) := by
  refine holds_until (P := fun t => Receivers (σ t)) (Nat.zero_le t)
    ⟨fun e _ => h0 e, fun c _ => h0 c⟩ ?_
  intro u _ hu hk
  obtain ⟨tf, hs⟩ := hrun u (hu.trans_le ht)
  exact (hk.step (hkeep u (hu.trans_le ht)) hs).inv

/-- Whoever waits is a receiver. -/
lemma KernRun.receiverAt (h0 : ∀ e, ((σ 0).envs e).ipcRecving = 0) (ht : t ≤ n)
    (hw : Waits (σ t) e) : ReceiverAt σ act res t e := by
  induction t with
  | zero => exact absurd (h0 e) hw.1
  | succ t ih =>
    obtain ⟨tf, hs⟩ := hrun t ht
    have hstep := (hrun.receivers hkeep h0 (Nat.le_of_succ_le ht)).step (hkeep t ht) hs
    have hcur : (σ (t + 1)).curenv ≠ some e := fun hc => hw.1 (hstep.inv.cur e hc)
    rcases hstep.waits e hw with hr | ⟨hw', hsame, hno⟩
    · refine ⟨t, t.lt_succ_self, hr, fun u h1 h2 => ?_, fun u h1 h2 => by omega⟩
      obtain rfl : u = t + 1 := by omega
      exact ⟨hw.2, hcur, .refl _⟩
    · obtain ⟨i, hi, hr, hall, hsend⟩ := ih (Nat.le_of_succ_le ht) hw'
      refine ⟨i, hi.trans t.lt_succ_self, hr, fun u h1 h2 => ?_, fun u h1 h2 => ?_⟩
      · rcases h2.lt_or_eq with h2 | rfl
        · exact hall u h1 (by omega)
        · exact ⟨hw.2, hcur, (hall t hi le_rfl).2.2.trans hsame⟩
      · rcases (Nat.lt_succ_iff.mp h2).lt_or_eq with h2 | rfl
        · exact hsend u h1 h2
        · exact hno

/-- **A send succeeds only to a receiver.** In every run from `env_init` whose entries meet the
condition, a successful send to `e` comes after a call of `sys_ipc_recv` by the current incarnation
of `e`, which has neither run nor been sent a message since. -/
theorem send_to_receiver {pm : PhysMem} {ktf : Trapframe} (hinit : envInit M pm ktf = .ok (σ 0)) :
    ∀ t < n, ∀ e, SendTo (σ t) (act t) e → res t = some 0 → ReceiverAt σ act res t e := by
  rintro t ht e ⟨envid, value, srcva, perm, ha, hid⟩ hres
  have h0 : ∀ e, ((σ 0).envs e).ipcRecving = 0 := ipcRecving_of_envInit hinit
  have hk := hrun.receivers hkeep h0 ht.le
  refine hrun.receiverAt hkeep h0 ht.le ?_
  -- the send has found `e` in use and with `env_ipc_recving` set
  obtain ⟨tf, hs⟩ := hrun t ht
  rw [ha, hres] at hs
  obtain ⟨⟨r, k1⟩, hs, h⟩ := bind_eq_ok.mp hs
  simp only [pure_eq_ok, Except.ok.injEq, Prod.mk.injEq, Option.some.injEq] at h
  obtain ⟨rfl, -⟩ := h
  change envid2env ((σ t).trap tf) envid false = _ at hid
  rcases sysIpcTrySend_cases hs with ⟨-, ⟨-, -, hr⟩ | ⟨-, hr⟩ | ⟨-, -, -, hr⟩⟩ |
    ⟨e', _, _, -, hid', hrecv, -⟩
  · exact absurd hr (by decide)
  · exact absurd hr (by decide)
  · exact absurd hr (by decide)
  · rw [hid] at hid'
    obtain rfl : e = e' := by simpa using hid'
    refine ⟨hrecv, ?_⟩
    rcases envid2env_eq_some hid with ⟨-, hc⟩ | ⟨-, -, hst, -⟩
    · exact absurd (hk.cur e hc) hrecv
    · exact hst

end Runs

/-! ## A message after the receiver has been resumed -/

/-- As in the run that breaks the queue, but the first environment sends its message when the child
waits. -/
def sendEntries (t : ℕ) : Entry :=
  if t < 6 then queueEntries t else .ipcTrySend 0x1001#32 0 0 0

def sendResults (t : ℕ) : Option Word := if t < 6 then queueResults t else some 0

noncomputable def sendRun (t : ℕ) : Kern :=
  if t ≤ 6 then queueRun t else after bootMachine (queueRun 6) (.ipcTrySend 0x1001#32 0 0 0)

lemma sendRun_kernRun : KernRun bootMachine 7 sendRun sendEntries sendResults := by
  intro t ht
  refine ⟨(sendRun t).ktf, ?_⟩
  rw [Kern.trap_ktf]
  rcases Nat.lt_succ_iff_lt_or_eq.mp ht with ht | rfl
  · rw [sendRun, sendRun, sendEntries, sendResults, if_pos ht.le, if_pos ht, if_pos ht,
      if_pos (Nat.succ_le_of_lt ht)]
    exact queueRun_enter t (by omega)
  · rfl

/-- The entries of this run meet the condition. -/
lemma sendRun_keeps (t : ℕ) (ht : t < 7) : KeepsReceivers (sendRun t) (sendEntries t) := by
  obtain ⟨rest, hrest⟩ := allEnvs_eq
  interval_cases t
  case «0» =>
    intro e rest' _
    rfl
  case «2» =>
    intro e rest' he
    have hfree : (sendRun 2).envFreeList = 1 :: rest := by
      change allEnvs.erase 0 = _
      rw [hrest, List.erase_cons_head]
    obtain ⟨rfl, -⟩ := List.cons.inj (hfree.symm.trans he)
    rfl
  case «3» =>
    intro _ e he
    rcases envid2env_eq_some he with ⟨h0, -⟩ | ⟨-, rfl, -⟩
    · exact absurd h0 (by decide)
    · rfl
  all_goals trivial

/-- The message of the first environment reaches the child, which waits. -/
theorem send_to_receiver_child : ReceiverAt sendRun sendEntries sendResults 6 1 :=
  send_to_receiver sendRun_kernRun sendRun_keeps booted.envInit_eq 6 (by decide) 1
    ⟨0x1001#32, 0, 0, 0, rfl, rfl⟩ rfl

/-- After the child has been made runnable again, it runs and yields, and the first environment
sends to it. -/
def resumeEntries (t : ℕ) : Entry :=
  if t < 7 then queueEntries t else if t < 9 then .yield else .ipcTrySend 0x1001#32 0 0 0

def resumeResults (t : ℕ) : Option Word :=
  if t < 7 then queueResults t else if t < 9 then none else some 0

noncomputable def resumeRun (t : ℕ) : Kern :=
  if t ≤ 7 then queueRun t
  else (List.range' 7 (t - 7)).foldl (fun k t => after bootMachine k (resumeEntries t)) (queueRun 7)

/-- The run, step by step. -/
lemma resumeRun_kernRun : KernRun bootMachine 10 resumeRun resumeEntries resumeResults := by
  intro t ht
  refine ⟨(resumeRun t).ktf, ?_⟩
  rw [Kern.trap_ktf]
  by_cases h7 : t < 7
  · rw [resumeRun, resumeRun, resumeEntries, resumeResults, if_pos h7.le, if_pos h7, if_pos h7,
      if_pos (Nat.succ_le_of_lt h7)]
    exact queueRun_enter t (by omega)
  · obtain rfl | rfl | rfl : t = 7 ∨ t = 8 ∨ t = 9 := by omega
    · rfl
    · rfl
    · rfl

/-- The child has been resumed since its only call of `sys_ipc_recv`, and the send succeeds. -/
theorem send_to_resumed : ¬ ∀ (M : Machine) (n : ℕ) (σ : ℕ → Kern) (act : ℕ → Entry)
    (res : ℕ → Option Word) (pm : PhysMem) (ktf : Trapframe), KernRun M n σ act res →
    envInit M pm ktf = .ok (σ 0) →
    ∀ t < n, ∀ e, SendTo (σ t) (act t) e → res t = some 0 → ReceiverAt σ act res t e := by
  intro h
  obtain ⟨i, hi, ⟨dstva, hact, -⟩, hall, -⟩ := h _ _ _ _ _ _ _ resumeRun_kernRun booted.envInit_eq
    9 (by decide) 1 ⟨0x1001#32, 0, 0, 0, rfl, rfl⟩ rfl
  have hi : i < 8 := by
    by_contra hn
    obtain rfl : i = 8 := by omega
    simp [resumeEntries] at hact
  exact (hall 8 hi (by decide)).2.1 rfl

end MosVolca
