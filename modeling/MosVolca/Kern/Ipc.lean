import Mathlib.Tactic.IntervalCases
import MosVolca.Kern.SyscallCases
import MosVolca.Kern.PageRun

/-!
# Messages

Two properties of `sys_ipc_recv` and `sys_ipc_try_send`. The first is about runs in which
environments only send values, receive, yield and are interrupted by the timer: a message is
received exactly once. The second is about a single send that fails: when it fails in the transfer
of the page, the target has already been changed.

## Main definitions

* `MosVolca.IpcRun` — a run of such entries, indexed by time.
* `MosVolca.Rendezvous` — no runnable environment waits for a message.
* `MosVolca.LateFailure` — the sends that fail after the target has been changed.

## Main results

* `MosVolca.ipc_rendezvous` — exactly one send succeeds between a receive and the return from it.
* `MosVolca.failed_send_unchanged_iff` — when a failed send leaves the target unchanged.
-/

namespace MosVolca

open TailQueue

variable {M : Machine} {k k' : Kern} {s s' : PhysMem} {e c x : EnvPtr} {tf : Trapframe} {n d : ℕ}
  {r envid va perm value srcva dstva : Word} {o : Option Word}

/-! ## Entries that exchange values -/

/-- Receives, sends without a page, yields and timer ticks. -/
def ValueIpc : Entry → Prop
  | .ipcRecv _ | .yield | .timer => True
  | .ipcTrySend _ _ srcva _ => srcva = 0
  | _ => False

/-- No runnable environment waits for a message, and the current environment is runnable. -/
structure Rendezvous (k : Kern) : Prop where
  idle : ∀ e, (k.envs e).status = .runnable → (k.envs e).ipcRecving = 0
  cur : ∀ c, k.curenv = some c → (k.envs c).status = .runnable

/-- The send `x` is directed at the environment `e`. -/
def SendTo (k : Kern) (x : Entry) (e : EnvPtr) : Prop :=
  ∃ envid value srcva perm, x = .ipcTrySend envid value srcva perm ∧
    envid2env k envid false = .ok (.ok (some e))

/-- The environment `e` calls `sys_ipc_recv` and is blocked. -/
def RecvBy (k : Kern) (x : Entry) (o : Option Word) (e : EnvPtr) : Prop :=
  ∃ dstva, x = .ipcRecv dstva ∧ o = none ∧ k.curenv = some e

lemma Env.SameBut.ipc {x y : Env} (h : x.SameBut y) : y.status = x.status ∧
    y.ipcRecving = x.ipcRecving ∧ y.ipcValue = x.ipcValue ∧ y.ipcFrom = x.ipcFrom ∧ y.id = x.id := by
  obtain ⟨tf, runs, rfl⟩ := h
  exact ⟨rfl, rfl, rfl, rfl, rfl⟩

/-- `schedule` on behalf of any caller. -/
lemma Rendezvous.dispatched (h : ∀ e, (k.envs e).status = .runnable → (k.envs e).ipcRecving = 0)
    (hd : Dispatched k k' c) : Rendezvous k' where
  idle e he := by
    obtain ⟨hst, hrecv, -⟩ := (hd.envs e).ipc
    rw [hrecv]
    exact h e (hst ▸ he)
  cur c' hc := by
    rw [hd.cur, Option.some.injEq] at hc
    rw [← hc, hd.status, hd.runnable]

/-- `sys_ipc_recv`: an error, or the caller waits and another environment runs. -/
lemma sysIpcRecv_dispatched (h : sysIpcRecv k dstva = .ok (o, k')) :
    (o = some (-eInval) ∧ k' = k) ∨
      ∃ cur k1 c, o = none ∧ k.curenv = some cur ∧ Dispatched k1 k' c ∧
        k1.envs = (k.setEnv cur fun x =>
          { x with ipcRecving := 1, ipcDstva := dstva, status := .notRunnable }).envs := by
  rcases sysIpcRecv_cases h with hfail | ⟨cur, q, -, ho, hc, -, hs⟩
  · exact Or.inl hfail
  · obtain ⟨c, hd⟩ := schedule_dispatched hs
    exact Or.inr ⟨cur, _, c, ho, hc, hd, rfl⟩

/-- **Everything an entry that exchanges values can do**: switch to another environment, block the
caller, fail, or deliver a value. -/
theorem valueIpc_cases {a : Entry} (ha : ValueIpc a) (h : enter M (k.trap tf) a = .ok (o, k')) :
    (∃ k1 c, (a = .yield ∨ a = .timer) ∧ k1.envs = k.envs ∧ Dispatched k1 k' c) ∨
    (∃ dstva cur k1 c, a = .ipcRecv dstva ∧ o = none ∧ k.curenv = some cur ∧
      k1.envs = (k.setEnv cur fun x =>
        { x with ipcRecving := 1, ipcDstva := dstva, status := .notRunnable }).envs ∧
      Dispatched k1 k' c) ∨
    (o ≠ none ∧ k' = k.trap tf ∧
      ∀ e, SendTo k a e → (k.envs e).ipcRecving = 0 ∧ o = some (-eIpcNotRecv)) ∨
    ∃ envid value perm e cur, a = .ipcTrySend envid value 0 perm ∧
      envid2env k envid false = .ok (.ok (some e)) ∧ (k.envs e).ipcRecving ≠ 0 ∧ o = some 0 ∧
      k.curenv = some cur ∧ k'.curenv = k.curenv ∧
      k'.envs = (k.received e cur value perm).envs := by
  cases a with
  | yield =>
    obtain ⟨k1, hs, h⟩ := bind_eq_ok.mp h
    replace h := pure_pair_inj h
    obtain ⟨c, hd⟩ := schedule_dispatched hs
    exact Or.inl ⟨k.trap tf, c, Or.inl rfl, rfl, h.2 ▸ hd⟩
  | timer =>
    obtain ⟨k1, hs, h⟩ := bind_eq_ok.mp h
    replace h := pure_pair_inj h
    obtain ⟨c, hd⟩ := schedule_dispatched hs
    exact Or.inl ⟨k.trap tf, c, Or.inr rfl, rfl, h.2 ▸ hd⟩
  | ipcRecv dstva =>
    rcases sysIpcRecv_dispatched h with ⟨rfl, rfl⟩ | ⟨cur, k1, c, ho, hc, hd, he⟩
    · refine Or.inr (Or.inr (Or.inl ⟨by simp, rfl, ?_⟩))
      rintro e ⟨_, _, _, _, ha, -⟩
      exact absurd ha (by simp)
    · exact Or.inr (Or.inl ⟨dstva, cur, k1, c, rfl, ho, hc, he, hd⟩)
  | ipcTrySend envid value srcva perm =>
    obtain rfl : srcva = 0 := ha
    obtain ⟨⟨r, k1⟩, hs, h⟩ := bind_eq_ok.mp h
    obtain ⟨rfl, rfl⟩ := pure_pair_inj h
    rcases sysIpcTrySend_cases hs with ⟨rfl, hfail⟩ | ⟨e, cur, q, -, hid, hrecv, hc, -, hk⟩
    · refine Or.inr (Or.inr (Or.inl ⟨by simp, rfl, ?_⟩))
      rintro e ⟨envid', value', srcva', perm', ha, hid⟩
      obtain ⟨rfl, -⟩ := Entry.ipcTrySend.injEq .. ▸ ha
      change envid2env (k.trap tf) envid false = _ at hid
      rcases hfail with ⟨h0, -⟩ | ⟨hid', -⟩ | ⟨e', hid', h0, hr⟩
      · exact absurd rfl h0
      · rw [hid] at hid'
        simp at hid'
      · rw [hid] at hid'
        simp only [Except.ok.injEq, Option.some.injEq] at hid'
        exact ⟨hid' ▸ h0, by rw [hr]⟩
    · rcases hk with ⟨-, rfl, rfl⟩ | ⟨h0, -⟩ | ⟨_, _, _, h0, -⟩
      · exact Or.inr (Or.inr (Or.inr ⟨envid, value, perm, e, cur, rfl, hid, hrecv, rfl, hc, rfl,
          rfl⟩))
      · exact absurd rfl h0
      · exact absurd rfl h0
  | envCreate | envDestroy | setTlbModEntry | memAlloc | memMap | memUnmap | exofork |
    setEnvStatus => exact ha.elim

/-- An entry that exchanges values keeps the invariant. -/
lemma Rendezvous.step {a : Entry} (hk : Rendezvous k) (ha : ValueIpc a)
    (h : enter M (k.trap tf) a = .ok (o, k')) : Rendezvous k' := by
  rcases valueIpc_cases ha h with ⟨k1, c, -, he, hd⟩ | ⟨dstva, cur, k1, c, -, -, -, he, hd⟩ |
    ⟨-, rfl, -⟩ | ⟨envid, value, perm, e, cur, -, -, -, -, -, hc, he⟩
  · exact Rendezvous.dispatched (he ▸ hk.idle) hd
  · refine Rendezvous.dispatched (fun x hx => ?_) hd
    rw [he] at hx ⊢
    by_cases hxc : x = cur
    · subst hxc
      simp at hx
    · rw [Kern.setEnv_envs_of_ne _ _ hxc] at hx ⊢
      exact hk.idle x hx
  · exact ⟨hk.idle, hk.cur⟩
  · have hother : ∀ x, x ≠ e → k'.envs x = k.envs x := fun x hx => by
      rw [he, Kern.received, Kern.setEnv_envs_of_ne _ _ hx]
    refine ⟨fun x hx => ?_, fun c hcur => ?_⟩
    · by_cases hxe : x = e
      · subst hxe
        rw [he, Kern.received, Kern.setEnv_envs_same]
      · rw [hother x hxe] at hx ⊢
        exact hk.idle x hx
    · by_cases hce : c = e
      · subst hce
        rw [he, Kern.received, Kern.setEnv_envs_same]
      · rw [hother c hce]
        exact hk.cur c (hc ▸ hcur)

/-- A waiting environment goes on waiting, and nobody sends to it, until a send delivers. -/
lemma Rendezvous.waiting_step {a : Entry} (hk : Rendezvous k) (ha : ValueIpc a)
    (h : enter M (k.trap tf) a = .ok (o, k')) (he : (k.envs e).ipcRecving ≠ 0) :
    ((k'.envs e).ipcRecving ≠ 0 ∧ ¬ SendTo k a e) ∨
      ∃ envid value perm cur, a = .ipcTrySend envid value 0 perm ∧
        envid2env k envid false = .ok (.ok (some e)) ∧ o = some 0 ∧ k.curenv = some cur ∧
        (k'.envs e).ipcRecving = 0 ∧ (k'.envs e).ipcValue = value ∧
        (k'.envs e).ipcFrom = (k.envs cur).id := by
  have hnosend : ∀ {b : Entry}, (∀ i v s p, b ≠ .ipcTrySend i v s p) → ¬ SendTo k b e :=
    fun hb ⟨i, v, s, p, hsend, _⟩ => hb i v s p hsend
  rcases valueIpc_cases ha h with ⟨k1, c, hy, hk1, hd⟩ | ⟨dstva, cur, k1, c, hx, -, hc, hk1, hd⟩ |
    ⟨-, rfl, hsend⟩ | ⟨envid, value, perm, e', cur, hx, hid, -, ho, hc, -, hk'⟩
  · refine Or.inl ⟨?_, hnosend fun i v s p hb => by rcases hy with rfl | rfl <;> simp at hb⟩
    rw [(hd.envs e).ipc.2.1, hk1]
    exact he
  · refine Or.inl ⟨?_, hnosend fun i v s p hb => by rw [hx] at hb; simp at hb⟩
    have hne : e ≠ cur := fun heq => he (hk.idle e (hk.cur e (heq ▸ hc)))
    rw [(hd.envs e).ipc.2.1, hk1, Kern.setEnv_envs_of_ne _ _ hne]
    exact he
  · exact Or.inl ⟨he, fun hs => he (hsend e hs).1⟩
  · by_cases hee : e = e'
    · subst hee
      refine Or.inr ⟨envid, value, perm, cur, hx, hid, ho, hc, ?_⟩
      rw [hk', Kern.received, Kern.setEnv_envs_same]
      exact ⟨rfl, rfl, rfl⟩
    · refine Or.inl ⟨?_, ?_⟩
      · rw [hk', Kern.received, Kern.setEnv_envs_of_ne _ _ hee]
        exact he
      · rintro ⟨i, v, s, p, hb, hid'⟩
        rw [hx, Entry.ipcTrySend.injEq] at hb
        rw [← hb.1, hid] at hid'
        simp only [Except.ok.injEq, Option.some.injEq] at hid'
        exact hee hid'.symm

/-- An environment that does not wait keeps its message and is sent nothing, until it receives. -/
lemma idle_step {a : Entry} (ha : ValueIpc a) (h : enter M (k.trap tf) a = .ok (o, k'))
    (he : (k.envs e).ipcRecving = 0) :
    (SendTo k a e → o = some (-eIpcNotRecv) ∧ k' = k.trap tf) ∧
      (¬ RecvBy k a o e → (k'.envs e).ipcRecving = 0 ∧
        (k'.envs e).ipcValue = (k.envs e).ipcValue ∧ (k'.envs e).ipcFrom = (k.envs e).ipcFrom) := by
  have hnosend : ∀ {b : Entry}, (∀ i v s p, b ≠ .ipcTrySend i v s p) → ¬ SendTo k b e :=
    fun hb ⟨i, v, s, p, hsend, _⟩ => hb i v s p hsend
  rcases valueIpc_cases ha h with ⟨k1, c, hy, hk1, hd⟩ | ⟨dstva, cur, k1, c, hx, ho, hc, hk1, hd⟩ |
    ⟨-, rfl, hsend⟩ | ⟨envid, value, perm, e', cur, hx, hid, hrecv, ho, hc, -, hk'⟩
  · refine ⟨fun hs => absurd hs (hnosend fun i v s p hb => ?_), fun _ => ?_⟩
    · rcases hy with rfl | rfl <;> simp at hb
    · obtain ⟨-, h1, h2, h3, -⟩ := (hd.envs e).ipc
      rw [h1, h2, h3, hk1]
      exact ⟨he, rfl, rfl⟩
  · refine ⟨fun hs => absurd hs (hnosend fun i v s p hb => by rw [hx] at hb; simp at hb), fun hr => ?_⟩
    have hne : e ≠ cur := fun heq => hr ⟨dstva, hx, ho, heq ▸ hc⟩
    obtain ⟨-, h1, h2, h3, -⟩ := (hd.envs e).ipc
    rw [h1, h2, h3, hk1, Kern.setEnv_envs_of_ne _ _ hne]
    exact ⟨he, rfl, rfl⟩
  · exact ⟨fun hs => ⟨(hsend e hs).2, rfl⟩, fun _ => ⟨he, rfl, rfl⟩⟩
  · have hne : e ≠ e' := fun heq => hrecv (heq ▸ he)
    refine ⟨?_, fun _ => ?_⟩
    · rintro ⟨i, v, s, p, hb, hid'⟩
      rw [hx, Entry.ipcTrySend.injEq] at hb
      rw [← hb.1, hid] at hid'
      simp only [Except.ok.injEq, Option.some.injEq] at hid'
      exact absurd hid'.symm hne
    · rw [hk', Kern.received, Kern.setEnv_envs_of_ne _ _ hne]
      exact ⟨he, rfl, rfl⟩

/-- An environment that calls `sys_ipc_recv` waits. -/
lemma recvBy_step {a : Entry} (h : enter M (k.trap tf) a = .ok (o, k')) (hr : RecvBy k a o e) :
    (k'.envs e).ipcRecving ≠ 0 := by
  obtain ⟨dstva, rfl, rfl, hc⟩ := hr
  rcases sysIpcRecv_dispatched h with ⟨ho, -⟩ | ⟨cur, k1, c, -, hc', hd, hk1⟩
  · simp at ho
  · obtain rfl : e = cur := Option.some.inj (hc.symm.trans hc')
    rw [(hd.envs e).ipc.2.1, hk1, Kern.setEnv_envs_same]
    change (1 : Word) ≠ 0
    decide

/-! ## Runs -/

/-- A run of `n` entries that exchange values: the states, the entries and what they return. -/
structure IpcRun (M : Machine) (n : ℕ) (σ : ℕ → Kern) (act : ℕ → Entry)
    (res : ℕ → Option Word) : Prop where
  value : ∀ t < n, ValueIpc (act t)
  step : ∀ t < n, ∃ tf, enter M ((σ t).trap tf) (act t) = .ok (res t, σ (t + 1))

/-- Every environment in use is runnable and none waits for a message. -/
structure IpcStart (k : Kern) : Prop where
  runnable : ∀ e, (k.envs e).status ≠ .free → (k.envs e).status = .runnable
  idle : ∀ e, (k.envs e).ipcRecving = 0
  cur : ∀ c, k.curenv = some c → (k.envs c).status ≠ .free

/-- What a property of the steps gives between two times. -/
lemma holds_until {P : ℕ → Prop} {i j : ℕ} (hij : i ≤ j) (hi : P i)
    (hs : ∀ t, i ≤ t → t < j → P t → P (t + 1)) : P j := by
  induction j, hij using Nat.le_induction with
  | base => exact hi
  | succ j hij ih => exact hs j hij j.lt_succ_self (ih fun t h1 h2 => hs t h1 (h2.trans j.lt_succ_self))

/-- A property that holds at one time and not at a later one is lost in a step. -/
lemma exists_last {P : ℕ → Prop} {i j : ℕ} (hij : i ≤ j) (hi : P i) (hj : ¬ P j) :
    ∃ t, i ≤ t ∧ t < j ∧ (∀ u, i ≤ u → u ≤ t → P u) ∧ ¬ P (t + 1) := by
  classical
  have hex : ∃ u, i ≤ u ∧ ¬ P u := ⟨j, hij, hj⟩
  obtain ⟨hle, hnot⟩ := Nat.find_spec hex
  have hmin : ∀ u, i ≤ u → u < Nat.find hex → P u := fun u hiu hu => by
    by_contra hn
    exact Nat.find_min hex hu ⟨hiu, hn⟩
  have hne : Nat.find hex ≠ i := fun he => hnot (he.symm ▸ hi)
  have hj' : Nat.find hex ≤ j := Nat.find_min' hex ⟨hij, hj⟩
  refine ⟨Nat.find hex - 1, by omega, by omega, fun u hiu hu => hmin u hiu (by omega), ?_⟩
  rwa [Nat.sub_add_cancel (by omega)]

section Runs

variable {σ : ℕ → Kern} {act : ℕ → Entry} {res : ℕ → Option Word} {i j t u : ℕ}

lemma IpcStart.rendezvous (h : IpcStart k) : Rendezvous k :=
  ⟨fun e _ => h.idle e, fun c hc => h.runnable c (h.cur c hc)⟩

variable (hrun : IpcRun M n σ act res)

include hrun

lemma IpcRun.rendezvous (h0 : IpcStart (σ 0)) (ht : t ≤ n) : Rendezvous (σ t) := by
  refine holds_until (P := fun t => Rendezvous (σ t)) (Nat.zero_le t) h0.rendezvous ?_
  intro u _ hu hk
  obtain ⟨tf, hs⟩ := hrun.step u (hu.trans_le ht)
  exact hk.step (hrun.value u (hu.trans_le ht)) hs

/-- An environment that does not wait keeps its message until it receives again. -/
lemma IpcRun.keeps (htu : t ≤ u) (hu : u ≤ n) (he : ((σ t).envs e).ipcRecving = 0)
    (hno : ∀ v, t ≤ v → v < u → ¬ RecvBy (σ v) (act v) (res v) e) :
    ((σ u).envs e).ipcRecving = 0 ∧ ((σ u).envs e).ipcValue = ((σ t).envs e).ipcValue ∧
      ((σ u).envs e).ipcFrom = ((σ t).envs e).ipcFrom := by
  refine holds_until (P := fun u => ((σ u).envs e).ipcRecving = 0 ∧
    ((σ u).envs e).ipcValue = ((σ t).envs e).ipcValue ∧
      ((σ u).envs e).ipcFrom = ((σ t).envs e).ipcFrom) htu ⟨he, rfl, rfl⟩ ?_
  rintro v hv hvu ⟨h1, h2, h3⟩
  obtain ⟨tf, hs⟩ := hrun.step v (hvu.trans_le hu)
  obtain ⟨g1, g2, g3⟩ := (idle_step (hrun.value v (hvu.trans_le hu)) hs h1).2 (hno v hv hvu)
  exact ⟨g1, g2.trans h2, g3.trans h3⟩

/-- While an environment waits, nobody sends to it. -/
lemma IpcRun.not_sendTo (h0 : IpcStart (σ 0)) (ht : t < n) (he : ((σ t).envs e).ipcRecving ≠ 0)
    (he' : ((σ (t + 1)).envs e).ipcRecving ≠ 0) : ¬ SendTo (σ t) (act t) e := by
  obtain ⟨tf, hs⟩ := hrun.step t ht
  rcases (hrun.rendezvous h0 ht.le).waiting_step (hrun.value t ht) hs he with
    ⟨-, hno⟩ | ⟨_, _, _, _, -, -, -, -, hz, -⟩
  · exact hno
  · exact absurd hz he'

/-- A waiting environment has called `sys_ipc_recv` and not been sent to since. -/
lemma IpcRun.exists_recv (h0 : IpcStart (σ 0)) (ht : t ≤ n)
    (he : ((σ t).envs e).ipcRecving ≠ 0) :
    ∃ i < t, RecvBy (σ i) (act i) (res i) e ∧
      ∀ u, i < u → u ≤ t → ((σ u).envs e).ipcRecving ≠ 0 := by
  induction t with
  | zero => exact absurd (h0.idle e) he
  | succ t ih =>
    obtain ⟨tf, hs⟩ := hrun.step t ht
    by_cases hw : ((σ t).envs e).ipcRecving = 0
    · by_cases hr : RecvBy (σ t) (act t) (res t) e
      · refine ⟨t, t.lt_succ_self, hr, fun u h1 h2 => ?_⟩
        obtain rfl : u = t + 1 := by omega
        exact he
      · exact absurd ((idle_step (hrun.value t ht) hs hw).2 hr).1 he
    · obtain ⟨i, hi, hr, hall⟩ := ih (Nat.le_of_succ_le ht) hw
      refine ⟨i, hi.trans t.lt_succ_self, hr, fun u h1 h2 => ?_⟩
      rcases h2.lt_or_eq with h2 | rfl
      · exact hall u h1 (by omega)
      · exact he

/-- **Rendezvous.** From a state in which every environment in use is runnable and none waits,
whatever the order of receives, sends, yields and timer ticks: between a receive of `e` and the
next time `e` runs exactly one send to `e` returns 0, the other sends to `e` return
`-E_IPC_NOT_RECV` and change nothing, and `e` has the value and the sender of that message until
it receives again. A send to `e` outside such an interval changes nothing either. -/
theorem ipc_rendezvous (h0 : IpcStart (σ 0)) :
    (∀ i j e, i < j → j ≤ n → RecvBy (σ i) (act i) (res i) e → (σ j).curenv = some e →
      (∀ t, i < t → t < j → (σ t).curenv ≠ some e) →
      ∃ t envid value perm cur, i < t ∧ t < j ∧ act t = .ipcTrySend envid value 0 perm ∧
        envid2env (σ t) envid false = .ok (.ok (some e)) ∧ res t = some 0 ∧
        (σ t).curenv = some cur ∧
        (∀ u, i < u → u < j → u ≠ t → SendTo (σ u) (act u) e →
          res u = some (-eIpcNotRecv) ∧ ∃ tf, σ (u + 1) = (σ u).trap tf) ∧
        ∀ u, t < u → u ≤ n → (∀ v, t < v → v < u → ¬ RecvBy (σ v) (act v) (res v) e) →
          ((σ u).envs e).ipcValue = value ∧ ((σ u).envs e).ipcFrom = ((σ t).envs cur).id) ∧
    ∀ t < n, ∀ e, SendTo (σ t) (act t) e →
      (res t = some (-eIpcNotRecv) ∧ ∃ tf, σ (t + 1) = (σ t).trap tf) ∨
      (res t = some 0 ∧ ∃ i < t, RecvBy (σ i) (act i) (res i) e ∧
        (∀ u, i < u → u ≤ t → (σ u).curenv ≠ some e) ∧
        ∀ u, i < u → u < t → ¬ SendTo (σ u) (act u) e) := by
  have hinv : ∀ {t}, t ≤ n → Rendezvous (σ t) := fun ht => hrun.rendezvous h0 ht
  refine ⟨fun i j e hij hj hrecv hcur hnext => ?_, fun t ht e hsend => ?_⟩
  · -- `e` waits right after the receive and no longer when it runs, so a send has delivered
    obtain ⟨tf, hs⟩ := hrun.step i (hij.trans_le hj)
    have hstart : ((σ (i + 1)).envs e).ipcRecving ≠ 0 := recvBy_step hs hrecv
    have hend : ¬ ((σ j).envs e).ipcRecving ≠ 0 :=
      not_not.mpr ((hinv hj).idle e ((hinv hj).cur e hcur))
    obtain ⟨t, hit, htj, hwait, hdone⟩ :=
      exists_last (P := fun t => ((σ t).envs e).ipcRecving ≠ 0) hij hstart hend
    have htn := htj.trans_le hj
    obtain ⟨tf', hs'⟩ := hrun.step t htn
    rcases (hinv htn.le).waiting_step (hrun.value t htn) hs' (hwait t hit le_rfl) with
      ⟨hw, -⟩ | ⟨envid, value, perm, cur, hact, hid, hres, hc, hz, hv, hf⟩
    · exact absurd hw hdone
    have hnorecv : ∀ v, t + 1 ≤ v → v < j → ¬ RecvBy (σ v) (act v) (res v) e :=
      fun v hv hvj ⟨_, _, _, hcv⟩ => hnext v (by omega) hvj hcv
    refine ⟨t, envid, value, perm, cur, by omega, htj, hact, hid, hres, hc, ?_, ?_⟩
    · intro u hiu huj hut hsend
      rcases Nat.lt_or_gt_of_ne hut with hlt | hgt
      · exact absurd hsend (hrun.not_sendTo h0 (hlt.trans htn) (hwait u hiu hlt.le)
          (hwait (u + 1) (by omega) hlt))
      · have hun := huj.trans_le hj
        obtain ⟨tf, hs⟩ := hrun.step u hun
        have hidle := (hrun.keeps (Nat.succ_le_of_lt hgt) hun.le hz
          fun v h1 h2 => hnorecv v h1 (h2.trans huj)).1
        obtain ⟨h1, h2⟩ := (idle_step (hrun.value u hun) hs hidle).1 hsend
        exact ⟨h1, tf, h2⟩
    · intro u htu hun hno
      obtain ⟨-, h2, h3⟩ := hrun.keeps (Nat.succ_le_of_lt htu) hun hz fun v h1 h2 => hno v h1 h2
      exact ⟨h2.trans hv, h3.trans hf⟩
  · obtain ⟨tf, hs⟩ := hrun.step t ht
    by_cases hw : ((σ t).envs e).ipcRecving = 0
    · obtain ⟨h1, h2⟩ := (idle_step (hrun.value t ht) hs hw).1 hsend
      exact Or.inl ⟨h1, tf, h2⟩
    · rcases (hinv ht.le).waiting_step (hrun.value t ht) hs hw with
        ⟨-, hno⟩ | ⟨envid, value, perm, cur, -, -, hres, -⟩
      · exact absurd hsend hno
      obtain ⟨i, hi, hr, hall⟩ := hrun.exists_recv h0 ht.le hw
      refine Or.inr ⟨hres, i, hi, hr, fun u h1 h2 hc => ?_, fun u h1 h2 => ?_⟩
      · have hu := hinv (h2.trans ht.le)
        exact hall u h1 h2 (hu.idle e (hu.cur e hc))
      · exact hrun.not_sendTo h0 (h2.trans ht) (hall u h1 h2.le) (hall (u + 1) (by omega) h2)

end Runs

/-! ## A run of two environments -/

/-- Two environments of the small machine: both are runnable and the first one runs. -/
def pairKern : Kern where
  pm := smallMem
  envs := fun e =>
    if e = 0 then { Env.zero with id := 0x800, status := .runnable, pri := 1 }
    else if e = 1 then
      { Env.zero with id := 0x1001, asid := 1, status := .runnable, pgdir := 1, pri := 1 }
    else Env.zero
  envFreeList := []
  envSchedList :=
    { first := some 0
      last := .next 1
      next := fun e => if e = 0 then some 1 else none
      prev := fun e => if e = 0 then .first else if e = 1 then .next 0 else .null }
  curenv := some 0
  curPgdir := 0
  basePgdir := 0
  asidBitmap := fun _ => 3
  envidCount := 2
  count := 1
  ktf := Env.zero.tf

/-- The first environment receives, the second one sends 5 to it and yields. -/
def pairEntries : ℕ → Entry
  | 0 => .ipcRecv 0
  | 1 => .ipcTrySend 0x800#32 5 0 0
  | _ => .yield

def pairRun : ℕ → Kern
  | 0 => pairKern
  | t + 1 => after smallMachine (pairRun t) (pairEntries t)

def pairResults : ℕ → Option Word
  | 1 => some 0
  | _ => none

lemma pairRun_ipcRun : IpcRun smallMachine 3 pairRun pairEntries pairResults where
  value t _ := by
    rcases t with _ | _ | t <;> simp [pairEntries, ValueIpc]
  step t ht := by
    refine ⟨(pairRun t).ktf, ?_⟩
    interval_cases t <;> rfl

lemma pairKern_start : IpcStart pairKern := by
  refine ⟨fun e he => ?_, fun e => ?_, fun c hc => ?_⟩
  · unfold pairKern at he ⊢
    simp only at he ⊢
    split_ifs at he ⊢ <;> simp_all [Env.zero]
  · unfold pairKern
    simp only
    split_ifs <;> rfl
  · simp only [pairKern, Option.some.injEq] at hc
    subst hc
    decide

/-- The second environment's send is the one that succeeds. -/
theorem ipc_rendezvous_pair : ∃ t envid value perm cur, 0 < t ∧ t < 3 ∧
    pairEntries t = .ipcTrySend envid value 0 perm ∧
    envid2env (pairRun t) envid false = .ok (.ok (some 0)) ∧ pairResults t = some 0 ∧
    (pairRun t).curenv = some cur ∧ ((pairRun 3).envs 0).ipcValue = value ∧
    ((pairRun 3).envs 0).ipcFrom = ((pairRun t).envs cur).id := by
  have hnext : ∀ t, 0 < t → t < 3 → (pairRun t).curenv ≠ some 0 := by
    intro t h1 h2
    interval_cases t <;> decide
  obtain ⟨t, envid, value, perm, cur, h1, h2, h3, h4, h5, h6, -, hkeep⟩ :=
    (ipc_rendezvous pairRun_ipcRun pairKern_start).1 0 3 0 (by decide) le_rfl
      ⟨0, rfl, rfl, rfl⟩ (by decide) hnext
  obtain ⟨hv, hf⟩ := hkeep 3 h2 le_rfl fun v hv hv3 ⟨_, _, _, hc⟩ => hnext v (by omega) hv3 hc
  exact ⟨t, envid, value, perm, cur, h1, h2, h3, h4, h5, h6, hv, hf⟩

/-! ## Sends that fail -/

/-- Nothing is mapped at `va`, which `page_lookup` finds out without a panic. -/
def Unmapped (M : Machine) (s : PhysMem) (d : ℕ) (va : Word) : Prop :=
  (pteValid (s.mem d (pdx va)) = true → ppn (s.mem d (pdx va)) < M.npage) ∧ translate s d va = none

/-- The page `pp` is mapped at `va`, and `page_lookup` finds it. -/
def Mapped (M : Machine) (s : PhysMem) (d : ℕ) (va : Word) (pp : ℕ) : Prop :=
  ppn (s.mem d (pdx va)) < M.npage ∧ pp < M.npage ∧ ∃ w, translate s d va = some w ∧ ppn w = pp

/-- There is no free page, and `va` has no page table; or it has lost it when its entry was its own
directory entry and `page_insert` has replaced that. -/
def NoTable (M : Machine) (s : PhysMem) (d : ℕ) (va : Word) (pp : ℕ) : Prop :=
  s.pageFreeList = [] ∧ (pteValid (s.mem d (pdx va)) = false ∨
    (pteValid (s.mem d (pdx va)) = true ∧ ppn (s.mem d (pdx va)) = d ∧ ptx va = pdx va ∧
      d < M.npage ∧ d ≠ pp ∧ s.ppRef d ≠ 0 ∧ s.ppRef d ≠ 1))

lemma pageLookup_eq_none_iff : pageLookup M s d va = .ok none ↔ Unmapped M s d va := by
  constructor
  · intro h
    rcases pageLookup_cases h with ⟨-, hn⟩ | ⟨h0, -⟩
    · exact ⟨fun hv => (hn hv).1, translate_eq_none_iff.mpr fun hv => (hn hv).2⟩
    · simp at h0
  · rintro ⟨ht, hn⟩
    exact pageLookup_none fun hv => ⟨ht hv, translate_eq_none_iff.mp hn hv⟩

lemma pageLookup_eq_some_iff {pp : ℕ} :
    (∃ pte, pageLookup M s d va = .ok (some (pp, pte))) ↔ Mapped M s d va pp := by
  constructor
  · rintro ⟨pte, h⟩
    rcases pageLookup_cases h with ⟨h0, -⟩ | ⟨h1, hv, ht, hw, hlt⟩
    · simp at h0
    · simp only [Option.some.injEq, Prod.mk.injEq] at h1
      rw [h1.1]
      exact ⟨ht, hlt, _, translate_eq_some_iff.mpr ⟨hv, rfl, hw⟩, rfl⟩
  · rintro ⟨ht, hlt, w, hw, rfl⟩
    obtain ⟨hv, rfl, hwv⟩ := translate_eq_some_iff.mp hw
    exact ⟨_, pageLookup_some hv ht hwv hlt⟩

/-- The installing half of `page_insert` fails without a page table and without a free page. -/
lemma pageInstall_fails_iff {asid : Word} {pp : ℕ} :
    (∃ r s', pageInstall M s d asid pp va perm = .ok (r, s') ∧ r ≠ 0) ↔
      pteValid (s.mem d (pdx va)) = false ∧ s.pageFreeList = [] := by
  constructor
  · rintro ⟨r, s', h, hr⟩
    rcases hv : pteValid (s.mem d (pdx va)) with _ | _
    · rcases hf : s.pageFreeList with _ | ⟨q, rest⟩
      · exact ⟨rfl, rfl⟩
      · -- a table is created, if the page can be cleared
        unfold pageInstall pgdirWalk pageAlloc at h
        simp only [PhysMem.tlbInvalidate_mem, hv, PhysMem.tlbInvalidate_pageFreeList, hf,
          Bool.false_eq_true, ↓reduceIte] at h
        obtain ⟨⟨r1, o, s1⟩, hwalk, h⟩ := bind_eq_ok.mp h
        obtain ⟨⟨a, s2⟩, halloc, hwalk⟩ := bind_eq_ok.mp hwalk
        obtain ⟨kva, -, halloc⟩ := bind_eq_ok.mp halloc
        obtain ⟨rfl, -⟩ := pure_pair_inj halloc
        obtain ⟨table, -, hwalk⟩ := bind_eq_ok.mp hwalk
        simp only [pure_eq_ok, Except.ok.injEq, Prod.mk.injEq] at hwalk
        obtain ⟨rfl, rfl, -⟩ := hwalk
        simp only [ne_eq, not_true_eq_false, ↓reduceIte, pure_eq_ok, Except.ok.injEq,
          Prod.mk.injEq] at h
        exact absurd h.1.symm hr
    · by_cases ht : ppn (s.mem d (pdx va)) < M.npage
      · rw [pageInstall_table hv ht] at h
        simp only [Except.ok.injEq, Prod.mk.injEq] at h
        exact absurd h.1.symm hr
      · unfold pageInstall pgdirWalk at h
        simp [hv, kaddr, ppn_pteAddr, Nat.not_lt.mp ht] at h
  · rintro ⟨hv, hf⟩
    exact ⟨_, _, pageInstall_nil hv hf, by decide⟩

/-- `page_insert` fails exactly when it finds neither a page table nor a free page. -/
lemma pageInsert_fails_iff {asid : Word} {pp : ℕ} :
    (∃ r s', pageInsert M s d asid pp va perm = .ok (r, s') ∧ r ≠ 0) ↔ NoTable M s d va pp := by
  by_cases hv : pteValid (s.mem d (pdx va)) = true
  swap
  · rw [pageInsert_unmapped fun h => absurd h hv, pageInstall_fails_iff]
    have hv := Bool.eq_false_iff.mpr hv
    exact ⟨fun h => ⟨h.2, Or.inl h.1⟩, fun h => ⟨hv, h.1⟩⟩
  have hnv : pteValid (s.mem d (pdx va)) ≠ false := by simp [hv]
  by_cases ht : ppn (s.mem d (pdx va)) < M.npage
  swap
  · constructor
    · rintro ⟨r, s', h, -⟩
      unfold pageInsert pgdirWalk at h
      simp [hv, kaddr, ppn_pteAddr, Nat.not_lt.mp ht] at h
    · rintro ⟨-, hn | ⟨-, he, -, hd, -⟩⟩
      · exact absurd hn hnv
      · exact absurd (he.symm ▸ hd) ht
  by_cases hw : pteValid (pteWord s d va) = true
  swap
  · have hw := Bool.eq_false_iff.mpr hw
    rw [pageInsert_unmapped fun _ => ⟨ht, hw⟩, pageInstall_fails_iff]
    refine ⟨fun h => absurd h.1 hnv, ?_⟩
    rintro ⟨-, hn | ⟨-, he, hi, -⟩⟩
    · exact absurd hn hnv
    · -- an entry that is its own directory entry is valid
      rw [pteWord, he, hi, hv] at hw
      exact absurd hw (by simp)
  by_cases hp : ppn (pteWord s d va) < M.npage
  swap
  · constructor
    · rintro ⟨r, s', h, -⟩
      unfold pageInsert at h
      rw [pgdirWalk_valid false hv ht] at h
      have hw' := hw
      rw [pteWord] at hw' hp
      simp [hw', pa2page, Nat.not_lt.mp hp] at h
    · rintro ⟨-, hn | ⟨-, he, hi, hd, -⟩⟩
      · exact absurd hn hnv
      · rw [pteWord, he, hi, he] at hp
        exact absurd hd hp
  by_cases he : ppn (pteWord s d va) = pp
  · rw [pageInsert_same hv ht hw hp he]
    constructor
    · rintro ⟨r, s', h, hr⟩
      simp only [Except.ok.injEq, Prod.mk.injEq] at h
      exact absurd h.1.symm hr
    · rintro ⟨-, hn | ⟨-, hself, hi, -, hne, -⟩⟩
      · exact absurd hn hnv
      · rw [pteWord, hself, hi, hself] at he
        exact absurd he hne
  rw [pageInsert_other hv ht hw hp he]
  by_cases h0 : s.ppRef (ppn (pteWord s d va)) = 0
  · constructor
    · rintro ⟨r, s', h, -⟩
      obtain ⟨s1, hrem, -⟩ := bind_eq_ok.mp h
      rcases pageRemove_cases hrem with ⟨-, hnone⟩ | ⟨-, -, -, -, hne, -⟩
      · rw [pageLookup_some hv ht hw hp] at hnone
        simp at hnone
      · exact absurd h0 hne
    · rintro ⟨-, hn | ⟨-, hself, hi, -, -, hne, -⟩⟩
      · exact absurd hn hnv
      · rw [pteWord, hself, hi, hself] at h0
        exact absurd h0 hne
  rw [pageRemove_mapped hv ht hw hp h0, ok_bind, pageInstall_fails_iff]
  -- the directory entry is lost if it was the entry, and the old page is freed if that was the
  -- last reference
  simp only [PhysMem.tlbInvalidate_mem, PhysMem.setWord_mem, decRef_mem,
    PhysMem.tlbInvalidate_pageFreeList, PhysMem.setWord_pageFreeList, decRef_pageFreeList]
  have hself : ppn (s.mem d (pdx va)) = d → ptx va = pdx va → ppn (pteWord s d va) = d := by
    intro h1 h2
    rw [pteWord, h1, h2, h1]
  constructor
  · rintro ⟨h1, h2⟩
    have hs : d = ppn (s.mem d (pdx va)) ∧ pdx va = ptx va := by
      by_contra hn
      rw [TwoLevel.write_of_ne (by tauto), hv] at h1
      exact absurd h1 (by simp)
    have hold := hself hs.1.symm hs.2.symm
    split_ifs at h2 with h3
    rw [hold] at h3 h0 hp he
    exact ⟨h2, Or.inr ⟨hv, hs.1.symm, hs.2.symm, hp, he, h0, h3⟩⟩
  · rintro ⟨hf, hn | ⟨-, h1, h2, -, -, -, h3⟩⟩
    · exact absurd hn hnv
    · rw [hself h1 h2, if_neg h3, h1, h2]
      exact ⟨by rw [TwoLevel.write_same, pteValid_zero], hf⟩

/-- The elements that are reached from `tqh_first` of `env_sched_list`. -/
def InSchedList (k : Kern) (e : EnvPtr) : Prop :=
  ∃ i, (fun o : Option EnvPtr => o.bind k.envSchedList.next)^[i] k.envSchedList.first = some e

/-- The environment `e` is as before: its fields, its address space and its place in a queue. -/
structure SameTarget (k k' : Kern) (e : EnvPtr) : Prop where
  env : k'.envs e = k.envs e
  space : ∀ va, translate k'.pm (k.envs e).pgdir va = translate k.pm (k.envs e).pgdir va
  sched : InSchedList k' e ↔ InSchedList k e

/-- **The sends that fail too late**: the checks pass, but there is no page at `srcva`, or there is
neither a page table for it nor a free page. The target has been put in the queue then. -/
def LateFailure (M : Machine) (k : Kern) (envid srcva : Word) : Prop :=
  srcva ≠ 0 ∧ isIllegalVa srcva = false ∧ ∃ e cur,
    envid2env k envid false = .ok (.ok (some e)) ∧ (k.envs e).ipcRecving ≠ 0 ∧
    k.curenv = some cur ∧
    (Unmapped M k.pm (k.envs cur).pgdir srcva ∨
      ∃ pp, Mapped M k.pm (k.envs cur).pgdir srcva pp ∧
        NoTable M k.pm (k.envs e).pgdir (k.envs e).ipcDstva pp)

lemma insertTail_eq_none_iff {q : TailQ EnvPtr} : q.insertTail e = none ↔ q.last = .null := by
  unfold TailQ.insertTail
  rcases hq : q.last <;> simp [TailQ.store]

/-- A send whose checks pass, from the transfer of the page on. -/
lemma sysIpcTrySend_transfer {cur : EnvPtr} {q : TailQ EnvPtr} (hsrc : srcva ≠ 0)
    (hva : isIllegalVa srcva = false) (hid : envid2env k envid false = .ok (.ok (some e)))
    (hrecv : (k.envs e).ipcRecving ≠ 0) (hc : k.curenv = some cur)
    (hq : k.envSchedList.insertTail e = some q) :
    sysIpcTrySend M k envid value srcva perm = (do
      let k1 := { k.received e cur value perm with envSchedList := q }
      match ← pageLookup M k.pm (k.envs cur).pgdir srcva with
      | none => pure (-eInval, k1)
      | some (pp, _) =>
        let (r, pm) ← pageInsert M k.pm (k.envs e).pgdir (k.envs e).asid pp (k.envs e).ipcDstva perm
        pure (r, { k1 with pm := pm })) := by
  obtain ⟨h1, h2, h3⟩ := k.received_fields e cur value perm e
  obtain ⟨h4, -⟩ := k.received_fields e cur value perm cur
  have hdeliver : ipcDeliver k e cur value perm =
      .ok { k.received e cur value perm with envSchedList := q } := by
    unfold ipcDeliver
    change (deref (k.envSchedList.insertTail e) >>= _) = _
    rw [hq]
    rfl
  unfold sysIpcTrySend
  rw [if_neg (by simp [hva]), hid]
  simp only [ok_bind, deref, pure_eq_ok, hrecv, ↓reduceIte, hc, hdeliver, ne_eq, hsrc,
    not_false_eq_true]
  simp only [h1, h2, h3, h4]
  rfl

/-- A late failure returns an error and has cleared `env_ipc_recving` of the target, if the queue has a
last slot. -/
lemma LateFailure.exists_error (h : LateFailure M k envid srcva)
    (hlast : k.envSchedList.last ≠ .null) (value perm : Word) :
    ∃ r k' e, sysIpcTrySend M k envid value srcva perm = .ok (r, k') ∧ r ≠ 0 ∧
      envid2env k envid false = .ok (.ok (some e)) ∧ k'.envs e ≠ k.envs e := by
  obtain ⟨hsrc, hva, e, cur, hid, hrecv, hc, hpage⟩ := h
  obtain ⟨q, hq⟩ := Option.ne_none_iff_exists'.mp (mt (insertTail_eq_none_iff (e := e)).mp hlast)
  have hchanged : (k.received e cur value perm).envs e ≠ k.envs e := fun he => by
    rw [← he, Kern.received, Kern.setEnv_envs_same] at hrecv
    exact hrecv rfl
  rcases hpage with hnone | ⟨pp, hpp, hfail⟩
  · refine ⟨-eInval, { k.received e cur value perm with envSchedList := q }, e, ?_, by decide, hid,
      hchanged⟩
    rw [sysIpcTrySend_transfer hsrc hva hid hrecv hc hq, pageLookup_eq_none_iff.mpr hnone]
    rfl
  · obtain ⟨pte, hlook⟩ := pageLookup_eq_some_iff.mpr hpp
    obtain ⟨r, pm', hins, hr⟩ : ∃ r pm', pageInsert M k.pm (k.envs e).pgdir (k.envs e).asid pp
        (k.envs e).ipcDstva perm = .ok (r, pm') ∧ r ≠ 0 := pageInsert_fails_iff.mpr hfail
    refine ⟨r, { k.received e cur value perm with envSchedList := q, pm := pm' }, e, ?_, hr, hid,
      hchanged⟩
    rw [sysIpcTrySend_transfer hsrc hva hid hrecv hc hq, hlook]
    simp only [ok_bind, hins]
    rfl

/-- **When a failed send is not delivered.** Whenever `sys_ipc_try_send` returns an error the target is
as before, if and only if the call is not one that fails late. A call that fails late with `tqh_last`
null is left out: its store through `tqh_last` goes to address 0 of the sender, which is not modelled.

**Proof sketch.** After the checks the target is changed first, so an error behind them is seen in
`env_ipc_recving`; the errors before them change nothing. -/
theorem failed_send_unchanged_iff (M : Machine) (k : Kern) (envid value srcva perm : Word)
    (hlast : LateFailure M k envid srcva → k.envSchedList.last ≠ .null) :
    (∀ r k', sysIpcTrySend M k envid value srcva perm = .ok (r, k') → r ≠ 0 →
      ∀ e, envid2env k envid false = .ok (.ok (some e)) → SameTarget k k' e) ↔
    ¬ LateFailure M k envid srcva := by
  constructor
  · rintro hsame hlate
    obtain ⟨r, k', e, hs, hr, hid, hne⟩ := hlate.exists_error (hlast hlate) value perm
    exact hne (hsame r k' hs hr e hid).env
  · intro hlate r k' hs hr e hid
    rcases sysIpcTrySend_cases hs with ⟨rfl, -⟩ | ⟨e', cur, q, hva, hid', hrecv, hc, hq, hk⟩
    · exact ⟨rfl, fun _ => rfl, Iff.rfl⟩
    refine absurd ?_ hlate
    rcases hk with ⟨-, h0, -⟩ | ⟨hsrc, -, hnone, -⟩ | ⟨pp, pte, pm', hsrc, hlook, hins, -⟩
    · exact absurd h0 hr
    · exact ⟨hsrc, hva.resolve_left hsrc, e', cur, hid', hrecv, hc,
        Or.inl (pageLookup_eq_none_iff.mp hnone)⟩
    · exact ⟨hsrc, hva.resolve_left hsrc, e', cur, hid', hrecv, hc,
        Or.inr ⟨pp, pageLookup_eq_some_iff.mp ⟨pte, hlook⟩,
          pageInsert_fails_iff.mp ⟨r, pm', hins, hr⟩⟩⟩

/-- The second environment sends from an unmapped address to the first one, which waits. -/
theorem failed_send_unchanged_iff_pair : ¬ ∀ r k',
    sysIpcTrySend smallMachine (pairRun 1) 0x800#32 5 0x400000#32 0 = .ok (r, k') → r ≠ 0 →
      ∀ e, envid2env (pairRun 1) 0x800#32 false = .ok (.ok (some e)) → SameTarget (pairRun 1) k' e :=
  fun h => (failed_send_unchanged_iff smallMachine (pairRun 1) 0x800#32 5 0x400000#32 0
    fun _ => by decide).mp h ⟨by decide, rfl, 0, 1, rfl, by decide, rfl,
      .inl (pageLookup_eq_none_iff.mp rfl)⟩

/-- The call returns `-E_INVAL`, and the target is runnable and no longer waits. -/
theorem failed_send_delivered :
    ¬ ∀ (M : Machine) (k : Kern) (envid value srcva perm r : Word) (k' : Kern),
      sysIpcTrySend M k envid value srcva perm = .ok (r, k') → r ≠ 0 →
        ∀ e, envid2env k envid false = .ok (.ok (some e)) → SameTarget k k' e := by
  intro h
  have hsend : ∃ k', sysIpcTrySend smallMachine (pairRun 1) 0x800#32 5 0x400000#32 0 =
      .ok (-eInval, k') ∧ (k'.envs 0).status = .runnable := ⟨_, rfl, rfl⟩
  obtain ⟨k', hs, hrun⟩ := hsend
  have he := (h _ _ _ _ _ _ _ _ hs (by decide) 0 rfl).env
  rw [he] at hrun
  exact absurd hrun (by decide)

end MosVolca
