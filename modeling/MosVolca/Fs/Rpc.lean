import MosVolca.Kern.Blocked
import MosVolca.Fs.ReplySend

/-!
# Calls of the file server

`fsipc` of `user/lib/fsipc.c` sends a request to the file server and then receives, from anyone. The
server of `fs/serv.c` serves one request after the other. This file follows both through a run of
the kernel in which all other environments do what they like, and shows when the message that a
client returns with is the reply to its own request.

## Main definitions

* `MosVolca.ServeStep`, `MosVolca.ServeRun` — the loop of the server.
* `MosVolca.FsipcCall` — a call of `fsipc`, from its request to its return.
* `MosVolca.OwnReply` — the client returns with what the server has sent for its request.
* `MosVolca.Undisturbed` — no other environment interferes with a call.

## Main results

* `MosVolca.ServeRun.round` — between two calls of `ipc_recv` the server serves one request.
* `MosVolca.fsipc_own_reply` — an undisturbed call returns with its own reply.
-/

namespace MosVolca

/-! ## The server -/

/-- The system call of an attempt to send. -/
def IpcSend.entry (m : IpcSend) : Entry := .ipcTrySend m.whom m.value m.srcva m.perm

/-- The calls that the server makes while it works on a request. -/
def Work : Entry → Prop
  | .ipcTrySend _ _ _ _ | .ipcRecv _ | .timer | .envCreate _ _ => False
  | _ => True

/-- The places of the server in the loop of `serve`. -/
inductive ServePc
  /-- at `ipc_recv` -/
  | recv
  /-- in `ipc_recv`, or back from it -/
  | waiting
  /-- in the function of a request of `whom`, after so many replies -/
  | serving (whom : Word) (sent : ℕ)
  /-- in the loop of `ipc_send`, at `syscall_yield` and at `syscall_ipc_try_send` -/
  | yielding (m : IpcSend) (sent : ℕ)
  | sending (m : IpcSend) (sent : ℕ)
  /-- The assertion of `ipc_send` has failed. -/
  | failed

/-- Where the server is after an attempt to send has returned `r`. -/
def ServePc.tried (m : IpcSend) (sent : ℕ) (r : Word) : ServePc :=
  if r = -eIpcNotRecv then .yielding m sent
  else if r = 0 then .serving m.whom (sent + 1)
  else .failed

/-- What the server does: at its place it makes the call `a`, which returns `o`. It reads the fields
of its environment when it comes back from `ipc_recv`. -/
inductive ServeStep (env : Env) : ServePc → Entry → Option Word → ServePc → Prop
  | recv {o : Option Word} : ServeStep env .recv (.ipcRecv reqVa) o .waiting
  | noArgument {whom : Word} {o : Option Word} : serve (ipcRecv env) = .noArgument whom →
    ServeStep env .waiting (.ipcRecv reqVa) o .waiting
  | badCode {whom req : Word} {o : Option Word} : serve (ipcRecv env) = .badCode whom req →
    ServeStep env .waiting (.memUnmap 0 reqVa) o .recv
  | dispatchWork {whom : Word} {req : FsReq} {a : Entry} {o : Option Word} :
    serve (ipcRecv env) = .dispatch whom req → Work a →
    ServeStep env .waiting a o (.serving whom 0)
  | dispatchSend {m : IpcSend} {req : FsReq} {r : Word} :
    serve (ipcRecv env) = .dispatch m.whom req →
    ServeStep env .waiting m.entry (some r) (.tried m 0 r)
  | work {whom : Word} {sent : ℕ} {a : Entry} {o : Option Word} : Work a →
    ServeStep env (.serving whom sent) a o (.serving whom sent)
  | send {m : IpcSend} {sent : ℕ} {r : Word} :
    ServeStep env (.serving m.whom sent) m.entry (some r) (.tried m sent r)
  | yield {m : IpcSend} {sent : ℕ} {o : Option Word} :
    ServeStep env (.yielding m sent) .yield o (.sending m sent)
  | retry {m : IpcSend} {sent : ℕ} {r : Word} :
    ServeStep env (.sending m sent) m.entry (some r) (.tried m sent r)
  | done {whom : Word} {sent : ℕ} {o : Option Word} : 0 < sent →
    ServeStep env (.serving whom sent) (.memUnmap 0 reqVa) o .recv
  | exit {a : Entry} {o : Option Word} : Work a → ServeStep env .failed a o .failed

variable {M : Machine} {k k' : Kern} {srv c e : EnvPtr} {m : IpcSend} {n s r t u : ℕ}
  {σ : ℕ → Kern} {act : ℕ → Entry} {res : ℕ → Option Word} {pc : ℕ → ServePc}
  {type srcva perm dstva whom : Word} {tf : Trapframe} {o : Option Word} {a : Entry}

/-- The environment `srv` runs the loop of `serve`, which it enters at time 0. -/
structure ServeRun (srv : EnvPtr) (n : ℕ) (σ : ℕ → Kern) (act : ℕ → Entry)
    (res : ℕ → Option Word) (pc : ℕ → ServePc) : Prop where
  start : pc 0 = .recv
  idle : ((σ 0).envs srv).ipcRecving = 0
  call : ∀ t < n, CallOf (σ t) (act t) srv →
    ServeStep ((σ t).envs srv) (pc t) (act t) (res t) (pc (t + 1))
  keep : ∀ t < n, ¬ CallOf (σ t) (act t) srv → pc (t + 1) = pc t

/-! ## The client -/

/-- A call of `fsipc` by the environment `c`: its request is delivered at time `s`, it receives at
time `r`, and at time `u` it runs again and looks at the message. -/
structure FsipcCall (srv c : EnvPtr) (σ : ℕ → Kern) (act : ℕ → Entry) (res : ℕ → Option Word)
    (s r u : ℕ) (type srcva dstva : Word) : Prop where
  order : s < r ∧ r < u
  request : ∃ req, FsReq.ofWord type = some req
  send : Delivers (σ s) (act s) srv c type srcva pteD
  sent : res s = some 0
  quiet : ∀ v, s < v → v < r → ¬ CallOf (σ v) (act v) c
  recv : act r = .ipcRecv dstva ∧ res r = none ∧ (σ r).curenv = some c
  back : (σ u).curenv = some c
  once : ∀ v, r < v → v < u → ¬ RecvBy (σ v) (act v) (res v) c

/-- The client returns with the reply to its request: at some time `t` since it has received, the
server, which has not received anything since the request of time `s`, has sent `m` to it; the
client finds the fields of `m` in its environment and, if there is one, the page of `m` at
`dstva`. -/
def OwnReply (M : Machine) (srv c : EnvPtr) (σ : ℕ → Kern) (act : ℕ → Entry)
    (res : ℕ → Option Word) (s r u : ℕ) (dstva : Word) : Prop :=
  ∃ (t : ℕ) (m : IpcSend), r < t ∧ t < u ∧ (σ t).curenv = some srv ∧ act t = m.entry ∧
    res t = some 0 ∧ m.whom = ((σ s).envs c).id ∧
    (∀ v, s < v → v ≤ t → ¬ RecvBy (σ v) (act v) (res v) srv) ∧
    ipcRecv ((σ u).envs c) = ⟨m.value, ((σ t).envs srv).id, pteV ||| m.perm⟩ ∧
    ((σ t).envs c).ipcDstva = dstva ∧
    (m.srcva ≠ 0 → MessageMaps M (σ t) (σ (t + 1)) c srv m.srcva m.perm)

/-- No other environment interferes with the call: while the client waits only the server sends to
it, pages that can be mapped; the two are not woken by `sys_set_env_status`, nor are environments
created in their slots; and the client does not wait already when it sends. -/
structure Undisturbed (M : Machine) (srv c : EnvPtr) (σ : ℕ → Kern) (act : ℕ → Entry)
    (s r u : ℕ) : Prop where
  idle : ((σ s).envs c).ipcRecving = 0
  sender : ∀ v, r < v → v < u → ∀ cur value srcva perm,
    Delivers (σ v) (act v) c cur value srcva perm →
      cur = srv ∧ (srcva = 0 ∨ CarriesPage M (σ v) c cur srcva)
  client : ∀ v, r < v → v < u → Spared (σ v) c (act v)
  server : ∀ v < u, Spared (σ v) srv (act v)

/-! ## Messages -/

/-- A send that returns 0 has been delivered, to the environment of its identifier. -/
lemma delivered_of_sent {envid value : Word}
    (h : enter M (k.trap tf) (.ipcTrySend envid value srcva perm) = .ok (some 0, k')) :
    ∃ e, envid2env k envid false = .ok (.ok (some e)) ∧
      DeliveredTo k (.ipcTrySend envid value srcva perm) e := by
  obtain ⟨⟨r, k1⟩, hs, h⟩ := bind_eq_ok.mp h
  simp only [pure_eq_ok, Except.ok.injEq, Prod.mk.injEq, Option.some.injEq] at h
  obtain ⟨rfl, -⟩ := h
  rcases sysIpcTrySend_cases hs with ⟨-, ⟨-, -, hr⟩ | ⟨-, hr⟩ | ⟨e, -, -, hr⟩⟩ |
    ⟨e, cur, q, hva, hid, hrecv, hc, -, -⟩
  · exact absurd hr (by decide)
  · exact absurd hr (by decide)
  · exact absurd hr (by decide)
  · exact ⟨e, hid, envid, value, srcva, perm, cur, rfl, hva, hid, hrecv, hc⟩

/-- The fields that a message leaves with its receiver. -/
lemma Delivers.fields {cur : EnvPtr} {value : Word} (ha : Delivers k a e cur value srcva perm)
    (h : enter M (k.trap tf) a = .ok (o, k')) : (k'.envs e).message =
      (0, value, (k.envs cur).id, pteV ||| perm, (k.envs e).ipcDstva) := by
  obtain ⟨h0, -⟩ := ha.message h
  obtain ⟨envid, rfl, -, -, hrecv, hcur⟩ := ha
  rcases enter_message h e with hm | ⟨dstva, ha, -⟩ | ⟨_, _, _, _, cur', ha, -, -, hc, hm⟩
  · exact absurd ((congrArg Prod.fst hm).symm.trans h0) hrecv
  · simp at ha
  · simp only [Entry.ipcTrySend.injEq] at ha
    obtain ⟨-, rfl, -, rfl⟩ := ha
    obtain rfl : cur = cur' := Option.some.inj (hcur.symm.trans hc)
    exact hm

/-- The server dispatches a message with a request. -/
lemma serve_of_message {env : Env} {req : FsReq} {x d : Word}
    (hm : env.message = (x, type, whom, pteV ||| perm, d)) (hreq : FsReq.ofWord type = some req) :
    serve (ipcRecv env) = .dispatch whom req := by
  simp only [Env.message, Prod.mk.injEq] at hm
  obtain ⟨-, hv, hf, hp, -⟩ := hm
  simp only [serve, ipcRecv, hv, hf, hp, pteValid_pteV_or, hreq, ↓reduceIte]

/-- **The first message** ends a wait. -/
lemma KernRun.first_message (hrun : KernRun M n σ act res) (htu : t ≤ u) (hu : u ≤ n)
    (hb : Blocked (σ t) e) (hs : ∀ v, t ≤ v → v < u → Spared (σ v) e (act v)) :
    (∀ w, t ≤ w → w ≤ u → Blocked (σ w) e) ∨
      ∃ v, t ≤ v ∧ v < u ∧ DeliveredTo (σ v) (act v) e ∧ ∀ w, t ≤ w → w ≤ v → Blocked (σ w) e := by
  induction u, htu using Nat.le_induction with
  | base =>
    left
    intro w h1 h2
    obtain rfl : w = t := by omega
    exact hb
  | succ u htu ih =>
    rcases ih (by omega) fun v h1 h2 => hs v h1 (by omega) with hall | ⟨v, h1, h2, h3⟩
    · obtain ⟨tf, h⟩ := hrun u hu
      rcases (hall u htu le_rfl).step (hs u htu u.lt_succ_self) h with hb' | hd
      · left
        intro w h1 h2
        rcases Nat.lt_succ_iff_lt_or_eq.mp (Nat.lt_succ_of_le h2) with h2 | rfl
        · exact hall w h1 (by omega)
        · exact hb'
      · exact Or.inr ⟨u, htu, u.lt_succ_self, hd, hall⟩
    · exact Or.inr ⟨v, h1, by omega, h3⟩

/-- An entry changes the message fields of an environment that receives or is sent a message. -/
lemma message_same_step (h : enter M (k.trap tf) a = .ok (o, k')) (hrecv : ¬ RecvBy k a o e)
    (hsend : ¬ DeliveredTo k a e) : (k'.envs e).message = (k.envs e).message := by
  rcases enter_message h e with hm | hr | ⟨envid, value, srcva, perm, cur, rfl, hid, h1, hc, -⟩
  · exact hm
  · exact absurd hr hrecv
  · obtain ⟨⟨r, k1⟩, hs, h⟩ := bind_eq_ok.mp h
    obtain ⟨-, rfl⟩ := pure_pair_inj h
    rcases sysIpcTrySend_cases hs with ⟨rfl, -⟩ | ⟨e', cur', q, hva, -⟩
    · rfl
    · exact absurd ⟨envid, value, srcva, perm, cur, rfl, hva, hid, h1, hc⟩ hsend

lemma KernRun.message_same (hrun : KernRun M n σ act res) (htu : t ≤ u) (hu : u ≤ n)
    (hrecv : ∀ v, t ≤ v → v < u → ¬ RecvBy (σ v) (act v) (res v) e)
    (hsend : ∀ v, t ≤ v → v < u → ¬ DeliveredTo (σ v) (act v) e) :
    ((σ u).envs e).message = ((σ t).envs e).message := by
  refine holds_until (P := fun u => ((σ u).envs e).message = ((σ t).envs e).message) htu rfl ?_
  intro v htv hvu hv
  obtain ⟨tf, h⟩ := hrun v (by omega)
  exact (message_same_step h (hrecv v htv hvu) (hsend v htv hvu)).trans hv

/-! ## The round of a request -/

/-- The places of the server in the round of a request of `whom`, before it has replied. -/
def InRound (whom : Word) : ServePc → Prop
  | .waiting | .failed => True
  | .serving w sent => w = whom ∧ sent = 0
  | .yielding m sent | .sending m sent => m.whom = whom ∧ sent = 0
  | .recv => False

/-- What a call in the round of a request may be, and where it leads: the server does not receive,
it sends only to the client of the request, and it stays in the round unless its reply is
delivered. -/
structure RoundCall (whom : Word) (a : Entry) (o : Option Word) (p' : ServePc) : Prop where
  recv : ∀ dstva, a ≠ .ipcRecv dstva
  send : ∀ envid value srcva perm, a = .ipcTrySend envid value srcva perm → envid = whom
  next : InRound whom p' ∨
    ∃ value srcva perm, a = .ipcTrySend whom value srcva perm ∧ o = some 0

lemma RoundCall.of_work {p' : ServePc} (hw : Work a) (hp : InRound whom p') :
    RoundCall whom a o p' where
  recv dstva ha := by
    subst ha
    exact hw
  send envid value srcva perm ha := by
    subst ha
    exact hw.elim
  next := Or.inl hp

/-- An attempt to reply. -/
lemma RoundCall.of_send {r : Word} (hm : m.whom = whom) :
    RoundCall whom m.entry (some r) (.tried m 0 r) where
  recv dstva ha := by
    simp [IpcSend.entry] at ha
  send envid value srcva perm ha := by
    simp only [IpcSend.entry, Entry.ipcTrySend.injEq] at ha
    exact ha.1.symm.trans hm
  next := by
    unfold ServePc.tried
    by_cases h1 : r = -eIpcNotRecv
    · rw [if_pos h1]
      exact Or.inl ⟨hm, rfl⟩
    · rw [if_neg h1]
      by_cases h2 : r = 0
      · subst h2
        exact Or.inr ⟨m.value, m.srcva, m.perm, by rw [IpcSend.entry, hm], rfl⟩
      · rw [if_neg h2]
        exact Or.inl trivial

/-- **One call in the round of a request.** -/
theorem ServeStep.round {env : Env} {p p' : ServePc} {req : FsReq} (h : ServeStep env p a o p')
    (hp : InRound whom p) (hd : serve (ipcRecv env) = .dispatch whom req) :
    RoundCall whom a o p' := by
  cases h with
  | recv => exact hp.elim
  | noArgument hs => exact absurd (hd.symm.trans hs) (by simp)
  | badCode hs => exact absurd (hd.symm.trans hs) (by simp)
  | dispatchWork hs hw =>
    have he := hd.symm.trans hs
    simp only [Served.dispatch.injEq] at he
    exact .of_work hw ⟨he.1.symm, rfl⟩
  | dispatchSend hs =>
    have he := hs.symm.trans hd
    simp only [Served.dispatch.injEq] at he
    exact .of_send he.1
  | work hw => exact .of_work hw hp
  | send =>
    obtain ⟨hm, rfl⟩ := hp
    exact .of_send hm
  | yield => exact .of_work trivial hp
  | retry =>
    obtain ⟨hm, rfl⟩ := hp
    exact .of_send hm
  | done h0 =>
    obtain ⟨-, rfl⟩ := hp
    exact absurd h0 (lt_irrefl 0)
  | exit hw => exact .of_work hw trivial

/-- A call of `ipc_recv` is made at the start of a round. -/
lemma ServeStep.of_recv {env : Env} {p p' : ServePc} (h : ServeStep env p (.ipcRecv dstva) o p') :
    p' = .waiting := by
  generalize ha : Entry.ipcRecv dstva = a at h
  cases h with
  | recv => rfl
  | noArgument => rfl
  | badCode => simp at ha
  | dispatchWork _ hw => exact (ha ▸ hw).elim
  | dispatchSend => simp [IpcSend.entry] at ha
  | work hw => exact (ha ▸ hw).elim
  | send => simp [IpcSend.entry] at ha
  | yield => simp at ha
  | retry => simp [IpcSend.entry] at ha
  | done => simp at ha
  | exit hw => exact (ha ▸ hw).elim

section Run

variable (hrun : KernRun M n σ act res) (hserve : ServeRun srv n σ act res pc)

include hrun hserve

/-- The server waits only in `ipc_recv`. -/
lemma ServeRun.waits (hspared : ∀ v < t, Spared (σ v) srv (act v)) (ht : t ≤ n)
    (hrecv : ((σ t).envs srv).ipcRecving ≠ 0) : pc t = .waiting ∧ Blocked (σ t) srv := by
  induction t with
  | zero => exact absurd hserve.idle hrecv
  | succ t ih =>
    obtain ⟨tf, h⟩ := hrun t ht
    have ih := ih (fun v hv => hspared v (by omega)) (by omega)
    by_cases h0 : ((σ t).envs srv).ipcRecving = 0
    · -- the server has just called `ipc_recv`
      have hr : RecvBy (σ t) (act t) (res t) srv := by
        by_contra hr
        have hm := message_same_step h hr fun ⟨_, _, _, _, _, _, _, _, h1, _⟩ => h1 h0
        exact hrecv ((congrArg Prod.fst hm).trans h0)
      obtain ⟨dstva, ha, ho, hc⟩ := hr
      have hcall : CallOf (σ t) (act t) srv := ⟨hc, by simp [ha], by simp [ha]⟩
      have hstep := hserve.call t ht hcall
      rw [ha] at hstep h
      rw [ho] at h
      exact ⟨hstep.of_recv, (blocked_of_recv h hc).1⟩
    · obtain ⟨hpc, hb⟩ := ih h0
      have hcall : ¬ CallOf (σ t) (act t) srv := fun hcall => hb.cur hcall.1
      refine ⟨(hserve.keep t ht hcall).trans hpc, ?_⟩
      rcases hb.step (hspared t t.lt_succ_self) h with hb' | hd
      · exact hb'
      · obtain ⟨envid, value, srcva, perm, cur, ha, hva, hid, h1, hc⟩ := hd
        have hd : Delivers (σ t) (act t) srv cur value srcva perm := ⟨envid, ha, hva, hid, h1, hc⟩
        exact absurd (hd.message h).1 hrecv

/-- **The round of a request.** From the delivery of a request of `c`, as long as no reply is
delivered to `c`, the server serves this request, and the message in its environment stays. -/
theorem ServeRun.round {req : FsReq} (hids : SlotIds (σ 0))
    (hspared : ∀ v < t, Spared (σ v) srv (act v)) (hst : s < t) (ht : t ≤ n)
    (hreq : FsReq.ofWord type = some req) (hsend : Delivers (σ s) (act s) srv c type srcva perm)
    (hno : ∀ v, s < v → v < t → ¬ DeliveredTo (σ v) (act v) c) :
    InRound ((σ s).envs c).id (pc t) ∧
      serve (ipcRecv ((σ t).envs srv)) = .dispatch ((σ s).envs c).id req ∧
      ((σ t).envs srv).ipcRecving = 0 ∧
      ∀ v, s < v → v < t → ¬ RecvBy (σ v) (act v) (res v) srv := by
  -- the message of the request stays in the environment, and the server stays in its round
  suffices h : InRound ((σ s).envs c).id (pc t) ∧
      ((σ t).envs srv).message = (0, type, ((σ s).envs c).id, pteV ||| perm,
        ((σ s).envs srv).ipcDstva) ∧ ∀ v, s < v → v < t → ¬ RecvBy (σ v) (act v) (res v) srv from
    ⟨h.1, serve_of_message h.2.1 hreq, congrArg Prod.fst h.2.1, h.2.2⟩
  induction t, hst using Nat.le_induction with
  | base =>
    obtain ⟨tf, h⟩ := hrun s ht
    have hrecv : ((σ s).envs srv).ipcRecving ≠ 0 := by
      obtain ⟨_, -, -, -, hrecv, -⟩ := hsend
      exact hrecv
    obtain ⟨hpc, hb⟩ := hserve.waits hrun (fun v hv => hspared v (by omega)) (by omega) hrecv
    have hcall : ¬ CallOf (σ s) (act s) srv := fun hcall => hb.cur hcall.1
    refine ⟨?_, hsend.fields h, fun v h1 h2 => by omega⟩
    rw [hserve.keep s ht hcall, hpc]
    trivial
  | succ t hst ih =>
    obtain ⟨tf, h⟩ := hrun t ht
    obtain ⟨hround, hmsg, hbefore⟩ := ih (fun v hv => hspared v (by omega)) (by omega)
      fun v h1 h2 => hno v h1 (by omega)
    have hdisp := serve_of_message hmsg hreq
    have hcalls : CallOf (σ t) (act t) srv →
        RoundCall ((σ s).envs c).id (act t) (res t) (pc (t + 1)) := fun hcall =>
      (hserve.call t ht hcall).round hround hdisp
    have hnot : ¬ RecvBy (σ t) (act t) (res t) srv := by
      rintro ⟨dstva, ha, -, hc⟩
      exact (hcalls ⟨hc, by simp [ha], by simp [ha]⟩).recv dstva ha
    refine ⟨?_, ?_, ?_⟩
    · by_cases hcall : CallOf (σ t) (act t) srv
      · rcases (hcalls hcall).next with hnext | ⟨value, srcva, perm, ha, ho⟩
        · exact hnext
        · -- a reply that is delivered goes to `c`
          rw [ha, ho] at h
          obtain ⟨e, hid, hd⟩ := delivered_of_sent h
          have hc : e = c := by
            rcases envid2env_eq_some hid with ⟨-, hcur⟩ | ⟨h0, he, -⟩
            · -- the server does not wait while it runs
              obtain rfl : srv = e := Option.some.inj (hcall.1.symm.trans hcur)
              obtain ⟨_, _, _, _, _, -, -, -, h1, -⟩ := hd
              exact absurd (congrArg Prod.fst hmsg) h1
            · exact he.trans ((hrun.slotIds hids (by omega) c).resolve_left h0)
          exact absurd (hc ▸ ha.symm ▸ hd) (hno t (by omega) t.lt_succ_self)
      · rw [hserve.keep t ht hcall]
        exact hround
    · refine (message_same_step h hnot ?_).trans hmsg
      rintro ⟨_, _, _, _, _, -, -, -, h1, -⟩
      exact h1 (congrArg Prod.fst hmsg)
    · intro v h1 h2
      rcases Nat.lt_succ_iff_lt_or_eq.mp h2 with h2 | rfl
      · exact hbefore v h1 h2
      · exact hnot

omit hserve in
/-- The client is sent nothing before it receives. -/
lemma FsipcCall.not_delivered (hcall : FsipcCall srv c σ act res s r u type srcva dstva)
    (hu : u ≤ n) (hidle : ((σ s).envs c).ipcRecving = 0) {v : ℕ} (hsv : s < v) (hvr : v ≤ r) :
    ¬ DeliveredTo (σ v) (act v) c := by
  obtain ⟨hsr, hru⟩ := hcall.order
  suffices h : ((σ v).envs c).ipcRecving = 0 from fun ⟨_, _, _, _, _, _, _, _, h1, _⟩ => h1 h
  refine holds_until (P := fun v => ((σ v).envs c).ipcRecving = 0) hsv.le hidle ?_
  intro w hsw hwv hw
  obtain ⟨tf, h⟩ := hrun w (by omega)
  have hnot : ¬ RecvBy (σ w) (act w) (res w) c := by
    rintro ⟨d, ha, -, hc⟩
    rcases hsw.lt_or_eq with hsw | rfl
    · exact hcall.quiet w hsw (by omega) ⟨hc, by simp [ha], by simp [ha]⟩
    · obtain ⟨_, hsend, -⟩ := hcall.send
      simp [ha] at hsend
  exact (congrArg Prod.fst (message_same_step h hnot
    fun ⟨_, _, _, _, _, _, _, _, h1, _⟩ => h1 hw)).trans hw

/-- **File calls get their own reply.** In every run in which the server runs its loop, and for
every client: a call of `fsipc` that no other environment disturbs returns with the value and the
page that the server has sent for the request of this call. -/
theorem fsipc_own_reply (hids : SlotIds (σ 0))
    (hcall : FsipcCall srv c σ act res s r u type srcva dstva) (hu : u ≤ n)
    (hquiet : Undisturbed M srv c σ act s r u) : OwnReply M srv c σ act res s r u dstva := by
  obtain ⟨hsr, hru⟩ := hcall.order
  obtain ⟨hactr, hresr, hcurr⟩ := hcall.recv
  -- the client is blocked until a message is delivered to it at time `t`
  obtain ⟨tfr, hr⟩ := hrun r (by omega)
  rw [hactr, hresr] at hr
  obtain ⟨hb, hdst⟩ := blocked_of_recv hr hcurr
  rcases hrun.first_message hru hu hb fun v h1 h2 => hquiet.client v h1 h2 with
    hall | ⟨t, hrt, htu, hd, hblocked⟩
  · exact absurd hcall.back (hall u hru le_rfl).cur
  have hfirst : ∀ v, s < v → v < t → ¬ DeliveredTo (σ v) (act v) c := by
    intro v hsv hvt hdv
    rcases le_or_gt v r with hvr | hrv
    · exact hcall.not_delivered hrun hu hquiet.idle hsv hvr hdv
    · obtain ⟨envid, value, srcva, perm, cur, ha, hva, hid, h1, hc⟩ := hdv
      obtain ⟨tf, h⟩ := hrun v (by omega)
      have hd : Delivers (σ v) (act v) c cur value srcva perm := ⟨envid, ha, hva, hid, h1, hc⟩
      exact (hblocked (v + 1) (by omega) hvt).recving (hd.message h).1
  obtain ⟨envid, value, srcva', perm, cur, ha, hva, hid, hrecv, hcur⟩ := hd
  have hdel : Delivers (σ t) (act t) c cur value srcva' perm := ⟨envid, ha, hva, hid, hrecv, hcur⟩
  -- it is the server that sends it, in the round of the request
  obtain ⟨rfl, hpage⟩ := hquiet.sender t hrt htu cur value srcva' perm hdel
  obtain ⟨req, hreq⟩ := hcall.request
  obtain ⟨hround, hdisp, -, hno⟩ := hserve.round hrun hids (fun v hv => hquiet.server v (by omega))
    (by omega) (by omega) hreq hcall.send hfirst
  have hsrv : CallOf (σ t) (act t) cur := ⟨hcur, by simp [ha], by simp [ha]⟩
  have hwhom := ((hserve.call t (by omega) hsrv).round hround hdisp).send envid value srcva' perm ha
  obtain ⟨tf, h⟩ := hrun t (by omega)
  have hlater : ((σ u).envs c).message = ((σ (t + 1)).envs c).message :=
    hrun.message_kept htu hu (hdel.message h).1 fun v h1 h2 => hcall.once v (by omega) h2
  have hsame : ((σ t).envs c).message = ((σ (r + 1)).envs c).message :=
    hrun.message_same hrt (by omega) (fun v h1 h2 => hcall.once v h1 (by omega)) fun v h1 h2 =>
      hfirst v (by omega) h2
  refine ⟨t, ⟨envid, value, srcva', perm⟩, hrt, htu, hcur, ha, ?_, hwhom, ?_, ?_, ?_, ?_⟩
  · rw [ha] at h
    obtain ⟨⟨x, k1⟩, -, hx⟩ := bind_eq_ok.mp h
    simp only [pure_eq_ok, Except.ok.injEq, Prod.mk.injEq] at hx
    rw [← hx.1] at h ⊢
    rw [(tried_iff (m := ⟨envid, value, srcva', perm⟩) hcur h).2.mpr ⟨hva, c, hid, hrecv, hpage⟩]
  · intro v h1 h2
    rcases h2.lt_or_eq with h2 | rfl
    · exact hno v h1 h2
    · rintro ⟨d, ha', -⟩
      simp [ha] at ha'
  · have hm := hlater.trans (hdel.fields h)
    simp only [Env.message, Prod.mk.injEq] at hm
    simp only [ipcRecv, hm.2.1, hm.2.2.1, hm.2.2.2.1]
  · exact (congrArg (fun m => m.2.2.2.2) hsame).trans hdst
  · intro hsrc
    exact (messageMaps_iff hdel h).mpr (hpage.resolve_left hsrc)

end Run

/-! ## Two calls -/

/-- The first environment lets the server, the second one, wait, sends it `FSREQ_SYNC` with a page,
and receives; the server replies and waits again. -/
def syncEntries : ℕ → Entry
  | 4 => .ipcRecv 0
  | 5 => .ipcTrySend 0x800#32 0 0 0
  | 6 => .memUnmap 0 reqVa
  | 7 => .ipcRecv reqVa
  | t => goneEntries t

def syncResults : ℕ → Option Word
  | 2 | 3 | 5 | 6 => some 0
  | _ => none

def syncRun : ℕ → Kern
  | 0 => pairKern
  | t + 1 => after smallMachine (syncRun t) (syncEntries t)

def syncPc : ℕ → ServePc
  | 0 | 1 | 7 => .recv
  | 6 => .serving 0x800#32 1
  | _ => .waiting

/-- What the eight entries come to, computed once. -/
lemma syncRun_facts :
    (∀ t < 8, entryReturns smallMachine (syncRun t) (syncEntries t) (syncResults t) = true) ∧
    ((syncRun 0).curenv = some 0 ∧ (syncRun 1).curenv = some 1 ∧
      (syncRun 2).curenv = some 0 ∧ (syncRun 3).curenv = some 0 ∧ (syncRun 4).curenv = some 0 ∧
      (syncRun 5).curenv = some 1 ∧ (syncRun 6).curenv = some 1 ∧ (syncRun 7).curenv = some 1 ∧
      (syncRun 8).curenv = some 0) ∧
    (((syncRun 5).envs 1).ipcValue = 7 ∧ ((syncRun 5).envs 1).ipcFrom = 0x800#32 ∧
      ((syncRun 5).envs 1).ipcPerm = pteV ||| pteD) ∧
    (envid2env (syncRun 3) 0x1001#32 false = .ok (.ok (some 1)) ∧
      ((syncRun 3).envs 1).ipcRecving ≠ 0) ∧
    ((syncRun 3).envs 0).ipcRecving = 0 := by
  decide +kernel

lemma syncRun_kernRun : KernRun smallMachine 8 syncRun syncEntries syncResults := by
  intro t ht
  refine ⟨(syncRun t).ktf, ?_⟩
  rw [Kern.trap_ktf]
  exact enter_after (syncRun_facts.1 t ht)

lemma syncRun_cur : (syncRun 0).curenv = some 0 ∧ (syncRun 1).curenv = some 1 ∧
    (syncRun 2).curenv = some 0 ∧ (syncRun 3).curenv = some 0 ∧ (syncRun 4).curenv = some 0 ∧
    (syncRun 5).curenv = some 1 ∧ (syncRun 6).curenv = some 1 ∧ (syncRun 7).curenv = some 1 ∧
    (syncRun 8).curenv = some 0 :=
  syncRun_facts.2.1

lemma syncRun_message : ((syncRun 5).envs 1).ipcValue = 7 ∧
    ((syncRun 5).envs 1).ipcFrom = 0x800#32 ∧
    ((syncRun 5).envs 1).ipcPerm = pteV ||| pteD :=
  syncRun_facts.2.2.1

lemma syncRun_serve : serve (ipcRecv ((syncRun 5).envs 1)) = .dispatch 0x800#32 .sync := by
  simp only [ipcRecv, syncRun_message.1, syncRun_message.2.1, syncRun_message.2.2]
  rfl

/-- The server answers a request to write back, step by step. -/
lemma syncRun_serveRun : ServeRun 1 8 syncRun syncEntries syncResults syncPc where
  start := rfl
  idle := rfl
  call t ht hcall := by
    obtain ⟨h0, h1, h2, h3, h4, h5, h6, h7, -⟩ := syncRun_cur
    have hc := hcall.1
    interval_cases t
    · exact absurd (h0.symm.trans hc) (by decide)
    · exact .recv
    · exact absurd (h2.symm.trans hc) (by decide)
    · exact absurd (h3.symm.trans hc) (by decide)
    · exact absurd (h4.symm.trans hc) (by decide)
    · exact .dispatchSend (m := ⟨0x800#32, 0, 0, 0⟩) syncRun_serve
    · exact .done Nat.one_pos
    · exact .recv
  keep t ht hcall := by
    obtain ⟨h0, h1, h2, h3, h4, h5, h6, h7, -⟩ := syncRun_cur
    interval_cases t
    case «1» => refine absurd ⟨h1, ?_, ?_⟩ hcall <;> simp [syncEntries, goneEntries]
    case «5» => refine absurd ⟨h5, ?_, ?_⟩ hcall <;> simp [syncEntries]
    case «6» => refine absurd ⟨h6, ?_, ?_⟩ hcall <;> simp [syncEntries]
    case «7» => refine absurd ⟨h7, ?_, ?_⟩ hcall <;> simp [syncEntries]
    all_goals rfl

lemma pairKern_slotIds : SlotIds pairKern := by
  intro e
  by_cases h0 : e = 0
  · subst h0
    exact Or.inr (by decide)
  · by_cases h1 : e = 1
    · subst h1
      exact Or.inr (by decide)
    · left
      simp [pairKern, h0, h1, Env.zero]

/-- The client's call in this run. -/
lemma syncRun_call : FsipcCall 1 0 syncRun syncEntries syncResults 3 4 8 7 0x400000#32 0 where
  order := ⟨by decide, by decide⟩
  request := ⟨.sync, rfl⟩
  send := ⟨0x1001#32, rfl, Or.inr (by decide), syncRun_facts.2.2.2.1.1, syncRun_facts.2.2.2.1.2,
    syncRun_cur.2.2.2.1⟩
  sent := rfl
  quiet v h1 h2 := by omega
  recv := ⟨rfl, rfl, syncRun_cur.2.2.2.2.1⟩
  back := syncRun_cur.2.2.2.2.2.2.2.2
  once v h1 h2 := by
    obtain ⟨-, -, -, -, -, h5, h6, h7, -⟩ := syncRun_cur
    rintro ⟨-, -, -, hc⟩
    interval_cases v
    · exact absurd (h5.symm.trans hc) (by decide)
    · exact absurd (h6.symm.trans hc) (by decide)
    · exact absurd (h7.symm.trans hc) (by decide)

/-- Nobody else sends to the client in this run. -/
lemma syncRun_undisturbed : Undisturbed smallMachine 1 0 syncRun syncEntries 3 4 8 where
  idle := syncRun_facts.2.2.2.2
  sender v h1 h2 cur value srcva perm hd := by
    obtain ⟨envid, ha, -, -, -, hc⟩ := hd
    have hv : v = 5 ∨ v = 6 ∨ v = 7 := by omega
    rcases hv with rfl | rfl | rfl
    · obtain rfl : 1 = cur := Option.some.inj (syncRun_cur.2.2.2.2.2.1.symm.trans hc)
      obtain ⟨-, -, rfl, -⟩ := Entry.ipcTrySend.injEq .. ▸ ha
      exact ⟨rfl, Or.inl rfl⟩
    · simp [syncEntries] at ha
    · simp [syncEntries] at ha
  client v h1 h2 := by
    interval_cases v <;> trivial
  server v hv := by
    interval_cases v <;> trivial

/-- The client returns with the 0 that the server has sent. -/
theorem fsipc_own_reply_sync : OwnReply smallMachine 1 0 syncRun syncEntries syncResults 3 4 8 0 :=
  fsipc_own_reply syncRun_kernRun syncRun_serveRun pairKern_slotIds syncRun_call le_rfl
    syncRun_undisturbed

/-- A third runnable environment. -/
def trioKern : Kern where
  pm := { smallMem with
    ppRef := Function.update smallMem.ppRef 2 1, pageFreeList := [7, 6, 5, 4, 3] }
  envs := Function.update pairKern.envs 2
    { Env.zero with id := 0x1802, asid := 2, status := .runnable, pgdir := 2, pri := 1 }
  envFreeList := []
  envSchedList :=
    { first := some 0
      last := .next 2
      next := fun e => if e = 0 then some 1 else if e = 1 then some 2 else none
      prev := fun e => if e = 0 then .first else if e = 1 then .next 0
        else if e = 2 then .next 1 else .null }
  curenv := some 0
  curPgdir := 0
  basePgdir := 0
  asidBitmap := fun _ => 7
  envidCount := 3
  count := 1
  ktf := Env.zero.tf

/-- The third environment sends 99 to the first one while that waits for the reply. -/
def strayEntries : ℕ → Entry
  | 0 => .yield
  | 1 => .ipcRecv reqVa
  | 2 => .yield
  | 3 => .memAlloc 0 0x400000#32 pteD
  | 4 => .ipcTrySend 0x1001#32 7 0x400000#32 pteD
  | 5 => .ipcRecv 0
  | 6 => .ipcTrySend 0x800#32 99 0 0
  | 7 => .yield
  | _ => .timer

def strayResults : ℕ → Option Word
  | 3 | 4 | 6 => some 0
  | _ => none

def strayRun : ℕ → Kern
  | 0 => trioKern
  | t + 1 => after smallMachine (strayRun t) (strayEntries t)

def strayPc (t : ℕ) : ServePc := if t < 2 then .recv else .waiting

/-- Who runs. -/
def strayCur : ℕ → EnvPtr
  | 1 | 8 => 1
  | 2 | 6 | 7 => 2
  | _ => 0

/-- What the nine entries come to, computed once. -/
lemma strayRun_facts :
    (∀ t < 9, entryReturns smallMachine (strayRun t) (strayEntries t) (strayResults t) = true) ∧
    (∀ t < 10, (strayRun t).curenv = some (strayCur t)) ∧
    envid2env (strayRun 4) 0x1001#32 false = .ok (.ok (some 1)) ∧
      ((strayRun 4).envs 1).ipcRecving ≠ 0 := by
  decide +kernel

lemma strayRun_kernRun : KernRun smallMachine 9 strayRun strayEntries strayResults := by
  intro t ht
  refine ⟨(strayRun t).ktf, ?_⟩
  rw [Kern.trap_ktf]
  exact enter_after (strayRun_facts.1 t ht)

lemma strayRun_cur (t : ℕ) (ht : t < 10) : (strayRun t).curenv = some (strayCur t) :=
  strayRun_facts.2.1 t ht

lemma strayCur_server {t : ℕ} (ht : t < 10) (hc : (strayRun t).curenv = some 1) :
    t = 1 ∨ t = 8 := by
  have h : strayCur t = 1 := Option.some.inj ((strayRun_cur t ht).symm.trans hc)
  interval_cases t
  all_goals first | decide | exact absurd h (by decide)

/-- The server takes a stray message for a request. -/
lemma strayRun_serveRun : ServeRun 1 9 strayRun strayEntries strayResults strayPc where
  start := rfl
  idle := rfl
  call t ht hcall := by
    rcases strayCur_server (by omega) hcall.1 with rfl | rfl
    · exact .recv
    · exact absurd rfl hcall.2.1
  keep t ht hcall := by
    have h1 : t ≠ 1 := by
      rintro rfl
      refine hcall ⟨strayRun_cur 1 (by decide), ?_, ?_⟩ <;> simp [strayEntries]
    interval_cases t
    case «1» => exact absurd rfl h1
    all_goals rfl

lemma strayRun_call : FsipcCall 1 0 strayRun strayEntries strayResults 4 5 9 7 0x400000#32 0 where
  order := ⟨by decide, by decide⟩
  request := ⟨.sync, rfl⟩
  send := ⟨0x1001#32, rfl, Or.inr (by decide), strayRun_facts.2.2.1, strayRun_facts.2.2.2,
    strayRun_cur 4 (by decide)⟩
  sent := rfl
  quiet v h1 h2 := by omega
  recv := ⟨rfl, rfl, strayRun_cur 5 (by decide)⟩
  back := strayRun_cur 9 (by decide)
  once v h1 h2 := by
    rintro ⟨dstva, ha, -⟩
    interval_cases v <;> simp [strayEntries] at ha

lemma trioKern_slotIds : SlotIds trioKern := by
  intro e
  by_cases h2 : e = 2
  · subst h2
    exact Or.inr (by decide)
  · have he : trioKern.envs e = pairKern.envs e := Function.update_of_ne h2 _ _
    rw [he]
    exact pairKern_slotIds e

/-- The client returns with the 99 of the third environment; the server has sent nothing. -/
theorem fsipc_stray_reply : ¬ ∀ (M : Machine) (n : ℕ) (σ : ℕ → Kern) (act : ℕ → Entry)
    (res : ℕ → Option Word) (pc : ℕ → ServePc) (srv c : EnvPtr) (s r u : ℕ)
    (type srcva dstva : Word), KernRun M n σ act res → ServeRun srv n σ act res pc →
    SlotIds (σ 0) → FsipcCall srv c σ act res s r u type srcva dstva → u ≤ n →
      OwnReply M srv c σ act res s r u dstva := by
  intro h
  obtain ⟨t, m, h5, h9, hc, ha, -⟩ := h _ _ _ _ _ _ _ _ _ _ _ _ _ _ strayRun_kernRun
    strayRun_serveRun trioKern_slotIds strayRun_call le_rfl
  rcases strayCur_server (by omega) hc with rfl | rfl
  · omega
  · simp [strayEntries, IpcSend.entry] at ha

end MosVolca
