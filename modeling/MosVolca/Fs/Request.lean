import MosVolca.Kern.Receivers

/-!
# Requests and their argument pages

The server of `fs/serv.c` takes a message for a request with an argument page if `PTE_V` is set in
the `env_ipc_perm` that `ipc_recv` gives it. The kernel sets `PTE_V` there in every message, so
the two agree exactly on the messages that carry a page.

## Main definitions

* `MosVolca.ipcRecv` — what `ipc_recv` of `user/lib/ipc.c` returns.
* `MosVolca.serve` — one round of the loop of `serve`.
* `MosVolca.CarriesPage` — the messages whose page the kernel can map.

## Main results

* `MosVolca.requestAgrees_iff` — for which messages the kernel and the server agree.
-/

namespace MosVolca

variable {M : Machine} {k k' : Kern} {e cur : EnvPtr} {n : ℕ} {σ : ℕ → Kern} {act : ℕ → Entry}
  {res : ℕ → Option Word} {envid value srcva perm : Word}

/-! ## The server -/

/-- What `ipc_recv` returns, `*whom` and `*perm`. -/
structure Message where
  value : Word
  whom : Word
  perm : Word

/-- `ipc_recv`, when `syscall_ipc_recv` has returned 0: it reads the fields of the environment. -/
def ipcRecv (env : Env) : Message where
  value := env.ipcValue
  whom := env.ipcFrom
  perm := env.ipcPerm

/-- The requests of `user/include/fsreq.h`. -/
inductive FsReq
  | openFile | map | setSize | close | dirty | remove | sync | openat
  deriving DecidableEq, Repr

/-- `FSREQ_OPEN` to `FSREQ_OPENAT`. -/
def FsReq.ofWord (req : Word) : Option FsReq :=
  if req = 1 then some .openFile
  else if req = 2 then some .map
  else if req = 3 then some .setSize
  else if req = 4 then some .close
  else if req = 5 then some .dirty
  else if req = 6 then some .remove
  else if req = 7 then some .sync
  else if req = 8 then some .openat
  else none

/-- What the server does with a message. -/
inductive Served
  /-- `Invalid request from ..: no argument page`; the client is left hanging. -/
  | noArgument (whom : Word)
  /-- `Invalid request code .. from ..`. -/
  | badCode (whom req : Word)
  | dispatch (whom : Word) (req : FsReq)

/-- One round of `serve`: it looks for the argument page and selects the function of the request. -/
def serve (m : Message) : Served :=
  if pteValid m.perm then
    match FsReq.ofWord m.value with
    | some req => .dispatch m.whom req
    | none => .badCode m.whom m.value
  else .noArgument m.whom

/-! ## The kernel -/

/-- The entry `a` is a message from `cur` to `e` that passes the checks of `sys_ipc_try_send`. -/
def Delivers (k : Kern) (a : Entry) (e cur : EnvPtr) (value srcva perm : Word) : Prop :=
  ∃ envid, a = .ipcTrySend envid value srcva perm ∧ (srcva = 0 ∨ isIllegalVa srcva = false) ∧
    envid2env k envid false = .ok (.ok (some e)) ∧ (k.envs e).ipcRecving ≠ 0 ∧ k.curenv = some cur

/-- The environment `cur` can send the page at `srcva` to `e`: there is a page, and there is a page
table for it or a page for the table. -/
def CarriesPage (M : Machine) (k : Kern) (e cur : EnvPtr) (srcva : Word) : Prop :=
  srcva ≠ 0 ∧ ∃ pp, Mapped M k.pm (k.envs cur).pgdir srcva pp ∧
    ¬ NoTable M k.pm (k.envs e).pgdir (k.envs e).ipcDstva pp

/-- The message that leads from `k` to `k'` has mapped the page at `srcva` of `cur` at the address
where `e` receives. -/
def MessageMaps (M : Machine) (k k' : Kern) (e cur : EnvPtr) (srcva perm : Word) : Prop :=
  srcva ≠ 0 ∧ ∃ pp pte, pageLookup M k.pm (k.envs cur).pgdir srcva = .ok (some (pp, pte)) ∧
    pageInsert M k.pm (k.envs e).pgdir (k.envs e).asid pp (k.envs e).ipcDstva perm = .ok (0, k'.pm)

/-- For this message, the receiver finds `PTE_V` in its `env_ipc_perm` exactly if a page has been
mapped, and the server, if it is the receiver, dispatches no request without a page. -/
structure RequestAgrees (M : Machine) (k k' : Kern) (e cur : EnvPtr) (srcva perm : Word)
    (m : Message) : Prop where
  valid : pteValid m.perm = true ↔ MessageMaps M k k' e cur srcva perm
  served : ∀ whom req, serve m = .dispatch whom req → MessageMaps M k k' e cur srcva perm

lemma pteValid_pteV_or (perm : Word) : pteValid (pteV ||| perm) = true := by
  have h : pteV.getLsbD 9 = true := by decide
  rw [pteValid_eq, BitVec.getLsbD_or, h, Bool.true_or]

/-- A message maps a page exactly if it carries one. -/
lemma messageMaps_iff {a : Entry} {o : Option Word} {tf : Trapframe} {value : Word}
    (ha : Delivers k a e cur value srcva perm) (h : enter M (k.trap tf) a = .ok (o, k')) :
    MessageMaps M k k' e cur srcva perm ↔ CarriesPage M k e cur srcva := by
  constructor
  · rintro ⟨hsrc, pp, pte, hlook, hins⟩
    refine ⟨hsrc, pp, pageLookup_eq_some_iff.mp ⟨pte, hlook⟩, fun hno => ?_⟩
    obtain ⟨r', s', hfail, hr⟩ := pageInsert_fails_iff.mpr hno
    rw [hins, Except.ok.injEq, Prod.mk.injEq] at hfail
    exact hr hfail.1.symm
  · rintro ⟨hsrc, pp, hmapped, hno⟩
    obtain ⟨pte, hlook⟩ := pageLookup_eq_some_iff.mpr hmapped
    obtain ⟨envid, rfl, hva, hid, hrecv, hcur⟩ := ha
    have hva := hva.resolve_left hsrc
    obtain ⟨⟨r, k1⟩, hs, h⟩ := bind_eq_ok.mp h
    obtain ⟨-, rfl⟩ := pure_pair_inj h
    rcases sysIpcTrySend_cases hs with ⟨-, ⟨-, hill, -⟩ | ⟨hid', -⟩ | ⟨e', hid', h0, -⟩⟩ |
      ⟨e', cur', q, -, hid', -, hcur', -, hk⟩
    · rw [hva] at hill
      exact absurd hill Bool.false_ne_true
    · exact absurd (hid.symm.trans hid') (by simp)
    · obtain rfl : e = e' := by simpa using hid.symm.trans hid'
      exact absurd h0 hrecv
    · obtain rfl : e = e' := by simpa using hid.symm.trans hid'
      obtain rfl : cur = cur' := Option.some.inj (hcur.symm.trans hcur')
      rcases hk with ⟨h0, -⟩ | ⟨-, -, hnone, -⟩ | ⟨pp', pte', pm', -, hlook', hins, rfl⟩
      · exact absurd h0 hsrc
      · exact absurd (hlook.symm.trans hnone) (by simp)
      · obtain ⟨rfl, rfl⟩ : pp = pp' ∧ pte = pte' := by simpa using hlook.symm.trans hlook'
        have hr : r = 0 := by
          by_contra hr
          exact hno (pageInsert_fails_iff.mp ⟨r, pm', hins, hr⟩)
        exact ⟨hsrc, pp, pte, hlook, hr ▸ hins⟩

/-- A delivered message sets `PTE_V` in `env_ipc_perm` whatever it carries. -/
lemma Delivers.message {a : Entry} {o : Option Word} {tf : Trapframe} {value : Word}
    (ha : Delivers k a e cur value srcva perm) (h : enter M (k.trap tf) a = .ok (o, k')) :
    (k'.envs e).ipcRecving = 0 ∧ (k'.envs e).ipcPerm = pteV ||| perm := by
  obtain ⟨envid, rfl, hva, hid, hrecv, hcur⟩ := ha
  obtain ⟨⟨r, k1⟩, hs, h⟩ := bind_eq_ok.mp h
  obtain ⟨-, rfl⟩ := pure_pair_inj h
  rcases sysIpcTrySend_cases hs with ⟨-, ⟨hsrc, hill, -⟩ | ⟨hid', -⟩ | ⟨e', hid', h0, -⟩⟩ |
    ⟨e', cur', q, -, hid', -, -, -, hk⟩
  · rw [hva.resolve_left hsrc] at hill
    exact absurd hill Bool.false_ne_true
  · exact absurd (hid.symm.trans hid') (by simp)
  · obtain rfl : e = e' := by simpa using hid.symm.trans hid'
    exact absurd h0 hrecv
  · obtain rfl : e = e' := by simpa using hid.symm.trans hid'
    have henvs : k1.envs = ((k.trap tf).received e cur' value perm).envs := by
      rcases hk with ⟨-, -, rfl⟩ | ⟨-, -, -, rfl⟩ | ⟨_, _, _, -, -, -, rfl⟩ <;> rfl
    rw [henvs, Kern.received, Kern.setEnv_envs_same]
    exact ⟨rfl, rfl⟩

/-- A message stays until its receiver receives again. -/
lemma KernRun.message_kept (hrun : KernRun M n σ act res) {t u : ℕ} (htu : t ≤ u) (hu : u ≤ n)
    (he : ((σ t).envs e).ipcRecving = 0)
    (hno : ∀ v, t ≤ v → v < u → ¬ RecvBy (σ v) (act v) (res v) e) :
    ((σ u).envs e).message = ((σ t).envs e).message := by
  refine holds_until (P := fun u => ((σ u).envs e).message = ((σ t).envs e).message) htu rfl ?_
  intro v htv hvu hv
  obtain ⟨tf, hs⟩ := hrun v (hvu.trans_le hu)
  rcases enter_message hs e with hm | hr | ⟨_, _, _, _, _, -, -, hw, -⟩
  · exact hm.trans hv
  · exact absurd hr (hno v htv hvu)
  · exact absurd ((congrArg Prod.fst hv).trans he) hw

/-- **For which messages the kernel and the server agree.** In any run, a message is delivered to
`e` at time `t`, and `e` reads its fields at time `u` before it receives again: what it reads agrees
with what has been mapped exactly if the message carries a page. -/
theorem requestAgrees_iff {value : Word} (hrun : KernRun M n σ act res) {t u : ℕ} (htu : t < u)
    (hu : u ≤ n) (hmsg : Delivers (σ t) (act t) e cur value srcva perm)
    (hno : ∀ v, t < v → v < u → ¬ RecvBy (σ v) (act v) (res v) e) :
    RequestAgrees M (σ t) (σ (t + 1)) e cur srcva perm (ipcRecv ((σ u).envs e)) ↔
      CarriesPage M (σ t) e cur srcva := by
  obtain ⟨tf, hs⟩ := hrun t (htu.trans_le hu)
  obtain ⟨hidle, hperm⟩ := hmsg.message hs
  have hkept := hrun.message_kept htu hu hidle hno
  have hread : (ipcRecv ((σ u).envs e)).perm = pteV ||| perm :=
    (congrArg (fun m => m.2.2.2.1) hkept).trans hperm
  have hvalid : pteValid (ipcRecv ((σ u).envs e)).perm = true := by
    rw [hread]
    exact pteValid_pteV_or perm
  rw [← messageMaps_iff hmsg hs]
  constructor
  · intro hagree
    exact hagree.valid.mp hvalid
  · intro hmaps
    exact ⟨⟨fun _ => hmaps, fun _ => hvalid⟩, fun _ _ _ => hmaps⟩

/-! ## A request without a page -/

/-- `REQVA`. -/
def reqVa : Word := 0x0ffff000

/-- The first environment, as the server, receives at `REQVA`; the second one sends `FSREQ_OPEN`
without a page and yields. -/
def requestEntries : ℕ → Entry
  | 0 => .ipcRecv reqVa
  | 1 => .ipcTrySend 0x800#32 1 0 0
  | _ => .yield

def requestRun : ℕ → Kern
  | 0 => pairKern
  | t + 1 => after smallMachine (requestRun t) (requestEntries t)

lemma requestRun_kernRun : KernRun smallMachine 3 requestRun requestEntries pairResults := by
  intro t ht
  refine ⟨(requestRun t).ktf, ?_⟩
  interval_cases t <;> rfl

lemma requestRun_delivers : Delivers (requestRun 1) (requestEntries 1) 0 1 1 0 0 :=
  ⟨0x800#32, rfl, Or.inl rfl, rfl, by decide, rfl⟩

/-- The message carries no page, so the server is deceived. -/
theorem requestAgrees_iff_request :
    RequestAgrees smallMachine (requestRun 1) (requestRun 2) 0 1 0 0
        (ipcRecv ((requestRun 3).envs 0)) ↔
      CarriesPage smallMachine (requestRun 1) 0 1 0 := by
  refine requestAgrees_iff requestRun_kernRun (by decide) le_rfl requestRun_delivers ?_
  intro v h1 h2
  obtain rfl : v = 2 := by omega
  rintro ⟨dstva, ha, -⟩
  exact absurd ha (by simp [requestEntries])

/-- The server dispatches the request to open a file although nothing has been mapped at
`REQVA`. -/
theorem request_without_page : ¬ ∀ (M : Machine) (n : ℕ) (σ : ℕ → Kern) (act : ℕ → Entry)
    (res : ℕ → Option Word) (t u : ℕ) (e cur : EnvPtr) (value srcva perm : Word),
    KernRun M n σ act res → t < u → u ≤ n → Delivers (σ t) (act t) e cur value srcva perm →
    (∀ v, t < v → v < u → ¬ RecvBy (σ v) (act v) (res v) e) →
      RequestAgrees M (σ t) (σ (t + 1)) e cur srcva perm (ipcRecv ((σ u).envs e)) := by
  intro h
  have hagree := h _ _ _ _ _ 1 2 0 1 1 0 0 requestRun_kernRun (by decide) (by decide)
    requestRun_delivers fun v h1 h2 => by omega
  obtain ⟨hsrc, -⟩ := hagree.served 0x1001#32 .openFile rfl
  exact hsrc rfl

end MosVolca
