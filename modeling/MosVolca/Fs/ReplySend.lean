import MosVolca.Fs.Request

/-!
# The reply of the server

After a request the server of `fs/serv.c` answers with `ipc_send`, unmaps the request page and
receives again. `ipc_send` tries until the client waits, and asserts that it has then succeeded.
This file follows the server through any run of the kernel, with any behaviour of the other
environments: the assertion fails exactly if the server tries when the client is no longer in use,
or when the page of the reply cannot be mapped.

## Main definitions

* `MosVolca.ReplyPc` — the places of the server between two requests.
* `MosVolca.ReplyRun` — a run of the kernel in which an environment replies.
* `MosVolca.ClientBusy`, `MosVolca.ClientReady` — the clients that the server can wait for and
  those that it can answer.

## Main results

* `MosVolca.reply_goes_on_iff` — when the assertion holds, and when the server receives again.
-/

namespace MosVolca

/-! ## The code -/

/-- A call `ipc_send(whom, value, srcva, perm)`. -/
structure IpcSend where
  whom : Word
  value : Word
  srcva : Word
  perm : Word

/-- The places of the server from its reply to the next request. -/
inductive ReplyPc
  /-- in the loop of `ipc_send` -/
  | trySend
  | yield
  /-- after `ipc_send`, at the end of the round of `serve` -/
  | unmap
  /-- at the start of the next round -/
  | recv
  | waiting
  /-- `user_assert(r == 0)` or the check of `ipc_recv` has failed. -/
  | failed
  deriving DecidableEq, Repr

/-- The system call that the server makes next. -/
def IpcSend.call (m : IpcSend) : ReplyPc → Option Entry
  | .trySend => some (.ipcTrySend m.whom m.value m.srcva m.perm)
  | .yield => some .yield
  | .unmap => some (.memUnmap 0 reqVa)
  | .recv => some (.ipcRecv reqVa)
  | .waiting | .failed => none

/-- `ipc_send`, when `syscall_ipc_try_send` has returned `r`. -/
def ReplyPc.tried (r : Word) : ReplyPc :=
  if r = -eIpcNotRecv then .yield else if r = 0 then .unmap else .failed

/-- Where the server goes on after its call has returned, or has blocked it. -/
def ReplyPc.next : ReplyPc → Option Word → ReplyPc
  | .trySend, some r => .tried r
  | .trySend, none => .trySend
  | .yield, _ => .trySend
  | .unmap, _ => .recv
  | .recv, some _ => .failed
  | .recv, none => .waiting
  | .waiting, _ => .waiting
  | .failed, _ => .failed

variable {M : Machine} {k k' : Kern} {srv : EnvPtr} {m : IpcSend} {n t : ℕ} {σ : ℕ → Kern}
  {act : ℕ → Entry} {res : ℕ → Option Word} {pc : ℕ → ReplyPc}

/-- The entry is a system call of the environment `srv`. -/
def CallOf (k : Kern) (a : Entry) (srv : EnvPtr) : Prop :=
  k.curenv = some srv ∧ a ≠ .timer ∧ ∀ binary priority, a ≠ .envCreate binary priority

/-- The environment `srv` makes the calls of the reply `m`; whatever else happens in the run is up
to the others. -/
structure ReplyRun (srv : EnvPtr) (m : IpcSend) (n : ℕ) (σ : ℕ → Kern) (act : ℕ → Entry)
    (res : ℕ → Option Word) (pc : ℕ → ReplyPc) : Prop where
  start : pc 0 = .trySend
  call : ∀ t < n, CallOf (σ t) (act t) srv → ∀ a, m.call (pc t) = some a → act t = a
  next : ∀ t < n, CallOf (σ t) (act t) srv → pc (t + 1) = (pc t).next (res t)
  keep : ∀ t < n, ¬ CallOf (σ t) (act t) srv → pc (t + 1) = pc t

/-- At time `t` the server tries to send its reply. -/
def TriesAt (srv : EnvPtr) (σ : ℕ → Kern) (act : ℕ → Entry) (pc : ℕ → ReplyPc) (t : ℕ) : Prop :=
  CallOf (σ t) (act t) srv ∧ pc t = .trySend

/-- The client is in use and does not wait. -/
def ClientBusy (k : Kern) (m : IpcSend) : Prop :=
  (m.srcva = 0 ∨ isIllegalVa m.srcva = false) ∧
    ∃ e, envid2env k m.whom false = .ok (.ok (some e)) ∧ (k.envs e).ipcRecving = 0

/-- The client is in use and waits, and the page of the reply, if there is one, can be mapped. -/
def ClientReady (M : Machine) (k : Kern) (m : IpcSend) (srv : EnvPtr) : Prop :=
  (m.srcva = 0 ∨ isIllegalVa m.srcva = false) ∧
    ∃ e, envid2env k m.whom false = .ok (.ok (some e)) ∧ (k.envs e).ipcRecving ≠ 0 ∧
      (m.srcva = 0 ∨ CarriesPage M k e srv m.srcva)

/-! ## One attempt -/

/-- `page_insert` succeeds or fails with `-E_NO_MEM`. -/
lemma pageInstall_result {s s' : PhysMem} {d pp : ℕ} {asid va perm r : Word}
    (h : pageInstall M s d asid pp va perm = .ok (r, s')) : r = 0 ∨ r = -eNoMem := by
  by_cases hr : r = 0
  · exact Or.inl hr
  · obtain ⟨hv, hf⟩ := pageInstall_fails_iff.mp ⟨r, s', h, hr⟩
    rw [pageInstall_nil hv hf] at h
    simp only [Except.ok.injEq, Prod.mk.injEq] at h
    exact Or.inr h.1.symm

/-- The only error of `page_insert` is the want of a page table. -/
lemma pageInsert_result {s s' : PhysMem} {d pp : ℕ} {asid va perm r : Word}
    (h : pageInsert M s d asid pp va perm = .ok (r, s')) : r = 0 ∨ r = -eNoMem := by
  unfold pageInsert at h
  obtain ⟨⟨r1, p, s1⟩, -, h⟩ := bind_eq_ok.mp h
  rcases p with _ | pte
  · exact pageInstall_result h
  simp only at h
  split_ifs at h with hv
  · obtain ⟨old, -, h⟩ := bind_eq_ok.mp h
    split_ifs at h with hold
    · obtain ⟨s2, -, h⟩ := bind_eq_ok.mp h
      exact pageInstall_result h
    · replace h := pure_pair_inj h
      exact Or.inl h.1.symm
  · exact pageInstall_result h

/-- **What an attempt returns** shows what the client does. -/
lemma tried_iff {tf : Trapframe} {r : Word} (hcur : k.curenv = some srv)
    (h : enter M (k.trap tf) (.ipcTrySend m.whom m.value m.srcva m.perm) = .ok (some r, k')) :
    (r = -eIpcNotRecv ↔ ClientBusy k m) ∧ (r = 0 ↔ ClientReady M k m srv) := by
  obtain ⟨⟨r', k1⟩, hs, h⟩ := bind_eq_ok.mp h
  simp only [pure_eq_ok, Except.ok.injEq, Prod.mk.injEq, Option.some.injEq] at h
  obtain ⟨rfl, -⟩ := h
  rcases sysIpcTrySend_cases hs with ⟨-, ⟨hsrc, hill, rfl⟩ | ⟨hid, rfl⟩ | ⟨e, hid, h0, rfl⟩⟩ |
    ⟨e, cur, q, hva, hid, hrecv, hc, -, hk⟩
  · -- the address of the page is not legal
    have hno : ¬ (m.srcva = 0 ∨ isIllegalVa m.srcva = false) := by
      rintro (h0 | hlegal)
      · exact hsrc h0
      · rw [hill] at hlegal
        exact absurd hlegal (by decide)
    exact ⟨iff_of_false (by decide) fun hb => hno hb.1, iff_of_false (by decide) fun hr => hno hr.1⟩
  · -- the client is not in use
    have hno : ∀ e, envid2env k m.whom false ≠ .ok (.ok (some e)) := fun e he => by
      simpa using hid.symm.trans he
    exact ⟨iff_of_false (by decide) fun ⟨_, e, he, _⟩ => hno e he,
      iff_of_false (by decide) fun ⟨_, e, he, _⟩ => hno e he⟩
  · -- the client does not wait
    have hva : m.srcva = 0 ∨ isIllegalVa m.srcva = false := by
      by_contra hno
      obtain ⟨hsrc, hill⟩ := not_or.mp hno
      unfold sysIpcTrySend at hs
      rw [if_pos ⟨hsrc, Bool.eq_true_of_not_eq_false hill⟩] at hs
      replace hs := pure_pair_inj hs
      exact absurd hs.1 (by decide)
    refine ⟨iff_of_true rfl ⟨hva, e, hid, h0⟩, iff_of_false (by decide) ?_⟩
    rintro ⟨-, e', hid', h1, -⟩
    obtain rfl : e = e' := by simpa using hid.symm.trans hid'
    exact h1 h0
  · -- the client waits, and the message has been delivered up to the page
    obtain rfl : srv = cur := Option.some.inj (hcur.symm.trans hc)
    have hbusy : ¬ ClientBusy k m := by
      rintro ⟨-, e', hid', h0⟩
      obtain rfl : e = e' := by simpa using hid.symm.trans hid'
      exact hrecv h0
    have hready : ClientReady M k m srv ↔ (m.srcva = 0 ∨ CarriesPage M k e srv m.srcva) := by
      constructor
      · rintro ⟨-, e', hid', -, hpage⟩
        obtain rfl : e = e' := by simpa using hid.symm.trans hid'
        exact hpage
      · exact fun hpage => ⟨hva, e, hid, hrecv, hpage⟩
    rw [hready]
    rcases hk with ⟨h0, rfl, -⟩ | ⟨hsrc, rfl, hnone, -⟩ | ⟨pp, pte, pm', hsrc, hlook, hins, -⟩
    · exact ⟨iff_of_false (by decide) hbusy, iff_of_true rfl (Or.inl h0)⟩
    · refine ⟨iff_of_false (by decide) hbusy, iff_of_false (by decide) ?_⟩
      rintro (h0 | ⟨-, pp, hmapped, -⟩)
      · exact hsrc h0
      · obtain ⟨pte, hlook⟩ := pageLookup_eq_some_iff.mpr hmapped
        exact absurd (hlook.symm.trans hnone) (by simp)
    · refine ⟨iff_of_false ?_ hbusy, ?_⟩
      · rcases pageInsert_result hins with rfl | rfl <;> decide
      constructor
      · rintro rfl
        refine Or.inr ⟨hsrc, pp, pageLookup_eq_some_iff.mp ⟨pte, hlook⟩, fun hno => ?_⟩
        obtain ⟨r', s', hfail, hr⟩ := pageInsert_fails_iff.mpr hno
        exact hr (congrArg Prod.fst (Except.ok.inj (hfail.symm.trans hins)))
      · rintro (h0 | ⟨-, pp', hmapped, hno⟩)
        · exact absurd h0 hsrc
        · obtain ⟨pte', hlook'⟩ := pageLookup_eq_some_iff.mpr hmapped
          obtain ⟨rfl, rfl⟩ : pp = pp' ∧ pte = pte' := by simpa using hlook.symm.trans hlook'
          by_contra hr
          exact hno (pageInsert_fails_iff.mp ⟨_, _, hins, hr⟩)

/-! ## The places of the server -/

/-- How far the server is on the way from a delivered reply to the next request. -/
def ReplyPc.rank : ReplyPc → ℕ
  | .trySend | .yield | .failed => 0
  | .unmap => 1
  | .recv => 2
  | .waiting => 3

/-- The place before. -/
def ReplyPc.pred : ReplyPc → ReplyPc
  | .trySend => .yield
  | .yield | .unmap | .failed => .trySend
  | .recv => .unmap
  | .waiting => .recv

lemma ReplyPc.next_pred {p q : ReplyPc} {o : Option Word} (h : p.next o = q) (hne : p ≠ q)
    (hrecv : p = .recv → o = none) : p = q.pred := by
  cases p with
  | trySend =>
    rcases o with _ | r
    · exact absurd h hne
    · simp only [ReplyPc.next, ReplyPc.tried] at h
      split_ifs at h <;> exact h ▸ rfl
  | yield => exact h ▸ rfl
  | unmap => exact h ▸ rfl
  | recv =>
    obtain rfl := hrecv rfl
    exact h ▸ rfl
  | waiting => exact absurd h hne
  | failed => exact absurd h hne

/-- `ipc_recv` at `REQVA` blocks the server. -/
lemma reqVa_blocks {tf : Trapframe} {o : Option Word}
    (h : enter M (k.trap tf) (.ipcRecv reqVa) = .ok (o, k')) : o = none := by
  have h : sysIpcRecv (k.trap tf) reqVa = .ok (o, k') := h
  unfold sysIpcRecv at h
  rw [if_neg (by decide)] at h
  simp only [bind_eq_ok, pure_eq_ok, Except.ok.injEq, Prod.mk.injEq] at h
  obtain ⟨_, -, _, -, _, -, rfl, -⟩ := h
  rfl

section Run

variable (hrun : KernRun M n σ act res) (hsrv : ReplyRun srv m n σ act res pc)

include hrun hsrv

/-- **After an attempt** the server is where the client has sent it. -/
lemma ReplyRun.tries (ht : t < n) (h : TriesAt srv σ act pc t) :
    (pc (t + 1) = .failed ↔ ¬ (ClientBusy (σ t) m ∨ ClientReady M (σ t) m srv)) ∧
      (pc (t + 1) = .unmap ↔ ClientReady M (σ t) m srv) := by
  obtain ⟨tf, hs⟩ := hrun t ht
  obtain ⟨hcall, hpc⟩ := h
  rw [hsrv.call t ht hcall _ (congrArg m.call hpc)] at hs
  obtain ⟨⟨r, k1⟩, -, hr⟩ := bind_eq_ok.mp hs
  replace hr := pure_pair_inj hr
  rw [← hr.1] at hs
  obtain ⟨hbusy, hready⟩ := tried_iff hcall.1 hs
  rw [hsrv.next t ht hcall, hpc, ← hr.1, ← hbusy, ← hready]
  show (ReplyPc.tried r = .failed ↔ _) ∧ (ReplyPc.tried r = .unmap ↔ _)
  unfold ReplyPc.tried
  by_cases h1 : r = -eIpcNotRecv
  · subst h1
    decide
  · by_cases h2 : r = 0
    · subst h2
      decide
    · rw [if_neg h1, if_neg h2]
      exact ⟨iff_of_true rfl (not_or.mpr ⟨h1, h2⟩), iff_of_false (by decide) h2⟩

/-- The server stays in the loop of `ipc_send`, or advances at every call. -/
lemma ReplyRun.rank_step (ht : t < n) : (pc t).rank ≤ (pc (t + 1)).rank ∧
    (CallOf (σ t) (act t) srv → 0 < (pc t).rank → min 3 ((pc t).rank + 1) ≤ (pc (t + 1)).rank) := by
  by_cases hcall : CallOf (σ t) (act t) srv
  swap
  · rw [hsrv.keep t ht hcall]
    exact ⟨le_rfl, fun h => absurd h hcall⟩
  rw [hsrv.next t ht hcall]
  cases hpc : pc t with
  | recv =>
    obtain ⟨tf, hs⟩ := hrun t ht
    rw [hsrv.call t ht hcall _ (congrArg m.call hpc)] at hs
    rw [reqVa_blocks hs]
    simp [ReplyPc.next, ReplyPc.rank]
  | trySend => simp [ReplyPc.rank]
  | yield => simp [ReplyPc.rank]
  | failed => simp [ReplyPc.rank]
  | unmap => simp [ReplyPc.next, ReplyPc.rank]
  | waiting => simp [ReplyPc.next, ReplyPc.rank]

lemma ReplyRun.rank_mono {u : ℕ} (htu : t ≤ u) (hu : u ≤ n) : (pc t).rank ≤ (pc u).rank := by
  induction u, htu using Nat.le_induction with
  | base => exact le_rfl
  | succ u _ ih => exact (ih (by omega)).trans (hsrv.rank_step hrun (by omega)).1

/-- A place of the server has been entered at a call made at the place before it. -/
lemma ReplyRun.entered {q : ReplyPc} (hq : q ≠ .trySend) (ht : t ≤ n) (h : pc t = q) :
    ∃ u < t, CallOf (σ u) (act u) srv ∧ pc u = q.pred ∧ pc (u + 1) = q := by
  induction t with
  | zero => exact absurd (h.symm.trans hsrv.start) hq
  | succ t ih =>
    by_cases hpc : pc t = q
    · obtain ⟨u, hu, hcall⟩ := ih (by omega) hpc
      exact ⟨u, by omega, hcall⟩
    · have hcall : CallOf (σ t) (act t) srv := by
        by_contra hcall
        exact hpc ((hsrv.keep t ht hcall).symm.trans h)
      refine ⟨t, t.lt_succ_self, hcall, ?_, h⟩
      refine ReplyPc.next_pred ((hsrv.next t ht hcall).symm.trans h) hpc fun hr => ?_
      obtain ⟨tf, hs⟩ := hrun t ht
      rw [hsrv.call t ht hcall _ (congrArg m.call hr)] at hs
      exact reqVa_blocks hs

/-- **When the server gets past its reply.** In every run, whatever the other environments do: the
assertion of `ipc_send` holds throughout if and only if at every attempt the client is in use, and,
if it waits, the page of the reply can be mapped; and the server comes to wait for the next request
if and only if at some attempt the client waits so, and the server gets to its next two calls. -/
theorem reply_goes_on_iff :
    ((∀ t ≤ n, pc t ≠ .failed) ↔ ∀ t < n, TriesAt srv σ act pc t →
      ClientBusy (σ t) m ∨ ClientReady M (σ t) m srv) ∧
    ((∃ t ≤ n, pc t = .waiting) ↔ ∃ t u v, t < u ∧ u < v ∧ v < n ∧ TriesAt srv σ act pc t ∧
      ClientReady M (σ t) m srv ∧ CallOf (σ u) (act u) srv ∧ CallOf (σ v) (act v) srv) := by
  refine ⟨⟨fun h t ht htry => ?_, fun h t ht hfail => ?_⟩, ⟨?_, ?_⟩⟩
  · by_contra hno
    exact h (t + 1) ht ((hsrv.tries hrun ht htry).1.mpr hno)
  · obtain ⟨u, hu, hcall, hpc, hnext⟩ := hsrv.entered hrun (by decide) ht hfail
    have hun : u < n := hu.trans_le ht
    exact (hsrv.tries hrun hun ⟨hcall, hpc⟩).1.mp hnext (h u hun ⟨hcall, hpc⟩)
  · -- back from the place where the server waits
    rintro ⟨w, hw, hpc⟩
    obtain ⟨v, hv, hcallv, hpcv, -⟩ := hsrv.entered hrun (by decide) hw hpc
    obtain ⟨u, hu, hcallu, hpcu, -⟩ := hsrv.entered hrun (by decide) (by omega) hpcv
    obtain ⟨t, ht, hcallt, hpct, hnext⟩ := hsrv.entered hrun (by decide) (by omega) hpcu
    exact ⟨t, u, v, ht, hu, by omega, ⟨hcallt, hpct⟩,
      (hsrv.tries hrun (by omega) ⟨hcallt, hpct⟩).2.mp hnext, hcallu, hcallv⟩
  · rintro ⟨t, u, v, htu, huv, hv, htry, hready, hcallu, hcallv⟩
    have h1 : pc (t + 1) = .unmap := (hsrv.tries hrun (by omega) htry).2.mpr hready
    have hu : 1 ≤ (pc u).rank := by
      have := hsrv.rank_mono hrun (Nat.succ_le_of_lt htu) (by omega)
      rwa [h1] at this
    have hu' := (hsrv.rank_step hrun (huv.trans hv)).2 hcallu hu
    have hv' : (pc (u + 1)).rank ≤ (pc v).rank := hsrv.rank_mono hrun huv hv.le
    have hlast := (hsrv.rank_step hrun hv).2 hcallv (by omega)
    refine ⟨v + 1, hv, ?_⟩
    have h3 : 3 ≤ (pc (v + 1)).rank := by omega
    cases hpc : pc (v + 1) with
    | waiting => rfl
    | _ => rw [hpc] at h3; exact absurd h3 (by decide)

end Run

/-! ## Two clients -/

/-- The first environment is a client that waits; the second one, the server, replies. -/
def answerEntries : ℕ → Entry
  | 0 => .ipcRecv 0
  | 1 => .ipcTrySend 0x800#32 0 0 0
  | 2 => .memUnmap 0 reqVa
  | _ => .ipcRecv reqVa

def answerResults : ℕ → Option Word
  | 1 | 2 => some 0
  | _ => none

def answerRun : ℕ → Kern
  | 0 => pairKern
  | t + 1 => after smallMachine (answerRun t) (answerEntries t)

def answerPc : ℕ → ReplyPc
  | 0 | 1 => .trySend
  | 2 => .unmap
  | 3 => .recv
  | _ => .waiting

lemma answerRun_kernRun : KernRun smallMachine 4 answerRun answerEntries answerResults := by
  intro t ht
  refine ⟨(answerRun t).ktf, ?_⟩
  interval_cases t <;> rfl

lemma answerRun_call {t : ℕ} (ht : t < 4) :
    CallOf (answerRun t) (answerEntries t) 1 ↔ 0 < t := by
  have h0 : (answerRun 0).curenv ≠ some 1 := by decide
  interval_cases t
  case «0» => exact ⟨fun h => absurd h.1 h0, fun h => absurd h (by decide)⟩
  all_goals
    refine ⟨fun _ => by decide, fun _ => ⟨rfl, ?_, ?_⟩⟩
    all_goals simp [answerEntries]

/-- The reply is sent in one try. -/
lemma answerRun_replyRun :
    ReplyRun 1 ⟨0x800#32, 0, 0, 0⟩ 4 answerRun answerEntries answerResults answerPc where
  start := rfl
  call t ht hcall a ha := by
    have h0 := (answerRun_call ht).mp hcall
    interval_cases t
    all_goals exact Option.some.inj ha
  next t ht hcall := by
    have h0 := (answerRun_call ht).mp hcall
    interval_cases t
    all_goals rfl
  keep t ht hcall := by
    have h0 := mt (answerRun_call ht).mpr hcall
    obtain rfl : t = 0 := by omega
    rfl

/-- The reply is delivered at once, and the server waits for the next request. -/
theorem reply_goes_on_answer :
    (∀ t ≤ 4, answerPc t ≠ .failed) ∧ ∃ t ≤ 4, answerPc t = .waiting := by
  obtain ⟨hsafe, hlive⟩ := reply_goes_on_iff answerRun_kernRun answerRun_replyRun
  have hready : ClientReady smallMachine (answerRun 1) ⟨0x800#32, 0, 0, 0⟩ 1 :=
    ⟨Or.inl rfl, 0, rfl, by decide, Or.inl rfl⟩
  refine ⟨hsafe.mpr fun t ht htry => ?_, hlive.mpr ⟨1, 2, 3, by decide, by decide, by decide,
    ⟨(answerRun_call (by decide)).mpr (by decide), rfl⟩, hready,
    (answerRun_call (by decide)).mpr (by decide), (answerRun_call (by decide)).mpr (by decide)⟩⟩
  have h0 := (answerRun_call ht).mp htry.1
  have hpc := htry.2
  interval_cases t
  · exact Or.inr hready
  · exact absurd hpc (by decide)
  · exact absurd hpc (by decide)

/-- The first environment lets the server, the second one, wait at `REQVA`, sends it `FSREQ_SYNC`
with a page, and is destroyed; the server replies. -/
def goneEntries : ℕ → Entry
  | 0 => .yield
  | 1 => .ipcRecv reqVa
  | 2 => .memAlloc 0 0x400000#32 pteD
  | 3 => .ipcTrySend 0x1001#32 7 0x400000#32 pteD
  | 4 => .envDestroy 0
  | _ => .ipcTrySend 0x800#32 0 0 0

def goneResults : ℕ → Option Word
  | 2 | 3 => some 0
  | 5 => some (-eBadEnv)
  | _ => none

def goneRun : ℕ → Kern
  | 0 => pairKern
  | t + 1 => after smallMachine (goneRun t) (goneEntries t)

/-- Whether an entry returns, and with this value. -/
def entryReturns (M : Machine) (k : Kern) (a : Entry) (r : Option Word) : Bool :=
  match enter M k a with
  | .ok (r', _) => decide (r' = r)
  | .error _ => false

/-- The state after an entry that is known to return. -/
lemma enter_after {a : Entry} {r : Option Word} (h : entryReturns M k a r = true) :
    enter M k a = .ok (r, after M k a) := by
  unfold entryReturns at h
  unfold after
  rcases he : enter M k a with err | ⟨r', k'⟩
  · rw [he] at h
    exact absurd h Bool.false_ne_true
  · rw [he] at h
    rw [of_decide_eq_true h]

/-- What the six entries come to, computed once. -/
lemma goneRun_facts :
    (∀ t < 6, entryReturns smallMachine (goneRun t) (goneEntries t) (goneResults t) = true) ∧
    ((goneRun 4).curenv = some 0 ∧ (goneRun 5).curenv = some 1) ∧
    (envid2env (goneRun 3) 0x1001#32 false = .ok (.ok (some 1)) ∧
      ((goneRun 3).envs 1).ipcRecving ≠ 0 ∧ (goneRun 3).curenv = some 0) ∧
    ((goneRun 4).envs 1).ipcValue = 7 ∧ ((goneRun 4).envs 1).ipcFrom = 0x800#32 ∧
      ((goneRun 4).envs 1).ipcPerm = pteV ||| pteD := by
  decide +kernel

lemma goneRun_kernRun : KernRun smallMachine 6 goneRun goneEntries goneResults := by
  intro t ht
  refine ⟨(goneRun t).ktf, ?_⟩
  rw [Kern.trap_ktf]
  exact enter_after (goneRun_facts.1 t ht)

lemma goneRun_cur : (goneRun 4).curenv = some 0 ∧ (goneRun 5).curenv = some 1 :=
  goneRun_facts.2.1

/-- The server at its reply, after the request has been delivered. -/
lemma goneRun_replyRun : ReplyRun 1 ⟨0x800#32, 0, 0, 0⟩ 2 (fun t => goneRun (t + 4))
    (fun t => goneEntries (t + 4)) (fun t => goneResults (t + 4))
    (fun t => if t < 2 then .trySend else .failed) where
  start := rfl
  call t ht hcall a ha := by
    obtain rfl | rfl : t = 0 ∨ t = 1 := by omega
    · exact absurd (hcall.1.symm.trans goneRun_cur.1) (by decide)
    · exact Option.some.inj ha
  next t ht hcall := by
    obtain rfl | rfl : t = 0 ∨ t = 1 := by omega
    · exact absurd (hcall.1.symm.trans goneRun_cur.1) (by decide)
    · rfl
  keep t ht hcall := by
    obtain rfl | rfl : t = 0 ∨ t = 1 := by omega
    · rfl
    · refine absurd ⟨goneRun_cur.2, ?_, ?_⟩ hcall
      · simp [goneEntries]
      · simp [goneEntries]

/-- The client is destroyed between its request and the reply, and the assertion fails. -/
theorem reply_to_destroyed : ¬ ∀ (M : Machine) (n i : ℕ) (σ : ℕ → Kern) (act : ℕ → Entry)
    (res : ℕ → Option Word) (srv client : EnvPtr) (value srcva perm : Word) (req : FsReq)
    (m : IpcSend) (pc : ℕ → ReplyPc), KernRun M (i + 1 + n) σ act res →
    Delivers (σ i) (act i) srv client value srcva perm →
    serve (ipcRecv ((σ (i + 1)).envs srv)) = .dispatch m.whom req →
    ReplyRun srv m n (fun t => σ (t + (i + 1))) (fun t => act (t + (i + 1)))
      (fun t => res (t + (i + 1))) pc →
      ∀ t ≤ n, pc t ≠ .failed := by
  intro h
  refine h smallMachine 2 3 goneRun goneEntries goneResults 1 0 7 0x400000#32 pteD .sync
    ⟨0x800#32, 0, 0, 0⟩ _ goneRun_kernRun ?_ ?_ goneRun_replyRun 2 le_rfl rfl
  · exact ⟨0x1001#32, rfl, Or.inr (by decide), goneRun_facts.2.2.1⟩
  · have hmsg : ((goneRun 4).envs 1).ipcValue = 7 ∧ ((goneRun 4).envs 1).ipcFrom = 0x800#32 ∧
        ((goneRun 4).envs 1).ipcPerm = pteV ||| pteD := goneRun_facts.2.2.2
    show serve ⟨((goneRun 4).envs 1).ipcValue, ((goneRun 4).envs 1).ipcFrom,
      ((goneRun 4).envs 1).ipcPerm⟩ = _
    rw [hmsg.1, hmsg.2.1, hmsg.2.2]
    rfl

end MosVolca
