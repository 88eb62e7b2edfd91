import MosVolca.Kern.Entry
import MosVolca.Kern.PmapCases

/-!
# What the system calls do

The system calls on address spaces and messages, each described once by the ways in which it can
return: an early error leaves the state as it was; otherwise the call has found its environments
and its page, and `page_insert` or `page_remove` decides the rest.

## Main results

* `MosVolca.sysMemAlloc_cases`, `MosVolca.sysMemMap_cases`, `MosVolca.sysMemUnmap_cases` — the calls
  on address spaces.
* `MosVolca.sysIpcTrySend_cases` — sending a message.
* `MosVolca.enter_onMemory`, `MosVolca.enter_schedules` — entries that change one part of the state.
-/

namespace MosVolca

variable {M : Machine} {k k' : Kern} {s s' : PhysMem} {r envid va perm : Word}

/-- `envid2env` fails with `-E_BAD_ENV` only. -/
lemma envid2env_error {checkperm : Bool} (h : envid2env k envid checkperm = .ok (.error r)) :
    r = -eBadEnv := by
  unfold envid2env at h
  by_cases h0 : envid = 0
  · rw [if_pos h0] at h
    simp at h
  rw [if_neg h0] at h
  simp only at h
  by_cases hbad : (k.envs (envx envid)).status = .free ∨ (k.envs (envx envid)).id ≠ envid
  · rw [if_pos hbad] at h
    simp only [pure_eq_ok, Except.ok.injEq, Except.error.injEq] at h
    exact h.symm
  rw [if_neg hbad] at h
  rcases checkperm with _ | _
  · simp at h
  · simp only [↓reduceIte] at h
    obtain ⟨cur, -, h⟩ := bind_eq_ok.mp h
    by_cases hperm : (k.envs (envx envid)).parentId ≠ (k.envs cur).id ∧
        (k.envs (envx envid)).id ≠ (k.envs cur).id
    · rw [if_pos hperm] at h
      simp only [pure_eq_ok, Except.ok.injEq, Except.error.injEq] at h
      exact h.symm
    · rw [if_neg hperm] at h
      simp at h

/-- `sys_mem_alloc`: an early error, or `page_insert` of a new page. -/
theorem sysMemAlloc_cases (h : sysMemAlloc M k envid va perm = .ok (r, k')) :
    (r ≠ 0 ∧ k' = k) ∨
      ∃ e pp pm1 pm', isIllegalVa va = false ∧ envid2env k envid true = .ok (.ok (some e)) ∧
        pageAlloc M k.pm = .ok (.ok pp, pm1) ∧
        pageInsert M pm1 (k.envs e).pgdir (k.envs e).asid pp va perm = .ok (r, pm') ∧
        k' = { k with pm := pm' } := by
  unfold sysMemAlloc at h
  by_cases hva : isIllegalVa va = true
  · rw [if_pos hva] at h
    replace h := pure_pair_inj h
    exact Or.inl ⟨h.1 ▸ by decide, h.2.symm⟩
  rw [if_neg hva, bind_eq_ok] at h
  obtain ⟨o, hid, h⟩ := h
  rcases o with r' | p
  · replace h := pure_pair_inj h
    exact Or.inl ⟨h.1 ▸ envid2env_error hid ▸ by decide, h.2.symm⟩
  simp only [bind_eq_ok] at h
  obtain ⟨⟨o, pm1⟩, halloc, h⟩ := h
  rcases o with r' | pp
  · replace h := pure_pair_inj h
    obtain ⟨-, hr, hpm⟩ := pageAlloc_error halloc
    exact Or.inl ⟨h.1 ▸ hr ▸ by decide, by rw [← h.2, hpm]⟩
  simp only [bind_eq_ok, pure_eq_ok, Except.ok.injEq, Prod.mk.injEq] at h
  obtain ⟨e, he, ⟨r', pm'⟩, hins, rfl, rfl⟩ := h
  rw [deref_eq_ok.mp he] at hid
  exact Or.inr ⟨e, pp, pm1, pm', Bool.eq_false_iff.mpr hva, hid, halloc, hins, rfl⟩

/-- `sys_mem_map`: an early error, or `page_insert` of the page that `page_lookup` has found. -/
theorem sysMemMap_cases {srcid srcva dstid dstva : Word}
    (h : sysMemMap M k srcid srcva dstid dstva perm = .ok (r, k')) :
    (r ≠ 0 ∧ k' = k) ∨
      ∃ src dst pp pte pm', isIllegalVa srcva = false ∧ isIllegalVa dstva = false ∧
        envid2env k srcid true = .ok (.ok (some src)) ∧
        envid2env k dstid true = .ok (.ok (some dst)) ∧
        pageLookup M k.pm (k.envs src).pgdir srcva = .ok (some (pp, pte)) ∧
        pageInsert M k.pm (k.envs dst).pgdir (k.envs dst).asid pp dstva perm = .ok (r, pm') ∧
        k' = { k with pm := pm' } := by
  unfold sysMemMap at h
  by_cases hva : (isIllegalVa srcva || isIllegalVa dstva) = true
  · rw [if_pos hva] at h
    replace h := pure_pair_inj h
    exact Or.inl ⟨h.1 ▸ by decide, h.2.symm⟩
  obtain ⟨hsrc, hdst⟩ := Bool.or_eq_false_iff.mp (Bool.eq_false_iff.mpr hva)
  rw [if_neg hva, bind_eq_ok] at h
  obtain ⟨o, hid, h⟩ := h
  rcases o with r' | src
  · replace h := pure_pair_inj h
    exact Or.inl ⟨h.1 ▸ envid2env_error hid ▸ by decide, h.2.symm⟩
  simp only [bind_eq_ok] at h
  obtain ⟨o, hid', h⟩ := h
  rcases o with r' | dst
  · replace h := pure_pair_inj h
    exact Or.inl ⟨h.1 ▸ envid2env_error hid' ▸ by decide, h.2.symm⟩
  simp only [bind_eq_ok] at h
  obtain ⟨se, hse, o, hlook, h⟩ := h
  rw [deref_eq_ok.mp hse] at hid
  rcases o with _ | ⟨pp, pte⟩
  · replace h := pure_pair_inj h
    exact Or.inl ⟨h.1 ▸ by decide, h.2.symm⟩
  simp only [bind_eq_ok, pure_eq_ok, Except.ok.injEq, Prod.mk.injEq] at h
  obtain ⟨de, hde, ⟨r', pm'⟩, hins, rfl, rfl⟩ := h
  rw [deref_eq_ok.mp hde] at hid'
  exact Or.inr ⟨se, de, pp, pte, pm', hsrc, hdst, hid, hid', hlook, hins, rfl⟩

/-- `sys_mem_map` from the current environment, when there is a page to map. -/
lemma sysMemMap_own {c e : EnvPtr} {dstid srcva dstva : Word} {pp : ℕ} {pte : PtePtr}
    (hcur : k.curenv = some c) (hid : envid2env k dstid true = .ok (.ok (some e)))
    (hsrc : isIllegalVa srcva = false) (hdst : isIllegalVa dstva = false)
    (hl : pageLookup M k.pm (k.envs c).pgdir srcva = .ok (some (pp, pte))) :
    sysMemMap M k 0 srcva dstid dstva perm =
      (pageInsert M k.pm (k.envs e).pgdir (k.envs e).asid pp dstva perm >>= fun x =>
        pure (x.1, { k with pm := x.2 })) := by
  have h0 : envid2env k 0 true = .ok (.ok (some c)) := by
    rw [envid2env, if_pos rfl, hcur]
    rfl
  unfold sysMemMap
  rw [if_neg (by simp [hsrc, hdst]), h0, ok_bind]
  simp only [hid, ok_bind, deref, pure_eq_ok, hl]

/-- `sys_mem_unmap`: an early error, or `page_remove`. -/
theorem sysMemUnmap_cases (h : sysMemUnmap M k envid va = .ok (r, k')) :
    (r ≠ 0 ∧ k' = k) ∨
      ∃ e pm', isIllegalVa va = false ∧ envid2env k envid true = .ok (.ok (some e)) ∧
        pageRemove M k.pm (k.envs e).pgdir (k.envs e).asid va = .ok pm' ∧ r = 0 ∧
        k' = { k with pm := pm' } := by
  unfold sysMemUnmap at h
  by_cases hva : isIllegalVa va = true
  · rw [if_pos hva] at h
    replace h := pure_pair_inj h
    exact Or.inl ⟨h.1 ▸ by decide, h.2.symm⟩
  rw [if_neg hva, bind_eq_ok] at h
  obtain ⟨o, hid, h⟩ := h
  rcases o with r' | p
  · replace h := pure_pair_inj h
    exact Or.inl ⟨h.1 ▸ envid2env_error hid ▸ by decide, h.2.symm⟩
  simp only [bind_eq_ok, pure_eq_ok, Except.ok.injEq, Prod.mk.injEq] at h
  obtain ⟨e, he, pm', hrem, rfl, rfl⟩ := h
  rw [deref_eq_ok.mp he] at hid
  exact Or.inr ⟨e, pm', Bool.eq_false_iff.mpr hva, hid, hrem, rfl, rfl⟩

/-! ## Environments -/

/-- `sys_env_destroy`: `-E_BAD_ENV`, or `env_destroy`. -/
lemma sysEnvDestroy_cases {o : Option Word} (h : sysEnvDestroy M k envid = .ok (o, k')) :
    (o = some (-eBadEnv) ∧ k' = k) ∨
      ∃ e returned, envid2env k envid true = .ok (.ok (some e)) ∧
        envDestroy M k e = .ok (returned, k') ∧ o = if returned then some 0 else none := by
  unfold sysEnvDestroy at h
  obtain ⟨p, hid, h⟩ := bind_eq_ok.mp h
  rcases p with r' | p
  · replace h := pure_pair_inj h
    exact Or.inl ⟨by rw [← h.1, envid2env_error hid], h.2.symm⟩
  simp only [bind_eq_ok, pure_eq_ok, Except.ok.injEq, Prod.mk.injEq] at h
  obtain ⟨e, hp, ⟨returned, k1⟩, hd, rfl, rfl⟩ := h
  rw [deref_eq_ok.mp hp] at hid
  exact Or.inr ⟨e, returned, hid, hd, rfl⟩

/-- `sys_set_tlb_mod_entry`: `-E_BAD_ENV`, or the entry is set. -/
lemma sysSetTlbModEntry_cases {func : Word} (h : sysSetTlbModEntry k envid func = .ok (r, k')) :
    (r = -eBadEnv ∧ k' = k) ∨
      ∃ e, envid2env k envid true = .ok (.ok (some e)) ∧ r = 0 ∧
        k' = k.setEnv e fun x => { x with userTlbModEntry := func } := by
  unfold sysSetTlbModEntry at h
  obtain ⟨p, hid, h⟩ := bind_eq_ok.mp h
  rcases p with r' | p
  · replace h := pure_pair_inj h
    exact Or.inl ⟨by rw [← h.1, envid2env_error hid], h.2.symm⟩
  simp only [bind_eq_ok, pure_eq_ok, Except.ok.injEq, Prod.mk.injEq] at h
  obtain ⟨e, hp, rfl, rfl⟩ := h
  rw [deref_eq_ok.mp hp] at hid
  exact Or.inr ⟨e, hid, rfl, rfl⟩

/-- `sys_set_env_status`: an early error, or the status and the queue of the environment are set. -/
lemma sysSetEnvStatus_cases {status : Word} (h : sysSetEnvStatus k envid status = .ok (r, k')) :
    ((r = -eInval ∨ r = -eBadEnv) ∧ k' = k) ∨
      ∃ e q, envid2env k envid true = .ok (.ok (some e)) ∧ r = 0 ∧
        updateSchedList k e status = .ok { k with envSchedList := q } ∧
        k' = { k with envSchedList := q }.setEnv e fun x =>
          { x with status := .ofWord status } := by
  unfold sysSetEnvStatus at h
  split_ifs at h with hbad
  · replace h := pure_pair_inj h
    exact Or.inl ⟨Or.inl h.1.symm, h.2.symm⟩
  obtain ⟨p, hid, h⟩ := bind_eq_ok.mp h
  rcases p with r' | p
  · replace h := pure_pair_inj h
    exact Or.inl ⟨Or.inr (by rw [← h.1, envid2env_error hid]), h.2.symm⟩
  simp only [bind_eq_ok, pure_eq_ok, Except.ok.injEq, Prod.mk.injEq] at h
  obtain ⟨e, hp, k1, hup, rfl, rfl⟩ := h
  rw [deref_eq_ok.mp hp] at hid
  obtain ⟨q, rfl⟩ : ∃ q, k1 = { k with envSchedList := q } := by
    unfold updateSchedList at hup
    split_ifs at hup
    · obtain ⟨q, -, hup⟩ := bind_eq_ok.mp hup
      simp only [pure_eq_ok, Except.ok.injEq] at hup
      exact ⟨q, hup.symm⟩
    · obtain ⟨q, -, hup⟩ := bind_eq_ok.mp hup
      simp only [pure_eq_ok, Except.ok.injEq] at hup
      exact ⟨q, hup.symm⟩
    · simp only [pure_eq_ok, Except.ok.injEq] at hup
      exact ⟨k.envSchedList, hup.symm⟩
  exact Or.inr ⟨e, q, hid, rfl, hup, rfl⟩

/-! ## Messages -/

/-- The environment `cur` waits for a message at `dstva`, and has left the queue `q`. -/
def Kern.waiting (k : Kern) (cur : EnvPtr) (dstva : Word) (q : TailQueue.TailQ EnvPtr) : Kern :=
  { k.setEnv cur fun x =>
      { x with ipcRecving := 1, ipcDstva := dstva, status := .notRunnable } with
    envSchedList := q
    ktf := { k.ktf with regs := Function.update k.ktf.regs 2 0 } }

/-- What holds of the environment that waits and of the others. -/
lemma Kern.forall_waiting {k : Kern} {cur : EnvPtr} {dstva : Word} {q : TailQueue.TailQ EnvPtr}
    {P : EnvPtr → Env → Prop} (hself : P cur { k.envs cur with
      ipcRecving := 1, ipcDstva := dstva, status := .notRunnable })
    (hother : ∀ x, x ≠ cur → P x (k.envs x)) (x : EnvPtr) : P x ((k.waiting cur dstva q).envs x) :=
  Kern.forall_setEnv (f := fun x =>
    { x with ipcRecving := 1, ipcDstva := dstva, status := .notRunnable }) hself hother x

/-- The environment that waits stays in use. -/
lemma Kern.waiting_free_iff {k : Kern} {cur : EnvPtr} (h : (k.envs cur).status ≠ .free)
    (dstva : Word) (q : TailQueue.TailQ EnvPtr) (x : EnvPtr) :
    ((k.waiting cur dstva q).envs x).status = .free ↔ (k.envs x).status = .free :=
  forall_waiting (P := fun x y => y.status = .free ↔ (k.envs x).status = .free)
    (iff_of_false (by simp) h) (fun _ _ => Iff.rfl) x

/-- `sys_ipc_recv`: an early error, or the caller waits and another environment runs. -/
theorem sysIpcRecv_cases {dstva : Word} {o : Option Word} (h : sysIpcRecv k dstva = .ok (o, k')) :
    (o = some (-eInval) ∧ k' = k) ∨
      ∃ cur q, ¬ (dstva ≠ 0 ∧ isIllegalVa dstva = true) ∧ o = none ∧ k.curenv = some cur ∧
        k.envSchedList.remove cur = some q ∧ schedule (k.waiting cur dstva q) true = .ok k' := by
  unfold sysIpcRecv at h
  by_cases hva : dstva ≠ 0 ∧ isIllegalVa dstva = true
  · rw [if_pos hva] at h
    replace h := pure_pair_inj h
    exact Or.inl ⟨h.1.symm, h.2.symm⟩
  rw [if_neg hva] at h
  simp only [bind_eq_ok, deref_eq_ok, pure_eq_ok, Except.ok.injEq, Prod.mk.injEq] at h
  obtain ⟨cur, hc, q, hq, k1, hs, rfl, rfl⟩ := h
  exact Or.inr ⟨cur, q, hva, rfl, hc, hq, hs⟩

/-- The target `e` of a message from `cur` after steps 4 and 5 of `sys_ipc_try_send`. -/
def Kern.received (k : Kern) (e cur : EnvPtr) (value perm : Word) : Kern :=
  k.setEnv e fun x => { x with
    ipcValue := value
    ipcFrom := (k.envs cur).id
    ipcPerm := pteV ||| perm
    ipcRecving := 0
    status := .runnable }

/-- What holds of the target and of the others. -/
lemma Kern.forall_received {k : Kern} {e cur : EnvPtr} {value perm : Word}
    {P : EnvPtr → Env → Prop} (hself : P e { k.envs e with
      ipcValue := value, ipcFrom := (k.envs cur).id, ipcPerm := pteV ||| perm, ipcRecving := 0,
      status := .runnable })
    (hother : ∀ x, x ≠ e → P x (k.envs x)) (x : EnvPtr) :
    P x ((k.received e cur value perm).envs x) :=
  Kern.forall_setEnv (f := fun x => { x with
    ipcValue := value, ipcFrom := (k.envs cur).id, ipcPerm := pteV ||| perm, ipcRecving := 0,
    status := .runnable }) hself hother x

/-- The target stays in use. -/
lemma Kern.received_free_iff {k : Kern} {e : EnvPtr} (h : (k.envs e).status ≠ .free)
    (cur : EnvPtr) (value perm : Word) (x : EnvPtr) :
    ((k.received e cur value perm).envs x).status = .free ↔ (k.envs x).status = .free :=
  forall_received (P := fun x y => y.status = .free ↔ (k.envs x).status = .free)
    (iff_of_false (by simp) h) (fun _ _ => Iff.rfl) x

/-- The fields that `page_lookup` and `page_insert` read are not those that are set. -/
lemma Kern.received_fields (k : Kern) (e cur : EnvPtr) (value perm : Word) (x : EnvPtr) :
    ((k.received e cur value perm).envs x).pgdir = (k.envs x).pgdir ∧
      ((k.received e cur value perm).envs x).asid = (k.envs x).asid ∧
      ((k.received e cur value perm).envs x).ipcDstva = (k.envs x).ipcDstva :=
  forall_received (P := fun x y => y.pgdir = (k.envs x).pgdir ∧ y.asid = (k.envs x).asid ∧
    y.ipcDstva = (k.envs x).ipcDstva) ⟨rfl, rfl, rfl⟩ (fun _ _ => ⟨rfl, rfl, rfl⟩) x

lemma ipcDeliver_cases {e cur : EnvPtr} {value : Word}
    (h : ipcDeliver k e cur value perm = .ok k') : ∃ q, k.envSchedList.insertTail e = some q ∧
      k' = { k.received e cur value perm with envSchedList := q } := by
  unfold ipcDeliver at h
  obtain ⟨q, hq, h⟩ := bind_eq_ok.mp h
  simp only [pure_eq_ok, Except.ok.injEq] at h
  exact ⟨q, deref_eq_ok.mp hq, h.symm⟩

/-- **Everything `sys_ipc_try_send` can do**: return an early error and change nothing, or set the
fields of the target and make it runnable, and then send no page, fail to find the page, or map
it with `page_insert`. -/
theorem sysIpcTrySend_cases {value srcva : Word}
    (h : sysIpcTrySend M k envid value srcva perm = .ok (r, k')) :
    (k' = k ∧ ((srcva ≠ 0 ∧ isIllegalVa srcva = true ∧ r = -eInval) ∨
        (envid2env k envid false = .ok (.error r) ∧ r = -eBadEnv) ∨
        ∃ e, envid2env k envid false = .ok (.ok (some e)) ∧ (k.envs e).ipcRecving = 0 ∧
          r = -eIpcNotRecv)) ∨
      ∃ e cur q, (srcva = 0 ∨ isIllegalVa srcva = false) ∧
        envid2env k envid false = .ok (.ok (some e)) ∧ (k.envs e).ipcRecving ≠ 0 ∧
        k.curenv = some cur ∧ k.envSchedList.insertTail e = some q ∧
        ((srcva = 0 ∧ r = 0 ∧ k' = { k.received e cur value perm with envSchedList := q }) ∨
          (srcva ≠ 0 ∧ r = -eInval ∧ pageLookup M k.pm (k.envs cur).pgdir srcva = .ok none ∧
            k' = { k.received e cur value perm with envSchedList := q }) ∨
          ∃ pp pte pm', srcva ≠ 0 ∧
            pageLookup M k.pm (k.envs cur).pgdir srcva = .ok (some (pp, pte)) ∧
            pageInsert M k.pm (k.envs e).pgdir (k.envs e).asid pp (k.envs e).ipcDstva perm =
              .ok (r, pm') ∧
            k' = { k.received e cur value perm with envSchedList := q, pm := pm' }) := by
  unfold sysIpcTrySend at h
  by_cases hbad : srcva ≠ 0 ∧ isIllegalVa srcva = true
  · rw [if_pos hbad] at h
    replace h := pure_pair_inj h
    exact Or.inl ⟨h.2.symm, Or.inl ⟨hbad.1, hbad.2, h.1.symm⟩⟩
  rw [if_neg hbad, bind_eq_ok] at h
  obtain ⟨o, hid, h⟩ := h
  rcases o with r' | p
  · obtain ⟨rfl, rfl⟩ := pure_pair_inj h
    exact Or.inl ⟨rfl, Or.inr (Or.inl ⟨hid, envid2env_error hid⟩)⟩
  simp only [bind_eq_ok] at h
  obtain ⟨e, hp, h⟩ := h
  rw [deref_eq_ok.mp hp] at hid
  by_cases hrecv : (k.envs e).ipcRecving = 0
  · rw [if_pos hrecv] at h
    replace h := pure_pair_inj h
    exact Or.inl ⟨h.2.symm, Or.inr (Or.inr ⟨e, hid, hrecv, h.1.symm⟩)⟩
  rw [if_neg hrecv] at h
  simp only [bind_eq_ok] at h
  obtain ⟨cur, hc, k1, hdel, h⟩ := h
  obtain ⟨q, hq, rfl⟩ := ipcDeliver_cases hdel
  have hlegal : srcva = 0 ∨ isIllegalVa srcva = false := by simpa [imp_iff_not_or] using hbad
  refine Or.inr ⟨e, cur, q, hlegal, hid, hrecv, deref_eq_ok.mp hc, hq, ?_⟩
  by_cases hsrc : srcva ≠ 0
  · rw [if_pos hsrc] at h
    simp only [(k.received_fields e cur value perm cur).1, k.received_fields e cur value perm e,
      bind_eq_ok] at h
    obtain ⟨o, hlook, h⟩ := h
    rcases o with _ | ⟨pp, pte⟩
    · replace h := pure_pair_inj h
      exact Or.inr (Or.inl ⟨hsrc, h.1.symm, hlook, h.2.symm⟩)
    · simp only [bind_eq_ok, pure_eq_ok, Except.ok.injEq, Prod.mk.injEq] at h
      obtain ⟨⟨r', pm'⟩, hins, rfl, rfl⟩ := h
      exact Or.inr (Or.inr ⟨pp, pte, pm', hsrc, hlook, hins, rfl⟩)
  · rw [if_neg hsrc] at h
    replace h := pure_pair_inj h
    exact Or.inl ⟨not_not.mp hsrc, h.1.symm, h.2.symm⟩

/-- `sys_ipc_try_send`, where it does not matter what becomes of the page: the state stays, or the
target gets the message. -/
lemma sysIpcTrySend_frame {value srcva : Word}
    (h : sysIpcTrySend M k envid value srcva perm = .ok (r, k')) : k' = k ∨
      ∃ e cur q pm, (srcva = 0 ∨ isIllegalVa srcva = false) ∧
        envid2env k envid false = .ok (.ok (some e)) ∧ (k.envs e).ipcRecving ≠ 0 ∧
        k.curenv = some cur ∧
        k' = { k.received e cur value perm with envSchedList := q, pm := pm } := by
  rcases sysIpcTrySend_cases h with ⟨rfl, -⟩ | ⟨e, cur, q, hva, hid, hrecv, hc, -, hk'⟩
  · exact .inl rfl
  right
  rcases hk' with ⟨-, -, rfl⟩ | ⟨-, -, -, rfl⟩ | ⟨_, _, pm', -, -, -, rfl⟩
  · exact ⟨e, cur, q, _, hva, hid, hrecv, hc, rfl⟩
  · exact ⟨e, cur, q, _, hva, hid, hrecv, hc, rfl⟩
  · exact ⟨e, cur, q, pm', hva, hid, hrecv, hc, rfl⟩

/-! ## Entries -/

/-- A call that always returns, after `enter`. -/
lemma returning_eq_ok {x : Kernel (Word × Kern)} {o : Option Word}
    (h : returning x = .ok (o, k')) : ∃ r, x = .ok (r, k') := by
  unfold returning at h
  obtain ⟨⟨r, k1⟩, hx, h⟩ := bind_eq_ok.mp h
  replace h := pure_pair_inj h
  exact ⟨r, h.2 ▸ hx⟩

/-- The entries that call the scheduler only. -/
def Entry.Schedules : Entry → Prop
  | .timer | .yield => True
  | _ => False

/-- The entries that schedule end with `schedule` alone. -/
lemma enter_schedules {a : Entry} {o : Option Word} (h : enter M k a = .ok (o, k'))
    (ha : a.Schedules) : ∃ yield, schedule k yield = .ok k' := by
  cases a with
  | timer | yield =>
    obtain ⟨k1, hs, h⟩ := bind_eq_ok.mp h
    obtain ⟨-, rfl⟩ := pure_pair_inj h
    exact ⟨_, hs⟩
  | _ => exact ha.elim

/-- The calls on address spaces. -/
def Entry.OnMemory : Entry → Prop
  | .memAlloc _ _ _ | .memMap _ _ _ _ _ | .memUnmap _ _ => True
  | _ => False

/-- **The calls on address spaces change the memory only.** -/
lemma enter_onMemory {a : Entry} {o : Option Word} (h : enter M k a = .ok (o, k'))
    (ha : a.OnMemory) : ∃ pm, k' = { k with pm := pm } := by
  cases a with
  | memAlloc envid va perm =>
    obtain ⟨r, h⟩ := returning_eq_ok h
    rcases sysMemAlloc_cases h with ⟨-, rfl⟩ | ⟨_, _, _, _, -, -, -, -, rfl⟩ <;> exact ⟨_, rfl⟩
  | memMap srcid srcva dstid dstva perm =>
    obtain ⟨r, h⟩ := returning_eq_ok h
    rcases sysMemMap_cases h with ⟨-, rfl⟩ | ⟨_, _, _, _, _, -, -, -, -, -, -, rfl⟩ <;>
      exact ⟨_, rfl⟩
  | memUnmap envid va =>
    obtain ⟨r, h⟩ := returning_eq_ok h
    rcases sysMemUnmap_cases h with ⟨-, rfl⟩ | ⟨_, _, -, -, -, -, rfl⟩ <;> exact ⟨_, rfl⟩
  | _ => exact ha.elim

/-- `sys_exofork`: the error of `env_alloc`, or a child. -/
lemma sysExofork_alloc (h : sysExofork M k = .ok (r, k')) : ∃ c p k1, k.curenv = some c ∧
    envAlloc M k (k.envs c).id = .ok (p, k1) ∧ ((p = .error r ∧ k' = k1) ∨
      ∃ e, p = .ok e ∧ r = (k'.envs e).id ∧ k' = k1.setEnv e fun x => { x with
        tf := { k1.ktf with regs := Function.update k1.ktf.regs 2 0 }
        status := .notRunnable
        path := strcpy x.path (k1.envs c).path
        pri := (k1.envs c).pri
        shellId := (k1.envs c).shellId }) := by
  unfold sysExofork at h
  obtain ⟨c, hc, h⟩ := bind_eq_ok.mp h
  obtain ⟨⟨p, k1⟩, halloc, h⟩ := bind_eq_ok.mp h
  rcases p with r' | e
  · obtain ⟨rfl, rfl⟩ := pure_pair_inj h
    exact ⟨c, _, k1, deref_eq_ok.mp hc, halloc, .inl ⟨rfl, rfl⟩⟩
  · obtain ⟨rfl, rfl⟩ := pure_pair_inj h
    exact ⟨c, _, k1, deref_eq_ok.mp hc, halloc, .inr ⟨e, rfl, rfl, rfl⟩⟩

/-- `env_destroy` frees the environment, and calls the scheduler if it was running. -/
lemma envDestroy_cases {e : EnvPtr} {returned : Bool}
    (h : envDestroy M k e = .ok (returned, k')) : ∃ k1, envFree M k e = .ok k1 ∧
      ((k1.curenv = some e ∧ returned = false ∧
          schedule { k1 with curenv := none } true = .ok k') ∨
        (k1.curenv ≠ some e ∧ returned = true ∧ k' = k1)) := by
  unfold envDestroy at h
  obtain ⟨k1, hfree, h⟩ := bind_eq_ok.mp h
  split_ifs at h with hcur
  · obtain ⟨k2, hs, h⟩ := bind_eq_ok.mp h
    obtain ⟨rfl, rfl⟩ := pure_pair_inj h
    exact ⟨k1, hfree, .inl ⟨hcur, rfl, hs⟩⟩
  · obtain ⟨rfl, rfl⟩ := pure_pair_inj h
    exact ⟨k1, hfree, .inr ⟨hcur, rfl, rfl⟩⟩

end MosVolca
