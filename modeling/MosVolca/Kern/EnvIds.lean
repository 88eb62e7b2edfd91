import MosVolca.Kern.RunQueue
import MosVolca.Kern.UserMode

/-!
# Environment identifiers

`mkenvid` shifts a counter that is never reset by eleven bits and adds the slot. As long as the
counter has not reached `2 ^ 21`, an identifier is made at most once and none of them is 0, so
`envid2env` finds the very environment for which the identifier was made. From there on the shift
loses bits: this file also shows a run in which the identifier 0 is made, and one identifier twice.

## Main definitions

* `MosVolca.IdEvent`, `MosVolca.IdStep`, `MosVolca.IdRun` — runs of `env_alloc` and `env_free`.
* `MosVolca.IdRoom` — the counter has not reached its end.
* `MosVolca.IdHistory` — the invariant: the environments in use and the calls that made them.

## Main results

* `MosVolca.IdHistory.step` — a call keeps the invariant.
* `MosVolca.identity_of_run` — what an identifier stands for, in every run.
* `MosVolca.enter_idStep` — every kernel entry is a step of such a run.
-/

namespace MosVolca

variable {M : Machine} {k k' k1 : Kern} {e x : EnvPtr} {n s t u : ℕ} {σ : ℕ → Kern}

/-! ## Runs of the allocator -/

/-- What a step of the kernel does: a call of `env_alloc` with its result, a call of `env_free`, or
neither. -/
inductive IdEvent
  | alloc (result : Except Word EnvPtr)
  | free (e : EnvPtr)
  | other

/-- What the rest of the kernel leaves alone after such a call: the counter, the free list, the
identifiers, and the status of the free environments. -/
structure KeepsIds (k k' : Kern) : Prop where
  count : k'.envidCount = k.envidCount
  freeList : k'.envFreeList = k.envFreeList
  id : ∀ e, (k'.envs e).id = (k.envs e).id
  status : ∀ e ∈ k.envFreeList, (k'.envs e).status = (k.envs e).status

/-- One step: the call, and what its caller does afterwards. Only an environment that is not in the
free list is freed. -/
inductive IdStep (M : Machine) (k : Kern) : IdEvent → Kern → Prop
  | alloc (parentId : Word) {o : Except Word EnvPtr} {k1 k' : Kern} :
    envAlloc M k parentId = .ok (o, k1) → KeepsIds k1 k' → IdStep M k (.alloc o) k'
  | free {e : EnvPtr} {k1 k' : Kern} :
    e ∉ k.envFreeList → envFree M k e = .ok k1 → KeepsIds k1 k' → IdStep M k (.free e) k'
  | other {k' : Kern} : KeepsIds k k' → IdStep M k .other k'

/-- A run of `n` steps. -/
def IdRun (M : Machine) (n : ℕ) (σ : ℕ → Kern) (ev : ℕ → IdEvent) : Prop :=
  ∀ t < n, IdStep M (σ t) (ev t) (σ (t + 1))

variable {ev : ℕ → IdEvent}

/-- The call of `env_alloc` at time `t` has handed out `id` for the environment `e`. -/
def HandedOut (σ : ℕ → Kern) (ev : ℕ → IdEvent) (t : ℕ) (e : EnvPtr) (id : Word) : Prop :=
  ev t = .alloc (.ok e) ∧ ((σ (t + 1)).envs e).id = id

/-- The condition on a step: if `env_alloc` reaches `mkenvid`, the counter is not at its end. -/
def IdRoom (k : Kern) : IdEvent → Prop
  | .alloc _ =>
    k.envFreeList ≠ [] → k.pm.pageFreeList ≠ [] → k.envidCount.toNat + 1 < 2 ^ 21
  | _ => True

lemma KeepsIds.refl (k : Kern) : KeepsIds k k := ⟨rfl, rfl, fun _ => rfl, fun _ _ => rfl⟩

lemma KeepsIds.trans {k'' : Kern} (h : KeepsIds k k') (h' : KeepsIds k' k'') : KeepsIds k k'' where
  count := h'.count.trans h.count
  freeList := h'.freeList.trans h.freeList
  id e := (h'.id e).trans (h.id e)
  status e he := (h'.status e (h.freeList ▸ he)).trans (h.status e he)

/-! ## One step -/

/-- The identifier that `mkenvid` makes, as long as the shift loses no bit. -/
lemma nextId_toNat (h : k.envidCount.toNat + 1 < 2 ^ 21) (e : EnvPtr) :
    (k.nextId e).toNat = (k.envidCount.toNat + 1) * 2 ^ 11 + e := by
  have hcount : (k.envidCount + 1).toNat = k.envidCount.toNat + 1 := by
    rw [BitVec.toNat_add]
    exact Nat.mod_eq_of_lt (by change k.envidCount.toNat + 1 < 2 ^ 32; omega)
  have he : (e : ℕ) < 2 ^ 11 := e.isLt.trans (by decide)
  rw [Kern.nextId, BitVec.toNat_or, BitVec.toNat_shiftLeft, BitVec.toNat_ofNat, hcount,
    Nat.mod_eq_of_lt (by rw [Nat.shiftLeft_eq]; omega), Nat.mod_eq_of_lt (by omega),
    ← Nat.shiftLeft_add_eq_or_of_lt he, Nat.shiftLeft_eq]

/-- Without a free page, `env_alloc` fails at once. -/
lemma envAlloc_nil {parentId : Word} {o : Except Word EnvPtr} (hf : k.pm.pageFreeList = [])
    (h : envAlloc M k parentId = .ok (o, k')) : ∃ r, o = .error r ∧ k' = k := by
  unfold envAlloc at h
  rcases he : k.envFreeList with _ | ⟨e, frest⟩
  · rw [he] at h
    replace h := pure_pair_inj h
    exact ⟨_, h.1.symm, h.2.symm⟩
  · rw [he] at h
    simp only at h
    rw [envSetupVm_nil hf, ok_bind] at h
    simp only [show -eNoMem ≠ 0 by decide, ↓reduceIte, pure_eq_ok, Except.ok.injEq,
      Prod.mk.injEq, ne_eq, not_false_eq_true] at h
    exact ⟨_, h.1.symm, h.2.symm⟩

/-- What a step does to the counter and the identifiers, if the counter is not at its end. -/
structure IdChange (k : Kern) (a : IdEvent) (k' : Kern) : Prop where
  count : k.envidCount.toNat ≤ k'.envidCount.toNat
  /-- The environments outside the free list keep their identifiers. -/
  id : ∀ x, x ∉ k.envFreeList → (k'.envs x).id = (k.envs x).id
  nodup : k.envFreeList.Nodup → k'.envFreeList.Nodup
  status : (∀ x ∈ k.envFreeList, (k.envs x).status = .free) →
    ∀ x ∈ k'.envFreeList, (k'.envs x).status = .free
  /-- A new environment comes from the free list; its identifier is made from the counter. -/
  alloc : ∀ e, a = .alloc (.ok e) → e ∈ k.envFreeList ∧
    k'.envidCount.toNat = k.envidCount.toNat + 1 ∧
    ((k'.envs e).id).toNat = k'.envidCount.toNat * 2 ^ 11 + e
  /-- The environments outside the free list are the new one and the old ones, but for the one that
  is freed. -/
  used : k.envFreeList.Nodup → ∀ x, x ∉ k'.envFreeList →
    (a = .alloc (.ok x) ∨ x ∉ k.envFreeList) ∧ a ≠ .free x

/-- A step that neither allocates nor frees an environment. -/
lemma KeepsIds.change {a : IdEvent} (h : KeepsIds k k')
    (ha : ∀ x, a ≠ .alloc (.ok x) ∧ a ≠ .free x) : IdChange k a k' where
  count := by rw [h.count]
  id x _ := h.id x
  nodup hn := h.freeList ▸ hn
  status hs x hx := by
    rw [h.freeList] at hx
    rw [h.status x hx, hs x hx]
  alloc e he := absurd he (ha e).1
  used _ x hx := ⟨Or.inr (h.freeList ▸ hx), (ha x).2⟩

/-- The counter after `mkenvid`. -/
lemma count_toNat (hk : k'.envidCount = k.envidCount + 1) (h : k.envidCount.toNat + 1 < 2 ^ 21) :
    k'.envidCount.toNat = k.envidCount.toNat + 1 := by
  rw [hk, BitVec.toNat_add]
  exact Nat.mod_eq_of_lt (by change k.envidCount.toNat + 1 < 2 ^ 32; omega)

/-- `env_alloc`, up to the point where it has taken a page. -/
lemma envAlloc_pages {parentId : Word} {o : Except Word EnvPtr}
    (h : envAlloc M k parentId = .ok (o, k')) (hk : k'.envidCount = k.envidCount + 1) :
    k.pm.pageFreeList ≠ [] := by
  intro hnil
  obtain ⟨r, -, rfl⟩ := envAlloc_nil hnil h
  have hone : (1 : Word) = 0 := by simp at hk
  exact absurd hone (by decide)

/-- `env_alloc` gives an entry the next identifier, which no other has. -/
lemma KeepsIds.change_alloc {parentId : Word} {o : Except Word EnvPtr}
    (hroom : IdRoom k (.alloc o)) (h : envAlloc M k parentId = .ok (o, k1))
    (hkeep : KeepsIds k1 k') : IdChange k (.alloc o) k' := by
  have hframe := envAlloc_frame h
  rcases hframe with ⟨r, rfl, rfl⟩ | ⟨e, frest, y, pm, bitmap, free, hf, hk1, hid, hst, -, ho⟩
  · exact hkeep.change (by simp)
  have hmem : e ∈ k.envFreeList := hf ▸ List.mem_cons_self
  have hlt := hroom (List.ne_nil_of_mem hmem) (envAlloc_pages h (by rw [hk1]))
  have hcount : k'.envidCount.toNat = k.envidCount.toNat + 1 :=
    count_toNat (by rw [hkeep.count, hk1]) hlt
  have hself : k1.envs e = y := (congrArg (·.envs e) hk1).trans (Function.update_self ..)
  have hother : ∀ x, x ≠ e → k1.envs x = k.envs x := fun x hx =>
    (congrArg (·.envs x) hk1).trans (Function.update_of_ne hx _ _)
  have hfree : k'.envFreeList = free := hkeep.freeList.trans (congrArg (·.envFreeList) hk1)
  -- if every ASID is taken, the environment stays free, with a new identifier
  have hsub : ∀ x ∈ free, x ∈ k.envFreeList := by
    rcases ho with ⟨_, -, rfl⟩ | ⟨-, rfl, -⟩
    · exact fun x hx => hx
    · exact fun x hx => hf ▸ List.mem_cons_of_mem e hx
  refine ⟨by omega, fun x hx => ?_, fun hn => ?_, fun hs x hx => ?_, fun x hx => ?_,
    fun hn x hx => ⟨?_, by simp⟩⟩
  · rw [hkeep.id, hother x fun hxe => hx (hxe ▸ hmem)]
  · rw [hfree]
    rcases ho with ⟨_, -, rfl⟩ | ⟨-, rfl, -⟩
    · exact hn
    · exact (List.nodup_cons.mp (hf ▸ hn)).2
  · have hx1 : x ∈ k1.envFreeList := hkeep.freeList ▸ hx
    rw [hkeep.status x hx1]
    by_cases hxe : x = e
    · rw [hxe, hself, hst, hs e hmem]
    · rw [hother x hxe, hs x (hsub x (hfree ▸ hx))]
  · rcases ho with ⟨_, rfl, -⟩ | ⟨rfl, -, -⟩
    · simp at hx
    · obtain rfl : e = x := by simpa using hx
      exact ⟨hmem, hcount, by rw [hkeep.id, hself, hid, hcount, nextId_toNat hlt]⟩
  · rw [hfree] at hx
    rcases ho with ⟨_, -, rfl⟩ | ⟨rfl, rfl, -⟩
    · exact Or.inr hx
    · by_cases hxe : x = e
      · exact Or.inl (by rw [hxe])
      · exact Or.inr (by simp [hf, hxe, hx])

/-- `env_free` leaves the identifiers. -/
lemma KeepsIds.change_free (he : e ∉ k.envFreeList) (h : envFree M k e = .ok k1)
    (hkeep : KeepsIds k1 k') : IdChange k (.free e) k' := by
  obtain ⟨pm, q, -, -, hk1⟩ := envFree_frame h
  have hfree : k1.envFreeList = e :: k.envFreeList := by rw [hk1]
  have hself : k1.envs e = { k.envs e with status := .free } :=
    (congrArg (·.envs e) hk1).trans (Function.update_self ..)
  have hother : ∀ x, x ≠ e → k1.envs x = k.envs x := fun x hx =>
    (congrArg (·.envs x) hk1).trans (Function.update_of_ne hx _ _)
  refine ⟨by rw [hkeep.count, hk1], fun x _ => ?_, fun hn => ?_, fun hs x hx => ?_, by simp,
    fun hn x hx => ?_⟩
  · rw [hkeep.id]
    by_cases hxe : x = e
    · rw [hxe, hself]
    · rw [hother x hxe]
  · rw [hkeep.freeList, hfree]
    exact List.nodup_cons.mpr ⟨he, hn⟩
  · rw [hkeep.freeList, hfree] at hx
    rw [hkeep.status x (hfree ▸ hx)]
    by_cases hxe : x = e
    · rw [hxe, hself]
    · rw [hother x hxe, hs x ((List.mem_cons.mp hx).resolve_left hxe)]
  · rw [hkeep.freeList, hfree] at hx
    obtain ⟨hxe, hx⟩ := not_or.mp fun hc => hx (List.mem_cons.mpr hc)
    exact ⟨Or.inr hx, fun hc => hxe (by simpa using hc.symm)⟩

/-- **What a step does to the identifiers.** -/
theorem IdStep.change {a : IdEvent} (hroom : IdRoom k a) (h : IdStep M k a k') :
    IdChange k a k' := by
  cases h with
  | alloc _ halloc hkeep => exact hkeep.change_alloc hroom halloc
  | free he hfree hkeep => exact hkeep.change_free he hfree
  | other hkeep => exact hkeep.change fun x => by simp

/-! ## Runs -/

/-- Since the step `s`, the environment `e` has been neither freed nor allocated. -/
def Since (ev : ℕ → IdEvent) (s t : ℕ) (e : EnvPtr) : Prop :=
  ∀ v, s < v → v < t → ev v ≠ .free e ∧ ∀ o, ev v = .alloc o → o ≠ .ok e

/-- The invariant at time `t`: the environments outside the free list were handed out with the
identifiers that they have. -/
structure IdHistory (σ : ℕ → Kern) (ev : ℕ → IdEvent) (t : ℕ) : Prop where
  nodup : (σ t).envFreeList.Nodup
  status : ∀ x ∈ (σ t).envFreeList, ((σ t).envs x).status = .free
  used : ∀ x, x ∉ (σ t).envFreeList →
    ∃ s < t, HandedOut σ ev s x ((σ t).envs x).id ∧ Since ev s t x

/-- **A step keeps the history** of the environments in use. -/
theorem IdHistory.step (h : IdHistory σ ev t) (hroom : IdRoom (σ t) (ev t))
    (hstep : IdStep M (σ t) (ev t) (σ (t + 1))) : IdHistory σ ev (t + 1) := by
  have hc := hstep.change hroom
  refine ⟨hc.nodup h.nodup, hc.status h.status, fun x hx => ?_⟩
  obtain ⟨hor, hfree⟩ := hc.used h.nodup x hx
  by_cases halloc : ev t = .alloc (.ok x)
  · exact ⟨t, Nat.lt_succ_self t, ⟨halloc, rfl⟩, fun v hv hv' => by omega⟩
  obtain ⟨s, hs, ⟨hev, hid⟩, hsince⟩ := h.used x (hor.resolve_left halloc)
  refine ⟨s, by omega, ⟨hev, hid.trans (hc.id x (hor.resolve_left halloc)).symm⟩, fun v hv hv' => ?_⟩
  rcases Nat.lt_succ_iff_lt_or_eq.mp hv' with hlt | rfl
  · exact hsince v hv hlt
  · exact ⟨hfree, fun o ho hx => halloc (hx ▸ ho)⟩

/-- The identifiers are made in order. -/
lemma IdRun.count_le (hrun : IdRun M n σ ev) (hroom : ∀ t < n, IdRoom (σ t) (ev t)) (hst : s ≤ t)
    (ht : t ≤ n) : (σ s).envidCount.toNat ≤ (σ t).envidCount.toNat := by
  induction t, hst using Nat.le_induction with
  | base => exact le_rfl
  | succ t hst ih =>
    exact (ih (by omega)).trans ((hrun t (by omega)).change (hroom t (by omega))).count

lemma IdRun.handedOut (hrun : IdRun M n σ ev) (hroom : ∀ t < n, IdRoom (σ t) (ev t)) (ht : t < n)
    {id : Word} (h : HandedOut σ ev t e id) :
    (σ (t + 1)).envidCount.toNat = (σ t).envidCount.toNat + 1 ∧
      id.toNat = (σ (t + 1)).envidCount.toNat * 2 ^ 11 + e := by
  obtain ⟨-, hcount, hid⟩ := ((hrun t ht).change (hroom t ht)).alloc e h.1
  exact ⟨hcount, h.2 ▸ hid⟩

/-- Two calls do not hand out the same identifier. -/
lemma IdRun.handedOut_inj (hrun : IdRun M n σ ev) (hroom : ∀ t < n, IdRoom (σ t) (ev t))
    (hst : s < t) (ht : t < n) {id : Word} (hs : HandedOut σ ev s e id) : ¬ HandedOut σ ev t x id := by
  intro h
  obtain ⟨-, hid⟩ := hrun.handedOut hroom (by omega) hs
  obtain ⟨hcount, hid'⟩ := hrun.handedOut hroom ht h
  have hle := hrun.count_le hroom (s := s + 1) (t := t) hst (by omega)
  have he : (e : ℕ) < 1024 := e.isLt
  have hx : (x : ℕ) < 1024 := x.isLt
  omega

/-- **Environment identity.** In a run of `env_alloc` and `env_free` from `env_init` in which every
`mkenvid` finds the counter below its end, no identifier is 0 or handed out twice, and `envid2env`
finds the environment for which the identifier was handed out, neither freed nor allocated since. -/
theorem identity_of_run {pm : PhysMem} {ktf : Trapframe} (hinit : envInit M pm ktf = .ok (σ 0))
    (hrun : IdRun M n σ ev) (hroom : ∀ t < n, IdRoom (σ t) (ev t)) :
    (∀ t < n, ∀ e, ¬ HandedOut σ ev t e 0) ∧
    (∀ s < n, ∀ t < n, ∀ e x id, HandedOut σ ev s e id → HandedOut σ ev t x id → s = t) ∧
    ∀ t ≤ n, ∀ id e, id ≠ 0 → envid2env (σ t) id false = .ok (.ok (some e)) →
      ∃ s < t, HandedOut σ ev s e id ∧ Since ev s t e := by
  refine ⟨fun t ht e h => ?_, fun s hs t ht e x id h h' => ?_, fun t ht id e hid h => ?_⟩
  · obtain ⟨hcount, hid⟩ := hrun.handedOut hroom ht h
    have hzero : (0 : Word).toNat = 0 := rfl
    omega
  · rcases lt_trichotomy s t with hst | rfl | hst
    · exact absurd h' (hrun.handedOut_inj hroom hst ht h)
    · rfl
    · exact absurd h (hrun.handedOut_inj hroom hst hs h')
  · have hhist : IdHistory σ ev t := by
      clear h
      induction t with
      | zero =>
        obtain ⟨pm', base, h0⟩ := envInit_boot hinit
        have hq := runQueue_boot pm' base ktf
        rw [← h0] at hq
        refine ⟨hq.free_nodup, hq.free, fun x hx => absurd ?_ hx⟩
        rw [h0]
        exact mem_allEnvs x
      | succ t ih => exact (ih (by omega)).step (hroom t (by omega)) (hrun t (by omega))
    rcases envid2env_eq_some h with ⟨h0, -⟩ | ⟨-, -, hst, hid', -⟩
    · exact absurd h0 hid
    · exact hid' ▸ hhist.used e fun he => hst (hhist.status e he)

/-! ## Kernel entries -/

/-- One environment outside the free list changes, and keeps its identifier. -/
lemma keepsIds_update (he : e ∉ k.envFreeList) (y : Env) (hid : y.id = (k.envs e).id)
    (hcount : k'.envidCount = k.envidCount) (hfree : k'.envFreeList = k.envFreeList)
    (henvs : k'.envs = Function.update k.envs e y) : KeepsIds k k' := by
  refine ⟨hcount, hfree, fun x => ?_, fun x hx => ?_⟩
  · rw [henvs]
    by_cases hxe : x = e
    · rw [hxe, Function.update_self, hid]
    · rw [Function.update_of_ne hxe]
  · have hxe : x ≠ e := fun hxe => he (hxe ▸ hx)
    rw [henvs, Function.update_of_ne hxe]

lemma Dispatched.keepsIds (h : Dispatched k k' e) : KeepsIds k k' := by
  refine ⟨h.envidCount, h.free, fun x => ?_, fun x _ => h.status x⟩
  obtain ⟨tf, runs, hx⟩ := h.envs x
  rw [hx]

lemma UserContexts.not_mem_free (hk : UserContexts k) (he : (k.envs e).status ≠ .free) :
    e ∉ k.envFreeList := fun h => he (hk.free e h)

/-- A new environment is not in the free list any more. -/
lemma envAlloc_not_mem {parentId : Word} (hn : k.envFreeList.Nodup)
    (h : envAlloc M k parentId = .ok (.ok e, k1)) : e ∉ k1.envFreeList := by
  rcases envAlloc_frame h with ⟨r, hr, -⟩ | ⟨x, frest, y, pm, bitmap, free, hf, rfl, -, -, -, ho⟩
  · simp at hr
  · rcases ho with ⟨r, hr, -⟩ | ⟨hx, rfl, -⟩
    · simp at hr
    · obtain rfl : e = x := by simpa using hx
      exact (List.nodup_cons.mp (hf ▸ hn)).1

/-- **Every kernel entry is a step of a run of the allocator.** -/
theorem enter_idStep {a : Entry} {r : Option Word} (hk : UserContexts k)
    (h : enter M k a = .ok (r, k')) : ∃ b, IdStep M k b k' := by
  have hdisp : ∀ {yield : Bool} {k k' : Kern}, schedule k yield = .ok k' → KeepsIds k k' := by
    intro yield k k' hs
    obtain ⟨c, hd⟩ := schedule_dispatched hs
    exact hd.keepsIds
  cases a with
  | envCreate binary priority =>
    obtain ⟨⟨x', k1⟩, hc, h⟩ := bind_eq_ok.mp h
    obtain ⟨-, rfl⟩ := pure_pair_inj h
    obtain ⟨k2, pm, epc, k3, halloc, rfl, rfl⟩ := envCreate_cases hc
    refine ⟨_, .alloc _ halloc (keepsIds_update (envAlloc_not_mem hk.free_nodup halloc)
      { k2.envs x' with
        pri := priority, status := .runnable, tf := { (k2.envs x').tf with cp0Epc := epc } }
      rfl rfl rfl ?_)⟩
    simp only [Kern.setEnv, Function.update_self, Function.update_idem]
  | timer | yield =>
    obtain ⟨_, hs⟩ := enter_schedules h trivial
    exact ⟨_, .other (hdisp hs)⟩
  | envDestroy envid =>
    rcases sysEnvDestroy_cases h with ⟨-, rfl⟩ | ⟨x, returned, hid, hd, -⟩
    · exact ⟨_, .other (.refl _)⟩
    have hnot := hk.not_mem_free (hk.envid2env hid)
    obtain ⟨k1, hfree, ⟨-, -, hs⟩ | ⟨-, -, rfl⟩⟩ := envDestroy_cases hd
    · have hkeep := hdisp hs
      exact ⟨_, .free hnot hfree ⟨hkeep.count, hkeep.freeList, hkeep.id, hkeep.status⟩⟩
    · exact ⟨_, .free hnot hfree (.refl _)⟩
  | setTlbModEntry envid func =>
    obtain ⟨r, h⟩ := returning_eq_ok h
    rcases sysSetTlbModEntry_cases h with ⟨-, rfl⟩ | ⟨x, hid, -, rfl⟩
    · exact ⟨_, .other (.refl _)⟩
    · have hnot := hk.not_mem_free (hk.envid2env hid)
      exact ⟨_, .other (keepsIds_update hnot { k.envs x with userTlbModEntry := func }
        rfl rfl rfl rfl)⟩
  | memAlloc | memMap | memUnmap =>
    obtain ⟨_, rfl⟩ := enter_onMemory h trivial
    exact ⟨_, .other ⟨rfl, rfl, fun _ => rfl, fun _ _ => rfl⟩⟩
  | exofork =>
    obtain ⟨r, h⟩ := returning_eq_ok h
    obtain ⟨cur, _, k1, -, halloc, ⟨-, rfl⟩ | ⟨x, rfl, -, rfl⟩⟩ := sysExofork_alloc h
    · exact ⟨_, .alloc _ halloc (.refl _)⟩
    · exact ⟨_, .alloc _ halloc
        (keepsIds_update (envAlloc_not_mem hk.free_nodup halloc) _ (by rfl) rfl rfl rfl)⟩
  | setEnvStatus envid status =>
    obtain ⟨r, h⟩ := returning_eq_ok h
    rcases sysSetEnvStatus_cases h with ⟨-, rfl⟩ | ⟨x, q, hid, -, -, rfl⟩
    · exact ⟨_, .other (.refl _)⟩
    · have hnot := hk.not_mem_free (hk.envid2env hid)
      exact ⟨_, .other (keepsIds_update hnot { k.envs x with status := .ofWord status }
        rfl rfl rfl rfl)⟩
  | ipcRecv dstva =>
    change sysIpcRecv k dstva = _ at h
    rcases sysIpcRecv_cases h with ⟨-, rfl⟩ | ⟨cur, q, -, -, hc, -, hs⟩
    · exact ⟨_, .other (.refl _)⟩
    · have hkeep := hdisp hs
      refine ⟨_, .other (KeepsIds.trans ?_ hkeep)⟩
      exact keepsIds_update (hk.not_mem_free (hk.cur cur hc)) { k.envs cur with
        ipcRecving := 1, ipcDstva := dstva, status := .notRunnable } rfl rfl rfl rfl
  | ipcTrySend envid value srcva perm =>
    obtain ⟨r, h⟩ := returning_eq_ok h
    rcases sysIpcTrySend_frame h with rfl | ⟨x, cur, q, pm, -, hid, -, -, rfl⟩
    · exact ⟨_, .other (.refl _)⟩
    have hnot := hk.not_mem_free (hk.envid2env hid)
    exact ⟨_, .other (keepsIds_update hnot ((k.received x cur value perm).envs x)
      (by simp [Kern.received]) rfl rfl (by simp [Kern.received, Kern.setEnv]))⟩

/-! ## A run in which the counter comes to its end -/

/-- What `env_create` does with a new environment, but for its program. -/
def startEnv (k : Kern) (e : EnvPtr) : Kern :=
  { k.setEnv e fun x => { x with status := .runnable } with
    envSchedList := k.envSchedList.insertHead e }

/-- The first environment is created and freed, over and over. -/
def churn (M : Machine) (k₀ : Kern) : ℕ → Kern
  | 0 => k₀
  | t + 1 =>
    if t % 2 = 0 then
      match envAlloc M (churn M k₀ t) 0 with
      | .ok (_, k) => startEnv k 0
      | .error _ => churn M k₀ t
    else
      match envFree M (churn M k₀ t) 0 with
      | .ok k => k
      | .error _ => churn M k₀ t

def churnEvents (t : ℕ) : IdEvent := if t % 2 = 0 then .alloc (.ok 0) else .free 0

/-- The first environment, the page `q` and the first ASID are free, and no environment runs. -/
structure Idle (k : Kern) (frest : List EnvPtr) (q : ℕ) (rest : List ℕ) : Prop where
  freeList : k.envFreeList = 0 :: frest
  pages : k.pm.pageFreeList = q :: rest
  ref : k.pm.ppRef q = 0
  asid : k.asidBitmap 0 &&& 1#32 = 0#32
  queue : k.envSchedList.Repr []

/-- `env_free` of an address space without page tables. -/
lemma envFreeVm_empty (pm : PhysMem) {d : ℕ} (asid : Word) (hd : d < M.npage)
    (hempty : ∀ i < pdx utop, pteValid (pm.mem d i) = false) (href : pm.ppRef d ≠ 0) :
    ∃ pm', envFreeVm M pm d asid = .ok pm' ∧ pm'.pageFreeList = (decRef pm d).pageFreeList ∧
      pm'.ppRef = (decRef pm d).ppRef := by
  have hloop : (List.range (pdx utop)).foldlM (envFreeTable M d asid) pm = .ok pm := by
    obtain ⟨pm', hr, rfl⟩ := foldlM_range_returns (f := envFreeTable M d asid)
      (P := fun _ pm' => pm' = pm) (n := pdx utop) (b := pm) (fun i hi pm' hpm => by
        refine ⟨pm, ?_, rfl⟩
        rw [hpm]
        unfold envFreeTable
        simp [hempty i hi]) rfl
    exact hr
  have hpa : pa2page M (page2pa d) = .ok d := by
    rw [pa2page_eq_ok, ppn_page2pa (hd.trans M.npage_lt)]
    exact ⟨hd, rfl⟩
  refine ⟨tlbInvalidate (decRef pm d) asid (uvpt + (BitVec.ofNat 32 (pdx uvpt) <<< 12)), ?_, rfl, rfl⟩
  unfold envFreeVm
  rw [hloop, ok_bind, hpa, ok_bind, pageDecref_ok href]
  rfl

variable {frest : List EnvPtr} {q : ℕ} {rest : List ℕ}

/-- One round: the environment is created with the next identifier, and freed. -/
lemma Idle.round (h : Idle k frest q rest) (hq : q < M.npage) : ∃ k1 k2,
    envAlloc M k 0 = .ok (.ok 0, k1) ∧ (k1.envs 0).id = k.nextId 0 ∧ k1.envFreeList = frest ∧
      envFree M (startEnv k1 0) 0 = .ok k2 ∧ Idle k2 frest q rest ∧
      k2.envidCount = k.envidCount + 1 := by
  have hasid : asidAlloc k.asidBitmap =
      .ok (0, Function.update k.asidBitmap 0 (k.asidBitmap 0 ||| 1#32)) := by
    have hfind : (List.range nasid).find? (fun i =>
        k.asidBitmap (i >>> 5) &&& (1#32 <<< (i &&& 31)) == 0#32) = some 0 := by
      have hrange : List.range nasid = 0 :: (List.range 63).map (· + 1) := by decide
      rw [hrange, List.find?_cons_of_pos]
      simpa using h.asid
    unfold asidAlloc
    rw [hfind]
    rfl
  have halloc : envAlloc M k 0 = .ok (.ok 0, k.allocated 0 q rest 0
      (Function.update k.asidBitmap 0 (k.asidBitmap 0 ||| 1#32)) 0) :=
    envAlloc_ok h.freeList h.pages hq hasid
  have hself := k.allocated_self 0 q rest 0 0
    (Function.update k.asidBitmap 0 (k.asidBitmap 0 ||| 1#32))
  set k1 := k.allocated 0 q rest 0 (Function.update k.asidBitmap 0 (k.asidBitmap 0 ||| 1#32)) 0
    with hk1
  have hpm : (startEnv k1 0).pm = k.pm.newDir q rest k.basePgdir := rfl
  have hdir : ((startEnv k1 0).envs 0).pgdir = q := by
    change ((k1.setEnv 0 fun x => { x with status := .runnable }).envs 0).pgdir = q
    rw [Kern.setEnv_envs_same, hself]
  have hqueue : (startEnv k1 0).envSchedList.Repr [0] := h.queue.insertHead (List.not_mem_nil)
  obtain ⟨q', hremove, hqueue'⟩ := hqueue.remove (List.mem_singleton_self 0)
  have href : (k.pm.newDir q rest k.basePgdir).ppRef q = 1 := by
    change Function.update k.pm.ppRef q (k.pm.ppRef q + 1) q = 1
    rw [Function.update_self, h.ref]
    rfl
  obtain ⟨pm, hvm, hlist, hpref⟩ := envFreeVm_empty (k.pm.newDir q rest k.basePgdir)
    ((startEnv k1 0).envs 0).asid hq
    (fun i hi => by rw [PhysMem.newDir_mem_user hi, pteValid_zero]) (by rw [href]; decide)
  have hlists : k1.envFreeList = frest := by
    change k.envFreeList.erase 0 = frest
    rw [h.freeList, List.erase_cons_head]
  have hasid0 : ((startEnv k1 0).envs 0).asid = 0 := by
    change ((k1.setEnv 0 fun x => { x with status := .runnable }).envs 0).asid = 0
    rw [Kern.setEnv_envs_same, hself]
  have hfree : ∃ k2, envFree M (startEnv k1 0) 0 = .ok k2 ∧ k2.pm = pm ∧
      k2.envFreeList = 0 :: frest ∧ k2.envSchedList = q' ∧
      k2.asidBitmap = asidFree (startEnv k1 0).asidBitmap 0 ∧
      k2.envidCount = k.envidCount + 1 := by
    refine ⟨{ (startEnv k1 0).setEnv 0 fun x => { x with status := .free } with
      pm := pm, envSchedList := q', envFreeList := 0 :: frest,
      asidBitmap := asidFree (startEnv k1 0).asidBitmap 0 }, ?_, rfl, rfl, rfl, rfl, rfl⟩
    unfold envFree
    rw [hpm, hdir, hvm, ok_bind]
    change (deref ((startEnv k1 0).envSchedList.remove 0) >>= _) = _
    rw [hremove, hasid0, ← hlists]
    rfl
  obtain ⟨k2, hk2, h1, h2, h3, h4, h5⟩ := hfree
  refine ⟨k1, k2, halloc, by rw [hself], hlists, hk2, ⟨h2, ?_, ?_, ?_, ?_⟩, h5⟩
  · rw [h1, hlist, decRef_pageFreeList, if_pos href]
    rfl
  · rw [h1, hpref, decRef_ppRef, Function.update_self, href]
    rfl
  · have hclear : asidFree (startEnv k1 0).asidBitmap 0 0 =
        (startEnv k1 0).asidBitmap 0 &&& ~~~1#32 := by
      unfold asidFree
      exact Function.update_self ..
    rw [h4, hclear, BitVec.and_assoc]
    simp
  · rw [h3]
    exact hqueue'

lemma churn_alloc {k₀ : Kern} {o : Except Word EnvPtr} (ht : t % 2 = 0)
    (h : envAlloc M (churn M k₀ t) 0 = .ok (o, k1)) : churn M k₀ (t + 1) = startEnv k1 0 := by
  have hstep : churn M k₀ (t + 1) = if t % 2 = 0 then _ else _ := rfl
  rw [hstep, if_pos ht, h]

lemma churn_free {k₀ : Kern} (ht : t % 2 = 1) (h : envFree M (churn M k₀ t) 0 = .ok k1) :
    churn M k₀ (t + 1) = k1 := by
  have hstep : churn M k₀ (t + 1) = if t % 2 = 0 then _ else _ := rfl
  rw [hstep, if_neg (by omega), h]

/-- Every second state of the run is idle, and each round takes one identifier. -/
lemma churn_idle {k₀ : Kern} (h : Idle k₀ frest q rest) (hq : q < M.npage) (t : ℕ) :
    Idle (churn M k₀ (2 * t)) frest q rest ∧
      (churn M k₀ (2 * t)).envidCount = k₀.envidCount + BitVec.ofNat 32 t := by
  induction t with
  | zero => exact ⟨h, (BitVec.add_zero k₀.envidCount).symm⟩
  | succ t ih =>
    obtain ⟨hidle, hcount⟩ := ih
    obtain ⟨k1, k2, halloc, -, -, hfree, hidle', hcount'⟩ := hidle.round hq
    have h1 := churn_alloc (by omega) halloc
    have h2 : churn M k₀ (2 * t + 1 + 1) = k2 := churn_free (by omega) (by rw [h1, hfree])
    rw [show 2 * (t + 1) = 2 * t + 1 + 1 by omega, h2]
    refine ⟨hidle', ?_⟩
    rw [hcount', hcount, BitVec.ofNat_add, ← BitVec.add_assoc]
    rfl

/-- The run is one of `env_alloc` and `env_free`; round `t` hands out the identifier that
`mkenvid` makes when it starts. -/
lemma churn_run {k₀ : Kern} (h : Idle k₀ frest q rest) (hq : q < M.npage) (hn : 0 ∉ frest) (n : ℕ) :
    IdRun M n (churn M k₀) churnEvents ∧
      ∀ t, HandedOut (churn M k₀) churnEvents (2 * t) 0 ((churn M k₀ (2 * t)).nextId 0) := by
  have hstart : ∀ k1 : Kern, 0 ∉ k1.envFreeList → KeepsIds k1 (startEnv k1 0) := fun k1 h0 =>
    keepsIds_update h0 { k1.envs 0 with status := .runnable } rfl rfl rfl rfl
  refine ⟨fun v _ => ?_, fun t => ?_⟩
  · obtain ⟨t, rfl | rfl⟩ : ∃ t, v = 2 * t ∨ v = 2 * t + 1 := ⟨v / 2, by omega⟩
    · obtain ⟨k1, k2, halloc, -, hlist, -⟩ := (churn_idle h hq t).1.round hq
      rw [churn_alloc (by omega) halloc, churnEvents, if_pos (by omega)]
      exact .alloc 0 halloc (hstart k1 (hlist ▸ hn))
    · obtain ⟨k1, k2, halloc, -, hlist, hfree, -⟩ := (churn_idle h hq t).1.round hq
      have h1 := churn_alloc (by omega) halloc
      rw [← h1] at hfree
      rw [churn_free (by omega) hfree, churnEvents, if_neg (by omega)]
      refine .free ?_ hfree (.refl k2)
      rw [h1]
      exact hlist ▸ hn
  · obtain ⟨k1, k2, halloc, hid, hlist, -⟩ := (churn_idle h hq t).1.round hq
    refine ⟨by rw [churnEvents, if_pos (by omega)], ?_⟩
    rw [churn_alloc (by omega) halloc, ← hid]
    exact (hstart k1 (hlist ▸ hn)).id 0

/-- After its first half, round `t` has an environment with the identifier. -/
lemma churn_found {k₀ : Kern} (h : Idle k₀ frest q rest) (hq : q < M.npage) (t : ℕ) {id : Word}
    (hid : HandedOut (churn M k₀) churnEvents (2 * t) 0 id) (h0 : id ≠ 0) (hx : envx id = 0) :
    envid2env (churn M k₀ (2 * t + 1)) id false = .ok (.ok (some 0)) := by
  obtain ⟨k1, k2, halloc, -⟩ := (churn_idle h hq t).1.round hq
  have hstatus : ((churn M k₀ (2 * t + 1)).envs 0).status = .runnable := by
    rw [churn_alloc (by omega) halloc]
    exact congrArg Env.status (Kern.setEnv_envs_same k1 0 fun x => { x with status := .runnable })
  unfold envid2env
  rw [if_neg h0]
  simp [hx, hstatus, hid.2]

/-- The machine after `env_init` is idle. -/
lemma booted_idle : ∃ frest, 0 ∉ frest ∧
    Idle (Kern.boot booted.pm booted.base Env.zero.tf) frest booted.page0
      (booted.page1 :: booted.rest) := by
  obtain ⟨frest, hrest⟩ := allEnvs_eq
  have hfree := booted.accounting.pages.head_free booted.free
  refine ⟨1 :: frest, (List.nodup_cons.mp (hrest ▸ nodup_allEnvs)).1, hrest, booted.free, ?_, ?_,
    (runQueue_boot booted.pm booted.base Env.zero.tf).repr⟩
  · exact (booted.accounting.pages.ref _ hfree.1 hfree.2.1).trans (by rw [hfree.2.2.2]; rfl)
  · rfl

/-- One environment is created and freed; in between its identifier stands for it. -/
theorem identity_of_run_once :
    let σ := churn bootMachine (Kern.boot booted.pm booted.base Env.zero.tf)
    (∀ t < 2, ∀ e, ¬ HandedOut σ churnEvents t e 0) ∧
      ∃ s < 1, HandedOut σ churnEvents s 0 0x800#32 ∧ Since churnEvents s 1 0 := by
  obtain ⟨frest, hn, hidle⟩ := booted_idle
  have hq : booted.page0 < bootMachine.npage := booted_lt (Or.inl rfl)
  obtain ⟨hrun, hids⟩ := churn_run hidle hq hn 2
  obtain ⟨h1, -, h3⟩ := identity_of_run booted.envInit_eq hrun fun t ht => by
    interval_cases t
    · exact fun _ _ => by decide
    · trivial
  exact ⟨h1, h3 1 (by decide) 0x800#32 0 (by decide)
    (churn_found hidle hq 0 (hids 0) (by decide) (by decide))⟩

/-- In round `2 ^ 21 - 1` the identifier 0 is handed out; two rounds later the first identifier is
handed out again, and `envid2env` finds the new environment for the old identifier. -/
theorem identifiers_repeat : ∃ σ : ℕ → Kern,
    envInit bootMachine booted.pm₀ Env.zero.tf = .ok (σ 0) ∧
    IdRun bootMachine (2 ^ 22 + 1) σ churnEvents ∧
    HandedOut σ churnEvents (2 ^ 22 - 2) 0 0 ∧
    HandedOut σ churnEvents 0 0 0x800#32 ∧ churnEvents 1 = .free 0 ∧
    HandedOut σ churnEvents (2 ^ 22) 0 0x800#32 ∧
    envid2env (σ (2 ^ 22 + 1)) 0x800#32 false = .ok (.ok (some 0)) := by
  obtain ⟨frest, hn, hidle⟩ := booted_idle
  have hq : booted.page0 < bootMachine.npage := booted_lt (Or.inl rfl)
  obtain ⟨hrun, hids⟩ := churn_run hidle hq hn (2 ^ 22 + 1)
  have hid : ∀ t, HandedOut (churn bootMachine (Kern.boot booted.pm booted.base Env.zero.tf))
      churnEvents (2 * t) 0 ((0 + BitVec.ofNat 32 t + 1) <<< 11 ||| 0#32) := by
    intro t
    have h := hids t
    rw [Kern.nextId, (churn_idle hidle hq t).2] at h
    exact h
  have hlast := hid (2 ^ 21)
  rw [show (0 + BitVec.ofNat 32 (2 ^ 21) + 1) <<< 11 ||| 0#32 = 0x800#32 by decide] at hlast
  have hend : 2 * 2 ^ 21 = 2 ^ 22 := by norm_num
  refine ⟨_, booted.envInit_eq, hrun, ?_, ?_, rfl, ?_, ?_⟩
  · have h := hid (2 ^ 21 - 1)
    rw [show 2 * (2 ^ 21 - 1) = 2 ^ 22 - 2 by norm_num] at h
    rwa [show (0 + BitVec.ofNat 32 (2 ^ 21 - 1) + 1) <<< 11 ||| 0#32 = (0 : Word) by decide] at h
  · exact hid 0
  · rwa [hend] at hlast
  · have h := churn_found hidle hq (2 ^ 21) hlast (by decide) (by decide)
    rwa [hend] at h

end MosVolca
