import MosVolca.Kern.Env
import MosVolca.Kern.PmapCases

/-!
# What `env_alloc` does

`env_setup_vm` and `env_alloc` on a state whose free pages lie in the memory: every way in which
they can return, and the state in each case.

## Main definitions

* `MosVolca.PhysMem.newDir` — the memory after `env_setup_vm`.
* `MosVolca.Kern.allocated` — the state after `env_alloc`.

## Main results

* `MosVolca.envAlloc_cases` — the ways in which `env_alloc` can return.
* `MosVolca.envAlloc_ok` — when it succeeds.
* `MosVolca.envAlloc_frame`, `MosVolca.loadIcode_frame` — what `env_alloc` and `load_icode` leave
  alone, on any memory.
-/

namespace MosVolca

open TwoLevel

/-- The memory after `env_setup_vm` has made the free page `q` a page directory. -/
def PhysMem.newDir (s : PhysMem) (q : ℕ) (rest : List ℕ) (base : ℕ) : PhysMem :=
  (copyTemplate ((s.takeFree q rest).incRef q) q base).setWord q (pdx uvpt) (page2pa q ||| pteV)

/-- The state after `env_setup_vm`. -/
def Kern.withDir (k : Kern) (e : EnvPtr) (q : ℕ) (rest : List ℕ) : Kern :=
  { k with pm := k.pm.newDir q rest k.basePgdir }.setEnv e fun x => { x with pgdir := q }

/-- The state after `env_alloc` has given `e` the page directory `q` and the identifier `asid`. -/
def Kern.allocated (k : Kern) (e : EnvPtr) (q : ℕ) (rest : List ℕ) (asid : Word)
    (bitmap : ℕ → Word) (parentId : Word) : Kern :=
  envStart (envReset (k.withDir e q rest) e) e asid bitmap parentId

variable {M : Machine} {k k' : Kern} {e x : EnvPtr} {frest : List EnvPtr} {q : ℕ} {rest : List ℕ}
  {asid parentId r : Word} {bitmap : ℕ → Word}

lemma envSetupVm_nil (hf : k.pm.pageFreeList = []) : envSetupVm M k e = .ok (-eNoMem, k) := by
  unfold envSetupVm
  rw [pageAlloc_nil hf, ok_bind]
  rfl

lemma envSetupVm_cons (hf : k.pm.pageFreeList = q :: rest) (hq : q < M.npage) :
    envSetupVm M k e = .ok (0, k.withDir e q rest) := by
  unfold envSetupVm
  rw [pageAlloc_cons hf hq, ok_bind]
  simp only
  rw [(kaddr_page2pa_eq_ok (hq.trans M.npage_lt)).mpr ⟨hq, rfl⟩, ok_bind]
  rfl

/-- `env_alloc` with a free environment and a free page, from `asid_alloc` on. -/
lemma envAlloc_eq (he : k.envFreeList = e :: frest) (hf : k.pm.pageFreeList = q :: rest)
    (hq : q < M.npage) : envAlloc M k parentId =
      match asidAlloc k.asidBitmap with
      | .error r => pure (Except.error r, envReset (k.withDir e q rest) e)
      | .ok (asid, bitmap) => pure (Except.ok e, k.allocated e q rest asid bitmap parentId) := by
  unfold envAlloc
  rw [he]
  simp only
  rw [envSetupVm_cons hf hq, ok_bind]
  simp only [ne_eq, not_true_eq_false, ↓reduceIte]
  rfl

/-- With a free environment, a free page and a free identifier, `env_alloc` succeeds. -/
theorem envAlloc_ok (he : k.envFreeList = e :: frest) (hf : k.pm.pageFreeList = q :: rest)
    (hq : q < M.npage) (ha : asidAlloc k.asidBitmap = .ok (asid, bitmap)) :
    envAlloc M k parentId = .ok (.ok e, k.allocated e q rest asid bitmap parentId) := by
  rw [envAlloc_eq he hf hq, ha]
  rfl

/-- `asid_alloc` fails if all identifiers are in use. -/
lemma asidAlloc_error (h : asidAlloc bitmap = .error r) : r = -eNoFreeEnv := by
  unfold asidAlloc at h
  split at h
  · simp at h
  · simp only [Except.error.injEq] at h
    exact h.symm

/-- **The ways in which `env_alloc` can return**: an error because there is no free environment or
no free page, an error because every identifier is taken (the page directory is lost then), or a
new environment. -/
theorem envAlloc_cases {o : Except Word EnvPtr} (hfree : ∀ q ∈ k.pm.pageFreeList, q < M.npage)
    (h : envAlloc M k parentId = .ok (o, k')) :
    (∃ r, o = .error r ∧ k' = k) ∨
      ∃ e frest q rest, k.envFreeList = e :: frest ∧ k.pm.pageFreeList = q :: rest ∧
        ((asidAlloc k.asidBitmap = .error (-eNoFreeEnv) ∧ o = .error (-eNoFreeEnv) ∧
            k' = envReset (k.withDir e q rest) e) ∨
          ∃ asid bitmap, asidAlloc k.asidBitmap = .ok (asid, bitmap) ∧ o = .ok e ∧
            k' = k.allocated e q rest asid bitmap parentId) := by
  rcases he : k.envFreeList with _ | ⟨e, frest⟩
  · unfold envAlloc at h
    rw [he] at h
    replace h := pure_pair_inj h
    exact Or.inl ⟨_, h.1.symm, h.2.symm⟩
  rcases hf : k.pm.pageFreeList with _ | ⟨q, rest⟩
  · unfold envAlloc at h
    rw [he] at h
    simp only at h
    rw [envSetupVm_nil hf, ok_bind] at h
    simp only [show -eNoMem ≠ 0 by decide, ↓reduceIte, pure_eq_ok, Except.ok.injEq,
      Prod.mk.injEq, ne_eq, not_false_eq_true] at h
    exact Or.inl ⟨_, h.1.symm, h.2.symm⟩
  have hq : q < M.npage := hfree q (by rw [hf]; exact List.mem_cons_self)
  refine Or.inr ⟨e, frest, q, rest, rfl, rfl, ?_⟩
  rw [envAlloc_eq he hf hq] at h
  rcases ha : asidAlloc k.asidBitmap with r | ⟨asid, bitmap⟩
  · obtain rfl := asidAlloc_error ha
    rw [ha] at h
    replace h := pure_pair_inj h
    exact Or.inl ⟨rfl, h.1.symm, h.2.symm⟩
  · rw [ha] at h
    replace h := pure_pair_inj h
    exact Or.inr ⟨asid, bitmap, rfl, h.1.symm, h.2.symm⟩

/-! ## What `env_alloc` leaves alone -/

/-- The identifier that `mkenvid` makes next. -/
def Kern.nextId (k : Kern) (e : EnvPtr) : Word := ((k.envidCount + 1) <<< 11) ||| BitVec.ofNat 32 e

/-- The index of an identifier that `mkenvid` makes. -/
lemma envx_nextId (k : Kern) (e : EnvPtr) : envx (k.nextId e) = e := by
  apply Fin.ext
  have h1 : (1023#32).toNat = 2 ^ 10 - 1 := rfl
  have he : e.val < 1024 := e.isLt
  change ((k.nextId e) &&& 1023#32).toNat % 1024 = e.val
  rw [BitVec.toNat_and, h1, Nat.and_two_pow_sub_one_eq_mod, Kern.nextId, BitVec.toNat_or,
    Nat.or_mod_two_pow, BitVec.toNat_shiftLeft, BitVec.toNat_ofNat, Nat.shiftLeft_eq]
  have h2 : (k.envidCount + 1).toNat * 2 ^ 11 % 2 ^ 32 % 2 ^ 10 = 0 := by omega
  rw [h2, Nat.zero_or]
  omega

/-- The message fields `env_ipc_recving`, `env_ipc_value`, `env_ipc_from`, `env_ipc_perm` and
`env_ipc_dstva`. -/
def Env.message (x : Env) : Word × Word × Word × Word × Word :=
  (x.ipcRecving, x.ipcValue, x.ipcFrom, x.ipcPerm, x.ipcDstva)

/-- `env_setup_vm` fails and keeps the environments, or gives `e` a page directory. -/
lemma envSetupVm_cases (h : envSetupVm M k e = .ok (r, k')) :
    (r ≠ 0 ∧ k' = k) ∨
      (r = 0 ∧ ∃ pm p, k' = { k with pm := pm }.setEnv e fun x => { x with pgdir := p }) := by
  unfold envSetupVm at h
  obtain ⟨⟨o, pm⟩, halloc, h⟩ := bind_eq_ok.mp h
  rcases o with r' | p
  · replace h := pure_pair_inj h
    obtain ⟨-, rfl, rfl⟩ := pageAlloc_error halloc
    exact Or.inl ⟨h.1 ▸ by decide, h.2.symm⟩
  · simp only [bind_eq_ok, pure_eq_ok, Except.ok.injEq, Prod.mk.injEq] at h
    obtain ⟨d, -, hr, rfl⟩ := h
    exact Or.inr ⟨hr.symm, _, _, rfl⟩

/-- `env_alloc`, on any memory: it fails at once, or changes the memory, the first free
environment, the counter of identifiers and the bitmap only. The status and the message fields of
the environment stay as they are. -/
theorem envAlloc_frame {o : Except Word EnvPtr} (h : envAlloc M k parentId = .ok (o, k')) :
    (∃ r, o = .error r ∧ k' = k) ∨
      ∃ e frest x pm bitmap free, k.envFreeList = e :: frest ∧
        k' = { k with
          pm := pm, envidCount := k.envidCount + 1, asidBitmap := bitmap, envFreeList := free,
          envs := Function.update k.envs e x } ∧
        x.id = k.nextId e ∧ x.status = (k.envs e).status ∧ x.message = (k.envs e).message ∧
        ((∃ r, o = .error r ∧ free = k.envFreeList) ∨
          (o = .ok e ∧ free = frest ∧ x.tf = initTf (k.envs e).tf)) := by
  unfold envAlloc at h
  rcases he : k.envFreeList with _ | ⟨e, frest⟩
  · rw [he] at h
    replace h := pure_pair_inj h
    exact Or.inl ⟨_, h.1.symm, h.2.symm⟩
  rw [he] at h
  obtain ⟨⟨r, k1⟩, hsetup, h⟩ := bind_eq_ok.mp h
  rcases envSetupVm_cases hsetup with ⟨hr, hk⟩ | ⟨rfl, pm, p, hk⟩
  · simp only [ne_eq, hr, not_false_eq_true, ↓reduceIte, pure_eq_ok, Except.ok.injEq,
      Prod.mk.injEq] at h
    exact Or.inl ⟨_, h.1.symm, h.2.symm.trans hk⟩
  simp only [ne_eq, not_true_eq_false, ↓reduceIte] at h
  right
  rcases ha : asidAlloc (envReset k1 e).asidBitmap with r' | ⟨asid, bitmap⟩
  · rw [ha] at h
    obtain ⟨rfl, rfl⟩ := pure_pair_inj h
    refine ⟨e, frest, (envReset k1 e).envs e, pm, k.asidBitmap, e :: frest, rfl,
      ?_, ?_, ?_, ?_, Or.inl ⟨_, rfl, rfl⟩⟩
    all_goals
      subst hk
      simp [envReset, mkenvid, Kern.setEnv, Kern.nextId, Env.message, he]
  · rw [ha] at h
    obtain ⟨rfl, rfl⟩ := pure_pair_inj h
    refine ⟨e, frest, (envStart (envReset k1 e) e asid bitmap parentId).envs e, pm, bitmap, frest,
      rfl, ?_, ?_, ?_, ?_, Or.inr ⟨rfl, rfl, ?_⟩⟩
    all_goals
      subst hk
      simp [envStart, envReset, mkenvid, Kern.setEnv, Kern.nextId, Env.message, he]

/-- `load_icode_mapper` changes the memory only. -/
lemma loadIcodeMapper_frame {c : MapperCall} (h : loadIcodeMapper M k e c = .ok (r, k')) :
    ∃ pm, k' = { k with pm := pm } := by
  unfold loadIcodeMapper at h
  obtain ⟨⟨o, pm1⟩, -, h⟩ := bind_eq_ok.mp h
  rcases o with r' | p
  · simp at h
  · simp only [bind_eq_ok, pure_eq_ok, Except.ok.injEq, Prod.mk.injEq] at h
    obtain ⟨_, -, ⟨_, pm2⟩, -, -, rfl⟩ := h
    exact ⟨pm2, rfl⟩

/-- `load_icode` changes the memory and the saved `cp0_epc` of `e` only. -/
lemma loadIcode_frame {binary : Option Image} (h : loadIcode M k e binary = .ok k') :
    ∃ pm epc, k' = { k with pm := pm }.setEnv e fun x =>
      { x with tf := { x.tf with cp0Epc := epc } } := by
  unfold loadIcode at h
  rcases binary with _ | image
  · simp at h
  simp only [bind_eq_ok, pure_eq_ok, Except.ok.injEq] at h
  obtain ⟨k1, hfold, rfl⟩ := h
  obtain ⟨pm, rfl⟩ : ∃ pm, k1 = { k with pm := pm } := by
    refine foldlM_invariant (P := fun k1 => ∃ pm, k1 = { k with pm := pm }) ?_ ⟨k.pm, rfl⟩ hfold
    rintro c - k1 k2 ⟨pm, rfl⟩ hstep
    obtain ⟨⟨r, k3⟩, hmap, hstep⟩ := bind_eq_ok.mp hstep
    simp only at hstep
    split_ifs at hstep
    simp only [Except.ok.injEq] at hstep
    subst hstep
    obtain ⟨pm2, rfl⟩ := loadIcodeMapper_frame hmap
    exact ⟨pm2, rfl⟩
  exact ⟨pm, _, rfl⟩

/-- `env_create` starts the environment that `env_alloc` hands out, with the memory that `load_icode`
leaves. -/
lemma envCreate_cases {binary : Option Image} {priority : Word}
    (h : envCreate M k binary priority = .ok (e, k')) : ∃ k1 pm epc k2,
      envAlloc M k 0 = .ok (.ok e, k1) ∧
        k2 = ({ k1.setEnv e fun x => { x with pri := priority, status := .runnable } with
          pm := pm } : Kern).setEnv e (fun x => { x with tf := { x.tf with cp0Epc := epc } }) ∧
        k' = { k2 with envSchedList := k2.envSchedList.insertHead e } := by
  unfold envCreate at h
  obtain ⟨⟨p, k1⟩, halloc, h⟩ := bind_eq_ok.mp h
  rcases p with r | x
  · simp at h
  obtain ⟨k2, hload, h⟩ := bind_eq_ok.mp h
  obtain ⟨rfl, rfl⟩ := pure_pair_inj h
  obtain ⟨pm, epc, hk2⟩ := loadIcode_frame hload
  exact ⟨k1, pm, epc, k2, halloc, hk2, rfl⟩

/-- `env_free` changes the memory, the bitmap, the queue and the free list, and makes `e` free. -/
lemma envFree_frame (h : envFree M k e = .ok k') : ∃ pm q,
    envFreeVm M k.pm (k.envs e).pgdir (k.envs e).asid = .ok pm ∧
    k.envSchedList.remove e = some q ∧
    k' = { k with
      pm := pm, asidBitmap := asidFree k.asidBitmap (k.envs e).asid, envSchedList := q,
      envFreeList := e :: k.envFreeList,
      envs := Function.update k.envs e { k.envs e with status := .free } } := by
  unfold envFree at h
  simp only [bind_eq_ok, deref_eq_ok, pure_eq_ok, Except.ok.injEq] at h
  obtain ⟨pm, hpm, q, hq, rfl⟩ := h
  exact ⟨pm, q, hpm, hq, rfl⟩

/-! ## The state after `env_alloc` -/

section Allocated

variable (k e q rest asid bitmap parentId)

/-- The new environment. -/
lemma Kern.allocated_self : (k.allocated e q rest asid bitmap parentId).envs e =
    { k.envs e with
      tf := initTf (k.envs e).tf
      id := k.nextId e
      asid := asid
      parentId := parentId
      pgdir := q
      userTlbModEntry := 0
      runs := 0
      path := Function.update (k.envs e).path 0 0x2f
      shellId := 0 } := by
  simp only [allocated, envStart, envReset, withDir, mkenvid, Kern.setEnv, Function.update_self,
    nextId]

lemma Kern.allocated_of_ne (h : x ≠ e) :
    (k.allocated e q rest asid bitmap parentId).envs x = k.envs x := by
  simp only [allocated, envStart, envReset, withDir, mkenvid, Kern.setEnv, Function.update_self,
    Function.update_of_ne h]

end Allocated

end MosVolca
