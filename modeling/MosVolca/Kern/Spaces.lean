import MosVolca.Kern.EnvCases
import MosVolca.Kern.PageOps
import MosVolca.Kern.SyscallCases

/-!
# Address spaces of environments

The page-accounting invariant for the page directories of the environments, and what the page
operations and the system calls on address spaces do to it.

## Main definitions

* `MosVolca.KernAccounting` — page accounting for the state of the kernel.
* `MosVolca.Kern.forked` — the state after `sys_exofork`.

## Main results

* `MosVolca.PageAccounting.pageInsert`, `MosVolca.PageAccounting.pageRemove`,
  `MosVolca.PageAccounting.pageAlloc` — the page operations while no page has 2^16 references.
* `MosVolca.UserAccounting.newDir`, `MosVolca.sysExofork_cases` — new address spaces.
-/

namespace MosVolca

open TwoLevel

/-- **Page accounting for the kernel**: the environments in use have their page directories in `D`,
and a waiting environment receives below `UTOP`. -/
structure KernAccounting (M : Machine) (k : Kern) (D K : Finset ℕ) : Prop where
  pages : PageAccounting M k.pm D K ∅
  dir : ∀ e, (k.envs e).status ≠ .free → (k.envs e).pgdir ∈ D
  cur : ∀ e, k.curenv = some e → (k.envs e).status ≠ .free
  dstva : ∀ e, (k.envs e).ipcRecving ≠ 0 → (k.envs e).ipcDstva < utop

variable {M : Machine} {k k' : Kern} {s s' : PhysMem} {D K H : Finset ℕ} {d pp q : ℕ} {e : EnvPtr}
  {rest : List ℕ} {asid r envid va perm w : Word}

namespace PageAccounting

variable (h : PageAccounting M s D K H)

include h

/-- A mapped page is counted. -/
lemma ppRef_ne_zero (hd : d ∈ D) (hi : pdx va < pdx utop) (ht : translate s d va = some w) :
    s.ppRef (ppn w) ≠ 0 :=
  h.toUserAccounting.ppRef_ne_zero hd hi ht (h.bounded _ (h.tracked_of_translate hd hi ht))

/-- `page_alloc` keeps the invariant. -/
lemma pageAlloc (hr : pageAlloc M s = .ok (.ok q, s')) :
    PageAccounting M s' D K (insert q H) ∧ (∃ rest, s.pageFreeList = q :: rest) ∧
      ∀ d ∈ D, ∀ va, pdx va < pdx utop → translate s' d va = translate s d va := by
  rcases pageAlloc_cases h.free_lt hr with ⟨-, ho, -⟩ | ⟨q', rest, hf, ho, rfl⟩
  · simp at ho
  obtain rfl : q = q' := by simpa using ho
  refine ⟨⟨h.takeFree hf, fun p hp => ?_⟩, ⟨rest, hf⟩, fun d hd va hi => ?_⟩
  · rw [PhysMem.takeFree_mem, h.refCount_takeFree hf]
    exact h.bounded p hp
  · exact h.translate_takeFree hf hd hi

/-- `page_insert` keeps the invariant if the page can take one more reference. -/
lemma pageInsert (hd : d ∈ D) (hi : pdx va < pdx utop) (hins : Insertable M (pdx utop) s D K pp)
    (hge : M.bootPages ≤ pp) (hfr : ppn (mkPte pp perm) = pp)
    (hb : (translate s d va).map ppn = some pp ∨ pageRefs s D pp + 1 < 2 ^ 16)
    (hr : pageInsert M s d asid pp va perm = .ok (0, s')) :
    PageAccounting M s' D K (H.erase pp) := by
  obtain ⟨h', hself, hother⟩ := h.afterInsert hd hi hins hge hfr
    (fun w hw _ => (h.bounded _ (h.tracked_of_translate hd hi hw)).le) hr
  refine ⟨h', fun p hp => ?_⟩
  have hbp : pageRefs s D p < 2 ^ 16 := h.bounded p hp
  by_cases hpp : p = pp
  · rw [hpp] at hbp ⊢
    change pageRefs s' D pp < 2 ^ 16
    rw [hself]
    split_ifs with hm
    · exact hbp
    · exact hb.resolve_left hm
  · exact (hother p hpp).trans_lt (max_lt hbp (by decide))

/-- `page_remove` keeps the invariant. -/
lemma pageRemove (hd : d ∈ D) (hi : pdx va < pdx utop)
    (hr : pageRemove M s d asid va = .ok s') : PageAccounting M s' D K H := by
  obtain ⟨h', hc⟩ := h.afterRemove hd hi
    (fun w hw => (h.bounded _ (h.tracked_of_translate hd hi hw)).le) hr
  refine ⟨h', fun p hp => ?_⟩
  have hbp : pageRefs s D p < 2 ^ 16 := h.bounded p hp
  have := hc p
  change pageRefs s' D p < 2 ^ 16
  omega

/-- A flush changes no count. -/
lemma tlbInvalidate (asid va : Word) : PageAccounting M (tlbInvalidate s asid va) D K H :=
  ⟨h.toUserAccounting.tlbInvalidate asid va, h.bounded⟩

/-- What `page_insert` does: it fails and only flushes, or it maps the page at `va`, keeps the
invariant and changes no other translation. -/
lemma pageInsert_result (hd : d ∈ D) (hi : pdx va < pdx utop)
    (hins : Insertable M (pdx utop) s D K pp) (hge : M.bootPages ≤ pp) (hperm : perm < 4096#32)
    (hb : (translate s d va).map ppn = some pp ∨ pageRefs s D pp + 1 < 2 ^ 16)
    (hr : MosVolca.pageInsert M s d asid pp va perm = .ok (r, s')) :
    (r = -eNoMem ∧ s' = MosVolca.tlbInvalidate s asid va) ∨
      (r = 0 ∧ PageAccounting M s' D K (H.erase pp) ∧
        ∀ d' ∈ D, ∀ va', pdx va' < pdx utop → translate s' d' va' =
          if d' = d ∧ vpn va' = vpn va then some (mkPte pp perm) else translate s d' va') := by
  have hfr : ppn (mkPte pp perm) = pp := ppn_mkPte_of_lt (hins.lt.trans M.npage_lt) hperm
  rcases h.pageInsert_returns asid pp perm hd hi (fun w hw _ => h.ppRef_ne_zero hd hi hw) with
    ⟨-, -, hr'⟩ | ⟨-, s1, hr'⟩
  · rw [hr', Except.ok.injEq, Prod.mk.injEq] at hr
    exact Or.inl ⟨hr.1.symm, hr.2.symm⟩
  · have hr0 := hr
    rw [hr', Except.ok.injEq, Prod.mk.injEq] at hr0
    obtain ⟨rfl, rfl⟩ := hr0
    exact Or.inr ⟨rfl, h.pageInsert hd hi hins hge hfr hb hr,
      fun d' hd' va' hi' => h.translate_pageInsert hd hi hr hd' hi'⟩

/-- A page that its caller has lost stays with the kernel. -/
lemma keep (hp : pp ∈ H) : PageAccounting M s D (insert pp K) (H.erase pp) := by
  obtain ⟨ht, hk, h0⟩ := h.held pp hp
  refine ⟨⟨⟨h.owned, h.lt, h.table_ge, fun p hpt hpk => ?_, h.free_nodup, fun p => ?_,
    fun p hpH => ?_, fun p hpK => ?_⟩, h.leaf_ge⟩, h.bounded⟩
  · exact h.ref p hpt fun hc => hpk (Finset.mem_insert_of_mem hc)
  · rw [h.free_mem p, Finset.mem_insert, Finset.mem_erase]
    by_cases he : p = pp
    · subst he
      tauto
    · tauto
  · obtain ⟨hne, hpH⟩ := Finset.mem_erase.mp hpH
    obtain ⟨h1, h2, h3⟩ := h.held p hpH
    exact ⟨h1, fun hc => (Finset.mem_insert.mp hc).elim hne h2, h3⟩
  · rcases Finset.mem_insert.mp hpK with rfl | hpK
    · exact h0
    · exact h.kept p hpK

/-- Words may change in a page that its caller holds. -/
lemma writeHeld {m : Store Word} (hp : pp ∈ H) (hm : ∀ p, p ≠ pp → m p = s.mem p) :
    PageAccounting M { s with mem := m } D K H := by
  have hnode := Shape.not_node_of_refCount (h.held pp hp).2.2
  have hdir : ∀ d ∈ D, ∀ i < pdx utop, m d i = s.mem d i := fun d hd i _ =>
    congrFun (hm d fun he => hnode (he ▸ Shape.Node.of_mem hd)) i
  have htab : ∀ d ∈ D, ∀ i < pdx utop, pteValid (s.mem d i) = true →
      ∀ j < 1024, m (ppn (s.mem d i)) j = s.mem (ppn (s.mem d i)) j := fun d hd i hi hv j _ =>
    congrFun (hm _ fun he => hnode (he ▸ Shape.Node.of_slot (T := tableShape (pdx utop)) hd hi hv)) j
  refine ⟨h.toUserAccounting.congrMem hdir htab, fun p hp => ?_⟩
  exact (Shape.refCount_congr (T := tableShape (pdx utop)) hdir htab p).trans_lt (h.bounded p hp)

end PageAccounting

/-- The environment that `envid2env` finds has its page directory in `D`. -/
lemma KernAccounting.dir_mem {checkperm : Bool} (h : KernAccounting M k D K)
    (hid : envid2env k envid checkperm = .ok (.ok (some e))) : (k.envs e).pgdir ∈ D := by
  rcases envid2env_eq_some hid with ⟨-, hc⟩ | ⟨-, -, hst, -⟩
  · exact h.dir e (h.cur e hc)
  · exact h.dir e hst

/-- The addresses that the calls accept are user addresses. -/
lemma pdx_of_legal (h : isIllegalVa va = false) : pdx va < pdx utop := by
  simp only [isIllegalVa, Bool.or_eq_false_iff, decide_eq_false_iff_not] at h
  exact pdx_lt_of_lt_utop (BitVec.not_le.mp h.2)

/-! ## New address spaces -/

section NewDir

variable {base i p : ℕ}

lemma PhysMem.newDir_mem_of_ne (hp : p ≠ q) : (s.newDir q rest base).mem p = s.mem p := by
  funext i
  have h1 : (s.takeFree q rest).mem p i = s.mem p i := fill_of_ne hp
  rw [← h1]
  change write (copyTemplate ((s.takeFree q rest).incRef q) q base).mem q (pdx uvpt) _ p i = _
  rw [write_of_ne_page hp, copyTemplate]
  exact if_neg fun hc => hp hc.1

/-- The new page directory has no user entries. -/
lemma PhysMem.newDir_mem_user (hi : i < pdx utop) : (s.newDir q rest base).mem q i = 0#32 := by
  have hne : i ≠ pdx uvpt := by
    rw [pdx_utop] at hi
    rw [pdx_uvpt]
    omega
  change write (copyTemplate ((s.takeFree q rest).incRef q) q base).mem q (pdx uvpt) _ q i = _
  rw [write_of_ne_slot hne, copyTemplate]
  refine (if_neg fun hc => absurd hc.2.1 (Nat.not_le.mpr hi)).trans ?_
  exact fill_same _ _ _ _

/-- `env_setup_vm` keeps the invariant. -/
lemma UserAccounting.newDir (h : UserAccounting M s D K H) (hf : s.pageFreeList = q :: rest)
    (base : ℕ) : UserAccounting M (s.newDir q rest base) (insert q D) K H := by
  have hq := h.head_free hf
  have hzero : ∀ i, (s.takeFree q rest).mem q i = 0#32 := fun i => fill_same _ _ _ _
  have h1 := (h.takeFree hf).addDir (Finset.mem_insert_self q _)
    fun i _ => by rw [hzero, pteValid_zero]
  rw [Finset.erase_insert hq.2.2.1] at h1
  have hrow : ∀ p, p ≠ q → (s.newDir q rest base).mem p = (s.takeFree q rest).mem p :=
    fun p hp => (PhysMem.newDir_mem_of_ne hp).trans (funext fun i => (fill_of_ne hp).symm)
  change UserAccounting M { (s.takeFree q rest).incRef q with mem := (s.newDir q rest base).mem }
    (insert q D) K H
  refine h1.congrMem (fun d hd i hi => ?_) fun d hd i hi hv j _ => ?_
  · by_cases he : d = q
    · rw [he, PhysMem.newDir_mem_user hi]
      exact (hzero i).symm
    · exact congrFun (hrow d he) i
  · refine congrFun (hrow _ fun he => ?_) j
    exact h1.owned.table_not_mem (T := tableShape (pdx utop)) hd hi hv
      (Finset.mem_insert.mpr (Or.inl he))

/-- The counts after `env_setup_vm`. -/
lemma UserAccounting.pageRefs_newDir (h : UserAccounting M s D K H)
    (hf : s.pageFreeList = q :: rest) (base p : ℕ) :
    pageRefs (s.newDir q rest base) (insert q D) p = pageRefs s D p + if q = p then 1 else 0 := by
  have hnode := Shape.not_node_of_refCount (h.head_free hf).2.2.2
  have hD : q ∉ D := fun hd => hnode (Shape.Node.of_mem hd)
  have hins := Shape.refCount_insert (T := tableShape (pdx utop)) (m := (s.newDir q rest base).mem)
    (fun i hi => by
      rw [tableShape_valid, PhysMem.newDir_mem_user hi, pteValid_zero]) hD p
  refine hins.trans (congrArg (· + _) (Shape.refCount_congr (T := tableShape (pdx utop))
    (fun d hd i _ => ?_) (fun d hd i hi hv j _ => ?_) p))
  · have hne : d ≠ q := fun he => hD (he ▸ hd)
    exact congrFun (PhysMem.newDir_mem_of_ne hne) i
  · have hne : ppn (s.mem d i) ≠ q := fun he =>
      hnode (he ▸ Shape.Node.of_slot (T := tableShape (pdx utop)) hd hi hv)
    exact congrFun (PhysMem.newDir_mem_of_ne hne) j

lemma PageAccounting.newDir (h : PageAccounting M s D K H) (hf : s.pageFreeList = q :: rest)
    (base : ℕ) : PageAccounting M (s.newDir q rest base) (insert q D) K H := by
  refine ⟨h.toUserAccounting.newDir hf base, fun p hp => ?_⟩
  have hc : pageRefs (s.newDir q rest base) (insert q D) p = _ := h.pageRefs_newDir hf base p
  have hb := h.bounded p hp
  have h0 := (h.head_free hf).2.2.2
  change pageRefs (s.newDir q rest base) (insert q D) p < 2 ^ 16
  rw [hc]
  unfold pageRefs
  by_cases he : q = p
  · subst he
    rw [h0, if_pos rfl]
    decide
  · rw [if_neg he]
    exact hb

/-- `env_alloc` without a free ASID: the new page directory is lost, and stays with the kernel. -/
lemma PageAccounting.lostDir (h : PageAccounting M s D K H) (hf : s.pageFreeList = q :: rest)
    (base : ℕ) : PageAccounting M (s.newDir q rest base) D (insert q K) H := by
  have hnew := h.newDir hf base
  have hq := h.head_free hf
  have hD : q ∉ D := fun hd => Shape.not_node_of_refCount hq.2.2.2 (Shape.Node.of_mem hd)
  have hc : ∀ p, (tableShape (pdx utop)).refCount (s.newDir q rest base).mem D p =
      (tableShape (pdx utop)).refCount s.mem D p := fun p => by
    have h1 := Shape.refCount_insert (T := tableShape (pdx utop))
      (m := (s.newDir q rest base).mem) (fun i hi => by
        rw [tableShape_valid, PhysMem.newDir_mem_user hi, pteValid_zero]) hD p
    have h2 : pageRefs (s.newDir q rest base) (insert q D) p = _ := h.pageRefs_newDir hf base p
    exact Nat.add_right_cancel (h1.symm.trans h2)
  obtain ⟨hqr, hrest⟩ := List.nodup_cons.mp (hf ▸ h.free_nodup)
  refine ⟨⟨⟨fun p hp => ?_, fun p hp => ?_, fun d hd => ?_, fun p hp hk => ?_, hrest, fun p => ?_,
    fun p hp => ?_, fun p hp => ?_⟩, fun p hl => ?_⟩, fun p hp => ?_⟩
  · have hnode := hnew.owned p (hp.imp (Finset.mem_insert_of_mem ·)
      fun ⟨d, hd, hrest⟩ => ⟨d, Finset.mem_insert_of_mem hd, hrest⟩)
    have hne : q ≠ p := by
      rintro rfl
      rcases hp with hp | ⟨d, hd, i, hi, hv, he⟩
      · exact hD hp
      · have hmem := hnew.owned.table_not_mem (T := tableShape (pdx utop))
          (Finset.mem_insert_of_mem hd) hi hv
        rw [he] at hmem
        exact hmem (Finset.mem_insert_self q D)
    have hcount : pageRefs (s.newDir q rest base) (insert q D) p = _ := h.pageRefs_newDir hf base p
    rw [if_neg hne] at hcount
    rw [hc]
    exact hcount.symm.trans hnode
  · rw [hc] at hp
    exact h.lt p hp
  · exact hnew.table_ge d (Finset.mem_insert_of_mem hd)
  · obtain ⟨hpq, hpk⟩ := not_or.mp (mt Finset.mem_insert.mpr hk)
    rw [hc, ← h.ref p hp hpk]
    change Function.update s.ppRef q (s.ppRef q + 1) p = _
    rw [Function.update_of_ne hpq]
  · have hmem := h.free_mem p
    rw [hf, List.mem_cons] at hmem
    change p ∈ rest ↔ _
    rw [hc, Finset.mem_insert]
    by_cases he : p = q
    · subst he
      tauto
    · tauto
  · obtain ⟨h1, h2, h3⟩ := h.held p hp
    refine ⟨h1, fun hk => ?_, by rw [hc, h3]⟩
    rcases Finset.mem_insert.mp hk with rfl | hk
    · exact hq.2.2.1 hp
    · exact h2 hk
  · rw [hc]
    rcases Finset.mem_insert.mp hp with rfl | hp
    · exact hq.2.2.2
    · exact h.kept p hp
  · obtain ⟨d, hd, hrest⟩ := hl
    exact hnew.leaf_ge p ⟨d, Finset.mem_insert_of_mem hd, hrest⟩
  · rw [hc]
    exact h.bounded p hp

/-- `env_setup_vm` changes no user translation of the other page directories. -/
lemma UserAccounting.translate_newDir (h : UserAccounting M s D K H)
    (hf : s.pageFreeList = q :: rest) (hd : d ∈ D) (hi : pdx va < pdx utop) :
    translate (s.newDir q rest base) d va = translate s d va := by
  have hnode := Shape.not_node_of_refCount (h.head_free hf).2.2.2
  refine Shape.lookup_congr (T := tableShape (pdx utop)) ?_ fun hv => ?_
  · have hne : d ≠ q := fun he => hnode (he ▸ Shape.Node.of_mem hd)
    exact congrFun (PhysMem.newDir_mem_of_ne hne) _
  · have hne : ppn (s.mem d (pdx va)) ≠ q := fun he =>
      hnode (he ▸ Shape.Node.of_slot (T := tableShape (pdx utop)) hd hi hv)
    exact congrFun (PhysMem.newDir_mem_of_ne hne) _

end NewDir

/-- The state after `sys_exofork` in the environment `c` has made the environment `e`. -/
def Kern.forked (k : Kern) (c e : EnvPtr) (q : ℕ) (rest : List ℕ) (asid : Word)
    (bitmap : ℕ → Word) : Kern :=
  let k := k.allocated e q rest asid bitmap (k.envs c).id
  k.setEnv e fun x => { x with
    tf := { k.ktf with regs := Function.update k.ktf.regs 2 0 }
    status := .notRunnable
    path := strcpy x.path (k.envs c).path
    pri := (k.envs c).pri
    shellId := (k.envs c).shellId }

section Forked

variable {c x : EnvPtr} {bitmap : ℕ → Word}

lemma Kern.forked_pm : (k.forked c e q rest asid bitmap).pm = k.pm.newDir q rest k.basePgdir := rfl

lemma Kern.forked_of_ne (h : x ≠ e) :
    (k.forked c e q rest asid bitmap).envs x = k.envs x := by
  rw [forked, setEnv_envs_of_ne _ _ h, allocated_of_ne _ _ _ _ _ _ _ h]

/-- The child. -/
lemma Kern.forked_self (k : Kern) (c e : EnvPtr) (q : ℕ) (rest : List ℕ) (asid : Word)
    (bitmap : ℕ → Word) : ((k.forked c e q rest asid bitmap).envs e).id = k.nextId e ∧
    ((k.forked c e q rest asid bitmap).envs e).parentId = (k.envs c).id ∧
    ((k.forked c e q rest asid bitmap).envs e).pgdir = q ∧
    ((k.forked c e q rest asid bitmap).envs e).status = .notRunnable := by
  have h := k.allocated_self e q rest asid (k.envs c).id bitmap
  simp only [forked, setEnv_envs_same, h, and_self]

end Forked

/-- The errors of `env_alloc`. -/
lemma envAlloc_error {parentId : Word} (hfree : ∀ q ∈ k.pm.pageFreeList, q < M.npage)
    (h : envAlloc M k parentId = .ok (.error r, k')) : r = -eNoFreeEnv ∨ r = -eNoMem := by
  unfold envAlloc at h
  split at h
  case h_1 =>
    simp only [pure_eq_ok, Except.ok.injEq, Prod.mk.injEq, Except.error.injEq] at h
    exact Or.inl h.1.symm
  case h_2 e frest he =>
    rcases hf : k.pm.pageFreeList with _ | ⟨q, rest⟩
    · rw [envSetupVm_nil hf, ok_bind] at h
      simp only [show -eNoMem ≠ 0 by decide, ↓reduceIte, pure_eq_ok, Except.ok.injEq,
        Prod.mk.injEq, ne_eq, not_false_eq_true, Except.error.injEq] at h
      exact Or.inr h.1.symm
    · rw [envSetupVm_cons hf (hfree q (by rw [hf]; exact List.mem_cons_self)), ok_bind] at h
      simp only [ne_eq, not_true_eq_false, ↓reduceIte] at h
      split at h
      case h_1 r' ha =>
        simp only [pure_eq_ok, Except.ok.injEq, Prod.mk.injEq, Except.error.injEq] at h
        exact Or.inl (h.1 ▸ asidAlloc_error ha)
      case h_2 => simp at h

/-- `sys_exofork`: an error of `env_alloc`, or a new environment. -/
theorem sysExofork_cases (hfree : ∀ q ∈ k.pm.pageFreeList, q < M.npage)
    (h : sysExofork M k = .ok (r, k')) :
    (r = -eNoFreeEnv ∨ r = -eNoMem) ∨
      ∃ c e frest q rest asid bitmap, k.curenv = some c ∧ k.envFreeList = e :: frest ∧
        k.pm.pageFreeList = q :: rest ∧ asidAlloc k.asidBitmap = .ok (asid, bitmap) ∧
        r = k.nextId e ∧ k' = k.forked c e q rest asid bitmap := by
  unfold sysExofork at h
  obtain ⟨c, hc, h⟩ := bind_eq_ok.mp h
  obtain ⟨⟨o, k1⟩, halloc, h⟩ := bind_eq_ok.mp h
  rcases o with r' | e
  · replace h := pure_pair_inj h
    exact Or.inl (h.1 ▸ envAlloc_error hfree halloc)
  · replace h := pure_pair_inj h
    rcases envAlloc_cases hfree halloc with ⟨_, ho, -⟩ | ⟨e', frest, q, rest, he, hf,
      ⟨-, ho, -⟩ | ⟨asid, bitmap, ha, ho, rfl⟩⟩
    · simp at ho
    · simp at ho
    · obtain rfl : e = e' := by simpa using ho
      refine Or.inr ⟨c, e, frest, q, rest, asid, bitmap, deref_eq_ok.mp hc, he, hf, ha, ?_,
        h.2.symm⟩
      rw [← h.1, Kern.setEnv_envs_same, Kern.allocated_self]

end MosVolca
