import MosVolca.Kern.DemandPaging
import MosVolca.Kern.EnvTable

/-!
# What `env_free` gives back

`env_free` on accounted memory, page by page: every count falls by the number of references that
the address space of the environment had to the page, and a page whose count comes to 0 is free
again.

## Main definitions

* `MosVolca.LiveDirs` — the environments in use have page directories of their own.
* `MosVolca.KeepsFixed` — the counts of the pages that are not accounted for are as before.

## Main results

* `MosVolca.pageRefs_envFreeVm` — the references that are left.
* `MosVolca.envFree_reclaims` — the whole of it.
-/

namespace MosVolca

open TwoLevel

/-- The environments in use have page directories of their own, in `D`, which came from the free
list. -/
structure LiveDirs (M : Machine) (k : Kern) (D : Finset ℕ) : Prop where
  mem : ∀ e, (k.envs e).status ≠ .free → (k.envs e).pgdir ∈ D
  ge : ∀ e, (k.envs e).status ≠ .free → M.bootPages ≤ (k.envs e).pgdir
  inj : ∀ e x, (k.envs e).status ≠ .free → (k.envs x).status ≠ .free →
    (k.envs e).pgdir = (k.envs x).pgdir → e = x

/-- The counts of the pages below `freemem` and of those that the kernel keeps have not changed. -/
def KeepsFixed (M : Machine) (K : Finset ℕ) (s s' : PhysMem) : Prop :=
  ∀ p, ¬ (M.Tracked p ∧ p ∉ K) → s'.ppRef p = s.ppRef p

variable {M : Machine} {k k' : Kern} {s s' s₁ : PhysMem} {D K H : Finset ℕ} {e x : EnvPtr}
  {d d' i p pp t : ℕ} {asid va : Word}

/-! ## The pages that are not accounted for -/

lemma KeepsFixed.refl (M : Machine) (K : Finset ℕ) (s : PhysMem) : KeepsFixed M K s s := fun _ _ => rfl

lemma KeepsFixed.trans (h : KeepsFixed M K s s₁) (h' : KeepsFixed M K s₁ s') : KeepsFixed M K s s' :=
  fun p hp => (h' p hp).trans (h p hp)

/-- A count falls that is accounted for. -/
lemma keepsFixed_decRef (pp : ℕ) (hp : M.Tracked pp ∧ pp ∉ K) (hs : s'.ppRef = (decRef s pp).ppRef) :
    KeepsFixed M K s s' := by
  intro p hne
  have hpp : p ≠ pp := fun he => hne (he ▸ hp)
  rw [hs, decRef_ppRef, Function.update_of_ne hpp]

/-- A page with a reference is not kept by the kernel. -/
lemma Accounting.not_kept {n : ℕ} (h : Accounting M n s D K H)
    (hp : 0 < (tableShape n).refCount s.mem D p) : p ∉ K := fun hk => by
  rw [h.kept p hk] at hp
  exact absurd hp (Nat.lt_irrefl 0)

lemma PageAccounting.pageRemove_fixed (h : PageAccounting M s D K H) (hd : d ∈ D)
    (hi : pdx va < pdx utop) (hr : MosVolca.pageRemove M s d asid va = .ok s') :
    KeepsFixed M K s s' := by
  rcases pageRemove_cases hr with ⟨rfl, -⟩ | ⟨hv, -, hw, -, -, rfl⟩
  · exact KeepsFixed.refl M K s'
  · have ht : translate s d va = some (pteWord s d va) := translate_eq_some_iff.mpr ⟨hv, rfl, hw⟩
    refine keepsFixed_decRef _ ⟨h.tracked_of_translate hd hi ht, ?_⟩ rfl
    exact h.not_kept (UserAccounting.pageRefs_pos_of_translate hd hi ht)

/-- The inner loop of `env_free`. -/
lemma PageAccounting.envFreePages_fixed (h : PageAccounting M s D K H) (hd : d ∈ D)
    (hi : i < pdx utop) (hr : MosVolca.envFreePages M s d asid i t = .ok s') : KeepsFixed M K s s' := by
  have hi' : i < 1024 := hi.trans_le (by rw [pdx_utop]; decide)
  have hinv : PageAccounting M s' D K H ∧ KeepsFixed M K s s' := by
    refine foldlM_invariant (P := fun s₁ => PageAccounting M s₁ D K H ∧ KeepsFixed M K s s₁)
      ?_ ⟨h, KeepsFixed.refl M K s⟩ hr
    rintro j hj s₁ s₂ ⟨h₁, hkeep⟩ hstep
    by_cases hw : pteValid (s₁.mem t j) = true
    · rw [if_pos hw] at hstep
      have hlt : pdx (entryAddr i j) < pdx utop := by
        rw [pdx_entryAddr hi' (List.mem_range.mp hj)]
        exact hi
      exact ⟨h₁.pageRemove hd hlt hstep, hkeep.trans (h₁.pageRemove_fixed hd hlt hstep)⟩
    · rw [if_neg hw, pure_eq_ok, Except.ok.injEq] at hstep
      exact hstep ▸ ⟨h₁, hkeep⟩
  exact hinv.2

/-- One round of the outer loop. -/
lemma PageAccounting.envFreeTable_fixed (h : PageAccounting M s D K H) (hd : d ∈ D)
    (hi : i < pdx utop) (hr : envFreeTable M d asid s i = .ok s') : KeepsFixed M K s s' := by
  unfold envFreeTable at hr
  by_cases hv : pteValid (s.mem d i) = true
  · simp only [hv, ↓reduceIte, bind_eq_ok, kaddr_pteAddr_eq_ok, pure_eq_ok, Except.ok.injEq] at hr
    obtain ⟨_, ⟨hlt, rfl⟩, s₁, hloop, pp, hpp, s₂, hdec, rfl⟩ := hr
    obtain ⟨-, rfl⟩ := pageDecref_cases.mp hdec
    obtain ⟨-, rfl⟩ := pa2page_eq_ok.mp hpp
    have hfix := h.envFreePages_fixed hd hi hloop
    refine hfix.trans (keepsFixed_decRef (ppn (s.mem d i)) ⟨⟨?_, hlt⟩, ?_⟩ ?_)
    · exact h.table_ge d hd i hi hv
    · exact h.not_kept (Shape.refCount_pos_of_node
        (Shape.Node.of_slot (T := tableShape (pdx utop)) hd hi hv))
    · rw [ppn_pteAddr]
      rfl
  · rw [if_neg hv, pure_eq_ok, Except.ok.injEq] at hr
    exact hr ▸ KeepsFixed.refl M K s

/-- Only pages that are accounted for are given back. -/
lemma PageAccounting.envFreeVm_fixed (h : PageAccounting M s D K H) (hd : d ∈ D)
    (hge : M.bootPages ≤ d) (hr : MosVolca.envFreeVm M s d asid = .ok s') : KeepsFixed M K s s' := by
  obtain ⟨s₁, hloop, -, hfix⟩ := foldlM_range_returns (f := envFreeTable M d asid)
    (P := fun i s₁ => DirLoop M s D K H d i s₁ ∧ KeepsFixed M K s s₁) (n := pdx utop) (b := s)
    (fun i hi s₁ ⟨h₁, hfix⟩ => by
      obtain ⟨s₂, hr, h₂⟩ := h₁.round hd hi asid
      exact ⟨s₂, hr, h₂, hfix.trans (h₁.accounting.envFreeTable_fixed hd hi hr)⟩)
    ⟨⟨h, fun l hl => absurd hl (Nat.not_lt_zero l), fun _ _ => rfl, fun _ _ => rfl⟩,
      KeepsFixed.refl M K s⟩
  unfold MosVolca.envFreeVm at hr
  rw [hloop, ok_bind] at hr
  obtain ⟨pp, hpp, hr⟩ := bind_eq_ok.mp hr
  obtain ⟨-, rfl⟩ := pa2page_eq_ok.mp hpp
  obtain ⟨s₂, hdec, hr⟩ := bind_eq_ok.mp hr
  obtain ⟨-, rfl⟩ := pageDecref_cases.mp hdec
  rw [pure_eq_ok, Except.ok.injEq] at hr
  subst hr
  have hlt := h.dir_lt hd
  refine hfix.trans (keepsFixed_decRef d ⟨⟨hge, hlt⟩, ?_⟩ ?_)
  · exact h.not_kept (Shape.refCount_pos_of_mem hd)
  · rw [ppn_page2pa (hlt.trans M.npage_lt)]
    rfl

/-! ## The references that are left -/

/-- The references of an address space and those of the others. -/
lemma pageRefs_erase (hd : d ∈ D) (p : ℕ) :
    pageRefs s (D.erase d) p + pageRefs s {d} p = pageRefs s D p := by
  unfold pageRefs Shape.refCount
  rw [Finset.sum_singleton, Nat.add_comm, Finset.add_sum_erase D _ hd]

/-- The other address spaces have the references that they had. -/
lemma pageRefs_of_dirPages (h : PageAccounting M s D K H) (hd : d ∈ D)
    (hrow : ∀ p, ¬ DirPages s d p → s'.mem p = s.mem p) (p : ℕ) :
    pageRefs s' (D.erase d) p = pageRefs s (D.erase d) p := by
  refine Shape.refCount_congr (fun d' hd' i _ => ?_) (fun d' hd' i hi hv j _ => ?_) p
  · obtain ⟨hne, hd'⟩ := Finset.mem_erase.mp hd'
    rw [hrow d' (h.not_dirPages_dir rfl hd hd' hne)]
  · obtain ⟨hne, hd'⟩ := Finset.mem_erase.mp hd'
    exact congrFun (hrow _ (h.not_dirPages_table rfl hd hd' hne hi hv)) j

/-- An address space refers only to pages that are accounted for. -/
lemma PageAccounting.fixed_of_pageRefs (h : PageAccounting M s D K H) (hd : d ∈ D)
    (hge : M.bootPages ≤ d) (hp : 0 < pageRefs s {d} p) : M.Tracked p ∧ p ∉ K := by
  have hle : 0 < pageRefs s D p := by
    have := pageRefs_erase (s := s) hd p
    omega
  refine ⟨⟨?_, h.lt p hle⟩, h.not_kept hle⟩
  rcases Shape.node_or_leaf_of_refCount_pos hp with (hn | ⟨d', hd', i, hi, hv, rfl⟩) | hl
  · rwa [Finset.mem_singleton.mp hn]
  · obtain rfl := Finset.mem_singleton.mp hd'
    exact h.table_ge d' hd i hi hv
  · obtain ⟨d', hd', i, hi, hv, j, hj, hw, he⟩ := hl
    obtain rfl := Finset.mem_singleton.mp hd'
    exact h.leaf_ge p ⟨d', hd, i, hi, hv, j, hj, hw, he⟩

/-- Every count falls by the references of the address space. -/
lemma PageAccounting.ppRef_envFreeVm (h : PageAccounting M s D K H) (hd : d ∈ D)
    (hge : M.bootPages ≤ d) (hfix : KeepsFixed M K s s') (h' : PageAccounting M s' (D.erase d) K H)
    (hrow : ∀ p, ¬ DirPages s d p → s'.mem p = s.mem p) (p : ℕ) :
    (s'.ppRef p).toNat + pageRefs s {d} p = (s.ppRef p).toNat := by
  by_cases hp : M.Tracked p ∧ p ∉ K
  · have h1 := h.ppRef_toNat hp.1 hp.2 (h.bounded p hp.1)
    have h2 := h'.ppRef_toNat hp.1 hp.2 (h'.bounded p hp.1)
    have h3 := pageRefs_of_dirPages h hd hrow p
    have h4 := pageRefs_erase (s := s) hd p
    unfold pageRefs at h3 h4 ⊢
    omega
  · have h0 : pageRefs s {d} p = 0 := by
      by_contra hne
      exact hp (h.fixed_of_pageRefs hd hge (Nat.pos_of_ne_zero hne))
    rw [hfix p hp, h0, Nat.add_zero]

/-- A page whose count comes to 0 is free. -/
lemma PageAccounting.mem_free_envFreeVm (h : PageAccounting M s D K H)
    (hfix : KeepsFixed M K s s') (h' : PageAccounting M s' (D.erase d) K H)
    (hp : s.ppRef p ≠ 0) (hz : s'.ppRef p = 0) : p ∈ s'.pageFreeList := by
  have htr : M.Tracked p ∧ p ∉ K := by
    by_contra hne
    exact hp ((hfix p hne).symm.trans hz)
  refine (h'.free_mem p).mpr ⟨htr.1, htr.2, fun hH => ?_, ?_⟩
  · refine hp ?_
    rw [h.ref p htr.1 htr.2, (h.held p hH).2.2]
    rfl
  · have hc := h'.ppRef_toNat htr.1 htr.2 (h'.bounded p htr.1)
    rw [hz] at hc
    exact hc.symm

/-- The other address spaces are as they were, from `UTOP` on if they are as `env_setup_vm` has
built them. -/
lemma PageAccounting.translate_envFreeVm (h : PageAccounting M s D K H) (hd : d ∈ D)
    (hd' : d' ∈ D) (hne : d' ≠ d) (hrow : ∀ p, ¬ DirPages s d p → s'.mem p = s.mem p)
    (hva : pdx utop ≤ pdx va → BuiltDir s d' K) : translate s' d' va = translate s d' va := by
  by_cases hi : pdx va < pdx utop
  · exact translate_of_dirPages h.toAccounting rfl hd hd' hne hrow hi
  have hbuilt := hva (Nat.not_lt.mp hi)
  have hself : s'.mem d' = s.mem d' := hrow d' (h.not_dirPages_dir rfl hd hd' hne)
  refine Shape.lookup_congr (T := tableShape 0) (congrFun hself _) fun hv => ?_
  change s'.mem (ppn (s.mem d' (pdx va))) (ptx va) = s.mem (ppn (s.mem d' (pdx va))) (ptx va)
  rcases lt_trichotomy (pdx va) (pdx uvpt) with hlt | heq | hgt
  · -- a page table of the template, which the kernel keeps
    have hK := hbuilt.template _ (Nat.not_lt.mp hi) hlt hv
    refine congrFun (hrow _ fun hdir => ?_) _
    refine h.not_kept (p := ppn (s.mem d' (pdx va))) ?_ hK
    rcases hdir with hdir | ⟨i, hi, hvi, hdir⟩
    · rw [hdir]
      exact Shape.refCount_pos_of_mem hd
    · rw [← hdir]
      exact Shape.refCount_pos_of_node
        (Shape.Node.of_slot (T := tableShape (pdx utop)) hd hi hvi)
  · rw [heq, hbuilt.self, ppn_self ((h.dir_lt hd').trans M.npage_lt), hself]
  · have hzero := hbuilt.above _ hgt (pdx_lt va)
    rw [tableShape_valid, hzero, pteValid_zero] at hv
    exact absurd hv Bool.false_ne_true

/-! ## `env_free` -/

/-- **`env_free` gives back what the environment held.** For an environment in use, on accounted
memory: the memory part of `env_free` returns, and so does `env_free` itself if the environment can
be taken from the queue. Then every count has fallen by the references of the address space; the
pages whose count has come to 0 are free, once each; the other environments have the translations
that they had; and the accounting holds for the page directories that are left. -/
theorem envFree_reclaims (M : Machine) (k : Kern) (D K H : Finset ℕ) (e : EnvPtr)
    (h : PageAccounting M k.pm D K H) (hlive : LiveDirs M k D) (he : (k.envs e).status ≠ .free) :
    ((∃ q, k.envSchedList.remove e = some q) → ∃ k', envFree M k e = .ok k') ∧
    ∀ k', envFree M k e = .ok k' →
      (∀ p, (k'.pm.ppRef p).toNat + pageRefs k.pm {(k.envs e).pgdir} p = (k.pm.ppRef p).toNat) ∧
      (∀ p, k.pm.ppRef p ≠ 0 → k'.pm.ppRef p = 0 → k'.pm.pageFreeList.count p = 1) ∧
      (∀ x, x ≠ e → (k.envs x).status ≠ .free → ∀ va,
        (pdx utop ≤ pdx va → BuiltDir k.pm (k.envs x).pgdir K) →
          translate k'.pm (k'.envs x).pgdir va = translate k.pm (k.envs x).pgdir va) ∧
      PageAccounting M k'.pm (D.erase (k.envs e).pgdir) K H ∧
      LiveDirs M k' (D.erase (k.envs e).pgdir) := by
  have hd := hlive.mem e he
  have hge := hlive.ge e he
  obtain ⟨pm, hvm, hacc, hrow⟩ := h.envFreeVm hd hge (k.envs e).asid
  have hfix := h.envFreeVm_fixed hd hge hvm
  refine ⟨fun ⟨q, hq⟩ => ?_, fun k' hk' => ?_⟩
  · unfold envFree
    rw [hvm, ok_bind]
    change ∃ k', (deref (k.envSchedList.remove e) >>= _) = .ok k'
    rw [hq]
    exact ⟨_, rfl⟩
  obtain ⟨pm', q, hvm', -, rfl⟩ := envFree_frame hk'
  obtain rfl : pm = pm' := by simpa [hvm] using hvm'
  have hother : ∀ x, x ≠ e →
      Function.update k.envs e { k.envs e with status := .free } x = k.envs x :=
    fun x hx => Function.update_of_ne hx _ _
  have hne : ∀ x, (Function.update k.envs e { k.envs e with status := .free } x).status ≠ .free →
      x ≠ e := by
    rintro x hx rfl
    rw [Function.update_self] at hx
    exact hx rfl
  refine ⟨h.ppRef_envFreeVm hd hge hfix hacc hrow, fun p hp hz => ?_, fun x hx hst va hva => ?_,
    hacc, ⟨fun x hx => ?_, fun x hx => ?_, fun x y hx hy hxy => ?_⟩⟩
  · exact List.count_eq_one_of_mem hacc.free_nodup (h.mem_free_envFreeVm hfix hacc hp hz)
  · have hdir : (k.envs x).pgdir ≠ (k.envs e).pgdir := fun heq => hx (hlive.inj x e hst he heq)
    change translate pm (Function.update k.envs e { k.envs e with status := .free } x).pgdir va = _
    rw [hother x hx]
    exact h.translate_envFreeVm hd (hlive.mem x hst) hdir hrow hva
  · have hxe := hne x hx
    change (Function.update k.envs e { k.envs e with status := .free } x).status ≠ .free at hx
    change (Function.update k.envs e { k.envs e with status := .free } x).pgdir ∈ _
    rw [hother x hxe] at hx ⊢
    exact Finset.mem_erase.mpr ⟨fun heq => hxe (hlive.inj x e hx he heq), hlive.mem x hx⟩
  · have hxe := hne x hx
    change (Function.update k.envs e { k.envs e with status := .free } x).status ≠ .free at hx
    change M.bootPages ≤ (Function.update k.envs e { k.envs e with status := .free } x).pgdir
    rw [hother x hxe] at hx ⊢
    exact hlive.ge x hx
  · have hxe := hne x hx
    have hye := hne y hy
    change (Function.update k.envs e { k.envs e with status := .free } x).status ≠ .free at hx
    change (Function.update k.envs e { k.envs e with status := .free } y).status ≠ .free at hy
    change (Function.update k.envs e { k.envs e with status := .free } x).pgdir =
      (Function.update k.envs e { k.envs e with status := .free } y).pgdir at hxy
    rw [hother x hxe] at hx hxy
    rw [hother y hye] at hy hxy
    exact hlive.inj x y hx hy hxy

/-- In every reachable state the environments in use have page directories of their own. -/
lemma EnvSpaces.liveDirs (h : EnvSpaces M D K k) : LiveDirs M k D :=
  ⟨h.dir, fun e he => h.ge _ (h.dir e he), h.pgdir_inj⟩

/-- The first environment has forked, and its child is freed. -/
theorem envFree_reclaims_child : ∃ k', envFree bootMachine (queueRun 5) 1 = .ok k' ∧
    (∀ p, (k'.pm.ppRef p).toNat + pageRefs (queueRun 5).pm {booted.page1} p =
      ((queueRun 5).pm.ppRef p).toNat) ∧
    ∃ D K, PageAccounting bootMachine k'.pm D K ∅ := by
  obtain ⟨D, K, h⟩ := envSpaces_of_run bootMachine_layout booted.pageInit_eq booted.envInit_eq
    queueRun_kernRun queueRun_tableEntry 5 le_rfl
  have hst : ((queueRun 5).envs 1).status ≠ .free := by
    change EnvStatus.runnable ≠ .free
    decide
  obtain ⟨hret, hall⟩ := envFree_reclaims bootMachine (queueRun 5) D K ∅ 1 h.pages h.liveDirs hst
  obtain ⟨k', hk'⟩ := hret ⟨_, rfl⟩
  obtain ⟨hcount, -, -, hacc, -⟩ := hall k' hk'
  exact ⟨k', hk', hcount, _, _, hacc⟩

end MosVolca
