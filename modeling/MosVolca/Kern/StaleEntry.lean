import MosVolca.Kern.SharedPage
import MosVolca.Kern.TlbRuns

/-!
# A stale TLB entry

When the count of a page has wrapped, the page is freed while it is mapped. It then becomes a page
table, is freed once more and cleared, and the TLB keeps an entry that the page table had.

## Main definitions

* `MosVolca.Reached` — the states of permitted runs.
* `MosVolca.FirstTable` — the table that has the first of the many addresses of a page.

## Main results

* `MosVolca.FirstTable.unmap` — the page is unmapped at one of them.
* `MosVolca.not_tlbCoherent_of_run` — the stale entry.
-/

namespace MosVolca

open TwoLevel

variable {M : Machine} {k k' k₀ : Kern} {s s' : PhysMem} {D K H : Finset ℕ} {d t p j n : ℕ}
  {e : EnvPtr} {σ : ℕ → Kern} {ev : ℕ → Event} {a : Event} {rest : List ℕ} {asid va w perm : Word}

/-! ## Runs that go on -/

/-- One more event. -/
lemma EventRun.snoc (h : EventRun M n σ ev) (hs : Happens M (σ n) a k') :
    EventRun M (n + 1) (Function.update σ (n + 1) k') (Function.update ev n a) := by
  intro i hi
  rw [Function.update_of_ne (show i ≠ n + 1 by omega)]
  rcases Nat.lt_succ_iff_lt_or_eq.mp hi with hi | rfl
  · rw [Function.update_of_ne (show i + 1 ≠ n + 1 by omega),
      Function.update_of_ne (show i ≠ n by omega)]
    exact h i hi
  · rw [Function.update_self, Function.update_self]
    exact hs

/-- A run of permitted events leads from `k₀` to `k`. -/
def Reached (M : Machine) (k₀ k : Kern) : Prop :=
  ∃ n σ ev, σ 0 = k₀ ∧ EventRun M n σ ev ∧ (∀ t < n, (ev t).Permitted (σ t)) ∧ σ n = k

lemma Reached.next (h : Reached M k₀ k) (hp : a.Permitted k) (hs : Happens M k a k') :
    Reached M k₀ k' := by
  obtain ⟨n, σ, ev, h0, hrun, hperm, rfl⟩ := h
  refine ⟨n + 1, _, _, ?_, hrun.snoc hs, fun i hi => ?_, Function.update_self ..⟩
  · rw [Function.update_of_ne (by omega), h0]
  · rw [Function.update_of_ne (show i ≠ n + 1 by omega)]
    rcases Nat.lt_succ_iff_lt_or_eq.mp hi with hi | rfl
    · rw [Function.update_of_ne (show i ≠ n by omega)]
      exact hperm i hi
    · rwa [Function.update_self]

/-- An entry that returns, with the registers that are there. -/
lemma Happens.of_enter {b : Entry} {o : Option Word} (h : enter M k b = .ok (o, k')) :
    Happens M k (.entry b) k' := by
  refine @Happens.entry M k b k.ktf o k' ?_
  rwa [Kern.trap_ktf]

/-! ## The first page table -/

/-- The page directory `d` has the page table `t` for the first addresses, and `p` is another
page. -/
structure FirstTable (M : Machine) (d t p : ℕ) (s : PhysMem) : Prop where
  dir : pteValid (s.mem d 1) = true
  table : ppn (s.mem d 1) = t
  table_lt : t < M.npage
  page_lt : p < M.npage
  dir_ne : d ≠ p
  table_ne : t ≠ p
  table_ne_dir : t ≠ d

/-- A flush keeps the entries of other pages. -/
lemma tlbInvalidate_other {va' : Word} (hasid : asid.toNat < nasid) (hne : vpn va' ≠ vpn va) :
    (tlbInvalidate s asid va).tlb asid.toNat (vpn va') = s.tlb asid.toNat (vpn va') := by
  refine Option.ext fun w => ?_
  rw [tlb_tlbInvalidate hasid]
  exact and_iff_left fun hc => hne hc.1

lemma shareAddr_fields (hj : j < 3) : pdx (shareAddr j) = 1 ∧ ptx (shareAddr j) = j := by
  interval_cases j <;> decide

namespace FirstTable

variable (h : FirstTable M d t p s)

include h

/-- The memory changes elsewhere. -/
lemma congr (hd : s'.mem d 1 = s.mem d 1) : FirstTable M d t p s' :=
  { h with dir := by rw [hd, h.dir], table := by rw [hd, h.table] }

lemma pteWord_eq (hj : j < 3) : pteWord s d (shareAddr j) = s.mem t j := by
  obtain ⟨h1, h2⟩ := shareAddr_fields hj
  rw [pteWord, h1, h2, h.table]

lemma ppn_page (perm : Word) (hperm : perm < 4096#32) : ppn (mkPte p perm) = p :=
  ppn_mkPte_of_lt (h.page_lt.trans M.npage_lt) hperm

/-- The page is looked up at one of the addresses. -/
lemma pageLookup_eq (hj : j < 3) (hw : s.mem t j = mkPte p pteD) :
    pageLookup M s d (shareAddr j) = .ok (some (p, ⟨t, j⟩)) := by
  obtain ⟨h1, h2⟩ := shareAddr_fields hj
  have hfr := h.ppn_page pteD (by decide)
  have hlook : pageLookup M s d (shareAddr j) = _ := pageLookup_some
    (by rw [h1]; exact h.dir) (by rw [h1, h.table]; exact h.table_lt)
    (by rw [h.pteWord_eq hj, hw]; exact pteValid_mkPte p pteD)
    (by rw [h.pteWord_eq hj, hw, hfr]; exact h.page_lt)
  rwa [h.pteWord_eq hj, hw, hfr, h1, h2, h.table] at hlook

/-- **The page is unmapped at one of the addresses.** -/
lemma unmap (hj : j < 3) (hw : s.mem t j = mkPte p pteD) (h0 : s.ppRef p ≠ 0)
    (hasid : asid.toNat < nasid) :
    ∃ s', pageRemove M s d asid (shareAddr j) = .ok s' ∧ FirstTable M d t p s' ∧
      s'.mem = write s.mem t j 0#32 ∧ s'.ppRef p = s.ppRef p - 1 ∧
      (s.ppRef p = 1 → s'.pageFreeList = p :: s.pageFreeList) ∧
      s'.tlb asid.toNat (vpn farAddr) = s.tlb asid.toNat (vpn farAddr) := by
  obtain ⟨h1, h2⟩ := shareAddr_fields hj
  have hfr := h.ppn_page pteD (by decide)
  have hrem : pageRemove M s d asid (shareAddr j) = _ := pageRemove_mapped
    (by rw [h1]; exact h.dir) (by rw [h1, h.table]; exact h.table_lt)
    (by rw [h.pteWord_eq hj, hw]; exact pteValid_mkPte p pteD)
    (by rw [h.pteWord_eq hj, hw, hfr]; exact h.page_lt) (by rwa [h.pteWord_eq hj, hw, hfr])
  rw [h.pteWord_eq hj, hw, hfr, h1, h2, h.table] at hrem
  refine ⟨_, hrem, h.congr (write_of_ne_page h.table_ne_dir.symm), rfl, ?_, fun hone => ?_, ?_⟩
  · simp
  · simp [decRef_pageFreeList, hone]
  · have hfar : vpn farAddr ≠ vpn (shareAddr j) := by
      rw [vpn_shareAddr (by omega), show vpn farAddr = 131072 by decide]
      omega
    exact tlbInvalidate_other hasid hfar

end FirstTable

/-! ## The calls of the current environment -/

section Calls

variable (hcur : k.curenv = some 0)

include hcur

lemma envid2env_zero (s : PhysMem) :
    envid2env { k with pm := s } 0 true = .ok (.ok (some 0)) := by
  rw [envid2env, if_pos rfl]
  exact congrArg (fun c => Except.ok (Except.ok c)) hcur

lemma happens_memUnmap (hva : isIllegalVa va = false)
    (hr : pageRemove M s (k.envs 0).pgdir (k.envs 0).asid va = .ok s') :
    Happens M { k with pm := s } (.entry (.memUnmap 0 va)) { k with pm := s' } := by
  refine Happens.of_enter (o := some 0) ?_
  change returning (sysMemUnmap M { k with pm := s } 0 va) = _
  unfold sysMemUnmap
  rw [if_neg (by rw [hva]; decide), envid2env_zero hcur]
  simp only [ok_bind, deref, pure_eq_ok, hr]
  rfl

lemma happens_memMap {srcva : Word} {pte : PtePtr} (hsrc : isIllegalVa srcva = false)
    (hva : isIllegalVa va = false)
    (hl : pageLookup M s (k.envs 0).pgdir srcva = .ok (some (p, pte)))
    (hr : pageInsert M s (k.envs 0).pgdir (k.envs 0).asid p va perm = .ok (0, s')) :
    Happens M { k with pm := s } (.entry (.memMap 0 srcva 0 va perm)) { k with pm := s' } := by
  refine Happens.of_enter (o := some 0) ?_
  change returning (sysMemMap M { k with pm := s } 0 srcva 0 va perm) = _
  rw [sysMemMap_own (k := { k with pm := s }) hcur (envid2env_zero hcur s) hsrc hva hl, hr]
  rfl

lemma happens_memAlloc {s1 : PhysMem} (hva : isIllegalVa va = false)
    (hp : pageAlloc M s = .ok (.ok p, s1))
    (hr : pageInsert M s1 (k.envs 0).pgdir (k.envs 0).asid p va perm = .ok (0, s')) :
    Happens M { k with pm := s } (.entry (.memAlloc 0 va perm)) { k with pm := s' } := by
  refine Happens.of_enter (o := some 0) ?_
  change returning (sysMemAlloc M { k with pm := s } 0 va perm) = _
  unfold sysMemAlloc
  rw [if_neg (by rw [hva]; decide), envid2env_zero hcur]
  simp only [ok_bind, hp, deref, pure_eq_ok, hr]
  rfl

end Calls

/-! ## The stale entry -/

/-- The page that has 65537 entries: the count is 1. -/
lemma Shares.firstTable (h : Shares M D K d p 65536 k) :
    ∃ t, FirstTable M d t p k.pm ∧ (∀ j < 3, k.pm.mem t j = mkPte p pteD) ∧ k.pm.ppRef p = 1 := by
  have hpdx : ∀ l, l < 65537 → pdx (shareAddr l) < pdx utop := fun l hl =>
    pdx_of_legal (shareAddr_legal hl)
  have hone : pdx (shareAddr 0) = 1 := by decide
  have hi : 1 < pdx utop := by decide
  have hleaf := leaf_of_translate (n := pdx utop) h.mem (hpdx 0 (by decide)) (h.mapped 0 (by decide))
  rw [ppn_mkPte_of_lt (h.page.trans M.npage_lt) (by decide)] at hleaf
  have hnode := (h.pages.insertable_of_leaf hleaf).not_node
  have hv : pteValid (k.pm.mem d 1) = true := by
    have := h.tables 0 (by decide)
    rwa [hone] at this
  have htab := Shape.Node.of_slot (T := tableShape (pdx utop)) h.mem hi hv
  have hfirst : FirstTable M d (ppn (k.pm.mem d 1)) p k.pm :=
    { dir := hv
      table := rfl
      table_lt := h.pages.table_lt h.mem hi hv
      page_lt := h.page
      dir_ne := fun hc => hnode (hc ▸ Shape.Node.of_mem h.mem)
      table_ne := fun hc => hnode (hc ▸ htab)
      table_ne_dir := h.pages.table_ne_dir h.mem hi hv }
  refine ⟨_, hfirst, fun j hj => ?_, ?_⟩
  · have hw := (translate_eq_some_iff.mp (h.mapped j (by omega))).2.1
    rwa [hfirst.pteWord_eq hj] at hw
  · rw [h.ppRef_eq]
    rfl

/-- The state in which the page `p` is the page table of `farAddr` and maps itself there, and the
TLB has that entry. -/
structure FarEntry (d p : ℕ) (asid : Word) (s : PhysMem) : Prop where
  dir : s.mem d (pdx farAddr) = mkPde p
  entry : s.tlb asid.toNat (vpn farAddr) = some (mkPte p pteD)

lemma FarEntry.congr (h : FarEntry d p asid s) (hd : s'.mem d (pdx farAddr) = s.mem d (pdx farAddr))
    (ht : s'.tlb asid.toNat (vpn farAddr) = s.tlb asid.toNat (vpn farAddr)) :
    FarEntry d p asid s' :=
  ⟨hd.trans h.dir, ht.trans h.entry⟩

namespace FirstTable

variable (h : FirstTable M d t p s)

include h

/-- The page is free with entries left, and is mapped at `farAddr`: it becomes the page table
there. -/
lemma insert_far (hfree : s.pageFreeList = p :: rest)
    (hfar : pteValid (s.mem d (pdx farAddr)) = false) (h0 : s.ppRef p = 0) (asid : Word) :
    ∃ s', pageInsert M s d asid p farAddr pteD = .ok (0, s') ∧ FirstTable M d t p s' ∧
      (∀ j, s'.mem t j = s.mem t j) ∧ s'.mem d (pdx farAddr) = mkPde p ∧
      translate s' d farAddr = some (mkPte p pteD) ∧ s'.ppRef p = 2 := by
  have hins : pageInsert M s d asid p farAddr pteD = pageInstall M s d asid p farAddr pteD :=
    pageInsert_unmapped fun hv => by
      rw [hfar] at hv
      exact absurd hv Bool.false_ne_true
  rw [pageInstall_create hfar hfree h.page_lt] at hins
  have hpde : write (write (fill s.mem p 0#32) d (pdx farAddr) (mkPde p)) p (ptx farAddr)
      (mkPte p pteD) d (pdx farAddr) = mkPde p := by
    rw [write_of_ne_page h.dir_ne, write_same]
  refine ⟨_, hins, h.congr ?_, fun j => ?_, hpde, ?_, ?_⟩
  · change write (write (fill s.mem p 0#32) d (pdx farAddr) (mkPde p)) p (ptx farAddr)
      (mkPte p pteD) d 1 = _
    rw [write_of_ne_page h.dir_ne, write_of_ne_slot (by decide), fill_of_ne h.dir_ne]
  · change write (write (fill s.mem p 0#32) d (pdx farAddr) (mkPde p)) p (ptx farAddr)
      (mkPte p pteD) t j = _
    rw [write_of_ne_page h.table_ne, write_of_ne_page h.table_ne_dir, fill_of_ne h.table_ne]
  · rw [translate_eq_some_iff, pteWord]
    refine ⟨(congrArg pteValid hpde).trans (pteValid_mkPde p), ?_, pteValid_mkPte p pteD⟩
    refine (congrArg (fun w => write _ p _ _ (ppn w) _) hpde).trans ?_
    rw [ppn_mkPde (h.page_lt.trans M.npage_lt), write_same]
  · simp [h0]

/-- The TLB is filled from the new page table. -/
lemma refill_far (hdir : s.mem d (pdx farAddr) = mkPde p)
    (htr : translate s d farAddr = some (mkPte p pteD)) (asid : Word) :
    RefillsTo M s d farAddr asid (.ok (mkPte p pteD, s)) := by
  obtain ⟨hv, hw, -⟩ := translate_eq_some_iff.mp htr
  have hfr := h.ppn_page pteD (by decide)
  have hpde : ppn (s.mem d (pdx farAddr)) = p := by
    rw [hdir, ppn_mkPde (h.page_lt.trans M.npage_lt)]
  have hlook := pageLookup_some (M := M) hv (by rw [hpde]; exact h.page_lt)
    (by rw [hw]; exact pteValid_mkPte p pteD) (by rw [hw, hfr]; exact h.page_lt)
  have hto := refillsTo_mapped asid hlook
  change RefillsTo M s d farAddr asid (.ok (pteWord s d farAddr, s)) at hto
  rwa [hw] at hto

/-- The page is freed while it is the page table of `farAddr`, and is allocated again: the TLB keeps
the entry of `farAddr`, which is gone. -/
lemma alloc_stale (hfar : FarEntry d p asid s) (hempty : s.mem t 0 = 0#32)
    (hasid : asid.toNat < nasid) (rest : List ℕ) :
    ∃ s', pageInsert M (s.takeFree p rest) d asid p (shareAddr 0) pteD = .ok (0, s') ∧
      s'.tlb asid.toNat (vpn farAddr) = some (mkPte p pteD) ∧ translate s' d farAddr = none := by
  obtain ⟨h1, h2⟩ := shareAddr_fields (j := 0) (by decide)
  have htake : FirstTable M d t p (s.takeFree p rest) := h.congr (fill_of_ne h.dir_ne)
  have hslot : (s.takeFree p rest).mem t 0 = 0#32 := (fill_of_ne h.table_ne).trans hempty
  have hins : pageInsert M (s.takeFree p rest) d asid p (shareAddr 0) pteD =
      pageInstall M (s.takeFree p rest) d asid p (shareAddr 0) pteD :=
    pageInsert_unmapped fun _ => by
      rw [htake.pteWord_eq (by decide), hslot, h1, htake.table]
      exact ⟨h.table_lt, pteValid_zero⟩
  rw [pageInstall_table (by rw [h1]; exact htake.dir) (by rw [h1, htake.table]; exact h.table_lt),
    h1, h2, htake.table] at hins
  refine ⟨_, hins, ?_, ?_⟩
  · refine (tlbInvalidate_other hasid ?_).trans hfar.entry
    decide
  · -- the page table has been cleared
    have hdir : write (fill s.mem p 0#32) t 0 (mkPte p pteD) d (pdx farAddr) = mkPde p := by
      rw [write_of_ne_page h.table_ne_dir.symm, fill_of_ne h.dir_ne, hfar.dir]
    refine translate_eq_none_iff.mpr fun _ => ?_
    have hword : pteWord (((tlbInvalidate (s.takeFree p rest) asid (shareAddr 0)).mapPage t 0 p
        pteD)) d farAddr = 0#32 := by
      rw [pteWord]
      refine (congrArg (fun w => write _ t 0 _ (ppn w) _) hdir).trans ?_
      rw [ppn_mkPde (h.page_lt.trans M.npage_lt), write_of_ne_page h.table_ne.symm]
      exact fill_same _ _ _ _
    rw [hword, pteValid_zero]

end FirstTable

/-- **The stale entry.** From 65537 entries of a page on, a permitted run leads to a state in which
the TLB has an entry for a page that is not mapped. -/
theorem Shares.stale (h : Shares M D K d p 65536 k) (hk : Reached M k₀ k) :
    ∃ k', Reached M k₀ k' ∧ (k'.envs 0).status ≠ .free ∧
      k'.pm.TlbHit (k'.envs 0).asid farAddr (mkPte p pteD) ∧
      translate k'.pm (k'.envs 0).pgdir farAddr = none := by
  obtain ⟨t, h0, hmem0, href0⟩ := h.firstTable
  have hcur := h.cur
  have hasid := h.asid
  have hill : ∀ l, l < 65537 → isIllegalVa (shareAddr l) = false := fun l hl => shareAddr_legal hl
  have hillfar : isIllegalVa farAddr = false := by decide
  have hperm : pteD < 4096#32 ∧ pteD &&& pteG = 0 := by decide
  -- the page is freed with entries left
  obtain ⟨s1, hr1, h1, hmem1, href1, hfree1, -⟩ := h0.unmap (by decide : 2 < 3)
    (hmem0 2 (by decide)) (by rw [href0]; decide) hasid
  rw [href0] at href1
  rw [← h.dir] at hr1
  have hk1 := hk.next (a := .entry (.memUnmap 0 (shareAddr 2))) trivial
    (happens_memUnmap (k := k) hcur (hill 2 (by decide)) hr1)
  have hslot1 : ∀ j < 2, s1.mem t j = mkPte p pteD := fun j hj => by
    rw [hmem1, write_of_ne_slot (by omega), hmem0 j (by omega)]
  have hfar1 : pteValid (s1.mem d (pdx farAddr)) = false := by
    rw [hmem1, write_of_ne_page h0.table_ne_dir.symm]
    exact h.far
  -- it becomes a page table
  obtain ⟨s2, hr2, h2, hslot2, hdir2, htr2, href2⟩ := h1.insert_far (hfree1 href0) hfar1
    (by rw [href1]; rfl) (k.envs 0).asid
  have hlook1 := h1.pageLookup_eq (by decide : 0 < 3) (hslot1 0 (by decide))
  rw [← h.dir] at hr2 hlook1
  have hk2 := hk1.next (a := .entry (.memMap 0 (shareAddr 0) 0 farAddr pteD)) hperm
    (happens_memMap (k := k) hcur (hill 0 (by decide)) hillfar hlook1 hr2)
  -- the TLB is filled from it
  have hrefill := h2.refill_far hdir2 htr2 (k.envs 0).asid
  rw [← h.curPgdir] at hrefill
  have hk3 := hk2.next (a := .refill farAddr) (fun e _ => Or.inl (by decide))
    (Happens.refill (k := { k with pm := s2 }) hcur hrefill)
  have hfar3 : FarEntry d p (k.envs 0).asid (s2.tlbWrite (k.envs 0).asid farAddr (mkPte p pteD)) :=
    ⟨hdir2, by simp [PhysMem.tlbWrite]⟩
  -- the page table is freed
  have hslot3 : ∀ j < 2, (s2.tlbWrite (k.envs 0).asid farAddr (mkPte p pteD)).mem t j =
      mkPte p pteD := fun j hj => (hslot2 j).trans (hslot1 j hj)
  have h3 : FirstTable M d t p (s2.tlbWrite (k.envs 0).asid farAddr (mkPte p pteD)) := h2.congr rfl
  have href3 : (s2.tlbWrite (k.envs 0).asid farAddr (mkPte p pteD)).ppRef p = 2 := href2
  obtain ⟨s4, hr4, h4, hmem4, href4, -, htlb4⟩ := h3.unmap (by decide : 0 < 3)
    (hslot3 0 (by decide)) (by rw [href3]; decide) hasid
  rw [← h.dir] at hr4
  have hk4 := hk3.next (a := .entry (.memUnmap 0 (shareAddr 0))) trivial
    (happens_memUnmap (k := k) hcur (hill 0 (by decide)) hr4)
  have hone4 : s4.ppRef p = 1 := href4.trans (congrArg (· - 1) href3)
  have hfar4 : FarEntry d p (k.envs 0).asid s4 :=
    hfar3.congr (by rw [hmem4, write_of_ne_page h0.table_ne_dir.symm]) htlb4
  obtain ⟨s5, hr5, h5, hmem5, -, hfree5, htlb5⟩ := h4.unmap (by decide : 1 < 3)
    (by rw [hmem4, write_of_ne_slot (by decide), hslot3 1 (by decide)])
    (by rw [hone4]; decide) hasid
  rw [← h.dir] at hr5
  have hk5 := hk4.next (a := .entry (.memUnmap 0 (shareAddr 1))) trivial
    (happens_memUnmap (k := k) hcur (hill 1 (by decide)) hr5)
  have hfar5 : FarEntry d p (k.envs 0).asid s5 :=
    hfar4.congr (by rw [hmem5, write_of_ne_page h0.table_ne_dir.symm]) htlb5
  -- and allocated again
  obtain ⟨s6, hr6, htlb6, htr6⟩ := h5.alloc_stale hfar5
    (by rw [hmem5, write_of_ne_slot (by decide), hmem4, write_same]) hasid _
  rw [← h.dir] at hr6 htr6
  have hk6 := hk5.next (a := .entry (.memAlloc 0 (shareAddr 0) pteD)) hperm
    (happens_memAlloc (k := k) hcur (hill 0 (by decide))
      (pageAlloc_cons (hfree5 hone4) h0.page_lt) hr6)
  exact ⟨_, hk6, h.inUse, ⟨_, htlb6, Or.inl rfl⟩, htr6⟩

/-- The events of the run are permitted. -/
lemma share_permitted (t : ℕ) (k : Kern) : (shareEvents t).Permitted k := by
  unfold shareEvents shareEntries
  split_ifs with h2 h2
  · interval_cases t
    · intro image himage
      obtain rfl := Option.mem_some_iff.mp himage
      exact ⟨fun c hc => absurd hc List.not_mem_nil, fun c hc => absurd hc List.not_mem_nil⟩
    · exact trivial
  · exact ⟨by decide, by decide⟩
  · exact ⟨by decide, by decide⟩

/-- One environment makes the TLB stale: it maps a page at 65537 addresses, so that the page is freed
while it is mapped, has it made a page table, and has that freed and cleared. -/
theorem not_tlbCoherent_of_run : ¬ ∀ (M : Machine) (mem : Store Word) (pm₀ : PhysMem)
    (ktf : Trapframe) (n : ℕ) (σ : ℕ → Kern) (ev : ℕ → Event), M.BootLayout →
      pageInit M mem = .ok pm₀ → envInit M pm₀ ktf = .ok (σ 0) → EventRun M n σ ev →
      (∀ t < n, (ev t).Permitted (σ t)) → ∀ t ≤ n, ∀ e va w, ((σ t).envs e).status ≠ .free →
        (σ t).pm.TlbHit ((σ t).envs e).asid va w →
          translate (σ t).pm ((σ t).envs e).pgdir va = some w := by
  intro h
  obtain ⟨D, K, pp, hall⟩ := shareRun_shares
  obtain ⟨hshares, hrun⟩ := hall 65536 (by decide)
  have hreached : Reached bootMachine (shareRun 0) (shareRun (65536 + 3)) :=
    ⟨_, _, _, rfl, hrun, fun t _ => share_permitted t _, rfl⟩
  obtain ⟨k', ⟨n, σ, ev, h0, hrun', hperm, rfl⟩, hlive, hhit, hnone⟩ := hshares.stale hreached
  have hboot : envInit bootMachine booted.pm₀ Env.zero.tf = .ok (σ 0) := h0 ▸ booted.envInit_eq
  have hsome := h bootMachine _ booted.pm₀ Env.zero.tf n σ ev bootMachine_layout
    booted.pageInit_eq hboot hrun' hperm n le_rfl 0 farAddr _ hlive hhit
  rw [hnone] at hsome
  simp at hsome

/-- The first environment allocates a page and uses it: the TLB has its translation. -/
theorem tlbCoherent_of_run_refill : ∃ σ ev, EventRun bootMachine 4 σ ev ∧
    ev 3 = .refill (shareAddr 0) ∧ ∀ t ≤ 4, ∀ e va w, ((σ t).envs e).status ≠ .free →
      (σ t).pm.TlbHit ((σ t).envs e).asid va w →
        translate (σ t).pm ((σ t).envs e).pgdir va = some w := by
  obtain ⟨D, K, pp, hall⟩ := shareRun_shares
  obtain ⟨hshares, hrun⟩ := hall 0 (by decide)
  obtain ⟨D', K', hspaces⟩ := runSpaces_of_run bootMachine_layout booted.pageInit_eq
    booted.envInit_eq shareRun_first share_keepsCounts 2 le_rfl
  have halloc : (shareEvents 2).KeepsCounts bootMachine (shareRun 2) :=
    hspaces.keepsCounts_memAlloc (by decide) 0 (shareAddr 0)
  have hlook := hshares.pages.pageLookup_eq hshares.mem
    (pdx_of_legal (shareAddr_legal (l := 0) (by decide)))
  rw [hshares.mapped 0 le_rfl] at hlook
  have hrefill := refillsTo_mapped ((shareRun 3).envs 0).asid hlook
  rw [← hshares.curPgdir] at hrefill
  have hrun4 := hrun.snoc (Happens.refill (k := shareRun 3) hshares.cur hrefill)
  refine ⟨_, _, hrun4, Function.update_self .., ?_⟩
  refine tlbCoherent_of_run bootMachine_layout booted.pageInit_eq
    (by rw [Function.update_of_ne (by decide)]; exact booted.envInit_eq) hrun4 (fun t ht => ?_)
    fun t ht => ?_
  · rcases Nat.lt_succ_iff_lt_or_eq.mp ht with ht | rfl
    · rw [Function.update_of_ne (show t ≠ 0 + 3 by omega)]
      exact share_permitted t _
    · rw [Function.update_self]
      exact fun e _ => Or.inl (by decide)
  · rw [Function.update_of_ne (show t ≠ 0 + 3 + 1 by omega)]
    rcases Nat.lt_succ_iff_lt_or_eq.mp ht with ht | rfl
    · rw [Function.update_of_ne (show t ≠ 0 + 3 by omega)]
      rcases Nat.lt_succ_iff_lt_or_eq.mp ht with ht | rfl
      · exact (share_keepsCounts t ht).room
      · exact halloc.room
    · rw [Function.update_self]
      exact trivial

end MosVolca
