import MosVolca.Kern.RefCounts

/-!
# A page at 65536 addresses

One environment maps a page that it has allocated again and again. Each call returns 0, and after
65536 mappings the count of the page is 0.

## Main definitions

* `MosVolca.Shares` — the state after some mappings.
* `MosVolca.shareRun` — the run.

## Main results

* `MosVolca.Shares.next` — one more mapping.
* `MosVolca.not_refCount_of_run` — the count wraps.
-/

namespace MosVolca

open TwoLevel

variable {M : Machine} {k k' : Kern} {s s' : PhysMem} {D K H : Finset ℕ} {d p pp i j n t : ℕ}
  {e : EnvPtr} {a : Entry} {o : Option Word} {asid envid r va perm w : Word}

/-! ## The mappings -/

/-- The addresses. -/
def shareAddr (l : ℕ) : Word := 0x400000#32 + BitVec.ofNat 32 (l * 4096)

lemma shareAddr_toNat {l : ℕ} (hl : l < 65537) : (shareAddr l).toNat = 0x400000 + l * 4096 := by
  rw [shareAddr, BitVec.toNat_add, BitVec.toNat_ofNat, BitVec.toNat_ofNat]
  omega

lemma shareAddr_legal {l : ℕ} (hl : l < 65537) : isIllegalVa (shareAddr l) = false := by
  have h := shareAddr_toNat hl
  have h1 := utemp_toNat
  have h2 := utop_toNat
  simp only [isIllegalVa, Bool.or_eq_false_iff, decide_eq_false_iff_not]
  refine ⟨BitVec.not_lt.mpr ?_, BitVec.not_le.mpr ?_⟩
  · rw [BitVec.le_def]
    omega
  · rw [BitVec.lt_def]
    omega

lemma pdx_shareAddr {l : ℕ} (hl : l < 65537) : pdx (shareAddr l) = 1 + l / 1024 := by
  rw [pdx_eq, shareAddr_toNat hl]
  omega

lemma vpn_shareAddr {l : ℕ} (hl : l < 65537) : vpn (shareAddr l) = 1024 + l := by
  rw [vpn_eq_div, shareAddr_toNat hl]
  omega

/-- An address whose page table is not needed. -/
def farAddr : Word := 0x20000000

/-- The current environment has mapped the page `pp` at the first `j + 1` addresses. -/
structure Shares (M : Machine) (D K : Finset ℕ) (d pp j : ℕ) (k : Kern) : Prop where
  cur : k.curenv = some 0
  curPgdir : k.curPgdir = d
  asid : (k.envs 0).asid.toNat < nasid
  inUse : (k.envs 0).status ≠ .free
  dir : (k.envs 0).pgdir = d
  mem : d ∈ D
  page : pp < M.npage
  pages : UserAccounting M k.pm D K ∅
  refs : pageRefs k.pm D pp = j + 1
  mapped : ∀ l ≤ j, translate k.pm d (shareAddr l) = some (mkPte pp pteD)
  unmapped : ∀ l, j < l → l < 65537 → translate k.pm d (shareAddr l) = none
  tables : ∀ l ≤ j, pteValid (k.pm.mem d (pdx (shareAddr l))) = true
  free : 65 ≤ k.pm.pageFreeList.length + j / 1024
  far : pteValid (k.pm.mem d (pdx farAddr)) = false

/-- The count of the page is the number of the mappings modulo 2^16. -/
lemma Shares.ppRef_eq (h : Shares M D K d pp j k) : k.pm.ppRef pp = BitVec.ofNat 16 (j + 1) := by
  have hi : pdx (shareAddr 0) < pdx utop := pdx_of_legal (shareAddr_legal (by decide))
  have hleaf := leaf_of_translate (n := pdx utop) h.mem hi (h.mapped 0 (Nat.zero_le j))
  rw [ppn_mkPte_of_lt (h.page.trans M.npage_lt) (by decide)] at hleaf
  rw [h.pages.ref pp ⟨h.pages.leaf_ge pp hleaf, h.page⟩
    (h.pages.insertable_of_leaf hleaf).not_kept]
  exact congrArg (BitVec.ofNat 16) h.refs

/-- `page_insert` with a table or without: what becomes of the directory and the free pages. -/
lemma Accounting.pageInsert_tables (h : Accounting M n s D K H) (hd : d ∈ D) (hi : pdx va < n)
    (hnone : translate s d va = none)
    (hr : pageInsert M s d asid pp va perm = .ok (0, s')) :
    (∀ i, pteValid (s.mem d i) = true → pteValid (s'.mem d i) = true) ∧
      pteValid (s'.mem d (pdx va)) = true ∧
      s.pageFreeList.length ≤
        s'.pageFreeList.length + if pteValid (s.mem d (pdx va)) = true then 0 else 1 := by
  refine ⟨fun i hv => ?_, (h.pageInsert_table hd hi hr).1, ?_⟩
  · rw [(h.pageInsert_mem hd hi hr).1 d hd i ?_]
    · exact hv
    · rintro ⟨-, rfl, hv'⟩
      exact Bool.false_ne_true (hv'.symm.trans hv)
  · by_cases hv : pteValid (s.mem d (pdx va)) = true
    · have hfree := h.pageInsert_pageFreeList hd hi hv (fun w hw => by
        rw [hnone] at hw
        exact absurd hw (by simp)) hr
      rw [if_pos hv, hfree, Nat.add_zero]
    · obtain ⟨q, rest, hf, hrest, -⟩ := h.pageInsert_newTable hd (Bool.eq_false_iff.mpr hv) hr
      rw [if_neg hv, hf, hrest, List.length_cons]

/-- The page is mapped at the next address. -/
lemma Shares.next {j : ℕ} (h : Shares M D K d pp j k) (hj : j + 1 < 65537) :
    ∃ k', enter M k (.memMap 0 (shareAddr 0) 0 (shareAddr (j + 1)) pteD) = .ok (some 0, k') ∧
      Shares M D K d pp (j + 1) k' := by
  have hlt0 : 0 < 65537 := by decide
  have hi : ∀ l, l < 65537 → pdx (shareAddr l) < pdx utop := fun l hl =>
    pdx_of_legal (shareAddr_legal hl)
  have h0 := h.mapped 0 (Nat.zero_le j)
  have hleaf := leaf_of_translate (n := pdx utop) h.mem (hi 0 hlt0) h0
  have hfr : ppn (mkPte pp pteD) = pp := ppn_mkPte_of_lt (h.page.trans M.npage_lt) (by decide)
  rw [hfr] at hleaf
  have hins := h.pages.insertable_of_leaf hleaf
  have hnone := h.unmapped (j + 1) (Nat.lt_succ_self j) hj
  obtain ⟨pte, hlook⟩ : ∃ pte, pageLookup M k.pm d (shareAddr 0) = .ok (some (pp, pte)) := by
    rw [h.pages.pageLookup_eq h.mem (hi 0 hlt0), h0, Option.map_some, hfr]
    exact ⟨_, rfl⟩
  obtain ⟨-, hnil, -⟩ | ⟨-, s', hr⟩ := h.pages.pageInsert_returns (k.envs 0).asid pp pteD h.mem
    (hi (j + 1) hj) fun w hw => by
      rw [hnone] at hw
      exact absurd hw (by simp)
  · have hfree := h.free
    rw [hnil, List.length_nil] at hfree
    omega
  obtain ⟨hacc, hself, -⟩ := h.pages.afterInsert h.mem (hi (j + 1) hj) hins
    (h.pages.leaf_ge pp hleaf) hfr (fun w hw => by
      rw [hnone] at hw
      exact absurd hw (by simp)) hr
  have htr := fun l hl => h.pages.translate_pageInsert h.mem (hi (j + 1) hj) hr h.mem (hi l hl)
  obtain ⟨hkeep, hnew, hlen⟩ := h.pages.pageInsert_tables h.mem (hi (j + 1) hj) hnone hr
  have hid : envid2env k 0 true = .ok (.ok (some 0)) := by
    rw [envid2env, if_pos rfl, h.cur]
    rfl
  rw [← h.dir] at hlook hr
  refine ⟨{ k with pm := s' }, ?_, h.cur, h.curPgdir, h.asid, h.inUse, h.dir, h.mem, h.page, ?_,
    ?_, ?_, ?_, ?_, ?_, ?_⟩
  · change returning (sysMemMap M k 0 (shareAddr 0) 0 (shareAddr (j + 1)) pteD) = _
    rw [sysMemMap_own h.cur hid (shareAddr_legal hlt0) (shareAddr_legal hj) hlook, hr]
    rfl
  · rwa [Finset.erase_empty] at hacc
  · change pageRefs s' D pp = _
    rw [hself, hnone, h.refs, Option.map_none, if_neg (by simp)]
  · intro l hl
    change translate s' d _ = _
    rw [htr l (by omega), vpn_shareAddr (by omega), vpn_shareAddr hj]
    split_ifs with hc
    · rfl
    · exact h.mapped l (by omega)
  · intro l hl hl'
    change translate s' d _ = _
    rw [htr l hl', vpn_shareAddr hl', vpn_shareAddr hj, if_neg (by omega)]
    exact h.unmapped l (by omega) hl'
  · intro l hl
    rcases hl.eq_or_lt with rfl | hlt
    · exact hnew
    · exact hkeep _ (h.tables l (by omega))
  · change 65 ≤ s'.pageFreeList.length + (j + 1) / 1024
    have hfree := h.free
    split_ifs at hlen with hv
    · omega
    · -- a table is missing at every 1024th address only
      have hdiv : (j + 1) / 1024 = j / 1024 + 1 := by
        by_contra hne
        apply hv
        rw [pdx_shareAddr hj, show (j + 1) / 1024 = j / 1024 by omega,
          ← pdx_shareAddr (l := j) (by omega)]
        exact h.tables j le_rfl
      omega
  · change pteValid (s'.mem d (pdx farAddr)) = false
    rw [h.dir] at hr
    rw [(h.pages.pageInsert_mem h.mem (hi (j + 1) hj) hr).1 d h.mem _ ?_]
    · exact h.far
    · rintro ⟨-, hfar, -⟩
      have hpdx : pdx farAddr = 128 := by decide
      rw [hpdx, pdx_shareAddr hj] at hfar
      omega

/-- The first environment is created; it allocates a page and maps it again and again. -/
def shareEntries (t : ℕ) : Entry :=
  if t < 2 then queueEntries t
  else if t = 2 then .memAlloc 0 (shareAddr 0) pteD
  else .memMap 0 (shareAddr 0) 0 (shareAddr (t - 2)) pteD

noncomputable def shareRun : ℕ → Kern
  | 0 => queueRun 0
  | t + 1 => after bootMachine (shareRun t) (shareEntries t)

/-- What happens in the run. -/
def shareEvents (t : ℕ) : Event := .entry (shareEntries t)

/-- An entry that returns is a step of the run. -/
lemma shareRun_step (h : enter bootMachine (shareRun t) (shareEntries t) = .ok (o, k')) :
    Happens bootMachine (shareRun t) (shareEvents t) (shareRun (t + 1)) := by
  have hnext : shareRun (t + 1) = k' := by rw [shareRun, after, h]
  rw [hnext]
  refine @Happens.entry _ _ _ (shareRun t).ktf o _ ?_
  rw [Kern.trap_ktf, h]

/-- The run up to the first mapping. -/
lemma shareRun_first : EventRun bootMachine 2 shareRun shareEvents := by
  have h0 : enter bootMachine (shareRun 0) (shareEntries 0) = .ok (queueResults 0, queueRun 1) :=
    queueRun_create
  have h1 : shareRun 1 = queueRun 1 := by
    rw [shareRun, after, h0]
  intro t ht
  interval_cases t
  · exact shareRun_step h0
  · refine @shareRun_step (queueRun 2) 1 (queueResults 1) ?_
    rw [h1]
    rfl

lemma shareRun_two : shareRun 2 = queueRun 2 := by
  have h0 : enter bootMachine (shareRun 0) (shareEntries 0) = .ok (queueResults 0, queueRun 1) :=
    queueRun_create
  have h1 : shareRun 1 = queueRun 1 := by
    rw [shareRun, after, h0]
  rw [shareRun, h1]
  rfl

/-- An allocated page has no entries. -/
lemma OwnSpaces.keepsCounts_memAlloc (h : OwnSpaces M D K k) (hperm : perm < 4096#32)
    (envid va : Word) : KeepsCounts M k (.memAlloc envid va perm) := by
  refine ⟨fun binary priority hc => by simp at hc, fun e va' pp perm' hint => ?_,
    fun e va' pp perm' hint => ?_⟩
  · cases hint
    rw [KeepsFrame, ppn_of_lt hperm, Nat.or_zero]
  · cases hint with
    | memAlloc he hp =>
      obtain ⟨-, ⟨rest, hf⟩, -⟩ := h.pages.pageAlloc hp
      have h0 := (h.pages.head_free hf).2.2.2
      have hcount : pageRefs k.pm D pp = 0 := h0
      rw [h.pageRefs_eq (Shape.not_node_of_refCount h0)] at hcount
      exact Or.inr (by rw [hcount]; decide)

/-- The first two entries meet the condition. -/
lemma share_keepsCounts : ∀ t < 2, (shareEvents t).KeepsCounts bootMachine (shareRun t) := by
  intro t ht
  interval_cases t
  · refine ⟨fun binary priority hc => ?_, fun e va pp perm hint => ?_, fun e va pp perm hint => ?_⟩
    · obtain ⟨rfl, -⟩ := Entry.envCreate.inj hc
      intro image himage c hc
      obtain rfl := Option.mem_some_iff.mp himage
      exact absurd hc List.not_mem_nil
    · cases hint
    · cases hint
  · refine ⟨fun binary priority hc => ?_, fun e va pp perm hint => ?_, fun e va pp perm hint => ?_⟩
    · exact absurd hc (by simp [shareEntries, queueEntries])
    · cases hint
    · cases hint

/-- The first environment has allocated its page. -/
lemma share_start : ∃ D K pp,
    Happens bootMachine (shareRun 2) (shareEvents 2) (shareRun 3) ∧
      Shares bootMachine D K booted.page0 pp 0 (shareRun 3) := by
  obtain ⟨D, K, h⟩ := runSpaces_of_run bootMachine_layout booted.pageInit_eq booted.envInit_eq
    shareRun_first share_keepsCounts 2 le_rfl
  have hcur : (shareRun 2).curenv = some 0 := by rw [shareRun_two]; rfl
  have hdir : ((shareRun 2).envs 0).pgdir = booted.page0 := by rw [shareRun_two]; rfl
  have hlive := h.cur 0 hcur
  have hd : booted.page0 ∈ D := hdir ▸ h.dir 0 hlive
  obtain ⟨pp, rest, hf⟩ : ∃ pp rest, (shareRun 2).pm.pageFreeList = pp :: rest :=
    ⟨booted.page1, booted.rest, by rw [shareRun_two]; rfl⟩
  have hlen : 15356 ≤ (shareRun 2).pm.pageFreeList.length := by
    rw [shareRun_two]
    exact firstPages_length
  have hempty : ∀ i < pdx utop, pteValid ((shareRun 2).pm.mem booted.page0 i) = false := by
    intro i hi
    rw [shareRun_two]
    change pteValid ((booted.pm.newDir booted.page0 firstPages booted.base).mem booted.page0 i) =
      false
    rw [PhysMem.newDir_mem_user hi, pteValid_zero]
  have hlt := h.pages.free_lt pp (by rw [hf]; exact List.mem_cons_self)
  have halloc := pageAlloc_cons hf hlt
  obtain ⟨h1, -, htr1⟩ := h.pages.pageAlloc halloc
  obtain ⟨s1, hs1⟩ : ∃ s1, s1 = (shareRun 2).pm.takeFree pp rest := ⟨_, rfl⟩
  rw [← hs1] at h1
  have hpmem : pp ∈ insert pp (∅ : Finset ℕ) := Finset.mem_insert_self pp ∅
  have hi : ∀ l, l < 65537 → pdx (shareAddr l) < pdx utop := fun l hl =>
    pdx_of_legal (shareAddr_legal hl)
  have h0 : 0 < 65537 := by decide
  have hnone : ∀ l, l < 65537 → translate s1 booted.page0 (shareAddr l) = none := fun l hl => by
    rw [hs1, htr1 _ hd _ (hi l hl), translate_eq_none_iff]
    intro hv
    rw [hempty _ (hi l hl)] at hv
    exact absurd hv Bool.false_ne_true
  have hlen1 : 15355 ≤ s1.pageFreeList.length := by
    rw [hf, List.length_cons] at hlen
    rw [hs1]
    change 15355 ≤ rest.length
    omega
  obtain ⟨-, hnil, -⟩ | ⟨-, s', hr⟩ := h1.pageInsert_returns ((shareRun 2).envs 0).asid pp pteD hd
    (hi 0 h0) fun w hw => by
      rw [hnone 0 h0] at hw
      exact absurd hw (by simp)
  · rw [hnil] at hlen1
    simp at hlen1
  obtain ⟨hheld, -, hrefs⟩ := h1.held pp hpmem
  have hfr : ppn (mkPte pp pteD) = pp :=
    ppn_mkPte_of_lt (hlt.trans bootMachine.npage_lt) (by decide)
  obtain ⟨hacc, hself, -⟩ := h1.afterInsert hd (hi 0 h0) (h1.insertable_of_held hpmem) hheld.1 hfr
    (fun w hw => by
      rw [hnone 0 h0] at hw
      exact absurd hw (by simp)) hr
  have htr := fun l hl => h1.translate_pageInsert hd (hi 0 h0) hr hd (hi l hl)
  obtain ⟨-, hnew, hlen'⟩ := h1.pageInsert_tables hd (hi 0 h0) (hnone 0 h0) hr
  have hid : envid2env (shareRun 2) 0 true = .ok (.ok (some 0)) := by
    rw [envid2env, if_pos rfl, hcur]
    rfl
  have hrun : enter bootMachine (shareRun 2) (shareEntries 2) =
      .ok (some 0, { shareRun 2 with pm := s' }) := by
    change returning (sysMemAlloc bootMachine (shareRun 2) 0 (shareAddr 0) pteD) = _
    unfold MosVolca.sysMemAlloc
    rw [if_neg (by rw [shareAddr_legal h0]; decide), hid, ok_bind]
    simp only
    rw [halloc, ok_bind, ← hs1]
    simp only [deref, pure_eq_ok, ok_bind, hdir, hr]
    rfl
  have h3 : shareRun 3 = { shareRun 2 with pm := s' } := by rw [shareRun, after, hrun]
  refine ⟨D, K, pp, shareRun_step hrun, ?_⟩
  rw [h3]
  refine ⟨hcur, (h.curDir 0 hcur).trans hdir, h.asid_lt 0 hlive, hlive, hdir, hd, hlt, ?_, ?_, ?_,
    ?_, ?_, ?_, ?_⟩
  · rwa [show (insert pp (∅ : Finset ℕ)).erase pp = ∅ by simp] at hacc
  · change pageRefs s' D pp = 0 + 1
    rw [hself, hnone 0 h0, Option.map_none, if_neg (by simp)]
    exact congrArg (· + 1) hrefs
  · intro l hl
    obtain rfl := Nat.le_zero.mp hl
    change translate s' _ _ = _
    rw [htr 0 h0, if_pos ⟨rfl, rfl⟩]
  · intro l hl hl'
    change translate s' _ _ = _
    rw [htr l hl', vpn_shareAddr hl', vpn_shareAddr h0, if_neg (by omega)]
    exact hnone l hl'
  · intro l hl
    obtain rfl := Nat.le_zero.mp hl
    exact hnew
  · change 65 ≤ s'.pageFreeList.length + 0 / 1024
    split_ifs at hlen' <;> omega
  · have hfar : pdx farAddr < pdx utop := by decide
    change pteValid (s'.mem booted.page0 (pdx farAddr)) = false
    rw [(h1.pageInsert_mem hd (hi 0 h0) hr).1 _ hd _ fun hc => absurd hc.2.1 (by decide), hs1]
    rw [PhysMem.takeFree_mem, fill_of_ne ?_, hempty _ hfar]
    rintro rfl
    exact Shape.not_node_of_refCount (h.pages.head_free hf).2.2.2 (Shape.Node.of_mem hd)

/-- The page is mapped at one more address by each entry from the third on. -/
lemma shareRun_shares : ∃ D K pp, ∀ j < 65537,
    Shares bootMachine D K booted.page0 pp j (shareRun (j + 3)) ∧
      EventRun bootMachine (j + 3) shareRun shareEvents := by
  obtain ⟨D, K, pp, hret, hstart⟩ := share_start
  refine ⟨D, K, pp, fun j hj => ?_⟩
  induction j with
  | zero =>
    refine ⟨hstart, fun t ht => ?_⟩
    rcases Nat.lt_succ_iff_lt_or_eq.mp ht with ht | rfl
    · exact shareRun_first t ht
    · exact hret
  | succ j ih =>
    obtain ⟨hshares, hsteps⟩ := ih (by omega)
    obtain ⟨k', henter, hnext⟩ := hshares.next hj
    have hentry : shareEntries (j + 3) = .memMap 0 (shareAddr 0) 0 (shareAddr (j + 1)) pteD := by
      rw [shareEntries, if_neg (by omega), if_neg (by omega), show j + 3 - 2 = j + 1 by omega]
    rw [← hentry] at henter
    have hrun : shareRun (j + 1 + 3) = k' := by
      change after bootMachine (shareRun (j + 3)) (shareEntries (j + 3)) = k'
      rw [after, henter]
    refine ⟨hrun ▸ hnext, fun t ht => ?_⟩
    rcases Nat.lt_succ_iff_lt_or_eq.mp ht with ht | rfl
    · exact hsteps t ht
    · exact shareRun_step henter

/-- A page that an environment in use maps has an entry. -/
lemma pteCount_pos (he : (k.envs e).status ≠ .free) (hi : pdx va < pdx utop)
    (hw : translate k.pm (k.envs e).pgdir va = some w) : 0 < pteCount k (ppn w) := by
  refine Finset.sum_pos_iff.mpr ⟨e, mem_liveEnvs.mpr he, ?_⟩
  have hi' : pdx va < 1024 := hi.trans (by decide)
  have hmap : (translate k.pm (k.envs e).pgdir (entryAddr (pdx va) (ptx va))).map ppn =
      some (ppn w) := by
    rw [translate_entryAddr hi' (ptx_lt va), ← translate_eq (pdx utop), hw, Option.map_some]
  rw [dirPtes_eq_sum, Finset.sum_pos_iff]
  refine ⟨pdx va, Finset.mem_range.mpr hi, Finset.sum_pos_iff.mpr ⟨ptx va, ?_, ?_⟩⟩
  · exact Finset.mem_range.mpr (ptx_lt va)
  · rw [if_pos hmap]
    exact Nat.one_pos

/-- One environment wraps the count: it allocates a page and maps it at 65535 more addresses, and
`pp_ref` of the page is 0. -/
theorem not_refCount_of_run : ¬ ∀ (M : Machine) (mem : Store Word) (pm₀ : PhysMem) (ktf : Trapframe)
    (n : ℕ) (σ : ℕ → Kern) (ev : ℕ → Event), M.BootLayout → pageInit M mem = .ok pm₀ →
      envInit M pm₀ ktf = .ok (σ 0) → EventRun M n σ ev → ∀ t ≤ n, ∀ p, 0 < pteCount (σ t) p →
        ((σ t).pm.ppRef p).toNat = pteCount (σ t) p ∧ p ∉ (σ t).pm.pageFreeList := by
  intro h
  obtain ⟨D, K, pp, hall⟩ := shareRun_shares
  obtain ⟨hshares, hrun⟩ := hall 65535 (by decide)
  have hi : pdx (shareAddr 0) < pdx utop := pdx_of_legal (shareAddr_legal (by decide))
  have h0 := hshares.mapped 0 (Nat.zero_le _)
  have hfr : ppn (mkPte pp pteD) = pp :=
    ppn_mkPte_of_lt (hshares.page.trans bootMachine.npage_lt) (by decide)
  have hleaf := leaf_of_translate (n := pdx utop) hshares.mem hi h0
  rw [hfr] at hleaf
  have hpos := pteCount_pos hshares.inUse hi (hshares.dir ▸ h0)
  rw [hfr] at hpos
  have hcount := (h bootMachine _ booted.pm₀ Env.zero.tf _ shareRun shareEvents
    bootMachine_layout booted.pageInit_eq booted.envInit_eq hrun _ le_rfl pp hpos).1
  have hzero : (shareRun (65535 + 3)).pm.ppRef pp = 0#16 := by
    rw [hshares.ppRef_eq]
    rfl
  rw [hzero] at hcount
  exact absurd hcount hpos.ne

/-- The first environment allocates a page: the counts are those of the entries. -/
theorem refCount_of_shareRun : EventRun bootMachine 3 shareRun shareEvents ∧
    ∀ t ≤ 3, ∀ p, 0 < pteCount (shareRun t) p →
      ((shareRun t).pm.ppRef p).toNat = pteCount (shareRun t) p ∧
        p ∉ (shareRun t).pm.pageFreeList := by
  obtain ⟨D, K, pp, hall⟩ := shareRun_shares
  obtain ⟨-, hrun⟩ := hall 0 (by decide)
  refine ⟨hrun, refCount_of_run bootMachine_layout booted.pageInit_eq booted.envInit_eq hrun
    fun t ht => ?_⟩
  rcases Nat.lt_succ_iff_lt_or_eq.mp ht with ht | rfl
  · exact share_keepsCounts t ht
  · obtain ⟨D', K', h⟩ := runSpaces_of_run bootMachine_layout booted.pageInit_eq booted.envInit_eq
      shareRun_first share_keepsCounts 2 le_rfl
    exact h.keepsCounts_memAlloc (by decide) 0 (shareAddr 0)

end MosVolca
