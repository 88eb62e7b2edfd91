import MosVolca.Kern.PageRun
import MosVolca.Kern.Spaces

/-!
# Boot

`env_init` on the memory that `page_init` leaves: it returns, and the template page directory it
makes maps the arrays `pages` and `envs` and nothing else. The pages it takes stay with the
kernel, so the state satisfies the page-accounting invariant with no page directory.

## Main definitions

* `MosVolca.Machine.BootLayout` — the arrays `pages` and `envs` lie below `freemem`.
* `MosVolca.Template` — the template page directory and its page tables.

## Main results

* `MosVolca.mapSegment_returns` — `map_segment` for a segment of boot memory.
* `MosVolca.envInit_returns` — `env_init` returns with accounted memory.
-/

namespace MosVolca

open TwoLevel

variable {M : Machine} {s s₀ s' : PhysMem} {D K H : Finset ℕ} {base d i j n pp : ℕ}
  {asid pa va size perm w : Word} {ktf : Trapframe}

/-- The size of the array `pages`, in whole pages, and that of `envs`. -/
def Machine.pagesSize (M : Machine) : Word :=
  roundUp (BitVec.ofNat 32 M.npage * sizeofPage) 4096

def envsSize : Word := roundUp (BitVec.ofNat 32 nenv * sizeofEnv) 4096

/-- What `mips_vm_init` and the linker script provide: `pages` and `envs` are aligned, lie below
`freemem` and fit in their windows, and there is memory above `freemem`. -/
structure Machine.BootLayout (M : Machine) : Prop where
  freemem : ulim ≤ roundUp M.freemem 4096
  free : M.bootPages < M.npage
  pages_aligned : M.pages % 4096 = 0
  envs_aligned : M.envs % 4096 = 0
  size_aligned : M.pagesSize % 4096 = 0
  pages_fit : (M.pagesSize / 4096).toNat ≤ 1024
  pages_lt : ppn M.pages + (M.pagesSize / 4096).toNat ≤ M.bootPages
  envs_lt : ppn M.envs + (envsSize / 4096).toNat ≤ M.bootPages

/-! ## `map_segment` -/

/-- The address of page `i` of a segment. -/
def segAddr (a : Word) (i : ℕ) : Word := a + BitVec.ofNat 32 (i * 4096)

lemma segAddr_toNat (h : a.toNat + i * 4096 < 2 ^ 32) :
    (segAddr a i).toNat = a.toNat + i * 4096 := by
  rw [segAddr, BitVec.toNat_add, BitVec.toNat_ofNat]
  omega

lemma ppn_segAddr (hn : ppn pa + i < 2 ^ 20) (ha : pa % 4096 = 0) :
    ppn (segAddr pa i) = ppn pa + i := by
  have hmod : pa.toNat % 4096 = 0 := by
    have := congrArg BitVec.toNat ha
    simpa [BitVec.toNat_umod] using this
  rw [ppn_eq] at hn
  rw [ppn_eq, ppn_eq, segAddr_toNat (by omega)]
  omega

/-- A window of 4 MB is one directory entry. -/
lemma pdx_segAddr (hva : va.toNat % 2 ^ 22 = 0) (hi : i < 1024) :
    pdx (segAddr va i) = pdx va ∧ ptx (segAddr va i) = i := by
  have := va.isLt
  rw [pdx_eq, pdx_eq, ptx_eq, segAddr_toNat (by omega)]
  omega

/-- The state of `map_segment` before round `i`: the rest of the window is not mapped, and nothing
else has changed in the page directory. -/
structure Segment (M : Machine) (s₀ : PhysMem) (base : ℕ) (va : Word) (i : ℕ) (s : PhysMem) :
    Prop where
  accounting : Accounting M 1024 s {base} ∅ ∅
  boot : ∀ p, (tableShape 1024).Leaf s.mem {base} p → p < M.bootPages
  rest : ∀ j, i ≤ j → j < 1024 → translate s base (segAddr va j) = none
  dir : ∀ x, x ≠ pdx va → s.mem base x = s₀.mem base x
  tlb : s.tlb = fun _ _ => none
  pde : ∀ x, pteValid (s.mem base x) = true → ∃ q, s.mem base x = mkPde q

lemma tlbOut_empty (h : s.tlb = fun _ _ => none) (w : Word) : (tlbOut s w).tlb = fun _ _ => none := by
  funext a v
  simp only [tlbOut, h]

/-- Pages below `freemem` are not accounted for, so they may be mapped. -/
lemma Accounting.insertable_boot (h : Accounting M n s {base} ∅ ∅) (hb : M.bootPages ≤ base)
    (hlt : M.bootPages ≤ M.npage) (hpp : pp < M.bootPages) : Insertable M n s {base} ∅ pp := by
  refine ⟨hpp.trans_le hlt, fun hf => ?_, by simp, ?_⟩
  · have := ((h.free_mem pp).mp hf).1.1
    omega
  · rintro (hn | ⟨d, hd, x, hx, hv, he⟩)
    · rw [Finset.mem_singleton.mp hn] at hpp
      omega
    · have := h.table_ge d hd x hx hv
      rw [tableShape_frame] at he
      omega

/-- A round of `map_segment`: the page is mapped, or there was no memory for a page table. -/
lemma Segment.round (h : Segment M s₀ base va i s) (hb : M.bootPages ≤ base)
    (hlt : M.bootPages ≤ M.npage) (hva : va.toNat % 2 ^ 22 = 0) (hi : i < 1024)
    (hpp : pp < M.bootPages) (hperm : perm < 4096#32) :
    ∃ r s', pageInsert M s base 0 pp (segAddr va i) perm = .ok (r, s') ∧
      Segment M s₀ base va (i + 1) s' := by
  obtain ⟨hpdx, hptx⟩ := pdx_segAddr hva hi
  have hd : base ∈ ({base} : Finset ℕ) := Finset.mem_singleton_self base
  have hlt1 : pdx (segAddr va i) < 1024 := pdx_lt _
  have hnone := h.rest i le_rfl hi
  rcases h.accounting.pageInsert_returns 0 pp perm hd hlt1
    (fun w hw => by rw [hnone] at hw; simp at hw) with ⟨-, -, hr⟩ | ⟨-, s', hr⟩
  · exact ⟨_, _, hr, h.accounting.tlbInvalidate _ _, h.boot, fun j hj => h.rest j (by omega),
      h.dir, tlbOut_empty h.tlb _, h.pde⟩
  · have hins := h.accounting.insertable_boot hb hlt hpp
    have hfr : ppn (mkPte pp perm) = pp := ppn_mkPte_of_lt (hins.lt.trans M.npage_lt) hperm
    have hinst : pageInstall M s base 0 pp (segAddr va i) perm = .ok (0, s') := by
      rwa [pageInsert_unmapped fun hv =>
        ⟨h.accounting.table_lt hd hlt1 hv, translate_eq_none_iff.mp hnone hv⟩] at hr
    obtain ⟨hacc, -, -, hleaf⟩ := h.accounting.afterInstall hd hlt1 hins hfr hnone hinst
    refine ⟨0, s', hr, by simpa using hacc, fun p hl => ?_, fun j hij hj => ?_, fun x hx => ?_, ?_,
      fun x hv => ?_⟩
    · rcases hleaf p hl with hl | rfl
      · exact h.boot p hl
      · exact hpp
    · rw [h.accounting.translate_pageInsert hd hlt1 hr hd (pdx_lt _), if_neg ?_]
      · exact h.rest j (by omega) hj
      · rintro ⟨-, hv⟩
        have hj' := (pdx_segAddr hva hj).2
        have := ((vpn_eq_vpn_iff _ _).mp hv).2
        omega
    · rw [← h.dir x hx]
      exact (h.accounting.pageInsert_mem hd hlt1 hr).1 base hd x
        fun hc => hx (hc.2.1.trans hpdx)
    · rcases pageInstall_cases h.accounting.free_lt hinst with
        ⟨-, -, -, rfl⟩ | ⟨q, rest, -, -, -, rfl⟩ | ⟨-, -, -, rfl⟩
      · exact tlbOut_empty h.tlb _
      · exact tlbOut_empty h.tlb _
      · exact tlbOut_empty h.tlb _
    · by_cases hnew : x = pdx (segAddr va i) ∧ pteValid (s.mem base x) = false
      · obtain ⟨rfl, hinv⟩ := hnew
        obtain ⟨q, -, -, -, hq⟩ := h.accounting.pageInsert_newTable hd hinv hr
        exact ⟨q, hq⟩
      · rw [(h.accounting.pageInsert_mem hd hlt1 hr).1 base hd x fun hc => hnew hc.2] at hv ⊢
        exact h.pde x hv

/-- **`map_segment` returns** for a segment of pages below `freemem` in a window that is not
mapped. -/
lemma mapSegment_returns (h : Segment M s₀ base va 0 s) (hb : M.bootPages ≤ base)
    (hlt : M.bootPages ≤ M.npage) (hva : va.toNat % 2 ^ 22 = 0) (hpa : pa % 4096 = 0)
    (hsize : size % 4096 = 0) (hfit : (size / 4096).toNat ≤ 1024)
    (hboot : ppn pa + (size / 4096).toNat ≤ M.bootPages) (hperm : perm < 4096#32) :
    ∃ s', mapSegment M s base 0 pa va size perm = .ok s' ∧
      Segment M s₀ base va (size / 4096).toNat s' := by
  have hva' : va % 4096 = 0 := by
    apply BitVec.eq_of_toNat_eq
    have h4096 : (4096 : Word).toNat = 4096 := rfl
    rw [BitVec.toNat_umod, h4096]
    change va.toNat % 4096 = 0
    omega
  unfold mapSegment
  rw [if_neg (not_not.mpr hpa), if_neg (not_not.mpr hva'), if_neg (not_not.mpr hsize)]
  refine foldlM_range_returns (P := Segment M s₀ base va) (fun i hi s hs => ?_) h
  have hnp := M.npage_lt
  have hppn : ppn (segAddr pa i) = ppn pa + i := ppn_segAddr (by omega) hpa
  obtain ⟨r, s', hr, hs'⟩ := hs.round hb hlt hva (hi.trans_le hfit)
    (by rw [hppn]; omega : ppn (segAddr pa i) < M.bootPages) hperm
  refine ⟨s', ?_, hs'⟩
  change (pa2page M (segAddr pa i) >>= fun pp =>
    pageInsert M s base 0 pp (segAddr va i) perm >>= fun x => pure x.2) = _
  rw [pa2page_of_lt (by rw [hppn]; omega), ok_bind, hr, ok_bind]
  rfl

/-! ## `env_init` -/

/-- The invariant without page directories does not depend on how many entries they own. -/
lemma Accounting.of_empty {m : ℕ} (h : Accounting M n s ∅ K H) : Accounting M m s ∅ K H where
  owned := fun p hp => by rcases hp with hp | ⟨d, hd, -⟩ <;> simp_all
  lt p hp := by simp [Shape.refCount] at hp
  table_ge d hd := by simp at hd
  ref := h.ref
  free_nodup := h.free_nodup
  free_mem := h.free_mem
  held := h.held
  kept := h.kept

/-- The pages that are referenced, from now on kept by the kernel. -/
def keptPages (M : Machine) (n : ℕ) (s : PhysMem) (D : Finset ℕ) : Finset ℕ :=
  (Finset.range M.npage).filter fun p =>
    M.bootPages ≤ p ∧ 0 < (tableShape n).refCount s.mem D p

lemma mem_keptPages {p : ℕ} :
    p ∈ keptPages M n s D ↔ M.Tracked p ∧ 0 < (tableShape n).refCount s.mem D p := by
  rw [keptPages, Finset.mem_filter, Finset.mem_range, Machine.Tracked]
  tauto

/-- Page directories that are not looked at any more keep their pages. -/
lemma Accounting.retire (h : Accounting M n s D ∅ ∅) :
    PageAccounting M s ∅ (keptPages M n s D) ∅ := by
  have hzero : ∀ p, (tableShape (pdx utop)).refCount s.mem ∅ p = 0 := fun p => by
    simp [Shape.refCount]
  refine ⟨⟨⟨fun p hp => ?_, fun p hp => ?_, by simp, fun p hp hk => ?_, h.free_nodup, fun p => ?_,
    by simp, fun p _ => hzero p⟩, fun p hl => ?_⟩, fun p _ => ?_⟩
  · rcases hp with hp | ⟨d, hd, -⟩ <;> simp_all
  · rw [hzero] at hp
    exact absurd hp (lt_irrefl 0)
  · have h0 : (tableShape n).refCount s.mem D p = 0 := by
      by_contra hne
      exact hk (mem_keptPages.mpr ⟨hp, Nat.pos_of_ne_zero hne⟩)
    rw [h.ref p hp (by simp), h0, hzero]
  · rw [h.free_mem p, mem_keptPages, hzero]
    simp only [Finset.notMem_empty, not_false_eq_true, true_and, and_true, not_and, not_lt,
      Nat.le_zero]
    tauto
  · obtain ⟨d, hd, -⟩ := hl
    simp at hd
  · rw [hzero]
    decide

/-- After a page allocation at boot: an empty page directory. -/
lemma Accounting.newDir (h : Accounting M n s ∅ ∅ ∅) {rest : List ℕ}
    (hf : s.pageFreeList = base :: rest) :
    Accounting M n ((s.takeFree base rest).incRef base) {base} ∅ ∅ := by
  have h1 := (h.takeFree hf).addDir (q := base) (Finset.mem_insert_self base ∅)
    fun i _ => by rw [PhysMem.takeFree_mem, fill_same, pteValid_zero]
  simpa using h1

/-- A tracked page that is not free is the template directory or one of its page tables. -/
lemma Accounting.boot_used (h : Accounting M 1024 s {base} ∅ ∅)
    (hboot : ∀ p, (tableShape 1024).Leaf s.mem {base} p → p < M.bootPages)
    (hdir : ∀ x, x ≠ pdx uenvs → x ≠ pdx upages → s.mem base x = 0#32) {p : ℕ}
    (hp : M.Tracked p) (hf : p ∉ s.pageFreeList) :
    p ∈ [base, ppn (s.mem base (pdx uenvs)), ppn (s.mem base (pdx upages))] := by
  have hpos : 0 < (tableShape 1024).refCount s.mem {base} p := by
    by_contra h0
    exact hf ((h.free_mem p).mpr ⟨hp, by simp, by simp, Nat.eq_zero_of_not_pos h0⟩)
  rcases Shape.node_or_leaf_of_refCount_pos hpos with (hd | ⟨d, hd, x, hx, hv, he⟩) | hl
  · simp [Finset.mem_singleton.mp hd]
  · obtain rfl := Finset.mem_singleton.mp hd
    rw [tableShape_frame] at he
    rw [tableShape_valid] at hv
    by_cases h1 : x = pdx uenvs
    · simp [← he, h1]
    · by_cases h2 : x = pdx upages
      · simp [← he, h2]
      · rw [hdir x h1 h2, pteValid_zero] at hv
        exact absurd hv Bool.false_ne_true
  · exact absurd hp.1 (Nat.not_le.mpr (hboot p hl))

/-- **`env_init` returns** on the memory that `page_init` has made, if there is memory for the
template page directory: the state is accounted for without page directories, the TLB is empty,
the kernel keeps the template, whose entries `pgdir_walk` has written, and at most three pages are
gone from the free list. -/
theorem envInit_returns {mem : Store Word} {pm₀ : PhysMem} (hM : M.BootLayout)
    (hinit : pageInit M mem = .ok pm₀) (ktf : Trapframe) :
    ∃ pm base K, envInit M pm₀ ktf = .ok (Kern.boot pm base ktf) ∧
      KernAccounting M (Kern.boot pm base ktf) ∅ K ∧ pm.tlb = (fun _ _ => none) ∧
      (base ∈ K ∧ ∀ i, pteValid (pm.mem base i) = true → ∃ q, pm.mem base i = mkPde q) ∧
      M.npage - M.bootPages ≤ pm.pageFreeList.length + 3 := by
  have h0 : Accounting M 1024 pm₀ ∅ ∅ ∅ :=
    (accounting_pageInit (D := ∅) hinit (by simp) (by simp)).toAccounting.of_empty
  obtain ⟨-, hfree, -, htlb⟩ := pageInit_cases hinit
  obtain ⟨p, rest, hf⟩ : ∃ p rest, pm₀.pageFreeList = p :: rest := by
    refine List.exists_cons_of_ne_nil fun hnil => ?_
    rw [hfree, List.reverse_eq_nil_iff, List.range'_eq_nil_iff] at hnil
    have := hM.free
    omega
  have hp := h0.head_free hf
  have hb : M.bootPages ≤ p := hp.1.1
  have hlt := hM.free.le
  have h1 : Accounting M 1024 ((pm₀.takeFree p rest).incRef p) {p} ∅ ∅ := h0.newDir hf
  have hzero : ∀ x, ((pm₀.takeFree p rest).incRef p).mem p x = 0#32 := fun x => by
    rw [PhysMem.incRef_mem, PhysMem.takeFree_mem, fill_same]
  have hunmapped : ∀ {t : PhysMem} {x : ℕ} {va : Word}, t.mem p x = 0#32 → pdx va = x →
      translate t p va = none := fun ht hx => translate_eq_none_iff.mpr fun hv => by
    rw [hx, ht, pteValid_zero] at hv
    exact absurd hv Bool.false_ne_true
  -- the two segments
  have hupages : upages.toNat % 2 ^ 22 = 0 := by decide
  have huenvs : uenvs.toNat % 2 ^ 22 = 0 := by decide
  have hseg0 : Segment M ((pm₀.takeFree p rest).incRef p) p upages 0
      ((pm₀.takeFree p rest).incRef p) :=
    ⟨h1, fun q ⟨d, hd, x, _, hv, _⟩ => by
        rw [Finset.mem_singleton.mp hd, hzero, tableShape_valid, pteValid_zero] at hv
        exact absurd hv Bool.false_ne_true,
      fun j _ hj => hunmapped (hzero _) (pdx_segAddr hupages hj).1, fun _ _ => rfl, htlb,
      fun x hv => by
        rw [hzero, pteValid_zero] at hv
        exact absurd hv Bool.false_ne_true⟩
  obtain ⟨pm1, hmap1, hseg1⟩ := mapSegment_returns hseg0 hb hlt hupages hM.pages_aligned
    hM.size_aligned hM.pages_fit hM.pages_lt (by decide : pteG < 4096#32)
  have henv0 : pm1.mem p (pdx uenvs) = 0#32 := by rw [hseg1.dir _ (by decide), hzero]
  have hseg2 : Segment M pm1 p uenvs 0 pm1 :=
    ⟨hseg1.accounting, hseg1.boot,
      fun j _ hj => hunmapped henv0 (pdx_segAddr huenvs hj).1, fun _ _ => rfl, hseg1.tlb,
      hseg1.pde⟩
  obtain ⟨pm2, hmap2, hseg⟩ := mapSegment_returns hseg2 hb hlt huenvs hM.envs_aligned (by decide)
    (by decide) hM.envs_lt (by decide : pteG < 4096#32)
  have hdir : ∀ x, x ≠ pdx uenvs → x ≠ pdx upages → pm2.mem p x = 0#32 := fun x h1 h2 => by
    rw [hseg.dir x h1, hseg1.dir x h2, hzero]
  refine ⟨pm2, p, keptPages M 1024 pm2 {p}, ?_, ?_, hseg.tlb, ⟨?_, hseg.pde⟩, ?_⟩
  · unfold envInit
    rw [pageAlloc_cons hf hp.1.2, ok_bind]
    simp only
    rw [(kaddr_page2pa_eq_ok (hp.1.2.trans M.npage_lt)).mpr ⟨hp.1.2, rfl⟩, ok_bind]
    change (mapSegment M _ p 0 M.pages upages M.pagesSize pteG >>= _) = _
    rw [hmap1, ok_bind]
    change (mapSegment M pm1 p 0 M.envs uenvs envsSize pteG >>= _) = _
    rw [hmap2, ok_bind]
    rfl
  · refine ⟨hseg.accounting.retire, fun e he => ?_, fun e he => ?_, fun e he => ?_⟩
    · exact absurd rfl he
    · simp [Kern.boot] at he
    · exact absurd rfl he
  · exact mem_keptPages.mpr ⟨hp.1, Shape.refCount_pos_of_mem (Finset.mem_singleton_self p)⟩
  · have hsub : List.range' M.bootPages (M.npage - M.bootPages) ⊆
        pm2.pageFreeList ++ [p, ppn (pm2.mem p (pdx uenvs)), ppn (pm2.mem p (pdx upages))] := by
      intro q hq
      rw [List.mem_range'_1] at hq
      have hqt : M.Tracked q := ⟨hq.1, by omega⟩
      rw [List.mem_append]
      by_cases hqf : q ∈ pm2.pageFreeList
      · exact Or.inl hqf
      · exact Or.inr (hseg.accounting.boot_used hseg.boot hdir hqt hqf)
    have := (List.subperm_of_subset List.nodup_range' hsub).length_le
    simpa using this

/-! ## A machine -/

/-- A machine with 64 MB of memory, of which 4 MB are below `freemem`. -/
def bootMachine : Machine := ⟨0x4000000#32, 0x80400000#32, 0x100000#32, 0x200000#32⟩

lemma bootMachine_layout : bootMachine.BootLayout := by
  constructor <;> decide

/-- The memory and the template page directory of this machine after `env_init`, with the first
two free pages. -/
structure Booted where
  pm₀ : PhysMem
  pm : PhysMem
  base : ℕ
  page0 : ℕ
  page1 : ℕ
  rest : List ℕ
  kept : Finset ℕ
  pageInit_eq : pageInit bootMachine (fun _ _ => 0#32) = .ok pm₀
  envInit_eq : envInit bootMachine pm₀ Env.zero.tf = .ok (Kern.boot pm base Env.zero.tf)
  accounting : KernAccounting bootMachine (Kern.boot pm base Env.zero.tf) ∅ kept
  free : pm.pageFreeList = page0 :: page1 :: rest

lemma nonempty_booted : Nonempty Booted := by
  obtain ⟨pm₀, h0⟩ : ∃ pm, pageInit bootMachine (fun _ _ => 0#32) = .ok pm := by
    unfold pageInit
    rw [if_neg (by decide)]
    exact ⟨_, rfl⟩
  obtain ⟨pm, base, K, h1, h2, -, -, h3⟩ := envInit_returns bootMachine_layout h0 Env.zero.tf
  have hpages : bootMachine.npage - bootMachine.bootPages = 15360 := by decide
  match hf : pm.pageFreeList with
  | q0 :: q1 :: rest => exact ⟨⟨pm₀, pm, base, q0, q1, rest, K, h0, h1, h2, hf⟩⟩
  | [_] | [] =>
    simp only [hf, List.length_singleton, List.length_nil] at h3
    omega

/-- This machine after `env_init`. -/
noncomputable def booted : Booted := Classical.choice nonempty_booted

end MosVolca
