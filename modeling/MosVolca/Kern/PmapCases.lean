import MosVolca.Kern.Pmap

/-!
# What the page-table functions do

Each function of `pmap.c` is described once, by the states it can return, so that later proofs
never unfold it. The states are written with a few state changes: `PhysMem.takeFree` (a page
leaves the free list and is cleared), `PhysMem.addTable` (a cleared page becomes a page table)
and `PhysMem.mapPage` (a page is entered in a page table).

## Main results

* `MosVolca.pgdirWalk_valid`, `MosVolca.pgdirWalk_absent`, `MosVolca.pgdirWalk_create` — the three
  ways through `pgdir_walk`.
* `MosVolca.pageInsert_cases`, `MosVolca.pageRemove_cases` — everything `page_insert` and
  `page_remove` can do.
* `MosVolca.pageDecref_cases` — everything `page_decref` can do.
-/

namespace MosVolca

namespace PhysMem

variable (s : PhysMem)

/-- The first page `pp` of the free list is taken off and cleared. -/
def takeFree (pp : ℕ) (rest : List ℕ) : PhysMem := { s with pageFreeList := rest }.zeroPage pp

/-- The page `pp`, first of the free list, becomes the page table of `va`. -/
def addTable (pgdir : ℕ) (va : Word) (pp : ℕ) (rest : List ℕ) : PhysMem :=
  ((s.takeFree pp rest).setWord pgdir (pdx va) (mkPde pp)).incRef pp

/-- The page `pp` is entered in slot `j` of the table `t`. -/
def mapPage (t j pp : ℕ) (perm : Word) : PhysMem := (s.setWord t j (mkPte pp perm)).incRef pp

@[simp] lemma setWord_mem (p i : ℕ) (w : Word) :
    (s.setWord p i w).mem = TwoLevel.write s.mem p i w := rfl
@[simp] lemma setWord_ppRef (p i : ℕ) (w : Word) : (s.setWord p i w).ppRef = s.ppRef := rfl
@[simp] lemma setWord_pageFreeList (p i : ℕ) (w : Word) :
    (s.setWord p i w).pageFreeList = s.pageFreeList := rfl
@[simp] lemma setWord_tlb (p i : ℕ) (w : Word) : (s.setWord p i w).tlb = s.tlb := rfl

@[simp] lemma zeroPage_mem (p : ℕ) : (s.zeroPage p).mem = TwoLevel.fill s.mem p 0#32 := rfl

@[simp] lemma incRef_mem (p : ℕ) : (s.incRef p).mem = s.mem := rfl
@[simp] lemma incRef_ppRef (p : ℕ) :
    (s.incRef p).ppRef = Function.update s.ppRef p (s.ppRef p + 1) := rfl
@[simp] lemma incRef_pageFreeList (p : ℕ) : (s.incRef p).pageFreeList = s.pageFreeList := rfl
@[simp] lemma incRef_tlb (p : ℕ) : (s.incRef p).tlb = s.tlb := rfl

/-- A page that is taken is cleared. -/
@[simp] lemma takeFree_mem (p : ℕ) (l : List ℕ) :
    (s.takeFree p l).mem = TwoLevel.fill s.mem p 0#32 := rfl
@[simp] lemma takeFree_ppRef (p : ℕ) (l : List ℕ) : (s.takeFree p l).ppRef = s.ppRef := rfl
@[simp] lemma takeFree_pageFreeList (p : ℕ) (l : List ℕ) : (s.takeFree p l).pageFreeList = l := rfl
@[simp] lemma takeFree_tlb (p : ℕ) (l : List ℕ) : (s.takeFree p l).tlb = s.tlb := rfl

@[simp] lemma addTable_mem (d : ℕ) (va : Word) (p : ℕ) (l : List ℕ) :
    (s.addTable d va p l).mem = TwoLevel.write (TwoLevel.fill s.mem p 0#32) d (pdx va) (mkPde p) := rfl
@[simp] lemma addTable_ppRef (d : ℕ) (va : Word) (p : ℕ) (l : List ℕ) :
    (s.addTable d va p l).ppRef = Function.update s.ppRef p (s.ppRef p + 1) := rfl
@[simp] lemma addTable_pageFreeList (d : ℕ) (va : Word) (p : ℕ) (l : List ℕ) :
    (s.addTable d va p l).pageFreeList = l := rfl
@[simp] lemma addTable_tlb (d : ℕ) (va : Word) (p : ℕ) (l : List ℕ) :
    (s.addTable d va p l).tlb = s.tlb := rfl

@[simp] lemma mapPage_mem (t j p : ℕ) (w : Word) :
    (s.mapPage t j p w).mem = TwoLevel.write s.mem t j (mkPte p w) := rfl
@[simp] lemma mapPage_ppRef (t j p : ℕ) (w : Word) :
    (s.mapPage t j p w).ppRef = Function.update s.ppRef p (s.ppRef p + 1) := rfl
@[simp] lemma mapPage_pageFreeList (t j p : ℕ) (w : Word) :
    (s.mapPage t j p w).pageFreeList = s.pageFreeList := rfl
@[simp] lemma mapPage_tlb (t j p : ℕ) (w : Word) : (s.mapPage t j p w).tlb = s.tlb := rfl

@[simp] lemma tlbInvalidate_mem (a v : Word) : (tlbInvalidate s a v).mem = s.mem := rfl
@[simp] lemma tlbInvalidate_ppRef (a v : Word) : (tlbInvalidate s a v).ppRef = s.ppRef := rfl
@[simp] lemma tlbInvalidate_pageFreeList (a v : Word) :
    (tlbInvalidate s a v).pageFreeList = s.pageFreeList := rfl

end PhysMem

variable {M : Machine} {s s' : PhysMem} {pgdir pp t q : ℕ} {asid va perm r w : Word}
  {rest : List ℕ}

/-! ## Address checks -/

/-- `PTE_ADDR` keeps the page number. -/
lemma ppn_pteAddr (w : Word) : ppn (pteAddr w) = ppn w := by
  have h : (~~~0xFFF#32 : Word) = BitVec.allOnes 32 <<< 12 := by decide
  have h2 : pteAddr w >>> 12 = w >>> 12 := by
    apply BitVec.eq_of_getLsbD_eq
    intro i hi
    simp only [pteAddr, h, BitVec.getLsbD_ushiftRight, BitVec.getLsbD_and,
      BitVec.getLsbD_shiftLeft, BitVec.getLsbD_allOnes]
    by_cases h32 : 12 + i < 32
    · simp [h32]
      intro _
      omega
    · simp [BitVec.getLsbD_of_ge w (12 + i) (by omega)]
  rw [ppn, ppn, h2]

lemma kaddr_pteAddr (h : ppn w < M.npage) : kaddr M (pteAddr w) = .ok (ppn w) := by
  unfold kaddr
  rw [ppn_pteAddr, if_neg (by omega)]
  rfl

lemma kaddr_pteAddr_eq_ok {n : ℕ} :
    kaddr M (pteAddr w) = .ok n ↔ ppn w < M.npage ∧ ppn w = n := by
  unfold kaddr
  rw [ppn_pteAddr]
  split_ifs with h
  · simp
    omega
  · simp
    omega

lemma pa2page_eq_ok {n : ℕ} : pa2page M w = .ok n ↔ ppn w < M.npage ∧ ppn w = n := by
  unfold pa2page
  split_ifs with h
  · simp
    omega
  · simp
    omega

lemma pa2page_of_lt (h : ppn w < M.npage) : pa2page M w = .ok (ppn w) :=
  pa2page_eq_ok.mpr ⟨h, rfl⟩

lemma kaddr_page2pa_eq_ok (hp : pp < 2 ^ 20) {n : ℕ} :
    kaddr M (page2pa pp) = .ok n ↔ pp < M.npage ∧ pp = n := by
  unfold kaddr
  rw [ppn_page2pa hp]
  split_ifs with h
  · simp
    omega
  · simp
    omega

/-! ## `page_alloc` -/

/-- `page_alloc` fails when no page is free. -/
lemma pageAlloc_nil (hf : s.pageFreeList = []) : pageAlloc M s = .ok (.error (-eNoMem), s) := by
  unfold pageAlloc
  rw [hf]
  rfl

/-- `page_alloc` takes the first free page and clears it. -/
lemma pageAlloc_cons (hf : s.pageFreeList = q :: rest) (hq : q < M.npage) :
    pageAlloc M s = .ok (.ok q, s.takeFree q rest) := by
  have hk : kaddr M (page2pa q) = .ok q :=
    (kaddr_page2pa_eq_ok (hq.trans M.npage_lt)).mpr ⟨hq, rfl⟩
  unfold pageAlloc
  rw [hf]
  simp only [hk, ok_bind]
  rfl

/-- What `page_alloc` returns. -/
lemma pageAlloc_cases {o : Except Word ℕ} (hfree : ∀ q ∈ s.pageFreeList, q < M.npage)
    (h : pageAlloc M s = .ok (o, s')) :
    (s.pageFreeList = [] ∧ o = .error (-eNoMem) ∧ s' = s) ∨
      ∃ q rest, s.pageFreeList = q :: rest ∧ o = .ok q ∧ s' = s.takeFree q rest := by
  rcases hf : s.pageFreeList with _ | ⟨q, rest⟩
  · rw [pageAlloc_nil hf, Except.ok.injEq, Prod.mk.injEq] at h
    exact Or.inl ⟨rfl, h.1.symm, h.2.symm⟩
  · rw [pageAlloc_cons hf (hfree q (by rw [hf]; exact List.mem_cons_self)), Except.ok.injEq,
      Prod.mk.injEq] at h
    exact Or.inr ⟨q, rest, rfl, h.1.symm, h.2.symm⟩

/-- `page_alloc` fails without a free page and changes nothing. -/
lemma pageAlloc_error (h : pageAlloc M s = .ok (.error r, s')) :
    s.pageFreeList = [] ∧ r = -eNoMem ∧ s' = s := by
  unfold pageAlloc at h
  split at h
  case h_1 hf =>
    simp only [pure_eq_ok, Except.ok.injEq, Prod.mk.injEq, Except.error.injEq] at h
    exact ⟨hf, h.1.symm, h.2.symm⟩
  case h_2 =>
    obtain ⟨_, -, h⟩ := bind_eq_ok.mp h
    simp at h

/-! ## `pgdir_walk` and `page_lookup` -/

/-- A valid directory entry is followed, whether or not a table may be created. -/
lemma pgdirWalk_valid (create : Bool) (hv : pteValid (s.mem pgdir (pdx va)) = true)
    (ht : ppn (s.mem pgdir (pdx va)) < M.npage) :
    pgdirWalk M s pgdir va create = .ok (0, some ⟨ppn (s.mem pgdir (pdx va)), ptx va⟩, s) := by
  unfold pgdirWalk
  simp only [hv, ↓reduceIte, kaddr_pteAddr ht, ok_bind, pure_eq_ok]

/-- Without a directory entry and without `create` there is no entry. -/
lemma pgdirWalk_absent (hv : pteValid (s.mem pgdir (pdx va)) = false) :
    pgdirWalk M s pgdir va false = .ok (0, none, s) := by
  unfold pgdirWalk
  simp [hv]

/-- Without a free page no table can be created. -/
lemma pgdirWalk_nil (hv : pteValid (s.mem pgdir (pdx va)) = false) (hf : s.pageFreeList = []) :
    pgdirWalk M s pgdir va true = .ok (-eNoMem, none, s) := by
  unfold pgdirWalk
  simp [hv, pageAlloc_nil hf]

/-- Otherwise the first free page becomes the table. -/
lemma pgdirWalk_create (hv : pteValid (s.mem pgdir (pdx va)) = false)
    (hf : s.pageFreeList = q :: rest) (hq : q < M.npage) :
    pgdirWalk M s pgdir va true = .ok (0, some ⟨q, ptx va⟩, s.addTable pgdir va q rest) := by
  have hq2 : q < 2 ^ 20 := hq.trans M.npage_lt
  have hk2 : kaddr M (pteAddr (mkPde q)) = .ok q :=
    kaddr_pteAddr_eq_ok.mpr ⟨by rwa [ppn_mkPde hq2], ppn_mkPde hq2⟩
  unfold pgdirWalk
  simp only [hv, Bool.false_eq_true, ↓reduceIte, pageAlloc_cons hf hq, ok_bind, pure_eq_ok]
  simp only [PhysMem.incRef_mem, PhysMem.setWord_mem, TwoLevel.write_same, hk2, ok_bind]
  rfl

/-- What `pgdir_walk` returns when it does not create. -/
lemma pgdirWalk_false_cases {r : Word} {pte : Option PtePtr}
    (h : pgdirWalk M s pgdir va false = .ok (r, pte, s')) :
    s' = s ∧ r = 0 ∧
      (pteValid (s.mem pgdir (pdx va)) = false ∧ pte = none ∨
        pteValid (s.mem pgdir (pdx va)) = true ∧ ppn (s.mem pgdir (pdx va)) < M.npage ∧
          pte = some ⟨ppn (s.mem pgdir (pdx va)), ptx va⟩) := by
  rcases hv : pteValid (s.mem pgdir (pdx va)) with _ | _
  · rw [pgdirWalk_absent hv] at h
    simp only [Except.ok.injEq, Prod.mk.injEq] at h
    obtain ⟨rfl, rfl, rfl⟩ := h
    simp
  · unfold pgdirWalk at h
    simp only [hv, ↓reduceIte, bind_eq_ok, kaddr_pteAddr_eq_ok, pure_eq_ok, Except.ok.injEq,
      Prod.mk.injEq] at h
    obtain ⟨n, ⟨hn, rfl⟩, rfl, rfl, rfl⟩ := h
    simp [hn]

/-- The entry of `va`: its table and its slot. -/
def pteWord (s : PhysMem) (pgdir : ℕ) (va : Word) : Word :=
  s.mem (ppn (s.mem pgdir (pdx va))) (ptx va)

/-- `page_lookup` finds nothing when the directory entry or the entry is not valid. -/
lemma pageLookup_none (hv : pteValid (s.mem pgdir (pdx va)) = true →
      ppn (s.mem pgdir (pdx va)) < M.npage ∧ pteValid (pteWord s pgdir va) = false) :
    pageLookup M s pgdir va = .ok none := by
  unfold pageLookup
  rcases hd : pteValid (s.mem pgdir (pdx va)) with _ | _
  · rw [pgdirWalk_absent hd]
    rfl
  · obtain ⟨ht, hw⟩ := hv hd
    rw [pgdirWalk_valid false hd ht]
    unfold pteWord at hw
    simp [hw]

/-- `page_lookup` finds the page of a valid entry. -/
lemma pageLookup_some (hv : pteValid (s.mem pgdir (pdx va)) = true)
    (ht : ppn (s.mem pgdir (pdx va)) < M.npage) (hw : pteValid (pteWord s pgdir va) = true)
    (hp : ppn (pteWord s pgdir va) < M.npage) :
    pageLookup M s pgdir va =
      .ok (some (ppn (pteWord s pgdir va), ⟨ppn (s.mem pgdir (pdx va)), ptx va⟩)) := by
  unfold pageLookup
  rw [pgdirWalk_valid false hv ht]
  unfold pteWord at hw hp ⊢
  simp [hw, pa2page_of_lt hp]

/-- What `page_lookup` returns. -/
lemma pageLookup_cases {o : Option (ℕ × PtePtr)} (h : pageLookup M s pgdir va = .ok o) :
    (o = none ∧ (pteValid (s.mem pgdir (pdx va)) = true →
        ppn (s.mem pgdir (pdx va)) < M.npage ∧ pteValid (pteWord s pgdir va) = false)) ∨
      (o = some (ppn (pteWord s pgdir va), ⟨ppn (s.mem pgdir (pdx va)), ptx va⟩) ∧
        pteValid (s.mem pgdir (pdx va)) = true ∧ ppn (s.mem pgdir (pdx va)) < M.npage ∧
        pteValid (pteWord s pgdir va) = true ∧ ppn (pteWord s pgdir va) < M.npage) := by
  unfold pageLookup at h
  rw [bind_eq_ok] at h
  obtain ⟨⟨r, pte, s1⟩, hwalk, h⟩ := h
  obtain ⟨rfl, rfl, hc⟩ := pgdirWalk_false_cases hwalk
  rcases hc with ⟨hv, rfl⟩ | ⟨hv, ht, rfl⟩
  · left
    simp only [pure_eq_ok, Except.ok.injEq] at h
    exact ⟨h.symm, fun hv' => by rw [hv] at hv'; exact absurd hv' Bool.false_ne_true⟩
  · simp only at h
    by_cases hw : pteValid (pteWord s1 pgdir va) = true
    · right
      rw [if_pos (by rwa [pteWord] at hw), bind_eq_ok] at h
      obtain ⟨n, hn, h⟩ := h
      obtain ⟨hp, rfl⟩ := pa2page_eq_ok.mp hn
      simp only [pure_eq_ok, Except.ok.injEq] at h
      exact ⟨h.symm, hv, ht, hw, hp⟩
    · left
      rw [if_neg (by rwa [pteWord] at hw)] at h
      simp only [pure_eq_ok, Except.ok.injEq] at h
      exact ⟨h.symm, fun _ => ⟨ht, Bool.eq_false_iff.mpr hw⟩⟩

/-! ## `page_decref`, `page_remove` and `page_insert` -/

/-- The state after `page_decref` of a page with a positive count: the count falls, and the page
joins the free list if the count reaches 0. -/
def decRef (s : PhysMem) (pp : ℕ) : PhysMem :=
  { s with
    ppRef := Function.update s.ppRef pp (s.ppRef pp - 1)
    pageFreeList := if s.ppRef pp = 1 then pp :: s.pageFreeList else s.pageFreeList }

@[simp] lemma decRef_mem (s : PhysMem) (pp : ℕ) : (decRef s pp).mem = s.mem := rfl
@[simp] lemma decRef_tlb (s : PhysMem) (pp : ℕ) : (decRef s pp).tlb = s.tlb := rfl
@[simp] lemma decRef_ppRef (s : PhysMem) (pp : ℕ) :
    (decRef s pp).ppRef = Function.update s.ppRef pp (s.ppRef pp - 1) := rfl
/-- The last reference puts the page at the head of the list. -/
lemma decRef_pageFreeList (s : PhysMem) (pp : ℕ) : (decRef s pp).pageFreeList =
    if s.ppRef pp = 1 then pp :: s.pageFreeList else s.pageFreeList := rfl

/-- `page_decref` returns exactly when the count is positive. -/
lemma pageDecref_cases : pageDecref s pp = .ok s' ↔ s.ppRef pp ≠ 0 ∧ s' = decRef s pp := by
  have hone : s.ppRef pp - 1 = 0 ↔ s.ppRef pp = 1 := by
    constructor <;> intro h
    · have := congrArg (· + 1) h
      simpa using this
    · simp [h]
  unfold pageDecref pageFree decRef
  by_cases h0 : s.ppRef pp = 0
  · simp [h0]
  · simp only [h0, ↓reduceIte, Function.update_self, hone, ne_eq, not_false_eq_true, true_and]
    split_ifs <;> simp [eq_comm]

lemma pageDecref_ok (h : s.ppRef pp ≠ 0) : pageDecref s pp = .ok (decRef s pp) :=
  pageDecref_cases.mpr ⟨h, rfl⟩

/-- **Everything `page_remove` can do**: nothing when `va` is not mapped, otherwise drop a
reference to the page, clear the entry and flush. -/
lemma pageRemove_cases (h : pageRemove M s pgdir asid va = .ok s') :
    (s' = s ∧ pageLookup M s pgdir va = .ok none) ∨
      (pteValid (s.mem pgdir (pdx va)) = true ∧ ppn (s.mem pgdir (pdx va)) < M.npage ∧
        pteValid (pteWord s pgdir va) = true ∧ ppn (pteWord s pgdir va) < M.npage ∧
        s.ppRef (ppn (pteWord s pgdir va)) ≠ 0 ∧
        s' = tlbInvalidate ((decRef s (ppn (pteWord s pgdir va))).setWord
          (ppn (s.mem pgdir (pdx va))) (ptx va) 0#32) asid va) := by
  unfold pageRemove at h
  rw [bind_eq_ok] at h
  obtain ⟨o, hlook, h⟩ := h
  rcases pageLookup_cases hlook with ⟨rfl, hnone⟩ | ⟨rfl, hv, ht, hw, hp⟩
  · left
    simp only [pure_eq_ok, Except.ok.injEq] at h
    exact ⟨h.symm, hlook⟩
  · right
    simp only [bind_eq_ok, pageDecref_cases, pure_eq_ok, Except.ok.injEq] at h
    obtain ⟨_, ⟨h0, rfl⟩, rfl⟩ := h
    exact ⟨hv, ht, hw, hp, h0, rfl⟩

/-- `page_remove` on a mapped address returns when the page has a reference. -/
lemma pageRemove_mapped (hv : pteValid (s.mem pgdir (pdx va)) = true)
    (ht : ppn (s.mem pgdir (pdx va)) < M.npage) (hw : pteValid (pteWord s pgdir va) = true)
    (hp : ppn (pteWord s pgdir va) < M.npage) (h0 : s.ppRef (ppn (pteWord s pgdir va)) ≠ 0) :
    pageRemove M s pgdir asid va =
      .ok (tlbInvalidate ((decRef s (ppn (pteWord s pgdir va))).setWord
        (ppn (s.mem pgdir (pdx va))) (ptx va) 0#32) asid va) := by
  unfold pageRemove
  rw [pageLookup_some hv ht hw hp]
  simp [pageDecref_ok h0]

/-- Everything the installing half of `page_insert` can do. -/
lemma pageInstall_cases (hfree : ∀ q ∈ s.pageFreeList, q < M.npage)
    (h : pageInstall M s pgdir asid pp va perm = .ok (r, s')) :
    (pteValid (s.mem pgdir (pdx va)) = false ∧ s.pageFreeList = [] ∧ r = -eNoMem ∧
        s' = tlbInvalidate s asid va) ∨
      (∃ q rest, pteValid (s.mem pgdir (pdx va)) = false ∧ s.pageFreeList = q :: rest ∧ r = 0 ∧
        s' = ((tlbInvalidate s asid va).addTable pgdir va q rest).mapPage q (ptx va) pp perm) ∨
      (pteValid (s.mem pgdir (pdx va)) = true ∧ ppn (s.mem pgdir (pdx va)) < M.npage ∧ r = 0 ∧
        s' = (tlbInvalidate s asid va).mapPage (ppn (s.mem pgdir (pdx va))) (ptx va) pp perm) := by
  unfold pageInstall at h
  rcases hv : pteValid (s.mem pgdir (pdx va)) with _ | _
  · rcases hf : s.pageFreeList with _ | ⟨q, rest⟩
    · rw [pgdirWalk_nil (s := tlbInvalidate s asid va) hv hf] at h
      simp only [ok_bind, pure_eq_ok, Except.ok.injEq, Prod.mk.injEq] at h
      exact Or.inl ⟨rfl, rfl, h.1.symm, h.2.symm⟩
    · have hq : q < M.npage := hfree q (by rw [hf]; exact List.mem_cons_self)
      rw [pgdirWalk_create (s := tlbInvalidate s asid va) hv hf hq] at h
      simp only [ok_bind, ne_eq, not_true_eq_false, ↓reduceIte, pure_eq_ok, Except.ok.injEq,
        Prod.mk.injEq] at h
      exact Or.inr (Or.inl ⟨q, rest, rfl, rfl, h.1.symm, h.2.symm⟩)
  · rw [bind_eq_ok] at h
    obtain ⟨⟨r1, o, s1⟩, hwalk, h⟩ := h
    unfold pgdirWalk at hwalk
    simp only [PhysMem.tlbInvalidate_mem, hv, ↓reduceIte, bind_eq_ok, kaddr_pteAddr_eq_ok,
      pure_eq_ok, Except.ok.injEq, Prod.mk.injEq] at hwalk
    obtain ⟨n, ⟨hn, rfl⟩, rfl, rfl, rfl⟩ := hwalk
    simp only [ne_eq, not_true_eq_false, ↓reduceIte, pure_eq_ok, Except.ok.injEq,
      Prod.mk.injEq] at h
    exact Or.inr (Or.inr ⟨rfl, hn, h.1.symm, h.2.symm⟩)

/-- With a page table, the installing half of `page_insert` succeeds. -/
lemma pageInstall_table (hv : pteValid (s.mem pgdir (pdx va)) = true)
    (ht : ppn (s.mem pgdir (pdx va)) < M.npage) :
    pageInstall M s pgdir asid pp va perm =
      .ok (0, (tlbInvalidate s asid va).mapPage (ppn (s.mem pgdir (pdx va))) (ptx va) pp perm) := by
  unfold pageInstall
  rw [pgdirWalk_valid (s := tlbInvalidate s asid va) true hv ht]
  simp only [ok_bind, ne_eq, not_true_eq_false, ↓reduceIte, pure_eq_ok]
  rfl

/-- Without a page table, the installing half of `page_insert` takes the first free page for
one. -/
lemma pageInstall_create (hv : pteValid (s.mem pgdir (pdx va)) = false)
    (hf : s.pageFreeList = q :: rest) (hq : q < M.npage) :
    pageInstall M s pgdir asid pp va perm =
      .ok (0, ((tlbInvalidate s asid va).addTable pgdir va q rest).mapPage q (ptx va) pp perm) := by
  unfold pageInstall
  rw [pgdirWalk_create (s := tlbInvalidate s asid va) hv hf hq]
  simp only [ok_bind, ne_eq, not_true_eq_false, ↓reduceIte, pure_eq_ok]
  rfl

/-- Without a page table and without a free page, `page_insert` fails. -/
lemma pageInstall_nil (hv : pteValid (s.mem pgdir (pdx va)) = false) (hf : s.pageFreeList = []) :
    pageInstall M s pgdir asid pp va perm = .ok (-eNoMem, tlbInvalidate s asid va) := by
  unfold pageInstall
  rw [pgdirWalk_nil (s := tlbInvalidate s asid va) hv hf]
  rfl

/-- `page_insert` on an address without an entry is its installing half. -/
lemma pageInsert_unmapped (h : pteValid (s.mem pgdir (pdx va)) = true →
      ppn (s.mem pgdir (pdx va)) < M.npage ∧ pteValid (pteWord s pgdir va) = false) :
    pageInsert M s pgdir asid pp va perm = pageInstall M s pgdir asid pp va perm := by
  unfold pageInsert
  rcases hv : pteValid (s.mem pgdir (pdx va)) with _ | _
  · rw [pgdirWalk_absent hv]
    rfl
  · obtain ⟨ht, hw⟩ := h hv
    rw [pgdirWalk_valid false hv ht]
    unfold pteWord at hw
    simp [hw]

/-- `page_insert` of the page already mapped at `va` only rewrites the entry. -/
lemma pageInsert_same (hv : pteValid (s.mem pgdir (pdx va)) = true)
    (ht : ppn (s.mem pgdir (pdx va)) < M.npage) (hw : pteValid (pteWord s pgdir va) = true)
    (hp : ppn (pteWord s pgdir va) < M.npage) (he : ppn (pteWord s pgdir va) = pp) :
    pageInsert M s pgdir asid pp va perm =
      .ok (0, (tlbInvalidate s asid va).setWord (ppn (s.mem pgdir (pdx va))) (ptx va)
        (mkPte pp perm)) := by
  unfold pageInsert
  rw [pgdirWalk_valid false hv ht]
  unfold pteWord at hw hp he
  simp [hw, pa2page_of_lt hp, he]

/-- `page_insert` where another page is mapped removes that page first. -/
lemma pageInsert_other (hv : pteValid (s.mem pgdir (pdx va)) = true)
    (ht : ppn (s.mem pgdir (pdx va)) < M.npage) (hw : pteValid (pteWord s pgdir va) = true)
    (hp : ppn (pteWord s pgdir va) < M.npage) (he : ppn (pteWord s pgdir va) ≠ pp) :
    pageInsert M s pgdir asid pp va perm =
      (pageRemove M s pgdir asid va >>= fun s1 => pageInstall M s1 pgdir asid pp va perm) := by
  unfold pageInsert
  rw [pgdirWalk_valid false hv ht]
  unfold pteWord at hw hp he
  simp [hw, pa2page_of_lt hp, he]

/-- **Everything `page_insert` can do**, on a directory that is not its own page table for `va`:
fail for want of a page table, map `pp` in a new table, map it in an existing table, change the
permissions of `pp`, or put `pp` in the place of another page. -/
theorem pageInsert_cases (hfree : ∀ q ∈ s.pageFreeList, q < M.npage)
    (hself : ppn (s.mem pgdir (pdx va)) ≠ pgdir)
    (h : pageInsert M s pgdir asid pp va perm = .ok (r, s')) :
    (pteValid (s.mem pgdir (pdx va)) = false ∧ s.pageFreeList = [] ∧ r = -eNoMem ∧
        s' = tlbInvalidate s asid va) ∨
      (∃ q rest, pteValid (s.mem pgdir (pdx va)) = false ∧ s.pageFreeList = q :: rest ∧ r = 0 ∧
        s' = ((tlbInvalidate s asid va).addTable pgdir va q rest).mapPage q (ptx va) pp perm) ∨
      (pteValid (s.mem pgdir (pdx va)) = true ∧ ppn (s.mem pgdir (pdx va)) < M.npage ∧
        pteValid (pteWord s pgdir va) = false ∧ r = 0 ∧
        s' = (tlbInvalidate s asid va).mapPage (ppn (s.mem pgdir (pdx va))) (ptx va) pp perm) ∨
      (pteValid (s.mem pgdir (pdx va)) = true ∧ ppn (s.mem pgdir (pdx va)) < M.npage ∧
        pteValid (pteWord s pgdir va) = true ∧ ppn (pteWord s pgdir va) < M.npage ∧
        ppn (pteWord s pgdir va) = pp ∧ r = 0 ∧
        s' = (tlbInvalidate s asid va).setWord (ppn (s.mem pgdir (pdx va))) (ptx va)
          (mkPte pp perm)) ∨
      (pteValid (s.mem pgdir (pdx va)) = true ∧ ppn (s.mem pgdir (pdx va)) < M.npage ∧
        pteValid (pteWord s pgdir va) = true ∧ ppn (pteWord s pgdir va) < M.npage ∧
        ppn (pteWord s pgdir va) ≠ pp ∧ s.ppRef (ppn (pteWord s pgdir va)) ≠ 0 ∧ r = 0 ∧
        s' = (tlbInvalidate (tlbInvalidate ((decRef s (ppn (pteWord s pgdir va))).setWord
          (ppn (s.mem pgdir (pdx va))) (ptx va) 0#32) asid va) asid va).mapPage
            (ppn (s.mem pgdir (pdx va))) (ptx va) pp perm) := by
  by_cases hv : pteValid (s.mem pgdir (pdx va)) = true
  · by_cases ht : ppn (s.mem pgdir (pdx va)) < M.npage
    · by_cases hw : pteValid (pteWord s pgdir va) = true
      · by_cases hp : ppn (pteWord s pgdir va) < M.npage
        · by_cases he : ppn (pteWord s pgdir va) = pp
          · rw [pageInsert_same hv ht hw hp he] at h
            simp only [Except.ok.injEq, Prod.mk.injEq] at h
            exact Or.inr (Or.inr (Or.inr (Or.inl ⟨hv, ht, hw, hp, he, h.1.symm, h.2.symm⟩)))
          · rw [pageInsert_other hv ht hw hp he, bind_eq_ok] at h
            obtain ⟨s1, hrem, h⟩ := h
            rcases pageRemove_cases hrem with ⟨-, hnone⟩ | ⟨-, -, -, -, h0, rfl⟩
            · rw [pageLookup_some hv ht hw hp] at hnone
              simp at hnone
            · -- the directory word is untouched, so the walk finds the same table again
              have hkeep : TwoLevel.write s.mem (ppn (s.mem pgdir (pdx va))) (ptx va) 0#32 pgdir
                  (pdx va) = s.mem pgdir (pdx va) := TwoLevel.write_of_ne_page (Ne.symm hself)
              rw [pageInstall_table (by simpa [hkeep] using hv) (by simpa [hkeep] using ht)] at h
              simp only [PhysMem.tlbInvalidate_mem, PhysMem.setWord_mem, decRef_mem, hkeep,
                Except.ok.injEq, Prod.mk.injEq] at h
              exact Or.inr (Or.inr (Or.inr (Or.inr
                ⟨hv, ht, hw, hp, he, h0, h.1.symm, h.2.symm⟩)))
        · -- the page of the entry is beyond the memory: `pa2page` panics
          unfold pageInsert at h
          rw [pgdirWalk_valid false hv ht] at h
          unfold pteWord at hw hp
          simp [hw, pa2page, Nat.not_lt.mp hp] at h
      · rw [pageInsert_unmapped fun _ => ⟨ht, Bool.eq_false_iff.mpr hw⟩] at h
        rcases pageInstall_cases hfree h with ⟨hv', -⟩ | ⟨-, -, hv', -⟩ | ⟨-, -, hr, hs⟩
        · exact absurd hv (Bool.eq_false_iff.mp hv')
        · exact absurd hv (Bool.eq_false_iff.mp hv')
        · exact Or.inr (Or.inr (Or.inl ⟨hv, ht, Bool.eq_false_iff.mpr hw, hr, hs⟩))
    · -- the page table is beyond the memory: `KADDR` panics
      unfold pageInsert pgdirWalk at h
      simp [hv, kaddr, ppn_pteAddr, Nat.not_lt.mp ht] at h
  · rw [pageInsert_unmapped fun hv' => absurd hv' hv] at h
    rcases pageInstall_cases hfree h with h | ⟨q, rest, h⟩ | ⟨hv', -⟩
    · exact Or.inl h
    · exact Or.inr (Or.inl ⟨q, rest, h⟩)
    · exact absurd hv' hv

end MosVolca
