import MosVolca.Kern.PmapCases

/-!
# Physical page accounting

The invariant that ties `pp_ref` and `page_free_list` to the page tables, and its preservation by
the state changes of `pmap.c`. The references to a page are counted by
`TwoLevel.Shape.refCount`; a `u_short` count can only agree with them modulo 2^16, and that is
what the invariant says. It is the same as equality while no page has 2^16 references
(`MosVolca.Accounting.ppRef_toNat`).

## Main definitions

* `MosVolca.Machine.Tracked` — the pages that `page_init` put on the free list.
* `MosVolca.Accounting` — the invariant, for a set `D` of page directories, a set `H` of pages
  held by callers that just allocated them and a set `K` of pages the kernel keeps for itself.

## Main results

* `MosVolca.Accounting.takeFree`, `MosVolca.Accounting.addTable`, `MosVolca.Accounting.mapPage`,
  `MosVolca.Accounting.rewritePte`, `MosVolca.Accounting.unmapPage`,
  `MosVolca.Accounting.freeTable`, `MosVolca.Accounting.addDir`, `MosVolca.Accounting.dropDir` — the
  invariant after each kind of state change.
-/

namespace MosVolca

open TwoLevel

/-- The pages that `page_init` put on the free list. -/
def Machine.Tracked (M : Machine) (p : ℕ) : Prop := M.bootPages ≤ p ∧ p < M.npage

/-- **The page-accounting invariant**, for page directories `D` that own their first `n` entries,
pages `K` that the kernel keeps and pages `H` that a caller holds. -/
structure Accounting (M : Machine) (n : ℕ) (s : PhysMem) (D K H : Finset ℕ) : Prop where
  /-- Directories and page tables have one reference each. -/
  owned : (tableShape n).Owned s.mem D
  lt : ∀ p, 0 < (tableShape n).refCount s.mem D p → p < M.npage
  table_ge : ∀ d ∈ D, ∀ i < n, pteValid (s.mem d i) = true → M.bootPages ≤ ppn (s.mem d i)
  ref : ∀ p, M.Tracked p → p ∉ K →
    s.ppRef p = BitVec.ofNat 16 ((tableShape n).refCount s.mem D p)
  free_nodup : s.pageFreeList.Nodup
  free_mem : ∀ p, p ∈ s.pageFreeList ↔
    M.Tracked p ∧ p ∉ K ∧ p ∉ H ∧ (tableShape n).refCount s.mem D p = 0
  held : ∀ p ∈ H, M.Tracked p ∧ p ∉ K ∧ (tableShape n).refCount s.mem D p = 0
  kept : ∀ p ∈ K, (tableShape n).refCount s.mem D p = 0

/-- What `page_insert` may be given: a page of the memory that is not free, not kept by the
kernel and neither a page directory nor a page table. -/
structure Insertable (M : Machine) (n : ℕ) (s : PhysMem) (D K : Finset ℕ) (pp : ℕ) : Prop where
  lt : pp < M.npage
  not_free : pp ∉ s.pageFreeList
  not_kept : pp ∉ K
  not_node : ¬ (tableShape n).Node s.mem D pp

namespace Accounting

variable {M : Machine} {n : ℕ} {s : PhysMem} {D D' K H : Finset ℕ} {d i j pp q t : ℕ}
  {rest : List ℕ} {asid va perm w : Word} {m : Store Word}

section Facts

variable (h : Accounting M n s D K H)

include h

lemma tlb (tlb' : ℕ → ℕ → Option Word) : Accounting M n { s with tlb := tlb' } D K H :=
  ⟨h.owned, h.lt, h.table_ge, h.ref, h.free_nodup, h.free_mem, h.held, h.kept⟩

/-- The TLB plays no part in the accounting. -/
lemma tlbInvalidate (asid va : Word) : Accounting M n (tlbInvalidate s asid va) D K H :=
  h.tlb _

lemma dir_lt (hd : d ∈ D) : d < M.npage := h.lt d (Shape.refCount_pos_of_mem hd)

lemma table_lt (hd : d ∈ D) (hi : i < n) (hv : pteValid (s.mem d i) = true) :
    ppn (s.mem d i) < M.npage :=
  h.lt _ (Shape.refCount_pos_of_node (Shape.Node.of_slot (T := tableShape n) hd hi hv))

lemma leaf_lt (hl : (tableShape n).Leaf s.mem D pp) : pp < M.npage :=
  h.lt _ (Shape.refCount_pos_of_leaf hl)

/-- The free pages exist. -/
lemma free_lt : ∀ q ∈ s.pageFreeList, q < M.npage := fun q hq => ((h.free_mem q).mp hq).1.2

/-- A page directory is not its own page table. -/
lemma table_ne_dir (hd : d ∈ D) (hi : i < n) (hv : pteValid (s.mem d i) = true) :
    ppn (s.mem d i) ≠ d := by
  intro he
  have hmem := h.owned.table_not_mem (T := tableShape n) hd hi hv
  rw [tableShape_frame, he] at hmem
  exact hmem hd

/-- A page just allocated may be inserted. -/
lemma insertable_of_held (hp : pp ∈ H) : Insertable M n s D K pp :=
  ⟨(h.held pp hp).1.2, fun hf => ((h.free_mem pp).mp hf).2.2.1 hp, (h.held pp hp).2.1,
    Shape.not_node_of_refCount (h.held pp hp).2.2⟩

/-- A mapped page may be inserted. -/
lemma insertable_of_leaf (hl : (tableShape n).Leaf s.mem D pp) : Insertable M n s D K pp := by
  have hpos := Shape.refCount_pos_of_leaf hl
  refine ⟨h.leaf_lt hl, fun hf => ?_, fun hk => ?_, h.owned.not_node_of_leaf hl⟩
  · have := ((h.free_mem pp).mp hf).2.2.2
    omega
  · have := h.kept pp hk
    omega

/-- While a page has fewer than 2^16 references, `pp_ref` is their number. -/
lemma ppRef_toNat (hp : M.Tracked pp) (hk : pp ∉ K)
    (hc : (tableShape n).refCount s.mem D pp < 2 ^ 16) :
    (s.ppRef pp).toNat = (tableShape n).refCount s.mem D pp := by
  rw [h.ref pp hp hk, BitVec.toNat_ofNat, Nat.mod_eq_of_lt hc]

end Facts

/-! ## The counts and the free list when one reference comes or goes -/

/-- One more reference to `pp`, which is not free. -/
lemma afterInc (h : Accounting M n s D K H) (hlt : pp < M.npage) (hfree : pp ∉ s.pageFreeList)
    (hk : pp ∉ K) (howned : (tableShape n).Owned m D')
    (hcount : ∀ p, (tableShape n).refCount m D' p =
      (tableShape n).refCount s.mem D p + if pp = p then 1 else 0)
    (htable : ∀ d ∈ D', ∀ i < n, pteValid (m d i) = true → M.bootPages ≤ ppn (m d i)) :
    Accounting M n { s.incRef pp with mem := m } D' K (H.erase pp) where
  owned := howned
  lt p hp := by
    rw [hcount p] at hp
    by_cases he : pp = p
    · exact he ▸ hlt
    · rw [if_neg he] at hp
      exact h.lt p hp
  table_ge := htable
  ref p hp hkp := by
    rw [hcount p]
    by_cases he : pp = p
    · subst he
      simp [PhysMem.incRef, h.ref pp hp hkp, BitVec.ofNat_add]
    · simp [PhysMem.incRef, Function.update_of_ne (Ne.symm he), h.ref p hp hkp, he]
  free_nodup := h.free_nodup
  free_mem p := by
    change p ∈ s.pageFreeList ↔ _
    rw [hcount p, h.free_mem p, Finset.mem_erase]
    by_cases he : pp = p
    · subst he
      refine iff_of_false (mt (h.free_mem pp).mpr hfree) ?_
      rw [if_pos rfl]
      omega
    · rw [if_neg he]
      tauto
  held p hp := by
    obtain ⟨hne, hp⟩ := Finset.mem_erase.mp hp
    obtain ⟨h1, h2, h3⟩ := h.held p hp
    exact ⟨h1, h2, by rw [hcount p, h3, if_neg hne.symm]⟩
  kept p hp := by
    have hne : pp ≠ p := by
      rintro rfl
      exact hk hp
    rw [hcount p, h.kept p hp, if_neg hne]

/-- One reference less to `pp`. The count is at most 2^16: with exactly 2^16 references `pp_ref`
is 0 and `page_decref` does not return, with more it may free a page that is still in use. -/
lemma afterDec (h : Accounting M n s D K H) (hp : M.Tracked pp) (hk : pp ∉ K)
    (h0 : s.ppRef pp ≠ 0) (hle : (tableShape n).refCount s.mem D pp ≤ 2 ^ 16)
    (howned : (tableShape n).Owned m D')
    (hcount : ∀ p, (tableShape n).refCount m D' p + (if pp = p then 1 else 0) =
      (tableShape n).refCount s.mem D p)
    (htable : ∀ d ∈ D', ∀ i < n, pteValid (m d i) = true → M.bootPages ≤ ppn (m d i)) :
    Accounting M n { decRef s pp with mem := m } D' K H := by
  have hpp := hcount pp
  rw [if_pos rfl] at hpp
  have href := h.ref pp hp hk
  have hlt : (tableShape n).refCount s.mem D pp < 2 ^ 16 := by
    refine lt_of_le_of_ne hle fun he => h0 ?_
    rw [href, he]
    decide
  have hone : s.ppRef pp = 1 ↔ (tableShape n).refCount s.mem D pp = 1 := by
    rw [href]
    constructor
    · intro he
      have := congrArg BitVec.toNat he
      rw [BitVec.toNat_ofNat, Nat.mod_eq_of_lt hlt] at this
      exact this
    · intro he
      rw [he]
      rfl
  have hppH : pp ∉ H := fun hH => by
    have := (h.held pp hH).2.2
    omega
  have hppF : pp ∉ s.pageFreeList := fun hf => by
    have := ((h.free_mem pp).mp hf).2.2.2
    omega
  constructor
  · exact howned
  · intro p hp'
    change 0 < (tableShape n).refCount m D' p at hp'
    have := hcount p
    exact h.lt p (by omega)
  · exact htable
  · intro p hp' hkp
    change (decRef s pp).ppRef p = _
    by_cases he : pp = p
    · subst he
      obtain ⟨c, hc⟩ : ∃ c, (tableShape n).refCount s.mem D pp = c + 1 := ⟨_, hpp.symm⟩
      rw [decRef_ppRef, Function.update_self, href, hc, BitVec.ofNat_add]
      have : (tableShape n).refCount m D' pp = c := by omega
      rw [this]
      simp
    · have := hcount p
      rw [if_neg he, Nat.add_zero] at this
      rw [decRef_ppRef, Function.update_of_ne (Ne.symm he), h.ref p hp' hkp, this]
  · change (decRef s pp).pageFreeList.Nodup
    rw [decRef_pageFreeList]
    split_ifs
    · exact List.nodup_cons.mpr ⟨hppF, h.free_nodup⟩
    · exact h.free_nodup
  · intro p
    change p ∈ (decRef s pp).pageFreeList ↔ _
    have hc := hcount p
    rw [decRef_pageFreeList]
    by_cases he : pp = p
    · subst he
      split_ifs with h1
      · have := hone.mp h1
        have hc0 : (tableShape n).refCount m D' pp = 0 := by omega
        simp only [List.mem_cons, true_or, true_iff]
        exact ⟨hp, hk, hppH, hc0⟩
      · have := mt hone.mpr h1
        refine iff_of_false hppF ?_
        rintro ⟨-, -, -, h4⟩
        change (tableShape n).refCount m D' pp = 0 at h4
        omega
    · rw [if_neg he, Nat.add_zero] at hc
      change _ ↔ _ ∧ _ ∧ _ ∧ (tableShape n).refCount m D' p = 0
      rw [hc, ← h.free_mem p]
      split_ifs
      · simp [Ne.symm he]
      · rfl
  · intro p hp'
    obtain ⟨h1, h2, h3⟩ := h.held p hp'
    have hc : (tableShape n).refCount m D' p = 0 := by
      have := hcount p
      omega
    exact ⟨h1, h2, hc⟩
  · intro p hp'
    have hc : (tableShape n).refCount m D' p = 0 := by
      have := hcount p
      have := h.kept p hp'
      omega
    exact hc

/-! ## The state changes of `pmap.c` -/

/-- `page_alloc`: the first free page is now held. -/
lemma takeFree (h : Accounting M n s D K H) (hf : s.pageFreeList = q :: rest) :
    Accounting M n (s.takeFree q rest) D K (insert q H) := by
  have hq := (h.free_mem q).mp (by rw [hf]; exact List.mem_cons_self)
  obtain ⟨hqr, hrest⟩ := List.nodup_cons.mp (hf ▸ h.free_nodup)
  have hnode : ¬ (tableShape n).Node s.mem D q := Shape.not_node_of_refCount hq.2.2.2
  have hcount : ∀ p, (tableShape n).refCount (fill s.mem q 0#32) D p =
      (tableShape n).refCount s.mem D p := Shape.refCount_fill hnode
  have hdir : ∀ d ∈ D, ∀ i, fill s.mem q 0#32 d i = s.mem d i := fun d hd i =>
    fill_of_ne fun he => hnode (he ▸ Shape.Node.of_mem hd)
  constructor
  · intro p hp
    rw [PhysMem.takeFree_mem, hcount]
    refine h.owned p (hp.imp_right ?_)
    rintro ⟨d, hd, i, hi, hv, he⟩
    rw [PhysMem.takeFree_mem, hdir d hd] at hv he
    exact ⟨d, hd, i, hi, hv, he⟩
  · intro p hp
    rw [PhysMem.takeFree_mem, hcount] at hp
    exact h.lt p hp
  · intro d hd i hi hv
    rw [PhysMem.takeFree_mem, hdir d hd] at hv ⊢
    exact h.table_ge d hd i hi hv
  · intro p hp hk
    rw [PhysMem.takeFree_mem, hcount]
    exact h.ref p hp hk
  · exact hrest
  · intro p
    have := h.free_mem p
    rw [hf, List.mem_cons] at this
    rw [PhysMem.takeFree_mem, hcount, PhysMem.takeFree_pageFreeList, Finset.mem_insert]
    by_cases he : p = q
    · subst he
      tauto
    · tauto
  · intro p hp
    rw [PhysMem.takeFree_mem, hcount]
    rcases Finset.mem_insert.mp hp with rfl | hp
    · exact ⟨hq.1, hq.2.1, hq.2.2.2⟩
    · exact h.held p hp
  · intro p hp
    rw [PhysMem.takeFree_mem, hcount]
    exact h.kept p hp

section NewTable

variable (h : Accounting M n s D K H) (hf : s.pageFreeList = q :: rest)

include h hf

/-- The first free page is used nowhere. -/
lemma head_free : M.Tracked q ∧ q ∉ K ∧ q ∉ H ∧ (tableShape n).refCount s.mem D q = 0 :=
  (h.free_mem q).mp (by rw [hf]; exact List.mem_cons_self)

lemma refCount_takeFree (p : ℕ) :
    (tableShape n).refCount (fill s.mem q 0#32) D p = (tableShape n).refCount s.mem D p :=
  Shape.refCount_fill (Shape.not_node_of_refCount (h.head_free hf).2.2.2) p

lemma takeFree_dir (hd : d ∈ D) (i : ℕ) : fill s.mem q 0#32 d i = s.mem d i :=
  fill_of_ne fun he => Shape.not_node_of_refCount (h.head_free hf).2.2.2
    (he ▸ Shape.Node.of_mem (T := tableShape n) hd)

variable (hd : d ∈ D) (hi : pdx va < n) (hv : pteValid (s.mem d (pdx va)) = false)

include hd hi hv

/-- The counts after the first free page becomes a page table. -/
lemma refCount_addTable (p : ℕ) :
    (tableShape n).refCount (s.addTable d va q rest).mem D p =
      (tableShape n).refCount s.mem D p + if q = p then 1 else 0 := by
  have h1 := h.takeFree hf
  have hv1 : pteValid (fill s.mem q 0#32 d (pdx va)) = false := by rwa [h.takeFree_dir hf hd]
  have h0 := (h1.held q (Finset.mem_insert_self q H)).2.2
  have hqlt := (h.head_free hf).1.2.trans M.npage_lt
  have hc := Shape.refCount_install (T := tableShape n) h1.owned hd hi hv1 h0
    (fun j _ => by simp) (pteValid_mkPde q) (ppn_mkPde hqlt) p
  rw [PhysMem.takeFree_mem, h.refCount_takeFree hf] at hc
  exact hc

/-- `pgdir_walk` with `create`: the first free page becomes a page table. -/
lemma addTable : Accounting M n (s.addTable d va q rest) D K H := by
  have hq := h.head_free hf
  have h1 := h.takeFree hf
  have hv1 : pteValid (fill s.mem q 0#32 d (pdx va)) = false := by rwa [h.takeFree_dir hf hd]
  have h0 := (h1.held q (Finset.mem_insert_self q H)).2.2
  have hqlt := hq.1.2.trans M.npage_lt
  have hres := h1.afterInc (m := (s.addTable d va q rest).mem) hq.1.2
    (fun hqr => ((h1.free_mem q).mp hqr).2.2.1 (Finset.mem_insert_self q H)) hq.2.1
    (h1.owned.install (T := tableShape n) hd hi hv1 h0 (fun j _ => by simp) (pteValid_mkPde q)
      (ppn_mkPde hqlt))
    (fun p => by
      rw [h.refCount_addTable hf hd hi hv, PhysMem.takeFree_mem, h.refCount_takeFree hf])
    (fun d' hd' i' hi' hv' => by
      rw [PhysMem.addTable_mem] at hv' ⊢
      by_cases hs : d' = d ∧ i' = pdx va
      · rw [hs.1, hs.2, write_same, ppn_mkPde hqlt]
        exact hq.1.1
      · rw [write_of_ne (not_and_or.mp hs)] at hv' ⊢
        exact h1.table_ge d' hd' i' hi' hv')
  rw [Finset.erase_insert hq.2.2.1] at hres
  exact hres

end NewTable

section Table

variable (hd : d ∈ D) (hi : i < n) (hv : pteValid (s.mem d i) = true) (hj : j < 1024)

include hd hi hv

/-- Writing a table slot changes no directory slot. -/
lemma write_table_dir (h : Accounting M n s D K H) (j : ℕ) (w : Word) {d' : ℕ} (hd' : d' ∈ D)
    (i' : ℕ) : write s.mem (ppn (s.mem d i)) j w d' i' = s.mem d' i' :=
  write_of_ne_page fun he => h.owned.table_not_mem (T := tableShape n) hd hi hv (by
    rwa [tableShape_frame, ← he])

lemma write_table_ge (h : Accounting M n s D K H) (j : ℕ) (w : Word) : ∀ d' ∈ D, ∀ i' < n,
    pteValid (write s.mem (ppn (s.mem d i)) j w d' i') = true →
      M.bootPages ≤ ppn (write s.mem (ppn (s.mem d i)) j w d' i') := by
  intro d' hd' i' hi' hv'
  rw [h.write_table_dir hd hi hv j w hd'] at hv' ⊢
  exact h.table_ge d' hd' i' hi' hv'

include hj

/-- The counts after a page is entered in a free slot. -/
lemma refCount_mapPage (h : Accounting M n s D K H)
    (hw : pteValid (s.mem (ppn (s.mem d i)) j) = false) (hfr : ppn (mkPte pp perm) = pp) (p : ℕ) :
    (tableShape n).refCount (s.mapPage (ppn (s.mem d i)) j pp perm).mem D p =
      (tableShape n).refCount s.mem D p + if pp = p then 1 else 0 := by
  have hc := Shape.refCount_write_table (T := tableShape n) h.owned hd hi hv hj (mkPte pp perm) p
  rw [tableShape_frame, Shape.ref_of_invalid hw, Shape.ref_eq_ite (pteValid_mkPte pp perm),
    tableShape_frame, hfr, Nat.add_zero] at hc
  exact hc

/-- A page is entered in a free slot of a page table. -/
lemma mapPage (h : Accounting M n s D K H)
    (hw : pteValid (s.mem (ppn (s.mem d i)) j) = false) (hins : Insertable M n s D K pp)
    (hfr : ppn (mkPte pp perm) = pp) :
    Accounting M n (s.mapPage (ppn (s.mem d i)) j pp perm) D K (H.erase pp) := by
  refine h.afterInc hins.lt hins.not_free hins.not_kept
    (h.owned.write_table (T := tableShape n) hd hi hv hj fun _ => ?_)
    (h.refCount_mapPage hd hi hv hj hw hfr) (h.write_table_ge hd hi hv j _)
  rw [tableShape_frame, hfr]
  exact hins.not_node

/-- The counts do not change when an entry is rewritten for the same page. -/
lemma refCount_rewritePte (h : Accounting M n s D K H)
    (hw : pteValid (s.mem (ppn (s.mem d i)) j) = true) (hw' : pteValid w = true)
    (hfr : ppn w = ppn (s.mem (ppn (s.mem d i)) j)) (p : ℕ) :
    (tableShape n).refCount (s.setWord (ppn (s.mem d i)) j w).mem D p =
      (tableShape n).refCount s.mem D p := by
  have hc := Shape.refCount_write_table (T := tableShape n) h.owned hd hi hv hj w p
  rw [tableShape_frame, Shape.ref_eq_ite hw, Shape.ref_eq_ite hw', tableShape_frame, hfr] at hc
  exact Nat.add_right_cancel hc

/-- The entry of a mapped page is rewritten with an entry for the same page. -/
lemma rewritePte (h : Accounting M n s D K H)
    (hw : pteValid (s.mem (ppn (s.mem d i)) j) = true) (hw' : pteValid w = true)
    (hfr : ppn w = ppn (s.mem (ppn (s.mem d i)) j)) :
    Accounting M n (s.setWord (ppn (s.mem d i)) j w) D K H := by
  have hleaf : (tableShape n).Leaf s.mem D (ppn w) := by
    rw [hfr]
    exact ⟨d, hd, i, hi, hv, j, hj, hw, rfl⟩
  refine ⟨h.owned.write_table (T := tableShape n) hd hi hv hj fun _ =>
    h.owned.not_node_of_leaf hleaf, ?_, h.write_table_ge hd hi hv j w, ?_, h.free_nodup, ?_, ?_, ?_⟩
  all_goals
    intro p
    rw [h.refCount_rewritePte hd hi hv hj hw hw' hfr p]
  · exact h.lt p
  · exact h.ref p
  · exact h.free_mem p
  · exact h.held p
  · exact h.kept p

/-- The counts after a valid entry is cleared. -/
lemma refCount_unmapPage (h : Accounting M n s D K H)
    (hw : pteValid (s.mem (ppn (s.mem d i)) j) = true) (p : ℕ) :
    (tableShape n).refCount (s.setWord (ppn (s.mem d i)) j 0#32).mem D p +
        (if ppn (s.mem (ppn (s.mem d i)) j) = p then 1 else 0) =
      (tableShape n).refCount s.mem D p := by
  have hc := Shape.refCount_write_table (T := tableShape n) h.owned hd hi hv hj 0#32 p
  rw [tableShape_frame, Shape.ref_eq_ite hw, Shape.ref_of_invalid pteValid_zero, Nat.add_zero,
    tableShape_frame] at hc
  exact hc

/-- The entry of a mapped page is cleared and the page loses the reference. -/
lemma unmapPage (h : Accounting M n s D K H)
    (hw : pteValid (s.mem (ppn (s.mem d i)) j) = true)
    (hp : M.bootPages ≤ ppn (s.mem (ppn (s.mem d i)) j))
    (h0 : s.ppRef (ppn (s.mem (ppn (s.mem d i)) j)) ≠ 0)
    (hle : (tableShape n).refCount s.mem D (ppn (s.mem (ppn (s.mem d i)) j)) ≤ 2 ^ 16) :
    Accounting M n ((decRef s (ppn (s.mem (ppn (s.mem d i)) j))).setWord
      (ppn (s.mem d i)) j 0#32) D K H := by
  have hleaf : (tableShape n).Leaf s.mem D (ppn (s.mem (ppn (s.mem d i)) j)) :=
    ⟨d, hd, i, hi, hv, j, hj, hw, rfl⟩
  have hins := h.insertable_of_leaf hleaf
  refine h.afterDec ⟨hp, hins.lt⟩ hins.not_kept h0 hle
    (h.owned.write_table (T := tableShape n) hd hi hv hj fun hz => ?_)
    (h.refCount_unmapPage hd hi hv hj hw) (h.write_table_ge hd hi hv j _)
  rw [tableShape_valid, pteValid_zero] at hz
  exact absurd hz Bool.false_ne_true

end Table

/-- The directory entry of an empty page table is cleared and the table loses its reference. -/
lemma freeTable (h : Accounting M n s D K H) (hd : d ∈ D) (hi : i < n)
    (hv : pteValid (s.mem d i) = true)
    (hempty : ∀ j < 1024, pteValid (s.mem (ppn (s.mem d i)) j) = false) :
    Accounting M n ((decRef s (ppn (s.mem d i))).setWord d i 0#32) D K H := by
  have hone := h.owned.refCount_table (T := tableShape n) hd hi hv
  rw [tableShape_frame] at hone
  have hk : ppn (s.mem d i) ∉ K := fun hk => by
    have := h.kept _ hk
    omega
  have ht : M.Tracked (ppn (s.mem d i)) := ⟨h.table_ge d hd i hi hv, h.table_lt hd hi hv⟩
  have h0 : s.ppRef (ppn (s.mem d i)) ≠ 0 := by
    rw [h.ref _ ht hk, hone]
    decide
  refine h.afterDec ht hk h0 (by omega)
    (h.owned.uninstall (T := tableShape n) hd hi hv hempty pteValid_zero)
    (Shape.refCount_uninstall (T := tableShape n) h.owned hd hi hv hempty pteValid_zero)
    fun d' hd' i' hi' hv' => ?_
  by_cases hs : d' = d ∧ i' = i
  · rw [hs.1, hs.2, write_same, pteValid_zero] at hv'
    exact absurd hv' Bool.false_ne_true
  · rw [write_of_ne (not_and_or.mp hs)] at hv' ⊢
    exact h.table_ge d' hd' i' hi' hv'

/-- A held page with no valid owned entry becomes a page directory. -/
lemma addDir (h : Accounting M n s D K H) (hq : q ∈ H)
    (hempty : ∀ i < n, pteValid (s.mem q i) = false) :
    Accounting M n (s.incRef q) (insert q D) K (H.erase q) := by
  obtain ⟨hqt, hqk, hq0⟩ := h.held q hq
  have hqD : q ∉ D := fun hd =>
    Shape.not_node_of_refCount hq0 (Shape.Node.of_mem (T := tableShape n) hd)
  refine h.afterInc (m := s.mem) hqt.2 (h.insertable_of_held hq).not_free hqk
    (h.owned.insert (T := tableShape n) hempty hq0)
    (Shape.refCount_insert (T := tableShape n) hempty hqD) fun d' hd' i' hi' hv' => ?_
  rcases Finset.mem_insert.mp hd' with rfl | hd'
  · rw [hempty i' hi'] at hv'
    exact absurd hv' Bool.false_ne_true
  · exact h.table_ge d' hd' i' hi' hv'

/-- A page directory with no valid owned entry is dropped and loses its reference. -/
lemma dropDir (h : Accounting M n s D K H) (hd : d ∈ D) (hdt : M.bootPages ≤ d)
    (hempty : ∀ i < n, pteValid (s.mem d i) = false) :
    Accounting M n (decRef s d) (D.erase d) K H := by
  have hone := h.owned.refCount_dir hd
  have hk : d ∉ K := fun hk => by
    have := h.kept _ hk
    omega
  have ht : M.Tracked d := ⟨hdt, h.dir_lt hd⟩
  have h0 : s.ppRef d ≠ 0 := by
    rw [h.ref _ ht hk, hone]
    decide
  exact h.afterDec (m := s.mem) ht hk h0 (by omega)
    (h.owned.erase (T := tableShape n) hempty hd)
    (Shape.refCount_erase (T := tableShape n) hempty hd)
    fun d' hd' => h.table_ge d' (Finset.mem_of_mem_erase hd')

/-- Words may change in pages that are neither directories nor page tables, and in the entries of
the directories that are not owned. -/
lemma congrMem (h : Accounting M n s D K H) (hdir : ∀ d ∈ D, ∀ i < n, m d i = s.mem d i)
    (htab : ∀ d ∈ D, ∀ i < n, pteValid (s.mem d i) = true →
      ∀ j < 1024, m (ppn (s.mem d i)) j = s.mem (ppn (s.mem d i)) j) :
    Accounting M n { s with mem := m } D K H := by
  have hc : ∀ p, (tableShape n).refCount m D p = (tableShape n).refCount s.mem D p :=
    Shape.refCount_congr (T := tableShape n) hdir htab
  constructor
  · intro p hp
    rw [hc]
    exact h.owned p ((Shape.node_congr (T := tableShape n) hdir).mp hp)
  · intro p hp
    rw [hc] at hp
    exact h.lt p hp
  · intro d hd i hi hv
    change pteValid (m d i) = true at hv
    change M.bootPages ≤ ppn (m d i)
    rw [hdir d hd i hi] at hv ⊢
    exact h.table_ge d hd i hi hv
  · intro p hp hk
    rw [hc]
    exact h.ref p hp hk
  · exact h.free_nodup
  · intro p
    rw [hc]
    exact h.free_mem p
  · intro p hp
    rw [hc]
    exact h.held p hp
  · intro p hp
    rw [hc]
    exact h.kept p hp

end Accounting

end MosVolca
