import MosVolca.Kern.Accounting

/-!
# Page operations on accounted memory

The functions of `pmap.c` on a memory that satisfies the page-accounting invariant, for addresses
below `UTOP`: they do not panic, they keep the invariant, and they act on the translations of the
page directories as on a map from virtual pages to entries.

## Main definitions

* `MosVolca.translate` — the entry that a page directory has for an address.
* `MosVolca.UserAccounting` — the invariant for user page directories, with counts modulo 2^16.
* `MosVolca.PageAccounting` — the same where no page has 2^16 references, so that `pp_ref` is the
  number of references.

## Main results

* `MosVolca.Accounting.translate_pageInsert`, `MosVolca.Accounting.translate_pageRemove` — the
  translations after `page_insert` and `page_remove`.
* `MosVolca.UserAccounting.afterInsert`, `MosVolca.UserAccounting.afterRemove` — the invariant and
  the counts after them.
-/

namespace MosVolca

open TwoLevel

/-- The entry for `va` in the page directory `d`, if `va` is mapped. -/
def translate (s : PhysMem) (d : ℕ) (va : Word) : Option Word :=
  (tableShape 0).lookup s.mem d (pdx va) (ptx va)

/-- The invariant for user page directories: those own the entries below `PDX(UTOP)`, and their
page tables point to pages that `page_init` put on the free list. -/
structure UserAccounting (M : Machine) (s : PhysMem) (D K H : Finset ℕ) : Prop
    extends Accounting M (pdx utop) s D K H where
  leaf_ge : ∀ p, (tableShape (pdx utop)).Leaf s.mem D p → M.bootPages ≤ p

/-- **Page accounting**: the invariant where no page has 2^16 references. -/
structure PageAccounting (M : Machine) (s : PhysMem) (D K H : Finset ℕ) : Prop
    extends UserAccounting M s D K H where
  bounded : ∀ p, M.Tracked p → (tableShape (pdx utop)).refCount s.mem D p < 2 ^ 16

/-- The number of references to a page by the user part of the page directories `D`. -/
def pageRefs (s : PhysMem) (D : Finset ℕ) (p : ℕ) : ℕ :=
  (tableShape (pdx utop)).refCount s.mem D p

variable {M : Machine} {n : ℕ} {s s' : PhysMem} {D K H : Finset ℕ} {d d' pp q t : ℕ}
  {rest : List ℕ} {asid va va' perm r w : Word}

/-! ## Translations -/

lemma translate_eq (n : ℕ) (s : PhysMem) (d : ℕ) (va : Word) :
    translate s d va = (tableShape n).lookup s.mem d (pdx va) (ptx va) := rfl

/-- An address is translated by two valid entries. -/
lemma translate_eq_some_iff : translate s d va = some w ↔
    pteValid (s.mem d (pdx va)) = true ∧ pteWord s d va = w ∧ pteValid w = true :=
  Shape.lookup_eq_some_iff

/-- An address is not translated if one of the two entries is not valid. -/
lemma translate_eq_none_iff : translate s d va = none ↔
    (pteValid (s.mem d (pdx va)) = true → pteValid (pteWord s d va) = false) :=
  Shape.lookup_eq_none_iff

/-- Addresses of one page have one translation. -/
lemma translate_congr_vpn (h : vpn va = vpn va') : translate s d va = translate s d va' := by
  obtain ⟨h1, h2⟩ := (vpn_eq_vpn_iff va va').mp h
  unfold translate
  rw [h1, h2]

/-- A page to which a user address is translated is a leaf. -/
lemma leaf_of_translate (hd : d ∈ D) (hi : pdx va < n) (h : translate s d va = some w) :
    (tableShape n).Leaf s.mem D (ppn w) :=
  Shape.leaf_of_lookup (T := tableShape n) hd hi (ptx_lt va) h

namespace Accounting

variable (h : Accounting M n s D K H)

include h

/-- `page_lookup` finds the page of the translation. -/
lemma pageLookup_eq (hd : d ∈ D) (hi : pdx va < n) :
    pageLookup M s d va = .ok ((translate s d va).map fun w =>
      (ppn w, ⟨ppn (s.mem d (pdx va)), ptx va⟩)) := by
  rcases ht : translate s d va with _ | w
  · have hnone := translate_eq_none_iff.mp ht
    rw [pageLookup_none fun hv => ⟨h.table_lt hd hi hv, hnone hv⟩]
    rfl
  · obtain ⟨hv, rfl, hw⟩ := translate_eq_some_iff.mp ht
    rw [pageLookup_some hv (h.table_lt hd hi hv) hw (h.leaf_lt (leaf_of_translate hd hi ht))]
    rfl

/-- `va2pa` of an address that is not mapped. -/
lemma va2pa_eq_none (hd : d ∈ D) (hi : pdx va < n) (ht : translate s d va = none) :
    va2pa M s d va = .ok (BitVec.allOnes 32) := by
  have hnone := translate_eq_none_iff.mp ht
  unfold va2pa
  by_cases hv : pteValid (s.mem d (pdx va)) = true
  · have hw := hnone hv
    rw [if_pos hv, kaddr_pteAddr (h.table_lt hd hi hv)]
    rw [pteWord] at hw
    simp [hw]
  · rw [if_neg hv]
    rfl

/-- The translations after a slot of a page table is written. -/
lemma translate_write (hd : d ∈ D) (hi : pdx va < n) (hv : pteValid (s.mem d (pdx va)) = true)
    (hd' : d' ∈ D) (hi' : pdx va' < n)
    (hs' : s'.mem = write s.mem (ppn (s.mem d (pdx va))) (ptx va) w) :
    translate s' d' va' =
      if d' = d ∧ vpn va' = vpn va then if pteValid w = true then some w else none
      else translate s d' va' := by
  simp only [translate_eq n, hs', vpn_eq_vpn_iff]
  exact Shape.lookup_write_table (T := tableShape n) h.owned hd hi hv hd' hi' _ _ w

/-- A new page table changes no translation. -/
lemma translate_addTable (hf : s.pageFreeList = q :: rest) (hd : d ∈ D)
    (hv : pteValid (s.mem d (pdx va)) = false) (hd' : d' ∈ D) (hi' : pdx va' < n) :
    translate (s.addTable d va q rest) d' va' = translate s d' va' := by
  have h1 := h.takeFree hf
  have hq := h.head_free hf
  have h0 := (h1.held q (Finset.mem_insert_self q H)).2.2
  have hlt := hq.1.2.trans M.npage_lt
  have hv1 : pteValid (fill s.mem q 0#32 d (pdx va)) = false := by rwa [h.takeFree_dir hf hd]
  have hinst := Shape.lookup_install (T := tableShape n) h1.owned hd hv1 h0 (fun j _ => by simp)
    (ppn_mkPde hlt) hd' hi' (ptx_lt va')
  refine hinst.trans ?_
  refine Shape.lookup_congr (h.takeFree_dir hf hd' _) fun hv' => fill_of_ne fun he => ?_
  exact Shape.not_node_of_refCount hq.2.2.2
    (he ▸ Shape.Node.of_slot (T := tableShape n) hd' hi' hv')

/-- **The translations after a successful `page_insert`**: the page of `va` has the new entry, the
others are as before. -/
theorem translate_pageInsert (hd : d ∈ D) (hi : pdx va < n)
    (hr : pageInsert M s d asid pp va perm = .ok (0, s')) (hd' : d' ∈ D) (hi' : pdx va' < n) :
    translate s' d' va' =
      if d' = d ∧ vpn va' = vpn va then some (mkPte pp perm) else translate s d' va' := by
  by_cases hv : pteValid (s.mem d (pdx va)) = true
  · rcases pageInsert_cases h.free_lt (h.table_ne_dir hd hi hv) hr with
      ⟨hv', -⟩ | ⟨_, _, hv', -⟩ | ⟨-, -, -, -, rfl⟩ | ⟨-, -, -, -, -, -, rfl⟩ |
      ⟨-, -, -, -, -, -, -, rfl⟩
    · exact absurd hv (Bool.eq_false_iff.mp hv')
    · exact absurd hv (Bool.eq_false_iff.mp hv')
    · rw [h.translate_write hd hi hv hd' hi' rfl, if_pos (pteValid_mkPte pp perm)]
    · rw [h.translate_write hd hi hv hd' hi' rfl, if_pos (pteValid_mkPte pp perm)]
    · -- clearing the slot and writing it again is writing it once
      rw [h.translate_write (w := mkPte pp perm) hd hi hv hd' hi', if_pos (pteValid_mkPte pp perm)]
      funext p j
      simp only [PhysMem.mapPage_mem, PhysMem.tlbInvalidate_mem, PhysMem.setWord_mem, decRef_mem,
        write]
      split_ifs <;> rfl
  · have hv := Bool.eq_false_iff.mpr hv
    rw [pageInsert_unmapped fun hv' => by rw [hv] at hv'; exact absurd hv' Bool.false_ne_true] at hr
    rcases pageInstall_cases h.free_lt hr with
      ⟨-, -, hr0, -⟩ | ⟨q, rest, -, hf, -, rfl⟩ | ⟨hv', -⟩
    · exact absurd hr0 (by decide)
    · have hq := (h.head_free hf).1.2.trans M.npage_lt
      have h1 : Accounting M n ((MosVolca.tlbInvalidate s asid va).addTable d va q rest) D K H :=
        (h.tlbInvalidate asid va).addTable hf hd hi hv
      have hpde : ((MosVolca.tlbInvalidate s asid va).addTable d va q rest).mem d (pdx va) =
          mkPde q := by
        simp
      rw [h1.translate_write (w := mkPte pp perm) hd hi (by simp) hd' hi'
        (by rw [hpde, ppn_mkPde hq]; rfl), if_pos (pteValid_mkPte pp perm)]
      rw [(h.tlbInvalidate asid va).translate_addTable hf hd hv hd' hi']
      rfl
    · rw [hv] at hv'
      exact absurd hv' Bool.false_ne_true

/-- **The translations after `page_remove`**: the page of `va` has none, the others are as
before. -/
theorem translate_pageRemove (hd : d ∈ D) (hi : pdx va < n)
    (hr : pageRemove M s d asid va = .ok s') (hd' : d' ∈ D) (hi' : pdx va' < n) :
    translate s' d' va' = if d' = d ∧ vpn va' = vpn va then none else translate s d' va' := by
  rcases pageRemove_cases hr with ⟨rfl, hnone⟩ | ⟨hv, -, -, -, -, rfl⟩
  · rw [h.pageLookup_eq hd hi] at hnone
    simp only [Except.ok.injEq, Option.map_eq_none_iff] at hnone
    split_ifs with he
    · rw [he.1, translate_congr_vpn he.2, hnone]
    · rfl
  · rw [h.translate_write hd hi hv hd' hi' rfl]
    simp

/-! ## Memory contents -/

/-- `page_insert` writes page tables and free pages only, and of the directories only the entry of
`va`, if it is not valid. -/
lemma pageInsert_mem (hd : d ∈ D) (hi : pdx va < n)
    (hr : pageInsert M s d asid pp va perm = .ok (r, s')) :
    (∀ d' ∈ D, ∀ i, ¬ (d' = d ∧ i = pdx va ∧ pteValid (s.mem d i) = false) →
        s'.mem d' i = s.mem d' i) ∧
      ∀ p, ¬ (tableShape n).Node s.mem D p → p ∉ s.pageFreeList → s'.mem p = s.mem p := by
  have hrow : ∀ {m : Store Word} {t j p : ℕ} {w : Word}, p ≠ t → write m t j w p = m p :=
    fun hp => funext fun _ => write_of_ne_page hp
  by_cases hv : pteValid (s.mem d (pdx va)) = true
  · have htab : ∀ {p}, ¬ (tableShape n).Node s.mem D p → p ≠ ppn (s.mem d (pdx va)) := by
      rintro p hp rfl
      exact hp (Shape.Node.of_slot (T := tableShape n) hd hi hv)
    have hdir : ∀ j w, ∀ d' ∈ D, write s.mem (ppn (s.mem d (pdx va))) j w d' = s.mem d' :=
      fun j w d' hd' => funext fun i => h.write_table_dir hd hi hv j w hd' i
    rcases pageInsert_cases h.free_lt (h.table_ne_dir hd hi hv) hr with
      ⟨hv', -⟩ | ⟨_, _, hv', -⟩ | ⟨-, -, -, -, rfl⟩ | ⟨-, -, -, -, -, -, rfl⟩ |
      ⟨-, -, -, -, -, -, -, rfl⟩
    · exact absurd hv (Bool.eq_false_iff.mp hv')
    · exact absurd hv (Bool.eq_false_iff.mp hv')
    · exact ⟨fun d' hd' i _ => congrFun (hdir _ _ d' hd') i, fun p hp _ => hrow (htab hp)⟩
    · exact ⟨fun d' hd' i _ => congrFun (hdir _ _ d' hd') i, fun p hp _ => hrow (htab hp)⟩
    · refine ⟨fun d' hd' i _ => ?_, fun p hp _ => (hrow (htab hp)).trans (hrow (htab hp))⟩
      have hne : d' ≠ ppn (s.mem d (pdx va)) := fun he =>
        h.owned.table_not_mem (T := tableShape n) hd hi hv (by rwa [tableShape_frame, ← he])
      exact (write_of_ne_page hne).trans (write_of_ne_page hne)
  · have hv := Bool.eq_false_iff.mpr hv
    rw [pageInsert_unmapped fun hv' => by rw [hv] at hv'; exact absurd hv' Bool.false_ne_true] at hr
    rcases pageInstall_cases h.free_lt hr with
      ⟨-, -, -, rfl⟩ | ⟨q, rest, -, hf, -, rfl⟩ | ⟨hv', -⟩
    · exact ⟨fun _ _ _ _ => rfl, fun _ _ _ => rfl⟩
    · have hq0 := (h.head_free hf).2.2.2
      have hqD : ∀ d' ∈ D, d' ≠ q := fun d' hd' he =>
        Shape.not_node_of_refCount hq0 (he ▸ Shape.Node.of_mem (T := tableShape n) hd')
      refine ⟨fun d' hd' i hne => ?_, fun p hp hpf => ?_⟩
      · have hne' : d' ≠ d ∨ i ≠ pdx va := by
          by_contra hc
          obtain ⟨rfl, rfl⟩ : d' = d ∧ i = pdx va := by tauto
          exact hne ⟨rfl, rfl, hv⟩
        exact (write_of_ne_page (hqD d' hd')).trans
          ((write_of_ne hne').trans (fill_of_ne (hqD d' hd')))
      · have hpq : p ≠ q := fun he => hpf (by rw [hf, he]; exact List.mem_cons_self)
        have hpd : p ≠ d := fun he => hp (he ▸ Shape.Node.of_mem hd)
        exact funext fun j => (write_of_ne_page hpq).trans
          ((write_of_ne_page hpd).trans (fill_of_ne hpq))
    · rw [hv] at hv'
      exact absurd hv' Bool.false_ne_true

/-- `page_remove` writes a page table only. -/
lemma pageRemove_mem (hd : d ∈ D) (hi : pdx va < n) (hr : pageRemove M s d asid va = .ok s') :
    (∀ d' ∈ D, s'.mem d' = s.mem d') ∧
      ∀ p, ¬ (tableShape n).Node s.mem D p → s'.mem p = s.mem p := by
  rcases pageRemove_cases hr with ⟨rfl, -⟩ | ⟨hv, -, -, -, -, rfl⟩
  · exact ⟨fun _ _ => rfl, fun _ _ => rfl⟩
  · refine ⟨fun d' hd' => funext fun i => h.write_table_dir hd hi hv _ _ hd' i, fun p hp => ?_⟩
    refine funext fun j => write_of_ne_page ?_
    rintro rfl
    exact hp (Shape.Node.of_slot (T := tableShape n) hd hi hv)

/-- Without a page table, a successful `page_insert` makes one of the first free page. -/
lemma pageInsert_newTable (hd : d ∈ D) (hv : pteValid (s.mem d (pdx va)) = false)
    (hr : pageInsert M s d asid pp va perm = .ok (0, s')) :
    ∃ q rest, s.pageFreeList = q :: rest ∧ s'.pageFreeList = rest ∧
      s'.mem d (pdx va) = mkPde q := by
  rw [pageInsert_unmapped fun hv' => by rw [hv] at hv'; exact absurd hv' Bool.false_ne_true] at hr
  rcases pageInstall_cases h.free_lt hr with
    ⟨-, -, hr0, -⟩ | ⟨q, rest, -, hf, -, rfl⟩ | ⟨hv', -⟩
  · exact absurd hr0 (by decide)
  · have hqd : d ≠ q := fun he => Shape.not_node_of_refCount (h.head_free hf).2.2.2
      (he ▸ Shape.Node.of_mem (T := tableShape n) hd)
    refine ⟨q, rest, hf, rfl, ?_⟩
    rw [PhysMem.mapPage_mem, write_of_ne_page hqd, PhysMem.addTable_mem, write_same]
  · rw [hv] at hv'
    exact absurd hv' Bool.false_ne_true

/-- With a page table and nothing to replace, `page_insert` takes and frees no page. -/
lemma pageInsert_pageFreeList (hd : d ∈ D) (hi : pdx va < n)
    (hv : pteValid (s.mem d (pdx va)) = true)
    (hold : ∀ w, translate s d va = some w → ppn w = pp)
    (hr : pageInsert M s d asid pp va perm = .ok (0, s')) :
    s'.pageFreeList = s.pageFreeList := by
  rcases pageInsert_cases h.free_lt (h.table_ne_dir hd hi hv) hr with
    ⟨hv', -⟩ | ⟨_, _, hv', -⟩ | ⟨-, -, -, -, rfl⟩ | ⟨-, -, -, -, -, -, rfl⟩ |
    ⟨-, -, hw, -, hne, -, -, -⟩
  · exact absurd hv (Bool.eq_false_iff.mp hv')
  · exact absurd hv (Bool.eq_false_iff.mp hv')
  · rfl
  · rfl
  · exact absurd (hold _ (translate_eq_some_iff.mpr ⟨hv, rfl, hw⟩)) hne

/-- After a successful `page_insert` the directory entry of `va` is valid and points into the
memory. -/
lemma pageInsert_table (hd : d ∈ D) (hi : pdx va < n)
    (hr : pageInsert M s d asid pp va perm = .ok (0, s')) :
    pteValid (s'.mem d (pdx va)) = true ∧ ppn (s'.mem d (pdx va)) < M.npage := by
  by_cases hv : pteValid (s.mem d (pdx va)) = true
  · rw [(h.pageInsert_mem hd hi hr).1 d hd (pdx va) (by simp [hv])]
    exact ⟨hv, h.table_lt hd hi hv⟩
  · obtain ⟨q, rest, hf, -, hpde⟩ := h.pageInsert_newTable hd (Bool.eq_false_iff.mpr hv) hr
    have hq := (h.head_free hf).1.2
    rw [hpde, ppn_mkPde (hq.trans M.npage_lt)]
    exact ⟨pteValid_mkPde q, hq⟩

/-- **When `page_insert` returns, and what**: it does not panic unless the page it would replace
has a count of 0, and it fails exactly when a page table is missing and no page is free. -/
theorem pageInsert_returns (asid : Word) (pp : ℕ) (perm : Word) (hd : d ∈ D) (hi : pdx va < n)
    (h0 : ∀ w, translate s d va = some w → ppn w ≠ pp → s.ppRef (ppn w) ≠ 0) :
    (pteValid (s.mem d (pdx va)) = false ∧ s.pageFreeList = [] ∧
        pageInsert M s d asid pp va perm = .ok (-eNoMem, MosVolca.tlbInvalidate s asid va)) ∨
      (¬ (pteValid (s.mem d (pdx va)) = false ∧ s.pageFreeList = []) ∧
        ∃ s', pageInsert M s d asid pp va perm = .ok (0, s')) := by
  rcases hv : pteValid (s.mem d (pdx va)) with _ | _
  · rw [pageInsert_unmapped fun hv' => by rw [hv] at hv'; exact absurd hv' Bool.false_ne_true]
    rcases hf : s.pageFreeList with _ | ⟨q, rest⟩
    · exact Or.inl ⟨rfl, rfl, pageInstall_nil hv hf⟩
    · exact Or.inr ⟨by simp, _, pageInstall_create hv hf (h.head_free hf).1.2⟩
  · refine Or.inr ⟨by simp, ?_⟩
    have ht := h.table_lt hd hi hv
    rcases hw : translate s d va with _ | w
    · rw [pageInsert_unmapped fun hv' => ⟨ht, translate_eq_none_iff.mp hw hv'⟩]
      exact ⟨_, pageInstall_table hv ht⟩
    · obtain ⟨-, rfl, hwv⟩ := translate_eq_some_iff.mp hw
      have hp := h.leaf_lt (leaf_of_translate hd hi hw)
      by_cases he : ppn (pteWord s d va) = pp
      · exact ⟨_, pageInsert_same hv ht hwv hp he⟩
      · rw [pageInsert_other hv ht hwv hp he, pageRemove_mapped hv ht hwv hp (h0 _ hw he)]
        have hkeep := h.write_table_dir hd hi hv (ptx va) 0#32 hd (pdx va)
        exact ⟨_, pageInstall_table (by simpa [hkeep] using hv) (by simpa [hkeep] using ht)⟩

/-- `page_remove` returns unless the page it would unmap has a count of 0. -/
lemma pageRemove_returns (hd : d ∈ D) (hi : pdx va < n)
    (h0 : ∀ w, translate s d va = some w → s.ppRef (ppn w) ≠ 0) :
    ∃ s', pageRemove M s d asid va = .ok s' := by
  rcases hw : translate s d va with _ | w
  · refine ⟨s, ?_⟩
    unfold pageRemove
    rw [h.pageLookup_eq hd hi, hw]
    rfl
  · obtain ⟨hv, rfl, hwv⟩ := translate_eq_some_iff.mp hw
    exact ⟨_, pageRemove_mapped hv (h.table_lt hd hi hv) hwv
      (h.leaf_lt (leaf_of_translate hd hi hw)) (h0 _ hw)⟩

/-- `page_remove` of another page keeps a page insertable. -/
lemma insertable_remove (hd : d ∈ D) (hi : pdx va < n) (hins : Insertable M n s D K pp)
    (hne : ppn (pteWord s d va) ≠ pp) (hr : pageRemove M s d asid va = .ok s') :
    Insertable M n s' D K pp := by
  rcases pageRemove_cases hr with ⟨rfl, -⟩ | ⟨hv, -, -, -, -, rfl⟩
  · exact hins
  · refine ⟨hins.lt, fun hm => ?_, hins.not_kept, fun hn => ?_⟩
    · change pp ∈ (decRef s (ppn (pteWord s d va))).pageFreeList at hm
      rw [decRef_pageFreeList] at hm
      split_ifs at hm
      · exact (List.mem_cons.mp hm).elim (fun he => hne he.symm) hins.not_free
      · exact hins.not_free hm
    · exact hins.not_node ((Shape.node_write_table (T := tableShape n) h.owned hd hi hv).mp hn)

omit h in
/-- The leaves after a page is entered in a page table. -/
lemma leaf_mapPage (h : Accounting M n s D K H) (hd : d ∈ D) (hi : pdx va < n)
    (hv : pteValid (s.mem d (pdx va)) = true) (hfr : ppn (mkPte pp perm) = pp) {j p : ℕ}
    (hl : (tableShape n).Leaf (write s.mem (ppn (s.mem d (pdx va))) j (mkPte pp perm)) D p) :
    (tableShape n).Leaf s.mem D p ∨ p = pp := by
  rcases Shape.leaf_write_table (T := tableShape n) h.owned hd hi hv hl with hl | ⟨-, he⟩
  · exact Or.inl hl
  · rw [tableShape_frame, hfr] at he
    exact Or.inr he.symm

/-- A new page table is empty: it adds no leaf. -/
lemma leaf_addTable (hf : s.pageFreeList = q :: rest) (hd : d ∈ D) {p : ℕ}
    (hl : (tableShape n).Leaf (s.addTable d va q rest).mem D p) :
    (tableShape n).Leaf s.mem D p := by
  have h1 := h.takeFree hf
  have hq := h.head_free hf
  have h0 := (h1.held q (Finset.mem_insert_self q H)).2.2
  obtain ⟨d', hd', i, hi', hv', j, hj, hw, he⟩ := Shape.leaf_install (T := tableShape n) h1.owned hd
    h0 (fun j _ => by simp) (ppn_mkPde (hq.1.2.trans M.npage_lt)) hl
  have hdir : (s.takeFree q rest).mem d' i = s.mem d' i := h.takeFree_dir hf hd' i
  have hne : ppn (s.mem d' i) ≠ q := fun he' => Shape.not_node_of_refCount hq.2.2.2
    (he' ▸ Shape.Node.of_slot (T := tableShape n) hd' hi' (hdir ▸ hv'))
  simp only [tableShape_valid, tableShape_frame, hdir] at hv' hw he
  rw [PhysMem.takeFree_mem, fill_of_ne hne] at hw he
  exact ⟨d', hd', i, hi', hv', j, hj, hw, he⟩

/-- The invariant, the counts and the leaves after the installing half of `page_insert`, on an
address that is not mapped. -/
lemma afterInstall (hd : d ∈ D) (hi : pdx va < n) (hins : Insertable M n s D K pp)
    (hfr : ppn (mkPte pp perm) = pp) (hnone : translate s d va = none)
    (hr : pageInstall M s d asid pp va perm = .ok (0, s')) :
    Accounting M n s' D K (H.erase pp) ∧
      (tableShape n).refCount s'.mem D pp = (tableShape n).refCount s.mem D pp + 1 ∧
      (∀ p, p ≠ pp →
        (tableShape n).refCount s'.mem D p ≤ max ((tableShape n).refCount s.mem D p) 1) ∧
      ∀ p, (tableShape n).Leaf s'.mem D p → (tableShape n).Leaf s.mem D p ∨ p = pp := by
  have hf := h.tlbInvalidate asid va
  rcases pageInstall_cases h.free_lt hr with
    ⟨-, -, hr0, -⟩ | ⟨q, rest, hv, hq, -, rfl⟩ | ⟨hv, -, -, rfl⟩
  · exact absurd hr0 (by decide)
  · -- the first free page becomes the page table
    have h1 := hf.addTable hq hd hi hv
    have hqf := h.head_free hq
    have hlt := hqf.1.2.trans M.npage_lt
    have hpde : ((MosVolca.tlbInvalidate s asid va).addTable d va q rest).mem d (pdx va) =
        mkPde q := by simp
    have hfrq : ppn (mkPde q) = q := ppn_mkPde hlt
    have hwq : pteValid (((MosVolca.tlbInvalidate s asid va).addTable d va q rest).mem q (ptx va)) =
        false := by
      have hqd : q ≠ d := fun he => Shape.not_node_of_refCount hqf.2.2.2
        (he ▸ Shape.Node.of_mem (T := tableShape n) hd)
      rw [PhysMem.addTable_mem, write_of_ne_page hqd, fill_same, pteValid_zero]
    have hppq : pp ≠ q := fun he => hins.not_free (by rw [hq, he]; exact List.mem_cons_self)
    have hcnt := hf.refCount_addTable hq hd hi hv
    have hins1 : Insertable M n ((MosVolca.tlbInvalidate s asid va).addTable d va q rest)
        D K pp := by
      refine ⟨hins.lt, fun hm => hins.not_free (by rw [hq]; exact List.mem_cons_of_mem _ hm),
        hins.not_kept, fun hn => ?_⟩
      rcases Shape.node_write_dir hn with hn | he
      · refine hins.not_node (hn.imp_right ?_)
        rintro ⟨d', hd', i, hi', hv', he⟩
        have hdir : fill s.mem q 0#32 d' i = s.mem d' i := h.takeFree_dir hq hd' i
        refine ⟨d', hd', i, hi', ?_, ?_⟩
        · rw [← hdir]
          exact hv'
        · rw [← hdir]
          exact he
      · rw [tableShape_frame, hfrq] at he
        exact hppq he
    have hd1 : pteValid (((MosVolca.tlbInvalidate s asid va).addTable d va q rest).mem d
        (pdx va)) = true := by rw [hpde, pteValid_mkPde]
    have hcm := h1.refCount_mapPage (j := ptx va) hd hi hd1 (ptx_lt va)
      (by rw [hpde, hfrq]; exact hwq) hfr
    have hmap := h1.mapPage (j := ptx va) hd hi hd1 (ptx_lt va)
      (by rw [hpde, hfrq]; exact hwq) hins1 hfr
    have hleaf := fun p => h1.leaf_mapPage (j := ptx va) (p := p) hd hi hd1 hfr
    rw [hpde, hfrq] at hcm hmap hleaf
    refine ⟨hmap, ?_, fun p hp => ?_, fun p hl => (hleaf p hl).imp_left (hf.leaf_addTable hq hd)⟩
    · rw [hcm, hcnt, if_pos rfl, if_neg (Ne.symm hppq)]
      rfl
    · have h4 : q = p → (tableShape n).refCount s.mem D p = 0 := fun he => he ▸ hqf.2.2.2
      have h2 := hcnt p
      rw [hcm, if_neg (Ne.symm hp), h2]
      change (tableShape n).refCount s.mem D p + (if q = p then 1 else 0) + 0 ≤ _
      split_ifs with he
      · rw [h4 he]
        exact le_max_right _ _
      · exact le_max_left _ _
  · -- the page table is there
    have hw : pteValid (pteWord s d va) = false := translate_eq_none_iff.mp hnone hv
    have hc := h.refCount_mapPage hd hi hv (ptx_lt va) hw hfr
    refine ⟨hf.mapPage hd hi hv (ptx_lt va) hw
      ⟨hins.lt, hins.not_free, hins.not_kept, hins.not_node⟩ hfr, ?_, fun p hp => ?_,
      fun p => hf.leaf_mapPage hd hi hv hfr⟩
    · refine (hc pp).trans ?_
      rw [if_pos rfl]
    · refine ((hc p).trans ?_).le.trans (le_max_left _ _)
      rw [if_neg (Ne.symm hp), Nat.add_zero]

end Accounting

/-! ## User accounting -/

namespace UserAccounting

variable (h : UserAccounting M s D K H)

include h

/-- An entry of the TLB is not counted. -/
lemma tlbInvalidate (asid va : Word) : UserAccounting M (tlbInvalidate s asid va) D K H :=
  ⟨h.toAccounting.tlbInvalidate asid va, h.leaf_ge⟩

/-- The page of a translation is one that `page_init` put on the free list. -/
lemma tracked_of_translate (hd : d ∈ D) (hi : pdx va < pdx utop) (ht : translate s d va = some w) :
    M.Tracked (ppn w) :=
  ⟨h.leaf_ge _ (leaf_of_translate hd hi ht), h.leaf_lt (leaf_of_translate hd hi ht)⟩

omit h in
lemma pageRefs_pos_of_translate (hd : d ∈ D) (hi : pdx va < pdx utop)
    (ht : translate s d va = some w) : 0 < pageRefs s D (ppn w) :=
  Shape.refCount_pos_of_leaf (leaf_of_translate hd hi ht)

/-- `pp_ref` of a mapped page is 0 only if its references are a multiple of 2^16. -/
lemma ppRef_ne_zero (hd : d ∈ D) (hi : pdx va < pdx utop) (ht : translate s d va = some w)
    (hlt : pageRefs s D (ppn w) < 2 ^ 16) : s.ppRef (ppn w) ≠ 0 := by
  intro h0
  have hpos := pageRefs_pos_of_translate hd hi ht
  have hins := h.insertable_of_leaf (leaf_of_translate hd hi ht)
  have hc := h.ppRef_toNat (h.tracked_of_translate hd hi ht) hins.not_kept hlt
  rw [h0] at hc
  change 0 = pageRefs s D (ppn w) at hc
  omega

/-- The entry of a mapped page is cleared and the page loses the reference. -/
lemma unmapPage (hd : d ∈ D) (hi : pdx va < pdx utop) (ht : translate s d va = some w)
    (h0 : s.ppRef (ppn w) ≠ 0) (hle : pageRefs s D (ppn w) ≤ 2 ^ 16) :
    UserAccounting M ((decRef s (ppn w)).setWord (ppn (s.mem d (pdx va))) (ptx va) 0#32) D K H := by
  have hp := h.tracked_of_translate hd hi ht
  obtain ⟨hv, rfl, hw⟩ := translate_eq_some_iff.mp ht
  refine ⟨h.toAccounting.unmapPage hd hi hv (ptx_lt va) hw hp.1 h0 hle, fun p hl => ?_⟩
  rcases Shape.leaf_write_table (T := tableShape (pdx utop)) h.owned hd hi hv hl with hl | hz
  · exact h.leaf_ge p hl
  · rw [tableShape_valid, pteValid_zero] at hz
    exact absurd hz.1 Bool.false_ne_true

/-- **The invariant after `page_remove`**, and the counts: the page that was mapped loses a
reference. -/
theorem afterRemove (hd : d ∈ D) (hi : pdx va < pdx utop)
    (hle : ∀ w, translate s d va = some w → pageRefs s D (ppn w) ≤ 2 ^ 16)
    (hr : pageRemove M s d asid va = .ok s') :
    UserAccounting M s' D K H ∧ ∀ p, pageRefs s' D p +
      (if (translate s d va).map ppn = some p then 1 else 0) = pageRefs s D p := by
  rcases pageRemove_cases hr with ⟨rfl, hnone⟩ | ⟨hv, -, hw, -, h0, rfl⟩
  · rw [h.pageLookup_eq hd hi] at hnone
    simp only [Except.ok.injEq, Option.map_eq_none_iff] at hnone
    exact ⟨h, fun p => by rw [hnone]; rfl⟩
  · have ht : translate s d va = some (pteWord s d va) := translate_eq_some_iff.mpr ⟨hv, rfl, hw⟩
    refine ⟨(h.unmapPage hd hi ht h0 (hle _ ht)).tlbInvalidate asid va, ?_⟩
    intro p
    rw [ht, Option.map_some]
    simp only [Option.some.injEq]
    exact h.refCount_unmapPage hd hi hv (ptx_lt va) hw p

/-- The leaves after a page is entered in a page table. -/
lemma leaf_ge_mapPage (hd : d ∈ D) (hi : pdx va < pdx utop)
    (hv : pteValid (s.mem d (pdx va)) = true) (hge : M.bootPages ≤ pp)
    (hfr : ppn (mkPte pp perm) = pp) {j p : ℕ}
    (hl : (tableShape (pdx utop)).Leaf
      (write s.mem (ppn (s.mem d (pdx va))) j (mkPte pp perm)) D p) : M.bootPages ≤ p := by
  rcases h.toAccounting.leaf_mapPage hd hi hv hfr hl with hl | rfl
  · exact h.leaf_ge p hl
  · exact hge

/-- The invariant after the installing half of `page_insert`, on an address that is not mapped. -/
lemma afterInstall (hd : d ∈ D) (hi : pdx va < pdx utop)
    (hins : Insertable M (pdx utop) s D K pp) (hge : M.bootPages ≤ pp)
    (hfr : ppn (mkPte pp perm) = pp) (hnone : translate s d va = none)
    (hr : pageInstall M s d asid pp va perm = .ok (0, s')) :
    UserAccounting M s' D K (H.erase pp) ∧ pageRefs s' D pp = pageRefs s D pp + 1 ∧
      ∀ p, p ≠ pp → pageRefs s' D p ≤ max (pageRefs s D p) 1 := by
  obtain ⟨hacc, hself, hother, hleaf⟩ := h.toAccounting.afterInstall hd hi hins hfr hnone hr
  refine ⟨⟨hacc, fun p hl => ?_⟩, hself, hother⟩
  rcases hleaf p hl with hl | rfl
  · exact h.leaf_ge p hl
  · exact hge

/-- **The invariant after a successful `page_insert`**, and the counts: `pp` gains a reference
unless it was mapped there, and no other page does, but for a new page table. -/
theorem afterInsert (hd : d ∈ D) (hi : pdx va < pdx utop)
    (hins : Insertable M (pdx utop) s D K pp) (hge : M.bootPages ≤ pp)
    (hfr : ppn (mkPte pp perm) = pp)
    (hle : ∀ w, translate s d va = some w → ppn w ≠ pp → pageRefs s D (ppn w) ≤ 2 ^ 16)
    (hr : pageInsert M s d asid pp va perm = .ok (0, s')) :
    UserAccounting M s' D K (H.erase pp) ∧
      pageRefs s' D pp = pageRefs s D pp +
        (if (translate s d va).map ppn = some pp then 0 else 1) ∧
      ∀ p, p ≠ pp → pageRefs s' D p ≤ max (pageRefs s D p) 1 := by
  rcases ht : translate s d va with _ | w
  · rw [pageInsert_unmapped fun hv => ⟨h.table_lt hd hi hv, translate_eq_none_iff.mp ht hv⟩] at hr
    simpa using h.afterInstall hd hi hins hge hfr ht hr
  · obtain ⟨hv, rfl, hw⟩ := translate_eq_some_iff.mp ht
    have htl := h.table_lt hd hi hv
    have hp := h.leaf_lt (leaf_of_translate hd hi ht)
    by_cases he : ppn (pteWord s d va) = pp
    · -- the page is already there: only the permissions change
      rw [pageInsert_same hv htl hw hp he] at hr
      simp only [Except.ok.injEq, Prod.mk.injEq, true_and] at hr
      subst hr
      have hfr' : ppn (mkPte pp perm) = ppn (s.mem (ppn (s.mem d (pdx va))) (ptx va)) := by
        rw [hfr]
        exact he.symm
      have hc := h.toAccounting.refCount_rewritePte hd hi hv (ptx_lt va) hw
        (pteValid_mkPte pp perm) hfr'
      have hH : H.erase pp = H := Finset.erase_eq_of_notMem fun hpH => by
        have h1 := (h.held pp hpH).2.2
        have h2 := pageRefs_pos_of_translate hd hi ht
        rw [he, pageRefs] at h2
        omega
      rw [hH]
      refine ⟨⟨(h.toAccounting.tlbInvalidate asid va).rewritePte hd hi hv (ptx_lt va) hw
        (pteValid_mkPte pp perm) hfr', fun p => h.leaf_ge_mapPage hd hi hv hge hfr⟩, ?_,
        fun p _ => ?_⟩
      · refine (hc pp).trans ?_
        rw [Option.map_some, he, if_pos rfl]
        rfl
      · exact (hc p).le.trans (le_max_left _ _)
    · -- another page is there: it is removed first
      rw [pageInsert_other hv htl hw hp he, bind_eq_ok] at hr
      obtain ⟨s1, hrem, hr⟩ := hr
      have hle1 : ∀ w, translate s d va = some w → pageRefs s D (ppn w) ≤ 2 ^ 16 := fun w hw' => by
        rw [ht, Option.some.injEq] at hw'
        exact hw' ▸ hle _ ht he
      obtain ⟨h1, hc1⟩ := h.afterRemove hd hi hle1 hrem
      have hnone : translate s1 d va = none := by
        rw [h.translate_pageRemove hd hi hrem hd hi]
        simp
      obtain ⟨h2, hpp, hother⟩ := h1.afterInstall hd hi (h.insertable_remove hd hi hins he hrem) hge
        hfr hnone hr
      refine ⟨h2, ?_, fun p hp' => (hother p hp').trans (max_le_max_right _ ?_)⟩
      · have := hc1 pp
        rw [ht, Option.map_some] at this
        simp only [Option.some.injEq, he, ↓reduceIte, Nat.add_zero] at this
        rw [hpp, this, Option.map_some, if_neg (by simpa using he)]
      · have := hc1 p
        omega

/-- Words may change in pages that are neither directories nor page tables, and in the entries of
the directories above `PDX(UTOP)`. -/
lemma congrMem {mem' : Store Word} (hdir : ∀ d ∈ D, ∀ i < pdx utop, mem' d i = s.mem d i)
    (htab : ∀ d ∈ D, ∀ i < pdx utop, pteValid (s.mem d i) = true →
      ∀ j < 1024, mem' (ppn (s.mem d i)) j = s.mem (ppn (s.mem d i)) j) :
    UserAccounting M { s with mem := mem' } D K H :=
  ⟨h.toAccounting.congrMem hdir htab,
    fun p hl => h.leaf_ge p (Shape.leaf_congr (T := tableShape (pdx utop)) hdir htab hl)⟩

/-- `page_alloc` keeps the invariant: the new page is held. -/
lemma takeFree (hf : s.pageFreeList = q :: rest) :
    UserAccounting M (s.takeFree q rest) D K (insert q H) := by
  have h0 := Shape.not_node_of_refCount (h.head_free hf).2.2.2
  refine ⟨h.toAccounting.takeFree hf, fun p hl => h.leaf_ge p ?_⟩
  exact Shape.leaf_congr (T := tableShape (pdx utop)) (fun d' hd' i _ => h.takeFree_dir hf hd' i)
    (fun d' hd' i hi' hv' j _ => fill_of_ne fun he =>
      h0 (he ▸ Shape.Node.of_slot (T := tableShape (pdx utop)) hd' hi' hv')) hl

/-- `page_alloc` changes no translation. -/
lemma translate_takeFree (hf : s.pageFreeList = q :: rest) (hd : d ∈ D)
    (hi : pdx va < pdx utop) : translate (s.takeFree q rest) d va = translate s d va := by
  have h0 := Shape.not_node_of_refCount (h.head_free hf).2.2.2
  exact Shape.lookup_congr (T := tableShape (pdx utop)) (h.takeFree_dir hf hd _)
    fun hv => fill_of_ne fun he =>
      h0 (he ▸ Shape.Node.of_slot (T := tableShape (pdx utop)) hd hi hv)

/-- The directory entry of an empty page table is cleared and the table loses its reference. -/
lemma freeTable {i : ℕ} (hd : d ∈ D) (hi : i < pdx utop) (hv : pteValid (s.mem d i) = true)
    (hempty : ∀ j < 1024, pteValid (s.mem (ppn (s.mem d i)) j) = false) :
    UserAccounting M ((decRef s (ppn (s.mem d i))).setWord d i 0#32) D K H :=
  ⟨h.toAccounting.freeTable hd hi hv hempty, fun p hl => h.leaf_ge p
    (Shape.leaf_uninstall (T := tableShape (pdx utop)) (w := 0#32) h.owned hd pteValid_zero hl)⟩

/-- A held page with no valid user entry becomes a page directory. -/
lemma addDir (hq : q ∈ H) (hempty : ∀ i < pdx utop, pteValid (s.mem q i) = false) :
    UserAccounting M (s.incRef q) (insert q D) K (H.erase q) :=
  ⟨h.toAccounting.addDir hq hempty, fun p hl =>
    h.leaf_ge p (Shape.leaf_insert (T := tableShape (pdx utop)) hempty hl)⟩

/-- A page directory with no valid user entry is dropped and loses its reference. -/
lemma dropDir (hd : d ∈ D) (hdt : M.bootPages ≤ d)
    (hempty : ∀ i < pdx utop, pteValid (s.mem d i) = false) :
    UserAccounting M (decRef s d) (D.erase d) K H :=
  ⟨h.toAccounting.dropDir hd hdt hempty, fun p hl =>
    h.leaf_ge p (Shape.leaf_erase (T := tableShape (pdx utop)) hl)⟩

end UserAccounting

end MosVolca
