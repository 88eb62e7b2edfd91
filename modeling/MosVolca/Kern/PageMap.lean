import MosVolca.Kern.PageRun

/-!
# Page tables as a map

On accounted memory, `page_insert` and `page_remove` act on the translations of a set of page
directories as the update and the removal of one key of a map, and a `page_insert` that fails
changes nothing.

## Main definitions

* `MosVolca.OutsideWindow` — the addresses that are not in a window onto the page tables.

## Main results

* `MosVolca.pageOps_refine_map` — `page_insert` and `page_remove` as map operations.
-/

namespace MosVolca

open TwoLevel

variable {M : Machine} {s s' : PhysMem} {D K H : Finset ℕ} {d d' pp : ℕ}
  {asid va va' perm r w : Word}

/-- The address `va` of the directory `d` is not in a window onto page tables in use: it is below
`UTOP`, or its directory entry is not valid, or the entry points to a page table that the kernel
keeps (those of `UPAGES` and `UENVS`). The pages of the `UVPT` window are the page tables
themselves. -/
def OutsideWindow (s : PhysMem) (K : Finset ℕ) (d : ℕ) (va : Word) : Prop :=
  va < utop ∨ pteValid (s.mem d (pdx va)) = false ∨ ppn (s.mem d (pdx va)) ∈ K

/-- A translation depends on one directory entry and one entry of its page table. -/
lemma translate_congr (hdir : s'.mem d (pdx va) = s.mem d (pdx va))
    (htab : pteValid (s.mem d (pdx va)) = true →
      s'.mem (ppn (s.mem d (pdx va))) = s.mem (ppn (s.mem d (pdx va)))) :
    translate s' d va = translate s d va :=
  Shape.lookup_congr (T := tableShape 0) hdir fun hv => congrFun (htab hv) (ptx va)

/-- `page_lookup` finds the page of a translation that lies in the memory. -/
lemma pageLookup_of_translate (ht : translate s d va = some w)
    (htab : ppn (s.mem d (pdx va)) < M.npage) (hp : ppn w < M.npage) :
    pageLookup M s d va = .ok (some (ppn w, ⟨ppn (s.mem d (pdx va)), ptx va⟩)) := by
  obtain ⟨hv, rfl, hw⟩ := translate_eq_some_iff.mp ht
  exact pageLookup_some hv htab hw hp

/-- `va2pa` gives the physical page of a translation. -/
lemma va2pa_of_translate (ht : translate s d va = some w)
    (htab : ppn (s.mem d (pdx va)) < M.npage) : va2pa M s d va = .ok (pteAddr w) := by
  obtain ⟨hv, rfl, hw⟩ := translate_eq_some_iff.mp ht
  unfold va2pa
  rw [if_pos hv, kaddr_pteAddr htab]
  rw [pteWord] at hw
  simp only [ok_bind, hw, ↓reduceIte]
  rfl

namespace Accounting

variable (h : Accounting M (pdx utop) s D K H)

include h

/-- The frame of an operation that writes no directory entry but that of `va` and no page outside
the page tables. -/
lemma translate_frame (hout : OutsideWindow s K d' va')
    (huser : va' < utop → translate s' d' va' = translate s d' va')
    (hdir : ¬ va' < utop → s'.mem d' (pdx va') = s.mem d' (pdx va'))
    (hkeep : ∀ p, ¬ (tableShape (pdx utop)).Node s.mem D p → p ∉ s.pageFreeList →
      s'.mem p = s.mem p) : translate s' d' va' = translate s d' va' := by
  by_cases hlow : va' < utop
  · exact huser hlow
  · rcases hout with hlt | hv | hk
    · exact absurd hlt hlow
    · refine translate_congr (hdir hlow) fun hv' => ?_
      rw [hv] at hv'
      exact absurd hv' Bool.false_ne_true
    · refine translate_congr (hdir hlow) fun _ => hkeep _ ?_ fun hf => ?_
      · exact Shape.not_node_of_refCount (h.kept _ hk)
      · exact ((h.free_mem _).mp hf).2.1 hk

end Accounting

lemma pdx_utop_le (h : ¬ va < utop) : pdx utop ≤ pdx va := by
  have h' : ¬ va.toNat < utop.toNat := h
  rw [utop_toNat] at h'
  rw [pdx_utop, pdx_eq]
  omega

/-- **Page-table operations refine a map.** On accounted memory, for an address below `UTOP`:
`page_insert` maps the page of `va` to `pp` and changes no other translation, or fails with
`-E_NO_MEM` and changes no translation, no count and no free page; `page_remove` unmaps the page
of `va` and changes no other translation. -/
theorem pageOps_refine_map (h : PageAccounting M s D K H) (hd : d ∈ D) (hva : va < utop)
    (hperm : perm < 4096#32) (hpp : pp < M.npage) (asid : Word) :
    ((∃ s', pageInsert M s d asid pp va perm = .ok (0, s') ∧
        (∀ va', vpn va' = vpn va →
          (∃ pte, pageLookup M s' d va' = .ok (some (pp, pte)) ∧
            s'.mem pte.page pte.slot = page2pa pp ||| perm ||| pteV) ∧
          va2pa M s' d va' = .ok (page2pa pp)) ∧
        ∀ d' ∈ D, ∀ va', OutsideWindow s K d' va' → ¬ (d' = d ∧ vpn va' = vpn va) →
          translate s' d' va' = translate s d' va') ∨
      ∃ s', pageInsert M s d asid pp va perm = .ok (-eNoMem, s') ∧
        (∀ d' va', translate s' d' va' = translate s d' va') ∧ s'.ppRef = s.ppRef ∧
        s'.pageFreeList = s.pageFreeList) ∧
    ∃ s', pageRemove M s d asid va = .ok s' ∧
      (∀ va', vpn va' = vpn va → pageLookup M s' d va' = .ok none ∧
        va2pa M s' d va' = .ok (BitVec.allOnes 32)) ∧
      ∀ d' ∈ D, ∀ va', OutsideWindow s K d' va' → ¬ (d' = d ∧ vpn va' = vpn va) →
        translate s' d' va' = translate s d' va' := by
  have hi := pdx_lt_of_lt_utop hva
  have h0 : ∀ w, translate s d va = some w → s.ppRef (ppn w) ≠ 0 := fun w hw =>
    h.ppRef_ne_zero hd hi hw (h.bounded _ (h.tracked_of_translate hd hi hw))
  refine ⟨?_, ?_⟩
  · rcases h.pageInsert_returns asid pp perm hd hi fun w hw _ => h0 w hw with
      ⟨-, -, hr⟩ | ⟨-, s', hr⟩
    · exact Or.inr ⟨_, hr, fun _ _ => rfl, rfl, rfl⟩
    · refine Or.inl ⟨s', hr, fun va' hv => ?_, fun d' hd' va' hout hne => ?_⟩
      · have ht : translate s' d va' = some (mkPte pp perm) := by
          rw [translate_congr_vpn hv, h.translate_pageInsert hd hi hr hd hi, if_pos ⟨rfl, rfl⟩]
        have hfr : ppn (mkPte pp perm) = pp := ppn_mkPte_of_lt (hpp.trans M.npage_lt) hperm
        have htab : ppn (s'.mem d (pdx va')) < M.npage := by
          rw [((vpn_eq_vpn_iff va' va).mp hv).1]
          exact (h.pageInsert_table hd hi hr).2
        have hlook := pageLookup_of_translate ht htab (hfr.symm ▸ hpp)
        rw [hfr] at hlook
        refine ⟨⟨_, hlook, (translate_eq_some_iff.mp ht).2.1⟩, ?_⟩
        rw [va2pa_of_translate ht htab, pteAddr_mkPte pp hperm]
      · have hmem := h.pageInsert_mem hd hi hr
        refine h.translate_frame hout (fun hlow => ?_) (fun hhigh => ?_) hmem.2
        · rw [h.translate_pageInsert hd hi hr hd' (pdx_lt_of_lt_utop hlow), if_neg hne]
        · have := pdx_utop_le hhigh
          exact hmem.1 d' hd' _ (by omega)
  · obtain ⟨s', hr⟩ := h.pageRemove_returns hd hi h0
    obtain ⟨h1, -⟩ := h.afterRemove hd hi
      (fun w hw => (h.bounded _ (h.tracked_of_translate hd hi hw)).le) hr
    refine ⟨s', hr, fun va' hv => ?_, fun d' hd' va' hout hne => ?_⟩
    · have ht : translate s' d va' = none := by
        rw [translate_congr_vpn hv, h.translate_pageRemove hd hi hr hd hi, if_pos ⟨rfl, rfl⟩]
      have hi' : pdx va' < pdx utop := by rwa [((vpn_eq_vpn_iff va' va).mp hv).1]
      refine ⟨?_, h1.va2pa_eq_none hd hi' ht⟩
      rw [h1.pageLookup_eq hd hi', ht]
      rfl
    · have hmem := h.pageRemove_mem hd hi hr
      refine h.translate_frame hout (fun hlow => ?_) (fun _ => congrFun (hmem.1 d' hd') _)
        fun p hp _ => hmem.2 p hp
      rw [h.translate_pageRemove hd hi hr hd' (pdx_lt_of_lt_utop hlow), if_neg hne]

/-- On the small machine a page is mapped and found again. -/
theorem pageOps_refine_map_small : ∃ s' pte,
    pageInsert smallMachine smallMem 0 0 5 0x400000#32 pteD = .ok (0, s') ∧
      pageLookup smallMachine s' 0 0x400123#32 = .ok (some (5, pte)) ∧
      va2pa smallMachine s' 0 0x400123#32 = .ok 0x5000#32 := by
  have hrefine := (pageOps_refine_map smallMem_accounting (Finset.mem_singleton_self 0)
    (by decide : 0x400000#32 < utop) (by decide : pteD < 4096#32)
    (by decide : 5 < smallMachine.npage) 0).1
  rcases hrefine with ⟨s', hr, hva, -⟩ | ⟨s', hr, -⟩
  · obtain ⟨⟨pte, hlook, -⟩, hpa⟩ := hva 0x400123#32 (by decide)
    exact ⟨s', pte, hr, hlook, hpa⟩
  · have hok : ∃ t, pageInsert smallMachine smallMem 0 0 5 0x400000#32 pteD = .ok (0, t) :=
      ⟨_, rfl⟩
    obtain ⟨t, ht⟩ := hok
    rw [hr, Except.ok.injEq, Prod.mk.injEq] at ht
    exact absurd ht.1 (by decide)

end MosVolca
