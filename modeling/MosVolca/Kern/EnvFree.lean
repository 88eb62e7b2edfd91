import MosVolca.Kern.EnvCases
import MosVolca.Kern.Spaces

/-!
# What `env_free` does to the memory

`env_free` on accounted memory: it returns, the page directory, its page tables and its references
are gone from the accounts, and no word outside the directory and its tables has changed.

## Main definitions

* `MosVolca.DirPages` — the pages of an address space: a directory and its user page tables.

## Main results

* `MosVolca.DirLoop.round` — one round of the outer loop of `env_free`.
* `MosVolca.PageAccounting.envFreeVm` — the whole of it.
* `MosVolca.translate_of_dirPages` — the other address spaces are as before.
-/

namespace MosVolca

open TwoLevel

/-- The page directory `d` and its user page tables. -/
def DirPages (s : PhysMem) (d p : ℕ) : Prop :=
  p = d ∨ ∃ i < pdx utop, pteValid (s.mem d i) = true ∧ ppn (s.mem d i) = p

variable {M : Machine} {s s' : PhysMem} {D K H : Finset ℕ} {d d' i j p q : ℕ} {asid va w : Word}

/-! ## Addresses -/

/-- The address of entry `j` of page table `i`, as `env_free` computes it. -/
def entryAddr (i j : ℕ) : Word := (BitVec.ofNat 32 i <<< 22) ||| (BitVec.ofNat 32 j <<< 12)

lemma entryAddr_toNat (hi : i < 1024) (hj : j < 1024) :
    (entryAddr i j).toNat = i * 2 ^ 22 + j * 2 ^ 12 := by
  have hlow : j * 2 ^ 12 < 2 ^ 22 := by omega
  have h1 : (BitVec.ofNat 32 i <<< 22).toNat = i <<< 22 := by
    rw [BitVec.toNat_shiftLeft, BitVec.toNat_ofNat, Nat.shiftLeft_eq, Nat.shiftLeft_eq]
    omega
  have h2 : (BitVec.ofNat 32 j <<< 12).toNat = j * 2 ^ 12 := by
    rw [BitVec.toNat_shiftLeft, BitVec.toNat_ofNat, Nat.shiftLeft_eq]
    omega
  rw [entryAddr, BitVec.toNat_or, h1, h2, ← Nat.shiftLeft_add_eq_or_of_lt hlow, Nat.shiftLeft_eq]

lemma pdx_entryAddr (hi : i < 1024) (hj : j < 1024) : pdx (entryAddr i j) = i := by
  rw [pdx_eq, entryAddr_toNat hi hj]
  omega

lemma ptx_entryAddr (hi : i < 1024) (hj : j < 1024) : ptx (entryAddr i j) = j := by
  rw [ptx_eq, entryAddr_toNat hi hj]
  omega

/-! ## The pages of an address space -/

/-- Page tables are not shared. -/
lemma Accounting.not_dirPages_dir {n : ℕ} (h : Accounting M n s D K H) (hn : n = pdx utop)
    (hd : d ∈ D) (hd' : d' ∈ D) (hne : d' ≠ d) : ¬ DirPages s d d' := by
  subst hn
  rintro (he | ⟨i, hi, hv, he⟩)
  · exact hne he
  · have hmem := h.owned.table_not_mem (T := tableShape (pdx utop)) hd hi hv
    rw [tableShape_frame, he] at hmem
    exact hmem hd'

lemma Accounting.not_dirPages_table {n : ℕ} (h : Accounting M n s D K H) (hn : n = pdx utop)
    (hd : d ∈ D) (hd' : d' ∈ D) (hne : d' ≠ d) (hi : i < pdx utop)
    (hv : pteValid (s.mem d' i) = true) : ¬ DirPages s d (ppn (s.mem d' i)) := by
  subst hn
  have hmem := h.owned.table_not_mem (T := tableShape (pdx utop)) hd' hi hv
  rw [tableShape_frame] at hmem
  rintro (he | ⟨j, hj, hvj, he⟩)
  · exact hmem (he ▸ hd)
  · exact hne (h.owned.table_inj (T := tableShape (pdx utop)) hd' hi hv hd hj hvj he.symm).1

/-- If only pages of one address space change, the others have the same translations. -/
lemma translate_of_dirPages {n : ℕ} (h : Accounting M n s D K H) (hn : n = pdx utop)
    (hd : d ∈ D) (hd' : d' ∈ D) (hne : d' ≠ d)
    (hrow : ∀ p, ¬ DirPages s d p → s'.mem p = s.mem p) (hi : pdx va < pdx utop) :
    translate s' d' va = translate s d' va :=
  Shape.lookup_congr (T := tableShape 0) (congrFun (hrow d' (h.not_dirPages_dir hn hd hd' hne)) _)
    fun hv => congrFun (hrow _ (h.not_dirPages_table hn hd hd' hne hi hv)) _

/-! ## The inner loop -/

/-- The state of the inner loop before round `j`: the entries below `j` are cleared, and nothing
else has changed in the memory. -/
structure TableLoop (M : Machine) (s₀ : PhysMem) (D K H : Finset ℕ) (t j : ℕ) (s : PhysMem) :
    Prop where
  accounting : PageAccounting M s D K H
  cleared : ∀ l < j, pteValid (s.mem t l) = false
  row : ∀ p, p ≠ t → s.mem p = s₀.mem p

/-- The inner loop of `env_free` clears a page table. -/
lemma PageAccounting.envFreePages (h : PageAccounting M s D K H) (hd : d ∈ D) (hi : i < pdx utop)
    (hv : pteValid (s.mem d i) = true) (asid : Word) :
    ∃ s', envFreePages M s d asid i (ppn (s.mem d i)) = .ok s' ∧
      TableLoop M s D K H (ppn (s.mem d i)) 1024 s' := by
  have hi' : i < 1024 := hi.trans_le (by rw [pdx_utop]; decide)
  have hdt : d ≠ ppn (s.mem d i) := (h.table_ne_dir hd hi hv).symm
  refine foldlM_range_returns (P := TableLoop M s D K H (ppn (s.mem d i))) (fun j hj s1 h1 => ?_)
    ⟨h, fun l hl => absurd hl (Nat.not_lt_zero l), fun _ _ => rfl⟩
  have hdir : s1.mem d i = s.mem d i := congrFun (h1.row d hdt) i
  have hstep : ∀ {s2 : PhysMem}, PageAccounting M s2 D K H → pteValid (s2.mem (ppn (s.mem d i)) j) =
      false → (∀ p l, ¬ (p = ppn (s.mem d i) ∧ l = j) → s2.mem p l = s1.mem p l) →
      TableLoop M s D K H (ppn (s.mem d i)) (j + 1) s2 := by
    intro s2 hacc hz hsame
    refine ⟨hacc, fun l hl => ?_, fun p hp => ?_⟩
    · by_cases hlj : l = j
      · rw [hlj, hz]
      · rw [hsame _ _ fun hc => hlj hc.2]
        exact h1.cleared l (by omega)
    · exact (funext fun l => hsame p l fun hc => hp hc.1).trans (h1.row p hp)
  by_cases hw : pteValid (s1.mem (ppn (s.mem d i)) j) = true
  · rw [if_pos hw]
    have hpdx : pdx (entryAddr i j) = i := pdx_entryAddr hi' hj
    have hlt : pdx (entryAddr i j) < pdx utop := by rw [hpdx]; exact hi
    obtain ⟨s2, hr⟩ : ∃ s2, MosVolca.pageRemove M s1 d asid (entryAddr i j) = .ok s2 :=
      h1.accounting.pageRemove_returns hd hlt fun w hw => h1.accounting.ppRef_ne_zero hd hlt hw
    refine ⟨s2, hr, ?_⟩
    have hpte : pteWord s1 d (entryAddr i j) = s1.mem (ppn (s.mem d i)) j := by
      rw [pteWord, hpdx, hdir, ptx_entryAddr hi' hj]
    rcases pageRemove_cases hr with ⟨-, hnone⟩ | ⟨-, -, -, -, -, hs2⟩
    · have ht : translate s1 d (entryAddr i j) = some (s1.mem (ppn (s.mem d i)) j) :=
        translate_eq_some_iff.mpr ⟨by rw [hpdx, hdir, hv], hpte, hw⟩
      rw [h1.accounting.pageLookup_eq hd hlt, ht] at hnone
      simp at hnone
    · have hmem : s2.mem = write s1.mem (ppn (s.mem d i)) j 0#32 := by
        rw [hs2, hpdx, hdir, ptx_entryAddr hi' hj]
        rfl
      refine hstep (h1.accounting.pageRemove hd hlt hr) ?_ fun p l hpl => ?_
      · rw [hmem, write_same, pteValid_zero]
      · rw [hmem, write_of_ne (not_and_or.mp hpl)]
  · rw [if_neg hw]
    exact ⟨s1, rfl, hstep h1.accounting (Bool.eq_false_iff.mpr hw) fun _ _ _ => rfl⟩

/-! ## The outer loop -/

/-- The directory entry of an empty page table is cleared, and the table loses its reference. -/
lemma PageAccounting.freeTable (h : PageAccounting M s D K H) (hd : d ∈ D) (hi : i < pdx utop)
    (hv : pteValid (s.mem d i) = true)
    (hempty : ∀ j < 1024, pteValid (s.mem (ppn (s.mem d i)) j) = false) :
    PageAccounting M ((decRef s (ppn (s.mem d i))).setWord d i 0#32) D K H := by
  refine ⟨h.toUserAccounting.freeTable hd hi hv hempty, fun p hp => ?_⟩
  have hc := Shape.refCount_uninstall (T := tableShape (pdx utop)) (w := 0#32) h.owned hd hi hv
    hempty pteValid_zero p
  have hb := h.bounded p hp
  change (tableShape (pdx utop)).refCount (write s.mem d i 0#32) D p < 2 ^ 16
  omega

/-- A page directory without page tables loses its reference. -/
lemma PageAccounting.dropDir (h : PageAccounting M s D K H) (hd : d ∈ D) (hge : M.bootPages ≤ d)
    (hempty : ∀ i < pdx utop, pteValid (s.mem d i) = false) :
    PageAccounting M (decRef s d) (D.erase d) K H := by
  refine ⟨h.toUserAccounting.dropDir hd hge hempty, fun p hp => ?_⟩
  have hc := Shape.refCount_erase (T := tableShape (pdx utop)) hempty hd p
  have hb := h.bounded p hp
  change (tableShape (pdx utop)).refCount s.mem (D.erase d) p < 2 ^ 16
  omega

/-- The state of the outer loop before round `i`: the directory entries below `i` are cleared, the
others are as before with their page tables, and nothing has changed outside the address space. -/
structure DirLoop (M : Machine) (s₀ : PhysMem) (D K H : Finset ℕ) (d i : ℕ) (s : PhysMem) :
    Prop where
  accounting : PageAccounting M s D K H
  cleared : ∀ l < i, pteValid (s.mem d l) = false
  dir : ∀ l, i ≤ l → s.mem d l = s₀.mem d l
  row : ∀ p, ¬ DirPages s₀ d p → s.mem p = s₀.mem p

/-- **One round of the outer loop** unmaps the pages of a page table and drops it. -/
lemma DirLoop.round {s₀ : PhysMem} (h : DirLoop M s₀ D K H d i s) (hd : d ∈ D) (hi : i < pdx utop)
    (asid : Word) :
    ∃ s', envFreeTable M d asid s i = .ok s' ∧ DirLoop M s₀ D K H d (i + 1) s' := by
  unfold envFreeTable
  have hdir : s.mem d i = s₀.mem d i := h.dir i le_rfl
  by_cases hv : pteValid (s.mem d i) = true
  · simp only [hv, ↓reduceIte]
    have hlt := h.accounting.table_lt hd hi hv
    have hdt : d ≠ ppn (s.mem d i) := (h.accounting.table_ne_dir hd hi hv).symm
    obtain ⟨s1, hloop, h1⟩ := h.accounting.envFreePages hd hi hv asid
    have hdir1 : s1.mem d = s.mem d := h1.row d hdt
    have hv1 : pteValid (s1.mem d i) = true := by rw [hdir1, hv]
    have htab : ppn (s1.mem d i) = ppn (s.mem d i) := by rw [hdir1]
    have hfree := h1.accounting.freeTable hd hi hv1 fun j hj => by
      rw [htab]
      exact h1.cleared j hj
    rw [htab] at hfree
    have href : (s1.setWord d i 0#32).ppRef (ppn (s.mem d i)) ≠ 0 := by
      have hone := h1.accounting.owned.refCount_table (T := tableShape (pdx utop)) hd hi hv1
      rw [tableShape_frame, htab] at hone
      have htr : M.Tracked (ppn (s.mem d i)) :=
        ⟨h.accounting.table_ge d hd i hi hv, hlt⟩
      have hk : ppn (s.mem d i) ∉ K := fun hk => by
        have := h1.accounting.kept _ hk
        omega
      rw [PhysMem.setWord_ppRef, h1.accounting.ref _ htr hk, hone]
      decide
    refine ⟨tlbInvalidate (decRef (s1.setWord d i 0#32) (ppn (s.mem d i))) asid
      (uvpt + (BitVec.ofNat 32 i <<< 12)), ?_, ?_⟩
    · rw [kaddr_pteAddr hlt, ok_bind, hloop, ok_bind, pa2page, ppn_pteAddr,
        if_neg (Nat.not_le.mpr hlt)]
      simp only [pure_eq_ok, ok_bind, pageDecref_ok href]
    · have hmem : ∀ p l, ¬ (p = d ∧ l = i) →
          write s1.mem d i 0#32 p l = s1.mem p l := fun p l hpl => write_of_ne (not_and_or.mp hpl)
      refine ⟨hfree.tlbInvalidate _ _, fun l hl => ?_, fun l hl => ?_, fun p hp => ?_⟩
      · change pteValid (write s1.mem d i 0#32 d l) = false
        by_cases hli : l = i
        · rw [hli, write_same, pteValid_zero]
        · rw [hmem d l fun hc => hli hc.2, hdir1]
          exact h.cleared l (by omega)
      · change write s1.mem d i 0#32 d l = _
        rw [hmem d l fun hc => by omega, hdir1]
        exact h.dir l (by omega)
      · change write s1.mem d i 0#32 p = _
        have hpd : p ≠ d := fun hc => hp (Or.inl hc)
        have hpt : p ≠ ppn (s.mem d i) := fun hc =>
          hp (Or.inr ⟨i, hi, hdir ▸ hv, by rw [← hdir, hc]⟩)
        rw [funext fun l => hmem p l fun hc => hpd hc.1, h1.row p hpt]
        exact h.row p hp
  · rw [if_neg hv]
    refine ⟨s, rfl, h.accounting, fun l hl => ?_, fun l hl => h.dir l (by omega), h.row⟩
    rcases Nat.lt_succ_iff_lt_or_eq.mp hl with hl | rfl
    · exact h.cleared l hl
    · exact Bool.eq_false_iff.mpr hv

/-- **`env_free` returns**: the address space is gone, the page accounting holds for the others,
and no word outside the address space has changed. -/
theorem PageAccounting.envFreeVm (h : PageAccounting M s D K H) (hd : d ∈ D)
    (hge : M.bootPages ≤ d) (asid : Word) :
    ∃ s', envFreeVm M s d asid = .ok s' ∧ PageAccounting M s' (D.erase d) K H ∧
      ∀ p, ¬ DirPages s d p → s'.mem p = s.mem p := by
  obtain ⟨s1, hloop, h1⟩ := foldlM_range_returns (f := envFreeTable M d asid)
    (P := DirLoop M s D K H d) (n := pdx utop) (b := s) (fun i hi s1 h1 => h1.round hd hi asid)
    ⟨h, fun l hl => absurd hl (Nat.not_lt_zero l), fun _ _ => rfl, fun _ _ => rfl⟩
  have hdrop := h1.accounting.dropDir hd hge h1.cleared
  have hlt := h.dir_lt hd
  have href : s1.ppRef d ≠ 0 := by
    have hone := h1.accounting.owned.refCount_dir hd
    have hk : d ∉ K := fun hk => by
      have := h1.accounting.kept d hk
      omega
    rw [h1.accounting.ref d ⟨hge, hlt⟩ hk, hone]
    decide
  refine ⟨_, ?_, hdrop.tlbInvalidate asid (uvpt + (BitVec.ofNat 32 (pdx uvpt) <<< 12)),
    fun p hp => h1.row p hp⟩
  unfold MosVolca.envFreeVm
  have hpa : pa2page M (page2pa d) = .ok d := by
    rw [pa2page_eq_ok, ppn_page2pa (hlt.trans M.npage_lt)]
    exact ⟨hlt, rfl⟩
  rw [hloop, ok_bind, hpa, ok_bind, pageDecref_ok href]
  rfl

end MosVolca
