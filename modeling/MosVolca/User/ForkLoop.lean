import MosVolca.Kern.EnvCases
import MosVolca.Kern.SyscallCases
import MosVolca.User.Fork

/-!
# The loop of `fork`

What the loop over the pages of the parent has done after each page: the parent keeps its frames,
with new permissions for the pages that were writable, and the child maps the pages whose page
table could be made. No page is freed on the way, so the invariant needs no bound on the number of
references.

## Main definitions

* `MosVolca.entryAt` — the entry of a virtual page in a page directory.
* `MosVolca.childEntry` — the entry that the child is given for an entry of the parent.
* `MosVolca.Forking` — the memory when the loop has done the pages before `n`.

## Main results

* `MosVolca.duppage_returns` — one page.
* `MosVolca.forkPages_returns` — the loop.
-/

namespace MosVolca

open TwoLevel

variable {M : Machine} {s s' s₀ : PhysMem} {D K : Finset ℕ} {d q free i m n np nc : ℕ}
  {va w asid child r : Word} {k k₁ : Kern} {c e : EnvPtr} {P : Proc}

/-! ## Virtual pages -/

/-- `vpn << PGSHIFT`: the address of a virtual page. -/
def pageAddr (n : ℕ) : Word := BitVec.ofNat 32 n <<< 12

/-- The entry of the virtual page `n`. -/
def entryAt (s : PhysMem) (d n : ℕ) : Option Word := translate s d (pageAddr n)

/-- The virtual pages below `UTOP`. -/
abbrev userPages : ℕ := pdx utop * 1024

lemma vpn_pageAddr (hn : n < 2 ^ 20) : vpn (pageAddr n) = n := ppn_page2pa hn

lemma pdx_pageAddr (hn : n < 2 ^ 20) : pdx (pageAddr n) = n / 1024 ∧ ptx (pageAddr n) = n % 1024 := by
  have h := vpn_pageAddr hn
  rw [vpn_eq] at h
  have := ptx_lt (pageAddr n)
  omega

lemma userPages_lt (hn : n < userPages) : n < 2 ^ 20 ∧ pdx (pageAddr n) < pdx utop := by
  have h : userPages = 521216 := by decide
  rw [h] at hn
  rw [(pdx_pageAddr (by omega)).1, pdx_utop]
  omega

lemma vpn_lt_userPages (h : va < utop) : vpn va < userPages := by
  have h1 : userPages = 521216 := by decide
  rw [BitVec.lt_def, utop_toNat] at h
  rw [vpn_eq_div, h1]
  omega

/-- The translation of an address is the entry of its page. -/
lemma translate_eq_entryAt (s : PhysMem) (d : ℕ) (va : Word) :
    translate s d va = entryAt s d (vpn va) := by
  have h : vpn va < 2 ^ 20 := ppn_lt va
  exact translate_congr_vpn (vpn_pageAddr h).symm

lemma vpn_ustacktop : vpn ustacktop = 521214 := by decide
lemma vpn_utemp : vpn utemp = 1022 := by decide

lemma lt_ustacktop_iff : va < ustacktop ↔ vpn va < vpn ustacktop := by
  rw [BitVec.lt_def, ustacktop_toNat, vpn_ustacktop, vpn_eq_div]
  omega

lemma utemp_le_iff : utemp ≤ va ↔ vpn utemp ≤ vpn va := by
  rw [BitVec.le_def, utemp_toNat, vpn_utemp, vpn_eq_div]
  omega

/-- A user page is legal from `UTEMP` on. -/
lemma isIllegalVa_pageAddr (hn : n < userPages) :
    isIllegalVa (pageAddr n) = false ↔ vpn utemp ≤ n := by
  obtain ⟨h20, hi⟩ := userPages_lt hn
  have h1 : userPages = 521216 := by decide
  have hnat := vpn_pageAddr h20
  rw [vpn_eq_div] at hnat
  simp only [isIllegalVa, Bool.or_eq_false_iff, decide_eq_false_iff_not, BitVec.not_lt, ge_iff_le,
    BitVec.not_le]
  rw [utemp_le_iff, vpn_pageAddr h20, BitVec.lt_def, utop_toNat]
  omega

/-! ## The entries of the child -/

/-- The permissions that `duppage` passes for the entry `w` of the parent. -/
def dupPerm (w : Word) : Word :=
  if w &&& 0xfff#32 &&& pteD = 0 ∨ w &&& 0xfff#32 &&& pteLibrary ≠ 0 then w &&& 0xfff#32
  else (w &&& 0xfff#32 &&& ~~~pteD) ||| pteCow

/-- **The entry that the child should have** for the entry `w` of the parent: `PTE_D` is replaced
by `PTE_COW` if the page was writable and not shared. -/
def childEntry (w : Word) : Word :=
  if w &&& pteD ≠ 0 ∧ w &&& pteLibrary = 0 then (w &&& ~~~pteD) ||| pteCow else w

lemma and_fff_lt (w v : Word) : w &&& 0xfff#32 &&& v < 4096#32 := by
  rw [BitVec.lt_def, BitVec.toNat_and, BitVec.toNat_and]
  have h1 : (0xfff#32).toNat = 4095 := rfl
  have h2 : (4096#32).toNat = 4096 := rfl
  rw [h1, h2]
  exact Nat.lt_succ_of_le (Nat.and_le_left.trans Nat.and_le_right)

lemma dupPerm_lt (w : Word) : dupPerm w < 4096#32 := by
  unfold dupPerm
  split_ifs
  · have h := and_fff_lt w (BitVec.allOnes 32)
    rwa [BitVec.and_allOnes] at h
  · have h := and_fff_lt w (~~~pteD)
    have h2 : pteCow.toNat < 2 ^ 12 := by decide
    exact Nat.or_lt_two_pow (n := 12) h h2

/-- The entry that `page_insert` makes of these permissions. -/
lemma mkPte_dupPerm (hw : pteValid w = true) : mkPte (ppn w) (dupPerm w) = childEntry w := by
  rw [pteValid_eq] at hw
  have hD : 0xfff#32 &&& pteD = pteD := by decide
  have hL : 0xfff#32 &&& pteLibrary = pteLibrary := by decide
  have hbit : ∀ i < 32, (pteV.getLsbD i = true → i = 9 ∧ pteD.getLsbD i = false) ∧
      (pteD.getLsbD i = true → (0xfff#32).getLsbD i = true) := by decide
  unfold dupPerm childEntry mkPte
  rw [BitVec.and_assoc, BitVec.and_assoc, hD, hL, page2pa_ppn, pteAddr]
  split_ifs with h1 h2 h2
  · tauto
  · apply BitVec.eq_of_getLsbD_eq
    intro i hi
    obtain ⟨hv, -⟩ := hbit i hi
    simp only [BitVec.getLsbD_or, BitVec.getLsbD_and, BitVec.getLsbD_not, hi, decide_true]
    rcases hV : pteV.getLsbD i with _ | _
    · cases w.getLsbD i <;> simp
    · rw [(hv hV).1, hw]
      simp
  · apply BitVec.eq_of_getLsbD_eq
    intro i hi
    obtain ⟨hv, hd⟩ := hbit i hi
    simp only [BitVec.getLsbD_or, BitVec.getLsbD_and, BitVec.getLsbD_not, hi, decide_true]
    rcases hV : pteV.getLsbD i with _ | _
    · rcases hD' : pteD.getLsbD i with _ | _
      · cases w.getLsbD i <;> cases (0xfff#32).getLsbD i <;> simp
      · rw [hd hD']
        simp
    · rw [(hv hV).2, (hv hV).1, hw]
      simp
  · tauto

lemma ppn_childEntry (hw : pteValid w = true) : ppn (childEntry w) = ppn w := by
  rw [← mkPte_dupPerm hw, ppn_mkPte_of_lt (ppn_lt w) (dupPerm_lt w)]

lemma entryAt_valid (h : entryAt s d n = some w) : pteValid w = true :=
  (translate_eq_some_iff.mp h).2.2

/-- What `duppage` does to the parent's entry, if it does not remap it. -/
lemma childEntry_of_not_dup (h : w &&& 0xfff#32 &&& pteD = 0 ∨ w &&& 0xfff#32 &&& pteLibrary ≠ 0) :
    childEntry w = w := by
  have hD : 0xfff#32 &&& pteD = pteD := by decide
  have hL : 0xfff#32 &&& pteLibrary = pteLibrary := by decide
  rw [BitVec.and_assoc, BitVec.and_assoc, hD, hL] at h
  unfold childEntry
  rw [if_neg (by tauto)]

/-! ## The memory during the loop -/

/-- The page `m` has been duplicated when the loop has done the pages before `n`. -/
def Dupped (n m : ℕ) : Prop := vpn utemp ≤ m ∧ m < n ∧ m < vpn ustacktop

instance (n m : ℕ) : Decidable (Dupped n m) := inferInstanceAs (Decidable (_ ∧ _))

lemma dupped_succ : Dupped (n + 1) m ↔
    Dupped n m ∨ m = n ∧ vpn utemp ≤ n ∧ n < vpn ustacktop := by
  unfold Dupped
  omega

lemma not_dupped_self (n : ℕ) : ¬ Dupped n n := fun h => lt_irrefl n h.2.1

/-- The page tables of the child. -/
def childTables (s : PhysMem) (q : ℕ) : Finset ℕ :=
  (Finset.range (pdx utop)).filter fun i => pteValid (s.mem q i) = true

/-- The page tables that the child needs for the pages before `n`. -/
def neededBefore (s : PhysMem) (d n : ℕ) : Finset ℕ :=
  ((Finset.range n).filter fun m => Dupped n m ∧ entryAt s d m ≠ none).image (· / 1024)

lemma mem_childTables : i ∈ childTables s q ↔ i < pdx utop ∧ pteValid (s.mem q i) = true := by
  rw [childTables, Finset.mem_filter, Finset.mem_range]

lemma mem_neededBefore : i ∈ neededBefore s d n ↔
    ∃ m, Dupped n m ∧ entryAt s d m ≠ none ∧ m / 1024 = i := by
  simp only [neededBefore, Finset.mem_image, Finset.mem_filter, Finset.mem_range]
  constructor
  · rintro ⟨m, ⟨-, h1, h2⟩, h3⟩
    exact ⟨m, h1, h2, h3⟩
  · rintro ⟨m, h1, h2, h3⟩
    exact ⟨m, ⟨h1.2.1, h1, h2⟩, h3⟩

/-- One more page needs at most its own page table. -/
lemma neededBefore_succ (h : vpn utemp ≤ n ∧ n < vpn ustacktop ∧ entryAt s d n ≠ none) :
    neededBefore s d (n + 1) = insert (n / 1024) (neededBefore s d n) := by
  ext i
  rw [Finset.mem_insert, mem_neededBefore, mem_neededBefore]
  constructor
  · rintro ⟨m, hm, hne, rfl⟩
    rcases dupped_succ.mp hm with hm | ⟨rfl, -⟩
    · exact Or.inr ⟨m, hm, hne, rfl⟩
    · exact Or.inl rfl
  · rintro (rfl | ⟨m, hm, hne, rfl⟩)
    · exact ⟨n, dupped_succ.mpr (Or.inr ⟨rfl, h.1, h.2.1⟩), h.2.2, rfl⟩
    · exact ⟨m, dupped_succ.mpr (Or.inl hm), hne, rfl⟩

lemma neededBefore_skip (h : ¬ (vpn utemp ≤ n ∧ n < vpn ustacktop ∧ entryAt s d n ≠ none)) :
    neededBefore s d (n + 1) = neededBefore s d n := by
  ext i
  rw [mem_neededBefore, mem_neededBefore]
  constructor
  · rintro ⟨m, hm, hne, hi⟩
    rcases dupped_succ.mp hm with hm | ⟨rfl, hlow, hn⟩
    · exact ⟨m, hm, hne, hi⟩
    · exact absurd ⟨hlow, hn, hne⟩ h
  · rintro ⟨m, hm, hne, hi⟩
    exact ⟨m, dupped_succ.mpr (Or.inl hm), hne, hi⟩

/-- The entries after a successful `page_insert` at a user page. -/
lemma entryAt_pageInsert {pp d' : ℕ} {perm : Word} {D' H : Finset ℕ}
    (h : Accounting M (pdx utop) s D' K H) (hd : d ∈ D') (hn : n < userPages)
    (hr : pageInsert M s d asid pp (pageAddr n) perm = .ok (0, s')) (hd' : d' ∈ D')
    (hm : m < userPages) :
    entryAt s' d' m = if d' = d ∧ m = n then some (mkPte pp perm) else entryAt s d' m := by
  obtain ⟨hn20, hi⟩ := userPages_lt hn
  obtain ⟨hm20, hi'⟩ := userPages_lt hm
  unfold entryAt
  rw [h.translate_pageInsert hd hi hr hd' hi', vpn_pageAddr hn20, vpn_pageAddr hm20]

/-- **The memory during the loop**, from the memory `s₀` of a parent with the page directory `d`:
the pages before `np` have been remapped in the parent and those before `nc` have been mapped in
the child, whose page directory is `q`. The child has the page tables that it needs or there is no
memory left; there were `size` free pages when the loop began. -/
structure Forking (M : Machine) (s₀ : PhysMem) (D K : Finset ℕ) (d q size np nc : ℕ)
    (s : PhysMem) : Prop where
  accounting : UserAccounting M s (insert q D) K ∅
  dir : ∀ i, s.mem d i = s₀.mem d i
  parent : ∀ m < userPages, entryAt s d m =
    if Dupped np m then (entryAt s₀ d m).map childEntry else entryAt s₀ d m
  child : ∀ m < userPages, entryAt s q m =
    if Dupped nc m ∧ pteValid (s.mem q (m / 1024)) = true then (entryAt s₀ d m).map childEntry
    else none
  needed : childTables s q ⊆ neededBefore s₀ d nc
  enough : childTables s q = neededBefore s₀ d nc ∨ s.pageFreeList = []
  count : (childTables s q).card + s.pageFreeList.length = size
  contents : ∀ m < userPages, ∀ w, entryAt s₀ d m = some w → s.mem (ppn w) = s₀.mem (ppn w)

namespace Forking

variable {size : ℕ} (h : Forking M s₀ D K d q size np nc s) (hd : d ∈ D)

include h

/-- The parent still maps the frame of each of its pages. -/
lemma parent_some (hm : m < userPages) (hw : entryAt s₀ d m = some w) :
    ∃ w', entryAt s d m = some w' ∧ ppn w' = ppn w := by
  rw [h.parent m hm, hw]
  split_ifs
  · exact ⟨_, rfl, ppn_childEntry (entryAt_valid hw)⟩
  · exact ⟨_, rfl, rfl⟩

include hd

/-- The frames of the parent are mapped. -/
lemma leaf (hm : m < userPages) (hw : entryAt s₀ d m = some w) :
    (tableShape (pdx utop)).Leaf s.mem (insert q D) (ppn w) := by
  obtain ⟨w', hw', he⟩ := h.parent_some hm hw
  rw [← he]
  exact leaf_of_translate (Finset.mem_insert_of_mem hd) (userPages_lt hm).2 hw'

/-- Their contents survive what `page_insert` writes. -/
lemma contents_of_mem (hs' : ∀ p, ¬ (tableShape (pdx utop)).Node s.mem (insert q D) p →
      p ∉ s.pageFreeList → s'.mem p = s.mem p) :
    ∀ m < userPages, ∀ w, entryAt s₀ d m = some w → s'.mem (ppn w) = s₀.mem (ppn w) := by
  intro m hm w hw
  have hins := h.accounting.insertable_of_leaf (h.leaf hd hm hw)
  rw [hs' _ hins.not_node hins.not_free, h.contents m hm w hw]

omit hd in
/-- A page that the child does not get. -/
lemma skipChild (hskip : ¬ (vpn utemp ≤ nc ∧ nc < vpn ustacktop ∧ entryAt s₀ d nc ≠ none)) :
    Forking M s₀ D K d q size np (nc + 1) s := by
  refine ⟨h.accounting, h.dir, h.parent, fun m hm => ?_, ?_, ?_, h.count, h.contents⟩
  · rw [h.child m hm]
    simp only [dupped_succ]
    by_cases hmn : m = nc ∧ vpn utemp ≤ nc ∧ nc < vpn ustacktop
    · have hnone : entryAt s₀ d m = none := by
        by_contra hne
        exact hskip ⟨hmn.2.1, hmn.2.2, hmn.1 ▸ hne⟩
      rw [hnone]
      simp
    · simp [hmn]
  · rw [neededBefore_skip hskip]
    exact h.needed
  · rw [neededBefore_skip hskip]
    exact h.enough

omit hd in
/-- A page whose entry in the parent stays. -/
lemma skipParent (hskip : ∀ w, entryAt s₀ d np = some w → vpn utemp ≤ np → np < vpn ustacktop →
    childEntry w = w) : Forking M s₀ D K d q size (np + 1) nc s := by
  refine ⟨h.accounting, h.dir, fun m hm => ?_, h.child, h.needed, h.enough, h.count, h.contents⟩
  rw [h.parent m hm]
  simp only [dupped_succ]
  by_cases hmn : m = np ∧ vpn utemp ≤ np ∧ np < vpn ustacktop
  · obtain ⟨rfl, hlow, hn⟩ := hmn
    rw [if_neg (not_dupped_self m), if_pos (Or.inr ⟨rfl, hlow, hn⟩)]
    rcases hw : entryAt s₀ d m with _ | w
    · rfl
    · rw [Option.map_some, hskip w hw hlow hn]
  · simp [hmn]

/-- **A page of the child.** Mapping a page of the parent in the child succeeds, or fails because a
page table is missing and no page is free. -/
lemma childInsert (hq : q ∉ D) (hlow : vpn utemp ≤ nc) (hn : nc < vpn ustacktop)
    (hw : entryAt s₀ d nc = some w) (asid : Word) :
    ∃ r s', pageInsert M s q asid (ppn w) (pageAddr nc) (dupPerm w) = .ok (r, s') ∧
      Forking M s₀ D K d q size np (nc + 1) s' ∧ childTables s q ⊆ childTables s' q ∧
      (r = 0 ∧ pteValid (s'.mem q (nc / 1024)) = true ∨ r = -eNoMem) := by
  have hacc := h.accounting
  have hqD : q ∈ insert q D := Finset.mem_insert_self q D
  have hdD : d ∈ insert q D := Finset.mem_insert_of_mem hd
  have hdq : d ≠ q := fun he => hq (he ▸ hd)
  have hu : nc < userPages := hn.trans (by decide)
  obtain ⟨h20, hi⟩ := userPages_lt hu
  have hpdx := (pdx_pageAddr h20).1
  have hnone : translate s q (pageAddr nc) = none := by
    have := h.child nc hu
    rwa [if_neg fun hc => not_dupped_self nc hc.1] at this
  have hsucc : neededBefore s₀ d (nc + 1) = insert (nc / 1024) (neededBefore s₀ d nc) :=
    neededBefore_succ ⟨hlow, hn, by simp [hw]⟩
  have hdup : ∀ {m}, Dupped (nc + 1) m ↔ Dupped nc m ∨ m = nc := by
    intro m
    rw [dupped_succ]
    exact or_congr_right (and_iff_left ⟨hlow, hn⟩)
  rcases hacc.pageInsert_returns asid (ppn w) (dupPerm w) hqD hi
    (fun w hw => by rw [hnone] at hw; simp at hw) with ⟨hv, hf, hr⟩ | ⟨-, s', hr⟩
  · -- the child lacks the page table for good
    rw [hpdx] at hv
    refine ⟨_, _, hr, ⟨hacc.tlbInvalidate _ _, h.dir, h.parent, fun m hm => ?_, ?_, Or.inr hf,
      h.count, h.contents⟩, Finset.Subset.rfl, Or.inr rfl⟩
    · refine (h.child m hm).trans ?_
      simp only [hdup, PhysMem.tlbInvalidate_mem]
      by_cases hmn : m = nc
      · subst hmn
        simp [hv]
      · simp [hmn]
    · rw [hsucc]
      exact h.needed.trans (Finset.subset_insert _ _)
  · have hleaf := h.leaf hd hu hw
    obtain ⟨hacc', -, -⟩ := hacc.afterInsert hqD hi (hacc.insertable_of_leaf hleaf)
      (hacc.leaf_ge _ hleaf) (ppn_mkPte_of_lt (ppn_lt w) (dupPerm_lt w))
      (fun w hw => by rw [hnone] at hw; simp at hw) hr
    obtain ⟨hdirs, hmem⟩ := hacc.pageInsert_mem hqD hi hr
    have htab := (hacc.pageInsert_table hqD hi hr).1
    rw [hpdx] at hdirs htab
    have hentry := fun m (hm : m < userPages) {x : ℕ} (hx : x ∈ insert q D) =>
      entryAt_pageInsert hacc.toAccounting hqD hu hr hx hm
    -- the page tables of the child
    have hvalid : ∀ i, pteValid (s'.mem q i) = true ↔
        i = nc / 1024 ∨ pteValid (s.mem q i) = true := by
      intro i
      by_cases hin : i = nc / 1024
      · simp [hin, htab]
      · rw [hdirs q hqD i fun hc => hin hc.2.1]
        simp [hin]
    have htables : childTables s' q = insert (nc / 1024) (childTables s q) := by
      ext i
      rw [Finset.mem_insert, mem_childTables, mem_childTables, hvalid]
      have hlt : nc / 1024 < pdx utop := hpdx ▸ hi
      constructor
      · rintro ⟨h1, h2 | h2⟩
        · exact Or.inl h2
        · exact Or.inr ⟨h1, h2⟩
      · rintro (rfl | ⟨h1, h2⟩)
        · exact ⟨hlt, Or.inl rfl⟩
        · exact ⟨h1, Or.inr h2⟩
    -- the free list gives up the new page table, if one is made
    have hfree : pteValid (s.mem q (nc / 1024)) = true ∧ s'.pageFreeList = s.pageFreeList ∨
        pteValid (s.mem q (nc / 1024)) = false ∧ ∃ x, s.pageFreeList = x :: s'.pageFreeList := by
      rcases hv : pteValid (s.mem q (nc / 1024)) with _ | _
      · obtain ⟨x, rest, hf, rfl, -⟩ := hacc.pageInsert_newTable hqD (by rw [hpdx, hv]) hr
        exact Or.inr ⟨rfl, x, hf⟩
      · exact Or.inl ⟨rfl, hacc.pageInsert_pageFreeList hqD hi (by rw [hpdx, hv])
          (fun w hw => by rw [hnone] at hw; simp at hw) hr⟩
    have henough : pteValid (s.mem q (nc / 1024)) = false →
        childTables s q = neededBefore s₀ d nc := by
      intro hv
      refine h.enough.resolve_right fun hnil => ?_
      rcases hfree with ⟨hv', -⟩ | ⟨-, x, hf⟩
      · rw [hv] at hv'
        exact absurd hv' Bool.false_ne_true
      · rw [hnil] at hf
        exact absurd hf (by simp)
    refine ⟨0, s', hr, ⟨by simpa using hacc', fun i => ?_, fun m hm => ?_, fun m hm => ?_, ?_, ?_,
      ?_, h.contents_of_mem hd hmem⟩, (Finset.subset_insert _ _).trans htables.ge, Or.inl ⟨rfl, htab⟩⟩
    · rw [hdirs d hdD i fun hc => hdq hc.1]
      exact h.dir i
    · rw [hentry m hm hdD, if_neg fun hc => hdq hc.1]
      exact h.parent m hm
    · rw [hentry m hm hqD]
      by_cases hmn : m = nc
      · subst hmn
        rw [if_pos ⟨rfl, rfl⟩, if_pos ⟨hdup.mpr (Or.inr rfl), htab⟩, hw, Option.map_some,
          mkPte_dupPerm (entryAt_valid hw)]
      · rw [if_neg fun hc => hmn hc.2, h.child m hm]
        simp only [hdup, hmn, or_false, hvalid]
        by_cases hdm : Dupped nc m ∧ m / 1024 = nc / 1024
        · -- an earlier page of the same table
          obtain ⟨hdm, hsame⟩ := hdm
          rcases hv : pteValid (s.mem q (nc / 1024)) with _ | _
          · have hm0 : entryAt s₀ d m = none := by
              by_contra hne
              have hmem : nc / 1024 ∈ childTables s q := by
                rw [henough hv]
                exact mem_neededBefore.mpr ⟨m, hdm, hne, hsame⟩
              rw [mem_childTables, hv] at hmem
              exact absurd hmem.2 Bool.false_ne_true
            simp [hm0]
          · simp [hsame, hv]
        · rw [not_and] at hdm
          by_cases hdm' : Dupped nc m
          · simp [hdm', hdm hdm']
          · simp [hdm']
    · rw [htables, hsucc]
      exact Finset.insert_subset_insert _ h.needed
    · rcases h.enough with he | hnil
      · exact Or.inl (by rw [htables, hsucc, he])
      · rcases hfree with ⟨-, hf⟩ | ⟨-, x, hf⟩
        · exact Or.inr (hf.trans hnil)
        · rw [hnil] at hf
          exact absurd hf (by simp)
    · rw [htables]
      rcases hfree with ⟨hv, hf⟩ | ⟨hv, x, hf⟩
      · have hmem : nc / 1024 ∈ childTables s q :=
          mem_childTables.mpr ⟨hpdx ▸ hi, hv⟩
        rw [Finset.insert_eq_of_mem hmem, hf, h.count]
      · have hmem : nc / 1024 ∉ childTables s q := fun hc => by
          rw [mem_childTables, hv] at hc
          exact absurd hc.2 Bool.false_ne_true
        rw [Finset.card_insert_of_notMem hmem, ← h.count, hf, List.length_cons]
        omega

/-- **A page of the parent.** Mapping it again with new permissions succeeds. -/
lemma parentInsert (hq : q ∉ D) (hlow : vpn utemp ≤ np) (hn : np < vpn ustacktop)
    (hw : entryAt s₀ d np = some w) (asid : Word) :
    ∃ s', pageInsert M s d asid (ppn w) (pageAddr np) (dupPerm w) = .ok (0, s') ∧
      Forking M s₀ D K d q size (np + 1) nc s' ∧ s'.mem q = s.mem q := by
  have hacc := h.accounting
  have hqD : q ∈ insert q D := Finset.mem_insert_self q D
  have hdD : d ∈ insert q D := Finset.mem_insert_of_mem hd
  have hqd : q ≠ d := fun he => hq (he ▸ hd)
  have hu : np < userPages := hn.trans (by decide)
  obtain ⟨h20, hi⟩ := userPages_lt hu
  have ht : translate s d (pageAddr np) = some w := by
    have := h.parent np hu
    rwa [if_neg (not_dupped_self np), hw] at this
  have hv : pteValid (s.mem d (pdx (pageAddr np))) = true := (translate_eq_some_iff.mp ht).1
  have hsame : ∀ w', translate s d (pageAddr np) = some w' → ppn w' = ppn w := fun w' hw' => by
    rw [ht, Option.some.injEq] at hw'
    rw [hw']
  rcases hacc.pageInsert_returns asid (ppn w) (dupPerm w) hdD hi
    (fun w' hw' hne => absurd (hsame w' hw') hne) with ⟨hv', -, -⟩ | ⟨-, s', hr⟩
  · rw [hv] at hv'
    exact absurd hv'.symm Bool.false_ne_true
  have hleaf := h.leaf hd hu hw
  obtain ⟨hacc', -, -⟩ := hacc.afterInsert hdD hi (hacc.insertable_of_leaf hleaf)
    (hacc.leaf_ge _ hleaf) (ppn_mkPte_of_lt (ppn_lt w) (dupPerm_lt w))
    (fun w' hw' hne => absurd (hsame w' hw') hne) hr
  obtain ⟨hdirs, hmem⟩ := hacc.pageInsert_mem hdD hi hr
  have hrow : ∀ x ∈ insert q D, s'.mem x = s.mem x := fun x hx => funext fun i =>
    hdirs x hx i fun hc => by
      obtain ⟨-, rfl, hv'⟩ := hc
      rw [hv] at hv'
      exact absurd hv'.symm Bool.false_ne_true
  have hfree := hacc.pageInsert_pageFreeList hdD hi hv hsame hr
  have hentry := fun m (hm : m < userPages) {x : ℕ} (hx : x ∈ insert q D) =>
    entryAt_pageInsert hacc.toAccounting hdD hu hr hx hm
  have htables : childTables s' q = childTables s q := by
    rw [childTables, hrow q hqD]
    rfl
  refine ⟨s', hr, ⟨by simpa using hacc', fun i => ?_, fun m hm => ?_, fun m hm => ?_, ?_, ?_, ?_,
    h.contents_of_mem hd hmem⟩, hrow q hqD⟩
  · rw [hrow d hdD]
    exact h.dir i
  · rw [hentry m hm hdD]
    simp only [dupped_succ]
    by_cases hmn : m = np
    · subst hmn
      rw [if_pos ⟨trivial, rfl⟩, if_pos (Or.inr ⟨rfl, hlow, hn⟩), hw, Option.map_some,
        mkPte_dupPerm (entryAt_valid hw)]
    · rw [if_neg fun hc => hmn hc.2, h.parent m hm]
      simp [hmn]
  · rw [hentry m hm hqD, if_neg fun hc => hqd hc.1, hrow q hqD]
    exact h.child m hm
  · rw [htables]
    exact h.needed
  · rw [htables, hfree]
    exact h.enough
  · rw [htables, hfree]
    exact h.count

end Forking

/-! ## The loop -/

/-- A program in the environment `c` that has made the child `e` with the identifier `child`. -/
structure HasChild (k : Kern) (D : Finset ℕ) (c e : EnvPtr) (child : Word) : Prop where
  cur : k.curenv = some c
  curPgdir : k.curPgdir = (k.envs c).pgdir
  find : envid2env k child true = .ok (.ok (some e))
  dir : (k.envs c).pgdir ∈ D
  childDir : (k.envs e).pgdir ∉ D

/-- Without an address that is legal the call does nothing. -/
lemma syscallMemMap_illegal {dstid perm : Word} (hva : isIllegalVa va = true) :
    syscallMemMap M P 0 va dstid va perm = .ok (-eInval, ⟨P.kern, P.results ++ [-eInval]⟩) := by
  unfold syscallMemMap Proc.call sysMemMap
  rw [if_pos (by simp [hva])]
  rfl

/-- With one, and a mapped page, it ends as `page_insert` does. -/
lemma syscallMemMap_own {dstid perm w r' : Word} {pm : PhysMem}
    (h : UserAccounting M P.kern.pm D K ∅) (hcur : P.kern.curenv = some c)
    (hid : envid2env P.kern dstid true = .ok (.ok (some e))) (hd : (P.kern.envs c).pgdir ∈ D)
    (hn : n < userPages) (hlow : vpn utemp ≤ n)
    (hw : entryAt P.kern.pm (P.kern.envs c).pgdir n = some w)
    (hr : pageInsert M P.kern.pm (P.kern.envs e).pgdir (P.kern.envs e).asid (ppn w) (pageAddr n)
      perm = .ok (r', pm)) :
    syscallMemMap M P 0 (pageAddr n) dstid (pageAddr n) perm =
      .ok (r', ⟨{ P.kern with pm := pm }, P.results ++ [r']⟩) := by
  have hleg := (isIllegalVa_pageAddr hn).mpr hlow
  have hl := h.pageLookup_eq hd (userPages_lt hn).2
  rw [show translate P.kern.pm (P.kern.envs c).pgdir (pageAddr n) = some w from hw] at hl
  unfold syscallMemMap Proc.call
  rw [sysMemMap_own hcur hid hleg hleg hl, hr]
  rfl

/-- The program in the loop, from the kernel `k₁` and the memory `s₀` on: it has done the pages
before `n`. If all its calls have succeeded, the child has the pages that it needs. -/
structure ForkLoop (M : Machine) (k₁ : Kern) (s₀ : PhysMem) (D K : Finset ℕ) (c e : EnvPtr)
    (size n : ℕ) (P : Proc) : Prop where
  kern : P.kern = { k₁ with pm := P.kern.pm }
  mem : Forking M s₀ D K (k₁.envs c).pgdir (k₁.envs e).pgdir size n n P.kern.pm
  log : (∀ r ∈ P.results, 0 ≤ r.toInt) → ∀ m < n, m < vpn ustacktop →
    entryAt s₀ (k₁.envs c).pgdir m ≠ none → vpn utemp ≤ m ∧
      pteValid (P.kern.pm.mem (k₁.envs e).pgdir (m / 1024)) = true

namespace ForkLoop

variable {size : ℕ} (hc : HasChild k₁ D c e child) (h : ForkLoop M k₁ s₀ D K c e size n P)

include h

/-- A page that is not mapped or not looked at. -/
lemma skip (hskip : n < vpn ustacktop → entryAt s₀ (k₁.envs c).pgdir n = none) :
    ForkLoop M k₁ s₀ D K c e size (n + 1) P := by
  refine ⟨h.kern, (h.mem.skipChild fun hn => hn.2.2 (hskip hn.2.1)).skipParent
    fun w hw _ hn => ?_, fun hlog m hm hu hne => ?_⟩
  · rw [hskip hn] at hw
    simp at hw
  · rcases Nat.lt_succ_iff_lt_or_eq.mp hm with hm | rfl
    · exact h.log hlog m hm hu hne
    · exact absurd (hskip hu) hne

include hc

/-- The entry that the program reads with `vpt`, in a page table that is there. -/
lemma vpt_eq (hn : n < userPages) (hv : pteValid (vpd P.kern (n / 1024)) = true) :
    entryAt s₀ (k₁.envs c).pgdir n = if pteValid (vpt P.kern n) = true then some (vpt P.kern n)
      else none := by
  obtain ⟨hpdx, hptx⟩ := pdx_pageAddr (userPages_lt hn).1
  have hd : P.kern.curPgdir = (k₁.envs c).pgdir := by
    rw [h.kern]
    exact hc.curPgdir
  have hpar := h.mem.parent n hn
  rw [if_neg (not_dupped_self n)] at hpar
  rw [vpd, hd] at hv
  have hword : pteWord P.kern.pm (k₁.envs c).pgdir (pageAddr n) = vpt P.kern n := by
    rw [pteWord, vpt, vpd, hpdx, hptx, hd]
  rw [← hpar, entryAt]
  split_ifs with hw
  · exact translate_eq_some_iff.mpr ⟨by rwa [hpdx], hword, hw⟩
  · refine translate_eq_none_iff.mpr fun _ => ?_
    rw [hword]
    exact Bool.eq_false_iff.mpr hw

/-- The call of `duppage` that maps the page in the child. -/
lemma mapChild (hn : n < vpn ustacktop) (hw : entryAt s₀ (k₁.envs c).pgdir n = some w) :
    ∃ r pm, syscallMemMap M P 0 (pageAddr n) child (pageAddr n) (dupPerm w) =
        .ok (r, ⟨{ k₁ with pm := pm }, P.results ++ [r]⟩) ∧
      Forking M s₀ D K (k₁.envs c).pgdir (k₁.envs e).pgdir size n (n + 1) pm ∧
      childTables P.kern.pm (k₁.envs e).pgdir ⊆ childTables pm (k₁.envs e).pgdir ∧
      (0 ≤ r.toInt →
        vpn utemp ≤ n ∧ pteValid (pm.mem (k₁.envs e).pgdir (n / 1024)) = true) := by
  have hu : n < userPages := hn.trans (by decide)
  by_cases hlow : vpn utemp ≤ n
  · obtain ⟨r, pm, hr, hpm, hsub, hcase⟩ := h.mem.childInsert hc.dir hc.childDir hlow hn hw
      (k₁.envs e).asid
    refine ⟨r, pm, ?_, hpm, hsub, fun hr0 => ⟨hlow, ?_⟩⟩
    · have hpar := h.mem.parent n hu
      rw [if_neg (not_dupped_self n), hw] at hpar
      have hcur : P.kern.curenv = some c := by rw [h.kern]; exact hc.cur
      have hid : envid2env P.kern child true = .ok (.ok (some e)) := by rw [h.kern]; exact hc.find
      have henvs : P.kern.envs = k₁.envs := by rw [h.kern]
      rw [syscallMemMap_own h.mem.accounting hcur hid
        (by rw [henvs]; exact Finset.mem_insert_of_mem hc.dir) hu hlow
        (by rw [henvs]; exact hpar) (by rw [henvs]; exact hr), h.kern]
    · rcases hcase with ⟨-, hv⟩ | rfl
      · exact hv
      · exact absurd hr0 (by decide)
  · refine ⟨-eInval, P.kern.pm, ?_, h.mem.skipChild fun hs => hlow hs.1,
      Finset.Subset.rfl, fun hr0 => absurd hr0 (by decide)⟩
    have hill : isIllegalVa (pageAddr n) = true := by
      by_contra hleg
      exact hlow ((isIllegalVa_pageAddr hu).mp (Bool.eq_false_iff.mpr hleg))
    rw [syscallMemMap_illegal hill]
    nth_rewrite 1 [h.kern]
    rfl

omit h in
/-- The call of `duppage` that maps the page in the parent again. -/
lemma mapParent {pm : PhysMem}
    (h : Forking M s₀ D K (k₁.envs c).pgdir (k₁.envs e).pgdir size n (n + 1) pm)
    (hn : n < vpn ustacktop) (hw : entryAt s₀ (k₁.envs c).pgdir n = some w) (rs : List Word) :
    ∃ r pm', syscallMemMap M ⟨{ k₁ with pm := pm }, rs⟩ 0 (pageAddr n) 0 (pageAddr n) (dupPerm w) =
        .ok (r, ⟨{ k₁ with pm := pm' }, rs ++ [r]⟩) ∧
      Forking M s₀ D K (k₁.envs c).pgdir (k₁.envs e).pgdir size (n + 1) (n + 1) pm' ∧
      pm'.mem (k₁.envs e).pgdir = pm.mem (k₁.envs e).pgdir := by
  have hu : n < userPages := hn.trans (by decide)
  by_cases hlow : vpn utemp ≤ n
  · obtain ⟨pm', hr, hpm', hq⟩ := h.parentInsert hc.dir hc.childDir hlow hn hw (k₁.envs c).asid
    refine ⟨0, pm', ?_, hpm', hq⟩
    have hpar := h.parent n hu
    rw [if_neg (not_dupped_self n), hw] at hpar
    have hid : envid2env { k₁ with pm := pm } 0 true = .ok (.ok (some c)) := by
      rw [envid2env, if_pos rfl]
      exact congrArg (fun o => Except.ok (Except.ok o)) hc.cur
    exact syscallMemMap_own (P := ⟨{ k₁ with pm := pm }, rs⟩) h.accounting hc.cur hid
      (Finset.mem_insert_of_mem hc.dir) hu hlow hpar hr
  · have hill : isIllegalVa (pageAddr n) = true := by
      by_contra hleg
      exact hlow ((isIllegalVa_pageAddr hu).mp (Bool.eq_false_iff.mpr hleg))
    exact ⟨_, pm, syscallMemMap_illegal hill, h.skipParent fun _ _ h1 _ => absurd h1 hlow, rfl⟩

/-- **One page**: `duppage` does not panic, and the loop has done one page more. -/
theorem duppage_returns (hn : n < vpn ustacktop) (hw : entryAt s₀ (k₁.envs c).pgdir n = some w)
    (hvpt : vpt P.kern n = w) :
    ∃ P', duppage M P child n = .ok P' ∧ ForkLoop M k₁ s₀ D K c e size (n + 1) P' := by
  obtain ⟨r, pm, hr, hpm, hsub, hok⟩ := h.mapChild hc hn hw
  have hlog : ∀ {pm' : PhysMem} {rs : List Word},
      pm'.mem (k₁.envs e).pgdir = pm.mem (k₁.envs e).pgdir →
      (∀ x ∈ P.results ++ [r] ++ rs, 0 ≤ x.toInt) → ∀ m < n + 1, m < vpn ustacktop →
      entryAt s₀ (k₁.envs c).pgdir m ≠ none → vpn utemp ≤ m ∧
        pteValid (pm'.mem (k₁.envs e).pgdir (m / 1024)) = true := by
    intro pm' rs hq hall m hm hmu hne
    rw [hq]
    rcases Nat.lt_succ_iff_lt_or_eq.mp hm with hm | rfl
    · obtain ⟨hlow, hv⟩ := h.log (fun x hx => hall x (by simp [hx])) m hm hmu hne
      refine ⟨hlow, (mem_childTables.mp (hsub (mem_childTables.mpr ⟨?_, hv⟩))).2⟩
      have h1 : userPages = 521216 := by decide
      rw [vpn_ustacktop] at hmu
      rw [pdx_utop]
      omega
    · exact hok (hall r (by simp))
  unfold duppage
  simp only [hvpt]
  split_ifs with hdup
  · -- the parent keeps its entry
    have hperm : dupPerm w = w &&& 0xfff#32 := if_pos hdup
    rw [hperm] at hr
    refine ⟨⟨{ k₁ with pm := pm }, P.results ++ [r]⟩, ?_, rfl, hpm.skipParent fun w' hw' _ _ => ?_,
      fun hall => hlog rfl (show ∀ x ∈ P.results ++ [r] ++ [], 0 ≤ x.toInt by simpa using hall)⟩
    · change (syscallMemMap M P 0 (pageAddr n) child (pageAddr n) (w &&& 0xfff#32) >>= _) = _
      rw [hr]
      rfl
    · rw [hw, Option.some.injEq] at hw'
      exact childEntry_of_not_dup (hw' ▸ hdup)
  · have hperm : dupPerm w = (w &&& 0xfff#32 &&& ~~~pteD) ||| pteCow := if_neg hdup
    obtain ⟨r', pm', hr', hpm', hq⟩ := mapParent hc hpm hn hw (P.results ++ [r])
    rw [hperm] at hr hr'
    refine ⟨⟨{ k₁ with pm := pm' }, P.results ++ [r] ++ [r']⟩, ?_, rfl, hpm',
      fun hall => hlog hq hall⟩
    change (syscallMemMap M P 0 (pageAddr n) child (pageAddr n)
      ((w &&& 0xfff#32 &&& ~~~pteD) ||| pteCow) >>= fun x =>
        syscallMemMap M x.2 0 (pageAddr n) 0 (pageAddr n)
          ((w &&& 0xfff#32 &&& ~~~pteD) ||| pteCow) >>= fun x => pure x.2) = _
    rw [hr, ok_bind, hr']
    rfl

/-- One round of the inner loop. -/
lemma forkPage_returns {j : ℕ} (hj : j < 1024) (hn : n = i * 1024 + j) (hi : n < userPages)
    (hv : pteValid (vpd P.kern i) = true) :
    ∃ P', forkPage M child i P j = .ok P' ∧ ForkLoop M k₁ s₀ D K c e size (n + 1) P' := by
  have hor : (i <<< 10) ||| j = n := by
    rw [← Nat.shiftLeft_add_eq_or_of_lt hj, Nat.shiftLeft_eq]
    exact hn.symm
  have hdiv : n / 1024 = i := by omega
  have hentry := h.vpt_eq hc hi (by rw [hdiv]; exact hv)
  unfold forkPage
  simp only [hor]
  split_ifs with hcond
  · rw [if_pos hcond.2] at hentry
    exact h.duppage_returns hc hcond.1 hentry rfl
  · refine ⟨P, rfl, h.skip fun hlt => ?_⟩
    rw [hentry, if_neg fun hw => hcond ⟨hlt, hw⟩]

/-- One round of the outer loop. -/
lemma forkTable_returns (hi : i < pdx utop) (hn : n = i * 1024) :
    ∃ P', forkTable M child P i = .ok P' ∧ ForkLoop M k₁ s₀ D K c e size ((i + 1) * 1024) P' := by
  have hd : ∀ {n P}, ForkLoop M k₁ s₀ D K c e size n P →
      vpd P.kern i = s₀.mem (k₁.envs c).pgdir i := by
    intro n P h
    rw [vpd, h.kern]
    exact (congrFun (congrArg _ hc.curPgdir) i).trans (h.mem.dir i)
  have hlim : (i + 1) * 1024 ≤ userPages := Nat.mul_le_mul_right 1024 hi
  have hnext : (i + 1) * 1024 = i * 1024 + 1024 := by omega
  rw [hnext]
  unfold forkTable
  split_ifs with hv
  · obtain ⟨P', hr, h'⟩ := foldlM_range_returns (n := 1024)
      (P := fun j P => ForkLoop M k₁ s₀ D K c e size (i * 1024 + j) P)
      (fun j hj P' h' => by
        rw [← Nat.add_assoc]
        exact h'.forkPage_returns hc hj rfl (by omega) (by rwa [hd h', ← hd h]))
      (by rw [Nat.add_zero, ← hn]; exact h)
    exact ⟨P', hr, h'⟩
  · -- without a page table none of these pages is mapped
    refine ⟨P, rfl, ?_⟩
    have hnone : ∀ j < 1024, entryAt s₀ (k₁.envs c).pgdir (i * 1024 + j) = none := by
      intro j hj
      refine translate_eq_none_iff.mpr fun hv' => absurd ?_ hv
      rw [(pdx_pageAddr (userPages_lt (by omega)).1).1] at hv'
      rw [hd h]
      rwa [show (i * 1024 + j) / 1024 = i by omega] at hv'
    have hall : ∀ j ≤ 1024, ForkLoop M k₁ s₀ D K c e size (i * 1024 + j) P := by
      intro j
      induction j with
      | zero => exact fun _ => hn ▸ h
      | succ j ih =>
        intro hj
        rw [← Nat.add_assoc]
        exact (ih (by omega)).skip fun _ => hnone j (by omega)
    exact hall 1024 (Nat.le_refl 1024)

omit h in
/-- **The loop of `fork` returns**, with every page of the parent looked at. -/
theorem forkPages_returns (h : ForkLoop M k₁ s₀ D K c e size 0 P) :
    ∃ P', forkPages M child P = .ok P' ∧ ForkLoop M k₁ s₀ D K c e size userPages P' := by
  have hlen : pdx (roundUp ustacktop pdmap) = pdx utop := by decide
  unfold forkPages
  rw [hlen]
  exact foldlM_range_returns (P := fun i P => ForkLoop M k₁ s₀ D K c e size (i * 1024) P)
    (fun i hi P h => h.forkTable_returns hc hi rfl) (by simpa using h)

end ForkLoop

end MosVolca
