import MosVolca.Kern.EnvTable

/-!
# What failing calls keep

`sys_mem_alloc` and `env_alloc` take a page from the free list before a later step can fail, and
neither gives it back. Both are described exactly: a failing call leaves the free pages, the
counts and the address spaces (or the bitmap and the free environments) as they were, unless the
later step is the one that fails.

## Main definitions

* `MosVolca.SamePages`, `MosVolca.SamePools` — what a failing call should keep.
* `MosVolca.NeedsTable` — `page_insert` finds no page table in a page directory.
* `MosVolca.forkRun` — a run in which the first environment forks again and again.

## Main results

* `MosVolca.sysMemAlloc_keeps_iff` — when a failing `sys_mem_alloc` leaks nothing.
* `MosVolca.envAlloc_keeps_iff` — when a failing `env_alloc` or `sys_exofork` leaks nothing.
-/

namespace MosVolca

open TwoLevel

/-- The free pages, the reference counts and the address spaces are the same. -/
structure SamePages (k k' : Kern) : Prop where
  pageFreeList : k'.pm.pageFreeList = k.pm.pageFreeList
  ppRef : k'.pm.ppRef = k.pm.ppRef
  space : ∀ e va, translate k'.pm (k'.envs e).pgdir va = translate k.pm (k.envs e).pgdir va

/-- After the free page `q` has been cleared, `page_insert` has to make a page table for `va`: the
page directory `d` is `q`, or its entry is not valid, or the entry is the one that `page_insert`
removes itself, as the page directory is its own page table there. -/
def NeedsTable (M : Machine) (s : PhysMem) (d : ℕ) (va : Word) (q : ℕ) : Prop :=
  q = d ∨ pteValid (s.mem d (pdx va)) = false ∨
    (ppn (s.mem d (pdx va)) = d ∧ ptx va = pdx va ∧ d < M.npage ∧ s.ppRef d ≠ 0 ∧ s.ppRef d ≠ 1)

/-- The free pages, the reference counts, the bitmap and the free environments are the same. -/
structure SamePools (k k' : Kern) : Prop where
  pageFreeList : k'.pm.pageFreeList = k.pm.pageFreeList
  ppRef : k'.pm.ppRef = k.pm.ppRef
  asidBitmap : k'.asidBitmap = k.asidBitmap
  envFreeList : k'.envFreeList = k.envFreeList

/-- `sys_mem_alloc` finds its environment and takes the last free page, and there is no page table
for `va`. -/
def LosesLastPage (M : Machine) (k : Kern) (envid va : Word) : Prop :=
  isIllegalVa va = false ∧ ∃ e q, envid2env k envid true = .ok (.ok (some e)) ∧
    k.pm.pageFreeList = [q] ∧ NeedsTable M k.pm (k.envs e).pgdir va q

variable {M : Machine} {k k' : Kern} {s s' : PhysMem} {e : EnvPtr} {d pp q : ℕ} {rest : List ℕ}
  {frest : List EnvPtr} {asid va perm r envid : Word}

/-! ## `page_insert` without a free page -/

/-- The installing half of `page_insert` fails only for want of a page table. -/
lemma pageInstall_fails (h : pageInstall M s d asid pp va perm = .ok (r, s')) (hr : r ≠ 0) :
    pteValid (s.mem d (pdx va)) = false ∧ s.pageFreeList = [] := by
  unfold pageInstall at h
  obtain ⟨⟨r1, pte, s1⟩, hwalk, h⟩ := bind_eq_ok.mp h
  have hr1 : r1 ≠ 0 := by
    rintro rfl
    rcases pte with _ | pte
    all_goals
      simp only [ne_eq, not_true_eq_false, ↓reduceIte, pure_eq_ok, Except.ok.injEq,
        Prod.mk.injEq] at h
      exact hr h.1.symm
  unfold pgdirWalk at hwalk
  rw [PhysMem.tlbInvalidate_mem] at hwalk
  rcases hv : pteValid (s.mem d (pdx va)) with _ | _
  · refine ⟨rfl, ?_⟩
    simp only [hv, Bool.false_eq_true, ↓reduceIte, bind_eq_ok] at hwalk
    obtain ⟨⟨o, s2⟩, halloc, hwalk⟩ := hwalk
    rcases o with r2 | p
    · exact (pageAlloc_error halloc).1
    · simp only [bind_eq_ok, pure_eq_ok, Except.ok.injEq, Prod.mk.injEq] at hwalk
      obtain ⟨_, -, hwalk, -⟩ := hwalk
      exact absurd hwalk.symm hr1
  · simp only [hv, ↓reduceIte, bind_eq_ok, pure_eq_ok, Except.ok.injEq, Prod.mk.injEq] at hwalk
    obtain ⟨_, -, hwalk, -⟩ := hwalk
    exact absurd hwalk.symm hr1

/-- The page directory `d` has no page table for `va`, or the entry of the table is the one that
`page_insert` removes to map another page at `va`. -/
def LacksTable (M : Machine) (s : PhysMem) (d : ℕ) (va : Word) (pp : ℕ) : Prop :=
  pteValid (s.mem d (pdx va)) = false ∨
    (ppn (s.mem d (pdx va)) = d ∧ ptx va = pdx va ∧ d ≠ pp ∧ d < M.npage ∧ s.ppRef d ≠ 0 ∧
      s.ppRef d ≠ 1)

/-- `page_insert` fails only without a free page and without a page table. -/
lemma pageInsert_fails (h : pageInsert M s d asid pp va perm = .ok (r, s')) (hr : r ≠ 0) :
    s.pageFreeList = [] ∧ LacksTable M s d va pp := by
  unfold pageInsert at h
  obtain ⟨⟨r1, pte, s1⟩, hwalk, h⟩ := bind_eq_ok.mp h
  obtain ⟨rfl, -, ⟨hv, rfl⟩ | ⟨hv, ht, rfl⟩⟩ := pgdirWalk_false_cases hwalk
  · exact ⟨(pageInstall_fails h hr).2, Or.inl hv⟩
  simp only at h
  by_cases hw : pteValid (s1.mem (ppn (s1.mem d (pdx va))) (ptx va)) = true
  · rw [if_pos hw] at h
    obtain ⟨old, hold, h⟩ := bind_eq_ok.mp h
    obtain ⟨hlt, rfl⟩ := pa2page_eq_ok.mp hold
    by_cases hne : ppn (s1.mem (ppn (s1.mem d (pdx va))) (ptx va)) ≠ pp
    · rw [if_pos hne] at h
      obtain ⟨s2, hrem, h⟩ := bind_eq_ok.mp h
      obtain ⟨hinv, hnil⟩ := pageInstall_fails h hr
      rcases pageRemove_cases hrem with ⟨-, hnone⟩ | ⟨-, -, -, -, h0, rfl⟩
      · rw [pageLookup_some hv ht hw hlt] at hnone
        simp at hnone
      -- the entry of the directory is still valid, unless it is the entry that was cleared
      have hself : ppn (s1.mem d (pdx va)) = d ∧ ptx va = pdx va := by
        by_contra hc
        have hkeep : TwoLevel.write s1.mem (ppn (s1.mem d (pdx va))) (ptx va) 0#32 d (pdx va) =
            s1.mem d (pdx va) := by
          by_cases hp : d = ppn (s1.mem d (pdx va))
          · refine write_of_ne_slot fun hi => hc ⟨hp.symm, hi.symm⟩
          · rw [write_of_ne_page hp]
        simp only [PhysMem.tlbInvalidate_mem, PhysMem.setWord_mem, decRef_mem, hkeep] at hinv
        rw [hv] at hinv
        exact Bool.false_ne_true hinv.symm
      have hpte : pteWord s1 d va = s1.mem d (pdx va) := by
        rw [pteWord, hself.1, hself.2]
      rw [hpte, hself.1] at h0 hnil
      rw [hself.1, hself.2, hself.1] at hne hlt
      simp only [PhysMem.tlbInvalidate_pageFreeList, PhysMem.setWord_pageFreeList,
        decRef_pageFreeList] at hnil
      by_cases h1 : s1.ppRef d = 1
      · rw [if_pos h1] at hnil
        simp at hnil
      · rw [if_neg h1] at hnil
        exact ⟨hnil, Or.inr ⟨hself.1, hself.2, hne, hlt, h0, h1⟩⟩
    · rw [if_neg hne] at h
      replace h := pure_pair_inj h
      exact absurd h.1.symm hr
  · rw [if_neg hw] at h
    obtain ⟨hinv, -⟩ := pageInstall_fails h hr
    rw [hv] at hinv
    exact absurd hinv.symm Bool.false_ne_true

/-- Without a free page and without a page table, `page_insert` fails. -/
lemma pageInsert_nil (hf : s.pageFreeList = []) (h : LacksTable M s d va pp) :
    ∃ s', pageInsert M s d asid pp va perm = .ok (-eNoMem, s') ∧ s'.pageFreeList = [] := by
  by_cases hv : pteValid (s.mem d (pdx va)) = true
  · obtain ⟨ht, hi, hne, hlt, h0, h1⟩ := h.resolve_left (by simp [hv])
    have hpte : pteWord s d va = s.mem d (pdx va) := by rw [pteWord, ht, hi]
    have hrem : pageRemove M s d asid va = .ok _ :=
      pageRemove_mapped hv (by rwa [ht]) (by rwa [hpte]) (by rwa [hpte, ht]) (by rwa [hpte, ht])
    rw [hpte, ht, hi] at hrem
    set s1 := MosVolca.tlbInvalidate ((decRef s d).setWord d (pdx va) 0#32) asid va with hs1
    have hlist : s1.pageFreeList = [] := by
      rw [hs1, PhysMem.tlbInvalidate_pageFreeList, PhysMem.setWord_pageFreeList,
        decRef_pageFreeList, if_neg h1, hf]
    have hinv : pteValid (s1.mem d (pdx va)) = false := by
      rw [hs1, PhysMem.tlbInvalidate_mem, PhysMem.setWord_mem, write_same, pteValid_zero]
    refine ⟨tlbInvalidate s1 asid va, ?_, hlist⟩
    unfold pageInsert
    rw [pgdirWalk_valid false hv (by rwa [ht]), ok_bind]
    simp only [ht, hi, hv, ↓reduceIte, pa2page_of_lt (w := s.mem d (pdx va)) (by rwa [ht]), ok_bind]
    rw [if_pos hne, hrem, ok_bind]
    exact pageInstall_nil hinv hlist
  · rw [Bool.not_eq_true] at hv
    refine ⟨tlbInvalidate s asid va, ?_, hf⟩
    rw [pageInsert_unmapped (by rw [hv]; simp)]
    exact pageInstall_nil hv hf

/-! ## `sys_mem_alloc` -/

/-- What `page_insert` of the new page `q` finds. -/
lemma lacksTable_takeFree : LacksTable M (s.takeFree q rest) d va q ↔ NeedsTable M s d va q := by
  unfold LacksTable NeedsTable
  by_cases hq : q = d
  · subst hq
    simp [pteValid_zero]
  · have hmem : (s.takeFree q rest).mem d (pdx va) = s.mem d (pdx va) := by
      rw [PhysMem.takeFree_mem, fill_of_ne (Ne.symm hq)]
    rw [hmem]
    simp [hq, Ne.symm hq]

lemma SamePages.refl (k : Kern) : SamePages k k := ⟨rfl, rfl, fun _ _ => rfl⟩

/-- `sys_mem_alloc` fails after it has taken the last page. -/
lemma sysMemAlloc_lost {perm : Word} (hfree : ∀ q ∈ k.pm.pageFreeList, q < M.npage)
    (h : LosesLastPage M k envid va) :
    ∃ k', sysMemAlloc M k envid va perm = .ok (-eNoMem, k') ∧ ¬ SamePages k k' := by
  obtain ⟨hva, e, q, hid, hf, hneed⟩ := h
  have hq : q < M.npage := hfree q (by rw [hf]; exact List.mem_singleton_self q)
  obtain ⟨s', hins, hlist⟩ : ∃ s', pageInsert M (k.pm.takeFree q []) (k.envs e).pgdir
      (k.envs e).asid q va perm = .ok (-eNoMem, s') ∧ s'.pageFreeList = [] :=
    pageInsert_nil rfl (lacksTable_takeFree.mpr hneed)
  refine ⟨{ k with pm := s' }, ?_, fun hsame => ?_⟩
  · unfold sysMemAlloc
    rw [if_neg (by simp [hva]), hid, ok_bind]
    simp only
    rw [pageAlloc_cons hf hq, ok_bind]
    simp only [deref, pure_eq_ok, ok_bind, hins]
  · have := hsame.pageFreeList
    rw [hf] at this
    change s'.pageFreeList = [q] at this
    rw [hlist] at this
    simp at this

/-- **A failing `sys_mem_alloc`.** It leaves the free pages, the counts and the address spaces as
they were if and only if it is not the page table that it fails to make, after it has taken the
last free page for the mapping. -/
theorem sysMemAlloc_keeps_iff (M : Machine) (k : Kern) (envid va perm : Word)
    (hfree : ∀ q ∈ k.pm.pageFreeList, q < M.npage) :
    (∀ r k', sysMemAlloc M k envid va perm = .ok (r, k') → r ≠ 0 → SamePages k k') ↔
      ¬ LosesLastPage M k envid va := by
  constructor
  · intro h hlost
    obtain ⟨k', hr, hne⟩ := sysMemAlloc_lost hfree hlost
    exact hne (h _ _ hr (by decide))
  · intro hkeep r k' h hr
    rcases sysMemAlloc_cases h with ⟨-, rfl⟩ | ⟨e, q, pm1, pm', hva, hid, halloc, hins, -⟩
    · exact SamePages.refl k'
    exfalso
    apply hkeep
    rcases hf : k.pm.pageFreeList with _ | ⟨q', rest⟩
    · rw [pageAlloc_nil hf] at halloc
      simp at halloc
    have hq : q' < M.npage := hfree q' (by rw [hf]; exact List.mem_cons_self)
    rw [pageAlloc_cons hf hq] at halloc
    simp only [Except.ok.injEq, Prod.mk.injEq] at halloc
    obtain ⟨rfl, rfl⟩ := halloc
    obtain ⟨hrest, hno⟩ := pageInsert_fails hins hr
    rw [PhysMem.takeFree_pageFreeList] at hrest
    subst hrest
    exact ⟨hva, e, q', hid, hf, lacksTable_takeFree.mp hno⟩

/-! ## `env_alloc` -/

/-- There are a free environment and a free page, but every ASID is taken. -/
def LacksAsid (k : Kern) : Prop :=
  k.envFreeList ≠ [] ∧ k.pm.pageFreeList ≠ [] ∧ ∀ i < nasid, Bitmap.test k.asidBitmap i = true

/-- `asid_alloc` fails when every identifier is taken. -/
lemma asidAlloc_error_iff {bitmap : ℕ → Word} :
    asidAlloc bitmap = .error (-eNoFreeEnv) ↔ ∀ i < nasid, Bitmap.test bitmap i = true := by
  constructor
  · intro h i hi
    unfold asidAlloc at h
    split at h
    case h_1 => simp at h
    case h_2 hfind =>
      have hne := List.find?_eq_none.mp hfind i (List.mem_range.mpr hi)
      obtain ⟨h5, h31⟩ := asid_position i
      rw [beq_iff_eq, h5, h31] at hne
      rw [← Bool.not_eq_false]
      exact fun hc => hne ((Bitmap.and_mask_eq_zero_iff (by decide)).mpr hc)
  · intro h
    rcases ha : asidAlloc bitmap with r | ⟨asid, bitmap'⟩
    · rw [asidAlloc_error ha]
    · obtain ⟨hlt, htest, -⟩ := asidAlloc_ok ha
      rw [h _ hlt] at htest
      exact absurd htest.symm Bool.false_ne_true

/-- `env_alloc` fails after it has made a page directory. -/
lemma envAlloc_lost (hfree : ∀ q ∈ k.pm.pageFreeList, q < M.npage) (h : LacksAsid k)
    (parentId : Word) : ∃ k', envAlloc M k parentId = .ok (.error (-eNoFreeEnv), k') ∧
      ¬ SamePools k k' := by
  obtain ⟨he, hf, hbits⟩ := h
  obtain ⟨e, frest, he⟩ := List.exists_cons_of_ne_nil he
  obtain ⟨q, rest, hf⟩ := List.exists_cons_of_ne_nil hf
  have hq : q < M.npage := hfree q (by rw [hf]; exact List.mem_cons_self)
  refine ⟨envReset (k.withDir e q rest) e, ?_, fun hsame => ?_⟩
  · rw [envAlloc_eq he hf hq, asidAlloc_error_iff.mpr hbits]
    rfl
  · have hlist := hsame.pageFreeList
    rw [hf] at hlist
    exact List.cons_ne_self q rest hlist.symm

/-- No identifier is the error of `env_alloc`. -/
lemma nextId_ne_error (k : Kern) (e : EnvPtr) :
    k.nextId e ≠ -eNoFreeEnv ∧ k.nextId e ≠ -eNoMem := by
  have hbit : (k.nextId e).getLsbD 10 = false := by
    have he : (e : ℕ) < 2 ^ 10 := e.isLt
    rw [Kern.nextId, BitVec.getLsbD_or, BitVec.getLsbD_shiftLeft, BitVec.getLsbD_ofNat,
      Nat.testBit_lt_two_pow he]
    rfl
  constructor <;>
  · intro h
    rw [h] at hbit
    exact absurd hbit (by decide)

/-- **A failing `env_alloc` or `sys_exofork`.** The free pages, the counts, the bitmap and the free
environments stay as they were if and only if it is not the ASID that is missing, when there are a
free environment and a free page. -/
theorem envAlloc_keeps_iff (M : Machine) (k : Kern) (hfree : ∀ q ∈ k.pm.pageFreeList, q < M.npage) :
    ((∀ parentId r k', envAlloc M k parentId = .ok (.error r, k') → SamePools k k') ∧
      ∀ r k', sysExofork M k = .ok (r, k') → r = -eNoFreeEnv ∨ r = -eNoMem → SamePools k k') ↔
      ¬ LacksAsid k := by
  constructor
  · rintro ⟨h, -⟩ hlost
    obtain ⟨k', hr, hne⟩ := envAlloc_lost hfree hlost 0
    exact hne (h 0 _ _ hr)
  · intro hkeep
    have halloc : ∀ parentId r k', envAlloc M k parentId = .ok (.error r, k') → k' = k := by
      intro parentId r k' h
      rcases envAlloc_cases hfree h with ⟨_, -, rfl⟩ | ⟨e, frest, q, rest, he, hf,
        ⟨ha, -, -⟩ | ⟨_, _, -, ho, -⟩⟩
      · rfl
      · refine absurd ⟨?_, ?_, asidAlloc_error_iff.mp ha⟩ hkeep
        · simp [he]
        · simp [hf]
      · simp at ho
    refine ⟨fun parentId r k' h => ?_, fun r k' h hr => ?_⟩
    · rw [halloc parentId r k' h]
      exact ⟨rfl, rfl, rfl, rfl⟩
    · unfold sysExofork at h
      obtain ⟨c, hc, h⟩ := bind_eq_ok.mp h
      obtain ⟨⟨o, k1⟩, hcall, h⟩ := bind_eq_ok.mp h
      rcases o with r' | e
      · simp only [pure_eq_ok, Except.ok.injEq, Prod.mk.injEq] at h
        rw [← h.2, halloc _ _ _ hcall]
        exact ⟨rfl, rfl, rfl, rfl⟩
      · exfalso
        rcases envAlloc_cases hfree hcall with ⟨_, ho, -⟩ | ⟨e', frest, q, rest, -, -,
          ⟨-, ho, -⟩ | ⟨asid, bitmap, -, ho, rfl⟩⟩
        · simp at ho
        · simp at ho
        obtain rfl : e = e' := by simpa using ho
        simp only [pure_eq_ok, Except.ok.injEq, Prod.mk.injEq, Kern.setEnv_envs_same,
          Kern.allocated_self] at h
        rcases hr with hr | hr
        · exact (nextId_ne_error k e).1 (h.1.trans hr)
        · exact (nextId_ne_error k e).2 (h.1.trans hr)

/-! ## A run of forks -/

/-- The identifiers below `NASID` that are taken. -/
def usedAsids (bitmap : ℕ → Word) : Finset ℕ :=
  (Finset.range nasid).filter fun i => Bitmap.test bitmap i = true

lemma mem_usedAsids {bitmap : ℕ → Word} {i : ℕ} :
    i ∈ usedAsids bitmap ↔ i < nasid ∧ Bitmap.test bitmap i = true := by
  rw [usedAsids, Finset.mem_filter, Finset.mem_range]

/-- `asid_alloc` takes one more identifier. -/
lemma card_usedAsids {bitmap bitmap' : ℕ → Word} (h : asidAlloc bitmap = .ok (asid, bitmap')) :
    (usedAsids bitmap').card = (usedAsids bitmap).card + 1 := by
  obtain ⟨hlt, htest, rfl⟩ := asidAlloc_ok h
  have hnot : asid.toNat ∉ usedAsids bitmap := by
    rw [mem_usedAsids, htest]
    simp
  rw [← Finset.card_insert_of_notMem hnot]
  congr 1
  ext i
  rw [Finset.mem_insert, mem_usedAsids, mem_usedAsids, Bitmap.test_set (by decide),
    Bool.or_eq_true, decide_eq_true_iff]
  constructor
  · rintro ⟨hi, ht | rfl⟩
    · exact Or.inr ⟨hi, ht⟩
    · exact Or.inl rfl
  · rintro (rfl | ⟨hi, ht⟩)
    · exact ⟨hlt, Or.inr rfl⟩
    · exact ⟨hi, Or.inl ht⟩

/-- The first environment, with the page directory `d`, runs; `n` identifiers are taken, one for
each environment that is not free; nothing is mapped from 4 MB to 8 MB. -/
structure ForksOn (M : Machine) (d n : ℕ) (k : Kern) : Prop where
  cur : k.curenv = some 0
  dir : (k.envs 0).pgdir = d
  slots : k.envFreeList.length + n = nenv
  not_mem : 0 ∉ k.envFreeList
  asids : (usedAsids k.asidBitmap).card = n
  pages : ∀ q ∈ k.pm.pageFreeList, q < M.npage ∧ q ≠ d
  empty : pteValid (k.pm.mem d 1) = false

variable {n : ℕ}

/-- There are not more identifiers than environments. -/
lemma ForksOn.le (h : ForksOn M d n k) : n ≤ 64 := by
  rw [← h.asids]
  exact (Finset.card_filter_le _ _).trans (Finset.card_range nasid).le

/-- Every identifier is taken when there are 64. -/
lemma ForksOn.full (h : ForksOn M d 64 k) (i : ℕ) (hi : i < nasid) :
    Bitmap.test k.asidBitmap i = true := by
  have hsub : usedAsids k.asidBitmap = Finset.range nasid :=
    Finset.eq_of_subset_of_card_le (Finset.filter_subset _ _)
      (by rw [Finset.card_range]; exact h.asids.ge)
  exact (mem_usedAsids.mp (hsub ▸ Finset.mem_range.mpr hi)).2

/-- A fork takes one page, whether it makes an environment or not. -/
lemma ForksOn.fork (h : ForksOn M d n k) (hf : k.pm.pageFreeList = q :: rest) : ∃ r k',
    sysExofork M k = .ok (r, k') ∧ ForksOn M d (min (n + 1) 64) k' ∧
      k'.pm.pageFreeList = rest := by
  have hle := h.le
  obtain ⟨e, frest, he⟩ : ∃ e frest, k.envFreeList = e :: frest := by
    refine List.exists_cons_of_ne_nil fun hnil => ?_
    have := h.slots
    rw [hnil, List.length_nil, nenv] at this
    omega
  have hq : q < M.npage ∧ q ≠ d := h.pages q (by rw [hf]; exact List.mem_cons_self)
  have hne : (0 : EnvPtr) ≠ e := fun h0 => h.not_mem (by rw [he, h0]; exact List.mem_cons_self)
  have hmem : ∀ base, (k.pm.newDir q rest base).mem d 1 = k.pm.mem d 1 := fun base =>
    congrFun (PhysMem.newDir_mem_of_ne (Ne.symm hq.2)) 1
  have hpages : ∀ p ∈ rest, p < M.npage ∧ p ≠ d := fun p hp =>
    h.pages p (by rw [hf]; exact List.mem_cons_of_mem q hp)
  have hslots : frest.length + 1 + n = nenv := by
    rw [← List.length_cons (a := e), ← he]
    exact h.slots
  rcases ha : asidAlloc k.asidBitmap with r | ⟨asid, bitmap⟩
  · obtain rfl := asidAlloc_error ha
    have hfull : n = 64 := by
      have hall : usedAsids k.asidBitmap = Finset.range nasid :=
        Finset.filter_true_of_mem fun i hi =>
          asidAlloc_error_iff.mp ha i (Finset.mem_range.mp hi)
      rw [← h.asids, hall, Finset.card_range]
      rfl
    refine ⟨-eNoFreeEnv, envReset (k.withDir e q rest) e, ?_, ⟨h.cur, ?_, ?_, h.not_mem, ?_,
      hpages, ?_⟩, rfl⟩
    · unfold sysExofork
      rw [h.cur]
      simp only [deref, pure_eq_ok, ok_bind]
      rw [envAlloc_eq he hf hq.1, ha]
      rfl
    · simp only [envReset, mkenvid, Kern.withDir, Kern.setEnv, Function.update_of_ne hne]
      exact h.dir
    · rw [hfull] at hslots ⊢
      change k.envFreeList.length + 64 = nenv
      rw [he]
      exact hslots
    · change (usedAsids k.asidBitmap).card = _
      rw [h.asids, hfull]
      rfl
    · change pteValid ((k.pm.newDir q rest k.basePgdir).mem d 1) = false
      rw [hmem]
      exact h.empty
  · have hcard := card_usedAsids ha
    have hlist : (k.forked 0 e q rest asid bitmap).envFreeList = frest := by
      change k.envFreeList.erase e = frest
      rw [he, List.erase_cons_head]
    have hlt : n + 1 ≤ 64 := by
      rw [← h.asids, ← hcard]
      exact (Finset.card_filter_le _ _).trans (Finset.card_range nasid).le
    refine ⟨k.nextId e, k.forked 0 e q rest asid bitmap, ?_, ⟨h.cur, ?_, ?_, ?_, ?_, hpages, ?_⟩,
      rfl⟩
    · unfold sysExofork
      rw [h.cur]
      simp only [deref, pure_eq_ok, ok_bind]
      rw [envAlloc_ok he hf hq.1 ha, ok_bind, ← (k.forked_self 0 e q rest asid bitmap).1]
      rfl
    · rw [Kern.forked_of_ne hne]
      exact h.dir
    · rw [hlist, Nat.min_eq_left hlt]
      omega
    · rw [hlist]
      exact fun h0 => h.not_mem (by rw [he]; exact List.mem_cons_of_mem e h0)
    · change (usedAsids bitmap).card = _
      rw [hcard, h.asids, Nat.min_eq_left hlt]
    · change pteValid ((k.pm.newDir q rest k.basePgdir).mem d 1) = false
      rw [hmem]
      exact h.empty

/-- The first environment is created and forks again and again. -/
noncomputable def forkRun : ℕ → Kern
  | 0 => queueRun 0
  | 1 => queueRun 1
  | 2 => queueRun 2
  | t + 1 => after bootMachine (forkRun t) .exofork

def forkEntries (t : ℕ) : Entry := if t < 2 then queueEntries t else .exofork

/-- What the entries return. -/
noncomputable def forkResults (t : ℕ) : Option Word :=
  match enter bootMachine (forkRun t) (forkEntries t) with
  | .ok (r, _) => r
  | .error _ => none

/-- The free pages when the first environment starts to run. -/
noncomputable def firstPages : List ℕ := booted.page1 :: booted.rest

lemma firstPages_length : 15356 ≤ firstPages.length := by
  obtain ⟨pm, base, K, h1, -, -, -, h3⟩ :=
    envInit_returns bootMachine_layout booted.pageInit_eq Env.zero.tf
  have hboot : Kern.boot booted.pm booted.base Env.zero.tf = Kern.boot pm base Env.zero.tf := by
    have := booted.envInit_eq.symm.trans h1
    simpa using this
  have hpm : booted.pm = pm := congrArg Kern.pm hboot
  have hpages : bootMachine.npage - bootMachine.bootPages = 15360 := by decide
  rw [← hpm, booted.free, hpages, List.length_cons] at h3
  change 15356 ≤ (booted.page1 :: booted.rest).length
  omega

/-- The first environment before its first fork. -/
lemma forkRun_start : ForksOn bootMachine booted.page0 1 (forkRun 2) := by
  obtain ⟨frest, hrest⟩ := allEnvs_eq
  have hfree : (forkRun 2).envFreeList = 1 :: frest := by
    change allEnvs.erase 0 = _
    rw [hrest, List.erase_cons_head]
  have hnodup := hrest ▸ nodup_allEnvs
  refine ⟨rfl, rfl, ?_, ?_, ?_, fun q hq => ?_, ?_⟩
  · have hlen : allEnvs.length = nenv := by
      unfold allEnvs
      exact List.length_finRange
    rw [hrest, List.length_cons] at hlen
    rw [hfree]
    exact hlen
  · rw [hfree]
    exact (List.nodup_cons.mp hnodup).1
  · have hbit : usedAsids (forkRun 2).asidBitmap = {0} := by
      change usedAsids oneAsid = {0}
      decide
    rw [hbit, Finset.card_singleton]
  · have hmem : q ∈ booted.pm.pageFreeList := by
      rw [booted.free]
      exact List.mem_cons_of_mem _ hq
    refine ⟨booted.accounting.pages.free_lt q hmem, ?_⟩
    rintro rfl
    have hn : booted.pm.pageFreeList.Nodup := booted.accounting.pages.free_nodup
    rw [booted.free] at hn
    exact (List.nodup_cons.mp hn).1 hq
  · change pteValid ((booted.pm.newDir booted.page0 firstPages booted.base).mem booted.page0 1) = false
    rw [PhysMem.newDir_mem_user (by decide), pteValid_zero]

/-- After `j` forks, `j` pages are gone, and one identifier more than that is taken if there were
so many. -/
lemma forkRun_forksOn (j : ℕ) (hj : j ≤ firstPages.length) :
    ForksOn bootMachine booted.page0 (min (j + 1) 64) (forkRun (j + 2)) ∧
      (forkRun (j + 2)).pm.pageFreeList = firstPages.drop j ∧
      ∀ t < j + 2, enter bootMachine (forkRun t) (forkEntries t) =
        .ok (forkResults t, forkRun (t + 1)) := by
  induction j with
  | zero =>
    refine ⟨forkRun_start, rfl, fun t ht => ?_⟩
    interval_cases t
    · unfold forkResults
      change enter bootMachine (queueRun 0) (queueEntries 0) =
        .ok ((match enter bootMachine (queueRun 0) (queueEntries 0) with
          | .ok (r, _) => r | .error _ => none), queueRun 1)
      rw [queueRun_create]
    · rfl
  | succ j ih =>
    obtain ⟨hfork, hpages, hsteps⟩ := ih (by omega)
    have hcons := List.drop_eq_getElem_cons (l := firstPages) (i := j) (by omega)
    obtain ⟨r, k', hr, hnext, hrest⟩ := hfork.fork (hpages.trans hcons)
    have henter : enter bootMachine (forkRun (j + 2)) .exofork = .ok (some r, k') := by
      change returning (sysExofork bootMachine (forkRun (j + 2))) = _
      rw [hr]
      rfl
    have hrun : forkRun (j + 1 + 2) = k' := by
      change after bootMachine (forkRun (j + 2)) .exofork = k'
      rw [after, henter]
    have hmin : min (min (j + 1) 64 + 1) 64 = min (j + 1 + 1) 64 := by omega
    refine ⟨by rw [hrun, ← hmin]; exact hnext, by rw [hrun, hrest], fun t ht => ?_⟩
    by_cases hlt : t < j + 2
    · exact hsteps t hlt
    · obtain rfl : t = j + 2 := by omega
      have hentry : forkEntries (j + 2) = .exofork := if_neg (by omega)
      rw [forkResults, hentry, henter, hrun]

/-- The forks are kernel entries from the boot on. -/
lemma forkRun_kernRun (j : ℕ) (hj : j ≤ firstPages.length) :
    KernRun bootMachine (j + 2) forkRun forkEntries forkResults := fun t ht =>
  ⟨(forkRun t).ktf, by rw [Kern.trap_ktf, (forkRun_forksOn j hj).2.2 t ht]⟩

/-- In a reachable state a failing `sys_mem_alloc` loses a page: one page is free, and the first
environment has no page table for the address. -/
theorem sysMemAlloc_leaks : ¬ ∀ (M : Machine) (pm : PhysMem) (ktf : Trapframe) (n : ℕ)
    (σ : ℕ → Kern) (act : ℕ → Entry) (res : ℕ → Option Word),
    envInit M pm ktf = .ok (σ 0) → KernRun M n σ act res →
      ∀ envid va perm r k', sysMemAlloc M (σ n) envid va perm = .ok (r, k') → r ≠ 0 →
        SamePages (σ n) k' := by
  intro h
  obtain ⟨j, hj⟩ : ∃ j, firstPages.length = j + 1 := ⟨booted.rest.length, rfl⟩
  obtain ⟨hfork, hpages, -⟩ := forkRun_forksOn j (by omega)
  have hlt : j < firstPages.length := by omega
  have hlast : (forkRun (j + 2)).pm.pageFreeList = [firstPages[j]] := by
    rw [hpages, List.drop_eq_getElem_cons hlt, List.drop_eq_nil_of_le (by omega)]
  have hlost : LosesLastPage bootMachine (forkRun (j + 2)) 0 0x400000#32 := by
    refine ⟨by decide, 0, _, ?_, hlast, Or.inr (Or.inl ?_)⟩
    · unfold envid2env
      rw [if_pos rfl, hfork.cur]
      rfl
    · rw [hfork.dir]
      exact hfork.empty
  obtain ⟨k', hr, hne⟩ : ∃ k', sysMemAlloc bootMachine (forkRun (j + 2)) 0 0x400000#32 0 =
      .ok (-eNoMem, k') ∧ ¬ SamePages (forkRun (j + 2)) k' :=
    sysMemAlloc_lost (fun q hq => (hfork.pages q hq).1) hlost
  exact hne (h bootMachine booted.pm₀ Env.zero.tf (j + 2) forkRun forkEntries forkResults
    booted.envInit_eq (forkRun_kernRun j (by omega)) 0 0x400000#32 0 _ _ hr (by decide))

/-- The first environment, with all its pages free, loses nothing by a failing `sys_mem_alloc`. -/
theorem sysMemAlloc_keeps_first : ¬ LosesLastPage bootMachine (forkRun 2) 0 0x400000#32 ∧
    ∀ r k', sysMemAlloc bootMachine (forkRun 2) 0 0x400000#32 0 = .ok (r, k') → r ≠ 0 →
      SamePages (forkRun 2) k' := by
  have hlost : ¬ LosesLastPage bootMachine (forkRun 2) 0 0x400000#32 := by
    rintro ⟨-, _, q, -, hf, -⟩
    have hlen : firstPages.length = [q].length := congrArg List.length hf
    have := firstPages_length
    rw [hlen, List.length_singleton] at this
    omega
  exact ⟨hlost, (sysMemAlloc_keeps_iff bootMachine (forkRun 2) 0 0x400000#32 0
    fun q hq => (forkRun_start.pages q hq).1).mpr hlost⟩

/-- In a reachable state a failing `env_alloc` loses a page: the 64th fork of the first environment
finds a free environment and a free page, but no ASID. -/
theorem envAlloc_leaks : ¬ ∀ (M : Machine) (pm : PhysMem) (ktf : Trapframe) (n : ℕ)
    (σ : ℕ → Kern) (act : ℕ → Entry) (res : ℕ → Option Word),
    envInit M pm ktf = .ok (σ 0) → KernRun M n σ act res →
      (∀ parentId r k', envAlloc M (σ n) parentId = .ok (.error r, k') → SamePools (σ n) k') ∧
        ∀ r k', sysExofork M (σ n) = .ok (r, k') → r = -eNoFreeEnv ∨ r = -eNoMem →
          SamePools (σ n) k' := by
  intro h
  have hlen := firstPages_length
  obtain ⟨hfork, hpages, -⟩ := forkRun_forksOn 63 (by omega)
  have hlost : LacksAsid (forkRun (63 + 2)) := by
    refine ⟨fun hnil => ?_, fun hnil => ?_, hfork.full⟩
    · have hslots := hfork.slots
      rw [hnil] at hslots
      exact absurd hslots (by decide)
    · rw [hpages, List.drop_eq_nil_iff] at hnil
      omega
  obtain ⟨k', hr, hne⟩ := envAlloc_lost (fun q hq => (hfork.pages q hq).1) hlost 0
  exact hne ((h bootMachine booted.pm₀ Env.zero.tf (63 + 2) forkRun forkEntries forkResults
    booted.envInit_eq (forkRun_kernRun 63 (by omega))).1 0 _ _ hr)

/-- The first fork of the first environment loses nothing if it fails. -/
theorem envAlloc_keeps_first :
    (∀ parentId r k', envAlloc bootMachine (forkRun 2) parentId = .ok (.error r, k') →
      SamePools (forkRun 2) k') ∧
    ∀ r k', sysExofork bootMachine (forkRun 2) = .ok (r, k') → r = -eNoFreeEnv ∨ r = -eNoMem →
      SamePools (forkRun 2) k' := by
  refine (envAlloc_keeps_iff bootMachine (forkRun 2)
    fun q hq => (forkRun_start.pages q hq).1).mpr ?_
  rintro ⟨-, -, hbits⟩
  have hbit : Bitmap.test (forkRun 2).asidBitmap 1 = false := by
    change Bitmap.test oneAsid 1 = false
    decide
  rw [hbits 1 (by decide)] at hbit
  exact Bool.false_ne_true hbit.symm

end MosVolca
