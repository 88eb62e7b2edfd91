import MosVolca.Kern.PageRun
import MosVolca.Kern.Spaces
import MosVolca.Kern.Tlbex

/-!
# Demand paging

What a page fault can do to the address space of an environment. A page directory is its own page
table at `UVPT`, so a page that is mapped there for writing lets the user write page tables. The
comment of `env_setup_vm` says that the window is read-only; this file says for which faults it
stays so.

## Main definitions

* `MosVolca.BuiltDir` — a page directory as `env_setup_vm` builds it above `UTOP`.
* `MosVolca.OnlyMapsUser` — a fault ends in a panic or maps the page in `[UTEMP, UTOP)` only.
* `MosVolca.FaultSafe` — the state and the address for which it does.
* `MosVolca.EveryFault` — a property of every fault of a sequence.

## Main results

* `MosVolca.onlyMapsUser_iff` — for one fault.
* `MosVolca.demand_paging_iff` — for every sequence of faults.
-/

namespace MosVolca

open TwoLevel

/-- A page directory as `env_setup_vm` builds it from `PDX(UTOP)` on: the entries of the template,
whose page tables the kernel keeps, its own page at `UVPT`, and nothing above. -/
structure BuiltDir (s : PhysMem) (d : ℕ) (K : Finset ℕ) : Prop where
  template : ∀ i, pdx utop ≤ i → i < pdx uvpt → pteValid (s.mem d i) = true → ppn (s.mem d i) ∈ K
  self : s.mem d (pdx uvpt) = page2pa d ||| pteV
  above : ∀ i, pdx uvpt < i → i < 1024 → s.mem d i = 0#32

/-- The user can write to the page of `va`. -/
def Writable (s : PhysMem) (d : ℕ) (va : Word) : Prop :=
  ∃ w, translate s d va = some w ∧ w &&& pteD ≠ 0

/-- The two states differ at most in the mapping of the page of `va`, which is in `[UTEMP, UTOP)`,
and in read-only mappings of page tables. -/
structure OnlyUserMapping (s s' : PhysMem) (d : ℕ) (va : Word) : Prop where
  other : ∀ va', ¬ (uvpt ≤ va' ∧ va' < ulim) → translate s' d va' ≠ translate s d va' →
    vpn va' = vpn va ∧ utemp ≤ va ∧ va < utop
  window : ∀ va', uvpt ≤ va' → va' < ulim → Writable s' d va' → Writable s d va'

/-- A fault at `va` ends in a panic, or in a state that has the new mapping only. -/
def OnlyMapsUser (M : Machine) (s : PhysMem) (d : ℕ) (va asid : Word) : Prop :=
  ∃ r, RefillsTo M s d va asid r ∧ ∀ w s', r = .ok (w, s') → OnlyUserMapping s s' d va

/-- **The faults that do no harm**: the page is mapped already; the address is excluded or there
is no free page, which ends in a panic; or the address is a user address and its page table is
there, or cannot be made, which ends in a panic too. -/
def FaultSafe (s : PhysMem) (d : ℕ) (va : Word) : Prop :=
  translate s d va ≠ none ∨ Excluded va ∨ s.pageFreeList = [] ∨
    (va < utop ∧ (pteValid (s.mem d (pdx va)) = true ∨ s.pageFreeList.length = 1))

variable {M : Machine} {s s' : PhysMem} {D K H : Finset ℕ} {d q : ℕ} {rest : List ℕ}
  {va va' asid w : Word}

/-! ## Translations above `UTOP` -/

lemma OnlyUserMapping.refl (s : PhysMem) (d : ℕ) (va : Word) : OnlyUserMapping s s d va :=
  ⟨fun _ _ h => absurd rfl h, fun _ _ _ h => h⟩

/-- Through the window at `UVPT` the directory is read as a page table. -/
lemma translate_window (hs : s.mem d (pdx uvpt) = page2pa d ||| pteV) (hd : d < 2 ^ 20)
    (hva : pdx va = pdx uvpt) : translate s d va = some w ↔
      s.mem d (ptx va) = w ∧ pteValid w = true := by
  rw [translate_eq_some_iff, pteWord, hva, hs, ppn_self hd]
  exact ⟨fun h => h.2, fun h => ⟨pteValid_self d, h⟩⟩

lemma pdx_of_window (h : uvpt ≤ va) (h' : va < ulim) : pdx va = pdx uvpt := by
  rw [BitVec.le_def, uvpt_toNat] at h
  rw [BitVec.lt_def, ulim_toNat] at h'
  rw [pdx_uvpt, pdx_eq]
  omega

lemma and_pteD_ne_zero (h : w.getLsbD 10 = true) : w &&& pteD ≠ 0 := by
  intro h0
  have hD : pteD.getLsbD 10 = true := by decide
  have hw : (w &&& pteD).getLsbD 10 = true := by rw [BitVec.getLsbD_and, h, hD, Bool.and_self]
  rw [h0] at hw
  exact absurd hw (by simp)

/-- The entries that `pgdir_walk` and `passive_alloc` write are writable. -/
lemma mkPde_writable (q : ℕ) : mkPde q &&& pteD ≠ 0 := by
  have hD : pteD.getLsbD 10 = true := by decide
  exact and_pteD_ne_zero (by rw [mkPde, BitVec.getLsbD_or, hD, Bool.or_true])

lemma mkPte_writable (q : ℕ) : mkPte q pteD &&& pteD ≠ 0 := by
  have hD : pteD.getLsbD 10 = true := by decide
  exact and_pteD_ne_zero (by rw [mkPte, BitVec.getLsbD_or, BitVec.getLsbD_or, hD, Bool.or_true,
    Bool.true_or])

/-- The address at which the window shows the page table of `va`. -/
def windowOf (va : Word) : Word := uvpt + BitVec.ofNat 32 (pdx va * 4096)

lemma windowOf_toNat (va : Word) : (windowOf va).toNat = 0x7fc00000 + pdx va * 4096 := by
  have := pdx_lt va
  rw [windowOf, BitVec.toNat_add, BitVec.toNat_ofNat, uvpt_toNat]
  omega

lemma windowOf_mem (va : Word) : uvpt ≤ windowOf va ∧ windowOf va < ulim ∧
    ptx (windowOf va) = pdx va := by
  have := pdx_lt va
  rw [BitVec.le_def, BitVec.lt_def, windowOf_toNat, uvpt_toNat, ulim_toNat, ptx_eq, windowOf_toNat]
  omega

/-- An address that is not excluded is a user address or in the window. -/
lemma user_or_window (h : ¬ Excluded va) :
    (utemp ≤ va ∧ va < utop) ∨ (uvpt ≤ va ∧ va < ulim) := by
  rw [excluded_iff] at h
  simp only [BitVec.le_def, BitVec.lt_def, utemp_toNat, utop_toNat, uvpt_toNat, ulim_toNat]
  omega

/-! ## One fault -/

/-- A fault at a mapped page changes nothing. -/
lemma onlyMapsUser_mapped (hm : translate s d va ≠ none) : OnlyMapsUser M s d va asid := by
  rcases hl : pageLookup M s d va with halt | _ | ⟨pp, pte⟩
  · exact ⟨_, refillsTo_panic (Or.inl hl), by simp⟩
  · rcases pageLookup_cases hl with ⟨-, hn⟩ | ⟨h0, -⟩
    · exact absurd (translate_eq_none_iff.mpr fun hv => (hn hv).2) hm
    · simp at h0
  · refine ⟨_, refillsTo_mapped asid hl, fun w s' hr => ?_⟩
    simp only [Except.ok.injEq, Prod.mk.injEq] at hr
    rw [← hr.2]
    exact OnlyUserMapping.refl s d va

/-- A panic of `passive_alloc` ends the fault in a panic. -/
lemma refillsTo_of_panic (hm : translate s d va = none)
    (hp : ∃ halt, passiveAlloc M s va d asid = .error halt) :
    ∃ halt, RefillsTo M s d va asid (.error halt) := by
  rcases hl : pageLookup M s d va with halt | _ | ⟨pp, pte⟩
  · exact ⟨_, refillsTo_panic (Or.inl hl)⟩
  · obtain ⟨halt, hp⟩ := hp
    exact ⟨_, refillsTo_panic (Or.inr ⟨hl, hp⟩)⟩
  · rcases pageLookup_cases hl with ⟨h0, -⟩ | ⟨-, hv, -, hw, -⟩
    · simp at h0
    · rw [translate_eq_some_iff.mpr ⟨hv, rfl, hw⟩] at hm
      simp at hm

lemma onlyMapsUser_panic (hm : translate s d va = none)
    (hp : ∃ halt, passiveAlloc M s va d asid = .error halt) : OnlyMapsUser M s d va asid := by
  obtain ⟨halt, hr⟩ := refillsTo_of_panic hm hp
  exact ⟨_, hr, by simp⟩

section Fault

variable (h : UserAccounting M s D K ∅) (hd : d ∈ D) (hb : BuiltDir s d K)

include h hd hb

omit hb in
/-- The new page of `passive_alloc`, for a user address. -/
lemma insert_page (asid : Word) (hva : va < utop) (hnone : translate s d va = none)
    (hf : s.pageFreeList = q :: rest) :
    (pteValid (s.mem d (pdx va)) = false ∧ rest = [] ∧ ∃ s1,
      pageInsert M (s.takeFree q rest) d asid q (pteAddr va) pteD = .ok (-eNoMem, s1)) ∨
    (¬ (pteValid (s.mem d (pdx va)) = false ∧ rest = []) ∧ ∃ s1,
      pageInsert M (s.takeFree q rest) d asid q (pteAddr va) pteD = .ok (0, s1) ∧
      UserAccounting M s1 D K ∅ ∧
      (∀ va', pdx va' < pdx utop → translate s1 d va' =
        if vpn va' = vpn va then some (mkPte q pteD) else translate s d va') ∧
      (∀ i, ¬ (i = pdx va ∧ pteValid (s.mem d (pdx va)) = false) → s1.mem d i = s.mem d i) ∧
      ∀ p ∈ K, s1.mem p = s.mem p) := by
  have h1 := h.takeFree hf
  have hi : pdx (pteAddr va) < pdx utop := by
    rw [pdx_pteAddr]
    exact pdx_lt_of_lt_utop hva
  have hq : q ∈ insert q (∅ : Finset ℕ) := Finset.mem_insert_self q ∅
  have htr : ∀ va', pdx va' < pdx utop → translate (s.takeFree q rest) d va' = translate s d va' :=
    fun va' hi' => h.translate_takeFree hf hd hi'
  have hnone' : translate (s.takeFree q rest) d (pteAddr va) = none := by
    rw [htr _ hi, translate_congr_vpn (vpn_pteAddr va), hnone]
  have hdir : (s.takeFree q rest).mem d (pdx (pteAddr va)) = s.mem d (pdx va) := by
    rw [pdx_pteAddr]
    exact h.takeFree_dir hf hd _
  have hret := h1.pageInsert_returns asid q pteD hd hi
    fun w hw => by rw [hnone'] at hw; simp at hw
  rw [hdir] at hret
  refine hret.imp (fun ⟨hv, hr, hn⟩ => ⟨hv, hr, _, hn⟩) fun ⟨hn, s1, hr⟩ =>
    ⟨hn, s1, hr, ?_, ?_, fun i hi' => ?_, fun p hp => ?_⟩
  · have hlt := (h1.held q hq).1
    have hfr : ppn (mkPte q pteD) = q :=
      ppn_mkPte_of_lt (hlt.2.trans M.npage_lt) (by decide)
    have := (h1.afterInsert hd hi (h1.insertable_of_held hq) hlt.1 hfr
      (fun w hw => by rw [hnone'] at hw; simp at hw) hr).1
    simpa using this
  · intro va' hi'
    rw [h1.translate_pageInsert hd hi hr hd hi', vpn_pteAddr, htr va' hi']
    simp
  · have hmem := (h1.pageInsert_mem hd hi hr).1 d hd i fun hc => hi' ?_
    · rw [hmem]
      exact h.takeFree_dir hf hd i
    · obtain ⟨-, rfl, hc⟩ := hc
      rw [hdir] at hc
      exact ⟨pdx_pteAddr va, hc⟩
  · have hnode := Shape.not_node_of_refCount (h1.kept p hp)
    have hpf : p ∉ rest := fun hpr => ((h1.free_mem p).mp hpr).2.1 hp
    rw [(h1.pageInsert_mem hd hi hr).2 p hnode hpf]
    funext i
    exact fill_of_ne fun he => (h.head_free hf).2.1 (he ▸ hp)

/-- A fault at a user address whose page table is there. -/
lemma fault_table (asid : Word) (hva : va < utop) (hx : ¬ Excluded va) (hnone : translate s d va = none)
    (hv : pteValid (s.mem d (pdx va)) = true) (hf : s.pageFreeList = q :: rest) :
    ∃ w s', RefillsTo M s d va asid (.ok (w, s')) ∧ OnlyUserMapping s s' d va ∧
      UserAccounting M s' D K ∅ ∧ BuiltDir s' d K := by
  have hi := pdx_lt_of_lt_utop hva
  have hqf := h.head_free hf
  have hdlt : d < 2 ^ 20 := (h.dir_lt hd).trans M.npage_lt
  have hlow : utemp ≤ va := by
    rcases user_or_window hx with hu | ⟨hw, -⟩
    · exact hu.1
    · rw [BitVec.lt_def, utop_toNat] at hva
      rw [BitVec.le_def, uvpt_toNat] at hw
      omega
  obtain ⟨hv', -⟩ | ⟨-, s1, hr, h1, htr, hdir, hkept⟩ :=
    insert_page h hd asid hva hnone hf
  · rw [hv] at hv'
    exact absurd hv' (by simp)
  have hdir : ∀ i, s1.mem d i = s.mem d i := fun i => hdir i fun hc => by
    rw [hv] at hc
    exact absurd hc.2 (by simp)
  have hb1 : BuiltDir s1 d K := by
    refine ⟨fun i h1 h2 hv => ?_, ?_, fun i h1 h2 => ?_⟩
    · rw [hdir] at hv ⊢
      exact hb.template i h1 h2 hv
    · rw [hdir, hb.self]
    · rw [hdir, hb.above i h1 h2]
  have halloc : passiveAlloc M s va d asid = .ok s1 := by
    rw [passiveAlloc_cons hx hf hqf.1.2, hr]
    rfl
  have hl0 : pageLookup M s d va = .ok none := by rw [h.pageLookup_eq hd hi, hnone]; rfl
  have hl1 : pageLookup M s1 d va = .ok (some (ppn (mkPte q pteD),
      ⟨ppn (s1.mem d (pdx va)), ptx va⟩)) := by
    rw [h1.pageLookup_eq hd hi, htr va hi, if_pos rfl]
    rfl
  refine ⟨_, s1, refillsTo_alloc hl0 halloc hl1, ⟨fun va' hw hne => ?_, fun va' hw hw' => ?_⟩, h1,
    hb1⟩
  · by_cases hi' : pdx va' < pdx utop
    · rw [htr va' hi'] at hne
      split_ifs at hne with he
      · exact ⟨he, hlow, hva⟩
      · exact absurd rfl hne
    · -- the template tables are kept, and there is nothing above
      refine absurd (Shape.lookup_congr (T := tableShape 0) (hdir _) fun hv' => ?_) hne
      rw [tableShape_valid] at hv'
      rw [tableShape_frame]
      have hlt := pdx_lt va'
      have hnw : pdx va' ≠ pdx uvpt := fun he => hw (by
        rw [pdx_uvpt, pdx_eq] at he
        rw [BitVec.le_def, BitVec.lt_def, uvpt_toNat, ulim_toNat]
        omega)
      rcases Nat.lt_or_gt_of_ne hnw with hlo | hhi
      · exact congrFun (hkept _ (hb.template _ (Nat.not_lt.mp hi') hlo hv')) _
      · rw [hb.above _ hhi hlt, pteValid_zero] at hv'
        exact absurd hv' Bool.false_ne_true
  · rintro ⟨w, ht, hd'⟩
    have hpdx := pdx_of_window hw hw'
    rw [translate_window hb1.self hdlt hpdx, hdir] at ht
    exact ⟨w, (translate_window hb.self hdlt hpdx).mpr ht, hd'⟩

/-- A fault that makes a page table maps it for writing in the window. -/
lemma fault_newTable (hva : va < utop) (hx : ¬ Excluded va) (hnone : translate s d va = none)
    (hv : pteValid (s.mem d (pdx va)) = false) (hf : s.pageFreeList = q :: rest)
    (hrest : rest ≠ []) : ¬ OnlyMapsUser M s d va asid := by
  have hi := pdx_lt_of_lt_utop hva
  have hqf := h.head_free hf
  have hdlt : d < 2 ^ 20 := (h.dir_lt hd).trans M.npage_lt
  obtain ⟨-, hr0, -⟩ | ⟨-, s1, hr, h1, htr, hdir, -⟩ :=
    insert_page h hd asid hva hnone hf
  · exact absurd hr0 hrest
  have halloc : passiveAlloc M s va d asid = .ok s1 := by
    rw [passiveAlloc_cons hx hf hqf.1.2, hr]
    rfl
  have hl0 : pageLookup M s d va = .ok none := by rw [h.pageLookup_eq hd hi, hnone]; rfl
  have hl1 : pageLookup M s1 d va = .ok (some (ppn (mkPte q pteD),
      ⟨ppn (s1.mem d (pdx va)), ptx va⟩)) := by
    rw [h1.pageLookup_eq hd hi, htr va hi, if_pos rfl]
    rfl
  -- the new directory entry, seen through the window
  have hv1 : pteValid ((s.takeFree q rest).mem d (pdx (pteAddr va))) = false := by
    rw [pdx_pteAddr, PhysMem.takeFree_mem, h.takeFree_dir hf hd, hv]
  obtain ⟨q', rest', -, -, hpde⟩ := (h.takeFree hf).pageInsert_newTable hd hv1 hr
  rw [pdx_pteAddr] at hpde
  obtain ⟨hw, hw', hptx⟩ := windowOf_mem va
  have hself : s1.mem d (pdx uvpt) = page2pa d ||| pteV := by
    rw [hdir _ fun hc => ?_, hb.self]
    have := hc.1
    rw [pdx_uvpt] at this
    rw [pdx_utop] at hi
    omega
  have hpdx := pdx_of_window hw hw'
  rintro ⟨r, hr', hall⟩
  obtain rfl := hr'.unique (refillsTo_alloc hl0 halloc hl1)
  obtain ⟨w, ht, -⟩ := (hall _ _ rfl).window (windowOf va) hw hw'
    ⟨mkPde q', (translate_window hself hdlt hpdx).mpr ⟨by rw [hptx, hpde], pteValid_mkPde q'⟩,
      mkPde_writable q'⟩
  obtain ⟨hword, hval⟩ := (translate_window hb.self hdlt hpdx).mp ht
  rw [← hword, hptx, hv] at hval
  exact absurd hval Bool.false_ne_true

/-- A fault in the window makes a page table out of a page of the user. -/
lemma fault_window (hw : uvpt ≤ va) (hw' : va < ulim) (hnone : translate s d va = none)
    (hf : s.pageFreeList = q :: rest) : ¬ OnlyMapsUser M s d va asid := by
  have hqf := h.head_free hf
  have hdn := h.dir_lt hd
  have hdlt : d < 2 ^ 20 := hdn.trans M.npage_lt
  have hqlt : q < 2 ^ 20 := hqf.1.2.trans M.npage_lt
  have hpdx := pdx_of_window hw hw'
  have hx : ¬ Excluded va := fun hx => by
    rw [excluded_iff] at hx
    rw [BitVec.le_def, uvpt_toNat] at hw
    rw [BitVec.lt_def, ulim_toNat] at hw'
    omega
  have hself : s.mem d (pdx va) = page2pa d ||| pteV := by rw [hpdx, hb.self]
  have hval : pteValid (s.mem d (pdx va)) = true := by rw [hself]; exact pteValid_self d
  have htab : ppn (s.mem d (pdx va)) = d := by rw [hself]; exact ppn_self hdlt
  have hword : pteValid (s.mem d (ptx va)) = false := by
    have := translate_eq_none_iff.mp hnone hval
    rwa [pteWord, htab] at this
  -- the entry of the window is the directory entry of `ptx va`, which is another one
  have hne : pdx va ≠ ptx va := fun he => by
    rw [← he, hval] at hword
    exact absurd hword (by simp)
  have hdir : ∀ i, (s.takeFree q rest).mem d i = s.mem d i := h.takeFree_dir hf hd
  have hl0 : pageLookup M s d va = .ok none := by
    refine pageLookup_none fun _ => ⟨by rwa [htab], ?_⟩
    rwa [pteWord, htab]
  have hins : pageInsert M (s.takeFree q rest) d asid q (pteAddr va) pteD =
      .ok (0, (tlbInvalidate (s.takeFree q rest) asid (pteAddr va)).mapPage d (ptx va) q pteD) := by
    have hv1 : pteValid ((s.takeFree q rest).mem d (pdx (pteAddr va))) = true := by
      rw [pdx_pteAddr, hdir, hval]
    have ht1 : ppn ((s.takeFree q rest).mem d (pdx (pteAddr va))) = d := by
      rw [pdx_pteAddr, hdir, htab]
    have hw1 : pteValid (pteWord (s.takeFree q rest) d (pteAddr va)) = false := by
      rw [pteWord, ht1, ptx_pteAddr, hdir, hword]
    rw [pageInsert_unmapped fun _ => ⟨by rwa [ht1], hw1⟩, pageInstall_table hv1 (by rwa [ht1]), ht1,
      ptx_pteAddr]
  obtain ⟨s1, hs1⟩ : ∃ s1,
    (tlbInvalidate (s.takeFree q rest) asid (pteAddr va)).mapPage d (ptx va) q pteD = s1 := ⟨_, rfl⟩
  have hmem : s1.mem = write (s.takeFree q rest).mem d (ptx va) (mkPte q pteD) := by rw [← hs1]; rfl
  have hself1 : s1.mem d (pdx va) = page2pa d ||| pteV := by
    rw [hmem, write_of_ne_slot hne, hdir, hself]
  have hword1 : s1.mem d (ptx va) = mkPte q pteD := by rw [hmem, write_same]
  have hfr : ppn (mkPte q pteD) = q := ppn_mkPte_of_lt hqlt (by decide)
  have hpw : pteWord s1 d va = mkPte q pteD := by rw [pteWord, hself1, ppn_self hdlt, hword1]
  have halloc : passiveAlloc M s va d asid = .ok s1 := by
    rw [passiveAlloc_cons hx hf hqf.1.2, hins, hs1]
    rfl
  have hl1 : pageLookup M s1 d va = .ok (some (ppn (pteWord s1 d va),
      ⟨ppn (s1.mem d (pdx va)), ptx va⟩)) := pageLookup_some
    (by rw [hself1]; exact pteValid_self d) (by rwa [hself1, ppn_self hdlt])
    (by rw [hpw]; exact pteValid_mkPte q pteD) (by rw [hpw, hfr]; exact hqf.1.2)
  rintro ⟨r, hr', hall⟩
  obtain rfl := hr'.unique (refillsTo_alloc hl0 halloc hl1)
  rw [hpdx] at hself1
  obtain ⟨w, ht, -⟩ := (hall _ _ rfl).window va hw hw'
    ⟨mkPte q pteD, (translate_window hself1 hdlt hpdx).mpr ⟨hword1, pteValid_mkPte q pteD⟩,
      mkPte_writable q⟩
  rw [hnone] at ht
  simp at ht

omit hb in
/-- A fault that makes a page table cannot go on without a second free page. -/
lemma fault_last (hva : va < utop) (hx : ¬ Excluded va) (hnone : translate s d va = none)
    (hv : pteValid (s.mem d (pdx va)) = false) (hf : s.pageFreeList = [q]) :
    ∃ halt, passiveAlloc M s va d asid = .error halt := by
  rw [passiveAlloc_cons hx hf (h.head_free hf).1.2]
  obtain ⟨-, -, s1, hr⟩ | ⟨hn, -⟩ := insert_page h hd asid hva hnone hf
  · rw [hr, ok_bind]
    exact ⟨_, rfl⟩
  · exact absurd ⟨hv, rfl⟩ hn

/-- **When a fault maps nothing but a user page.** -/
theorem onlyMapsUser_iff : OnlyMapsUser M s d va asid ↔ FaultSafe s d va := by
  by_cases hm : translate s d va = none
  swap
  · exact iff_of_true (onlyMapsUser_mapped hm) (Or.inl hm)
  by_cases hx : Excluded va
  · exact iff_of_true (onlyMapsUser_panic hm (passiveAlloc_excluded hx)) (Or.inr (Or.inl hx))
  rcases hf : s.pageFreeList with _ | ⟨q, rest⟩
  · exact iff_of_true (onlyMapsUser_panic hm (passiveAlloc_nil hf)) (Or.inr (Or.inr (Or.inl hf)))
  rcases user_or_window hx with ⟨-, hva⟩ | ⟨hw, hw'⟩
  · rcases hv : pteValid (s.mem d (pdx va)) with _ | _
    · by_cases hrest : rest = []
      · rw [hrest] at hf
        exact iff_of_true (onlyMapsUser_panic hm (fault_last h hd hva hx hm hv hf))
          (Or.inr (Or.inr (Or.inr ⟨hva, Or.inr (by rw [hf]; rfl)⟩)))
      · refine iff_of_false (fault_newTable h hd hb hva hx hm hv hf hrest) ?_
        rintro (h1 | h1 | h1 | ⟨-, h1 | h1⟩)
        · exact h1 hm
        · exact hx h1
        · rw [hf] at h1
          exact absurd h1 (by simp)
        · rw [hv] at h1
          exact absurd h1 (by simp)
        · rw [hf, List.length_cons, Nat.add_eq_right, List.length_eq_zero_iff] at h1
          exact hrest h1
    · obtain ⟨w, s', hr, hs, -⟩ := fault_table h hd hb asid hva hx hm hv hf
      refine iff_of_true ⟨_, hr, fun w' s'' he => ?_⟩ (Or.inr (Or.inr (Or.inr ⟨hva, Or.inl hv⟩)))
      simp only [Except.ok.injEq, Prod.mk.injEq] at he
      rwa [← he.2]
  · refine iff_of_false (fault_window h hd hb hw hw' hm hf) ?_
    rintro (h1 | h1 | h1 | ⟨h1, -⟩)
    · exact h1 hm
    · exact hx h1
    · rw [hf] at h1
      exact absurd h1 (by simp)
    · rw [BitVec.lt_def, utop_toNat] at h1
      rw [BitVec.le_def, uvpt_toNat] at hw
      omega

/-- A harmless fault keeps the invariants. -/
lemma FaultSafe.keeps (hs : FaultSafe s d va) (hr : RefillsTo M s d va asid (.ok (w, s'))) :
    UserAccounting M s' D K ∅ ∧ BuiltDir s' d K := by
  by_cases hm : translate s d va = none
  swap
  · rcases hl : pageLookup M s d va with halt | _ | ⟨pp, pte⟩
    · have := hr.unique (refillsTo_panic (Or.inl hl))
      simp at this
    · rcases pageLookup_cases hl with ⟨-, hn⟩ | ⟨h0, -⟩
      · exact absurd (translate_eq_none_iff.mpr fun hv => (hn hv).2) hm
      · simp at h0
    · have := hr.unique (refillsTo_mapped asid hl)
      simp only [Except.ok.injEq, Prod.mk.injEq] at this
      rw [this.2]
      exact ⟨h, hb⟩
  have hnopanic : ¬ ∃ halt, passiveAlloc M s va d asid = .error halt := fun hp => by
    obtain ⟨halt, hr'⟩ := refillsTo_of_panic hm hp
    have := hr.unique hr'
    simp at this
  have hx : ¬ Excluded va := fun hx => hnopanic (passiveAlloc_excluded hx)
  rcases hf : s.pageFreeList with _ | ⟨q, rest⟩
  · exact absurd (passiveAlloc_nil hf) hnopanic
  rcases hs with h1 | h1 | h1 | ⟨hva, h1⟩
  · exact absurd hm h1
  · exact absurd h1 hx
  · rw [hf] at h1
    exact absurd h1 (by simp)
  · rcases hv : pteValid (s.mem d (pdx va)) with _ | _
    · rw [hv, hf] at h1
      have hrest : rest = [] := by simpa using h1
      rw [hrest] at hf
      exact absurd (fault_last h hd hva hx hm hv hf) hnopanic
    · obtain ⟨w', s1, hr', -, hk⟩ := fault_table h hd hb asid hva hx hm hv hf
      have := hr.unique hr'
      simp only [Except.ok.injEq, Prod.mk.injEq] at this
      rwa [this.2]

end Fault

/-! ## Sequences of faults -/

/-- The property `P` of the state, the address and the identifier holds at every fault of a
sequence, from the state `s` on; after each one the entry is written to the TLB. -/
def EveryFault (M : Machine) (d : ℕ) (P : PhysMem → Word → Word → Prop) :
    PhysMem → List (Word × Word) → Prop
  | _, [] => True
  | s, (va, asid) :: l => P s va asid ∧
    ∀ w s', RefillsTo M s d va asid (.ok (w, s')) → EveryFault M d P (s'.tlbWrite asid va w) l

/-- **Demand paging.** In an accounted address space whose page directory is as `env_setup_vm`
builds it above `UTOP`, every fault of a sequence ends in a panic or maps nothing but a page of
`[UTEMP, UTOP)`, and gives no write access through the window, if and only if every fault of the
sequence is one that does no harm. -/
theorem demand_paging_iff (h : UserAccounting M s D K ∅) (hd : d ∈ D) (hb : BuiltDir s d K)
    (l : List (Word × Word)) :
    EveryFault M d (fun s va asid => OnlyMapsUser M s d va asid) s l ↔
      EveryFault M d (fun s va _ => FaultSafe s d va) s l := by
  induction l generalizing s with
  | nil => exact Iff.rfl
  | cons x l ih =>
    obtain ⟨va, asid⟩ := x
    have hone : OnlyMapsUser M s d va asid ↔ FaultSafe s d va := onlyMapsUser_iff h hd hb
    have hnext : FaultSafe s d va → ∀ w s', RefillsTo M s d va asid (.ok (w, s')) →
        (EveryFault M d (fun s va asid => OnlyMapsUser M s d va asid) (s'.tlbWrite asid va w) l ↔
          EveryFault M d (fun s va _ => FaultSafe s d va) (s'.tlbWrite asid va w) l) := by
      intro hs w s' hr
      obtain ⟨h', hb'⟩ := hs.keeps h hd hb hr
      exact ih ⟨h'.toAccounting.tlb _, h'.leaf_ge⟩ ⟨hb'.template, hb'.self, hb'.above⟩
    constructor
    · rintro ⟨h1, h2⟩
      exact ⟨hone.mp h1, fun w s' hr => (hnext (hone.mp h1) w s' hr).mp (h2 w s' hr)⟩
    · rintro ⟨h1, h2⟩
      exact ⟨hone.mpr h1, fun w s' hr => (hnext h1 w s' hr).mpr (h2 w s' hr)⟩

/-- The small machine with a page directory in page 0. -/
def dirMem : PhysMem := smallMem.setWord 0 (pdx uvpt) (page2pa 0 ||| pteV)

lemma dirMem_accounting : UserAccounting smallMachine dirMem {0} ∅ ∅ :=
  smallMem_accounting.toUserAccounting.congrMem
    (fun d _ i hi => write_of_ne_slot fun he => by
      rw [he, pdx_uvpt, pdx_utop] at hi
      omega)
    fun _ _ _ _ hv => absurd hv (by simp [smallMem, pteValid_zero])

lemma dirMem_built : BuiltDir dirMem 0 ∅ where
  template i _ hi hv := by
    have h0 : dirMem.mem 0 i = 0#32 := write_of_ne_slot hi.ne
    rw [h0, pteValid_zero] at hv
    exact absurd hv Bool.false_ne_true
  self := write_same smallMem.mem 0 (pdx uvpt) _
  above i hi _ := write_of_ne_slot hi.ne'

/-- After a page has been mapped at `UTEXT`, a fault at the next page does no harm. -/
theorem demand_paging_next : ∃ s,
    pageInsert smallMachine (dirMem.takeFree 7 [6, 5, 4, 3, 2]) 0 0 7 (pteAddr 0x400000#32) pteD =
      .ok (0, s) ∧
    EveryFault smallMachine 0 (fun s va asid => OnlyMapsUser smallMachine s 0 va asid) s
      [(0x401000#32, 0)] := by
  have hd : (0 : ℕ) ∈ ({0} : Finset ℕ) := Finset.mem_singleton_self 0
  have hf : dirMem.pageFreeList = 7 :: [6, 5, 4, 3, 2] := rfl
  obtain ⟨-, hr0, -⟩ | ⟨-, s1, hr, h1, -, hdir, -⟩ :=
    insert_page dirMem_accounting hd 0 (by decide : (0x400000#32 : Word) < utop) rfl hf
  · simp at hr0
  have hb1 : BuiltDir s1 0 ∅ := by
    have hne : ∀ i, pdx utop ≤ i → s1.mem 0 i = dirMem.mem 0 i := fun i hi =>
      hdir i fun hc => absurd (hc.1 ▸ hi) (by decide)
    refine ⟨fun i hi hi' hv => ?_, ?_, fun i hi hi' => ?_⟩
    · rw [hne i hi] at hv ⊢
      exact dirMem_built.template i hi hi' hv
    · rw [hne _ (by decide)]
      exact dirMem_built.self
    · rw [hne i (le_trans (by decide) hi.le)]
      exact dirMem_built.above i hi hi'
  refine ⟨s1, hr, (demand_paging_iff h1 hd hb1 _).mpr ⟨?_, fun _ _ _ => trivial⟩⟩
  have htab := ((dirMem_accounting.takeFree hf).pageInsert_table hd (by decide) hr).1
  exact Or.inr (Or.inr (Or.inr ⟨by decide, Or.inl htab⟩))

/-- A fault at `UVPT` maps a new page in the window for writing: it becomes the page table of the
first 4 MB. -/
theorem demand_paging_forged :
    ¬ ∀ (M : Machine) (s : PhysMem) (D K : Finset ℕ) (d : ℕ) (l : List (Word × Word)),
      UserAccounting M s D K ∅ → d ∈ D → BuiltDir s d K →
        EveryFault M d (fun s va asid => OnlyMapsUser M s d va asid) s l := by
  intro h
  obtain ⟨hone, -⟩ := h smallMachine dirMem {0} ∅ 0 [(uvpt, 0)] dirMem_accounting
    (Finset.mem_singleton_self 0) dirMem_built
  have hf : dirMem.pageFreeList = 7 :: [6, 5, 4, 3, 2] := rfl
  exact fault_window dirMem_accounting (Finset.mem_singleton_self 0) dirMem_built
    (by decide : uvpt ≤ uvpt) (by decide) rfl hf hone

end MosVolca
