import MosVolca.Kern.DemandPaging
import MosVolca.Kern.EnvTable

/-!
# TLB coherence

The TLB is filled from the page tables and flushed entry by entry, so every change of a page table
entry or of a page directory entry has to be followed by the right flush. The TLB is looked up by
the address space identifier, and identifiers are used again: after `env_free` only entries that
every address space has may be left.

The page directories belong to identifiers by a relation `R`; `base` is the template page directory.

## Main definitions

* `MosVolca.UserVisible` — the addresses at which programs cause refills.
* `MosVolca.UserDirs` — page directories as `env_setup_vm` builds them, without global entries.
* `MosVolca.Held` — what the TLB may hold for an identifier.
* `MosVolca.Coherent` — the coherence invariant.

## Main results

* `MosVolca.Coherent.pageInsert`, `MosVolca.Coherent.pageRemove` — changes of an address space.
* `MosVolca.Coherent.newDir`, `MosVolca.Coherent.envFreeVm` — an identifier is taken and given
  back.
* `MosVolca.Coherent.tlbWrite` — an entry is written.
-/

namespace MosVolca

open TwoLevel

/-- The addresses below `UTOP`, and the window in which a program sees its page tables. -/
def UserVisible (va : Word) : Prop := pdx va < pdx utop ∨ pdx va = pdx uvpt

/-- The page directories with `P` from `PDX(UTOP)` on are as `env_setup_vm` builds them from the
template, and no entry that is visible to a program is global. -/
structure UserDirs (s : PhysMem) (base : ℕ) (P : ℕ → Prop) : Prop where
  template : ∀ d, P d → ∀ i, pdx utop ≤ i → i < pdx uvpt → s.mem d i = s.mem base i
  self : ∀ d, P d → s.mem d (pdx uvpt) = page2pa d ||| pteV
  above : ∀ d, P d → ∀ i, pdx uvpt < i → i < 1024 → s.mem d i = 0#32
  templateLocal : ∀ i, pdx utop ≤ i → i < pdx uvpt → pteValid (s.mem base i) = true →
    s.mem base i &&& pteG = 0
  tableLocal : ∀ d, P d → ∀ i < pdx utop, pteValid (s.mem d i) = true → s.mem d i &&& pteG = 0
  pageLocal : ∀ d, P d → ∀ va w, pdx va < pdx utop → translate s d va = some w → w &&& pteG = 0

/-- What the TLB may hold for the identifier `a`: the translation in the page directory that has
it; without one, an entry of the window that is the same in every page directory. -/
structure Held (s : PhysMem) (base : ℕ) (R : ℕ → ℕ → Prop) (a : ℕ) (va w : Word) : Prop where
  visible : UserVisible va
  notGlobal : w &&& pteG = 0
  owned : ∀ d, R a d → translate s d va = some w
  idle : (∀ d, ¬ R a d) → pdx va = pdx uvpt ∧ pdx utop ≤ ptx va ∧ ptx va < pdx uvpt ∧
    s.mem base (ptx va) = w ∧ pteValid w = true

/-- **TLB coherence**: every TLB entry is one that its identifier may have. -/
structure Coherent (s : PhysMem) (base : ℕ) (R : ℕ → ℕ → Prop) : Prop
    extends UserDirs s base fun d => ∃ a, R a d where
  held : ∀ a va w, s.tlb a (vpn va) = some w → Held s base R a va w

variable {M : Machine} {s s' : PhysMem} {D K H : Finset ℕ} {base d i pp q a r' : ℕ}
  {P : ℕ → Prop} {R R' : ℕ → ℕ → Prop} {rest : List ℕ} {asid va va' perm r w : Word}

/-! ## Global entries -/

lemma and_pteG_eq_zero : w &&& pteG = 0 ↔ w.getLsbD 8 = false := by
  have hG : pteG = BitVec.twoPow 32 8 := by decide
  rw [hG, BitVec.and_twoPow]
  cases w.getLsbD 8 <;> decide

lemma page2pa_local (pp : ℕ) : (page2pa pp).getLsbD 8 = false := by
  rw [page2pa, BitVec.getLsbD_shiftLeft]
  simp

lemma mkPte_local (pp : ℕ) (h : perm &&& pteG = 0) : mkPte pp perm &&& pteG = 0 := by
  have hV : pteV.getLsbD 8 = false := by decide
  rw [and_pteG_eq_zero] at h ⊢
  rw [mkPte, BitVec.getLsbD_or, BitVec.getLsbD_or, page2pa_local, h, hV]
  rfl

lemma mkPde_local (pp : ℕ) : mkPde pp &&& pteG = 0 := by
  have hV : pteV.getLsbD 8 = false := by decide
  have hD : pteD.getLsbD 8 = false := by decide
  rw [and_pteG_eq_zero, mkPde, BitVec.getLsbD_or, BitVec.getLsbD_or, BitVec.getLsbD_and,
    page2pa_local, hV, hD]
  rfl

lemma self_local (d : ℕ) : (page2pa d ||| pteV) &&& pteG = 0 := by
  have hV : pteV.getLsbD 8 = false := by decide
  rw [and_pteG_eq_zero, BitVec.getLsbD_or, page2pa_local, hV]
  rfl

/-! ## Flushes -/

/-- The word that `tlb_invalidate` hands to `tlb_out`: the page of `va` and the identifier. -/
lemma entryhi_toNat (va : Word) (ha : asid.toNat < nasid) :
    (pteAddr va ||| (asid <<< 6)).toNat = vpn va * 2 ^ 12 + asid.toNat * 2 ^ 6 := by
  unfold nasid at ha
  have hshift : (asid <<< 6).toNat = asid.toNat * 2 ^ 6 := by
    rw [BitVec.toNat_shiftLeft, Nat.shiftLeft_eq, Nat.mod_eq_of_lt]
    omega
  have hpage : (pteAddr va).toNat = vpn va <<< 12 := by
    have hlt : vpn va < 2 ^ 20 := ppn_lt va
    rw [← page2pa_ppn, page2pa, BitVec.toNat_shiftLeft, BitVec.toNat_ofNat, Nat.shiftLeft_eq,
      Nat.shiftLeft_eq]
    change vpn va % _ * _ % _ = _
    omega
  have hlow : asid.toNat * 2 ^ 6 < 2 ^ 12 := by omega
  rw [BitVec.toNat_or, hshift, hpage, ← Nat.shiftLeft_add_eq_or_of_lt hlow, Nat.shiftLeft_eq]

/-- The page and the identifier are read back from `EntryHi`. -/
lemma entryhi_fields (va : Word) (ha : asid.toNat < nasid) :
    vpn (pteAddr va ||| (asid <<< 6)) = vpn va ∧
      (((pteAddr va ||| (asid <<< 6)) >>> 6) &&& 0x3f#32).toNat = asid.toNat := by
  have h := entryhi_toNat va ha
  unfold nasid at ha
  constructor
  · rw [vpn_eq_div, h]
    omega
  · have hmask : (0x3f#32).toNat = 2 ^ 6 - 1 := rfl
    rw [BitVec.toNat_and, hmask, Nat.and_two_pow_sub_one_eq_mod, BitVec.toNat_ushiftRight,
      Nat.shiftRight_eq_div_pow, h]
    omega

/-- What is left after `tlb_invalidate`. -/
lemma tlb_tlbInvalidate (ha : asid.toNat < nasid) :
    (tlbInvalidate s asid va).tlb a (vpn va') = some w ↔
      s.tlb a (vpn va') = some w ∧
        ¬ (vpn va' = vpn va ∧ (a = asid.toNat ∨ w &&& pteG ≠ 0)) := by
  obtain ⟨hv, hid⟩ := entryhi_fields va ha
  simp only [tlbInvalidate, tlbOut, hv, hid]
  rcases s.tlb a (vpn va') with _ | w'
  · simp
  · simp only
    split_ifs with hc
    · refine iff_of_false (by simp) ?_
      rintro ⟨h, hn⟩
      obtain rfl : w' = w := by simpa using h
      exact hn hc
    · constructor
      · intro h
        obtain rfl : w' = w := by simpa using h
        exact ⟨rfl, hc⟩
      · exact fun h => h.1

/-- A `page_insert` that fails has flushed the entry only. -/
lemma pageInsert_failed (hfree : ∀ q ∈ s.pageFreeList, q < M.npage)
    (hself : pteValid (s.mem d (pdx va)) = true → ppn (s.mem d (pdx va)) ≠ d)
    (hr : pageInsert M s d asid pp va perm = .ok (r, s')) (hr0 : r ≠ 0) :
    s' = tlbInvalidate s asid va := by
  by_cases hv : pteValid (s.mem d (pdx va)) = true
  · rcases pageInsert_cases hfree (hself hv) hr with ⟨-, -, -, hs⟩ | ⟨_, _, -, -, h0, -⟩ |
      ⟨-, -, -, h0, -⟩ | ⟨-, -, -, -, -, h0, -⟩ | ⟨-, -, -, -, -, -, h0, -⟩
    · exact hs
    all_goals exact absurd h0 hr0
  · rw [pageInsert_unmapped fun hv' => absurd hv' hv] at hr
    rcases pageInstall_cases hfree hr with ⟨-, -, -, hs⟩ | ⟨_, _, -, -, h0, -⟩ | ⟨-, -, h0, -⟩
    · exact hs
    all_goals exact absurd h0 hr0

/-- After `page_insert` the TLB has no entry for the page, and no new ones. -/
lemma tlb_pageInsert (hfree : ∀ q ∈ s.pageFreeList, q < M.npage)
    (hself : pteValid (s.mem d (pdx va)) = true → ppn (s.mem d (pdx va)) ≠ d)
    (ha : asid.toNat < nasid) (hr : pageInsert M s d asid pp va perm = .ok (r, s'))
    (hw : s'.tlb a (vpn va') = some w) :
    s.tlb a (vpn va') = some w ∧ ¬ (vpn va' = vpn va ∧ a = asid.toNat) := by
  have hone : (tlbInvalidate s asid va).tlb a (vpn va') = some w →
      s.tlb a (vpn va') = some w ∧ ¬ (vpn va' = vpn va ∧ a = asid.toNat) := fun h => by
    obtain ⟨h1, h2⟩ := (tlb_tlbInvalidate ha).mp h
    exact ⟨h1, fun hc => h2 ⟨hc.1, Or.inl hc.2⟩⟩
  by_cases hv : pteValid (s.mem d (pdx va)) = true
  · rcases pageInsert_cases hfree (hself hv) hr with ⟨-, -, -, rfl⟩ | ⟨_, _, -, -, -, rfl⟩ |
      ⟨-, -, -, -, rfl⟩ | ⟨-, -, -, -, -, -, rfl⟩ | ⟨-, -, -, -, -, -, -, rfl⟩
    · exact hone hw
    · exact hone hw
    · exact hone hw
    · exact hone hw
    · -- the entry is flushed by `page_remove` and once more
      exact hone ((tlb_tlbInvalidate ha).mp hw).1
  · rw [pageInsert_unmapped fun hv' => absurd hv' hv] at hr
    rcases pageInstall_cases hfree hr with ⟨-, -, -, rfl⟩ | ⟨_, _, -, -, -, rfl⟩ | ⟨-, -, -, rfl⟩
    · exact hone hw
    · exact hone hw
    · exact hone hw

/-- After `page_remove` the TLB has no entry for the page if it was mapped, and no new ones. -/
lemma tlb_pageRemove (ha : asid.toNat < nasid)
    (hr : pageRemove M s d asid va = .ok s') (hw : s'.tlb a (vpn va') = some w) :
    s.tlb a (vpn va') = some w ∧
      (vpn va' = vpn va ∧ a = asid.toNat → pageLookup M s d va = .ok none) := by
  rcases pageRemove_cases hr with ⟨rfl, hnone⟩ | ⟨-, -, -, -, -, rfl⟩
  · exact ⟨hw, fun _ => hnone⟩
  · obtain ⟨h1, h2⟩ := (tlb_tlbInvalidate ha).mp hw
    exact ⟨h1, fun hc => absurd ⟨hc.1, Or.inl hc.2⟩ h2⟩

/-! ## The invariant -/

lemma UserVisible.of_lt (h : va < utop) : UserVisible va := Or.inl (pdx_lt_of_lt_utop h)

namespace UserDirs

variable (h : UserDirs s base P) (hd : P d)

include h hd

lemma window (hlt : d < 2 ^ 20) (hva : pdx va = pdx uvpt) :
    translate s d va = some w ↔ s.mem d (ptx va) = w ∧ pteValid w = true :=
  translate_window (h.self d hd) hlt hva

/-- No visible translation is global. -/
lemma notGlobal (hlt : d < 2 ^ 20) (hva : UserVisible va) (ht : translate s d va = some w) :
    w &&& pteG = 0 := by
  rcases hva with hva | hva
  · exact h.pageLocal d hd va w hva ht
  obtain ⟨rfl, hv⟩ := (h.window hd hlt hva).mp ht
  rcases Nat.lt_or_ge (ptx va) (pdx utop) with hi | hi
  · exact h.tableLocal d hd _ hi hv
  rcases Nat.lt_trichotomy (ptx va) (pdx uvpt) with hlt | heq | hgt
  · rw [h.template d hd _ hi hlt] at hv ⊢
    exact h.templateLocal _ hi hlt hv
  · rw [heq, h.self d hd]
    exact self_local d
  · rw [h.above d hd _ hgt (ptx_lt va), pteValid_zero] at hv
    exact absurd hv Bool.false_ne_true

end UserDirs

/-- The words of the page directories change below `PDX(UTOP)` only, and no entry becomes
global. -/
lemma UserDirs.change (h : UserDirs s base P) (hbase : ∀ i, s'.mem base i = s.mem base i)
    (hup : ∀ d, P d → ∀ i, pdx utop ≤ i → i < 1024 → s'.mem d i = s.mem d i)
    (htable : ∀ d, P d → ∀ i < pdx utop, s'.mem d i = s.mem d i ∨ s'.mem d i &&& pteG = 0)
    (hpage : ∀ d, P d → ∀ va w, pdx va < pdx utop → translate s' d va = some w →
      translate s d va = some w ∨ w &&& pteG = 0) : UserDirs s' base P := by
  have hV : pdx uvpt < 1024 := by decide
  have hT : pdx utop ≤ pdx uvpt := by decide
  refine ⟨fun d hd i h1 h2 => ?_, fun d hd => ?_, fun d hd i h1 h2 => ?_, fun i h1 h2 hv => ?_,
    fun d hd i hi hv => ?_, fun d hd va w hi ht => ?_⟩
  · rw [hup d hd i h1 (by omega), hbase]
    exact h.template d hd i h1 h2
  · rw [hup d hd _ hT hV]
    exact h.self d hd
  · rw [hup d hd i (by omega) h2]
    exact h.above d hd i h1 h2
  · rw [hbase] at hv ⊢
    exact h.templateLocal i h1 h2 hv
  · rcases htable d hd i hi with he | hl
    · rw [he] at hv ⊢
      exact h.tableLocal d hd i hi hv
    · exact hl
  · exact (hpage d hd va w hi ht).elim (h.pageLocal d hd va w hi) id

lemma Accounting.dir_bits {n : ℕ} (ha : Accounting M n s D K H) (hd : d ∈ D) : d < 2 ^ 20 :=
  (ha.dir_lt hd).trans M.npage_lt

/-- The TLB loses entries, and of the others no translation changes. -/
lemma Coherent.change (h : Coherent s base R) (hdirs : UserDirs s' base fun d => ∃ a, R a d)
    (hbase : ∀ i, s'.mem base i = s.mem base i)
    (hfew : ∀ a va w, s'.tlb a (vpn va) = some w → s.tlb a (vpn va) = some w)
    (hsame : ∀ a va w d, s'.tlb a (vpn va) = some w → R a d → UserVisible va →
      translate s d va = some w → translate s' d va = some w) : Coherent s' base R := by
  refine ⟨hdirs, fun a va w ht => ?_⟩
  have hheld := h.held a va w (hfew a va w ht)
  refine ⟨hheld.visible, hheld.notGlobal, fun d hR => ?_, fun hR => ?_⟩
  · exact hsame a va w d ht hR hheld.visible (hheld.owned d hR)
  · rw [hbase]
    exact hheld.idle hR

/-! ## Changes of an address space -/

section Operations

variable (h : Coherent s base R) (ha : UserAccounting M s D K H) (hK : base ∈ K)
  (hD : ∀ a d, R a d → d ∈ D)

include ha hK

/-- The template is not among the pages that change. -/
lemma UserAccounting.kept_fixed :
    ¬ (tableShape (pdx utop)).Node s.mem D base ∧ base ∉ s.pageFreeList :=
  ⟨Shape.not_node_of_refCount (ha.kept base hK), fun hf => ((ha.free_mem base).mp hf).2.1 hK⟩

include h hD

omit hK in
/-- The memory changes outside the template, the page directories and the page tables. -/
lemma Coherent.congrNodes (hbase : s'.mem base = s.mem base)
    (hnode : ∀ p, (tableShape (pdx utop)).Node s.mem D p → s'.mem p = s.mem p)
    (hfew : ∀ a va w, s'.tlb a (vpn va) = some w → s.tlb a (vpn va) = some w) :
    Coherent s' base R := by
  have hdir : ∀ d, (∃ a, R a d) → s'.mem d = s.mem d := fun d ⟨a, hR⟩ =>
    hnode d (Shape.Node.of_mem (hD a d hR))
  have htr : ∀ d, (∃ a, R a d) → ∀ va, UserVisible va → translate s' d va = translate s d va := by
    intro d hd va hva
    obtain ⟨a, hR⟩ := hd
    refine Shape.lookup_congr (T := tableShape 0) (congrFun (hdir d ⟨a, hR⟩) _) fun hv => ?_
    refine congrFun ?_ _
    rcases hva with hi | hi
    · exact hnode _ (Shape.Node.of_slot (T := tableShape (pdx utop)) (hD a d hR) hi hv)
    · have hself : ppn (s.mem d (pdx va)) = d := by
        rw [hi, h.self d ⟨a, hR⟩, ppn_self (ha.dir_bits (hD a d hR))]
      rw [tableShape_frame, hself]
      exact hdir d ⟨a, hR⟩
  refine h.change (h.toUserDirs.change (congrFun hbase) (fun d hd i _ _ => congrFun (hdir d hd) i)
    (fun d hd i _ => Or.inl (congrFun (hdir d hd) i)) fun d hd va w hi ht => Or.inl ?_)
    (congrFun hbase) hfew fun a va w d _ hR hva ht => ?_
  · rwa [htr d hd va (Or.inl hi)] at ht
  · rwa [htr d ⟨a, hR⟩ va hva]

/-- `page_alloc` keeps coherence. -/
lemma Coherent.takeFree (hf : s.pageFreeList = q :: rest) :
    Coherent (s.takeFree q rest) base R := by
  have hq := Shape.not_node_of_refCount (ha.head_free hf).2.2.2
  have hrow : ∀ p, p ≠ q → (s.takeFree q rest).mem p = s.mem p := fun p hp => funext fun i => by
    rw [PhysMem.takeFree_mem, fill_of_ne hp]
  refine h.congrNodes ha hD (hrow base ?_) (fun p hp => hrow p ?_) fun _ _ _ hw => hw
  · rintro rfl
    exact (ha.kept_fixed hK).2 (by rw [hf]; exact List.mem_cons_self)
  · rintro rfl
    exact hq hp

/-- A page that its holder has not mapped yet is written. -/
lemma Coherent.writeHeld {m : Store Word} (hp : pp ∈ H) (hm : ∀ p, p ≠ pp → m p = s.mem p) :
    Coherent { s with mem := m } base R := by
  obtain ⟨-, hk, h0⟩ := ha.held pp hp
  refine h.congrNodes ha hD (hm base ?_) (fun p hn => hm p ?_) fun _ _ _ hw => hw
  · rintro rfl
    exact hk hK
  · rintro rfl
    exact Shape.not_node_of_refCount h0 hn

/-- **`page_insert` keeps coherence.** -/
lemma Coherent.pageInsert (hd : d ∈ D) (hi : pdx va < pdx utop)
    (hR : ∀ a, R a d → a = asid.toNat) (hasid : asid.toNat < nasid) (hperm : perm &&& pteG = 0)
    (hr : pageInsert M s d asid pp va perm = .ok (r, s')) : Coherent s' base R := by
  have hself := fun hv => ha.table_ne_dir hd hi hv
  obtain ⟨hdir, hrow⟩ := ha.pageInsert_mem hd hi hr
  have hbase := hrow base (ha.kept_fixed hK).1 (ha.kept_fixed hK).2
  have htlb : ∀ {a va' w}, s'.tlb a (vpn va') = some w → s.tlb a (vpn va') = some w ∧
      ¬ (vpn va' = vpn va ∧ a = asid.toNat) := tlb_pageInsert ha.free_lt hself hasid hr
  -- the translations, and the directory entry of a new page table
  have htr : ∀ d' ∈ D, ∀ va' w, pdx va' < pdx utop → ¬ (d' = d ∧ vpn va' = vpn va) →
      (translate s' d' va' = some w ↔ translate s d' va' = some w) := by
    intro d' hd' va' w hi' hne
    by_cases hr0 : r = 0
    · subst hr0
      rw [ha.translate_pageInsert hd hi hr hd' hi', if_neg hne]
    · rw [pageInsert_failed ha.free_lt hself hr hr0]
      exact Iff.rfl
  have htable : ∀ d' ∈ D, ∀ i < pdx utop, s'.mem d' i = s.mem d' i ∨ s'.mem d' i &&& pteG = 0 := by
    intro d' hd' i _
    by_cases hc : d' = d ∧ i = pdx va ∧ pteValid (s.mem d i) = false
    · obtain ⟨rfl, rfl, hv⟩ := hc
      by_cases hr0 : r = 0
      · subst hr0
        obtain ⟨q, -, -, -, hq⟩ := ha.pageInsert_newTable hd hv hr
        exact Or.inr (hq ▸ mkPde_local q)
      · rw [pageInsert_failed ha.free_lt hself hr hr0]
        exact Or.inl rfl
    · exact Or.inl (hdir d' hd' i hc)
  have hdirs : UserDirs s' base fun d => ∃ a, R a d := by
    refine h.toUserDirs.change (congrFun hbase) (fun d' ⟨a, hown⟩ i h1 _ => ?_)
      (fun d' ⟨a, hown⟩ => htable d' (hD a d' hown)) fun d' ⟨a, hown⟩ va' w hi' ht => ?_
    · exact hdir d' (hD a d' hown) i fun hc => by omega
    have hd' := hD a d' hown
    by_cases hc : d' = d ∧ vpn va' = vpn va
    · by_cases hr0 : r = 0
      · subst hr0
        rw [ha.translate_pageInsert hd hi hr hd' hi', if_pos hc] at ht
        obtain rfl : mkPte pp perm = w := by simpa using ht
        exact Or.inr (mkPte_local pp hperm)
      · rw [pageInsert_failed ha.free_lt hself hr hr0] at ht
        exact Or.inl ht
    · exact Or.inl ((htr d' hd' va' w hi' hc).mp ht)
  refine h.change hdirs (congrFun hbase) (fun a va' w ht => (htlb ht).1)
    fun a va' w d' ht hown hva htrans => ?_
  have hd' := hD a d' hown
  rcases hva with hi' | hi'
  · refine (htr d' hd' va' w hi' ?_).mpr htrans
    rintro ⟨rfl, hv⟩
    exact (htlb ht).2 ⟨hv, hR a hown⟩
  · -- a page table that is in use stays where it is
    have hlt := ha.dir_bits hd'
    rw [hdirs.window ⟨a, hown⟩ hlt hi']
    obtain ⟨rfl, hv⟩ := (h.toUserDirs.window ⟨a, hown⟩ hlt hi').mp htrans
    refine ⟨hdir d' hd' _ ?_, hv⟩
    rintro ⟨rfl, -, hinv⟩
    rw [hv] at hinv
    exact absurd hinv (by simp)

/-- **`page_remove` keeps coherence.** -/
lemma Coherent.pageRemove (hd : d ∈ D) (hi : pdx va < pdx utop)
    (hR : ∀ a, R a d → a = asid.toNat) (hasid : asid.toNat < nasid)
    (hr : pageRemove M s d asid va = .ok s') : Coherent s' base R := by
  obtain ⟨hdir, hrow⟩ := ha.pageRemove_mem hd hi hr
  have hbase := hrow base (ha.kept_fixed hK).1
  have htr : ∀ d' ∈ D, ∀ va', pdx va' < pdx utop → translate s' d' va' =
      if d' = d ∧ vpn va' = vpn va then none else translate s d' va' :=
    fun d' hd' va' hi' => ha.translate_pageRemove hd hi hr hd' hi'
  have hdirs : UserDirs s' base fun d => ∃ a, R a d := by
    refine h.toUserDirs.change (congrFun hbase)
      (fun d ⟨a, hown⟩ i _ _ => congrFun (hdir d (hD a d hown)) i)
      (fun d ⟨a, hown⟩ i _ => Or.inl (congrFun (hdir d (hD a d hown)) i))
      fun d' ⟨a, hown⟩ va' w hi' ht => Or.inl ?_
    rw [htr d' (hD a d' hown) va' hi'] at ht
    split_ifs at ht
    exact ht
  refine h.change hdirs (congrFun hbase) (fun a va w ht => (tlb_pageRemove hasid hr ht).1)
    fun a va' w d' htlb hown hva ht => ?_
  have hd' := hD a d' hown
  rcases hva with hi' | hi'
  · rw [htr d' hd' va' hi', if_neg ?_, ht]
    rintro ⟨rfl, hv⟩
    have hnone := (tlb_pageRemove hasid hr htlb).2 ⟨hv, hR a hown⟩
    rw [ha.pageLookup_eq hd hi, ← translate_congr_vpn hv, ht] at hnone
    simp at hnone
  · rw [hdirs.window ⟨a, hown⟩ (ha.dir_bits hd') hi', hdir d' hd']
    exact (h.toUserDirs.window ⟨a, hown⟩ (ha.dir_bits hd') hi').mp ht

end Operations

/-! ## A new page directory -/

section NewDir

/-- From `PDX(UTOP)` on the new page directory is a copy of the template. -/
lemma PhysMem.newDir_mem_template (hq : base ≠ q) (h1 : pdx utop ≤ i) (h2 : i < pdx uvpt) :
    (s.newDir q rest base).mem q i = s.mem base i := by
  change write (copyTemplate ((s.takeFree q rest).incRef q) q base).mem q (pdx uvpt) _ q i = _
  rw [write_of_ne_slot (Nat.ne_of_lt h2), copyTemplate]
  refine (if_pos ⟨rfl, h1, h2⟩).trans ?_
  exact fill_of_ne hq

lemma PhysMem.newDir_mem_self : (s.newDir q rest base).mem q (pdx uvpt) = page2pa q ||| pteV :=
  write_same _ _ _ _

lemma PhysMem.newDir_mem_above (h : pdx uvpt < i) : (s.newDir q rest base).mem q i = 0#32 := by
  change write (copyTemplate ((s.takeFree q rest).incRef q) q base).mem q (pdx uvpt) _ q i = _
  rw [write_of_ne_slot (Nat.ne_of_gt h), copyTemplate]
  refine (if_neg fun hc => absurd hc.2.2 (Nat.not_lt.mpr h.le)).trans ?_
  exact fill_same _ _ _ _

variable (h : Coherent s base R) (ha : UserAccounting M s D K H) (hK : base ∈ K)
  (hD : ∀ a d, R a d → d ∈ D) (hf : s.pageFreeList = q :: rest)

include h ha hK hD hf

/-- A page directory that is lost changes nothing for the others. -/
lemma Coherent.lostDir : Coherent (s.newDir q rest base) base R := by
  have hnode := Shape.not_node_of_refCount (ha.head_free hf).2.2.2
  refine h.congrNodes ha hD (PhysMem.newDir_mem_of_ne ?_)
    (fun p hp => PhysMem.newDir_mem_of_ne ?_) fun _ _ _ hw => hw
  · rintro rfl
    exact (ha.kept_fixed hK).2 (by rw [hf]; exact List.mem_cons_self)
  · rintro rfl
    exact hnode hp

/-- **`env_setup_vm`**: an identifier that was not in use gets the new page directory. What the
TLB still holds for it is in the window of every page directory. -/
lemma Coherent.newDir (hidle : ∀ d, ¬ R a d) (hR' : ∀ x d, R' x d ↔ R x d ∨ (x = a ∧ d = q)) :
    Coherent (s.newDir q rest base) base R' := by
  have hlost := h.lostDir ha hK hD hf
  have hq := ha.head_free hf
  have hbq : base ≠ q := by
    rintro rfl
    exact hq.2.1 hK
  have hbase : (s.newDir q rest base).mem base = s.mem base := PhysMem.newDir_mem_of_ne hbq
  have hqlt : q < 2 ^ 20 := hq.1.2.trans M.npage_lt
  have huser : ∀ va, pdx va < pdx utop → translate (s.newDir q rest base) q va = none :=
    fun va hi => translate_eq_none_iff.mpr fun hv => by
      rw [PhysMem.newDir_mem_user hi, pteValid_zero] at hv
      exact absurd hv Bool.false_ne_true
  have hcases : ∀ d, (∃ x, R' x d) → d = q ∨ ∃ x, R x d := fun d ⟨x, hx⟩ => by
    rcases (hR' x d).mp hx with hx | ⟨-, rfl⟩
    · exact Or.inr ⟨x, hx⟩
    · exact Or.inl rfl
  have hdirs : UserDirs (s.newDir q rest base) base fun d => ∃ x, R' x d := by
    refine ⟨fun d hd i h1 h2 => ?_, fun d hd => ?_, fun d hd i h1 h2 => ?_, hlost.templateLocal,
      fun d hd i hi hv => ?_, fun d hd va w hi ht => ?_⟩
    · rcases hcases d hd with rfl | hd
      · rw [PhysMem.newDir_mem_template hbq h1 h2, hbase]
      · exact hlost.template d hd i h1 h2
    · rcases hcases d hd with rfl | hd
      · exact PhysMem.newDir_mem_self
      · exact hlost.self d hd
    · rcases hcases d hd with rfl | hd
      · exact PhysMem.newDir_mem_above h1
      · exact hlost.above d hd i h1 h2
    · rcases hcases d hd with rfl | hd
      · rw [PhysMem.newDir_mem_user hi, pteValid_zero] at hv
        exact absurd hv Bool.false_ne_true
      · exact hlost.tableLocal d hd i hi hv
    · rcases hcases d hd with rfl | hd
      · rw [huser va hi] at ht
        simp at ht
      · exact hlost.pageLocal d hd va w hi ht
  refine ⟨hdirs, fun x va w ht => ?_⟩
  have hheld := hlost.held x va w ht
  refine ⟨hheld.visible, hheld.notGlobal, fun d hx => ?_, fun hx => ?_⟩
  · have hown : ∃ x, R' x d := ⟨x, hx⟩
    rcases (hR' x d).mp hx with hx | ⟨rfl, rfl⟩
    · exact hheld.owned d hx
    · obtain ⟨hwin, h1, h2, hw, hv⟩ := hheld.idle hidle
      rw [hdirs.window hown hqlt hwin, hdirs.template d hown _ h1 h2]
      exact ⟨hw, hv⟩
  · exact hheld.idle fun d hd => hx d ((hR' x d).mpr (Or.inl hd))

end NewDir

/-! ## Release of an address space -/

/-- The address at which the window shows the page table `i`. -/
lemma windowAddr_fields (hi : i < 1024) : pdx (uvpt + (BitVec.ofNat 32 i <<< 12)) = pdx uvpt ∧
    ptx (uvpt + (BitVec.ofNat 32 i <<< 12)) = i := by
  have h : (uvpt + (BitVec.ofNat 32 i <<< 12)).toNat = 0x7fc00000 + i * 4096 := by
    rw [BitVec.toNat_add, BitVec.toNat_shiftLeft, BitVec.toNat_ofNat, uvpt_toNat, Nat.shiftLeft_eq]
    omega
  rw [pdx_eq, ptx_eq, h, pdx_uvpt]
  omega

section Free

variable (h : Coherent s base R) (ha : PageAccounting M s D K H) (hK : base ∈ K)
  (hD : ∀ a d, R a d → d ∈ D) (hd : d ∈ D) (hR : ∀ a, R a d → a = asid.toNat)
  (hasid : asid.toNat < nasid)

include h ha hK hD hd hR hasid

/-- The inner loop of `env_free`. -/
lemma Coherent.envFreePages {t : ℕ} (hi : i < pdx utop)
    (hr : envFreePages M s d asid i t = .ok s') :
    PageAccounting M s' D K H ∧ Coherent s' base R ∧ s'.mem d = s.mem d := by
  have hi' : i < 1024 := hi.trans (by decide)
  refine foldlM_invariant
    (P := fun s1 => PageAccounting M s1 D K H ∧ Coherent s1 base R ∧ s1.mem d = s.mem d)
    (fun j hj s1 s2 ⟨ha1, h1, hd1⟩ hstep => ?_) ⟨ha, h, rfl⟩ hr
  have hpdx : pdx (entryAddr i j) < pdx utop := by
    rwa [pdx_entryAddr hi' (List.mem_range.mp hj)]
  split_ifs at hstep with hv
  · exact ⟨ha1.pageRemove hd hpdx hstep,
      h1.pageRemove ha1.toUserAccounting hK hD hd hpdx hR hasid hstep,
      ((ha1.pageRemove_mem hd hpdx hstep).1 d hd).trans hd1⟩
  · simp only [pure_eq_ok, Except.ok.injEq] at hstep
    exact hstep ▸ ⟨ha1, h1, hd1⟩

/-- An empty page table is dropped, and its entry of the window is flushed. -/
lemma Coherent.freeTable (hi : i < pdx utop) (hv : pteValid (s.mem d i) = true)
    (hempty : ∀ j < 1024, pteValid (s.mem (ppn (s.mem d i)) j) = false) :
    Coherent (tlbInvalidate (decRef (s.setWord d i 0#32) (ppn (s.mem d i))) asid
      (uvpt + (BitVec.ofNat 32 i <<< 12))) base R := by
  have hi' : i < 1024 := hi.trans (by decide)
  obtain ⟨hwin, hptx⟩ := windowAddr_fields hi'
  have hmem : (tlbInvalidate (decRef (s.setWord d i 0#32) (ppn (s.mem d i))) asid
      (uvpt + (BitVec.ofNat 32 i <<< 12))).mem = write s.mem d i 0#32 := rfl
  have hrow : ∀ p, p ≠ d → write s.mem d i 0#32 p = s.mem p := fun p hp =>
    funext fun j => write_of_ne_page hp
  have hbase : write s.mem d i 0#32 base = s.mem base := hrow base fun he =>
    (ha.toUserAccounting.kept_fixed hK).1 (he ▸ Shape.Node.of_mem hd)
  have hslot : ∀ d' j, ¬ (d' = d ∧ j = i) → write s.mem d i 0#32 d' j = s.mem d' j :=
    fun d' j hne => write_of_ne (not_and_or.mp hne)
  -- no user translation goes through the table
  have htr : ∀ d' ∈ D, ∀ va w, pdx va < pdx utop →
      ((tableShape 0).lookup (write s.mem d i 0#32) d' (pdx va) (ptx va) = some w ↔
        translate s d' va = some w) := by
    intro d' hd' va w hiv
    by_cases hc : d' = d ∧ pdx va = i
    · obtain ⟨rfl, rfl⟩ := hc
      refine iff_of_false (fun ht => ?_) fun ht => ?_
      · have := (Shape.lookup_eq_some_iff.mp ht).1
        rw [tableShape_valid, write_same, pteValid_zero] at this
        exact absurd this Bool.false_ne_true
      · obtain ⟨-, rfl, hw⟩ := translate_eq_some_iff.mp ht
        rw [pteWord, hempty _ (ptx_lt va)] at hw
        exact absurd hw Bool.false_ne_true
    · have he := hslot d' (pdx va) hc
      have hlook : (tableShape 0).lookup (write s.mem d i 0#32) d' (pdx va) (ptx va) =
          translate s d' va := by
        refine Shape.lookup_congr (T := tableShape 0) he fun hv' => congrFun (hrow _ ?_) _
        intro hfr
        exact ha.owned.table_not_mem (T := tableShape (pdx utop)) hd' hiv hv' (hfr ▸ hd)
      rw [hlook]
  have hdirs : UserDirs (tlbInvalidate (decRef (s.setWord d i 0#32) (ppn (s.mem d i))) asid
      (uvpt + (BitVec.ofNat 32 i <<< 12))) base fun d => ∃ a, R a d := by
    refine h.toUserDirs.change (congrFun hbase) (fun d' _ j h1 _ => hslot d' j fun hc => ?_)
      (fun d' _ j _ => ?_) fun d' hown va w hiv ht => Or.inl ?_
    · omega
    · by_cases hc : d' = d ∧ j = i
      · rw [hmem, hc.1, hc.2, write_same]
        exact Or.inr (by decide)
      · exact Or.inl (hslot d' j hc)
    · obtain ⟨a, ha'⟩ := hown
      exact (htr d' (hD a d' ha') va w hiv).mp ht
  refine h.change hdirs (congrFun hbase) (fun a va w ht => ((tlb_tlbInvalidate hasid).mp ht).1)
    fun a va w d' ht hown hva htrans => ?_
  have hd' := hD a d' hown
  obtain ⟨-, hflush⟩ := (tlb_tlbInvalidate hasid).mp ht
  rcases hva with hiv | hiv
  · exact (htr d' hd' va w hiv).mpr htrans
  · rw [hdirs.window ⟨a, hown⟩ (ha.dir_bits hd') hiv]
    rw [h.toUserDirs.window ⟨a, hown⟩ (ha.dir_bits hd') hiv] at htrans
    rw [hmem, hslot d' (ptx va) ?_]
    · exact htrans
    · rintro ⟨rfl, hpi⟩
      refine hflush ⟨(vpn_eq_vpn_iff _ _).mpr ⟨hiv.trans hwin.symm, hpi.trans hptx.symm⟩, ?_⟩
      exact Or.inl (hR a hown)

/-- One round of the outer loop of `env_free`. -/
lemma Coherent.envFreeTable (hi : i < pdx utop) (hr : envFreeTable M d asid s i = .ok s') :
    Coherent s' base R := by
  unfold MosVolca.envFreeTable at hr
  rcases hv : pteValid (s.mem d i) with _ | _
  · simp only [hv, Bool.false_eq_true, ↓reduceIte, pure_eq_ok, Except.ok.injEq] at hr
    exact hr ▸ h
  simp only [hv, ↓reduceIte, bind_eq_ok, kaddr_pteAddr_eq_ok, pa2page_eq_ok, ppn_pteAddr,
    pageDecref_cases, pure_eq_ok, Except.ok.injEq] at hr
  obtain ⟨t, ⟨-, rfl⟩, s1, hloop, pp, ⟨-, rfl⟩, s2, ⟨-, rfl⟩, rfl⟩ := hr
  obtain ⟨ha1, h1, hd1⟩ := h.envFreePages ha hK hD hd hR hasid hi hloop
  obtain ⟨s1', hloop', hcleared⟩ := ha.envFreePages hd hi hv asid
  obtain rfl : s1 = s1' := by simpa [hloop] using hloop'
  have hfr : s1.mem d i = s.mem d i := congrFun hd1 i
  have hfree := h1.freeTable ha1 hK hD hd hR hasid hi (by rw [hfr, hv]) fun j hj => by
    rw [hfr]
    exact hcleared.cleared j hj
  rwa [hfr] at hfree

/-- **`env_free`**: the identifier is given back; what the TLB still holds for it is in the window
of every page directory. -/
lemma Coherent.envFreeVm (hge : M.bootPages ≤ d)
    (hR' : ∀ x d', R' x d' ↔ R x d' ∧ d' ≠ d) (hr : envFreeVm M s d asid = .ok s') :
    Coherent s' base R' := by
  obtain ⟨s1, hloop, hdl, h1⟩ := foldlM_range_returns (f := MosVolca.envFreeTable M d asid)
    (P := fun i s1 => DirLoop M s D K H d i s1 ∧ Coherent s1 base R) (n := pdx utop) (b := s)
    (fun i hi s1 ⟨hl, h1⟩ => by
      obtain ⟨s2, hrun, hl2⟩ := hl.round hd hi asid
      exact ⟨s2, hrun, hl2, h1.envFreeTable hl.accounting hK hD hd hR hasid hi hrun⟩)
    ⟨⟨ha, fun l hl => absurd hl (Nat.not_lt_zero l), fun _ _ => rfl, fun _ _ => rfl⟩, h⟩
  unfold MosVolca.envFreeVm at hr
  simp only [hloop, ok_bind, bind_eq_ok, pageDecref_cases, pure_eq_ok, Except.ok.injEq] at hr
  obtain ⟨pp, -, s2, ⟨-, rfl⟩, rfl⟩ := hr
  obtain ⟨hwin, hptx⟩ := windowAddr_fields (i := pdx uvpt) (by decide)
  have hlt := ha.dir_bits hd
  have hmono : ∀ d', (∃ x, R' x d') → ∃ x, R x d' := fun d' ⟨x, hx⟩ => ⟨x, ((hR' x d').mp hx).1⟩
  have hdirs : UserDirs (tlbInvalidate (decRef s1 pp) asid
      (uvpt + (BitVec.ofNat 32 (pdx uvpt) <<< 12))) base fun d' => ∃ x, R' x d' :=
    ⟨fun d' hd' => h1.template d' (hmono d' hd'), fun d' hd' => h1.self d' (hmono d' hd'),
      fun d' hd' => h1.above d' (hmono d' hd'), h1.templateLocal,
      fun d' hd' => h1.tableLocal d' (hmono d' hd'),
      fun d' hd' => h1.pageLocal d' (hmono d' hd')⟩
  refine ⟨hdirs, fun x va w ht => ?_⟩
  obtain ⟨ht1, hflush⟩ := (tlb_tlbInvalidate hasid).mp ht
  have hheld := h1.held x va w ht1
  refine ⟨hheld.visible, hheld.notGlobal, fun d' hx => hheld.owned d' ((hR' x d').mp hx).1,
    fun hx => ?_⟩
  by_cases hown : R x d
  swap
  · refine hheld.idle fun d' hd' => hx d' ((hR' x d').mpr ⟨hd', ?_⟩)
    rintro rfl
    exact hown hd'
  -- the identifier that is given back
  have htrans := hheld.owned d hown
  rcases hheld.visible with hi | hi
  · have hv := (translate_eq_some_iff.mp htrans).1
    rw [hdl.cleared _ hi] at hv
    exact absurd hv Bool.false_ne_true
  obtain ⟨hw, hv⟩ := (h1.toUserDirs.window ⟨x, hown⟩ hlt hi).mp htrans
  have hlow : pdx utop ≤ ptx va := by
    refine Nat.not_lt.mp fun hlow => ?_
    rw [← hw, hdl.cleared _ hlow] at hv
    exact absurd hv Bool.false_ne_true
  have hne : ptx va ≠ pdx uvpt := fun he => hflush
    ⟨(vpn_eq_vpn_iff _ _).mpr ⟨hi.trans hwin.symm, he.trans hptx.symm⟩, Or.inl (hR x hown)⟩
  have hup : ¬ pdx uvpt < ptx va := fun hup => by
    rw [← hw, h1.above d ⟨x, hown⟩ _ hup (ptx_lt va), pteValid_zero] at hv
    exact absurd hv Bool.false_ne_true
  have hlt' : ptx va < pdx uvpt := by omega
  exact ⟨hi, hlow, hlt', (h1.template d ⟨x, hown⟩ _ hlow hlt').symm.trans hw, hv⟩

end Free

/-! ## The TLB itself -/

/-- The TLB loses entries. -/
lemma Coherent.fewer (h : Coherent s base R) (hmem : s'.mem = s.mem)
    (hfew : ∀ a va w, s'.tlb a (vpn va) = some w → s.tlb a (vpn va) = some w) :
    Coherent s' base R := by
  have htr : ∀ d va, translate s' d va = translate s d va := fun d va => by
    unfold translate
    rw [hmem]
  refine h.change ?_ (fun i => by rw [hmem]) hfew fun a va w d _ _ _ ht => by rw [htr, ht]
  exact h.toUserDirs.change (fun i => by rw [hmem]) (fun d _ i _ _ => by rw [hmem])
    (fun d _ i _ => Or.inl (by rw [hmem])) fun d _ va w _ ht => Or.inl (by rw [← htr, ht])

/-- **`tlbwr` of a translation keeps coherence.** -/
lemma Coherent.tlbWrite (h : Coherent s base R) (hown : R asid.toNat d)
    (huniq : ∀ d', R asid.toNat d' → d' = d) (hlt : d < 2 ^ 20) (hvis : UserVisible va)
    (ht : translate s d va = some w) : Coherent (s.tlbWrite asid va w) base R := by
  have htr : ∀ d va', translate (s.tlbWrite asid va w) d va' = translate s d va' := fun _ _ => rfl
  refine ⟨⟨h.template, h.self, h.above, h.templateLocal, h.tableLocal, h.pageLocal⟩,
    fun a va' w' ht' => ?_⟩
  by_cases hc : a = asid.toNat ∧ vpn va' = vpn va
  · obtain ⟨rfl, hv⟩ := hc
    obtain rfl : w = w' := by
      simpa [PhysMem.tlbWrite, hv] using ht'
    obtain ⟨hp, hx⟩ := (vpn_eq_vpn_iff va' va).mp hv
    refine ⟨?_, h.toUserDirs.notGlobal ⟨_, hown⟩ hlt hvis ht, fun d' hd' => ?_, fun hno => ?_⟩
    · unfold UserVisible
      rw [hp]
      exact hvis
    · rw [huniq d' hd', htr, translate_congr_vpn hv, ht]
    · exact absurd hown (hno d)
  · have hold : s.tlb a (vpn va') = some w' := by
      rw [← ht']
      by_cases ha : a = asid.toNat
      · subst ha
        have hne : vpn va' ≠ vpn va := fun he => hc ⟨rfl, he⟩
        simp [PhysMem.tlbWrite, Function.update_of_ne hne]
      · simp [PhysMem.tlbWrite, Function.update_of_ne ha]
    have hheld := h.held a va' w' hold
    exact ⟨hheld.visible, hheld.notGlobal, hheld.owned, hheld.idle⟩

end MosVolca
