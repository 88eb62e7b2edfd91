import Mathlib.Algebra.BigOperators.Group.Finset.Piecewise
import Mathlib.Logic.Relation
import MosVolca.Kern.PageOps

/-!
# Runs of the page allocator

The physical pages from `page_init` on, under any sequence of `page_alloc`, `page_insert`,
`page_remove` and `page_decref` over any page directories. In every state reached, the counts, the
free list and the page tables agree.

## Main definitions

* `MosVolca.PageSystem` — the memory, the page directories in use and the pages held by callers
  that just allocated them.
* `MosVolca.PageStep` — the calls that the kernel makes.
* `MosVolca.BoundedStep` — the calls after which no page has 2^16 references.

## Main results

* `MosVolca.accounting_pageInit` — `page_init` establishes the page-accounting invariant.
* `MosVolca.PageStep.accounting` — a call keeps it.
* `MosVolca.page_accounting` — what it says of every reachable state.
-/

namespace MosVolca

open TwoLevel

variable {M : Machine} {mem : Store Word} {s pm : PhysMem} {D K H : Finset ℕ} {pp : ℕ}

/-! ## `page_init` -/

/-- The second loop of `page_init` puts its pages on the free list. -/
lemma foldl_pageInitFree (l : List ℕ) (s : PhysMem) :
    (l.foldl pageInitFree s).mem = s.mem ∧
      (l.foldl pageInitFree s).pageFreeList = l.reverse ++ s.pageFreeList ∧
      (∀ p, (l.foldl pageInitFree s).ppRef p = if p ∈ l then 0 else s.ppRef p) ∧
      (l.foldl pageInitFree s).tlb = s.tlb := by
  induction l generalizing s with
  | nil => simp
  | cons i l ih =>
    obtain ⟨hmem, hfree, href, htlb⟩ := ih (pageInitFree s i)
    rw [List.foldl_cons]
    refine ⟨hmem, ?_, fun p => ?_, htlb⟩
    · rw [hfree]
      simp [pageInitFree]
    · rw [href p]
      by_cases hp : p = i
      · simp [pageInitFree, hp]
      · simp [pageInitFree, hp]

/-- The state after `page_init`. -/
lemma pageInit_cases (h : pageInit M mem = .ok pm) :
    pm.mem = mem ∧
      pm.pageFreeList = (List.range' M.bootPages (M.npage - M.bootPages)).reverse ∧
      (∀ p, M.Tracked p → pm.ppRef p = 0) ∧ pm.tlb = fun _ _ => none := by
  unfold pageInit at h
  split_ifs at h with hlow
  simp only [pure_eq_ok, Except.ok.injEq] at h
  subst h
  obtain ⟨hmem, hfree, href, htlb⟩ := foldl_pageInitFree
    (List.range' M.bootPages (M.npage - M.bootPages))
    { mem := mem, ppRef := fun i => if i < M.bootPages then 1 else 0, pageFreeList := [],
      tlb := fun _ _ => none }
  refine ⟨hmem, by simpa using hfree, fun p hp => ?_, htlb⟩
  rw [href p, if_pos]
  rw [List.mem_range'_1]
  obtain ⟨h1, h2⟩ := hp
  omega

/-- The references when every user entry of every directory is invalid. -/
lemma pageRefs_of_empty (hempty : ∀ d ∈ D, ∀ i < pdx utop, pteValid (s.mem d i) = false) (p : ℕ) :
    pageRefs s D p = if p ∈ D then 1 else 0 := by
  have h : ∀ d ∈ D, (tableShape (pdx utop)).dirRefs s.mem p d = if d = p then 1 else 0 :=
    fun d hd => Shape.dirRefs_of_empty (T := tableShape (pdx utop)) (hempty d hd) p
  unfold pageRefs Shape.refCount
  rw [Finset.sum_congr rfl h, Finset.sum_ite_eq']

/-- **`page_init` establishes the invariant**, for page directories among the pages below
`freemem` whose user entries are invalid. -/
theorem accounting_pageInit (h : pageInit M mem = .ok pm)
    (hD : ∀ d ∈ D, d < M.bootPages ∧ d < M.npage)
    (hempty : ∀ d ∈ D, ∀ i < pdx utop, pteValid (mem d i) = false) :
    PageAccounting M pm D ∅ ∅ := by
  obtain ⟨hmem, hfree, href, -⟩ := pageInit_cases h
  have hempty' : ∀ d ∈ D, ∀ i < pdx utop, pteValid (pm.mem d i) = false := by rwa [hmem]
  have hc : ∀ p, (tableShape (pdx utop)).refCount pm.mem D p = if p ∈ D then 1 else 0 :=
    pageRefs_of_empty hempty'
  have htracked : ∀ p, M.Tracked p → (tableShape (pdx utop)).refCount pm.mem D p = 0 := by
    intro p hp
    rw [hc, if_neg fun hpD => ?_]
    have := (hD p hpD).1
    have := hp.1
    omega
  refine ⟨⟨⟨?_, ?_, ?_, ?_, ?_, ?_, by simp, by simp⟩, ?_⟩, ?_⟩
  · rintro p (hp | ⟨d, hd, i, hi, hv, -⟩)
    · rw [hc, if_pos hp]
    · rw [tableShape_valid, hempty' d hd i hi] at hv
      exact absurd hv Bool.false_ne_true
  · intro p hp
    rw [hc] at hp
    split_ifs at hp with hpD
    · exact (hD p hpD).2
    · omega
  · intro d hd i hi hv
    rw [hempty' d hd i hi] at hv
    exact absurd hv Bool.false_ne_true
  · intro p hp _
    rw [href p hp, htracked p hp]
    rfl
  · rw [hfree, List.nodup_reverse]
    exact List.nodup_range'
  · intro p
    rw [hfree, List.mem_reverse, List.mem_range'_1]
    constructor
    · intro hp
      have ht : M.Tracked p := ⟨hp.1, by omega⟩
      exact ⟨ht, by simp, by simp, htracked p ht⟩
    · rintro ⟨⟨h1, h2⟩, -⟩
      omega
  · rintro p ⟨d, hd, i, hi, hv, -⟩
    rw [tableShape_valid, hempty' d hd i hi] at hv
    exact absurd hv Bool.false_ne_true
  · intro p hp
    rw [htracked p hp]
    decide

/-! ## Calls -/

/-- The state of a run. -/
structure PageSystem where
  pm : PhysMem
  /-- The page directories in use. -/
  dirs : Finset ℕ
  /-- The pages that a caller of `page_alloc` holds and has not yet inserted. -/
  held : Finset ℕ

/-- The page `pp` is mapped at some user address. -/
def PageSystem.Mapped (M : Machine) (x : PageSystem) (pp : ℕ) : Prop :=
  ∃ d ∈ x.dirs, ∃ va, va < utop ∧ ∃ pte, pageLookup M x.pm d va = .ok (some (pp, pte))

/-- The calls that the kernel makes to `pmap.c`, each with the state it returns in. -/
inductive PageStep (M : Machine) : PageSystem → PageSystem → Prop
  /-- `page_alloc` returns a page, which the caller holds. -/
  | alloc {x pp pm} (hr : pageAlloc M x.pm = .ok (.ok pp, pm)) :
      PageStep M x ⟨pm, x.dirs, insert pp x.held⟩
  /-- `page_alloc` fails. -/
  | allocFail {x r pm} (hr : pageAlloc M x.pm = .ok (.error r, pm)) : PageStep M x ⟨pm, x.dirs, x.held⟩
  /-- `env_setup_vm`: a page just allocated becomes a page directory; its entries from `PDX(UTOP)`
  on are written with anything. -/
  | setupDir {x pp pm mem'} (hr : pageAlloc M x.pm = .ok (.ok pp, pm))
      (hother : ∀ p, p ≠ pp → mem' p = pm.mem p) (huser : ∀ i < pdx utop, mem' pp i = pm.mem pp i) :
      PageStep M x ⟨{ pm.incRef pp with mem := mem' }, insert pp x.dirs, x.held⟩
  /-- `page_insert`, of a page just allocated or mapped somewhere. -/
  | insert {x d pp asid va perm r pm} (hd : d ∈ x.dirs) (hva : va < utop) (hperm : perm < 4096#32)
      (hpp : pp ∈ x.held ∨ x.Mapped M pp) (hr : pageInsert M x.pm d asid pp va perm = .ok (r, pm)) :
      PageStep M x ⟨pm, x.dirs, if r = 0 then x.held.erase pp else x.held⟩
  /-- `page_remove`. -/
  | remove {x d asid va pm} (hd : d ∈ x.dirs) (hva : va < utop)
      (hr : pageRemove M x.pm d asid va = .ok pm) : PageStep M x ⟨pm, x.dirs, x.held⟩
  /-- `page_decref` of the page whose entry the caller has just erased. -/
  | decrefPage {x d va pp pte pm} (hd : d ∈ x.dirs) (hva : va < utop)
      (hl : pageLookup M x.pm d va = .ok (some (pp, pte)))
      (hr : pageDecref (x.pm.setWord pte.page pte.slot 0#32) pp = .ok pm) :
      PageStep M x ⟨pm, x.dirs, x.held⟩
  /-- `page_decref` of an empty page table whose directory entry the caller has just erased, as
  `env_free` does. -/
  | decrefTable {x d i pm} (hd : d ∈ x.dirs) (hi : i < pdx utop)
      (hv : pteValid (x.pm.mem d i) = true)
      (hempty : ∀ j < 1024, pteValid (x.pm.mem (ppn (x.pm.mem d i)) j) = false)
      (hr : pageDecref (x.pm.setWord d i 0#32) (ppn (x.pm.mem d i)) = .ok pm) :
      PageStep M x ⟨pm, x.dirs, x.held⟩
  /-- `page_decref` of a page directory that the environment has just given up, as `env_free`
  does; the directory came from `page_alloc`. -/
  | decrefDir {x d pm} (hd : d ∈ x.dirs) (hdt : M.Tracked d)
      (hempty : ∀ i < pdx utop, pteValid (x.pm.mem d i) = false)
      (hr : pageDecref x.pm d = .ok pm) : PageStep M x ⟨pm, x.dirs.erase d, x.held⟩

variable {x y : PageSystem}

/-- A call after which no page has 2^16 references. -/
def BoundedStep (M : Machine) (x y : PageSystem) : Prop :=
  PageStep M x y ∧ ∀ p, M.Tracked p → pageRefs y.pm y.dirs p < 2 ^ 16

/-- A mapped page has a translation, and its page is tracked. -/
lemma PageSystem.Mapped.leaf (hm : x.Mapped M pp) (h : Accounting M (pdx utop) x.pm x.dirs K H) :
    (tableShape (pdx utop)).Leaf x.pm.mem x.dirs pp := by
  obtain ⟨d, hd, va, hva, pte, hl⟩ := hm
  have hi := pdx_lt_of_lt_utop hva
  rw [h.pageLookup_eq hd hi] at hl
  simp only [Except.ok.injEq, Option.map_eq_some_iff, Prod.mk.injEq] at hl
  obtain ⟨w, ht, rfl, -⟩ := hl
  exact leaf_of_translate hd hi ht

/-- **A call keeps the invariant**, while no page has 2^16 references. -/
theorem PageStep.accounting (hs : PageStep M x y) (h : PageAccounting M x.pm x.dirs K x.held)
    (hb : ∀ p, M.Tracked p → pageRefs y.pm y.dirs p < 2 ^ 16) :
    PageAccounting M y.pm y.dirs K y.held := by
  suffices hu : UserAccounting M y.pm y.dirs K y.held from ⟨hu, hb⟩
  have hle : ∀ {d va}, d ∈ x.dirs → va < utop → ∀ w, translate x.pm d va = some w →
      pageRefs x.pm x.dirs (ppn w) ≤ 2 ^ 16 := fun hd hva w hw =>
    (h.bounded _ (h.tracked_of_translate hd (pdx_lt_of_lt_utop hva) hw)).le
  cases hs with
  | alloc hr =>
    rcases pageAlloc_cases h.free_lt hr with ⟨-, ho, -⟩ | ⟨q, rest, hf, ho, rfl⟩
    · simp at ho
    · rw [Except.ok.injEq] at ho
      subst ho
      exact h.takeFree hf
  | allocFail hr =>
    rcases pageAlloc_cases h.free_lt hr with ⟨-, -, rfl⟩ | ⟨q, rest, -, ho, -⟩
    · exact h.toUserAccounting
    · simp at ho
  | @setupDir q pm mem' hr hother huser =>
    rcases pageAlloc_cases h.free_lt hr with ⟨-, ho, -⟩ | ⟨q', rest, hf, ho, rfl⟩
    · simp at ho
    · obtain rfl : q = q' := by simpa using ho
      have hq := h.head_free hf
      have hzero : ∀ i, (x.pm.takeFree q rest).mem q i = 0#32 := fun i => by simp
      have h1 := (h.takeFree hf).addDir (Finset.mem_insert_self q _)
        fun i _ => by rw [hzero, pteValid_zero]
      rw [Finset.erase_insert hq.2.2.1] at h1
      refine h1.congrMem (fun d hd i hi => ?_) fun d hd i hi hv j _ => ?_
      · by_cases he : d = q
        · rw [he]
          exact huser i hi
        · rw [hother d he]
          rfl
      · rw [hother _ fun he => ?_]
        · rfl
        · exact h1.owned.table_not_mem (T := tableShape (pdx utop)) hd hi hv
            (Finset.mem_insert.mpr (Or.inl he))
  | @insert d q asid va perm r pm hd hva hperm hpp hr =>
    have hi := pdx_lt_of_lt_utop hva
    have hins : Insertable M (pdx utop) x.pm x.dirs K q := hpp.elim h.insertable_of_held
      fun hm => h.insertable_of_leaf (hm.leaf h.toAccounting)
    have hge : M.bootPages ≤ q := hpp.elim (fun hq => (h.held q hq).1.1)
      fun hm => h.leaf_ge q (hm.leaf h.toAccounting)
    have hfr : ppn (mkPte q perm) = q := ppn_mkPte_of_lt (hins.lt.trans M.npage_lt) hperm
    rcases h.pageInsert_returns asid q perm hd hi fun w hw _ =>
      h.ppRef_ne_zero hd hi hw (h.bounded _ (h.tracked_of_translate hd hi hw)) with
      ⟨-, -, hr'⟩ | ⟨-, s', hr'⟩
    · rw [hr', Except.ok.injEq, Prod.mk.injEq] at hr
      obtain ⟨rfl, rfl⟩ := hr
      exact h.toUserAccounting.tlbInvalidate asid va
    · have hr0 := hr
      rw [hr', Except.ok.injEq, Prod.mk.injEq] at hr0
      obtain ⟨rfl, rfl⟩ := hr0
      exact (h.afterInsert hd hi hins hge hfr (fun w hw _ => hle hd hva w hw) hr).1
  | @remove d asid va pm hd hva hr =>
    exact (h.afterRemove hd (pdx_lt_of_lt_utop hva) (hle hd hva) hr).1
  | @decrefPage d va q pte pm hd hva hl hr =>
    have hi := pdx_lt_of_lt_utop hva
    rw [h.pageLookup_eq hd hi] at hl
    simp only [Except.ok.injEq, Option.map_eq_some_iff, Prod.mk.injEq] at hl
    obtain ⟨w, hw, rfl, rfl⟩ := hl
    obtain ⟨h0, rfl⟩ := pageDecref_cases.mp hr
    exact h.toUserAccounting.unmapPage hd hi hw h0 (hle hd hva w hw)
  | @decrefTable d i pm hd hi hv hempty hr =>
    obtain ⟨-, rfl⟩ := pageDecref_cases.mp hr
    exact h.freeTable hd hi hv hempty
  | @decrefDir d pm hd hdt hempty hr =>
    obtain ⟨-, rfl⟩ := pageDecref_cases.mp hr
    exact h.dropDir hd hdt.1 hempty

/-- Runs keep the invariant. -/
theorem accounting_run (h : PageAccounting M x.pm x.dirs K x.held)
    (hrun : Relation.ReflTransGen (BoundedStep M) x y) :
    PageAccounting M y.pm y.dirs K y.held := by
  induction hrun with
  | refl => exact h
  | tail _ hs ih => exact hs.1.accounting ih hs.2

/-- **Page accounting.** After `page_init` and any calls, while no page has 2^16 references: the
count of a page is the number of user entries that point to it, plus one if it is a page
directory; a page is on the free list once if its count is 0 and nobody holds it, and not at all
otherwise; and no page directory and no page table is mapped. -/
theorem page_accounting (hinit : pageInit M mem = .ok pm)
    (hD : ∀ d ∈ D, d < M.bootPages ∧ d < M.npage)
    (hempty : ∀ d ∈ D, ∀ i < pdx utop, pteValid (mem d i) = false)
    (hrun : Relation.ReflTransGen (BoundedStep M) ⟨pm, D, ∅⟩ x) :
    (∀ p, M.Tracked p → (x.pm.ppRef p).toNat = pageRefs x.pm x.dirs p) ∧
      (∀ p, M.Tracked p → x.pm.pageFreeList.count p =
        if x.pm.ppRef p = 0 ∧ p ∉ x.held then 1 else 0) ∧
      ∀ p, (tableShape (pdx utop)).Node x.pm.mem x.dirs p →
        ¬ (tableShape (pdx utop)).Leaf x.pm.mem x.dirs p := by
  have h : PageAccounting M x.pm x.dirs ∅ x.held :=
    accounting_run (accounting_pageInit hinit hD hempty) hrun
  have href : ∀ p, M.Tracked p → (x.pm.ppRef p).toNat = pageRefs x.pm x.dirs p :=
    fun p hp => h.ppRef_toNat hp (Finset.notMem_empty p) (h.bounded p hp)
  refine ⟨href, fun p hp => ?_, fun p hn hl => h.owned.not_node_of_leaf hl hn⟩
  have hzero : x.pm.ppRef p = 0 ↔ pageRefs x.pm x.dirs p = 0 := by
    rw [← href p hp]
    exact BitVec.toNat_inj.symm
  have hmem : p ∈ x.pm.pageFreeList ↔ x.pm.ppRef p = 0 ∧ p ∉ x.held := by
    rw [h.free_mem p, hzero]
    change _ ↔ (tableShape (pdx utop)).refCount x.pm.mem x.dirs p = 0 ∧ p ∉ x.held
    have hne := Finset.notMem_empty p
    tauto
  split_ifs with hfree
  · exact List.count_eq_one_of_mem h.free_nodup (hmem.mpr hfree)
  · exact List.count_eq_zero_of_not_mem (mt hmem.mp hfree)

/-- A machine with eight pages, of which two are below `freemem`. -/
def smallMachine : Machine := ⟨0x8000#32, 0x80002000#32, 0x1000#32, 0#32⟩

/-- `page_init` of the small machine, on cleared memory. -/
def smallMem : PhysMem where
  mem := fun _ _ => 0#32
  ppRef := ((List.range' 2 6).foldl pageInitFree
    ⟨fun _ _ => 0#32, fun i => if i < 2 then 1 else 0, [], fun _ _ => none⟩).ppRef
  pageFreeList := [7, 6, 5, 4, 3, 2]
  tlb := fun _ _ => none

lemma smallMem_eq : pageInit smallMachine (fun _ _ => 0#32) = .ok smallMem := rfl

lemma smallMem_accounting : PageAccounting smallMachine smallMem {0} ∅ ∅ :=
  accounting_pageInit smallMem_eq (by decide) fun _ _ _ _ => pteValid_zero

/-- A page just allocated is mapped, which takes another page for the page table. -/
theorem page_accounting_insert : ∃ pm1 pm2,
    pageAlloc smallMachine smallMem = .ok (.ok 7, pm1) ∧
      pageInsert smallMachine pm1 0 0 7 0x400000#32 pteD = .ok (0, pm2) ∧
      (∀ p, smallMachine.Tracked p → (pm2.ppRef p).toNat = pageRefs pm2 {0} p) ∧
      (∀ p, smallMachine.Tracked p → pm2.pageFreeList.count p =
        if pm2.ppRef p = 0 ∧ p ∉ (∅ : Finset ℕ) then 1 else 0) ∧
      ∀ p, (tableShape (pdx utop)).Node pm2.mem {0} p →
        ¬ (tableShape (pdx utop)).Leaf pm2.mem {0} p := by
  have halloc : pageAlloc smallMachine smallMem =
      .ok (.ok 7, smallMem.takeFree 7 [6, 5, 4, 3, 2]) := rfl
  have hbound : ∀ p, smallMachine.Tracked p →
      pageRefs (smallMem.takeFree 7 [6, 5, 4, 3, 2]) {0} p < 2 ^ 16 := fun p _ => by
    rw [pageRefs_of_empty fun d _ i _ => ?_]
    · split_ifs <;> decide
    · simp [smallMem, fill]
  have hstep : BoundedStep smallMachine ⟨smallMem, {0}, ∅⟩
      ⟨smallMem.takeFree 7 [6, 5, 4, 3, 2], {0}, {7}⟩ := ⟨.alloc halloc, hbound⟩
  have h1 := hstep.1.accounting smallMem_accounting hstep.2
  have hd : (0 : ℕ) ∈ ({0} : Finset ℕ) := Finset.mem_singleton_self 0
  have hi : pdx 0x400000#32 < pdx utop := by decide
  have hnone : translate (smallMem.takeFree 7 [6, 5, 4, 3, 2]) 0 0x400000#32 = none := rfl
  obtain ⟨-, hf, -⟩ | ⟨-, pm2, hins⟩ := h1.pageInsert_returns 0 7 pteD hd hi fun w hw => by
    rw [hnone] at hw
    simp at hw
  · simp at hf
  · refine ⟨_, pm2, halloc, hins, ?_⟩
    obtain ⟨-, hself, hother⟩ := h1.afterInsert hd hi (h1.insertable_of_held (by simp)) (by decide)
      (ppn_mkPte_of_lt (by decide) (by decide)) (fun w hw => by rw [hnone] at hw; simp at hw) hins
    have hrun : BoundedStep smallMachine ⟨smallMem.takeFree 7 [6, 5, 4, 3, 2], {0}, {7}⟩
        ⟨pm2, {0}, ∅⟩ := by
      refine ⟨.insert hd (by decide) (by decide) (Or.inl (by simp)) hins, fun p hp => ?_⟩
      have hb : pageRefs (smallMem.takeFree 7 [6, 5, 4, 3, 2]) {0} p < 2 ^ 16 := h1.bounded p hp
      by_cases hp7 : p = 7
      · have h0 : pageRefs (smallMem.takeFree 7 [6, 5, 4, 3, 2]) {0} 7 = 0 :=
          (h1.held 7 (by simp)).2.2
        rw [hp7]
        refine hself.trans_lt ?_
        rw [h0]
        split_ifs <;> decide
      · exact lt_of_le_of_lt (hother p hp7) (max_lt hb (by decide))
    exact page_accounting smallMem_eq (by decide) (fun _ _ _ _ => pteValid_zero)
      (.tail (.single hstep) hrun)

end MosVolca
