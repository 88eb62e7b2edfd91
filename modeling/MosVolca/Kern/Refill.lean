import MosVolca.Kern.DemandPaging

/-!
# The refill loop ends

`_do_tlb_refill` looks the page up again after every `passive_alloc`. In an accounted address space
one `passive_alloc` suffices, for every address below `UTOP` and every list of free pages.

## Main definitions

* `MosVolca.AddsPage` — one page of zeros is mapped, with a page table if there was none.
* `MosVolca.GoodRefill` — the ways in which the loop may end.

## Main results

* `MosVolca.refill_ends` — it ends in one of these ways, after one `passive_alloc` at most.
-/

namespace MosVolca

open TwoLevel

/-- The page `q` of zeros is new at `va` in the page directory `d`, with a page table if there was
none, and no other translation changes, but for what the window shows of a new page table. -/
structure AddsPage (s s' : PhysMem) (D K : Finset ℕ) (d : ℕ) (va : Word) (q : ℕ) : Prop where
  mapped : translate s' d va = some (mkPte q pteD)
  zero : ∀ i, s'.mem q i = 0#32
  pages : s.pageFreeList = q :: s'.pageFreeList ∨ pteValid (s.mem d (pdx va)) = false ∧
    ∃ t, s.pageFreeList = q :: t :: s'.pageFreeList ∧ s'.mem d (pdx va) = mkPde t
  user : ∀ d' ∈ D, ∀ va', va' < utop → ¬ (d' = d ∧ vpn va' = vpn va) →
    translate s' d' va' = translate s d' va'
  above : ∀ d' ∈ D, BuiltDir s d' K → ∀ va', utop ≤ va' → pdx va' ≠ pdx uvpt →
    translate s' d' va' = translate s d' va'
  window : ∀ d' ∈ D, BuiltDir s d' K → ∀ va', pdx va' = pdx uvpt →
    ¬ (d' = d ∧ ptx va' = pdx va ∧ pteValid (s.mem d (pdx va)) = false) →
    translate s' d' va' = translate s d' va'

/-- The loop ends in a panic, or with a valid entry, the one that `page_lookup` finds; if the page
was mapped nothing changes, and otherwise one page is added. -/
def GoodRefill (M : Machine) (s : PhysMem) (D K : Finset ℕ) (d : ℕ) (va : Word) :
    Kernel (Word × PhysMem) → Prop
  | .error halt => ∃ msg, halt = .panic msg
  | .ok (w, s') => pteValid w = true ∧
    (∃ pp pte, pageLookup M s' d va = .ok (some (pp, pte)) ∧ s'.mem pte.page pte.slot = w) ∧
    (translate s d va ≠ none → s' = s) ∧
    (translate s d va = none → ∃ q, AddsPage s s' D K d va q)

variable {M : Machine} {s s' s1 : PhysMem} {D K H : Finset ℕ} {d q : ℕ} {rest : List ℕ}
  {va asid w : Word}

/-! ## Panics -/

/-- In an excluded zone and without a free page `passive_alloc` panics. -/
lemma passiveAlloc_panics (h : Excluded va ∨ s.pageFreeList = []) :
    ∃ msg, passiveAlloc M s va d asid = .error (.panic msg) := by
  by_cases hx : Excluded va
  · rw [excluded_iff] at hx
    unfold passiveAlloc
    simp only [ge_iff_le, BitVec.le_def, BitVec.lt_def, utemp_toNat, ustacktop_toNat, guard_toNat,
      uenvs_toNat, upages_toNat, uvpt_toNat, ulim_toNat]
    split_ifs
    · exact ⟨_, rfl⟩
    · exact ⟨_, rfl⟩
    · exact ⟨_, rfl⟩
    · exact ⟨_, rfl⟩
    · exact ⟨_, rfl⟩
    · omega
  · rw [passiveAlloc_eq hx, pageAlloc_nil (h.resolve_left hx)]
    exact ⟨_, rfl⟩

/-! ## The new page -/

section NewPage

variable (h : UserAccounting M s D K ∅) (hd : d ∈ D) (hva : va < utop)
  (hnone : translate s d va = none) (hf : s.pageFreeList = q :: rest)
  (hr : pageInsert M (s.takeFree q rest) d asid q (pteAddr va) pteD = .ok (0, s'))

include h hd hva hnone hf hr

/-- The free pages that are left. -/
lemma insert_page_free : s.pageFreeList = q :: s'.pageFreeList ∨
    pteValid (s.mem d (pdx va)) = false ∧
      ∃ t, s.pageFreeList = q :: t :: s'.pageFreeList ∧ s'.mem d (pdx va) = mkPde t := by
  have h1 := h.takeFree hf
  have hi : pdx (pteAddr va) < pdx utop := by
    rw [pdx_pteAddr]
    exact pdx_lt_of_lt_utop hva
  have hdir : (s.takeFree q rest).mem d (pdx (pteAddr va)) = s.mem d (pdx va) := by
    rw [pdx_pteAddr]
    exact h.takeFree_dir hf hd _
  have hnone' : translate (s.takeFree q rest) d (pteAddr va) = none := by
    rw [h.translate_takeFree hf hd hi, translate_congr_vpn (vpn_pteAddr va), hnone]
  rcases hv : pteValid (s.mem d (pdx va)) with _ | _
  · obtain ⟨t, rest', ht, hfree, hpde⟩ := h1.pageInsert_newTable hd (by rw [hdir, hv]) hr
    refine Or.inr ⟨rfl, t, ?_, ?_⟩
    · rw [hf, hfree]
      exact congrArg (q :: ·) ht
    · rwa [pdx_pteAddr] at hpde
  · have hfree := h1.pageInsert_pageFreeList hd hi (by rw [hdir, hv])
      (fun w hw => by rw [hnone'] at hw; simp at hw) hr
    refine Or.inl ?_
    rw [hf, hfree]
    rfl

/-- **What one `passive_alloc` adds.** -/
lemma insert_page_adds : AddsPage s s' D K d va q := by
  have h1 := h.takeFree hf
  have hi' := pdx_lt_of_lt_utop hva
  have hi : pdx (pteAddr va) < pdx utop := by rwa [pdx_pteAddr]
  have hq : q ∈ insert q (∅ : Finset ℕ) := Finset.mem_insert_self q ∅
  have hnode : ∀ p, p = q ∨ p ∈ K → s'.mem p = (s.takeFree q rest).mem p := by
    intro p hp
    have h0 : ¬ (tableShape (pdx utop)).Node (s.takeFree q rest).mem D p := by
      rcases hp with rfl | hp
      · exact Shape.not_node_of_refCount (h1.held p hq).2.2
      · exact Shape.not_node_of_refCount (h1.kept p hp)
    refine (h1.pageInsert_mem hd hi hr).2 p h0 fun hpf => ?_
    have hfree := (h1.free_mem p).mp hpf
    rcases hp with rfl | hp
    · exact hfree.2.2.1 hq
    · exact hfree.2.1 hp
  have hdir : ∀ d' ∈ D, ∀ i, ¬ (d' = d ∧ i = pdx va ∧ pteValid (s.mem d (pdx va)) = false) →
      s'.mem d' i = s.mem d' i := by
    intro d' hd' i hne
    rw [(h1.pageInsert_mem hd hi hr).1 d' hd' i fun hc => hne ?_]
    · exact h.takeFree_dir hf hd' i
    · obtain ⟨rfl, rfl, hv⟩ := hc
      have hrow := h.takeFree_dir hf hd (pdx va)
      rw [pdx_pteAddr, PhysMem.takeFree_mem, hrow] at hv
      exact ⟨rfl, pdx_pteAddr va, hv⟩
  have htr : ∀ d' ∈ D, ∀ va', pdx va' < pdx utop → translate s' d' va' =
      if d' = d ∧ vpn va' = vpn va then some (mkPte q pteD) else translate s d' va' := by
    intro d' hd' va' hlt
    rw [h1.translate_pageInsert hd hi hr hd' hlt, vpn_pteAddr, h.translate_takeFree hf hd' hlt]
  refine ⟨?_, fun i => ?_, insert_page_free h hd hva hnone hf hr, fun d' hd' va' hva' hne => ?_,
    fun d' hd' hb va' hva' hw => ?_, fun d' hd' hb va' hw hne => ?_⟩
  · rw [htr d hd va hi', if_pos ⟨rfl, rfl⟩]
  · rw [hnode q (Or.inl rfl), PhysMem.takeFree_mem, fill_same]
  · rw [htr d' hd' va' (pdx_lt_of_lt_utop hva'), if_neg hne]
  · -- the template tables are kept, and there is nothing above
    have hlo : pdx utop ≤ pdx va' := by
      rw [BitVec.le_def, utop_toNat] at hva'
      rw [pdx_utop, pdx_eq]
      omega
    have hslot := hdir d' hd' (pdx va') fun hc => by omega
    refine Shape.lookup_congr (T := tableShape 0) hslot fun hv => ?_
    rw [tableShape_valid] at hv
    rw [tableShape_frame]
    rcases Nat.lt_or_gt_of_ne hw with hlt | hgt
    · have hk := hb.template _ hlo hlt hv
      rw [hnode _ (Or.inr hk), PhysMem.takeFree_mem]
      exact fill_of_ne fun he => (h.head_free hf).2.1 (he ▸ hk)
    · rw [hb.above _ hgt (pdx_lt va'), pteValid_zero] at hv
      exact absurd hv Bool.false_ne_true
  · have hself := hdir d' hd' (pdx uvpt) fun hc => by
      have hlt := hi'
      rw [← hc.2.1, pdx_uvpt, pdx_utop] at hlt
      omega
    have hword := hdir d' hd' (ptx va') hne
    have hlt : d' < 2 ^ 20 := (h.dir_lt hd').trans M.npage_lt
    refine Option.ext fun w => ?_
    rw [translate_window (hself.trans hb.self) hlt hw, translate_window hb.self hlt hw, hword]

end NewPage

/-! ## The loop -/

/-- **The refill loop ends**, after one `passive_alloc` at most: in a panic, or with the valid entry
that `page_lookup` finds. If the page was mapped nothing has changed; otherwise one page of zeros
has been added, with a page table if there was none, and no other translation has changed. -/
theorem refill_ends (h : UserAccounting M s D K ∅) (hd : d ∈ D) (hva : va < utop) (asid : Word) :
    ∃ r, (∀ fuel, 2 ≤ fuel → doTlbRefill M fuel s d va asid = r.map some) ∧
      GoodRefill M s D K d va r := by
  have hi := pdx_lt_of_lt_utop hva
  have hl := h.pageLookup_eq hd hi
  by_cases hm : translate s d va = none
  swap
  · obtain ⟨w, hw⟩ := Option.ne_none_iff_exists'.mp hm
    obtain ⟨-, hword, hval⟩ := translate_eq_some_iff.mp hw
    rw [hw] at hl
    refine ⟨.ok (w, s), fun fuel hf => ?_, hval, ⟨_, _, hl, hword⟩, fun _ => rfl,
      fun h0 => absurd h0 hm⟩
    rw [doTlbRefill_mapped asid hl (by omega)]
    exact congrArg (fun w => Except.ok (some (w, s))) hword
  rw [hm] at hl
  have hpanic : (∃ msg, passiveAlloc M s va d asid = .error (.panic msg)) →
      ∃ r, (∀ fuel, 2 ≤ fuel → doTlbRefill M fuel s d va asid = r.map some) ∧
        GoodRefill M s D K d va r := by
    rintro ⟨msg, hp⟩
    exact ⟨.error (.panic msg), fun fuel hf => doTlbRefill_panic (Or.inr ⟨hl, hp⟩) (by omega),
      msg, rfl⟩
  by_cases hx : Excluded va ∨ s.pageFreeList = []
  · exact hpanic (passiveAlloc_panics hx)
  rcases hf : s.pageFreeList with _ | ⟨q, rest⟩
  · exact absurd (Or.inr hf) hx
  have halloc : passiveAlloc M s va d asid = _ :=
    passiveAlloc_cons (fun hc => hx (Or.inl hc)) hf (h.head_free hf).1.2
  rcases insert_page h hd asid hva hm hf with ⟨-, -, s1, hr⟩ | ⟨-, s1, hr, h1, -⟩
  · rw [hr, ok_bind] at halloc
    exact hpanic ⟨_, halloc⟩
  rw [hr, ok_bind] at halloc
  have hadds := insert_page_adds h hd hva hm hf hr
  obtain ⟨-, hword, hval⟩ := translate_eq_some_iff.mp hadds.mapped
  have hl1 := h1.pageLookup_eq hd hi
  rw [hadds.mapped] at hl1
  refine ⟨.ok (mkPte q pteD, s1), fun fuel hf => ?_, hval, ⟨_, _, hl1, hword⟩,
    fun h0 => absurd hm h0, fun _ => ⟨q, hadds⟩⟩
  rw [doTlbRefill_alloc hl halloc hl1 hf]
  exact congrArg (fun w => Except.ok (some (w, s1))) hword

set_option maxRecDepth 4000 in
/-- At `UTEXT` in the empty page directory of a small machine the loop ends with a new page. -/
theorem refill_ends_utext : ∃ w s' q,
    (∀ fuel, 2 ≤ fuel → doTlbRefill smallMachine fuel smallMem 0 utext 0 = .ok (some (w, s'))) ∧
      pteValid w = true ∧ AddsPage smallMem s' {0} ∅ 0 utext q := by
  obtain ⟨r, hr, hgood⟩ := refill_ends smallMem_accounting.toUserAccounting
    (Finset.mem_singleton_self 0) (by decide : utext < utop) 0
  have hok : ∃ x, doTlbRefill smallMachine 2 smallMem 0 utext 0 = .ok (some x) := ⟨_, rfl⟩
  obtain ⟨x, hx⟩ := hok
  cases r with
  | error halt =>
    rw [hr 2 le_rfl] at hx
    cases hx
  | ok y =>
    obtain ⟨hval, -, -, hnew⟩ := hgood
    obtain ⟨q, hadds⟩ := hnew rfl
    exact ⟨y.1, y.2, q, hr, hval, hadds⟩

end MosVolca
