import MosVolca.Kern.PageOps

/-!
# TLB refill

`passive_alloc` and `_do_tlb_refill` of `kern/tlbex.c`, and `do_tlb_refill` of `kern/tlb_asm.S`,
which writes the entry to the TLB. The loop of `_do_tlb_refill` gets a number of rounds; where it
ends, the result does not depend on that number (`MosVolca.RefillsTo`).

## Main definitions

* `MosVolca.passiveAlloc`, `MosVolca.doTlbRefill`, `MosVolca.PhysMem.tlbWrite` — the functions.
* `MosVolca.RefillsTo` — what `_do_tlb_refill` ends with.
* `MosVolca.Excluded` — the zones in which `passive_alloc` panics.

## Main results

* `MosVolca.doTlbRefill_mapped`, `MosVolca.doTlbRefill_panic`, `MosVolca.doTlbRefill_alloc` — the
  three ways in which the loop ends.
-/

namespace MosVolca

open TwoLevel

variable (M : Machine)

/-- `passive_alloc`. -/
def passiveAlloc (s : PhysMem) (va : Word) (pgdir : ℕ) (asid : Word) : Kernel PhysMem :=
  if va < utemp then throw (.panic "address too low")
  else if va ≥ ustacktop ∧ va < ustacktop + 4096 then throw (.panic "invalid memory")
  else if va ≥ uenvs ∧ va < upages then throw (.panic "envs zone")
  else if va ≥ upages ∧ va < uvpt then throw (.panic "pages zone")
  else if va ≥ ulim then throw (.panic "kernel address")
  else do
    match ← pageAlloc M s with
    | (.error _, _) => throw (.panic "'page_alloc(&p)' returned")
    | (.ok p, s) =>
      let (r, s) ← pageInsert M s pgdir asid p (pteAddr va) pteD
      if r ≠ 0 then
        throw (.panic "'page_insert(pgdir, asid, p, PTE_ADDR(va), PTE_D)' returned")
      else pure s

/-- `_do_tlb_refill`, with at most `fuel` rounds of its loop: the entry `*pte`, or `none` if the
rounds do not suffice. -/
def doTlbRefill : ℕ → PhysMem → ℕ → Word → Word → Kernel (Option (Word × PhysMem))
  | 0, _, _, _, _ => pure none
  | fuel + 1, s, pgdir, va, asid => do
    match ← pageLookup M s pgdir va with
    | some (_, pte) => pure (some (s.mem pte.page pte.slot, s))
    | none =>
      let s ← passiveAlloc M s va pgdir asid
      doTlbRefill fuel s pgdir va asid

/-- `tlbwr` with the page of `va` and the current identifier in `EntryHi`. -/
def PhysMem.tlbWrite (s : PhysMem) (asid va w : Word) : PhysMem :=
  { s with
    tlb := Function.update s.tlb asid.toNat
      (Function.update (s.tlb asid.toNat) (vpn va) (some w)) }

/-- With enough rounds, `_do_tlb_refill` ends with the result `r`. -/
def RefillsTo (s : PhysMem) (pgdir : ℕ) (va asid : Word) (r : Kernel (Word × PhysMem)) : Prop :=
  ∃ m, ∀ fuel, m ≤ fuel → doTlbRefill M fuel s pgdir va asid = r.map some

/-- The zones in which `passive_alloc` panics. -/
def Excluded (va : Word) : Prop :=
  va < utemp ∨ (va ≥ ustacktop ∧ va < ustacktop + 4096) ∨ (va ≥ uenvs ∧ va < uvpt) ∨ va ≥ ulim

instance (va : Word) : Decidable (Excluded va) := inferInstanceAs (Decidable (_ ∨ _))

variable {M} {s s' s1 : PhysMem} {d pp : ℕ} {va asid w : Word} {r r' : Kernel (Word × PhysMem)}
  {halt : Halt} {pte : PtePtr}

/-- The loop ends in one way only. -/
lemma RefillsTo.unique (h : RefillsTo M s d va asid r) (h' : RefillsTo M s d va asid r') :
    r = r' := by
  obtain ⟨m, hm⟩ := h
  obtain ⟨m', hm'⟩ := h'
  have he := (hm (max m m') (le_max_left m m')).symm.trans (hm' _ (le_max_right m m'))
  rcases r with halt | x <;> rcases r' with halt' | y <;> simp_all [Except.map]

/-- If the page is mapped, the loop ends at once. -/
lemma doTlbRefill_mapped (asid : Word) (h : pageLookup M s d va = .ok (some (pp, pte))) {fuel : ℕ}
    (hf : 1 ≤ fuel) :
    doTlbRefill M fuel s d va asid = .ok (some (s.mem pte.page pte.slot, s)) := by
  obtain ⟨fuel, rfl⟩ := Nat.exists_eq_add_of_le' hf
  rw [doTlbRefill, h, ok_bind]
  rfl

/-- A panic ends the loop. -/
lemma doTlbRefill_panic (h : pageLookup M s d va = .error halt ∨
    pageLookup M s d va = .ok none ∧ passiveAlloc M s va d asid = .error halt) {fuel : ℕ}
    (hf : 1 ≤ fuel) : doTlbRefill M fuel s d va asid = .error halt := by
  obtain ⟨fuel, rfl⟩ := Nat.exists_eq_add_of_le' hf
  rcases h with h | ⟨h, h'⟩
  · rw [doTlbRefill, h, error_bind]
  · rw [doTlbRefill, h, ok_bind]
    simp only
    rw [h', error_bind]

/-- If the page is mapped after one round, the loop ends then. -/
lemma doTlbRefill_alloc (h : pageLookup M s d va = .ok none)
    (h' : passiveAlloc M s va d asid = .ok s1) (h1 : pageLookup M s1 d va = .ok (some (pp, pte)))
    {fuel : ℕ} (hf : 2 ≤ fuel) :
    doTlbRefill M fuel s d va asid = .ok (some (s1.mem pte.page pte.slot, s1)) := by
  obtain ⟨fuel, rfl⟩ := Nat.exists_eq_add_of_le' (show 1 ≤ fuel by omega)
  rw [doTlbRefill, h, ok_bind]
  simp only
  rw [h', ok_bind]
  exact doTlbRefill_mapped asid h1 (by omega)

lemma refillsTo_mapped (asid : Word) (h : pageLookup M s d va = .ok (some (pp, pte))) :
    RefillsTo M s d va asid (.ok (s.mem pte.page pte.slot, s)) :=
  ⟨1, fun _ hf => doTlbRefill_mapped asid h hf⟩

lemma refillsTo_panic (h : pageLookup M s d va = .error halt ∨
    pageLookup M s d va = .ok none ∧ passiveAlloc M s va d asid = .error halt) :
    RefillsTo M s d va asid (.error halt) :=
  ⟨1, fun _ hf => doTlbRefill_panic h hf⟩

lemma refillsTo_alloc (h : pageLookup M s d va = .ok none)
    (h' : passiveAlloc M s va d asid = .ok s1) (h1 : pageLookup M s1 d va = .ok (some (pp, pte))) :
    RefillsTo M s d va asid (.ok (s1.mem pte.page pte.slot, s1)) :=
  ⟨2, fun _ hf => doTlbRefill_alloc h h' h1 hf⟩

/-! ## `passive_alloc` -/

lemma guard_toNat : (ustacktop + 4096).toNat = 0x7f3ff000 := by decide

/-- The zones, as bounds on numbers. -/
lemma excluded_iff : Excluded va ↔ va.toNat < 0x3fe000 ∨
    (0x7f3fe000 ≤ va.toNat ∧ va.toNat < 0x7f3ff000) ∨
    (0x7f400000 ≤ va.toNat ∧ va.toNat < 0x7fc00000) ∨ 0x80000000 ≤ va.toNat := by
  simp only [Excluded, ge_iff_le, BitVec.le_def, BitVec.lt_def, utemp_toNat, ustacktop_toNat,
    guard_toNat, uenvs_toNat, uvpt_toNat, ulim_toNat]

/-- In an excluded zone `passive_alloc` panics. -/
lemma passiveAlloc_excluded (h : Excluded va) : ∃ halt, passiveAlloc M s va d asid = .error halt := by
  unfold passiveAlloc
  split_ifs with h1 h2 h3 h4 h5
  · exact ⟨_, rfl⟩
  · exact ⟨_, rfl⟩
  · exact ⟨_, rfl⟩
  · exact ⟨_, rfl⟩
  · exact ⟨_, rfl⟩
  · rw [excluded_iff] at h
    simp only [ge_iff_le, BitVec.le_def, BitVec.lt_def, utemp_toNat, ustacktop_toNat, guard_toNat,
      uenvs_toNat, upages_toNat, uvpt_toNat, ulim_toNat] at h1 h2 h3 h4 h5
    omega

/-- Elsewhere it maps a new page. -/
lemma passiveAlloc_eq (h : ¬ Excluded va) : passiveAlloc M s va d asid = (do
    match ← pageAlloc M s with
    | (.error _, _) => throw (.panic "'page_alloc(&p)' returned")
    | (.ok p, s) =>
      let (r, s) ← pageInsert M s d asid p (pteAddr va) pteD
      if r ≠ 0 then
        throw (.panic "'page_insert(pgdir, asid, p, PTE_ADDR(va), PTE_D)' returned")
      else pure s) := by
  rw [excluded_iff] at h
  unfold passiveAlloc
  simp only [ge_iff_le, BitVec.le_def, BitVec.lt_def, utemp_toNat, ustacktop_toNat, guard_toNat,
    uenvs_toNat, upages_toNat, uvpt_toNat, ulim_toNat]
  rw [if_neg (by omega), if_neg (by omega), if_neg (by omega), if_neg (by omega),
    if_neg (by omega)]

/-- Without a free page it panics. -/
lemma passiveAlloc_nil (hf : s.pageFreeList = []) :
    ∃ halt, passiveAlloc M s va d asid = .error halt := by
  by_cases h : Excluded va
  · exact passiveAlloc_excluded h
  · rw [passiveAlloc_eq h, pageAlloc_nil hf]
    exact ⟨_, rfl⟩

/-- With a free page, the result depends on `page_insert`. -/
lemma passiveAlloc_cons (h : ¬ Excluded va) {q : ℕ} {rest : List ℕ}
    (hf : s.pageFreeList = q :: rest) (hq : q < M.npage) : passiveAlloc M s va d asid = (do
      let (r, s) ← pageInsert M (s.takeFree q rest) d asid q (pteAddr va) pteD
      if r ≠ 0 then
        throw (.panic "'page_insert(pgdir, asid, p, PTE_ADDR(va), PTE_D)' returned")
      else pure s) := by
  rw [passiveAlloc_eq h, pageAlloc_cons hf hq]
  rfl

lemma vpn_pteAddr (va : Word) : vpn (pteAddr va) = vpn va := ppn_pteAddr va

lemma pdx_pteAddr (va : Word) : pdx (pteAddr va) = pdx va :=
  ((vpn_eq_vpn_iff _ _).mp (vpn_pteAddr va)).1

lemma ptx_pteAddr (va : Word) : ptx (pteAddr va) = ptx va :=
  ((vpn_eq_vpn_iff _ _).mp (vpn_pteAddr va)).2

end MosVolca
