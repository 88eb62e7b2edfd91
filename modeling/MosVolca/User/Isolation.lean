import MosVolca.User.Cow

/-!
# Copy-on-write isolation

After a `fork` in which every call succeeds, parent and child read the same bytes, and what one of
them stores is not seen by the other, except on pages mapped with `PTE_LIBRARY`. The stores have to
be to user addresses: a page table is mapped for writing in the window at `UVPT`, so that a program
can give itself `PTE_D` on a page that it shares with another one. The pages that `cow_entry`
replaces may have at most 2^16 references, because `pp_ref` is a `u_short`.

## Main definitions

* `MosVolca.Separated` — the invariant on the address spaces of parent and child.
* `MosVolca.Keeps` — what a step of the one leaves of the other.
* `MosVolca.HarmlessStore` — the stores that keep the invariant.

## Main results

* `MosVolca.cowEntry_spec` — `cow_entry`.
* `MosVolca.isolated_of_fork` — isolation along every sequence of harmless stores.
-/

namespace MosVolca

open TwoLevel

variable {M : Machine} {s s' s1 s2 : PhysMem} {D K H : Finset ℕ} {d q pp np : ℕ} {rest : List ℕ}
  {va va' asid perm w w' r : Word} {k k' k1 : Kern} {cow : Word} {c e x : EnvPtr} {P P' : Proc}
  {a : ByteStore}

/-! ## The invariant -/

/-- What one address space keeps to: no page is both `PTE_COW` and `PTE_LIBRARY`, and a page at
`UCOW` is neither and has room for references. -/
structure OwnSpace (s : PhysMem) (D : Finset ℕ) (d : ℕ) : Prop where
  exclusive : ∀ va, va < utop → ∀ w, translate s d va = some w →
    w &&& pteCow = 0 ∨ w &&& pteLibrary = 0
  atUcow : ∀ w, translate s d ucow = some w →
    w &&& pteCow = 0 ∧ w &&& pteLibrary = 0 ∧ pageRefs s D (ppn w) ≤ 2 ^ 16

/-- **The address spaces of parent and child**: a page that both map is shared, or neither can
write to it; they have the same shared pages. -/
structure Separated (M : Machine) (s : PhysMem) (D K H : Finset ℕ) (d q : ℕ) : Prop where
  accounting : UserAccounting M s D K H
  dir : d ∈ D
  dir' : q ∈ D
  ne : d ≠ q
  own : OwnSpace s D d
  own' : OwnSpace s D q
  cross : ∀ va va', va < utop → va' < utop → ∀ w w', translate s d va = some w →
    translate s q va' = some w' → ppn w = ppn w' →
      (w &&& pteLibrary ≠ 0 ∨ w' &&& pteLibrary ≠ 0) ∨ (w &&& pteD = 0 ∧ w' &&& pteD = 0)
  library : ∀ va, va < ustacktop → ∀ w, w &&& pteLibrary ≠ 0 →
    (translate s d va = some w ↔ translate s q va = some w)

lemma Separated.symm (h : Separated M s D K H d q) : Separated M s D K H q d where
  accounting := h.accounting
  dir := h.dir'
  dir' := h.dir
  ne := h.ne.symm
  own := h.own'
  own' := h.own
  cross va va' hva hva' w w' hw hw' he :=
    (h.cross va' va hva' hva w' w hw' hw he.symm).imp Or.symm And.symm
  library va hva w hl := (h.library va hva w hl).symm

/-- The address space of `q` is as it was, with the bytes of its pages. -/
structure Keeps (s s' : PhysMem) (q : ℕ) : Prop where
  map : ∀ va, va < utop → translate s' q va = translate s q va
  bytes : ∀ va, va < utop → ∀ w, translate s q va = some w → s'.mem (ppn w) = s.mem (ppn w)

namespace Keeps

lemma refl (s : PhysMem) (q : ℕ) : Keeps s s q := ⟨fun _ _ => rfl, fun _ _ _ _ => rfl⟩

lemma trans (h : Keeps s s1 q) (h' : Keeps s1 s2 q) : Keeps s s2 q where
  map va hva := (h'.map va hva).trans (h.map va hva)
  bytes va hva w hw := (h'.bytes va hva w ((h.map va hva).trans hw)).trans (h.bytes va hva w hw)

lemma readByte (h : Keeps s s' q) (hva : va < utop) :
    MosVolca.readByte s' q va = MosVolca.readByte s q va := by
  unfold MosVolca.readByte
  rw [h.map va hva]
  rcases hw : translate s q va with _ | w
  · rfl
  · rw [Option.map_some, Option.map_some, h.bytes va hva w hw]

end Keeps

/-! ## One change of an address space -/

lemma ustacktop_lt_utop (hva : va < ustacktop) : va < utop := by
  rw [BitVec.lt_def, ustacktop_toNat] at hva
  rw [BitVec.lt_def, utop_toNat]
  omega

lemma ucow_lt_utop : ucow < utop := by decide

/-- The bits of the new entry below the page number are those of the argument. -/
lemma mkPte_and {v : Word} (pp : ℕ) (hv : v &&& pteV = 0) (hlow : v.toNat < 2 ^ 12) :
    mkPte pp perm &&& v = perm &&& v := by
  have hbit : ∀ i < 12, (page2pa pp).getLsbD i = false := by
    intro i hi
    rw [page2pa, BitVec.getLsbD_shiftLeft]
    simp [hi]
  apply BitVec.eq_of_getLsbD_eq
  intro i hi
  have hvi := congrArg (fun x => x.getLsbD i) hv
  simp only [BitVec.getLsbD_and] at hvi
  simp only [mkPte, BitVec.getLsbD_and, BitVec.getLsbD_or]
  by_cases hi12 : i < 12
  · rw [hbit i hi12]
    rcases hvb : v.getLsbD i with _ | _
    · simp
    · rw [hvb, Bool.true_and] at hvi
      simp [hvi]
  · have hvb : v.getLsbD i = false :=
      Nat.testBit_lt_two_pow (hlow.trans_le (Nat.pow_le_pow_right (by decide) (by omega)))
    simp [hvb]

lemma OwnSpace.of_eq (h : OwnSpace s D d)
    (hmap : ∀ va, va < utop → translate s' d va = translate s d va)
    (hrefs : ∀ w, translate s d ucow = some w → pageRefs s D (ppn w) ≤ 2 ^ 16 →
      pageRefs s' D (ppn w) ≤ 2 ^ 16) : OwnSpace s' D d := by
  refine ⟨fun va hva w hw => h.exclusive va hva w (by rwa [← hmap va hva]), fun w hw => ?_⟩
  rw [hmap ucow ucow_lt_utop] at hw
  obtain ⟨h1, h2, h3⟩ := h.atUcow w hw
  exact ⟨h1, h2, hrefs w hw h3⟩

namespace Separated

/-- The mapped pages are the same and keep their references. -/
lemma of_eq {H' : Finset ℕ} (h : Separated M s D K H d q) (hacc : UserAccounting M s' D K H')
    (hmap : ∀ x ∈ D, ∀ va, va < utop → translate s' x va = translate s x va)
    (hrefs : ∀ p, pageRefs s' D p = pageRefs s D p) : Separated M s' D K H' d q := by
  have hd := hmap d h.dir
  have hq := hmap q h.dir'
  refine ⟨hacc, h.dir, h.dir', h.ne, h.own.of_eq hd fun w _ hle => by rwa [hrefs],
    h.own'.of_eq hq fun w _ hle => by rwa [hrefs], fun va va' hva hva' w w' hw hw' => ?_,
    fun va hva w hl => ?_⟩
  · rw [hd va hva] at hw
    rw [hq va' hva'] at hw'
    exact h.cross va va' hva hva' w w' hw hw'
  · rw [hd va (ustacktop_lt_utop hva), hq va (ustacktop_lt_utop hva)]
    exact h.library va hva w hl

section

variable (h : Separated M s D K H d q)

include h

/-- The pages of an address space are neither free nor page tables. -/
lemma insertable {x : ℕ} (hx : x ∈ D) (hva : va < utop) (hw : translate s x va = some w) :
    Insertable M (pdx utop) s D K (ppn w) :=
  h.accounting.insertable_of_leaf (leaf_of_translate hx (pdx_lt_of_lt_utop hva) hw)

/-- `page_alloc`. -/
lemma takeFree (hf : s.pageFreeList = np :: rest) :
    Separated M (s.takeFree np rest) D K (insert np H) d q ∧ Keeps s (s.takeFree np rest) q := by
  have hnode := Shape.not_node_of_refCount (h.accounting.head_free hf).2.2.2
  have hmap : ∀ x ∈ D, ∀ va, va < utop → translate (s.takeFree np rest) x va = translate s x va :=
    fun x hx va hva => Shape.lookup_congr (T := tableShape (pdx utop))
      (h.accounting.takeFree_dir hf hx _) fun hv => fill_of_ne fun he =>
        hnode (he ▸ Shape.Node.of_slot (T := tableShape (pdx utop)) hx (pdx_lt_of_lt_utop hva) hv)
  refine ⟨h.of_eq (h.accounting.takeFree hf) hmap (h.accounting.refCount_takeFree hf),
    hmap q h.dir', fun va hva w hw => funext fun i => fill_of_ne fun he => ?_⟩
  exact (h.insertable h.dir' hva hw).not_free (by rw [hf, he]; exact List.mem_cons_self)

/-- The bytes of a page that is neither a directory nor a page table change. -/
lemma congrPage {m : Store Word} (hn : ¬ (tableShape (pdx utop)).Node s.mem D pp)
    (hm : ∀ p, p ≠ pp → m p = s.mem p) : Separated M { s with mem := m } D K H d q ∧
      (∀ x ∈ D, ∀ va, va < utop → translate { s with mem := m } x va = translate s x va) ∧
      ∀ p, pageRefs { s with mem := m } D p = pageRefs s D p := by
  have hdir : ∀ x ∈ D, m x = s.mem x := fun x hx => hm x fun he => hn (he ▸ Shape.Node.of_mem hx)
  have htab : ∀ x ∈ D, ∀ i < pdx utop, pteValid (s.mem x i) = true →
      m (ppn (s.mem x i)) = s.mem (ppn (s.mem x i)) := fun x hx i hi hv =>
    hm _ fun he => hn (he ▸ Shape.Node.of_slot (T := tableShape (pdx utop)) hx hi hv)
  have hmap : ∀ x ∈ D, ∀ va, va < utop →
      translate { s with mem := m } x va = translate s x va := fun x hx va hva =>
    Shape.lookup_congr (T := tableShape (pdx utop)) (congrFun (hdir x hx) _)
      fun hv => congrFun (htab x hx _ (pdx_lt_of_lt_utop hva) hv) _
  have hrefs : ∀ p, pageRefs { s with mem := m } D p = pageRefs s D p :=
    Shape.refCount_congr (T := tableShape (pdx utop)) (fun x hx i _ => congrFun (hdir x hx) i)
      fun x hx i hi hv j _ => congrFun (htab x hx i hi hv) j
  exact ⟨h.of_eq (h.accounting.congrMem (fun x hx i _ => congrFun (hdir x hx) i)
    fun x hx i hi hv j _ => congrFun (htab x hx i hi hv) j) hmap hrefs, hmap, hrefs⟩

/-- `page_insert` of a page that the other address space does not map. -/
lemma insert (hva : va < utop) (hins : Insertable M (pdx utop) s D K pp) (hge : M.bootPages ≤ pp)
    (hperm : perm < 4096#32) (hc : perm &&& pteCow = 0) (hl : perm &&& pteLibrary = 0)
    (hroom : pageRefs s D pp < 2 ^ 16)
    (hfresh : ∀ va', va' < utop → ∀ w, translate s q va' = some w → ppn w ≠ pp)
    (hold : ∀ w, translate s d va = some w → w &&& pteLibrary = 0 ∧
      (ppn w ≠ pp → pageRefs s D (ppn w) ≤ 2 ^ 16))
    (hr : pageInsert M s d asid pp va perm = .ok (0, s')) :
    Separated M s' D K (H.erase pp) d q ∧ Keeps s s' q ∧
      (∀ va', va' < utop → translate s' d va' =
        if vpn va' = vpn va then some (mkPte pp perm) else translate s d va') ∧
      pageRefs s' D pp ≤ pageRefs s D pp + 1 ∧
      ∀ p, pageRefs s D p ≤ 2 ^ 16 → pageRefs s' D p ≤ 2 ^ 16 := by
  have hi := pdx_lt_of_lt_utop hva
  have hfr : ppn (mkPte pp perm) = pp :=
    ppn_mkPte_of_lt (hins.lt.trans M.npage_lt) hperm
  obtain ⟨hacc, hself, hother⟩ := h.accounting.afterInsert h.dir hi hins hge hfr
    (fun w hw => (hold w hw).2) hr
  have htr : ∀ va', va' < utop → translate s' d va' =
      if vpn va' = vpn va then some (mkPte pp perm) else translate s d va' := by
    intro va' hva'
    rw [h.accounting.translate_pageInsert h.dir hi hr h.dir (pdx_lt_of_lt_utop hva')]
    simp
  have htr' : ∀ va', va' < utop → translate s' q va' = translate s q va' := by
    intro va' hva'
    rw [h.accounting.translate_pageInsert h.dir hi hr h.dir' (pdx_lt_of_lt_utop hva'),
      if_neg fun hc => h.ne hc.1.symm]
  have hle : pageRefs s' D pp ≤ pageRefs s D pp + 1 := by
    rw [hself]
    split_ifs <;> omega
  have hrefs : ∀ p, pageRefs s D p ≤ 2 ^ 16 → pageRefs s' D p ≤ 2 ^ 16 := by
    intro p hp
    by_cases he : p = pp
    · rw [he]
      omega
    · exact (hother p he).trans (max_le hp (by decide))
  have hnc : mkPte pp perm &&& pteCow = 0 := by rw [mkPte_and pp (by decide) (by decide), hc]
  have hnl : mkPte pp perm &&& pteLibrary = 0 := by rw [mkPte_and pp (by decide) (by decide), hl]
  refine ⟨⟨hacc, h.dir, h.dir', h.ne, ⟨fun va' hva' w hw => ?_, fun w hw => ?_⟩,
    h.own'.of_eq htr' fun w _ => hrefs _, fun va1 va2 hva1 hva2 w w' hw hw' he => ?_,
    fun va' hva' w hl' => ?_⟩, ⟨htr', fun va' hva' w hw => ?_⟩, htr, hle, hrefs⟩
  · rw [htr va' hva'] at hw
    split_ifs at hw with hpage
    · rw [← Option.some.inj hw]
      exact Or.inl hnc
    · exact h.own.exclusive va' hva' w hw
  · rw [htr ucow ucow_lt_utop] at hw
    split_ifs at hw with hpage
    · rw [← Option.some.inj hw, hfr]
      exact ⟨hnc, hnl, by omega⟩
    · obtain ⟨h1, h2, h3⟩ := h.own.atUcow w hw
      exact ⟨h1, h2, hrefs _ h3⟩
  · rw [htr va1 hva1] at hw
    rw [htr' va2 hva2] at hw'
    split_ifs at hw with hpage
    · -- the new page is not mapped by the other
      rw [← Option.some.inj hw, hfr] at he
      exact absurd he.symm (hfresh va2 hva2 w' hw')
    · exact h.cross va1 va2 hva1 hva2 w w' hw hw' he
  · have hlt := ustacktop_lt_utop hva'
    rw [htr va' hlt, htr' va' hlt, ← h.library va' hva' w hl']
    split_ifs with hpage
    · refine iff_of_false (fun hw => hl' ?_) fun hw => hl' (hold w ?_).1
      · rw [← Option.some.inj hw, hnl]
      · rw [translate_congr_vpn hpage.symm, hw]
    · rfl
  · have hin := h.insertable h.dir' hva' hw
    exact (h.accounting.pageInsert_mem h.dir hi hr).2 _ hin.not_node hin.not_free

/-- `page_remove` of a page that is not shared. -/
lemma remove (hva : va < utop)
    (hold : ∀ w, translate s d va = some w → w &&& pteLibrary = 0 ∧
      pageRefs s D (ppn w) ≤ 2 ^ 16)
    (hr : pageRemove M s d asid va = .ok s') :
    Separated M s' D K H d q ∧ Keeps s s' q ∧
      ∀ va', va' < utop → translate s' d va' =
        if vpn va' = vpn va then none else translate s d va' := by
  have hi := pdx_lt_of_lt_utop hva
  obtain ⟨hacc, hcount⟩ := h.accounting.afterRemove h.dir hi (fun w hw => (hold w hw).2) hr
  have htr : ∀ va', va' < utop → translate s' d va' =
      if vpn va' = vpn va then none else translate s d va' := by
    intro va' hva'
    rw [h.accounting.translate_pageRemove h.dir hi hr h.dir (pdx_lt_of_lt_utop hva')]
    simp
  have htr' : ∀ va', va' < utop → translate s' q va' = translate s q va' := by
    intro va' hva'
    rw [h.accounting.translate_pageRemove h.dir hi hr h.dir' (pdx_lt_of_lt_utop hva'),
      if_neg fun hc => h.ne hc.1.symm]
  have hrefs : ∀ p, pageRefs s D p ≤ 2 ^ 16 → pageRefs s' D p ≤ 2 ^ 16 := by
    intro p hp
    have := hcount p
    omega
  refine ⟨⟨hacc, h.dir, h.dir', h.ne, ⟨fun va' hva' w hw => ?_, fun w hw => ?_⟩,
    h.own'.of_eq htr' fun w _ => hrefs _, fun va1 va2 hva1 hva2 w w' hw hw' he => ?_,
    fun va' hva' w hl' => ?_⟩, ⟨htr', fun va' hva' w hw => ?_⟩, htr⟩
  · rw [htr va' hva'] at hw
    split_ifs at hw with hpage
    exact h.own.exclusive va' hva' w hw
  · rw [htr ucow ucow_lt_utop] at hw
    split_ifs at hw with hpage
    obtain ⟨h1, h2, h3⟩ := h.own.atUcow w hw
    exact ⟨h1, h2, hrefs _ h3⟩
  · rw [htr va1 hva1] at hw
    rw [htr' va2 hva2] at hw'
    split_ifs at hw with hpage
    exact h.cross va1 va2 hva1 hva2 w w' hw hw' he
  · have hlt := ustacktop_lt_utop hva'
    rw [htr va' hlt, htr' va' hlt, ← h.library va' hva' w hl']
    split_ifs with hpage
    · refine iff_of_false (by simp) fun hw => hl' (hold w ?_).1
      rw [translate_congr_vpn hpage.symm, hw]
    · rfl
  · have hin := h.insertable h.dir' hva' hw
    exact (h.accounting.pageRemove_mem h.dir hi hr).2 _ hin.not_node

/-- A page that is not mapped by the other can be written. -/
lemma writePage {m : Store Word} (hn : ¬ (tableShape (pdx utop)).Node s.mem D pp)
    (hfresh : ∀ va', va' < utop → ∀ w, translate s q va' = some w → ppn w ≠ pp)
    (hm : ∀ p, p ≠ pp → m p = s.mem p) : Keeps s { s with mem := m } q :=
  ⟨(h.congrPage hn hm).2.1 q h.dir', fun va' hva' w hw => hm _ (hfresh va' hva' w hw)⟩

/-- A free page is not mapped. -/
lemma fresh_of_free (hf : s.pageFreeList = np :: rest) :
    ∀ va', va' < utop → ∀ w, translate s q va' = some w → ppn w ≠ np := by
  rintro va' hva' w hw rfl
  exact (h.insertable h.dir' hva' hw).not_free (by rw [hf]; exact List.mem_cons_self)

/-- **A new page**: it is allocated and mapped in place of a page that is not shared. -/
lemma mapNew (hf : s.pageFreeList = np :: rest) (hva : va < utop)
    (hold : ∀ w, translate s d va = some w → w &&& pteLibrary = 0 ∧ pageRefs s D (ppn w) ≤ 2 ^ 16)
    (hH : H = ∅) (hr : pageInsert M (s.takeFree np rest) d asid np va pteD = .ok (0, s')) :
    Separated M s' D K H d q ∧ Keeps s s' q ∧
      (∀ va', va' < utop → translate s' d va' =
        if vpn va' = vpn va then some (mkPte np pteD) else translate s d va') ∧
      pageRefs s' D np ≤ 1 ∧ ∀ p, pageRefs s D p ≤ 2 ^ 16 → pageRefs s' D p ≤ 2 ^ 16 := by
  subst hH
  obtain ⟨h1, hk1⟩ := h.takeFree hf
  have hmap := fun va' hva' => h.symm.takeFree hf |>.2.map va' hva'
  have hrefs : ∀ p, pageRefs (s.takeFree np rest) D p = pageRefs s D p :=
    h.accounting.refCount_takeFree hf
  have hheld := h1.accounting.held np (Finset.mem_insert_self np ∅)
  obtain ⟨h2, hk2, htr, hle, hle'⟩ := h1.insert hva
    (h1.accounting.insertable_of_held (Finset.mem_insert_self np ∅)) hheld.1.1 (by decide)
    (by decide) (by decide) (hheld.2.2.trans_lt (by decide))
    (fun va' hva' w hw => h.fresh_of_free hf va' hva' w (by rwa [← hk1.map va' hva']))
    (fun w hw => by
      rw [hmap va hva] at hw
      rw [hrefs]
      exact ⟨(hold w hw).1, fun _ => (hold w hw).2⟩) hr
  refine ⟨by simpa using h2, hk1.trans hk2, fun va' hva' => ?_, ?_, fun p hp => ?_⟩
  · rw [htr va' hva', hmap va' hva']
  · have h0 : pageRefs (s.takeFree np rest) D np = 0 := hheld.2.2
    omega
  · exact hle' p (by rwa [hrefs])

end

end Separated

/-! ## The refill handler -/

lemma pteAddr_lt_utop (hva : va < utop) : pteAddr va < utop := by
  have h1 := pdx_pteAddr va
  have h2 := pdx_eq (pteAddr va)
  have hi := pdx_lt_of_lt_utop hva
  rw [BitVec.lt_def, utop_toNat]
  rw [pdx_utop] at hi
  omega

/-- `page_insert` succeeds or finds no memory. -/
lemma Accounting.pageInsert_result {n : ℕ} (h : Accounting M n s D K H) (hd : d ∈ D) (hi : pdx va < n)
    (hr : pageInsert M s d asid pp va perm = .ok (r, s')) : r = 0 ∨ r = -eNoMem := by
  by_cases hv : pteValid (s.mem d (pdx va)) = true
  · rcases pageInsert_cases h.free_lt (h.table_ne_dir hd hi hv) hr with
      ⟨-, -, hr0, -⟩ | ⟨_, _, -, -, hr0, -⟩ | ⟨-, -, -, hr0, -⟩ | ⟨-, -, -, -, -, hr0, -⟩ |
      ⟨-, -, -, -, -, -, hr0, -⟩
    · exact Or.inr hr0
    · exact Or.inl hr0
    · exact Or.inl hr0
    · exact Or.inl hr0
    · exact Or.inl hr0
  · rw [pageInsert_unmapped fun hv' => absurd hv' hv] at hr
    rcases pageInstall_cases h.free_lt hr with
      ⟨-, -, hr0, -⟩ | ⟨_, _, -, -, hr0, -⟩ | ⟨-, -, hr0, -⟩
    · exact Or.inr hr0
    · exact Or.inl hr0
    · exact Or.inl hr0

/-- The refill handler finds a mapped page. -/
lemma UserAccounting.refill_mapped (h : UserAccounting M s D K H) (hd : d ∈ D) (hva : va < utop)
    (hw : translate s d va = some w) (n : ℕ) :
    doTlbRefill M (n + 1) s d va asid = .ok (some (w, s)) := by
  rw [doTlbRefill, h.pageLookup_eq hd (pdx_lt_of_lt_utop hva), hw]
  simp only [Option.map_some, ok_bind, pure_eq_ok]
  rw [show s.mem (ppn (s.mem d (pdx va))) (ptx va) = w from (translate_eq_some_iff.mp hw).2.1]

/-- **What the refill handler does**: it finds the page, or maps a new one. -/
lemma Separated.refill (h : Separated M s D K ∅ d q) (hva : va < utop)
    (hr : doTlbRefill M 2 s d va asid = .ok (some (w, s'))) :
    (translate s d va = some w ∧ s' = s) ∨
      (Separated M s' D K ∅ d q ∧ Keeps s s' q ∧ translate s' d va = some w ∧ w &&& pteD ≠ 0 ∧
        ∀ va', va' < utop → ∀ w', translate s' q va' = some w' → ppn w' ≠ ppn w) := by
  have hi := pdx_lt_of_lt_utop hva
  rcases ht : translate s d va with _ | w1
  · refine Or.inr ?_
    rw [doTlbRefill, h.accounting.pageLookup_eq h.dir hi, ht] at hr
    simp only [Option.map_none, ok_bind] at hr
    obtain ⟨s1, hp, hr⟩ := bind_eq_ok.mp hr
    have hx : ¬ Excluded va := fun hx => by
      obtain ⟨halt, he⟩ : ∃ halt, passiveAlloc M s va d asid = .error halt :=
        passiveAlloc_excluded hx
      rw [he] at hp
      simp at hp
    rcases hf : s.pageFreeList with _ | ⟨np, rest⟩
    · obtain ⟨halt, he⟩ : ∃ halt, passiveAlloc M s va d asid = .error halt := passiveAlloc_nil hf
      rw [he] at hp
      simp at hp
    have hlt := (h.accounting.head_free hf).1.2
    rw [passiveAlloc_cons hx hf hlt] at hp
    obtain ⟨⟨r1, s2⟩, hins, hp⟩ := bind_eq_ok.mp hp
    simp only [ne_eq] at hp
    split_ifs at hp with hr1
    · simp only [pure_eq_ok, Except.ok.injEq] at hp
      subst hr1 hp
      obtain ⟨h2, hk, htr, -⟩ := h.mapNew hf (pteAddr_lt_utop hva) (fun w' hw' => by
        rw [translate_congr_vpn (vpn_pteAddr va), ht] at hw'
        simp at hw') rfl hins
      have ht2 : translate s2 d va = some (mkPte np pteD) := by
        rw [htr va hva, if_pos (vpn_pteAddr va).symm]
      rw [h2.accounting.refill_mapped h2.dir hva ht2] at hr
      simp only [Except.ok.injEq, Option.some.injEq, Prod.mk.injEq] at hr
      obtain ⟨rfl, rfl⟩ := hr
      refine ⟨h2, hk, ht2, mkPte_writable np, fun va' hva1 w' hw' => ?_⟩
      rw [ppn_mkPte_of_lt (hlt.trans M.npage_lt) (by decide)]
      exact h.fresh_of_free hf va' hva1 w' (by rwa [← hk.map va' hva1])
  · rw [h.accounting.refill_mapped h.dir hva ht] at hr
    simp only [Except.ok.injEq, Option.some.injEq, Prod.mk.injEq] at hr
    exact Or.inl ⟨hr.1 ▸ rfl, hr.2.symm⟩

/-! ## `cow_entry` -/

/-- The program runs in the environment `x` with the page directory `d`. -/
structure Runs (P : Proc) (x : EnvPtr) (d : ℕ) : Prop where
  cur : P.kern.curenv = some x
  curPgdir : P.kern.curPgdir = d
  pgdir : (P.kern.envs x).pgdir = d

/-- A system call has changed the memory only. -/
lemma Runs.of_pm {pm : PhysMem} (h : Runs P x d) (hk : P'.kern = { P.kern with pm := pm }) :
    Runs P' x d :=
  ⟨by rw [hk]; exact h.cur, by rw [hk]; exact h.curPgdir, by rw [hk]; exact h.pgdir⟩

lemma isIllegalVa_ucow : isIllegalVa ucow = false := by decide

/-- The program allocates a page for itself. -/
lemma sysMemAlloc_self (hcur : k.curenv = some x) (hva : isIllegalVa va = false)
    (hfree : ∀ p ∈ k.pm.pageFreeList, p < M.npage)
    (h : sysMemAlloc M k 0 va perm = .ok (r, k')) :
    r = -eNoMem ∨ ∃ np rest pm, k.pm.pageFreeList = np :: rest ∧
      pageInsert M (k.pm.takeFree np rest) (k.envs x).pgdir (k.envs x).asid np va perm =
        .ok (r, pm) ∧ k' = { k with pm := pm } := by
  have h0 : envid2env k 0 true = .ok (.ok (some x)) := by
    rw [envid2env, if_pos rfl, hcur]
    rfl
  unfold sysMemAlloc at h
  rw [if_neg (by simp [hva]), h0] at h
  simp only [ok_bind] at h
  obtain ⟨⟨o, pm1⟩, ha, h⟩ := bind_eq_ok.mp h
  rcases pageAlloc_cases hfree ha with ⟨-, rfl, rfl⟩ | ⟨np, rest, hf, rfl, rfl⟩
  · replace h := pure_pair_inj h
    exact Or.inl h.1.symm
  · simp only [deref, pure_eq_ok, ok_bind] at h
    obtain ⟨⟨r1, pm⟩, hins, h⟩ := bind_eq_ok.mp h
    simp only [Except.ok.injEq, Prod.mk.injEq] at h
    obtain ⟨rfl, rfl⟩ := h
    exact Or.inr ⟨np, rest, pm, hf, hins, rfl⟩

/-- An access to a mapped page reaches that page. -/
lemma Separated.touch (h : Separated M P.kern.pm D K ∅ d q) (hP : Runs P x d) (hva : va < utop)
    (hw : translate P.kern.pm d va = some w) : P.touch M va = .ok (ppn w, P) := by
  have hr : doTlbRefill M 2 P.kern.pm P.kern.curPgdir va (P.kern.envs x).asid =
      .ok (some (w, P.kern.pm)) := by
    rw [hP.curPgdir]
    exact h.accounting.refill_mapped h.dir hva hw 1
  unfold Proc.touch
  rw [hP.cur]
  simp only [deref, pure_eq_ok, ok_bind]
  rw [hr]
  rfl

/-- `memcpy` between two mapped pages. -/
lemma Separated.memcpyPage {dst src w' : Word} (h : Separated M P.kern.pm D K ∅ d q)
    (hP : Runs P x d) (hdst : dst < utop) (hsrc : src < utop)
    (hw : translate P.kern.pm d dst = some w) (hw' : translate P.kern.pm d src = some w') :
    P.memcpyPage M dst src = .ok { P with kern := { P.kern with pm := { P.kern.pm with
      mem := fun p i => if p = ppn w ∧ i < 1024 then P.kern.pm.mem (ppn w') i
        else P.kern.pm.mem p i } } } := by
  unfold Proc.memcpyPage
  rw [h.touch hP hsrc hw', ok_bind]
  simp only
  rw [h.touch hP hdst hw, ok_bind]
  rfl

/-- `vpt` is the entry of a mapped page. -/
lemma vpt_of_translate (hcd : k.curPgdir = d) (hw : translate k.pm d va = some w) :
    vpt k (vpn va) = w := by
  obtain ⟨-, hword, -⟩ := translate_eq_some_iff.mp hw
  have hlt := ptx_lt va
  have hdiv : vpn va / 1024 = pdx va ∧ vpn va % 1024 = ptx va := by
    rw [vpn_eq]
    omega
  rw [vpt, vpd, hdiv.1, hdiv.2, hcd]
  exact hword

/-- The address that `cow_entry` maps is in the page of the fault. -/
lemma vpn_and_not_fff (va : Word) : vpn (va &&& ~~~0xfff#32) = vpn va := vpn_pteAddr va

/-- The permissions with which `cow_entry` maps the copy. -/
def cowPerm (w : Word) : Word := (w &&& 0xfff#32 &&& ~~~pteCow) ||| pteD

lemma cowPerm_lt (w : Word) : cowPerm w < 4096#32 := by
  have h := and_fff_lt w (~~~pteCow)
  have h2 : pteD.toNat < 2 ^ 12 := by decide
  exact Nat.or_lt_two_pow (n := 12) h h2

lemma cowPerm_and {v : Word} (hv : ~~~pteCow &&& v = v) (h12 : 0xfff#32 &&& v = v)
    (hD : pteD &&& v = 0) : cowPerm w &&& v = w &&& v := by
  rw [cowPerm, BitVec.and_comm, BitVec.and_or_distrib_left, BitVec.and_comm v, BitVec.and_comm v,
    BitVec.and_assoc, BitVec.and_assoc, hv, h12, hD]
  exact BitVec.or_zero

lemma cowPerm_cow (w : Word) : cowPerm w &&& pteCow = 0 := by
  have h1 : ~~~pteCow &&& pteCow = 0 := by decide
  have h2 : pteD &&& pteCow = 0 := by decide
  rw [cowPerm, BitVec.and_comm, BitVec.and_or_distrib_left, BitVec.and_comm pteCow,
    BitVec.and_comm pteCow, BitVec.and_assoc, h1, h2]
  simp

lemma cowPerm_library (w : Word) : cowPerm w &&& pteLibrary = w &&& pteLibrary :=
  cowPerm_and (by decide) (by decide) (by decide)

/-- `memcpy` makes no system call. -/
lemma Proc.memcpyPage_results {dst src : Word} (h : P.memcpyPage M dst src = .ok P') :
    P'.results = P.results := by
  have htouch : ∀ {P P' : Proc} {va : Word} {p : ℕ}, P.touch M va = .ok (p, P') →
      P'.results = P.results := by
    intro P P' va p h
    unfold Proc.touch at h
    obtain ⟨cur, -, h⟩ := bind_eq_ok.mp h
    obtain ⟨o, -, h⟩ := bind_eq_ok.mp h
    rcases o with _ | ⟨w, pm⟩
    · simp at h
    · replace h := pure_pair_inj h
      rw [← h.2]
  unfold Proc.memcpyPage at h
  obtain ⟨⟨p1, P1⟩, h1, h⟩ := bind_eq_ok.mp h
  obtain ⟨⟨p2, P2⟩, h2, h⟩ := bind_eq_ok.mp h
  simp only [pure_eq_ok, Except.ok.injEq] at h
  rw [← h]
  exact (htouch h2).trans (htouch h1)

lemma eNoMem_neg : ¬ 0 ≤ (-eNoMem : Word).toInt := by decide

section CowSteps

variable (h : Separated M k.pm D K ∅ d q) (hcur : k.curenv = some x) (hd : (k.envs x).pgdir = d)

include h hcur hd

/-- `cow_entry` allocates the page at `UCOW`. -/
lemma Separated.cowAlloc (hr : sysMemAlloc M k 0 ucow pteD = .ok (r, k1)) (h0 : 0 ≤ r.toInt) :
    ∃ np s1, k1 = { k with pm := s1 } ∧ np < 2 ^ 20 ∧ Separated M s1 D K ∅ d q ∧
      Keeps k.pm s1 q ∧ (∀ va', va' < utop → ∀ w, translate s1 q va' = some w → ppn w ≠ np) ∧
      (∀ va', va' < utop → translate s1 d va' =
        if vpn va' = vpn ucow then some (mkPte np pteD) else translate k.pm d va') ∧
      pageRefs s1 D np ≤ 1 ∧ ∀ p, pageRefs k.pm D p ≤ 2 ^ 16 → pageRefs s1 D p ≤ 2 ^ 16 := by
  rcases sysMemAlloc_self hcur isIllegalVa_ucow h.accounting.free_lt hr with
    rfl | ⟨np, rest, s1, hf, hins, rfl⟩
  · exact absurd h0 eNoMem_neg
  rw [hd] at hins
  rcases (h.takeFree hf).1.accounting.pageInsert_result h.dir (pdx_lt_of_lt_utop ucow_lt_utop) hins
    with rfl | rfl
  · obtain ⟨h1, hk, htr, hle, hle'⟩ := h.mapNew hf ucow_lt_utop
      (fun w hw => (h.own.atUcow w hw).2) rfl hins
    refine ⟨np, s1, rfl, (h.accounting.head_free hf).1.2.trans M.npage_lt, h1, hk,
      fun va' hva' w hw => ?_, htr, hle, hle'⟩
    exact h.fresh_of_free hf va' hva' w (by rwa [← hk.map va' hva'])
  · exact absurd h0 eNoMem_neg

/-- It maps that page in place of the page of the fault. -/
lemma Separated.cowMap {u : Word} (hva : va < utop) (hu : translate k.pm d ucow = some u)
    (hfresh : ∀ va', va' < utop → ∀ w, translate k.pm q va' = some w → ppn w ≠ ppn u)
    (hone : pageRefs k.pm D (ppn u) ≤ 1) (hw : translate k.pm d va = some w)
    (hlib : w &&& pteLibrary = 0) (hle : pageRefs k.pm D (ppn w) ≤ 2 ^ 16)
    (hr : sysMemMap M k 0 ucow 0 (va &&& ~~~0xfff#32) (cowPerm w) = .ok (r, k1))
    (h0 : 0 ≤ r.toInt) :
    ∃ s1, k1 = { k with pm := s1 } ∧ Separated M s1 D K ∅ d q ∧ Keeps k.pm s1 q ∧
      translate s1 d va = some (mkPte (ppn u) (cowPerm w)) := by
  have hva' : va &&& ~~~0xfff#32 < utop := pteAddr_lt_utop hva
  have hvpn : vpn (va &&& ~~~0xfff#32) = vpn va := vpn_and_not_fff va
  have hleg : isIllegalVa (va &&& ~~~0xfff#32) = false := by
    by_contra hill
    unfold sysMemMap at hr
    rw [if_pos (by rw [Bool.eq_true_of_not_eq_false hill, Bool.or_true])] at hr
    replace hr := pure_pair_inj hr
    rw [← hr.1] at h0
    exact absurd h0 (by decide)
  have hi := pdx_lt_of_lt_utop ucow_lt_utop
  have hl := h.accounting.pageLookup_eq h.dir hi
  rw [hu, ← hd] at hl
  have hid : envid2env k 0 true = .ok (.ok (some x)) := by
    rw [envid2env, if_pos rfl, hcur]
    rfl
  rw [sysMemMap_own hcur hid isIllegalVa_ucow hleg hl] at hr
  obtain ⟨⟨r1, s1⟩, hins, hr⟩ := bind_eq_ok.mp hr
  obtain ⟨rfl, rfl⟩ := pure_pair_inj hr
  rw [hd] at hins
  rcases h.accounting.pageInsert_result h.dir (pdx_lt_of_lt_utop hva') hins with rfl | rfl
  · have hleaf := leaf_of_translate h.dir hi hu
    obtain ⟨h1, hk, htr, -⟩ := h.insert hva' (h.insertable h.dir ucow_lt_utop hu)
      (h.accounting.leaf_ge _ hleaf) (cowPerm_lt w) (cowPerm_cow w)
      (by rw [cowPerm_library, hlib]) (hone.trans_lt (by decide)) hfresh (fun w' hw' => by
        rw [translate_congr_vpn hvpn, hw, Option.some.injEq] at hw'
        subst hw'
        exact ⟨hlib, fun _ => hle⟩) hins
    refine ⟨s1, rfl, by simpa using h1, hk, ?_⟩
    rw [htr va hva, if_pos hvpn.symm]
  · exact absurd h0 eNoMem_neg

/-- It unmaps the page at `UCOW`. -/
lemma Separated.cowUnmap (hr : sysMemUnmap M k 0 ucow = .ok (r, k1)) :
    ∃ s1, k1 = { k with pm := s1 } ∧ Separated M s1 D K ∅ d q ∧ Keeps k.pm s1 q ∧
      ∀ va', va' < utop → vpn va' ≠ vpn ucow → translate s1 d va' = translate k.pm d va' := by
  rcases sysMemUnmap_cases hr with ⟨-, rfl⟩ | ⟨e, s1, -, hid, hrem, -, rfl⟩
  · exact ⟨k1.pm, rfl, h, Keeps.refl _ _, fun _ _ _ => rfl⟩
  · rw [envid2env, if_pos rfl, hcur] at hid
    simp only [pure_eq_ok, Except.ok.injEq, Option.some.injEq] at hid
    subst hid
    rw [hd] at hrem
    obtain ⟨h1, hk, htr⟩ := h.remove ucow_lt_utop (fun w hw => (h.own.atUcow w hw).2) hrem
    refine ⟨s1, rfl, h1, hk, fun va' hva' hne => ?_⟩
    rw [htr va' hva', if_neg hne]

end CowSteps

/-- **`cow_entry`**: without `PTE_COW` it panics; otherwise, if its calls succeed, the page is
replaced by a page that the other environment does not map. -/
theorem cowEntry_spec {o : Option Proc} (h : Separated M P.kern.pm D K ∅ d q) (hP : Runs P x d)
    (hva : va < utop) (hw : translate P.kern.pm d va = some w)
    (hle : pageRefs P.kern.pm D (ppn w) ≤ 2 ^ 16) (hr : cowEntry M P va = .ok o) :
    o = none ∨ ∃ P', o = some P' ∧ ((∀ r ∈ P'.results, 0 ≤ r.toInt) →
      ∃ pm w', P'.kern = { P.kern with pm := pm } ∧ Separated M pm D K ∅ d q ∧
        Keeps P.kern.pm pm q ∧ translate pm d va = some w' ∧
        ∀ va', va' < utop → ∀ w1, translate pm q va' = some w1 → ppn w1 ≠ ppn w') := by
  unfold cowEntry at hr
  rw [vpt_of_translate hP.curPgdir hw] at hr
  simp only at hr
  have hC : 0xfff#32 &&& pteCow = pteCow := by decide
  rw [BitVec.and_assoc, hC] at hr
  split_ifs at hr with hcow
  · simp only [pure_eq_ok, Except.ok.injEq] at hr
    exact Or.inl hr.symm
  refine Or.inr ?_
  have hlib : w &&& pteLibrary = 0 := (h.own.exclusive va hva w hw).resolve_left hcow
  have hpage : vpn va ≠ vpn ucow := fun he => by
    rw [translate_congr_vpn he] at hw
    exact hcow (h.own.atUcow w hw).1
  obtain ⟨⟨r1, P1⟩, h1, hr⟩ := bind_eq_ok.mp hr
  obtain ⟨h1, hlog1⟩ := Proc.call_eq_ok.mp h1
  simp only at hr
  obtain ⟨P2, h2, hr⟩ := bind_eq_ok.mp hr
  obtain ⟨⟨r3, P3⟩, h3, hr⟩ := bind_eq_ok.mp hr
  obtain ⟨h3, hlog3⟩ := Proc.call_eq_ok.mp h3
  simp only at hr
  obtain ⟨⟨r4, P4⟩, h4, hr⟩ := bind_eq_ok.mp hr
  obtain ⟨h4, hlog4⟩ := Proc.call_eq_ok.mp h4
  simp only [pure_eq_ok, Except.ok.injEq] at hr
  refine ⟨P4, hr.symm, fun hlog => ?_⟩
  have hlog2 := Proc.memcpyPage_results h2
  have hr1 : 0 ≤ r1.toInt := hlog r1 (by simp [hlog4, hlog3, hlog2, hlog1])
  have hr3 : 0 ≤ r3.toInt := hlog r3 (by simp [hlog4, hlog3])
  -- the new page at `UCOW`
  obtain ⟨np, s1, hk1, hnp, hs1, hkeep1, hfresh1, htr1, hone1, hle1⟩ :=
    h.cowAlloc hP.cur hP.pgdir h1 hr1
  have hP1 : Runs P1 x d := hP.of_pm hk1
  have hpm1 : P1.kern.pm = s1 := by rw [hk1]
  have hfr : ppn (mkPte np pteD) = np := ppn_mkPte_of_lt hnp (by decide)
  have hu1 : translate s1 d ucow = some (mkPte np pteD) := by rw [htr1 _ ucow_lt_utop, if_pos rfl]
  have hw1 : translate s1 d va = some w := by rw [htr1 va hva, if_neg hpage, hw]
  -- the copy
  have hva' : va &&& ~~~0xfff#32 < utop := pteAddr_lt_utop hva
  have hcopy := (hpm1.symm ▸ hs1 : Separated M P1.kern.pm D K ∅ d q).memcpyPage hP1 ucow_lt_utop
    hva' (by rw [hpm1, hu1]) (by rw [hpm1, translate_congr_vpn (vpn_and_not_fff va), hw1])
  rw [hcopy, hfr, hpm1] at h2
  have hnode1 := (hs1.insertable hs1.dir ucow_lt_utop hu1).not_node
  rw [hfr] at hnode1
  obtain ⟨m, hm⟩ : ∃ m : TwoLevel.Store Word,
      m = fun p i => if p = np ∧ i < 1024 then s1.mem (ppn w) i else s1.mem p i := ⟨_, rfl⟩
  have hmp : ∀ p, p ≠ np → m p = s1.mem p := fun p hp => by
    rw [hm]
    funext i
    exact if_neg fun hc => hp hc.1
  rw [← hm] at h2
  obtain ⟨hs2, htr2, hrefs2⟩ := hs1.congrPage hnode1 hmp
  have hkeep2 := hs1.writePage hnode1 hfresh1 hmp
  have hk2 : P2.kern = { P.kern with pm := { s1 with mem := m } } := by
    rw [← Except.ok.inj h2, hk1]
  have hP2 : Runs P2 x d := hP.of_pm hk2
  have hpm2 : P2.kern.pm = { s1 with mem := m } := by rw [hk2]
  -- the page of the fault
  obtain ⟨s3, hk3, hs3, hkeep3, htr3⟩ := (hpm2.symm ▸ hs2 : Separated M P2.kern.pm D K ∅ d q).cowMap
    hP2.cur hP2.pgdir hva (u := mkPte np pteD) (w := w)
    (by rw [hpm2, htr2 d h.dir _ ucow_lt_utop, hu1])
    (fun va1 hva1 w1 hw' => by
      rw [hpm2, htr2 q h.dir' va1 hva1] at hw'
      rw [hfr]
      exact hfresh1 va1 hva1 w1 hw')
    (by rwa [hpm2, hrefs2, hfr]) (by rw [hpm2, htr2 d h.dir va hva, hw1]) hlib
    (by rw [hpm2, hrefs2]; exact hle1 _ hle) h3 hr3
  have hk3' : P3.kern = { P.kern with pm := s3 } := by rw [hk3, hk2]
  have hP3 : Runs P3 x d := hP.of_pm hk3'
  have hpm3 : P3.kern.pm = s3 := by rw [hk3]
  -- `UCOW` is unmapped again
  obtain ⟨s4, hk4, hs4, hkeep4, htr4⟩ :=
    (hpm3.symm ▸ hs3 : Separated M P3.kern.pm D K ∅ d q).cowUnmap hP3.cur hP3.pgdir h4
  rw [hpm3] at hkeep4 htr4
  rw [hpm2] at hkeep3
  have hkeep : Keeps P.kern.pm s4 q := ((hkeep1.trans hkeep2).trans hkeep3).trans hkeep4
  have hfr' : ppn (mkPte np (cowPerm w)) = np := ppn_mkPte_of_lt hnp (cowPerm_lt w)
  refine ⟨s4, mkPte np (cowPerm w), by rw [hk4, hk3'], hs4, hkeep, ?_, fun va1 hva1 w1 hw' => ?_⟩
  · rw [htr4 va hva hpage, htr3, hfr]
  · rw [hfr']
    exact hfresh1 va1 hva1 w1 (by rwa [hkeep1.map va1 hva1, ← hkeep.map va1 hva1])

/-! ## Stores -/

/-- Writing to a page with `PTE_D` is seen by the other on shared pages only. -/
lemma Separated.storeByte {b : BitVec 8} (h : Separated M s D K ∅ d q) (hva : va < utop)
    (hw : translate s d va = some w) (hD : w &&& pteD ≠ 0) :
    Separated M (s.storeByte (ppn w) va b) D K ∅ d q ∧
      ∀ va', va' < utop → ¬ SharedPage s d va q va' →
        readByte (s.storeByte (ppn w) va b) q va' = readByte s q va' := by
  have hnode := (h.insertable h.dir hva hw).not_node
  obtain ⟨h1, htr, -⟩ := h.congrPage (m := (s.storeByte (ppn w) va b).mem) hnode
    fun p hp => funext fun i => write_of_ne_page hp
  refine ⟨h1, fun va' hva' hno => ?_⟩
  have htr' : translate (s.storeByte (ppn w) va b) q va' = translate s q va' := htr q h.dir' va' hva'
  unfold readByte
  rw [htr']
  rcases hw' : translate s q va' with _ | w'
  · rfl
  · have hne : ppn w' ≠ ppn w := by
      intro he
      rcases h.cross va va' hva hva' w w' hw hw' he.symm with hl | ⟨hD0, -⟩
      · exact hno ⟨w, w', hw, hw', he.symm, hl⟩
      · exact hD hD0
    rw [Option.map_some, Option.map_some]
    exact congrArg (fun x => some (wordByte x _)) (write_of_ne_page hne)

/-- **One round of a store**: the byte is stored, or `cow_entry` has run. -/
lemma storeRound_spec {b : BitVec 8} {res : StoreRound} (h : Separated M P.kern.pm D K ∅ d q)
    (hP : Runs P x d) (hva : va < utop) (hr : storeRound M P va b = .ok res) :
    (∃ pm, res = .done { P.kern with pm := pm } ∧ Separated M pm D K ∅ d q ∧
      ∀ va', va' < utop → ¬ SharedPage P.kern.pm d va q va' →
        readByte pm q va' = readByte P.kern.pm q va') ∨
    res = .panicked ∨
    ∃ P', res = .again P' ∧
      ((∀ w, translate P.kern.pm d va = some w → w &&& pteD = 0 →
        pageRefs P.kern.pm D (ppn w) ≤ 2 ^ 16) →
      (∀ r ∈ P'.results, 0 ≤ r.toInt) →
      ∃ pm w', P'.kern = { P.kern with pm := pm } ∧ Separated M pm D K ∅ d q ∧
        Keeps P.kern.pm pm q ∧ translate pm d va = some w' ∧
        ∀ va', va' < utop → ∀ w1, translate pm q va' = some w1 → ppn w1 ≠ ppn w') := by
  unfold storeRound at hr
  obtain ⟨cur, hcur, hr⟩ := bind_eq_ok.mp hr
  obtain ⟨o, hfill, hr⟩ := bind_eq_ok.mp hr
  rw [hP.curPgdir] at hfill
  rcases o with _ | ⟨w, pm⟩
  · simp at hr
  simp only at hr
  split_ifs at hr with hD
  · simp only [pure_eq_ok, Except.ok.injEq] at hr
    refine Or.inl ⟨pm.storeByte (ppn w) va b, hr.symm, ?_⟩
    rcases h.refill hva hfill with ⟨hw, rfl⟩ | ⟨h1, hk, hw, -, hfresh⟩
    · exact h.storeByte hva hw hD
    · -- the page is new
      obtain ⟨h2, hread⟩ := h1.storeByte (b := b) hva hw hD
      refine ⟨h2, fun va' hva' _ => (hread va' hva' ?_).trans (hk.readByte hva')⟩
      rintro ⟨w1, w', hw1, hw', he, -⟩
      rw [hw, Option.some.injEq] at hw1
      rw [← hw1] at he
      exact hfresh va' hva' w' hw' he.symm
  · obtain ⟨hw, hpm⟩ | ⟨-, -, -, hD', -⟩ := h.refill hva hfill
    · rw [hpm] at hr
      obtain ⟨o, hc, hr⟩ := bind_eq_ok.mp hr
      rcases o with _ | P'
      · simp only [pure_eq_ok, Except.ok.injEq] at hr
        exact Or.inr (Or.inl hr.symm)
      · simp only [pure_eq_ok, Except.ok.injEq] at hr
        refine Or.inr (Or.inr ⟨P', hr.symm, fun hle hlog => ?_⟩)
        obtain hn | ⟨P1, hP1, hspec⟩ := cowEntry_spec (P := P) h hP hva hw (hle w hw (not_not.mp hD)) hc
        · simp at hn
        · obtain rfl := Option.some.inj hP1
          exact hspec hlog
    · exact absurd hD' hD

/-- The kernel after a store has the memory `pm`; the storing environment is the current one. -/
def Kern.stored (k : Kern) (x : EnvPtr) (pm : PhysMem) : Kern :=
  { k with curenv := some x, curPgdir := (k.envs x).pgdir, pm := pm }

/-- **One store**: the invariant is kept, and the other environment sees it on shared pages only. -/
theorem userStore_spec (h : Separated M k.pm D K ∅ d q) (hd : (k.envs a.env).pgdir = d)
    (hva : a.va < utop)
    (hle : ∀ w, translate k.pm d a.va = some w → w &&& pteD = 0 →
      pageRefs k.pm D (ppn w) ≤ 2 ^ 16)
    (hr : userStore M k a = .ok (some k')) : ∃ pm, k' = k.stored a.env pm ∧
      Separated M pm D K ∅ d q ∧
      ∀ va', va' < utop → ¬ SharedPage k.pm d a.va q va' → readByte pm q va' = readByte k.pm q va' := by
  have hP : Runs (k.running a.env) a.env d := ⟨rfl, hd, hd⟩
  unfold userStore at hr
  obtain ⟨res, h1, hr⟩ := bind_eq_ok.mp hr
  rcases storeRound_spec (P := k.running a.env) h hP hva h1 with
    ⟨pm, rfl, h2, hread⟩ | rfl | ⟨P', rfl, hspec⟩
  · simp only [pure_eq_ok, Except.ok.injEq, Option.some.injEq] at hr
    exact ⟨pm, hr.symm, h2, hread⟩
  · simp at hr
  simp only at hr
  split_ifs at hr with hall
  · simp only [List.all_eq_true, decide_eq_true_eq] at hall
    obtain ⟨pm, w', hk, h2, hkeep, hw', hfresh⟩ := hspec hle hall
    have hP' : Runs P' a.env d := hP.of_pm hk
    have hpm : P'.kern.pm = pm := by rw [hk]
    obtain ⟨res, h3, hr⟩ := bind_eq_ok.mp hr
    rcases storeRound_spec (hpm.symm ▸ h2 : Separated M P'.kern.pm D K ∅ d q) hP' hva h3 with
      ⟨pm', rfl, h4, hread⟩ | rfl | ⟨P2, rfl, -⟩
    · simp only [pure_eq_ok, Except.ok.injEq, Option.some.injEq] at hr
      refine ⟨pm', by rw [← hr, hk]; rfl, h4, fun va' hva' _ => ?_⟩
      rw [hpm] at hread
      refine (hread va' hva' ?_).trans (hkeep.readByte hva')
      rintro ⟨w1, w2, hw1, hw2, he, -⟩
      rw [hw', Option.some.injEq] at hw1
      rw [← hw1] at he
      exact hfresh va' hva' w2 hw2 he.symm
    · simp at hr
    · simp at hr
  · simp at hr

/-- **The stores that do no harm**: they are to user addresses, and a page that `cow_entry` replaces
has at most 2^16 references. -/
def HarmlessStore (D : Finset ℕ) (k : Kern) (a : ByteStore) : Prop :=
  a.va < utop ∧ ∀ w, translate k.pm (k.envs a.env).pgdir a.va = some w → w &&& pteD = 0 →
    pageRefs k.pm D (ppn w) ≤ 2 ^ 16

/-- Separated address spaces have the same bytes on shared pages. -/
lemma Separated.sharedSame (h : Separated M k.pm D K ∅ (k.envs c).pgdir (k.envs e).pgdir) :
    SharedSame k c e := by
  have hentry : ∀ va, va < ustacktop → k.OnLibrary c va ∨ k.OnLibrary e va →
      translate k.pm (k.envs c).pgdir va = translate k.pm (k.envs e).pgdir va := by
    rintro va hva (⟨w, hw, hl⟩ | ⟨w, hw, hl⟩)
    · rw [hw, (h.library va hva w hl).mp hw]
    · rw [hw, (h.library va hva w hl).mpr hw]
  intro va hva hon
  unfold Kern.reads readByte
  rw [hentry va hva hon]

/-- **Isolation of separated address spaces.** -/
theorem Separated.isolated (h : Separated M k.pm D K ∅ (k.envs c).pgdir (k.envs e).pgdir) :
    Isolated M (HarmlessStore D) k c e := by
  intro l
  induction l generalizing k with
  | nil =>
    intro k1 _ _ hr
    simp only [storeRun, pure_eq_ok, Except.ok.injEq, Option.some.injEq] at hr
    subst hr
    refine ⟨h.sharedSame, fun a k2 hok hs => ⟨?_, ?_⟩⟩
    · rintro rfl
      obtain ⟨pm, rfl, -, hread⟩ := userStore_spec h rfl hok.1 hok.2 hs
      exact hread
    · rintro rfl
      obtain ⟨pm, rfl, -, hread⟩ := userStore_spec h.symm rfl hok.1 hok.2 hs
      exact hread
  | cons a l ih =>
    intro k1 henv hok hr
    obtain ⟨ha, hok⟩ := hok
    rw [storeRun] at hr
    obtain ⟨o, hs, hr⟩ := bind_eq_ok.mp hr
    rcases o with _ | k2
    · simp at hr
    have hnext : Separated M k2.pm D K ∅ (k2.envs c).pgdir (k2.envs e).pgdir := by
      rcases henv a List.mem_cons_self with rfl | rfl
      · obtain ⟨pm, rfl, h2, -⟩ := userStore_spec h rfl ha.1 ha.2 hs
        exact h2
      · obtain ⟨pm, rfl, h2, -⟩ := userStore_spec h.symm rfl ha.1 ha.2 hs
        exact h2.symm
    exact ih hnext k1 (fun b hb => henv b (List.mem_cons_of_mem a hb)) (hok k2 hs) hr

/-! ## After `fork` -/

/-- The entry of the child is `PTE_COW` only if it is not `PTE_LIBRARY`. -/
lemma childEntry_exclusive (h : w &&& pteCow = 0 ∨ w &&& pteLibrary = 0) :
    childEntry w &&& pteCow = 0 ∨ childEntry w &&& pteLibrary = 0 := by
  unfold childEntry
  split_ifs with hdup
  · right
    have h1 : ~~~pteD &&& pteLibrary = pteLibrary := by decide
    have h2 : pteCow &&& pteLibrary = 0 := by decide
    rw [BitVec.and_comm, BitVec.and_or_distrib_left, BitVec.and_comm pteLibrary,
      BitVec.and_comm pteLibrary, BitVec.and_assoc, h1, h2, hdup.2]
    exact BitVec.or_zero
  · exact h

/-- It has `PTE_LIBRARY` if that of the parent has. -/
lemma childEntry_library (h : w &&& pteLibrary ≠ 0) : childEntry w = w := by
  unfold childEntry
  rw [if_neg fun hc => h hc.2]

/-- Otherwise it has no `PTE_D`. -/
lemma childEntry_dirty (h : w &&& pteLibrary = 0) : childEntry w &&& pteD = 0 := by
  unfold childEntry
  split_ifs with hdup
  · have h1 : ~~~pteD &&& pteD = 0 := by decide
    have h2 : pteCow &&& pteD = 0 := by decide
    rw [BitVec.and_comm, BitVec.and_or_distrib_left, BitVec.and_comm pteD,
      BitVec.and_comm pteD, BitVec.and_assoc, h1, h2]
    simp
  · by_contra hD
    exact hdup ⟨hD, h⟩

section AfterFork

variable (h : Forked M P P' c r D K q rest) (hlog : ∀ y ∈ P'.results, 0 ≤ y.toInt)

include h hlog

/-- Below `USTACKTOP` both have the entries that the child should have. -/
lemma Forked.entries (hva : va < ustacktop) :
    translate P'.kern.pm (P.kern.envs c).pgdir va =
        (translate P.kern.pm (P.kern.envs c).pgdir va).map childEntry ∧
      translate P'.kern.pm q va =
        (translate P.kern.pm (P.kern.envs c).pgdir va).map childEntry := by
  have hm := lt_ustacktop_iff.mp hva
  have hu : vpn va < userPages := hm.trans (by decide)
  have hpar := h.mem.parent _ hu
  have hchild := h.mem.child _ hu
  rw [← translate_eq_entryAt, ← translate_eq_entryAt] at hpar
  rw [← translate_eq_entryAt, ← translate_eq_entryAt] at hchild
  rcases hw : translate P.kern.pm (P.kern.envs c).pgdir va with _ | w
  · rw [hw] at hpar hchild
    simpa using And.intro hpar hchild
  · obtain ⟨hlow, hv⟩ := h.log hlog (vpn va) hm (by rw [← translate_eq_entryAt, hw]; simp)
    have hdup := dupped_userPages.mpr ⟨hlow, hm⟩
    rw [if_pos hdup, hw] at hpar
    rw [if_pos ⟨hdup, hv⟩, hw] at hchild
    exact ⟨hpar, hchild⟩

omit hlog in
/-- From `USTACKTOP` on the parent has kept its entries, and the child has none. -/
lemma Forked.entries_above (hva : va < utop) (hge : ¬ va < ustacktop) :
    translate P'.kern.pm (P.kern.envs c).pgdir va =
        translate P.kern.pm (P.kern.envs c).pgdir va ∧
      translate P'.kern.pm q va = none := by
  have hno : ¬ Dupped userPages (vpn va) := fun hd => hge (lt_ustacktop_iff.mpr hd.2.2)
  have hu := vpn_lt_userPages hva
  have hpar := h.mem.parent _ hu
  have hchild := h.mem.child _ hu
  rw [← translate_eq_entryAt, ← translate_eq_entryAt] at hpar
  rw [← translate_eq_entryAt, if_neg fun hd => hno hd.1] at hchild
  rw [if_neg hno] at hpar
  exact ⟨hpar, hchild⟩

/-- **After a `fork` in which every call succeeds the address spaces are separated.** -/
theorem Forked.separated (hc : CowState M P.kern c D K) :
    Separated M P'.kern.pm (insert q D) K ∅ (P'.kern.envs c).pgdir
      (P'.kern.envs (envx r)).pgdir := by
  rw [h.parentDir, h.childDir]
  have hlt := fun va (hva : va < ustacktop) => h.entries hlog hva
  have hge := fun va (hva : va < utop) (hge : ¬ va < ustacktop) => h.entries_above hva hge
  have hustack : ucow < ustacktop := by decide
  refine ⟨h.mem.accounting, Finset.mem_insert_of_mem hc.dir, Finset.mem_insert_self q D,
    fun he => h.fresh (he ▸ hc.dir), ⟨fun va hva w hw => ?_, fun w hw => ?_⟩,
    ⟨fun va hva w hw => ?_, fun w hw => ?_⟩, fun va va' hva hva' w w' hw hw' he => ?_,
    fun va hva w _ => ?_⟩
  · by_cases hs : va < ustacktop
    · rw [(hlt va hs).1, Option.map_eq_some_iff] at hw
      obtain ⟨w0, hw0, rfl⟩ := hw
      exact childEntry_exclusive (hc.exclusive va hva w0 hw0)
    · rw [(hge va hva hs).1] at hw
      exact hc.exclusive va hva w hw
  · rw [(hlt ucow hustack).1, hc.ucow] at hw
    simp at hw
  · by_cases hs : va < ustacktop
    · rw [(hlt va hs).2, Option.map_eq_some_iff] at hw
      obtain ⟨w0, hw0, rfl⟩ := hw
      exact childEntry_exclusive (hc.exclusive va hva w0 hw0)
    · rw [(hge va hva hs).2] at hw
      simp at hw
  · rw [(hlt ucow hustack).2, hc.ucow] at hw
    simp at hw
  · -- the entry of the child comes from the parent
    have hs' : va' < ustacktop := by
      by_contra hs'
      rw [(hge va' hva' hs').2] at hw'
      simp at hw'
    rw [(hlt va' hs').2, Option.map_eq_some_iff] at hw'
    obtain ⟨w0', hw0', rfl⟩ := hw'
    by_cases hl : w0' &&& pteLibrary = 0
    · -- a private page: it is mapped once in the parent
      right
      obtain ⟨w0, hw0, hp0⟩ : ∃ w0, translate P.kern.pm (P.kern.envs c).pgdir va = some w0 ∧
          ppn w0 = ppn w := by
        by_cases hs : va < ustacktop
        · rw [(hlt va hs).1, Option.map_eq_some_iff] at hw
          obtain ⟨w0, hw0, rfl⟩ := hw
          exact ⟨w0, hw0, (ppn_childEntry (translate_eq_some_iff.mp hw0).2.2).symm⟩
        · rw [(hge va hva hs).1] at hw
          exact ⟨w, hw, rfl⟩
      have hpage := hc.single va' hs' w0' hw0' hl va hva w0 hw0 (by
        rw [hp0, he, ppn_childEntry (translate_eq_some_iff.mp hw0').2.2])
      rw [translate_congr_vpn hpage, (hlt va' hs').1, hw0', Option.map_some,
        Option.some.injEq] at hw
      rw [← hw]
      exact ⟨childEntry_dirty hl, childEntry_dirty hl⟩
    · rw [childEntry_library hl]
      exact Or.inl (Or.inr hl)
  · rw [(hlt va hva).1, (hlt va hva).2]

/-- They read the same bytes below `USTACKTOP`. -/
theorem Forked.readSame : ReadSame P'.kern c (envx r) := by
  intro va hva
  obtain ⟨h1, h2⟩ := h.entries hlog hva
  unfold Kern.reads readByte
  rw [h.parentDir, h.childDir, h1, h2]

end AfterFork

/-- **Copy-on-write isolation.** When `fork` returns a child and every call has succeeded, parent
and child read the same bytes below `USTACKTOP`, and along every sequence of harmless stores what
one of them stores is seen by the other on shared pages only, where they read the same bytes. -/
theorem isolated_of_fork (h : CowState M P.kern c D K) (hr : fork M P cow = .ok (r, P'))
    (hpos : 0 < r.toInt) (hlog : ∀ y ∈ P'.results, 0 ≤ y.toInt) :
    ReadSame P'.kern c (envx r) ∧
      Isolated M (HarmlessStore (insert (P'.kern.envs (envx r)).pgdir D)) P'.kern c (envx r) := by
  obtain ⟨q, rest, hf⟩ := fork_result h.toForkState hr hpos
  have hs := hf.separated hlog h
  rw [hf.childDir] at hs ⊢
  exact ⟨hf.readSame hlog, Separated.isolated (by rw [hf.childDir]; exact hs)⟩

/-! ## A run -/

/-- The memory of a parent that has one page, at `UTEXT`. -/
def cowMem : PhysMem :=
  match pageInsert smallMachine (smallMem.takeFree 7 [6, 5, 4, 3, 2]) 0 0 7 (pteAddr 0x400000#32)
    pteD with
  | .ok (_, s) => s
  | .error _ => smallMem

lemma cowMem_eq : pageInsert smallMachine (smallMem.takeFree 7 [6, 5, 4, 3, 2]) 0 0 7
    (pteAddr 0x400000#32) pteD = .ok (0, cowMem) := rfl

/-- It maps that page only. -/
lemma cowMem_accounting : UserAccounting smallMachine cowMem {0} ∅ ∅ ∧
    ∀ va, va < utop → translate cowMem 0 va =
      if vpn va = 0x400 then some (mkPte 7 pteD) else none := by
  have hacc := smallMem_accounting.toUserAccounting
  have hd : (0 : ℕ) ∈ ({0} : Finset ℕ) := Finset.mem_singleton_self 0
  have hnone : ∀ {va}, translate smallMem 0 va = none := fun {va} =>
    translate_eq_none_iff.mpr fun hv => by
      rw [show smallMem.mem 0 (pdx va) = 0#32 from rfl, pteValid_zero] at hv
      exact absurd hv Bool.false_ne_true
  obtain ⟨-, hr, -⟩ | ⟨-, pm, hr, h', htr, -⟩ := insert_page hacc hd 0
    (by decide : (0x400000#32 : Word) < utop) hnone
    (rfl : smallMem.pageFreeList = [7, 6, 5, 4, 3, 2])
  · simp at hr
  rw [cowMem_eq, Except.ok.injEq, Prod.mk.injEq] at hr
  obtain ⟨-, rfl⟩ := hr
  refine ⟨h', fun va hva => ?_⟩
  have h400 : vpn 0x400000#32 = 0x400 := by decide
  rw [htr va (pdx_lt_of_lt_utop hva), h400, hnone]

/-- The parent may fork. -/
lemma cowMem_state : CowState smallMachine (soloKern cowMem) 0 {0} ∅ := by
  obtain ⟨hacc, htr⟩ := cowMem_accounting
  have hpage : ∀ va, va < utop → ∀ w, translate cowMem 0 va = some w →
      vpn va = 0x400 ∧ w = mkPte 7 pteD := by
    intro va hva w hw
    rw [htr va hva] at hw
    split_ifs at hw with hv
    exact ⟨hv, (Option.some.inj hw).symm⟩
  refine ⟨soloKern_state hacc, fun va hva w hw _ va' hva' w' hw' _ => ?_, fun va hva w hw => ?_, ?_⟩
  · rw [(hpage va (ustacktop_lt_utop hva) w hw).1, (hpage va' hva' w' hw').1]
  · rw [(hpage va hva w hw).2]
    exact Or.inl (by decide)
  · exact (htr ucow ucow_lt_utop).trans (if_neg (by decide))

/-- What `fork` returns there. -/
def cowFork : Word × Proc :=
  match fork smallMachine ⟨soloKern cowMem, []⟩ 0 with
  | .ok x => x
  | .error _ => (0, ⟨soloKern cowMem, []⟩)

/-- The child writes `PTE_D` to its entry for the page at `UTEXT`, through the window. -/
def forgeStore : ByteStore := ⟨1, 0x7fc01001#32, 0x76#8⟩

/-- The child then stores to the page. -/
def forgedStore : ByteStore := ⟨1, 0x400000#32, 0xab#8⟩

/-- The kernel after a store. -/
def afterStore (k : Kern) (a : ByteStore) : Kern :=
  match userStore smallMachine k a with
  | .ok (some k') => k'
  | _ => k

/-- The store goes through. -/
def storesOk (k : Kern) (a : ByteStore) : Bool :=
  match userStore smallMachine k a with
  | .ok (some _) => true
  | _ => false

/-- What this `fork` and the two stores come to, computed once. -/
lemma cowFork_facts : (match fork smallMachine ⟨soloKern cowMem, []⟩ 0 with
      | .ok _ => true | .error _ => false) = true ∧
    cowFork.1 = 0x1001#32 ∧ (cowFork.2.results.all fun y => decide (0 ≤ y.toInt)) = true ∧
    storesOk cowFork.2.kern forgeStore = true ∧
    storesOk (afterStore cowFork.2.kern forgeStore) forgedStore = true ∧
    (∀ e ∈ [(0 : EnvPtr), 1], (translate (afterStore cowFork.2.kern forgeStore).pm
      ((afterStore cowFork.2.kern forgeStore).envs e).pgdir 0x400000#32).map
        (· &&& pteLibrary) = some 0) ∧
    (afterStore (afterStore cowFork.2.kern forgeStore) forgedStore).reads 0 0x400000#32 ≠
      (afterStore cowFork.2.kern forgeStore).reads 0 0x400000#32 := by
  decide +kernel

lemma cowFork_eq : fork smallMachine ⟨soloKern cowMem, []⟩ 0 = .ok (cowFork.1, cowFork.2) := by
  have h := cowFork_facts.1
  unfold cowFork
  generalize fork smallMachine ⟨soloKern cowMem, []⟩ 0 = o at h ⊢
  cases o with
  | error => exact absurd h Bool.false_ne_true
  | ok => rfl

lemma cowFork_result : cowFork.1 = 0x1001#32 := cowFork_facts.2.1

lemma cowFork_log : ∀ y ∈ cowFork.2.results, 0 ≤ y.toInt := fun y hy =>
  of_decide_eq_true (List.all_eq_true.mp cowFork_facts.2.2.1 y hy)

/-- Parent and child of that `fork` are isolated. -/
theorem isolated_of_fork_solo : ∃ (P P' : Proc) (r : Word),
    fork smallMachine P 0 = .ok (r, P') ∧ ReadSame P'.kern 0 (envx r) ∧
      Isolated smallMachine (HarmlessStore (insert (P'.kern.envs (envx r)).pgdir {0})) P'.kern 0
        (envx r) :=
  ⟨⟨soloKern cowMem, []⟩, cowFork.2, cowFork.1, cowFork_eq,
    isolated_of_fork (P := ⟨soloKern cowMem, []⟩) cowMem_state cowFork_eq
      (by rw [cowFork_result]; decide) cowFork_log⟩

lemma afterStore_eq {k : Kern} {a : ByteStore} (h : storesOk k a = true) :
    userStore smallMachine k a = .ok (some (afterStore k a)) := by
  unfold storesOk at h
  unfold afterStore
  rcases hs : userStore smallMachine k a with halt | _ | k'
  · rw [hs] at h
    exact absurd h Bool.false_ne_true
  · rw [hs] at h
    exact absurd h Bool.false_ne_true
  · rfl

/-- The two stores of the child change a byte that the parent reads. -/
theorem window_forges_mapping : ¬ ∀ (M : Machine) (P P' : Proc) (c : EnvPtr) (D K : Finset ℕ)
    (cow r : Word), CowState M P.kern c D K → fork M P cow = .ok (r, P') → 0 < r.toInt →
      (∀ y ∈ P'.results, 0 ≤ y.toInt) →
        ReadSame P'.kern c (envx r) ∧ Isolated M (fun _ _ => True) P'.kern c (envx r) := by
  intro hall
  obtain ⟨-, hiso⟩ := hall smallMachine ⟨soloKern cowMem, []⟩ cowFork.2 0 {0} ∅ 0 cowFork.1
    cowMem_state cowFork_eq (by rw [cowFork_result]; decide) cowFork_log
  have henv : envx cowFork.1 = 1 := by rw [cowFork_result]; decide
  rw [henv] at hiso
  obtain ⟨-, -, -, hs1, hs2, hlib, hread⟩ := cowFork_facts
  have h1 := afterStore_eq hs1
  have h2 := afterStore_eq hs2
  have hrun : storeRun smallMachine cowFork.2.kern [forgeStore] =
      .ok (some (afterStore cowFork.2.kern forgeStore)) := by
    rw [storeRun, h1]
    rfl
  obtain ⟨-, hstep⟩ := hiso [forgeStore] _ (by simp [forgeStore]) ⟨trivial, fun _ _ => trivial⟩ hrun
  have hun := (hstep forgedStore _ trivial h2).2 rfl 0x400000#32 (by decide) ?_
  · exact absurd hun hread
  · rintro ⟨w, w', hw, hw', -, hl⟩
    have hchild := hlib 1 (by decide)
    have hparent := hlib 0 (by decide)
    rcases hl with hl | hl
    · have h0 := hchild.symm.trans (congrArg (Option.map (· &&& pteLibrary)) hw)
      exact hl (Option.some.inj h0).symm
    · have h0 := hparent.symm.trans (congrArg (Option.map (· &&& pteLibrary)) hw')
      exact hl (Option.some.inj h0).symm

end MosVolca
