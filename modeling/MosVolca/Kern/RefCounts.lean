import MosVolca.Kern.LegalMappings
import MosVolca.Kern.Leaks
import MosVolca.Kern.PageFault

/-!
# Counting references

`pp_ref` is a `u_short`. In a run of kernel entries and page faults it is the number of page table
entries that map the page, as long as no entry maps a page that has 65535 of them at one more
address.

## Main definitions

* `MosVolca.pteCount` — the number of page table entries that map a page.
* `MosVolca.KeepsCounts`, `MosVolca.Event.KeepsCounts` — the condition on an entry and on an event.

## Main results

* `MosVolca.OwnSpaces.step`, `MosVolca.RunSpaces.happens` — what meets the condition keeps the
  invariant.
* `MosVolca.refCount_of_run` — the counts in every state of a run.
-/

namespace MosVolca

open TwoLevel

/-- The number of page table entries of the page directory `d` that map the page `p`. -/
def dirPtes (s : PhysMem) (d p : ℕ) : ℕ :=
  ((Finset.range (pdx utop) ×ˢ Finset.range 1024).filter fun ij =>
    (translate s d (entryAddr ij.1 ij.2)).map ppn = some p).card

/-- The environments in use. -/
def liveEnvs (k : Kern) : Finset EnvPtr := Finset.univ.filter fun e => (k.envs e).status ≠ .free

/-- The number of page table entries that map the page `p` below `UTOP`. -/
def pteCount (k : Kern) (p : ℕ) : ℕ := ∑ e ∈ liveEnvs k, dirPtes k.pm (k.envs e).pgdir p

/-- The condition on an entry: a program that is loaded is linked below `UTOP`, the permission
argument of a mapping adds no bit to the page number, and the page is mapped there already or has
room for one more entry. -/
structure KeepsCounts (M : Machine) (k : Kern) (a : Entry) : Prop where
  linked : ∀ binary priority, a = .envCreate binary priority → ∀ image ∈ binary, image.Linked
  frame : ∀ e va pp perm, Intended M k a e va pp perm → KeepsFrame pp perm
  room : ∀ e va pp perm, Intended M k a e va pp perm →
    (translate k.pm (k.envs e).pgdir va).map ppn = some pp ∨ pteCount k pp + 1 < 2 ^ 16

/-- The condition on an event: that on its entry; a refill is at an address below `UTOP` or at one
that is mapped. -/
def Event.KeepsCounts (M : Machine) (k : Kern) : Event → Prop
  | .entry a => MosVolca.KeepsCounts M k a
  | .refill va => ∀ e, k.curenv = some e → va < utop ∨ translate k.pm (k.envs e).pgdir va ≠ none
  | .drop _ _ => True

/-- `cur_pgdir` is the page directory of the current environment. -/
def CurDir (k : Kern) : Prop := ∀ e, k.curenv = some e → k.curPgdir = (k.envs e).pgdir

/-- The environments in use own the page directories `D`, and the pages are accounted for. -/
structure OwnSpaces (M : Machine) (D K : Finset ℕ) (k : Kern) : Prop
    extends EnvSpaces M D K k where
  dirsLive : DirsLive D k

variable {M : Machine} {k k' : Kern} {s s' : PhysMem} {D K H : Finset ℕ} {d p pp i j n t : ℕ}
  {e : EnvPtr} {a : Entry} {o : Option Word} {asid envid r va perm w : Word}

/-! ## Entries and references -/

lemma mem_liveEnvs : e ∈ liveEnvs k ↔ (k.envs e).status ≠ .free := by
  unfold liveEnvs
  rw [Finset.mem_filter, and_iff_right (Finset.mem_univ e)]

lemma translate_entryAddr (hi : i < 1024) (hj : j < 1024) :
    translate s d (entryAddr i j) = (tableShape (pdx utop)).lookup s.mem d i j := by
  rw [translate_eq (pdx utop), pdx_entryAddr hi hj, ptx_entryAddr hi hj]

lemma dirPtes_eq_sum (s : PhysMem) (d p : ℕ) : dirPtes s d p =
    ∑ i ∈ Finset.range (pdx utop), ∑ j ∈ Finset.range 1024,
      if (translate s d (entryAddr i j)).map ppn = some p then 1 else 0 := by
  rw [dirPtes, Finset.card_filter, Finset.sum_product]

/-- The entries of a directory are its references to a page that is neither a directory nor a
table. -/
lemma dirPtes_eq (hd : d ∈ D) (hp : ¬ (tableShape (pdx utop)).Node s.mem D p) :
    dirPtes s d p = (tableShape (pdx utop)).dirRefs s.mem p d := by
  have hne : d ≠ p := fun he => hp (he ▸ Shape.Node.of_mem hd)
  unfold Shape.dirRefs
  rw [dirPtes_eq_sum, if_neg hne, Nat.zero_add]
  refine Finset.sum_congr rfl fun i hi => ?_
  have hi : i < pdx utop := Finset.mem_range.mp hi
  have hi' : i < 1024 := hi.trans (by decide)
  unfold Shape.slotRefs Shape.tableRefs
  rcases hv : (tableShape (pdx utop)).valid (s.mem d i) with _ | _
  · rw [Shape.ref_of_invalid hv, if_neg Bool.false_ne_true, Nat.add_zero]
    refine Finset.sum_eq_zero fun j hj => ?_
    rw [translate_entryAddr hi' (Finset.mem_range.mp hj), Shape.lookup, hv]
    simp
  · have hframe : (tableShape (pdx utop)).frame (s.mem d i) ≠ p := fun he =>
      hp (he ▸ Shape.Node.of_slot hd hi hv)
    rw [Shape.ref_of_ne hframe, if_pos rfl, Nat.zero_add]
    refine Finset.sum_congr rfl fun j hj => ?_
    rw [translate_entryAddr hi' (Finset.mem_range.mp hj), Shape.lookup, if_pos hv, Shape.ref]
    rcases hw : (tableShape (pdx utop)).valid (s.mem (ppn (s.mem d i)) j) with _ | _
    · simp only [tableShape_valid, tableShape_frame] at hw ⊢
      simp [hw]
    · simp only [tableShape_valid, tableShape_frame] at hw ⊢
      simp [hw]

lemma exists_of_dirPtes (h : 0 < dirPtes s d p) : ∃ i < pdx utop, ∃ j < 1024,
    (translate s d (entryAddr i j)).map ppn = some p := by
  rw [dirPtes_eq_sum, Finset.sum_pos_iff] at h
  obtain ⟨i, hi, hpos⟩ := h
  obtain ⟨j, hj, hpos⟩ := Finset.sum_pos_iff.mp hpos
  refine ⟨i, Finset.mem_range.mp hi, j, Finset.mem_range.mp hj, ?_⟩
  by_contra hne
  rw [if_neg hne] at hpos
  exact lt_irrefl 0 hpos

namespace OwnSpaces

variable (h : OwnSpaces M D K k)

include h

/-- The page directories are those of the environments in use, each once. -/
lemma sum_dirs (f : ℕ → ℕ) : ∑ d ∈ D, f d = ∑ e ∈ liveEnvs k, f (k.envs e).pgdir := by
  refine (Finset.sum_bij (fun e _ => (k.envs e).pgdir) (fun e he => ?_) (fun e he x hx heq => ?_)
    (fun d hd => ?_) fun e _ => rfl).symm
  · exact h.dir e (mem_liveEnvs.mp he)
  · exact h.pgdir_inj e x (mem_liveEnvs.mp he) (mem_liveEnvs.mp hx) heq
  · obtain ⟨e, he, hed⟩ := h.dirsLive d hd
    exact ⟨e, mem_liveEnvs.mpr he, hed⟩

/-- The references to a page that is neither a directory nor a table are the entries that map
it. -/
lemma pageRefs_eq (hp : ¬ (tableShape (pdx utop)).Node k.pm.mem D p) :
    pageRefs k.pm D p = pteCount k p := by
  unfold pageRefs Shape.refCount pteCount
  rw [h.sum_dirs]
  refine Finset.sum_congr rfl fun e he => ?_
  exact (dirPtes_eq (h.dir e (mem_liveEnvs.mp he)) hp).symm

/-- A page that is mapped by some entry. -/
lemma leaf_of_pteCount (hp : 0 < pteCount k p) : (tableShape (pdx utop)).Leaf k.pm.mem D p := by
  unfold pteCount at hp
  obtain ⟨e, he, hpos⟩ := Finset.sum_pos_iff.mp hp
  obtain ⟨i, hi, j, hj, hmap⟩ := exists_of_dirPtes hpos
  obtain ⟨w, hw, rfl⟩ := Option.map_eq_some_iff.mp hmap
  refine leaf_of_translate (h.dir e (mem_liveEnvs.mp he)) ?_ hw
  rwa [pdx_entryAddr (hi.trans (by decide)) hj]

/-- **While no page has 2^16 references, the count of a mapped page is the number of its
entries**, and it is not free. -/
lemma ppRef_eq (hp : 0 < pteCount k p) :
    (k.pm.ppRef p).toNat = pteCount k p ∧ p ∉ k.pm.pageFreeList := by
  have hleaf := h.leaf_of_pteCount hp
  have hins := h.pages.insertable_of_leaf hleaf
  have hge : M.Tracked p := ⟨h.pages.leaf_ge p hleaf, hins.lt⟩
  have heq := h.pageRefs_eq hins.not_node
  refine ⟨?_, hins.not_free⟩
  rw [h.pages.ppRef_toNat hge hins.not_kept (h.pages.bounded p hge), ← heq]
  rfl

end OwnSpaces

/-! ## One entry -/

section Memory

variable (h : OwnSpaces M D K k)

include h

/-- Only the memory changes. -/
lemma OwnSpaces.changeMem {pm : PhysMem} {K' : Finset ℕ} (hp : PageAccounting M pm D K' ∅) :
    OwnSpaces M D K' { k with pm := pm } :=
  ⟨⟨⟨hp, h.dir, h.cur, h.dstva⟩,
    h.toEnvTable.congr rfl rfl (fun _ => Iff.rfl) fun _ _ => ⟨rfl, rfl, rfl⟩, h.ge⟩, h.dirsLive⟩

/-- `page_insert` for an environment in use. -/
lemma OwnSpaces.pageInsert {pm : PhysMem} (hd : d ∈ D) (hva : va < utop)
    (hins : Insertable M (pdx utop) k.pm D K pp) (hge : M.bootPages ≤ pp)
    (hframe : KeepsFrame pp perm)
    (hroom : (translate k.pm d va).map ppn = some pp ∨ pteCount k pp + 1 < 2 ^ 16)
    (hr : MosVolca.pageInsert M k.pm d asid pp va perm = .ok (r, pm)) :
    OwnSpaces M D K { k with pm := pm } := by
  have hi := pdx_lt_of_lt_utop hva
  have hfr : ppn (mkPte pp perm) = pp := (ppn_mkPte (hins.lt.trans M.npage_lt) perm).trans hframe
  have hroom' : (translate k.pm d va).map ppn = some pp ∨ pageRefs k.pm D pp + 1 < 2 ^ 16 := by
    rwa [h.pageRefs_eq hins.not_node]
  rcases h.pages.pageInsert_returns asid pp perm hd hi fun w hw _ => h.pages.ppRef_ne_zero hd hi hw
    with ⟨-, -, hr'⟩ | ⟨-, s, hr'⟩
  · rw [hr', Except.ok.injEq, Prod.mk.injEq] at hr
    exact hr.2 ▸ h.changeMem (h.pages.tlbInvalidate _ _)
  · obtain ⟨rfl, rfl⟩ := Prod.ext_iff.mp (Except.ok.inj (hr'.symm.trans hr))
    have hp := h.pages.pageInsert hd hi hins hge hfr hroom' hr'
    rw [Finset.erase_empty] at hp
    exact h.changeMem hp

/-- `sys_mem_alloc` keeps the pages accounted for. -/
lemma OwnSpaces.sysMemAlloc (hk : KeepsCounts M k (.memAlloc envid va perm))
    (hs : sysMemAlloc M k envid va perm = .ok (r, k')) :
    ∃ K', OwnSpaces M D K' k' ∧ K ⊆ K' := by
  rcases sysMemAlloc_cases hs with ⟨-, rfl⟩ | ⟨e, pp, pm1, pm', hva, hid, hp, hins, rfl⟩
  · exact ⟨K, h, Finset.Subset.refl K⟩
  have hi := pdx_of_legal hva
  obtain ⟨h1, -, -⟩ := h.pages.pageAlloc hp
  have hmem : pp ∈ insert pp (∅ : Finset ℕ) := Finset.mem_insert_self pp ∅
  have hheld := h1.held pp hmem
  have herase : (insert pp (∅ : Finset ℕ)).erase pp = ∅ := by simp
  have hfr : ppn (mkPte pp perm) = pp :=
    (ppn_mkPte (hheld.1.2.trans M.npage_lt) perm).trans (hk.frame _ _ _ _ (.memAlloc hid hp))
  have h0 : pageRefs pm1 D pp = 0 := hheld.2.2
  have hd := h.dir_mem hid
  rcases h1.pageInsert_returns (k.envs e).asid pp perm hd hi fun w hw _ =>
    h1.ppRef_ne_zero hd hi hw with ⟨-, -, hr'⟩ | ⟨-, s, hr'⟩
  · -- the new page is lost
    obtain ⟨-, rfl⟩ := Prod.ext_iff.mp (Except.ok.inj (hr'.symm.trans hins))
    have hkeep := (h1.keep hmem).tlbInvalidate (k.envs e).asid va
    rw [herase] at hkeep
    exact ⟨insert pp K, h.changeMem hkeep, Finset.subset_insert pp K⟩
  · obtain ⟨rfl, rfl⟩ := Prod.ext_iff.mp (Except.ok.inj (hr'.symm.trans hins))
    have hpages := h1.pageInsert hd hi (h1.insertable_of_held hmem) hheld.1.1 hfr
      (Or.inr (by rw [h0]; decide)) hr'
    rw [herase] at hpages
    exact ⟨K, h.changeMem hpages, Finset.Subset.refl K⟩

/-- `sys_mem_map` keeps the pages accounted for. -/
lemma OwnSpaces.sysMemMap {srcid srcva dstid dstva : Word}
    (hk : KeepsCounts M k (.memMap srcid srcva dstid dstva perm))
    (hs : sysMemMap M k srcid srcva dstid dstva perm = .ok (r, k')) : OwnSpaces M D K k' := by
  rcases sysMemMap_cases hs with ⟨-, rfl⟩ | ⟨src, dst, pp, pte, pm', hsrc, hdst, hids, hidd, hl,
    hins, rfl⟩
  · exact h
  have hint : Intended M k (.memMap srcid srcva dstid dstva perm) dst dstva pp perm :=
    .memMap hids hidd hl
  obtain ⟨hi1, hge⟩ := h.pages.insertable_of_lookup (h.dir_mem hids) (pdx_of_legal hsrc) hl
  exact h.pageInsert (h.dir_mem hidd) (legal_bounds hdst).2 hi1 hge (hk.frame _ _ _ _ hint)
    (hk.room _ _ _ _ hint) hins

/-- `sys_mem_unmap` keeps the pages accounted for. -/
lemma OwnSpaces.sysMemUnmap (hs : sysMemUnmap M k envid va = .ok (r, k')) :
    OwnSpaces M D K k' := by
  rcases sysMemUnmap_cases hs with ⟨-, rfl⟩ | ⟨e, pm', hva, hid, hrem, -, rfl⟩
  · exact h
  · exact h.changeMem (h.pages.pageRemove (h.dir_mem hid) (pdx_of_legal hva) hrem)

/-- The environments change, but for what the table says about them. -/
lemma OwnSpaces.changeEnvs (hpm : k'.pm = k.pm) (hfree : k'.envFreeList = k.envFreeList)
    (hbits : k'.asidBitmap = k.asidBitmap)
    (hst : ∀ x, (k'.envs x).status = .free ↔ (k.envs x).status = .free)
    (henv : ∀ x, (k'.envs x).id = (k.envs x).id ∧ (k'.envs x).asid = (k.envs x).asid ∧
      (k'.envs x).pgdir = (k.envs x).pgdir)
    (hcur : ∀ x, k'.curenv = some x → (k.envs x).status ≠ .free)
    (hrecv : ∀ x, (k'.envs x).ipcRecving ≠ 0 → (k'.envs x).ipcDstva < utop) :
    OwnSpaces M D K k' :=
  ⟨h.toEnvSpaces.changeEnvs hpm hfree hbits hst henv hcur hrecv,
    h.dirsLive.congr fun x hx => ⟨mt (hst x).mp hx, (henv x).2.2⟩⟩

/-- `sys_ipc_recv` notes a legal address, or 0. -/
lemma OwnSpaces.sysIpcRecv {dstva : Word} (hs : sysIpcRecv k dstva = .ok (o, k')) :
    OwnSpaces M D K k' := by
  rcases sysIpcRecv_cases hs with ⟨-, rfl⟩ | ⟨cur, q, hva, -, hc, -, hsched⟩
  · exact h
  obtain ⟨c, hd⟩ := schedule_dispatched hsched
  suffices hset : OwnSpaces M D K (k.waiting cur dstva q) from
    ⟨hset.toEnvSpaces.dispatched hd, hset.dirsLive.dispatched hd⟩
  refine h.changeEnvs rfl rfl rfl (Kern.waiting_free_iff (h.cur cur hc) dstva q) ?_ h.cur ?_
  · exact Kern.forall_waiting (P := fun x y => y.id = (k.envs x).id ∧ y.asid = (k.envs x).asid ∧
      y.pgdir = (k.envs x).pgdir) ⟨rfl, rfl, rfl⟩ fun _ _ => ⟨rfl, rfl, rfl⟩
  · exact Kern.forall_waiting (P := fun _ y => y.ipcRecving ≠ 0 → y.ipcDstva < utop)
      (fun _ => (recv_bounds hva).1) fun x _ => h.dstva x

/-- The receiver of a message stays in use and waits no more. -/
lemma OwnSpaces.received (he : (k.envs e).status ≠ .free) (cur : EnvPtr) (value perm : Word)
    (q : TailQueue.TailQ EnvPtr) :
    OwnSpaces M D K { k.received e cur value perm with envSchedList := q } := by
  refine h.changeEnvs rfl rfl rfl (Kern.received_free_iff he cur value perm) ?_ h.cur ?_
  · exact Kern.forall_received (P := fun x y => y.id = (k.envs x).id ∧ y.asid = (k.envs x).asid ∧
      y.pgdir = (k.envs x).pgdir) ⟨rfl, rfl, rfl⟩ fun _ _ => ⟨rfl, rfl, rfl⟩
  · exact Kern.forall_received (P := fun _ y => y.ipcRecving ≠ 0 → y.ipcDstva < utop)
      (fun hx => absurd rfl hx) fun x _ => h.dstva x

/-- `sys_ipc_try_send` keeps the pages accounted for. -/
lemma OwnSpaces.sysIpcTrySend {value srcva : Word}
    (hk : KeepsCounts M k (.ipcTrySend envid value srcva perm))
    (hs : sysIpcTrySend M k envid value srcva perm = .ok (r, k')) : OwnSpaces M D K k' := by
  rcases sysIpcTrySend_cases hs with ⟨rfl, -⟩ | ⟨e, cur, q, hva, hid, hrecv, hc, -, hk'⟩
  · exact h
  have hlive := h.toEnvSpaces.live hid
  rcases hk' with ⟨-, -, rfl⟩ | ⟨-, -, -, rfl⟩ | ⟨pp, pte, pm', h0, hl, hins, rfl⟩
  · exact h.received hlive cur value perm q
  · exact h.received hlive cur value perm q
  · have hint : Intended M k (.ipcTrySend envid value srcva perm) e (k.envs e).ipcDstva pp perm :=
      .ipcTrySend h0 hid hc hl
    obtain ⟨hi1, hge⟩ := h.pages.insertable_of_lookup (h.dir cur (h.cur cur hc))
      (pdx_of_legal (hva.resolve_left h0)) hl
    have hmap := h.pageInsert (h.dir e hlive) (h.dstva e hrecv) hi1 hge (hk.frame _ _ _ _ hint)
      (hk.room _ _ _ _ hint) hins
    exact hmap.received hlive cur value perm q

end Memory

/-- **An entry keeps the counts** under its condition. -/
theorem OwnSpaces.step (h : OwnSpaces M D K k) (hk : KeepsCounts M k a)
    (hs : enter M k a = .ok (o, k')) : ∃ D' K', OwnSpaces M D' K' k' ∧ K ⊆ K' := by
  have htable : TableEntry a → ∃ D' K', OwnSpaces M D' K' k' ∧ K ⊆ K' := fun ha => by
    obtain ⟨D', K', h', hK, hl⟩ := h.toEnvSpaces.step ha hs
    exact ⟨D', K', ⟨h', hl h.dirsLive⟩, hK⟩
  have hK := Finset.Subset.refl K
  cases a with
  | envCreate binary priority => exact htable (hk.linked binary priority rfl)
  | timer | yield | envDestroy _ | setTlbModEntry _ _ | exofork | setEnvStatus _ _ =>
    exact htable trivial
  | memAlloc envid va perm =>
    obtain ⟨r, hs⟩ := returning_eq_ok hs
    exact ⟨D, h.sysMemAlloc hk hs⟩
  | memMap srcid srcva dstid dstva perm =>
    obtain ⟨r, hs⟩ := returning_eq_ok hs
    exact ⟨D, K, h.sysMemMap hk hs, hK⟩
  | memUnmap envid va =>
    obtain ⟨r, hs⟩ := returning_eq_ok hs
    exact ⟨D, K, h.sysMemUnmap hs, hK⟩
  | ipcRecv dstva => exact ⟨D, K, h.sysIpcRecv hs, hK⟩
  | ipcTrySend envid value srcva perm =>
    obtain ⟨r, hs⟩ := returning_eq_ok hs
    exact ⟨D, K, h.sysIpcTrySend hk hs, hK⟩

/-! ## Page faults -/

/-- A refill keeps the counts: a new page has no entry yet. -/
lemma OwnSpaces.refill (h : OwnSpaces M D K k) (hd : d ∈ D)
    (hva : va < utop ∨ translate k.pm d va ≠ none)
    (hr : RefillsTo M k.pm d va asid (.ok (w, s'))) :
    OwnSpaces M D K { k with pm := s'.tlbWrite asid va w } := by
  rcases refill_cases h.pages.toUserAccounting hd hva hr with ⟨rfl, -⟩ |
    ⟨hva, hnone, q, s1, -, halloc, hins⟩
  · exact h.changeMem (h.pages.tlb _)
  have hi : pdx (pteAddr va) < pdx utop := by
    rw [pdx_pteAddr]
    exact pdx_lt_of_lt_utop hva
  obtain ⟨h1, -, -⟩ := h.pages.pageAlloc halloc
  have hmem : q ∈ insert q (∅ : Finset ℕ) := Finset.mem_insert_self q ∅
  have hheld := h1.held q hmem
  have hfr : ppn (mkPte q pteD) = q := ppn_mkPte_of_lt (hheld.1.2.trans M.npage_lt) (by decide)
  have h0 : pageRefs s1 D q = 0 := hheld.2.2
  have hpages := h1.pageInsert hd hi (h1.insertable_of_held hmem) hheld.1.1 hfr
    (Or.inr (by rw [h0]; decide)) hins
  rw [show (insert q (∅ : Finset ℕ)).erase q = ∅ by simp] at hpages
  exact h.changeMem (hpages.tlb _)

/-- The current environment and `cur_pgdir` stay, and so does its page directory. -/
lemma CurDir.congr (h : CurDir k) (hcur : k'.curenv = k.curenv) (hdir : k'.curPgdir = k.curPgdir)
    (henv : ∀ e, k.curenv = some e → (k'.envs e).pgdir = (k.envs e).pgdir) : CurDir k' := by
  intro e he
  rw [hcur] at he
  rw [hdir, henv e he]
  exact h e he

lemma Dispatched.curDir (h : Dispatched k k' e) : CurDir k' := by
  intro x hx
  obtain rfl : e = x := by simpa [h.cur] using hx
  obtain ⟨tf, runs, hy⟩ := h.envs e
  rw [h.curPgdir, hy]

/-- `env_alloc` keeps `cur_pgdir` and the template, and changes the first free environment only. -/
lemma envAlloc_fixed {parentId : Word} {o : Except Word EnvPtr}
    (h : envAlloc M k parentId = .ok (o, k')) :
    k'.basePgdir = k.basePgdir ∧ k'.curenv = k.curenv ∧ k'.curPgdir = k.curPgdir ∧
      (∀ x ∉ k.envFreeList, k'.envs x = k.envs x) ∧ ∀ e, o = .ok e → e ∈ k.envFreeList := by
  rcases envAlloc_frame h with ⟨r, rfl, rfl⟩ |
    ⟨e, frest, x, pm, bitmap, free, he, rfl, -, -, -, ho⟩
  · exact ⟨rfl, rfl, rfl, fun _ _ => rfl, fun e he => by simp at he⟩
  · have hmem : e ∈ k.envFreeList := by
      rw [he]
      exact List.mem_cons_self
    have hne : ∀ y ∉ k.envFreeList, y ≠ e := fun y hy hc => hy (by rw [hc]; exact hmem)
    refine ⟨rfl, rfl, rfl, fun y hy => Function.update_of_ne (hne y hy) _ _, fun y hy => ?_⟩
    rcases ho with ⟨r, rfl, -⟩ | ⟨rfl, -, -⟩
    · simp at hy
    · obtain rfl : e = y := by simpa using hy
      exact hmem

/-- **An entry keeps the template**, and `cur_pgdir` is that of the current environment after it
if it was before. -/
lemma OwnSpaces.enter_fixed (h : OwnSpaces M D K k) (hs : enter M k a = .ok (o, k')) :
    k'.basePgdir = k.basePgdir ∧ (CurDir k → CurDir k') := by
  have hused : ∀ x, k.curenv = some x → x ∉ k.envFreeList := fun x hx =>
    mt (h.free_mem x).mp (h.cur x hx)
  have hschedule : ∀ {k1 : Kern} {yield : Bool}, schedule k1 yield = .ok k' →
      k'.basePgdir = k1.basePgdir ∧ CurDir k' := fun hr => by
    obtain ⟨c, hd⟩ := schedule_dispatched hr
    exact ⟨hd.base, hd.curDir⟩
  cases a with
  | envCreate binary priority =>
    obtain ⟨⟨e, k1⟩, hc, hs⟩ := bind_eq_ok.mp hs
    obtain ⟨-, rfl⟩ := pure_pair_inj hs
    obtain ⟨k2, pm, epc, k3, halloc, rfl, rfl⟩ := envCreate_cases hc
    obtain ⟨hbase, hcur, hdir, hother, hmem⟩ := envAlloc_fixed halloc
    refine ⟨hbase, fun hk => hk.congr hcur hdir fun x hx => ?_⟩
    have hxe : x ≠ e := fun hc => hused x hx (by rw [hc]; exact hmem e rfl)
    simp [Kern.setEnv, hxe, hother x (hused x hx)]
  | timer | yield =>
    obtain ⟨_, hr⟩ := enter_schedules hs trivial
    exact (hschedule hr).imp_right fun hc _ => hc
  | envDestroy envid =>
    rcases sysEnvDestroy_cases hs with ⟨-, rfl⟩ | ⟨e, returned, hid, hd, -⟩
    · exact ⟨rfl, id⟩
    obtain ⟨k1, hfree, hd⟩ := envDestroy_cases hd
    obtain ⟨pm, q, -, -, rfl⟩ := envFree_frame hfree
    rcases hd with ⟨-, -, hr⟩ | ⟨hcur, -, rfl⟩
    · exact (hschedule hr).imp_right fun hc _ => hc
    · refine ⟨rfl, fun hk => hk.congr rfl rfl fun x hx => ?_⟩
      have hxe : x ≠ e := fun hc => hcur (by rw [← hc]; exact hx)
      change (Function.update k.envs e _ x).pgdir = _
      rw [Function.update_of_ne hxe]
  | setTlbModEntry envid func =>
    obtain ⟨r, hs⟩ := returning_eq_ok hs
    rcases sysSetTlbModEntry_cases hs with ⟨-, rfl⟩ | ⟨e, hid, -, rfl⟩
    · exact ⟨rfl, id⟩
    · exact ⟨rfl, fun hk => hk.congr rfl rfl fun x _ => k.setEnv_keeps e _ Env.pgdir rfl x⟩
  | memAlloc | memMap | memUnmap =>
    obtain ⟨_, rfl⟩ := enter_onMemory hs trivial
    exact ⟨rfl, id⟩
  | exofork =>
    obtain ⟨r, hs⟩ := returning_eq_ok hs
    obtain ⟨c, _, k2, -, halloc, hs⟩ := sysExofork_alloc hs
    obtain ⟨hbase, hcur, hdir, hother, hmem⟩ := envAlloc_fixed halloc
    rcases hs with ⟨-, rfl⟩ | ⟨e, rfl, -, rfl⟩
    · exact ⟨hbase, fun hk => hk.congr hcur hdir fun x hx => by rw [hother x (hused x hx)]⟩
    · refine ⟨hbase, fun hk => hk.congr hcur hdir fun x hx => ?_⟩
      have hxe : x ≠ e := fun hc => hused x hx (by rw [hc]; exact hmem e rfl)
      rw [Kern.setEnv_envs_of_ne _ _ hxe, hother x (hused x hx)]
  | setEnvStatus envid status =>
    obtain ⟨r, hs⟩ := returning_eq_ok hs
    rcases sysSetEnvStatus_cases hs with ⟨-, rfl⟩ | ⟨e, q, hid, -, -, rfl⟩
    · exact ⟨rfl, id⟩
    · exact ⟨rfl, fun hk => hk.congr rfl rfl fun x _ => Kern.setEnv_keeps _ e _ Env.pgdir rfl x⟩
  | ipcRecv dstva =>
    change MosVolca.sysIpcRecv k dstva = _ at hs
    rcases sysIpcRecv_cases hs with ⟨-, rfl⟩ | ⟨cur, q, -, -, -, -, hr⟩
    · exact ⟨rfl, id⟩
    · exact (hschedule hr).imp_right fun hc _ => hc
  | ipcTrySend envid value srcva perm =>
    obtain ⟨r, hs⟩ := returning_eq_ok hs
    rcases sysIpcTrySend_frame hs with rfl | ⟨e, cur, q, pm, -, -, -, -, rfl⟩
    · exact ⟨rfl, id⟩
    · exact ⟨rfl, fun hk => hk.congr rfl rfl fun x _ =>
        (k.received_fields e cur value perm x).1⟩

/-! ## Runs -/

variable {σ : ℕ → Kern} {ev : ℕ → Event} {mem : Store Word} {pm₀ : PhysMem} {ktf : Trapframe}

/-- The trap frame is not part of the invariant. -/
lemma OwnSpaces.trap (h : OwnSpaces M D K k) (tf : Trapframe) : OwnSpaces M D K (k.trap tf) :=
  h.changeEnvs rfl rfl rfl (fun _ => Iff.rfl) (fun _ => ⟨rfl, rfl, rfl⟩) h.cur h.dstva

lemma KeepsCounts.trap (hk : KeepsCounts M k a) (tf : Trapframe) : KeepsCounts M (k.trap tf) a := by
  have hint : ∀ {e va pp perm}, Intended M (k.trap tf) a e va pp perm →
      Intended M k a e va pp perm := fun h => by
    cases h with
    | memAlloc he hp => exact .memAlloc he hp
    | memMap hs hd hp => exact .memMap hs hd hp
    | ipcTrySend h0 he hc hp => exact .ipcTrySend h0 he hc hp
  exact ⟨hk.linked, fun e va pp perm h => hk.frame e va pp perm (hint h),
    fun e va pp perm h => hk.room e va pp perm (hint h)⟩

/-- **The invariant of a run**: the pages are accounted for, the kernel keeps the template, and
`cur_pgdir` is the page directory of the current environment. -/
structure RunSpaces (M : Machine) (D K : Finset ℕ) (k : Kern) : Prop
    extends OwnSpaces M D K k where
  curDir : CurDir k
  base_mem : k.basePgdir ∈ K

/-- A refill in the current environment. -/
lemma RunSpaces.refill (h : RunSpaces M D K k) (hc : k.curenv = some e)
    (hva : va < utop ∨ translate k.pm (k.envs e).pgdir va ≠ none)
    (hr : RefillsTo M k.pm k.curPgdir va asid (.ok (w, s'))) :
    OwnSpaces M D K { k with pm := s'.tlbWrite asid va w } := by
  have hdir := h.curDir e hc
  exact h.toOwnSpaces.refill (hdir ▸ h.dir e (h.cur e hc)) (hdir ▸ hva) hr

/-- **An event keeps the counts** under its condition. -/
theorem RunSpaces.happens {ev : Event} (h : RunSpaces M D K k) (hk : ev.KeepsCounts M k)
    (hs : Happens M k ev k') : ∃ D' K', RunSpaces M D' K' k' := by
  cases hs with
  | @entry a tf r k' hs =>
    obtain ⟨D', K', h', hK⟩ := (h.toOwnSpaces.trap tf).step (hk.trap tf) hs
    obtain ⟨hbase, hcur⟩ := (h.toOwnSpaces.trap tf).enter_fixed hs
    exact ⟨D', K', h', hcur h.curDir, hbase ▸ hK h.base_mem⟩
  | refill hc hr => exact ⟨D, K, h.refill hc (hk _ hc) hr, h.curDir, h.base_mem⟩
  | drop => exact ⟨D, K, h.changeMem (h.pages.tlb _), h.curDir, h.base_mem⟩

/-- Every state of a run from the boot has its address spaces in order, if no count wraps. -/
lemma runSpaces_of_run (hM : M.BootLayout) (hinit : pageInit M mem = .ok pm₀)
    (hboot : envInit M pm₀ ktf = .ok (σ 0)) (hrun : EventRun M n σ ev)
    (hkeep : ∀ t < n, (ev t).KeepsCounts M (σ t)) : ∀ t ≤ n, ∃ D K, RunSpaces M D K (σ t) := by
  obtain ⟨pm, base, K, henv, hacc, -, ⟨hbase, -⟩, -⟩ := envInit_returns hM hinit ktf
  have hstart : σ 0 = Kern.boot pm base ktf := by simpa [henv] using hboot.symm
  intro t ht
  induction t with
  | zero =>
    rw [hstart]
    exact ⟨∅, K, ⟨envSpaces_boot hacc, fun d hd => absurd hd (Finset.notMem_empty d)⟩,
      fun e he => absurd he (by simp [Kern.boot]), hbase⟩
  | succ t ih =>
    obtain ⟨D', K', h⟩ := ih (by omega)
    exact h.happens (hkeep t (by omega)) (hrun t (by omega))

/-- **The reference counts.** In every state of a run of kernel entries and page faults from the
boot on in which no entry maps a page that has 65535 page table entries at one more address,
`pp_ref` of every mapped page is the number of its page table entries, and the page is not free. -/
theorem refCount_of_run (hM : M.BootLayout) (hinit : pageInit M mem = .ok pm₀)
    (hboot : envInit M pm₀ ktf = .ok (σ 0)) (hrun : EventRun M n σ ev)
    (hkeep : ∀ t < n, (ev t).KeepsCounts M (σ t)) : ∀ t ≤ n, ∀ p, 0 < pteCount (σ t) p →
      ((σ t).pm.ppRef p).toNat = pteCount (σ t) p ∧ p ∉ (σ t).pm.pageFreeList := by
  intro t ht p hp
  obtain ⟨D, K, h⟩ := runSpaces_of_run hM hinit hboot hrun hkeep t ht
  exact h.ppRef_eq hp

end MosVolca
