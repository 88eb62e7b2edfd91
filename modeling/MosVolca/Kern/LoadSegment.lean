import Mathlib.Data.List.GetD
import MosVolca.Kern.EnvTable
import MosVolca.Kern.Ipc
import MosVolca.Kern.UserCopy
import MosVolca.Lib.Elfloader

/-!
# Segments in the address space of an environment

`elf_load_seg` with the mapper of the kernel. On a memory with accounted pages, a call of
`load_icode_mapper` for an address below `UTOP` replaces one page of the address space of the
environment, so the segment is loaded exactly when the calls leave it in an abstract space.

## Main definitions

* `MosVolca.userSpace` — the bytes that an environment has at its addresses.

## Main results

* `MosVolca.loadIcodeMapper_space` — `load_icode_mapper` refines `mapCall`.
* `MosVolca.elfLoadSeg_loaded_iff` — when `elf_load_seg` loads the segment.
-/

namespace MosVolca

open TwoLevel

variable {M : Machine} {k k' : Kern} {s s' : PhysMem} {D K H : Finset ℕ} {d pp : ℕ} {e : EnvPtr}
  {asid r va perm w : Word} {page : ℕ → Word} {b : BitVec 8} {i o : ℕ} {c : MapperCall}
  {bytes : List (BitVec 8)}

/-! ## Bytes of a page -/

/-- The byte at offset `o` of a page. -/
def pageByte (page : ℕ → Word) (o : ℕ) : BitVec 8 := wordByte (page (o / 4)) (o % 4)

lemma getLsbD_ff {j : ℕ} : (0xff#32).getLsbD j = decide (j < 8) := by
  rcases Nat.lt_or_ge j 32 with hj | hj
  · interval_cases j <;> rfl
  · rw [BitVec.getLsbD_of_ge _ _ hj]
    exact (decide_eq_false (by omega)).symm

/-- Writing a byte of a word. -/
lemma wordByte_set (w : Word) (b : BitVec 8) {x y : ℕ} (hx : x < 4) (hy : y < 4) :
    wordByte ((w &&& ~~~(0xff#32 <<< (8 * x))) ||| (b.setWidth 32 <<< (8 * x))) y =
      if y = x then b else wordByte w y := by
  unfold wordByte
  apply BitVec.eq_of_getLsbD_eq
  intro j hj
  simp only [BitVec.getLsbD_setWidth, BitVec.getLsbD_ushiftRight, BitVec.getLsbD_or,
    BitVec.getLsbD_and, BitVec.getLsbD_not, BitVec.getLsbD_shiftLeft, getLsbD_ff]
  split_ifs with h
  · subst h
    have h1 : 8 * y + j < 32 := by omega
    have h2 : 8 * y + j - 8 * y = j := by omega
    simp [hj, h1, h2, show j < 32 by omega]
  · have h1 : 8 * y + j < 32 := by omega
    rcases Nat.lt_or_gt_of_ne h with hlt | hgt
    · simp [hj, h1, show 8 * y + j < 8 * x by omega]
    · have h2 : ¬ 8 * y + j - 8 * x < 8 := by omega
      have hb : b.getLsbD (8 * y + j - 8 * x) = false := BitVec.getLsbD_of_ge b _ (by omega)
      simp [hj, h1, h2, hb, show ¬ 8 * y + j < 8 * x by omega]

/-- Writing a byte of a page. -/
lemma pageByte_setByte : pageByte (setByte page i b) o = if o = i then b else pageByte page o := by
  unfold pageByte setByte
  by_cases hw : o / 4 = i / 4
  · rw [hw, Function.update_self, wordByte_set _ _ (Nat.mod_lt _ (by decide))
      (Nat.mod_lt _ (by decide))]
    have hiff : o % 4 = i % 4 ↔ o = i := by omega
    simp only [hiff]
  · rw [Function.update_of_ne hw, if_neg (by rintro rfl; exact hw rfl)]

/-- The bytes after `memcpy`. -/
lemma pageByte_copyBytes (bytes : List (BitVec 8)) (page : ℕ → Word) (i o : ℕ) :
    pageByte (copyBytes page i bytes) o =
      if i ≤ o ∧ o < i + bytes.length then bytes.getD (o - i) 0 else pageByte page o := by
  induction bytes generalizing page i with
  | nil => rw [copyBytes, if_neg (by simp)]
  | cons b bytes ih =>
    rw [copyBytes, ih, pageByte_setByte, List.length_cons]
    by_cases ho : o = i
    · subst ho
      rw [if_neg (by omega), if_pos rfl, if_pos (by omega), Nat.sub_self, List.getD_cons_zero]
    · rw [if_neg ho]
      by_cases hlt : i + 1 ≤ o ∧ o < i + 1 + bytes.length
      · have hs : o - i = o - (i + 1) + 1 := by omega
        rw [if_pos hlt, if_pos (by omega), hs, List.getD_cons_succ]
      · rw [if_neg hlt, if_neg (by omega)]

lemma pageByte_zero (h : ∀ i, page i = 0) (o : ℕ) : pageByte page o = 0 := by
  rw [pageByte, h, wordByte]
  simp

/-- A page of zeros to which the mapper has copied. -/
lemma pageByte_copy_eq (hzero : ∀ i, page i = 0) (hsrc : c.src = some bytes) (o : ℕ) :
    pageByte (copyBytes page c.offset bytes) o = callPage c o := by
  rw [pageByte_copyBytes, pageByte_zero hzero, callPage, hsrc]
  simp only
  split_ifs with h1 h2 h2
  · omega
  · rfl
  · rfl
  · rw [List.getD_eq_default _ _ (by omega)]

/-! ## The mapper -/

/-- The translations do not change with the contents of a held page. -/
lemma PageAccounting.translate_writeHeld {m : Store Word} (h : PageAccounting M s D K H)
    (hp : pp ∈ H) (hm : ∀ p, p ≠ pp → m p = s.mem p) (hd : d ∈ D) (hi : pdx va < pdx utop) :
    translate { s with mem := m } d va = translate s d va := by
  have hnode := Shape.not_node_of_refCount (h.held pp hp).2.2
  exact Shape.lookup_congr (T := tableShape (pdx utop))
    (congrFun (hm d fun he => hnode (he ▸ Shape.Node.of_mem hd)) _)
    fun hv => congrFun (hm _ fun he =>
      hnode (he ▸ Shape.Node.of_slot (T := tableShape (pdx utop)) hd hi hv)) _

/-- The page that `copySrc` leaves. -/
lemma copySrc_page {pm pm' : PhysMem} (hp : pp < M.npage) (hzero : ∀ i, pm.mem pp i = 0)
    (h : copySrc M pm pp c = .ok pm') : pageByte (pm'.mem pp) = callPage c := by
  funext o
  unfold copySrc at h
  split at h
  · rename_i hsrc
    obtain rfl : pm = pm' := Except.ok.inj h
    rw [pageByte_zero hzero, callPage, hsrc]
  · rename_i bytes hsrc
    obtain ⟨kva, hk, h⟩ := bind_eq_ok.mp h
    obtain ⟨-, rfl⟩ := (kaddr_page2pa_eq_ok (hp.trans M.npage_lt)).mp hk
    obtain rfl := Except.ok.inj h
    simp only [Function.update_self]
    exact pageByte_copy_eq hzero hsrc o

/-- `page_insert` takes one free page at most. -/
lemma Accounting.pageInsert_length {n : ℕ} (h : Accounting M n s D K H) (hd : d ∈ D)
    (hi : pdx va < n) (hr : pageInsert M s d asid pp va perm = .ok (0, s')) :
    s.pageFreeList.length ≤ s'.pageFreeList.length + 1 := by
  by_cases hv : pteValid (s.mem d (pdx va)) = true
  · rcases pageInsert_cases h.free_lt (h.table_ne_dir hd hi hv) hr with
      ⟨-, -, hr0, -⟩ | ⟨_, _, hv', -⟩ | ⟨-, -, -, -, rfl⟩ | ⟨-, -, -, -, -, -, rfl⟩ |
      ⟨-, -, -, -, -, -, -, rfl⟩
    · exact absurd hr0 (by decide)
    · exact absurd hv (Bool.eq_false_iff.mp hv')
    · exact Nat.le_succ _
    · exact Nat.le_succ _
    · change s.pageFreeList.length ≤ (decRef s (ppn (pteWord s d va))).pageFreeList.length + 1
      rw [decRef_pageFreeList]
      split_ifs
      · rw [List.length_cons]
        omega
      · exact Nat.le_succ _
  · obtain ⟨q, rest, hf, hrest, -⟩ := h.pageInsert_newTable hd (Bool.eq_false_iff.mpr hv) hr
    rw [hf, hrest, List.length_cons]

/-- The bytes that an environment has at its addresses. -/
def userSpace (k : Kern) (e : EnvPtr) : ByteSpace := fun v =>
  (translate k.pm (k.envs e).pgdir (BitVec.ofNat 32 (v * 4096))).map fun w =>
    pageByte (k.pm.mem (ppn w))

/-- Two spaces have the same bytes below `UTOP`. -/
def SameUser (S S' : ByteSpace) : Prop := ∀ v, v * 4096 < utop.toNat → S v = S' v

lemma SameUser.mapCall {S S' : ByteSpace} (h : SameUser S S') (c : MapperCall) :
    SameUser (mapCall S c) (mapCall S' c) := by
  intro v hv
  unfold MosVolca.mapCall Function.update
  split_ifs
  · rfl
  · exact h v hv

/-- The first byte of a page is an address below `UTOP`. -/
lemma page_lt_utop {v : ℕ} (hv : v * 4096 < utop.toNat) :
    BitVec.ofNat 32 (v * 4096) < utop ∧ vpn (BitVec.ofNat 32 (v * 4096)) = v := by
  rw [utop_toNat] at hv
  have hnat : (BitVec.ofNat 32 (v * 4096)).toNat = v * 4096 := by
    rw [BitVec.toNat_ofNat]
    omega
  refine ⟨?_, ?_⟩
  · rw [BitVec.lt_def, hnat, utop_toNat]
    exact hv
  · rw [vpn_eq_div, hnat]
    omega

/-- The bytes of an address space, by its page directory. -/
def spaceOf (pm : PhysMem) (d : ℕ) : ByteSpace := fun v =>
  (translate pm d (BitVec.ofNat 32 (v * 4096))).map fun w => pageByte (pm.mem (ppn w))

/-- The pages of an address space are not free. -/
lemma PageAccounting.ppn_ne_free {q : ℕ} {rest : List ℕ} (h : PageAccounting M s D K ∅) (hd : d ∈ D)
    (hi : pdx va < pdx utop) (hw : translate s d va = some w) (hf : s.pageFreeList = q :: rest) :
    ppn w ≠ q := by
  intro he
  have hpos := Shape.refCount_pos_of_leaf (leaf_of_translate hd hi hw)
  rw [he, (h.head_free hf).2.2.2] at hpos
  exact lt_irrefl 0 hpos

/-- **What `load_icode_mapper` does to the address spaces**: in that of the environment a new page with
the bytes of the call replaces the page of the address, and no other page below `UTOP` changes. -/
lemma loadIcodeMapper_spaces (h : PageAccounting M k.pm D K ∅) (hd : (k.envs e).pgdir ∈ D)
    (hva : c.va < utop) (hperm : c.perm < 4096#32)
    (hr : loadIcodeMapper M k e c = .ok (0, k')) (hd' : d ∈ D) :
    SameUser (spaceOf k'.pm d)
      (if d = (k.envs e).pgdir then mapCall (spaceOf k.pm d) c else spaceOf k.pm d) := by
  unfold loadIcodeMapper at hr
  obtain ⟨⟨o, pm⟩, halloc, hr⟩ := bind_eq_ok.mp hr
  rcases o with r | pp
  · simp at hr
  simp only [bind_eq_ok, pure_eq_ok, Except.ok.injEq, Prod.mk.injEq] at hr
  obtain ⟨pm1, hcopy, ⟨r, pm2⟩, hins, rfl, rfl⟩ := hr
  obtain ⟨h1, ⟨rest, hf⟩, htr1⟩ := h.pageAlloc halloc
  have hpmem : pp ∈ insert pp (∅ : Finset ℕ) := Finset.mem_insert_self pp ∅
  have hlt := (h1.held pp hpmem).1.2
  have hpm : pm = k.pm.takeFree pp rest := by
    rw [pageAlloc_cons hf hlt] at halloc
    exact (Prod.ext_iff.mp (Except.ok.inj halloc)).2.symm
  have hpage := copySrc_page hlt (fun i => by rw [hpm]; simp) hcopy
  obtain ⟨m, rfl, hm⟩ := copySrc_cases hlt hcopy
  have h2 := h1.writeHeld hpmem hm
  have h0 : pageRefs { pm with mem := m } D pp = 0 := (h2.held pp hpmem).2.2
  have hins2 := h2.insertable_of_held hpmem
  have hi := pdx_lt_of_lt_utop hva
  have hres := h2.pageInsert_result hd hi hins2 (h2.held pp hpmem).1.1 hperm
    (Or.inr (by rw [h0]; decide)) hins
  rcases hres with ⟨hr0, -⟩ | ⟨-, -, htr⟩
  · exact absurd hr0 (by decide)
  have hmem := (h2.toAccounting.pageInsert_mem hd hi hins).2
  intro v hv
  obtain ⟨hvlt, hvpn⟩ := page_lt_utop hv
  have hiv := pdx_lt_of_lt_utop hvlt
  have hvpn' : vpn c.va = c.va.toNat / 4096 := vpn_eq_div c.va
  have hold : translate { pm with mem := m } d (BitVec.ofNat 32 (v * 4096)) =
      translate k.pm d (BitVec.ofNat 32 (v * 4096)) := by
    rw [h1.translate_writeHeld hpmem hm hd' hiv, htr1 _ hd' _ hiv]
  -- an old page is not the new one, and not a page table
  have hkept : (translate k.pm d (BitVec.ofNat 32 (v * 4096))).map
      (fun w => pageByte (pm2.mem (ppn w))) = spaceOf k.pm d v := by
    refine Option.map_congr fun w hw => ?_
    have hleaf := h2.insertable_of_leaf (leaf_of_translate hd' hiv (hold.trans hw))
    have hne := h.ppn_ne_free hd' hiv hw hf
    have hkeep : k.pm.mem (ppn w) = pm.mem (ppn w) := by
      rw [hpm]
      exact funext fun i => (fill_of_ne hne).symm
    rw [hkeep, ← hm (ppn w) hne]
    exact congrArg pageByte (hmem (ppn w) hleaf.not_node hleaf.not_free)
  change (translate pm2 d (BitVec.ofNat 32 (v * 4096))).map
    (fun w => pageByte (pm2.mem (ppn w))) = _
  rw [htr _ hd' _ hiv, hvpn, hvpn', hold]
  by_cases hdir : d = (k.envs e).pgdir
  · rw [if_pos hdir, mapCall]
    by_cases hpv : v = c.va.toNat / 4096
    · -- the new page is the one that has been held, and it has not been written since
      have hself : pm2.mem pp = m pp := hmem pp hins2.not_node hins2.not_free
      rw [if_pos ⟨hdir, hpv⟩, hpv, Function.update_self, Option.map_some,
        ppn_mkPte_of_lt (hlt.trans M.npage_lt) hperm, hself]
      exact congrArg some hpage
    · rw [if_neg fun hc => hpv hc.2, Function.update_of_ne hpv, hkept]
  · rw [if_neg hdir, if_neg fun hc => hdir hc.1, hkept]

/-- **`load_icode_mapper` refines `mapCall`** in the address space of the environment. -/
theorem loadIcodeMapper_space (h : PageAccounting M k.pm D K ∅) (hd : (k.envs e).pgdir ∈ D)
    (hva : c.va < utop) (hperm : c.perm < 4096#32)
    (hr : loadIcodeMapper M k e c = .ok (0, k')) :
    SameUser (userSpace k' e) (mapCall (userSpace k e) c) := by
  have hspace := loadIcodeMapper_spaces h hd hva hperm hr hd
  rw [if_pos rfl] at hspace
  show SameUser (spaceOf k'.pm (k'.envs e).pgdir) _
  rw [(loadIcodeMapper_accounting h hd hva hperm hr).1]
  exact hspace

/-- With two free pages `load_icode_mapper` maps the page, and it takes no more than these. -/
lemma loadIcodeMapper_returns (h : PageAccounting M k.pm D K ∅) (hd : (k.envs e).pgdir ∈ D)
    (hva : c.va < utop) (hfree : 2 ≤ k.pm.pageFreeList.length) :
    ∃ k', loadIcodeMapper M k e c = .ok (0, k') ∧
      k.pm.pageFreeList.length ≤ k'.pm.pageFreeList.length + 2 := by
  obtain ⟨pp, rest, hf⟩ : ∃ pp rest, k.pm.pageFreeList = pp :: rest :=
    List.exists_cons_of_length_pos (by omega)
  have hlt := h.free_lt pp (by rw [hf]; exact List.mem_cons_self)
  have halloc := pageAlloc_cons hf hlt
  obtain ⟨h1, -, -⟩ := h.pageAlloc halloc
  have hpmem : pp ∈ insert pp (∅ : Finset ℕ) := Finset.mem_insert_self pp ∅
  obtain ⟨pm1, hcopy⟩ : ∃ pm1, copySrc M (k.pm.takeFree pp rest) pp c = .ok pm1 := by
    unfold copySrc
    split
    · exact ⟨_, rfl⟩
    · rw [(kaddr_page2pa_eq_ok (hlt.trans M.npage_lt)).mpr ⟨hlt, rfl⟩]
      exact ⟨_, rfl⟩
  obtain ⟨m, rfl, hm⟩ := copySrc_cases hlt hcopy
  have h2 := h1.writeHeld hpmem hm
  have hi := pdx_lt_of_lt_utop hva
  rcases h2.pageInsert_returns (k.envs e).asid pp c.perm hd hi fun w hw _ =>
    h2.ppRef_ne_zero hd hi hw with ⟨-, hnil, -⟩ | ⟨-, s', hins⟩
  · change rest = [] at hnil
    rw [hf, hnil, List.length_singleton] at hfree
    omega
  · refine ⟨{ k with pm := s' }, ?_, ?_⟩
    · unfold loadIcodeMapper
      rw [halloc]
      simp only [ok_bind, hcopy, hins]
      rfl
    · have hlen := h2.toAccounting.pageInsert_length hd hi hins
      change rest.length ≤ s'.pageFreeList.length + 1 at hlen
      rw [hf, List.length_cons]
      change rest.length + 1 ≤ s'.pageFreeList.length + 2
      omega

/-! ## The segment -/

/-- The calls refine what they do to an abstract space. -/
lemma runCalls_space (l : List MapperCall) {S : ByteSpace} (h : PageAccounting M k.pm D K ∅)
    (hd : (k.envs e).pgdir ∈ D) (hl : ∀ c ∈ l, c.va < utop ∧ c.perm < 4096#32)
    (hS : SameUser (userSpace k e) S)
    (hr : runCalls (fun k c => loadIcodeMapper M k e c) l k = .ok (0, k')) :
    SameUser (userSpace k' e) (l.foldl mapCall S) := by
  induction l generalizing k S with
  | nil =>
    rw [runCalls] at hr
    obtain rfl : k = k' := (Prod.ext_iff.mp (Except.ok.inj hr)).2
    exact hS
  | cons c l ih =>
    rw [runCalls] at hr
    obtain ⟨⟨r, k1⟩, hmap, hr⟩ := bind_eq_ok.mp hr
    obtain ⟨hva, hperm⟩ := hl c List.mem_cons_self
    simp only at hr
    split_ifs at hr with hr0
    · exact absurd (Prod.ext_iff.mp (Except.ok.inj hr)).1 hr0
    obtain rfl : r = 0 := not_not.mp hr0
    obtain ⟨henvs, h1⟩ := loadIcodeMapper_accounting h hd hva hperm hmap
    have hspace := loadIcodeMapper_space h hd hva hperm hmap
    refine ih h1 (henvs ▸ hd) (fun c hc => hl c (List.mem_cons_of_mem _ hc)) ?_ hr
    exact fun v hv => (hspace v hv).trans (hS.mapCall c v hv)

/-- With two free pages for each call, the calls succeed. -/
lemma runCalls_returns (l : List MapperCall) (h : PageAccounting M k.pm D K ∅)
    (hd : (k.envs e).pgdir ∈ D) (hl : ∀ c ∈ l, c.va < utop ∧ c.perm < 4096#32)
    (hfree : 2 * l.length ≤ k.pm.pageFreeList.length) :
    ∃ k', runCalls (fun k c => loadIcodeMapper M k e c) l k = .ok (0, k') := by
  induction l generalizing k with
  | nil => exact ⟨k, rfl⟩
  | cons c l ih =>
    rw [List.length_cons] at hfree
    obtain ⟨hva, hperm⟩ := hl c List.mem_cons_self
    obtain ⟨k1, hmap, hlen⟩ := loadIcodeMapper_returns h hd hva (by omega)
    obtain ⟨henvs, h1⟩ := loadIcodeMapper_accounting h hd hva hperm hmap
    obtain ⟨k', hr⟩ := ih h1 (henvs ▸ hd) (fun c hc => hl c (List.mem_cons_of_mem _ hc)) (by omega)
    refine ⟨k', ?_⟩
    rw [runCalls, hmap]
    exact hr

lemma Phdr.perm_lt (ph : Phdr) : ph.perm < 4096#32 := by
  unfold Phdr.perm
  split_ifs <;> decide

/-- The calls for a segment in user space are for pages below `UTOP`. -/
lemma segCalls_user {ph : Phdr} {bin : ℕ → BitVec 8} (hsize : ph.filesz.toNat ≤ ph.memsz.toNat)
    (huser : ph.vaddr.toNat + ph.memsz.toNat ≤ utop.toNat) (hc : c ∈ segCalls ph bin) :
    c.va < utop ∧ c.perm < 4096#32 := by
  have hutop := utop_toNat
  rcases mem_segCalls hsize hc with ⟨hp, j, hj, hva⟩ | ⟨hp, hva, hoff⟩
  · refine ⟨?_, hp ▸ ph.perm_lt⟩
    rw [BitVec.lt_def, hva, toNat_vaddr_add (by omega) hj]
    omega
  · refine ⟨?_, hp ▸ ph.perm_lt⟩
    unfold Phdr.offset at hoff
    rw [BitVec.lt_def, hva]
    omega

/-- `elf_load_seg` with `load_icode_mapper`, for a segment in user space. -/
lemma elfLoadSeg_user (ph : Phdr) (bin : ℕ → BitVec 8) (h : PageAccounting M k.pm D K ∅)
    (hd : (k.envs e).pgdir ∈ D) (hsize : ph.filesz.toNat ≤ ph.memsz.toNat)
    (huser : ph.vaddr.toNat + ph.memsz.toNat ≤ utop.toNat) :
    (2 * (ph.memsz.toNat / 4096 + 2) ≤ k.pm.pageFreeList.length →
        ∃ k', elfLoadSeg (fun k c => loadIcodeMapper M k e c) ph bin k = .ok (0, k')) ∧
      ∀ k', elfLoadSeg (fun k c => loadIcodeMapper M k e c) ph bin k = .ok (0, k') →
        (Loaded ph bin (userSpace k' e) ↔ SegmentFits ph bin (userSpace k e)) := by
  have hutop := utop_toNat
  have hwrap : ph.vaddr.toNat + ph.memsz.toNat ≤ 2 ^ 32 := by omega
  have hcalls : ∀ c ∈ segCalls ph bin, c.va < utop ∧ c.perm < 4096#32 :=
    fun c hc => segCalls_user hsize huser hc
  refine ⟨fun hfree => ?_, fun k' hr => ?_⟩
  · have hlen := length_segCalls bin hsize
    obtain ⟨k', hr⟩ := runCalls_returns (segCalls ph bin) h hd hcalls (by omega)
    exact ⟨k', by rw [elfLoadSeg_eq]; exact hr⟩
  · rw [elfLoadSeg_eq] at hr
    have hspace := runCalls_space (segCalls ph bin) h hd hcalls (fun _ _ => rfl) hr
    rw [← loaded_segCalls_iff (userSpace k e) hsize hwrap]
    refine forall₂_congr fun j hj => ?_
    have hpage : (ph.vaddr.toNat + j) / 4096 * 4096 < utop.toNat := by omega
    rw [ByteSpace.byteAt, ByteSpace.byteAt, hspace _ hpage]

/-- **Loading a segment**: after `elf_load_seg` returns 0, the segment is in the address space if
and only if it starts with a page, or its bytes of the file go to the end of its first page, or
there are no others, or they are zeros and no page is left out. This is so for any space with a
mapper that puts a new page in the place of the old one, and for an environment with
`load_icode_mapper` and a segment in user space. -/
theorem elfLoadSeg_loaded_iff (ph : Phdr) (bin : ℕ → BitVec 8)
    (hsize : ph.filesz.toNat ≤ ph.memsz.toNat)
    (hwrap : ph.vaddr.toNat + ph.memsz.toNat ≤ 2 ^ 32) :
    (ph.memsz.toNat + 4096 ≤ 2 ^ 32 → ∀ S : ByteSpace, ∃ S',
        elfLoadSeg pageMapper ph bin S = .ok (0, S') ∧
          (Loaded ph bin S' ↔ SegmentFits ph bin S)) ∧
      ∀ (M : Machine) (k : Kern) (e : EnvPtr) (D K : Finset ℕ), PageAccounting M k.pm D K ∅ →
        (k.envs e).pgdir ∈ D → ph.vaddr.toNat + ph.memsz.toNat ≤ utop.toNat →
        (2 * (ph.memsz.toNat / 4096 + 2) ≤ k.pm.pageFreeList.length →
            ∃ k', elfLoadSeg (fun k c => loadIcodeMapper M k e c) ph bin k = .ok (0, k')) ∧
          ∀ k', elfLoadSeg (fun k c => loadIcodeMapper M k e c) ph bin k = .ok (0, k') →
            (Loaded ph bin (userSpace k' e) ↔ SegmentFits ph bin (userSpace k e)) := by
  refine ⟨fun _ S => ?_, fun M k e D K h hd huser => elfLoadSeg_user ph bin h hd hsize huser⟩
  refine ⟨(segCalls ph bin).foldl mapCall S, ?_, loaded_segCalls_iff S hsize hwrap⟩
  rw [elfLoadSeg_eq, runCalls_pageMapper]

/-- A segment of two bytes at `va`, of which the first is in the file. -/
def twoBytes (va : Word) : Phdr := ⟨va, 1, 2, 0⟩

/-- A segment of two bytes that starts with a page is loaded. -/
theorem elfLoadSeg_loaded_aligned : ∃ k',
    elfLoadSeg (fun k c => loadIcodeMapper smallMachine k 0 c) (twoBytes 0x400000) (fun _ => 1)
      pairKern = .ok (0, k') ∧ Loaded (twoBytes 0x400000) (fun _ => 1) (userSpace k' 0) := by
  obtain ⟨hret, hiff⟩ := (elfLoadSeg_loaded_iff (twoBytes 0x400000) (fun _ => 1) (by decide)
    (by decide)).2 smallMachine pairKern 0 {0} ∅ smallMem_accounting
    (Finset.mem_singleton_self 0) (by decide)
  obtain ⟨k', hr⟩ := hret (by decide)
  exact ⟨k', hr, (hiff k' hr).mpr (Or.inl (by decide))⟩

/-- Behind the start of a page, the page of zeros for the second byte replaces the first one. -/
theorem not_elfLoadSeg_loaded : ¬ ∀ ph bin M k e D K, ph.filesz.toNat ≤ ph.memsz.toNat →
    ph.vaddr.toNat + ph.memsz.toNat ≤ 2 ^ 32 → PageAccounting M k.pm D K ∅ →
    (k.envs e).pgdir ∈ D → 2 * (ph.memsz.toNat / 4096 + 2) ≤ k.pm.pageFreeList.length →
    ∀ k', elfLoadSeg (fun k c => loadIcodeMapper M k e c) ph bin k = .ok (0, k') →
      Loaded ph bin (userSpace k' e) := by
  intro hall
  have hd : (pairKern.envs 0).pgdir ∈ ({0} : Finset ℕ) := Finset.mem_singleton_self 0
  have hsize : (twoBytes 0x400010).filesz.toNat ≤ (twoBytes 0x400010).memsz.toNat := by decide
  have hfree : 2 * ((twoBytes 0x400010).memsz.toNat / 4096 + 2) ≤
      pairKern.pm.pageFreeList.length := by decide
  obtain ⟨hret, hiff⟩ := elfLoadSeg_user (twoBytes 0x400010) (fun _ => 1) smallMem_accounting
    hd hsize (by decide)
  obtain ⟨k', hr⟩ := hret hfree
  have hload := hall _ _ _ _ _ _ _ hsize (by decide) smallMem_accounting hd hfree k' hr
  rcases (hiff k' hr).mp hload with h | h | h | ⟨hzero, -⟩
  · exact absurd h (by decide)
  · exact absurd h (by decide)
  · exact absurd h (by decide)
  · exact absurd (hzero 0 (by decide)) (by decide)

end MosVolca
