import MosVolca.Fs.CacheCases

/-!
# The blocks of files, in the cache

What the functions on the blocks of a file do to the entries, for an entry whose structure is in
the cache. Without `alloc` they only read. With it they need a clean page where the new block
becomes an indirect block, or a block of a directory, because they read old data as block pointers
or as structures otherwise.

## Main definitions

* `MosVolca.WalkClean`, `MosVolca.MapClean` — what `file_block_walk` and `file_map_block` need.
* `MosVolca.Grows` — a change after which the entries still are entries.

## Main results

* `MosVolca.CacheInv.fileMapBlock`, `MosVolca.CacheInv.fileGetBlock` — the block that a file gets.
* `MosVolca.CacheInv.fileClearBlock`, `MosVolca.CacheInv.fileTruncate` — blocks that are given back.
-/

namespace MosVolca

variable {s s' s1 : BlockCache} {f g : FilePtr} {b v k bno : ℕ} {p : WordPtr} {w r : Word}

/-! ## The paths through the functions -/

/-- What is done about a missing indirect block: nothing, an error, or a new block. -/
lemma needIndirect_cases {alloc : Bool} {x : Except Word Unit}
    (h : needIndirect s f alloc = .ok (x, s')) :
    s.load f.indirect ≠ 0 ∧ x = .ok () ∧ s' = s ∨
    s.load f.indirect = 0 ∧ alloc = false ∧ x = .error (-eNotFound) ∧ s' = s ∨
    s.load f.indirect = 0 ∧ alloc = true ∧ ((∃ r, allocBlock s = .ok (.error r, s') ∧ x = .error r) ∨
      ∃ b s1, allocBlock s = .ok (.ok b, s1) ∧ x = .ok () ∧
        s' = s1.store f.indirect (BitVec.ofNat 32 b)) := by
  unfold needIndirect at h
  by_cases h0 : s.load f.indirect = 0
  · rw [if_pos h0] at h
    cases alloc with
    | false =>
      simp only [Bool.false_eq_true, if_false, pure_eq_ok, Except.ok.injEq, Prod.mk.injEq] at h
      exact .inr (.inl ⟨h0, rfl, h.1.symm, h.2.symm⟩)
    | true =>
      rw [if_pos rfl] at h
      obtain ⟨⟨y, s1⟩, halloc, h1⟩ := bind_eq_ok.mp h
      refine .inr (.inr ⟨h0, rfl, ?_⟩)
      cases y with
      | error r =>
        obtain ⟨rfl, rfl⟩ := pure_pair_inj h1
        exact .inl ⟨r, halloc, rfl⟩
      | ok b =>
        obtain ⟨rfl, rfl⟩ := pure_pair_inj h1
        exact .inr ⟨b, s1, halloc, rfl, rfl⟩
  · rw [if_neg h0] at h
    replace h := pure_pair_inj h
    exact .inl ⟨h0, h.1.symm, h.2.symm⟩

/-- What `file_block_walk` can do: a direct pointer, no pointer, or one in the indirect block. -/
lemma fileBlockWalk_cases {alloc : Bool} {x : Except Word WordPtr}
    (h : fileBlockWalk s f bno alloc = .ok (x, s')) :
    bno < ndirect ∧ x = .ok (f.direct bno) ∧ s' = s ∨
    nindirect ≤ bno ∧ x = .error (-eInval) ∧ s' = s ∨
    ndirect ≤ bno ∧ bno < nindirect ∧ ((∃ r, needIndirect s f alloc = .ok (.error r, s') ∧
        x = .error r) ∨
      ∃ isnew s1, needIndirect s f alloc = .ok (.ok (), s1) ∧
        readBlock s1 (s1.load f.indirect).toNat = .ok (isnew, s') ∧
        x = .ok ⟨(s1.load f.indirect).toNat, bno⟩) := by
  unfold fileBlockWalk at h
  by_cases hd : bno < ndirect
  · rw [if_pos hd] at h
    replace h := pure_pair_inj h
    exact .inl ⟨hd, h.1.symm, h.2.symm⟩
  · rw [if_neg hd] at h
    by_cases hn : bno < nindirect
    · rw [if_pos hn] at h
      obtain ⟨⟨y, s1⟩, hneed, h1⟩ := bind_eq_ok.mp h
      refine .inr (.inr ⟨Nat.le_of_not_lt hd, hn, ?_⟩)
      cases y with
      | error r =>
        obtain ⟨rfl, rfl⟩ := pure_pair_inj h1
        exact .inl ⟨r, hneed, rfl⟩
      | ok u =>
        obtain ⟨⟨isnew, s2⟩, hread, h2⟩ := bind_eq_ok.mp h1
        obtain ⟨rfl, rfl⟩ := pure_pair_inj h2
        exact .inr ⟨isnew, s1, hneed, hread, rfl⟩
    · rw [if_neg hn] at h
      replace h := pure_pair_inj h
      exact .inr (.inl ⟨Nat.le_of_not_lt hn, h.1.symm, h.2.symm⟩)

/-- What `file_map_block` can do: the pointer is not there, set, missing, or filled with a new block. -/
lemma fileMapBlock_cases {alloc : Bool} {x : Except Word ℕ}
    (h : fileMapBlock s f bno alloc = .ok (x, s')) :
    (∃ r, fileBlockWalk s f bno alloc = .ok (.error r, s') ∧ x = .error r) ∨
    ∃ ptr s1, fileBlockWalk s f bno alloc = .ok (.ok ptr, s1) ∧
      (s1.load ptr ≠ 0 ∧ x = .ok (s1.load ptr).toNat ∧ s' = s1 ∨
       s1.load ptr = 0 ∧ alloc = false ∧ x = .error (-eNotFound) ∧ s' = s1 ∨
       s1.load ptr = 0 ∧ alloc = true ∧ ((∃ r, allocBlock s1 = .ok (.error r, s') ∧ x = .error r) ∨
         ∃ b s2, allocBlock s1 = .ok (.ok b, s2) ∧ x = .ok b ∧
           s' = s2.store ptr (BitVec.ofNat 32 b))) := by
  unfold fileMapBlock at h
  obtain ⟨⟨y, s1⟩, hwalk, h1⟩ := bind_eq_ok.mp h
  cases y with
  | error r =>
    obtain ⟨rfl, rfl⟩ := pure_pair_inj h1
    exact .inl ⟨r, hwalk, rfl⟩
  | ok ptr =>
    refine .inr ⟨ptr, s1, hwalk, ?_⟩
    simp only at h1
    by_cases h0 : s1.load ptr = 0
    · rw [if_pos h0] at h1
      cases alloc with
      | false =>
        simp only [Bool.false_eq_true, if_false, pure_eq_ok, Except.ok.injEq, Prod.mk.injEq] at h1
        exact .inr (.inl ⟨h0, rfl, h1.1.symm, h1.2.symm⟩)
      | true =>
        rw [if_pos rfl] at h1
        obtain ⟨⟨z, s2⟩, halloc, h2⟩ := bind_eq_ok.mp h1
        refine .inr (.inr ⟨h0, rfl, ?_⟩)
        cases z with
        | error r =>
          obtain ⟨rfl, rfl⟩ := pure_pair_inj h2
          exact .inl ⟨r, halloc, rfl⟩
        | ok b =>
          obtain ⟨rfl, rfl⟩ := pure_pair_inj h2
          exact .inr ⟨b, s2, halloc, rfl, rfl⟩
    · rw [if_neg h0] at h1
      replace h1 := pure_pair_inj h1
      exact .inl ⟨h0, h1.1.symm, h1.2.symm⟩

/-! ## The errors of an allocation -/

/-- `alloc_block` fails for want of a block or of a page. -/
lemma allocBlock_error (h : allocBlock s = .ok (.error r, s')) : r = -eNoDisk ∨ r = -eNoMem := by
  unfold allocBlock at h
  obtain ⟨⟨x, s1⟩, hnum, h1⟩ := bind_eq_ok.mp h
  cases x with
  | error e =>
    cases h1
    unfold allocBlockNum at hnum
    split at hnum
    · obtain ⟨s2, -, h2⟩ := bind_eq_ok.mp hnum
      cases h2
    · cases hnum
      exact .inl rfl
  | ok b =>
    obtain ⟨⟨e, s2⟩, hmap, h2⟩ := bind_eq_ok.mp h1
    simp only at h2
    split_ifs at h2 with hne
    · obtain rfl : e = r := by
        cases h2
        rfl
      obtain ⟨m, -, hpage⟩ := bind_eq_ok.mp hmap
      split_ifs at hpage
      · cases hpage
        exact absurd rfl hne
      · have he : (allocPage s1 b).1 = e := congrArg Prod.fst (Except.ok.inj hpage)
        rcases allocPage_cases s1 b with ⟨h0, -⟩ | ⟨h0, -⟩
        · exact absurd (he.symm.trans h0) hne
        · exact .inr (he.symm.trans h0)
    · cases h2

/-- **The errors of an allocation**: the file has no such block, the disk is full, or the server
gets no page. -/
lemma fileGetBlock_error (h : fileGetBlock s f bno = .ok (.error r, s')) :
    r = -eInval ∨ r = -eNoDisk ∨ r = -eNoMem := by
  unfold fileGetBlock at h
  obtain ⟨⟨x, s1⟩, hmap, h1⟩ := bind_eq_ok.mp h
  cases x with
  | ok b =>
    obtain ⟨⟨isnew, s2⟩, -, h2⟩ := bind_eq_ok.mp h1
    cases h2
  | error e =>
    cases h1
    rcases fileMapBlock_cases hmap with ⟨e, hwalk, he⟩ | ⟨ptr, s2, -, ⟨-, hx, -⟩ | ⟨-, ha, -⟩ |
      ⟨-, -, ⟨e, halloc, he⟩ | ⟨b, s3, -, hx, -⟩⟩⟩
    · cases he
      rcases fileBlockWalk_cases hwalk with ⟨-, hx, -⟩ | ⟨-, hx, -⟩ | ⟨-, -, ⟨e, hneed, he⟩ |
        ⟨isnew, s2, -, -, hx⟩⟩
      · cases hx
      · cases hx
        exact .inl rfl
      · cases he
        rcases needIndirect_cases hneed with ⟨-, hx, -⟩ | ⟨-, ha, -⟩ | ⟨-, -, ⟨e, halloc, he⟩ |
          ⟨b, s2, -, hx, -⟩⟩
        · cases hx
        · cases ha
        · cases he
          exact .inr (allocBlock_error halloc)
        · cases hx
      · cases hx
    · cases hx
    · cases ha
    · cases he
      exact .inr (allocBlock_error halloc)
    · cases hx

/-! ## Reading -/

/-- `file_block_walk` without `alloc` only reads. -/
lemma fileBlockWalk_loads {x : Except Word WordPtr} (h : fileBlockWalk s f bno false = .ok (x, s')) :
    Loads s s' := by
  have hneed : ∀ {y s1}, needIndirect s f false = .ok (y, s1) → s1 = s := by
    intro y s1 hn
    rcases needIndirect_cases hn with ⟨-, -, rfl⟩ | ⟨-, -, -, rfl⟩ | ⟨-, ha, -⟩
    · rfl
    · rfl
    · exact absurd ha Bool.false_ne_true
  rcases fileBlockWalk_cases h with ⟨-, -, rfl⟩ | ⟨-, -, rfl⟩ | ⟨-, -, ⟨r, hn, -⟩ |
    ⟨isnew, s1, hn, hread, -⟩⟩
  · exact Loads.refl _
  · exact Loads.refl _
  · exact hneed hn ▸ Loads.refl _
  · exact hneed hn ▸ (readBlock_loads hread).1

/-- `file_map_block` without `alloc` only reads. -/
lemma fileMapBlock_loads {x : Except Word ℕ} (h : fileMapBlock s f bno false = .ok (x, s')) :
    Loads s s' := by
  rcases fileMapBlock_cases h with ⟨r, hw, -⟩ | ⟨ptr, s1, hw, ⟨-, -, rfl⟩ | ⟨-, -, -, rfl⟩ | ⟨-, ha, -⟩⟩
  · exact fileBlockWalk_loads hw
  · exact fileBlockWalk_loads hw
  · exact fileBlockWalk_loads hw
  · exact absurd ha Bool.false_ne_true

/-- What every round of a loop keeps, the loop keeps. -/
lemma foldlM_loads {α : Type} {step : BlockCache → α → Kernel BlockCache} {l : List α}
    (hstep : ∀ a ∈ l, ∀ s s', step s a = .ok s' → Loads s s') (h : l.foldlM step s = .ok s') :
    Loads s s' :=
  foldlM_invariant (P := fun t => Loads s t)
    (fun a ha t t' ht hs => ht.trans (hstep a ha t t' hs)) (Loads.refl s) h

lemma blockIsDirty_writeBlock_loads
    (h : (do if ← blockIsDirty s b then writeBlock s b else pure s) = .ok s') : Loads s s' := by
  obtain ⟨m, -, h1⟩ := bind_eq_ok.mp h
  split_ifs at h1
  · exact (writeBlock_loads h1).2.2
  · exact Except.ok.inj h1 ▸ Loads.refl s

/-- `file_flush` only reads and writes back. -/
lemma fileFlush_loads (h : fileFlush s f = .ok s') : Loads s s' := by
  refine foldlM_loads (fun bno _ s s' hs => ?_) h
  unfold fileFlushBlock at hs
  obtain ⟨⟨x, s1⟩, hmap, h1⟩ := bind_eq_ok.mp hs
  have hl := fileMapBlock_loads hmap
  cases x with
  | error r => exact Except.ok.inj h1 ▸ hl
  | ok diskno => exact hl.trans (blockIsDirty_writeBlock_loads h1)

/-- `fs_sync` only writes back. -/
lemma fsSync_loads (h : fsSync s = .ok s') : Loads s s' :=
  foldlM_loads (fun _ _ _ _ hs => blockIsDirty_writeBlock_loads hs) h

/-- `dirty_block` changes a flag. -/
lemma dirtyBlock_loads (h : dirtyBlock s b = .ok (r, s')) : Loads s s' := by
  unfold dirtyBlock at h
  obtain ⟨va, -, h1⟩ := bind_eq_ok.mp h
  split_ifs at h1 <;> simp only [pure_eq_ok, Except.ok.injEq, Prod.mk.injEq] at h1 <;>
    rw [← h1.2] <;> exact ⟨rfl, fun _ hx => hx, rfl, rfl⟩

/-- `file_dirty` only reads and changes a flag. -/
lemma fileDirty_loads (h : fileDirty s f w = .ok (r, s')) : Loads s s' := by
  unfold fileDirty at h
  obtain ⟨⟨x, s1⟩, hmap, h1⟩ := bind_eq_ok.mp h
  have hl := fileMapBlock_loads hmap
  cases x with
  | error r =>
    replace h1 := pure_pair_inj h1
    exact h1.2 ▸ hl
  | ok diskno => exact hl.trans (dirtyBlock_loads h1)

/-! ## New blocks -/

/-- The entries are entries afterwards, with the same type and size. -/
structure Grows (s s' : BlockCache) : Prop where
  mapped : ∀ b, s.mapped b = true → s'.mapped b = true
  dirent : ∀ f, Dirent s.content f → Dirent s'.content f
  type : ∀ f, Dirent s.content f → wordAt s'.content f.type = wordAt s.content f.type
  size : ∀ f, Dirent s.content f → wordAt s'.content f.size = wordAt s.content f.size

lemma SameFiles.grows (h : SameFiles s s') : Grows s s' where
  mapped := h.mapped
  dirent := fun _ hf => h.dirent_iff.mpr hf
  type := fun f hf => (h.agrees f hf).type
  size := fun f hf => (h.agrees f hf).size

lemma Loads.grows (h : Loads s s') : Grows s s' := h.sameFiles.grows

lemma Grows.trans (h : Grows s s1) (h' : Grows s1 s') : Grows s s' where
  mapped := fun b hb => h'.mapped b (h.mapped b hb)
  dirent := fun f hf => h'.dirent f (h.dirent f hf)
  type := fun f hf => (h'.type f (h.dirent f hf)).trans (h.type f hf)
  size := fun f hf => (h'.size f (h.dirent f hf)).trans (h.size f hf)

/-- What `file_block_walk` needs for the block `bno` of `f`: if it makes an indirect block, the page
of that block is clean. -/
def WalkClean (s : BlockCache) (f : FilePtr) (bno : ℕ) : Prop :=
  ndirect ≤ bno → bno < nindirect → s.load f.indirect = 0 → AllocClean s

/-- What `file_map_block` needs: if it makes a block of a directory, the page is clean too. -/
def MapClean (s : BlockCache) (f : FilePtr) (bno : ℕ) : Prop :=
  WalkClean s f bno ∧ ∀ ptr s1, fileBlockWalk s f bno true = .ok (.ok ptr, s1) →
    s1.load ptr = 0 → s.load f.type = ftypeDir → bno < s.sizeBlocks f → AllocClean s1

namespace CacheInv

/-- A word of an entry is written. -/
lemma store (hs : CacheInv s) {x : Field} (hf : Dirent s.content f) (hx : HasField s.content f x)
    (hm : s.mapped (placeOf s.content f x).block = true)
    (hc : Consistent (putWord s.content (placeOf s.content f x) w)) :
    CacheInv (s.store (placeOf s.content f x) w) := by
  have hcon := content_store (w := w) hm
  refine ⟨hs.super, hs.bitmap, fun b hb hlt => hs.map b hb ?_, hcon ▸ hc⟩
  rwa [hcon, firstData, (sameMap_putWord (hs.consistent.outside_placeOf hf hx)).nblocks] at hlt

/-- The number of blocks by the size in the cache. -/
lemma sizeBlocks_eq (hm : s.mapped f.block = true) : s.sizeBlocks f = sizeBlocksOf s.content f := by
  rw [BlockCache.sizeBlocks, load_eq (p := f.size) hm, sizeBlocksOf]

/-- Step 2 of `file_block_walk`. -/
lemma needIndirect (hs : CacheInv s) (hf : Dirent s.content f) (hm : s.mapped f.block = true)
    {alloc : Bool} {x : Except Word Unit} (h : needIndirect s f alloc = .ok (x, s'))
    (hclean : alloc = true → s.load f.indirect = 0 → AllocClean s) :
    CacheInv s' ∧ Grows s s' ∧ (x = .ok () → s'.load f.indirect ≠ 0) := by
  rcases needIndirect_cases h with ⟨hne, -, rfl⟩ | ⟨-, -, rfl, rfl⟩ | ⟨h0, ha, hcase⟩
  · exact ⟨hs, (Loads.refl _).grows, fun _ => hne⟩
  · exact ⟨hs, (Loads.refl _).grows, fun hx => absurd hx (by simp)⟩
  · rcases hcase with ⟨r, halloc, rfl⟩ | ⟨b, s1, halloc, rfl, rfl⟩
    · obtain ⟨hs', hsame, -⟩ := hs.allocBlock halloc
      exact ⟨hs', hsame.grows, fun hx => absurd hx (by simp)⟩
    · obtain ⟨hs1, hsame, hfresh⟩ := hs.allocBlock halloc
      obtain ⟨hfresh, hblank⟩ := hfresh b rfl
      have hblank := hblank (hclean ha h0)
      have hf1 := hsame.dirent_iff.mpr hf
      have hm1 := hsame.mapped _ hm
      have hind : wordAt s1.content f.indirect = 0 := by
        rw [(hsame.agrees f hf).indirect, ← load_eq (p := f.indirect) hm, h0]
      have hb : (BitVec.ofNat 32 b).toNat = b := by
        have := hfresh.usable.lt
        unfold nblocksOf at this
        rw [BitVec.toNat_ofNat, Nat.mod_eq_of_lt (by omega)]
      have hcon : (s1.store f.indirect (BitVec.ofNat 32 b)).content =
          putWord s1.content f.indirect (BitVec.ofNat 32 b) := content_store hm1
      have hc : Consistent (putWord s1.content f.indirect (BitVec.ofNat 32 b)) :=
        hs1.consistent.giveIndirect hf1 (hb.symm ▸ hfresh.usable) (hb.symm ▸ hfresh.unheld)
          (hb.symm ▸ hblank)
      have hword : ∀ g, Dirent s1.content g → ∀ k < 64, k ≠ 44 →
          wordAt (s1.store f.indirect (BitVec.ofNat 32 b)).content ⟨g.block, g.word + k⟩ =
            wordAt s1.content ⟨g.block, g.word + k⟩ := fun g hg k hk hne => by
        rw [hcon]
        exact hs1.consistent.head_putIndirect hg hf1 hk hne
      refine ⟨hs1.store (x := .head 44) hf1 Consistent.hasField_indirect hm1 hc, hsame.grows.trans
        ⟨fun _ hx => hx, fun g hg => hg.mono fun d v hd hv => ?_,
          fun g hg => hword g hg 33 (by decide) (by decide),
          fun g hg => hword g hg 32 (by decide) (by decide)⟩, fun _ => ?_⟩
      · obtain ⟨ht, i, hi, hold⟩ := hv
        refine ⟨(hword d hd 33 (by decide) (by decide)).trans ht, i, ?_, ?_⟩
        · rwa [sizeBlocksOf, show wordAt _ d.size = _ from hword d hd 32 (by decide) (by decide)]
        · rw [hcon]
          exact hs1.consistent.holds_data_putIndirect hd hf1 hind hold
      · rw [load_store_self]
        intro hz
        have hge := hfresh.usable.ge
        rw [← hb, hz] at hge
        unfold firstData at hge
        simp at hge

/-- **`file_block_walk`**: the place of the block pointer. -/
theorem fileBlockWalk (hs : CacheInv s) (hf : Dirent s.content f) (hm : s.mapped f.block = true)
    {alloc : Bool} {x : Except Word WordPtr} (h : fileBlockWalk s f bno alloc = .ok (x, s'))
    (hclean : alloc = true → WalkClean s f bno) :
    CacheInv s' ∧ Grows s s' ∧ ∀ ptr, x = .ok ptr → HasField s'.content f (Slot.data bno).field ∧
      ptr = placeOf s'.content f (Slot.data bno).field ∧ s'.mapped ptr.block = true := by
  rcases fileBlockWalk_cases h with ⟨hd, rfl, rfl⟩ | ⟨-, rfl, rfl⟩ |
    ⟨hd, hn, ⟨r, hneed, rfl⟩ | ⟨isnew, s1, hneed, hread, rfl⟩⟩
  · refine ⟨hs, (Loads.refl _).grows, fun ptr hptr => ?_⟩
    obtain rfl := Except.ok.inj hptr
    have h10 : bno < 10 := hd
    simp only [Slot.field, if_pos hd]
    exact ⟨(by omega : 34 + bno < 64), rfl, hm⟩
  · exact ⟨hs, (Loads.refl _).grows, fun ptr hptr => absurd hptr (by simp)⟩
  · obtain ⟨hs', hg, -⟩ := hs.needIndirect hf hm hneed fun ha => hclean ha hd hn
    exact ⟨hs', hg, fun ptr hptr => absurd hptr (by simp)⟩
  · obtain ⟨hs1, hg, hne⟩ := hs.needIndirect hf hm hneed fun ha => hclean ha hd hn
    obtain ⟨hload, hmapped⟩ := readBlock_loads hread
    refine ⟨hload.inv hs1, hg.trans hload.grows, fun ptr hptr => ?_⟩
    obtain rfl := Except.ok.inj hptr
    have heq : s1.load f.indirect = wordAt s'.content f.indirect := by
      rw [load_eq (p := f.indirect) (hg.mapped _ hm), hload.content]
    have hne := hne rfl
    rw [heq] at hne hmapped ⊢
    simp only [Slot.field, if_neg (Nat.not_lt.mpr hd)]
    exact ⟨⟨hd, hn, hne⟩, rfl, hmapped⟩

/-- A new block is put in an empty data pointer. -/
lemma giveData (hs : CacheInv s) (hf : Dirent s.content f)
    (hfield : HasField s.content f (Slot.data bno).field)
    (hm : s.mapped (placeOf s.content f (Slot.data bno).field).block = true)
    (h0 : wordAt s.content (placeOf s.content f (Slot.data bno).field) = 0) (hb : Fresh s b)
    (hblank : wordAt s.content f.type = ftypeDir → bno < sizeBlocksOf s.content f →
      Blank s.content b) :
    CacheInv (s.store (placeOf s.content f (Slot.data bno).field) (BitVec.ofNat 32 b)) ∧
      Grows s (s.store (placeOf s.content f (Slot.data bno).field) (BitVec.ofNat 32 b)) ∧
      Holds (s.store (placeOf s.content f (Slot.data bno).field) (BitVec.ofNat 32 b)).content f
        (.data bno) b := by
  have hcon := content_store (w := BitVec.ofNat 32 b) hm
  have hbn : (BitVec.ofNat 32 b).toNat = b := by
    have := hb.usable.lt
    unfold nblocksOf at this
    rw [BitVec.toNat_ofNat, Nat.mod_eq_of_lt (by omega)]
  have hne : BitVec.ofNat 32 b ≠ 0 := by
    intro hz
    have hge := hb.usable.ge
    rw [← hbn, hz] at hge
    unfold firstData at hge
    simp at hge
  have hc : Consistent (putWord s.content (placeOf s.content f (Slot.data bno).field)
      (BitVec.ofNat 32 b)) :=
    hs.consistent.giveData hf hfield (hbn.symm ▸ hb.usable) (hbn.symm ▸ hb.unheld)
      fun ht hsz => hbn.symm ▸ hblank ht hsz
  refine ⟨hs.store hf hfield hm hc, ⟨fun _ hx => hx, fun g hg => hg.mono fun d v hd hv => ?_,
    fun g hg => ?_, fun g hg => ?_⟩, ?_⟩
  · obtain ⟨ht, i, hi, hold⟩ := hv
    obtain ⟨htype, hsize⟩ := hs.consistent.head_putData (w := BitVec.ofNat 32 b) hd hf hfield
    rw [hcon]
    refine ⟨htype.trans ht, i, by rwa [sizeBlocksOf, hsize], ?_⟩
    rw [hs.consistent.holds_putData hd hf hfield, if_neg]
    · exact hold
    · rintro ⟨rfl, hi⟩
      rw [Slot.data.injEq] at hi
      exact hold.2.1 (hi ▸ h0)
  · rw [hcon]
    exact (hs.consistent.head_putData hg hf hfield).1
  · rw [hcon]
    exact (hs.consistent.head_putData hg hf hfield).2
  · rw [hcon, hs.consistent.holds_putData hf hf hfield, if_pos ⟨rfl, rfl⟩]
    exact ⟨hne, hbn⟩

/-- **`file_map_block`** with `alloc`: the block that the file holds. -/
theorem fileMapBlock (hs : CacheInv s) (hf : Dirent s.content f) (hm : s.mapped f.block = true)
    {x : Except Word ℕ} (h : fileMapBlock s f bno true = .ok (x, s')) (hclean : MapClean s f bno) :
    CacheInv s' ∧ Grows s s' ∧ ∀ b, x = .ok b → Holds s'.content f (.data bno) b := by
  rcases fileMapBlock_cases h with ⟨r, hwalk, rfl⟩ | ⟨ptr, s1, hwalk, hcase⟩
  · obtain ⟨hs', hg, -⟩ := hs.fileBlockWalk hf hm hwalk fun _ => hclean.1
    exact ⟨hs', hg, fun b hb => absurd hb (by simp)⟩
  · obtain ⟨hs1, hg, hptr⟩ := hs.fileBlockWalk hf hm hwalk fun _ => hclean.1
    obtain ⟨hfield, rfl, hmap⟩ := hptr ptr rfl
    have hf1 := hg.dirent f hf
    rcases hcase with ⟨hne, rfl, rfl⟩ | ⟨-, ha, -⟩ | ⟨h0, -, ⟨r, halloc, rfl⟩ |
      ⟨b, s2, halloc, rfl, rfl⟩⟩
    · refine ⟨hs1, hg, fun b hb => ?_⟩
      obtain rfl := Except.ok.inj hb
      rw [load_eq hmap] at hne ⊢
      exact ⟨hfield, hne, rfl⟩
    · exact absurd ha.symm Bool.false_ne_true
    · obtain ⟨hs', hsame, -⟩ := hs1.allocBlock halloc
      exact ⟨hs', hg.trans hsame.grows, fun b hb => absurd hb (by simp)⟩
    · obtain ⟨hs2, hsame, hfresh⟩ := hs1.allocBlock halloc
      obtain ⟨hfresh, hblank⟩ := hfresh b rfl
      have hag := hsame.agrees f hf1
      have h0' := h0
      rw [load_eq hmap, ← hag _ (Slot.meta_field hfield) hfield, ← hag.placeOf_eq] at h0'
      have hmap2 := hsame.mapped _ hmap
      have hdir : wordAt s2.content f.type = ftypeDir → bno < sizeBlocksOf s2.content f →
          Blank s2.content b := by
        intro ht hsz
        refine hblank (hclean.2 _ s1 hwalk h0 ?_ ?_)
        · rw [load_eq (p := f.type) hm, ← hg.type f hf, ← hag.type, ht]
        · rw [sizeBlocks_eq hm]
          rwa [sizeBlocksOf, hag.size, hg.size f hf] at hsz
      rw [← hag.placeOf_eq] at hmap2 ⊢
      obtain ⟨hs', hg', hold⟩ := hs2.giveData (hsame.dirent_iff.mpr hf1)
        ((hag.hasField_iff _).mpr hfield) hmap2 h0' hfresh hdir
      refine ⟨hs', (hg.trans hsame.grows).trans hg', fun b' hb' => ?_⟩
      exact Except.ok.inj hb' ▸ hold

/-- **`file_get_block`**: the block that the file holds, in the cache. -/
theorem fileGetBlock (hs : CacheInv s) (hf : Dirent s.content f) (hm : s.mapped f.block = true)
    {x : Except Word ℕ} (h : fileGetBlock s f bno = .ok (x, s')) (hclean : MapClean s f bno) :
    CacheInv s' ∧ Grows s s' ∧
      ∀ b, x = .ok b → Holds s'.content f (.data bno) b ∧ s'.mapped b = true := by
  unfold MosVolca.fileGetBlock at h
  obtain ⟨⟨y, s1⟩, hmap, h1⟩ := bind_eq_ok.mp h
  obtain ⟨hs1, hg, hold⟩ := hs.fileMapBlock hf hm hmap hclean
  cases y with
  | error r =>
    obtain ⟨rfl, rfl⟩ := pure_pair_inj h1
    exact ⟨hs1, hg, fun b hb => absurd hb (by simp)⟩
  | ok b =>
    obtain ⟨⟨isnew, s2⟩, hread, h2⟩ := bind_eq_ok.mp h1
    obtain ⟨rfl, rfl⟩ := pure_pair_inj h2
    obtain ⟨hload, hmapped⟩ := readBlock_loads hread
    refine ⟨hload.inv hs1, hg.trans hload.grows, fun b' hb' => ?_⟩
    obtain rfl := Except.ok.inj hb'
    exact ⟨hload.content ▸ hold b rfl, hmapped⟩

end CacheInv

/-! ## Blocks that are given back -/

/-- The file stays an entry with its size. -/
structure Shrinks (f : FilePtr) (s s' : BlockCache) : Prop where
  inv : CacheInv s'
  mapped : ∀ b, s.mapped b = true → s'.mapped b = true
  self : Dirent s'.content f
  size : wordAt s'.content f.size = wordAt s.content f.size

lemma Loads.shrinks (h : Loads s s') (hs : CacheInv s) (hf : Dirent s.content f) :
    Shrinks f s s' where
  inv := h.inv hs
  mapped := h.mapped
  self := h.content ▸ hf
  size := by rw [h.content]

lemma Shrinks.trans (h : Shrinks f s s1) (h' : Shrinks f s1 s') : Shrinks f s s' where
  inv := h'.inv
  mapped := fun b hb => h'.mapped b (h.mapped b hb)
  self := h'.self
  size := h'.size.trans h.size

/-- A file stays an entry if only its own words change. -/
lemma Dirent.keep_self {c c' : Blocks}
    (h : ∀ d b, Dirent c d → d ≠ f → DirBlock c d b → DirBlock c' d b) (hf : Dirent c f) :
    Dirent c' f := by
  have hall : ∀ g, Dirent c g → Dirent c' g ∨ Dirent c' f := by
    intro g hg
    induction hg with
    | root => exact .inl .root
    | @child d b j hd hb hj ih =>
      rcases ih with ih | ih
      · by_cases hdf : d = f
        · exact .inr (hdf ▸ ih)
        · exact .inl (.child ih (h d b hd hdf hb) hj)
      · exact .inr ih
  exact (hall f hf).elim id id

/-- Freeing a block and writing a word that is not in the map can be done in either order. -/
lemma freeBlock_store (hp : p ≠ ⟨1, 1⟩) (hq : p ≠ BlockCache.bitsPtr (v / 32)) :
    (freeBlock s v).store p w = freeBlock (s.store p w) v := by
  have hn : (s.store p w).nblocks = s.nblocks :=
    congrArg BitVec.toNat (TwoLevel.write_of_ne (by
      by_contra hcon
      push Not at hcon
      exact hp (by rw [WordPtr.mk.injEq]; exact ⟨hcon.1.symm, hcon.2.symm⟩)))
  have hb : (s.store p w).bits (v / 32) = s.bits (v / 32) :=
    TwoLevel.write_of_ne (by
      by_contra hcon
      push Not at hcon
      exact hq (by cases p; simp_all [BlockCache.bitsPtr]))
  unfold freeBlock
  rw [hn, show (s.store p w).super = s.super from rfl, hb]
  split_ifs
  · rfl
  · simp only [BlockCache.store, BlockCache.mk.injEq, and_true]
    funext x i
    unfold TwoLevel.write
    by_cases h1 : x = p.block ∧ i = p.word
    · rw [if_pos h1, if_neg, if_pos h1]
      rintro ⟨h2, h3⟩
      refine hq ?_
      cases p
      simp_all
    · rw [if_neg h1, if_neg h1]

namespace CacheInv

/-- A block pointer is cleared and its block is set free. -/
lemma clearSlot (hs : CacheInv s) (hf : Dirent s.content f) {q : Slot}
    (hfield : HasField s.content f q.field)
    (hm : s.mapped (placeOf s.content f q.field).block = true)
    (hne : wordAt s.content (placeOf s.content f q.field) ≠ 0)
    (hc : Consistent (putWord s.content (placeOf s.content f q.field) 0))
    (hsub : ∀ g y b, Dirent s.content g →
      Holds (putWord s.content (placeOf s.content f q.field) 0) g y b →
        Holds s.content g y b ∧ ¬ (g = f ∧ y = q))
    (hdir : ∀ g b, Dirent s.content g →
      DirBlock (putWord s.content (placeOf s.content f q.field) 0) g b → DirBlock s.content g b)
    (hsize : wordAt (putWord s.content (placeOf s.content f q.field) 0) f.size =
      wordAt s.content f.size) :
    Shrinks f s ((MosVolca.freeBlock s (wordAt s.content (placeOf s.content f q.field)).toNat).store
      (placeOf s.content f q.field) 0) := by
  have hold : Holds s.content f q (wordAt s.content (placeOf s.content f q.field)).toNat :=
    ⟨hfield, hne, rfl⟩
  have hu := hs.consistent.usable hf hold
  have hout := hs.consistent.outside_placeOf hf hfield
  generalize hv : (wordAt s.content (placeOf s.content f q.field)).toNat = v at hold hu ⊢
  rw [freeBlock_store]
  · have hcon := content_store (w := 0) hm
    have hs1 := hs.store hf hfield hm hc
    have hself : Dirent (putWord s.content (placeOf s.content f q.field) 0) f :=
      Dirent.keep_self (fun d b hd hdf hb =>
        (hs.consistent.agrees_of_field hd hf hfield (.inl hdf)).dirBlock_iff.mpr hb) hf
    have hmap := sameMap_putWord (w := 0) hout
    have hlast : firstData (putWord s.content (placeOf s.content f q.field) 0) =
        firstData s.content := by rw [firstData, hmap.nblocks, firstData]
    obtain ⟨hs2, hsame⟩ := hs1.freeBlock (v := v) (by rw [hcon, hlast]; exact hu.ge)
      (by rw [hcon, hmap.nblocks]; exact hu.lt) (fun g y hg hy => by
        rw [hcon] at hg hy
        rcases Dirent.of_update (fun d b hd hb => .inl (hdir d b hd hb)) hg with
          hg | ⟨b, j, hj, hblank, rfl⟩
        · obtain ⟨hy, hnot⟩ := hsub g y v hg hy
          exact hnot (hs.consistent.once hg hf hy hold)
        · exact hblank.not_holds hj hy)
    refine ⟨hs2, hsame.mapped, hsame.dirent_iff.mpr (hcon ▸ hself), ?_⟩
    rw [(hsame.agrees f (hcon ▸ hself)).size, hcon, hsize]
  · intro he
    rw [he] at hout
    rcases hout with ⟨-, h2⟩ | h1
    · exact absurd h2 (by decide)
    · unfold firstData at h1
      simp only at h1
      omega
  · intro he
    have hbits := bits_block hu.lt
    rw [he] at hout
    rcases hout with ⟨h1, -⟩ | h1 <;> simp only [BlockCache.bitsPtr] at h1 <;> omega

/-- `file_clear_block`. -/
theorem fileClearBlock (hs : CacheInv s) (hf : Dirent s.content f) (hm : s.mapped f.block = true)
    (h : fileClearBlock s f bno = .ok (r, s')) : Shrinks f s s' := by
  unfold MosVolca.fileClearBlock at h
  obtain ⟨⟨x, s1⟩, hwalk, h1⟩ := bind_eq_ok.mp h
  have hload := fileBlockWalk_loads hwalk
  cases x with
  | error r =>
    replace h1 := pure_pair_inj h1
    exact h1.2 ▸ hload.shrinks hs hf
  | ok ptr =>
    obtain ⟨hs1, -, hptr⟩ := hs.fileBlockWalk hf hm hwalk (fun ha => absurd ha Bool.false_ne_true)
    obtain ⟨hfield, rfl, hmap⟩ := hptr ptr rfl
    have hf1 : Dirent s1.content f := hload.content ▸ hf
    simp only at h1
    split_ifs at h1 with hne
    · obtain ⟨-, rfl⟩ := pure_pair_inj h1
      rw [load_eq hmap] at hne ⊢
      have hcd := hs1.consistent
      refine (hload.shrinks hs hf).trans (hs1.clearSlot hf1 hfield hmap hne
        (hcd.clearData hf1 hfield) (fun g y b hg hy => ?_) (fun g b hg hb => ?_)
        (hcd.head_putData hf1 hf1 hfield).2)
      · rw [hcd.holds_putData hg hf1 hfield] at hy
        split_ifs at hy with hc
        · exact absurd rfl hy.1
        · exact ⟨hy, hc⟩
      · rcases hcd.dirBlock_putData hg hf1 hfield hb with hb' | ⟨rfl, h0, -⟩
        · exact hb'
        · obtain ⟨-, i, -, hold⟩ := hb
          exact absurd (h0.trans hold.2.2.symm) (fun hz => hold.2.1 (BitVec.eq_of_toNat_eq hz.symm))
    · replace h1 := pure_pair_inj h1
      exact h1.2 ▸ hload.shrinks hs hf

/-- A new size for a file: the blocks that become blocks of a directory hold zeros. -/
theorem setSize (hs : CacheInv s) (hf : Dirent s.content f) (hm : s.mapped f.block = true)
    (hgrow : ∀ i b, wordAt s.content f.type = ftypeDir → sizeBlocksOf s.content f ≤ i →
      i < w.toNat / 4096 → Holds s.content f (.data i) b → Blank s.content b) :
    CacheInv (s.store f.size w) ∧ Dirent (s.store f.size w).content f := by
  have hfield : HasField s.content f (.head 32) := (by decide : 32 < 64)
  have hcon : (s.store f.size w).content = putWord s.content f.size w := content_store hm
  have hc : Consistent (putWord s.content f.size w) := by
    refine hs.consistent.setHead (k := 32) hf (by decide) fun b hb => ?_
    obtain ⟨ht, i, hi, hold⟩ := hb
    have hold := (hs.consistent.holds_putHead hf hf (by decide)).mp hold
    have ht : wordAt s.content f.type = ftypeDir := by
      rw [← ht]
      refine (wordAt_putWord_of_ne fun he => ?_).symm
      exact absurd (hs.consistent.place_inj hf hf (x := .head 33) (by decide : 33 < 64) hfield he).2
        (by decide)
    have hsz : sizeBlocksOf (putWord s.content f.size w) f = w.toNat / 4096 := by
      rw [sizeBlocksOf, wordAt_putWord_self]
    by_cases hlt : i < sizeBlocksOf s.content f
    · exact .inl ⟨ht, i, hlt, hold⟩
    · exact .inr (hgrow i b ht (Nat.le_of_not_lt hlt) (hsz ▸ hi) hold)
  refine ⟨hs.store (x := .head 32) hf hfield hm hc, ?_⟩
  rw [hcon]
  exact Dirent.keep_self (fun d b hd hdf hb =>
    (hs.consistent.agrees_of_field hd hf hfield (.inl hdf)).dirBlock_iff.mpr hb) hf

/-- A file becomes a directory: its blocks hold zeros. -/
theorem setType (hs : CacheInv s) (hf : Dirent s.content f) (hm : s.mapped f.block = true)
    (hgrow : ∀ i b, i < sizeBlocksOf s.content f → Holds s.content f (.data i) b →
      Blank s.content b) : CacheInv (s.store f.type ftypeDir) := by
  have hfield : HasField s.content f (.head 33) := (by decide : 33 < 64)
  refine hs.store (x := .head 33) hf hfield hm
    (hs.consistent.setHead (k := 33) hf (by decide) fun b hb => .inr ?_)
  obtain ⟨-, i, hi, hold⟩ := hb
  have hsize : wordAt (putWord s.content (placeOf s.content f (.head 33)) ftypeDir) f.size =
      wordAt s.content f.size := by
    refine wordAt_putWord_of_ne fun he => ?_
    exact absurd (hs.consistent.place_inj hf hf (x := .head 32) (by decide : 32 < 64) hfield he).2
      (by decide)
  rw [sizeBlocksOf, hsize] at hi
  exact hgrow i b hi ((hs.consistent.holds_putHead hf hf (by decide)).mp hold)

/-- The indirect block is set free. -/
lemma clearIndirect (hs : CacheInv s) (hf : Dirent s.content f) (hm : s.mapped f.block = true)
    (hne : s.load f.indirect ≠ 0) :
    Shrinks f s ((MosVolca.freeBlock s (s.load f.indirect).toNat).store f.indirect 0) := by
  rw [load_eq (p := f.indirect) hm] at hne ⊢
  have hcd := hs.consistent
  have hblock : (0 : Word).toNat ≠ f.block := hcd.zero_ne_block hf
  have hblank : (0 : Word) ≠ 0 → Blank s.content (0 : Word).toNat := fun h => absurd rfl h
  refine hs.clearSlot (q := .indirect) hf Consistent.hasField_indirect hm hne (hcd.clearIndirect hf)
    (fun g y b hg hy => ?_) (fun g b hg hb =>
      hcd.dirBlock_putIndirect hg hf hblock hblank hb)
    (hcd.head_putIndirect hf hf (k := 32) (by decide) (by decide))
  rcases hcd.holds_putIndirect hg hf hblock hblank hy with hold | ⟨-, -, h0, -⟩
  · refine ⟨hold, ?_⟩
    rintro ⟨rfl, rfl⟩
    exact hy.2.1 (wordAt_putWord_self _ _ _)
  · exact absurd rfl h0

/-- **`file_truncate`** to a size that is not bigger. -/
theorem fileTruncate (hs : CacheInv s) (hf : Dirent s.content f) (hm : s.mapped f.block = true)
    (hle : w.toNat ≤ (s.load f.size).toNat) (h : fileTruncate s f w = .ok s') :
    CacheInv s' ∧ Dirent s'.content f ∧ wordAt s'.content f.size = w ∧
      ∀ b, s.mapped b = true → s'.mapped b = true := by
  unfold MosVolca.fileTruncate at h
  obtain ⟨s1, hloop, h1⟩ := bind_eq_ok.mp h
  have hs1 : Shrinks f s s1 := by
    refine foldlM_invariant (P := fun t => Shrinks f s t) (fun bno _ t t' ht hstep => ?_)
      ((Loads.refl s).shrinks hs hf) hloop
    obtain ⟨⟨r, t1⟩, hclear, hr⟩ := bind_eq_ok.mp hstep
    obtain rfl := Except.ok.inj hr
    exact ht.trans (ht.inv.fileClearBlock ht.self (ht.mapped _ hm) hclear)
  have hfinish : ∀ t, Shrinks f s t → CacheInv (t.store f.size w) ∧
      Dirent (t.store f.size w).content f ∧ wordAt (t.store f.size w).content f.size = w ∧
      ∀ b, s.mapped b = true → (t.store f.size w).mapped b = true := by
    intro t ht
    obtain ⟨hinv, hself⟩ := ht.inv.setSize (w := w) ht.self (ht.mapped _ hm) fun i b _ hge hi _ => by
      rw [sizeBlocksOf, ht.size, ← load_eq (p := f.size) hm] at hge
      have := Nat.div_le_div_right (c := 4096) hle
      omega
    have hm' : t.mapped f.size.block = true := ht.mapped _ hm
    exact ⟨hinv, hself, by rw [content_store hm', wordAt_putWord_self], ht.mapped⟩
  rw [pure_eq_ok, Except.ok.injEq] at h1
  rw [← h1]
  by_cases hind : (if w = 0 then 0 else w.toNat / 4096 + 1) ≤ ndirect ∧ s1.load f.indirect ≠ 0
  · rw [if_pos hind]
    exact hfinish _ (hs1.trans (hs1.inv.clearIndirect hs1.self (hs1.mapped _ hm) hind.2))
  · rw [if_neg hind]
    exact hfinish _ hs1

/-- The first access to a page: a block that is not in the cache is beyond the bitmap. -/
lemma touchBlock (hs : CacheInv s) (h : touchBlock s b = .ok s') :
    CacheInv s' ∧ ∀ x, s.mapped x = true → s'.mapped x = true := by
  rcases touchBlock_spec h with ⟨-, rfl⟩ | ⟨hno, hf⟩
  · exact ⟨hs, fun _ hx => hx⟩
  · have hb : b = 0 ∨ firstData s.content ≤ b := by
      by_contra hcon
      push Not at hcon
      exact absurd (hno.symm.trans (hs.map b (Nat.one_le_iff_ne_zero.mpr hcon.1) hcon.2))
        Bool.false_ne_true
    have hsame := sameMap_fill (c := s.content) hb
    refine ⟨⟨hf.super.trans hs.super, hf.bitmap.trans hs.bitmap, fun x hx hlt => ?_,
      hf.content ▸ hs.consistent.fillZero hb⟩, hf.mapped⟩
    rw [hf.content, firstData, hsame.nblocks] at hlt
    exact hf.mapped x (hs.map x hx hlt)

/-- `file_flush` of the directory, wherever it is. -/
lemma fileFlushDir (hs : CacheInv s) (h : fileFlushDir s f = .ok s') :
    CacheInv s' ∧ ∀ x, s.mapped x = true → s'.mapped x = true := by
  unfold MosVolca.fileFlushDir at h
  split_ifs at h
  · exact Except.ok.inj h ▸ ⟨hs, fun _ hx => hx⟩
  · split at h
    · simp at h
    · obtain ⟨s1, htouch, h1⟩ := bind_eq_ok.mp h
      obtain ⟨hs1, hm1⟩ := hs.touchBlock htouch
      have hl := fileFlush_loads h1
      exact ⟨hl.inv hs1, fun x hx => hl.mapped x (hm1 x hx)⟩

end CacheInv

end MosVolca
