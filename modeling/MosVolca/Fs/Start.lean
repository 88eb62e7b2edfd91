import MosVolca.Fs.BlockBits
import MosVolca.Fs.LinkLoops

/-!
# The start of the file server

`fs_init` on any disk, while the kernel has pages: which disks it accepts, and what it leaves behind.
On the way it smashes the super block, on the disk too, and repairs it from a copy in the page of
block 0.

## Main definitions

* `MosVolca.fetch` — the state after a block is read.
* `MosVolca.checked` — the state after `check_write_block`.
* `MosVolca.Acceptable` — the disks that the server starts with.
* `MosVolca.Started` — the state after the start.

## Main results

* `MosVolca.checkWriteBlock_eq` — the assertions of `check_write_block` hold.
* `MosVolca.fsInit_returns_iff` — when the start returns, and with what.
-/

namespace MosVolca

variable {s s' t : BlockCache} {disk : Blocks} {b q k : ℕ}

/-! ## Reading a block -/

/-- **A block is read** into its page, if it has none yet. -/
def fetch (s : BlockCache) (b : ℕ) : BlockCache :=
  if s.mapped b then s
  else { s with
    mem := fun q j => if q = b then s.disk b j else s.mem q j
    mapped := Function.update s.mapped b true
    dirty := Function.update s.dirty b false
    grants := fun k => s.grants (k + 1) }

section Fetch

@[simp] lemma fetch_of_mapped (h : s.mapped b = true) : fetch s b = s := if_pos h

@[simp] lemma fetch_disk : (fetch s b).disk = s.disk := by
  unfold fetch
  split_ifs <;> rfl

@[simp] lemma fetch_super : (fetch s b).super = s.super := by
  unfold fetch
  split_ifs <;> rfl

@[simp] lemma fetch_bitmap : (fetch s b).bitmap = s.bitmap := by
  unfold fetch
  split_ifs <;> rfl

@[simp] lemma fetch_mapped : (fetch s b).mapped = Function.update s.mapped b true := by
  unfold fetch
  split_ifs with h
  · rw [← h, Function.update_eq_self]
  · rfl

/-- What is in the cache stays there. -/
lemma fetch_keeps (h : s.mapped q = true) : (fetch s b).mapped q = true := by
  rw [fetch_mapped]
  by_cases hq : q = b
  · rw [hq, Function.update_self]
  · rwa [Function.update_of_ne hq]

lemma fetch_mem_of_ne (h : q ≠ b) : (fetch s b).mem q = s.mem q := by
  unfold fetch
  split_ifs
  · rfl
  · ext j
    simp [h]

lemma fetch_mem_self (h : s.mapped b = false) : (fetch s b).mem b = s.disk b := by
  unfold fetch
  simp [h]

lemma HasPages.fetch (h : HasPages s) : HasPages (fetch s b) := by
  intro k
  unfold MosVolca.fetch
  split_ifs
  · exact h k
  · exact h (k + 1)

/-- The size of the disk is in a page that is there. -/
lemma fetch_nblocks (h : s.mapped 1 = true) : (fetch s b).nblocks = s.nblocks := by
  unfold BlockCache.nblocks
  by_cases hb : 1 = b
  · rw [fetch_of_mapped (hb ▸ h)]
  · rw [fetch_mem_of_ne hb]

/-- **`read_block`**, before the bitmap is there. -/
lemma readBlock_eq (hg : HasPages s) (hbitmap : s.bitmap = false)
    (hsuper : s.super = true → b < s.nblocks) (hb : b < 0x40000) :
    readBlock s b = .ok (!s.mapped b, fetch s b) := by
  unfold readBlock diskaddr
  rw [if_neg fun h => absurd (hsuper h.1) (Nat.not_lt.mpr h.2), if_neg (by simp [hbitmap]),
    if_neg (Nat.not_le.mpr hb)]
  cases hm : s.mapped b with
  | true =>
    simp only [pure_bind, hm, if_true, fetch_of_mapped hm]
    rfl
  | false =>
    obtain ⟨s1, hs1⟩ : ∃ s1, (allocPage s b).2 = s1 := ⟨_, rfl⟩
    have hpage : allocPage s b = (0, { ({ s with grants := fun k => s.grants (k + 1) }).setBlock b
        fun _ => 0 with
        mapped := Function.update s.mapped b true, dirty := Function.update s.dirty b false }) :=
      if_pos (hg 0)
    have htouch : touchBlock (allocPage s b).2 b = .ok (allocPage s b).2 := by
      apply if_pos
      rw [hpage]
      exact Function.update_self _ _ _
    have hread : ideRead (allocPage s b).2 b = fetch s b := by
      rw [hpage]
      unfold fetch ideRead BlockCache.setBlock
      simp only [hm, Bool.false_eq_true, if_false]
      congr 1
      ext q j
      by_cases hq : q = b <;> simp [hq]
    show (if s.mapped b = true then _ else _) = _
    rw [hm, if_neg Bool.false_ne_true]
    show (touchBlock (allocPage s b).2 b >>= _) = _
    rw [htouch]
    show Except.ok (true, ideRead (allocPage s b).2 b) = _
    rw [hread]
    rfl

end Fetch

/-! ## The smashed super block -/

/-- The words of the message are found again. -/
lemma isOops_oops (w : ℕ → Word) : isOops (oops w) = true := by
  have hword : (w 1 &&& 0xFF000000#32 ||| 0x00000A21#32) &&& 0x00FFFFFF#32 = 0x00000A21#32 := by
    ext i hi
    simp only [BitVec.getElem_and, BitVec.getElem_or]
    have hmask : (0xFF000000#32)[i] = true → (0x00FFFFFF#32)[i] = false := by
      revert i
      decide
    have hmsg : (0x00000A21#32)[i] = true → (0x00FFFFFF#32)[i] = true := by
      revert i
      decide
    revert hmask hmsg
    cases (0xFF000000#32)[i] <;> cases (0x00FFFFFF#32)[i] <;> cases (0x00000A21#32)[i] <;> simp
  unfold isOops oops
  simp [hword]

/-- The state in which the super block is smashed on the disk, and its page is cleared out. -/
def smashed (s : BlockCache) : BlockCache :=
  let t := fetch { s with super := false } 0
  { t with
    mem := fun q => if q = 0 then s.mem 1 else if q = 1 then oops (s.mem 1) else t.mem q
    disk := fun q => if q = 1 then oops (s.mem 1) else s.disk q
    mapped := Function.update t.mapped 1 false }

/-- **The state after `check_write_block`**: the super block is in two pages, and on the disk. -/
def checked (s : BlockCache) : BlockCache :=
  let t := fetch (smashed s) 1
  { t with
    super := true
    mem := fun q => if q = 1 then s.mem 1 else t.mem q
    disk := fun q => if q = 1 then s.mem 1 else s.disk q }

lemma smashed_super : (smashed s).super = false := fetch_super

lemma smashed_bitmap : (smashed s).bitmap = s.bitmap := fetch_bitmap

lemma smashed_mapped : (smashed s).mapped 1 = false := by
  simp [smashed]

lemma smashed_hasPages (h : HasPages s) : HasPages (smashed s) :=
  HasPages.fetch (s := { s with super := false }) h

lemma userAssert_true : userAssert true s = .ok s := rfl

/-- A block whose page is there is written. -/
lemma writeBlock_eq (h : s.mapped 1 = true) : writeBlock s 1 = .ok (ideWrite s 1) := by
  show (if (!s.mapped 1) = true then _ else _) = _
  rw [h]
  rfl

/-- **`check_write_block`** returns.

**Proof sketch.** The super block is not there while the blocks 0 and 1 are read, so that no block is
out of range. What is read from block 1 is what was written to it, which is the message, so that the
last assertion holds. -/
theorem checkWriteBlock_eq (hm : s.mapped 1 = true) (hg : HasPages s) (hbitmap : s.bitmap = false) :
    checkWriteBlock s = .ok (checked s) := by
  obtain ⟨t0, ht0⟩ : ∃ t0, fetch { s with super := false } 0 = t0 := ⟨_, rfl⟩
  have hg0 : HasPages t0 := by
    rw [← ht0]
    exact HasPages.fetch (s := { s with super := false }) hg
  have hm0 : t0.mapped 1 = true := by
    rw [← ht0, fetch_mapped, Function.update_of_ne one_ne_zero]
    exact hm
  have hmem0 : t0.mem 1 = s.mem 1 := by
    rw [← ht0, fetch_mem_of_ne one_ne_zero]
  have hread0 : readBlock { s with super := false } 0 = .ok (!s.mapped 0, t0) := by
    rw [← ht0]
    exact readBlock_eq hg hbitmap (fun h => absurd h Bool.false_ne_true) (by decide)
  -- the super block is smashed and written
  obtain ⟨t2, ht2⟩ : ∃ t2, ideWrite ((t0.setBlock 0 (t0.mem 1)).setBlock 1
      (oops ((t0.setBlock 0 (t0.mem 1)).mem 1))) 1 = t2 := ⟨_, rfl⟩
  have hwrite : writeBlock ((t0.setBlock 0 (t0.mem 1)).setBlock 1
      (oops ((t0.setBlock 0 (t0.mem 1)).mem 1))) 1 = .ok t2 := by
    rw [← ht2]
    exact writeBlock_eq hm0
  have hm2 : t2.mapped 1 = true := by
    rw [← ht2]
    exact hm0
  have hsmash : { t2 with mapped := Function.update t2.mapped 1 false } = smashed s := by
    have hdisk0 : t0.disk = s.disk := by
      rw [← ht0, fetch_disk]
    rw [← ht2]
    unfold smashed
    simp only [ht0, ideWrite, BlockCache.setBlock, BlockCache.mk.injEq, and_true, true_and, hmem0, hdisk0]
    constructor
    · ext q j
      by_cases h1 : q = 1
      · simp [h1]
      · by_cases h0 : q = 0 <;> simp [h0, h1]
    · ext q j
      by_cases h1 : q = 1 <;> simp [h1]
  -- it is read from the disk again
  obtain ⟨t4, ht4⟩ : ∃ t4, fetch (smashed s) 1 = t4 := ⟨_, rfl⟩
  have hread : readBlock (smashed s) 1 = .ok (!(smashed s).mapped 1, t4) := by
    rw [← ht4]
    apply readBlock_eq (smashed_hasPages hg) (smashed_bitmap.trans hbitmap)
    · exact fun h => absurd (smashed_super.symm.trans h) Bool.false_ne_true
    · decide
  have hm4 : t4.mapped 1 = true := by
    rw [← ht4, fetch_mapped]
    exact Function.update_self _ _ _
  have hmem4 : t4.mem 1 = oops (s.mem 1) := by
    rw [← ht4, fetch_mem_self smashed_mapped]
    rfl
  have hzero : t4.mem 0 = s.mem 1 := by
    rw [← ht4, fetch_mem_of_ne zero_ne_one]
    rfl
  have hlast : writeBlock (t4.setBlock 1 (t4.mem 0)) 1 =
      .ok (ideWrite (t4.setBlock 1 (t4.mem 0)) 1) := writeBlock_eq hm4
  have hend : { ideWrite (t4.setBlock 1 (t4.mem 0)) 1 with super := true } = checked s := by
    have hdisk4 : t4.disk = (smashed s).disk := by
      rw [← ht4, fetch_disk]
    unfold checked
    simp only [ht4, ideWrite, BlockCache.setBlock, BlockCache.mk.injEq, and_true, true_and, hzero, hdisk4]
    constructor
    · ext q j
      by_cases h1 : q = 1 <;> simp [h1]
    · ext q j
      by_cases h1 : q = 1 <;> simp [h1, smashed]
  unfold checkWriteBlock
  simp only [hread0, ok_bind, hwrite, hm2, userAssert_true, hsmash, Function.update_self, Bool.not_false,
    hread, hmem4, isOops_oops, hlast]
  exact congrArg Except.ok hend

/-! ## The bitmap -/

/-- Reading a block keeps the contents. -/
@[simp] lemma fetch_content : (fetch s b).content = s.content := by
  ext q j
  unfold BlockCache.content
  rw [fetch_mapped, fetch_disk]
  by_cases hq : q = b
  · subst hq
    rw [Function.update_self, if_pos rfl]
    cases hm : s.mapped q with
    | true => rw [fetch_of_mapped hm, if_pos rfl]
    | false => rw [fetch_mem_self hm, if_neg Bool.false_ne_true]
  · rw [Function.update_of_ne hq, fetch_mem_of_ne hq]

/-- The state after the loop of `read_bitmap`. -/
def fetchAll (s : BlockCache) (l : List ℕ) : BlockCache := l.foldl (fun s i => fetch s (i + 2)) s

/-- What reading a block keeps is kept by the loop. -/
lemma fetchAll_induction {P : BlockCache → Prop} (hstep : ∀ s b, P s → P (fetch s b)) (h : P s)
    (l : List ℕ) : P (fetchAll s l) := by
  induction l generalizing s with
  | nil => exact h
  | cons i l ih => exact ih (hstep s (i + 2) h)

lemma fetchAll_mapped (l : List ℕ) :
    (fetchAll s l).mapped b = true ↔ s.mapped b = true ∨ ∃ i ∈ l, b = i + 2 := by
  induction l generalizing s with
  | nil => simp [fetchAll]
  | cons i l ih =>
    show (fetchAll (fetch s (i + 2)) l).mapped b = true ↔ _
    rw [ih, fetch_mapped]
    by_cases hb : b = i + 2
    · simp [hb]
    · simp [hb]

section Bitmap

variable (hm : s.mapped 1 = true) (hg : HasPages s) (hbitmap : s.bitmap = false) (hsuper : s.super = true)
  (hn : s.nblocks ≤ 0x40000)

/-- One round of the loop. -/
def readRound (s : BlockCache) (i : ℕ) : Kernel BlockCache := do
  let (_, s) ← readBlock s (i + 2)
  pure s

include hm hg hbitmap hsuper hn in
/-- **The loop of `read_bitmap`** returns exactly if all its blocks are on the disk. -/
lemma foldlM_readRound (l : List ℕ) :
    (∀ i ∈ l, i + 2 < s.nblocks) ∧ l.foldlM readRound s = .ok (fetchAll s l) ∨
      (¬ ∀ i ∈ l, i + 2 < s.nblocks) ∧ ∃ e, l.foldlM readRound s = .error e := by
  induction l generalizing s with
  | nil => exact .inl ⟨fun i hi => absurd hi (List.not_mem_nil), rfl⟩
  | cons i l ih =>
    rw [List.foldlM_cons]
    rcases Nat.lt_or_ge (i + 2) s.nblocks with hi | hi
    · have hread : readRound s i = .ok (fetch s (i + 2)) := by
        unfold readRound
        rw [readBlock_eq hg hbitmap (fun _ => hi) (by omega)]
        rfl
      have hnb : (fetch s (i + 2)).nblocks = s.nblocks := fetch_nblocks hm
      have hrest := ih (fetch_keeps hm) hg.fetch (fetch_bitmap.trans hbitmap) (fetch_super.trans hsuper)
        (hnb.trans_le hn)
      rw [hread, ok_bind]
      rw [hnb] at hrest
      simp only [List.forall_mem_cons, hi, true_and]
      exact hrest
    · right
      refine ⟨fun hall => absurd (hall i List.mem_cons_self) (Nat.not_lt.mpr hi), ?_⟩
      refine ⟨.panic "reading non-existent block", ?_⟩
      unfold readRound readBlock
      rw [if_pos ⟨hsuper, hi⟩]
      rfl

/-- The assertions hold exactly if no block of the list is free. -/
lemma foldlM_userAssert_cases (l : List ℕ) :
    (∀ b ∈ l, blockIsFree t b = false) ∧
        l.foldlM (fun s b => userAssert (!blockIsFree s b) s) t = .ok t ∨
      (¬ ∀ b ∈ l, blockIsFree t b = false) ∧
        ∃ e, l.foldlM (fun s b => userAssert (!blockIsFree s b) s) t = .error e := by
  induction l with
  | nil => exact .inl ⟨fun b hb => absurd hb (List.not_mem_nil), rfl⟩
  | cons b l ih =>
    rw [List.foldlM_cons]
    cases hfree : blockIsFree t b with
    | true =>
      right
      refine ⟨fun hall => ?_, .panic "assertion failed", rfl⟩
      exact absurd (hfree.symm.trans (hall b List.mem_cons_self)) (by decide)
    | false =>
      simp only [List.forall_mem_cons, hfree, true_and]
      exact ih

/-- The assertions of `read_bitmap` are for all blocks up to the bitmap. -/
lemma readBitmap_eq : readBitmap s = ((List.range' 0 s.nbitmap).foldlM readRound s >>= fun t =>
    (List.range (s.nbitmap + 2)).foldlM (fun s b => userAssert (!blockIsFree s b) s)
      { t with bitmap := true }) := by
  have hrange : List.range (s.nbitmap + 2) = 0 :: 1 :: (List.range' 0 s.nbitmap).map (· + 2) := by
    rw [List.range_succ_eq_map, List.range_succ_eq_map, ← List.range_eq_range']
    simp
  simp only [hrange, List.foldlM_cons, List.foldlM_map]
  rfl

/-- The state after `read_bitmap`. -/
def withBitmap (s : BlockCache) : BlockCache :=
  { fetchAll s (List.range' 0 s.nbitmap) with bitmap := true }

/-- The number of blocks and the bits of the blocks are those of the disk. -/
lemma withBitmap_isFree (hm : s.mapped 1 = true) (hsuper : s.super = true) (hb : b < s.nblocks) :
    blockIsFree (withBitmap s) b = Bitmap.test (bitsOf s.content) b := by
  have hsuper' : (withBitmap s).super = true := fetchAll_induction
    (P := fun t => t.super = true) (fun t q h => fetch_super.trans h) hsuper _
  have hnb : (withBitmap s).nblocks = s.nblocks := (fetchAll_induction
    (P := fun t => t.mapped 1 = true ∧ t.nblocks = s.nblocks) (fun t q h =>
      ⟨fetch_keeps h.1, (fetch_nblocks h.1).trans h.2⟩) ⟨hm, rfl⟩ _).2
  have hcontent : (fetchAll s (List.range' 0 s.nbitmap)).content = s.content := fetchAll_induction
    (P := fun t => t.content = s.content) (fun t q h => fetch_content.trans h) rfl _
  rw [blockIsFree_eq hsuper' (hnb.symm ▸ hb)]
  have hmap : (fetchAll s (List.range' 0 s.nbitmap)).mapped (2 + b / 32 / 1024) = true := by
    rw [fetchAll_mapped]
    right
    refine ⟨b / 32768, List.mem_range'.mpr ⟨b / 32768, ?_, by omega⟩, by omega⟩
    unfold BlockCache.nbitmap
    omega
  unfold Bitmap.test
  congr 1
  show (fetchAll s (List.range' 0 s.nbitmap)).mem (2 + b / 32 / 1024) (b / 32 % 1024) = _
  rw [← content_of_mapped hmap, hcontent]
  rfl

include hm hg hbitmap hsuper hn in
/-- **`read_bitmap`** returns exactly if its blocks are on the disk and no block up to the last one of
them is free. -/
theorem readBitmap_cases :
    (3 ≤ s.nblocks ∧ (∀ b < s.nbitmap + 2, Bitmap.test (bitsOf s.content) b = false)) ∧
        readBitmap s = .ok (withBitmap s) ∨
      (¬ (3 ≤ s.nblocks ∧ ∀ b < s.nbitmap + 2, Bitmap.test (bitsOf s.content) b = false)) ∧
        ∃ e, readBitmap s = .error e := by
  have hrange : ∀ i, i ∈ List.range' 0 s.nbitmap ↔ i < s.nbitmap := by
    intro i
    rw [List.mem_range'_1]
    omega
  have hcount : s.nbitmap = s.nblocks / 32768 + 1 := rfl
  rw [readBitmap_eq]
  rcases foldlM_readRound hm hg hbitmap hsuper hn (List.range' 0 s.nbitmap) with
    ⟨hall, hloop⟩ | ⟨hall, e, hloop⟩
  · -- all blocks of the bitmap are on the disk
    have h3 : 3 ≤ s.nblocks := by
      have := hall (s.nbitmap - 1) ((hrange _).mpr (by omega))
      omega
    have hfree : (∀ b ∈ List.range (s.nbitmap + 2), blockIsFree (withBitmap s) b = false) ↔
        ∀ b < s.nbitmap + 2, Bitmap.test (bitsOf s.content) b = false := by
      refine forall_congr' fun b => ?_
      rw [List.mem_range]
      exact forall_congr' fun hb => by rw [withBitmap_isFree hm hsuper (by omega)]
    rw [hloop, ok_bind]
    rcases foldlM_userAssert_cases (t := withBitmap s) (List.range (s.nbitmap + 2)) with
      ⟨hno, hok⟩ | ⟨hno, herr⟩
    · exact .inl ⟨⟨h3, hfree.mp hno⟩, hok⟩
    · exact .inr ⟨fun h => hno (hfree.mpr h.2), herr⟩
  · refine .inr ⟨fun h => hall fun i hi => ?_, e, by rw [hloop]; rfl⟩
    have hi := (hrange i).mp hi
    have h3 := h.1
    omega

end Bitmap

/-! ## The start -/

/-- **A disk that the server starts with**: it has the magic number, it is neither too small nor too
large, and its blocks up to the bitmap are in use. -/
structure Acceptable (disk : Blocks) : Prop where
  magic : disk 1 0 = fsMagic
  ge : 3 ≤ nblocksOf disk
  le : nblocksOf disk ≤ 0x40000
  used : ∀ b < firstData disk, ¬ IsFree disk b

/-- **What the start leaves**: the disk is as it was, and the blocks up to the bitmap are in the cache,
where block 0 is a copy of the super block. -/
structure Started (disk : Blocks) (t : BlockCache) : Prop where
  written : t.disk = disk
  content : t.content = Function.update disk 0 (disk 1)
  mapped : ∀ b, t.mapped b = true ↔ b < firstData disk
  pages : HasPages t

/-- The state after `read_super`. -/
def withSuper (disk : Blocks) : BlockCache :=
  { fetch (BlockCache.off disk fun _ => true) 1 with super := true }

lemma withSuper_mem : (withSuper disk).mem 1 = disk 1 :=
  fetch_mem_self (s := BlockCache.off disk fun _ => true) (b := 1) rfl

lemma withSuper_nblocks : (withSuper disk).nblocks = nblocksOf disk :=
  congrArg (fun w => (w 1).toNat) withSuper_mem

lemma withSuper_mapped : (withSuper disk).mapped = Function.update (fun _ => false) 1 true :=
  fetch_mapped

lemma withSuper_pages : HasPages (withSuper disk) :=
  HasPages.fetch (s := BlockCache.off disk fun _ => true) (b := 1) fun _ => rfl

lemma withSuper_bitmap : (withSuper disk).bitmap = false := fetch_bitmap

lemma withSuper_disk : (withSuper disk).disk = disk := fetch_disk

variable (disk) in
/-- **`read_super`** looks at the magic number and at the size. -/
lemma readSuper_cases :
    (disk 1 0 = fsMagic ∧ nblocksOf disk ≤ 0x40000) ∧
        readSuper (BlockCache.off disk fun _ => true) = .ok (withSuper disk) ∨
      (¬ (disk 1 0 = fsMagic ∧ nblocksOf disk ≤ 0x40000)) ∧
        ∃ e, readSuper (BlockCache.off disk fun _ => true) = .error e := by
  have hread := readBlock_eq (s := BlockCache.off disk fun _ => true) (b := 1) (fun _ => rfl) rfl
    (fun h => absurd h Bool.false_ne_true) (by decide)
  have hrun : readSuper (BlockCache.off disk fun _ => true) =
      if (withSuper disk).mem 1 0 ≠ fsMagic then throw (.panic "bad file system magic number")
      else if (withSuper disk).nblocks > 0x40000 then throw (.panic "file system is too large")
      else pure (withSuper disk) := by
    unfold readSuper
    rw [hread]
    rfl
  rw [hrun, withSuper_mem, withSuper_nblocks]
  by_cases hmagic : disk 1 0 = fsMagic
  · rw [if_neg (not_not_intro hmagic)]
    by_cases hlarge : nblocksOf disk > 0x40000
    · rw [if_pos hlarge]
      exact .inr ⟨fun h => absurd h.2 (Nat.not_le.mpr hlarge), _, rfl⟩
    · rw [if_neg hlarge]
      exact .inl ⟨⟨hmagic, Nat.not_lt.mp hlarge⟩, rfl⟩
  · rw [if_pos hmagic]
    exact .inr ⟨fun h => hmagic h.1, _, rfl⟩

lemma checked_mapped :
    (checked s).mapped = Function.update (Function.update s.mapped 0 true) 1 true := by
  simp [checked, smashed]

lemma checked_pages (hg : HasPages s) : HasPages (checked s) :=
  HasPages.fetch (s := smashed s) (b := 1) (smashed_hasPages hg)

lemma checked_bitmap : (checked s).bitmap = s.bitmap := fetch_bitmap.trans smashed_bitmap

lemma checked_nblocks : (checked s).nblocks = s.nblocks := rfl

/-- The pages of the blocks 0 and 1 have the super block, and the other ones stay. -/
lemma checked_mem : (checked s).mem q = if q = 0 ∨ q = 1 then s.mem 1 else (checked s).mem q := by
  split_ifs with hq
  · rcases hq with rfl | rfl
    · funext j
      simp [checked, smashed, fetch_mem_of_ne]
    · rfl
  · rfl

/-- The contents, if the super block in the cache is the one on the disk. -/
lemma checked_content (hdisk : s.mem 1 = s.disk 1) (hother : ∀ b ≠ 1, s.mapped b = false) :
    (checked s).disk = s.disk ∧ (checked s).content = Function.update s.disk 0 (s.disk 1) := by
  have hd : (checked s).disk = s.disk := by
    funext q j
    by_cases hq : q = 1
    · subst hq
      exact congrFun hdisk j
    · simp [checked, hq]
  refine ⟨hd, ?_⟩
  funext q j
  unfold BlockCache.content
  rw [hd, checked_mapped, checked_mem]
  by_cases h1 : q = 1
  · simp [h1, hdisk]
  · by_cases h0 : q = 0
    · simp [h0, hdisk]
    · simp [h0, h1, hother q h1]

lemma checked_withSuper_mapped : (checked (withSuper disk)).mapped 1 = true := by
  rw [checked_mapped, Function.update_self]

lemma checked_withSuper_nblocks : (checked (withSuper disk)).nblocks = nblocksOf disk :=
  checked_nblocks.trans withSuper_nblocks

variable (disk) in
lemma checked_withSuper_nbitmap : (checked (withSuper disk)).nbitmap + 2 = firstData disk := by
  unfold BlockCache.nbitmap firstData
  rw [checked_withSuper_nblocks]

variable (disk) in
/-- The disk and the contents before the bitmap is read. -/
lemma checked_withSuper_content : (checked (withSuper disk)).disk = disk ∧
    (checked (withSuper disk)).content = Function.update disk 0 (disk 1) := by
  have hmem : (withSuper disk).mem 1 = (withSuper disk).disk 1 := by
    rw [withSuper_mem, withSuper_disk]
  have hchecked := checked_content hmem fun b hb => by
    rw [withSuper_mapped, Function.update_of_ne hb]
  rwa [withSuper_disk] at hchecked

/-- The state after the bitmap is read. -/
lemma started : Started disk (withBitmap (checked (withSuper disk))) := by
  have hlast := checked_withSuper_nbitmap disk
  obtain ⟨hdisk, hcontent⟩ := checked_withSuper_content disk
  refine ⟨?_, ?_, fun b => ?_, ?_⟩
  · exact fetchAll_induction (P := fun t => t.disk = disk) (fun t q h => fetch_disk.trans h) hdisk _
  · exact fetchAll_induction (P := fun t => t.content = Function.update disk 0 (disk 1))
      (fun t q h => fetch_content.trans h) hcontent _
  · show (fetchAll _ _).mapped b = true ↔ _
    rw [fetchAll_mapped, checked_mapped, withSuper_mapped]
    constructor
    · rintro (hb | ⟨i, hi, rfl⟩)
      · by_contra hge
        rw [Function.update_of_ne (by omega), Function.update_of_ne (by omega),
          Function.update_of_ne (by omega)] at hb
        exact Bool.false_ne_true hb
      · rw [List.mem_range'_1] at hi
        omega
    · intro hb
      rcases Nat.lt_or_ge b 2 with h2 | h2
      · left
        obtain rfl | rfl : b = 0 ∨ b = 1 := by omega
        · simp
        · simp
      · right
        exact ⟨b - 2, List.mem_range'_1.mpr ⟨Nat.zero_le _, by omega⟩, by omega⟩
  · exact fetchAll_induction (P := HasPages) (fun t q h => h.fetch) (checked_pages withSuper_pages) _

/-- What `read_super` and `read_bitmap` look at. -/
lemma acceptable_iff : Acceptable disk ↔ (disk 1 0 = fsMagic ∧ nblocksOf disk ≤ 0x40000) ∧
    3 ≤ nblocksOf disk ∧ ∀ b < firstData disk, Bitmap.test (bitsOf disk) b = false := by
  have hlast : firstData disk = nblocksOf disk / 32768 + 3 := rfl
  constructor
  · rintro ⟨hmagic, h3, hlarge, hused⟩
    refine ⟨⟨hmagic, hlarge⟩, h3, fun b hb => ?_⟩
    by_contra hne
    exact hused b hb ⟨by omega, by simpa using hne⟩
  · rintro ⟨⟨hmagic, hlarge⟩, h3, hused⟩
    refine ⟨hmagic, h3, hlarge, fun b hb hfree => ?_⟩
    exact absurd ((hused b hb).symm.trans hfree.2) (by decide)

variable (disk) in
/-- The start returns with the state after the bitmap is read, or it does not return. -/
lemma fsInit_cases :
    Acceptable disk ∧ fsInit (BlockCache.off disk fun _ => true) =
        .ok (withBitmap (checked (withSuper disk))) ∨
      ¬ Acceptable disk ∧ ∃ e, fsInit (BlockCache.off disk fun _ => true) = .error e := by
  rw [acceptable_iff]
  unfold fsInit
  rcases readSuper_cases disk with ⟨hgood, hsuper⟩ | ⟨hno, e, hsuper⟩
  · have hm : (withSuper disk).mapped 1 = true := by
      rw [withSuper_mapped, Function.update_self]
    have hbits : bitsOf (checked (withSuper disk)).content = bitsOf disk := by
      funext k
      unfold bitsOf
      rw [(checked_withSuper_content disk).2, Function.update_of_ne (by omega)]
    have hcases := readBitmap_cases checked_withSuper_mapped (checked_pages withSuper_pages)
      (checked_bitmap.trans withSuper_bitmap) rfl (checked_withSuper_nblocks.trans_le hgood.2)
    rw [checked_withSuper_nbitmap, hbits, checked_withSuper_nblocks] at hcases
    rw [hsuper, ok_bind, checkWriteBlock_eq hm withSuper_pages withSuper_bitmap, ok_bind]
    simp only [hgood, true_and]
    exact hcases
  · rw [hsuper]
    exact .inr ⟨fun h => hno h.1, e, rfl⟩

/-- What the start leaves when it returns. -/
lemma started_of_fsInit (h : fsInit (BlockCache.off disk fun _ => true) = .ok t) : Started disk t := by
  rcases fsInit_cases disk with ⟨-, hok⟩ | ⟨-, e, herr⟩
  · obtain rfl := Except.ok.inj (hok.symm.trans h)
    exact started
  · exact nomatch herr.symm.trans h

/-- **When the server starts.** While the kernel has pages, `fs_init` returns exactly if the disk has the
magic number, between 3 blocks and as many as fit into the cache, and no free block up to the bitmap.
Then the disk is as it was, although the super block was smashed, and the cache has the blocks up to the
bitmap.

**Proof sketch.** `read_super` looks at the magic number and at the size, and nothing after it changes
these. `check_write_block` always returns, and changes the contents of block 0 only. `read_bitmap` reads
its blocks from a disk with a super block, so that a disk without room for them is out of range, and its
assertions look at the bits of the blocks up to the bitmap. -/
theorem fsInit_returns_iff (disk : Blocks) :
    ((∃ t, fsInit (BlockCache.off disk fun _ => true) = .ok t) ↔ Acceptable disk) ∧
      ∀ t, fsInit (BlockCache.off disk fun _ => true) = .ok t → Started disk t := by
  refine ⟨?_, fun t => started_of_fsInit⟩
  rcases fsInit_cases disk with ⟨hacc, hok⟩ | ⟨hacc, e, herr⟩
  · exact iff_of_true ⟨_, hok⟩ hacc
  · exact iff_of_false (fun ⟨t, ht⟩ => nomatch herr.symm.trans ht) hacc

end MosVolca
