import MosVolca.Fs.PathCases

/-!
# A creation without a block

`dir_alloc_file` enlarges a full directory before it gets the block for the new structure. If there
is none, the directory stays enlarged, and `file_create` returns what `walk_path` has returned for
the missing file instead of the error of the allocation.

## Main definitions

* `MosVolca.GrowFails` — the directory has to grow, and there is no block for it.
* `MosVolca.LeavesDirectory` — the directory is as before, and the error is reported.

## Main results

* `MosVolca.fileCreate_grow_fails` — the directory is never left as it was.
-/

namespace MosVolca

variable {s s' s1 s2 : BlockCache} {f dir : FilePtr} {n i bno depth : ℕ} {path : List Char8}
  {w r : Word}

/-- The loop of `dir_alloc_file` finds no free structure in `n` blocks from block `i` on, and ends
in the state `s'`. -/
def DirFull (dir : FilePtr) : ℕ → ℕ → BlockCache → BlockCache → Prop
  | 0, _, s, s' => s' = s
  | n + 1, i, s, s' => ∃ blk s1, fileGetBlock s dir i = .ok (.ok blk, s1) ∧
      findFree s1 blk = none ∧ DirFull dir n (i + 1) s1 s'

/-- The parent `dir` of a new file is full, and the block with which it has to grow cannot be
allocated: the error is `r`, and `s'` is the state then. -/
def GrowFails (s : BlockCache) (depth : ℕ) (path : List Char8) (dir : FilePtr) (r : Word)
    (s' : BlockCache) : Prop :=
  ∃ w s1 s2, walkPath s path depth = .ok (w, s1) ∧ w.code = -eNotFound ∧ w.dir = some dir ∧
    DirFull dir (s1.sizeBlocks dir) 0 s1 s2 ∧
    fileGetBlock (s2.store dir.size (s2.load dir.size + 4096)) dir (s1.sizeBlocks dir) =
      .ok (.error r, s')

/-- A creation that returns `code` where an allocation has failed with `r` leaves the directory as
it was in the state `s`, and reports `r`. -/
structure LeavesDirectory (s s' : BlockCache) (dir : FilePtr) (code r : Word) : Prop where
  size : s'.load dir.size = s.load dir.size
  direct : ∀ i < ndirect, s'.load (dir.direct i) = s.load (dir.direct i)
  indirect : s'.load dir.indirect = s.load dir.indirect
  far : s.load dir.indirect ≠ 0 → ∀ i, ndirect ≤ i → i < nindirect →
    s'.content (s.load dir.indirect).toNat i = s.content (s.load dir.indirect).toNat i
  lookups : ∀ name, (dirLookup s' dir name).map Prod.fst = (dirLookup s dir name).map Prod.fst
  error : code = r

/-! ## The creation -/

/-- No error of an allocation is the code that `walk_path` returns for a missing file. -/
lemma fileGetBlock_ne_notFound (h : fileGetBlock s f bno = .ok (.error r, s')) : -eNotFound ≠ r := by
  rcases fileGetBlock_error h with rfl | rfl | rfl
  · decide
  · decide
  · decide

/-- In a full directory the loop comes to its end. -/
lemma dirAllocFrom_full (h : DirFull dir n i s s') :
    dirAllocFrom s dir n i = dirGrow s' dir (i + n) := by
  induction n generalizing i s with
  | zero =>
    obtain rfl : s' = s := h
    rfl
  | succ n ih =>
    obtain ⟨blk, s1, hget, hfree, hrest⟩ := h
    rw [dirAllocFrom, hget, ok_bind]
    simp only [hfree]
    rw [ih hrest, Nat.add_assoc, Nat.add_comm 1 n]

/-- What `file_create` does. -/
lemma fileCreate_of_growFails (h : GrowFails s depth path dir r s') :
    fileCreate s depth path = .ok (-eNotFound, none, s') := by
  obtain ⟨w, s1, s2, hwalk, hcode, hdir, hfull, hget⟩ := h
  have halloc : dirAllocFile s1 dir = .ok (.error r, s') := by
    unfold dirAllocFile
    rw [dirAllocFrom_full hfull, Nat.zero_add, dirGrow, hget, ok_bind]
    rfl
  unfold fileCreate
  rw [hwalk, ok_bind]
  simp only [hcode, hdir]
  rw [if_neg (by decide), if_neg (by decide), halloc, ok_bind]
  rfl

/-- The blocks of a full directory are read, or allocated where they are missing. -/
lemma CacheInv.dirFull (hs : CacheInv s) (hd : InCache s dir)
    (ht : wordAt s.content dir.type = ftypeDir) (hclean : AllocFileClean s dir n i)
    (h : DirFull dir n i s s') :
    CacheInv s' ∧ Grows s s' ∧ GrowClean s' dir (i + n) := by
  induction n generalizing i s with
  | zero =>
    obtain rfl : s' = s := h
    exact ⟨hs, (Loads.refl _).grows, hclean⟩
  | succ n ih =>
    obtain ⟨blk, s1, hget, hfree, hrest⟩ := h
    obtain ⟨hs1, hg, -⟩ := hs.fileGetBlock hd.dirent hd.mapped hget hclean.1
    obtain ⟨hs', hg', hgrow⟩ := ih hs1 (hg.inCache hd) ((hg.type dir hd.dirent).trans ht)
      (hclean.2 blk s1 hget hfree) hrest
    refine ⟨hs', hg.trans hg', ?_⟩
    rwa [Nat.add_assoc, Nat.add_comm 1 n] at hgrow

/-- In a consistent cache with clean pages, the directory is larger by one block afterwards. -/
lemma CacheInv.growFails_size (hs : CacheInv s) (hclean : CreateClean s depth path)
    (hd : InCache s dir) (h : GrowFails s depth path dir r s') :
    s'.load dir.size = s.load dir.size + 4096 := by
  obtain ⟨w, s1, s2, hwalk, hcode, hdir, hfull, hget⟩ := h
  obtain ⟨hs1, hg1, hres, -⟩ := hs.walkPath hwalk hclean.1
  have hd1 := hres.dir dir hdir
  have ht1 := hres.type (by rw [hcode]; decide) dir hdir
  obtain ⟨hs2, hg2, hgrow⟩ := hs1.dirFull hd1 ht1 (hclean.2 w s1 dir hwalk hcode hdir) hfull
  rw [Nat.zero_add] at hgrow
  have hd2 := hg2.inCache hd1
  have hsize2 : wordAt s2.content dir.size = wordAt s.content dir.size :=
    (hg2.size dir hd1.dirent).trans (hg1.size dir hd.dirent)
  have hn : s1.sizeBlocks dir = sizeBlocksOf s2.content dir := by
    rw [CacheInv.sizeBlocks_eq hd1.mapped, sizeBlocksOf, sizeBlocksOf, hg2.size dir hd1.dirent]
  have hnew : (s2.load dir.size + 4096).toNat =
      ((wordAt s2.content dir.size).toNat + 4096) % 2 ^ 32 := by
    rw [BitVec.toNat_add, load_eq (p := dir.size) hd2.mapped]
    rfl
  obtain ⟨hs3, hd3⟩ := hs2.setSize (w := s2.load dir.size + 4096) hd2.dirent hd2.mapped
    fun j b _ hge hlt hold => by
      have : j = s1.sizeBlocks dir := by
        rw [hn]
        unfold sizeBlocksOf at hge ⊢
        omega
      exact hgrow.1 b (this ▸ hold)
  obtain ⟨-, hg', -⟩ := hs3.fileGetBlock hd3 hd2.mapped hget hgrow.2
  have hm' : s'.mapped dir.block = true := hg'.mapped _ hd2.mapped
  rw [load_eq (p := dir.size) hm', hg'.size dir hd3, content_store (p := dir.size) hd2.mapped,
    wordAt_putWord_self, load_eq (p := dir.size) hd2.mapped, load_eq (p := dir.size) hd.mapped, hsize2]

/-- **A creation without a block never leaves the directory as it was and reports the error**: it
returns `-E_NOT_FOUND`, which is no error of an allocation. In a consistent cache with clean pages
the directory is larger by one block. -/
theorem fileCreate_grow_fails (h : GrowFails s depth path dir r s') :
    (∀ code x t, fileCreate s depth path = .ok (code, x, t) → ¬ LeavesDirectory s t dir code r) ∧
      (CacheInv s → CreateClean s depth path → InCache s dir →
        s'.load dir.size = s.load dir.size + 4096) := by
  refine ⟨fun code x t hcreate hleaves => ?_, fun hs hclean hd => hs.growFails_size hclean hd h⟩
  rw [fileCreate_of_growFails h] at hcreate
  cases hcreate
  obtain ⟨w, s1, s2, -, -, -, -, hget⟩ := h
  exact fileGetBlock_ne_notFound hget hleaves.error

/-! ## A full disk -/

/-- An empty root on a disk whose blocks are all in use. -/
def fullDisk : BlockCache where
  mem := fun b i =>
    if b = 1 then if i = 0 then fsMagic else if i = 1 then 1024 else if i = 35 then ftypeDir else 0
    else 0
  mapped := fun b => decide (b < 3)
  dirty := fun _ => false
  disk := fun b i =>
    if b = 1 then if i = 0 then fsMagic else if i = 1 then 1024 else if i = 35 then ftypeDir else 0
    else 0
  super := true
  bitmap := true
  grants := fun _ => true

/-- The root with the size of one block. -/
def fullDiskGrown : BlockCache := fullDisk.store FilePtr.root.size 4096

lemma firstFree_fullDiskGrown : firstFree fullDiskGrown = none := by
  refine List.find?_eq_none.mpr fun b hb => ?_
  have hbits : fullDiskGrown.bits (b / 32) = 0 := by
    have hword : fullDiskGrown.bits (b / 32) = fullDisk.bits (b / 32) :=
      TwoLevel.write_of_ne (.inl (show 2 + b / 32 / 1024 ≠ 1 by omega))
    rw [hword]
    exact if_neg (by omega)
  rw [hbits, decide_eq_true_eq, not_not]
  exact BitVec.zero_and

/-- There is no block for a second block of the root. -/
lemma fullDisk_growFails :
    GrowFails fullDisk 1 [0x2F, 0x61] FilePtr.root (-eNoDisk) fullDiskGrown := by
  have hget : fileGetBlock fullDiskGrown FilePtr.root 0 = .ok (.error (-eNoDisk), fullDiskGrown) := by
    have halloc : allocBlock fullDiskGrown = .ok (.error (-eNoDisk), fullDiskGrown) := by
      unfold allocBlock allocBlockNum
      rw [firstFree_fullDiskGrown]
      rfl
    unfold fileGetBlock fileMapBlock fileBlockWalk
    rw [if_pos (by decide), pure_eq_ok, ok_bind]
    simp only
    rw [if_pos (by decide), if_pos trivial, halloc]
    rfl
  refine ⟨⟨-eNotFound, some FilePtr.root, none, [0x61]⟩, fullDisk, fullDisk, ?_, rfl, rfl, rfl, ?_⟩
  · rfl
  · exact hget

/-- The creation of `a` on a full disk. -/
theorem fileCreate_grow_fails_full :
    (∀ code x t, fileCreate fullDisk 1 [0x2F, 0x61] = .ok (code, x, t) →
      ¬ LeavesDirectory fullDisk t FilePtr.root code (-eNoDisk)) ∧
    (CacheInv fullDisk → CreateClean fullDisk 1 [0x2F, 0x61] → InCache fullDisk FilePtr.root →
      fullDiskGrown.load FilePtr.root.size = fullDisk.load FilePtr.root.size + 4096) :=
  fileCreate_grow_fails fullDisk_growFails

/-- **The error is not reported**, and the root stays enlarged. -/
theorem create_enlarges_directory : ¬ ∀ s depth path dir r s' code x t,
    GrowFails s depth path dir r s' → fileCreate s depth path = .ok (code, x, t) →
      LeavesDirectory s t dir code r := by
  intro h
  have hleaves := h _ _ _ _ _ _ _ _ _ fullDisk_growFails (fileCreate_of_growFails fullDisk_growFails)
  have hsize : (4096 : Word) = 0 := hleaves.size
  exact absurd hsize (by decide)

end MosVolca
