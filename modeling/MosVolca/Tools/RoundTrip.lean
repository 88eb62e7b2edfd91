import MosVolca.Tools.ReadSessions

/-!
# From the host to the image and back

The formatter writes a tree of the host to the image, and the server reads it from there. The two do not
share any code, but they agree on all that is in the tree: names, types, sizes, bytes, and the blocks in
use.

## Main definitions

* `MosVolca.readFrom` — the blocks of a file, read one after the other.
* `MosVolca.ReadsBack` — what the server has at a path.

## Main results

* `MosVolca.IsNode.readFrom` — a file of the image has the bytes of the host.
* `MosVolca.fsformat_readsBack` — all of the tree.
-/

namespace MosVolca

variable {n e i k : ℕ} {t t0 : BlockCache} {f : FilePtr} {d args : HostDir} {data : List Char8}
  {path : List Char8}

/-! ## Trees that fit -/

namespace HostDir

/-- A directory has no more blocks than are handed out for it. -/
lemma blocks_le_reach (d : HostDir) (e : ℕ) : d.blocks e ≤ d.reach e := by
  induction d generalizing e with
  | nil => exact le_rfl
  | file name data rest ih =>
    have := ih (e + 1)
    simp only [blocks, reach]
    omega
  | link name target rest ih =>
    have := ih (e + 1)
    simp only [blocks, reach]
    omega
  | dir name children rest _ ih =>
    have := ih (e + 1)
    simp only [blocks, reach]
    omega

/-- The blocks of the directory itself are among those that are handed out. -/
lemma blocksFor_le_blocks (d : HostDir) (e : ℕ) : blocksFor (e + d.count) ≤ blocksFor e + d.blocks e := by
  have hstep : blocksFor (e + 1) ≤ blocksFor e + entryCost e := by
    unfold blocksFor entryCost
    split_ifs <;> omega
  induction d generalizing e with
  | nil => exact le_rfl
  | file name data rest ih | link name data rest ih | dir name data rest _ ih =>
    have hrest := ih (e + 1) (by unfold blocksFor entryCost; split_ifs <;> omega)
    simp only [blocks, count]
    rw [show e + (rest.count + 1) = e + 1 + rest.count by omega]
    omega

/-- A directory in a small image has few entries. -/
lemma count_le_of_reach (h : d.reach 0 ≤ 1024) : d.count ≤ 16384 := by
  have hblocks := d.blocksFor_le_blocks 0
  have hreach := d.blocks_le_reach 0
  unfold blocksFor at hblocks
  omega

lemma narrow_of_reach (h : d.reach e ≤ 1024) : d.Narrow := by
  induction d generalizing e with
  | nil => trivial
  | file name data rest ih =>
    simp only [reach] at h
    exact ih (e := e + 1) (by omega)
  | link name target rest ih =>
    simp only [reach] at h
    exact ih (e := e + 1) (by omega)
  | dir name children rest ihc ihr =>
    simp only [reach] at h
    exact ⟨count_le_of_reach (by omega), ihc (e := 0) (by omega), ihr (e := e + 1) (by omega)⟩

end HostDir

/-! ## Reading a file -/

/-- The bytes of a page. -/
def pageBytes (m : ℕ → Word) : List Char8 := (List.range 4096).map (ByteWords.get m)

/-- The bytes of `k` blocks of a file from block `i` on: `file_map_block` with `alloc = 0` and
`read_block` for one block after the other. -/
def readFrom (s : BlockCache) (f : FilePtr) (i : ℕ) :
    ℕ → Kernel (Except Word (List Char8) × BlockCache)
  | 0 => pure (.ok [], s)
  | k + 1 => do
    match ← fileMapBlock s f i false with
    | (.error r, s) => pure (.error r, s)
    | (.ok bno, s) =>
      let (_, s) ← readBlock s bno
      let (rest, s') ← readFrom s f (i + 1) k
      pure (rest.map (pageBytes (s.mem bno) ++ ·), s')

/-- The size of a file of the image: it is not longer than its pointers reach. -/
lemma IsNode.size_toNat {c : Blocks} (h : IsNode c f (.file data)) :
    (wordAt c f.size).toNat = data.length := by
  have hle : data.length ≤ 4096 * nindirect := by
    by_contra hlong
    obtain ⟨b, hb, -⟩ := h.2.2 (4096 * nindirect) (not_le.mp hlong)
    have hlt := (blockOf_eq_some.mp hb).lt_nindirect
    unfold nindirect at hlt
    omega
  rw [h.2.1, BitVec.toNat_ofNat]
  exact Nat.mod_eq_of_lt (hle.trans_lt (by decide))

/-- The first bytes of a page that agrees with the list from byte `4096 * i` on. -/
lemma pageBytes_take {m : ℕ → Word}
    (h : ∀ j < 4096, 4096 * i + j < data.length → ByteWords.get m j = data.getD (4096 * i + j) 0) :
    (pageBytes m).take (data.length - 4096 * i) = (data.drop (4096 * i)).take 4096 := by
  apply List.ext_getElem
  · simp [pageBytes, Nat.min_comm]
  · intro j hj hj'
    simp only [pageBytes, List.length_take, List.length_map, List.length_range] at hj
    rw [List.getElem_take, List.getElem_take, List.getElem_drop]
    simp only [pageBytes, List.getElem_map, List.getElem_range]
    rw [h j (by omega) (by omega), List.getD_eq_getElem _ _ (by omega)]

/-- **A file of the image** has the bytes of the host, block by block.

**Proof sketch.** Induction on the blocks that are still to be read. A block inside of the file is there,
so that `file_map_block` finds its pointer and makes no block. Reading it changes the cache only, and the
rest of the file is where it was. -/
theorem IsNode.readFrom (hx : IsNode t0.content f (.file data)) (hf : IsFile t0.content f)
    (hn : nblocksOf t0.content ≤ 0x40000) (hv : Visits t0 t) (hg : HasPages t)
    (hm : t.mapped f.block = true) (hk : i + k = dataBlocks data.length) :
    ∃ bytes t', MosVolca.readFrom t f i k = .ok (.ok bytes, t') ∧
      bytes.take (data.length - 4096 * i) = data.drop (4096 * i) := by
  induction k generalizing t i with
  | zero =>
    unfold dataBlocks at hk
    exact ⟨[], t, rfl, by rw [List.drop_eq_nil_of_le (by omega), List.take_nil]⟩
  | succ k ih =>
    have hlt : 4096 * i < data.length := by
      unfold dataBlocks at hk
      omega
    obtain ⟨b, hold⟩ := hx.exists_holds (hlt.trans_eq hx.size_toNat.symm)
    rw [show 4096 * i / 4096 = i by omega] at hold
    have hold' := hv.browses.kept f i b hf.dirent hold
    have hf' := hv.isFile_iff.mpr hf
    obtain ⟨t1, hmap, hg1, hl1⟩ :=
      hv.inv.fileMapBlock_granted hg (hv.nblocks.trans_le hn) hf'.dirent hm hold' false
    have hv1 := hv.trans (hl1.visits hv.inv)
    have hu : Usable t1.content b := hl1.content ▸ hv.inv.consistent.usable hf'.dirent hold'
    obtain ⟨isnew, t2, hread, hg2⟩ := hv1.inv.readBlock_granted hg1 (hv1.nblocks.trans_le hn) hu
    obtain ⟨hl2, hb⟩ := readBlock_loads hread
    have hv2 := hv1.trans (hl2.visits hv1.inv)
    have hplain : wordAt t0.content f.type ≠ ftypeDir := by
      rw [hx.1]
      decide
    have hpage : ∀ j < 4096, 4096 * i + j < data.length →
        ByteWords.get (t2.mem b) j = data.getD (4096 * i + j) 0 := by
      intro j hj hlen
      rw [← hx.page hold hj hlen]
      congr 1
      funext w
      rw [← content_of_mapped hb, hv2.browses.data f i b hf.dirent hplain hold w]
    obtain ⟨rest, t3, hrest, htake⟩ :=
      ih (i := i + 1) hv2 hg2 (hl2.mapped _ (hl1.mapped _ hm)) (by omega)
    refine ⟨pageBytes (t2.mem b) ++ rest, t3, ?_, ?_⟩
    · rw [MosVolca.readFrom, hmap]
      simp only [ok_bind, hread, hrest]
      rfl
    · have hlen : (pageBytes (t2.mem b)).length = 4096 := by simp [pageBytes]
      rw [List.take_append, pageBytes_take hpage, hlen,
        show data.length - 4096 * i - 4096 = data.length - 4096 * (i + 1) by omega, htake,
        show 4096 * (i + 1) = 4096 * i + 4096 by omega, ← List.drop_drop, List.take_append_drop]

/-! ## The tree -/

/-- What the server has at the path: the walk fails if the host has nothing there, and otherwise it
returns 0 and the structure of the file or directory; of a file, the blocks up to its size have the
bytes of the host. -/
def ReadsBack (d : HostDir) (t : BlockCache) (path : List Char8) (depth : ℕ) : Prop :=
  ∃ w t1, walkPath t path (depth + 1) = .ok (w, t1) ∧
    match d.resolve (pathElems path) with
    | none => w.code ≠ 0
    | some x => w.code = 0 ∧ ∃ f, w.file = some f ∧ x.Shows (fun k => t1.load ⟨f.block, f.word + k⟩) ∧
        ∀ data, x = .file data → ∃ bytes t2,
          readFrom t1 f 0 (dataBlocks (t1.load f.size).toNat) = .ok (.ok bytes, t2) ∧
            bytes.take (t1.load f.size).toNat = data

variable (depth : ℕ) in
/-- A path that leads to no link. -/
lemma ServesTree.readsBack (ht : ServesTree d t) (hg : HasPages t) (hp : (0 : Char8) ∉ path)
    (hno : ∀ target, d.resolve (pathElems path) ≠ some (.link target)) : ReadsBack d t path depth := by
  have hv := (Loads.refl t).visits ht.inv
  have hfollow : d.follow (depth + 1) path = some (d.resolve (pathElems path)) := by
    rw [HostDir.follow]
    split
    · rename_i target hlink
      exact absurd hlink (hno target)
    · rfl
  have htotal := walkPath_total (depth + 1) ht.tree ht.small hv hg hp
  simp only [hfollow] at htotal
  obtain ⟨w, t1, hwalk, hg1⟩ := htotal
  obtain ⟨hv1, hfound, r, hr, hcode, hfile⟩ := walkPath_answers ht.tree ht.small hv hp hwalk
  obtain rfl := Option.some.inj (hfollow.symm.trans hr)
  refine ⟨w, t1, hwalk, ?_⟩
  cases hres : d.resolve (pathElems path) with
  | none =>
    rw [hres] at hcode
    exact fun h0 => Bool.false_ne_true (hcode.mp h0)
  | some x =>
    rw [hres] at hcode hfile
    obtain ⟨f, hf, hx⟩ := hfile
    obtain ⟨hm, hisfile⟩ := hfound f hf
    have hword : ∀ k < 34, t1.load ⟨f.block, f.word + k⟩ = t.content f.block (f.word + k) := by
      intro k hk
      rw [load_eq (p := ⟨f.block, f.word + k⟩) hm]
      exact hv1.browses.head f hisfile.dirent k hk
    refine ⟨hcode.mpr rfl, f, hf, hx.shows.congr hword, ?_⟩
    rintro data rfl
    have hsize : (t1.load f.size).toNat = data.length :=
      (congrArg BitVec.toNat (hword 32 (by decide))).trans hx.size_toNat
    rw [hsize]
    obtain ⟨bytes, t2, hread, htake⟩ :=
      hx.readFrom hisfile ht.small hv1 hg1 hm (Nat.zero_add (dataBlocks data.length))
    exact ⟨bytes, t2, hread, htake⟩

/-- **What the host has is what the server reads.** For every tree of the host with names below
`MAXNAMELEN` that fits, the image of the formatter passes the assertions of the server, with the same
bitmap blocks, and the server starts. Every path that leads to no link, with any slashes, is found
exactly if the host has something there, with its type and size, and a file reads back block by block. A
block is marked as used exactly if it is one of the first three or a file holds it.

**Proof sketch.** The image holds the tree and is consistent; the walks of the server are those on the
contents, and the bytes of a block are those that were stored. -/
theorem fsformat_readsBack (args : HostDir) (hargs : args ≠ .nil) (hhost : args.OnHost)
    (hshort : args.Short) (hnames : args.CNames) (hfits : 3 + args.reach 0 ≤ nblock) :
    ∃ image t, fsformat args = .ok image ∧ BitmapAgrees nblock image ∧
      fsInit (BlockCache.off image fun _ => true) = .ok t ∧
      (∀ path depth, (0 : Char8) ∉ path →
        (∀ target, args.resolve (pathElems path) ≠ some (.link target)) →
          ReadsBack args t path depth) ∧
      ∀ b < nblock, IsMarked image b ↔ b < 3 ∨ ∃ f p, Live image f ∧ Holds image f p b := by
  have hreach : args.reach 0 ≤ 1024 := by
    unfold nblock at hfits
    omega
  have hfit : FitsInto nblock args :=
    ⟨hargs, hhost, hshort.mild, HostDir.count_le_of_reach hreach, HostDir.narrow_of_reach hreach, hfits⟩
  have hdvd : ¬ 32768 ∣ nblock := by decide
  obtain ⟨s, t, hrun, hinit, hpages, ht⟩ :=
    hfit.served hshort hnames (by decide) (by decide) hdvd
  obtain ⟨s', hrun', h⟩ := hfit.formatted hshort (by decide) (by decide)
  obtain rfl := Except.ok.inj (hrun.symm.trans hrun')
  refine ⟨s.disk, t, ?_, (h.image.agrees_iff (by decide) (by decide)).mpr hdvd, hinit,
    fun path depth hp hno => ht.readsBack depth hpages hp hno, fun b hb => ?_⟩
  · unfold fsformat
    rw [hrun, ok_then, finishFs_eq]
  · have hfree := h.isFree_iff_not_held (b := b) (by decide) (by decide) hdvd
    rw [h.firstData_eq (by decide) (by decide) hdvd, show 2 + nbitblock nblock = 3 by decide] at hfree
    have hmarked : IsMarked s.disk b ↔ ¬ IsFree s.disk b := by
      unfold IsMarked IsFree
      rw [h.nblocksOf_eq (by decide)]
      simp [hb]
    rw [hmarked, hfree]
    constructor
    · intro hused
      by_contra! hno
      exact hused ⟨hno.1, by unfold nblock at hb ⊢; omega, hno.2⟩
    · rintro (hlt | ⟨f, p, hlive, hold⟩) ⟨hge, -, hnone⟩
      · omega
      · exact hnone f p hlive hold

/-- For a file, a link to it and a directory with a file. -/
theorem fsformat_readsBack_smallTree :
    ∃ image t, fsformat smallTree = .ok image ∧ BitmapAgrees nblock image ∧
      fsInit (BlockCache.off image fun _ => true) = .ok t ∧
      (∀ path depth, (0 : Char8) ∉ path →
        (∀ target, smallTree.resolve (pathElems path) ≠ some (.link target)) →
          ReadsBack smallTree t path depth) ∧
      ∀ b < nblock, IsMarked image b ↔ b < 3 ∨ ∃ f p, Live image f ∧ Holds image f p b :=
  fsformat_readsBack smallTree nofun smallTree_onHost smallTree_short smallTree_cNames (by decide)

end MosVolca
