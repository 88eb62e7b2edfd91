import MosVolca.Fs.FileWords

/-!
# Which files stay

A structure in a block of a directory is a file if it has a name. Lookups and new blocks leave every
file a file. A removal takes its own file away and what is below it.

## Main definitions

* `MosVolca.KeepsFiles` — what was a file is a file afterwards.

## Main results

* `MosVolca.CacheInv.walkPath_keepsFiles` — what a path leads to is a file.
* `MosVolca.CacheInv.fileRemove_isFile` — the files that a removal leaves.
-/

namespace MosVolca

variable {c c' c1 : Blocks} {s s' s1 : BlockCache} {f g d dir : FilePtr} {b v k bno : ℕ}
  {w r : Word} {name path : List Char8}

/-- What was a file is a file afterwards. -/
def KeepsFiles (c c' : Blocks) : Prop := ∀ g, IsFile c g → IsFile c' g

lemma KeepsFiles.trans (h : KeepsFiles c c1) (h' : KeepsFiles c1 c') : KeepsFiles c c' :=
  fun g hg => h' g (h g hg)

/-- The entries stay entries and keep the first word of their names. -/
lemma keepsFiles_of (hd : ∀ g, Dirent c g → Dirent c' g)
    (hn : ∀ g, Dirent c g → wordAt c' (placeOf c g (.head 0)) = wordAt c (placeOf c g (.head 0))) :
    KeepsFiles c c' := by
  intro g hg
  rcases hg with rfl | ⟨hg, hname⟩
  · exact .inl rfl
  · refine .inr ⟨hd g hg, fun h0 => hname ?_⟩
    rw [← h0]
    exact congrArg (BitVec.setWidth 8) (hn g hg).symm

lemma Loads.keepsFiles (h : Loads s s') : KeepsFiles s.content s'.content := by
  rw [h.content]
  exact fun _ => id

/-- A change that acts on one file keeps the files that stay entries. -/
lemma ActsOn.isFile (h : ActsOn f c c') (hc : Consistent c) (hf : Dirent c f) (hg : IsFile c g)
    (hd : Dirent c' g) : IsFile c' g := by
  rcases hg with rfl | ⟨hg, hname⟩
  · exact .inl rfl
  · refine .inr ⟨hd, fun h0 => hname ?_⟩
    have hw := h.field hc hf hg (x := .head 0) (by decide : 0 < 64)
      (.inr fun hx => absurd hx.1 (by decide))
    rw [← h0]
    exact congrArg (BitVec.setWidth 8) hw.symm

/-- A word of an entry that is not a name and says nothing about blocks is written. -/
lemma keepsFiles_putOther (hc : Consistent c) (hf : Dirent c f) {x : Field} (hx : HasField c f x)
    (hm : ¬ x.Meta) (h0 : x ≠ .head 0) : KeepsFiles c (putWord c (placeOf c f x) w) := by
  refine keepsFiles_of (fun g hg => ?_) fun g hg => wordAt_putWord_of_ne fun he => ?_
  · exact (Consistent.entry_iff fun d hd => hc.agrees_of_field hd hf hx (.inr hm)).mpr hg
  · exact h0 (hc.place_inj hg hf (x := .head 0) (by decide : 0 < 64) hx he).2.symm

namespace CacheInv

/-- `file_get_block` keeps the files. -/
lemma fileGetBlock_keepsFiles (hs : CacheInv s) (hf : Dirent s.content f)
    (hm : s.mapped f.block = true) {x : Except Word ℕ}
    (h : MosVolca.fileGetBlock s f bno = .ok (x, s')) (hclean : MapClean s f bno) :
    KeepsFiles s.content s'.content := by
  obtain ⟨-, hg, -⟩ := hs.fileGetBlock hf hm h hclean
  have hext := hs.fileGetBlock_extends hf hm h hclean
  exact fun g hgf => hext.toActsOn.isFile hs.consistent hf hgf (hg.dirent g hgf.dirent)

end CacheInv

namespace Scans

/-- The walks keep the cache in order. -/
lemma inv (h : Scans s s') (hs : CacheInv s) : CacheInv s' := by
  induction h with
  | refl => exact hs
  | read _ hread ih => exact (readBlock_loads hread).1.inv ih
  | block _ hd _ _ hget hclean ih => exact (ih.fileGetBlock hd.dirent hd.mapped hget hclean).1
  | dir _ hf ih => exact (ih.storeOther (k := 45) hf.dirent hf.mapped (.inr ⟨by decide, by decide⟩)).1

/-- **The walks keep the files.** -/
theorem keepsFiles (h : Scans s s') (hs : CacheInv s) : KeepsFiles s.content s'.content := by
  induction h with
  | refl => exact fun _ => id
  | read _ hread ih => exact ih.trans (readBlock_loads hread).1.keepsFiles
  | block hw hd _ _ hget hclean ih =>
    exact ih.trans ((hw.inv hs).fileGetBlock_keepsFiles hd.dirent hd.mapped hget hclean)
  | @dir t f r hw hf ih =>
    rw [content_store (p := f.dir) hf.mapped]
    exact ih.trans (keepsFiles_putOther (x := .head 45) (hw.inv hs).consistent hf.dirent
      (by decide : 45 < 64) (fun hx => absurd hx.2 (by decide)) (by decide))

end Scans

namespace CacheInv

/-- The loop of `walk_path` and `walk_path_at`. -/
theorem walkElems_keepsFiles {d : Option FilePtr} {elems : List (List Char8)} {x : Walk}
    (hs : CacheInv s) (hf : InCache s f) (hfile : IsFile s.content f)
    (hd : ∀ g, d = some g → InCache s g) (hnames : ∀ e ∈ elems, IsName e)
    (h : MosVolca.walkElems s d f elems = .ok (x, s')) (hclean : ElemsClean s f elems) :
    KeepsFiles s.content s'.content ∧ WalkFiles s'.content x := by
  obtain ⟨-, -, -, hw, hfiles⟩ := hs.walkElems hf hd h hclean
  exact ⟨hw.keepsFiles hs, hfiles hfile hnames⟩

/-- **`walk_path`** keeps the files, and what it leads to is a file. -/
theorem walkPath_keepsFiles {depth : ℕ} {x : Walk} (hs : CacheInv s) (hp : (0 : Char8) ∉ path)
    (h : MosVolca.walkPath s path depth = .ok (x, s')) (hclean : PathClean s path depth) :
    KeepsFiles s.content s'.content ∧ WalkFiles s'.content x := by
  obtain ⟨-, -, -, hw, hfiles⟩ := hs.walkPath h hclean
  exact ⟨hw.keepsFiles hs, hfiles hp⟩

end CacheInv

/-! ## The name of a file -/

namespace CacheInv

/-- A byte of the name of `f` is written: the other files stay. -/
lemma setNameByte_isFile {c : Char8} (hs : CacheInv s) (hf : InCache s f) (hk : k < maxnamelen)
    (hg : IsFile s.content g) (hne : g ≠ f) : IsFile (s.setNameByte f k c).content g := by
  have hk : k < 128 := hk
  have hfield : HasField s.content f (.head (k / 4)) := (by omega : k / 4 < 64)
  obtain ⟨-, hsame⟩ := hs.setNameByte (c := c) hf hk
  rcases hg with rfl | ⟨hg, hname⟩
  · exact .inl rfl
  · refine .inr ⟨hsame.dirent_iff.mpr hg, fun h0 => hname ?_⟩
    rw [← h0]
    refine congrArg (BitVec.setWidth 8) ?_
    have hcon : (s.setNameByte f k c).content = putWord s.content (placeOf s.content f (.head (k / 4)))
        (BlockCache.setByte (s.load ⟨f.block, f.word + k / 4⟩) (k % 4) c) :=
      content_store (p := ⟨f.block, f.word + k / 4⟩) hf.mapped
    rw [hcon]
    have hword := wordAt_putWord_of_ne (c := s.content) (q := placeOf s.content g (.head 0))
      (p := placeOf s.content f (.head (k / 4)))
      (w := BlockCache.setByte (s.load ⟨f.block, f.word + k / 4⟩) (k % 4) c) fun he =>
        hne (hs.consistent.place_inj hg hf.dirent (x := .head 0) (by decide : 0 < 64) hfield he).1
    exact hword.symm

/-- A file becomes a directory: the files stay. -/
lemma setType_keepsFiles (hs : CacheInv s) (hf : InCache s f) :
    KeepsFiles s.content (s.store f.type ftypeDir).content := by
  have hfield : HasField s.content f (.head 33) := (by decide : 33 < 64)
  rw [content_store (p := f.type) hf.mapped]
  refine keepsFiles_of (fun g hg => hg.mono fun d b hd hb => ?_) fun g hg =>
    wordAt_putWord_of_ne fun he => ?_
  · by_cases hdf : d = f
    · subst hdf
      obtain ⟨-, i, hi, hold⟩ := hb
      refine ⟨wordAt_putWord_self _ _ _, i, ?_,
        (hs.consistent.holds_putHead (k := 33) hd hd (by decide)).mpr hold⟩
      have hsize : wordAt (putWord s.content d.type ftypeDir) d.size = wordAt s.content d.size :=
        wordAt_putWord_of_ne fun he => absurd (hs.consistent.place_inj hd hd
          (x := .head 32) (by decide : 32 < 64) hfield he).2 (by decide)
      rwa [sizeBlocksOf, hsize]
    · exact (hs.consistent.agrees_of_field hd hf.dirent hfield (.inl hdf)).dirBlock_iff.mpr hb
  · exact absurd (hs.consistent.place_inj hg hf.dirent (x := .head 0) (by decide : 0 < 64) hfield he).2
      (by decide)

/-! ## Operations -/

/-- **`file_remove`** keeps the files that are neither removed nor below a removed directory. -/
theorem fileRemove_isFile {depth : ℕ} (hs : CacheInv s) (hp : (0 : Char8) ∉ path)
    (h : MosVolca.fileRemove s depth path = .ok (r, s')) (hclean : PathClean s path depth)
    (hcached : ∀ x s1 f, MosVolca.walkPath s path depth = .ok (x, s1) → x.file = some f →
      DirCached s1 f) (hg : IsFile s.content g)
    (hspared : ∀ x s1 f, MosVolca.walkPath s path depth = .ok (x, s1) → x.file = some f →
      g ≠ f ∧ ¬ Below s1.content f g) : IsFile s'.content g := by
  unfold MosVolca.fileRemove at h
  obtain ⟨⟨y, s1⟩, hwalk, h1⟩ := bind_eq_ok.mp h
  obtain ⟨hs1, -, hres, -⟩ := hs.walkPath hwalk hclean
  obtain ⟨hkeep, -⟩ := hs.walkPath_keepsFiles hp hwalk hclean
  simp only at h1
  split_ifs at h1 with hcode
  · replace h1 := pure_pair_inj h1
    exact h1.2 ▸ hkeep g hg
  · obtain ⟨f, hfile, h2⟩ := bind_eq_ok.mp h1
    have hfw : y.file = some f := by
      unfold derefFile at hfile
      split at hfile
      · rename_i g hfg
        exact hfg.trans (congrArg some (Except.ok.inj hfile))
      · simp at hfile
    have hf := hres.file f hfw
    obtain ⟨hne, hnot⟩ := hspared y s1 f hwalk hfw
    have hg1 := hkeep g hg
    obtain ⟨s2, htrunc, h3⟩ := bind_eq_ok.mp h2
    obtain ⟨hs2, hd2, -, hm2⟩ := hs1.fileTruncate hf.dirent hf.mapped (by simp) htrunc
    have htrim := hs1.fileTruncate_trims hf.dirent hf.mapped htrunc
    have hg2 : IsFile s2.content g := htrim.actsOn.isFile hs1.consistent hf.dirent hg1
      (hg1.dirent.keep (fun d hd hdf => htrim.actsOn.agrees hs1.consistent hf.dirent hd hdf) hnot)
    have hf2 : InCache s2 f := ⟨hd2, hm2 _ hf.mapped⟩
    have hg3 := hs2.setNameByte_isFile (c := 0) (k := 0) hf2 (by decide) hg2 hne
    obtain ⟨s4, hflush, h4⟩ := bind_eq_ok.mp h3
    have hl := fileFlush_loads hflush
    obtain ⟨s5, hdir, h5⟩ := bind_eq_ok.mp h4
    replace h5 := pure_pair_inj h5
    have hcached2 := htrim.dirCached hs1 hf.dirent hf.mapped hm2 (hcached y s1 f hwalk hfw)
    have hcached4 : DirCached s4 f := by
      have hload : s4.load f.dir = s2.load f.dir := by
        have hm4 : s4.mapped f.block = true := hl.mapped _ hf2.mapped
        rw [load_eq (p := f.dir) hm4, load_eq (p := f.dir) hf2.mapped, hl.content]
        exact congrArg (wordAt · f.dir) (content_store (p := ⟨f.block, f.word⟩) hf2.mapped) |>.trans
          (wordAt_putWord_of_ne (by simp [FilePtr.dir]))
      intro h0 d hfd
      rw [hload] at h0 hfd
      exact hl.mapped _ (hcached2 h0 d hfd)
    rw [← h5.2, (fileFlushDir_loads hcached4 hdir).content, hl.content]
    exact hg3

end CacheInv

end MosVolca
