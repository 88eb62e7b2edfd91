import MosVolca.Fs.LinkLoops
import MosVolca.Fs.NameEffects

/-!
# The directories of files, while walks go on

`dir_lookup` writes a pointer to the directory into the structure that it finds, and `file_close` and
`file_set_size` go through that pointer. In an image that is in order the pointer of a file that was
found always leads to a directory in the cache, whatever other walks come after.

## Main definitions

* `MosVolca.KeepsDirs` — the pointers to directories in the cache stay such pointers.

## Main results

* `MosVolca.CacheInv.walkElems_dirs`, `MosVolca.CacheInv.walkPath_dirs` — the walks.
-/

namespace MosVolca

variable {s s' s1 : BlockCache} {f g dir : FilePtr} {i n depth : ℕ} {name path : List Char8}
  {elems : List (List Char8)} {w : Walk}

/-- What pointed to a directory in the cache still does. -/
def KeepsDirs (s s' : BlockCache) : Prop :=
  ∀ f, s.mapped f.block = true → DirCached s f → DirCached s' f

lemma KeepsDirs.trans (h : KeepsDirs s s1) (hm : ∀ b, s.mapped b = true → s1.mapped b = true)
    (h' : KeepsDirs s1 s') : KeepsDirs s s' :=
  fun f hf hd => h' f (hm _ hf) (h f hf hd)

lemma Loads.keepsDirs (h : Loads s s') : KeepsDirs s s' := by
  intro f hf hd h0 d hdir
  have hload : s'.load f.dir = s.load f.dir := by
    rw [load_eq (p := f.dir) (h.mapped _ hf), load_eq (p := f.dir) hf, h.content]
  rw [hload] at h0 hdir
  exact h.mapped _ (hd h0 d hdir)

/-- The pointer of a structure is set to a directory in the cache. -/
lemma storeDir_dirCached (hp : InPages s dir) : DirCached (s.store g.dir dir.addr) g := by
  intro _ d hdir
  have hload : (s.store g.dir dir.addr).load g.dir = dir.addr := TwoLevel.write_same _ _ _ _
  rw [hload, ofAddr_addr hp.block hp.word] at hdir
  exact Option.some.inj hdir ▸ hp.mapped

/-- A store of `f_dir` changes no directory. -/
lemma storeDir_keepsDirs (hp : InPages s dir) : KeepsDirs s (s.store g.dir dir.addr) := by
  intro f hf hd
  by_cases hfg : f.dir = g.dir
  · -- the pointer itself
    have hset := storeDir_dirCached (g := g) hp
    unfold DirCached at hset ⊢
    rwa [hfg]
  · have hload : (s.store g.dir dir.addr).load f.dir = s.load f.dir := by
      apply TwoLevel.write_of_ne
      by_contra hno
      obtain ⟨hblock, hword⟩ := not_or.mp hno
      exact hfg (congrArg₂ WordPtr.mk (not_not.mp hblock) (not_not.mp hword))
    intro h0 d hdir
    rw [hload] at h0 hdir
    exact hd h0 d hdir

/-- A structure of an image in order is in a page that an address leads to. -/
lemma CacheInv.inPages (hs : CacheInv s) (hn : nblocksOf s.content ≤ 0x40000)
    (hf : Dirent s.content f) (hm : s.mapped f.block = true) : InPages s f := by
  rcases hs.consistent.block_entry hf with rfl | ⟨hu, j, hj, he⟩
  · exact ⟨hm, by decide, by decide⟩
  · have hj : j < 16 := hj
    have hword : f.word = 64 * j := congrArg FilePtr.word he
    exact ⟨hm, hu.lt.trans_le hn, by omega⟩

namespace CacheInv

/-- The loop of `dir_lookup`. -/
lemma dirLookupFrom_dirs {x : Except Word FilePtr} (hs : CacheInv s)
    (hn : nblocksOf s.content ≤ 0x40000)
    (hblocks : ∀ i < sizeBlocksOf s.content dir, ∃ b, Holds s.content dir (.data i) b)
    (hd : Dirent s.content dir) (hm : s.mapped dir.block = true)
    (hi : i + n ≤ sizeBlocksOf s.content dir)
    (h : MosVolca.dirLookupFrom s dir name n i = .ok (x, s')) :
    KeepsDirs s s' ∧ ∀ g, x = .ok g → DirCached s' g := by
  induction n generalizing s i with
  | zero =>
    cases h
    exact ⟨(Loads.refl _).keepsDirs, fun g hg => nomatch hg⟩
  | succ n ih =>
    rw [MosVolca.dirLookupFrom] at h
    obtain ⟨⟨y, s1⟩, hget, h1⟩ := bind_eq_ok.mp h
    obtain ⟨b, hold⟩ := hblocks i (by omega)
    obtain ⟨rfl, hload, -⟩ := fileGetBlock_held hm hold hget
    have hs1 := hload.inv hs
    rw [← hload.content] at hn hblocks hd hi
    have hp := hs1.inPages hn hd (hload.mapped _ hm)
    simp only at h1
    split at h1
    · cases h1
      refine ⟨hload.keepsDirs.trans hload.mapped (storeDir_keepsDirs hp), fun g hg => ?_⟩
      cases hg
      exact storeDir_dirCached hp
    · obtain ⟨hkeep, hfound⟩ := ih hs1 hn hblocks hd (hload.mapped _ hm) (by omega) h1
      exact ⟨hload.keepsDirs.trans hload.mapped hkeep, hfound⟩

/-- **The loop of the walks** keeps the pointers to directories, and what it finds has one, unless it is
what the walk started with. -/
lemma walkElems_dirs {d : Option FilePtr} (hs : CacheInv s) (hn : nblocksOf s.content ≤ 0x40000)
    (hw : Whole s.content) (hf : IsFile s.content f) (hm : s.mapped f.block = true)
    (hnames : ∀ e ∈ elems, IsName e) (hd : DirCached s f)
    (h : MosVolca.walkElems s d f elems = .ok (w, s')) :
    KeepsDirs s s' ∧ ∀ g, w.file = some g → DirCached s' g := by
  induction elems generalizing s d f with
  | nil =>
    cases h
    refine ⟨(Loads.refl _).keepsDirs, fun g hg => ?_⟩
    cases hg
    exact hd
  | cons name rest ih =>
    have herror : ∀ {t t' : BlockCache} {y : Walk}, KeepsDirs s t → y.file = none →
        (Except.ok (y, t) : Kernel _) = .ok (w, t') →
          KeepsDirs s t' ∧ ∀ g, w.file = some g → DirCached t' g := by
      intro t t' y hk hy he
      cases he
      refine ⟨hk, fun g hg => ?_⟩
      rw [hy] at hg
      cases hg
    rw [MosVolca.walkElems, load_eq (p := f.type) hm] at h
    split_ifs at h with hlen ht
    · exact herror (Loads.refl _).keepsDirs rfl h
    · exact herror (Loads.refl _).keepsDirs rfl h
    · have ht : wordAt s.content f.type = ftypeDir := not_not.mp ht
      obtain ⟨⟨y, s1⟩, hdl, h1⟩ := bind_eq_ok.mp h
      obtain ⟨hl, hy, hmap⟩ := hs.dirLookup_whole hw hf hm ht hdl
      have hv := hl.visits hs
      have hdirs : KeepsDirs s s1 ∧ ∀ g, y = .ok g → DirCached s1 g := by
        unfold MosVolca.dirLookup at hdl
        rw [sizeBlocks_eq hm] at hdl
        exact hs.dirLookupFrom_dirs hn (hw f hf ht) hf.dirent hm (by omega) hdl
      cases y with
      | ok g =>
        have hl : lookup s.content f name = some g := by
          cases hl : lookup s.content f name with
          | none =>
            rw [hl] at hy
            cases hy
          | some g' =>
            rw [hl] at hy
            cases hy
            rfl
        have hg := lookup_isFile hf.dirent ht (hnames name List.mem_cons_self) hl
        obtain ⟨hk, hfound⟩ := ih hv.inv (hv.nblocks.trans_le hn) (hv.whole hw) (hv.isFile_iff.mpr hg)
          (hmap g rfl) (fun e he => hnames e (List.mem_cons_of_mem name he)) (hdirs.2 g rfl) h1
        exact ⟨hdirs.1.trans hv.same.mapped hk, hfound⟩
      | error r =>
        simp only at h1
        split_ifs at h1
        · exact herror hdirs.1 rfl h1
        · exact herror hdirs.1 rfl h1

/-- **`walk_path`** keeps the pointers to directories, and what it finds has one. -/
theorem walkPath_dirs (hs : CacheInv s) (hi : Intact s.content) (hp : (0 : Char8) ∉ path)
    (hroot : DirCached s FilePtr.root) (h : MosVolca.walkPath s path depth = .ok (w, s')) :
    KeepsDirs s s' ∧ ∀ g, w.file = some g → DirCached s' g := by
  induction depth generalizing s path w s' with
  | zero => cases h
  | succ depth ih =>
    rw [MosVolca.walkPath] at h
    obtain ⟨⟨x, s1⟩, helems, h1⟩ := bind_eq_ok.mp h
    have hnames := isName_pathElems hp
    obtain ⟨hv, -, hmap⟩ := hs.walkElems_whole hi.whole (.inl rfl) hs.root.mapped hnames helems
    obtain ⟨hkeep, hfound⟩ :=
      hs.walkElems_dirs hi.small hi.whole (.inl rfl) hs.root.mapped hnames hroot helems
    cases hfile : x.file with
    | none =>
      simp only [hfile] at h1
      cases h1
      exact ⟨hkeep, hfound⟩
    | some f =>
      simp only [hfile] at h1
      split_ifs at h1 with hlnk
      · -- the walk along the link
        obtain ⟨⟨isnew, s2⟩, hread, h2⟩ := bind_eq_ok.mp h1
        simp only at h2
        obtain ⟨hload, -⟩ := readBlock_loads hread
        have hv2 := hv.trans (hload.visits hv.inv)
        have hkeep2 := hkeep.trans hv.same.mapped hload.keepsDirs
        cases htext : s2.stringFrom (s1.load (f.direct 0)).toNat 4096 0 with
        | none =>
          rw [htext] at h2
          cases h2
        | some t =>
          rw [htext] at h2
          obtain ⟨⟨y, s3⟩, hwalk, h3⟩ := bind_eq_ok.mp h2
          cases h3
          obtain ⟨hk, hf⟩ := ih hv2.inv (hi.of_visits hv2) (stringFrom_no_zero htext) (hkeep2 _ hs.root.mapped hroot) hwalk
          exact ⟨hkeep2.trans hv2.same.mapped hk, hf⟩
      · cases h1
        exact ⟨hkeep, hfound⟩

end CacheInv

end MosVolca
