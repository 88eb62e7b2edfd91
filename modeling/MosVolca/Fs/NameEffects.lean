import MosVolca.Fs.NameSets
import MosVolca.Fs.Walks
import MosVolca.Fs.BlockOwner

/-!
# New names and removed files

`file_create` adds one name to one directory, and `file_remove` takes away the file that the path
names, if the events of the run are harmless and the path of the removal does not name a link.
`file_remove` follows a link, so the file that the link leads to is removed otherwise, and the link
stays.

## Main definitions

* `MosVolca.AddsName`, `MosVolca.TakesEntry` — what the two functions are there for.
* `MosVolca.RemoveHarmless` — the removals that do what they should.

## Main results

* `MosVolca.CacheInv.fileCreate_addsName`, `MosVolca.CacheInv.fileRemove_takesEntry` — the two
  functions in a consistent cache.
* `MosVolca.names_of_run` — the two functions after any run of harmless events.
* `MosVolca.removed_behind_link` — a removal of the wrong file.
-/

namespace MosVolca

variable {c c' c1 : Blocks} {s s' s1 : BlockCache} {f g d dir : FilePtr} {b i j k n depth : ℕ}
  {name path : List Char8} {elems : List (List Char8)} {w : Walk}

/-- The last element of the path is a new name in the directory that the other elements lead to, and
`f` is the file with that name. No other directory has other names than before. -/
def AddsName (c c' : Blocks) (path : List Char8) (f : FilePtr) : Prop :=
  ∃ elems name dir, pathElems path = elems ++ [name] ∧
    (walkOf c none FilePtr.root elems).file = some dir ∧ InDir c' dir f ∧ HasName c' f name ∧
    name ∉ namesOf c dir ∧ namesOf c' dir = insert name (namesOf c dir) ∧
    (∀ g, Dirent c g → g ≠ dir → namesOf c' g = namesOf c g) ∧
    ∀ g, Dirent c' g → Dirent c g ∨ namesOf c' g = ∅

/-- The file that the path names has no name any more. The files that are neither that file nor below
it are the same files with the same names, and there are no new files. -/
def TakesEntry (c c' : Blocks) (path : List Char8) : Prop :=
  ∃ f, (walkOf c none FilePtr.root (pathElems path)).file = some f ∧ ¬ Named c' f ∧
    (∀ g, IsFile c g → g ≠ f → ¬ Below c f g →
      IsFile c' g ∧ ∀ k < 128, nameAt c' g k = nameAt c g k) ∧
    ∀ g, IsFile c' g → IsFile c g

/-- A removal that is harmless: the walk fills no hole with old data, the path does not name a link,
and if it names the root, `f_dir` of the root is null or its page is in the cache. -/
def RemoveHarmless (s : BlockCache) (depth : ℕ) (path : List Char8) : Prop :=
  PathClean s path depth ∧ ¬ NamesLink s path ∧ (pathElems path = [] → DirCached s FilePtr.root)

/-- **The names that the two functions change**, in a cache where they run into no old data of a
block and into no link. -/
def NamesEffect (s : BlockCache) : Prop := ∀ depth path, (0 : Char8) ∉ path →
  (∀ f s', fileCreate s depth path = .ok (0, some f, s') → CreateClean s depth path →
    AddsName s.content s'.content path f) ∧
  ∀ s', fileRemove s depth path = .ok (0, s') → RemoveHarmless s depth path →
    TakesEntry s.content s'.content path

/-! ## New names -/

lemma walkOf_file (c : Blocks) (d d' : Option FilePtr) (f : FilePtr) (elems : List (List Char8)) :
    (walkOf c d f elems).file = (walkOf c d' f elems).file := by
  cases elems with
  | nil => rfl
  | cons name rest => rfl

/-- A walk that fails in a directory: the last name is missing there. -/
lemma walkOf_missing {d : Option FilePtr} (hne : (walkOf c d f elems).code ≠ 0)
    (hdir : (walkOf c d f elems).dir = some dir) :
    ∃ xs, elems = xs ++ [(walkOf c d f elems).lastelem] ∧ (walkOf c none f xs).file = some dir ∧
      lookup c dir (walkOf c d f elems).lastelem = none ∧ wordAt c dir.type = ftypeDir ∧
        (walkOf c d f elems).lastelem.length < maxnamelen ∧
        (walkOf c d f elems).code = -eNotFound := by
  induction elems generalizing d f with
  | nil => exact absurd rfl hne
  | cons name rest ih =>
    rw [walkOf] at hne hdir ⊢
    by_cases hlen : name.length ≥ maxnamelen
    · rw [if_pos hlen] at hdir
      cases hdir
    rw [if_neg hlen] at hne hdir ⊢
    by_cases ht : wordAt c f.type = ftypeDir
    · rw [if_neg (not_not_intro ht)] at hne hdir ⊢
      cases hl : lookup c f name with
      | some g =>
        rw [hl] at hne hdir
        obtain ⟨xs, hrest, hfile, hnone⟩ := ih hne hdir
        refine ⟨name :: xs, congrArg (name :: ·) hrest, ?_, hnone⟩
        rw [walkOf, if_neg hlen, if_neg (not_not_intro ht), hl]
        exact (walkOf_file c _ none g xs).trans hfile
      | none =>
        rw [hl] at hdir
        simp only at hdir ⊢
        by_cases hlast : rest = []
        · rw [if_pos hlast] at hdir ⊢
          cases hdir
          subst hlast
          exact ⟨[], rfl, rfl, hl, ht, Nat.lt_of_not_le hlen, rfl⟩
        · rw [if_neg hlast] at hdir
          cases hdir
    · rw [if_pos ht] at hdir
      cases hdir

/-- A name that is not found is not there. -/
lemma not_mem_namesOf (h : lookup c dir name = none) : name ∉ namesOf c dir := by
  have hloop : ∀ n i, lookupFrom c dir name n i = none → ∀ k, i ≤ k → k < i + n → ∀ b j,
      Holds c dir (.data k) b → j < file2blk → ¬ HasName c (FilePtr.entry b j) name := by
    intro n
    induction n with
    | zero =>
      intro i _ k hk hlt
      omega
    | succ n ih =>
      intro i hnone k hk hlt b j hold hj hname
      rw [lookupFrom] at hnone
      split at hnone
      · cases hnone
      · rename_i hbind
        rcases Nat.eq_or_lt_of_le hk with rfl | hk
        · rw [blockOf_eq_some.mpr hold, Option.bind_some, Option.map_eq_none_iff] at hbind
          have := List.find?_eq_none.mp hbind j (List.mem_range'.mpr ⟨j, hj, by omega⟩)
          exact this (decide_eq_true hname)
        · exact ih (i + 1) hnone k hk (by omega) b j hold hj hname
  rintro ⟨-, -, f, ⟨b, j, ⟨-, i, hi, hold⟩, hj, rfl⟩, hname⟩
  exact hloop _ 0 h i (Nat.zero_le i) (by omega) b j hold hj hname

/-- A walk that fails follows no link. -/
lemma walkPath_error (h : walkPath s path depth = .ok (w, s')) (hne : w.code ≠ 0) :
    walkElems s none FilePtr.root (pathElems path) = .ok (w, s') := by
  cases depth with
  | zero => cases h
  | succ depth =>
    rw [walkPath] at h
    obtain ⟨⟨x, s1⟩, helems, h1⟩ := bind_eq_ok.mp h
    rcases walkElems_cases helems with ⟨h0, g, hfile, -⟩ | ⟨-, hfile, -⟩
    · simp only [hfile] at h1
      split_ifs at h1 with hlnk
      · obtain ⟨⟨isnew, s2⟩, -, h2⟩ := bind_eq_ok.mp h1
        simp only at h2
        split at h2
        · cases h2
        · obtain ⟨⟨y, s3⟩, -, h3⟩ := bind_eq_ok.mp h2
          cases h3
          exact absurd h0 hne
      · cases h1
        exact absurd h0 hne
    · simp only [hfile] at h1
      cases h1
      exact helems

namespace CacheInv

/-- **`file_create`** adds a name. -/
theorem fileCreate_addsName (hs : CacheInv s) (hp : (0 : Char8) ∉ path)
    (h : MosVolca.fileCreate s depth path = .ok (0, some f, s')) (hclean : CreateClean s depth path) :
    AddsName s.content s'.content path f := by
  unfold MosVolca.fileCreate at h
  obtain ⟨⟨y, s1⟩, hwalk, h1⟩ := bind_eq_ok.mp h
  obtain ⟨hs1, -, hres, -⟩ := hs.walkPath hwalk hclean.1
  obtain ⟨-, hfiles⟩ := hs.walkPath_keepsFiles hp hwalk hclean.1
  simp only at h1
  by_cases hcode : y.code = 0
  · rw [if_pos hcode] at h1
    cases h1
  rw [if_neg hcode] at h1
  split at h1
  · simp at h1
  · rename_i dir hdir
    by_cases hnf : y.code ≠ -eNotFound
    · rw [if_pos hnf] at h1
      simp at h1
    rw [if_neg hnf] at h1
    obtain ⟨⟨z, s2⟩, halloc, h2⟩ := bind_eq_ok.mp h1
    cases z with
    | error e => simp at h2
    | ok e =>
      cases h2
      have hnames := isName_pathElems hp
      have helems := walkPath_error hwalk hcode
      have hclean1 : ElemsClean s FilePtr.root (pathElems path) := by
        cases depth with
        | zero => cases hwalk
        | succ depth => exact hclean.1.1
      obtain ⟨hbr, hy⟩ := hs.walkElems_walkOf hs.root (.inl rfl) hnames helems hclean1
      have hy : y = walkOf s.content none FilePtr.root (pathElems path) := by
        rcases hy with hy | ⟨r, -, hr, rfl⟩
        · exact hy
        · cases hdir
      have hd := hres.dir dir hdir
      have ht := hres.type hcode dir hdir
      have hac := hclean.2 y s1 dir hwalk (by simpa using hnf) hdir
      obtain ⟨hs2, -, hfound⟩ := hs1.dirAllocFile hd.dirent hd.mapped ht halloc hac
      obtain ⟨hsame, hnew⟩ := hs1.dirAllocFile_names hd.dirent hd.mapped ht halloc hac
      obtain ⟨hin, hno⟩ := hnew f rfl
      have hkeep := hbr.sameNames.trans hsame
      have hd2 := hsame.dirent dir hd.dirent
      obtain ⟨hiff, hdiriff, hname, -, hset, hother⟩ := hs2.setName_names hd2 hin (hfound f rfl).2 hno
        (hfiles.lastelem hcode dir hdir) hres.lastelem
      rw [hy] at hcode hdir
      obtain ⟨xs, hxs, hfile, hmissing, -⟩ := walkOf_missing hcode hdir
      rw [← hy] at hxs hmissing
      have hd0 := (walkOf_isFile (.inl rfl) (fun e he => hnames e (hxs ▸ List.mem_append_left _ he))
        hfile).dirent
      refine ⟨xs, y.lastelem, dir, hxs, hfile, (hdiriff f).mpr hin, hname, not_mem_namesOf hmissing, ?_,
        fun g hg hgd => ?_, fun g hg => ?_⟩
      · rw [hset, hkeep.names dir hd0]
      · rw [hother g (hkeep.dirent g hg) hgd, hkeep.names g hg]
      · rcases hkeep.new g ((hiff g).mp hg) with hg0 | ⟨hnamed, hempty⟩
        · exact .inl hg0
        · by_cases hgd : g = dir
          · exact .inl (hgd ▸ hd0)
          · exact .inr ((hother g ((hiff g).mp hg) hgd).trans hempty)

end CacheInv

/-! ## Removed files -/

/-- A structure in a cache page of the disk. -/
structure InPages (s : BlockCache) (f : FilePtr) : Prop where
  mapped : s.mapped f.block = true
  block : f.block < 0x40000
  word : f.word ≤ 960

/-- A structure is found again by its address. -/
lemma ofAddr_addr (hb : f.block < 0x40000) (hw : f.word ≤ 960) :
    FilePtr.ofAddr f.addr = some f := by
  have hoff : (f.addr - diskmap).toNat = 4096 * f.block + 4 * f.word := by
    unfold FilePtr.addr
    rw [BitVec.add_comm, BitVec.add_sub_cancel, BitVec.toNat_ofNat]
    omega
  unfold FilePtr.ofAddr
  simp only
  rw [hoff, if_pos ⟨by omega, by omega, by omega⟩]
  congr 2 <;> omega

/-- A block that `read_block` returns is on the disk. -/
lemma readBlock_lt {isnew : Bool} (h : readBlock s b = .ok (isnew, s')) : b < 0x40000 := by
  unfold readBlock at h
  split_ifs at h
  obtain ⟨va, hva, -⟩ := bind_eq_ok.mp h
  unfold diskaddr at hva
  split_ifs at hva with hb
  exact Nat.lt_of_not_le hb

lemma fileGetBlock_lt (h : fileGetBlock s f n = .ok (.ok b, s')) : b < 0x40000 := by
  unfold fileGetBlock at h
  obtain ⟨⟨x, s1⟩, -, h1⟩ := bind_eq_ok.mp h
  cases x with
  | error r => simp at h1
  | ok v =>
    obtain ⟨⟨isnew, s2⟩, hread, h2⟩ := bind_eq_ok.mp h1
    obtain ⟨hv, rfl⟩ := pure_pair_inj h2
    obtain rfl := Except.ok.inj hv
    exact readBlock_lt hread

namespace CacheInv

/-- `f_dir` of the file that `dir_lookup` finds points to the directory. -/
lemma dirLookupFrom_dirCached (hs : CacheInv s) (hd : Dirent s.content dir) (hp : InPages s dir)
    (h : MosVolca.dirLookupFrom s dir name n i = .ok (.ok f, s'))
    (hclean : LookupClean s dir name n i) : InPages s' f ∧ DirCached s' f := by
  induction n generalizing s i with
  | zero => simp [MosVolca.dirLookupFrom] at h
  | succ n ih =>
    rw [MosVolca.dirLookupFrom] at h
    obtain ⟨⟨y, s1⟩, hget, h1⟩ := bind_eq_ok.mp h
    obtain ⟨hs1, hg, hblk⟩ := hs.fileGetBlock hd hp.mapped hget hclean.1
    have hp1 : InPages s1 dir := ⟨hg.mapped _ hp.mapped, hp.block, hp.word⟩
    cases y with
    | error r => simp at h1
    | ok blk =>
      obtain ⟨-, hmb⟩ := hblk blk rfl
      simp only at h1
      split at h1
      · rename_i j hfind
        have hj : j < 16 := by
          have := List.mem_of_find?_eq_some hfind
          simpa [List.mem_range', file2blk] using this
        cases h1
        refine ⟨⟨hmb, fileGetBlock_lt hget, by simp only [FilePtr.entry]; omega⟩, fun _ d hdir => ?_⟩
        have hload : (s1.store (FilePtr.entry blk j).dir dir.addr).load (FilePtr.entry blk j).dir =
            dir.addr := TwoLevel.write_same _ _ _ _
        rw [hload, ofAddr_addr hp.block hp.word] at hdir
        exact Option.some.inj hdir ▸ hp1.mapped
      · rename_i hfind
        exact ih hs1 (hg.dirent _ hd) hp1 h1 (hclean.2 blk s1 hget hfind)

/-- `f_dir` of the file that a walk ends at points to a directory in the cache. -/
lemma walkElems_dirCached {d : Option FilePtr} (hs : CacheInv s) (hf : Dirent s.content f)
    (hp : InPages s f) (hcached : elems = [] → DirCached s f)
    (h : MosVolca.walkElems s d f elems = .ok (w, s')) (hfile : w.file = some g)
    (hclean : ElemsClean s f elems) : DirCached s' g := by
  induction elems generalizing s d f with
  | nil =>
    simp only [MosVolca.walkElems, pure_eq_ok, Except.ok.injEq, Prod.mk.injEq] at h
    obtain ⟨rfl, rfl⟩ := h
    exact Option.some.inj hfile ▸ hcached rfl
  | cons name rest ih =>
    rw [MosVolca.walkElems] at h
    split_ifs at h with hlen htype
    · replace h := pure_pair_inj h
      exact absurd (h.1 ▸ hfile) (by simp)
    · replace h := pure_pair_inj h
      exact absurd (h.1 ▸ hfile) (by simp)
    · have htype : s.load f.type = ftypeDir := by simpa using htype
      have ht : wordAt s.content f.type = ftypeDir := by
        rw [← load_eq (p := f.type) hp.mapped, htype]
      obtain ⟨hlook, hrest⟩ := hclean (Nat.lt_of_not_le hlen) htype
      obtain ⟨⟨y, s1⟩, hdl, h1⟩ := bind_eq_ok.mp h
      obtain ⟨hs1, -, hfound, -⟩ := hs.dirLookup hf hp.mapped ht hdl hlook
      cases y with
      | ok g' =>
        obtain ⟨hp1, hcached1⟩ := hs.dirLookupFrom_dirCached hf hp hdl hlook
        exact ih hs1 (hfound g' rfl).1.dirent hp1 (fun _ => hcached1) h1 (hrest g' s1 hdl)
      | error e =>
        simp only at h1
        split_ifs at h1
        · replace h1 := pure_pair_inj h1
          exact absurd (h1.1 ▸ hfile) (by simp)
        · replace h1 := pure_pair_inj h1
          exact absurd (h1.1 ▸ hfile) (by simp)

end CacheInv

/-- A structure in a block of a directory is not the root. -/
lemma Below.ne_root (h : Below c f g) : g ≠ FilePtr.root := by
  cases h with
  | child => exact FilePtr.entry_ne_root _ _
  | deeper => exact FilePtr.entry_ne_root _ _

/-- What is below a directory after a change that does not show was below it before, if it is a
file. -/
lemma Browses.below (h : Browses c c') (hf : Dirent c f) (hg : IsFile c g) (hb : Below c' f g) :
    Below c f g := by
  have hdir : ∀ d, Dirent c d → ∀ b j, j < file2blk → DirBlock c' d b → DirBlock c d b ∨
      ¬ Named c' (FilePtr.entry b j) ∧ wordAt c' (FilePtr.entry b j).type ≠ ftypeDir := by
    rintro d hd b j hj ⟨ht, i, hi, hold⟩
    rw [h.type hd] at ht
    rw [h.size hd] at hi
    rcases h.new d i b hd hold with hold | ⟨-, -, hno⟩
    · exact .inl ⟨ht, i, hi, hold⟩
    · exact .inr (hno j hj)
  have hcases : (Below c f g ∧ Dirent c g) ∨ ¬ Named c' g ∧ wordAt c' g.type ≠ ftypeDir := by
    clear hg
    induction hb with
    | @child b j hb hj => exact (hdir f hf b j hj hb).imp (fun h => ⟨.child h hj, .child hf h hj⟩) id
    | @deeper d b j _ hb hj ih =>
      rcases ih with ⟨hbelow, hd⟩ | ⟨-, ht⟩
      · exact (hdir d hd b j hj hb).imp (fun h => ⟨.deeper hbelow h hj, .child hd h hj⟩) id
      · exact absurd hb.1 ht
  rcases hcases with ⟨hbelow, -⟩ | ⟨hno, -⟩
  · exact hbelow
  · rcases hg with hroot | ⟨hgd, hname⟩
    · exact absurd hroot hb.ne_root
    · exact absurd ((h.named_iff hgd).mpr hname) hno

namespace CacheInv

/-- **What follows the walk in `file_remove`**: `f` loses its name, and there are no new structures
in directories. -/
lemma removed_names {s2 s3 : BlockCache} (hs : CacheInv s) (hf : InCache s f) (hcached : DirCached s f)
    (htrunc : MosVolca.fileTruncate s f 0 = .ok s1)
    (hflush : MosVolca.fileFlush (s1.setNameByte f 0 0) f = .ok s2)
    (hdir : MosVolca.fileFlushDir s2 f = .ok s3) :
    ¬ Named s3.content f ∧ (∀ g, Dirent s3.content g → Dirent s.content g) ∧
      ∀ g, Dirent s.content g → g ≠ f → ∀ k < 128, nameAt s3.content g k = nameAt s.content g k := by
  obtain ⟨hs1, hd1, hsize, hm1⟩ := hs.fileTruncate hf.dirent hf.mapped (by simp) htrunc
  have htrim := hs.fileTruncate_trims hf.dirent hf.mapped htrunc
  have hf1 : InCache s1 f := ⟨hd1, hm1 _ hf.mapped⟩
  obtain ⟨-, hsame⟩ := hs1.setNameByte (c := 0) (k := 0) hf1 (by decide)
  have hcon : (s1.setNameByte f 0 0).content = putWord s1.content (placeOf s1.content f (.head 0))
      (BlockCache.setByte (s1.load ⟨f.block, f.word⟩) 0 0) :=
    content_store (p := ⟨f.block, f.word⟩) hf1.mapped
  -- the flushes only read and write back
  have hl := fileFlush_loads hflush
  have hcached2 : DirCached s2 f := by
    have hcached1 := htrim.dirCached hs hf.dirent hf.mapped hm1 hcached
    have hload : s2.load f.dir = s1.load f.dir := by
      have hm2 : s2.mapped f.block = true := hl.mapped _ hf1.mapped
      rw [load_eq (p := f.dir) hm2, load_eq (p := f.dir) hf1.mapped, hl.content, hcon]
      exact wordAt_putWord_of_ne (by simp [FilePtr.dir, placeOf])
    intro h0 d hfd
    rw [hload] at h0 hfd
    exact hl.mapped _ (hcached1 h0 d hfd)
  rw [(fileFlushDir_loads hcached2 hdir).content, hl.content]
  refine ⟨fun hname => hname ?_, fun g hg => ?_, fun g hg hgf k hk => ?_⟩
  · rw [hcon]
    have hword := wordAt_putWord_self s1.content (placeOf s1.content f (.head 0))
      (BlockCache.setByte (s1.load ⟨f.block, f.word⟩) 0 0)
    exact (congrArg (BitVec.setWidth 8) hword).trans
      (by simpa using setByte_byte (j := 0) (k := 0) (s1.load ⟨f.block, f.word⟩) 0 (by decide))
  · have hg := hsame.dirent_iff.mp hg
    induction hg with
    | root => exact .root
    | @child d b j hd hb hj ih =>
      have hdf : d ≠ f := by
        rintro rfl
        obtain ⟨-, i, hi, -⟩ := hb
        rw [sizeBlocksOf, hsize] at hi
        exact absurd hi (Nat.not_lt_zero i)
      have hd0 := ih (hsame.dirent_iff.mpr hd)
      have hag := htrim.actsOn.agrees hs.consistent hf.dirent hd0 hdf
      exact .child hd0 (hag.dirBlock_iff.mp hb) hj
  · have hfield : HasField s.content g (.head (k / 4)) := (by omega : k / 4 < 64)
    have htrimmed : wordAt s1.content ⟨g.block, g.word + k / 4⟩ =
        wordAt s.content ⟨g.block, g.word + k / 4⟩ :=
      htrim.actsOn.field hs.consistent hf.dirent hg hfield (.inl hgf)
    have hput : wordAt (s1.setNameByte f 0 0).content ⟨g.block, g.word + k / 4⟩ =
        wordAt s1.content ⟨g.block, g.word + k / 4⟩ := by
      rw [hcon]
      refine wordAt_putWord_of_ne fun he => hgf ?_
      exact (hs.consistent.place_inj hg hf.dirent hfield (y := .head 0) (by decide : 0 < 64) he).1
    exact congrArg (fun x : Word => (x >>> (8 * (k % 4))).setWidth 8) (hput.trans htrimmed)

/-- **`file_remove`** takes away the file that the path names. -/
theorem fileRemove_takesEntry (hs : CacheInv s) (hp : (0 : Char8) ∉ path)
    (h : MosVolca.fileRemove s depth path = .ok (0, s')) (hharm : RemoveHarmless s depth path) :
    TakesEntry s.content s'.content path := by
  obtain ⟨hclean, hlink, hroot⟩ := hharm
  have hrem := h
  unfold MosVolca.fileRemove at h
  obtain ⟨⟨y, s1⟩, hwalk, h1⟩ := bind_eq_ok.mp h
  obtain ⟨hs1, -, hres, -⟩ := hs.walkPath hwalk hclean
  have helems : MosVolca.walkElems s none FilePtr.root (pathElems path) = .ok (y, s1) ∧
      ElemsClean s FilePtr.root (pathElems path) := by
    cases depth with
    | zero => cases hwalk
    | succ depth => exact ⟨walkPath_of_not_link hlink ▸ hwalk, hclean.1⟩
  have hnames := isName_pathElems hp
  obtain ⟨hbr, hy⟩ := hs.walkElems_walkOf hs.root (.inl rfl) hnames helems.1 helems.2
  simp only at h1
  split_ifs at h1 with hcode
  · replace h1 := pure_pair_inj h1
    exact absurd h1.1 hcode
  · obtain ⟨f, hfile, h2⟩ := bind_eq_ok.mp h1
    have hfw : y.file = some f := by
      unfold derefFile at hfile
      split at hfile
      · rename_i g hfg
        exact hfg.trans (congrArg some (Except.ok.inj hfile))
      · simp at hfile
    have hy : y = walkOf s.content none FilePtr.root (pathElems path) := by
      rcases hy with hy | ⟨r, -, -, rfl⟩
      · exact hy
      · cases hfw
    have hfc : IsFile s.content f := walkOf_isFile (.inl rfl) hnames (hy ▸ hfw)
    have hcached : DirCached s1 f := hs.walkElems_dirCached hs.root.dirent
      ⟨hs.root.mapped, by decide, by decide⟩ hroot helems.1 hfw helems.2
    obtain ⟨s2, htrunc, h3⟩ := bind_eq_ok.mp h2
    obtain ⟨s3, hflush, h4⟩ := bind_eq_ok.mp h3
    obtain ⟨s4, hdir, h5⟩ := bind_eq_ok.mp h4
    obtain ⟨-, rfl⟩ := pure_pair_inj h5
    obtain ⟨hno, hdirent, hname⟩ := hs1.removed_names (hres.file f hfw) hcached htrunc hflush hdir
    -- what the walk leads to
    have hsame : ∀ {x t g}, MosVolca.walkPath s path depth = .ok (x, t) → x.file = some g →
        t = s1 ∧ g = f := by
      intro x t g hx hg
      obtain ⟨rfl, rfl⟩ := Prod.mk.inj (Except.ok.inj (hwalk.symm.trans hx))
      exact ⟨rfl, Option.some.inj (hg.symm.trans hfw)⟩
    refine ⟨f, hy ▸ hfw, hno, fun g hg hgf hgb => ⟨?_, fun k hk => ?_⟩, fun g hg => ?_⟩
    · refine hs.fileRemove_isFile hp hrem hclean (fun x t g' hx hg' => ?_) hg fun x t g' hx hg' => ?_
      · obtain ⟨rfl, rfl⟩ := hsame hx hg'
        exact hcached
      · obtain ⟨rfl, rfl⟩ := hsame hx hg'
        exact ⟨hgf, fun hb => hgb (hbr.below hfc.dirent hg hb)⟩
    · rw [hname g (hbr.dirent g hg.dirent) hgf k hk, hbr.nameAt hg.dirent hk]
    · refine hbr.sameNames.isFile_iff.mp ?_
      rcases hg with rfl | ⟨hg, hgn⟩
      · exact .inl rfl
      · have hgf : g ≠ f := fun he => hno (he ▸ hgn)
        refine .inr ⟨hdirent g hg, ?_⟩
        rw [named_iff_nameAt] at hgn ⊢
        rwa [← hname g (hdirent g hg) hgf 0 (by decide)]

end CacheInv

/-! ## Runs -/

/-- **Names after a run.** From a consistent image, after any run of harmless events, `file_create`
adds the last element of the path to the names of its directory and to no other, and `file_remove`
takes away the file that the path names and no file outside it. -/
theorem names_of_run {disk : Blocks} {grants : ℕ → Bool} {cache : BlockCache} {t : FileServer}
    {events : List FsEvent} (hd : Consistent disk)
    (hinit : fsInit (BlockCache.off disk grants) = .ok cache)
    (h : fsRun depth (serveInit cache) events = .ok t)
    (hharm : HarmlessRun depth (serveInit cache) events) : NamesEffect t.cache := by
  have hs : ServerInv (serveInit cache) := ⟨CacheInv.fsInit hd hinit, fun i f hf => absurd hf (by
    simp [serveInit])⟩
  have ht := (hs.run h hharm).cache
  exact fun depth path hp => ⟨fun f s' hcreate hclean => ht.fileCreate_addsName hp hcreate hclean,
    fun s' hremove hclean => ht.fileRemove_takesEntry hp hremove hclean⟩

/-- The names after the removal of `a` from the image of two files. -/
theorem names_of_run_remove : ∃ cache t,
    fsInit (BlockCache.off twoFiles fun _ => true) = .ok cache ∧
      fsRun 1 (serveInit cache) [.request 7 (.remove [0x2F, 0x61])] = .ok t ∧
      NamesEffect t.cache := by
  obtain ⟨c, t, hc, ht, hharm⟩ := removeRun_checks
  exact ⟨c, t, hc, ht, names_of_run twoFiles_consistent hc ht hharm⟩

/-! ## A link -/

/-- The image of two files, with a link to `a` in place of the file `b`. -/
def linkedFile : Blocks := fun b i =>
  if b = 3 ∧ i = 97 then ftypeLnk else if b = 3 ∧ i = 96 then 1
  else if b = 5 ∧ i = 0 then 0x61 else twoFiles b i

lemma linkedFile_flat : FlatImage linkedFile 2 where
  root := ⟨by decide, by decide⟩
  plain := by decide
  entry := by decide
  first := rfl
  blocks := by decide
  used := by decide

/-- The removal of the link: the result, and whether the link is the file that `b` names and still
has its name. -/
def linkStays : Kernel (Word × Bool) := do
  let cache ← fsInit (BlockCache.off linkedFile fun _ => true)
  let (r, s) ← fileRemove cache 2 [0x62]
  pure (r, decide ((walkOf cache.content none FilePtr.root [[0x62]]).file =
    some (FilePtr.entry 3 1)) && s.content 3 64 == 0x62)

/-- **The wrong file is removed**: `b` is a link to `a`, and the removal of `b` leaves the link. -/
theorem removed_behind_link : ¬ ∀ disk grants cache depth events t path s', Consistent disk →
    fsInit (BlockCache.off disk grants) = .ok cache →
    fsRun depth (serveInit cache) events = .ok t → (0 : Char8) ∉ path →
    fileRemove t.cache depth path = .ok (0, s') →
    TakesEntry t.cache.content s'.content path := by
  intro h
  have heval : linkStays = .ok (0, true) := by rfl
  obtain ⟨cache, hinit, h1⟩ := bind_eq_ok.mp heval
  obtain ⟨⟨r, s'⟩, hrem, h2⟩ := bind_eq_ok.mp h1
  simp only [pure_eq_ok, Except.ok.injEq, Prod.mk.injEq, Bool.and_eq_true, decide_eq_true_eq,
    beq_iff_eq] at h2
  obtain ⟨rfl, hfile, hword⟩ := h2
  obtain ⟨f, hf, hno, -⟩ := h linkedFile _ cache 2 [] (serveInit cache) [0x62] s'
    linkedFile_flat.consistent hinit rfl (by decide) hrem
  have helems : pathElems [0x62] = [[0x62]] := rfl
  rw [helems] at hf
  obtain rfl := Option.some.inj (hf.symm.trans hfile)
  refine hno fun h0 => ?_
  rw [show s'.content (FilePtr.entry 3 1).block (FilePtr.entry 3 1).word = 0x62 from hword] at h0
  exact absurd h0 (by decide)

end MosVolca
