import MosVolca.Fs.FileCases

/-!
# Directories and paths, in the cache

What the functions on directories and paths do to the entries. They fill the holes of the
directories that they read, and a directory grows by a block. The conditions follow the functions:
wherever a block becomes a block of a directory, it holds zeros.

## Main definitions

* `MosVolca.LookupClean`, `MosVolca.AllocFileClean`, `MosVolca.PathClean`, `MosVolca.CreateClean` —
  what the functions need.
* `MosVolca.IsFile` — the root, and the structures with a name in blocks of directories.
* `MosVolca.Scans` — what the walks do to the cache.

## Main results

* `MosVolca.CacheInv.dirLookup`, `MosVolca.CacheInv.dirAllocFile` — the structure that is found.
* `MosVolca.CacheInv.walkPath` — the file and the directory that a path leads to.
* `MosVolca.CacheInv.fileCreate`, `MosVolca.CacheInv.fileRemove` — the operations.
-/

namespace MosVolca

variable {s s' s1 : BlockCache} {f g dir : FilePtr} {b v k bno : ℕ} {p : WordPtr} {w r : Word}
  {name : List Char8}

/-! ## Conditions -/

/-- What the loop of `dir_lookup` needs, with `n` rounds to go from block `i` on. -/
def LookupClean (s : BlockCache) (dir : FilePtr) (name : List Char8) : ℕ → ℕ → Prop
  | 0, _ => True
  | n + 1, i => MapClean s dir i ∧ ∀ blk s1, fileGetBlock s dir i = .ok (.ok blk, s1) →
      findName s1 blk name = none → LookupClean s1 dir name n (i + 1)

/-- What a directory needs to grow by block `i`: if the block is there it holds zeros, and if it is
not there its page is clean. -/
def GrowClean (s : BlockCache) (dir : FilePtr) (i : ℕ) : Prop :=
  (∀ b, Holds s.content dir (.data i) b → Blank s.content b) ∧
    MapClean (s.store dir.size (s.load dir.size + 4096)) dir i

/-- What `dir_alloc_file` needs, with `n` rounds to go from block `i` on. -/
def AllocFileClean (s : BlockCache) (dir : FilePtr) : ℕ → ℕ → Prop
  | 0, i => GrowClean s dir i
  | n + 1, i => MapClean s dir i ∧ ∀ blk s1, fileGetBlock s dir i = .ok (.ok blk, s1) →
      findFree s1 blk = none → AllocFileClean s1 dir n (i + 1)

/-- What the loop of `walk_path` needs. -/
def ElemsClean (s : BlockCache) (file : FilePtr) : List (List Char8) → Prop
  | [] => True
  | name :: rest => name.length < maxnamelen → s.load file.type = ftypeDir →
      LookupClean s file name (s.sizeBlocks file) 0 ∧
        ∀ f s1, dirLookup s file name = .ok (.ok f, s1) → ElemsClean s1 f rest

/-- What `walk_path` needs. -/
def PathClean (s : BlockCache) (path : List Char8) : ℕ → Prop
  | 0 => True
  | depth + 1 => ElemsClean s FilePtr.root (pathElems path) ∧
      ∀ w s1 file, walkElems s none FilePtr.root (pathElems path) = .ok (w, s1) →
        w.file = some file → s1.load file.type = ftypeLnk → ∀ isnew s2 target,
          readBlock s1 (s1.load (file.direct 0)).toNat = .ok (isnew, s2) →
          s2.stringFrom (s1.load (file.direct 0)).toNat 4096 0 = some target →
            PathClean s2 target depth

/-- What `file_create` needs. -/
def CreateClean (s : BlockCache) (depth : ℕ) (path : List Char8) : Prop :=
  PathClean s path depth ∧ ∀ w s1 dir, walkPath s path depth = .ok (w, s1) →
    w.code = -eNotFound → w.dir = some dir → AllocFileClean s1 dir (s1.sizeBlocks dir) 0

/-! ## Names and files -/

/-- A file: the root, or a structure with a name in a block of a directory. -/
def IsFile (c : Blocks) (f : FilePtr) : Prop := f = FilePtr.root ∨ Dirent c f ∧ Named c f

lemma IsFile.dirent (h : IsFile c f) : Dirent c f := by
  rcases h with rfl | ⟨h, -⟩
  · exact .root
  · exact h

/-- A string that can be the name of a file: it has characters, and none is 0. -/
structure IsName (name : List Char8) : Prop where
  ne_nil : name ≠ []
  no_zero : (0 : Char8) ∉ name

lemma IsName.head (h : IsName name) : name.getD 0 0 ≠ 0 := by
  cases name with
  | nil => exact absurd rfl h.ne_nil
  | cons a l =>
    rintro h0
    exact h.no_zero (by rw [← h0]; exact List.mem_cons_self)

/-- The parts of a string have the characters of the string. -/
lemma mem_of_mem_splitOnP {p : Char8 → Bool} {l e : List Char8} {x : Char8}
    (he : e ∈ l.splitOnP p) (hx : x ∈ e) : x ∈ l := by
  induction l generalizing e with
  | nil =>
    rw [List.splitOnP_nil, List.mem_singleton] at he
    exact he ▸ hx
  | cons y l ih =>
    rw [List.splitOnP_cons_eq_if_modifyHead] at he
    split_ifs at he with hy
    · rcases List.mem_cons.mp he with rfl | he
      · exact absurd hx (List.not_mem_nil)
      · exact List.mem_cons_of_mem y (ih he hx)
    · cases hl : l.splitOnP p with
      | nil =>
        rw [hl] at he
        exact absurd he List.not_mem_nil
      | cons a as =>
        rw [hl] at he ih
        rcases List.mem_cons.mp he with rfl | he
        · rcases List.mem_cons.mp hx with rfl | hx
          · exact List.mem_cons_self
          · exact List.mem_cons_of_mem y (ih List.mem_cons_self hx)
        · exact List.mem_cons_of_mem y (ih (List.mem_cons_of_mem a he) hx)

/-- The elements of a path are names. -/
lemma isName_pathElems (hp : (0 : Char8) ∉ path) : ∀ name ∈ pathElems path, IsName name := by
  intro name h
  obtain ⟨hsplit, hne⟩ := List.mem_filter.mp h
  exact ⟨by simpa using hne, fun h0 => hp (mem_of_mem_splitOnP hsplit h0)⟩

/-- A string in a page has no character 0. -/
lemma stringFrom_no_zero {blk n k : ℕ} {l : List Char8} (h : s.stringFrom blk n k = some l) :
    (0 : Char8) ∉ l := by
  induction n generalizing k l with
  | zero => simp [BlockCache.stringFrom] at h
  | succ n ih =>
    simp only [BlockCache.stringFrom] at h
    split_ifs at h with h0
    · obtain rfl := Option.some.inj h
      exact List.not_mem_nil
    · obtain ⟨l', hl', rfl⟩ := Option.map_eq_some_iff.mp h
      intro hmem
      rcases List.mem_cons.mp hmem with heq | hmem
      · exact h0 heq.symm
      · exact ih hl' hmem

/-- The first byte of a name. -/
lemma nameByte_zero (hm : s.mapped f.block = true) :
    s.nameByte f 0 = (s.content f.block f.word).setWidth 8 := by
  rw [content_of_mapped hm]
  simp [BlockCache.nameByte]

/-- The structure that `dir_lookup` finds has the name. -/
lemma findName_named {blk j : ℕ} (h : findName s blk name = some j) (hname : IsName name)
    (hm : s.mapped blk = true) : Named s.content (FilePtr.entry blk j) := by
  have his := List.find?_some h
  unfold BlockCache.nameIs at his
  rw [List.all_eq_true] at his
  have h0 := his 0 (List.mem_range'.mpr ⟨0, by omega, by omega⟩)
  rw [beq_iff_eq] at h0
  rw [nameByte_zero (f := FilePtr.entry blk j) hm] at h0
  exact fun hz => hname.head (h0.symm.trans hz)

/-- The structure that `dir_alloc_file` finds has no name. -/
lemma findFree_not_named {blk j : ℕ} (h : findFree s blk = some j) (hm : s.mapped blk = true) :
    ¬ Named s.content (FilePtr.entry blk j) := by
  have h0 := List.find?_some h
  rw [beq_iff_eq, nameByte_zero (f := FilePtr.entry blk j) hm] at h0
  exact fun hname => hname h0

/-! ## What the walks do -/

/-- A file that a function can use: an entry in the cache. -/
structure InCache (s : BlockCache) (f : FilePtr) : Prop where
  dirent : Dirent s.content f
  mapped : s.mapped f.block = true

lemma Grows.inCache (h : Grows s s') (hf : InCache s f) : InCache s' f :=
  ⟨h.dirent f hf.dirent, h.mapped _ hf.mapped⟩

/-- **What the walks do to the cache**: blocks are read, directories get the blocks that they lack, and
`f_dir` of entries is written. -/
inductive Scans (s : BlockCache) : BlockCache → Prop
  | refl : Scans s s
  | read {t u : BlockCache} {b : ℕ} {isnew : Bool} (h : Scans s t)
      (hread : readBlock t b = .ok (isnew, u)) : Scans s u
  | block {t u : BlockCache} {d : FilePtr} {i : ℕ} {x : Except Word ℕ} (h : Scans s t)
      (hd : InCache t d) (ht : wordAt t.content d.type = ftypeDir) (hi : i < sizeBlocksOf t.content d)
      (hget : fileGetBlock t d i = .ok (x, u)) (hclean : MapClean t d i) : Scans s u
  | dir {t : BlockCache} {f : FilePtr} {r : Word} (h : Scans s t) (hf : InCache t f) :
      Scans s (t.store f.dir r)

lemma Scans.trans (h : Scans s s1) (h' : Scans s1 s') : Scans s s' := by
  induction h' with
  | refl => exact h
  | read _ hread ih => exact ih.read hread
  | block _ hd ht hi hget hclean ih => exact ih.block hd ht hi hget hclean
  | dir _ hf ih => exact ih.dir hf

/-! ## Directories -/

/-- A structure that is found in a block is one of the block. -/
lemma lt_of_find_entry {p : ℕ → Bool} {j : ℕ} (h : (List.range' 0 file2blk).find? p = some j) :
    j < file2blk := by
  have hmem := List.mem_of_find?_eq_some h
  simpa [List.mem_range'] using hmem

namespace CacheInv

/-- A word of the name or `f_dir` of an entry is written. -/
lemma storeOther (hs : CacheInv s) (hf : Dirent s.content f) (hm : s.mapped f.block = true)
    (hk : k < 32 ∨ 45 ≤ k ∧ k < 64) :
    CacheInv (s.store ⟨f.block, f.word + k⟩ w) ∧
      SameFiles s (s.store ⟨f.block, f.word + k⟩ w) := by
  have hfield : HasField s.content f (.head k) := (by omega : k < 64)
  have hmeta : ¬ (Field.head k).Meta := fun h => by
    have h1 : 32 ≤ k := h.1
    have h2 : k ≤ 44 := h.2
    omega
  refine ⟨hs.store (x := .head k) hf hfield hm (hs.consistent.putOther hf hfield hmeta),
    fun _ hx => hx, fun g hg => ?_⟩
  rw [content_store (p := ⟨f.block, f.word + k⟩) hm]
  exact hs.consistent.agrees_of_field hg hf hfield (.inr hmeta)

/-- The structures in a block of a directory are entries. -/
lemma dirent_entry (hd : Dirent s.content dir) (ht : wordAt s.content dir.type = ftypeDir)
    (hi : bno < sizeBlocksOf s.content dir) (hold : Holds s.content dir (.data bno) b) {j : ℕ}
    (hj : j < file2blk) : Dirent s.content (FilePtr.entry b j) :=
  .child hd ⟨ht, bno, hi, hold⟩ hj

/-- The loop of `dir_lookup`. -/
lemma dirLookupFrom {n i : ℕ} {x : Except Word FilePtr} (hs : CacheInv s)
    (hd : Dirent s.content dir) (hm : s.mapped dir.block = true)
    (ht : wordAt s.content dir.type = ftypeDir) (hn : i + n ≤ sizeBlocksOf s.content dir)
    (h : dirLookupFrom s dir name n i = .ok (x, s')) (hclean : LookupClean s dir name n i) :
    CacheInv s' ∧ Grows s s' ∧
      (∀ f, x = .ok f → InCache s' f ∧ (IsName name → Named s'.content f)) ∧ Scans s s' := by
  induction n generalizing s i with
  | zero =>
    cases h
    exact ⟨hs, (Loads.refl _).grows, fun f hf => absurd hf (by simp), .refl⟩
  | succ n ih =>
    rw [MosVolca.dirLookupFrom] at h
    obtain ⟨⟨y, s1⟩, hget, h1⟩ := bind_eq_ok.mp h
    obtain ⟨hs1, hg, hblk⟩ := hs.fileGetBlock hd hm hget hclean.1
    have hw := Scans.refl.block ⟨hd, hm⟩ ht (by omega) hget hclean.1
    have hd1 := hg.dirent dir hd
    have ht1 := (hg.type dir hd).trans ht
    have hsz : sizeBlocksOf s1.content dir = sizeBlocksOf s.content dir := by
      rw [sizeBlocksOf, hg.size dir hd, sizeBlocksOf]
    cases y with
    | error r =>
      cases h1
      exact ⟨hs1, hg, fun f hf => absurd hf (by simp), hw⟩
    | ok blk =>
      obtain ⟨hold, hmb⟩ := hblk blk rfl
      simp only at h1
      split at h1
      · rename_i j hfind
        have hj := lt_of_find_entry hfind
        cases h1
        have hentry := dirent_entry hd1 ht1 (by omega) hold hj
        obtain ⟨hs2, hsame⟩ := hs1.storeOther (k := 45) (w := dir.addr) hentry hmb
          (.inr ⟨by decide, by decide⟩)
        refine ⟨hs2, hg.trans hsame.grows, fun f hf => ?_, hw.dir ⟨hentry, hmb⟩⟩
        cases hf
        refine ⟨⟨hsame.dirent_iff.mpr hentry, hmb⟩, fun hname => ?_⟩
        -- the name is in front of `f_dir`
        unfold Named
        rw [content_store (p := (FilePtr.entry blk j).dir) hmb,
          show putWord s1.content (FilePtr.entry blk j).dir dir.addr _ (FilePtr.entry blk j).word = _
            from TwoLevel.write_of_ne (.inr (by simp [FilePtr.dir]))]
        exact findName_named hfind hname hmb
      · rename_i hfind
        obtain ⟨hs', hg', hres, hw'⟩ := ih hs1 hd1 (hg.mapped _ hm) ht1 (by omega) h1
          (hclean.2 blk s1 hget hfind)
        exact ⟨hs', hg.trans hg', hres, hw.trans hw'⟩

/-- **`dir_lookup`**: the structure that is found. -/
theorem dirLookup {x : Except Word FilePtr} (hs : CacheInv s) (hd : Dirent s.content dir)
    (hm : s.mapped dir.block = true) (ht : wordAt s.content dir.type = ftypeDir)
    (h : dirLookup s dir name = .ok (x, s'))
    (hclean : LookupClean s dir name (s.sizeBlocks dir) 0) :
    CacheInv s' ∧ Grows s s' ∧
      (∀ f, x = .ok f → InCache s' f ∧ (IsName name → Named s'.content f)) ∧ Scans s s' :=
  hs.dirLookupFrom hd hm ht (by rw [sizeBlocks_eq hm]; omega) h hclean

/-- A directory grows by one block. -/
lemma dirGrow {i : ℕ} {x : Except Word FilePtr} (hs : CacheInv s) (hd : Dirent s.content dir)
    (hm : s.mapped dir.block = true) (ht : wordAt s.content dir.type = ftypeDir)
    (hi : i = sizeBlocksOf s.content dir) (h : dirGrow s dir i = .ok (x, s'))
    (hclean : GrowClean s dir i) :
    CacheInv s' ∧ (∀ b, s.mapped b = true → s'.mapped b = true) ∧
      ∀ f, x = .ok f → Dirent s'.content f ∧ s'.mapped f.block = true := by
  unfold MosVolca.dirGrow at h
  obtain ⟨⟨y, s2⟩, hget, h1⟩ := bind_eq_ok.mp h
  have hload : (s.load dir.size).toNat = (wordAt s.content dir.size).toNat := by
    rw [load_eq (p := dir.size) hm]
  have hnew : (s.load dir.size + 4096).toNat = ((s.load dir.size).toNat + 4096) % 2 ^ 32 := by
    rw [BitVec.toNat_add]
    rfl
  obtain ⟨hs1, hd1⟩ := hs.setSize (w := s.load dir.size + 4096) hd hm fun j b _ hge hlt hold => by
    have : j = i := by
      rw [hi]
      unfold sizeBlocksOf at hge ⊢
      omega
    exact hclean.1 b (this ▸ hold)
  obtain ⟨hs2, hg, hblk⟩ := hs1.fileGetBlock hd1 hm hget hclean.2
  cases y with
  | error r =>
    obtain ⟨rfl, rfl⟩ := pure_pair_inj h1
    exact ⟨hs2, hg.mapped, fun f hf => absurd hf (by simp)⟩
  | ok blk =>
    obtain ⟨rfl, rfl⟩ := pure_pair_inj h1
    obtain ⟨hold, hmb⟩ := hblk blk rfl
    refine ⟨hs2, hg.mapped, fun f hf => ?_⟩
    obtain rfl := Except.ok.inj hf
    have hcon : (s.store dir.size (s.load dir.size + 4096)).content =
      putWord s.content dir.size (s.load dir.size + 4096) := content_store hm
    have ht2 : wordAt s2.content dir.type = ftypeDir := by
      rw [hg.type dir hd1, hcon, ← ht]
      refine wordAt_putWord_of_ne fun he => ?_
      simp [FilePtr.type, FilePtr.size] at he
    have hsz : sizeBlocksOf s2.content dir = (s.load dir.size + 4096).toNat / 4096 := by
      rw [sizeBlocksOf, hg.size dir hd1, hcon, wordAt_putWord_self]
    have hlt := hold.lt_nindirect
    have hlt : i < 1024 := hlt
    refine ⟨dirent_entry (hg.dirent dir hd1) ht2 ?_ hold (by decide), hmb⟩
    rw [hsz, hnew]
    unfold sizeBlocksOf at hi
    omega

/-- **The loop of `dir_alloc_file`** gets the blocks of the directory until a structure has no name. If
there is none, the directory grows. -/
lemma dirAllocFrom_cases {n i : ℕ} {x : Except Word FilePtr} (hs : CacheInv s)
    (hd : Dirent s.content dir) (hm : s.mapped dir.block = true)
    (ht : wordAt s.content dir.type = ftypeDir) (hn : i + n = sizeBlocksOf s.content dir)
    (hle : i ≤ nindirect) (h : dirAllocFrom s dir n i = .ok (x, s'))
    (hclean : AllocFileClean s dir n i) :
    ∃ t, CacheInv t ∧ Grows s t ∧ Scans s t ∧
      ((s' = t ∧ ∀ f, x = .ok f → ∃ b j k, f = FilePtr.entry b j ∧ findFree t b = some j ∧
          k < sizeBlocksOf t.content dir ∧ Holds t.content dir (.data k) b ∧ t.mapped b = true) ∨
        sizeBlocksOf t.content dir ≤ nindirect ∧
          MosVolca.dirGrow t dir (sizeBlocksOf t.content dir) = .ok (x, s') ∧
          GrowClean t dir (sizeBlocksOf t.content dir)) := by
  induction n generalizing s i with
  | zero =>
    rw [Nat.add_zero] at hn
    subst hn
    exact ⟨s, hs, (Loads.refl _).grows, .refl, .inr ⟨hle, h, hclean⟩⟩
  | succ n ih =>
    rw [MosVolca.dirAllocFrom] at h
    obtain ⟨⟨y, s1⟩, hget, h1⟩ := bind_eq_ok.mp h
    obtain ⟨hs1, hg, hblk⟩ := hs.fileGetBlock hd hm hget hclean.1
    have hw := Scans.refl.block ⟨hd, hm⟩ ht (by omega) hget hclean.1
    have hsz : sizeBlocksOf s1.content dir = sizeBlocksOf s.content dir := by
      rw [sizeBlocksOf, hg.size dir hd, sizeBlocksOf]
    cases y with
    | error r =>
      cases h1
      exact ⟨s', hs1, hg, hw, .inl ⟨rfl, fun f hf => by cases hf⟩⟩
    | ok blk =>
      obtain ⟨hold, hmb⟩ := hblk blk rfl
      simp only at h1
      split at h1
      · rename_i j hfind
        cases h1
        refine ⟨s', hs1, hg, hw, .inl ⟨rfl, fun f hf => ?_⟩⟩
        cases hf
        exact ⟨blk, j, i, rfl, hfind, by omega, hold, hmb⟩
      · rename_i hfind
        obtain ⟨t, ht', hg', hw', hcases⟩ := ih hs1 (hg.dirent dir hd) (hg.mapped _ hm)
          ((hg.type dir hd).trans ht) (by omega) hold.lt_nindirect h1 (hclean.2 blk s1 hget hfind)
        exact ⟨t, ht', hg.trans hg', hw.trans hw', hcases⟩

/-- **`dir_alloc_file`**: the structure that is taken. -/
theorem dirAllocFile {x : Except Word FilePtr} (hs : CacheInv s) (hd : Dirent s.content dir)
    (hm : s.mapped dir.block = true) (ht : wordAt s.content dir.type = ftypeDir)
    (h : dirAllocFile s dir = .ok (x, s')) (hclean : AllocFileClean s dir (s.sizeBlocks dir) 0) :
    CacheInv s' ∧ (∀ b, s.mapped b = true → s'.mapped b = true) ∧
      ∀ f, x = .ok f → Dirent s'.content f ∧ s'.mapped f.block = true := by
  obtain ⟨t, ht', hg, -, hcases⟩ :=
    hs.dirAllocFrom_cases hd hm ht (by rw [sizeBlocks_eq hm]; omega) (Nat.zero_le _) h hclean
  have htype := (hg.type dir hd).trans ht
  rcases hcases with ⟨rfl, hres⟩ | ⟨-, hgrow, hgc⟩
  · refine ⟨ht', hg.mapped, fun f hf => ?_⟩
    obtain ⟨b, j, k, rfl, hfind, hk, hold, hmb⟩ := hres f hf
    exact ⟨dirent_entry (hg.dirent dir hd) htype hk hold (lt_of_find_entry hfind), hmb⟩
  · obtain ⟨hs', hmono, hres⟩ :=
      ht'.dirGrow (hg.dirent dir hd) (hg.mapped _ hm) htype rfl hgrow hgc
    exact ⟨hs', fun b hb => hmono b (hg.mapped b hb), hres⟩

end CacheInv

/-! ## Paths -/

/-- What `walk_path` leaves behind. If it fails there is no file, and `*pdir` is a directory. -/
structure WalkResult (s : BlockCache) (w : Walk) : Prop where
  file : ∀ f, w.file = some f → InCache s f
  dir : ∀ d, w.dir = some d → InCache s d
  none : w.code ≠ 0 → w.file = none
  type : w.code ≠ 0 → ∀ d, w.dir = some d → wordAt s.content d.type = ftypeDir
  lastelem : w.lastelem.length < maxnamelen

/-- A walk that fails without a directory. -/
lemma walkResult_error : WalkResult s ⟨r, none, none, []⟩ where
  file := fun f hf => absurd hf (by simp)
  dir := fun d hd => absurd hd (by simp)
  none := fun _ => rfl
  type := fun _ d hd => absurd hd (by simp)
  lastelem := (by decide : 0 < maxnamelen)

/-- The files that a walk leaves behind, and the name that is missing if it fails in a directory. -/
structure WalkFiles (c : Blocks) (w : Walk) : Prop where
  file : ∀ f, w.file = some f → IsFile c f
  lastelem : w.code ≠ 0 → ∀ d, w.dir = some d → IsName w.lastelem

/-- A walk that fails without a directory leaves nothing behind. -/
lemma walkFiles_error {c : Blocks} : WalkFiles c ⟨r, none, none, []⟩ where
  file := fun f hf => absurd hf (by simp)
  lastelem := fun _ d hd => absurd hd (by simp)

namespace CacheInv

/-- The root is in the cache. -/
lemma root (hs : CacheInv s) : InCache s FilePtr.root :=
  ⟨.root, hs.map 1 le_rfl (by unfold firstData; omega)⟩

/-- The loop of `walk_path` and `walk_path_at`. -/
theorem walkElems {d : Option FilePtr} {elems : List (List Char8)} {x : Walk} (hs : CacheInv s)
    (hf : InCache s f) (hd : ∀ g, d = some g → InCache s g)
    (h : walkElems s d f elems = .ok (x, s')) (hclean : ElemsClean s f elems) :
    CacheInv s' ∧ Grows s s' ∧ WalkResult s' x ∧ Scans s s' ∧
      (IsFile s.content f → (∀ e ∈ elems, IsName e) → WalkFiles s'.content x) := by
  induction elems generalizing s d f with
  | nil =>
    cases h
    refine ⟨hs, (Loads.refl _).grows, ⟨fun g hg => ?_, hd, fun hne => absurd rfl hne,
      fun hne => absurd rfl hne, (by decide : 0 < maxnamelen)⟩, .refl,
      fun hfile _ => ⟨fun g hg => ?_, fun hne => absurd rfl hne⟩⟩
    · exact Option.some.inj hg ▸ hf
    · exact Option.some.inj hg ▸ hfile
  | cons name rest ih =>
    rw [MosVolca.walkElems] at h
    split_ifs at h with hlen htype
    · cases h
      exact ⟨hs, (Loads.refl _).grows, walkResult_error, .refl, fun _ _ => walkFiles_error⟩
    · cases h
      exact ⟨hs, (Loads.refl _).grows, walkResult_error, .refl, fun _ _ => walkFiles_error⟩
    · have htype : s.load f.type = ftypeDir := by simpa using htype
      have ht : wordAt s.content f.type = ftypeDir := by
        rw [← load_eq (p := f.type) hf.mapped, htype]
      obtain ⟨hlook, hrest⟩ := hclean (Nat.lt_of_not_le hlen) htype
      obtain ⟨⟨y, s1⟩, hdl, h1⟩ := bind_eq_ok.mp h
      obtain ⟨hs1, hg, hfound, hw⟩ := hs.dirLookup hf.dirent hf.mapped ht hdl hlook
      have hf1 := hg.inCache hf
      cases y with
      | ok g =>
        obtain ⟨hgc, hnamed⟩ := hfound g rfl
        obtain ⟨hs', hg', hres, hw', hfiles⟩ := ih hs1 hgc
          (fun e he => Option.some.inj he ▸ hf1) h1 (hrest g s1 hdl)
        refine ⟨hs', hg.trans hg', hres, hw.trans hw', fun _ hnames => ?_⟩
        exact hfiles (.inr ⟨hgc.dirent, hnamed (hnames name List.mem_cons_self)⟩)
          fun e he => hnames e (List.mem_cons_of_mem name he)
      | error e =>
        simp only at h1
        split_ifs at h1 with hlast
        · cases h1
          refine ⟨hs1, hg, ⟨fun e he => absurd he (by simp), fun e he => Option.some.inj he ▸ hf1,
            fun _ => rfl, fun _ e he => ?_, Nat.lt_of_not_le hlen⟩, hw,
            fun _ hnames => ⟨fun e he => absurd he (by simp), fun _ _ _ => hnames name List.mem_cons_self⟩⟩
          rw [← Option.some.inj he, hg.type f hf.dirent, ht]
        · cases h1
          exact ⟨hs1, hg, walkResult_error, hw, fun _ _ => walkFiles_error⟩

/-- **`walk_path`**: what a path leads to. -/
theorem walkPath {path : List Char8} {depth : ℕ} {x : Walk} (hs : CacheInv s)
    (h : walkPath s path depth = .ok (x, s')) (hclean : PathClean s path depth) :
    CacheInv s' ∧ Grows s s' ∧ WalkResult s' x ∧ Scans s s' ∧
      ((0 : Char8) ∉ path → WalkFiles s'.content x) := by
  induction depth generalizing s path x s' with
  | zero => cases h
  | succ depth ih =>
    rw [MosVolca.walkPath] at h
    obtain ⟨⟨y, s1⟩, helems, h1⟩ := bind_eq_ok.mp h
    obtain ⟨hs1, hg, hres, hw, hfiles⟩ :=
      hs.walkElems hs.root (fun g hg => absurd hg (by simp)) helems hclean.1
    have hfiles : (0 : Char8) ∉ path → WalkFiles s1.content y :=
      fun hp => hfiles (.inl rfl) (isName_pathElems hp)
    simp only at h1
    split at h1
    · cases h1
      exact ⟨hs1, hg, hres, hw, hfiles⟩
    · rename_i file hfile
      split_ifs at h1 with hlnk
      · obtain ⟨⟨isnew, s2⟩, hread, h2⟩ := bind_eq_ok.mp h1
        have hl := (readBlock_loads hread).1
        simp only at h2
        split at h2
        · cases h2
        · rename_i target htarget
          obtain ⟨⟨z, s3⟩, hwalk, h3⟩ := bind_eq_ok.mp h2
          cases h3
          obtain ⟨hs3, hg3, hres3, hw3, hfiles3⟩ := ih (hl.inv hs1) hwalk
            (hclean.2 y s1 file helems hfile hlnk isnew s2 target hread htarget)
          have hg2 := hl.grows.trans hg3
          -- the outer walk has found the link
          have hcode : y.code = 0 := by
            by_contra hne
            exact absurd ((hres.none hne).symm.trans hfile) (by simp)
          exact ⟨hs3, hg.trans hg2, ⟨hres3.file, fun d hd => hg2.inCache (hres.dir d hd),
            fun hne => absurd hcode hne, fun hne => absurd hcode hne, hres.lastelem⟩,
            (hw.read hread).trans hw3, fun _ => ⟨(hfiles3 (stringFrom_no_zero htarget)).file,
              fun hne => absurd hcode hne⟩⟩
      · cases h1
        exact ⟨hs1, hg, hres, hw, hfiles⟩

/-! ## Operations -/

/-- A byte of the name of an entry is written. -/
lemma setNameByte {c : Char8} (hs : CacheInv s) (hf : InCache s f) (hk : k < maxnamelen) :
    CacheInv (s.setNameByte f k c) ∧ SameFiles s (s.setNameByte f k c) := by
  have hk : k < 128 := hk
  exact hs.storeOther hf.dirent hf.mapped (.inl (by omega))

/-- The name of an entry is written. -/
lemma setName (hs : CacheInv s) (hf : InCache s f) (hlen : name.length < maxnamelen) :
    CacheInv (s.setName f name) ∧ InCache (s.setName f name) f ∧
      ∀ b, s.mapped b = true → (s.setName f name).mapped b = true := by
  have hloop : ∀ l : List ℕ, (∀ k ∈ l, k < maxnamelen) → ∀ t, CacheInv t → InCache t f →
      (∀ b, s.mapped b = true → t.mapped b = true) →
      CacheInv (l.foldl (fun t k => t.setNameByte f k (name.getD k 0)) t) ∧
      InCache (l.foldl (fun t k => t.setNameByte f k (name.getD k 0)) t) f ∧
      ∀ b, s.mapped b = true →
        (l.foldl (fun t k => t.setNameByte f k (name.getD k 0)) t).mapped b = true := by
    intro l
    induction l with
    | nil => exact fun _ t ht hft hm => ⟨ht, hft, hm⟩
    | cons k l ih =>
      intro hl t ht hft hm
      obtain ⟨ht1, hsame⟩ := ht.setNameByte (c := name.getD k 0) hft (hl k List.mem_cons_self)
      exact ih (fun k' hk' => hl k' (List.mem_cons_of_mem k hk')) _ ht1 (hsame.grows.inCache hft)
        fun b hb => hsame.mapped b (hm b hb)
  refine hloop _ (fun k hk => ?_) s hs hf fun _ hb => hb
  rw [List.mem_range'] at hk
  obtain ⟨i, hi, rfl⟩ := hk
  omega

/-- **`file_create`**: the new file. -/
theorem fileCreate {path : List Char8} {depth : ℕ} {x : Option FilePtr} (hs : CacheInv s)
    (h : fileCreate s depth path = .ok (r, x, s')) (hclean : CreateClean s depth path) :
    CacheInv s' ∧ (∀ b, s.mapped b = true → s'.mapped b = true) ∧
      ∀ f, x = some f → InCache s' f := by
  unfold MosVolca.fileCreate at h
  obtain ⟨⟨y, s1⟩, hwalk, h1⟩ := bind_eq_ok.mp h
  obtain ⟨hs1, hg, hres, -⟩ := hs.walkPath hwalk hclean.1
  have hnone : ∀ {a : Word} {s'}, (Except.ok (a, none, s1) : Kernel _) = .ok (r, x, s') →
      CacheInv s' ∧ (∀ b, s.mapped b = true → s'.mapped b = true) ∧
        ∀ f, x = some f → InCache s' f := by
    intro a s' he
    simp only [Except.ok.injEq, Prod.mk.injEq] at he
    obtain ⟨-, rfl, rfl⟩ := he
    exact ⟨hs1, hg.mapped, fun f hf => absurd hf (by simp)⟩
  simp only at h1
  by_cases hcode : y.code = 0
  · rw [if_pos hcode] at h1
    exact hnone h1
  · rw [if_neg hcode] at h1
    split at h1
    · exact hnone h1
    · rename_i dir hdir
      by_cases hnf : y.code ≠ -eNotFound
      · rw [if_pos hnf] at h1
        exact hnone h1
      · rw [if_neg hnf] at h1
        obtain ⟨⟨z, s2⟩, halloc, h2⟩ := bind_eq_ok.mp h1
        have hd := hres.dir dir hdir
        obtain ⟨hs2, hmono, hfound⟩ := hs1.dirAllocFile hd.dirent hd.mapped
          (hres.type hcode dir hdir) halloc (hclean.2 y s1 dir hwalk (by simpa using hnf) hdir)
        cases z with
        | error e =>
          simp only [pure_eq_ok, Except.ok.injEq, Prod.mk.injEq] at h2
          obtain ⟨-, rfl, rfl⟩ := h2
          exact ⟨hs2, fun b hb => hmono b (hg.mapped b hb), fun f hf => absurd hf (by simp)⟩
        | ok f =>
          simp only [pure_eq_ok, Except.ok.injEq, Prod.mk.injEq] at h2
          obtain ⟨-, rfl, rfl⟩ := h2
          obtain ⟨hfd, hfm⟩ := hfound f rfl
          obtain ⟨hs3, hf3, hm3⟩ := hs2.setName ⟨hfd, hfm⟩ hres.lastelem
          exact ⟨hs3, fun b hb => hm3 b (hmono b (hg.mapped b hb)),
            fun f' hf' => Option.some.inj hf' ▸ hf3⟩

/-- **`file_remove`**. -/
theorem fileRemove {path : List Char8} {depth : ℕ} (hs : CacheInv s)
    (h : fileRemove s depth path = .ok (r, s')) (hclean : PathClean s path depth) :
    CacheInv s' ∧ ∀ b, s.mapped b = true → s'.mapped b = true := by
  unfold MosVolca.fileRemove at h
  obtain ⟨⟨y, s1⟩, hwalk, h1⟩ := bind_eq_ok.mp h
  obtain ⟨hs1, hg, hres, -⟩ := hs.walkPath hwalk hclean
  simp only at h1
  split_ifs at h1 with hcode
  · replace h1 := pure_pair_inj h1
    exact h1.2 ▸ ⟨hs1, hg.mapped⟩
  · obtain ⟨f, hfile, h2⟩ := bind_eq_ok.mp h1
    have hf : InCache s1 f := by
      unfold derefFile at hfile
      split at hfile
      · rename_i g hfg
        exact Except.ok.inj hfile ▸ hres.file g hfg
      · simp at hfile
    obtain ⟨s2, htrunc, h3⟩ := bind_eq_ok.mp h2
    obtain ⟨hs2, hd2, -, hm2⟩ := hs1.fileTruncate hf.dirent hf.mapped (by simp) htrunc
    obtain ⟨hs3, hsame⟩ := hs2.setNameByte (c := 0) (k := 0) ⟨hd2, hm2 _ hf.mapped⟩ (by decide)
    obtain ⟨s4, hflush, h4⟩ := bind_eq_ok.mp h3
    have hl := fileFlush_loads hflush
    obtain ⟨s5, hdir, h5⟩ := bind_eq_ok.mp h4
    obtain ⟨hs5, hm5⟩ := (hl.inv hs3).fileFlushDir hdir
    replace h5 := pure_pair_inj h5
    rw [← h5.2]
    exact ⟨hs5, fun b hb => hm5 b (hl.mapped b (hsame.mapped b (hm2 b (hg.mapped b hb))))⟩

/-- **`file_set_size`**: if a directory gets bigger, its new blocks hold zeros. -/
theorem fileSetSize (hs : CacheInv s) (hf : InCache s f)
    (hgrow : ∀ i b, wordAt s.content f.type = ftypeDir → sizeBlocksOf s.content f ≤ i →
      i < w.toNat / 4096 → Holds s.content f (.data i) b → Blank s.content b)
    (h : fileSetSize s f w = .ok (r, s')) :
    CacheInv s' ∧ ∀ b, s.mapped b = true → s'.mapped b = true := by
  have hfinish : ∀ {s1 : BlockCache}, CacheInv (s1.store f.size w) →
      (∀ b, s.mapped b = true → s1.mapped b = true) →
      (do let s ← MosVolca.fileFlushDir (s1.store f.size w) f; pure (0, s)) = .ok (r, s') →
      CacheInv s' ∧ ∀ b, s.mapped b = true → s'.mapped b = true := by
    intro s1 hs1 hm1 h1
    obtain ⟨s2, hflush, h2⟩ := bind_eq_ok.mp h1
    replace h2 := pure_pair_inj h2
    obtain ⟨hs2, hm2⟩ := hs1.fileFlushDir hflush
    rw [← h2.2]
    exact ⟨hs2, fun b hb => hm2 b (hm1 b hb)⟩
  unfold MosVolca.fileSetSize at h
  simp only at h
  split_ifs at h with hlt
  · have hlt : w.toNat < (s.load f.size).toNat := hlt
    obtain ⟨s1, htrunc, h1⟩ := bind_eq_ok.mp h
    obtain ⟨hs1, hd1, hw, hm1⟩ := hs.fileTruncate hf.dirent hf.mapped hlt.le htrunc
    have hsize : sizeBlocksOf s1.content f = w.toNat / 4096 := by rw [sizeBlocksOf, hw]
    exact hfinish (hs1.setSize hd1 (hm1 _ hf.mapped) fun i b _ hge hi _ => by omega).1 hm1 h1
  · exact hfinish (hs.setSize hf.dirent hf.mapped hgrow).1 (fun _ hb => hb) h

end CacheInv

end MosVolca
