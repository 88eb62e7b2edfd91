import MosVolca.Fs.Cache

/-!
# Files and directories

The second half of `fs/fs.c`: the block pointers of a file, directories, paths, and the operations
on files. A `struct File *` is a place in a cache page: the root is in the super block, every other
file in a block of its directory. Words are little-endian.

## Main definitions

* `MosVolca.FilePtr` — a `struct File *`, and the places of its fields.
* `MosVolca.fileBlockWalk`, `MosVolca.fileMapBlock`, `MosVolca.fileGetBlock` — the blocks of a file.
* `MosVolca.dirLookup`, `MosVolca.dirAllocFile`, `MosVolca.walkPath` — directories and paths.
* `MosVolca.fileCreate`, `MosVolca.fileTruncate`, `MosVolca.fileSetSize`, `MosVolca.fileFlush`,
  `MosVolca.fileRemove` — the operations.
-/

namespace MosVolca

/-- A `struct File *`: the word of a cache page where the structure begins. -/
structure FilePtr where
  block : ℕ
  word : ℕ
  deriving DecidableEq

/-- `NDIRECT`. -/
def ndirect : ℕ := 10
/-- `NINDIRECT`. -/
def nindirect : ℕ := 1024
/-- `FILE2BLK`. -/
def file2blk : ℕ := 16
/-- `MAXNAMELEN`. -/
def maxnamelen : ℕ := 128
/-- `FTYPE_DIR`. -/
def ftypeDir : Word := 1
/-- `FTYPE_LNK`. -/
def ftypeLnk : Word := 2
/-- `DISKMAP`. -/
def diskmap : Word := 0x10000000

/-- `char`. -/
abbrev Char8 := BitVec 8

namespace FilePtr

variable (f : FilePtr)

/-- `&super->s_root`. -/
def root : FilePtr := ⟨1, 2⟩

/-- `(struct File *)blk + j`. -/
def entry (blk j : ℕ) : FilePtr := ⟨blk, 64 * j⟩

lemma entry_ne_root (blk j : ℕ) : entry blk j ≠ root := by
  intro h
  have hword : 64 * j = 2 := congrArg FilePtr.word h
  omega

/-- `&f->f_size`. -/
def size : WordPtr := ⟨f.block, f.word + 32⟩

/-- `&f->f_type`. -/
def type : WordPtr := ⟨f.block, f.word + 33⟩

/-- `&f->f_direct[i]`. -/
def direct (i : ℕ) : WordPtr := ⟨f.block, f.word + (34 + i)⟩

/-- `&f->f_indirect`. -/
def indirect : WordPtr := ⟨f.block, f.word + 44⟩

/-- `&f->f_dir`. -/
def dir : WordPtr := ⟨f.block, f.word + 45⟩

/-- The pointer as a number. -/
def addr : Word := diskmap + BitVec.ofNat 32 (4096 * f.block + 4 * f.word)

/-- The structure in one cache page that a number points to. -/
def ofAddr (a : Word) : Option FilePtr :=
  let off := (a - diskmap).toNat
  if off < 0x40000000 ∧ off % 4 = 0 ∧ off % 4096 ≤ 4096 - 256 then
    some ⟨off / 4096, off % 4096 / 4⟩
  else none

end FilePtr

namespace BlockCache

/-- `f->f_size / BY2BLK`. -/
def sizeBlocks (s : BlockCache) (f : FilePtr) : ℕ := (s.load f.size).toNat / 4096

/-- `f->f_name[k]`. -/
def nameByte (s : BlockCache) (f : FilePtr) (k : ℕ) : Char8 :=
  (s.mem f.block (f.word + k / 4) >>> (8 * (k % 4))).setWidth 8

/-- `strcmp(f->f_name, name) == 0`. -/
def nameIs (s : BlockCache) (f : FilePtr) (name : List Char8) : Bool :=
  (List.range' 0 (name.length + 1)).all fun k => s.nameByte f k == name.getD k 0

/-- The word with byte `k` replaced. -/
def setByte (w : Word) (k : ℕ) (c : Char8) : Word :=
  w &&& ~~~(0xFF#32 <<< (8 * k)) ||| (c.setWidth 32 <<< (8 * k))

/-- `f->f_name[k] = c`. -/
def setNameByte (s : BlockCache) (f : FilePtr) (k : ℕ) (c : Char8) : BlockCache :=
  let p : WordPtr := ⟨f.block, f.word + k / 4⟩
  s.store p (setByte (s.load p) (k % 4) c)

/-- `strcpy(f->f_name, name)`. -/
def setName (s : BlockCache) (f : FilePtr) (name : List Char8) : BlockCache :=
  (List.range' 0 (name.length + 1)).foldl (fun s k => s.setNameByte f k (name.getD k 0)) s

/-- The string at byte `k` of the page of a block, with at most `n` bytes. -/
def stringFrom (s : BlockCache) (blk : ℕ) : ℕ → ℕ → Option (List Char8)
  | 0, _ => none
  | n + 1, k =>
    let c : Char8 := (s.mem blk (k / 4) >>> (8 * (k % 4))).setWidth 8
    if c = 0 then some [] else (stringFrom s blk n (k + 1)).map (c :: ·)

end BlockCache

/-! ## The blocks of a file -/

/-- Step 2 of `file_block_walk`: the indirect block is there, or it is made. -/
def needIndirect (s : BlockCache) (f : FilePtr) (alloc : Bool) :
    Kernel (Except Word Unit × BlockCache) := do
  if s.load f.indirect = 0 then
    if alloc then
      match ← allocBlock s with
      | (.error r, s) => pure (.error r, s)
      | (.ok bno, s) => pure (.ok (), s.store f.indirect (BitVec.ofNat 32 bno))
    else pure (.error (-eNotFound), s)
  else pure (.ok (), s)

/-- `file_block_walk`: `*ppdiskbno`. -/
def fileBlockWalk (s : BlockCache) (f : FilePtr) (filebno : ℕ) (alloc : Bool) :
    Kernel (Except Word WordPtr × BlockCache) := do
  if filebno < ndirect then pure (.ok (f.direct filebno), s)
  else if filebno < nindirect then
    match ← needIndirect s f alloc with
    | (.error r, s) => pure (.error r, s)
    | (.ok _, s) =>
      let blk := (s.load f.indirect).toNat
      let (_, s) ← readBlock s blk
      pure (.ok ⟨blk, filebno⟩, s)
  else pure (.error (-eInval), s)

/-- `file_map_block`: `*diskbno`. -/
def fileMapBlock (s : BlockCache) (f : FilePtr) (filebno : ℕ) (alloc : Bool) :
    Kernel (Except Word ℕ × BlockCache) := do
  match ← fileBlockWalk s f filebno alloc with
  | (.error r, s) => pure (.error r, s)
  | (.ok ptr, s) =>
    if s.load ptr = 0 then
      if alloc then
        match ← allocBlock s with
        | (.error r, s) => pure (.error r, s)
        | (.ok bno, s) => pure (.ok bno, s.store ptr (BitVec.ofNat 32 bno))
      else pure (.error (-eNotFound), s)
    else pure (.ok (s.load ptr).toNat, s)

/-- `file_clear_block`. -/
def fileClearBlock (s : BlockCache) (f : FilePtr) (filebno : ℕ) : Kernel (Word × BlockCache) := do
  match ← fileBlockWalk s f filebno false with
  | (.error r, s) => pure (r, s)
  | (.ok ptr, s) =>
    if s.load ptr ≠ 0 then pure (0, (freeBlock s (s.load ptr).toNat).store ptr 0) else pure (0, s)

/-- `file_get_block`: `*blk`. -/
def fileGetBlock (s : BlockCache) (f : FilePtr) (filebno : ℕ) :
    Kernel (Except Word ℕ × BlockCache) := do
  match ← fileMapBlock s f filebno true with
  | (.error r, s) => pure (.error r, s)
  | (.ok diskbno, s) =>
    let (_, s) ← readBlock s diskbno
    pure (.ok diskbno, s)

/-- `file_dirty`. -/
def fileDirty (s : BlockCache) (f : FilePtr) (offset : Word) : Kernel (Word × BlockCache) := do
  match ← fileMapBlock s f (offset.toNat / 4096) false with
  | (.error r, s) => pure (r, s)
  | (.ok diskbno, s) => dirtyBlock s diskbno

/-! ## Directories -/

/-- The entry of a block that the inner loop of `dir_lookup` stops at. -/
def findName (s : BlockCache) (blk : ℕ) (name : List Char8) : Option ℕ :=
  (List.range' 0 file2blk).find? fun j => s.nameIs (FilePtr.entry blk j) name

/-- The outer loop of `dir_lookup`, with `n` rounds to go from block `i` on. -/
def dirLookupFrom (s : BlockCache) (dir : FilePtr) (name : List Char8) :
    ℕ → ℕ → Kernel (Except Word FilePtr × BlockCache)
  | 0, _ => pure (.error (-eNotFound), s)
  | n + 1, i => do
    match ← fileGetBlock s dir i with
    | (.error r, s) => pure (.error r, s)
    | (.ok blk, s) =>
      match findName s blk name with
      | some j => pure (.ok (FilePtr.entry blk j), s.store (FilePtr.entry blk j).dir dir.addr)
      | none => dirLookupFrom s dir name n (i + 1)

/-- `dir_lookup`: `*file`. -/
def dirLookup (s : BlockCache) (dir : FilePtr) (name : List Char8) :
    Kernel (Except Word FilePtr × BlockCache) :=
  dirLookupFrom s dir name (s.sizeBlocks dir) 0

/-- The entry of a block that the inner loop of `dir_alloc_file` stops at. -/
def findFree (s : BlockCache) (blk : ℕ) : Option ℕ :=
  (List.range' 0 file2blk).find? fun j => s.nameByte (FilePtr.entry blk j) 0 == 0

/-- The end of `dir_alloc_file`: the directory grows by the block `i`. -/
def dirGrow (s : BlockCache) (dir : FilePtr) (i : ℕ) :
    Kernel (Except Word FilePtr × BlockCache) := do
  match ← fileGetBlock (s.store dir.size (s.load dir.size + 4096)) dir i with
  | (.error r, s) => pure (.error r, s)
  | (.ok blk, s) => pure (.ok (FilePtr.entry blk 0), s)

/-- The loop of `dir_alloc_file`, with `n` rounds to go from block `i` on, and what follows it. -/
def dirAllocFrom (s : BlockCache) (dir : FilePtr) :
    ℕ → ℕ → Kernel (Except Word FilePtr × BlockCache)
  | 0, i => dirGrow s dir i
  | n + 1, i => do
    match ← fileGetBlock s dir i with
    | (.error r, s) => pure (.error r, s)
    | (.ok blk, s) =>
      match findFree s blk with
      | some j => pure (.ok (FilePtr.entry blk j), s)
      | none => dirAllocFrom s dir n (i + 1)

/-- `dir_alloc_file`: `*file`. -/
def dirAllocFile (s : BlockCache) (dir : FilePtr) : Kernel (Except Word FilePtr × BlockCache) :=
  dirAllocFrom s dir (s.sizeBlocks dir) 0

/-! ## Paths -/

/-- What `walk_path` leaves behind: its result, `*pdir`, `*pfile` and `lastelem`. -/
structure Walk where
  code : Word
  dir : Option FilePtr
  file : Option FilePtr
  lastelem : List Char8

/-- `'/'`. -/
def slash : Char8 := 0x2F

/-- The elements of a path, in the order in which the scans of `walk_path` come to them. -/
def pathElems (path : List Char8) : List (List Char8) :=
  (path.splitOnP (· == slash)).filter (· ≠ [])

/-- The loop of `walk_path` and of `walk_path_at` from `file`, which is in `dir`. -/
def walkElems (s : BlockCache) (dir : Option FilePtr) (file : FilePtr) :
    List (List Char8) → Kernel (Walk × BlockCache)
  | [] => pure (⟨0, dir, some file, []⟩, s)
  | name :: rest => do
    if name.length ≥ maxnamelen then pure (⟨-eBadPath, none, none, []⟩, s)
    else if s.load file.type ≠ ftypeDir then pure (⟨-eNotFound, none, none, []⟩, s)
    else
      match ← dirLookup s file name with
      | (.ok f, s) => walkElems s (some file) f rest
      | (.error r, s) =>
        if r = -eNotFound ∧ rest = [] then pure (⟨r, some file, none, name⟩, s)
        else pure (⟨r, none, none, []⟩, s)

/-- `walk_path`, with at most `depth` links inside one another (the stack of the server is not
endless). A link without an end in its page runs into the next page, which is not modelled. -/
def walkPath (s : BlockCache) (path : List Char8) : ℕ → Kernel (Walk × BlockCache)
  | 0 => throw (.panic "the stack is full")
  | depth + 1 => do
    let (w, s) ← walkElems s none FilePtr.root (pathElems path)
    match w.file with
    | none => pure (w, s)
    | some file =>
      if s.load file.type = ftypeLnk then
        let blk := (s.load (file.direct 0)).toNat
        let (_, s) ← readBlock s blk
        match s.stringFrom blk 4096 0 with
        | none => throw (.panic "the link runs into the next page")
        | some target =>
          let (w', s) ← walkPath s target depth
          pure ({ w with file := w'.file }, s)
      else pure (w, s)

/-- `walk_path_at`. -/
def walkPathAt (s : BlockCache) (parDir : FilePtr) (path : List Char8) :
    Kernel (Walk × BlockCache) :=
  walkElems s none parDir (pathElems path)

/-- A `struct File *` is used. -/
def derefFile (file : Option FilePtr) : Kernel FilePtr :=
  match file with
  | some f => pure f
  | none => throw .nullAccess

/-! ## Operations -/

/-- `file_open`: `*file`. -/
def fileOpen (s : BlockCache) (depth : ℕ) (path : List Char8) :
    Kernel (Word × Option FilePtr × BlockCache) := do
  let (w, s) ← walkPath s path depth
  pure (w.code, w.file, s)

/-- `file_openat`: `*file`. -/
def fileOpenat (s : BlockCache) (dir : FilePtr) (path : List Char8) :
    Kernel (Word × Option FilePtr × BlockCache) := do
  let (w, s) ← walkPathAt s dir path
  pure (w.code, w.file, s)

/-- `file_create`: `*file`, if it is set. -/
def fileCreate (s : BlockCache) (depth : ℕ) (path : List Char8) :
    Kernel (Word × Option FilePtr × BlockCache) := do
  let (w, s) ← walkPath s path depth
  if w.code = 0 then pure (-eFileExists, none, s)
  else
    match w.dir with
    | none => pure (w.code, none, s)
    | some dir =>
      if w.code ≠ -eNotFound then pure (w.code, none, s)
      else
        match ← dirAllocFile s dir with
        | (.error _, s) => pure (w.code, none, s)
        | (.ok f, s) => pure (0, some f, s.setName f w.lastelem)

/-- `file_truncate`. -/
def fileTruncate (s : BlockCache) (f : FilePtr) (newsize : Word) : Kernel BlockCache := do
  let oldNblocks := s.sizeBlocks f + 1
  let newNblocks := if newsize = 0 then 0 else newsize.toNat / 4096 + 1
  let s ← (List.range' newNblocks (oldNblocks - newNblocks)).foldlM
    (fun s bno => do let (_, s) ← fileClearBlock s f bno; pure s) s
  let s :=
    if newNblocks ≤ ndirect ∧ s.load f.indirect ≠ 0 then
      (freeBlock s (s.load f.indirect).toNat).store f.indirect 0
    else s
  pure (s.store f.size newsize)

/-- One round of `file_flush`. -/
def fileFlushBlock (f : FilePtr) (s : BlockCache) (bno : ℕ) : Kernel BlockCache := do
  match ← fileMapBlock s f bno false with
  | (.error _, s) => pure s
  | (.ok diskno, s) => if ← blockIsDirty s diskno then writeBlock s diskno else pure s

/-- `file_flush`. -/
def fileFlush (s : BlockCache) (f : FilePtr) : Kernel BlockCache :=
  (List.range' 0 (s.sizeBlocks f + 1)).foldlM (fileFlushBlock f) s

/-- `file_flush(f->f_dir)`, if there is a directory. Its page need not be in the cache. -/
def fileFlushDir (s : BlockCache) (f : FilePtr) : Kernel BlockCache :=
  if s.load f.dir = 0 then pure s
  else
    match FilePtr.ofAddr (s.load f.dir) with
    | none => throw (.panic "no structure in a cache page")
    | some dir => do
      let s ← touchBlock s dir.block
      fileFlush s dir

/-- `file_set_size`. -/
def fileSetSize (s : BlockCache) (f : FilePtr) (newsize : Word) : Kernel (Word × BlockCache) := do
  let s ← if s.load f.size > newsize then fileTruncate s f newsize else pure s
  let s ← fileFlushDir (s.store f.size newsize) f
  pure (0, s)

/-- `fs_sync`. -/
def fsSync (s : BlockCache) : Kernel BlockCache :=
  (List.range' 0 s.nblocks).foldlM
    (fun s i => do if ← blockIsDirty s i then writeBlock s i else pure s) s

/-- `file_close`. -/
def fileClose (s : BlockCache) (f : FilePtr) : Kernel BlockCache := do
  let s ← fileFlush s f
  let s ← fileFlushDir s f
  writeBlock s 1

/-- `file_remove`. -/
def fileRemove (s : BlockCache) (depth : ℕ) (path : List Char8) :
    Kernel (Word × BlockCache) := do
  let (w, s) ← walkPath s path depth
  if w.code ≠ 0 then pure (w.code, s)
  else
    let f ← derefFile w.file
    let s ← fileTruncate s f 0
    let s ← fileFlush (s.setNameByte f 0 0) f
    let s ← fileFlushDir s f
    pure (0, s)

end MosVolca
