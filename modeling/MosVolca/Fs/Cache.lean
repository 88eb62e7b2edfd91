import MosVolca.Include.Error
import MosVolca.Include.Mmu
import MosVolca.Library.Bitmap

/-!
# The block cache of the file server

The first half of `fs/fs.c`: the pages at `DISKMAP` that cache the blocks of the disk, the bitmap
of free blocks, and the start of the file system. A block is a family of words. The address
`diskaddr(b)` of a cache page stands for the block number `b` itself. The pointers `super` and
`bitmap` point to blocks 1 and 2 once they are set.

The server gets its pages from the kernel, which may have none left. The answers of the kernel
are part of the state: they are an arbitrary sequence.

## Main definitions

* `MosVolca.BlockCache` — the disk and the cache.
* `MosVolca.readBlock`, `MosVolca.writeBlock`, `MosVolca.mapBlock`, `MosVolca.unmapBlock` — the
  functions on one block.
* `MosVolca.blockIsFree`, `MosVolca.freeBlock`, `MosVolca.allocBlock` — the functions on the bitmap.
* `MosVolca.fsInit` — the start of the file system.
-/

namespace MosVolca

/-- The state of `fs.c`: the disk, and the pages that cache its blocks. -/
structure BlockCache where
  /-- The words of the cache page of each block. -/
  mem : TwoLevel.Store Word
  /-- The cache page of the block is mapped. -/
  mapped : ℕ → Bool
  /-- `PTE_DIRTY` of the cache page. -/
  dirty : ℕ → Bool
  /-- The words of each block on the disk. -/
  disk : TwoLevel.Store Word
  /-- `super` is not null. -/
  super : Bool
  /-- `bitmap` is not null. -/
  bitmap : Bool
  /-- Whether the kernel has a page for each of the allocations to come. -/
  grants : ℕ → Bool

/-- A `uint32_t *`: a word of a cache page. -/
structure WordPtr where
  block : ℕ
  word : ℕ
  deriving DecidableEq

namespace BlockCache

/-- `*p`. -/
def load (s : BlockCache) (p : WordPtr) : Word := s.mem p.block p.word

/-- `*p = w`. -/
def store (s : BlockCache) (p : WordPtr) (w : Word) : BlockCache :=
  { s with mem := TwoLevel.write s.mem p.block p.word w }

/-- `super->s_nblocks`. -/
def nblocks (s : BlockCache) : ℕ := (s.mem 1 1).toNat

/-- The words of `bitmap`, which go on from each bitmap block to the next one. -/
def bits (s : BlockCache) (k : ℕ) : Word := s.mem (2 + k / 1024) (k % 1024)

/-- `bitmap[k]`, as a pointer. -/
def bitsPtr (k : ℕ) : WordPtr := ⟨2 + k / 1024, k % 1024⟩

/-- The contents of the page of a block are replaced. -/
def setBlock (s : BlockCache) (b : ℕ) (words : ℕ → Word) : BlockCache :=
  { s with mem := fun q j => if q = b then words j else s.mem q j }

end BlockCache

/-! ## Blocks -/

/-- `diskaddr`. -/
def diskaddr (blockno : ℕ) : Kernel ℕ :=
  if blockno ≥ 0x40000 then throw (.panic "In diskaddr: non-existent block") else pure blockno

/-- `block_is_mapped`. -/
def blockIsMapped (s : BlockCache) (blockno : ℕ) : Kernel Bool := do
  let va ← diskaddr blockno
  pure (s.mapped va)

/-- `block_is_dirty`. -/
def blockIsDirty (s : BlockCache) (blockno : ℕ) : Kernel Bool := do
  let va ← diskaddr blockno
  pure (s.mapped va && s.dirty va)

/-- `dirty_block`. The page is mapped again where it is, which needs no memory. -/
def dirtyBlock (s : BlockCache) (blockno : ℕ) : Kernel (Word × BlockCache) := do
  let va ← diskaddr blockno
  if s.mapped va = false then pure (-eNotFound, s)
  else if s.dirty va then pure (0, s)
  else pure (0, { s with dirty := Function.update s.dirty va true })

/-- `ide_write` of a block. -/
def ideWrite (s : BlockCache) (blockno : ℕ) : BlockCache :=
  { s with disk := fun q j => if q = blockno then s.mem blockno j else s.disk q j }

/-- `ide_read` of a block. -/
def ideRead (s : BlockCache) (blockno : ℕ) : BlockCache := s.setBlock blockno (s.disk blockno)

/-- `write_block`. -/
def writeBlock (s : BlockCache) (blockno : ℕ) : Kernel BlockCache := do
  if !(← blockIsMapped s blockno) then throw (.panic "write unmapped block")
  else pure (ideWrite s blockno)

/-- `syscall_mem_alloc` for the page of a block that is not mapped. -/
def allocPage (s : BlockCache) (va : ℕ) : Word × BlockCache :=
  let rest := { s with grants := fun n => s.grants (n + 1) }
  if s.grants 0 then
    (0, { rest.setBlock va fun _ => 0 with
      mapped := Function.update s.mapped va true, dirty := Function.update s.dirty va false })
  else (-eNoMem, rest)

/-- The first access to the page of a block: the refill handler of the kernel maps a page where
none is mapped. -/
def touchBlock (s : BlockCache) (va : ℕ) : Kernel BlockCache :=
  if s.mapped va then pure s
  else
    let (r, s) := allocPage s va
    if r ≠ 0 then throw (.panic "panic_on(page_alloc(&p))") else pure s

/-- `block_is_free`. -/
def blockIsFree (s : BlockCache) (blockno : ℕ) : Bool :=
  s.super && decide (blockno < s.nblocks) &&
    decide (s.bits (blockno / 32) &&& Bitmap.mask 32 blockno ≠ 0)

/-- `read_block`: `*isnew`; `*blk` is the block. The result of the allocation is not looked at, so
the page is missing if `ide_read` comes to it. -/
def readBlock (s : BlockCache) (blockno : ℕ) : Kernel (Bool × BlockCache) := do
  if s.super ∧ blockno ≥ s.nblocks then throw (.panic "reading non-existent block")
  else if s.bitmap ∧ blockIsFree s blockno then throw (.panic "reading free block")
  else
    let va ← diskaddr blockno
    if s.mapped va then pure (false, s)
    else
      let (_, s) := allocPage s va
      let s ← touchBlock s va
      pure (true, ideRead s va)

/-- `map_block`. -/
def mapBlock (s : BlockCache) (blockno : ℕ) : Kernel (Word × BlockCache) := do
  if ← blockIsMapped s blockno then pure (0, s) else pure (allocPage s blockno)

/-- `unmap_block`. -/
def unmapBlock (s : BlockCache) (blockno : ℕ) : Kernel BlockCache := do
  if ← blockIsMapped s blockno then pure s
  else
    let s ← if !blockIsFree s blockno && (← blockIsDirty s blockno) then writeBlock s blockno
      else pure s
    pure { s with mapped := Function.update s.mapped blockno false }

/-! ## The bitmap -/

/-- `free_block`. -/
def freeBlock (s : BlockCache) (blockno : ℕ) : BlockCache :=
  if blockno = 0 ∨ blockno ≥ s.nblocks ∧ s.super then s
  else s.store (BlockCache.bitsPtr (blockno / 32)) (s.bits (blockno / 32) ||| Bitmap.mask 32 blockno)

/-- The block that the loop of `alloc_block_num` stops at. -/
def firstFree (s : BlockCache) : Option ℕ :=
  (List.range' 3 (s.nblocks - 3)).find? fun blockno =>
    decide (s.bits (blockno / 32) &&& Bitmap.mask 32 blockno ≠ 0)

/-- `alloc_block_num`. -/
def allocBlockNum (s : BlockCache) : Kernel (Except Word ℕ × BlockCache) :=
  match firstFree s with
  | some blockno => do
    let s := s.store (BlockCache.bitsPtr (blockno / 32))
      (s.bits (blockno / 32) &&& ~~~Bitmap.mask 32 blockno)
    let s ← writeBlock s (blockno / 32768 + 2)
    pure (.ok blockno, s)
  | none => pure (.error (-eNoDisk), s)

/-- `alloc_block`. -/
def allocBlock (s : BlockCache) : Kernel (Except Word ℕ × BlockCache) := do
  match ← allocBlockNum s with
  | (.error r, s) => pure (.error r, s)
  | (.ok bno, s) => do
    let (r, s) ← mapBlock s bno
    if r ≠ 0 then pure (.error r, freeBlock s bno) else pure (.ok bno, s)

/-! ## The start -/

/-- `FS_MAGIC`. -/
def fsMagic : Word := 0x68286097

/-- The state before `fs_init`: nothing is in the cache. -/
def BlockCache.off (disk : TwoLevel.Store Word) (grants : ℕ → Bool) : BlockCache where
  mem := fun _ _ => 0
  mapped := fun _ => false
  dirty := fun _ => false
  disk := disk
  super := false
  bitmap := false
  grants := grants

/-- `user_assert`. -/
def userAssert (b : Bool) (s : BlockCache) : Kernel BlockCache :=
  if b then pure s else throw (.panic "assertion failed")

/-- `read_super`. -/
def readSuper (s : BlockCache) : Kernel BlockCache := do
  let (_, s) ← readBlock s 1
  let s := { s with super := true }
  if s.mem 1 0 ≠ fsMagic then throw (.panic "bad file system magic number")
  else if s.nblocks > 0x40000 then throw (.panic "file system is too large")
  else pure s

/-- `nbitmap` in `read_bitmap`. -/
def BlockCache.nbitmap (s : BlockCache) : ℕ := s.nblocks / 32768 + 1

/-- `read_bitmap`. -/
def readBitmap (s : BlockCache) : Kernel BlockCache := do
  let nbitmap := s.nbitmap
  let s ← (List.range' 0 nbitmap).foldlM
    (fun s i => do let (_, s) ← readBlock s (i + 2); pure s) s
  let s := { s with bitmap := true }
  let s ← userAssert (!blockIsFree s 0) s
  let s ← userAssert (!blockIsFree s 1) s
  (List.range' 0 nbitmap).foldlM (fun s i => userAssert (!blockIsFree s (i + 2)) s) s

/-- The words of `"OOPS!\n"` and its terminator, over the words `w`. -/
def oops (w : ℕ → Word) (i : ℕ) : Word :=
  if i = 0 then 0x53504F4F else if i = 1 then w 1 &&& 0xFF000000#32 ||| 0x00000A21#32 else w i

/-- `strcmp(diskaddr(1), "OOPS!\n") == 0`. -/
def isOops (w : ℕ → Word) : Bool :=
  w 0 == 0x53504F4F && w 1 &&& 0x00FFFFFF#32 == 0x00000A21#32

/-- `check_write_block`. -/
def checkWriteBlock (s : BlockCache) : Kernel BlockCache := do
  let s := { s with super := false }
  let (_, s) ← readBlock s 0
  let s := s.setBlock 0 (s.mem 1)
  let s ← writeBlock (s.setBlock 1 (oops (s.mem 1))) 1
  let s ← userAssert (s.mapped 1) s
  let s := { s with mapped := Function.update s.mapped 1 false }
  let s ← userAssert (!s.mapped 1) s
  let (_, s) ← readBlock s 1
  let s ← userAssert (isOops (s.mem 1)) s
  let s ← writeBlock (s.setBlock 1 (s.mem 0)) 1
  pure { s with super := true }

/-- `fs_init`. -/
def fsInit (s : BlockCache) : Kernel BlockCache := do
  let s ← readSuper s
  let s ← checkWriteBlock s
  readBitmap s

end MosVolca
