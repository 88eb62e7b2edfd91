import MosVolca.Fs.CacheCases
import MosVolca.Library.ByteWords

/-!
# The image formatter

`tools/fsformat.c`: the program on the host that writes files, directories and symbolic links of the
host into an image of the disk. The number of blocks, `NBLOCK`, is a parameter. The structure `super`
of the program is kept where `finish_fs` copies it, in block 1 of `disk`. A failed assertion and `exit`
end the program. Nothing in the program tests an index into `disk`, so that an index outside of the
array is an end of the model only. The host and the machine are little-endian, so no block is reversed.

What is in a directory of the host is given in the order of `readdir`, without the entries `.` and
`..` that the loop passes over. The arguments of the program are given in the same way.

## Main definitions

* `MosVolca.HostDir` — what is in a directory of the host.
* `MosVolca.DiskImage`, `MosVolca.FormatStop` — the state of the program, and how it may end.
* `MosVolca.createFile`, `MosVolca.writeFile`, `MosVolca.writeEntries` — the functions on the image.
* `MosVolca.formatDisk`, `MosVolca.fsformat` — the layout, and the program.
-/

namespace MosVolca

/-! ## The host -/

/-- What is in a directory of the host: regular files with their bytes, symbolic links with their
targets, and directories. -/
inductive HostDir
  | nil
  | file (name data : List Char8) (rest : HostDir)
  | link (name target : List Char8) (rest : HostDir)
  | dir (name : List Char8) (children rest : HostDir)

/-! ## The state -/

/-- `NBLOCK`. -/
def nblock : ℕ := 1024

/-- `FTYPE_REG`. -/
def ftypeReg : Word := 0

/-- The type of a block. -/
inductive BlockType
  | free
  | boot
  | bmap
  | super
  | data
  | file
  | index
  deriving DecidableEq

/-- The variables of the program. -/
structure DiskImage where
  /-- The words of `disk[].data`. -/
  disk : Blocks
  /-- `disk[].type`. -/
  type : ℕ → BlockType
  /-- `nextbno`. -/
  nextbno : ℕ

/-- The ends of the program before it is done. -/
inductive FormatStop
  /-- `disk[i]` is used, and there is no such element. -/
  | outside (i : ℕ)
  /-- An assertion fails. -/
  | assert
  /-- `exit`, after a message. -/
  | exit
  deriving DecidableEq

namespace DiskImage

/-- `*p`. -/
def load (s : DiskImage) (p : WordPtr) : Word := wordAt s.disk p

/-- `*p = w`. -/
def store (s : DiskImage) (p : WordPtr) (w : Word) : DiskImage :=
  { s with disk := putWord s.disk p w }

/-- The bytes from byte `k` of block `b` on are written. -/
def storeBytes (s : DiskImage) (b k : ℕ) (bytes : List Char8) : DiskImage :=
  { s with disk := Function.update s.disk b (ByteWords.put (s.disk b) k bytes) }

/-- `f->f_name[k]`. -/
def nameByte (s : DiskImage) (f : FilePtr) (k : ℕ) : Char8 :=
  ByteWords.get (s.disk f.block) (4 * f.word + k)

/-- `strcpy(f->f_name, name)`. -/
def strcpy (s : DiskImage) (f : FilePtr) (name : List Char8) : DiskImage :=
  s.storeBytes f.block (4 * f.word) (name ++ [0])

/-- `strncpy(f->f_name, name, n)`: what is left of the `n` bytes is filled with zeros. -/
def strncpy (s : DiskImage) (f : FilePtr) (name : List Char8) (n : ℕ) : DiskImage :=
  s.storeBytes f.block (4 * f.word) ((name ++ List.replicate n 0).take n)

end DiskImage

variable (n : ℕ)

/-- `disk[i]` is used. -/
def diskIndex (i : ℕ) : Except FormatStop Unit :=
  if i < n then pure () else throw (.outside i)

/-- `nbitblock`, as `init_disk` sets it. -/
def nbitblock : ℕ := (n + 32768 - 1) / 32768

/-- The bitmap blocks that `init_disk` sets to ones. -/
def onesInBitmap : Blocks := fun b _ => if 2 ≤ b ∧ b < 2 + nbitblock n then 0xFFFFFFFF else 0

/-- `init_disk`. -/
def initDisk : Except FormatStop DiskImage := do
  diskIndex n (2 + (nbitblock n - 1))
  let s : DiskImage :=
    { disk := onesInBitmap n
      type := fun b => if b = 0 then .boot else if b = 1 then .super
        else if b < 2 + nbitblock n then .bmap else .free
      nextbno := 2 + nbitblock n }
  let diff := n % 32768 / 8
  let s := if n ≠ nbitblock n * 32768 then
      s.storeBytes (2 + (nbitblock n - 1)) diff (List.replicate (4096 - diff) 0)
    else s
  let s := s.store ⟨1, 0⟩ fsMagic
  let s := s.store ⟨1, 1⟩ (BitVec.ofNat 32 n)
  let s := s.store FilePtr.root.type ftypeDir
  pure (s.strcpy FilePtr.root [slash])

/-! ## Blocks -/

/-- `next_block`. -/
def nextBlock (s : DiskImage) (type : BlockType) : Except FormatStop (ℕ × DiskImage) := do
  diskIndex n s.nextbno
  pure (s.nextbno,
    { s with type := Function.update s.type s.nextbno type, nextbno := s.nextbno + 1 })

/-- The indirect block in `save_block_link`: it is there, or it is made. -/
def needIndex (s : DiskImage) (f : FilePtr) : Except FormatStop DiskImage :=
  if s.load f.indirect = 0 then do
    let (bno, s) ← nextBlock n s .index
    pure (s.store f.indirect (BitVec.ofNat 32 bno))
  else pure s

/-- `save_block_link`. -/
def saveBlockLink (s : DiskImage) (f : FilePtr) (nblk bno : ℕ) : Except FormatStop DiskImage :=
  if nblk ≥ nindirect then throw .assert
  else if nblk < ndirect then pure (s.store (f.direct nblk) (BitVec.ofNat 32 bno))
  else do
    let s ← needIndex n s f
    let index := (s.load f.indirect).toNat
    diskIndex n index
    pure (s.store ⟨index, nblk⟩ (BitVec.ofNat 32 bno))

/-- `make_link_block`. -/
def makeLinkBlock (s : DiskImage) (dirf : FilePtr) (nblk : ℕ) :
    Except FormatStop (ℕ × DiskImage) := do
  let (bno, s) ← nextBlock n s .file
  let s ← saveBlockLink n s dirf nblk bno
  pure (bno, s.store dirf.size (s.load dirf.size + 4096))

/-! ## Files -/

/-- The structure that the inner loop of `create_file` stops at. -/
def findUnused (s : DiskImage) (bno : ℕ) : Option ℕ :=
  (List.range' 0 file2blk).find? fun j => s.nameByte (FilePtr.entry bno j) 0 == 0

/-- The block that the outer loop of `create_file` looks at: the last one, in every round. -/
def lastLink (s : DiskImage) (dirf : FilePtr) (nblk : ℕ) : Except FormatStop ℕ :=
  if nblk ≤ ndirect then pure (s.load (dirf.direct (nblk - 1))).toNat
  else do
    let index := (s.load dirf.indirect).toNat
    diskIndex n index
    pure (s.load ⟨index, nblk - 1⟩).toNat

/-- The outer loop of `create_file`, with `k` rounds to go. -/
def createFileFrom (s : DiskImage) (dirf : FilePtr) (nblk : ℕ) :
    ℕ → Except FormatStop (Option FilePtr)
  | 0 => pure none
  | k + 1 => do
    let bno ← lastLink n s dirf nblk
    diskIndex n bno
    match findUnused s bno with
    | some j => pure (some (FilePtr.entry bno j))
    | none => createFileFrom s dirf nblk k

/-- `create_file`. -/
def createFile (s : DiskImage) (dirf : FilePtr) : Except FormatStop (FilePtr × DiskImage) := do
  let nblk := (s.load dirf.size).toNat / 4096
  match ← createFileFrom n s dirf nblk nblk with
  | some f => pure (f, s)
  | none =>
    let (bno, s) ← makeLinkBlock n s dirf nblk
    diskIndex n bno
    pure (FilePtr.entry bno 0, s)

/-- The loop of `write_file` that reads the file, from its block `iblk` on. `data` is what is left
of it, and `read` gives a whole block as long as there is one. The last `read` stores nothing, but it
gets the address of the next block too. -/
def readBlocks (s : DiskImage) (target : FilePtr) (iblk : ℕ) (data : List Char8) :
    Except FormatStop DiskImage := do
  diskIndex n s.nextbno
  match data with
  | [] => pure s
  | data@(_ :: _) =>
    let s := s.storeBytes s.nextbno 0 (data.take 4096)
    let (bno, s) ← nextBlock n s .data
    let s ← saveBlockLink n s target iblk bno
    readBlocks s target (iblk + 1) (data.drop 4096)
  termination_by data.length

/-- `write_file`. -/
def writeFile (s : DiskImage) (dirf : FilePtr) (fname data : List Char8) :
    Except FormatStop DiskImage := do
  let (target, s) ← createFile n s dirf
  let s := s.strcpy target fname
  let s := s.store target.size (BitVec.ofNat 32 data.length)
  let s := s.store target.type ftypeReg
  readBlocks n s target 0 data

/-- `write_symlink`. -/
def writeSymlink (s : DiskImage) (dirf : FilePtr) (fname path : List Char8) :
    Except FormatStop DiskImage := do
  let (target, s) ← createFile n s dirf
  diskIndex n s.nextbno
  let bytes := path.take 4096
  let s := s.storeBytes s.nextbno 0 bytes
  let s := s.strcpy target fname
  let s := s.store target.size (BitVec.ofNat 32 bytes.length)
  let s := s.store target.type ftypeLnk
  let (bno, s) ← nextBlock n s .data
  saveBlockLink n s target 0 bno

/-- The structure of a directory in `write_directory`, before its entries are written. -/
def makeDirectory (s : DiskImage) (dirf : FilePtr) (fname : List Char8) :
    Except FormatStop (FilePtr × DiskImage) := do
  let (pdir, s) ← createFile n s dirf
  let s := s.strncpy pdir fname (maxnamelen - 1)
  if s.nameByte pdir (maxnamelen - 1) ≠ 0 then throw .exit
  else pure (pdir, s.store pdir.type ftypeDir)

/-- The loops of `main` and of `write_directory` over what is in a directory. -/
def writeEntries (s : DiskImage) (dirf : FilePtr) : HostDir → Except FormatStop DiskImage
  | .nil => pure s
  | .file name data rest => do
    let s ← writeFile n s dirf name data
    writeEntries s dirf rest
  | .link name target rest => do
    let s ← writeSymlink n s dirf name target
    writeEntries s dirf rest
  | .dir name children rest => do
    let (pdir, s) ← makeDirectory n s dirf name
    let s ← writeEntries s pdir children
    writeEntries s dirf rest

/-! ## The program -/

/-- One round of `flush_bitmap`. -/
def flushBit (disk : Blocks) (i : ℕ) : Except FormatStop Blocks := do
  diskIndex n (2 + i / 32768)
  let p : WordPtr := ⟨2 + i / 32768, i % 32768 / 32⟩
  pure (putWord disk p (wordAt disk p &&& ~~~Bitmap.mask 32 i))

/-- `flush_bitmap`. -/
def flushBitmap (s : DiskImage) : Except FormatStop DiskImage := do
  let disk ← (List.range' 0 s.nextbno).foldlM (flushBit n) s.disk
  pure { s with disk := disk }

/-- `main` up to `finish_fs`. -/
def formatDisk (args : HostDir) : Except FormatStop DiskImage := do
  let s ← initDisk n
  match args with
  | .nil => throw .exit
  | args => do
    let s ← writeEntries n s FilePtr.root args
    flushBitmap n s

/-- `finish_fs`: the image. The number of its blocks does not depend on `NBLOCK`. -/
def finishFs (s : DiskImage) : Except FormatStop Blocks := do
  diskIndex n 1
  (List.range' 0 1024).forM (diskIndex n)
  pure s.disk

/-- `main`. -/
def fsformat (args : HostDir) : Except FormatStop Blocks := do
  let s ← formatDisk nblock args
  finishFs nblock s

end MosVolca
