import MosVolca.User.Client
import MosVolca.User.PipeEnds

/-!
# File descriptors and open files

`user/lib/fd.c` and `user/lib/file.c`: a descriptor is a page at `INDEX2FD` of its number, which is
mapped exactly while the descriptor is in use, and the data of its file are mapped at `INDEX2DATA`.

## Main definitions

* `MosVolca.Client.fdAlloc`, `MosVolca.Client.fdLookup` — the table of descriptors.
* `MosVolca.Client.openAP`, `MosVolca.Client.openat` — the files are opened.
* `MosVolca.Client.fileRead`, `MosVolca.Client.fileWrite` — up to the `memcpy` that they end with.
* `MosVolca.Client.ftruncate` — the size of an open file is changed.
* `MosVolca.Client.fileClose`, `MosVolca.Client.close`, `MosVolca.Client.dup`.
-/

namespace MosVolca

/-- `FDTABLE`. -/
def fdtable : Word := 0x5fc00000
/-- `FILEBASE`. -/
def filebase : Word := 0x60000000
/-- `MAXFILESIZE`. -/
def maxfilesize : Word := 0x400000
/-- `MAXPATHLEN`. -/
def maxpathlen : ℕ := 1024

/-- `INDEX2FD`. -/
def index2fd (i : Word) : Word := fdtable + i * 4096
/-- `INDEX2DATA`. -/
def index2data (i : Word) : Word := filebase + i * pdmap

/-- `fd2num`. -/
def fd2num (fd : Word) : Word := (fd - fdtable) / 4096
/-- `fd2data`. -/
def fd2data (fd : Word) : Word := index2data (fd2num fd)

/-- The devices of `devtab`. -/
inductive Dev
  | file | cons | pipe
  deriving DecidableEq

/-- `dev_lookup`. -/
def devLookup (devId : Word) : Option Dev :=
  if devId = devfileId then some .file
  else if devId = 0x63 then some .cons
  else if devId = 0x70 then some .pipe
  else none

/-- The addresses of the fields of a `struct Filefd`. -/
def fdDevId (fd : Word) : Word := fd
def fdFileid (fd : Word) : Word := fd + 12
def fdSize (fd : Word) : Word := fd + 144

/-- `ROUND(a, BY2PG)`. -/
def roundPg (a : Word) : Word := (a + 4095) &&& ~~~4095#32

/-- The pages of the loop from 0 to a size. -/
def pagesTo (size : Word) : List ℕ := List.range ((size.toNat + 4095) / 4096)

/-- The pages of the loop from one rounded size to another. -/
def pagesBetween (a b : Word) : List ℕ :=
  List.range' ((roundPg a).toNat / 4096) ((roundPg b).toNat / 4096 - (roundPg a).toNat / 4096)

/-- The address of a page of a window. -/
def windowAddr (va : Word) (k : ℕ) : Word := va + BitVec.ofNat 32 (4096 * k)

/-- A call of `memcpy`. -/
structure Memcpy where
  dst : Word
  src : Word
  n : Word
  deriving DecidableEq

/-- The number of bytes that `memcpy` copies: its loops stop at `dst + n`, which may wrap. -/
def Memcpy.count (m : Memcpy) : ℕ := if m.dst.toNat + m.n.toNat < 2 ^ 32 then m.n.toNat else 0

namespace Client

variable {σ : Type} (svc : FileService σ)

/-- `memcpy`. -/
def memcpy (c : Client σ) (m : Memcpy) : Kernel (Client σ) :=
  (List.range m.count).foldlM (fun c j => do
    let (b, c) ← c.loadByte (m.src + BitVec.ofNat 32 j)
    c.storeByte (m.dst + BitVec.ofNat 32 j) b) c

/-! ## The table of descriptors -/

/-- The test of `fd_alloc`. -/
def fdFree (c : Client σ) (i : ℕ) : Bool :=
  let va := index2fd (BitVec.ofNat 32 i)
  !c.table (pdx va) || (c.map (vpn va)).isNone

/-- `fd_alloc`: `*fd`. -/
def fdAlloc (c : Client σ) : Option Word :=
  ((List.range (maxfd - 1)).find? c.fdFree).map fun i => index2fd (BitVec.ofNat 32 i)

/-- `fd_lookup`: `*fd`. The number is compared as an `int`. -/
def fdLookup (c : Client σ) (fdnum : Word) : Kernel (Option Word × Client σ) :=
  if fdnum.slt 32 then do
    let (pte, c) ← c.vpt (vpn (index2fd fdnum))
    pure (pte.map fun _ => index2fd fdnum, c)
  else pure (none, c)

/-! ## Requests -/

/-- `fsipc_open`. -/
def fsipcOpen (c : Client σ) (path : List Char8) (omode fd : Word) : Kernel (Word × Client σ) :=
  if path.length ≥ maxpathlen then pure (-eBadPath, c)
  else c.fsipcPage svc (.openFile path omode) fd

/-- `fsipc_openat`. -/
def fsipcOpenat (c : Client σ) (dirFileid : Word) (path : List Char8) (omode fd : Word) :
    Kernel (Word × Client σ) :=
  if path.length ≥ maxpathlen then pure (-eBadPath, c)
  else c.fsipcPage svc (.openat dirFileid path omode) fd

/-- `fsipc_map` for page `k` of a file. A page always comes with the permissions that the function
asserts. -/
def fsipcMap (fileid va : Word) (c : Client σ) (k : ℕ) : Kernel (Word × Client σ) :=
  c.fsipcPage svc (.map fileid (BitVec.ofNat 32 (4096 * k))) (windowAddr va k)

/-- `fsipc_set_size`. -/
def fsipcSetSize (c : Client σ) (fileid size : Word) : Kernel (Word × Client σ) :=
  c.fsipcValue svc (.setSize fileid size)

/-- `syscall_mem_unmap` of page `k` of a window. -/
def unmapPage (va : Word) (c : Client σ) (k : ℕ) : Kernel (Word × Client σ) :=
  pure (c.memUnmap (windowAddr va k))

/-! ## `file.c` -/

/-- The end of `openAP` and of `openat`: the pages of the file are mapped. -/
def mapFile (c : Client σ) (fd : Word) : Kernel (Word × Client σ) := do
  let (fileid, c) ← c.load (fdFileid fd)
  let (size, c) ← c.load (fdSize fd)
  let (r, c) ← c.eachPage (fsipcMap svc fileid (fd2data fd)) (pagesTo size)
  if r.slt 0 then pure (r, c) else pure (fd2num fd, c)

/-- `openAP`. -/
def openAP (c : Client σ) (path : List Char8) (mode : Word) : Kernel (Word × Client σ) :=
  match c.fdAlloc with
  | none => pure (-eMaxOpen, c)
  | some fd => do
    let (r, c) ← c.fsipcOpen svc path mode fd
    if r.slt 0 then pure (r, c) else c.mapFile svc fd

/-- `openat`. The result of `fsipc_openat` is not looked at, and neither is that of `fd_lookup`,
which leaves `dir` without a value if the directory is not open. -/
def openat (c : Client σ) (dirfd : Word) (path : List Char8) (mode : Word) :
    Kernel (Word × Client σ) := do
  match ← c.fdLookup dirfd with
  | (none, _) => throw (.panic "dir is not initialized")
  | (some dir, c) =>
    let (dirid, c) ← c.load (fdFileid dir)
    match c.fdAlloc with
    | none => pure (-eMaxOpen, c)
    | some fd =>
      let (_, c) ← c.fsipcOpenat svc dirid path mode fd
      c.mapFile svc fd

/-- `file_read`, up to its `memcpy`. -/
def fileRead (c : Client σ) (fd buf n offset : Word) :
    Kernel (Word × Option Memcpy × Client σ) := do
  let (size, c) ← c.load (fdSize fd)
  if offset > size then pure (0, none, c)
  else
    let n := if offset + n > size then size - offset else n
    pure (n, some ⟨buf, fd2data fd + offset, n⟩, c)

/-- `ftruncate` after the size in the descriptor has been set: the requests, and the pages. -/
def ftruncatePages (c : Client σ) (fd fileid oldsize size : Word) : Kernel (Word × Client σ) := do
  let (r, c) ← c.fsipcSetSize svc fileid size
  if r.slt 0 then pure (r, c)
  else
    let (r, c) ← c.eachPage (fsipcMap svc fileid (fd2data fd)) (pagesBetween oldsize size)
    if r.slt 0 then
      let (_, c) ← c.fsipcSetSize svc fileid oldsize
      pure (r, c)
    else
      let (r, c) ← c.eachPage (unmapPage (fd2data fd)) (pagesBetween size oldsize)
      if r.slt 0 then throw (.panic "ftruncate: syscall_mem_unmap") else pure (0, c)

/-- `ftruncate`. -/
def ftruncate (c : Client σ) (fdnum size : Word) : Kernel (Word × Client σ) :=
  if size > maxfilesize then pure (-eNoDisk, c)
  else do
    match ← c.fdLookup fdnum with
    | (none, c) => pure (-eInval, c)
    | (some fd, c) =>
      let (dev, c) ← c.load (fdDevId fd)
      if dev ≠ devfileId then pure (-eInval, c)
      else
        let (fileid, c) ← c.load (fdFileid fd)
        let (oldsize, c) ← c.load (fdSize fd)
        let c ← c.store (fdSize fd) size
        c.ftruncatePages svc fd fileid oldsize size

/-- `file_write`, up to its `memcpy`. -/
def fileWrite (c : Client σ) (fd buf n offset : Word) :
    Kernel (Word × Option Memcpy × Client σ) := do
  let tot := offset + n
  if tot > maxfilesize then pure (-eNoDisk, none, c)
  else
    let (size, c) ← c.load (fdSize fd)
    let (r, c) ← if tot > size then c.ftruncate svc (fd2num fd) tot else pure (0, c)
    if r.slt 0 then pure (r, none, c)
    else pure (n, some ⟨fd2data fd + offset, buf, n⟩, c)

/-- `file_close`. The loop over the pages does not end if `i` wraps before it reaches the size. -/
def fileClose (c : Client σ) (fd : Word) : Kernel (Word × Client σ) := do
  let (fileid, c) ← c.load (fdFileid fd)
  let (size, c) ← c.load (fdSize fd)
  if size > 0xfffff000 then throw (.panic "file_close does not return")
  else
    let c ← (pagesTo size).foldlM (fun c k => do
      let (_, c) ← c.fsipcValue svc (.dirty fileid (BitVec.ofNat 32 (4096 * k)))
      pure c) c
    let (r, c) ← c.fsipcValue svc (.close fileid)
    if r.slt 0 then pure (r, c)
    else c.eachPage (unmapPage (fd2data fd)) (pagesTo size)

/-! ## `close` and `dup` -/

/-- `pipe_close`. -/
def pipeClose (c : Client σ) (fd : Word) : Word × Client σ :=
  (0, (c.unmap fd).unmap (fd2data fd))

/-- `dev_close` of a device. -/
def devClose (c : Client σ) (dev : Dev) (fd : Word) : Kernel (Word × Client σ) :=
  match dev with
  | .file => c.fileClose svc fd
  | .cons => pure (0, c)
  | .pipe => pure (c.pipeClose fd)

/-- `close`, with `fd_close`. -/
def close (c : Client σ) (fdnum : Word) : Kernel (Word × Client σ) := do
  match ← c.fdLookup fdnum with
  | (none, c) => pure (-eInval, c)
  | (some fd, c) =>
    let (devId, c) ← c.load (fdDevId fd)
    match devLookup devId with
    | none => pure (-eInval, c)
    | some dev =>
      let (r, c) ← c.devClose svc dev fd
      pure (r, c.unmap fd)

/-- The pages of a window. -/
def windowPages : List ℕ := List.range 1024

/-- One round of the loop of `dup`. -/
def dupPage (ova nva : Word) (c : Client σ) (k : ℕ) : Kernel (Word × Client σ) := do
  let (pte, c) ← c.vpt (vpn (windowAddr ova k))
  match pte with
  | none => pure (0, c)
  | some p => pure (c.memMap (windowAddr ova k) (windowAddr nva k) (p.perm &&& (pteD ||| pteLibrary)))

/-- The loop of `dup`. -/
def dupLoop (c : Client σ) (ova nva : Word) : Kernel (Word × Client σ) :=
  if c.table (pdx ova) then c.eachPage (dupPage ova nva) windowPages else pure (0, c)

/-- `dup` maps the page of the descriptor. -/
def dupFd (c : Client σ) (oldfd newfd : Word) : Kernel (Word × Client σ) := do
  let (pte, c) ← c.vpt (vpn oldfd)
  pure (c.memMap oldfd newfd ((pte.elim 0 UserPage.perm) &&& (pteD ||| pteLibrary)))

/-- The part of `dup` after `err`. -/
def dupErr (c : Client σ) (newfd nva : Word) : Client σ :=
  windowPages.foldl (fun c k => c.unmap (windowAddr nva k)) (c.unmap newfd)

/-- `dup`. -/
def dup (c : Client σ) (oldfdnum newfdnum : Word) : Kernel (Word × Client σ) := do
  match ← c.fdLookup oldfdnum with
  | (none, c) => pure (-eInval, c)
  | (some oldfd, c) =>
    let (_, c) ← c.close svc newfdnum
    let newfd := index2fd newfdnum
    let ova := fd2data oldfd
    let nva := fd2data newfd
    let (r, c) ← c.dupLoop ova nva
    if r.slt 0 then pure (r, c.dupErr newfd nva)
    else
      let (r, c) ← c.dupFd oldfd newfd
      if r.slt 0 then pure (r, c.dupErr newfd nva) else pure (newfdnum, c)

end Client

end MosVolca
