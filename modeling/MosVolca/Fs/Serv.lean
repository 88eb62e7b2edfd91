import MosVolca.Fs.File

/-!
# The requests of the file server

`fs/serv.c`: the table of open files and the functions that serve the requests. What the server
sends back is logged. The page of a `struct Filefd` is shared with the clients, and `pageref` of
it is changed by what they do.

## Main definitions

* `MosVolca.FileServer` — the state of the server.
* `MosVolca.FsRequest` — a request with its arguments.
* `MosVolca.serveOpen`, `MosVolca.serveMap`, `MosVolca.serveRemove` and the other functions.
* `MosVolca.serveRequest` — one round of the loop of `serve`.
* `MosVolca.FsEvent`, `MosVolca.fsRun` — the events and the runs of the server.
-/

namespace MosVolca

/-- `struct Filefd`. -/
structure Filefd where
  devId : Word
  offset : Word
  omode : Word
  fileid : Word
  /-- The words of `f_file`. -/
  file : ℕ → Word

/-- `struct Open`. -/
structure Open where
  file : Option FilePtr
  fileid : Word
  mode : Word
  ff : Filefd
  /-- `pageref(o_ff)`. -/
  pageref : ℕ

/-- What `ipc_send` sends to an environment: a value and the page of a block or of an `o_ff`. -/
inductive Reply
  | value (whom r : Word)
  | block (whom : Word) (blk : ℕ)
  | filefd (whom : Word) (i : ℕ)

/-- The state of the server. -/
structure FileServer where
  cache : BlockCache
  opentab : ℕ → Open
  replies : List Reply

/-- `MAXOPEN`. -/
def maxopen : ℕ := 1024

/-- `O_CREAT`. -/
def oCreat : Word := 0x0100
/-- `O_MKDIR`. -/
def oMkdir : Word := 0x0800

/-- `devfile.dev_id`. -/
def devfileId : Word := 0x66

/-- A page of zeros as a `struct Filefd`. -/
def Filefd.zero : Filefd := ⟨0, 0, 0, 0, fun _ => 0⟩

/-- The state after `serve_init`: `opentab` has an `o_mode` of 1 in its first entry. -/
def serveInit (cache : BlockCache) : FileServer where
  cache := cache
  opentab := fun i => ⟨none, BitVec.ofNat 32 i, if i = 0 then 1 else 0, Filefd.zero, 0⟩
  replies := []

namespace FileServer

/-- An entry of `opentab` is replaced. -/
def setOpen (s : FileServer) (i : ℕ) (o : Open) : FileServer :=
  { s with opentab := Function.update s.opentab i o }

/-- `ipc_send`. -/
def ipcSend (s : FileServer) (reply : Reply) : FileServer :=
  { s with replies := s.replies ++ [reply] }

end FileServer

lemma setOpen_self (s : FileServer) (i : ℕ) (o : Open) : (s.setOpen i o).opentab i = o := by
  simp [FileServer.setOpen]

lemma setOpen_of_ne {s : FileServer} {i j : ℕ} {o : Open} (h : j ≠ i) :
    (s.setOpen i o).opentab j = s.opentab j := by
  simp [FileServer.setOpen, h]

/-- The entry that the loop of `open_alloc` stops at. -/
def findOpen (s : FileServer) : Option ℕ :=
  (List.range' 0 maxopen).find? fun i => decide ((s.opentab i).pageref ≤ 1)

/-- `open_alloc`: the result and `*o`, if it is set. -/
def openAlloc (s : FileServer) : Word × Option ℕ × FileServer :=
  match findOpen s with
  | none => (-eMaxOpen, none, s)
  | some i =>
    let o := s.opentab i
    let rest := { s.cache with grants := fun n => s.cache.grants (n + 1) }
    let taken : Open := { o with fileid := o.fileid + 1024, ff := Filefd.zero, pageref := 1 }
    if o.pageref = 1 then (o.fileid + 1024, some i, s.setOpen i taken)
    else if s.cache.grants 0 then
      (o.fileid + 1024, some i, { s with cache := rest }.setOpen i taken)
    else (-eNoMem, none, { s with cache := rest })

/-- `open_lookup`: `*po`. -/
def openLookup (s : FileServer) (fileid : Word) : Option ℕ :=
  let i := fileid.toNat % maxopen
  if (s.opentab i).pageref = 1 ∨ (s.opentab i).fileid ≠ fileid then none else some i

/-- The rest of `serve_open` and of `serve_openat`: the entry is filled and sent. The entry is
missing if `open_alloc` has failed, and then `o` is not initialized. -/
def finishOpen (s : FileServer) (envid omode : Word) (o : Option ℕ) (file : Option FilePtr) :
    Kernel FileServer := do
  match o with
  | none => throw (.panic "o is not initialized")
  | some i =>
    let f ← derefFile file
    let o := s.opentab i
    let ff : Filefd :=
      { o.ff with
        file := fun k => if k < 64 then s.cache.mem f.block (f.word + k) else 0
        fileid := o.fileid, omode := omode, devId := devfileId }
    pure ((s.setOpen i { o with file := some f, mode := omode, ff := ff }).ipcSend (.filefd envid i))

/-- The result of `open_alloc` is sent if it is an error; the function goes on all the same. -/
def sendError (s : FileServer) (envid r : Word) : FileServer :=
  if r.slt 0 then s.ipcSend (.value envid r) else s

/-- The part of `serve_open` that is run if the file could not be opened: `r` and `f`. -/
def openMissing (c : BlockCache) (depth : ℕ) (path : List Char8) (omode r : Word)
    (f : Option FilePtr) : Kernel (Word × Option FilePtr × BlockCache) := do
  if omode &&& oCreat ≠ 0 then
    let (r, f', c) ← fileCreate c depth path
    pure (r, f'.or f, c)
  else if omode &&& oMkdir ≠ 0 then
    let (r, f', c) ← fileCreate c depth path
    let file ← derefFile (f'.or f)
    pure (r, some file, c.store file.type ftypeDir)
  else pure (r, f, c)

/-- `serve_open`. -/
def serveOpen (s : FileServer) (depth : ℕ) (envid : Word) (path : List Char8) (omode : Word) :
    Kernel FileServer := do
  let (r, o, s) := openAlloc s
  let s := sendError s envid r
  let (r, f, c) ← fileOpen s.cache depth path
  let (r, f, c) ← if r.slt 0 then openMissing c depth path omode r f else pure (r, f, c)
  let s := { s with cache := c }
  if r.slt 0 then pure (s.ipcSend (.value envid r)) else finishOpen s envid omode o f

/-- `serve_openat`. -/
def serveOpenat (s : FileServer) (envid dirFileid : Word) (path : List Char8) (omode : Word) :
    Kernel FileServer := do
  let (r, o, s) := openAlloc s
  let s := sendError s envid r
  match openLookup s dirFileid with
  | none => pure (s.ipcSend (.value envid (-eInval)))
  | some i =>
    let dir ← derefFile (s.opentab i).file
    let (r, f, c) ← fileOpenat s.cache dir path
    let s := { s with cache := c }
    if r.slt 0 then pure (s.ipcSend (.value envid r)) else finishOpen s envid omode o f

/-- A request on an open file: `open_lookup`, and the work on its file. -/
def serveFile (s : FileServer) (envid fileid : Word)
    (work : FileServer → FilePtr → Kernel FileServer) : Kernel FileServer :=
  match openLookup s fileid with
  | none => pure (s.ipcSend (.value envid (-eInval)))
  | some i => do
    let f ← derefFile (s.opentab i).file
    work s f

/-- A request on a block of an open file. A number that `file_block_walk` refuses is refused before
the file is looked at, with the same error as the identifier. -/
def serveBlock (s : FileServer) (envid fileid : Word) (filebno : ℕ)
    (work : FileServer → FilePtr → Kernel FileServer) : Kernel FileServer :=
  if filebno ≥ nindirect then pure (s.ipcSend (.value envid (-eInval)))
  else serveFile s envid fileid work

/-- `serve_map`. -/
def serveMap (s : FileServer) (envid fileid offset : Word) : Kernel FileServer :=
  serveBlock s envid fileid (offset.toNat / 4096) fun s f => do
    match ← fileGetBlock s.cache f (offset.toNat / 4096) with
    | (.error r, c) => pure ({ s with cache := c }.ipcSend (.value envid r))
    | (.ok blk, c) => pure ({ s with cache := c }.ipcSend (.block envid blk))

/-- `serve_set_size`. -/
def serveSetSize (s : FileServer) (envid fileid size : Word) : Kernel FileServer :=
  serveFile s envid fileid fun s f => do
    let (r, c) ← fileSetSize s.cache f size
    pure ({ s with cache := c }.ipcSend (.value envid r))

/-- `serve_close`. -/
def serveClose (s : FileServer) (envid fileid : Word) : Kernel FileServer :=
  serveFile s envid fileid fun s f => do
    let c ← fileClose s.cache f
    pure ({ s with cache := c }.ipcSend (.value envid 0))

/-- `serve_dirty`. -/
def serveDirty (s : FileServer) (envid fileid offset : Word) : Kernel FileServer :=
  serveBlock s envid fileid (offset.toNat / 4096) fun s f => do
    let (r, c) ← fileDirty s.cache f offset
    pure ({ s with cache := c }.ipcSend (.value envid r))

/-- `serve_remove`. -/
def serveRemove (s : FileServer) (depth : ℕ) (envid : Word) (path : List Char8) :
    Kernel FileServer := do
  let (r, c) ← fileRemove s.cache depth path
  pure ({ s with cache := c }.ipcSend (.value envid r))

/-- `serve_sync`. -/
def serveSync (s : FileServer) (envid : Word) : Kernel FileServer := do
  let c ← fsSync s.cache
  pure ({ s with cache := c }.ipcSend (.value envid 0))

/-- A request with its argument page, in the order of `user/include/fsreq.h`. A path is the string
at `req_path`. -/
inductive FsRequest
  | openFile (path : List Char8) (omode : Word)
  | map (fileid offset : Word)
  | setSize (fileid size : Word)
  | close (fileid : Word)
  | dirty (fileid offset : Word)
  | remove (path : List Char8)
  | sync
  | openat (dirFileid : Word) (path : List Char8) (omode : Word)

/-- One round of `serve` for a request of `envid`. -/
def serveRequest (s : FileServer) (depth : ℕ) (envid : Word) : FsRequest → Kernel FileServer
  | .openFile path omode => serveOpen s depth envid path omode
  | .map fileid offset => serveMap s envid fileid offset
  | .setSize fileid size => serveSetSize s envid fileid size
  | .close fileid => serveClose s envid fileid
  | .dirty fileid offset => serveDirty s envid fileid offset
  | .remove path => serveRemove s depth envid path
  | .sync => serveSync s envid
  | .openat dirFileid path omode => serveOpenat s envid dirFileid path omode

/-! ## Runs -/

/-- What happens to the server. -/
inductive FsEvent
  /-- A request of an environment. -/
  | request (envid : Word) (req : FsRequest)
  /-- The clients map or unmap the page of an open file. -/
  | share (i n : ℕ)
  /-- A client stores to the page of a block. -/
  | store (b i : ℕ) (w : Word)
  /-- The answers of the kernel to the allocations to come. -/
  | memory (grants : ℕ → Bool)

/-- One event. -/
def fsStep (depth : ℕ) (s : FileServer) : FsEvent → Kernel FileServer
  | .request envid req => serveRequest s depth envid req
  | .share i n => pure (s.setOpen i { s.opentab i with pageref := n })
  | .store b i w =>
    if s.cache.mapped b then pure { s with cache := s.cache.store ⟨b, i⟩ w }
    else throw (.panic "the page is not shared")
  | .memory grants => pure { s with cache := { s.cache with grants := grants } }

/-- A run of the server. -/
def fsRun (depth : ℕ) (s : FileServer) (events : List FsEvent) : Kernel FileServer :=
  events.foldlM (fsStep depth) s

/-- Every event of a run has the property, in the state in which it happens. -/
def RunAll (P : FileServer → FsEvent → Prop) (depth : ℕ) (s : FileServer) : List FsEvent → Prop
  | [] => True
  | e :: es => P s e ∧ ∀ s1, fsStep depth s e = .ok s1 → RunAll P depth s1 es

end MosVolca
