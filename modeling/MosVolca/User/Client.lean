import MosVolca.Fs.Serv
import MosVolca.Kern.Syscall
import MosVolca.Kern.Tlbex
import MosVolca.Library.PageBytes

/-!
# A program that uses the file server

What a program sees of its own memory: the pages that are mapped, what they hold, and the file
server, which maps pages in its replies. The system calls on the own address space and `fsipc` are
the steps. The server is any service that answers requests; a page of a reply comes with what it
holds when it is sent, and the server writes to no other page of the program.

## Main definitions

* `MosVolca.FileService` — what answers the requests.
* `MosVolca.Client` — the memory of the program, and the server.
* `MosVolca.Client.memMap`, `MosVolca.Client.memUnmap` — the system calls.
* `MosVolca.Client.touch`, `MosVolca.Client.load`, `MosVolca.Client.store` — accesses to the memory.
* `MosVolca.Client.fsipcPage`, `MosVolca.Client.fsipcValue` — `fsipc`, with and without a page in
  the reply.
-/

namespace MosVolca

/-- An answer that is an error. -/
structure Refusal where
  code : Word
  neg : code.slt 0 = true

/-- The page of a reply, with what it holds. -/
structure FsPage where
  page : ℕ
  words : ℕ → Word

/-- What answers the requests of a program: those whose reply has a page if it is not an error, and
the others. -/
structure FileService (σ : Type) where
  page : σ → FsRequest → Kernel (Except Refusal FsPage × σ)
  value : σ → FsRequest → Kernel (Word × σ)

/-- A page of the program, and the low bits of its entry in `vpt`. -/
structure UserPage where
  page : ℕ
  perm : Word
  deriving DecidableEq

/-- The page of a reply as it is mapped. -/
def replyPage (g : FsPage) : UserPage := ⟨g.page, pteD ||| pteLibrary ||| pteV⟩

/-- The state of a program. A page that is mapped is in a page table. -/
structure Client (σ : Type) where
  /-- `vpt`. -/
  map : ℕ → Option UserPage
  /-- `PTE_V` of `vpd`. -/
  table : ℕ → Bool
  /-- The words of every page. -/
  mem : TwoLevel.Store Word
  /-- The pages that the kernel has for the allocations to come. -/
  grants : ℕ → Option ℕ
  /-- The file server, as long as it lives. -/
  server : Option σ
  tables : ∀ n, map n ≠ none → table (n / 1024) = true

namespace Client

variable {σ : Type} {c c' : Client σ} {n k : ℕ} {p : UserPage} {va w r : Word}

/-- The kernel has answered an allocation. -/
def next (c : Client σ) : Client σ := { c with grants := fun k => c.grants (k + 1) }

/-- The page table of page `n` is made. -/
def addTable (c : Client σ) (n : ℕ) : Client σ :=
  { c with
    table := Function.update c.table (n / 1024) true
    tables := fun k hk => by
      by_cases he : k / 1024 = n / 1024
      · rw [he, Function.update_self]
      · rw [Function.update_of_ne he, c.tables k hk] }

/-- Page `n` is mapped, and its page table is there. -/
def setPage (c : Client σ) (n : ℕ) (p : UserPage) : Client σ :=
  { c.addTable n with
    map := Function.update c.map n (some p)
    tables := fun k hk => by
      by_cases he : k = n
      · rw [he]
        exact Function.update_self ..
      · rw [Function.update_of_ne he] at hk
        exact (c.addTable n).tables k hk }

/-- Page `n` is unmapped. -/
def erasePage (c : Client σ) (n : ℕ) : Client σ :=
  { c with
    map := Function.update c.map n none
    tables := fun k hk => by
      by_cases he : k = n
      · rw [he, Function.update_self] at hk
        exact absurd rfl hk
      · rw [Function.update_of_ne he] at hk
        exact c.tables k hk }

/-- What the pages hold is replaced. -/
def setMem (c : Client σ) (m : TwoLevel.Store Word) : Client σ := { c with mem := m }

/-- The server has come to another state, or it is gone. -/
def setServer (c : Client σ) (s : Option σ) : Client σ := { c with server := s }

/-- The server has sent a page. -/
def received (c : Client σ) (g : FsPage) (s : σ) : Client σ :=
  (c.setServer (some s)).setMem (Function.update c.mem g.page g.words)

/-! ## System calls -/

/-- `page_insert` into the own address space. -/
def pageInsert (c : Client σ) (n : ℕ) (p : UserPage) : Word × Client σ :=
  if c.table (n / 1024) then (0, c.setPage n p)
  else
    match c.grants 0 with
    | none => (-eNoMem, c.next)
    | some _ => (0, c.next.setPage n p)

/-- `syscall_mem_map` from the own address space to it. -/
def memMap (c : Client σ) (srcva dstva perm : Word) : Word × Client σ :=
  if isIllegalVa srcva || isIllegalVa dstva then (-eInval, c)
  else
    match c.map (vpn srcva) with
    | none => (-eInval, c)
    | some p => c.pageInsert (vpn dstva) ⟨p.page, perm ||| pteV⟩

/-- `syscall_mem_unmap`. -/
def memUnmap (c : Client σ) (va : Word) : Word × Client σ :=
  if isIllegalVa va then (-eInval, c) else (0, c.erasePage (vpn va))

/-- `syscall_mem_unmap`, where its result is not looked at. -/
def unmap (c : Client σ) (va : Word) : Client σ := (c.memUnmap va).2

/-! ## Accesses to the memory -/

/-- An access to an address. A page that is not mapped is allocated by `passive_alloc`; an access to
the page tables themselves is not followed. -/
def touch (c : Client σ) (va : Word) : Kernel (UserPage × Client σ) :=
  match c.map (vpn va) with
  | some p => pure (p, c)
  | none =>
    if Excluded va ∨ va ≥ uvpt then throw (.panic "passive_alloc")
    else
      match c.grants 0 with
      | none => throw (.panic "passive_alloc")
      | some q =>
        let p : UserPage := ⟨q, pteD ||| pteV⟩
        let (r, c) := (c.next.setMem (TwoLevel.fill c.mem q 0)).pageInsert (vpn va) p
        if r = 0 then pure (p, c) else throw (.panic "passive_alloc")

/-- `vpt[n]`, which is read through a page table that `passive_alloc` makes if it is missing. -/
def vpt (c : Client σ) (n : ℕ) : Kernel (Option UserPage × Client σ) :=
  if c.table (n / 1024) then pure (c.map n, c)
  else
    match c.grants 0 with
    | none => throw (.panic "passive_alloc")
    | some _ => pure (none, c.next.addTable n)

/-- The word at an address. -/
def load (c : Client σ) (va : Word) : Kernel (Word × Client σ) := do
  let (p, c) ← c.touch va
  pure (c.mem p.page (va.toNat % 4096 / 4), c)

/-- A store to a page that is not writable. None of the pages that the library stores to is
copy-on-write. -/
def checkWritable (p : UserPage) : Kernel Unit :=
  if p.perm &&& pteD = 0 then throw (.panic "TLB Mod") else pure ()

/-- A word is stored. -/
def store (c : Client σ) (va w : Word) : Kernel (Client σ) := do
  let (p, c) ← c.touch va
  checkWritable p
  pure (c.setMem (TwoLevel.write c.mem p.page (va.toNat % 4096 / 4) w))

/-- The byte at an address. -/
def loadByte (c : Client σ) (va : Word) : Kernel (BitVec 8 × Client σ) := do
  let (p, c) ← c.touch va
  pure (PageBytes.get c.mem (p.page, va.toNat % 4096), c)

/-- A byte is stored. -/
def storeByte (c : Client σ) (va : Word) (b : BitVec 8) : Kernel (Client σ) := do
  let (p, c) ← c.touch va
  checkWritable p
  pure (c.setMem (PageBytes.set c.mem (p.page, va.toNat % 4096) b))

/-! ## `fsipc` -/

/-- `fsipc` for a request whose reply has a page, which is received at `dstva`. If the kernel cannot
map it, the program still gets the value 0, and the server stops in `ipc_send`. -/
def fsipcPage (svc : FileService σ) (c : Client σ) (req : FsRequest) (dstva : Word) :
    Kernel (Word × Client σ) :=
  match c.server with
  | none => throw (.panic "ipc_send")
  | some s =>
    if dstva ≠ 0 ∧ isIllegalVa dstva then throw (.panic "syscall_ipc_recv err")
    else do
      match ← svc.page s req with
      | (.error r, s) => pure (r.code, c.setServer (some s))
      | (.ok g, s) =>
        let (r, c) := (c.received g s).pageInsert (vpn dstva) (replyPage g)
        pure (0, if r = 0 then c else c.setServer none)

/-- `fsipc` for a request whose reply is a value. -/
def fsipcValue (svc : FileService σ) (c : Client σ) (req : FsRequest) : Kernel (Word × Client σ) :=
  match c.server with
  | none => throw (.panic "ipc_send")
  | some s => do
    let (r, s) ← svc.value s req
    pure (r, c.setServer (some s))

/-! ## Loops -/

/-- The loop that calls a function for one page after the other and stops at the first error. -/
def eachPage (f : Client σ → ℕ → Kernel (Word × Client σ)) :
    List ℕ → Client σ → Kernel (Word × Client σ)
  | [], c => pure (0, c)
  | k :: ks, c => do
    let (r, c) ← f c k
    if r.slt 0 then pure (r, c) else eachPage f ks c

end Client

end MosVolca
