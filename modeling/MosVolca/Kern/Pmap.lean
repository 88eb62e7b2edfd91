import MosVolca.Include.Error
import MosVolca.Include.Mmu

/-!
# Physical pages and page tables

The functions of `kern/pmap.c` and the TLB operation they use (`tlb_out` of `kern/tlb_asm.S`),
over an explicit state. A page is named by its page number, so a kernel virtual address
`page2kva(pp)` is the page `pp` of the memory, and a `Pte *` is a page and a word in it.

## Main definitions

* `MosVolca.Machine` — the boot-time constants.
* `MosVolca.PhysMem` — memory contents, `pp_ref`, `page_free_list` and the TLB.
* `MosVolca.pageInit`, `MosVolca.pageAlloc`, `MosVolca.pageFree`, `MosVolca.pageDecref`,
  `MosVolca.pgdirWalk`, `MosVolca.pageInsert`, `MosVolca.pageLookup`, `MosVolca.pageRemove`,
  `MosVolca.va2pa` — the functions of `pmap.c` and `pmap.h`.
-/

namespace MosVolca

/-- The boot-time constants: the size of the memory, the first kernel address that `alloc` did not
hand out, and the physical addresses of the arrays `pages` and `envs`. -/
structure Machine where
  memsize : Word
  freemem : Word
  pages : Word
  envs : Word

/-- `npage = memsize / BY2PG`. -/
def Machine.npage (M : Machine) : ℕ := (M.memsize / 4096#32).toNat

/-- Page numbers have 20 bits. -/
lemma Machine.npage_lt (M : Machine) : M.npage < 2 ^ 20 := by
  have h : (4096#32).toNat = 4096 := rfl
  rw [npage, BitVec.toNat_udiv, h]
  have := M.memsize.isLt
  omega

/-- The state `pmap.c` works on. -/
structure PhysMem where
  /-- The words of each physical page. -/
  mem : TwoLevel.Store Word
  /-- `pages[i].pp_ref`, a `u_short`. -/
  ppRef : ℕ → BitVec 16
  pageFreeList : List ℕ
  /-- The TLB entry of an address space identifier and a virtual page number. -/
  tlb : ℕ → ℕ → Option Word

/-- A `Pte *`: a word of a page. -/
structure PtePtr where
  page : ℕ
  slot : ℕ
  deriving DecidableEq

namespace PhysMem

/-- `*pte = w`. -/
def setWord (s : PhysMem) (p i : ℕ) (w : Word) : PhysMem :=
  { s with mem := TwoLevel.write s.mem p i w }

/-- `memset(page2kva(p), 0, BY2PG)`. -/
def zeroPage (s : PhysMem) (p : ℕ) : PhysMem := { s with mem := TwoLevel.fill s.mem p 0#32 }

/-- `pp->pp_ref++`. -/
def incRef (s : PhysMem) (pp : ℕ) : PhysMem :=
  { s with ppRef := Function.update s.ppRef pp (s.ppRef pp + 1) }

end PhysMem

variable (M : Machine)

/-- `KADDR(pa)`, as the page of the address. -/
def kaddr (pa : Word) : Kernel ℕ :=
  if ppn pa ≥ M.npage then throw (.panic "KADDR called with invalid pa") else pure (ppn pa)

/-- `pa2page(pa)`. -/
def pa2page (pa : Word) : Kernel ℕ :=
  if ppn pa ≥ M.npage then throw (.panic "pa2page called with invalid pa") else pure (ppn pa)

/-- `ROUND(a, n)`. -/
def roundUp (a n : Word) : Word := (a + n - 1) &&& ~~~(n - 1)

/-- The number of pages below `freemem` in `page_init`. -/
def Machine.bootPages : ℕ := ((roundUp M.freemem 4096 - ulim) / 4096#32).toNat

/-- One round of the second loop of `page_init`. -/
def pageInitFree (s : PhysMem) (i : ℕ) : PhysMem :=
  { s with ppRef := Function.update s.ppRef i 0, pageFreeList := i :: s.pageFreeList }

/-- `page_init`, on a memory with any contents and an empty TLB. `pages` was cleared by
`mips_vm_init`. -/
def pageInit (mem : TwoLevel.Store Word) : Kernel PhysMem :=
  if roundUp M.freemem 4096 < ulim then throw (.panic "PADDR called with invalid kva")
  else
    let used : PhysMem :=
      { mem := mem, ppRef := fun i => if i < M.bootPages then 1 else 0, pageFreeList := [],
        tlb := fun _ _ => none }
    pure ((List.range' M.bootPages (M.npage - M.bootPages)).foldl pageInitFree used)

/-- `page_alloc`: the new page, or `-E_NO_MEM`. -/
def pageAlloc (s : PhysMem) : Kernel (Except Word ℕ × PhysMem) :=
  match s.pageFreeList with
  | [] => pure (.error (-eNoMem), s)
  | pp :: rest => do
    let kva ← kaddr M (page2pa pp)
    pure (.ok pp, { s with pageFreeList := rest }.zeroPage kva)

/-- `page_free`. -/
def pageFree (s : PhysMem) (pp : ℕ) : Kernel PhysMem :=
  if s.ppRef pp = 0 then pure { s with pageFreeList := pp :: s.pageFreeList }
  else throw (.panic "assertion failed: pp->pp_ref == 0")

/-- `page_decref`. -/
def pageDecref (s : PhysMem) (pp : ℕ) : Kernel PhysMem :=
  if s.ppRef pp = 0 then throw (.panic "assertion failed: pp->pp_ref > 0")
  else
    let s' := { s with ppRef := Function.update s.ppRef pp (s.ppRef pp - 1) }
    if s'.ppRef pp = 0 then pageFree s' pp else pure s'

/-- `tlb_out`: drop the entry that matches the page and the ASID of `entryhi` (a global entry
matches every ASID). -/
def tlbOut (s : PhysMem) (entryhi : Word) : PhysMem :=
  { s with
    tlb := fun a v =>
      match s.tlb a v with
      | some w =>
        if v = vpn entryhi ∧ (a = ((entryhi >>> 6) &&& 0x3f#32).toNat ∨ w &&& pteG ≠ 0)
        then none else some w
      | none => none }

/-- `tlb_invalidate`. -/
def tlbInvalidate (s : PhysMem) (asid va : Word) : PhysMem := tlbOut s (pteAddr va ||| (asid <<< 6))

/-- `pgdir_walk`: the return code and `*ppte`. -/
def pgdirWalk (s : PhysMem) (pgdir : ℕ) (va : Word) (create : Bool) :
    Kernel (Word × Option PtePtr × PhysMem) :=
  let pde := s.mem pgdir (pdx va)
  if pteValid pde then do
    let table ← kaddr M (pteAddr pde)
    pure (0, some ⟨table, ptx va⟩, s)
  else if create then do
    match ← pageAlloc M s with
    | (.error r, s) => pure (r, none, s)
    | (.ok pp, s) =>
      let s := s.setWord pgdir (pdx va) (mkPde pp)
      let s := s.incRef pp
      let table ← kaddr M (pteAddr (s.mem pgdir (pdx va)))
      pure (0, some ⟨table, ptx va⟩, s)
  else pure (0, none, s)

/-- `page_lookup`: the page mapped at `va` and `*ppte`. -/
def pageLookup (s : PhysMem) (pgdir : ℕ) (va : Word) : Kernel (Option (ℕ × PtePtr)) := do
  match ← pgdirWalk M s pgdir va false with
  | (_, none, _) => pure none
  | (_, some pte, _) =>
    if pteValid (s.mem pte.page pte.slot) then do
      let pp ← pa2page M (s.mem pte.page pte.slot)
      pure (some (pp, pte))
    else pure none

/-- `page_remove`. -/
def pageRemove (s : PhysMem) (pgdir : ℕ) (asid va : Word) : Kernel PhysMem := do
  match ← pageLookup M s pgdir va with
  | none => pure s
  | some (pp, pte) =>
    let s ← pageDecref s pp
    pure (tlbInvalidate (s.setWord pte.page pte.slot 0#32) asid va)

/-- Steps 2 to 4 of `page_insert`: flush, get or create the entry, install the page. -/
def pageInstall (s : PhysMem) (pgdir : ℕ) (asid : Word) (pp : ℕ) (va perm : Word) :
    Kernel (Word × PhysMem) := do
  match ← pgdirWalk M (tlbInvalidate s asid va) pgdir va true with
  | (r, some pte, s) =>
    if r ≠ 0 then pure (r, s)
    else pure (0, (s.setWord pte.page pte.slot (mkPte pp perm)).incRef pp)
  | (r, none, s) => pure (r, s)

/-- `page_insert`. -/
def pageInsert (s : PhysMem) (pgdir : ℕ) (asid : Word) (pp : ℕ) (va perm : Word) :
    Kernel (Word × PhysMem) := do
  match ← pgdirWalk M s pgdir va false with
  | (_, none, _) => pageInstall M s pgdir asid pp va perm
  | (_, some pte, _) =>
    if pteValid (s.mem pte.page pte.slot) then do
      let old ← pa2page M (s.mem pte.page pte.slot)
      if old ≠ pp then do
        let s ← pageRemove M s pgdir asid va
        pageInstall M s pgdir asid pp va perm
      else
        pure (0, (tlbInvalidate s asid va).setWord pte.page pte.slot (mkPte pp perm))
    else pageInstall M s pgdir asid pp va perm

/-- `va2pa`. -/
def va2pa (s : PhysMem) (pgdir : ℕ) (va : Word) : Kernel Word :=
  let pde := s.mem pgdir (pdx va)
  if pteValid pde then do
    let table ← kaddr M (pteAddr pde)
    if pteValid (s.mem table (ptx va)) then pure (pteAddr (s.mem table (ptx va)))
    else pure (BitVec.allOnes 32)
  else pure (BitVec.allOnes 32)

end MosVolca
