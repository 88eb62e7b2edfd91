import MosVolca.Kern.UserCopy
import MosVolca.User.ForkTotal

/-!
# Stores of parent and child

What a store of a user program does: the refill handler finds or allocates the page; a page with
`PTE_D` is written; on another one the processor raises a TLB Mod exception, `cow_entry` runs and
the store is tried again. The two programs of a `fork` store in any order. The frame that
`do_tlb_mod` pushes on the exception stack is not modelled.

## Main definitions

* `MosVolca.readByte` — the byte that a page directory gives at an address.
* `MosVolca.userStore`, `MosVolca.storeRun` — one store, and a sequence of stores.
* `MosVolca.ReadSame`, `MosVolca.SharedSame`, `MosVolca.Unaffected` — what may be seen of a store.
* `MosVolca.Isolated` — what holds along every sequence of stores.
-/

namespace MosVolca

/-! ## Bytes -/

/-- The byte at `va` through the page directory `d`, if the page is mapped. -/
def readByte (s : PhysMem) (d : ℕ) (va : Word) : Option (BitVec 8) :=
  (translate s d va).map fun w => wordByte (s.mem (ppn w) (va.toNat / 4 % 1024)) (va.toNat % 4)

/-- A word with the byte `i` replaced. -/
def putByte (w : Word) (i : ℕ) (b : BitVec 8) : Word :=
  (w &&& ~~~(0xff#32 <<< (8 * i))) ||| (b.setWidth 32 <<< (8 * i))

/-- The byte `b` is stored at the offset of `va` in the page `p`. -/
def PhysMem.storeByte (s : PhysMem) (p : ℕ) (va : Word) (b : BitVec 8) : PhysMem :=
  s.setWord p (va.toNat / 4 % 1024)
    (putByte (s.mem p (va.toNat / 4 % 1024)) (va.toNat % 4) b)

/-! ## Stores -/

/-- The program of the environment `e` runs. -/
def Kern.running (k : Kern) (e : EnvPtr) : Proc :=
  ⟨{ k with curenv := some e, curPgdir := (k.envs e).pgdir }, []⟩

/-- What comes of trying to store. -/
inductive StoreRound where
  /-- The byte is stored. -/
  | done (k : Kern)
  /-- `cow_entry` has run; the store is tried again. -/
  | again (P : Proc)
  /-- `cow_entry` has called `user_panic`. -/
  | panicked

variable (M : Machine)

/-- The current program tries to store a byte. -/
def storeRound (P : Proc) (va : Word) (b : BitVec 8) : Kernel StoreRound := do
  let cur ← deref P.kern.curenv
  match ← doTlbRefill M 2 P.kern.pm P.kern.curPgdir va (P.kern.envs cur).asid with
  | none => throw (.panic "the refill handler does not return")
  | some (w, pm) =>
    let P := { P with kern := { P.kern with pm := pm } }
    if w &&& pteD ≠ 0 then
      pure (.done { P.kern with pm := pm.storeByte (ppn w) va b })
    else do
      match ← cowEntry M P va with
      | none => pure .panicked
      | some P => pure (.again P)

/-- A store of a byte by an environment. -/
structure ByteStore where
  env : EnvPtr
  va : Word
  byte : BitVec 8

/-- One store: `none` if the program panics, or if a system call of `cow_entry` fails. -/
def userStore (k : Kern) (a : ByteStore) : Kernel (Option Kern) := do
  match ← storeRound M (k.running a.env) a.va a.byte with
  | .done k => pure (some k)
  | .panicked => pure none
  | .again P =>
    if P.results.all fun r => 0 ≤ r.toInt then do
      match ← storeRound M P a.va a.byte with
      | .done k => pure (some k)
      | _ => pure none
    else pure none

/-- A sequence of stores. -/
def storeRun (k : Kern) : List ByteStore → Kernel (Option Kern)
  | [] => pure (some k)
  | a :: l => do
    match ← userStore M k a with
    | some k => storeRun k l
    | none => pure none

/-- Every store of the sequence that is reached satisfies `ok`. -/
def Along (ok : Kern → ByteStore → Prop) (k : Kern) : List ByteStore → Prop
  | [] => True
  | a :: l => ok k a ∧ ∀ k1, userStore M k a = .ok (some k1) → Along ok k1 l

/-! ## What programs see -/

/-- The byte that the environment `e` reads at `va`. -/
def Kern.reads (k : Kern) (e : EnvPtr) (va : Word) : Option (BitVec 8) :=
  readByte k.pm (k.envs e).pgdir va

/-- The environment `e` maps the page of `va` with `PTE_LIBRARY`. -/
def Kern.OnLibrary (k : Kern) (e : EnvPtr) (va : Word) : Prop :=
  ∃ w, translate k.pm (k.envs e).pgdir va = some w ∧ w &&& pteLibrary ≠ 0

/-- Two environments read the same bytes below `USTACKTOP`. -/
def ReadSame (k : Kern) (p c : EnvPtr) : Prop :=
  ∀ va, va < ustacktop → k.reads p va = k.reads c va

/-- They read the same bytes on the pages that one of them maps with `PTE_LIBRARY`. -/
def SharedSame (k : Kern) (p c : EnvPtr) : Prop :=
  ∀ va, va < ustacktop → k.OnLibrary p va ∨ k.OnLibrary c va → k.reads p va = k.reads c va

/-- The page of `va` in the one address space is the page of `va'` in the other, and one of them maps
it with `PTE_LIBRARY`. -/
def SharedPage (s : PhysMem) (d : ℕ) (va : Word) (q : ℕ) (va' : Word) : Prop :=
  ∃ w w', translate s d va = some w ∧ translate s q va' = some w' ∧ ppn w = ppn w' ∧
    (w &&& pteLibrary ≠ 0 ∨ w' &&& pteLibrary ≠ 0)

/-- A store at `va` by the environment `x` leaves what `y` reads as it was, but for shared pages. -/
def Unaffected (k k' : Kern) (x y : EnvPtr) (va : Word) : Prop :=
  ∀ va', va' < utop → ¬ SharedPage k.pm (k.envs x).pgdir va (k.envs y).pgdir va' →
    k'.reads y va' = k.reads y va'

/-- **Isolation**: after every sequence of stores by `p` and `c` that satisfy `ok`, they read the
same bytes on shared pages, and the next store of one does not affect the other. -/
def Isolated (ok : Kern → ByteStore → Prop) (k : Kern) (p c : EnvPtr) : Prop :=
  ∀ l k1, (∀ a ∈ l, a.env = p ∨ a.env = c) → Along M ok k l → storeRun M k l = .ok (some k1) →
    SharedSame k1 p c ∧
      ∀ a k2, ok k1 a → userStore M k1 a = .ok (some k2) →
        (a.env = p → Unaffected k1 k2 p c a.va) ∧ (a.env = c → Unaffected k1 k2 c p a.va)

/-! ## The state before `fork` -/

/-- A parent that may fork: no private page below `USTACKTOP` is mapped twice, no page is both
`PTE_COW` and `PTE_LIBRARY`, and `UCOW` is not mapped. -/
structure CowState (M : Machine) (k : Kern) (c : EnvPtr) (D K : Finset ℕ) : Prop
    extends ForkState M k c D K where
  single : ∀ va, va < ustacktop → ∀ w, translate k.pm (k.envs c).pgdir va = some w →
    w &&& pteLibrary = 0 → ∀ va', va' < utop → ∀ w',
      translate k.pm (k.envs c).pgdir va' = some w' → ppn w' = ppn w → vpn va' = vpn va
  exclusive : ∀ va, va < utop → ∀ w, translate k.pm (k.envs c).pgdir va = some w →
    w &&& pteCow = 0 ∨ w &&& pteLibrary = 0
  ucow : translate k.pm (k.envs c).pgdir ucow = none

end MosVolca
