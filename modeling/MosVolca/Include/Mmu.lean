import Mathlib.Data.BitVec
import MosVolca.Library.TwoLevel

/-!
# Addresses and page-table entries

The address arithmetic and the entry format of `include/mmu.h`, `include/pmap.h` and
`include/types.h`, on 32-bit words. A page is named by its page number (the index of its
`struct Page` in `pages`), so `page2pa`, `pa2page` and `page2kva` are shifts.

## Main definitions

* `MosVolca.pdx`, `MosVolca.ptx`, `MosVolca.ppn`, `MosVolca.vpn` — the fields of an address.
* `MosVolca.pteV`, `MosVolca.pteD` and the other flags of an entry.
* `MosVolca.tableShape` — how a page table is read: which words are valid entries and the page
  they point to.

## Main results

* `MosVolca.ppn_mkPte` — the frame of `page2pa(pp) | perm | PTE_V` is the page number of `pp`
  joined with the high bits of `perm`.
* `MosVolca.vpn_eq` — a virtual page number is a directory index and a table index.
-/

namespace MosVolca

/-- `u_int`, `u_long`, `Pde` and `Pte`: the 32-bit word of the machine. -/
abbrev Word := BitVec 32

/-- Bytes to a page. -/
def by2pg : ℕ := 4096
/-- Bytes mapped by a page directory entry. -/
def pdmap : Word := 4 * 1024 * 1024

/-- `PDX(va)`: the page directory index of an address. -/
def pdx (va : Word) : ℕ := ((va >>> 22) &&& 0x03FF#32).toNat
/-- `PTX(va)`: the page table index of an address. -/
def ptx (va : Word) : ℕ := ((va >>> 12) &&& 0x03FF#32).toNat
/-- `PTE_ADDR(pte)`: the address part of an entry. -/
def pteAddr (pte : Word) : Word := pte &&& ~~~0xFFF#32
/-- `PPN(va)`: the page number field of an address. -/
def ppn (va : Word) : ℕ := (va >>> 12).toNat
/-- `VPN(va)`: the page number of a virtual address. -/
def vpn (va : Word) : ℕ := (va >>> 12).toNat

/-! ## Entry flags -/

/-- Global bit. -/
def pteG : Word := 0x0100
/-- Valid bit. -/
def pteV : Word := 0x0200
/-- Dirty bit, really a write-enable bit. -/
def pteD : Word := 0x0400
/-- Copy on write, used by `fork`. -/
def pteCow : Word := 0x0001
/-- Shared memory, used by `fork`. -/
def pteLibrary : Word := 0x0004

/-! ## Memory layout -/

def ulim : Word := 0x80000000
def uvpt : Word := ulim - pdmap
def upages : Word := uvpt - pdmap
def uenvs : Word := upages - pdmap
def utop : Word := uenvs
def uxstacktop : Word := utop
def ustacktop : Word := utop - 2 * 4096
def utext : Word := pdmap
def ucow : Word := utext - 4096
def utemp : Word := ucow - 4096

@[simp] lemma ulim_toNat : ulim.toNat = 0x80000000 := rfl
@[simp] lemma uvpt_toNat : uvpt.toNat = 0x7fc00000 := by decide
@[simp] lemma upages_toNat : upages.toNat = 0x7f800000 := by decide
@[simp] lemma uenvs_toNat : uenvs.toNat = 0x7f400000 := by decide
/-- `UTOP` as a number, for `omega`. -/
@[simp] lemma utop_toNat : utop.toNat = 0x7f400000 := by decide
@[simp] lemma ustacktop_toNat : ustacktop.toNat = 0x7f3fe000 := by decide
@[simp] lemma utemp_toNat : utemp.toNat = 0x3fe000 := by decide

/-! ## Fields of an address -/

lemma pdx_eq (va : Word) : pdx va = va.toNat / 2 ^ 22 := by
  have h : (0x03FF#32).toNat = 2 ^ 10 - 1 := by decide
  rw [pdx, BitVec.toNat_and, h, Nat.and_two_pow_sub_one_eq_mod, BitVec.toNat_ushiftRight,
    Nat.shiftRight_eq_div_pow]
  have := va.isLt
  omega

lemma ptx_eq (va : Word) : ptx va = va.toNat / 2 ^ 12 % 1024 := by
  have h : (0x03FF#32).toNat = 2 ^ 10 - 1 := by decide
  rw [ptx, BitVec.toNat_and, h, Nat.and_two_pow_sub_one_eq_mod, BitVec.toNat_ushiftRight,
    Nat.shiftRight_eq_div_pow]

lemma ppn_eq (va : Word) : ppn va = va.toNat / 2 ^ 12 := by
  rw [ppn, BitVec.toNat_ushiftRight, Nat.shiftRight_eq_div_pow]

lemma vpn_eq_div (va : Word) : vpn va = va.toNat / 2 ^ 12 := ppn_eq va

lemma pdx_lt (va : Word) : pdx va < 1024 := by
  rw [pdx_eq]
  have := va.isLt
  omega

lemma ptx_lt (va : Word) : ptx va < 1024 := by
  rw [ptx_eq]
  omega

/-- A virtual page number is a directory index followed by a table index. -/
lemma vpn_eq (va : Word) : vpn va = pdx va * 1024 + ptx va := by
  rw [vpn_eq_div, pdx_eq, ptx_eq]
  omega

/-- Two addresses lie in one page exactly when their two indices agree. -/
lemma vpn_eq_vpn_iff (va va' : Word) : vpn va = vpn va' ↔ pdx va = pdx va' ∧ ptx va = ptx va' := by
  rw [vpn_eq, vpn_eq]
  have := ptx_lt va
  have := ptx_lt va'
  omega

@[simp] lemma pdx_utop : pdx utop = 509 := by decide
@[simp] lemma pdx_uvpt : pdx uvpt = 511 := by decide

/-- User addresses have directory entries below that of `UTOP`. -/
lemma pdx_lt_of_lt_utop {va : Word} (h : va < utop) : pdx va < pdx utop := by
  rw [pdx_utop, pdx_eq]
  have h' : va.toNat < utop.toNat := h
  rw [utop_toNat] at h'
  omega

/-! ## Entries -/

/-- The valid bit of an entry, as `if (pte & PTE_V)` tests it. -/
def pteValid (pte : Word) : Bool := pte &&& pteV != 0

/-- `page2pa(pp)`: the physical address of a page. -/
def page2pa (pp : ℕ) : Word := BitVec.ofNat 32 pp <<< 12

/-- The entry `page2pa(pp) | perm | PTE_V` that `page_insert` writes. -/
def mkPte (pp : ℕ) (perm : Word) : Word := page2pa pp ||| perm ||| pteV

/-- The entry `(page2pa(pp) & 0xfffff000) | PTE_V | PTE_D` that `pgdir_walk` writes. -/
def mkPde (pp : ℕ) : Word := (page2pa pp &&& 0xfffff000#32) ||| pteV ||| pteD

/-- How page directories and page tables are read: `owned` entries of a directory belong to it,
a table has 1024 entries. -/
def tableShape (owned : ℕ) : TwoLevel.Shape Word where
  valid := pteValid
  frame := ppn
  slots := 1024
  owned := owned

@[simp] lemma tableShape_valid (n : ℕ) : (tableShape n).valid = pteValid := rfl
@[simp] lemma tableShape_frame (n : ℕ) : (tableShape n).frame = ppn := rfl

@[simp] lemma pteValid_zero : pteValid 0#32 = false := by decide

/-- Validity is bit 9. -/
lemma pteValid_eq (w : Word) : pteValid w = w.getLsbD 9 := by
  have hv : pteV = BitVec.twoPow 32 9 := by decide
  unfold pteValid
  rw [hv, BitVec.and_twoPow]
  cases w.getLsbD 9 <;> decide

@[simp] lemma pteValid_mkPte (pp : ℕ) (perm : Word) : pteValid (mkPte pp perm) = true := by
  have h : pteV.getLsbD 9 = true := by decide
  rw [pteValid_eq, mkPte, BitVec.getLsbD_or, h, Bool.or_true]

@[simp] lemma pteValid_mkPde (pp : ℕ) : pteValid (mkPde pp) = true := by
  have h : pteV.getLsbD 9 = true := by decide
  rw [pteValid_eq, mkPde, BitVec.getLsbD_or, BitVec.getLsbD_or, h, Bool.or_true, Bool.true_or]

lemma ppn_lt (w : Word) : ppn w < 2 ^ 20 := by
  rw [ppn_eq]
  have := w.isLt
  omega

lemma ppn_or (v w : Word) : ppn (v ||| w) = ppn v ||| ppn w := by
  unfold ppn
  rw [BitVec.ushiftRight_or_distrib, BitVec.toNat_or]

lemma ppn_page2pa {pp : ℕ} (h : pp < 2 ^ 20) : ppn (page2pa pp) = pp := by
  rw [ppn_eq, page2pa, BitVec.toNat_shiftLeft, BitVec.toNat_ofNat, Nat.shiftLeft_eq]
  omega

/-- The entry of a page directory for itself, which `env_setup_vm` writes. -/
lemma ppn_self {d : ℕ} (hd : d < 2 ^ 20) : ppn (page2pa d ||| pteV) = d := by
  rw [ppn_or, ppn_page2pa hd]
  exact Nat.or_zero d

lemma pteValid_self (d : ℕ) : pteValid (page2pa d ||| pteV) = true := by
  have h : pteV.getLsbD 9 = true := by decide
  rw [pteValid_eq, BitVec.getLsbD_or, h, Bool.or_true]

/-- The page address of an entry is that of its frame. -/
lemma page2pa_ppn (w : Word) : page2pa (ppn w) = pteAddr w := by
  have hmask : (~~~0xFFF#32 : Word) = BitVec.allOnes 32 <<< 12 := by decide
  have hone : BitVec.ofNat 32 (ppn w) = w >>> 12 :=
    (BitVec.ofNat_toNat _ _).trans (BitVec.setWidth_eq _)
  apply BitVec.eq_of_getLsbD_eq
  intro i hi
  rw [page2pa, hone, pteAddr, hmask]
  simp only [BitVec.getLsbD_shiftLeft, BitVec.getLsbD_ushiftRight, BitVec.getLsbD_and,
    BitVec.getLsbD_allOnes]
  by_cases h : i < 12
  · simp [h]
  · have h1 : i - 12 < 32 := by omega
    have h2 : 12 + (i - 12) = i := by omega
    simp [h, hi, h1, h2]

/-- A word below 2^12 has no frame bits. -/
lemma ppn_of_lt {w : Word} (h : w < 4096#32) : ppn w = 0 := by
  have h' : w.toNat < 4096 := h
  rw [ppn_eq]
  omega

/-- **The frame of an installed entry** is the page number joined with the high bits of the
permission argument. -/
lemma ppn_mkPte {pp : ℕ} (h : pp < 2 ^ 20) (perm : Word) : ppn (mkPte pp perm) = pp ||| ppn perm := by
  have hv : ppn pteV = 0 := by decide
  rw [mkPte, ppn_or, ppn_or, hv, Nat.or_zero, ppn_page2pa h]

/-- The page number of an entry is read back. -/
lemma ppn_mkPte_of_lt {pp : ℕ} {perm : Word} (h : pp < 2 ^ 20) (hperm : perm < 4096#32) :
    ppn (mkPte pp perm) = pp := by
  rw [ppn_mkPte h, ppn_of_lt hperm, Nat.or_zero]

/-- The address of an installed entry is that of its page. -/
lemma pteAddr_mkPte {perm : Word} (pp : ℕ) (hperm : perm < 4096#32) :
    pteAddr (mkPte pp perm) = page2pa pp := by
  have hmask : (~~~0xFFF#32 : Word) = BitVec.allOnes 32 <<< 12 := by decide
  have hv : pteV &&& ~~~0xFFF#32 = 0#32 := by decide
  have hp : perm &&& ~~~0xFFF#32 = 0#32 := by
    apply BitVec.eq_of_getLsbD_eq
    intro i hi
    rw [hmask, BitVec.getLsbD_and, BitVec.getLsbD_shiftLeft, BitVec.getLsbD_zero]
    by_cases h12 : i < 12
    · simp [h12]
    · have h : perm.getLsbD i = false := by
        refine Nat.testBit_lt_two_pow (lt_of_lt_of_le hperm ?_)
        exact (Nat.pow_le_pow_right (by decide) (Nat.le_of_not_lt h12) : 2 ^ 12 ≤ 2 ^ i)
      simp [h]
  have ha : page2pa pp &&& ~~~0xFFF#32 = page2pa pp := by
    rw [hmask, page2pa, ← BitVec.shiftLeft_and_distrib, BitVec.and_allOnes]
  unfold pteAddr mkPte
  rw [BitVec.and_comm, BitVec.and_or_distrib_left, BitVec.and_or_distrib_left,
    BitVec.and_comm _ (page2pa pp), BitVec.and_comm _ perm, BitVec.and_comm _ pteV, hv, hp, ha,
    BitVec.or_zero, BitVec.or_zero]

/-- The page number of a directory entry is read back. -/
lemma ppn_mkPde {pp : ℕ} (h : pp < 2 ^ 20) : ppn (mkPde pp) = pp := by
  have hv : ppn pteV = 0 := by decide
  have hd : ppn pteD = 0 := by decide
  have hm : page2pa pp &&& 0xfffff000#32 = page2pa pp := by
    have hmask : (0xfffff000#32 : Word) = BitVec.allOnes 32 <<< 12 := by decide
    have hone : page2pa pp = (BitVec.ofNat 32 pp &&& BitVec.allOnes 32) <<< 12 := by
      rw [BitVec.and_allOnes]
      rfl
    rw [hmask]
    nth_rewrite 2 [hone]
    rw [BitVec.shiftLeft_and_distrib]
    rfl
  rw [mkPde, ppn_or, ppn_or, hv, hd, Nat.or_zero, Nat.or_zero, hm, ppn_page2pa h]

end MosVolca
