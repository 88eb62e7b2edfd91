import Mathlib.Data.BitVec
import Mathlib.Logic.Function.Basic

/-!
# Memory with a log of the accesses

A flat memory of bytes, and words of four bytes in it, the low byte first. Loads and stores are
written down, so that it can be said which places a program touches, and with which width.

## Main definitions

* `ByteMemory.Access`, `ByteMemory.Memory` — an access, and the memory with its log.
* `ByteMemory.Memory.load8`, `ByteMemory.Memory.store8`, `ByteMemory.Memory.load32`,
  `ByteMemory.Memory.store32` — the accesses.
* `ByteMemory.overlay` — the bytes after some consecutive ones are replaced.

## Main results

* `ByteMemory.update_overlay`, `ByteMemory.putWord32_overlay` — a replaced range grows by a byte or
  by a word at its end.
* `ByteMemory.byteOf_word32At` — the bytes of a loaded word.
-/

namespace ByteMemory

variable {w : ℕ} {f : BitVec w → BitVec 8} {a base : BitVec w} {g : ℕ → BitVec 8} {i n : ℕ}

/-- A load or a store of some bytes from an address on. -/
structure Access (w : ℕ) where
  write : Bool
  width : ℕ
  addr : BitVec w
  deriving DecidableEq

/-- The access touches only the `n` bytes from `base` on. -/
def Access.Within (x : Access w) (base : BitVec w) (n : ℕ) : Prop :=
  ∀ j < x.width, (x.addr + BitVec.ofNat w j - base).toNat < n

/-- A word access is at a multiple of four. -/
def Access.Aligned (x : Access w) : Prop := x.width = 4 → x.addr.toNat % 4 = 0

/-- The bytes, and the accesses so far, the last one first. -/
structure Memory (w : ℕ) where
  bytes : BitVec w → BitVec 8
  log : List (Access w)

/-- The word at an address. -/
def word32At (f : BitVec w → BitVec 8) (a : BitVec w) : BitVec 32 :=
  (f a).setWidth 32 ||| (f (a + 1)).setWidth 32 <<< 8 ||| (f (a + 2)).setWidth 32 <<< 16 |||
    (f (a + 3)).setWidth 32 <<< 24

/-- Byte `j` of a word. -/
def byteOf (v : BitVec 32) (j : ℕ) : BitVec 8 := (v >>> (8 * j)).setWidth 8

/-- The bytes after a word is written. -/
def putWord32 (f : BitVec w → BitVec 8) (a : BitVec w) (v : BitVec 32) : BitVec w → BitVec 8 :=
  let f := Function.update f a (byteOf v 0)
  let f := Function.update f (a + 1) (byteOf v 1)
  let f := Function.update f (a + 2) (byteOf v 2)
  Function.update f (a + 3) (byteOf v 3)

namespace Memory

def load8 (m : Memory w) (a : BitVec w) : BitVec 8 × Memory w :=
  (m.bytes a, { m with log := ⟨false, 1, a⟩ :: m.log })

def store8 (m : Memory w) (a : BitVec w) (v : BitVec 8) : Memory w :=
  { bytes := Function.update m.bytes a v, log := ⟨true, 1, a⟩ :: m.log }

def load32 (m : Memory w) (a : BitVec w) : BitVec 32 × Memory w :=
  (word32At m.bytes a, { m with log := ⟨false, 4, a⟩ :: m.log })

def store32 (m : Memory w) (a : BitVec w) (v : BitVec 32) : Memory w :=
  { bytes := putWord32 m.bytes a v, log := ⟨true, 4, a⟩ :: m.log }

end Memory

/-! ## Words -/

/-- The bits of a byte that is shifted into place `m` of a word. -/
lemma getLsbD_shifted (b : BitVec 8) (m : ℕ) {j k : ℕ} (hj : j < 4) (hk : k < 8) :
    (b.setWidth 32 <<< (8 * m)).getLsbD (8 * j + k) = (decide (m = j) && b.getLsbD k) := by
  have h32 : 8 * j + k < 32 := by omega
  rw [BitVec.getLsbD_shiftLeft, BitVec.getLsbD_setWidth, decide_eq_true h32]
  rcases Nat.lt_trichotomy m j with hlt | rfl | hgt
  · have hge : 8 ≤ 8 * j + k - 8 * m := by omega
    rw [BitVec.getLsbD_of_ge b _ hge, decide_eq_false (by omega : ¬ m = j)]
    simp
  · have hlt : 8 * m + k - 8 * m < 32 := by omega
    simp [show k < 32 by omega]
  · rw [decide_eq_true (by omega : 8 * j + k < 8 * m), decide_eq_false (by omega : ¬ m = j)]
    simp

/-- The bytes of a loaded word are the bytes in memory. -/
theorem byteOf_word32At {j : ℕ} (hj : j < 4) :
    byteOf (word32At f a) j = f (a + BitVec.ofNat w j) := by
  apply BitVec.eq_of_getLsbD_eq
  intro k hk
  have h0 := getLsbD_shifted (f a) 0 hj hk
  have h1 := getLsbD_shifted (f (a + 1)) 1 hj hk
  have h2 := getLsbD_shifted (f (a + 2)) 2 hj hk
  have h3 := getLsbD_shifted (f (a + 3)) 3 hj hk
  rw [Nat.mul_zero, BitVec.shiftLeft_zero] at h0
  rw [byteOf, BitVec.getLsbD_setWidth, BitVec.getLsbD_ushiftRight, decide_eq_true hk, Bool.true_and,
    word32At, BitVec.getLsbD_or, BitVec.getLsbD_or, BitVec.getLsbD_or, h0, h1, h2, h3]
  obtain rfl | rfl | rfl | rfl : j = 0 ∨ j = 1 ∨ j = 2 ∨ j = 3 := by omega
  all_goals simp

/-! ## A range of bytes is replaced -/

/-- The bytes after the `n` bytes from `base` on are replaced by those of `g`. -/
def overlay (f : BitVec w → BitVec 8) (base : BitVec w) (g : ℕ → BitVec 8) (n : ℕ) :
    BitVec w → BitVec 8 :=
  fun a => if (a - base).toNat < n then g (a - base).toNat else f a

lemma overlay_zero : overlay f base g 0 = f := by
  funext a
  simp [overlay]

/-- The bytes outside of the range stay. -/
lemma overlay_of_le (h : n ≤ (a - base).toNat) : overlay f base g n a = f a :=
  if_neg (by omega)

/-- The place of a byte in the range. -/
lemma toNat_add_sub (hi : i < 2 ^ w) : (base + BitVec.ofNat w i - base).toNat = i := by
  rw [BitVec.add_comm, BitVec.add_sub_cancel, BitVec.toNat_ofNat, Nat.mod_eq_of_lt hi]

lemma overlay_add (hn : n ≤ 2 ^ w) (hi : i < n) :
    overlay f base g n (base + BitVec.ofNat w i) = g i := by
  rw [overlay, toNat_add_sub (by omega), if_pos hi]

/-- **The range grows by a byte at its end.** -/
theorem update_overlay (hi : i < 2 ^ w) :
    Function.update (overlay f base g i) (base + BitVec.ofNat w i) (g i) =
      overlay f base g (i + 1) := by
  funext a
  by_cases ha : a = base + BitVec.ofNat w i
  · subst ha
    rw [Function.update_self, overlay, toNat_add_sub hi, if_pos (by omega)]
  · have hne : (a - base).toNat ≠ i := by
      rintro rfl
      rw [BitVec.ofNat_toNat, BitVec.setWidth_eq, BitVec.add_comm, BitVec.sub_add_cancel] at ha
      exact ha rfl
    rw [Function.update_of_ne ha, overlay, overlay]
    by_cases hlt : (a - base).toNat < i
    · rw [if_pos hlt, if_pos (by omega)]
    · rw [if_neg hlt, if_neg (by omega)]

/-- The range grows by another range at its end. -/
theorem overlay_overlay (hi : i + n ≤ 2 ^ w) :
    overlay (overlay f base g i) (base + BitVec.ofNat w i) (fun j => g (i + j)) n =
      overlay f base g (i + n) := by
  induction n with
  | zero => exact overlay_zero
  | succ n ih =>
    have hadd : base + BitVec.ofNat w i + BitVec.ofNat w n = base + BitVec.ofNat w (i + n) := by
      rw [BitVec.add_assoc, BitVec.ofNat_add]
    rw [← update_overlay (g := fun j => g (i + j)) (by omega), ih (by omega), hadd,
      update_overlay (by omega), Nat.add_assoc]

lemma overlay_congr {g' : ℕ → BitVec 8} (h : ∀ j < n, g j = g' j) :
    overlay f base g n = overlay f base g' n := by
  funext a
  unfold overlay
  split_ifs with ha
  · exact h _ ha
  · rfl

/-- The range grows by a word at its end. -/
theorem putWord32_overlay {v : BitVec 32} (hi : i + 4 ≤ 2 ^ w) (hv : ∀ j < 4, byteOf v j = g (i + j)) :
    putWord32 (overlay f base g i) (base + BitVec.ofNat w i) v = overlay f base g (i + 4) := by
  have hadd : ∀ j, base + BitVec.ofNat w i + BitVec.ofNat w j = base + BitVec.ofNat w (i + j) := by
    intro j
    rw [BitVec.add_assoc, BitVec.ofNat_add]
  have h1 : base + BitVec.ofNat w i + 1 = base + BitVec.ofNat w (i + 1) := hadd 1
  have h2 : base + BitVec.ofNat w i + 2 = base + BitVec.ofNat w (i + 2) := hadd 2
  have h3 : base + BitVec.ofNat w i + 3 = base + BitVec.ofNat w (i + 3) := hadd 3
  rw [putWord32, hv 0 (by omega), hv 1 (by omega), hv 2 (by omega), hv 3 (by omega), h1, h2, h3,
    Nat.add_zero]
  rw [update_overlay (by omega), update_overlay (by omega), update_overlay (by omega),
    update_overlay (by omega)]

end ByteMemory
