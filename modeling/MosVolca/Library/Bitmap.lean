import Mathlib.Data.BitVec
import Mathlib.Logic.Function.Basic

/-!
# Bitmaps

A set of numbers kept as the bits of an array of machine words: the number `i` is bit `i % w` of
word `i / w`.

## Main definitions

* `MosVolca.Bitmap.test`, `MosVolca.Bitmap.set`, `MosVolca.Bitmap.clear` — the operations on a bit.

## Main results

* `MosVolca.Bitmap.test_set`, `MosVolca.Bitmap.test_clear` — what they do to the other bits.
* `MosVolca.Bitmap.set_clear` — setting a bit again.
* `MosVolca.Bitmap.and_mask_eq_zero_iff` — the test as programs write it, with a mask.
-/

namespace MosVolca.Bitmap

variable {w : ℕ} {b : ℕ → BitVec w} {i j : ℕ}

/-- Bit `i`. -/
def test (b : ℕ → BitVec w) (i : ℕ) : Bool := (b (i / w)).getLsbD (i % w)

/-- The word with bit `i` alone. -/
def mask (w i : ℕ) : BitVec w := 1#w <<< (i % w)

/-- Bit `i` is set. -/
def set (b : ℕ → BitVec w) (i : ℕ) : ℕ → BitVec w :=
  Function.update b (i / w) (b (i / w) ||| mask w i)

/-- Bit `i` is cleared. -/
def clear (b : ℕ → BitVec w) (i : ℕ) : ℕ → BitVec w :=
  Function.update b (i / w) (b (i / w) &&& ~~~mask w i)

lemma mask_eq_twoPow : mask w i = BitVec.twoPow w (i % w) := by
  rw [mask, BitVec.twoPow_eq]

lemma getLsbD_mask (hw : 0 < w) : (mask w i).getLsbD (j % w) = decide (i % w = j % w) := by
  have hj : j % w < w := Nat.mod_lt j hw
  rw [mask_eq_twoPow, BitVec.getLsbD_twoPow]
  simp [Nat.mod_lt i hw]

/-- Two bits of one word are the same bit if they have the same position. -/
lemma decide_position (h : j / w = i / w) : decide (i % w = j % w) = decide (j = i) := by
  refine decide_eq_decide.mpr ⟨fun h' => ?_, fun he => by rw [he]⟩
  rw [← Nat.div_add_mod j w, ← Nat.div_add_mod i w, h, h']

/-- **The test with a mask.** -/
theorem and_mask_eq_zero_iff (hw : 0 < w) : b (i / w) &&& mask w i = 0#w ↔ test b i = false := by
  rw [mask_eq_twoPow, BitVec.and_twoPow, test]
  split
  case isTrue h =>
    have hne : BitVec.twoPow w (i % w) ≠ 0#w := fun hz => by
      have := congrArg (·.getLsbD (i % w)) hz
      simp [Nat.mod_lt i hw] at this
    simp [h, hne]
  case isFalse h => simp [h]

/-- **Setting a bit** keeps the others. -/
theorem test_set (hw : 0 < w) : test (set b i) j = (test b j || decide (j = i)) := by
  unfold test set
  by_cases h : j / w = i / w
  · rw [h, Function.update_self, BitVec.getLsbD_or, getLsbD_mask hw, decide_position h]
  · have hne : j ≠ i := fun he => h (by rw [he])
    rw [Function.update_of_ne h, decide_eq_false hne, Bool.or_false]

/-- **Clearing a bit** keeps the others. -/
theorem test_clear (hw : 0 < w) : test (clear b i) j = (test b j && decide (j ≠ i)) := by
  unfold test clear
  by_cases h : j / w = i / w
  · have hj : j % w < w := Nat.mod_lt j hw
    rw [h, Function.update_self, BitVec.getLsbD_and, BitVec.getLsbD_not, getLsbD_mask hw,
      decide_position h]
    simp [hj]
  · have hne : j ≠ i := fun he => h (by rw [he])
    rw [Function.update_of_ne h, decide_eq_true hne, Bool.and_true]

/-- Setting a bit that was set before it was cleared brings the bitmap back. -/
theorem set_clear (hw : 0 < w) (h : test b i = true) : set (clear b i) i = b := by
  funext k
  unfold set clear
  by_cases hk : k = i / w
  · subst hk
    rw [Function.update_self, Function.update_self]
    apply BitVec.eq_of_getLsbD_eq
    intro l hl
    have hmask := getLsbD_mask (w := w) (i := i) (j := l) hw
    rw [Nat.mod_eq_of_lt hl] at hmask
    rw [BitVec.getLsbD_or, BitVec.getLsbD_and, BitVec.getLsbD_not, hmask]
    by_cases hl' : i % w = l
    · subst hl'
      rw [show (b (i / w)).getLsbD (i % w) = true from h]
      simp
    · simp [hl', hl]
  · rw [Function.update_of_ne hk, Function.update_of_ne hk]

end MosVolca.Bitmap
