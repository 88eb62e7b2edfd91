import Mathlib.Data.BitVec
import Mathlib.Data.List.GetD
import Mathlib.Logic.Function.Basic

/-!
# Bytes in arrays of words

An array of words of 32 bits as little-endian machines see it byte by byte: byte `i` is in word
`i / 4`. The strings in it end with a byte 0.

## Main definitions

* `ByteWords.get`, `ByteWords.set`, `ByteWords.put` — a byte, and the array after one byte or several
  are written.
* `ByteWords.IsString` — the string at a place, with its end.

## Main results

* `ByteWords.get_put` — the bytes after several are written.
* `ByteWords.put_of_disjoint` — the words that stay.
-/

namespace ByteWords

variable {m : ℕ → BitVec 32} {i j k : ℕ} {c : BitVec 8} {l l' : List (BitVec 8)}

/-- Byte `i`. -/
def get (m : ℕ → BitVec 32) (i : ℕ) : BitVec 8 := (m (i / 4) >>> (8 * (i % 4))).setWidth 8

/-- The word with byte `k` replaced. -/
def setIn (w : BitVec 32) (k : ℕ) (c : BitVec 8) : BitVec 32 :=
  w &&& ~~~(0xFF#32 <<< (8 * k)) ||| (c.setWidth 32 <<< (8 * k))

/-- Byte `i` is written. -/
def set (m : ℕ → BitVec 32) (i : ℕ) (c : BitVec 8) : ℕ → BitVec 32 :=
  Function.update m (i / 4) (setIn (m (i / 4)) (i % 4) c)

/-- The bytes from `i` on are written. -/
def put (m : ℕ → BitVec 32) (i : ℕ) : List (BitVec 8) → ℕ → BitVec 32
  | [] => m
  | c :: l => put (set m i c) (i + 1) l

/-! ## Bytes of a word -/

/-- The bits of the mask of a byte. -/
lemma getLsbD_mask (hi : i < 32) : (0xFF#32).getLsbD i = decide (i < 8) := by
  have h : ∀ n < 32, (0xFF#32).getLsbD n = decide (n < 8) := by decide
  exact h i hi

/-- The byte that was put into the word. -/
lemma setIn_self (w : BitVec 32) (hk : k < 4) (c : BitVec 8) :
    (setIn w k c >>> (8 * k)).setWidth 8 = c := by
  apply BitVec.eq_of_getLsbD_eq
  intro i hi
  have h32 : 8 * k + i < 32 := by omega
  have hmask : (0xFF#32).getLsbD i = true := by rw [getLsbD_mask (by omega), decide_eq_true hi]
  rw [BitVec.getLsbD_eq_getElem (by omega)] at hmask
  have hge : ¬ 8 * k + i < 8 * k := by omega
  simp [setIn, hi, h32, hmask, hge]

/-- The other bytes of the word. -/
lemma setIn_of_ne (w : BitVec 32) (hk : k < 4) (hj : j < 4) (hne : j ≠ k) (c : BitVec 8) :
    (setIn w k c >>> (8 * j)).setWidth 8 = (w >>> (8 * j)).setWidth 8 := by
  apply BitVec.eq_of_getLsbD_eq
  intro i hi
  have h32 : 8 * j + i < 32 := by omega
  rcases Nat.lt_or_gt_of_ne hne with hlt | hlt
  · have hlow : 8 * j + i < 8 * k := by omega
    simp [setIn, hi, h32, hlow]
  · have hhigh : ¬ 8 * j + i < 8 * k := by omega
    have h8 : 8 ≤ 8 * j + i - 8 * k := by omega
    have hmask : (0xFF#32).getLsbD (8 * j + i - 8 * k) = false := by
      rw [getLsbD_mask (by omega), decide_eq_false (by omega)]
    rw [BitVec.getLsbD_eq_getElem (by omega)] at hmask
    have hc : c.getLsbD (8 * j + i - 8 * k) = false := BitVec.getLsbD_of_ge _ _ h8
    simp [setIn, hi, h32, hhigh, hmask, hc]

/-! ## Bytes of an array -/

/-- **A byte after one is written.** -/
theorem get_set : get (set m i c) j = if j = i then c else get m j := by
  unfold get set
  by_cases hw : j / 4 = i / 4
  · rw [hw, Function.update_self]
    split_ifs with hji
    · rw [hji, setIn_self _ (Nat.mod_lt _ (by decide))]
    · exact setIn_of_ne _ (Nat.mod_lt _ (by decide)) (Nat.mod_lt _ (by decide)) (by omega) c
  · rw [Function.update_of_ne hw, if_neg fun he => hw (by rw [he])]

/-- **A byte after several are written.** -/
theorem get_put : get (put m i l) j =
    if i ≤ j ∧ j < i + l.length then l.getD (j - i) 0 else get m j := by
  induction l generalizing m i with
  | nil => rw [if_neg (by simp only [List.length_nil]; omega), put]
  | cons a l ih =>
    rw [put, ih, get_set]
    simp only [List.length_cons]
    by_cases hji : j = i
    · rw [if_neg (by omega), if_pos hji, if_pos (by omega), hji, Nat.sub_self, List.getD_cons_zero]
    · by_cases hin : i + 1 ≤ j ∧ j < i + 1 + l.length
      · rw [if_pos hin, if_pos (by omega), show j - i = j - (i + 1) + 1 by omega, List.getD_cons_succ]
      · rw [if_neg hin, if_neg hji, if_neg (by omega)]

/-- The words that no byte is written to stay. -/
theorem put_of_disjoint (h : 4 * k + 4 ≤ i ∨ i + l.length ≤ 4 * k) : put m i l k = m k := by
  induction l generalizing m i with
  | nil => rfl
  | cons a l ih =>
    rw [List.length_cons] at h
    rw [put, ih (by omega), set, Function.update_of_ne (by omega)]

/-! ## Strings -/

/-- The string at byte `i` of the array. -/
def IsString (m : ℕ → BitVec 32) (i : ℕ) (l : List (BitVec 8)) : Prop :=
  ∀ k ≤ l.length, get m (i + k) = l.getD k 0

end ByteWords
