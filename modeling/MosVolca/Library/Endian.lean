import Mathlib.Data.BitVec
import Mathlib.Data.Set.Basic
import MosVolca.Library.ByteWords

/-!
# Byte orders

Words of 32 bits in a memory of bytes, for both orders of the bytes of a word, and what becomes of a
memory when some of its words are read in one order and written back in another.

## Main definitions

* `Endian` — the two orders.
* `Endian.load`, `Endian.bytes` — the word at an address, and the bytes of an array of words.
* `Endian.put` — an array of words after some of its bytes are written.
* `Endian.recode` — some words of a memory, brought from one order into another.

## Main results

* `Endian.load_bytes` — the words of an array are read from its bytes.
* `Endian.load_recode` — a word keeps its value when it is brought into another order.
* `Endian.recode_recode` — to do it twice is to do nothing.
-/

/-- The order of the bytes of a word. -/
inductive Endian
  | little
  | big
  deriving DecidableEq

namespace Endian

variable {e e' : Endian} {m m' : ℕ → BitVec 8} {a : ℕ → BitVec 32} {A B : Set ℕ} {i j k p w : ℕ}
  {l : List (BitVec 8)}

/-- The other order. -/
def other : Endian → Endian
  | little => big
  | big => little

/-- Where byte `k` of a word is in the word. Byte 0 is the least significant one. -/
def place : Endian → ℕ → ℕ
  | little, k => k
  | big, k => 3 - k

/-- The word at address `p`. -/
def load (e : Endian) (m : ℕ → BitVec 8) (p : ℕ) : BitVec 32 :=
  m (p + e.place 3) ++ m (p + e.place 2) ++ m (p + e.place 1) ++ m (p + e.place 0)

/-- The bytes of an array of words. -/
def bytes (e : Endian) (a : ℕ → BitVec 32) (i : ℕ) : BitVec 8 :=
  (a (i / 4) >>> (8 * e.place (i % 4))).setWidth 8

/-- The array of words with the bytes `m`. -/
def words (e : Endian) (m : ℕ → BitVec 8) (w : ℕ) : BitVec 32 := e.load m (4 * w)

/-- The array after the bytes from `i` on are written. -/
def put (e : Endian) (a : ℕ → BitVec 32) (i : ℕ) (l : List (BitVec 8)) : ℕ → BitVec 32 :=
  e.words fun j => if i ≤ j ∧ j < i + l.length then l.getD (j - i) 0 else e.bytes a j

/-! ## Bytes of a word -/

lemma place_lt (hk : k < 4) : e.place k < 4 := by
  cases e <;> simp only [place] <;> omega

lemma place_place (hk : k < 4) : e.place (e.place k) = k := by
  cases e
  · rfl
  · simp only [place]
    omega

/-- Two changes of the order undo each other. -/
lemma place_twice (hk : k < 4) : e.place (e'.place (e.place (e'.place k))) = k := by
  cases e <;> cases e' <;> simp only [place] <;> omega

/-- Byte `k` of the word at an address. -/
lemma byte_load (e : Endian) (m : ℕ → BitVec 8) (p : ℕ) (hk : k < 4) :
    (e.load m p >>> (8 * k)).setWidth 8 = m (p + e.place k) := by
  apply BitVec.eq_of_getLsbD_eq
  intro i hi
  have h32 : 8 * k + i < 32 := by omega
  obtain rfl | rfl | rfl | rfl : k = 0 ∨ k = 1 ∨ k = 2 ∨ k = 3 := by omega
  all_goals
    simp only [load, BitVec.getLsbD_setWidth, BitVec.getLsbD_ushiftRight, BitVec.getLsbD_append, hi,
      decide_true, Bool.true_and]
    split_ifs <;> first | omega | (congr 1; omega)

/-- A word has the bytes that it has. -/
lemma eq_of_byte {x y : BitVec 32}
    (h : ∀ k < 4, (x >>> (8 * k)).setWidth 8 = (y >>> (8 * k)).setWidth 8) : x = y := by
  apply BitVec.eq_of_getLsbD_eq
  intro i hi
  have hbyte := congrArg (fun b : BitVec 8 => b.getLsbD (i % 8)) (h (i / 8) (by omega))
  simp only [BitVec.getLsbD_setWidth, BitVec.getLsbD_ushiftRight] at hbyte
  rwa [decide_eq_true (by omega : i % 8 < 8), Bool.true_and, Bool.true_and, Nat.div_add_mod] at hbyte

/-! ## Bytes of an array -/

lemma bytes_little (a : ℕ → BitVec 32) : little.bytes a = ByteWords.get a := rfl

/-- **The words of an array are read from its bytes.** -/
theorem load_bytes (e : Endian) (a : ℕ → BitVec 32) (w : ℕ) : e.load (e.bytes a) (4 * w) = a w := by
  refine eq_of_byte fun k hk => ?_
  have hlt := place_lt (e := e) hk
  rw [byte_load _ _ _ hk, bytes, show (4 * w + e.place k) / 4 = w by omega,
    show (4 * w + e.place k) % 4 = e.place k by omega, place_place hk]

/-- The word depends on its own bytes only. -/
lemma load_congr (h : ∀ k < 4, m (p + k) = m' (p + k)) : e.load m p = e.load m' p := by
  refine eq_of_byte fun k hk => ?_
  rw [byte_load _ _ _ hk, byte_load _ _ _ hk, h _ (place_lt hk)]

/-- The words of an array are those with its bytes. -/
lemma words_bytes (e : Endian) (a : ℕ → BitVec 32) : e.words (e.bytes a) = a :=
  funext fun w => load_bytes e a w

/-- In the little-endian order the bytes are those of `ByteWords`. -/
lemma put_little (a : ℕ → BitVec 32) (i : ℕ) (l : List (BitVec 8)) :
    little.put a i l = ByteWords.put a i l := by
  rw [← words_bytes little (ByteWords.put a i l)]
  refine congrArg little.words (funext fun j => ?_)
  rw [bytes_little, bytes_little, ByteWords.get_put]

/-- The words that no byte is written to stay. -/
lemma put_of_disjoint (h : 4 * w + 4 ≤ i ∨ i + l.length ≤ 4 * w) : e.put a i l w = a w := by
  rw [put, words, ← load_bytes e a w]
  refine load_congr fun k hk => ?_
  rw [if_neg (by omega)]

/-! ## Words in another order -/

open Classical in
/-- The memory after the words `A` are read in the order `e` and written in the order `e'`. -/
noncomputable def recode (e e' : Endian) (A : Set ℕ) (m : ℕ → BitVec 8) (i : ℕ) : BitVec 8 :=
  if i / 4 ∈ A then m (4 * (i / 4) + e.place (e'.place (i % 4))) else m i

lemma recode_of_mem (h : i / 4 ∈ A) :
    recode e e' A m i = m (4 * (i / 4) + e.place (e'.place (i % 4))) := if_pos h

/-- The other words stay. -/
lemma recode_of_notMem (h : i / 4 ∉ A) : recode e e' A m i = m i := if_neg h

@[simp] lemma recode_empty (e e' : Endian) (m : ℕ → BitVec 8) : recode e e' ∅ m = m :=
  funext fun _ => recode_of_notMem (Set.notMem_empty _)

/-- In the same order nothing changes. -/
lemma recode_same : recode e e A m = m := by
  funext i
  by_cases h : i / 4 ∈ A
  · rw [recode_of_mem h, place_place (Nat.mod_lt i (by decide)), Nat.div_add_mod]
  · exact recode_of_notMem h

/-- **A word keeps its value** when it is brought into another order. -/
theorem load_recode (h : w ∈ A) : e'.load (recode e e' A m) (4 * w) = e.load m (4 * w) := by
  refine eq_of_byte fun k hk => ?_
  have hlt := place_lt (e := e') hk
  have hdiv : (4 * w + e'.place k) / 4 = w := by omega
  have hmod : (4 * w + e'.place k) % 4 = e'.place k := by omega
  rw [byte_load _ _ _ hk, byte_load _ _ _ hk, recode_of_mem (hdiv.symm ▸ h), hdiv, hmod,
    place_place hk]

/-- **To do it twice is to do nothing.** -/
theorem recode_recode : recode e e' A (recode e e' A m) = m := by
  funext i
  by_cases h : i / 4 ∈ A
  · have hmod : i % 4 < 4 := Nat.mod_lt i (by decide)
    have hlt := place_lt (e := e) (place_lt (e := e') hmod)
    have hdiv : (4 * (i / 4) + e.place (e'.place (i % 4))) / 4 = i / 4 := by omega
    rw [recode_of_mem h, recode_of_mem (hdiv.symm ▸ h), hdiv, Nat.mul_add_mod,
      Nat.mod_eq_of_lt hlt, place_twice hmod, Nat.div_add_mod]
  · rw [recode_of_notMem h, recode_of_notMem h]

/-- Some words and then others. -/
lemma recode_union (h : ∀ w ∈ A, w ∉ B) :
    recode e e' B (recode e e' A m) = recode e e' (A ∪ B) m := by
  funext i
  have hmod : i % 4 < 4 := Nat.mod_lt i (by decide)
  have hlt := place_lt (e := e) (place_lt (e := e') hmod)
  have hdiv : (4 * (i / 4) + e.place (e'.place (i % 4))) / 4 = i / 4 := by omega
  by_cases hB : i / 4 ∈ B
  · have hA : i / 4 ∉ A := fun hA => h _ hA hB
    rw [recode_of_mem hB, recode_of_notMem (hdiv.symm ▸ hA), recode_of_mem (Or.inr hB)]
  · rw [recode_of_notMem hB]
    by_cases hA : i / 4 ∈ A
    · rw [recode_of_mem hA, recode_of_mem (Or.inl hA)]
    · rw [recode_of_notMem hA, recode_of_notMem fun h => h.elim hA hB]

end Endian
