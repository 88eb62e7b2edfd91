import MosVolca.Library.ByteWords
import MosVolca.Library.TwoLevel

/-!
# Bytes in a store of pages

The pages of a store of words of 32 bits, byte by byte, and what a loop does that copies bytes one
after the other from some places to others.

## Main definitions

* `PageBytes.get`, `PageBytes.set` — a byte of a page.
* `PageBytes.copy` — the store after a loop that copies bytes.

## Main results

* `PageBytes.get_copy_of_ne` — the bytes that are not written to stay.
* `PageBytes.get_copy` — the bytes that are written, if the loop does not read what it has written.
-/

namespace PageBytes

/-- A byte of a page. -/
abbrev Place := ℕ × ℕ

/-- The byte at a place. -/
def get (m : TwoLevel.Store (BitVec 32)) (x : Place) : BitVec 8 := ByteWords.get (m x.1) x.2

/-- The byte at a place is written. -/
def set (m : TwoLevel.Store (BitVec 32)) (x : Place) (b : BitVec 8) :
    TwoLevel.Store (BitVec 32) :=
  Function.update m x.1 (ByteWords.set (m x.1) x.2 b)

/-- The first `n` bytes are copied from the places `src` to the places `dst`. -/
def copy (m : TwoLevel.Store (BitVec 32)) (dst src : ℕ → Place) : ℕ → TwoLevel.Store (BitVec 32)
  | 0 => m
  | n + 1 => set (copy m dst src n) (dst n) (get (copy m dst src n) (src n))

variable {m : TwoLevel.Store (BitVec 32)} {x y : Place} {b : BitVec 8} {dst src : ℕ → Place}
  {n j q : ℕ}

/-- **A byte after one is written.** -/
theorem get_set : get (set m x b) y = if y = x then b else get m y := by
  unfold get set
  by_cases hq : y.1 = x.1
  · rw [hq, Function.update_self, ByteWords.get_set]
    exact if_congr ⟨fun h => Prod.ext hq h, congrArg Prod.snd⟩ rfl rfl
  · rw [Function.update_of_ne hq, if_neg fun h => hq (congrArg Prod.fst h)]

/-- The pages that no byte is written to stay. -/
lemma copy_of_ne_page (h : ∀ j < n, (dst j).1 ≠ q) : copy m dst src n q = m q := by
  induction n with
  | zero => rfl
  | succ n ih =>
    rw [copy, set, Function.update_of_ne (h n n.lt_succ_self).symm]
    exact ih fun j hj => h j (hj.trans n.lt_succ_self)

/-- **The bytes that are not written to** stay. -/
theorem get_copy_of_ne (h : ∀ j < n, dst j ≠ x) : get (copy m dst src n) x = get m x := by
  induction n with
  | zero => rfl
  | succ n ih =>
    rw [copy, get_set, if_neg (h n n.lt_succ_self).symm]
    exact ih fun j hj => h j (hj.trans n.lt_succ_self)

/-- **The bytes that are written**: each is what was at its source before the loop, if no two bytes
go to one place and no source is written to. -/
theorem get_copy (hinj : ∀ i < n, ∀ j < n, dst i = dst j → i = j)
    (hsrc : ∀ i < n, ∀ j < n, dst i ≠ src j) (hj : j < n) :
    get (copy m dst src n) (dst j) = get m (src j) := by
  induction n with
  | zero => exact absurd hj j.not_lt_zero
  | succ n ih =>
    rw [copy, get_set]
    rcases Nat.lt_succ_iff_lt_or_eq.mp hj with hlt | rfl
    · rw [if_neg fun he => hlt.ne (hinj j hj n n.lt_succ_self he)]
      exact ih (fun i hi k hk => hinj i (hi.trans n.lt_succ_self) k (hk.trans n.lt_succ_self))
        (fun i hi k hk => hsrc i (hi.trans n.lt_succ_self) k (hk.trans n.lt_succ_self)) hlt
    · rw [if_pos rfl]
      exact get_copy_of_ne fun i hi => hsrc i (hi.trans j.lt_succ_self) j j.lt_succ_self

end PageBytes
