import Mathlib.Algebra.BigOperators.Group.Finset.Basic
import Mathlib.Algebra.Order.BigOperators.Group.Finset
import Mathlib.Data.Finset.Card

/-!
# Finite sums changed at one point

Reference counts are finite sums over the slots of a store, and every operation on the store
changes one summand. This file has the two facts such an argument needs: how a sum changes when
one summand does, and that two different summands are both below the sum.

## Main results

* `Counting.sum_change` — the change of a sum of natural numbers is the change of the one
  summand that differs.
* `Counting.pair_le_sum` — two different summands add up to at most the sum.
-/

namespace Counting

variable {ι : Type*} [DecidableEq ι]

/-- If `f` and `g` agree on `s` except possibly at `a`, their sums differ by `f a - g a`. The
difference is written without subtraction. -/
lemma sum_change {s : Finset ι} {f g : ι → ℕ} {a : ι} (ha : a ∈ s)
    (h : ∀ b ∈ s, b ≠ a → f b = g b) : ∑ b ∈ s, f b + g a = ∑ b ∈ s, g b + f a := by
  have hrest : ∑ b ∈ s.erase a, f b = ∑ b ∈ s.erase a, g b :=
    Finset.sum_congr rfl fun b hb => h b (Finset.mem_of_mem_erase hb) (Finset.ne_of_mem_erase hb)
  rw [← Finset.add_sum_erase s f ha, ← Finset.add_sum_erase s g ha, hrest]
  omega

/-- Two different summands are together at most the sum. -/
lemma pair_le_sum {s : Finset ι} {f : ι → ℕ} {a b : ι} (ha : a ∈ s) (hb : b ∈ s) (hab : a ≠ b) :
    f a + f b ≤ ∑ c ∈ s, f c := by
  have hsub : ({a, b} : Finset ι) ⊆ s := by
    intro c hc
    rcases Finset.mem_insert.mp hc with rfl | hc
    · exact ha
    · rwa [Finset.mem_singleton.mp hc]
  calc f a + f b = ∑ c ∈ ({a, b} : Finset ι), f c := (Finset.sum_pair hab).symm
    _ ≤ ∑ c ∈ s, f c := Finset.sum_le_sum_of_subset hsub

end Counting
