import Mathlib.Data.List.Rotate

/-!
# Rounds

The infinite repetition of a list, and the list in which every element stands as often in a row as
it has slices in a round.

## Main definitions

* `MosVolca.Cyclic.repeated` — the infinite repetition of a list.
* `MosVolca.Cyclic.slices` — one round.

## Main results

* `MosVolca.Cyclic.repeated_slices_head` — a round begins with the slices of its first element.
* `MosVolca.Cyclic.repeated_slices_rotate` — after them, the round of the rotated list follows.
-/

namespace MosVolca.Cyclic

variable {α : Type*} {p : α → ℕ} {a : α} {l : List α} {t : ℕ}

/-- Element `t` of the infinite repetition of `l`. -/
def repeated (l : List α) (t : ℕ) : Option α := l[t % l.length]?

/-- Every element `a`, `p a` times in a row. -/
def slices (p : α → ℕ) (l : List α) : List α := l.flatMap fun a => List.replicate (p a) a

lemma slices_cons (p : α → ℕ) (a : α) (l : List α) :
    slices p (a :: l) = List.replicate (p a) a ++ slices p l := rfl

lemma slices_concat (p : α → ℕ) (a : α) (l : List α) :
    slices p (l ++ [a]) = slices p l ++ List.replicate (p a) a := by
  simp [slices]

/-- The repetition may start at any place of the list. -/
lemma repeated_append_comm (a b : List α) (t : ℕ) :
    repeated (b ++ a) t = repeated (a ++ b) (a.length + t) := by
  unfold repeated
  rw [← List.rotate_append_length_eq a b, List.length_rotate]
  rcases Nat.eq_zero_or_pos (a ++ b).length with h0 | hpos
  · have hnil := List.eq_nil_of_length_eq_zero h0
    rw [hnil]
    simp
  · rw [List.getElem?_rotate (Nat.mod_lt t hpos), Nat.mod_add_mod, Nat.add_comm t]

/-- **A round begins with the slices of its first element.** -/
theorem repeated_slices_head (l : List α) (ht : t < p a) :
    repeated (slices p (a :: l)) t = some a := by
  have hlt : t < (slices p (a :: l)).length := by
    rw [slices_cons, List.length_append, List.length_replicate]
    omega
  unfold repeated
  rw [Nat.mod_eq_of_lt hlt, slices_cons, List.getElem?_append_left (by simpa using ht)]
  simp [ht]

/-- **After the slices of the first element, the round of the rotated list follows.** -/
theorem repeated_slices_rotate (p : α → ℕ) (a : α) (l : List α) (t : ℕ) :
    repeated (slices p (l ++ [a])) t = repeated (slices p (a :: l)) (p a + t) := by
  rw [slices_concat, repeated_append_comm, List.length_replicate, slices_cons]

end MosVolca.Cyclic
