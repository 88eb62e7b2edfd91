import Mathlib.Order.Lattice
import Mathlib.Algebra.Order.Group.Nat

/-!
# Computations in an array of bounded length

A computation that hands out the places of an array one after the other may come to the end of the
array. `Needs n beyond top Post r` says what it does if the array has length `n` and the places that the
computation uses are those below `top`: if they are all there, it returns a value with `Post`, and
otherwise it ends with an error that is `beyond`.

## Main definitions

* `Bounded.Needs` — the number of places that a computation needs.

## Main results

* `Bounded.Needs.bind` — one computation after the other needs what the two need.
* `Bounded.Needs.exists_ok` — the computation succeeds if the array is long enough.
-/

namespace Bounded

universe u v

variable {ε : Type u} {α β : Type v} {n top t : ℕ} {beyond : ε → Prop} {Post : α → Prop}
  {Post' : β → Prop} {r : Except ε α} {f : α → Except ε β} {a : α} {e : ε}

/-- One computation after the other succeeds exactly if both do. -/
lemma bind_ok_iff {b : β} : (r >>= f) = .ok b ↔ ∃ a, r = .ok a ∧ f a = .ok b := by
  constructor
  · intro h
    cases r with
    | ok a => exact ⟨a, rfl, h⟩
    | error e => cases h
  · rintro ⟨a, rfl, h⟩
    exact h

/-- The computation needs the places below `top`. -/
inductive Needs (n : ℕ) (beyond : ε → Prop) (top : ℕ) (Post : α → Prop) : Except ε α → Prop
  | ok {a : α} (h : top ≤ n) (ha : Post a) : Needs n beyond top Post (.ok a)
  | short {e : ε} (h : n < top) (he : beyond e) : Needs n beyond top Post (.error e)

namespace Needs

/-- A value needs no place. -/
lemma pure (ha : Post a) : Needs n beyond 0 Post (Pure.pure a) := .ok (Nat.zero_le n) ha

/-- What holds afterwards may be weakened. -/
lemma imp {Post₁ : α → Prop} (h : Needs n beyond top Post r) (hpost : top ≤ n → ∀ a, Post a → Post₁ a) :
    Needs n beyond top Post₁ r := by
  cases h with
  | ok htop ha => exact .ok htop (hpost htop _ ha)
  | short htop he => exact .short htop he

/-- The number of places can be written in another way. -/
lemma top_eq (h : Needs n beyond top Post r) (ht : top = t) : Needs n beyond t Post r := ht ▸ h

/-- **One computation after the other.** -/
theorem bind (h : Needs n beyond top Post r)
    (hf : top ≤ n → ∀ a, Post a → Needs n beyond t Post' (f a)) :
    Needs n beyond (max top t) Post' (r >>= f) := by
  cases h with
  | ok htop ha =>
    have hfa := hf htop _ ha
    change Needs n beyond (max top t) Post' (f _)
    generalize f _ = x at hfa
    cases hfa with
    | ok ht hb => exact .ok (max_le htop ht) hb
    | short ht he => exact .short (lt_max_of_lt_right ht) he
  | short htop he => exact .short (lt_max_of_lt_left htop) he

/-- A computation that needs no more places than the one after it. -/
theorem bind_le (h : Needs n beyond top Post r) (hle : top ≤ t)
    (hf : top ≤ n → ∀ a, Post a → Needs n beyond t Post' (f a)) :
    Needs n beyond t Post' (r >>= f) :=
  (h.bind hf).top_eq (max_eq_right hle)

/-- What holds of the value, if the array is long enough. -/
lemma exists_ok (h : Needs n beyond top Post r) (htop : top ≤ n) : ∃ a, r = .ok a ∧ Post a := by
  cases h with
  | ok _ ha => exact ⟨_, rfl, ha⟩
  | short hlt _ => exact absurd htop (not_le.mpr hlt)

/-- What holds of the value that was returned. -/
lemma post (h : Needs n beyond top Post (.ok a)) : Post a := by
  cases h with
  | ok _ ha => exact ha

/-- The error, if the array is too short. -/
lemma exists_error (h : Needs n beyond top Post r) (htop : n < top) : ∃ e, r = .error e ∧ beyond e := by
  cases h with
  | ok hle _ => exact absurd hle (not_le.mpr htop)
  | short _ he => exact ⟨_, rfl, he⟩

end Needs

end Bounded
