import Mathlib.Data.Set.Insert
import Mathlib.Order.Basic
import Mathlib.Data.Nat.Notation

/-!
# Places that are held once

The places from `lo` up to `hi` have been handed out in their order. Some of them, `E`, nobody has taken
yet; each of the other ones is held by exactly one holder, and the holders hold nothing else.

## Main definitions

* `Custody` — who holds the places.

## Main results

* `Custody.handOut` — more places are handed out.
* `Custody.take` — a holder takes a place that nobody had.
-/

universe u

variable {H : Type u} {holds holds' : H → ℕ → Prop} {lo hi hi' b c : ℕ} {E E' : Set ℕ} {x y : H}

/-- The holders hold the places from `lo` up to `hi` that are not in `E`, each of them once. -/
structure Custody (holds : H → ℕ → Prop) (lo hi : ℕ) (E : Set ℕ) : Prop where
  bound : ∀ {x b}, holds x b → lo ≤ b ∧ b < hi ∧ b ∉ E
  once : ∀ {x y b}, holds x b → holds y b → x = y
  held : ∀ {b}, lo ≤ b → b < hi → b ∉ E → ∃ x, holds x b

namespace Custody

/-- If nothing has been handed out, nobody holds anything. -/
lemma empty (h : ∀ x b, ¬ holds x b) : Custody holds lo lo E where
  bound hx := absurd hx (h _ _)
  once hx := absurd hx (h _ _)
  held hlo hhi := absurd hhi (not_lt.mpr hlo)

/-- The custody is one of the pairs of a holder and a place. -/
lemma congr (h : Custody holds lo hi E) (hsame : ∀ x b, holds' x b ↔ holds x b) :
    Custody holds' lo hi E where
  bound hx := h.bound ((hsame _ _).mp hx)
  once hx hy := h.once ((hsame _ _).mp hx) ((hsame _ _).mp hy)
  held hlo hhi hE := by
    obtain ⟨x, hx⟩ := h.held hlo hhi hE
    exact ⟨x, (hsame x _).mpr hx⟩

/-- **More places are handed out**, and nobody has taken them yet. -/
lemma handOut (h : Custody holds lo hi E) (hle : hi ≤ hi')
    (hE : ∀ b < hi', b ∈ E' ↔ b ∈ E ∨ hi ≤ b) : Custody holds lo hi' E' where
  bound hx := by
    obtain ⟨hlo, hhi, hnot⟩ := h.bound hx
    have hlt := hhi.trans_le hle
    refine ⟨hlo, hlt, fun hmem => ?_⟩
    rcases (hE _ hlt).mp hmem with hmem | hge
    · exact hnot hmem
    · exact absurd hhi (not_lt.mpr hge)
  once := h.once
  held {b} hlo hlt hnot := by
    have hold := mt (hE b hlt).mpr hnot
    push Not at hold
    exact h.held hlo hold.2 hold.1

/-- **A holder takes a place** that nobody had. -/
lemma take (h : Custody holds lo hi E) (hlo : lo ≤ c) (hlt : c < hi) (hc : c ∈ E)
    (hx : ∀ y b, holds' y b ↔ holds y b ∨ y = x ∧ b = c) : Custody holds' lo hi (E \ {c}) where
  bound {y b} hy := by
    rcases (hx y b).mp hy with hy | ⟨-, rfl⟩
    · obtain ⟨hlo, hhi, hnot⟩ := h.bound hy
      exact ⟨hlo, hhi, fun hmem => hnot hmem.1⟩
    · exact ⟨hlo, hlt, fun hmem => hmem.2 rfl⟩
  once {y z b} hy hz := by
    rcases (hx y b).mp hy with hy | ⟨rfl, rfl⟩ <;> rcases (hx z _).mp hz with hz | ⟨rfl, hzc⟩
    · exact h.once hy hz
    · exact absurd hc (hzc ▸ (h.bound hy).2.2)
    · exact absurd hc (h.bound hz).2.2
    · rfl
  held {b} hb hhi hnot := by
    by_cases hbc : b = c
    · exact ⟨x, (hx x b).mpr (.inr ⟨rfl, hbc⟩)⟩
    · obtain ⟨y, hy⟩ := h.held hb hhi fun hmem => hnot ⟨hmem, hbc⟩
      exact ⟨y, (hx y b).mpr (.inl hy)⟩

end Custody
