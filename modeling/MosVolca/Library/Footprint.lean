import Mathlib.Order.Basic

/-!
# Statements that rest on some of the places

The places of an array of arrays are pairs of an index and a key. A statement about the contents rests
on a set of places if it stays true whatever is written to the other ones.

## Main definitions

* `Footprint.Agree` — contents that are the same at some places.
* `Footprint.Rests` — a statement that rests on some places.

## Main results

* `Footprint.Rests.agree` — the statement stays true.
* `Footprint.Rests.imp`, `Footprint.Rests.and` — what follows from it, and two statements.
-/

namespace Footprint

variable {ι κ α : Type*} {A B : ι → κ → Prop} {c c' c1 : ι → κ → α} {P Q : (ι → κ → α) → Prop}

/-- The contents are the same at the places `A`. -/
def Agree (A : ι → κ → Prop) (c c' : ι → κ → α) : Prop := ∀ i k, A i k → c' i k = c i k

/-- `P` is true of all contents that are the same at the places `A`. -/
def Rests (A : ι → κ → Prop) (P : (ι → κ → α) → Prop) (c : ι → κ → α) : Prop :=
  ∀ c', Agree A c c' → P c'

lemma Agree.trans (h : Agree A c c1) (h' : Agree A c1 c') : Agree A c c' :=
  fun i k ha => (h' i k ha).trans (h i k ha)

lemma Agree.mono (h : Agree B c c') (hab : ∀ i k, A i k → B i k) : Agree A c c' :=
  fun i k ha => h i k (hab i k ha)

namespace Rests

lemma mono (h : Rests A P c) (hab : ∀ i k, A i k → B i k) : Rests B P c :=
  fun c' hc => h c' (hc.mono hab)

/-- **The statement stays true** when other places are written. -/
theorem agree (h : Rests A P c) (hc : Agree A c c') : Rests A P c' :=
  fun c1 hc1 => h c1 (hc.trans hc1)

/-- What follows from a statement rests on the same places. -/
theorem imp (h : Rests A P c) (hpq : ∀ c', P c' → Q c') : Rests A Q c :=
  fun c' hc => hpq c' (h c' hc)

/-- Two statements. -/
theorem and (h : Rests A P c) (h' : Rests A Q c) : Rests A (fun c => P c ∧ Q c) c :=
  fun c' hc => ⟨h c' hc, h' c' hc⟩

end Rests

end Footprint
