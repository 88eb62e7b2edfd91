import Mathlib.Logic.Basic

/-!
# How a computation ends

A computation that can fail ends well if its result has a property, or if it stops with an error of
an expected kind. One rule for each way to put computations together carries this through a program.

## Main definitions

* `Outcome.Ends` — the result has the property, or the error is of the kind.

## Main results

* `Outcome.Ends.bind`, `Outcome.Ends.foldlM` — the rules for sequences and for loops.
-/

namespace Outcome

variable {ε α β : Type} {E : ε → Prop} {P Q : α → Prop} {R : β → Prop} {x : Except ε α}
  {f : α → Except ε β}

/-- The result has the property, or the computation stops with an error of the kind. -/
def Ends (E : ε → Prop) (P : α → Prop) : Except ε α → Prop
  | .ok a => P a
  | .error e => E e

lemma Ends.mono (h : Ends E P x) (hpq : ∀ a, P a → Q a) : Ends E Q x := by
  cases x with
  | ok a => exact hpq a h
  | error e => exact h

/-- **One computation after another**: the second may use what the first has returned. -/
lemma Ends.bind (h : Ends E P x) (hf : ∀ a, x = .ok a → P a → Ends E R (f a)) :
    Ends E R (x >>= f) := by
  cases x with
  | ok a => exact hf a rfl h
  | error e => exact h

/-- **A loop** with an invariant. -/
lemma Ends.foldlM {step : β → α → Except ε β} {init : β} {l : List α} (h0 : R init)
    (hstep : ∀ b a, R b → Ends E R (step b a)) : Ends E R (l.foldlM step init) := by
  induction l generalizing init with
  | nil => exact h0
  | cons a l ih =>
    rw [List.foldlM_cons]
    exact (hstep init a h0).bind fun b _ hb => ih hb

end Outcome
