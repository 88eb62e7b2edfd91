import Mathlib.Order.Basic

/-!
# Loops with a bound on the rounds

`while (cond) body` on a state, cut off after a number of rounds: a loop that is cut off has no
result, as one whose body fails. A loop that counts up to a bound ends within that many rounds, a
loop whose invariant implies its condition never ends, and a loop that ends keeps its invariants.

## Main definitions

* `WhileLoop.runM` — the state after a loop, if it ends.
* `WhileLoop.run` — the same for a body that does not fail.

## Main results

* `WhileLoop.exists_runM`, `WhileLoop.exists_run` — a loop that counts up ends, and keeps what its
  rounds keep.
* `WhileLoop.runM_invariant`, `WhileLoop.run_invariant` — the invariant of a loop that ends.
* `WhileLoop.run_eq_none` — a loop that never ends.
-/

namespace WhileLoop

universe u

variable {σ : Type u} {c : σ → Bool} {f : σ → Option σ} {b : σ → σ} {fuel : ℕ} {s s' : σ}

/-- The state after `while (cond) body`, if it is reached within the fuel. -/
def runM (cond : σ → Bool) (body : σ → Option σ) : (fuel : ℕ) → σ → Option σ
  | 0, _ => none
  | fuel + 1, s => if cond s then (body s).bind (runM cond body fuel) else some s

/-- The state after `while (cond) body`, for a body that does not fail. -/
def run (cond : σ → Bool) (body : σ → σ) : (fuel : ℕ) → σ → Option σ :=
  runM cond fun s => some (body s)

lemma runM_of_false (h : c s = false) : runM c f (fuel + 1) s = some s := by
  rw [runM, h, if_neg Bool.false_ne_true]

lemma runM_of_true (h : c s = true) : runM c f (fuel + 1) s = (f s).bind (runM c f fuel) := by
  rw [runM, if_pos h]

lemma run_of_false (h : c s = false) : run c b (fuel + 1) s = some s := runM_of_false h

lemma run_of_true (h : c s = true) : run c b (fuel + 1) s = run c b fuel (b s) := runM_of_true h

/-- **A loop that counts up ends**: `I i s` says that the loop has come to `i` in the state `s`,
and every round goes further, but not beyond `n`. -/
theorem exists_runM {I : ℕ → σ → Prop} {n i : ℕ}
    (hstep : ∀ i s, I i s → c s = true → ∃ j s', i < j ∧ j ≤ n ∧ f s = some s' ∧ I j s')
    (h : I i s) (hi : i ≤ n) (hf : n < i + fuel) :
    ∃ j s', runM c f fuel s = some s' ∧ i ≤ j ∧ j ≤ n ∧ I j s' ∧ c s' = false := by
  induction fuel generalizing i s with
  | zero => omega
  | succ fuel ih =>
    cases hc : c s with
    | false => exact ⟨i, s, runM_of_false hc, Nat.le_refl i, hi, h, hc⟩
    | true =>
      obtain ⟨j, s₁, hij, hjn, hs₁, hj⟩ := hstep i s h hc
      obtain ⟨k, s', hrun, hjk, hk⟩ := ih hj hjn (by omega)
      refine ⟨k, s', ?_, by omega, hk⟩
      rw [runM_of_true hc, hs₁, Option.bind_some, hrun]

/-- What every round keeps is true after the loop. -/
theorem runM_invariant {I : σ → Prop}
    (hstep : ∀ s s', I s → c s = true → f s = some s' → I s') (h : I s)
    (hrun : runM c f fuel s = some s') : I s' ∧ c s' = false := by
  induction fuel generalizing s with
  | zero => cases hrun
  | succ fuel ih =>
    cases hc : c s with
    | false =>
      rw [runM_of_false hc] at hrun
      obtain rfl := Option.some.inj hrun
      exact ⟨h, hc⟩
    | true =>
      rw [runM_of_true hc, Option.bind_eq_some_iff] at hrun
      obtain ⟨s₁, hs₁, hrun⟩ := hrun
      exact ih (hstep s s₁ h hc hs₁) hrun

/-- A loop with an invariant whose index goes up and is bounded comes to an end. -/
theorem exists_run {I : ℕ → σ → Prop} {n i : ℕ}
    (hstep : ∀ i s, I i s → c s = true → ∃ j, i < j ∧ j ≤ n ∧ I j (b s))
    (h : I i s) (hi : i ≤ n) (hf : n < i + fuel) :
    ∃ j s', run c b fuel s = some s' ∧ i ≤ j ∧ j ≤ n ∧ I j s' ∧ c s' = false := by
  refine exists_runM (fun i s hs hc => ?_) h hi hf
  obtain ⟨j, hij, hjn, hj⟩ := hstep i s hs hc
  exact ⟨j, b s, hij, hjn, rfl, hj⟩

/-- An invariant holds at the end of a loop. -/
theorem run_invariant {I : σ → Prop} (hstep : ∀ s, I s → c s = true → I (b s)) (h : I s)
    (hrun : run c b fuel s = some s') : I s' ∧ c s' = false := by
  refine runM_invariant (fun s s' hs hc hb => ?_) h hrun
  obtain rfl := Option.some.inj hb
  exact hstep s hs hc

/-- A loop never ends whose rounds keep its condition true. -/
theorem run_eq_none {I : σ → Prop} (hstep : ∀ s, I s → c s = true ∧ I (b s)) (h : I s)
    (fuel : ℕ) : run c b fuel s = none := by
  by_contra hrun
  obtain ⟨s', hs'⟩ := Option.ne_none_iff_exists'.mp hrun
  obtain ⟨hI, hc⟩ := run_invariant (fun s hs _ => (hstep s hs).2) h hs'
  rw [(hstep s' hI).1] at hc
  cases hc

end WhileLoop
