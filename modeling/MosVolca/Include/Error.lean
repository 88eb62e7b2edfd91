import Mathlib.Data.BitVec

/-!
# Error codes and halting

The error codes of `include/error.h`, and the result type of a kernel function: it returns a
value, or the kernel stops in a `panic` (with its message) or by an access through a null
pointer.

## Main definitions

* `MosVolca.Halt`, `MosVolca.Kernel` — the ways a kernel function does not return, and the results
  of kernel functions.

## Main results

* `MosVolca.bind_eq_ok` — a sequence returns exactly when both of its parts do.
* `MosVolca.foldlM_invariant` — the invariant of a loop.
-/

namespace MosVolca

def eBadEnv : BitVec 32 := 2
def eInval : BitVec 32 := 3
def eNoMem : BitVec 32 := 4
def eNoSys : BitVec 32 := 5
def eNoFreeEnv : BitVec 32 := 6
def eIpcNotRecv : BitVec 32 := 7
def eNoDisk : BitVec 32 := 8
def eMaxOpen : BitVec 32 := 9
def eNotFound : BitVec 32 := 10
def eBadPath : BitVec 32 := 11
def eFileExists : BitVec 32 := 12

/-- Why a kernel function does not return. -/
inductive Halt
  /-- `panic`, a failed `assert` or `panic_on`, with the message. -/
  | panic (msg : String)
  /-- An access through a null pointer, where the model ends. It goes to address 0 of the current address
  space: the refill handler panics there, unless a page is mapped. -/
  | nullAccess
  deriving DecidableEq, Repr

/-- The result of a kernel function. -/
abbrev Kernel (α : Type) := Except Halt α

variable {α β : Type}

@[simp] lemma ok_bind (a : α) (f : α → Kernel β) : (Except.ok a >>= f : Kernel β) = f a := rfl

@[simp] lemma error_bind (e : Halt) (f : α → Kernel β) :
    (Except.error e >>= f : Kernel β) = Except.error e := rfl

@[simp] lemma pure_eq_ok (a : α) : (pure a : Kernel α) = Except.ok a := rfl

@[simp] lemma throw_eq_error (e : Halt) : (throw e : Kernel α) = Except.error e := rfl

/-- A sequence of two kernel steps returns exactly when both do. -/
lemma bind_eq_ok {x : Kernel α} {f : α → Kernel β} {b : β} :
    (x >>= f) = Except.ok b ↔ ∃ a, x = Except.ok a ∧ f a = Except.ok b := by
  cases x <;> simp

/-- The values that a step returns. -/
lemma pure_pair_inj {a a' : α} {b b' : β} (h : (pure (a, b) : Kernel (α × β)) = Except.ok (a', b')) :
    a = a' ∧ b = b' := Prod.mk.inj (Except.ok.inj h)

/-- What every round of a loop preserves, the loop preserves. -/
lemma foldlM_invariant {f : β → α → Kernel β} {P : β → Prop} {l : List α} {b b' : β}
    (hstep : ∀ a ∈ l, ∀ b b', P b → f b a = .ok b' → P b') (hb : P b)
    (h : l.foldlM f b = .ok b') : P b' := by
  induction l generalizing b with
  | nil =>
    simp only [List.foldlM_nil, pure_eq_ok, Except.ok.injEq] at h
    exact h ▸ hb
  | cons a l ih =>
    rw [List.foldlM_cons, bind_eq_ok] at h
    obtain ⟨b1, h1, h⟩ := h
    exact ih (fun a' ha' => hstep a' (List.mem_cons_of_mem a ha'))
      (hstep a List.mem_cons_self b b1 hb h1) h

/-- A loop over indices returns if every round does, and what the rounds establish one after the
other holds at the end. -/
lemma foldlM_range_returns {f : β → ℕ → Kernel β} {P : ℕ → β → Prop} {n : ℕ} {b : β}
    (hstep : ∀ i < n, ∀ b, P i b → ∃ b', f b i = .ok b' ∧ P (i + 1) b') (hb : P 0 b) :
    ∃ b', (List.range n).foldlM f b = .ok b' ∧ P n b' := by
  induction n with
  | zero => exact ⟨b, rfl, hb⟩
  | succ n ih =>
    obtain ⟨b1, h1, hP⟩ := ih fun i hi => hstep i (hi.trans n.lt_succ_self)
    obtain ⟨b2, h2, hP'⟩ := hstep n n.lt_succ_self b1 hP
    refine ⟨b2, ?_, hP'⟩
    rw [List.range_succ, List.foldlM_append, h1, ok_bind, List.foldlM_cons, h2, ok_bind]
    rfl

end MosVolca
