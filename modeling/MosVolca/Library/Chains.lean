import Mathlib.Data.Set.Card
import Mathlib.Logic.Relation

/-!
# Chains

A partial function leads from every element to at most one other. The chain from an element goes on
until the function has no value. Where it comes to finitely many elements only, it ends unless it
comes to an element that leads back to itself.

## Main definitions

* `Chain.Leads`, `Chain.Ends`, `Chain.Loops` — the chain comes to an element, ends, or goes in a
  circle.

## Main results

* `Chain.ends_iff` — a chain through finitely many elements ends exactly if it does not loop.
-/

namespace Chain

variable {α : Type*} {next : α → Option α} {a b c : α}

/-- One step of a chain. -/
def Leads (next : α → Option α) (a b : α) : Prop := next a = some b

/-- The chain from `a` ends. -/
inductive Ends (next : α → Option α) : α → Prop
  | stop {a : α} (h : next a = none) : Ends next a
  | step {a b : α} (h : Leads next a b) (hb : Ends next b) : Ends next a

/-- The chain from `a` comes to an element that leads back to itself. -/
def Loops (next : α → Option α) (a : α) : Prop :=
  ∃ b, Relation.ReflTransGen (Leads next) a b ∧ Relation.TransGen (Leads next) b b

lemma Leads.unique (h : Leads next a b) (h' : Leads next a c) : b = c :=
  Option.some.inj (h.symm.trans h')

/-- A chain that loops still does after one step. -/
lemma Loops.tail (h : Loops next a) (hab : Leads next a b) : Loops next b := by
  obtain ⟨d, had, hd⟩ := h
  rcases had.cases_head with rfl | ⟨b', hab', hbd⟩
  · -- the circle goes through `a`, so it goes through `b`
    obtain ⟨b', hab', hba⟩ := Relation.TransGen.head'_iff.mp hd
    obtain rfl := hab.unique hab'
    exact ⟨b, .refl, Relation.TransGen.tail' hba hab⟩
  · obtain rfl := hab.unique hab'
    exact ⟨d, hbd, hd⟩

/-- A chain that loops does not end. -/
lemma Ends.not_loops (h : Ends next a) : ¬ Loops next a := by
  induction h with
  | stop h =>
    rintro ⟨d, had, hd⟩
    rcases had.cases_head with rfl | ⟨b, hab, -⟩
    · obtain ⟨b, hab, -⟩ := Relation.TransGen.head'_iff.mp hd
      exact Option.some_ne_none b (hab.symm.trans h)
    · exact Option.some_ne_none b (hab.symm.trans h)
  | step hab _ ih => exact fun hl => ih (hl.tail hab)

/-- A chain through a finite set ends or loops. -/
lemma ends_of_finite {S : Set α} (hS : S.Finite)
    (hsub : ∀ b, Relation.ReflTransGen (Leads next) a b → b ∈ S) (hl : ¬ Loops next a) :
    Ends next a := by
  induction hn : S.ncard using Nat.strong_induction_on generalizing a S with
  | _ n ih =>
    cases hnext : next a with
    | none => exact .stop hnext
    | some b =>
      have hab : Leads next a b := hnext
      refine .step hab (ih (S \ {a}).ncard ?_ (hS.sdiff) (fun d hbd => ⟨?_, ?_⟩) ?_ rfl)
      · rw [← hn]
        exact Set.ncard_sdiff_singleton_lt_of_mem (hsub a .refl) hS
      · exact hsub d (.head hab hbd)
      · -- the chain does not come back to `a`
        rintro rfl
        exact hl ⟨d, .refl, Relation.TransGen.head' hab hbd⟩
      · rintro ⟨d, hbd, hd⟩
        exact hl ⟨d, .head hab hbd, hd⟩

/-- **A chain through finitely many elements ends exactly if it does not loop.** -/
theorem ends_iff {S : Set α} (hS : S.Finite)
    (hsub : ∀ b, Relation.ReflTransGen (Leads next) a b → b ∈ S) :
    Ends next a ↔ ¬ Loops next a :=
  ⟨fun h => h.not_loops, ends_of_finite hS hsub⟩

end Chain
