import MosVolca.Kern.DemandPaging
import MosVolca.Kern.Entry

/-!
# Page faults in runs of the kernel

Between two kernel entries the current environment runs; when the TLB has no entry for an address
that it uses, `do_tlb_refill` writes one, after `passive_alloc` has mapped a page there if none was.
The TLB may lose entries at any time, as a refill takes the place of a random one.

## Main definitions

* `MosVolca.Event`, `MosVolca.Happens` — what can happen, and what it does to the kernel.
* `MosVolca.EventRun` — a run of events, indexed by time.

## Main results

* `MosVolca.refill_cases` — what a refill does at an address that is mapped or below `UTOP`.
-/

namespace MosVolca

open TwoLevel

/-- What can happen. -/
inductive Event
  | entry (a : Entry)
  /-- The current environment misses the page of `va` in the TLB. -/
  | refill (va : Word)
  /-- The TLB loses the entry of an identifier and a virtual page number. -/
  | drop (asid vpn : ℕ)

/-- The entry of an identifier and a virtual page number is dropped. -/
def PhysMem.tlbDrop (s : PhysMem) (asid vpn : ℕ) : PhysMem :=
  { s with tlb := Function.update s.tlb asid (Function.update (s.tlb asid) vpn none) }

/-- What an event does. An entry is made with some registers; `EntryHi` has the identifier of the
current environment. -/
inductive Happens (M : Machine) (k : Kern) : Event → Kern → Prop
  | entry {a : Entry} {tf : Trapframe} {r : Option Word} {k' : Kern}
      (h : enter M (k.trap tf) a = .ok (r, k')) : Happens M k (.entry a) k'
  | refill {e : EnvPtr} {va w : Word} {s : PhysMem} (hc : k.curenv = some e)
      (h : RefillsTo M k.pm k.curPgdir va (k.envs e).asid (.ok (w, s))) :
      Happens M k (.refill va) { k with pm := s.tlbWrite (k.envs e).asid va w }
  | drop {asid vpn : ℕ} : Happens M k (.drop asid vpn) { k with pm := k.pm.tlbDrop asid vpn }

/-- A run of `n` events: the states and the events. -/
def EventRun (M : Machine) (n : ℕ) (σ : ℕ → Kern) (ev : ℕ → Event) : Prop :=
  ∀ t < n, Happens M (σ t) (ev t) (σ (t + 1))

variable {M : Machine} {k k' : Kern} {s s' : PhysMem} {D K : Finset ℕ} {d : ℕ} {va asid w : Word}
  {n : ℕ} {σ : ℕ → Kern} {act : ℕ → Entry} {res : ℕ → Option Word}

/-- The accounts do not depend on the TLB. -/
lemma PageAccounting.tlb {H : Finset ℕ} (h : PageAccounting M s D K H)
    (tlb' : ℕ → ℕ → Option Word) : PageAccounting M { s with tlb := tlb' } D K H :=
  ⟨⟨h.toAccounting.tlb tlb', h.leaf_ge⟩, h.bounded⟩

/-! ## One refill -/

/-- A refill of a mapped page changes nothing. -/
lemma refill_mapped (hm : translate s d va ≠ none)
    (hr : RefillsTo M s d va asid (.ok (w, s'))) : s' = s ∧ translate s d va = some w := by
  rcases hl : pageLookup M s d va with halt | _ | ⟨pp, pte⟩
  · have := hr.unique (refillsTo_panic (Or.inl hl))
    simp at this
  · rcases pageLookup_cases hl with ⟨-, hn⟩ | ⟨h0, -⟩
    · exact absurd (translate_eq_none_iff.mpr fun hv => (hn hv).2) hm
    · simp at h0
  · have h := hr.unique (refillsTo_mapped asid hl)
    rcases pageLookup_cases hl with ⟨h0, -⟩ | ⟨ho, hv, -, hw, -⟩
    · simp at h0
    · simp only [Option.some.injEq, Prod.mk.injEq] at ho
      simp only [Except.ok.injEq, Prod.mk.injEq, ho] at h
      exact ⟨h.2, translate_eq_some_iff.mpr ⟨hv, h.1.symm, h.1.symm ▸ hw⟩⟩

/-- **A refill** at an address that is mapped or below `UTOP`: the entry is there, or a new page is
mapped for it. -/
theorem refill_cases (h : UserAccounting M s D K ∅) (hd : d ∈ D)
    (hva : va < utop ∨ translate s d va ≠ none) (hr : RefillsTo M s d va asid (.ok (w, s'))) :
    (s' = s ∧ translate s d va = some w) ∨
      (va < utop ∧ translate s d va = none ∧ ∃ q s1, w = mkPte q pteD ∧
        pageAlloc M s = .ok (.ok q, s1) ∧
        pageInsert M s1 d asid q (pteAddr va) pteD = .ok (0, s')) := by
  by_cases hm : translate s d va = none
  swap
  · exact Or.inl (refill_mapped hm hr)
  have hva : va < utop := hva.resolve_right (not_not.mpr hm)
  have hi := pdx_lt_of_lt_utop hva
  have hnopanic : ¬ ∃ halt, passiveAlloc M s va d asid = .error halt := fun hp => by
    obtain ⟨halt, hr'⟩ := refillsTo_of_panic hm hp
    have := hr.unique hr'
    simp at this
  have hx : ¬ Excluded va := fun hx => hnopanic (passiveAlloc_excluded hx)
  have hl : pageLookup M s d va = .ok none := by
    rw [h.pageLookup_eq hd hi, hm]
    rfl
  rcases hf : s.pageFreeList with _ | ⟨q, rest⟩
  · exact absurd (passiveAlloc_nil hf) hnopanic
  have hq := (h.head_free hf).1.2
  rcases insert_page h hd asid hva hm hf with ⟨-, -, s1, hins⟩ | ⟨-, s1, hins, h1, htr, -⟩
  · have hpassive : passiveAlloc M s va d asid = .error
        (.panic "'page_insert(pgdir, asid, p, PTE_ADDR(va), PTE_D)' returned") := by
      rw [passiveAlloc_cons hx hf hq, hins, ok_bind]
      rfl
    exact absurd ⟨_, hpassive⟩ hnopanic
  have hpassive : passiveAlloc M s va d asid = .ok s1 := by
    rw [passiveAlloc_cons hx hf hq, hins, ok_bind]
    rfl
  have ht : translate s1 d va = some (mkPte q pteD) := by rw [htr va hi, if_pos rfl]
  have hl1 := h1.pageLookup_eq hd hi
  rw [ht] at hl1
  have heq := hr.unique (refillsTo_alloc hl hpassive hl1)
  simp only [Except.ok.injEq, Prod.mk.injEq] at heq
  refine Or.inr ⟨hva, hm, q, _, ?_, pageAlloc_cons hf hq, heq.2 ▸ hins⟩
  rw [heq.1]
  exact (translate_eq_some_iff.mp ht).2.1

end MosVolca
