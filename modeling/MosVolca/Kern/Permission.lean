import MosVolca.Kern.Ipc
import MosVolca.Kern.Spaces

/-!
# Permission arguments

The system calls that map a page hand the permission argument of the user to `page_insert`
unmasked, and `page_insert` joins it with the address of the page. This file says for which
arguments the entry still points to the page that was meant.

## Main definitions

* `MosVolca.Intended` — the page that a system call should map, and where.
* `MosVolca.FrameInstalled` — the entry points to that page, and `page_lookup` finds it.

## Main results

* `MosVolca.frame_installed_iff` — when a successful call has installed the intended page and kept
  the page accounting.
-/

namespace MosVolca

open TwoLevel

variable {M : Machine} {k k' : Kern} {s s' : PhysMem} {D K H : Finset ℕ} {d pp : ℕ} {e : EnvPtr}
  {a : Entry} {asid va perm : Word}

/-- The entry `a` should map the page `pp` at `va` in the environment `e`. -/
inductive Intended (M : Machine) (k : Kern) : Entry → EnvPtr → Word → ℕ → Word → Prop
  /-- The page that `page_alloc` returns. -/
  | memAlloc {envid va perm : Word} {e : EnvPtr} {pp : ℕ} {pm : PhysMem}
      (he : envid2env k envid true = .ok (.ok (some e)))
      (hp : pageAlloc M k.pm = .ok (.ok pp, pm)) :
      Intended M k (.memAlloc envid va perm) e va pp perm
  /-- The page that `page_lookup` finds at `srcva`. -/
  | memMap {srcid srcva dstid dstva perm : Word} {src dst : EnvPtr} {pp : ℕ} {pte : PtePtr}
      (hs : envid2env k srcid true = .ok (.ok (some src)))
      (hd : envid2env k dstid true = .ok (.ok (some dst)))
      (hp : pageLookup M k.pm (k.envs src).pgdir srcva = .ok (some (pp, pte))) :
      Intended M k (.memMap srcid srcva dstid dstva perm) dst dstva pp perm
  /-- The page that `page_lookup` finds at `srcva`, if a page is sent. -/
  | ipcTrySend {envid value srcva perm : Word} {e cur : EnvPtr} {pp : ℕ} {pte : PtePtr}
      (h0 : srcva ≠ 0) (he : envid2env k envid false = .ok (.ok (some e)))
      (hc : k.curenv = some cur)
      (hp : pageLookup M k.pm (k.envs cur).pgdir srcva = .ok (some (pp, pte))) :
      Intended M k (.ipcTrySend envid value srcva perm) e (k.envs e).ipcDstva pp perm

/-- The entry for `va` points to the page `pp`, and `page_lookup` finds that page. -/
structure FrameInstalled (M : Machine) (s : PhysMem) (d : ℕ) (va : Word) (pp : ℕ) : Prop where
  entry : (translate s d va).map ppn = some pp
  lookup : ∃ pte, pageLookup M s d va = .ok (some (pp, pte))

/-- The permission argument adds no bit to the page number. -/
def KeepsFrame (pp : ℕ) (perm : Word) : Prop := pp ||| ppn perm = pp

instance (pp : ℕ) (perm : Word) : Decidable (KeepsFrame pp perm) :=
  inferInstanceAs (Decidable (_ = _))

/-- The page is already mapped at `va`, or it can take one more reference. -/
def RoomForRef (s : PhysMem) (D : Finset ℕ) (d : ℕ) (va : Word) (pp : ℕ) : Prop :=
  (translate s d va).map ppn = some pp ∨ pageRefs s D pp + 1 < 2 ^ 16

/-- `page_insert` has installed the page and kept the invariant exactly when the argument adds no
bit to the page number and the page could take the reference. -/
lemma PageAccounting.frameInstalled_iff (h : PageAccounting M s D K H) (hd : d ∈ D)
    (hi : pdx va < pdx utop) (hins : Insertable M (pdx utop) s D K pp) (hge : M.bootPages ≤ pp)
    (hr : MosVolca.pageInsert M s d asid pp va perm = .ok (0, s')) :
    (FrameInstalled M s' d va pp ∧ PageAccounting M s' D K (H.erase pp)) ↔
      KeepsFrame pp perm ∧ RoomForRef s D d va pp := by
  have hlt : pp < 2 ^ 20 := hins.lt.trans M.npage_lt
  have htr : translate s' d va = some (mkPte pp perm) := by
    rw [h.translate_pageInsert hd hi hr hd hi, if_pos ⟨rfl, rfl⟩]
  have hfr : ppn (mkPte pp perm) = pp ↔ KeepsFrame pp perm := by
    rw [ppn_mkPte hlt, KeepsFrame]
  constructor
  · rintro ⟨hf, h'⟩
    have hkeep : ppn (mkPte pp perm) = pp := by
      have := hf.entry
      rwa [htr, Option.map_some, Option.some.injEq] at this
    refine ⟨hfr.mp hkeep, ?_⟩
    by_contra hno
    obtain ⟨hmap, hfull⟩ := not_or.mp hno
    -- the count goes to 2^16
    obtain ⟨-, hself, -⟩ := h.afterInsert hd hi hins hge hkeep
      (fun w hw _ => (h.bounded _ (h.tracked_of_translate hd hi hw)).le) hr
    rw [if_neg hmap] at hself
    have hb : pageRefs s' D pp < 2 ^ 16 := h'.bounded pp ⟨hge, hins.lt⟩
    omega
  · rintro ⟨hkeep, hroom⟩
    have h' := h.pageInsert hd hi hins hge (hfr.mpr hkeep) hroom hr
    refine ⟨⟨?_, ?_⟩, h'⟩
    · rw [htr, Option.map_some, hfr.mpr hkeep]
    · rw [h'.pageLookup_eq hd hi, htr, Option.map_some, hfr.mpr hkeep]
      exact ⟨_, rfl⟩

/-- A page found by `page_lookup` may be inserted. -/
lemma PageAccounting.insertable_of_lookup {pte : PtePtr} (h : PageAccounting M s D K H)
    (hd : d ∈ D) (hi : pdx va < pdx utop) (hl : pageLookup M s d va = .ok (some (pp, pte))) :
    Insertable M (pdx utop) s D K pp ∧ M.bootPages ≤ pp := by
  rw [h.pageLookup_eq hd hi] at hl
  simp only [Except.ok.injEq, Option.map_eq_some_iff, Prod.mk.injEq] at hl
  obtain ⟨w, hw, rfl, -⟩ := hl
  exact ⟨h.insertable_of_leaf (leaf_of_translate hd hi hw), (h.tracked_of_translate hd hi hw).1⟩

/-- **Permission arguments and frames.** When a system call that maps a page returns 0, the entry
points to the intended page and the page accounting holds, if and only if the permission argument
adds no bit to the page number and the page has room for another reference. -/
theorem frame_installed_iff (h : KernAccounting M k D K) (hp : Intended M k a e va pp perm)
    (hr : enter M k a = .ok (some 0, k')) :
    (FrameInstalled M k'.pm (k.envs e).pgdir va pp ∧ PageAccounting M k'.pm D K ∅) ↔
      KeepsFrame pp perm ∧ RoomForRef k.pm D (k.envs e).pgdir va pp := by
  have herase : (∅ : Finset ℕ).erase pp = ∅ := Finset.erase_empty pp
  have hret : ∀ {x : Kernel (Word × Kern)}, returning x = .ok (some 0, k') → x = .ok (0, k') := by
    intro x hx
    obtain ⟨⟨r, k1⟩, hx, h1⟩ := bind_eq_ok.mp hx
    simp only [pure_eq_ok, Except.ok.injEq, Prod.mk.injEq, Option.some.injEq] at h1
    rw [hx, h1.1, h1.2]
  cases hp with
  | @memAlloc envid va perm e pp pm he hp =>
    rcases sysMemAlloc_cases (hret hr) with ⟨h0, -⟩ | ⟨e', pp', pm1, pm', hva, he', hp', hins, rfl⟩
    · exact absurd rfl h0
    rw [hp] at hp'
    simp only [Except.ok.injEq, Prod.mk.injEq] at hp'
    obtain ⟨rfl, rfl⟩ := hp'
    rw [he] at he'
    simp only [Except.ok.injEq, Option.some.injEq] at he'
    subst he'
    have hd := h.dir_mem he
    have hi := pdx_of_legal hva
    obtain ⟨h1, ⟨rest, hf⟩, htr⟩ := h.pages.pageAlloc hp
    have hfree := h.pages.head_free hf
    have hroom : ∀ s : PhysMem, pageRefs s D pp = 0 → RoomForRef s D (k.envs e).pgdir va pp :=
      fun s h0 => Or.inr (by rw [h0]; decide)
    have hheld := h1.held pp (Finset.mem_insert_self pp ∅)
    rw [← (show (insert pp (∅ : Finset ℕ)).erase pp = ∅ by simp),
      h1.frameInstalled_iff hd hi (h1.insertable_of_held (Finset.mem_insert_self pp ∅))
        hheld.1.1 hins]
    exact and_congr_right fun _ => iff_of_true (hroom _ hheld.2.2) (hroom _ hfree.2.2.2)
  | @memMap srcid srcva dstid dstva perm src dst pp pte hs hd hp =>
    rcases sysMemMap_cases (hret hr) with
      ⟨h0, -⟩ | ⟨src', dst', pp', pte', pm', hsva, hdva, hs', hd', hp', hins, rfl⟩
    · exact absurd rfl h0
    rw [hs] at hs'
    rw [hd] at hd'
    simp only [Except.ok.injEq, Option.some.injEq] at hs' hd'
    subst hs' hd'
    rw [hp] at hp'
    simp only [Except.ok.injEq, Option.some.injEq, Prod.mk.injEq] at hp'
    obtain ⟨rfl, -⟩ := hp'
    obtain ⟨hi1, hge⟩ := h.pages.insertable_of_lookup (h.dir_mem hs) (pdx_of_legal hsva) hp
    have := h.pages.frameInstalled_iff (h.dir_mem hd) (pdx_of_legal hdva) hi1 hge hins
    rwa [herase] at this
  | @ipcTrySend envid value srcva perm e cur pp pte h0 he hc hp =>
    rcases sysIpcTrySend_cases (hret hr) with
      ⟨-, ⟨-, -, hr0⟩ | ⟨-, hr0⟩ | ⟨-, -, -, hr0⟩⟩ | ⟨e', cur', q, hva, he', hrecv, hc', -, hk⟩
    · exact absurd hr0 (by decide)
    · exact absurd hr0 (by decide)
    · exact absurd hr0 (by decide)
    rw [he] at he'
    simp only [Except.ok.injEq, Option.some.injEq] at he'
    subst he'
    obtain rfl : cur = cur' := Option.some.inj (hc.symm.trans hc')
    rcases hk with ⟨hz, -⟩ | ⟨-, hr0, -⟩ | ⟨pp', pte', pm', -, hp', hins, rfl⟩
    · exact absurd hz h0
    · exact absurd hr0 (by decide)
    rw [hp] at hp'
    simp only [Except.ok.injEq, Option.some.injEq, Prod.mk.injEq] at hp'
    obtain ⟨rfl, -⟩ := hp'
    have hcur : (k.envs cur).pgdir ∈ D := h.dir cur (h.cur cur hc)
    obtain ⟨hi1, hge⟩ := h.pages.insertable_of_lookup hcur
      (pdx_of_legal (hva.resolve_left h0)) hp
    have := h.pages.frameInstalled_iff (h.dir_mem he) (pdx_lt_of_lt_utop (h.dstva e hrecv)) hi1 hge
      hins
    rwa [herase] at this

/-- The two environments of `pairKern` have accounted address spaces. -/
lemma pairKern_accounting : KernAccounting smallMachine pairKern {0, 1} ∅ where
  pages := accounting_pageInit smallMem_eq (by decide) fun _ _ _ _ => pteValid_zero
  dir e he := by
    unfold pairKern at he ⊢
    simp only at he ⊢
    split_ifs <;> decide
  cur e he := by
    simp only [pairKern, Option.some.injEq] at he
    subst he
    decide
  dstva e he := by
    refine absurd ?_ he
    exact pairKern_start.idle e

/-- The first environment allocates a page with permission `PTE_D`. -/
theorem frame_installed_alloc : ∃ k',
    enter smallMachine pairKern (.memAlloc 0 0x400000#32 pteD) = .ok (some 0, k') ∧
      FrameInstalled smallMachine k'.pm 0 0x400000#32 7 ∧
      PageAccounting smallMachine k'.pm {0, 1} ∅ ∅ := by
  have hcall : ∃ k',
      enter smallMachine pairKern (.memAlloc 0 0x400000#32 pteD) = .ok (some 0, k') := ⟨_, rfl⟩
  obtain ⟨k', hk⟩ := hcall
  refine ⟨k', hk, (frame_installed_iff (e := 0) pairKern_accounting (.memAlloc rfl rfl) hk).mpr ?_⟩
  refine ⟨by decide, Or.inr ?_⟩
  have h0 := (pairKern_accounting.pages.head_free (q := 7) rfl).2.2.2
  exact (congrArg (· + 1) h0).trans_lt (by decide)

/-- The permission argument `0x8000` makes the entry point to page 15, not to the new page 7. -/
theorem frame_not_installed :
    ¬ ∀ (M : Machine) (k : Kern) (D K : Finset ℕ) (a : Entry) (e : EnvPtr) (va : Word) (pp : ℕ)
      (perm : Word) (k' : Kern), KernAccounting M k D K → Intended M k a e va pp perm →
        enter M k a = .ok (some 0, k') →
          FrameInstalled M k'.pm (k.envs e).pgdir va pp ∧ PageAccounting M k'.pm D K ∅ := by
  intro h
  have hcall : ∃ k', enter smallMachine pairKern (.memAlloc 0 0x400000#32 0x8000#32) =
      .ok (some 0, k') ∧ (translate k'.pm 0 0x400000#32).map ppn = some 15 := ⟨_, rfl, rfl⟩
  obtain ⟨k', hk, h15⟩ := hcall
  have hentry := (h _ _ _ _ _ 0 _ _ _ _ pairKern_accounting (.memAlloc rfl rfl) hk).1.entry
  change (translate k'.pm 0 0x400000#32).map ppn = some 7 at hentry
  rw [h15] at hentry
  exact absurd hentry (by decide)

end MosVolca
