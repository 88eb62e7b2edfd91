import MosVolca.Library.Sums

/-!
# Two-level tables in a store of pages

A store is a family of pages, each a family of words. Some pages are *directories*: the valid
words in their owned slots point to *table* pages, whose valid words point to pages in turn (the
*leaves*). This file counts the references to a page that a set of directories makes, and says
how the counts and the lookups change when one word is written.

Nothing here depends on what a word is: a `Shape` says which words are valid, which page a word
points to, how many slots a table has, and how many slots of a directory are owned (the others
may hold anything).

## Main definitions

* `TwoLevel.write`, `TwoLevel.fill` — the store with one word, or one whole page, replaced.
* `TwoLevel.Shape.refCount` — the number of references to a page: one if it is a directory, one
  for each owned directory slot and one for each table slot that points to it.
* `TwoLevel.Shape.Node`, `TwoLevel.Shape.Leaf` — the pages that are directories or tables, and
  the pages that tables point to.
* `TwoLevel.Shape.Owned` — every directory and every table has exactly one reference.
* `TwoLevel.Shape.lookup` — the word reached through a directory slot and a table slot.

## Main results

* `TwoLevel.Shape.refCount_write_table`, `TwoLevel.Shape.refCount_write_dir` — the counts after
  writing a table slot or a directory slot.
* `TwoLevel.Shape.Owned.not_node_of_leaf`, `TwoLevel.Shape.Owned.table_inj` — in an owned store
  leaves are neither tables nor directories, and no two slots share a table.
* `TwoLevel.Shape.lookup_write_table` — writing a table slot changes the lookup of that slot only.
-/

namespace TwoLevel

/-- A store: the words of every page. -/
abbrev Store (ω : Type*) := ℕ → ℕ → ω

variable {ω : Type*}

/-- The store `m` with word `i` of page `p` replaced by `w`. -/
def write (m : Store ω) (p i : ℕ) (w : ω) : Store ω := fun q j =>
  if q = p ∧ j = i then w else m q j

/-- The store `m` with every word of page `p` replaced by `z`. -/
def fill (m : Store ω) (p : ℕ) (z : ω) : Store ω := fun q j => if q = p then z else m q j

/-- A write is read back. -/
@[simp] lemma write_same (m : Store ω) (p i : ℕ) (w : ω) : write m p i w p i = w := by
  simp [write]

/-- A write leaves the other words. -/
lemma write_of_ne {m : Store ω} {p i q j : ℕ} {w : ω} (h : q ≠ p ∨ j ≠ i) :
    write m p i w q j = m q j := by
  unfold write
  rw [if_neg]
  rintro ⟨rfl, rfl⟩
  exact h.elim (fun h => h rfl) fun h => h rfl

/-- A write leaves the other pages. -/
lemma write_of_ne_page {m : Store ω} {p i q j : ℕ} {w : ω} (h : q ≠ p) :
    write m p i w q j = m q j := write_of_ne (Or.inl h)

lemma write_of_ne_slot {m : Store ω} {p i q j : ℕ} {w : ω} (h : j ≠ i) :
    write m p i w q j = m q j := write_of_ne (Or.inr h)

@[simp] lemma fill_same (m : Store ω) (p : ℕ) (z : ω) (j : ℕ) : fill m p z p j = z := by
  simp [fill]

/-- The other pages stay. -/
lemma fill_of_ne {m : Store ω} {p q j : ℕ} {z : ω} (h : q ≠ p) : fill m p z q j = m q j := by
  simp [fill, h]

/-- How the words of a store are read as table entries. -/
structure Shape (ω : Type*) where
  /-- The words that point to a page. -/
  valid : ω → Bool
  /-- The page a word points to. -/
  frame : ω → ℕ
  /-- The number of slots of a table. -/
  slots : ℕ
  /-- The number of slots of a directory that own the table they point to. -/
  owned : ℕ

namespace Shape

variable (T : Shape ω)

/-! ## Reference counts -/

/-- The references of one word to page `p`. -/
def ref (w : ω) (p : ℕ) : ℕ := if T.valid w = true ∧ T.frame w = p then 1 else 0

/-- The references of the words of the table `t` to page `p`. -/
def tableRefs (m : Store ω) (t p : ℕ) : ℕ := ∑ j ∈ Finset.range T.slots, T.ref (m t j) p

/-- The references made through slot `i` of the directory `d`: by the slot itself and, if it is
valid, by the table it points to. -/
def slotRefs (m : Store ω) (d p i : ℕ) : ℕ :=
  T.ref (m d i) p + if T.valid (m d i) = true then T.tableRefs m (T.frame (m d i)) p else 0

/-- The references made by the directory `d`: one to its own page and those of its owned
slots. -/
def dirRefs (m : Store ω) (p d : ℕ) : ℕ :=
  (if d = p then 1 else 0) + ∑ i ∈ Finset.range T.owned, T.slotRefs m d p i

/-- The number of references to page `p` by the directories `D`. -/
def refCount (m : Store ω) (D : Finset ℕ) (p : ℕ) : ℕ := ∑ d ∈ D, T.dirRefs m p d

/-- The pages that are directories, or tables of an owned directory slot. -/
def Node (m : Store ω) (D : Finset ℕ) (p : ℕ) : Prop :=
  p ∈ D ∨ ∃ d ∈ D, ∃ i < T.owned, T.valid (m d i) = true ∧ T.frame (m d i) = p

/-- The pages that a table of an owned directory slot points to. -/
def Leaf (m : Store ω) (D : Finset ℕ) (p : ℕ) : Prop :=
  ∃ d ∈ D, ∃ i < T.owned, T.valid (m d i) = true ∧
    ∃ j < T.slots, T.valid (m (T.frame (m d i)) j) = true ∧ T.frame (m (T.frame (m d i)) j) = p

/-- Every directory and every table has exactly one reference. -/
def Owned (m : Store ω) (D : Finset ℕ) : Prop := ∀ p, T.Node m D p → T.refCount m D p = 1

/-- The word reached through slot `i` of the directory `d` and slot `j` of its table. -/
def lookup (m : Store ω) (d i j : ℕ) : Option ω :=
  if T.valid (m d i) = true then
    if T.valid (m (T.frame (m d i)) j) = true then some (m (T.frame (m d i)) j) else none
  else none

variable {T} {m m' : Store ω} {D : Finset ℕ} {d d' i i' j p t : ℕ} {w : ω}

lemma ref_of_invalid (h : T.valid w = false) (p : ℕ) : T.ref w p = 0 := by simp [ref, h]

lemma ref_self (h : T.valid w = true) : T.ref w (T.frame w) = 1 := by simp [ref, h]

lemma ref_of_ne (h : T.frame w ≠ p) : T.ref w p = 0 := by simp [ref, h]

lemma ref_eq_ite (h : T.valid w = true) (p : ℕ) :
    T.ref w p = if T.frame w = p then 1 else 0 := by simp [ref, h]

lemma slotRefs_of_invalid (h : T.valid (m d i) = false) (p : ℕ) : T.slotRefs m d p i = 0 := by
  simp [slotRefs, ref, h]

lemma tableRefs_of_empty (h : ∀ j < T.slots, T.valid (m t j) = false) (p : ℕ) :
    T.tableRefs m t p = 0 :=
  Finset.sum_eq_zero fun j hj => ref_of_invalid (h j (Finset.mem_range.mp hj)) p

lemma dirRefs_of_empty (h : ∀ i < T.owned, T.valid (m d i) = false) (p : ℕ) :
    T.dirRefs m p d = if d = p then 1 else 0 := by
  unfold dirRefs
  rw [Finset.sum_eq_zero fun i hi => slotRefs_of_invalid (h i (Finset.mem_range.mp hi)) p,
    Nat.add_zero]

lemma Node.of_mem (h : d ∈ D) : T.Node m D d := Or.inl h

/-- A table that a directory points to is a node. -/
lemma Node.of_slot (hd : d ∈ D) (hi : i < T.owned) (hv : T.valid (m d i) = true) :
    T.Node m D (T.frame (m d i)) := Or.inr ⟨d, hd, i, hi, hv, rfl⟩

/-- A slot's references are part of the count. -/
lemma slotRefs_le_refCount (hd : d ∈ D) (hi : i < T.owned) (p : ℕ) :
    T.slotRefs m d p i ≤ T.refCount m D p := by
  have h1 : T.slotRefs m d p i ≤ ∑ i ∈ Finset.range T.owned, T.slotRefs m d p i :=
    Finset.single_le_sum (fun _ _ => Nat.zero_le _) (Finset.mem_range.mpr hi)
  have h2 : T.dirRefs m p d ≤ T.refCount m D p :=
    Finset.single_le_sum (fun _ _ => Nat.zero_le _) hd
  unfold dirRefs at h2
  omega

lemma refCount_pos_of_mem (hd : d ∈ D) : 0 < T.refCount m D d := by
  have h : T.dirRefs m d d ≤ T.refCount m D d :=
    Finset.single_le_sum (fun _ _ => Nat.zero_le _) hd
  have h1 : 1 ≤ T.dirRefs m d d := by unfold dirRefs; simp
  omega

lemma slotRefs_pos (hv : T.valid (m d i) = true) : 0 < T.slotRefs m d (T.frame (m d i)) i := by
  unfold slotRefs
  rw [ref_self hv]
  omega

lemma refCount_pos_of_node (h : T.Node m D p) : 0 < T.refCount m D p := by
  rcases h with h | ⟨d, hd, i, hi, hv, rfl⟩
  · exact refCount_pos_of_mem h
  · exact lt_of_lt_of_le (slotRefs_pos hv) (slotRefs_le_refCount hd hi _)

/-- A slot whose table points to `p` makes a reference to `p`. -/
lemma slotRefs_pos_of_table (hv : T.valid (m d i) = true) (hj : j < T.slots)
    (hw : T.valid (m (T.frame (m d i)) j) = true) :
    0 < T.slotRefs m d (T.frame (m (T.frame (m d i)) j)) i := by
  have h : T.ref (m (T.frame (m d i)) j) (T.frame (m (T.frame (m d i)) j)) ≤
      T.tableRefs m (T.frame (m d i)) (T.frame (m (T.frame (m d i)) j)) :=
    Finset.single_le_sum (f := fun j' => T.ref (m (T.frame (m d i)) j') _)
      (fun _ _ => Nat.zero_le _) (Finset.mem_range.mpr hj)
  rw [ref_self hw] at h
  unfold slotRefs
  rw [if_pos hv]
  omega

lemma refCount_pos_of_leaf (h : T.Leaf m D p) : 0 < T.refCount m D p := by
  obtain ⟨d, hd, i, hi, hv, j, hj, hw, rfl⟩ := h
  exact lt_of_lt_of_le (slotRefs_pos_of_table hv hj hw) (slotRefs_le_refCount hd hi _)

/-- A page that is referenced is a directory, a table, or a page that a table points to. -/
lemma node_or_leaf_of_refCount_pos (h : 0 < T.refCount m D p) : T.Node m D p ∨ T.Leaf m D p := by
  obtain ⟨d, hd, hpos⟩ := Finset.exists_ne_zero_of_sum_ne_zero (Nat.pos_iff_ne_zero.mp h)
  by_cases hdp : d = p
  · exact Or.inl (Or.inl (hdp ▸ hd))
  rw [dirRefs, if_neg hdp, Nat.zero_add] at hpos
  obtain ⟨i, hi, hpos⟩ := Finset.exists_ne_zero_of_sum_ne_zero hpos
  have hi := Finset.mem_range.mp hi
  have href : ∀ {w : ω}, T.ref w p ≠ 0 → T.valid w = true ∧ T.frame w = p := fun hr => by
    by_contra hn
    exact hr (if_neg hn)
  by_cases hr : T.ref (m d i) p = 0
  · rw [slotRefs, hr, Nat.zero_add] at hpos
    split_ifs at hpos with hv
    · obtain ⟨j, hj, hw⟩ := Finset.exists_ne_zero_of_sum_ne_zero hpos
      obtain ⟨hw, he⟩ := href hw
      exact Or.inr ⟨d, hd, i, hi, hv, j, Finset.mem_range.mp hj, hw, he⟩
    · exact absurd rfl hpos
  · obtain ⟨hv, he⟩ := href hr
    exact Or.inl (Or.inr ⟨d, hd, i, hi, hv, he⟩)

/-! ## Owned stores -/

/-- Two different owned slots reach a page at most as often as it is referenced. -/
lemma slotRefs_add_le_refCount (hd : d ∈ D) (hd' : d' ∈ D) (hi : i < T.owned) (hi' : i' < T.owned)
    (hne : ¬ (d = d' ∧ i = i')) (p : ℕ) :
    T.slotRefs m d p i + T.slotRefs m d' p i' ≤ T.refCount m D p := by
  by_cases h : d = d'
  · subst h
    have hi2 : i ≠ i' := fun h => hne ⟨rfl, h⟩
    have h1 := Counting.pair_le_sum (f := fun i => T.slotRefs m d p i) (Finset.mem_range.mpr hi)
      (Finset.mem_range.mpr hi') hi2
    have h2 : T.dirRefs m p d ≤ T.refCount m D p :=
      Finset.single_le_sum (fun _ _ => Nat.zero_le _) hd
    unfold dirRefs at h2
    omega
  · have h1 := Counting.pair_le_sum (f := fun d => T.dirRefs m p d) hd hd' h
    have h2 : T.slotRefs m d p i ≤ ∑ i ∈ Finset.range T.owned, T.slotRefs m d p i :=
      Finset.single_le_sum (fun _ _ => Nat.zero_le _) (Finset.mem_range.mpr hi)
    have h3 : T.slotRefs m d' p i' ≤ ∑ i ∈ Finset.range T.owned, T.slotRefs m d' p i :=
      Finset.single_le_sum (fun _ _ => Nat.zero_le _) (Finset.mem_range.mpr hi')
    change T.dirRefs m p d + T.dirRefs m p d' ≤ T.refCount m D p at h1
    unfold dirRefs at h1
    omega

/-- A directory that a slot reaches has two references. -/
lemma two_le_refCount_of_mem (hp : p ∈ D) (hd : d ∈ D) (hi : i < T.owned)
    (h : 0 < T.slotRefs m d p i) : 2 ≤ T.refCount m D p := by
  have h2 : T.slotRefs m d p i ≤ ∑ i ∈ Finset.range T.owned, T.slotRefs m d p i :=
    Finset.single_le_sum (fun _ _ => Nat.zero_le _) (Finset.mem_range.mpr hi)
  by_cases hpd : p = d
  · subst hpd
    have h1 : T.dirRefs m p p ≤ T.refCount m D p :=
      Finset.single_le_sum (fun _ _ => Nat.zero_le _) hd
    unfold dirRefs at h1
    simp only [↓reduceIte] at h1
    omega
  · have h1 := Counting.pair_le_sum (f := fun d => T.dirRefs m p d) hp hd hpd
    change T.dirRefs m p p + T.dirRefs m p d ≤ T.refCount m D p at h1
    unfold dirRefs at h1
    simp only [↓reduceIte] at h1
    omega

namespace Owned

variable (h : T.Owned m D)

include h

lemma refCount_dir (hd : d ∈ D) : T.refCount m D d = 1 := h d (Node.of_mem hd)

lemma refCount_table (hd : d ∈ D) (hi : i < T.owned) (hv : T.valid (m d i) = true) :
    T.refCount m D (T.frame (m d i)) = 1 := h _ (Node.of_slot hd hi hv)

/-- A table is not a directory. -/
lemma table_not_mem (hd : d ∈ D) (hi : i < T.owned) (hv : T.valid (m d i) = true) :
    T.frame (m d i) ∉ D := by
  intro hmem
  have h2 := two_le_refCount_of_mem hmem hd hi (slotRefs_pos hv)
  rw [h.refCount_dir hmem] at h2
  omega

/-- Different slots have different tables. -/
lemma table_inj (hd : d ∈ D) (hi : i < T.owned) (hv : T.valid (m d i) = true) (hd' : d' ∈ D)
    (hi' : i' < T.owned) (hv' : T.valid (m d' i') = true)
    (he : T.frame (m d i) = T.frame (m d' i')) : d = d' ∧ i = i' := by
  by_contra hne
  have h1 := slotRefs_add_le_refCount (m := m) hd hd' hi hi' hne (T.frame (m d i))
  have h2 := slotRefs_pos hv
  have h3 := slotRefs_pos hv'
  rw [← he] at h3
  rw [h.refCount_table hd hi hv] at h1
  omega

/-- A leaf is neither a directory nor a table. -/
lemma not_node_of_leaf (hl : T.Leaf m D p) : ¬ T.Node m D p := by
  intro hn
  have h1 := h p hn
  obtain ⟨d, hd, i, hi, hv, j, hj, hw, rfl⟩ := hl
  have hpos := slotRefs_pos_of_table hv hj hw
  rcases hn with hmem | ⟨d', hd', i', hi', hv', he⟩
  · have h2 := two_le_refCount_of_mem hmem hd hi hpos
    omega
  · by_cases hs : d = d' ∧ i = i'
    · obtain ⟨rfl, rfl⟩ := hs
      -- the slot points to its table and the table to itself: two references from one slot
      have h2 := slotRefs_le_refCount (m := m) hd hi (T.frame (m (T.frame (m d i)) j))
      have h3 : T.ref (m (T.frame (m d i)) j) (T.frame (m (T.frame (m d i)) j)) ≤
          T.tableRefs m (T.frame (m d i)) (T.frame (m (T.frame (m d i)) j)) :=
        Finset.single_le_sum (f := fun j' => T.ref (m (T.frame (m d i)) j') _)
          (fun _ _ => Nat.zero_le _) (Finset.mem_range.mpr hj)
      rw [ref_self hw] at h3
      unfold slotRefs at h2
      rw [if_pos hv, ref_eq_ite hv, if_pos he] at h2
      omega
    · have h2 := slotRefs_add_le_refCount (m := m) hd hd' hi hi' hs
        (T.frame (m (T.frame (m d i)) j))
      have h3 := slotRefs_pos hv'
      rw [he] at h3
      omega

end Owned

/-! ## Writing a table slot -/

/-- Writing a page that is neither a directory nor a table leaves every count as it was. -/
lemma refCount_congr (hdir : ∀ d ∈ D, ∀ i < T.owned, m' d i = m d i)
    (htab : ∀ d ∈ D, ∀ i < T.owned, T.valid (m d i) = true →
      ∀ j < T.slots, m' (T.frame (m d i)) j = m (T.frame (m d i)) j) (p : ℕ) :
    T.refCount m' D p = T.refCount m D p := by
  refine Finset.sum_congr rfl fun d hd => ?_
  unfold dirRefs
  congr 1
  refine Finset.sum_congr rfl fun i hi => ?_
  have hi := Finset.mem_range.mp hi
  unfold slotRefs
  rw [hdir d hd i hi]
  congr 1
  split_ifs with hv
  · refine Finset.sum_congr rfl fun j hj => ?_
    rw [htab d hd i hi hv j (Finset.mem_range.mp hj)]
  · rfl

/-- Two stores that agree on the directories and their tables have the same leaves. -/
lemma leaf_congr (hdir : ∀ d ∈ D, ∀ i < T.owned, m' d i = m d i)
    (htab : ∀ d ∈ D, ∀ i < T.owned, T.valid (m d i) = true →
      ∀ j < T.slots, m' (T.frame (m d i)) j = m (T.frame (m d i)) j)
    (hl : T.Leaf m' D p) : T.Leaf m D p := by
  obtain ⟨d, hd, i, hi, hv, j, hj, hw, he⟩ := hl
  rw [hdir d hd i hi] at hv hw he
  rw [htab d hd i hi hv j hj] at hw he
  exact ⟨d, hd, i, hi, hv, j, hj, hw, he⟩

/-- Two stores that agree on the directories have the same directories and tables. -/
lemma node_congr (hdir : ∀ d ∈ D, ∀ i < T.owned, m' d i = m d i) :
    T.Node m' D p ↔ T.Node m D p := by
  unfold Node
  refine or_congr_right ?_
  constructor
  · rintro ⟨d, hd, i, hi, hv, he⟩
    rw [hdir d hd i hi] at hv he
    exact ⟨d, hd, i, hi, hv, he⟩
  · rintro ⟨d, hd, i, hi, hv, he⟩
    rw [← hdir d hd i hi] at hv he
    exact ⟨d, hd, i, hi, hv, he⟩

/-- Filling a page that is not referenced leaves every count as it was. -/
lemma refCount_fill {z : ω} (h : ¬ T.Node m D t) (p : ℕ) :
    T.refCount (fill m t z) D p = T.refCount m D p := by
  refine refCount_congr (fun d hd i _ => fill_of_ne ?_) (fun d hd i hi hv j _ => fill_of_ne ?_) p
  · rintro rfl
    exact h (Node.of_mem hd)
  · rintro rfl
    exact h (Node.of_slot hd hi hv)

/-- **The counts after writing a table slot**: the references of the old word go, those of the
new word come. -/
lemma refCount_write_table (h : T.Owned m D) (hd : d ∈ D) (hi : i < T.owned)
    (hv : T.valid (m d i) = true) (hj : j < T.slots) (w : ω) (p : ℕ) :
    T.refCount (write m (T.frame (m d i)) j w) D p + T.ref (m (T.frame (m d i)) j) p =
      T.refCount m D p + T.ref w p := by
  set t := T.frame (m d i) with ht
  have htD : t ∉ D := h.table_not_mem hd hi hv
  have hdir : ∀ d' ∈ D, ∀ k, write m t j w d' k = m d' k := fun d' hd' k =>
    write_of_ne_page fun he => htD (he ▸ hd')
  have hslot : ∀ d' ∈ D, ∀ i' < T.owned, ¬ (d' = d ∧ i' = i) →
      T.slotRefs (write m t j w) d' p i' = T.slotRefs m d' p i' := by
    intro d' hd' i' hi' hne
    unfold slotRefs
    rw [hdir d' hd']
    congr 1
    split_ifs with hv'
    · refine Finset.sum_congr rfl fun k _ => ?_
      rw [write_of_ne_page fun he => hne (h.table_inj hd' hi' hv' hd hi hv he)]
    · rfl
  have htable : T.tableRefs (write m t j w) t p + T.ref (m t j) p =
      T.tableRefs m t p + T.ref w p := by
    have hc := Counting.sum_change (f := fun k => T.ref (write m t j w t k) p)
      (g := fun k => T.ref (m t k) p) (Finset.mem_range.mpr hj)
      (fun k _ hk => by rw [write_of_ne_slot hk])
    simpa [tableRefs] using hc
  have hsame : T.slotRefs (write m t j w) d p i + T.ref (m t j) p =
      T.slotRefs m d p i + T.ref w p := by
    unfold slotRefs
    rw [hdir d hd, if_pos hv, if_pos hv, ← ht]
    omega
  have hsum := Counting.sum_change (f := fun k => T.slotRefs (write m t j w) d p k)
    (g := fun k => T.slotRefs m d p k) (Finset.mem_range.mpr hi)
    (fun k hk hki => hslot d hd k (Finset.mem_range.mp hk) fun he => hki he.2)
  have hD := Counting.sum_change (f := fun e => T.dirRefs (write m t j w) p e)
    (g := fun e => T.dirRefs m p e) hd (fun e he hne => by
      unfold dirRefs
      congr 1
      exact Finset.sum_congr rfl fun k hk =>
        hslot e he k (Finset.mem_range.mp hk) fun h' => hne h'.1)
  change T.refCount (write m t j w) D p + T.dirRefs m p d =
    T.refCount m D p + T.dirRefs (write m t j w) p d at hD
  unfold dirRefs at hD
  omega

/-- Writing a table slot moves no directory and no table. -/
lemma node_write_table (h : T.Owned m D) (hd : d ∈ D) (hi : i < T.owned)
    (hv : T.valid (m d i) = true) : T.Node (write m (T.frame (m d i)) j w) D p ↔ T.Node m D p := by
  have htD := h.table_not_mem hd hi hv
  have hdir : ∀ d' ∈ D, ∀ k, write m (T.frame (m d i)) j w d' k = m d' k := fun d' hd' k =>
    write_of_ne_page fun he => htD (he ▸ hd')
  exact node_congr fun d' hd' i' _ => hdir d' hd' i'

/-- A store stays owned when a table slot is written with a word that points to no directory and
no table. -/
lemma Owned.write_table (h : T.Owned m D) (hd : d ∈ D) (hi : i < T.owned)
    (hv : T.valid (m d i) = true) (hj : j < T.slots)
    (hw : T.valid w = true → ¬ T.Node m D (T.frame w)) :
    T.Owned (write m (T.frame (m d i)) j w) D := by
  intro p hp
  rw [node_write_table h hd hi hv] at hp
  have hc := refCount_write_table h hd hi hv hj w p
  have hold : T.ref (m (T.frame (m d i)) j) p = 0 := by
    by_contra hne
    unfold ref at hne
    obtain ⟨hvj, rfl⟩ : _ ∧ _ := by simpa using hne
    exact h.not_node_of_leaf ⟨d, hd, i, hi, hv, j, hj, hvj, rfl⟩ hp
  have hnew : T.ref w p = 0 := by
    by_contra hne
    unfold ref at hne
    obtain ⟨hvw, rfl⟩ : _ ∧ _ := by simpa using hne
    exact hw hvw hp
  have h1 := h p hp
  omega

/-- The leaves after writing a table slot are old leaves or the page of the new word. -/
lemma leaf_write_table (h : T.Owned m D) (hd : d ∈ D) (hi : i < T.owned)
    (hv : T.valid (m d i) = true) (hl : T.Leaf (write m (T.frame (m d i)) j w) D p) :
    T.Leaf m D p ∨ T.valid w = true ∧ T.frame w = p := by
  have htD := h.table_not_mem hd hi hv
  obtain ⟨d', hd', i', hi', hv', k, hk, hw, he⟩ := hl
  have hdir : write m (T.frame (m d i)) j w d' i' = m d' i' :=
    write_of_ne_page fun he => htD (he ▸ hd')
  rw [hdir] at hv' hw he
  by_cases hs : T.frame (m d' i') = T.frame (m d i) ∧ k = j
  · rw [hs.1, hs.2, write_same] at hw he
    exact Or.inr ⟨hw, he⟩
  · rw [write_of_ne (not_and_or.mp hs)] at hw he
    exact Or.inl ⟨d', hd', i', hi', hv', k, hk, hw, he⟩

/-! ## Writing a directory slot -/

/-- **The counts after writing a directory slot**: the references made through the old word go,
those made through the new word come. -/
lemma refCount_write_dir (h : T.Owned m D) (hd : d ∈ D) (hi : i < T.owned) (w : ω) (p : ℕ) :
    T.refCount (write m d i w) D p + T.slotRefs m d p i =
      T.refCount m D p + T.slotRefs (write m d i w) d p i := by
  have hslot : ∀ d' ∈ D, ∀ i' < T.owned, ¬ (d' = d ∧ i' = i) →
      T.slotRefs (write m d i w) d' p i' = T.slotRefs m d' p i' := by
    intro d' hd' i' hi' hne
    unfold slotRefs
    rw [write_of_ne (not_and_or.mp hne)]
    congr 1
    split_ifs with hv'
    · have htab : T.frame (m d' i') ≠ d := fun he => h.table_not_mem hd' hi' hv' (he ▸ hd)
      refine Finset.sum_congr rfl fun k _ => ?_
      rw [write_of_ne_page htab]
    · rfl
  have hsum := Counting.sum_change (f := fun k => T.slotRefs (write m d i w) d p k)
    (g := fun k => T.slotRefs m d p k) (Finset.mem_range.mpr hi)
    (fun k hk hki => hslot d hd k (Finset.mem_range.mp hk) fun he => hki he.2)
  have hD := Counting.sum_change (f := fun e => T.dirRefs (write m d i w) p e)
    (g := fun e => T.dirRefs m p e) hd (fun e he hne => by
      unfold dirRefs
      congr 1
      exact Finset.sum_congr rfl fun k hk =>
        hslot e he k (Finset.mem_range.mp hk) fun h' => hne h'.1)
  change T.refCount (write m d i w) D p + T.dirRefs m p d =
    T.refCount m D p + T.dirRefs (write m d i w) p d at hD
  unfold dirRefs at hD
  omega

/-- An unreferenced page is no directory, no table and no leaf. -/
lemma not_node_of_refCount (h0 : T.refCount m D t = 0) : ¬ T.Node m D t := fun hn => by
  have := refCount_pos_of_node hn
  omega

/-- Installing an empty unreferenced page as a table adds one reference, to that page. -/
lemma refCount_install (h : T.Owned m D) (hd : d ∈ D) (hi : i < T.owned)
    (hv : T.valid (m d i) = false) (h0 : T.refCount m D t = 0)
    (hempty : ∀ j < T.slots, T.valid (m t j) = false) (hw : T.valid w = true)
    (ht : T.frame w = t) (p : ℕ) :
    T.refCount (write m d i w) D p = T.refCount m D p + if t = p then 1 else 0 := by
  have hc := refCount_write_dir h hd hi w p
  have htd : t ≠ d := by
    rintro rfl
    exact not_node_of_refCount h0 (Node.of_mem hd)
  have hnew : T.slotRefs (write m d i w) d p i = if t = p then 1 else 0 := by
    unfold slotRefs
    rw [write_same, if_pos hw, ref_eq_ite hw, ht, tableRefs_of_empty, Nat.add_zero]
    intro j hj
    rw [write_of_ne_page htd, hempty j hj]
  rw [hnew, slotRefs_of_invalid hv] at hc
  omega

lemma node_write_dir (hn : T.Node (write m d i w) D p) : T.Node m D p ∨ p = T.frame w := by
  rcases hn with hmem | ⟨d', hd', i', hi', hv', he⟩
  · exact Or.inl (Node.of_mem hmem)
  · by_cases hs : d' = d ∧ i' = i
    · rw [hs.1, hs.2, write_same] at he
      exact Or.inr he.symm
    · rw [write_of_ne (not_and_or.mp hs)] at hv' he
      exact Or.inl (he ▸ Node.of_slot hd' hi' hv')

/-- An empty table can be installed where there is none. -/
lemma Owned.install (h : T.Owned m D) (hd : d ∈ D) (hi : i < T.owned)
    (hv : T.valid (m d i) = false) (h0 : T.refCount m D t = 0)
    (hempty : ∀ j < T.slots, T.valid (m t j) = false) (hw : T.valid w = true)
    (ht : T.frame w = t) : T.Owned (write m d i w) D := by
  intro p hp
  rw [refCount_install h hd hi hv h0 hempty hw ht]
  rcases node_write_dir hp with hn | hp
  · have htp : t ≠ p := by
      rintro rfl
      exact not_node_of_refCount h0 hn
    rw [h p hn, if_neg htp]
  · rw [hp, ht, h0, if_pos rfl]

/-- An empty table brings no leaves. -/
lemma leaf_install (h : T.Owned m D) (hd : d ∈ D) (h0 : T.refCount m D t = 0)
    (hempty : ∀ j < T.slots, T.valid (m t j) = false) (ht : T.frame w = t)
    (hl : T.Leaf (write m d i w) D p) : T.Leaf m D p := by
  have htd : t ≠ d := by
    rintro rfl
    exact not_node_of_refCount h0 (Node.of_mem hd)
  obtain ⟨d', hd', i', hi', hv', j, hj, hwj, he⟩ := hl
  by_cases hs : d' = d ∧ i' = i
  · rw [hs.1, hs.2, write_same, ht, write_of_ne_page htd, hempty j hj] at hwj
    exact absurd hwj Bool.false_ne_true
  · rw [write_of_ne (not_and_or.mp hs)] at hv' hwj he
    have htab : T.frame (m d' i') ≠ d := fun he => h.table_not_mem hd' hi' hv' (he ▸ hd)
    rw [write_of_ne_page htab] at hwj he
    exact ⟨d', hd', i', hi', hv', j, hj, hwj, he⟩

/-- Clearing the slot of an empty table takes one reference away, that to the table. -/
lemma refCount_uninstall (h : T.Owned m D) (hd : d ∈ D) (hi : i < T.owned)
    (hv : T.valid (m d i) = true)
    (hempty : ∀ j < T.slots, T.valid (m (T.frame (m d i)) j) = false) (hw : T.valid w = false)
    (p : ℕ) :
    T.refCount (write m d i w) D p + (if T.frame (m d i) = p then 1 else 0) =
      T.refCount m D p := by
  have hc := refCount_write_dir h hd hi w p
  have hold : T.slotRefs m d p i = if T.frame (m d i) = p then 1 else 0 := by
    unfold slotRefs
    rw [if_pos hv, ref_eq_ite hv, tableRefs_of_empty hempty, Nat.add_zero]
  have hnew : T.slotRefs (write m d i w) d p i = 0 := slotRefs_of_invalid (by rwa [write_same]) p
  omega

lemma node_uninstall (h : T.Owned m D) (hd : d ∈ D) (hi : i < T.owned)
    (hv : T.valid (m d i) = true) (hw : T.valid w = false)
    (hn : T.Node (write m d i w) D p) : T.Node m D p ∧ p ≠ T.frame (m d i) := by
  rcases hn with hmem | ⟨d', hd', i', hi', hv', he⟩
  · exact ⟨Node.of_mem hmem, fun he => h.table_not_mem hd hi hv (he ▸ hmem)⟩
  · have hs : ¬ (d' = d ∧ i' = i) := by
      rintro ⟨rfl, rfl⟩
      rw [write_same, hw] at hv'
      exact Bool.false_ne_true hv'
    rw [write_of_ne (not_and_or.mp hs)] at hv' he
    subst he
    exact ⟨Node.of_slot hd' hi' hv', fun he => hs (h.table_inj hd' hi' hv' hd hi hv he)⟩

lemma Owned.uninstall (h : T.Owned m D) (hd : d ∈ D) (hi : i < T.owned)
    (hv : T.valid (m d i) = true)
    (hempty : ∀ j < T.slots, T.valid (m (T.frame (m d i)) j) = false)
    (hw : T.valid w = false) : T.Owned (write m d i w) D := by
  intro p hp
  obtain ⟨hn, hne⟩ := node_uninstall h hd hi hv hw hp
  have hc := refCount_uninstall h hd hi hv hempty hw p
  rw [if_neg hne.symm, h p hn] at hc
  omega

/-- A slot that is cleared brings no leaves. -/
lemma leaf_uninstall (h : T.Owned m D) (hd : d ∈ D) (hw : T.valid w = false)
    (hl : T.Leaf (write m d i w) D p) : T.Leaf m D p := by
  obtain ⟨d', hd', i', hi', hv', j, hj, hwj, he⟩ := hl
  have hs : ¬ (d' = d ∧ i' = i) := by
    rintro ⟨rfl, rfl⟩
    rw [write_same, hw] at hv'
    exact Bool.false_ne_true hv'
  rw [write_of_ne (not_and_or.mp hs)] at hv' hwj he
  have htab : T.frame (m d' i') ≠ d := fun he => h.table_not_mem hd' hi' hv' (he ▸ hd)
  rw [write_of_ne_page htab] at hwj he
  exact ⟨d', hd', i', hi', hv', j, hj, hwj, he⟩

/-! ## Adding and dropping a directory -/

section Directory

variable (hempty : ∀ i < T.owned, T.valid (m d i) = false)

include hempty

/-- A new directory with no valid owned slot adds one reference, to its own page. -/
lemma refCount_insert (hd : d ∉ D) (p : ℕ) :
    T.refCount m (insert d D) p = T.refCount m D p + if d = p then 1 else 0 := by
  unfold refCount
  rw [Finset.sum_insert hd, dirRefs_of_empty hempty, Nat.add_comm]

/-- Dropping a directory with no valid owned slot takes away the reference to its page. -/
lemma refCount_erase (hd : d ∈ D) (p : ℕ) :
    T.refCount m (D.erase d) p + (if d = p then 1 else 0) = T.refCount m D p := by
  unfold refCount
  rw [← Finset.add_sum_erase D _ hd, dirRefs_of_empty hempty, Nat.add_comm]

lemma node_insert (hn : T.Node m (insert d D) p) : T.Node m D p ∨ p = d := by
  rcases hn with hmem | ⟨d', hd', i', hi', hv', he⟩
  · exact (Finset.mem_insert.mp hmem).symm.imp Node.of_mem id
  · rcases Finset.mem_insert.mp hd' with rfl | hd'
    · rw [hempty i' hi'] at hv'
      exact absurd hv' Bool.false_ne_true
    · exact Or.inl (Or.inr ⟨d', hd', i', hi', hv', he⟩)

lemma Owned.insert (h : T.Owned m D) (h0 : T.refCount m D d = 0) :
    T.Owned m (insert d D) := by
  have hd : d ∉ D := fun hd => not_node_of_refCount h0 (Node.of_mem hd)
  intro p hp
  rw [refCount_insert hempty hd]
  rcases node_insert hempty hp with hn | rfl
  · have hdp : d ≠ p := by
      rintro rfl
      exact not_node_of_refCount h0 hn
    rw [h p hn, if_neg hdp]
  · rw [h0, if_pos rfl]

lemma leaf_insert (hl : T.Leaf m (insert d D) p) : T.Leaf m D p := by
  obtain ⟨d', hd', i', hi', hv', hrest⟩ := hl
  rcases Finset.mem_insert.mp hd' with rfl | hd'
  · rw [hempty i' hi'] at hv'
    exact absurd hv' Bool.false_ne_true
  · exact ⟨d', hd', i', hi', hv', hrest⟩

lemma Owned.erase (h : T.Owned m D) (hd : d ∈ D) : T.Owned m (D.erase d) := by
  intro p hp
  have hn : T.Node m D p ∧ p ≠ d := by
    rcases hp with hmem | ⟨d', hd', i', hi', hv', rfl⟩
    · exact ⟨Node.of_mem (Finset.mem_of_mem_erase hmem), Finset.ne_of_mem_erase hmem⟩
    · have hd' := Finset.mem_of_mem_erase hd'
      exact ⟨Node.of_slot hd' hi' hv', fun he => h.table_not_mem hd' hi' hv' (he ▸ hd)⟩
  have hc := refCount_erase hempty hd p
  rw [if_neg hn.2.symm, h p hn.1] at hc
  omega

end Directory

lemma leaf_erase (hl : T.Leaf m (D.erase d) p) : T.Leaf m D p := by
  obtain ⟨d', hd', hrest⟩ := hl
  exact ⟨d', Finset.mem_of_mem_erase hd', hrest⟩

/-! ## Lookups -/

/-- A lookup reads one directory word and one table word. -/
lemma lookup_congr (hdir : m' d i = m d i)
    (htab : T.valid (m d i) = true → m' (T.frame (m d i)) j = m (T.frame (m d i)) j) :
    T.lookup m' d i j = T.lookup m d i j := by
  unfold lookup
  rw [hdir]
  split_ifs with hv <;> simp_all

lemma lookup_eq_some_iff :
    T.lookup m d i j = some w ↔ T.valid (m d i) = true ∧ m (T.frame (m d i)) j = w ∧
      T.valid w = true := by
  unfold lookup
  split_ifs with hv hw
  · simp only [Option.some.injEq, hv, true_and]
    constructor
    · rintro rfl
      exact ⟨rfl, hw⟩
    · exact And.left
  · simp only [hv, true_and, false_iff, not_and]
    rintro rfl
    exact hw
  · simp [hv]

lemma lookup_eq_none_iff : T.lookup m d i j = none ↔
    (T.valid (m d i) = true → T.valid (m (T.frame (m d i)) j) = false) := by
  unfold lookup
  split_ifs with hv hw
  · simp [hw, hv]
  · simp [hw]
  · simp [hv]

lemma leaf_of_lookup (hd : d ∈ D) (hi : i < T.owned) (hj : j < T.slots)
    (hl : T.lookup m d i j = some w) : T.Leaf m D (T.frame w) := by
  obtain ⟨hv, rfl, hw⟩ := lookup_eq_some_iff.mp hl
  exact ⟨d, hd, i, hi, hv, j, hj, hw, rfl⟩

/-- **Writing a table slot** changes the lookup through that slot and no other. -/
lemma lookup_write_table (h : T.Owned m D) (hd : d ∈ D) (hi : i < T.owned)
    (hv : T.valid (m d i) = true) (hd' : d' ∈ D) (hi' : i' < T.owned) (j j' : ℕ) (w : ω) :
    T.lookup (write m (T.frame (m d i)) j w) d' i' j' =
      if d' = d ∧ i' = i ∧ j' = j then if T.valid w = true then some w else none
      else T.lookup m d' i' j' := by
  have htD := h.table_not_mem hd hi hv
  have hdir : write m (T.frame (m d i)) j w d' i' = m d' i' :=
    write_of_ne_page fun he => htD (he ▸ hd')
  split_ifs with hs hw
  · obtain ⟨rfl, rfl, rfl⟩ := hs
    refine lookup_eq_some_iff.mpr ⟨by rwa [hdir], by rw [hdir, write_same], hw⟩
  · obtain ⟨rfl, rfl, rfl⟩ := hs
    unfold lookup
    rw [hdir, if_pos hv, write_same, if_neg hw]
  · refine lookup_congr hdir fun hv' => write_of_ne ?_
    by_contra hne
    push Not at hne
    obtain ⟨rfl, rfl⟩ := h.table_inj hd' hi' hv' hd hi hv hne.1
    exact hs ⟨rfl, rfl, hne.2⟩

/-- Writing a directory slot that was not valid with a word for an empty table changes no
lookup. -/
lemma lookup_install (h : T.Owned m D) (hd : d ∈ D) (hv : T.valid (m d i) = false)
    (h0 : T.refCount m D t = 0) (hempty : ∀ j < T.slots, T.valid (m t j) = false)
    (ht : T.frame w = t) (hd' : d' ∈ D) (hi' : i' < T.owned) (hj : j < T.slots) :
    T.lookup (write m d i w) d' i' j = T.lookup m d' i' j := by
  have htd : t ≠ d := by
    rintro rfl
    exact not_node_of_refCount h0 (Node.of_mem hd)
  by_cases hs : d' = d ∧ i' = i
  · obtain ⟨rfl, rfl⟩ := hs
    unfold lookup
    rw [write_same, ht, write_of_ne_page htd, hempty j hj, hv]
    simp
  · refine lookup_congr (write_of_ne (not_and_or.mp hs)) fun hv' => write_of_ne_page fun he => ?_
    exact h.table_not_mem hd' hi' hv' (he ▸ hd)

end Shape

end TwoLevel
